import Pebbles.Library.Runs
import Mathlib.Data.List.Nodup
import Mathlib.Tactic.Common
import Mathlib.Algebra.Group.Nat.Defs
import Mathlib.Algebra.Group.Int.Defs

/-! # Semaphores of the thread library

`sem_wait` and `sem_signal` of `user/libthread/semaphore.c`, a critical section under the mutex
being one step. A thread that finds no unit releases the mutex and queues up in `cond_wait`; a
signal moves the first queued thread to those that are on their way back to the mutex, and a thread
that comes along may take the unit before it. -/

namespace Pebbles

open Transition

variable {ι : Type*}

/-! ## The operations -/

/-- **A semaphore**, with the threads inside `cond_wait` and two counts of what has happened. -/
structure Semaphore (ι : Type*) where
  /-- `sem -> count`. -/
  count : Int
  /-- The threads queued on `sem -> cvar`. -/
  waitList : List ι
  /-- The threads woken from it that have not yet acquired the mutex again. -/
  woken : List ι
  /-- The completed calls of `sem_wait`. -/
  completed : Nat
  /-- The executed increments of `sem_signal`. -/
  signals : Nat
  deriving DecidableEq

/-- The value of an `int` after an operation that may overflow. -/
def wrapInt (x : Int) : Int := x.bmod (2 ^ 32)

/-- Nothing happens to values that fit. -/
theorem wrapInt_of_fits {x : Int} (low : 0 ≤ x) (high : x < 2 ^ 31) : wrapInt x = x := by
  unfold wrapInt
  rw [Int.bmod_def]
  omega

namespace Semaphore

/-- `sem_init`. -/
def init (count : Int) : Semaphore ι := ⟨count, [], [], 0, 0⟩

/-- `cond_wait`: the thread `t` queues up and releases the mutex. -/
def condWait (s : Semaphore ι) (t : ι) : Semaphore ι := { s with waitList := s.waitList ++ [t] }

/-- `cond_signal`: the first queued thread is woken. -/
def condSignal (s : Semaphore ι) : Semaphore ι :=
  match s.waitList with
  | [] => s
  | t :: ts => { s with waitList := ts, woken := s.woken ++ [t] }

/-- The loop of `sem_wait`, with the mutex held, up to `cond_wait` or to the end. -/
def waitLoop (s : Semaphore ι) (t : ι) : Semaphore ι :=
  if s.count ≤ 0 then s.condWait t
  else { s with count := wrapInt (s.count - 1), completed := s.completed + 1 }

/-- `sem_signal`. -/
def semSignal (s : Semaphore ι) : Semaphore ι :=
  ({ s with count := wrapInt (s.count + 1), signals := s.signals + 1 }).condSignal

end Semaphore

/-- What a thread does next. -/
inductive SemMove (ι : Type*) where
  /-- The thread calls `sem_wait` and gets the mutex. -/
  | wait (t : ι)
  /-- The woken thread gets the mutex again, inside `cond_wait`. -/
  | resume (t : ι)
  /-- The thread calls `sem_signal` and gets the mutex. -/
  | signal (t : ι)
  deriving DecidableEq

namespace Semaphore

variable [DecidableEq ι]

/-- The thread is not inside `cond_wait`. -/
def Free (s : Semaphore ι) (t : ι) : Prop := t ∉ s.waitList ∧ t ∉ s.woken

instance (s : Semaphore ι) (t : ι) : Decidable (s.Free t) := inferInstanceAs (Decidable (_ ∧ _))

/-- **One critical section.** -/
def step (s : Semaphore ι) : SemMove ι → Option (Semaphore ι)
  | .wait t => if s.Free t then some (s.waitLoop t) else none
  | .resume t =>
      if t ∈ s.woken then some ({ s with woken := s.woken.erase t }.waitLoop t) else none
  | .signal t => if s.Free t then some s.semSignal else none

/-- The steps as a relation. -/
def Step (s : Semaphore ι) (a : SemMove ι) (s' : Semaphore ι) : Prop := s.step a = some s'

/-- The increment of a signal fits into an `int`. -/
def Fits (s : Semaphore ι) : SemMove ι → Prop
  | .signal _ => s.count < 2 ^ 31 - 1
  | _ => True

instance (s : Semaphore ι) (a : SemMove ι) : Decidable (s.Fits a) :=
  match a with
  | .signal _ => inferInstanceAs (Decidable (s.count < 2 ^ 31 - 1))
  | .wait _ | .resume _ => inferInstanceAs (Decidable True)

/-! ## Conservation -/

/-- **Units are conserved and wake-ups are not lost**, from `c` units at the start. -/
structure Conserves (c : Int) (s : Semaphore ι) : Prop where
  /-- The count is never negative. -/
  nonneg : 0 ≤ s.count
  /-- Units taken and units left are those of the start and those added. -/
  balance : s.count + s.completed = c + s.signals
  /-- While a thread is queued, each free unit has a woken thread that is on its way. -/
  awake : s.waitList ≠ [] → s.count ≤ s.woken.length
  /-- No thread is twice inside `cond_wait`. -/
  nodup : (s.waitList ++ s.woken).Nodup

/-- The invariant also bounds the count. -/
structure Held (c : Int) (s : Semaphore ι) : Prop extends Conserves c s where
  /-- The count fits into an `int`. -/
  fits : s.count < 2 ^ 31

omit [DecidableEq ι] in
/-- At the start. -/
theorem held_init {c : Int} (low : 0 ≤ c) (high : c < 2 ^ 31) : Held c (init c : Semaphore ι) where
  nonneg := low
  balance := by simp [init]
  awake h := absurd rfl h
  nodup := List.nodup_nil
  fits := high

omit [DecidableEq ι] in
/-- **The loop** of a thread that holds the mutex. The unit it takes is one that no other thread
was woken for, or one whose thread will find nothing and queue up again. -/
theorem waitLoop_held {c : Int} {s : Semaphore ι} {t : ι} (nonneg : 0 ≤ s.count)
    (balance : s.count + s.completed = c + s.signals)
    (awake : s.waitList ≠ [] → s.count ≤ s.woken.length + 1) (fits : s.count < 2 ^ 31)
    (nodup : (t :: (s.waitList ++ s.woken)).Nodup) : Held c (s.waitLoop t) := by
  obtain ⟨hfree, hnodup⟩ := List.nodup_cons.mp nodup
  unfold waitLoop
  split_ifs with hcount
  · refine ⟨⟨nonneg, balance, fun _ => ?_, ?_⟩, fits⟩
    · show s.count ≤ (s.woken.length : Int)
      omega
    · show (s.waitList ++ [t] ++ s.woken).Nodup
      rw [List.append_assoc]
      exact List.nodup_middle.mpr nodup
  · have hwrap : wrapInt (s.count - 1) = s.count - 1 := wrapInt_of_fits (by omega) (by omega)
    refine ⟨⟨?_, ?_, fun hq => ?_, hnodup⟩, ?_⟩
    · show 0 ≤ wrapInt (s.count - 1)
      omega
    · show wrapInt (s.count - 1) + ((s.completed + 1 : Nat) : Int) = c + s.signals
      push_cast
      omega
    · have hbound := awake hq
      show wrapInt (s.count - 1) ≤ (s.woken.length : Int)
      omega
    · show wrapInt (s.count - 1) < 2 ^ 31
      omega

omit [DecidableEq ι] in
/-- **A signal** adds a unit, and a woken thread for it if one is queued. -/
theorem Held.semSignal {c : Int} {s : Semaphore ι} (h : Held c s) (room : s.count < 2 ^ 31 - 1) :
    Held c s.semSignal := by
  have hnonneg := h.nonneg
  have hbalance := h.balance
  have hwrap : wrapInt (s.count + 1) = s.count + 1 := wrapInt_of_fits (by omega) (by omega)
  have hsum : s.count + 1 + s.completed = c + ((s.signals + 1 : Nat) : Int) := by
    push_cast
    omega
  cases hq : s.waitList with
  | nil =>
      have heq : s.semSignal = { s with count := s.count + 1, signals := s.signals + 1 } := by
        simp only [Semaphore.semSignal, condSignal, hq, hwrap]
      rw [heq]
      refine ⟨⟨?_, hsum, fun hne => absurd hq hne, h.nodup⟩, ?_⟩
      · show 0 ≤ s.count + 1
        omega
      · show s.count + 1 < 2 ^ 31
        omega
  | cons u us =>
      have heq : s.semSignal =
          ⟨s.count + 1, us, s.woken ++ [u], s.completed, s.signals + 1⟩ := by
        simp only [Semaphore.semSignal, condSignal, hq, hwrap]
      have hbound := h.awake (by rw [hq]; exact List.cons_ne_nil u us)
      have hnodup := h.nodup
      rw [hq] at hnodup
      have hperm : (u :: (us ++ s.woken)).Perm (us ++ (s.woken ++ [u])) := by
        rw [← List.append_assoc]
        exact (List.perm_append_singleton u (us ++ s.woken)).symm
      rw [heq]
      refine ⟨⟨?_, hsum, fun _ => ?_, hperm.nodup_iff.mp hnodup⟩, ?_⟩
      · show 0 ≤ s.count + 1
        omega
      · -- the woken thread makes up for the new unit
        show s.count + 1 ≤ ((s.woken ++ [u]).length : Int)
        rw [List.length_append, List.length_singleton]
        push_cast
        omega
      · show s.count + 1 < 2 ^ 31
        omega

/-- **Step lemma.** -/
theorem Held.step {c : Int} {s s' : Semaphore ι} {a : SemMove ι} (h : Held c s) (hs : s.Step a s')
    (fits : s.Fits a) : Held c s' := by
  cases a with
  | wait t =>
      simp only [Step, Semaphore.step] at hs
      split_ifs at hs with hfree
      obtain rfl := Option.some.inj hs
      apply waitLoop_held h.nonneg h.balance _ h.fits
      · refine List.nodup_cons.mpr ⟨fun hmem => ?_, h.nodup⟩
        exact (List.mem_append.mp hmem).elim hfree.1 hfree.2
      · intro hq
        have hbound := h.awake hq
        omega
  | resume t =>
      simp only [Step, Semaphore.step] at hs
      split_ifs at hs with hwoken
      obtain rfl := Option.some.inj hs
      have hlen := List.length_erase_of_mem hwoken
      have hpos := List.length_pos_of_mem hwoken
      have hperm : (s.waitList ++ s.woken).Perm (t :: (s.waitList ++ s.woken.erase t)) :=
        ((List.perm_cons_erase hwoken).append_left s.waitList).trans List.perm_middle
      refine waitLoop_held (s := { s with woken := s.woken.erase t }) h.nonneg h.balance ?_ h.fits
        (hperm.nodup_iff.mp h.nodup)
      intro hq
      have hbound := h.awake hq
      show s.count ≤ ((s.woken.erase t).length : Int) + 1
      omega
  | signal t =>
      simp only [Step, Semaphore.step] at hs
      split_ifs at hs with hfree
      obtain rfl := Option.some.inj hs
      exact h.semSignal fits

/-- **Semaphores conserve their units and lose no wake-up**, in every interleaving of any number of
threads in which no `sem_signal` increments a count of `INT_MAX`: the count is never negative; what
is left and what was taken is what was there and what was added; and while a thread is queued the
count is at most the number of woken threads that have not come back to the mutex. -/
theorem semaphore_conserves {c : Int} (low : 0 ≤ c) (high : c < 2 ^ 31) {moves : List (SemMove ι)}
    {s : Semaphore ι} (run : Run (Guarded Step Fits) (init c) moves s) : Conserves c s := by
  apply Held.toConserves
  apply run.invariant (held_init low high)
  rintro u a v hu ⟨hstep, hfits⟩
  exact hu.step hstep hfits

/-- Thread 2 takes the unit that thread 1 was woken for, and thread 1 queues up again. -/
theorem semaphore_conserves_barging : Conserves 0 (⟨0, [1], [], 1, 1⟩ : Semaphore Nat) := by
  have hruns : runList (fun s a => if decide (Fits s a) = true then step s a else none)
      (init 0 : Semaphore Nat) [.wait 1, .signal 3, .wait 2, .resume 1] =
        some ⟨0, [1], [], 1, 1⟩ := by decide
  apply semaphore_conserves (by decide) (by decide)
  exact Run.guarded_of_runList (fun _ _ => of_decide_eq_true) hruns

/-- **The count overflows**: after `sem_init` with `INT_MAX` one `sem_signal` makes it negative. -/
theorem semaphore_count_overflows :
    (0 : Int) ≤ 2 ^ 31 - 1 ∧ ∃ s : Semaphore Nat,
      Run Step (init (2 ^ 31 - 1)) [.signal 0] s ∧ s.count < 0 := by
  refine ⟨by decide, ⟨-2 ^ 31, [], [], 0, 1⟩, ?_, by decide⟩
  exact Run.of_runList (by decide)

end Semaphore

end Pebbles
