import Pebbles.Libthread.FailedCreate
import Pebbles.Libthread.JoinedOnce
import Pebbles.Libthread.ThreadStacks
import Pebbles.Memory.PageTables

/-! # Joining the first thread

`thr_init` sets the `status` of the first thread's `thread_t` and nothing else: its `joining_tid`,
its `base` and the words of its mutex and its condition variable are what `malloc` has returned.
Here is the library with these words, and what they must be for the first thread to be joined like
any other. -/

namespace Pebbles.ThreadLib

open Monitors Transition
open Memory (userMemStart)

/-! ## The words of the block -/

/-- `mutex_t`, with the word of its spinlock. -/
structure MutexT where
  /-- `status`. -/
  status : Int
  /-- `lock.state`. -/
  lock : Int

/-- `cond_t`, with the word of its spinlock and `wait_list`. -/
structure CondT where
  /-- `status`. -/
  status : Int
  /-- `lock.state`. -/
  lock : Int
  /-- `wait_list.length`. -/
  length : Int
  /-- `wait_list.head`, when it is not a node that was put into the list. -/
  head : UInt32
  /-- `wait_list.tail`, in the same way. -/
  tail : UInt32

/-- `MUTEX_UNAVAILABLE` and `CVAR_UNAVAILABLE`. -/
def unavailable : Int := -1

/-- `mutex_init`. -/
def mutexInit : MutexT := ⟨0, 0⟩

/-- `cond_init`. -/
def condInit : CondT := ⟨0, 0, 0, 0, 0⟩

/-- **How a mutex with these words acts**: `mutex_lock` passes when the status says so, and spins as
long as the lock word is not 0. Nobody is going to clear a word that no thread has set. -/
def MutexT.acts (mp : MutexT) : Mutex Int :=
  if mp.status = unavailable then .destroyed else if mp.lock ≠ 0 then .held (-1) else .free

/-- The block that `malloc` returns in `thr_init`. -/
structure RootBlock where
  /-- The fields before the mutex. -/
  fields : ThreadT
  /-- `t_mutex`. -/
  tMutex : MutexT
  /-- `t_cond`. -/
  tCond : CondT

/-- **The state**, with the words of `t_cond` of the first thread. While `head` and `tail` are 0 the
list is the queue. -/
structure RootLib extends Lib where
  /-- `t_cond`. -/
  cond : CondT

/-- Where a stack can be: a page-aligned user address, as `new_pages` wants it. -/
def StackBase (base : Nat) : Prop := base % 4096 = 0 ∧ userMemStart ≤ base

instance (base : Nat) : Decidable (StackBase base) :=
  inferInstanceAs (Decidable (_ ∧ _))

namespace RootLib

variable (s : RootLib)

/-! ## The functions -/

/-- After `thr_init`. -/
def start (root : Nat) (content : RootBlock) : RootLib where
  toLib := { Lib.init root content.fields with
    mutex := Function.update (fun _ => .free) (.thread 0) content.tMutex.acts }
  cond := content.tCond

/-- The rest of the library is as before. -/
def lift (e : Event) : Option RootLib := (s.toLib.next e).map fun l => { s with toLib := l }

/-- A thread goes to a place. -/
def move (t : Int) (p : Pc) : RootLib := { s with toLib := s.toLib.move t p }

/-- `cond_wait(&thread -> t_cond, &thread -> t_mutex)`. A list with a stray tail is written through
it, after the mutex was released. -/
def condWait (t tid : Int) : Option RootLib :=
  if s.cond.status = unavailable ∨ s.mutex (.thread 0) = .destroyed then
    some (s.move t (.joinLoop tid 0))
  else if s.cond.lock ≠ 0 then none
  else if s.cond.tail ≠ 0 then
    some { s with
      toLib := { s.toLib.move t .fault with mutex := Function.update s.mutex (.thread 0) .free }
      cond := { s.cond with lock := 1 } }
  else
    (s.toLib.next (.go t)).map fun l =>
      ⟨l, { s.cond with length := s.cond.length + 1, head := 0 }⟩

/-- `cond_signal(&thread -> t_cond)`. A stray head is read through. -/
def condSignal (t : Int) : Option RootLib :=
  if s.cond.status = unavailable then some (s.move t (.exitUnlockThread 0))
  else if s.cond.lock ≠ 0 then none
  else if s.cond.head ≠ 0 then
    some { s with toLib := s.toLib.move t .fault, cond := { s.cond with lock := 1 } }
  else
    (s.toLib.next (.go t)).map fun l =>
      ⟨l, { s.cond with
        length := if s.queue (.thread 0) = [] then s.cond.length else s.cond.length - 1 }⟩

/-- `mutex_destroy` and `cond_destroy`, before the place `p`. -/
def destroy (t : Int) (p : Pc) : RootLib :=
  if s.locked (.thread 0) then s.move t .vanished
  else
    let s1 : RootLib := { s with mutex := Function.update s.mutex (.thread 0) .destroyed }
    if s.cond.length ≠ 0 ∨ s.cond.lock = 1 then s1.move t .vanished
    else
      { s1 with
        toLib := (s1.toLib.setReaped 0 .destroyed).move t p
        cond := { s.cond with status := unavailable } }

/-- **One event.** A stack is mapped where `new_pages` allows it. -/
def next (e : Event) : Option RootLib :=
  match e with
  | .probe _ base => if StackBase base then s.lift e else none
  | .go t =>
      match s.pc t with
      | .joinWait tid 0 => s.condWait t tid
      | .exitSignal 0 => s.condSignal t
      | .reapDestroy tid 0 v => some (s.destroy t (.reapRemove tid 0 v))
      | .lastNext =>
          match s.nodes with
          | (_, 0) :: rest =>
              some ({ s with nodes := rest }.destroy t
                (if (s.block 0).tid = t then .lastNext else .lastRemove 0))
          | _ => s.lift e
      | _ => s.lift e
  | _ => s.lift e

/-- The events as steps. -/
def Step (s : RootLib) (e : Event) (s' : RootLib) : Prop := s.next e = some s'

end RootLib

/-! ## The property and the condition -/

/-- **The first thread is joined like any other**: a call of `thr_join` is not turned away,
`t_mutex` is free or held by a thread that will release it, the call sleeps until `thr_exit` signals
`t_cond`, wakes up then, may destroy both, removes no pages, and returns with the status of the
exit. -/
structure RootLib.JoinsRoot (s : RootLib) (root : Int) : Prop where
  /-- The call is accepted. -/
  accepted : ∀ u, s.pc u ≠ .joinReject root 0
  /-- The mutex is there, and who holds it is between a lock and an unlock. -/
  mutex : ∀ u v, s.pc u = .joinLockThread root 0 ∨ s.pc u = .joinRelock root 0 ∨
    s.pc u = .exitLockThread v 0 → s.mutex (.thread 0) = .free ∨
      ∃ x, s.mutex (.thread 0) = .held x ∧ (s.pc x).holdsThread 0 = true
  /-- `cond_wait` puts the call to sleep and releases the mutex. -/
  waits : ∀ u, s.pc u = .joinWait root 0 → ∃ s', s.Step (.go u) s' ∧
    s'.pc u = .joinAsleep root 0 ∧ s'.mutex (.thread 0) = .free
  /-- It sleeps as long as the first thread has not exited and signalled. -/
  sleeps : ∀ u, s.pc u = .joinAsleep root 0 →
    (s.block 0).status ≠ .exit ∨ s.pc root = .exitSignal 0
  /-- `cond_signal` wakes it. -/
  signals : s.pc root = .exitSignal 0 → ∃ s', s.Step (.go root) s' ∧
    s'.pc root = .exitUnlockThread 0 ∧ ∀ u, s'.pc u ≠ .joinAsleep root 0
  /-- `thr_reap` gets past the mutex and the condition variable. -/
  destroys : ∀ u v, s.pc u = .reapDestroy root 0 v → ∃ s', s.Step (.go u) s' ∧
    s'.pc u = .reapRemove root 0 v
  /-- It removes no stack. -/
  removes : ∀ u v, s.pc u = .reapRemove root 0 v → s.mapped (s.block 0).base = none
  /-- The call goes on when the first thread has called `thr_exit`, with the status of this call, -/
  read : ∀ u v, (s.pc u).result = some (root, v) → s.exited root = some v
  /-- and returns with it. -/
  returned : ∀ v, (root, v) ∈ s.joined → s.exited root = some v

/-- **The block will do**: `joining_tid` does not name a thread, the words of the mutex and the
condition variable are as good as those of `mutex_init` and `cond_init`, and `base` is not where a
stack can be. -/
structure RootBlock.Usable (content : RootBlock) : Prop where
  /-- `joining_tid`. -/
  joiningTid : content.fields.joiningTid ≤ 0
  /-- `t_mutex.status`. -/
  mutexStatus : content.tMutex.status ≠ unavailable
  /-- `t_mutex.lock`. -/
  mutexLock : content.tMutex.lock = 0
  /-- `t_cond.status`. -/
  condStatus : content.tCond.status ≠ unavailable
  /-- `t_cond.lock`. -/
  condLock : content.tCond.lock = 0
  /-- `t_cond.wait_list` is empty. -/
  waitList : content.tCond.length = 0 ∧ content.tCond.head = 0 ∧ content.tCond.tail = 0
  /-- `base`. -/
  base : ¬StackBase content.fields.base

namespace Lib

variable {s s' : Lib} {e : Event}

/-! ## The stacks -/

/-- Every stack is at a place with the property `P`. -/
structure Placed (P : Nat → Prop) (s : Lib) : Prop where
  /-- The mapped stacks. -/
  mapped : ∀ base, s.mapped base ≠ none → P base
  /-- The stacks that are being made. -/
  newBase : ∀ t base, (s.pc t).newBase = some base → P base

theorem Placed.step {P : Nat → Prop} (h : s.Placed P) (step : s.Step e s')
    (hprobe : ∀ t base, e = .probe t base → P base) : s'.Placed P := by
  have heffect := effect_of_step step
  have hmapped : ∀ base, s'.mapped base ≠ none → P base := by
    intro base hbase
    have hset : ∀ (base' : Nat) (x : Option Holder), P base' ∨ x = none →
        s'.mapped = Function.update s.mapped base' x → P base := by
      intro base' x hx hupdate
      rw [hupdate] at hbase
      by_cases hsame : base = base'
      · rw [hsame, Function.update_self] at hbase
        rw [hsame]
        exact hx.resolve_right hbase
      · rw [Function.update_of_ne hsame] at hbase
        exact h.mapped base hbase
    cases heffect with
    | @probe t base' here room => exact hset base' _ (Or.inl (hprobe t base' rfl)) rfl
    | @init t c base' here =>
        exact hset base' _ (Or.inl (h.newBase t base' (by rw [here]; rfl))) rfl
    | remove | lastRemove => exact hset _ none (Or.inr rfl) rfl
    | _ => exact h.mapped base hbase
  refine ⟨hmapped, fun t base ht => ?_⟩
  rcases (heffect.flow t).newBase_back ht with hold | ⟨hhere, hthere⟩
  · exact h.newBase t base hold
  · apply hmapped
    rw [probed step hhere hthere, Function.update_self]
    exact fun hnone => by cases hnone

/-- **Who waits on `t_cond`** changes by a wait and by a signal. -/
theorem Effect.queue_thread (h : s.Effect e s') {b : Nat} (hb : b < s.made) :
    s'.queue (.thread b) = s.queue (.thread b) ∨
      ∃ t, e = .go t ∧ ((∃ tid, s.pc t = .joinWait tid b) ∨ s.pc t = .exitSignal b) := by
  cases h with
  | init =>
      refine Or.inl (Function.update_of_ne ?_ _ _)
      exact fun hsame => Nat.ne_of_lt hb (Cond.thread.inj hsame)
  | @sync t u moves =>
      cases moves with
      | @wait c l a p here there =>
          by_cases hc : c = .thread b
          · subst hc
            refine Or.inr ⟨t, rfl, Or.inl ?_⟩
            change (s.pc t).op = _ at here
            unfold Pc.op at here
            split at here <;> simp_all
          · exact Or.inl (Function.update_of_ne (Ne.symm hc) _ _)
      | @signal c p x q here first =>
          by_cases hc : c = .thread b
          · subst hc
            refine Or.inr ⟨t, rfl, Or.inr ?_⟩
            change (s.pc t).op = _ at here
            unfold Pc.op at here
            split at here <;> simp_all
          · exact Or.inl (Function.update_of_ne (Ne.symm hc) _ _)
      | _ => exact Or.inl rfl
  | _ => exact Or.inl rfl

end Lib

/-! ## The invariant -/

namespace RootLib

variable {s s' : RootLib} {e : Event} {root : Int} {base : Nat}

/-- **The words are as good as initialised**, and the library is as it would be with `thr_create`'s
`thread_t`. -/
structure Fit (s : RootLib) (root : Int) (base : Nat) : Prop where
  /-- The library. -/
  attended : s.toLib.Attended root
  /-- The stacks. -/
  placed : s.toLib.Placed StackBase
  /-- The first `thread_t`. -/
  first : 0 < s.made ∧ s.owner 0 = root
  /-- `t_cond.lock`. -/
  lock : s.cond.lock = 0
  /-- `wait_list.head` and `wait_list.tail`. -/
  ends : s.cond.head = 0 ∧ s.cond.tail = 0
  /-- `wait_list.length`. -/
  length : s.cond.length = (s.queue (.thread 0)).length
  /-- `t_cond.status`. -/
  status : s.reaped 0 = .no → s.cond.status ≠ unavailable
  /-- `base`, which nobody writes. -/
  base : s.reaped 0 = .no ∨ (∃ u v, s.pc u = .reapRemove root 0 v) → (s.block 0).base = base

/-- What a step does to the words of `t_cond`. -/
structure Keeps (s' : RootLib) : Prop where
  /-- `lock`. -/
  lock : s'.cond.lock = 0
  /-- `head` and `tail`. -/
  ends : s'.cond.head = 0 ∧ s'.cond.tail = 0
  /-- `length`. -/
  length : s'.cond.length = (s'.queue (.thread 0)).length
  /-- `status`. -/
  status : s'.reaped 0 = .no → s'.cond.status ≠ unavailable

theorem lift_spec (h : s.lift e = some s') : s.toLib.Step e s'.toLib ∧ s'.cond = s.cond := by
  obtain ⟨l, hl, rfl⟩ := Option.map_eq_some_iff.mp h
  exact ⟨hl, rfl⟩

/-- The operations on the words do what the library does with a correct `t_cond`. -/
theorem toLib_destroy (hlock : s.cond.lock = 0)
    (hlength : s.cond.length = (s.queue (.thread 0)).length) (t : Int) (p : Pc) :
    (s.destroy t p).toLib = s.toLib.destroy t 0 p := by
  have hunlocked : ¬s.cond.lock = 1 := by
    rw [hlock]
    decide
  by_cases hlocked : s.locked (.thread 0) = true
  · have hnot : s.toLib.destroyable 0 = false := by simp [Lib.destroyable, hlocked]
    simp only [destroy, Lib.destroy, hlocked, hnot, if_true, Bool.false_eq_true, if_false, move]
    rfl
  · by_cases hempty : s.queue (.thread 0) = []
    · have hok : s.toLib.destroyable 0 = true := by simp [Lib.destroyable, hlocked, hempty]
      have hzero : ¬(s.cond.length ≠ 0 ∨ s.cond.lock = 1) := by simp [hlength, hempty, hunlocked]
      simp only [destroy, Lib.destroy, if_neg hlocked, hok, if_true, if_neg hzero]
      rfl
    · have hnot : s.toLib.destroyable 0 = false := by simp [Lib.destroyable, hempty]
      have hpos : s.cond.length ≠ 0 ∨ s.cond.lock = 1 := by simp [hlength, hempty]
      simp only [destroy, Lib.destroy, if_neg hlocked, hnot, Bool.false_eq_true, if_false,
        if_pos hpos, move]
      rfl

/-- The words after `mutex_destroy` and `cond_destroy`. -/
theorem keeps_destroy (hlock : s.cond.lock = 0) (hends : s.cond.head = 0 ∧ s.cond.tail = 0)
    (hlength : s.cond.length = (s.queue (.thread 0)).length)
    (hstatus : s.reaped 0 = .no → s.cond.status ≠ unavailable) (t : Int) (p : Pc) :
    (s.destroy t p).Keeps := by
  unfold destroy
  split_ifs with hlocked hbad
  · exact ⟨hlock, hends, hlength, hstatus⟩
  · exact ⟨hlock, hends, hlength, hstatus⟩
  · refine ⟨hlock, hends, hlength, fun hno => ?_⟩
    have hreaped : Function.update s.reaped 0 .destroyed 0 = Reaping.no := hno
    rw [Function.update_self] at hreaped
    cases hreaped

namespace Fit

variable (h : s.Fit root base)

include h

/-- The calls of `thr_join` with a pointer to the first `thread_t` are on the first thread. -/
theorem target_eq {u tid : Int} (hu : (s.pc u).target = some (tid, 0)) : tid = root :=
  (h.attended.sound.target u tid 0 hu).2.symm.trans h.first.2

/-- A step of the rest of the library. -/
theorem keeps_lift (hlift : s.lift e = some s')
    (aside : ∀ t, e = .go t → (∀ tid, s.pc t ≠ .joinWait tid 0) ∧ s.pc t ≠ .exitSignal 0) :
    s.toLib.Step e s'.toLib ∧ s'.Keeps := by
  obtain ⟨hstep, hcond⟩ := lift_spec hlift
  have heffect := Lib.effect_of_step hstep
  refine ⟨hstep, ?_, ?_, ?_, fun hno => ?_⟩
  · rw [hcond]
    exact h.lock
  · rw [hcond]
    exact h.ends
  · rcases heffect.queue_thread h.first.1 with hsame | ⟨t, rfl, hwait | hsignal⟩
    · rw [hcond, hsame]
      exact h.length
    · obtain ⟨tid, hwait⟩ := hwait
      exact absurd hwait ((aside t rfl).1 tid)
    · exact absurd hsignal (aside t rfl).2
  · rw [hcond]
    apply h.status
    by_contra hne
    exact heffect.reaped_ne_no hne hno

/-- `cond_wait` is the one of the library. -/
theorem keeps_condWait {t tid : Int} (ht : s.pc t = .joinWait tid 0)
    (hwait : s.condWait t tid = some s') : s.toLib.Step (.go t) s'.toLib ∧ s'.Keeps := by
  obtain rfl := h.target_eq (u := t) (by rw [ht]; rfl)
  have hno := h.attended.unreaped.holding t 0 (by rw [ht]; rfl)
  have halive := h.attended.alive 0 h.first.1 h.first.2 hno
  rw [condWait, if_neg (not_or.mpr ⟨h.status hno, halive⟩), if_neg (not_not.mpr h.lock),
    if_neg (not_not.mpr h.ends.2)] at hwait
  obtain ⟨l, hl, rfl⟩ := Option.map_eq_some_iff.mp hwait
  refine ⟨hl, h.lock, ⟨rfl, h.ends.2⟩, ?_, fun _ => h.status hno⟩
  show s.cond.length + 1 = ((l.queue (.thread 0)).length : Int)
  simp only [Lib.next, ht, Pc.op, Program.step, prog, if_neg halive, Option.map_some,
    Option.some.injEq] at hl
  subst hl
  show _ = ((Function.update s.queue (.thread 0) (s.queue (.thread 0) ++ [t]) (.thread 0)).length : Int)
  rw [Function.update_self, List.length_append, List.length_singleton, h.length]
  rfl

/-- `cond_signal` is the one of the library. -/
theorem keeps_condSignal {t : Int} (ht : s.pc t = .exitSignal 0)
    (hsignal : s.condSignal t = some s') : s.toLib.Step (.go t) s'.toLib ∧ s'.Keeps := by
  have hown : (s.pc t).own = some 0 := by rw [ht]; rfl
  obtain rfl := (h.attended.sound.own t 0 hown).2.1.symm.trans h.first.2
  have hno := h.attended.own 0 hown
  rw [condSignal, if_neg (h.status hno), if_neg (not_not.mpr h.lock),
    if_neg (not_not.mpr h.ends.1)] at hsignal
  obtain ⟨l, hl, rfl⟩ := Option.map_eq_some_iff.mp hsignal
  refine ⟨hl, h.lock, h.ends, ?_, fun _ => h.status hno⟩
  show (if s.queue (.thread 0) = [] then s.cond.length else s.cond.length - 1) =
    ((l.queue (.thread 0)).length : Int)
  have hplace : l.pc t = .exitUnlockThread 0 :=
    (Lib.go_passes hl (Or.inr (Or.inr ⟨_, congrArg Pc.op ht⟩))).1
  obtain ⟨-, hqueue⟩ := Lib.signal_step hl (congrArg Pc.op ht) (by
    rw [hplace, ht]
    exact Pc.noConfusion)
  rw [hqueue, h.length, List.length_tail]
  split_ifs with hempty
  · rw [hempty]
    rfl
  · have hpos := List.length_pos_iff.mpr hempty
    omega

/-- **Every step is one of the library**, and keeps the words. -/
theorem keeps (step : s.Step e s') : s.toLib.Step e s'.toLib ∧ s'.Keeps ∧
    ∀ t b, e = .probe t b → StackBase b := by
  have hkeep : s.lift e = some s' →
      (∀ t, e = .go t → (∀ tid, s.pc t ≠ .joinWait tid 0) ∧ s.pc t ≠ .exitSignal 0) →
        (∀ t b, e = .probe t b → StackBase b) →
          s.toLib.Step e s'.toLib ∧ s'.Keeps ∧ ∀ t b, e = .probe t b → StackBase b :=
    fun hlift aside hprobe =>
      ⟨(h.keeps_lift hlift aside).1, (h.keeps_lift hlift aside).2, hprobe⟩
  unfold Step next at step
  cases e with
  | probe t b =>
      dsimp only at step
      split_ifs at step with hbase
      refine hkeep step (fun _ => Event.noConfusion) ?_
      rintro t' b' hevent
      obtain ⟨rfl, rfl⟩ := Event.probe.inj hevent
      exact hbase
  | go t =>
      dsimp only at step
      split at step
      · next tid ht =>
          obtain ⟨hstep, hcond⟩ := h.keeps_condWait ht step
          exact ⟨hstep, hcond, fun _ _ => Event.noConfusion⟩
      · next ht =>
          obtain ⟨hstep, hcond⟩ := h.keeps_condSignal ht step
          exact ⟨hstep, hcond, fun _ _ => Event.noConfusion⟩
      · next tid v ht =>
          obtain rfl := Option.some.inj step
          refine ⟨?_, keeps_destroy h.lock h.ends h.length h.status t _,
            fun _ _ => Event.noConfusion⟩
          rw [toLib_destroy h.lock h.length]
          simp only [Lib.Step, Lib.next, ht, Pc.op, Lib.code]
      · next ht =>
          split at step
          · next c rest hnodes =>
              obtain rfl := Option.some.inj step
              let s1 : RootLib := { s with nodes := rest }
              refine ⟨?_, keeps_destroy (s := s1) h.lock h.ends h.length h.status t _,
                fun _ _ => Event.noConfusion⟩
              rw [toLib_destroy (s := s1) h.lock h.length]
              simp only [Lib.Step, Lib.next, ht, Pc.op, Lib.code, hnodes]
              rfl
          · refine hkeep step (fun t' ht' => ?_) fun _ _ => Event.noConfusion
            obtain rfl := Event.go.inj ht'
            exact ⟨fun tid => by rw [ht]; exact Pc.noConfusion, by rw [ht]; exact Pc.noConfusion⟩
      · next hwait hsignal hdestroy hnext =>
          refine hkeep step (fun t' ht' => ?_) fun _ _ => Event.noConfusion
          obtain rfl := Event.go.inj ht'
          exact ⟨hwait, hsignal⟩
  | create | join | exit | fork | reuse =>
      exact hkeep step (fun _ => Event.noConfusion) fun _ _ => Event.noConfusion

/-- **Every step keeps the invariant.** -/
theorem step (positive : 0 < root) (hstep : s.Step e s')
    (single : s.toLib.SingleJoinerOf root e) : s'.Fit root base := by
  obtain ⟨hlib, hkeeps, hprobe⟩ := h.keeps hstep
  have heffect := Lib.effect_of_step hlib
  have hmade : 0 < s'.made := Nat.lt_of_lt_of_le h.first.1 heffect.made_le
  refine ⟨h.attended.step positive hlib single, h.placed.step hlib hprobe,
    ⟨hmade, (heffect.owner_eq h.first.1).trans h.first.2⟩, hkeeps.lock, hkeeps.ends, hkeeps.length,
    hkeeps.status, fun hbase => ?_⟩
  have hbefore : (s.reaped 0 = .no ∨ ∃ u v, s.pc u = .reapRemove root 0 v) ∧
      s.reaped 0 ≠ .freed := by
    rcases hbase with hno | ⟨u, v, hremove⟩
    · have hold : s.reaped 0 = .no := by
        by_contra hne
        exact heffect.reaped_ne_no hne hno
      exact ⟨Or.inl hold, by rw [hold]; exact Reaping.noConfusion⟩
    · rcases (heffect.flow u).reapRemove_back hremove with hold | hdestroy
      · exact ⟨Or.inr ⟨u, v, hold⟩, h.attended.removing u 0 v hold⟩
      · have hold := h.attended.unreaped.holding u 0 (by rw [hdestroy]; rfl)
        exact ⟨Or.inl hold, by rw [hold]; exact Reaping.noConfusion⟩
  rw [(heffect.fields h.first.1 hbefore.2).2.1, h.base hbefore.1]

/-! ## The property -/

/-- The mutex of the first `thread_t`, before it is reaped. -/
theorem mutex_sound (hno : s.reaped 0 = .no) : s.mutex (.thread 0) = .free ∨
    ∃ x, s.mutex (.thread 0) = .held x ∧ (s.pc x).holdsThread 0 = true := by
  cases hmutex : s.mutex (.thread 0) with
  | free => exact Or.inl rfl
  | held x =>
      exact Or.inr ⟨x, rfl, h.attended.manned 0 h.first.1 h.first.2 hno x hmutex⟩
  | destroyed => exact absurd hmutex (h.attended.alive 0 h.first.1 h.first.2 hno)

/-- `cond_wait` can go on. -/
theorem waits {u : Int} (hu : s.pc u = .joinWait root 0) : ∃ s', s.Step (.go u) s' ∧
    s'.pc u = .joinAsleep root 0 ∧ s'.mutex (.thread 0) = .free := by
  have hno := h.attended.unreaped.holding u 0 (by rw [hu]; rfl)
  have halive := h.attended.alive 0 h.first.1 h.first.2 hno
  obtain ⟨l, hl, hpc, hmutex⟩ : ∃ l, s.toLib.next (.go u) = some l ∧
      l.pc u = .joinAsleep root 0 ∧ l.mutex (.thread 0) = .free := by
    refine ⟨{ s.toLib with
      toSync := ((s.toSync.goto u (.joinAsleep root 0)).setMutex (.thread 0) .free).setQueue
        (.thread 0) (s.queue (.thread 0) ++ [u]) }, ?_, Function.update_self .., ?_⟩
    · simp only [Lib.next, hu, Pc.op, Program.step, prog, if_neg halive, Option.map_some]
    · show Function.update s.mutex (.thread 0) .free (.thread 0) = _
      exact Function.update_self ..
  refine ⟨⟨l, { s.cond with length := s.cond.length + 1, head := 0 }⟩, ?_, hpc, hmutex⟩
  simp only [Step, next, hu, condWait, if_neg (not_or.mpr ⟨h.status hno, halive⟩),
    if_neg (not_not.mpr h.lock), if_neg (not_not.mpr h.ends.2), hl, Option.map_some]

/-- `cond_signal` can go on, and wakes the joiner. -/
theorem signals (hroot : s.pc root = .exitSignal 0) :
    ∃ s', s.Step (.go root) s' ∧ s'.pc root = .exitUnlockThread 0 ∧
      ∀ u, s'.pc u ≠ .joinAsleep root 0 := by
  have hno := h.attended.own 0 (by rw [hroot]; rfl)
  obtain ⟨l, hl⟩ : ∃ l, s.toLib.next (.go root) = some l := by
    simp only [Lib.next, hroot, Pc.op, Program.step, prog]
    cases s.queue (.thread 0) with
    | nil => exact ⟨_, rfl⟩
    | cons x q => exact ⟨_, rfl⟩
  have hplace : l.pc root = .exitUnlockThread 0 :=
    (Lib.go_passes hl (Or.inr (Or.inr ⟨_, congrArg Pc.op hroot⟩))).1
  have hwoken := h.attended.woken hl hroot (by rw [hplace]; exact Pc.noConfusion)
  refine ⟨⟨l, { s.cond with
    length := if s.queue (.thread 0) = [] then s.cond.length else s.cond.length - 1 }⟩, ?_, hplace,
    hwoken⟩
  simp only [Step, next, hroot, condSignal, if_neg (h.status hno), if_neg (not_not.mpr h.lock),
    if_neg (not_not.mpr h.ends.1), hl, Option.map_some]

/-- `mutex_destroy` and `cond_destroy` can go on. -/
theorem destroys {u : Int} {v : Status} (hu : s.pc u = .reapDestroy root 0 v) :
    ∃ s', s.Step (.go u) s' ∧ s'.pc u = .reapRemove root 0 v := by
  refine ⟨s.destroy u (.reapRemove root 0 v), by simp only [Step, next, hu], ?_⟩
  have hpc : (s.destroy u (.reapRemove root 0 v)).toLib.pc = _ :=
    congrArg (fun l : Lib => l.pc) (toLib_destroy h.lock h.length u (.reapRemove root 0 v))
  rw [hpc, Lib.destroy_pc, if_pos (h.attended.destroyable hu), Function.update_self]

/-- **The invariant is the property.** -/
theorem joinsRoot (notStack : ¬StackBase base) : s.JoinsRoot root where
  accepted u := h.attended.welcome u 0
  mutex u v hu := by
    apply h.mutex_sound
    rcases hu with hu | hu | hu
    · exact h.attended.unreaped.holding u 0 (by rw [hu]; rfl)
    · exact h.attended.unreaped.holding u 0 (by rw [hu]; rfl)
    · have hown : (s.pc u).own = some 0 := by rw [hu]; rfl
      obtain rfl := (h.attended.sound.own u 0 hown).2.1.symm.trans h.first.2
      exact h.attended.own 0 hown
  waits u := h.waits
  sleeps u := h.attended.sleeps u 0
  signals := h.signals
  destroys u v := h.destroys
  removes u v hu := by
    by_contra hmapped
    apply notStack
    rw [← h.base (Or.inr ⟨u, v, hu⟩)]
    exact h.placed.mapped _ hmapped
  read := h.attended.told.result
  returned := h.attended.told.joined

end Fit

/-- At the start, when the block will do. -/
theorem fit_start {root : Nat} (positive : 0 < root) {content : RootBlock}
    (usable : content.Usable) : (start root content).Fit root content.fields.base := by
  have hacts : content.tMutex.acts = .free := by
    rw [MutexT.acts, if_neg usable.mutexStatus, if_neg (not_not.mpr usable.mutexLock)]
  have hmutex : Function.update (fun _ : Lock => Mutex.free) (.thread 0) content.tMutex.acts =
      fun _ => (Mutex.free : Mutex Int) := by
    rw [hacts]
    exact Function.update_eq_self _ _
  have hlib : (start root content).toLib = Lib.init root content.fields :=
    congrArg (fun m => { Lib.init root content.fields with mutex := m }) hmutex
  refine ⟨?_, ?_, ⟨Nat.one_pos, rfl⟩, usable.condLock, usable.waitList.2, usable.waitList.1,
    fun _ => usable.condStatus, fun _ => rfl⟩
  · rw [hlib]
    exact Lib.attended_init positive usable.joiningTid root
  · rw [hlib]
    refine ⟨fun b hb => absurd rfl hb, fun t b ht => ?_⟩
    rcases Lib.init_plain root content.fields t with hpc | hpc <;> rw [hpc] at ht <;> cases ht

/-- The condition on the steps: one thread joins the first one. -/
def JoinedOnce (root : Int) (s : RootLib) (e : Event) : Prop := s.toLib.SingleJoinerOf root e

/-- **The first thread can be joined like any other**, in every run in which one thread joins it,
when the block that `malloc` returns will do. -/
theorem joinsRoot_of_run {root : Nat} (positive : 0 < root) {content : RootBlock}
    (usable : content.Usable) {es : List Event}
    (run : Run (Guarded Step (JoinedOnce root)) (start root content) es s) : s.JoinsRoot root := by
  have hfit : s.Fit root content.fields.base :=
    run.invariant (I := fun s => s.Fit root content.fields.base) (fit_start positive usable)
      fun _ _ _ h step => h.step (Int.natCast_pos.mpr positive) step.1 step.2
  exact hfit.joinsRoot usable.base

/-- The condition on the steps, as a test. -/
def joinedOnce (root : Int) (s : RootLib) : Event → Bool
  | .join t tid => tid ≠ root ∨ tid = t ∨ s.joiner root = none ∨ s.joiner root = some t
  | _ => true

theorem joinedOnce_spec (h : s.joinedOnce root e = true) : s.JoinedOnce root e := by
  cases e with
  | join t tid =>
      intro htid ht j hj
      have htest := of_decide_eq_true h
      rw [hj] at htest
      simpa [htid, htid ▸ ht] using htest
  | _ => trivial

/-- A block that was zero. -/
def zeroBlock : RootBlock := ⟨Lib.zeroed, mutexInit, condInit⟩

/-- The first thread makes thread 2, which joins it and waits; then the first thread exits
with 7. -/
def joinFirst : List Event :=
  [.create 1, .go 1, .probe 1 0x2000000, .go 1, .fork 1 2, .go 1, .go 1, .go 1, .go 1, .go 1,
    .go 2, .go 2, .go 2, .join 2 1, .go 2, .go 2, .go 2, .go 2, .go 2, .go 2, .go 2,
    .exit 1 ⟨7⟩, .go 1, .go 1, .go 1, .go 1, .go 1, .go 1, .go 1, .go 1,
    .go 2, .go 2, .go 2, .go 2, .go 2, .go 2, .go 2, .go 2, .go 2]

/-- The call of `thr_join` returns 7. -/
theorem joinsRoot_of_run_zero : ∃ s : RootLib,
    (1, ⟨7⟩) ∈ s.joined ∧ s.pc 2 = .user ∧ s.JoinsRoot 1 := by
  have hrun : (runList (fun s e => if s.joinedOnce 1 e then s.next e else none)
      (start 1 zeroBlock) joinFirst).map (fun s => (s.joined, s.pc 2)) =
        some ([(1, ⟨7⟩)], .user) := by decide +kernel
  obtain ⟨s, hs, hjoined⟩ := Option.map_eq_some_iff.mp hrun
  obtain ⟨hjoined, hpc⟩ := Prod.mk.inj hjoined
  refine ⟨s, ?_, hpc, ?_⟩
  · rw [hjoined]
    exact List.mem_singleton_self _
  · have usable : zeroBlock.Usable :=
      ⟨by decide, by decide, by decide, by decide, by decide, by decide, by decide⟩
    exact joinsRoot_of_run Nat.one_pos usable
      (Run.guarded_of_runList (fun _ _ => joinedOnce_spec) hs)

/-- A block in which the place of `joining_tid` holds a number, and the rest is zero. -/
def staleBlock : RootBlock := { zeroBlock with fields := { Lib.zeroed with joiningTid := 5 } }

/-- **A created thread cannot join the first one**: it is turned away, although nobody
has joined. -/
theorem root_not_joined : ∃ s : RootLib,
    Run (Guarded Step (JoinedOnce 1)) (start 1 staleBlock) (joinFirst.take 19) s ∧
      s.pc 2 = .joinReject 1 0 ∧ ¬s.JoinsRoot 1 := by
  have hrun : (runList (fun s e => if s.joinedOnce 1 e then s.next e else none)
      (start 1 staleBlock) (joinFirst.take 19)).map (fun s => s.pc 2) =
        some (.joinReject 1 0) := by decide +kernel
  obtain ⟨s, hs, hpc⟩ := Option.map_eq_some_iff.mp hrun
  exact ⟨s, Run.guarded_of_runList (fun _ _ => joinedOnce_spec) hs, hpc,
    fun hjoins => hjoins.accepted 2 hpc⟩

end RootLib

end Pebbles.ThreadLib
