import Mathlib.Data.List.Nodup
import Mathlib.Logic.Function.Basic
import Mathlib.Tactic.Common

/-! # Threads with mutexes and condition variables

Any number of threads, each at a place of a program. A table says what stands at a place: a mutex
operation, an operation on a condition variable, or other code. Below are the steps of the
operations for correct mutexes and condition variables (a mutex has one holder; waiting releases the
mutex and joins the queue in one step; a signal wakes the longest waiter), what such a step does to
the places of all threads, and the rule of mutual exclusion. The other code is up to the program. -/

namespace Monitors

variable {ι κ μ π α : Type*}

/-- **What stands at a place**, and the place after it. `κ` are the condition variables, `μ` the
mutexes, `π` the places. -/
inductive Op (κ μ π : Type*) where
  /-- Code without such an operation. -/
  | code
  /-- Take the mutex. -/
  | lock (l : μ) (next : π)
  /-- Release the mutex. -/
  | unlock (l : μ) (next : π)
  /-- Release the mutex and join the queue, at the place `asleep`. When the mutex has been destroyed
  this returns at once, to `next`. -/
  | wait (c : κ) (l : μ) (asleep next : π)
  /-- Wake the longest waiter. -/
  | signal (c : κ) (next : π)

/-- A table of operations, and where a thread goes on that is woken. -/
structure Program (κ μ π : Type*) where
  /-- What stands at a place. -/
  op : π → Op κ μ π
  /-- Where a waiter goes on. -/
  wake : π → π

/-- A mutex. -/
inductive Mutex (ι : Type*) where
  /-- Nobody holds it. -/
  | free
  /-- A thread holds it. -/
  | held (owner : ι)
  /-- It was destroyed: taking and releasing it do nothing. -/
  | destroyed
  deriving DecidableEq

/-- The places, the mutexes, and the queues of the condition variables. -/
structure Sync (ι κ μ π : Type*) where
  /-- Where each thread is. -/
  pc : ι → π
  /-- The mutexes. -/
  mutex : μ → Mutex ι
  /-- The waiters, the longest one first. -/
  queue : κ → List ι

namespace Sync

section Updates

variable (s : Sync ι κ μ π) (t : ι) (p : π) (l : μ) (m : Mutex ι) (c : κ) (q : List ι)

/-- A thread goes to a place. -/
def goto [DecidableEq ι] : Sync ι κ μ π := { s with pc := Function.update s.pc t p }

/-- A mutex changes. -/
def setMutex [DecidableEq μ] : Sync ι κ μ π := { s with mutex := Function.update s.mutex l m }

/-- A queue changes. -/
def setQueue [DecidableEq κ] : Sync ι κ μ π := { s with queue := Function.update s.queue c q }

@[simp] theorem goto_pc [DecidableEq ι] : (s.goto t p).pc = Function.update s.pc t p := rfl

@[simp] theorem goto_mutex [DecidableEq ι] : (s.goto t p).mutex = s.mutex := rfl

@[simp] theorem goto_queue [DecidableEq ι] : (s.goto t p).queue = s.queue := rfl

@[simp] theorem setMutex_pc [DecidableEq μ] : (s.setMutex l m).pc = s.pc := rfl

@[simp] theorem setMutex_mutex [DecidableEq μ] :
    (s.setMutex l m).mutex = Function.update s.mutex l m := rfl

@[simp] theorem setMutex_queue [DecidableEq μ] : (s.setMutex l m).queue = s.queue := rfl

@[simp] theorem setQueue_pc [DecidableEq κ] : (s.setQueue c q).pc = s.pc := rfl

@[simp] theorem setQueue_mutex [DecidableEq κ] : (s.setQueue c q).mutex = s.mutex := rfl

@[simp] theorem setQueue_queue [DecidableEq κ] :
    (s.setQueue c q).queue = Function.update s.queue c q := rfl

end Updates

end Sync

namespace Program

variable [DecidableEq ι] [DecidableEq κ] [DecidableEq μ] (prog : Program κ μ π)

/-- **The operation at the place of a thread.** Nothing happens at other code, and when the mutex is
held. -/
def step (s : Sync ι κ μ π) (t : ι) : Option (Sync ι κ μ π) :=
  match prog.op (s.pc t) with
  | .code => none
  | .lock l p =>
      match s.mutex l with
      | .free => some ((s.goto t p).setMutex l (.held t))
      | .held _ => none
      | .destroyed => some (s.goto t p)
  | .unlock l p =>
      if s.mutex l = .destroyed then some (s.goto t p) else some ((s.goto t p).setMutex l .free)
  | .wait c l asleep p =>
      if s.mutex l = .destroyed then some (s.goto t p)
      else some (((s.goto t asleep).setMutex l .free).setQueue c (s.queue c ++ [t]))
  | .signal c p =>
      match s.queue c with
      | [] => some (s.goto t p)
      | x :: q => some (((s.goto x (prog.wake (s.pc x))).goto t p).setQueue c q)

/-- What an operation can do. -/
inductive Moves (s : Sync ι κ μ π) (t : ι) : Sync ι κ μ π → Prop
  /-- A free mutex is taken. -/
  | lock {l : μ} {p : π} (here : prog.op (s.pc t) = .lock l p) (free : s.mutex l = .free) :
      Moves s t ((s.goto t p).setMutex l (.held t))
  /-- A destroyed mutex is passed. -/
  | pass {l : μ} {p : π} (here : prog.op (s.pc t) = .lock l p) (gone : s.mutex l = .destroyed) :
      Moves s t (s.goto t p)
  /-- A mutex is released. -/
  | unlock {l : μ} {p : π} (here : prog.op (s.pc t) = .unlock l p) (there : s.mutex l ≠ .destroyed) :
      Moves s t ((s.goto t p).setMutex l .free)
  /-- A destroyed mutex is released. -/
  | drop {l : μ} {p : π} (here : prog.op (s.pc t) = .unlock l p) (gone : s.mutex l = .destroyed) :
      Moves s t (s.goto t p)
  /-- A thread waits. -/
  | wait {c : κ} {l : μ} {asleep p : π} (here : prog.op (s.pc t) = .wait c l asleep p)
      (there : s.mutex l ≠ .destroyed) :
      Moves s t (((s.goto t asleep).setMutex l .free).setQueue c (s.queue c ++ [t]))
  /-- A thread does not wait. -/
  | skip {c : κ} {l : μ} {asleep p : π} (here : prog.op (s.pc t) = .wait c l asleep p)
      (gone : s.mutex l = .destroyed) : Moves s t (s.goto t p)
  /-- Nobody waits. -/
  | silent {c : κ} {p : π} (here : prog.op (s.pc t) = .signal c p) (empty : s.queue c = []) :
      Moves s t (s.goto t p)
  /-- The longest waiter is woken. -/
  | signal {c : κ} {p : π} {x : ι} {q : List ι} (here : prog.op (s.pc t) = .signal c p)
      (first : s.queue c = x :: q) :
      Moves s t (((s.goto x (prog.wake (s.pc x))).goto t p).setQueue c q)

variable {prog} {s s' : Sync ι κ μ π} {t : ι}

/-- **Inversion** of an operation. -/
theorem moves_of_step (h : prog.step s t = some s') : prog.Moves s t s' := by
  unfold step at h
  split at h
  · cases h
  · next here =>
      split at h
      · next free =>
          obtain rfl := Option.some.inj h
          exact .lock here free
      · cases h
      · next gone =>
          obtain rfl := Option.some.inj h
          exact .pass here gone
  · next here =>
      split_ifs at h with gone
      · obtain rfl := Option.some.inj h
        exact .drop here gone
      · obtain rfl := Option.some.inj h
        exact .unlock here gone
  · next here =>
      split_ifs at h with gone
      · obtain rfl := Option.some.inj h
        exact .skip here gone
      · obtain rfl := Option.some.inj h
        exact .wait here gone
  · next here =>
      split at h
      · next empty =>
          obtain rfl := Option.some.inj h
          exact .silent here empty
      · next first =>
          obtain rfl := Option.some.inj h
          exact .signal here first

/-! ## The places after an operation -/

/-- The operation leads to the place. -/
def Op.LeadsTo : Op κ μ π → π → Prop
  | .code, _ => False
  | .lock _ p, q | .unlock _ p, q | .signal _ p, q => q = p
  | .wait _ _ asleep p, q => q = asleep ∨ q = p

variable (prog) in
/-- A relation that holds between the places before and after each operation, and each wake-up. -/
structure Respects (R : π → π → Prop) : Prop where
  /-- A thread that stays where it is. -/
  refl : ∀ p, R p p
  /-- An operation. -/
  next : ∀ p q, Op.LeadsTo (prog.op p) q → R p q
  /-- A wake-up. -/
  wake : ∀ p, R p (prog.wake p)

/-- **Another thread** stays where it is or is woken. -/
theorem Moves.pc_of_ne (h : prog.Moves s t s') {x : ι} (hx : x ≠ t) :
    s'.pc x = s.pc x ∨ s'.pc x = prog.wake (s.pc x) := by
  cases h with
  | @signal c p y q here first =>
      have hplace : (((s.goto y (prog.wake (s.pc y))).goto t p).setQueue c q).pc x =
          Function.update s.pc y (prog.wake (s.pc y)) x := Function.update_of_ne hx _ _
      rw [hplace]
      by_cases hy : x = y
      · rw [hy, Function.update_self]
        exact Or.inr rfl
      · rw [Function.update_of_ne hy]
        exact Or.inl rfl
  | _ => exact Or.inl (Function.update_of_ne hx _ _)

/-- **The place of every thread** after an operation is related to its place before. -/
theorem Moves.rel {R : π → π → Prop} (hR : prog.Respects R) (h : prog.Moves s t s') (x : ι) :
    R (s.pc x) (s'.pc x) := by
  have mover : ∀ p, Op.LeadsTo (prog.op (s.pc t)) p →
      R (s.pc x) (Function.update s.pc t p x) := by
    intro p hp
    by_cases hx : x = t
    · rw [hx, Function.update_self]
      exact hR.next _ _ hp
    · rw [Function.update_of_ne hx]
      exact hR.refl _
  cases h with
  | lock here free => exact mover _ (by rw [here]; rfl)
  | pass here gone => exact mover _ (by rw [here]; rfl)
  | unlock here there => exact mover _ (by rw [here]; rfl)
  | drop here gone => exact mover _ (by rw [here]; rfl)
  | wait here there => exact mover _ (by rw [here]; exact Or.inl rfl)
  | skip here gone => exact mover _ (by rw [here]; exact Or.inr rfl)
  | silent here empty => exact mover _ (by rw [here]; rfl)
  | @signal c p y q here first =>
      by_cases hx : x = t
      · have hplace := mover p (by rw [here]; rfl)
        simpa [hx] using hplace
      · rcases (Moves.signal here first).pc_of_ne hx with hstay | hwoken
        · rw [hstay]
          exact hR.refl _
        · rw [hwoken]
          exact hR.wake _

/-- **What operations do not change** about a place, they do not change about any thread. -/
theorem Moves.same {f : π → α} (hf : prog.Respects fun p q => f q = f p) (h : prog.Moves s t s')
    (x : ι) : f (s'.pc x) = f (s.pc x) :=
  h.rel hf x

/-! ## Mutual exclusion -/

variable (prog) in
/-- The places where the mutex `l` is held. -/
structure Holding (l : μ) (holds : π → Bool) : Prop where
  /-- It is held after it was taken. -/
  lock : ∀ p q, prog.op p = .lock l q → holds q = true
  /-- It is held before it is released. -/
  unlock : ∀ p q, prog.op p = .unlock l q → holds p = true ∧ holds q = false
  /-- Waiting releases it. -/
  wait : ∀ p c a q, prog.op p = .wait c l a q → holds p = true ∧ holds a = false
  /-- Other operations do not matter. -/
  other : ∀ p q, Op.LeadsTo (prog.op p) q → (∀ r, prog.op p ≠ .lock l r) →
    (∀ r, prog.op p ≠ .unlock l r) → (∀ c a r, prog.op p ≠ .wait c l a r) → holds q = holds p
  /-- Nor does being woken. -/
  wake : ∀ p, holds (prog.wake p) = holds p

/-- **What an operation does to a mutex**, when the mutex has not been destroyed. -/
inductive Passes (l : μ) (holds : π → Bool) (s : Sync ι κ μ π) (t : ι) (s' : Sync ι κ μ π) : Prop
  /-- Nothing. -/
  | same (mutex : s'.mutex l = s.mutex l) (places : ∀ x, holds (s'.pc x) = holds (s.pc x))
  /-- The thread takes it. -/
  | take (free : s.mutex l = .free) (mutex : s'.mutex l = .held t) (here : holds (s'.pc t) = true)
      (others : ∀ x, x ≠ t → holds (s'.pc x) = holds (s.pc x))
  /-- The thread releases it. -/
  | release (mutex : s'.mutex l = .free) (here : holds (s.pc t) = true)
      (after : holds (s'.pc t) = false) (others : ∀ x, x ≠ t → holds (s'.pc x) = holds (s.pc x))

theorem Moves.passes {l : μ} {holds : π → Bool} (hl : prog.Holding l holds)
    (alive : s.mutex l ≠ .destroyed) (h : prog.Moves s t s') : Passes l holds s t s' := by
  -- an operation on something else
  have aside : ∀ p, Op.LeadsTo (prog.op (s.pc t)) p → (∀ r, prog.op (s.pc t) ≠ .lock l r) →
      (∀ r, prog.op (s.pc t) ≠ .unlock l r) → (∀ c a r, prog.op (s.pc t) ≠ .wait c l a r) →
        ∀ x, holds (Function.update s.pc t p x) = holds (s.pc x) := by
    intro p hp hlock hunlock hwait x
    by_cases hx : x = t
    · rw [hx, Function.update_self]
      exact hl.other _ _ hp hlock hunlock hwait
    · rw [Function.update_of_ne hx]
  have others : ∀ p x, x ≠ t → holds (Function.update s.pc t p x) = holds (s.pc x) :=
    fun p x hx => by rw [Function.update_of_ne hx]
  cases h with
  | @lock l' p here free =>
      by_cases hll : l' = l
      · subst hll
        refine .take free (Function.update_self ..) ?_ (others p)
        rw [Sync.setMutex_pc, Sync.goto_pc, Function.update_self]
        exact hl.lock _ _ here
      · refine .same (Function.update_of_ne (Ne.symm hll) ..) (aside p ?_ ?_ ?_ ?_)
        all_goals simp [here, Op.LeadsTo, hll]
  | @pass l' p here gone =>
      have hll : l' ≠ l := by
        rintro rfl
        exact alive gone
      refine .same rfl (aside p ?_ ?_ ?_ ?_)
      all_goals simp [here, Op.LeadsTo, hll]
  | @unlock l' p here there =>
      by_cases hll : l' = l
      · subst hll
        obtain ⟨hbefore, hafter⟩ := hl.unlock _ _ here
        refine .release (Function.update_self ..) hbefore ?_ (others p)
        rw [Sync.setMutex_pc, Sync.goto_pc, Function.update_self]
        exact hafter
      · refine .same (Function.update_of_ne (Ne.symm hll) ..) (aside p ?_ ?_ ?_ ?_)
        all_goals simp [here, Op.LeadsTo, hll]
  | @drop l' p here gone =>
      have hll : l' ≠ l := by
        rintro rfl
        exact alive gone
      refine .same rfl (aside p ?_ ?_ ?_ ?_)
      all_goals simp [here, Op.LeadsTo, hll]
  | @wait c l' a p here there =>
      by_cases hll : l' = l
      · subst hll
        obtain ⟨hbefore, hafter⟩ := hl.wait _ _ _ _ here
        refine .release (Function.update_self ..) hbefore ?_ (others a)
        rw [Sync.setQueue_pc, Sync.setMutex_pc, Sync.goto_pc, Function.update_self]
        exact hafter
      · refine .same (Function.update_of_ne (Ne.symm hll) ..) (aside a ?_ ?_ ?_ ?_)
        all_goals simp [here, Op.LeadsTo, hll]
  | @skip c l' a p here gone =>
      have hll : l' ≠ l := by
        rintro rfl
        exact alive gone
      refine .same rfl (aside p ?_ ?_ ?_ ?_)
      all_goals simp [here, Op.LeadsTo, hll]
  | silent here empty =>
      refine .same rfl (aside _ ?_ ?_ ?_ ?_)
      all_goals simp [here, Op.LeadsTo]
  | @signal c p y q here first =>
      refine .same rfl fun x => ?_
      by_cases hx : x = t
      · have hplace := aside p (by simp [here, Op.LeadsTo]) (by simp [here]) (by simp [here])
          (by simp [here]) t
        rw [hx]
        simpa using hplace
      · rcases (Moves.signal here first).pc_of_ne hx with hstay | hwoken
        · rw [hstay]
        · rw [hwoken, hl.wake]

/-- **Mutual exclusion**: a thread at one of these places is the holder. -/
def Exclusive (l : μ) (holds : π → Bool) (s : Sync ι κ μ π) : Prop :=
  ∀ x, holds (s.pc x) = true → s.mutex l = .held x

/-- The holder is at one of these places. -/
def Manned (l : μ) (holds : π → Bool) (s : Sync ι κ μ π) : Prop :=
  ∀ x, s.mutex l = .held x → holds (s.pc x) = true

omit [DecidableEq ι] [DecidableEq κ] [DecidableEq μ] in
/-- There is one holder. -/
theorem Exclusive.unique {l : μ} {holds : π → Bool} (h : Exclusive l holds s) {x y : ι}
    (hx : holds (s.pc x) = true) (hy : holds (s.pc y) = true) : x = y :=
  Mutex.held.inj ((h x hx).symm.trans (h y hy))

omit [DecidableEq κ] [DecidableEq μ] in
/-- **Operations keep mutual exclusion.** -/
theorem Passes.exclusive {l : μ} {holds : π → Bool} (hex : Exclusive l holds s)
    (h : Passes l holds s t s') : Exclusive l holds s' := by
  intro x hx
  cases h with
  | same mutex places =>
      rw [mutex]
      exact hex x ((places x).symm.trans hx)
  | take free mutex here others =>
      by_cases hxt : x = t
      · rw [hxt, mutex]
      · have hold := hex x ((others x hxt).symm.trans hx)
        rw [free] at hold
        cases hold
  | release mutex here after others =>
      by_cases hxt : x = t
      · rw [hxt, after] at hx
        cases hx
      · exact absurd (hex.unique ((others x hxt).symm.trans hx) here) hxt

omit [DecidableEq ι] [DecidableEq κ] [DecidableEq μ] in
/-- Operations do not leave a holder elsewhere. -/
theorem Passes.manned {l : μ} {holds : π → Bool} (hman : Manned l holds s)
    (h : Passes l holds s t s') : Manned l holds s' := by
  intro x hx
  cases h with
  | same mutex places => rw [places, hman x (mutex.symm.trans hx)]
  | take free mutex here others =>
      obtain rfl : t = x := Mutex.held.inj (mutex.symm.trans hx)
      exact here
  | release mutex here after others =>
      rw [mutex] at hx
      cases hx

/-! ## The queues -/

variable (prog) in
/-- The places where threads wait. A waiting thread does nothing. -/
structure Sleeping (place : π → Option κ) : Prop where
  /-- Where a thread comes to wait. -/
  wait : ∀ p c l a q, prog.op p = .wait c l a q → place a = some c
  /-- It waits until it is woken. -/
  blocked : ∀ p c, place p = some c → prog.op p = .code

/-- **The queues** hold waiting threads, each once. -/
structure Asleep (place : π → Option κ) (s : Sync ι κ μ π) : Prop where
  /-- No thread is in a queue twice. -/
  nodup : ∀ c, (s.queue c).Nodup
  /-- A thread in a queue waits there. -/
  waits : ∀ c, ∀ x ∈ s.queue c, place (s.pc x) = some c

/-- **Operations keep the queues right.** -/
theorem Moves.asleep {place : π → Option κ} (hp : prog.Sleeping place) (has : Asleep place s)
    (h : prog.Moves s t s') : Asleep place s' := by
  -- the thread that moves is in no queue
  have awake : prog.op (s.pc t) ≠ .code → ∀ c, t ∉ s.queue c := by
    intro hcode c ht
    exact hcode (hp.blocked _ c (has.waits c t ht))
  have mover : ∀ p, prog.op (s.pc t) ≠ .code → ∀ c, ∀ x ∈ s.queue c,
      place (Function.update s.pc t p x) = some c := by
    intro p hcode c x hx
    have hne : x ≠ t := by
      rintro rfl
      exact awake hcode c hx
    rw [Function.update_of_ne hne]
    exact has.waits c x hx
  cases h with
  | lock here free => exact ⟨has.nodup, mover _ (by simp [here])⟩
  | pass here gone => exact ⟨has.nodup, mover _ (by simp [here])⟩
  | unlock here there => exact ⟨has.nodup, mover _ (by simp [here])⟩
  | drop here gone => exact ⟨has.nodup, mover _ (by simp [here])⟩
  | skip here gone => exact ⟨has.nodup, mover _ (by simp [here])⟩
  | silent here empty => exact ⟨has.nodup, mover _ (by simp [here])⟩
  | @wait c l a p here there =>
      have hnot := awake (by simp [here])
      constructor
      · intro d
        by_cases hd : d = c
        · subst hd
          rw [Sync.setQueue_queue, Function.update_self]
          exact List.nodup_append.mpr ⟨has.nodup d, List.nodup_singleton t,
            fun x hx y hy hxy => hnot d (by rwa [← List.mem_singleton.mp hy, ← hxy])⟩
        · rw [Sync.setQueue_queue, Function.update_of_ne hd]
          exact has.nodup d
      · intro d x hx
        have hold := mover a (by simp [here])
        by_cases hd : d = c
        · subst hd
          rw [Sync.setQueue_queue, Function.update_self, List.mem_append, List.mem_singleton] at hx
          rcases hx with hx | rfl
          · exact hold d x hx
          · rw [Sync.setQueue_pc, Sync.setMutex_pc, Sync.goto_pc, Function.update_self]
            exact hp.wait _ _ _ _ _ here
        · rw [Sync.setQueue_queue, Function.update_of_ne hd] at hx
          exact hold d x hx
  | @signal c p y q here first =>
      have hnodup := has.nodup c
      rw [first, List.nodup_cons] at hnodup
      have hy := has.waits c y (by rw [first]; exact List.mem_cons_self)
      constructor
      · intro d
        by_cases hd : d = c
        · subst hd
          rw [Sync.setQueue_queue, Function.update_self]
          exact hnodup.2
        · rw [Sync.setQueue_queue, Function.update_of_ne hd]
          exact has.nodup d
      · intro d x hx
        have hin : x ∈ s.queue d ∧ x ≠ y := by
          by_cases hd : d = c
          · subst hd
            rw [Sync.setQueue_queue, Function.update_self] at hx
            refine ⟨by rw [first]; exact List.mem_cons_of_mem _ hx, ?_⟩
            rintro rfl
            exact hnodup.1 hx
          · rw [Sync.setQueue_queue, Function.update_of_ne hd] at hx
            refine ⟨hx, ?_⟩
            rintro rfl
            -- a thread waits in one place
            exact hd (Option.some.inj ((has.waits d x hx).symm.trans hy))
        have hmoved := mover p (by simp [here]) d x hin.1
        have hne : x ≠ t := by
          rintro rfl
          exact awake (by simp [here]) d hin.1
        rw [Function.update_of_ne hne] at hmoved
        have hplace : (((s.goto y (prog.wake (s.pc y))).goto t p).setQueue c q).pc x = s.pc x := by
          rw [Sync.setQueue_pc, Sync.goto_pc, Function.update_of_ne hne, Sync.goto_pc,
            Function.update_of_ne hin.2]
        rw [hplace]
        exact hmoved

/-- **Who waits is in the queue.** -/
def Queued (place : π → Option κ) (s : Sync ι κ μ π) : Prop :=
  ∀ c x, place (s.pc x) = some c → x ∈ s.queue c

variable (prog) in
/-- The places after the operations, and after a wake-up, are not places where threads wait, except
for the one of waiting. -/
structure Waking (place : π → Option κ) : Prop where
  /-- The place after an operation. -/
  next : ∀ p q, Op.LeadsTo (prog.op p) q → (∀ c l r, prog.op p ≠ .wait c l q r) → place q = none
  /-- The place after a wake-up. -/
  wake : ∀ p, place (prog.wake p) = none

/-- **Operations leave the waiting threads in their queues.** -/
theorem Moves.queued {place : π → Option κ} (hp : prog.Sleeping place) (hw : prog.Waking place)
    (hq : Queued place s) (h : prog.Moves s t s')
    (distinct : ∀ p c l a q, prog.op p = .wait c l a q → q ≠ a) : Queued place s' := by
  -- the thread that moves does not come to wait
  have mover : ∀ p, place p = none → ∀ c x, place (Function.update s.pc t p x) = some c →
      x ∈ s.queue c := by
    intro p hnone c x hx
    by_cases hxt : x = t
    · rw [hxt, Function.update_self, hnone] at hx
      cases hx
    · rw [Function.update_of_ne hxt] at hx
      exact hq c x hx
  cases h with
  | lock here free => exact mover _ (hw.next _ _ (by rw [here]; rfl) (by simp [here]))
  | pass here gone => exact mover _ (hw.next _ _ (by rw [here]; rfl) (by simp [here]))
  | unlock here there => exact mover _ (hw.next _ _ (by rw [here]; rfl) (by simp [here]))
  | drop here gone => exact mover _ (hw.next _ _ (by rw [here]; rfl) (by simp [here]))
  | silent here empty => exact mover _ (hw.next _ _ (by rw [here]; rfl) (by simp [here]))
  | @skip c l a p here gone =>
      refine mover _ (hw.next _ _ (by rw [here]; exact Or.inr rfl) fun c' l' r hwait => ?_)
      rw [here] at hwait
      exact distinct _ _ _ _ _ here (Op.wait.inj hwait).2.2.1.symm
  | @wait c l a p here there =>
      intro d x hx
      by_cases hxt : x = t
      · rw [hxt, Sync.setQueue_pc, Sync.setMutex_pc, Sync.goto_pc, Function.update_self,
          hp.wait _ _ _ _ _ here] at hx
        obtain rfl := Option.some.inj hx
        rw [Sync.setQueue_queue, Function.update_self, hxt]
        exact List.mem_append_right _ (List.mem_singleton_self t)
      · rw [Sync.setQueue_pc, Sync.setMutex_pc, Sync.goto_pc, Function.update_of_ne hxt] at hx
        rw [Sync.setQueue_queue]
        by_cases hd : d = c
        · subst hd
          rw [Function.update_self]
          exact List.mem_append_left _ (hq d x hx)
        · rw [Function.update_of_ne hd]
          exact hq d x hx
  | @signal c p y q here first =>
      intro d x hx
      rw [Sync.setQueue_pc, Sync.goto_pc] at hx
      by_cases hxt : x = t
      · rw [hxt, Function.update_self, hw.next _ _ (by rw [here]; rfl) (by simp [here])] at hx
        cases hx
      · rw [Function.update_of_ne hxt, Sync.goto_pc] at hx
        by_cases hxy : x = y
        · rw [hxy, Function.update_self, hw.wake] at hx
          cases hx
        · rw [Function.update_of_ne hxy] at hx
          have hold := hq d x hx
          rw [Sync.setQueue_queue]
          by_cases hd : d = c
          · subst hd
            rw [first, List.mem_cons] at hold
            rw [Function.update_self]
            exact hold.resolve_left hxy
          · rw [Function.update_of_ne hd]
            exact hold

end Program

end Monitors
