import Pebbles.DataStructure.LinkedList
import Pebbles.Library.Runs

/-! # Handing over a kernel mutex

One mutex of `kern/locks/mutex.c` and the threads that lock and unlock it. A thread that finds the
mutex locked puts itself on `waiting_queue`, gives up the processor, and takes itself off again when
it comes back, so the queue at an unlock is that of the threads inside `schedule`, in the order in
which they came. `mutex_unlock` means to yield to the first of them, and steps on by one node before
it looks. -/

namespace Pebbles

open DoublyLinked Transition

/-! ## The mutex and its threads -/

/-- Where a thread is in its calls on the mutex. -/
inductive LockPoint where
  /-- In no call, not holding the mutex. -/
  | away
  /-- At the test of the loop in `mutex_lock`, after a wait. -/
  | test
  /-- Before `list_insert_last`: `atomic_xchange` has returned a locked status. -/
  | enqueue
  /-- Inside `schedule`. -/
  | waiting
  /-- Before the write of `tid`: `atomic_xchange` has returned an unlocked status. -/
  | claim
  /-- Holding the mutex. -/
  | holding
  deriving DecidableEq

/-- **One mutex**: its fields, the nodes that threads wait with, and where the threads are. The
`mutex_waiting_queue_node` of a thread is named by its tid. -/
structure LockState where
  /-- `status`. -/
  status : Int
  /-- `tid`. -/
  tid : Int
  /-- `waiting_queue`. -/
  waitingQueue : Header Nat
  /-- The links of `mutex_waiting_queue_node`, for each thread. -/
  links : Links Nat
  /-- Where each thread is. -/
  point : Nat → LockPoint

/-- `MUTEX_UNLOCKED`. -/
def mutexUnlocked : Int := 0

/-- `MUTEX_LOCKED`. -/
def mutexLocked : Int := 1

/-- What threads do to the mutex. -/
inductive LockEvent where
  /-- `atomic_xchange` in the loop test of `mutex_lock`. -/
  | exchange (t : Nat)
  /-- `list_insert_last(&mp->waiting_queue, ..)` and the call of `schedule`. -/
  | enqueue (t : Nat)
  /-- The return from `schedule` and `list_delete(&mp->waiting_queue, ..)`. -/
  | dequeue (t : Nat)
  /-- `mp->tid = current_thread->tid`. -/
  | claim (t : Nat)
  /-- `mutex_unlock`. -/
  | unlock (t : Nat)
  /-- A thread that does not wait here waits for another mutex, with the same node. -/
  | elsewhere (t : Nat) (node : Node Nat)

namespace LockState

/-- The mutex after `mutex_init`; the nodes hold anything. -/
def init (links : Links Nat) : LockState := ⟨mutexUnlocked, -1, listInit, links, fun _ => .away⟩

/-- Thread `t` goes on at `p`. -/
def goTo (s : LockState) (t : Nat) (p : LockPoint) : LockState :=
  { s with point := Function.update s.point t p }

/-- **`mutex_unlock`** up to its call of `yield`, and the node whose thread is yielded to, if it
yields. The inner `none` is a `NULL` that is taken for a node: `target->tid` is then read through
it. -/
def mutexUnlock (s : LockState) : LockState × Option (Option Nat) :=
  let s' := { s with tid := -1, status := mutexUnlocked }
  if s.waitingQueue.length ≠ 0 then
    (s', some ((listBegin s.waitingQueue).bind fun n => (s.links n).next))
  else (s', none)

/-- One event. -/
def step (s : LockState) : LockEvent → Option LockState
  | .exchange t =>
      if s.point t = .away ∨ s.point t = .test then
        let p := if s.status = mutexUnlocked then .claim else .enqueue
        some ({ s with status := mutexLocked }.goTo t p)
      else none
  | .enqueue t =>
      if s.point t = .enqueue then
        let r := listInsertLast s.links s.waitingQueue (some t)
        some ({ s with links := r.1, waitingQueue := r.2 }.goTo t .waiting)
      else none
  | .dequeue t =>
      if s.point t = .waiting then
        let r := listDelete s.links s.waitingQueue (some t)
        some ({ s with links := r.1, waitingQueue := r.2.1 }.goTo t .test)
      else none
  | .claim t =>
      if s.point t = .claim then some ({ s with tid := t }.goTo t .holding) else none
  | .unlock t =>
      if s.point t = .holding then some (s.mutexUnlock.1.goTo t .away) else none
  | .elsewhere t node =>
      if s.point t ≠ .waiting then some { s with links := Function.update s.links t node } else none

/-- The events as a transition relation. -/
def Step (s : LockState) (e : LockEvent) (s' : LockState) : Prop := s.step e = some s'

/-! ## Who waits -/

/-- The waiting threads after an event, in the order in which they came. -/
def arrive (ws : List Nat) : LockEvent → List Nat
  | .enqueue t => ws ++ [t]
  | .dequeue t => ws.erase t
  | _ => ws

/-- **The waiting threads in arrival order.** -/
def arrivals (es : List LockEvent) : List Nat := es.foldl arrive []

/-- The queue holds the waiting threads. -/
structure Waiters (s : LockState) (ws : List Nat) : Prop where
  /-- The queue. -/
  list : IsList s.links s.waitingQueue ws
  /-- They are the threads inside `schedule`. -/
  mem : ∀ t, t ∈ ws ↔ s.point t = .waiting

variable {s s' : LockState} {ws : List Nat} {t : Nat}

/-- A thread moves between two points where it does not wait. -/
theorem Waiters.goTo (h : s.Waiters ws) {p : LockPoint} (before : s.point t ≠ .waiting)
    (after : p ≠ .waiting) : (s.goTo t p).Waiters ws where
  list := h.list
  mem u := by
    rw [h.mem u]
    by_cases hu : u = t
    · subst hu
      simp [LockState.goTo, before, after]
    · simp [LockState.goTo, hu]

/-- **Every event keeps the queue in arrival order.** -/
theorem Waiters.step (h : s.Waiters ws) {e : LockEvent} (hs : s.Step e s') :
    s'.Waiters (arrive ws e) := by
  cases e with
  | exchange t =>
      simp only [Step, LockState.step] at hs
      have hlocked : Waiters { s with status := mutexLocked } ws := ⟨h.list, h.mem⟩
      have hout : s.point t = .away ∨ s.point t = .test → s.point t ≠ .waiting := by
        rintro (hp | hp) <;> rw [hp] <;> nofun
      split_ifs at hs with hpoint
      · obtain rfl := Option.some.inj hs
        exact hlocked.goTo (hout hpoint) nofun
      · obtain rfl := Option.some.inj hs
        exact hlocked.goTo (hout hpoint) nofun
  | enqueue t =>
      simp only [Step, LockState.step] at hs
      split_ifs at hs with hpoint
      obtain rfl := Option.some.inj hs
      have hnew : t ∉ ws := by
        rw [h.mem t, hpoint]
        nofun
      refine ⟨(listInsertLast_spec h.list hnew).1, fun u => ?_⟩
      rw [arrive, List.mem_append, List.mem_singleton, h.mem u]
      by_cases hu : u = t
      · simp [LockState.goTo, hu]
      · simp [LockState.goTo, hu]
  | dequeue t =>
      simp only [Step, LockState.step] at hs
      split_ifs at hs with hpoint
      obtain rfl := Option.some.inj hs
      have hmem : t ∈ ws := (h.mem t).mpr hpoint
      refine ⟨(listDelete_spec h.list hmem).1, fun u => ?_⟩
      rw [arrive, h.list.nodup.mem_erase_iff, h.mem u]
      by_cases hu : u = t
      · simp [LockState.goTo, hu]
      · simp [LockState.goTo, hu]
  | claim t =>
      simp only [Step, LockState.step] at hs
      split_ifs at hs with hpoint
      obtain rfl := Option.some.inj hs
      have hclaimed : Waiters { s with tid := t } ws := ⟨h.list, h.mem⟩
      exact hclaimed.goTo (by rw [hpoint]; nofun) nofun
  | unlock t =>
      simp only [Step, LockState.step] at hs
      split_ifs at hs with hpoint
      obtain rfl := Option.some.inj hs
      have hunlocked : s.mutexUnlock.1.Waiters ws := by
        unfold mutexUnlock
        split_ifs <;> exact ⟨h.list, h.mem⟩
      have hout : s.mutexUnlock.1.point t ≠ .waiting := by
        have hsame : s.mutexUnlock.1.point = s.point := by
          unfold mutexUnlock
          split_ifs <;> rfl
        rw [hsame, hpoint]
        nofun
      exact hunlocked.goTo hout nofun
  | elsewhere t node =>
      simp only [Step, LockState.step] at hs
      split_ifs at hs with hpoint
      obtain rfl := Option.some.inj hs
      refine ⟨h.list.frame fun x hx => ?_, h.mem⟩
      apply Function.update_of_ne
      rintro rfl
      exact hpoint ((h.mem x).mp hx)

/-- **The queue at any moment of any run.** -/
theorem waiters_of_run {links : Links Nat} {es : List LockEvent}
    (run : Run Step (init links) es s) : s.Waiters (arrivals es) := by
  refine Run.trace_invariant (I := fun es s => Waiters s (arrivals es)) run ?_ ?_
  · exact ⟨isList_empty links, fun t => ⟨nofun, nofun⟩⟩
  · intro es u e v hwaiters hstep
    rw [arrivals, List.foldl_append]
    exact hwaiters.step hstep

/-! ## The hand-over -/

/-- **`mutex_unlock` hands the mutex over** to the first of the threads `ws`: it frees the mutex and
yields to that thread. -/
structure HandsOver (s : LockState) (ws : List Nat) : Prop where
  /-- The mutex is free. -/
  status : s.mutexUnlock.1.status = mutexUnlocked
  /-- Nobody holds it. -/
  tid : s.mutexUnlock.1.tid = -1
  /-- The thread yielded to. -/
  first : ∃ w, ws.head? = some w ∧ s.mutexUnlock.2 = some (some w)

/-- **What `mutex_unlock` yields to**: the second waiting thread, or what it reads through `NULL`
when one thread waits. -/
theorem Waiters.mutexUnlock_eq (h : s.Waiters ws) (some_wait : ws ≠ []) :
    s.mutexUnlock = ({ s with tid := -1, status := mutexUnlocked }, some ws[1]?) := by
  obtain ⟨w, rest, rfl⟩ := List.exists_cons_of_ne_nil some_wait
  have hlength : s.waitingQueue.length ≠ 0 := by
    rw [h.list.length, List.length_cons]
    omega
  have hhead : listBegin s.waitingQueue = some w := h.list.head
  have hlist : IsList s.links s.waitingQueue ([] ++ w :: rest) := h.list
  have hnext : (s.links w).next = rest.head? := hlist.next_eq
  rw [mutexUnlock, if_pos hlength, hhead, Option.bind_some, hnext, List.head?_eq_getElem?]
  rfl

/-- **No hand-over.** After any run of locks and unlocks that leaves somebody waiting,
`mutex_unlock` does not yield to the first of them. -/
theorem never_handsOver {links : Links Nat} {es : List LockEvent}
    (run : Run Step (init links) es s) (some_wait : arrivals es ≠ []) :
    ¬ s.HandsOver (arrivals es) := by
  intro h
  have hwaiters := waiters_of_run run
  obtain ⟨w, hfirst, hyields⟩ := h.first
  rw [hwaiters.mutexUnlock_eq some_wait, Option.some.injEq] at hyields
  -- the first and the second waiting thread would be the same
  have hnodup := hwaiters.list.nodup
  obtain ⟨rest, hrest⟩ := List.head?_eq_some_iff.mp hfirst
  rw [hrest, List.getElem?_cons_succ] at hyields
  rw [hrest] at hnodup
  exact (List.nodup_cons.mp hnodup).1 (List.mem_of_getElem? hyields)

/-- It yields to a waiting thread at all exactly when two or more wait. -/
theorem yields_waiting_iff {links : Links Nat} {es : List LockEvent}
    (run : Run Step (init links) es s) (some_wait : arrivals es ≠ []) :
    (∃ w ∈ arrivals es, s.mutexUnlock.2 = some (some w)) ↔ 2 ≤ (arrivals es).length := by
  rw [(waiters_of_run run).mutexUnlock_eq some_wait]
  constructor
  · rintro ⟨w, -, hw⟩
    exact (List.getElem?_eq_some_iff.mp (Option.some.inj hw)).1
  · intro h
    exact ⟨(arrivals es)[1], List.getElem_mem h, by rw [List.getElem?_eq_getElem h]⟩

/-- Thread 1 locks the mutex, and thread 2 waits for it. -/
def oneWaits : List LockEvent := [.exchange 1, .claim 1, .exchange 2, .enqueue 2]

/-- It is not handed over to thread 2. -/
theorem never_handsOver_one : ∃ s, Run Step (init fun _ => ⟨none, none⟩) oneWaits s ∧
    ¬ s.HandsOver [2] := by
  have hruns : runList step (init fun _ => ⟨none, none⟩) oneWaits = some _ := rfl
  exact ⟨_, Run.of_runList hruns, never_handsOver (Run.of_runList hruns) (by decide)⟩

/-- **One waiting thread**: `mutex_unlock` takes `NULL` for a node of the queue and yields to the
thread it reads there. -/
theorem yields_through_null : ∃ s, Run Step (init fun _ => ⟨none, none⟩) oneWaits s ∧
    arrivals oneWaits = [2] ∧ s.mutexUnlock.2 = some none ∧ ¬ s.HandsOver (arrivals oneWaits) := by
  have hruns : runList step (init fun _ => ⟨none, none⟩) oneWaits = some _ := rfl
  refine ⟨_, Run.of_runList hruns, rfl, rfl, fun h => ?_⟩
  obtain ⟨w, -, hyields⟩ := h.first
  cases hyields

end LockState

end Pebbles
