import Pebbles.Libthread.ThreadLibrary

/-! # What a step of the thread library does

The inversion of `Lib.next`: one case for each piece of code, with the state it leads to. -/

namespace Pebbles.ThreadLib

open Monitors Transition

namespace Lib

/-- **What an event can do.** -/
inductive Effect (s : Lib) : Event → Lib → Prop
  /-- `thr_create` is called. -/
  | create {t : Int} (here : s.pc t = .user) :
      Effect s (.create t) { s.move t .createLock with singleThreaded := false }
  /-- `thr_join` is called by its target. -/
  | joinSelf {t : Int} (here : s.pc t = .user) : Effect s (.join t t) s
  /-- `thr_join` is called. -/
  | join {t tid : Int} (here : s.pc t = .user) (other : tid ≠ t) :
      Effect s (.join t tid)
        { s.move t (.joinLock tid) with joiner := Function.update s.joiner tid (some t) }
  /-- `thr_exit` is called in a program with one thread. -/
  | exitSingle {t : Int} {v : Status} (here : s.pc t = .user) (single : s.singleThreaded = true) :
      Effect s (.exit t v)
        { s.move t .exitVanish with exited := Function.update s.exited t (some v) }
  /-- `thr_exit` is called. -/
  | exit {t : Int} {v : Status} (here : s.pc t = .user) (multi : s.singleThreaded = false) :
      Effect s (.exit t v)
        { s.move t (.exitLock v) with exited := Function.update s.exited t (some v) }
  /-- A stack is found. -/
  | probe {t : Int} {base : Nat} (here : s.pc t = .createProbe) (room : s.mapped base = none) :
      Effect s (.probe t base)
        { s.move t (.createUnlock base) with
          mapped := Function.update s.mapped base (some (.creator t)) }
  /-- A thread is made. -/
  | fork {t c : Int} {base : Nat} (here : s.pc t = .createFork base) (positive : 0 < c)
      (new : s.pc c = .absent) :
      Effect s (.fork t c)
        { (s.move c .childLock).move t (.createInit base c) with
          stack := Function.update s.stack c (some base) }
  /-- No thread is made. -/
  | forkFails {t c : Int} {base : Nat} (here : s.pc t = .createFork base) (negative : c < 0) :
      Effect s (.fork t c) (s.move t (.createInit base c))
  /-- A lock operation. -/
  | sync {t : Int} {u : Sync Int Cond Lock Pc} (moves : prog.Moves s.toSync t u) :
      Effect s (.go t) { s with toSync := u }
  /-- A `thread_t` is made. -/
  | init {t c : Int} {base : Nat} (here : s.pc t = .createInit base c) :
      Effect s (.go t) ((s.newThread base c).move t (.createLockList s.made c))
  /-- It is put into the list. -/
  | insert {t c : Int} {b : Nat} (here : s.pc t = .createInsert b c) :
      Effect s (.go t) { s.move t (.createSignal c) with
        nodes := s.nodes ++ [(c, b)], registered := c :: s.registered }
  /-- A new thread does not find itself. -/
  | childWaits {t : Int} {woken : Bool} (here : s.pc t = .childCheck woken)
      (missing : s.search t = none) : Effect s (.go t) (s.move t .childWait)
  /-- A new thread finds itself. -/
  | childStarts {t : Int} {woken : Bool} (here : s.pc t = .childCheck woken)
      (found : s.search t ≠ none) : Effect s (.go t) (s.move t .childUnlock)
  /-- `thr_join` looks its target up. -/
  | lookup {t tid : Int} (here : s.pc t = .joinSearch tid) :
      Effect s (.go t) (s.move t (.joinUnlock tid (s.search tid)))
  /-- The target is joined by someone. -/
  | reject {t tid : Int} {b : Nat} (here : s.pc t = .joinTest tid b)
      (taken : (s.block b).joiningTid > 0) : Effect s (.go t) (s.move t (.joinReject tid b))
  /-- The target is not joined by anyone. -/
  | accept {t tid : Int} {b : Nat} (here : s.pc t = .joinTest tid b)
      (free : ¬(s.block b).joiningTid > 0) :
      Effect s (.go t)
        ((s.store b { s.block b with joiningTid := t }).move t (.joinLoop tid b))
  /-- The target has exited. -/
  | found {t tid : Int} {b : Nat} (here : s.pc t = .joinLoop tid b)
      (gone : (s.block b).status = .exit) :
      Effect s (.go t) (s.move t (.joinRelease tid b (s.block b).statusp))
  /-- The target has not exited. -/
  | joinWaits {t tid : Int} {b : Nat} (here : s.pc t = .joinLoop tid b)
      (alive : (s.block b).status ≠ .exit) : Effect s (.go t) (s.move t (.joinWait tid b))
  /-- `thr_reap` begins. -/
  | destroy {t tid : Int} {b : Nat} {v : Status} (here : s.pc t = .reapDestroy tid b v) :
      Effect s (.go t) (s.destroy t b (.reapRemove tid b v))
  /-- The stack is removed. -/
  | remove {t tid : Int} {b : Nat} {v : Status} (here : s.pc t = .reapRemove tid b v) :
      Effect s (.go t) ((s.removePages b).move t (.reapFree tid b v))
  /-- The `thread_t` is freed. -/
  | free {t tid : Int} {b : Nat} {v : Status} (here : s.pc t = .reapFree tid b v) :
      Effect s (.go t) ((s.setReaped b .freed).move t (.deleteLock tid v))
  /-- The node is taken out of the list. -/
  | delete {t tid : Int} {v : Status} (here : s.pc t = .deleteNode tid v) :
      Effect s (.go t)
        { (s.deleteId tid).move t (.deleteUnlock tid v) with joined := (tid, v) :: s.joined }
  /-- The thread is the last one. -/
  | last {t : Int} {v : Status} (here : s.pc t = .exitCount v) (one : s.liveCount = 1) :
      Effect s (.go t) { s.move t .lastNext with last := t :: s.last }
  /-- The thread is not the last one. -/
  | zombie {t : Int} {v : Status} (here : s.pc t = .exitCount v) (more : s.liveCount ≠ 1) :
      Effect s (.go t) (s.move t (.exitUnlock v (s.search t)))
  /-- The status is stored. -/
  | exits {t : Int} {v : Status} {b : Nat} (here : s.pc t = .exitStore v b) :
      Effect s (.go t)
        ((s.store b { s.block b with status := .exit, statusp := v }).move t (.exitSignal b))
  /-- `vanish`. -/
  | vanish {t : Int} (here : s.pc t = .exitVanish) : Effect s (.go t) (s.move t .vanished)
  /-- The list is empty. -/
  | lastDone {t : Int} (here : s.pc t = .lastNext) (empty : s.nodes = []) :
      Effect s (.go t) (s.move t .lastUnlock)
  /-- The last thread takes a node. -/
  | lastPop {t : Int} {n : Int × Nat} {rest : List (Int × Nat)} (here : s.pc t = .lastNext)
      (first : s.nodes = n :: rest) :
      Effect s (.go t) ({ s with nodes := rest }.destroy t n.2
        (if (s.block n.2).tid = t then .lastNext else .lastRemove n.2))
  /-- A stack is removed. -/
  | lastRemove {t : Int} {b : Nat} (here : s.pc t = .lastRemove b) :
      Effect s (.go t) ((s.removePages b).move t (.lastFree b))
  /-- A `thread_t` is freed. -/
  | lastFree {t : Int} {b : Nat} (here : s.pc t = .lastFree b) :
      Effect s (.go t) ((s.setReaped b .freed).move t .lastNext)
  /-- The global mutex or condition variable may not be destroyed. -/
  | lastFails {t : Int} (here : s.pc t = .lastEnd)
      (used : s.locked .list = true ∨ s.queue .list ≠ []) :
      Effect s (.go t) (s.move t .vanished)
  /-- `task_vanish`. -/
  | lastEnds {t : Int} (here : s.pc t = .lastEnd)
      (unused : ¬(s.locked .list = true ∨ s.queue .list ≠ [])) :
      Effect s (.go t) (s.move t .taskVanished)
  /-- Freed memory is used. -/
  | reuse {b : Nat} {content : ThreadT} (freed : s.reaped b = .freed) :
      Effect s (.reuse b content) (s.store b content)

variable {s s' : Lib} {e : Event}

theorem effect_of_code {t : Int} (h : s.code t = some s') : Effect s (.go t) s' := by
  unfold code at h
  split at h
  · next here =>
      obtain rfl := Option.some.inj h
      exact .init here
  · next here =>
      obtain rfl := Option.some.inj h
      exact .insert here
  · next here =>
      obtain rfl := Option.some.inj h
      split_ifs with missing
      · exact .childWaits here missing
      · exact .childStarts here missing
  · next here =>
      obtain rfl := Option.some.inj h
      exact .lookup here
  · next here =>
      split_ifs at h with taken
      · obtain rfl := Option.some.inj h
        exact .reject here taken
      · obtain rfl := Option.some.inj h
        exact .accept here taken
  · next here =>
      split_ifs at h with gone
      · obtain rfl := Option.some.inj h
        exact .found here gone
      · obtain rfl := Option.some.inj h
        exact .joinWaits here gone
  · next here =>
      obtain rfl := Option.some.inj h
      exact .destroy here
  · next here =>
      obtain rfl := Option.some.inj h
      exact .remove here
  · next here =>
      obtain rfl := Option.some.inj h
      exact .free here
  · next here =>
      obtain rfl := Option.some.inj h
      exact .delete here
  · next here =>
      split_ifs at h with one
      · obtain rfl := Option.some.inj h
        exact .last here one
      · obtain rfl := Option.some.inj h
        exact .zombie here one
  · next here =>
      obtain rfl := Option.some.inj h
      exact .exits here
  · next here =>
      obtain rfl := Option.some.inj h
      exact .vanish here
  · next here =>
      split at h
      · next empty =>
          obtain rfl := Option.some.inj h
          exact .lastDone here empty
      · next first =>
          obtain rfl := Option.some.inj h
          exact .lastPop here first
  · next here =>
      obtain rfl := Option.some.inj h
      exact .lastRemove here
  · next here =>
      obtain rfl := Option.some.inj h
      exact .lastFree here
  · next here =>
      split_ifs at h with used
      · obtain rfl := Option.some.inj h
        exact .lastFails here used
      · obtain rfl := Option.some.inj h
        exact .lastEnds here used
  · cases h

/-- **Inversion of a step.** -/
theorem effect_of_step (h : s.Step e s') : Effect s e s' := by
  unfold Step at h
  cases e with
  | create t =>
      simp only [next] at h
      split_ifs at h with here
      obtain rfl := Option.some.inj h
      exact .create here
  | join t tid =>
      simp only [next] at h
      split_ifs at h with here self
      · obtain rfl := Option.some.inj h
        subst self
        exact .joinSelf here
      · obtain rfl := Option.some.inj h
        exact .join here self
  | exit t v =>
      simp only [next] at h
      split_ifs at h with here single
      · obtain rfl := Option.some.inj h
        exact .exitSingle here single
      · obtain rfl := Option.some.inj h
        exact .exit here (Bool.not_eq_true _ ▸ single)
  | probe t base =>
      simp only [next] at h
      split_ifs at h with here
      obtain rfl := Option.some.inj h
      exact .probe here.1 (Option.isNone_iff_eq_none.mp here.2)
  | fork t c =>
      simp only [next] at h
      split at h
      · next here =>
          split_ifs at h with new negative
          · obtain rfl := Option.some.inj h
            exact .fork here new.1 new.2
          · obtain rfl := Option.some.inj h
            exact .forkFails here negative
      · cases h
  | go t =>
      simp only [next] at h
      split at h
      · exact effect_of_code h
      · obtain ⟨u, hu, rfl⟩ := Option.map_eq_some_iff.mp h
        exact .sync (Program.moves_of_step hu)
  | reuse b content =>
      simp only [next] at h
      split_ifs at h with freed
      obtain rfl := Option.some.inj h
      exact .reuse freed

end Lib

/-! ## The flow of control -/

/-- **Where a thread can go**: one case for each piece of code, for the operations, and for those
that stay or are woken. -/
inductive Pc.Flow : Pc → Pc → Prop
  /-- `thr_create` is called. -/
  | create : Flow user createLock
  /-- `thr_join` is called. -/
  | join (tid : Int) : Flow user (joinLock tid)
  /-- `thr_exit` is called in a program with one thread. -/
  | exitSingle : Flow user exitVanish
  /-- `thr_exit` is called. -/
  | exit (v : Status) : Flow user (exitLock v)
  /-- A stack is found. -/
  | probe (base : Nat) : Flow createProbe (createUnlock base)
  /-- `thread_fork` returns. -/
  | fork (base : Nat) (c : Int) : Flow (createFork base) (createInit base c)
  /-- A thread is made. -/
  | born : Flow absent childLock
  /-- A `thread_t` is made. -/
  | init (base : Nat) (c : Int) (b : Nat) : Flow (createInit base c) (createLockList b c)
  /-- It is put into the list. -/
  | insert (b : Nat) (c : Int) : Flow (createInsert b c) (createSignal c)
  /-- A new thread does not find itself. -/
  | childWaits (woken : Bool) : Flow (childCheck woken) childWait
  /-- A new thread finds itself. -/
  | childStarts (woken : Bool) : Flow (childCheck woken) childUnlock
  /-- `thr_join` looks its target up. -/
  | lookup (tid : Int) (found : Option Nat) : Flow (joinSearch tid) (joinUnlock tid found)
  /-- The target is joined by someone. -/
  | reject (tid : Int) (b : Nat) : Flow (joinTest tid b) (joinReject tid b)
  /-- The target is not joined by anyone. -/
  | accept (tid : Int) (b : Nat) : Flow (joinTest tid b) (joinLoop tid b)
  /-- The target has exited. -/
  | found (tid : Int) (b : Nat) (v : Status) : Flow (joinLoop tid b) (joinRelease tid b v)
  /-- The target has not exited. -/
  | joinWaits (tid : Int) (b : Nat) : Flow (joinLoop tid b) (joinWait tid b)
  /-- `thr_reap` begins. -/
  | destroy (tid : Int) (b : Nat) (v : Status) : Flow (reapDestroy tid b v) (reapRemove tid b v)
  /-- `thr_reap` ends the thread. -/
  | destroyFails (tid : Int) (b : Nat) (v : Status) : Flow (reapDestroy tid b v) vanished
  /-- The stack is removed. -/
  | remove (tid : Int) (b : Nat) (v : Status) : Flow (reapRemove tid b v) (reapFree tid b v)
  /-- The `thread_t` is freed. -/
  | free (tid : Int) (b : Nat) (v : Status) : Flow (reapFree tid b v) (deleteLock tid v)
  /-- The node is taken out of the list. -/
  | delete (tid : Int) (v : Status) : Flow (deleteNode tid v) (deleteUnlock tid v)
  /-- The thread is the last one. -/
  | last (v : Status) : Flow (exitCount v) lastNext
  /-- The thread is not the last one. -/
  | zombie (v : Status) (found : Option Nat) : Flow (exitCount v) (exitUnlock v found)
  /-- The status is stored. -/
  | exits (v : Status) (b : Nat) : Flow (exitStore v b) (exitSignal b)
  /-- `vanish`. -/
  | vanish : Flow exitVanish vanished
  /-- The list is empty. -/
  | lastDone : Flow lastNext lastUnlock
  /-- The last thread reaps a thread. -/
  | lastPop (b : Nat) : Flow lastNext (lastRemove b)
  /-- The last thread ends while it reaps. -/
  | lastPopFails : Flow lastNext vanished
  /-- A stack is removed. -/
  | lastRemove (b : Nat) : Flow (lastRemove b) (lastFree b)
  /-- A `thread_t` is freed. -/
  | lastFree (b : Nat) : Flow (lastFree b) lastNext
  /-- The last thread ends before `task_vanish`. -/
  | lastFails : Flow lastEnd vanished
  /-- `task_vanish`. -/
  | lastEnds : Flow lastEnd taskVanished
  /-- A thread is woken. -/
  | wake (p : Pc) : Flow p p.wake
  /-- A thread stays where it is. -/
  | stay (p : Pc) : Flow p p
  /-- A lock operation. -/
  | op {p q : Pc} (leads : Program.Op.LeadsTo p.op q) : Flow p q

/-- **The control-flow graph**, edge by edge: the pieces of code, the lock operations and the
wake-ups, and that a thread may stay where it is. -/
inductive Pc.Edge : Pc → Pc → Prop
  /-- `thr_create` is called. -/
  | create : Edge user createLock
  /-- `thr_join` is called. -/
  | join (tid : Int) : Edge user (joinLock tid)
  /-- `thr_exit` is called in a program with one thread. -/
  | exitSingle : Edge user exitVanish
  /-- `thr_exit` is called. -/
  | exit (v : Status) : Edge user (exitLock v)
  /-- A stack is found. -/
  | probe (base : Nat) : Edge createProbe (createUnlock base)
  /-- `thread_fork` returns. -/
  | fork (base : Nat) (c : Int) : Edge (createFork base) (createInit base c)
  /-- A thread is made. -/
  | born : Edge absent childLock
  /-- A `thread_t` is made. -/
  | init (base : Nat) (c : Int) (b : Nat) : Edge (createInit base c) (createLockList b c)
  /-- It is put into the list. -/
  | insert (b : Nat) (c : Int) : Edge (createInsert b c) (createSignal c)
  /-- A new thread does not find itself. -/
  | childWaits (woken : Bool) : Edge (childCheck woken) childWait
  /-- A new thread finds itself. -/
  | childStarts (woken : Bool) : Edge (childCheck woken) childUnlock
  /-- `thr_join` finds its target. -/
  | lookupFinds (tid : Int) (b : Nat) : Edge (joinSearch tid) (joinUnlock tid (some b))
  /-- It does not find its target. -/
  | lookupFails (tid : Int) : Edge (joinSearch tid) (joinUnlock tid none)
  /-- The target is joined by someone. -/
  | reject (tid : Int) (b : Nat) : Edge (joinTest tid b) (joinReject tid b)
  /-- The target is not joined by anyone. -/
  | accept (tid : Int) (b : Nat) : Edge (joinTest tid b) (joinLoop tid b)
  /-- The target has exited. -/
  | found (tid : Int) (b : Nat) (v : Status) : Edge (joinLoop tid b) (joinRelease tid b v)
  /-- The target has not exited. -/
  | joinWaits (tid : Int) (b : Nat) : Edge (joinLoop tid b) (joinWait tid b)
  /-- `thr_reap` begins. -/
  | destroy (tid : Int) (b : Nat) (v : Status) : Edge (reapDestroy tid b v) (reapRemove tid b v)
  /-- `thr_reap` ends the thread. -/
  | destroyFails (tid : Int) (b : Nat) (v : Status) : Edge (reapDestroy tid b v) vanished
  /-- The stack is removed. -/
  | remove (tid : Int) (b : Nat) (v : Status) : Edge (reapRemove tid b v) (reapFree tid b v)
  /-- The `thread_t` is freed. -/
  | free (tid : Int) (b : Nat) (v : Status) : Edge (reapFree tid b v) (deleteLock tid v)
  /-- The node is taken out of the list. -/
  | delete (tid : Int) (v : Status) : Edge (deleteNode tid v) (deleteUnlock tid v)
  /-- The thread is the last one. -/
  | last (v : Status) : Edge (exitCount v) lastNext
  /-- The thread is not the last one. -/
  | zombie (v : Status) (b : Nat) : Edge (exitCount v) (exitUnlock v (some b))
  /-- It does not find its `thread_t`. -/
  | zombieFails (v : Status) : Edge (exitCount v) (exitUnlock v none)
  /-- The status is stored. -/
  | exits (v : Status) (b : Nat) : Edge (exitStore v b) (exitSignal b)
  /-- `vanish`. -/
  | vanish : Edge exitVanish vanished
  /-- The list is empty. -/
  | lastDone : Edge lastNext lastUnlock
  /-- The last thread reaps a thread. -/
  | lastPop (b : Nat) : Edge lastNext (lastRemove b)
  /-- The last thread ends while it reaps. -/
  | lastPopFails : Edge lastNext vanished
  /-- A stack is removed. -/
  | lastRemove (b : Nat) : Edge (lastRemove b) (lastFree b)
  /-- A `thread_t` is freed. -/
  | lastFree (b : Nat) : Edge (lastFree b) lastNext
  /-- The last thread ends before `task_vanish`. -/
  | lastFails : Edge lastEnd vanished
  /-- `task_vanish`. -/
  | lastEnds : Edge lastEnd taskVanished
  /-- `mutex_lock(&m)`. -/
  | createLock : Edge createLock createProbe
  /-- `mutex_unlock(&m)`. -/
  | createUnlock (base : Nat) : Edge (createUnlock base) (createFork base)
  /-- `mutex_lock(&list_mutex)`. -/
  | createLockList (b : Nat) (c : Int) : Edge (createLockList b c) (createInsert b c)
  /-- `cond_signal(&list_cond)`. -/
  | createSignal (c : Int) : Edge (createSignal c) (createUnlockList c)
  /-- `mutex_unlock(&list_mutex)`. -/
  | createUnlockList (c : Int) : Edge (createUnlockList c) user
  /-- `mutex_lock(&list_mutex)`. -/
  | childLock : Edge childLock (childCheck false)
  /-- `cond_wait(&list_cond, &list_mutex)` sleeps. -/
  | childSleeps : Edge childWait childAsleep
  /-- It returns at once. -/
  | childSkips : Edge childWait (childCheck true)
  /-- The thread is woken. -/
  | childWoken : Edge childAsleep childRelock
  /-- `cond_wait` takes `list_mutex` again. -/
  | childRelock : Edge childRelock (childCheck true)
  /-- `mutex_unlock(&list_mutex)`. -/
  | childUnlock : Edge childUnlock user
  /-- `mutex_lock(&list_mutex)`. -/
  | joinLock (tid : Int) : Edge (joinLock tid) (joinSearch tid)
  /-- `mutex_unlock(&list_mutex)`, when the target was found. -/
  | joinUnlock (tid : Int) (b : Nat) : Edge (joinUnlock tid (some b)) (joinLockThread tid b)
  /-- `mutex_unlock(&list_mutex)`, when it was not. -/
  | joinMissing (tid : Int) : Edge (joinUnlock tid none) user
  /-- `mutex_lock(&thread -> t_mutex)`. -/
  | joinLockThread (tid : Int) (b : Nat) : Edge (joinLockThread tid b) (joinTest tid b)
  /-- `mutex_unlock(&thread -> t_mutex)`, to return -1. -/
  | joinReject (tid : Int) (b : Nat) : Edge (joinReject tid b) user
  /-- `cond_wait(&thread -> t_cond, &thread -> t_mutex)` sleeps. -/
  | joinSleeps (tid : Int) (b : Nat) : Edge (joinWait tid b) (joinAsleep tid b)
  /-- It returns at once. -/
  | joinSkips (tid : Int) (b : Nat) : Edge (joinWait tid b) (joinLoop tid b)
  /-- The thread is woken. -/
  | joinWoken (tid : Int) (b : Nat) : Edge (joinAsleep tid b) (joinRelock tid b)
  /-- `cond_wait` takes `t_mutex` again. -/
  | joinRelock (tid : Int) (b : Nat) : Edge (joinRelock tid b) (joinLoop tid b)
  /-- `mutex_unlock(&thread -> t_mutex)`. -/
  | joinRelease (tid : Int) (b : Nat) (v : Status) : Edge (joinRelease tid b v) (reapDestroy tid b v)
  /-- `mutex_lock(&list_mutex)`. -/
  | deleteLock (tid : Int) (v : Status) : Edge (deleteLock tid v) (deleteNode tid v)
  /-- `mutex_unlock(&list_mutex)`, to return 0. -/
  | deleteUnlock (tid : Int) (v : Status) : Edge (deleteUnlock tid v) user
  /-- `mutex_lock(&list_mutex)`. -/
  | exitLock (v : Status) : Edge (exitLock v) (exitCount v)
  /-- `mutex_unlock(&list_mutex)`, when the thread was found. -/
  | exitUnlock (v : Status) (b : Nat) : Edge (exitUnlock v (some b)) (exitLockThread v b)
  /-- `mutex_unlock(&list_mutex)`, when it was not. -/
  | exitMissing (v : Status) : Edge (exitUnlock v none) fault
  /-- `mutex_lock(&thread -> t_mutex)`. -/
  | exitLockThread (v : Status) (b : Nat) : Edge (exitLockThread v b) (exitStore v b)
  /-- `cond_signal(&thread -> t_cond)`. -/
  | exitSignal (b : Nat) : Edge (exitSignal b) (exitUnlockThread b)
  /-- `mutex_unlock(&thread-> t_mutex)`. -/
  | exitUnlockThread (b : Nat) : Edge (exitUnlockThread b) exitVanish
  /-- `mutex_unlock(&list_mutex)`. -/
  | lastUnlock : Edge lastUnlock lastEnd
  /-- A thread stays where it is. -/
  | stay (p : Pc) : Edge p p

/-- **The flow of control follows the graph.** Whatever is said about all flows is proved edge by
edge. -/
theorem Pc.Flow.edge {p q : Pc} (h : Pc.Flow p q) : Pc.Edge p q := by
  cases h with
  | stay => exact .stay p
  | wake =>
      cases p with
      | childAsleep => exact .childWoken
      | joinAsleep tid b => exact .joinWoken tid b
      | _ => exact .stay _
  | op leads =>
      cases p with
      | joinUnlock tid found | exitUnlock v found =>
          cases found <;>
            · obtain rfl := leads
              constructor
      | childWait | joinWait tid b =>
          rcases leads with rfl | rfl <;> constructor
      | createLock | createUnlock | createLockList | createSignal | createUnlockList | childLock
      | childRelock | childUnlock | joinLock | joinLockThread | joinReject | joinRelock
      | joinRelease | deleteLock | deleteUnlock | exitLock | exitLockThread | exitSignal
      | exitUnlockThread | lastUnlock =>
          obtain rfl := leads
          constructor
      | _ => exact leads.elim
  | lookup tid found | zombie v found => cases found <;> constructor
  | _ => constructor

/-- **Every thread follows the flow of control** in every step. -/
theorem Lib.Effect.flow {s s' : Lib} {e : Event} (h : Lib.Effect s e s') (x : Int) :
    (s.pc x).Flow (s'.pc x) := by
  have mover : ∀ t p, (s.pc t).Flow p → (s.pc x).Flow (Function.update s.pc t p x) := by
    intro t p hp
    by_cases hx : x = t
    · rw [hx, Function.update_self]
      exact hp
    · rw [Function.update_of_ne hx]
      exact .stay _
  cases h with
  | joinSelf | reuse => exact .stay _
  | sync moves => exact moves.rel ⟨.stay, fun p q h => .op h, .wake⟩ x
  | @fork t c base here positive new =>
      have hct : c ≠ t := by
        rintro rfl
        rw [here] at new
        cases new
      by_cases hx : x = t
      · show Pc.Flow _ (Function.update (Function.update s.pc c .childLock) t _ x)
        rw [hx, Function.update_self, here]
        exact .fork base c
      · show Pc.Flow _ (Function.update (Function.update s.pc c .childLock) t _ x)
        rw [Function.update_of_ne hx]
        exact mover c _ (by rw [new]; exact .born)
  | destroy here =>
      refine mover _ _ ?_
      rw [here]
      split_ifs
      · exact .destroy ..
      · exact .destroyFails ..
  | lastPop here first =>
      refine mover _ _ ?_
      rw [here]
      split_ifs
      · exact .stay _
      · exact .lastPop _
      · exact .lastPopFails
  | create here | join here | exitSingle here | exit here | probe here | forkFails here | init here
  | insert here | childWaits here | childStarts here | lookup here | reject here | accept here
  | found here | joinWaits here | remove here | free here | delete here | last here | zombie here
  | exits here | vanish here | lastDone here | lastRemove here | lastFree here | lastFails here
  | lastEnds here =>
      refine mover _ _ ?_
      rw [here]
      constructor

end Pebbles.ThreadLib
