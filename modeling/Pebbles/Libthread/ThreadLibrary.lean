import Pebbles.Library.Monitors
import Pebbles.Library.Runs

/-! # The thread library

`thr_create`, `run_child`, `thr_join`, `thr_exit` and `thr_reap` of `user/libthread/thread_mgmt.c`,
for any number of threads. A step is the code between two lock operations or system calls; the
mutexes and condition variables are correct ones. Beside the memory of the library the state keeps
what a reader of the source would write down: whose thread a `thread_t` is, how far `thr_reap` is
with it, who passed which status to `thr_exit`, and what the calls of `thr_join` have returned. -/

namespace Pebbles.ThreadLib

open Monitors Transition

/-! ## The data -/

/-- `THREAD_RUNNING` and `THREAD_EXIT`. -/
inductive ThreadStatus where
  /-- `THREAD_RUNNING`. -/
  | running
  /-- `THREAD_EXIT`. -/
  | exit
  deriving DecidableEq

/-- The `void *` that a thread exits with. -/
structure Status where
  /-- The pointer. -/
  pointer : UInt32
  deriving DecidableEq

/-- `thread_t`, without its mutex and its condition variable. -/
structure ThreadT where
  /-- `tid`. -/
  tid : Int
  /-- `base`. -/
  base : Nat
  /-- `status`. -/
  status : ThreadStatus
  /-- `statusp`. -/
  statusp : Status
  /-- `joining_tid`. -/
  joiningTid : Int

/-- The mutexes: `m`, `list_mutex`, and `t_mutex` of the `thread_t` number `b`. -/
inductive Lock where
  /-- `m`. -/
  | m
  /-- `list_mutex`. -/
  | list
  /-- `t_mutex`. -/
  | thread (b : Nat)
  deriving DecidableEq

/-- The condition variables. -/
inductive Cond where
  /-- `list_cond`. -/
  | list
  /-- `t_cond`. -/
  | thread (b : Nat)
  deriving DecidableEq

/-- **Where a thread is**: what it executes next. `b` is a pointer to a `thread_t`, `tid` the target
of `thr_join`, `c` the thread that `thr_create` makes, `v` a status. -/
inductive Pc where
  /-- There is no such thread yet. -/
  | absent
  /-- The program, outside the library. -/
  | user
  /-- `thr_create`: `mutex_lock(&m)`. -/
  | createLock
  /-- The loop that finds room for a stack. -/
  | createProbe
  /-- `mutex_unlock(&m)`. -/
  | createUnlock (base : Nat)
  /-- `thread_fork`. -/
  | createFork (base : Nat)
  /-- `malloc` and the fields of the new `thread_t`. -/
  | createInit (base : Nat) (c : Int)
  /-- `mutex_lock(&list_mutex)`. -/
  | createLockList (b : Nat) (c : Int)
  /-- `list_insert_last`. -/
  | createInsert (b : Nat) (c : Int)
  /-- `cond_signal(&list_cond)`. -/
  | createSignal (c : Int)
  /-- `mutex_unlock(&list_mutex)`. -/
  | createUnlockList (c : Int)
  /-- `run_child`: `mutex_lock(&list_mutex)`. -/
  | childLock
  /-- The search; `woken` after `cond_wait`. -/
  | childCheck (woken : Bool)
  /-- `cond_wait(&list_cond, &list_mutex)`. -/
  | childWait
  /-- Inside `cond_wait`. -/
  | childAsleep
  /-- `cond_wait` takes `list_mutex` again. -/
  | childRelock
  /-- `mutex_unlock(&list_mutex)`, before the start function. -/
  | childUnlock
  /-- `thr_join`: `mutex_lock(&list_mutex)`. -/
  | joinLock (tid : Int)
  /-- The search. -/
  | joinSearch (tid : Int)
  /-- `mutex_unlock(&list_mutex)`, with what the search has found. -/
  | joinUnlock (tid : Int) (found : Option Nat)
  /-- `mutex_lock(&thread -> t_mutex)`. -/
  | joinLockThread (tid : Int) (b : Nat)
  /-- The test of `joining_tid`. -/
  | joinTest (tid : Int) (b : Nat)
  /-- `mutex_unlock(&thread -> t_mutex)`, to return -1. -/
  | joinReject (tid : Int) (b : Nat)
  /-- The test of `status`. -/
  | joinLoop (tid : Int) (b : Nat)
  /-- `cond_wait(&thread -> t_cond, &thread -> t_mutex)`. -/
  | joinWait (tid : Int) (b : Nat)
  /-- Inside `cond_wait`. -/
  | joinAsleep (tid : Int) (b : Nat)
  /-- `cond_wait` takes `t_mutex` again. -/
  | joinRelock (tid : Int) (b : Nat)
  /-- `mutex_unlock(&thread -> t_mutex)`, with the status that was read. -/
  | joinRelease (tid : Int) (b : Nat) (v : Status)
  /-- `thr_reap`: `mutex_destroy` and `cond_destroy`. -/
  | reapDestroy (tid : Int) (b : Nat) (v : Status)
  /-- `remove_pages`. -/
  | reapRemove (tid : Int) (b : Nat) (v : Status)
  /-- `free`. -/
  | reapFree (tid : Int) (b : Nat) (v : Status)
  /-- `thr_join`: `mutex_lock(&list_mutex)`. -/
  | deleteLock (tid : Int) (v : Status)
  /-- `list_delete_id`. -/
  | deleteNode (tid : Int) (v : Status)
  /-- `mutex_unlock(&list_mutex)`, to return 0. -/
  | deleteUnlock (tid : Int) (v : Status)
  /-- `thr_exit`: `mutex_lock(&list_mutex)`. -/
  | exitLock (v : Status)
  /-- The search, and the loop that counts. -/
  | exitCount (v : Status)
  /-- `mutex_unlock(&list_mutex)`. -/
  | exitUnlock (v : Status) (found : Option Nat)
  /-- `mutex_lock(&thread -> t_mutex)`. -/
  | exitLockThread (v : Status) (b : Nat)
  /-- `status` and `statusp` are stored. -/
  | exitStore (v : Status) (b : Nat)
  /-- `cond_signal(&thread -> t_cond)`. -/
  | exitSignal (b : Nat)
  /-- `mutex_unlock(&thread-> t_mutex)`. -/
  | exitUnlockThread (b : Nat)
  /-- `vanish`. -/
  | exitVanish
  /-- The branch of the last thread: the head of the loop, and `mutex_destroy`
  and `cond_destroy`. -/
  | lastNext
  /-- `remove_pages`. -/
  | lastRemove (b : Nat)
  /-- `free`. -/
  | lastFree (b : Nat)
  /-- `mutex_unlock(&list_mutex)`. -/
  | lastUnlock
  /-- `mutex_destroy(&list_mutex)`, `cond_destroy(&list_cond)` and `task_vanish(0)`. -/
  | lastEnd
  /-- After `vanish`. -/
  | vanished
  /-- After `task_vanish`. -/
  | taskVanished
  /-- After a fault at address `NULL`. -/
  | fault
  deriving DecidableEq

/-- The lock operations. -/
def Pc.op : Pc → Op Cond Lock Pc
  | createLock => .lock .m createProbe
  | createUnlock base => .unlock .m (createFork base)
  | createLockList b c => .lock .list (createInsert b c)
  | createSignal c => .signal .list (createUnlockList c)
  | createUnlockList _ => .unlock .list user
  | childLock => .lock .list (childCheck false)
  | childWait => .wait .list .list childAsleep (childCheck true)
  | childRelock => .lock .list (childCheck true)
  | childUnlock => .unlock .list user
  | joinLock tid => .lock .list (joinSearch tid)
  | joinUnlock tid (some b) => .unlock .list (joinLockThread tid b)
  | joinUnlock _ none => .unlock .list user
  | joinLockThread tid b => .lock (.thread b) (joinTest tid b)
  | joinReject _ b => .unlock (.thread b) user
  | joinWait tid b => .wait (.thread b) (.thread b) (joinAsleep tid b) (joinLoop tid b)
  | joinRelock tid b => .lock (.thread b) (joinLoop tid b)
  | joinRelease tid b v => .unlock (.thread b) (reapDestroy tid b v)
  | deleteLock tid v => .lock .list (deleteNode tid v)
  | deleteUnlock _ _ => .unlock .list user
  | exitLock v => .lock .list (exitCount v)
  | exitUnlock v (some b) => .unlock .list (exitLockThread v b)
  | exitUnlock _ none => .unlock .list fault
  | exitLockThread v b => .lock (.thread b) (exitStore v b)
  | exitSignal b => .signal (.thread b) (exitUnlockThread b)
  | exitUnlockThread b => .unlock (.thread b) exitVanish
  | lastUnlock => .unlock .list lastEnd
  | _ => .code

/-- A thread that is woken takes its mutex again. -/
def Pc.wake : Pc → Pc
  | childAsleep => childRelock
  | joinAsleep tid b => joinRelock tid b
  | p => p

/-- The lock operations of the library. -/
def prog : Program Cond Lock Pc := ⟨Pc.op, Pc.wake⟩

/-- How far `thr_reap` is with a `thread_t`. -/
inductive Reaping where
  /-- It has not begun. -/
  | no
  /-- The mutex and the condition variable are destroyed. -/
  | destroyed
  /-- The stack is removed. -/
  | removed
  /-- The `thread_t` is freed. -/
  | freed
  deriving DecidableEq

/-- Who has to do with the pages of a stack. -/
inductive Holder where
  /-- A thread in `thr_create`. -/
  | creator (t : Int)
  /-- A `thread_t`. -/
  | block (b : Nat)

/-- **The state.** -/
structure Lib extends Sync Int Cond Lock Pc where
  /-- `thread_list`: the thread and the `thread_t` of each node. -/
  nodes : List (Int × Nat)
  /-- The `thread_t`s. -/
  block : Nat → ThreadT
  /-- How many of them were allocated. -/
  made : Nat
  /-- `global_stackinfo.is_single_threaded`. -/
  singleThreaded : Bool
  /-- The stacks that are mapped. -/
  mapped : Nat → Option Holder
  /-- The stack of a created thread. -/
  stack : Int → Option Nat
  /-- How far `thr_reap` is. -/
  reaped : Nat → Reaping
  /-- Whose `thread_t` it is. -/
  owner : Nat → Int
  /-- The status with which a thread has called `thr_exit`. -/
  exited : Int → Option Status
  /-- The threads that were put into `thread_list`. -/
  registered : List Int
  /-- The last caller of `thr_join` on a thread. -/
  joiner : Int → Option Int
  /-- The calls of `thr_join` that found a `thread_t` and return 0: the target and the status. -/
  joined : List (Int × Status)
  /-- The threads that took the branch of the last thread. -/
  last : List Int

/-- What happens. -/
inductive Event where
  /-- A thread calls `thr_create`. -/
  | create (t : Int)
  /-- A thread calls `thr_join`. -/
  | join (t : Int) (tid : Int)
  /-- A thread calls `thr_exit`, or its start function returns. -/
  | exit (t : Int) (v : Status)
  /-- `new_pages` finds room for a stack. -/
  | probe (t : Int) (base : Nat)
  /-- `thread_fork` returns. -/
  | fork (t : Int) (c : Int)
  /-- A thread goes on. -/
  | go (t : Int)
  /-- Memory that was freed is used for something else. -/
  | reuse (b : Nat) (content : ThreadT)

/-- The thread of an event. -/
def Event.actor : Event → Option Int
  | create t | join t _ | exit t _ | probe t _ | fork t _ | go t => some t
  | reuse _ _ => none

namespace Lib

/-! ## The functions -/

/-- After `thr_init`. The `thread_t` of the first thread is what `malloc` has returned, but for the
status. -/
def init (root : Nat) (memory : ThreadT) : Lib where
  pc := fun t => if t = root then .user else .absent
  mutex := fun _ => .free
  queue := fun _ => []
  nodes := [(root, 0)]
  block := fun _ => { memory with status := .running }
  made := 1
  singleThreaded := true
  mapped := fun _ => none
  stack := fun _ => none
  reaped := fun _ => .no
  owner := fun _ => root
  exited := fun _ => none
  registered := [(root : Int)]
  joiner := fun _ => none
  joined := []
  last := []

/-- A thread goes to a place. -/
def move (s : Lib) (t : Int) (p : Pc) : Lib := { s with pc := Function.update s.pc t p }

/-- A `thread_t` is written. -/
def store (s : Lib) (b : Nat) (x : ThreadT) : Lib :=
  { s with block := Function.update s.block b x }

/-- `thr_reap` gets on. -/
def setReaped (s : Lib) (b : Nat) (r : Reaping) : Lib :=
  { s with reaped := Function.update s.reaped b r }

/-- `search_thread_by_id`. -/
def search (s : Lib) (tid : Int) : Option Nat := (s.nodes.find? fun n => n.1 = tid).map Prod.snd

/-- `list_delete_id`. -/
def deleteId (s : Lib) (tid : Int) : Lib :=
  { s with nodes := s.nodes.eraseP fun n => n.1 = tid }

/-- `live_count`. -/
def liveCount (s : Lib) : Nat := s.nodes.countP fun n => (s.block n.2).status = .running

/-- `malloc` and the initialisation of a `thread_t`. -/
def newThread (s : Lib) (base : Nat) (c : Int) : Lib :=
  { s.store s.made ⟨c, base, .running, ⟨0⟩, 0⟩ with
    mutex := Function.update s.mutex (.thread s.made) .free
    queue := Function.update s.queue (.thread s.made) []
    made := s.made + 1
    mapped := Function.update s.mapped base (some (.block s.made))
    owner := Function.update s.owner s.made c }

/-- A mutex is `MUTEX_LOCKED`. -/
def locked (s : Lib) (l : Lock) : Bool :=
  match s.mutex l with
  | .held _ => true
  | _ => false

/-- `mutex_destroy` and `cond_destroy` of a `thread_t` are allowed. -/
def destroyable (s : Lib) (b : Nat) : Bool :=
  s.locked (.thread b) = false ∧ s.queue (.thread b) = []

/-- `mutex_destroy` and `cond_destroy` of a `thread_t`. When one of them is not allowed it ends the
thread. -/
def destroy (s : Lib) (t : Int) (b : Nat) (next : Pc) : Lib :=
  { s.move t (if s.destroyable b then next else .vanished) with
    mutex :=
      if s.locked (.thread b) then s.mutex
      else Function.update s.mutex (.thread b) .destroyed
    reaped := if s.destroyable b then Function.update s.reaped b .destroyed else s.reaped }

/-- `remove_pages(thread -> base)`. -/
def removePages (s : Lib) (b : Nat) : Lib :=
  { s.setReaped b .removed with mapped := Function.update s.mapped (s.block b).base none }

section Fields

variable (s : Lib) (t : Int) (p : Pc) (b : Nat) (x : ThreadT) (base : Nat) (c : Int)

@[simp] theorem move_pc : (s.move t p).pc = Function.update s.pc t p := rfl

@[simp] theorem move_block : (s.move t p).block = s.block := rfl

@[simp] theorem store_block : (s.store b x).block = Function.update s.block b x := rfl

@[simp] theorem newThread_block :
    (s.newThread base c).block = Function.update s.block s.made ⟨c, base, .running, ⟨0⟩, 0⟩ := rfl

@[simp] theorem destroy_pc : (s.destroy t b p).pc =
    Function.update s.pc t (if s.destroyable b then p else .vanished) := rfl

@[simp] theorem destroy_reaped : (s.destroy t b p).reaped =
    if s.destroyable b then Function.update s.reaped b .destroyed else s.reaped := rfl

variable {s t p b}

theorem destroy_reaped_of_ne {b' : Nat} (h : b' ≠ b) :
    (s.destroy t b p).reaped b' = s.reaped b' := by
  rw [destroy_reaped]
  split_ifs
  · exact Function.update_of_ne h _ _
  · rfl

end Fields

/-- **The code between lock operations.** -/
def code (s : Lib) (t : Int) : Option Lib :=
  match s.pc t with
  | .createInit base c => some ((s.newThread base c).move t (.createLockList s.made c))
  | .createInsert b c =>
      some { s.move t (.createSignal c) with
        nodes := s.nodes ++ [(c, b)], registered := c :: s.registered }
  | .childCheck _ => some (s.move t (if s.search t = none then .childWait else .childUnlock))
  | .joinSearch tid => some (s.move t (.joinUnlock tid (s.search tid)))
  | .joinTest tid b =>
      if (s.block b).joiningTid > 0 then some (s.move t (.joinReject tid b))
      else some ((s.store b { s.block b with joiningTid := t }).move t (.joinLoop tid b))
  | .joinLoop tid b =>
      if (s.block b).status = .exit then some (s.move t (.joinRelease tid b (s.block b).statusp))
      else some (s.move t (.joinWait tid b))
  | .reapDestroy tid b v => some (s.destroy t b (.reapRemove tid b v))
  | .reapRemove tid b v => some ((s.removePages b).move t (.reapFree tid b v))
  | .reapFree tid b v => some ((s.setReaped b .freed).move t (.deleteLock tid v))
  | .deleteNode tid v =>
      some { (s.deleteId tid).move t (.deleteUnlock tid v) with joined := (tid, v) :: s.joined }
  | .exitCount v =>
      if s.liveCount = 1 then some { s.move t .lastNext with last := t :: s.last }
      else some (s.move t (.exitUnlock v (s.search t)))
  | .exitStore v b =>
      some ((s.store b { s.block b with status := .exit, statusp := v }).move t (.exitSignal b))
  | .exitVanish => some (s.move t .vanished)
  | .lastNext =>
      match s.nodes with
      | [] => some (s.move t .lastUnlock)
      | (_, b) :: rest =>
          some ({ s with nodes := rest }.destroy t b
            (if (s.block b).tid = t then .lastNext else .lastRemove b))
  | .lastRemove b => some ((s.removePages b).move t (.lastFree b))
  | .lastFree b => some ((s.setReaped b .freed).move t .lastNext)
  | .lastEnd =>
      if s.locked .list ∨ s.queue .list ≠ [] then some (s.move t .vanished)
      else some (s.move t .taskVanished)
  | _ => none

/-- **One event.** -/
def next (s : Lib) : Event → Option Lib
  | .create t =>
      if s.pc t = .user then some { s.move t .createLock with singleThreaded := false } else none
  | .join t tid =>
      if s.pc t = .user then
        if tid = t then some s
        else some { s.move t (.joinLock tid) with joiner := Function.update s.joiner tid (some t) }
      else none
  | .exit t v =>
      if s.pc t = .user then
        some { s.move t (if s.singleThreaded then .exitVanish else .exitLock v) with
          exited := Function.update s.exited t (some v) }
      else none
  | .probe t base =>
      if s.pc t = .createProbe ∧ (s.mapped base).isNone then
        some { s.move t (.createUnlock base) with
          mapped := Function.update s.mapped base (some (.creator t)) }
      else none
  | .fork t c =>
      match s.pc t with
      | .createFork base =>
          if 0 < c ∧ s.pc c = .absent then
            some { (s.move c .childLock).move t (.createInit base c) with
              stack := Function.update s.stack c (some base) }
          else if c < 0 then some (s.move t (.createInit base c))
          else none
      | _ => none
  | .go t =>
      match (s.pc t).op with
      | .code => s.code t
      | _ => (prog.step s.toSync t).map fun s' => { s with toSync := s' }
  | .reuse b content => if s.reaped b = .freed then some (s.store b content) else none

/-- The events as steps. -/
def Step (s : Lib) (e : Event) (s' : Lib) : Prop := s.next e = some s'

end Lib

end Pebbles.ThreadLib
