import Pebbles.Library.Runs
import Mathlib.Data.List.Nodup
import Mathlib.Tactic.Common

/-! # Condition variables of the thread library

The statements of `cond_wait`, `cond_signal` and `cond_broadcast` of `user/libthread/cond_var.c`, on
any number of condition variables and mutexes, interleaved in any way. `deschedule` and
`make_runnable` are the kernel's: a thread in `deschedule` goes on when `make_runnable` names it,
and `make_runnable` fails on any other thread. -/

namespace Pebbles

/-! ## The data -/

/-- A node of a wait list. `make_node` allocates a new one for each wait; the ticket tells them
apart, in the order of their making. -/
structure CvNode (ι : Type*) where
  /-- The waiting thread. -/
  tid : ι
  /-- The number of nodes made before. -/
  ticket : Nat
  deriving DecidableEq

/-- **The statement a thread executes next.** `κ` are the condition variables, `μ` the mutexes. -/
inductive CvPc (ι κ μ : Type*) where
  /-- Outside the three functions. -/
  | user
  /-- `cond_wait`: the tests of the status fields. -/
  | waitTest (cv : κ) (mp : μ)
  /-- `spinlock_lock(&cv -> lock)`. -/
  | waitLock (cv : κ) (mp : μ)
  /-- `mutex_unlock(mp)`. -/
  | waitUnlockMutex (cv : κ) (mp : μ)
  /-- `list_insert_last(&cv -> wait_list, make_node(NULL, tid))`. -/
  | waitInsert (cv : κ) (mp : μ)
  /-- `spinlock_unlock(&cv -> lock)`. -/
  | waitUnlock (cv : κ) (mp : μ)
  /-- `deschedule(&reject)`. -/
  | waitDeschedule (cv : κ) (mp : μ)
  /-- Inside `deschedule`. -/
  | asleep (cv : κ) (mp : μ)
  /-- `mutex_lock(mp)`. -/
  | waitRelock (cv : κ) (mp : μ)
  /-- `cond_signal`: the test of the status field. -/
  | signalTest (cv : κ)
  /-- `spinlock_lock(&cv -> lock)`. -/
  | signalLock (cv : κ)
  /-- `curr_node = list_delete_first(&cv -> wait_list)` and the test for `NULL`. -/
  | signalDelete (cv : κ)
  /-- `make_runnable(curr_node -> tid)`. -/
  | signalWake (cv : κ) (target : ι)
  /-- `yield(-1)`. -/
  | signalYield (cv : κ) (target : ι)
  /-- `spinlock_unlock(&cv -> lock)`. -/
  | signalUnlock (cv : κ)
  /-- `cond_broadcast`: the test of the status field. -/
  | castTest (cv : κ)
  /-- `spinlock_lock(&cv -> lock)`. -/
  | castLock (cv : κ)
  /-- `cv -> wait_list.length != 0`. -/
  | castLength (cv : κ)
  /-- `curr_node = list_delete_first(&cv -> wait_list)` and the test for `NULL`. -/
  | castDelete (cv : κ)
  /-- `make_runnable(curr_node -> tid)`. -/
  | castWake (cv : κ) (target : ι)
  /-- `yield(-1)`. -/
  | castYield (cv : κ) (target : ι)
  /-- `spinlock_unlock(&cv -> lock)`. -/
  | castUnlock (cv : κ)

/-- **The state.** The last four fields record what has happened; no statement reads them. -/
structure CvState (ι κ μ : Type*) where
  /-- What each thread executes next. -/
  pc : ι → CvPc ι κ μ
  /-- `cv -> status` is `CVAR_AVAILABLE`. -/
  available : κ → Bool
  /-- `cv -> lock` is taken. -/
  spin : κ → Bool
  /-- `cv -> wait_list`. -/
  waitList : κ → List (CvNode ι)
  /-- `mp -> status` is not `MUTEX_UNAVAILABLE`. -/
  usable : μ → Bool
  /-- `mp -> lock` is taken. -/
  locked : μ → Bool
  /-- The nodes made so far. -/
  made : Nat
  /-- The wait list at the time when the thread last took the lock in a signal or broadcast. -/
  found : ι → List (CvNode ι)
  /-- The threads it has unblocked since. -/
  unblocked : ι → List ι
  /-- The thread was dequeued since it last released its mutex in `cond_wait`. -/
  dequeued : ι → Bool

/-- What happens next. -/
inductive CvMove (ι κ μ : Type*) where
  /-- The thread calls `cond_wait`. -/
  | wait (u : ι) (cv : κ) (mp : μ)
  /-- The thread calls `cond_signal`. -/
  | signal (u : ι) (cv : κ)
  /-- The thread calls `cond_broadcast`. -/
  | broadcast (u : ι) (cv : κ)
  /-- The thread, outside the three functions, calls `mutex_lock`. -/
  | lock (u : ι) (mp : μ)
  /-- The thread, outside the three functions, calls `mutex_unlock`. -/
  | unlock (u : ι) (mp : μ)
  /-- The thread executes its next statement. -/
  | go (u : ι)

/-! ## The statements -/

namespace CvState

variable {ι κ μ : Type*} [DecidableEq ι] [DecidableEq κ] [DecidableEq μ]

/-- Go on at `q`. -/
def goto (s : CvState ι κ μ) (u : ι) (q : CvPc ι κ μ) : CvState ι κ μ :=
  { s with pc := Function.update s.pc u q }

/-- Write `cv -> lock`. -/
def setSpin (s : CvState ι κ μ) (cv : κ) (b : Bool) : CvState ι κ μ :=
  { s with spin := Function.update s.spin cv b }

/-- `mutex_lock`, when the lock is free. -/
def mutexLock (s : CvState ι κ μ) (mp : μ) : Option (CvState ι κ μ) :=
  if s.usable mp = false then some s
  else if s.locked mp then none
  else some { s with locked := Function.update s.locked mp true }

/-- `mutex_unlock`. -/
def mutexUnlock (s : CvState ι κ μ) (mp : μ) : CvState ι κ μ :=
  if s.usable mp = false then s else { s with locked := Function.update s.locked mp false }

/-- Take `cv -> lock` in a signal or a broadcast, when it is free. -/
def takeSpin (s : CvState ι κ μ) (u : ι) (cv : κ) (q : CvPc ι κ μ) : Option (CvState ι κ μ) :=
  if s.spin cv then none
  else some ({ s.setSpin cv true with
    found := Function.update s.found u (s.waitList cv),
    unblocked := Function.update s.unblocked u [] }.goto u q)

/-- `list_insert_last(&cv -> wait_list, make_node(NULL, u))`. -/
def insert (s : CvState ι κ μ) (u : ι) (cv : κ) : CvState ι κ μ :=
  { s with waitList := Function.update s.waitList cv (s.waitList cv ++ [⟨u, s.made⟩]),
           made := s.made + 1 }

/-- The node `n` is taken off the list of `cv`, which leaves `rest`. -/
def takeOff (s : CvState ι κ μ) (cv : κ) (n : CvNode ι) (rest : List (CvNode ι)) : CvState ι κ μ :=
  { s with waitList := Function.update s.waitList cv rest,
           dequeued := Function.update s.dequeued n.tid true }

/-- `list_delete_first(&cv -> wait_list)`: go on at `found` with the thread of the node, or at
`empty`. -/
def deleteFirst (s : CvState ι κ μ) (u : ι) (cv : κ) (found : ι → CvPc ι κ μ) (empty : CvPc ι κ μ) :
    CvState ι κ μ :=
  match s.waitList cv with
  | [] => s.goto u empty
  | n :: rest => (s.takeOff cv n rest).goto u (found n.tid)

/-- The thread `x` comes out of `deschedule`, called by `make_runnable` of `u`. -/
def unblock (s : CvState ι κ μ) (u x : ι) (q : CvPc ι κ μ) : CvState ι κ μ :=
  { s.goto x q with unblocked := Function.update s.unblocked u (s.unblocked u ++ [x]) }

/-- `make_runnable(x)`: go on at `done`, or at `again` when it fails. -/
def makeRunnable (s : CvState ι κ μ) (u x : ι) (done again : CvPc ι κ μ) : CvState ι κ μ :=
  match s.pc x with
  | .asleep cv mp => (s.unblock u x (.waitRelock cv mp)).goto u done
  | _ => s.goto u again

/-- **The next statement** of the thread `u`. A taken lock is spun on, which changes nothing. -/
def go (s : CvState ι κ μ) (u : ι) : Option (CvState ι κ μ) :=
  match s.pc u with
  | .user => none
  | .waitTest cv mp =>
      some (s.goto u (if s.available cv = false ∨ s.usable mp = false then .user
        else .waitLock cv mp))
  | .waitLock cv mp =>
      if s.spin cv then none else some ((s.setSpin cv true).goto u (.waitUnlockMutex cv mp))
  | .waitUnlockMutex cv mp =>
      some ({ s.mutexUnlock mp with
        dequeued := Function.update s.dequeued u false }.goto u (.waitInsert cv mp))
  | .waitInsert cv mp => some ((s.insert u cv).goto u (.waitUnlock cv mp))
  | .waitUnlock cv mp => some ((s.setSpin cv false).goto u (.waitDeschedule cv mp))
  | .waitDeschedule cv mp => some (s.goto u (.asleep cv mp))
  | .asleep _ _ => none
  | .waitRelock _ mp => (s.mutexLock mp).map fun s' => s'.goto u .user
  | .signalTest cv =>
      some (s.goto u (if s.available cv = false then .user else .signalLock cv))
  | .signalLock cv => s.takeSpin u cv (.signalDelete cv)
  | .signalDelete cv => some (s.deleteFirst u cv (.signalWake cv) (.signalUnlock cv))
  | .signalWake cv x => some (s.makeRunnable u x (.signalUnlock cv) (.signalYield cv x))
  | .signalYield cv x => some (s.goto u (.signalWake cv x))
  | .signalUnlock cv => some ((s.setSpin cv false).goto u .user)
  | .castTest cv => some (s.goto u (if s.available cv = false then .user else .castLock cv))
  | .castLock cv => s.takeSpin u cv (.castLength cv)
  | .castLength cv =>
      some (s.goto u (if (s.waitList cv).length ≠ 0 then .castDelete cv else .castUnlock cv))
  | .castDelete cv => some (s.deleteFirst u cv (.castWake cv) (.castLength cv))
  | .castWake cv x => some (s.makeRunnable u x (.castLength cv) (.castYield cv x))
  | .castYield cv x => some (s.goto u (.castWake cv x))
  | .castUnlock cv => some ((s.setSpin cv false).goto u .user)

/-- **One step.** -/
def step (s : CvState ι κ μ) : CvMove ι κ μ → Option (CvState ι κ μ)
  | .wait u cv mp => match s.pc u with
      | .user => some (s.goto u (.waitTest cv mp))
      | _ => none
  | .signal u cv => match s.pc u with
      | .user => some (s.goto u (.signalTest cv))
      | _ => none
  | .broadcast u cv => match s.pc u with
      | .user => some (s.goto u (.castTest cv))
      | _ => none
  | .lock u mp => match s.pc u with
      | .user => s.mutexLock mp
      | _ => none
  | .unlock u mp => match s.pc u with
      | .user => some (s.mutexUnlock mp)
      | _ => none
  | .go u => s.go u

/-- The steps as a relation. -/
def Step (s : CvState ι κ μ) (m : CvMove ι κ μ) (s' : CvState ι κ μ) : Prop := s.step m = some s'

/-- After `cond_init` of every condition variable, with the mutexes in any state. -/
def start (available : κ → Bool) (usable locked : μ → Bool) : CvState ι κ μ where
  pc _ := .user
  available := available
  spin _ := false
  waitList _ := []
  usable := usable
  locked := locked
  made := 0
  found _ := []
  unblocked _ := []
  dequeued _ := false

end CvState

end Pebbles
