import Pebbles.Process.Scheduler

/-! # Life cycle calls

`sys_thread_fork`, `sys_set_status`, `sys_vanish` and `sys_wait` of
`kern/process/sys_life_cycle.c`, the control-block part of `sys_fork` (`kern/process/sys_fork.c`,
lines 100 to 158 and 234 to 242), and `process_create` with `thr_create`. The copy of the address
space inside `sys_fork` enters here only through its outcome. -/

namespace Pebbles

open DoublyLinked

namespace Kernel

/-! ## Creation -/

/-- `sys_thread_fork`. The thread list is copied by value into a local header, so the insertion
writes the links of the nodes but not the `tail` and `length` of the process. -/
def sysThreadFork (k : Kernel) : Kernel × Out :=
  let parent := k.currentPcb
  let child := k.nextTid
  let threads := (k.pcb parent).threads
  let k1 := { k with nextTid := k.nextTid + 1 }
  let k2 := k1.setTcb child
    { k1.tcb child with pcb := parent, state := .init, resume := .userMode }
  let r := listInsertLast k2.links threads (some (peerThreadsNode child))
  (({ k2 with links := r.1 }).insertRunnable (threadListNode child), Out.value child)

/-- How far a call of `sys_fork` gets. -/
inductive ForkOutcome where
  /-- A `malloc` or `find_free_entry` fails before anything is written. -/
  | early
  /-- The kernel stack cannot be allocated: the tid is used up. -/
  | stack
  /-- The page directory or the copy of the address space fails: the child is already in the
  parent's list of children. -/
  | late
  /-- The call succeeds. -/
  | ok
  deriving DecidableEq

/-- Steps 3 and 4 of `sys_fork`: the control blocks of the child `pid` with the thread `tid`. The
fields that are not written keep what the heap blocks held. -/
def forkBlocks (k : Kernel) : Kernel :=
  let parent := k.currentPcb
  let tid := k.nextTid
  let pid := k.nextPid
  let k1 := { k with nextTid := k.nextTid + 1 }
  let k2 := k1.setTcb tid { k1.tcb tid with pcb := pid, state := .init, resume := .userMode }
  let t := listInsertLast k2.links listInit (some (peerThreadsNode tid))
  let k3 := { k2 with links := t.1, nextPid := k2.nextPid + 1 }
  let k4 := k3.setPcb pid { k3.pcb pid with
    state := .running, parent := some parent, threads := t.2, children := listInit,
    childrenCount := 0 }
  let c := listInsertLast k4.links (k4.pcb parent).children (some (peerProcessesNode pid))
  ({ k4 with links := c.1 }).setPcb parent { k4.pcb parent with
    children := c.2, childrenCount := (k4.pcb parent).childrenCount + 1 }

/-- `sys_fork`. -/
def sysFork (k : Kernel) (outcome : ForkOutcome) : Kernel × Out :=
  match outcome with
  | .early => (k, Out.value (-1))
  | .stack => ({ k with nextTid := k.nextTid + 1 }, Out.value (-1))
  | .late => (k.forkBlocks, Out.value (-1))
  | .ok =>
      let k1 := k.forkBlocks
      let q := listInsertLast k1.links k1.processQueue (some (allProcessesNode k.nextPid))
      (({ k1 with links := q.1, processQueue := q.2 }).insertRunnable (threadListNode k.nextTid),
        Out.value k.nextPid)

/-- `sys_set_status`. -/
def sysSetStatus (k : Kernel) (status : Int) : Kernel :=
  k.setPcb k.currentPcb { k.pcb k.currentPcb with returnState := some status }

/-! ## Exit -/

/-- The number of threads in `chain` that have not exited. -/
def liveCount (k : Kernel) (chain : List Nat) : Nat :=
  chain.countP fun t => (k.tcb t).state ≠ .exit

/-- The loop of `sys_vanish` that reaps the peers of the last thread. `threads` is the local copy of
the list header; the two queues are handed the peer node, which is in neither of them. `n -> next`
is read from the block just freed, whose node the allocator has not overwritten. -/
def reapPeersFrom : Nat → Option NodePtr → Header NodePtr → Kernel → Kernel
  | 0, _, _, k => k
  | _ + 1, none, _, k => k
  | fuel + 1, some n, threads, k =>
      if listEntry n ≠ k.currentThread then
        let r := listDelete k.links threads (some n)
        let k1 := ({ k with links := r.1 }).deleteBlocked n
        let k2 := k1.deleteRunnable n
        let k3 := { k2 with freedTcb := listEntry n :: k2.freedTcb }
        reapPeersFrom fuel (k3.links n).next r.2.1 k3
      else reapPeersFrom fuel (k.links n).next threads k

/-- Reap every thread that the thread list of `p` leads to, except the current one. -/
def reapPeers (k : Kernel) (p : Nat) : Kernel :=
  reapPeersFrom k.bound (listBegin (k.pcb p).threads) (k.pcb p).threads k

/-- The search for the thread with tid 2 in `blocked_queue`, whatever its state is. -/
def wakeInit (k : Kernel) : Kernel :=
  match (k.members k.blockedQueue).find? fun t => t = 2 with
  | some t => k.wake t
  | none => k

/-- The search for a waiting thread in the thread list of the parent `p`. -/
def wakeWaiter (k : Kernel) (p : Nat) : Kernel :=
  match (k.members (k.pcb p).threads).find? fun t => (k.tcb t).state = .waiting with
  | some t => k.wake t
  | none => k

/-- The body of `if (live_count == 1)` in `sys_vanish`. Reading the state of a parent that was
freed has no meaning. -/
def exitProcess (k : Kernel) (p : Nat) : Option Kernel :=
  let k1 := k.reapPeers p
  let k2 := k1.setPcb p { k1.pcb p with state := .exit }
  let q := listDelete k2.links k2.processQueue (some (allProcessesNode p))
  let k3 := { k2 with links := q.1, processQueue := q.2.1 }
  match (k3.pcb p).parent with
  | none => some k3.wakeInit
  | some parent =>
      if parent ∈ k3.freedPcb then none
      else if (k3.pcb parent).state = .exit then some k3.wakeInit
      else some (k3.wakeWaiter parent)

/-- `sys_vanish` up to its call of `schedule`. -/
def vanishBody (k : Kernel) : Option Kernel :=
  let p := k.currentPcb
  let body := if k.liveCount (k.members (k.pcb p).threads) = 1 then k.exitProcess p else some k
  body.map fun k1 => k1.setState k1.currentThread .exit

/-- `sys_vanish`. -/
def sysVanish (k : Kernel) : Option (Kernel × Out) :=
  (k.vanishBody.bind fun k1 => k1.schedule (-1)).map fun k' => (k', Out.quiet)

/-! ## Wait -/

/-- `is_user_addr`. -/
def isUserAddr (addr : Nat) : Bool := addr ≠ 0 ∧ 0x01000000 ≤ addr

/-- The scan of the children list for a child that has exited. -/
def findZombie (k : Kernel) (p : Nat) : Option Nat :=
  (k.members (k.pcb p).children).find? fun c => (k.pcb c).state = .exit

/-- Reap the child `c` of `p`: unlink it, count it down, free its PCB, return its pid. -/
def reap (k : Kernel) (p c statusPtr : Nat) : Kernel × Out :=
  let r := listDelete k.links (k.pcb p).children (some (peerProcessesNode c))
  let k1 := ({ k with links := r.1 }).setPcb p { k.pcb p with
    children := r.2.1, childrenCount := (k.pcb p).childrenCount - 1 }
  ({ k1 with freedPcb := c :: k1.freedPcb },
    ⟨some c, if statusPtr ≠ 0 then some (statusPtr, (k.pcb c).returnState) else none⟩)

/-- `sys_wait` up to its call of `schedule`. -/
def sysWait (k : Kernel) (statusPtr : Nat) : Option (Kernel × Out) :=
  let p := k.currentPcb
  if statusPtr ≠ 0 ∧ isUserAddr statusPtr = false then some (k, Out.value (-1))
  else if (k.pcb p).childrenCount = 0 then some (k, Out.value (-1))
  else
    match k.findZombie p with
    | some c => some (k.reap p c statusPtr)
    | none =>
        let t := k.currentThread
        let k1 := k.setTcb t { k.tcb t with state := .waiting, resume := .wait statusPtr }
        (k1.schedule (-1)).map fun k' => (k', Out.quiet)

/-- The rest of `sys_wait` after its call of `schedule`: one more scan. -/
def resumeWait (k : Kernel) (statusPtr : Nat) : Kernel × Out :=
  let p := k.currentPcb
  let k1 := k.setTcb k.currentThread { k.tcb k.currentThread with resume := .userMode }
  match k1.findZombie p with
  | some c => k1.reap p c statusPtr
  | none => (k1, Out.value (-1))

/-! ## Boot -/

/-- `thr_create`: a thread of process `p`, run at once or put on `runnable_queue`. In the source the
caller sets the `pcb` field. -/
def thrCreate (k : Kernel) (p : Nat) (run : Bool) : Kernel :=
  let t := k.nextTid
  let k1 := { k with nextTid := k.nextTid + 1 }
  let k2 := k1.setTcb t { k1.tcb t with pcb := p, state := .running, resume := .userMode }
  if run then k2 else (k2.insertRunnable (threadListNode t)).setState t .init

/-- `process_create`: a process with a single thread, which becomes the current one if `run`. -/
def processCreate (k : Kernel) (run : Bool) : Kernel :=
  let p := k.nextPid
  let t := k.nextTid
  let k1 := { k with nextPid := k.nextPid + 1 }
  let k2 := k1.setPcb p ⟨.runnable, some 0, none, listInit, listInit, 0⟩
  let q := listInsertLast k2.links k2.processQueue (some (allProcessesNode p))
  let k3 := ({ k2 with links := q.1, processQueue := q.2 }).thrCreate p run
  let r := listInsertLast k3.links (k3.pcb p).threads (some (peerThreadsNode t))
  let k4 := ({ k3 with links := r.1 }).setPcb p { k3.pcb p with threads := r.2 }
  if run then { k4 with currentThread := t } else k4

/-- The state after `process_init` and `thr_init`, with no block allocated yet. -/
def initial : Kernel where
  tcb _ := ⟨0, .init, 0, 0, .userMode⟩
  pcb _ := ⟨.running, none, none, listInit, listInit, 0⟩
  links _ := ⟨none, none⟩
  runnableQueue := listInit
  blockedQueue := listInit
  processQueue := listInit
  currentThread := 0
  nextTid := 1
  nextPid := 1
  numTicks := 0
  freedTcb := []
  freedPcb := []

/-- The state in which `kernel_main` leaves the kernel: `idle` (pid 1, tid 1) is runnable and `init`
(pid 2, tid 2) runs. -/
def boot : Kernel := (initial.processCreate false).processCreate true

/-! ## The kernel as a transition system -/

end Kernel

/-- The system calls, with what the kernel reads of their arguments. -/
inductive SysCall where
  /-- `yield`. -/
  | yield (tid : Int)
  /-- `sleep`. -/
  | sleep (ticks : Int)
  /-- `deschedule`, with whether the pointer is mapped and the word it points to. -/
  | deschedule (mapped : Bool) (reject : Int)
  /-- `make_runnable`. -/
  | makeRunnable (tid : Int)
  /-- `readline`, with whether the buffer is mapped. -/
  | readline (len : Int) (mapped : Bool)
  /-- `thread_fork`. -/
  | threadFork
  /-- `fork`, with how far it gets. -/
  | fork (outcome : Kernel.ForkOutcome)
  /-- `set_status`. -/
  | setStatus (status : Int)
  /-- `vanish`. -/
  | vanish
  /-- `wait`. -/
  | wait (statusPtr : Nat)
  deriving DecidableEq

/-- What happens next. -/
inductive Event where
  /-- A timer interrupt. -/
  | timer
  /-- A call of `schedule(-1)` at any moment. -/
  | reschedule
  /-- A newline key. -/
  | newline
  /-- The current thread goes on inside `sys_wait`. -/
  | resume
  /-- The current thread, in user mode, makes a system call. -/
  | call (c : SysCall)
  deriving DecidableEq

namespace Kernel

/-- One system call of the current thread, up to its return or to its call of `schedule`. -/
def call (k : Kernel) : SysCall → Option (Kernel × Out)
  | .yield tid => k.sysYield tid
  | .sleep ticks => k.sysSleep ticks
  | .deschedule mapped reject => k.sysDeschedule mapped reject
  | .makeRunnable tid => some (k.sysMakeRunnable tid)
  | .readline len mapped => k.sysReadline len mapped
  | .threadFork => some k.sysThreadFork
  | .fork outcome => some (k.sysFork outcome)
  | .setStatus status => some (k.sysSetStatus status, Out.quiet)
  | .vanish => k.sysVanish
  | .wait statusPtr => k.sysWait statusPtr

/-- The current thread can make a system call: it is in user mode, it is not `idle`, which makes
none, and its control blocks exist. -/
def inUser (k : Kernel) : Prop :=
  (k.tcb k.currentThread).resume = .userMode ∧ k.currentThread ≠ 1 ∧ k.alive

instance (k : Kernel) : Decidable k.inUser := inferInstanceAs (Decidable (_ ∧ _ ∧ _))

/-- **One step**: an interrupt, or the code of the current thread up to its next call of
`schedule` or its return to user mode. -/
def step (k : Kernel) : Event → Option (Kernel × Out)
  | .timer => k.timerHandler.map fun k' => (k', Out.quiet)
  | .reschedule => (k.schedule (-1)).map fun k' => (k', Out.quiet)
  | .newline => some (k.keyboardNewline, Out.quiet)
  | .resume =>
      match (k.tcb k.currentThread).resume with
      | .userMode => none
      | .wait statusPtr => if k.alive then some (k.resumeWait statusPtr) else none
  | .call c => if k.inUser then k.call c else none

end Kernel

end Pebbles
