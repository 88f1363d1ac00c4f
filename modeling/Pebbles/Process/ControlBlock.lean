import Pebbles.DataStructure.LinkedList

/-! # Control blocks and the kernel state

The structures of `kern/inc/control_block.h`. A pointer to a PCB or a TCB is modelled by the pid or
the tid of the block, since `next_pid` and `next_tid` never give a number twice; the nodes that are
embedded in the blocks are named by their field and their block, so `list_entry` is a projection.

`free` only records the block: a freed block keeps its last contents. Where the kernel goes on to
use the control blocks of a freed thread or process the model stops instead (`Kernel.alive` and
the parent test of `sysVanish`), since C gives such a step no meaning. -/

namespace Pebbles

open DoublyLinked

/-! ## The data -/

/-- The states of a thread (`THREAD_EXIT` and so on). -/
inductive ThreadState where
  /-- Exited by `vanish`. -/
  | exit
  /-- Put aside by `deschedule`. -/
  | blocked
  /-- Set when the thread is first run. -/
  | running
  /-- Set when the thread is woken. -/
  | runnable
  /-- Inside `wait`, no child having exited. -/
  | waiting
  /-- Put aside by `sleep`. -/
  | sleeping
  /-- Created, never run. -/
  | init
  /-- Inside `readline`. -/
  | readline
  deriving DecidableEq

/-- The states of a process that the kernel assigns. -/
inductive ProcessState where
  /-- `PROCESS_EXIT`: waiting to be reaped. -/
  | exit
  /-- `PROCESS_RUNNING`: made by `fork`. -/
  | running
  /-- `PROCESS_RUNNABLE`: made by `process_create`. -/
  | runnable
  deriving DecidableEq

/-- The list nodes embedded in the control blocks. -/
inductive NodeField where
  /-- `TCB.peer_threads_node`. -/
  | peerThreads
  /-- `TCB.thread_list_node`. -/
  | threadList
  /-- `PCB.peer_processes_node`. -/
  | peerProcesses
  /-- `PCB.all_processes_node`. -/
  | allProcesses
  deriving DecidableEq

/-- The address of a list node: which field of which block. -/
structure NodePtr where
  /-- The field. -/
  field : NodeField
  /-- The tid or pid of the block. -/
  owner : Nat
  deriving DecidableEq

/-- `list_entry`: the block a node is embedded in. -/
def listEntry (n : NodePtr) : Nat := n.owner

/-- `&tcb->peer_threads_node`. -/
def peerThreadsNode (tid : Nat) : NodePtr := ⟨.peerThreads, tid⟩

/-- `&tcb->thread_list_node`. -/
def threadListNode (tid : Nat) : NodePtr := ⟨.threadList, tid⟩

/-- `&pcb->peer_processes_node`. -/
def peerProcessesNode (pid : Nat) : NodePtr := ⟨.peerProcesses, pid⟩

/-- `&pcb->all_processes_node`. -/
def allProcessesNode (pid : Nat) : NodePtr := ⟨.allProcesses, pid⟩

/-- Where a thread goes on when it is switched to: what its kernel stack holds. -/
inductive Resume where
  /-- At the end of a system call or of the timer handler, hence back in user mode. -/
  | userMode
  /-- After the call of `schedule` in `sys_wait(status_ptr)`. -/
  | wait (statusPtr : Nat)
  deriving DecidableEq

/-- A thread control block. -/
structure TCB where
  /-- The process of the thread. -/
  pcb : Nat
  /-- The state of the thread. -/
  state : ThreadState
  /-- When the thread went to sleep. -/
  startTicks : Nat
  /-- How long it sleeps. -/
  duration : Nat
  /-- Where it goes on. -/
  resume : Resume

/-- A process control block. -/
structure PCB where
  /-- The state of the process. -/
  state : ProcessState
  /-- The status of `set_status`; `none` where nothing was written to it yet. -/
  returnState : Option Int
  /-- The process that forked it. -/
  parent : Option Nat
  /-- The list of its threads. -/
  threads : Header NodePtr
  /-- The list of its children. -/
  children : Header NodePtr
  /-- The separate count of its children. -/
  childrenCount : Int

/-- **The kernel state**: the control blocks, the links of their nodes, the queues and the counters.
All mutexes are uncontended, so none of them appears. -/
structure Kernel where
  /-- The thread control blocks. -/
  tcb : Nat → TCB
  /-- The process control blocks. -/
  pcb : Nat → PCB
  /-- The links of all embedded nodes. -/
  links : Links NodePtr
  /-- `runnable_queue`. -/
  runnableQueue : Header NodePtr
  /-- `blocked_queue`. -/
  blockedQueue : Header NodePtr
  /-- `process_queue`. -/
  processQueue : Header NodePtr
  /-- `current_thread`. -/
  currentThread : Nat
  /-- `next_tid`. -/
  nextTid : Nat
  /-- `next_pid`. -/
  nextPid : Nat
  /-- `numTicks`, an `unsigned int`. -/
  numTicks : Nat
  /-- The TCBs passed to `free`. -/
  freedTcb : List Nat
  /-- The PCBs passed to `free`. -/
  freedPcb : List Nat

/-- What a segment of kernel code hands to user mode. -/
structure Out where
  /-- The return value, when a system call returns. -/
  ret : Option Int
  /-- The address and the value written through a status pointer. -/
  store : Option (Nat × Option Int)
  deriving DecidableEq

/-- Nothing is handed to user mode: an interrupt, or a call that has not returned yet. -/
def Out.quiet : Out := ⟨none, none⟩

/-- A system call returns `v`. -/
def Out.value (v : Int) : Out := ⟨some v, none⟩

/-! ## Small steps on the state -/

namespace Kernel

/-- Rewrite the TCB of `t`. -/
def setTcb (k : Kernel) (t : Nat) (b : TCB) : Kernel :=
  { k with tcb := Function.update k.tcb t b }

/-- Rewrite the PCB of `p`. -/
def setPcb (k : Kernel) (p : Nat) (b : PCB) : Kernel :=
  { k with pcb := Function.update k.pcb p b }

/-- Assign the state of thread `t`. -/
def setState (k : Kernel) (t : Nat) (st : ThreadState) : Kernel :=
  k.setTcb t { k.tcb t with state := st }

/-- `list_insert_last(&runnable_queue, n)`. -/
def insertRunnable (k : Kernel) (n : NodePtr) : Kernel :=
  let r := listInsertLast k.links k.runnableQueue (some n)
  { k with links := r.1, runnableQueue := r.2 }

/-- `list_insert_last(&blocked_queue, n)`. -/
def insertBlocked (k : Kernel) (n : NodePtr) : Kernel :=
  let r := listInsertLast k.links k.blockedQueue (some n)
  { k with links := r.1, blockedQueue := r.2 }

/-- `list_delete(&runnable_queue, n)`. -/
def deleteRunnable (k : Kernel) (n : NodePtr) : Kernel :=
  let r := listDelete k.links k.runnableQueue (some n)
  { k with links := r.1, runnableQueue := r.2.1 }

/-- `list_delete(&blocked_queue, n)`. -/
def deleteBlocked (k : Kernel) (n : NodePtr) : Kernel :=
  let r := listDelete k.links k.blockedQueue (some n)
  { k with links := r.1, blockedQueue := r.2.1 }

/-- Make a blocked thread runnable and move it from the one queue to the end of the other, as
`schedule`, `sys_make_runnable`, `sys_vanish` and `keyboard_handler` do. -/
def wake (k : Kernel) (t : Nat) : Kernel :=
  ((k.setState t .runnable).deleteBlocked (threadListNode t)).insertRunnable (threadListNode t)

/-- A bound on the length of every list of the kernel. -/
def bound (k : Kernel) : Nat := k.nextTid + k.nextPid

/-- The blocks met by a loop `for (n = list_begin(l); n != NULL; n = n -> next)`. -/
def members (k : Kernel) (l : Header NodePtr) : List Nat :=
  (walk k.links k.bound (listBegin l)).map listEntry

/-- The PCB of the current thread. -/
def currentPcb (k : Kernel) : Nat := (k.tcb k.currentThread).pcb

/-- The control blocks of the current thread are still allocated. -/
def alive (k : Kernel) : Prop :=
  k.currentThread ∉ k.freedTcb ∧ k.currentPcb ∉ k.freedPcb

instance (k : Kernel) : Decidable k.alive := inferInstanceAs (Decidable (_ ∧ _))

end Kernel

end Pebbles
