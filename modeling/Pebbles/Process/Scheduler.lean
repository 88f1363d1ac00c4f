import Pebbles.Process.ControlBlock
import Mathlib.Algebra.Group.Nat.Defs

/-! # The scheduler

`schedule` of `kern/process/scheduler.c`, the timer and keyboard interrupts, and the thread
management calls of `kern/thread/sys_thread_management.c` and `sys_readline`, each up to the call of
`schedule` in it. A function that calls `schedule` has no result (`none`) where `schedule` would go
on with the `NULL` that an empty queue or a failed search gives it. -/

namespace Pebbles

open DoublyLinked

namespace Kernel

/-- The wake-up test of `schedule`, on 32-bit unsigned numbers. -/
def sleepOver (k : Kernel) (t : Nat) : Bool :=
  (k.tcb t).state = .sleeping ∧
    ((k.tcb t).startTicks + (k.tcb t).duration) % 2 ^ 32 < k.numTicks

/-- The loop at the start of `schedule`. It steps on with `n = n -> next`, read from the node that
may just have been moved to the other queue. -/
def wakeSleepersFrom : Nat → Option NodePtr → Kernel → Kernel
  | 0, _, k => k
  | _ + 1, none, k => k
  | fuel + 1, some n, k =>
      let k' := if k.sleepOver (listEntry n) then k.wake (listEntry n) else k
      wakeSleepersFrom fuel (k'.links n).next k'

/-- The loop over `blocked_queue`. -/
def wakeSleepers (k : Kernel) : Kernel :=
  wakeSleepersFrom k.bound (listBegin k.blockedQueue) k

/-- `list_search_tid(&runnable_queue, tid)`. -/
def listSearchTid (k : Kernel) (tid : Int) : Option Nat :=
  (k.members k.runnableQueue).find? fun t : Nat => (t : Int) = tid

/-- Choose the next thread and take it off `runnable_queue`. -/
def takeNext (k : Kernel) (tid : Int) : Option (Nat × Kernel) :=
  if tid = -1 then
    let r := listDeleteFirst k.links k.runnableQueue
    r.2.2.map fun n => (listEntry n, { k with links := r.1, runnableQueue := r.2.1 })
  else
    (k.listSearchTid tid).map fun t => (t, k.deleteRunnable (threadListNode t))

/-- The `switch` on the state of the current thread. -/
def putBack (k : Kernel) : Kernel :=
  match (k.tcb k.currentThread).state with
  | .exit => k
  | .blocked | .waiting | .readline | .sleeping =>
      k.insertBlocked (threadListNode k.currentThread)
  | .running | .runnable | .init => k.insertRunnable (threadListNode k.currentThread)

/-- `context_switch`; a thread that runs for the first time goes through `prepare_init_thread`. -/
def switchTo (k : Kernel) (next : Nat) : Kernel :=
  let k' := if (k.tcb next).state = .init then k.setState next .running else k
  { k' with currentThread := next }

/-- **`schedule(tid)`**, with `-1` for the first runnable thread. -/
def schedule (k : Kernel) (tid : Int) : Option Kernel :=
  let k1 := k.wakeSleepers
  if k1.currentThread = 1 ∧ k1.runnableQueue.length = 0 then some k1
  else (k1.takeNext tid).map fun r => r.2.putBack.switchTo r.1

/-! ## Interrupts -/

/-- `SCHEDULE_INTERVAL`. -/
def scheduleInterval : Nat := 30

/-- `timer_handler` with the callback `tick`. -/
def timerHandler (k : Kernel) : Option Kernel :=
  let k1 := { k with numTicks := (k.numTicks + 1) % 2 ^ 32 }
  if k1.numTicks % scheduleInterval = 0 then k1.schedule (-1) else some k1

/-- The loop of `keyboard_handler` when the key is a newline: the first thread of
`blocked_queue` that is inside `readline` is woken. -/
def keyboardNewline (k : Kernel) : Kernel :=
  match (k.members k.blockedQueue).find? fun t => (k.tcb t).state = .readline with
  | some t => k.wake t
  | none => k

/-! ## Thread management calls -/

/-- `sys_yield`. -/
def sysYield (k : Kernel) (tid : Int) : Option (Kernel × Out) :=
  if tid < -1 then some (k, Out.value (-1))
  else if tid = -1 then (k.schedule (-1)).map fun k' => (k', Out.quiet)
  else if (k.members k.blockedQueue).any fun t : Nat => (t : Int) = tid then some (k, Out.value (-1))
  else if (k.currentThread : Int) = tid then some (k, Out.value (-1))
  else if (k.members k.runnableQueue).any fun t : Nat => (t : Int) = tid then
    (k.schedule tid).map fun k' => (k', Out.quiet)
  else some (k, Out.value (-1))

/-- `sys_sleep`. -/
def sysSleep (k : Kernel) (ticks : Int) : Option (Kernel × Out) :=
  if ticks < 0 then some (k, Out.value (-1))
  else if ticks = 0 then some (k, Out.value 0)
  else
    let t := k.currentThread
    let k1 := k.setTcb t
      { k.tcb t with duration := ticks.toNat, startTicks := k.numTicks, state := .sleeping }
    (k1.schedule (-1)).map fun k' => (k', Out.quiet)

/-- `sys_deschedule`, given whether `reject` is a mapped user address and what it points to. -/
def sysDeschedule (k : Kernel) (mapped : Bool) (reject : Int) : Option (Kernel × Out) :=
  if mapped = false then some (k, Out.value (-1))
  else if reject ≠ 0 then some (k, Out.value 0)
  else ((k.setState k.currentThread .blocked).schedule (-1)).map fun k' => (k', Out.quiet)

/-- `sys_make_runnable`. -/
def sysMakeRunnable (k : Kernel) (tid : Int) : Kernel × Out :=
  if tid ≤ 0 then (k, Out.value (-1))
  else if (k.members k.runnableQueue).any fun t : Nat => (t : Int) = tid ∧ (k.tcb t).state = .runnable then
    (k, Out.value (-1))
  else
    match (k.members k.blockedQueue).find? fun t : Nat =>
        (t : Int) = tid ∧ (k.tcb t).state = .blocked with
    | some t => (k.wake t, Out.value 0)
    | none => (k, Out.value (-1))

/-- `MAX_READ_LEN`. -/
def maxReadLen : Int := 4096

/-- `sys_readline` up to its call of `schedule`, given whether `buf` is a mapped user address. -/
def sysReadline (k : Kernel) (len : Int) (mapped : Bool) : Option (Kernel × Out) :=
  if mapped = false then some (k, Out.value (-1))
  else if len > maxReadLen then some (k, Out.value (-1))
  else ((k.setState k.currentThread .readline).schedule (-1)).map fun k' => (k', Out.quiet)

end Kernel

end Pebbles
