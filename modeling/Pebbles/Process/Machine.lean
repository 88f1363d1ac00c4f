import Pebbles.Process.LifeCycle

/-! # The abstract machine

What the scheduler and the life cycle calls do, with the pointers gone: the two queues and the
families are sequences of tids and pids. A process keeps a `chain`, the threads that its thread
list leads to, and the sequence of its `children`. Each operation has the name of the kernel
operation it stands for; `Refinement` connects the two. -/

namespace Pebbles

/-! ## The data -/

/-- A process of the abstract machine. -/
structure Proc where
  /-- The state of the process. -/
  state : ProcessState
  /-- The status it reports. -/
  returnState : Option Int
  /-- The process that forked it. -/
  parent : Option Nat
  /-- The threads that its thread list leads to. -/
  chain : List Nat
  /-- The children that are not reaped, oldest first. -/
  children : List Nat
  /-- The separate count of the children. -/
  childrenCount : Int

/-- **The abstract machine**: control blocks, queues as sequences, counters. -/
structure Machine where
  /-- The thread control blocks. -/
  tcb : Nat → TCB
  /-- The processes. -/
  proc : Nat → Proc
  /-- The runnable threads, in the order of the queue. -/
  run : List Nat
  /-- The blocked threads, in the order of the queue. -/
  blk : List Nat
  /-- The running thread. -/
  current : Nat
  /-- The next tid. -/
  nextTid : Nat
  /-- The next pid. -/
  nextPid : Nat
  /-- The ticks so far. -/
  numTicks : Nat
  /-- The freed threads. -/
  freedTcb : List Nat
  /-- The freed processes. -/
  freedPcb : List Nat

/-- Ready to run, or running. -/
def ThreadState.ready : ThreadState → Bool
  | .running | .runnable | .init => true
  | _ => false

/-- The states of a thread in the blocked queue. -/
def ThreadState.suspended : ThreadState → Bool
  | .blocked | .waiting | .sleeping | .readline => true
  | _ => false

namespace Machine

/-- Rewrite the TCB of `t`. -/
def setTcb (m : Machine) (t : Nat) (b : TCB) : Machine :=
  { m with tcb := Function.update m.tcb t b }

/-- Rewrite the process `p`. -/
def setProc (m : Machine) (p : Nat) (b : Proc) : Machine :=
  { m with proc := Function.update m.proc p b }

/-- Assign the state of thread `t`. -/
def setState (m : Machine) (t : Nat) (st : ThreadState) : Machine :=
  m.setTcb t { m.tcb t with state := st }

/-- Move the blocked thread `t` to the end of the runnable ones. -/
def wake (m : Machine) (t : Nat) : Machine :=
  { m.setState t .runnable with blk := m.blk.erase t, run := m.run ++ [t] }

/-- The process of the current thread. -/
def currentPcb (m : Machine) : Nat := (m.tcb m.current).pcb

/-- The control blocks of the current thread are still allocated. -/
def alive (m : Machine) : Prop := m.current ∉ m.freedTcb ∧ m.currentPcb ∉ m.freedPcb

instance (m : Machine) : Decidable m.alive := inferInstanceAs (Decidable (_ ∧ _))

/-- The current thread can make a system call. -/
def inUser (m : Machine) : Prop :=
  (m.tcb m.current).resume = .userMode ∧ m.current ≠ 1 ∧ m.alive

instance (m : Machine) : Decidable m.inUser := inferInstanceAs (Decidable (_ ∧ _ ∧ _))

/-! ## Scheduling -/

/-- The wake-up test of a sleeper. -/
def sleepOver (m : Machine) (t : Nat) : Bool :=
  (m.tcb t).state = .sleeping ∧
    ((m.tcb t).startTicks + (m.tcb t).duration) % 2 ^ 32 < m.numTicks

/-- A call of `schedule` wakes at most one sleeper: the loop ends with the first node it moves. -/
def wakeSleepers (m : Machine) : Machine :=
  match m.blk.find? m.sleepOver with
  | some t => m.wake t
  | none => m

/-- Choose the next thread. -/
def takeNext (m : Machine) (tid : Int) : Option (Nat × Machine) :=
  if tid = -1 then m.run.head?.map fun t => (t, { m with run := m.run.tail })
  else (m.run.find? fun t : Nat => (t : Int) = tid).map fun t => (t, { m with run := m.run.erase t })

/-- Put the current thread back. -/
def putBack (m : Machine) : Machine :=
  match (m.tcb m.current).state with
  | .exit => m
  | .blocked | .waiting | .readline | .sleeping => { m with blk := m.blk ++ [m.current] }
  | .running | .runnable | .init => { m with run := m.run ++ [m.current] }

/-- Go on with the thread `next`. -/
def switchTo (m : Machine) (next : Nat) : Machine :=
  let m' := if (m.tcb next).state = .init then m.setState next .running else m
  { m' with current := next }

/-- `schedule`. -/
def schedule (m : Machine) (tid : Int) : Option Machine :=
  let m1 := m.wakeSleepers
  if m1.current = 1 ∧ m1.run = [] then some m1
  else (m1.takeNext tid).map fun r => r.2.putBack.switchTo r.1

/-- A timer interrupt. -/
def timerHandler (m : Machine) : Option Machine :=
  let m1 := { m with numTicks := (m.numTicks + 1) % 2 ^ 32 }
  if m1.numTicks % Kernel.scheduleInterval = 0 then m1.schedule (-1) else some m1

/-- A newline key. -/
def keyboardNewline (m : Machine) : Machine :=
  match m.blk.find? fun t => (m.tcb t).state = .readline with
  | some t => m.wake t
  | none => m

/-- `yield`. -/
def sysYield (m : Machine) (tid : Int) : Option (Machine × Out) :=
  if tid < -1 then some (m, Out.value (-1))
  else if tid = -1 then (m.schedule (-1)).map fun m' => (m', Out.quiet)
  else if m.blk.any fun t : Nat => (t : Int) = tid then some (m, Out.value (-1))
  else if (m.current : Int) = tid then some (m, Out.value (-1))
  else if m.run.any fun t : Nat => (t : Int) = tid then (m.schedule tid).map fun m' => (m', Out.quiet)
  else some (m, Out.value (-1))

/-- `sleep`. -/
def sysSleep (m : Machine) (ticks : Int) : Option (Machine × Out) :=
  if ticks < 0 then some (m, Out.value (-1))
  else if ticks = 0 then some (m, Out.value 0)
  else
    let m1 := m.setTcb m.current
      { m.tcb m.current with duration := ticks.toNat, startTicks := m.numTicks, state := .sleeping }
    (m1.schedule (-1)).map fun m' => (m', Out.quiet)

/-- `deschedule`. -/
def sysDeschedule (m : Machine) (mapped : Bool) (reject : Int) : Option (Machine × Out) :=
  if mapped = false then some (m, Out.value (-1))
  else if reject ≠ 0 then some (m, Out.value 0)
  else ((m.setState m.current .blocked).schedule (-1)).map fun m' => (m', Out.quiet)

/-- `make_runnable`. -/
def sysMakeRunnable (m : Machine) (tid : Int) : Machine × Out :=
  if tid ≤ 0 then (m, Out.value (-1))
  else if m.run.any fun t : Nat => (t : Int) = tid ∧ (m.tcb t).state = .runnable then
    (m, Out.value (-1))
  else
    match m.blk.find? fun t : Nat => (t : Int) = tid ∧ (m.tcb t).state = .blocked with
    | some t => (m.wake t, Out.value 0)
    | none => (m, Out.value (-1))

/-- `readline`, up to its call of `schedule`. -/
def sysReadline (m : Machine) (len : Int) (mapped : Bool) : Option (Machine × Out) :=
  if mapped = false then some (m, Out.value (-1))
  else if len > Kernel.maxReadLen then some (m, Out.value (-1))
  else ((m.setState m.current .readline).schedule (-1)).map fun m' => (m', Out.quiet)

/-! ## Families -/

/-- The thread list after a thread fork: only the first thread and the new one stay in it. -/
def forkChain (chain : List Nat) (child : Nat) : List Nat :=
  match chain with
  | [] => []
  | root :: _ => [root, child]

/-- `thread_fork`. -/
def sysThreadFork (m : Machine) : Machine × Out :=
  let p := m.currentPcb
  let child := m.nextTid
  let m1 := m.setTcb child
    { m.tcb child with pcb := p, state := .init, resume := .userMode }
  ({ m1.setProc p { m.proc p with chain := forkChain (m.proc p).chain child } with
      nextTid := m.nextTid + 1, run := m.run ++ [child] }, Out.value child)

/-- The control blocks of a forked process. -/
def forkBlocks (m : Machine) : Machine :=
  let parent := m.currentPcb
  let tid := m.nextTid
  let pid := m.nextPid
  let m1 := m.setTcb tid { m.tcb tid with pcb := pid, state := .init, resume := .userMode }
  let m2 := { m1 with nextTid := m.nextTid + 1, nextPid := m.nextPid + 1 }
  let m3 := m2.setProc pid { m2.proc pid with
    state := .running, parent := some parent, chain := [tid], children := [], childrenCount := 0 }
  m3.setProc parent { m3.proc parent with
    children := (m3.proc parent).children ++ [pid],
    childrenCount := (m3.proc parent).childrenCount + 1 }

/-- `fork`. -/
def sysFork (m : Machine) (outcome : Kernel.ForkOutcome) : Machine × Out :=
  match outcome with
  | .early => (m, Out.value (-1))
  | .stack => ({ m with nextTid := m.nextTid + 1 }, Out.value (-1))
  | .late => (m.forkBlocks, Out.value (-1))
  | .ok => ({ m.forkBlocks with run := m.run ++ [m.nextTid] }, Out.value m.nextPid)

/-- `set_status`. -/
def sysSetStatus (m : Machine) (status : Int) : Machine :=
  m.setProc m.currentPcb { m.proc m.currentPcb with returnState := some status }

/-- The number of threads in `chain` that have not exited. -/
def liveCount (m : Machine) (chain : List Nat) : Nat :=
  chain.countP fun t => (m.tcb t).state ≠ .exit

/-- The thread list after the last thread `t` has reaped its peers. -/
def reapChain (chain : List Nat) (t : Nat) : List Nat :=
  if chain.head? = some t then [t] else chain

/-- Reap the threads that the thread list of `p` leads to, except the current one. -/
def reapPeers (m : Machine) (p : Nat) : Machine :=
  { m.setProc p { m.proc p with chain := reapChain (m.proc p).chain m.current } with
    freedTcb := ((m.proc p).chain.filter fun t => t ≠ m.current).reverse ++ m.freedTcb }

/-- Wake thread 2, if it is blocked. -/
def wakeInit (m : Machine) : Machine :=
  match m.blk.find? fun t => t = 2 with
  | some t => m.wake t
  | none => m

/-- Wake the first waiting thread in the thread list of `p`. -/
def wakeWaiter (m : Machine) (p : Nat) : Machine :=
  match (m.proc p).chain.find? fun t => (m.tcb t).state = .waiting with
  | some t => m.wake t
  | none => m

/-- The exit of process `p`. -/
def exitProcess (m : Machine) (p : Nat) : Option Machine :=
  let m1 := m.reapPeers p
  let m2 := m1.setProc p { m1.proc p with state := .exit }
  match (m2.proc p).parent with
  | none => some m2.wakeInit
  | some parent =>
      if parent ∈ m2.freedPcb then none
      else if (m2.proc parent).state = .exit then some m2.wakeInit
      else some (m2.wakeWaiter parent)

/-- `vanish` up to its call of `schedule`. -/
def vanishBody (m : Machine) : Option Machine :=
  let p := m.currentPcb
  let body := if m.liveCount (m.proc p).chain = 1 then m.exitProcess p else some m
  body.map fun m1 => m1.setState m1.current .exit

/-- `vanish`. -/
def sysVanish (m : Machine) : Option (Machine × Out) :=
  (m.vanishBody.bind fun m1 => m1.schedule (-1)).map fun m' => (m', Out.quiet)

/-- The first child of `p` that has exited. -/
def findZombie (m : Machine) (p : Nat) : Option Nat :=
  (m.proc p).children.find? fun c => (m.proc c).state = .exit

/-- Process `p` reaps its child `c`. -/
def reap (m : Machine) (p c statusPtr : Nat) : Machine × Out :=
  ({ m.setProc p { m.proc p with
        children := (m.proc p).children.erase c, childrenCount := (m.proc p).childrenCount - 1 } with
      freedPcb := c :: m.freedPcb },
    ⟨some c, if statusPtr ≠ 0 then some (statusPtr, (m.proc c).returnState) else none⟩)

/-- `wait` up to its call of `schedule`. -/
def sysWait (m : Machine) (statusPtr : Nat) : Option (Machine × Out) :=
  let p := m.currentPcb
  if statusPtr ≠ 0 ∧ Kernel.isUserAddr statusPtr = false then some (m, Out.value (-1))
  else if (m.proc p).childrenCount = 0 then some (m, Out.value (-1))
  else
    match m.findZombie p with
    | some c => some (m.reap p c statusPtr)
    | none =>
        let m1 := m.setTcb m.current
          { m.tcb m.current with state := .waiting, resume := .wait statusPtr }
        (m1.schedule (-1)).map fun m' => (m', Out.quiet)

/-- The rest of `wait`. -/
def resumeWait (m : Machine) (statusPtr : Nat) : Machine × Out :=
  let p := m.currentPcb
  let m1 := m.setTcb m.current { m.tcb m.current with resume := .userMode }
  match m1.findZombie p with
  | some c => m1.reap p c statusPtr
  | none => (m1, Out.value (-1))

/-! ## The transition system -/

/-- The machine after boot: thread 1 is `idle`, thread 2 is `init`. -/
def boot : Machine where
  tcb t :=
    if t = 1 then ⟨1, .init, 0, 0, .userMode⟩
    else if t = 2 then ⟨2, .running, 0, 0, .userMode⟩
    else ⟨0, .init, 0, 0, .userMode⟩
  proc p :=
    if p = 1 then ⟨.runnable, some 0, none, [1], [], 0⟩
    else if p = 2 then ⟨.runnable, some 0, none, [2], [], 0⟩
    else ⟨.running, none, none, [], [], 0⟩
  run := [1]
  blk := []
  current := 2
  nextTid := 3
  nextPid := 3
  numTicks := 0
  freedTcb := []
  freedPcb := []

/-- One system call of the current thread. -/
def call (m : Machine) : SysCall → Option (Machine × Out)
  | .yield tid => m.sysYield tid
  | .sleep ticks => m.sysSleep ticks
  | .deschedule mapped reject => m.sysDeschedule mapped reject
  | .makeRunnable tid => some (m.sysMakeRunnable tid)
  | .readline len mapped => m.sysReadline len mapped
  | .threadFork => some m.sysThreadFork
  | .fork outcome => some (m.sysFork outcome)
  | .setStatus status => some (m.sysSetStatus status, Out.quiet)
  | .vanish => m.sysVanish
  | .wait statusPtr => m.sysWait statusPtr

/-- **One step** of the abstract machine. -/
def step (m : Machine) : Event → Option (Machine × Out)
  | .timer => m.timerHandler.map fun m' => (m', Out.quiet)
  | .reschedule => (m.schedule (-1)).map fun m' => (m', Out.quiet)
  | .newline => some (m.keyboardNewline, Out.quiet)
  | .resume =>
      match (m.tcb m.current).resume with
      | .userMode => none
      | .wait statusPtr => if m.alive then some (m.resumeWait statusPtr) else none
  | .call c => if m.inUser then m.call c else none

end Machine

end Pebbles
