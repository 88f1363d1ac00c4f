import Pebbles.Process.LifeCycle
import Pebbles.Library.Runs

/-! # The preemptible kernel

System calls are entered through trap gates, which leave interrupts enabled: a timer interrupt can
come between any two statements of a call. Here the code of nine calls is cut into statements. Each
thread has a program counter `Pc`: the straight-line statements it is about to execute and the
point of the source, a test or a loop head, that comes after them. The kernel state is the one of
the uninterrupted model, and `schedule` is atomic, as it runs with interrupts disabled.

A mutex is held by one thread or free; a thread that meets a held one hands the processor to the
holder and tries again, as the loop of `mutex_lock` does. -/

namespace Pebbles

open DoublyLinked

/-! ## Mutexes and statements -/

/-- The mutexes of the kernel. -/
inductive Lock where
  /-- `tcb_mutex` of a thread. -/
  | tcb (t : Nat)
  /-- `blocked_queue_lock`. -/
  | blockedQueue
  /-- `runnable_queue_lock`. -/
  | runnableQueue
  /-- `process_queue_lock`. -/
  | processQueue
  /-- `deschedule_lock`. -/
  | deschedule
  /-- `print_lock`. -/
  | print
  deriving DecidableEq

/-- The statements that write the kernel state. -/
inductive Act where
  /-- `current_thread -> state = st`. -/
  | setOwn (st : ThreadState)
  /-- `t -> state = THREAD_RUNNABLE`. -/
  | setRunnable (t : Nat)
  /-- The assignments of `duration` and `start_ticks` in `sys_sleep`. -/
  | setSleep (ticks : Nat)
  /-- `current_thread -> pcb -> return_state = status`. -/
  | setReturn (status : Int)
  /-- `list_delete(&blocked_queue, n)`. -/
  | deleteBlocked (n : NodePtr)
  /-- `list_delete(&runnable_queue, n)`. -/
  | deleteRunnable (n : NodePtr)
  /-- `list_insert_last(&runnable_queue, n)`. -/
  | insertRunnable (n : NodePtr)
  /-- `list threads = current_pcb -> threads`. -/
  | copyThreads
  /-- `list_delete(&threads, n)` on that copy. -/
  | unlinkPeer (n : NodePtr)
  /-- `sfree` of the kernel stack and `free` of a TCB. -/
  | freeThread (t : Nat)
  /-- `current_pcb -> state = PROCESS_EXIT`. -/
  | setExit
  /-- `list_delete(&process_queue, &current_pcb -> all_processes_node)`. -/
  | deleteProcess
  /-- `list_delete(child_pros, &pcb -> peer_processes_node)`. -/
  | unlinkChild (c : Nat)
  /-- `current_pcb -> children_count--`. -/
  | countDown
  /-- `destroy_page_directory(pcb -> PD)` and `sfree(pcb -> PD, 4096)`. -/
  | freeDirectory (c : Nat)
  /-- `free(pcb)`. -/
  | freeProcess (c : Nat)
  deriving DecidableEq

/-- A statement of a system call. -/
inductive Stmt where
  /-- `mutex_lock`. -/
  | lock (l : Lock)
  /-- `mutex_unlock`. -/
  | unlock (l : Lock)
  /-- `schedule(tid)`. -/
  | schedule (tid : Int)
  /-- A write to the kernel state. -/
  | act (a : Act)
  deriving DecidableEq

/-! ## Program counters -/

/-- Where a loop `for (n = list_begin(l); n != NULL; n = n -> next)` is. -/
inductive Cursor where
  /-- Before `n = list_begin(l)`. -/
  | start
  /-- Before the test `n != NULL`. -/
  | at (n : Option NodePtr)
  /-- Before `n = n -> next`. -/
  | after (n : NodePtr)
  deriving DecidableEq

/-- The node the loop variable points to. -/
def Cursor.node : Cursor → Option NodePtr
  | .start => none
  | .at n => n
  | .after n => some n

/-- The tests and loop heads of the system calls. -/
inductive Point where
  /-- User mode: the last call has handed out `out`. -/
  | user (out : Out)
  /-- The two tests at the start of `sys_wait`. -/
  | waitTest (statusPtr : Nat)
  /-- The scan of the children list, `again` after the call of `schedule`. -/
  | waitScan (statusPtr : Nat) (again : Bool) (c : Cursor)
  /-- `sys_vanish` counts the threads that have not exited. -/
  | vanishCount (live : Nat) (c : Cursor)
  /-- `sys_vanish` reaps the peers of the last thread. -/
  | vanishReap (c : Cursor)
  /-- The test of the parent. -/
  | vanishParent
  /-- The search for thread 2 in `blocked_queue`. -/
  | findInit (c : Cursor)
  /-- The search for a waiting thread in the copied thread list of the parent. -/
  | findWaiter (c : Cursor)
  /-- The tests at the start of `sys_yield`. -/
  | yieldTest (tid : Int)
  /-- The search in `blocked_queue`. -/
  | yieldBlocked (tid : Int) (c : Cursor)
  /-- The comparison with the current thread. -/
  | yieldSelf (tid : Int)
  /-- The search in `runnable_queue`. -/
  | yieldRunnable (tid : Int) (c : Cursor)
  /-- The tests at the start of `sys_sleep`. -/
  | sleepTest (ticks : Int)
  /-- The test at the start of `sys_deschedule`. -/
  | descheduleTest (reject : Nat)
  /-- The test of `*reject`. -/
  | descheduleRead (reject : Nat)
  /-- The test at the start of `sys_make_runnable`. -/
  | makeTest (tid : Int)
  /-- The search in `runnable_queue`. -/
  | makeRunnable (tid : Int) (c : Cursor)
  /-- The search in `blocked_queue`. -/
  | makeBlocked (tid : Int) (c : Cursor)
  /-- The tests at the start of `sys_readline`. -/
  | readlineTest (len : Int) (buf : Nat)
  /-- `sys_readline` after its call of `schedule`. -/
  | readlineRead (len : Int)
  /-- The `strlen(buf)` of the first lines of `sys_print`. -/
  | printRead (buf : Nat)
  /-- The test of `buf` in `sys_print`. -/
  | printTest (buf : Nat)
  deriving DecidableEq

/-- **A program counter**: statements to execute in a row, and what comes after them. -/
structure Pc where
  /-- The statements. -/
  todo : List Stmt
  /-- The point after them. -/
  next : Point
  deriving DecidableEq

namespace Pc

/-- At a point, with no statement before it. -/
def point (x : Point) : Pc := ⟨[], x⟩

/-- Back in user mode with the return value `v`. -/
def value (v : Int) : Pc := ⟨[], .user (Out.value v)⟩

/-- The thread is in user mode. -/
def inUser (pc : Pc) : Bool :=
  match pc with
  | ⟨[], .user _⟩ => true
  | _ => false

/-- In user mode a thread is at a point. -/
theorem eq_point_of_inUser {pc : Pc} (user : pc.inUser = true) : ∃ out, pc = point (.user out) := by
  unfold inUser at user
  split at user
  · exact ⟨_, rfl⟩
  · cases user

end Pc

/-! ## Straight-line code -/

/-- The end of `sys_vanish` of thread `t`. -/
def vanishEnd (t : Nat) : List Stmt :=
  [.act (.setOwn .exit), .unlock (.tcb t), .schedule (-1)]

/-- How `sys_vanish` wakes the thread `w`. -/
def vanishWake (w : Nat) : List Stmt :=
  [.lock .blockedQueue, .act (.deleteBlocked (threadListNode w)), .unlock .blockedQueue,
    .lock (.tcb w), .act (.setRunnable w), .unlock (.tcb w),
    .lock .runnableQueue, .act (.insertRunnable (threadListNode w)), .unlock .runnableQueue]

/-- The statements of `sys_vanish` between the reaping loop and the test of the parent. -/
def vanishExit : List Stmt :=
  [.act .setExit, .lock .processQueue, .act .deleteProcess, .unlock .processQueue]

/-- The body of the reaping loop. -/
def vanishFree (n : NodePtr) : List Stmt :=
  [.act (.unlinkPeer n), .act (.deleteBlocked n), .act (.deleteRunnable n),
    .act (.freeThread (listEntry n))]

/-- Thread `t` puts itself aside in the state `st`, under its own mutex. -/
def suspend (t : Nat) (st : ThreadState) : List Stmt :=
  [.lock (.tcb t), .act (.setOwn st), .unlock (.tcb t), .schedule (-1)]

/-- `sys_wait` reaps the child `c`. -/
def waitReap (c : Nat) : List Stmt :=
  [.act (.unlinkChild c), .act .countDown, .act (.freeDirectory c), .act (.freeProcess c)]

/-- `sys_make_runnable` after its two searches, with the target `w` found. -/
def makeWake (w : Nat) : List Stmt :=
  [.unlock .blockedQueue, .lock .deschedule,
    .lock (.tcb w), .act (.setRunnable w), .unlock (.tcb w),
    .lock .blockedQueue, .act (.deleteBlocked (threadListNode w)), .unlock .blockedQueue,
    .lock .runnableQueue, .act (.insertRunnable (threadListNode w)), .unlock .runnableQueue,
    .unlock .deschedule]

/-! ## The state -/

/-- **The state of the preemptible kernel.** -/
structure Preempt where
  /-- Control blocks, queues and the current thread. -/
  kernel : Kernel
  /-- Who holds each mutex. -/
  owner : Lock → Option Nat
  /-- The program counters. -/
  pc : Nat → Pc
  /-- The local variable `threads` of each thread inside `sys_vanish`. -/
  threads : Nat → Header NodePtr
  /-- The processes whose page directory was freed. -/
  freedPd : List Nat
  /-- The words of user memory, by process and address. -/
  word : Nat → Nat → Int
  /-- `addr_has_mapping`, by process and address. -/
  mapped : Nat → Nat → Bool

namespace Preempt

/-- The current thread. -/
def current (s : Preempt) : Nat := s.kernel.currentThread

/-- Rewrite the kernel state. -/
def withKernel (s : Preempt) (k : Kernel) : Preempt := { s with kernel := k }

/-- The current thread goes on at `pc`. -/
def goto (s : Preempt) (pc : Pc) : Preempt :=
  { s with pc := Function.update s.pc s.current pc }

/-- Write the owner of a mutex. -/
def setOwner (s : Preempt) (l : Lock) (o : Option Nat) : Preempt :=
  { s with owner := Function.update s.owner l o }

end Preempt

/-- `schedule` returns at once: thread 1 runs and no other thread is runnable. -/
def Kernel.idles (k : Kernel) : Prop :=
  k.wakeSleepers.currentThread = 1 ∧ k.wakeSleepers.runnableQueue.length = 0

instance (k : Kernel) : Decidable k.idles := inferInstanceAs (Decidable (_ ∧ _))

/-- `schedule` takes the branch `case THREAD_BLOCKED`, which drops `deschedule_lock`. -/
def Kernel.handsOver (k : Kernel) : Prop :=
  (k.tcb k.currentThread).state = .blocked ∧ ¬ k.idles

instance (k : Kernel) : Decidable k.handsOver := inferInstanceAs (Decidable (_ ∧ _))

namespace Preempt

/-- `schedule(tid)`. -/
def schedule (s : Preempt) (tid : Int) : Option Preempt :=
  (s.kernel.schedule tid).map fun k =>
    { s with
      kernel := k
      owner := if s.kernel.handsOver then Function.update s.owner .deschedule none else s.owner }

/-- `timer_handler`. -/
def timer (s : Preempt) : Option Preempt :=
  let k := { s.kernel with numTicks := (s.kernel.numTicks + 1) % 2 ^ 32 }
  if k.numTicks % Kernel.scheduleInterval = 0 then (s.withKernel k).schedule (-1)
  else some (s.withKernel k)

/-! ## Statements -/

/-- A write to the kernel state by the current thread. -/
def perform (s : Preempt) : Act → Preempt
  | .setOwn st => s.withKernel (s.kernel.setState s.current st)
  | .setRunnable t => s.withKernel (s.kernel.setState t .runnable)
  | .setSleep ticks => s.withKernel (s.kernel.setTcb s.current
      { s.kernel.tcb s.current with duration := ticks, startTicks := s.kernel.numTicks })
  | .setReturn status => s.withKernel (s.kernel.sysSetStatus status)
  | .deleteBlocked n => s.withKernel (s.kernel.deleteBlocked n)
  | .deleteRunnable n => s.withKernel (s.kernel.deleteRunnable n)
  | .insertRunnable n => s.withKernel (s.kernel.insertRunnable n)
  | .copyThreads =>
      { s with
        threads := Function.update s.threads s.current (s.kernel.pcb s.kernel.currentPcb).threads }
  | .unlinkPeer n =>
      let r := listDelete s.kernel.links (s.threads s.current) (some n)
      { s.withKernel { s.kernel with links := r.1 } with
        threads := Function.update s.threads s.current r.2.1 }
  | .freeThread t => s.withKernel { s.kernel with freedTcb := t :: s.kernel.freedTcb }
  | .setExit =>
      let p := s.kernel.currentPcb
      s.withKernel (s.kernel.setPcb p { s.kernel.pcb p with state := .exit })
  | .deleteProcess =>
      let q := listDelete s.kernel.links s.kernel.processQueue
        (some (allProcessesNode s.kernel.currentPcb))
      s.withKernel { s.kernel with links := q.1, processQueue := q.2.1 }
  | .unlinkChild c =>
      let p := s.kernel.currentPcb
      let r := listDelete s.kernel.links (s.kernel.pcb p).children (some (peerProcessesNode c))
      s.withKernel (({ s.kernel with links := r.1 }).setPcb p
        { s.kernel.pcb p with children := r.2.1 })
  | .countDown =>
      let p := s.kernel.currentPcb
      s.withKernel (s.kernel.setPcb p
        { s.kernel.pcb p with childrenCount := (s.kernel.pcb p).childrenCount - 1 })
  | .freeDirectory c => { s with freedPd := c :: s.freedPd }
  | .freeProcess c => s.withKernel { s.kernel with freedPcb := c :: s.kernel.freedPcb }

/-- The current thread executes a statement and goes on at `pc`. At a mutex that is held it gives
the processor to the holder and stays where it is. -/
def exec (s : Preempt) (pc : Pc) : Stmt → Option Preempt
  | .lock l =>
      match s.owner l with
      | none => some ((s.goto pc).setOwner l (some s.current))
      | some holder => s.schedule holder
  | .unlock l => some ((s.goto pc).setOwner l none)
  | .schedule tid => (s.goto pc).schedule tid
  | .act a => some ((s.goto pc).perform a)

/-! ## Tests and loops -/

/-- One round of a loop over the list `l`: `body` says where a node that ends the round early
leads to, `done` is what comes after the loop. -/
def loop (s : Preempt) (l : Header NodePtr) (here : Cursor → Point) (done : Pc)
    (body : NodePtr → Option Pc) : Cursor → Pc
  | .start => Pc.point (here (.at (listBegin l)))
  | .at none => done
  | .at (some n) => (body n).getD (Pc.point (here (.after n)))
  | .after n => Pc.point (here (.at (s.kernel.links n).next))

/-- The scan of `sys_wait` for a child that has exited. -/
def scanChildren (s : Preempt) (statusPtr : Nat) (again : Bool) (c : Cursor) : Option Pc :=
  let k := s.kernel
  -- the PCB that the cursor is in was freed by another thread
  if c.node.any fun n => listEntry n ∈ k.freedPcb then none
  else some <| s.loop (k.pcb k.currentPcb).children (.waitScan statusPtr again)
    (if again then Pc.value (-1)
      else ⟨suspend s.current .waiting, .waitScan statusPtr true .start⟩)
    (fun n =>
      let z := listEntry n
      if (k.pcb z).state = .exit then
        some ⟨waitReap z, .user ⟨some z,
          if statusPtr ≠ 0 then some (statusPtr, (k.pcb z).returnState) else none⟩⟩
      else none) c

/-- The test of the parent in `sys_vanish`. -/
def testParent (s : Preempt) : Option Pc :=
  let k := s.kernel
  match (k.pcb k.currentPcb).parent with
  | none => some (Pc.point (.findInit .start))
  | some q =>
      if q ∈ k.freedPcb then none
      else if (k.pcb q).state = .exit then some (Pc.point (.findInit .start))
      else some (Pc.point (.findWaiter (.at (listBegin (k.pcb q).threads))))

/-- **Where a test leads.** There is no next step in user mode, where a freed block is read, and
where the kernel takes a page fault. -/
def branch (s : Preempt) : Point → Option Pc
  | .user _ => none
  | .waitTest statusPtr =>
      if statusPtr ≠ 0 ∧ Kernel.isUserAddr statusPtr = false then some (Pc.value (-1))
      else if (s.kernel.pcb s.kernel.currentPcb).childrenCount = 0 then some (Pc.value (-1))
      else some (Pc.point (.waitScan statusPtr false .start))
  | .waitScan statusPtr again c => s.scanChildren statusPtr again c
  | .vanishCount live c => some <|
      s.loop (s.threads s.current) (.vanishCount live)
        (if live = 1 then Pc.point (.vanishReap .start)
          else ⟨vanishEnd s.current, .user Out.quiet⟩)
        (fun n => if (s.kernel.tcb (listEntry n)).state ≠ .exit
          then some (Pc.point (.vanishCount (live + 1) (.after n))) else none) c
  | .vanishReap c => some <|
      s.loop (s.threads s.current) .vanishReap ⟨vanishExit, .vanishParent⟩
        (fun n => if listEntry n ≠ s.current then some ⟨vanishFree n, .vanishReap (.after n)⟩
          else none) c
  | .vanishParent => s.testParent
  | .findInit c => some <|
      s.loop s.kernel.blockedQueue .findInit ⟨vanishEnd s.current, .user Out.quiet⟩
        (fun n => if listEntry n = 2
          then some ⟨vanishWake 2 ++ vanishEnd s.current, .user Out.quiet⟩ else none) c
  | .findWaiter c => some <|
      s.loop listInit .findWaiter ⟨vanishEnd s.current, .user Out.quiet⟩
        (fun n => if (s.kernel.tcb (listEntry n)).state = .waiting
          then some ⟨vanishWake (listEntry n) ++ vanishEnd s.current, .user Out.quiet⟩
          else none) c
  | .yieldTest tid =>
      if tid < -1 then some (Pc.value (-1))
      else if tid = -1 then some ⟨[.schedule (-1)], .user (Out.value 0)⟩
      else some ⟨[.lock .blockedQueue], .yieldBlocked tid .start⟩
  | .yieldBlocked tid c => some <|
      s.loop s.kernel.blockedQueue (.yieldBlocked tid)
        ⟨[.unlock .blockedQueue, .lock (.tcb s.current)], .yieldSelf tid⟩
        (fun n => if (listEntry n : Int) = tid
          then some ⟨[.unlock .blockedQueue], .user (Out.value (-1))⟩ else none) c
  | .yieldSelf tid =>
      if (s.current : Int) = tid then
        some ⟨[.unlock (.tcb s.current)], .user (Out.value (-1))⟩
      else
        some ⟨[.unlock (.tcb s.current), .lock .runnableQueue], .yieldRunnable tid .start⟩
  | .yieldRunnable tid c => some <|
      s.loop s.kernel.runnableQueue (.yieldRunnable tid)
        ⟨[.unlock .runnableQueue], .user (Out.value (-1))⟩
        (fun n => if (listEntry n : Int) = tid
          then some ⟨[.unlock .runnableQueue, .schedule tid], .user (Out.value 0)⟩ else none) c
  | .sleepTest ticks =>
      if ticks < 0 then some (Pc.value (-1))
      else if ticks = 0 then some (Pc.value 0)
      else some ⟨[.lock (.tcb s.current), .act (.setSleep ticks.toNat),
        .act (.setOwn .sleeping), .unlock (.tcb s.current), .schedule (-1)],
        .user (Out.value 0)⟩
  | .descheduleTest reject =>
      if Kernel.isUserAddr reject ∧ s.mapped s.kernel.currentPcb reject then
        some ⟨[.lock .deschedule], .descheduleRead reject⟩
      else some (Pc.value (-1))
  | .descheduleRead reject =>
      if s.mapped s.kernel.currentPcb reject = false then none
      else if s.word s.kernel.currentPcb reject ≠ 0 then
        some ⟨[.unlock .deschedule], .user (Out.value 0)⟩
      else some ⟨suspend s.current .blocked, .user (Out.value 0)⟩
  | .makeTest tid =>
      if tid ≤ 0 then some (Pc.value (-1))
      else some ⟨[.lock .runnableQueue], .makeRunnable tid .start⟩
  | .makeRunnable tid c => some <|
      s.loop s.kernel.runnableQueue (.makeRunnable tid)
        ⟨[.unlock .runnableQueue, .lock .blockedQueue], .makeBlocked tid .start⟩
        (fun n => if (listEntry n : Int) = tid ∧ (s.kernel.tcb (listEntry n)).state = .runnable
          then some ⟨[.unlock .runnableQueue], .user (Out.value (-1))⟩ else none) c
  | .makeBlocked tid c => some <|
      s.loop s.kernel.blockedQueue (.makeBlocked tid)
        ⟨[.unlock .blockedQueue], .user (Out.value (-1))⟩
        (fun n => if (listEntry n : Int) = tid ∧ (s.kernel.tcb (listEntry n)).state = .blocked
          then some ⟨makeWake (listEntry n), .user (Out.value 0)⟩ else none) c
  | .readlineTest len buf =>
      if ¬ (Kernel.isUserAddr buf ∧ s.mapped s.kernel.currentPcb buf) then some (Pc.value (-1))
      else if len > Kernel.maxReadLen then some (Pc.value (-1))
      else some ⟨suspend s.current .readline, .readlineRead len⟩
  | .readlineRead len => some (if len < 0 then Pc.value (-1) else Pc.point (.user Out.quiet))
  | .printRead buf =>
      -- the kernel's own memory can always be read
      if Kernel.isUserAddr buf ∧ s.mapped s.kernel.currentPcb buf = false then none
      else some (Pc.point (.printTest buf))
  | .printTest buf =>
      if ¬ (Kernel.isUserAddr buf ∧ s.mapped s.kernel.currentPcb buf) then some (Pc.value (-1))
      else some ⟨[.unlock .print], .user (Out.value 0)⟩

/-! ## Steps -/

/-- The current thread executes its next statement or test. -/
def run (s : Preempt) : Option Preempt :=
  if s.kernel.alive then
    match s.pc s.current with
    | ⟨[], next⟩ => (s.branch next).map s.goto
    | ⟨stmt :: rest, next⟩ => s.exec ⟨rest, next⟩ stmt
  else none

end Preempt

/-- The system calls, with the pointers that user code passes. -/
inductive Entry where
  /-- `print`; the length goes to the console only. -/
  | print (buf : Nat)
  /-- `readline`. -/
  | readline (len : Int) (buf : Nat)
  /-- `wait`. -/
  | wait (statusPtr : Nat)
  /-- `vanish`. -/
  | vanish
  /-- `yield`. -/
  | yield (tid : Int)
  /-- `sleep`. -/
  | sleep (ticks : Int)
  /-- `deschedule`. -/
  | deschedule (reject : Nat)
  /-- `make_runnable`. -/
  | makeRunnable (tid : Int)
  /-- `set_status`. -/
  | setStatus (status : Int)
  deriving DecidableEq

/-- The first statements of a call by thread `t`. -/
def Entry.pc (t : Nat) : Entry → Pc
  | .print buf => ⟨[.lock .print], .printRead buf⟩
  | .readline len buf => Pc.point (.readlineTest len buf)
  | .wait statusPtr => Pc.point (.waitTest statusPtr)
  | .vanish => ⟨[.lock (.tcb t), .act .copyThreads], .vanishCount 0 .start⟩
  | .yield tid => Pc.point (.yieldTest tid)
  | .sleep ticks => Pc.point (.sleepTest ticks)
  | .deschedule reject => Pc.point (.descheduleTest reject)
  | .makeRunnable tid => Pc.point (.makeTest tid)
  | .setStatus status =>
      ⟨[.lock (.tcb t), .act (.setReturn status), .unlock (.tcb t)], .user Out.quiet⟩

/-- What happens next. -/
inductive Move where
  /-- A timer interrupt. -/
  | timer
  /-- A call of `schedule(-1)` by the timer, at any moment. -/
  | preempt
  /-- The current thread executes its next statement or test. -/
  | run
  /-- The current thread, in user mode, makes a system call. -/
  | enter (e : Entry)
  /-- The current thread, in user mode, writes a word of its memory. -/
  | store (addr : Nat) (v : Int)
  /-- The current thread, in user mode, changes what is mapped. -/
  | remap (addr : Nat) (b : Bool)
  deriving DecidableEq

namespace Preempt

/-- The current thread is in user mode, and its control blocks exist. -/
def atUser (s : Preempt) : Prop := (s.pc s.current).inUser = true ∧ s.kernel.alive

instance (s : Preempt) : Decidable s.atUser := inferInstanceAs (Decidable (_ ∧ _))

/-- **One step** of the preemptible kernel. -/
def step (s : Preempt) : Move → Option Preempt
  | .timer => s.timer
  | .preempt => s.schedule (-1)
  | .run => s.run
  | .enter e => if s.atUser then some (s.goto (e.pc s.current)) else none
  | .store addr v =>
      if s.atUser then
        some { s with
          word := Function.update s.word s.kernel.currentPcb
            (Function.update (s.word s.kernel.currentPcb) addr v) }
      else none
  | .remap addr b =>
      if s.atUser then
        some { s with
          mapped := Function.update s.mapped s.kernel.currentPcb
            (Function.update (s.mapped s.kernel.currentPcb) addr b) }
      else none

/-- The steps as a relation. -/
def Step (s : Preempt) (m : Move) (s' : Preempt) : Prop := s.step m = some s'

end Preempt

/-- Where a thread goes on that the uninterrupted kernel has put aside. -/
def Resume.pc : Resume → Pc
  | .userMode => Pc.point (.user Out.quiet)
  | .wait statusPtr => Pc.point (.waitScan statusPtr true .start)

namespace Preempt

/-- **The start**: a state of the uninterrupted kernel, with all mutexes free. A thread that is not
in user mode there is inside `sys_wait`. -/
def start (k : Kernel) (word : Nat → Nat → Int) (mapped : Nat → Nat → Bool) : Preempt where
  kernel := k
  owner _ := none
  pc t := (k.tcb t).resume.pc
  threads _ := listInit
  freedPd := k.freedPcb
  word := word
  mapped := mapped

/-- The state after the given moves. -/
def after (s : Preempt) (moves : List Move) : Preempt := (Transition.runList step s moves).getD s

/-- Moves that go through are a run. -/
theorem run_after {s : Preempt} {moves : List Move}
    (h : (Transition.runList step s moves).isSome = true) :
    Transition.Run Step s moves (s.after moves) := by
  obtain ⟨t, ht⟩ := Option.isSome_iff_exists.mp h
  have hafter : s.after moves = t := by
    rw [after, ht]
    rfl
  rw [hafter]
  exact Transition.Run.of_runList ht

/-! ## What a step does -/

/-- **The steps, one by one**: each constructor is one way a step can go, with what was tested. -/
inductive Happens (s : Preempt) : Move → Preempt → Prop
  /-- A timer interrupt that only counts. -/
  | tick {n : Nat} : Happens s .timer (s.withKernel { s.kernel with numTicks := n })
  /-- A timer interrupt that calls `schedule`. -/
  | timer {n : Nat} {s' : Preempt}
      (switch : (s.withKernel { s.kernel with numTicks := n }).schedule (-1) = some s') :
      Happens s .timer s'
  /-- A call of `schedule` by the timer. -/
  | preempt {s' : Preempt} (switch : s.schedule (-1) = some s') : Happens s .preempt s'
  /-- The mutex is held by `holder`. -/
  | contend {l : Lock} {rest : List Stmt} {next : Point} {holder : Nat} {s' : Preempt}
      (alive : s.kernel.alive) (pc : s.pc s.current = ⟨.lock l :: rest, next⟩)
      (held : s.owner l = some holder) (switch : s.schedule holder = some s') : Happens s .run s'
  /-- The mutex is free. -/
  | lock {l : Lock} {rest : List Stmt} {next : Point} (alive : s.kernel.alive)
      (pc : s.pc s.current = ⟨.lock l :: rest, next⟩) (free : s.owner l = none) :
      Happens s .run ((s.goto ⟨rest, next⟩).setOwner l (some s.current))
  /-- A mutex is dropped. -/
  | unlock {l : Lock} {rest : List Stmt} {next : Point} (alive : s.kernel.alive)
      (pc : s.pc s.current = ⟨.unlock l :: rest, next⟩) :
      Happens s .run ((s.goto ⟨rest, next⟩).setOwner l none)
  /-- The call of `schedule` in a system call. -/
  | schedule {tid : Int} {rest : List Stmt} {next : Point} {s' : Preempt}
      (alive : s.kernel.alive) (pc : s.pc s.current = ⟨.schedule tid :: rest, next⟩)
      (switch : (s.goto ⟨rest, next⟩).schedule tid = some s') : Happens s .run s'
  /-- A write. -/
  | act {a : Act} {rest : List Stmt} {next : Point} (alive : s.kernel.alive)
      (pc : s.pc s.current = ⟨.act a :: rest, next⟩) :
      Happens s .run ((s.goto ⟨rest, next⟩).perform a)
  /-- A test or a loop head. -/
  | test {next : Point} {pc' : Pc} (alive : s.kernel.alive) (pc : s.pc s.current = ⟨[], next⟩)
      (leads : s.branch next = some pc') : Happens s .run (s.goto pc')
  /-- A system call begins. -/
  | enter {e : Entry} (user : s.atUser) : Happens s (.enter e) (s.goto (e.pc s.current))
  /-- A write to user memory. -/
  | store {addr : Nat} {v : Int} {word : Nat → Nat → Int} (user : s.atUser)
      (same : ∀ p a, p ≠ s.kernel.currentPcb ∨ a ≠ addr → word p a = s.word p a)
      (written : word s.kernel.currentPcb addr = v) :
      Happens s (.store addr v) { s with word := word }
  /-- A change of what is mapped. -/
  | remap {addr : Nat} {b : Bool} {mapped : Nat → Nat → Bool} (user : s.atUser) :
      Happens s (.remap addr b) { s with mapped := mapped }

/-- **Inversion**: a step goes one of these ways. -/
theorem Step.happens {s s' : Preempt} {m : Move} (h : s.Step m s') : s.Happens m s' := by
  cases m with
  | timer =>
      simp only [Step, step, timer] at h
      split_ifs at h with hinterval
      · exact .timer h
      · cases h
        exact .tick
  | preempt => exact .preempt h
  | run =>
      simp only [Step, step, run] at h
      split_ifs at h with halive
      split at h
      · next next hpc =>
          obtain ⟨pc', hleads, rfl⟩ := Option.map_eq_some_iff.mp h
          exact .test halive hpc hleads
      · next stmt rest next hpc =>
          cases stmt with
          | lock l =>
              simp only [exec] at h
              split at h
              · next hfree =>
                  cases h
                  exact .lock halive hpc hfree
              · next holder hheld => exact .contend halive hpc hheld h
          | unlock l =>
              cases h
              exact .unlock halive hpc
          | schedule tid => exact .schedule halive hpc h
          | act a =>
              cases h
              exact .act halive hpc
  | enter e =>
      simp only [Step, step] at h
      split_ifs at h with huser
      cases h
      exact .enter huser
  | store addr v =>
      simp only [Step, step] at h
      split_ifs at h with huser
      cases h
      refine .store huser (fun p a hne => ?_) (by simp)
      by_cases hp : p = s.kernel.currentPcb
      · subst hp
        have ha : a ≠ addr := hne.resolve_left fun e => e rfl
        simp [ha]
      · simp [hp]
  | remap addr b =>
      simp only [Step, step] at h
      split_ifs at h with huser
      cases h
      exact .remap huser

/-- **A round of a loop** leads to the next node, to the end of the loop, or where the body says. -/
theorem loop_cases (s : Preempt) (l : Header NodePtr) (here : Cursor → Point) (done : Pc)
    (body : NodePtr → Option Pc) (c : Cursor) :
    (∃ c', s.loop l here done body c = Pc.point (here c')) ∨
      (c = .at none ∧ s.loop l here done body c = done) ∨
      ∃ n pc, c = .at (some n) ∧ body n = some pc ∧ s.loop l here done body c = pc := by
  cases c with
  | start => exact Or.inl ⟨_, rfl⟩
  | after n => exact Or.inl ⟨_, rfl⟩
  | «at» n =>
      cases n with
      | none => exact Or.inr (Or.inl ⟨rfl, rfl⟩)
      | some n =>
          cases hbody : body n with
          | none => exact Or.inl ⟨.after n, by simp [loop, hbody]⟩
          | some pc => exact Or.inr (Or.inr ⟨n, pc, rfl, hbody, by simp [loop, hbody]⟩)

end Preempt

end Pebbles
