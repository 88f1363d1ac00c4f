import Pebbles.Process.ControlBlock

/-! # New control blocks

The three places that make control blocks, with every field of `TCB` and `PCB`: `process_create`
with `thr_create` (`kern/process/process.c`, `kern/thread/thread_basic.c`), `sys_fork`
(`kern/process/sys_fork.c`) and `sys_thread_fork` (`kern/process/sys_life_cycle.c`). A block comes
from `malloc` with whatever it held before, and a field that is not written keeps that. -/

namespace Pebbles

open DoublyLinked

/-! ## The blocks -/

/-- `ureg_t`. -/
structure Ureg where
  /-- The cause of an exception. -/
  cause : UInt32
  /-- The faulting address. -/
  cr2 : UInt32
  /-- Data segment. -/
  ds : UInt32
  /-- Extra segment. -/
  es : UInt32
  /-- Segment `fs`. -/
  fs : UInt32
  /-- Segment `gs`. -/
  gs : UInt32
  /-- Register `edi`. -/
  edi : UInt32
  /-- Register `esi`. -/
  esi : UInt32
  /-- Register `ebp`. -/
  ebp : UInt32
  /-- The dummy `esp`. -/
  zero : UInt32
  /-- Register `ebx`. -/
  ebx : UInt32
  /-- Register `edx`. -/
  edx : UInt32
  /-- Register `ecx`. -/
  ecx : UInt32
  /-- Register `eax`. -/
  eax : UInt32
  /-- The error code. -/
  errorCode : UInt32
  /-- The instruction pointer. -/
  eip : UInt32
  /-- Code segment. -/
  cs : UInt32
  /-- The flags. -/
  eflags : UInt32
  /-- The user stack pointer. -/
  esp : UInt32
  /-- Stack segment. -/
  ss : UInt32
  deriving DecidableEq

/-- `swexninfo`: the software exception handler of a thread. -/
structure SwexnInfo where
  /-- The stack of the handler. -/
  esp3 : UInt32
  /-- Its first instruction. -/
  eip : UInt32
  /-- Its argument. -/
  arg : UInt32
  /-- The registers to start with. -/
  newureg : UInt32
  /-- Whether a handler is installed. -/
  installedFlag : Int
  /-- The flags at the time of the fault. -/
  eflags : UInt32
  deriving DecidableEq

/-- `mutex_t`. -/
structure Mutex where
  /-- 0 when it is free. -/
  status : Int
  /-- The thread that holds it. -/
  tid : Int
  /-- The threads that wait for it. -/
  waitingQueue : Header NodePtr
  deriving DecidableEq

/-- The memory of a TCB. -/
structure TcbBlock where
  /-- The kernel stack pointer. -/
  esp : UInt32
  /-- The process, by the address of its block. -/
  pcb : UInt32
  /-- The thread id. -/
  tid : UInt32
  /-- The state. -/
  state : Int
  /-- When it went to sleep. -/
  startTicks : UInt32
  /-- How long it sleeps. -/
  duration : UInt32
  /-- The kernel stack. -/
  stackBase : UInt32
  /-- Its size. -/
  stackSize : UInt32
  /-- The user registers. -/
  registers : Ureg
  /-- The node in the thread list of the process. -/
  peerThreadsNode : Node NodePtr
  /-- The node in the runnable or the blocked queue. -/
  threadListNode : Node NodePtr
  /-- The node in the queue of a mutex. -/
  mutexWaitingQueueNode : Node NodePtr
  /-- The mutex of this block. -/
  tcbMutex : Mutex
  /-- The handler. -/
  swexnInfo : SwexnInfo
  deriving DecidableEq

/-- The memory of a PCB. -/
structure PcbBlock where
  /-- The process id. -/
  pid : UInt32
  /-- The state. -/
  state : Int
  /-- The status for the parent. -/
  returnState : Int
  /-- The parent, 0 for `NULL`. -/
  parent : UInt32
  /-- The threads. -/
  threads : Header NodePtr
  /-- The children. -/
  children : Header NodePtr
  /-- The node in the children list of the parent. -/
  peerProcessesNode : Node NodePtr
  /-- The node in the list of all processes. -/
  allProcessesNode : Node NodePtr
  /-- The page directory. -/
  pd : UInt32
  /-- The number of children. -/
  childrenCount : Int
  /-- The regions made by `new_pages`. -/
  va : Header NodePtr
  deriving DecidableEq

/-- What the blocks that `malloc` hands out held before. -/
structure OldContents where
  /-- The block for the PCB. -/
  pcb : PcbBlock
  /-- The block for the TCB. -/
  tcb : TcbBlock

/-- The kernel around: what the creation of control blocks reads of it, with the addresses that
`malloc` and `memalign` answer. -/
structure Surroundings where
  /-- `next_tid`. -/
  nextTid : UInt32
  /-- `next_pid`. -/
  nextPid : UInt32
  /-- `current_thread`. -/
  currentThread : TcbBlock
  /-- The 15 words at the top of its kernel stack. -/
  kernelStack : Nat → UInt32
  /-- `runnable_queue`. -/
  runnableQueue : Header NodePtr
  /-- `process_queue`. -/
  processQueue : Header NodePtr
  /-- The children list of the current process. -/
  children : Header NodePtr
  /-- The thread list of the current process. -/
  threads : Header NodePtr
  /-- `get_eflags()`. -/
  eflags : UInt32
  /-- The block for the PCB, 0 for `NULL`. -/
  pcbAddr : UInt32
  /-- The block for the TCB, 0 for `NULL`. -/
  tcbAddr : UInt32
  /-- The kernel stack of the new thread, 0 for `NULL`. -/
  stackAddr : UInt32
  /-- The new page directory, 0 for `NULL`. -/
  pdAddr : UInt32
  /-- `find_free_entry` finds one. -/
  freeEntry : Bool
  /-- The page tables and the frames of the new address space are all allocated. -/
  copies : Bool
  /-- The program is there. -/
  elfFound : Bool
  /-- Where it starts. -/
  eip : UInt32

/-! ## The code -/

/-- `THREAD_RUNNING`, `THREAD_INIT`, `PROCESS_RUNNING` and `PROCESS_RUNNABLE`. -/
def threadRunning : Int := 0

@[inherit_doc threadRunning] def threadInit : Int := 4

@[inherit_doc threadRunning] def processRunning : Int := 0

@[inherit_doc threadRunning] def processRunnable : Int := 1

/-- `SEGSEL_USER_DS` and `SEGSEL_USER_CS`. -/
def segselUserDs : UInt32 := 0x2b

@[inherit_doc segselUserDs] def segselUserCs : UInt32 := 0x23

/-- `mutex_init` writes every field. -/
def mutexInit : Mutex := ⟨0, -1, listInit⟩

/-- `list_insert_last`, as far as the header and the new node go. -/
def appendNode (l : Header NodePtr) (j : NodePtr) : Header NodePtr × Node NodePtr :=
  match l.tail with
  | none => (⟨l.length + 1, some j, some j⟩, ⟨none, none⟩)
  | some t => ({ l with tail := some j, length := l.length + 1 }, ⟨some t, none⟩)

/-- `thr_create(eip, run)`, on a block that held `old`. -/
def thrCreate (e : Surroundings) (old : TcbBlock) (run : Bool) : TcbBlock :=
  let tcb := { old with
    tid := e.nextTid
    tcbMutex := mutexInit
    state := threadRunning
    stackSize := 4096
    stackBase := e.stackAddr
    esp := 4096 + e.stackAddr - 4
    registers := { old.registers with
      ds := segselUserDs, es := segselUserDs, fs := segselUserDs, gs := segselUserDs
      edi := 0, esi := 0, ebp := 0xffffffff, ebx := 0, edx := 0, ecx := 0, eax := 0
      eip := e.eip
      cs := segselUserCs
      eflags := ((e.eflags ||| 0x2) &&& ~~~0x40000) ||| 0x200
      esp := 0xffffff10
      ss := segselUserDs } }
  if run then tcb
  else { tcb with
    threadListNode := (appendNode e.runnableQueue (threadListNode e.tcbAddr.toNat)).2
    state := threadInit }

/-- `process_create(filename, run)`: the two blocks it makes, if the program is there. -/
def processCreate (e : Surroundings) (old : OldContents) (run : Bool) :
    Option (PcbBlock × TcbBlock) :=
  if e.elfFound then
    let process := { old.pcb with
      pd := e.pdAddr
      state := processRunnable
      pid := e.nextPid
      returnState := 0
      childrenCount := 0
      parent := 0
      threads := listInit
      children := listInit
      allProcessesNode := (appendNode e.processQueue (allProcessesNode e.pcbAddr.toNat)).2 }
    let thread := thrCreate e old.tcb run
    let t := appendNode process.threads (peerThreadsNode e.tcbAddr.toNat)
    some ({ process with threads := t.1 }, { thread with
      peerThreadsNode := t.2
      pcb := e.pcbAddr
      registers := { thread.registers with esp := thread.registers.esp - 4 - 12 } })
  else none

/-- The registers of the current thread, after those pushed on its kernel stack were stored in
its block. -/
def Surroundings.currentRegisters (e : Surroundings) : Ureg :=
  { e.currentThread.registers with
    ss := e.kernelStack 14, esp := e.kernelStack 13, eflags := e.kernelStack 12
    cs := e.kernelStack 11, eip := e.kernelStack 10, ebp := e.kernelStack 9
    edi := e.kernelStack 8, esi := e.kernelStack 7, edx := e.kernelStack 6
    ecx := e.kernelStack 5, ebx := e.kernelStack 4 }

/-- `sys_fork` gets as far as linking the new blocks to the parent. -/
def Surroundings.forkAllocates (e : Surroundings) : Prop :=
  e.pcbAddr ≠ 0 ∧ e.tcbAddr ≠ 0 ∧ e.freeEntry = true ∧ e.stackAddr ≠ 0

instance (e : Surroundings) : Decidable e.forkAllocates :=
  inferInstanceAs (Decidable (_ ∧ _ ∧ _ ∧ _))

/-- `sys_fork`: the two blocks of the child. -/
def sysFork (e : Surroundings) (old : OldContents) : Option (PcbBlock × TcbBlock) :=
  if e.forkAllocates then
    let t := appendNode listInit (peerThreadsNode e.tcbAddr.toNat)
    let pcb := { old.pcb with
      childrenCount := 0
      threads := t.1
      va := listInit
      children := listInit
      pid := e.nextPid
      state := processRunning
      parent := e.currentThread.pcb
      peerProcessesNode := (appendNode e.children (peerProcessesNode e.pcbAddr.toNat)).2
      pd := e.pdAddr }
    let tcb := { old.tcb with
      tcbMutex := mutexInit
      pcb := e.pcbAddr
      tid := e.nextTid
      state := threadInit
      stackSize := e.currentThread.stackSize
      stackBase := e.stackAddr
      esp := e.stackAddr + e.currentThread.stackSize
      registers := { e.currentRegisters with eax := 0 }
      peerThreadsNode := t.2 }
    -- with the copy unfinished the child stays in the children list of its parent, half made
    if e.pdAddr = 0 ∨ e.copies = false then some (pcb, tcb)
    else some ({ pcb with
        allProcessesNode := (appendNode e.processQueue (allProcessesNode e.pcbAddr.toNat)).2 },
      { tcb with
        threadListNode := (appendNode e.runnableQueue (threadListNode e.tcbAddr.toNat)).2 })
  else none

/-- `sys_thread_fork`: the block of the new thread. -/
def sysThreadFork (e : Surroundings) (old : TcbBlock) : TcbBlock :=
  { old with
    pcb := e.currentThread.pcb
    tid := e.nextTid
    state := threadInit
    stackSize := e.currentThread.stackSize
    stackBase := e.stackAddr
    esp := e.stackAddr + e.currentThread.stackSize
    registers := { e.currentRegisters with eax := 0 }
    peerThreadsNode := (appendNode e.threads (peerThreadsNode e.tcbAddr.toNat)).2
    threadListNode := (appendNode e.runnableQueue (threadListNode e.tcbAddr.toNat)).2 }

/-- The three ways to make control blocks. -/
inductive Creation where
  /-- `process_create`. -/
  | processCreate (run : Bool)
  /-- `sys_fork`. -/
  | fork
  /-- `sys_thread_fork`. -/
  | threadFork

/-- The control blocks that are made, a PCB in two of the three cases. -/
def Creation.blocks (c : Creation) (e : Surroundings) (old : OldContents) :
    Option (Option PcbBlock × TcbBlock) :=
  match c with
  | .processCreate run => (Pebbles.processCreate e old run).map fun r => (some r.1, r.2)
  | .fork => (sysFork e old).map fun r => (some r.1, r.2)
  | .threadFork => some (none, sysThreadFork e old.tcb)

/-- `appendNode` is `list_insert_last`. -/
theorem appendNode_eq (m : Links NodePtr) (l : Header NodePtr) (j : NodePtr) :
    appendNode l j = ((listInsertLast m l (some j)).2, (listInsertLast m l (some j)).1 j) := by
  cases hl : l.tail with
  | none => simp [appendNode, listInsertLast, hl, setNext, setPrev]
  | some t => simp [appendNode, listInsertLast, hl, setNext, setPrev]

/-! ## Old contents -/

/-- The fields of a TCB that are read before they are written again. -/
def TcbBlock.AgreeOnRead (a b : TcbBlock) : Prop :=
  a.tcbMutex = b.tcbMutex ∧ a.swexnInfo = b.swexnInfo

/-- The fields of a PCB that are read before they are written again. -/
def PcbBlock.AgreeOnRead (a b : PcbBlock) : Prop :=
  a.threads = b.threads ∧ a.children = b.children ∧ a.va = b.va ∧
    a.childrenCount = b.childrenCount ∧ a.state = b.state ∧ a.parent = b.parent ∧
    a.returnState = b.returnState

/-- **The blocks made over `old` and over `old'` agree** on what is read of them. -/
def Creation.BlocksAgree (c : Creation) (e : Surroundings) (old old' : OldContents) : Prop :=
  ∀ pcb tcb pcb' tcb', c.blocks e old = some (pcb, tcb) → c.blocks e old' = some (pcb', tcb') →
    tcb.AgreeOnRead tcb' ∧ ∀ p ∈ pcb, ∀ p' ∈ pcb', p.AgreeOnRead p'

/-- The old contents agree on the fields that this way of making blocks leaves unwritten, among
those that are read: the list of regions and the handler in `process_create`, the status and the
handler in `sys_fork`, the mutex and the handler in `sys_thread_fork`. -/
def Creation.LeftoversAgree (c : Creation) (e : Surroundings) (old old' : OldContents) : Prop :=
  match c with
  | .processCreate _ =>
      e.elfFound = true → old.pcb.va = old'.pcb.va ∧ old.tcb.swexnInfo = old'.tcb.swexnInfo
  | .fork =>
      e.forkAllocates → old.pcb.returnState = old'.pcb.returnState ∧
        old.tcb.swexnInfo = old'.tcb.swexnInfo
  | .threadFork => old.tcb.tcbMutex = old'.tcb.tcbMutex ∧ old.tcb.swexnInfo = old'.tcb.swexnInfo

section
variable (e : Surroundings) (old : OldContents)

/-- `thr_create` leaves the handler unwritten. -/
theorem thrCreate_fields (run : Bool) : (thrCreate e old.tcb run).tcbMutex = mutexInit ∧
    (thrCreate e old.tcb run).swexnInfo = old.tcb.swexnInfo := by
  cases run <;> exact ⟨rfl, rfl⟩

/-- What is read of the blocks of `process_create`. -/
theorem processCreate_fields (run : Bool) (h : e.elfFound = true) :
    ∃ p t, processCreate e old run = some (p, t) ∧ t.tcbMutex = mutexInit ∧
      t.swexnInfo = old.tcb.swexnInfo ∧ p.AgreeOnRead { old.pcb with
        threads := (appendNode listInit (peerThreadsNode e.tcbAddr.toNat)).1, children := listInit
        childrenCount := 0, state := processRunnable, parent := 0, returnState := 0 } := by
  refine ⟨_, _, if_pos h, ?_, ?_, ?_⟩
  · exact (thrCreate_fields e old run).1
  · exact (thrCreate_fields e old run).2
  · exact ⟨rfl, rfl, rfl, rfl, rfl, rfl, rfl⟩

/-- What is read of the blocks of `sys_fork`. -/
theorem sysFork_fields (h : e.forkAllocates) :
    ∃ p t, sysFork e old = some (p, t) ∧ t.tcbMutex = mutexInit ∧
      t.swexnInfo = old.tcb.swexnInfo ∧ p.AgreeOnRead { old.pcb with
        threads := (appendNode listInit (peerThreadsNode e.tcbAddr.toNat)).1, children := listInit
        va := listInit, childrenCount := 0, state := processRunning
        parent := e.currentThread.pcb } := by
  rw [sysFork, if_pos h]
  by_cases hc : e.pdAddr = 0 ∨ e.copies = false
  · exact ⟨_, _, if_pos hc, rfl, rfl, rfl, rfl, rfl, rfl, rfl, rfl, rfl⟩
  · exact ⟨_, _, if_neg hc, rfl, rfl, rfl, rfl, rfl, rfl, rfl, rfl, rfl⟩

/-- Without the program `process_create` returns before it makes blocks that anyone reads. -/
theorem processCreate_eq_none {run : Bool} (h : ¬ e.elfFound = true) :
    processCreate e old run = none :=
  if_neg h

/-- Without memory `sys_fork` returns before it links its blocks. -/
theorem sysFork_eq_none (h : ¬ e.forkAllocates) : sysFork e old = none :=
  if_neg h

end

namespace PcbBlock.AgreeOnRead

variable {p q r : PcbBlock}

theorem symm (h : p.AgreeOnRead q) : q.AgreeOnRead p := by
  obtain ⟨h1, h2, h3, h4, h5, h6, h7⟩ := h
  exact ⟨h1.symm, h2.symm, h3.symm, h4.symm, h5.symm, h6.symm, h7.symm⟩

theorem trans (h : p.AgreeOnRead q) (h' : q.AgreeOnRead r) : p.AgreeOnRead r := by
  obtain ⟨h1, h2, h3, h4, h5, h6, h7⟩ := h
  obtain ⟨g1, g2, g3, g4, g5, g6, g7⟩ := h'
  exact ⟨h1.trans g1, h2.trans g2, h3.trans g3, h4.trans g4, h5.trans g5, h6.trans g6,
    h7.trans g7⟩

end PcbBlock.AgreeOnRead

/-- Blocks that exist agree as blocks. -/
theorem Creation.blocksAgree_of_eq {c : Creation} {e : Surroundings} {old old' : OldContents}
    {p p' : Option PcbBlock} {t t' : TcbBlock} (h : c.blocks e old = some (p, t))
    (h' : c.blocks e old' = some (p', t')) :
    c.BlocksAgree e old old' ↔
      t.AgreeOnRead t' ∧ ∀ a ∈ p, ∀ a' ∈ p', PcbBlock.AgreeOnRead a a' := by
  constructor
  · intro hb
    exact hb p t p' t' h h'
  · intro hr a b a' b' ha ha'
    obtain ⟨rfl, rfl⟩ := Prod.mk.inj (Option.some.inj (h.symm.trans ha))
    obtain ⟨rfl, rfl⟩ := Prod.mk.inj (Option.some.inj (h'.symm.trans ha'))
    exact hr

/-- Where no block is made there is nothing to compare. -/
theorem Creation.blocksAgree_of_none {c : Creation} {e : Surroundings} {old old' : OldContents}
    (h : c.blocks e old = none) : c.BlocksAgree e old old' := by
  intro a b a' b' ha
  rw [h] at ha
  cases ha

/-- Blocks with a fresh mutex agree when their handlers do. -/
theorem TcbBlock.agreeOnRead_iff {t t' : TcbBlock} (h : t.tcbMutex = mutexInit)
    (h' : t'.tcbMutex = mutexInit) : t.AgreeOnRead t' ↔ t.swexnInfo = t'.swexnInfo := by
  rw [TcbBlock.AgreeOnRead, h, h']
  exact and_iff_right rfl

/-- **The new blocks agree exactly when the old contents agree on what is left unwritten.** -/
theorem blocksAgree_iff_leftoversAgree (c : Creation) (e : Surroundings) (old old' : OldContents) :
    c.BlocksAgree e old old' ↔ c.LeftoversAgree e old old' := by
  cases c with
  | processCreate run =>
    by_cases he : e.elfFound = true
    · obtain ⟨p, t, h, hm, hs, hp⟩ := processCreate_fields e old run he
      obtain ⟨p', t', h', hm', hs', hp'⟩ := processCreate_fields e old' run he
      have hb : (Creation.processCreate run).blocks e old = some (some p, t) := by
        rw [Creation.blocks, h, Option.map_some]
      have hb' : (Creation.processCreate run).blocks e old' = some (some p', t') := by
        rw [Creation.blocks, h', Option.map_some]
      rw [Creation.blocksAgree_of_eq hb hb', TcbBlock.agreeOnRead_iff hm hm', hs, hs']
      simp only [Option.mem_some_iff, forall_eq', Creation.LeftoversAgree, he, forall_const]
      rw [and_comm]
      refine and_congr_left fun _ => ⟨fun hr => ?_, fun hva => ?_⟩
      · exact (hp.symm.trans (hr.trans hp')).2.2.1
      · refine hp.trans (PcbBlock.AgreeOnRead.trans ?_ hp'.symm)
        exact ⟨rfl, rfl, hva, rfl, rfl, rfl, rfl⟩
    · refine iff_of_true (Creation.blocksAgree_of_none ?_) fun h => absurd h he
      rw [Creation.blocks, processCreate_eq_none e old he, Option.map_none]
  | fork =>
    by_cases he : e.forkAllocates
    · obtain ⟨p, t, h, hm, hs, hp⟩ := sysFork_fields e old he
      obtain ⟨p', t', h', hm', hs', hp'⟩ := sysFork_fields e old' he
      have hb : Creation.fork.blocks e old = some (some p, t) := by
        rw [Creation.blocks, h, Option.map_some]
      have hb' : Creation.fork.blocks e old' = some (some p', t') := by
        rw [Creation.blocks, h', Option.map_some]
      rw [Creation.blocksAgree_of_eq hb hb', TcbBlock.agreeOnRead_iff hm hm', hs, hs']
      simp only [Option.mem_some_iff, forall_eq', Creation.LeftoversAgree, he, forall_const]
      rw [and_comm]
      refine and_congr_left fun _ => ⟨fun hr => ?_, fun hret => ?_⟩
      · exact (hp.symm.trans (hr.trans hp')).2.2.2.2.2.2
      · refine hp.trans (PcbBlock.AgreeOnRead.trans ?_ hp'.symm)
        exact ⟨rfl, rfl, rfl, rfl, rfl, rfl, hret⟩
    · refine iff_of_true (Creation.blocksAgree_of_none ?_) fun h => absurd h he
      rw [Creation.blocks, sysFork_eq_none e old he, Option.map_none]
  | threadFork =>
    -- neither the mutex nor the handler is written, and no PCB is made
    have hb (o : OldContents) : Creation.threadFork.blocks e o =
        some (none, sysThreadFork e o.tcb) := rfl
    rw [Creation.blocksAgree_of_eq (hb old) (hb old')]
    simp only [Option.not_mem_none, false_imp_iff, implies_true, and_true,
      Creation.LeftoversAgree]
    exact Iff.rfl

/-! ## Blocks that were used before -/

/-- A block of zeros for a PCB, as the heap has it before its first use. -/
def zeroPcb : PcbBlock :=
  ⟨0, 0, 0, 0, listInit, listInit, ⟨none, none⟩, ⟨none, none⟩, 0, 0, listInit⟩

/-- A block of zeros for a TCB. -/
def zeroTcb : TcbBlock :=
  ⟨0, 0, 0, 0, 0, 0, 0, 0, ⟨0, 0, 0, 0, 0, 0, 0, 0, 0, 0, 0, 0, 0, 0, 0, 0, 0, 0, 0, 0⟩,
    ⟨none, none⟩, ⟨none, none⟩, ⟨none, none⟩, ⟨0, 0, listInit⟩, ⟨0, 0, 0, 0, 0, 0⟩⟩

/-- The kernel with one running thread, where every allocation succeeds. -/
def quietSurroundings : Surroundings where
  nextTid := 2
  nextPid := 2
  currentThread := { zeroTcb with pcb := 0x300000, tid := 1, stackBase := 0x200000,
                                  stackSize := 4096 }
  kernelStack := fun _ => 0
  runnableQueue := listInit
  processQueue := listInit
  children := listInit
  threads := listInit
  eflags := 0
  pcbAddr := 0x301000
  tcbAddr := 0x302000
  stackAddr := 0x303000
  pdAddr := 0x304000
  freeEntry := true
  copies := true
  elfFound := true
  eip := 0x1000000

/-- Heap blocks on their first use. -/
def freshHeap : OldContents := ⟨zeroPcb, zeroTcb⟩

/-- Blocks that an earlier process left: it had a handler installed and its mutex held, it exited
with a status, and its list of regions has a member. -/
def usedHeap : OldContents where
  pcb := { zeroPcb with returnState := -2, va := ⟨1, some (allProcessesNode 7),
                                                  some (allProcessesNode 7)⟩ }
  tcb := { zeroTcb with tcbMutex := ⟨1, 3, listInit⟩
                        swexnInfo := ⟨0xfffff000, 0x1000100, 0, 0, 1, 0⟩ }

/-- **A new block has the handler of the thread that had the memory before it**, in each of the
three places. -/
theorem used_heap_shows_in_new_blocks :
    ¬ (Creation.processCreate true).BlocksAgree quietSurroundings freshHeap usedHeap ∧
      ¬ Creation.fork.BlocksAgree quietSurroundings freshHeap usedHeap ∧
      ¬ Creation.threadFork.BlocksAgree quietSurroundings freshHeap usedHeap := by
  have hne : freshHeap.tcb.swexnInfo ≠ usedHeap.tcb.swexnInfo := by decide
  refine ⟨fun h => ?_, fun h => ?_, fun h => ?_⟩
  · exact hne (h _ _ _ _ rfl rfl).1.2
  · exact hne (h _ _ _ _ rfl rfl).1.2
  · exact hne (h _ _ _ _ rfl rfl).1.2

end Pebbles
