import Pebbles.Memory.PageTables
import Pebbles.Process.LifeCycle

/-! # Address spaces

The system calls that change address spaces, as far as page tables go: `sys_new_pages` and
`sys_remove_pages` (`kern/memory/sys_memory_management.c`), `sys_fork` (`kern/process/sys_fork.c`),
`sys_exec` with `program_loader` (`kern/process/sys_exec.c`, `process.c`), the reaping of
`sys_wait` and the exit of a process (`sys_life_cycle.c`), and the boot of the kernel.

Every process has one thread. What a system call reads of user memory other than through the page
tables is an argument here: whether the program named by `exec` is there, with its header, and
whether its argument vector is short enough. The failures of `sys_fork` before it asks for a page
directory leave the address spaces as they are, so they are not steps of their own. -/

namespace Pebbles.Memory

open Kernel (isUserAddr)

/-! ## The data -/

/-- A region of memory made by `new_pages` (`VA_INFO`). -/
structure VaInfo where
  /-- The address of the first page. -/
  virtualAddr : Nat
  /-- The length in bytes, a non-negative `int`. -/
  len : Nat
  deriving DecidableEq

/-- What the system calls here use of a process control block. -/
structure AddressSpace where
  /-- `PD`: the page directory, 0 for `NULL`. -/
  pd : Nat
  /-- `va`: the regions made by `new_pages`. -/
  va : List VaInfo
  /-- `children`: the forked processes, oldest first. -/
  children : List Nat
  /-- The state is `PROCESS_EXIT`. -/
  exited : Bool
  /-- The thread of the process was put on a queue: `sys_fork` ran to its end. -/
  scheduled : Bool

/-- The memory with the processes that use it. -/
structure Vm where
  /-- The memory. -/
  memory : PhysMem
  /-- The control block of each process that exists. -/
  spaces : Nat → Option AddressSpace
  /-- The process of the running thread. -/
  current : Nat
  /-- `next_pid`. -/
  nextPid : Nat

/-- The segments of a program (`simple_elf_t`). -/
structure ElfHeader where
  /-- `e_txtstart`. -/
  txtStart : UInt32
  /-- `e_txtlen`. -/
  txtLen : UInt32
  /-- `e_rodatstart`. -/
  rodatStart : UInt32
  /-- `e_rodatlen`. -/
  rodatLen : UInt32
  /-- `e_bssstart`. -/
  bssStart : UInt32
  /-- `e_bsslen`. -/
  bssLen : UInt32
  /-- `e_datstart`. -/
  datStart : UInt32
  /-- `e_datlen`. -/
  datLen : UInt32

/-- The system calls and the switches. -/
inductive Call where
  /-- `new_pages(addr, len)`. -/
  | newPages (addr : UInt32) (len : Int32)
  /-- `remove_pages(addr)`. -/
  | removePages (addr : UInt32)
  /-- `fork()`. -/
  | fork
  /-- `exec(execname, argvec)`, with the program found and whether the arguments fit. -/
  | exec (execname argvec : UInt32) (program : Option ElfHeader) (argsFit : Bool)
  /-- `wait()`: one scan of the children. -/
  | wait
  /-- `vanish()`; the process `next` goes on. -/
  | vanish (next : Nat)
  /-- `context_switch` to the process `next`. -/
  | contextSwitch (next : Nat)

/-- A call with the answers `memalign` gives while it runs. -/
structure Event where
  /-- The call. -/
  call : Call
  /-- The answers. -/
  answers : List Answer

namespace Vm

/-- The control block of the running process. -/
def currentSpace (s : Vm) : Option AddressSpace := s.spaces s.current

/-- Write the control block of the process `p`. -/
def setSpace (s : Vm) (p : Nat) (a : AddressSpace) : Vm :=
  { s with spaces := Function.update s.spaces p (some a) }

/-- Write the memory. -/
def setMemory (s : Vm) (m : PhysMem) : Vm := { s with memory := m }

end Vm

/-! ## `new_pages` and `remove_pages` -/

/-- `addr_has_mapping`, for the page directory `pd`. -/
def addrHasMapping (m : PhysMem) (pd addr : Nat) : Bool :=
  addr ≠ 0 ∧ pd ≠ 0 ∧ deflagAddr (m.words pd (vaPdInd addr)) ≠ 0 ∧
    deflagAddr (m.words (deflagAddr (m.words pd (vaPdInd addr))) (vaPtInd addr)) ≠ 0

/-- The address of page `i` of a request, `(uint32_t)addr + PAGE_SIZE * i`. -/
def curAddr (addr i : Nat) : Nat := (addr + pageSize * i) % 2 ^ 32

/-- The loop of `sys_new_pages` that looks for a page that is mapped already. -/
def noneMapped (m : PhysMem) (pd addr requestedPageNum : Nat) : Bool :=
  (List.range requestedPageNum).all fun i =>
    let pt := deflagAddr (m.words pd (vaPdInd (curAddr addr i)))
    pt = 0 ∨ deflagAddr (m.words pt (vaPtInd (curAddr addr i))) = 0

/-- The checks of `sys_new_pages`. -/
def newPagesChecks (m : PhysMem) (pd addr : Nat) (len : Int) : Bool :=
  isUserAddr addr ∧ addr &&& 0xfff = 0 ∧ 0 ≤ len ∧ len.toNat &&& 0xfff = 0 ∧
    len / 4096 ≤ m.frames.freeFrameNum ∧ noneMapped m pd addr (len / 4096).toNat

/-- `sys_new_pages`. -/
def Vm.sysNewPages (s : Vm) (addr : UInt32) (len : Int32) : Option (Vm × Int) :=
  s.currentSpace.bind fun a =>
    if newPagesChecks s.memory a.pd addr.toNat len.toInt then
      (allocatePages s.memory a.pd addr.toNat len.toInt.toNat).map fun m =>
        ((s.setMemory m).setSpace s.current
          { a with va := a.va ++ [⟨addr.toNat, len.toInt.toNat⟩] }, 0)
    else some (s, -1)

/-- `sys_remove_pages`. -/
def Vm.sysRemovePages (s : Vm) (addr : UInt32) : Option (Vm × Int) :=
  s.currentSpace.bind fun a =>
    let pt := deflagAddr (s.memory.words a.pd (vaPdInd addr.toNat))
    let physAddrRaw := s.memory.words pt (vaPtInd addr.toNat)
    if isUserAddr addr.toNat = false then some (s, -1)
    else if addr.toNat &&& 0xfff ≠ 0 then some (s, -1)
    else if addrHasMapping s.memory a.pd addr.toNat = false then some (s, -1)
    else if physAddrRaw &&& 0x7 ≠ 0x7 then some (s, -1)
    else
      match a.va.find? fun r => r.virtualAddr = addr.toNat with
      | none => some (s, -1)
      | some r =>
          (freePages s.memory a.pd addr.toNat r.len).map fun m =>
            ((s.setMemory (m.setCr3 a.pd)).setSpace s.current { a with va := a.va.erase r }, 0)

/-! ## `fork`, `exec`, `wait`, `vanish` -/

/-- `sys_fork` from its call of `find_free_entry` on. The child enters the children list before
its page directory exists, and gets a thread on the runnable queue only at the end. -/
def Vm.sysFork (s : Vm) : Option (Vm × Int) :=
  s.currentSpace.bind fun a =>
    match findFreeEntry s.memory a.pd with
    | none => some (s, -1)
    | some entry =>
        let child := s.nextPid
        let s1 := { s with nextPid := s.nextPid + 1 }.setSpace s.current
          { a with children := a.children ++ [child] }
        let blank : AddressSpace := ⟨0, [], [], false, false⟩
        s.memory.memalign.bind fun (pd, m) =>
          if pd = 0 then some ((s1.setMemory m).setSpace child blank, -1)
          else
            (copySpace a.pd entry pd m).map fun (done, m) =>
              ((s1.setMemory m).setSpace child { blank with pd := pd, scheduled := done },
                if done then child else -1)

/-- `program_loader`: the text, the constants, the zeros, the data and two pages of stack. -/
def programLoader (h : ElfHeader) (m : PhysMem) (pd : Nat) : Option PhysMem :=
  -- `assert(result > 0)`, where `result` sums up what `getbytes` has copied
  if 0 < (h.datLen + h.txtLen + h.rodatLen).toInt32.toInt then
    (allocatePages m pd h.txtStart.toNat h.txtLen.toNat).bind fun m =>
      (allocatePages m pd h.rodatStart.toNat h.rodatLen.toNat).bind fun m =>
        (allocatePages m pd h.bssStart.toNat h.bssLen.toNat).bind fun m =>
          (allocatePages m pd h.datStart.toNat h.datLen.toNat).bind fun m =>
            allocatePages m pd 0xffffe000 8192
  else none

/-- The checks of `sys_exec`, with the header of the program found. -/
def execAccepts (m : PhysMem) (pd execname argvec : Nat) (program : Option ElfHeader)
    (argsFit : Bool) : Option ElfHeader :=
  if isUserAddr execname && addrHasMapping m pd execname && isUserAddr argvec &&
      addrHasMapping m pd argvec && argsFit then program
  else none

/-- `sys_exec`. The page directory of the process is replaced by a new one. -/
def Vm.sysExec (s : Vm) (execname argvec : UInt32) (program : Option ElfHeader)
    (argsFit : Bool) : Option (Vm × Int) :=
  s.currentSpace.bind fun a =>
    match execAccepts s.memory a.pd execname.toNat argvec.toNat program argsFit with
    | none => some (s, -1)
    | some h =>
        (initPd s.memory).bind fun (pd, m) =>
          (programLoader h m pd).map fun m =>
            ((s.setMemory m).setSpace s.current { a with pd := pd }, 0)

/-- The process `p` is in the state `PROCESS_EXIT`. -/
def Vm.hasExited (s : Vm) (p : Nat) : Bool := (s.spaces p).any AddressSpace.exited

/-- One scan of the children list in `sys_wait`: the first child that has exited is reaped. -/
def Vm.sysWait (s : Vm) : Option (Vm × Int) :=
  s.currentSpace.bind fun a =>
    match a.children.find? s.hasExited with
    | none => some (s, -1)
    | some c =>
        (s.spaces c).bind fun b =>
          (destroyPageDirectory s.memory b.pd).map fun m =>
            let s1 := (s.setMemory (m.sfree b.pd)).setSpace s.current
              { a with children := a.children.erase c }
            ({ s1 with spaces := Function.update s1.spaces c none }, c)

/-- `context_switch` to the process `next`, which has a thread that can run. -/
def Vm.contextSwitch (s : Vm) (next : Nat) : Option Vm :=
  (s.spaces next).bind fun b =>
    if b.scheduled ∧ b.exited = false then
      some { s.setMemory (s.memory.setCr3 b.pd) with current := next }
    else none

/-- `sys_vanish` of the only thread of the process. -/
def Vm.sysVanish (s : Vm) (next : Nat) : Option Vm :=
  s.currentSpace.bind fun a => (s.setSpace s.current { a with exited := true }).contextSwitch next

/-! ## The system -/

/-- The code of one call. -/
def Vm.code (s : Vm) : Call → Option (Vm × Int)
  | .newPages addr len => s.sysNewPages addr len
  | .removePages addr => s.sysRemovePages addr
  | .fork => s.sysFork
  | .exec execname argvec program argsFit => s.sysExec execname argvec program argsFit
  | .wait => s.sysWait
  | .vanish next => (s.sysVanish next).map fun s => (s, 0)
  | .contextSwitch next => (s.contextSwitch next).map fun s => (s, 0)

/-- The answers of `memalign` lie ready. -/
def Vm.supply (s : Vm) (answers : List Answer) : Vm :=
  s.setMemory { s.memory with answers := answers }

/-- **One step**: a call that uses up its answers, with the value it returns. -/
def Vm.step (s : Vm) (e : Event) : Option (Vm × Int) :=
  ((s.supply e.answers).code e.call).bind fun r =>
    if r.1.memory.answers.isEmpty then some r else none

/-! ## Boot -/

/-- `mm_init`: the frame table, the page directory of the kernel and its four page tables, which
map the first 4096 frames. -/
def mmInit (m : PhysMem) : Option PhysMem :=
  (m.setFrames (initFreeFrame totalPhysFrames)).memalign.bind fun (kernPd, m) =>
    (List.range 4).foldlM (fun m i =>
      m.memalign.bind fun (currentPt, m) =>
        ((List.range pageLen).foldlM (fun m j =>
          (acquireFreeFrame m.frames).map fun (k, frames) =>
            (m.setFrames frames).write currentPt j (addFlag k 0x103)) m).map fun m =>
          m.write kernPd i (addFlag currentPt 0x107)) (m.setCr3 kernPd)

/-- `process_create`. The list of regions is taken to start empty. -/
def Vm.processCreate (s : Vm) (h : ElfHeader) : Option Vm :=
  (initPd s.memory).bind fun (pd, m) =>
    (programLoader h m pd).map fun m =>
      { ({ s with nextPid := s.nextPid + 1 }.setMemory m).setSpace s.nextPid
          ⟨pd, [], [], false, true⟩ with current := s.nextPid }

/-- The memory before `mm_init`, with the answers `memalign` is going to give. -/
def rawMemory (answers : List Answer) : PhysMem :=
  ⟨initFreeFrame totalPhysFrames, fun _ _ => 0, ∅, answers, 0⟩

/-- **Boot**: `mm_init`, then `idle` and `init` are created, and `init` runs. -/
def boot (idle init : ElfHeader) (answers : List Answer) : Option Vm :=
  (mmInit (rawMemory answers)).bind fun m =>
    ((Vm.mk m (fun _ => none) 0 1).processCreate idle).bind fun s =>
      (s.processCreate init).bind fun s =>
        if s.memory.answers.isEmpty then some s else none

end Pebbles.Memory
