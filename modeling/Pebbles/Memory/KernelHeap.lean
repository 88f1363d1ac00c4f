import Pebbles.Memory.AddressSpaces
import Pebbles.Library.Runs

/-! # The blocks of the kernel heap

The system calls of `AddressSpaces` with all blocks that they take from the kernel heap and give
back: besides page directories and page tables these are control blocks, kernel stacks and the
`VA_INFO` nodes of `sys_new_pages`. The wrappers of `kern/malloc_wrappers.c` lead to two families
of allocators (`410kern/malloc`): a block of `malloc` or `memalign` is to be released by `free`, and
a block of `smalloc` or `smemalign` by `sfree` with its size.

Which addresses the allocators answer is a parameter, as in `PageTables`; 0 is `NULL`. -/

namespace Pebbles.Memory

open Transition

/-! ## Blocks -/

/-- The families of allocators. -/
inductive Allocator where
  /-- `malloc` and `memalign`, which put the size in front of the block. -/
  | sizeKept
  /-- `smalloc` and `smemalign`, which leave the size to the caller. -/
  | sizeGiven
  deriving DecidableEq

/-- An allocated block. -/
structure Block where
  /-- The address. -/
  address : Nat
  /-- The size that was asked for. -/
  size : Nat
  /-- Where it comes from. -/
  allocator : Allocator
  deriving DecidableEq

/-- A release of a block. -/
inductive Release where
  /-- `free(address)`. -/
  | free (address : Nat)
  /-- `sfree(address, size)`. -/
  | sfree (address size : Nat)
  deriving DecidableEq

/-- The address that is released. -/
def Release.address : Release → Nat
  | free address | sfree address _ => address

/-- The release is the one that belongs to the allocator of the block. -/
def Release.Matches (b : Block) : Release → Prop
  | free _ => b.allocator = .sizeKept
  | sfree _ size => b.allocator = .sizeGiven ∧ size = b.size

/-- The sizes of `PCB`, `TCB` and `VA_INFO`. -/
def sizeofPcb : Nat := 76

@[inherit_doc sizeofPcb] def sizeofTcb : Nat := 180

@[inherit_doc sizeofPcb] def sizeofVaInfo : Nat := 16

/-- Page directories and page tables all come from `memalign`. -/
def pageBlock (address : Nat) : Block := ⟨address, pageSize, .sizeKept⟩

/-! ## The state -/

/-- The blocks of a thread. -/
structure ThreadBlocks where
  /-- `tid`. -/
  tid : Nat
  /-- The address of the `TCB`. -/
  tcb : Nat
  /-- `stack_base`. -/
  stackBase : Nat
  /-- `stack_size`. -/
  stackSize : Nat
  deriving DecidableEq

/-- The blocks of a process, other than its pages. -/
structure TaskBlocks where
  /-- The address of the `PCB`. -/
  pcb : Nat
  /-- `threads`. -/
  threads : List ThreadBlocks
  deriving DecidableEq

/-- The address spaces with the kernel heap. -/
structure HeapVm where
  /-- The address spaces, with the page-aligned blocks. -/
  vm : Vm
  /-- The other blocks in use. -/
  small : List Block
  /-- The control blocks of the processes. -/
  tasks : Nat → Option TaskBlocks
  /-- `current_thread->tid`. -/
  tid : Nat
  /-- `next_tid`. -/
  nextTid : Nat
  /-- The answers the allocators are going to give, other than for pages. -/
  answers : List Nat
  /-- The releases so far, with the blocks released. -/
  released : List (Block × Release)

/-- A system call of `AddressSpaces` that takes or gives back blocks, or switches. -/
inductive HeapCall where
  /-- `new_pages(addr, len)`. -/
  | newPages (addr : UInt32) (len : Int32)
  /-- `remove_pages(addr)`. -/
  | removePages (addr : UInt32)
  /-- `fork()`. -/
  | fork
  /-- `wait()`: one scan of the children. -/
  | wait
  /-- `vanish()`; the process `next` goes on. -/
  | vanish (next : Nat)
  /-- `context_switch` to the process `next`. -/
  | contextSwitch (next : Nat)

/-- A call with the answers of the allocators while it runs. -/
structure HeapEvent where
  /-- The call. -/
  call : HeapCall
  /-- The answers for pages. -/
  pages : List Answer
  /-- The other answers. -/
  blocks : List Nat

namespace HeapVm

/-- **The allocated blocks.** -/
def blocks (h : HeapVm) : Set Block :=
  {b | b ∈ h.small ∨ ∃ a ∈ h.vm.memory.heap, b = pageBlock a}

/-- The addresses in use. -/
def InUse (h : HeapVm) (address : Nat) : Prop :=
  address ∈ h.small.map Block.address ∨ address ∈ h.vm.memory.heap

instance (h : HeapVm) (address : Nat) : Decidable (h.InUse address) :=
  inferInstanceAs (Decidable (_ ∨ _))

/-! ## The allocators -/

/-- `malloc(size)`, or `memalign` of anything but a page. There is no result when the next answer is
not one that the allocator can give. -/
def malloc (h : HeapVm) (size : Nat) : Option (Nat × HeapVm) :=
  match h.answers with
  | [] => none
  | address :: rest =>
      if address = 0 then some (0, { h with answers := rest })
      else if h.InUse address then none
      else some (address, { h with
        answers := rest
        small := ⟨address, size, .sizeKept⟩ :: h.small })

/-- `free` or `sfree` of a block other than a page. There is no result when there is no block. -/
def release (h : HeapVm) (r : Release) : Option HeapVm :=
  (h.small.find? fun b => b.address = r.address).map fun b =>
    { h with small := h.small.erase b, released := h.released ++ [(b, r)] }

/-- The page-aligned blocks that are released one after the other by `sfree(address, PAGE_SIZE)`. -/
def logPages (h : HeapVm) (addresses : List Nat) : HeapVm :=
  { h with released := h.released ++
      addresses.map fun a => (pageBlock a, Release.sfree a pageSize) }

/-- Write the address spaces. -/
def setVm (h : HeapVm) (vm : Vm) : HeapVm := { h with vm := vm }

/-- Write the control blocks of the process `p`. -/
def setTask (h : HeapVm) (p : Nat) (t : Option TaskBlocks) : HeapVm :=
  { h with tasks := Function.update h.tasks p t }

/-- `current_thread`. -/
def currentThread (h : HeapVm) : Option ThreadBlocks :=
  (h.tasks h.vm.current).bind fun t => t.threads.find? fun th => th.tid = h.tid

/-- The thread of the process that was switched to. -/
def setThread (h : HeapVm) : Option HeapVm :=
  (h.tasks h.vm.current).bind fun t => t.threads.head?.map fun th => { h with tid := th.tid }

/-! ## The system calls -/

/-- `sys_new_pages`. The result of `malloc` is used as it comes; a store through `NULL` is
undefined behaviour. -/
def sysNewPages (h : HeapVm) (addr : UInt32) (len : Int32) : Option (HeapVm × Int) :=
  (h.vm.sysNewPages addr len).bind fun (vm, result) =>
    if result = 0 then
      ((h.setVm vm).malloc sizeofVaInfo).bind fun (vaInfo, h) =>
        if vaInfo = 0 then none else some (h, 0)
    else some (h.setVm vm, result)

/-- `sys_remove_pages`. The node of the region leaves the list `va`; its block is not released. -/
def sysRemovePages (h : HeapVm) (addr : UInt32) : Option (HeapVm × Int) :=
  (h.vm.sysRemovePages addr).map fun (vm, result) => (h.setVm vm, result)

/-- `sys_fork`: the control blocks, `find_free_entry`, the kernel stack, and the address space. -/
def sysFork (h : HeapVm) : Option (HeapVm × Int) :=
  (h.malloc sizeofPcb).bind fun (pcb, h) =>
    if pcb = 0 then some (h, -1)
    else
      (h.malloc sizeofTcb).bind fun (tcb, h) =>
        if tcb = 0 then some (h, -1)
        else
          h.vm.currentSpace.bind fun a =>
            match findFreeEntry h.vm.memory a.pd with
            | none => some (h, -1)
            | some _ =>
                h.currentThread.bind fun parent =>
                  let tid := h.nextTid
                  ({ h with nextTid := h.nextTid + 1 }.malloc parent.stackSize).bind
                    fun (stackBase, h) =>
                      if stackBase = 0 then some (h, -1)
                      else h.vm.sysFork.map fun (vm, result) =>
                        ((h.setTask h.vm.nextPid
                          (some ⟨pcb, [⟨tid, tcb, stackBase, parent.stackSize⟩]⟩)).setVm vm, result)

/-- The loop of `sys_vanish` over the threads of the process: all but the current one are
released. -/
def reapPeers (h : HeapVm) (threads : List ThreadBlocks) : Option HeapVm :=
  threads.foldlM (fun h th =>
    if th.tid = h.tid then some h
    else (h.release (.sfree th.stackBase th.stackSize)).bind fun h => h.release (.free th.tcb)) h

/-- `sys_vanish` of the last thread of the process. -/
def sysVanish (h : HeapVm) (next : Nat) : Option HeapVm :=
  (h.tasks h.vm.current).bind fun t =>
    (h.reapPeers t.threads).bind fun h =>
      (h.vm.sysVanish next).bind fun vm => (h.setVm vm).setThread

/-- The page tables that `destroy_page_directory` releases. -/
def pageTables (m : PhysMem) (pd : Nat) : List Nat :=
  ((List.range' 4 1020).filter fun i => m.words pd i ≠ 0).map fun i => deflagAddr (m.words pd i)

/-- One scan of the children list in `sys_wait`: of the first child that has exited, the page
tables, the page directory and the `PCB` are released. -/
def sysWait (h : HeapVm) : Option (HeapVm × Int) :=
  h.vm.sysWait.bind fun (vm, result) =>
    if result = -1 then some (h.setVm vm, -1)
    else
      (h.vm.spaces result.toNat).bind fun b =>
        (h.tasks result.toNat).bind fun t =>
          ((((h.logPages (pageTables h.vm.memory b.pd ++ [b.pd])).setVm vm).setTask result.toNat
            none).release (.free t.pcb)).map fun h => (h, result)

/-- `context_switch`. -/
def contextSwitch (h : HeapVm) (next : Nat) : Option HeapVm :=
  (h.vm.contextSwitch next).bind fun vm => (h.setVm vm).setThread

/-- The code of one call. -/
def code (h : HeapVm) : HeapCall → Option (HeapVm × Int)
  | .newPages addr len => h.sysNewPages addr len
  | .removePages addr => h.sysRemovePages addr
  | .fork => h.sysFork
  | .wait => h.sysWait
  | .vanish next => (h.sysVanish next).map fun h => (h, 0)
  | .contextSwitch next => (h.contextSwitch next).map fun h => (h, 0)

/-- The answers of the allocators lie ready. -/
def supply (h : HeapVm) (e : HeapEvent) : HeapVm :=
  { h with vm := h.vm.supply e.pages, answers := e.blocks }

/-- The answers for pages are not in use otherwise. -/
def PagesFree (h : HeapVm) (e : HeapEvent) : Prop :=
  ∀ a ∈ e.pages, a.address ∉ h.small.map Block.address ∧ a.address ∉ e.blocks.filter (· ≠ 0)

instance (h : HeapVm) (e : HeapEvent) : Decidable (h.PagesFree e) :=
  inferInstanceAs (Decidable (∀ a ∈ e.pages, _ ∧ _))

/-- **One step**: a call that uses up its answers, with the value it returns. -/
def step (h : HeapVm) (e : HeapEvent) : Option (HeapVm × Int) :=
  if h.PagesFree e then
    ((h.supply e).code e.call).bind fun r =>
      if r.1.vm.memory.answers.isEmpty ∧ r.1.answers.isEmpty then some r else none
  else none

/-- The steps as a relation. -/
def Step (h : HeapVm) (e : HeapEvent) (h' : HeapVm) : Prop := ∃ r, h.step e = some (h', r)

/-! ## The start -/

/-- The addresses of the blocks that `process_create` and `thr_create` take. -/
structure CreatedBlocks where
  /-- The `PCB`. -/
  pcb : Nat
  /-- The `TCB`. -/
  tcb : Nat
  /-- The kernel stack. -/
  stack : Nat

/-- The blocks of a created process, its kernel stack from `smemalign`. -/
def CreatedBlocks.list (c : CreatedBlocks) : List Block :=
  [⟨c.pcb, sizeofPcb, .sizeKept⟩, ⟨c.tcb, sizeofTcb, .sizeKept⟩, ⟨c.stack, 4096, .sizeGiven⟩]

/-- The control blocks of a created process. -/
def CreatedBlocks.task (c : CreatedBlocks) (tid : Nat) : TaskBlocks :=
  ⟨c.pcb, [⟨tid, c.tcb, c.stack, 4096⟩]⟩

/-- **After the creation of `idle` and `init`**, which are the processes and threads 1 and 2. -/
def start (vm : Vm) (idle init : CreatedBlocks) : HeapVm where
  vm := vm
  small := idle.list ++ init.list
  tasks := Function.update (Function.update (fun _ => none) 1 (some (idle.task 1))) 2
    (some (init.task 2))
  tid := 2
  nextTid := 3
  answers := []
  released := []

end HeapVm

end Pebbles.Memory
