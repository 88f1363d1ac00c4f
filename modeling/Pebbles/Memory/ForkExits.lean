import Pebbles.Memory.HeapCycle
import Pebbles.Memory.Paging

/-! # The exits of a failed fork

`sys_fork` (`kern/process/sys_fork.c`) returns -1 in six places: when there is no `PCB`, no `TCB`,
no free entry, no kernel stack, no page directory, and when the copy of the address space stops. No
exit undoes what was done before it: `StoppedAt` says what each of them leaves behind, and
`failedFork_iff` that only the first one leaves everything as it was. -/

namespace Pebbles.Memory

/-! ## The call -/

/-- The kernel heap with the queues that `sys_fork` puts the child on. -/
structure ForkingVm where
  /-- The address spaces, with the blocks of the kernel heap. -/
  heap : HeapVm
  /-- `children_count` of each process. -/
  childrenCount : Nat → Int
  /-- `process_queue`: the pids, in order. -/
  processQueue : List Nat
  /-- `runnable_queue`: the tids, in order. -/
  runnableQueue : List Nat

namespace ForkingVm

/-- The child is in the list of the parent's children, and `children_count` is one more. -/
def link (s : ForkingVm) (h : HeapVm) (a : AddressSpace) (task : TaskBlocks) : ForkingVm :=
  let child := h.vm.nextPid
  let parent := h.vm.current
  { s with
    heap := (h.setTask child (some task)).setVm ({ h.vm with nextPid := child + 1 }.setSpace parent
      { a with children := a.children ++ [child] })
    childrenCount := Function.update (Function.update s.childrenCount child 0) parent
      (s.childrenCount parent + 1) }

/-- The memory and the page directory of the child, 0 for `NULL`. -/
def setChild (s : ForkingVm) (child : Nat) (m : PhysMem) (pd : Nat) (scheduled : Bool) :
    ForkingVm :=
  { s with
    heap := s.heap.setVm ((s.heap.vm.setMemory m).setSpace child ⟨pd, [], [], false, scheduled⟩) }

/-- `sys_fork`, with all its exits. -/
def sysFork (s : ForkingVm) : Option (ForkingVm × Int) :=
  (s.heap.malloc sizeofPcb).bind fun (pcb, h) =>
    if pcb = 0 then some ({ s with heap := h }, -1)
    else
      (h.malloc sizeofTcb).bind fun (tcb, h) =>
        if tcb = 0 then some ({ s with heap := h }, -1)
        else
          h.vm.currentSpace.bind fun a =>
            match findFreeEntry h.vm.memory a.pd with
            | none => some ({ s with heap := h }, -1)
            | some entry =>
                h.currentThread.bind fun parent =>
                  let tid := h.nextTid
                  ({ h with nextTid := h.nextTid + 1 }.malloc parent.stackSize).bind
                    fun (stackBase, h) =>
                      if stackBase = 0 then some ({ s with heap := h }, -1)
                      else
                        let child := h.vm.nextPid
                        let s := s.link h a ⟨pcb, [⟨tid, tcb, stackBase, parent.stackSize⟩]⟩
                        h.vm.memory.memalign.bind fun (pd, m) =>
                          if pd = 0 then some (s.setChild child m 0 false, -1)
                          else
                            (copySpace a.pd entry pd m).map fun (done, m) =>
                              let s := s.setChild child m pd done
                              if done then
                                ({ s with
                                  processQueue := s.processQueue ++ [child]
                                  runnableQueue := s.runnableQueue ++ [tid] }, child)
                              else (s, -1)

end ForkingVm

/-- **A failed call has changed nothing.** -/
structure Unchanged (s s' : ForkingVm) : Prop where
  /-- The parent's children. -/
  children : s'.heap.vm.currentSpace.map AddressSpace.children
    = s.heap.vm.currentSpace.map AddressSpace.children
  /-- `children_count` of the parent. -/
  count : s'.childrenCount s.heap.vm.current = s.childrenCount s.heap.vm.current
  /-- The parent's page tables. -/
  tables : ∀ a, s.heap.vm.currentSpace = some a →
    ∀ k, s'.heap.vm.memory.words a.pd k = s.heap.vm.memory.words a.pd k ∧
      (4 ≤ k → k < pageLen → s.heap.vm.memory.words a.pd k ≠ 0 → ∀ j,
        s'.heap.vm.memory.words (deflagAddr (s.heap.vm.memory.words a.pd k)) j
          = s.heap.vm.memory.words (deflagAddr (s.heap.vm.memory.words a.pd k)) j)
  /-- The allocated blocks. -/
  blocks : s'.heap.blocks = s.heap.blocks
  /-- The counts of the frames. -/
  refcount : ∀ f, s'.heap.vm.memory.frames.refcount f = s.heap.vm.memory.frames.refcount f
  /-- `free_frame_num`. -/
  freeFrameNum : s'.heap.vm.memory.frames.freeFrameNum = s.heap.vm.memory.frames.freeFrameNum
  /-- `process_queue`. -/
  processQueue : s'.processQueue = s.processQueue
  /-- `runnable_queue`. -/
  runnableQueue : s'.runnableQueue = s.runnableQueue

/-! ## The exits -/

/-- The places where `sys_fork` returns -1. -/
inductive Exit where
  /-- No `PCB`. -/
  | pcb
  /-- No `TCB`. -/
  | tcb
  /-- No free entry in the parent's page tables. -/
  | entry
  /-- No kernel stack. -/
  | stack
  /-- No page directory. -/
  | directory
  /-- The copy has stopped, without a page table or at `virtual_map_physical`. -/
  | copy
  deriving DecidableEq

/-- The sizes of the blocks that have been taken, the last one first. -/
def Exit.taken (stackSize : Nat) : Exit → List Nat
  | .pcb => []
  | .tcb => [sizeofPcb]
  | .entry | .stack => [sizeofTcb, sizeofPcb]
  | .directory | .copy => [stackSize, sizeofTcb, sizeofPcb]

/-- The child is among the children of the parent already. -/
def Exit.linked : Exit → Bool
  | .directory | .copy => true
  | _ => false

/-- **What the exit `e` leaves behind.** -/
structure StoppedAt (s s' : ForkingVm) (stackSize : Nat) (e : Exit) : Prop where
  /-- The blocks that were taken stay allocated. -/
  small : ∃ new, s'.heap.small = new ++ s.heap.small ∧ new.map Block.size = e.taken stackSize ∧
    ∀ b ∈ new, ¬ s.heap.InUse b.address
  /-- The children of the parent, who is not the process to come. -/
  children : (e.linked = true → s.heap.vm.current ≠ s.heap.vm.nextPid) →
    s'.heap.vm.currentSpace.map AddressSpace.children = s.heap.vm.currentSpace.map fun a =>
      if e.linked then a.children ++ [s.heap.vm.nextPid] else a.children
  /-- `children_count` of the parent. -/
  count : s'.childrenCount s.heap.vm.current
    = s.childrenCount s.heap.vm.current + if e.linked then 1 else 0
  /-- The memory, when there was no copy. -/
  memory : e ≠ .copy → s'.heap.vm.memory.frames = s.heap.vm.memory.frames ∧
    s'.heap.vm.memory.words = s.heap.vm.memory.words ∧
    s'.heap.vm.memory.heap = s.heap.vm.memory.heap
  /-- The child is on no queue. -/
  queues : s'.processQueue = s.processQueue ∧ s'.runnableQueue = s.runnableQueue

/-- **Blocks of the given sizes have been taken** from the heap, and nothing else has happened. -/
structure Taken (h h' : HeapVm) (sizes : List Nat) : Prop where
  /-- The blocks. -/
  small : ∃ new, h'.small = new ++ h.small ∧ new.map Block.size = sizes ∧
    ∀ b ∈ new, ¬ h.InUse b.address
  /-- The address spaces. -/
  vm : h'.vm = h.vm

section
variable {h h1 h2 : HeapVm} {sizes : List Nat} {size address : Nat}

/-- No block has been taken. -/
theorem Taken.refl (h : HeapVm) : Taken h h [] :=
  ⟨⟨[], rfl, rfl, fun _ hb => absurd hb List.not_mem_nil⟩, rfl⟩

/-- `malloc` gives the next answer. -/
theorem malloc_head (hs : h.malloc size = some (address, h1)) :
    h.answers.head? = some address := by
  unfold HeapVm.malloc at hs
  split at hs
  · cases hs
  · next rest hanswers =>
      rw [hanswers]
      split_ifs at hs with hnull
      · obtain ⟨rfl, -⟩ := Prod.mk.inj (Option.some.inj hs)
        rw [hnull]
        rfl
      · obtain ⟨rfl, -⟩ := Prod.mk.inj (Option.some.inj hs)
        rfl

/-- `malloc` answers `NULL`. -/
theorem Taken.null (ht : Taken h h1 sizes) (hs : h1.malloc size = some (0, h2)) :
    Taken h h2 sizes := by
  rcases HeapVm.malloc_cases hs with ⟨-, heq⟩ | ⟨hne, -⟩
  · rw [heq]
    exact ⟨ht.small, ht.vm⟩
  · exact absurd rfl hne

/-- `malloc` answers a block. -/
theorem Taken.block (ht : Taken h h1 sizes) (hs : h1.malloc size = some (address, h2))
    (hne : address ≠ 0) : Taken h h2 (size :: sizes) := by
  rcases HeapVm.malloc_cases hs with ⟨hnull, -⟩ | ⟨-, hfree, heq⟩
  · exact absurd hnull hne
  · obtain ⟨new, hsmall, hsizes, hnew⟩ := ht.small
    rw [heq]
    refine ⟨⟨⟨address, size, .sizeKept⟩ :: new, by rw [hsmall]; rfl, by rw [List.map_cons, hsizes],
      fun b hb => ?_⟩, ht.vm⟩
    rcases List.mem_cons.mp hb with rfl | hb
    · -- what is in use in the smaller heap is in use
      rintro (hmem | hmem)
      · refine hfree (Or.inl ?_)
        rw [hsmall, List.map_append]
        exact List.mem_append_right _ hmem
      · refine hfree (Or.inr ?_)
        rw [ht.vm]
        exact hmem
    · exact hnew b hb

end

section
variable {s s' : ForkingVm} {h : HeapVm} {stackSize : Nat} {e : Exit}

/-- **An exit before the child is linked.** -/
theorem Taken.stopped (ht : Taken s.heap h (e.taken stackSize)) (hlinked : e.linked = false) :
    StoppedAt s { s with heap := h } stackSize e where
  small := ht.small
  children _ := by
    simp only [hlinked, Bool.false_eq_true, if_false, ht.vm]
  count := by
    simp only [hlinked, Bool.false_eq_true, if_false, add_zero]
  memory _ := by
    simp only [ht.vm, and_self]
  queues := ⟨rfl, rfl⟩

/-- **An exit after the child is linked.** -/
theorem Taken.stopped_linked {a : AddressSpace} {task : TaskBlocks} {m : PhysMem} {pd : Nat}
    (ht : Taken s.heap h (e.taken stackSize)) (hlinked : e.linked = true)
    (ha : s.heap.vm.currentSpace = some a)
    (hm : e ≠ .copy → m.frames = h.vm.memory.frames ∧ m.words = h.vm.memory.words ∧
      m.heap = h.vm.memory.heap) :
    StoppedAt s ((s.link h a task).setChild h.vm.nextPid m pd false) stackSize e where
  small := ht.small
  children hcur := by
    have hspace : ((s.link h a task).setChild h.vm.nextPid m pd false).heap.vm.currentSpace
        = some { a with children := a.children ++ [h.vm.nextPid] } := by
      show Function.update (Function.update h.vm.spaces h.vm.current _) h.vm.nextPid _
        h.vm.current = _
      rw [ht.vm, Function.update_of_ne (hcur hlinked), Function.update_self]
    rw [hspace, ha, hlinked, ht.vm]
    rfl
  count := by
    show Function.update _ h.vm.current _ s.heap.vm.current = _
    rw [ht.vm, Function.update_self, hlinked]
    rfl
  memory hcopy := by
    have hold := hm hcopy
    rw [ht.vm] at hold
    exact hold
  queues := ⟨rfl, rfl⟩

/-- `memalign` answers `NULL`. -/
theorem memalign_null {m m' : PhysMem} (hs : m.memalign = some (0, m')) :
    m'.frames = m.frames ∧ m'.words = m.words ∧ m'.heap = m.heap := by
  obtain ⟨-, -, -, -, hframes, -, ⟨-, hwords, hheap⟩ | ⟨hblock, -⟩⟩ := memalign_cases hs
  · exact ⟨hframes, hwords, hheap⟩
  · exact absurd rfl hblock.1

/-- **Where a failed call has stopped**: at the first allocation exactly when that answers
`NULL`. -/
theorem stoppedAt_of_failed (call : s.sysFork = some (s', -1)) :
    ∃ e stackSize, StoppedAt s s' stackSize e ∧ (e = .pcb ↔ s.heap.answers.head? = some 0) := by
  obtain ⟨⟨pcb, h1⟩, hpcb, call⟩ := Option.bind_eq_some_iff.mp call
  have hhead := malloc_head hpcb
  dsimp only at call
  by_cases hpcb0 : pcb = 0
  · subst hpcb0
    rw [if_pos rfl] at call
    obtain ⟨rfl, -⟩ := Prod.mk.inj (Option.some.inj call)
    exact ⟨.pcb, 0, ((Taken.refl s.heap).null hpcb).stopped rfl, iff_of_true rfl hhead⟩
  rw [if_neg hpcb0] at call
  have hne : ∀ e : Exit, e ≠ .pcb → (e = .pcb ↔ s.heap.answers.head? = some 0) := fun e he =>
    iff_of_false he fun e' => hpcb0 (Option.some.inj (hhead.symm.trans e'))
  have ht1 : Taken s.heap h1 [sizeofPcb] := (Taken.refl s.heap).block hpcb hpcb0
  obtain ⟨⟨tcb, h2⟩, htcb, call⟩ := Option.bind_eq_some_iff.mp call
  dsimp only at call
  by_cases htcb0 : tcb = 0
  · subst htcb0
    rw [if_pos rfl] at call
    obtain ⟨rfl, -⟩ := Prod.mk.inj (Option.some.inj call)
    exact ⟨.tcb, 0, (ht1.null htcb).stopped rfl, hne _ (by decide)⟩
  rw [if_neg htcb0] at call
  have ht2 : Taken s.heap h2 [sizeofTcb, sizeofPcb] := ht1.block htcb htcb0
  obtain ⟨a, ha, call⟩ := Option.bind_eq_some_iff.mp call
  split at call
  · obtain ⟨rfl, -⟩ := Prod.mk.inj (Option.some.inj call)
    exact ⟨.entry, 0, ht2.stopped rfl, hne _ (by decide)⟩
  next entry _ =>
  obtain ⟨parent, -, call⟩ := Option.bind_eq_some_iff.mp call
  obtain ⟨⟨stackBase, h3⟩, hstack, call⟩ := Option.bind_eq_some_iff.mp call
  have ht2' : Taken s.heap { h2 with nextTid := h2.nextTid + 1 } [sizeofTcb, sizeofPcb] :=
    ⟨ht2.small, ht2.vm⟩
  dsimp only at call
  by_cases hstack0 : stackBase = 0
  · subst hstack0
    rw [if_pos rfl] at call
    obtain ⟨rfl, -⟩ := Prod.mk.inj (Option.some.inj call)
    exact ⟨.stack, 0, (ht2'.null hstack).stopped rfl, hne _ (by decide)⟩
  rw [if_neg hstack0] at call
  have ht3 : Taken s.heap h3 [parent.stackSize, sizeofTcb, sizeofPcb] := ht2'.block hstack hstack0
  rw [ht2.vm] at ha
  obtain ⟨⟨pd, m⟩, halloc, call⟩ := Option.bind_eq_some_iff.mp call
  dsimp only at call
  by_cases hpd : pd = 0
  · subst hpd
    rw [if_pos rfl] at call
    obtain ⟨rfl, -⟩ := Prod.mk.inj (Option.some.inj call)
    exact ⟨.directory, parent.stackSize, ht3.stopped_linked rfl ha fun _ => memalign_null halloc,
      hne _ (by decide)⟩
  rw [if_neg hpd] at call
  obtain ⟨⟨done, m'⟩, -, call⟩ := Option.map_eq_some_iff.mp call
  cases done with
  | true =>
      have hr : (h3.vm.nextPid : Int) = -1 := (Prod.mk.inj call).2
      omega
  | false =>
      obtain ⟨rfl, -⟩ := Prod.mk.inj call
      exact ⟨.copy, parent.stackSize, ht3.stopped_linked rfl ha fun h => absurd rfl h,
        hne _ (by decide)⟩

/-- **The first exit has changed nothing.** -/
theorem StoppedAt.unchanged (h : StoppedAt s s' stackSize .pcb) : Unchanged s s' := by
  obtain ⟨hframes, hwords, hheap⟩ := h.memory (by decide)
  obtain ⟨new, hsmall, hsizes, -⟩ := h.small
  obtain rfl : new = [] := List.map_eq_nil_iff.mp hsizes
  refine ⟨h.children fun hlinked => ?_, h.count.trans (add_zero _), fun a _ k => ?_, ?_,
    fun f => ?_, ?_, h.queues.1, h.queues.2⟩
  · cases hlinked
  · rw [hwords]
    exact ⟨rfl, fun _ _ _ _ => rfl⟩
  · rw [HeapVm.blocks, HeapVm.blocks, hsmall, hheap, List.nil_append]
  · rw [hframes]
  · rw [hframes]

/-- **The other exits leave a block behind.** -/
theorem StoppedAt.blocks_ne (h : StoppedAt s s' stackSize e) (he : e ≠ .pcb) :
    s'.heap.blocks ≠ s.heap.blocks := by
  intro hblocks
  obtain ⟨new, hsmall, hsizes, hnew⟩ := h.small
  have hne : new ≠ [] := by
    rintro rfl
    cases e <;> first | exact he rfl | cases hsizes
  obtain ⟨b, rest, rfl⟩ := List.exists_cons_of_ne_nil hne
  have hmem : b ∈ s'.heap.blocks := Or.inl (by
    rw [hsmall]
    exact List.mem_append_left _ List.mem_cons_self)
  rw [hblocks] at hmem
  refine hnew b List.mem_cons_self ?_
  rcases hmem with hmem | ⟨a, ha, rfl⟩
  · exact Or.inl (List.mem_map_of_mem hmem)
  · exact Or.inr ha

end

/-! ## Results -/

/-- The call does to the heap what `HeapVm.sysFork` does. -/
theorem sysFork_heap (s : ForkingVm) :
    s.sysFork.map (fun t => (t.1.heap, t.2)) = s.heap.sysFork := by
  rw [ForkingVm.sysFork, HeapVm.sysFork, Option.map_bind]
  refine congrArg _ (funext fun ⟨pcb, h⟩ => ?_)
  dsimp only [Function.comp_apply]
  by_cases hpcb : pcb = 0
  · rw [if_pos hpcb, if_pos hpcb]
    rfl
  rw [if_neg hpcb, if_neg hpcb, Option.map_bind]
  refine congrArg _ (funext fun ⟨tcb, h⟩ => ?_)
  dsimp only [Function.comp_apply]
  by_cases htcb : tcb = 0
  · rw [if_pos htcb, if_pos htcb]
    rfl
  rw [if_neg htcb, if_neg htcb]
  cases ha : h.vm.currentSpace with
  | none => rfl
  | some a =>
    rw [Option.bind_some, Option.bind_some]
    cases hentry : findFreeEntry h.vm.memory a.pd with
    | none => rfl
    | some entry =>
      dsimp only
      rw [Option.map_bind]
      refine congrArg _ (funext fun parent => ?_)
      dsimp only [Function.comp_apply]
      rw [Option.map_bind]
      cases hstack : { h with nextTid := h.nextTid + 1 }.malloc parent.stackSize with
      | none => rfl
      | some answer =>
        obtain ⟨stackBase, h3⟩ := answer
        -- the address spaces have not changed since the entry was found
        have hvm : h3.vm = h.vm := (HeapVm.malloc_same hstack).1
        rw [Option.bind_some, Option.bind_some]
        dsimp only [Function.comp_apply]
        by_cases hstack0 : stackBase = 0
        · rw [if_pos hstack0, if_pos hstack0]
          rfl
        rw [if_neg hstack0, if_neg hstack0, Vm.sysFork, hvm, ha, Option.bind_some, hentry,
          Option.map_bind]
        dsimp only
        rw [Option.map_bind]
        refine congrArg _ (funext fun ⟨pd, m⟩ => ?_)
        dsimp only [Function.comp_apply]
        by_cases hpd : pd = 0
        · rw [if_pos hpd, if_pos hpd]
          simp only [ForkingVm.setChild, ForkingVm.link, Option.map_some, hvm]
          rfl
        · rw [if_neg hpd, if_neg hpd, Option.map_map, Option.map_map]
          refine congrArg (Option.map · _) (funext fun ⟨done, m'⟩ => ?_)
          cases done
          all_goals
            simp only [ForkingVm.setChild, ForkingVm.link, Function.comp_apply, hvm]
            rfl

/-- **A half-built child is counted**: after the last two exits the list of the parent's children
ends with a process on no queue, and `sys_wait` finds that `children_count` is not 0. -/
theorem StoppedAt.half_built {s s' : ForkingVm} {a : AddressSpace} {stackSize : Nat} {e : Exit}
    (h : StoppedAt s s' stackSize e) (hlinked : e.linked = true)
    (hcur : s.heap.vm.current ≠ s.heap.vm.nextPid) (ha : s.heap.vm.currentSpace = some a)
    (hcount : s.childrenCount s.heap.vm.current = a.children.length) :
    s'.heap.vm.currentSpace.map AddressSpace.children = some (a.children ++ [s.heap.vm.nextPid]) ∧
      s'.childrenCount s.heap.vm.current = a.children.length + 1 ∧
      s'.processQueue = s.processQueue ∧ s'.runnableQueue = s.runnableQueue := by
  refine ⟨?_, ?_, h.queues⟩
  · rw [h.children fun _ => hcur, ha, hlinked]
    rfl
  · rw [h.count, hcount, hlinked]
    rfl

/-- **When a failed fork has changed nothing.** For every state of the kernel and all answers of the
allocators: a `sys_fork` that returns -1 leaves the parent's children and their count, its page
tables, the allocated blocks, the frames and the queues as they were if and only if it was the first
`malloc`, for the `PCB`, that failed. -/
theorem failedFork_iff {s s' : ForkingVm} (call : s.sysFork = some (s', -1)) :
    Unchanged s s' ↔ s.heap.answers.head? = some 0 := by
  obtain ⟨e, stackSize, hstopped, hpcb⟩ := stoppedAt_of_failed call
  constructor
  · intro hunchanged
    by_contra hno
    exact hstopped.blocks_ne (fun e' => hno (hpcb.mp e')) hunchanged.blocks
  · intro hnull
    obtain rfl := hpcb.mpr hnull
    exact hstopped.unchanged

/-- `init` with an empty page table, before a fork. -/
def beforeFork (blocks : List Nat) (pages : List Answer) : ForkingVm where
  heap := HeapVm.cycleStart.supply ⟨.fork, pages, blocks⟩
  childrenCount _ := 0
  processQueue := [1, 2]
  runnableQueue := [1]

/-- `failedFork_iff` when there is no `PCB`. -/
theorem failedFork_iff_no_pcb : ∃ s', (beforeFork [0] []).sysFork = some (s', -1) ∧
    (Unchanged (beforeFork [0] []) s' ↔ (beforeFork [0] []).heap.answers.head? = some 0) :=
  have call : (beforeFork [0] []).sysFork = some (_, -1) := rfl
  ⟨_, call, failedFork_iff call⟩

/-- **A child without a page directory** is among the children of `init` when `sys_fork` has
returned -1. -/
theorem failed_fork_keeps_child : ∃ s',
    (beforeFork [0x500, 0x600, 0x7000] [⟨0, fun _ => 0⟩]).sysFork = some (s', -1) ∧
      ¬ Unchanged (beforeFork [0x500, 0x600, 0x7000] [⟨0, fun _ => 0⟩]) s' := by
  have hdata : ((beforeFork [0x500, 0x600, 0x7000] [⟨0, fun _ => 0⟩]).sysFork).map (fun t =>
      (t.1.heap.vm.currentSpace.map AddressSpace.children, t.2)) = some (some [3], -1) := by
    decide +kernel
  obtain ⟨⟨s', r⟩, hcall, hres⟩ := Option.map_eq_some_iff.mp hdata
  obtain ⟨hchildren, rfl⟩ := Prod.mk.inj hres
  refine ⟨s', hcall, fun h => ?_⟩
  have hsame := h.children
  rw [show s'.heap.vm.currentSpace.map AddressSpace.children = _ from hchildren] at hsame
  exact absurd hsame (by decide)

end Pebbles.Memory
