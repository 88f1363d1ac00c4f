import Pebbles.Memory.RangeRoundTrip

/-! # `new_pages` is all or nothing

`sys_new_pages` (`kern/memory/sys_memory_management.c`) with the contents of the pages and with the
`malloc` of its `VA_INFO`. The checks, the allocation loop and the free-frame counter are parts of
their own: `newPagesAllOrNothing_iff` says for which requests they agree. They do not for a request
of length 0, which the comment above the check excludes, and for one that needs frames below
`free_frame`, which the counter counts and the allocator does not find. -/

namespace Pebbles.Memory

open Transition
open Kernel (isUserAddr)

/-! ## The call -/

/-- The kernel with the bytes of the physical frames. -/
structure PagedVm where
  /-- The kernel. -/
  vm : Vm
  /-- The frames. -/
  bytes : Nat → Nat → UInt8

namespace PagedVm

/-- The memory of the kernel with the contents of the frames. -/
def mem (s : PagedVm) : PagedMem := ⟨s.vm.memory, s.bytes⟩

/-- `sys_new_pages`, where `vaInfo` is what `malloc` answers for the `VA_INFO`: a store through
`NULL` has no result. -/
def sysNewPages (s : PagedVm) (addr : UInt32) (len : Int32) (vaInfo : Nat) :
    Option (PagedVm × Int) :=
  s.vm.currentSpace.bind fun a =>
    if newPagesChecks s.vm.memory a.pd addr.toNat len.toInt then
      (s.mem.allocatePages a.pd addr.toNat len.toInt.toNat).bind fun m =>
        if vaInfo = 0 then none
        else some (⟨(s.vm.setMemory m.memory).setSpace s.vm.current
          { a with va := a.va ++ [⟨addr.toNat, len.toInt.toNat⟩] }, m.bytes⟩, 0)
    else some (s, -1)

end PagedVm

/-- **What a `new_pages` that returns 0 is to do**, for the process with the control block `a`. -/
structure Provided (s s' : PagedVm) (a : AddressSpace) (addr : UInt32) (len : Int32) : Prop where
  /-- The length is positive. -/
  positive : 0 < len.toInt
  /-- It is a multiple of the page size. -/
  whole : len.toInt % 4096 = 0
  /-- None of the pages was mapped. -/
  unmapped : ∀ p, Touched addr.toNat len.toInt.toNat p → entryOf s.vm.memory.words a.pd p = 0
  /-- They are mapped now. -/
  allocated : Allocated s.mem s'.mem a.pd addr.toNat len.toInt.toNat
  /-- The region is in the list. -/
  recorded : s'.vm.currentSpace
    = some { a with va := a.va ++ [⟨addr.toNat, len.toInt.toNat⟩] }

/-- **The claim about `new_pages`**: it comes back, with everything done or with nothing. -/
def AllOrNothing (s : PagedVm) (a : AddressSpace) (addr : UInt32) (len : Int32) (vaInfo : Nat) :
    Prop :=
  ∃ s' r, s.sysNewPages addr len vaInfo = some (s', r) ∧
    ((r = 0 ∧ Provided s s' a addr len) ∨ (r = -1 ∧ s' = s))

/-! ## The pages of a request -/

/-- The pages of a whole range are those that the check loop looks at. -/
theorem Touched.curAddr {addr len : Nat} {p : Nat × Nat} (h : Touched addr len p)
    (haddr : addr % 4096 = 0) (hlen : len % 4096 = 0) (hend : addr + len ≤ 2 ^ 32) :
    ∃ i < len / 4096, p = (vaPdInd (Memory.curAddr addr i), vaPtInd (Memory.curAddr addr i)) := by
  obtain ⟨hlt, hfirst, hlast⟩ := h
  rw [pageLen] at *
  have hsmall : (addr + 4096 * (p.1 * 1024 + p.2 - addr / 4096)) % 2 ^ 32
      = 4096 * (p.1 * 1024 + p.2) := by omega
  refine ⟨p.1 * 1024 + p.2 - addr / 4096, by omega, Prod.ext ?_ ?_⟩
  · dsimp only
    rw [Memory.curAddr, pageSize, hsmall, vaPdInd_eq]
    omega
  · dsimp only
    rw [Memory.curAddr, pageSize, hsmall, vaPtInd_eq]
    omega

/-- The pages of a range of the user half. -/
theorem Touched.four_le {addr len : Nat} {p : Nat × Nat} (h : Touched addr len p)
    (haddr : userMemStart ≤ addr) : 4 ≤ p.1 := by
  obtain ⟨hlt, hfirst, -⟩ := h
  rw [pageLen] at *
  rw [userMemStart] at haddr
  omega

section
variable {kernelBlocks : Nat → Nat} {lost : List Nat} {s : Vm} {a : AddressSpace} {addr : UInt32}
  {len : Int32}

/-- **What the checks of `sys_new_pages` ensure**: a whole range of the user half, none of whose
pages is mapped. -/
theorem Sound.checked (h : Sound kernelBlocks lost s) (htop : TopKept s)
    (ha : s.currentSpace = some a)
    (hchecks : newPagesChecks s.memory a.pd addr.toNat len.toInt = true) :
    userMemStart ≤ addr.toNat ∧ addr.toNat + len.toInt.toNat ≤ 2 ^ 32 ∧
      (pageRange addr.toNat len.toInt.toNat).length = len.toInt.toNat / 4096 ∧
      ∀ p, Touched addr.toNat len.toInt.toNat p → entryOf s.memory.words a.pd p = 0 := by
  obtain ⟨hd, -, -⟩ := h.current_dir ha
  have hbelow := h.belowTop htop ha hchecks
  have hend : addr.toNat + len.toInt.toNat ≤ 2 ^ 32 := by
    have hlast : len.toInt.toNat = 0 ∨ addr.toNat + len.toInt.toNat ≤ 0xfffff000 := hbelow.below
    have hsmall := addr.toNat_lt
    omega
  refine ⟨hbelow.user, hend, ?_, fun p hp => ?_⟩
  · rw [pageRange, List.length_map, List.length_range]
    exact pageTimes_aligned hbelow.aligned hbelow.whole hbelow.short
  · obtain ⟨-, -, hpos, -, -, hnone⟩ := decide_eq_true_eq.mp hchecks
    obtain ⟨i, hi, rfl⟩ := hp.curAddr hbelow.aligned hbelow.whole hend
    have hcount : (len.toInt / 4096).toNat = len.toInt.toNat / 4096 := by omega
    have hfree := List.all_eq_true.mp hnone i (by rw [List.mem_range, hcount]; exact hi)
    exact h.owned.entryOf_eq_zero hd ⟨hp.four_le hbelow.user, hp.index_lt hend⟩ hp.1
      (decide_eq_true_eq.mp hfree)

/-- **The call with contents is the call without**, when `malloc` has memory left. -/
theorem Sound.sysNewPages_vm (h : Sound kernelBlocks lost s) (htop : TopKept s)
    (bytes : Nat → Nat → UInt8) {vaInfo : Nat} (hinfo : vaInfo ≠ 0) :
    ((PagedVm.mk s bytes).sysNewPages addr len vaInfo).map (fun r => (r.1.vm, r.2))
      = s.sysNewPages addr len := by
  obtain ⟨a, ha, -⟩ := h.running
  have hspace : s.currentSpace = some a := ha
  obtain ⟨hd, hcr3, -⟩ := h.current_dir hspace
  rw [PagedVm.sysNewPages, Vm.sysNewPages, hspace, Option.bind_some, Option.bind_some]
  split
  · next hchecks =>
      obtain ⟨huser, hend, -, -⟩ := h.checked htop hspace hchecks
      have hdir := h.owned.directory hd
      have hproject := (PagedMem.mk s.memory bytes).mapAll_memory hdir.ordered hdir.first_frame
        (hdir.ahead fun p hp => ((mem_pageRange_iff huser hend).mp hp).index_lt hend)
        (pageRange_pairwise addr.toNat len.toInt.toNat) hcr3
      rw [Memory.allocatePages_eq, ← hproject]
      show (((PagedMem.mk s.memory bytes).mapAll a.pd _).bind _).map _ = _
      cases (PagedMem.mk s.memory bytes).mapAll a.pd (pageRange addr.toNat len.toInt.toNat) with
      | none => rfl
      | some m => rfl
  · rfl

/-- **`new_pages` is all or nothing** in a sound state exactly when the request is refused, or is
for at least one page, with more free frames within reach than it asks for and neither `memalign`
nor `malloc` answering `NULL`. -/
theorem Sound.newPages_iff (h : Sound kernelBlocks lost s) (htop : TopKept s)
    (ha : s.currentSpace = some a) (bytes : Nat → Nat → UInt8) (vaInfo : Nat)
    (hsupply : Supplied s.memory.heap s.memory.answers)
    (hlen : newPagesChecks s.memory a.pd addr.toNat len.toInt = true → s.memory.answers.length
      = tablesMissing s.memory.words a.pd (pageRange addr.toNat len.toInt.toNat)) :
    AllOrNothing ⟨s, bytes⟩ a addr len vaInfo ↔
      newPagesChecks s.memory a.pd addr.toNat len.toInt = false ∨
        (0 < len.toInt ∧ len.toInt.toNat / 4096 < s.memory.frames.aboveSet.card ∧
          NonNull s.memory.answers ∧ vaInfo ≠ 0) := by
  obtain ⟨hd, hcr3, -⟩ := h.current_dir ha
  by_cases hchecks : newPagesChecks s.memory a.pd addr.toNat len.toInt = true
  · obtain ⟨huser, hend, hlength, hnone⟩ := h.checked htop ha hchecks
    have hdir := h.owned.directory hd
    obtain ⟨hsome, hnull⟩ := (PagedMem.mk s.memory bytes).allocatePages_isSome_iff hdir hcr3 huser
      hend hnone hsupply (hlen hchecks)
    rw [hlength] at hsome
    have hcall : (PagedVm.mk s bytes).sysNewPages addr len vaInfo
        = ((PagedMem.mk s.memory bytes).allocatePages a.pd addr.toNat len.toInt.toNat).bind fun m =>
          if vaInfo = 0 then none
          else some (⟨(s.setMemory m.memory).setSpace s.current
            { a with va := a.va ++ [⟨addr.toNat, len.toInt.toNat⟩] }, m.bytes⟩, 0) := by
      rw [PagedVm.sysNewPages, show (PagedVm.mk s bytes).vm.currentSpace = some a from ha,
        Option.bind_some, if_pos hchecks]
      rfl
    rw [AllOrNothing, hcall]
    constructor
    · rintro ⟨s', r, hres, hcases⟩
      obtain ⟨m, halloc, hrest⟩ := Option.bind_eq_some_iff.mp hres
      split at hrest
      · cases hrest
      · next hinfo =>
          obtain ⟨rfl, rfl⟩ := Prod.mk.inj (Option.some.inj hrest)
          rcases hcases with ⟨-, hprovided⟩ | ⟨hr, -⟩
          · exact Or.inr ⟨hprovided.positive, hsome.mp (Option.isSome_of_eq_some halloc),
              hnull m halloc hprovided.allocated.mapped, hinfo⟩
          · exact absurd hr (by decide)
    · rintro (hno | ⟨hpos, hcard, hnn, hinfo⟩)
      · rw [hchecks] at hno
        cases hno
      · obtain ⟨m, halloc⟩ := Option.isSome_iff_exists.mp (hsome.mpr hcard)
        obtain ⟨-, fs, hfilled⟩ := (PagedMem.mk s.memory bytes).filled_of_mapAll hdir hcr3 hnn
          (pageRange_nodup addr.toNat len.toInt.toNat)
          (fun p hp => hnone p ((mem_pageRange_iff huser hend).mp hp)) halloc
        refine ⟨⟨(s.setMemory m.memory).setSpace s.current
          { a with va := a.va ++ [⟨addr.toNat, len.toInt.toNat⟩] }, m.bytes⟩, 0,
          by rw [halloc, Option.bind_some, if_neg hinfo], Or.inl ⟨rfl, hpos, ?_, hnone,
            hfilled.allocated hdir.first_frame huser hend, ?_⟩⟩
        · have hwhole := (h.belowTop htop ha hchecks).whole
          have hwhole' : len.toInt.toNat % 4096 = 0 := hwhole
          omega
        · exact Function.update_self ..
  · have hfalse : newPagesChecks s.memory a.pd addr.toNat len.toInt = false := by simpa using hchecks
    refine iff_of_true ⟨⟨s, bytes⟩, -1, ?_, Or.inr ⟨rfl, rfl⟩⟩ (Or.inl hfalse)
    rw [PagedVm.sysNewPages, show (PagedVm.mk s bytes).vm.currentSpace = some a from ha,
      Option.bind_some, if_neg hchecks]

end

/-! ## Every run -/

/-- **When `new_pages` is all or nothing**, after every run from a boot in which `memalign` never
answers `NULL` where this is not tested for and the blocks of `sys_fork` are filled with zeros: for
every request, whatever the frames contain and whatever `memalign` and `malloc` answer to it. -/
theorem newPagesAllOrNothing_iff {idle init : ElfHeader} {answers given : List Answer} {s0 s : Vm}
    {events : List Event} {a : AddressSpace} {addr : UInt32} {len : Int32} (hnn : NonNull answers)
    (hboot : boot idle init answers = some s0) (run : Run ServedStep s0 events s)
    (ha : s.currentSpace = some a) (bytes : Nat → Nat → UInt8) (vaInfo : Nat)
    (hsupply : Supplied s.memory.heap given)
    (hlen : newPagesChecks s.memory a.pd addr.toNat len.toInt = true → given.length
      = tablesMissing s.memory.words a.pd (pageRange addr.toNat len.toInt.toNat)) :
    AllOrNothing ⟨s.supply given, bytes⟩ a addr len vaInfo ↔
      newPagesChecks s.memory a.pd addr.toNat len.toInt = false ∨
        (0 < len.toInt ∧ len.toInt.toNat / 4096 < s.memory.frames.aboveSet.card ∧
          NonNull given ∧ vaInfo ≠ 0) := by
  obtain ⟨htop, kernelBlocks, lost, hsound⟩ := topKept_of_run hnn hboot run
  exact (hsound.supply given).newPages_iff htop ha bytes vaInfo hsupply hlen

/-- `newPagesAllOrNothing_iff` right after a boot, for a request of one page. -/
theorem newPagesAllOrNothing_iff_one_page :
    ∃ s0 a, boot smallProgram smallProgram (inOrder 256 9) = some s0 ∧
      s0.currentSpace = some a ∧
      (AllOrNothing ⟨s0.supply (inOrder 265 1), fun _ _ => 0⟩ a 0x40000000 4096 1 ↔
        newPagesChecks s0.memory a.pd (0x40000000 : UInt32).toNat (4096 : Int32).toInt = false ∨
          (0 < (4096 : Int32).toInt ∧
            (4096 : Int32).toInt.toNat / 4096 < s0.memory.frames.aboveSet.card ∧
            NonNull (inOrder 265 1) ∧ 1 ≠ 0)) := by
  obtain ⟨s0, hboot, h⟩ := boot_begun
  refine ⟨s0, _, hboot, h.space, newPagesAllOrNothing_iff (nonNull_inOrder (by decide) 9) hboot .nil
    h.space (fun _ _ => 0) 1 (Or.inr ⟨isBlock_page (by decide) (by decide),
      h.fresh (Nat.le_refl _), trivial⟩) fun _ => ?_⟩
  have hpages : pageRange (0x40000000 : UInt32).toNat (4096 : Int32).toInt.toNat = [(256, 0)] := by
    decide
  have hzero : s0.memory.words (263 * pageSize) 256 = 0 := h.directory 256 (by decide)
  rw [hpages, tablesMissing, List.map_singleton, List.toFinset_cons, List.toFinset_nil,
    insert_empty_eq, Finset.filter_singleton, if_pos hzero]
  rfl

/-- An empty request passes the checks. -/
theorem Begun.newPagesChecks_empty {s : Vm} (h : Begun s) :
    newPagesChecks s.memory (263 * pageSize) (0x40000000 : UInt32).toNat (0 : Int32).toInt
      = true := by
  have hnum : s.memory.frames.freeFrameNum = (totalPhysFrames - 4100 : Nat) :=
    h.frames.freeFrameNum_eq
  rw [show (0 : Int32).toInt = 0 by decide, newPagesChecks, decide_eq_true_eq]
  exact ⟨by decide, by decide, by decide, by decide, by omega, rfl⟩

/-- **An empty request is accepted**: `new_pages` of length 0 returns 0. -/
theorem empty_request_accepted :
    ∃ s0 a, boot smallProgram smallProgram (inOrder 256 9) = some s0 ∧
      s0.currentSpace = some a ∧
      ¬ AllOrNothing ⟨s0.supply [], fun _ _ => 0⟩ a 0x40000000 0 1 := by
  obtain ⟨s0, hboot, h⟩ := boot_begun
  refine ⟨s0, _, hboot, h.space, ?_⟩
  rintro ⟨s', r, hcall, ⟨-, hprovided⟩ | ⟨rfl, -⟩⟩
  · exact absurd hprovided.positive (by decide)
  · have hchecks : newPagesChecks (PagedVm.mk (s0.supply []) fun _ _ => 0).vm.memory
        (AddressSpace.mk (263 * pageSize) [] [] false true).pd (0x40000000 : UInt32).toNat
        (0 : Int32).toInt = true := h.newPagesChecks_empty
    have hzero : (PagedVm.mk (s0.supply []) fun _ _ => 0).sysNewPages 0x40000000 0 1
        = some (⟨((s0.supply []).setMemory (s0.supply []).memory).setSpace s0.current
          ⟨263 * pageSize, [⟨0x40000000, 0⟩], [], false, true⟩, fun _ _ => 0⟩, 0) := by
      rw [PagedVm.sysNewPages, show (PagedVm.mk (s0.supply []) fun _ _ => 0).vm.currentSpace
        = some ⟨263 * pageSize, [], [], false, true⟩ from h.space, Option.bind_some, if_pos hchecks]
      rfl
    rw [hzero] at hcall
    exact absurd (Prod.mk.inj (Option.some.inj hcall)).2 (by decide)

end Pebbles.Memory
