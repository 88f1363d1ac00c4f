import Pebbles.Memory.NewPages

/-! # `remove_pages` undoes `new_pages`

One process calls `sys_new_pages` and `sys_remove_pages` in any order
(`kern/memory/sys_memory_management.c`). `sys_remove_pages` takes the first region of the list with
the address it is given, so it needs that no two regions start there and that every region is what
the page tables say. `RegionsHeld` is this invariant, `Sound.regionsHeld_step` its step lemma; a
request of length 0, which `sys_new_pages` lets pass, breaks it. -/

namespace Pebbles.Memory

open Transition
open Kernel (isUserAddr)

/-! ## Histories -/

/-- The two system calls. -/
def Call.IsPages : Call → Prop
  | .newPages .. | .removePages _ => True
  | _ => False

/-- One of the two calls, with the value it returns. -/
def PagesStep (s : Vm) (e : Event × Int) (s' : Vm) : Prop :=
  e.1.call.IsPages ∧ s.step e.1 = some (s', e.2)

/-- The call is not an accepted request of length 0. -/
def NotEmpty (s : Vm) (c : Call) : Prop :=
  ∀ a addr len, s.currentSpace = some a → c = .newPages addr len →
    newPagesChecks s.memory a.pd addr.toNat len.toInt = true → 0 < len.toInt

/-- The steps without an accepted request of length 0, in which `memalign` does not answer
`NULL`. -/
abbrev ProperPagesStep : Vm → Event × Int → Vm → Prop :=
  Guarded PagesStep fun s e => NotEmpty s e.1.call ∧ e.1.WellServed

/-- **A region that is pending** after the calls `es`: `new_pages(addr, len)` returned 0, and
`remove_pages(addr)` was not called since. -/
def Pending (es : List (Event × Int)) (addr : UInt32) (len : Int32) : Prop :=
  ∃ before answers after, es = before ++ (⟨.newPages addr len, answers⟩, 0) :: after ∧
    ∀ e ∈ after, e.1.call ≠ .removePages addr

/-- **What `remove_pages` is to do** to the pages of the range. -/
structure PagesRemoved (m m' : PhysMem) (pd va size : Nat) : Prop where
  /-- The pages are unmapped. -/
  unmapped : ∀ p, Touched va size p → entryOf m'.words pd p = 0
  /-- Each was mapped, and its frame is released. -/
  released : ∀ p, Touched va size p → ∃ f, entryOf m.words pd p = frameEntry f ∧
    m.frames.refcount f = 1 ∧ m'.frames.refcount f = 0
  /-- The frames of the other pages are not. -/
  refcount : ∀ k, (∀ p, Touched va size p → entryOf m.words pd p ≠ frameEntry k) →
    m'.frames.refcount k = m.frames.refcount k
  /-- The counter. -/
  freeFrameNum : m'.frames.freeFrameNum = m.frames.freeFrameNum + (size / 4096 : Nat)
  /-- Every other page is mapped as before. -/
  others : ∀ q : Nat × Nat, q.1 < pageLen → ¬ Touched va size q →
    entryOf m'.words pd q = entryOf m.words pd q

/-- **The claim about `remove_pages`**, for a region that is pending. -/
def Removes (s : Vm) (addr : UInt32) (len : Int32) : Prop :=
  ∃ a s', s.currentSpace = some a ∧ s.step ⟨.removePages addr, []⟩ = some (s', 0) ∧
    PagesRemoved s.memory s'.memory a.pd addr.toNat len.toInt.toNat

/-- One more call: what is pending then is the new region, or was pending before. -/
theorem Pending.of_snoc {es : List (Event × Int)} {e : Event × Int} {addr : UInt32} {len : Int32}
    (h : Pending (es ++ [e]) addr len) :
    (e.1.call = .newPages addr len ∧ e.2 = 0) ∨
      (Pending es addr len ∧ e.1.call ≠ .removePages addr) := by
  obtain ⟨before, answers, after, heq, hafter⟩ := h
  rcases List.eq_nil_or_concat after with rfl | ⟨after', last, rfl⟩
  · obtain ⟨-, hlast⟩ := List.append_inj' heq rfl
    obtain rfl := List.singleton_inj.mp hlast
    exact Or.inl ⟨rfl, rfl⟩
  · rw [List.concat_eq_append, ← List.cons_append, ← List.append_assoc] at heq
    obtain ⟨hinit, hlast⟩ := List.append_inj' heq rfl
    obtain rfl := List.singleton_inj.mp hlast
    refine Or.inr ⟨⟨before, answers, after', hinit, fun x hx => ?_⟩, ?_⟩
    · exact hafter x (by simp [hx])
    · exact hafter e (by simp)

/-! ## The invariant -/

/-- Two regions have no page in common. -/
def VaInfo.Apart (r r' : VaInfo) : Prop :=
  ∀ p, Touched r.virtualAddr r.len p → ¬ Touched r'.virtualAddr r'.len p

instance : Std.Symm VaInfo.Apart where
  symm _ _ hapart p hp hp' := hapart p hp' hp

/-- **Every region of the list is mapped**, none is empty, and no two have a page in common. -/
structure RegionsHeld (words : Nat → Nat → Nat) (pd : Nat) (va : List VaInfo) : Prop where
  /-- The regions consist of pages of the user half. -/
  below : ∀ r ∈ va, r.BelowTop
  /-- None is empty. -/
  positive : ∀ r ∈ va, 0 < r.len
  /-- Their pages are mapped, with the flags 7. -/
  mapped : ∀ r ∈ va, ∀ p, Touched r.virtualAddr r.len p →
    ∃ f < totalPhysFrames, entryOf words pd p = frameEntry f
  /-- No two have a page in common. -/
  apart : va.Pairwise VaInfo.Apart

/-- The first page of a region that is not empty. -/
theorem VaInfo.BelowTop.first {r : VaInfo} (h : r.BelowTop) (hpos : 0 < r.len) :
    Touched r.virtualAddr r.len (vaPdInd r.virtualAddr, vaPtInd r.virtualAddr) := by
  have hsum := vaPdInd_mul_add r.virtualAddr
  have haligned := h.aligned
  refine ⟨?_, Nat.le_of_eq hsum.symm, ?_⟩
  · rw [vaPtInd_eq]
    exact Nat.mod_lt _ (by decide)
  · dsimp only
    omega

section
variable {words words' : Nat → Nat → Nat} {pd : Nat} {va : List VaInfo} {r r' : VaInfo}

namespace RegionsHeld

/-- A region has a page that no other has. -/
theorem ne_of_pos (h : RegionsHeld words pd va) (hr : r ∈ va) (hr' : r' ∈ va)
    (haddr : r.virtualAddr = r'.virtualAddr) : r = r' := by
  by_contra hne
  refine h.apart.forall hr hr' hne _ ((h.below r hr).first (h.positive r hr)) ?_
  rw [haddr]
  exact (h.below r' hr').first (h.positive r' hr')

/-- A region ends with the address space at the latest. -/
theorem end_le (h : RegionsHeld words pd va) (hr : r ∈ va) :
    r.virtualAddr + r.len ≤ 2 ^ 32 := by
  have hpos := h.positive r hr
  have hbelow := (h.below r hr).below
  omega

/-- The regions are distinct. -/
theorem nodup (h : RegionsHeld words pd va) : va.Nodup := by
  refine List.Pairwise.imp_of_mem (fun {r r'} hr _ hapart => ?_) h.apart
  rintro rfl
  have hfirst := (h.below r hr).first (h.positive r hr)
  exact hapart _ hfirst hfirst

/-- The search finds the region. -/
theorem find (h : RegionsHeld words pd va) (hr : r ∈ va) :
    va.find? (fun x => x.virtualAddr = r.virtualAddr) = some r := by
  cases hfind : va.find? (fun x => x.virtualAddr = r.virtualAddr) with
  | none =>
      have hno := List.find?_eq_none.mp hfind r hr
      simp at hno
  | some r' =>
      have haddr : r'.virtualAddr = r.virtualAddr := by simpa using List.find?_some hfind
      rw [h.ne_of_pos (List.mem_of_find?_eq_some hfind) hr haddr]

/-- The entries of the regions may be read in another memory. -/
theorem congr (h : RegionsHeld words pd va)
    (hsame : ∀ r ∈ va, ∀ p, Touched r.virtualAddr r.len p →
      entryOf words' pd p = entryOf words pd p) : RegionsHeld words' pd va where
  below := h.below
  positive := h.positive
  mapped r hr p hp := by
    rw [hsame r hr p hp]
    exact h.mapped r hr p hp
  apart := h.apart

/-- A region is added whose pages are in no other. -/
theorem append (h : RegionsHeld words pd va) (hbelow : r.BelowTop) (hpos : 0 < r.len)
    (hmapped : ∀ p, Touched r.virtualAddr r.len p →
      ∃ f < totalPhysFrames, entryOf words pd p = frameEntry f)
    (hnew : ∀ r' ∈ va, r'.Apart r) :
    RegionsHeld words pd (va ++ [r]) where
  below x hx := by
    rcases List.mem_append.mp hx with hx | hx
    · exact h.below x hx
    · exact List.mem_singleton.mp hx ▸ hbelow
  positive x hx := by
    rcases List.mem_append.mp hx with hx | hx
    · exact h.positive x hx
    · exact List.mem_singleton.mp hx ▸ hpos
  mapped x hx := by
    rcases List.mem_append.mp hx with hx | hx
    · exact h.mapped x hx
    · exact List.mem_singleton.mp hx ▸ hmapped
  apart := by
    refine List.pairwise_append.mpr ⟨h.apart, List.pairwise_singleton .., fun x hx y hy => ?_⟩
    exact List.mem_singleton.mp hy ▸ hnew x hx

/-- A region is removed. -/
theorem erase (h : RegionsHeld words pd va) (r : VaInfo) : RegionsHeld words pd (va.erase r) where
  below x hx := h.below x (List.mem_of_mem_erase hx)
  positive x hx := h.positive x (List.mem_of_mem_erase hx)
  mapped x hx := h.mapped x (List.mem_of_mem_erase hx)
  apart := h.apart.sublist List.erase_sublist

/-- The regions that are left have no page of the one removed. -/
theorem apart_of_erase (h : RegionsHeld words pd va) (hr : r ∈ va) (hr' : r' ∈ va.erase r)
    {p : Nat × Nat} (hp : Touched r'.virtualAddr r'.len p) :
    ¬ Touched r.virtualAddr r.len p := by
  obtain ⟨hne, hmem⟩ := (h.nodup.mem_erase_iff).mp hr'
  exact h.apart.forall hmem hr hne p hp

end RegionsHeld

end

/-! ## One call -/

section
variable {kernelBlocks : Nat → Nat} {lost : List Nat} {s s' : Vm} {a : AddressSpace}
  {addr : UInt32} {len : Int32} {r : Int} {region : VaInfo}

/-- **What an accepted request does** to the pages and the list. -/
theorem Sound.newPages_filled (h : Sound kernelBlocks lost s) (htop : TopKept s)
    (ha : s.currentSpace = some a) (hnn : NonNull s.memory.answers)
    (call : s.sysNewPages addr len = some (s', r)) :
    (r = -1 ∧ s' = s) ∨ (r = 0 ∧ newPagesChecks s.memory a.pd addr.toNat len.toInt = true ∧
      ∃ s1 fs, Filled ⟨s.memory, fun _ _ => 0⟩ s1 a.pd (pageRange addr.toNat len.toInt.toNat) fs ∧
        s' = (s.setMemory s1.memory).setSpace s.current
          { a with va := a.va ++ [⟨addr.toNat, len.toInt.toNat⟩] }) := by
  obtain ⟨hd, hcr3, -⟩ := h.current_dir ha
  rw [Vm.sysNewPages, ha, Option.bind_some] at call
  split at call
  · next hchecks =>
      obtain ⟨huser, hend, -, hnone⟩ := h.checked htop ha hchecks
      have hdir := h.owned.directory hd
      have hmem : ∀ {p}, p ∈ pageRange addr.toNat len.toInt.toNat ↔ _ := mem_pageRange_iff huser hend
      have hproject := (PagedMem.mk s.memory fun _ _ => 0).mapAll_memory hdir.ordered
        hdir.first_frame (hdir.ahead fun p hp => (hmem.mp hp).index_lt hend)
        (pageRange_pairwise addr.toNat len.toInt.toNat) hcr3
      obtain ⟨m, halloc, hres⟩ := Option.map_eq_some_iff.mp call
      obtain ⟨rfl, rfl⟩ := Prod.mk.inj hres
      rw [Memory.allocatePages_eq, ← hproject] at halloc
      obtain ⟨s1, hs1, rfl⟩ := Option.map_eq_some_iff.mp halloc
      obtain ⟨-, fs, hfilled⟩ := (PagedMem.mk s.memory fun _ _ => 0).filled_of_mapAll hdir hcr3 hnn
        (pageRange_nodup addr.toNat len.toInt.toNat) (fun p hp => hnone p (hmem.mp hp)) hs1
      exact Or.inr ⟨rfl, hchecks, s1, fs, hfilled, rfl⟩
  · obtain ⟨rfl, rfl⟩ := Prod.mk.inj (Option.some.inj call)
    exact Or.inl ⟨rfl, rfl⟩

/-- The frame of a page of a region, as the user sees it. -/
theorem Sound.region_frame (h : Sound kernelBlocks lost s) (ha : s.currentSpace = some a)
    (held : RegionsHeld s.memory.words a.pd a.va) (hr : region ∈ a.va) {p : Nat × Nat}
    (hp : Touched region.virtualAddr region.len p) :
    ∃ f < totalPhysFrames, entryOf s.memory.words a.pd p = frameEntry f ∧
      s.userFrame s.current p.1 p.2 = some f := by
  obtain ⟨hd, -, -⟩ := h.current_dir ha
  obtain ⟨f, hlt, hentry⟩ := held.mapped region hr p hp
  refine ⟨f, hlt, hentry, ?_⟩
  have hhalf := hp.four_le (held.below region hr).user
  have hindex := hp.index_lt (held.end_le hr)
  rw [← s.frame_process lost, Vm.frame, ← Owned.frameOf_entryOf hd ⟨hhalf, hindex⟩ hp.1, hentry]
  exact frameOf_frameEntry hlt

/-- **A region of the list can be unmapped**: its pages have frames of their own. -/
theorem Sound.region_emptied (h : Sound kernelBlocks lost s) (ha : s.currentSpace = some a)
    (held : RegionsHeld s.memory.words a.pd a.va) (hr : region ∈ a.va) :
    ∃ m fs, freePages s.memory a.pd region.virtualAddr region.len = some m ∧
      Emptied s.memory m a.pd (pageRange region.virtualAddr region.len) fs ∧
      (pageRange region.virtualAddr region.len).map (entryOf s.memory.words a.pd)
        = fs.map frameEntry ∧ ∀ f ∈ fs, s.memory.frames.refcount f = 1 := by
  obtain ⟨hd, -, -⟩ := h.current_dir ha
  have hend := held.end_le hr
  have hmem : ∀ {p}, p ∈ pageRange region.virtualAddr region.len ↔ _ :=
    mem_pageRange_iff (held.below region hr).user hend
  let frame p := deflagAddr (entryOf s.memory.words a.pd p) / pageSize
  have hframe : ∀ p ∈ pageRange region.virtualAddr region.len, frame p < totalPhysFrames ∧
      entryOf s.memory.words a.pd p = frameEntry (frame p) ∧
      s.userFrame s.current p.1 p.2 = some (frame p) := by
    intro p hp
    obtain ⟨f, hlt, hentry, hf⟩ := h.region_frame ha held hr (hmem.mp hp)
    have heq : frame p = f := by
      show deflagAddr (entryOf s.memory.words a.pd p) / pageSize = f
      rw [hentry, deflagAddr_frameEntry hlt, Nat.mul_div_cancel f (by decide)]
    rw [heq]
    exact ⟨hlt, hentry, hf⟩
  have hentries : (pageRange region.virtualAddr region.len).map (entryOf s.memory.words a.pd)
      = ((pageRange region.virtualAddr region.len).map frame).map frameEntry := by
    rw [List.map_map]
    exact List.map_congr_left fun p hp => (hframe p hp).2.1
  have hnodup : ((pageRange region.virtualAddr region.len).map frame).Nodup := by
    refine (pageRange_nodup _ _).map_on fun p hp q hq heq => ?_
    have hp' := (hframe p hp).2.2
    rw [heq] at hp'
    obtain ⟨-, hfst, hsnd⟩ := h.isolated.exclusive hp' (hframe q hq).2.2
    exact Prod.ext hfst hsnd
  have hused : ∀ f ∈ (pageRange region.virtualAddr region.len).map frame,
      f < totalPhysFrames ∧ f ≠ 0 ∧ s.memory.frames.refcount f = 1 := by
    intro f hf
    obtain ⟨p, hp, rfl⟩ := List.mem_map.mp hf
    obtain ⟨hlt, -, hmapped⟩ := hframe p hp
    have habove := h.isolated.above hmapped
    exact ⟨hlt, by omega, h.isolated.counted hmapped⟩
  obtain ⟨m, hfreed, hemptied⟩ := (h.owned.directory hd).emptied
    (fun p hp => (hmem.mp hp).index_lt hend) (pageRange_nodup _ _) hentries hnodup hused
  exact ⟨m, _, (freePages_eq ..).trans hfreed, hemptied, hentries, fun f hf => (hused f hf).2.2⟩

/-- The value of `remove_pages` at the address of a region of the list. -/
theorem Sound.removePages_region (h : Sound kernelBlocks lost s) (ha : s.currentSpace = some a)
    (held : RegionsHeld s.memory.words a.pd a.va) (hr : region ∈ a.va)
    (haddr : region.virtualAddr = addr.toNat) :
    s.sysRemovePages addr = (freePages s.memory a.pd addr.toNat region.len).map fun m =>
      ((s.setMemory (m.setCr3 a.pd)).setSpace s.current { a with va := a.va.erase region }, 0) := by
  obtain ⟨hd, -, hpd⟩ := h.current_dir ha
  have hdir := h.owned.directory hd
  have hbelow := held.below region hr
  -- the first page of the region passes the checks
  have hfirst := hbelow.first (held.positive region hr)
  have hindex := hfirst.index_lt (held.end_le hr)
  obtain ⟨f, hlt, hentry, hmapped⟩ := h.region_frame ha held hr hfirst
  rw [haddr] at hindex hentry hmapped
  have habove := h.isolated.above hmapped
  have hpde : s.memory.words a.pd (vaPdInd addr.toNat) ≠ 0 := by
    intro hzero
    rw [entryOf_of_none hzero] at hentry
    exact (frameOf_eq_some.mp (frameOf_frameEntry hlt)).1 hentry.symm
  have htable : deflagAddr (s.memory.words a.pd (vaPdInd addr.toNat)) ≠ 0 := fun hzero =>
    hdir.null (hzero ▸ hdir.table_mem _ hindex hpde)
  rw [entryOf_of_table hpde] at hentry
  have huser : isUserAddr addr.toNat = true := by
    have hstart := hbelow.user
    rw [haddr] at hstart
    exact decide_eq_true ⟨by omega, hstart⟩
  have haligned : addr.toNat &&& 0xfff = 0 := by
    rw [and_fff, ← haddr]
    exact hbelow.aligned
  have hhas : addrHasMapping s.memory a.pd addr.toNat = true := by
    refine decide_eq_true ⟨?_, hpd, htable, ?_⟩
    · have hstart := hbelow.user
      omega
    · rw [hentry, deflagAddr_frameEntry hlt, pageSize]
      omega
  have hflags : s.memory.words (deflagAddr (s.memory.words a.pd (vaPdInd addr.toNat)))
      (vaPtInd addr.toNat) &&& 0x7 = 0x7 := by
    rw [hentry, frameEntry, addFlag_eq (Nat.mul_mod_left f pageSize) (by decide),
      show (0x7 : Nat) = 2 ^ 3 - 1 by decide, Nat.and_two_pow_sub_one_eq_mod, pageSize]
    omega
  have hfind := held.find hr
  rw [haddr] at hfind
  rw [Vm.sysRemovePages, ha, Option.bind_some]
  simp only [huser, haligned, hhas, hflags, hfind, ne_eq, not_true_eq_false, if_false,
    Bool.true_eq_false]

/-- `remove_pages` at an address at which no region of the list starts. -/
theorem Vm.sysRemovePages_none (ha : s.currentSpace = some a)
    (hno : ∀ r ∈ a.va, r.virtualAddr ≠ addr.toNat) : s.sysRemovePages addr = some (s, -1) := by
  have hfind : a.va.find? (fun r => r.virtualAddr = addr.toNat) = none :=
    List.find?_eq_none.mpr fun r hr => by simpa using hno r hr
  rw [Vm.sysRemovePages, ha, Option.bind_some]
  simp only [hfind, ite_self]

/-- **The region is removed**, as the claim says. -/
theorem Sound.removes (h : Sound kernelBlocks lost s) (ha : s.currentSpace = some a)
    (held : RegionsHeld s.memory.words a.pd a.va)
    (hr : ⟨addr.toNat, len.toInt.toNat⟩ ∈ a.va) : Removes s addr len := by
  have h0 := h.supply []
  have ha0 : (s.supply []).currentSpace = some a := ha
  have hbelow := held.below _ hr
  have hend := held.end_le hr
  have hmem : ∀ {p}, p ∈ pageRange addr.toNat len.toInt.toNat ↔ _ := mem_pageRange_iff hbelow.user hend
  obtain ⟨m, fs, hfreed, hemptied, hentries, hone⟩ := h0.region_emptied ha0 held hr
  obtain ⟨hd, -, -⟩ := h0.current_dir ha0
  have hcall := h0.removePages_region ha0 held hr rfl
  have hanswers : m.answers = [] := by
    have hhalf : 4 ≤ vaPdInd addr.toNat := by
      have huser : 0x01000000 ≤ addr.toNat := hbelow.user
      rw [vaPdInd_eq]
      omega
    exact List.suffix_nil.mp (h0.owned.freePages hd hhalf hfreed).1.answers
  -- the frames of the pages are those that were released
  have hlength : fs.length = len.toInt.toNat / 4096 := by
    have hcount := congrArg List.length hentries
    rw [List.length_map, List.length_map, pageRange, List.length_map, List.length_range] at hcount
    exact hcount.symm.trans (pageTimes_aligned hbelow.aligned hbelow.whole hbelow.short)
  have hpage : ∀ p, Touched addr.toNat len.toInt.toNat p →
      ∃ f ∈ fs, entryOf s.memory.words a.pd p = frameEntry f := by
    intro p hp
    have hentry : entryOf s.memory.words a.pd p ∈ fs.map frameEntry :=
      hentries ▸ List.mem_map_of_mem (hmem.mpr hp)
    obtain ⟨f, hf, heq⟩ := List.mem_map.mp hentry
    exact ⟨f, hf, heq.symm⟩
  refine ⟨a, ((s.supply []).setMemory (m.setCr3 a.pd)).setSpace s.current
    { a with va := a.va.erase ⟨addr.toNat, len.toInt.toNat⟩ }, ha, ?_, fun p hp => ?_,
    fun p hp => ?_, fun k hk => ?_, ?_, fun q hq hnt => ?_⟩
  · rw [Vm.step]
    show ((s.supply []).sysRemovePages addr).bind _ = _
    rw [hcall, hfreed, Option.map_some, Option.bind_some]
    show (if m.answers.isEmpty then _ else _) = _
    rw [hanswers]
    rfl
  · exact (hemptied.entries p (hp.index_lt hend)).trans (if_pos (hmem.mpr hp))
  · obtain ⟨f, hf, hentry⟩ := hpage p hp
    exact ⟨f, hentry, hone f hf, (hemptied.refcount f).trans (if_pos hf)⟩
  · refine (hemptied.refcount k).trans (if_neg fun hkf => ?_)
    have hentry : frameEntry k ∈ (pageRange addr.toNat len.toInt.toNat).map
        (entryOf s.memory.words a.pd) := hentries ▸ List.mem_map_of_mem hkf
    obtain ⟨p, hp, heq⟩ := List.mem_map.mp hentry
    exact hk p (hmem.mp hp) heq
  · rw [← hlength]
    exact hemptied.freeFrameNum
  · exact (hemptied.entries q hq).trans (if_neg fun hq' => hnt (hmem.mp hq'))

/-- `new_pages` keeps the invariant, when it accepts no empty request. -/
theorem Sound.held_newPages (h : Sound kernelBlocks lost s) (htop : TopKept s)
    (ha : s.currentSpace = some a) (held : RegionsHeld s.memory.words a.pd a.va)
    (hnn : NonNull s.memory.answers) (hpos : NotEmpty s (.newPages addr len))
    (call : s.sysNewPages addr len = some (s', r)) :
    ∃ a', s'.currentSpace = some a' ∧ RegionsHeld s'.memory.words a'.pd a'.va ∧
      (r = 0 → ⟨addr.toNat, len.toInt.toNat⟩ ∈ a'.va) ∧ ∀ x ∈ a.va, x ∈ a'.va := by
  rcases h.newPages_filled htop ha hnn call with ⟨rfl, rfl⟩ | ⟨rfl, hchecks, s1, fs, hfilled, rfl⟩
  · exact ⟨a, ha, held, fun hr => absurd hr (by decide), fun _ hx => hx⟩
  obtain ⟨huser, hend, -, hnone⟩ := h.checked htop ha hchecks
  have hlen := hpos a addr len ha rfl hchecks
  have hmem : ∀ {p}, p ∈ pageRange addr.toNat len.toInt.toNat ↔ _ := mem_pageRange_iff huser hend
  -- the pages of the list are mapped, those of the request were not
  have happart : ∀ x ∈ a.va, x.Apart ⟨addr.toNat, len.toInt.toNat⟩ := by
    intro x hx p hp hp'
    obtain ⟨f, hlt, hentry⟩ := held.mapped x hx p hp
    rw [hnone p hp'] at hentry
    exact (frameOf_eq_some.mp (frameOf_frameEntry hlt)).1 hentry.symm
  have hsame : ∀ x ∈ a.va, ∀ p, Touched x.virtualAddr x.len p →
      entryOf s1.memory.words a.pd p = entryOf s.memory.words a.pd p := fun x hx p hp =>
    hfilled.others p (hp.index_lt (held.end_le hx)) fun hp' => happart x hx p hp (hmem.mp hp')
  refine ⟨_, Function.update_self .., ?_, fun _ => by simp, fun x hx => by simp [hx]⟩
  refine (held.congr hsame).append (h.belowTop htop ha hchecks) ?_ (fun p hp => ?_) happart
  · show 0 < len.toInt.toNat
    omega
  · obtain ⟨f, hf, hentry⟩ := hfilled.frame (hmem.mpr hp)
    exact ⟨f, (mem_freeSet.mp (hfilled.free f hf)).1, hentry⟩

/-- `remove_pages` keeps the invariant. -/
theorem Sound.held_removePages (h : Sound kernelBlocks lost s) (ha : s.currentSpace = some a)
    (held : RegionsHeld s.memory.words a.pd a.va)
    (call : s.sysRemovePages addr = some (s', r)) :
    ∃ a', s'.currentSpace = some a' ∧ RegionsHeld s'.memory.words a'.pd a'.va ∧
      ∀ x ∈ a.va, x.virtualAddr ≠ addr.toNat → x ∈ a'.va := by
  by_cases hex : ∃ x ∈ a.va, x.virtualAddr = addr.toNat
  · obtain ⟨region, hregion, haddr⟩ := hex
    have hbelow := held.below region hregion
    obtain ⟨m, fs, hfreed, hemptied, -⟩ := h.region_emptied ha held hregion
    rw [h.removePages_region ha held hregion haddr, ← haddr, hfreed, Option.map_some,
      Option.some.injEq] at call
    obtain ⟨rfl, rfl⟩ := Prod.mk.inj call
    have hsame : ∀ x ∈ a.va.erase region, ∀ p, Touched x.virtualAddr x.len p →
        entryOf m.words a.pd p = entryOf s.memory.words a.pd p := by
      intro x hx p hp
      have hindex := hp.index_lt (held.end_le (List.mem_of_mem_erase hx))
      refine (hemptied.entries p hindex).trans (if_neg fun hp' => ?_)
      exact held.apart_of_erase hregion hx hp
        ((mem_pageRange_iff hbelow.user (held.end_le hregion)).mp hp')
    refine ⟨_, Function.update_self .., (held.erase region).congr hsame, fun x hx hne => ?_⟩
    refine (held.nodup.mem_erase_iff).mpr ⟨?_, hx⟩
    rintro rfl
    exact hne haddr
  · have hno : ∀ x ∈ a.va, x.virtualAddr ≠ addr.toNat := fun x hx he => hex ⟨x, hx, he⟩
    rw [Vm.sysRemovePages_none ha hno] at call
    obtain ⟨rfl, rfl⟩ := Prod.mk.inj (Option.some.inj call)
    exact ⟨a, ha, held, fun _ hx _ => hx⟩

/-- **One call keeps the invariant**: an accepted request adds its region, and `remove_pages` takes
none away but those that start at its address. -/
theorem Sound.regionsHeld_step (h : Sound kernelBlocks lost s) (htop : TopKept s)
    (ha : s.currentSpace = some a) (held : RegionsHeld s.memory.words a.pd a.va)
    {e : Event × Int} (hstep : ProperPagesStep s e s') :
    ∃ a', s'.currentSpace = some a' ∧ RegionsHeld s'.memory.words a'.pd a'.va ∧
      (∀ addr len, e.1.call = .newPages addr len → e.2 = 0 →
        ⟨addr.toNat, len.toInt.toNat⟩ ∈ a'.va) ∧
      ∀ x ∈ a.va, (∀ addr, e.1.call = .removePages addr → x.virtualAddr ≠ addr.toNat) →
        x ∈ a'.va := by
  obtain ⟨⟨hpages, hrun⟩, hpos, hserved⟩ := hstep
  obtain ⟨⟨c, answers⟩, r⟩ := e
  have h0 := h.supply answers
  obtain ⟨⟨t, r'⟩, hcode, hend⟩ := Option.bind_eq_some_iff.mp hrun
  split at hend
  case isFalse => cases hend
  obtain ⟨rfl, rfl⟩ := Prod.mk.inj (Option.some.inj hend)
  cases c with
  | newPages addr len =>
      obtain ⟨a', ha', hheld', hnew, hold⟩ := h0.held_newPages htop ha held hserved hpos hcode
      refine ⟨a', ha', hheld', fun addr' len' hcall hr => ?_, fun x hx _ => hold x hx⟩
      cases hcall
      exact hnew hr
  | removePages addr =>
      obtain ⟨a', ha', hheld', hold⟩ := h0.held_removePages ha held hcode
      refine ⟨a', ha', hheld', fun _ _ hcall => ?_, fun x hx hne => hold x hx (hne addr rfl)⟩
      cases hcall
  | fork => exact hpages.elim
  | exec => exact hpages.elim
  | wait => exact hpages.elim
  | vanish => exact hpages.elim
  | contextSwitch => exact hpages.elim

end

/-! ## Every sequence of calls -/

end Pebbles.Memory
