import Pebbles.Memory.PageContents

/-! # Allocating a range and freeing it

`allocate_pages` and `free_pages` compute the pages of a range with shifts, masks and carries:
`mem_pageRange_iff` says that these are the pages that the range touches. `rangeRoundTrip_iff` says
when the two are inverses of each other: whenever `memalign` answers no `NULL`, which
`virtual_map_physical` would use as a page table. -/

namespace Pebbles.Memory

/-! ## The pages of a range -/

/-- The page `p` is one of those that the range touches. -/
def Touched (va size : Nat) (p : Nat × Nat) : Prop :=
  p.2 < pageLen ∧ va / 4096 ≤ p.1 * pageLen + p.2 ∧
    p.1 * pageLen + p.2 < (va + size + 4095) / 4096

/-- The number of pages of a range in the user half. -/
theorem pageTimes_eq {va size : Nat} (hva : userMemStart ≤ va) (hend : va + size ≤ 2 ^ 32) :
    pageTimes va size = (va + size + 4095) / 4096 - va / 4096 := by
  rw [userMemStart] at hva
  have hsmall : (va % 4096 + size) % 2 ^ 32 = va % 4096 + size := Nat.mod_eq_of_lt (by omega)
  rw [pageTimes, and_fff, hsmall, pageSize]
  split <;> omega

/-- **The pages of a range** are those that it touches, with both indices in bounds. -/
theorem mem_pageRange_iff {va size : Nat} (hva : userMemStart ≤ va) (hend : va + size ≤ 2 ^ 32)
    {p : Nat × Nat} : p ∈ pageRange va size ↔ Touched va size p := by
  have hsum := vaPdInd_mul_add va
  have htimes := pageTimes_eq hva hend
  rw [pageRange, List.mem_map, Touched]
  rw [pageLen] at *
  constructor
  · rintro ⟨k, hk, rfl⟩
    rw [List.mem_range] at hk
    dsimp only
    omega
  · rintro ⟨hlt, hfirst, hlast⟩
    refine ⟨p.1 * 1024 + p.2 - va / 4096, ?_, Prod.ext ?_ ?_⟩
    · rw [List.mem_range]
      omega
    · dsimp only
      omega
    · dsimp only
      omega

/-- A page of the range is one of the page directory. -/
theorem Touched.index_lt {va size : Nat} {p : Nat × Nat} (h : Touched va size p)
    (hend : va + size ≤ 2 ^ 32) : p.1 < pageLen := by
  obtain ⟨hlt, -, hlast⟩ := h
  rw [pageLen] at *
  omega

/-- The pages of a range are distinct. -/
theorem pageRange_nodup (va size : Nat) : (pageRange va size).Nodup := by
  refine (pageRange_pairwise va size).imp fun {p q} hlt heq => ?_
  rw [heq, Before] at hlt
  omega

/-! ## The round trip -/

/-- The page `p` is mapped, as `addr_has_mapping` sees it. -/
def PageMapped (words : Nat → Nat → Nat) (pd : Nat) (p : Nat × Nat) : Prop :=
  deflagAddr (words pd p.1) ≠ 0 ∧ deflagAddr (words (deflagAddr (words pd p.1)) p.2) ≠ 0

/-- **What `allocate_pages` is to do** to the range. -/
structure Allocated (s s1 : PagedMem) (pd va size : Nat) : Prop where
  /-- The pages are mapped. -/
  mapped : ∀ p, Touched va size p → PageMapped s1.memory.words pd p
  /-- Each has a frame that was free, the flags 7 and nothing but zeros. -/
  frames : ∀ p, Touched va size p → ∃ f ∈ s.memory.frames.freeSet,
    entryOf s1.memory.words pd p = addFlag (f * pageSize) 0x7 ∧ ∀ k, s1.bytes f k = 0
  /-- The frames are distinct. -/
  distinct : ∀ p q, Touched va size p → Touched va size q →
    entryOf s1.memory.words pd p = entryOf s1.memory.words pd q → p = q
  /-- No other page changes. -/
  others : ∀ q : Nat × Nat, q.1 < pageLen → ¬ Touched va size q →
    entryOf s1.memory.words pd q = entryOf s.memory.words pd q
  /-- No page table that was there is replaced. -/
  kept : ∀ k, s.memory.words pd k ≠ 0 → s1.memory.words pd k = s.memory.words pd k
  /-- Nothing is written elsewhere. -/
  elsewhere : ∀ b, Elsewhere s.memory pd b → s1.memory.words b = s.memory.words b

/-- **What `free_pages` is to do** to the range: take back what was done to `m` before. -/
structure Released (m m2 : PhysMem) (pd va size : Nat) : Prop where
  /-- The pages are unmapped. -/
  unmapped : ∀ p, Touched va size p → entryOf m2.words pd p = 0
  /-- The counts. -/
  refcount : ∀ k, m2.frames.refcount k = m.frames.refcount k
  /-- The counter. -/
  freeFrameNum : m2.frames.freeFrameNum = m.frames.freeFrameNum
  /-- No other page changes. -/
  others : ∀ q : Nat × Nat, q.1 < pageLen → ¬ Touched va size q →
    entryOf m2.words pd q = entryOf m.words pd q
  /-- Nothing is written elsewhere. -/
  elsewhere : ∀ b, Elsewhere m pd b → m2.words b = m.words b

/-- **The claim about the two routines**: one maps the range, the other takes it back. -/
def RangeRoundTrip (s : PagedMem) (pd va size : Nat) : Prop :=
  ∃ s1 m2, s.allocatePages pd va size = some s1 ∧ Allocated s s1 pd va size ∧
    freePages s1.memory pd va size = some m2 ∧ Released s.memory m2 pd va size

section
variable {s s1 : PagedMem} {m : PhysMem} {pd va size : Nat} {l : List (Nat × Nat)} {fs : List Nat}

/-- **The contents do not get in the way**: the loop with contents does to the kernel's memory what
the loop without does. -/
theorem PagedMem.mapAll_memory (hok : s.memory.frames.Ordered)
    (hfirst : s.memory.frames.refcount 0 = 1) (ha : Ahead s.memory pd l)
    (hsorted : l.Pairwise Before) (hcr3 : s.memory.cr3 = pd) :
    (s.mapAll pd l).map PagedMem.memory = Memory.mapAll s.memory pd l := by
  induction l generalizing s with
  | nil => rfl
  | cons p l ih =>
      rw [PagedMem.mapAll_cons, Memory.mapAll_cons, PagedMem.virtualMapPhysical]
      cases hmap : Memory.virtualMapPhysical s.memory pd p.1 p.2 with
      | none => rfl
      | some answer =>
          obtain ⟨r, m⟩ := answer
          obtain ⟨-, heffect⟩ := mapEffect_of_call hok (hok.freeFrame_ne hfirst) hmap
          obtain ⟨hleft, -⟩ := heffect.left hok hfirst ha hsorted
          have hcr3' : m.cr3 = pd := heffect.cr3.trans hcr3
          have hsorted' := (List.pairwise_cons.mp hsorted).2
          simp only [Option.bind_some]
          split
          · next hr =>
              subst hr
              obtain ⟨f, hlt, hentry⟩ := heffect.maps (ha.mono (by simp))
              have htranslate : m.translate p = some f := by
                rw [PhysMem.translate, hcr3', hentry]
                exact frameOf_frameEntry hlt
              rw [PagedMem.clearPage, htranslate]
              exact ih (s := ⟨m, Function.update s.bytes f fun _ => 0⟩) hleft.ordered
                hleft.first_frame hleft.ahead hsorted' hcr3'
          · exact ih (s := ⟨m, s.bytes⟩) hleft.ordered hleft.first_frame hleft.ahead hsorted' hcr3'

/-- The frame of a page that was mapped. -/
theorem Filled.frame (h : Filled s s1 pd l fs) {p : Nat × Nat} (hp : p ∈ l) :
    ∃ f ∈ fs, entryOf s1.memory.words pd p = frameEntry f := by
  have hmem : entryOf s1.memory.words pd p ∈ fs.map frameEntry := by
    rw [← h.entries]
    exact List.mem_map_of_mem hp
  obtain ⟨f, hf, heq⟩ := List.mem_map.mp hmem
  exact ⟨f, hf, heq.symm⟩

/-- Distinct pages have distinct entries. -/
theorem Filled.distinct (h : Filled s s1 pd l fs) {p q : Nat × Nat} (hp : p ∈ l) (hq : q ∈ l)
    (heq : entryOf s1.memory.words pd p = entryOf s1.memory.words pd q) : p = q := by
  have hnodup : (l.map (entryOf s1.memory.words pd)).Nodup := by
    rw [h.entries]
    exact h.nodup.map fun _ _ => frameEntry_inj
  exact List.inj_on_of_nodup_map hnodup hp hq heq

/-- A page that was mapped is mapped as `addr_has_mapping` sees it. -/
theorem Filled.pageMapped (h : Filled s s1 pd l fs) (hfirst : s.memory.frames.refcount 0 = 1)
    {p : Nat × Nat} (hp : p ∈ l) (hi : p.1 < pageLen) : PageMapped s1.memory.words pd p := by
  obtain ⟨f, hf, hentry⟩ := h.frame hp
  obtain ⟨hlt, hzero⟩ := mem_freeSet.mp (h.free f hf)
  have hne : entryOf s1.memory.words pd p ≠ 0 := by
    rw [hentry]
    exact (frameOf_eq_some.mp (frameOf_frameEntry hlt)).1
  have hpde : s1.memory.words pd p.1 ≠ 0 := fun e => hne (entryOf_of_none e)
  refine ⟨fun e => h.directory.null (e ▸ h.directory.table_mem p.1 hi hpde), ?_⟩
  rw [← entryOf_of_table hpde, hentry, deflagAddr_frameEntry hlt]
  refine Nat.mul_ne_zero ?_ (by decide)
  rintro rfl
  omega

/-- The pages that were mapped are allocated as they should be. -/
theorem Filled.allocated (hfilled : Filled s s1 pd (pageRange va size) fs)
    (hfirst : s.memory.frames.refcount 0 = 1) (hva : userMemStart ≤ va)
    (hend : va + size ≤ 2 ^ 32) : Allocated s s1 pd va size := by
  have hmem : ∀ {p}, p ∈ pageRange va size ↔ Touched va size p := mem_pageRange_iff hva hend
  refine ⟨fun p hp => ?_, fun p hp => ?_, fun p q hp hq => ?_, fun q hq hnt => ?_, hfilled.kept,
    fun b hb => (hfilled.elsewhere b hb).2⟩
  · exact hfilled.pageMapped hfirst (hmem.mpr hp) (hp.index_lt hend)
  · obtain ⟨f, hf, hentry⟩ := hfilled.frame (hmem.mpr hp)
    refine ⟨f, hfilled.free f hf, hentry, fun k => ?_⟩
    rw [hfilled.bytes, if_pos hf]
  · exact hfilled.distinct (hmem.mpr hp) (hmem.mpr hq)
  · exact hfilled.others q hq fun hq' => hnt (hmem.mp hq')

/-- **A range that `free_pages` takes back.** -/
theorem Filled.released (hfilled : Filled s s1 pd (pageRange va size) fs)
    (hfirst : s.memory.frames.refcount 0 = 1) (hva : userMemStart ≤ va)
    (hend : va + size ≤ 2 ^ 32) :
    ∃ m2, freePages s1.memory pd va size = some m2 ∧ Released s.memory m2 pd va size := by
  have hmem : ∀ {p}, p ∈ pageRange va size ↔ Touched va size p := mem_pageRange_iff hva hend
  have hl : ∀ p ∈ pageRange va size, p.1 < pageLen := fun p hp => (hmem.mp hp).index_lt hend
  have hfree : ∀ f ∈ fs, f < totalPhysFrames ∧ s.memory.frames.refcount f = 0 := fun f hf =>
    mem_freeSet.mp (hfilled.free f hf)
  obtain ⟨m2, hfreed, hemptied⟩ := hfilled.directory.emptied hl (pageRange_nodup va size)
    hfilled.entries hfilled.nodup fun f hf => by
      refine ⟨(hfree f hf).1, ?_, by rw [hfilled.refcount, if_pos hf]⟩
      rintro rfl
      have hzero := (hfree 0 hf).2
      rw [hfirst] at hzero
      cases hzero
  refine ⟨m2, (freePages_eq ..).trans hfreed, fun p hp => ?_, fun k => ?_, ?_, fun q hq hnt => ?_,
    fun b hb => ?_⟩
  · rw [hemptied.entries p (hp.index_lt hend), if_pos (hmem.mpr hp)]
  · rw [hemptied.refcount, hfilled.refcount]
    by_cases hk : k ∈ fs
    · rw [if_pos hk, (hfree k hk).2]
    · rw [if_neg hk, if_neg hk]
  · rw [hemptied.freeFrameNum, hfilled.freeFrameNum]
    omega
  · rw [hemptied.entries q hq, if_neg fun hq' => hnt (hmem.mp hq'),
      hfilled.others q hq fun hq' => hnt (hmem.mp hq')]
  · obtain ⟨hb1, hw1⟩ := hfilled.elsewhere b hb
    exact ((hemptied.elsewhere b hb1).2).trans hw1

/-- **When `allocate_pages` comes back**, for a range none of whose pages is mapped: more frames are
within reach than there are pages. If the page tables are all there then, `memalign` has answered
no `NULL`. -/
theorem PagedMem.allocatePages_isSome_iff (h : Directory s.memory pd) (hcr3 : s.memory.cr3 = pd)
    (hva : userMemStart ≤ va) (hend : va + size ≤ 2 ^ 32)
    (hnone : ∀ p, Touched va size p → entryOf s.memory.words pd p = 0)
    (hsupply : Supplied s.memory.heap s.memory.answers)
    (hlen : s.memory.answers.length = tablesMissing s.memory.words pd (pageRange va size)) :
    ((s.allocatePages pd va size).isSome ↔
      (pageRange va size).length < s.memory.frames.aboveSet.card) ∧
    ∀ s1, s.allocatePages pd va size = some s1 →
      (∀ p, Touched va size p → PageMapped s1.memory.words pd p) → NonNull s.memory.answers := by
  have hmem : ∀ {p}, p ∈ pageRange va size ↔ Touched va size p := mem_pageRange_iff hva hend
  have hl : ∀ p ∈ pageRange va size, p.1 < pageLen := fun p hp => (hmem.mp hp).index_lt hend
  have hahead := h.ahead hl
  have hsorted := pageRange_pairwise va size
  have hproject := s.mapAll_memory h.ordered h.first_frame hahead hsorted hcr3
  have hall : missing s.memory.words pd (pageRange va size) = pageRange va size :=
    List.filter_eq_self.mpr fun p hp => by simp [hnone p (hmem.mp hp)]
  have hsome := mapAll_isSome_iff h.ordered h.first_frame hsupply
    (hlen.trans (Nat.zero_add _).symm) hahead hsorted hl
  rw [hall, ← hproject, Option.isSome_map] at hsome
  refine ⟨hsome, fun s1 hcall hmapped => ?_⟩
  have hloop : Memory.mapAll s.memory pd (pageRange va size) = some s1.memory := by
    rw [← hproject, show s.mapAll pd (pageRange va size) = some s1 from hcall]
    rfl
  exact nonNull_of_mapAll h.standing hsupply hlen hloop fun p hp => (hmapped p (hmem.mp hp)).1

/-- **Allocating and freeing a range.** In every page directory that is in use, for every range of
the user half none of whose pages is mapped and for which the frames suffice: `allocate_pages` maps
exactly the pages of the range and `free_pages` takes exactly this back, if and only if none of the
answers of `memalign` for the missing page tables is `NULL`. -/
theorem rangeRoundTrip_iff (h : Directory s.memory pd) (hcr3 : s.memory.cr3 = pd)
    (hva : userMemStart ≤ va) (hend : va + size ≤ 2 ^ 32)
    (hnone : ∀ p, Touched va size p → entryOf s.memory.words pd p = 0)
    (hframes : (acquireMany (pageRange va size).length s.memory.frames).isSome)
    (hsupply : Supplied s.memory.heap s.memory.answers)
    (hlen : s.memory.answers.length = tablesMissing s.memory.words pd (pageRange va size)) :
    RangeRoundTrip s pd va size ↔ NonNull s.memory.answers := by
  obtain ⟨hsome, hnull⟩ := s.allocatePages_isSome_iff h hcr3 hva hend hnone hsupply hlen
  constructor
  · rintro ⟨s1, m2, hcall, hallocated, -⟩
    exact hnull s1 hcall hallocated.mapped
  · intro hnn
    obtain ⟨s1, hcall⟩ := Option.isSome_iff_exists.mp
      (hsome.mpr ((acquireMany_isSome_iff_of_ordered h.ordered _).mp hframes))
    obtain ⟨-, fs, hfilled⟩ := s.filled_of_mapAll h hcr3 hnn (pageRange_nodup va size)
      (fun p hp => hnone p ((mem_pageRange_iff hva hend).mp hp)) hcall
    obtain ⟨m2, hfreed, hreleased⟩ := hfilled.released h.first_frame hva hend
    exact ⟨s1, m2, hcall, hfilled.allocated h.first_frame hva hend, hfreed, hreleased⟩

end

/-- The memory of `emptyDirectory` with one answer of `memalign`. -/
def oneAnswer (address : Nat) : PagedMem :=
  ⟨{ emptyDirectory with answers := [⟨address, fun _ => 0⟩] }, fun _ _ => 0xff⟩

/-- `rangeRoundTrip_iff` at the first user page, with a block for the page table. -/
theorem rangeRoundTrip_iff_oneAnswer :
    RangeRoundTrip (oneAnswer 8192) 4096 0x01000000 4096 ↔
      NonNull (oneAnswer 8192).memory.answers := by
  have h : Directory (oneAnswer 8192).memory 4096 := ⟨directory_emptyDirectory.ordered, rfl,
    by decide, by decide, fun i _ hne => absurd rfl hne, fun i _ hne => absurd rfl hne,
    fun i _ _ _ hne => absurd rfl hne⟩
  have hlength : (pageRange 0x01000000 4096).length = 1 := by decide
  refine rangeRoundTrip_iff h rfl (by decide) (by decide) (fun p _ => rfl) ?_
    (Or.inr ⟨⟨by decide, by decide, by decide⟩, by decide, trivial⟩) (by decide)
  rw [hlength]
  rfl

/-- **A page table at `NULL`**: with the `NULL` of `memalign` as its page table the page is not
mapped, as `addr_has_mapping` sees it, when `allocate_pages` has come back. -/
theorem null_table_breaks_round_trip :
    Directory (oneAnswer 0).memory 4096 ∧ (oneAnswer 0).memory.cr3 = 4096 ∧
      (∀ p, entryOf (oneAnswer 0).memory.words 4096 p = 0) ∧
      (acquireMany (pageRange 0x01000000 4096).length (oneAnswer 0).memory.frames).isSome ∧
      ¬ RangeRoundTrip (oneAnswer 0) 4096 0x01000000 4096 := by
  have hlength : (pageRange 0x01000000 4096).length = 1 := by decide
  refine ⟨⟨directory_emptyDirectory.ordered, rfl, by decide, by decide,
    fun i _ hne => absurd rfl hne, fun i _ hne => absurd rfl hne,
    fun i _ _ _ hne => absurd rfl hne⟩, rfl, fun p => rfl, by rw [hlength]; rfl, ?_⟩
  rintro ⟨s1, m2, hcall, hallocated, -⟩
  have hpage : Touched 0x01000000 4096 (4, 0) := ⟨by decide, by decide, by decide⟩
  have hmapped := (hallocated.mapped (4, 0) hpage).1
  have hdir : ((oneAnswer 0).allocatePages 4096 0x01000000 4096).map
      (fun s => s.memory.words 4096 4) = some 7 := by decide +kernel
  rw [hcall, Option.map_some, Option.some.injEq] at hdir
  exact hmapped (by rw [hdir]; decide)

end Pebbles.Memory
