import Pebbles.Memory.CleanSlate
import Pebbles.Memory.RangeRoundTrip
import Pebbles.Memory.UserBytes

/-! # The image of a program

`program_loader` (`kern/process/process.c`) maps the pages of the segments and of the stack, then
copies the segments with `getbytes` and clears the zeros. Segments may share pages: the loop meets
those more than once, and `virtual_map_physical` leaves a page alone that is mapped already.
`loadsImage_iff` says when the image is the one that the header describes. -/

namespace Pebbles.Memory

open ByteStores

/-! ## The loader -/

namespace PagedMem

/-- `init_pd`. -/
def initPd (s : PagedMem) : Option (Nat × PagedMem) :=
  (Memory.initPd s.memory).map fun (pd, m) => (pd, { s with memory := m })

/-- `program_loader`, with the contents of the pages. -/
def programLoader (s : PagedMem) (p : Program) (pd : Nat) : Option PagedMem :=
  let h := p.header
  (s.allocatePages pd h.txtStart.toNat h.txtLen.toNat).bind fun s =>
    (s.allocatePages pd h.rodatStart.toNat h.rodatLen.toNat).bind fun s =>
      (s.allocatePages pd h.bssStart.toNat h.bssLen.toNat).bind fun s =>
        (s.allocatePages pd h.datStart.toNat h.datLen.toNat).bind fun s =>
          (s.allocatePages pd 0xffffe000 8192).bind fun s =>
            (s.storeBytes h.datStart (p.getbytes p.datOff h.datLen)).bind fun s =>
              (s.storeBytes h.txtStart (p.getbytes p.txtOff h.txtLen)).bind fun s =>
                (s.storeBytes h.rodatStart (p.getbytes p.rodatOff h.rodatLen)).bind fun s =>
                  -- `assert(result > 0)`, where `result` sums up what `getbytes` has copied
                  if 0 < (h.datLen + h.txtLen + h.rodatLen).toInt32.toInt then
                    s.storeBytes h.bssStart (List.replicate h.bssLen.toNat 0)
                  else none

end PagedMem

/-! ## The property -/

/-- The segments, each with its start and its length. -/
def ElfHeader.segments (h : ElfHeader) : List (UInt32 × UInt32) :=
  [(h.txtStart, h.txtLen), (h.rodatStart, h.rodatLen), (h.bssStart, h.bssLen),
    (h.datStart, h.datLen)]

/-- The address is in the segment. -/
def InSegment (seg : UInt32 × UInt32) (a : UInt32) : Prop :=
  seg.1.toNat ≤ a.toNat ∧ a.toNat < seg.1.toNat + seg.2.toNat

/-- **The headers in question**: there is text; the other segments may be absent. They are disjoint
and lie between the kernel and the stack, where they may share pages. -/
structure ElfHeader.WellLaid (h : ElfHeader) : Prop where
  /-- There is text. -/
  text : h.txtLen ≠ 0
  /-- Where the segments are. -/
  range : ∀ seg ∈ h.segments, seg = (0, 0) ∨
    seg.2 ≠ 0 ∧ userMemStart ≤ seg.1.toNat ∧ seg.1.toNat + seg.2.toNat ≤ 0xffffe000
  /-- No two of them overlap. -/
  disjoint : h.segments.Pairwise fun seg seg' =>
    seg.1.toNat + seg.2.toNat ≤ seg'.1.toNat ∨ seg'.1.toNat + seg'.2.toNat ≤ seg.1.toNat

/-- A page of the program: one that a segment touches, or one of the stack. -/
def ProgramPage (h : ElfHeader) (q : Nat × Nat) : Prop :=
  (∃ seg ∈ h.segments, Touched seg.1.toNat seg.2.toNat q) ∨ Touched 0xffffe000 8192 q

/-- **The image that the header describes.** -/
structure ImageLoaded (s s1 : PagedMem) (p : Program) (pd : Nat) : Prop where
  /-- The text. -/
  text : ∀ k < p.header.txtLen.toNat,
    s1.byteAt (p.header.txtStart + UInt32.ofNat k) = some (p.execbytes (p.txtOff.toNat + k))
  /-- The constants. -/
  rodata : ∀ k < p.header.rodatLen.toNat,
    s1.byteAt (p.header.rodatStart + UInt32.ofNat k) = some (p.execbytes (p.rodatOff.toNat + k))
  /-- The data. -/
  data : ∀ k < p.header.datLen.toNat,
    s1.byteAt (p.header.datStart + UInt32.ofNat k) = some (p.execbytes (p.datOff.toNat + k))
  /-- The zeros. -/
  bss : ∀ k < p.header.bssLen.toNat, s1.byteAt (p.header.bssStart + UInt32.ofNat k) = some 0
  /-- The stack. -/
  stack : ∀ a : UInt32, 0xffffe000 ≤ a.toNat → s1.byteAt a = some 0
  /-- The other bytes of these pages. -/
  rest : ∀ (a : UInt32) (b : UInt8), userMemStart ≤ a.toNat →
    (∀ seg ∈ p.header.segments, ¬ InSegment seg a) → s1.byteAt a = some b → b = 0
  /-- The pages, as `addr_has_mapping` sees them. -/
  mapped : ∀ q, UserPage q → (PageMapped s1.memory.words pd q ↔ ProgramPage p.header q)
  /-- The other pages have no entry. -/
  unmapped : ∀ q, UserPage q → ¬ ProgramPage p.header q → entryOf s1.memory.words pd q = 0
  /-- The pages of the kernel. -/
  kernel : ∀ q : Nat × Nat, q.1 < 4 →
    entryOf s1.memory.words pd q = entryOf s.memory.words pd q

/-- **The claim about `program_loader`**: it comes to its end with that image. -/
def LoadsImage (s : PagedMem) (p : Program) (pd : Nat) : Prop :=
  ∃ s1, s.programLoader p pd = some s1 ∧ ImageLoaded s s1 p pd

/-- **A fresh page directory**, as `init_pd` leaves it: it is in use, and empty above the kernel. -/
structure FreshDirectory (m : PhysMem) (pd : Nat) : Prop where
  /-- It is a page directory. -/
  directory : Directory m pd
  /-- It is in use. -/
  active : m.cr3 = pd
  /-- It has no page tables for the user half. -/
  empty : ∀ i, 4 ≤ i → i < pageLen → m.words pd i = 0

/-! ## A loop that meets pages twice -/

section Loops

variable {s s1 : PagedMem} {m : PhysMem} {pd n : Nat} {l l' : List (Nat × Nat)} {p : Nat × Nat}

/-- The pages of a list that are not mapped, each once. -/
def unmappedPages (words : Nat → Nat → Nat) (pd : Nat) (l : List (Nat × Nat)) :
    Finset (Nat × Nat) :=
  l.toFinset.filter fun p => entryOf words pd p = 0

/-- One list after the other. -/
theorem PagedMem.mapAll_append (s : PagedMem) (pd : Nat) (l l' : List (Nat × Nat)) :
    s.mapAll pd (l ++ l') = (s.mapAll pd l).bind fun s => s.mapAll pd l' := by
  rw [PagedMem.mapAll, List.foldlM_append]
  rfl

/-- A page that is mapped already is left alone. -/
theorem PagedMem.virtualMapPhysical_mapped (hi : p.1 < pageLen)
    (hne : entryOf s.memory.words pd p ≠ 0) :
    s.virtualMapPhysical pd p.1 p.2 = some (-1, s) := by
  have hpde : s.memory.words pd p.1 ≠ 0 := fun e => hne (entryOf_of_none e)
  rw [entryOf_of_table hpde] at hne
  rw [PagedMem.virtualMapPhysical, virtualMapPhysical_taken hi hpde hne]
  rfl

/-- A page that is not mapped gets mapped and cleared, when there is a frame for it and an answer of
`memalign` for its page table. -/
theorem PagedMem.virtualMapPhysical_unmapped (h : Directory s.memory pd) (hcr3 : s.memory.cr3 = pd)
    (hnn : NonNull s.memory.answers) (hsupply : Supplied s.memory.heap s.memory.answers)
    (hlen : s.memory.answers.length = n + tablesMissing s.memory.words pd (p :: l))
    (hi : p.1 < pageLen) (hzero : entryOf s.memory.words pd p = 0)
    (hframe : 1 < s.memory.frames.aboveSet.card) :
    ∃ s1 f, s.virtualMapPhysical pd p.1 p.2 = some (0, s1) ∧
      Entered s.memory s1.memory pd p f ∧ Supplied s1.memory.heap s1.memory.answers ∧
      s1.memory.answers.length = n + tablesMissing s1.memory.words pd l := by
  have hpos := h.ordered.freeFrame_ne h.first_frame
  have hne : s.memory.words pd p.1 = 0 → s.memory.answers ≠ [] := by
    intro hpde he
    have hmem : p.1 ∈ ((p :: l).map Prod.fst).toFinset.filter
        fun i => s.memory.words pd i = 0 := by
      simp [hpde]
    have hcard := Finset.card_pos.mpr ⟨_, hmem⟩
    rw [he, tablesMissing, List.length_nil] at hlen
    omega
  obtain ⟨⟨r, m⟩, hmap⟩ := Option.isSome_iff_exists.mp
    ((virtualMapPhysical_isSome_iff pd h.ordered hpos hsupply hne hi).mpr (Or.inr hframe))
  obtain ⟨-, heffect⟩ := mapEffect_of_call h.ordered hpos hmap
  obtain ⟨rfl, f, hentered⟩ := heffect.entered h hnn hi hzero
  obtain ⟨hsupply', hlen'⟩ := heffect.supplied (h.standing.ahead hi) hsupply hlen
  have htranslate : m.translate p = some f := by
    rw [PhysMem.translate, hentered.cr3, hcr3, hentered.entries p hi, if_pos rfl,
      frameOf_frameEntry hentered.takes.lt]
  refine ⟨⟨m, Function.update s.bytes f fun _ => 0⟩, f, ?_, hentered, hsupply', hlen'⟩
  have hclear : clearPage { s with memory := m } p
      = some ⟨m, Function.update s.bytes f fun _ => 0⟩ := by
    rw [clearPage, htranslate]
    rfl
  simp only [PagedMem.virtualMapPhysical, hmap, Option.bind_some, if_true, Prod.mk.eta, hclear,
    Option.map_some]

/-- **The loop comes to its end** when the frames and the answers of `memalign` suffice. -/
theorem PagedMem.mapAll_isSome (h : Directory s.memory pd) (hcr3 : s.memory.cr3 = pd)
    (hnn : NonNull s.memory.answers) (hsupply : Supplied s.memory.heap s.memory.answers)
    (hlen : s.memory.answers.length = n + tablesMissing s.memory.words pd l)
    (hl : ∀ p ∈ l, p.1 < pageLen)
    (hframes : (unmappedPages s.memory.words pd l).card < s.memory.frames.aboveSet.card) :
    (s.mapAll pd l).isSome := by
  induction l generalizing s with
  | nil => rfl
  | cons p l ih =>
      have hi := hl p List.mem_cons_self
      have hl' : ∀ q ∈ l, q.1 < pageLen := fun q hq => hl q (List.mem_cons_of_mem p hq)
      rw [PagedMem.mapAll_cons]
      by_cases hzero : entryOf s.memory.words pd p = 0
      · rw [unmappedPages, List.toFinset_cons, Finset.filter_insert, if_pos hzero] at hframes
        have hcard := Finset.card_pos.mpr ⟨p, Finset.mem_insert_self p
          (l.toFinset.filter fun p => entryOf s.memory.words pd p = 0)⟩
        obtain ⟨s1, f, hcall, hentered, hsupply', hlen'⟩ :=
          virtualMapPhysical_unmapped h hcr3 hnn hsupply hlen hi hzero (by omega)
        rw [hcall, Option.bind_some]
        refine ih (s := s1) hentered.directory (hentered.cr3.trans hcr3)
          (hnn.suffix hentered.answers) hsupply' hlen' hl' ?_
        -- one page less, one frame less
        have hless : unmappedPages s1.memory.words pd l ⊆
            (insert p (l.toFinset.filter fun p => entryOf s.memory.words pd p = 0)).erase p := by
          intro q hq
          obtain ⟨hql, hqzero⟩ := Finset.mem_filter.mp hq
          rw [hentered.entries q (hl' q (List.mem_toFinset.mp hql))] at hqzero
          split at hqzero
          · exact absurd hqzero
              (frameOf_eq_some.mp (frameOf_frameEntry hentered.takes.lt)).1
          · next hqp =>
              exact Finset.mem_erase.mpr ⟨hqp, Finset.mem_insert_of_mem
                (Finset.mem_filter.mpr ⟨hql, hqzero⟩)⟩
        have hlt := (Finset.card_le_card hless).trans_lt
          (Finset.card_erase_lt_of_mem (Finset.mem_insert_self p _))
        have habove := hentered.takes.above
        omega
      · rw [virtualMapPhysical_mapped hi hzero, Option.bind_some]
        have hpde : s.memory.words pd p.1 ≠ 0 := fun e => hzero (entryOf_of_none e)
        rw [tablesMissing_cons_of_table hpde rfl] at hlen
        refine ih h hcr3 hnn hsupply hlen hl' ?_
        rwa [unmappedPages, List.toFinset_cons, Finset.filter_insert, if_neg hzero] at hframes

/-- **What the loop does**: each page gets a frame, once. -/
theorem PagedMem.filled_of_loop (h : Directory s.memory pd) (hcr3 : s.memory.cr3 = pd)
    (hnn : NonNull s.memory.answers) (hnone : ∀ p ∈ l, entryOf s.memory.words pd p = 0)
    (call : s.mapAll pd l = some s1) :
    (∀ p ∈ l, p.1 < pageLen) ∧
      ∃ l' fs, Filled s s1 pd l' fs ∧ ∀ q, q ∈ l' ↔ q ∈ l := by
  induction l using List.reverseRecOn generalizing s1 with
  | nil =>
      obtain rfl : s = s1 := Option.some.inj call
      exact ⟨nofun, [], [], .nil h, fun q => Iff.rfl⟩
  | append_singleton l p ih =>
      rw [mapAll_append] at call
      obtain ⟨s2, hloop, hlast⟩ := Option.bind_eq_some_iff.mp call
      rw [PagedMem.mapAll_cons] at hlast
      obtain ⟨⟨r, s3⟩, hcall, hend⟩ := Option.bind_eq_some_iff.mp hlast
      obtain rfl : s3 = s1 := Option.some.inj hend
      obtain ⟨hl, l', fs, hfilled, hmem⟩ := ih
        (fun q hq => hnone q (List.mem_append_left _ hq)) hloop
      have hi : p.1 < pageLen := by
        by_contra hge
        simp [PagedMem.virtualMapPhysical, Memory.virtualMapPhysical, hge] at hcall
      have hl' : ∀ q ∈ l ++ [p], q.1 < pageLen := by
        intro q hq
        rcases List.mem_append.mp hq with hq | hq
        · exact hl q hq
        · rw [List.mem_singleton.mp hq]
          exact hi
      refine ⟨hl', ?_⟩
      by_cases hp : p ∈ l'
      · -- the page is mapped already
        have hne : entryOf s2.memory.words pd p ≠ 0 := by
          obtain ⟨f, hf, hentry⟩ := hfilled.frame hp
          rw [hentry]
          exact (frameOf_eq_some.mp (frameOf_frameEntry (mem_freeSet.mp (hfilled.free f hf)).1)).1
        rw [virtualMapPhysical_mapped hi hne] at hcall
        obtain ⟨-, rfl⟩ := Prod.mk.inj (Option.some.inj hcall)
        refine ⟨l', fs, hfilled, fun q => ?_⟩
        rw [List.mem_append, List.mem_singleton, hmem]
        exact ⟨Or.inl, fun hq => hq.elim id fun e => e ▸ (hmem p).mp hp⟩
      · have hzero : entryOf s2.memory.words pd p = 0 := by
          rw [hfilled.others p hi hp]
          exact hnone p (List.mem_append_right _ (List.mem_singleton_self p))
        obtain ⟨-, f, hentered, hbytes⟩ := s2.entered_of_call hfilled.directory
          (hfilled.cr3.trans hcr3) (hnn.suffix hfilled.answers) hzero hcall
        refine ⟨l' ++ [p], fs ++ [f], hfilled.snoc hentered hbytes
          (fun q hq => hl q ((hmem q).mp hq)) hp hi, fun q => ?_⟩
        rw [List.mem_append, List.mem_append, hmem]

end Loops

/-! ## The fresh page directory -/

section Fresh

variable {s s1 : PagedMem} {m : PhysMem} {pd n : Nat} {h : ElfHeader} {p : Program}

/-- **`init_pd` leaves a fresh page directory**, when it gets a block for it. -/
theorem freshDirectory_of_initPd (hcur : Directory s.memory s.memory.cr3)
    (hkernel : ∀ i < 4, s.memory.words s.memory.cr3 i ≠ 0)
    (hinit : s.initPd = some (pd, s1)) (hpd : pd ≠ 0) : FreshDirectory s1.memory pd := by
  obtain ⟨⟨b, m⟩, hcall, hres⟩ := Option.map_eq_some_iff.mp hinit
  obtain ⟨rfl, rfl⟩ := Prod.mk.inj hres
  obtain ⟨⟨b, m1⟩, halloc, hres⟩ := Option.map_eq_some_iff.mp hcall
  obtain ⟨rfl, rfl⟩ := Prod.mk.inj hres
  obtain ⟨answer, -, -, -, hframes, hsame, hcases⟩ := memalign_cases halloc
  obtain ⟨hnull, -⟩ | ⟨hblock, hfresh, hheap, hwords⟩ := hcases
  · exact absurd hnull hpd
  have hne : s.memory.cr3 ≠ b := fun hb => hfresh (hb ▸ hcur.mem)
  have hold : ∀ b' k, b' ≠ b → (m1.clear b).words b' k = s.memory.words b' k := by
    intro b' k hb
    rw [PhysMem.clear_words, if_neg hb, hwords, Function.update_of_ne hb]
  obtain ⟨words, hfold, hnew⟩ := stores_spec
    (f := fun m i => addFlag (deflagAddr (m.words m.cr3 i)) 0x107)
    (g := fun i => addFlag (deflagAddr (s.memory.words s.memory.cr3 i)) 0x107) (m1.clear b) b (by
      intro m' i hc hw
      have hc' : m'.cr3 = s.memory.cr3 := hc.trans hsame
      simp only [hc', hw _ _ hne, hold _ _ hne]) 4
  -- the entries of the new page directory
  have hlow : ∀ i < 4, words b i ≠ 0 ∧
      deflagAddr (words b i) = deflagAddr (s.memory.words s.memory.cr3 i) := by
    intro i hi
    rw [hnew, if_pos ⟨rfl, hi⟩]
    have hflag := deflagAddr_addFlag (deflagAddr_mod (s.memory.words s.memory.cr3 i))
      (deflagAddr_lt _) (by decide : 0x107 < pageSize)
    refine ⟨fun hzero => ?_, hflag⟩
    have hzero' : 0x107 = 0 := (Nat.or_eq_zero_iff.mp hzero).2
    exact absurd hzero' (by decide)
  have hhigh : ∀ i, 4 ≤ i → words b i = 0 := by
    intro i hi
    rw [hnew, if_neg fun e => by omega, PhysMem.clear_words, if_pos rfl]
  have hof : ∀ i < pageLen, words b i ≠ 0 → i < 4 ∧ s.memory.words s.memory.cr3 i ≠ 0 := by
    intro i _ hne0
    have hi : i < 4 := by
      by_contra hge
      exact hne0 (hhigh i (Nat.not_lt.mp hge))
    exact ⟨hi, hkernel i hi⟩
  simp only [hfold]
  refine ⟨⟨hframes ▸ hcur.ordered, hframes ▸ hcur.first_frame, ?_, ?_, fun i hi hpde => ?_,
    fun i hi hpde => ?_, fun i hi i' hi' hpde hpde' heq => ?_⟩, rfl, fun i hi _ => hhigh i hi⟩
  · show 0 ∉ m1.heap
    rw [hheap, Finset.mem_insert, not_or]
    exact ⟨hpd.symm, hcur.null⟩
  · show b ∈ m1.heap
    rw [hheap]
    exact Finset.mem_insert_self b s.memory.heap
  · obtain ⟨hi4, hold0⟩ := hof i hi hpde
    show deflagAddr (words b i) ∈ m1.heap
    rw [(hlow i hi4).2, hheap]
    exact Finset.mem_insert_of_mem (hcur.table_mem i hi hold0)
  · obtain ⟨hi4, hold0⟩ := hof i hi hpde
    show deflagAddr (words b i) ≠ b
    rw [(hlow i hi4).2]
    exact fun e => hfresh (e ▸ hcur.table_mem i hi hold0)
  · obtain ⟨hi4, hold0⟩ := hof i hi hpde
    obtain ⟨hi4', hold0'⟩ := hof i' hi' hpde'
    refine hcur.table_inj i hi i' hi' hold0 hold0' ?_
    rw [← (hlow i hi4).2, ← (hlow i' hi4').2]
    exact heq

/-! ## The pages of the program -/

/-- The pages of a segment. -/
theorem mem_pageRange_segment {seg : UInt32 × UInt32} (hseg : seg = (0, 0) ∨
    seg.2 ≠ 0 ∧ userMemStart ≤ seg.1.toNat ∧ seg.1.toNat + seg.2.toNat ≤ 0xffffe000)
    {q : Nat × Nat} :
    q ∈ pageRange seg.1.toNat seg.2.toNat ↔ Touched seg.1.toNat seg.2.toNat q := by
  rcases hseg with rfl | ⟨-, hstart, hlast⟩
  · have hnil : pageRange (0 : UInt32).toNat (0 : UInt32).toNat = [] := by decide
    rw [hnil]
    refine ⟨nofun, fun ⟨_, _, hlt⟩ => ?_⟩
    rw [UInt32.toNat_zero] at hlt
    omega
  · exact mem_pageRange_iff hstart (by omega)

/-- **The pages that the loader maps** are those of the program. -/
theorem mem_loaderRange_iff (hlaid : h.WellLaid) {q : Nat × Nat} :
    q ∈ loaderRange h ↔ ProgramPage h q := by
  have hstack : q ∈ pageRange 0xffffe000 8192 ↔ Touched 0xffffe000 8192 q :=
    mem_pageRange_iff (by decide) (by decide)
  have hrange := hlaid.range
  simp only [ElfHeader.segments, List.forall_mem_cons, List.not_mem_nil, false_imp_iff,
    implies_true, and_true] at hrange
  obtain ⟨htxt, hrodat, hbss, hdat⟩ := hrange
  simp only [loaderRange, List.mem_append, ProgramPage, ElfHeader.segments,
    List.exists_mem_cons_iff, List.not_mem_nil, false_and, exists_false, or_false, hstack,
    mem_pageRange_segment htxt, mem_pageRange_segment hrodat, mem_pageRange_segment hbss,
    mem_pageRange_segment hdat, or_assoc]

/-- A page that a range above the kernel touches. -/
theorem Touched.userPage {va size : Nat} {q : Nat × Nat} (h : Touched va size q)
    (hva : userMemStart ≤ va) (hlast : va + size ≤ 2 ^ 32) : UserPage q := by
  have hdir := h.index_lt hlast
  obtain ⟨hlt, hfirst, -⟩ := h
  refine ⟨?_, hdir, hlt⟩
  rw [userMemStart] at hva
  rw [pageLen] at hlt hfirst
  omega

/-- The pages of the program are in the user half. -/
theorem ProgramPage.userPage {q : Nat × Nat} (hq : ProgramPage h q) (hlaid : h.WellLaid) :
    UserPage q := by
  rcases hq with ⟨seg, hseg, hq⟩ | hq
  · rcases hlaid.range seg hseg with rfl | ⟨-, hstart, hlast⟩
    · have hlt := hq.2.2
      rw [UInt32.toNat_zero] at hlt
      omega
    · exact hq.userPage hstart (by omega)
  · exact hq.userPage (by decide) (by decide)

/-- An address is on a page of what it lies in. -/
theorem touched_pageOf {a : UInt32} {va size : Nat} (hfirst : va ≤ a.toNat)
    (hlast : a.toNat < va + size) : Touched va size (pageOf a) := by
  have hpage := vaPdInd_mul_add a.toNat
  refine ⟨vaPtInd_lt a.toNat, ?_, ?_⟩
  · show _ ≤ vaPdInd a.toNat * pageLen + vaPtInd a.toNat
    omega
  · show vaPdInd a.toNat * pageLen + vaPtInd a.toNat < _
    omega

/-! ## The stores -/

/-- What the loader copies and clears, in this order. -/
def Program.stores (p : Program) : List (UInt32 × List UInt8) :=
  [(p.header.datStart, p.getbytes p.datOff p.header.datLen),
    (p.header.txtStart, p.getbytes p.txtOff p.header.txtLen),
    (p.header.rodatStart, p.getbytes p.rodatOff p.header.rodatLen),
    (p.header.bssStart, List.replicate p.header.bssLen.toNat 0)]

/-- **The loader in two parts**: the pages, and what they hold. -/
theorem PagedMem.programLoader_eq (s : PagedMem) (pd : Nat)
    (hresult : 0 < (p.header.datLen + p.header.txtLen + p.header.rodatLen).toInt32.toInt) :
    s.programLoader p pd =
      (s.mapAll pd (loaderRange p.header)).bind fun s => s.storeAll p.stores := by
  simp only [PagedMem.programLoader, loaderRange, PagedMem.mapAll_append, Option.bind_assoc,
    PagedMem.allocatePages, PagedMem.storeAll, Program.stores, List.foldlM_cons, List.foldlM_nil,
    hresult, if_true, Option.bind_eq_bind, Option.pure_def, Option.bind_fun_some]

/-- A segment has not more bytes than the pages of the program. -/
theorem segment_length_le (hlaid : h.WellLaid) {seg : UInt32 × UInt32} (hseg : seg ∈ h.segments) :
    seg.2.toNat ≤ 4096 * (loaderRange h).toFinset.card := by
  rcases hlaid.range seg hseg with rfl | ⟨-, hstart, hlast⟩
  · exact Nat.zero_le _
  · have hsub : (pageRange seg.1.toNat seg.2.toNat).toFinset ⊆ (loaderRange h).toFinset := by
      intro q hq
      rw [List.mem_toFinset, mem_pageRange_iff hstart (by omega)] at hq
      exact List.mem_toFinset.mpr ((mem_loaderRange_iff hlaid).mpr (Or.inl ⟨seg, hseg, hq⟩))
    have hcard := Finset.card_le_card hsub
    rw [List.toFinset_card_of_nodup (pageRange_nodup _ _), pageRange, List.length_map,
      List.length_range, pageTimes_eq hstart (by omega)] at hcard
    omega

/-- **The assertion of the loader holds**: the frames bound what `getbytes` copies. -/
theorem result_pos (hlaid : h.WellLaid) {frames : FrameTable}
    (hframes : (loaderRange h).toFinset.card < frames.aboveSet.card) :
    0 < (h.datLen + h.txtLen + h.rodatLen).toInt32.toInt := by
  have habove : frames.aboveSet.card ≤ 65536 := by
    have hsub : frames.aboveSet ⊆ Finset.range totalPhysFrames :=
      (Finset.filter_subset _ _).trans (Finset.filter_subset _ _)
    have hcard := Finset.card_le_card hsub
    rwa [Finset.card_range, totalPhysFrames] at hcard
  have hlength : ∀ seg ∈ h.segments, seg.2.toNat < 2 ^ 28 := fun seg hseg => by
    have hle := segment_length_le hlaid hseg
    omega
  simp only [ElfHeader.segments, List.forall_mem_cons, List.not_mem_nil, false_imp_iff,
    implies_true, and_true] at hlength
  obtain ⟨htxt, hrodat, -, hdat⟩ := hlength
  have hpos : 0 < h.txtLen.toNat :=
    Nat.pos_of_ne_zero fun e => hlaid.text (UInt32.toNat.inj e)
  have hsum : (h.datLen + h.txtLen + h.rodatLen).toNat =
      h.datLen.toNat + h.txtLen.toNat + h.rodatLen.toNat := by
    rw [UInt32.toNat_add, UInt32.toNat_add]
    omega
  have hint : (h.datLen + h.txtLen + h.rodatLen).toInt32.toInt =
      ((h.datLen + h.txtLen + h.rodatLen).toNat : Int) := by
    refine BitVec.toInt_eq_toNat_of_lt ?_
    show 2 * (h.datLen + h.txtLen + h.rodatLen).toNat < 2 ^ 32
    omega
  rw [hint, hsum]
  omega

/-- A place in a segment. -/
theorem segment_add_toNat (hlaid : h.WellLaid) {seg : UInt32 × UInt32} (hseg : seg ∈ h.segments)
    {k : Nat} (hk : k < seg.2.toNat) :
    (seg.1 + UInt32.ofNat k).toNat = seg.1.toNat + k ∧
      userMemStart ≤ (seg.1 + UInt32.ofNat k).toNat ∧ InSegment seg (seg.1 + UInt32.ofNat k) := by
  rcases hlaid.range seg hseg with rfl | ⟨-, hstart, hlast⟩
  · exact absurd hk (Nat.not_lt_zero k)
  · have hsum : (seg.1 + UInt32.ofNat k).toNat = seg.1.toNat + k := by
      rw [UInt32.toNat_add, UInt32.toNat_ofNat']
      omega
    refine ⟨hsum, ?_, ?_⟩
    · omega
    · rw [InSegment]
      omega

/-- The bytes of a segment go to the pages of the program. -/
theorem writesTo_segment (hlaid : h.WellLaid) {seg : UInt32 × UInt32} (hseg : seg ∈ h.segments)
    {bs : List UInt8} (hbs : bs.length = seg.2.toNat) : WritesTo (ProgramPage h) (seg.1, bs) where
  fits := hbs ▸ seg.2.toNat_lt
  user := fun _ hk => (segment_add_toNat hlaid hseg (hbs ▸ hk)).2.1
  pages := fun _ hk => by
    obtain ⟨-, -, hfirst, hlast⟩ := segment_add_toNat hlaid hseg (hbs ▸ hk)
    exact Or.inl ⟨seg, hseg, touched_pageOf hfirst hlast⟩

/-- An address outside a segment is far from its start. -/
theorem length_le_of_not_inSegment (hlaid : h.WellLaid) {seg : UInt32 × UInt32}
    (hseg : seg ∈ h.segments) {a : UInt32} (ha : ¬ InSegment seg a) :
    seg.2.toNat ≤ (a - seg.1).toNat := by
  have halt := a.toNat_lt
  have hslt := seg.1.toNat_lt
  rw [InSegment] at ha
  rw [sub_toNat]
  rcases hlaid.range seg hseg with rfl | ⟨-, -, hlast⟩
  · exact Nat.zero_le _
  · omega

/-- Disjoint segments are written to apart from each other. -/
theorem apart_segments (hlaid : h.WellLaid) {seg seg' : UInt32 × UInt32} (hseg : seg ∈ h.segments)
    (hseg' : seg' ∈ h.segments) {bs bs' : List UInt8} (hbs : bs.length = seg.2.toNat)
    (hbs' : bs'.length = seg'.2.toNat)
    (hdisjoint : seg.1.toNat + seg.2.toNat ≤ seg'.1.toNat ∨
      seg'.1.toNat + seg'.2.toNat ≤ seg.1.toNat) : Apart (seg.1, bs) (seg'.1, bs') := by
  intro k hk
  have hk' : k < seg.2.toNat := hbs ▸ hk
  obtain ⟨hsum, -, -⟩ := segment_add_toNat hlaid hseg hk'
  show bs'.length ≤ _
  rw [hbs']
  refine length_le_of_not_inSegment hlaid hseg' ?_
  rw [InSegment, hsum]
  omega

/-- The bytes that `getbytes` copies. -/
theorem length_getbytes (offset size : UInt32) :
    (p.getbytes offset size).length = size.toNat := by
  rw [Program.getbytes, List.length_map, List.length_range]

/-- **The four stores** go to the pages of the program. -/
theorem writesTo_stores (hlaid : p.header.WellLaid) :
    ∀ w ∈ p.stores, WritesTo (ProgramPage p.header) w := by
  have hwrites : ∀ seg ∈ p.header.segments, ∀ bs : List UInt8, bs.length = seg.2.toNat →
      WritesTo (ProgramPage p.header) (seg.1, bs) := fun _ hseg _ => writesTo_segment hlaid hseg
  simp only [ElfHeader.segments, List.forall_mem_cons, List.not_mem_nil, false_imp_iff,
    implies_true, and_true] at hwrites
  obtain ⟨htxt, hrodat, hbss, hdat⟩ := hwrites
  simp only [Program.stores, List.forall_mem_cons, List.not_mem_nil, false_imp_iff, implies_true,
    and_true]
  exact ⟨hdat _ (length_getbytes ..), htxt _ (length_getbytes ..), hrodat _ (length_getbytes ..),
    hbss _ List.length_replicate⟩

/-- **The four stores** keep apart from each other. -/
theorem apart_stores (hlaid : p.header.WellLaid) : p.stores.Pairwise Apart := by
  have hdat := length_getbytes (p := p) p.datOff p.header.datLen
  have htxt := length_getbytes (p := p) p.txtOff p.header.txtLen
  have hrodat := length_getbytes (p := p) p.rodatOff p.header.rodatLen
  have hbss : (List.replicate p.header.bssLen.toNat (0 : UInt8)).length = p.header.bssLen.toNat :=
    List.length_replicate
  have happly : ∀ seg ∈ p.header.segments, ∀ seg' ∈ p.header.segments, ∀ bs bs' : List UInt8,
      bs.length = seg.2.toNat → bs'.length = seg'.2.toNat →
      (seg.1.toNat + seg.2.toNat ≤ seg'.1.toNat ∨ seg'.1.toNat + seg'.2.toNat ≤ seg.1.toNat) →
      Apart (seg.1, bs) (seg'.1, bs') := fun _ hseg _ hseg' _ _ => apart_segments hlaid hseg hseg'
  have hdisjoint := hlaid.disjoint
  simp only [ElfHeader.segments, List.pairwise_cons, List.forall_mem_cons, List.not_mem_nil,
    false_imp_iff, implies_true, and_true, List.Pairwise.nil] at hdisjoint happly
  obtain ⟨⟨htr, htb, htd⟩, ⟨hrb, hrd⟩, hbd⟩ := hdisjoint
  obtain ⟨⟨-, atr, atb, -⟩, ⟨-, -, arb, -⟩, -, adt, adr, adb, -⟩ := happly
  simp only [Program.stores, List.pairwise_cons, List.forall_mem_cons, List.not_mem_nil,
    false_imp_iff, implies_true, and_true, List.Pairwise.nil]
  exact ⟨⟨adt _ _ hdat htxt htd.symm, adr _ _ hdat hrodat hrd.symm, adb _ _ hdat hbss hbd.symm⟩,
    ⟨atr _ _ htxt hrodat htr, atb _ _ htxt hbss htb⟩, arb _ _ hrodat hbss hrb⟩

/-! ## The pages after the loop -/

variable {l' : List (Nat × Nat)} {fs : List Nat} {q : Nat × Nat}

/-- Where the page directory was empty, the pages that were mapped are the only ones. -/
theorem Filled.entryOf_eq_zero (hfilled : Filled s s1 pd l' fs)
    (hfresh : FreshDirectory s.memory pd) (hq : UserPage q) (hql : q ∉ l') :
    entryOf s1.memory.words pd q = 0 := by
  rw [hfilled.others q hq.directory hql]
  exact entryOf_of_none (hfresh.empty q.1 hq.user hq.directory)

/-- The frame of a page that was mapped, as the MMU finds it. -/
theorem Filled.translate (hfilled : Filled s s1 pd l' fs) (hfresh : FreshDirectory s.memory pd)
    (hql : q ∈ l') : ∃ f ∈ fs, s1.memory.translate q = some f ∧
      entryOf s1.memory.words pd q = frameEntry f := by
  obtain ⟨f, hf, hentry⟩ := hfilled.frame hql
  refine ⟨f, hf, ?_, hentry⟩
  rw [PhysMem.translate, hfilled.cr3, hfresh.active, hentry,
    frameOf_frameEntry (mem_freeSet.mp (hfilled.free f hf)).1]

/-- **The user half consists of the pages that were mapped.** -/
theorem Filled.userPages (hfilled : Filled s s1 pd l' fs) (hfresh : FreshDirectory s.memory pd) :
    UserPages s1.memory fun q => q ∈ l' := by
  have hnone : ∀ q, UserPage q → q ∉ l' → s1.memory.translate q = none := by
    intro q hq hql
    rw [PhysMem.translate, hfilled.cr3, hfresh.active, hfilled.entryOf_eq_zero hfresh hq hql]
    rfl
  refine ⟨fun q _ hql => ?_, hnone, fun q q' f hq hq' hf hf' => ?_⟩
  · obtain ⟨f, -, htranslate, -⟩ := hfilled.translate hfresh hql
    exact ⟨f, htranslate⟩
  · have hmem : ∀ q, UserPage q → s1.memory.translate q = some f → q ∈ l' ∧
        entryOf s1.memory.words pd q = frameEntry f := by
      intro q hq hf
      have hql : q ∈ l' := by
        by_contra hql
        rw [hnone q hq hql] at hf
        cases hf
      obtain ⟨g, -, htranslate, hentry⟩ := hfilled.translate hfresh hql
      obtain rfl : g = f := Option.some.inj (htranslate.symm.trans hf)
      exact ⟨hql, hentry⟩
    obtain ⟨hql, hentry⟩ := hmem q hq hf
    obtain ⟨hql', hentry'⟩ := hmem q' hq' hf'
    exact hfilled.distinct hql hql' (hentry.trans hentry'.symm)

/-- **Every byte of these pages is 0**, and no other can be read. -/
theorem Filled.byteAt (hfilled : Filled s s1 pd l' fs) (hfresh : FreshDirectory s.memory pd)
    {a : UInt32} (ha : userMemStart ≤ a.toNat) :
    (pageOf a ∈ l' → s1.byteAt a = some 0) ∧ (pageOf a ∉ l' → s1.byteAt a = none) := by
  constructor
  · intro hql
    obtain ⟨f, hf, htranslate, -⟩ := hfilled.translate hfresh hql
    rw [PagedMem.byteAt, htranslate, Option.map_some, hfilled.bytes, if_pos hf]
  · intro hql
    rw [PagedMem.byteAt, (hfilled.userPages hfresh).unmapped _ (userPage_pageOf ha) hql]
    rfl

/-- **What the header describes**, when the loop and the stores have come to their ends. -/
theorem Filled.imageLoaded {s2 : PagedMem} (hfilled : Filled s s1 pd l' fs)
    (hfresh : FreshDirectory s.memory pd) (hlaid : p.header.WellLaid)
    (hl : ∀ q, q ∈ l' ↔ ProgramPage p.header q) (hmem : s2.memory = s1.memory)
    (hwrites : ∀ w ∈ p.stores, ∀ k, (hk : k < w.2.length) →
      s2.byteAt (w.1 + UInt32.ofNat k) = some w.2[k])
    (hsame : ∀ x, userMemStart ≤ x.toNat → (∀ w ∈ p.stores, w.2.length ≤ (x - w.1).toNat) →
      s2.byteAt x = s1.byteAt x) : ImageLoaded s s2 p pd := by
  -- an address outside all segments is as the loop has left it
  have hout : ∀ x, userMemStart ≤ x.toNat → (∀ seg ∈ p.header.segments, ¬ InSegment seg x) →
      s2.byteAt x = s1.byteAt x := by
    intro x hx hno
    have hfar : ∀ seg ∈ p.header.segments, seg.2.toNat ≤ (x - seg.1).toNat := fun seg hseg =>
      length_le_of_not_inSegment hlaid hseg (hno seg hseg)
    simp only [ElfHeader.segments, List.forall_mem_cons, List.not_mem_nil, false_imp_iff,
      implies_true, and_true] at hfar
    obtain ⟨htxt, hrodat, hbss, hdat⟩ := hfar
    refine hsame x hx ?_
    simp only [Program.stores, List.forall_mem_cons, List.not_mem_nil, false_imp_iff, implies_true,
      and_true, length_getbytes, List.length_replicate]
    exact ⟨hdat, htxt, hrodat, hbss⟩
  have hbyte : ∀ (start offset size : UInt32), (start, p.getbytes offset size) ∈ p.stores →
      ∀ k < size.toNat, s2.byteAt (start + UInt32.ofNat k) =
        some (p.execbytes (offset.toNat + k)) := by
    intro start offset size hstore k hk
    rw [hwrites _ hstore k (by rwa [length_getbytes])]
    simp only [Program.getbytes, List.getElem_map, List.getElem_range]
  refine ⟨hbyte _ _ _ (by simp [Program.stores]), hbyte _ _ _ (by simp [Program.stores]),
    hbyte _ _ _ (by simp [Program.stores]), fun k hk => ?_, fun a ha => ?_,
    fun a b ha hno hb => ?_, fun q hq => ?_, fun q hq hno => ?_, fun q hq => ?_⟩
  · have hstore : (p.header.bssStart, List.replicate p.header.bssLen.toNat (0 : UInt8)) ∈
        p.stores := by
      simp [Program.stores]
    rw [hwrites _ hstore k (by rwa [List.length_replicate]), List.getElem_replicate]
  · -- the stack is above the segments
    have huser : userMemStart ≤ a.toNat := le_trans (by decide) ha
    have halt := a.toNat_lt
    have hno : ∀ seg ∈ p.header.segments, ¬ InSegment seg a := by
      intro seg hseg hin
      obtain ⟨hfirst, hlast⟩ := hin
      rcases hlaid.range seg hseg with rfl | ⟨-, -, hend⟩
      · rw [UInt32.toNat_zero] at hlast
        omega
      · omega
    rw [hout a huser hno]
    refine (hfilled.byteAt hfresh huser).1 ((hl _).mpr (Or.inr (touched_pageOf ha ?_)))
    omega
  · rw [hout a ha hno] at hb
    by_cases hql : pageOf a ∈ l'
    · rw [(hfilled.byteAt hfresh ha).1 hql] at hb
      exact (Option.some.inj hb).symm
    · rw [(hfilled.byteAt hfresh ha).2 hql] at hb
      cases hb
  · rw [hmem, ← hl]
    constructor
    · rintro ⟨hdir, htab⟩
      by_contra hql
      have hzero := hfilled.entryOf_eq_zero hfresh hq hql
      have hpde : s1.memory.words pd q.1 ≠ 0 := by
        intro e
        rw [e, deflagAddr_zero] at hdir
        exact hdir rfl
      rw [entryOf_of_table hpde] at hzero
      rw [hzero, deflagAddr_zero] at htab
      exact htab rfl
    · exact fun hql => hfilled.pageMapped hfresh.directory.first_frame hql hq.directory
  · rw [hmem]
    exact hfilled.entryOf_eq_zero hfresh hq fun hql => hno ((hl q).mp hql)
  · rw [hmem]
    refine hfilled.others q (by rw [pageLen]; omega) fun hql => ?_
    have huser := (((hl q).mp hql).userPage hlaid).user
    omega

/-! ## The answers of `memalign` -/

/-- A store leaves the page tables alone. -/
theorem PagedMem.storeBytes_memory {a : UInt32} {bs : List UInt8}
    (call : s.storeBytes a bs = some s1) : s1.memory = s.memory := by
  induction bs generalizing s a with
  | nil =>
      obtain rfl : s = s1 := Option.some.inj call
      rfl
  | cons b bs ih =>
      obtain ⟨s2, hbyte, hrest⟩ := Option.bind_eq_some_iff.mp call
      obtain ⟨f, -, rfl⟩ := Option.map_eq_some_iff.mp hbyte
      have hmem := ih hrest
      exact hmem

/-- So do several. -/
theorem PagedMem.storeAll_memory {ws : List (UInt32 × List UInt8)}
    (call : s.storeAll ws = some s1) : s1.memory = s.memory := by
  induction ws generalizing s with
  | nil =>
      obtain rfl : s = s1 := Option.some.inj call
      rfl
  | cons w ws ih =>
      obtain ⟨s2, hstore, hrest⟩ := Option.bind_eq_some_iff.mp call
      exact (ih hrest).trans (storeBytes_memory hstore)

/-- The loop does to the kernel's memory what the loop without contents does. -/
theorem PagedMem.mapAll_memory_of_call {l : List (Nat × Nat)} (call : s.mapAll pd l = some s1) :
    Memory.mapAll s.memory pd l = some s1.memory := by
  induction l generalizing s with
  | nil =>
      obtain rfl : s = s1 := by simpa [PagedMem.mapAll] using call
      rfl
  | cons q l ih =>
      rw [PagedMem.mapAll_cons] at call
      obtain ⟨⟨r, s2⟩, hcall, hrest⟩ := Option.bind_eq_some_iff.mp call
      rw [Memory.mapAll_cons, virtualMapPhysical_memory hcall, Option.bind_some]
      exact ih hrest

/-- **The image of a program.** For every header that is well laid, in a fresh page directory in use
from `init_pd`, with frames for all pages: `program_loader` comes to its end with the image that the
header describes, if and only if none of the answers of `memalign` for its page tables is `NULL`. -/
theorem loadsImage_iff {s0 : PagedMem} (hcur : Directory s0.memory s0.memory.cr3)
    (hkernel : ∀ i < 4, s0.memory.words s0.memory.cr3 i ≠ 0)
    (hinit : s0.initPd = some (pd, s)) (hpd : pd ≠ 0) (hlaid : p.header.WellLaid)
    (hframes : (acquireMany (loaderRange p.header).toFinset.card s.memory.frames).isSome)
    (hsupply : Supplied s.memory.heap s.memory.answers)
    (hlen : s.memory.answers.length = tablesMissing s.memory.words pd (loaderRange p.header)) :
    LoadsImage s p pd ↔ NonNull s.memory.answers := by
  have hfresh := freshDirectory_of_initPd hcur hkernel hinit hpd
  have hdir := hfresh.directory
  rw [acquireMany_isSome_iff_of_ordered hdir.ordered] at hframes
  have hload := s.programLoader_eq pd (result_pos hlaid hframes)
  have hpages : ∀ q ∈ loaderRange p.header, UserPage q := fun q hq =>
    ((mem_loaderRange_iff hlaid).mp hq).userPage hlaid
  constructor
  · rintro ⟨s2, hcall, himage⟩
    rw [hload] at hcall
    obtain ⟨s1, hmap, hstore⟩ := Option.bind_eq_some_iff.mp hcall
    refine nonNull_of_mapAll hdir.standing hsupply hlen (PagedMem.mapAll_memory_of_call hmap)
      fun q hq => ?_
    rw [← PagedMem.storeAll_memory hstore]
    exact ((himage.mapped q (hpages q hq)).mpr ((mem_loaderRange_iff hlaid).mp hq)).1
  · intro hnn
    have hnone : ∀ q ∈ loaderRange p.header, entryOf s.memory.words pd q = 0 := fun q hq =>
      entryOf_of_none (hfresh.empty q.1 (hpages q hq).user (hpages q hq).directory)
    have hcard : (unmappedPages s.memory.words pd (loaderRange p.header)).card <
        s.memory.frames.aboveSet.card := (Finset.card_filter_le _ _).trans_lt hframes
    obtain ⟨s1, hmap⟩ := Option.isSome_iff_exists.mp (PagedMem.mapAll_isSome hdir hfresh.active hnn
      hsupply (hlen.trans (Nat.zero_add _).symm) (fun q hq => (hpages q hq).directory) hcard)
    obtain ⟨-, l', fs, hfilled, hl⟩ := PagedMem.filled_of_loop hdir hfresh.active hnn hnone hmap
    have hprogram : ∀ q, q ∈ l' ↔ ProgramPage p.header q := fun q =>
      (hl q).trans (mem_loaderRange_iff hlaid)
    have huser : UserPages s1.memory (ProgramPage p.header) := by
      have h := hfilled.userPages hfresh
      simpa only [hprogram] using h
    obtain ⟨s2, hstore, hmem, hwrites, hsame⟩ :=
      PagedMem.storeAll_spec huser (writesTo_stores hlaid) (apart_stores hlaid)
    refine ⟨s2, ?_, hfilled.imageLoaded hfresh hlaid hprogram hmem hwrites hsame⟩
    rw [hload, hmap, Option.bind_some, hstore]

end Fresh

/-! ## One byte of text -/

/-- The page directory at 4096 has the page tables of the kernel at 8192 and above. All frames hold
`0xff`. -/
def beforeInit (answers : List Answer) : PagedMem where
  memory :=
    { frames := emptyDirectory.frames
      words := fun b i => if b = 4096 ∧ i < 4 then addFlag (8192 + 4096 * i) 0x107 else 0
      heap := {4096, 8192, 12288, 16384, 20480}
      answers := answers
      cr3 := 4096 }
  bytes := fun _ _ => 0xff

/-- It is a page directory. -/
theorem directory_beforeInit (answers : List Answer) :
    Directory (beforeInit answers).memory 4096 := by
  have htable : ∀ i, (beforeInit answers).memory.words 4096 i ≠ 0 → i < 4 := by
    intro i hne
    by_contra hge
    exact hne (if_neg fun e => hge e.2)
  have hblock : ∀ i < 4,
      deflagAddr ((beforeInit answers).memory.words 4096 i) = 8192 + 4096 * i := by
    intro i hi
    have hentry : (beforeInit answers).memory.words 4096 i = addFlag (8192 + 4096 * i) 0x107 :=
      if_pos ⟨rfl, hi⟩
    rw [hentry]
    exact deflagAddr_addFlag (by rw [pageSize]; omega) (by omega) (by decide)
  have hheap : (beforeInit answers).memory.heap = {4096, 8192, 12288, 16384, 20480} := rfl
  refine ⟨directory_emptyDirectory.ordered, rfl, ?_, ?_, fun i _ hne => ?_, fun i _ hne => ?_,
    fun i _ i' _ hne hne' heq => ?_⟩
  · rw [hheap]
    decide
  · rw [hheap]
    decide
  · have hi := htable i hne
    rw [hblock i hi, hheap]
    interval_cases i <;> decide
  · rw [hblock i (htable i hne)]
    omega
  · rw [hblock i (htable i hne), hblock i' (htable i' hne')] at heq
    omega

/-- It has the page tables of the kernel. -/
theorem kernel_beforeInit (answers : List Answer) :
    ∀ i < 4, (beforeInit answers).memory.words (beforeInit answers).memory.cr3 i ≠ 0 := by
  intro i hi
  have hentry : (beforeInit answers).memory.words 4096 i = addFlag (8192 + 4096 * i) 0x107 :=
    if_pos ⟨rfl, hi⟩
  show (beforeInit answers).memory.words 4096 i ≠ 0
  rw [hentry]
  exact fun hzero => absurd (Nat.or_eq_zero_iff.mp hzero).2 (by decide)

/-- A program of one byte of text, at the first address of the user. -/
def oneByte : Program where
  header := ⟨0x01000000, 1, 0, 0, 0, 0, 0, 0⟩
  entry := 0x01000000
  execbytes := fun _ => 0x90
  txtOff := 0
  rodatOff := 0
  datOff := 0

theorem wellLaid_oneByte : oneByte.header.WellLaid := by
  refine ⟨by decide, ?_, by decide⟩
  simp only [ElfHeader.segments, List.forall_mem_cons, List.not_mem_nil, false_imp_iff,
    implies_true, and_true]
  exact ⟨Or.inr ⟨by decide, by decide, by decide⟩, Or.inl rfl, Or.inl rfl, Or.inl rfl⟩

/-- Blocks for the page directory and for two page tables. -/
def threeBlocks : List Answer :=
  [⟨24576, fun _ => 0⟩, ⟨28672, fun _ => 0⟩, ⟨32768, fun _ => 0⟩]

/-- The image of this program. -/
theorem loadsImage_oneByte :
    ∃ s, (beforeInit threeBlocks).initPd = some (24576, s) ∧ LoadsImage s oneByte 24576 := by
  refine ⟨_, rfl, ?_⟩
  refine (loadsImage_iff (directory_beforeInit threeBlocks) (kernel_beforeInit threeBlocks) rfl
    (by decide) wellLaid_oneByte ?_ ?_ ?_).mpr ?_
  · have hcard : (loaderRange oneByte.header).toFinset.card = 3 := by decide
    rw [hcard]
    rfl
  · exact Or.inr ⟨⟨by decide, by decide, by decide⟩, by decide +kernel,
      Or.inr ⟨⟨by decide, by decide, by decide⟩, by decide +kernel, trivial⟩⟩
  · decide +kernel
  · have haddr : ∀ a ∈ threeBlocks.tail, a.address ≠ 0 := by decide
    exact haddr

/-- A block for the page directory, and two `NULL`s. -/
def oneBlock : List Answer := [⟨24576, fun _ => 0⟩, ⟨0, fun _ => 0⟩, ⟨0, fun _ => 0⟩]

/-- **Two page tables at `NULL`**: the one for the stack is cleared where the one for the text is,
so that the copy of the text faults. -/
theorem null_tables_lose_text :
    ∃ s, (beforeInit oneBlock).initPd = some (24576, s) ∧ FreshDirectory s.memory 24576 ∧
      (acquireMany (loaderRange oneByte.header).toFinset.card s.memory.frames).isSome ∧
      oneByte.header.WellLaid ∧ ¬ LoadsImage s oneByte 24576 := by
  have hinit : (beforeInit oneBlock).initPd = some (24576, _) := rfl
  refine ⟨_, hinit, ?_, ?_, wellLaid_oneByte, ?_⟩
  · exact freshDirectory_of_initPd (directory_beforeInit oneBlock) (kernel_beforeInit oneBlock)
      hinit (by decide)
  · have hcard : (loaderRange oneByte.header).toFinset.card = 3 := by decide
    rw [hcard]
    rfl
  · rintro ⟨s1, hcall, -⟩
    have hrun : ((beforeInit oneBlock).initPd.bind fun r =>
        r.2.programLoader oneByte r.1).isNone = true := by decide +kernel
    rw [hinit, Option.bind_some, hcall] at hrun
    cases hrun

end Pebbles.Memory
