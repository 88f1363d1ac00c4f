import Mathlib.Order.Interval.Finset.Nat
import Pebbles.Memory.Boot

/-! # What is there after the boot

The rules of the other files say what holds when the routines have a result. Here they are run
forwards: as long as `memalign` answers and frames are left, `virtual_map_physical`, `init_pd`,
`program_loader` and `mm_init` have a result, and it is computed. The program is one with a single
byte of text, in its stack. -/

namespace Pebbles.Memory

open Loop

section
variable {m : PhysMem} {a b : Answer} {rest : List Answer} {n d i j : Nat}

/-! ## Single routines -/

/-- An answer that `memalign` can give: `NULL`, or a fresh block. -/
def Answer.Usable (a : Answer) (m : PhysMem) : Prop :=
  a.address = 0 ∨ (IsBlock a.address ∧ a.address ∉ m.heap)

/-- `memalign` gives the next answer. -/
theorem memalign_usable (hans : m.answers = a :: rest) (ha : a.Usable m) :
    ∃ m', m.memalign = some (a.address, m') ∧ m'.answers = rest ∧ m'.frames = m.frames ∧
      m'.cr3 = m.cr3 ∧ (∀ x ∈ m'.heap, x ∈ m.heap ∨ x = a.address) ∧
      ∀ x k, x ≠ a.address → m'.words x k = m.words x k := by
  rcases ha with hnull | ⟨⟨hne, hmod, hlt⟩, hfresh⟩
  · refine ⟨{ m with answers := rest }, ?_, rfl, rfl, rfl, fun x hx => Or.inl hx, fun _ _ _ => rfl⟩
    simp [PhysMem.memalign, hans, hnull]
  · refine ⟨{ m with
      answers := rest
      heap := insert a.address m.heap
      words := Function.update m.words a.address a.contents }, ?_, rfl, rfl, rfl, fun x hx => ?_,
      fun x k hx => ?_⟩
    · simp [PhysMem.memalign, hans, hne, hmod, hlt, hfresh]
    · exact (Finset.mem_insert.mp hx).symm
    · exact congrFun (Function.update_of_ne hx ..) k

/-- `virtual_map_physical` where there is no page table. -/
theorem virtualMapPhysical_fresh (hans : m.answers = a :: rest) (ha : a.Usable m)
    (hframes : m.frames.FreeFrom n) (hpos : 0 < n) (hn : n + 1 < totalPhysFrames)
    (hi : i < pageLen) (hzero : m.words d i = 0) :
    ∃ m', virtualMapPhysical m d i j = some (0, m') ∧ m'.answers = rest ∧
      m'.frames.FreeFrom (n + 1) ∧ m'.cr3 = m.cr3 ∧
      (∀ x ∈ m'.heap, x ∈ m.heap ∨ x = a.address) ∧
      ∀ x k, m'.words x k = if x = d ∧ k = i then addFlag a.address 0x7
        else if x = a.address then (if k = j then addFlag (n * pageSize) 0x7 else 0)
        else m.words x k := by
  obtain ⟨frames, hacq, hfree⟩ := hframes.acquire hn
  have haddr : ¬ n * pageSize = 0 := by rw [pageSize]; omega
  obtain ⟨m1, halloc, hrest, hm1, hcr3, hheap, hwords⟩ :=
    memalign_usable (m := m.setFrames frames) hans ha
  refine ⟨((m1.clear a.address).write a.address j (addFlag (n * pageSize) 0x7)).write d i
    (addFlag a.address 0x7), ?_, hrest, hm1 ▸ hfree, hcr3, hheap, fun x k => ?_⟩
  · simp only [virtualMapPhysical, hi, if_true, hzero, ne_eq, not_true_eq_false, if_false, hacq,
      Option.bind_some, haddr, halloc, Option.map_some]
  · rw [PhysMem.write_words, PhysMem.write_words, PhysMem.clear_words]
    split
    · rfl
    · by_cases hx : x = a.address
      · by_cases hk : k = j <;> simp [hx, hk]
      · rw [if_neg fun e => hx e.1, if_neg hx, if_neg hx]
        exact hwords x k hx

/-- `virtual_map_physical` at a free entry of a page table. -/
theorem virtualMapPhysical_entry (hframes : m.frames.FreeFrom n) (hpos : 0 < n)
    (hn : n + 1 < totalPhysFrames) (hi : i < pageLen) (hpde : m.words d i ≠ 0)
    (hpte : m.words (deflagAddr (m.words d i)) j = 0) :
    ∃ m', virtualMapPhysical m d i j = some (0, m') ∧ m'.answers = m.answers ∧
      m'.frames.FreeFrom (n + 1) ∧ m'.cr3 = m.cr3 ∧ m'.heap = m.heap ∧
      ∀ x k, m'.words x k = if x = deflagAddr (m.words d i) ∧ k = j
        then addFlag (n * pageSize) 0x7 else m.words x k := by
  obtain ⟨frames, hacq, hfree⟩ := hframes.acquire hn
  have haddr : ¬ n * pageSize = 0 := by rw [pageSize]; omega
  refine ⟨(m.setFrames frames).write (deflagAddr (m.words d i)) j (addFlag (n * pageSize) 0x7),
    ?_, rfl, hfree, rfl, rfl, fun x k => ?_⟩
  · simp only [virtualMapPhysical, hi, if_true, ne_eq, hpde, not_false_eq_true, hpte, hacq,
      Option.map_some, haddr, if_false]
  · rw [PhysMem.write_words]
    rfl

/-- `virtual_map_physical` at an entry that is taken. -/
theorem virtualMapPhysical_taken (hi : i < pageLen) (hpde : m.words d i ≠ 0)
    (hpte : m.words (deflagAddr (m.words d i)) j ≠ 0) :
    virtualMapPhysical m d i j = some (-1, m) := by
  simp only [virtualMapPhysical, hi, if_true, ne_eq, hpde, not_false_eq_true, hpte, if_false]

/-- `init_pd`, when the page directory in use is not the new one. -/
theorem initPd_usable (hans : m.answers = a :: rest) (ha : a.Usable m)
    (hcr3 : m.cr3 ≠ a.address) :
    ∃ m', initPd m = some (a.address, m') ∧ m'.answers = rest ∧ m'.frames = m.frames ∧
      m'.cr3 = a.address ∧ (∀ x ∈ m'.heap, x ∈ m.heap ∨ x = a.address) ∧
      ∀ x k, m'.words x k = if x = a.address
        then (if k < 4 then addFlag (deflagAddr (m.words m.cr3 k)) 0x107 else 0)
        else m.words x k := by
  obtain ⟨m1, halloc, hrest, hframes, hsame, hheap, hwords⟩ := memalign_usable hans ha
  obtain ⟨words, hfold, hnew⟩ := stores_spec
    (f := fun m i => addFlag (deflagAddr (m.words m.cr3 i)) 0x107)
    (g := fun i => addFlag (deflagAddr (m.words m.cr3 i)) 0x107) (m1.clear a.address) a.address
    (by
      intro m' i hc hw
      have hc' : m'.cr3 = m.cr3 := hc.trans hsame
      have hkeep : m'.words m.cr3 i = m.words m.cr3 i := by
        rw [hw _ _ hcr3, PhysMem.clear_words, if_neg hcr3, hwords _ _ hcr3]
      simp only [hc', hkeep]) 4
  refine ⟨{ m1.clear a.address with words := words, cr3 := a.address }, ?_, hrest, hframes, rfl,
    hheap, fun x k => (hnew x k).trans ?_⟩
  · simp only [initPd, halloc, Option.map_some, hfold]
    rfl
  · by_cases hx : x = a.address
    · by_cases hk : k < 4 <;> simp [hx, hk]
    · rw [if_neg fun e => hx e.1, if_neg hx, PhysMem.clear_words, if_neg hx, hwords x k hx]

end

/-! ## A small program -/

/-- A program of one byte of text, in the lower page of its stack. -/
def smallProgram : ElfHeader := ⟨0xffffe000, 1, 0, 0, 0, 0, 0, 0⟩

/-- The two pages of the stack. -/
theorem pageRange_stack : pageRange 0xffffe000 8192 = [(1023, 1022), (1023, 1023)] := by decide

/-- An empty segment has no pages. -/
theorem pageRange_empty : pageRange 0 0 = [] := by decide

/-- The loader of such a program maps the lower page of the stack, tries it once more, and maps
the upper one. -/
theorem programLoader_small (m : PhysMem) (d : Nat) :
    programLoader smallProgram m d = (virtualMapPhysical m d 1023 1022).bind fun r =>
      (virtualMapPhysical r.2 d 1023 1022).bind fun r =>
        (virtualMapPhysical r.2 d 1023 1023).map Prod.snd := by
  have hempty : ∀ m, allocatePages m d (UInt32.toNat 0) (UInt32.toNat 0) = some m := by
    intro m
    rw [allocatePages, forPages_eq, show UInt32.toNat 0 = 0 from rfl, pageRange_empty]
    rfl
  have htext : ∀ m, allocatePages m d (UInt32.toNat 0xffffe000) (UInt32.toNat 1)
      = (virtualMapPhysical m d 1023 1022).map Prod.snd := by
    intro m
    have hrange : pageRange (UInt32.toNat 0xffffe000) (UInt32.toNat 1) = [(1023, 1022)] := by decide
    rw [allocatePages, forPages_eq, hrange]
    simp only [List.foldlM_cons, List.foldlM_nil]
    cases virtualMapPhysical m d 1023 1022 <;> rfl
  rw [programLoader, if_pos (by decide)]
  simp only [smallProgram, hempty, htext, Option.bind_some]
  rw [Option.bind_map]
  refine congrArg _ (funext fun r => ?_)
  simp only [Function.comp_apply]
  rw [allocatePages, forPages_eq, pageRange_stack]
  simp only [List.foldlM_cons, List.foldlM_nil]
  cases virtualMapPhysical r.2 d 1023 1022 with
  | none => rfl
  | some r =>
      simp only [Option.map_some, Option.bind_eq_bind, Option.bind_some]
      cases virtualMapPhysical r.2 d 1023 1023 <;> rfl

/-- The entry for an answer of `memalign` is not 0 and holds its address, also when that is 0. -/
theorem Answer.Usable.flags {m : PhysMem} {a : Answer} (h : a.Usable m) :
    addFlag a.address 0x7 ≠ 0 ∧ deflagAddr (addFlag a.address 0x7) = a.address := by
  rcases h with hnull | ⟨hblock, -⟩
  · rw [hnull]
    decide
  · exact addFlag_block hblock (by decide)

/-- **A new page directory with a stack**, where the first answer is the page directory and the
second, which may be `NULL`, the page table of the stack. -/
theorem newImage_total {m : PhysMem} {a b : Answer} {rest : List Answer} {n : Nat}
    (hans : m.answers = a :: b :: rest) (ha : IsBlock a.address) (hfresh : a.address ∉ m.heap)
    (hb : b.Usable m) (hab : b.address ≠ a.address) (hframes : m.frames.FreeFrom n) (hpos : 0 < n)
    (hn : n + 2 < totalPhysFrames) (hcr3 : m.cr3 ≠ a.address) :
    ∃ m1 m', initPd m = some (a.address, m1) ∧
      programLoader smallProgram m1 a.address = some m' ∧ m'.answers = rest ∧
      m'.frames.FreeFrom (n + 2) ∧ m'.cr3 = a.address ∧
      (∀ x ∈ m'.heap, x ∈ m.heap ∨ x = a.address ∨ x = b.address) ∧
      ∀ x k, m'.words x k = if x = a.address
        then (if k < 4 then addFlag (deflagAddr (m.words m.cr3 k)) 0x107
          else if k = 1023 then addFlag b.address 0x7 else 0)
        else if x = b.address
        then (if k = 1022 then addFlag (n * pageSize) 0x7
          else if k = 1023 then addFlag ((n + 1) * pageSize) 0x7 else 0)
        else m.words x k := by
  obtain ⟨m1, hinit, hans1, hframes1, hcr31, hheap1, hwords1⟩ :=
    initPd_usable hans (Or.inr ⟨ha, hfresh⟩) hcr3
  have hb1 : b.Usable m1 := by
    rcases hb with hnull | ⟨hblock, hnot⟩
    · exact Or.inl hnull
    · refine Or.inr ⟨hblock, fun hmem => ?_⟩
      rcases hheap1 _ hmem with hmem | he
      · exact hnot hmem
      · exact hab he
  -- the first page of the stack needs a page table
  obtain ⟨m2, hmap2, hans2, hframes2, hcr32, hheap2, hwords2⟩ :=
    virtualMapPhysical_fresh (d := a.address) (i := 1023) (j := 1022) hans1 hb1
      (hframes1.symm ▸ hframes) hpos (by omega) (by decide) (by rw [hwords1]; simp)
  obtain ⟨hne, hdef⟩ := hb1.flags
  have hpde : m2.words a.address 1023 = addFlag b.address 0x7 := by
    rw [hwords2, if_pos ⟨rfl, rfl⟩]
  have htaken : virtualMapPhysical m2 a.address 1023 1022 = some (-1, m2) := by
    refine virtualMapPhysical_taken (by decide) (by rw [hpde]; exact hne) ?_
    rw [hpde, hdef, hwords2, if_neg fun e => hab e.1, if_pos rfl, if_pos rfl]
    exact fun he => absurd (Nat.or_eq_zero_iff.mp he).2 (by decide)
  -- the second one is in the same table
  obtain ⟨m3, hmap3, hans3, hframes3, hcr33, hheap3, hwords3⟩ :=
    virtualMapPhysical_entry (m := m2) (d := a.address) (i := 1023) (j := 1023) hframes2
      (by omega) (by omega) (by decide) (by rw [hpde]; exact hne) (by
        rw [hpde, hdef, hwords2, if_neg fun e => hab e.1, if_pos rfl, if_neg (by decide)])
  rw [hpde, hdef] at hwords3
  refine ⟨m1, m3, hinit, ?_, hans3.trans hans2, hframes3, hcr33.trans (hcr32.trans hcr31),
    fun x hx => ?_, fun x k => ?_⟩
  · simp only [programLoader_small, hmap2, Option.bind_some, htaken, hmap3, Option.map_some]
  · rw [hheap3] at hx
    rcases hheap2 x hx with hx | hx
    · rcases hheap1 x hx with hx | hx
      · exact Or.inl hx
      · exact Or.inr (Or.inl hx)
    · exact Or.inr (Or.inr hx)
  · rw [hwords3, hwords2, hwords1]
    by_cases hxa : x = a.address
    · by_cases hk : k = 1023
      · simp [hxa, hab.symm, hk]
      · simp [hxa, hab.symm, hk]
    · by_cases hxb : x = b.address
      · by_cases hk : k = 1023
        · simp [hxb, hab, hk]
        · simp [hxb, hab, hk]
      · simp [hxa, hxb]

/-! ## A heap that hands out its pages in order -/

/-- The pages `i`, `i + 1`, …, filled with zeros. -/
def inOrder (i n : Nat) : List Answer :=
  (List.range' i n).map fun k => ⟨k * pageSize, fun _ => 0⟩

/-- The blocks in use lie below page `i`, and the answers go on from there. -/
structure Ordered (m : PhysMem) (i n : Nat) : Prop where
  /-- The answers. -/
  answers : m.answers = inOrder i n
  /-- The blocks in use. -/
  heap : ∀ b ∈ m.heap, b < i * pageSize

theorem inOrder_succ (i n : Nat) :
    inOrder i (n + 1) = ⟨i * pageSize, fun _ => 0⟩ :: inOrder (i + 1) n := by
  rw [inOrder, List.range'_succ]
  rfl

/-- The answers of an ordered heap are fresh blocks. -/
theorem Ordered.fresh {m : PhysMem} {i n k : Nat} (h : Ordered m i n) (hk : i ≤ k) :
    k * pageSize ∉ m.heap := by
  intro hmem
  have hlt := h.heap _ hmem
  rw [pageSize] at hlt
  omega

/-- A page number of the kernel heap. -/
theorem isBlock_page {k : Nat} (hpos : 0 < k) (hlt : k < 4096) : IsBlock (k * pageSize) := by
  refine ⟨?_, Nat.mul_mod_left .., ?_⟩
  · rw [pageSize]
    omega
  · rw [pageSize, userMemStart]
    omega

/-- `memalign` on an ordered heap. -/
theorem Ordered.memalign {m : PhysMem} {i n : Nat} (h : Ordered m i (n + 1)) (hi : 0 < i)
    (hlt : i < 4096) :
    ∃ m', m.memalign = some (i * pageSize, m') ∧ Ordered m' (i + 1) n ∧ m'.frames = m.frames ∧
      m'.cr3 = m.cr3 ∧ m'.heap = insert (i * pageSize) m.heap ∧
      m'.words = Function.update m.words (i * pageSize) fun _ => 0 := by
  obtain ⟨hne, hmod, hsmall⟩ := isBlock_page hi hlt
  refine ⟨{ m with
    answers := inOrder (i + 1) n
    heap := insert (i * pageSize) m.heap
    words := Function.update m.words (i * pageSize) fun _ => 0 }, ?_, ⟨rfl, fun b hb => ?_⟩,
    rfl, rfl, rfl, rfl⟩
  · simp only [PhysMem.memalign, h.answers, inOrder_succ, hne, if_false, hmod, hsmall,
      h.fresh (Nat.le_refl i), not_false_eq_true, and_self, if_true]
  · have hnext : i * pageSize < (i + 1) * pageSize :=
      Nat.mul_lt_mul_of_pos_right (Nat.lt_succ_self i) (by decide)
    rcases Finset.mem_insert.mp hb with rfl | hb
    · exact hnext
    · exact (h.heap b hb).trans hnext

/-- `mm_init` has a result when the heap hands out its pages in order. -/
theorem mmInit_inOrder {i n : Nat} (hi : 0 < i) (hlt : i + 5 ≤ 4096) :
    ∃ m, mmInit (rawMemory (inOrder i (n + 5))) = some m ∧ Booting (i * pageSize) 4 m ∧
      Ordered m (i + 5) n ∧
      ∀ k < 4, deflagAddr (m.words (i * pageSize) k) = (i + 1 + k) * pageSize := by
  have hraw : Ordered ((rawMemory (inOrder i (n + 5))).setFrames (initFreeFrame totalPhysFrames)) i
      (n + 4 + 1) := ⟨rfl, fun b hb => by simp [rawMemory, PhysMem.setFrames] at hb⟩
  obtain ⟨m1, halloc, hordered, hframes, -, hheap, -⟩ := hraw.memalign hi (by omega)
  have hstart : Booting (i * pageSize) 0 (m1.setCr3 (i * pageSize)) :=
    .start (m := rawMemory (inOrder i (n + 5))) rfl (isBlock_page hi (by omega)) hframes hheap
  obtain ⟨m, hloop, hend, hordered', hentries⟩ := foldlM_range_total
    (f := kernelTable (i * pageSize))
    (I := fun k u => Booting (i * pageSize) k u ∧ Ordered u (i + 1 + k) (n + (4 - k)) ∧
      ∀ l < k, deflagAddr (u.words (i * pageSize) l) = (i + 1 + l) * pageSize)
    4 (s := m1.setCr3 (i * pageSize))
    ⟨hstart, ⟨hordered.answers, hordered.heap⟩, fun l hl => by omega⟩ (by
      rintro k hk u ⟨hu, hord, hold⟩
      rw [show n + (4 - k) = n + (4 - (k + 1)) + 1 by omega] at hord
      obtain ⟨u1, hu1, hord1, hframes1, hcr31, hheap1, hwords1⟩ :=
        hord.memalign (by omega) (by omega)
      obtain ⟨v, hv, hnext, hanswers, hheap2, hnew, hkeep⟩ := hu.round hk hu1 hframes1 hcr31
        (isBlock_page (by omega) (by omega)) (hord.fresh (Nat.le_refl _)) hheap1 hwords1
      refine ⟨v, hv, hnext, ⟨hanswers.trans hord1.answers, fun b hb => ?_⟩, fun l hl => ?_⟩
      · rw [hheap2, ← hheap1] at hb
        exact hord1.heap b hb
      · rcases Nat.lt_succ_iff_lt_or_eq.mp hl with hl | rfl
        · rw [hkeep l hl]
          exact hold l hl
        · exact hnew)
  refine ⟨m, ?_, hend, hordered', hentries⟩
  rw [mmInit, halloc]
  exact hloop

/-- `process_create` has a result when the heap hands out its pages in order. -/
theorem processCreate_inOrder {s : Vm} {i n k : Nat} (h : Ordered s.memory i (n + 2)) (hi : 0 < i)
    (hlt : i + 1 < 4096) (hframes : s.memory.frames.FreeFrom k) (hpos : 0 < k)
    (hk : k + 2 < totalPhysFrames) (hcr3 : s.memory.cr3 ≠ i * pageSize) :
    ∃ s', s.processCreate smallProgram = some s' ∧ Ordered s'.memory (i + 2) n ∧
      s'.memory.frames.FreeFrom (k + 2) ∧ s'.memory.cr3 = i * pageSize ∧
      s'.currentSpace = some ⟨i * pageSize, [], [], false, true⟩ ∧
      ∀ x w, s'.memory.words x w = if x = i * pageSize
        then (if w < 4 then addFlag (deflagAddr (s.memory.words s.memory.cr3 w)) 0x107
          else if w = 1023 then addFlag ((i + 1) * pageSize) 0x7 else 0)
        else if x = (i + 1) * pageSize
        then (if w = 1022 then addFlag (k * pageSize) 0x7
          else if w = 1023 then addFlag ((k + 1) * pageSize) 0x7 else 0)
        else s.memory.words x w := by
  have hlow : i * pageSize < (i + 1) * pageSize :=
    Nat.mul_lt_mul_of_pos_right (Nat.lt_succ_self i) (by decide)
  have hhigh : (i + 1) * pageSize < (i + 2) * pageSize :=
    Nat.mul_lt_mul_of_pos_right (Nat.lt_succ_self (i + 1)) (by decide)
  have hans : s.memory.answers
      = ⟨i * pageSize, fun _ => 0⟩ :: ⟨(i + 1) * pageSize, fun _ => 0⟩ :: inOrder (i + 2) n := by
    rw [h.answers, inOrder_succ, inOrder_succ]
  obtain ⟨m1, m, hinit, hload, hrest, hframes', hcr3', hheap, hwords⟩ := newImage_total hans
    (isBlock_page hi (by omega)) (h.fresh (Nat.le_refl i))
    (Or.inr ⟨isBlock_page (by omega) (by omega), h.fresh (Nat.le_succ i)⟩) hlow.ne' hframes hpos hk
    hcr3
  let s' : Vm := { ({ s with nextPid := s.nextPid + 1 }.setMemory m).setSpace s.nextPid
    ⟨i * pageSize, [], [], false, true⟩ with current := s.nextPid }
  have hrun : s.processCreate smallProgram = some s' := by
    simp only [Vm.processCreate, hinit, hload, Option.bind_some, Option.map_some]
    rfl
  refine ⟨s', hrun, ⟨hrest, fun b hb => ?_⟩, hframes', hcr3', Function.update_self .., hwords⟩
  rcases hheap b hb with hb | rfl | rfl
  · exact (h.heap b hb).trans (hlow.trans hhigh)
  · exact hlow.trans hhigh
  · exact hhigh

/-! ## Calls that succeed -/

/-- The number of frames that are left. -/
theorem FrameTable.FreeFrom.freeFrameNum_eq {t : FrameTable} {n : Nat} (h : t.FreeFrom n) :
    t.freeFrameNum = (totalPhysFrames - n : Nat) := by
  have hset : t.freeSet = Finset.Ico n totalPhysFrames := by
    ext f
    rw [mem_freeSet, h.counts, Finset.mem_Ico]
    split <;> simp <;> omega
  rw [h.ok.count, hset, Nat.card_Ico]

/-- **A request for one page**, at a place of the address space where there is no page table. -/
theorem newPages_total {s : Vm} {a : AddressSpace} {n i j : Nat} (addr : UInt32) (answer : Answer)
    (ha : s.currentSpace = some a) (huser : Kernel.isUserAddr addr.toNat = true)
    (haligned : addr.toNat &&& 0xfff = 0) (hi : vaPdInd addr.toNat = i) (hlt : i < pageLen)
    (hrange : pageRange addr.toNat 4096 = [(i, j)]) (hzero : s.memory.words a.pd i = 0)
    (husable : answer.Usable s.memory) (hframes : s.memory.frames.FreeFrom n) (hpos : 0 < n)
    (hn : n + 1 < totalPhysFrames) :
    ∃ m, s.step ⟨.newPages addr 4096, [answer]⟩ = some ((s.setMemory m).setSpace s.current
        { a with va := a.va ++ [⟨addr.toNat, 4096⟩] }, 0) ∧
      m.frames.FreeFrom (n + 1) ∧ m.cr3 = s.memory.cr3 ∧
      (∀ x ∈ m.heap, x ∈ s.memory.heap ∨ x = answer.address) ∧
      ∀ x k, m.words x k = if x = a.pd ∧ k = i then addFlag answer.address 0x7
        else if x = answer.address then (if k = j then addFlag (n * pageSize) 0x7 else 0)
        else s.memory.words x k := by
  let s1 := s.supply [answer]
  have hsmall : addr.toNat < 2 ^ 32 := addr.toNat_lt
  have hnone : noneMapped s1.memory a.pd addr.toNat 1 = true := by
    have hcur : curAddr addr.toNat 0 = addr.toNat := Nat.mod_eq_of_lt hsmall
    have hpde : s1.memory.words a.pd i = 0 := hzero
    simp [noneMapped, hcur, hi, hpde]
  have hchecks : newPagesChecks s1.memory a.pd addr.toNat (4096 : Int32).toInt = true := by
    have hleft : 1 ≤ s1.memory.frames.freeFrameNum := by
      have hnum : s1.memory.frames.freeFrameNum = (totalPhysFrames - n : Nat) :=
        hframes.freeFrameNum_eq
      omega
    rw [show (4096 : Int32).toInt = 4096 by decide]
    simp only [newPagesChecks, decide_eq_true_eq]
    exact ⟨huser, haligned, by decide, by decide, hleft, hnone⟩
  obtain ⟨m, hmap, hans, hfree, hcr3, hheap, hwords⟩ :=
    virtualMapPhysical_fresh (m := s1.memory) (d := a.pd) (i := i) (j := j) rfl husable hframes hpos
      hn hlt hzero
  have halloc : allocatePages s1.memory a.pd addr.toNat (4096 : Int32).toInt.toNat = some m := by
    rw [show (4096 : Int32).toInt.toNat = 4096 by decide, allocatePages, forPages_eq, hrange]
    simp [hmap]
  refine ⟨m, ?_, hfree, hcr3, hheap, hwords⟩
  have hcode : s1.sysNewPages addr 4096 = some ((s1.setMemory m).setSpace s1.current
      { a with va := a.va ++ [⟨addr.toNat, 4096⟩] }, 0) := by
    have ha1 : s1.currentSpace = some a := ha
    rw [Vm.sysNewPages, ha1, Option.bind_some, if_pos hchecks, halloc]
    rfl
  rw [Vm.step]
  show (s1.sysNewPages addr 4096).bind _ = _
  rw [hcode, Option.bind_some]
  show (if m.answers.isEmpty then _ else _) = _
  rw [hans]
  rfl

/-- **An `exec`** of the program with a stack only, whose name and arguments lie on the stack. -/
theorem exec_total {s : Vm} {a : AddressSpace} {x y : Answer} {n : Nat}
    (ha : s.currentSpace = some a)
    (hmapped : addrHasMapping s.memory a.pd 0xffffe000 = true) (hx : IsBlock x.address)
    (hfresh : x.address ∉ s.memory.heap) (hy : y.Usable s.memory) (hxy : y.address ≠ x.address)
    (hframes : s.memory.frames.FreeFrom n) (hpos : 0 < n) (hn : n + 2 < totalPhysFrames)
    (hcr3 : s.memory.cr3 ≠ x.address) :
    ∃ m, s.step ⟨.exec 0xffffe000 0xffffe000 (some smallProgram) true, [x, y]⟩
        = some ((s.setMemory m).setSpace s.current { a with pd := x.address }, 0) ∧
      m.frames.FreeFrom (n + 2) ∧ m.cr3 = x.address ∧
      ∀ b k, m.words b k = if b = x.address
        then (if k < 4 then addFlag (deflagAddr (s.memory.words s.memory.cr3 k)) 0x107
          else if k = 1023 then addFlag y.address 0x7 else 0)
        else if b = y.address
        then (if k = 1022 then addFlag (n * pageSize) 0x7
          else if k = 1023 then addFlag ((n + 1) * pageSize) 0x7 else 0)
        else s.memory.words b k := by
  let s1 := s.supply [x, y]
  obtain ⟨m1, m, hinit, hload, hans, hfree, hcr3', -, hwords⟩ :=
    newImage_total (m := s1.memory) (show s1.memory.answers = [x, y] from rfl) hx hfresh hy hxy hframes hpos hn hcr3
  have haccepts : execAccepts s1.memory a.pd (0xffffe000 : UInt32).toNat
      (0xffffe000 : UInt32).toNat (some smallProgram) true = some smallProgram := by
    have hmapped1 : addrHasMapping s1.memory a.pd 0xffffe000 = true := hmapped
    rw [show (0xffffe000 : UInt32).toNat = 0xffffe000 by decide, execAccepts, hmapped1]
    rfl
  refine ⟨m, ?_, hfree, hcr3', hwords⟩
  have hcode : s1.sysExec 0xffffe000 0xffffe000 (some smallProgram) true
      = some ((s1.setMemory m).setSpace s1.current { a with pd := x.address }, 0) := by
    have ha1 : s1.currentSpace = some a := ha
    rw [Vm.sysExec, ha1, Option.bind_some, haccepts]
    simp only [hinit, hload, Option.bind_some, Option.map_some]
  rw [Vm.step]
  show (s1.sysExec _ _ _ _).bind _ = _
  rw [hcode, Option.bind_some]
  show (if m.answers.isEmpty then _ else _) = _
  rw [hans]
  rfl

/-! ## A boot -/

/-- **The state after a boot** with programs that have only a stack, the heap handing out its
pages from page 256 on. -/
structure Begun (s : Vm) : Prop where
  /-- The process `init` has page 263 as its page directory. -/
  space : s.currentSpace = some ⟨263 * pageSize, [], [], false, true⟩
  /-- The heap goes on with page 265. -/
  heap : ∀ b ∈ s.memory.heap, b < 265 * pageSize
  /-- The frames up to 4100 are handed out. -/
  frames : s.memory.frames.FreeFrom 4100
  /-- The page directory in use. -/
  cr3 : s.memory.cr3 = 263 * pageSize
  /-- The kernel entries of the page directory. -/
  kernel : ∀ k < 4, deflagAddr (s.memory.words (263 * pageSize) k) = (257 + k) * pageSize
  /-- The kernel maps the frame 0. -/
  first_frame : deflagAddr (s.memory.words (257 * pageSize) 0) = 0
  /-- The user entries of the page directory. -/
  directory : ∀ k, 4 ≤ k → s.memory.words (263 * pageSize) k
    = if k = 1023 then addFlag (264 * pageSize) 0x7 else 0
  /-- The page table of the stack. -/
  stack : ∀ k, s.memory.words (264 * pageSize) k
    = if k = 1022 then addFlag (4098 * pageSize) 0x7
      else if k = 1023 then addFlag (4099 * pageSize) 0x7 else 0

/-- The stack of `init` is mapped. -/
theorem Begun.stack_mapped {s : Vm} (h : Begun s) :
    addrHasMapping s.memory (263 * pageSize) 0xffffe000 = true := by
  have hpde : s.memory.words (263 * pageSize) (vaPdInd 0xffffe000) = addFlag (264 * pageSize) 0x7 :=
    (h.directory 1023 (by decide)).trans (if_pos rfl)
  have hdef : deflagAddr (addFlag (264 * pageSize) 0x7) = 264 * pageSize := by decide
  have hpte : s.memory.words (264 * pageSize) (vaPtInd 0xffffe000) = addFlag (4098 * pageSize) 0x7 :=
    (h.stack 1022).trans (if_pos rfl)
  simp only [addrHasMapping, hpde, hdef, hpte]
  decide

/-- Page 265 and those above are free in the kernel heap. -/
theorem Begun.fresh {s : Vm} (h : Begun s) {k : Nat} (hk : 265 ≤ k) :
    k * pageSize ∉ s.memory.heap := by
  intro hmem
  have hle : 265 * pageSize ≤ k * pageSize := Nat.mul_le_mul_right _ hk
  exact absurd (h.heap _ hmem) (not_lt.mpr hle)

/-- **There is such a boot.** -/
theorem boot_begun : ∃ s, boot smallProgram smallProgram (inOrder 256 9) = some s ∧ Begun s := by
  obtain ⟨m, hm, hbooting, hordered, hentries⟩ :=
    mmInit_inOrder (i := 256) (n := 4) (by decide) (by decide)
  obtain ⟨s1, hs1, hord1, hframes1, hcr31, -, hwords1⟩ :=
    processCreate_inOrder (s := ⟨m, fun _ => none, 0, 1⟩) (i := 261) (n := 2) (k := 4096) hordered
      (by decide) (by decide) hbooting.frames (by decide) (by decide)
      (by show m.cr3 ≠ _; rw [hbooting.cr3]; decide)
  obtain ⟨s2, hs2, hord2, hframes2, hcr32, hspace2, hwords2⟩ :=
    processCreate_inOrder (s := s1) (i := 263) (n := 0) (k := 4098) hord1 (by decide) (by decide)
      hframes1 (by decide) (by decide) (by rw [hcr31]; decide)
  have hempty : s2.memory.answers.isEmpty = true := by
    rw [hord2.answers]
    rfl
  -- the entries of the kernel are copied twice
  have hkernel : ∀ k < 4, deflagAddr (s2.memory.words (263 * pageSize) k)
      = (257 + k) * pageSize := by
    intro k hk
    have hblock : IsBlock ((257 + k) * pageSize) := isBlock_page (by omega) (by omega)
    have hflags := (addFlag_block hblock (f := 0x107) (by decide)).2
    rw [hwords2, if_pos rfl, if_pos hk, hcr31, hwords1, if_pos rfl, if_pos hk]
    show deflagAddr (addFlag (deflagAddr (addFlag (deflagAddr (m.words m.cr3 k)) _)) _) = _
    rw [hbooting.cr3, hentries k hk, hflags, hflags]
  refine ⟨s2, ?_, hspace2, hord2.heap, hframes2, hcr32, hkernel, ?_, fun k hk => ?_, fun k => ?_⟩
  · rw [boot, hm, Option.bind_some, hs1, Option.bind_some, hs2, Option.bind_some, if_pos hempty]
  · have hfirst : m.words (257 * pageSize) 0 = addFlag 0 0x103 := by
      have hfull := hbooting.full 0 (by decide) 0 (by decide)
      rw [hentries 0 (by decide)] at hfull
      exact hfull
    rw [hwords2, if_neg (by decide), if_neg (by decide), hwords1, if_neg (by decide),
      if_neg (by decide)]
    show deflagAddr (m.words _ 0) = 0
    rw [hfirst]
    decide
  · rw [hwords2, if_pos rfl, if_neg (by omega)]
  · rw [hwords2, if_neg (by decide), if_pos rfl]

end Pebbles.Memory
