import Pebbles.Memory.ForkPages

/-! # What a forked process finds in its page tables

`sys_fork` writes the entries of the child that the parent has, and no others: the blocks that
`memalign` hands out for the child's page directory and page tables are never cleared, although
`init_pd` and `virtual_map_physical` clear theirs. `nothingExtra_iff` says for which contents of
the blocks the child has nothing that the parent does not have. -/

namespace Pebbles.Memory

open Transition

/-! ## A parent -/

/-- The frame table after the boot: the frames up to 4100 are handed out. -/
def bootedFrames : FrameTable where
  frameBase i := ⟨if i < 4100 then 1 else 0, if i + 1 < totalPhysFrames then some (i + 1) else none⟩
  freeFrame := some 4100
  freeFrameNum := 61436

/-- The memory when the process `init` runs: its page directory is page 263, the two pages of its
stack are in page table 264. -/
def bootedMemory (answers : List Answer) : PhysMem where
  frames := bootedFrames
  words x k :=
    if x = 263 * pageSize then
      if k < 4 then addFlag ((257 + k) * pageSize) 0x107
      else if k = 1023 then addFlag (264 * pageSize) 0x7 else 0
    else if x = 264 * pageSize then
      if k = 1022 then addFlag (4098 * pageSize) 0x7
      else if k = 1023 then addFlag (4099 * pageSize) 0x7 else 0
    else 0
  heap := (Finset.Ico 256 265).image (· * pageSize)
  answers := answers
  cr3 := 263 * pageSize

/-- The process `init` alone. -/
def bootedVm (answers : List Answer) : Vm where
  memory := bootedMemory answers
  spaces := Function.update (fun _ => none) 2 (some ⟨263 * pageSize, [], [], false, true⟩)
  current := 2
  nextPid := 3

/-- The frame table is in order. -/
theorem ok_bootedFrames : bootedFrames.Ok := by
  have hset : bootedFrames.freeSet = Finset.Ico 4100 totalPhysFrames := by
    ext i
    simp only [mem_freeSet, Finset.mem_Ico, FrameTable.refcount, bootedFrames]
    split <;> omega
  refine ⟨fun i => rfl, ⟨4100, rfl, ?_⟩, fun i _ => ?_, ?_⟩
  · rw [hset]
    decide
  · simp only [FrameTable.refcount, bootedFrames]
    split <;> omega
  · rw [hset, Nat.card_Ico]
    rfl

/-- The blocks in use. -/
theorem mem_bootedMemory {answers : List Answer} {n : Nat} (h : 256 ≤ n ∧ n < 265) :
    n * pageSize ∈ (bootedMemory answers).heap :=
  Finset.mem_image_of_mem _ (Finset.mem_Ico.mpr h)

/-- The words of the page directory. -/
theorem bootedMemory_words (answers : List Answer) (k : Nat) :
    (bootedMemory answers).words (263 * pageSize) k
      = if k < 4 then addFlag ((257 + k) * pageSize) 0x107
        else if k = 1023 then addFlag (264 * pageSize) 0x7 else 0 := by
  simp only [bootedMemory, if_true]

/-- The page tables, by their index. -/
theorem bootedMemory_tables {answers : List Answer} {i : Nat}
    (hne : (bootedMemory answers).words (263 * pageSize) i ≠ 0) :
    ∃ n, 257 ≤ n ∧ n < 265 ∧ n ≠ 263 ∧
      deflagAddr ((bootedMemory answers).words (263 * pageSize) i) = n * pageSize ∧
      (i = n - 257 ∧ i < 4 ∨ i = 1023 ∧ n = 264) := by
  rw [bootedMemory_words] at hne ⊢
  split_ifs at hne ⊢ with h1 h2
  · have hblock : IsBlock ((257 + i) * pageSize) := isBlock_page (by omega) (by omega)
    exact ⟨257 + i, by omega, by omega, by omega, (addFlag_block hblock (by decide)).2,
      Or.inl ⟨by omega, h1⟩⟩
  · exact ⟨264, by decide, by decide, by decide, by decide, Or.inr ⟨h2, rfl⟩⟩
  · exact absurd rfl hne

/-- It is a page directory. -/
theorem directory_bootedMemory (answers : List Answer) :
    Directory (bootedMemory answers) (263 * pageSize) where
  ordered := ok_bootedFrames.ordered
  first_frame := rfl
  null h := by
    obtain ⟨n, hn, hzero⟩ := Finset.mem_image.mp h
    have hlow := (Finset.mem_Ico.mp hn).1
    rw [pageSize] at hzero
    omega
  mem := mem_bootedMemory (by decide)
  table_mem i _ hne := by
    obtain ⟨n, hlow, hlt, -, heq, -⟩ := bootedMemory_tables hne
    rw [heq]
    exact mem_bootedMemory ⟨by omega, hlt⟩
  table_ne i _ hne := by
    obtain ⟨n, -, -, hn, heq, -⟩ := bootedMemory_tables hne
    rw [heq]
    exact fun e => hn (Nat.eq_of_mul_eq_mul_right (by decide) e)
  table_inj i _ i' _ hne hne' heq := by
    obtain ⟨n, hlow, hlt, -, hn, hi⟩ := bootedMemory_tables hne
    obtain ⟨n', hlow', hlt', -, hn', hi'⟩ := bootedMemory_tables hne'
    rw [hn, hn'] at heq
    have hsame := Nat.eq_of_mul_eq_mul_right (by decide) heq
    omega

/-! ## The claim -/

/-- **The child has nothing that the parent does not have**, where the parent's page directory is
`d`, with the words before the call, and the child's is `b`, with the words after it. -/
structure NothingExtra (words words' : Nat → Nat → Nat) (d b : Nat) : Prop where
  /-- A page table that the parent does not have. -/
  tables : ∀ i ∈ userTables, words d i = 0 → words' b i = 0
  /-- A page that the parent does not have, in a page table that it has. -/
  pages : ∀ i ∈ userTables, words d i ≠ 0 → ∀ j < pageLen, words (deflagAddr (words d i)) j = 0 →
    words' (deflagAddr (words' b i)) j = 0

/-- **The blocks contain zeros where the parent has nothing**: `a0` is the answer for the child's
page directory, `as` are those for its page tables. -/
structure Unstale (words : Nat → Nat → Nat) (d : Nat) (a0 : Answer) (as : List Answer) : Prop where
  /-- The block of the page directory. -/
  tables : ∀ i ∈ userTables, words d i = 0 → a0.contents i = 0
  /-- The blocks of the page tables. -/
  pages : ∀ i a, (i, a) ∈ (presentTables words d userTables).zip as → ∀ j < pageLen,
    words (deflagAddr (words d i)) j = 0 → a.contents j = 0

section
variable {s s' : PagedMem} {d : Nat} {a0 : Answer} {as rest : List Answer} {fs : List Nat}

/-- The page tables of the parent. -/
theorem Directory.mem_presentTables (h : Directory s.memory d) {i : Nat} :
    i ∈ presentTables s.memory.words d userTables ↔ i ∈ userTables ∧ s.memory.words d i ≠ 0 := by
  rw [Memory.mem_presentTables]
  refine and_congr_right fun hi => ⟨fun hpde e => hpde (by rw [e, deflagAddr_zero]), fun hpde => ?_⟩
  exact h.table_ne_zero (mem_userTables.mp hi).2 hpde

/-- Zipping with more answers than there are page tables. -/
theorem zip_append_right {α β : Type*} {l : List α} {as rest : List β}
    (h : l.length = as.length) : l.zip (as ++ rest) = l.zip as := by
  have hzip : (l ++ []).zip (as ++ rest) = l.zip as ++ ([] : List α).zip rest := List.zip_append h
  simpa using hzip

/-- A page table of the child. -/
theorem Forked.given (h : Forked s s' d a0 as fs) {i : Nat} {a : Answer}
    (hgiven : (i, a) ∈ (presentTables s.memory.words d userTables).zip as) :
    TableGiven s.memory s'.memory d a0.address i a :=
  List.forall₂_zip h.tables hgiven

/-- The child has a page table where the parent has one. -/
theorem Forked.exists_given (h : Forked s s' d a0 as fs) {i : Nat}
    (hi : i ∈ presentTables s.memory.words d userTables) :
    ∃ a, (i, a) ∈ (presentTables s.memory.words d userTables).zip as := by
  obtain ⟨n, hn, rfl⟩ := List.mem_iff_getElem.mp hi
  have hn' : n < as.length := h.tables.length_eq ▸ hn
  refine ⟨as[n], ?_⟩
  rw [List.mem_iff_getElem]
  exact ⟨n, by rw [List.length_zip]; omega, List.getElem_zip⟩

/-- **What the child has of what the parent does not have** is what its blocks contained. -/
theorem Forked.unstale_iff (h : Forked s s' d a0 as fs) (hd : Directory s.memory d) :
    NothingExtra s.memory.words s'.memory.words d a0.address
      ↔ Unstale s.memory.words d a0 as := by
  have haddr : ∀ {i a}, TableGiven s.memory s'.memory d a0.address i a →
      deflagAddr (s'.memory.words a0.address i) = a.address := fun hgiven => by
    rw [hgiven.entry]
    exact (addFlag_block hgiven.block (getFlag_lt _)).2
  have hstale : ∀ i ∈ userTables, s.memory.words d i = 0 →
      s'.memory.words a0.address i = a0.contents i := fun i hi hzero =>
    h.stale i hi (by rw [hzero, deflagAddr_zero])
  constructor
  · rintro ⟨htables, hpages⟩
    refine ⟨fun i hi hzero => ?_, fun i a hmem j hj hzero => ?_⟩
    · rw [← hstale i hi hzero]
      exact htables i hi hzero
    · have hgiven := h.given hmem
      obtain ⟨hi, hpde⟩ := hd.mem_presentTables.mp (List.of_mem_zip hmem).1
      rw [← hgiven.stale j hj (by rw [hzero, deflagAddr_zero]), ← haddr hgiven]
      exact hpages i hi hpde j hj hzero
  · rintro ⟨htables, hpages⟩
    refine ⟨fun i hi hzero => ?_, fun i hi hpde j hj hzero => ?_⟩
    · rw [hstale i hi hzero]
      exact htables i hi hzero
    · -- the answer that the page table `i` was given
      obtain ⟨a, hmem⟩ := h.exists_given (hd.mem_presentTables.mpr ⟨hi, hpde⟩)
      have hgiven := h.given hmem
      rw [haddr hgiven, hgiven.stale j hj (by rw [hzero, deflagAddr_zero])]
      exact hpages _ _ hmem j hj hzero

end

/-- **When a forked process has nothing that its parent does not have.** For every page directory
of the parent and every content of the blocks that `memalign` hands out, a `sys_fork` that makes a
child leaves every user entry of the child 0 that is 0 in the parent, if and only if the blocks
contained 0 there. -/
theorem nothingExtra_iff {s s' : Vm} {a : AddressSpace} {r : Int} {a0 : Answer}
    {as : List Answer} (hd : Directory s.memory a.pd) (hcr3 : s.memory.cr3 = a.pd)
    (ha : s.currentSpace = some a) (hanswers : s.memory.answers = a0 :: as)
    (call : s.sysFork = some (s', r)) (hr : r ≠ -1) :
    ∃ b, s'.spaces s.nextPid = some b ∧
      (NothingExtra s.memory.words s'.memory.words a.pd b.pd
        ↔ Unstale s.memory.words a.pd a0 as) := by
  obtain ⟨t, b0, bs, fs, hmem, -, hspace, hforked⟩ :=
    Vm.forked_of_sysFork hd hcr3 ha call hr fun _ _ => 0
  have hused : a0 :: as = b0 :: bs ++ t.memory.answers := hanswers.symm.trans hforked.answers
  obtain ⟨rfl, rfl⟩ := List.cons.inj hused
  refine ⟨_, hspace, ?_⟩
  have hiff := hforked.unstale_iff hd
  rw [hmem, hiff]
  have hzip : (presentTables s.memory.words a.pd userTables).zip (bs.append t.memory.answers)
      = (presentTables s.memory.words a.pd userTables).zip bs :=
    zip_append_right hforked.tables.length_eq
  constructor
  · rintro ⟨htables, hpages⟩
    exact ⟨htables, fun i a' hmem' => hpages i a' (by rwa [hzip] at hmem')⟩
  · rintro ⟨htables, hpages⟩
    exact ⟨htables, fun i a' hmem' => hpages i a' (by rwa [hzip])⟩

/-! ## Stale words -/

/-- The answers for a fork of `init`: a block for the page directory, with the word `x` at entry 5,
and a block of zeros for the page table. -/
def childBlocks (x : Nat) : List Answer :=
  [⟨265 * pageSize, fun k => if k = 5 then x else 0⟩, ⟨266 * pageSize, fun _ => 0⟩]

/-- `nothingExtra_iff` for a fork of `init`. -/
theorem nothingExtra_iff_booted :
    ∃ s' b, (bootedVm (childBlocks 0)).sysFork = some (s', 3) ∧ s'.spaces 3 = some b ∧
      (NothingExtra (bootedMemory []).words s'.memory.words (263 * pageSize) b.pd
        ↔ Unstale (bootedMemory []).words (263 * pageSize)
          ⟨265 * pageSize, fun k => if k = 5 then 0 else 0⟩ [⟨266 * pageSize, fun _ => 0⟩]) := by
  have hchild : ((bootedVm (childBlocks 0)).sysFork).map Prod.snd = some 3 := by decide +kernel
  obtain ⟨⟨s', r⟩, hfork, rfl⟩ := Option.map_eq_some_iff.mp hchild
  obtain ⟨b, hb, hiff⟩ := nothingExtra_iff (directory_bootedMemory _) rfl rfl rfl hfork (by decide)
  exact ⟨s', b, hfork, hb, hiff⟩

/-- **A stale word becomes a page table of the child**: `init` has no page table 5, its child has
the one that the word in the new block points to. -/
theorem stale_word_is_followed :
    ∃ s' b, (bootedVm (childBlocks 0x01234007)).sysFork = some (s', 3) ∧ s'.spaces 3 = some b ∧
      ¬ NothingExtra (bootedMemory []).words s'.memory.words (263 * pageSize) b.pd := by
  have hchild : ((bootedVm (childBlocks 0x01234007)).sysFork).bind (fun t => (t.1.spaces 3).map
      fun b => (t.2, b.pd, t.1.memory.words b.pd 5)) = some (3, 265 * pageSize, 0x01234007) := by
    decide +kernel
  obtain ⟨⟨s', r⟩, hfork, hrest⟩ := Option.bind_eq_some_iff.mp hchild
  obtain ⟨b, hb, hword⟩ := Option.map_eq_some_iff.mp hrest
  simp only [Prod.mk.injEq] at hword
  obtain ⟨rfl, -, hstale⟩ := hword
  refine ⟨s', b, hfork, hb, fun hnothing => ?_⟩
  have hzero := hnothing.tables 5 (by decide) (bootedMemory_words [] 5)
  rw [hstale] at hzero
  cases hzero

end Pebbles.Memory
