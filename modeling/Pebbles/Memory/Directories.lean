import Pebbles.Library.Loops
import Pebbles.Memory.FrameSupply
import Pebbles.Memory.Paging

/-! # One page directory

The routines of `vm_routines.c` seen from a single page directory, whatever `memalign` answers. A
page directory is described by its page-table entries: `entryOf` reads the entry of a page, 0 where
there is no page table. `MapEffect` says once what `virtual_map_physical` can do, and
`mapLoop_isSome_iff` for which numbers of frames a loop over pages comes to its end. -/

namespace Pebbles.Memory

open Loop

/-! ## Entries of a page directory -/

/-- The page-table entry of the page `p`, with its index in the page directory and the one in the
page table. -/
def entryOf (words : Nat → Nat → Nat) (pd : Nat) (p : Nat × Nat) : Nat :=
  if words pd p.1 = 0 then 0 else words (deflagAddr (words pd p.1)) p.2

/-- **A page directory**: it and its page tables are blocks of the heap, no two of them the same.
The frame table is in order, and the kernel holds frame 0. -/
structure Directory (m : PhysMem) (pd : Nat) : Prop where
  /-- The frame allocator is sound. -/
  ordered : m.frames.Ordered
  /-- Frame 0 is in use. -/
  first_frame : m.frames.refcount 0 = 1
  /-- `NULL` is no block. -/
  null : 0 ∉ m.heap
  /-- The page directory is a block in use. -/
  mem : pd ∈ m.heap
  /-- So are the page tables. -/
  table_mem : ∀ i < pageLen, m.words pd i ≠ 0 → deflagAddr (m.words pd i) ∈ m.heap
  /-- None of them is the page directory. -/
  table_ne : ∀ i < pageLen, m.words pd i ≠ 0 → deflagAddr (m.words pd i) ≠ pd
  /-- No two entries share one. -/
  table_inj : ∀ i < pageLen, ∀ i' < pageLen, m.words pd i ≠ 0 → m.words pd i' ≠ 0 →
    deflagAddr (m.words pd i) = deflagAddr (m.words pd i') → i = i'

/-- The answers are such as `memalign` gives: each is `NULL` or a block that nobody holds. -/
def Supplied : Finset Nat → List Answer → Prop
  | _, [] => True
  | heap, a :: as =>
      (a.address = 0 ∧ Supplied heap as) ∨
        (IsBlock a.address ∧ a.address ∉ heap ∧ Supplied (insert a.address heap) as)

section
variable {m m' m1 : PhysMem} {pd b : Nat} {p q : Nat × Nat} {l : List (Nat × Nat)} {r : Int}
  {t t' : FrameTable} {address : Nat}

/-- The entry of a page whose page table is there. -/
theorem entryOf_of_table {words : Nat → Nat → Nat} (h : words pd p.1 ≠ 0) :
    entryOf words pd p = words (deflagAddr (words pd p.1)) p.2 := if_neg h

/-- There is no entry without a page table. -/
theorem entryOf_of_none {words : Nat → Nat → Nat} (h : words pd p.1 = 0) :
    entryOf words pd p = 0 := if_pos h

/-- `memalign` answers from a supply. -/
theorem memalign_supplied (hs : Supplied m.heap m.answers) (hne : m.answers ≠ []) :
    ∃ b m1, m.memalign = some (b, m1) ∧ Supplied m1.heap m1.answers := by
  cases hanswers : m.answers with
  | nil => exact absurd hanswers hne
  | cons a as =>
      rw [hanswers] at hs
      rcases hs with ⟨hnull, hrest⟩ | ⟨⟨hnz, hmod, hlt⟩, hfresh, hrest⟩
      · exact ⟨0, { m with answers := as }, by simp [PhysMem.memalign, hanswers, hnull], hrest⟩
      · refine ⟨a.address, { m with
          answers := as
          heap := insert a.address m.heap
          words := Function.update m.words a.address a.contents }, ?_, hrest⟩
        simp [PhysMem.memalign, hanswers, hnz, hmod, hlt, hfresh]

/-- The address of a frame other than frame 0 is not 0. -/
theorem address_ne_zero {f : Nat} (hacq : Takes t f t') (hpos : t.freeFrame ≠ some 0) :
    f * pageSize ≠ 0 := by
  refine Nat.mul_ne_zero ?_ (by decide)
  rintro rfl
  exact hpos hacq.pointer

/-! ## `virtual_map_physical` -/

/-- **What `virtual_map_physical` can do** at the page `p`: nothing, or take a frame and enter it in
the page table, or in a new one. -/
inductive MapEffect (m : PhysMem) (pd : Nat) (p : Nat × Nat) : Int → PhysMem → Prop
  /-- The page is mapped already. -/
  | taken (hmapped : entryOf m.words pd p ≠ 0) : MapEffect m pd p (-1) m
  /-- The page table is there. -/
  | table {f : Nat} {frames : FrameTable} (htable : m.words pd p.1 ≠ 0)
      (hfree : m.words (deflagAddr (m.words pd p.1)) p.2 = 0) (htakes : Takes m.frames f frames) :
      MapEffect m pd p 0 ((m.setFrames frames).write (deflagAddr (m.words pd p.1)) p.2
        (addFlag (f * pageSize) 0x7))
  /-- The page table is new, and what `memalign` answers is used as it comes. -/
  | fresh {f b : Nat} {frames : FrameTable} {m1 : PhysMem} (hnone : m.words pd p.1 = 0)
      (htakes : Takes m.frames f frames) (halloc : (m.setFrames frames).memalign = some (b, m1)) :
      MapEffect m pd p 0 (((m1.clear b).write b p.2 (addFlag (f * pageSize) 0x7)).write pd p.1
        (addFlag b 0x7))

/-- **The rule of `virtual_map_physical`.** -/
theorem mapEffect_of_call (hok : m.frames.Ordered) (hpos : m.frames.freeFrame ≠ some 0)
    (call : virtualMapPhysical m pd p.1 p.2 = some (r, m')) :
    p.1 < pageLen ∧ MapEffect m pd p r m' := by
  unfold virtualMapPhysical at call
  split at call
  · next hi =>
      refine ⟨hi, ?_⟩
      by_cases hpde : m.words pd p.1 = 0
      · simp only [hpde, ne_eq, not_true_eq_false, if_false] at call
        obtain ⟨⟨address, frames⟩, hacq, hrest⟩ := Option.bind_eq_some_iff.mp call
        obtain ⟨f, rfl, htakes⟩ := acquire_takes hok hacq
        have haddr : f * pageSize ≠ 0 := address_ne_zero htakes hpos
        simp only [haddr, if_false] at hrest
        obtain ⟨⟨b, m1⟩, halloc, hres⟩ := Option.map_eq_some_iff.mp hrest
        obtain ⟨rfl, rfl⟩ := Prod.mk.inj hres
        exact .fresh hpde htakes halloc
      · simp only [hpde, ne_eq, not_false_eq_true, if_true] at call
        by_cases hpte : m.words (deflagAddr (m.words pd p.1)) p.2 = 0
        · simp only [hpte, if_true] at call
          obtain ⟨⟨address, frames⟩, hacq, hres⟩ := Option.map_eq_some_iff.mp call
          obtain ⟨f, rfl, htakes⟩ := acquire_takes hok hacq
          have haddr : f * pageSize ≠ 0 := address_ne_zero htakes hpos
          simp only [haddr, if_false] at hres
          obtain ⟨rfl, rfl⟩ := Prod.mk.inj hres
          exact .table hpde hpte htakes
        · simp only [hpte, if_false] at call
          obtain ⟨rfl, rfl⟩ := Prod.mk.inj (Option.some.inj call)
          exact .taken (by rw [entryOf_of_table hpde]; exact hpte)
  · cases call

/-- **When `virtual_map_physical` comes back**: the page is mapped, or the search that follows the
hand-out of a frame finds another one. -/
theorem virtualMapPhysical_isSome_iff (pd : Nat) (hok : m.frames.Ordered)
    (hpos : m.frames.freeFrame ≠ some 0)
    (hsupply : Supplied m.heap m.answers)
    (hne : m.words pd p.1 = 0 → m.answers ≠ []) (hi : p.1 < pageLen) :
    (virtualMapPhysical m pd p.1 p.2).isSome ↔
      entryOf m.words pd p ≠ 0 ∨ 1 < m.frames.aboveSet.card := by
  rw [← acquire_isSome_iff_of_ordered hok]
  by_cases hpde : m.words pd p.1 = 0
  · simp only [virtualMapPhysical, hi, if_true, hpde, ne_eq, not_true_eq_false, if_false,
      entryOf_of_none hpde, false_or]
    cases hacq : acquireFreeFrame m.frames with
    | none => simp
    | some taken =>
        obtain ⟨address, frames⟩ := taken
        obtain ⟨f, rfl, htakes⟩ := acquire_takes hok hacq
        obtain ⟨b, m1, halloc, -⟩ := memalign_supplied (m := m.setFrames frames) hsupply
          (hne hpde)
        have haddr : f * pageSize ≠ 0 := address_ne_zero htakes hpos
        simp [haddr, halloc]
  · simp only [virtualMapPhysical, hi, if_true, hpde, ne_eq, not_false_eq_true,
      entryOf_of_table hpde]
    by_cases hpte : m.words (deflagAddr (m.words pd p.1)) p.2 = 0
    · simp [hpte]
    · simp [hpte]

/-! ## A list of pages -/

/-- The order in which the loops meet the pages. -/
def Before (p q : Nat × Nat) : Prop := p.1 < q.1 ∨ p.1 = q.1 ∧ p.2 < q.2

/-- The pages of a range are met in order. -/
theorem pageRange_pairwise (va size : Nat) : (pageRange va size).Pairwise Before := by
  rw [pageRange, List.pairwise_map]
  refine List.pairwise_lt_range.imp fun {k k'} hlt => ?_
  rw [Before, pageLen]
  dsimp only
  omega

/-- **What a loop needs of the pages ahead**: their page tables are blocks of the heap that differ
from each other and from the page directory. The first of them may be at `NULL`. -/
structure Ahead (m : PhysMem) (pd : Nat) (l : List (Nat × Nat)) : Prop where
  /-- `NULL` is no block. -/
  null : 0 ∉ m.heap
  /-- The page directory is a block in use. -/
  mem : pd ∈ m.heap
  /-- The page tables. -/
  table : ∀ p ∈ l, m.words pd p.1 ≠ 0 → deflagAddr (m.words pd p.1) ∈ m.heap ∨
    deflagAddr (m.words pd p.1) = 0 ∧ ∀ q ∈ l, p.1 ≤ q.1
  /-- None of them is the page directory. -/
  table_ne : ∀ p ∈ l, m.words pd p.1 ≠ 0 → deflagAddr (m.words pd p.1) ≠ pd
  /-- No two entries share one. -/
  table_inj : ∀ p ∈ l, ∀ q ∈ l, m.words pd p.1 ≠ 0 → m.words pd q.1 ≠ 0 →
    deflagAddr (m.words pd p.1) = deflagAddr (m.words pd q.1) → p.1 = q.1

/-- Fewer pages ahead. -/
theorem Ahead.mono {l' : List (Nat × Nat)} (h : Ahead m pd l) (hsub : ∀ q ∈ l', q ∈ l) :
    Ahead m pd l' where
  null := h.null
  mem := h.mem
  table := fun q hq hpde => (h.table q (hsub q hq) hpde).imp id fun e =>
    ⟨e.1, fun q' hq' => e.2 q' (hsub q' hq')⟩
  table_ne := fun q hq => h.table_ne q (hsub q hq)
  table_inj := fun q hq q' hq' => h.table_inj q (hsub q hq) q' (hsub q' hq')

/-- The pages after the first. -/
theorem Ahead.tail (h : Ahead m pd (p :: l)) : Ahead m pd l :=
  h.mono fun _ hq => List.mem_cons_of_mem p hq

/-- Any pages of a page directory may lie ahead. -/
theorem Directory.ahead (h : Directory m pd) (hl : ∀ p ∈ l, p.1 < pageLen) : Ahead m pd l where
  null := h.null
  mem := h.mem
  table := fun p hp hpde => Or.inl (h.table_mem _ (hl p hp) hpde)
  table_ne := fun p hp => h.table_ne _ (hl p hp)
  table_inj := fun p hp q hq => h.table_inj _ (hl p hp) _ (hl q hq)

namespace Ahead

/-- **A page-table entry is written**: the pages that come after it do not notice. -/
theorem write (h : Ahead m pd (p :: l)) (hsorted : (p :: l).Pairwise Before)
    (hpde : m.words pd p.1 ≠ 0) (v : Nat) (m' : PhysMem) (hheap : m'.heap = m.heap)
    (hwords : m'.words = (m.write (deflagAddr (m.words pd p.1)) p.2 v).words) :
    Ahead m' pd l ∧ ∀ q ∈ l, entryOf m'.words pd q = entryOf m.words pd q := by
  have hdir : ∀ k, m'.words pd k = m.words pd k := by
    intro k
    have hne := h.table_ne p List.mem_cons_self hpde
    rw [hwords, PhysMem.write_words, if_neg fun e => hne e.1.symm]
  refine ⟨⟨hheap ▸ h.null, hheap ▸ h.mem, fun q hq => ?_, fun q hq => ?_, fun q hq q' hq' => ?_⟩,
    fun q hq => ?_⟩
  · rw [hdir, hheap]
    exact fun hq0 => (h.table q (List.mem_cons_of_mem p hq) hq0).imp id fun e =>
      ⟨e.1, fun q' hq' => e.2 q' (List.mem_cons_of_mem p hq')⟩
  · rw [hdir]
    exact h.table_ne q (List.mem_cons_of_mem p hq)
  · rw [hdir, hdir]
    exact h.table_inj q (List.mem_cons_of_mem p hq) q' (List.mem_cons_of_mem p hq')
  · have hbefore := List.rel_of_pairwise_cons hsorted hq
    rw [entryOf, entryOf, hdir, hwords]
    split
    · rfl
    · next hqpde =>
        rw [PhysMem.write_words, if_neg]
        rintro ⟨htable, hindex⟩
        have heq := h.table_inj q (List.mem_cons_of_mem p hq) p List.mem_cons_self hqpde hpde htable
        rw [Before] at hbefore
        omega

end Ahead

/-- The entry made for a new page table. -/
theorem addFlag_answer (hb : b = 0 ∨ IsBlock b) :
    addFlag b 0x7 ≠ 0 ∧ deflagAddr (addFlag b 0x7) = b := by
  rcases hb with rfl | hblock
  · exact ⟨by decide, by decide⟩
  · exact addFlag_block hblock (by decide)

/-- What the memory holds after a page table was added at the answer `b` of `memalign`. -/
structure TableMade (m m' : PhysMem) (pd b : Nat) (p : Nat × Nat) (v : Nat) : Prop where
  /-- The answer is `NULL` or a block that nobody held. -/
  answer : (b = 0 ∧ m'.heap = m.heap) ∨ (IsBlock b ∧ b ∉ m.heap ∧ m'.heap = insert b m.heap)
  /-- The entries of the page directory. -/
  directory : ∀ k, m'.words pd k = if k = p.1 then addFlag b 0x7 else m.words pd k
  /-- The new page table. -/
  table : ∀ k, m'.words b k = if k = p.2 then v else 0
  /-- The other blocks. -/
  others : ∀ x, x ≠ pd → x ≠ b → m'.words x = m.words x
  /-- The page table is not the page directory. -/
  ne : b ≠ pd

/-- What becomes of the memory when the page table is new. -/
theorem tableMade_of_alloc {frames : FrameTable} {v : Nat} (hnull : 0 ∉ m.heap) (hmem : pd ∈ m.heap)
    (halloc : (m.setFrames frames).memalign = some (b, m1)) :
    TableMade m (((m1.clear b).write b p.2 v).write pd p.1 (addFlag b 0x7)) pd b p v := by
  obtain ⟨answer, -, -, -, -, -, hcases⟩ := memalign_cases halloc
  have hne : b ≠ pd := by
    rcases hcases with ⟨rfl, -⟩ | ⟨-, hfresh, -⟩
    · exact fun e => hnull (e ▸ hmem)
    · exact fun e => hfresh (e ▸ hmem)
  have hold : ∀ x, x ≠ b → m1.words x = m.words x := by
    intro x hx
    rcases hcases with ⟨-, hwords, -⟩ | ⟨-, -, -, hwords⟩
    · rw [hwords]
      rfl
    · rw [hwords, Function.update_of_ne hx]
      rfl
  refine ⟨?_, fun k => ?_, fun k => ?_, fun x hx hxb => funext fun k => ?_, hne⟩
  · rcases hcases with ⟨rfl, -, hheap⟩ | ⟨hblock, hfresh, hheap, -⟩
    · exact Or.inl ⟨rfl, hheap⟩
    · exact Or.inr ⟨hblock, hfresh, hheap⟩
  · simp [hne.symm, hold pd hne.symm]
  · simp [hne]
  · simp [hx, hxb, hold x hxb]

namespace TableMade

variable {v : Nat}

/-- The answer. -/
theorem null_or_block (h : TableMade m m' pd b p v) : b = 0 ∨ IsBlock b :=
  h.answer.imp (fun e => e.1) fun e => e.1

/-- No block in use is the new one. -/
theorem notMem (h : TableMade m m' pd b p v) (hnull : 0 ∉ m.heap) : b ∉ m.heap := by
  rcases h.answer with ⟨rfl, -⟩ | ⟨-, hfresh, -⟩
  · exact hnull
  · exact hfresh

/-- What was in use stays in use. -/
theorem heap_subset (h : TableMade m m' pd b p v) : m.heap ⊆ m'.heap := by
  rcases h.answer with ⟨-, hheap⟩ | ⟨-, -, hheap⟩
  · rw [hheap]
  · rw [hheap]
    exact Finset.subset_insert b m.heap

/-- `NULL` is still no block. -/
theorem null (h : TableMade m m' pd b p v) (hnull : 0 ∉ m.heap) : 0 ∉ m'.heap := by
  rcases h.answer with ⟨-, hheap⟩ | ⟨hblock, -, hheap⟩
  · rw [hheap]
    exact hnull
  · rw [hheap, Finset.mem_insert, not_or]
    exact ⟨hblock.1.symm, hnull⟩

/-- **A page table is added**: the pages that come after do not notice. -/
theorem ahead (hmade : TableMade m m' pd b p v) (h : Ahead m pd (p :: l))
    (hsorted : (p :: l).Pairwise Before) (hnone : m.words pd p.1 = 0) :
    Ahead m' pd l ∧ ∀ q ∈ l, entryOf m'.words pd q = entryOf m.words pd q := by
  have hbefore : ∀ q ∈ l, Before p q := fun q hq => List.rel_of_pairwise_cons hsorted hq
  have hself := addFlag_answer hmade.null_or_block
  -- the page table of another page is not at the answer
  have hother : ∀ q ∈ l, q.1 ≠ p.1 → m.words pd q.1 ≠ 0 →
      deflagAddr (m.words pd q.1) ∈ m.heap ∧ deflagAddr (m.words pd q.1) ≠ b := by
    intro q hq hne hpde
    rcases h.table q (List.mem_cons_of_mem p hq) hpde with hmem | ⟨-, hfirst⟩
    · exact ⟨hmem, fun e => hmade.notMem h.null (e ▸ hmem)⟩
    · have hle := hfirst p List.mem_cons_self
      have hlt := hbefore q hq
      rw [Before] at hlt
      omega
  have hdir : ∀ q : Nat × Nat, q.1 ≠ p.1 → m'.words pd q.1 = m.words pd q.1 := fun q hne => by
    rw [hmade.directory, if_neg hne]
  have hdirp : ∀ q : Nat × Nat, q.1 = p.1 → m'.words pd q.1 = addFlag b 0x7 := fun q heq => by
    rw [hmade.directory, if_pos heq]
  refine ⟨⟨hmade.null h.null, hmade.heap_subset h.mem, fun q hq => ?_, fun q hq => ?_,
    fun q hq q' hq' => ?_⟩, fun q hq => ?_⟩
  · by_cases heq : q.1 = p.1
    · rw [hdirp q heq, hself.2]
      intro _
      rcases hmade.answer with ⟨hb, -⟩ | ⟨-, -, hheap⟩
      · refine Or.inr ⟨hb, fun q' hq' => ?_⟩
        have hle := hbefore q' hq'
        rw [Before] at hle
        omega
      · exact Or.inl (hheap ▸ Finset.mem_insert_self b m.heap)
    · rw [hdir q heq]
      exact fun hpde => Or.inl (hmade.heap_subset (hother q hq heq hpde).1)
  · by_cases heq : q.1 = p.1
    · rw [hdirp q heq, hself.2]
      exact fun _ => hmade.ne
    · rw [hdir q heq]
      exact h.table_ne q (List.mem_cons_of_mem p hq)
  · by_cases heq : q.1 = p.1 <;> by_cases heq' : q'.1 = p.1
    · exact fun _ _ _ => heq.trans heq'.symm
    · rw [hdirp q heq, hdir q' heq', hself.2]
      exact fun _ hpde hb => absurd hb.symm (hother q' hq' heq' hpde).2
    · rw [hdir q heq, hdirp q' heq', hself.2]
      exact fun hpde _ hb => absurd hb (hother q hq heq hpde).2
    · rw [hdir q heq, hdir q' heq']
      exact h.table_inj q (List.mem_cons_of_mem p hq) q' (List.mem_cons_of_mem p hq')
  · by_cases heq : q.1 = p.1
    · have hindex : q.2 ≠ p.2 := by
        have hlt := hbefore q hq
        rw [Before] at hlt
        omega
      have hnew : m'.words pd q.1 ≠ 0 := by
        rw [hdirp q heq]
        exact hself.1
      have hold : entryOf m.words pd q = 0 := entryOf_of_none (heq ▸ hnone)
      rw [hold, entryOf_of_table hnew, hdirp q heq, hself.2, hmade.table, if_neg hindex]
    · by_cases hpde : m.words pd q.1 = 0
      · rw [entryOf_of_none hpde, entryOf_of_none ((hdir q heq).trans hpde)]
      · have hne := h.table_ne q (List.mem_cons_of_mem p hq) hpde
        rw [entryOf_of_table hpde, entryOf_of_table (by rw [hdir q heq]; exact hpde), hdir q heq,
          hmade.others _ hne (hother q hq heq hpde).2]

end TableMade

/-! ## A loop that maps pages -/

/-- The pages of a list that are not mapped. -/
def missing (words : Nat → Nat → Nat) (pd : Nat) (l : List (Nat × Nat)) : List (Nat × Nat) :=
  l.filter fun p => entryOf words pd p = 0

/-- What is missing depends on the entries of the list. -/
theorem missing_congr {words words' : Nat → Nat → Nat}
    (h : ∀ q ∈ l, entryOf words' pd q = entryOf words pd q) :
    missing words' pd l = missing words pd l :=
  List.filter_congr fun q hq => by rw [h q hq]

/-- What a step of the loop leaves for the pages to come. -/
structure StepLeft (m m' : PhysMem) (pd : Nat) (l : List (Nat × Nat)) : Prop where
  /-- The frame table is in order. -/
  ordered : m'.frames.Ordered
  /-- The kernel holds frame 0. -/
  first_frame : m'.frames.refcount 0 = 1
  /-- The pages ahead. -/
  ahead : Ahead m' pd l
  /-- Their entries are the same. -/
  entries : ∀ q ∈ l, entryOf m'.words pd q = entryOf m.words pd q

/-- **One round**: the pages to come are as before, and a page that was not mapped costs one
frame. -/
theorem MapEffect.left (h : MapEffect m pd p r m') (hok : m.frames.Ordered)
    (hfirst : m.frames.refcount 0 = 1) (ha : Ahead m pd (p :: l))
    (hsorted : (p :: l).Pairwise Before) :
    StepLeft m m' pd l ∧
      m.frames.aboveSet.card = m'.frames.aboveSet.card + (missing m.words pd [p]).length := by
  cases h with
  | taken hmapped =>
      have hnone : missing m.words pd [p] = [] := by simp [missing, hmapped]
      exact ⟨⟨hok, hfirst, ha.tail, fun _ _ => rfl⟩, by simp [hnone]⟩
  | @table f frames htable hfree htakes =>
      have hone : missing m.words pd [p] = [p] := by simp [missing, entryOf_of_table htable, hfree]
      obtain ⟨hahead, hentries⟩ := ha.write hsorted htable (addFlag (f * pageSize) 0x7)
        ((m.setFrames frames).write (deflagAddr (m.words pd p.1)) p.2
          (addFlag (f * pageSize) 0x7)) rfl rfl
      refine ⟨⟨htakes.ordered, htakes.keeps hfirst, hahead, hentries⟩, ?_⟩
      rw [hone]
      exact htakes.above.symm
  | @fresh f b frames m1 hnone htakes halloc =>
      have hone : missing m.words pd [p] = [p] := by simp [missing, entryOf_of_none hnone]
      have hframes : m1.frames = frames := by
        obtain ⟨-, -, -, -, hframes, -⟩ := memalign_cases halloc
        exact hframes
      have hmade := tableMade_of_alloc (p := p) (v := addFlag (f * pageSize) 0x7) ha.null ha.mem
        halloc
      obtain ⟨hahead, hentries⟩ := hmade.ahead ha hsorted hnone
      refine ⟨⟨?_, ?_, hahead, hentries⟩, ?_⟩
      · show m1.frames.Ordered
        rw [hframes]
        exact htakes.ordered
      · show m1.frames.refcount 0 = 1
        rw [hframes]
        exact htakes.keeps hfirst
      · show _ = m1.frames.aboveSet.card + _
        rw [hone, hframes]
        exact htakes.above.symm

/-- The number of page tables that the pages of a list lack. -/
def tablesMissing (words : Nat → Nat → Nat) (pd : Nat) (l : List (Nat × Nat)) : Nat :=
  ((l.map Prod.fst).toFinset.filter fun i => words pd i = 0).card

/-- A page lacks one page table at most. -/
theorem tablesMissing_le (words : Nat → Nat → Nat) (pd : Nat) (l : List (Nat × Nat)) :
    tablesMissing words pd l ≤ l.length :=
  calc tablesMissing words pd l ≤ (l.map Prod.fst).toFinset.card := Finset.card_filter_le _ _
    _ ≤ (l.map Prod.fst).length := List.toFinset_card_le _
    _ = l.length := List.length_map ..

/-- A page whose page table is there lacks none. -/
theorem tablesMissing_cons_of_table {words words' : Nat → Nat → Nat} (hpde : words pd p.1 ≠ 0)
    (hsame : words' pd = words pd) :
    tablesMissing words pd (p :: l) = tablesMissing words' pd l := by
  rw [tablesMissing, tablesMissing, hsame, List.map_cons, List.toFinset_cons,
    Finset.filter_insert, if_neg hpde]

/-- A page table that is added is missing no more. -/
theorem tablesMissing_cons_of_none {words words' : Nat → Nat → Nat} {v : Nat}
    (hpde : words pd p.1 = 0) (hv : v ≠ 0)
    (hadded : ∀ k, words' pd k = if k = p.1 then v else words pd k) :
    tablesMissing words pd (p :: l) = tablesMissing words' pd l + 1 := by
  have hset : ((l.map Prod.fst).toFinset.filter fun i => words' pd i = 0)
      = (((p :: l).map Prod.fst).toFinset.filter fun i => words pd i = 0).erase p.1 := by
    ext i
    simp only [Finset.mem_filter, Finset.mem_erase, List.map_cons, List.toFinset_cons,
      Finset.mem_insert, hadded]
    by_cases hi : i = p.1
    · simp [hi, hv]
    · simp [hi]
  rw [tablesMissing, tablesMissing, hset]
  refine (Finset.card_erase_add_one ?_).symm
  simp [hpde]

/-- **The supply after a call of `virtual_map_physical`**: an answer was used when a page table was
missing. -/
theorem MapEffect.supplied (h : MapEffect m pd p r m') (ha : Ahead m pd [p])
    (hsupply : Supplied m.heap m.answers) {n : Nat}
    (hlen : m.answers.length = n + tablesMissing m.words pd (p :: l)) :
    Supplied m'.heap m'.answers ∧ m'.answers.length = n + tablesMissing m'.words pd l := by
  cases h with
  | taken hmapped =>
      have hpde : m.words pd p.1 ≠ 0 := fun e => hmapped (entryOf_of_none e)
      rw [tablesMissing_cons_of_table hpde rfl] at hlen
      exact ⟨hsupply, hlen⟩
  | @table f frames htable =>
      have hne := ha.table_ne p List.mem_cons_self htable
      refine ⟨hsupply, ?_⟩
      rw [tablesMissing_cons_of_table htable (funext fun k => ?_)] at hlen
      · exact hlen
      · rw [PhysMem.write_words, if_neg fun e => hne e.1.symm]
        rfl
  | @fresh f b frames m1 hnone htakes halloc =>
      have hmade := tableMade_of_alloc (p := p) (v := addFlag (f * pageSize) 0x7) ha.null ha.mem
        halloc
      rw [tablesMissing_cons_of_none hnone (addFlag_answer hmade.null_or_block).1
        hmade.directory] at hlen
      have hne : m.answers ≠ [] := by
        intro he
        rw [he] at hlen
        simp at hlen
      obtain ⟨b', m1', halloc', hleft⟩ := memalign_supplied (m := m.setFrames frames) hsupply hne
      obtain ⟨rfl, rfl⟩ := Prod.mk.inj (Option.some.inj (halloc.symm.trans halloc'))
      obtain ⟨answer, hfirst, -⟩ := memalign_answers halloc
      have hcons : m.answers = answer :: m1.answers := hfirst
      rw [hcons, List.length_cons] at hlen
      exact ⟨hleft, Nat.succ.inj hlen⟩

/-- **The page tables that are there stay**, whatever `memalign` answers. -/
theorem MapEffect.kept (h : MapEffect m pd p r m') (ha : Ahead m pd [p]) {k : Nat}
    (hk : m.words pd k ≠ 0) : m'.words pd k = m.words pd k := by
  cases h with
  | taken => rfl
  | table htable =>
      have hne := ha.table_ne p (List.mem_singleton_self p) htable
      rw [PhysMem.write_words, if_neg fun e => hne e.1.symm]
      rfl
  | @fresh f b frames m1 hnone htakes halloc =>
      have hmade := tableMade_of_alloc (p := p) (v := addFlag (f * pageSize) 0x7) ha.null ha.mem
        halloc
      have hkp : k ≠ p.1 := fun e => hk (e ▸ hnone)
      exact (hmade.directory k).trans (if_neg hkp)

/-- A page that is not mapped gets mapped. -/
theorem MapEffect.result (h : MapEffect m pd p r m') (hzero : entryOf m.words pd p = 0) :
    r = 0 := by
  cases h with
  | taken hmapped => exact absurd hzero hmapped
  | table => rfl
  | fresh => rfl

/-- **A call that succeeds maps the page** to the frame it has taken. -/
theorem MapEffect.maps (h : MapEffect m pd p 0 m') (ha : Ahead m pd [p]) :
    ∃ f < totalPhysFrames, entryOf m'.words pd p = addFlag (f * pageSize) 0x7 := by
  cases h with
  | @table f frames htable hfree htakes =>
      have hne := ha.table_ne p (List.mem_singleton_self p) htable
      have hpde : ((m.setFrames frames).write (deflagAddr (m.words pd p.1)) p.2
          (addFlag (f * pageSize) 0x7)).words pd p.1 = m.words pd p.1 := by
        rw [PhysMem.write_words, if_neg fun e => hne e.1.symm]
        rfl
      refine ⟨f, htakes.lt, ?_⟩
      rw [entryOf_of_table (by rw [hpde]; exact htable), hpde, PhysMem.write_words,
        if_pos ⟨rfl, rfl⟩]
  | @fresh f b frames m1 hnone htakes halloc =>
      have hmade := tableMade_of_alloc (p := p) (v := addFlag (f * pageSize) 0x7) ha.null ha.mem
        halloc
      have hself := addFlag_answer hmade.null_or_block
      have hpde := hmade.directory p.1
      rw [if_pos rfl] at hpde
      refine ⟨f, htakes.lt, ?_⟩
      rw [entryOf_of_table (by rw [hpde]; exact hself.1), hpde, hself.2, hmade.table, if_pos rfl]

/-- The page directory in use is the same. -/
theorem MapEffect.cr3 (h : MapEffect m pd p r m') : m'.cr3 = m.cr3 := by
  cases h with
  | taken => rfl
  | table => rfl
  | fresh _ _ halloc =>
      obtain ⟨-, -, -, -, -, hcr3, -⟩ := memalign_cases halloc
      exact hcr3

/-- A loop that maps the pages `l`. -/
def mapAll (m : PhysMem) (pd : Nat) (l : List (Nat × Nat)) : Option PhysMem :=
  l.foldlM (fun m p => (virtualMapPhysical m pd p.1 p.2).map Prod.snd) m

/-- The loop of `allocate_pages`. -/
theorem allocatePages_eq (m : PhysMem) (pd va size : Nat) :
    allocatePages m pd va size = mapAll m pd (pageRange va size) := forPages_eq ..

/-- The loop starts with its first page. -/
theorem mapAll_cons (m : PhysMem) (pd : Nat) (p : Nat × Nat) (l : List (Nat × Nat)) :
    mapAll m pd (p :: l) = (virtualMapPhysical m pd p.1 p.2).bind fun r => mapAll r.2 pd l := by
  simp only [mapAll, List.foldlM_cons, Option.bind_eq_bind]
  cases virtualMapPhysical m pd p.1 p.2 <;> rfl

/-- **How far the frames go**: a loop over pages of the page directory, in order, comes to its end
exactly when more frames are within reach than pages are missing, whatever `memalign` answers. -/
theorem mapAll_isSome_iff (hok : m.frames.Ordered) (hfirst : m.frames.refcount 0 = 1)
    (hsupply : Supplied m.heap m.answers) {n : Nat}
    (hlen : m.answers.length = n + tablesMissing m.words pd l) (ha : Ahead m pd l)
    (hsorted : l.Pairwise Before) (hl : ∀ p ∈ l, p.1 < pageLen) :
    (mapAll m pd l).isSome ↔ (missing m.words pd l).length < m.frames.aboveSet.card := by
  induction l generalizing m with
  | nil =>
      simpa [mapAll, missing] using hok.above_pos
  | cons p l ih =>
      have hne : m.words pd p.1 = 0 → m.answers ≠ [] := by
        intro hpde he
        have hmem : p.1 ∈ ((p :: l).map Prod.fst).toFinset.filter fun i => m.words pd i = 0 := by
          simp [hpde]
        have hpos := Finset.card_pos.mpr ⟨_, hmem⟩
        rw [he, tablesMissing] at hlen
        simp only [List.length_nil] at hlen
        omega
      have hcall : (virtualMapPhysical m pd p.1 p.2).isSome ↔
          entryOf m.words pd p ≠ 0 ∨ 1 < m.frames.aboveSet.card :=
        virtualMapPhysical_isSome_iff pd hok (hok.freeFrame_ne hfirst) hsupply hne
          (hl p List.mem_cons_self)
      have hsplit : (missing m.words pd (p :: l)).length
          = (missing m.words pd [p]).length + (missing m.words pd l).length := by
        rw [← List.length_append, missing, missing, missing, ← List.filter_append]
        rfl
      rw [mapAll_cons]
      cases hmap : virtualMapPhysical m pd p.1 p.2 with
      | none =>
          rw [hmap] at hcall
          have hno : ¬ (entryOf m.words pd p ≠ 0 ∨ 1 < m.frames.aboveSet.card) := by
            simpa using hcall
          have hone : missing m.words pd [p] = [p] := by
            simp [missing, not_not.mp (not_or.mp hno).1]
          rw [hsplit, hone, List.length_singleton]
          simp only [Option.bind_none, Option.isSome_none, Bool.false_eq_true, false_iff]
          omega
      | some res =>
          obtain ⟨r, m'⟩ := res
          obtain ⟨-, heffect⟩ := mapEffect_of_call hok (hok.freeFrame_ne hfirst) hmap
          obtain ⟨hleft, hcard⟩ := heffect.left hok hfirst ha hsorted
          obtain ⟨hsupply', hlen'⟩ := heffect.supplied (ha.mono (by simp)) hsupply hlen
          rw [Option.bind_some, ih hleft.ordered hleft.first_frame hsupply' hlen' hleft.ahead
            (List.pairwise_cons.mp hsorted).2 fun q hq => hl q (List.mem_cons_of_mem p hq),
            missing_congr hleft.entries, hsplit, hcard]
          omega

/-- **What a page directory keeps, whatever `memalign` answers**: its page tables are blocks of the
heap or at `NULL`, and none of them is the page directory. -/
structure Standing (m : PhysMem) (pd : Nat) : Prop where
  /-- The frame allocator is sound. -/
  ordered : m.frames.Ordered
  /-- Frame 0 is in use. -/
  first_frame : m.frames.refcount 0 = 1
  /-- `NULL` is no block. -/
  null : 0 ∉ m.heap
  /-- The page directory is a block in use. -/
  mem : pd ∈ m.heap
  /-- The page tables. -/
  table : ∀ i < pageLen, m.words pd i ≠ 0 →
    deflagAddr (m.words pd i) ∈ m.heap ∨ deflagAddr (m.words pd i) = 0
  /-- None of them is the page directory. -/
  table_ne : ∀ i < pageLen, m.words pd i ≠ 0 → deflagAddr (m.words pd i) ≠ pd

theorem Directory.standing (h : Directory m pd) : Standing m pd :=
  ⟨h.ordered, h.first_frame, h.null, h.mem, fun i hi hpde => Or.inl (h.table_mem i hi hpde),
    h.table_ne⟩

/-- Any one page may lie ahead. -/
theorem Standing.ahead (h : Standing m pd) (hi : p.1 < pageLen) : Ahead m pd [p] where
  null := h.null
  mem := h.mem
  table := by
    intro q hq hpde
    obtain rfl := List.mem_singleton.mp hq
    refine (h.table _ hi hpde).imp id fun hnull => ⟨hnull, fun q' hq' => ?_⟩
    rw [List.mem_singleton.mp hq']
  table_ne := by
    intro q hq
    obtain rfl := List.mem_singleton.mp hq
    exact h.table_ne _ hi
  table_inj := by
    intro q hq q' hq' _ _ _
    rw [List.mem_singleton.mp hq, List.mem_singleton.mp hq']

/-- **The rule of `virtual_map_physical` for any answer**: the page directory is one still. -/
theorem MapEffect.standing (heffect : MapEffect m pd p r m') (h : Standing m pd)
    (hi : p.1 < pageLen) : Standing m' pd := by
  cases heffect with
  | taken => exact h
  | @table f frames htable hfree htakes =>
      have hne := h.table_ne p.1 hi htable
      have hdir : ∀ k, ((m.setFrames frames).write (deflagAddr (m.words pd p.1)) p.2
          (addFlag (f * pageSize) 0x7)).words pd k = m.words pd k := by
        intro k
        rw [PhysMem.write_words, if_neg fun e => hne e.1.symm]
        rfl
      refine ⟨htakes.ordered, htakes.keeps h.first_frame, h.null, h.mem, fun i hi' => ?_,
        fun i hi' => ?_⟩
      · rw [hdir]
        exact h.table i hi'
      · rw [hdir]
        exact h.table_ne i hi'
  | @fresh f b frames m1 hnone htakes halloc =>
      have hmade := tableMade_of_alloc (p := p) (v := addFlag (f * pageSize) 0x7) h.null h.mem
        halloc
      have hself := addFlag_answer hmade.null_or_block
      obtain ⟨-, -, -, -, hframes, -⟩ := memalign_cases halloc
      have hfr : m1.frames = frames := hframes
      refine ⟨hfr ▸ htakes.ordered, hfr ▸ htakes.keeps h.first_frame, hmade.null h.null,
        hmade.heap_subset h.mem, fun i hi' => ?_, fun i hi' => ?_⟩
      · by_cases hip : i = p.1
        · rw [hmade.directory, if_pos hip, hself.2]
          refine fun _ => hmade.answer.symm.imp (fun e => ?_) fun e => e.1
          rw [e.2.2]
          exact Finset.mem_insert_self b m.heap
        · rw [hmade.directory, if_neg hip]
          exact fun hpde => (h.table i hi' hpde).imp (fun hmem => hmade.heap_subset hmem) id
      · by_cases hip : i = p.1
        · rw [hmade.directory, if_pos hip, hself.2]
          exact fun _ => hmade.ne
        · rw [hmade.directory, if_neg hip]
          exact h.table_ne i hi'

/-- The page tables that are there stay through the loop. -/
theorem kept_of_mapAll (h : Standing m pd) (call : mapAll m pd l = some m') {k : Nat}
    (hk : m.words pd k ≠ 0) : m'.words pd k = m.words pd k := by
  induction l generalizing m with
  | nil =>
      obtain rfl : m = m' := by simpa [mapAll] using call
      rfl
  | cons p l ih =>
      rw [mapAll_cons] at call
      obtain ⟨⟨r, m2⟩, hmap, hrest⟩ := Option.bind_eq_some_iff.mp call
      obtain ⟨hi, heffect⟩ := mapEffect_of_call h.ordered (h.ordered.freeFrame_ne h.first_frame)
        hmap
      have hone := heffect.kept (h.ahead hi) hk
      rw [← hone]
      exact ih (heffect.standing h hi) hrest (by rw [hone]; exact hk)

/-- **A loop after which every page has its page table got blocks**: the answers it has used up are
not `NULL`. -/
theorem nonNull_of_mapAll (h : Standing m pd) (hsupply : Supplied m.heap m.answers)
    (hlen : m.answers.length = tablesMissing m.words pd l) (call : mapAll m pd l = some m')
    (htables : ∀ p ∈ l, deflagAddr (m'.words pd p.1) ≠ 0) : NonNull m.answers := by
  induction l generalizing m with
  | nil =>
      have hnil : m.answers = [] := List.length_eq_zero_iff.mp hlen
      rw [hnil]
      exact fun _ ha' => absurd ha' List.not_mem_nil
  | cons p l ih =>
      rw [mapAll_cons] at call
      obtain ⟨⟨r, m2⟩, hmap, hrest⟩ := Option.bind_eq_some_iff.mp call
      obtain ⟨hi, heffect⟩ := mapEffect_of_call h.ordered (h.ordered.freeFrame_ne h.first_frame)
        hmap
      have hstanding := heffect.standing h hi
      obtain ⟨hsupply', hlen'⟩ := heffect.supplied (h.ahead hi) hsupply
        (hlen.trans (Nat.zero_add _).symm)
      have hnn := ih hstanding hsupply' (hlen'.trans (Nat.zero_add _)) hrest
        fun q hq => htables q (List.mem_cons_of_mem p hq)
      cases heffect with
      | taken => exact hnn
      | table => exact hnn
      | @fresh f b frames m1 hnone htakes halloc =>
          have hmade := tableMade_of_alloc (p := p) (v := addFlag (f * pageSize) 0x7) h.null
            h.mem halloc
          have hself := addFlag_answer hmade.null_or_block
          have hpde := hmade.directory p.1
          rw [if_pos rfl] at hpde
          have hkept := kept_of_mapAll hstanding hrest (k := p.1) (by rw [hpde]; exact hself.1)
          have hb : b ≠ 0 := by
            have hp := htables p List.mem_cons_self
            rwa [hkept, hpde, hself.2] at hp
          obtain ⟨answer, hfirst, haddr⟩ := memalign_answers halloc
          have hcons : m.answers = answer :: m1.answers := hfirst
          rw [hcons]
          intro a hmem
          rcases List.mem_cons.mp hmem with rfl | hmem
          · rw [haddr]
            exact hb
          · exact hnn a hmem

/-- A loop that comes to its end stays within the page directory. -/
theorem index_lt_of_mapAll {m' : PhysMem} (call : mapAll m pd l = some m') :
    ∀ p ∈ l, p.1 < pageLen := by
  refine foldlM_invariant (I := fun done _ => ∀ p ∈ done, p.1 < pageLen) call
    (fun _ hp => absurd hp (by simp)) ?_
  intro done p _ m1 m2 hdone hcall q hq
  obtain ⟨res, hmap, -⟩ := Option.map_eq_some_iff.mp hcall
  rcases List.mem_append.mp hq with hq | hq
  · exact hdone q hq
  · rw [List.mem_singleton.mp hq]
    by_contra hge
    simp [virtualMapPhysical, hge] at hmap

/-! ## A loop that unmaps pages -/

/-- A loop that unmaps the pages `l`. -/
def unmapAll (m : PhysMem) (pd : Nat) (l : List (Nat × Nat)) : Option PhysMem :=
  l.foldlM (fun m p => (virtualUnmapPhysical m pd p.1 p.2).map Prod.snd) m

/-- The loop of `free_pages`. -/
theorem freePages_eq (m : PhysMem) (pd va size : Nat) :
    freePages m pd va size = unmapAll m pd (pageRange va size) := forPages_eq ..

/-- The loop starts with its first page. -/
theorem unmapAll_cons (m : PhysMem) (pd : Nat) (p : Nat × Nat) (l : List (Nat × Nat)) :
    unmapAll m pd (p :: l)
      = (virtualUnmapPhysical m pd p.1 p.2).bind fun r => unmapAll r.2 pd l := by
  simp only [unmapAll, List.foldlM_cons, Option.bind_eq_bind]
  cases virtualUnmapPhysical m pd p.1 p.2 <;> rfl

/-- The frame that an entry names is one of the frame table. -/
def FrameInTable (pte : Nat) : Prop := deflagAddr pte / pageSize < totalPhysFrames

/-- `virtual_unmap_physical` at a page that is not mapped. -/
theorem virtualUnmapPhysical_of_zero (hi : p.1 < pageLen) (hzero : entryOf m.words pd p = 0) :
    virtualUnmapPhysical m pd p.1 p.2 = some (-1, m) := by
  by_cases hpde : m.words pd p.1 = 0
  · simp [virtualUnmapPhysical, hi, hpde]
  · rw [entryOf_of_table hpde] at hzero
    simp [virtualUnmapPhysical, hi, hpde, hzero]

/-- `virtual_unmap_physical` at a page that is mapped. -/
theorem virtualUnmapPhysical_of_ne (hi : p.1 < pageLen) (hne : entryOf m.words pd p ≠ 0)
    (hframe : FrameInTable (entryOf m.words pd p)) :
    ∃ frames, releaseFreeFrame m.frames (deflagAddr (entryOf m.words pd p)) = some frames ∧
      m.words pd p.1 ≠ 0 ∧ virtualUnmapPhysical m pd p.1 p.2
        = some (0, (m.setFrames frames).write (deflagAddr (m.words pd p.1)) p.2 0) := by
  have hpde : m.words pd p.1 ≠ 0 := fun e => hne (entryOf_of_none e)
  obtain ⟨frames, hrel⟩ : ∃ frames,
      releaseFreeFrame m.frames (deflagAddr (entryOf m.words pd p)) = some frames := by
    rw [releaseFreeFrame]
    exact ⟨_, if_pos hframe⟩
  refine ⟨frames, hrel, hpde, ?_⟩
  rw [entryOf_of_table hpde] at hne hrel
  simp [virtualUnmapPhysical, hi, hpde, hne, hrel]

/-- **A loop that unmaps pages comes to its end** when their frames are in the frame table. -/
theorem unmapAll_isSome (ha : Ahead m pd l) (hsorted : l.Pairwise Before)
    (hl : ∀ p ∈ l, p.1 < pageLen)
    (hframes : ∀ p ∈ l, entryOf m.words pd p ≠ 0 → FrameInTable (entryOf m.words pd p)) :
    (unmapAll m pd l).isSome := by
  induction l generalizing m with
  | nil => rfl
  | cons p l ih =>
      have hrest := (List.pairwise_cons.mp hsorted).2
      have hl' : ∀ q ∈ l, q.1 < pageLen := fun q hq => hl q (List.mem_cons_of_mem p hq)
      have hframes' : ∀ q ∈ l, entryOf m.words pd q ≠ 0 → FrameInTable (entryOf m.words pd q) :=
        fun q hq => hframes q (List.mem_cons_of_mem p hq)
      rw [unmapAll_cons]
      by_cases hzero : entryOf m.words pd p = 0
      · rw [virtualUnmapPhysical_of_zero (hl p List.mem_cons_self) hzero, Option.bind_some]
        exact ih ha.tail hrest hl' hframes'
      · obtain ⟨frames, -, hpde, hcall⟩ := virtualUnmapPhysical_of_ne (hl p List.mem_cons_self)
          hzero (hframes p List.mem_cons_self hzero)
        rw [hcall, Option.bind_some]
        obtain ⟨hahead, hentries⟩ := ha.write hsorted hpde 0
          ((m.setFrames frames).write (deflagAddr (m.words pd p.1)) p.2 0) rfl rfl
        refine ih hahead hrest hl' fun q hq => ?_
        rw [hentries q hq]
        exact hframes' q hq

/-- A loop that comes to its end stays within the page directory. -/
theorem index_lt_of_unmapAll {m' : PhysMem} (call : unmapAll m pd l = some m') :
    ∀ p ∈ l, p.1 < pageLen := by
  refine foldlM_invariant (I := fun done _ => ∀ p ∈ done, p.1 < pageLen) call
    (fun _ hp => absurd hp (by simp)) ?_
  intro done p _ m1 m2 hdone hcall q hq
  obtain ⟨res, hmap, -⟩ := Option.map_eq_some_iff.mp hcall
  rcases List.mem_append.mp hq with hq | hq
  · exact hdone q hq
  · rw [List.mem_singleton.mp hq]
    by_contra hge
    simp [virtualUnmapPhysical, hge] at hmap

end

/-! ## The page directories of the kernel -/

section
variable {ω : Type*} {kernelBlocks : Nat → Nat} {m : PhysMem} {dirs : ω → Option Nat} {o : ω}
  {d i j : Nat}

/-- The page table that an entry of a page directory points to, and its owner. -/
theorem Owned.blockAt_entry (h : Owned kernelBlocks m dirs) (hd : dirs o = some d)
    (hi : i < pageLen) (hpde : m.words d i ≠ 0) :
    blockAt kernelBlocks m.words dirs (if i < 4 then .kernel i else .table o i)
      = some (deflagAddr (m.words d i)) := by
  split
  · next hlow =>
      rw [blockAt, if_pos (by omega), (h.kernel_entry o d hd i hlow).2]
  · next hhigh =>
      exact tableAt_eq_some.mpr ⟨⟨by omega, hi⟩, d, hd, hpde, rfl⟩

/-- **Every address space that is owned has a page directory** in the sense of this file. -/
theorem Owned.directory (h : Owned kernelBlocks m dirs) (hd : dirs o = some d) :
    Directory m d where
  ordered := h.frames_ok.ordered
  first_frame := (h.kernel_frame (by decide)).2
  null := fun hnull => (h.heap_block 0 hnull).1 rfl
  mem := h.dir_mem hd
  table_mem := fun i hi hpde => h.blocks.backed (h.blockAt_entry hd hi hpde)
  table_ne := fun i hi hpde heq => by
    refine h.blocks.ne_of_ne (h.blockAt_entry hd hi hpde) (l := BlockKey.dir o) hd ?_ heq
    split <;> simp
  table_inj := fun i hi i' hi' hpde hpde' heq => by
    have hkey := h.blocks.exclusive (h.blockAt_entry hd hi hpde)
      (heq ▸ h.blockAt_entry hd hi' hpde')
    split at hkey <;> split at hkey <;> simp_all

/-- An entry of the user half is the frame it maps. -/
theorem Owned.frameOf_entryOf (hd : dirs o = some d)
    (hi : 4 ≤ i ∧ i < pageLen) (hj : j < pageLen) :
    frameOf (entryOf m.words d (i, j)) = frameAt m.words dirs o i j := by
  by_cases hpde : m.words d i = 0
  · rw [entryOf_of_none hpde, frameAt, tableAt_of_dir hd hi, tableOf, if_pos hpde]
    simp
  · rw [entryOf_of_table hpde]
    exact (frameAt_of_table (tableAt_eq_some.mpr ⟨hi, d, hd, hpde, rfl⟩) hj).symm

/-- **A page that `addr_has_mapping` takes for unmapped** has no entry, in the user half. -/
theorem Owned.entryOf_eq_zero (h : Owned kernelBlocks m dirs) (hd : dirs o = some d)
    (hi : 4 ≤ i ∧ i < pageLen) (hj : j < pageLen)
    (hunmapped : deflagAddr (m.words d i) = 0 ∨
      deflagAddr (m.words (deflagAddr (m.words d i)) j) = 0) : entryOf m.words d (i, j) = 0 := by
  by_cases hpde : m.words d i = 0
  · exact entryOf_of_none hpde
  · have ht : tableAt m.words dirs o i = some (deflagAddr (m.words d i)) :=
      tableAt_eq_some.mpr ⟨hi, d, hd, hpde, rfl⟩
    rw [entryOf_of_table hpde]
    rcases hunmapped with hzero | hzero
    · exact absurd hzero (h.heap_block _ (h.table_mem ht)).1
    · exact (h.deflagAddr_eq_zero ht hj).mp hzero

end

end Pebbles.Memory
