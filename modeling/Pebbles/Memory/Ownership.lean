import Mathlib.Logic.Equiv.Basic
import Pebbles.Library.Ledger
import Pebbles.Memory.PageTables

/-! # Who owns which block and which frame

The abstract view of the page tables: a ledger of the blocks of the kernel heap, owned by the
kernel, as page directories and as page tables, and a ledger of the physical frames, owned by the
kernel and by the entries of the page tables. `Owned` says that both balance: no block and no
frame has two owners, and none is in use without one.

An owner of an address space is an element of any type `ω`, and `dirs` says which page directory
it has. Each section below is one thing the routines of `vm_routines.c` do to the memory, in terms
of the two ledgers. -/

namespace Pebbles.Memory

/-! ## The two ledgers -/

/-- The frame is handed out. -/
def FrameTable.InUse (t : FrameTable) (f : Nat) : Prop :=
  f < totalPhysFrames ∧ t.refcount f = 1

/-- The block is a page of the kernel heap. -/
def IsBlock (b : Nat) : Prop := b ≠ 0 ∧ b % pageSize = 0 ∧ b < userMemStart

/-- The owners of blocks. -/
inductive BlockKey (ω : Type*) where
  /-- The kernel, of its four page tables (0 to 3) and its page directory (4). -/
  | kernel (i : Nat)
  /-- The owner of an address space, of the page directory. -/
  | dir (o : ω)
  /-- Entry `i` of the page directory of `o`, of a page table. -/
  | table (o : ω) (i : Nat)
  deriving DecidableEq

/-- The owners of frames. -/
inductive PageKey (ω : Type*) where
  /-- The kernel, of its identity-mapped page `n`. -/
  | kernel (n : Nat)
  /-- The entry `j` of page table `i` of `o`. -/
  | user (o : ω) (i j : Nat)
  deriving DecidableEq

section
variable {ω : Type*}

/-- The page table that entry `i` of the page directory `d` points to. -/
def tableOf (words : Nat → Nat → Nat) (d i : Nat) : Option Nat :=
  if words d i = 0 then none else some (deflagAddr (words d i))

/-- The frame that a page-table entry maps. -/
def frameOf (pte : Nat) : Option Nat :=
  if pte = 0 then none else some (deflagAddr pte / pageSize)

/-- The user page table `i` of the owner `o`. -/
def tableAt (words : Nat → Nat → Nat) (dirs : ω → Option Nat) (o : ω) (i : Nat) : Option Nat :=
  if 4 ≤ i ∧ i < pageLen then (dirs o).bind fun d => tableOf words d i else none

/-- The frame mapped by the user entry `i`, `j` of the owner `o`. -/
def frameAt (words : Nat → Nat → Nat) (dirs : ω → Option Nat) (o : ω) (i j : Nat) : Option Nat :=
  if j < pageLen then (tableAt words dirs o i).bind fun t => frameOf (words t j) else none

/-- The ledger of blocks. -/
def blockAt (kernelBlocks : Nat → Nat) (words : Nat → Nat → Nat) (dirs : ω → Option Nat) :
    BlockKey ω → Option Nat
  | .kernel i => if i < 5 then some (kernelBlocks i) else none
  | .dir o => dirs o
  | .table o i => tableAt words dirs o i

/-- The ledger of frames. -/
def pageAt (words : Nat → Nat → Nat) (dirs : ω → Option Nat) : PageKey ω → Option Nat
  | .kernel n => if n < 4096 then some n else none
  | .user o i j => frameAt words dirs o i j

/-- **The ownership invariant**: the blocks of the kernel heap and the frames are each owned
exactly once, every page directory has the kernel's page tables as its first four entries, and the
page tables of the kernel have no free entry. -/
structure Owned (kernelBlocks : Nat → Nat) (m : PhysMem) (dirs : ω → Option Nat) : Prop where
  /-- The frame allocator is sound. -/
  frames_ok : m.frames.Ok
  /-- The blocks in use are the owned ones. -/
  blocks : Ledger (blockAt kernelBlocks m.words dirs) (· ∈ m.heap)
  /-- The blocks are pages of the kernel heap. -/
  heap_block : ∀ b ∈ m.heap, IsBlock b
  /-- The frames in use are the owned ones. -/
  pages : Ledger (pageAt m.words dirs) m.frames.InUse
  /-- The first four entries of each page directory are those of the kernel. -/
  kernel_entry : ∀ o d, dirs o = some d → ∀ i < 4,
    m.words d i ≠ 0 ∧ deflagAddr (m.words d i) = kernelBlocks i
  /-- The page tables of the kernel are full. -/
  kernel_full : ∀ i < 4, ∀ j < pageLen, m.words (kernelBlocks i) j ≠ 0

/-! ### Reading the ledgers -/

@[simp] theorem frameOf_zero : frameOf 0 = none := rfl

theorem frameOf_eq_none {pte : Nat} : frameOf pte = none ↔ pte = 0 := by
  unfold frameOf
  split <;> simp_all

/-- The frame number times the page size is the address in the entry. -/
theorem frameOf_eq_some {pte f : Nat} :
    frameOf pte = some f ↔ pte ≠ 0 ∧ deflagAddr pte = f * pageSize := by
  have hmod := deflagAddr_mod pte
  unfold frameOf
  rw [pageSize] at *
  split
  · simp_all
  · simp only [Option.some.injEq]
    omega

theorem tableOf_eq_some {words : Nat → Nat → Nat} {d i t : Nat} :
    tableOf words d i = some t ↔ words d i ≠ 0 ∧ deflagAddr (words d i) = t := by
  unfold tableOf
  split <;> simp_all

theorem tableAt_eq_some {words : Nat → Nat → Nat} {dirs : ω → Option Nat} {o : ω} {i t : Nat} :
    tableAt words dirs o i = some t ↔ (4 ≤ i ∧ i < pageLen) ∧
      ∃ d, dirs o = some d ∧ words d i ≠ 0 ∧ deflagAddr (words d i) = t := by
  unfold tableAt
  split <;> simp_all [Option.bind_eq_some_iff, tableOf_eq_some]

theorem frameAt_eq_some {words : Nat → Nat → Nat} {dirs : ω → Option Nat} {o : ω} {i j f : Nat} :
    frameAt words dirs o i j = some f ↔ j < pageLen ∧
      ∃ t, tableAt words dirs o i = some t ∧ frameOf (words t j) = some f := by
  unfold frameAt
  split <;> simp_all [Option.bind_eq_some_iff]

/-- A page table is looked up through one word. -/
theorem tableAt_of_dir {words : Nat → Nat → Nat} {dirs : ω → Option Nat} {o : ω} {d i : Nat}
    (hd : dirs o = some d) (hi : 4 ≤ i ∧ i < pageLen) :
    tableAt words dirs o i = tableOf words d i := by
  rw [tableAt, if_pos hi, hd]
  rfl

/-- A frame is looked up through one word of the page table. -/
theorem frameAt_of_table {words : Nat → Nat → Nat} {dirs : ω → Option Nat} {o : ω} {i j t : Nat}
    (ht : tableAt words dirs o i = some t) (hj : j < pageLen) :
    frameAt words dirs o i j = frameOf (words t j) := by
  rw [frameAt, if_pos hj, ht]
  rfl

/-- The page table depends on the page directory only. -/
theorem tableAt_congr {words words' : Nat → Nat → Nat} {dirs : ω → Option Nat} {o : ω} {i : Nat}
    (h : ∀ d, dirs o = some d → words' d i = words d i) :
    tableAt words' dirs o i = tableAt words dirs o i := by
  unfold tableAt
  split
  · cases hd : dirs o with
    | none => rfl
    | some d => simp only [Option.bind_some, tableOf, h d hd]
  · rfl

/-- The frame depends on the page table only. -/
theorem frameAt_congr {words words' : Nat → Nat → Nat} {dirs dirs' : ω → Option Nat} {o : ω}
    {i j : Nat} (ht : tableAt words' dirs' o i = tableAt words dirs o i)
    (h : ∀ t, tableAt words dirs o i = some t → words' t j = words t j) :
    frameAt words' dirs' o i j = frameAt words dirs o i j := by
  unfold frameAt
  rw [ht]
  split
  · cases htt : tableAt words dirs o i with
    | none => rfl
    | some t => simp only [Option.bind_some, h t htt]
  · rfl

/-- The frame depends on the page directory of the owner only. -/
theorem frameAt_dirs {words : Nat → Nat → Nat} {dirs dirs' : ω → Option Nat} {o : ω}
    (h : dirs' o = dirs o) (i j : Nat) : frameAt words dirs' o i j = frameAt words dirs o i j := by
  simp only [frameAt, tableAt, h]

variable {kernelBlocks : Nat → Nat} {m : PhysMem} {dirs : ω → Option Nat} {o : ω} {d i j t b : Nat}

namespace Owned

/-- The invariant speaks about the frame table, the words and the heap. -/
theorem congr {m' : PhysMem} (h : Owned kernelBlocks m dirs) (hframes : m'.frames = m.frames)
    (hwords : m'.words = m.words) (hheap : m'.heap = m.heap) : Owned kernelBlocks m' dirs where
  frames_ok := by rw [hframes]; exact h.frames_ok
  blocks := by rw [hwords, hheap]; exact h.blocks
  heap_block := by rw [hheap]; exact h.heap_block
  pages := by rw [hwords, hframes]; exact h.pages
  kernel_entry := by rw [hwords]; exact h.kernel_entry
  kernel_full := by rw [hwords]; exact h.kernel_full

/-- A page directory is a block in use. -/
theorem dir_mem (h : Owned kernelBlocks m dirs) (hd : dirs o = some d) : d ∈ m.heap :=
  h.blocks.backed (k := BlockKey.dir o) hd

/-- A page table is a block in use. -/
theorem table_mem (h : Owned kernelBlocks m dirs) (ht : tableAt m.words dirs o i = some t) :
    t ∈ m.heap :=
  h.blocks.backed (k := BlockKey.table o i) ht

/-- A page table of the kernel is a block in use. -/
theorem kernel_mem (h : Owned kernelBlocks m dirs) (hi : i < 5) : kernelBlocks i ∈ m.heap :=
  h.blocks.backed (k := BlockKey.kernel i) (by simp [blockAt, hi])

/-- No page directory is a page table. -/
theorem dir_ne_table (h : Owned kernelBlocks m dirs) {o' : ω} (hd : dirs o = some d)
    (ht : tableAt m.words dirs o' i = some t) : d ≠ t :=
  h.blocks.ne_of_ne (k := BlockKey.dir o) (l := BlockKey.table o' i) hd ht (by simp)

/-- No block of the kernel is a page table of the user. -/
theorem kernel_ne_table (h : Owned kernelBlocks m dirs) {n : Nat} (hn : n < 5)
    (ht : tableAt m.words dirs o i = some t) : kernelBlocks n ≠ t :=
  h.blocks.ne_of_ne (k := BlockKey.kernel n) (l := BlockKey.table o i) (by simp [blockAt, hn]) ht (by simp)

/-- No block of the kernel is a page directory of the user. -/
theorem kernel_ne_dir (h : Owned kernelBlocks m dirs) {n : Nat} (hn : n < 5)
    (hd : dirs o = some d) : kernelBlocks n ≠ d :=
  h.blocks.ne_of_ne (k := BlockKey.kernel n) (l := BlockKey.dir o) (by simp [blockAt, hn]) hd (by simp)

/-- No two owners share a page directory. -/
theorem dir_inj (h : Owned kernelBlocks m dirs) {o' : ω} (hd : dirs o = some d)
    (hd' : dirs o' = some d) : o = o' := by
  have hkey := h.blocks.exclusive (k := BlockKey.dir o) (l := BlockKey.dir o') hd hd'
  simpa using hkey

/-- No two entries share a page table. -/
theorem table_inj (h : Owned kernelBlocks m dirs) {o' : ω} {i' : Nat}
    (ht : tableAt m.words dirs o i = some t) (ht' : tableAt m.words dirs o' i' = some t) :
    o = o' ∧ i = i' := by
  have hkey := h.blocks.exclusive (k := BlockKey.table o i) (l := BlockKey.table o' i') ht ht'
  simpa using hkey

/-- A frame mapped by a user entry is handed out, and is none of the kernel's. -/
theorem frame_facts (h : Owned kernelBlocks m dirs) {f : Nat}
    (hf : frameAt m.words dirs o i j = some f) : m.frames.InUse f ∧ 4096 ≤ f := by
  refine ⟨h.pages.backed (k := PageKey.user o i j) hf, ?_⟩
  by_contra hlt
  have hkey := h.pages.exclusive (k := PageKey.user o i j) (l := PageKey.kernel f) hf (by simp [pageAt]; omega)
  cases hkey

/-- The frames of the kernel are handed out. -/
theorem kernel_frame (h : Owned kernelBlocks m dirs) {f : Nat} (hf : f < 4096) :
    m.frames.InUse f :=
  h.pages.backed (k := PageKey.kernel f) (by simp [pageAt, hf])

/-- An entry of a user page table holds a frame exactly when it is not 0. -/
theorem deflagAddr_eq_zero (h : Owned kernelBlocks m dirs)
    (ht : tableAt m.words dirs o i = some t) (hj : j < pageLen) :
    deflagAddr (m.words t j) = 0 ↔ m.words t j = 0 := by
  constructor
  · intro hz
    by_contra hne
    have hf : frameAt m.words dirs o i j = some (deflagAddr (m.words t j) / pageSize) := by
      rw [frameAt_of_table ht hj, frameOf, if_neg hne]
    have hle := (h.frame_facts hf).2
    rw [hz] at hle
    simp at hle
  · intro hz
    rw [hz, deflagAddr_zero]

end Owned
end

/-! ## The allocator keeps the account -/

/-- `acquire_free_frame` takes a free frame into use. -/
theorem inUse_acquire {t t' : FrameTable} {address : Nat} (h : t.Ok)
    (hacq : acquireFreeFrame t = some (address, t')) :
    ∃ f < totalPhysFrames, address = f * pageSize ∧ ¬ t.InUse f ∧
      ∀ x, t'.InUse x ↔ t.InUse x ∨ x = f := by
  obtain ⟨f, p, -, hfree, rfl, -, -, -, rfl⟩ := acquire_spec h hacq
  obtain ⟨hlt, hzero⟩ := mem_freeSet.mp hfree
  refine ⟨f, hlt, rfl, fun huse => ?_, fun x => ?_⟩
  · rw [huse.2] at hzero
    cases hzero
  · show x < totalPhysFrames ∧ (t.setRefcount f 1).refcount x = 1 ↔ _
    rw [refcount_setRefcount]
    by_cases hx : x = f
    · simp [hx, hlt]
    · simp [hx, FrameTable.InUse]

/-- `release_free_frame` gives a frame in use back. -/
theorem inUse_release {t t' : FrameTable} {f : Nat} (huse : t.InUse f)
    (hrel : releaseFreeFrame t (f * pageSize) = some t') (x : Nat) :
    t'.InUse x ↔ t.InUse x ∧ x ≠ f := by
  rw [release_spec huse.1 huse.2] at hrel
  obtain rfl := Option.some.inj hrel
  show x < totalPhysFrames ∧ (t.setRefcount f 0).refcount x = 1 ↔ _
  rw [refcount_setRefcount]
  by_cases hx : x = f
  · simp [hx]
  · simp [hx, FrameTable.InUse]

/-! ## Writing an entry of a page table -/

section
variable {ω : Type*} {kernelBlocks : Nat → Nat} {m : PhysMem} {dirs : ω → Option Nat} {o : ω}
  {d i j t b v : Nat}

namespace Owned

/-- No page directory and no page table moves. -/
theorem tableAt_writePage (h : Owned kernelBlocks m dirs) (ht : tableAt m.words dirs o i = some t)
    (o' : ω) (i' : Nat) : tableAt (m.write t j v).words dirs o' i' = tableAt m.words dirs o' i' := by
  refine tableAt_congr fun d' hd' => ?_
  rw [PhysMem.write_words, if_neg]
  rintro ⟨hdt, -⟩
  exact h.dir_ne_table hd' ht hdt

theorem blockAt_writePage (h : Owned kernelBlocks m dirs) (ht : tableAt m.words dirs o i = some t)
    (k : BlockKey ω) :
    blockAt kernelBlocks (m.write t j v).words dirs k = blockAt kernelBlocks m.words dirs k := by
  cases k with
  | kernel n => rfl
  | dir o' => rfl
  | table o' i' => exact h.tableAt_writePage ht o' i'

/-- The ledger of frames changes at the entry that is written. -/
theorem pageAt_writePage [DecidableEq ω] (h : Owned kernelBlocks m dirs)
    (ht : tableAt m.words dirs o i = some t) (hj : j < pageLen) :
    pageAt (m.write t j v).words dirs
      = Function.update (pageAt m.words dirs) (PageKey.user o i j) (frameOf v) := by
  funext k
  cases k with
  | kernel n => rw [Function.update_of_ne (by simp)]; rfl
  | user o' i' j' =>
      by_cases hk : PageKey.user o' i' j' = PageKey.user o i j
      · rw [hk, Function.update_self]
        show frameAt _ dirs o i j = _
        rw [frameAt_of_table ((h.tableAt_writePage ht o i).trans ht) hj, PhysMem.write_words,
          if_pos ⟨rfl, rfl⟩]
      · rw [Function.update_of_ne hk]
        refine frameAt_congr (h.tableAt_writePage ht o' i') fun t' ht' => ?_
        rw [PhysMem.write_words, if_neg]
        rintro ⟨rfl, rfl⟩
        obtain ⟨rfl, rfl⟩ := h.table_inj ht ht'
        exact hk rfl

/-- **A page-table entry is written**, with the frame table kept in step. -/
theorem writePage [DecidableEq ω] (h : Owned kernelBlocks m dirs)
    (ht : tableAt m.words dirs o i = some t) (hj : j < pageLen) {frames : FrameTable}
    (hok : frames.Ok) (hpages : Ledger
      (Function.update (pageAt m.words dirs) (PageKey.user o i j) (frameOf v)) frames.InUse) :
    Owned kernelBlocks ((m.setFrames frames).write t j v) dirs where
  frames_ok := hok
  blocks := h.blocks.congr (h.blockAt_writePage ht) fun _ => Iff.rfl
  heap_block := h.heap_block
  pages := by
    rw [← h.pageAt_writePage ht hj] at hpages
    exact hpages
  kernel_entry := by
    intro o' d' hd' n hn
    have hne : d' ≠ t := h.dir_ne_table hd' ht
    simpa [PhysMem.setFrames, hne] using h.kernel_entry o' d' hd' n hn
  kernel_full := by
    intro n hn j' hj'
    have hne : kernelBlocks n ≠ t := h.kernel_ne_table (by omega) ht
    simpa [PhysMem.setFrames, hne] using h.kernel_full n hn j' hj'

/-- **Mapping** a free frame at an entry that maps nothing. -/
theorem mapPage [DecidableEq ω] (h : Owned kernelBlocks m dirs)
    (ht : tableAt m.words dirs o i = some t) (hj : j < pageLen)
    (hnone : frameAt m.words dirs o i j = none) {address : Nat} {frames : FrameTable}
    (hacq : acquireFreeFrame m.frames = some (address, frames))
    (hv : ∀ f, address = f * pageSize → frameOf v = some f) :
    Owned kernelBlocks ((m.setFrames frames).write t j v) dirs := by
  obtain ⟨f, -, hf, hfree, huse⟩ := inUse_acquire h.frames_ok hacq
  refine h.writePage ht hj (h.frames_ok.acquire hacq) ?_
  rw [hv f hf]
  exact h.pages.assign hnone hfree huse

/-- **Unmapping** an entry. -/
theorem unmapPage [DecidableEq ω] (h : Owned kernelBlocks m dirs)
    (ht : tableAt m.words dirs o i = some t) (hj : j < pageLen) (hne : m.words t j ≠ 0)
    {frames : FrameTable}
    (hrel : releaseFreeFrame m.frames (deflagAddr (m.words t j)) = some frames) :
    Owned kernelBlocks ((m.setFrames frames).write t j 0) dirs := by
  have hsome : frameOf (m.words t j) = some (deflagAddr (m.words t j) / pageSize) := by
    rw [frameOf, if_neg hne]
  have hf : frameAt m.words dirs o i j = some (deflagAddr (m.words t j) / pageSize) := by
    rw [frameAt_of_table ht hj, hsome]
  have huse := (h.frame_facts hf).1
  rw [(frameOf_eq_some.mp hsome).2] at hrel
  refine h.writePage ht hj (h.frames_ok.release huse.1 huse.2 hrel) ?_
  exact h.pages.release hf (inUse_release huse hrel)

end Owned
end

/-! ## Fresh blocks -/

/-- **A page table is added**: the fresh zero-filled block `b` is entered at `i` of the page
directory `d`, with the flags in `v`. -/
structure TableAdded (m m' : PhysMem) (d i b v : Nat) : Prop where
  /-- The block is a page of the kernel heap. -/
  block : IsBlock b
  /-- It was not in use. -/
  fresh : b ∉ m.heap
  /-- The entry was free. -/
  free : m.words d i = 0
  /-- The entry points to the block. -/
  points : v ≠ 0 ∧ deflagAddr v = b
  /-- No frame changes hands. -/
  frames : m'.frames = m.frames
  /-- The block is in use now. -/
  heap : m'.heap = insert b m.heap
  /-- What the two blocks contain. -/
  words : ∀ b' k, m'.words b' k =
    if b' = d ∧ k = i then v else if b' = b then 0 else m.words b' k

/-- **A page directory is added**: the fresh block `b` has the entries of the kernel and no
others. -/
structure DirAdded (kernelBlocks : Nat → Nat) (m m' : PhysMem) (b : Nat) : Prop where
  /-- The block is a page of the kernel heap. -/
  block : IsBlock b
  /-- It was not in use. -/
  fresh : b ∉ m.heap
  /-- No frame changes hands. -/
  frames : m'.frames = m.frames
  /-- The block is in use now. -/
  heap : m'.heap = insert b m.heap
  /-- No other block is written. -/
  words : ∀ b' k, b' ≠ b → m'.words b' k = m.words b' k
  /-- The user entries are free. -/
  user : ∀ i, 4 ≤ i → i < pageLen → m'.words b i = 0
  /-- The kernel entries are those of the kernel. -/
  kernel : ∀ i < 4, m'.words b i ≠ 0 ∧ deflagAddr (m'.words b i) = kernelBlocks i

section
variable {ω : Type*} {kernelBlocks : Nat → Nat} {m m' : PhysMem}
  {dirs : ω → Option Nat} {o : ω} {d i j t b v : Nat}

/-- Setting an entry of a ledger to what it is. -/
theorem update_eq_of_eq {κ ρ : Type*} [DecidableEq κ] {own own' : κ → Option ρ} {k : κ}
    {r : Option ρ} (hk : own' k = r) (h : ∀ l, l ≠ k → own' l = own l) :
    own' = Function.update own k r := by
  funext l
  by_cases hl : l = k
  · rw [hl, hk, Function.update_self]
  · rw [h l hl, Function.update_of_ne hl]

namespace Owned

/-- A fresh block is no page directory. -/
theorem dir_ne_fresh (h : Owned kernelBlocks m dirs) (hfree : b ∉ m.heap) (hd : dirs o = some d) :
    d ≠ b := by
  rintro rfl
  exact hfree (h.dir_mem hd)

/-- A fresh block is no page table. -/
theorem table_ne_fresh (h : Owned kernelBlocks m dirs) (hfree : b ∉ m.heap)
    (ht : tableAt m.words dirs o i = some t) : t ≠ b := by
  rintro rfl
  exact hfree (h.table_mem ht)

/-- The new page table. -/
theorem tableAt_added_self (hd : dirs o = some d) (hi : 4 ≤ i ∧ i < pageLen)
    (hadd : TableAdded m m' d i b v) : tableAt m'.words dirs o i = some b := by
  rw [tableAt_of_dir hd hi, tableOf_eq_some, hadd.words, if_pos ⟨rfl, rfl⟩]
  exact hadd.points

/-! ### A new page table -/

/-- The user page tables with the new one. -/
theorem tableAt_added (h : Owned kernelBlocks m dirs) (hd : dirs o = some d)
    (hadd : TableAdded m m' d i b v) {o' : ω} {i' : Nat} (hne : ¬ (o' = o ∧ i' = i)) :
    tableAt m'.words dirs o' i' = tableAt m.words dirs o' i' := by
  refine tableAt_congr fun d' hd' => ?_
  have hfresh := h.dir_ne_fresh hadd.fresh hd'
  rw [hadd.words, if_neg, if_neg hfresh]
  rintro ⟨rfl, rfl⟩
  exact hne ⟨h.dir_inj hd' hd, rfl⟩

/-- No page is mapped yet. -/
theorem frameAt_added (h : Owned kernelBlocks m dirs) (hd : dirs o = some d)
    (hi : 4 ≤ i ∧ i < pageLen) (hadd : TableAdded m m' d i b v) (o' : ω) (i' j' : Nat) :
    frameAt m'.words dirs o' i' j' = frameAt m.words dirs o' i' j' := by
  have hbd : b ≠ d := (h.dir_ne_fresh hadd.fresh hd).symm
  by_cases hk : o' = o ∧ i' = i
  · obtain ⟨rfl, rfl⟩ := hk
    have hold : tableAt m.words dirs o' i' = none := by
      rw [tableAt_of_dir hd hi, tableOf, if_pos hadd.free]
    have hzero : m'.words b j' = 0 := by
      rw [hadd.words, if_neg (fun e => hbd e.1), if_pos rfl]
    rw [frameAt, frameAt, hold, tableAt_added_self hd hi hadd, Option.bind_some, hzero]
    rfl
  · refine frameAt_congr (h.tableAt_added hd hadd hk) fun t' ht' => ?_
    rw [hadd.words, if_neg, if_neg (h.table_ne_fresh hadd.fresh ht')]
    rintro ⟨rfl, -⟩
    exact h.dir_ne_table hd ht' rfl

variable [DecidableEq ω]

/-- **A new page table** keeps the invariant. -/
theorem newTable (h : Owned kernelBlocks m dirs) (hd : dirs o = some d)
    (hi : 4 ≤ i ∧ i < pageLen) (hadd : TableAdded m m' d i b v) :
    Owned kernelBlocks m' dirs where
  frames_ok := by rw [hadd.frames]; exact h.frames_ok
  blocks := by
    have hnone : blockAt kernelBlocks m.words dirs (.table o i) = none := by
      show tableAt _ dirs o i = none
      rw [tableAt_of_dir hd hi, tableOf, if_pos hadd.free]
    have hown : blockAt kernelBlocks m'.words dirs
        = Function.update (blockAt kernelBlocks m.words dirs) (.table o i) (some b) := by
      refine update_eq_of_eq (tableAt_added_self hd hi hadd) fun k hk => ?_
      cases k with
      | kernel n => rfl
      | dir o' => rfl
      | table o' i' => exact h.tableAt_added hd hadd fun e => hk (by rw [e.1, e.2])
    rw [hown]
    refine h.blocks.assign hnone hadd.fresh fun x => ?_
    rw [hadd.heap, Finset.mem_insert, or_comm]
  heap_block := by
    intro x hx
    rw [hadd.heap, Finset.mem_insert] at hx
    rcases hx with rfl | hx
    · exact hadd.block
    · exact h.heap_block x hx
  pages := by
    rw [hadd.frames]
    refine h.pages.congr (fun k => ?_) fun _ => Iff.rfl
    cases k with
    | kernel n => rfl
    | user o' i' j' => exact h.frameAt_added hd hi hadd o' i' j'
  kernel_entry := by
    intro o' d' hd' n hn
    rw [hadd.words, if_neg (by omega), if_neg (h.dir_ne_fresh hadd.fresh hd')]
    exact h.kernel_entry o' d' hd' n hn
  kernel_full := by
    intro n hn j' hj'
    have hmem : kernelBlocks n ∈ m.heap := h.kernel_mem (by omega)
    have hne : kernelBlocks n ≠ b := fun e => hadd.fresh (e ▸ hmem)
    have hnd : kernelBlocks n ≠ d := h.kernel_ne_dir (by omega) hd
    rw [hadd.words, if_neg (fun e => hnd e.1), if_neg hne]
    exact h.kernel_full n hn j' hj'

/-! ### A new page directory -/

/-- The page tables of the others. -/
theorem tableAt_dirAdded (h : Owned kernelBlocks m dirs) (hadd : DirAdded kernelBlocks m m' b)
    {o' : ω} (hne : o' ≠ o) (i' : Nat) :
    tableAt m'.words (Function.update dirs o (some b)) o' i' = tableAt m.words dirs o' i' := by
  have hdirs : tableAt m'.words (Function.update dirs o (some b)) o' i'
      = tableAt m'.words dirs o' i' := by
    simp [tableAt, hne]
  rw [hdirs]
  exact tableAt_congr fun d' hd' => hadd.words d' i' (h.dir_ne_fresh hadd.fresh hd')

/-- The new page directory has no user page table. -/
theorem tableAt_dirAdded_self (hadd : DirAdded kernelBlocks m m' b) (i' : Nat) :
    tableAt m'.words (Function.update dirs o (some b)) o i' = none := by
  unfold tableAt
  split
  · next hi =>
      rw [Function.update_self, Option.bind_some, tableOf, if_pos (hadd.user i' hi.1 hi.2)]
  · rfl

/-- No page is mapped yet. -/
theorem frameAt_dirAdded (h : Owned kernelBlocks m dirs) (hadd : DirAdded kernelBlocks m m' b)
    (hnone : dirs o = none) (o' : ω) (i' j' : Nat) :
    frameAt m'.words (Function.update dirs o (some b)) o' i' j' = frameAt m.words dirs o' i' j' := by
  by_cases ho : o' = o
  · subst ho
    rw [frameAt, frameAt, tableAt_dirAdded_self hadd, tableAt, hnone]
    simp
  · refine frameAt_congr (h.tableAt_dirAdded hadd ho i') fun t' ht' => ?_
    exact hadd.words t' j' (h.table_ne_fresh hadd.fresh ht')

/-- **A new page directory** keeps the invariant. -/
theorem newDir (h : Owned kernelBlocks m dirs) (hnone : dirs o = none)
    (hadd : DirAdded kernelBlocks m m' b) :
    Owned kernelBlocks m' (Function.update dirs o (some b)) where
  frames_ok := by rw [hadd.frames]; exact h.frames_ok
  blocks := by
    have hown : blockAt kernelBlocks m'.words (Function.update dirs o (some b))
        = Function.update (blockAt kernelBlocks m.words dirs) (.dir o) (some b) := by
      refine update_eq_of_eq (by simp [blockAt]) fun k hk => ?_
      cases k with
      | kernel n => rfl
      | dir o' =>
          have ho : o' ≠ o := fun e => hk (by rw [e])
          simp [blockAt, ho]
      | table o' i' =>
          by_cases ho : o' = o
          · subst ho
            show tableAt _ _ o' i' = tableAt _ _ o' i'
            rw [tableAt_dirAdded_self hadd, tableAt, hnone]
            simp
          · exact h.tableAt_dirAdded hadd ho i'
    rw [hown]
    refine h.blocks.assign hnone hadd.fresh fun x => ?_
    rw [hadd.heap, Finset.mem_insert, or_comm]
  heap_block := by
    intro x hx
    rw [hadd.heap, Finset.mem_insert] at hx
    rcases hx with rfl | hx
    · exact hadd.block
    · exact h.heap_block x hx
  pages := by
    rw [hadd.frames]
    refine h.pages.congr (fun k => ?_) fun _ => Iff.rfl
    cases k with
    | kernel n => rfl
    | user o' i' j' => exact h.frameAt_dirAdded hadd hnone o' i' j'
  kernel_entry := by
    intro o' d' hd' n hn
    by_cases ho : o' = o
    · rw [ho, Function.update_self, Option.some.injEq] at hd'
      rw [← hd']
      exact hadd.kernel n hn
    · rw [Function.update_of_ne ho] at hd'
      rw [hadd.words d' n (h.dir_ne_fresh hadd.fresh hd')]
      exact h.kernel_entry o' d' hd' n hn
  kernel_full := by
    intro n hn j' hj'
    have hmem : kernelBlocks n ∈ m.heap := h.kernel_mem (by omega)
    have hne : kernelBlocks n ≠ b := fun e => hadd.fresh (e ▸ hmem)
    rw [hadd.words _ j' hne]
    exact h.kernel_full n hn j' hj'

/-! ### Giving blocks back -/

/-- **An empty page table is given back** and its entry cleared. -/
theorem dropTable (h : Owned kernelBlocks m dirs) (hd : dirs o = some d)
    (ht : tableAt m.words dirs o i = some t) (hempty : ∀ j < pageLen, m.words t j = 0) :
    Owned kernelBlocks ((m.sfree t).write d i 0) dirs ∧
      tableAt ((m.sfree t).write d i 0).words dirs o i = none ∧
      ∀ o' i', ¬ (o' = o ∧ i' = i) →
        tableAt ((m.sfree t).write d i 0).words dirs o' i' = tableAt m.words dirs o' i' := by
  obtain ⟨hi, -⟩ := tableAt_eq_some.mp ht
  have hself : tableAt ((m.sfree t).write d i 0).words dirs o i = none := by
    have hzero : ((m.sfree t).write d i 0).words d i = 0 := by
      rw [PhysMem.write_words, if_pos ⟨rfl, rfl⟩]
    rw [tableAt_of_dir hd hi, tableOf, if_pos hzero]
  have hother : ∀ o' i', ¬ (o' = o ∧ i' = i) →
      tableAt ((m.sfree t).write d i 0).words dirs o' i' = tableAt m.words dirs o' i' := by
    intro o' i' hne
    refine tableAt_congr fun d' hd' => ?_
    rw [PhysMem.write_words, if_neg]
    · rfl
    · rintro ⟨rfl, rfl⟩
      exact hne ⟨h.dir_inj hd' hd, rfl⟩
  have hframe : ∀ o' i' j', frameAt ((m.sfree t).write d i 0).words dirs o' i' j'
      = frameAt m.words dirs o' i' j' := by
    intro o' i' j'
    by_cases hk : o' = o ∧ i' = i
    · obtain ⟨rfl, rfl⟩ := hk
      rw [frameAt, frameAt, hself, ht]
      split
      · next hj => simp [hempty j' hj]
      · rfl
    · refine frameAt_congr (hother o' i' hk) fun t' ht' => ?_
      have hne : t' ≠ d := (h.dir_ne_table hd ht').symm
      rw [PhysMem.write_words, if_neg (fun e => hne e.1)]
      rfl
  refine ⟨⟨h.frames_ok, ?_, fun x hx => h.heap_block x (Finset.mem_of_mem_erase hx), ?_, ?_, ?_⟩,
    hself, hother⟩
  · have hown : blockAt kernelBlocks ((m.sfree t).write d i 0).words dirs
        = Function.update (blockAt kernelBlocks m.words dirs) (.table o i) none := by
      refine update_eq_of_eq hself fun k hk => ?_
      cases k with
      | kernel n => rfl
      | dir o' => rfl
      | table o' i' => exact hother o' i' fun e => hk (by rw [e.1, e.2])
    rw [hown]
    refine h.blocks.release (k := BlockKey.table o i) ht fun x => ?_
    show x ∈ m.heap.erase t ↔ _
    rw [Finset.mem_erase, and_comm]
  · refine h.pages.congr (fun k => ?_) fun _ => Iff.rfl
    cases k with
    | kernel n => rfl
    | user o' i' j' => exact hframe o' i' j'
  · intro o' d' hd' n hn
    rw [PhysMem.write_words, if_neg (by omega)]
    exact h.kernel_entry o' d' hd' n hn
  · intro n hn j' hj'
    have hnd : kernelBlocks n ≠ d := h.kernel_ne_dir (by omega) hd
    rw [PhysMem.write_words, if_neg (fun e => hnd e.1)]
    exact h.kernel_full n hn j' hj'

/-- **An empty page directory is given back.** -/
theorem dropDir (h : Owned kernelBlocks m dirs) (hd : dirs o = some d)
    (hempty : ∀ i, tableAt m.words dirs o i = none) :
    Owned kernelBlocks (m.sfree d) (Function.update dirs o none) := by
  have htable : ∀ o' i', tableAt m.words (Function.update dirs o none) o' i'
      = tableAt m.words dirs o' i' := by
    intro o' i'
    by_cases ho : o' = o
    · subst ho
      rw [hempty i', tableAt, Function.update_self]
      simp
    · simp [tableAt, ho]
  have hframe : ∀ o' i' j', frameAt m.words (Function.update dirs o none) o' i' j'
      = frameAt m.words dirs o' i' j' := fun o' i' j' =>
    frameAt_congr (htable o' i') fun _ _ => rfl
  refine ⟨h.frames_ok, ?_, fun x hx => h.heap_block x (Finset.mem_of_mem_erase hx), ?_, ?_,
    h.kernel_full⟩
  · have hown : blockAt kernelBlocks m.words (Function.update dirs o none)
        = Function.update (blockAt kernelBlocks m.words dirs) (.dir o) none := by
      refine update_eq_of_eq (by simp [blockAt]) fun k hk => ?_
      cases k with
      | kernel n => rfl
      | dir o' =>
          have ho : o' ≠ o := fun e => hk (by rw [e])
          simp [blockAt, ho]
      | table o' i' => exact htable o' i'
    show Ledger (blockAt kernelBlocks m.words (Function.update dirs o none)) (· ∈ m.heap.erase d)
    rw [hown]
    refine h.blocks.release (k := BlockKey.dir o) hd fun x => ?_
    rw [Finset.mem_erase, and_comm]
  · refine h.pages.congr (fun k => ?_) fun _ => Iff.rfl
    cases k with
    | kernel n => rfl
    | user o' i' j' => exact hframe o' i' j'
  · intro o' d' hd' n hn
    by_cases ho : o' = o
    · rw [ho, Function.update_self] at hd'
      cases hd'
    · rw [Function.update_of_ne ho] at hd'
      exact h.kernel_entry o' d' hd' n hn

end Owned
end

/-! ## Renaming the owners -/

section
variable {ω : Type*} {kernelBlocks : Nat → Nat} {m : PhysMem} {dirs : ω → Option Nat}

/-- A permutation of the owners permutes the keys of the blocks. -/
def BlockKey.permute (e : Equiv.Perm ω) : Equiv.Perm (BlockKey ω) where
  toFun
    | .kernel i => .kernel i
    | .dir o => .dir (e o)
    | .table o i => .table (e o) i
  invFun
    | .kernel i => .kernel i
    | .dir o => .dir (e.symm o)
    | .table o i => .table (e.symm o) i
  left_inv k := by cases k <;> simp
  right_inv k := by cases k <;> simp

/-- A permutation of the owners permutes the keys of the frames. -/
def PageKey.permute (e : Equiv.Perm ω) : Equiv.Perm (PageKey ω) where
  toFun
    | .kernel n => .kernel n
    | .user o i j => .user (e o) i j
  invFun
    | .kernel n => .kernel n
    | .user o i j => .user (e.symm o) i j
  left_inv k := by cases k <;> simp
  right_inv k := by cases k <;> simp

/-- **The owners change names.** -/
theorem Owned.rename (h : Owned kernelBlocks m dirs) (e : Equiv.Perm ω) :
    Owned kernelBlocks m fun o => dirs (e o) where
  frames_ok := h.frames_ok
  blocks := by
    refine (h.blocks.rename (BlockKey.permute e)).congr (fun k => ?_) fun _ => Iff.rfl
    cases k <;> rfl
  heap_block := h.heap_block
  pages := by
    refine (h.pages.rename (PageKey.permute e)).congr (fun k => ?_) fun _ => Iff.rfl
    cases k <;> rfl
  kernel_entry := fun o d hd => h.kernel_entry (e o) d hd
  kernel_full := h.kernel_full

end

end Pebbles.Memory
