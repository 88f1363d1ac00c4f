import Mathlib.Algebra.Order.Group.Nat
import Mathlib.Data.Nat.Bitwise
import Mathlib.Data.Finset.Insert
import Pebbles.Memory.FrameTable

/-! # Page directories and page tables

The routines of `vm_routines.c` that read and write page directories and page tables, and the
copying loops of `sys_fork.c`. A page directory or a page table is a page-aligned block of the
kernel heap, 1024 words of 32 bits; it is named by its address. What the pages mapped for user
programs contain is not modelled: they are frames of their own, none of which is a page table
(`Isolated`).

The kernel heap itself is a parameter. Each `memalign` of a page takes the next of a list of
answers, so that a statement about all lists of answers is a statement about every allocator. An
answer is the address of the block with what the block happens to contain, and the address 0 is
`NULL`. All that is known of an answer is what `memalign` promises: the block is aligned, it is a
block of the kernel heap, and nobody holds it. -/

namespace Pebbles.Memory

/-! ## Entries -/

/-- `PAGE_LEN`, the number of entries of a page directory and of a page table. -/
def pageLen : Nat := 1024

/-- `USER_MEM_START`: the kernel heap lies below it. -/
def userMemStart : Nat := 0x01000000

/-- `DEFLAG_ADDR(x)`. -/
def deflagAddr (x : Nat) : Nat := x &&& 0xfffff000

/-- `ADDFLAG(x, flag)`. -/
def addFlag (x flag : Nat) : Nat := x ||| flag

/-- `GET_FLAG(x)`. -/
def getFlag (x : Nat) : Nat := x &&& 0xfff

/-- `VA_PD_IND(x)`, in most places written out as `x >> 22`. -/
def vaPdInd (x : Nat) : Nat := x >>> 22

/-- `VA_PT_IND(x)`, in most places written out as `(x & 0x3ff000) >> 12`. -/
def vaPtInd (x : Nat) : Nat := (x &&& 0x3ff000) >>> 12

/-- `DEFLAG_ADDR` rounds down to a multiple of the page size. -/
theorem deflagAddr_eq (x : Nat) : deflagAddr x = x % 2 ^ 32 / 4096 * 4096 := by
  have hmask : (0xfffff000 : Nat) = (2 ^ 20 - 1) * 2 ^ 12 := by decide
  have hpow : (4096 : Nat) = 2 ^ 12 := by decide
  rw [deflagAddr, hmask, hpow]
  apply Nat.eq_of_testBit_eq
  intro i
  rw [Nat.testBit_and, Nat.testBit_mul_two_pow, Nat.testBit_mul_two_pow,
    Nat.testBit_two_pow_sub_one, Nat.testBit_div_two_pow, Nat.testBit_mod_two_pow]
  by_cases hi : 12 ≤ i
  · have h1 : i - 12 + 12 = i := by omega
    by_cases h2 : i < 32
    · have h3 : i - 12 < 20 := by omega
      simp [hi, h1, h2, h3]
    · have h3 : ¬ i - 12 < 20 := by omega
      simp [h1, h2, h3]
  · simp [hi]

@[simp] theorem deflagAddr_zero : deflagAddr 0 = 0 := by
  simp [deflagAddr]

/-- `DEFLAG_ADDR` is a page address. -/
theorem deflagAddr_mod (x : Nat) : deflagAddr x % pageSize = 0 := by
  rw [deflagAddr_eq, pageSize]
  omega

theorem deflagAddr_lt (x : Nat) : deflagAddr x < 2 ^ 32 := by
  rw [deflagAddr_eq]
  omega

theorem getFlag_lt (x : Nat) : getFlag x < pageSize := by
  rw [getFlag, pageSize]
  exact Nat.lt_succ_of_le Nat.and_le_right

/-- The table index is below `PAGE_LEN`. -/
theorem vaPtInd_lt (x : Nat) : vaPtInd x < pageLen := by
  have hle : x &&& 0x3ff000 ≤ 0x3ff000 := Nat.and_le_right
  rw [vaPtInd, pageLen, Nat.shiftRight_eq_div_pow]
  omega

/-- Adding flags to a page address adds the numbers. -/
theorem addFlag_eq {b f : Nat} (hb : b % pageSize = 0) (hf : f < pageSize) :
    addFlag b f = b + f := by
  rw [pageSize] at hb hf
  have h := Nat.two_pow_add_eq_or_of_lt (i := 12) (b := f) (by omega) (b / 4096)
  have hdiv : 2 ^ 12 * (b / 4096) = b := by omega
  rw [hdiv] at h
  exact h.symm

/-- The flags of an entry do not change the address it holds. -/
theorem deflagAddr_addFlag {b f : Nat} (hb : b % pageSize = 0) (hlt : b < 2 ^ 32)
    (hf : f < pageSize) : deflagAddr (addFlag b f) = b := by
  rw [addFlag_eq hb hf, deflagAddr_eq]
  rw [pageSize] at hb hf
  omega

/-! ## The memory the routines work on -/

/-- What `memalign` answers: a block and what it contains. -/
structure Answer where
  /-- The address of the block, 0 for `NULL`. -/
  address : Nat
  /-- The words found in the block. -/
  contents : Nat → Nat

/-- The memory of the kernel as far as page tables go. -/
structure PhysMem where
  /-- The frame table of `vm_routines.c`. -/
  frames : FrameTable
  /-- The words of the pages of the kernel: `words b k` is the word `((uint32_t *)b)[k]`. -/
  words : Nat → Nat → Nat
  /-- The page-aligned blocks of the kernel heap that are in use. -/
  heap : Finset Nat
  /-- The answers `memalign` is going to give. -/
  answers : List Answer
  /-- The register `cr3`: the page directory in use. -/
  cr3 : Nat

/-- The store `((uint32_t *)b)[k] = v`. -/
def PhysMem.write (m : PhysMem) (b k v : Nat) : PhysMem :=
  { m with words := Function.update m.words b (Function.update (m.words b) k v) }

/-- `memset((void *)b, 0, PAGE_SIZE)`. -/
def PhysMem.clear (m : PhysMem) (b : Nat) : PhysMem :=
  { m with words := Function.update m.words b fun _ => 0 }

/-- `memalign(PAGE_SIZE, PAGE_SIZE)`. There is no result when the next answer is not one that
`memalign` can give. -/
def PhysMem.memalign (m : PhysMem) : Option (Nat × PhysMem) :=
  match m.answers with
  | [] => none
  | answer :: rest =>
      if answer.address = 0 then some (0, { m with answers := rest })
      else if answer.address % pageSize = 0 ∧ answer.address < userMemStart ∧
          answer.address ∉ m.heap then
        some (answer.address, { m with
          answers := rest
          heap := insert answer.address m.heap
          words := Function.update m.words answer.address answer.contents })
      else none

/-- `sfree(b, PAGE_SIZE)`. -/
def PhysMem.sfree (m : PhysMem) (b : Nat) : PhysMem :=
  { m with heap := m.heap.erase b }

/-- The routine that was called has left the frame table as `frames`. -/
def PhysMem.setFrames (m : PhysMem) (frames : FrameTable) : PhysMem :=
  { m with frames := frames }

/-- `set_cr3(pd)`. -/
def PhysMem.setCr3 (m : PhysMem) (pd : Nat) : PhysMem :=
  { m with cr3 := pd }

/-! ## Mapping and unmapping -/

/-- `virtual_map_physical`. Reading beyond the page directory is undefined behaviour. The result
of `memalign` is used as it comes. -/
def virtualMapPhysical (m : PhysMem) (pd pdIndex ptIndex : Nat) : Option (Int × PhysMem) :=
  if pdIndex < pageLen then
    let pde := m.words pd pdIndex
    if pde ≠ 0 then
      let pt := deflagAddr pde
      let pte := m.words pt ptIndex
      if pte = 0 then
        (acquireFreeFrame m.frames).map fun (freeFrameAddr, frames) =>
          if freeFrameAddr = 0 then (-1, m.setFrames frames)
          else (0, (m.setFrames frames).write pt ptIndex (addFlag freeFrameAddr 0x7))
      else some (-1, m)
    else
      (acquireFreeFrame m.frames).bind fun (freeFrameAddr, frames) =>
        if freeFrameAddr = 0 then some (-1, m.setFrames frames)
        else (m.setFrames frames).memalign.map fun (pt, m) =>
          (0, ((m.clear pt).write pt ptIndex (addFlag freeFrameAddr 0x7)).write pd pdIndex
            (addFlag pt 0x7))
  else none

/-- `virtual_unmap_physical`. -/
def virtualUnmapPhysical (m : PhysMem) (pd pdIndex ptIndex : Nat) : Option (Int × PhysMem) :=
  if pdIndex < pageLen then
    let pde := m.words pd pdIndex
    if pde = 0 then some (-1, m)
    else
      let pt := deflagAddr pde
      let pte := m.words pt ptIndex
      if pte = 0 then some (-1, m)
      else (releaseFreeFrame m.frames (deflagAddr pte)).map fun frames =>
        (0, (m.setFrames frames).write pt ptIndex 0)
  else none

/-- The number of pages the loops of `allocate_pages` and `free_pages` run over. -/
def pageTimes (virtualAddr size : Nat) : Nat :=
  let totalSize := ((virtualAddr &&& 0xfff) + size) % 2 ^ 32
  if totalSize % pageSize = 0 then totalSize / pageSize else totalSize / pageSize + 1

/-- The loop of `allocate_pages` and `free_pages`. Both declare an `int result = 0`, never assign
the answer of the routine they call to it, and so go on after a failure. -/
def forPages (routine : PhysMem → Nat → Nat → Nat → Option (Int × PhysMem)) (m : PhysMem)
    (pd virtualAddr size : Nat) : Option PhysMem :=
  (List.range (pageTimes virtualAddr size)).foldlM
    (fun m i =>
      let actualOffset := vaPtInd virtualAddr + i
      (routine m pd (vaPdInd virtualAddr + actualOffset / pageLen) (actualOffset % pageLen)).map
        Prod.snd) m

/-- `allocate_pages`. -/
def allocatePages : PhysMem → Nat → Nat → Nat → Option PhysMem :=
  forPages virtualMapPhysical

/-- `free_pages`. -/
def freePages : PhysMem → Nat → Nat → Nat → Option PhysMem :=
  forPages virtualUnmapPhysical

/-! ## Page directories -/

/-- `init_pd`: a new page directory with the kernel entries of the one in use, which it
replaces. The result of `memalign` is used as it comes. -/
def initPd (m : PhysMem) : Option (Nat × PhysMem) :=
  m.memalign.map fun (pd, m) =>
    (pd, ((List.range 4).foldl
      (fun m i => m.write pd i (addFlag (deflagAddr (m.words m.cr3 i)) 0x107))
      (m.clear pd)).setCr3 pd)

/-- `destroy_page_table`. -/
def destroyPageTable (m : PhysMem) (pt : Nat) : Option PhysMem :=
  ((List.range pageLen).foldlM (fun m i =>
    let pte := m.words pt i
    if pte = 0 then some m
    else (releaseFreeFrame m.frames (deflagAddr pte)).map fun frames =>
      (m.setFrames frames).write pt i 0) m).map fun m => m.sfree pt

/-- `destroy_page_directory`. -/
def destroyPageDirectory (m : PhysMem) (pd : Nat) : Option PhysMem :=
  (List.range' 4 1020).foldlM (fun m i =>
    if m.words pd i = 0 then some m
    else (destroyPageTable m (deflagAddr (m.words pd i))).map fun m => m.write pd i 0) m

/-! ## Copying for `sys_fork` -/

/-- The static variable `entry` of `sys_fork.c`: a free entry of the parent's page tables. -/
structure EntryInfo where
  /-- The index into the page directory. -/
  pdIndex : Nat
  /-- The index into the page table. -/
  ptIndex : Nat

/-- `find_free_entry`: the first entry that holds no frame, in the first page table with one. -/
def findFreeEntry (m : PhysMem) (parentDirectory : Nat) : Option EntryInfo :=
  (List.range' 4 1020).findSome? fun i =>
    let currentPde := deflagAddr (m.words parentDirectory i)
    if currentPde = 0 then none
    else ((List.range pageLen).find? fun j => deflagAddr (m.words currentPde j) = 0).map (⟨i, ·⟩)

/-- The inner loop of `sys_fork`, over the entries `j` of one page table: each page of the parent
gets a new frame, which is mapped at the free entry of the parent for the time of the copy and
then moved into the child's table. The answer says whether the loop ran to its end. -/
def copyEntries (parentDirectory : Nat) (entry : EntryInfo) (ptAddr childDe : Nat) :
    List Nat → PhysMem → Option (Bool × PhysMem)
  | [], m => some (true, m)
  | j :: js, m =>
      let physAddrRaw := m.words ptAddr j
      if deflagAddr physAddrRaw = 0 then copyEntries parentDirectory entry ptAddr childDe js m
      else
        (virtualMapPhysical m parentDirectory entry.pdIndex entry.ptIndex).bind fun (result, m) =>
          if result = -1 then some (false, m)
          else
            let foundTable := deflagAddr (m.words parentDirectory entry.pdIndex)
            let newPhysAddr := m.words foundTable entry.ptIndex
            let m := m.write childDe j (addFlag (deflagAddr newPhysAddr) (getFlag physAddrRaw))
            let m := m.write foundTable entry.ptIndex 0
            copyEntries parentDirectory entry ptAddr childDe js (m.setCr3 parentDirectory)

/-- The outer loop of `sys_fork`, over the entries `i` of the page directory. A `memalign` that
answers `NULL` ends it. -/
def copyTables (parentDirectory : Nat) (entry : EntryInfo) (childDirectory : Nat) :
    List Nat → PhysMem → Option (Bool × PhysMem)
  | [], m => some (true, m)
  | i :: is, m =>
      let parentDeRaw := m.words parentDirectory i
      let ptAddr := deflagAddr parentDeRaw
      if ptAddr = 0 then copyTables parentDirectory entry childDirectory is m
      else
        m.memalign.bind fun (childDe, m) =>
          if childDe = 0 then some (false, m)
          else
            let m := m.write childDirectory i (addFlag childDe (getFlag parentDeRaw))
            (copyEntries parentDirectory entry ptAddr childDe (List.range pageLen) m).bind
              fun (done, m) =>
                if done then copyTables parentDirectory entry childDirectory is m
                else some (false, m)

/-- The copy of an address space into the new page directory `childDirectory`: the entries of the
kernel, then those of the user. -/
def copySpace (parentDirectory : Nat) (entry : EntryInfo) (childDirectory : Nat) (m : PhysMem) :
    Option (Bool × PhysMem) :=
  copyTables parentDirectory entry childDirectory (List.range' 4 1020)
    ((List.range 4).foldl (fun m i => m.write childDirectory i (m.words parentDirectory i)) m)

/-! ## What the loads see -/

@[simp] theorem PhysMem.write_words (m : PhysMem) (b k v b' k' : Nat) :
    (m.write b k v).words b' k' = if b' = b ∧ k' = k then v else m.words b' k' := by
  by_cases hb : b' = b
  · subst hb
    simp [PhysMem.write, Function.update_apply]
  · simp [PhysMem.write, hb]

@[simp] theorem PhysMem.write_frames (m : PhysMem) (b k v : Nat) :
    (m.write b k v).frames = m.frames := rfl

@[simp] theorem PhysMem.write_heap (m : PhysMem) (b k v : Nat) :
    (m.write b k v).heap = m.heap := rfl

@[simp] theorem PhysMem.write_answers (m : PhysMem) (b k v : Nat) :
    (m.write b k v).answers = m.answers := rfl

@[simp] theorem PhysMem.write_cr3 (m : PhysMem) (b k v : Nat) : (m.write b k v).cr3 = m.cr3 := rfl

@[simp] theorem PhysMem.clear_words (m : PhysMem) (b b' k : Nat) :
    (m.clear b).words b' k = if b' = b then 0 else m.words b' k := by
  by_cases hb : b' = b
  · subst hb
    simp [PhysMem.clear]
  · simp [PhysMem.clear, hb]

/-- Stores into different blocks commute. -/
theorem PhysMem.write_comm (m : PhysMem) {b b' : Nat} (hne : b ≠ b') (k v k' v' : Nat) :
    (m.write b k v).write b' k' v' = (m.write b' k' v').write b k v := by
  simp only [PhysMem.write, Function.update_of_ne hne, Function.update_of_ne hne.symm]
  rw [Function.update_comm hne]

end Pebbles.Memory
