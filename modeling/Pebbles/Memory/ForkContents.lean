import Pebbles.Memory.ForkEnds
import Pebbles.Memory.ForkStale
import Pebbles.Memory.NewPages

/-! # The copy that a fork makes

`sys_fork` (`kern/process/sys_fork.c`) with the contents of the pages, when nothing runs out. Each
page of the parent goes through one borrowed entry of the parent's own page tables, and the child
gets the frame with the parent's flags. `forkCopies_iff` says when the child has the same pages in
frames that nobody else uses: the borrowed entry is 0, where `find_free_entry` looks at its address
part only, and no word that the uncleared blocks of the child contain leads to one of the new
frames. -/

namespace Pebbles.Memory

/-! ## The system call -/

namespace PagedVm

/-- `sys_fork`, from the search for a free entry on: the copy of the address space goes through the
contents of the frames. -/
def sysFork (s : PagedVm) : Option (PagedVm × Int) :=
  s.vm.currentSpace.bind fun a =>
    match findFreeEntry s.vm.memory a.pd with
    | none => some (s, -1)
    | some entry =>
        let child := s.vm.nextPid
        let s1 := { s.vm with nextPid := s.vm.nextPid + 1 }.setSpace s.vm.current
          { a with children := a.children ++ [child] }
        let blank : AddressSpace := ⟨0, [], [], false, false⟩
        s.vm.memory.memalign.bind fun (pd, m) =>
          if pd = 0 then some (⟨(s1.setMemory m).setSpace child blank, s.bytes⟩, -1)
          else
            (PagedMem.copySpace a.pd entry pd ⟨m, s.bytes⟩).map fun (done, m) =>
              (⟨(s1.setMemory m.memory).setSpace child { blank with pd := pd, scheduled := done },
                m.bytes⟩, if done then child else -1)

end PagedVm

/-! ## The claim -/

/-- The word `k` of a page with these bytes. -/
def wordIn (page : Nat → UInt8) (k : Nat) : Nat :=
  (page (4 * k)).toNat + 2 ^ 8 * (page (4 * k + 1)).toNat + 2 ^ 16 * (page (4 * k + 2)).toNat
    + 2 ^ 24 * (page (4 * k + 3)).toNat

namespace PagedMem

/-- The word `k` of the page at the physical address `x`: the pages of the kernel are held as words,
those of the user as bytes. -/
def wordAt (s : PagedMem) (x k : Nat) : Nat :=
  if x < userMemStart then s.memory.words x k else wordIn (s.bytes (x / pageSize)) k

/-- The page-table entry that the MMU finds for the page `p`, whatever the page directory `d` points
to, 0 when there is none. -/
def entryAt (s : PagedMem) (d : Nat) (p : Nat × Nat) : Nat :=
  if s.wordAt d p.1 = 0 then 0 else s.wordAt (deflagAddr (s.wordAt d p.1)) p.2

end PagedMem

/-- The process `o` has the frame `f` at its page `p`. -/
def PagedVm.Uses (s : PagedVm) (o : Nat) (p : Nat × Nat) (f : Nat) : Prop :=
  ∃ c, s.vm.spaces o = some c ∧ c.pd ≠ 0 ∧ p.1 < pageLen ∧ p.2 < pageLen ∧
    s.mem.entryAt c.pd p ≠ 0 ∧ frameNo (s.mem.entryAt c.pd p) = f

/-- **The page `p` of the child** with the page directory `b` is a copy, in the frame `f`. -/
structure PageCopied (s s' : PagedVm) (a : AddressSpace) (b : Nat) (p : Nat × Nat) (f : Nat) :
    Prop where
  /-- The frame was free. -/
  free : f ∈ s.vm.memory.frames.freeSet
  /-- The child maps the page to it, with the flags of the parent. -/
  entry : s'.mem.entryAt b p
    = addFlag (f * pageSize) (getFlag (entryOf s.vm.memory.words a.pd p))
  /-- The frame has the bytes that the parent's had at the call. -/
  bytes : s'.bytes f = s.bytes (frameNo (entryOf s.vm.memory.words a.pd p))
  /-- No other page has it. -/
  only : ∀ o q, s'.Uses o q f → o = s.vm.nextPid ∧ q = p

/-- **The claim about `fork`**: it makes a child whose pages are copies of those of the parent, and
the parent has its own as before. -/
structure ForkCopies (s s' : PagedVm) (a : AddressSpace) (b : Nat) : Prop where
  /-- The call makes a child. -/
  call : s.sysFork = some (s', (s.vm.nextPid : Int))
  /-- The page directory of the child. -/
  child : s'.vm.spaces s.vm.nextPid = some ⟨b, [], [], false, true⟩
  /-- The pages of the child. -/
  pages : ∀ p ∈ presentPages s.vm.memory.words a.pd userTables, ∃ f, PageCopied s s' a b p f
  /-- The page tables of the parent. -/
  same : SameSpace s.vm.memory.words s'.vm.memory.words a.pd
  /-- The pages of the parent. -/
  kept : ∀ p ∈ presentPages s.vm.memory.words a.pd userTables,
    s'.bytes (frameNo (entryOf s.vm.memory.words a.pd p))
      = s.bytes (frameNo (entryOf s.vm.memory.words a.pd p))

/-! ## Words that lead astray -/

/-- **The page directory `d` is backed**: its page tables are blocks of the kernel heap, in kernel
memory, and the frames of the kernel and those of its pages are in use. -/
structure Backed (m : PhysMem) (d : Nat) : Prop where
  /-- It is a page directory. -/
  directory : Directory m d
  /-- The blocks of the kernel heap. -/
  blocks : ∀ x ∈ m.heap, x < userMemStart
  /-- The frames of the kernel. -/
  kernel : ∀ f < 4096, f ∉ m.frames.freeSet
  /-- The pages. -/
  used : ∀ p : Nat × Nat, p.1 < pageLen → p.2 < pageLen → entryOf m.words d p ≠ 0 →
    frameNo (entryOf m.words d p) ∉ m.frames.freeSet

/-- The block `a0` of the child's page directory has a word at the entry `i`, where the parent has
no page table, and the word points to `x`. -/
structure LedTo (words : Nat → Nat → Nat) (d : Nat) (a0 : Answer) (i x : Nat) : Prop where
  /-- The entry is one for user memory. -/
  mem : i ∈ userTables
  /-- The parent has no page table there. -/
  absent : deflagAddr (words d i) = 0
  /-- The word. -/
  stale : a0.contents i ≠ 0
  /-- The address. -/
  address : deflagAddr (a0.contents i) = x

/-- **The word `w` is the child's entry for its page `q`**, which the parent does not have: `a0` and
`as` are the answers for the child's page directory and page tables, `fs` are the frames that the
allocator is going to hand out. -/
inductive Strays (s : PagedMem) (d : Nat) (a0 : Answer) (as : List Answer) (fs : List Nat) :
    Nat × Nat → Nat → Prop
  /-- A word of the block of a page table. -/
  | table {i j : Nat} {a : Answer}
      (hgiven : (i, a) ∈ (presentTables s.memory.words d userTables).zip as) (hj : j < pageLen)
      (habsent : deflagAddr (s.memory.words (deflagAddr (s.memory.words d i)) j) = 0) :
      Strays s d a0 as fs (i, j) (a.contents j)
  /-- The page directory is taken for a page table. -/
  | directory {i k : Nat} (hled : LedTo s.memory.words d a0 i a0.address) (hk : k ∈ userTables)
      (habsent : deflagAddr (s.memory.words d k) = 0) :
      Strays s d a0 as fs (i, k) (a0.contents k)
  /-- A page table of the child serves twice. -/
  | shared {i k j f : Nat} {a : Answer} (hled : LedTo s.memory.words d a0 i a.address)
      (hgiven : (k, a) ∈ (presentTables s.memory.words d userTables).zip as)
      (hcopied : ((k, j), f) ∈ (presentPages s.memory.words d userTables).zip fs) :
      Strays s d a0 as fs (i, j)
        (addFlag (f * pageSize) (getFlag (entryOf s.memory.words d (k, j))))
  /-- So do the words that its block contained before. -/
  | again {i k j : Nat} {a : Answer} (hled : LedTo s.memory.words d a0 i a.address)
      (hgiven : (k, a) ∈ (presentTables s.memory.words d userTables).zip as) (hj : j < pageLen)
      (habsent : deflagAddr (s.memory.words (deflagAddr (s.memory.words d k)) j) = 0) :
      Strays s d a0 as fs (i, j) (a.contents j)
  /-- A page of the child is taken for a page table. -/
  | page {i j f : Nat} {p : Nat × Nat} (hled : LedTo s.memory.words d a0 i (f * pageSize))
      (hcopied : (p, f) ∈ (presentPages s.memory.words d userTables).zip fs) (hj : j < pageLen) :
      Strays s d a0 as fs (i, j) (wordIn (s.bytes (frameNo (entryOf s.memory.words d p))) j)
  /-- Any other page of the memory is taken for a page table. -/
  | other {i j x : Nat} (hled : LedTo s.memory.words d a0 i x)
      (hblock : x ∉ (a0 :: as).map Answer.address) (hframe : x / pageSize ∉ fs)
      (hj : j < pageLen) : Strays s d a0 as fs (i, j) (s.wordAt x j)

section
variable {s s' : PagedMem} {d : Nat} {a0 : Answer} {as : List Answer} {fs : List Nat}
  {p q : Nat × Nat} {x k f w : Nat}

/-- The page tables in kernel memory are held as words. -/
theorem PagedMem.wordAt_of_lt (hx : x < userMemStart) : s.wordAt x k = s.memory.words x k :=
  if_pos hx

/-- The MMU finds the entries of a page directory whose page tables lie in kernel memory. -/
theorem PagedMem.entryAt_eq (hd : d < userMemStart)
    (htable : s.memory.words d p.1 ≠ 0 → deflagAddr (s.memory.words d p.1) < userMemStart) :
    s.entryAt d p = entryOf s.memory.words d p := by
  rw [PagedMem.entryAt, wordAt_of_lt hd, entryOf]
  split
  · rfl
  · next hpde => exact wordAt_of_lt (htable hpde)

/-- A page that the copy does not skip is mapped. -/
theorem entryOf_present {words : Nat → Nat → Nat} (hp : p ∈ presentPages words d userTables) :
    p.1 < pageLen ∧ p.2 < pageLen ∧ entryOf words d p ≠ 0 := by
  obtain ⟨hi, hpde, hj, hpte⟩ := mem_presentPages.mp hp
  have hne : words d p.1 ≠ 0 := fun e => hpde (by rw [e, deflagAddr_zero])
  refine ⟨(mem_userTables.mp hi).2, hj, ?_⟩
  rw [entryOf_of_table hne]
  exact fun e => hpte (by rw [e, deflagAddr_zero])

/-- What a word names when it is 0. -/
theorem frameNo_zero : frameNo 0 = 0 := by
  rw [frameNo, deflagAddr_zero]
  rfl

namespace Forked

/-- The word of the child's page directory for a page table that the parent has. -/
theorem wordAt_given (h : Forked s s' d a0 as fs) {i : Nat} {a : Answer}
    (hgiven : (i, a) ∈ (presentTables s.memory.words d userTables).zip as) :
    s'.wordAt a0.address i = addFlag a.address (getFlag (s.memory.words d i)) := by
  rw [PagedMem.wordAt_of_lt h.block.2.2]
  exact (h.given hgiven).entry

/-- The entries of a page table that the child was given. -/
theorem entryAt_given (h : Forked s s' d a0 as fs) {i : Nat} {a : Answer}
    (hgiven : (i, a) ∈ (presentTables s.memory.words d userTables).zip as) (j : Nat) :
    s'.entryAt a0.address (i, j) = s'.memory.words a.address j ∧
      entryOf s'.memory.words a0.address (i, j) = s'.memory.words a.address j := by
  have htable := h.given hgiven
  have hflag := addFlag_block htable.block (getFlag_lt (s.memory.words d i))
  have hentry : entryOf s'.memory.words a0.address (i, j) = s'.memory.words a.address j := by
    rw [entryOf_of_table (by rw [htable.entry]; exact hflag.1), htable.entry, hflag.2]
  refine ⟨?_, hentry⟩
  rw [PagedMem.entryAt_eq h.block.2.2, hentry]
  intro hne
  rw [htable.entry, hflag.2]
  exact htable.block.2.2

/-- The words of a page table that the child was given. -/
theorem wordAt_given_table (h : Forked s s' d a0 as fs) {i : Nat} {a : Answer}
    (hgiven : (i, a) ∈ (presentTables s.memory.words d userTables).zip as) (j : Nat) :
    s'.wordAt a.address j = entryOf s'.memory.words a0.address (i, j) := by
  rw [(h.entryAt_given hgiven j).2, PagedMem.wordAt_of_lt (h.given hgiven).block.2.2]

/-- The entry of a page that the parent does not have, in a page table that it has. -/
theorem entryAt_stale (h : Forked s s' d a0 as fs) {i j : Nat} {a : Answer}
    (hgiven : (i, a) ∈ (presentTables s.memory.words d userTables).zip as) (hj : j < pageLen)
    (habsent : deflagAddr (s.memory.words (deflagAddr (s.memory.words d i)) j) = 0) :
    s'.entryAt a0.address (i, j) = a.contents j := by
  rw [(h.entryAt_given hgiven j).1]
  exact (h.given hgiven).stale j hj habsent

/-- The pages of the child and their frames. -/
theorem mem_zip (h : Forked s s' d a0 as fs) :
    (p, f) ∈ (presentPages s.memory.words d userTables).zip fs
      ↔ p ∈ presentPages s.memory.words d userTables ∧
        frameNo (entryOf s'.memory.words a0.address p) = f := by
  rw [← h.frames, ← List.map_prod_left_eq_zip, List.mem_map]
  constructor
  · rintro ⟨p', hp, heq⟩
    obtain ⟨rfl, rfl⟩ := Prod.mk.inj heq
    exact ⟨hp, rfl⟩
  · rintro ⟨hp, rfl⟩
    exact ⟨p, hp, rfl⟩

/-- The entry of a page that the parent has. -/
theorem entryAt_page (h : Forked s s' d a0 as fs)
    (hp : p ∈ presentPages s.memory.words d userTables) :
    s'.entryAt a0.address p = entryOf s'.memory.words a0.address p := by
  obtain ⟨hi, hpde, -⟩ := mem_presentPages.mp hp
  obtain ⟨a, hgiven⟩ := h.exists_given (mem_presentTables.mpr ⟨hi, hpde⟩)
  obtain ⟨hentry, hsame⟩ := h.entryAt_given hgiven p.2
  exact hentry.trans hsame.symm

/-- The new frames are none of the kernel. -/
theorem le_frame (h : Forked s s' d a0 as fs) (hb : Backed s.memory d) (hf : f ∈ fs) :
    4096 ≤ f := by
  by_contra hlt
  exact hb.kernel f (by omega) (h.takes.free f hf)

/-- Kernel memory is none of the new frames. -/
theorem block_notMem (h : Forked s s' d a0 as fs) (hb : Backed s.memory d)
    (hx : x < userMemStart) : x / pageSize ∉ fs := fun hmem => by
  have hle := h.le_frame hb hmem
  rw [userMemStart] at hx
  rw [pageSize] at hle
  omega

/-- Nor is a page table. -/
theorem table_notMem (h : Forked s s' d a0 as fs) (hb : Backed s.memory d) (hx : IsBlock x)
    {flag : Nat} (hflag : flag < pageSize) : frameNo (addFlag x flag) ∉ fs := by
  rw [frameNo, (addFlag_block hx hflag).2]
  exact h.block_notMem hb hx.2.2

/-- The words that the copy has not touched. -/
theorem wordAt_other (h : Forked s s' d a0 as fs) (hx : x ∉ (a0 :: as).map Answer.address)
    (hframe : x / pageSize ∉ fs) (k : Nat) : s'.wordAt x k = s.wordAt x k := by
  rw [PagedMem.wordAt, PagedMem.wordAt, h.others x hx, h.other_bytes _ hframe]

/-- The words of a page that was copied. -/
theorem wordAt_page (h : Forked s s' d a0 as fs) (hb : Backed s.memory d)
    (hcopied : (p, f) ∈ (presentPages s.memory.words d userTables).zip fs) (k : Nat) :
    s'.wordAt (f * pageSize) k
      = wordIn (s.bytes (frameNo (entryOf s.memory.words d p))) k := by
  obtain ⟨hp, hname⟩ := h.mem_zip.mp hcopied
  obtain ⟨hi, hj, hentry⟩ := entryOf_present hp
  have hle := h.le_frame hb (List.of_mem_zip hcopied).2
  have hnot : ¬ f * pageSize < userMemStart := by
    rw [pageSize, userMemStart]
    omega
  rw [PagedMem.wordAt, if_neg hnot, Nat.mul_div_cancel f (by decide), ← hname, h.bytes p hp
    (hb.used p hi hj hentry)]

/-- The word of the child's page directory where the parent has no page table. -/
theorem wordAt_absent (h : Forked s s' d a0 as fs) {i : Nat} (hi : i ∈ userTables)
    (habsent : deflagAddr (s.memory.words d i) = 0) :
    s'.wordAt a0.address i = a0.contents i := by
  rw [PagedMem.wordAt_of_lt h.block.2.2]
  exact h.stale i hi habsent

/-- The entries that a stale word leads to. -/
theorem entryAt_led (h : Forked s s' d a0 as fs) {i : Nat}
    (hled : LedTo s.memory.words d a0 i x) (j : Nat) :
    s'.entryAt a0.address (i, j) = s'.wordAt x j := by
  have hword := h.wordAt_absent hled.mem hled.absent
  rw [PagedMem.entryAt, if_neg (by rw [hword]; exact hled.stale), hword, hled.address]

/-- **The child finds the words that lead astray**, at pages that the parent does not have. -/
theorem entryAt_of_strays (h : Forked s s' d a0 as fs) (hb : Backed s.memory d)
    (hstrays : Strays s d a0 as fs q w) :
    s'.entryAt a0.address q = w ∧ q ∉ presentPages s.memory.words d userTables ∧
      q.1 < pageLen ∧ q.2 < pageLen := by
  cases hstrays with
  | @table i j a hgiven hj habsent =>
      have hi := (mem_presentTables.mp (List.of_mem_zip hgiven).1).1
      exact ⟨h.entryAt_stale hgiven hj habsent,
        fun hmem => (mem_presentPages.mp hmem).2.2.2 habsent, (mem_userTables.mp hi).2, hj⟩
  | directory hled hk habsent =>
      refine ⟨?_, fun hmem => (mem_presentPages.mp hmem).2.1 hled.absent,
        (mem_userTables.mp hled.mem).2, (mem_userTables.mp hk).2⟩
      rw [h.entryAt_led hled, h.wordAt_absent hk habsent]
  | @shared i k j f a hled hgiven hcopied =>
      obtain ⟨hp, hname⟩ := h.mem_zip.mp hcopied
      refine ⟨?_, fun hmem => (mem_presentPages.mp hmem).2.1 hled.absent,
        (mem_userTables.mp hled.mem).2, (mem_presentPages.mp hp).2.2.1⟩
      rw [h.entryAt_led hled, h.wordAt_given_table hgiven, h.entries _ hp, hname]
  | @again i k j a hled hgiven hj habsent =>
      refine ⟨?_, fun hmem => (mem_presentPages.mp hmem).2.1 hled.absent,
        (mem_userTables.mp hled.mem).2, hj⟩
      rw [h.entryAt_led hled, PagedMem.wordAt_of_lt (h.given hgiven).block.2.2]
      exact (h.given hgiven).stale j hj habsent
  | page hled hcopied hj =>
      refine ⟨?_, fun hmem => (mem_presentPages.mp hmem).2.1 hled.absent,
        (mem_userTables.mp hled.mem).2, hj⟩
      rw [h.entryAt_led hled, h.wordAt_page hb hcopied]
  | other hled hblock hframe hj =>
      refine ⟨?_, fun hmem => (mem_presentPages.mp hmem).2.1 hled.absent,
        (mem_userTables.mp hled.mem).2, hj⟩
      rw [h.entryAt_led hled, h.wordAt_other hblock hframe]

/-- The page directory, taken for a page table. -/
theorem strays_directory (h : Forked s s' d a0 as fs) (hb : Backed s.memory d) {i j : Nat}
    (hled : LedTo s.memory.words d a0 i a0.address) (hj : j < pageLen)
    (hname : frameNo (s'.wordAt a0.address j) ∈ fs) :
    Strays s d a0 as fs (i, j) (s'.wordAt a0.address j) := by
  by_cases hk : 4 ≤ j
  · have huser : j ∈ userTables := mem_userTables.mpr ⟨hk, hj⟩
    by_cases hpde : deflagAddr (s.memory.words d j) = 0
    · rw [h.wordAt_absent huser hpde]
      exact .directory hled huser hpde
    · -- the entry of a page table names no frame of a user
      obtain ⟨a, hgiven⟩ := h.exists_given (mem_presentTables.mpr ⟨huser, hpde⟩)
      rw [h.wordAt_given hgiven] at hname
      exact absurd hname (h.table_notMem hb (h.given hgiven).block (getFlag_lt _))
  · -- nor does an entry of the kernel
    rw [PagedMem.wordAt_of_lt h.block.2.2, h.kernel j (by omega)] at hname
    by_cases hzero : s.memory.words d j = 0
    · rw [hzero, frameNo_zero] at hname
      have hle := h.le_frame hb hname
      omega
    · exact absurd hname (h.block_notMem hb (hb.blocks _ (hb.directory.table_mem j hj hzero)))

/-- A page table of the child, for another part of the address space. -/
theorem strays_table (h : Forked s s' d a0 as fs) {i j : Nat} {a : Answer}
    (hled : LedTo s.memory.words d a0 i a.address) (ha : a ∈ as) (hj : j < pageLen) :
    Strays s d a0 as fs (i, j) (s'.wordAt a.address j) := by
  obtain ⟨n, hn, rfl⟩ := List.mem_iff_getElem.mp ha
  have hn' : n < (presentTables s.memory.words d userTables).length := by
    rw [h.tables.length_eq]
    exact hn
  have hgiven : ((presentTables s.memory.words d userTables)[n], as[n])
      ∈ (presentTables s.memory.words d userTables).zip as := by
    rw [List.mem_iff_getElem]
    exact ⟨n, by rw [List.length_zip]; omega, List.getElem_zip⟩
  generalize (presentTables s.memory.words d userTables)[n] = k at hgiven
  by_cases hpte : deflagAddr (s.memory.words (deflagAddr (s.memory.words d k)) j) = 0
  · rw [PagedMem.wordAt_of_lt (h.given hgiven).block.2.2, (h.given hgiven).stale j hj hpte]
    exact .again hled hgiven hj hpte
  · obtain ⟨hk, hpde⟩ := mem_presentTables.mp (List.of_mem_zip hgiven).1
    have hp : (k, j) ∈ presentPages s.memory.words d userTables :=
      mem_presentPages.mpr ⟨hk, hpde, hj, hpte⟩
    rw [h.wordAt_given_table hgiven, h.entries _ hp]
    exact .shared hled hgiven (h.mem_zip.mpr ⟨hp, rfl⟩)

/-- A page of the child, taken for a page table. -/
theorem strays_page (h : Forked s s' d a0 as fs) (hb : Backed s.memory d) {i j : Nat}
    (hled : LedTo s.memory.words d a0 i x) (hframe : x / pageSize ∈ fs) (hj : j < pageLen) :
    Strays s d a0 as fs (i, j) (s'.wordAt x j) := by
  have hmod : x % pageSize = 0 := hled.address ▸ deflagAddr_mod _
  have hx : x / pageSize * pageSize = x := Nat.div_mul_cancel (Nat.dvd_of_mod_eq_zero hmod)
  generalize x / pageSize = f at hframe hx
  subst hx
  rw [← h.frames] at hframe
  obtain ⟨p, hp, hname⟩ := List.mem_map.mp hframe
  have hcopied := h.mem_zip.mpr ⟨hp, hname⟩
  rw [h.wordAt_page hb hcopied]
  exact .page hled hcopied hj

/-- **Nothing else leads the child to a new frame.** -/
theorem strays_of_entryAt (h : Forked s s' d a0 as fs) (hb : Backed s.memory d)
    (hq : q.1 ∈ userTables) (hq2 : q.2 < pageLen)
    (hnone : q ∉ presentPages s.memory.words d userTables)
    (hname : frameNo (s'.entryAt a0.address q) ∈ fs) :
    Strays s d a0 as fs q (s'.entryAt a0.address q) := by
  obtain ⟨i, j⟩ := q
  by_cases hpde : deflagAddr (s.memory.words d i) = 0
  · by_cases hzero : a0.contents i = 0
    · -- no page table at all
      rw [PagedMem.entryAt, if_pos ((h.wordAt_absent hq hpde).trans hzero), frameNo_zero] at hname
      have hle := h.le_frame hb hname
      omega
    · have hled : LedTo s.memory.words d a0 i (deflagAddr (a0.contents i)) := ⟨hq, hpde, hzero, rfl⟩
      rw [h.entryAt_led hled] at hname ⊢
      generalize deflagAddr (a0.contents i) = x at hled hname ⊢
      -- what the page that the word points to is now
      by_cases hblock : x ∈ (a0 :: as).map Answer.address
      · rcases List.mem_cons.mp hblock with rfl | hmem
        · exact h.strays_directory hb hled hq2 hname
        · obtain ⟨a, ha, rfl⟩ := List.mem_map.mp hmem
          exact h.strays_table hled ha hq2
      · by_cases hframe : x / pageSize ∈ fs
        · exact h.strays_page hb hled hframe hq2
        · rw [h.wordAt_other hblock hframe]
          exact .other hled hblock hframe hq2
  · obtain ⟨a, hgiven⟩ := h.exists_given (mem_presentTables.mpr ⟨hq, hpde⟩)
    have habsent : deflagAddr (s.memory.words (deflagAddr (s.memory.words d i)) j) = 0 := by
      by_contra hpte
      exact hnone (mem_presentPages.mpr ⟨hq, hpde, hq2, hpte⟩)
    rw [h.entryAt_stale hgiven hq2 habsent]
    exact .table hgiven hq2 habsent

end Forked

end

/-- **All processes are accounted for.** -/
def Accounted (s : Vm) : Prop :=
  ∀ o c, s.spaces o = some c → c.pd ≠ 0 → Backed s.memory c.pd

/-- **The copy is spoilt**: a word that the blocks of the child contained names a new frame, for a
page that the parent does not have. -/
def LeadsAstray (s : PagedMem) (d : Nat) (a0 : Answer) (as : List Answer) (fs : List Nat) : Prop :=
  ∃ q w, Strays s d a0 as fs q w ∧ frameNo w ∈ fs

section
variable {s s' : PagedVm} {a : AddressSpace} {a0 : Answer} {as : List Answer} {fs : List Nat}
  {entry : EntryInfo} {t : PagedMem}

/-- The kernel with the child, where `t` is the memory after the copy. -/
def PagedVm.withChild (s : PagedVm) (a : AddressSpace) (b : Nat) (t : PagedMem) : PagedVm where
  vm := (({ s.vm with nextPid := s.vm.nextPid + 1 }.setSpace s.vm.current
    { a with children := a.children ++ [s.vm.nextPid] }).setMemory t.memory).setSpace
      s.vm.nextPid ⟨b, [], [], false, true⟩
  bytes := t.bytes

/-- The control block of the child. -/
theorem PagedVm.spaces_withChild (s : PagedVm) (a : AddressSpace) (b : Nat) (t : PagedMem) :
    (s.withChild a b t).vm.spaces s.vm.nextPid = some ⟨b, [], [], false, true⟩ :=
  Function.update_self ..

/-- **A call that copies everything** makes a child. -/
theorem PagedVm.sysFork_of_copied (ha : s.vm.currentSpace = some a)
    (hfind : findFreeEntry s.vm.memory a.pd = some entry)
    (halloc : s.vm.memory.memalign = some (a0.address, s.vm.memory.given a0 as))
    (hnull : a0.address ≠ 0) (hcopy : PagedMem.copySpace a.pd entry a0.address
      ⟨s.vm.memory.given a0 as, s.bytes⟩ = some (true, t)) :
    s.sysFork = some (s.withChild a a0.address t, (s.vm.nextPid : Int)) := by
  rw [PagedVm.sysFork, ha, Option.bind_some, hfind]
  simp only [halloc, Option.bind_some, if_neg hnull, hcopy, Option.map_some, if_true]
  rfl

/-- **A call that makes a child** has copied everything. -/
theorem PagedVm.copied_of_sysFork (ha : s.vm.currentSpace = some a)
    (hfind : findFreeEntry s.vm.memory a.pd = some entry)
    (halloc : s.vm.memory.memalign = some (a0.address, s.vm.memory.given a0 as))
    (hnull : a0.address ≠ 0) (call : s.sysFork = some (s', (s.vm.nextPid : Int))) :
    ∃ t, PagedMem.copySpace a.pd entry a0.address ⟨s.vm.memory.given a0 as, s.bytes⟩
      = some (true, t) ∧ s' = s.withChild a a0.address t := by
  rw [PagedVm.sysFork, ha, Option.bind_some, hfind] at call
  simp only [halloc, Option.bind_some, if_neg hnull] at call
  obtain ⟨⟨done, t⟩, hcopy, hres⟩ := Option.map_eq_some_iff.mp call
  cases done with
  | true => exact ⟨t, hcopy, (Prod.mk.inj hres).1.symm⟩
  | false =>
      have hr := (Prod.mk.inj hres).2
      simp only [Bool.false_eq_true, if_false] at hr
      omega

/-- The other processes have their page directories as before. -/
theorem PagedVm.space_of_withChild (ha : s.vm.currentSpace = some a) {b o : Nat}
    {c : AddressSpace} (ho : o ≠ s.vm.nextPid)
    (hc : (s.withChild a b t).vm.spaces o = some c) :
    ∃ c', s.vm.spaces o = some c' ∧ c'.pd = c.pd := by
  have hspace : Function.update s.vm.spaces s.vm.current
      (some { a with children := a.children ++ [s.vm.nextPid] }) o = some c := by
    rw [← hc]
    exact (Function.update_of_ne ho ..).symm
  by_cases hcur : o = s.vm.current
  · subst hcur
    rw [Function.update_self, Option.some.injEq] at hspace
    exact ⟨a, ha, by rw [← hspace]⟩
  · rw [Function.update_of_ne hcur] at hspace
    exact ⟨c, hspace, rfl⟩

/-- The blocks that were in use are as before. -/
theorem Forked.words_of_mem {s t : PagedMem} {d : Nat} (h : Forked s t d a0 as fs) {x : Nat}
    (hx : x ∈ s.memory.heap) : t.memory.words x = s.memory.words x := by
  refine h.others x fun hmem => ?_
  rcases List.mem_cons.mp hmem with rfl | hmem
  · exact h.fresh hx
  · obtain ⟨n, hn, hname⟩ := List.mem_iff_getElem.mp hmem
    rw [List.length_map] at hn
    have hgiven := h.tables.get (by rw [h.tables.length_eq]; exact hn) hn
    refine hgiven.fresh ?_
    rw [List.getElem_map] at hname
    rw [← hname] at hx
    exact hx

/-- The pages of a process that was there. -/
theorem Forked.entryAt_old {s t : PagedMem} {d d' : Nat} (h : Forked s t d a0 as fs)
    (hb : Backed s.memory d') {p : Nat × Nat} (hp : p.1 < pageLen) :
    t.entryAt d' p = entryOf s.memory.words d' p := by
  have hsame : SameSpace s.memory.words t.memory.words d' :=
    hb.directory.sameSpace fun x hx _ => h.words_of_mem hx
  rw [PagedMem.entryAt_eq (hb.blocks d' hb.directory.mem), hsame.entryOf hp]
  rw [hsame.dir]
  exact fun hpde => hb.blocks _ (hb.directory.table_mem p.1 hp hpde)

/-- The pages of the kernel in the child. -/
theorem Forked.entryAt_kernel {s t : PagedMem} {d : Nat} (h : Forked s t d a0 as fs)
    (hb : Backed s.memory d) {p : Nat × Nat} (hp : p.1 < 4) :
    t.entryAt a0.address p = entryOf s.memory.words d p := by
  have hlt : p.1 < pageLen := by
    rw [pageLen]
    omega
  have hsame : SameSpace s.memory.words t.memory.words d := h.same
  have htable : s.memory.words d p.1 ≠ 0 → deflagAddr (s.memory.words d p.1) < userMemStart :=
    fun hpde => hb.blocks _ (hb.directory.table_mem p.1 hlt hpde)
  rw [PagedMem.entryAt_eq h.block.2.2 (by rw [h.kernel p.1 hp]; exact htable), entryOf, entryOf,
    h.kernel p.1 hp]
  split
  · rfl
  · next hpde => exact hsame.table p.1 hlt hpde p.2

/-- **No other process has a new frame.** -/
theorem Forked.only_child {s : PagedVm} {t : PagedMem} (h : Forked s.mem t a.pd a0 as fs)
    (hs : Accounted s.vm) (ha : s.vm.currentSpace = some a) {o f : Nat} {q : Nat × Nat}
    (huses : (s.withChild a a0.address t).Uses o q f) (hf : f ∈ fs) : o = s.vm.nextPid := by
  by_contra ho
  obtain ⟨c, hc, hpd, hq1, hq2, hne, rfl⟩ := huses
  obtain ⟨c', hc', hpd'⟩ := PagedVm.space_of_withChild ha ho hc
  have hb : Backed s.vm.memory c.pd := hpd' ▸ hs o c' hc' (by rw [hpd']; exact hpd)
  have hentry : (s.withChild a a0.address t).mem.entryAt c.pd q
      = entryOf s.vm.memory.words c.pd q := h.entryAt_old hb hq1
  rw [hentry] at hne hf
  exact hb.used q hq1 hq2 hne (h.takes.free _ hf)

/-- **The pages of the child are copies** exactly when no word leads astray. -/
theorem Forked.pages_iff {s : PagedVm} {t : PagedMem} (h : Forked s.mem t a.pd a0 as fs)
    (hs : Accounted s.vm) (ha : s.vm.currentSpace = some a) (hb : Backed s.vm.memory a.pd) :
    (∀ p ∈ presentPages s.vm.memory.words a.pd userTables,
      ∃ f, PageCopied s (s.withChild a a0.address t) a a0.address p f)
        ↔ ¬ LeadsAstray s.mem a.pd a0 as fs := by
  have hchild := PagedVm.spaces_withChild s a a0.address t
  constructor
  · rintro hpages ⟨q, w, hstrays, hname⟩
    obtain ⟨hentry, hnone, hq1, hq2⟩ := h.entryAt_of_strays hb hstrays
    -- the page whose frame the word names
    have hmem := hname
    rw [← h.frames] at hmem
    obtain ⟨p, hp, hpname⟩ := List.mem_map.mp hmem
    obtain ⟨f, hcopied⟩ := hpages p hp
    have hpentry : (s.withChild a a0.address t).mem.entryAt a0.address p
        = entryOf t.memory.words a0.address p := h.entryAt_page hp
    have hf : frameNo w = f := by
      rw [← hpname, ← hpentry, hcopied.entry]
      exact frameNo_addFlag (mem_freeSet.mp hcopied.free).1 (getFlag_lt _)
    have hle := h.le_frame hb hname
    have huses : (s.withChild a a0.address t).Uses s.vm.nextPid q f := by
      refine ⟨_, hchild, h.block.1, hq1, hq2, ?_, ?_⟩
      · intro e
        have hzero : w = 0 := hentry.symm.trans e
        rw [hzero, frameNo_zero] at hle
        omega
      · rw [← hf, ← hentry]
        rfl
    exact hnone ((hcopied.only _ _ huses).2 ▸ hp)
  · intro hastray p hp
    have hmem : frameNo (entryOf t.memory.words a0.address p) ∈ fs := by
      rw [← h.frames]
      exact List.mem_map_of_mem hp
    obtain ⟨hi, hj, hentry⟩ := entryOf_present hp
    refine ⟨_, h.takes.free _ hmem, (h.entryAt_page hp).trans (h.entries p hp),
      h.bytes p hp (hb.used p hi hj hentry), fun o q huses => ?_⟩
    have ho := h.only_child hs ha huses hmem
    refine ⟨ho, ?_⟩
    obtain ⟨c, hc, -, hq1, hq2, hqne, hqname⟩ := huses
    rw [ho, hchild, Option.some.injEq] at hc
    subst hc
    have hqfs : frameNo (t.entryAt a0.address q) ∈ fs := by
      rw [show frameNo (t.entryAt a0.address q) = _ from hqname]
      exact hmem
    by_cases hk : q.1 < 4
    · -- a page of the kernel has a frame that was in use
      have hold : t.entryAt a0.address q = entryOf s.vm.memory.words a.pd q :=
        h.entryAt_kernel hb hk
      have hold' : entryOf s.vm.memory.words a.pd q ≠ 0 := hold ▸ hqne
      rw [hold] at hqfs
      exact absurd (h.takes.free _ hqfs) (hb.used q hq1 hq2 hold')
    by_cases hq : q ∈ presentPages s.vm.memory.words a.pd userTables
    · -- the frames of two pages are two frames
      have hnodup := h.takes.nodup
      rw [← h.frames] at hnodup
      refine List.inj_on_of_nodup_map hnodup hq hp ?_
      rw [← hqname]
      exact congrArg frameNo (h.entryAt_page hq).symm
    · refine absurd ⟨q, _, h.strays_of_entryAt hb ?_ hq2 hq hqfs, hqfs⟩ hastray
      exact mem_userTables.mpr ⟨by omega, hq1⟩

/-- The copy without contents determines the copy with contents. -/
theorem forked_of_copySpace {s : PagedMem} {d : Nat} {m' : PhysMem} (h : Directory s.memory d)
    (hcr3 : s.memory.cr3 = d) (hfind : findFreeEntry s.memory d = some entry)
    (hanswers : s.memory.answers = a0 :: as)
    (hsupply : Supplied s.memory.heap s.memory.answers) (hnull : a0.address ≠ 0)
    (hlen : as.length = (presentTables s.memory.words d userTables).length)
    (hcount : fs.length = (presentPages s.memory.words d userTables).length)
    {frames : FrameTable}
    (hacq : acquireMany fs.length s.memory.frames = some (fs.map (· * pageSize), frames))
    (call : Memory.copySpace d entry a0.address (s.memory.given a0 as) = some (true, m')) :
    ∃ t, PagedMem.copySpace d entry a0.address ⟨s.memory.given a0 as, s.bytes⟩ = some (true, t) ∧
      Forked s t d a0 as fs := by
  obtain ⟨halloc, -, -, -⟩ := memalign_of_supplied hanswers hsupply hnull
  obtain ⟨t, b0, bs, gs, hcopy, -, -, hforked⟩ :=
    PagedMem.forked_of_call h hcr3 hfind halloc hnull call
  -- the answers are those that were used
  have hused : a0 :: as = b0 :: bs ++ t.memory.answers := hanswers.symm.trans hforked.answers
  obtain ⟨rfl, hrest⟩ := List.cons.inj hused
  have hlen' : as.length = bs.length := hlen.trans hforked.tables.length_eq
  have htotal : as.length = bs.length + t.memory.answers.length := by
    rw [hrest]
    exact List.length_append
  have hnil : t.memory.answers = [] := List.length_eq_zero_iff.mp (by omega)
  obtain rfl : as = bs := by
    rw [hrest, hnil]
    exact List.append_nil bs
  -- so are the frames
  have hgs : gs.length = fs.length := by
    rw [hcount, ← hforked.frames, List.length_map]
  obtain rfl : gs = fs := hforked.takes.eq_of_acquireMany hgs.symm hacq
  exact ⟨t, hcopy, hforked⟩

end

/-- **When a fork copies the parent's memory.** For every parent and every content of memory, when
`find_free_entry` finds an entry and no allocation fails: `sys_fork` makes a child that has each
page of the parent, with the same flags and bytes, in a frame of its own, and leaves the parent as
it was, if and only if the borrowed entry is 0 or there is no page, and no word in the uncleared
blocks of the child leads to a new frame. -/
theorem forkCopies_iff {s : PagedVm} {a : AddressSpace} {entry : EntryInfo} {a0 : Answer}
    {as : List Answer} {fs : List Nat} {frames : FrameTable} (hs : Accounted s.vm)
    (ha : s.vm.currentSpace = some a) (hpd : a.pd ≠ 0) (hcr3 : s.vm.memory.cr3 = a.pd)
    (hfind : findFreeEntry s.vm.memory a.pd = some entry)
    (hanswers : s.vm.memory.answers = a0 :: as)
    (hsupply : Supplied s.vm.memory.heap s.vm.memory.answers) (hnn : NonNull s.vm.memory.answers)
    (hlen : as.length = (presentTables s.vm.memory.words a.pd userTables).length)
    (hcount : fs.length = (presentPages s.vm.memory.words a.pd userTables).length)
    (hacq : acquireMany fs.length s.vm.memory.frames = some (fs.map (· * pageSize), frames)) :
    (∃ s' b, ForkCopies s s' a b) ↔
      (presentPages s.vm.memory.words a.pd userTables ≠ [] → SlotFree s.vm.memory a.pd entry) ∧
        ¬ LeadsAstray s.mem a.pd a0 as fs := by
  have hb : Backed s.vm.memory a.pd := hs _ a ha hpd
  have hd := hb.directory
  have hnull : a0.address ≠ 0 := hnn a0 (hanswers ▸ List.mem_cons_self)
  obtain ⟨halloc, hblock, hfresh, -⟩ := memalign_of_supplied hanswers hsupply hnull
  constructor
  · rintro ⟨s', b, hcopies⟩
    obtain ⟨t, hcopy, rfl⟩ := PagedVm.copied_of_sysFork ha hfind halloc hnull hcopies.call
    have hmem := PagedMem.copySpace_memory hcopy
    obtain ⟨t', hcopy', hforked⟩ := forked_of_copySpace (s := s.mem) hd hcr3 hfind hanswers hsupply
      hnull hlen hcount hacq hmem
    obtain rfl : t = t' := (Prod.mk.inj (Option.some.inj (hcopy.symm.trans hcopy'))).2
    have hchild := hcopies.child
    rw [PagedVm.spaces_withChild, Option.some.injEq] at hchild
    obtain rfl : a0.address = b := congrArg AddressSpace.pd hchild
    exact ⟨fun hpages => slotFree_of_copySpace hd hcr3 hfind hblock hfresh hpages hmem,
      (hforked.pages_iff hs ha hb).mp hcopies.pages⟩
  · rintro ⟨hslot, hastray⟩
    have hcard := (acquireMany_isSome_iff_of_ordered hd.ordered _).mp
      (Option.isSome_of_eq_some hacq)
    rw [hcount] at hcard
    obtain ⟨m', hmem⟩ := copySpace_ends hd hcr3 hfind hanswers hsupply hnn hlen.ge hslot hcard
    obtain ⟨t, hcopy, hforked⟩ := forked_of_copySpace (s := s.mem) hd hcr3 hfind hanswers hsupply
      hnull hlen hcount hacq hmem
    refine ⟨s.withChild a a0.address t, a0.address,
      PagedVm.sysFork_of_copied ha hfind halloc hnull hcopy, PagedVm.spaces_withChild ..,
      (hforked.pages_iff hs ha hb).mpr hastray, hforked.same, fun p hp => ?_⟩
    obtain ⟨hi, hj, hentry⟩ := entryOf_present hp
    exact hforked.other_bytes _ fun hmem' =>
      hb.used p hi hj hentry (hforked.takes.free _ hmem')

/-! ## A child of `init` -/

/-- The pages of `init`. -/
theorem bootedMemory_pages {answers : List Answer} {n j : Nat} (hn : n ≠ 263)
    (hne : (bootedMemory answers).words (n * pageSize) j ≠ 0) :
    (bootedMemory answers).words (n * pageSize) j = addFlag (4098 * pageSize) 0x7 ∨
      (bootedMemory answers).words (n * pageSize) j = addFlag (4099 * pageSize) 0x7 := by
  have hdir : n * pageSize ≠ 263 * pageSize := fun e =>
    hn (Nat.eq_of_mul_eq_mul_right (by decide) e)
  simp only [bootedMemory, if_neg hdir] at hne ⊢
  split_ifs at hne ⊢
  · exact Or.inl rfl
  · exact Or.inr rfl
  · exact absurd rfl hne
  · exact absurd rfl hne

/-- The page directory of `init` is backed. -/
theorem backed_bootedMemory (answers : List Answer) :
    Backed (bootedMemory answers) (263 * pageSize) where
  directory := directory_bootedMemory answers
  blocks x hx := by
    obtain ⟨n, hn, rfl⟩ := Finset.mem_image.mp hx
    have hlt := (Finset.mem_Ico.mp hn).2
    rw [userMemStart, pageSize]
    omega
  kernel f hf hfree := by
    have hzero := (mem_freeSet.mp hfree).2
    have hone : (bootedMemory answers).frames.refcount f = 1 := if_pos (by omega)
    omega
  used p _ _ hne hfree := by
    have hpde : (bootedMemory answers).words (263 * pageSize) p.1 ≠ 0 := fun e =>
      hne (entryOf_of_none e)
    obtain ⟨n, -, -, hn, hname, -⟩ := bootedMemory_tables hpde
    rw [entryOf_of_table hpde, hname] at hne hfree
    have hzero := (mem_freeSet.mp hfree).2
    rcases bootedMemory_pages hn hne with hword | hword
    · rw [hword] at hzero
      exact absurd (show bootedFrames.refcount _ = 0 from hzero) (by decide)
    · rw [hword] at hzero
      exact absurd (show bootedFrames.refcount _ = 0 from hzero) (by decide)

/-- `init`, with pages full of zeros, and the blocks that `memalign` is going to answer. -/
def bootedPaged (answers : List Answer) : PagedVm := ⟨bootedVm answers, fun _ _ => 0⟩

/-- The processes are accounted for. -/
theorem accounted_bootedVm (answers : List Answer) : Accounted (bootedVm answers) := by
  intro o c hc _
  by_cases ho : o = 2
  · subst ho
    have hself : (bootedVm answers).spaces 2 = some ⟨263 * pageSize, [], [], false, true⟩ := rfl
    rw [hself, Option.some.injEq] at hc
    subst hc
    exact backed_bootedMemory answers
  · have hnone : (bootedVm answers).spaces o = none := by simp [bootedVm, ho]
    rw [hnone] at hc
    cases hc

/-- The blocks for a child are such as `memalign` gives. -/
theorem supplied_childBlocks (x : Nat) :
    Supplied (bootedMemory (childBlocks x)).heap (childBlocks x) := by
  refine Or.inr ⟨isBlock_page (by decide) (by decide), ?_,
    Or.inr ⟨isBlock_page (by decide) (by decide), ?_, trivial⟩⟩
  · show 265 * pageSize ∉ (Finset.Ico 256 265).image (· * pageSize)
    decide
  · show 266 * pageSize ∉ insert (265 * pageSize) ((Finset.Ico 256 265).image (· * pageSize))
    decide

/-- `forkCopies_iff` for a fork of `init`. -/
theorem forkCopies_iff_booted :
    ∃ s' b, ForkCopies (bootedPaged (childBlocks 0)) s' ⟨263 * pageSize, [], [], false, true⟩
      b := by
  obtain ⟨⟨addresses, frames⟩, hacq, haddr⟩ := Option.map_eq_some_iff.mp
    (show (acquireMany 2 bootedFrames).map Prod.fst = some [4100 * pageSize, 4101 * pageSize] by
      decide +kernel)
  obtain rfl : addresses = [4100 * pageSize, 4101 * pageSize] := haddr
  obtain ⟨⟨i, j⟩, hfind, hentry⟩ := Option.map_eq_some_iff.mp
    (show (findFreeEntry (bootedMemory (childBlocks 0)) (263 * pageSize)).map
      (fun e => (e.pdIndex, e.ptIndex)) = some (1023, 0) by decide +kernel)
  obtain ⟨rfl, rfl⟩ : i = 1023 ∧ j = 0 := Prod.mk.inj hentry
  have hacq' : acquireMany [4100, 4101].length bootedFrames
      = some ([4100, 4101].map (· * pageSize), frames) := hacq
  have hanswers : (bootedPaged (childBlocks 0)).vm.memory.answers
      = ⟨265 * pageSize, fun k => if k = 5 then 0 else 0⟩ :: [⟨266 * pageSize, fun _ => 0⟩] := rfl
  have hspace : (bootedPaged (childBlocks 0)).vm.currentSpace
      = some ⟨263 * pageSize, [], [], false, true⟩ := rfl
  refine (forkCopies_iff ?_ hspace (by decide) rfl hfind hanswers ?_ ?_ ?_ ?_ hacq').mpr
    ⟨fun _ => ?_, ?_⟩
  · exact accounted_bootedVm _
  · exact supplied_childBlocks _
  · intro a ha
    rcases List.mem_cons.mp ha with rfl | ha
    · decide
    · rw [List.mem_singleton.mp ha]
      decide
  · exact (show 1 = _ by decide +kernel)
  · exact (show 2 = _ by decide +kernel)
  · exact ⟨by decide, by decide, by decide⟩
  · -- the blocks are full of zeros
    rintro ⟨q, w, hstrays, hname⟩
    have hled : ∀ {i x}, ¬ LedTo (bootedMemory (childBlocks 0)).words (263 * pageSize)
        ⟨265 * pageSize, fun k => if k = 5 then 0 else 0⟩ i x := fun h => h.stale (ite_self 0)
    cases hstrays with
    | @table i j a hgiven =>
        rw [List.mem_singleton.mp (List.of_mem_zip hgiven).2, frameNo_zero] at hname
        exact absurd hname (by decide)
    | directory h => exact hled h
    | shared h => exact hled h
    | again h => exact hled h
    | page h => exact hled h
    | other h => exact hled h

/-- **A stale word shares a frame**: the block of the child's page table contains the word of the
first new frame, which the child has at two pages then. -/
theorem stale_word_shares_frame : ¬ ∃ s' b, ForkCopies (bootedPaged
    [⟨265 * pageSize, fun _ => 0⟩, ⟨266 * pageSize, fun k => if k = 0 then 0x01004007 else 0⟩]) s'
      ⟨263 * pageSize, [], [], false, true⟩ b := by
  rintro ⟨s', b, h⟩
  have hdata : ((bootedPaged [⟨265 * pageSize, fun _ => 0⟩,
      ⟨266 * pageSize, fun k => if k = 0 then 0x01004007 else 0⟩]).sysFork).map (fun t =>
        ((t.1.vm.spaces 3).map AddressSpace.pd, t.1.mem.entryAt (265 * pageSize) (1023, 1022),
          t.1.mem.entryAt (265 * pageSize) (1023, 0)))
        = some (some (265 * pageSize), 0x01004007, 0x01004007) := by
    decide +kernel
  rw [h.call, Option.map_some, Option.some.injEq, Prod.mk.injEq, Prod.mk.injEq] at hdata
  obtain ⟨hspace, hfirst, hsecond⟩ := hdata
  have hchild := h.child
  obtain rfl : 265 * pageSize = b := by
    rw [show s'.vm.spaces 3 = _ from hchild, Option.map_some] at hspace
    exact (Option.some.inj hspace).symm
  obtain ⟨f, hcopied⟩ := h.pages (1023, 1022) (mem_presentPages.mpr
    ⟨mem_userTables.mpr (by decide), by decide, by decide, by decide⟩)
  -- the frame of the page is frame 4100
  have hf : frameNo (s'.mem.entryAt (265 * pageSize) (1023, 1022)) = f := by
    rw [hcopied.entry]
    exact frameNo_addFlag (mem_freeSet.mp hcopied.free).1 (getFlag_lt _)
  rw [hfirst] at hf
  have huses : s'.Uses 3 (1023, 0) f :=
    ⟨_, hchild, by decide, by decide, by decide, by rw [hsecond]; decide, by rw [hsecond]; exact hf⟩
  exact absurd (hcopied.only _ _ huses).2 (by decide)

end Pebbles.Memory
