import Pebbles.Memory.SpaceSteps

/-! # Boot

`mm_init` sets the two ledgers up: the kernel owns its page directory, its four page tables and
the first 4096 frames. From there `process_create` adds `idle` and `init`, and the state in which
`init` starts to run is sound.

* `FrameTable.FreeFrom` — the frame table while nothing was ever given back.
* `Owned.mmInit` — the ledgers after `mm_init`.
* `sound_boot` — the state at the end of the boot. -/

namespace Pebbles.Memory

open Loop

/-! ## A frame table from which frames were only taken -/

/-- The first `n` frames are handed out, and `free_frame` points to the next one. -/
structure FrameTable.FreeFrom (t : FrameTable) (n : Nat) : Prop where
  /-- The allocator is sound. -/
  ok : t.Ok
  /-- The next frame to be handed out. -/
  pointer : t.freeFrame = some n
  /-- The frames below are in use, the others are free. -/
  counts : ∀ f, t.refcount f = if f < n then 1 else 0

/-- The table after `init_free_frame`. -/
theorem freeFrom_initFreeFrame : (initFreeFrame totalPhysFrames).FreeFrom 0 :=
  ⟨ok_initFreeFrame, rfl, fun f => by simp [initFreeFrame, FrameTable.refcount]⟩

section
variable {t : FrameTable} {n : Nat}

/-- **The next frame is handed out**, as long as it is not the last one. -/
theorem FrameTable.FreeFrom.acquire (h : t.FreeFrom n) (hn : n + 1 < totalPhysFrames) :
    ∃ t', acquireFreeFrame t = some (n * pageSize, t') ∧ t'.FreeFrom (n + 1) := by
  have hzero : t.refcount n = 0 := by rw [h.counts, if_neg (by omega)]
  let t1 := t.setRefcount n 1
  have hcount : ∀ f, t1.refcount f = if f < n + 1 then 1 else 0 := by
    intro f
    rw [refcount_setRefcount, h.counts]
    split <;> split <;> (try split) <;> omega
  have hseek : t1.seek totalPhysFrames (some n) = some (n + 1) := by
    refine (seek_eq_some_iff (h.ok.chained.setRefcount n 1) (by omega)).mpr
      ⟨by omega, hn, ?_, fun j hj hlt => ?_⟩
    · rw [hcount, if_neg (by omega)]
    · rw [hcount, if_pos hlt]
      decide
  have hacq : acquireFreeFrame t = some (n * pageSize,
      { t1 with freeFrame := some (n + 1), freeFrameNum := t1.freeFrameNum - 1 }) := by
    simp only [acquireFreeFrame, h.pointer, hzero, Nat.zero_add]
    rw [show (1 % 2 ^ 32 : Nat) = 1 from rfl, hseek]
    rfl
  exact ⟨_, hacq, h.ok.acquire hacq, rfl, hcount⟩

/-- The frames in use are the first `n`. -/
theorem FrameTable.FreeFrom.inUse_iff (h : t.FreeFrom n) (hn : n ≤ totalPhysFrames) (f : Nat) :
    t.InUse f ↔ f < n := by
  rw [FrameTable.InUse, h.counts]
  split <;> simp <;> omega

end

/-! ## `mm_init` -/

/-- The inner loop of `mm_init`, which fills the page table `currentPt`. -/
def fillTable (m : PhysMem) (currentPt : Nat) : Option PhysMem :=
  (List.range pageLen).foldlM (fun m j =>
    (acquireFreeFrame m.frames).map fun (k, frames) =>
      (m.setFrames frames).write currentPt j (addFlag k 0x103)) m

/-- The page table gets the next frames. -/
theorem fillTable_eq {m : PhysMem} {b n : Nat} (h : m.frames.FreeFrom n)
    (hn : n + pageLen < totalPhysFrames) :
    ∃ frames words, fillTable m b = some { m with frames := frames, words := words } ∧
      frames.FreeFrom (n + pageLen) ∧
      ∀ b' j, words b' j
        = if b' = b ∧ j < pageLen then addFlag ((n + j) * pageSize) 0x103 else m.words b' j := by
  obtain ⟨m', hloop, frames, words, rfl, hfree, hwords⟩ := foldlM_range_total
    (f := fun m j => (acquireFreeFrame m.frames).map fun (k, frames) =>
      (m.setFrames frames).write b j (addFlag k 0x103))
    (I := fun k m' => ∃ frames words, m' = { m with frames := frames, words := words } ∧
      frames.FreeFrom (n + k) ∧ ∀ b' j, words b' j
        = if b' = b ∧ j < k then addFlag ((n + j) * pageSize) 0x103 else m.words b' j)
    pageLen (s := m) ⟨m.frames, m.words, rfl, h, fun b' j => by simp⟩ (by
      rintro k hk u ⟨frames, words, rfl, hfree, hwords⟩
      obtain ⟨frames', hacq, hfree'⟩ := hfree.acquire (by omega)
      let v := (({ m with frames := frames, words := words } : PhysMem).setFrames frames').write b k
        (addFlag ((n + k) * pageSize) 0x103)
      have hbody : (acquireFreeFrame frames).map (fun (k', frames) =>
          (({ m with frames := frames, words := words } : PhysMem).setFrames frames).write b k
            (addFlag k' 0x103)) = some v := by
        rw [hacq]
        rfl
      refine ⟨v, hbody, frames', v.words, rfl, hfree', fun b' j => ?_⟩
      rw [PhysMem.write_words]
      show (if b' = b ∧ j = k then addFlag ((n + k) * pageSize) 0x103 else words b' j) = _
      rw [hwords]
      by_cases hb : b' = b
      · rcases Nat.lt_trichotomy j k with hj | rfl | hj
        · simp [hb, hj, hj.ne, Nat.lt_succ_of_lt hj]
        · simp [hb]
        · simp [hb, hj.ne', Nat.not_lt.mpr hj.le, show ¬ j < k + 1 by omega]
      · simp [hb])
  exact ⟨frames, words, hloop, hfree, hwords⟩

/-- The body of the outer loop of `mm_init`. -/
def kernelTable (kernPd : Nat) (m : PhysMem) (i : Nat) : Option PhysMem :=
  m.memalign.bind fun (currentPt, m) =>
    (fillTable m currentPt).map fun m => m.write kernPd i (addFlag currentPt 0x107)

/-- `mm_init` after `n` rounds of its outer loop. -/
structure Booting (kernPd n : Nat) (m : PhysMem) : Prop where
  /-- The first `1024 * n` frames are handed out. -/
  frames : m.frames.FreeFrom (pageLen * n)
  /-- The page directory is a block. -/
  directory : IsBlock kernPd
  /-- The blocks in use. -/
  heap : ∀ b, b ∈ m.heap ↔ b = kernPd ∨ ∃ i < n, b = deflagAddr (m.words kernPd i)
  /-- The entries made so far. -/
  entry : ∀ i < n, m.words kernPd i ≠ 0 ∧ IsBlock (deflagAddr (m.words kernPd i)) ∧
    deflagAddr (m.words kernPd i) ≠ kernPd
  /-- They hold different page tables. -/
  distinct : ∀ i < n, ∀ j < n,
    deflagAddr (m.words kernPd i) = deflagAddr (m.words kernPd j) → i = j
  /-- The page tables map the frames in order. -/
  full : ∀ i < n, ∀ j < pageLen, m.words (deflagAddr (m.words kernPd i)) j
    = addFlag ((pageLen * i + j) * pageSize) 0x103
  /-- The register `cr3`. -/
  cr3 : m.cr3 = kernPd

/-- One round, given the block. -/
theorem Booting.round {kernPd n b : Nat} {m m1 : PhysMem} {contents : Nat → Nat}
    (h : Booting kernPd n m) (hn : n < 4) (halloc : m.memalign = some (b, m1))
    (hframes : m1.frames = m.frames) (hcr3 : m1.cr3 = m.cr3) (hblock : IsBlock b)
    (hfresh : b ∉ m.heap) (hheap : m1.heap = insert b m.heap)
    (hwords : m1.words = Function.update m.words b contents) :
    ∃ m', kernelTable kernPd m n = some m' ∧ Booting kernPd (n + 1) m' ∧
      m'.answers = m1.answers ∧ m'.heap = insert b m.heap ∧
      deflagAddr (m'.words kernPd n) = b ∧ ∀ i < n, m'.words kernPd i = m.words kernPd i := by
  have hne : b ≠ kernPd := fun e => hfresh ((h.heap b).mpr (Or.inl e))
  have hfree : m1.frames.FreeFrom (pageLen * n) := hframes ▸ h.frames
  obtain ⟨frames, words, hloop, hfilled, hnew⟩ := fillTable_eq (b := b) hfree
    (by rw [pageLen, totalPhysFrames]; omega)
  have hentry := addFlag_block hblock (f := 0x107) (by decide)
  let m' := ({ m1 with frames := frames, words := words } : PhysMem).write kernPd n
    (addFlag b 0x107)
  have hself : m'.words kernPd n = addFlag b 0x107 := by
    rw [PhysMem.write_words, if_pos ⟨rfl, rfl⟩]
  -- the blocks that were there before keep what is read of them
  have hold : ∀ b' k, b' ≠ b → ¬ (b' = kernPd ∧ k = n) → m'.words b' k = m.words b' k := by
    intro b' k hb hk
    rw [PhysMem.write_words, if_neg hk]
    show words b' k = _
    rw [hnew, if_neg fun e => hb e.1, hwords, Function.update_of_ne hb]
  have hpd : ∀ i < n, m'.words kernPd i = m.words kernPd i :=
    fun i hi => hold kernPd i hne.symm fun e => by omega
  have htable : ∀ i < n, deflagAddr (m.words kernPd i) ≠ b :=
    fun i hi e => hfresh ((h.heap b).mpr (Or.inr ⟨i, hi, e.symm⟩))
  refine ⟨m', ?_, ⟨hfilled, h.directory, fun b' => ?_, fun i hi => ?_, fun i hi j hj => ?_,
    fun i hi j hj => ?_, hcr3.trans h.cr3⟩, rfl, hheap, by rw [hself, hentry.2], hpd⟩
  · simp only [kernelTable, halloc, Option.bind_some, hloop, Option.map_some, m']
  · show b' ∈ m1.heap ↔ _
    rw [hheap, Finset.mem_insert, h.heap]
    constructor
    · rintro (rfl | rfl | ⟨i, hi, rfl⟩)
      · exact Or.inr ⟨n, Nat.lt_succ_self n, by rw [hself, hentry.2]⟩
      · exact Or.inl rfl
      · exact Or.inr ⟨i, Nat.lt_succ_of_lt hi, by rw [hpd i hi]⟩
    · rintro (rfl | ⟨i, hi, rfl⟩)
      · exact Or.inr (Or.inl rfl)
      · rcases Nat.lt_succ_iff_lt_or_eq.mp hi with hi | rfl
        · exact Or.inr (Or.inr ⟨i, hi, by rw [hpd i hi]⟩)
        · exact Or.inl (by rw [hself, hentry.2])
  · rcases Nat.lt_succ_iff_lt_or_eq.mp hi with hi | rfl
    · rw [hpd i hi]
      exact h.entry i hi
    · rw [hself, hentry.2]
      exact ⟨hentry.1, hblock, hne⟩
  · rcases Nat.lt_succ_iff_lt_or_eq.mp hi with hi | rfl <;>
      rcases Nat.lt_succ_iff_lt_or_eq.mp hj with hj | rfl
    · rw [hpd i hi, hpd j hj]
      exact h.distinct i hi j hj
    · rw [hpd i hi, hself, hentry.2]
      exact fun e => absurd e (htable i hi)
    · rw [hpd j hj, hself, hentry.2]
      exact fun e => absurd e.symm (htable j hj)
    · exact fun _ => rfl
  · rcases Nat.lt_succ_iff_lt_or_eq.mp hi with hi | rfl
    · rw [hpd i hi, hold _ j (htable i hi) fun e => (h.entry i hi).2.2 e.1]
      exact h.full i hi j hj
    · rw [hself, hentry.2, PhysMem.write_words, if_neg fun e => hne e.1]
      show words b j = _
      rw [hnew, if_pos ⟨rfl, hj⟩]

/-- The blocks of the kernel: its page tables and its page directory. -/
def kernelBlocksOf (m : PhysMem) (kernPd i : Nat) : Nat :=
  if i = 4 then kernPd else deflagAddr (m.words kernPd i)

/-- **The ledgers after `mm_init`.** -/
theorem Booting.owned {kernPd : Nat} {m : PhysMem} (h : Booting kernPd 4 m) :
    Owned (kernelBlocksOf m kernPd) m fun _ : Owner => none := by
  have htable : ∀ i < 4, kernelBlocksOf m kernPd i = deflagAddr (m.words kernPd i) :=
    fun i hi => by rw [kernelBlocksOf, if_neg (by omega)]
  have hblock : ∀ k b, blockAt (kernelBlocksOf m kernPd) m.words (fun _ : Owner => none) k = some b →
      ∃ i < 5, k = .kernel i ∧ b = kernelBlocksOf m kernPd i := by
    intro k b hk
    cases k with
    | kernel i =>
        simp only [blockAt] at hk
        split at hk
        · next hi => exact ⟨i, hi, rfl, (Option.some.inj hk).symm⟩
        · cases hk
    | dir o => cases hk
    | table o i => simp [blockAt, tableAt] at hk
  have hinj : ∀ i < 5, ∀ j < 5, kernelBlocksOf m kernPd i = kernelBlocksOf m kernPd j → i = j := by
    intro i hi j hj heq
    simp only [kernelBlocksOf] at heq
    split at heq <;> split at heq
    · omega
    · exact absurd heq.symm (h.entry j (by omega)).2.2
    · exact absurd heq (h.entry i (by omega)).2.2
    · exact h.distinct i (by omega) j (by omega) heq
  have hframes : m.frames.FreeFrom 4096 := h.frames
  refine ⟨hframes.ok, ⟨fun {k l b} hk hl => ?_, fun b => ?_⟩, fun b hb => ?_,
    ⟨fun {k l f} hk hl => ?_, fun f => ?_⟩, fun _ _ hd => (by cases hd), fun i hi j hj => ?_⟩
  · obtain ⟨i, hi, rfl, rfl⟩ := hblock k b hk
    obtain ⟨j, hj, rfl, heq⟩ := hblock l _ hl
    rw [hinj i hi j hj heq]
  · rw [h.heap]
    constructor
    · rintro (rfl | ⟨i, hi, rfl⟩)
      · exact ⟨.kernel 4, by simp [blockAt, kernelBlocksOf]⟩
      · refine ⟨.kernel i, ?_⟩
        rw [blockAt, if_pos (by omega), htable i hi]
    · rintro ⟨k, hk⟩
      obtain ⟨i, hi, -, rfl⟩ := hblock k b hk
      by_cases h4 : i = 4
      · exact Or.inl (by rw [kernelBlocksOf, if_pos h4])
      · exact Or.inr ⟨i, by omega, htable i (by omega)⟩
  · rcases (h.heap b).mp hb with rfl | ⟨i, hi, rfl⟩
    · exact h.directory
    · exact (h.entry i hi).2.1
  · cases k with
    | user o i j => simp [pageAt, frameAt, tableAt] at hk
    | kernel n =>
        cases l with
        | user o i j => simp [pageAt, frameAt, tableAt] at hl
        | kernel n' =>
            simp only [pageAt] at hk hl
            split at hk <;> split at hl
            · rw [Option.some.inj hk, Option.some.inj hl]
            · cases hl
            · cases hk
            · cases hk
  · rw [hframes.inUse_iff (by decide)]
    constructor
    · intro hf
      exact ⟨.kernel f, by rw [pageAt, if_pos hf]⟩
    · rintro ⟨k, hk⟩
      cases k with
      | user o i j => simp [pageAt, frameAt, tableAt] at hk
      | kernel n =>
          simp only [pageAt] at hk
          split at hk
          · next hn => rwa [← Option.some.inj hk]
          · cases hk
  · rw [htable i hi, h.full i hi j hj, addFlag_eq (Nat.mul_mod_left ..) (by decide)]
    omega

/-- `mm_init` before its loop. -/
theorem Booting.start {m m1 : PhysMem} {kernPd : Nat} (hm : m.heap = ∅) (hblock : IsBlock kernPd)
    (hframes : m1.frames = initFreeFrame totalPhysFrames)
    (hheap : m1.heap = insert kernPd m.heap) : Booting kernPd 0 (m1.setCr3 kernPd) where
  frames := by
    show m1.frames.FreeFrom 0
    rw [hframes]
    exact freeFrom_initFreeFrame
  directory := hblock
  heap b := by
    show b ∈ m1.heap ↔ _
    rw [hheap, hm]
    simp
  entry i hi := by omega
  distinct i hi := by omega
  full i hi := by omega
  cr3 := rfl

/-- **The rule of `mm_init`.** -/
theorem Owned.mmInit {m m' : PhysMem} (hm : m.heap = ∅) (hnn : NonNull m.answers)
    (call : mmInit m = some m') :
    ∃ kernPd, m'.cr3 = kernPd ∧ Booting kernPd 4 m' ∧ m'.answers <:+ m.answers := by
  obtain ⟨⟨kernPd, m1⟩, halloc, hloop⟩ := Option.bind_eq_some_iff.mp call
  obtain ⟨answer, -, hsuffix, hframes, -, hblock, -, hheap, -⟩ :=
    memalign_nonNull (m := m.setFrames (initFreeFrame totalPhysFrames)) hnn halloc
  have hstart : Booting kernPd 0 (m1.setCr3 kernPd) := .start hm hblock hframes hheap
  have hend := foldlM_range (f := kernelTable kernPd)
    (I := fun n m' => Booting kernPd n m' ∧ m'.answers <:+ m.answers) hloop ⟨hstart, hsuffix⟩ (by
      rintro n hn u v ⟨hu, hleft⟩ hbody
      obtain ⟨⟨b, u1⟩, hu1, -⟩ := Option.bind_eq_some_iff.mp hbody
      obtain ⟨answer', -, hsuffix', hframes', hcr3', hblock', hfresh', hheap', hwords'⟩ :=
        memalign_nonNull (hnn.suffix hleft) hu1
      obtain ⟨v', hv', hnext, hanswers, -, -, -⟩ :=
        hu.round hn hu1 hframes' hcr3' hblock' hfresh' hheap' hwords'
      obtain rfl : v' = v := Option.some.inj (hv'.symm.trans hbody)
      exact ⟨hnext, hanswers ▸ hsuffix'.trans hleft⟩)
  exact ⟨kernPd, hend.1.cr3, hend⟩

/-! ## `process_create` -/

/-- A process as `process_create` makes it, with the pages of a program. -/
def Vm.Newborn (s : Vm) (p : Nat) (a : AddressSpace) : Prop :=
  a.va = [] ∧ a.children = [] ∧ a.exited = false ∧ a.scheduled = true ∧ a.pd ≠ 0 ∧
    ∃ header, ∀ i j, (s.frame [] (.process p) i j).isSome ↔ (i, j) ∈ loaderRange header ∧ 4 ≤ i

/-- **The invariant of the boot**: the ledgers balance, `cr3` points to a page directory with the
entries of the kernel, and all processes are new. -/
structure Prepared (kernelBlocks : Nat → Nat) (s : Vm) : Prop where
  /-- The ledgers balance. -/
  owned : Owned kernelBlocks s.memory (s.dirs [])
  /-- The page directory in use is a block. -/
  cr3_mem : s.memory.cr3 ∈ s.memory.heap
  /-- It has the entries of the kernel. -/
  cr3_entries : KernelEntries kernelBlocks s.memory.words s.memory.cr3
  /-- All processes are new. -/
  newborn : ∀ {p a}, s.spaces p = some a → s.Newborn p a
  /-- The next pids are unused. -/
  fresh : ∀ {p}, s.nextPid ≤ p → s.spaces p = none

section
variable {kernelBlocks : Nat → Nat} {s s' : Vm}

/-- **The rule of `process_create`.** -/
theorem Prepared.processCreate (h : Prepared kernelBlocks s) (hnn : NonNull s.memory.answers)
    {header : ElfHeader} (call : s.processCreate header = some s') :
    Prepared kernelBlocks s' ∧ Sound kernelBlocks [] s' ∧
      s'.memory.answers <:+ s.memory.answers := by
  obtain ⟨⟨pd, m1⟩, hinit, hrest⟩ := Option.bind_eq_some_iff.mp call
  obtain ⟨m, hload, rfl⟩ := Option.map_eq_some_iff.mp hrest
  have hnone : s.dirs [] (.process s.nextPid) = none := by
    simp [Vm.dirs, h.fresh (Nat.le_refl s.nextPid)]
  obtain ⟨howned, hpd, hcr3, hsuffix, hothers, hloaded⟩ :=
    h.owned.newImage hnone h.cr3_mem h.cr3_entries hnn hinit hload
  let s' : Vm := { ({ s with nextPid := s.nextPid + 1 }.setMemory m).setSpace s.nextPid
    ⟨pd, [], [], false, true⟩ with current := s.nextPid }
  have hdirs : s'.dirs [] = Function.update (s.dirs []) (.process s.nextPid) (some pd) := by
    have hup : s'.dirs [] = Function.update (s.dirs []) (.process s.nextPid)
        (if pd = 0 then none else some pd) := Vm.dirs_update (b := ⟨pd, [], [], false, true⟩) rfl
    rw [hup, if_neg hpd]
  have howned' : Owned kernelBlocks s'.memory (s'.dirs []) := by
    rw [hdirs]
    exact howned
  have hdir : s'.dirs [] (.process s.nextPid) = some pd := by rw [hdirs, Function.update_self]
  have hborn : ∀ {p a}, s'.spaces p = some a → s'.Newborn p a := by
    intro p a ha
    by_cases hp : p = s.nextPid
    · subst hp
      obtain rfl : (⟨pd, [], [], false, true⟩ : AddressSpace) = a := by
        simpa [s', Vm.setSpace] using ha
      refine ⟨rfl, rfl, rfl, rfl, hpd, header, fun i j => ?_⟩
      rw [Vm.frame, hdirs]
      exact hloaded i j
    · have hold : s.spaces p = some a := by
        simpa [s', Vm.setSpace, Vm.setMemory, hp] using ha
      obtain ⟨hva, hchildren, hexit, hsched, hne, header', hpages⟩ := h.newborn hold
      refine ⟨hva, hchildren, hexit, hsched, hne, header', fun i j => ?_⟩
      rw [Vm.frame, hdirs]
      show (frameAt m.words _ _ i j).isSome ↔ _
      rw [hothers _ i j (by simpa using hp)]
      exact hpages i j
  have hfresh : ∀ {p}, s'.nextPid ≤ p → s'.spaces p = none := by
    intro p hp
    have hlt : s.nextPid < p := hp
    have hnone := h.fresh (p := p) (by omega)
    simpa [s', Vm.setSpace, Vm.setMemory, hlt.ne'] using hnone
  refine ⟨⟨howned', ?_, ?_, hborn, hfresh⟩, ⟨howned', ⟨⟨pd, [], [], false, true⟩, ?_, rfl, rfl, ?_⟩,
    fun ha _ => (hborn ha).2.2.2.2.1, fun ha _ => (hborn ha).2.2.2.1, hfresh⟩, hsuffix⟩
  · show m.cr3 ∈ m.heap
    rw [hcr3]
    exact howned'.dir_mem hdir
  · show KernelEntries kernelBlocks m.words m.cr3
    rw [hcr3]
    exact howned'.kernel_entry _ _ hdir
  · exact Function.update_self ..
  · exact hcr3

/-- The kernel after `mm_init`, before there is a process. -/
theorem Booting.prepared {kernPd : Nat} {m : PhysMem} (h : Booting kernPd 4 m) (n : Nat) :
    Prepared (kernelBlocksOf m kernPd) ⟨m, fun _ => none, 0, n⟩ where
  owned := by
    have hdirs : Vm.dirs ⟨m, fun _ => none, 0, n⟩ [] = fun _ => none := by
      funext o
      cases o <;> rfl
    rw [hdirs]
    exact h.owned
  cr3_mem := (h.heap _).mpr (Or.inl h.cr3)
  cr3_entries i hi := by
    show m.words m.cr3 i ≠ 0 ∧ deflagAddr (m.words m.cr3 i) = _
    rw [h.cr3, kernelBlocksOf, if_neg (by omega)]
    exact ⟨(h.entry i hi).1, rfl⟩
  newborn ha := by cases ha
  fresh _ := rfl

/-- **The boot leads to a sound state** with new processes, when `memalign` answers no `NULL`. -/
theorem prepared_boot {idle init : ElfHeader} {answers : List Answer} (hnn : NonNull answers)
    (call : boot idle init answers = some s) :
    ∃ kernelBlocks, Sound kernelBlocks [] s ∧ Prepared kernelBlocks s := by
  obtain ⟨m, hm, hidle⟩ := Option.bind_eq_some_iff.mp call
  obtain ⟨s1, hs1, hinit⟩ := Option.bind_eq_some_iff.mp hidle
  obtain ⟨s2, hs2, hend⟩ := Option.bind_eq_some_iff.mp hinit
  obtain ⟨kernPd, -, hbooting, hsuffix⟩ := Owned.mmInit (m := rawMemory answers) rfl hnn hm
  obtain ⟨hprepared1, -, hsuffix1⟩ := (hbooting.prepared 1).processCreate (hnn.suffix hsuffix) hs1
  obtain ⟨hprepared2, hsound, -⟩ :=
    hprepared1.processCreate (hnn.suffix (hsuffix1.trans hsuffix)) hs2
  split at hend
  · obtain rfl := Option.some.inj hend
    exact ⟨_, hsound, hprepared2⟩
  · cases hend

end

end Pebbles.Memory
