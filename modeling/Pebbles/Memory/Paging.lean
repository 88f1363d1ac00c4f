import Pebbles.Library.Loops
import Pebbles.Memory.Ownership

/-! # The routines keep the account

One rule for each routine of `vm_routines.c`: from the ownership invariant it leads to the
ownership invariant, and it says what becomes of each user entry. The rules assume what the
routines do not check, that `memalign` answers no `NULL`.

* `Owned.virtualMapPhysical`, `Owned.virtualUnmapPhysical` — one page.
* `Owned.allocatePages`, `Owned.freePages` — a range of pages.
* `Owned.initPd`, `Owned.destroyPageDirectory` — a whole address space. -/

namespace Pebbles.Memory

open Loop

/-- No answer of `memalign` is `NULL`. -/
def NonNull (answers : List Answer) : Prop := ∀ a ∈ answers, a.address ≠ 0

/-- All blocks `memalign` hands out are filled with zeros. -/
def ZeroFilled (answers : List Answer) : Prop := ∀ a ∈ answers, ∀ k, a.contents k = 0

section
variable {ω : Type*} {kernelBlocks : Nat → Nat} {m m' m'' : PhysMem} {dirs : ω → Option Nat}
  {o : ω} {d i j t b v : Nat}

/-- **What every routine keeps**: the invariant and `cr3`; answers are only used up. -/
structure Evolves (kernelBlocks : Nat → Nat) (dirs : ω → Option Nat) (m m' : PhysMem) : Prop where
  /-- The ownership invariant holds afterwards. -/
  owned : Owned kernelBlocks m' dirs
  /-- The page directory in use is the same. -/
  cr3 : m'.cr3 = m.cr3
  /-- The answers left are the last ones. -/
  answers : m'.answers <:+ m.answers

theorem Evolves.refl (h : Owned kernelBlocks m dirs) : Evolves kernelBlocks dirs m m :=
  ⟨h, rfl, List.suffix_refl _⟩

theorem Evolves.trans (h : Evolves kernelBlocks dirs m m')
    (h' : Evolves kernelBlocks dirs m' m'') : Evolves kernelBlocks dirs m m'' :=
  ⟨h'.owned, h'.cr3.trans h.cr3, h'.answers.trans h.answers⟩

theorem NonNull.suffix {as bs : List Answer} (h : NonNull as) (hs : bs <:+ as) : NonNull bs :=
  fun a ha => h a (hs.subset ha)

theorem ZeroFilled.suffix {as bs : List Answer} (h : ZeroFilled as) (hs : bs <:+ as) :
    ZeroFilled bs :=
  fun a ha => h a (hs.subset ha)

/-! ## `memalign` -/

/-- **What `memalign` does**: it answers `NULL`, or a fresh block with whatever is in it. -/
theorem memalign_cases (call : m.memalign = some (b, m')) :
    ∃ answer ∈ m.answers, answer.address = b ∧ m'.answers <:+ m.answers ∧ m'.frames = m.frames ∧
      m'.cr3 = m.cr3 ∧
      ((b = 0 ∧ m'.words = m.words ∧ m'.heap = m.heap) ∨
        (IsBlock b ∧ b ∉ m.heap ∧ m'.heap = insert b m.heap ∧
          m'.words = Function.update m.words b answer.contents)) := by
  unfold PhysMem.memalign at call
  split at call
  · cases call
  · next answer rest hanswers =>
      have hmem : answer ∈ m.answers := by rw [hanswers]; exact List.mem_cons_self
      have hsuffix : rest <:+ m.answers := by rw [hanswers]; exact List.suffix_cons _ _
      split at call
      · next hnull =>
          obtain ⟨rfl, rfl⟩ := Prod.mk.inj (Option.some.inj call)
          exact ⟨answer, hmem, hnull, hsuffix, rfl, rfl, Or.inl ⟨rfl, rfl, rfl⟩⟩
      · next hnull =>
          split at call
          · next hgood =>
              obtain ⟨rfl, rfl⟩ := Prod.mk.inj (Option.some.inj call)
              exact ⟨answer, hmem, rfl, hsuffix, rfl, rfl,
                Or.inr ⟨⟨hnull, hgood.1, hgood.2.1⟩, hgood.2.2, rfl, rfl⟩⟩
          · cases call

/-- `memalign` takes the first answer. -/
theorem memalign_answers (call : m.memalign = some (b, m')) :
    ∃ answer, m.answers = answer :: m'.answers ∧ answer.address = b := by
  unfold PhysMem.memalign at call
  split at call
  · cases call
  · next answer rest hanswers =>
      refine ⟨answer, ?_⟩
      split at call
      · next hnull =>
          obtain ⟨rfl, rfl⟩ := Prod.mk.inj (Option.some.inj call)
          exact ⟨hanswers, hnull⟩
      · split at call
        · obtain ⟨rfl, rfl⟩ := Prod.mk.inj (Option.some.inj call)
          exact ⟨hanswers, rfl⟩
        · cases call

/-- `memalign` with an answer that is not `NULL`. -/
theorem memalign_nonNull (hnn : NonNull m.answers) (call : m.memalign = some (b, m')) :
    ∃ answer ∈ m.answers, m'.answers <:+ m.answers ∧ m'.frames = m.frames ∧ m'.cr3 = m.cr3 ∧
      IsBlock b ∧ b ∉ m.heap ∧ m'.heap = insert b m.heap ∧
      m'.words = Function.update m.words b answer.contents := by
  obtain ⟨answer, hmem, haddr, hsuffix, hframes, hcr3, ⟨rfl, -⟩ | hblock⟩ := memalign_cases call
  · exact absurd haddr (hnn answer hmem)
  · exact ⟨answer, hmem, hsuffix, hframes, hcr3, hblock⟩

/-! ## Flags -/

/-- A page address with flags is not 0 and holds the address. -/
theorem addFlag_block (hb : IsBlock b) {f : Nat} (hf : f < pageSize) :
    addFlag b f ≠ 0 ∧ deflagAddr (addFlag b f) = b := by
  obtain ⟨hne, hmod, hlt⟩ := hb
  rw [userMemStart] at hlt
  refine ⟨?_, deflagAddr_addFlag hmod (by omega) hf⟩
  rw [addFlag_eq hmod hf]
  omega

/-- The entry written for a frame address maps this frame. -/
theorem frameOf_addFlag {f flag : Nat} (hpos : 0 < f) (hf : f < totalPhysFrames)
    (hflag : flag < pageSize) : frameOf (addFlag (f * pageSize) flag) = some f := by
  rw [totalPhysFrames] at hf
  rw [pageSize] at *
  have hmod : f * 4096 % pageSize = 0 := by rw [pageSize]; omega
  rw [frameOf_eq_some, pageSize]
  refine ⟨?_, deflagAddr_addFlag hmod (by omega) hflag⟩
  rw [addFlag_eq hmod hflag]
  omega

/-! ## One page -/

/-- The entry of the kernel's page tables are all taken. -/
theorem Owned.virtualMapPhysical_kernel (h : Owned kernelBlocks m dirs) (hd : dirs o = some d)
    (hi : i < 4) (hj : j < pageLen) : virtualMapPhysical m d i j = some (-1, m) := by
  obtain ⟨hne, hdef⟩ := h.kernel_entry o d hd i hi
  have hfull := h.kernel_full i hi j hj
  have hlt : i < pageLen := by rw [pageLen]; omega
  simp only [virtualMapPhysical, hlt, if_true, ne_eq, hne, not_false_eq_true, hdef, hfull, if_false]

/-- What happens to the user entries when the entry `i`, `j` of `o` gets a page. -/
structure Maps (dirs : ω → Option Nat) (words words' : Nat → Nat → Nat) (o : ω) (i j : Nat) :
    Prop where
  /-- The entry maps a page now. -/
  mapped : ∃ f, frameAt words' dirs o i j = some f
  /-- What was mapped stays mapped to the same frame. -/
  kept : ∀ {o' i' j' f}, frameAt words dirs o' i' j' = some f →
    frameAt words' dirs o' i' j' = some f
  /-- Nothing else is mapped. -/
  only : ∀ {o' i' j'}, ¬ (o' = o ∧ i' = i ∧ j' = j) →
    frameAt words' dirs o' i' j' = frameAt words dirs o' i' j'

/-- The frame `acquire_free_frame` hands out is none of the first 4096. -/
theorem Owned.acquire_user (h : Owned kernelBlocks m dirs) {address : Nat} {frames : FrameTable}
    (hacq : acquireFreeFrame m.frames = some (address, frames)) :
    ∃ f, 4096 ≤ f ∧ f < totalPhysFrames ∧ address = f * pageSize := by
  obtain ⟨f, hlt, hf, hfree, -⟩ := inUse_acquire h.frames_ok hacq
  refine ⟨f, ?_, hlt, hf⟩
  by_contra hlow
  exact hfree (h.kernel_frame (by omega))

variable [DecidableEq ω]

/-- The user entries after a page-table entry was written. -/
theorem Owned.frameAt_writePage (h : Owned kernelBlocks m dirs)
    (ht : tableAt m.words dirs o i = some t) (hj : j < pageLen) (o' : ω) (i' j' : Nat) :
    frameAt (m.write t j v).words dirs o' i' j'
      = if o' = o ∧ i' = i ∧ j' = j then frameOf v else frameAt m.words dirs o' i' j' := by
  have hpage := congrFun (h.pageAt_writePage (v := v) ht hj) (PageKey.user o' i' j')
  rw [Function.update_apply] at hpage
  by_cases hk : o' = o ∧ i' = i ∧ j' = j
  · obtain ⟨rfl, rfl, rfl⟩ := hk
    simpa [pageAt] using hpage
  · rw [if_neg (by simpa using hk)] at hpage
    rw [if_neg hk]
    exact hpage

/-- A free frame that is mapped at a free entry. -/
theorem Owned.maps_writePage (h : Owned kernelBlocks m dirs)
    (ht : tableAt m.words dirs o i = some t) (hj : j < pageLen)
    (hnone : frameAt m.words dirs o i j = none) {f : Nat} (hv : frameOf v = some f) :
    Maps dirs m.words (m.write t j v).words o i j where
  mapped := ⟨f, by rw [h.frameAt_writePage ht hj, if_pos ⟨rfl, rfl, rfl⟩, hv]⟩
  kept := by
    intro o' i' j' f' hf'
    rw [h.frameAt_writePage ht hj, if_neg, hf']
    rintro ⟨rfl, rfl, rfl⟩
    rw [hnone] at hf'
    cases hf'
  only := by
    intro o' i' j' hk
    rw [h.frameAt_writePage ht hj, if_neg hk]

/-- **`virtual_map_physical` at an entry of a page table that exists.** -/
theorem Owned.virtualMapPhysical_table (h : Owned kernelBlocks m dirs) (hd : dirs o = some d)
    (ht : tableAt m.words dirs o i = some t) (hj : j < pageLen) {r : Int}
    (call : virtualMapPhysical m d i j = some (r, m')) :
    Evolves kernelBlocks dirs m m' ∧ Maps dirs m.words m'.words o i j ∧
      ((r = -1 ∧ m.words t j ≠ 0 ∧ m' = m) ∨
        (r = 0 ∧ m.words t j = 0 ∧ ∃ f frames, 4096 ≤ f ∧ f < totalPhysFrames ∧
          acquireFreeFrame m.frames = some (f * pageSize, frames) ∧
          m' = (m.setFrames frames).write t j (addFlag (f * pageSize) 0x7))) := by
  obtain ⟨hi, d', hd', hne, hdef⟩ := tableAt_eq_some.mp ht
  obtain rfl : d' = d := Option.some.inj (hd'.symm.trans hd)
  simp only [virtualMapPhysical, hi.2, if_true, ne_eq, hne, not_false_eq_true, hdef] at call
  split at call
  · next hpte =>
      obtain ⟨⟨address, frames⟩, hacq, hres⟩ := Option.map_eq_some_iff.mp call
      obtain ⟨f, hlow, hlt, rfl⟩ := h.acquire_user hacq
      have haddr : ¬ f * pageSize = 0 := by rw [pageSize]; omega
      simp only [haddr, if_false] at hres
      obtain ⟨rfl, rfl⟩ := Prod.mk.inj hres
      have hv : frameOf (addFlag (f * pageSize) 0x7) = some f :=
        frameOf_addFlag (by omega) hlt (by decide)
      have hnone : frameAt m.words dirs o i j = none := by
        rw [frameAt_of_table ht hj, hpte, frameOf_zero]
      refine ⟨⟨h.mapPage ht hj hnone hacq fun f' hf' => ?_, rfl, List.suffix_refl _⟩,
        h.maps_writePage ht hj hnone hv, Or.inr ⟨rfl, hpte, f, frames, hlow, hlt, hacq, rfl⟩⟩
      obtain rfl := Nat.eq_of_mul_eq_mul_right (by decide) hf'
      exact hv
  · next hpte =>
      obtain ⟨rfl, rfl⟩ := Prod.mk.inj (Option.some.inj call)
      have hsome : frameAt m.words dirs o i j = some (deflagAddr (m.words t j) / pageSize) := by
        rw [frameAt_of_table ht hj, frameOf, if_neg hpte]
      exact ⟨.refl h, ⟨⟨_, hsome⟩, id, fun _ => rfl⟩, Or.inl ⟨rfl, hpte, rfl⟩⟩

/-- **`virtual_map_physical` where there is no page table yet**: it is added first. -/
theorem Owned.virtualMapPhysical_new (h : Owned kernelBlocks m dirs) (hd : dirs o = some d)
    (hi : 4 ≤ i ∧ i < pageLen) (hzero : m.words d i = 0) (hj : j < pageLen)
    (hnn : NonNull m.answers) {r : Int} (call : virtualMapPhysical m d i j = some (r, m')) :
    r = 0 ∧ Evolves kernelBlocks dirs m m' ∧ Maps dirs m.words m'.words o i j := by
  simp only [virtualMapPhysical, hi.2, if_true, hzero, ne_eq, not_true_eq_false, if_false] at call
  obtain ⟨⟨address, frames⟩, hacq, hrest⟩ := Option.bind_eq_some_iff.mp call
  obtain ⟨f, hlow, hlt, rfl⟩ := h.acquire_user hacq
  have haddr : ¬ f * pageSize = 0 := by rw [pageSize]; omega
  simp only [haddr, if_false] at hrest
  obtain ⟨⟨b, m1⟩, halloc, hres⟩ := Option.map_eq_some_iff.mp hrest
  obtain ⟨rfl, rfl⟩ := Prod.mk.inj hres
  have hnn' : NonNull (m.setFrames frames).answers := hnn
  obtain ⟨answer, -, hsuffix, hframes, hcr3, hblock, hfresh, hheap, hwords⟩ :=
    memalign_nonNull hnn' halloc
  have hflag := addFlag_block hblock (f := 0x7) (by decide)
  have hbd : b ≠ d := (h.dir_ne_fresh hfresh hd).symm
  -- the table is entered first and filled later: the two stores commute
  let m2 := ((m1.setFrames m.frames).clear b).write d i (addFlag b 0x7)
  have hadd : TableAdded m m2 d i b (addFlag b 0x7) := by
    refine ⟨hblock, hfresh, hzero, hflag, rfl, hheap, fun b' k => ?_⟩
    rw [PhysMem.write_words, PhysMem.clear_words]
    show (if _ then _ else if _ then _ else m1.words b' k) = _
    rw [hwords]
    by_cases hb : b' = b
    · simp [hb]
    · simp [hb, PhysMem.setFrames]
  have h2 := h.newTable hd hi hadd
  have ht := tableAt_added_self hd hi hadd
  have hframe := h.frameAt_added hd hi hadd
  have hnone : frameAt m2.words dirs o i j = none := by
    have hold : tableAt m.words dirs o i = none := by
      rw [tableAt_of_dir hd hi, tableOf, if_pos hzero]
    rw [hframe, frameAt, hold]
    simp
  have hv : frameOf (addFlag (f * pageSize) 0x7) = some f :=
    frameOf_addFlag (by omega) hlt (by decide)
  have hend : ((m1.clear b).write b j (addFlag (f * pageSize) 0x7)).write d i (addFlag b 0x7)
      = (m2.setFrames frames).write b j (addFlag (f * pageSize) 0x7) := by
    rw [PhysMem.write_comm _ hbd]
    have hfr : m1.frames = frames := hframes
    rw [← hfr]
    rfl
  have hmaps := h2.maps_writePage ht hj hnone hv
  rw [hend]
  refine ⟨rfl, ⟨h2.mapPage ht hj hnone hacq fun f' hf' => ?_, hcr3, hsuffix⟩,
    ⟨hmaps.mapped, fun hf' => ?_, fun hk => ?_⟩⟩
  · obtain rfl := Nat.eq_of_mul_eq_mul_right (by decide) hf'
    exact hv
  · rw [← hframe] at hf'
    exact hmaps.kept hf'
  · rw [← hframe]
    exact hmaps.only hk

/-- What a call of `virtual_map_physical` does to the user entries: nothing for an entry of the
kernel, else the entry is mapped. -/
def MapsUser (dirs : ω → Option Nat) (words words' : Nat → Nat → Nat) (o : ω) (i j : Nat) : Prop :=
  (i < 4 ∧ words' = words) ∨ (4 ≤ i ∧ Maps dirs words words' o i j)

/-- **The rule of `virtual_map_physical`.** -/
theorem Owned.virtualMapPhysical (h : Owned kernelBlocks m dirs) (hd : dirs o = some d)
    (hj : j < pageLen) (hnn : NonNull m.answers) {r : Int}
    (call : virtualMapPhysical m d i j = some (r, m')) :
    Evolves kernelBlocks dirs m m' ∧ MapsUser dirs m.words m'.words o i j := by
  by_cases hlow : i < 4
  · rw [h.virtualMapPhysical_kernel hd hlow hj] at call
    obtain ⟨-, rfl⟩ := Prod.mk.inj (Option.some.inj call)
    exact ⟨.refl h, Or.inl ⟨hlow, rfl⟩⟩
  · have hi : 4 ≤ i := by omega
    have hlen : i < pageLen := by
      by_contra hge
      simp [Memory.virtualMapPhysical, hge] at call
    by_cases hzero : m.words d i = 0
    · obtain ⟨-, hevolves, hmaps⟩ := h.virtualMapPhysical_new hd ⟨hi, hlen⟩ hzero hj hnn call
      exact ⟨hevolves, Or.inr ⟨hi, hmaps⟩⟩
    · have ht : tableAt m.words dirs o i = some (deflagAddr (m.words d i)) :=
        tableAt_eq_some.mpr ⟨⟨hi, hlen⟩, d, hd, hzero, rfl⟩
      obtain ⟨hevolves, hmaps, -⟩ := h.virtualMapPhysical_table hd ht hj call
      exact ⟨hevolves, Or.inr ⟨hi, hmaps⟩⟩

/-- What happens to the user entries when the entry `i`, `j` of `o` is cleared. -/
def Unmaps (dirs : ω → Option Nat) (words words' : Nat → Nat → Nat) (o : ω) (i j : Nat) : Prop :=
  ∀ o' i' j', frameAt words' dirs o' i' j'
    = if o' = o ∧ i' = i ∧ j' = j then none else frameAt words dirs o' i' j'

/-- Nothing changes at an entry that maps nothing. -/
theorem Unmaps.of_none {words : Nat → Nat → Nat} (h : frameAt words dirs o i j = none) :
    Unmaps dirs words words o i j := by
  intro o' i' j'
  split
  · next hk =>
      obtain ⟨rfl, rfl, rfl⟩ := hk
      exact h
  · rfl

/-- **The rule of `virtual_unmap_physical`.** -/
theorem Owned.virtualUnmapPhysical (h : Owned kernelBlocks m dirs) (hd : dirs o = some d)
    (hi : 4 ≤ i) (hj : j < pageLen) {r : Int}
    (call : virtualUnmapPhysical m d i j = some (r, m')) :
    Evolves kernelBlocks dirs m m' ∧ Unmaps dirs m.words m'.words o i j ∧
      ∀ o' i', tableAt m'.words dirs o' i' = tableAt m.words dirs o' i' := by
  unfold Memory.virtualUnmapPhysical at call
  split at call
  · next hlen =>
      by_cases hzero : m.words d i = 0
      · simp only [hzero, if_true] at call
        obtain ⟨-, rfl⟩ := Prod.mk.inj (Option.some.inj call)
        have hnone : frameAt m.words dirs o i j = none := by
          rw [frameAt, tableAt_of_dir hd ⟨hi, hlen⟩, tableOf, if_pos hzero]
          simp
        exact ⟨.refl h, .of_none hnone, fun _ _ => rfl⟩
      · simp only [hzero, if_false] at call
        have ht : tableAt m.words dirs o i = some (deflagAddr (m.words d i)) :=
          tableAt_eq_some.mpr ⟨⟨hi, hlen⟩, d, hd, hzero, rfl⟩
        by_cases hpte : m.words (deflagAddr (m.words d i)) j = 0
        · simp only [hpte, if_true] at call
          obtain ⟨-, rfl⟩ := Prod.mk.inj (Option.some.inj call)
          have hnone : frameAt m.words dirs o i j = none := by
            rw [frameAt_of_table ht hj, hpte, frameOf_zero]
          exact ⟨.refl h, .of_none hnone, fun _ _ => rfl⟩
        · simp only [hpte, if_false] at call
          obtain ⟨frames, hrel, hres⟩ := Option.map_eq_some_iff.mp call
          obtain ⟨-, rfl⟩ := Prod.mk.inj hres
          refine ⟨⟨h.unmapPage ht hj hpte hrel, rfl, List.suffix_refl _⟩, fun o' i' j' => ?_,
            h.tableAt_writePage ht⟩
          exact h.frameAt_writePage ht hj o' i' j'
  · cases call

/-! ## A range of pages -/

/-- The entries that `allocate_pages` and `free_pages` run over. -/
def pageRange (virtualAddr size : Nat) : List (Nat × Nat) :=
  (List.range (pageTimes virtualAddr size)).map fun k =>
    (vaPdInd virtualAddr + (vaPtInd virtualAddr + k) / pageLen, (vaPtInd virtualAddr + k) % pageLen)

/-- What happens to the user entries when the entries `l` of `o` get pages. -/
structure MapsRange (dirs : ω → Option Nat) (words words' : Nat → Nat → Nat) (o : ω)
    (l : List (Nat × Nat)) : Prop where
  /-- The entries map pages now. -/
  mapped : ∀ {i j}, (i, j) ∈ l → 4 ≤ i → ∃ f, frameAt words' dirs o i j = some f
  /-- What was mapped stays mapped to the same frame. -/
  kept : ∀ {o' i' j' f}, frameAt words dirs o' i' j' = some f →
    frameAt words' dirs o' i' j' = some f
  /-- Nothing else is mapped. -/
  only : ∀ {o' i' j'}, ¬ (o' = o ∧ (i', j') ∈ l) →
    frameAt words' dirs o' i' j' = frameAt words dirs o' i' j'

/-- What happens to the user entries when the entries `l` of `o` are cleared. -/
def UnmapsRange (dirs : ω → Option Nat) (words words' : Nat → Nat → Nat) (o : ω)
    (l : List (Nat × Nat)) : Prop :=
  ∀ o' i' j', frameAt words' dirs o' i' j'
    = if o' = o ∧ (i', j') ∈ l then none else frameAt words dirs o' i' j'

omit [DecidableEq ω] in
theorem MapsRange.nil (words : Nat → Nat → Nat) : MapsRange dirs words words o [] :=
  ⟨fun h => absurd h (by simp), id, fun _ => rfl⟩

theorem UnmapsRange.nil (words : Nat → Nat → Nat) : UnmapsRange dirs words words o [] := by
  intro o' i' j'
  simp

omit [DecidableEq ω] in
/-- One more page is mapped. -/
theorem MapsRange.snoc {w w1 w2 : Nat → Nat → Nat} {l : List (Nat × Nat)}
    (h : MapsRange dirs w w1 o l) (hstep : MapsUser dirs w1 w2 o i j) :
    MapsRange dirs w w2 o (l ++ [(i, j)]) := by
  rcases hstep with ⟨hlow, rfl⟩ | ⟨-, hmaps⟩
  · refine ⟨fun hmem hi => ?_, h.kept, fun hk => h.only fun e => hk ⟨e.1, by simp [e.2]⟩⟩
    rcases List.mem_append.mp hmem with hmem | hmem
    · exact h.mapped hmem hi
    · obtain ⟨rfl, rfl⟩ : _ = i ∧ _ = j := by simpa using hmem
      omega
  · refine ⟨fun {i' j'} hmem hi => ?_, fun hf => hmaps.kept (h.kept hf), fun hk => ?_⟩
    · rcases List.mem_append.mp hmem with hmem | hmem
      · obtain ⟨f, hf⟩ := h.mapped hmem hi
        exact ⟨f, hmaps.kept hf⟩
      · obtain ⟨rfl, rfl⟩ : i' = i ∧ j' = j := by simpa using hmem
        exact hmaps.mapped
    · rw [hmaps.only fun e => hk ⟨e.1, by simp [e.2]⟩]
      exact h.only fun e => hk ⟨e.1, List.mem_append_left _ e.2⟩

omit [DecidableEq ω] in
/-- Two ranges after each other. -/
theorem MapsRange.append {w w1 w2 : Nat → Nat → Nat} {l l' : List (Nat × Nat)}
    (h : MapsRange dirs w w1 o l) (h' : MapsRange dirs w1 w2 o l') :
    MapsRange dirs w w2 o (l ++ l') := by
  refine ⟨fun hmem hi => ?_, fun hf => h'.kept (h.kept hf), fun hk => ?_⟩
  · rcases List.mem_append.mp hmem with hmem | hmem
    · obtain ⟨f, hf⟩ := h.mapped hmem hi
      exact ⟨f, h'.kept hf⟩
    · exact h'.mapped hmem hi
  · rw [h'.only fun e => hk ⟨e.1, List.mem_append_right _ e.2⟩,
      h.only fun e => hk ⟨e.1, List.mem_append_left _ e.2⟩]

/-- One more page is unmapped. -/
theorem UnmapsRange.snoc {w w1 w2 : Nat → Nat → Nat} {l : List (Nat × Nat)}
    (h : UnmapsRange dirs w w1 o l) (hstep : Unmaps dirs w1 w2 o i j) :
    UnmapsRange dirs w w2 o (l ++ [(i, j)]) := by
  intro o' i' j'
  rw [hstep o' i' j', h o' i' j']
  by_cases ho : o' = o <;> by_cases hmem : (i', j') ∈ l <;> by_cases hk : i' = i ∧ j' = j <;>
    simp [ho, hmem, hk]

/-- The values of the loop variable are the entries of the range. -/
theorem forPages_eq (routine : PhysMem → Nat → Nat → Nat → Option (Int × PhysMem)) (m : PhysMem)
    (pd virtualAddr size : Nat) :
    forPages routine m pd virtualAddr size
      = (pageRange virtualAddr size).foldlM (fun m p => (routine m pd p.1 p.2).map Prod.snd) m := by
  rw [pageRange, List.foldlM_map]
  rfl

/-- The table index of each entry of a range is below `PAGE_LEN`. -/
theorem pageRange_lt {va size : Nat} {p : Nat × Nat} (hp : p ∈ pageRange va size) :
    p.2 < pageLen := by
  obtain ⟨k, -, rfl⟩ := List.mem_map.mp hp
  exact Nat.mod_lt _ (by decide)

/-- The directory index only grows along a range. -/
theorem pageRange_ge {va size : Nat} {p : Nat × Nat} (hp : p ∈ pageRange va size) :
    vaPdInd va ≤ p.1 := by
  obtain ⟨k, -, rfl⟩ := List.mem_map.mp hp
  exact Nat.le_add_right _ _

/-- **The rule of `allocate_pages`.** -/
theorem Owned.allocatePages (h : Owned kernelBlocks m dirs) (hd : dirs o = some d)
    (hnn : NonNull m.answers) {va size : Nat} (call : allocatePages m d va size = some m') :
    Evolves kernelBlocks dirs m m' ∧ MapsRange dirs m.words m'.words o (pageRange va size) := by
  rw [Memory.allocatePages, forPages_eq] at call
  refine foldlM_invariant
    (I := fun done m1 => Evolves kernelBlocks dirs m m1 ∧ MapsRange dirs m.words m1.words o done)
    call ⟨.refl h, .nil _⟩ ?_
  rintro done ⟨i, j⟩ hp m1 m2 ⟨hevolves, hmaps⟩ hcall
  obtain ⟨⟨r, m2⟩, hroutine, rfl⟩ := Option.map_eq_some_iff.mp hcall
  obtain ⟨hnext, hone⟩ := hevolves.owned.virtualMapPhysical hd (pageRange_lt hp)
    (hnn.suffix hevolves.answers) hroutine
  exact ⟨hevolves.trans hnext, hmaps.snoc hone⟩

/-- **The rule of `free_pages`**, in the user half. -/
theorem Owned.freePages (h : Owned kernelBlocks m dirs) (hd : dirs o = some d) {va size : Nat}
    (hva : 4 ≤ vaPdInd va) (call : freePages m d va size = some m') :
    Evolves kernelBlocks dirs m m' ∧ UnmapsRange dirs m.words m'.words o (pageRange va size) := by
  rw [Memory.freePages, forPages_eq] at call
  refine foldlM_invariant
    (I := fun done m1 => Evolves kernelBlocks dirs m m1 ∧ UnmapsRange dirs m.words m1.words o done)
    call ⟨.refl h, .nil _⟩ ?_
  rintro done ⟨i, j⟩ hp m1 m2 ⟨hevolves, hunmaps⟩ hcall
  obtain ⟨⟨r, m2⟩, hroutine, rfl⟩ := Option.map_eq_some_iff.mp hcall
  obtain ⟨hnext, hone, -⟩ := hevolves.owned.virtualUnmapPhysical hd
    (hva.trans (pageRange_ge hp)) (pageRange_lt hp) hroutine
  exact ⟨hevolves.trans hnext, hunmaps.snoc hone⟩

/-! ## A whole address space -/

/-- The kernel entries of a page directory. -/
def KernelEntries (kernelBlocks : Nat → Nat) (words : Nat → Nat → Nat) (d : Nat) : Prop :=
  ∀ i < 4, words d i ≠ 0 ∧ deflagAddr (words d i) = kernelBlocks i

omit [DecidableEq ω] in
/-- A loop that stores into the first words of the block `b` values that do not depend on it. -/
theorem stores_spec {f : PhysMem → Nat → Nat} {g : Nat → Nat} (m : PhysMem) (b : Nat)
    (hval : ∀ m' i, m'.cr3 = m.cr3 → (∀ b' k, b' ≠ b → m'.words b' k = m.words b' k) →
      f m' i = g i) (n : Nat) :
    ∃ words, (List.range n).foldl (fun m i => m.write b i (f m i)) m = { m with words := words } ∧
      ∀ b' k, words b' k = if b' = b ∧ k < n then g k else m.words b' k := by
  induction n with
  | zero => exact ⟨m.words, rfl, by simp⟩
  | succ n ih =>
      obtain ⟨words, hfold, hwords⟩ := ih
      have hn : f { m with words := words } n = g n := by
        refine hval _ n rfl fun b' k hb => ?_
        exact (hwords b' k).trans (if_neg fun e => hb e.1)
      rw [List.range_succ, List.foldl_append, hfold, List.foldl_cons, List.foldl_nil, hn]
      refine ⟨_, rfl, fun b' k => ?_⟩
      have hw := PhysMem.write_words { m with words := words } b n (g n) b' k
      refine hw.trans ?_
      show (if b' = b ∧ k = n then g n else words b' k) = _
      rw [hwords]
      by_cases hb : b' = b
      · rcases Nat.lt_trichotomy k n with hk | rfl | hk
        · simp [hb, hk, hk.ne, Nat.lt_succ_of_lt hk]
        · simp [hb]
        · simp [hb, hk.ne', Nat.not_lt.mpr hk.le, show ¬ k < n + 1 by omega]
      · simp [hb]

omit [DecidableEq ω] in
/-- **The rule of `init_pd`**: a page directory is added, and `cr3` points to it. -/
theorem Owned.initPd (h : Owned kernelBlocks m dirs) (hcr3 : m.cr3 ∈ m.heap)
    (hentries : KernelEntries kernelBlocks m.words m.cr3) (hnn : NonNull m.answers)
    (call : initPd m = some (b, m')) :
    DirAdded kernelBlocks m m' b ∧ m'.cr3 = b ∧ m'.answers <:+ m.answers := by
  obtain ⟨⟨b, m1⟩, halloc, hres⟩ := Option.map_eq_some_iff.mp call
  obtain ⟨rfl, rfl⟩ := Prod.mk.inj hres
  obtain ⟨answer, -, hsuffix, hframes, hsame, hblock, hfresh, hheap, hwords⟩ :=
    memalign_nonNull hnn halloc
  have hne : m.cr3 ≠ b := by
    rintro hb
    exact hfresh (hb ▸ hcr3)
  have hold : ∀ b' k, b' ≠ b → (m1.clear b).words b' k = m.words b' k := by
    intro b' k hb
    rw [PhysMem.clear_words, if_neg hb, hwords, Function.update_of_ne hb]
  obtain ⟨words, hfold, hnew⟩ := stores_spec
    (f := fun m i => addFlag (deflagAddr (m.words m.cr3 i)) 0x107)
    (g := fun i => addFlag (deflagAddr (m.words m.cr3 i)) 0x107) (m1.clear b) b (by
      intro m' i hc hw
      have hc' : m'.cr3 = m.cr3 := hc.trans hsame
      simp only [hc', hw _ _ hne, hold _ _ hne]) 4
  simp only [hfold]
  refine ⟨⟨hblock, hfresh, hframes, hheap, fun b' k hb => ?_, fun i hi _ => ?_, fun i hi => ?_⟩,
    rfl, hsuffix⟩
  · exact (hnew b' k).trans ((if_neg fun e => hb e.1).trans (hold b' k hb))
  · refine (hnew b i).trans ((if_neg fun e => by omega).trans ?_)
    rw [PhysMem.clear_words, if_pos rfl]
  · have hentry : words b i = addFlag (deflagAddr (m.words m.cr3 i)) 0x107 :=
      (hnew b i).trans (if_pos ⟨rfl, hi⟩)
    have hkb : IsBlock (kernelBlocks i) := h.heap_block _ (h.kernel_mem (by omega))
    show words b i ≠ 0 ∧ deflagAddr (words b i) = _
    rw [hentry, (hentries i hi).2]
    exact addFlag_block hkb (by decide)

/-- **The rule of the loop of `destroy_page_table`**: every entry is cleared. -/
theorem Owned.destroyPageTable (h : Owned kernelBlocks m dirs)
    (ht : tableAt m.words dirs o i = some t) (call : destroyPageTable m t = some m') :
    ∃ m1, m' = m1.sfree t ∧ Evolves kernelBlocks dirs m m1 ∧
      (∀ o' i', tableAt m1.words dirs o' i' = tableAt m.words dirs o' i') ∧
      (∀ j < pageLen, m1.words t j = 0) ∧
      ∀ o' i' j', ¬ (o' = o ∧ i' = i) →
        frameAt m1.words dirs o' i' j' = frameAt m.words dirs o' i' j' := by
  obtain ⟨m1, hloop, rfl⟩ := Option.map_eq_some_iff.mp call
  refine ⟨m1, rfl, ?_⟩
  have hall := foldlM_invariant (I := fun done m1 => Evolves kernelBlocks dirs m m1 ∧
      (∀ o' i', tableAt m1.words dirs o' i' = tableAt m.words dirs o' i') ∧
      (∀ j ∈ done, m1.words t j = 0) ∧
      ∀ o' i' j', ¬ (o' = o ∧ i' = i) →
        frameAt m1.words dirs o' i' j' = frameAt m.words dirs o' i' j')
    hloop ⟨.refl h, fun _ _ => rfl, fun _ hj => absurd hj (by simp), fun _ _ _ _ => rfl⟩ ?_
  · obtain ⟨hevolves, htables, hzero, hframes⟩ := hall
    exact ⟨hevolves, htables, fun j hj => hzero j (List.mem_range.mpr hj), hframes⟩
  · rintro done j hj m1 m2 ⟨hevolves, htables, hzero, hframes⟩ hbody
    have hlt : j < pageLen := List.mem_range.mp hj
    have ht1 : tableAt m1.words dirs o i = some t := (htables o i).trans ht
    simp only at hbody
    split at hbody
    · next hpte =>
        obtain rfl := Option.some.inj hbody
        refine ⟨hevolves, htables, fun k hk => ?_, hframes⟩
        rcases List.mem_append.mp hk with hk | hk
        · exact hzero k hk
        · rw [List.mem_singleton.mp hk, hpte]
    · next hpte =>
        obtain ⟨frames, hrel, rfl⟩ := Option.map_eq_some_iff.mp hbody
        have hnext : Evolves kernelBlocks dirs m1 ((m1.setFrames frames).write t j 0) :=
          ⟨hevolves.owned.unmapPage ht1 hlt hpte hrel, rfl, List.suffix_refl _⟩
        refine ⟨hevolves.trans hnext,
          fun o' i' => (hevolves.owned.tableAt_writePage ht1 o' i').trans (htables o' i'),
          fun k hk => ?_, fun o' i' j' hk => ?_⟩
        · rw [PhysMem.write_words]
          split
          · rfl
          · next hne =>
              rcases List.mem_append.mp hk with hk | hk
              · exact hzero k hk
              · exact absurd ⟨rfl, List.mem_singleton.mp hk⟩ hne
        · rw [← hframes o' i' j' hk]
          refine (hevolves.owned.frameAt_writePage ht1 hlt o' i' j').trans (if_neg ?_)
          rintro ⟨rfl, rfl, -⟩
          exact hk ⟨rfl, rfl⟩

/-- **The rule of `destroy_page_directory`**: nothing is mapped any more, and no page table is
left. -/
theorem Owned.destroyPageDirectory (h : Owned kernelBlocks m dirs) (hd : dirs o = some d)
    (call : destroyPageDirectory m d = some m') :
    Evolves kernelBlocks dirs m m' ∧ (∀ i, tableAt m'.words dirs o i = none) ∧
      ∀ o' i' j', o' ≠ o → frameAt m'.words dirs o' i' j' = frameAt m.words dirs o' i' j' := by
  have hall := foldlM_invariant (I := fun done m1 => Evolves kernelBlocks dirs m m1 ∧
      (∀ i ∈ done, tableAt m1.words dirs o i = none) ∧
      ∀ o' i' j', o' ≠ o → frameAt m1.words dirs o' i' j' = frameAt m.words dirs o' i' j')
    call ⟨.refl h, fun _ hi => absurd hi (by simp), fun _ _ _ _ => rfl⟩ ?_
  · obtain ⟨hevolves, hnone, hframes⟩ := hall
    refine ⟨hevolves, fun i => ?_, hframes⟩
    by_cases hi : 4 ≤ i ∧ i < pageLen
    · refine hnone i (List.mem_range'_1.mpr ⟨hi.1, ?_⟩)
      rw [pageLen] at hi
      omega
    · rw [tableAt, if_neg hi]
  · rintro done i hi m1 m2 ⟨hevolves, hnone, hframes⟩ hbody
    have hrange := List.mem_range'_1.mp hi
    have hlt : 4 ≤ i ∧ i < pageLen := by rw [pageLen]; omega
    split at hbody
    · next hzero =>
        obtain rfl := Option.some.inj hbody
        refine ⟨hevolves, fun i' hi' => ?_, hframes⟩
        rcases List.mem_append.mp hi' with hi' | hi'
        · exact hnone i' hi'
        · rw [List.mem_singleton.mp hi', tableAt_of_dir hd hlt, tableOf, if_pos hzero]
    · next hpde =>
        obtain ⟨m3, hdestroy, rfl⟩ := Option.map_eq_some_iff.mp hbody
        have ht : tableAt m1.words dirs o i = some (deflagAddr (m1.words d i)) :=
          tableAt_eq_some.mpr ⟨hlt, d, hd, hpde, rfl⟩
        obtain ⟨m4, rfl, hloop, htables, hempty, hothers⟩ :=
          hevolves.owned.destroyPageTable ht hdestroy
        have ht4 := (htables o i).trans ht
        obtain ⟨howned, hself, hrest⟩ := hloop.owned.dropTable hd ht4 hempty
        refine ⟨hevolves.trans (hloop.trans ⟨howned, rfl, List.suffix_refl _⟩),
          fun i' hi' => ?_, fun o' i' j' ho => ?_⟩
        · by_cases hii : i' = i
          · rw [hii]
            exact hself
          · rw [hrest o i' fun e => hii e.2, htables]
            rcases List.mem_append.mp hi' with hi' | hi'
            · exact hnone i' hi'
            · exact absurd (List.mem_singleton.mp hi') hii
        · have hne : ¬ (o' = o ∧ i' = i) := fun e => ho e.1
          rw [← hframes o' i' j' ho, ← hothers o' i' j' hne]
          refine frameAt_congr (hrest o' i' hne) fun t' ht' => ?_
          have hdt : t' ≠ d := (hloop.owned.dir_ne_table hd ht').symm
          rw [PhysMem.write_words, if_neg (fun e => hdt e.1)]
          rfl

end

end Pebbles.Memory
