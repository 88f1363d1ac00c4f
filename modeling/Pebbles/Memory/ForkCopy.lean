import Pebbles.Memory.Paging

/-! # The copy of an address space

The loops of `sys_fork` that give the child a page of its own for each page of the parent. Each
new frame is mapped at a free entry of the parent first and then moved to the child: what remains
of one round is the entry of the child. The rules assume that the blocks `memalign` hands out are
filled with zeros, for `sys_fork` clears neither the page directory nor the page tables. -/

namespace Pebbles.Memory

section
variable {ω : Type*} [DecidableEq ω] {kernelBlocks : Nat → Nat} {m m' : PhysMem}
  {dirs : ω → Option Nat} {parent child : ω} {d b i j t : Nat} {entry : EntryInfo}

/-- The free entry of the parent: its page table exists, and it maps nothing. -/
structure FreeEntry (words : Nat → Nat → Nat) (dirs : ω → Option Nat) (parent : ω)
    (entry : EntryInfo) (t : Nat) : Prop where
  /-- The page table. -/
  table : tableAt words dirs parent entry.pdIndex = some t
  /-- The index is one of an entry. -/
  index : entry.ptIndex < pageLen
  /-- The entry is 0. -/
  free : words t entry.ptIndex = 0

/-- The page mapped at the free entry and moved to the child: the entry of the child is all that
remains written. -/
theorem moved_eq (frames : FrameTable) {v w k : Nat} (hfree : m.words t k = 0)
    (hcr3 : m.cr3 = d) (hne : b ≠ t) :
    ((((m.setFrames frames).write t k v).write b j w).write t k 0).setCr3 d
      = (m.setFrames frames).write b j w := by
  have hwords : ((((m.setFrames frames).write t k v).write b j w).write t k 0).words
      = ((m.setFrames frames).write b j w).words := by
    funext b' k'
    simp only [PhysMem.write_words]
    by_cases ht : b' = t ∧ k' = k
    · obtain ⟨rfl, rfl⟩ := ht
      simp [hne.symm, PhysMem.setFrames, hfree]
    · simp [ht]
  rw [← hcr3]
  show PhysMem.mk _ _ _ _ _ = PhysMem.mk _ _ _ _ _
  rw [hwords]
  rfl

/-- **The rule of the inner loop of `sys_fork`**, for the entries `js` of page table `i`. -/
theorem Owned.copyEntries (h : Owned kernelBlocks m dirs) (hd : dirs parent = some d)
    (hcr3 : m.cr3 = d) (hentry : FreeEntry m.words dirs parent entry t) {pt : Nat}
    (hpt : tableAt m.words dirs parent i = some pt)
    (hchild : tableAt m.words dirs child i = some b) (hne : child ≠ parent) (js : List Nat)
    (hnodup : js.Nodup) (hjs : ∀ j ∈ js, j < pageLen)
    (hnone : ∀ j ∈ js, frameAt m.words dirs child i j = none) {done : Bool}
    (call : copyEntries d entry pt b js m = some (done, m')) :
    Evolves kernelBlocks dirs m m' ∧
      (∀ o' i', tableAt m'.words dirs o' i' = tableAt m.words dirs o' i') ∧
      (∀ o' i' j', ¬ (o' = child ∧ i' = i ∧ j' ∈ js) →
        frameAt m'.words dirs o' i' j' = frameAt m.words dirs o' i' j') ∧
      (∀ j ∈ js, ((frameAt m'.words dirs child i j).isSome ↔
        (frameAt m.words dirs parent i j).isSome)) ∧
      done = true ∧ m'.answers = m.answers := by
  induction js generalizing m with
  | nil =>
      obtain ⟨rfl, rfl⟩ := Prod.mk.inj (Option.some.inj call)
      exact ⟨.refl h, fun _ _ => rfl, fun _ _ _ _ => rfl, fun j hj => absurd hj (by simp), rfl, rfl⟩
  | cons j js ih =>
      obtain ⟨hj, hrest⟩ := List.nodup_cons.mp hnodup
      have hjlt : j < pageLen := hjs j List.mem_cons_self
      have hjs' : ∀ j' ∈ js, j' < pageLen := fun j' hj' => hjs j' (List.mem_cons_of_mem j hj')
      have hparent : frameAt m.words dirs parent i j = frameOf (m.words pt j) :=
        frameAt_of_table hpt hjlt
      simp only [Memory.copyEntries] at call
      by_cases hz : m.words pt j = 0
      · -- the parent maps no page here
        rw [if_pos ((h.deflagAddr_eq_zero hpt hjlt).mpr hz)] at call
        obtain ⟨hevolves, htables, hframes, hcopied, hend⟩ := ih h hcr3 hentry hpt hchild hrest hjs'
          (fun j' hj' => hnone j' (List.mem_cons_of_mem j hj')) call
        have hsame : frameAt m'.words dirs child i j = frameAt m.words dirs child i j :=
          hframes child i j fun e => hj e.2.2
        refine ⟨hevolves, htables, fun o' i' j' hk => hframes o' i' j' fun e =>
          hk ⟨e.1, e.2.1, List.mem_cons_of_mem j e.2.2⟩, fun j' hj' => ?_, hend⟩
        rcases List.mem_cons.mp hj' with rfl | hj'
        · rw [hsame, hnone j' List.mem_cons_self, hparent, hz, frameOf_zero]
        · exact hcopied j' hj'
      · rw [if_neg fun e => hz ((h.deflagAddr_eq_zero hpt hjlt).mp e)] at call
        obtain ⟨⟨r, m1⟩, hmap, hround⟩ := Option.bind_eq_some_iff.mp call
        obtain ⟨-, -, ⟨-, htaken, -⟩ | ⟨rfl, -, f, frames, hlow, hlt, hacq, rfl⟩⟩ :=
          h.virtualMapPhysical_table hd hentry.table hentry.index hmap
        · exact absurd hentry.free htaken
        obtain ⟨-, d', hd', hpde, hfound⟩ := tableAt_eq_some.mp hentry.table
        obtain rfl : d' = d := Option.some.inj (hd'.symm.trans hd)
        have hdt : d' ≠ t := h.dir_ne_table hd hentry.table
        have hbt : b ≠ t := by
          rintro rfl
          exact hne (h.table_inj hchild hentry.table).1
        have hmod : f * pageSize % pageSize = 0 := Nat.mul_mod_left f pageSize
        have hlt32 : f * pageSize < 2 ^ 32 := by
          rw [totalPhysFrames] at hlt
          rw [pageSize]
          omega
        have hv : frameOf (addFlag (f * pageSize) (getFlag (m.words pt j))) = some f :=
          frameOf_addFlag (by omega) hlt (getFlag_lt _)
        have hfree : frameAt m.words dirs child i j = none := hnone j List.mem_cons_self
        -- the round leaves the entry of the child behind
        simp only [PhysMem.write_words, hdt, false_and, if_false, PhysMem.setFrames] at hround
        simp only [show ¬ ((0 : Int) = -1) by decide, if_false, hfound, and_self, if_true,
          deflagAddr_addFlag hmod hlt32 (show (0x7 : Nat) < pageSize by decide)] at hround
        rw [show ({ m with frames := frames } : PhysMem) = m.setFrames frames from rfl,
          moved_eq frames hentry.free hcr3 hbt] at hround
        have hnext : Evolves kernelBlocks dirs m ((m.setFrames frames).write b j
            (addFlag (f * pageSize) (getFlag (m.words pt j)))) := by
          refine ⟨h.mapPage hchild hjlt hfree hacq fun f' hf' => ?_, rfl, List.suffix_refl _⟩
          obtain rfl := Nat.eq_of_mul_eq_mul_right (by decide) hf'
          exact hv
        have htables1 := h.tableAt_writePage (j := j)
          (v := addFlag (f * pageSize) (getFlag (m.words pt j))) hchild
        have hframes1 := h.frameAt_writePage
          (v := addFlag (f * pageSize) (getFlag (m.words pt j))) hchild hjlt
        have hentry1 : FreeEntry ((m.setFrames frames).write b j
            (addFlag (f * pageSize) (getFlag (m.words pt j)))).words dirs parent entry t := by
          refine ⟨(htables1 _ _).trans hentry.table, hentry.index, ?_⟩
          rw [PhysMem.write_words, if_neg fun e => hbt e.1.symm]
          exact hentry.free
        have hnone1 : ∀ j' ∈ js, frameAt ((m.setFrames frames).write b j
            (addFlag (f * pageSize) (getFlag (m.words pt j)))).words dirs child i j' = none := by
          intro j' hj'
          refine (hframes1 child i j').trans ((if_neg ?_).trans
            (hnone j' (List.mem_cons_of_mem j hj')))
          rintro ⟨-, -, rfl⟩
          exact hj hj'
        obtain ⟨hevolves, htables, hframes, hcopied, hend⟩ := ih hnext.owned hcr3 hentry1
          ((htables1 _ _).trans hpt) ((htables1 _ _).trans hchild) hrest hjs' hnone1 hround
        refine ⟨hnext.trans hevolves, fun o' i' => (htables o' i').trans (htables1 o' i'),
          fun o' i' j' hk => ?_, fun j' hj' => ?_, hend⟩
        · rw [hframes o' i' j' fun e => hk ⟨e.1, e.2.1, List.mem_cons_of_mem j e.2.2⟩]
          refine (hframes1 o' i' j').trans (if_neg ?_)
          rintro ⟨rfl, rfl, rfl⟩
          exact hk ⟨rfl, rfl, List.mem_cons_self⟩
        · have hold : ∀ j', frameAt ((m.setFrames frames).write b j
              (addFlag (f * pageSize) (getFlag (m.words pt j)))).words dirs parent i j'
              = frameAt m.words dirs parent i j' := fun j' =>
            (hframes1 parent i j').trans (if_neg fun e => hne e.1.symm)
          rcases List.mem_cons.mp hj' with rfl | hj'
          · have hself := hframes1 child i j'
            rw [if_pos ⟨rfl, rfl, rfl⟩, hv] at hself
            rw [hframes child i j' fun e => hj e.2.2, hparent, frameOf, if_neg hz]
            simp only [Option.isSome_some, iff_true]
            exact Option.isSome_iff_exists.mpr ⟨f, hself⟩
          · rw [hcopied j' hj', hold]

/-- The answers `used` were taken from the front, and `done` says whether all were blocks. -/
def UsedUp (m m' : PhysMem) (done : Bool) : Prop :=
  ∃ used, m.answers = used ++ m'.answers ∧ (done = true ↔ NonNull used)

omit [DecidableEq ω] in
/-- One more answer was used in front. -/
theorem UsedUp.cons {m1 : PhysMem} {answer : Answer} {done : Bool}
    (h : m.answers = answer :: m1.answers) (ha : answer.address ≠ 0) (hrest : UsedUp m1 m' done) :
    UsedUp m m' done := by
  obtain ⟨used, hused, hdone⟩ := hrest
  refine ⟨answer :: used, by rw [h, hused, List.cons_append], hdone.trans ⟨fun hnn a hmem => ?_,
    fun hnn a hmem => hnn a (List.mem_cons_of_mem _ hmem)⟩⟩
  rcases List.mem_cons.mp hmem with rfl | hmem
  · exact ha
  · exact hnn a hmem

omit [DecidableEq ω] in
/-- The answer that ended the loop was `NULL`. -/
theorem UsedUp.null {answer : Answer} (h : m.answers = answer :: m'.answers)
    (ha : answer.address = 0) : UsedUp m m' false := by
  refine ⟨[answer], h, ⟨fun e => (by cases e), fun hnn => ?_⟩⟩
  exact absurd ha (hnn answer List.mem_cons_self)

/-- **The rule of the outer loop of `sys_fork`**, for the entries `is` of the page directory. -/
theorem Owned.copyTables (h : Owned kernelBlocks m dirs) (hd : dirs parent = some d)
    (hcr3 : m.cr3 = d) (hentry : FreeEntry m.words dirs parent entry t)
    (hb : dirs child = some b) (hne : child ≠ parent) (hzero : ZeroFilled m.answers)
    (is : List Nat) (hnodup : is.Nodup) (his : ∀ i ∈ is, 4 ≤ i ∧ i < pageLen)
    (hnone : ∀ i ∈ is, tableAt m.words dirs child i = none) {done : Bool}
    (call : copyTables d entry b is m = some (done, m')) :
    Evolves kernelBlocks dirs m m' ∧
      (∀ o' i' j', ¬ (o' = child ∧ i' ∈ is) →
        frameAt m'.words dirs o' i' j' = frameAt m.words dirs o' i' j') ∧
      (done = true → ∀ i ∈ is, ∀ j < pageLen, ((frameAt m'.words dirs child i j).isSome ↔
        (frameAt m.words dirs parent i j).isSome)) ∧ UsedUp m m' done := by
  induction is generalizing m with
  | nil =>
      obtain ⟨rfl, rfl⟩ := Prod.mk.inj (Option.some.inj call)
      exact ⟨.refl h, fun _ _ _ _ => rfl, fun _ i hi => absurd hi (by simp),
        [], rfl, fun _ a ha => (by cases ha), fun _ => rfl⟩
  | cons i is ih =>
      obtain ⟨hi, hrest⟩ := List.nodup_cons.mp hnodup
      have hlen : 4 ≤ i ∧ i < pageLen := his i List.mem_cons_self
      have his' : ∀ i' ∈ is, 4 ≤ i' ∧ i' < pageLen := fun i' hi' =>
        his i' (List.mem_cons_of_mem i hi')
      have hold : tableAt m.words dirs child i = none := hnone i List.mem_cons_self
      have hfree : m.words b i = 0 := by
        rw [tableAt_of_dir hb hlen, tableOf] at hold
        split at hold
        · assumption
        · cases hold
      simp only [Memory.copyTables] at call
      by_cases hz : m.words d i = 0
      · -- the parent has no page table here
        rw [hz, deflagAddr_zero, if_pos rfl] at call
        have hparent : ∀ j, frameAt m.words dirs parent i j = none := by
          intro j
          rw [frameAt, tableAt_of_dir hd hlen, tableOf, if_pos hz]
          simp
        obtain ⟨hevolves, hframes, hcopied, hused⟩ := ih h hcr3 hentry hzero hrest his'
          (fun i' hi' => hnone i' (List.mem_cons_of_mem i hi')) call
        refine ⟨hevolves, fun o' i' j' hk => hframes o' i' j' fun e =>
          hk ⟨e.1, List.mem_cons_of_mem i e.2⟩, fun hdone i' hi' j hj => ?_, hused⟩
        rcases List.mem_cons.mp hi' with rfl | hi'
        · rw [hparent, hframes child i' j fun e => hi e.2, frameAt, hold]
          simp
        · exact hcopied hdone i' hi' j hj
      · have hpt : tableAt m.words dirs parent i = some (deflagAddr (m.words d i)) :=
          tableAt_eq_some.mpr ⟨hlen, d, hd, hz, rfl⟩
        rw [if_neg (h.heap_block _ (h.table_mem hpt)).1] at call
        obtain ⟨⟨c, m1⟩, halloc, hrun⟩ := Option.bind_eq_some_iff.mp call
        obtain ⟨answer, hanswer, haddr, hsuffix, hfr, hc3, hcases⟩ := memalign_cases halloc
        obtain ⟨answer', hfirst, haddr'⟩ := memalign_answers halloc
        rcases hcases with ⟨rfl, hwords, hheap⟩ | ⟨hblock, hfresh, hheap, hwords⟩
        · -- `memalign` answers `NULL`
          rw [if_pos rfl] at hrun
          obtain ⟨rfl, rfl⟩ := Prod.mk.inj (Option.some.inj hrun)
          exact ⟨⟨h.congr hfr hwords hheap, hc3, hsuffix⟩, fun o' i' j' _ => by rw [hwords],
            fun hdone => (by cases hdone), .null hfirst haddr'⟩
        · rw [if_neg hblock.1] at hrun
          obtain ⟨⟨done1, m2⟩, hinner, hnext⟩ := Option.bind_eq_some_iff.mp hrun
          have hflag := addFlag_block hblock (getFlag_lt (m.words d i))
          have hcb : b ≠ c := h.dir_ne_fresh hfresh hb
          have hadd : TableAdded m (m1.write b i (addFlag c (getFlag (m.words d i)))) b i c
              (addFlag c (getFlag (m.words d i))) := by
            refine ⟨hblock, hfresh, hfree, hflag, hfr, hheap, fun b' k => ?_⟩
            rw [PhysMem.write_words, hwords]
            by_cases hbc : b' = c
            · subst hbc
              simp [hcb.symm, hzero answer hanswer k]
            · simp [hbc]
          have h1 := h.newTable hb hlen hadd
          have htable1 := tableAt_added_self hb hlen hadd
          have htables1 : ∀ o' i', ¬ (o' = child ∧ i' = i) → tableAt _ dirs o' i' = _ :=
            fun o' i' => h.tableAt_added hb hadd
          have hframes1 := h.frameAt_added hb hlen hadd
          have hpt1 := (htables1 parent i fun e => hne e.1.symm).trans hpt
          have hentry1 : FreeEntry (m1.write b i (addFlag c (getFlag (m.words d i)))).words dirs
              parent entry t := by
            refine ⟨(htables1 _ _ fun e => hne e.1.symm).trans hentry.table, hentry.index, ?_⟩
            have htb : t ≠ b := (h.dir_ne_table hb hentry.table).symm
            rw [hadd.words, if_neg (fun e => htb e.1),
              if_neg (h.table_ne_fresh hfresh hentry.table)]
            exact hentry.free
          have hempty : ∀ j, frameAt (m1.write b i (addFlag c (getFlag (m.words d i)))).words dirs
              child i j = none := by
            intro j
            rw [hframes1, frameAt, hold]
            simp
          obtain ⟨hev2, htables2, hframes2, hcopied2, rfl, hanswers2⟩ := h1.copyEntries hd
            (hc3.trans hcr3) hentry1 hpt1 htable1 hne (List.range pageLen) List.nodup_range
            (fun j hj => List.mem_range.mp hj) (fun j _ => hempty j) hinner
          have hev : Evolves kernelBlocks dirs m m2 :=
            ⟨hev2.owned, hev2.cr3.trans hc3, hev2.answers.trans hsuffix⟩
          -- what the round did to the entries of the others
          have hround : ∀ o' i' j', ¬ (o' = child ∧ i' = i) →
              frameAt m2.words dirs o' i' j' = frameAt m.words dirs o' i' j' := by
            intro o' i' j' hk
            rw [hframes2 o' i' j' fun e => hk ⟨e.1, e.2.1⟩]
            exact hframes1 o' i' j'
          have hentry2 : FreeEntry m2.words dirs parent entry t := by
            refine ⟨(htables2 _ _).trans hentry1.table, hentry.index, ?_⟩
            have hsame := hframes2 parent entry.pdIndex entry.ptIndex fun e => hne e.1.symm
            rw [frameAt_of_table ((htables2 _ _).trans hentry1.table) hentry.index,
              frameAt_of_table hentry1.table hentry.index, hentry1.free, frameOf_zero] at hsame
            exact frameOf_eq_none.mp hsame
          have hnone2 : ∀ i' ∈ is, tableAt m2.words dirs child i' = none := by
            intro i' hi'
            have hii : i' ≠ i := fun e => hi (e ▸ hi')
            rw [htables2, htables1 child i' fun e => hii e.2]
            exact hnone i' (List.mem_cons_of_mem i hi')
          obtain ⟨hev3, hframes3, hcopied3, hused3⟩ := ih hev.owned (hev.cr3.trans hcr3) hentry2
            (hzero.suffix hev.answers) hrest his' hnone2 hnext
          have hfirst2 : m.answers = answer' :: m2.answers := by
            rw [hfirst, hanswers2]
            rfl
          refine ⟨hev.trans hev3, fun o' i' j' hk => ?_, fun hdone i' hi' j hj => ?_,
            hused3.cons hfirst2 (haddr' ▸ hblock.1)⟩
          · rw [hframes3 o' i' j' fun e => hk ⟨e.1, List.mem_cons_of_mem i e.2⟩]
            exact hround o' i' j' fun e => hk ⟨e.1, by rw [e.2]; exact List.mem_cons_self⟩
          · rcases List.mem_cons.mp hi' with rfl | hi'
            · rw [hframes3 child i' j fun e => hi e.2, hcopied2 j (List.mem_range.mpr hj)]
              rw [hframes1]
            · rw [hcopied3 hdone i' hi' j hj]
              rw [hround parent i' j fun e => hne e.1.symm]

/-! ## The whole copy -/

omit [DecidableEq ω] in
/-- **What `find_free_entry` finds** is a free entry of a page table that exists. -/
theorem Owned.findFreeEntry (h : Owned kernelBlocks m dirs) (hd : dirs parent = some d)
    (call : findFreeEntry m d = some entry) : ∃ t, FreeEntry m.words dirs parent entry t := by
  obtain ⟨i, hi, hfound⟩ := List.exists_of_findSome?_eq_some call
  simp only at hfound
  split at hfound
  · cases hfound
  · next hpde =>
      obtain ⟨j, hj, rfl⟩ := Option.map_eq_some_iff.mp hfound
      have hlt : j < pageLen := List.mem_range.mp (List.mem_of_find?_eq_some hj)
      have hrange := List.mem_range'_1.mp hi
      have hlen : 4 ≤ i ∧ i < pageLen := by rw [pageLen]; omega
      have hne : m.words d i ≠ 0 := fun e => hpde (by rw [e, deflagAddr_zero])
      have ht : tableAt m.words dirs parent i = some (deflagAddr (m.words d i)) :=
        tableAt_eq_some.mpr ⟨hlen, d, hd, hne, rfl⟩
      refine ⟨_, ht, hlt, (h.deflagAddr_eq_zero ht hlt).mp ?_⟩
      simpa using List.find?_some hj

omit [DecidableEq ω] in
/-- The page directory of the child after the entries of the kernel were copied. -/
theorem Owned.dirAdded_copy (h : Owned kernelBlocks m dirs) (hd : dirs parent = some d)
    {m1 : PhysMem} (hblock : IsBlock b) (hfresh : b ∉ m.heap) (hframes : m1.frames = m.frames)
    (hheap : m1.heap = insert b m.heap)
    (hwords : m1.words = Function.update m.words b fun _ => 0) :
    ∃ words, (List.range 4).foldl (fun m i => m.write b i (m.words d i)) m1
        = { m1 with words := words } ∧
      DirAdded kernelBlocks m { m1 with words := words } b := by
  have hdb : d ≠ b := h.dir_ne_fresh hfresh hd
  have hold : ∀ b' k, b' ≠ b → m1.words b' k = m.words b' k := by
    intro b' k hb
    rw [hwords, Function.update_of_ne hb]
  obtain ⟨words, hfold, hnew⟩ := stores_spec (f := fun m i => m.words d i)
    (g := fun i => m.words d i) m1 b (by
      intro m' i _ hw
      simp only [hw _ _ hdb, hold _ _ hdb]) 4
  refine ⟨words, hfold, hblock, hfresh, hframes, hheap, fun b' k hb => ?_, fun i hi _ => ?_,
    fun i hi => ?_⟩
  · exact (hnew b' k).trans ((if_neg fun e => hb e.1).trans (hold b' k hb))
  · refine (hnew b i).trans ((if_neg fun e => by omega).trans ?_)
    rw [hwords, Function.update_self]
  · have hentry : words b i = m.words d i := (hnew b i).trans (if_pos ⟨rfl, hi⟩)
    show words b i ≠ 0 ∧ deflagAddr (words b i) = _
    rw [hentry]
    exact h.kernel_entry parent d hd i hi

/-- **The rule of the copy of an address space**: the child gets a page wherever the parent has
one, and nobody else's pages change. -/
theorem Owned.copySpace (h : Owned kernelBlocks m dirs) (hd : dirs parent = some d)
    (hcr3 : m.cr3 = d) (hentry : FreeEntry m.words dirs parent entry t)
    (hnone : dirs child = none) {m1 : PhysMem} (hblock : IsBlock b) (hfresh : b ∉ m.heap)
    (hframes : m1.frames = m.frames) (hheap : m1.heap = insert b m.heap)
    (hwords : m1.words = Function.update m.words b fun _ => 0) (hcr3' : m1.cr3 = m.cr3)
    (hzero : ZeroFilled m1.answers) {done : Bool}
    (call : copySpace d entry b m1 = some (done, m')) :
    Evolves kernelBlocks (Function.update dirs child (some b)) m1 m' ∧
      (∀ o' i' j', o' ≠ child → frameAt m'.words (Function.update dirs child (some b)) o' i' j'
        = frameAt m.words dirs o' i' j') ∧
      (done = true → ∀ i j,
        ((frameAt m'.words (Function.update dirs child (some b)) child i j).isSome ↔
          (frameAt m.words dirs parent i j).isSome)) ∧ UsedUp m1 m' done := by
  obtain ⟨words, hfold, hadd⟩ := h.dirAdded_copy hd hblock hfresh hframes hheap hwords
  have hne : child ≠ parent := by
    rintro rfl
    rw [hnone] at hd
    cases hd
  have hd0 : Function.update dirs child (some b) parent = some d := by
    rw [Function.update_of_ne hne.symm, hd]
  have hentry0 : FreeEntry words (Function.update dirs child (some b)) parent entry t := by
    refine ⟨(h.tableAt_dirAdded hadd hne.symm _).trans hentry.table, hentry.index, ?_⟩
    rw [← hentry.free]
    exact hadd.words _ _ (h.table_ne_fresh hfresh hentry.table)
  rw [Memory.copySpace, hfold] at call
  obtain ⟨hev, hothers, hcopied, hused⟩ := (h.newDir hnone hadd).copyTables hd0
    (hcr3'.trans hcr3) hentry0
    (Function.update_self ..) hne hzero (List.range' 4 1020) List.nodup_range'
    (fun i hi => by
      have hrange := List.mem_range'_1.mp hi
      rw [pageLen]
      omega)
    (fun i _ => tableAt_dirAdded_self hadd i) call
  refine ⟨⟨hev.owned, hev.cr3, hev.answers⟩, fun o' i' j' ho => ?_, fun hdone i j => ?_, hused⟩
  · rw [hothers o' i' j' fun e => ho e.1]
    exact h.frameAt_dirAdded hadd hnone o' i' j'
  · by_cases hi : 4 ≤ i ∧ i < pageLen
    · by_cases hj : j < pageLen
      · have hmem : i ∈ List.range' 4 1020 := by
          refine List.mem_range'_1.mpr ⟨hi.1, ?_⟩
          rw [pageLen] at hi
          omega
        rw [hcopied hdone i hmem j hj, h.frameAt_dirAdded hadd hnone]
      · simp [frameAt, hj]
    · simp [frameAt, tableAt, hi]

end

end Pebbles.Memory
