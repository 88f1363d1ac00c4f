import Pebbles.Memory.ForkPages

/-! # When a fork comes to its end

The copying loops of `sys_fork` (`kern/process/sys_fork.c`) go through one borrowed entry of the
parent's page tables. `find_free_entry` takes an entry whose address part is 0, and
`virtual_map_physical` fails there unless the whole word is 0. `copySpace_ends` says that this is
all that can stop the copy when nothing runs out, and `slotFree_of_copySpace` that it does. -/

namespace Pebbles.Memory

/-! ## When the loops come to their end -/

section
variable {m m' m1 : PhysMem} {d b c i j : Nat} {js is : List Nat} {entry : EntryInfo}

/-- The borrowed entry is in the page tables of the parent. -/
theorem SlotFree.congr (h : SlotFree m d entry) (hsame : SameSpace m.words m'.words d) :
    SlotFree m' d entry where
  index := h.index
  table := by
    rw [hsame.dir]
    exact h.table
  free := by
    rw [hsame.dir, hsame.table entry.pdIndex h.index h.table]
    exact h.free

/-- It is free whenever it was so later. -/
theorem SlotFree.earlier (h : SlotFree m' d entry) (hsame : SameSpace m.words m'.words d) :
    SlotFree m d entry := by
  have htable : m.words d entry.pdIndex ≠ 0 := by
    rw [← hsame.dir]
    exact h.table
  refine ⟨h.index, htable, ?_⟩
  rw [← hsame.table entry.pdIndex h.index htable, ← hsame.dir]
  exact h.free

/-- The parent's page tables while the entry of the child is written. -/
theorem Directory.entered (h : Directory m d) (hc : Elsewhere m d c) {f v : Nat}
    {frames : FrameTable} (htakes : Takes m.frames f frames) :
    SameSpace m.words ((m.setFrames frames).write c j v).words d ∧
      Directory ((m.setFrames frames).write c j v) d ∧
      Elsewhere ((m.setFrames frames).write c j v) d c := by
  have hword : ∀ b k, b ≠ c → ((m.setFrames frames).write c j v).words b k = m.words b k :=
    fun b k hb => by
      rw [PhysMem.write_words, if_neg fun e => hb e.1]
      rfl
  have hdir := fun k => hword d k hc.2.1.symm
  refine ⟨⟨hdir, fun x hx hpde k => hword _ k (hc.2.2 x hx hpde)⟩, ?_, hc.1, hc.2.1,
    fun x hx => ?_⟩
  · exact h.congr (funext hdir) (Finset.Subset.refl _) h.null htakes.ordered
      (htakes.keeps h.first_frame)
  · rw [hdir]
    exact hc.2.2 x hx

/-- **The inner loop comes to its end** when the borrowed entry is free, or not needed, and there
are frames enough. -/
theorem copyEntries_ends (h : Directory m d) (hcr3 : m.cr3 = d)
    (hc : Elsewhere m d c) (hi : i < pageLen) (hpde : m.words d i ≠ 0)
    (hs : presentEntries m.words (deflagAddr (m.words d i)) js ≠ [] → SlotFree m d entry)
    (hcard : (presentEntries m.words (deflagAddr (m.words d i)) js).length
      < m.frames.aboveSet.card) :
    ∃ m', Memory.copyEntries d entry (deflagAddr (m.words d i)) c js m = some (true, m') := by
  induction js generalizing m with
  | nil => exact ⟨m, rfl⟩
  | cons j js ih =>
      by_cases hpte : deflagAddr (m.words (deflagAddr (m.words d i)) j) = 0
      · rw [presentEntries_cons_of_zero hpte] at hcard hs
        simp only [Memory.copyEntries, if_pos hpte]
        exact ih h hcr3 hc hpde hs hcard
      · rw [presentEntries_cons_of_ne hpte] at hs
        rw [presentEntries_cons_of_ne hpte, List.length_cons] at hcard
        have hfree := hs (by simp)
        obtain ⟨⟨address, frames⟩, hacq⟩ := Option.isSome_iff_exists.mp
          ((acquire_isSome_iff_of_ordered h.ordered).mpr (by omega))
        obtain ⟨f, -, htakes⟩ := acquire_takes h.ordered hacq
        rw [hfree.copied h hcr3 hc htakes rfl hpte]
        obtain ⟨hsame, hdir, helse⟩ := h.entered (j := j)
          (v := addFlag (f * pageSize) (getFlag (m.words (deflagAddr (m.words d i)) j))) hc htakes
        have hnext := ih hdir hcr3 helse (by rw [hsame.dir]; exact hpde)
          (fun _ => hfree.congr hsame) ?_
        · rw [hsame.dir] at hnext
          exact hnext
        · have habove := htakes.above
          rw [hsame.dir, presentEntries_congr (hsame.table i hi hpde)]
          show _ < frames.aboveSet.card
          omega

/-- **The inner loop borrows the entry only when it is free.** -/
theorem slotFree_of_copyEntries {pt : Nat} (h : Directory m d)
    (hslot : m.words d entry.pdIndex ≠ 0) (hpages : presentEntries m.words pt js ≠ [])
    (call : Memory.copyEntries d entry pt c js m = some (true, m')) : SlotFree m d entry := by
  induction js with
  | nil => exact absurd rfl hpages
  | cons j js ih =>
      by_cases hpte : deflagAddr (m.words pt j) = 0
      · simp only [Memory.copyEntries, if_pos hpte] at call
        rw [presentEntries_cons_of_zero hpte] at hpages
        exact ih hpages call
      · simp only [Memory.copyEntries, if_neg hpte] at call
        obtain ⟨⟨r, m1⟩, hmap, hround⟩ := Option.bind_eq_some_iff.mp call
        refine ((h.slot_of_call hslot hmap).resolve_left fun hr => ?_).1
        simp [hr] at hround

/-- One round, and then the others. -/
theorem copyTables_cons_of_one (hone : Memory.copyTables d entry b [i] m = some (true, m1)) :
    Memory.copyTables d entry b (i :: is) m = Memory.copyTables d entry b is m1 := by
  by_cases hpde : deflagAddr (m.words d i) = 0
  · simp only [Memory.copyTables, if_pos hpde, Option.some.injEq, Prod.mk.injEq, true_and] at hone ⊢
    rw [hone]
  · obtain ⟨a, rest, m2, -, hblock, -, halloc, hinner, hnext⟩ := copyTables_cons_of_call hpde hone
    obtain ⟨-, rfl⟩ := Prod.mk.inj (Option.some.inj hnext)
    simp only [Memory.copyTables, if_neg hpde, halloc, Option.bind_some, if_neg hblock.1, hinner,
      if_true]

/-- As many frames less are within reach. -/
theorem TakesAll.above {t t' : FrameTable} {fs : List Nat} (h : TakesAll t fs t')
    (ht : t.Ordered) : t'.aboveSet.card + fs.length = t.aboveSet.card :=
  (acquireMany_left ht h.acquired).2

/-- The pages of one page table and the others. -/
theorem length_presentPages_cons {words : Nat → Nat → Nat} (h : deflagAddr (words d i) ≠ 0) :
    (presentPages words d (i :: is)).length
      = (presentEntries words (deflagAddr (words d i)) (List.range pageLen)).length
        + (presentPages words d is).length := by
  rw [presentPages_cons_of_ne h, List.length_append, List.length_map]

/-- **A round of the outer loop comes to its end** when `memalign` has a block as well. -/
theorem round_ends {a : Answer} {rest : List Answer} (h : Directory m d) (hcr3 : m.cr3 = d)
    (hb : Elsewhere m d b) (hi : i < pageLen) (hpde : deflagAddr (m.words d i) ≠ 0)
    (hs : presentEntries m.words (deflagAddr (m.words d i)) (List.range pageLen) ≠ [] →
      SlotFree m d entry)
    (hblock : IsBlock a.address) (hfresh : a.address ∉ m.heap) (hanswers : m.answers = a :: rest)
    (hcard : (presentEntries m.words (deflagAddr (m.words d i)) (List.range pageLen)).length
      < m.frames.aboveSet.card) :
    ∃ m1, Memory.copyTables d entry b [i] m = some (true, m1) := by
  have hne : m.words d i ≠ 0 := fun e => hpde (by rw [e, deflagAddr_zero])
  obtain ⟨hsame, hdir, helse⟩ := h.given hb hblock hfresh rest i
    (addFlag a.address (getFlag (m.words d i)))
  have hentries := presentEntries_congr (hsame.table i hi hne) (List.range pageLen)
  have halloc : m.memalign = some (a.address, m.given a rest) := by
    simp only [PhysMem.memalign, hanswers, hblock.1, hblock.2.1, hblock.2.2, hfresh, if_false,
      not_false_eq_true, and_self, if_true]
    rfl
  obtain ⟨m1, hinner⟩ : ∃ m1, Memory.copyEntries d entry _ a.address (List.range pageLen)
      ((m.given a rest).write b i _) = some (true, m1) :=
    copyEntries_ends hdir hcr3 helse hi (by rw [hsame.dir]; exact hne)
      (fun hne' => (hs (by rwa [hsame.dir, hentries] at hne')).congr hsame)
      (by rw [hsame.dir, hentries]; exact hcard)
  rw [hsame.dir] at hinner
  refine ⟨m1, ?_⟩
  simp only [Memory.copyTables, if_neg hpde, halloc, Option.bind_some, if_neg hblock.1, hinner,
    if_true]

/-- **The outer loop comes to its end** when the borrowed entry is free, or not needed, `memalign`
has blocks enough and there are frames enough. -/
theorem copyTables_ends (h : Directory m d) (hcr3 : m.cr3 = d)
    (hslot : m.words d entry.pdIndex ≠ 0) (hb : Elsewhere m d b) (his : ∀ x ∈ is, x < pageLen)
    (hnodup : is.Nodup) (hs : presentPages m.words d is ≠ [] → SlotFree m d entry)
    (hsupply : Supplied m.heap m.answers) (hnn : NonNull m.answers)
    (hlen : (presentTables m.words d is).length ≤ m.answers.length)
    (hcard : (presentPages m.words d is).length < m.frames.aboveSet.card) :
    ∃ m', Memory.copyTables d entry b is m = some (true, m') := by
  induction is generalizing m with
  | nil => exact ⟨m, rfl⟩
  | cons i is ih =>
      obtain ⟨hi, hrest⟩ := List.nodup_cons.mp hnodup
      have his' : ∀ x ∈ is, x < pageLen := fun x hx => his x (List.mem_cons_of_mem i hx)
      have hilt : i < pageLen := his i List.mem_cons_self
      by_cases hpde : deflagAddr (m.words d i) = 0
      · have htables : presentTables m.words d (i :: is) = presentTables m.words d is :=
          presentTables_cons_of_zero hpde
        rw [presentPages, htables] at hs hcard
        rw [htables] at hlen
        simp only [Memory.copyTables, if_pos hpde]
        exact ih h hcr3 hslot hb his' hrest hs hsupply hnn hlen hcard
      · rw [presentTables_cons_of_ne hpde, List.length_cons] at hlen
        rw [length_presentPages_cons hpde] at hcard
        rw [presentPages_cons_of_ne hpde] at hs
        obtain ⟨a, rest, hanswers⟩ := List.exists_cons_of_length_pos (Nat.lt_of_lt_of_le
          (Nat.succ_pos _) hlen)
        have hnull : a.address ≠ 0 := hnn a (hanswers ▸ List.mem_cons_self)
        rw [hanswers] at hsupply
        obtain ⟨hblock, hfresh, hsupply'⟩ := hsupply.resolve_left fun e => hnull e.1
        obtain ⟨m1, hone⟩ : ∃ m1, Memory.copyTables d entry b [i] m = some (true, m1) :=
          round_ends h hcr3 hb hilt hpde (fun hpages => hs fun e =>
            hpages (List.map_eq_nil_iff.mp (List.append_eq_nil_iff.mp e).1)) hblock hfresh hanswers
            (by omega)
        obtain ⟨s1, a', fs, hdone, -, hround⟩ := PagedMem.round_of_call (s := ⟨m, fun _ _ => 0⟩) h
          hcr3 hslot hb hilt hpde hone
        obtain ⟨-, rfl⟩ := Prod.mk.inj (Option.some.inj hdone)
        -- the answer that the round has used is the first one
        have hused : a :: rest = a' :: s1.memory.answers := hanswers.symm.trans hround.answers
        obtain ⟨rfl, rfl⟩ := List.cons.inj hused
        have hsame : SameSpace m.words s1.memory.words d := hround.sameSpace h hb
        have hpages := hsame.presentPages his'
        have habove : s1.memory.frames.aboveSet.card + fs.length = m.frames.aboveSet.card :=
          hround.takes.above h.ordered
        have hcount : (presentEntries m.words (deflagAddr (m.words d i))
            (List.range pageLen)).length = fs.length := by
          rw [← hround.frames, List.length_map]
        rw [copyTables_cons_of_one hone]
        refine ih hround.directory (hround.cr3.trans hcr3) (by rw [hsame.dir]; exact hslot)
          hround.elsewhere his' hrest (fun hne => ?_) (by rw [hround.heap]; exact hsupply')
          (fun x hx => hnn x (hanswers ▸ List.mem_cons_of_mem _ hx)) ?_ ?_
        · exact (hs fun e => hne (by
            rw [hpages]
            exact (List.append_eq_nil_iff.mp e).2)).congr hsame
        · rw [hsame.presentTables]
          rw [hanswers, List.length_cons] at hlen
          omega
        · rw [hpages]
          omega

/-- **The outer loop borrows the entry only when it is free.** -/
theorem slotFree_of_copyTables (h : Directory m d) (hcr3 : m.cr3 = d)
    (hslot : m.words d entry.pdIndex ≠ 0) (hb : Elsewhere m d b) (his : ∀ x ∈ is, x < pageLen)
    (hnodup : is.Nodup) (hpages : presentPages m.words d is ≠ [])
    (call : Memory.copyTables d entry b is m = some (true, m')) : SlotFree m d entry := by
  induction is generalizing m with
  | nil => exact absurd rfl hpages
  | cons i is ih =>
      obtain ⟨hi, hrest⟩ := List.nodup_cons.mp hnodup
      have his' : ∀ x ∈ is, x < pageLen := fun x hx => his x (List.mem_cons_of_mem i hx)
      have hilt : i < pageLen := his i List.mem_cons_self
      by_cases hpde : deflagAddr (m.words d i) = 0
      · simp only [Memory.copyTables, if_pos hpde] at call
        rw [presentPages, presentTables_cons_of_zero hpde] at hpages
        exact ih h hcr3 hslot hb his' hrest hpages call
      · obtain ⟨a, rest, m2, -, hblock, hfresh, -, hinner, -⟩ := copyTables_cons_of_call hpde call
        have hne : m.words d i ≠ 0 := fun e => hpde (by rw [e, deflagAddr_zero])
        by_cases hentries : presentEntries m.words (deflagAddr (m.words d i)) (List.range pageLen)
            = []
        · -- this page table has no page: the entry is borrowed for another one
          obtain ⟨s1, a', fs, hnext, -, hround⟩ := PagedMem.round_of_call (s := ⟨m, fun _ _ => 0⟩) h
            hcr3 hslot hb hilt hpde call
          have hsame := hround.sameSpace h hb
          refine (ih hround.directory (hround.cr3.trans hcr3) (by rw [hsame.dir]; exact hslot)
            hround.elsewhere his' hrest ?_ hnext).earlier hsame
          rw [hsame.presentPages his']
          rw [presentPages_cons_of_ne hpde, hentries] at hpages
          exact hpages
        · obtain ⟨hsame, hdir, -⟩ := h.given hb hblock hfresh rest i
            (addFlag a.address (getFlag (m.words d i)))
          refine (slotFree_of_copyEntries hdir (by rw [hsame.dir]; exact hslot) ?_ hinner).earlier
            hsame
          rw [presentEntries_congr (hsame.table i hilt hne)]
          exact hentries

/-- A block of the supply. -/
theorem memalign_of_supplied {a : Answer} {rest : List Answer} (hanswers : m.answers = a :: rest)
    (hsupply : Supplied m.heap m.answers) (hnull : a.address ≠ 0) :
    m.memalign = some (a.address, m.given a rest) ∧ IsBlock a.address ∧ a.address ∉ m.heap ∧
      Supplied (insert a.address m.heap) rest := by
  rw [hanswers] at hsupply
  obtain ⟨hblock, hfresh, hrest⟩ := hsupply.resolve_left fun e => hnull e.1
  refine ⟨?_, hblock, hfresh, hrest⟩
  simp only [PhysMem.memalign, hanswers, hnull, hblock.2.1, hblock.2.2, hfresh, if_false,
    not_false_eq_true, and_self, if_true]
  rfl

/-- **The copy comes to its end** when the borrowed entry is free, or not needed, and nothing runs
out. -/
theorem copySpace_ends {a0 : Answer} {as : List Answer} (h : Directory m d) (hcr3 : m.cr3 = d)
    (hfind : findFreeEntry m d = some entry) (hanswers : m.answers = a0 :: as)
    (hsupply : Supplied m.heap m.answers) (hnn : NonNull m.answers)
    (hlen : (presentTables m.words d userTables).length ≤ as.length)
    (hs : presentPages m.words d userTables ≠ [] → SlotFree m d entry)
    (hcard : (presentPages m.words d userTables).length < m.frames.aboveSet.card) :
    ∃ m', Memory.copySpace d entry a0.address (m.given a0 as) = some (true, m') := by
  obtain ⟨-, hblock, hfresh, hsupply'⟩ := memalign_of_supplied hanswers hsupply
    (hnn a0 (hanswers ▸ List.mem_cons_self))
  obtain ⟨words, hfold, -, hother⟩ := kernelEntries_copied (m := m) a0 as
    fun e => hfresh (e ▸ h.mem)
  obtain ⟨hsame, hdir, helse⟩ := h.beside as hblock hfresh hother
  have hrange : ∀ x ∈ userTables, x < pageLen := fun x hx => (mem_userTables.mp hx).2
  have htables := hsame.presentTables userTables
  have hpages := hsame.presentPages hrange
  have hslot : words d entry.pdIndex ≠ 0 := by
    rw [hsame.dir]
    exact findFreeEntry_table hfind
  rw [Memory.copySpace, hfold]
  refine copyTables_ends hdir hcr3 hslot helse hrange List.nodup_range'
    (fun hne => (hs (hpages ▸ hne)).congr hsame) hsupply'
    (fun x hx => hnn x (hanswers ▸ List.mem_cons_of_mem _ hx)) ?_ ?_
  · show (presentTables words d userTables).length ≤ as.length
    rw [htables]
    exact hlen
  · show (presentPages words d userTables).length < m.frames.aboveSet.card
    rw [hpages]
    exact hcard

/-- **The copy borrows the entry only when it is free.** -/
theorem slotFree_of_copySpace {a0 : Answer} {as : List Answer} (h : Directory m d)
    (hcr3 : m.cr3 = d) (hfind : findFreeEntry m d = some entry) (hblock : IsBlock a0.address)
    (hfresh : a0.address ∉ m.heap) (hpages : presentPages m.words d userTables ≠ [])
    (call : Memory.copySpace d entry a0.address (m.given a0 as) = some (true, m')) :
    SlotFree m d entry := by
  obtain ⟨words, hfold, -, hother⟩ := kernelEntries_copied (m := m) a0 as
    fun e => hfresh (e ▸ h.mem)
  obtain ⟨hsame, hdir, helse⟩ := h.beside as hblock hfresh hother
  have hrange : ∀ x ∈ userTables, x < pageLen := fun x hx => (mem_userTables.mp hx).2
  have hslot : words d entry.pdIndex ≠ 0 := by
    rw [hsame.dir]
    exact findFreeEntry_table hfind
  have hpages' : presentPages words d userTables ≠ [] := by
    rw [hsame.presentPages hrange]
    exact hpages
  rw [Memory.copySpace, hfold] at call
  exact (slotFree_of_copyTables hdir hcr3 hslot helse hrange List.nodup_range' hpages'
    call).earlier hsame

end

/-! ## The copy without contents -/

section
variable {s s' : PagedMem} {d b c i pt : Nat} {js is : List Nat} {entry : EntryInfo} {done : Bool}

/-- A `memcpy` leaves the page tables alone. -/
theorem PagedMem.copyPage_memory {src dst : Nat × Nat} (call : s.copyPage src dst = some s') :
    s'.memory = s.memory := by
  obtain ⟨f, -, hrest⟩ := Option.bind_eq_some_iff.mp call
  obtain ⟨g, -, rfl⟩ := Option.map_eq_some_iff.mp hrest
  rfl

/-- The inner loop does to the kernel's memory what the loop without contents does. -/
theorem PagedMem.copyEntries_memory (call : s.copyEntries d entry i pt c js = some (done, s')) :
    Memory.copyEntries d entry pt c js s.memory = some (done, s'.memory) := by
  induction js generalizing s with
  | nil =>
      obtain ⟨rfl, rfl⟩ := Prod.mk.inj (Option.some.inj call)
      rfl
  | cons j js ih =>
      simp only [PagedMem.copyEntries] at call
      simp only [Memory.copyEntries]
      split at call
      · next hpte =>
          rw [if_pos hpte]
          exact ih call
      · next hpte =>
          obtain ⟨⟨r, s1⟩, hmap, hround⟩ := Option.bind_eq_some_iff.mp call
          rw [if_neg hpte, virtualMapPhysical_memory hmap, Option.bind_some]
          dsimp only at hround ⊢
          split at hround
          · next hr =>
              obtain ⟨rfl, rfl⟩ := Prod.mk.inj (Option.some.inj hround)
              rw [if_pos hr]
          · next hr =>
              obtain ⟨s2, hcopy, hrest⟩ := Option.bind_eq_some_iff.mp hround
              have hnext := ih hrest
              dsimp only at hnext
              rw [copyPage_memory hcopy] at hnext
              rw [if_neg hr]
              exact hnext

/-- So does the outer loop. -/
theorem PagedMem.copyTables_memory (call : s.copyTables d entry b is = some (done, s')) :
    Memory.copyTables d entry b is s.memory = some (done, s'.memory) := by
  induction is generalizing s with
  | nil =>
      obtain ⟨rfl, rfl⟩ := Prod.mk.inj (Option.some.inj call)
      rfl
  | cons i is ih =>
      simp only [PagedMem.copyTables] at call
      simp only [Memory.copyTables]
      split at call
      · next hpde =>
          rw [if_pos hpde]
          exact ih call
      · next hpde =>
          obtain ⟨⟨c, m⟩, halloc, hrest⟩ := Option.bind_eq_some_iff.mp call
          rw [if_neg hpde, halloc, Option.bind_some]
          dsimp only at hrest ⊢
          split at hrest
          · next hc =>
              obtain ⟨rfl, rfl⟩ := Prod.mk.inj (Option.some.inj hrest)
              rw [if_pos hc]
          · next hc =>
              obtain ⟨⟨full, s1⟩, hinner, hnext⟩ := Option.bind_eq_some_iff.mp hrest
              rw [if_neg hc, copyEntries_memory hinner, Option.bind_some]
              dsimp only at hnext ⊢
              split at hnext
              · next hfull =>
                  rw [if_pos hfull]
                  exact ih hnext
              · next hfull =>
                  obtain ⟨rfl, rfl⟩ := Prod.mk.inj (Option.some.inj hnext)
                  rw [if_neg hfull]

/-- So does the whole copy. -/
theorem PagedMem.copySpace_memory {m : PhysMem} {bytes : Nat → Nat → UInt8}
    (call : PagedMem.copySpace d entry b ⟨m, bytes⟩ = some (done, s')) :
    Memory.copySpace d entry b m = some (done, s'.memory) :=
  copyTables_memory call

end

end Pebbles.Memory
