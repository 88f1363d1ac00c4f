import Pebbles.Memory.Directories

/-! # How failures are reported

`virtual_map_physical` is documented by its callers to return -1 when there is no frame left, and
`allocate_pages` and `free_pages` when a page of their range fails. `exhaustionReported_iff` says in
which states the first does so and `rangesReport_iff` for which ranges the other two do: the
failure values of `acquire_free_frame` and `virtual_map_physical` differ, the search for the next
free frame runs off the table, and the results of the pages are dropped. -/

namespace Pebbles.Memory

open Transition

/-! ## The results of the ranges -/

/-- The loop of `allocate_pages` and `free_pages` over the values `is` of `i`, with the result that
is returned. Nothing is ever assigned to `result`. -/
def rangeLoop (routine : PhysMem → Nat → Nat → Nat → Option (Int × PhysMem))
    (pd virtualAddr : Nat) : List Nat → PhysMem → Option (Int × PhysMem)
  | [], m => some (0, m)
  | i :: is, m =>
      let actualOffset := vaPtInd virtualAddr + i
      let result : Int := 0
      (routine m pd (vaPdInd virtualAddr + actualOffset / pageLen) (actualOffset % pageLen)).bind
        fun (_, m) => if result = -1 then some (-1, m) else rangeLoop routine pd virtualAddr is m

/-- `allocate_pages`, with its result. -/
def allocatePagesResult (m : PhysMem) (pd virtualAddr size : Nat) : Option (Int × PhysMem) :=
  rangeLoop virtualMapPhysical pd virtualAddr (List.range (pageTimes virtualAddr size)) m

/-- `free_pages`, with its result. -/
def freePagesResult (m : PhysMem) (pd virtualAddr size : Nat) : Option (Int × PhysMem) :=
  rangeLoop virtualUnmapPhysical pd virtualAddr (List.range (pageTimes virtualAddr size)) m

/-- **The loop returns 0**, whatever its routine answers. -/
theorem rangeLoop_eq (routine : PhysMem → Nat → Nat → Nat → Option (Int × PhysMem)) (m : PhysMem)
    (pd va size : Nat) :
    rangeLoop routine pd va (List.range (pageTimes va size)) m
      = (forPages routine m pd va size).map fun m => (0, m) := by
  rw [forPages]
  generalize List.range (pageTimes va size) = is
  induction is generalizing m with
  | nil => rfl
  | cons i is ih =>
      simp only [rangeLoop, List.foldlM_cons, Option.bind_eq_bind,
        show ¬ (0 : Int) = -1 by decide, if_false]
      cases routine m pd (vaPdInd va + (vaPtInd va + i) / pageLen) ((vaPtInd va + i) % pageLen) with
      | none => rfl
      | some answer => exact ih answer.2

/-- The frames do not suffice for the pages of the range that are not mapped. -/
def LacksFrames (m : PhysMem) (pd va size : Nat) : Prop :=
  acquireMany (missing m.words pd (pageRange va size)).length m.frames = none

/-- **The claim about `allocate_pages`**: -1 when a page could not be mapped for lack of a frame, 0
in all other cases. -/
def AllocateReports (m : PhysMem) (pd va size : Nat) : Prop :=
  ∃ r m', allocatePagesResult m pd va size = some (r, m') ∧
    (LacksFrames m pd va size → r = -1) ∧ (¬ LacksFrames m pd va size → r = 0)

/-- **The claim about `free_pages`**: -1 when a page was not mapped, 0 in all other cases. -/
def FreeReports (m : PhysMem) (pd va size : Nat) : Prop :=
  ∃ r m', freePagesResult m pd va size = some (r, m') ∧
    ((∃ p ∈ pageRange va size, entryOf m.words pd p = 0) → r = -1) ∧
    ((∀ p ∈ pageRange va size, entryOf m.words pd p ≠ 0) → r = 0)

/-- The range ends within the page directory. -/
def InDirectory (va size : Nat) : Prop := ∀ p ∈ pageRange va size, p.1 < pageLen

section
variable {m : PhysMem} {pd va size : Nat}

/-- The frames suffice when more of them are within reach than pages are missing. -/
theorem not_lacksFrames_iff (hok : m.frames.Ordered) :
    ¬ LacksFrames m pd va size ↔
      (missing m.words pd (pageRange va size)).length < m.frames.aboveSet.card := by
  rw [LacksFrames, ← acquireMany_isSome_iff_of_ordered hok, ← Option.not_isSome_iff_eq_none, not_not]

/-- **What the ranges report.** `allocate_pages` reports as it should exactly when its range lies in
the page directory and there are enough frames within reach, and `free_pages` exactly when its
range lies in the page directory and all its pages are mapped: when there is nothing to report. -/
theorem rangesReport_iff (h : Directory m pd) (hsupply : Supplied m.heap m.answers)
    (hlen : pageTimes va size ≤ m.answers.length)
    (hframes : ∀ p : Nat × Nat, p.1 < pageLen → p.2 < pageLen → entryOf m.words pd p ≠ 0 →
      FrameInTable (entryOf m.words pd p)) :
    (AllocateReports m pd va size ↔ InDirectory va size ∧
      (missing m.words pd (pageRange va size)).length < m.frames.aboveSet.card) ∧
    (FreeReports m pd va size ↔ InDirectory va size ∧
      ∀ p ∈ pageRange va size, entryOf m.words pd p ≠ 0) := by
  have hlength : (pageRange va size).length = pageTimes va size := by simp [pageRange]
  have hsorted := pageRange_pairwise va size
  constructor
  · rw [AllocateReports]
    simp only [allocatePagesResult, rangeLoop_eq]
    show (∃ r m', (allocatePages m pd va size).map (fun m => ((0 : Int), m)) = some (r, m') ∧ _) ↔ _
    rw [allocatePages_eq]
    constructor
    · rintro ⟨r, m', hres, hlacks, -⟩
      obtain ⟨m1, hloop, hpair⟩ := Option.map_eq_some_iff.mp hres
      obtain ⟨rfl, rfl⟩ := Prod.mk.inj hpair
      refine ⟨index_lt_of_mapAll hloop, (not_lacksFrames_iff h.ordered).mp fun hl => ?_⟩
      exact absurd (hlacks hl) (by decide)
    · rintro ⟨hin, hcard⟩
      obtain ⟨n, hn⟩ := Nat.exists_eq_add_of_le' ((tablesMissing_le m.words pd _).trans
        (hlength.trans_le hlen))
      have hsome := (mapAll_isSome_iff h.ordered h.first_frame hsupply hn (h.ahead hin) hsorted
        hin).mpr hcard
      obtain ⟨m', hloop⟩ := Option.isSome_iff_exists.mp hsome
      refine ⟨0, m', by rw [hloop]; rfl, fun hl => ?_, fun _ => rfl⟩
      exact absurd hl ((not_lacksFrames_iff h.ordered).mpr hcard)
  · rw [FreeReports]
    simp only [freePagesResult, rangeLoop_eq]
    show (∃ r m', (freePages m pd va size).map (fun m => ((0 : Int), m)) = some (r, m') ∧ _) ↔ _
    rw [freePages_eq]
    constructor
    · rintro ⟨r, m', hres, hunmapped, -⟩
      obtain ⟨m1, hloop, hpair⟩ := Option.map_eq_some_iff.mp hres
      obtain ⟨rfl, rfl⟩ := Prod.mk.inj hpair
      refine ⟨index_lt_of_unmapAll hloop, fun p hp hzero => ?_⟩
      exact absurd (hunmapped ⟨p, hp, hzero⟩) (by decide)
    · rintro ⟨hin, hmapped⟩
      have hsome := unmapAll_isSome (h.ahead hin) hsorted hin fun p hp =>
        hframes p (hin p hp) (pageRange_lt hp)
      obtain ⟨m', hloop⟩ := Option.isSome_iff_exists.mp hsome
      refine ⟨0, m', by rw [hloop]; rfl, ?_, fun _ => rfl⟩
      rintro ⟨p, hp, hzero⟩
      exact absurd hzero (hmapped p hp)

end

/-- A page directory at 4096 without any page table; the kernel holds frame 0, and frame 1 is the
next one. There are two answers of `memalign` left. -/
def emptyDirectory : PhysMem where
  frames := { (initFreeFrame totalPhysFrames).setRefcount 0 1 with
    freeFrame := some 1, freeFrameNum := 65535 }
  words := fun _ _ => 0
  heap := {4096}
  answers := [⟨8192, fun _ => 0⟩, ⟨12288, fun _ => 0⟩]
  cr3 := 4096

/-- The first acquire from boot leaves this frame table. -/
theorem acquire_emptyDirectory :
    acquireFreeFrame (initFreeFrame totalPhysFrames) = some (0, emptyDirectory.frames) := rfl

/-- It is a page directory. -/
theorem directory_emptyDirectory : Directory emptyDirectory 4096 where
  ordered := (ok_initFreeFrame.acquire acquire_emptyDirectory).ordered
  first_frame := rfl
  null := by decide
  mem := by decide
  table_mem := fun i _ hne => absurd rfl hne
  table_ne := fun i _ hne => absurd rfl hne
  table_inj := fun i _ _ _ hne => absurd rfl hne

/-- The answers are good. -/
theorem supplied_emptyDirectory : Supplied emptyDirectory.heap emptyDirectory.answers := by
  refine Or.inr ⟨⟨by decide, by decide, by decide⟩, by decide, Or.inr ⟨⟨by decide, by decide,
    by decide⟩, by decide, trivial⟩⟩

/-- **A page that was not mapped goes unreported**: `free_pages` of one such page returns 0. -/
theorem unmapped_page_unreported :
    (∃ p ∈ pageRange 0x01000000 4096, entryOf emptyDirectory.words 4096 p = 0) ∧
      freePagesResult emptyDirectory 4096 0x01000000 4096 = some (0, emptyDirectory) ∧
      ¬ FreeReports emptyDirectory 4096 0x01000000 4096 := by
  have hpage : (4, 0) ∈ pageRange 0x01000000 4096 := by decide
  have hres : freePagesResult emptyDirectory 4096 0x01000000 4096 = some (0, emptyDirectory) := rfl
  refine ⟨⟨(4, 0), hpage, rfl⟩, hres, ?_⟩
  rintro ⟨r, m', hcall, hreport, -⟩
  obtain ⟨rfl, -⟩ := Prod.mk.inj (Option.some.inj (hres.symm.trans hcall))
  exact absurd (hreport ⟨(4, 0), hpage, rfl⟩) (by decide)

/-- `rangesReport_iff` at one page of the empty page directory. -/
theorem rangesReport_iff_emptyDirectory :
    (AllocateReports emptyDirectory 4096 0x01000000 4096 ↔ InDirectory 0x01000000 4096 ∧
      (missing emptyDirectory.words 4096 (pageRange 0x01000000 4096)).length
        < emptyDirectory.frames.aboveSet.card) ∧
    (FreeReports emptyDirectory 4096 0x01000000 4096 ↔ InDirectory 0x01000000 4096 ∧
      ∀ p ∈ pageRange 0x01000000 4096, entryOf emptyDirectory.words 4096 p ≠ 0) :=
  rangesReport_iff directory_emptyDirectory supplied_emptyDirectory (by decide)
    fun p _ _ hne => absurd rfl hne

/-! ## The last frame -/

/-- **The claim about exhaustion** at the page `p`, which is not mapped. -/
structure ExhaustionReported (m : PhysMem) (pd : Nat) (p : Nat × Nat) : Prop where
  /-- The page is mapped when some frame is available. -/
  maps : m.frames.freeSet.Nonempty → ∃ m' f, virtualMapPhysical m pd p.1 p.2 = some (0, m') ∧
    f < totalPhysFrames ∧ entryOf m'.words pd p = addFlag (f * pageSize) 0x7
  /-- Else -1 is returned, and nothing changes. -/
  reports : ¬ m.frames.freeSet.Nonempty → ∃ m', virtualMapPhysical m pd p.1 p.2 = some (-1, m') ∧
    m'.words = m.words ∧ m'.frames = m.frames
  /-- `acquire_free_frame` stays within the table. -/
  inside : (acquireFreeFrame m.frames).isSome

section
variable {m : PhysMem} {pd : Nat} {p : Nat × Nat}

/-- **When exhaustion is reported.** For every frame table that a history of calls leads to on any
machine, and every page that is not mapped: the claim holds exactly when at least two free frames
are within reach of `free_frame` and it does not point to frame 0. Some frame is always available
then, for the allocator cannot get to the end of its frames without running off the table. -/
theorem exhaustionReported_iff {n : Nat} {calls : List FrameCall} {s : AllocState}
    (run : Run AllocStep (initAlloc n) calls s) (hframes : m.frames = s.table)
    (ha : Ahead m pd [p]) (hi : p.1 < pageLen) (hzero : entryOf m.words pd p = 0)
    (hsupply : Supplied m.heap m.answers) (hanswers : m.answers ≠ []) :
    ExhaustionReported m pd p ↔ 1 < m.frames.aboveSet.card ∧ m.frames.freeFrame ≠ some 0 := by
  have hok : m.frames.Ordered := hframes ▸ ordered_of_run run
  obtain ⟨i, hfree, hmem⟩ := hok.free_pointer
  have havailable : m.frames.freeSet.Nonempty := ⟨i, hmem⟩
  constructor
  · intro hreported
    refine ⟨(acquire_isSome_iff_of_ordered hok).mp hreported.inside, fun hpos => ?_⟩
    -- frame 0 is taken for a failure
    obtain ⟨m', f, hcall, -⟩ := hreported.maps havailable
    obtain ⟨⟨address, frames⟩, hacq⟩ := Option.isSome_iff_exists.mp hreported.inside
    obtain ⟨f', rfl, htakes⟩ := acquire_takes hok hacq
    obtain rfl : f' = 0 := Option.some.inj (htakes.pointer.symm.trans hpos)
    have hfail : virtualMapPhysical m pd p.1 p.2 = some (-1, m.setFrames frames) := by
      by_cases hpde : m.words pd p.1 = 0
      · simp [virtualMapPhysical, hi, hpde, hacq]
      · have hpte : m.words (deflagAddr (m.words pd p.1)) p.2 = 0 := by
          rw [← entryOf_of_table hpde]
          exact hzero
        simp [virtualMapPhysical, hi, hpde, hpte, hacq]
    obtain ⟨hr, -⟩ := Prod.mk.inj (Option.some.inj (hfail.symm.trans hcall))
    exact absurd hr (by decide)
  · rintro ⟨hcard, hpos⟩
    have hsome := (virtualMapPhysical_isSome_iff pd hok hpos hsupply (fun _ => hanswers) hi).mpr (Or.inr hcard)
    obtain ⟨⟨r, m'⟩, hcall⟩ := Option.isSome_iff_exists.mp hsome
    obtain ⟨-, heffect⟩ := mapEffect_of_call hok hpos hcall
    obtain rfl := heffect.result hzero
    obtain ⟨f, hlt, hentry⟩ := heffect.maps ha
    exact ⟨fun _ => ⟨m', f, hcall, hlt, hentry⟩, fun hno => absurd havailable hno,
      (acquire_isSome_iff_of_ordered hok).mpr hcard⟩

end

/-- **The last frame**: after 65535 acquires one free frame is left, and the next call of
`acquire_free_frame` runs off the table while it hands this frame out. -/
theorem last_frame_runs_off_table :
    ∃ calls s, Run AllocStep (initAlloc totalPhysFrames) calls s ∧ s.table.freeSet.Nonempty ∧
      acquireFreeFrame s.table = none ∧
      ¬ ExhaustionReported (emptyDirectory.setFrames s.table) 4096 (4, 0) := by
  have hall : (initFreeFrame totalPhysFrames).aboveSet.card = 65536 := by
    have hset : (initFreeFrame totalPhysFrames).aboveSet = Finset.range totalPhysFrames := by
      ext i
      simp [FrameTable.aboveSet, initFreeFrame, FrameTable.refcount]
    rw [hset, Finset.card_range]
    rfl
  have hmany : (acquireMany 65535 (initFreeFrame totalPhysFrames)).isSome := by
    rw [acquireMany_isSome_iff ok_initFreeFrame, hall]
    omega
  obtain ⟨⟨addresses, t⟩, hacq⟩ := Option.isSome_iff_exists.mp hmany
  obtain ⟨held, run⟩ := run_acquireMany (initAlloc totalPhysFrames) hacq
  have hordered : t.Ordered := ordered_of_run run
  have hone : acquireFreeFrame t = none := by
    obtain ⟨-, hleft⟩ := acquireMany_left ok_initFreeFrame.ordered hacq
    rw [← Option.not_isSome_iff_eq_none, acquire_isSome_iff_of_ordered hordered]
    omega
  obtain ⟨i, -, hfree⟩ := hordered.free_pointer
  refine ⟨_, _, run, ⟨i, hfree⟩, hone, fun hreported => ?_⟩
  have hinside := hreported.inside
  rw [show (emptyDirectory.setFrames t).frames = t from rfl, hone] at hinside
  cases hinside

/-- `exhaustionReported_iff` after the first acquire from boot, at the first user page. -/
theorem exhaustionReported_iff_emptyDirectory :
    ExhaustionReported emptyDirectory 4096 (4, 0) ↔
      1 < emptyDirectory.frames.aboveSet.card ∧ emptyDirectory.frames.freeFrame ≠ some 0 :=
  exhaustionReported_iff (n := totalPhysFrames) (s := ⟨emptyDirectory.frames, insert (0 / pageSize) ∅⟩)
    (Run.nil.snoc (AllocStep.acquire acquire_emptyDirectory)) rfl
    (directory_emptyDirectory.ahead (by decide)) (by decide) rfl supplied_emptyDirectory (by decide)

end Pebbles.Memory
