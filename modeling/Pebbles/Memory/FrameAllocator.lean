import Pebbles.Memory.FrameTable

/-! # Histories of the frame allocator

The frame allocator as a system: from `init_free_frame` on, callers take frames with
`acquire_free_frame` and give back, with `release_free_frame`, a frame they hold. The first part
shows that no frame is ever handed out twice. The second part measures what a caller can really
obtain: a release moves `free_frame` to the released record, the chain only runs upwards, and so
the free records below `free_frame` are out of reach. -/

namespace Pebbles.Memory

open Transition

/-- The allocator together with the frames its callers currently hold. -/
structure AllocState where
  /-- The static state of `vm_routines.c`. -/
  table : FrameTable
  /-- The frames acquired and not released since. -/
  held : Finset Nat

/-- The calls of the allocator, with the address each one returns or names. -/
inductive FrameCall where
  /-- `acquire_free_frame()` returning `address`. -/
  | acquire (address : Nat)
  /-- `release_free_frame(address)`. -/
  | release (address : Nat)

/-- **One call.** An acquire that would walk past the last record of the table has no step; a
release names a frame that is held. -/
inductive AllocStep : AllocState → FrameCall → AllocState → Prop
  /-- A frame is handed out. -/
  | acquire {s : AllocState} {address : Nat} {t : FrameTable}
      (call : acquireFreeFrame s.table = some (address, t)) :
      AllocStep s (.acquire address) ⟨t, insert (address / pageSize) s.held⟩
  /-- A held frame is given back. -/
  | release {s : AllocState} {i : Nat} {t : FrameTable} (holds : i ∈ s.held)
      (call : releaseFreeFrame s.table (i * pageSize) = some t) :
      AllocStep s (.release (i * pageSize)) ⟨t, s.held.erase i⟩

/-- The state after `init_free_frame` on a machine that reports 65536 frames. -/
def bootAlloc : AllocState := ⟨initFreeFrame totalPhysFrames, ∅⟩

/-- The allocator invariant, with the held frames as the records of count 1. -/
structure AllocState.Ok (s : AllocState) : Prop where
  /-- The table is in order. -/
  table_ok : s.table.Ok
  /-- The held frames are the records of count 1. -/
  held_iff : ∀ i, i ∈ s.held ↔ i < totalPhysFrames ∧ s.table.refcount i = 1

/-- Nothing is held at boot. -/
theorem ok_bootAlloc : bootAlloc.Ok := by
  refine ⟨ok_initFreeFrame, fun i => ?_⟩
  simp [bootAlloc, initFreeFrame, FrameTable.refcount]

/-- Every call keeps the invariant. -/
theorem AllocState.Ok.step {s s' : AllocState} {c : FrameCall} (h : s.Ok)
    (hstep : AllocStep s c s') : s'.Ok := by
  cases hstep with
  | acquire call =>
      refine ⟨h.table_ok.acquire call, fun j => ?_⟩
      obtain ⟨i, p, -, hfree, rfl, -, -, -, rfl⟩ := acquire_spec h.table_ok call
      have hdiv : i * pageSize / pageSize = i := Nat.mul_div_cancel i (by decide)
      have hr : FrameTable.refcount { s.table.setRefcount i 1 with
          freeFrame := some p, freeFrameNum := s.table.freeFrameNum - 1 } j
          = (s.table.setRefcount i 1).refcount j := rfl
      rw [hdiv, Finset.mem_insert, h.held_iff, hr, refcount_setRefcount]
      by_cases hj : j = i
      · simp [hj, (mem_freeSet.mp hfree).1]
      · simp [hj]
  | @release i t holds call =>
      obtain ⟨hi, hused⟩ := (h.held_iff i).mp holds
      refine ⟨h.table_ok.release hi hused call, fun j => ?_⟩
      rw [release_spec hi hused] at call
      obtain rfl := Option.some.inj call
      have hr : FrameTable.refcount { s.table.setRefcount i 0 with
          freeFrame := some i, freeFrameNum := s.table.freeFrameNum + 1 } j
          = (s.table.setRefcount i 0).refcount j := rfl
      rw [Finset.mem_erase, h.held_iff, hr, refcount_setRefcount]
      by_cases hj : j = i <;> simp [hj]

/-- The invariant holds after every history of calls. -/
theorem ok_of_run {calls : List FrameCall} {s : AllocState}
    (run : Run AllocStep bootAlloc calls s) : s.Ok :=
  run.invariant ok_bootAlloc fun _ _ _ h hstep => h.step hstep

/-- **Frame allocator safety.** After every history of calls `free_frame` points to a record with
count 0, an acquire hands out no frame that is held, every count is 0 or 1, and `free_frame_num`
is the number of records with count 0. -/
theorem frame_allocator_safe {calls : List FrameCall} {s : AllocState}
    (run : Run AllocStep bootAlloc calls s) :
    (∃ i < totalPhysFrames, s.table.freeFrame = some i ∧ s.table.refcount i = 0) ∧
      (∀ address t, acquireFreeFrame s.table = some (address, t) →
        ∃ i < totalPhysFrames, address = i * pageSize ∧ i ∉ s.held) ∧
      (∀ i < totalPhysFrames, s.table.refcount i = 0 ∨ s.table.refcount i = 1) ∧
      s.table.freeFrameNum
        = ((Finset.range totalPhysFrames).filter fun i => s.table.refcount i = 0).card := by
  have h := ok_of_run run
  refine ⟨?_, ?_, ?_, h.table_ok.count⟩
  · obtain ⟨i, hi, hfree⟩ := h.table_ok.free_pointer
    exact ⟨i, (mem_freeSet.mp hfree).1, hi, (mem_freeSet.mp hfree).2⟩
  · intro address t call
    obtain ⟨i, -, -, hfree, rfl, -⟩ := acquire_spec h.table_ok call
    obtain ⟨hlt, hzero⟩ := mem_freeSet.mp hfree
    refine ⟨i, hlt, rfl, fun hheld => ?_⟩
    have hone := ((h.held_iff i).mp hheld).2
    omega
  · intro i hi
    have hle := h.table_ok.refcount_le i hi
    omega

/-- The table after `init_free_frame` and two acquires. -/
def twoTaken : FrameTable :=
  { ((initFreeFrame totalPhysFrames).setRefcount 0 1).setRefcount 1 1 with
    freeFrame := some 2, freeFrameNum := 65534 }

/-- Two acquires from boot hand out the frames 0 and 1. -/
theorem run_twoTaken : Run AllocStep bootAlloc [.acquire 0, .acquire 4096] ⟨twoTaken, {1, 0}⟩ :=
  .snoc (.snoc .nil (.acquire (t := { (initFreeFrame totalPhysFrames).setRefcount 0 1 with
    freeFrame := some 1, freeFrameNum := 65535 }) rfl)) (.acquire (t := twoTaken) rfl)

/-- `frame_allocator_safe` at the history of two acquires: two of the frames are gone. -/
theorem frame_allocator_safe_two_taken :
    (∃ i < totalPhysFrames, twoTaken.freeFrame = some i ∧ twoTaken.refcount i = 0) ∧
      (∀ address t, acquireFreeFrame twoTaken = some (address, t) →
        ∃ i < totalPhysFrames, address = i * pageSize ∧ i ∉ ({1, 0} : Finset Nat)) ∧
      (∀ i < totalPhysFrames, twoTaken.refcount i = 0 ∨ twoTaken.refcount i = 1) ∧
      (65534 : Int)
        = ((Finset.range totalPhysFrames).filter fun i => twoTaken.refcount i = 0).card :=
  frame_allocator_safe run_twoTaken

/-! ## What a caller can obtain -/

/-- `n` consecutive calls of `acquire_free_frame`, with the addresses they return. -/
def acquireMany : Nat → FrameTable → Option (List Nat × FrameTable)
  | 0, t => some ([], t)
  | n + 1, t =>
      (acquireFreeFrame t).bind fun r =>
        (acquireMany n r.2).map fun rest => (r.1 :: rest.1, rest.2)

/-- The free records that the upward chain reaches from `free_frame`. -/
def FrameTable.aboveSet (t : FrameTable) : Finset Nat :=
  t.freeSet.filter fun j => ∀ i ∈ t.freeFrame, i ≤ j

/-- The claim of the allocator about a table with `k` free records: `k` more acquires succeed and
hand out `k` distinct free frames. -/
def FrameTable.ObtainsAllFree (t : FrameTable) : Prop :=
  ∃ addresses t', acquireMany t.freeSet.card t = some (addresses, t') ∧ addresses.Nodup ∧
    ∀ a ∈ addresses, ∃ i ∈ t.freeSet, a = i * pageSize

/-- `free_frame` itself is within reach. -/
theorem mem_aboveSet_self {t : FrameTable} {i : Nat} (hi : t.freeFrame = some i)
    (hfree : i ∈ t.freeSet) : i ∈ t.aboveSet := by
  simp [FrameTable.aboveSet, hi, (mem_freeSet.mp hfree).1, (mem_freeSet.mp hfree).2]

/-- One acquire takes exactly `free_frame` out of reach. -/
theorem aboveSet_acquire {t t' : FrameTable} {address : Nat} (h : t.Ok)
    (hacq : acquireFreeFrame t = some (address, t')) :
    ∃ i ∈ t.aboveSet, address = i * pageSize ∧ t'.aboveSet = t.aboveSet.erase i := by
  obtain ⟨i, p, hi, hfree, rfl, hip, hp, hmin, rfl⟩ := acquire_spec h hacq
  refine ⟨i, mem_aboveSet_self hi hfree, rfl, ?_⟩
  ext j
  simp only [FrameTable.aboveSet, freeSet_take, Finset.mem_filter, Finset.mem_erase, hi,
    Option.mem_def, Option.some.injEq, forall_eq']
  constructor
  · rintro ⟨⟨hne, hj⟩, hpj⟩
    exact ⟨hne, hj, by omega⟩
  · rintro ⟨hne, hj, hij⟩
    exact ⟨⟨hne, hj⟩, hmin j hj (by omega)⟩

/-- An acquire succeeds exactly when another free record lies within reach: the search that
follows the hand-out must find it before the end of the table. -/
theorem acquire_isSome_iff {t : FrameTable} (h : t.Ok) :
    (acquireFreeFrame t).isSome ↔ 1 < t.aboveSet.card := by
  obtain ⟨i, hi, hfree⟩ := h.free_pointer
  have hself := mem_aboveSet_self hi hfree
  have hz := (mem_freeSet.mp hfree).2
  have hacq : (acquireFreeFrame t).isSome
      ↔ ∃ p, i ≤ p ∧ p < totalPhysFrames ∧ (t.setRefcount i 1).refcount p = 0 := by
    rw [← seek_isSome_iff totalPhysFrames (h.chained.setRefcount i 1) (by omega)]
    simp [acquireFreeFrame, hi, hz]
  rw [hacq, Finset.one_lt_card_iff]
  constructor
  · rintro ⟨p, hip, hp, hpz⟩
    rw [refcount_setRefcount] at hpz
    have hne : p ≠ i := fun e => by simp [e] at hpz
    rw [if_neg hne] at hpz
    have hmem : p ∈ t.aboveSet := by simp [FrameTable.aboveSet, hi, hp, hpz, hip]
    exact ⟨i, p, hself, hmem, hne.symm⟩
  · rintro ⟨a, b, ha, hb, hab⟩
    simp only [FrameTable.aboveSet, Finset.mem_filter, mem_freeSet, hi, Option.mem_def,
      Option.some.injEq, forall_eq'] at ha hb
    -- one of two distinct records within reach is not `free_frame`
    by_cases hai : a = i
    · exact ⟨b, hb.2, hb.1.1, by rw [refcount_setRefcount, if_neg (by omega)]; exact hb.1.2⟩
    · exact ⟨a, ha.2, ha.1.1, by rw [refcount_setRefcount, if_neg hai]; exact ha.1.2⟩

/-- **What can be obtained**: `n` acquires succeed exactly when more than `n` free records lie at
or above `free_frame`. -/
theorem acquireMany_isSome_iff {t : FrameTable} (h : t.Ok) (n : Nat) :
    (acquireMany n t).isSome ↔ n < t.aboveSet.card := by
  induction n generalizing t with
  | zero =>
      obtain ⟨i, hi, hfree⟩ := h.free_pointer
      simpa [acquireMany] using Finset.card_pos.mpr ⟨i, mem_aboveSet_self hi hfree⟩
  | succ n ih =>
      cases hacq : acquireFreeFrame t with
      | none =>
          have hno : ¬ 1 < t.aboveSet.card := by
            rw [← acquire_isSome_iff h, hacq]
            simp
          simp only [acquireMany, hacq, Option.bind_none, Option.isSome_none, Bool.false_eq_true,
            false_iff]
          omega
      | some r =>
          obtain ⟨address, t'⟩ := r
          obtain ⟨i, hi, -, hset⟩ := aboveSet_acquire h hacq
          have hcard := Finset.card_erase_add_one hi
          have hrest := ih (h.acquire hacq)
          rw [hset] at hrest
          simp only [acquireMany, hacq, Option.bind_some, Option.isSome_map]
          rw [hrest]
          omega

/-- The frames obtained by consecutive acquires are distinct free frames within reach. -/
theorem acquireMany_frames {t t' : FrameTable} {n : Nat} {addresses : List Nat} (h : t.Ok)
    (hacq : acquireMany n t = some (addresses, t')) :
    addresses.Nodup ∧ ∀ a ∈ addresses, ∃ i ∈ t.aboveSet, a = i * pageSize := by
  induction n generalizing t addresses with
  | zero =>
      simp only [acquireMany, Option.some.injEq, Prod.mk.injEq] at hacq
      simp [← hacq.1]
  | succ n ih =>
      simp only [acquireMany, Option.bind_eq_some_iff, Option.map_eq_some_iff] at hacq
      obtain ⟨⟨a, t1⟩, h1, ⟨as, t2⟩, h2, hpair⟩ := hacq
      simp only [Prod.mk.injEq] at hpair
      obtain ⟨rfl, rfl⟩ := hpair
      obtain ⟨i, hi, rfl, hset⟩ := aboveSet_acquire h h1
      obtain ⟨hnodup, hfrom⟩ := ih (h.acquire h1) h2
      rw [hset] at hfrom
      refine ⟨List.nodup_cons.mpr ⟨fun hmem => ?_, hnodup⟩, fun b hb => ?_⟩
      · obtain ⟨j, hj, hij⟩ := hfrom _ hmem
        have heq : i = j := Nat.eq_of_mul_eq_mul_right (by decide : 0 < pageSize) hij
        exact (Finset.mem_erase.mp hj).1 heq.symm
      · rcases List.mem_cons.mp hb with rfl | hb
        · exact ⟨i, hi, rfl⟩
        · obtain ⟨j, hj, hbj⟩ := hfrom b hb
          exact ⟨j, Finset.mem_of_mem_erase hj, hbj⟩

/-- **The free frames are never all obtainable.** After no history of calls do as many acquires
succeed as there are free records: the one that takes the last record within reach runs off the
table. All but the last can be obtained exactly when no free record lies below `free_frame`, and
then they are distinct free frames. -/
theorem free_frames_not_obtainable {calls : List FrameCall} {s : AllocState}
    (run : Run AllocStep bootAlloc calls s) :
    ¬ s.table.ObtainsAllFree ∧
      ∀ n, n + 1 = s.table.freeSet.card →
        ((∃ addresses t', acquireMany n s.table = some (addresses, t') ∧ addresses.Nodup ∧
            ∀ a ∈ addresses, ∃ i ∈ s.table.freeSet, a = i * pageSize) ↔
          ∀ i ∈ s.table.freeFrame, ∀ j < i, s.table.refcount j ≠ 0) := by
  have h := (ok_of_run run).table_ok
  obtain ⟨i, hi, hfree⟩ := h.free_pointer
  have hsub : s.table.aboveSet ⊆ s.table.freeSet := Finset.filter_subset _ _
  have hle := Finset.card_le_card hsub
  refine ⟨?_, fun n hn => ?_⟩
  · rintro ⟨addresses, t', hacq, -⟩
    have hlt := (acquireMany_isSome_iff h s.table.freeSet.card).mp (by simp [hacq])
    omega
  · constructor
    · rintro ⟨addresses, t', hacq, -⟩ k hk j hj hz
      have hlt := (acquireMany_isSome_iff h n).mp (by simp [hacq])
      have hset : s.table.aboveSet = s.table.freeSet :=
        Finset.eq_of_subset_of_card_le hsub (by omega)
      have hkt : k < totalPhysFrames := by
        rw [hi, Option.mem_def, Option.some.injEq] at hk
        exact hk ▸ (mem_freeSet.mp hfree).1
      have hmem : j ∈ s.table.aboveSet := hset ▸ mem_freeSet.mpr ⟨by omega, hz⟩
      have hkj := (Finset.mem_filter.mp hmem).2 k hk
      omega
    · intro hbelow
      have hset : s.table.aboveSet = s.table.freeSet := by
        refine Finset.filter_true_of_mem fun j hj k hk => ?_
        by_contra hlt
        exact hbelow k hk j (by omega) (mem_freeSet.mp hj).2
      have hsome := (acquireMany_isSome_iff h n).mpr (by
        rw [hset]
        omega)
      obtain ⟨⟨addresses, t'⟩, hacq⟩ := Option.isSome_iff_exists.mp hsome
      obtain ⟨hnodup, hfrom⟩ := acquireMany_frames h hacq
      refine ⟨addresses, t', hacq, hnodup, fun a ha => ?_⟩
      obtain ⟨j, hj, haj⟩ := hfrom a ha
      exact ⟨j, hsub hj, haj⟩

/-- The table after two acquires and the release of frame 0, then of frame 1: every record is
free, and `free_frame` points to record 1. -/
def oneLost : FrameTable :=
  { (({ twoTaken.setRefcount 0 0 with freeFrame := some 0, freeFrameNum := 65535 } :
      FrameTable).setRefcount 1 0) with freeFrame := some 1, freeFrameNum := 65536 }

/-- Every record of `oneLost` is free. -/
theorem refcount_oneLost (i : Nat) : oneLost.refcount i = 0 := by
  show (FrameTable.refcount (FrameTable.setRefcount { twoTaken.setRefcount 0 0 with
    freeFrame := some 0, freeFrameNum := 65535 } 1 0) i) = 0
  rw [refcount_setRefcount]
  split
  · rfl
  · rename_i h1
    show (twoTaken.setRefcount 0 0).refcount i = 0
    rw [refcount_setRefcount]
    split
    · rfl
    · rename_i h0
      show (((initFreeFrame totalPhysFrames).setRefcount 0 1).setRefcount 1 1).refcount i = 0
      rw [refcount_setRefcount, if_neg h1, refcount_setRefcount, if_neg h0]
      rfl

/-- Releasing the frames in the order of their acquisition leads to `oneLost`. -/
theorem run_oneLost :
    Run AllocStep bootAlloc [.acquire 0, .acquire 4096, .release 0, .release 4096]
      ⟨oneLost, (({1, 0} : Finset Nat).erase 0).erase 1⟩ :=
  .snoc (.snoc run_twoTaken (.release (i := 0) (t := { twoTaken.setRefcount 0 0 with
    freeFrame := some 0, freeFrameNum := 65535 }) (by decide) rfl))
    (.release (i := 1) (t := oneLost) (by decide) rfl)

/-- All 65536 records of `oneLost` are free, and one of them is out of reach. -/
theorem card_oneLost : oneLost.freeSet.card = 65536 ∧ oneLost.aboveSet.card = 65535 := by
  have hfree : oneLost.freeSet = Finset.range totalPhysFrames := by
    ext i
    simp [refcount_oneLost]
  have habove : oneLost.aboveSet = (Finset.range totalPhysFrames).erase 0 := by
    ext i
    simp only [FrameTable.aboveSet, hfree, Finset.mem_filter, Finset.mem_range, Finset.mem_erase,
      show oneLost.freeFrame = some 1 from rfl, Option.mem_def, Option.some.injEq, forall_eq']
    omega
  rw [hfree, habove, Finset.card_erase_of_mem (by simp [totalPhysFrames]), Finset.card_range]
  exact ⟨rfl, rfl⟩

/-- `free_frames_not_obtainable` at the history that loses frame 0. -/
theorem free_frames_not_obtainable_one_lost :
    ¬ oneLost.ObtainsAllFree ∧
      ∀ n, n + 1 = oneLost.freeSet.card →
        ((∃ addresses t', acquireMany n oneLost = some (addresses, t') ∧ addresses.Nodup ∧
            ∀ a ∈ addresses, ∃ i ∈ oneLost.freeSet, a = i * pageSize) ↔
          ∀ i ∈ oneLost.freeFrame, ∀ j < i, oneLost.refcount j ≠ 0) := by
  obtain ⟨hnever, hcount⟩ := free_frames_not_obtainable run_oneLost
  exact ⟨hnever, hcount⟩

/-- Not even 65535 acquires succeed on `oneLost`. -/
theorem acquireMany_oneLost (n : Nat) (hn : 65535 ≤ n) : acquireMany n oneLost = none := by
  have h := (ok_of_run run_oneLost).table_ok
  rw [← Option.not_isSome_iff_eq_none, acquireMany_isSome_iff h, card_oneLost.2]
  omega

/-- **A free frame is lost.** After two acquires and two releases in the same order
`free_frame_num` is 65536 and all records are free, but not even 65535 acquires succeed. -/
theorem release_order_loses_frame :
    ∃ s, Run AllocStep bootAlloc [.acquire 0, .acquire 4096, .release 0, .release 4096] s ∧
      s.table.freeFrameNum = 65536 ∧ s.table.freeSet.card = 65536 ∧
      acquireMany 65535 s.table = none ∧ ¬ s.table.ObtainsAllFree := by
  refine ⟨_, run_oneLost, rfl, card_oneLost.1, acquireMany_oneLost _ le_rfl, ?_⟩
  rintro ⟨addresses, t', hacq, -⟩
  have hnone := acquireMany_oneLost oneLost.freeSet.card (by rw [card_oneLost.1]; omega)
  exact absurd (hnone.symm.trans hacq) (by simp)

end Pebbles.Memory
