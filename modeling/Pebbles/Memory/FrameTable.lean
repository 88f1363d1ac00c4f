import Mathlib.Data.Finset.Card
import Mathlib.Data.Finset.Range
import Mathlib.Data.Finset.Filter
import Mathlib.Data.Nat.Find
import Mathlib.Tactic.Common
import Pebbles.Library.Runs
import Mathlib.Algebra.Group.Nat.Defs

/-! # The physical frame table

`vm_routines.c` keeps one `KF` record for each of the 65536 physical frames, the pointer
`free_frame` and the counter `free_frame_num`. A pointer to `frame_base[i]` is modelled by its
index `i`. The `next` field of the last record is never written, so it holds whatever the heap
block held: `none` stands for every pointer that is not one into the table, and reading through it
is undefined behaviour, for which the model has no result (`Option.none`). -/

namespace Pebbles.Memory

/-! ## The data and the three routines -/

/-- `PAGE_SIZE`. -/
def pageSize : Nat := 4096

/-- `TOTAL_PHYS_FRAMES`, that is `PAGE_SIZE << 4`. -/
def totalPhysFrames : Nat := 65536

/-- One record of the frame table (`struct kernel_frame`). -/
structure KF where
  /-- The number of users of the frame (`unsigned int`). -/
  refcount : Nat
  /-- The next record of the fixed upward chain. -/
  next : Option Nat

/-- The static state of the frame allocator. -/
structure FrameTable where
  /-- The array `frame_base`. -/
  frameBase : Nat → KF
  /-- The pointer `free_frame`. -/
  freeFrame : Option Nat
  /-- The counter `free_frame_num`. -/
  freeFrameNum : Int

/-- The reference count of frame `i`. -/
def FrameTable.refcount (t : FrameTable) (i : Nat) : Nat := (t.frameBase i).refcount

/-- Write the reference count of frame `i`. -/
def FrameTable.setRefcount (t : FrameTable) (i n : Nat) : FrameTable :=
  { t with frameBase := Function.update t.frameBase i { t.frameBase i with refcount := n } }

/-- `init_free_frame` on a machine that reports `machinePhysFrames` frames: every count is 0 and
each record but the last points to the one above it. -/
def initFreeFrame (machinePhysFrames : Nat) : FrameTable where
  frameBase i := ⟨0, if i + 1 < totalPhysFrames then some (i + 1) else none⟩
  freeFrame := some 0
  freeFrameNum := machinePhysFrames

/-- The loop `while (free_frame -> refcount != 0) free_frame = free_frame -> next` of
`acquire_free_frame`, started at `p`. It has no result when it would read outside the table; the
fuel is the number of records, which the upward chain cannot exceed (`seek_isSome_iff`). -/
def FrameTable.seek (t : FrameTable) : Nat → Option Nat → Option Nat
  | 0, _ => none
  | _ + 1, none => none
  | fuel + 1, some i =>
      if i < totalPhysFrames then
        if t.refcount i = 0 then some i else t.seek fuel (t.frameBase i).next
      else none

/-- `acquire_free_frame`: the address of the frame that `free_frame` points to, whose count is
incremented; `free_frame` then moves up the chain to a record with count 0. The address `-1` is
the answer for `free_frame == NULL`. -/
def acquireFreeFrame (t : FrameTable) : Option (Nat × FrameTable) :=
  match t.freeFrame with
  | none => some (2 ^ 32 - 1, t)
  | some index =>
      let t1 := t.setRefcount index ((t.refcount index + 1) % 2 ^ 32)
      (t1.seek totalPhysFrames (some index)).map fun p =>
        (index * pageSize, { t1 with freeFrame := some p, freeFrameNum := t1.freeFrameNum - 1 })

/-- `release_free_frame`: decrement the count of the frame at `address` and, when it drops to 0,
let `free_frame` point to that record. An address beyond the table is undefined behaviour. -/
def releaseFreeFrame (t : FrameTable) (address : Nat) : Option FrameTable :=
  let index := address / pageSize
  if index < totalPhysFrames then
    let t1 := t.setRefcount index ((t.refcount index + (2 ^ 32 - 1)) % 2 ^ 32)
    let t2 := if t1.refcount index = 0 then { t1 with freeFrame := some index } else t1
    some { t2 with freeFrameNum := t2.freeFrameNum + 1 }
  else none

@[simp] theorem refcount_setRefcount (t : FrameTable) (i n j : Nat) :
    (t.setRefcount i n).refcount j = if j = i then n else t.refcount j := by
  by_cases h : j = i
  · subst h
    simp [FrameTable.refcount, FrameTable.setRefcount]
  · simp [FrameTable.refcount, FrameTable.setRefcount, h]

@[simp] theorem next_setRefcount (t : FrameTable) (i n j : Nat) :
    ((t.setRefcount i n).frameBase j).next = (t.frameBase j).next := by
  by_cases h : j = i
  · subst h
    simp [FrameTable.setRefcount]
  · simp [FrameTable.setRefcount, Function.update_of_ne h]

@[simp] theorem freeFrame_setRefcount (t : FrameTable) (i n : Nat) :
    (t.setRefcount i n).freeFrame = t.freeFrame := rfl

@[simp] theorem freeFrameNum_setRefcount (t : FrameTable) (i n : Nat) :
    (t.setRefcount i n).freeFrameNum = t.freeFrameNum := rfl

/-! ## The search loop on the upward chain -/

/-- The `next` fields form the chain that `init_free_frame` builds. -/
def FrameTable.Chained (t : FrameTable) : Prop :=
  ∀ i, (t.frameBase i).next = if i + 1 < totalPhysFrames then some (i + 1) else none

/-- Nothing ever writes a `next` field after `init_free_frame`. -/
theorem FrameTable.Chained.setRefcount {t : FrameTable} (h : t.Chained) (i n : Nat) :
    (t.setRefcount i n).Chained := by
  intro j
  rw [next_setRefcount]
  exact h j

/-- **What the search finds**: the first free record at or above its start. -/
theorem seek_eq_some_iff {t : FrameTable} (h : t.Chained) {fuel i p : Nat}
    (hfuel : totalPhysFrames ≤ i + fuel) :
    t.seek fuel (some i) = some p ↔
      i ≤ p ∧ p < totalPhysFrames ∧ t.refcount p = 0 ∧
        ∀ j, i ≤ j → j < p → t.refcount j ≠ 0 := by
  induction fuel generalizing i with
  | zero =>
      simp only [FrameTable.seek]
      constructor
      · intro hp; cases hp
      · rintro ⟨hip, hp, -, -⟩; omega
  | succ fuel ih =>
      rw [FrameTable.seek]
      by_cases hi : i < totalPhysFrames
      · rw [if_pos hi]
        by_cases hz : t.refcount i = 0
        · rw [if_pos hz]
          constructor
          · intro hp
            obtain rfl := Option.some.inj hp
            exact ⟨le_rfl, hi, hz, fun j h1 h2 => by omega⟩
          · rintro ⟨hip, -, -, hmin⟩
            rcases Nat.lt_or_ge i p with hlt | hge
            · exact absurd hz (hmin i le_rfl hlt)
            · rw [le_antisymm hip hge]
        · rw [if_neg hz, h i]
          by_cases hi' : i + 1 < totalPhysFrames
          · rw [if_pos hi', ih (by omega)]
            constructor
            · rintro ⟨h1, h2, h3, h4⟩
              refine ⟨by omega, h2, h3, fun j hj hjp => ?_⟩
              rcases Nat.eq_or_lt_of_le hj with rfl | hj'
              · exact hz
              · exact h4 j hj' hjp
            · rintro ⟨h1, h2, h3, h4⟩
              have hne : i ≠ p := fun hip => hz (hip ▸ h3)
              exact ⟨by omega, h2, h3, fun j hj hjp => h4 j (by omega) hjp⟩
          · rw [if_neg hi']
            -- the last record is taken: the loop would follow its unwritten `next`
            have hnone : t.seek fuel none = none := by cases fuel <;> rfl
            rw [hnone]
            constructor
            · intro hp; cases hp
            · rintro ⟨h1, h2, h3, -⟩
              have hip : p = i := by omega
              exact absurd (hip ▸ h3) hz
      · rw [if_neg hi]
        constructor
        · intro hp; cases hp
        · rintro ⟨h1, h2, -, -⟩; omega

/-- The search succeeds exactly when some record at or above its start is free. -/
theorem seek_isSome_iff {t : FrameTable} (fuel : Nat) (h : t.Chained) {i : Nat}
    (hfuel : totalPhysFrames ≤ i + fuel) :
    (t.seek fuel (some i)).isSome ↔ ∃ p, i ≤ p ∧ p < totalPhysFrames ∧ t.refcount p = 0 := by
  constructor
  · intro hs
    obtain ⟨p, hp⟩ := Option.isSome_iff_exists.mp hs
    obtain ⟨h1, h2, h3, -⟩ := (seek_eq_some_iff h hfuel).mp hp
    exact ⟨p, h1, h2, h3⟩
  · intro hex
    classical
    have hspec := Nat.find_spec hex
    have hp : t.seek fuel (some i) = some (Nat.find hex) := by
      refine (seek_eq_some_iff h hfuel).mpr ⟨hspec.1, hspec.2.1, hspec.2.2, fun j hij hj hz => ?_⟩
      exact Nat.find_min hex hj ⟨hij, by omega, hz⟩
    simp [hp]

/-! ## The invariant of the allocator -/

/-- The free records of the table. -/
def FrameTable.freeSet (t : FrameTable) : Finset Nat :=
  (Finset.range totalPhysFrames).filter fun i => t.refcount i = 0

@[simp] theorem mem_freeSet {t : FrameTable} {i : Nat} :
    i ∈ t.freeSet ↔ i < totalPhysFrames ∧ t.refcount i = 0 := by
  simp [FrameTable.freeSet]

/-- **The allocator invariant**: the chain is the original one, the counts are 0 or 1,
`free_frame` points to a free record and `free_frame_num` is the number of free records. -/
structure FrameTable.Ok (t : FrameTable) : Prop where
  /-- The chain of `next` fields is the one `init_free_frame` built. -/
  chained : t.Chained
  /-- `free_frame` points to a free record of the table. -/
  free_pointer : ∃ i, t.freeFrame = some i ∧ i ∈ t.freeSet
  /-- No frame is shared. -/
  refcount_le : ∀ i < totalPhysFrames, t.refcount i ≤ 1
  /-- `free_frame_num` counts the free records. -/
  count : t.freeFrameNum = t.freeSet.card

/-- The table after `init_free_frame` on a machine with 65536 frames. -/
theorem ok_initFreeFrame : (initFreeFrame totalPhysFrames).Ok := by
  have hset : (initFreeFrame totalPhysFrames).freeSet = Finset.range totalPhysFrames := by
    ext i
    simp [initFreeFrame, FrameTable.refcount]
  refine ⟨fun i => rfl, ⟨0, rfl, ?_⟩, fun i _ => ?_, ?_⟩
  · simp [initFreeFrame, FrameTable.refcount, totalPhysFrames]
  · simp [initFreeFrame, FrameTable.refcount]
  · rw [hset, Finset.card_range]
    rfl

/-- **What an `acquire_free_frame` does**: it hands out the free record `free_frame` points to,
and `free_frame` moves to the first free record above it. -/
theorem acquire_spec {t t' : FrameTable} {address : Nat} (h : t.Ok)
    (hacq : acquireFreeFrame t = some (address, t')) :
    ∃ i p, t.freeFrame = some i ∧ i ∈ t.freeSet ∧ address = i * pageSize ∧
      i < p ∧ p ∈ t.freeSet ∧ (∀ j ∈ t.freeSet, i < j → p ≤ j) ∧
      t' = { t.setRefcount i 1 with freeFrame := some p, freeFrameNum := t.freeFrameNum - 1 } := by
  obtain ⟨i, hi, hfree⟩ := h.free_pointer
  obtain ⟨hlt, hzero⟩ := mem_freeSet.mp hfree
  simp only [acquireFreeFrame, hi, hzero, Nat.zero_add, Option.map_eq_some_iff,
    Prod.mk.injEq] at hacq
  obtain ⟨p, hseek, rfl, rfl⟩ := hacq
  rw [seek_eq_some_iff (h.chained.setRefcount _ _) (by omega)] at hseek
  obtain ⟨hip, hp, hpz, hmin⟩ := hseek
  have hne : p ≠ i := by
    rintro rfl
    simp at hpz
  rw [refcount_setRefcount, if_neg hne] at hpz
  refine ⟨i, p, hi, hfree, rfl, by omega, mem_freeSet.mpr ⟨hp, hpz⟩, fun j hj hij => ?_, rfl⟩
  by_contra hlt'
  refine hmin j hij.le (by omega) ?_
  rw [refcount_setRefcount, if_neg (by omega)]
  exact (mem_freeSet.mp hj).2

/-- The free records after one was taken. -/
theorem freeSet_take {t : FrameTable} (i : Nat) (p : Option Nat) (n : Int) :
    ({ t.setRefcount i 1 with freeFrame := p, freeFrameNum := n } : FrameTable).freeSet
      = t.freeSet.erase i := by
  ext j
  have hr : ({ t.setRefcount i 1 with freeFrame := p, freeFrameNum := n } : FrameTable).refcount j
      = (t.setRefcount i 1).refcount j := rfl
  rw [mem_freeSet, Finset.mem_erase, mem_freeSet, hr, refcount_setRefcount]
  by_cases hj : j = i <;> simp [hj]

/-- The free records after one was given back. -/
theorem freeSet_give {t : FrameTable} {i : Nat} (hi : i < totalPhysFrames) (p : Option Nat)
    (n : Int) :
    ({ t.setRefcount i 0 with freeFrame := p, freeFrameNum := n } : FrameTable).freeSet
      = insert i t.freeSet := by
  ext j
  have hr : ({ t.setRefcount i 0 with freeFrame := p, freeFrameNum := n } : FrameTable).refcount j
      = (t.setRefcount i 0).refcount j := rfl
  rw [mem_freeSet, Finset.mem_insert, mem_freeSet, hr, refcount_setRefcount]
  by_cases hj : j = i <;> simp [hj, hi]

/-- `acquire_free_frame` keeps the invariant. -/
theorem FrameTable.Ok.acquire {t t' : FrameTable} {address : Nat} (h : t.Ok)
    (hacq : acquireFreeFrame t = some (address, t')) : t'.Ok := by
  obtain ⟨i, p, -, hfree, -, hip, hp, -, rfl⟩ := acquire_spec h hacq
  have hset := freeSet_take (t := t) i (some p) (t.freeFrameNum - 1)
  refine ⟨h.chained.setRefcount i 1, ⟨p, rfl, ?_⟩, fun j hj => ?_, ?_⟩
  · rw [hset]
    exact Finset.mem_erase.mpr ⟨by omega, hp⟩
  · show (t.setRefcount i 1).refcount j ≤ 1
    rw [refcount_setRefcount]
    split
    · exact le_rfl
    · exact h.refcount_le j hj
  · have hcard : t.freeSet.card = (t.freeSet.erase i).card + 1 :=
      (Finset.card_erase_add_one hfree).symm
    rw [hset]
    show t.freeFrameNum - 1 = ((t.freeSet.erase i).card : Int)
    rw [h.count, hcard]
    push_cast
    omega

/-- **What a `release_free_frame` of a frame in use does.** -/
theorem release_spec {t : FrameTable} {i : Nat} (hi : i < totalPhysFrames)
    (hused : t.refcount i = 1) :
    releaseFreeFrame t (i * pageSize) = some { t.setRefcount i 0 with
      freeFrame := some i, freeFrameNum := t.freeFrameNum + 1 } := by
  have hdiv : i * pageSize / pageSize = i := Nat.mul_div_cancel i (by decide)
  simp [releaseFreeFrame, hdiv, hi, hused]

/-- `release_free_frame` of a frame in use keeps the invariant. -/
theorem FrameTable.Ok.release {t t' : FrameTable} {i : Nat} (h : t.Ok) (hi : i < totalPhysFrames)
    (hused : t.refcount i = 1) (hrel : releaseFreeFrame t (i * pageSize) = some t') : t'.Ok := by
  rw [release_spec hi hused] at hrel
  obtain rfl := Option.some.inj hrel
  have hset := freeSet_give (t := t) hi (some i) (t.freeFrameNum + 1)
  refine ⟨h.chained.setRefcount i 0, ⟨i, rfl, ?_⟩, fun j hj => ?_, ?_⟩
  · rw [hset]
    exact Finset.mem_insert_self i _
  · show (t.setRefcount i 0).refcount j ≤ 1
    rw [refcount_setRefcount]
    split
    · exact Nat.zero_le 1
    · exact h.refcount_le j hj
  · have hnot : i ∉ t.freeSet := by
      intro hmem
      rw [mem_freeSet] at hmem
      omega
    rw [hset, Finset.card_insert_of_notMem hnot]
    show t.freeFrameNum + 1 = ((t.freeSet.card + 1 : Nat) : Int)
    rw [h.count]
    push_cast
    rfl

end Pebbles.Memory
