import Pebbles.Memory.UserHalf

/-! # The search for a stack

`thr_create` looks for room for a stack by calling `new_pages` again and again, one byte or one page
further down each time, until it answers 0. Nothing else ends the loop: the pointer wraps around at
address 0, and no answer of `new_pages` counts as a failure of the call. -/

namespace Pebbles.ThreadLib

open Memory
open Kernel (isUserAddr)

/-! ## What the kernel answers -/

/-- An address space and the memory that is left: which pages are mapped, and how many frames are
free. -/
structure Layout where
  /-- The mapped pages, by number. -/
  mapped : Nat → Prop
  /-- `free_frame_num`. -/
  freeFrames : Int

/-- **Room for `size` bytes at `base`**: a page-aligned user address, no page of the range is
mapped, and there are enough frames. Page numbers wrap around at the end of the address space. -/
structure Layout.Room (layout : Layout) (size : Nat) (base : UInt32) : Prop where
  /-- The address is aligned. -/
  aligned : base.toNat % 4096 = 0
  /-- It is a user address. -/
  user : userMemStart ≤ base.toNat
  /-- The range is unmapped. -/
  unmapped : ∀ i < size / 4096, ¬ layout.mapped ((base.toNat / 4096 + i) % 2 ^ 20)
  /-- There are enough frames. -/
  frames : ((size / 4096 : Nat) : Int) ≤ layout.freeFrames

/-- **The contract of `new_pages`**: call number `i`, made while the layout is `layout i`, answers 0
where there is room and -1 elsewhere. -/
structure Contract (newPages : Nat → UInt32 → Int) (layout : Nat → Layout) (size : Nat) : Prop where
  /-- Where it succeeds. -/
  succeeds : ∀ i base, newPages i base = 0 ↔ (layout i).Room size base
  /-- What it answers elsewhere. -/
  fails : ∀ i base, newPages i base = 0 ∨ newPages i base = -1

/-! ## The loop -/

/-- Where the search begins: at `program_stack_low`, or at the stack pointer when it is `NULL`. -/
def searchStart (programStackLow esp : UInt32) : UInt32 :=
  if programStackLow ≠ 0 then programStackLow else esp

/-- The step of the loop. -/
def stepDown (programStackLow base : UInt32) : UInt32 :=
  if programStackLow = 0 then base - 1 else base - 4096

/-- **The loop of `thr_create`**, for at most `fuel` calls of `new_pages`, the next of which is
number `i` and asks for `base`. -/
def stackSearch (newPages : Nat → UInt32 → Int) (programStackLow : UInt32) :
    Nat → Nat → UInt32 → Option UInt32
  | 0, _, _ => none
  | fuel + 1, i, base =>
      if newPages i base ≠ 0 then
        stackSearch newPages programStackLow fuel (i + 1) (stepDown programStackLow base)
      else some base

/-- `program_stack_low` after the loop. -/
def savedLow (programStackLow base : UInt32) (adjustedSize : Nat) : UInt32 :=
  if programStackLow = 0 then base + UInt32.ofNat adjustedSize else programStackLow

/-- **The loop ends.** -/
def SearchEnds (newPages : Nat → UInt32 → Int) (programStackLow esp : UInt32) : Prop :=
  ∃ fuel base,
    stackSearch newPages programStackLow fuel 0 (searchStart programStackLow esp) = some base

/-- The address of call number `i`. -/
def probe (programStackLow start : UInt32) : Nat → UInt32
  | 0 => start
  | i + 1 => stepDown programStackLow (probe programStackLow start i)

variable {newPages : Nat → UInt32 → Int} {layout : Nat → Layout} {size : Nat}
  {programStackLow start esp : UInt32}

/-- The addresses go on from any of them. -/
theorem stackSearch_probe (fuel i : Nat) :
    (∃ base,
      stackSearch newPages programStackLow fuel i (probe programStackLow start i) = some base) ↔
      ∃ j < fuel, newPages (i + j) (probe programStackLow start (i + j)) = 0 := by
  induction fuel generalizing i with
  | zero => simp [stackSearch]
  | succ fuel ih =>
      have hnext := ih (i + 1)
      rw [stackSearch]
      by_cases hzero : newPages i (probe programStackLow start i) = 0
      · rw [if_neg (not_not.mpr hzero)]
        exact ⟨fun _ => ⟨0, Nat.succ_pos fuel, hzero⟩, fun _ => ⟨_, rfl⟩⟩
      · rw [if_pos hzero]
        rw [probe] at hnext
        rw [hnext]
        constructor
        · rintro ⟨j, hj, hanswer⟩
          refine ⟨j + 1, Nat.succ_lt_succ hj, ?_⟩
          rwa [← Nat.add_assoc, Nat.add_right_comm]
        · rintro ⟨j, hj, hanswer⟩
          cases j with
          | zero => exact absurd hanswer hzero
          | succ j =>
              refine ⟨j, Nat.lt_of_succ_lt_succ hj, ?_⟩
              rwa [Nat.add_right_comm, Nat.add_assoc]

/-! ## Where the search comes -/

/-- By bytes. -/
theorem probe_byte (start : UInt32) (i : Nat) :
    (probe 0 start i).toNat = (start.toNat + i * (2 ^ 32 - 1)) % 2 ^ 32 := by
  induction i with
  | zero => rw [probe, Nat.zero_mul, Nat.add_zero, Nat.mod_eq_of_lt start.toNat_lt]
  | succ i ih =>
      rw [probe, stepDown, if_pos rfl, UInt32.toNat_sub, ih]
      have hone : (1 : UInt32).toNat = 1 := rfl
      rw [hone]
      omega

/-- By pages. -/
theorem probe_page (low : programStackLow ≠ 0) (start : UInt32) (i : Nat) :
    (probe programStackLow start i).toNat = (start.toNat + i * (2 ^ 32 - 4096)) % 2 ^ 32 := by
  induction i with
  | zero => rw [probe, Nat.zero_mul, Nat.add_zero, Nat.mod_eq_of_lt start.toNat_lt]
  | succ i ih =>
      rw [probe, stepDown, if_neg low, UInt32.toNat_sub, ih]
      have hpage : (4096 : UInt32).toNat = 4096 := rfl
      rw [hpage]
      omega

/-- **The byte steps come to every address.** -/
theorem exists_probe_byte (start base : UInt32) : ∃ i, probe 0 start i = base := by
  refine ⟨(start.toNat + 2 ^ 32 - base.toNat) % 2 ^ 32, UInt32.toNat_inj.mp ?_⟩
  rw [probe_byte]
  have hstart := start.toNat_lt
  have hbase := base.toNat_lt
  omega

/-- **The page steps come to every aligned address** from an aligned one. -/
theorem exists_probe_page (low : programStackLow ≠ 0) (start base : UInt32)
    (hstart : start.toNat % 4096 = 0) (hbase : base.toNat % 4096 = 0) :
    ∃ i, probe programStackLow start i = base := by
  refine ⟨(start.toNat + 2 ^ 32 - base.toNat) % 2 ^ 32 / 4096, UInt32.toNat_inj.mp ?_⟩
  rw [probe_page low]
  have hlt := start.toNat_lt
  have hlt' := base.toNat_lt
  omega

/-- `program_stack_low` stays aligned. -/
theorem savedLow_aligned {base : UInt32} (low : programStackLow.toNat % 4096 = 0)
    (hsize : size % 4096 = 0) (hbase : base.toNat % 4096 = 0) :
    (savedLow programStackLow base size).toNat % 4096 = 0 := by
  unfold savedLow
  split_ifs
  · rw [UInt32.toNat_add, UInt32.toNat_ofNat']
    omega
  · exact low

/-! ## When the loop ends -/

/-- The stack that is found was there for the taking. -/
theorem room_of_found (contract : Contract newPages layout size) {fuel i : Nat} {base : UInt32}
    (found : stackSearch newPages programStackLow fuel i start = some base) :
    ∃ j, (layout j).Room size base := by
  induction fuel generalizing i start with
  | zero => cases found
  | succ fuel ih =>
      rw [stackSearch] at found
      split_ifs at found with hanswer
      · exact ih found
      · obtain rfl := Option.some.inj found
        exact ⟨i, (contract.succeeds i start).mp (not_not.mp hanswer)⟩

/-- **The search ends exactly when it meets room**: some call of `new_pages` asks for an address
where there is room at that time. While the layout does not change this is so exactly when there is
room anywhere. -/
theorem searchEnds_iff (contract : Contract newPages layout size)
    (low : programStackLow.toNat % 4096 = 0) :
    (SearchEnds newPages programStackLow esp ↔
      ∃ i, (layout i).Room size (probe programStackLow (searchStart programStackLow esp) i)) ∧
    ∀ still : Layout, (∀ i, layout i = still) →
      (SearchEnds newPages programStackLow esp ↔ ∃ base, still.Room size base) := by
  have hends : SearchEnds newPages programStackLow esp ↔
      ∃ i, (layout i).Room size (probe programStackLow (searchStart programStackLow esp) i) := by
    constructor
    · rintro ⟨fuel, hfound⟩
      obtain ⟨j, -, hanswer⟩ := (stackSearch_probe fuel 0).mp hfound
      rw [Nat.zero_add] at hanswer
      exact ⟨j, (contract.succeeds _ _).mp hanswer⟩
    · rintro ⟨i, hroom⟩
      refine ⟨i + 1, (stackSearch_probe (i + 1) 0).mpr ⟨i, Nat.lt_succ_self i, ?_⟩⟩
      rw [Nat.zero_add]
      exact (contract.succeeds _ _).mpr hroom
  refine ⟨hends, fun still hstill => hends.trans ?_⟩
  constructor
  · rintro ⟨i, hroom⟩
    rw [hstill] at hroom
    exact ⟨_, hroom⟩
  · rintro ⟨base, hroom⟩
    -- every aligned address is met
    have hmet : ∃ i, probe programStackLow (searchStart programStackLow esp) i = base := by
      by_cases hnull : programStackLow = 0
      · rw [hnull]
        exact exists_probe_byte _ base
      · refine exists_probe_page hnull _ base ?_ hroom.aligned
        rw [searchStart, if_pos hnull]
        exact low
    obtain ⟨i, hi⟩ := hmet
    refine ⟨i, ?_⟩
    rw [hi, hstill]
    exact hroom

/-- An empty address space. -/
def emptyLayout (freeFrames : Int) : Layout := ⟨fun _ => False, freeFrames⟩

/-- Two pages are found below the stack pointer of a new program. -/
theorem searchEnds_iff_empty :
    SearchEnds (fun _ base => if base.toNat % 4096 = 0 ∧ userMemStart ≤ base.toNat then 0 else -1)
      0 0xffffff10 := by
  have contract : Contract
      (fun _ base => if base.toNat % 4096 = 0 ∧ userMemStart ≤ base.toNat then 0 else -1)
      (fun _ => emptyLayout 2) 8192 := by
    refine ⟨fun i base => ⟨fun h => ?_, fun h => if_pos ⟨h.aligned, h.user⟩⟩, fun i base => ?_⟩
    · split_ifs at h with hbase
      exact ⟨hbase.1, hbase.2, fun _ _ => id, by decide⟩
    · split_ifs
      · exact Or.inl rfl
      · exact Or.inr rfl
  refine ((searchEnds_iff contract (by decide)).2 _ fun _ => rfl).mpr ⟨0x2000000, ?_⟩
  exact ⟨by decide, by decide, fun _ _ => id, by decide⟩

/-- **The search never ends when no frame is free.** -/
theorem search_endless :
    Contract (fun _ _ => -1) (fun _ => emptyLayout 0) 8192 ∧
      ¬ SearchEnds (fun _ _ => -1) 0 0xffffff10 := by
  refine ⟨⟨fun _ _ => ⟨nofun, fun h => ?_⟩, fun _ _ => Or.inr rfl⟩, fun hends => ?_⟩
  · exact absurd h.frames (by decide)
  · obtain ⟨fuel, hfound⟩ := hends
    obtain ⟨j, -, hanswer⟩ := (stackSearch_probe fuel 0).mp hfound
    cases hanswer

/-! ## The kernel's checks -/

/-- The layout that the checks of `sys_new_pages` see. -/
def layoutOf (m : PhysMem) (pd : Nat) : Layout where
  mapped p :=
    let pt := deflagAddr (m.words pd (p / 1024))
    pt ≠ 0 ∧ deflagAddr (m.words pt (p % 1024)) ≠ 0
  freeFrames := m.frames.freeFrameNum

/-- **`sys_new_pages` keeps the contract**: for a whole number of pages its checks pass exactly
where there is room. -/
theorem newPagesChecks_iff_room {m : PhysMem} {pd : Nat} {base : UInt32} (hsize : size % 4096 = 0) :
    newPagesChecks m pd base.toNat size = true ↔ (layoutOf m pd).Room size base := by
  have hlt := base.toNat_lt
  -- the loop looks at the page numbers of the range
  have hpages : noneMapped m pd base.toNat (size / 4096) = true ↔
      ∀ i < size / 4096, ¬ (layoutOf m pd).mapped ((base.toNat / 4096 + i) % 2 ^ 20) := by
    rw [noneMapped, List.all_eq_true]
    refine forall_congr' fun i => ?_
    rw [List.mem_range]
    refine imp_congr_right fun _ => ?_
    have hpd : vaPdInd (curAddr base.toNat i) = (base.toNat / 4096 + i) % 2 ^ 20 / 1024 := by
      rw [vaPdInd_eq, curAddr, pageSize]
      omega
    have hpt : vaPtInd (curAddr base.toNat i) = (base.toNat / 4096 + i) % 2 ^ 20 % 1024 := by
      rw [vaPtInd_eq, curAddr, pageSize]
      omega
    rw [hpd, hpt, decide_eq_true_iff, layoutOf]
    tauto
  have huser : isUserAddr base.toNat = true ↔ userMemStart ≤ base.toNat := by
    rw [isUserAddr]
    simp [userMemStart]
    omega
  rw [newPagesChecks, decide_eq_true_iff, huser, and_fff, and_fff]
  have hdiv : (size : Int) / 4096 = ((size / 4096 : Nat) : Int) := by omega
  rw [hdiv, Int.toNat_natCast, Int.toNat_natCast, hpages]
  constructor
  · rintro ⟨hu, ha, -, -, hframes, hnone⟩
    exact ⟨ha, hu, hnone, hframes⟩
  · rintro ⟨ha, hu, hnone, hframes⟩
    exact ⟨hu, ha, Int.natCast_nonneg size, hsize, hframes, hnone⟩

end Pebbles.ThreadLib
