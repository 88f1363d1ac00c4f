import Mathlib.Order.Bounds.Basic
import Mathlib.Data.Nat.Init
import Mathlib.Tactic.Common
import Mathlib.Algebra.Group.Nat.Defs

/-! # The stack size in `thr_init`

`thr_init` (`user/libthread/thread_mgmt.c`) rounds the size of a stack up to whole pages: a loop
tries one number of pages after the other until `PAGE_SIZE * i` is not less than the size, and one
page more is added for the handler. The product is an `int`, which the machine computes modulo
`2 ^ 32` and the test compares as an `unsigned int`, so that there are sizes that no product
reaches. -/

namespace Pebbles.ThreadLib

/-! ## The code -/

/-- `PAGE_SIZE`. -/
def stackPageSize : Int32 := 0x1000

/-- **The rounding loop**, from the number `i` on, for at most `fuel` rounds. -/
def roundSize (size : UInt32) : Nat → Int32 → Option UInt32
  | 0, _ => none
  | fuel + 1, i =>
      if size ≤ (stackPageSize * i).toUInt32 then some (i * stackPageSize).toUInt32
      else roundSize size fuel (i + 1)

/-- What `mutex_init`, `cond_init` and `malloc_init` return. -/
def initResult : Int32 := 0

/-- `thr_init`: `adjusted_size` and the value that it returns. -/
def thrInit (fuel : Nat) (size : UInt32) : Option (UInt32 × Int32) :=
  -- the two mutexes, the condition variable and the allocator
  let ret := initResult ||| initResult ||| initResult ||| initResult
  (roundSize size fuel 1).map fun adjustedSize => (adjustedSize + stackPageSize.toUInt32, ret)

/-! ## The property -/

/-- The positive multiples of a page that hold `size` bytes. -/
def Holding (size : Nat) : Set Nat := {m | 0 < m ∧ 4096 ∣ m ∧ size ≤ m}

/-- **The size is rounded up**: the loop ends, and `adjusted_size` is a page and the least multiple
that holds the stack, or an error is returned. -/
def RoundsUp (size : UInt32) : Prop :=
  ∃ fuel adjustedSize ret, thrInit fuel size = some (adjustedSize, ret) ∧
    (ret ≠ 0 ∨ size ≤ adjustedSize ∧
      ∃ m, IsLeast (Holding size.toNat) m ∧ adjustedSize.toNat = 4096 + m)

/-! ## The loop -/

/-- The number of pages for `size` bytes, and one for none. -/
def pagesFor (size : Nat) : Nat := max 1 ((size + 4095) / 4096)

/-- **They are the least multiple that holds the bytes.** -/
theorem isLeast_pagesFor (size : Nat) : IsLeast (Holding size) (4096 * pagesFor size) := by
  constructor
  · refine ⟨?_, Nat.dvd_mul_right 4096 _, ?_⟩
    · unfold pagesFor
      omega
    · unfold pagesFor
      omega
  · rintro m ⟨hpos, ⟨q, rfl⟩, hsize⟩
    unfold pagesFor
    omega

variable {size : UInt32} {i : Int32} {k : Nat}

/-- The number after `i`. -/
theorem toUInt32_succ (hi : i.toUInt32 = UInt32.ofNat k) :
    (i + 1).toUInt32 = UInt32.ofNat (k + 1) := by
  rw [Int32.toUInt32_add, hi, UInt32.ofNat_add]
  rfl

/-- **The product**, as the test sees it. -/
theorem toNat_product (hi : i.toUInt32 = UInt32.ofNat k) :
    (stackPageSize * i).toUInt32.toNat = 4096 * k % 2 ^ 32 := by
  have hpage : stackPageSize.toUInt32 = UInt32.ofNat 4096 := rfl
  rw [Int32.toUInt32_mul, hi, hpage, ← UInt32.ofNat_mul, UInt32.toNat_ofNat']

/-- **The loop ends at the number of pages** when their product does not wrap around. -/
theorem roundSize_eq (fits : 4096 * pagesFor size.toNat < 2 ^ 32) (fuel : Nat)
    (hi : i.toUInt32 = UInt32.ofNat k) (hk : 0 < k) (before : k ≤ pagesFor size.toNat) :
    roundSize size fuel i =
      if pagesFor size.toNat < k + fuel then some (UInt32.ofNat (4096 * pagesFor size.toNat))
      else none := by
  induction fuel generalizing i k with
  | zero =>
      rw [roundSize, if_neg]
      omega
  | succ fuel ih =>
      have hproduct := toNat_product hi
      rw [Nat.mod_eq_of_lt (by omega)] at hproduct
      rw [roundSize]
      by_cases hlast : k = pagesFor size.toNat
      · have htest : size ≤ (stackPageSize * i).toUInt32 := by
          rw [UInt32.le_iff_toNat_le, hproduct, hlast]
          exact (isLeast_pagesFor size.toNat).1.2.2
        have hvalue : (i * stackPageSize).toUInt32 =
            UInt32.ofNat (4096 * pagesFor size.toNat) := by
          rw [Int32.mul_comm, ← UInt32.ofNat_toNat (x := (stackPageSize * i).toUInt32), hproduct,
            hlast]
        rw [if_pos htest, hvalue, if_pos (by omega)]
      · have htest : ¬size ≤ (stackPageSize * i).toUInt32 := by
          rw [UInt32.le_iff_toNat_le, hproduct]
          intro hle
          have hleast := (isLeast_pagesFor size.toNat).2 ⟨by omega, Nat.dvd_mul_right 4096 k, hle⟩
          omega
        rw [if_neg htest, ih (toUInt32_succ hi) (Nat.succ_pos k) (by omega)]
        have hfuel : k + 1 + fuel = k + (fuel + 1) := by
          omega
        rw [hfuel]

/-- **No product reaches the last page of sizes**, and the loop never ends. -/
theorem roundSize_endless (large : 2 ^ 32 - 4096 < size.toNat) (fuel : Nat)
    (hi : i.toUInt32 = UInt32.ofNat k) : roundSize size fuel i = none := by
  induction fuel generalizing i k with
  | zero => rfl
  | succ fuel ih =>
      have htest : ¬size ≤ (stackPageSize * i).toUInt32 := by
        rw [UInt32.le_iff_toNat_le, toNat_product hi]
        omega
      rw [roundSize, if_neg htest]
      exact ih (toUInt32_succ hi)

/-- **`thr_init` rounds the size up exactly when** it leaves room for two pages below `2 ^ 32`. -/
theorem roundsUp_iff (size : UInt32) : RoundsUp size ↔ size.toNat ≤ 2 ^ 32 - 8192 := by
  have hsize := size.toNat_lt
  have hone : (1 : Int32).toUInt32 = UInt32.ofNat 1 := rfl
  have hpages : pagesFor size.toNat = max 1 ((size.toNat + 4095) / 4096) := rfl
  constructor
  · rintro ⟨fuel, adjustedSize, ret, hinit, hret | ⟨-, m, hleast, hadjusted⟩⟩
    · obtain ⟨rounded, hround, hpair⟩ := Option.map_eq_some_iff.mp hinit
      exact absurd (Prod.mk.inj hpair).2.symm hret
    · by_contra hlarge
      obtain ⟨rounded, hround, hpair⟩ := Option.map_eq_some_iff.mp hinit
      by_cases hend : 2 ^ 32 - 4096 < size.toNat
      · rw [roundSize_endless hend fuel hone] at hround
        cases hround
      · -- the page for the handler wraps around to 0
        rw [roundSize_eq (by omega) fuel hone (by decide) (by omega)] at hround
        split_ifs at hround
        have hvalue := Option.some.inj hround
        have hsum := (Prod.mk.inj hpair).1
        rw [← hvalue, show pagesFor size.toNat = 2 ^ 20 - 1 by omega] at hsum
        rw [← hsum] at hadjusted
        have hzero : (UInt32.ofNat (4096 * (2 ^ 20 - 1)) + stackPageSize.toUInt32).toNat = 0 := by
          decide
        omega
  · intro hsmall
    have fits : 4096 * pagesFor size.toNat < 2 ^ 32 := by
      omega
    have hround := roundSize_eq fits (pagesFor size.toNat) hone (by decide) (by omega)
    rw [if_pos (by omega)] at hround
    have hadjusted : (UInt32.ofNat (4096 * pagesFor size.toNat) + stackPageSize.toUInt32).toNat =
        4096 + 4096 * pagesFor size.toNat := by
      rw [UInt32.toNat_add, UInt32.toNat_ofNat']
      have hpage : stackPageSize.toUInt32.toNat = 4096 := rfl
      rw [hpage]
      omega
    refine ⟨pagesFor size.toNat, UInt32.ofNat (4096 * pagesFor size.toNat) +
      stackPageSize.toUInt32, 0, ?_, Or.inr ⟨?_, _, isLeast_pagesFor size.toNat, hadjusted⟩⟩
    · rw [thrInit, hround]
      rfl
    · rw [UInt32.le_iff_toNat_le, hadjusted]
      omega

/-- **The last sizes**: with the one the loop never ends, with the other `adjusted_size` is 0. -/
theorem largest_sizes_not_rounded : ¬RoundsUp 0xfffff001 ∧ ¬RoundsUp 0xffffe001 := by
  rw [roundsUp_iff, roundsUp_iff]
  decide

end Pebbles.ThreadLib
