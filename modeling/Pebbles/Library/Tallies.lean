import Mathlib.Algebra.BigOperators.Group.Finset.Piecewise
import Mathlib.Algebra.Order.BigOperators.Group.Finset
import Mathlib.Algebra.Order.Ring.Int
import Mathlib.Tactic.Common

/-! # Tallies over the threads of a system

Each of finitely many threads is at some place, `pc t`, and a place counts for an integer: `tally f
pc` is the sum of `f (pc t)` over the threads. A counter of the system is related to such a tally,
and one move changes the tally by what the old and the new place of the moving thread count for.

`Shared n count f pc` is the law of a counting semaphore with `n` units: `count` units are left, and
the others are with the threads, `f` of them at each place. -/

namespace Tallies

open Finset

variable {ι κ : Type*} [Fintype ι]

/-- **The tally** of `f` over all threads. -/
def tally (f : κ → Int) (pc : ι → κ) : Int := ∑ t, f (pc t)

variable {f g h : κ → Int} {pc : ι → κ}

/-! ## One state -/

/-- Nobody counts. -/
theorem tally_eq_zero (none : ∀ t, f (pc t) = 0) : tally f pc = 0 :=
  sum_eq_zero fun t _ => none t

theorem tally_nonneg (nonneg : ∀ p, 0 ≤ f p) : 0 ≤ tally f pc :=
  sum_nonneg fun t _ => nonneg (pc t)

theorem tally_le (le : ∀ t, f (pc t) ≤ g (pc t)) : tally f pc ≤ tally g pc :=
  sum_le_sum fun t _ => le t

/-- Tallies add up. -/
theorem tally_add : tally (fun p => f p + g p) pc = tally f pc + tally g pc :=
  sum_add_distrib

/-- A tally is at most the number of threads. -/
theorem tally_le_card (le : ∀ p, f p ≤ 1) : tally f pc ≤ Fintype.card ι := by
  calc tally f pc ≤ ∑ _ : ι, (1 : Int) := sum_le_sum fun t _ => le (pc t)
    _ = Fintype.card ι := by simp

/-- **The other threads**: what counts less at each place counts less in total, also without the
thread `u`. -/
theorem tally_others (pc : ι → κ) (le : ∀ p, f p ≤ g p) (u : ι) :
    tally f pc - f (pc u) ≤ tally g pc - g (pc u) := by
  have hone : g (pc u) - f (pc u) ≤ ∑ t, (g (pc t) - f (pc t)) :=
    single_le_sum (f := fun t => g (pc t) - f (pc t)) (fun t _ => sub_nonneg.mpr (le (pc t)))
      (mem_univ u)
  rw [sum_sub_distrib] at hone
  unfold tally
  omega

/-- The other threads, against two tallies. -/
theorem tally_others_add (pc : ι → κ) (le : ∀ p, f p ≤ g p + h p) (u : ι) :
    tally f pc - f (pc u) ≤ tally g pc + tally h pc - g (pc u) - h (pc u) := by
  have hle := tally_others (g := fun p => g p + h p) pc le u
  rw [tally_add] at hle
  omega

/-- One thread counts for at most the whole tally. -/
theorem le_tally (pc : ι → κ) (nonneg : ∀ p, 0 ≤ f p) (u : ι) : f (pc u) ≤ tally f pc :=
  single_le_sum (f := fun t => f (pc t)) (fun t _ => nonneg (pc t)) (mem_univ u)

/-- Two threads count for at most the whole tally. -/
theorem two_le_tally [DecidableEq ι] (pc : ι → κ) (nonneg : ∀ p, 0 ≤ f p) {u v : ι}
    (hne : u ≠ v) :
    f (pc u) + f (pc v) ≤ tally f pc := by
  calc f (pc u) + f (pc v) = ∑ t ∈ {u, v}, f (pc t) := by rw [sum_pair hne]
    _ ≤ tally f pc :=
      sum_le_sum_of_subset_of_nonneg (subset_univ _) fun t _ _ => nonneg (pc t)

/-- Somebody counts. -/
theorem exists_of_tally_pos (pos : 0 < tally f pc) : ∃ t, 0 < f (pc t) := by
  by_contra hnone
  push Not at hnone
  have hle : tally f pc ≤ 0 := sum_nonpos fun t _ => hnone t
  omega

/-! ## One move -/

variable [DecidableEq ι]

/-- **A move** changes a tally by the places of the thread that moves. -/
theorem tally_update (f : κ → Int) (pc : ι → κ) (u : ι) (q : κ) :
    tally f (Function.update pc u q) + f (pc u) = tally f pc + f q := by
  have hsum : ∀ p : ι → κ, tally f p = f (p u) + ∑ t ∈ univ.erase u, f (p t) :=
    fun p => (add_sum_erase univ (fun t => f (p t)) (mem_univ u)).symm
  have hothers : ∑ t ∈ univ.erase u, f (Function.update pc u q t) =
      ∑ t ∈ univ.erase u, f (pc t) := by
    apply sum_congr rfl
    intro t ht
    rw [Function.update_of_ne (ne_of_mem_erase ht)]
  rw [hsum (Function.update pc u q), hsum pc, hothers, Function.update_self]
  omega

/-- A move to a place that counts the same. -/
theorem tally_update_same {u : ι} {q : κ} (same : f q = f (pc u)) :
    tally f (Function.update pc u q) = tally f pc := by
  have hmove := tally_update f pc u q
  omega

/-! ## Semaphores -/

/-- **The units of a semaphore** are left, or with the threads. -/
structure Shared (n : Int) (count : Int) (f : κ → Int) (pc : ι → κ) : Prop where
  /-- The count is never negative. -/
  nonneg : 0 ≤ count
  /-- No unit appears or is lost. -/
  balance : count + tally f pc = n

variable {n count : Int} {u : ι} {q : κ}

/-- A statement that does not concern the semaphore. -/
theorem Shared.keep (hs : Shared n count f pc) (same : f q = f (pc u)) :
    Shared n count f (Function.update pc u q) :=
  ⟨hs.nonneg, by rw [tally_update_same same, hs.balance]⟩

/-- `wait` takes a unit that is left. -/
theorem Shared.take (hs : Shared n count f pc) (free : 0 < count) (one : f q = f (pc u) + 1) :
    Shared n (count - 1) f (Function.update pc u q) := by
  have hmove := tally_update f pc u q
  have hbalance := hs.balance
  exact ⟨by omega, by omega⟩

/-- `signal` gives a unit back. -/
theorem Shared.give (hs : Shared n count f pc) (one : f q + 1 = f (pc u)) :
    Shared n (count + 1) f (Function.update pc u q) := by
  have hmove := tally_update f pc u q
  have hbalance := hs.balance
  have hnonneg := hs.nonneg
  exact ⟨by omega, by omega⟩

/-- **Exclusion.** One thread has the only unit. -/
theorem Shared.unique (hs : Shared 1 count f pc) (nonneg : ∀ p, 0 ≤ f p) {v : ι}
    (hu : f (pc u) = 1) (hv : f (pc v) = 1) : u = v := by
  by_contra hne
  have htwo := two_le_tally pc nonneg hne
  have hbalance := hs.balance
  have hnonneg := hs.nonneg
  omega

end Tallies
