import Mathlib.Data.Option.Basic
import Mathlib.Logic.Equiv.Defs
import Mathlib.Tactic.Common

/-! # Ledgers

A ledger records which key owns which resource. It balances when no resource has two owners and
when the resources in use are exactly the owned ones: nothing is used that nobody owns, and
nothing owned is free. The rules of this file say how the two sides must move together: a resource
that is taken into use is entered under a key that owns nothing, a resource that is given back is
struck out, and a change of names is a permutation of the keys.

* `Ledger.assign`, `Ledger.release` — the two entries.
* `Ledger.rename` — the keys are permuted.
* `Ledger.congr` — the same ledger under another description. -/

/-- **A balanced ledger**: the keys `κ` own resources `ρ` as `own` says, and `inUse` holds of the
owned resources and of no others. -/
structure Ledger {κ ρ : Type*} (own : κ → Option ρ) (inUse : ρ → Prop) : Prop where
  /-- No resource has two owners. -/
  exclusive : ∀ {k l r}, own k = some r → own l = some r → k = l
  /-- The resources in use are the owned ones. -/
  accounts : ∀ r, inUse r ↔ ∃ k, own k = some r

namespace Ledger

variable {κ ρ : Type*} {own own' : κ → Option ρ} {inUse inUse' : ρ → Prop} {k l : κ} {r : ρ}

/-- An owned resource is in use. -/
theorem backed (h : Ledger own inUse) (hk : own k = some r) : inUse r :=
  (h.accounts r).mpr ⟨k, hk⟩

/-- Different keys own different resources. -/
theorem ne_of_ne (h : Ledger own inUse) {r' : ρ} (hk : own k = some r) (hl : own l = some r')
    (hne : k ≠ l) : r ≠ r' := by
  rintro rfl
  exact hne (h.exclusive hk hl)

/-- The same entries and the same resources in use. -/
theorem congr (h : Ledger own inUse) (hown : ∀ k, own' k = own k)
    (huse : ∀ r, inUse' r ↔ inUse r) : Ledger own' inUse' := by
  obtain rfl : own' = own := funext hown
  exact ⟨h.exclusive, fun r => (huse r).trans (h.accounts r)⟩

/-- **Entry.** A free resource is taken into use under a key that owns nothing. -/
theorem assign [DecidableEq κ] (h : Ledger own inUse) (hk : own k = none) (hfree : ¬ inUse r)
    (huse : ∀ x, inUse' x ↔ inUse x ∨ x = r) : Ledger (Function.update own k (some r)) inUse' := by
  refine ⟨fun {a b x} ha hb => ?_, fun x => ?_⟩
  · by_cases hak : a = k <;> by_cases hbk : b = k
    · rw [hak, hbk]
    · rw [hak, Function.update_self, Option.some.injEq] at ha
      rw [Function.update_of_ne hbk, ← ha] at hb
      exact absurd (h.backed hb) hfree
    · rw [hbk, Function.update_self, Option.some.injEq] at hb
      rw [Function.update_of_ne hak, ← hb] at ha
      exact absurd (h.backed ha) hfree
    · rw [Function.update_of_ne hak] at ha
      rw [Function.update_of_ne hbk] at hb
      exact h.exclusive ha hb
  · rw [huse x, h.accounts x]
    constructor
    · rintro (⟨a, ha⟩ | rfl)
      · refine ⟨a, ?_⟩
        rw [Function.update_of_ne, ha]
        rintro rfl
        rw [hk] at ha
        cases ha
      · exact ⟨k, Function.update_self ..⟩
    · rintro ⟨a, ha⟩
      by_cases hak : a = k
      · rw [hak, Function.update_self, Option.some.injEq] at ha
        exact Or.inr ha.symm
      · rw [Function.update_of_ne hak] at ha
        exact Or.inl ⟨a, ha⟩

/-- **Discharge.** An owned resource is given back and its entry struck out. -/
theorem release [DecidableEq κ] (h : Ledger own inUse) (hk : own k = some r)
    (huse : ∀ x, inUse' x ↔ inUse x ∧ x ≠ r) : Ledger (Function.update own k none) inUse' := by
  have hold : ∀ {a x}, Function.update own k none a = some x → a ≠ k ∧ own a = some x := by
    intro a x ha
    by_cases hak : a = k
    · rw [hak, Function.update_self] at ha
      cases ha
    · rw [Function.update_of_ne hak] at ha
      exact ⟨hak, ha⟩
  refine ⟨fun ha hb => h.exclusive (hold ha).2 (hold hb).2, fun x => ?_⟩
  rw [huse x, h.accounts x]
  constructor
  · rintro ⟨⟨a, ha⟩, hne⟩
    refine ⟨a, ?_⟩
    rw [Function.update_of_ne, ha]
    rintro rfl
    rw [hk, Option.some.injEq] at ha
    exact hne ha.symm
  · rintro ⟨a, ha⟩
    obtain ⟨hak, ha⟩ := hold ha
    exact ⟨⟨a, ha⟩, h.ne_of_ne ha hk hak⟩

/-- **Renaming.** The keys are permuted. -/
theorem rename (h : Ledger own inUse) (e : Equiv.Perm κ) : Ledger (fun k => own (e k)) inUse := by
  refine ⟨fun ha hb => e.injective (h.exclusive ha hb), fun r => ?_⟩
  rw [h.accounts r]
  constructor
  · rintro ⟨k, hk⟩
    exact ⟨e.symm k, by rw [e.apply_symm_apply, hk]⟩
  · rintro ⟨k, hk⟩
    exact ⟨e k, hk⟩

end Ledger
