import Mathlib.Data.Set.Insert
import Mathlib.Order.BooleanAlgebra.Set
import Mathlib.Logic.Function.Basic

/-! # Who holds which mutex

The state of a family of mutexes is a map `owner` that names the holder of each one, or nobody.
`heldBy owner t` is the set of mutexes that `t` holds; the rules say what taking a free mutex and
dropping one do to these sets. -/

namespace Mutexes

variable {L T : Type*}

/-- The mutexes that `t` holds. -/
def heldBy (owner : L → Option T) (t : T) : Set L := {l | owner l = some t}

@[simp] theorem mem_heldBy {owner : L → Option T} {t : T} {l : L} :
    l ∈ heldBy owner t ↔ owner l = some t := Iff.rfl

/-- **Exclusion.** A mutex has one holder. -/
theorem holder_unique {owner : L → Option T} {t u : T} {l : L} (ht : l ∈ heldBy owner t)
    (hu : l ∈ heldBy owner u) : t = u :=
  Option.some.inj ((mem_heldBy.mp ht).symm.trans (mem_heldBy.mp hu))

variable [DecidableEq L]

/-- Taking a mutex. -/
theorem heldBy_take_self (owner : L → Option T) (l : L) (t : T) :
    heldBy (Function.update owner l (some t)) t = insert l (heldBy owner t) := by
  ext x
  by_cases hx : x = l
  · simp [hx]
  · simp [hx]

/-- Taking a free mutex does not concern the others. -/
theorem heldBy_take_of_ne {owner : L → Option T} {l : L} {t u : T} (free : owner l = none)
    (h : u ≠ t) : heldBy (Function.update owner l (some t)) u = heldBy owner u := by
  ext x
  by_cases hx : x = l
  · subst hx
    simp [free, h.symm]
  · simp [hx]

/-- Dropping a mutex, whoever holds it. -/
theorem heldBy_drop (owner : L → Option T) (l : L) (u : T) :
    heldBy (Function.update owner l none) u = heldBy owner u \ {l} := by
  ext x
  by_cases hx : x = l
  · simp [hx]
  · simp [hx]

/-- Dropping one's own mutex does not concern the others. -/
theorem heldBy_drop_of_ne {owner : L → Option T} {l : L} {t u : T} (mine : l ∈ heldBy owner t)
    (h : u ≠ t) : heldBy (Function.update owner l none) u = heldBy owner u := by
  rw [heldBy_drop]
  refine Set.sdiff_singleton_eq_self fun hu => ?_
  exact h (holder_unique hu mine)

end Mutexes
