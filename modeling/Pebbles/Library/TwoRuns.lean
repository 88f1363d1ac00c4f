import Mathlib.Data.List.Basic
import Mathlib.Data.Option.Basic

/-! # Two runs of a fallible computation

A statement about two runs of the same code, from different states, relates the two results. It
says nothing where one of the runs has no result. The rules follow the shape of the code: a
sequence, a branch on a condition that both runs see alike, a loop over the same values. -/

namespace TwoRuns

variable {α β γ δ ι : Type*}

/-- Where both runs have a result, the results are related. -/
def Both (R : α → β → Prop) (x : Option α) (y : Option β) : Prop :=
  ∀ a b, x = some a → y = some b → R a b

section
variable {R : α → β → Prop} {S : γ → δ → Prop} {x : Option α} {y : Option β} {a : α} {b : β}

theorem Both.some (h : R a b) : Both R (some a) (some b) := by
  intro a' b' ha hb
  obtain rfl := Option.some.inj ha
  obtain rfl := Option.some.inj hb
  exact h

/-- **Sequence.** -/
theorem Both.bind {f : α → Option γ} {g : β → Option δ} (h : Both R x y)
    (k : ∀ a b, R a b → Both S (f a) (g b)) : Both S (x.bind f) (y.bind g) := by
  intro c d hc hd
  obtain ⟨a, ha, hc⟩ := Option.bind_eq_some_iff.mp hc
  obtain ⟨b, hb, hd⟩ := Option.bind_eq_some_iff.mp hd
  exact k a b (h a b ha hb) c d hc hd

/-- A pure step at the end. -/
theorem Both.map {f : α → γ} {g : β → δ} (h : Both R x y) (k : ∀ a b, R a b → S (f a) (g b)) :
    Both S (x.map f) (y.map g) := by
  intro c d hc hd
  obtain ⟨a, ha, rfl⟩ := Option.map_eq_some_iff.mp hc
  obtain ⟨b, hb, rfl⟩ := Option.map_eq_some_iff.mp hd
  exact k a b (h a b ha hb)

/-- **Guard.** A check that may come out differently only decides whether there is a result. -/
theorem Both.guard {p q : Prop} [Decidable p] [Decidable q] (h : Both R x y) :
    Both R (if p then x else none) (if q then y else none) := by
  intro a b ha hb
  obtain ⟨-, ha⟩ := Option.ite_none_right_eq_some.mp ha
  obtain ⟨-, hb⟩ := Option.ite_none_right_eq_some.mp hb
  exact h a b ha hb

/-- **Loop** over the same values. -/
theorem Both.foldlM {f : α → ι → Option α} {g : β → ι → Option β} {l : List ι}
    (k : ∀ i ∈ l, ∀ a b, R a b → Both R (f a i) (g b i)) (h : R a b) :
    Both R (l.foldlM f a) (l.foldlM g b) := by
  induction l generalizing a b with
  | nil => exact Both.some h
  | cons i l ih =>
      rw [List.foldlM_cons, List.foldlM_cons]
      refine (k i List.mem_cons_self a b h).bind fun a' b' hab => ?_
      apply ih (fun j hj => k j (List.mem_cons_of_mem _ hj)) hab

end

end TwoRuns
