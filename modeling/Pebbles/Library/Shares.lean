import Mathlib.Data.Set.Card
import Mathlib.Order.CompletePartialOrder

/-! # Shares of a set

Sets are taken out of a set `A`, none of them overlapping another (`Apart`), and something is left
of `A` (`rest`). A share is taken by `Apart.cons_iff` and given back by `Apart.rest_union`; the
order of the shares does not matter. -/

namespace Shares

variable {α : Type*} {A S : Set α} {L L' : List (Set α)} {x : α}

/-- **What is left** of a set when the sets of a list are taken out. -/
def rest (A : Set α) (L : List (Set α)) : Set α := {x | x ∈ A ∧ ∀ S ∈ L, x ∉ S}

/-- **Shares**: subsets of `A` that do not overlap. -/
structure Apart (A : Set α) (L : List (Set α)) : Prop where
  /-- They are subsets. -/
  inside : ∀ S ∈ L, S ⊆ A
  /-- They do not overlap. -/
  apart : L.Pairwise Disjoint

@[simp] theorem rest_nil (A : Set α) : rest A [] = A := by
  ext x
  simp [rest]

@[simp] theorem rest_cons (A S : Set α) (L : List (Set α)) : rest A (S :: L) = rest A L \ S := by
  ext x
  simp only [rest, List.mem_cons, forall_eq_or_imp, Set.mem_sdiff, Set.mem_ofPred_eq]
  tauto

theorem rest_subset (A : Set α) (L : List (Set α)) : rest A L ⊆ A := fun _ hx => hx.1

/-- The order of the shares does not matter. -/
theorem rest_perm (h : L.Perm L') : rest A L = rest A L' := by
  ext x
  simp only [rest, Set.mem_ofPred_eq, h.mem_iff]

/-- A share and what is left. -/
theorem disjoint_rest (hS : S ∈ L) : Disjoint S (rest A L) :=
  Set.disjoint_left.mpr fun _ hx hr => hr.2 S hS hx

namespace Apart

theorem nil (A : Set α) : Apart A [] := ⟨fun _ h => absurd h List.not_mem_nil, List.Pairwise.nil⟩

theorem perm (h : Apart A L) (hp : L.Perm L') : Apart A L' :=
  ⟨fun S hS => h.inside S (hp.mem_iff.mpr hS),
    (hp.pairwise_iff fun {_ _} hd => hd.symm).mp h.apart⟩

/-- **A share is taken** of what is left. -/
theorem cons_iff : Apart A (S :: L) ↔ S ⊆ rest A L ∧ Apart A L := by
  constructor
  · intro h
    obtain ⟨hS, hrest⟩ := List.pairwise_cons.mp h.apart
    exact ⟨fun x hx => ⟨h.inside S List.mem_cons_self hx, fun T hT =>
      Set.disjoint_left.mp (hS T hT) hx⟩, fun T hT => h.inside T (List.mem_cons_of_mem S hT), hrest⟩
  · rintro ⟨hsub, h⟩
    refine ⟨fun T hT => ?_, List.pairwise_cons.mpr ⟨fun T hT => ?_, h.apart⟩⟩
    · rcases List.mem_cons.mp hT with rfl | hT
      · exact hsub.trans (rest_subset A L)
      · exact h.inside T hT
    · exact Set.disjoint_left.mpr fun x hx => (hsub hx).2 T hT

/-- **A share is given back.** -/
theorem rest_union (h : Apart A (S :: L)) : rest A (S :: L) ∪ S = rest A L := by
  rw [rest_cons]
  exact Set.sdiff_union_of_subset (cons_iff.mp h).1

/-- **A part of a share is given back.** -/
theorem shrink {T : Set α} (h : Apart A (S :: L)) (hT : T ⊆ S) :
    Apart A (T :: L) ∧ rest A (T :: L) = rest A (S :: L) ∪ S \ T := by
  obtain ⟨hS, hL⟩ := cons_iff.mp h
  refine ⟨cons_iff.mpr ⟨hT.trans hS, hL⟩, ?_⟩
  rw [rest_cons, ← h.rest_union, Set.union_sdiff_distrib]
  refine congrArg (· ∪ S \ T) (sdiff_eq_self_iff_disjoint.mpr ?_)
  exact (disjoint_rest List.mem_cons_self).mono_left hT

/-- **Accounting**: the shares and what is left make up the set. -/
theorem ncard_rest (hA : A.Finite) (h : Apart A L) :
    (rest A L).ncard + (L.map Set.ncard).sum = A.ncard := by
  induction L with
  | nil => rw [rest_nil, List.map_nil, List.sum_nil, Nat.add_zero]
  | cons S L ih =>
      have hfin : (rest A L).Finite := hA.subset (rest_subset A L)
      have hsub := (cons_iff.mp h).1
      rw [List.map_cons, List.sum_cons, rest_cons, ← Nat.add_assoc,
        Set.ncard_sdiff_add_ncard_of_subset hsub hfin]
      exact ih (cons_iff.mp h).2

end Apart

end Shares
