import Mathlib.Data.List.Basic
import Mathlib.Data.Option.Basic

/-! # Loops with a fallible body

A counting loop over a state is a `List.foldlM` in `Option`: the list holds the values the loop
variable takes, in order, and a body without a result ends the loop without one. The rule of this
file is the usual one: an invariant that may speak about the values already handled. -/

namespace Loop

variable {α σ : Type*}

/-- **Loop rule.** When the body leads from the invariant for the values handled so far to the one
for one value more, the loop leads from the invariant for none to the one for all. -/
theorem foldlM_invariant {body : σ → α → Option σ} {I : List α → σ → Prop} {l : List α} {s t : σ}
    (loop : l.foldlM body s = some t) (base : I [] s)
    (keep : ∀ done, ∀ a ∈ l, ∀ u v, I done u → body u a = some v → I (done ++ [a]) v) : I l t := by
  -- the induction is on the values still to come
  suffices h : ∀ (rest done : List α) (u : σ), (∀ a ∈ rest, a ∈ l) → I done u →
      rest.foldlM body u = some t → I (done ++ rest) t from
    h l [] s (fun _ ha => ha) base loop
  intro rest
  induction rest with
  | nil =>
      intro done u _ hI h
      obtain rfl : u = t := by simpa using h
      simpa using hI
  | cons a rest ih =>
      intro done u hmem hI h
      simp only [List.foldlM_cons, Option.bind_eq_bind, Option.bind_eq_some_iff] at h
      obtain ⟨v, hv, hrest⟩ := h
      have hI' := keep done a (hmem a List.mem_cons_self) u v hI hv
      have := ih (done ++ [a]) v (fun b hb => hmem b (List.mem_cons_of_mem _ hb)) hI' hrest
      simpa using this

/-- The loop rule for an invariant that does not mention the values handled. -/
theorem foldlM_preserves {body : σ → α → Option σ} {I : σ → Prop} {l : List α} {s t : σ}
    (loop : l.foldlM body s = some t) (base : I s)
    (keep : ∀ a ∈ l, ∀ u v, I u → body u a = some v → I v) : I t :=
  foldlM_invariant (I := fun _ => I) loop base fun _ a ha u v => keep a ha u v

/-- **Counting loop.** The invariant speaks about the number of rounds made. -/
theorem foldlM_range {f : σ → Nat → Option σ} {I : Nat → σ → Prop} {n : Nat} {s t : σ}
    (loop : (List.range n).foldlM f s = some t) (base : I 0 s)
    (keep : ∀ k < n, ∀ u v, I k u → f u k = some v → I (k + 1) v) : I n t := by
  induction n generalizing t with
  | zero =>
      obtain rfl : s = t := by simpa using loop
      exact base
  | succ n ih =>
      rw [List.range_succ, List.foldlM_append] at loop
      obtain ⟨u, hu, hlast⟩ := Option.bind_eq_some_iff.mp loop
      have hI := ih hu fun k hk => keep k (Nat.lt_succ_of_lt hk)
      refine keep n (Nat.lt_succ_self n) u t hI ?_
      simpa using hlast

/-- **Counting loop without failure.** -/
theorem foldl_range {f : σ → Nat → σ} {I : Nat → σ → Prop} (n : Nat) {s : σ} (base : I 0 s)
    (keep : ∀ k < n, ∀ u, I k u → I (k + 1) (f u k)) : I n ((List.range n).foldl f s) := by
  induction n with
  | zero => exact base
  | succ n ih =>
      rw [List.range_succ, List.foldl_append]
      exact keep n (Nat.lt_succ_self n) _ (ih fun k hk => keep k (Nat.lt_succ_of_lt hk))

/-- **Total counting loop.** When every round has a result, so has the loop. -/
theorem foldlM_range_total {f : σ → Nat → Option σ} {I : Nat → σ → Prop} (n : Nat) {s : σ}
    (base : I 0 s) (keep : ∀ k < n, ∀ u, I k u → ∃ v, f u k = some v ∧ I (k + 1) v) :
    ∃ t, (List.range n).foldlM f s = some t ∧ I n t := by
  induction n with
  | zero => exact ⟨s, rfl, base⟩
  | succ n ih =>
      obtain ⟨u, hu, hI⟩ := ih fun k hk => keep k (Nat.lt_succ_of_lt hk)
      obtain ⟨v, hv, hI'⟩ := keep n (Nat.lt_succ_self n) u hI
      refine ⟨v, ?_, hI'⟩
      rw [List.range_succ, List.foldlM_append, hu]
      simpa using hv

end Loop
