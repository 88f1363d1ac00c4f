import Mathlib.Data.List.Basic
import Mathlib.Data.List.Induction
import Mathlib.Data.Option.Basic

/-! # Runs of a labelled transition relation

A system is a relation `step : σ → α → σ → Prop`: from a state, under a label (an event with
whatever it returned), to a state. `Run step s as t` says that the labels `as`, in order, lead
from `s` to `t`. The rules of this file are what a development over such a system needs: the
invariant rule, the change of relation, the restriction of a relation to the steps (or to the
states) that meet a condition, and simulation. -/

namespace Transition

variable {σ α τ : Type*}

/-- **Runs**: the labels `as` lead, one `step` each, from `s` to the state in the last place. -/
inductive Run (step : σ → α → σ → Prop) (s : σ) : List α → σ → Prop
  /-- The empty run stays where it is. -/
  | nil : Run step s [] s
  /-- A run is continued by one more step. -/
  | snoc {as : List α} {t u : σ} {a : α} :
      Run step s as t → step t a u → Run step s (as ++ [a]) u

/-- The steps of `step` whose label meets the condition `C` in the state before the step. -/
def Guarded (step : σ → α → σ → Prop) (C : σ → α → Prop) (s : σ) (a : α) (t : σ) : Prop :=
  step s a t ∧ C s a

/-- The steps of `step` with the property `G`, which may speak about both states. -/
def Satisfying (step G : σ → α → σ → Prop) (s : σ) (a : α) (t : σ) : Prop :=
  step s a t ∧ G s a t

/-- The steps of `step` that lead to a state with the property `P`. -/
def Into (step : σ → α → σ → Prop) (P : σ → Prop) (s : σ) (a : α) (t : σ) : Prop :=
  step s a t ∧ P t

namespace Run

variable {step : σ → α → σ → Prop} {s t : σ} {as : List α}

/-- **Invariant rule.** What holds at the start and is kept by each step holds at the end. -/
theorem invariant {I : σ → Prop} (run : Run step s as t) (base : I s)
    (keep : ∀ u a v, I u → step u a v → I v) : I t := by
  induction run with
  | nil => exact base
  | snoc _ hstep ih => exact keep _ _ _ ih hstep

/-- **Trace rule.** The invariant may also speak about the labels read so far. -/
theorem trace_invariant {I : List α → σ → Prop} (run : Run step s as t) (base : I [] s)
    (keep : ∀ bs u a v, I bs u → step u a v → I (bs ++ [a]) v) : I as t := by
  induction run with
  | nil => exact base
  | snoc _ hstep ih => exact keep _ _ _ _ ih hstep

/-- A run of one relation is a run of every relation that allows its steps. -/
theorem mono {step' : σ → α → σ → Prop} (run : Run step s as t)
    (sub : ∀ u a v, step u a v → step' u a v) : Run step' s as t := by
  induction run with
  | nil => exact nil
  | snoc _ hstep ih => exact snoc ih (sub _ _ _ hstep)

/-- The change of relation may use an invariant of the run. -/
theorem mono_of_invariant {step' : σ → α → σ → Prop} {I : σ → Prop} (run : Run step s as t)
    (base : I s) (keep : ∀ u a v, I u → step u a v → I v)
    (sub : ∀ u a v, I u → step u a v → step' u a v) : Run step' s as t := by
  induction run with
  | nil => exact nil
  | snoc prev hstep ih => exact snoc ih (sub _ _ _ (prev.invariant base keep) hstep)

/-- Forgetting the condition of a guarded run. -/
theorem of_guarded {C : σ → α → Prop} (run : Run (Guarded step C) s as t) : Run step s as t :=
  run.mono fun _ _ _ h => h.1

/-- **Exact conditions.** When, in every state with the invariant `I` and the property `P`, a step
leads to `P` exactly when its label meets the condition `C`, the runs that visit only states with
`P` are the runs whose steps all meet `C`. -/
theorem into_iff_guarded {I P : σ → Prop} {C : σ → α → Prop} (baseI : I s) (baseP : P s)
    (keep : ∀ u a v, I u → step u a v → I v)
    (exact_step : ∀ u a v, I u → P u → step u a v → (P v ↔ C u a)) :
    Run (Into step P) s as t ↔ Run (Guarded step C) s as t := by
  constructor
  · intro run
    refine run.mono_of_invariant (I := fun u => I u ∧ P u) ⟨baseI, baseP⟩ ?_ ?_
    · rintro u a v ⟨hI, -⟩ ⟨hstep, hP⟩
      exact ⟨keep u a v hI hstep, hP⟩
    · rintro u a v ⟨hI, hP⟩ ⟨hstep, hPv⟩
      exact ⟨hstep, (exact_step u a v hI hP hstep).mp hPv⟩
  · intro run
    refine run.mono_of_invariant (I := fun u => I u ∧ P u) ⟨baseI, baseP⟩ ?_ ?_
    · rintro u a v ⟨hI, hP⟩ ⟨hstep, hC⟩
      exact ⟨keep u a v hI hstep, (exact_step u a v hI hP hstep).mpr hC⟩
    · rintro u a v ⟨hI, hP⟩ ⟨hstep, hC⟩
      exact ⟨hstep, (exact_step u a v hI hP hstep).mpr hC⟩

/-- **Exact conditions with a guarded invariant.** The invariant `I` implies `P` and is kept by the
steps whose label meets the condition `C`; and from a state with `I` a step leads to `P` only when
its label meets `C`. -/
theorem into_iff_guarded_of_keep {I P : σ → Prop} {C : σ → α → Prop} (base : I s)
    (implies : ∀ u, I u → P u) (keep : ∀ u a v, I u → step u a v → C u a → I v)
    (only : ∀ u a v, I u → step u a v → P v → C u a) :
    Run (Into step P) s as t ↔ Run (Guarded step C) s as t := by
  constructor
  · intro run
    refine run.mono_of_invariant base ?_ ?_
    · rintro u a v hI ⟨hstep, hP⟩
      exact keep u a v hI hstep (only u a v hI hstep hP)
    · rintro u a v hI ⟨hstep, hP⟩
      exact ⟨hstep, only u a v hI hstep hP⟩
  · intro run
    refine run.mono_of_invariant base ?_ ?_
    · rintro u a v hI ⟨hstep, hC⟩
      exact keep u a v hI hstep hC
    · rintro u a v hI ⟨hstep, hC⟩
      exact ⟨hstep, implies v (keep u a v hI hstep hC)⟩

/-- **Exact conditions on steps.** When, in every state with the invariant `I`, a step has the
property `G` exactly when its label meets the condition `C`, the runs whose steps all have `G` are
the runs whose steps all meet `C`. -/
theorem satisfying_iff_guarded {I : σ → Prop} {G : σ → α → σ → Prop} {C : σ → α → Prop}
    (base : I s) (keep : ∀ u a v, I u → step u a v → I v)
    (exact_step : ∀ u a v, I u → step u a v → (G u a v ↔ C u a)) :
    Run (Satisfying step G) s as t ↔ Run (Guarded step C) s as t := by
  constructor
  · intro run
    refine run.mono_of_invariant base (fun u a v hI h => keep u a v hI h.1) ?_
    rintro u a v hI ⟨hstep, hG⟩
    exact ⟨hstep, (exact_step u a v hI hstep).mp hG⟩
  · intro run
    refine run.mono_of_invariant base (fun u a v hI h => keep u a v hI h.1) ?_
    rintro u a v hI ⟨hstep, hC⟩
    exact ⟨hstep, (exact_step u a v hI hstep).mpr hC⟩

/-- **Simulation.** When every step of a related pair is matched under the same label, every run
is matched by a run with the same labels. -/
theorem simulate {step' : τ → α → τ → Prop} {R : σ → τ → Prop} {s' : τ}
    (run : Run step s as t) (base : R s s')
    (sim : ∀ u a v u', R u u' → step u a v → ∃ v', step' u' a v' ∧ R v v') :
    ∃ t', Run step' s' as t' ∧ R t t' := by
  induction run with
  | nil => exact ⟨s', nil, base⟩
  | snoc _ hstep ih =>
      obtain ⟨u', run', hR⟩ := ih
      obtain ⟨v', hstep', hR'⟩ := sim _ _ _ _ hR hstep
      exact ⟨v', snoc run' hstep', hR'⟩

/-- Two runs in a row are one run. -/
theorem append {u : σ} {bs : List α} (first : Run step s as t) (second : Run step t bs u) :
    Run step s (as ++ bs) u := by
  induction second with
  | nil => simpa using first
  | snoc _ hstep ih => simpa [List.append_assoc] using snoc ih hstep

/-- The last step of a run. -/
theorem unsnoc {a : α} (run : Run step s (as ++ [a]) t) : ∃ u, Run step s as u ∧ step u a t := by
  generalize hlabels : as ++ [a] = bs at run
  cases run with
  | nil => simp at hlabels
  | snoc prev hstep =>
      obtain ⟨rfl, hlast⟩ := List.append_inj' hlabels rfl
      obtain rfl := List.singleton_inj.mp hlast
      exact ⟨_, prev, hstep⟩

/-- The first step of a run. -/
theorem uncons {a : α} (run : Run step s (a :: as) t) : ∃ u, step s a u ∧ Run step u as t := by
  -- runs grow at their end, so the induction takes the last label off
  induction as using List.reverseRecOn generalizing t with
  | nil =>
      have hlast : Run step s ([] ++ [a]) t := run
      obtain ⟨u, hnil, hstep⟩ := hlast.unsnoc
      generalize hlabels : ([] : List α) = bs at hnil
      cases hnil with
      | nil => exact ⟨t, hstep, nil⟩
      | snoc => simp at hlabels
  | append_singleton as b ih =>
      rw [← List.cons_append] at run
      obtain ⟨v, hprev, hlast⟩ := run.unsnoc
      obtain ⟨u, hstep, hrest⟩ := ih hprev
      exact ⟨u, hstep, snoc hrest hlast⟩

/-- **Determinism.** When the label determines the step, the labels determine the run. -/
theorem deterministic {u : σ} (run : Run step s as t) (run' : Run step s as u)
    (det : ∀ x a y z, step x a y → step x a z → y = z) : t = u := by
  induction run generalizing u with
  | nil =>
      generalize hlabels : ([] : List α) = bs at run'
      cases run' with
      | nil => rfl
      | snoc => simp at hlabels
  | snoc _ hstep ih =>
      obtain ⟨v, hprev, hlast⟩ := run'.unsnoc
      rw [← ih hprev] at hlast
      exact det _ _ _ _ hstep hlast

end Run

/-! ## Runs of a step function -/

/-- Run a partial step function over a list of labels. -/
def runList (next : σ → α → Option σ) : σ → List α → Option σ
  | s, [] => some s
  | s, a :: as => (next s a).bind fun t => runList next t as

/-- A successful `runList` is a run of the relation the step function is the graph of. -/
theorem Run.of_runList {next : σ → α → Option σ} {s t : σ} {as : List α}
    (h : runList next s as = some t) : Run (fun u a v => next u a = some v) s as t := by
  induction as generalizing s with
  | nil =>
      obtain rfl : s = t := by simpa [runList] using h
      exact Run.nil
  | cons a as ih =>
      simp only [runList, Option.bind_eq_some_iff] at h
      obtain ⟨u, hu, hrest⟩ := h
      simpa using (Run.snoc Run.nil hu).append (ih hrest)

/-- **An exact abstraction**: when a map of the states takes every step of one function to the step
of another one, and refusals to refusals, it does so with whole runs. -/
theorem runList_map {next : σ → α → Option σ} {next' : τ → α → Option τ} {f : σ → τ}
    (commutes : ∀ s a, (next s a).map f = next' (f s) a) (s : σ) (as : List α) :
    (runList next s as).map f = runList next' (f s) as := by
  induction as generalizing s with
  | nil => rfl
  | cons a as ih =>
      rw [runList, runList, ← commutes s a]
      cases next s a with
      | none => rfl
      | some t => exact ih t

/-- **A checked run**: a run of the step function whose every step passes a test is guarded by what
the test implies. -/
theorem Run.guarded_of_runList {next : σ → α → Option σ} {C : σ → α → Prop} {test : σ → α → Bool}
    {s t : σ} {as : List α} (imp : ∀ u a, test u a = true → C u a)
    (h : runList (fun u a => if test u a then next u a else none) s as = some t) :
    Run (Guarded (fun u a v => next u a = some v) C) s as t := by
  apply (Run.of_runList h).mono
  intro u a v hstep
  split at hstep
  · next htest => exact ⟨hstep, imp u a htest⟩
  · cases hstep

end Transition
