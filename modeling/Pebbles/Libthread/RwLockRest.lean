import Pebbles.Libthread.RwLockExclusion

/-! # The reader-writer lock at rest

When no thread holds the lock or is inside one of its functions, the counters are zero and each
semaphore has its unit again, except for `w`: its unit is lost exactly when some writer has
unlocked without downgrading. -/

namespace Pebbles

open Tallies Transition

namespace RwLock

variable {ι : Type*} {n : Int} {s : RwLock ι}

/-- No thread holds the lock or is inside one of its functions. -/
def AtRest (s : RwLock ι) : Prop := ∀ u, s.pc u = .idle

/-- The lock is as after `rwlock_init`. -/
structure Restored (s : RwLock ι) : Prop where
  readcnt : s.readcnt = 0
  writecnt : s.writecnt = 0
  sem : ∀ x, s.sem x = 1

/-- **The condition**: the step is not the test of `rwlock_unlock` by a thread that holds the lock
for writing. -/
def Keeps (s : RwLock ι) (m : RwMove ι) : Prop := ∀ u, m = .go u → s.pc u ≠ .testRead true

variable [Fintype ι]

/-- **At rest**, everything but `w` is as after `rwlock_init`, and `w` has the units that are not
lost. -/
theorem Tokens.restored_iff (h : Tokens n s) (rest : s.AtRest) : s.Restored ↔ n = 1 := by
  have hzero : ∀ f : RwPc → Int, f .idle = 0 → tally f s.pc = 0 := by
    intro f hf
    apply tally_eq_zero
    intro t
    rw [rest t, hf]
  have hreaders := h.readers
  have hwriters := h.writers
  have htoken := h.token
  rw [hzero _ rfl] at hreaders hwriters
  rw [out, if_pos hreaders, hzero _ rfl, hzero _ rfl, add_zero, add_zero] at htoken
  constructor
  · intro hrestored
    rw [← htoken]
    exact hrestored.sem .w
  · intro hn
    refine ⟨hreaders, hwriters, fun x => ?_⟩
    by_cases hx : x = .w
    · rw [hx, htoken, hn]
    · have hbalance := (h.shared x hx).balance
      rw [hzero _ rfl] at hbalance
      omega

variable [DecidableEq ι]

/-- **The units of `w` along a run**: one is left as long as all steps meet the condition, and none
afterwards. -/
theorem tokens_of_guarded {moves : List (RwMove ι)} (run : Run Step init moves s) :
    (Run (Guarded Step Keeps) init moves s ∧ Tokens 1 s) ∨
      (¬ Run (Guarded Step Keeps) init moves s ∧ Tokens 0 s) := by
  induction run with
  | nil => exact Or.inl ⟨Run.nil, tokens_init⟩
  | @snoc moves s s' m prev hs ih =>
      have hlast : Run (Guarded Step Keeps) init (moves ++ [m]) s' →
          Run (Guarded Step Keeps) init moves s ∧ s.Keeps m := by
        intro hguarded
        obtain ⟨t, hprev, -, hkeeps⟩ := hguarded.unsnoc
        obtain rfl : s = t := prev.deterministic hprev.of_guarded fun x a y z hy hz =>
          Option.some.inj (hy.symm.trans hz)
        exact ⟨hprev, hkeeps⟩
      rcases ih with ⟨hguarded, htokens⟩ | ⟨hbroken, htokens⟩
      · have hnext := htokens.step (le_refl 1) hs
        by_cases hkeeps : s.Keeps m
        · refine Or.inl ⟨Run.snoc hguarded ⟨hs, hkeeps⟩, ?_⟩
          have hkept : keptBy 1 s m = 1 := by
            cases m with
            | start u c => rfl
            | go u => exact if_neg (hkeeps u rfl)
          exact hkept ▸ hnext
        · refine Or.inr ⟨fun h => hkeeps (hlast h).2, ?_⟩
          have hkept : keptBy 1 s m = 0 := by
            unfold Keeps at hkeeps
            push Not at hkeeps
            obtain ⟨u, rfl, hwriter⟩ := hkeeps
            exact if_pos hwriter
          exact hkept ▸ hnext
      · refine Or.inr ⟨fun h => hbroken (hlast h).1, ?_⟩
        have hkept : keptBy 0 s m = 0 := by
          cases m with
          | start u c => rfl
          | go u =>
              refine if_neg fun hwriter => ?_
              -- a writer would have the unit of `w`
              have hself := le_tally s.pc (RwPc.owns_nonneg .w) u
              rw [hwriter] at hself
              change 1 ≤ _ at hself
              have htoken := htokens.token
              have hnonneg := htokens.nonneg
              have hout := htokens.out_nonneg
              omega
        exact hkept ▸ htokens.step (by decide) hs

/-- **The lock at rest is as after `rwlock_init` exactly when every writer downgraded**, for any
number of threads and any interleaving. -/
theorem restored_iff_guarded {moves : List (RwMove ι)} (run : Run Step init moves s)
    (rest : s.AtRest) : s.Restored ↔ Run (Guarded Step Keeps) init moves s := by
  rcases tokens_of_guarded run with ⟨hguarded, htokens⟩ | ⟨hbroken, htokens⟩
  · exact ⟨fun _ => hguarded, fun _ => (htokens.restored_iff rest).mpr rfl⟩
  · refine ⟨fun h => ?_, fun h => absurd h hbroken⟩
    exact absurd ((htokens.restored_iff rest).mp h) (by decide)

/-- A writer that downgrades, and unlocks as a reader. -/
theorem restored_iff_guarded_downgrade :
    ∃ moves, ∃ s : RwLock (Fin 1), s.readcnt = 0 ∧ s.sem .w = 1 ∧
      (s.Restored ↔ Run (Guarded Step Keeps) init moves s) := by
  have hruns : ∃ s : RwLock (Fin 1), runList step init
      (.start 0 (.write true) :: List.replicate 20 (.go 0)) = some s ∧ s.pc 0 = .idle ∧
      s.readcnt = 0 ∧ s.sem .w = 1 := ⟨_, rfl, rfl, rfl, rfl⟩
  obtain ⟨s, hrun, hidle, hcount, hw⟩ := hruns
  refine ⟨_, s, hcount, hw, restored_iff_guarded (Run.of_runList hrun) fun u => ?_⟩
  rw [Subsingleton.elim u 0]
  exact hidle

/-- **The unit of `w` is lost**: one thread has locked for writing and unlocked. -/
theorem w_lost_at_rest :
    ∃ moves, ∃ s : RwLock (Fin 1), Run Step init moves s ∧ s.AtRest ∧ s.sem .w = 0 ∧
      ¬ s.Restored := by
  have hruns : ∃ s : RwLock (Fin 1), runList step init
      (.start 0 (.write false) :: List.replicate 12 (.go 0)) = some s ∧ s.pc 0 = .idle ∧
      s.sem .w = 0 := ⟨_, rfl, rfl, rfl⟩
  obtain ⟨s, hrun, hidle, hw⟩ := hruns
  refine ⟨_, s, Run.of_runList hrun, fun u => ?_, hw, fun h => ?_⟩
  · rw [Subsingleton.elim u 0]
    exact hidle
  · exact absurd ((h.sem .w).symm.trans hw) (by decide)

end RwLock

end Pebbles
