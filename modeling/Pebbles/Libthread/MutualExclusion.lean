import Pebbles.Libthread.UserMutex

/-! # Mutual exclusion

A thread is in a critical section when its last call on a mutex was `mutex_lock` and has returned.
For every program that makes a mutex once and destroys none, at most one thread is in a critical
section of a mutex: the thread that holds it in `Monitors.Mutex`, of which `mutex.c` is an
implementation. -/

namespace Pebbles.ThreadLib

open Monitors SharedObjects Transition

variable {T L C : Type*} [DecidableEq L]

section Effect

variable {b b' : L → Option (Mutex T)} {t u : T} {op : MutexOp L} {mp : L}

/-- The effect of an operation leaves a mutex to its holder, unless he unlocks it. -/
theorem MutexEffect.held_of_held (effect : MutexEffect t b op b')
    (once : op = .init mp → b mp = none) (lasting : op ≠ .destroy mp)
    (mine : op = .unlock mp → t ≠ u) (held : b mp = some (.held u)) : b' mp = some (.held u) := by
  cases effect with
  | init l =>
      by_cases hl : mp = l
      · subst hl
        rw [once rfl] at held
        cases held
      · rwa [Function.update_of_ne hl]
  | @lock l free =>
      by_cases hl : mp = l
      · subst hl
        rw [free] at held
        cases held
      · rwa [Function.update_of_ne hl]
  | @unlock l hheld =>
      by_cases hl : mp = l
      · subst hl
        rw [hheld] at held
        cases held
        exact absurd rfl (mine rfl)
      · rwa [Function.update_of_ne hl]
  | @destroy l free =>
      by_cases hl : mp = l
      · subst hl
        exact absurd rfl lasting
      · rwa [Function.update_of_ne hl]
  | lockDestroyed | unlockDestroyed => exact held

end Effect

variable [DecidableEq T]

/-! ## Critical sections -/

/-- The operation, if the label is a call of the thread on the mutex. -/
def callOn (t : T) (mp : L) : Label T (MutexOp L) → Option (MutexOp L)
  | .call u op => if u = t ∧ op.mutex = mp then some op else none
  | _ => none

/-- The last call of a thread on a mutex. -/
def lastCall (t : T) (mp : L) (as : List (Label T (MutexOp L))) : Option (MutexOp L) :=
  (as.filterMap (callOn t mp)).getLast?

/-- **The thread is in a critical section** of the mutex. -/
def InSection (as : List (Label T (MutexOp L))) (f : T → Doing (MutexPc L)) (mp : L) (t : T) :
    Prop :=
  lastCall t mp as = some (.lock mp) ∧ ∀ p, f t = .inside p → p.op ≠ .lock mp

section LastCall

variable {t u : T} {mp : L} {op : MutexOp L} {as bs : List (Label T (MutexOp L))}

/-- The thread is in its own code. -/
theorem InSection.of_own {f : T → Doing (MutexPc L)} (last : lastCall t mp as = some (.lock mp))
    (own : f t = .own) : InSection as f mp t :=
  ⟨last, fun p hp => by rw [own] at hp; cases hp⟩

/-- What is no call on the mutex. -/
theorem lastCall_snoc_of_none {a : Label T (MutexOp L)} (h : callOn t mp a = none) :
    lastCall t mp (as ++ [a]) = lastCall t mp as := by
  rw [lastCall, List.filterMap_append, List.filterMap_cons_none h, List.filterMap_nil,
    List.append_nil]
  rfl

theorem lastCall_snoc_self : lastCall t op.mutex (as ++ [.call t op]) = some op := by
  have h : callOn t op.mutex (.call t op) = some op := if_pos ⟨rfl, rfl⟩
  rw [lastCall, List.filterMap_append, List.filterMap_cons_some h, List.filterMap_nil,
    List.getLast?_append, List.getLast?_singleton, Option.some_or]

/-- Another call. -/
theorem lastCall_snoc_call (h : ¬ (u = t ∧ op.mutex = mp)) :
    lastCall t mp (as ++ [.call u op]) = lastCall t mp as :=
  lastCall_snoc_of_none (if_neg h)

/-- Only the calls of the program count. -/
theorem lastCall_of_filter (h : bs.filter Label.ofClient = as.filter Label.ofClient) :
    lastCall t mp bs = lastCall t mp as := by
  have hfilter : ∀ cs : List (Label T (MutexOp L)),
      (cs.filter Label.ofClient).filterMap (callOn t mp) = cs.filterMap (callOn t mp) := by
    intro cs
    induction cs with
    | nil => rfl
    | cons a cs ih =>
        cases a with
        | go u => exact ih
        | act u => exact ih
        | call u op =>
            rw [List.filter_cons_of_pos rfl, List.filterMap_cons, List.filterMap_cons, ih]
  rw [lastCall, lastCall, ← hfilter bs, h, hfilter as]

end LastCall

/-! ## Careful programs -/

/-- **A careful program** keeps the discipline, makes a mutex once, and destroys none. -/
structure Careful (b : L → Option (Mutex T)) (g : T → Doing (Stage (MutexOp L))) : Prop
    extends Disciplined b g where
  /-- A mutex is made once. -/
  once : ∀ t mp, g t = .inside (.pending (.init mp)) → b mp = none
  /-- No mutex is destroyed. -/
  lasting : ∀ t q mp, g t = .inside q → q.op ≠ .destroy mp

/-- **What the calls tell** about the mutexes. -/
structure CallsTell (as : List (Label T (MutexOp L))) (b : L → Option (Mutex T))
    (g : T → Doing (Stage (MutexOp L))) : Prop where
  /-- A thread in an operation has called it last. -/
  current : ∀ t q, g t = .inside q → lastCall t q.op.mutex as = some q.op
  /-- Who called `mutex_lock` last waits for the mutex or holds it. -/
  locked : ∀ t mp, lastCall t mp as = some (.lock mp) →
    g t = .inside (.pending (.lock mp)) ∨ b mp = some (.held t)
  /-- No mutex is destroyed. -/
  lasting : ∀ mp, b mp ≠ some .destroyed

namespace CallsTell

variable {as : List (Label T (MutexOp L))} {b b' : L → Option (Mutex T)}
  {g : T → Doing (Stage (MutexOp L))} {t u : T} {op : MutexOp L} {mp : L}

theorem start : CallsTell (T := T) (L := L) [] (fun _ => none) fun _ => .own where
  current _ _ h := by cases h
  locked _ _ h := by cases h
  lasting _ := nofun

/-- A call. -/
theorem call (h : CallsTell as b g) (here : g t = .own) :
    CallsTell (as ++ [.call t op]) b (Function.update g t (.inside (.pending op))) where
  current u q hq := by
    by_cases hut : u = t
    · subst hut
      rw [Function.update_self] at hq
      obtain rfl := Doing.inside.inj hq
      exact lastCall_snoc_self
    · rw [Function.update_of_ne hut] at hq
      rw [lastCall_snoc_call fun hboth => hut hboth.1.symm]
      exact h.current u q hq
  locked u mp hlast := by
    by_cases hcall : t = u ∧ op.mutex = mp
    · obtain ⟨rfl, rfl⟩ := hcall
      rw [lastCall_snoc_self] at hlast
      rw [Function.update_self, Option.some.inj hlast]
      exact Or.inl rfl
    · rw [lastCall_snoc_call hcall] at hlast
      rcases h.locked u mp hlast with hpending | hheld
      · have hut : u ≠ t := by
          rintro rfl
          rw [here] at hpending
          cases hpending
        exact Or.inl (by rw [Function.update_of_ne hut, hpending])
      · exact Or.inr hheld
  lasting := h.lasting

/-- An operation takes effect. -/
theorem effect (h : CallsTell as b g) (careful : Careful b g)
    (here : g t = .inside (.pending op)) (effect : MutexEffect t b op b')
    {e : Doing (Stage (MutexOp L))} (hend : e = .own ∨ e = .inside (.done op)) :
    CallsTell (as ++ [.go t]) b' (Function.update g t e) where
  current u q hq := by
    rw [lastCall_snoc_of_none rfl]
    by_cases hut : u = t
    · subst hut
      rw [Function.update_self] at hq
      obtain rfl | rfl := hend
      · cases hq
      · obtain rfl := Doing.inside.inj hq
        have hcurrent := h.current u _ here
        exact hcurrent
    · rw [Function.update_of_ne hut] at hq
      exact h.current u q hq
  locked u mp hlast := by
    rw [lastCall_snoc_of_none rfl] at hlast
    rcases h.locked u mp hlast with hpending | hheld
    · by_cases hut : u = t
      · subst hut
        rw [here] at hpending
        cases hpending
        cases effect with
        | lock free => exact Or.inr (Function.update_self _ _ _)
        | lockDestroyed destroyed => exact absurd destroyed (h.lasting mp)
      · exact Or.inl (by rw [Function.update_of_ne hut, hpending])
    · refine Or.inr (effect.held_of_held ?_ (careful.lasting t _ mp here) ?_ hheld)
      · rintro rfl
        exact careful.once t mp here
      · rintro rfl rfl
        -- the last call of the thread on the mutex would be both
        have hcurrent := h.current t _ here
        exact absurd (hcurrent.symm.trans hlast) (by simp [Stage.op])
  lasting mp := by
    cases effect with
    | init l | @lock l _ | @unlock l _ =>
        by_cases hl : mp = l
        · subst hl
          rw [Function.update_self]
          nofun
        · rw [Function.update_of_ne hl]
          exact h.lasting mp
    | @destroy l _ => exact absurd rfl (careful.lasting t _ l here)
    | lockDestroyed | unlockDestroyed => exact h.lasting mp

/-- An operation returns. -/
theorem back (h : CallsTell as b g) (here : g t = .inside (.done op)) :
    CallsTell (as ++ [.go t]) b (Function.update g t .own) where
  current u q hq := by
    rw [lastCall_snoc_of_none rfl]
    by_cases hut : u = t
    · subst hut
      rw [Function.update_self] at hq
      cases hq
    · rw [Function.update_of_ne hut] at hq
      exact h.current u q hq
  locked u mp hlast := by
    rw [lastCall_snoc_of_none rfl] at hlast
    rcases h.locked u mp hlast with hpending | hheld
    · have hut : u ≠ t := by
        rintro rfl
        rw [here] at hpending
        cases hpending
      exact Or.inl (by rw [Function.update_of_ne hut, hpending])
    · exact Or.inr hheld
  lasting := h.lasting

end CallsTell

/-- **A step** of a careful program. -/
theorem CallsTell.step {client : Client T (MutexOp L) C} {a : Label T (MutexOp L)}
    {s s' : State T C (L → Option (Mutex T)) (Stage (MutexOp L))}
    {as : List (Label T (MutexOp L))} (h : CallsTell as s.object s.doing)
    (careful : Careful s.object s.doing)
    (step : Step client (mutexMeaning T L).atomic s a s') :
    CallsTell (as ++ [a]) s'.object s'.doing := by
  cases step with
  | act here act =>
      refine ⟨fun t q hq => ?_, fun t mp hlast => ?_, h.lasting⟩
      · rw [lastCall_snoc_of_none rfl]
        exact h.current t q hq
      · rw [lastCall_snoc_of_none rfl] at hlast
        exact h.locked t mp hlast
  | call here call => exact h.call here
  | go here step =>
      cases step with
      | effect effect => exact h.effect careful here effect (Or.inr rfl)
      | both effect => exact h.effect careful here effect (Or.inl rfl)
      | back => exact h.back here
      | ends ends =>
          obtain ⟨mp, u, rfl, -⟩ := ends
          exact absurd rfl (careful.lasting _ _ mp here)

/-! ## Mutual exclusion -/

/-- **At most one thread is in a critical section** of a mutex of `mutex.c`, in every interleaving
of the statements of a careful program. -/
theorem user_mutexes_exclude {client : Client T (MutexOp L) C} {c : C} {w : L → MutexT}
    {s : State T C (L → MutexT) (MutexPc L)} {as : List (Label T (MutexOp L))}
    (keeps : Keeps client (mutexMeaning T L).atomic Careful (.start c fun _ => none))
    (run : Run (Step client (userMutexes T L)) (.start c w) as s) {t u : T} {mp : L}
    (ht : InSection as s.doing mp t) (hu : InSection as s.doing mp u) : t = u := by
  obtain ⟨bs, s', run', -, hrep, hfilter⟩ := userMutexes_simulates.run
    (fun cs v hv => (keeps cs v hv).toDisciplined) (represents_start w) rfl run
  obtain ⟨-, htell⟩ := run'.trace_invariant
    (I := fun cs v => Run (Step client (mutexMeaning T L).atomic) (.start c fun _ => none) cs v ∧
      CallsTell cs v.object v.doing) ⟨.nil, .start⟩
    fun cs v a v' h step => ⟨h.1.snoc step, h.2.step (keeps cs v h.1) step⟩
  have holds : ∀ v, InSection as s.doing mp v → s'.object mp = some (.held v) := by
    rintro v ⟨hlast, hback⟩
    rw [← lastCall_of_filter hfilter] at hlast
    refine (htell.locked v mp hlast).resolve_left fun hpending => ?_
    rw [hrep.threads v] at hpending
    cases hv : s.doing v with
    | own | gone =>
        rw [hv] at hpending
        cases hpending
    | inside p =>
        rw [hv] at hpending
        have hstage : p.stage = .pending (.lock mp) := Doing.inside.inj hpending
        refine hback p hv ?_
        rw [← p.stage_op, hstage]
        rfl
  have hsame := (holds t ht).symm.trans (holds u hu)
  exact Mutex.held.inj (Option.some.inj hsame)

/-! ## A program -/

theorem OwnPhase.op_ne_destroy {t n mp : ℕ} {q : Stage (MutexOp ℕ)} {m : Option (Mutex ℕ)}
    (h : OwnPhase t n (.inside q) m) : q.op ≠ .destroy mp := by
  cases h with
  | init | lock | unlock => nofun
  | made h | held h | free h =>
      obtain rfl : q = .done _ := Doing.inside.inj (h.resolve_left (by simp))
      nofun

/-- The program in which each thread has a mutex of its own is careful. -/
theorem OwnPhases.careful
    {s : State ℕ (ℕ → ℕ) (ℕ → Option (Mutex ℕ)) (Stage (MutexOp ℕ))} (h : OwnPhases s) :
    Careful s.object s.doing where
  toDisciplined := h.disciplined
  once t mp hq := by
    have ht := h t
    rw [hq] at ht
    obtain rfl : mp = t := ht.mutex
    generalize s.object mp = m at ht ⊢
    generalize s.client mp = n at ht
    cases ht with
    | init => rfl
    | made h | held h | free h => exact absurd h (by simp)
  lasting t q mp hq := by
    have ht := h t
    rw [hq] at ht
    exact ht.op_ne_destroy

/-- The calls and the statements of a thread that has locked its mutex. -/
def lockedOnce : List (Label ℕ (MutexOp ℕ)) :=
  [.call 0 (.init 0), .go 0, .go 0, .call 0 (.lock 0), .go 0, .go 0, .go 0]

/-- The first thread has locked its mutex, and is the only one in a critical section of it. -/
theorem user_mutexes_exclude_own : ∃ s,
    Run (Step ownMutexes (userMutexes ℕ ℕ)) (.start (fun _ => 0) fun _ => ⟨7, 7⟩) lockedOnce s ∧
    InSection lockedOnce s.doing 0 0 ∧ ∀ u, InSection lockedOnce s.doing 0 u → 0 = u := by
  have keeps : Keeps ownMutexes (mutexMeaning ℕ ℕ).atomic Careful
      (.start (fun _ => 0) fun _ => none) := fun as s run =>
    OwnPhases.careful (run.invariant (I := OwnPhases) (fun _ => .start)
      fun _ _ _ h step => h.step step)
  have run : Run (Step ownMutexes (userMutexes ℕ ℕ)) (.start (fun _ => 0) fun _ => ⟨7, 7⟩)
      lockedOnce _ :=
    ((((((Run.nil.snoc (.call rfl ⟨rfl, Or.inl ⟨rfl, rfl⟩⟩)).snoc
      (.go (p := .initStatus 0) rfl rfl)).snoc (.go (p := .initLock 0) rfl rfl)).snoc
      (.call rfl ⟨rfl, Or.inr (Or.inl ⟨rfl, rfl⟩)⟩)).snoc (.go (p := .lockTest 0) rfl rfl)).snoc
      (.go (p := .lockSpin 0) rfl rfl)).snoc (.go (p := .lockStatus 0) rfl rfl)
  exact ⟨_, run, .of_own rfl rfl, fun u hu => user_mutexes_exclude keeps run (.of_own rfl rfl) hu⟩

end Pebbles.ThreadLib
