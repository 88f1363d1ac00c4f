import Pebbles.Libthread.ThreadSteps

/-! # The places of the thread library

What the place of a thread says about it (how far it is in its life, what it is making, whose
`thread_t` it points to), how the places follow each other, and what a step changes. -/

namespace Pebbles.ThreadLib

open Monitors Transition

/-! ## What a place says -/

/-- How far a thread is in its life. -/
inductive Phase where
  /-- There is no such thread. -/
  | absent
  /-- In `run_child`, before the start function. -/
  | child
  /-- From the start function to the store of its status. -/
  | running
  /-- After that. -/
  | over
  deriving DecidableEq

namespace Pc

/-- How far a thread is. -/
def phase : Pc → Phase
  | absent => .absent
  | childLock | childCheck _ | childWait | childAsleep | childRelock => .child
  | exitSignal _ | exitUnlockThread _ | exitVanish | lastNext | lastRemove _ | lastFree _
  | lastUnlock | lastEnd | vanished | taskVanished | fault => .over
  | _ => .running

/-- The thread that was made and is not in the list yet. -/
def making : Pc → Option Int
  | createInit _ c | createLockList _ c | createInsert _ c => some c
  | _ => none

/-- The `thread_t` that was made and is not in the list yet. -/
def madeBlock : Pc → Option (Nat × Int)
  | createLockList b c | createInsert b c => some (b, c)
  | _ => none

/-- The pointer of a call of `thr_join`, with the target. -/
def target : Pc → Option (Int × Nat)
  | joinUnlock tid (some b) | joinLockThread tid b | joinTest tid b | joinReject tid b
  | joinLoop tid b | joinWait tid b | joinAsleep tid b | joinRelock tid b | joinRelease tid b _
  | reapDestroy tid b _ | reapRemove tid b _ | reapFree tid b _ => some (tid, b)
  | _ => none

/-- The target of a call of `thr_join` that has found `THREAD_EXIT`. -/
def past : Pc → Option Int
  | joinRelease tid _ _ | reapDestroy tid _ _ | reapRemove tid _ _ | reapFree tid _ _
  | deleteLock tid _ | deleteNode tid _ | deleteUnlock tid _ => some tid
  | _ => none

/-- The target that a call of `thr_join` has begun to reap and has not taken out of the list. -/
def reaping : Pc → Option Int
  | reapRemove tid _ _ | reapFree tid _ _ | deleteLock tid _ | deleteNode tid _ => some tid
  | _ => none

/-- The pointer of a call of `thr_exit`. -/
def own : Pc → Option Nat
  | exitUnlock _ (some b) | exitLockThread _ b | exitStore _ b | exitSignal b
  | exitUnlockThread b => some b
  | _ => none

/-- The branch of the last thread. -/
def lasting : Pc → Bool
  | lastNext | lastRemove _ | lastFree _ | lastUnlock | lastEnd => true
  | _ => false

/-- The pointer there. -/
def lastBlock : Pc → Option Nat
  | lastRemove b | lastFree b => some b
  | _ => none

/-- Code that is not a call, and does not return what another party chooses. -/
def plain : Pc → Bool
  | createInit _ _ | createInsert _ _ | childCheck _ | joinSearch _ | joinTest _ _ | joinLoop _ _
  | reapDestroy _ _ _ | reapRemove _ _ _ | reapFree _ _ _ | deleteNode _ _ | exitCount _
  | exitStore _ _ | exitVanish | lastNext | lastRemove _ | lastFree _ | lastEnd => true
  | _ => false

variable {p q : Pc}

attribute [local simp] Pc.op Pc.wake phase making madeBlock target past reaping own lasting
  lastBlock plain

theorem plain_spec (h : p.plain = true) :
    p.op = .code ∧ p.wake = p ∧ p ≠ absent ∧ p ≠ user ∧ p ≠ createProbe ∧
      ∀ base, p ≠ createFork base := by
  cases p <;> simp_all [plain, Pc.op, Pc.wake]

theorem making_of_madeBlock {b : Nat} {c : Int} (h : p.madeBlock = some (b, c)) :
    p.making = some c ∧ p.phase = .running := by
  cases p <;> simp_all [madeBlock, making, phase]

theorem running_of_making {c : Int} (h : p.making = some c) : p.phase = .running := by
  cases p <;> simp_all [making, phase]

theorem running_of_target {x : Int × Nat} (h : p.target = some x) : p.phase = .running := by
  rcases p with _ | _ | _ | _ | _ | _ | _ | _ | _ | _ | _ | _ | _ | _ | _ | _ | _ | _ | _ | ⟨_, _ | _⟩
  all_goals simp_all [target, phase]

theorem lasting_of_lastBlock {b : Nat} (h : p.lastBlock = some b) : p.lasting = true := by
  cases p <;> simp_all [lastBlock, lasting]

/-! ## How the places follow each other -/

theorem Flow.over (h : Flow p q) (hp : p.phase = .over) : q.phase = .over := by
  cases h.edge <;> simp_all [Pc.phase]

theorem Flow.absent_back (h : Flow p q) (hq : q.phase = .absent) : p.phase = .absent := by
  cases h.edge <;> simp_all [Pc.phase]

theorem Flow.child_back (h : Flow p q) (hq : q.phase = .child) : p.phase = .child ∨ p = .absent := by
  cases h.edge <;> simp_all [Pc.phase]

theorem Flow.running_back (h : Flow p q) (hq : q.phase = .running) :
    p.phase = .running ∨ ∃ w, p = .childCheck w ∧ q = .childUnlock := by
  cases h.edge <;> simp_all [Pc.phase]

theorem Flow.over_back (h : Flow p q) (hq : q.phase = .over) :
    p.phase = .over ∨ p.phase = .running := by
  cases h.edge <;> simp_all [Pc.phase]

theorem Flow.making_back {c : Int} (h : Flow p q) (hq : q.making = some c) :
    p.making = some c ∨ ∃ base, p = .createFork base ∧ q = .createInit base c := by
  cases h.edge <;> simp_all [Pc.making]

theorem Flow.making_keep {c : Int} (h : Flow p q) (hp : p.making = some c) :
    q.making = some c ∨ ∃ b, p = .createInsert b c ∧ q = .createSignal c := by
  cases h.edge <;> simp_all [Pc.making]

theorem Flow.madeBlock_back {b : Nat} {c : Int} (h : Flow p q) (hq : q.madeBlock = some (b, c)) :
    p.madeBlock = some (b, c) ∨ ∃ base, p = .createInit base c ∧ q = .createLockList b c := by
  cases h.edge <;> simp_all [Pc.madeBlock]

theorem Flow.target_back {tid : Int} {b : Nat} (h : Flow p q) (hq : q.target = some (tid, b)) :
    p.target = some (tid, b) ∨ p = .joinSearch tid ∧ q = .joinUnlock tid (some b) := by
  cases h.edge <;> simp_all [Pc.target]

theorem Flow.past_back {tid : Int} (h : Flow p q) (hq : q.past = some tid) :
    p.past = some tid ∨ ∃ b v, p = .joinLoop tid b ∧ q = .joinRelease tid b v := by
  cases h.edge <;> simp_all [Pc.past]

theorem Flow.reaping_keep {tid : Int} (h : Flow p q) (hp : p.reaping = some tid) :
    q.reaping = some tid ∨ ∃ v, p = .deleteNode tid v ∧ q = .deleteUnlock tid v := by
  cases h.edge <;> simp_all [Pc.reaping]

theorem Flow.own_back {b : Nat} (h : Flow p q) (hq : q.own = some b) :
    p.own = some b ∨ ∃ v, p = .exitCount v ∧ q = .exitUnlock v (some b) := by
  cases h.edge <;> simp_all [Pc.own]

theorem Flow.lasting_back (h : Flow p q) (hq : q.lasting = true) :
    p.lasting = true ∨ ∃ v, p = .exitCount v ∧ q = .lastNext := by
  cases h.edge <;> simp_all [Pc.lasting]

theorem Flow.lastBlock_back {b : Nat} (h : Flow p q) (hq : q.lastBlock = some b) :
    p.lastBlock = some b ∨ p = .lastNext ∧ q = .lastRemove b := by
  cases h.edge <;> simp_all [Pc.lastBlock]

end Pc

namespace Lib

variable {s s' : Lib} {e : Event}

/-! ## What a step changes -/

/-- **Who moves**: the thread of the event, a thread that is woken, or a thread that is made. -/
theorem Effect.actor {x : Int} (h : s.Effect e s') (moved : s'.pc x ≠ s.pc x) :
    e.actor = some x ∨ s'.pc x = (s.pc x).wake ∨ s.pc x = .absent := by
  have mover : ∀ t p, s'.pc = Function.update s.pc t p → x = t := by
    intro t p hpc
    by_contra hx
    exact moved (by rw [hpc, Function.update_of_ne hx])
  cases h with
  | joinSelf | reuse => exact absurd rfl moved
  | @sync t u moves =>
      by_cases hx : x = t
      · exact Or.inl (by rw [hx]; rfl)
      · exact Or.inr (Or.inl ((moves.pc_of_ne hx).resolve_left moved))
  | @fork t c base here positive new =>
      by_cases hx : x = t
      · exact Or.inl (by rw [hx]; rfl)
      · by_cases hc : x = c
        · exact Or.inr (Or.inr (by rw [hc, new]))
        · refine absurd ?_ moved
          show Function.update (Function.update s.pc c .childLock) t _ x = _
          rw [Function.update_of_ne hx, Function.update_of_ne hc]
  | create | join | exitSingle | exit | probe | forkFails | init | insert | childWaits | childStarts
  | lookup | reject | accept | found | joinWaits | destroy | remove | free | delete | last | zombie
  | exits | vanish | lastDone | lastPop | lastRemove | lastFree | lastFails | lastEnds =>
      exact Or.inl (by rw [mover _ _ rfl]; rfl)

/-- **Code.** A thread at code that is not a call moves when it goes on. -/
theorem event_of_moved {x : Int} (h : s.Step e s') (moved : s'.pc x ≠ s.pc x)
    (plain : (s.pc x).plain = true) : e = .go x := by
  obtain ⟨hop, hwake, habsent, huser, hprobe, hfork⟩ := Pc.plain_spec plain
  have hactor := (effect_of_step h).actor moved
  rw [hwake] at hactor
  have hactor := hactor.resolve_right (not_or.mpr ⟨moved, habsent⟩)
  have heffect := effect_of_step h
  cases e with
  | go t =>
      obtain rfl : t = x := Option.some.inj hactor
      rfl
  | create t =>
      obtain rfl : t = x := Option.some.inj hactor
      cases heffect with
      | create here => exact absurd here huser
  | join t tid =>
      obtain rfl : t = x := Option.some.inj hactor
      cases heffect with
      | joinSelf here => exact absurd here huser
      | join here => exact absurd here huser
  | exit t v =>
      obtain rfl : t = x := Option.some.inj hactor
      cases heffect with
      | exitSingle here => exact absurd here huser
      | exit here => exact absurd here huser
  | probe t base =>
      obtain rfl : t = x := Option.some.inj hactor
      cases heffect with
      | probe here => exact absurd here hprobe
  | fork t c =>
      obtain rfl : t = x := Option.some.inj hactor
      cases heffect with
      | fork here => exact absurd here (hfork _)
      | forkFails here => exact absurd here (hfork _)
  | reuse b content => cases hactor

/-- It moves by this code. -/
theorem code_of_moved {x : Int} (h : s.Step e s') (moved : s'.pc x ≠ s.pc x)
    (plain : (s.pc x).plain = true) : s.code x = some s' := by
  obtain rfl := event_of_moved h moved plain
  simpa only [Step, next, (Pc.plain_spec plain).1] using h

/-- The same, for a thread that is seen at two places. -/
theorem code_of_edge {x : Int} {p q : Pc} (h : s.Step e s') (here : s.pc x = p)
    (there : s'.pc x = q) (ne : p ≠ q) (plain : p.plain = true) :
    e = .go x ∧ s.code x = some s' := by
  have moved : s'.pc x ≠ s.pc x := by
    rw [here, there]
    exact ne.symm
  rw [← here] at plain
  exact ⟨event_of_moved h moved plain, code_of_moved h moved plain⟩

/-- **Calls** of the library. -/
theorem called {t : Int} (h : s.Step e s') (here : s.pc t = .user) (moved : s'.pc t ≠ .user) :
    (e = .create t ∧ s'.pc t = .createLock) ∨
      (∃ tid, e = .join t tid ∧ s'.pc t = .joinLock tid ∧
        s'.joiner = Function.update s.joiner tid (some t)) ∨
      ∃ v, e = .exit t v ∧ (s'.pc t = .exitLock v ∨ s'.pc t = .exitVanish) ∧
        s'.exited = Function.update s.exited t (some v) := by
  have heffect := effect_of_step h
  have hactor := heffect.actor (by rwa [here])
  rw [here] at hactor
  have hactor : e.actor = some t := by
    rcases hactor with hactor | hwake | habsent
    · exact hactor
    · exact absurd hwake moved
    · cases habsent
  cases e with
  | create t' =>
      obtain rfl : t' = t := Option.some.inj hactor
      cases heffect with
      | create => exact Or.inl ⟨rfl, Function.update_self ..⟩
  | join t' tid =>
      obtain rfl : t' = t := Option.some.inj hactor
      cases heffect with
      | joinSelf => exact absurd here moved
      | join => exact Or.inr (Or.inl ⟨tid, rfl, Function.update_self .., rfl⟩)
  | exit t' v =>
      obtain rfl : t' = t := Option.some.inj hactor
      cases heffect with
      | exitSingle => exact Or.inr (Or.inr ⟨v, rfl, Or.inr (Function.update_self ..), rfl⟩)
      | exit => exact Or.inr (Or.inr ⟨v, rfl, Or.inl (Function.update_self ..), rfl⟩)
  | reuse => cases hactor
  | probe t' | fork t' | go t' =>
      obtain rfl : t' = t := Option.some.inj hactor
      simp [Step, next, here, Pc.op, code] at h

/-- No `thread_t` is made twice. -/
theorem Effect.made_le (h : s.Effect e s') : s.made ≤ s'.made := by
  cases h with
  | init => exact Nat.le_succ _
  | _ => exact Nat.le_refl _

/-- A new `thread_t`. -/
theorem Effect.made_new (h : s.Effect e s') {b : Nat} (hold : s.made ≤ b) (hnew : b < s'.made) :
    (s'.block b).status = .running ∧ s'.reaped b = s.reaped b := by
  cases h with
  | @init t c base here =>
      obtain rfl : b = s.made := by
        have hlt : b < s.made + 1 := hnew
        omega
      refine ⟨?_, rfl⟩
      rw [move_block, newThread_block, Function.update_self]
  | _ => exact absurd hnew (Nat.not_lt.mpr hold)

/-- A `thread_t` stays with its thread. -/
theorem Effect.owner_eq (h : s.Effect e s') {b : Nat} (hb : b < s.made) :
    s'.owner b = s.owner b := by
  cases h with
  | init => exact Function.update_of_ne (Nat.ne_of_lt hb) _ _
  | _ => rfl

/-- **The status** of a `thread_t` changes when its thread stores it, and when the `thread_t` was
freed. -/
theorem Effect.status (h : s.Effect e s') {b : Nat} (hb : b < s.made) (hfreed : s.reaped b ≠ .freed) :
    ((s'.block b).status = (s.block b).status ∧ (s'.block b).statusp = (s.block b).statusp) ∨
      ∃ t v, s.pc t = .exitStore v b ∧ s'.pc t = .exitSignal b ∧
        (s'.block b).status = .exit ∧ (s'.block b).statusp = v := by
  cases h with
  | init =>
      refine Or.inl ?_
      rw [move_block, newThread_block, Function.update_of_ne (Nat.ne_of_lt hb)]
      exact ⟨rfl, rfl⟩
  | @accept t tid b' here free =>
      refine Or.inl ?_
      rw [move_block, store_block]
      by_cases hbb : b = b'
      · rw [hbb, Function.update_self]
        exact ⟨rfl, rfl⟩
      · rw [Function.update_of_ne hbb]
        exact ⟨rfl, rfl⟩
  | @exits t v b' here =>
      by_cases hbb : b = b'
      · subst hbb
        refine Or.inr ⟨t, v, here, Function.update_self .., ?_⟩
        rw [move_block, store_block, Function.update_self]
        exact ⟨rfl, rfl⟩
      · refine Or.inl ?_
        rw [move_block, store_block, Function.update_of_ne hbb]
        exact ⟨rfl, rfl⟩
  | reuse freed =>
      refine Or.inl ?_
      rw [store_block, Function.update_of_ne]
      · exact ⟨rfl, rfl⟩
      · rintro rfl
        exact hfreed freed
  | _ => exact Or.inl ⟨rfl, rfl⟩

/-- **The list** changes at its ends, and where `thr_join` deletes a node. -/
theorem Effect.nodes (h : s.Effect e s') :
    s'.nodes = s.nodes ∨
      (∃ t b c, s.pc t = .createInsert b c ∧ s'.pc t = .createSignal c ∧
        s'.nodes = s.nodes ++ [(c, b)]) ∨
      (∃ t tid v, s.pc t = .deleteNode tid v ∧ s'.nodes = s.nodes.eraseP fun n => n.1 = tid) ∨
      (∃ t n, s.pc t = .lastNext ∧ s.nodes = n :: s'.nodes) := by
  cases h with
  | insert here => exact Or.inr (Or.inl ⟨_, _, _, here, Function.update_self .., rfl⟩)
  | delete here => exact Or.inr (Or.inr (Or.inl ⟨_, _, _, here, rfl⟩))
  | lastPop here first => exact Or.inr (Or.inr (Or.inr ⟨_, _, here, first⟩))
  | _ => exact Or.inl rfl

/-- **`thr_reap`** is a matter of the thread that has called it. -/
theorem Effect.reaped (h : s.Effect e s') (b : Nat) :
    s'.reaped b = s.reaped b ∨
      (∃ t tid, (s.pc t).target = some (tid, b) ∧ (s.pc t).past = some tid ∧
        (s'.pc t).reaping = some tid) ∨
      (∃ t, s.pc t = .lastNext ∧ ∃ n ∈ s.nodes, n.2 = b) ∨
      (∃ t, (s.pc t).lastBlock = some b) := by
  cases h with
  | @destroy t tid b' v here =>
      by_cases hbb : b = b'
      · subst hbb
        by_cases hok : s.destroyable b = true
        · refine Or.inr (Or.inl ⟨t, tid, by rw [here]; rfl, by rw [here]; rfl, ?_⟩)
          rw [destroy_pc, if_pos hok, Function.update_self]
          rfl
        · exact Or.inl (by rw [destroy_reaped, if_neg hok])
      · exact Or.inl (destroy_reaped_of_ne hbb)
  | @remove t tid b' v here =>
      by_cases hbb : b = b'
      · subst hbb
        refine Or.inr (Or.inl ⟨t, tid, by rw [here]; rfl, by rw [here]; rfl, ?_⟩)
        rw [move_pc, Function.update_self]
        rfl
      · exact Or.inl (Function.update_of_ne hbb _ _)
  | @free t tid b' v here =>
      by_cases hbb : b = b'
      · subst hbb
        refine Or.inr (Or.inl ⟨t, tid, by rw [here]; rfl, by rw [here]; rfl, ?_⟩)
        rw [move_pc, Function.update_self]
        rfl
      · exact Or.inl (Function.update_of_ne hbb _ _)
  | @lastPop t n rest here first =>
      by_cases hbb : b = n.2
      · refine Or.inr (Or.inr (Or.inl ⟨t, here, n, ?_, hbb.symm⟩))
        rw [first]
        exact List.mem_cons_self
      · exact Or.inl (destroy_reaped_of_ne hbb)
  | @lastRemove t b' here =>
      by_cases hbb : b = b'
      · exact Or.inr (Or.inr (Or.inr ⟨t, by rw [here, hbb]; rfl⟩))
      · exact Or.inl (Function.update_of_ne hbb _ _)
  | @lastFree t b' here =>
      by_cases hbb : b = b'
      · exact Or.inr (Or.inr (Or.inr ⟨t, by rw [here, hbb]; rfl⟩))
      · exact Or.inl (Function.update_of_ne hbb _ _)
  | _ => exact Or.inl rfl

/-- The branch of the last thread is entered with one running thread. -/
theorem Effect.last_eq (h : s.Effect e s') :
    s'.last = s.last ∨ ∃ t v, s.pc t = .exitCount v ∧ s'.pc t = .lastNext ∧ s.liveCount = 1 ∧
      s'.last = t :: s.last := by
  cases h with
  | last here one => exact Or.inr ⟨_, _, here, Function.update_self .., one, rfl⟩
  | _ => exact Or.inl rfl

/-- **A thread is made** by `thread_fork`. -/
theorem Effect.born {x : Int} (h : s.Effect e s') (absent : s.pc x = .absent)
    (made : s'.pc x ≠ .absent) : 0 < x ∧ ∃ t base, s.pc t = .createFork base ∧
      s'.pc t = .createInit base x ∧ s'.pc x = .childLock := by
  have elsewhere : ∀ t p, s.pc t ≠ .absent → s'.pc = Function.update s.pc t p → False := by
    intro t p hne hpc
    have hx : x ≠ t := by
      rintro rfl
      exact hne absent
    exact made (by rw [hpc, Function.update_of_ne hx, absent])
  cases h with
  | joinSelf | reuse => exact absurd absent made
  | sync moves =>
      refine absurd (moves.rel (R := fun p q => p = .absent → q = .absent) ⟨?_, ?_, ?_⟩ x absent) made
      · exact fun _ hp => hp
      · rintro p q hq rfl
        cases hq
      · rintro p rfl
        rfl
  | @fork t c base here positive new =>
      have hne : c ≠ t := by
        rintro rfl
        rw [here] at new
        cases new
      have hx : x ≠ t := by
        rintro rfl
        rw [here] at absent
        cases absent
      have hc : x = c := by
        by_contra hxc
        have hstay : Function.update (Function.update s.pc c .childLock) t (.createInit base c) x =
            s.pc x := by
          rw [Function.update_of_ne hx, Function.update_of_ne hxc]
        exact made (hstay.trans absent)
      subst hc
      refine ⟨positive, t, base, here, Function.update_self .., ?_⟩
      show Function.update (Function.update s.pc x .childLock) t _ x = _
      rw [Function.update_of_ne hx, Function.update_self]
  | create here | join here | exitSingle here | exit here | probe here | forkFails here | init here
  | insert here | childWaits here | childStarts here | lookup here | reject here | accept here
  | found here | joinWaits here | destroy here | remove here | free here | delete here | last here
  | zombie here | exits here | vanish here | lastDone here | lastPop here | lastRemove here
  | lastFree here | lastFails here | lastEnds here =>
      exact (elsewhere _ _ (by rw [here]; exact Pc.noConfusion) rfl).elim

/-- What a thread makes in the step in which it calls `thread_fork`. -/
theorem forks {t c : Int} {base : Nat} (h : s.Step e s') (here : s.pc t = .createFork base)
    (there : s'.pc t = .createInit base c) :
    s'.nodes = s.nodes ∧ e = .fork t c ∧ (0 ≤ c → s.pc c = .absent ∧ s'.pc c = .childLock) := by
  have moved : s'.pc t ≠ s.pc t := by
    rw [here, there]
    exact Pc.noConfusion
  have hactor := (effect_of_step h).actor moved
  rw [here, there] at hactor
  have hactor : e.actor = some t := by
    rcases hactor with hactor | hwake | habsent
    · exact hactor
    · cases hwake
    · cases habsent
  have heffect := effect_of_step h
  cases e with
  | fork t' c' =>
      obtain rfl : t' = t := Option.some.inj hactor
      have hplace : ∀ {pc : Int → Pc} {base'}, Function.update pc t' (.createInit base' c') t' =
          .createInit base c → c' = c := by
        intro pc base' hp
        rw [Function.update_self] at hp
        exact (Pc.createInit.inj hp).2
      cases heffect with
      | fork here' positive new =>
          obtain rfl := hplace there
          have hne : c' ≠ t' := by
            rintro rfl
            rw [here] at new
            cases new
          refine ⟨rfl, rfl, fun _ => ⟨new, ?_⟩⟩
          show Function.update (Function.update s.pc c' .childLock) t' _ c' = _
          rw [Function.update_of_ne hne, Function.update_self]
      | forkFails here' negative =>
          obtain rfl := hplace there
          exact ⟨rfl, rfl, fun hc => absurd negative (Int.not_lt.mpr hc)⟩
  | reuse => cases hactor
  | create t' | join t' | exit t' | probe t' | go t' =>
      obtain rfl : t' = t := Option.some.inj hactor
      simp [Step, next, here, Pc.op, code] at h

/-- `thr_join` looks its target up. -/
theorem searched {t tid : Int} {found : Option Nat} (h : s.Step e s')
    (here : s.pc t = .joinSearch tid) (there : s'.pc t = .joinUnlock tid found) :
    e = .go t ∧ s.search tid = found ∧ s' = s.move t (.joinUnlock tid (s.search tid)) := by
  obtain ⟨hevent, hcode⟩ := code_of_edge h here there Pc.noConfusion rfl
  simp only [code, here] at hcode
  obtain rfl := Option.some.inj hcode
  rw [move_pc, Function.update_self] at there
  exact ⟨hevent, (Pc.joinUnlock.inj there).2, rfl⟩

/-- A thread that exits has counted others, and looks itself up. -/
theorem counted {t : Int} {v w : Status} {found : Option Nat} (h : s.Step e s')
    (here : s.pc t = .exitCount v) (there : s'.pc t = .exitUnlock w found) :
    e = .go t ∧ s.liveCount ≠ 1 ∧ s.search t = found ∧
      s' = s.move t (.exitUnlock v (s.search t)) := by
  obtain ⟨hevent, hcode⟩ := code_of_edge h here there Pc.noConfusion rfl
  simp only [code, here] at hcode
  split_ifs at hcode with hone
  · obtain rfl := Option.some.inj hcode
    rw [move_pc, Function.update_self] at there
    cases there
  · obtain rfl := Option.some.inj hcode
    rw [move_pc, Function.update_self] at there
    exact ⟨hevent, hone, (Pc.exitUnlock.inj there).2, rfl⟩

/-- `thr_join` goes on when it has read `THREAD_EXIT`. -/
theorem found_exit {t tid : Int} {b : Nat} {v : Status} (h : s.Step e s')
    (here : s.pc t = .joinLoop tid b) (there : s'.pc t = .joinRelease tid b v) :
    (s.block b).status = .exit ∧ v = (s.block b).statusp := by
  obtain ⟨-, hcode⟩ := code_of_edge h here there Pc.noConfusion rfl
  simp only [code, here] at hcode
  split_ifs at hcode with hexit
  · obtain rfl := Option.some.inj hcode
    rw [move_pc, Function.update_self] at there
    exact ⟨hexit, (Pc.joinRelease.inj there).2.2.symm⟩
  · obtain rfl := Option.some.inj hcode
    rw [move_pc, Function.update_self] at there
    cases there

end Lib

end Pebbles.ThreadLib
