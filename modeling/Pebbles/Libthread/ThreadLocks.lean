import Pebbles.Libthread.ThreadPlaces

/-! # The locks of the thread library

`list_mutex` is held by the thread that is between its lock and its unlock, and the threads in the
queue of a condition variable wait there. -/

namespace Pebbles.ThreadLib

open Monitors Transition

/-! ## What a place says -/

namespace Pc

/-- `list_mutex` is held. -/
def holdsList : Pc → Bool
  | createInsert _ _ | createSignal _ | createUnlockList _ | childCheck _ | childWait | childUnlock
  | joinSearch _ | joinUnlock _ _ | deleteNode _ _ | deleteUnlock _ _ | exitCount _ | exitUnlock _ _
  | lastNext | lastRemove _ | lastFree _ | lastUnlock => true
  | _ => false

/-- The condition variable where the thread waits. -/
def sleeping : Pc → Option Cond
  | childAsleep => some .list
  | joinAsleep _ b => some (.thread b)
  | _ => none

/-- The places of `prog` where `list_mutex` is held. -/
theorem holding_list : prog.Holding .list holdsList where
  lock p q h := by
    change p.op = _ at h
    unfold op at h
    split at h <;> grind [holdsList]
  unlock p q h := by
    change p.op = _ at h
    unfold op at h
    split at h <;> grind [holdsList]
  wait p c a q h := by
    change p.op = _ at h
    unfold op at h
    split at h <;> grind [holdsList]
  other p q h hlock hunlock hwait := by
    change Program.Op.LeadsTo p.op q at h
    change ∀ r, p.op ≠ _ at hlock
    change ∀ r, p.op ≠ _ at hunlock
    change ∀ c a r, p.op ≠ _ at hwait
    unfold op at h hlock hunlock hwait
    split at h <;> grind [Program.Op.LeadsTo, holdsList]
  wake p := by
    change p.wake.holdsList = _
    cases p <;> rfl

/-- The places of `prog` where threads wait. -/
theorem sleeping_places : prog.Sleeping sleeping where
  wait p c l a q h := by
    change p.op = _ at h
    unfold op at h
    split at h <;> grind [sleeping]
  blocked p c h := by
    change p.op = _
    cases p <;> simp_all [sleeping, op]

end Pc

namespace Lib

variable {s s' : Lib} {e : Event}

/-! ## Mutual exclusion -/

/-- **`list_mutex`** is not destroyed before the end, and a thread where it is held is
its holder. -/
structure Locked (s : Lib) : Prop where
  /-- It is there. -/
  alive : s.mutex .list ≠ .destroyed
  /-- There is one holder. -/
  exclusive : Program.Exclusive .list Pc.holdsList s.toSync

theorem locked_init (root : Nat) (memory : ThreadT) : (init root memory).Locked where
  alive h := by cases h
  exclusive x hx := by
    have hpc : (init root memory).pc x = if x = root then .user else .absent := rfl
    rw [hpc] at hx
    split_ifs at hx <;> cases hx

/-- **Steps keep mutual exclusion.** -/
theorem Locked.step (hl : s.Locked) (h : s.Effect e s') : s'.Locked := by
  -- code of one thread does not take the mutex
  have mover : ∀ {t : Int} {p : Pc} {u : Lib}, u.mutex .list = s.mutex .list →
      u.pc = Function.update s.pc t p → (p.holdsList = true → (s.pc t).holdsList = true) →
        u.Locked := by
    intro t p u hmutex hpc hp
    refine ⟨by rw [hmutex]; exact hl.alive, fun x hx => ?_⟩
    show u.mutex .list = _
    rw [hmutex]
    apply hl.exclusive x
    change (u.pc x).holdsList = true at hx
    rw [hpc] at hx
    by_cases hxt : x = t
    · rw [hxt, Function.update_self] at hx
      rw [hxt]
      exact hp hx
    · rwa [Function.update_of_ne hxt] at hx
  have hthread : ∀ (b : Nat) (m : Mutex Int),
      Function.update s.mutex (.thread b) m .list = s.mutex .list := by
    intro b m
    rw [Function.update_of_ne]
    exact Lock.noConfusion
  cases h with
  | joinSelf | reuse => exact ⟨hl.alive, hl.exclusive⟩
  | sync moves =>
      have hpasses := moves.passes Pc.holding_list hl.alive
      refine ⟨?_, hpasses.exclusive hl.exclusive⟩
      cases hpasses with
      | same mutex places =>
          show Sync.mutex _ Lock.list ≠ _
          rw [mutex]
          exact hl.alive
      | take free mutex here others =>
          show Sync.mutex _ Lock.list ≠ _
          rw [mutex]
          exact fun h => by cases h
      | release mutex here after others =>
          show Sync.mutex _ Lock.list ≠ _
          rw [mutex]
          exact fun h => by cases h
  | @fork t c base here positive new =>
      refine ⟨hl.alive, fun x hx => hl.exclusive x ?_⟩
      change (Function.update (Function.update s.pc c .childLock) t (.createInit base c) x).holdsList =
        true at hx
      by_cases hxt : x = t
      · rw [hxt, Function.update_self] at hx
        cases hx
      · rw [Function.update_of_ne hxt] at hx
        by_cases hxc : x = c
        · rw [hxc, Function.update_self] at hx
          cases hx
        · rwa [Function.update_of_ne hxc] at hx
  | init here => exact mover (hthread s.made .free) rfl (by simp [Pc.holdsList])
  | destroy here =>
      refine mover ?_ rfl ?_
      · show (if _ then _ else _ : Lock → Mutex Int) .list = _
        split_ifs
        · rfl
        · exact hthread _ _
      · split_ifs <;> simp [Pc.holdsList]
  | lastPop here first =>
      refine mover ?_ rfl (by simp [here, Pc.holdsList])
      show (if _ then _ else _ : Lock → Mutex Int) .list = _
      split_ifs
      · rfl
      · exact hthread _ _
  | create here | join here | exitSingle here | exit here | probe here | forkFails here | insert here
  | childWaits here | childStarts here | lookup here | reject here | accept here | found here
  | joinWaits here | remove here | free here | delete here | last here | zombie here | exits here
  | vanish here | lastDone here | lastRemove here | lastFree here | lastFails here | lastEnds here =>
      exact mover rfl rfl (by simp [here, Pc.holdsList])

/-! ## The queues -/

theorem asleep_init (root : Nat) (memory : ThreadT) :
    Program.Asleep Pc.sleeping (init root memory).toSync :=
  ⟨fun _ => List.nodup_nil, fun _ _ hx => by cases hx⟩

/-- **Steps keep the queues right.** -/
theorem asleep_step (has : Program.Asleep Pc.sleeping s.toSync) (h : s.Effect e s') :
    Program.Asleep Pc.sleeping s'.toSync := by
  -- code of one thread, which does not sleep
  have mover : ∀ {t : Int} {p : Pc} {u : Lib}, u.pc = Function.update s.pc t p →
      (∀ c, u.queue c = s.queue c ∨ u.queue c = []) → (s.pc t).sleeping = none →
        Program.Asleep Pc.sleeping u.toSync := by
    intro t p u hpc hqueue ht
    constructor
    · intro c
      rcases hqueue c with hsame | hempty
      · rw [hsame]
        exact has.nodup c
      · rw [hempty]
        exact List.nodup_nil
    · intro c x hx
      have hold : x ∈ s.queue c := by
        rcases hqueue c with hsame | hempty
        · rwa [hsame] at hx
        · rw [hempty] at hx
          cases hx
      have hsleep := has.waits c x hold
      have hxt : x ≠ t := by
        rintro rfl
        rw [ht] at hsleep
        cases hsleep
      show (u.pc x).sleeping = some c
      rw [hpc, Function.update_of_ne hxt]
      exact hsleep
  cases h with
  | joinSelf | reuse => exact ⟨has.nodup, has.waits⟩
  | sync moves => exact moves.asleep Pc.sleeping_places has
  | @fork t c base here positive new =>
      refine ⟨has.nodup, fun d x hx => ?_⟩
      have hsleep := has.waits d x hx
      have hxt : x ≠ t := by
        rintro rfl
        rw [here] at hsleep
        cases hsleep
      have hxc : x ≠ c := by
        rintro rfl
        rw [new] at hsleep
        cases hsleep
      show (Function.update (Function.update s.pc c .childLock) t _ x).sleeping = _
      rw [Function.update_of_ne hxt, Function.update_of_ne hxc]
      exact hsleep
  | init here =>
      refine mover rfl (fun c => ?_) (by rw [here]; rfl)
      by_cases hc : c = .thread s.made
      · exact Or.inr (by rw [hc]; exact Function.update_self ..)
      · exact Or.inl (Function.update_of_ne hc _ _)
  | create here | join here | exitSingle here | exit here | probe here | forkFails here | insert here
  | childWaits here | childStarts here | lookup here | reject here | accept here | found here
  | joinWaits here | destroy here | remove here | free here | delete here | last here | zombie here
  | exits here | vanish here | lastDone here | lastPop here | lastRemove here | lastFree here
  | lastFails here | lastEnds here =>
      exact mover rfl (fun _ => Or.inl rfl) (by rw [here]; rfl)

/-- A signal takes the first thread out of the queue. -/
theorem signal_step {t : Int} {x : Cond} {p : Pc} (h : s.Step e s')
    (here : (s.pc t).op = .signal x p) (moved : s'.pc t ≠ s.pc t) :
    e = .go t ∧ s'.queue x = (s.queue x).tail := by
  have heffect := effect_of_step h
  have hwake : (s.pc t).wake = s.pc t := by
    cases hpc : s.pc t <;> first | rfl | (rw [hpc] at here; cases here)
  have hplace : ∀ q : Pc, q.op = .code → s.pc t ≠ q := by
    rintro q hq hsame
    rw [hsame, hq] at here
    cases here
  have hactor : e.actor = some t := by
    rcases heffect.actor moved with hactor | hwoken | habsent
    · exact hactor
    · exact absurd (hwoken.trans hwake) moved
    · exact absurd habsent (hplace .absent rfl)
  cases e with
  | go t' =>
      obtain rfl : t' = t := Option.some.inj hactor
      refine ⟨rfl, ?_⟩
      cases hqueue : s.queue x with
      | nil =>
          simp only [Step, next, here, Program.step, prog, hqueue, Option.map_some,
            Option.some.injEq] at h
          subst h
          exact hqueue
      | cons y q =>
          simp only [Step, next, here, Program.step, prog, hqueue, Option.map_some,
            Option.some.injEq] at h
          subst h
          exact Function.update_self ..
  | reuse => cases hactor
  | create t' | join t' | exit t' =>
      obtain rfl : t' = t := Option.some.inj hactor
      simp [Step, next, hplace .user rfl] at h
  | probe t' =>
      obtain rfl : t' = t := Option.some.inj hactor
      simp [Step, next, hplace .createProbe rfl] at h
  | fork t' =>
      obtain rfl : t' = t := Option.some.inj hactor
      simp only [Step, next] at h
      split at h
      · next hfork => exact absurd hfork (hplace _ rfl)
      · cases h

/-- **Every run** keeps the locks and the queues right. -/
theorem locked_of_run {root : Nat} {memory : ThreadT} {es : List Event}
    (run : Run Step (init root memory) es s) :
    s.Locked ∧ Program.Asleep Pc.sleeping s.toSync := by
  refine run.invariant (I := fun s => s.Locked ∧ Program.Asleep Pc.sleeping s.toSync)
    ⟨locked_init root memory, asleep_init root memory⟩ ?_
  rintro s e s' ⟨hl, has⟩ step
  exact ⟨hl.step (effect_of_step step), asleep_step has (effect_of_step step)⟩

end Lib

end Pebbles.ThreadLib
