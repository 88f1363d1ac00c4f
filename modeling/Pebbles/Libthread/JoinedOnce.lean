import Pebbles.Libthread.ThreadReaping

/-! # A thread with one joiner

When all calls of `thr_join` on a thread are of one thread, the call is not turned away, `t_mutex`
and `t_cond` are there until it is done with them, it sleeps as long as its target has not signalled
`t_cond`, and it may destroy both afterwards. -/

namespace Pebbles.ThreadLib

open Monitors Transition

/-! ## How the places follow each other -/

namespace Pc

variable {p q : Pc} {tid : Int} {b : Nat}

theorem Flow.joinReject_back (h : Flow p q) (hq : q = .joinReject tid b) :
    p = .joinReject tid b ∨ p = .joinTest tid b := by
  cases h.edge <;> simp_all

theorem Flow.joinWait_back (h : Flow p q) (hq : q = .joinWait tid b) :
    p = .joinWait tid b ∨ p = .joinLoop tid b := by
  cases h.edge <;> simp_all

theorem Flow.joinAsleep_back (h : Flow p q) (hq : q = .joinAsleep tid b) :
    p = .joinAsleep tid b ∨ p = .joinWait tid b := by
  cases h.edge <;> simp_all

/-- The call has read the status and is not yet with `thr_reap`. -/
def found (tid : Int) (b : Nat) : Pc → Prop
  | joinRelease tid' b' _ | reapDestroy tid' b' _ => tid' = tid ∧ b' = b
  | _ => False

theorem Flow.found_back (h : Flow p q) (hq : q.found tid b) :
    p.found tid b ∨ ∃ v, p = .joinLoop tid b ∧ q = .joinRelease tid b v := by
  cases h.edge <;> simp_all [Pc.found]

theorem Flow.reapRemove_back {v : Status} (h : Flow p q) (hq : q = .reapRemove tid b v) :
    p = .reapRemove tid b v ∨ p = .reapDestroy tid b v := by
  cases h.edge <;> simp_all

theorem Flow.awaiting_keep (h : Flow p q) (hp : p.awaiting = some b) : q.awaiting = some b ∨
    ∃ tid v, p = .reapDestroy tid b v ∧ (q = .reapRemove tid b v ∨ q = .vanished) := by
  cases h.edge <;> simp_all [Pc.awaiting]

theorem joins_of_target (h : p.target = some (tid, b)) : p.joins = some tid := by
  unfold target at h
  split at h <;> simp_all [joins]

theorem not_own_of_released (h : p.released = true) : p.own = none := by
  cases p <;> simp_all [released, own]

end Pc

namespace Lib

variable {s s' : Lib} {e : Event} {target : Int}

/-- `joining_tid` is written by the call that is accepted. -/
theorem Effect.joiningTid (h : s.Effect e s') {b : Nat} (hb : b < s.made)
    (hfreed : s.reaped b ≠ .freed) : (s'.block b).joiningTid = (s.block b).joiningTid ∨
      ∃ t tid, s'.pc t = .joinLoop tid b := by
  cases h with
  | @accept t tid b' here free =>
      by_cases hbb : b = b'
      · subst hbb
        exact Or.inr ⟨t, tid, Function.update_self ..⟩
      · refine Or.inl ?_
        rw [move_block, store_block, Function.update_of_ne hbb]
  | init =>
      refine Or.inl ?_
      rw [move_block, newThread_block, Function.update_of_ne (Nat.ne_of_lt hb)]
  | @exits t v b' here =>
      refine Or.inl ?_
      rw [move_block, store_block]
      by_cases hbb : b = b'
      · rw [hbb, Function.update_self]
      · rw [Function.update_of_ne hbb]
  | @reuse b' content freed =>
      refine Or.inl ?_
      rw [store_block, Function.update_of_ne]
      rintro rfl
      exact hfreed freed
  | _ => exact Or.inl rfl

/-- A new `thread_t` is not joined. -/
theorem Effect.joiningTid_new (h : s.Effect e s') {b : Nat} (hold : s.made ≤ b)
    (hnew : b < s'.made) : (s'.block b).joiningTid = 0 := by
  cases h with
  | init =>
      obtain rfl : b = s.made := by
        have hlt : b < s.made + 1 := hnew
        omega
      rw [move_block, newThread_block, Function.update_self]
  | _ => exact absurd hnew (Nat.not_lt.mpr hold)

/-! ## The invariant -/

/-- **What holds for a target with one joiner.** -/
structure Attended (s : Lib) (target : Int) : Prop extends Tracked s where
  /-- The joiner. -/
  joining : s.JoiningOf target
  /-- The pointer. -/
  unreaped : s.UnreapedOf target
  /-- The statuses. -/
  exits : s.Exits
  /-- What the joiner has read. -/
  told : s.ToldOf target
  /-- Who waits is in the queue. -/
  queued : Program.Queued Pc.sleeping s.toSync
  /-- The last thread has begun to reap what it reaps. -/
  lastBlock : ∀ t b, (s.pc t).lastBlock = some b → s.reaped b ≠ .no
  /-- `t_mutex` is there until the `thread_t` is reaped. -/
  alive : ∀ b, b < s.made → s.owner b = target → s.reaped b = .no →
    s.mutex (.thread b) ≠ .destroyed
  /-- It has one holder, -/
  exclusive : ∀ b, b < s.made → s.owner b = target → s.reaped b = .no →
    Program.Exclusive (.thread b) (Pc.holdsThread b) s.toSync
  /-- who is between a lock and an unlock. -/
  manned : ∀ b, b < s.made → s.owner b = target → s.reaped b = .no →
    Program.Manned (.thread b) (Pc.holdsThread b) s.toSync
  /-- `joining_tid` is the joiner's. -/
  taken : ∀ b, b < s.made → s.owner b = target → s.reaped b = .no →
    0 < (s.block b).joiningTid → ∃ u, (s.pc u).awaiting = some b
  /-- The joiner is not turned away. -/
  welcome : ∀ u b, s.pc u ≠ .joinReject target b
  /-- When the joiner has read the status, the target has released `t_mutex` for good. -/
  released : ∀ u b, (s.pc u).found target b → (s.pc target).released = true
  /-- The target finds its `thread_t`. -/
  own : ∀ b, (s.pc target).own = some b → s.reaped b = .no
  /-- The joiner waits when the target has not exited. -/
  waits : ∀ u b, s.pc u = .joinWait target b → (s.block b).status ≠ .exit
  /-- It sleeps as long as the target has not signalled. -/
  sleeps : ∀ u b, s.pc u = .joinAsleep target b →
    (s.block b).status ≠ .exit ∨ s.pc target = .exitSignal b
  /-- The `thread_t` is not freed before its stack is removed. -/
  removing : ∀ u b v, s.pc u = .reapRemove target b v → s.reaped b ≠ .freed

namespace Attended

variable (h : s.Attended target)

include h

/-! ### The joiner -/

/-- Two threads with a pointer to the `thread_t` of the target are one. -/
theorem same {u x tid tid' : Int} {b : Nat} (hb : s.owner b = target)
    (hu : (s.pc u).target = some (tid, b)) (hx : (s.pc x).target = some (tid', b)) : x = u := by
  obtain rfl := ((h.sound.target u tid b hu).2.symm.trans hb)
  obtain rfl := ((h.sound.target x tid' b hx).2.symm.trans hb)
  exact h.joining.unique (Pc.joins_of_target hu) (Pc.joins_of_target hx)

/-- Who destroys a `thread_t` of the target finds nobody waiting. -/
theorem idle {b : Nat} (hb : s.owner b = target) (t : Int)
    (ht : (∃ tid v, s.pc t = .reapDestroy tid b v) ∨ s.pc t = .lastNext) :
    s.queue (.thread b) = [] := by
  rcases ht with ⟨tid, v, hdestroy⟩ | hnext
  · refine List.eq_nil_iff_forall_not_mem.mpr fun x hx => ?_
    have hsleep := h.asleep.waits (.thread b) x hx
    obtain ⟨tid', htarget⟩ := Pc.target_of_accepted
      (Pc.accepted_of_awaiting (Pc.awaiting_of_sleeping hsleep))
    obtain rfl := h.same hb (u := t) (by rw [hdestroy]; rfl) htarget
    rw [hdestroy] at hsleep
    cases hsleep
  · exact h.queue_of_lasting (by rw [hnext]; rfl) b

/-- The mutex of a `thread_t` of the target that is not reaped. -/
theorem passes (step : s.Step e s') {b : Nat} (hb : b < s.made) (howner : s.owner b = target)
    (hno : s'.reaped b = .no) :
    ∃ t, Program.Passes (.thread b) (Pc.holdsThread b) s.toSync t s'.toSync := by
  have heffect := effect_of_step step
  refine heffect.passes_thread hb (h.alive b hb howner ?_) hno (h.idle howner)
  by_contra hne
  exact heffect.reaped_ne_no hne hno

/-- **The joiner may destroy** the mutex and the condition variable. -/
theorem destroyable {u : Int} {b : Nat} {v : Status} (hu : s.pc u = .reapDestroy target b v) :
    s.destroyable b = true := by
  obtain ⟨hb, howner⟩ := h.sound.target u target b (by rw [hu]; rfl)
  have hno := h.unreaped.holding u b (by rw [hu]; rfl)
  have hqueue : s.queue (.thread b) = [] := h.idle howner u (Or.inl ⟨_, _, hu⟩)
  have hlocked : s.locked (.thread b) = false := by
    unfold locked
    cases hmutex : s.mutex (.thread b) with
    | free | destroyed => rfl
    | held x =>
        -- the holder would be the joiner itself, or the target
        have hx := h.manned b hb howner hno x hmutex
        exfalso
        rcases Pc.target_or_own_of_holds hx with ⟨tid, htarget⟩ | hown
        · obtain rfl := h.same howner (u := u) (by rw [hu]; rfl) htarget
          rw [hu] at hx
          cases hx
        · obtain rfl := (h.sound.own x b hown).2.1.symm.trans howner
          have hreleased := h.released u b (by rw [hu]; exact ⟨rfl, rfl⟩)
          rw [Pc.not_own_of_released hreleased] at hown
          cases hown
  simp [Lib.destroyable, hlocked, hqueue]

/-! ### The mutex -/

theorem step_alive (step : s.Step e s') (b : Nat) (hb : b < s'.made) (howner : s'.owner b = target)
    (hno : s'.reaped b = .no) : s'.mutex (.thread b) ≠ .destroyed := by
  have heffect := effect_of_step step
  by_cases hold : b < s.made
  · have hbefore : s.reaped b = .no := by
      by_contra hne
      exact heffect.reaped_ne_no hne hno
    rw [heffect.owner_eq hold] at howner
    exact alive_of_passes (h.alive b hold howner hbefore) (h.passes step hold howner hno)
  · rw [heffect.mutex_new (Nat.not_lt.mp hold) hb]
    exact fun hdead => by cases hdead

theorem step_exclusive (step : s.Step e s') (b : Nat) (hb : b < s'.made)
    (howner : s'.owner b = target) (hno : s'.reaped b = .no) :
    Program.Exclusive (.thread b) (Pc.holdsThread b) s'.toSync := by
  have heffect := effect_of_step step
  by_cases hold : b < s.made
  · have hbefore : s.reaped b = .no := by
      by_contra hne
      exact heffect.reaped_ne_no hne hno
    rw [heffect.owner_eq hold] at howner
    obtain ⟨t, hpasses⟩ := h.passes step hold howner hno
    exact hpasses.exclusive (h.exclusive b hold howner hbefore)
  · intro x hx
    rw [h.sound.not_holds_new heffect (Nat.not_lt.mp hold) hb x] at hx
    cases hx

theorem step_manned (step : s.Step e s') (b : Nat) (hb : b < s'.made)
    (howner : s'.owner b = target) (hno : s'.reaped b = .no) :
    Program.Manned (.thread b) (Pc.holdsThread b) s'.toSync := by
  have heffect := effect_of_step step
  by_cases hold : b < s.made
  · have hbefore : s.reaped b = .no := by
      by_contra hne
      exact heffect.reaped_ne_no hne hno
    rw [heffect.owner_eq hold] at howner
    obtain ⟨t, hpasses⟩ := h.passes step hold howner hno
    exact hpasses.manned (h.manned b hold howner hbefore)
  · intro x hx
    have hfree := heffect.mutex_new (Nat.not_lt.mp hold) hb
    cases hfree.symm.trans hx

/-! ### The queue -/

omit h in
/-- **Steps leave the waiting threads in their queues.** -/
theorem queued_step (hq : Program.Queued Pc.sleeping s.toSync) (hs : s.Sound)
    (heffect : s.Effect e s') : Program.Queued Pc.sleeping s'.toSync := by
  -- code of one thread, which does not come to wait
  have mover : ∀ {t : Int} {p : Pc} {u : Lib}, u.pc = Function.update s.pc t p →
      u.queue = s.queue → p.sleeping = none → Program.Queued Pc.sleeping u.toSync := by
    intro t p u hpc hqueue hp c x hx
    change (u.pc x).sleeping = some c at hx
    rw [hpc] at hx
    show x ∈ u.queue c
    rw [hqueue]
    by_cases hxt : x = t
    · rw [hxt, Function.update_self, hp] at hx
      cases hx
    · rw [Function.update_of_ne hxt] at hx
      exact hq c x hx
  cases heffect with
  | joinSelf | reuse => exact hq
  | sync moves =>
      refine moves.queued Pc.sleeping_places Pc.waking_places hq fun p c l a q hop => ?_
      change p.op = _ at hop
      unfold Pc.op at hop
      split at hop <;> grind
  | @fork t c base here positive new =>
      intro d x hx
      change (Function.update (Function.update s.pc c .childLock) t (.createInit base c)
        x).sleeping = some d at hx
      by_cases hxt : x = t
      · rw [hxt, Function.update_self] at hx
        cases hx
      · rw [Function.update_of_ne hxt] at hx
        by_cases hxc : x = c
        · rw [hxc, Function.update_self] at hx
          cases hx
        · rw [Function.update_of_ne hxc] at hx
          exact hq d x hx
  | @init t c base here =>
      intro d x hx
      change (Function.update s.pc t (.createLockList s.made c) x).sleeping = some d at hx
      by_cases hxt : x = t
      · rw [hxt, Function.update_self] at hx
        cases hx
      · rw [Function.update_of_ne hxt] at hx
        show x ∈ Function.update s.queue (.thread s.made) [] d
        by_cases hd : d = .thread s.made
        · -- nobody has a pointer to the new `thread_t`
          obtain ⟨tid, htarget⟩ := Pc.target_of_accepted
            (Pc.accepted_of_awaiting (Pc.awaiting_of_sleeping (hd ▸ hx)))
          exact absurd (hs.target x tid _ htarget).1 (Nat.lt_irrefl _)
        · rw [Function.update_of_ne hd]
          exact hq d x hx
  | destroy here => exact mover rfl rfl (by split_ifs <;> rfl)
  | lastPop here first => exact mover rfl rfl (by split_ifs <;> rfl)
  | childWaits here | childStarts here | create here | join here | exitSingle here | exit here
  | probe here | forkFails here | insert here | lookup here | reject here | accept here | found here
  | joinWaits here | remove here | free here | delete here | last here | zombie here | exits here
  | vanish here | lastDone here | lastRemove here | lastFree here | lastFails here | lastEnds here =>
      exact mover rfl rfl rfl

/-! ### The last thread -/

theorem step_lastBlock (step : s.Step e s') (t : Int) (b : Nat)
    (ht : (s'.pc t).lastBlock = some b) : s'.reaped b ≠ .no := by
  have heffect := effect_of_step step
  rcases (heffect.flow t).lastBlock_back ht with hold | ⟨hnext, hremove⟩
  · exact heffect.reaped_ne_no (h.lastBlock t b hold)
  · rw [(Kept.pops_step step hnext hremove).2.1]
    exact Reaping.noConfusion

/-! ### The joiner is accepted -/

theorem step_taken (step : s.Step e s') (b : Nat) (hb : b < s'.made) (howner : s'.owner b = target)
    (hno : s'.reaped b = .no) (htaken : 0 < (s'.block b).joiningTid) :
    ∃ u, (s'.pc u).awaiting = some b := by
  have heffect := effect_of_step step
  by_cases hold : b < s.made
  swap
  · rw [heffect.joiningTid_new (Nat.not_lt.mp hold) hb] at htaken
    exact absurd htaken (Int.lt_irrefl 0)
  have hbefore : s.reaped b = .no := by
    by_contra hne
    exact heffect.reaped_ne_no hne hno
  rw [heffect.owner_eq hold] at howner
  rcases heffect.joiningTid hold (by rw [hbefore]; exact Reaping.noConfusion) with
    hsame | ⟨t, tid, hloop⟩
  · rw [hsame] at htaken
    obtain ⟨u, hu⟩ := h.taken b hold howner hbefore htaken
    rcases (heffect.flow u).awaiting_keep hu with hkeep | ⟨tid, v, hdestroy, hafter⟩
    · exact ⟨u, hkeep⟩
    · -- the joiner has destroyed the mutex
      obtain rfl := ((h.sound.target u tid b (by rw [hdestroy]; rfl)).2.symm.trans howner)
      have hmoved : s'.pc u ≠ s.pc u := by
        rcases hafter with hafter | hafter <;> rw [hafter, hdestroy] <;> exact Pc.noConfusion
      have hcode := code_of_moved step hmoved (by rw [hdestroy]; rfl)
      simp only [code, hdestroy] at hcode
      obtain rfl := Option.some.inj hcode
      rw [destroy_reaped, if_pos (h.destroyable hdestroy), Function.update_self] at hno
      cases hno
  · exact ⟨t, by rw [hloop]; rfl⟩

/-- The joiner finds `joining_tid` not set. -/
theorem not_taken {u : Int} {b : Nat} (hu : s.pc u = .joinTest target b) :
    ¬(s.block b).joiningTid > 0 := by
  intro htaken
  obtain ⟨hb, howner⟩ := h.sound.target u target b (by rw [hu]; rfl)
  have hno := h.unreaped.holding u b (by rw [hu]; rfl)
  obtain ⟨x, hx⟩ := h.taken b hb howner hno htaken
  obtain ⟨tid, htarget⟩ := Pc.target_of_accepted (Pc.accepted_of_awaiting hx)
  obtain rfl := h.same howner (u := u) (by rw [hu]; rfl) htarget
  rw [hu] at hx
  cases hx

theorem step_welcome (step : s.Step e s') (u : Int) (b : Nat) :
    s'.pc u ≠ .joinReject target b := by
  intro hu
  rcases ((effect_of_step step).flow u).joinReject_back hu with hold | htest
  · exact h.welcome u b hold
  · obtain ⟨-, hcode⟩ := code_of_edge step htest hu Pc.noConfusion rfl
    simp only [code, htest, if_neg (h.not_taken htest)] at hcode
    obtain rfl := Option.some.inj hcode
    rw [move_pc, Function.update_self] at hu
    cases hu

/-! ### The target and the joiner -/

/-- The target and its joiner are not between a lock and an unlock of `t_mutex` at the same time. -/
theorem apart {u : Int} {b : Nat} (hu : (s.pc u).target = some (target, b))
    (hno : s.reaped b = .no) (hholds : (s.pc u).holdsThread b = true)
    (htarget : (s.pc target).holdsThread b = true) (hown : (s.pc target).own = some b) : False := by
  obtain ⟨hb, howner⟩ := h.sound.target u target b hu
  have hsame : target = u := (h.exclusive b hb howner hno).unique htarget hholds
  have hrunning := Pc.running_of_target hu
  rw [← hsame] at hu
  generalize s.pc target = p at *
  cases p <;> simp_all [Pc.own, Pc.target]

theorem step_released (positive : 0 < target) (step : s.Step e s') (u : Int) (b : Nat)
    (hu : (s'.pc u).found target b) : (s'.pc target).released = true := by
  have heffect := effect_of_step step
  apply (heffect.flow target).released_keep
  rcases (heffect.flow u).found_back hu with hold | ⟨v, hloop, hrelease⟩
  · exact h.released u b hold
  · obtain ⟨hexit, -⟩ := found_exit step hloop hrelease
    have htarget : (s.pc u).target = some (target, b) := by rw [hloop]; rfl
    obtain ⟨hb, howner⟩ := h.sound.target u target b htarget
    have hno := h.unreaped.holding u b (by rw [hloop]; rfl)
    have hlast := h.sound.last_eq_nil (x := u) (Or.inr (by rw [hloop]; rfl))
    have hgone := h.sound.stored b hb (Or.inl hexit)
    rw [howner] at hgone
    rcases Pc.released_of_over (hgone.resolve_right fun hne => hne hlast) with
      hreleased | hlasting | hfault | ⟨b', hown, hholds⟩
    · exact hreleased
    · exact absurd hlast (h.sound.lasting_last hlasting)
    · exact absurd hfault (h.owned.sane _)
    · -- the target would hold the mutex beside the joiner
      obtain ⟨hb', howner', -⟩ := h.sound.own _ b' hown
      obtain rfl := h.owned.one b' b hb' hb (howner'.trans howner.symm)
        (by rw [howner']; exact Int.le_of_lt positive)
      exact (h.apart htarget hno (by simp [hloop, Pc.holdsThread]) hholds hown).elim

theorem step_own (step : s.Step e s') (b : Nat) (ht : (s'.pc target).own = some b) :
    s'.reaped b = .no := by
  have heffect := effect_of_step step
  rcases (heffect.flow target).own_back ht with hold | ⟨v, hcount, hunlock⟩
  · have hno := h.own b hold
    obtain ⟨hb, howner, -⟩ := h.sound.own target b hold
    cases heffect.reaps b with
    | same after => rw [after, hno]
    | @begins x tid v event here there unused after =>
        obtain rfl := ((h.sound.target x tid b (by rw [here]; rfl)).2.symm.trans howner)
        have hreleased := h.released x b (by rw [here]; exact ⟨rfl, rfl⟩)
        rw [Pc.not_own_of_released hreleased] at hold
        cases hold
    | pops event here first unused after =>
        rcases Pc.running_or_holds_of_own hold with hrunning | hholds
        · exact absurd hrunning (h.not_running_of_lasting (by rw [here]; rfl) target)
        · have hheld : s.mutex (.thread b) = .held target :=
            h.exclusive b hb howner hno target hholds
          simp [Lib.destroyable, locked, hheld] at unused
    | @removes x event here there after =>
        rcases Pc.removing_of_reapStage here with ⟨tid, v, hremove⟩ | hremove
        · exact absurd hno (h.unreaped.reapBlock x b (by rw [hremove]; rfl) howner)
        · exact absurd hno (h.lastBlock x b (by rw [hremove]; rfl))
    | @frees x tid v event here there after =>
        exact absurd hno (h.unreaped.reapBlock x b (by rw [here]; rfl) howner)
    | @lastFrees x event here there after =>
        exact absurd hno (h.lastBlock x b (by rw [here]; rfl))
  · obtain ⟨-, -, hfound, rfl⟩ := counted step hcount hunlock
    obtain ⟨b', hsearch, -, -, -, hno⟩ := h.sound.running target (by rw [hcount]; rfl)
    obtain rfl := Option.some.inj (hsearch.symm.trans hfound)
    exact hno

/-! ### Waiting for the target -/

/-- While the joiner holds `t_mutex` the status stays. -/
theorem status_held (step : s.Step e s') {u : Int} {b : Nat}
    (hu : (s.pc u).target = some (target, b)) (hno : s.reaped b = .no)
    (hholds : (s.pc u).holdsThread b = true) : (s'.block b).status = (s.block b).status := by
  obtain ⟨hb, howner⟩ := h.sound.target u target b hu
  rcases (effect_of_step step).status hb (by rw [hno]; exact Reaping.noConfusion) with
    ⟨hsame, -⟩ | ⟨t, v, hstore, -⟩
  · exact hsame
  · obtain rfl := (h.sound.own t b (by rw [hstore]; rfl)).2.1.symm.trans howner
    exact (h.apart hu hno hholds (by simp [hstore, Pc.holdsThread]) (by rw [hstore]; rfl)).elim

theorem step_waits (step : s.Step e s') (u : Int) (b : Nat) (hu : s'.pc u = .joinWait target b) :
    (s'.block b).status ≠ .exit := by
  rcases ((effect_of_step step).flow u).joinWait_back hu with hold | hloop
  · rw [h.status_held step (u := u) (by rw [hold]; rfl)
      (h.unreaped.holding u b (by rw [hold]; rfl)) (by simp [hold, Pc.holdsThread])]
    exact h.waits u b hold
  · obtain ⟨-, hcode⟩ := code_of_edge step hloop hu Pc.noConfusion rfl
    simp only [code, hloop] at hcode
    split_ifs at hcode with hexit
    · obtain rfl := Option.some.inj hcode
      rw [move_pc, Function.update_self] at hu
      cases hu
    · obtain rfl := Option.some.inj hcode
      exact hexit

/-- **A signal wakes the joiner.** -/
theorem woken (step : s.Step e s') {b : Nat} (hsignal : s.pc target = .exitSignal b)
    (moved : s'.pc target ≠ .exitSignal b) (u : Int) : s'.pc u ≠ .joinAsleep target b := by
  intro hu
  have heffect := effect_of_step step
  obtain ⟨-, howner, -⟩ := h.sound.own target b (by rw [hsignal]; rfl)
  obtain ⟨-, hqueue⟩ := signal_step step (congrArg Pc.op hsignal) (by rwa [hsignal])
  have hmem : u ∈ s'.queue (.thread b) :=
    queued_step h.queued h.sound heffect (.thread b) u (by rw [hu]; rfl)
  rw [hqueue] at hmem
  -- the joiner is alone in the queue
  have hone : ∀ x ∈ s.queue (.thread b), x = u := by
    intro x hx
    have hold : u ∈ s.queue (.thread b) := List.mem_of_mem_tail hmem
    obtain ⟨tid, htarget⟩ := Pc.target_of_accepted
      (Pc.accepted_of_awaiting (Pc.awaiting_of_sleeping (h.asleep.waits _ u hold)))
    obtain ⟨tid', htarget'⟩ := Pc.target_of_accepted
      (Pc.accepted_of_awaiting (Pc.awaiting_of_sleeping (h.asleep.waits _ x hx)))
    exact h.same howner htarget htarget'
  have hnodup := h.asleep.nodup (.thread b)
  cases hq : s.queue (.thread b) with
  | nil =>
      rw [hq] at hmem
      cases hmem
  | cons y rest =>
      rw [hq] at hmem hnodup hone
      rw [hone y List.mem_cons_self, List.nodup_cons] at hnodup
      exact hnodup.1 hmem

theorem step_sleeps (step : s.Step e s') (u : Int) (b : Nat)
    (hu : s'.pc u = .joinAsleep target b) :
    (s'.block b).status ≠ .exit ∨ s'.pc target = .exitSignal b := by
  have heffect := effect_of_step step
  rcases (heffect.flow u).joinAsleep_back hu with hold | hwait
  · have hno := h.unreaped.holding u b (by rw [hold]; rfl)
    obtain ⟨hb, howner⟩ := h.sound.target u target b (by rw [hold]; rfl)
    rcases h.sleeps u b hold with hrunning | hsignal
    · rcases heffect.status hb (by rw [hno]; exact Reaping.noConfusion) with
        ⟨hsame, -⟩ | ⟨t, v, hstore, hsignal, -⟩
      · rw [hsame]
        exact Or.inl hrunning
      · obtain rfl := (h.sound.own t b (by rw [hstore]; rfl)).2.1.symm.trans howner
        exact Or.inr hsignal
    · by_cases hstay : s'.pc target = .exitSignal b
      · exact Or.inr hstay
      · exact absurd hu (h.woken step hsignal hstay u)
  · rw [h.status_held step (u := u) (by rw [hwait]; rfl)
      (h.unreaped.holding u b (by rw [hwait]; rfl)) (by simp [hwait, Pc.holdsThread])]
    exact Or.inl (h.waits u b hwait)

/-! ### The end of the joiner -/

theorem step_removing (step : s.Step e s') (u : Int) (b : Nat) (v : Status)
    (hu : s'.pc u = .reapRemove target b v) : s'.reaped b ≠ .freed := by
  have heffect := effect_of_step step
  rcases (heffect.flow u).reapRemove_back hu with hold | hdestroy
  · have hbefore := h.removing u b v hold
    obtain ⟨-, howner⟩ := h.sound.target u target b (by rw [hold]; rfl)
    cases heffect.reaps b with
    | same after => rwa [after]
    | begins event here there unused after =>
        rw [after]
        exact Reaping.noConfusion
    | pops event here first unused after =>
        rw [after]
        exact Reaping.noConfusion
    | removes event here there after =>
        rw [after]
        exact Reaping.noConfusion
    | @frees x tid w event here there after =>
        obtain rfl := h.same howner (u := u) (by rw [hold]; rfl) (x := x) (by rw [here]; rfl)
        rw [hold] at here
        cases here
    | lastFrees event here there after =>
        exact absurd (by rw [hold]; rfl) (h.not_running_of_lasting (by rw [here]; rfl) u)
  · rw [(Kept.begins_step step hdestroy hu).2]
    exact Reaping.noConfusion

/-- **Every step keeps the invariant**, when the target is joined by one thread. -/
theorem step (positive : 0 < target) (hstep : s.Step e s')
    (single : s.SingleJoinerOf target e) : s'.Attended target where
  toTracked := h.toTracked.step hstep
  joining := h.joining.step hstep single
  unreaped := h.unreaped.step h.sound hstep h.joining.apart
  exits := h.exits.step h.sound hstep
  told := h.told.step h.exits h.sound h.unreaped hstep
  queued := queued_step h.queued h.sound (effect_of_step hstep)
  lastBlock := h.step_lastBlock hstep
  alive := h.step_alive hstep
  exclusive := h.step_exclusive hstep
  manned := h.step_manned hstep
  taken := h.step_taken hstep
  welcome := h.step_welcome hstep
  released := h.step_released positive hstep
  own := h.step_own hstep
  waits := h.step_waits hstep
  sleeps := h.step_sleeps hstep
  removing := h.step_removing hstep

end Attended

/-- At the start. -/
theorem attended_init {root : Nat} (positive : 0 < root) {memory : ThreadT}
    (notJoined : memory.joiningTid ≤ 0) (target : Int) : (init root memory).Attended target := by
  have hpc := init_plain root memory
  have hjoinable := joinable_init root memory
  obtain ⟨hexits, htold⟩ := told_iff.mp hjoinable.told
  -- at a place outside the library
  have plain : ∀ (t : Int) {P : Pc → Prop}, P .user → P .absent → P ((init root memory).pc t) := by
    intro t P huser habsent
    rcases hpc t with h | h <;> rw [h] <;> assumption
  refine ⟨tracked_init positive memory, joining_iff.mp hjoinable.joining target,
    unreaped_iff.mp hjoinable.unreaped target, hexits, htold target, ?_, ?_, ?_, ?_, ?_, ?_, ?_, ?_,
    ?_, ?_, ?_, ?_⟩
  · exact fun c x => plain x (P := fun p => p.sleeping = some c → _) nofun nofun
  · exact fun t b => plain t (P := fun p => p.lastBlock = some b → _) nofun nofun
  · exact fun b hb howner hno => nofun
  · exact fun b hb howner hno x =>
      plain x (P := fun p => p.holdsThread b = true → _) nofun nofun
  · exact fun b hb howner hno x hx => nomatch hx
  · exact fun b hb howner hno htaken => absurd htaken (Int.not_lt.mpr notJoined)
  · exact fun u b => plain u (P := fun p => p ≠ _) nofun nofun
  · exact fun u b => plain u (P := fun p => p.found target b → _) nofun nofun
  · exact fun b => plain target (P := fun p => p.own = some b → _) nofun nofun
  · exact fun u b => plain u (P := fun p => p = _ → _) nofun nofun
  · exact fun u b => plain u (P := fun p => p = _ → _) nofun nofun
  · exact fun u b v => plain u (P := fun p => p = _ → _) nofun nofun

end Lib

end Pebbles.ThreadLib
