import Pebbles.Libthread.ThreadPointers

/-! # The mutexes of the `thread_t`s

What a step does to `t_mutex` of a `thread_t` that nobody has begun to reap, and who waits on its
`t_cond`. -/

namespace Pebbles.ThreadLib

open Monitors Transition

namespace Pc

/-- `prog` does not come to wait but in `cond_wait`. -/
theorem waking_places : prog.Waking sleeping where
  next p q h hwait := by
    change Program.Op.LeadsTo p.op q at h
    change ∀ c l r, p.op ≠ _ at hwait
    unfold op at h hwait
    split at h <;> grind [Program.Op.LeadsTo, sleeping]
  wake p := by
    change p.wake.sleeping = none
    cases p <;> rfl

end Pc

namespace Lib

variable {s s' : Lib} {e : Event}

/-! ## The mutex -/

/-- `mutex_destroy` leaves the mutexes that are not reaped. -/
theorem mutex_of_destroy {t : Int} {b b' : Nat} {p : Pc} (hno : (s.destroy t b' p).reaped b = .no)
    (hqueue : b' = b → s.queue (.thread b) = []) :
    (s.destroy t b' p).mutex (.thread b) = s.mutex (.thread b) := by
  show (if s.locked (.thread b') then s.mutex
    else Function.update s.mutex (.thread b') .destroyed) (.thread b) = _
  by_cases hlocked : s.locked (.thread b') = true
  · rw [if_pos hlocked]
  · rw [if_neg hlocked, Function.update_of_ne]
    intro hb
    obtain rfl := Lock.thread.inj hb
    have hok : s.destroyable b = true := by simp [destroyable, hlocked, hqueue rfl]
    rw [destroy_reaped, if_pos hok, Function.update_self] at hno
    cases hno

/-- **What a step does to `t_mutex`** of a `thread_t` that is not reaped. Who comes to destroy it
finds nobody waiting. -/
theorem Effect.passes_thread (h : s.Effect e s') {b : Nat} (hb : b < s.made)
    (alive : s.mutex (.thread b) ≠ .destroyed) (hno : s'.reaped b = .no)
    (idle : ∀ t, (∃ tid v, s.pc t = .reapDestroy tid b v) ∨ s.pc t = .lastNext →
      s.queue (.thread b) = []) :
    ∃ t, Program.Passes (.thread b) (Pc.holdsThread b) s.toSync t s'.toSync := by
  -- code of one thread does not take the mutex
  have mover : ∀ {t : Int} {p : Pc} {u : Lib}, u.mutex (.thread b) = s.mutex (.thread b) →
      u.pc = Function.update s.pc t p → p.holdsThread b = (s.pc t).holdsThread b →
        ∃ t, Program.Passes (.thread b) (Pc.holdsThread b) s.toSync t u.toSync := by
    intro t p u hmutex hpc hp
    refine ⟨t, .same hmutex fun x => ?_⟩
    show (u.pc x).holdsThread b = _
    rw [hpc]
    by_cases hxt : x = t
    · rw [hxt, Function.update_self, hp]
    · rw [Function.update_of_ne hxt]
  cases h with
  | joinSelf | reuse => exact ⟨0, .same rfl fun _ => rfl⟩
  | @sync t u moves => exact ⟨t, moves.passes (Pc.holding_thread b) alive⟩
  | @fork t c base here positive new =>
      refine ⟨t, .same rfl fun x => ?_⟩
      show (Function.update (Function.update s.pc c .childLock) t (.createInit base c)
        x).holdsThread b = _
      by_cases hxt : x = t
      · rw [hxt, Function.update_self, here]
        rfl
      · rw [Function.update_of_ne hxt]
        by_cases hxc : x = c
        · rw [hxc, Function.update_self, new]
          rfl
        · rw [Function.update_of_ne hxc]
  | init here =>
      refine mover ?_ rfl (by simp [here, Pc.holdsThread])
      show Function.update s.mutex (.thread s.made) .free (.thread b) = _
      rw [Function.update_of_ne (fun hsame => Nat.ne_of_lt hb (Lock.thread.inj hsame))]
  | destroy here =>
      refine mover (mutex_of_destroy hno ?_) rfl ?_
      · rintro rfl
        exact idle _ (Or.inl ⟨_, _, here⟩)
      · rw [here]
        split_ifs <;> rfl
  | lastPop here first =>
      refine mover (mutex_of_destroy hno ?_) rfl ?_
      · rintro rfl
        exact idle _ (Or.inr here)
      · rw [here]
        split_ifs <;> rfl
  | create here | join here | exitSingle here | exit here | probe here | forkFails here | insert here
  | childWaits here | childStarts here | lookup here | reject here | accept here | found here
  | joinWaits here | remove here | free here | delete here | last here | zombie here | exits here
  | vanish here | lastDone here | lastRemove here | lastFree here | lastFails here | lastEnds here =>
      exact mover rfl rfl (by simp [here, Pc.holdsThread])

/-- The mutex stays as long as nobody reaps its `thread_t`. -/
theorem alive_of_passes {b : Nat} (alive : s.mutex (.thread b) ≠ .destroyed)
    (h : ∃ t, Program.Passes (.thread b) (Pc.holdsThread b) s.toSync t s'.toSync) :
    s'.mutex (.thread b) ≠ .destroyed := by
  obtain ⟨t, ⟨hmutex, -⟩ | ⟨-, hmutex, -⟩ | ⟨hmutex, -⟩⟩ := h
  · exact fun hdead => alive (hmutex.symm.trans hdead)
  · intro hdead
    cases hmutex.symm.trans hdead
  · intro hdead
    cases hmutex.symm.trans hdead

/-- **A new `thread_t`** has a free mutex. -/
theorem Effect.mutex_new (h : s.Effect e s') {b : Nat} (hold : s.made ≤ b) (hnew : b < s'.made) :
    s'.mutex (.thread b) = .free := by
  cases h with
  | init =>
      obtain rfl : b = s.made := by
        have hlt : b < s.made + 1 := hnew
        omega
      exact Function.update_self ..
  | _ => exact absurd hnew (Nat.not_lt.mpr hold)

/-- Nobody holds the mutex of a `thread_t` that was not allocated. -/
theorem Sound.not_holds_fresh (h : s.Sound) {b : Nat} (hb : s.made ≤ b) (x : Int) :
    (s.pc x).holdsThread b = false := by
  by_contra hx
  rcases Pc.target_or_own_of_holds (Bool.not_eq_false _ ▸ hx) with ⟨tid, htarget⟩ | hown
  · exact absurd (h.target x tid b htarget).1 (Nat.not_lt.mpr hb)
  · exact absurd (h.own x b hown).1 (Nat.not_lt.mpr hb)

/-- Nor when it has just been allocated. -/
theorem Sound.not_holds_new (h : s.Sound) (heffect : s.Effect e s') {b : Nat} (hold : s.made ≤ b)
    (hnew : b < s'.made) (x : Int) : (s'.pc x).holdsThread b = false := by
  cases heffect with
  | @init t c base here =>
      show (Function.update s.pc t (.createLockList s.made c) x).holdsThread b = _
      by_cases hxt : x = t
      · rw [hxt, Function.update_self]
        rfl
      · rw [Function.update_of_ne hxt, h.not_holds_fresh hold]
  | _ => exact absurd hnew (Nat.not_lt.mpr hold)

/-! ## The queue -/

/-- Nobody waits beside the last thread. -/
theorem Tracked.queue_of_lasting (h : s.Tracked) {t : Int} (ht : (s.pc t).lasting = true) (b : Nat) :
    s.queue (.thread b) = [] := by
  refine List.eq_nil_iff_forall_not_mem.mpr fun x hx => ?_
  have haccepted := Pc.accepted_of_awaiting
    (Pc.awaiting_of_sleeping (h.asleep.waits (.thread b) x hx))
  exact h.not_running_of_lasting ht x (Pc.running_of_accepted haccepted)

/-- At the start. -/
theorem tracked_init {root : Nat} (positive : 0 < root) (memory : ThreadT) :
    (init root memory).Tracked where
  sound := sound_init root memory
  owned := owned_init root memory
  started := (joinable_init root memory).started
  asleep := asleep_init root memory
  positive x hx := by
    by_contra hneg
    refine hx (if_neg ?_)
    rintro rfl
    exact hneg (Int.natCast_pos.mpr positive)

end Lib

end Pebbles.ThreadLib
