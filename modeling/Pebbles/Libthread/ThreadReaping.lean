import Pebbles.Libthread.ThreadMutexes

/-! # Reaping the threads

The rest of the invariant of careful reaping: a `thread_t` is destroyed when its thread has released
its mutex for the last time, and the last thread finds the `thread_t`s of all others unused. -/

namespace Pebbles.ThreadLib

open Monitors Transition

namespace Lib

variable {s s' : Lib} {e : Event}

namespace Kept

variable (h : s.Kept)

include h

/-! ## The steps of `thr_reap` -/

omit h in
/-- A call of `thr_join` begins to reap. -/
theorem begins_step {t tid : Int} {b : Nat} {v : Status} (step : s.Step e s')
    (hdestroy : s.pc t = .reapDestroy tid b v) (hremove : s'.pc t = .reapRemove tid b v) :
    s.destroyable b = true ∧ s'.reaped b = .destroyed := by
  obtain ⟨-, hcode⟩ := code_of_edge step hdestroy hremove Pc.noConfusion rfl
  simp only [code, hdestroy] at hcode
  obtain rfl := Option.some.inj hcode
  rw [destroy_pc, Function.update_self] at hremove
  split_ifs at hremove with hok
  exact ⟨hok, by rw [destroy_reaped, if_pos hok, Function.update_self]⟩

omit h in
/-- The last thread begins to reap. -/
theorem pops_step {t : Int} {b : Nat} (step : s.Step e s') (hnext : s.pc t = .lastNext)
    (hremove : s'.pc t = .lastRemove b) : s.destroyable b = true ∧ s'.reaped b = .destroyed ∧
      (s.block b).tid ≠ t ∧ ∃ c, s.nodes = (c, b) :: s'.nodes := by
  obtain ⟨-, hcode⟩ := code_of_edge step hnext hremove Pc.noConfusion rfl
  simp only [code, hnext] at hcode
  split at hcode
  · obtain rfl := Option.some.inj hcode
    rw [move_pc, Function.update_self] at hremove
    cases hremove
  · next c b' rest hnodes =>
      obtain rfl := Option.some.inj hcode
      rw [destroy_pc, Function.update_self] at hremove
      split_ifs at hremove with hok htid
      obtain rfl := Pc.lastRemove.inj hremove
      refine ⟨hok, ?_, htid, c, hnodes⟩
      rw [destroy_reaped, if_pos hok, Function.update_self]

omit h in
/-- A stack is removed. -/
theorem removes_step {t : Int} {b : Nat} (step : s.Step e s')
    (hbefore : (s.pc t).reapStage = some (b, .destroyed))
    (hafter : (s'.pc t).reapStage = some (b, .removed)) : s'.reaped b = .removed := by
  have hmoved : s'.pc t ≠ s.pc t := by
    intro hsame
    rw [hsame, hbefore] at hafter
    cases hafter
  obtain ⟨tid, v, hremove⟩ | hremove := Pc.removing_of_reapStage hbefore
  · have hcode := code_of_moved step hmoved (by rw [hremove]; rfl)
    simp only [code, hremove] at hcode
    obtain rfl := Option.some.inj hcode
    exact Function.update_self ..
  · have hcode := code_of_moved step hmoved (by rw [hremove]; rfl)
    simp only [code, hremove] at hcode
    obtain rfl := Option.some.inj hcode
    exact Function.update_self ..

theorem step_stage (step : s.Step e s') (t : Int) (b : Nat) (r : Reaping)
    (ht : (s'.pc t).reapStage = some (b, r)) : s'.reaped b = r := by
  have heffect := effect_of_step step
  rcases (heffect.flow t).reapStage_back ht with hold | ⟨rfl, tid, v, hdestroy, hremove⟩ |
    ⟨rfl, hnext, hremove⟩ | ⟨rfl, hbefore⟩
  · have hr := h.stage t b r hold
    have hne := (Pc.reapStage_ne hold).1
    rcases heffect.reaps b with hsame | ⟨-, hx, -⟩ | ⟨-, hx, hfirst, -⟩ | ⟨-, hx, hthere, hafter⟩ |
      ⟨-, hx, hthere, -⟩ | ⟨-, hx, hthere, -⟩
    · rw [hsame, hr]
    · rw [h.awaiting _ b (by rw [hx]; rfl)] at hr
      exact absurd hr.symm hne
    · have hlast := h.sound.lasting_last (by rw [hx]; rfl)
      have hno := (h.lastNodes hlast _ (by rw [hfirst]; exact List.mem_cons_self)).2
      rw [hno] at hr
      exact absurd hr.symm hne
    · obtain rfl := h.stageOne hold hx
      rw [hthere] at ht
      rw [hafter, (Prod.mk.inj (Option.some.inj ht)).2]
    · obtain rfl := h.stageOne hold (congrArg Pc.reapStage hx)
      rw [hthere] at ht
      cases ht
    · obtain rfl := h.stageOne hold (congrArg Pc.reapStage hx)
      rw [hthere] at ht
      cases ht
  · exact (begins_step step hdestroy hremove).2
  · exact (pops_step step hnext hremove).2.1
  · exact removes_step step hbefore ht

theorem step_own (step : s.Step e s') (t : Int) (b : Nat) (ht : (s'.pc t).own = some b) :
    s'.reaped b = .no := by
  have heffect := effect_of_step step
  rcases (heffect.flow t).own_back ht with hold | ⟨v, hcount, hunlock⟩
  · have hno := h.own t b hold
    obtain ⟨hb, howner, -⟩ := h.sound.own t b hold
    -- a thread that is over holds the mutex
    have hholds : s.destroyable b = true → (s.pc t).phase = .running := by
      intro hok
      refine (Pc.running_or_holds_of_own hold).resolve_right fun hholds => ?_
      rw [h.not_destroyable hb hno hholds] at hok
      cases hok
    rcases heffect.reaps b with hsame | ⟨-, hx, -, hok, -⟩ | ⟨-, hx, -, hok, -⟩ | ⟨-, hx, -⟩ |
      ⟨-, hx, -⟩ | ⟨-, hx, -⟩
    · rw [hsame, hno]
    · rename_i x tid v
      have htid := (h.sound.target x tid b (by rw [hx]; rfl)).2
      have hgone := h.sound.past x tid (by rw [hx]; rfl)
      rw [← htid, howner] at hgone
      exact absurd hgone (h.sound.not_gone (Or.inr (hholds hok)))
    · exact absurd (hholds hok) (h.not_running_of_lasting (by rw [hx]; rfl) t)
    · rw [h.stage _ b _ hx] at hno
      cases hno
    · rw [h.stage _ b .removed (by rw [hx]; rfl)] at hno
      cases hno
    · rw [h.stage _ b .removed (by rw [hx]; rfl)] at hno
      cases hno
  · obtain ⟨-, -, hfound, rfl⟩ := counted step hcount hunlock
    obtain ⟨b', hsearch, -, -, -, hno⟩ := h.sound.running t (by rw [hcount]; rfl)
    obtain rfl := Option.some.inj (hsearch.symm.trans hfound)
    exact hno

/-! ## The mutexes -/

/-- Nobody waits for a thread that is reaped by a call of `thr_join`. -/
theorem queue_of_reapDestroy {t tid : Int} {b : Nat} {v : Status}
    (ht : s.pc t = .reapDestroy tid b v) : s.queue (.thread b) = [] := by
  refine List.eq_nil_iff_forall_not_mem.mpr fun x hx => ?_
  have hsleep := h.asleep.waits (.thread b) x hx
  have haccepted := Pc.accepted_of_awaiting (Pc.awaiting_of_sleeping hsleep)
  obtain rfl := h.acceptedOne t x b (by rw [ht]; rfl) haccepted
  rw [ht] at hsleep
  cases hsleep

/-- Who comes to destroy a `thread_t` finds nobody waiting. -/
theorem idle {b : Nat} (t : Int)
    (ht : (∃ tid v, s.pc t = .reapDestroy tid b v) ∨ s.pc t = .lastNext) :
    s.queue (.thread b) = [] := by
  rcases ht with ⟨tid, v, hdestroy⟩ | hnext
  · exact h.queue_of_reapDestroy hdestroy
  · exact h.queue_of_lasting (by rw [hnext]; rfl) b

/-- The mutex of a `thread_t` that is not reaped. -/
theorem passes (step : s.Step e s') {b : Nat} (hb : b < s.made) (hno : s'.reaped b = .no) :
    ∃ t, Program.Passes (.thread b) (Pc.holdsThread b) s.toSync t s'.toSync := by
  have heffect := effect_of_step step
  refine heffect.passes_thread hb (h.alive b hb ?_) hno h.idle
  by_contra hne
  exact heffect.reaped_ne_no hne hno

theorem step_alive (step : s.Step e s') (b : Nat) (hb : b < s'.made) (hno : s'.reaped b = .no) :
    s'.mutex (.thread b) ≠ .destroyed := by
  have heffect := effect_of_step step
  by_cases hold : b < s.made
  · have hbefore : s.reaped b = .no := by
      by_contra hne
      exact heffect.reaped_ne_no hne hno
    exact alive_of_passes (h.alive b hold hbefore) (h.passes step hold hno)
  · rw [heffect.mutex_new (Nat.not_lt.mp hold) hb]
    exact fun hdead => by cases hdead

theorem step_exclusive (step : s.Step e s') (b : Nat) (hb : b < s'.made) (hno : s'.reaped b = .no) :
    Program.Exclusive (.thread b) (Pc.holdsThread b) s'.toSync := by
  have heffect := effect_of_step step
  by_cases hold : b < s.made
  · have hbefore : s.reaped b = .no := by
      by_contra hne
      exact heffect.reaped_ne_no hne hno
    obtain ⟨t, hpasses⟩ := h.passes step hold hno
    exact hpasses.exclusive (h.exclusive b hold hbefore)
  · -- nobody has a pointer to a new `thread_t`
    intro x hx
    rw [h.sound.not_holds_new heffect (Nat.not_lt.mp hold) hb x] at hx
    cases hx

/-! ## The branch of the last thread -/

theorem step_lastNodes (step : s.Step e s') (hlast' : s'.last ≠ []) (n : Int × Nat)
    (hn : n ∈ s'.nodes) : 0 ≤ n.1 ∧ s'.reaped n.2 = .no := by
  have heffect := effect_of_step step
  rcases heffect.last_eq with hsame | ⟨t, v, hcount, hnext, hone, hcons⟩
  · have hlast : s.last ≠ [] := by rwa [hsame] at hlast'
    have idle : ∀ x, (s.pc x).phase ≠ .running :=
      fun x hx => hlast (h.sound.last_eq_nil (Or.inr hx))
    have hmem : n ∈ s.nodes := by
      rcases heffect.nodes with hnodes | ⟨x, b, c, hx, -⟩ | ⟨x, tid, v, hx, -⟩ | ⟨x, m, -, hpop⟩
      · rwa [hnodes] at hn
      · exact absurd (by rw [hx]; rfl) (idle x)
      · exact absurd (by rw [hx]; rfl) (idle x)
      · rw [hpop]
        exact List.mem_cons_of_mem _ hn
    obtain ⟨hpos, hno⟩ := h.lastNodes hlast n hmem
    refine ⟨hpos, ?_⟩
    rcases heffect.reaps n.2 with hsame | ⟨-, hx, -⟩ | ⟨-, -, hfirst, -, -⟩ | ⟨-, hx, -⟩ | ⟨-, hx, -⟩ |
      ⟨-, hx, -⟩
    · rw [hsame, hno]
    · exact absurd (by rw [hx]; rfl) (idle _)
    · -- the two nodes are of one thread
      rename_i x c
      have hpairs := h.sound.distinct
      rw [hfirst] at hpairs
      have hfst : c = n.1 := by
        rw [← (h.sound.nodes n hmem).2.1]
        exact (h.sound.nodes (c, n.2) (by rw [hfirst]; exact List.mem_cons_self)).2.1.symm
      exact absurd hfst ((List.pairwise_cons.mp hpairs).1 n hn (hfst ▸ hpos))
    · rw [h.stage _ n.2 _ hx] at hno
      cases hno
    · exact absurd (by rw [hx]; rfl) (idle _)
    · rw [h.stage _ n.2 .removed (by rw [hx]; rfl)] at hno
      cases hno
  · obtain ⟨-, hcode⟩ := code_of_edge step hcount hnext Pc.noConfusion rfl
    simp only [code, hcount, if_pos hone] at hcode
    obtain rfl := Option.some.inj hcode
    have hrunning : (s.pc t).phase = .running := by
      rw [hcount]
      rfl
    have hlisted := h.sound.running t hrunning
    have hlast := h.sound.last_eq_nil (Or.inr hrunning)
    have hmem : n ∈ s.nodes := hn
    obtain ⟨hb, howner, -⟩ := h.sound.nodes n hmem
    constructor
    · -- a node without a thread counts as running
      by_contra hneg
      have hgone : ¬s.Gone (s.owner n.2) := by
        rintro (hover | hne)
        · rw [howner, h.sound.negative n.1 (by omega)] at hover
          cases hover
        · exact hne hlast
      obtain ⟨hstatus, -⟩ := not_or.mp (mt (h.sound.stored n.2 hb) hgone)
      have hstatus : (s.block n.2).status = .running := by
        cases hs : (s.block n.2).status with
        | running => rfl
        | exit => exact absurd hs hstatus
      obtain ⟨b, hsearch, -, -, hbs, -⟩ := hlisted
      have hnode : n = (t, b) := eq_of_counted hone hmem hstatus (mem_of_search hsearch) hbs
      rw [hnode] at hneg
      exact hneg (Int.le_of_lt (h.positive t (by rw [hcount]; exact Pc.noConfusion)))
    · by_contra hreaped
      rcases h.sound.dangling n hmem hreaped with ⟨x, hx⟩ | hne
      · have hxlisted := h.sound.running x (Pc.running_of_reaping hx)
        obtain rfl := eq_of_liveCount hone hxlisted hlisted
        rw [hcount] at hx
        cases hx
      · exact hne hlast

theorem step_tids (step : s.Step e s') (b : Nat) (hb : b < s'.made) (hb0 : b ≠ 0)
    (hfreed' : s'.reaped b ≠ .freed) : (s'.block b).tid = s'.owner b := by
  have heffect := effect_of_step step
  by_cases hold : b < s.made
  · have hfreed : s.reaped b ≠ .freed := by
      rcases heffect.reaps b with hsame | ⟨-, hx, -⟩ | ⟨-, hx, hfirst, -⟩ | ⟨-, hx, -⟩ |
        ⟨-, -, -, hafter⟩ | ⟨-, -, -, hafter⟩
      · rwa [hsame] at hfreed'
      · rw [h.awaiting _ b (by rw [hx]; rfl)]
        exact Reaping.noConfusion
      · have hlast := h.sound.lasting_last (by rw [hx]; rfl)
        have hno : s.reaped b = .no :=
          (h.lastNodes hlast _ (by rw [hfirst]; exact List.mem_cons_self)).2
        rw [hno]
        exact Reaping.noConfusion
      · rw [h.stage _ b _ hx]
        exact Reaping.noConfusion
      · exact absurd hafter hfreed'
      · exact absurd hafter hfreed'
    rw [(heffect.fields hold hfreed).1, heffect.owner_eq hold, h.tids b hold hb0 hfreed]
  · cases heffect with
    | @init t c base here =>
        obtain rfl : b = s.made := by
          have hlt : b < s.made + 1 := hb
          omega
        show (Function.update s.block s.made _ s.made).tid = Function.update s.owner s.made c s.made
        rw [Function.update_self, Function.update_self]
    | _ => exact absurd hb hold

/-- **When a `thread_t` can be destroyed**, its thread has released it. -/
theorem released_of_destroyable {b : Nat} (hb : b < s.made) (hno : s.reaped b = .no)
    (hok : s.destroyable b = true) (hover : (s.pc (s.owner b)).phase = .over)
    (hlast : (s.pc (s.owner b)).lasting ≠ true) : (s.pc (s.owner b)).released = true := by
  rcases Pc.released_of_over hover with hreleased | hlasting | hfault | ⟨b', hown, hholds⟩
  · exact hreleased
  · exact absurd hlasting hlast
  · exact absurd hfault (h.owned.sane _)
  · obtain ⟨hb', howner, -⟩ := h.sound.own _ b' hown
    have hpos : 0 < s.owner b' := by
      rw [howner]
      apply h.positive
      intro habsent
      rw [habsent] at hover
      cases hover
    obtain rfl := h.owned.one b' b hb' hb howner (Int.le_of_lt hpos)
    rw [h.not_destroyable hb hno hholds] at hok
    cases hok

theorem step_released (step : s.Step e s') (t : Int) (b : Nat) (r : Reaping)
    (ht : (s'.pc t).reapStage = some (b, r)) (hb0 : b ≠ 0) :
    (s'.pc (s'.owner b)).released = true := by
  have heffect := effect_of_step step
  have keep : b < s.made → (s.pc (s.owner b)).released = true →
      (s'.pc (s'.owner b)).released = true := by
    intro hb hreleased
    rw [heffect.owner_eq hb]
    exact (heffect.flow _).released_keep hreleased
  rcases (heffect.flow t).reapStage_back ht with hold | ⟨rfl, tid, v, hdestroy, hremove⟩ |
    ⟨rfl, hnext, hremove⟩ | ⟨rfl, hbefore⟩
  · exact keep (h.lt_of_reapStage hold) (h.released t b r hold hb0)
  · obtain ⟨hb, howner⟩ := h.sound.target t tid b (by rw [hdestroy]; rfl)
    have hlast := h.sound.last_eq_nil (x := t) (Or.inr (by rw [hdestroy]; rfl))
    have hover : (s.pc (s.owner b)).phase = .over := by
      rw [howner]
      exact (h.sound.past t tid (by rw [hdestroy]; rfl)).resolve_right fun hne => hne hlast
    apply keep hb
    exact h.released_of_destroyable hb (h.awaiting t b (by rw [hdestroy]; rfl))
      (begins_step step hdestroy hremove).1 hover fun hlasting => h.sound.lasting_last hlasting hlast
  · obtain ⟨hok, -, htid, c, hnodes⟩ := pops_step step hnext hremove
    have hmem : (c, b) ∈ s.nodes := by
      rw [hnodes]
      exact List.mem_cons_self
    have hlast := h.sound.lasting t (by rw [hnext]; rfl)
    obtain ⟨hb, howner, hborn⟩ := h.sound.nodes (c, b) hmem
    obtain ⟨hpos, hno⟩ := h.lastNodes (List.ne_nil_of_mem hlast) (c, b) hmem
    have howner : s.owner b = c := howner
    have hct : c ≠ t := by
      rintro rfl
      exact htid ((h.tids b hb hb0 (by rw [hno]; exact Reaping.noConfusion)).trans howner)
    apply keep hb
    apply h.released_of_destroyable hb hno hok
    · rw [howner]
      exact ((h.sound.lastOver t hlast).2 c hct).resolve_left (hborn hpos)
    · rw [howner]
      exact fun hlasting => hct (h.owned.lastOne c (h.sound.lasting c hlasting) t hlast)
  · exact keep (h.lt_of_reapStage hbefore) (h.released t b _ hbefore hb0)

/-- **Every careful step keeps the invariant.** -/
theorem step (hstep : s.Step e s') (careful : s.Careful e) : s'.Kept where
  toTracked := h.toTracked.step hstep
  pointer := h.step_pointer hstep careful
  unlinked := h.step_unlinked hstep
  accepted := h.step_accepted hstep
  acceptedOne := h.step_acceptedOne hstep
  taken := h.step_taken hstep
  awaiting := h.step_awaiting hstep
  stage := h.step_stage hstep
  own := h.step_own hstep
  alive := h.step_alive hstep
  exclusive := h.step_exclusive hstep
  lastNodes := h.step_lastNodes hstep
  tids := h.step_tids hstep
  released := h.step_released hstep

end Kept

end Lib

end Pebbles.ThreadLib
