import Pebbles.Libthread.ThreadReaping

/-! # The stacks of the threads

A stack is mapped by `thr_create` and belongs to the `thread_t` that is made with it, until
`thr_reap` removes it. -/

namespace Pebbles.ThreadLib

open Monitors Transition

/-! ## What a place says -/

namespace Pc

/-- The stack that `thr_create` has mapped and that has no `thread_t` yet. -/
def newBase : Pc → Option Nat
  | createUnlock base | createFork base | createInit base _ => some base
  | _ => none

variable {p q : Pc} {base : Nat}

theorem Flow.newBase_back (h : Flow p q) (hq : q.newBase = some base) :
    p.newBase = some base ∨ p = .createProbe ∧ q = .createUnlock base := by
  cases h.edge <;> simp_all [Pc.newBase]

theorem Flow.createInit_keep {c : Int} (h : Flow p q) (hp : p = .createInit base c) :
    q = .createInit base c ∨ ∃ b, q = .createLockList b c := by
  cases h.edge <;> simp_all

theorem Flow.ended_keep (h : Flow p q) (hp : p.ended = true) : q.ended = true := by
  cases h.edge <;> simp_all [Pc.ended]

theorem ended_of_released (h : p.released = true) : p = .exitVanish ∨ p.ended = true := by
  unfold released at h
  split at h <;> simp_all [ended]

end Pc

namespace Lib

variable {s s' : Lib} {e : Event}

/-! ## What a step does to the stacks -/

/-- **Who maps and removes pages.** -/
theorem Effect.mapped (h : s.Effect e s') :
    s'.mapped = s.mapped ∨
      (∃ t base, s.mapped base = none ∧ s'.mapped = Function.update s.mapped base (some (.creator t))) ∨
      (∃ t base c, s.pc t = .createInit base c ∧ s'.pc t = .createLockList s.made c ∧
        s'.mapped = Function.update s.mapped base (some (.block s.made))) ∨
      (∃ t b, e = .go t ∧ s.removesStack t = some b ∧ s'.reaped b = .removed ∧
        s'.mapped = Function.update s.mapped (s.block b).base none) := by
  cases h with
  | probe here room => exact Or.inr (Or.inl ⟨_, _, room, rfl⟩)
  | init here => exact Or.inr (Or.inr (Or.inl ⟨_, _, _, here, Function.update_self .., rfl⟩))
  | @remove t tid b v here =>
      refine Or.inr (Or.inr (Or.inr ⟨t, b, rfl, ?_, Function.update_self .., rfl⟩))
      simp only [removesStack, here]
  | @lastRemove t b here =>
      refine Or.inr (Or.inr (Or.inr ⟨t, b, rfl, ?_, Function.update_self .., rfl⟩))
      simp only [removesStack, here]
  | _ => exact Or.inl rfl

/-- A thread gets its stack when it is made. -/
theorem Effect.stack (h : s.Effect e s') : s'.stack = s.stack ∨
    ∃ t base c, s'.pc t = .createInit base c ∧ s'.stack = Function.update s.stack c (some base) := by
  cases h with
  | fork => exact Or.inr ⟨_, _, _, Function.update_self .., rfl⟩
  | _ => exact Or.inl rfl

/-- A stack is mapped. -/
theorem probed {t : Int} {base : Nat} (step : s.Step e s') (here : s.pc t = .createProbe)
    (there : s'.pc t = .createUnlock base) :
    s'.mapped = Function.update s.mapped base (some (.creator t)) := by
  have heffect := effect_of_step step
  have hactor := heffect.actor (x := t) (by rw [here, there]; exact Pc.noConfusion)
  rw [here, there] at hactor
  have hactor : e.actor = some t := by
    rcases hactor with hactor | hwake | habsent
    · exact hactor
    · cases hwake
    · cases habsent
  cases e with
  | probe t' base' =>
      obtain rfl : t' = t := Option.some.inj hactor
      cases heffect with
      | probe here' room =>
          have hplace : Pc.createUnlock base' = .createUnlock base :=
            (Function.update_self t' _ s.pc).symm.trans there
          rw [← Pc.createUnlock.inj hplace]
  | reuse => cases hactor
  | create t' | join t' | exit t' | fork t' | go t' =>
      obtain rfl : t' = t := Option.some.inj hactor
      simp [Step, next, here, Pc.op, code] at step

/-! ## The invariant -/

/-- The stack of a `thread_t` has not been removed. -/
def HasStack (s : Lib) (b : Nat) : Prop :=
  b < s.made ∧ b ≠ 0 ∧ (s.reaped b = .no ∨ s.reaped b = .destroyed)

/-- **Whose the stacks are.** -/
structure Stacked (s : Lib) : Prop where
  /-- The first `thread_t` is there. -/
  made : 0 < s.made
  /-- A stack that has no `thread_t` yet. -/
  creating : ∀ t base, (s.pc t).newBase = some base → s.mapped base = some (.creator t)
  /-- A stack that has a `thread_t`. -/
  blocks : ∀ b, s.HasStack b → s.mapped (s.block b).base = some (.block b)
  /-- A created thread that has not vanished has its stack. -/
  held : ∀ x base, s.stack x = some base → (s.pc x).ended ≠ true →
    (∃ t, s.pc t = .createInit base x) ∨
      ∃ b, s.HasStack b ∧ s.owner b = x ∧ (s.block b).base = base

/-- Where a stack is removed. -/
theorem careful_remove {t : Int} {b : Nat} (hc : s.Careful (.go t))
    (ht : s.removesStack t = some b) :
    (b = 0 → s.mapped (s.block 0).base = none) ∧ (b ≠ 0 → s.pc (s.owner b) ≠ .exitVanish) := by
  unfold removesStack at ht
  split at ht
  · next here =>
      obtain rfl := Option.some.inj ht
      simp only [Careful, careful, here] at hc
      split_ifs at hc with hb
      · exact ⟨fun _ => Option.isNone_iff_eq_none.mp hc, fun hne => absurd hb hne⟩
      · exact ⟨fun h0 => absurd h0 hb, fun _ => of_decide_eq_true hc⟩
  · next here =>
      obtain rfl := Option.some.inj ht
      simp only [Careful, careful, here] at hc
      split_ifs at hc with hb
      · exact ⟨fun _ => Option.isNone_iff_eq_none.mp hc, fun hne => absurd hb hne⟩
      · exact ⟨fun h0 => absurd h0 hb, fun _ => of_decide_eq_true hc⟩
  · cases ht

theorem removesStack_of_stage {t : Int} {b : Nat}
    (ht : (s.pc t).reapStage = some (b, .destroyed)) : s.removesStack t = some b := by
  rcases Pc.removing_of_reapStage ht with ⟨tid, v, hremove⟩ | hremove
  · simp only [removesStack, hremove]
  · simp only [removesStack, hremove]

theorem stage_of_removesStack {t : Int} {b : Nat} (ht : s.removesStack t = some b) :
    (s.pc t).reapStage = some (b, .destroyed) := by
  unfold removesStack at ht
  split at ht
  · next here =>
      obtain rfl := Option.some.inj ht
      rw [here]
      rfl
  · next here =>
      obtain rfl := Option.some.inj ht
      rw [here]
      rfl
  · cases ht

namespace Stacked

variable (hs : s.Stacked) (h : s.Kept)

include hs h

/-- **Which stack is removed** by a careful step: that of a `thread_t` whose thread has vanished, or
none. -/
theorem removed {t : Int} {b : Nat} (hc : s.Careful (.go t)) (ht : s.removesStack t = some b) :
    s.mapped (s.block b).base = none ∨
      s.mapped (s.block b).base = some (.block b) ∧ b ≠ 0 ∧ (s.pc (s.owner b)).ended = true := by
  obtain ⟨hfirst, hvanish⟩ := careful_remove hc ht
  have hstage := stage_of_removesStack ht
  by_cases hb0 : b = 0
  · subst hb0
    exact Or.inl (hfirst rfl)
  · have hstack : s.HasStack b := ⟨h.lt_of_reapStage hstage, hb0, Or.inr (h.stage t b _ hstage)⟩
    refine Or.inr ⟨hs.blocks b hstack, hb0, ?_⟩
    exact (Pc.ended_of_released (h.released t b _ hstage hb0)).resolve_left (hvanish hb0)

/-- **A stack is removed when its thread has vanished.** -/
theorem stack_safe {t : Int} {b : Nat} (hc : s.Careful (.go t)) (ht : s.removesStack t = some b)
    {x : Int} (hx : s.stack x = some (s.block b).base) : (s.pc x).ended = true := by
  by_contra hend
  rcases hs.held x _ hx hend with ⟨y, hy⟩ | ⟨b', hstack, howner, hbase⟩
  · have hcreator := hs.creating y _ (by rw [hy]; rfl)
    rcases hs.removed h hc ht with hnone | ⟨hblock, -⟩
    · rw [hnone] at hcreator
      cases hcreator
    · rw [hblock] at hcreator
      cases hcreator
  · have hblock' := hs.blocks b' hstack
    rw [hbase] at hblock'
    rcases hs.removed h hc ht with hnone | ⟨hblock, -, hended⟩
    · rw [hnone] at hblock'
      cases hblock'
    · rw [hblock] at hblock'
      obtain rfl := Holder.block.inj (Option.some.inj hblock')
      rw [howner] at hended
      exact hend hended

theorem step_creating (step : s.Step e s') (careful : s.Careful e) (t : Int) (base : Nat)
    (ht : (s'.pc t).newBase = some base) : s'.mapped base = some (.creator t) := by
  have heffect := effect_of_step step
  rcases (heffect.flow t).newBase_back ht with hold | ⟨hprobe, hunlock⟩
  · have hcreator := hs.creating t base hold
    rcases heffect.mapped with hsame | ⟨x, base', hnone, hmapped⟩ |
      ⟨x, base', c, hinit, hlock, hmapped⟩ | ⟨x, b, rfl, hremove, -, hmapped⟩
    · rw [hsame, hcreator]
    · have hne : base ≠ base' := by
        rintro rfl
        rw [hnone] at hcreator
        cases hcreator
      rw [hmapped, Function.update_of_ne hne, hcreator]
    · have hne : base ≠ base' := by
        rintro rfl
        rw [hs.creating x base (by rw [hinit]; rfl)] at hcreator
        obtain rfl := Holder.creator.inj (Option.some.inj hcreator)
        rw [hlock] at ht
        cases ht
      rw [hmapped, Function.update_of_ne hne, hcreator]
    · have hne : base ≠ (s.block b).base := by
        rintro rfl
        rcases hs.removed h careful hremove with hnone | ⟨hblock, -⟩
        · rw [hnone] at hcreator
          cases hcreator
        · rw [hblock] at hcreator
          cases hcreator
      rw [hmapped, Function.update_of_ne hne, hcreator]
  · rw [probed step hprobe hunlock, Function.update_self]

omit hs in
/-- Who has a stack has had one, or is new. -/
theorem hasStack_back (step : s.Step e s') {b : Nat} (hb : s'.HasStack b) :
    s.HasStack b ∧ (s'.block b).base = (s.block b).base ∨ s.made ≤ b := by
  obtain ⟨hmade, hb0, hreaped⟩ := hb
  by_cases hold : b < s.made
  swap
  · exact Or.inr (Nat.not_lt.mp hold)
  have hbefore : s.reaped b = .no ∨ s.reaped b = .destroyed := by
    rcases (effect_of_step step).reaps b with hsame | ⟨-, hx, -⟩ | ⟨-, hx, hfirst, -, -⟩ | ⟨-, hx, -⟩ |
      ⟨-, -, -, hafter⟩ | ⟨-, -, -, hafter⟩
    · rwa [hsame] at hreaped
    · exact Or.inl (h.awaiting _ b (by rw [hx]; rfl))
    · have hlast := h.sound.lasting_last (by rw [hx]; rfl)
      exact Or.inl (h.lastNodes hlast _ (by rw [hfirst]; exact List.mem_cons_self)).2
    · exact Or.inr (h.stage _ b _ hx)
    · rw [hafter] at hreaped
      rcases hreaped with hreaped | hreaped <;> cases hreaped
    · rw [hafter] at hreaped
      rcases hreaped with hreaped | hreaped <;> cases hreaped
  have hfreed : s.reaped b ≠ .freed := by
    rcases hbefore with hno | hdestroyed
    · rw [hno]
      exact Reaping.noConfusion
    · rw [hdestroyed]
      exact Reaping.noConfusion
  exact Or.inl ⟨⟨hold, hb0, hbefore⟩, ((effect_of_step step).fields hold hfreed).2.1⟩

theorem step_blocks (step : s.Step e s') (careful : s.Careful e) (b : Nat) (hb : s'.HasStack b) :
    s'.mapped (s'.block b).base = some (.block b) := by
  have heffect := effect_of_step step
  rcases hasStack_back h step hb with ⟨hold, hbase⟩ | hnew
  · have hblock := hs.blocks b hold
    rw [hbase]
    rcases heffect.mapped with hsame | ⟨x, base', hnone, hmapped⟩ |
      ⟨x, base', c, hinit, hlock, hmapped⟩ | ⟨x, b', rfl, hremove, hremoved, hmapped⟩
    · rw [hsame, hblock]
    · have hne : (s.block b).base ≠ base' := by
        rintro rfl
        rw [hnone] at hblock
        cases hblock
      rw [hmapped, Function.update_of_ne hne, hblock]
    · have hne : (s.block b).base ≠ base' := by
        rintro rfl
        rw [hs.creating x _ (by rw [hinit]; rfl)] at hblock
        cases hblock
      rw [hmapped, Function.update_of_ne hne, hblock]
    · have hne : (s.block b).base ≠ (s.block b').base := by
        intro hsame
        rw [hsame] at hblock
        rcases hs.removed h careful hremove with hnone | ⟨hblock', -⟩
        · rw [hnone] at hblock
          cases hblock
        · rw [hblock] at hblock'
          obtain rfl := Holder.block.inj (Option.some.inj hblock')
          rcases hb.2.2 with hreaped | hreaped <;> rw [hremoved] at hreaped <;> cases hreaped
      rw [hmapped, Function.update_of_ne hne, hblock]
  · -- a new `thread_t` takes the stack of its maker
    have hmade := hb.1
    cases heffect with
    | @init t c base here =>
        obtain rfl : b = s.made := by
          have hlt : b < s.made + 1 := hmade
          omega
        show Function.update s.mapped base _ (Function.update s.block s.made _ s.made).base = _
        rw [Function.update_self, Function.update_self]
    | _ => exact absurd hmade (Nat.not_lt.mpr hnew)

theorem step_held (step : s.Step e s') (careful : s.Careful e) (x : Int) (base : Nat)
    (hx : s'.stack x = some base) (hend : (s'.pc x).ended ≠ true) :
    (∃ t, s'.pc t = .createInit base x) ∨
      ∃ b, s'.HasStack b ∧ s'.owner b = x ∧ (s'.block b).base = base := by
  have heffect := effect_of_step step
  have hold : s.stack x = some base → (∃ t, s'.pc t = .createInit base x) ∨
      ∃ b, s'.HasStack b ∧ s'.owner b = x ∧ (s'.block b).base = base := by
    intro hstack
    have hbefore : (s.pc x).ended ≠ true := fun hended => hend ((heffect.flow x).ended_keep hended)
    rcases hs.held x base hstack hbefore with ⟨t, ht⟩ | ⟨b, ⟨hb, hb0, hreaped⟩, howner, hbase⟩
    · rcases (heffect.flow t).createInit_keep ht with hstill | ⟨b, hlock⟩
      · exact Or.inl ⟨t, hstill⟩
      · -- the `thread_t` is made in this step
        obtain ⟨-, hcode⟩ := code_of_edge step ht hlock Pc.noConfusion rfl
        simp only [code, ht] at hcode
        obtain rfl := Option.some.inj hcode
        refine Or.inr ⟨s.made, ⟨Nat.lt_succ_self _, Nat.ne_of_gt hs.made, Or.inl ?_⟩,
          Function.update_self .., ?_⟩
        · exact h.sound.fresh s.made (Nat.le_refl _)
        · rw [move_block, newThread_block, Function.update_self]
    · have hfreed : s.reaped b ≠ .freed := by
        rcases hreaped with hno | hdestroyed
        · rw [hno]
          exact Reaping.noConfusion
        · rw [hdestroyed]
          exact Reaping.noConfusion
      refine Or.inr ⟨b, ⟨Nat.lt_of_lt_of_le hb heffect.made_le, hb0, ?_⟩,
        (heffect.owner_eq hb).trans howner, (heffect.fields hb hfreed).2.1.trans hbase⟩
      rcases heffect.reaps b with hsame | ⟨-, -, -, -, hafter⟩ | ⟨-, -, -, -, hafter⟩ |
        ⟨rfl, hremove, -, -⟩ | ⟨-, hfree, -⟩ | ⟨-, hfree, -⟩
      · rwa [hsame]
      · exact Or.inr hafter
      · exact Or.inr hafter
      · have hremoves := removesStack_of_stage hremove
        exact absurd (hs.stack_safe h careful hremoves (by rw [hstack, hbase])) hbefore
      · rw [h.stage _ b .removed (by rw [hfree]; rfl)] at hreaped
        rcases hreaped with hreaped | hreaped <;> cases hreaped
      · rw [h.stage _ b .removed (by rw [hfree]; rfl)] at hreaped
        rcases hreaped with hreaped | hreaped <;> cases hreaped
  rcases heffect.stack with hsame | ⟨t, base', c, hinit, hstack⟩
  · exact hold (by rwa [← hsame])
  · by_cases hxc : x = c
    · subst hxc
      rw [hstack, Function.update_self] at hx
      rw [Option.some.inj hx] at hinit
      exact Or.inl ⟨t, hinit⟩
    · rw [hstack, Function.update_of_ne hxc] at hx
      exact hold hx

/-- **Every careful step keeps the stacks.** -/
theorem step (hstep : s.Step e s') (careful : s.Careful e) : s'.Stacked where
  made := Nat.lt_of_lt_of_le hs.made (effect_of_step hstep).made_le
  creating := hs.step_creating h hstep careful
  blocks := hs.step_blocks h hstep careful
  held := hs.step_held h hstep careful

end Stacked

end Lib

end Pebbles.ThreadLib
