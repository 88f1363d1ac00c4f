import Pebbles.Libthread.ThreadBlocks

/-! # The threads of the `thread_t`s

In every run a thread has one `thread_t`, one thread at most takes the branch of the last thread,
and a thread that exits finds its own `thread_t`. -/

namespace Pebbles.ThreadLib

open Monitors Transition

/-! ## How the places follow each other -/

namespace Pc

variable {p q : Pc}

theorem Flow.createInit_back {base : Nat} {c : Int} (h : Flow p q) (hq : q = .createInit base c) :
    p = .createInit base c ∨ p = .createFork base := by
  cases h.edge <;> simp_all

theorem Flow.exitUnlock_back {v : Status} (h : Flow p q) (hq : q = .exitUnlock v none) :
    p = .exitUnlock v none ∨ p = .exitCount v := by
  cases h.edge <;> simp_all

theorem Flow.fault_back (h : Flow p q) (hq : q = .fault) :
    p = .fault ∨ ∃ v, p = .exitUnlock v none := by
  cases h.edge <;> simp_all

end Pc

namespace Lib

variable {s s' : Lib} {e : Event}

/-- **A new `thread_t`** is of the thread that its maker has made. -/
theorem Effect.made_owner (h : s.Effect e s') {b : Nat} (hold : s.made ≤ b) (hnew : b < s'.made) :
    ∃ t base c, e = .go t ∧ s.pc t = .createInit base c ∧ s'.pc t = .createLockList b c ∧
      b = s.made ∧ s'.owner b = c := by
  cases h with
  | @init t c base here =>
      obtain rfl : b = s.made := by
        have hlt : b < s.made + 1 := hnew
        omega
      exact ⟨t, base, c, rfl, here, Function.update_self .., rfl, Function.update_self ..⟩
  | _ => exact absurd hnew (Nat.not_lt.mpr hold)

/-- **Whose a `thread_t` is**, and who is the last thread. -/
structure Owned (s : Lib) : Prop where
  /-- The thread of a `thread_t` was made. -/
  born : ∀ b, b < s.made → 0 ≤ s.owner b → (s.pc (s.owner b)).phase ≠ .absent
  /-- A new thread has no `thread_t` yet. -/
  unmade : ∀ t base c, s.pc t = .createInit base c → 0 ≤ c → ∀ b, b < s.made → s.owner b ≠ c
  /-- A thread has one `thread_t`. -/
  one : ∀ b b', b < s.made → b' < s.made → s.owner b = s.owner b' → 0 ≤ s.owner b → b = b'
  /-- There is one last thread. -/
  lastOne : ∀ x ∈ s.last, ∀ y ∈ s.last, x = y
  /-- `thr_exit` finds its `thread_t`. -/
  found : ∀ t v, s.pc t ≠ .exitUnlock v none
  /-- There is no fault. -/
  sane : ∀ t, s.pc t ≠ .fault

namespace Owned

variable (ho : s.Owned) (h : s.Sound)

include ho h

theorem step_born (step : s.Step e s') (b : Nat) (hb : b < s'.made) (hpos : 0 ≤ s'.owner b) :
    (s'.pc (s'.owner b)).phase ≠ .absent := by
  have heffect := effect_of_step step
  have keep : ∀ x, (s.pc x).phase ≠ .absent → (s'.pc x).phase ≠ .absent :=
    fun x hx habsent => hx ((heffect.flow x).absent_back habsent)
  by_cases hold : b < s.made
  · rw [heffect.owner_eq hold] at hpos ⊢
    exact keep _ (ho.born b hold hpos)
  · obtain ⟨t, base, c, -, hinit, -, -, howner⟩ := heffect.made_owner (Nat.not_lt.mp hold) hb
    rw [howner] at hpos ⊢
    apply keep
    rw [(h.making t c (by rw [hinit]; rfl) hpos).1]
    exact Phase.noConfusion

theorem step_unmade (step : s.Step e s') (t : Int) (base : Nat) (c : Int)
    (ht : s'.pc t = .createInit base c) (hpos : 0 ≤ c) (b : Nat) (hb : b < s'.made) :
    s'.owner b ≠ c := by
  have heffect := effect_of_step step
  rcases (heffect.flow t).createInit_back ht with hstay | hfork
  · by_cases hold : b < s.made
    · rw [heffect.owner_eq hold]
      exact ho.unmade t base c hstay hpos b hold
    · rintro howner
      obtain ⟨x, base', c', -, hinit, hlock, -, howner'⟩ := heffect.made_owner (Nat.not_lt.mp hold) hb
      obtain rfl : c' = c := howner'.symm.trans howner
      -- a thread has one maker
      obtain rfl := (h.making t c' (by rw [hstay]; rfl) hpos).2.2 x (by rw [hinit]; rfl)
      rw [hlock] at ht
      cases ht
  · obtain ⟨-, rfl, hnew⟩ := forks step hfork ht
    by_cases hold : b < s.made
    · rw [heffect.owner_eq hold]
      rintro rfl
      exact ho.born b hold hpos (by rw [(hnew hpos).1]; rfl)
    · obtain ⟨x, base', c', hevent, -⟩ := heffect.made_owner (Nat.not_lt.mp hold) hb
      cases hevent

omit h in
theorem step_one (step : s.Step e s') (b b' : Nat) (hb : b < s'.made) (hb' : b' < s'.made)
    (hsame : s'.owner b = s'.owner b') (hpos : 0 ≤ s'.owner b) : b = b' := by
  have heffect := effect_of_step step
  -- a new `thread_t` and an old one
  have hdiff : ∀ d d', s.made ≤ d → d < s'.made → d' < s.made → 0 ≤ s'.owner d →
      s'.owner d ≠ s'.owner d' := by
    intro d d' hnew hd hd' hdpos howner
    obtain ⟨t, base, c, -, hinit, -, -, hc⟩ := heffect.made_owner hnew hd
    rw [heffect.owner_eq hd', hc] at howner
    rw [hc] at hdpos
    exact ho.unmade t base c hinit hdpos d' hd' howner.symm
  by_cases hold : b < s.made
  · by_cases hold' : b' < s.made
    · rw [heffect.owner_eq hold, heffect.owner_eq hold'] at hsame
      rw [heffect.owner_eq hold] at hpos
      exact ho.one b b' hold hold' hsame hpos
    · exact absurd hsame.symm (hdiff b' b (Nat.not_lt.mp hold') hb' hold (hsame ▸ hpos))
  · by_cases hold' : b' < s.made
    · exact absurd hsame (hdiff b b' (Nat.not_lt.mp hold) hb hold' hpos)
    · obtain ⟨-, -, -, -, -, -, rfl, -⟩ := heffect.made_owner (Nat.not_lt.mp hold) hb
      obtain ⟨-, -, -, -, -, -, rfl, -⟩ := heffect.made_owner (Nat.not_lt.mp hold') hb'
      rfl

theorem step_lastOne (step : s.Step e s') (x : Int) (hx : x ∈ s'.last) (y : Int) (hy : y ∈ s'.last) :
    x = y := by
  rcases (effect_of_step step).last_eq with hsame | ⟨t, v, hcount, -, -, hcons⟩
  · rw [hsame] at hx hy
    exact ho.lastOne x hx y hy
  · rw [hcons, h.last_eq_nil (Or.inr (by rw [hcount]; rfl)), List.mem_singleton] at hx hy
    rw [hx, hy]

theorem step_found (step : s.Step e s') (t : Int) (v : Status) : s'.pc t ≠ .exitUnlock v none := by
  intro ht
  rcases ((effect_of_step step).flow t).exitUnlock_back ht with hstay | hcount
  · exact ho.found t v hstay
  · obtain ⟨-, -, hfound, -⟩ := counted step hcount ht
    -- a thread that runs is in the list
    obtain ⟨b, hb, -⟩ := h.running t (by rw [hcount]; rfl)
    rw [hfound] at hb
    cases hb

omit h in
theorem step_sane (step : s.Step e s') (t : Int) : s'.pc t ≠ .fault := by
  intro ht
  rcases ((effect_of_step step).flow t).fault_back ht with hstay | ⟨v, hunlock⟩
  · exact ho.sane t hstay
  · exact ho.found t v hunlock

/-- **Every step keeps the owners.** -/
theorem step (hstep : s.Step e s') : s'.Owned where
  born := ho.step_born h hstep
  unmade := ho.step_unmade h hstep
  one := ho.step_one hstep
  lastOne := ho.step_lastOne h hstep
  found := ho.step_found h hstep
  sane := ho.step_sane hstep

end Owned

/-- At the start. -/
theorem owned_init (root : Nat) (memory : ThreadT) : (init root memory).Owned where
  born b hb hpos := by
    have huser : (init root memory).pc root = .user := if_pos rfl
    show ((init root memory).pc root).phase ≠ _
    rw [huser]
    exact Phase.noConfusion
  unmade t base c ht := by
    rcases init_plain root memory t with h | h <;> rw [h] at ht <;> cases ht
  one b b' hb hb' _ _ := by
    have hone : b < 1 := hb
    have hone' : b' < 1 := hb'
    omega
  lastOne x hx := by cases hx
  found t v ht := by
    rcases init_plain root memory t with h | h <;> rw [h] at ht <;> cases ht
  sane t ht := by
    rcases init_plain root memory t with h | h <;> rw [h] at ht <;> cases ht

end Lib

end Pebbles.ThreadLib
