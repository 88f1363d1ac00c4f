import Pebbles.Libthread.ThreadStacks

/-! # The release of a thread's resources

In every run with careful reaping the memory and the stack of a thread are released after their last
use. Without care they are not: `thr_exit` stores `THREAD_EXIT` while the thread still runs on its
stack. -/

namespace Pebbles.ThreadLib

open Monitors Transition

namespace Lib

variable {s s' : Lib} {e : Event}

/-- Where the `thread_t`s that a thread uses come from. -/
theorem touches_cases {t : Int} {b : Nat} (hb : b ∈ s.touches t) :
    (∃ tid, (s.pc t).target = some (tid, b)) ∨ (s.pc t).own = some b ∨
      (s.pc t).lastBlock = some b ∨ (∃ v c, s.pc t = .exitCount v ∧ (c, b) ∈ s.nodes) ∨
      (∃ c, s.pc t = .lastNext ∧ (c, b) ∈ s.nodes) := by
  have hnode : b ∈ s.nodes.map Prod.snd → ∃ c, (c, b) ∈ s.nodes := by
    intro hmem
    obtain ⟨n, hn, rfl⟩ := List.mem_map.mp hmem
    exact ⟨n.1, hn⟩
  unfold touches at hb
  split at hb
  case h_17 here =>
    obtain ⟨c, hc⟩ := hnode hb
    exact Or.inr (Or.inr (Or.inr (Or.inl ⟨_, c, here, hc⟩)))
  case h_18 here =>
    obtain ⟨c, hc⟩ := hnode (List.mem_of_mem_take hb)
    exact Or.inr (Or.inr (Or.inr (Or.inr ⟨c, here, hc⟩)))
  case h_19 => cases hb
  all_goals
    rename_i here
    obtain rfl := List.mem_singleton.mp hb
    rw [here]
    simp [Pc.target, Pc.own, Pc.lastBlock]

namespace Kept

variable (h : s.Kept)

include h

/-- **Nothing is used after it was freed.** -/
theorem used {t : Int} (careful : s.Careful (.go t)) {b : Nat} (hb : b ∈ s.touches t) :
    s.reaped b ≠ .freed := by
  rcases touches_cases hb with ⟨tid, htarget⟩ | hown | hlast | ⟨v, c, hcount, hmem⟩ | ⟨c, hnext, hmem⟩
  · exact h.pointer t tid b htarget
  · rw [h.own t b hown]
    exact Reaping.noConfusion
  · obtain ⟨r, hr⟩ := Pc.reapStage_of_lastBlock hlast
    rw [h.stage t b r hr]
    exact (Pc.reapStage_ne hr).2
  · intro hfreed
    have hnil := h.sound.last_eq_nil (x := t) (Or.inr (by rw [hcount]; rfl))
    obtain ⟨x, hx⟩ := h.unlinked (c, b) hmem hfreed hnil
    rw [h.careful_count careful hcount x] at hx
    cases hx
  · have hlast := h.sound.lasting_last (t := t) (by rw [hnext]; rfl)
    have hno : s.reaped b = .no := (h.lastNodes hlast (c, b) hmem).2
    rw [hno]
    exact Reaping.noConfusion

/-- **Nothing is reaped twice.** -/
theorem once {t : Int} {b : Nat} (hb : s.beginsReap t = some b) : s.reaped b = .no := by
  unfold beginsReap at hb
  split at hb
  · next here =>
      obtain rfl := Option.some.inj hb
      exact h.awaiting t _ (by rw [here]; rfl)
  · next here =>
      have hlast := h.sound.lasting_last (t := t) (by rw [here]; rfl)
      have hmem := List.mem_of_head? (Option.eq_some_of_filter_eq_some hb)
      obtain ⟨n, hn, rfl⟩ := List.mem_map.mp hmem
      exact (h.lastNodes hlast n hn).2
  · cases hb

end Kept

/-- At the start. -/
theorem kept_init {root : Nat} (positive : 0 < root) (memory : ThreadT) :
    (init root memory).Kept := by
  have hpc := init_plain root memory
  refine ⟨tracked_init positive memory, ?_, ?_, ?_, ?_, ?_, ?_, ?_, ?_, ?_, ?_, ?_, ?_, ?_⟩
  · intro t tid b ht
    rcases hpc t with h | h <;> rw [h] at ht <;> cases ht
  · intro n hn hfreed
    cases hfreed
  · intro t b ht
    rcases hpc t with h | h <;> rw [h] at ht <;> cases ht
  · intro t x b ht
    rcases hpc t with h | h <;> rw [h] at ht <;> cases ht
  · intro b hno
    exact absurd rfl hno
  · intro t b ht
    rfl
  · intro t b r ht
    rcases hpc t with h | h <;> rw [h] at ht <;> cases ht
  · intro t b ht
    rfl
  · intro b hb hno hdead
    cases hdead
  · intro b hb hno x hx
    rcases hpc x with h | h <;> rw [h] at hx <;> cases hx
  · intro hlast
    exact absurd rfl hlast
  · intro b hb hb0
    have hone : b < 1 := hb
    omega
  · intro t b r ht
    rcases hpc t with h | h <;> rw [h] at ht <;> cases ht

theorem stacked_init (root : Nat) (memory : ThreadT) : (init root memory).Stacked where
  made := Nat.zero_lt_one
  creating t base ht := by
    rcases init_plain root memory t with h | h <;> rw [h] at ht <;> cases ht
  blocks b hb := by
    have hone : b < 1 := hb.1
    exact absurd hb.2.1 (by omega)
  held x base hx := by cases hx

/-- **Resources are released after their last use**, in every run with careful reaping. -/
theorem safe_of_careful {root : Nat} {memory : ThreadT} {es : List Event} (positive : 0 < root)
    (run : Run (Guarded Step Careful) (init root memory) es s) :
    Run (Guarded Step Safe) (init root memory) es s := by
  refine run.mono_of_invariant (I := fun s => s.Kept ∧ s.Stacked)
    ⟨kept_init positive memory, stacked_init root memory⟩ ?_ ?_
  · rintro s e s' ⟨h, hs⟩ ⟨step, careful⟩
    exact ⟨h.step step careful, hs.step h step careful⟩
  · rintro s e s' ⟨h, hs⟩ ⟨step, careful⟩
    refine ⟨step, ?_, ?_, ?_⟩
    · rintro t rfl b hb
      exact h.used careful hb
    · rintro t b rfl hb
      exact h.once hb
    · rintro t b rfl hb x hx
      exact hs.stack_safe h careful hb hx

/-- Thread 1 joins thread 2, which has vanished before its stack is removed. -/
theorem safe_of_careful_second : ∃ s : Lib,
    Run (Guarded Step Safe) (init 1 ⟨0, 0, .running, ⟨0⟩, 0⟩) joinSecond s ∧ s.reaped 1 = .freed := by
  have hrun : (runList (fun s e => if s.careful e then s.next e else none)
      (init 1 ⟨0, 0, .running, ⟨0⟩, 0⟩) joinSecond).map (fun s => s.reaped 1) = some .freed := by
    decide +kernel
  obtain ⟨s, hs, hreaped⟩ := Option.map_eq_some_iff.mp hrun
  exact ⟨s, safe_of_careful Nat.one_pos (Run.guarded_of_runList (fun _ _ h => h) hs), hreaped⟩

/-- Thread 2 has released its last mutex and has not called `vanish` when thread 1 comes to
`remove_pages`. -/
def earlyRemoval : List Event :=
  [.create 1, .go 1, .probe 1 100, .go 1, .fork 1 2, .go 1, .go 1, .go 1, .go 1, .go 1,
    .go 2, .go 2, .go 2, .join 1 2, .go 1, .go 1, .go 1, .go 1, .go 1, .go 1, .go 1,
    .exit 2 ⟨7⟩, .go 2, .go 2, .go 2, .go 2, .go 2, .go 2, .go 2,
    .go 1, .go 1, .go 1, .go 1]

/-- **A stack is removed under its thread.** -/
theorem removed_under_thread : ∃ s s' : Lib,
    Run Step (init 1 ⟨0, 0, .running, ⟨0⟩, 0⟩) earlyRemoval s ∧ s.Step (.go 1) s' ∧
      ¬s.Safe (.go 1) := by
  have hrun : (runList next (init 1 ⟨0, 0, .running, ⟨0⟩, 0⟩) earlyRemoval).map
      (fun s => (s.pc 1, s.pc 2, s.stack 2, (s.block 1).base)) =
        some (.reapRemove 2 1 ⟨7⟩, .exitVanish, some 100, 100) := by decide +kernel
  obtain ⟨s, hs, hstate⟩ := Option.map_eq_some_iff.mp hrun
  simp only [Prod.mk.injEq] at hstate
  obtain ⟨h1, h2, hstack, hbase⟩ := hstate
  refine ⟨s, (s.removePages 1).move 1 (.reapFree 2 1 ⟨7⟩), Run.of_runList hs, ?_, ?_⟩
  · simp only [Step, next, h1, Pc.op, code]
  · intro hsafe
    have hended := hsafe.stack 1 1 rfl (by simp only [removesStack, h1]) 2 (by rw [hstack, hbase])
    rw [h2] at hended
    cases hended

end Lib

end Pebbles.ThreadLib
