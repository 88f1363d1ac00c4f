import Pebbles.Process.LooseQueues
import Pebbles.Process.NextThread

/-! # Sleeping threads

`sys_sleep` notes the tick and the duration, and every call of `schedule` first scans
`blocked_queue` for sleepers whose time has come. The scan follows the `next` field of the node it
has just moved to `runnable_queue`, where it is the last one, so it stops after the first sleeper it
wakes. The test adds and compares 32-bit numbers, either of which may have wrapped around. -/

namespace Pebbles

open DoublyLinked Transition

namespace Kernel

variable {k k' : Kernel} {hand run blk : List Nat} {t : Nat}

/-! ## The wake-up scan -/

/-- **Every sleeper whose time has come is woken** between `k` and `k'`: it is at the end of
`runnable_queue`, in the order of `blocked_queue`, the others are where they were, and the test
holds for nobody in `blocked_queue`. -/
structure SleepersWoken (k k' : Kernel) (hand run blk : List Nat) : Prop where
  /-- The two queues. -/
  queues : k'.Queued hand (run ++ blk.filter k.sleepOver) (blk.filter fun t => !k.sleepOver t)
  /-- The state of the woken threads. -/
  woken : ∀ t ∈ blk, k.sleepOver t = true → (k'.tcb t).state = .runnable
  /-- Nobody is left. -/
  left : ∀ t ∈ k'.members k'.blockedQueue, k'.sleepOver t = false

/-- The scan wakes the first sleeper whose time has come. -/
theorem Queued.wakeSleepers_eq (h : k.Queued hand run blk) :
    k.wakeSleepers =
      match blk.find? k.sleepOver with
      | some t => k.wake t
      | none => k :=
  (loose_exact.mpr h).wakeSleepers_eq

/-- Waking one thread does not change the test for another. -/
theorem sleepOver_wake {u : Nat} (hne : u ≠ t) : (k.wake t).sleepOver u = k.sleepOver u := by
  have htcb : (k.wake t).tcb u = k.tcb u := Function.update_of_ne hne _ _
  have hticks : (k.wake t).numTicks = k.numTicks := rfl
  simp only [sleepOver, htcb, hticks]

/-- Nobody's time has come. -/
theorem Queued.sleepersWoken_none (h : k.Queued hand run blk)
    (nobody : blk.filter k.sleepOver = []) : SleepersWoken k k hand run blk := by
  have hover : ∀ t ∈ blk, k.sleepOver t = false := by
    intro t ht
    simpa using List.filter_eq_nil_iff.mp nobody t ht
  have hall : (blk.filter fun t => !k.sleepOver t) = blk :=
    List.filter_eq_self.mpr fun t ht => by rw [hover t ht]; rfl
  refine ⟨?_, fun t ht due => ?_, fun t ht => ?_⟩
  · rwa [nobody, hall, List.append_nil]
  · rw [hover t ht] at due
    cases due
  · rw [h.members_blocked] at ht
    exact hover t ht

/-- Only the time of `t` has come. -/
theorem Queued.sleepersWoken_wake (h : k.Queued hand run blk)
    (only : blk.filter k.sleepOver = [t]) : SleepersWoken k (k.wake t) hand run blk := by
  have hmem : t ∈ blk.filter k.sleepOver := by
    rw [only]
    exact List.mem_singleton_self t
  obtain ⟨hblk, -⟩ := List.mem_filter.mp hmem
  have hother : ∀ u ∈ blk, u ≠ t → k.sleepOver u = false := by
    intro u hu hne
    by_contra hover
    have hin : u ∈ blk.filter k.sleepOver := List.mem_filter.mpr ⟨hu, by simpa using hover⟩
    rw [only] at hin
    exact hne (List.mem_singleton.mp hin)
  have hrest : blk.erase t = blk.filter fun u => !k.sleepOver u := by
    rw [h.blk_nodup.erase_eq_filter]
    refine List.filter_congr fun u hu => ?_
    by_cases hu' : u = t
    · subst hu'
      simp [(List.mem_filter.mp hmem).2]
    · simp [hu', hother u hu hu']
  have hq := (h.wake hblk).1
  rw [hrest] at hq
  refine ⟨by rwa [only], fun u hu due => ?_, fun u hu => ?_⟩
  · obtain rfl : u = t := by
      by_contra hne
      rw [hother u hu hne] at due
      cases due
    have htcb : (k.wake u).tcb u = { k.tcb u with state := .runnable } := Function.update_self _ _ _
    rw [htcb]
  · rw [hq.members_blocked] at hu
    obtain ⟨hu, hover⟩ := List.mem_filter.mp hu
    have hne : u ≠ t := by
      rintro rfl
      simp [(List.mem_filter.mp hmem).2] at hover
    rw [sleepOver_wake hne]
    exact hother u hu hne

/-- **The scan wakes every sleeper whose time has come** exactly when there is at most one. -/
theorem sleepersWoken_iff (h : k.Queued hand run blk) :
    SleepersWoken k k.wakeSleepers hand run blk ↔ (blk.filter k.sleepOver).length ≤ 1 := by
  rw [h.wakeSleepers_eq]
  cases hfind : blk.find? k.sleepOver with
  | none =>
      have hnobody : blk.filter k.sleepOver = [] :=
        List.filter_eq_nil_iff.mpr (List.find?_eq_none.mp hfind)
      refine ⟨fun _ => ?_, fun _ => h.sleepersWoken_none hnobody⟩
      rw [hnobody]
      exact Nat.zero_le 1
  | some t =>
      have hmem : t ∈ blk.filter k.sleepOver :=
        List.mem_filter.mpr ⟨List.mem_of_find?_eq_some hfind, List.find?_some hfind⟩
      constructor
      · intro hwoken
        -- a second sleeper would still be in the queue, and its time has come
        have hsame : blk.filter k.sleepOver ⊆ [t] := by
          intro u hu
          rw [List.mem_singleton]
          by_contra hne
          obtain ⟨hblk, hover⟩ := List.mem_filter.mp hu
          have hleft : u ∈ (k.wake t).members (k.wake t).blockedQueue := by
            rw [(h.wake (List.mem_of_find?_eq_some hfind)).1.members_blocked]
            exact (List.mem_erase_of_ne hne).mpr hblk
          have hnot := hwoken.left u hleft
          rw [sleepOver_wake hne, hover] at hnot
          cases hnot
        exact (List.subperm_of_subset (h.blk_nodup.filter _) hsame).length_le
      · intro hlength
        obtain ⟨u, hu⟩ := List.length_eq_one_iff.mp
          (Nat.le_antisymm hlength (List.length_pos_of_mem hmem))
        rw [hu] at hmem
        obtain rfl := List.mem_singleton.mp hmem
        exact h.sleepersWoken_wake hu

/-- The queues of a reachable kernel. -/
theorem Reaches.queued {as : List Action} (h : Reaches as k) :
    k.Queued [k.currentThread] (k.members k.runnableQueue) (k.members k.blockedQueue) := by
  obtain ⟨m, href, wf⟩ := h.represented
  have hq := href.queued wf.queues
  rwa [hq.members_runnable, hq.members_blocked, href.current]

/-- `init` sleeps for one tick, and two ticks have gone by. -/
def oneSleeper : Kernel := (trace [.call (.sleep 1), .timer, .timer]).2

/-- One sleeper is woken. -/
theorem sleepersWoken_iff_one :
    SleepersWoken oneSleeper oneSleeper.wakeSleepers [1] [] [2] := by
  have hreach : Reaches _ oneSleeper :=
    reaches_trace [.call (.sleep 1), .timer, .timer] (by decide +kernel)
  have hq : oneSleeper.Queued [1] [] [2] := hreach.queued
  exact (sleepersWoken_iff hq).mpr (by decide +kernel)

/-- `init` and a second thread of it sleep for one tick each, and two ticks have gone by. -/
def twoSleepers : Kernel :=
  (trace [.call .threadFork, .call (.sleep 1), .reschedule, .call (.sleep 1), .timer, .timer]).2

/-- **The second sleeper stays**: its time has come as well, and the scan leaves it in
`blocked_queue`. -/
theorem second_sleeper_stays :
    ∃ as, Reaches as twoSleepers ∧ twoSleepers.Queued [1] [] [2, 3] ∧
      twoSleepers.sleepOver 3 = true ∧
      3 ∈ twoSleepers.wakeSleepers.members twoSleepers.wakeSleepers.blockedQueue ∧
      ¬ SleepersWoken twoSleepers twoSleepers.wakeSleepers [1] [] [2, 3] := by
  have hreach : Reaches _ twoSleepers := reaches_trace [.call .threadFork, .call (.sleep 1),
    .reschedule, .call (.sleep 1), .timer, .timer] (by decide +kernel)
  have hq : twoSleepers.Queued [1] [] [2, 3] := hreach.queued
  have hleft : 3 ∈ twoSleepers.wakeSleepers.members twoSleepers.wakeSleepers.blockedQueue := by
    decide +kernel
  refine ⟨_, hreach, hq, by decide +kernel, hleft, fun hwoken => ?_⟩
  exact absurd (hwoken.left 3 hleft) (by decide +kernel)

/-! ## The test -/

/-- The counter `numTicks` after some more ticks, each of which increments it. -/
def ticksAfter (s : Nat) : Nat → Nat
  | 0 => s
  | e + 1 => (ticksAfter s e + 1) % 2 ^ 32

/-- The counter wraps around. -/
theorem ticksAfter_eq {s : Nat} (hs : s < 2 ^ 32) (e : Nat) : ticksAfter s e = (s + e) % 2 ^ 32 := by
  induction e with
  | zero => exact (Nat.mod_eq_of_lt hs).symm
  | succ e ih => rw [ticksAfter, ih, Nat.mod_add_mod, Nat.add_assoc]

/-- **The sleep lasts `d` ticks**: `e` ticks after its start the test does not hold yet when `e` is
less than `d`, and holds when `e` is more. -/
structure SleepLasts (k : Kernel) (t d e : Nat) : Prop where
  /-- Before the end. -/
  early : e < d → k.sleepOver t = false
  /-- After it. -/
  late : d < e → k.sleepOver t = true

/-- What `sys_sleep` notes. -/
theorem sleepSegment_eq {d : Int} (hd : 0 < d) :
    k.sleepSegment d = .schedules (k.setTcb k.currentThread { k.tcb k.currentThread with
      duration := d.toNat, startTicks := k.numTicks, state := .sleeping }) (-1) := by
  rw [sleepSegment, if_neg (by omega), if_neg (by omega)]

/-- The test, `e` ticks after a sleep of `d` ticks began. -/
theorem sleepOver_after {k1 : Kernel} {d e : Nat} (hs : k.numTicks < 2 ^ 32) (hd : 1 ≤ d)
    (sleeps : k.sleepSegment d = .schedules k1 (-1))
    (still : k'.tcb k.currentThread = k1.tcb k.currentThread)
    (ticks : k'.numTicks = ticksAfter k.numTicks e) :
    k'.sleepOver k.currentThread =
      decide ((k.numTicks + d) % 2 ^ 32 < (k.numTicks + e) % 2 ^ 32) := by
  rw [sleepSegment_eq (by omega)] at sleeps
  obtain ⟨rfl, -⟩ := Segment.schedules.inj sleeps
  have hnoted := still.trans (Function.update_self k.currentThread _ k.tcb)
  rw [ticksAfter_eq hs] at ticks
  simp [sleepOver, hnoted, ticks]

/-- **Sleeps and the wrap-around.** A thread begins to sleep for `d` ticks, and `e` ticks go by: the
test respects the duration exactly when the end of the sleep and the present tick have both wrapped
around or neither has, or when `e` is just `d`. -/
theorem sleepLasts_iff {k1 : Kernel} {d e : Nat} (hs : k.numTicks < 2 ^ 32) (hd : 1 ≤ d)
    (hd' : d < 2 ^ 31) (he : e < 2 ^ 31) (sleeps : k.sleepSegment d = .schedules k1 (-1))
    (still : k'.tcb k.currentThread = k1.tcb k.currentThread)
    (ticks : k'.numTicks = ticksAfter k.numTicks e) :
    k'.SleepLasts k.currentThread d e ↔
      e = d ∨ (k.numTicks + d < 2 ^ 32 ↔ k.numTicks + e < 2 ^ 32) := by
  have htest := sleepOver_after hs hd sleeps still ticks
  -- each sum wraps around at most once
  have wraps : ∀ n, n < 2 ^ 31 → (k.numTicks + n) % 2 ^ 32 =
      if k.numTicks + n < 2 ^ 32 then k.numTicks + n else k.numTicks + n - 2 ^ 32 := by
    intro n hn
    split_ifs with hlt
    · exact Nat.mod_eq_of_lt hlt
    · rw [Nat.mod_eq_sub_mod (by omega), Nat.mod_eq_of_lt (by omega)]
  rw [wraps d hd', wraps e he] at htest
  have hlasts : k'.SleepLasts k.currentThread d e ↔
      (e < d → k'.sleepOver k.currentThread = false) ∧
        (d < e → k'.sleepOver k.currentThread = true) :=
    ⟨fun h => ⟨h.early, h.late⟩, fun h => ⟨h.1, h.2⟩⟩
  rw [hlasts, htest, decide_eq_false_iff_not, decide_eq_true_iff]
  split_ifs with h1 h2 h2 <;> omega

/-- `init` sleeps for five ticks from the start, and after seven its time has come. -/
theorem sleepLasts_iff_boot :
    SleepLasts { Kernel.boot.setTcb 2 { Kernel.boot.tcb 2 with
      duration := 5, startTicks := 0, state := .sleeping } with numTicks := 7 } 2 5 7 := by
  have hseg := sleepSegment_eq (k := Kernel.boot) (d := (5 : Nat)) (by decide)
  have hticks : 7 = ticksAfter Kernel.boot.numTicks 7 := by decide
  refine Iff.mpr (sleepLasts_iff (k := Kernel.boot) ?_ ?_ ?_ ?_ hseg rfl hticks) ?_ <;> decide

/-- **A sleep over the wrap-around is over at once**: it begins ten ticks before the counter wraps,
for twenty ticks, and the test holds before the first tick. -/
theorem sleep_over_at_once :
    ∃ k1, ({ Kernel.boot with numTicks := 2 ^ 32 - 10 } : Kernel).sleepSegment 20 =
        .schedules k1 (-1) ∧
      k1.numTicks = ticksAfter (2 ^ 32 - 10) 0 ∧ ¬ k1.SleepLasts 2 20 0 := by
  refine ⟨_, sleepSegment_eq (by decide), by rw [ticksAfter]; rfl, fun h => ?_⟩
  exact absurd (h.early (by decide)) (by decide +kernel)

/-- **A start in the lower half of the counter** is safe for all durations and all ticks of the next
half, and no other start is. -/
theorem sleepLasts_always_iff {k1 : Kernel} {d : Nat} (hs : k.numTicks < 2 ^ 32) (hd : 1 ≤ d)
    (hd' : d < 2 ^ 31) (sleeps : k.sleepSegment d = .schedules k1 (-1)) :
    (∀ e < 2 ^ 31, ∀ k' : Kernel, k'.tcb k.currentThread = k1.tcb k.currentThread →
      k'.numTicks = ticksAfter k.numTicks e → k'.SleepLasts k.currentThread d e) ↔
      k.numTicks ≤ 2 ^ 31 := by
  constructor
  · intro lasts
    have holds : ∀ e < 2 ^ 31, e = d ∨ (k.numTicks + d < 2 ^ 32 ↔ k.numTicks + e < 2 ^ 32) := by
      intro e he
      have still : ({ k1 with numTicks := ticksAfter k.numTicks e } : Kernel).tcb k.currentThread =
          k1.tcb k.currentThread := rfl
      exact (sleepLasts_iff hs hd hd' he sleeps still rfl).mp (lasts e he _ still rfl)
    have hstart := holds 0 (by decide)
    have hend := holds (2 ^ 31 - 1) (by decide)
    omega
  · intro hlow e he k' still ticks
    exact (sleepLasts_iff hs hd hd' he sleeps still ticks).mpr (by omega)

end Kernel

end Pebbles
