import Pebbles.Libthread.FailedCreate
import Pebbles.Libthread.ThreadReaping

/-! # The last thread ends the task

`thr_exit` counts the running threads under `list_mutex` and stores its own `THREAD_EXIT` later,
under `t_mutex`. Here is the condition under which the last thread finds itself alone, and what
follows for a program in which all threads have exited. -/

namespace Pebbles.ThreadLib

open Monitors Transition

/-! ## What a place says -/

namespace Pc

/-- The thread has counted the running threads, has found others, and has not stored its status. -/
def counted : Pc → Bool
  | exitUnlock _ _ | exitLockThread _ _ | exitStore _ _ => true
  | _ => false

/-- The thread is alive and has not counted. -/
def toCount (p : Pc) : Bool := (p.phase = .child ∨ p.phase = .running) ∧ p.counted = false

/-- `thr_create`, before there is a new thread. -/
def creating : Pc → Bool
  | createLock | createProbe | createUnlock _ | createFork _ => true
  | _ => false

/-- The list was found empty by the last thread. -/
def emptied : Pc → Bool
  | lastUnlock | lastEnd | taskVanished => true
  | _ => false

variable {p q : Pc} {b : Nat}

attribute [local simp] counted toCount creating emptied

theorem Flow.toCount_keep (h : Flow p q) (hp : p.toCount = true) : q.toCount = true ∨
    (∃ v found, p = .exitCount v ∧ q = .exitUnlock v found) ∨
      (∃ v, p = .exitCount v ∧ q = .lastNext) ∨
      (∃ tid b v, p = .reapDestroy tid b v ∧ q = .vanished) ∨ p = .user ∧ q = .exitVanish := by
  cases h.edge <;> simp_all [Pc.toCount, Pc.phase, Pc.counted]

theorem Flow.over_enter (h : Flow p q) (hq : q.phase = .over) : p.phase = .over ∨
    (∃ v b, p = .exitStore v b ∧ q = .exitSignal b) ∨ (∃ v, p = .exitCount v ∧ q = .lastNext) ∨
      (∃ v, p = .exitUnlock v none) ∨ (∃ tid b v, p = .reapDestroy tid b v ∧ q = .vanished) ∨
      p = .user ∧ q = .exitVanish := by
  cases h.edge <;> simp_all [Pc.phase]

theorem Flow.madeBlock_keep {c : Int} (h : Flow p q) (hp : p.madeBlock = some (b, c)) :
    q.madeBlock = some (b, c) ∨ p = .createInsert b c ∧ q = .createSignal c := by
  cases h.edge <;> simp_all [Pc.madeBlock]

theorem Flow.reapStage_keep {r : Reaping} (h : Flow p q) (hp : p.reapStage = some (b, r)) :
    (∃ r', q.reapStage = some (b, r')) ∨ (∃ tid v, p = .reapFree tid b v ∧ q = .deleteLock tid v) ∨
      p = .lastFree b ∧ q = .lastNext := by
  cases h.edge <;> simp_all [Pc.reapStage]

theorem Flow.reaping_back {tid : Int} (h : Flow p q) (hq : q.reaping = some tid) :
    p.reaping = some tid ∨ ∃ b v, p = .reapDestroy tid b v ∧ q = .reapRemove tid b v := by
  cases h.edge <;> simp_all [Pc.reaping]

/-- The end of the branch of the last thread. -/
theorem Flow.lasting_keep (h : Flow p q) (hp : p.lasting = true ∨ p = .taskVanished) :
    (q.lasting = true ∨ q = .taskVanished) ∨ (p = .lastNext ∨ p = .lastEnd) ∧ q = .vanished := by
  cases h.edge <;> simp_all [Pc.lasting]

theorem Flow.emptied_back (h : Flow p q) (hq : q.emptied = true) :
    p.emptied = true ∨ p = .lastNext ∧ q = .lastUnlock := by
  cases h.edge <;> simp_all [Pc.emptied]

theorem Flow.creating_back (h : Flow p q) (hq : q.creating = true) :
    p.creating = true ∨ p = .user ∧ q = .createLock := by
  cases h.edge <;> simp_all [Pc.creating]

theorem Flow.vanished (h : Flow p q) (hp : p = .vanished) : q = .vanished := by
  subst hp
  cases h with
  | op h => cases h
  | _ => rfl

theorem Flow.lastEnd_back (h : Flow p q) (hq : q = .lastEnd) : p = .lastEnd ∨ p = .lastUnlock := by
  cases h.edge <;> simp_all

/-- Who holds `list_mutex` is alive, or is the last thread. -/
theorem lasting_of_holdsList (h : p.holdsList = true) (hp : p.phase = .absent ∨ p.phase = .over) :
    p.lasting = true := by
  cases p <;> simp_all [holdsList, phase, lasting]

/-- Who waits is alive. -/
theorem alive_of_sleeping {c : Cond} (h : p.sleeping = some c) :
    p.phase = .child ∨ p.phase = .running := by
  cases p <;> simp_all [sleeping, phase]

theorem over_of_not_toCount (h : p.toCount = false) (hc : p.counted = false) :
    p.phase = .absent ∨ p.phase = .over := by
  cases hp : p.phase <;> simp_all

theorem past_of_reaping {tid : Int} (h : p.reaping = some tid) : p.past = some tid := by
  unfold reaping at h
  split at h <;> simp_all [past]

theorem not_reaping_of_counting {v : Status} (h : p = .exitCount v) : p.reaping = none := by
  rw [h]
  rfl

end Pc

namespace Lib

variable {s s' : Lib} {e : Event}

/-! ## The property -/

/-- **All threads have finished `thr_exit`.** -/
def Finished (s : Lib) : Prop :=
  ∀ x, s.pc x = .absent ∨ (s.pc x).ended = true ∧ s.exited x ≠ none

/-- **The last thread ends the task**: when all threads of a multi-threaded program have finished
`thr_exit`, one thread has taken the branch of the last thread and has called `task_vanish`,
`thread_list` is empty, and the `thread_t`s of all others are reaped. -/
def LastEnds (s : Lib) : Prop :=
  s.singleThreaded = false → s.Finished →
    ∃ t, s.last = [t] ∧ s.pc t = .taskVanished ∧ s.nodes = [] ∧
      ∀ b, b < s.made → s.owner b ≠ t → s.reaped b = .freed

/-- The condition, as a test. `thread_fork` does not fail. When a thread counts, another thread of
`thread_list` is still going to count, or none is between its count and the store of its status.
And the last thread finds the mutex and the condition variable of a zombie unused, and no other
`thread_t` with its own `tid`. -/
def inTurn (s : Lib) : Event → Bool
  | .fork _ c => 0 < c
  | .go t =>
      match s.pc t with
      | .exitCount _ =>
          s.nodes.any (fun n => n.1 ≠ t ∧ (s.pc n.1).toCount = true) ∨
            s.nodes.all fun n => (s.pc n.1).counted = false
      | .lastNext => s.nodes.head?.all fun n =>
          s.destroyable n.2 = true ∧ ((s.block n.2).tid = t → n.1 = t)
      | _ => true
  | _ => true

/-- **In turn.** -/
def InTurn (s : Lib) (e : Event) : Prop := s.inTurn e = true

theorem inTurn_fork {t c : Int} (h : s.InTurn (.fork t c)) : 0 < c := of_decide_eq_true h

theorem inTurn_count {t : Int} {v : Status} (h : s.InTurn (.go t)) (ht : s.pc t = .exitCount v) :
    (∃ n ∈ s.nodes, n.1 ≠ t ∧ (s.pc n.1).toCount = true) ∨
      ∀ n ∈ s.nodes, (s.pc n.1).counted = false := by
  simpa [InTurn, inTurn, ht] using h

theorem inTurn_last {t : Int} {n : Int × Nat} {rest : List (Int × Nat)} (h : s.InTurn (.go t))
    (ht : s.pc t = .lastNext) (hn : s.nodes = n :: rest) :
    s.destroyable n.2 = true ∧ ((s.block n.2).tid = t → n.1 = t) := by
  simpa [InTurn, inTurn, ht, hn, imp_iff_not_or] using h

/-! ## The invariants -/

/-- What holds in every run. -/
structure Grounded (s : Lib) : Prop where
  /-- The `thread_t`s. -/
  sound : s.Sound
  /-- Their threads. -/
  owned : s.Owned
  /-- The statuses. -/
  exits : s.Exits
  /-- `list_mutex`. -/
  locked : s.Locked
  /-- The queues. -/
  asleep : Program.Asleep Pc.sleeping s.toSync

theorem grounded_init (root : Nat) (memory : ThreadT) : (init root memory).Grounded :=
  ⟨sound_init root memory, owned_init root memory, (told_iff.mp (joinable_init root memory).told).1,
    locked_init root memory, asleep_init root memory⟩

theorem Grounded.step (h : s.Grounded) (step : s.Step e s') : s'.Grounded :=
  ⟨h.sound.step step, h.owned.step h.sound step, h.exits.step h.sound step,
    h.locked.step (effect_of_step step), asleep_step h.asleep (effect_of_step step)⟩

/-- A thread that `thr_reap` has ended, without `thr_exit`. -/
def Cut (s : Lib) (x : Int) : Prop := s.pc x = .vanished ∧ s.exited x = none

/-- **Before the last thread**: who is over has stored its status, and somebody is still going to
count. -/
structure Counting (s : Lib) (root : Int) : Prop where
  /-- A `thread_t` is of a thread, as `thread_fork` has not failed. -/
  threads : ∀ b, b < s.made → 0 ≤ s.owner b
  /-- So is the next one. -/
  makes : ∀ t c, (s.pc t).making = some c → 0 ≤ c
  /-- A program with one thread. -/
  single : s.singleThreaded = true → ∀ x, (s.pc x).creating = false ∧ (x ≠ root → s.pc x = .absent)
  /-- A thread that is over has stored its status, or its `thread_t` is reaped. -/
  left : s.singleThreaded = false → s.last = [] → ∀ x, (s.pc x).phase = .over → s.Cut x ∨
    ∀ b, b < s.made → s.owner b = x → (s.block b).status = .exit ∨ s.reaped b ≠ .no
  /-- Somebody is going to count. -/
  ahead : s.singleThreaded = false → s.last = [] →
    (∃ x, (s.pc x).toCount = true) ∨ ∃ x, s.Cut x

/-- **After that**: the last thread takes all nodes out of the list. -/
structure Reaped (s : Lib) : Prop where
  /-- There is one last thread. -/
  lastOne : s.last = [] ∨ ∃ t, s.last = [t]
  /-- It goes on to `task_vanish`. -/
  place : ∀ t ∈ s.last, (s.pc t).lasting = true ∨ s.pc t = .taskVanished
  /-- It releases `list_mutex` before. -/
  free : ∀ t, s.pc t = .lastEnd → s.mutex .list = .free
  /-- The list is empty then. -/
  emptied : ∀ t ∈ s.last, (s.pc t).emptied = true → s.nodes = []
  /-- A `thread_t` that is not reaped is in the list, or will be put there. -/
  kept : ∀ b, b < s.made → s.reaped b = .no →
    (∃ n ∈ s.nodes, n.2 = b) ∨ ∃ t c, (s.pc t).madeBlock = some (b, c)
  /-- Who deletes a node has reaped its `thread_t`. -/
  dead : ∀ t tid, (s.pc t).reaping = some tid → ∀ b, b < s.made → s.owner b = tid →
    s.reaped b ≠ .no
  /-- `thr_reap` is going on, or the `thread_t` is of the last thread. -/
  stage : ∀ b, s.reaped b ≠ .no → s.reaped b ≠ .freed →
    (∃ t r, (s.pc t).reapStage = some (b, r)) ∨ s.owner b ∈ s.last

theorem counting_init (root : Nat) (memory : ThreadT) : (init root memory).Counting root where
  threads b hb := Int.natCast_nonneg root
  makes t c ht := by
    rcases init_plain root memory t with h | h <;> rw [h] at ht <;> cases ht
  single _ x := by
    refine ⟨?_, fun hx => if_neg hx⟩
    rcases init_plain root memory x with h | h <;> rw [h] <;> rfl
  left hmulti := by cases hmulti
  ahead hmulti := by cases hmulti

theorem reaped_init (root : Nat) (memory : ThreadT) : (init root memory).Reaped where
  lastOne := Or.inl rfl
  place t ht := by cases ht
  free t ht := by
    rcases init_plain root memory t with h | h <;> rw [h] at ht <;> cases ht
  emptied t ht := by cases ht
  kept b hb _ := by
    obtain rfl : b = 0 := Nat.lt_one_iff.mp hb
    exact Or.inl ⟨(root, 0), List.mem_singleton_self _, rfl⟩
  dead t tid ht := by
    rcases init_plain root memory t with h | h <;> rw [h] at ht <;> cases ht
  stage b hno := absurd rfl hno

/-- A thread in the list is not absent. -/
theorem Counting.alive {root : Int} (hc : s.Counting root) (h : s.Sound) {n : Int × Nat}
    (hn : n ∈ s.nodes) : 0 ≤ n.1 ∧ (s.pc n.1).phase ≠ .absent := by
  obtain ⟨hb, howner, hphase⟩ := h.nodes n hn
  have hpos : 0 ≤ n.1 := by
    rw [← howner]
    exact hc.threads n.2 hb
  exact ⟨hpos, hphase hpos⟩

/-- **A thread that is alone counts one**: when all others of the list are over, the list holds one
`thread_t` with `THREAD_RUNNING`. -/
theorem Counting.liveCount_eq_one {root : Int} (hc : s.Counting root) (h : s.Sound)
    (multi : s.singleThreaded = false) {t : Int} {v : Status} (ht : s.pc t = .exitCount v)
    (uncut : ∀ x, ¬s.Cut x) (others : ∀ n ∈ s.nodes, n.1 ≠ t → (s.pc n.1).phase = .over) :
    s.liveCount = 1 := by
  have hrunning : (s.pc t).phase = .running := by
    rw [ht]
    rfl
  have hlast := h.last_eq_nil (Or.inr hrunning)
  obtain ⟨b, hsearch, -, -, hstatus, -⟩ := h.running t hrunning
  have hmem := mem_of_search hsearch
  -- the running ones are of this thread
  have hone : ∀ n ∈ s.nodes, (s.block n.2).status = .running → n.1 = t := by
    intro n hn hns
    by_contra hne
    obtain ⟨hb, howner, -⟩ := h.nodes n hn
    have hstored := (hc.left multi hlast n.1 (others n hn hne)).resolve_left (uncut n.1)
    rcases hstored n.2 hb howner with hexit | hreaped
    · rw [hns] at hexit
      cases hexit
    · -- who reaps it is in the list as well
      obtain ⟨x, hx⟩ := (h.dangling n hn hreaped).resolve_right fun hne => hne hlast
      obtain ⟨b', hxb, -⟩ := h.running x (Pc.running_of_reaping hx)
      have hxt : x = t := by
        by_contra hxt
        have hover := others (x, b') (mem_of_search hxb) hxt
        rw [Pc.running_of_reaping hx] at hover
        cases hover
      rw [hxt, Pc.not_reaping_of_counting ht] at hx
      cases hx
  have hpairs : Distinct (s.nodes.filter fun n => (s.block n.2).status = .running) :=
    h.distinct.filter _
  have hin : ∀ n ∈ s.nodes.filter (fun n => (s.block n.2).status = .running), n.1 = t := by
    intro n hn
    obtain ⟨hn, hns⟩ := List.mem_filter.mp hn
    exact hone n hn (of_decide_eq_true hns)
  have hmem' : (t, b) ∈ s.nodes.filter fun n => (s.block n.2).status = .running :=
    List.mem_filter.mpr ⟨hmem, decide_eq_true hstatus⟩
  rw [liveCount, List.countP_eq_length_filter]
  cases hfilter : s.nodes.filter fun n => (s.block n.2).status = .running with
  | nil =>
      rw [hfilter] at hmem'
      cases hmem'
  | cons n rest =>
      cases rest with
      | nil => rfl
      | cons m rest =>
          rw [hfilter] at hpairs hin
          have hn := hin n List.mem_cons_self
          have hm := hin m (List.mem_cons_of_mem _ List.mem_cons_self)
          have hne := (List.pairwise_cons.mp hpairs).1 m List.mem_cons_self
          have hpos := (hc.alive h hmem).1
          exact absurd (hn.trans hm.symm) (hne (hn ▸ hpos))

/-! ## Before the last thread -/

/-- A program comes to have several threads in `thr_create`. -/
theorem Effect.multi (h : s.Effect e s') : s'.singleThreaded = s.singleThreaded ∨
    ∃ t, s.pc t = .user ∧ s'.pc = Function.update s.pc t .createLock ∧
      s'.singleThreaded = false := by
  cases h with
  | create here => exact Or.inr ⟨_, here, rfl, rfl⟩
  | _ => exact Or.inl rfl

/-- It never has one thread again. -/
theorem Effect.single_back (h : s.Effect e s') (single : s'.singleThreaded = true) :
    s.singleThreaded = true := by
  rcases h.multi with hsame | ⟨t, -, -, hmulti⟩
  · rwa [hsame] at single
  · rw [hmulti] at single
    cases single

/-- It is `thr_create` that says so. -/
theorem creates_multi {t : Int} (step : s.Step e s') (here : s.pc t = .user)
    (there : s'.pc t = .createLock) : s'.singleThreaded = false := by
  have heffect := effect_of_step step
  rcases called step here (by rw [there]; exact Pc.noConfusion) with ⟨rfl, -⟩ |
    ⟨tid, -, hjoin, -⟩ | ⟨v, -, hexit | hexit, -⟩
  · cases heffect with
    | create => rfl
  · rw [there] at hjoin
    cases hjoin
  · rw [there] at hexit
    cases hexit
  · rw [there] at hexit
    cases hexit

/-- `thr_exit` vanishes at once in a program with one thread. -/
theorem vanishes_single {t : Int} (step : s.Step e s') (here : s.pc t = .user)
    (there : s'.pc t = .exitVanish) : s'.singleThreaded = true := by
  have heffect := effect_of_step step
  rcases called step here (by rw [there]; exact Pc.noConfusion) with ⟨-, hcreate⟩ |
    ⟨tid, -, hjoin, -⟩ | ⟨v, rfl, -, -⟩
  · rw [there] at hcreate
    cases hcreate
  · rw [there] at hjoin
    cases hjoin
  · cases heffect with
    | exitSingle here single => exact single
    | exit here multi =>
        rw [move_pc, Function.update_self] at there
        cases there

/-- A thread that is outside its program does not call `thr_exit`. -/
theorem Effect.exited_of_not_user (h : s.Effect e s') {x : Int} (hx : s.pc x ≠ .user) :
    s'.exited x = s.exited x := by
  rcases h.exited with hsame | ⟨t, v, huser, hexited, -⟩
  · rw [hsame]
  · have hne : x ≠ t := by
      rintro rfl
      exact hx huser
    rw [hexited, Function.update_of_ne hne]

/-- Who was ended stays so. -/
theorem cut_keep (step : s.Step e s') {x : Int} (hx : s.Cut x) : s'.Cut x := by
  have heffect := effect_of_step step
  refine ⟨(heffect.flow x).vanished hx.1, ?_⟩
  rw [heffect.exited_of_not_user (by rw [hx.1]; exact Pc.noConfusion), hx.2]

/-- `thr_reap` ends a thread that has not called `thr_exit`. -/
theorem Grounded.cuts (h : s.Grounded) (step : s.Step e s') {x tid : Int} {b : Nat} {v : Status}
    (here : s.pc x = .reapDestroy tid b v) (there : s'.pc x = .vanished) : s'.Cut x := by
  refine ⟨there, ?_⟩
  rw [(effect_of_step step).exited_of_not_user (by rw [here]; exact Pc.noConfusion)]
  by_contra hexited
  obtain ⟨w, hw⟩ := Option.ne_none_iff_exists'.mp hexited
  rcases h.exits.exited x w hw with hexiting | hover
  · rw [here] at hexiting
    cases hexiting
  · rw [here] at hover
    cases hover

namespace Counting

variable {root : Int} (hc : s.Counting root)

include hc

theorem step_threads (step : s.Step e s') (b : Nat) (hb : b < s'.made) : 0 ≤ s'.owner b := by
  have heffect := effect_of_step step
  by_cases hold : b < s.made
  · rw [heffect.owner_eq hold]
    exact hc.threads b hold
  · obtain ⟨t, base, c, -, hinit, -, -, howner⟩ := heffect.made_owner (Nat.not_lt.mp hold) hb
    rw [howner]
    exact hc.makes t c (by rw [hinit]; rfl)

theorem step_makes (step : s.Step e s') (turn : s.InTurn e) (t c : Int)
    (ht : (s'.pc t).making = some c) : 0 ≤ c := by
  rcases ((effect_of_step step).flow t).making_back ht with hold | ⟨base, hfork, hinit⟩
  · exact hc.makes t c hold
  · obtain ⟨-, rfl, -⟩ := forks step hfork hinit
    exact Int.le_of_lt (inTurn_fork turn)

theorem step_single (step : s.Step e s') (single : s'.singleThreaded = true) (x : Int) :
    (s'.pc x).creating = false ∧ (x ≠ root → s'.pc x = .absent) := by
  have heffect := effect_of_step step
  have hbefore := heffect.single_back single
  constructor
  · by_contra hcreating
    rw [Bool.not_eq_false] at hcreating
    rcases (heffect.flow x).creating_back hcreating with hold | ⟨huser, hlock⟩
    · rw [(hc.single hbefore x).1] at hold
      cases hold
    · rw [creates_multi step huser hlock] at single
      cases single
  · intro hx
    by_contra hmade
    obtain ⟨-, t, base, hfork, -⟩ := heffect.born ((hc.single hbefore x).2 hx) hmade
    have hcreating := (hc.single hbefore t).1
    rw [hfork] at hcreating
    cases hcreating

/-- The first call of `thr_create` finds nobody over. -/
theorem multi_before (step : s.Step e s') (multi : s'.singleThreaded = false) {x : Int}
    (hx : (s'.pc x).phase = .over) : s.singleThreaded = false := by
  rcases (effect_of_step step).multi with hsame | ⟨t, huser, hpc, -⟩
  · rwa [← hsame]
  · by_contra hsingle
    rw [Bool.not_eq_false] at hsingle
    have halone : ∀ y, y ≠ root → s.pc y = .absent := fun y => (hc.single hsingle y).2
    have ht : t = root := by
      by_contra hne
      rw [halone t hne] at huser
      cases huser
    rw [hpc] at hx
    by_cases hxt : x = t
    · rw [hxt, Function.update_self] at hx
      cases hx
    · rw [Function.update_of_ne hxt, halone x (ht ▸ hxt)] at hx
      cases hx

variable (h : s.Grounded)

include h

theorem step_left (step : s.Step e s') (multi : s'.singleThreaded = false) (hlast : s'.last = [])
    (x : Int) (hx : (s'.pc x).phase = .over) : s'.Cut x ∨
      ∀ b, b < s'.made → s'.owner b = x → (s'.block b).status = .exit ∨ s'.reaped b ≠ .no := by
  have heffect := effect_of_step step
  have hlast0 : s.last = [] := by
    by_contra hne
    exact heffect.last_ne_nil hne hlast
  have hmulti := hc.multi_before step multi hx
  -- a thread that is over is not the one of a new `thread_t`
  have hnew : (s.pc x).phase ≠ .child → ∀ b, b < s'.made → s'.owner b = x →
      b < s.made ∧ s.owner b = x := by
    intro hchild b hb howner
    by_cases hold : b < s.made
    · rw [heffect.owner_eq hold] at howner
      exact ⟨hold, howner⟩
    · obtain ⟨t, base, c, -, hinit, -, -, hc'⟩ := heffect.made_owner (Nat.not_lt.mp hold) hb
      obtain rfl : c = x := hc'.symm.trans howner
      have hmaking : (s.pc t).making = some c := by
        rw [hinit]
        rfl
      exact absurd (h.sound.making t c hmaking (hc.makes t c hmaking)).1 hchild
  rcases (heffect.flow x).over_enter hx with hover | ⟨v, b0, hstore, hsignal⟩ | ⟨v, hcount, hnext⟩ |
    ⟨v, hfault⟩ | ⟨tid, b, v, hdestroy, hvanished⟩ | ⟨huser, hvanish⟩
  · refine (hc.left hmulti hlast0 x hover).imp (cut_keep step) fun hstored b hb howner => ?_
    obtain ⟨hold, howner⟩ := hnew (by rw [hover]; exact Phase.noConfusion) b hb howner
    by_cases hreaped : s.reaped b = .no
    · refine Or.inl ?_
      have hexit := (hstored b hold howner).resolve_right (not_not.mpr hreaped)
      rcases heffect.status hold (by rw [hreaped]; exact Reaping.noConfusion) with
        ⟨hsame, -⟩ | ⟨t, v, -, -, hexit', -⟩
      · rw [hsame, hexit]
      · exact hexit'
    · exact Or.inr (heffect.reaped_ne_no hreaped)
  · refine Or.inr fun b hb howner => Or.inl ?_
    obtain ⟨hold, howner⟩ := hnew (by rw [hstore]; exact Phase.noConfusion) b hb howner
    -- the thread stores the status of its own `thread_t`
    obtain ⟨hb0, howner0, -⟩ := h.sound.own x b0 (by rw [hstore]; rfl)
    obtain rfl := h.owned.one b b0 hold hb0 (howner.trans howner0.symm) (hc.threads b hold)
    obtain ⟨-, hcode⟩ := code_of_edge step hstore hsignal Pc.noConfusion rfl
    simp only [code, hstore] at hcode
    obtain rfl := Option.some.inj hcode
    rw [move_block, store_block, Function.update_self]
  · have hmem := h.sound.step_lasting step x (by rw [hnext]; rfl)
    rw [hlast] at hmem
    cases hmem
  · exact absurd hfault (h.owned.found x v)
  · exact Or.inl (h.cuts step hdestroy hvanished)
  · rw [vanishes_single step huser hvanish] at multi
    cases multi

theorem step_ahead (step : s.Step e s') (turn : s.InTurn e) (multi : s'.singleThreaded = false)
    (hlast : s'.last = []) : (∃ x, (s'.pc x).toCount = true) ∨ ∃ x, s'.Cut x := by
  have heffect := effect_of_step step
  have hlast0 : s.last = [] := by
    by_contra hne
    exact heffect.last_ne_nil hne hlast
  rcases heffect.multi with hsame | ⟨t, -, hpc, -⟩
  swap
  · exact Or.inl ⟨t, by rw [hpc, Function.update_self]; rfl⟩
  rw [hsame] at multi
  rcases hc.ahead multi hlast0 with ⟨x, hx⟩ | ⟨x, hcut⟩
  swap
  · exact Or.inr ⟨x, cut_keep step hcut⟩
  rcases (heffect.flow x).toCount_keep hx with hstill | ⟨v, found, hcount, hunlock⟩ |
    ⟨v, hcount, hnext⟩ | ⟨tid, b, v, hdestroy, hvanished⟩ | ⟨huser, hvanish⟩
  · exact Or.inl ⟨x, hstill⟩
  · -- the thread has counted others
    obtain ⟨rfl, hone, -, rfl⟩ := counted step hcount hunlock
    have hother : ∀ y, y ≠ x → (s.move x (.exitUnlock v (s.search x))).pc y = s.pc y :=
      fun y hy => Function.update_of_ne hy _ _
    by_contra hnone
    obtain ⟨hnobody, huncut⟩ := not_or.mp hnone
    have hnot : ∀ n ∈ s.nodes, n.1 ≠ x → (s.pc n.1).toCount = false := by
      intro n hn hne
      by_contra hcounts
      refine hnobody ⟨n.1, ?_⟩
      rw [hother n.1 hne]
      exact Bool.not_eq_false _ ▸ hcounts
    rcases inTurn_count turn hcount with ⟨n, hn, hne, hcounts⟩ | hcounted
    · rw [hnot n hn hne] at hcounts
      cases hcounts
    · refine hone (hc.liveCount_eq_one h.sound multi hcount
        (fun y hy => huncut ⟨y, cut_keep step hy⟩) fun n hn hne => ?_)
      exact (Pc.over_of_not_toCount (hnot n hn hne) (hcounted n hn)).resolve_left
        (hc.alive h.sound hn).2
  · have hmem := h.sound.step_lasting step x (by rw [hnext]; rfl)
    rw [hlast] at hmem
    cases hmem
  · exact Or.inr ⟨x, h.cuts step hdestroy hvanished⟩
  · have hsingle := vanishes_single step huser hvanish
    rw [hsame, multi] at hsingle
    cases hsingle

/-- **Every step in turn keeps it.** -/
theorem step (hstep : s.Step e s') (turn : s.InTurn e) : s'.Counting root where
  threads := hc.step_threads hstep
  makes := hc.step_makes hstep turn
  single := hc.step_single hstep
  left := hc.step_left h hstep
  ahead := hc.step_ahead h hstep turn

end Counting

/-! ## After that -/

/-- `list_mutex` is released where the last thread is done with the list. -/
theorem Effect.releases (h : s.Effect e s') (alive : s.mutex .list ≠ .destroyed) {t : Int}
    (here : s.pc t = .lastUnlock) (there : s'.pc t = .lastEnd) : s'.mutex .list = .free := by
  have mover : ∀ {x : Int} {p : Pc}, s'.pc = Function.update s.pc x p → s.pc x ≠ .lastUnlock →
      False := by
    intro x p hpc hx
    have hne : t ≠ x := by
      rintro rfl
      exact hx here
    rw [hpc, Function.update_of_ne hne, here] at there
    cases there
  cases h with
  | joinSelf | reuse => exact absurd (here.symm.trans there) Pc.noConfusion
  | @sync x u moves =>
      have hholds : (s.pc t).holdsList = true := by
        rw [here]
        rfl
      have hnot : (u.pc t).holdsList = false := by
        change u.pc t = _ at there
        rw [there]
        rfl
      cases moves.passes Pc.holding_list alive with
      | same mutex places =>
          have hsame := places t
          rw [hnot] at hsame
          exact absurd (hsame.trans hholds) Bool.noConfusion
      | take free mutex hx others =>
          have hne : t ≠ x := by
            rintro rfl
            rw [hnot] at hx
            cases hx
          have hsame := others t hne
          rw [hnot] at hsame
          exact absurd (hsame.trans hholds) Bool.noConfusion
      | release mutex => exact mutex
  | @fork x c base hx positive new =>
      exfalso
      change Function.update (Function.update s.pc c .childLock) x _ t = _ at there
      have hne : t ≠ x := by
        rintro rfl
        rw [here] at hx
        cases hx
      have hnec : t ≠ c := by
        rintro rfl
        rw [here] at new
        cases new
      rw [Function.update_of_ne hne, Function.update_of_ne hnec, here] at there
      cases there
  | create hx | join hx | exitSingle hx | exit hx | probe hx | forkFails hx | init hx | insert hx
  | childWaits hx | childStarts hx | lookup hx | reject hx | accept hx | found hx | joinWaits hx
  | destroy hx | remove hx | free hx | delete hx | last hx | zombie hx | exits hx | vanish hx
  | lastDone hx | lastPop hx | lastRemove hx | lastFree hx | lastFails hx | lastEnds hx =>
      exact (mover rfl (by rw [hx]; exact Pc.noConfusion)).elim

/-- Otherwise it stays as it is, is released, or is taken. -/
theorem Effect.mutex_list (h : s.Effect e s') (alive : s.mutex .list ≠ .destroyed) :
    s'.mutex .list = s.mutex .list ∨ s'.mutex .list = .free ∨
      ∃ t, (s'.pc t).holdsList = true := by
  have hthread : ∀ (b : Nat) (m : Mutex Int),
      Function.update s.mutex (.thread b) m .list = s.mutex .list := by
    intro b m
    rw [Function.update_of_ne]
    exact Lock.noConfusion
  have hdestroy : ∀ b : Nat, (if s.locked (.thread b) then s.mutex
      else Function.update s.mutex (.thread b) .destroyed) .list = s.mutex .list := by
    intro b
    split_ifs
    · rfl
    · exact hthread b _
  cases h with
  | sync moves =>
      cases moves.passes Pc.holding_list alive with
      | same mutex => exact Or.inl mutex
      | take free mutex here => exact Or.inr (Or.inr ⟨_, here⟩)
      | release mutex => exact Or.inr (Or.inl mutex)
  | init => exact Or.inl (hthread s.made .free)
  | destroy | lastPop => exact Or.inl (hdestroy _)
  | _ => exact Or.inl rfl

/-- Beside the last thread nobody is alive. -/
theorem Sound.over_of_last (h : s.Sound) {t : Int} (ht : t ∈ s.last) (x : Int) :
    (s.pc x).phase = .absent ∨ (s.pc x).phase = .over := by
  obtain ⟨hover, hothers⟩ := h.lastOver t ht
  by_cases hx : x = t
  · exact Or.inr (by rw [hx, hover])
  · exact hothers x hx

/-- So who holds `list_mutex` is the last thread. -/
theorem Sound.eq_of_holdsList (h : s.Sound) (ho : s.Owned) {t : Int} (ht : t ∈ s.last) {x : Int}
    (hx : (s.pc x).holdsList = true) : x = t :=
  ho.lastOne x (h.lasting x (Pc.lasting_of_holdsList hx (h.over_of_last ht x))) t ht

/-- **How a node leaves the list**: `thr_join` deletes it, or the last thread takes it. -/
theorem Effect.node_keep (h : s.Effect e s') {n : Int × Nat} (hn : n ∈ s.nodes) : n ∈ s'.nodes ∨
    (∃ t v, s.pc t = .deleteNode n.1 v) ∨
      ∃ t rest, e = .go t ∧ s.pc t = .lastNext ∧ s.nodes = n :: rest ∧
        (s.destroyable n.2 = true → s'.reaped n.2 = .destroyed) := by
  cases h with
  | insert => exact Or.inl (List.mem_append_left _ hn)
  | @delete t tid v here =>
      by_cases hne : n.1 = tid
      · exact Or.inr (Or.inl ⟨t, v, by rw [hne, here]⟩)
      · exact Or.inl ((List.mem_eraseP_of_neg (by simpa using hne)).mpr hn)
  | @lastPop t m rest here first =>
      rw [first] at hn
      rcases List.mem_cons.mp hn with rfl | hn
      · refine Or.inr (Or.inr ⟨t, rest, rfl, here, first, fun hok => ?_⟩)
        show (if s.destroyable n.2 = true then Function.update s.reaped n.2 .destroyed
          else s.reaped) n.2 = _
        rw [if_pos hok, Function.update_self]
      · exact Or.inl hn
  | _ => exact Or.inl hn

/-- Who was the last thread is. -/
theorem Effect.mem_last (h : s.Effect e s') {t : Int} (ht : t ∈ s.last) : t ∈ s'.last := by
  rcases h.last_eq with hsame | ⟨x, v, -, -, -, hcons⟩
  · rwa [hsame]
  · rw [hcons]
    exact List.mem_cons_of_mem _ ht

namespace Reaped

variable (hr : s.Reaped) (h : s.Grounded)

include hr h

theorem step_lastOne (step : s.Step e s') : s'.last = [] ∨ ∃ t, s'.last = [t] := by
  rcases (effect_of_step step).last_eq with hsame | ⟨t, v, hcount, -, -, hcons⟩
  · rw [hsame]
    exact hr.lastOne
  · rw [hcons, h.sound.last_eq_nil (Or.inr (by rw [hcount]; rfl))]
    exact Or.inr ⟨t, rfl⟩

/-- **The last thread gets to `task_vanish`**: in turn it may destroy what it destroys. -/
theorem step_place (step : s.Step e s') (turn : s.InTurn e) (t : Int) (ht : t ∈ s'.last) :
    (s'.pc t).lasting = true ∨ s'.pc t = .taskVanished := by
  have heffect := effect_of_step step
  have keep : t ∈ s.last → (s'.pc t).lasting = true ∨ s'.pc t = .taskVanished := by
    intro hmem
    rcases (heffect.flow t).lasting_keep (hr.place t hmem) with hstill | ⟨hnext | hend, hvanished⟩
    · exact hstill
    · -- the mutex of a zombie
      exfalso
      obtain ⟨rfl, hcode⟩ := code_of_edge step hnext hvanished Pc.noConfusion rfl
      simp only [code, hnext] at hcode
      split at hcode
      · obtain rfl := Option.some.inj hcode
        rw [move_pc, Function.update_self] at hvanished
        cases hvanished
      · next hnodes =>
          obtain ⟨hok, -⟩ := inTurn_last turn hnext hnodes
          obtain rfl := Option.some.inj hcode
          rw [destroy_pc, Function.update_self] at hvanished
          split_ifs at hvanished with hdestroyable
          exact hdestroyable hok
    · -- `list_mutex` and `list_cond`
      exfalso
      obtain ⟨-, hcode⟩ := code_of_edge step hend hvanished Pc.noConfusion rfl
      simp only [code, hend] at hcode
      split_ifs at hcode with hused
      · have hfree := hr.free t hend
        have hempty : s.queue .list = [] := by
          refine List.eq_nil_iff_forall_not_mem.mpr fun x hx => ?_
          have halive := Pc.alive_of_sleeping (h.asleep.waits .list x hx)
          exact List.ne_nil_of_mem hmem (h.sound.last_eq_nil halive)
        rcases hused with hlocked | hwaits
        · rw [locked, hfree] at hlocked
          cases hlocked
        · exact hwaits hempty
      · obtain rfl := Option.some.inj hcode
        rw [move_pc, Function.update_self] at hvanished
        cases hvanished
  rcases heffect.last_eq with hsame | ⟨x, v, hcount, hnext, -, hcons⟩
  · exact keep (by rwa [← hsame])
  · rw [hcons] at ht
    rcases List.mem_cons.mp ht with rfl | ht
    · exact Or.inl (by rw [hnext]; rfl)
    · exact keep ht

theorem step_free (step : s.Step e s') (t : Int) (ht : s'.pc t = .lastEnd) :
    s'.mutex .list = .free := by
  have heffect := effect_of_step step
  rcases (heffect.flow t).lastEnd_back ht with hstay | hunlock
  · rcases heffect.mutex_list h.locked.alive with hsame | hfree | ⟨x, hx⟩
    · rw [hsame, hr.free t hstay]
    · exact hfree
    · -- nobody is left to take it
      have hmem := h.sound.step_lasting step t (by rw [ht]; rfl)
      obtain rfl := (h.sound.step step).eq_of_holdsList (h.owned.step h.sound step) hmem hx
      rw [ht] at hx
      cases hx
  · exact heffect.releases h.locked.alive hunlock ht

theorem step_emptied (step : s.Step e s') (t : Int) (ht : t ∈ s'.last)
    (hempty : (s'.pc t).emptied = true) : s'.nodes = [] := by
  have heffect := effect_of_step step
  have hbefore : t ∈ s.last := by
    rcases heffect.last_eq with hsame | ⟨x, v, hcount, hnext, -, hcons⟩
    · rwa [← hsame]
    · rw [hcons] at ht
      rcases List.mem_cons.mp ht with rfl | ht
      · rw [hnext] at hempty
        cases hempty
      · exact ht
  have hidle : ∀ x, (s.pc x).phase ≠ .running :=
    fun x hx => List.ne_nil_of_mem hbefore (h.sound.last_eq_nil (Or.inr hx))
  rcases (heffect.flow t).emptied_back hempty with hold | ⟨hnext, hunlock⟩
  · have hnodes := hr.emptied t hbefore hold
    rcases heffect.nodes with hsame | ⟨x, b, c, hinsert, -⟩ | ⟨x, tid, v, hdelete, -⟩ |
      ⟨x, n, -, hpop⟩
    · rw [hsame, hnodes]
    · exact absurd (by rw [hinsert]; rfl) (hidle x)
    · exact absurd (by rw [hdelete]; rfl) (hidle x)
    · rw [hnodes] at hpop
      cases hpop
  · obtain ⟨-, hcode⟩ := code_of_edge step hnext hunlock Pc.noConfusion rfl
    simp only [code, hnext] at hcode
    split at hcode
    · next hnodes =>
        obtain rfl := Option.some.inj hcode
        exact hnodes
    · obtain rfl := Option.some.inj hcode
      rw [destroy_pc, Function.update_self] at hunlock
      split_ifs at hunlock

theorem step_kept (step : s.Step e s') (turn : s.InTurn e) (b : Nat) (hb : b < s'.made)
    (hno : s'.reaped b = .no) :
    (∃ n ∈ s'.nodes, n.2 = b) ∨ ∃ t c, (s'.pc t).madeBlock = some (b, c) := by
  have heffect := effect_of_step step
  have hbefore : s.reaped b = .no := by
    by_contra hne
    exact heffect.reaped_ne_no hne hno
  by_cases hold : b < s.made
  · rcases hr.kept b hold hbefore with ⟨n, hn, rfl⟩ | ⟨t, c, hmade⟩
    · rcases heffect.node_keep hn with hstill | ⟨t, v, hdelete⟩ |
        ⟨t, rest, rfl, hnext, hfirst, hreaped⟩
      · exact Or.inl ⟨n, hstill, rfl⟩
      · -- the node that is deleted is of a `thread_t` that was reaped
        obtain ⟨-, howner, -⟩ := h.sound.nodes n hn
        exact absurd hbefore (hr.dead t n.1 (by rw [hdelete]; rfl) n.2 hold howner)
      · rw [hreaped (inTurn_last turn hnext hfirst).1] at hno
        cases hno
    · rcases (heffect.flow t).madeBlock_keep hmade with hstill | ⟨hinsert, hsignal⟩
      · exact Or.inr ⟨t, c, hstill⟩
      · refine Or.inl ⟨(c, b), ?_, rfl⟩
        obtain ⟨-, hcode⟩ := code_of_edge step hinsert hsignal Pc.noConfusion rfl
        simp only [code, hinsert] at hcode
        obtain rfl := Option.some.inj hcode
        exact List.mem_append_right _ (List.mem_singleton_self _)
  · obtain ⟨t, base, c, -, -, hlock, -⟩ := heffect.made_owner (Nat.not_lt.mp hold) hb
    exact Or.inr ⟨t, c, by rw [hlock]; rfl⟩

theorem step_dead {root : Int} (hc : s.Counting root) (step : s.Step e s') (t tid : Int)
    (ht : (s'.pc t).reaping = some tid) (b : Nat) (hb : b < s'.made) (howner : s'.owner b = tid) :
    s'.reaped b ≠ .no := by
  have heffect := effect_of_step step
  have hpast : (s.pc t).past = some tid ∧ (s.pc t).phase = .running := by
    rcases (heffect.flow t).reaping_back ht with hold | ⟨b', v, hdestroy, -⟩
    · exact ⟨Pc.past_of_reaping hold, Pc.running_of_reaping hold⟩
    · rw [hdestroy]
      exact ⟨rfl, rfl⟩
  have hold : b < s.made := by
    by_contra hnew
    -- the target of `thr_join` is over, and no new thread
    obtain ⟨x, base, c, -, hinit, -, -, hc'⟩ := heffect.made_owner (Nat.not_lt.mp hnew) hb
    obtain rfl : c = tid := hc'.symm.trans howner
    have hmaking : (s.pc x).making = some c := by
      rw [hinit]
      rfl
    have hchild := (h.sound.making x c hmaking (hc.makes x c hmaking)).1
    exact h.sound.not_gone (Or.inl hchild) (h.sound.past t c hpast.1)
  rw [heffect.owner_eq hold] at howner
  rcases (heffect.flow t).reaping_back ht with hbefore | ⟨b', v, hdestroy, hremove⟩
  · exact heffect.reaped_ne_no (hr.dead t tid hbefore b hold howner)
  · obtain ⟨hb', howner'⟩ := h.sound.target t tid b' (by rw [hdestroy]; rfl)
    obtain rfl := h.owned.one b b' hold hb' (howner.trans howner'.symm) (hc.threads b hold)
    rw [(Kept.begins_step step hdestroy hremove).2]
    exact Reaping.noConfusion

theorem step_stage (step : s.Step e s') (turn : s.InTurn e) (b : Nat) (hno : s'.reaped b ≠ .no)
    (hfreed : s'.reaped b ≠ .freed) :
    (∃ t r, (s'.pc t).reapStage = some (b, r)) ∨ s'.owner b ∈ s'.last := by
  have heffect := effect_of_step step
  rcases heffect.reaps b with hsame | ⟨-, -, hthere, -, -⟩ | ⟨rfl, hnext, hfirst, hok, -⟩ |
    ⟨-, -, hthere, -⟩ | ⟨-, -, -, hafter⟩ | ⟨-, -, -, hafter⟩
  · rw [hsame] at hno hfreed
    rcases hr.stage b hno hfreed with ⟨t, r, ht⟩ | hlast
    · rcases (heffect.flow t).reapStage_keep ht with ⟨r', hstill⟩ | ⟨tid, v, hfree, hlock⟩ |
        ⟨hfree, hnext⟩
      · exact Or.inl ⟨t, r', hstill⟩
      · obtain ⟨-, hcode⟩ := code_of_edge step hfree hlock Pc.noConfusion rfl
        simp only [code, hfree] at hcode
        obtain rfl := Option.some.inj hcode
        rw [← hsame] at hfreed
        exact absurd (Function.update_self ..) hfreed
      · obtain ⟨-, hcode⟩ := code_of_edge step hfree hnext Pc.noConfusion rfl
        simp only [code, hfree] at hcode
        obtain rfl := Option.some.inj hcode
        rw [← hsame] at hfreed
        exact absurd (Function.update_self ..) hfreed
    · have hb : b < s.made := by
        by_contra hnew
        exact hno (h.sound.fresh b (Nat.not_lt.mp hnew))
      rw [heffect.owner_eq hb]
      exact Or.inr (heffect.mem_last hlast)
  · exact Or.inl ⟨_, _, by rw [hthere]; rfl⟩
  · rename_i t c
    have hcode := go_code step (by rw [hnext]; rfl)
    simp only [code, hnext, hfirst] at hcode
    have hs' := Option.some.inj hcode
    by_cases htid : (s.block b).tid = t
    · -- its own `thread_t`
      have hct : c = t := (inTurn_last turn hnext hfirst).2 htid
      have howner : s.owner b = c :=
        (h.sound.nodes (c, b) (by rw [hfirst]; exact List.mem_cons_self)).2.1
      refine Or.inr ?_
      rw [← hs']
      show s.owner b ∈ s.last
      rw [howner, hct]
      exact h.sound.lasting t (by rw [hnext]; rfl)
    · refine Or.inl ⟨t, .destroyed, ?_⟩
      have hok' : ({ s with nodes := s'.nodes } : Lib).destroyable b = true := hok
      rw [← hs', destroy_pc, Function.update_self, if_pos hok', if_neg htid]
      rfl
  · exact Or.inl ⟨_, _, hthere⟩
  · exact absurd hafter hfreed
  · exact absurd hafter hfreed

/-- **Every step in turn keeps it.** -/
theorem step {root : Int} (hc : s.Counting root) (hstep : s.Step e s') (turn : s.InTurn e) :
    s'.Reaped where
  lastOne := hr.step_lastOne h hstep
  place := hr.step_place h hstep turn
  free := hr.step_free h hstep
  emptied := hr.step_emptied h hstep
  kept := hr.step_kept h hstep turn
  dead := hr.step_dead h hc hstep
  stage := hr.step_stage h hstep turn

end Reaped

/-! ## Every run -/

/-- **The invariants give the property.** -/
theorem Reaped.lastEnds {root : Int} (hr : s.Reaped) (hc : s.Counting root) : s.LastEnds := by
  intro multi hfinished
  have hplace : ∀ x, s.pc x = .absent ∨ s.pc x = .vanished ∨ s.pc x = .taskVanished := by
    intro x
    rcases hfinished x with habsent | ⟨hended, -⟩
    · exact Or.inl habsent
    · refine Or.inr ?_
      unfold Pc.ended at hended
      split at hended <;> simp_all
  rcases hr.lastOne with hnil | ⟨t, ht⟩
  · -- somebody has not counted
    exfalso
    rcases hc.ahead multi hnil with ⟨x, hx⟩ | ⟨x, hvanished, hexited⟩
    · rcases hplace x with hpc | hpc | hpc <;> rw [hpc] at hx <;> cases hx
    · rcases hfinished x with habsent | ⟨-, hne⟩
      · rw [hvanished] at habsent
        cases habsent
      · exact hne hexited
  · have hmem : t ∈ s.last := by
      rw [ht]
      exact List.mem_singleton_self t
    have hend : s.pc t = .taskVanished := by
      rcases hr.place t hmem with hlasting | hend
      · rcases hplace t with hpc | hpc | hpc <;> rw [hpc] at hlasting <;> cases hlasting
      · exact hend
    have hnodes := hr.emptied t hmem (by rw [hend]; rfl)
    refine ⟨t, ht, hend, hnodes, fun b hb howner => ?_⟩
    by_contra hfreed
    by_cases hno : s.reaped b = .no
    · rcases hr.kept b hb hno with ⟨n, hn, -⟩ | ⟨x, c, hx⟩
      · rw [hnodes] at hn
        cases hn
      · rcases hplace x with hpc | hpc | hpc <;> rw [hpc] at hx <;> cases hx
    · rcases hr.stage b hno hfreed with ⟨x, r, hx⟩ | hlast
      · rcases hplace x with hpc | hpc | hpc <;> rw [hpc] at hx <;> cases hx
      · rw [ht] at hlast
        exact howner (List.mem_singleton.mp hlast)

/-- **The last thread to exit ends the task**, in every run in turn. -/
theorem lastEnds_of_run {root : Nat} {memory : ThreadT} {es : List Event}
    (run : Run (Guarded Step InTurn) (init root memory) es s) : s.LastEnds := by
  have hall : s.Grounded ∧ s.Counting root ∧ s.Reaped := by
    refine run.invariant (I := fun s => s.Grounded ∧ s.Counting root ∧ s.Reaped)
      ⟨grounded_init root memory, counting_init root memory, reaped_init root memory⟩ ?_
    rintro s e s' ⟨h, hc, hr⟩ ⟨step, turn⟩
    exact ⟨h.step step, hc.step h step turn, hr.step h hc step turn⟩
  obtain ⟨-, hc, hr⟩ := hall
  exact hr.lastEnds hc

/-! ## Two threads that exit -/

/-- When the first thread has made thread 2 and nobody else, and both have finished. -/
theorem finished_of_two {es : List Event} (run : Run Step (init 1 zeroed) es s)
    (made : es.filterMap Event.child = [2]) (first : (s.pc 1).ended = true ∧ s.exited 1 ≠ none)
    (second : (s.pc 2).ended = true ∧ s.exited 2 ≠ none) : s.Finished := by
  intro x
  by_cases h1 : x = 1
  · exact Or.inr (h1 ▸ first)
  by_cases h2 : x = 2
  · exact Or.inr (h2 ▸ second)
  refine Or.inl (absent_of_run run (if_neg h1) fun e he hchild => ?_)
  have hmem : x ∈ es.filterMap Event.child := List.mem_filterMap.mpr ⟨e, he, hchild⟩
  rw [made] at hmem
  exact h2 (List.mem_singleton.mp hmem)

/-- Thread 2 exits, and after it thread 1. -/
def exitsInTurn : List Event :=
  makeSecond ++ [.exit 2 ⟨7⟩, .go 2, .go 2, .go 2, .go 2, .go 2, .go 2, .go 2, .go 2,
    .exit 1 ⟨0⟩, .go 1, .go 1, .go 1, .go 1, .go 1, .go 1, .go 1, .go 1, .go 1, .go 1, .go 1]

/-- Thread 1 ends the task. -/
theorem lastEnds_of_run_second : ∃ s : Lib, s.singleThreaded = false ∧ s.Finished ∧
    ∃ t, s.last = [t] ∧ s.pc t = .taskVanished ∧ s.nodes = [] ∧
      ∀ b, b < s.made → s.owner b ≠ t → s.reaped b = .freed := by
  have hrun : (runList (fun s e => if s.inTurn e then s.next e else none) (init 1 zeroed)
      exitsInTurn).map (fun s => (s.singleThreaded, s.pc 1, s.pc 2, (s.exited 1).isSome,
        (s.exited 2).isSome)) = some (false, .taskVanished, .vanished, true, true) := by
    decide +kernel
  obtain ⟨s, hs, hdata⟩ := Option.map_eq_some_iff.mp hrun
  simp only [Prod.mk.injEq] at hdata
  obtain ⟨hmulti, h1, h2, he1, he2⟩ := hdata
  have run : Run (Guarded Step InTurn) (init 1 zeroed) exitsInTurn s :=
    Run.guarded_of_runList (fun _ _ h => h) hs
  have hfinished : s.Finished :=
    finished_of_two run.of_guarded rfl ⟨by rw [h1]; rfl, Option.isSome_iff_ne_none.mp he1⟩
      ⟨by rw [h2]; rfl, Option.isSome_iff_ne_none.mp he2⟩
  exact ⟨s, hmulti, hfinished, lastEnds_of_run run hmulti hfinished⟩

/-- Both threads count before either stores its status. -/
def exitsTogether : List Event :=
  makeSecond ++ [.exit 1 ⟨0⟩, .exit 2 ⟨7⟩, .go 1, .go 1, .go 1, .go 2, .go 2, .go 2,
    .go 1, .go 1, .go 1, .go 1, .go 1, .go 2, .go 2, .go 2, .go 2, .go 2]

/-- **All threads leave as zombies**: both count two running threads, and nobody calls
`task_vanish`. -/
theorem all_leave_as_zombies : ∃ s : Lib, Run Step (init 1 zeroed) exitsTogether s ∧
    s.singleThreaded = false ∧ s.Finished ∧ s.last = [] ∧ ¬s.LastEnds := by
  have hrun : (runList next (init 1 zeroed) exitsTogether).map
      (fun s => (s.singleThreaded, s.last, s.pc 1, s.pc 2, (s.exited 1).isSome,
        (s.exited 2).isSome)) = some (false, [], .vanished, .vanished, true, true) := by
    decide +kernel
  obtain ⟨s, hs, hdata⟩ := Option.map_eq_some_iff.mp hrun
  simp only [Prod.mk.injEq] at hdata
  obtain ⟨hmulti, hlast, h1, h2, he1, he2⟩ := hdata
  have run : Run Step (init 1 zeroed) exitsTogether s := Run.of_runList hs
  have hfinished : s.Finished :=
    finished_of_two run rfl ⟨by rw [h1]; rfl, Option.isSome_iff_ne_none.mp he1⟩
      ⟨by rw [h2]; rfl, Option.isSome_iff_ne_none.mp he2⟩
  refine ⟨s, run, hmulti, hfinished, hlast, fun hends => ?_⟩
  obtain ⟨t, ht, -⟩ := hends hmulti hfinished
  rw [hlast] at ht
  cases ht

end Lib

end Pebbles.ThreadLib
