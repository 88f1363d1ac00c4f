import Pebbles.Libthread.ThreadBlocks
import Pebbles.Libthread.ThreadLocks

/-! # The start of a created thread

A created thread waits on `list_cond` until its `thread_t` is in `thread_list`. There is one such
condition variable for all threads, and a signal wakes one waiter: the longest one, whoever
it is. -/

namespace Pebbles.ThreadLib

open Monitors Transition

namespace Pc

/-- A call of `thr_create` that has not signalled `list_cond`. -/
def toSignal : Pc → Bool
  | createLock | createProbe | createUnlock _ | createFork _ | createInit _ _ | createLockList _ _
  | createInsert _ _ | createSignal _ => true
  | _ => false

/-- A thread that was woken and has not looked again. -/
def toCheck : Pc → Bool
  | childRelock | childCheck true => true
  | _ => false

variable {p q : Pc}

theorem Flow.childWait_back (h : Flow p q) (hq : q = .childWait) :
    p = .childWait ∨ ∃ w, p = .childCheck w := by
  cases h.edge <;> simp_all

theorem eq_childWait_of_op {l : Lock} {a r : Pc} (h : p.op = .wait .list l a r) : p = .childWait := by
  unfold Pc.op at h
  split at h <;> simp_all

end Pc

/-- The thread that an event makes. -/
def Event.child : Event → Option Int
  | fork _ c => some c
  | _ => none

namespace Lib

/-! ## The property and the condition -/

/-- **No thread sleeps forever**: a thread in the queue of `list_cond` that is in `thread_list` will
be signalled, or a thread that was woken has not looked again. -/
def Starts (s : Lib) : Prop :=
  ∀ c ∈ s.queue .list, s.search c ≠ none →
    (∃ t, (s.pc t).toSignal = true) ∨ ∃ t, (s.pc t).toCheck = true

/-- The condition, as a test: a signal for a thread in the queue finds it at the front. -/
def signalsFirst (s : Lib) : Event → Bool
  | .go t =>
      match s.pc t with
      | .createSignal c => c ∉ s.queue .list ∨ (s.queue .list).head? = some c
      | _ => true
  | _ => true

/-- **Careful signals.** When `thr_create` signals `list_cond`, the thread that it has made is not
in the queue, or is the first one there. -/
def SignalsFirst (s : Lib) (e : Event) : Prop := s.signalsFirst e = true

/-! ## The invariant -/

/-- A sleeping thread in the list is about to be signalled by its maker, and a thread that is about
to sleep is not in the list. -/
structure Signalled (s : Lib) : Prop where
  /-- Sleeping threads. -/
  asleep : ∀ c ∈ s.queue .list, s.search c ≠ none → ∃ t, s.pc t = .createSignal c
  /-- Threads about to sleep. -/
  waits : ∀ c, s.pc c = .childWait → s.search c = none

variable {s s' : Lib} {e : Event}

theorem Signalled.starts (h : s.Signalled) : s.Starts := by
  intro c hc hfound
  obtain ⟨t, ht⟩ := h.asleep c hc hfound
  exact Or.inl ⟨t, by rw [ht]; rfl⟩

theorem signalled_init (root : Nat) (memory : ThreadT) : (init root memory).Signalled where
  asleep c hc := by cases hc
  waits c hc := by
    have hpc : (init root memory).pc c = if c = root then .user else .absent := rfl
    rw [hpc] at hc
    split_ifs at hc

/-- Who was not found is not found after a step, except for a thread that is put into the list. -/
theorem search_none_keep (h : s.Effect e s') {c : Int} (hnone : s.search c = none) :
    s'.search c = none ∨ ∃ t b, s.pc t = .createInsert b c ∧ s'.pc t = .createSignal c := by
  rw [search_eq_none_iff] at hnone
  rcases h.nodes with hsame | ⟨t, b, c', hinsert, hsignal, hnodes⟩ | ⟨t, tid, v, -, hnodes⟩ |
    ⟨t, m, -, hnodes⟩
  · exact Or.inl (search_eq_none_iff.mpr (by rwa [hsame]))
  · by_cases hc : c' = c
    · subst hc
      exact Or.inr ⟨t, b, hinsert, hsignal⟩
    · refine Or.inl (search_eq_none_iff.mpr fun n hn => ?_)
      rw [hnodes, List.mem_append, List.mem_singleton] at hn
      rcases hn with hn | rfl
      · exact hnone n hn
      · exact hc
  · refine Or.inl (search_eq_none_iff.mpr fun n hn => ?_)
    rw [hnodes] at hn
    exact hnone n (List.mem_of_mem_eraseP hn)
  · refine Or.inl (search_eq_none_iff.mpr fun n hn => hnone n ?_)
    rw [hnodes]
    exact List.mem_cons_of_mem _ hn

/-- Who waits on `list_cond` has been there, or comes from `cond_wait`. -/
theorem Effect.queue_list (h : s.Effect e s') {c : Int} (hc : c ∈ s'.queue .list) :
    c ∈ s.queue .list ∨ s.pc c = .childWait ∧ s'.nodes = s.nodes := by
  have hinit : ∀ b : Nat, Function.update s.queue (Cond.thread b) [] Cond.list = s.queue .list :=
    fun b => Function.update_of_ne (fun h => by cases h) _ _
  cases h with
  | init => exact Or.inl (by rwa [← hinit s.made])
  | @sync t u moves =>
      change c ∈ u.queue .list at hc
      cases moves with
      | @wait d l a p here there =>
          by_cases hd : d = .list
          · subst hd
            rw [Sync.setQueue_queue, Function.update_self, List.mem_append, List.mem_singleton] at hc
            refine hc.imp_right ?_
            rintro rfl
            exact ⟨Pc.eq_childWait_of_op here, rfl⟩
          · rw [Sync.setQueue_queue, Function.update_of_ne (Ne.symm hd)] at hc
            exact Or.inl hc
      | @signal d p x q here first =>
          by_cases hd : d = .list
          · subst hd
            rw [Sync.setQueue_queue, Function.update_self] at hc
            refine Or.inl ?_
            rw [first]
            exact List.mem_cons_of_mem _ hc
          · rw [Sync.setQueue_queue, Function.update_of_ne (Ne.symm hd)] at hc
            exact Or.inl hc
      | _ => exact Or.inl hc
  | _ => exact Or.inl hc

theorem Signalled.step_waits (h : s.Signalled) (hl : s.Locked) (step : s.Step e s') (c : Int)
    (hc : s'.pc c = .childWait) : s'.search c = none := by
  have heffect := effect_of_step step
  rcases (heffect.flow c).childWait_back hc with hstay | ⟨w, hcheck⟩
  · refine (search_none_keep heffect (h.waits c hstay)).resolve_right ?_
    -- both would hold `list_mutex`
    rintro ⟨t, b, hinsert, -⟩
    have hsame : t = c := hl.exclusive.unique (by rw [hinsert]; rfl) (by rw [hstay]; rfl)
    rw [hsame, hstay] at hinsert
    cases hinsert
  · obtain ⟨-, hcode⟩ := code_of_edge step hcheck hc Pc.noConfusion rfl
    simp only [code, hcheck] at hcode
    obtain rfl := Option.some.inj hcode
    rw [move_pc, Function.update_self] at hc
    split_ifs at hc with hnone
    exact hnone

theorem Signalled.step_asleep (h : s.Signalled) (has : Program.Asleep Pc.sleeping s.toSync)
    (step : s.Step e s') (careful : s.SignalsFirst e) (c : Int) (hc : c ∈ s'.queue .list)
    (hfound : s'.search c ≠ none) : ∃ t, s'.pc t = .createSignal c := by
  have heffect := effect_of_step step
  rcases heffect.queue_list hc with hold | ⟨hwait, hnodes⟩
  swap
  · rw [search_of_nodes hnodes, h.waits c hwait] at hfound
    exact absurd rfl hfound
  by_cases hnone : s.search c = none
  · obtain ⟨t, b, -, hsignal⟩ := (search_none_keep heffect hnone).resolve_left hfound
    exact ⟨t, hsignal⟩
  · obtain ⟨t, ht⟩ := h.asleep c hold hnone
    by_cases hstay : s'.pc t = .createSignal c
    · exact ⟨t, hstay⟩
    · -- the signal wakes the thread, which is the first in the queue
      obtain ⟨rfl, hqueue⟩ := signal_step step (congrArg Pc.op ht) (by rwa [ht])
      simp only [SignalsFirst, signalsFirst, ht, decide_eq_true_eq] at careful
      have hfirst := careful.resolve_left (not_not.mpr hold)
      obtain ⟨rest, hrest⟩ := List.head?_eq_some_iff.mp hfirst
      have hnodup := has.nodup .list
      rw [hrest] at hnodup
      rw [hqueue, hrest, List.tail_cons] at hc
      exact absurd hc (List.nodup_cons.mp hnodup).1

/-- **Every created thread gets to start**, in every run with careful signals. -/
theorem starts_of_signalsFirst {root : Nat} {memory : ThreadT} {es : List Event}
    (run : Run (Guarded Step SignalsFirst) (init root memory) es s) :
    Run (Into Step Starts) (init root memory) es s := by
  have keep : ∀ {s s' : Lib} {e : Event}, s.Signalled ∧ s.Locked ∧
      Program.Asleep Pc.sleeping s.toSync → Guarded Step SignalsFirst s e s' →
        s'.Signalled ∧ s'.Locked ∧ Program.Asleep Pc.sleeping s'.toSync := by
    rintro s s' e ⟨h, hl, has⟩ ⟨step, careful⟩
    exact ⟨⟨h.step_asleep has step careful, h.step_waits hl step⟩, hl.step (effect_of_step step),
      asleep_step has (effect_of_step step)⟩
  refine run.mono_of_invariant
    (I := fun s => s.Signalled ∧ s.Locked ∧ Program.Asleep Pc.sleeping s.toSync)
    ⟨signalled_init root memory, locked_init root memory, asleep_init root memory⟩ ?_ ?_
  · exact fun _ _ _ h step => keep h step
  · exact fun _ _ _ h step => ⟨step.1, (keep h step).1.starts⟩

/-! ## Two threads that are made at the same time -/

/-- A thread is absent as long as no event makes it. -/
theorem absent_of_run {s t : Lib} {es : List Event} (run : Run Step s es t) {x : Int}
    (absent : s.pc x = .absent) (hx : ∀ e ∈ es, e.child ≠ some x) : t.pc x = .absent := by
  induction run with
  | nil => exact absent
  | snoc prev step ih =>
      have hbefore := ih fun e he => hx e (List.mem_append_left _ he)
      by_contra hmade
      obtain ⟨-, y, base, hfork, hinit, -⟩ := (effect_of_step step).born hbefore hmade
      obtain ⟨-, rfl, -⟩ := forks step hfork hinit
      exact hx _ (List.mem_append_right _ (List.mem_singleton_self _)) rfl

/-- The memory of the first `thread_t`. -/
def zeroed : ThreadT := ⟨0, 0, .running, ⟨0⟩, 0⟩

/-- The first thread makes thread 2. -/
def makeSecond : List Event :=
  [.create 1, .go 1, .probe 1 100, .go 1, .fork 1 2, .go 1, .go 1, .go 1, .go 1, .go 1,
    .go 2, .go 2, .go 2]

/-- A created thread starts. -/
theorem starts_of_signalsFirst_second : ∃ s,
    Run (Into Step Starts) (init 1 zeroed) makeSecond s ∧ s.pc 2 = .user := by
  have hrun : (runList (fun s e => if s.signalsFirst e then s.next e else none) (init 1 zeroed)
      makeSecond).map (fun s => s.pc 2) = some .user := by decide +kernel
  obtain ⟨s, hs, hpc⟩ := Option.map_eq_some_iff.mp hrun
  exact ⟨s, starts_of_signalsFirst (Run.guarded_of_runList (fun _ _ h => h) hs), hpc⟩

/-- Both make a thread; the new threads 3 and 4 wait in this order, and thread 4 is registered
first. -/
def crossing : List Event :=
  makeSecond ++ [.create 1, .go 1, .probe 1 200, .go 1, .fork 1 3, .create 2, .go 2, .probe 2 300,
    .go 2, .fork 2 4, .go 3, .go 3, .go 3, .go 4, .go 4, .go 4, .go 2, .go 2, .go 2, .go 2, .go 2,
    .go 3, .go 3, .go 3, .go 1, .go 1, .go 1, .go 1, .go 1, .go 4, .go 4, .go 4]

/-- **A thread sleeps forever**: the signal for thread 4 wakes thread 3, and the signal for thread 3
wakes thread 4. -/
theorem sleeps_forever : ∃ s, Run Step (init 1 zeroed) crossing s ∧ ¬s.Starts := by
  have hrun : (runList next (init 1 zeroed) crossing).map
      (fun s => (s.queue .list, s.search 3, s.pc 1, s.pc 2, s.pc 3, s.pc 4)) =
        some ([3], some 3, .user, .user, .childAsleep, .user) := by decide +kernel
  obtain ⟨s, hs, hpc⟩ := Option.map_eq_some_iff.mp hrun
  simp only [Prod.mk.injEq] at hpc
  obtain ⟨hqueue, hsearch, h1, h2, h3, h4⟩ := hpc
  have run : Run Step (init 1 zeroed) crossing s := Run.of_runList hs
  refine ⟨s, run, fun hstarts => ?_⟩
  -- all threads
  have hall : ∀ t, s.pc t = .user ∨ s.pc t = .childAsleep ∨ s.pc t = .absent := by
    intro t
    by_cases ht : t = 1 ∨ t = 2 ∨ t = 3 ∨ t = 4
    · rcases ht with rfl | rfl | rfl | rfl
      · exact Or.inl h1
      · exact Or.inl h2
      · exact Or.inr (Or.inl h3)
      · exact Or.inl h4
    · refine Or.inr (Or.inr (absent_of_run run ?_ ?_))
      · exact if_neg fun h1 => ht (Or.inl h1)
      · intro e he hchild
        have hmem : t ∈ crossing.filterMap Event.child := List.mem_filterMap.mpr ⟨e, he, hchild⟩
        have hmade : crossing.filterMap Event.child = [2, 3, 4] := rfl
        rw [hmade] at hmem
        simp only [List.mem_cons, List.not_mem_nil, or_false] at hmem
        exact ht (Or.inr hmem)
  rcases hstarts 3 (by rw [hqueue]; exact List.mem_singleton_self 3) (by rw [hsearch]; simp) with
    ⟨t, ht⟩ | ⟨t, ht⟩
  · rcases hall t with h | h | h <;> rw [h] at ht <;> cases ht
  · rcases hall t with h | h | h <;> rw [h] at ht <;> cases ht

end Lib

end Pebbles.ThreadLib
