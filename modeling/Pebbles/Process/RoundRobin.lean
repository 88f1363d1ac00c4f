import Pebbles.Process.NextThread

/-! # Round robin

Threads enter `runnable_queue` at its end only, and `schedule(-1)` takes the first one. So the
thread at position `n` is the current one after `n + 1` calls of `schedule(-1)`, whatever else
happens in between; and `sys_yield` takes its target out of the middle without moving the others. -/

namespace Pebbles

open DoublyLinked Transition

/-! ## The machine -/

namespace Machine

variable {m m1 m' : Machine} {e : Event} {t : Nat} {tid : Int}

/-- A step that returns adds to the end of the runnable threads at most. -/
theorem Returns.run_prefix {o : Out} (hr : Returns m e o m') : m.run <+: m'.run := by
  cases hr with
  | reader t mem state => exact List.prefix_append _ _
  | makeRunnable tid t mem state => exact List.prefix_append _ _
  | threadFork => exact List.prefix_append _ _
  | fork outcome =>
      cases outcome with
      | ok => exact List.prefix_append _ _
      | _ => exact List.prefix_refl _
  | secondScan statusPtr inside alive =>
      rw [resumeWait_eq]
      cases m.goOn.findZombie m.currentPcb <;> exact List.prefix_refl _
  | _ => exact List.prefix_refl _

/-- So does a step that blocks, up to its call of `schedule`. -/
theorem Blocks.run_prefix (hb : Blocks m e m1) : m.run <+: m1.run := by
  cases hb with
  | exit m2 user last parent wakes =>
      cases wakes with
      | nobody quiet => exact List.prefix_refl _
      | init orphan mem => exact List.prefix_append _ _
      | waiter q t parent living mem waiting => exact List.prefix_append _ _
  | _ => exact List.prefix_refl _

/-- So does the scan for sleepers. -/
theorem wakeSleepers_run_prefix (m : Machine) : m.run <+: m.wakeSleepers.run := by
  rcases m.wakeSleepers_cases with heq | ⟨s, -, -, heq⟩
  · exact ⟨[], by rw [List.append_nil, heq]⟩
  · exact ⟨[s], by rw [heq]; rfl⟩

/-- So does putting back the current thread. -/
theorem putBack_run_prefix (m : Machine) : m.run <+: m.putBack.run := by
  rcases m.putBack_cases with ⟨-, heq⟩ | ⟨-, heq⟩ | ⟨-, heq⟩
  · exact ⟨[], by rw [List.append_nil, heq]⟩
  · exact ⟨[], by rw [List.append_nil, heq]⟩
  · exact ⟨[m.current], by rw [heq]⟩

/-- **The thread that `schedule(tid)` asks for**: the first one for `-1`, else the one named. -/
def Asked (run : List Nat) (tid : Int) (t : Nat) : Prop :=
  tid = -1 ∧ run.head? = some t ∨ t ∈ run ∧ (t : Int) = tid

theorem Asked.mem {run : List Nat} (h : Asked run tid t) : t ∈ run := by
  rcases h with ⟨-, hhead⟩ | ⟨hmem, -⟩
  · exact List.mem_of_head? hhead
  · exact hmem

/-- It is asked for in a longer queue too. -/
theorem Asked.of_prefix {run run' : List Nat} (h : Asked run tid t) (longer : run <+: run') :
    Asked run' tid t := by
  rcases h with ⟨htid, hhead⟩ | ⟨hmem, htid⟩
  · refine Or.inl ⟨htid, ?_⟩
    obtain ⟨ts, rfl⟩ := longer
    rw [List.head?_append, hhead]
    rfl
  · exact Or.inr ⟨longer.subset hmem, htid⟩

/-- It is taken. -/
theorem takeNext_asked (h : Asked m.run tid t) :
    m.takeNext tid = some (t, { m with run := m.run.erase t }) := by
  rcases h with ⟨rfl, hhead⟩ | ⟨hmem, rfl⟩
  · obtain ⟨ts, hts⟩ := List.head?_eq_some_iff.mp hhead
    simp [takeNext, hts]
  · have hfind : (m.run.find? fun s : Nat => decide ((s : Int) = (t : Int))) = some t := by
      have hsome : (m.run.find? fun s : Nat => decide ((s : Int) = (t : Int))).isSome = true :=
        List.find?_isSome.mpr ⟨t, hmem, decide_eq_true rfl⟩
      obtain ⟨s, hs⟩ := Option.isSome_iff_exists.mp hsome
      have htest := List.find?_some (p := fun s : Nat => decide ((s : Int) = (t : Int))) hs
      have heq : s = t := Int.ofNat.inj (of_decide_eq_true htest)
      rwa [heq] at hs
    have hne : ((t : Nat) : Int) ≠ -1 := by omega
    simp only [takeNext, hne, if_false, hfind, Option.map_some]

/-- Erasing a thread that the shorter queue has. -/
theorem prefix_erase {xs ys : List Nat} (h : xs <+: ys) (ht : t ∈ xs) :
    xs.erase t <+: ys.erase t := by
  obtain ⟨zs, rfl⟩ := h
  rw [List.erase_append_left _ ht]
  exact List.prefix_append _ _

/-- **`schedule` switches to the thread asked for**, and takes it out of the queue; all others stay
where they are, before those that are added. -/
theorem schedule_asked (h : Asked m.run tid t) :
    ∃ m', m.schedule tid = some m' ∧ m'.current = t ∧ m.run.erase t <+: m'.run := by
  have hscan := m.wakeSleepers_run_prefix
  have hasked := h.of_prefix hscan
  have hstay : ¬ (m.wakeSleepers.current = 1 ∧ m.wakeSleepers.run = []) := by
    rintro ⟨-, hnil⟩
    have hmem := hasked.mem
    rw [hnil] at hmem
    cases hmem
  let m2 : Machine := { m.wakeSleepers with run := m.wakeSleepers.run.erase t }
  have hschedule : m.schedule tid = some (m2.putBack.switchTo t) := by
    simp only [schedule, hstay, if_false, takeNext_asked hasked, Option.map_some, m2]
  refine ⟨_, hschedule, rfl, (prefix_erase hscan h.mem).trans ?_⟩
  rw [switchTo_run]
  exact m2.putBack_run_prefix

end Machine

/-! ## The kernel -/

namespace Kernel

/-- What the code of the event calls `schedule` with, if it does. -/
def asks (k : Kernel) (e : Event) : Option Int :=
  match k.segment e with
  | some (.schedules _ tid) => some tid
  | _ => none

theorem asks_eq_some {k : Kernel} {e : Event} {tid : Int} :
    k.asks e = some tid ↔ ∃ k1, k.segment e = some (.schedules k1 tid) := by
  unfold asks
  constructor
  · intro h
    split at h
    · next k1 tid' hseg =>
        obtain rfl := Option.some.inj h
        exact ⟨k1, hseg⟩
    · cases h
  · rintro ⟨k1, hseg⟩
    rw [hseg]

/-- An event that returns in its segment does not ask. -/
theorem segment_of_asks_none {k k' : Kernel} {e : Event} {o : Out} (hs : k.step e = some (k', o))
    (none : k.asks e = none) : k.segment e = some (.returns k' o) := by
  rw [step_eq_segment] at hs
  obtain ⟨seg, hseg, hfinish⟩ := Option.bind_eq_some_iff.mp hs
  cases seg with
  | returns k1 o1 =>
      obtain ⟨rfl, rfl⟩ := Prod.mk.inj (Option.some.inj hfinish)
      exact hseg
  | schedules k1 tid =>
      rw [asks_eq_some.mpr ⟨k1, hseg⟩] at none
      cases none

/-- A system call that returns hands a value to its caller, but for `set_status`. -/
theorem setStatus_of_quiet {k k1 : Kernel} {c : SysCall}
    (h : k.callSegment c = some (.returns k1 Out.quiet)) : ∃ status, c = .setStatus status := by
  cases c with
  | setStatus status => exact ⟨status, rfl⟩
  | yield tid =>
      simp only [callSegment, yieldSegment, Option.some.injEq] at h
      split_ifs at h <;> cases h
  | sleep ticks =>
      simp only [callSegment, sleepSegment, Option.some.injEq] at h
      split_ifs at h <;> cases h
  | deschedule mapped reject =>
      simp only [callSegment, descheduleSegment, Option.some.injEq] at h
      split_ifs at h <;> cases h
  | readline len mapped =>
      simp only [callSegment, readlineSegment, Option.some.injEq] at h
      split_ifs at h <;> cases h
  | makeRunnable tid =>
      have hout := (Segment.returns.inj (Option.some.inj h)).2
      simp only [sysMakeRunnable] at hout
      split_ifs at hout
      · cases hout
      · cases hout
      · split at hout <;> cases hout
  | threadFork => cases h
  | fork outcome => cases outcome <;> cases h
  | vanish =>
      obtain ⟨k2, -, heq⟩ := Option.map_eq_some_iff.mp h
      cases heq
  | wait statusPtr =>
      simp only [callSegment, waitSegment, Option.some.injEq] at h
      split_ifs at h
      · cases h
      · cases h
      · split at h <;> cases h

/-- The runnable threads in the order of the queue. -/
def runnable (k : Kernel) : List Nat := k.members k.runnableQueue

/-- The machine that represents the kernel has the same runnable threads. -/
theorem RepresentedBy.runnable_eq {k : Kernel} {m : Machine} (h : k.RepresentedBy m) :
    k.runnable = m.run :=
  h.1.members_runnable h.2.queues

/-- A `sys_yield` that is not refused asks for a runnable thread. -/
theorem yield_accepted {k v : Kernel} {o : Out} {t : Nat}
    (hs : k.step (.call (.yield t)) = some (v, o)) (accepted : o.ret ≠ some (-1)) :
    k.asks (.call (.yield t)) = some (t : Int) ∧ t ∈ k.runnable := by
  rw [step_eq_segment] at hs
  obtain ⟨seg, hseg, hfinish⟩ := Option.bind_eq_some_iff.mp hs
  -- a return of the segment is a refusal
  have refused : seg ≠ .returns k (Out.value (-1)) := by
    rintro rfl
    obtain ⟨-, rfl⟩ := Prod.mk.inj (Option.some.inj hfinish)
    exact accepted rfl
  simp only [segment] at hseg
  split_ifs at hseg with user
  have hlow : ¬ (t : Int) < -1 := by omega
  have hfirst : ¬ (t : Int) = -1 := by omega
  simp only [callSegment, yieldSegment, if_neg hlow, if_neg hfirst, Option.some.injEq] at hseg
  split_ifs at hseg with hblocked hself hrunnable
  · exact absurd hseg.symm refused
  · exact absurd hseg.symm refused
  · constructor
    · apply asks_eq_some.mpr
      refine ⟨k, ?_⟩
      simp only [segment, callSegment, yieldSegment, if_pos user, if_neg hlow, if_neg hfirst,
        if_neg hblocked, if_neg hself, if_pos hrunnable]
    · obtain ⟨s, hmem, heq⟩ := List.any_eq_true.mp hrunnable
      obtain rfl : s = t := Int.ofNat.inj (of_decide_eq_true heq)
      exact hmem
  · exact absurd hseg.symm refused

/-! ## One event -/

/-- **An event that does not call `schedule`** adds to the end of the queue at most. -/
theorem Reaches.runnable_returns {as : List Action} {k k' : Kernel} {e : Event} {o : Out}
    (reach : Reaches as k) (hs : k.step e = some (k', o)) (none : k.asks e = none) :
    k.runnable <+: k'.runnable := by
  obtain ⟨m, hm⟩ := reach.represented
  obtain ⟨m', hstep, hm'⟩ := hm.step (x := ⟨k, e, o⟩) ⟨rfl, hs⟩
  have hseg := segment_of_asks_none hs none
  rw [hm.runnable_eq, hm'.runnable_eq]
  rcases Machine.step_cases hstep with hreturns | ⟨hquiet, m1, tid, hblocks, hsched⟩
  · exact hreturns.run_prefix
  -- the machine cannot block where the kernel returns
  · obtain rfl : o = Out.quiet := hquiet
    cases e with
    | timer =>
        have hticks := hm.1.numTicks
        simp only [segment, timerSegment, hticks, Option.some.injEq] at hseg
        simp only [Machine.step, Machine.timerHandler] at hstep
        split_ifs at hseg with hdue
        rw [if_neg hdue] at hstep
        obtain ⟨rfl, -⟩ := Prod.mk.inj (Option.some.inj hstep)
        exact List.prefix_refl _
    | reschedule => cases hseg
    | newline => cases hblocks
    | resume => cases hblocks
    | call c =>
        simp only [segment] at hseg
        split_ifs at hseg
        obtain ⟨status, rfl⟩ := setStatus_of_quiet hseg
        cases hblocks with
        | aside _ b manages user state owner resume => cases manages

/-- **An event that calls `schedule`** gets a result: the thread asked for runs, and all others keep
their order at the front of the queue. -/
theorem Reaches.runnable_schedules {as : List Action} {k : Kernel} {e : Event} {tid : Int} {t : Nat}
    (reach : Reaches as k) (asks : k.asks e = some tid)
    (asked : Machine.Asked k.runnable tid t) :
    ∃ k', k.step e = some (k', Out.quiet) ∧ k'.currentThread = t ∧
      k.runnable.erase t <+: k'.runnable := by
  obtain ⟨m, hm⟩ := reach.represented
  obtain ⟨k1, hseg⟩ := asks_eq_some.mp asks
  obtain ⟨m1, hblocks, h1, -⟩ := hm.1.segment hm.2 hseg
  have hat := (hm.2.blocks hblocks).1
  rw [hm.runnable_eq] at asked ⊢
  have hasked := asked.of_prefix hblocks.run_prefix
  obtain ⟨m', hsched, hcur, hrun⟩ := Machine.schedule_asked hasked
  -- the kernel's selection succeeds too
  have hsome : ∃ k', k1.schedule tid = some k' := by
    have hwake := h1.wakeSleepers hat.queues
    have hscan := m1.wakeSleepers_run_prefix
    obtain ⟨hqueues, -, -, -⟩ := Machine.wakeSleepers_spec hat.queues
    have hknown := hasked.of_prefix hscan
    obtain ⟨s, k2, htake, -⟩ := hwake.takeNext_some hqueues (List.ne_nil_of_mem hknown.mem)
      (hknown.imp And.left fun h => ⟨t, h⟩)
    unfold schedule
    simp only
    split_ifs
    · exact ⟨_, rfl⟩
    · exact ⟨_, by rw [htake]; rfl⟩
  obtain ⟨k', hk'⟩ := hsome
  obtain ⟨m2, hm2, href⟩ := h1.schedule hat.queues hk'
  obtain rfl : m' = m2 := Option.some.inj (hsched.symm.trans hm2)
  have hqueues' := (Machine.schedule_spec hat.queues hat.idle hsched).1
  refine ⟨k', ?_, ?_, ?_⟩
  · rw [step_eq_segment, hseg]
    simp only [Option.bind_some, Segment.finish, hk', Option.map_some]
  · rw [href.current, hcur]
  · rw [Kernel.runnable, href.members_runnable hqueues']
    exact (Machine.prefix_erase hblocks.run_prefix asked.mem).trans hrun

/-! ## Runs -/

end Kernel

/-- What the code of the action calls `schedule` with, if it does. -/
def Action.asks (x : Action) : Option Int := x.before.asks x.event

namespace Kernel

/-- **The position in the queue**: along a run whose calls of `schedule` are all `schedule(-1)`, a
thread moves up by one place with each of them and by nothing else. -/
theorem Reaches.position {as bs : List Action} {k u : Kernel} {n c t : Nat} (reach : Reaches as k)
    (position : k.runnable[n]? = some t) (run : Run Step k bs u)
    (plain : ∀ x ∈ bs, x.asks = none ∨ x.asks = some (-1))
    (count : bs.countP (fun x => x.asks = some (-1)) = c) (hc : c ≤ n) :
    u.runnable[n - c]? = some t := by
  induction run generalizing c with
  | nil =>
      obtain rfl : 0 = c := count
      exact position
  | @snoc bs u v x prev hstep ih =>
      have plain' : ∀ y ∈ bs, y.asks = none ∨ y.asks = some (-1) := fun y hy =>
        plain y (List.mem_append_left _ hy)
      have reach' : Reaches (as ++ bs) u := reach.append prev
      obtain ⟨hbefore, hevent⟩ := hstep
      have hasks : x.asks = u.asks x.event := by rw [Action.asks, hbefore]
      rw [List.countP_append, List.countP_singleton] at count
      rcases plain x (List.mem_append_right _ List.mem_cons_self) with hnone | hnext
      · have hpos := ih plain' rfl (by omega)
        rw [hnone] at count
        obtain rfl : bs.countP (fun x => x.asks = some (-1)) = c := by simpa using count
        rw [hnone] at hasks
        obtain ⟨ts, hts⟩ := reach'.runnable_returns hevent hasks.symm
        rw [← hts, List.getElem?_append_left (List.getElem?_eq_some_iff.mp hpos).1]
        exact hpos
      · rw [hnext] at count hasks
        simp only [decide_true, if_true] at count
        have hpos := ih plain' rfl (by omega)
        -- the head goes, and the thread is not the head
        cases hq : u.runnable with
        | nil =>
            rw [hq] at hpos
            cases hpos
        | cons s ss =>
            have hasked : Machine.Asked u.runnable (-1) s := Or.inl ⟨rfl, by rw [hq]; rfl⟩
            obtain ⟨v', hv', -, ts, hts⟩ := reach'.runnable_schedules hasks.symm hasked
            obtain ⟨rfl, -⟩ := Prod.mk.inj (Option.some.inj (hv'.symm.trans hevent))
            rw [hq, List.erase_cons_head] at hts
            have hrest : n - bs.countP (fun x => x.asks = some (-1)) = n - c + 1 := by omega
            rw [hq, hrest, List.getElem?_cons_succ] at hpos
            rw [← hts, List.getElem?_append_left (List.getElem?_eq_some_iff.mp hpos).1]
            exact hpos

/-- `init` has started a second thread, which waits behind `idle`. -/
def behindIdle : Kernel := (trace [.call .threadFork]).2

end Kernel

end Pebbles
