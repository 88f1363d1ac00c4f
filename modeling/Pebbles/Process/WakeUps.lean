import Pebbles.Process.NextThread
import Pebbles.Process.LastThread

/-! # Who wakes a blocked thread

Five pieces of code take threads off the one `blocked_queue`. Four of them test the state of the
thread; the search for thread 2 in `sys_vanish` does not, and wakes it from a sleep, a deschedule or
a readline too. -/

namespace Pebbles

open DoublyLinked Transition

/-! ## Own events -/

/-- The parent of `p` is `NULL` or has exited. -/
def Kernel.Orphan (k : Kernel) (p : Nat) : Prop :=
  ∀ q, (k.pcb p).parent = some q → (k.pcb q).state = .exit

/-- The code of the event calls `schedule`, and the wake-up test there holds for `t`. -/
def Action.WakesSleeper (x : Action) (t : Nat) : Prop :=
  ∃ k1 tid, x.before.segment x.event = some (.schedules k1 tid) ∧ k1.sleepOver t = true

/-- **The own event** of a blocked thread `t`: what it sleeps, waits, reads or was descheduled
for. -/
def Action.OwnEvent (x : Action) (t : Nat) : ThreadState → Prop
  | .blocked => x.event = .call (.makeRunnable t)
  | .sleeping => x.WakesSleeper t
  | .readline => x.event = .newline
  | .waiting => x.before.Exits x ∧
      ((x.before.pcb x.process).parent = some (x.before.tcb t).pcb ∨
        t = 2 ∧ x.before.Orphan x.process)
  | _ => False

/-- **Woken by their own event only**: the property of a step. -/
def WokenByOwnEvent (k : Kernel) (x : Action) (k' : Kernel) : Prop :=
  ∀ t ∈ k.members k.blockedQueue, t ∉ k'.members k'.blockedQueue →
    x.OwnEvent t (k.tcb t).state

/-- When an orphan exits, thread 2 is not in `blocked_queue`, or it is there because of `wait`. -/
def SparesInit (k : Kernel) (x : Action) : Prop :=
  k.Exits x → k.Orphan k.currentPcb → 2 ∈ k.members k.blockedQueue → (k.tcb 2).state = .waiting

/-! ## The machine -/

namespace Machine

variable {m m1 m' : Machine} {e : Event} {t : Nat}

/-- Waking takes one thread off the queue. -/
theorem eq_of_leaves_wake {s : Nat} (ht : t ∈ m.blk) (hleft : t ∉ (m.wake s).blk) : t = s := by
  by_contra hne
  apply hleft
  exact (List.mem_erase_of_ne hne).mpr ht

/-- What `schedule` does to the queues. -/
theorem schedule_cases {tid : Int} (hs : m.schedule tid = some m') :
    m' = m.wakeSleepers ∨ ∃ next, m' =
      ({ m.wakeSleepers with run := m.wakeSleepers.run.erase next }.putBack).switchTo next := by
  unfold schedule at hs
  simp only at hs
  split_ifs at hs with hstay
  · exact Or.inl (Option.some.inj hs).symm
  · obtain ⟨⟨next, m2⟩, htake, heq⟩ := Option.map_eq_some_iff.mp hs
    obtain ⟨-, rfl⟩ := takeNext_cases htake
    exact Or.inr ⟨next, heq.symm⟩

/-- Putting back adds at most the current thread to the blocked queue. -/
theorem putBack_blk (m : Machine) :
    m.putBack.blk = m.blk ∨
      (m.tcb m.current).state ≠ .exit ∧ m.putBack.blk = m.blk ++ [m.current] := by
  rcases m.putBack_cases with ⟨-, heq⟩ | ⟨hst, heq⟩ | ⟨-, heq⟩ <;> rw [heq]
  · exact Or.inl rfl
  · exact Or.inr ⟨ne_exit_of_suspended hst, rfl⟩
  · exact Or.inl rfl

/-- **Whoever leaves the blocked queue inside `schedule`** has slept long enough. -/
theorem sleepOver_of_leaves {tid : Int} (hs : m.schedule tid = some m') (ht : t ∈ m.blk)
    (hleft : t ∉ m'.blk) : m.sleepOver t = true := by
  have hscan : t ∉ m.wakeSleepers.blk := by
    intro hmem
    apply hleft
    rcases schedule_cases hs with rfl | ⟨next, rfl⟩
    · exact hmem
    · rw [switchTo_blk]
      rcases putBack_blk { m.wakeSleepers with run := m.wakeSleepers.run.erase next } with
        heq | ⟨-, heq⟩ <;> rw [heq]
      · exact hmem
      · exact List.mem_append_left _ hmem
  unfold wakeSleepers at hscan
  cases hfind : m.blk.find? m.sleepOver with
  | none =>
      rw [hfind] at hscan
      exact absurd ht hscan
  | some s =>
      rw [hfind] at hscan
      rw [eq_of_leaves_wake ht hscan]
      exact List.find?_some hfind

/-- A thread that has exited does not enter the blocked queue inside `schedule`. -/
theorem mem_blk_of_schedule {tid : Int} (hs : m.schedule tid = some m') {hand : List Nat}
    (hq : m.Queues hand) (exits : (m.tcb m.current).state = .exit) (ht : t ∈ m'.blk) :
    t ∈ m.blk := by
  obtain ⟨-, hshuf, hcur, -⟩ := wakeSleepers_spec hq
  have hscan : t ∈ m.wakeSleepers.blk := by
    rcases schedule_cases hs with rfl | ⟨next, rfl⟩
    · exact ht
    · rw [switchTo_blk] at ht
      rcases putBack_blk { m.wakeSleepers with run := m.wakeSleepers.run.erase next } with
        heq | ⟨hlive, -⟩
      · rw [heq] at ht
        exact ht
      · exfalso
        apply hlive
        show (m.wakeSleepers.tcb m.wakeSleepers.current).state = .exit
        rw [hcur, hshuf.exit_iff]
        exact exits
  rcases m.wakeSleepers_cases with heq | ⟨s, -, -, heq⟩ <;> rw [heq] at hscan
  · exact hscan
  · exact List.mem_of_mem_erase hscan

/-- `make_runnable` wakes the thread it is called for. -/
theorem makeRunnable_leaves {tid : Int} {o : Out}
    (hs : m.step (.call (.makeRunnable tid)) = some (m', o)) (ht : t ∈ m.blk)
    (hleft : t ∉ m'.blk) : tid = t ∧ (m.tcb t).state = .blocked := by
  have user := inUser_of_step hs
  simp only [step, user, if_true, call, sysMakeRunnable, Option.some.injEq] at hs
  split_ifs at hs with hbad hrun
  · obtain ⟨rfl, -⟩ := Prod.mk.inj hs
    exact absurd ht hleft
  · obtain ⟨rfl, -⟩ := Prod.mk.inj hs
    exact absurd ht hleft
  · cases hfind : m.blk.find? (fun t : Nat =>
        decide ((t : Int) = tid ∧ (m.tcb t).state = .blocked)) with
    | none =>
        rw [hfind] at hs
        obtain ⟨rfl, -⟩ := Prod.mk.inj hs
        exact absurd ht hleft
    | some s =>
        rw [hfind] at hs
        obtain ⟨rfl, -⟩ := Prod.mk.inj hs
        rw [eq_of_leaves_wake ht hleft]
        have hfound := List.find?_some hfind
        simp only [decide_eq_true_eq] at hfound
        exact ⟨hfound.1.symm, hfound.2⟩

/-- **Whoever leaves the blocked queue in a step that returns** was descheduled or reads a line. -/
theorem Returns.leaves {o : Out} (hr : Returns m e o m') (ht : t ∈ m.blk) (hleft : t ∉ m'.blk) :
    e = .newline ∧ (m.tcb t).state = .readline ∨ ∃ tid, e = .call (.makeRunnable tid) := by
  cases hr with
  | reader s mem state =>
      rw [eq_of_leaves_wake ht hleft]
      exact Or.inl ⟨rfl, state⟩
  | makeRunnable tid s mem state => exact Or.inr ⟨tid, rfl⟩
  | fork outcome => cases outcome <;> exact absurd ht hleft
  | secondScan statusPtr inside alive =>
      rw [resumeWait_eq] at hleft
      cases hz : m.goOn.findZombie m.currentPcb <;> rw [hz] at hleft <;> exact absurd ht hleft
  | _ => exact absurd ht hleft

/-- **Whoever leaves the blocked queue before the call of `schedule`** is thread 2, when an orphan
exits, or a waiting thread of the parent of the process that exits. -/
theorem Blocks.leaves (hb : Blocks m e m1) (wf : m.Wf) (ht : t ∈ m.blk) (hleft : t ∉ m1.blk) :
    e = .call .vanish ∧ m.liveCount (m.proc m.currentPcb).chain = 1 ∧
      (t = 2 ∧ (∀ q, (m.proc m.currentPcb).parent = some q → (m.proc q).state = .exit) ∨
        (m.tcb t).state = .waiting ∧ (m.proc m.currentPcb).parent = some (m.tcb t).pcb) := by
  cases hb with
  | exit m2 user last parent wakes =>
      refine ⟨rfl, last, ?_⟩
      have hparent : ((m.exited m.currentPcb).proc m.currentPcb).parent =
          (m.proc m.currentPcb).parent := by
        rw [exited_proc_self]
      cases wakes with
      | nobody quiet => exact absurd ht hleft
      | init orphan mem =>
          refine Or.inl ⟨eq_of_leaves_wake (m := m.exited m.currentPcb) ht hleft, fun q hq => ?_⟩
          have hexit := orphan q (hparent.trans hq)
          rwa [m.exited_proc_of_ne (wf.parent_ne user.2.2 hq)] at hexit
      | waiter q s hq living mem waiting =>
          obtain rfl := eq_of_leaves_wake (m := m.exited m.currentPcb) ht hleft
          obtain ⟨hown, -⟩ := (wf.exited m.currentPcb).chains.own q t mem
          rw [← hparent, hq, ← hown]
          exact Or.inr ⟨waiting, rfl⟩
  | _ => exact absurd ht hleft

/-- A thread that stays in the blocked queue up to the call of `schedule` keeps its state. -/
theorem Blocks.state_eq (hb : Blocks m e m1) (wf : m.Wf) (ht : t ∈ m.blk) (ht1 : t ∈ m1.blk) :
    (m1.tcb t).state = (m.tcb t).state := by
  have hcur : t ≠ m.current := by
    rintro rfl
    exact (List.nodup_cons.mp wf.queues.nodup).1 (List.mem_append_right m.run ht)
  have hnodup : m.blk.Nodup := (wf.queues.nodup.of_append_right).of_append_right
  have hwake : ∀ s, t ∈ (m.wake s).blk → ((m.wake s).tcb t).state = (m.tcb t).state := by
    intro s hs
    have hne : t ≠ s := (hnodup.mem_erase_iff.mp hs).1
    rw [wake_state, if_neg hne]
  cases hb with
  | tick n => rfl
  | reschedule => rfl
  | yield tid => rfl
  | aside c b manages user state owner resume => simp [setTcb, hcur]
  | wait statusPtr user none => simp [setTcb, hcur]
  | vanish user peers => rw [setState_state, if_neg hcur]
  | exit m2 user last parent wakes =>
      rw [setState_state, if_neg hcur]
      cases wakes with
      | nobody quiet => rfl
      | init orphan mem => exact hwake 2 ht1
      | waiter q s hq living mem waiting => exact hwake s ht1

/-- **The exit of an orphan wakes thread 2** from whatever blocked it. -/
theorem vanishBody_orphan (wf : m.Wf) (user : m.inUser)
    (last : m.liveCount (m.proc m.currentPcb).chain = 1)
    (orphan : ∀ q, (m.proc m.currentPcb).parent = some q → (m.proc q).state = .exit)
    (mem : 2 ∈ m.blk) (h : m.vanishBody = some m1) :
    m1 = ((m.exited m.currentPcb).wake 2).setState m.current .exit := by
  obtain ⟨m0, hbody, rfl⟩ := Option.map_eq_some_iff.mp h
  rw [if_pos last, exitProcess_eq] at hbody
  have hwake : (m.exited m.currentPcb).wakeInit = (m.exited m.currentPcb).wake 2 := by
    unfold wakeInit
    cases hfind : (m.exited m.currentPcb).blk.find? (fun t => decide (t = 2)) with
    | none =>
        have hnot := List.find?_eq_none.mp hfind 2 mem
        simp at hnot
    | some s =>
        have hs : s = 2 := by simpa using List.find?_some hfind
        rw [hs]
  rw [hwake, exited_proc_self] at hbody
  cases hq : (m.proc m.currentPcb).parent with
  | none =>
      simp only [hq] at hbody
      rw [← Option.some.inj hbody]
      rfl
  | some q =>
      have hexit : ((m.exited m.currentPcb).proc q).state = .exit := by
        rw [m.exited_proc_of_ne (wf.parent_ne user.2.2 hq)]
        exact orphan q hq
      simp only [hq, hexit, if_true] at hbody
      split_ifs at hbody
      rw [← Option.some.inj hbody]
      rfl

end Machine

/-! ## The kernel -/

/-- A value is not nothing. -/
theorem Out.ne_quiet {o : Out} {v : Int} (value : o.ret = some v) : o ≠ .quiet := by
  rintro rfl
  cases value

/-- A call that returns hands out a value, but for `set_status`. -/
theorem Kernel.callSegment_returns {k k1 : Kernel} {c : SysCall} {o : Out}
    (h : k.callSegment c = some (.returns k1 o)) :
    o ≠ .quiet ∨ ∃ status, c = .setStatus status := by
  cases c with
  | yield tid =>
      simp only [callSegment, yieldSegment, Option.some.injEq] at h
      split_ifs at h <;> cases h <;> exact Or.inl (Out.ne_quiet rfl)
  | sleep ticks =>
      simp only [callSegment, sleepSegment, Option.some.injEq] at h
      split_ifs at h <;> cases h <;> exact Or.inl (Out.ne_quiet rfl)
  | deschedule mapped reject =>
      simp only [callSegment, descheduleSegment, Option.some.injEq] at h
      split_ifs at h <;> cases h <;> exact Or.inl (Out.ne_quiet rfl)
  | makeRunnable tid =>
      cases h
      unfold sysMakeRunnable
      split_ifs
      · exact Or.inl (Out.ne_quiet rfl)
      · exact Or.inl (Out.ne_quiet rfl)
      · split <;> exact Or.inl (Out.ne_quiet rfl)
  | readline len mapped =>
      simp only [callSegment, readlineSegment, Option.some.injEq] at h
      split_ifs at h <;> cases h <;> exact Or.inl (Out.ne_quiet rfl)
  | threadFork =>
      cases h
      exact Or.inl (Out.ne_quiet rfl)
  | fork outcome =>
      cases h
      cases outcome <;> exact Or.inl (Out.ne_quiet rfl)
  | setStatus status => exact Or.inr ⟨status, rfl⟩
  | vanish =>
      obtain ⟨k2, -, heq⟩ := Option.map_eq_some_iff.mp h
      cases heq
  | wait statusPtr =>
      simp only [callSegment, waitSegment, Option.some.injEq] at h
      split_ifs at h
      · cases h
        exact Or.inl (Out.ne_quiet rfl)
      · cases h
        exact Or.inl (Out.ne_quiet rfl)
      · split at h
        · cases h
          exact Or.inl (Out.ne_quiet rfl)
        · cases h

namespace Refines

variable {k : Kernel} {m : Machine}

/-- **The code of the event returns**: the machine returns in the same way. -/
theorem segment_returns (h : Refines k m) (wf : m.Wf) {e : Event} {k1 : Kernel} {o : Out}
    (hs : k.segment e = some (.returns k1 o)) :
    ∃ m1, m.step e = some (m1, o) ∧ m.Returns e o m1 ∧ Refines k1 m1 := by
  have hstep : k.step e = some (k1, o) := by
    rw [k.step_eq_segment, hs]
    rfl
  obtain ⟨m1, hm1, h1⟩ := h.step wf e k1 o hstep
  refine ⟨m1, hm1, ?_, h1⟩
  rcases Machine.step_cases hm1 with hr | ⟨ho, m2, tid, hb, -⟩
  · exact hr
  -- of the events that may call `schedule` the tick alone returns with nothing handed out
  · have sets : ∀ c, k.segment (.call c) = some (.returns k1 o) →
        ∃ status, c = .setStatus status := by
      intro c hc
      simp only [Kernel.segment] at hc
      split_ifs at hc
      exact (Kernel.callSegment_returns hc).resolve_left fun hne => hne ho
    cases hb with
    | tick n =>
        simp only [Kernel.segment, Kernel.timerSegment, Option.some.injEq] at hs
        split_ifs at hs with hdue
        rw [h.numTicks] at hdue
        simp only [Machine.step, Machine.timerHandler, hdue, if_false, Option.map_some,
          Option.some.injEq] at hm1
        obtain ⟨rfl, rfl⟩ := Prod.mk.inj hm1
        exact .tick _
    | reschedule => cases hs
    | aside c b manages user state owner resume =>
        obtain ⟨status, rfl⟩ := sets c hs
        exact manages.elim
    | _ =>
        obtain ⟨status, hc⟩ := sets _ hs
        cases hc

/-- The parent has exited in both. -/
theorem orphan_iff (h : Refines k m) (p : Nat) :
    k.Orphan p ↔ ∀ q, (m.proc p).parent = some q → (m.proc q).state = .exit := by
  simp only [Kernel.Orphan, (h.pcb _).parent, (h.pcb _).state]

end Refines

/-- **Whoever leaves the blocked queue** does so by its own event, when thread 2 is spared. -/
theorem wokenByOwnEvent_of_sparesInit {k k' : Kernel} {m : Machine} {x : Action}
    (hm : k.RepresentedBy m) (hs : k.Step x k') (spares : SparesInit k x) :
    WokenByOwnEvent k x k' := by
  obtain ⟨href, wf⟩ := hm
  obtain ⟨rfl, hstep⟩ := hs
  rw [x.before.step_eq_segment] at hstep
  obtain ⟨seg, hseg, hfinish⟩ := Option.bind_eq_some_iff.mp hstep
  intro t ht hleft
  rw [href.members_blocked wf.queues] at ht
  rw [href.tcb]
  cases seg with
  | returns k1 o =>
      obtain ⟨rfl, rfl⟩ := Prod.mk.inj (Option.some.inj hfinish)
      obtain ⟨m1, hm1, hr, h1⟩ := href.segment_returns wf hseg
      rw [h1.members_blocked (wf.step hm1).queues] at hleft
      rcases hr.leaves ht hleft with ⟨hevent, hstate⟩ | ⟨tid, hevent⟩
      · rw [hstate]
        exact hevent
      · rw [hevent] at hm1
        obtain ⟨rfl, hstate⟩ := Machine.makeRunnable_leaves hm1 ht hleft
        rw [hstate]
        exact hevent
  | schedules k1 tid =>
      obtain ⟨k2, hsched, heq⟩ := Option.map_eq_some_iff.mp hfinish
      obtain ⟨rfl, -⟩ := Prod.mk.inj heq
      obtain ⟨m1, hb, h1, -⟩ := href.segment wf hseg
      have hat := (wf.blocks hb).1
      obtain ⟨m', hm', h'⟩ := h1.schedule hat.queues hsched
      rw [h'.members_blocked (hat.schedule hm').queues] at hleft
      by_cases hmem : t ∈ m1.blk
      · have hover := Machine.sleepOver_of_leaves hm' hmem hleft
        have hstate : (m.tcb t).state = .sleeping := by
          rw [← hb.state_eq wf ht hmem]
          simp only [Machine.sleepOver, decide_eq_true_eq] at hover
          exact hover.1
        rw [hstate]
        refine ⟨k1, tid, hseg, ?_⟩
        rw [h1.sleepOver_eq]
        exact hover
      · obtain ⟨hevent, last, hcase⟩ := hb.leaves wf ht hmem
        have hexits : x.before.Exits x := (href.exits_iff wf x).mpr ⟨hevent, last⟩
        rcases hcase with ⟨rfl, orphan⟩ | ⟨hstate, hparent⟩
        · have horphan : x.before.Orphan x.process := by
            rw [Action.process, href.currentPcb, href.orphan_iff]
            exact orphan
          have hstate := spares hexits horphan (by rwa [href.members_blocked wf.queues])
          rw [href.tcb] at hstate
          rw [hstate]
          exact ⟨hexits, Or.inr ⟨rfl, horphan⟩⟩
        · rw [hstate]
          refine ⟨hexits, Or.inl ?_⟩
          rw [Action.process, href.currentPcb, (href.pcb _).parent, href.tcb]
          exact hparent

/-- **One step**: everybody is woken by its own event exactly when thread 2 is spared. -/
theorem wokenByOwnEvent_iff {k k' : Kernel} {m : Machine} {x : Action} (hm : k.RepresentedBy m)
    (hs : k.Step x k') : WokenByOwnEvent k x k' ↔ SparesInit k x := by
  refine ⟨fun hown hexits horphan hmem => ?_, wokenByOwnEvent_of_sparesInit hm hs⟩
  obtain ⟨href, wf⟩ := hm
  obtain ⟨rfl, hstep⟩ := hs
  obtain ⟨hevent, last⟩ := (href.exits_iff wf x).mp hexits
  rw [x.before.step_eq_segment, hevent] at hstep
  obtain ⟨seg, hseg, hfinish⟩ := Option.bind_eq_some_iff.mp hstep
  have huser : x.before.inUser := by
    by_contra h
    simp [Kernel.segment, h] at hseg
  have user : m.inUser := href.inUser_iff.mp huser
  have hmem' : 2 ∈ m.blk := by rwa [href.members_blocked wf.queues] at hmem
  simp only [Kernel.segment, huser, if_true] at hseg
  obtain ⟨k1, hbody, rfl⟩ := Option.map_eq_some_iff.mp hseg
  obtain ⟨k2, hsched, heq⟩ := Option.map_eq_some_iff.mp hfinish
  obtain ⟨rfl, -⟩ := Prod.mk.inj heq
  -- thread 2 is runnable when `schedule` is called, and off the blocked queue after it
  obtain ⟨m1, hm1, h1⟩ := href.vanishBody wf user hbody
  have hat := (wf.blocks (Machine.blocks_of_vanishBody user hm1)).1
  rw [href.currentPcb, href.orphan_iff] at horphan
  obtain rfl := Machine.vanishBody_orphan wf user last horphan hmem' hm1
  obtain ⟨m', hm', h'⟩ := h1.schedule hat.queues hsched
  have hcur : (2 : Nat) ≠ m.current := by
    intro h
    exact (List.nodup_cons.mp wf.queues.nodup).1 (h ▸ List.mem_append_right m.run hmem')
  have hleft : 2 ∉ m'.blk := by
    intro hin
    have hback := Machine.mem_blk_of_schedule hm' hat.queues
      (by rw [Machine.setState_state]; exact if_pos rfl) hin
    exact ((wf.queues.nodup.of_append_right).of_append_right.mem_erase_iff.mp hback).1 rfl
  have hwoken := hown 2 hmem (by rwa [h'.members_blocked (hat.schedule hm').queues])
  have hsusp := wf.queues.blk_suspended 2 hmem'
  rw [href.tcb] at hwoken ⊢
  cases hstate : (m.tcb 2).state with
  | waiting => rfl
  | blocked =>
      rw [hstate] at hwoken
      cases hevent.symm.trans hwoken
  | readline =>
      rw [hstate] at hwoken
      cases hevent.symm.trans hwoken
  | sleeping =>
      rw [hstate] at hwoken
      obtain ⟨k3, tid, hseg', hover⟩ := hwoken
      rw [hevent] at hseg'
      simp only [Kernel.segment, huser, if_true, Kernel.callSegment, hbody, Option.map_some,
        Option.some.injEq] at hseg'
      obtain ⟨rfl, -⟩ := Segment.schedules.inj hseg'
      rw [h1.sleepOver_eq] at hover
      simp only [Machine.sleepOver, decide_eq_true_eq] at hover
      have hrun := hover.1
      rw [Machine.setState_state, if_neg hcur, Machine.wake_state, if_pos rfl] at hrun
      cases hrun
  | _ =>
      rw [hstate] at hsusp
      cases hsusp

/-- **A blocked thread is woken only by its own event**, in every step of a run, exactly when at
every exit of an orphan thread 2 is not blocked or waits. -/
theorem woken_by_own_event_iff_spares_init {as : List Action} {k : Kernel} :
    Run (Satisfying Kernel.Step WokenByOwnEvent) Kernel.boot as k ↔
      Run (Guarded Kernel.Step SparesInit) Kernel.boot as k := by
  apply Run.satisfying_iff_guarded (I := fun u => ∃ m, u.RepresentedBy m)
  · exact ⟨_, Kernel.represented_boot⟩
  · rintro u x v ⟨m, hm⟩ hstep
    obtain ⟨m', -, hm'⟩ := hm.step hstep
    exact ⟨m', hm'⟩
  · rintro u x v ⟨m, hm⟩ hstep
    exact wokenByOwnEvent_iff hm hstep

/-- **The exit of an orphan ends the sleep of `init`**: process 3 forks process 4 and exits, then
process 4 exits. -/
theorem sleeping_init_woken_by_orphan :
    ∃ as k x k', Run Kernel.Step Kernel.boot as k ∧ k.Step x k' ∧
      (as ++ [x]).map Action.event = [.call (.fork .ok), .call (.sleep 1000), .reschedule,
        .call (.fork .ok), .call .vanish, .reschedule, .call .vanish] ∧
      (k.tcb 2).state = .sleeping ∧ (k'.tcb 2).state = .runnable ∧ k'.numTicks < 1000 ∧
      ¬ WokenByOwnEvent k x k' := by
  have h := Kernel.reaches_trace [.call (.fork .ok), .call (.sleep 1000), .reschedule,
    .call (.fork .ok), .call .vanish, .reschedule] (by decide +kernel)
  have hstep := Kernel.step_act (k := (Kernel.trace [.call (.fork .ok), .call (.sleep 1000),
    .reschedule, .call (.fork .ok), .call .vanish, .reschedule]).2) (e := .call .vanish)
    (by decide +kernel)
  refine ⟨_, _, _, _, h, hstep, by decide +kernel, by decide +kernel, by decide +kernel,
    by decide +kernel, fun hgood => ?_⟩
  obtain ⟨m, hm⟩ := Kernel.Reaches.represented h
  have hwaits := (wokenByOwnEvent_iff hm hstep).mp hgood ⟨by decide +kernel, by decide +kernel⟩
    (fun q hq => ?_) (by decide +kernel)
  · exact absurd hwaits (by decide +kernel)
  · obtain rfl := Option.some.inj (hq.symm.trans (by decide +kernel : _ = some 3))
    decide +kernel

end Pebbles
