import Pebbles.Process.Threads

/-! # `schedule` always finds a thread

`schedule` goes on with whatever `list_delete_first` or `list_search_tid` returns, and tests for an
empty queue only when thread 1 runs. In every state in which some event calls it, the queue has a
thread: `idle` never puts itself aside, so it is current or runnable, and the thread that
`sys_yield` has found is not lost to the wake-up scan. -/

namespace Pebbles

open DoublyLinked Transition

/-! ## Where events call `schedule` -/

/-- **The end of a segment** of kernel code: a return, or a call of `schedule(tid)`. -/
inductive Segment where
  /-- The code returns. -/
  | returns (k : Kernel) (o : Out)
  /-- The code calls `schedule`. -/
  | schedules (k : Kernel) (tid : Int)

/-- The rest of the step. -/
def Segment.finish : Segment → Option (Kernel × Out)
  | returns k o => some (k, o)
  | schedules k tid => (k.schedule tid).map fun k' => (k', Out.quiet)

namespace Kernel

/-- `timer_handler`, up to its call of `schedule`. -/
def timerSegment (k : Kernel) : Segment :=
  let k1 := { k with numTicks := (k.numTicks + 1) % 2 ^ 32 }
  if k1.numTicks % scheduleInterval = 0 then .schedules k1 (-1) else .returns k1 Out.quiet

/-- `sys_yield`, up to its call of `schedule`. -/
def yieldSegment (k : Kernel) (tid : Int) : Segment :=
  if tid < -1 then .returns k (Out.value (-1))
  else if tid = -1 then .schedules k (-1)
  else if (k.members k.blockedQueue).any fun t : Nat => (t : Int) = tid then
    .returns k (Out.value (-1))
  else if (k.currentThread : Int) = tid then .returns k (Out.value (-1))
  else if (k.members k.runnableQueue).any fun t : Nat => (t : Int) = tid then .schedules k tid
  else .returns k (Out.value (-1))

/-- `sys_sleep`, up to its call of `schedule`. -/
def sleepSegment (k : Kernel) (ticks : Int) : Segment :=
  if ticks < 0 then .returns k (Out.value (-1))
  else if ticks = 0 then .returns k (Out.value 0)
  else .schedules (k.setTcb k.currentThread { k.tcb k.currentThread with
    duration := ticks.toNat, startTicks := k.numTicks, state := .sleeping }) (-1)

/-- `sys_deschedule`, up to its call of `schedule`. -/
def descheduleSegment (k : Kernel) (mapped : Bool) (reject : Int) : Segment :=
  if mapped = false then .returns k (Out.value (-1))
  else if reject ≠ 0 then .returns k (Out.value 0)
  else .schedules (k.setState k.currentThread .blocked) (-1)

/-- `sys_readline`, up to its call of `schedule`. -/
def readlineSegment (k : Kernel) (len : Int) (mapped : Bool) : Segment :=
  if mapped = false then .returns k (Out.value (-1))
  else if len > maxReadLen then .returns k (Out.value (-1))
  else .schedules (k.setState k.currentThread .readline) (-1)

/-- `sys_wait`, up to its call of `schedule`. -/
def waitSegment (k : Kernel) (statusPtr : Nat) : Segment :=
  if statusPtr ≠ 0 ∧ isUserAddr statusPtr = false then .returns k (Out.value (-1))
  else if (k.pcb k.currentPcb).childrenCount = 0 then .returns k (Out.value (-1))
  else
    match k.findZombie k.currentPcb with
    | some c => .returns (k.reap k.currentPcb c statusPtr).1 (k.reap k.currentPcb c statusPtr).2
    | none => .schedules (k.setTcb k.currentThread { k.tcb k.currentThread with
        state := .waiting, resume := .wait statusPtr }) (-1)

/-- A system call, up to its call of `schedule`. -/
def callSegment (k : Kernel) : SysCall → Option Segment
  | .yield tid => some (k.yieldSegment tid)
  | .sleep ticks => some (k.sleepSegment ticks)
  | .deschedule mapped reject => some (k.descheduleSegment mapped reject)
  | .makeRunnable tid => some (.returns (k.sysMakeRunnable tid).1 (k.sysMakeRunnable tid).2)
  | .readline len mapped => some (k.readlineSegment len mapped)
  | .threadFork => some (.returns k.sysThreadFork.1 k.sysThreadFork.2)
  | .fork outcome => some (.returns (k.sysFork outcome).1 (k.sysFork outcome).2)
  | .setStatus status => some (.returns (k.sysSetStatus status) Out.quiet)
  | .vanish => k.vanishBody.map fun k1 => .schedules k1 (-1)
  | .wait statusPtr => some (k.waitSegment statusPtr)

/-- **The code of an event**, up to its call of `schedule`. -/
def segment (k : Kernel) : Event → Option Segment
  | .timer => some k.timerSegment
  | .reschedule => some (.schedules k (-1))
  | .newline => some (.returns k.keyboardNewline Out.quiet)
  | .resume =>
      match (k.tcb k.currentThread).resume with
      | .userMode => none
      | .wait statusPtr =>
          if k.alive then some (.returns (k.resumeWait statusPtr).1 (k.resumeWait statusPtr).2)
          else none
  | .call c => if k.inUser then k.callSegment c else none

/-- A system call is its segment and the call of `schedule` at the end. -/
theorem call_eq_segment (k : Kernel) (c : SysCall) :
    k.call c = (k.callSegment c).bind Segment.finish := by
  cases c with
  | yield tid =>
      simp only [call, sysYield, callSegment, yieldSegment, Option.bind_some]
      split_ifs <;> rfl
  | sleep ticks =>
      simp only [call, sysSleep, callSegment, sleepSegment, Option.bind_some]
      split_ifs <;> rfl
  | deschedule mapped reject =>
      simp only [call, sysDeschedule, callSegment, descheduleSegment, Option.bind_some]
      split_ifs <;> rfl
  | makeRunnable tid => rfl
  | readline len mapped =>
      simp only [call, sysReadline, callSegment, readlineSegment, Option.bind_some]
      split_ifs <;> rfl
  | threadFork => rfl
  | fork outcome => rfl
  | setStatus status => rfl
  | vanish =>
      simp only [call, sysVanish, callSegment]
      cases k.vanishBody <;> rfl
  | wait statusPtr =>
      simp only [call, sysWait, callSegment, waitSegment, Option.bind_some]
      split_ifs
      · rfl
      · rfl
      · cases k.findZombie k.currentPcb <;> rfl

/-- **Every step is a segment and the call of `schedule` at its end**: `schedule` is called nowhere
else. -/
theorem step_eq_segment (k : Kernel) (e : Event) :
    k.step e = (k.segment e).bind Segment.finish := by
  cases e with
  | timer =>
      simp only [step, timerHandler, segment, timerSegment, Option.bind_some]
      split_ifs <;> rfl
  | reschedule => rfl
  | newline => rfl
  | resume =>
      simp only [step, segment]
      cases (k.tcb k.currentThread).resume with
      | userMode => rfl
      | wait statusPtr =>
          simp only
          split_ifs <;> rfl
  | call c =>
      simp only [step, segment]
      split_ifs
      · exact k.call_eq_segment c
      · rfl

end Kernel

/-! ## Thread 1 -/

namespace Machine

variable {m m1 m' : Machine} {e : Event}

/-- **Thread 1 is ready** and has a place. -/
structure IdleReady (m : Machine) : Prop where
  /-- Its state is that of a thread that can run. -/
  ready : (m.tcb 1).state.ready = true
  /-- It is current or in a queue. -/
  placed : 1 ∈ m.places

/-- Waking somebody does not block thread 1. -/
theorem ready_wake (t : Nat) (h : (m.tcb 1).state.ready = true) :
    ((m.wake t).tcb 1).state.ready = true := by
  rw [wake_state]
  split_ifs
  · rfl
  · exact h

/-- A thread that makes a call is not thread 1. -/
theorem ready_setCurrent (user : m.inUser) (b : TCB) (h : (m.tcb 1).state.ready = true) :
    ((m.setTcb m.current b).tcb 1).state.ready = true := by
  have hne : 1 ≠ m.current := fun e => user.2.1 e.symm
  simpa [setTcb, hne] using h

/-- A new thread is ready, whatever its tid. -/
theorem ready_forkBlocks (h : (m.tcb 1).state.ready = true) :
    (m.forkBlocks.tcb 1).state.ready = true := by
  rw [forkBlocks_tcb]
  split_ifs
  · rfl
  · exact h

theorem Shuffled.ready_one (hs : Shuffled m m') (h : (m.tcb 1).state.ready = true) :
    (m'.tcb 1).state.ready = true := by
  rcases hs.state 1 with heq | ⟨hready, -⟩
  · rw [heq]
    exact h
  · exact hready

/-- A step that returns leaves thread 1 ready. -/
theorem Returns.ready_one {o : Out} (hr : Returns m e o m') (h : (m.tcb 1).state.ready = true) :
    (m'.tcb 1).state.ready = true := by
  cases hr with
  | reader t mem state => exact ready_wake t h
  | makeRunnable tid t mem state => exact ready_wake t h
  | threadFork =>
      rw [sysThreadFork_tcb]
      split_ifs
      · rfl
      · exact h
  | fork outcome =>
      cases outcome with
      | early => exact h
      | stack => exact h
      | late => exact ready_forkBlocks h
      | ok => exact ready_forkBlocks h
  | secondScan statusPtr inside alive =>
      have hgo : (m.goOn.tcb 1).state.ready = true := by
        by_cases hcur : (1 : Nat) = m.current
        · rw [hcur] at h ⊢
          simpa [goOn, setTcb] using h
        · simpa [goOn, setTcb, hcur] using h
      rw [resumeWait_eq]
      cases m.goOn.findZombie m.currentPcb <;> exact hgo
  | _ => exact h

/-- A step that blocks leaves thread 1 ready at its call of `schedule`. -/
theorem Blocks.ready_one (hb : Blocks m e m1) (h : (m.tcb 1).state.ready = true) :
    (m1.tcb 1).state.ready = true := by
  cases hb with
  | tick n => exact h
  | reschedule => exact h
  | yield tid => exact h
  | aside c b manages user state owner resume => exact ready_setCurrent user b h
  | wait statusPtr user none => exact ready_setCurrent user _ h
  | vanish user peers => exact ready_setCurrent user _ h
  | exit m2 user last parent wakes =>
      have hne : (1 : Nat) ≠ m.current := fun e => user.2.1 e.symm
      rw [setState_state, if_neg hne]
      cases wakes with
      | nobody quiet => exact h
      | init orphan mem => exact ready_wake (m := m.exited m.currentPcb) 2 h
      | waiter q t parent living mem waiting =>
          exact ready_wake (m := m.exited m.currentPcb) t h

namespace IdleReady

theorem boot : Machine.boot.IdleReady := ⟨by decide, by decide⟩

/-- At the call of `schedule`. -/
theorem blocks (h : m.IdleReady) (wf : m.Wf) (hb : Blocks m e m1) : m1.IdleReady := by
  have hready := hb.ready_one h.ready
  refine ⟨hready, ?_⟩
  have hkept := (hb.threadEffect wf).1.kept 1 h.placed
  exact hkept.resolve_right (ne_exit_of_ready hready)

/-- **Every step leaves thread 1 ready.** -/
theorem step {o : Out} (h : m.IdleReady) (wf : m.Wf) (hs : m.step e = some (m', o)) :
    m'.IdleReady := by
  have hready : (m'.tcb 1).state.ready = true := by
    rcases step_cases hs with hr | ⟨-, m1, tid, hb, hsched⟩
    · exact hr.ready_one h.ready
    · have hat := (wf.blocks hb).1
      exact (schedule_spec hat.queues hat.idle hsched).2.2.1.ready_one (hb.ready_one h.ready)
  have hkept := (thread_effect wf hs).kept 1 h.placed
  exact ⟨hready, hkept.resolve_right (ne_exit_of_ready hready)⟩

/-- The scan for sleepers leaves thread 1 ready. -/
theorem wakeSleepers (h : m.IdleReady) {hand : List Nat} (hq : m.Queues hand) :
    m.wakeSleepers.IdleReady := by
  obtain ⟨-, hshuf, hcur, hperm⟩ := wakeSleepers_spec hq
  refine ⟨hshuf.ready_one h.ready, ?_⟩
  show 1 ∈ m.wakeSleepers.current :: (m.wakeSleepers.run ++ m.wakeSleepers.blk)
  rw [hcur]
  exact (hperm.cons m.current).mem_iff.mp h.placed

/-- **The queue is not empty** unless thread 1 runs. -/
theorem run_ne_nil (h : m.IdleReady) {hand : List Nat} (hq : m.Queues hand)
    (stay : ¬ (m.current = 1 ∧ m.run = [])) : m.run ≠ [] := by
  intro hrun
  apply stay
  refine ⟨?_, hrun⟩
  rcases List.mem_cons.mp h.placed with hcur | hmem
  · exact hcur.symm
  · rw [hrun, List.nil_append] at hmem
    -- in `blocked_queue` its state would say so
    have hsusp := hq.blk_suspended 1 hmem
    have hready := h.ready
    rw [ready_of_suspended hsusp] at hready
    cases hready

end IdleReady

/-- The scan for sleepers takes nobody off the runnable queue. -/
theorem mem_run_wakeSleepers {t : Nat} (ht : t ∈ m.run) : t ∈ m.wakeSleepers.run := by
  rcases m.wakeSleepers_cases with heq | ⟨s, -, -, heq⟩ <;> rw [heq]
  · exact ht
  · exact List.mem_append_left _ ht

end Machine

/-! ## The kernel -/

namespace Refines

variable {k : Kernel} {m : Machine}

/-- **At the call of `schedule`**: the machine blocks in the same way, and a tid other than `-1` is
that of a runnable thread. -/
theorem segment (h : Refines k m) (wf : m.Wf) {e : Event} {k1 : Kernel} {tid : Int}
    (hs : k.segment e = some (.schedules k1 tid)) :
    ∃ m1, Machine.Blocks m e m1 ∧ Refines k1 m1 ∧ (tid = -1 ∨ ∃ t ∈ m1.run, (t : Int) = tid) := by
  cases e with
  | timer =>
      simp only [Kernel.segment, Kernel.timerSegment, Option.some.injEq] at hs
      split_ifs at hs with hdue
      obtain ⟨rfl, rfl⟩ := Segment.schedules.inj hs
      exact ⟨_, .tick ((k.numTicks + 1) % 2 ^ 32), { h with numTicks := rfl }, Or.inl rfl⟩
  | reschedule =>
      obtain ⟨rfl, rfl⟩ := Segment.schedules.inj (Option.some.inj hs)
      exact ⟨m, .reschedule, h, Or.inl rfl⟩
  | newline => cases hs
  | resume =>
      simp only [Kernel.segment] at hs
      split at hs
      · cases hs
      · split_ifs at hs
        cases hs
  | call c =>
      simp only [Kernel.segment] at hs
      split_ifs at hs with user
      have user' : m.inUser := h.inUser_iff.mp user
      cases c with
      | yield tid' =>
          simp only [Kernel.callSegment, Kernel.yieldSegment, Option.some.injEq] at hs
          rw [h.members_runnable wf.queues] at hs
          split_ifs at hs with h1 h2 h3 h4 h5
          · obtain ⟨rfl, rfl⟩ := Segment.schedules.inj hs
            exact ⟨m, .yield tid', h, Or.inl rfl⟩
          · obtain ⟨rfl, rfl⟩ := Segment.schedules.inj hs
            exact ⟨m, .yield tid', h, Or.inr (by simpa using h5)⟩
      | sleep ticks =>
          simp only [Kernel.callSegment, Kernel.sleepSegment, Option.some.injEq] at hs
          split_ifs at hs
          obtain ⟨rfl, rfl⟩ := Segment.schedules.inj hs
          rw [h.current, h.tcb]
          refine ⟨_, ?_, h.setTcb _ _, Or.inl rfl⟩
          exact .aside _ _ trivial user' (Or.inl rfl) rfl user'.1
      | deschedule mapped reject =>
          simp only [Kernel.callSegment, Kernel.descheduleSegment, Option.some.injEq] at hs
          split_ifs at hs
          obtain ⟨rfl, rfl⟩ := Segment.schedules.inj hs
          rw [h.current]
          refine ⟨_, ?_, h.setState _ _, Or.inl rfl⟩
          exact .aside _ _ trivial user' (Or.inr (Or.inl rfl)) rfl user'.1
      | makeRunnable tid' => cases hs
      | readline len mapped =>
          simp only [Kernel.callSegment, Kernel.readlineSegment, Option.some.injEq] at hs
          split_ifs at hs
          obtain ⟨rfl, rfl⟩ := Segment.schedules.inj hs
          rw [h.current]
          refine ⟨_, ?_, h.setState _ _, Or.inl rfl⟩
          exact .aside _ _ trivial user' (Or.inr (Or.inr rfl)) rfl user'.1
      | threadFork => cases hs
      | fork outcome => cases hs
      | setStatus status => cases hs
      | vanish =>
          obtain ⟨k2, hbody, heq⟩ := Option.map_eq_some_iff.mp hs
          obtain ⟨rfl, rfl⟩ := Segment.schedules.inj heq
          obtain ⟨m1, hm1, h1⟩ := h.vanishBody wf user' hbody
          exact ⟨m1, Machine.blocks_of_vanishBody user' hm1, h1, Or.inl rfl⟩
      | wait statusPtr =>
          simp only [Kernel.callSegment, Kernel.waitSegment, Option.some.injEq] at hs
          rw [h.currentPcb, h.findZombie wf] at hs
          split_ifs at hs
          cases hz : m.findZombie m.currentPcb with
          | some c =>
              rw [hz] at hs
              cases hs
          | none =>
              rw [hz] at hs
              obtain ⟨rfl, rfl⟩ := Segment.schedules.inj hs
              rw [h.current, h.tcb]
              exact ⟨_, .wait statusPtr user' hz, h.setTcb _ _, Or.inl rfl⟩

/-- **The selection succeeds** when the queue is not empty and the thread asked for is in it. -/
theorem takeNext_some (h : Refines k m) {hand : List Nat} (hq : m.Queues hand) (hrun : m.run ≠ [])
    {tid : Int} (known : tid = -1 ∨ ∃ t ∈ m.run, (t : Int) = tid) :
    ∃ t k', k.takeNext tid = some (t, k') ∧ t ∈ k.members k.runnableQueue := by
  rw [h.members_runnable hq]
  by_cases htid : tid = -1
  · obtain ⟨t, ts, hcons⟩ := List.exists_cons_of_ne_nil hrun
    rw [htid]
    refine ⟨t, _, h.takeFirst hcons, ?_⟩
    rw [hcons]
    exact List.mem_cons_self
  · obtain ⟨t, ht, heq⟩ := known.resolve_left htid
    have hfind : ((m.run).find? fun t : Nat => (t : Int) = tid).isSome = true := by
      rw [List.find?_isSome]
      exact ⟨t, ht, by simpa using heq⟩
    obtain ⟨s, hs⟩ := Option.isSome_iff_exists.mp hfind
    refine ⟨s, k.deleteRunnable (threadListNode s), ?_, List.mem_of_find?_eq_some hs⟩
    simp only [Kernel.takeNext, htid, if_false, Kernel.listSearchTid, h.members_runnable hq, hs,
      Option.map_some]

end Refines

end Pebbles
