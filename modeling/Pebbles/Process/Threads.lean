import Pebbles.Process.KernelRuns

/-! # What a step does to threads

Every step keeps the process of each thread, lets at most the current thread exit (at a `vanish`),
and starts at most one thread (at a `thread_fork` or a successful `fork`). `ThreadEffect` says so
once, for the invariants that follow threads through a run. -/

namespace Pebbles

namespace Machine

/-- **What a step does to the threads.** -/
structure ThreadEffect (m : Machine) (e : Event) (m' : Machine) : Prop where
  /-- Tids are used up, never given back. -/
  tid : m.nextTid ≤ m'.nextTid
  /-- At most one tid is used up. -/
  tid_le : m'.nextTid ≤ m.nextTid + 1
  /-- A thread stays in its process. -/
  pcb : ∀ t, t ≠ m.nextTid ∨ e.makesThread = false → (m'.tcb t).pcb = (m.tcb t).pcb
  /-- Only the current thread exits, at a `vanish`. -/
  exit : ∀ t, t < m.nextTid → ((m'.tcb t).state = .exit ↔
    (m.tcb t).state = .exit ∨ e = .call .vanish ∧ t = m.current)
  /-- A thread loses its place only when it exits. -/
  kept : ∀ t ∈ m.places, t ∈ m'.places ∨ (m'.tcb t).state = .exit
  /-- Only a new thread finds a place. -/
  placed : ∀ t ∈ m'.places, t ∈ m.places ∨ t = m.nextTid ∧ e.startsThread = true
  /-- A new thread has one. -/
  started : e.startsThread = true → m.nextTid < m'.nextTid ∧ m.nextTid ∈ m'.places
  /-- A new thread of `thread_fork` is one of the current process. -/
  peer : e = .call .threadFork → (m'.tcb m.nextTid).pcb = m.currentPcb
  /-- A new thread of `fork` is one of the new process. -/
  child : e.bearsChild = true → m.nextTid < m'.nextTid ∧ (m'.tcb m.nextTid).pcb = m.nextPid

namespace ThreadEffect

variable {m m1 m' : Machine} {e : Event}

/-- The parts of an effect that speak about new threads only. -/
theorem of_old (makes : e.makesThread = false) (tid : m.nextTid ≤ m'.nextTid)
    (tid_le : m'.nextTid ≤ m.nextTid + 1) (pcb : ∀ t, (m'.tcb t).pcb = (m.tcb t).pcb)
    (exit : ∀ t, t < m.nextTid → ((m'.tcb t).state = .exit ↔
      (m.tcb t).state = .exit ∨ e = .call .vanish ∧ t = m.current))
    (kept : ∀ t ∈ m.places, t ∈ m'.places ∨ (m'.tcb t).state = .exit)
    (placed : ∀ t ∈ m'.places, t ∈ m.places) : ThreadEffect m e m' := by
  obtain ⟨hstarts, hbears⟩ := Event.makesThread_eq_false.mp makes
  refine ⟨tid, tid_le, fun t _ => pcb t, exit, kept, fun t ht => Or.inl (placed t ht), fun h => ?_,
    fun h => ?_, fun h => ?_⟩
  · rw [hstarts] at h
    cases h
  · rw [h] at hstarts
    cases hstarts
  · rw [hbears] at h
    cases h

/-- Steps that make no thread and are no `vanish`: it is enough that places, processes and exits
stay the same. -/
theorem quiet (tid : m.nextTid ≤ m'.nextTid) (tid_le : m'.nextTid ≤ m.nextTid + 1)
    (perm : m'.places.Perm m.places) (pcb : ∀ t, (m'.tcb t).pcb = (m.tcb t).pcb)
    (exit : ∀ t, (m'.tcb t).state = .exit ↔ (m.tcb t).state = .exit)
    (makes : e.makesThread = false) (vanish : e ≠ .call .vanish) : ThreadEffect m e m' := by
  refine of_old makes tid tid_le pcb (fun t _ => ?_) (fun t ht => Or.inl (perm.mem_iff.mpr ht))
    fun t ht => perm.mem_iff.mp ht
  rw [exit t]
  exact ⟨Or.inl, fun h => h.resolve_right fun hv => vanish hv.1⟩

/-- Nothing happens to the threads. -/
theorem same (tid : m'.nextTid = m.nextTid) (places : m'.places = m.places) (tcb : m'.tcb = m.tcb)
    (makes : e.makesThread = false) (vanish : e ≠ .call .vanish) : ThreadEffect m e m' := by
  refine quiet (Nat.le_of_eq tid.symm) (by omega) (by rw [places]) (fun t => ?_) (fun t => ?_) makes
    vanish
  · rw [tcb]
  · rw [tcb]

/-- Waking a suspended thread. -/
theorem wake (wf : m.Wf) {t : Nat} (ht : t ∈ m.blk) (makes : e.makesThread = false)
    (vanish : e ≠ .call .vanish) : ThreadEffect m e (m.wake t) := by
  refine quiet (Nat.le_refl _) (Nat.le_succ _) ((wake_places ht).cons m.current)
    (m.wake_pcb t) (fun s => ?_) makes vanish
  rw [wake_state]
  split_ifs with hst
  · rw [hst]
    exact iff_of_false (by simp) (ne_exit_of_suspended (wf.queues.blk_suspended t ht))
  · exact Iff.rfl

/-- A new thread at the end of the runnable queue. -/
theorem starts (tid : m'.nextTid = m.nextTid + 1) (current : m'.current = m.current)
    (run : m'.run = m.run ++ [m.nextTid]) (blk : m'.blk = m.blk)
    (old : ∀ t, t ≠ m.nextTid → m'.tcb t = m.tcb t) (event : e.startsThread = true)
    (vanish : e ≠ .call .vanish)
    (peer : e = .call .threadFork → (m'.tcb m.nextTid).pcb = m.currentPcb)
    (child : e.bearsChild = true → (m'.tcb m.nextTid).pcb = m.nextPid) :
    ThreadEffect m e m' := by
  have hplaces : ∀ t, t ∈ m'.places ↔ t ∈ m.places ∨ t = m.nextTid := by
    intro t
    simp only [places, current, run, blk, List.mem_cons, List.mem_append, List.not_mem_nil,
      or_false]
    tauto
  refine ⟨by omega, by omega, fun t ht => ?_, fun t ht => ?_,
    fun t ht => Or.inl ((hplaces t).mpr (Or.inl ht)), fun t ht => ?_, fun _ => ⟨by omega, ?_⟩,
    peer, fun h => ⟨by omega, child h⟩⟩
  · rcases ht with hne | hmakes
    · rw [old t hne]
    · simp [Event.makesThread, event] at hmakes
  · rw [old t (Nat.ne_of_lt ht)]
    exact ⟨Or.inl, fun h => h.resolve_right fun hv => vanish hv.1⟩
  · exact ((hplaces t).mp ht).imp id fun hn => ⟨hn, event⟩
  · exact (hplaces _).mpr (Or.inr rfl)

/-- The effect of the change before `schedule` is the effect of the step. -/
theorem schedule {tid : Int} (h1 : ThreadEffect m e m1) (hat : Wf.AtSchedule m1)
    (makes : e.makesThread = false) (hs : m1.schedule tid = some m') : ThreadEffect m e m' := by
  obtain ⟨-, -, hshuf, hperm⟩ := schedule_spec hat.queues hat.idle hs
  have hstarts := (Event.makesThread_eq_false.mp makes).1
  refine of_old makes (by rw [hshuf.nextTid]; exact h1.tid) (by rw [hshuf.nextTid]; exact h1.tid_le)
    (fun t => (hshuf.pcb t).trans (h1.pcb t (Or.inr makes)))
    (fun t ht => (hshuf.exit_iff t).trans (h1.exit t ht)) (fun t ht => ?_) fun t ht => ?_
  · rcases h1.kept t ht with hplace | hexit
    · rcases List.mem_append.mp (hperm.mem_iff.mp hplace) with hp | hleave
      · exact Or.inl hp
      · unfold leaver at hleave
        split_ifs at hleave with hexit
        · rw [List.mem_singleton.mp hleave]
          exact Or.inr ((hshuf.exit_iff m1.current).mpr hexit)
        · cases hleave
    · exact Or.inr ((hshuf.exit_iff t).mpr hexit)
  · rcases h1.placed t (hperm.mem_iff.mpr (List.mem_append_left _ ht)) with hp | ⟨-, hnew⟩
    · exact hp
    · rw [hstarts] at hnew
      cases hnew

end ThreadEffect

variable {m m1 m' : Machine} {e : Event}

/-- Going on after a call leaves the process and the state of every thread. -/
theorem goOn_tcb (m : Machine) (t : Nat) : (m.goOn.tcb t).pcb = (m.tcb t).pcb ∧
    (m.goOn.tcb t).state = (m.tcb t).state := by
  by_cases ht : t = m.current
  · subst ht
    simp [goOn, setTcb]
  · simp [goOn, setTcb, ht]

/-- A returning step. -/
theorem Returns.threadEffect {o : Out} (wf : m.Wf) (h : Returns m e o m') :
    ThreadEffect m e m' := by
  cases h with
  | tick n => exact .same rfl rfl rfl rfl nofun
  | noReader => exact .same rfl rfl rfl rfl nofun
  | reader t mem state => exact .wake wf mem rfl nofun
  | refuse c v manages =>
      cases c <;> first
        | exact manages.elim
        | exact .same rfl rfl rfl rfl nofun
  | makeRunnable tid t mem state => exact .wake wf mem rfl nofun
  | threadFork =>
      refine .starts rfl rfl rfl rfl (fun t ht => ?_) rfl nofun (fun _ => ?_) nofun
      · rw [sysThreadFork_tcb, if_neg ht]
      · rw [sysThreadFork_tcb, if_pos rfl]
  | fork outcome =>
      have hold : ∀ t, t ≠ m.nextTid → m.forkBlocks.tcb t = m.tcb t := by
        intro t ht
        rw [forkBlocks_tcb, if_neg ht]
      have hnew : (m.forkBlocks.tcb m.nextTid).pcb = m.nextPid := by
        rw [forkBlocks_tcb, if_pos rfl]
      cases outcome with
      | early => exact .same rfl rfl rfl rfl nofun
      | stack =>
          exact .quiet (Nat.le_succ _) (Nat.le_refl _) (List.Perm.refl _) (fun _ => rfl)
            (fun _ => Iff.rfl) rfl nofun
      | late =>
          -- the thread of the failed call gets a control block but no place
          refine ⟨Nat.le_succ _, Nat.le_refl _, fun t ht => ?_, fun t ht => ?_,
            fun t ht => Or.inl ht, fun t ht => Or.inl ht, nofun, nofun,
            fun _ => ⟨Nat.lt_succ_self _, hnew⟩⟩
          · exact congrArg TCB.pcb (hold t (ht.resolve_right (by decide)))
          · show (m.forkBlocks.tcb t).state = .exit ↔ _
            rw [hold t (Nat.ne_of_lt ht)]
            exact ⟨Or.inl, fun h => h.resolve_right nofun⟩
      | ok => exact .starts rfl rfl rfl rfl hold rfl nofun nofun fun _ => hnew
  | setStatus status => exact .same rfl rfl rfl rfl nofun
  | badPointer statusPtr bad => exact .same rfl rfl rfl rfl nofun
  | childless statusPtr none => exact .same rfl rfl rfl rfl nofun
  | firstScan statusPtr c accepts found => exact .same rfl rfl rfl rfl nofun
  | secondScan statusPtr inside alive =>
      have heffect : ∀ m2 : Machine, m2.nextTid = m.nextTid → m2.places = m.places →
          m2.tcb = m.goOn.tcb → ThreadEffect m .resume m2 := by
        intro m2 htid hplaces htcb
        refine .quiet (Nat.le_of_eq htid.symm) (by omega) (by rw [hplaces]) (fun t => ?_)
          (fun t => ?_) rfl nofun
        · rw [htcb, (m.goOn_tcb t).1]
        · rw [htcb, (m.goOn_tcb t).2]
      rw [resumeWait_eq]
      cases m.goOn.findZombie m.currentPcb with
      | none => exact heffect _ rfl rfl rfl
      | some c => exact heffect _ rfl rfl rfl

/-- Changing the state of the current thread, but not to exited. -/
theorem ThreadEffect.setCurrent (wf : m.Wf) {b : TCB} (owner : b.pcb = m.currentPcb)
    (live : b.state ≠ .exit) (makes : e.makesThread = false) (vanish : e ≠ .call .vanish) :
    ThreadEffect m e (m.setTcb m.current b) := by
  refine .quiet (Nat.le_refl _) (Nat.le_succ _) (List.Perm.refl _) (fun t => ?_) (fun t => ?_) makes
    vanish
  · by_cases ht : t = m.current
    · subst ht
      simpa [setTcb, currentPcb] using owner
    · simp [setTcb, ht]
  · by_cases ht : t = m.current
    · subst ht
      have hready := ne_exit_of_ready wf.ready
      simp [setTcb, live, hready]
    · simp [setTcb, ht]

/-- Marking the current thread as exited, after others were woken. -/
theorem ThreadEffect.markExit (tid : m1.nextTid = m.nextTid) (perm : m1.places.Perm m.places)
    (pcb : ∀ t, (m1.tcb t).pcb = (m.tcb t).pcb)
    (exit : ∀ t, (m1.tcb t).state = .exit ↔ (m.tcb t).state = .exit) :
    ThreadEffect m (.call .vanish) (m1.setState m.current .exit) := by
  refine .of_old rfl (Nat.le_of_eq tid.symm) (show m1.nextTid ≤ _ by omega) (fun t => ?_)
    (fun t _ => ?_) (fun t ht => Or.inl ?_) fun t ht => ?_
  · rw [setState_pcb, pcb]
  · rw [setState_state]
    split_ifs with hcur
    · exact iff_of_true rfl (Or.inr ⟨rfl, hcur⟩)
    · rw [exit]
      exact ⟨Or.inl, fun h => h.resolve_right fun hv => hcur hv.2⟩
  · exact perm.mem_iff.mpr ht
  · exact perm.mem_iff.mp ht

/-- Whoever the exit of a process wakes, threads keep their places, processes and exits. -/
theorem ExitWakes.threads {p : Nat} (wf : m.Wf) (h : ExitWakes m p m1) :
    m1.nextTid = m.nextTid ∧ m1.places.Perm m.places ∧
      (∀ t, (m1.tcb t).pcb = (m.tcb t).pcb) ∧
        ∀ t, (m1.tcb t).state = .exit ↔ (m.tcb t).state = .exit := by
  have hwake : ∀ t ∈ m.blk, (m.wake t).nextTid = m.nextTid ∧
      (m.wake t).places.Perm m.places ∧ (∀ s, ((m.wake t).tcb s).pcb = (m.tcb s).pcb) ∧
        ∀ s, ((m.wake t).tcb s).state = .exit ↔ (m.tcb s).state = .exit := by
    intro t ht
    refine ⟨rfl, (wake_places ht).cons m.current, m.wake_pcb t, fun s => ?_⟩
    rw [wake_state]
    split_ifs with hst
    · rw [hst]
      exact iff_of_false (by simp) (ne_exit_of_suspended (wf.queues.blk_suspended t ht))
    · exact Iff.rfl
  cases h with
  | nobody quiet => exact ⟨rfl, List.Perm.refl _, fun _ => rfl, fun _ => Iff.rfl⟩
  | init orphan mem => exact hwake 2 mem
  | waiter q t parent living mem waiting => exact hwake t (wf.mem_blk_of_waiting waiting)

/-- A blocking step, before `schedule`. -/
theorem Blocks.threadEffect (wf : m.Wf) (h : Blocks m e m1) :
    ThreadEffect m e m1 ∧ e.makesThread = false := by
  cases h with
  | tick n => exact ⟨.same rfl rfl rfl rfl nofun, rfl⟩
  | reschedule => exact ⟨.same rfl rfl rfl rfl nofun, rfl⟩
  | yield tid => exact ⟨.same rfl rfl rfl rfl nofun, rfl⟩
  | aside c b manages user state owner resume =>
      have hlive : b.state ≠ .exit := by
        rcases state with hs | hs | hs <;> rw [hs] <;> simp
      cases c <;> first
        | exact manages.elim
        | exact ⟨.setCurrent wf owner hlive rfl nofun, rfl⟩
  | wait statusPtr user none => exact ⟨.setCurrent wf rfl (by simp) rfl nofun, rfl⟩
  | vanish user peers =>
      exact ⟨.markExit rfl (List.Perm.refl _) (fun _ => rfl) fun _ => Iff.rfl, rfl⟩
  | exit m2 user last parent wakes =>
      obtain ⟨htid, hperm, hpcb, hexit⟩ := wakes.threads (wf.exited m.currentPcb)
      exact ⟨.markExit htid hperm hpcb hexit, rfl⟩

/-- **Every step has this effect.** -/
theorem thread_effect {o : Out} (wf : m.Wf) (hs : m.step e = some (m', o)) :
    ThreadEffect m e m' := by
  rcases step_cases hs with hret | ⟨-, m1, tid, hblocks, hsched⟩
  · exact hret.threadEffect wf
  · obtain ⟨heffect, hmakes⟩ := hblocks.threadEffect wf
    exact heffect.schedule (wf.blocks hblocks).1 hmakes hsched

/-- A thread in place has not exited. -/
theorem Wf.placed_live (wf : m.Wf) {t : Nat} (ht : t ∈ m.places) : (m.tcb t).state ≠ .exit := by
  rcases List.mem_cons.mp ht with rfl | ht
  · exact ne_exit_of_ready wf.ready
  · rcases List.mem_append.mp ht with ht | ht
    · exact ne_exit_of_ready (wf.queues.run_ready t ht)
    · exact ne_exit_of_suspended (wf.queues.blk_suspended t ht)

/-- A thread in place was created. -/
theorem Wf.placed_lt (wf : m.Wf) {t : Nat} (ht : t ∈ m.places) : t < m.nextTid :=
  wf.queues.lt t ht

/-- The current thread has a place. -/
theorem current_placed (m : Machine) : m.current ∈ m.places := List.mem_cons_self

end Machine

end Pebbles
