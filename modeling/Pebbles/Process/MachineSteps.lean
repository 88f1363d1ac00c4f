import Pebbles.Process.Machine

/-! # What a step of the abstract machine can do

A step either returns to the thread it started in (`Returns`) or changes the machine a little and
then calls `schedule` (`Blocks`). These two relations list all the ways, each with the tests that
led to it, so that an invariant is proved by cases on them and never by unfolding the calls. -/

namespace Pebbles

/-- The thread management calls, which do not look at processes. -/
def SysCall.managesThreads : SysCall → Prop
  | .yield _ | .sleep _ | .deschedule _ _ | .makeRunnable _ | .readline _ _ => True
  | _ => False

/-- A status pointer that `sys_wait` accepts. -/
def acceptsStatus (statusPtr : Nat) : Prop :=
  statusPtr = 0 ∨ Kernel.isUserAddr statusPtr = true

namespace Machine

/-! ## The exit of a process -/

/-- The machine after the last thread of `p` has reaped its peers and marked `p`. -/
def exited (m : Machine) (p : Nat) : Machine :=
  (m.reapPeers p).setProc p { (m.reapPeers p).proc p with state := .exit }

/-- Whom the exit of a process wakes. -/
inductive ExitWakes (m : Machine) (p : Nat) : Machine → Prop
  /-- Nobody is woken: no thread that the thread list of a living parent leads to waits. -/
  | nobody (quiet : ∀ q, (m.proc p).parent = some q → (m.proc q).state ≠ .exit →
      ∀ t ∈ (m.proc q).chain, (m.tcb t).state ≠ .waiting) : ExitWakes m p m
  /-- The parent is `NULL` or has exited: thread 2 is woken from whatever blocked it. -/
  | init (orphan : ∀ q, (m.proc p).parent = some q → (m.proc q).state = .exit) (mem : 2 ∈ m.blk) :
      ExitWakes m p (m.wake 2)
  /-- The first waiting thread that the thread list of the parent leads to is woken. -/
  | waiter (q t : Nat) (parent : (m.proc p).parent = some q) (living : (m.proc q).state ≠ .exit)
      (mem : t ∈ (m.proc q).chain) (waiting : (m.tcb t).state = .waiting) :
      ExitWakes m p (m.wake t)

theorem wakeInit_cases (m : Machine) :
    m.wakeInit = m ∨ 2 ∈ m.blk ∧ m.wakeInit = m.wake 2 := by
  unfold wakeInit
  cases h : m.blk.find? (fun t => decide (t = 2)) with
  | none => exact Or.inl rfl
  | some t =>
      have ht : t = 2 := by simpa using List.find?_some h
      subst ht
      exact Or.inr ⟨List.mem_of_find?_eq_some h, rfl⟩

theorem wakeWaiter_cases (m : Machine) (q : Nat) :
    ((∀ t ∈ (m.proc q).chain, (m.tcb t).state ≠ .waiting) ∧ m.wakeWaiter q = m) ∨
      ∃ t ∈ (m.proc q).chain, (m.tcb t).state = .waiting ∧ m.wakeWaiter q = m.wake t := by
  unfold wakeWaiter
  cases h : (m.proc q).chain.find? (fun t => decide ((m.tcb t).state = .waiting)) with
  | none =>
      refine Or.inl ⟨fun t ht => ?_, rfl⟩
      simpa using List.find?_eq_none.mp h t ht
  | some t =>
      have ht : (m.tcb t).state = .waiting := by simpa using List.find?_some h
      exact Or.inr ⟨t, List.mem_of_find?_eq_some h, ht, rfl⟩

/-- Process `p` exits only while its parent is not freed. -/
theorem exitProcess_parent {m m1 : Machine} {p : Nat} (h : m.exitProcess p = some m1) :
    ∀ q, (m.proc p).parent = some q → q ∉ m.freedPcb := by
  intro q hq hfreed
  simp [exitProcess, reapPeers, setProc, hq, hfreed] at h

@[simp] theorem exited_proc_self (m : Machine) (p : Nat) :
    (m.exited p).proc p =
      { m.proc p with chain := reapChain (m.proc p).chain m.current, state := .exit } := by
  simp [exited, reapPeers, setProc]

theorem exited_proc_of_ne (m : Machine) {p q : Nat} (h : q ≠ p) :
    (m.exited p).proc q = m.proc q := by
  simp [exited, reapPeers, setProc, h]

theorem exited_proc (m : Machine) (p q : Nat) :
    (m.exited p).proc q = if q = p then
      { m.proc q with chain := reapChain (m.proc q).chain m.current, state := .exit }
      else m.proc q := by
  split_ifs with hq
  · rw [hq, exited_proc_self]
  · exact m.exited_proc_of_ne hq

@[simp] theorem exited_tcb (m : Machine) (p : Nat) : (m.exited p).tcb = m.tcb := rfl

@[simp] theorem exited_run (m : Machine) (p : Nat) : (m.exited p).run = m.run := rfl

@[simp] theorem exited_blk (m : Machine) (p : Nat) : (m.exited p).blk = m.blk := rfl

@[simp] theorem exited_current (m : Machine) (p : Nat) : (m.exited p).current = m.current := rfl

/-- `exitProcess` marks the process and then wakes somebody. -/
theorem exitProcess_eq (m : Machine) (p : Nat) :
    m.exitProcess p = match ((m.exited p).proc p).parent with
      | none => some (m.exited p).wakeInit
      | some parent =>
          if parent ∈ (m.exited p).freedPcb then none
          else if ((m.exited p).proc parent).state = .exit then some (m.exited p).wakeInit
          else some ((m.exited p).wakeWaiter parent) := rfl

/-- What `exitProcess` leads to. -/
theorem exitProcess_wakes {m m1 : Machine} {p : Nat} (h : m.exitProcess p = some m1) :
    ExitWakes (m.exited p) p m1 := by
  rw [exitProcess_eq] at h
  have init_case : (∀ q, ((m.exited p).proc p).parent = some q →
      ((m.exited p).proc q).state = .exit) → ExitWakes (m.exited p) p (m.exited p).wakeInit := by
    intro orphan
    rcases (m.exited p).wakeInit_cases with heq | ⟨hmem, heq⟩
    · rw [heq]
      exact ExitWakes.nobody fun q hq living => absurd (orphan q hq) living
    · rw [heq]
      exact ExitWakes.init orphan hmem
  cases hp : ((m.exited p).proc p).parent with
  | none =>
      rw [hp] at h
      obtain rfl := Option.some.inj h
      exact init_case fun q hq => by rw [hp] at hq; cases hq
  | some q =>
      rw [hp] at h
      by_cases hfreed : q ∈ (m.exited p).freedPcb
      · simp [hfreed] at h
      by_cases hexit : ((m.exited p).proc q).state = .exit
      · simp only [hfreed, hexit, if_true, if_false] at h
        obtain rfl := Option.some.inj h
        refine init_case fun q' hq' => ?_
        rw [hp] at hq'
        obtain rfl := Option.some.inj hq'
        exact hexit
      · simp only [hfreed, hexit, if_false] at h
        obtain rfl := Option.some.inj h
        rcases (m.exited p).wakeWaiter_cases q with ⟨hnone, heq⟩ | ⟨t, hmem, hwait, heq⟩
        · rw [heq]
          refine ExitWakes.nobody fun q' hq' _ => ?_
          rw [hp] at hq'
          obtain rfl := Option.some.inj hq'
          exact hnone
        · rw [heq]
          exact ExitWakes.waiter q t hp hexit hmem hwait

/-! ## Reaps -/

/-- A reap takes the child out of one list. -/
theorem reap_proc (m : Machine) (p c statusPtr q : Nat) :
    (m.reap p c statusPtr).1.proc q = if q = p then { m.proc q with
      children := (m.proc q).children.erase c, childrenCount := (m.proc q).childrenCount - 1 }
      else m.proc q := by
  by_cases hq : q = p
  · subst hq
    simp [reap, setProc]
  · simp [reap, setProc, hq]

/-- The machine once a thread woken inside `wait` has come back from `schedule`. -/
def goOn (m : Machine) : Machine :=
  m.setTcb m.current { m.tcb m.current with resume := .userMode }

theorem resumeWait_eq (m : Machine) (statusPtr : Nat) :
    m.resumeWait statusPtr = match m.goOn.findZombie m.currentPcb with
      | some c => m.goOn.reap m.currentPcb c statusPtr
      | none => (m.goOn, Out.value (-1)) := rfl

/-! ## The two ways of a step -/

/-- **Steps that return** to the thread they started in. -/
inductive Returns (m : Machine) : Event → Out → Machine → Prop
  /-- A tick that is no multiple of the schedule interval. -/
  | tick (n : Nat) : Returns m .timer .quiet { m with numTicks := n }
  /-- A newline that nobody reads. -/
  | noReader : Returns m .newline .quiet m
  /-- A newline wakes a reader. -/
  | reader (t : Nat) (mem : t ∈ m.blk) (state : (m.tcb t).state = .readline) :
      Returns m .newline .quiet (m.wake t)
  /-- A thread management call that changes nothing. -/
  | refuse (c : SysCall) (v : Int) (manages : c.managesThreads) :
      Returns m (.call c) (.value v) m
  /-- `make_runnable` wakes a thread that `deschedule` has put aside. -/
  | makeRunnable (tid : Int) (t : Nat) (mem : t ∈ m.blk) (state : (m.tcb t).state = .blocked) :
      Returns m (.call (.makeRunnable tid)) (.value 0) (m.wake t)
  /-- `thread_fork`. -/
  | threadFork : Returns m (.call .threadFork) m.sysThreadFork.2 m.sysThreadFork.1
  /-- `fork`, whatever its outcome. -/
  | fork (outcome : Kernel.ForkOutcome) :
      Returns m (.call (.fork outcome)) (m.sysFork outcome).2 (m.sysFork outcome).1
  /-- `set_status`. -/
  | setStatus (status : Int) : Returns m (.call (.setStatus status)) .quiet (m.sysSetStatus status)
  /-- `wait` with a bad pointer. -/
  | badPointer (statusPtr : Nat) (bad : ¬ acceptsStatus statusPtr) :
      Returns m (.call (.wait statusPtr)) (.value (-1)) m
  /-- `wait` of a process without children. -/
  | childless (statusPtr : Nat) (none : (m.proc m.currentPcb).childrenCount = 0) :
      Returns m (.call (.wait statusPtr)) (.value (-1)) m
  /-- `wait` finds a zombie in its first scan. -/
  | firstScan (statusPtr c : Nat) (accepts : acceptsStatus statusPtr)
      (found : m.findZombie m.currentPcb = some c) :
      Returns m (.call (.wait statusPtr)) (m.reap m.currentPcb c statusPtr).2
        (m.reap m.currentPcb c statusPtr).1
  /-- The second scan of `wait`, after it was woken. -/
  | secondScan (statusPtr : Nat) (inside : (m.tcb m.current).resume = .wait statusPtr)
      (alive : m.alive) :
      Returns m .resume (m.resumeWait statusPtr).2 (m.resumeWait statusPtr).1

/-- **Steps that call `schedule`**: the machine at the moment of the call. -/
inductive Blocks (m : Machine) : Event → Machine → Prop
  /-- A tick that is a multiple of the schedule interval. -/
  | tick (n : Nat) : Blocks m .timer { m with numTicks := n }
  /-- A plain call. -/
  | reschedule : Blocks m .reschedule m
  /-- `yield`. -/
  | yield (tid : Int) : Blocks m (.call (.yield tid)) m
  /-- `sleep`, `deschedule` and `readline` put the current thread aside. -/
  | aside (c : SysCall) (b : TCB) (manages : c.managesThreads) (user : m.inUser)
      (state : b.state = .sleeping ∨ b.state = .blocked ∨ b.state = .readline)
      (owner : b.pcb = m.currentPcb) (resume : b.resume = .userMode) :
      Blocks m (.call c) (m.setTcb m.current b)
  /-- `wait` finds no zombie in its first scan. -/
  | wait (statusPtr : Nat) (user : m.inUser) (none : m.findZombie m.currentPcb = none) :
      Blocks m (.call (.wait statusPtr)) (m.setTcb m.current
        { m.tcb m.current with state := .waiting, resume := .wait statusPtr })
  /-- `vanish` of a thread that does not see itself as the last one. -/
  | vanish (user : m.inUser) (peers : m.liveCount (m.proc m.currentPcb).chain ≠ 1) :
      Blocks m (.call .vanish) (m.setState m.current .exit)
  /-- `vanish` of a thread that sees itself as the last one. -/
  | exit (m1 : Machine) (user : m.inUser) (last : m.liveCount (m.proc m.currentPcb).chain = 1)
      (parent : ∀ q, (m.proc m.currentPcb).parent = some q → q ∉ m.freedPcb)
      (wakes : ExitWakes (m.exited m.currentPcb) m.currentPcb m1) :
      Blocks m (.call .vanish) (m1.setState m.current .exit)

/-! ## Every step is one of them -/

/-- A call of `schedule` with a result says what the step was blocked on. -/
theorem Blocks.of_map {m m1 m' : Machine} {e : Event} {tid : Int} {o : Out}
    (h : (m1.schedule tid).map (fun m'' => (m'', Out.quiet)) = some (m', o))
    (blocks : Blocks m e m1) :
    o = .quiet ∧ ∃ m2 tid, Blocks m e m2 ∧ m2.schedule tid = some m' := by
  obtain ⟨m'', hsched, heq⟩ := Option.map_eq_some_iff.mp h
  obtain ⟨rfl, rfl⟩ := Prod.mk.inj heq
  exact ⟨rfl, m1, tid, blocks, hsched⟩

/-- `vanish` comes to its call of `schedule` in one of two ways. -/
theorem blocks_of_vanishBody {m m1 : Machine} (user : m.inUser) (h : m.vanishBody = some m1) :
    Blocks m (.call .vanish) m1 := by
  obtain ⟨m0, hbody, rfl⟩ := Option.map_eq_some_iff.mp h
  split_ifs at hbody with hlast
  · have hcur : m0.current = m.current := by
      have hwakes := exitProcess_wakes hbody
      cases hwakes <;> rfl
    rw [hcur]
    exact .exit m0 user hlast (exitProcess_parent hbody) (exitProcess_wakes hbody)
  · obtain rfl := Option.some.inj hbody
    exact .vanish user hlast

/-- What a system call of the current thread can do. -/
theorem call_cases {m m' : Machine} {c : SysCall} {o : Out} (user : m.inUser)
    (h : m.call c = some (m', o)) :
    Returns m (.call c) o m' ∨
      o = .quiet ∧ ∃ m1 tid, Blocks m (.call c) m1 ∧ m1.schedule tid = some m' := by
  cases c with
  | yield tid =>
      simp only [call, sysYield] at h
      split_ifs at h with h1 h2 h3 h4 h5
      · cases h
        exact Or.inl (.refuse _ _ trivial)
      · exact Or.inr (Blocks.of_map h (.yield tid))
      · cases h
        exact Or.inl (.refuse _ _ trivial)
      · cases h
        exact Or.inl (.refuse _ _ trivial)
      · exact Or.inr (Blocks.of_map h (.yield tid))
      · cases h
        exact Or.inl (.refuse _ _ trivial)
  | sleep ticks =>
      simp only [call, sysSleep] at h
      split_ifs at h with h1 h2
      · cases h
        exact Or.inl (.refuse _ _ trivial)
      · cases h
        exact Or.inl (.refuse _ _ trivial)
      · exact Or.inr (Blocks.of_map h (.aside _ _ trivial user (Or.inl rfl) rfl user.1))
  | deschedule mapped reject =>
      simp only [call, sysDeschedule] at h
      split_ifs at h with h1 h2
      · cases h
        exact Or.inl (.refuse _ _ trivial)
      · cases h
        exact Or.inl (.refuse _ _ trivial)
      · exact Or.inr (Blocks.of_map h (.aside _ _ trivial user (Or.inr (Or.inl rfl)) rfl user.1))
  | makeRunnable tid =>
      simp only [call, sysMakeRunnable, Option.some.injEq] at h
      split_ifs at h with h1 h2
      · cases h
        exact Or.inl (.refuse _ _ trivial)
      · cases h
        exact Or.inl (.refuse _ _ trivial)
      · split at h
        · rename_i t hfind
          cases h
          have hstate := List.find?_some hfind
          simp only [decide_eq_true_eq] at hstate
          exact Or.inl (.makeRunnable tid t (List.mem_of_find?_eq_some hfind) hstate.2)
        · cases h
          exact Or.inl (.refuse _ _ trivial)
  | readline len mapped =>
      simp only [call, sysReadline] at h
      split_ifs at h with h1 h2
      · cases h
        exact Or.inl (.refuse _ _ trivial)
      · cases h
        exact Or.inl (.refuse _ _ trivial)
      · exact Or.inr (Blocks.of_map h (.aside _ _ trivial user (Or.inr (Or.inr rfl)) rfl user.1))
  | threadFork =>
      simp only [call, Option.some.injEq] at h
      cases h
      exact Or.inl .threadFork
  | fork outcome =>
      simp only [call, Option.some.injEq] at h
      have hm : m' = (m.sysFork outcome).1 := by rw [h]
      have ho : o = (m.sysFork outcome).2 := by rw [h]
      rw [hm, ho]
      exact Or.inl (.fork outcome)
  | setStatus status =>
      simp only [call, Option.some.injEq] at h
      cases h
      exact Or.inl (.setStatus status)
  | vanish =>
      right
      obtain ⟨m'', hbind, heq⟩ := Option.map_eq_some_iff.mp h
      obtain ⟨rfl, rfl⟩ := Prod.mk.inj heq
      obtain ⟨m1, hbody, hsched⟩ := Option.bind_eq_some_iff.mp hbind
      exact ⟨rfl, m1, _, blocks_of_vanishBody user hbody, hsched⟩
  | wait statusPtr =>
      simp only [call, sysWait] at h
      split_ifs at h with hbad hnone
      · cases h
        refine Or.inl (.badPointer statusPtr ?_)
        rintro (h0 | huser)
        · exact hbad.1 h0
        · simp [huser] at hbad
      · cases h
        exact Or.inl (.childless statusPtr hnone)
      · cases hz : m.findZombie m.currentPcb with
        | some c =>
            simp only [hz, Option.some.injEq] at h
            have hm : m' = (m.reap m.currentPcb c statusPtr).1 := by rw [h]
            have ho : o = (m.reap m.currentPcb c statusPtr).2 := by rw [h]
            rw [hm, ho]
            have haccepts : acceptsStatus statusPtr := by
              by_cases h0 : statusPtr = 0
              · exact Or.inl h0
              · exact Or.inr (by simpa [h0] using hbad)
            exact Or.inl (.firstScan statusPtr c haccepts hz)
        | none =>
            simp only [hz] at h
            exact Or.inr (Blocks.of_map h (.wait statusPtr user hz))

/-- **Inversion of a step.** -/
theorem step_cases {m m' : Machine} {e : Event} {o : Out} (h : m.step e = some (m', o)) :
    Returns m e o m' ∨ o = .quiet ∧ ∃ m1 tid, Blocks m e m1 ∧ m1.schedule tid = some m' := by
  cases e with
  | timer =>
      simp only [step, timerHandler] at h
      split_ifs at h with htick
      · exact Or.inr (Blocks.of_map h (.tick _))
      · cases h
        exact Or.inl (.tick _)
  | reschedule => exact Or.inr (Blocks.of_map h .reschedule)
  | newline =>
      simp only [step, keyboardNewline, Option.some.injEq] at h
      split at h
      · rename_i t hfind
        cases h
        have hstate := List.find?_some hfind
        simp only [decide_eq_true_eq] at hstate
        exact Or.inl (.reader t (List.mem_of_find?_eq_some hfind) hstate)
      · cases h
        exact Or.inl .noReader
  | resume =>
      simp only [step] at h
      split at h
      · cases h
      · rename_i statusPtr hresume
        split_ifs at h with halive
        have hm : m' = (m.resumeWait statusPtr).1 := by rw [Option.some.inj h]
        have ho : o = (m.resumeWait statusPtr).2 := by rw [Option.some.inj h]
        rw [hm, ho]
        exact Or.inl (.secondScan statusPtr hresume halive)
  | call c =>
      simp only [step] at h
      split_ifs at h with huser
      exact call_cases huser h

/-- A system call comes from user mode. -/
theorem inUser_of_step {m : Machine} {c : SysCall} {r : Machine × Out}
    (h : m.step (.call c) = some r) : m.inUser := by
  by_contra huser
  simp [step, huser] at h

end Machine

end Pebbles
