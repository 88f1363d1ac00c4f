import Pebbles.Process.KernelRuns

/-! # What a step does to families

Of all the steps of the machine only six kinds touch a process: `thread_fork`, `fork`,
`set_status`, the exit of a process, a reap, and nothing at all. `FamilyEffect` lists them with
what can be read off the event and its result, and `family_effect` says that there are no others. -/

namespace Pebbles

namespace Machine

/-- The current thread is inside a call `wait(statusPtr)`, or begins one. -/
def WaitsAt (m : Machine) (e : Event) (statusPtr : Nat) : Prop :=
  e = .call (.wait statusPtr) ∨ e = .resume ∧ (m.tcb m.current).resume = .wait statusPtr

/-- **What a step does to the processes.** -/
inductive FamilyEffect (m : Machine) (e : Event) (o : Out) (m' : Machine) : Prop
  /-- Nothing: a `vanish` before the last thread, a `wait` that finds no zombie, or another call. -/
  | still (proc : m'.proc = m.proc) (pid : m'.nextPid = m.nextPid) (freed : m'.freedPcb = m.freedPcb)
      (makes : e.makesThread = false) (status : e.status = none) (reaps : reapedPid e o = none)
      (peers : e = .call .vanish → m.liveCount (m.proc m.currentPcb).chain ≠ 1)
      (scan : ∀ statusPtr, m.WaitsAt e statusPtr →
        e = .call (.wait statusPtr) ∧ ¬ acceptsStatus statusPtr ∨
          (m.proc m.currentPcb).childrenCount = 0 ∨ m.findZombie m.currentPcb = none)
  /-- `thread_fork` changes one thread list. -/
  | threads (event : e = .call .threadFork) (proc : m'.proc = m.sysThreadFork.1.proc)
      (pid : m'.nextPid = m.nextPid) (freed : m'.freedPcb = m.freedPcb)
  /-- `fork` adds a child. -/
  | born (bears : e.bearsChild = true) (proc : m'.proc = m.forkBlocks.proc)
      (pid : m'.nextPid = m.nextPid + 1) (freed : m'.freedPcb = m.freedPcb) (alive : m.alive)
  /-- `set_status`. -/
  | status (status : Int) (event : e = .call (.setStatus status))
      (proc : m'.proc = (m.sysSetStatus status).proc) (pid : m'.nextPid = m.nextPid)
      (freed : m'.freedPcb = m.freedPcb)
  /-- `wait` reaps the first zombie in the list of children. -/
  | reaped (statusPtr c : Nat) (waits : m.WaitsAt e statusPtr)
      (accepts : e = .call (.wait statusPtr) → acceptsStatus statusPtr)
      (found : m.findZombie m.currentPcb = some c) (result : o = (m.reap m.currentPcb c statusPtr).2)
      (proc : m'.proc = (m.reap m.currentPcb c statusPtr).1.proc)
      (pid : m'.nextPid = m.nextPid) (freed : m'.freedPcb = c :: m.freedPcb) (alive : m.alive)
  /-- The current process exits. -/
  | exits (event : e = .call .vanish) (last : m.liveCount (m.proc m.currentPcb).chain = 1)
      (parent : ∀ q, (m.proc m.currentPcb).parent = some q → q ∉ m.freedPcb)
      (proc : m'.proc = (m.exited m.currentPcb).proc) (pid : m'.nextPid = m.nextPid)
      (freed : m'.freedPcb = m.freedPcb) (alive : m.alive)

/-- Only the pids are handed out that a reap returns. -/
theorem reapedPid_reap {m : Machine} {e : Event} {statusPtr : Nat} (h : m.WaitsAt e statusPtr)
    (p c : Nat) : reapedPid e (m.reap p c statusPtr).2 = some c := by
  rcases h with rfl | ⟨rfl, -⟩ <;> simp [reapedPid, reap]

/-- An event that is neither a `vanish` nor a `wait` and changes no process has no effect. -/
theorem FamilyEffect.nothing {m m' : Machine} {e : Event} {o : Out} (proc : m'.proc = m.proc)
    (pid : m'.nextPid = m.nextPid) (freed : m'.freedPcb = m.freedPcb)
    (makes : e.makesThread = false) (status : e.status = none) (vanish : e ≠ .call .vanish)
    (resume : e ≠ .resume) (wait : ∀ statusPtr, e ≠ .call (.wait statusPtr)) :
    FamilyEffect m e o m' := by
  have reaps : reapedPid e o = none := by
    unfold reapedPid
    split
    · exact absurd rfl resume
    · exact absurd rfl (wait _)
    · rfl
  refine .still proc pid freed makes status reaps (fun he => absurd he vanish) ?_
  rintro statusPtr (he | ⟨he, -⟩)
  · exact absurd he (wait statusPtr)
  · exact absurd he resume

/-- **Every step has one of these effects.** -/
theorem family_effect {m m' : Machine} {e : Event} {o : Out} (hs : m.step e = some (m', o)) :
    FamilyEffect m e o m' := by
  have huser : ∀ c, e = .call c → m.inUser := by
    rintro c rfl
    exact inUser_of_step hs
  rcases step_cases hs with hret | ⟨rfl, m1, tid, hblocks, hsched⟩
  · cases hret with
    | tick n => exact .nothing rfl rfl rfl rfl rfl nofun nofun nofun
    | noReader => exact .nothing rfl rfl rfl rfl rfl nofun nofun nofun
    | reader t mem state => exact .nothing rfl rfl rfl rfl rfl nofun nofun nofun
    | refuse c v manages =>
        cases c <;> first
          | exact manages.elim
          | exact .nothing rfl rfl rfl rfl rfl nofun nofun nofun
    | makeRunnable tid t mem state => exact .nothing rfl rfl rfl rfl rfl nofun nofun nofun
    | threadFork => exact .threads rfl rfl rfl rfl
    | fork outcome =>
        have halive := (huser _ rfl).2.2
        cases outcome with
        | early => exact .nothing rfl rfl rfl rfl rfl nofun nofun nofun
        | stack => exact .nothing rfl rfl rfl rfl rfl nofun nofun nofun
        | late => exact .born rfl rfl rfl rfl halive
        | ok => exact .born rfl rfl rfl rfl halive
    | setStatus status => exact .status status rfl rfl rfl rfl
    | badPointer statusPtr bad =>
        refine .still rfl rfl rfl rfl rfl rfl nofun ?_
        rintro sp (he | ⟨he, -⟩)
        · cases he
          exact Or.inl ⟨rfl, bad⟩
        · cases he
    | childless statusPtr none =>
        exact .still rfl rfl rfl rfl rfl rfl nofun fun _ _ => Or.inr (Or.inl none)
    | firstScan statusPtr c accepts found =>
        exact .reaped statusPtr c (Or.inl rfl) (fun _ => accepts) found rfl rfl rfl rfl
          (huser _ rfl).2.2
    | secondScan statusPtr inside alive =>
        rw [resumeWait_eq]
        cases found : m.goOn.findZombie m.currentPcb with
        | none =>
            exact .still rfl rfl rfl rfl rfl rfl nofun fun _ _ => Or.inr (Or.inr found)
        | some c =>
            exact .reaped statusPtr c (Or.inr ⟨rfl, inside⟩) nofun found rfl rfl rfl rfl alive
  · obtain ⟨hproc, hpid, hfreed⟩ : m'.proc = m1.proc ∧ m'.nextPid = m1.nextPid ∧
        m'.freedPcb = m1.freedPcb := schedule_families hsched
    cases hblocks with
    | tick n => exact .nothing hproc hpid hfreed rfl rfl nofun nofun nofun
    | reschedule => exact .nothing hproc hpid hfreed rfl rfl nofun nofun nofun
    | yield tid => exact .nothing hproc hpid hfreed rfl rfl nofun nofun nofun
    | aside c b manages user state owner resume =>
        cases c <;> first
          | exact manages.elim
          | exact .nothing hproc hpid hfreed rfl rfl nofun nofun nofun
    | wait statusPtr user none =>
        exact .still hproc hpid hfreed rfl rfl rfl nofun fun _ _ => Or.inr (Or.inr none)
    | vanish user peers =>
        refine .still hproc hpid hfreed rfl rfl rfl (fun _ => peers) ?_
        rintro sp (he | ⟨he, -⟩) <;> cases he
    | exit m2 user last parent wakes =>
        have hm2 : m2.proc = (m.exited m.currentPcb).proc ∧ m2.nextPid = m.nextPid ∧
            m2.freedPcb = m.freedPcb := by
          cases wakes <;> exact ⟨rfl, rfl, rfl⟩
        exact .exits rfl last parent (hproc.trans hm2.1) (hpid.trans hm2.2.1)
          (hfreed.trans hm2.2.2) user.2.2

end Machine

/-! ## The last thread of the list -/

/-- The action is a `vanish` that takes the whole process down. -/
def Kernel.Exits (k : Kernel) (x : Action) : Prop :=
  x.event = .call .vanish ∧ k.liveCount (k.members (k.pcb k.currentPcb).threads) = 1

/-- The thread list of the machine counts the same live threads. -/
theorem Refines.exits_iff {k : Kernel} {m : Machine} (h : Refines k m) (wf : m.Wf) (x : Action) :
    k.Exits x ↔ x.event = .call .vanish ∧ m.liveCount (m.proc m.currentPcb).chain = 1 := by
  unfold Kernel.Exits Kernel.liveCount Machine.liveCount
  rw [h.currentPcb, h.members_threads wf.chains, h.tcb]

end Pebbles
