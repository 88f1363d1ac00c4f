import Pebbles.Process.Families

/-! # Parents, children and zombies

Two properties of process trees that the kernel loses when a process exits before its children:
that no process names a freed parent, and that every zombie is in the children list of a living
process. For each the exact condition on the steps is proved under which it is kept. -/

namespace Pebbles

open Transition

/-! ## Freed parents -/

/-- **No dangling parent pointer**: the parent of a process that is not freed is not freed. -/
def ParentsAllocated (k : Kernel) : Prop :=
  ∀ c, c < k.nextPid → c ∉ k.freedPcb → ∀ q, (k.pcb c).parent = some q → q ∉ k.freedPcb

/-- A `wait` that finds a zombie finds one that has no children left. -/
def ReapsChildless (k : Kernel) (x : Action) : Prop :=
  x.scans → ∀ z, k.findZombie k.currentPcb = some z → k.members (k.pcb z).children = []

namespace Machine

/-- `ParentsAllocated` on the machine. -/
def ParentsKept (m : Machine) : Prop :=
  ∀ c, c < m.nextPid → c ∉ m.freedPcb → ∀ q, (m.proc c).parent = some q → q ∉ m.freedPcb

/-- Steps that free nobody keep the parents. -/
theorem ParentsKept.congr {m m' : Machine} (proc : ∀ p, (m'.proc p).parent = (m.proc p).parent)
    (pid : m'.nextPid = m.nextPid) (freed : m'.freedPcb = m.freedPcb) :
    m'.ParentsKept ↔ m.ParentsKept := by
  unfold ParentsKept
  rw [pid, freed]
  simp only [proc]

/-- **Freeing a child**: the others keep their parents exactly when it has no children left. -/
theorem parentsKept_reap {m m' : Machine} (wf : m.Wf) (h : m.ParentsKept) {p z statusPtr : Nat}
    (hz : z ∈ (m.proc p).children) (proc : m'.proc = (m.reap p z statusPtr).1.proc)
    (pid : m'.nextPid = m.nextPid) (freed : m'.freedPcb = z :: m.freedPcb) :
    m'.ParentsKept ↔ (m.proc z).children = [] := by
  have hparent : ∀ q, (m'.proc q).parent = (m.proc q).parent := by
    intro q
    rw [proc, reap_proc]
    split_ifs <;> rfl
  unfold ParentsKept
  rw [pid, freed]
  simp only [hparent]
  constructor
  · intro hkept
    refine List.eq_nil_iff_forall_not_mem.mpr fun c hc => ?_
    obtain ⟨hpar, hlt, hfree⟩ := wf.kin.child z c hc
    have hne : c ≠ z := Nat.ne_of_gt (wf.kin.older z c hc)
    exact hkept c hlt (List.not_mem_cons_of_ne_of_not_mem hne hfree) z hpar List.mem_cons_self
  · intro hnone c hlt hfree q hq hmem
    have hfree' : c ∉ m.freedPcb := fun hc => hfree (List.mem_cons_of_mem z hc)
    rcases List.mem_cons.mp hmem with rfl | hold
    · have hc := (wf.kin.mem_iff_parent hlt hfree').mpr hq
      rw [hnone] at hc
      cases hc
    · exact h c hlt hfree' q hq hold

/-- A fork by a process that is not freed keeps the parents. -/
theorem parentsKept_born {m m' : Machine} (wf : m.Wf) (h : m.ParentsKept) (alive : m.alive)
    (proc : m'.proc = m.forkBlocks.proc) (pid : m'.nextPid = m.nextPid + 1)
    (freed : m'.freedPcb = m.freedPcb) : m'.ParentsKept := by
  have hlt := wf.chains.owner_lt m.current
  intro c hc hfree q hq
  rw [pid] at hc
  rw [freed] at hfree ⊢
  rw [proc, forkBlocks_proc hlt] at hq
  split_ifs at hq with hcur hnew
  · exact h c (hcur ▸ hlt) hfree q hq
  · rw [← Option.some.inj hq]
    exact alive.2
  · exact h c (by omega) hfree q hq

end Machine

/-- The property of the kernel state is the property of the machine. -/
theorem parentsAllocated_iff {k : Kernel} {m : Machine} (h : Refines k m) :
    ParentsAllocated k ↔ m.ParentsKept := by
  unfold ParentsAllocated Machine.ParentsKept
  rw [h.nextPid, h.freedPcb]
  simp only [(h.pcb _).parent]

/-- A scan of a process with a zero count finds nothing. -/
theorem Machine.Wf.findZombie_of_count {m : Machine} (wf : m.Wf) {p : Nat}
    (h : (m.proc p).childrenCount = 0) : m.findZombie p = none := by
  rw [wf.kin.count p] at h
  have hnil : (m.proc p).children = [] := List.length_eq_zero_iff.mp (by omega)
  simp [Machine.findZombie, hnil]

/-- **One step keeps the parents exactly when it reaps a childless child**, if it reaps one. -/
theorem parentsAllocated_step {k k' : Kernel} {m : Machine} {x : Action} (hm : k.RepresentedBy m)
    (h : ParentsAllocated k) (hs : k.Step x k') : ParentsAllocated k' ↔ ReapsChildless k x := by
  obtain ⟨href, wf⟩ := hm
  obtain ⟨m', hm', h'⟩ := Kernel.RepresentedBy.step ⟨href, wf⟩ hs
  rw [parentsAllocated_iff href] at h
  rw [parentsAllocated_iff h'.1]
  have hzombie : ∀ z, k.findZombie k.currentPcb = some z ↔ m.findZombie m.currentPcb = some z := by
    intro z
    rw [href.findZombie wf, href.currentPcb]
  have hchildren : ∀ z, k.members (k.pcb z).children = (m.proc z).children :=
    href.members_children wf.kin
  -- a step that keeps the parents meets the condition when it does not scan or finds nobody
  have kept : m'.ParentsKept → (x.scans → m.findZombie m.currentPcb = none) →
      (m'.ParentsKept ↔ ReapsChildless k x) := by
    intro hkept hnone
    refine iff_of_true hkept fun hscan z hz => ?_
    rw [hzombie, hnone hscan] at hz
    cases hz
  have noscan : (∀ statusPtr, ¬ m.WaitsAt x.event statusPtr) → ¬ x.scans := by
    intro hno hscan
    rcases hscan with he | ⟨statusPtr, -, he⟩
    · rw [he] at hm'
      cases hres : (m.tcb m.current).resume with
      | userMode => simp [Machine.step, hres] at hm'
      | wait statusPtr => exact hno statusPtr (Or.inr ⟨he, hres⟩)
    · exact hno statusPtr (Or.inl he)
  cases Machine.family_effect hm' with
  | still proc pid freed makes status reaps peers scan =>
      refine kept ((Machine.ParentsKept.congr (fun p => by rw [proc]) pid freed).mpr h) ?_
      intro hscan
      by_contra hsome
      refine noscan (fun statusPtr hw => ?_) hscan
      rcases scan statusPtr hw with ⟨he, hbad⟩ | hcount | hnone
      · rcases hscan with hr | ⟨sp, hsp, he'⟩
        · rw [he] at hr
          cases hr
        · rw [he] at he'
          cases he'
          exact hbad hsp
      · exact hsome (wf.findZombie_of_count hcount)
      · exact hsome hnone
  | threads event proc pid freed =>
      refine kept ((Machine.ParentsKept.congr (fun p => ?_) pid freed).mpr h) fun hscan => ?_
      · rw [proc, Machine.sysThreadFork_proc]
        split_ifs <;> rfl
      · refine absurd hscan (noscan ?_)
        rintro sp (he | ⟨he, -⟩) <;> rw [event] at he <;> cases he
  | born bears proc pid freed alive =>
      refine kept (Machine.parentsKept_born wf h alive proc pid freed) fun hscan => ?_
      refine absurd hscan (noscan ?_)
      rintro sp (he | ⟨he, -⟩) <;> rw [he] at bears <;> cases bears
  | status status event proc pid freed =>
      refine kept ((Machine.ParentsKept.congr (fun p => ?_) pid freed).mpr h) fun hscan => ?_
      · rw [proc, Machine.sysSetStatus_proc]
        split_ifs <;> rfl
      · refine absurd hscan (noscan ?_)
        rintro sp (he | ⟨he, -⟩) <;> rw [event] at he <;> cases he
  | exits event last parent proc pid freed alive =>
      refine kept ((Machine.ParentsKept.congr (fun p => ?_) pid freed).mpr h) fun hscan => ?_
      · rw [proc, Machine.exited_proc]
        split_ifs <;> rfl
      · refine absurd hscan (noscan ?_)
        rintro sp (he | ⟨he, -⟩) <;> rw [event] at he <;> cases he
  | reaped statusPtr z waits accepts found result proc pid freed alive =>
      rw [Machine.parentsKept_reap wf h (Machine.Wf.findZombie_some found).1 proc pid freed]
      have hscan : x.scans := by
        rcases waits with he | ⟨he, -⟩
        · exact Or.inr ⟨statusPtr, accepts he, he⟩
        · exact Or.inl he
      constructor
      · intro hnone _ z' hz'
        rw [hzombie, found] at hz'
        rw [← Option.some.inj hz', hchildren, hnone]
      · intro hcond
        have hz := hcond hscan z ((hzombie z).mpr found)
        rwa [hchildren] at hz

/-- The parents are allocated after boot: nobody has one. -/
theorem parentsAllocated_boot : ParentsAllocated Kernel.boot := by
  rw [parentsAllocated_iff refines_boot]
  intro c _ _ q hq
  simp only [Machine.boot] at hq
  split_ifs at hq

/-- **The parent pointers of a run.** No reached state has a dangling parent pointer exactly when
every `wait` that reaps a child reaps one whose own children are all reaped. -/
theorem parents_allocated_iff_reaps_childless {as : List Action} {k : Kernel} :
    Run (Into Kernel.Step ParentsAllocated) Kernel.boot as k ↔
      Run (Guarded Kernel.Step ReapsChildless) Kernel.boot as k := by
  refine Run.into_iff_guarded (I := fun u => ∃ m, u.RepresentedBy m)
    ⟨_, Kernel.represented_boot⟩ parentsAllocated_boot ?_ ?_
  · rintro u x v ⟨m, hm⟩ hstep
    obtain ⟨m', -, hm'⟩ := hm.step hstep
    exact ⟨m', hm'⟩
  · rintro u x v ⟨m, hm⟩ hu hstep
    exact parentsAllocated_step hm hu hstep

/-- A grandparent that reaps a parent which exited before its own child: process 4 is left with a
parent that was freed. -/
theorem parent_freed_before_child :
    ∃ as k, Run Kernel.Step Kernel.boot as k ∧
      as.map Action.event = [.call (.fork .ok), .call (.yield 3), .call (.fork .ok), .call .vanish,
        .reschedule, .call (.wait 0)] ∧
      ¬ ParentsAllocated k := by
  have h := Kernel.reaches_trace [.call (.fork .ok), .call (.yield 3), .call (.fork .ok),
    .call .vanish, .reschedule, .call (.wait 0)] (by decide +kernel)
  refine ⟨_, _, h, by decide +kernel, fun hkept => ?_⟩
  exact hkept 4 (by decide +kernel) (by decide +kernel) 3 (by decide +kernel) (by decide +kernel)

/-! ## Zombies -/

/-- **Every zombie can be reaped**: a forked process that has exited and is not freed is in the
children list of a process that has not exited. -/
def ZombiesReapable (k : Kernel) : Prop :=
  ∀ c, 3 ≤ c → c < k.nextPid → c ∉ k.freedPcb → (k.pcb c).state = .exit →
    ∃ q, (k.pcb q).state ≠ .exit ∧ c ∈ k.members (k.pcb q).children

/-- A process that exits has no zombie among its children, and its parent has not exited. -/
def ExitsCleanly (k : Kernel) (x : Action) : Prop :=
  k.Exits x → k.findZombie k.currentPcb = none ∧
    ∀ q, (k.pcb k.currentPcb).parent = some q → (k.pcb q).state ≠ .exit

namespace Machine

/-- `ZombiesReapable` on the machine. -/
def ZombiesKept (m : Machine) : Prop :=
  ∀ c, 3 ≤ c → c < m.nextPid → c ∉ m.freedPcb → (m.proc c).state = .exit →
    ∃ q, (m.proc q).state ≠ .exit ∧ c ∈ (m.proc q).children

/-- Steps without a new zombie keep the zombies reapable when no living process loses a child. -/
theorem ZombiesKept.mono {m m' : Machine} (h : m.ZombiesKept)
    (zombie : ∀ c, c < m'.nextPid → c ∉ m'.freedPcb → (m'.proc c).state = .exit →
      c < m.nextPid ∧ c ∉ m.freedPcb ∧ (m.proc c).state = .exit)
    (child : ∀ q c, c ∉ m'.freedPcb → (m.proc q).state ≠ .exit → c ∈ (m.proc q).children →
      (m'.proc q).state ≠ .exit ∧ c ∈ (m'.proc q).children) : m'.ZombiesKept := by
  intro c h3 hlt hfree hexit
  obtain ⟨hlt0, hfree0, hexit0⟩ := zombie c hlt hfree hexit
  obtain ⟨q, hq, hc⟩ := h c h3 hlt0 hfree0 hexit0
  exact ⟨q, child q c hfree hq hc⟩

/-- Steps that keep states and children keep the zombies reapable. -/
theorem ZombiesKept.congr {m m' : Machine} (h : m.ZombiesKept)
    (state : ∀ p, (m'.proc p).state = (m.proc p).state)
    (children : ∀ p, (m'.proc p).children = (m.proc p).children)
    (pid : m'.nextPid = m.nextPid) (freed : m'.freedPcb = m.freedPcb) : m'.ZombiesKept := by
  refine h.mono (fun c hlt hfree hexit => ?_) fun q c _ hq hc => ?_
  · rw [pid] at hlt
    rw [freed] at hfree
    rw [state] at hexit
    exact ⟨hlt, hfree, hexit⟩
  · rw [state, children]
    exact ⟨hq, hc⟩

/-- A fork keeps the zombies reapable. -/
theorem ZombiesKept.born {m m' : Machine} (wf : m.Wf) (h : m.ZombiesKept)
    (proc : m'.proc = m.forkBlocks.proc) (pid : m'.nextPid = m.nextPid + 1)
    (freed : m'.freedPcb = m.freedPcb) : m'.ZombiesKept := by
  have hcur : m.currentPcb < m.nextPid := wf.chains.owner_lt m.current
  have hproc : ∀ p, m'.proc p = m.forkBlocks.proc p := fun p => by rw [proc]
  simp only [forkBlocks_proc hcur] at hproc
  refine h.mono (fun c hlt hfree hexit => ?_) fun q c _ hq hc => ?_
  · rw [hproc] at hexit
    rw [pid] at hlt
    rw [freed] at hfree
    have hne : c ≠ m.nextPid := by
      rintro rfl
      rw [if_neg (Nat.ne_of_gt hcur), if_pos rfl] at hexit
      cases hexit
    refine ⟨by omega, hfree, ?_⟩
    split_ifs at hexit <;> exact hexit
  · have hne : q ≠ m.nextPid := by
      rintro rfl
      rw [wf.kin.unborn _ (Nat.le_refl _)] at hc
      cases hc
    rw [hproc]
    split_ifs
    · exact ⟨hq, List.mem_append_left _ hc⟩
    · exact ⟨hq, hc⟩

/-- A reap keeps the other zombies reapable. -/
theorem ZombiesKept.reap {m m' : Machine} (h : m.ZombiesKept) {p z statusPtr : Nat}
    (proc : m'.proc = (m.reap p z statusPtr).1.proc) (pid : m'.nextPid = m.nextPid)
    (freed : m'.freedPcb = z :: m.freedPcb) : m'.ZombiesKept := by
  have hproc : ∀ q, m'.proc q = (m.reap p z statusPtr).1.proc q := fun q => by rw [proc]
  simp only [reap_proc] at hproc
  refine h.mono (fun c hlt hfree hexit => ?_) fun q c hfree hq hc => ?_
  · rw [freed] at hfree
    rw [hproc] at hexit
    refine ⟨pid ▸ hlt, fun hc => hfree (List.mem_cons_of_mem z hc), ?_⟩
    split_ifs at hexit <;> exact hexit
  · rw [freed] at hfree
    have hne : c ≠ z := fun e => hfree (e ▸ List.mem_cons_self)
    rw [hproc]
    split_ifs
    · exact ⟨hq, (List.mem_erase_of_ne hne).mpr hc⟩
    · exact ⟨hq, hc⟩

/-- **An exit**: the zombies stay reapable exactly when the process leaves no zombie behind and its
parent has not exited. -/
theorem zombiesKept_exited {m m' : Machine} (wf : m.Wf) (h : m.ZombiesKept) (alive : m.alive)
    (proc : m'.proc = (m.exited m.currentPcb).proc) (pid : m'.nextPid = m.nextPid)
    (freed : m'.freedPcb = m.freedPcb) :
    m'.ZombiesKept ↔ m.findZombie m.currentPcb = none ∧
      ∀ q, (m.proc m.currentPcb).parent = some q → (m.proc q).state ≠ .exit := by
  have hproc : ∀ q, m'.proc q = (m.exited m.currentPcb).proc q := fun q => by rw [proc]
  simp only [exited_proc] at hproc
  have hself : (m'.proc m.currentPcb).state = .exit := by
    rw [hproc, if_pos rfl]
  have hother : ∀ q, q ≠ m.currentPcb → (m'.proc q).state = (m.proc q).state := by
    intro q hq
    rw [hproc, if_neg hq]
  have hchildren : ∀ q, (m'.proc q).children = (m.proc q).children := by
    intro q
    rw [hproc]
    split_ifs <;> rfl
  constructor
  · intro hkept
    constructor
    · -- a zombie left behind would have no parent but the process that exits
      refine List.find?_eq_none.mpr fun c hc hexit => ?_
      have hexit' : (m.proc c).state = .exit := by simpa using hexit
      obtain ⟨hpar, hlt, hfree⟩ := wf.kin.child _ c hc
      have hne : c ≠ m.currentPcb := Nat.ne_of_gt (wf.kin.older _ c hc)
      obtain ⟨q, hq, hcq⟩ := hkept c (wf.kin.child_ge _ c hc) (pid ▸ hlt) (freed ▸ hfree)
        ((hother c hne).trans hexit')
      rw [hchildren] at hcq
      have hpar' := (wf.kin.child q c hcq).1
      rw [hpar] at hpar'
      rw [← Option.some.inj hpar'] at hq
      exact hq hself
    · intro q hq hexit
      have h3 : 3 ≤ m.currentPcb := by
        by_contra hlt3
        rw [wf.kin.roots _ (by omega)] at hq
        cases hq
      have hlt : m.currentPcb < m'.nextPid := pid ▸ wf.chains.owner_lt m.current
      obtain ⟨q', hq', hmem⟩ := hkept m.currentPcb h3 hlt (freed ▸ alive.2) hself
      rw [hchildren] at hmem
      have hpar := (wf.kin.child q' _ hmem).1
      rw [hq] at hpar
      obtain rfl := Option.some.inj hpar
      exact hq' ((hother q (Nat.ne_of_lt (wf.kin.older q _ hmem))).trans hexit)
  · rintro ⟨hnone, hparent⟩ c h3 hlt hfree hexit
    rw [pid] at hlt
    rw [freed] at hfree
    by_cases hc : c = m.currentPcb
    · subst hc
      obtain ⟨q, hq⟩ := wf.kin.home _ h3 hlt hfree
      have hne : q ≠ m.currentPcb := Nat.ne_of_lt (wf.kin.older q _ hq)
      refine ⟨q, ?_, (hchildren q).symm ▸ hq⟩
      rw [hother q hne]
      exact hparent q (wf.kin.child q _ hq).1
    · rw [hother c hc] at hexit
      obtain ⟨q, hq, hmem⟩ := h c h3 hlt hfree hexit
      have hne : q ≠ m.currentPcb := by
        rintro rfl
        exact Wf.findZombie_none hnone c hmem hexit
      exact ⟨q, by rwa [hother q hne], (hchildren q).symm ▸ hmem⟩

end Machine

/-- The property of the kernel state is the property of the machine. -/
theorem zombiesReapable_iff {k : Kernel} {m : Machine} (h : k.RepresentedBy m) :
    ZombiesReapable k ↔ m.ZombiesKept := by
  unfold ZombiesReapable Machine.ZombiesKept
  rw [h.1.nextPid, h.1.freedPcb]
  simp only [(h.1.pcb _).state, h.1.members_children h.2.kin]

/-- **One step keeps the zombies reapable exactly when the process that exits, if one does, exits
cleanly.** -/
theorem zombiesReapable_step {k k' : Kernel} {m : Machine} {x : Action} (hm : k.RepresentedBy m)
    (h : ZombiesReapable k) (hs : k.Step x k') : ZombiesReapable k' ↔ ExitsCleanly k x := by
  obtain ⟨m', hm', h'⟩ := hm.step hs
  rw [zombiesReapable_iff hm] at h
  rw [zombiesReapable_iff h']
  unfold ExitsCleanly
  rw [hm.1.exits_iff hm.2, hm.1.findZombie hm.2, hm.1.currentPcb]
  simp only [(hm.1.pcb _).parent, (hm.1.pcb _).state]
  have wf := hm.2
  -- every effect but an exit keeps the zombies, and there the condition is empty
  have kept : m'.ZombiesKept →
      ¬ (x.event = .call .vanish ∧ m.liveCount (m.proc m.currentPcb).chain = 1) →
      (m'.ZombiesKept ↔ (x.event = .call .vanish ∧ m.liveCount (m.proc m.currentPcb).chain = 1 →
        m.findZombie m.currentPcb = none ∧
          ∀ q, (m.proc m.currentPcb).parent = some q → (m.proc q).state ≠ .exit)) :=
    fun hkept hno => iff_of_true hkept fun hexit => absurd hexit hno
  cases Machine.family_effect hm' with
  | still proc pid freed makes status reaps peers scan =>
      refine kept (h.congr (fun p => by rw [proc]) (fun p => by rw [proc]) pid freed) ?_
      exact fun hexit => peers hexit.1 hexit.2
  | threads event proc pid freed =>
      refine kept (h.congr (fun p => ?_) (fun p => ?_) pid freed) fun hexit => ?_
      · rw [proc, Machine.sysThreadFork_proc]
        split_ifs <;> rfl
      · rw [proc, Machine.sysThreadFork_proc]
        split_ifs <;> rfl
      · rw [event] at hexit
        cases hexit.1
  | born bears proc pid freed alive =>
      refine kept (h.born wf proc pid freed) fun hexit => ?_
      rw [hexit.1] at bears
      cases bears
  | status status event proc pid freed =>
      refine kept (h.congr (fun p => ?_) (fun p => ?_) pid freed) fun hexit => ?_
      · rw [proc, Machine.sysSetStatus_proc]
        split_ifs <;> rfl
      · rw [proc, Machine.sysSetStatus_proc]
        split_ifs <;> rfl
      · rw [event] at hexit
        cases hexit.1
  | exits event last parent proc pid freed alive =>
      rw [Machine.zombiesKept_exited wf h alive proc pid freed]
      exact ⟨fun hclean _ => hclean, fun hclean => hclean ⟨event, last⟩⟩
  | reaped statusPtr z waits accepts found result proc pid freed alive =>
      refine kept (h.reap proc pid freed) fun hexit => ?_
      rcases waits with he | ⟨he, -⟩ <;> rw [he] at hexit <;> cases hexit.1

/-- The zombies are reapable after boot: there are none. -/
theorem zombiesReapable_boot : ZombiesReapable Kernel.boot := by
  intro c h3 hlt
  have hpid : Kernel.boot.nextPid = 3 := by decide +kernel
  omega

/-- **The zombies of a run.** Every zombie can be reaped in every reached state exactly when each
process that exits has no zombie among its children, and its parent has not exited. -/
theorem zombies_reapable_iff_exits_clean {as : List Action} {k : Kernel} :
    Run (Into Kernel.Step ZombiesReapable) Kernel.boot as k ↔
      Run (Guarded Kernel.Step ExitsCleanly) Kernel.boot as k := by
  refine Run.into_iff_guarded (I := fun u => ∃ m, u.RepresentedBy m)
    ⟨_, Kernel.represented_boot⟩ zombiesReapable_boot ?_ ?_
  · rintro u x v ⟨m, hm⟩ hstep
    obtain ⟨m', -, hm'⟩ := hm.step hstep
    exact ⟨m', hm'⟩
  · rintro u x v ⟨m, hm⟩ hu hstep
    exact zombiesReapable_step hm hu hstep

/-- A child that exits after its parent: process 4 is a zombie in the children list of process 3,
which has exited, and in no other one. -/
theorem zombie_left_to_exited_parent :
    ∃ as k, Run Kernel.Step Kernel.boot as k ∧
      as.map Action.event = [.call (.fork .ok), .call (.yield 3), .call (.fork .ok), .call .vanish,
        .reschedule, .call (.yield 4), .call .vanish] ∧
      ¬ ZombiesReapable k := by
  have h := Kernel.reaches_trace [.call (.fork .ok), .call (.yield 3), .call (.fork .ok),
    .call .vanish, .reschedule, .call (.yield 4), .call .vanish] (by decide +kernel)
  refine ⟨_, _, h, by decide +kernel, fun hkept => ?_⟩
  obtain ⟨q, hq, hmem⟩ := hkept 4 (by decide +kernel) (by decide +kernel) (by decide +kernel)
    (by decide +kernel)
  obtain ⟨m, href, wf⟩ := Kernel.Reaches.represented h
  rw [href.members_children wf.kin] at hmem
  have hpar := ((href.pcb 4).parent).trans (wf.kin.child q 4 hmem).1
  obtain rfl : 3 = q := Option.some.inj (Eq.trans (by decide +kernel) hpar)
  exact hq (by decide +kernel)

end Pebbles
