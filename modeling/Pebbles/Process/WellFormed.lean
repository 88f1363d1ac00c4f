import Pebbles.Process.Places

/-! # Well-formed machines

`Chains m` says that thread lists belong to their process, `Kin m` that the children lists hold
exactly the forked processes that are not freed. `Wf m` is both together with `Queues m`, at rest:
every step keeps it (`Wf.step`). -/

namespace Pebbles

namespace Machine

/-! ## The blocks of a forked process -/

theorem forkBlocks_tcb (m : Machine) (t : Nat) :
    m.forkBlocks.tcb t = if t = m.nextTid then
      { m.tcb t with pcb := m.nextPid, state := .init, resume := .userMode } else m.tcb t := by
  by_cases ht : t = m.nextTid
  · subst ht
    simp [forkBlocks, setTcb, setProc]
  · simp [forkBlocks, setTcb, setProc, ht]

/-- The parent gets a child; the child starts with one thread and no children. -/
theorem forkBlocks_proc {m : Machine} (h : m.currentPcb < m.nextPid) (p : Nat) :
    m.forkBlocks.proc p =
      if p = m.currentPcb then { m.proc p with
        children := (m.proc p).children ++ [m.nextPid],
        childrenCount := (m.proc p).childrenCount + 1 }
      else if p = m.nextPid then { m.proc p with
        state := .running, parent := some m.currentPcb, chain := [m.nextTid], children := [],
        childrenCount := 0 }
      else m.proc p := by
  have hne : m.currentPcb ≠ m.nextPid := Nat.ne_of_lt h
  by_cases hp : p = m.currentPcb
  · subst hp
    simp [forkBlocks, setTcb, setProc, hne]
  · by_cases hq : p = m.nextPid
    · subst hq
      simp [forkBlocks, setTcb, setProc, hp, hne]
    · simp [forkBlocks, setTcb, setProc, hp, hq]

/-! ## The other calls that write control blocks -/

/-- A thread fork writes the control block of the new thread. -/
theorem sysThreadFork_tcb (m : Machine) (t : Nat) :
    m.sysThreadFork.1.tcb t = if t = m.nextTid then
      { m.tcb t with pcb := m.currentPcb, state := .init, resume := .userMode } else m.tcb t := by
  by_cases ht : t = m.nextTid
  · subst ht
    simp [sysThreadFork, setTcb, setProc]
  · simp [sysThreadFork, setTcb, setProc, ht]

/-- A thread fork cuts one thread list down. -/
theorem sysThreadFork_proc (m : Machine) (p : Nat) :
    m.sysThreadFork.1.proc p = if p = m.currentPcb then
      { m.proc p with chain := forkChain (m.proc p).chain m.nextTid } else m.proc p := by
  by_cases hp : p = m.currentPcb
  · subst hp
    simp [sysThreadFork, setTcb, setProc]
  · simp [sysThreadFork, setTcb, setProc, hp]

/-- `set_status` writes one status. -/
theorem sysSetStatus_proc (m : Machine) (status : Int) (p : Nat) :
    (m.sysSetStatus status).proc p = if p = m.currentPcb then
      { m.proc p with returnState := some status } else m.proc p := by
  by_cases hp : p = m.currentPcb
  · subst hp
    simp [sysSetStatus, setProc]
  · simp [sysSetStatus, setProc, hp]

/-! ## Thread lists -/

/-- **Thread lists** belong to their process. -/
structure Chains (m : Machine) : Prop where
  /-- No thread is twice in a list. -/
  nodup : ∀ p, (m.proc p).chain.Nodup
  /-- The threads in the list of `p` were created for `p`. -/
  own : ∀ p, ∀ t ∈ (m.proc p).chain, (m.tcb t).pcb = p ∧ t < m.nextTid
  /-- Every thread is of a process that was created. -/
  owner_lt : ∀ t, (m.tcb t).pcb < m.nextPid

namespace Chains

variable {m m' : Machine}

/-- Steps that keep the threads' processes and only take threads out of the lists. -/
theorem congr (h : Chains m) (chain : ∀ p, (m'.proc p).chain.Sublist (m.proc p).chain)
    (pcb : ∀ t, (m'.tcb t).pcb = (m.tcb t).pcb) (tid : m.nextTid ≤ m'.nextTid)
    (pid : m.nextPid ≤ m'.nextPid) : Chains m' := by
  refine ⟨fun p => (h.nodup p).sublist (chain p), fun p t ht => ?_, fun t => ?_⟩
  · obtain ⟨hown, hlt⟩ := h.own p t ((chain p).subset ht)
    rw [pcb]
    exact ⟨hown, Nat.lt_of_lt_of_le hlt tid⟩
  · rw [pcb]
    exact Nat.lt_of_lt_of_le (h.owner_lt t) pid

theorem shuffled (h : Chains m) (hs : Shuffled m m') : Chains m' :=
  h.congr (fun p => by rw [hs.proc]) hs.pcb (Nat.le_of_eq hs.nextTid.symm)
    (Nat.le_of_eq hs.nextPid.symm)

/-- A thread fork cuts the list down to the first thread and the new one. -/
theorem sysThreadFork (h : Chains m) : Chains m.sysThreadFork.1 := by
  have hpcb : ∀ t, (m.sysThreadFork.1.tcb t).pcb =
      if t = m.nextTid then m.currentPcb else (m.tcb t).pcb := by
    intro t
    rw [sysThreadFork_tcb]
    split_ifs <;> rfl
  have hchain : ∀ p, (m.sysThreadFork.1.proc p).chain =
      if p = m.currentPcb then forkChain (m.proc p).chain m.nextTid else (m.proc p).chain := by
    intro p
    rw [sysThreadFork_proc]
    split_ifs <;> rfl
  have hfresh : ∀ p, m.nextTid ∉ (m.proc p).chain := fun p hmem =>
    Nat.lt_irrefl _ (h.own p _ hmem).2
  have hold : ∀ p t, t ∈ (m.proc p).chain →
      (m.sysThreadFork.1.tcb t).pcb = p ∧ t < m.nextTid + 1 := by
    intro p t ht
    have hne : t ≠ m.nextTid := by
      rintro rfl
      exact hfresh p ht
    rw [hpcb, if_neg hne]
    exact ⟨(h.own p t ht).1, Nat.lt_succ_of_lt (h.own p t ht).2⟩
  refine ⟨fun p => ?_, fun p t ht => ?_, fun t => ?_⟩
  · rw [hchain]
    split_ifs with hp
    · cases hc : (m.proc p).chain with
      | nil => exact List.nodup_nil
      | cons root rest =>
          have hroot : root ≠ m.nextTid := by
            rintro rfl
            exact hfresh p (hc ▸ List.mem_cons_self)
          simp [forkChain, hroot]
    · exact h.nodup p
  · rw [hchain] at ht
    split_ifs at ht with hp
    · cases hc : (m.proc p).chain with
      | nil =>
          rw [hc] at ht
          simp [forkChain] at ht
      | cons root rest =>
          rw [hc] at ht
          simp only [forkChain, List.mem_cons, List.not_mem_nil, or_false] at ht
          rcases ht with rfl | rfl
          · exact hold p t (hc ▸ List.mem_cons_self)
          · rw [hpcb, if_pos rfl]
            exact ⟨hp.symm, Nat.lt_succ_self _⟩
    · exact hold p t ht
  · rw [hpcb]
    split_ifs with ht
    · exact h.owner_lt m.current
    · exact h.owner_lt t

/-- A forked process starts with its one thread. -/
theorem forkBlocks (h : Chains m) : Chains m.forkBlocks := by
  have hlt : m.currentPcb < m.nextPid := h.owner_lt m.current
  have hchain : ∀ p, (m.forkBlocks.proc p).chain =
      if p = m.nextPid then [m.nextTid] else (m.proc p).chain := by
    intro p
    rw [forkBlocks_proc hlt]
    by_cases hp : p = m.currentPcb
    · have hne : p ≠ m.nextPid := hp ▸ Nat.ne_of_lt hlt
      rw [if_pos hp, if_neg hne]
    · rw [if_neg hp]
      split_ifs <;> rfl
  have hpcb : ∀ t, (m.forkBlocks.tcb t).pcb =
      if t = m.nextTid then m.nextPid else (m.tcb t).pcb := by
    intro t
    rw [forkBlocks_tcb]
    split_ifs <;> rfl
  refine ⟨fun p => ?_, fun p t ht => ?_, fun t => ?_⟩
  · rw [hchain]
    split_ifs
    · exact List.nodup_singleton _
    · exact h.nodup p
  · rw [hchain] at ht
    rw [hpcb]
    show _ ∧ t < m.nextTid + 1
    split_ifs at ht with hp
    · rw [List.mem_singleton.mp ht, if_pos rfl]
      exact ⟨hp.symm, Nat.lt_succ_self _⟩
    · obtain ⟨hown, htid⟩ := h.own p t ht
      rw [if_neg (Nat.ne_of_lt htid)]
      exact ⟨hown, Nat.lt_succ_of_lt htid⟩
  · rw [hpcb]
    show _ < m.nextPid + 1
    split_ifs
    · exact Nat.lt_succ_self _
    · exact Nat.lt_succ_of_lt (h.owner_lt t)

end Chains

/-! ## Families -/

/-- **Families**: the children lists hold exactly the forked processes that are not freed. -/
structure Kin (m : Machine) : Prop where
  /-- A member of a children list names the owner of the list as its parent. -/
  child : ∀ p, ∀ c ∈ (m.proc p).children,
    (m.proc c).parent = some p ∧ c < m.nextPid ∧ c ∉ m.freedPcb
  /-- No child is twice in a list. -/
  nodup : ∀ p, (m.proc p).children.Nodup
  /-- The separate count is right. -/
  count : ∀ p, (m.proc p).childrenCount = (m.proc p).children.length
  /-- Every forked process that is not freed is in a list. -/
  home : ∀ c, 3 ≤ c → c < m.nextPid → c ∉ m.freedPcb → ∃ p, c ∈ (m.proc p).children
  /-- Only zombies were freed. -/
  freed : ∀ c ∈ m.freedPcb, (m.proc c).state = .exit ∧ c < m.nextPid
  /-- A process that was not created has no children. -/
  unborn : ∀ p, m.nextPid ≤ p → (m.proc p).children = []
  /-- `idle` and `init` are nobody's children. -/
  child_ge : ∀ p, ∀ c ∈ (m.proc p).children, 3 ≤ c
  /-- `idle` and `init` were created. -/
  pid_ge : 3 ≤ m.nextPid
  /-- A child is younger than its parent. -/
  older : ∀ p, ∀ c ∈ (m.proc p).children, p < c
  /-- `idle` and `init` have no parent. -/
  roots : ∀ p, p < 3 → (m.proc p).parent = none

namespace Kin

variable {m m' : Machine}

/-- Steps that keep the families and let processes exit only. -/
theorem congr (h : Kin m) (children : ∀ p, (m'.proc p).children = (m.proc p).children)
    (parent : ∀ p, (m'.proc p).parent = (m.proc p).parent)
    (count : ∀ p, (m'.proc p).childrenCount = (m.proc p).childrenCount)
    (state : ∀ p, (m.proc p).state = .exit → (m'.proc p).state = .exit)
    (pid : m'.nextPid = m.nextPid) (freed : m'.freedPcb = m.freedPcb) : Kin m' := by
  refine ⟨fun p c hc => ?_, fun p => ?_, fun p => ?_, fun c hc hlt hfree => ?_, fun c hc => ?_,
    fun p hp => ?_, fun p c hc => ?_, pid ▸ h.pid_ge, fun p c hc => ?_, fun p hp => ?_⟩
  · rw [children] at hc
    rw [parent, pid, freed]
    exact h.child p c hc
  · rw [children]
    exact h.nodup p
  · rw [children, count]
    exact h.count p
  · rw [pid] at hlt
    rw [freed] at hfree
    obtain ⟨p, hp⟩ := h.home c hc hlt hfree
    exact ⟨p, (children p).symm ▸ hp⟩
  · rw [freed] at hc
    rw [pid]
    exact ⟨state c (h.freed c hc).1, (h.freed c hc).2⟩
  · rw [children]
    exact h.unborn p (pid ▸ hp)
  · rw [children] at hc
    exact h.child_ge p c hc
  · rw [children] at hc
    exact h.older p c hc
  · rw [parent]
    exact h.roots p hp

theorem shuffled (h : Kin m) (hs : Shuffled m m') : Kin m' :=
  h.congr (fun p => by rw [hs.proc]) (fun p => by rw [hs.proc]) (fun p => by rw [hs.proc])
    (fun p hp => by rwa [hs.proc]) hs.nextPid hs.freedPcb

/-- A fork adds one child to the current process. -/
theorem forkBlocks (h : Kin m) (hlt : m.currentPcb < m.nextPid)
    (alive : m.currentPcb ∉ m.freedPcb) : Kin m.forkBlocks := by
  have hfresh : ∀ p, m.nextPid ∉ (m.proc p).children := fun p hmem =>
    Nat.lt_irrefl _ (h.child p _ hmem).2.1
  have hnotfreed : m.nextPid ∉ m.freedPcb := fun hmem => Nat.lt_irrefl _ (h.freed _ hmem).2
  have hchildren : ∀ p, (m.forkBlocks.proc p).children =
      if p = m.currentPcb then (m.proc p).children ++ [m.nextPid]
      else if p = m.nextPid then [] else (m.proc p).children := by
    intro p
    rw [forkBlocks_proc hlt]
    split_ifs <;> rfl
  have hparent : ∀ p, p ≠ m.nextPid → (m.forkBlocks.proc p).parent = (m.proc p).parent := by
    intro p hp
    rw [forkBlocks_proc hlt]
    split_ifs <;> rfl
  have hnew : (m.forkBlocks.proc m.nextPid).parent = some m.currentPcb := by
    rw [forkBlocks_proc hlt, if_neg (Nat.ne_of_gt hlt), if_pos rfl]
  have hold : ∀ p c, c ∈ (m.proc p).children →
      (m.forkBlocks.proc c).parent = some p ∧ c < m.nextPid + 1 ∧ c ∉ m.freedPcb := by
    intro p c hc
    obtain ⟨hpar, hclt, hfree⟩ := h.child p c hc
    rw [hparent c (Nat.ne_of_lt hclt)]
    exact ⟨hpar, Nat.lt_succ_of_lt hclt, hfree⟩
  refine ⟨fun p c hc => ?_, fun p => ?_, fun p => ?_, fun c h3 hclt hfree => ?_, fun c hc => ?_,
    fun p hp => ?_, fun p c hc => ?_, Nat.le_succ_of_le h.pid_ge, fun p c hc => ?_,
    fun p hp => ?_⟩
  · rw [hchildren] at hc
    split_ifs at hc with hp hq
    · rcases List.mem_append.mp hc with hmem | hmem
      · exact hold p c hmem
      · rw [List.mem_singleton.mp hmem, hnew, hp]
        exact ⟨rfl, Nat.lt_succ_self _, hnotfreed⟩
    · cases hc
    · exact hold p c hc
  · rw [hchildren]
    split_ifs
    · exact (List.nodup_append.mpr ⟨h.nodup p, List.nodup_singleton _, by
        rintro a ha b hb rfl
        exact hfresh p (List.mem_singleton.mp hb ▸ ha)⟩)
    · exact List.nodup_nil
    · exact h.nodup p
  · rw [hchildren, forkBlocks_proc hlt]
    split_ifs
    · rw [List.length_append, List.length_singleton, h.count p]
      push_cast
      rfl
    · rfl
    · exact h.count p
  · rcases Nat.lt_succ_iff_lt_or_eq.mp hclt with hlt' | rfl
    · obtain ⟨p, hp⟩ := h.home c h3 hlt' hfree
      have hne : p ≠ m.nextPid := by
        rintro rfl
        rw [h.unborn _ (Nat.le_refl _)] at hp
        cases hp
      refine ⟨p, ?_⟩
      rw [hchildren, if_neg hne]
      split_ifs
      · exact List.mem_append_left _ hp
      · exact hp
    · refine ⟨m.currentPcb, ?_⟩
      rw [hchildren, if_pos rfl]
      exact List.mem_append_right _ (List.mem_singleton_self _)
  · obtain ⟨hexit, hclt⟩ := h.freed c hc
    refine ⟨?_, Nat.lt_succ_of_lt hclt⟩
    have hne : c ≠ m.currentPcb := by
      rintro rfl
      exact alive hc
    rw [forkBlocks_proc hlt, if_neg hne, if_neg (Nat.ne_of_lt hclt)]
    exact hexit
  · have hle : m.nextPid + 1 ≤ p := hp
    rw [hchildren, if_neg (by omega), if_neg (by omega)]
    exact h.unborn p (by omega)
  · rw [hchildren] at hc
    split_ifs at hc
    · rcases List.mem_append.mp hc with hmem | hmem
      · exact h.child_ge p c hmem
      · rw [List.mem_singleton.mp hmem]
        exact h.pid_ge
    · cases hc
    · exact h.child_ge p c hc
  · rw [hchildren] at hc
    split_ifs at hc with hp
    · rcases List.mem_append.mp hc with hmem | hmem
      · exact h.older p c hmem
      · rw [List.mem_singleton.mp hmem, hp]
        exact hlt
    · cases hc
    · exact h.older p c hc
  · have hpid := h.pid_ge
    rw [hparent p (by omega)]
    exact h.roots p hp

/-- Reaping a zombie takes it out of the list of its parent and frees it. -/
theorem reap (h : Kin m) {p c : Nat} (hc : c ∈ (m.proc p).children)
    (hexit : (m.proc c).state = .exit) (statusPtr : Nat) : Kin (m.reap p c statusPtr).1 := by
  let m' := (m.reap p c statusPtr).1
  have hproc : ∀ q, m'.proc q = if q = p then { m.proc q with
      children := (m.proc q).children.erase c, childrenCount := (m.proc q).childrenCount - 1 }
      else m.proc q := m.reap_proc p c statusPtr
  have hparent : ∀ q, (m'.proc q).parent = (m.proc q).parent := by
    intro q
    rw [hproc]
    split_ifs <;> rfl
  have hstate : ∀ q, (m'.proc q).state = (m.proc q).state := by
    intro q
    rw [hproc]
    split_ifs <;> rfl
  have hmem : ∀ q x, x ∈ (m'.proc q).children ↔ x ∈ (m.proc q).children ∧ x ≠ c := by
    intro q x
    rw [hproc]
    split_ifs with hq
    · subst hq
      rw [(h.nodup q).mem_erase_iff]
      exact and_comm
    · constructor
      · intro hx
        refine ⟨hx, ?_⟩
        rintro rfl
        have hq' := (h.child q x hx).1
        rw [(h.child p x hc).1] at hq'
        exact hq (Option.some.inj hq').symm
      · exact And.left
  refine ⟨fun q x hx => ?_, fun q => ?_, fun q => ?_, fun x h3 hlt hfree => ?_, fun x hx => ?_,
    fun q hq => ?_, fun q x hx => h.child_ge q x ((hmem q x).mp hx).1, h.pid_ge,
    fun q x hx => h.older q x ((hmem q x).mp hx).1, fun q hq => (hparent q).trans (h.roots q hq)⟩
  · obtain ⟨hx, hne⟩ := (hmem q x).mp hx
    obtain ⟨hpar, hlt, hfree⟩ := h.child q x hx
    refine ⟨(hparent x).trans hpar, hlt, ?_⟩
    exact List.not_mem_cons_of_ne_of_not_mem hne hfree
  · rw [hproc]
    split_ifs
    · exact (h.nodup q).erase c
    · exact h.nodup q
  · rw [hproc]
    split_ifs with hq
    · subst hq
      show (m.proc q).childrenCount - 1 = (((m.proc q).children.erase c).length : Int)
      have hpos := List.length_pos_of_mem hc
      rw [List.length_erase_of_mem hc, h.count q]
      omega
    · exact h.count q
  · have hne : x ≠ c := fun e => hfree (e ▸ List.mem_cons_self)
    obtain ⟨q, hq⟩ := h.home x h3 hlt fun hx => hfree (List.mem_cons_of_mem c hx)
    exact ⟨q, (hmem q x).mpr ⟨hq, hne⟩⟩
  · rw [hstate]
    rcases List.mem_cons.mp hx with rfl | hx
    · exact ⟨hexit, (h.child p x hc).2.1⟩
    · exact h.freed x hx
  · refine List.eq_nil_iff_forall_not_mem.mpr fun x hx => ?_
    obtain ⟨hx, -⟩ := (hmem q x).mp hx
    rw [h.unborn q hq] at hx
    cases hx

/-- A forked process that is not freed is in the children list of its parent, and only there. -/
theorem mem_iff_parent (h : Kin m) {c q : Nat} (hlt : c < m.nextPid) (hfree : c ∉ m.freedPcb) :
    c ∈ (m.proc q).children ↔ (m.proc c).parent = some q := by
  constructor
  · intro hc
    exact (h.child q c hc).1
  · intro hq
    have h3 : 3 ≤ c := by
      by_contra hlt3
      rw [h.roots c (by omega)] at hq
      cases hq
    obtain ⟨p, hp⟩ := h.home c h3 hlt hfree
    have heq := (h.child p c hp).1
    rw [hq] at heq
    rwa [Option.some.inj heq]

/-- A process that is not freed is younger than its parent. -/
theorem parent_lt (h : Kin m) {c q : Nat} (hlt : c < m.nextPid) (hfree : c ∉ m.freedPcb)
    (hq : (m.proc c).parent = some q) : q < c :=
  h.older q c ((h.mem_iff_parent hlt hfree).mpr hq)

end Kin

/-! ## Every step keeps a machine well-formed -/

/-- **Well-formed**, at rest: the current thread is ready and everything else is in its place. -/
structure Wf (m : Machine) : Prop where
  /-- The queues are well-formed. -/
  queues : Queues m [m.current]
  /-- The current thread is ready. -/
  ready : (m.tcb m.current).state.ready = true
  /-- The thread lists are well-formed. -/
  chains : Chains m
  /-- The families are well-formed. -/
  kin : Kin m

namespace Wf

variable {m m' : Machine}

/-- A zombie found is a member of the children list. -/
theorem findZombie_some {p c : Nat} (h : m.findZombie p = some c) :
    c ∈ (m.proc p).children ∧ (m.proc c).state = .exit := by
  have hstate := List.find?_some h
  exact ⟨List.mem_of_find?_eq_some h, by simpa using hstate⟩

/-- No zombie is found: every child is alive. -/
theorem findZombie_none {p : Nat} (h : m.findZombie p = none) :
    ∀ c ∈ (m.proc p).children, (m.proc c).state ≠ .exit := by
  intro c hc
  simpa using List.find?_eq_none.mp h c hc

/-- Waking a blocked thread keeps a machine well-formed. -/
theorem wake (h : Wf m) {t : Nat} (ht : t ∈ m.blk) : Wf (m.wake t) where
  queues := h.queues.wake ht
  ready := by
    show ((m.wake t).tcb m.current).state.ready = true
    rw [wake_state]
    split_ifs
    · rfl
    · exact h.ready
  chains := h.chains.congr (fun _ => List.Sublist.refl _) (m.wake_pcb t) (Nat.le_refl _)
    (Nat.le_refl _)
  kin := h.kin.congr (fun _ => rfl) (fun _ => rfl) (fun _ => rfl) (fun _ hp => hp) rfl rfl

/-- A new thread of the current process. -/
theorem sysThreadFork (h : Wf m) : Wf m.sysThreadFork.1 := by
  have hcur : m.current < m.nextTid := h.queues.lt _ (List.mem_append_left _ List.mem_cons_self)
  have hold : ∀ t, t ≠ m.nextTid → m.sysThreadFork.1.tcb t = m.tcb t := fun t ht => by
    rw [sysThreadFork_tcb, if_neg ht]
  refine ⟨h.queues.newThread rfl rfl rfl (fun t ht => by rw [hold t ht]) ?_, ?_,
    h.chains.sysThreadFork, ?_⟩
  · rw [sysThreadFork_tcb, if_pos rfl]
  · show (m.sysThreadFork.1.tcb m.current).state.ready = true
    rw [hold _ (Nat.ne_of_lt hcur)]
    exact h.ready
  · refine h.kin.congr (fun p => ?_) (fun p => ?_) (fun p => ?_) (fun p hp => ?_) rfl rfl <;>
      rw [sysThreadFork_proc] <;> split_ifs
    all_goals first
      | rfl
      | exact hp

/-- A fork, whatever its outcome. -/
theorem sysFork (h : Wf m) (outcome : Kernel.ForkOutcome) (alive : m.currentPcb ∉ m.freedPcb) :
    Wf (m.sysFork outcome).1 := by
  have hcur : m.current < m.nextTid := h.queues.lt _ (List.mem_append_left _ List.mem_cons_self)
  have hold : ∀ t, t ≠ m.nextTid → m.forkBlocks.tcb t = m.tcb t := fun t ht => by
    rw [forkBlocks_tcb, if_neg ht]
  have hfresh : (m.forkBlocks.tcb m.nextTid).state = .init := by
    rw [forkBlocks_tcb, if_pos rfl]
  have hready : (m.forkBlocks.tcb m.current).state.ready = true := by
    rw [hold _ (Nat.ne_of_lt hcur)]
    exact h.ready
  have hkin := h.kin.forkBlocks (h.chains.owner_lt m.current) alive
  cases outcome with
  | early => exact h
  | stack =>
      exact ⟨h.queues.congr rfl rfl (Nat.le_succ _) fun _ => rfl, h.ready,
        h.chains.congr (fun _ => List.Sublist.refl _) (fun _ => rfl) (Nat.le_succ _)
          (Nat.le_refl _),
        h.kin.congr (fun _ => rfl) (fun _ => rfl) (fun _ => rfl) (fun _ hp => hp) rfl rfl⟩
  | late =>
      refine ⟨h.queues.withThread rfl rfl rfl (fun t ht => congrArg TCB.state (hold t ht))
        hfresh, hready,
        h.chains.forkBlocks, hkin⟩
  | ok =>
      exact ⟨h.queues.newThread rfl rfl rfl (fun t ht => congrArg TCB.state (hold t ht)) hfresh,
        hready,
        h.chains.forkBlocks.congr (fun _ => List.Sublist.refl _) (fun _ => rfl) (Nat.le_refl _)
          (Nat.le_refl _),
        hkin.congr (fun _ => rfl) (fun _ => rfl) (fun _ => rfl) (fun _ hp => hp) rfl rfl⟩

/-- A new status of the current process. -/
theorem sysSetStatus (h : Wf m) (status : Int) : Wf (m.sysSetStatus status) := by
  refine ⟨h.queues.congr rfl rfl (Nat.le_refl _) fun _ => rfl, h.ready,
    h.chains.congr (fun p => ?_) (fun _ => rfl) (Nat.le_refl _) (Nat.le_refl _),
    h.kin.congr (fun p => ?_) (fun p => ?_) (fun p => ?_) (fun p hp => ?_) rfl rfl⟩ <;>
    rw [sysSetStatus_proc] <;> split_ifs
  all_goals first
    | rfl
    | exact hp

/-- A thread woken inside `wait` goes on. -/
theorem goOn (h : Wf m) : Wf m.goOn := by
  refine ⟨h.queues.setTcb_hand, ?_, h.chains.congr (fun _ => List.Sublist.refl _) (fun t => ?_)
    (Nat.le_refl _) (Nat.le_refl _),
    h.kin.congr (fun _ => rfl) (fun _ => rfl) (fun _ => rfl) (fun _ hp => hp) rfl rfl⟩
  · simpa [Machine.goOn, setTcb] using h.ready
  · by_cases ht : t = m.current
    · simp [Machine.goOn, setTcb, ht]
    · simp [Machine.goOn, setTcb, ht]

/-- A zombie is reaped by its parent. -/
theorem reap (h : Wf m) {p c : Nat}
    (found : c ∈ (m.proc p).children ∧ (m.proc c).state = .exit) (statusPtr : Nat) :
    Wf (m.reap p c statusPtr).1 := by
  refine ⟨h.queues.congr rfl rfl (Nat.le_refl _) fun _ => rfl, h.ready,
    h.chains.congr (fun q => ?_) (fun _ => rfl) (Nat.le_refl _) (Nat.le_refl _),
    h.kin.reap found.1 found.2 statusPtr⟩
  by_cases hq : q = p
  · simp [Machine.reap, setProc, hq]
  · simp [Machine.reap, setProc, hq]

/-- A step that returns keeps a machine well-formed. -/
theorem returns (h : Wf m) {e : Event} {o : Out} (user : ∀ c, e = .call c → m.inUser)
    (step : Returns m e o m') : Wf m' := by
  cases step with
  | tick n =>
      exact ⟨h.queues.congr rfl rfl (Nat.le_refl _) fun _ => rfl, h.ready,
        h.chains.congr (fun _ => List.Sublist.refl _) (fun _ => rfl) (Nat.le_refl _)
          (Nat.le_refl _),
        h.kin.congr (fun _ => rfl) (fun _ => rfl) (fun _ => rfl) (fun _ hp => hp) rfl rfl⟩
  | noReader => exact h
  | reader t mem state => exact h.wake mem
  | refuse c v manages => exact h
  | makeRunnable tid t mem state => exact h.wake mem
  | threadFork => exact h.sysThreadFork
  | fork outcome => exact h.sysFork outcome (user _ rfl).2.2.2
  | setStatus status => exact h.sysSetStatus status
  | badPointer statusPtr bad => exact h
  | childless statusPtr none => exact h
  | firstScan statusPtr c accepts found => exact h.reap (findZombie_some found) statusPtr
  | secondScan statusPtr inside alive =>
      rw [resumeWait_eq]
      cases found : m.goOn.findZombie m.currentPcb with
      | some c => exact h.goOn.reap (findZombie_some found) statusPtr
      | none => exact h.goOn

/-- The exit of a process, before anybody is woken. -/
theorem exited (h : Wf m) (p : Nat) : Wf (m.exited p) := by
  refine ⟨h.queues.congr rfl rfl (Nat.le_refl _) fun _ => rfl, h.ready,
    h.chains.congr (fun q => ?_) (fun _ => rfl) (Nat.le_refl _) (Nat.le_refl _),
    h.kin.congr (fun q => ?_) (fun q => ?_) (fun q => ?_) (fun q hq => ?_) rfl rfl⟩ <;>
    by_cases hp : q = p
  · subst hp
    rw [exited_proc_self]
    show (reapChain (m.proc q).chain m.current).Sublist (m.proc q).chain
    unfold reapChain
    split_ifs with hhead
    · obtain ⟨rest, hrest⟩ := List.head?_eq_some_iff.mp hhead
      rw [hrest]
      exact (List.nil_sublist rest).cons_cons m.current
    · exact List.Sublist.refl _
  all_goals first
    | (subst hp; rw [exited_proc_self])
    | rw [m.exited_proc_of_ne hp]
  exact hq

/-- A waiting thread is in the blocked queue. -/
theorem mem_blk_of_waiting (h : Wf m) {t : Nat} (ht : (m.tcb t).state = .waiting) : t ∈ m.blk := by
  rcases h.queues.suspended_blk t (by rw [ht]; rfl) with hmem | hmem
  · exact hmem
  · have hready := h.ready
    rw [← List.mem_singleton.mp hmem, ht] at hready
    cases hready

/-- Whoever the exit of a process wakes, the machine stays well-formed. -/
theorem exitWakes (h : Wf m) {p : Nat} (w : ExitWakes m p m') : Wf m' := by
  cases w with
  | nobody quiet => exact h
  | init orphan mem => exact h.wake mem
  | waiter q t parent living mem waiting => exact h.wake (h.mem_blk_of_waiting waiting)

/-- The current thread is not changed by the exit of its process. -/
theorem exitWakes_current {p : Nat} (w : ExitWakes m p m') : m'.current = m.current := by
  cases w <;> rfl

/-- **At a call of `schedule`** everything is well-formed but the state of the current thread. -/
structure AtSchedule (m : Machine) : Prop where
  /-- The queues are well-formed. -/
  queues : Queues m [m.current]
  /-- Thread `idle` is ready. -/
  idle : m.current = 1 → (m.tcb m.current).state.ready = true
  /-- The thread lists are well-formed. -/
  chains : Chains m
  /-- The families are well-formed. -/
  kin : Kin m

theorem atSchedule (h : Wf m) : AtSchedule m := ⟨h.queues, fun _ => h.ready, h.chains, h.kin⟩

/-- The current thread, which is not `idle`, may change its state before it calls `schedule`. -/
theorem setCurrent (h : Wf m) (b : TCB) (owner : b.pcb = m.currentPcb) (idle : m.current ≠ 1) :
    AtSchedule (m.setTcb m.current b) := by
  refine ⟨h.queues.setTcb_hand, fun hcur => absurd hcur idle,
    h.chains.congr (fun _ => List.Sublist.refl _) (fun t => ?_) (Nat.le_refl _) (Nat.le_refl _),
    h.kin.congr (fun _ => rfl) (fun _ => rfl) (fun _ => rfl) (fun _ hp => hp) rfl rfl⟩
  by_cases ht : t = m.current
  · subst ht
    simpa [setTcb, currentPcb] using owner
  · simp [setTcb, ht]

/-- A step that blocks calls `schedule` in a well-formed machine, from the same thread. -/
theorem blocks (h : Wf m) {e : Event} {m1 : Machine} (step : Blocks m e m1) :
    AtSchedule m1 ∧ m1.current = m.current := by
  cases step with
  | tick n =>
      exact ⟨⟨h.queues.congr rfl rfl (Nat.le_refl _) fun _ => rfl, fun _ => h.ready,
        h.chains.congr (fun _ => List.Sublist.refl _) (fun _ => rfl) (Nat.le_refl _)
          (Nat.le_refl _),
        h.kin.congr (fun _ => rfl) (fun _ => rfl) (fun _ => rfl) (fun _ hp => hp) rfl rfl⟩, rfl⟩
  | reschedule => exact ⟨h.atSchedule, rfl⟩
  | yield tid => exact ⟨h.atSchedule, rfl⟩
  | aside c b manages user state owner resume => exact ⟨h.setCurrent b owner user.2.1, rfl⟩
  | wait statusPtr user none => exact ⟨h.setCurrent _ rfl user.2.1, rfl⟩
  | vanish user peers => exact ⟨h.setCurrent _ rfl user.2.1, rfl⟩
  | exit m2 user last parent wakes =>
      have hwf : Wf m2 := (h.exited m.currentPcb).exitWakes wakes
      have hcur : m2.current = m.current := (exitWakes_current wakes).trans rfl
      rw [← hcur]
      exact ⟨hwf.setCurrent _ rfl (hcur ▸ user.2.1), rfl⟩

/-- `schedule` leads back to rest. -/
theorem AtSchedule.schedule {m1 : Machine} {tid : Int} (h : AtSchedule m1)
    (hs : m1.schedule tid = some m') : Wf m' := by
  obtain ⟨hqueues, hready, hshuf, -⟩ := schedule_spec h.queues h.idle hs
  exact ⟨hqueues, hready, h.chains.shuffled hshuf, h.kin.shuffled hshuf⟩

/-- **Every step keeps a machine well-formed.** -/
theorem step (h : Wf m) {e : Event} {o : Out} (hs : m.step e = some (m', o)) : Wf m' := by
  rcases step_cases hs with hret | ⟨-, m1, tid, hblocks, hsched⟩
  · refine h.returns (fun c hc => ?_) hret
    subst hc
    exact inUser_of_step hs
  · exact (h.blocks hblocks).1.schedule hsched

end Wf

/-- The machine is well-formed after boot. -/
theorem wf_boot : Wf boot := by
  have hstate : ∀ t, (boot.tcb t).state.suspended = false := by
    intro t
    simp only [boot]
    split_ifs <;> rfl
  have hchildren : ∀ p, (boot.proc p).children = [] := by
    intro p
    simp only [boot]
    split_ifs <;> rfl
  have hchain : ∀ p, (boot.proc p).chain = if p = 1 then [1] else if p = 2 then [2] else [] := by
    intro p
    simp only [boot]
    split_ifs <;> rfl
  refine ⟨⟨by decide, by decide, by decide, by decide, fun t ht => ?_⟩, by decide,
    ⟨fun p => ?_, fun p t ht => ?_, fun t => ?_⟩,
    ⟨fun p c hc => ?_, fun p => ?_, fun p => ?_, fun c h3 hlt => ?_, fun c hc => ?_,
      fun p _ => hchildren p, fun p c hc => ?_, by decide, fun p c hc => ?_, fun p _ => ?_⟩⟩
  · rw [hstate t] at ht
    cases ht
  · rw [hchain]
    split_ifs <;> simp
  · rw [hchain] at ht
    split_ifs at ht with h1 h2
    · obtain rfl := List.mem_singleton.mp ht
      exact ⟨h1.symm, by decide⟩
    · obtain rfl := List.mem_singleton.mp ht
      exact ⟨h2.symm, by decide⟩
    · cases ht
  · simp only [boot]
    split_ifs <;> decide
  · rw [hchildren] at hc
    cases hc
  · rw [hchildren]
    exact List.nodup_nil
  · rw [hchildren]
    simp only [boot]
    split_ifs <;> rfl
  · exact absurd hlt (Nat.not_lt.mpr h3)
  · cases hc
  · rw [hchildren] at hc
    cases hc
  · rw [hchildren] at hc
    cases hc
  · simp only [boot]
    split_ifs <;> rfl

end Machine

end Pebbles
