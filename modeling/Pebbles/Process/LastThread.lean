import Pebbles.Process.Threads
import Pebbles.Process.Families
import Mathlib.Data.List.Nodup

/-! # The last thread of a process

`sys_thread_fork` inserts the new thread into a copy of the list header, so that the thread list of
a process leads to its first thread and the one created last, and to no other. `sys_vanish` counts
the threads of this list. It takes the process down with its last thread, and wakes the parent,
exactly when the process has had at most two threads. -/

namespace Pebbles

open Transition

/-! ## The threads of a process -/

/-- The threads created for process `p`. -/
def Kernel.threadsOf (k : Kernel) (p : Nat) : List Nat :=
  (List.range k.nextTid).filter fun t => (k.tcb t).pcb = p

/-- The current thread is the only one of its process that has not exited. -/
def Kernel.IsLast (k : Kernel) : Prop :=
  ∀ t ∈ k.threadsOf k.currentPcb, (k.tcb t).state ≠ .exit → t = k.currentThread

/-- Some thread of `p` waits. -/
def Kernel.HasWaiter (k : Kernel) (p : Nat) : Prop :=
  ∃ t ∈ k.threadsOf p, (k.tcb t).state = .waiting

/-- A thread of `p` waits in `k` and does not wait any more in `k'`. -/
def Kernel.WakesWaiter (k k' : Kernel) (p : Nat) : Prop :=
  ∃ t ∈ k.threadsOf p, (k.tcb t).state = .waiting ∧ (k'.tcb t).state ≠ .waiting

/-- **A process exits with its last thread**, at a `vanish` that leads from `k` to `k'`. -/
structure ExitsWithLast (k k' : Kernel) : Prop where
  /-- The traversal of the thread list meets every thread created for the process. -/
  meets : ∀ t ∈ k.threadsOf k.currentPcb, t ∈ k.members (k.pcb k.currentPcb).threads
  /-- The process gets its exit state when and only when its last thread vanishes. -/
  exits : (k'.pcb k.currentPcb).state = .exit ↔ k.IsLast
  /-- A living parent with a waiting thread is woken then and only then. -/
  wakes : ∀ q, (k.pcb k.currentPcb).parent = some q → (k.pcb q).state ≠ .exit → k.HasWaiter q →
    (k.WakesWaiter k' q ↔ k.IsLast)

/-- The property of a step. -/
def VanishesWithLast (k : Kernel) (x : Action) (k' : Kernel) : Prop :=
  x.event = .call .vanish → ExitsWithLast k k'

/-- At a `vanish` the process has had at most two threads; and when it exits below a living parent
with a waiting thread, the thread list of the parent leads to a waiting thread. -/
def SeesAllThreads (k : Kernel) (x : Action) : Prop :=
  x.event = .call .vanish → (k.threadsOf k.currentPcb).length ≤ 2 ∧
    (k.Exits x → ∀ q, (k.pcb k.currentPcb).parent = some q → (k.pcb q).state ≠ .exit →
      k.HasWaiter q → ∃ t ∈ k.members (k.pcb q).threads, (k.tcb t).state = .waiting)

namespace Machine

/-- The threads created for process `p`. -/
def threadsOf (m : Machine) (p : Nat) : List Nat :=
  (List.range m.nextTid).filter fun t => (m.tcb t).pcb = p

@[simp] theorem mem_threadsOf {m : Machine} {p t : Nat} :
    t ∈ m.threadsOf p ↔ t < m.nextTid ∧ (m.tcb t).pcb = p := by
  simp [threadsOf]

theorem nodup_threadsOf (m : Machine) (p : Nat) : (m.threadsOf p).Nodup :=
  List.nodup_range.filter _

/-- A step adds at most its new tid to the threads of a process. -/
theorem threadsOf_step {m m' : Machine} {e : Event} (h : ThreadEffect m e m') (p : Nat) :
    m'.threadsOf p = m.threadsOf p ++
      if m.nextTid < m'.nextTid ∧ (m'.tcb m.nextTid).pcb = p then [m.nextTid] else [] := by
  have hold : (List.range m.nextTid).filter (fun t => decide ((m'.tcb t).pcb = p)) =
      m.threadsOf p := by
    refine List.filter_congr fun t ht => ?_
    rw [h.pcb t (Or.inl (Nat.ne_of_lt (List.mem_range.mp ht)))]
  have htid := h.tid
  have htid_le := h.tid_le
  by_cases hnew : m.nextTid < m'.nextTid
  · have heq : m'.nextTid = m.nextTid + 1 := by omega
    by_cases hp : (m'.tcb m.nextTid).pcb = p
    · rw [if_pos ⟨hnew, hp⟩, threadsOf, heq, List.range_succ, List.filter_append, hold]
      simp [hp]
    · rw [if_neg fun hboth => hp hboth.2, threadsOf, heq, List.range_succ, List.filter_append, hold]
      simp [hp]
  · have heq : m'.nextTid = m.nextTid := by omega
    rw [if_neg fun hboth => hnew hboth.1, threadsOf, heq, hold, List.append_nil]

/-! ## Small processes -/

/-- **Small processes are fully listed.** A process with a thread in place that has had at most two
threads has not exited, and its thread list leads to both. -/
structure Manned (m : Machine) : Prop where
  /-- The process of a thread in place has not exited. -/
  living : ∀ t ∈ m.places, (m.threadsOf (m.tcb t).pcb).length ≤ 2 →
    (m.proc (m.tcb t).pcb).state ≠ .exit
  /-- Its thread list leads to all its threads. -/
  listed : ∀ t ∈ m.places, (m.threadsOf (m.tcb t).pcb).length ≤ 2 →
    ∀ s ∈ m.threadsOf (m.tcb t).pcb, s ∈ (m.proc (m.tcb t).pcb).chain
  /-- Unused control blocks name no process. -/
  unused : ∀ t, m.nextTid ≤ t → (m.tcb t).pcb = 0
  /-- A thread in place has a process. -/
  owned : ∀ t ∈ m.places, (m.tcb t).pcb ≠ 0

/-- Two live threads in a list are counted. -/
theorem two_le_liveCount {m : Machine} {chain : List Nat} {s t : Nat} (hs : s ∈ chain)
    (ht : t ∈ chain) (hne : s ≠ t) (hslive : (m.tcb s).state ≠ .exit)
    (htlive : (m.tcb t).state ≠ .exit) : 2 ≤ m.liveCount chain := by
  have hsub : [s, t] ⊆ chain.filter fun u => (m.tcb u).state ≠ .exit := by
    intro u hu
    simp only [List.mem_cons, List.not_mem_nil, or_false] at hu
    rcases hu with rfl | rfl
    · exact List.mem_filter.mpr ⟨hs, by simpa using hslive⟩
    · exact List.mem_filter.mpr ⟨ht, by simpa using htlive⟩
  have hnodup : [s, t].Nodup := by simp [hne]
  rw [liveCount, List.countP_eq_length_filter]
  exact (hnodup.subperm hsub).length_le

/-- The process of a thread in place after a step is that of a thread in place before it, or the
one just forked. -/
theorem ThreadEffect.owner_cases {m m' : Machine} {e : Event} (h : ThreadEffect m e m') (wf : m.Wf)
    {t : Nat} (ht : t ∈ m'.places) :
    (∃ s ∈ m.places, (m'.tcb t).pcb = (m.tcb s).pcb) ∨
      e = .call (.fork .ok) ∧ (m'.tcb t).pcb = m.nextPid := by
  rcases h.placed t ht with hold | ⟨rfl, hstarts⟩
  · have hne := Nat.ne_of_lt (wf.placed_lt hold)
    exact Or.inl ⟨t, hold, h.pcb t (Or.inl hne)⟩
  · rcases Event.startsThread_cases hstarts with rfl | rfl
    · exact Or.inl ⟨m.current, m.current_placed, h.peer rfl⟩
    · exact Or.inr ⟨rfl, (h.child rfl).2⟩

namespace Manned

variable {m m' : Machine} {e : Event}

/-- Steps keep unused control blocks unused. -/
theorem step_unused (h : Manned m) (heffect : ThreadEffect m e m') (t : Nat)
    (ht : m'.nextTid ≤ t) : (m'.tcb t).pcb = 0 := by
  have hle := Nat.le_trans heffect.tid ht
  by_cases hmakes : e.makesThread = false
  · rw [heffect.pcb t (Or.inr hmakes)]
    exact h.unused t hle
  · have hlt : m.nextTid < m'.nextTid := by
      by_contra hno
      refine hmakes (Event.makesThread_eq_false.mpr ⟨?_, ?_⟩)
      · by_contra hstarts
        exact hno (heffect.started (by simpa using hstarts)).1
      · by_contra hbears
        exact hno (heffect.child (by simpa using hbears)).1
    rw [heffect.pcb t (Or.inl (by omega))]
    exact h.unused t hle

/-- Steps give every thread in place a process. -/
theorem step_owned (h : Manned m) (wf : m.Wf) (heffect : ThreadEffect m e m') (t : Nat)
    (ht : t ∈ m'.places) : (m'.tcb t).pcb ≠ 0 := by
  have hpid := wf.kin.pid_ge
  rcases heffect.owner_cases wf ht with ⟨s, hs, hpcb⟩ | ⟨-, hpcb⟩
  · rw [hpcb]
    exact h.owned s hs
  · rw [hpcb]
    omega

/-- A step without a new thread keeps the threads of every process. -/
theorem threadsOf_eq (h : Manned m) (heffect : ThreadEffect m e m') (makes : e.makesThread = false)
    {p : Nat} (hp : p ≠ 0) : m'.threadsOf p = m.threadsOf p := by
  rw [threadsOf_step heffect, if_neg, List.append_nil]
  rintro ⟨-, heq⟩
  rw [heffect.pcb _ (Or.inr makes), h.unused _ (Nat.le_refl _)] at heq
  exact hp heq.symm

/-- Steps without a new thread keep small processes manned when they keep the states and the
thread lists of the small processes with a thread in place. -/
theorem of_old (h : Manned m) (wf : m.Wf) (heffect : ThreadEffect m e m')
    (makes : e.makesThread = false)
    (same : ∀ t ∈ m.places, t ∈ m'.places → (m.threadsOf (m.tcb t).pcb).length ≤ 2 →
      (m'.proc (m.tcb t).pcb).state = (m.proc (m.tcb t).pcb).state ∧
        (m'.proc (m.tcb t).pcb).chain = (m.proc (m.tcb t).pcb).chain) : Manned m' := by
  have hold : ∀ t ∈ m'.places, t ∈ m.places ∧ (m'.tcb t).pcb = (m.tcb t).pcb := by
    intro t ht
    refine ⟨?_, heffect.pcb t (Or.inr makes)⟩
    rcases heffect.placed t ht with hp | ⟨-, hstarts⟩
    · exact hp
    · rw [(Event.makesThread_eq_false.mp makes).1] at hstarts
      cases hstarts
  have hthreads : ∀ t ∈ m.places, m'.threadsOf (m.tcb t).pcb = m.threadsOf (m.tcb t).pcb :=
    fun t ht => h.threadsOf_eq heffect makes (h.owned t ht)
  refine ⟨fun t ht hsmall => ?_, fun t ht hsmall s hs => ?_, h.step_unused heffect,
    h.step_owned wf heffect⟩
  · obtain ⟨hplace, hpcb⟩ := hold t ht
    rw [hpcb, hthreads t hplace] at hsmall
    rw [hpcb, (same t hplace ht hsmall).1]
    exact h.living t hplace hsmall
  · obtain ⟨hplace, hpcb⟩ := hold t ht
    rw [hpcb, hthreads t hplace] at hsmall hs
    rw [hpcb, (same t hplace ht hsmall).2]
    exact h.listed t hplace hsmall s hs

/-- A thread fork of a process with one thread keeps the list complete; the others are not
touched. -/
theorem threadFork (h : Manned m) (wf : m.Wf) (heffect : ThreadEffect m (.call .threadFork) m')
    (proc : m'.proc = m.sysThreadFork.1.proc) : Manned m' := by
  obtain ⟨hlt, -⟩ := heffect.started rfl
  have hnew : (m'.tcb m.nextTid).pcb = m.currentPcb := heffect.peer rfl
  have hproc : ∀ p, m'.proc p = m.sysThreadFork.1.proc p := fun p => by rw [proc]
  simp only [sysThreadFork_proc] at hproc
  have hthreads : ∀ p, m'.threadsOf p =
      m.threadsOf p ++ if m.currentPcb = p then [m.nextTid] else [] := by
    intro p
    rw [threadsOf_step heffect, hnew]
    simp only [hlt, true_and]
  have hcurrent : m.current ∈ m.threadsOf m.currentPcb :=
    mem_threadsOf.mpr ⟨wf.placed_lt m.current_placed, rfl⟩
  -- with at most two threads after the call, the current one was alone before
  have alone : (m'.threadsOf m.currentPcb).length ≤ 2 →
      m.threadsOf m.currentPcb = [m.current] ∧ (m.proc m.currentPcb).chain = [m.current] := by
    intro hsmall
    rw [hthreads, if_pos rfl, List.length_append, List.length_singleton] at hsmall
    obtain ⟨t, ht⟩ := List.length_eq_one_iff.mp
      (Nat.le_antisymm (by omega) (List.length_pos_of_mem hcurrent))
    rw [ht, List.mem_singleton] at hcurrent
    subst hcurrent
    refine ⟨ht, ?_⟩
    have hmem : m.current ∈ (m.proc m.currentPcb).chain :=
      h.listed m.current m.current_placed (by show (m.threadsOf m.currentPcb).length ≤ 2; omega)
        m.current (mem_threadsOf.mpr ⟨wf.placed_lt m.current_placed, rfl⟩)
    refine List.perm_singleton.mp ((List.perm_ext_iff_of_nodup (wf.chains.nodup _)
      (List.nodup_singleton _)).mpr fun s => ⟨fun hs => ?_, fun hs => ?_⟩)
    · obtain ⟨hown, hslt⟩ := wf.chains.own _ s hs
      rw [← ht]
      exact mem_threadsOf.mpr ⟨hslt, hown⟩
    · rw [List.mem_singleton.mp hs]
      exact hmem
  have howner : ∀ t ∈ m'.places, ∃ s ∈ m.places, (m'.tcb t).pcb = (m.tcb s).pcb := by
    intro t ht
    rcases heffect.owner_cases wf ht with hold | ⟨he, -⟩
    · exact hold
    · cases he
  refine ⟨fun t ht hsmall => ?_, fun t ht hsmall s hs => ?_, h.step_unused heffect,
    h.step_owned wf heffect⟩
  · obtain ⟨u, hu, hpcb⟩ := howner t ht
    rw [hpcb, hthreads, List.length_append] at hsmall
    rw [hpcb, hproc]
    have hliving := h.living u hu (by omega)
    split_ifs <;> exact hliving
  · obtain ⟨u, hu, hpcb⟩ := howner t ht
    rw [hpcb] at hsmall hs ⊢
    by_cases hcur : m.currentPcb = (m.tcb u).pcb
    · rw [← hcur] at hsmall hs ⊢
      obtain ⟨hone, hchain⟩ := alone hsmall
      rw [hthreads, if_pos rfl, hone] at hs
      rw [hproc, if_pos rfl, hchain]
      exact hs
    · rw [hthreads, if_neg hcur, List.append_nil] at hsmall hs
      rw [hproc, if_neg (Ne.symm hcur)]
      exact h.listed u hu hsmall s hs

/-- A forked process starts with the one thread it has. -/
theorem born (h : Manned m) (wf : m.Wf) (heffect : ThreadEffect m e m')
    (bears : e.bearsChild = true) (proc : m'.proc = m.forkBlocks.proc) : Manned m' := by
  obtain ⟨hlt, hnew⟩ := heffect.child bears
  have hcur : m.currentPcb < m.nextPid := wf.chains.owner_lt m.current
  have hproc : ∀ p, m'.proc p = m.forkBlocks.proc p := fun p => by rw [proc]
  simp only [forkBlocks_proc hcur] at hproc
  have hthreads : ∀ p, m'.threadsOf p =
      m.threadsOf p ++ if m.nextPid = p then [m.nextTid] else [] := by
    intro p
    rw [threadsOf_step heffect, hnew]
    simp only [hlt, true_and]
  have hnone : m.threadsOf m.nextPid = [] := by
    refine List.eq_nil_iff_forall_not_mem.mpr fun t ht => ?_
    have howner := wf.chains.owner_lt t
    rw [(mem_threadsOf.mp ht).2] at howner
    exact Nat.lt_irrefl _ howner
  -- the old processes keep their threads, states and thread lists
  have hold : ∀ u ∈ m.places, m'.threadsOf (m.tcb u).pcb = m.threadsOf (m.tcb u).pcb ∧
      (m'.proc (m.tcb u).pcb).state = (m.proc (m.tcb u).pcb).state ∧
        (m'.proc (m.tcb u).pcb).chain = (m.proc (m.tcb u).pcb).chain := by
    intro u _
    have hne : m.nextPid ≠ (m.tcb u).pcb := Nat.ne_of_gt (wf.chains.owner_lt u)
    rw [hthreads, if_neg hne, List.append_nil, hproc, if_neg (Ne.symm hne)]
    split_ifs <;> exact ⟨rfl, rfl, rfl⟩
  have hchild : m'.proc m.nextPid = { m.proc m.nextPid with
      state := .running, parent := some m.currentPcb, chain := [m.nextTid], children := [],
      childrenCount := 0 } := by
    rw [hproc, if_neg (Nat.ne_of_gt hcur), if_pos rfl]
  have howner : ∀ t ∈ m'.places, (∃ s ∈ m.places, (m'.tcb t).pcb = (m.tcb s).pcb) ∨
      (m'.tcb t).pcb = m.nextPid := by
    intro t ht
    exact (heffect.owner_cases wf ht).imp id And.right
  refine ⟨fun t ht hsmall => ?_, fun t ht hsmall s hs => ?_, h.step_unused heffect,
    h.step_owned wf heffect⟩
  · rcases howner t ht with ⟨u, hu, hpcb⟩ | hpcb
    · obtain ⟨hsame, hstate, -⟩ := hold u hu
      rw [hpcb, hsame] at hsmall
      rw [hpcb, hstate]
      exact h.living u hu hsmall
    · rw [hpcb, hchild]
      simp
  · rcases howner t ht with ⟨u, hu, hpcb⟩ | hpcb
    · obtain ⟨hsame, -, hchain⟩ := hold u hu
      rw [hpcb, hsame] at hsmall hs
      rw [hpcb, hchain]
      exact h.listed u hu hsmall s hs
    · rw [hpcb, hthreads, hnone, if_pos rfl] at hs
      rw [hpcb, hchild]
      exact hs

/-- **Every step keeps small processes manned.** -/
theorem step {o : Out} (h : Manned m) (wf : m.Wf) (wf' : m'.Wf)
    (hs : m.step e = some (m', o)) : Manned m' := by
  have heffect := thread_effect wf hs
  cases family_effect hs with
  | still proc pid freed makes status reaps peers scan =>
      exact h.of_old wf heffect makes fun t _ _ _ => by rw [proc]; exact ⟨rfl, rfl⟩
  | threads event proc pid freed =>
      subst event
      exact h.threadFork wf heffect proc
  | born bears proc pid freed alive => exact h.born wf heffect bears proc
  | status status event proc pid freed =>
      subst event
      refine h.of_old wf heffect rfl fun t _ _ _ => ?_
      rw [proc, sysSetStatus_proc]
      split_ifs <;> exact ⟨rfl, rfl⟩
  | reaped statusPtr c waits accepts found result proc pid freed alive =>
      have hmakes : e.makesThread = false := by
        rcases waits with rfl | ⟨rfl, -⟩ <;> rfl
      refine h.of_old wf heffect hmakes fun t _ _ _ => ?_
      rw [proc, reap_proc]
      split_ifs <;> exact ⟨rfl, rfl⟩
  | exits event last parent proc pid freed alive =>
      subst event
      refine h.of_old wf heffect rfl fun t ht ht' hsmall => ?_
      rw [proc, exited_proc]
      split_ifs with hp
      · -- a thread that stays would have been counted beside the current one
        exfalso
        have hne : t ≠ m.current := by
          rintro rfl
          exact wf'.placed_live ht' ((heffect.exit _ (wf.placed_lt ht)).mpr (Or.inr ⟨rfl, rfl⟩))
        have hlist : ∀ s ∈ m.places, (m.tcb s).pcb = m.currentPcb →
            s ∈ (m.proc m.currentPcb).chain := by
          intro s hs hown
          have hmem := h.listed t ht hsmall s (mem_threadsOf.mpr ⟨wf.placed_lt hs, hown.trans hp.symm⟩)
          rwa [hp] at hmem
        have htwo := two_le_liveCount (hlist t ht hp) (hlist _ m.current_placed rfl) hne
          (wf.placed_live ht) (wf.placed_live m.current_placed)
        omega
      · exact ⟨rfl, rfl⟩

end Manned

/-- After boot both processes have one thread. -/
theorem manned_boot : Manned boot := by
  refine ⟨by decide, by decide, fun t ht => ?_, by decide⟩
  have h3 : 3 ≤ t := ht
  simp only [boot]
  rw [if_neg (by omega), if_neg (by omega)]

/-! ## What a vanish does -/

section Vanish

variable {m m' : Machine} {o : Out}

/-- **A vanish** either is one of several live threads in the list, or takes the process down and
then wakes somebody. Nobody else stops waiting. -/
theorem vanish_cases (wf : m.Wf) (hs : m.step (.call .vanish) = some (m', o)) :
    (m.liveCount (m.proc m.currentPcb).chain ≠ 1 ∧ m'.proc = m.proc ∧
      ∀ t, (m.tcb t).state = .waiting → (m'.tcb t).state = .waiting) ∨
    m.liveCount (m.proc m.currentPcb).chain = 1 ∧ m'.proc = (m.exited m.currentPcb).proc ∧
      ∃ m1, ExitWakes (m.exited m.currentPcb) m.currentPcb m1 ∧
        ∀ t, (m.tcb t).state = .waiting →
          ((m'.tcb t).state = .waiting ↔ (m1.tcb t).state = .waiting) := by
  have hcurrent : ∀ t, (m.tcb t).state = .waiting → t ≠ m.current := by
    rintro t hwait rfl
    have hready := wf.ready
    rw [hwait] at hready
    cases hready
  rcases step_cases hs with hret | ⟨-, m1, tid, hblocks, hsched⟩
  · cases hret with
    | refuse c v manages => exact manages.elim
  · obtain ⟨-, -, hshuf, -⟩ :=
      schedule_spec (wf.blocks hblocks).1.queues (wf.blocks hblocks).1.idle hsched
    cases hblocks with
    | aside c b manages user state owner resume => exact manages.elim
    | vanish user peers =>
        refine Or.inl ⟨peers, hshuf.proc, fun t hwait => (hshuf.waiting_iff t).mpr ?_⟩
        rw [setState_state, if_neg (hcurrent t hwait)]
        exact hwait
    | exit m2 user last parent wakes =>
        have hproc : m2.proc = (m.exited m.currentPcb).proc := by
          cases wakes <;> rfl
        refine Or.inr ⟨last, hshuf.proc.trans hproc, m2, wakes, fun t hwait => ?_⟩
        rw [hshuf.waiting_iff, setState_state, if_neg (hcurrent t hwait)]

/-- The current process, which makes a call, is not its own parent. -/
theorem Wf.parent_ne (wf : m.Wf) (alive : m.alive) {q : Nat}
    (hq : (m.proc m.currentPcb).parent = some q) : q ≠ m.currentPcb :=
  Nat.ne_of_lt (wf.kin.parent_lt (wf.chains.owner_lt m.current) alive.2 hq)

/-- **The parent is woken** by an exit exactly when its thread list leads to a waiting thread. -/
theorem ExitWakes.wakes_iff {m1 : Machine} (wf : m.Wf) (alive : m.alive)
    (wakes : ExitWakes (m.exited m.currentPcb) m.currentPcb m1) {q : Nat}
    (hq : (m.proc m.currentPcb).parent = some q) (living : (m.proc q).state ≠ .exit) :
    (∃ t ∈ m.threadsOf q, (m.tcb t).state = .waiting ∧ (m1.tcb t).state ≠ .waiting) ↔
      ∃ t ∈ (m.proc q).chain, (m.tcb t).state = .waiting := by
  have hne := wf.parent_ne alive hq
  have hparent : ((m.exited m.currentPcb).proc m.currentPcb).parent = some q := by
    rw [exited_proc_self]
    exact hq
  have hsame : (m.exited m.currentPcb).proc q = m.proc q := m.exited_proc_of_ne hne
  cases wakes with
  | nobody quiet =>
      refine iff_of_false ?_ ?_
      · rintro ⟨t, -, hwait, hnot⟩
        exact hnot hwait
      · rintro ⟨t, ht, hwait⟩
        exact quiet q hparent (hsame ▸ living) t (hsame ▸ ht) hwait
  | init orphan mem => exact absurd (orphan q hparent) (hsame ▸ living)
  | waiter q' s parent living' mem waiting =>
      rw [hparent] at parent
      obtain rfl := Option.some.inj parent
      rw [hsame] at mem
      obtain ⟨hown, hlt⟩ := wf.chains.own q s mem
      refine iff_of_true ⟨s, mem_threadsOf.mpr ⟨hlt, hown⟩, waiting, ?_⟩ ⟨s, mem, waiting⟩
      rw [wake_state, if_pos rfl]
      simp

/-- The current thread is the last one of its process. -/
def IsLast (m : Machine) : Prop :=
  ∀ t ∈ m.threadsOf m.currentPcb, (m.tcb t).state ≠ .exit → t = m.current

/-- In a list of all threads of the process the count finds the last thread. -/
theorem liveCount_eq_one_iff (wf : m.Wf)
    (listed : ∀ t ∈ m.threadsOf m.currentPcb, t ∈ (m.proc m.currentPcb).chain) :
    m.liveCount (m.proc m.currentPcb).chain = 1 ↔ m.IsLast := by
  have hcurrent : m.current ∈ (m.proc m.currentPcb).chain :=
    listed _ (mem_threadsOf.mpr ⟨wf.placed_lt m.current_placed, rfl⟩)
  have hlive := wf.placed_live m.current_placed
  constructor
  · intro hone t ht hstate
    by_contra hne
    have htwo := two_le_liveCount (listed t ht) hcurrent hne hstate hlive
    omega
  · intro hlast
    have hmem : ∀ t, t ∈ (m.proc m.currentPcb).chain.filter (fun t => (m.tcb t).state ≠ .exit) ↔
        t ∈ [m.current] := by
      intro t
      rw [List.mem_filter, List.mem_singleton]
      constructor
      · rintro ⟨ht, hstate⟩
        obtain ⟨hown, hlt⟩ := wf.chains.own _ t ht
        exact hlast t (mem_threadsOf.mpr ⟨hlt, hown⟩) (by simpa using hstate)
      · rintro rfl
        exact ⟨hcurrent, by simpa using hlive⟩
    have hperm := (List.perm_ext_iff_of_nodup ((wf.chains.nodup _).filter _)
      (List.nodup_singleton m.current)).mpr hmem
    rw [liveCount, List.countP_eq_length_filter]
    exact hperm.length_eq

end Vanish

end Machine

/-! ## Exits and last threads -/

/-- The kernel and the machine that represents it have the same threads of a process. -/
theorem Refines.threadsOf {k : Kernel} {m : Machine} (h : Refines k m) (p : Nat) :
    k.threadsOf p = m.threadsOf p := by
  rw [Kernel.threadsOf, Machine.threadsOf, h.nextTid, h.tcb]

/-- The current thread is the last one in both. -/
theorem Refines.isLast_iff {k : Kernel} {m : Machine} (h : Refines k m) :
    k.IsLast ↔ m.IsLast := by
  rw [Kernel.IsLast, Machine.IsLast, h.threadsOf, h.currentPcb, h.current, h.tcb]

/-- A thread list leads to two threads at most. -/
theorem PeerLinks.length_le {l : DoublyLinked.Links NodePtr} {freed chain : List Nat}
    (h : PeerLinks l freed chain) : chain.length ≤ 2 := by
  match chain, h with
  | [], _ => exact Nat.zero_le 2
  | [_], _ => exact Nat.le_succ 1
  | [_, _], _ => exact Nat.le_refl 2

/-- A list that leads to every thread of the process is the list of a small process. -/
theorem Refines.small_of_meets {k : Kernel} {m : Machine} (h : Refines k m) {p : Nat}
    (meets : ∀ t ∈ m.threadsOf p, t ∈ (m.proc p).chain) : (m.threadsOf p).length ≤ 2 :=
  Nat.le_trans ((m.nodup_threadsOf p).subperm meets).length_le (h.peers p).length_le

/-- **A vanish of a small process**: the process exits with its last thread. -/
theorem exitsWithLast_of_small {k k' : Kernel} {m m' : Machine} {o : Out} (hm : k.RepresentedBy m)
    (manned : m.Manned) (hs : m.step (.call .vanish) = some (m', o)) (h' : Refines k' m')
    (small : (m.threadsOf m.currentPcb).length ≤ 2)
    (parent : m.liveCount (m.proc m.currentPcb).chain = 1 →
      ∀ q, (m.proc m.currentPcb).parent = some q → (m.proc q).state ≠ .exit → k.HasWaiter q →
        ∃ t ∈ (m.proc q).chain, (m.tcb t).state = .waiting) : ExitsWithLast k k' := by
  obtain ⟨href, wf⟩ := hm
  have halive : m.alive := (Machine.inUser_of_step hs).2.2
  have hlisted := manned.listed m.current m.current_placed small
  have hliving := manned.living m.current m.current_placed small
  have hcount := Machine.liveCount_eq_one_iff wf hlisted
  refine ⟨fun t ht => ?_, ?_, fun q hq hstate hwaiter => ?_⟩
  · rw [href.currentPcb, href.members_threads wf.chains]
    rw [href.threadsOf, href.currentPcb] at ht
    exact hlisted t ht
  · rw [href.isLast_iff, ← hcount, href.currentPcb, (h'.pcb _).state]
    rcases Machine.vanish_cases wf hs with ⟨hmany, hproc, -⟩ | ⟨hone, hproc, -⟩
    · rw [hproc]
      exact iff_of_false hliving hmany
    · rw [hproc, Machine.exited_proc_self]
      exact iff_of_true rfl hone
  · rw [href.currentPcb, (href.pcb _).parent] at hq
    rw [(href.pcb q).state] at hstate
    rw [href.isLast_iff, ← hcount, Kernel.WakesWaiter, href.threadsOf, href.tcb, h'.tcb]
    rcases Machine.vanish_cases wf hs with ⟨hmany, -, hstay⟩ | ⟨hone, -, m1, hwakes, hwait⟩
    · refine iff_of_false ?_ hmany
      rintro ⟨t, -, hbefore, hafter⟩
      exact hafter (hstay t hbefore)
    · refine iff_of_true ?_ hone
      obtain ⟨t, ht, hbefore, hafter⟩ := (hwakes.wakes_iff wf halive hq hstate).mpr
        (parent hone q hq hstate hwaiter)
      exact ⟨t, ht, hbefore, fun h => hafter ((hwait t hbefore).mp h)⟩

/-- **One step**: a vanish is right exactly when the traversal sees all threads. -/
theorem vanishesWithLast_iff {k k' : Kernel} {m : Machine} {x : Action} (hm : k.RepresentedBy m)
    (manned : m.Manned) (hs : k.Step x k') : VanishesWithLast k x k' ↔ SeesAllThreads k x := by
  obtain ⟨m', hm', h'⟩ := hm.step hs
  obtain ⟨href, wf⟩ := hm
  by_cases hvanish : x.event = .call .vanish
  · rw [hvanish] at hm'
    have halive : m.alive := (Machine.inUser_of_step hm').2.2
    simp only [VanishesWithLast, SeesAllThreads, hvanish, true_imp_iff]
    rw [href.exits_iff wf]
    simp only [hvanish, true_and, href.currentPcb, href.threadsOf, (href.pcb _).parent,
      (href.pcb _).state, href.members_threads wf.chains, href.tcb]
    constructor
    · intro hgood
      refine ⟨href.small_of_meets fun t ht => ?_, fun hone q hq hstate hwaiter => ?_⟩
      · have hmeets := hgood.meets t (by rwa [href.threadsOf, href.currentPcb])
        rwa [href.currentPcb, href.members_threads wf.chains] at hmeets
      · rcases Machine.vanish_cases wf hm' with ⟨hmany, -⟩ | ⟨-, hproc, m1, hwakes, hwait⟩
        · exact absurd hone hmany
        · have hlast : k.IsLast := by
            rw [← hgood.exits, href.currentPcb, (h'.1.pcb _).state, hproc,
              Machine.exited_proc_self]
          obtain ⟨t, ht, hbefore, hafter⟩ := (hgood.wakes q
            (by rwa [href.currentPcb, (href.pcb _).parent]) (by rwa [(href.pcb q).state])
            hwaiter).mpr hlast
          rw [href.threadsOf] at ht
          rw [href.tcb] at hbefore
          rw [h'.1.tcb] at hafter
          exact (hwakes.wakes_iff wf halive hq hstate).mp
            ⟨t, ht, hbefore, fun h => hafter ((hwait t hbefore).mpr h)⟩
    · rintro ⟨hsmall, hparent⟩
      exact exitsWithLast_of_small ⟨href, wf⟩ manned hm' h'.1 hsmall hparent
  · exact iff_of_true (fun h => absurd h hvanish) fun h => absurd h hvanish

/-- **A process exits with its last thread** at every `vanish` of a run exactly when at each of them
the process has had at most two threads, and a waiting thread of a living parent can be seen. -/
theorem vanishes_with_last_iff_sees_all {as : List Action} {k : Kernel} :
    Run (Satisfying Kernel.Step VanishesWithLast) Kernel.boot as k ↔
      Run (Guarded Kernel.Step SeesAllThreads) Kernel.boot as k := by
  refine Run.satisfying_iff_guarded (I := fun u => ∃ m, u.RepresentedBy m ∧ m.Manned)
    ⟨_, Kernel.represented_boot, Machine.manned_boot⟩ ?_ ?_
  · rintro u x v ⟨m, hm, hmanned⟩ hstep
    obtain ⟨m', hs, hm'⟩ := hm.step hstep
    exact ⟨m', hm', hmanned.step hm.2 hm'.2 hs⟩
  · rintro u x v ⟨m, hm, hmanned⟩ hstep
    exact vanishesWithLast_iff hm hmanned hstep

/-- Every reachable state is represented by a machine whose small processes are manned. -/
theorem Kernel.Reaches.manned {as : List Action} {k : Kernel} (h : Kernel.Reaches as k) :
    ∃ m, k.RepresentedBy m ∧ m.Manned := by
  refine Run.invariant (I := fun u => ∃ m, u.RepresentedBy m ∧ m.Manned) h
    ⟨_, Kernel.represented_boot, Machine.manned_boot⟩ ?_
  rintro u x v ⟨m, hm, hmanned⟩ hstep
  obtain ⟨m', hs, hm'⟩ := hm.step hstep
  exact ⟨m', hm', hmanned.step hm.2 hm'.2 hs⟩

/-- Three threads: process 3 forks the threads 4 and 5; after thread 5 the first thread vanishes and
takes the process down, with thread 4 still there. -/
theorem process_exits_before_its_last_thread :
    ∃ as k x k', Run Kernel.Step Kernel.boot as k ∧ k.Step x k' ∧
      (as ++ [x]).map Action.event = [.call (.fork .ok), .call (.yield 3), .call .threadFork,
        .call .threadFork, .call (.yield 5), .call .vanish, .reschedule, .call (.yield 3),
        .call .vanish] ∧
      (k'.pcb 3).state = .exit ∧ 4 ∈ k.threadsOf 3 ∧ (k'.tcb 4).state ≠ .exit ∧
      ¬ VanishesWithLast k x k' := by
  have h := Kernel.reaches_trace [.call (.fork .ok), .call (.yield 3), .call .threadFork,
    .call .threadFork, .call (.yield 5), .call .vanish, .reschedule, .call (.yield 3)]
    (by decide +kernel)
  have hstep := Kernel.step_act (k := (Kernel.trace [.call (.fork .ok), .call (.yield 3),
    .call .threadFork, .call .threadFork, .call (.yield 5), .call .vanish, .reschedule,
    .call (.yield 3)]).2) (e := .call .vanish) (by decide +kernel)
  refine ⟨_, _, _, _, h, hstep, by decide +kernel, by decide +kernel, by decide +kernel,
    by decide +kernel, fun hgood => ?_⟩
  have hlast := (hgood (by decide +kernel)).exits.mp (by decide +kernel) 4 (by decide +kernel)
    (by decide +kernel)
  exact absurd hlast (by decide +kernel)

end Pebbles
