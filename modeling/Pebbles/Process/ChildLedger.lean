import Pebbles.Process.Families

/-! # Each child is reaped once, with its own status

A run is read as a ledger: who was forked by whom, which pids `wait` has returned, which status a
process set last, who has vanished. The children list of a process is, in every reachable state,
the sequence of its forked children that no `wait` has returned. -/

namespace Pebbles

open DoublyLinked Transition

/-! ## The ledger of a run -/

/-- The processes that `p` has forked, in order. -/
def forkedBy (p : Nat) (as : List Action) : List Nat :=
  as.filterMap fun x => if x.process = p then x.newProcess else none

/-- The pids that `wait` has returned. -/
def returnedPids (as : List Action) : List Nat := as.filterMap Action.reaped

/-- The children of `p` that are not reaped. -/
def unreaped (p : Nat) (as : List Action) : List Nat :=
  (forkedBy p as).filter fun c => c ∉ returnedPids as

/-- The status that process `c` has set last. -/
def lastStatus (c : Nat) (as : List Action) : Option Int :=
  (as.filterMap fun x => if x.process = c then x.event.status else none).getLast?

/-- A thread of process `c` has vanished. -/
def HasVanished (c : Nat) (as : List Action) : Prop :=
  ∃ y ∈ as, y.event = .call .vanish ∧ y.process = c

theorem forkedBy_snoc (p : Nat) (as : List Action) (x : Action) :
    forkedBy p (as ++ [x]) =
      forkedBy p as ++ (if x.process = p then x.newProcess else none).toList := by
  unfold forkedBy
  rw [List.filterMap_append]
  cases h : (if x.process = p then x.newProcess else none) <;> simp [h]

theorem returnedPids_snoc (as : List Action) (x : Action) :
    returnedPids (as ++ [x]) = returnedPids as ++ x.reaped.toList := by
  unfold returnedPids
  rw [List.filterMap_append]
  cases h : x.reaped <;> simp [h]

theorem lastStatus_snoc (c : Nat) (as : List Action) (x : Action) :
    lastStatus c (as ++ [x]) =
      (if x.process = c then x.event.status else none).or (lastStatus c as) := by
  unfold lastStatus
  rw [List.filterMap_append]
  cases h : (if x.process = c then x.event.status else none) <;> simp [h]

theorem HasVanished.snoc {c : Nat} {as : List Action} (h : HasVanished c as) (x : Action) :
    HasVanished c (as ++ [x]) := by
  obtain ⟨y, hy, hv⟩ := h
  exact ⟨y, List.mem_append_left _ hy, hv⟩

/-- An action that neither forks nor reaps leaves the unreaped children alone. -/
theorem unreaped_snoc_of_quiet {as : List Action} {x : Action} (fork : x.newProcess = none)
    (reap : x.reaped = none) (p : Nat) : unreaped p (as ++ [x]) = unreaped p as := by
  unfold unreaped
  rw [forkedBy_snoc, returnedPids_snoc, fork, reap]
  simp

/-- A reap of `c` takes `c` out. -/
theorem unreaped_snoc_of_reap {as : List Action} {x : Action} {c : Nat}
    (fork : x.newProcess = none) (reap : x.reaped = some c) (p : Nat) :
    unreaped p (as ++ [x]) = (unreaped p as).filter fun d => d ≠ c := by
  unfold unreaped
  rw [forkedBy_snoc, returnedPids_snoc, fork, reap, List.filter_filter]
  simp only [ite_self, Option.toList_none, List.append_nil, Option.toList_some, List.mem_append,
    List.mem_singleton]
  congr 1
  funext d
  simp [not_or, and_comm]

/-- A fork of `c` by `p` appends `c`. -/
theorem unreaped_snoc_of_fork {as : List Action} {x : Action} {c : Nat}
    (fork : x.newProcess = some c) (reap : x.reaped = none) (fresh : c ∉ returnedPids as) (p : Nat) :
    unreaped p (as ++ [x]) = unreaped p as ++ (if x.process = p then [c] else []) := by
  unfold unreaped
  rw [forkedBy_snoc, returnedPids_snoc, fork, reap]
  by_cases hp : x.process = p
  · simp [hp, fresh, List.filter_append]
  · simp [hp]

/-! ## The invariant -/

namespace Machine

/-- **The ledger is kept.** -/
structure Ledger (as : List Action) (m : Machine) : Prop where
  /-- The children lists hold the unreaped children. -/
  children : ∀ p, (m.proc p).children = unreaped p as
  /-- What was returned is freed. -/
  freed : ∀ c ∈ returnedPids as, c ∈ m.freedPcb
  /-- A forked process reports the status it set last. -/
  status : ∀ c, 3 ≤ c → (m.proc c).returnState = lastStatus c as
  /-- Only processes exit that have vanished. -/
  vanished : ∀ c, (m.proc c).state = .exit → HasVanished c as

namespace Ledger

variable {as : List Action} {m m' : Machine}

/-- An action that neither forks, reaps nor sets a status, and lets at most its own process exit. -/
theorem quiet (h : Ledger as m) {x : Action} (fork : x.newProcess = none) (reap : x.reaped = none)
    (status : x.event.status = none) (children : ∀ p, (m'.proc p).children = (m.proc p).children)
    (returnState : ∀ p, (m'.proc p).returnState = (m.proc p).returnState)
    (freed : m'.freedPcb = m.freedPcb)
    (state : ∀ p, (m'.proc p).state = .exit →
      (m.proc p).state = .exit ∨ x.event = .call .vanish ∧ x.process = p) :
    Ledger (as ++ [x]) m' where
  children p := by rw [children, unreaped_snoc_of_quiet fork reap, h.children]
  freed c hc := by
    rw [returnedPids_snoc, reap] at hc
    rw [freed]
    exact h.freed c (by simpa using hc)
  status c hc := by
    rw [returnState, lastStatus_snoc, status, h.status c hc]
    simp
  vanished c hc := by
    rcases state c hc with hold | hnew
    · exact (h.vanished c hold).snoc x
    · exact ⟨x, List.mem_append_right _ (List.mem_singleton_self x), hnew⟩

/-- **Step lemma**: every step keeps the ledger. -/
theorem step (h : Ledger as m) (wf : m.Wf) {k : Kernel} (hk : Refines k m) {x : Action}
    (hx : x.before = k) (hs : m.step x.event = some (m', x.out)) : Ledger (as ++ [x]) m' := by
  have hproc : x.process = m.currentPcb := by
    rw [Action.process, hx, hk.currentPcb]
  have hfresh : m.nextPid ∉ returnedPids as := fun hc =>
    Nat.lt_irrefl _ (wf.kin.freed _ (h.freed _ hc)).2
  have hlt : m.currentPcb < m.nextPid := wf.chains.owner_lt m.current
  cases family_effect hs with
  | still proc pid freed makes status reaps peers scan =>
      have bears := (Event.makesThread_eq_false.mp makes).2
      refine h.quiet (by simp [Action.newProcess, bears]) reaps status (fun p => by rw [proc])
        (fun p => by rw [proc]) freed fun p hp => ?_
      rw [proc] at hp
      exact Or.inl hp
  | threads event proc pid freed =>
      refine h.quiet (by simp [Action.newProcess, event, Event.bearsChild])
        (by simp [Action.reaped, event, reapedPid]) (by simp [event, Event.status])
        (fun p => ?_) (fun p => ?_) freed fun p hp => ?_
      · rw [proc, sysThreadFork_proc]
        split_ifs <;> rfl
      · rw [proc, sysThreadFork_proc]
        split_ifs <;> rfl
      · rw [proc, sysThreadFork_proc] at hp
        split_ifs at hp <;> exact Or.inl hp
  | born bears proc pid freed alive =>
      have hfork : x.newProcess = some m.nextPid := by
        simp [Action.newProcess, bears, hx, hk.nextPid]
      have hevent : x.reaped = none ∧ x.event.status = none := by
        obtain ⟨before, event, out⟩ := x
        simp only at bears
        unfold Event.bearsChild at bears
        split at bears
        · exact ⟨rfl, rfl⟩
        · exact ⟨rfl, rfl⟩
        · cases bears
      refine ⟨fun p => ?_, fun c hc => ?_, fun c hc => ?_, fun c hc => ?_⟩
      · rw [unreaped_snoc_of_fork hfork hevent.1 hfresh, proc, forkBlocks_proc hlt, hproc,
          ← h.children p]
        by_cases hp : p = m.currentPcb
        · simp [hp]
        · rw [if_neg hp, if_neg (Ne.symm hp), List.append_nil]
          split_ifs with hnew
          · rw [hnew, wf.kin.unborn _ (Nat.le_refl _)]
          · rfl
      · rw [returnedPids_snoc, hevent.1] at hc
        rw [freed]
        exact h.freed c (by simpa using hc)
      · have hsame : (m'.proc c).returnState = (m.proc c).returnState := by
          rw [proc, forkBlocks_proc hlt]
          split_ifs <;> rfl
        rw [hsame, lastStatus_snoc, hevent.2, h.status c hc]
        simp
      · rw [proc, forkBlocks_proc hlt] at hc
        split_ifs at hc
        · exact (h.vanished c hc).snoc x
        · exact (h.vanished c hc).snoc x
  | status status event proc pid freed =>
      have hset : ∀ p, (m'.proc p) = if p = m.currentPcb then
          { m.proc p with returnState := some status } else m.proc p := by
        intro p
        rw [proc, sysSetStatus_proc]
      have hfork : x.newProcess = none := by simp [Action.newProcess, event, Event.bearsChild]
      have hreap : x.reaped = none := by simp [Action.reaped, event, reapedPid]
      refine ⟨fun p => ?_, fun c hc => ?_, fun c hc => ?_, fun c hc => ?_⟩
      · rw [unreaped_snoc_of_quiet hfork hreap, ← h.children p, hset]
        split_ifs <;> rfl
      · rw [returnedPids_snoc, hreap] at hc
        rw [freed]
        exact h.freed c (by simpa using hc)
      · rw [lastStatus_snoc, hset, hproc]
        by_cases hcur : c = m.currentPcb
        · simp [hcur, event, Event.status]
        · rw [if_neg hcur, if_neg (Ne.symm hcur), h.status c hc]
          simp
      · rw [hset] at hc
        split_ifs at hc
        · exact (h.vanished c hc).snoc x
        · exact (h.vanished c hc).snoc x
  | reaped statusPtr c waits accepts found result proc pid freed alive =>
      obtain ⟨hmem, -⟩ := Wf.findZombie_some found
      have hreap : x.reaped = some c := by
        rw [Action.reaped, result]
        exact reapedPid_reap waits _ _
      have hevent : x.newProcess = none ∧ x.event.status = none := by
        rcases waits with hw | ⟨hw, -⟩
        · exact ⟨by simp [Action.newProcess, hw, Event.bearsChild], by rw [hw]; rfl⟩
        · exact ⟨by simp [Action.newProcess, hw, Event.bearsChild], by rw [hw]; rfl⟩
      refine ⟨fun p => ?_, fun d hd => ?_, fun d hd => ?_, fun d hd => ?_⟩
      · rw [unreaped_snoc_of_reap hevent.1 hreap, ← h.children p, proc, reap_proc]
        split_ifs with hp
        · show (m.proc p).children.erase c = _
          rw [(wf.kin.nodup p).erase_eq_filter]
          congr 1
          funext d
          by_cases hd : d = c <;> simp [hd]
        · refine (List.filter_eq_self.mpr fun d hd => ?_).symm
          have hne : d ≠ c := by
            rintro rfl
            exact Pebbles.Refines.children_disjoint wf.kin hp d hd hmem
          simpa using hne
      · rw [returnedPids_snoc, hreap] at hd
        rw [freed]
        rcases List.mem_append.mp hd with hold | hnew
        · exact List.mem_cons_of_mem c (h.freed d hold)
        · rw [List.mem_singleton.mp hnew]
          exact List.mem_cons_self
      · have hsame : (m'.proc d).returnState = (m.proc d).returnState := by
          rw [proc, reap_proc]
          split_ifs <;> rfl
        rw [hsame, lastStatus_snoc, hevent.2, h.status d hd]
        simp
      · rw [proc, reap_proc] at hd
        split_ifs at hd
        · exact (h.vanished d hd).snoc x
        · exact (h.vanished d hd).snoc x
  | exits event last parent proc pid freed alive =>
      refine h.quiet (by simp [Action.newProcess, event, Event.bearsChild])
        (by simp [Action.reaped, event, reapedPid]) (by simp [event, Event.status])
        (fun p => ?_) (fun p => ?_) freed fun p hp => ?_
      · rw [proc, exited_proc]
        split_ifs <;> rfl
      · rw [proc, exited_proc]
        split_ifs <;> rfl
      · rw [proc, exited_proc] at hp
        split_ifs at hp with hcur
        · exact Or.inr ⟨event, hproc.trans hcur.symm⟩
        · exact Or.inl hp

end Ledger

end Machine

/-- **Run lemma**: the ledger is kept in every reachable state. -/
theorem ledger_of_reaches {as : List Action} {k : Kernel} (h : Kernel.Reaches as k) :
    ∃ m, k.RepresentedBy m ∧ Machine.Ledger as m := by
  refine h.machine_invariant (I := fun bs m => Machine.Ledger bs m) ?_ ?_
  · refine ⟨fun p => ?_, by simp [returnedPids], fun c hc => ?_, fun c hc => ?_⟩
    · simp only [Machine.boot, unreaped, forkedBy, List.filterMap_nil, List.filter_nil]
      split_ifs <;> rfl
    · simp only [Machine.boot]
      rw [if_neg (by omega), if_neg (by omega)]
      rfl
    · simp only [Machine.boot] at hc
      split_ifs at hc
  · intro bs u x m m' hm hx hs _ hI
    exact hI.step hm.2 hm.1 hx hs

/-! ## What a return of `wait` says -/

/-- The pointer that the caller of `wait` gave. -/
def Action.statusPtr (x : Action) : Nat :=
  match x.event with
  | .call (.wait statusPtr) => statusPtr
  | _ =>
      match (x.before.tcb x.thread).resume with
      | .wait statusPtr => statusPtr
      | .userMode => 0

/-- **A proper reap**: after the run `as`, the action `x` returns the pid `c` of a forked child that
has vanished and that no earlier `wait` has returned, takes exactly `c` out of the children list,
and stores the status that `c` has set last where the pointer says so. -/
structure ReapsOnce (as : List Action) (x : Action) (k' : Kernel) (c : Nat) : Prop where
  /-- The child was forked by the process that waits. -/
  forked : c ∈ forkedBy x.process as
  /-- No earlier `wait` has returned it. -/
  first : c ∉ returnedPids as
  /-- It has vanished. -/
  vanished : HasVanished c as
  /-- Its state says so. -/
  zombie : (x.before.pcb c).state = .exit
  /-- Exactly this child leaves the children list. -/
  removed : IsList k'.links (k'.pcb x.process).children
    (((unreaped x.process as).erase c).map peerProcessesNode)
  /-- Its status is stored, unless the pointer is `NULL`. -/
  status : x.out.store = if x.statusPtr ≠ 0 then some (x.statusPtr, lastStatus c as) else none

/-- **The children of process `p`** after the run `as`: the list holds the forked children that are
not reaped, and both its length field and the separate count are their number. -/
structure ChildrenCounted (as : List Action) (k : Kernel) (p : Nat) : Prop where
  /-- The list. -/
  list : IsList k.links (k.pcb p).children ((unreaped p as).map peerProcessesNode)
  /-- The separate count is the length of the list. -/
  count : (k.pcb p).childrenCount = (k.pcb p).children.length
  /-- Both are the number of unreaped children. -/
  number : (k.pcb p).childrenCount = (unreaped p as).length

/-- The children of every process are counted in every reachable state. -/
theorem childrenCounted_of_reaches {as : List Action} {k : Kernel} (h : Kernel.Reaches as k)
    (p : Nat) : ChildrenCounted as k p := by
  obtain ⟨m, ⟨href, wf⟩, ledger⟩ := ledger_of_reaches h
  have hlist := href.children p
  have hcount : (k.pcb p).childrenCount = ((unreaped p as).length : Int) := by
    rw [(href.pcb p).childrenCount, wf.kin.count, ledger.children]
  rw [ledger.children] at hlist
  refine ⟨hlist, ?_, hcount⟩
  rw [hcount, hlist.length, List.length_map]

/-- **Each child is reaped once, with its own status.** In every reachable state the children of
every process `p` are counted, and whenever `wait` returns a pid to a thread of `p`, this is the
pid of a child of `p` that is reaped properly. -/
theorem child_reaped_once {as : List Action} {k : Kernel} (h : Kernel.Reaches as k) (p : Nat) :
    ChildrenCounted as k p ∧
      ∀ (x : Action) (k' : Kernel) (v : Int), k.Step x k' → x.process = p → x.waitReturns v →
        0 ≤ v → ∃ c : Nat, v = c ∧ ReapsOnce as x k' c := by
  refine ⟨childrenCounted_of_reaches h p, fun x k' v hstep hp hreturns hv => ?_⟩
  obtain ⟨m, ⟨href, wf⟩, ledger⟩ := ledger_of_reaches h
  obtain ⟨m', hm, h'⟩ := Kernel.RepresentedBy.step ⟨href, wf⟩ hstep
  have hsome : reapedPid x.event x.out = some v.toNat := by
    obtain ⟨hevent, hret⟩ := hreturns
    rcases hevent with he | ⟨statusPtr, he⟩ <;> simp [reapedPid, he, hret, hv]
  have hbefore : x.before = k := hstep.1
  have hcur : x.process = m.currentPcb := by rw [Action.process, hbefore, href.currentPcb]
  cases Machine.family_effect hm with
  | still proc pid freed makes status reaps peers scan =>
      rw [reaps] at hsome
      cases hsome
  | threads event proc pid freed =>
      rw [event] at hsome
      cases hsome
  | born bears proc pid freed alive =>
      obtain ⟨hevent, -⟩ := hreturns
      rcases hevent with he | ⟨statusPtr, he⟩ <;> rw [he] at bears <;> cases bears
  | status status event proc pid freed =>
      rw [event] at hsome
      cases hsome
  | exits event last parent proc pid freed alive =>
      rw [event] at hsome
      cases hsome
  | reaped statusPtr c waits accepts found result proc pid freed alive =>
      obtain ⟨hmem, hexit⟩ := Machine.Wf.findZombie_some found
      rw [result, Machine.reapedPid_reap waits] at hsome
      have hc : c = v.toNat := Option.some.inj hsome
      have hmem' : c ∈ unreaped x.process as := by
        rw [hcur, ← ledger.children]
        exact hmem
      obtain ⟨hforked, hfirst⟩ := List.mem_filter.mp hmem'
      have h3 : 3 ≤ c := wf.kin.child_ge _ c hmem
      refine ⟨c, by omega, hforked, by simpa using hfirst, ledger.vanished c hexit, ?_, ?_, ?_⟩
      · rw [hbefore, (href.pcb c).state, hexit]
      · have hlist := h'.1.children x.process
        rw [proc, Machine.reap_proc, if_pos hcur, ledger.children] at hlist
        exact hlist
      · have hptr : x.statusPtr = statusPtr := by
          rcases waits with he | ⟨he, hres⟩
          · simp [Action.statusPtr, he]
          · simp only [Action.statusPtr, he, Action.thread, hbefore, href.tcb, href.current, hres]
        rw [result, hptr, ← ledger.status c h3]
        rfl

/-- A child that sets the status 7 and vanishes is reaped by `init` with this status. -/
theorem child_reaped_once_with_status :
    ∃ as k x k', Kernel.Reaches as k ∧ k.Step x k' ∧ x.waitReturns 3 ∧
      x.out.store = some (0x01000000, some 7) ∧ ReapsOnce as x k' 3 := by
  have h := Kernel.reaches_trace [.call (.fork .ok), .call (.yield 3),
    .call (.setStatus 7), .call .vanish, .reschedule] (by decide +kernel)
  have hstep := Kernel.step_act (k := (Kernel.trace [.call (.fork .ok), .call (.yield 3),
    .call (.setStatus 7), .call .vanish, .reschedule]).2) (e := .call (.wait 0x01000000))
    (by decide +kernel)
  obtain ⟨-, hreap⟩ := child_reaped_once h 2
  obtain ⟨c, hc, honce⟩ := hreap _ _ 3 hstep (by decide +kernel)
    ⟨Or.inr ⟨0x01000000, by decide +kernel⟩, by decide +kernel⟩ (by decide)
  obtain rfl : c = 3 := by omega
  exact ⟨_, _, _, _, h, hstep, ⟨Or.inr ⟨0x01000000, by decide +kernel⟩, by decide +kernel⟩,
    by decide +kernel, honce⟩

end Pebbles
