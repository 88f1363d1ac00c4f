import Pebbles.Process.LastThread
import Pebbles.DataStructure.ListClasses

/-! # The lists of the kernel stay apart

A node is classified by its field and, for a node of a thread list, by the process of the thread.
In every reachable state nodes point at nodes of their own class, and each header names nodes of
the class of its list. No operation on the lists needs its list to be in order for this, so that
it also holds where two interrupted calls have brought the queues into disorder. -/

namespace Pebbles

open DoublyLinked Transition

namespace Kernel

/-! ## The classes -/

/-- The class of a node: its field, and the process whose thread list it is made for. -/
def nodeClass (k : Kernel) (n : NodePtr) : NodeField × Nat :=
  (n.field, if n.field = .peerThreads then (k.tcb n.owner).pcb else 0)

@[simp] theorem nodeClass_threadList (k : Kernel) (t : Nat) :
    k.nodeClass (threadListNode t) = (.threadList, 0) := by
  simp [nodeClass, threadListNode]

@[simp] theorem nodeClass_peerThreads (k : Kernel) (t : Nat) :
    k.nodeClass (peerThreadsNode t) = (.peerThreads, (k.tcb t).pcb) := by
  simp [nodeClass, peerThreadsNode]

@[simp] theorem nodeClass_peerProcesses (k : Kernel) (p : Nat) :
    k.nodeClass (peerProcessesNode p) = (.peerProcesses, 0) := by
  simp [nodeClass, peerProcessesNode]

@[simp] theorem nodeClass_allProcesses (k : Kernel) (p : Nat) :
    k.nodeClass (allProcessesNode p) = (.allProcesses, 0) := by
  simp [nodeClass, allProcessesNode]

/-- A node of the class of a thread list is the node of a thread of the process. -/
theorem eq_peerThreadsNode {k : Kernel} {n : NodePtr} {p : Nat}
    (h : k.nodeClass n = (.peerThreads, p)) :
    n = peerThreadsNode (listEntry n) ∧ (k.tcb (listEntry n)).pcb = p := by
  obtain ⟨f, t⟩ := n
  obtain ⟨hf, hp⟩ := Prod.mk.inj h
  have hf' : f = .peerThreads := hf
  subst hf'
  exact ⟨rfl, by simpa [listEntry] using hp⟩

/-- Only the processes of the threads matter for the classes. -/
theorem nodeClass_congr {k k' : Kernel} (owner : ∀ t, (k'.tcb t).pcb = (k.tcb t).pcb) :
    k'.nodeClass = k.nodeClass := by
  funext n
  simp only [nodeClass, owner]

/-- **Separation**: nodes and headers keep to their class. -/
structure Separated (k : Kernel) : Prop where
  /-- Nodes point at nodes of their own class. -/
  links : Closed k.nodeClass k.links
  /-- The runnable queue. -/
  runnable : Names k.nodeClass (.threadList, 0) k.runnableQueue
  /-- The blocked queue. -/
  blocked : Names k.nodeClass (.threadList, 0) k.blockedQueue
  /-- The queue of all processes. -/
  processes : Names k.nodeClass (.allProcesses, 0) k.processQueue
  /-- The thread lists. -/
  threads : ∀ p, Names k.nodeClass (.peerThreads, p) (k.pcb p).threads
  /-- The children lists. -/
  children : ∀ p, Names k.nodeClass (.peerProcesses, 0) (k.pcb p).children
  /-- No process has the number 0. -/
  root : (k.pcb 0).threads = listInit
  /-- A thread of no process is in no thread list. -/
  unowned : ∀ t, (k.tcb t).pcb = 0 → k.links (peerThreadsNode t) = ⟨none, none⟩

namespace Separated

variable {k k' : Kernel}

/-! ## Writes that concern no list -/

/-- Control blocks rewritten with the same processes and the same lists. -/
theorem congr (h : k.Separated) (owner : ∀ t, (k'.tcb t).pcb = (k.tcb t).pcb)
    (links : k'.links = k.links) (runnable : k'.runnableQueue = k.runnableQueue)
    (blocked : k'.blockedQueue = k.blockedQueue) (processes : k'.processQueue = k.processQueue)
    (threads : ∀ p, (k'.pcb p).threads = (k.pcb p).threads)
    (children : ∀ p, (k'.pcb p).children = (k.pcb p).children) : k'.Separated := by
  have hclass := nodeClass_congr owner
  refine ⟨?_, ?_, ?_, ?_, fun p => ?_, fun p => ?_, ?_, fun t ht => ?_⟩
  · rw [hclass, links]
    exact h.links
  · rw [hclass, runnable]
    exact h.runnable
  · rw [hclass, blocked]
    exact h.blocked
  · rw [hclass, processes]
    exact h.processes
  · rw [hclass, threads]
    exact h.threads p
  · rw [hclass, children]
    exact h.children p
  · rw [threads]
    exact h.root
  · rw [links]
    rw [owner] at ht
    exact h.unowned t ht

/-- Writing a TCB without its process. -/
theorem setTcb (h : k.Separated) {t : Nat} {b : TCB} (same : b.pcb = (k.tcb t).pcb) :
    (k.setTcb t b).Separated := by
  refine h.congr (fun s => ?_) rfl rfl rfl rfl (fun _ => rfl) fun _ => rfl
  show (Function.update k.tcb t b s).pcb = _
  by_cases hs : s = t
  · subst hs
    rw [Function.update_self, same]
  · rw [Function.update_of_ne hs]

theorem setState (h : k.Separated) (t : Nat) (st : ThreadState) : (k.setState t st).Separated :=
  h.setTcb rfl

/-- Writing a PCB without its lists. -/
theorem setPcb (h : k.Separated) {p : Nat} {b : PCB} (threads : b.threads = (k.pcb p).threads)
    (children : b.children = (k.pcb p).children) : (k.setPcb p b).Separated := by
  refine h.congr (fun _ => rfl) rfl rfl rfl rfl (fun q => ?_) fun q => ?_
  · show (Function.update k.pcb p b q).threads = _
    by_cases hq : q = p
    · subst hq
      rw [Function.update_self, threads]
    · rw [Function.update_of_ne hq]
  · show (Function.update k.pcb p b q).children = _
    by_cases hq : q = p
    · subst hq
      rw [Function.update_self, children]
    · rw [Function.update_of_ne hq]

/-! ## Insertions and deletions -/

/-- New links that keep the classes, with new headers of the three queues. -/
theorem withQueues (h : k.Separated) {l : Links NodePtr} {rq bq pq : Header NodePtr}
    (links : Closed k.nodeClass l) (runnable : Names k.nodeClass (.threadList, 0) rq)
    (blocked : Names k.nodeClass (.threadList, 0) bq)
    (processes : Names k.nodeClass (.allProcesses, 0) pq)
    (unowned : ∀ t, (k.tcb t).pcb = 0 → l (peerThreadsNode t) = k.links (peerThreadsNode t)) :
    Separated { k with links := l, runnableQueue := rq, blockedQueue := bq, processQueue := pq } :=
  { links := links
    runnable := runnable
    blocked := blocked
    processes := processes
    threads := h.threads
    children := h.children
    root := h.root
    unowned := fun t ht => (unowned t ht).trans (h.unowned t ht) }

/-- Taking a node without neighbours out of a list writes no node. -/
theorem delete_lonely {m : Links NodePtr} {hd : Header NodePtr} {j : NodePtr}
    (hj : m j = ⟨none, none⟩) : (listDelete m hd (some j)).1 = m := by
  have hp : (m j).prev = none := by rw [hj]
  have hn : (m j).next = none := by rw [hj]
  by_cases hhead : hd.head = some j
  · exact listDelete_head_only hp hn hhead
  · rw [listDelete_stranger hp hhead]

/-- A deletion does not touch threads of no process. -/
theorem unowned_delete (h : k.Separated) (hd : Header NodePtr) (j : NodePtr) {t : Nat}
    (ht : (k.tcb t).pcb = 0) :
    (listDelete k.links hd (some j)).1 (peerThreadsNode t) = k.links (peerThreadsNode t) := by
  by_cases hclass : k.nodeClass (peerThreadsNode t) = k.nodeClass j
  · -- then `j` is the node of such a thread itself
    rw [nodeClass_peerThreads, ht] at hclass
    obtain ⟨hj, howner⟩ := eq_peerThreadsNode hclass.symm
    rw [hj, delete_lonely (h.unowned _ howner)]
  · exact listDelete_frame_class h.links hclass

/-- An insertion of a node of another class does not touch them either. -/
theorem unowned_insert {hd : Header NodePtr} {j : NodePtr} {c : NodeField × Nat}
    (hc : k.nodeClass j = c) (hhd : Names k.nodeClass c hd) (hne : c ≠ (.peerThreads, 0)) {t : Nat}
    (ht : (k.tcb t).pcb = 0) :
    (listInsertLast k.links hd (some j)).1 (peerThreadsNode t) = k.links (peerThreadsNode t) := by
  subst hc
  apply listInsertLast_frame_class hhd
  rw [nodeClass_peerThreads, ht]
  exact fun e => hne e.symm

theorem insertRunnable (h : k.Separated) (t : Nat) :
    (k.insertRunnable (threadListNode t)).Separated := by
  have hins := h.links.insertLast (j := threadListNode t) (by simpa using h.runnable)
  refine h.withQueues hins.1 (by simpa using hins.2) h.blocked h.processes fun s hs => ?_
  exact unowned_insert (k.nodeClass_threadList t) h.runnable (by simp) hs

theorem insertBlocked (h : k.Separated) (t : Nat) :
    (k.insertBlocked (threadListNode t)).Separated := by
  have hins := h.links.insertLast (j := threadListNode t) (by simpa using h.blocked)
  refine h.withQueues hins.1 h.runnable (by simpa using hins.2) h.processes fun s hs => ?_
  exact unowned_insert (k.nodeClass_threadList t) h.blocked (by simp) hs

theorem deleteRunnable (h : k.Separated) (n : NodePtr) : (k.deleteRunnable n).Separated :=
  h.withQueues (h.links.delete h.runnable).1 (h.links.delete h.runnable).2 h.blocked h.processes
    fun _ ht => h.unowned_delete _ _ ht

theorem deleteBlocked (h : k.Separated) (n : NodePtr) : (k.deleteBlocked n).Separated :=
  h.withQueues (h.links.delete h.blocked).1 h.runnable (h.links.delete h.blocked).2 h.processes
    fun _ ht => h.unowned_delete _ _ ht

theorem deleteProcess (h : k.Separated) (n : NodePtr) :
    Separated { k with
      links := (listDelete k.links k.processQueue (some n)).1,
      processQueue := (listDelete k.links k.processQueue (some n)).2.1 } :=
  h.withQueues (h.links.delete h.processes).1 h.runnable h.blocked (h.links.delete h.processes).2
    fun _ ht => h.unowned_delete _ _ ht

theorem insertProcess (h : k.Separated) (p : Nat) :
    Separated { k with
      links := (listInsertLast k.links k.processQueue (some (allProcessesNode p))).1,
      processQueue := (listInsertLast k.links k.processQueue (some (allProcessesNode p))).2 } := by
  have hins := h.links.insertLast (j := allProcessesNode p) (by simpa using h.processes)
  refine h.withQueues hins.1 h.runnable h.blocked (by simpa using hins.2) fun s hs => ?_
  exact unowned_insert (k.nodeClass_allProcesses p) h.processes (by simp) hs

/-- A deletion through a header that is not one of the kernel's. -/
theorem deleteLocal (h : k.Separated) {hd : Header NodePtr} {c : NodeField × Nat}
    (hhd : Names k.nodeClass c hd) (n : NodePtr) :
    Separated { k with links := (listDelete k.links hd (some n)).1 } :=
  h.withQueues (h.links.delete hhd).1 h.runnable h.blocked h.processes
    fun _ ht => h.unowned_delete _ _ ht

/-- New children of `p`, after writes that keep the classes. -/
theorem withChildren (h : k.Separated) {p : Nat} {b : PCB} (threads : b.threads = (k.pcb p).threads)
    (children : Names k.nodeClass (.peerProcesses, 0) b.children) : (k.setPcb p b).Separated := by
  refine { h with threads := fun q => ?_, children := fun q => ?_, root := ?_ }
  · show Names _ _ (Function.update k.pcb p b q).threads
    by_cases hq : q = p
    · subst hq
      rw [Function.update_self, threads]
      exact h.threads q
    · rw [Function.update_of_ne hq]
      exact h.threads q
  · show Names _ _ (Function.update k.pcb p b q).children
    by_cases hq : q = p
    · subst hq
      rw [Function.update_self]
      exact children
    · rw [Function.update_of_ne hq]
      exact h.children q
  · show (Function.update k.pcb p b 0).threads = _
    by_cases hq : 0 = p
    · subst hq
      rw [Function.update_self, threads]
      exact h.root
    · rw [Function.update_of_ne hq]
      exact h.root

/-- `list_delete(child_pros, ..)`. -/
theorem unlinkChild (h : k.Separated) (p : Nat) (n : NodePtr) {b : PCB}
    (threads : b.threads = (k.pcb p).threads)
    (children : b.children = (listDelete k.links (k.pcb p).children (some n)).2.1) :
    (({ k with links := (listDelete k.links (k.pcb p).children (some n)).1 }).setPcb p b).Separated := by
  refine (h.deleteLocal (h.children p) n).withChildren threads ?_
  rw [children]
  exact (h.links.delete (h.children p)).2

/-- Freed blocks and counters do not matter. -/
theorem withCounters (h : k.Separated) (nt np ticks cur : Nat) (ft fp : List Nat) :
    Separated { k with
      nextTid := nt, nextPid := np, numTicks := ticks, currentThread := cur, freedTcb := ft,
      freedPcb := fp } :=
  h.congr (fun _ => rfl) rfl rfl rfl rfl (fun _ => rfl) fun _ => rfl

/-! ## Scheduling -/

theorem wake (h : k.Separated) (t : Nat) : (k.wake t).Separated :=
  ((h.setState t .runnable).deleteBlocked _).insertRunnable t

theorem wakeSleepersFrom (h : k.Separated) (fuel : Nat) (n : Option NodePtr) :
    (k.wakeSleepersFrom fuel n).Separated := by
  induction fuel generalizing n k with
  | zero => exact h
  | succ fuel ih =>
      cases n with
      | none => exact h
      | some n =>
          rw [Kernel.wakeSleepersFrom]
          by_cases hover : k.sleepOver (listEntry n) = true
          · rw [if_pos hover]
            exact ih (h.wake _) _
          · rw [if_neg hover]
            exact ih h _

theorem takeNext (h : k.Separated) {tid : Int} {t : Nat} {k1 : Kernel}
    (ht : k.takeNext tid = some (t, k1)) : k1.Separated := by
  unfold Kernel.takeNext at ht
  split_ifs at ht with htid
  · obtain ⟨n, hn, heq⟩ := Option.map_eq_some_iff.mp ht
    obtain ⟨-, rfl⟩ := Prod.mk.inj heq
    cases hhead : k.runnableQueue.head with
    | none =>
        rw [listDeleteFirst, hhead] at hn
        cases hn
    | some j =>
        have hdelete := h.deleteRunnable j
        rw [listDeleteFirst, hhead]
        exact hdelete
  · obtain ⟨s, -, heq⟩ := Option.map_eq_some_iff.mp ht
    obtain ⟨-, rfl⟩ := Prod.mk.inj heq
    exact h.deleteRunnable _

theorem putBack (h : k.Separated) : k.putBack.Separated := by
  unfold Kernel.putBack
  split
  · exact h
  · exact h.insertBlocked _
  · exact h.insertBlocked _
  · exact h.insertBlocked _
  · exact h.insertBlocked _
  · exact h.insertRunnable _
  · exact h.insertRunnable _
  · exact h.insertRunnable _

theorem switchTo (h : k.Separated) (t : Nat) : (k.switchTo t).Separated := by
  unfold Kernel.switchTo
  split_ifs
  · exact (h.setState t .running).withCounters _ _ _ _ _ _
  · exact h.withCounters _ _ _ _ _ _

/-- **`schedule` keeps the lists apart**, whatever order they are in. -/
theorem schedule (h : k.Separated) {tid : Int} (hs : k.schedule tid = some k') : k'.Separated := by
  have hwake := h.wakeSleepersFrom k.bound (listBegin k.blockedQueue)
  unfold Kernel.schedule Kernel.wakeSleepers at hs
  dsimp only at hs
  split_ifs at hs
  · cases hs
    exact hwake
  · obtain ⟨r, htake, rfl⟩ := Option.map_eq_some_iff.mp hs
    exact ((hwake.takeNext htake).putBack).switchTo _

/-! ## Creation -/

/-- An insertion through a header that is not one of the kernel's. -/
theorem insertLocal (h : k.Separated) {hd : Header NodePtr} {j : NodePtr}
    (hhd : Names k.nodeClass (k.nodeClass j) hd) (hne : k.nodeClass j ≠ (.peerThreads, 0)) :
    Separated { k with links := (listInsertLast k.links hd (some j)).1 } :=
  h.withQueues (h.links.insertLast hhd).1 h.runnable h.blocked h.processes
    fun _ ht => unowned_insert rfl hhd hne ht

/-- **A thread of no process is given one**: nobody points at its node, and it points at nobody. -/
theorem own (h : k.Separated) {t : Nat} {b : TCB} (free : (k.tcb t).pcb = 0) :
    (k.setTcb t b).Separated := by
  have howner : ∀ s, s ≠ t → ((k.setTcb t b).tcb s).pcb = (k.tcb s).pcb := by
    intro s hs
    simp [Kernel.setTcb, hs]
  have hfree : k.nodeClass (peerThreadsNode t) = (.peerThreads, 0) := by
    rw [nodeClass_peerThreads, free]
  have hclass : ∀ n, n ≠ peerThreadsNode t → (k.setTcb t b).nodeClass n = k.nodeClass n := by
    rintro ⟨f, s⟩ hn
    by_cases hf : f = .peerThreads
    · have hs : s ≠ t := fun e => hn (by rw [hf, e]; rfl)
      simp [nodeClass, howner s hs]
    · simp [nodeClass, hf]
  have hlonely : ∀ x, k.nodeClass x = (.peerThreads, 0) → k.links x = ⟨none, none⟩ := by
    intro x hx
    obtain ⟨heq, hown⟩ := eq_peerThreadsNode hx
    rw [heq]
    exact h.unowned _ hown
  have hnames : ∀ c hd, Names k.nodeClass c hd → c ≠ (.peerThreads, 0) →
      Names (k.setTcb t b).nodeClass c hd := by
    intro c hd hhd hc y hy
    have hy' := hhd y hy
    rw [hclass y fun e => hc (by rw [← hy', e, hfree])]
    exact hy'
  refine ⟨?_, hnames _ _ h.runnable (by simp), hnames _ _ h.blocked (by simp),
    hnames _ _ h.processes (by simp), fun p => ?_, fun p => hnames _ _ (h.children p) (by simp),
    h.root, fun s hs => ?_⟩
  · apply h.links.congr
    intro x y hy hxy
    have hx : k.nodeClass x ≠ (.peerThreads, 0) := by
      intro hx
      rw [hlonely x hx] at hy
      rcases hy with hy | hy <;> cases hy
    rw [hclass x fun e => hx (by rw [e, hfree]), hclass y fun e => hx (by rw [← hxy, e, hfree])]
    exact hxy
  · by_cases hp : p = 0
    · subst hp
      show Names _ _ (k.pcb 0).threads
      rw [h.root]
      exact names_listInit _ _
    · exact hnames _ _ (h.threads p) fun e => hp (Prod.mk.inj e).2
  · by_cases hst : s = t
    · rw [hst]
      exact h.unowned t free
    · rw [howner s hst] at hs
      exact h.unowned s hs

/-- The control block of a process, with lists of its own. -/
theorem withProcess (h : k.Separated) {p : Nat} {b : PCB} (hp : p ≠ 0)
    (threads : Names k.nodeClass (.peerThreads, p) b.threads)
    (children : Names k.nodeClass (.peerProcesses, 0) b.children) : (k.setPcb p b).Separated := by
  refine { h with threads := fun q => ?_, children := fun q => ?_, root := ?_ }
  · show Names _ _ (Function.update k.pcb p b q).threads
    by_cases hq : q = p
    · subst hq
      rw [Function.update_self]
      exact threads
    · rw [Function.update_of_ne hq]
      exact h.threads q
  · show Names _ _ (Function.update k.pcb p b q).children
    by_cases hq : q = p
    · subst hq
      rw [Function.update_self]
      exact children
    · rw [Function.update_of_ne hq]
      exact h.children q
  · show (Function.update k.pcb p b 0).threads = _
    rw [Function.update_of_ne hp.symm]
    exact h.root

/-- The next thread, given a process. -/
theorem create (h : k.Separated) {b : TCB} (free : (k.tcb k.nextTid).pcb = 0) :
    ({ k with nextTid := k.nextTid + 1 }.setTcb k.nextTid b).Separated :=
  (h.withCounters (k.nextTid + 1) k.nextPid k.numTicks k.currentThread k.freedTcb k.freedPcb).own
    free

/-- A new child of `p`. -/
theorem insertChild (h : k.Separated) (p c : Nat) {b : PCB}
    (threads : b.threads = (k.pcb p).threads)
    (children : b.children =
      (listInsertLast k.links (k.pcb p).children (some (peerProcessesNode c))).2) :
    (({ k with links :=
      (listInsertLast k.links (k.pcb p).children (some (peerProcessesNode c))).1 }).setPcb p
        b).Separated := by
  have hlist : Names k.nodeClass (k.nodeClass (peerProcessesNode c)) (k.pcb p).children := by
    rw [nodeClass_peerProcesses]
    exact h.children p
  refine (h.insertLocal hlist (by simp)).withChildren threads ?_
  rw [children]
  have hins := (h.links.insertLast hlist).2
  rwa [nodeClass_peerProcesses] at hins

theorem sysThreadFork (h : k.Separated) (process : k.currentPcb ≠ 0)
    (free : (k.tcb k.nextTid).pcb = 0) : k.sysThreadFork.1.Separated := by
  have hnew := h.create (b := { k.tcb k.nextTid with
    pcb := k.currentPcb, state := .init, resume := .userMode }) free
  refine (hnew.insertLocal (j := peerThreadsNode k.nextTid) ?_ ?_).insertRunnable _
  · have hclass := hnew.threads k.currentPcb
    simpa [Kernel.setTcb] using hclass
  · simpa [Kernel.setTcb] using process

theorem forkBlocks (h : k.Separated) (pid : k.nextPid ≠ 0) (free : (k.tcb k.nextTid).pcb = 0) : k.forkBlocks.Separated := by
  have hnew := h.create (b := { k.tcb k.nextTid with
    pcb := k.nextPid, state := .init, resume := .userMode }) free
  let k2 := { k with nextTid := k.nextTid + 1 }.setTcb k.nextTid
    { k.tcb k.nextTid with pcb := k.nextPid, state := .init, resume := .userMode }
  have hclass : k2.nodeClass (peerThreadsNode k.nextTid) = (.peerThreads, k.nextPid) := by
    simp [k2, Kernel.setTcb]
  have hins := hnew.links.insertLast (j := peerThreadsNode k.nextTid) (names_listInit _ _)
  have hlinks := hnew.insertLocal (j := peerThreadsNode k.nextTid) (names_listInit _ _)
    (by rw [hclass]; simpa using pid)
  have hchild := (hlinks.withCounters (k.nextTid + 1) (k.nextPid + 1) k.numTicks k.currentThread
    k.freedTcb k.freedPcb).withProcess (p := k.nextPid) (b := { k.pcb k.nextPid with
      state := .running, parent := some k.currentPcb,
      threads := (listInsertLast k2.links listInit (some (peerThreadsNode k.nextTid))).2,
      children := listInit, childrenCount := 0 }) pid (hclass ▸ hins.2) (names_listInit _ _)
  exact hchild.insertChild k.currentPcb k.nextPid rfl rfl

theorem sysFork (h : k.Separated) (outcome : ForkOutcome) (pid : k.nextPid ≠ 0)
    (free : (k.tcb k.nextTid).pcb = 0) : (k.sysFork outcome).1.Separated := by
  have hblocks := h.forkBlocks pid free
  cases outcome with
  | early => exact h
  | stack => exact h.withCounters _ _ _ _ _ _
  | late => exact hblocks
  | ok => exact (hblocks.insertProcess k.nextPid).insertRunnable k.nextTid

/-! ## Exit and wait -/

/-- The reaping loop, whatever the local header and the nodes have become. -/
theorem reapPeersFrom (h : k.Separated) (fuel : Nat) (n : Option NodePtr) {c : NodeField × Nat}
    {threads : Header NodePtr} (hthreads : Names k.nodeClass c threads) :
    (k.reapPeersFrom fuel n threads).Separated := by
  induction fuel generalizing n threads k with
  | zero => exact h
  | succ fuel ih =>
      cases n with
      | none => exact h
      | some n =>
          rw [Kernel.reapPeersFrom]
          split_ifs with hother
          · apply ih
            · exact (((h.deleteLocal hthreads n).deleteBlocked n).deleteRunnable n).withCounters
                _ _ _ _ _ _
            · exact (h.links.delete hthreads).2
          · exact ih h _ hthreads

theorem wakeInit (h : k.Separated) : k.wakeInit.Separated := by
  unfold Kernel.wakeInit
  split
  · exact h.wake _
  · exact h

theorem wakeWaiter (h : k.Separated) (q : Nat) : (k.wakeWaiter q).Separated := by
  unfold Kernel.wakeWaiter
  split
  · exact h.wake _
  · exact h

theorem exitProcess (h : k.Separated) {p : Nat} (hs : k.exitProcess p = some k') :
    k'.Separated := by
  have hreap : (k.reapPeers p).Separated := h.reapPeersFrom _ _ (h.threads p)
  have hexit := (hreap.setPcb (p := p) (b := { (k.reapPeers p).pcb p with state := .exit })
    rfl rfl).deleteProcess (allProcessesNode p)
  unfold Kernel.exitProcess at hs
  dsimp only at hs
  split at hs
  · cases hs
    exact hexit.wakeInit
  · split_ifs at hs <;> cases hs
    · exact hexit.wakeInit
    · exact hexit.wakeWaiter _

theorem sysVanish (h : k.Separated) {o : Out} (hs : k.sysVanish = some (k', o)) :
    k'.Separated := by
  obtain ⟨k2, hschedule, heq⟩ := Option.map_eq_some_iff.mp hs
  obtain ⟨rfl, -⟩ := Prod.mk.inj heq
  obtain ⟨k1, hbody, hschedule⟩ := Option.bind_eq_some_iff.mp hschedule
  obtain ⟨k0, hexit, rfl⟩ := Option.map_eq_some_iff.mp hbody
  have hbefore : k0.Separated := by
    split_ifs at hexit
    · exact h.exitProcess hexit
    · cases hexit
      exact h
  exact (hbefore.setState _ _).schedule hschedule

theorem reap (h : k.Separated) (p c statusPtr : Nat) : (k.reap p c statusPtr).1.Separated :=
  (h.unlinkChild p (peerProcessesNode c) (b := { k.pcb p with
    children := (listDelete k.links (k.pcb p).children (some (peerProcessesNode c))).2.1,
    childrenCount := (k.pcb p).childrenCount - 1 }) rfl rfl).withCounters _ _ _ _ _ _

theorem resumeWait (h : k.Separated) (statusPtr : Nat) : (k.resumeWait statusPtr).1.Separated := by
  have hback : (k.setTcb k.currentThread
      { k.tcb k.currentThread with resume := .userMode }).Separated := h.setTcb rfl
  unfold Kernel.resumeWait
  dsimp only
  split
  · exact hback.reap _ _ _
  · exact hback

/-- A call that ends in `schedule`. -/
theorem matchSchedule (h : k.Separated) {tid : Int} {o o' : Out}
    (hs : (k.schedule tid).map (fun k1 => (k1, o)) = some (k', o')) : k'.Separated := by
  obtain ⟨k1, hschedule, heq⟩ := Option.map_eq_some_iff.mp hs
  obtain ⟨rfl, -⟩ := Prod.mk.inj heq
  exact h.schedule hschedule

theorem sysWait (h : k.Separated) {statusPtr : Nat} {o : Out}
    (hs : k.sysWait statusPtr = some (k', o)) : k'.Separated := by
  unfold Kernel.sysWait at hs
  dsimp only at hs
  split_ifs at hs
  · cases hs
    exact h
  · cases hs
    exact h
  · split at hs
    · cases hs
      exact h.reap _ _ statusPtr
    · apply matchSchedule _ hs
      exact h.setTcb rfl

/-! ## The whole kernel -/

/-- **A system call keeps the lists apart.** -/
theorem call (h : k.Separated) {c : SysCall} {o : Out} (process : k.currentPcb ≠ 0)
    (pid : k.nextPid ≠ 0) (free : (k.tcb k.nextTid).pcb = 0) (hs : k.call c = some (k', o)) :
    k'.Separated := by
  cases c with
  | yield tid =>
      simp only [Kernel.call, Kernel.sysYield] at hs
      split_ifs at hs <;> first
        | exact h.matchSchedule hs
        | (cases hs; exact h)
  | sleep ticks =>
      simp only [Kernel.call, Kernel.sysSleep] at hs
      split_ifs at hs
      · cases hs
        exact h
      · cases hs
        exact h
      · apply matchSchedule _ hs
        exact h.setTcb rfl
  | deschedule mapped reject =>
      simp only [Kernel.call, Kernel.sysDeschedule] at hs
      split_ifs at hs
      · cases hs
        exact h
      · cases hs
        exact h
      · exact matchSchedule (h.setState _ _) hs
  | makeRunnable tid =>
      simp only [Kernel.call, Kernel.sysMakeRunnable] at hs
      split_ifs at hs
      · cases hs
        exact h
      · cases hs
        exact h
      · split at hs <;> cases hs
        · exact h.wake _
        · exact h
  | readline len mapped =>
      simp only [Kernel.call, Kernel.sysReadline] at hs
      split_ifs at hs
      · cases hs
        exact h
      · cases hs
        exact h
      · exact matchSchedule (h.setState _ _) hs
  | threadFork =>
      cases hs
      exact h.sysThreadFork process free
  | fork outcome =>
      have hfork : k.sysFork outcome = (k', o) := Option.some.inj hs
      have hout := h.sysFork outcome pid free
      rwa [hfork] at hout
  | setStatus status =>
      cases hs
      exact h.setPcb rfl rfl
  | vanish => exact h.sysVanish hs
  | wait statusPtr => exact h.sysWait hs

/-- **So does every step.** -/
theorem step (h : k.Separated) {e : Event} {o : Out} (process : k.currentPcb ≠ 0)
    (pid : k.nextPid ≠ 0) (free : (k.tcb k.nextTid).pcb = 0) (hs : k.step e = some (k', o)) :
    k'.Separated := by
  cases e with
  | timer =>
      obtain ⟨k1, htimer, heq⟩ := Option.map_eq_some_iff.mp hs
      obtain ⟨rfl, -⟩ := Prod.mk.inj heq
      have htick := h.withCounters k.nextTid k.nextPid ((k.numTicks + 1) % 2 ^ 32) k.currentThread
        k.freedTcb k.freedPcb
      simp only [Kernel.timerHandler] at htimer
      split_ifs at htimer
      · exact htick.schedule htimer
      · cases htimer
        exact htick
  | reschedule => exact h.matchSchedule hs
  | newline =>
      cases hs
      unfold Kernel.keyboardNewline
      split
      · exact h.wake _
      · exact h
  | resume =>
      simp only [Kernel.step] at hs
      split at hs
      · cases hs
      · next statusPtr _ =>
          split_ifs at hs
          have hout := h.resumeWait statusPtr
          rwa [Option.some.inj hs] at hout
  | call c =>
      simp only [Kernel.step] at hs
      split_ifs at hs
      exact h.call process pid free hs

end Separated

/-- The thread that `thr_create` makes belongs to the process it is made for. -/
theorem thrCreate_pcb (k : Kernel) (p : Nat) (run : Bool) :
    ((k.thrCreate p run).tcb k.nextTid).pcb = p := by
  cases run with
  | true => simp [thrCreate, setTcb]
  | false => simp [thrCreate, setTcb, setState, insertRunnable]

theorem Separated.thrCreate {k : Kernel} (h : k.Separated) (p : Nat) (run : Bool)
    (free : (k.tcb k.nextTid).pcb = 0) : (k.thrCreate p run).Separated := by
  have hnew := h.create (b := { k.tcb k.nextTid with
    pcb := p, state := .running, resume := .userMode }) free
  cases run with
  | true => exact hnew
  | false => exact (hnew.insertRunnable k.nextTid).setState _ _

/-- The new thread is put into the thread list of its process. -/
theorem Separated.listThread {k : Kernel} (h : k.Separated) {p : Nat} (run : Bool) (hp : p ≠ 0)
    (free : (k.tcb k.nextTid).pcb = 0) :
    let k' := k.thrCreate p run
    let r := listInsertLast k'.links (k'.pcb p).threads (some (peerThreadsNode k.nextTid))
    (({ k' with links := r.1 }).setPcb p { k'.pcb p with threads := r.2 }).Separated := by
  intro k' r
  have hthread := h.thrCreate p run free
  have hclass : k'.nodeClass (peerThreadsNode k.nextTid) = (.peerThreads, p) := by
    rw [nodeClass_peerThreads, k.thrCreate_pcb]
  have hlist := hthread.threads p
  rw [← hclass] at hlist
  have hlinks := hthread.insertLocal hlist (by rw [hclass]; simpa using hp)
  apply hlinks.withProcess hp
  · have hins := (hthread.links.insertLast hlist).2
    rw [hclass] at hins
    exact hins
  · exact hthread.children p

/-- A new process with its first thread. -/
theorem Separated.processCreate {k : Kernel} (h : k.Separated) (run : Bool) (pid : k.nextPid ≠ 0)
    (free : (k.tcb k.nextTid).pcb = 0) : (k.processCreate run).Separated := by
  have hprocess := (((h.withCounters k.nextTid (k.nextPid + 1) k.numTicks k.currentThread k.freedTcb
    k.freedPcb).withProcess (p := k.nextPid) (b := ⟨.runnable, some 0, none, listInit, listInit, 0⟩)
    pid (names_listInit _ _) (names_listInit _ _)).insertProcess k.nextPid)
  have hdone := hprocess.listThread run pid free
  cases run with
  | true => exact hdone.withCounters _ _ _ _ _ _
  | false => exact hdone

theorem separated_initial : initial.Separated where
  links x y hy := by rcases hy with hy | hy <;> cases hy
  runnable := names_listInit _ _
  blocked := names_listInit _ _
  processes := names_listInit _ _
  threads _ := names_listInit _ _
  children _ := names_listInit _ _
  root := rfl
  unowned _ _ := rfl

theorem separated_boot : boot.Separated := by
  apply (separated_initial.processCreate false (by decide) rfl).processCreate true
  · decide
  · decide

/-- **The lists stay apart** in every reachable state. -/
theorem Reaches.separated {as : List Action} {k : Kernel} (h : Kernel.Reaches as k) :
    k.Separated := by
  have hboth := Run.invariant
    (I := fun u => (∃ m, u.RepresentedBy m ∧ m.Manned) ∧ u.Separated) h
    ⟨⟨_, Kernel.represented_boot, Machine.manned_boot⟩, separated_boot⟩ ?_
  · exact hboth.2
  · rintro u x v ⟨⟨m, hm, hmanned⟩, hsep⟩ hstep
    obtain ⟨m', hs, hm'⟩ := hm.step hstep
    refine ⟨⟨m', hm', hmanned.step hm.2 hm'.2 hs⟩, ?_⟩
    refine hsep.step ?_ ?_ ?_ hstep.2
    · rw [hm.1.currentPcb]
      exact hmanned.owned m.current m.current_placed
    · have hpid := hm.2.kin.pid_ge
      rw [hm.1.nextPid]
      omega
    · rw [hm.1.tcb, hm.1.nextTid]
      exact hmanned.unused _ (Nat.le_refl _)

end Kernel

end Pebbles
