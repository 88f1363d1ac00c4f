import Pebbles.Process.SchedulerRefinement

/-! # Life cycle calls refine

The thread lists need care: `sys_thread_fork` works on a copy of the list header, so the list of a
process leads to its first thread and to the last one forked; and the loop that reaps the peers of
the last thread deletes nodes through a copy of the header and from two queues they are not in. The
children lists are plain doubly linked lists. The last theorems put all calls together. -/

namespace Pebbles

open DoublyLinked

/-! ## What loops over thread lists and children lists meet -/

/-- Walking a thread list meets its chain. -/
theorem PeerLinks.walk_eq {l : Links NodePtr} {freed chain : List Nat} (h : PeerLinks l freed chain)
    {fuel : Nat} (hfuel : chain.length ≤ fuel) :
    walk l fuel (chain.head?.map peerThreadsNode) = chain.map peerThreadsNode := by
  match chain, h with
  | [], _ => exact walk_none l fuel
  | [r], h =>
      obtain ⟨fuel, rfl⟩ : ∃ n, fuel = n + 1 := Nat.exists_eq_succ_of_ne_zero (by simp at hfuel; omega)
      have hr : l (peerThreadsNode r) = ⟨none, none⟩ := h
      simp [walk, hr]
  | [r, c], ⟨hr, hnext, _⟩ =>
      obtain ⟨fuel, rfl⟩ : ∃ n, fuel = n + 2 := Nat.exists_eq_add_of_le' (by simpa using hfuel)
      simp [walk, hr, hnext]

/-- The first thread has nobody before it. -/
theorem PeerLinks.root_prev {l : Links NodePtr} {freed rest : List Nat} {r : Nat}
    (h : PeerLinks l freed (r :: rest)) : (l (peerThreadsNode r)).prev = none := by
  match rest, h with
  | [], h =>
      have hr : l (peerThreadsNode r) = ⟨none, none⟩ := h
      rw [hr]
  | [c], ⟨hr, _⟩ => rw [hr]

namespace Refines

variable {k : Kernel} {m : Machine}

/-- Rewriting a process without touching its lists. -/
theorem setProc (h : Refines k m) {p : Nat} {b : PCB} {q : Proc} (same : SameProc b q)
    (kchildren : b.children = (k.pcb p).children) (children : q.children = (m.proc p).children)
    (chain : q.chain = (m.proc p).chain) : Refines (k.setPcb p b) (m.setProc p q) :=
  { h with
    pcb := SameProc.update h.pcb same
    children := fun r => by
      show IsList k.links (Function.update k.pcb p b r).children
        ((Function.update m.proc p q r).children.map _)
      by_cases hr : r = p
      · subst hr
        rw [Function.update_self, Function.update_self, kchildren, children]
        exact h.children r
      · rw [Function.update_of_ne hr, Function.update_of_ne hr]
        exact h.children r
    peers := fun r => by
      show PeerLinks k.links m.freedTcb (Function.update m.proc p q r).chain
      by_cases hr : r = p
      · subst hr
        rw [Function.update_self, chain]
        exact h.peers r
      · rw [Function.update_of_ne hr]
        exact h.peers r }

/-- What a loop over the thread list of `p` meets. -/
theorem members_threads (h : Refines k m) (hc : m.Chains) (p : Nat) :
    k.members (k.pcb p).threads = (m.proc p).chain := by
  have hlen : (m.proc p).chain.length ≤ k.bound := by
    rw [Kernel.bound, h.nextTid]
    refine Nat.le_trans (length_le_of_nodup_lt (hc.nodup p) fun t ht => ?_) (Nat.le_add_right _ _)
    exact (hc.own p t ht).2
  unfold Kernel.members listBegin
  rw [(h.pcb p).threadsHead, (h.peers p).walk_eq hlen, List.map_map]
  exact List.map_id _

/-- What a loop over the children list of `p` meets. -/
theorem members_children (h : Refines k m) (hk : m.Kin) (p : Nat) :
    k.members (k.pcb p).children = (m.proc p).children := by
  have hlen : ((m.proc p).children.map peerProcessesNode).length ≤ k.bound := by
    rw [List.length_map, Kernel.bound, h.nextPid]
    refine Nat.le_trans (length_le_of_nodup_lt (hk.nodup p) fun c hc => ?_) (Nat.le_add_left _ _)
    exact (hk.child p c hc).2.1
  unfold Kernel.members listBegin
  rw [(h.children p).walk_eq hlen, List.map_map]
  exact List.map_id _

end Refines

/-! ## The process queue -/

/-- Insertions keep a field closed. -/
theorem FieldClosed.insertLast {f : NodeField} {l : Links NodePtr} {hd : Header NodePtr}
    {j : NodePtr} (h : FieldClosed f l) (hhd : HeaderClosed f hd) (hj : j.field = f) :
    FieldClosed f (listInsertLast l hd (some j)).1 ∧
      HeaderClosed f (listInsertLast l hd (some j)).2 := by
  cases ht : hd.tail with
  | none =>
      simp only [listInsertLast, ht]
      constructor
      · intro x y hx hy
        by_cases hxj : x = j
        · simp [hxj] at hy
        · simp only [setNext_prev, setNext_next, setPrev_prev, setPrev_next, hxj, if_false] at hy
          exact h x y hx hy
      · intro y hy
        have hjy : j = y := by simpa using hy
        rw [← hjy]
        exact hj
  | some t =>
      have htf : t.field = f := hhd t (Or.inr ht)
      simp only [listInsertLast, ht]
      constructor
      · intro x y hx hy
        by_cases hxj : x = j
        · have hty : t = y := by simpa [hxj] using hy
          rw [← hty]
          exact htf
        · by_cases hxt : x = t
          · simp only [setNext_prev, setNext_next, setPrev_prev, setPrev_next, hxt, if_false,
              if_true, show ¬ t = j from fun e => hxj (hxt.trans e)] at hy
            rcases hy with hy | hy
            · exact h t y htf (Or.inl hy)
            · rw [← Option.some.inj hy]
              exact hj
          · simp only [setNext_prev, setNext_next, setPrev_prev, setPrev_next, hxj, hxt,
              if_false] at hy
            exact h x y hx hy
      · intro y hy
        rcases hy with hy | hy
        · exact hhd y (Or.inl hy)
        · have hjy : j = y := by simpa using hy
          rw [← hjy]
          exact hj

/-- Deletions keep a field closed. -/
theorem FieldClosed.delete {f : NodeField} {l : Links NodePtr} {hd : Header NodePtr} {j : NodePtr}
    (h : FieldClosed f l) (hhd : HeaderClosed f hd) (hj : j.field = f) :
    FieldClosed f (listDelete l hd (some j)).1 ∧
      HeaderClosed f (listDelete l hd (some j)).2.1 := by
  -- what either conditional stores is a neighbour of a node of the field
  have first : ∀ l1 hd1, detachNext l hd j = some (l1, hd1) →
      FieldClosed f l1 ∧ HeaderClosed f hd1 := by
    intro l1 hd1 heq
    unfold detachNext at heq
    split at heq
    · cases heq
      refine ⟨fun x y hx hy => ?_, hhd⟩
      rw [setNext_prev, setNext_next] at hy
      rcases hy with hy | hy
      · exact h x y hx (Or.inl hy)
      · split_ifs at hy
        · exact h j y hj (Or.inr hy)
        · exact h x y hx (Or.inr hy)
    · split_ifs at heq
      cases heq
      refine ⟨h, fun y hy => ?_⟩
      rcases hy with hy | hy
      · exact h j y hj (Or.inr hy)
      · exact hhd y (Or.inr hy)
  have second : ∀ l1 hd1 l2 hd2, FieldClosed f l1 → HeaderClosed f hd1 →
      detachPrev l1 hd1 j = some (l2, hd2) → FieldClosed f l2 ∧ HeaderClosed f hd2 := by
    intro l1 hd1 l2 hd2 h1 hhd1 heq
    unfold detachPrev at heq
    split at heq
    · cases heq
      refine ⟨fun x y hx hy => ?_, hhd1⟩
      rw [setPrev_prev, setPrev_next] at hy
      rcases hy with hy | hy
      · split_ifs at hy
        · exact h1 j y hj (Or.inl hy)
        · exact h1 x y hx (Or.inl hy)
      · exact h1 x y hx (Or.inr hy)
    · split_ifs at heq
      cases heq
      refine ⟨h1, fun y hy => ?_⟩
      rcases hy with hy | hy
      · exact hhd1 y (Or.inl hy)
      · exact h1 j y hj (Or.inl hy)
  cases h1 : detachNext l hd j with
  | none => simpa [listDelete, h1] using ⟨h, hhd⟩
  | some r1 =>
      obtain ⟨hc1, hhd1⟩ := first r1.1 r1.2 h1
      cases h2 : detachPrev r1.1 r1.2 j with
      | none => simpa [listDelete, h1, h2] using ⟨hc1, hhd1⟩
      | some r2 =>
          obtain ⟨hc2, hhd2⟩ := second _ _ r2.1 r2.2 hc1 hhd1 h2
          simp only [listDelete, h1, h2]
          exact ⟨hc2, fun y hy => hhd2 y hy⟩

namespace Refines

variable {k : Kernel} {m : Machine}

/-- Writes to process queue nodes only. -/
theorem withProcessQueue (h : Refines k m) {l : Links NodePtr} {pq : Header NodePtr}
    (off : SameOff .allProcesses k.links l) (hpq : HeaderClosed .allProcesses pq)
    (hl : FieldClosed .allProcesses l) :
    Refines { k with links := l, processQueue := pq } m :=
  { h with
    runnable := off.isList (fun _ => by simp [threadListNode]) h.runnable
    blocked := off.isList (fun _ => by simp [threadListNode]) h.blocked
    children := fun p => off.isList (fun _ => by simp [peerProcessesNode]) (h.children p)
    peers := fun p => (h.peers p).frame (fun t _ => off _ (by simp [peerThreadsNode]))
      fun _ ht => ht
    processQueue := hpq
    processes := hl }

/-- `list_insert_last(&process_queue, ..)`. -/
theorem insertProcess (h : Refines k m) (p : Nat) :
    Refines { k with
      links := (listInsertLast k.links k.processQueue (some (allProcessesNode p))).1,
      processQueue := (listInsertLast k.links k.processQueue (some (allProcessesNode p))).2 } m := by
  obtain ⟨hl, hpq⟩ := h.processes.insertLast h.processQueue (j := allProcessesNode p) rfl
  refine h.withProcessQueue ?_ hpq hl
  exact sameOff_insertLast (j := allProcessesNode p) fun y hy => h.processQueue y (Or.inr hy)

/-- `list_delete(&process_queue, ..)`, whether or not the process is in the queue. -/
theorem deleteProcess (h : Refines k m) (p : Nat) :
    Refines { k with
      links := (listDelete k.links k.processQueue (some (allProcessesNode p))).1,
      processQueue := (listDelete k.links k.processQueue (some (allProcessesNode p))).2.1 } m := by
  obtain ⟨hl, hpq⟩ := h.processes.delete h.processQueue (j := allProcessesNode p) rfl
  refine h.withProcessQueue ?_ hpq hl
  exact sameOff_delete (fun y hy => h.processes _ y rfl (Or.inl hy))
    fun y hy => h.processes _ y rfl (Or.inr hy)

end Refines

/-! ## Creation -/

/-- **The effect of the copied header**: whatever the thread list was, it leads to its first thread
and the new one after an insertion behind the recorded tail, which is the first thread. -/
theorem PeerLinks.fork {l : Links NodePtr} {hd : Header NodePtr} {freed chain : List Nat}
    {child : Nat} (h : PeerLinks l freed chain)
    (htail : hd.tail = chain.head?.map peerThreadsNode) (hchild : child ∉ chain) :
    PeerLinks (listInsertLast l hd (some (peerThreadsNode child))).1 freed
      (Machine.forkChain chain child) := by
  cases chain with
  | nil => trivial
  | cons r rest =>
      have hprev := h.root_prev
      have hne : r ≠ child := fun e => hchild (e ▸ List.mem_cons_self)
      have hnode : peerThreadsNode r ≠ peerThreadsNode child := fun e =>
        hne (peerThreadsNode_injective e)
      have ht : hd.tail = some (peerThreadsNode r) := htail
      refine ⟨?_, listInsertLast_next, Or.inl ?_⟩
      · simp only [listInsertLast, ht]
        rw [setNext_of_ne _ _ hnode, setPrev_of_ne _ _ hnode, setNext, Function.update_self]
        exact congrArg (Node.mk · _) hprev
      · rw [listInsertLast_prev, ht]

namespace Refines

variable {k : Kernel} {m : Machine}

/-- Insertion of a peer node writes peer nodes only. -/
theorem sameOff_insertPeer (h : Refines k m) (p t : Nat) :
    SameOff .peerThreads k.links
      (listInsertLast k.links (k.pcb p).threads (some (peerThreadsNode t))).1 := by
  refine sameOff_insertLast (j := peerThreadsNode t) fun y hy => ?_
  rw [(h.pcb p).threadsTail, Option.map_eq_some_iff] at hy
  obtain ⟨r, -, rfl⟩ := hy
  rfl

/-- Insertion behind the first thread of `p` does not touch the thread lists of others. -/
theorem peers_insertPeer (h : Refines k m) (hc : m.Chains) {p q t : Nat} (hq : q ≠ p)
    (ht : t ∉ (m.proc q).chain) :
    PeerLinks (listInsertLast k.links (k.pcb p).threads (some (peerThreadsNode t))).1 m.freedTcb
      (m.proc q).chain := by
  refine (h.peers q).frame (fun s hs => listInsertLast_frame ?_ ?_) fun _ hf => hf
  · intro e
    exact ht (peerThreadsNode_injective e ▸ hs)
  · intro e
    rw [(h.pcb p).threadsTail, Option.map_eq_some_iff] at e
    obtain ⟨r, hr, heq⟩ := e
    obtain rfl := peerThreadsNode_injective heq
    exact hq ((hc.own q _ hs).1.symm.trans (hc.own p _ (List.mem_of_head? hr)).1)

/-- **`sys_thread_fork` refines.** -/
theorem sysThreadFork (h : Refines k m) (wf : m.Wf) :
    Matched (some k.sysThreadFork) (some m.sysThreadFork) := by
  have hcur : k.currentPcb = m.currentPcb := by
    rw [Kernel.currentPcb, Machine.currentPcb, h.tcb, h.current]
  have hfresh : ∀ p, m.nextTid ∉ (m.proc p).chain := fun p hmem =>
    Nat.lt_irrefl _ (wf.chains.own p _ hmem).2
  let p := m.currentPcb
  let b : TCB := { k.tcb m.nextTid with pcb := p, state := .init, resume := .userMode }
  let chain := Machine.forkChain (m.proc p).chain m.nextTid
  let l := (listInsertLast k.links (k.pcb p).threads (some (peerThreadsNode m.nextTid))).1
  have hoff : SameOff .peerThreads k.links l := h.sameOff_insertPeer p m.nextTid
  have hhead : chain.head? = (m.proc p).chain.head? := by
    simp only [chain]
    cases (m.proc p).chain <;> rfl
  -- everything but the insertion into the runnable queue
  have hmid : Refines { (k.setTcb m.nextTid b) with nextTid := m.nextTid + 1, links := l }
      { (m.setTcb m.nextTid b).setProc p { m.proc p with chain := chain } with
        nextTid := m.nextTid + 1 } :=
    { h.setTcb m.nextTid b with
      nextTid := rfl
      pcb := SameProc.update_right h.pcb
        { h.pcb p with
          threadsHead := (h.pcb p).threadsHead.trans (by rw [← hhead])
          threadsTail := (h.pcb p).threadsTail.trans (by rw [← hhead]) }
      runnable := hoff.isList (fun _ => by simp [threadListNode]) h.runnable
      blocked := hoff.isList (fun _ => by simp [threadListNode]) h.blocked
      children := fun q => by
        have hchildren := hoff.isList (fun _ => by simp [peerProcessesNode]) (h.children q)
        show IsList l (k.pcb q).children ((Function.update m.proc p _ q).children.map _)
        by_cases hq : q = p
        · subst hq
          rwa [Function.update_self]
        · rwa [Function.update_of_ne hq]
      peers := fun q => by
        show PeerLinks l m.freedTcb (Function.update m.proc p _ q).chain
        by_cases hq : q = p
        · subst hq
          rw [Function.update_self]
          exact (h.peers p).fork (h.pcb p).threadsTail (hfresh p)
        · rw [Function.update_of_ne hq]
          exact h.peers_insertPeer wf.chains hq (hfresh q)
      processes := hoff.fieldClosed (by simp) h.processes }
  have hnodup : (m.nextTid :: (m.run ++ m.blk)).Nodup := by
    refine List.nodup_cons.mpr ⟨fun hmem => ?_, wf.queues.nodup.of_append_right⟩
    exact Nat.lt_irrefl _ (wf.queues.lt _ (List.mem_append_right _ hmem))
  have hfinal := (hmid.insertRunnable (t := m.nextTid) hnodup).matched_return
    (Out.value m.nextTid)
  have hkernel : k.sysThreadFork =
      (({ (k.setTcb m.nextTid b) with nextTid := m.nextTid + 1, links := l } : Kernel).insertRunnable
        (threadListNode m.nextTid), Out.value m.nextTid) := by
    simp only [Kernel.sysThreadFork, h.nextTid, hcur]
    rfl
  have htcb : { m.tcb m.nextTid with pcb := p, state := .init, resume := .userMode } = b := by
    simp only [b, h.tcb]
  have hmachine : m.sysThreadFork =
      ({ (m.setTcb m.nextTid b).setProc p { m.proc p with chain := chain } with
        nextTid := m.nextTid + 1, run := m.run ++ [m.nextTid] }, Out.value m.nextTid) := by
    rw [← htcb]
    rfl
  rw [hkernel, hmachine]
  exact hfinal

/-! ## Children lists -/

theorem not_mem_peers {c : Nat} {xs : List Nat} (h : c ∉ xs) :
    peerProcessesNode c ∉ xs.map peerProcessesNode := fun hmem =>
  h ((List.mem_map_of_injective peerProcessesNode_injective).mp hmem)

/-- New children of `p`, with writes to sibling nodes only. -/
theorem withChildren (h : Refines k m) {p : Nat} {l : Links NodePtr} {hd : Header NodePtr}
    {count count' : Int} {xs : List Nat} (off : SameOff .peerProcesses k.links l)
    (hcount : count = count')
    (hp : IsList l hd (xs.map peerProcessesNode))
    (hother : ∀ q, q ≠ p → IsList l (k.pcb q).children ((m.proc q).children.map peerProcessesNode)) :
    Refines (({ k with links := l }).setPcb p
        { k.pcb p with children := hd, childrenCount := count })
      (m.setProc p { m.proc p with children := xs, childrenCount := count' }) :=
  { h with
    pcb := SameProc.update h.pcb { h.pcb p with childrenCount := hcount }
    runnable := off.isList (fun _ => by simp [threadListNode]) h.runnable
    blocked := off.isList (fun _ => by simp [threadListNode]) h.blocked
    children := fun q => by
      show IsList l (Function.update k.pcb p _ q).children
        ((Function.update m.proc p _ q).children.map _)
      by_cases hq : q = p
      · subst hq
        rwa [Function.update_self, Function.update_self]
      · rw [Function.update_of_ne hq, Function.update_of_ne hq]
        exact hother q hq
    peers := fun q => by
      have hpeers : PeerLinks l m.freedTcb (m.proc q).chain :=
        (h.peers q).frame (fun t _ => off _ (by simp [peerThreadsNode])) fun _ ht => ht
      show PeerLinks l m.freedTcb (Function.update m.proc p _ q).chain
      by_cases hq : q = p
      · subst hq
        rwa [Function.update_self]
      · rwa [Function.update_of_ne hq]
    processes := off.fieldClosed (by simp) h.processes }

/-- A new child at the end of the children list of `p`. -/
theorem addChild (h : Refines k m) {p c : Nat} (fresh : ∀ q, c ∉ (m.proc q).children)
    (disjoint : ∀ q, q ≠ p → ∀ x ∈ (m.proc q).children, x ∉ (m.proc p).children) :
    Refines (({ k with
        links := (listInsertLast k.links (k.pcb p).children (some (peerProcessesNode c))).1 }).setPcb p
        { k.pcb p with
          children := (listInsertLast k.links (k.pcb p).children (some (peerProcessesNode c))).2,
          childrenCount := (k.pcb p).childrenCount + 1 })
      (m.setProc p { m.proc p with
        children := (m.proc p).children ++ [c],
        childrenCount := (m.proc p).childrenCount + 1 }) := by
  obtain ⟨hlist, hframe⟩ := listInsertLast_spec (h.children p) (not_mem_peers (fresh p))
  refine h.withChildren ?_ (by rw [(h.pcb p).childrenCount]) (by simpa using hlist)
    fun q hq => ?_
  · exact sameOff_insertLast (j := peerProcessesNode c)
      (tail_field (f := .peerProcesses) (fun _ => rfl) (h.children p))
  · refine (h.children q).frame fun x hx => ?_
    obtain ⟨s, hs, rfl⟩ := List.mem_map.mp hx
    refine hframe _ (not_mem_peers (disjoint q hq s hs)) fun e => ?_
    exact fresh q (peerProcessesNode_injective e ▸ hs)

/-- A child is taken out of the children list of `p`. -/
theorem removeChild (h : Refines k m) {p c : Nat} (hc : c ∈ (m.proc p).children)
    (disjoint : ∀ q, q ≠ p → ∀ x ∈ (m.proc q).children, x ∉ (m.proc p).children) :
    Refines (({ k with
        links := (listDelete k.links (k.pcb p).children (some (peerProcessesNode c))).1 }).setPcb p
        { k.pcb p with
          children := (listDelete k.links (k.pcb p).children (some (peerProcessesNode c))).2.1,
          childrenCount := (k.pcb p).childrenCount - 1 })
      (m.setProc p { m.proc p with
        children := (m.proc p).children.erase c,
        childrenCount := (m.proc p).childrenCount - 1 }) := by
  obtain ⟨hlist, -, hframe⟩ := listDelete_spec (h.children p) (List.mem_map_of_mem hc)
  have herase : ((m.proc p).children.map peerProcessesNode).erase (peerProcessesNode c) =
      ((m.proc p).children.erase c).map peerProcessesNode :=
    (List.map_erase peerProcessesNode_injective _).symm
  rw [herase] at hlist hframe
  refine h.withChildren ?_ (by rw [(h.pcb p).childrenCount]) hlist fun q hq => ?_
  · obtain ⟨hprev, hnext⟩ := neighbours_of_isList (h.children p) hc
    refine sameOff_delete (fun y hy => ?_) fun y hy => ?_
    · obtain ⟨s, -, rfl⟩ := hprev y hy
      rfl
    · obtain ⟨s, -, rfl⟩ := hnext y hy
      rfl
  · refine (h.children q).frame fun x hx => ?_
    obtain ⟨s, hs, rfl⟩ := List.mem_map.mp hx
    exact hframe _ (not_mem_peers fun hs' => disjoint q hq s hs (List.mem_of_mem_erase hs'))

/-- Different processes have different children. -/
theorem children_disjoint (hk : m.Kin) {p q : Nat} (hq : q ≠ p) :
    ∀ x ∈ (m.proc q).children, x ∉ (m.proc p).children := by
  intro x hx hx'
  have hpar := (hk.child q x hx).1
  rw [(hk.child p x hx').1] at hpar
  exact hq (Option.some.inj hpar).symm

/-- The blocks of a new process `pid` with its one thread `tid`. -/
theorem newProcess (h : Refines k m) {pid tid parent : Nat} (b : TCB) (nt np : Nat)
    (hold : ∀ p, tid ∉ (m.proc p).chain) :
    Refines (({ (k.setTcb tid b) with
        nextTid := nt, nextPid := np,
        links := (listInsertLast k.links listInit (some (peerThreadsNode tid))).1 } : Kernel).setPcb
          pid { k.pcb pid with
            state := .running, parent := some parent,
            threads := (listInsertLast k.links listInit (some (peerThreadsNode tid))).2,
            children := listInit, childrenCount := 0 })
      (({ (m.setTcb tid b) with nextTid := nt, nextPid := np } : Machine).setProc pid
        { m.proc pid with
          state := .running, parent := some parent, chain := [tid], children := [],
          childrenCount := 0 }) := by
  let l := (listInsertLast k.links listInit (some (peerThreadsNode tid))).1
  have hoff : SameOff .peerThreads k.links l :=
    sameOff_insertLast (j := peerThreadsNode tid) fun y hy => by cases hy
  have hself : l (peerThreadsNode tid) = ⟨none, none⟩ := by
    have hnext : (l (peerThreadsNode tid)).next = none := listInsertLast_next
    have hprev : (l (peerThreadsNode tid)).prev = none := listInsertLast_prev
    cases hl : l (peerThreadsNode tid) with
    | mk prev next =>
        rw [hl] at hnext hprev
        rw [show prev = none from hprev, show next = none from hnext]
  exact
    { h.setTcb tid b with
      nextTid := rfl
      nextPid := rfl
      pcb := SameProc.update h.pcb
        { state := rfl, returnState := (h.pcb pid).returnState, parent := rfl, childrenCount := rfl,
          threadsHead := rfl, threadsTail := rfl }
      runnable := hoff.isList (fun _ => by simp [threadListNode]) h.runnable
      blocked := hoff.isList (fun _ => by simp [threadListNode]) h.blocked
      children := fun q => by
        have hchildren := hoff.isList (fun _ => by simp [peerProcessesNode]) (h.children q)
        show IsList l (Function.update k.pcb pid _ q).children
          ((Function.update m.proc pid _ q).children.map _)
        by_cases hq : q = pid
        · subst hq
          rw [Function.update_self, Function.update_self]
          exact isList_empty l
        · rwa [Function.update_of_ne hq, Function.update_of_ne hq]
      peers := fun q => by
        show PeerLinks l m.freedTcb (Function.update m.proc pid _ q).chain
        by_cases hq : q = pid
        · subst hq
          rw [Function.update_self]
          exact hself
        · rw [Function.update_of_ne hq]
          refine (h.peers q).frame (fun t ht => ?_) fun _ hf => hf
          refine listInsertLast_frame (fun e => ?_) fun e => by cases e
          exact hold q (peerThreadsNode_injective e ▸ ht)
      processes := hoff.fieldClosed (by simp) h.processes }

/-- **The control blocks of a forked process.** -/
theorem forkBlocks (h : Refines k m) (wf : m.Wf) : Refines k.forkBlocks m.forkBlocks := by
  have hcur : k.currentPcb = m.currentPcb := by
    rw [Kernel.currentPcb, Machine.currentPcb, h.tcb, h.current]
  let p := m.currentPcb
  let b : TCB := { k.tcb m.nextTid with pcb := m.nextPid, state := .init, resume := .userMode }
  let t := listInsertLast k.links listInit (some (peerThreadsNode m.nextTid))
  let kn : Kernel := ({ (k.setTcb m.nextTid b) with
    nextTid := m.nextTid + 1, nextPid := m.nextPid + 1, links := t.1 } : Kernel).setPcb m.nextPid
      { k.pcb m.nextPid with
        state := .running, parent := some p, threads := t.2, children := listInit,
        childrenCount := 0 }
  let mn : Machine := ({ (m.setTcb m.nextTid b) with
    nextTid := m.nextTid + 1, nextPid := m.nextPid + 1 } : Machine).setProc m.nextPid
      { m.proc m.nextPid with
        state := .running, parent := some p, chain := [m.nextTid], children := [],
        childrenCount := 0 }
  have hnew : Refines kn mn := h.newProcess b _ _ fun q hmem =>
    Nat.lt_irrefl _ (wf.chains.own q _ hmem).2
  have hchildren : ∀ q x, x ∈ (mn.proc q).children → x ∈ (m.proc q).children := by
    intro q x hx
    by_cases hq : q = m.nextPid
    · subst hq
      simp [mn, Machine.setProc] at hx
    · simpa [mn, Machine.setProc, Machine.setTcb, hq] using hx
  have hadd := hnew.addChild (p := p) (c := m.nextPid)
    (fun q hmem => Nat.lt_irrefl _ (wf.kin.child q _ (hchildren q _ hmem)).2.1)
    (fun q hq x hx hx' => children_disjoint wf.kin hq x (hchildren q x hx) (hchildren p x hx'))
  have hkernel : k.forkBlocks = ({ kn with
      links := (listInsertLast kn.links (kn.pcb p).children (some (peerProcessesNode m.nextPid))).1
      }).setPcb p { kn.pcb p with
        children := (listInsertLast kn.links (kn.pcb p).children
          (some (peerProcessesNode m.nextPid))).2,
        childrenCount := (kn.pcb p).childrenCount + 1 } := by
    simp only [Kernel.forkBlocks, h.nextTid, h.nextPid, hcur]
    rfl
  have htcb : { m.tcb m.nextTid with pcb := m.nextPid, state := .init, resume := .userMode } = b := by
    simp only [b, h.tcb]
  have hmachine : m.forkBlocks = mn.setProc p { mn.proc p with
      children := (mn.proc p).children ++ [m.nextPid],
      childrenCount := (mn.proc p).childrenCount + 1 } := by
    simp only [mn, ← htcb]
    rfl
  rw [hkernel, hmachine]
  exact hadd

/-- **`sys_fork` refines**, whatever its outcome. -/
theorem sysFork (h : Refines k m) (wf : m.Wf) (outcome : Kernel.ForkOutcome) :
    Matched (some (k.sysFork outcome)) (some (m.sysFork outcome)) := by
  have hblocks := h.forkBlocks wf
  cases outcome with
  | early => exact h.matched_return _
  | stack =>
      have hstack : Refines { k with nextTid := k.nextTid + 1 }
          { m with nextTid := m.nextTid + 1 } :=
        { h with nextTid := by rw [h.nextTid] }
      exact hstack.matched_return _
  | late => exact hblocks.matched_return _
  | ok =>
      have hnodup : (m.nextTid :: (m.run ++ m.blk)).Nodup := by
        refine List.nodup_cons.mpr ⟨fun hmem => ?_, wf.queues.nodup.of_append_right⟩
        exact Nat.lt_irrefl _ (wf.queues.lt _ (List.mem_append_right _ hmem))
      have hqueue := (hblocks.insertProcess m.nextPid).insertRunnable (t := m.nextTid) hnodup
      have hfinal := hqueue.matched_return (Out.value m.nextPid)
      simp only [Kernel.sysFork, h.nextPid, h.nextTid]
      exact hfinal

/-- **`sys_set_status` refines.** -/
theorem sysSetStatus (h : Refines k m) (status : Int) :
    Refines (k.sysSetStatus status) (m.sysSetStatus status) := by
  have hcur : k.currentPcb = m.currentPcb := by
    rw [Kernel.currentPcb, Machine.currentPcb, h.tcb, h.current]
  unfold Kernel.sysSetStatus Machine.sysSetStatus
  rw [hcur]
  exact h.setProc { h.pcb m.currentPcb with returnState := rfl } rfl rfl rfl

end Refines

end Pebbles
