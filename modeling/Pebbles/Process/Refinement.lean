import Pebbles.Process.WellFormed
import Mathlib.Data.List.Perm.Subperm

/-! # The kernel refines the abstract machine

`Refines k m` says that the pointers of the kernel state `k` represent the sequences of the machine
`m`: the queues and the children lists are doubly linked lists of the right nodes, and the thread
list of each process leads along its `chain`. Every kernel step is matched by a machine step under
the same event and with the same result (`Refines.step`). -/

namespace Pebbles

open DoublyLinked

/-! ## The representation -/

/-- Only nodes of the field `f` differ. -/
def SameOff (f : NodeField) (l l' : Links NodePtr) : Prop := ∀ x, x.field ≠ f → l' x = l x

/-- Nodes of the field `f` point at nodes of the field `f`. -/
def FieldClosed (f : NodeField) (l : Links NodePtr) : Prop :=
  ∀ x y, x.field = f → (l x).prev = some y ∨ (l x).next = some y → y.field = f

/-- The header points at nodes of the field `f`. -/
def HeaderClosed (f : NodeField) (h : Header NodePtr) : Prop :=
  ∀ y, h.head = some y ∨ h.tail = some y → y.field = f

/-- **The links of a thread list**: at most a first and a second thread. The second one may have
lost its way back to the first once that was freed. -/
def PeerLinks (l : Links NodePtr) (freed : List Nat) : List Nat → Prop
  | [] => True
  | [r] => l (peerThreadsNode r) = ⟨none, none⟩
  | [r, c] =>
      l (peerThreadsNode r) = ⟨none, some (peerThreadsNode c)⟩ ∧
        (l (peerThreadsNode c)).next = none ∧
          ((l (peerThreadsNode c)).prev = some (peerThreadsNode r) ∨
            (l (peerThreadsNode c)).prev = none ∧ r ∈ freed)
  | _ => False

/-- The control block `b` represents the process `q`, the links of the lists apart. The header of a
thread list is never updated: its tail stays the first thread. -/
structure SameProc (b : PCB) (q : Proc) : Prop where
  /-- The state. -/
  state : b.state = q.state
  /-- The reported status. -/
  returnState : b.returnState = q.returnState
  /-- The parent. -/
  parent : b.parent = q.parent
  /-- The count of children. -/
  childrenCount : b.childrenCount = q.childrenCount
  /-- The first thread. -/
  threadsHead : b.threads.head = q.chain.head?.map peerThreadsNode
  /-- The last thread, as recorded. -/
  threadsTail : b.threads.tail = q.chain.head?.map peerThreadsNode

/-- Both sides are rewritten at one process. -/
theorem SameProc.update {f : Nat → PCB} {g : Nat → Proc} (h : ∀ p, SameProc (f p) (g p)) {a : Nat}
    {b : PCB} {q : Proc} (hb : SameProc b q) (p : Nat) :
    SameProc (Function.update f a b p) (Function.update g a q p) := by
  by_cases hp : p = a
  · subst hp
    rw [Function.update_self, Function.update_self]
    exact hb
  · rw [Function.update_of_ne hp, Function.update_of_ne hp]
    exact h p

/-- Only the machine is rewritten, at one process. -/
theorem SameProc.update_right {f : Nat → PCB} {g : Nat → Proc} (h : ∀ p, SameProc (f p) (g p))
    {a : Nat} {q : Proc} (hb : SameProc (f a) q) (p : Nat) :
    SameProc (f p) (Function.update g a q p) := by
  by_cases hp : p = a
  · subst hp
    rw [Function.update_self]
    exact hb
  · rw [Function.update_of_ne hp]
    exact h p

/-- **Refinement**: the kernel state `k` represents the machine `m`. -/
structure Refines (k : Kernel) (m : Machine) : Prop where
  /-- The thread control blocks. -/
  tcb : k.tcb = m.tcb
  /-- The running thread. -/
  current : k.currentThread = m.current
  /-- The next tid. -/
  nextTid : k.nextTid = m.nextTid
  /-- The next pid. -/
  nextPid : k.nextPid = m.nextPid
  /-- The ticks. -/
  numTicks : k.numTicks = m.numTicks
  /-- The freed threads. -/
  freedTcb : k.freedTcb = m.freedTcb
  /-- The freed processes. -/
  freedPcb : k.freedPcb = m.freedPcb
  /-- The process control blocks. -/
  pcb : ∀ p, SameProc (k.pcb p) (m.proc p)
  /-- The runnable queue. -/
  runnable : IsList k.links k.runnableQueue (m.run.map threadListNode)
  /-- The blocked queue. -/
  blocked : IsList k.links k.blockedQueue (m.blk.map threadListNode)
  /-- The children lists. -/
  children : ∀ p, IsList k.links (k.pcb p).children ((m.proc p).children.map peerProcessesNode)
  /-- The thread lists. -/
  peers : ∀ p, PeerLinks k.links m.freedTcb (m.proc p).chain
  /-- The process queue points at processes. -/
  processQueue : HeaderClosed .allProcesses k.processQueue
  /-- So do its members. -/
  processes : FieldClosed .allProcesses k.links

/-! ## Frames -/

/-- A sequence of nodes of another field is not touched. -/
theorem SameOff.isList {f : NodeField} {l l' : Links NodePtr} (h : SameOff f l l')
    {hd : Header NodePtr} {node : Nat → NodePtr} (hnode : ∀ t, (node t).field ≠ f) {xs : List Nat}
    (hl : IsList l hd (xs.map node)) : IsList l' hd (xs.map node) := by
  refine hl.frame fun x hx => ?_
  obtain ⟨t, -, rfl⟩ := List.mem_map.mp hx
  exact h _ (hnode t)

/-- Links of a thread list depend on its threads only. -/
theorem PeerLinks.frame {l l' : Links NodePtr} {freed freed' : List Nat} {chain : List Nat}
    (h : PeerLinks l freed chain)
    (same : ∀ t ∈ chain, l' (peerThreadsNode t) = l (peerThreadsNode t))
    (more : ∀ t ∈ freed, t ∈ freed') : PeerLinks l' freed' chain := by
  match chain, h with
  | [], _ => trivial
  | [r], h =>
      show l' _ = _
      rw [same r List.mem_cons_self]
      exact h
  | [r, c], ⟨hr, hnext, hprev⟩ =>
      have hsr := same r List.mem_cons_self
      have hsc := same c (List.mem_cons_of_mem r List.mem_cons_self)
      refine ⟨hsr.trans hr, by rw [hsc]; exact hnext, ?_⟩
      rw [hsc]
      exact hprev.imp id fun hlost => ⟨hlost.1, more r hlost.2⟩

/-- A closed field is not touched by writes to nodes of another one. -/
theorem SameOff.fieldClosed {f g : NodeField} {l l' : Links NodePtr} (h : SameOff f l l')
    (hne : g ≠ f) (hc : FieldClosed g l) : FieldClosed g l' := by
  intro x y hx hy
  rw [h x (by rw [hx]; exact hne)] at hy
  exact hc x y hx hy

theorem threadListNode_injective : Function.Injective threadListNode := fun _ _ h =>
  congrArg NodePtr.owner h

theorem peerProcessesNode_injective : Function.Injective peerProcessesNode := fun _ _ h =>
  congrArg NodePtr.owner h

theorem peerThreadsNode_injective : Function.Injective peerThreadsNode := fun _ _ h =>
  congrArg NodePtr.owner h

/-- An insertion into a sequence of nodes of the field `f` writes nodes of this field only. -/
theorem sameOff_insertLast {l : Links NodePtr} {hd : Header NodePtr} {j : NodePtr}
    (ht : ∀ y, hd.tail = some y → y.field = j.field) :
    SameOff j.field l (listInsertLast l hd (some j)).1 := by
  intro x hx
  refine listInsertLast_frame (fun e => hx (by rw [e])) fun e => hx (ht x e)

/-- A deletion writes nodes of the field of the neighbours only. -/
theorem sameOff_delete {l : Links NodePtr} {hd : Header NodePtr} {j : NodePtr} {f : NodeField}
    (hp : ∀ y, (l j).prev = some y → y.field = f) (hn : ∀ y, (l j).next = some y → y.field = f) :
    SameOff f l (listDelete l hd (some j)).1 := by
  intro x hx
  exact listDelete_frame (fun e => hx (hp x e)) fun e => hx (hn x e)

/-- The nodes of a represented list point at each other only. -/
theorem neighbours_of_isList {l : Links NodePtr} {hd : Header NodePtr} {node : Nat → NodePtr}
    {xs : List Nat} {t : Nat} (h : IsList l hd (xs.map node)) (ht : t ∈ xs) :
    (∀ y, (l (node t)).prev = some y → ∃ s ∈ xs, y = node s) ∧
      ∀ y, (l (node t)).next = some y → ∃ s ∈ xs, y = node s := by
  obtain ⟨as, bs, rfl⟩ := List.append_of_mem ht
  rw [List.map_append, List.map_cons] at h
  constructor
  · intro y hy
    rw [h.prev_eq] at hy
    obtain ⟨s, hs, rfl⟩ := List.mem_map.mp (List.mem_of_getLast? hy)
    exact ⟨s, List.mem_append_left _ hs, rfl⟩
  · intro y hy
    rw [h.next_eq] at hy
    obtain ⟨s, hs, rfl⟩ := List.mem_map.mp (List.mem_of_head? hy)
    exact ⟨s, List.mem_append_right _ (List.mem_cons_of_mem _ hs), rfl⟩

/-! ## Queue operations -/

/-- Distinct numbers below `n` are at most `n` many. -/
theorem length_le_of_nodup_lt {xs : List Nat} {n : Nat} (nodup : xs.Nodup)
    (lt : ∀ x ∈ xs, x < n) : xs.length ≤ n := by
  have hsub : xs.Subperm (List.range n) :=
    nodup.subperm fun x hx => List.mem_range.mpr (lt x hx)
  simpa using hsub.length_le

namespace Refines

variable {k : Kernel} {m : Machine}

/-- New queues, with writes to queue nodes only. -/
theorem withQueues (h : Refines k m) {l : Links NodePtr} {rq bq : Header NodePtr}
    {run blk : List Nat} (off : SameOff .threadList k.links l)
    (hrun : IsList l rq (run.map threadListNode)) (hblk : IsList l bq (blk.map threadListNode)) :
    Refines { k with links := l, runnableQueue := rq, blockedQueue := bq }
      { m with run := run, blk := blk } :=
  { h with
    runnable := hrun
    blocked := hblk
    children := fun p => off.isList (fun _ => by simp [peerProcessesNode]) (h.children p)
    peers := fun p => (h.peers p).frame (fun t _ => off _ (by simp [peerThreadsNode]))
      fun _ ht => ht
    processes := off.fieldClosed (by simp) h.processes }

/-- The tail of the runnable queue is a queue node. -/
theorem tail_field {l : Links NodePtr} {hd : Header NodePtr} {node : Nat → NodePtr} {f : NodeField}
    (hnode : ∀ t, (node t).field = f) {xs : List Nat} (h : IsList l hd (xs.map node)) :
    ∀ y, hd.tail = some y → y.field = f := by
  intro y hy
  rw [h.tail] at hy
  obtain ⟨t, -, rfl⟩ := List.mem_map.mp (List.mem_of_getLast? hy)
  exact hnode t

/-- Inserting a queue node writes queue nodes only. -/
theorem sameOff_enqueue {l : Links NodePtr} {hd : Header NodePtr} {xs : List Nat}
    (h : IsList l hd (xs.map threadListNode)) (t : Nat) :
    SameOff .threadList l (listInsertLast l hd (some (threadListNode t))).1 :=
  sameOff_insertLast (j := threadListNode t) (tail_field (f := .threadList) (fun _ => rfl) h)

/-- Deleting a queue node writes queue nodes only. -/
theorem sameOff_dequeue {l : Links NodePtr} {hd hd' : Header NodePtr} {xs : List Nat} {t : Nat}
    (h : IsList l hd (xs.map threadListNode)) (ht : t ∈ xs) :
    SameOff .threadList l (listDelete l hd' (some (threadListNode t))).1 := by
  obtain ⟨hprev, hnext⟩ := neighbours_of_isList h ht
  refine sameOff_delete (fun y hy => ?_) fun y hy => ?_
  · obtain ⟨s, -, rfl⟩ := hprev y hy
    rfl
  · obtain ⟨s, -, rfl⟩ := hnext y hy
    rfl

theorem not_mem_nodes {t : Nat} {xs : List Nat} (h : t ∉ xs) :
    threadListNode t ∉ xs.map threadListNode := fun hmem =>
  h ((List.mem_map_of_injective threadListNode_injective).mp hmem)

/-- `list_insert_last(&runnable_queue, ..)`. -/
theorem insertRunnable (h : Refines k m) {t : Nat} (nodup : (t :: (m.run ++ m.blk)).Nodup) :
    Refines (k.insertRunnable (threadListNode t)) { m with run := m.run ++ [t] } := by
  obtain ⟨hnot, hqueues⟩ := List.nodup_cons.mp nodup
  have hrun : t ∉ m.run := fun ht => hnot (List.mem_append_left _ ht)
  have hblk : t ∉ m.blk := fun ht => hnot (List.mem_append_right _ ht)
  obtain ⟨hlist, hframe⟩ := listInsertLast_spec h.runnable (not_mem_nodes hrun)
  refine h.withQueues (sameOff_enqueue h.runnable t) (by simpa using hlist) ?_
  refine h.blocked.frame fun x hx => ?_
  obtain ⟨s, hs, rfl⟩ := List.mem_map.mp hx
  refine hframe _ (not_mem_nodes fun hs' => ?_) fun e => ?_
  · exact (List.disjoint_of_nodup_append hqueues) hs' hs
  · exact hblk (threadListNode_injective e ▸ hs)

/-- `list_insert_last(&blocked_queue, ..)`. -/
theorem insertBlocked (h : Refines k m) {t : Nat} (nodup : (t :: (m.run ++ m.blk)).Nodup) :
    Refines (k.insertBlocked (threadListNode t)) { m with blk := m.blk ++ [t] } := by
  obtain ⟨hnot, hqueues⟩ := List.nodup_cons.mp nodup
  have hrun : t ∉ m.run := fun ht => hnot (List.mem_append_left _ ht)
  have hblk : t ∉ m.blk := fun ht => hnot (List.mem_append_right _ ht)
  obtain ⟨hlist, hframe⟩ := listInsertLast_spec h.blocked (not_mem_nodes hblk)
  refine h.withQueues (sameOff_enqueue h.blocked t) ?_ (by simpa using hlist)
  refine h.runnable.frame fun x hx => ?_
  obtain ⟨s, hs, rfl⟩ := List.mem_map.mp hx
  refine hframe _ (not_mem_nodes fun hs' => ?_) fun e => ?_
  · exact (List.disjoint_of_nodup_append hqueues) hs hs'
  · exact hrun (threadListNode_injective e ▸ hs)

theorem erase_nodes (xs : List Nat) (t : Nat) :
    (xs.map threadListNode).erase (threadListNode t) = (xs.erase t).map threadListNode :=
  (List.map_erase threadListNode_injective xs).symm

/-- `list_delete(&runnable_queue, ..)`. -/
theorem deleteRunnable (h : Refines k m) {t : Nat} (nodup : (m.run ++ m.blk).Nodup)
    (ht : t ∈ m.run) :
    Refines (k.deleteRunnable (threadListNode t)) { m with run := m.run.erase t } := by
  obtain ⟨hlist, -, hframe⟩ := listDelete_spec h.runnable (List.mem_map_of_mem ht)
  rw [erase_nodes] at hlist hframe
  refine h.withQueues (sameOff_dequeue h.runnable ht) hlist ?_
  refine h.blocked.frame fun x hx => ?_
  obtain ⟨s, hs, rfl⟩ := List.mem_map.mp hx
  exact hframe _ (not_mem_nodes fun hs' =>
    (List.disjoint_of_nodup_append nodup) (List.mem_of_mem_erase hs') hs)

/-- `list_delete(&blocked_queue, ..)`. -/
theorem deleteBlocked (h : Refines k m) {t : Nat} (nodup : (m.run ++ m.blk).Nodup)
    (ht : t ∈ m.blk) :
    Refines (k.deleteBlocked (threadListNode t)) { m with blk := m.blk.erase t } := by
  obtain ⟨hlist, -, hframe⟩ := listDelete_spec h.blocked (List.mem_map_of_mem ht)
  rw [erase_nodes] at hlist hframe
  refine h.withQueues (sameOff_dequeue h.blocked ht) ?_ hlist
  refine h.runnable.frame fun x hx => ?_
  obtain ⟨s, hs, rfl⟩ := List.mem_map.mp hx
  exact hframe _ (not_mem_nodes fun hs' =>
    (List.disjoint_of_nodup_append nodup) hs (List.mem_of_mem_erase hs'))

/-- Writing a TCB. -/
theorem setTcb (h : Refines k m) (t : Nat) (b : TCB) : Refines (k.setTcb t b) (m.setTcb t b) :=
  { h with tcb := by simp [Kernel.setTcb, Machine.setTcb, h.tcb] }

/-- Assigning the state of a thread. -/
theorem setState (h : Refines k m) (t : Nat) (st : ThreadState) :
    Refines (k.setState t st) (m.setState t st) := by
  unfold Kernel.setState Machine.setState
  rw [h.tcb]
  exact h.setTcb t _

/-- **Waking** a blocked thread. -/
theorem wake (h : Refines k m) {t : Nat} (nodup : (m.run ++ m.blk).Nodup) (ht : t ∈ m.blk) :
    Refines (k.wake t) (m.wake t) := by
  have hstate := h.setState t .runnable
  have hdelete := hstate.deleteBlocked nodup ht
  refine hdelete.insertRunnable ?_
  have hperm : (m.run ++ m.blk).Perm (t :: (m.run ++ m.blk.erase t)) :=
    ((List.perm_cons_erase ht).append_left m.run).trans List.perm_middle
  exact hperm.nodup_iff.mp nodup

/-- What a loop over the runnable queue meets. -/
theorem members_runnable (h : Refines k m) {hand : List Nat} (hq : m.Queues hand) :
    k.members k.runnableQueue = m.run := by
  have hlen : (m.run.map threadListNode).length ≤ k.bound := by
    rw [List.length_map, Kernel.bound, h.nextTid]
    refine Nat.le_trans (length_le_of_nodup_lt
      (hq.nodup.of_append_right).of_append_left fun t ht => ?_) (Nat.le_add_right _ _)
    exact hq.lt t (List.mem_append_right _ (List.mem_append_left _ ht))
  unfold Kernel.members listBegin
  rw [h.runnable.walk_eq hlen, List.map_map]
  exact List.map_id m.run

/-- What a loop over the blocked queue meets. -/
theorem members_blocked (h : Refines k m) {hand : List Nat} (hq : m.Queues hand) :
    k.members k.blockedQueue = m.blk := by
  have hlen : (m.blk.map threadListNode).length ≤ k.bound := by
    rw [List.length_map, Kernel.bound, h.nextTid]
    refine Nat.le_trans (length_le_of_nodup_lt
      (hq.nodup.of_append_right).of_append_right fun t ht => ?_) (Nat.le_add_right _ _)
    exact hq.lt t (List.mem_append_right _ (List.mem_append_right _ ht))
  unfold Kernel.members listBegin
  rw [h.blocked.walk_eq hlen, List.map_map]
  exact List.map_id m.blk

end Refines

end Pebbles
