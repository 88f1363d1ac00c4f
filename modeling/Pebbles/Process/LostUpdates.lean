import Pebbles.Process.InterruptedUpdates
import Pebbles.Process.NextThread

/-! # Interrupted queue updates: nobody is lost, or somebody is

`Kernel.AccountsFor k ts` says that every thread of `ts` is the current one or reachable from the
head of exactly one queue, and that the lengths are right. It holds after an update that survives
its interrupt. It does not hold after one that was interrupted in the middle of the linking:
`schedule` put the interrupted thread behind the old tail, so the new thread is in no queue. -/

namespace Pebbles

open DoublyLinked Transition

namespace Kernel

variable {k k1 k2 k3 : Kernel} {j c count : Nat} {run blk ts all : List Nat} {fresh : Prop}
  {p entry : UpdatePoint}

/-! ## Everybody is accounted for -/

/-- **The queues account for `ts`**: along `next` they hold `run` and `blk`, as many as their
lengths say, and every thread of `ts` is current or in exactly one of them. -/
structure Accounts (k : Kernel) (ts run blk : List Nat) : Prop where
  /-- What is reachable from the head of the runnable queue. -/
  runnable : Visits (fun x => (k.links x).next) k.runnableQueue.head (run.map threadListNode)
  /-- What is reachable from the head of the blocked queue. -/
  blocked : Visits (fun x => (k.links x).next) k.blockedQueue.head (blk.map threadListNode)
  /-- The length of the runnable queue. -/
  runnableLength : k.runnableQueue.length = run.length
  /-- The length of the blocked queue. -/
  blockedLength : k.blockedQueue.length = blk.length
  /-- Every thread has one place. -/
  place : ∀ t ∈ ts, t = k.currentThread ∨ t ∈ run ∧ t ∉ blk ∨ t ∉ run ∧ t ∈ blk

/-- Every thread of `ts` has one place, and the lengths are right. -/
def AccountsFor (k : Kernel) (ts : List Nat) : Prop := ∃ run blk, k.Accounts ts run blk

/-- Who is reachable is determined: a thread that is in neither queue and not current is lost. -/
theorem not_accountsFor (runnable : Visits (fun x => (k.links x).next) k.runnableQueue.head
      (run.map threadListNode))
    (blocked : Visits (fun x => (k.links x).next) k.blockedQueue.head (blk.map threadListNode))
    (mem : j ∈ ts) (idle : j ≠ k.currentThread) (hrun : j ∉ run) (hblk : j ∉ blk) :
    ¬ k.AccountsFor ts := by
  rintro ⟨run', blk', haccounts⟩
  have hinj := List.map_injective_iff.mpr threadListNode_injective
  obtain rfl := hinj (haccounts.runnable.unique runnable)
  obtain rfl := hinj (haccounts.blocked.unique blocked)
  rcases haccounts.place j mem with heq | ⟨hmem, -⟩ | ⟨-, hmem⟩
  · exact idle heq
  · exact hrun hmem
  · exact hblk hmem

/-- **A complete update accounts for everybody.** -/
theorem Midway.accounts (h : Midway all j fresh k run blk .done) : k.Accounts all run blk := by
  obtain ⟨n, -, hloose⟩ := h.stage
  obtain ⟨⟨k', htwin, hq⟩, -⟩ := id hloose
  refine ⟨hloose.visits_runnable rfl, hloose.visits_blocked, ?_, ?_, fun t ht => ?_⟩
  · have hlength : k'.runnableQueue.length = k.runnableQueue.length + 0 := htwin.runnable.length
    rw [← Int.add_zero k.runnableQueue.length, ← hlength, hq.runnable.length, List.length_map]
  · have hlength : k'.blockedQueue.length = k.blockedQueue.length + 0 := htwin.blocked.length
    rw [← Int.add_zero k.blockedQueue.length, ← hlength, hq.blocked.length, List.length_map]
  · rcases List.mem_cons.mp (h.perm.mem_iff.mpr ht) with heq | hmem
    · exact Or.inl heq
    · rcases List.mem_append.mp (List.mem_append.mp hmem |>.resolve_left nofun) with hrun | hblk
      · exact Or.inr (Or.inl ⟨hrun, hq.run_disjoint_blk hrun⟩)
      · exact Or.inr (Or.inr ⟨fun hrun => hq.run_disjoint_blk hrun hblk, hblk⟩)

/-- Fewer threads are accounted for all the more. -/
theorem AccountsFor.subset {ts' : List Nat} (h : k.AccountsFor ts) (sub : ts' ⊆ ts) :
    k.AccountsFor ts' := by
  obtain ⟨run, blk, haccounts⟩ := h
  exact ⟨run, blk, { haccounts with place := fun t ht => haccounts.place t (sub ht) }⟩

/-- **The rest of the update accounts for everybody**: it goes through, and then every thread of
`ts` has one place and the lengths are right. -/
def KeepsAll (k : Kernel) (j : Nat) (p : UpdatePoint) (ts : List Nat) : Prop :=
  ∃ k', k.Completes (threadListNode j) p k' ∧ k'.AccountsFor ts

/-! ## Before an update -/

/-- **An update is about to start**: `sys_fork` and `sys_thread_fork` insert a thread that is in no
queue, `sys_make_runnable` moves a blocked one; the thread that makes the call is not thread 1. -/
structure AtUpdate (k : Kernel) (j : Nat) (run blk : List Nat) (entry : UpdatePoint) : Prop where
  /-- Where it starts. -/
  point : entry = .testEmpty ∨ entry = .testPrev ∧ j ∈ blk
  /-- The queues. -/
  queued : k.Queued (entry.hand k.currentThread j) run blk
  /-- The thread that makes the call. -/
  running : (k.tcb k.currentThread).state.ready = true
  /-- The thread that is inserted or moved. -/
  moved : (k.tcb j).state.ready = true
  /-- The threads of the runnable queue are ready. -/
  ready : ∀ t ∈ run, (k.tcb t).state.ready = true
  /-- Thread 1 makes no such call. -/
  busy : k.currentThread ≠ 1
  /-- It can run. -/
  one : 1 ∈ run

namespace AtUpdate

/-- The first stage. -/
theorem midway (h : k.AtUpdate j run blk entry) :
    Midway (entry.hand k.currentThread j ++ (run ++ blk)) j True k run blk entry := by
  have hqueued := h.queued
  rcases h.point with rfl | ⟨rfl, hj⟩
  · exact ⟨⟨none, fun _ => rfl, loose_exact.mpr hqueued⟩, .refl _, h.ready, fun _ => h.moved,
      List.mem_cons_of_mem _ h.one⟩
  · exact ⟨⟨hqueued, hj⟩, .refl _, h.ready, fun _ => h.moved, List.mem_cons_of_mem _ h.one⟩

/-- Everybody that the claims of an update speak about has a place before it. -/
theorem subset (h : k.AtUpdate j run blk entry) :
    k.currentThread :: j :: (run ++ blk) ⊆ entry.hand k.currentThread j ++ (run ++ blk) := by
  rcases h.point with rfl | ⟨rfl, hj⟩
  · exact List.Subset.refl _
  · intro t ht
    rcases List.mem_cons.mp ht with rfl | hmem
    · exact List.mem_cons_self
    · rcases List.mem_cons.mp hmem with rfl | hrest
      · exact List.mem_cons_of_mem _ (List.mem_append_right run hj)
      · exact List.mem_cons_of_mem _ hrest

/-- The first statement can be executed. -/
theorem executable (h : k.AtUpdate j run blk entry) : k.Executable j entry := by
  rcases h.point with rfl | ⟨rfl, -⟩ <;> nofun

end AtUpdate

/-! ## Where updates start -/

/-- `sys_thread_fork` before its insertion in the runnable queue. -/
def threadForkBlocks (k : Kernel) : Kernel :=
  let k1 := { k with nextTid := k.nextTid + 1 }
  let k2 := k1.setTcb k.nextTid
    { k1.tcb k.nextTid with pcb := k.currentPcb, state := .init, resume := .userMode }
  { k2 with links :=
      (listInsertLast k2.links (k.pcb k.currentPcb).threads (some (peerThreadsNode k.nextTid))).1 }

theorem sysThreadFork_eq (k : Kernel) :
    k.sysThreadFork.1 = k.threadForkBlocks.insertRunnable (threadListNode k.nextTid) := rfl

/-- `sys_fork` before its insertion in the runnable queue. -/
def forkQueued (k : Kernel) : Kernel :=
  let k1 := k.forkBlocks
  let q := listInsertLast k1.links k1.processQueue (some (allProcessesNode k.nextPid))
  { k1 with links := q.1, processQueue := q.2 }

theorem sysFork_eq (k : Kernel) :
    (k.sysFork .ok).1 = k.forkQueued.insertRunnable (threadListNode k.nextTid) := rfl

/-- The queues of a represented kernel. -/
theorem queued_of_refines {m : Machine} (h : Refines k m) {hand : List Nat}
    (nodup : (hand ++ (m.run ++ m.blk)).Nodup)
    (lt : ∀ t ∈ hand ++ (m.run ++ m.blk), t < m.nextTid) : k.Queued hand m.run m.blk :=
  ⟨h.runnable, h.blocked, nodup, by rw [h.nextTid]; exact lt⟩

/-- **A new thread about to be inserted**, in a kernel with the queues of a machine. -/
theorem atUpdate_insert {m : Machine} {k0 : Kernel} (wf : m.Wf) (one : 1 ∈ m.run)
    (busy : m.current ≠ 1) (runnable : IsList k0.links k0.runnableQueue (m.run.map threadListNode))
    (blocked : IsList k0.links k0.blockedQueue (m.blk.map threadListNode))
    (current : k0.currentThread = m.current) (tid : k0.nextTid = m.nextTid + 1)
    (new : (k0.tcb m.nextTid).state.ready = true)
    (old : ∀ t, t ≠ m.nextTid → k0.tcb t = m.tcb t) :
    k0.AtUpdate m.nextTid m.run m.blk .testEmpty where
  point := Or.inl rfl
  queued := by
    have hnew : m.nextTid ∉ m.current :: (m.run ++ m.blk) := fun hmem =>
      Nat.lt_irrefl _ (wf.queues.lt _ hmem)
    rw [current]
    refine ⟨runnable, blocked, (List.Perm.swap _ _ _).nodup_iff.mp
      (List.nodup_cons.mpr ⟨hnew, wf.queues.nodup⟩), fun t ht => ?_⟩
    rw [tid]
    rcases List.mem_cons.mp ht with rfl | hmem
    · exact Nat.lt_succ_of_lt (wf.queues.lt _ List.mem_cons_self)
    · rcases List.mem_cons.mp hmem with rfl | hrest
      · exact Nat.lt_succ_self _
      · exact Nat.lt_succ_of_lt (wf.queues.lt _ (List.mem_cons_of_mem _ hrest))
  running := by
    rw [current, old _ (Nat.ne_of_lt (wf.queues.lt _ List.mem_cons_self))]
    exact wf.ready
  moved := new
  ready t ht := by
    rw [old t (Nat.ne_of_lt (wf.queues.lt t (List.mem_append_right _ (List.mem_append_left _ ht))))]
    exact wf.queues.run_ready t ht
  busy := by rw [current]; exact busy
  one := one

/-- **The updates of reachable states.** When a thread other than thread 1 makes a system call,
`sys_thread_fork`, `sys_fork` and `sys_make_runnable` come to their updates in such states. -/
theorem Reaches.atUpdate {as : List Action} (h : Reaches as k) (busy : k.currentThread ≠ 1) :
    ∃ run blk, k.threadForkBlocks.AtUpdate k.nextTid run blk .testEmpty ∧
      k.forkQueued.AtUpdate k.nextTid run blk .testEmpty ∧
        ∀ t ∈ blk, (k.setState t .runnable).AtUpdate t run blk .testPrev := by
  obtain ⟨m, ⟨href, wf⟩, hidle⟩ := h.machine_invariant (I := fun _ m => m.IdleReady)
    Machine.IdleReady.boot fun _ _ _ _ _ hm _ hs _ hI => hI.step hm.2 hs
  have hbusy : m.current ≠ 1 := by
    rw [← href.current]
    exact busy
  have hone : 1 ∈ m.run := by
    rcases List.mem_cons.mp hidle.placed with hcur | hmem
    · exact absurd hcur.symm hbusy
    · refine (List.mem_append.mp hmem).resolve_right fun hblk => ?_
      have hready := hidle.ready
      rw [Machine.ready_of_suspended (wf.queues.blk_suspended 1 hblk)] at hready
      cases hready
  refine ⟨m.run, m.blk, ?_, ?_, fun t ht => ?_⟩
  · have hoff := href.sameOff_insertPeer k.currentPcb k.nextTid
    rw [href.nextTid]
    refine atUpdate_insert wf hone hbusy ?_ ?_ href.current (congrArg (· + 1) href.nextTid) ?_ ?_
    · exact hoff.isList (fun _ => by simp [threadListNode]) href.runnable
    · exact hoff.isList (fun _ => by simp [threadListNode]) href.blocked
    · simp [threadForkBlocks, setTcb, href.nextTid, ThreadState.ready]
    · intro t ht
      simp [threadForkBlocks, setTcb, href.nextTid, href.tcb, ht]
  · have hfork := (href.forkBlocks wf).insertProcess k.nextPid
    rw [href.nextTid]
    refine atUpdate_insert wf hone hbusy hfork.runnable hfork.blocked hfork.current hfork.nextTid
      ?_ fun t ht => ?_
    · have htcb : k.forkQueued.tcb = m.forkBlocks.tcb := hfork.tcb
      rw [htcb, Machine.forkBlocks_tcb, if_pos rfl]
      rfl
    · have htcb : k.forkQueued.tcb = m.forkBlocks.tcb := hfork.tcb
      rw [htcb, Machine.forkBlocks_tcb, if_neg ht]
  · have hqueued := queued_of_refines href wf.queues.nodup wf.queues.lt
    rw [← href.current] at hqueued
    have hne : ∀ w ∈ m.current :: m.run, w ≠ t := by
      rintro w hw rfl
      rcases List.mem_cons.mp hw with rfl | hrun
      · exact hqueued.not_mem_blk (href.current ▸ List.mem_cons_self) ht
      · exact hqueued.run_disjoint_blk hrun ht
    have hready : ∀ w ∈ m.current :: m.run,
        ((k.setState t .runnable).tcb w).state.ready = true := by
      intro w hw
      rw [setState_state, if_neg (hne w hw), href.tcb]
      rcases List.mem_cons.mp hw with rfl | hrun
      · exact wf.ready
      · exact wf.queues.run_ready w hrun
    refine ⟨Or.inr ⟨rfl, ht⟩, hqueued.congr rfl rfl rfl rfl, ?_, ?_,
      fun w hw => hready w (List.mem_cons_of_mem _ hw), busy, hone⟩
    · exact hready _ (href.current ▸ List.mem_cons_self)
    · rw [setState_state, if_pos rfl]
      rfl

/-! ## Interrupted where it does not matter -/

/-- **An update that survives its interrupt loses nobody.** -/
theorem AtUpdate.survives {us : List Turn} (h : k.AtUpdate j run blk entry)
    (before : statements (threadListNode j) count (k, entry) = some (k1, p))
    (interlude : Run (Guarded (TurnStep k.currentThread) (Clear j p)) k1 us k2)
    (resumed : k2.currentThread = k.currentThread) (executable : k2.Executable j p) :
    k2.KeepsAll j p (k.currentThread :: j :: (run ++ blk)) := by
  obtain ⟨run1, blk1, h1, hrest, -⟩ := h.midway.statements h.busy h.executable before
  have hcur : k1.currentThread = k.currentThread := congrArg (·.currentThread) hrest
  have htcb : k1.tcb = k.tcb := congrArg (·.tcb) hrest
  have hready : (k1.tcb k1.currentThread).state.ready = true := by
    rw [hcur, htcb]
    exact h.running
  obtain ⟨run2, blk2, h2, -⟩ := (h1.weaken fun _ => trivial).turns hready interlude
  have hbusy : k2.currentThread ≠ 1 := by
    rw [resumed]
    exact h.busy
  obtain ⟨k3, run3, blk3, hcomplete, h3, -⟩ := h2.completes hbusy executable
  exact ⟨k3, hcomplete, AccountsFor.subset ⟨run3, blk3, h3.accounts⟩ h.subset⟩

/-! ## Interrupted in the middle of the linking -/

/-- The statements after the linking leave the heads alone, and write no `next` field but that of
the new node. -/
theorem completes_linking (x : NodePtr) (hp : p.linking = true) :
    ∃ k', k.Completes x p k' ∧ k'.runnableQueue.head = k.runnableQueue.head ∧
      k'.blockedQueue = k.blockedQueue ∧ k'.currentThread = k.currentThread ∧
        ∀ y, y ≠ x → (k'.links y).next = (k.links y).next := by
  cases p with
  | linkPrev =>
      refine ⟨_, .next rfl (.next rfl (.next rfl (.next rfl .done))), rfl, rfl, rfl, fun y hy => ?_⟩
      show (setNext (setPrev k.links x k.runnableQueue.tail) x none y).next = _
      rw [setNext_of_ne _ _ hy, setPrev_of_ne _ _ hy]
  | clearNext =>
      refine ⟨_, .next rfl (.next rfl (.next rfl .done)), rfl, rfl, rfl, fun y hy => ?_⟩
      show (setNext k.links x none y).next = _
      rw [setNext_of_ne _ _ hy]
  | moveLast => exact ⟨_, .next rfl (.next rfl .done), rfl, rfl, rfl, fun y _ => rfl⟩
  | _ => cases hp

/-- In the middle of the linking the old tail points at `j`. -/
theorem Stage.linking (h : k.Stage j fresh run blk p) (hp : p.linking = true) :
    ∃ t, k.Linking j t fresh run blk := by
  cases p with
  | linkPrev => exact h
  | clearNext | moveLast =>
      obtain ⟨t, hlink, -⟩ := h
      exact ⟨t, hlink⟩
  | _ => cases hp

/-- **After the call of `schedule` the new thread is out of the lists**: the interrupted one was put
behind the old tail, so that the queues are right again, as they were before the linking. -/
theorem Midway.timer_linking (h : Midway all j True k run blk p) (hp : p.linking = true)
    (many : 2 ≤ run.length) (busy : k.currentThread ≠ 1)
    (state : (k.tcb k.currentThread).state.ready = true) (hs : k.turn c .timer = some k1) :
    ∃ run1 blk1, Midway all j True k1 run1 blk1 .testEmpty ∧
      (k1.tcb k1.currentThread).state.ready = true := by
  obtain ⟨-, ⟨hu, -⟩ | ⟨k0, tid, hcall, hs⟩⟩ := turn_cases hs
  · cases hu
  · cases hcall
    have hticked : Midway all j True k.ticked run blk p :=
      h.congr rfl rfl rfl rfl rfl fun _ _ => rfl
    obtain ⟨t, hlast, -, n, fine, hloose⟩ := hticked.stage.linking hp
    obtain rfl := fine trivial
    obtain ⟨hand', run1, blk1, heff, hloose', -⟩ := hloose.schedule
      (fun _ _ => ⟨nofun, Or.inl trivial⟩) (Or.inl trivial) (Or.inr ⟨rfl, many, busy, state⟩) hs
    obtain rfl := heff.hand_eq (Machine.ne_exit_of_ready state)
    have hbetween : p.between j = UpdatePoint.testEmpty.between j := by
      cases p <;> first | rfl | cases hp
    refine ⟨run1, blk1, hticked.rescheduled (Or.inl state) hs ?_ ⟨none, fun _ => rfl, hloose'⟩ ?_⟩
    · rw [hbetween]
      exact heff
    · intro _
      cases p <;> first | rfl | cases hp

/-- **An update that is interrupted in the middle of the linking loses the new thread.** -/
theorem AtUpdate.loses {us : List Turn} (h : k.AtUpdate j run blk entry)
    (before : statements (threadListNode j) count (k, entry) = some (k1, p))
    (linking : p.linking = true) (many : 2 ≤ run.length)
    (interlude : Run (TurnStep k.currentThread) k1 (.timer :: us) k2) :
    ¬ k2.KeepsAll j p (k.currentThread :: j :: (run ++ blk)) := by
  have hpending : p.pending = true := by cases p <;> first | rfl | cases linking
  obtain ⟨run1, blk1, h1, hrest, hrun1⟩ := h.midway.statements h.busy h.executable before
  obtain rfl := (hrun1 hpending).2
  have hcur : k1.currentThread = k.currentThread := congrArg (·.currentThread) hrest
  have htcb : k1.tcb = k.tcb := congrArg (·.tcb) hrest
  obtain ⟨k', hfirst, hlater⟩ := interlude.uncons
  obtain ⟨run', blk', h', hready'⟩ := h1.timer_linking linking many
    (by rw [hcur]; exact h.busy) (by rw [hcur, htcb]; exact h.running) hfirst
  -- the queues without `j` stay right, whatever the other threads do
  obtain ⟨run2, blk2, h2, -⟩ := (h'.weaken fun _ => trivial).turns (c := k.currentThread) hready'
    (hlater.mono fun u t v hstep => ⟨hstep, fun _ _ _ => ⟨rfl, nofun⟩⟩)
  obtain ⟨n, -, hloose⟩ := h2.stage
  obtain ⟨⟨k4, -, hq⟩, -⟩ := id hloose
  have hj : j ∈ [k2.currentThread, j] := List.mem_cons_of_mem _ (List.mem_singleton_self j)
  have hrun2 := hq.not_mem_run hj
  have hblk2 := hq.not_mem_blk hj
  obtain ⟨k3, hcomplete, hhead, hblocked, hcur3, hlinks⟩ := k2.completes_linking _ linking
  rintro ⟨k5, hcomplete', haccounts⟩
  obtain rfl := hcomplete.unique hcomplete'
  refine not_accountsFor ?_ ?_ (List.mem_cons_of_mem _ List.mem_cons_self) ?_ hrun2 hblk2 haccounts
  · rw [hhead]
    apply (hloose.visits_runnable rfl).congr
    intro x hx
    refine (hlinks x ?_).symm
    rintro rfl
    exact Queued.not_mem_nodes hrun2 hx
  · rw [hblocked]
    apply hloose.visits_blocked.congr
    intro x hx
    refine (hlinks x ?_).symm
    rintro rfl
    exact Queued.not_mem_nodes hblk2 hx
  · rw [hcur3]
    rintro rfl
    exact (List.nodup_cons.mp hq.nodup).1 (by simp)

/-! ## Interrupted updates -/

/-- **Queue updates and timer interrupts.** An update is interrupted between two statements by a
timer interrupt that calls `schedule(-1)`, and goes on after any number of turns of other threads.
If every turn meets the condition `Clear` of the point of interruption, and the predecessor that
`list_delete` has tested is still there, then afterwards everybody is accounted for: the current
thread, the new one, and all threads of both queues. An update that was interrupted in the middle
of the linking, with two threads in the runnable queue, never accounts for everybody. -/
theorem update_interrupted {us : List Turn} (h : k.AtUpdate j run blk entry)
    (before : statements (threadListNode j) count (k, entry) = some (k1, p))
    (interlude : Run (TurnStep k.currentThread) k1 (.timer :: us) k2)
    (resumed : k2.currentThread = k.currentThread) :
    (Run (Guarded (TurnStep k.currentThread) (Clear j p)) k1 (.timer :: us) k2 →
        k2.Executable j p → k2.KeepsAll j p (k.currentThread :: j :: (run ++ blk))) ∧
      (p.linking = true → 2 ≤ run.length →
        ¬ k2.KeepsAll j p (k.currentThread :: j :: (run ++ blk))) :=
  ⟨fun clear executable => h.survives before clear resumed executable,
    fun linking many => h.loses before linking many interlude⟩

/-- `init` has forked a child, and 29 timer interrupts have come. -/
def forkedAtTick : Kernel :=
  (trace (List.replicate 29 .timer ++ [.call (.fork .ok)])).2

/-- When `init` forks again, the update starts with `idle` and the first child in the queue. -/
theorem forkedAtTick_atUpdate : forkedAtTick.forkQueued.AtUpdate 4 [1, 3] [] .testEmpty := by
  have hreach : Reaches _ forkedAtTick :=
    reaches_trace (List.replicate 29 .timer ++ [.call (.fork .ok)]) (by decide +kernel)
  obtain ⟨run, blk, -, h, -⟩ := hreach.atUpdate (by decide +kernel)
  have htid : forkedAtTick.nextTid = 4 := by decide +kernel
  rw [htid] at h
  obtain rfl : run = [1, 3] := by
    rw [← h.queued.members_runnable]
    decide +kernel
  obtain rfl : blk = [] := by
    rw [← h.queued.members_blocked]
    decide +kernel
  exact h

/-- The turns until `init` goes on: `idle` runs for a while, then the child, which yields
to `init`. -/
def turnsAside : List Turn := .timer :: (List.replicate 29 .tick ++ [.timer, .yield 2])

/-- A checked interruption of the second fork, after `count` statements. -/
theorem forkedAtTick_interrupted
    (h : ((statements (threadListNode 4) count (forkedAtTick.forkQueued, .testEmpty)).bind fun x =>
      if x.2 = p then (runList (turn 2) x.1 turnsAside).map (·.currentThread) else none) = some 2) :
    ∃ k1 k2, statements (threadListNode 4) count (forkedAtTick.forkQueued, .testEmpty) =
        some (k1, p) ∧
      Run (TurnStep 2) k1 turnsAside k2 ∧ k2.currentThread = 2 := by
  obtain ⟨⟨k1, p1⟩, hstmt, hrest⟩ := Option.bind_eq_some_iff.mp h
  split_ifs at hrest with hp
  obtain rfl : p1 = p := hp
  obtain ⟨k2, hturns, hcur⟩ := Option.map_eq_some_iff.mp hrest
  exact ⟨k1, k2, hstmt, Run.of_runList hturns, hcur⟩

/-- Interrupted before the length is counted, the second fork loses nobody. -/
theorem update_interrupted_countUp :
    ∃ k1 k2, statements (threadListNode 4) 5 (forkedAtTick.forkQueued, .testEmpty) =
        some (k1, .countUp) ∧
      Run (TurnStep 2) k1 turnsAside k2 ∧ k2.KeepsAll 4 .countUp [2, 4, 1, 3] := by
  obtain ⟨k1, k2, hstmt, hrun, hcur⟩ :=
    @forkedAtTick_interrupted 5 .countUp (by decide +kernel)
  have hstart : forkedAtTick.forkQueued.currentThread = 2 := by decide +kernel
  refine ⟨k1, k2, hstmt, hrun, ?_⟩
  rw [← hstart] at hrun hcur
  have h := (update_interrupted forkedAtTick_atUpdate hstmt hrun hcur).1
    (hrun.mono fun _ _ _ hstep => ⟨hstep, fun _ _ _ => ⟨rfl, nofun⟩⟩) nofun
  rw [hstart] at h
  exact h

/-- **The second fork loses the child** when the timer interrupt comes after the old tail was
pointed at it and before the tail was moved. -/
theorem update_interrupted_linkPrev :
    ∃ as k1 k2, Reaches as forkedAtTick ∧
      statements (threadListNode 4) 2 (forkedAtTick.forkQueued, .testEmpty) =
        some (k1, .linkPrev) ∧
      Run (TurnStep 2) k1 turnsAside k2 ∧ k2.currentThread = 2 ∧
        ¬ k2.KeepsAll 4 .linkPrev [2, 4, 1, 3] := by
  have hreach : Reaches _ forkedAtTick :=
    reaches_trace (List.replicate 29 .timer ++ [.call (.fork .ok)]) (by decide +kernel)
  obtain ⟨k1, k2, hstmt, hrun, hcur⟩ := @forkedAtTick_interrupted 2 .linkPrev (by decide +kernel)
  have hstart : forkedAtTick.forkQueued.currentThread = 2 := by decide +kernel
  refine ⟨_, k1, k2, hreach, hstmt, hrun, hcur, ?_⟩
  rw [← hstart] at hrun
  have h := forkedAtTick_atUpdate.loses hstmt rfl (by decide) hrun
  rw [hstart] at h
  exact h

end Kernel

end Pebbles
