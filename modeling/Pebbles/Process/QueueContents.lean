import Pebbles.Process.SchedulerRefinement
import Pebbles.Process.Switching

/-! # What the two queues hold

`Kernel.Queued k hand run blk` speaks about the two scheduler queues alone: they are well-formed
lists of `run` and `blk`, and the threads of `hand` are in neither. It says nothing about the states
of the threads or about the families, so it also fits a kernel that is in the middle of a system
call. The rules below say what the list operations and `schedule` do to it, and which nodes they
leave alone. -/

namespace Pebbles

open DoublyLinked

namespace Kernel

/-- **The contents of the queues**: `runnable_queue` holds `run`, `blocked_queue` holds `blk`, and
the threads of `hand` are in neither of them. -/
structure Queued (k : Kernel) (hand run blk : List Nat) : Prop where
  /-- The runnable queue. -/
  runnable : IsList k.links k.runnableQueue (run.map threadListNode)
  /-- The blocked queue. -/
  blocked : IsList k.links k.blockedQueue (blk.map threadListNode)
  /-- No thread has two places. -/
  nodup : (hand ++ (run ++ blk)).Nodup
  /-- Every thread with a place was created. -/
  lt : ∀ t ∈ hand ++ (run ++ blk), t < k.nextTid

/-- The queue node of `t` is not written. -/
def NodeKept (k k' : Kernel) (t : Nat) : Prop :=
  k'.links (threadListNode t) = k.links (threadListNode t)

theorem NodeKept.trans {k k1 k2 : Kernel} {t : Nat} (h : NodeKept k k1 t)
    (h' : NodeKept k1 k2 t) : NodeKept k k2 t :=
  Eq.trans h' h

namespace Queued

variable {k k' : Kernel} {hand run blk : List Nat} {t : Nat}

/-- Only the links, the two headers and the number of threads matter. -/
theorem congr (h : k.Queued hand run blk) (links : k'.links = k.links)
    (runnable : k'.runnableQueue = k.runnableQueue) (blocked : k'.blockedQueue = k.blockedQueue)
    (tid : k'.nextTid = k.nextTid) : k'.Queued hand run blk where
  runnable := by
    rw [links, runnable]
    exact h.runnable
  blocked := by
    rw [links, blocked]
    exact h.blocked
  nodup := h.nodup
  lt := by
    rw [tid]
    exact h.lt

/-- New places for the same threads. -/
theorem moved {hand' run' blk' : List Nat} (h : k.Queued hand run blk)
    (runnable : IsList k'.links k'.runnableQueue (run'.map threadListNode))
    (blocked : IsList k'.links k'.blockedQueue (blk'.map threadListNode))
    (tid : k'.nextTid = k.nextTid)
    (perm : (hand' ++ (run' ++ blk')).Perm (hand ++ (run ++ blk))) : k'.Queued hand' run' blk' where
  runnable := runnable
  blocked := blocked
  nodup := perm.nodup_iff.mpr h.nodup
  lt t ht := by
    rw [tid]
    exact h.lt t (perm.mem_iff.mp ht)

/-- The hand may be read in any order. -/
theorem reorder {hand' : List Nat} (h : k.Queued hand run blk) (perm : hand'.Perm hand) :
    k.Queued hand' run blk :=
  h.moved h.runnable h.blocked rfl (perm.append_right _)

/-! ## Who is where -/

theorem not_mem_run (h : k.Queued hand run blk) (ht : t ∈ hand) : t ∉ run := fun hmem =>
  (List.disjoint_of_nodup_append h.nodup) ht (List.mem_append_left _ hmem)

theorem not_mem_blk (h : k.Queued hand run blk) (ht : t ∈ hand) : t ∉ blk := fun hmem =>
  (List.disjoint_of_nodup_append h.nodup) ht (List.mem_append_right _ hmem)

theorem run_disjoint_blk (h : k.Queued hand run blk) (ht : t ∈ run) : t ∉ blk := fun hmem =>
  (List.disjoint_of_nodup_append h.nodup.of_append_right) ht hmem

theorem run_nodup (h : k.Queued hand run blk) : run.Nodup :=
  (h.nodup.of_append_right).of_append_left

theorem blk_nodup (h : k.Queued hand run blk) : blk.Nodup :=
  (h.nodup.of_append_right).of_append_right

/-- A loop over the runnable queue meets all of it. -/
theorem members_runnable (h : k.Queued hand run blk) : k.members k.runnableQueue = run := by
  have hlen : (run.map threadListNode).length ≤ k.bound := by
    rw [List.length_map, Kernel.bound]
    apply Nat.le_trans (length_le_of_nodup_lt h.run_nodup _) (Nat.le_add_right _ _)
    intro s hs
    exact h.lt s (List.mem_append_right _ (List.mem_append_left _ hs))
  unfold Kernel.members listBegin
  rw [h.runnable.walk_eq hlen, List.map_map]
  exact List.map_id run

/-- A loop over the blocked queue meets all of it. -/
theorem members_blocked (h : k.Queued hand run blk) : k.members k.blockedQueue = blk := by
  have hlen : (blk.map threadListNode).length ≤ k.bound := by
    rw [List.length_map, Kernel.bound]
    apply Nat.le_trans (length_le_of_nodup_lt h.blk_nodup _) (Nat.le_add_right _ _)
    intro s hs
    exact h.lt s (List.mem_append_right _ (List.mem_append_right _ hs))
  unfold Kernel.members listBegin
  rw [h.blocked.walk_eq hlen, List.map_map]
  exact List.map_id blk

/-! ## The list operations -/

theorem not_mem_nodes {xs : List Nat} (ht : t ∉ xs) : threadListNode t ∉ xs.map threadListNode :=
  Refines.not_mem_nodes ht

/-- **Inserting** a thread of the hand in the runnable queue. -/
theorem insertRunnable (h : k.Queued (t :: hand) run blk) :
    (k.insertRunnable (threadListNode t)).Queued hand (run ++ [t]) blk ∧
      ∀ w, w ∉ run → w ≠ t → NodeKept k (k.insertRunnable (threadListNode t)) w := by
  have hrun : t ∉ run := h.not_mem_run List.mem_cons_self
  have hblk : t ∉ blk := h.not_mem_blk List.mem_cons_self
  obtain ⟨hlist, hframe⟩ := listInsertLast_spec h.runnable (not_mem_nodes hrun)
  have hkept : ∀ w, w ∉ run → w ≠ t → NodeKept k (k.insertRunnable (threadListNode t)) w :=
    fun w hw hne => hframe _ (not_mem_nodes hw) fun e => hne (threadListNode_injective e)
  rw [← List.map_singleton, ← List.map_append] at hlist
  refine ⟨h.moved hlist (h.blocked.frame fun x hx => ?_) rfl ?_, hkept⟩
  · obtain ⟨s, hs, rfl⟩ := List.mem_map.mp hx
    apply hkept s (fun hs' => h.run_disjoint_blk hs' hs)
    rintro rfl
    exact hblk hs
  · rw [List.append_assoc, List.singleton_append, List.cons_append]
    exact (List.perm_middle.append_left hand).trans List.perm_middle

/-- **Inserting** a thread of the hand in the blocked queue. -/
theorem insertBlocked (h : k.Queued (t :: hand) run blk) :
    (k.insertBlocked (threadListNode t)).Queued hand run (blk ++ [t]) ∧
      ∀ w, w ∉ blk → w ≠ t → NodeKept k (k.insertBlocked (threadListNode t)) w := by
  have hrun : t ∉ run := h.not_mem_run List.mem_cons_self
  have hblk : t ∉ blk := h.not_mem_blk List.mem_cons_self
  obtain ⟨hlist, hframe⟩ := listInsertLast_spec h.blocked (not_mem_nodes hblk)
  have hkept : ∀ w, w ∉ blk → w ≠ t → NodeKept k (k.insertBlocked (threadListNode t)) w :=
    fun w hw hne => hframe _ (not_mem_nodes hw) fun e => hne (threadListNode_injective e)
  rw [← List.map_singleton, ← List.map_append] at hlist
  refine ⟨h.moved (h.runnable.frame fun x hx => ?_) hlist rfl ?_, hkept⟩
  · obtain ⟨s, hs, rfl⟩ := List.mem_map.mp hx
    apply hkept s (fun hs' => h.run_disjoint_blk hs hs')
    rintro rfl
    exact hrun hs
  · rw [List.cons_append, ← List.append_assoc run, ← List.append_assoc hand]
    exact List.perm_append_singleton _ _

/-- **Taking** a thread off the runnable queue. -/
theorem deleteRunnable (h : k.Queued hand run blk) (ht : t ∈ run) :
    (k.deleteRunnable (threadListNode t)).Queued (t :: hand) (run.erase t) blk ∧
      ∀ w, w ∉ run → NodeKept k (k.deleteRunnable (threadListNode t)) w := by
  obtain ⟨hlist, -, hframe⟩ := listDelete_spec h.runnable (List.mem_map_of_mem ht)
  rw [Refines.erase_nodes] at hlist hframe
  have hkept : ∀ w, w ∉ run → NodeKept k (k.deleteRunnable (threadListNode t)) w :=
    fun w hw => hframe _ (not_mem_nodes fun hmem => hw (List.mem_of_mem_erase hmem))
  refine ⟨h.moved hlist (h.blocked.frame fun x hx => ?_) rfl ?_, hkept⟩
  · obtain ⟨s, hs, rfl⟩ := List.mem_map.mp hx
    exact hkept s fun hs' => h.run_disjoint_blk hs' hs
  · have hrun : (t :: (run.erase t ++ blk)).Perm (run ++ blk) :=
      (List.perm_cons_erase ht).symm.append_right blk
    exact List.perm_middle.symm.trans (hrun.append_left hand)

/-- **Taking** a thread off the blocked queue. -/
theorem deleteBlocked (h : k.Queued hand run blk) (ht : t ∈ blk) :
    (k.deleteBlocked (threadListNode t)).Queued (t :: hand) run (blk.erase t) ∧
      ∀ w, w ∉ blk → NodeKept k (k.deleteBlocked (threadListNode t)) w := by
  obtain ⟨hlist, -, hframe⟩ := listDelete_spec h.blocked (List.mem_map_of_mem ht)
  rw [Refines.erase_nodes] at hlist hframe
  have hkept : ∀ w, w ∉ blk → NodeKept k (k.deleteBlocked (threadListNode t)) w :=
    fun w hw => hframe _ (not_mem_nodes fun hmem => hw (List.mem_of_mem_erase hmem))
  refine ⟨h.moved (h.runnable.frame fun x hx => ?_) hlist rfl ?_, hkept⟩
  · obtain ⟨s, hs, rfl⟩ := List.mem_map.mp hx
    exact hkept s (h.run_disjoint_blk hs)
  · have hblk : (run ++ t :: blk.erase t).Perm (run ++ blk) :=
      (List.perm_cons_erase ht).symm.append_left run
    have hmid : (t :: (run ++ blk.erase t)).Perm (run ++ blk) := List.perm_middle.symm.trans hblk
    exact List.perm_middle.symm.trans (hmid.append_left hand)

/-- **Waking** a blocked thread. -/
theorem wake (h : k.Queued hand run blk) (ht : t ∈ blk) :
    (k.wake t).Queued hand (run ++ [t]) (blk.erase t) ∧
      ∀ w, w ∉ run → w ∉ blk → NodeKept k (k.wake t) w := by
  have hstate : (k.setState t .runnable).Queued hand run blk := h.congr rfl rfl rfl rfl
  obtain ⟨hdelete, hkept⟩ := hstate.deleteBlocked ht
  obtain ⟨hinsert, hkept'⟩ := hdelete.insertRunnable
  refine ⟨hinsert, fun w hrun hblk => ?_⟩
  apply (hkept w hblk).trans
  apply hkept' w hrun
  rintro rfl
  exact hblk ht

end Queued

end Kernel

/-- The queues of a kernel are those of the machine it refines. -/
theorem Refines.queued {k : Kernel} {m : Machine} {hand : List Nat} (h : Refines k m)
    (hq : m.Queues hand) : k.Queued hand m.run m.blk where
  runnable := h.runnable
  blocked := h.blocked
  nodup := hq.nodup
  lt := by
    rw [h.nextTid]
    exact hq.lt

end Pebbles
