import Pebbles.Process.Refinement

/-! # Scheduling refines

The kernel's `schedule`, the interrupts and the thread management calls do on the pointers what
the abstract machine does on the sequences. The one loop that modifies the queue it walks, at the
start of `schedule`, ends with the first node it moves. -/

namespace Pebbles

open DoublyLinked

namespace Refines

variable {k : Kernel} {m : Machine}

/-! ## The loop over the sleepers -/

/-- The node just woken is the last of the runnable queue. -/
theorem wake_next (k : Kernel) (t : Nat) : ((k.wake t).links (threadListNode t)).next = none :=
  listInsertLast_next

theorem wakeSleepersFrom_none (k : Kernel) (fuel : Nat) : k.wakeSleepersFrom fuel none = k := by
  cases fuel <;> rfl

/-- **The loop wakes the first sleeper whose time has come**, and no other: the induction is on the
part `bs` of the queue that is still ahead. -/
theorem wakeSleepersFrom_eq {k : Kernel} (as bs : List Nat) {fuel : Nat}
    (h : IsList k.links k.blockedQueue ((as ++ bs).map threadListNode))
    (hfuel : bs.length ≤ fuel) :
    k.wakeSleepersFrom fuel (bs.head?.map threadListNode) =
      match bs.find? k.sleepOver with
      | some t => k.wake t
      | none => k := by
  induction bs generalizing as fuel with
  | nil => exact wakeSleepersFrom_none k fuel
  | cons t bs ih =>
      cases fuel with
      | zero => simp at hfuel
      | succ fuel =>
          have hsplit : (as ++ t :: bs).map threadListNode =
              as.map threadListNode ++ threadListNode t :: bs.map threadListNode := by
            rw [List.map_append, List.map_cons]
          have hnext : (k.links (threadListNode t)).next = bs.head?.map threadListNode := by
            rw [hsplit] at h
            rw [h.next_eq, List.head?_map]
          rw [List.head?_cons, Option.map_some, Kernel.wakeSleepersFrom]
          show (let k' := if k.sleepOver t then k.wake t else k
            k'.wakeSleepersFrom fuel (k'.links (threadListNode t)).next) = _
          by_cases hover : k.sleepOver t = true
          · -- the moved node has no successor any more: the loop ends here
            simp only [hover, if_true, List.find?_cons_of_pos, wake_next]
            exact wakeSleepersFrom_none _ fuel
          · simp only [hover, if_false, List.find?_cons_of_neg, not_false_eq_true, hnext,
              Bool.false_eq_true]
            have h' : IsList k.links k.blockedQueue (((as ++ [t]) ++ bs).map threadListNode) := by
              simpa using h
            exact ih _ h' (by simpa using hfuel)

theorem sleepOver_eq (h : Refines k m) : k.sleepOver = m.sleepOver := by
  funext t
  simp only [Kernel.sleepOver, Machine.sleepOver, h.tcb, h.numTicks]

/-- Waking the sleepers. -/
theorem wakeSleepers (h : Refines k m) {hand : List Nat} (hq : m.Queues hand) :
    Refines k.wakeSleepers m.wakeSleepers := by
  have hlen : m.blk.length ≤ k.bound := by
    have hmem := h.members_blocked hq
    have hwalk : (walk k.links k.bound (listBegin k.blockedQueue)).length ≤ k.bound :=
      walk_length_le _ _ _
    rw [← hmem, Kernel.members, List.length_map]
    exact hwalk
  have hloop := wakeSleepersFrom_eq [] m.blk h.blocked hlen
  have hnodup : (m.run ++ m.blk).Nodup := hq.nodup.of_append_right
  unfold Kernel.wakeSleepers Machine.wakeSleepers
  rw [listBegin, h.blocked.head, List.head?_map, hloop, h.sleepOver_eq]
  cases hfind : m.blk.find? m.sleepOver with
  | none => exact h
  | some t => exact h.wake hnodup (List.mem_of_find?_eq_some hfind)

/-! ## The parts of `schedule` -/

theorem runnable_length (h : Refines k m) : k.runnableQueue.length = 0 ↔ m.run = [] := by
  rw [h.runnable.length]
  simp

/-- The head of the runnable queue is taken off. -/
theorem takeFirst (h : Refines k m) {t : Nat} {ts : List Nat} (hrun : m.run = t :: ts) :
    k.takeNext (-1) = some (t, k.deleteRunnable (threadListNode t)) := by
  have hhead : k.runnableQueue.head = some (threadListNode t) := by
    rw [h.runnable.head, hrun]
    rfl
  have hret := (listDelete_spec h.runnable (j := threadListNode t)
    (List.mem_map_of_mem (by rw [hrun]; exact List.mem_cons_self))).2.1
  simp only [Kernel.takeNext, if_true, listDeleteFirst, hhead, hret, Option.map_some]
  rfl

/-- Choosing the next thread. -/
theorem takeNext (h : Refines k m) {hand : List Nat} (hq : m.Queues hand) {tid : Int} {t : Nat}
    {k1 : Kernel} (hs : k.takeNext tid = some (t, k1)) :
    ∃ m1, m.takeNext tid = some (t, m1) ∧ Refines k1 m1 := by
  have hnodup : (m.run ++ m.blk).Nodup := hq.nodup.of_append_right
  by_cases htid : tid = -1
  · subst htid
    cases hrun : m.run with
    | nil =>
        have hhead : k.runnableQueue.head = none := by
          rw [h.runnable.head, hrun]
          rfl
        simp [Kernel.takeNext, listDeleteFirst, hhead, listDelete] at hs
    | cons s ss =>
        rw [h.takeFirst hrun] at hs
        obtain ⟨rfl, rfl⟩ := Prod.mk.inj (Option.some.inj hs)
        have hdelete := h.deleteRunnable hnodup (t := s) (by rw [hrun]; exact List.mem_cons_self)
        refine ⟨{ m with run := m.run.erase s }, ?_, hdelete⟩
        simp [Machine.takeNext, hrun]
  · simp only [Kernel.takeNext, htid, if_false] at hs
    obtain ⟨s, hfind, heq⟩ := Option.map_eq_some_iff.mp hs
    obtain ⟨rfl, rfl⟩ := Prod.mk.inj heq
    rw [Kernel.listSearchTid, h.members_runnable hq] at hfind
    refine ⟨{ m with run := m.run.erase s }, ?_,
      h.deleteRunnable hnodup (List.mem_of_find?_eq_some hfind)⟩
    simp [Machine.takeNext, htid, hfind]

/-- Putting back the current thread. -/
theorem putBack (h : Refines k m) (hand : List Nat) (hq : m.Queues (m.current :: hand)) :
    Refines k.putBack m.putBack := by
  have hnodup : (m.current :: (m.run ++ m.blk)).Nodup := by
    obtain ⟨hnot, hrest⟩ := List.nodup_cons.mp hq.nodup
    exact List.nodup_cons.mpr ⟨fun hmem => hnot (List.mem_append_right hand hmem),
      hrest.of_append_right⟩
  unfold Kernel.putBack Machine.putBack
  rw [h.current, h.tcb]
  cases (m.tcb m.current).state with
  | exit => exact h
  | blocked => exact h.insertBlocked hnodup
  | waiting => exact h.insertBlocked hnodup
  | readline => exact h.insertBlocked hnodup
  | sleeping => exact h.insertBlocked hnodup
  | running => exact h.insertRunnable hnodup
  | runnable => exact h.insertRunnable hnodup
  | init => exact h.insertRunnable hnodup

/-- Switching. -/
theorem switchTo (h : Refines k m) (t : Nat) : Refines (k.switchTo t) (m.switchTo t) := by
  unfold Kernel.switchTo Machine.switchTo
  rw [h.tcb]
  by_cases hinit : (m.tcb t).state = .init
  · simp only [hinit, if_true]
    exact { h.setState t .running with current := rfl }
  · simp only [hinit, if_false]
    exact { h with current := rfl }

/-- **`schedule` refines.** -/
theorem schedule (h : Refines k m) (hq : m.Queues [m.current]) {tid : Int} {k' : Kernel}
    (hs : k.schedule tid = some k') : ∃ m', m.schedule tid = some m' ∧ Refines k' m' := by
  have hwake := h.wakeSleepers hq
  obtain ⟨hq1, -, hcur, -⟩ := Machine.wakeSleepers_spec hq
  have hidle : (k.wakeSleepers.currentThread = 1 ∧ k.wakeSleepers.runnableQueue.length = 0) ↔
      (m.wakeSleepers.current = 1 ∧ m.wakeSleepers.run = []) := by
    rw [hwake.current, hwake.runnable_length]
  unfold Kernel.schedule at hs
  unfold Machine.schedule
  simp only [hidle] at hs ⊢
  split_ifs at hs ⊢ with hstay
  · obtain rfl := Option.some.inj hs
    exact ⟨_, rfl, hwake⟩
  · obtain ⟨⟨t, k2⟩, htake, heq⟩ := Option.map_eq_some_iff.mp hs
    subst heq
    obtain ⟨m2, htake', h2⟩ := hwake.takeNext hq1 htake
    obtain ⟨ht, rfl⟩ := Machine.takeNext_cases htake'
    have htaken := hq1.takeNext ht
    rw [← hcur] at htaken
    rw [htake']
    exact ⟨_, rfl, (h2.putBack [t] htaken).switchTo t⟩

end Refines

/-! ## Interrupts and thread management calls -/

/-- **A call is matched**: whenever the kernel has a result, the machine has it too. -/
def Matched (x : Option (Kernel × Out)) (y : Option (Machine × Out)) : Prop :=
  ∀ k' o, x = some (k', o) → ∃ m', y = some (m', o) ∧ Refines k' m'

namespace Refines

variable {k : Kernel} {m : Machine}

/-- A call that returns. -/
theorem matched_return (h : Refines k m) (o : Out) : Matched (some (k, o)) (some (m, o)) := by
  intro k' o' heq
  obtain ⟨rfl, rfl⟩ := Prod.mk.inj (Option.some.inj heq)
  exact ⟨m, rfl, h⟩

/-- A call that ends in `schedule`. -/
theorem matched_schedule (h : Refines k m) (hq : m.Queues [m.current]) (tid : Int) (o : Out) :
    Matched ((k.schedule tid).map fun k' => (k', o)) ((m.schedule tid).map fun m' => (m', o)) := by
  intro k' o' heq
  obtain ⟨k1, hs, heq⟩ := Option.map_eq_some_iff.mp heq
  obtain ⟨rfl, rfl⟩ := Prod.mk.inj heq
  obtain ⟨m', hs', h'⟩ := h.schedule hq hs
  exact ⟨m', by rw [hs']; rfl, h'⟩

theorem timerHandler (h : Refines k m) (hq : m.Queues [m.current]) :
    Matched (k.timerHandler.map fun k' => (k', Out.quiet))
      (m.timerHandler.map fun m' => (m', Out.quiet)) := by
  have htick : Refines { k with numTicks := (k.numTicks + 1) % 2 ^ 32 }
      { m with numTicks := (m.numTicks + 1) % 2 ^ 32 } :=
    { h with numTicks := by rw [h.numTicks] }
  unfold Kernel.timerHandler Machine.timerHandler
  rw [h.numTicks] at htick ⊢
  simp only
  split_ifs
  · exact htick.matched_schedule (hq.congr rfl rfl (Nat.le_refl _) fun _ => rfl) _ _
  · exact htick.matched_return _

theorem keyboardNewline (h : Refines k m) (hq : m.Queues [m.current]) :
    Refines k.keyboardNewline m.keyboardNewline := by
  unfold Kernel.keyboardNewline Machine.keyboardNewline
  rw [h.members_blocked hq, h.tcb]
  cases hfind : m.blk.find? (fun t => decide ((m.tcb t).state = .readline)) with
  | none => exact h
  | some t => exact h.wake hq.nodup.of_append_right (List.mem_of_find?_eq_some hfind)

theorem sysYield (h : Refines k m) (hq : m.Queues [m.current]) (tid : Int) :
    Matched (k.sysYield tid) (m.sysYield tid) := by
  unfold Kernel.sysYield Machine.sysYield
  rw [h.members_blocked hq, h.members_runnable hq, h.current]
  split_ifs
  · exact h.matched_return _
  · exact h.matched_schedule hq _ _
  · exact h.matched_return _
  · exact h.matched_return _
  · exact h.matched_schedule hq _ _
  · exact h.matched_return _

theorem sysSleep (h : Refines k m) (hq : m.Queues [m.current]) (ticks : Int) :
    Matched (k.sysSleep ticks) (m.sysSleep ticks) := by
  unfold Kernel.sysSleep Machine.sysSleep
  rw [h.current, h.tcb, h.numTicks]
  split_ifs
  · exact h.matched_return _
  · exact h.matched_return _
  · exact (h.setTcb _ _).matched_schedule hq.setTcb_hand _ _

theorem sysDeschedule (h : Refines k m) (hq : m.Queues [m.current]) (mapped : Bool)
    (reject : Int) : Matched (k.sysDeschedule mapped reject) (m.sysDeschedule mapped reject) := by
  unfold Kernel.sysDeschedule Machine.sysDeschedule
  rw [h.current]
  split_ifs
  · exact h.matched_return _
  · exact h.matched_return _
  · exact (h.setState _ _).matched_schedule hq.setTcb_hand _ _

theorem sysMakeRunnable (h : Refines k m) (hq : m.Queues [m.current]) (tid : Int) :
    Matched (some (k.sysMakeRunnable tid)) (some (m.sysMakeRunnable tid)) := by
  unfold Kernel.sysMakeRunnable Machine.sysMakeRunnable
  rw [h.members_blocked hq, h.members_runnable hq, h.tcb]
  split_ifs
  · exact h.matched_return _
  · exact h.matched_return _
  · cases hfind : m.blk.find? (fun t : Nat =>
        decide ((t : Int) = tid ∧ (m.tcb t).state = .blocked)) with
    | none => exact h.matched_return _
    | some t =>
        exact (h.wake hq.nodup.of_append_right (List.mem_of_find?_eq_some hfind)).matched_return _

theorem sysReadline (h : Refines k m) (hq : m.Queues [m.current]) (len : Int) (mapped : Bool) :
    Matched (k.sysReadline len mapped) (m.sysReadline len mapped) := by
  unfold Kernel.sysReadline Machine.sysReadline
  rw [h.current]
  split_ifs
  · exact h.matched_return _
  · exact h.matched_return _
  · exact (h.setState _ _).matched_schedule hq.setTcb_hand _ _

end Refines

end Pebbles
