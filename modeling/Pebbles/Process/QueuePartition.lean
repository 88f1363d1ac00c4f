import Pebbles.Process.Threads

/-! # The scheduler's queues partition the threads

Every thread that was created and has not exited is in exactly one place: it is running, in
`runnable_queue`, or in `blocked_queue`. -/

namespace Pebbles

open DoublyLinked Transition

namespace Machine

/-! ## Created threads have a place -/

/-- **The threads in `made`** are those with a place and some that have exited. -/
structure Housed (made : List Nat) (m : Machine) : Prop where
  /-- They were all created. -/
  lt : ∀ t ∈ made, t < m.nextTid
  /-- Each has a place unless it has exited. -/
  placed : ∀ t ∈ made, (m.tcb t).state = .exit ∨ t ∈ m.places
  /-- There are no others with a place. -/
  made : ∀ t ∈ m.places, t ∈ made

/-- **Step lemma**: the created threads keep a place or exit. -/
theorem Housed.step {made : List Nat} {m m' : Machine} (h : Housed made m) (wf : m.Wf)
    {x : Action} (tid : x.before.nextTid = m.nextTid)
    (hs : m.step x.event = some (m', x.out)) : Housed (made ++ x.newThread.toList) m' := by
  have heffect := thread_effect wf hs
  have hnew : ∀ t, t ∈ x.newThread.toList ↔ t = m.nextTid ∧ x.event.startsThread = true := by
    intro t
    unfold Action.newThread
    rw [tid]
    split_ifs with hstarts
    · simp [hstarts]
    · simp [hstarts]
  refine ⟨fun t ht => ?_, fun t ht => ?_, fun t ht => ?_⟩
  · rcases List.mem_append.mp ht with hmade | hmem
    · exact Nat.lt_of_lt_of_le (h.lt t hmade) heffect.tid
    · obtain ⟨rfl, hstarts⟩ := (hnew t).mp hmem
      exact (heffect.started hstarts).1
  · rcases List.mem_append.mp ht with hmade | hmem
    · rcases h.placed t hmade with hexit | hplace
      · exact Or.inl ((heffect.exit t (h.lt t hmade)).mpr (Or.inl hexit))
      · exact (heffect.kept t hplace).symm
    · obtain ⟨rfl, hstarts⟩ := (hnew t).mp hmem
      exact Or.inr (heffect.started hstarts).2
  · rcases heffect.placed t ht with hplace | hstarted
    · exact List.mem_append_left _ (h.made t hplace)
    · exact List.mem_append_right _ ((hnew t).mpr hstarted)

end Machine

/-! ## The partition -/

/-- The threads created in a run: `idle`, `init`, and those of the calls that succeeded. -/
def createdThreads (as : List Action) : List Nat := [1, 2] ++ as.filterMap Action.newThread

/-- The states of the threads that are not ready to run. -/
def IsBlockedState (st : ThreadState) : Prop :=
  st = .blocked ∨ st = .sleeping ∨ st = .waiting ∨ st = .readline

/-- **The queues partition the threads** in `made`: `run` and `blk` are what the two queues hold. -/
structure QueuePartition (k : Kernel) (made run blk : List Nat) : Prop where
  /-- The runnable queue is a well-formed list of `run`, with the right length field. -/
  runnable : IsList k.links k.runnableQueue (run.map threadListNode)
  /-- The blocked queue is a well-formed list of `blk`, with the right length field. -/
  blocked : IsList k.links k.blockedQueue (blk.map threadListNode)
  /-- Every created thread that has not exited is in one place, once. -/
  one_place : ∀ t ∈ made, (k.tcb t).state ≠ .exit → (k.currentThread :: (run ++ blk)).count t = 1
  /-- Only such threads are in a place. -/
  no_other : ∀ t ∈ k.currentThread :: (run ++ blk), t ∈ made ∧ (k.tcb t).state ≠ .exit
  /-- The state of a blocked thread says so. -/
  blocked_state : ∀ t ∈ blk, IsBlockedState (k.tcb t).state
  /-- The state of a runnable thread does not. -/
  runnable_state : ∀ t ∈ run, ¬ IsBlockedState (k.tcb t).state ∧ (k.tcb t).state ≠ .exit

theorem isBlockedState_iff (st : ThreadState) : IsBlockedState st ↔ st.suspended = true := by
  cases st <;> simp [IsBlockedState, ThreadState.suspended]

/-- After boot. -/
theorem Machine.housed_boot : Machine.Housed [1, 2] Machine.boot := by
  refine ⟨by decide, by decide, by decide⟩

/-- **Run lemma**: in every reachable state the created threads have a place or have exited. -/
theorem housed_of_reaches {as : List Action} {k : Kernel} (h : Kernel.Reaches as k) :
    ∃ m, k.RepresentedBy m ∧ Machine.Housed (createdThreads as) m := by
  refine h.machine_invariant (I := fun bs m => Machine.Housed (createdThreads bs) m)
    Machine.housed_boot ?_
  intro bs u x m m' hm hx hs _ hI
  have hstep := hI.step hm.2 (by rw [hx, hm.1.nextTid]) hs
  have hlist : [x].filterMap Action.newThread = x.newThread.toList := by
    cases h : x.newThread <;> simp [h]
  rw [createdThreads, List.filterMap_append, ← List.append_assoc, hlist]
  exact hstep

end Pebbles
