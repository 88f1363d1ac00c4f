import Pebbles.Process.KernelRuns

/-! # The death of a faulting process

`get_real_handler` of `kern/exception/exception_handler_real.c`, for a thread that has installed
no handler: it sets the status of the process to -2, reaps the other threads of the process in a
loop and vanishes. The loop is the one of `sys_vanish` (`reapPeersFrom`); here it is run with an
eye on which control blocks it reads, and with a result only if it comes to an end. -/

namespace Pebbles

open DoublyLinked Transition

namespace Kernel

/-! ## The loop -/

/-- The TCB of `t` is read: noted when it has been freed. -/
def noteRead (k : Kernel) (reads : List Nat) (t : Nat) : List Nat :=
  if t ∈ k.freedTcb then t :: reads else reads

/-- The reaping loop of `get_real_handler`. `threads` is the local copy of the list header, and
`reads` collects the threads whose control block was read after it was freed. A round reads
`tcb -> tid` first and `n -> next` last; in between `list_delete` is called for the node of the
thread list, once for each of three lists. -/
def reapThreadsFrom : Nat → Option NodePtr → Header NodePtr → Kernel → List Nat →
    Option (Kernel × List Nat)
  | _, none, _, k, reads => some (k, reads)
  | 0, some _, _, _, _ => none
  | fuel + 1, some n, threads, k, reads =>
      let reads1 := k.noteRead reads (listEntry n)
      if listEntry n ≠ k.currentThread then
        let r := listDelete k.links threads (some n)
        let k1 := ({ k with links := r.1 }).deleteBlocked n
        let k2 := k1.deleteRunnable n
        let k3 := { k2 with freedTcb := listEntry n :: k2.freedTcb }
        reapThreadsFrom fuel (k3.links n).next r.2.1 k3 (k3.noteRead reads1 (listEntry n))
      else reapThreadsFrom fuel (k.links n).next threads k (k.noteRead reads1 (listEntry n))

/-- `get_real_handler` without a handler, up to its call of `sys_vanish`: the state and the threads
whose control block was read after it was freed. -/
def getRealHandler (k : Kernel) : Option (Kernel × List Nat) :=
  let k1 := k.sysSetStatus (-2)
  let threads := (k1.pcb k1.currentPcb).threads
  reapThreadsFrom k1.bound (listBegin threads) threads k1 []

/-- The thread was passed to `free` between the two states. -/
def freedBetween (k k' : Kernel) (t : Nat) : Prop := t ∈ k'.freedTcb ∧ t ∉ k.freedTcb

instance (k k' : Kernel) (t : Nat) : Decidable (freedBetween k k' t) :=
  inferInstanceAs (Decidable (_ ∧ _))

/-- **A clean death**: no freed thread is left in a queue or in the thread list of the process, the
other members of the two queues and their length fields are as they were, and nothing is read
after it was freed. -/
structure ReapsCleanly (k k' : Kernel) (reads : List Nat) : Prop where
  /-- The freed threads are in no list. -/
  gone : ∀ t, freedBetween k k' t → t ∉ k'.members k'.runnableQueue ∧
    t ∉ k'.members k'.blockedQueue ∧ t ∉ k'.members (k'.pcb k.currentPcb).threads
  /-- The other runnable threads. -/
  runnable : k'.members k'.runnableQueue
    = (k.members k.runnableQueue).filter fun t => ¬ freedBetween k k' t
  /-- The other blocked threads. -/
  blocked : k'.members k'.blockedQueue
    = (k.members k.blockedQueue).filter fun t => ¬ freedBetween k k' t
  /-- The length fields. -/
  lengths : k'.runnableQueue.length = k.runnableQueue.length ∧
    k'.blockedQueue.length = k.blockedQueue.length
  /-- Nothing is read after it was freed. -/
  reads : reads = []

/-- The reaping loop comes to an end, and the death is clean. -/
def DiesCleanly (k : Kernel) : Prop :=
  ∃ k' reads, k.getRealHandler = some (k', reads) ∧ ReapsCleanly k k' reads

/-! ## What a run of the loop says -/

/-- What was noted stays noted. -/
theorem subset_noteRead (k : Kernel) (reads : List Nat) (t : Nat) : reads ⊆ k.noteRead reads t := by
  intro x hx
  rw [noteRead]
  split
  · exact List.mem_cons_of_mem t hx
  · exact hx

/-- What was noted at the start is noted at the end. -/
theorem subset_reapThreadsFrom {fuel : Nat} {start : Option NodePtr} {threads : Header NodePtr}
    {k k' : Kernel} {reads reads' : List Nat}
    (loop : reapThreadsFrom fuel start threads k reads = some (k', reads')) : reads ⊆ reads' := by
  induction fuel generalizing start threads k reads with
  | zero =>
      cases start with
      | none =>
          obtain ⟨-, rfl⟩ := Prod.mk.inj (Option.some.inj loop)
          exact List.Subset.refl reads
      | some n => cases loop
  | succ fuel ih =>
      cases start with
      | none =>
          obtain ⟨-, rfl⟩ := Prod.mk.inj (Option.some.inj loop)
          exact List.Subset.refl reads
      | some n =>
          simp only [reapThreadsFrom] at loop
          split at loop
          · exact fun x hx => ih loop (subset_noteRead _ _ _ (subset_noteRead _ _ _ hx))
          · exact fun x hx => ih loop (subset_noteRead _ _ _ (subset_noteRead _ _ _ hx))

/-- **A thread other than the current one is read after it was freed**: the loop goes on from the
node inside the block that it has just freed. -/
theorem reapThreadsFrom_reads {fuel : Nat} {start : Option NodePtr} {threads : Header NodePtr}
    {k k' : Kernel} {reads reads' : List Nat}
    (loop : reapThreadsFrom fuel start threads k reads = some (k', reads'))
    (hpeer : ∃ n ∈ walk k.links fuel start, listEntry n ≠ k.currentThread) : reads' ≠ [] := by
  induction fuel generalizing start threads reads with
  | zero =>
      obtain ⟨n, hn, -⟩ := hpeer
      cases hn
  | succ fuel ih =>
      cases start with
      | none =>
          obtain ⟨n, hn, -⟩ := hpeer
          cases hn
      | some n =>
          simp only [reapThreadsFrom] at loop
          split at loop
          · -- the first peer: noted, and never forgotten
            refine List.ne_nil_of_mem (a := listEntry n) (subset_reapThreadsFrom loop ?_)
            rw [noteRead, if_pos List.mem_cons_self]
            exact List.mem_cons_self
          · next hcurrent =>
              refine ih loop ?_
              obtain ⟨n', hn', hne⟩ := hpeer
              rcases List.mem_cons.mp hn' with rfl | hn'
              · exact absurd hne hcurrent
              · exact ⟨n', hn', hne⟩

/-- A thread list that leads to the current thread only: the loop does nothing. -/
theorem reapThreadsFrom_alone {fuel : Nat} {threads : Header NodePtr} {k : Kernel}
    (halive : k.currentThread ∉ k.freedTcb)
    (hlast : (k.links (peerThreadsNode k.currentThread)).next = none) (reads : List Nat) :
    reapThreadsFrom (fuel + 1) (some (peerThreadsNode k.currentThread)) threads k reads
      = some (k, reads) := by
  have hnote : k.noteRead reads k.currentThread = reads := by rw [noteRead, if_neg halive]
  have hentry : listEntry (peerThreadsNode k.currentThread) = k.currentThread := rfl
  rw [reapThreadsFrom]
  simp only [hentry, ne_eq, not_true_eq_false, if_false, hnote, hlast]
  cases fuel <;> rfl

/-- A state in which nothing was freed and no queue was touched. -/
theorem reapsCleanly_of_same {k k' : Kernel} (hfreed : k'.freedTcb = k.freedTcb)
    (hrunnable : k'.members k'.runnableQueue = k.members k.runnableQueue)
    (hblocked : k'.members k'.blockedQueue = k.members k.blockedQueue)
    (hlengths : k'.runnableQueue.length = k.runnableQueue.length ∧
      k'.blockedQueue.length = k.blockedQueue.length) : ReapsCleanly k k' [] := by
  have hnone : ∀ t, ¬ freedBetween k k' t := by
    rintro t ⟨hin, hout⟩
    rw [hfreed] at hin
    exact hout hin
  refine ⟨fun t ht => absurd ht (hnone t), ?_, ?_, hlengths, rfl⟩
  · rw [hrunnable, List.filter_eq_self.mpr]
    exact fun t _ => decide_eq_true (hnone t)
  · rw [hblocked, List.filter_eq_self.mpr]
    exact fun t _ => decide_eq_true (hnone t)

/-! ## The exact condition -/

/-- `set_status` leaves the threads of the process. -/
theorem sysSetStatus_threads (k : Kernel) (status : Int) :
    ((k.sysSetStatus status).pcb (k.sysSetStatus status).currentPcb).threads =
      (k.pcb k.currentPcb).threads := by
  simp [sysSetStatus, setPcb, currentPcb]

/-- **A process dies cleanly exactly when its thread list leads to no thread but the faulting
one**, in every reachable state in which a user thread runs. -/
theorem diesCleanly_iff_alone {as : List Action} {k : Kernel} (h : Kernel.Reaches as k)
    (huser : k.inUser) :
    k.DiesCleanly ↔ ∀ t ∈ k.members (k.pcb k.currentPcb).threads, t = k.currentThread := by
  obtain ⟨m, hm, hwf⟩ := h.represented
  let k1 := k.sysSetStatus (-2)
  have hthreads : (k1.pcb k1.currentPcb).threads = (k.pcb k.currentPcb).threads :=
    sysSetStatus_threads k (-2)
  constructor
  · rintro ⟨k', reads, hloop, hclean⟩ t ht
    by_contra hne
    obtain ⟨n, hn, rfl⟩ := List.mem_map.mp ht
    refine reapThreadsFrom_reads hloop ⟨n, ?_, hne⟩ hclean.reads
    show n ∈ walk k1.links k1.bound (listBegin (k1.pcb k1.currentPcb).threads)
    rw [hthreads]
    exact hn
  · intro halone
    rw [hm.members_threads hwf.chains] at halone
    have hhead := (hm.pcb k.currentPcb).threadsHead
    have hpeers := hm.peers k.currentPcb
    have hclean : ReapsCleanly k k1 [] := reapsCleanly_of_same rfl rfl rfl ⟨rfl, rfl⟩
    refine ⟨k1, [], ?_, hclean⟩
    show reapThreadsFrom k1.bound (k1.pcb k1.currentPcb).threads.head _ k1 [] = _
    rw [hthreads, hhead]
    -- the list has no thread, or the current one
    match hchain : (m.proc k.currentPcb).chain with
    | [] =>
        rw [List.head?_nil, Option.map_none]
        cases k1.bound <;> rfl
    | [r] =>
        rw [hchain] at hpeers halone
        obtain rfl : r = k.currentThread := halone r List.mem_cons_self
        have hlt := (hwf.chains.own k.currentPcb k.currentThread (by simp [hchain])).2
        have hbound : ∃ fuel, k1.bound = fuel + 1 := by
          refine Nat.exists_eq_succ_of_ne_zero ?_
          show k.nextTid + k.nextPid ≠ 0
          rw [hm.nextTid]
          omega
        obtain ⟨fuel, hfuel⟩ := hbound
        have hlink : k.links (peerThreadsNode k.currentThread) = ⟨none, none⟩ := hpeers
        rw [hfuel]
        exact reapThreadsFrom_alone (k := k1) huser.2.2.1 (by
          show (k.links (peerThreadsNode k.currentThread)).next = none
          rw [hlink]) []
    | r :: c :: rest =>
        have hnodup := hwf.chains.nodup k.currentPcb
        rw [hchain] at halone hnodup
        have hr := halone r List.mem_cons_self
        have hc := halone c (List.mem_cons_of_mem r List.mem_cons_self)
        rw [hr, hc] at hnodup
        simp at hnodup

/-- The boot state: `init` has one thread. -/
theorem diesCleanly_iff_alone_boot :
    boot.DiesCleanly ↔ ∀ t ∈ boot.members (boot.pcb boot.currentPcb).threads,
      t = boot.currentThread :=
  diesCleanly_iff_alone Run.nil (by decide +kernel)

/-- **A forked thread**: `init` has forked a thread and faults. The loop reads the block of the
thread after it was freed; besides, the thread is still in `runnable_queue`, from which it was
deleted with the node of another list. -/
theorem forked_thread_freed_in_queue :
    ∃ as k k' reads, Kernel.Reaches as k ∧ as.map Action.event = [.call .threadFork] ∧ k.inUser ∧
      k.getRealHandler = some (k', reads) ∧ reads = [3] ∧ 3 ∈ k'.freedTcb ∧
      3 ∈ k'.members k'.runnableQueue ∧ ¬ k.DiesCleanly := by
  have h := reaches_trace [.call .threadFork] (by decide +kernel)
  have hloop : (trace [.call .threadFork]).2.getRealHandler.map
      (fun r => (r.2, r.1.freedTcb, r.1.members r.1.runnableQueue)) = some ([3], [3], [1, 3]) := by
    decide +kernel
  obtain ⟨⟨k', reads⟩, hrun, hvalue⟩ := Option.map_eq_some_iff.mp hloop
  obtain ⟨rfl, hfreed, hqueue⟩ : reads = [3] ∧ k'.freedTcb = [3] ∧
      k'.members k'.runnableQueue = [1, 3] := by simpa using hvalue
  refine ⟨_, _, k', [3], h, by decide +kernel, by decide +kernel, hrun, rfl, by simp [hfreed],
    by simp [hqueue], ?_⟩
  rintro ⟨k'', reads, hrun', hclean⟩
  obtain ⟨-, rfl⟩ := Prod.mk.inj (Option.some.inj (hrun.symm.trans hrun'))
  cases hclean.reads

end Kernel

end Pebbles
