import Pebbles.Process.FamilyRefinement

/-! # Exit and wait refine

The loop of `sys_vanish` that reaps the peers of the last thread, the wake-ups at the exit of a
process, the two scans of `sys_wait`, and with them every step of the kernel. -/

namespace Pebbles

open DoublyLinked

namespace Kernel

/-- The state after the last thread of `p` has reaped its peers and marked `p`. -/
def exited (k : Kernel) (p : Nat) : Kernel :=
  let k1 := k.reapPeers p
  let k2 := k1.setPcb p { k1.pcb p with state := .exit }
  let q := listDelete k2.links k2.processQueue (some (allProcessesNode p))
  { k2 with links := q.1, processQueue := q.2.1 }

/-- `exitProcess` marks the process and then wakes somebody. -/
theorem exitProcess_eq (k : Kernel) (p : Nat) :
    k.exitProcess p = match ((k.exited p).pcb p).parent with
      | none => some (k.exited p).wakeInit
      | some parent =>
          if parent ∈ (k.exited p).freedPcb then none
          else if ((k.exited p).pcb parent).state = .exit then some (k.exited p).wakeInit
          else some ((k.exited p).wakeWaiter parent) := rfl

/-- The state once a thread woken inside `sys_wait` has come back from `schedule`. -/
def goOn (k : Kernel) : Kernel :=
  k.setTcb k.currentThread { k.tcb k.currentThread with resume := .userMode }

theorem resumeWait_eq (k : Kernel) (statusPtr : Nat) :
    k.resumeWait statusPtr = match k.goOn.findZombie k.currentPcb with
      | some c => k.goOn.reap k.currentPcb c statusPtr
      | none => (k.goOn, Out.value (-1)) := rfl

/-! ## The loop over the peers -/

theorem reapPeersFrom_none (k : Kernel) (fuel : Nat) (threads : Header NodePtr) :
    k.reapPeersFrom fuel none threads = k := by
  cases fuel <;> rfl

/-- The current thread is skipped. -/
theorem reapPeersFrom_skip (k : Kernel) (fuel : Nat) (threads : Header NodePtr) :
    k.reapPeersFrom (fuel + 1) (some (peerThreadsNode k.currentThread)) threads =
      k.reapPeersFrom fuel (k.links (peerThreadsNode k.currentThread)).next threads := by
  simp [reapPeersFrom, listEntry, peerThreadsNode]

/-- A node that no queue starts with and that has nobody before it is in no queue. -/
theorem delete_stranger {k : Kernel} {n : NodePtr} (hp : (k.links n).prev = none)
    (hb : k.blockedQueue.head ≠ some n) (hr : k.runnableQueue.head ≠ some n) :
    (k.deleteBlocked n).deleteRunnable n = k := by
  simp only [deleteBlocked, deleteRunnable, listDelete_stranger hp hb, listDelete_stranger hp hr]

/-- Another thread with nobody before it, once it is out of the list, is freed. -/
theorem reapPeersFrom_free {k : Kernel} {fuel t : Nat} {threads threads' : Header NodePtr}
    {l : Links NodePtr} {r : Option NodePtr} (ht : t ≠ k.currentThread)
    (hdelete : listDelete k.links threads (some (peerThreadsNode t)) = (l, threads', r))
    (hp : (l (peerThreadsNode t)).prev = none)
    (hb : k.blockedQueue.head ≠ some (peerThreadsNode t))
    (hr : k.runnableQueue.head ≠ some (peerThreadsNode t)) :
    k.reapPeersFrom (fuel + 1) (some (peerThreadsNode t)) threads =
      ({ k with links := l, freedTcb := t :: k.freedTcb } : Kernel).reapPeersFrom fuel
        (l (peerThreadsNode t)).next threads' := by
  have hqueues := delete_stranger (k := { k with links := l }) hp hb hr
  have hne : listEntry (peerThreadsNode t) ≠ k.currentThread := ht
  rw [reapPeersFrom, if_pos hne, hdelete]
  simp only [hqueues]
  rfl

/-- The end of the loop: a lone node at the head of the list is freed unless it is the current
thread. -/
theorem reapPeersFrom_last {k : Kernel} {fuel t : Nat} {threads : Header NodePtr}
    (hlone : k.links (peerThreadsNode t) = ⟨none, none⟩)
    (hhead : threads.head = some (peerThreadsNode t))
    (hb : k.blockedQueue.head ≠ some (peerThreadsNode t))
    (hr : k.runnableQueue.head ≠ some (peerThreadsNode t)) :
    k.reapPeersFrom (fuel + 1) (some (peerThreadsNode t)) threads =
      { k with freedTcb := ([t].filter fun s => s ≠ k.currentThread) ++ k.freedTcb } := by
  have hp : (k.links (peerThreadsNode t)).prev = none := by rw [hlone]
  have hn : (k.links (peerThreadsNode t)).next = none := by rw [hlone]
  by_cases ht : t = k.currentThread
  · subst ht
    rw [reapPeersFrom_skip, hn, reapPeersFrom_none]
    simp
  · obtain ⟨⟨l, th, ret⟩, hdelete⟩ : ∃ x, listDelete k.links threads (some (peerThreadsNode t)) = x :=
      ⟨_, rfl⟩
    have hl : l = k.links := by
      have hfirst := listDelete_head_only hp hn hhead
      rw [hdelete] at hfirst
      exact hfirst
    subst hl
    rw [reapPeersFrom_free ht hdelete hp hb hr, hn, reapPeersFrom_none]
    simp [ht]

/-- Another thread behind the current one: it is cut off three times and freed. -/
theorem reapPeersFrom_cut {k : Kernel} {fuel t : Nat} {threads : Header NodePtr} {p : NodePtr}
    (ht : t ≠ k.currentThread) (hne : peerThreadsNode t ≠ p)
    (hp : (k.links (peerThreadsNode t)).prev = some p)
    (hn : (k.links (peerThreadsNode t)).next = none)
    (htail : threads.tail ≠ some (peerThreadsNode t))
    (hb : k.blockedQueue.tail ≠ some (peerThreadsNode t))
    (hr : k.runnableQueue.tail ≠ some (peerThreadsNode t)) :
    k.reapPeersFrom (fuel + 1) (some (peerThreadsNode t)) threads =
      { k with links := setNext k.links p none, freedTcb := t :: k.freedTcb } := by
  have hself : setNext k.links p none (peerThreadsNode t) = k.links (peerThreadsNode t) :=
    setNext_of_ne _ _ hne
  have hprev : (setNext k.links p none (peerThreadsNode t)).prev = some p := by rw [hself, hp]
  have hnext : (setNext k.links p none (peerThreadsNode t)).next = none := by rw [hself, hn]
  have hentry : listEntry (peerThreadsNode t) ≠ k.currentThread := ht
  rw [reapPeersFrom, if_pos hentry, listDelete_cut hne hp hn htail]
  simp only [deleteBlocked, deleteRunnable, listDelete_cut hne hprev hnext hb, setNext_setNext,
    listDelete_cut hne hprev hnext hr, hnext, reapPeersFrom_none]
  rfl

end Kernel

namespace Refines

variable {k : Kernel} {m : Machine}

/-- Writes to peer nodes of one process only. -/
theorem withPeers (h : Refines k m) {p : Nat} {l : Links NodePtr} (freed chain : List Nat)
    (off : SameOff .peerThreads k.links l)
    (head : chain.head? = (m.proc p).chain.head?) (more : ∀ t ∈ m.freedTcb, t ∈ freed)
    (own : PeerLinks l freed chain)
    (other : ∀ q, q ≠ p → ∀ t ∈ (m.proc q).chain,
      l (peerThreadsNode t) = k.links (peerThreadsNode t)) :
    Refines { k with links := l, freedTcb := freed }
      { m.setProc p { m.proc p with chain := chain } with freedTcb := freed } :=
  { h with
    freedTcb := rfl
    pcb := SameProc.update_right h.pcb
      { h.pcb p with
        threadsHead := (h.pcb p).threadsHead.trans (by rw [← head])
        threadsTail := (h.pcb p).threadsTail.trans (by rw [← head]) }
    runnable := off.isList (fun _ => by simp [threadListNode]) h.runnable
    blocked := off.isList (fun _ => by simp [threadListNode]) h.blocked
    children := fun q => by
      have hchildren := off.isList (fun _ => by simp [peerProcessesNode]) (h.children q)
      show IsList l (k.pcb q).children ((Function.update m.proc p _ q).children.map _)
      by_cases hq : q = p
      · subst hq
        rwa [Function.update_self]
      · rwa [Function.update_of_ne hq]
    peers := fun q => by
      show PeerLinks l freed (Function.update m.proc p _ q).chain
      by_cases hq : q = p
      · subst hq
        rw [Function.update_self]
        exact own
      · rw [Function.update_of_ne hq]
        exact (h.peers q).frame (other q hq) more
    processes := off.fieldClosed (by simp) h.processes }

/-- Only the freed threads of a process change. -/
theorem withFreed (h : Refines k m) {p : Nat} (freed : List Nat)
    (more : ∀ t ∈ m.freedTcb, t ∈ freed) :
    Refines { k with freedTcb := freed }
      { m.setProc p { m.proc p with chain := (m.proc p).chain } with freedTcb := freed } :=
  h.withPeers (l := k.links) freed _ (fun _ _ => rfl) rfl more ((h.peers p).frame (fun _ _ => rfl) more)
    fun _ _ _ _ => rfl

/-- No queue starts or ends with a peer node. -/
theorem queue_ends (h : Refines k m) (t : Nat) :
    (k.blockedQueue.head ≠ some (peerThreadsNode t) ∧
      k.runnableQueue.head ≠ some (peerThreadsNode t)) ∧
      k.blockedQueue.tail ≠ some (peerThreadsNode t) ∧
        k.runnableQueue.tail ≠ some (peerThreadsNode t) := by
  have hmem : ∀ xs : List Nat, peerThreadsNode t ∉ xs.map threadListNode := by
    intro xs hx
    obtain ⟨s, -, hs⟩ := List.mem_map.mp hx
    cases hs
  rw [h.blocked.head, h.blocked.tail, h.runnable.head, h.runnable.tail]
  exact ⟨⟨fun e => hmem _ (List.mem_of_head? e), fun e => hmem _ (List.mem_of_head? e)⟩,
    fun e => hmem _ (List.mem_of_getLast? e), fun e => hmem _ (List.mem_of_getLast? e)⟩

/-- **The loop over the peers refines**: it frees the other threads that the list leads to. Only
when the current thread is the first one are the nodes themselves taken out of the list. -/
theorem reapPeers (h : Refines k m) (hc : m.Chains) (p : Nat) (alive : m.current ∉ m.freedTcb) :
    Refines (k.reapPeers p) (m.reapPeers p) := by
  have hhead := (h.pcb p).threadsHead
  have htail := (h.pcb p).threadsTail
  have hpeers := h.peers p
  have hown := hc.own p
  have hnodup := hc.nodup p
  unfold Kernel.reapPeers listBegin Machine.reapPeers
  rw [hhead]
  cases hchain : (m.proc p).chain with
  | nil =>
      have hfreed := h.withFreed (p := p) m.freedTcb fun _ ht => ht
      rw [hchain] at hfreed
      simp only [List.head?_nil, Option.map_none, Kernel.reapPeersFrom_none]
      have hk : { k with freedTcb := m.freedTcb } = k := by rw [← h.freedTcb]
      rw [hk] at hfreed
      exact hfreed
  | cons r rest =>
      rw [hchain] at hhead htail hpeers hown hnodup
      obtain ⟨fuel, hfuel⟩ : ∃ f, k.bound = f + 2 := by
        have hr := (hown r List.mem_cons_self).2
        have hp := hc.owner_lt r
        refine Nat.exists_eq_add_of_le' ?_
        rw [Kernel.bound, h.nextTid, h.nextPid]
        omega
      obtain ⟨⟨hbh, hrh⟩, -, -⟩ := h.queue_ends r
      have hother : ∀ q, q ≠ p → ∀ t ∈ (m.proc q).chain, ∀ s ∈ r :: rest, t ≠ s := by
        rintro q hq t ht s hs rfl
        exact hq ((hc.own q t ht).1.symm.trans (hown t hs).1)
      rw [hfuel, List.head?_cons, Option.map_some]
      cases rest with
      | nil =>
          have hr : k.links (peerThreadsNode r) = ⟨none, none⟩ := hpeers
          have hchain' : Machine.reapChain [r] m.current = [r] := by
            unfold Machine.reapChain
            split_ifs with hcur
            · rw [← Option.some.inj hcur]
            · rfl
          have hlist : ([r].filter fun s => s ≠ k.currentThread) ++ k.freedTcb =
              ([r].filter fun s => s ≠ m.current).reverse ++ m.freedTcb := by
            rw [h.current, h.freedTcb]
            by_cases hcur : r = m.current <;> simp [hcur]
          have hfreed := h.withFreed (p := p)
            (([r].filter fun s => s ≠ m.current).reverse ++ m.freedTcb)
            fun _ ht => List.mem_append_right _ ht
          rw [hchain] at hfreed
          rw [Kernel.reapPeersFrom_last hr hhead hbh hrh, hlist, hchain']
          exact hfreed
      | cons c rest =>
          obtain rfl : rest = [] := by
            cases rest with
            | nil => rfl
            | cons d rest => exact hpeers.elim
          obtain ⟨hr, hcn, hcp⟩ := hpeers
          have hrc : r ≠ c := fun e =>
            (List.nodup_cons.mp hnodup).1 (e ▸ List.mem_cons_self)
          have hnode : peerThreadsNode c ≠ peerThreadsNode r := fun e =>
            hrc (peerThreadsNode_injective e).symm
          obtain ⟨⟨hbh', hrh'⟩, hbt', hrt'⟩ := h.queue_ends c
          by_cases hcur : r = m.current
          · -- the second thread is cut off and freed; the list keeps the current thread
            have hcprev : (k.links (peerThreadsNode c)).prev = some (peerThreadsNode r) := by
              rcases hcp with hcp | ⟨-, hfreed⟩
              · exact hcp
              · exact absurd (hcur ▸ hfreed) alive
            have hskip := k.reapPeersFrom_skip (fuel + 1) (k.pcb p).threads
            have htail' : (k.pcb p).threads.tail ≠ some (peerThreadsNode c) := by
              rw [htail]
              exact fun e => hnode (Option.some.inj e).symm
            rw [h.current, ← hcur, hr] at hskip
            rw [hskip, Kernel.reapPeersFrom_cut (by rw [h.current, ← hcur]; exact hrc.symm) hnode
              hcprev hcn htail' hbt' hrt', h.freedTcb]
            have hpeers' := h.withPeers (p := p) (l := setNext k.links (peerThreadsNode r) none)
              (c :: m.freedTcb) [r]
              (fun x hx => setNext_of_ne _ _ fun e => hx (by rw [e]; rfl)) (by rw [hchain]; rfl)
              (fun _ ht => List.mem_cons_of_mem c ht)
              (by
                show setNext k.links (peerThreadsNode r) none (peerThreadsNode r) = _
                rw [setNext, Function.update_self, hr])
              (fun q hq t ht => setNext_of_ne _ _ fun e =>
                hother q hq t ht r List.mem_cons_self (peerThreadsNode_injective e))
            have hcc : c ≠ m.current := hcur ▸ hrc.symm
            simpa [Machine.reapChain, hcur, hcc] using hpeers'
          · -- the first thread is freed, but the header of the process still leads to it
            have hprev : (k.links (peerThreadsNode r)).prev = none := by rw [hr]
            have hnext : (k.links (peerThreadsNode r)).next = some (peerThreadsNode c) := by rw [hr]
            have hlr : setPrev k.links (peerThreadsNode c) none (peerThreadsNode r) =
                k.links (peerThreadsNode r) := setPrev_of_ne _ _ hnode.symm
            have hlc : setPrev k.links (peerThreadsNode c) none (peerThreadsNode c) =
                ⟨none, none⟩ := by
              rw [setPrev, Function.update_self]
              exact congrArg (Node.mk none ·) hcn
            rw [Kernel.reapPeersFrom_free (by rw [h.current]; exact hcur)
              (listDelete_head hprev hnext hhead) (by rw [hlr, hr]) hbh hrh, hlr, hnext]
            have hpeers' : ∀ freed, r ∈ freed → (∀ t ∈ m.freedTcb, t ∈ freed) →
                Refines { k with
                    links := setPrev k.links (peerThreadsNode c) none, freedTcb := freed }
                  { m.setProc p { m.proc p with chain := [r, c] } with freedTcb := freed } := by
              intro freed hrf hmore
              refine h.withPeers _ _ (fun x hx => setPrev_of_ne _ _ fun e => hx (by rw [e]; rfl))
                (by rw [hchain]) hmore ⟨hlr.trans hr, by rw [hlc], Or.inr ⟨by rw [hlc], hrf⟩⟩ ?_
              intro q hq t ht
              exact setPrev_of_ne _ _ fun e => hother q hq t ht c
                (List.mem_cons_of_mem r List.mem_cons_self) (peerThreadsNode_injective e)
            have hlist : ([c].filter fun s => s ≠ k.currentThread) ++ (r :: k.freedTcb) =
                ([r, c].filter fun s => s ≠ m.current).reverse ++ m.freedTcb := by
              rw [h.current, h.freedTcb]
              by_cases hcc : c = m.current <;> simp [hcur, hcc]
            have hchain' : Machine.reapChain [r, c] m.current = [r, c] := by
              simp [Machine.reapChain, hcur]
            have hrf : r ∈ ([r, c].filter fun s => s ≠ m.current).reverse ++ m.freedTcb := by
              simp [hcur]
            have hfreed := hpeers' _ hrf fun _ ht => List.mem_append_right _ ht
            rw [Kernel.reapPeersFrom_last (k := { k with
              links := setPrev k.links (peerThreadsNode c) none, freedTcb := r :: k.freedTcb })
              hlc rfl hbh' hrh', hlist, hchain']
            exact hfreed

/-! ## Exit -/

theorem currentPcb (h : Refines k m) : k.currentPcb = m.currentPcb := by
  rw [Kernel.currentPcb, Machine.currentPcb, h.tcb, h.current]

/-- The search for thread 2. -/
theorem wakeInit (h : Refines k m) (wf : m.Wf) : Refines k.wakeInit m.wakeInit := by
  unfold Kernel.wakeInit Machine.wakeInit
  rw [h.members_blocked wf.queues]
  cases hfind : m.blk.find? (fun t => decide (t = 2)) with
  | none => exact h
  | some t => exact h.wake wf.queues.nodup.of_append_right (List.mem_of_find?_eq_some hfind)

/-- The search for a waiting thread of the parent. -/
theorem wakeWaiter (h : Refines k m) (wf : m.Wf) (q : Nat) :
    Refines (k.wakeWaiter q) (m.wakeWaiter q) := by
  unfold Kernel.wakeWaiter Machine.wakeWaiter
  rw [h.members_threads wf.chains, h.tcb]
  cases hfind : (m.proc q).chain.find? (fun t => decide ((m.tcb t).state = .waiting)) with
  | none => exact h
  | some t =>
      have hwait : (m.tcb t).state = .waiting := by simpa using List.find?_some hfind
      exact h.wake wf.queues.nodup.of_append_right (wf.mem_blk_of_waiting hwait)

/-- The exit of a process, before anybody is woken. -/
theorem exited (h : Refines k m) (hc : m.Chains) (p : Nat) (alive : m.current ∉ m.freedTcb) :
    Refines (k.exited p) (m.exited p) := by
  have hreap := h.reapPeers hc p alive
  have hexit := hreap.setProc (p := p) (b := { (k.reapPeers p).pcb p with state := .exit })
    (q := { (m.reapPeers p).proc p with state := .exit })
    { hreap.pcb p with state := rfl } rfl rfl rfl
  exact hexit.deleteProcess p

/-- **The exit of a process refines.** -/
theorem exitProcess (h : Refines k m) (wf : m.Wf) {p : Nat} (alive : m.current ∉ m.freedTcb)
    {k1 : Kernel} (hs : k.exitProcess p = some k1) :
    ∃ m1, m.exitProcess p = some m1 ∧ Refines k1 m1 := by
  have hexited := h.exited wf.chains p alive
  have wf' : (m.exited p).Wf := wf.exited p
  rw [Kernel.exitProcess_eq, (hexited.pcb p).parent] at hs
  rw [Machine.exitProcess_eq]
  cases hparent : ((m.exited p).proc p).parent with
  | none =>
      rw [hparent] at hs
      obtain rfl := Option.some.inj hs
      exact ⟨_, rfl, hexited.wakeInit wf'⟩
  | some q =>
      simp only [hparent, hexited.freedPcb, (hexited.pcb q).state] at hs ⊢
      split_ifs at hs ⊢ with hq hst
      · obtain rfl := Option.some.inj hs
        exact ⟨_, rfl, hexited.wakeInit wf'⟩
      · obtain rfl := Option.some.inj hs
        exact ⟨_, rfl, hexited.wakeWaiter wf' q⟩

/-- `sys_vanish` up to its call of `schedule`. -/
theorem vanishBody (h : Refines k m) (wf : m.Wf) (user : m.inUser) {k1 : Kernel}
    (hbody : k.vanishBody = some k1) : ∃ m1, m.vanishBody = some m1 ∧ Refines k1 m1 := by
  unfold Kernel.vanishBody at hbody
  simp only [h.currentPcb, h.members_threads wf.chains] at hbody
  have hlive : k.liveCount (m.proc m.currentPcb).chain = m.liveCount (m.proc m.currentPcb).chain := by
    rw [Kernel.liveCount, Machine.liveCount, h.tcb]
  obtain ⟨k0, hk0, rfl⟩ := Option.map_eq_some_iff.mp hbody
  -- the machine at the call of `schedule`, before the current thread is marked
  have hbefore : ∃ m0, (if m.liveCount (m.proc m.currentPcb).chain = 1 then
      m.exitProcess m.currentPcb else some m) = some m0 ∧ Refines k0 m0 := by
    rw [hlive] at hk0
    split_ifs at hk0 ⊢ with hlast
    · exact h.exitProcess wf user.2.2.1 hk0
    · obtain rfl := Option.some.inj hk0
      exact ⟨m, rfl, h⟩
  obtain ⟨m0, hm0, h0⟩ := hbefore
  have hmark := h0.setState k0.currentThread .exit
  rw [h0.current] at hmark ⊢
  refine ⟨_, ?_, hmark⟩
  unfold Machine.vanishBody
  simp only [hm0, Option.map_some]

/-- **`sys_vanish` refines.** -/
theorem sysVanish (h : Refines k m) (wf : m.Wf) (user : m.inUser) :
    Matched k.sysVanish m.sysVanish := by
  intro k' o heq
  obtain ⟨k2, hbind, heq⟩ := Option.map_eq_some_iff.mp heq
  obtain ⟨rfl, rfl⟩ := Prod.mk.inj heq
  obtain ⟨k1, hbody, hsched⟩ := Option.bind_eq_some_iff.mp hbind
  obtain ⟨m1, hm1, h1⟩ := h.vanishBody wf user hbody
  obtain ⟨hat, -⟩ := wf.blocks (Machine.blocks_of_vanishBody user hm1)
  obtain ⟨m', hm', h'⟩ := h1.schedule hat.queues hsched
  refine ⟨m', ?_, h'⟩
  unfold Machine.sysVanish
  simp only [hm1, Option.bind_some, hm', Option.map_some]

/-! ## Wait -/

/-- The scan for a zombie. -/
theorem findZombie (h : Refines k m) (wf : m.Wf) (p : Nat) : k.findZombie p = m.findZombie p := by
  unfold Kernel.findZombie Machine.findZombie
  rw [h.members_children wf.kin]
  congr 1
  funext c
  rw [(h.pcb c).state]

/-- Reaping. -/
theorem reap (h : Refines k m) (wf : m.Wf) {p c : Nat} (hc : c ∈ (m.proc p).children)
    (statusPtr : Nat) : Matched (some (k.reap p c statusPtr)) (some (m.reap p c statusPtr)) := by
  have hremove := h.removeChild hc fun q hq => children_disjoint wf.kin hq
  have hfreed : Refines { ({ k with
      links := (listDelete k.links (k.pcb p).children (some (peerProcessesNode c))).1 }).setPcb p
        { k.pcb p with
          children := (listDelete k.links (k.pcb p).children (some (peerProcessesNode c))).2.1,
          childrenCount := (k.pcb p).childrenCount - 1 } with freedPcb := c :: k.freedPcb }
      { m.setProc p { m.proc p with
        children := (m.proc p).children.erase c,
        childrenCount := (m.proc p).childrenCount - 1 } with freedPcb := c :: m.freedPcb } :=
    { hremove with freedPcb := by rw [h.freedPcb] }
  have hmatched := hfreed.matched_return
    ⟨some c, if statusPtr ≠ 0 then some (statusPtr, (m.proc c).returnState) else none⟩
  unfold Kernel.reap Machine.reap
  rw [(h.pcb c).returnState]
  exact hmatched

/-- **`sys_wait` refines.** -/
theorem sysWait (h : Refines k m) (wf : m.Wf) (statusPtr : Nat) :
    Matched (k.sysWait statusPtr) (m.sysWait statusPtr) := by
  unfold Kernel.sysWait Machine.sysWait
  simp only [h.currentPcb, (h.pcb m.currentPcb).childrenCount, h.findZombie wf]
  split_ifs
  · exact h.matched_return _
  · exact h.matched_return _
  · cases hz : m.findZombie m.currentPcb with
    | some c => exact h.reap wf (Machine.Wf.findZombie_some hz).1 statusPtr
    | none =>
        have hset := h.setTcb m.current
          { m.tcb m.current with state := .waiting, resume := .wait statusPtr }
        rw [h.current, h.tcb]
        exact hset.matched_schedule wf.queues.setTcb_hand _ _

theorem goOn (h : Refines k m) : Refines k.goOn m.goOn := by
  unfold Kernel.goOn Machine.goOn
  rw [h.current, h.tcb]
  exact h.setTcb _ _

/-- **The second scan refines.** -/
theorem resumeWait (h : Refines k m) (wf : m.Wf) (statusPtr : Nat) :
    Matched (some (k.resumeWait statusPtr)) (some (m.resumeWait statusPtr)) := by
  rw [Kernel.resumeWait_eq, Machine.resumeWait_eq, h.currentPcb, h.goOn.findZombie wf.goOn]
  cases hz : m.goOn.findZombie m.currentPcb with
  | some c => exact h.goOn.reap wf.goOn (Machine.Wf.findZombie_some hz).1 statusPtr
  | none => exact h.goOn.matched_return _

/-! ## Every step -/

theorem alive_iff (h : Refines k m) : k.alive ↔ m.alive := by
  rw [Kernel.alive, Machine.alive, h.current, h.currentPcb, h.freedTcb, h.freedPcb]

theorem inUser_iff (h : Refines k m) : k.inUser ↔ m.inUser := by
  rw [Kernel.inUser, Machine.inUser, h.alive_iff, h.current, h.tcb]

/-- Every system call refines. -/
theorem call (h : Refines k m) (wf : m.Wf) (user : m.inUser) (c : SysCall) :
    Matched (k.call c) (m.call c) := by
  cases c with
  | yield tid => exact h.sysYield wf.queues tid
  | sleep ticks => exact h.sysSleep wf.queues ticks
  | deschedule mapped reject => exact h.sysDeschedule wf.queues mapped reject
  | makeRunnable tid => exact h.sysMakeRunnable wf.queues tid
  | readline len mapped => exact h.sysReadline wf.queues len mapped
  | threadFork => exact h.sysThreadFork wf
  | fork outcome => exact h.sysFork wf outcome
  | setStatus status => exact (h.sysSetStatus status).matched_return _
  | vanish => exact h.sysVanish wf user
  | wait statusPtr => exact h.sysWait wf statusPtr

/-- **Every step of the kernel is a step of the abstract machine**, with the same result. -/
theorem step (h : Refines k m) (wf : m.Wf) (e : Event) : Matched (k.step e) (m.step e) := by
  cases e with
  | timer => exact h.timerHandler wf.queues
  | reschedule => exact h.matched_schedule wf.queues _ _
  | newline => exact (h.keyboardNewline wf.queues).matched_return _
  | resume =>
      unfold Kernel.step Machine.step
      rw [h.current, h.tcb]
      simp only [h.alive_iff]
      cases (m.tcb m.current).resume with
      | userMode =>
          intro k' o heq
          cases heq
      | wait statusPtr =>
          simp only
          split_ifs
          · exact h.resumeWait wf statusPtr
          · intro k' o heq
            cases heq
  | call c =>
      unfold Kernel.step Machine.step
      simp only [h.inUser_iff]
      split_ifs with user
      · exact h.call wf user c
      · intro k' o heq
        cases heq

end Refines

/-- **The boot state is represented.** -/
theorem refines_boot : Refines Kernel.boot Machine.boot := by
  have hpcb : ∀ p, Kernel.boot.pcb p =
      if p = 1 then ⟨.runnable, some 0, none, ⟨1, some (peerThreadsNode 1), some (peerThreadsNode 1)⟩,
        listInit, 0⟩
      else if p = 2 then ⟨.runnable, some 0, none,
        ⟨1, some (peerThreadsNode 2), some (peerThreadsNode 2)⟩, listInit, 0⟩
      else ⟨.running, none, none, listInit, listInit, 0⟩ := by
    intro p
    by_cases h1 : p = 1
    · subst h1
      rfl
    · by_cases h2 : p = 2
      · subst h2
        rfl
      · simp [Kernel.boot, Kernel.processCreate, Kernel.thrCreate, Kernel.initial, Kernel.setPcb,
          Kernel.setTcb, Kernel.setState, Kernel.insertRunnable, h1, h2]
  have htcb : Kernel.boot.tcb = Machine.boot.tcb := by
    funext t
    by_cases h1 : t = 1
    · subst h1
      rfl
    · by_cases h2 : t = 2
      · subst h2
        rfl
      · simp [Kernel.boot, Kernel.processCreate, Kernel.thrCreate, Kernel.initial, Kernel.setPcb,
          Kernel.setTcb, Kernel.setState, Kernel.insertRunnable, Machine.boot, h1, h2]
  have hchain : ∀ p, (Machine.boot.proc p).chain =
      if p = 1 then [1] else if p = 2 then [2] else [] := by
    intro p
    simp only [Machine.boot]
    split_ifs <;> rfl
  refine ⟨htcb, rfl, rfl, rfl, rfl, rfl, rfl, fun p => ?_, ?_, ?_, fun p => ?_, fun p => ?_,
    ?_, ?_⟩
  · rw [hpcb]
    simp only [Machine.boot]
    split_ifs
    · exact ⟨rfl, rfl, rfl, rfl, rfl, rfl⟩
    · exact ⟨rfl, rfl, rfl, rfl, rfl, rfl⟩
    · exact ⟨rfl, rfl, rfl, rfl, rfl, rfl⟩
  · exact ⟨⟨rfl, rfl, trivial⟩, rfl, rfl, rfl, List.nodup_singleton _⟩
  · exact isList_empty _
  · have hempty : (Machine.boot.proc p).children = [] := by
      simp only [Machine.boot]
      split_ifs <;> rfl
    have hheader : (Kernel.boot.pcb p).children = listInit := by
      rw [hpcb]
      split_ifs <;> rfl
    rw [hempty, hheader]
    exact isList_empty _
  · rw [hchain]
    split_ifs
    · rfl
    · rfl
    · trivial
  · intro y hy
    rcases hy with hy | hy
    · rw [← Option.some.inj hy]
      rfl
    · rw [← Option.some.inj hy]
      rfl
  · rintro ⟨f, n⟩ y hx hy
    obtain rfl : f = .allProcesses := hx
    by_cases h1 : n = 1
    · subst h1
      have hlink : Kernel.boot.links (allProcessesNode 1) = ⟨none, some (allProcessesNode 2)⟩ := rfl
      rw [show (⟨.allProcesses, 1⟩ : NodePtr) = allProcessesNode 1 from rfl, hlink] at hy
      rcases hy with hy | hy
      · cases hy
      · rw [← Option.some.inj hy]
        rfl
    · by_cases h2 : n = 2
      · subst h2
        have hlink : Kernel.boot.links (allProcessesNode 2) = ⟨some (allProcessesNode 1), none⟩ := rfl
        rw [show (⟨.allProcesses, 2⟩ : NodePtr) = allProcessesNode 2 from rfl, hlink] at hy
        rcases hy with hy | hy
        · rw [← Option.some.inj hy]
          rfl
        · cases hy
      · have hlink : Kernel.boot.links ⟨.allProcesses, n⟩ = ⟨none, none⟩ := by
          simp [Kernel.boot, Kernel.processCreate, Kernel.thrCreate, Kernel.initial, Kernel.setPcb,
            Kernel.setTcb, Kernel.setState, Kernel.insertRunnable, listInsertLast, listInit, setNext,
            setPrev, allProcessesNode, threadListNode, peerThreadsNode, h1, h2]
        rw [hlink] at hy
        rcases hy with hy | hy <;> cases hy

end Pebbles
