import Pebbles.Process.QueueUpdates

/-! # The stages of a queue update

What the links and the headers look like when an update of the queues has come to a given statement.
Between the two unlinkings of `list_delete` the thread is out along `next`, but the node after it,
or the tail of the queue, still points back at it; before a length is counted, that length is off by
one; in the middle of `list_insert_last` the last node of `runnable_queue` points at a thread that
the header does not know. -/

namespace Pebbles

open DoublyLinked

/-! ## Where the thread is -/

/-- **The linking statements**: the old tail points at the new node already, the header does not. -/
def UpdatePoint.linking : UpdatePoint → Bool
  | .linkPrev | .clearNext | .moveLast => true
  | _ => false

/-- **Half out**: the first unlinking is done, the second is not. -/
def UpdatePoint.halfOut : UpdatePoint → Bool
  | .testNext | .skipPrev | .testTail | .moveTail => true
  | _ => false

/-- The thread that is moved has not arrived in `runnable_queue`. -/
def UpdatePoint.pending : UpdatePoint → Bool
  | .countUp | .done => false
  | _ => true

/-- The thread that is moved, while it is between the queues. -/
def UpdatePoint.between (j : Nat) : UpdatePoint → List Nat
  | .testPrev | .skipNext | .testHead | .moveHead | .countUp | .done => []
  | _ => [j]

/-- The threads in neither queue: the current one, and the one between them. -/
def UpdatePoint.hand (c j : Nat) (p : UpdatePoint) : List Nat := c :: p.between j

namespace Kernel

/-- **Half out**: the node after `j`, if there is one, still points back at `j`, or the tail of the
queue still is `j`. What `j` will write there is right if `fresh`; with nothing after `j` it is. -/
structure HalfOut (k : Kernel) (j : Nat) (fresh : Prop) (run blk : List Nat) : Prop where
  /-- The queues, but for the second unlinking and the count. -/
  loose : k.Loose ⟨(k.links (threadListNode j)).next, none, 0, -1,
    (k.links (threadListNode j)).next ≠ none, some (threadListNode j)⟩ [k.currentThread, j] run blk
  /-- The new tail. -/
  tail : (k.links (threadListNode j)).next = none →
    (k.links (threadListNode j)).prev = (blk.map threadListNode).getLast?
  /-- The new `prev` field of the node after `j`. -/
  back : fresh → ∀ x, (k.links (threadListNode j)).next = some x →
    ∃ as bs, blk.map threadListNode = as ++ x :: bs ∧
      (k.links (threadListNode j)).prev = as.getLast?

/-- **Linking**: the last runnable thread `t` points at `j` already. -/
def Linking (k : Kernel) (j t : Nat) (fresh : Prop) (run blk : List Nat) : Prop :=
  run.getLast? = some t ∧ (k.links (threadListNode t)).next = some (threadListNode j) ∧
    ∃ n, (fresh → n = none) ∧
      k.Loose ⟨n, some (threadListNode t), 0, 0, True, none⟩ [k.currentThread, j] run blk

/-- **The stages** of the update that moves `j`: what the queues look like before each statement.
Only after an interrupt in the middle of `list_delete` may a `prev` field be off for good, when the
update is not `fresh` any more. -/
def Stage (k : Kernel) (j : Nat) (fresh : Prop) (run blk : List Nat) : UpdatePoint → Prop
  | .testPrev | .skipNext => k.Queued [k.currentThread] run blk ∧ j ∈ blk
  | .testHead | .moveHead => k.Queued [k.currentThread] run blk ∧ blk.head? = some j
  | .testNext => k.HalfOut j fresh run blk
  | .skipPrev => k.HalfOut j fresh run blk ∧ (k.links (threadListNode j)).next ≠ none
  | .testTail | .moveTail => k.HalfOut j fresh run blk ∧ (k.links (threadListNode j)).next = none
  | .countDown =>
      ∃ n, (fresh → n = none) ∧ k.Loose ⟨n, none, 0, -1, True, none⟩ [k.currentThread, j] run blk
  | .testEmpty | .linkNext =>
      ∃ n, (fresh → n = none) ∧ k.Loose ⟨n, none, 0, 0, True, none⟩ [k.currentThread, j] run blk
  | .linkPrev => ∃ t, k.Linking j t fresh run blk
  | .clearNext => ∃ t, k.Linking j t fresh run blk ∧
      (k.links (threadListNode j)).prev = some (threadListNode t)
  | .moveLast => ∃ t, k.Linking j t fresh run blk ∧
      k.links (threadListNode j) = ⟨some (threadListNode t), none⟩
  | .countUp =>
      ∃ n, (fresh → n = none) ∧ k.Loose ⟨n, none, 1, 0, True, none⟩ [k.currentThread] run blk
  | .done =>
      ∃ n, (fresh → n = none) ∧ k.Loose ⟨n, none, 0, 0, True, none⟩ [k.currentThread] run blk
  | .startList | .clearLinks => False

/-- The statement can be executed: nobody has taken away what the last test found. -/
def Executable (k : Kernel) (j : Nat) (p : UpdatePoint) : Prop :=
  p = .skipNext → (k.links (threadListNode j)).prev ≠ none

/-! ## The deletion -/

variable {k : Kernel} {j : Nat} {fresh : Prop} {run blk : List Nat}

/-- The first conditional of `list_delete` takes `j` out along `next`. -/
theorem halfOut_of_detach {k1 : Kernel} {m : Links NodePtr} {l : Header NodePtr}
    (h : k.Queued [k.currentThread] run blk) (hj : j ∈ blk)
    (hdetach : detachNext k.links k.blockedQueue (threadListNode j) = some (m, l))
    (hk : k1 = { k with links := m, blockedQueue := l }) :
    k1.HalfOut j True run (blk.erase j) := by
  subst hk
  obtain ⟨as, bs, rfl⟩ := List.append_of_mem hj
  have hnot : j ∉ as := fun hmem =>
    (List.disjoint_of_nodup_append h.blk_nodup) hmem List.mem_cons_self
  have herase : (as ++ j :: bs).erase j = as ++ bs := by
    rw [List.erase_append_right _ hnot, List.erase_cons_head]
  have hblocked := h.blocked
  rw [List.map_append, List.map_cons] at hblocked
  have hdelete := listDelete_eq hblocked
  have hnext := hblocked.next_eq
  have hprev := hblocked.prev_eq
  rw [detachNext_eq hblocked] at hdetach
  obtain ⟨rfl, rfl⟩ := Prod.mk.inj (Option.some.inj hdetach)
  obtain ⟨hq, -⟩ := h.deleteBlocked hj
  rw [herase] at hq ⊢
  -- the fields of `j` itself are not written
  have hself : pointLast k.links (as.map threadListNode).getLast? (bs.map threadListNode).head?
      (threadListNode j) = k.links (threadListNode j) := by
    apply pointLast_of_ne
    intro heq
    exact Refines.not_mem_nodes hnot (List.mem_of_getLast? heq)
  constructor
  · show Loose _ ⟨(pointLast k.links _ _ (threadListNode j)).next, none, 0, -1,
      (pointLast k.links _ _ (threadListNode j)).next ≠ none, _⟩ _ _ _
    rw [hself, hnext]
    refine ⟨⟨_, ?_, hq.reorder (List.Perm.swap _ _ _)⟩, ?_, nofun⟩
    · have hlinks : (k.deleteBlocked (threadListNode j)).links =
          pointFirst (pointLast k.links (as.map threadListNode).getLast?
            (bs.map threadListNode).head?) (bs.map threadListNode).head?
            (as.map threadListNode).getLast? := by
        rw [deleteBlocked, hdelete]
      have hheader : (k.deleteBlocked (threadListNode j)).blockedQueue =
          ⟨k.blockedQueue.length - 1, (as.map threadListNode ++ bs.map threadListNode).head?,
            (as.map threadListNode ++ bs.map threadListNode).getLast?⟩ := by
        rw [deleteBlocked, hdelete]
      refine ⟨?_, .refl _ _, ?_, rfl⟩
      · rw [hlinks]
        cases bs with
        | nil => exact .refl _ _ _
        | cons b bs =>
            refine ⟨fun x hx => ?_, fun x _ => ?_⟩
            · have hne : x ≠ threadListNode b := fun e => hx (by rw [e]; rfl)
              simp [pointFirst, hne]
            · simp [pointFirst]
      · rw [hheader]
        refine ⟨rfl, rfl, fun hsome => ?_, fun hnone => ?_⟩
        · cases bs with
          | nil => exact absurd rfl hsome
          | cons b bs =>
              show (as.map threadListNode ++ (b :: bs).map threadListNode).getLast? =
                k.blockedQueue.tail
              rw [hblocked.tail, List.getLast?_append_of_ne_nil _ (by simp),
                List.getLast?_append_of_ne_nil _ (by simp), List.map_cons, List.getLast?_cons_cons]
        · cases bs with
          | nil =>
              show k.blockedQueue.tail = _
              rw [hblocked.tail]
              exact List.getLast?_concat
          | cons b bs => exact absurd (Option.some_ne_none _) hnone
    · intro x hx
      exact List.mem_map.mpr ((List.mem_map.mp (List.mem_of_head? hx)).imp fun w hw =>
        ⟨List.mem_append_right _ hw.1, hw.2⟩)
  · intro hnone
    show (pointLast k.links _ _ (threadListNode j)).prev = _
    have hnone' : (bs.map threadListNode).head? = none := by
      rw [← hnext, ← hself]
      exact hnone
    have hbs : bs = [] := by simpa using hnone'
    rw [hself, hprev, hbs, List.append_nil]
  · intro _ x hx
    have hx' : (bs.map threadListNode).head? = some x := by
      rw [← hnext, ← hself]
      exact hx
    obtain ⟨rest, hrest⟩ := List.head?_eq_some_iff.mp hx'
    refine ⟨as.map threadListNode, rest, by rw [List.map_append, hrest], ?_⟩
    show (pointLast k.links _ _ (threadListNode j)).prev = _
    rw [hself, hprev]

/-- Right links are fresh. -/
theorem HalfOut.weaken {fresh' : Prop} (h : k.HalfOut j fresh run blk) (imp : fresh' → fresh) :
    k.HalfOut j fresh' run blk :=
  ⟨h.loose, h.tail, fun hf => h.back (imp hf)⟩

/-- `j -> next -> prev = j -> prev`. -/
theorem HalfOut.skipPrev {x : NodePtr} (h : k.HalfOut j fresh run blk)
    (hx : (k.links (threadListNode j)).next = some x) :
    ∃ n, (fresh → n = none) ∧
      { k with links := setPrev k.links x (k.links (threadListNode j)).prev }.Loose
        ⟨n, none, 0, -1, True, none⟩ [k.currentThread, j] run blk := by
  obtain ⟨⟨k', htwin, hq⟩, hfits⟩ := h.loose
  have hlinks := htwin.links
  rw [hx] at hlinks
  have hblocked := htwin.blocked.tighten (by rw [hx]; nofun)
  by_cases hf : fresh
  · refine ⟨none, fun _ => rfl, ⟨k', ⟨⟨fun y _ => ?_, fun y _ => ?_⟩, htwin.runnable, hblocked,
      htwin.rest⟩, hq⟩, nofun, nofun⟩
    · rw [setPrev_prev]
      split_ifs with hy
      · -- the node after `j`: its neighbours say what its `prev` field has to be
        obtain ⟨as, bs, hsplit, hback⟩ := h.back hf x hx
        have hright := hq.blocked
        rw [hsplit] at hright
        rw [hy, hback, hright.prev_eq]
      · exact hlinks.prev y fun e => hy (Option.some.inj e).symm
    · rw [setPrev_next]
      exact hlinks.next y nofun
  · refine ⟨some x, fun hf' => absurd hf' hf, ⟨k', ⟨⟨fun y hy => ?_, fun y _ => ?_⟩,
      htwin.runnable, hblocked, htwin.rest⟩, hq⟩, fun y hy => hfits.prev y (hx.trans hy), nofun⟩
    · have hne : y ≠ x := fun e => hy (by rw [e])
      rw [setPrev_prev, if_neg hne]
      exact hlinks.prev y hy
    · rw [setPrev_next]
      exact hlinks.next y nofun

/-- The tail of the queue still is `j` when nothing comes after it. -/
theorem HalfOut.tail_eq (h : k.HalfOut j fresh run blk)
    (hnone : (k.links (threadListNode j)).next = none) :
    k.blockedQueue.tail = some (threadListNode j) := by
  obtain ⟨⟨k', htwin, -⟩, -⟩ := h.loose
  exact htwin.blocked.loose fun hsome => hsome hnone

/-- `l -> tail = j -> prev`. -/
theorem HalfOut.moveTail (h : k.HalfOut j fresh run blk)
    (hnone : (k.links (threadListNode j)).next = none) :
    { k with blockedQueue := { k.blockedQueue with tail := (k.links (threadListNode j)).prev } }.Loose
      ⟨none, none, 0, -1, True, none⟩ [k.currentThread, j] run blk := by
  obtain ⟨⟨k', htwin, hq⟩, -⟩ := h.loose
  have hlinks := htwin.links
  rw [hnone] at hlinks
  refine ⟨⟨k', ⟨hlinks, htwin.runnable, ⟨htwin.blocked.head, htwin.blocked.length, fun _ => ?_,
    fun hnot => absurd trivial hnot⟩, htwin.rest⟩, hq⟩, nofun, nofun⟩
  show k'.blockedQueue.tail = _
  rw [hq.blocked.tail, h.tail hnone]

/-- `l -> length--`. -/
theorem countDown {n : Option NodePtr} {hand : List Nat}
    (h : k.Loose ⟨n, none, 0, -1, True, none⟩ hand run blk) :
    { k with blockedQueue := { k.blockedQueue with length := k.blockedQueue.length - 1 } }.Loose
      ⟨n, none, 0, 0, True, none⟩ hand run blk := by
  obtain ⟨⟨k', htwin, hq⟩, hfits⟩ := h
  refine ⟨⟨k', ⟨htwin.links, htwin.runnable, ⟨htwin.blocked.head, ?_, htwin.blocked.tail,
    htwin.blocked.loose⟩, htwin.rest⟩, hq⟩, hfits.prev, hfits.next⟩
  have hlength : k'.blockedQueue.length = k.blockedQueue.length + -1 := htwin.blocked.length
  show k'.blockedQueue.length = k.blockedQueue.length - 1 + 0
  omega

/-! ## The insertion -/

/-- The node of a thread of the hand may be written. -/
theorem Loose.setPrev_hand {s : Slack} {hand : List Nat} {t : Nat} (h : k.Loose s hand run blk)
    (ht : t ∈ hand) (v : Option NodePtr) :
    { k with links := setPrev k.links (threadListNode t) v }.Loose s hand run blk := by
  obtain ⟨⟨k', htwin, hq⟩, hfits⟩ := h
  have frame : ∀ xs : List Nat, t ∉ xs → ∀ x ∈ xs.map threadListNode,
      setPrev k'.links (threadListNode t) v x = k'.links x := by
    intro xs hnot x hx
    apply setPrev_of_ne
    rintro rfl
    exact Refines.not_mem_nodes hnot hx
  exact ⟨⟨{ k' with links := setPrev k'.links (threadListNode t) v },
    ⟨htwin.links.setPrev _ v, htwin.runnable, htwin.blocked, htwin.rest⟩,
    hq.moved (hq.runnable.frame (frame _ (hq.not_mem_run ht)))
      (hq.blocked.frame (frame _ (hq.not_mem_blk ht))) rfl (List.Perm.refl _)⟩, hfits⟩

/-- The node of a thread of the hand may be written. -/
theorem Loose.setNext_hand {s : Slack} {hand : List Nat} {t : Nat} (h : k.Loose s hand run blk)
    (ht : t ∈ hand) (v : Option NodePtr) :
    { k with links := setNext k.links (threadListNode t) v }.Loose s hand run blk := by
  obtain ⟨⟨k', htwin, hq⟩, hfits⟩ := h
  have frame : ∀ xs : List Nat, t ∉ xs → ∀ x ∈ xs.map threadListNode,
      setNext k'.links (threadListNode t) v x = k'.links x := by
    intro xs hnot x hx
    apply setNext_of_ne
    rintro rfl
    exact Refines.not_mem_nodes hnot hx
  exact ⟨⟨{ k' with links := setNext k'.links (threadListNode t) v },
    ⟨htwin.links.setNext _ v, htwin.runnable, htwin.blocked, htwin.rest⟩,
    hq.moved (hq.runnable.frame (frame _ (hq.not_mem_run ht)))
      (hq.blocked.frame (frame _ (hq.not_mem_blk ht))) rfl (List.Perm.refl _)⟩, hfits⟩

/-- The tail of the runnable queue is its last thread. -/
theorem Loose.runnable_tail {s : Slack} {hand : List Nat} (h : k.Loose s hand run blk) :
    k.runnableQueue.tail = run.getLast?.map threadListNode := by
  obtain ⟨⟨k', htwin, hq⟩, -⟩ := h
  rw [← htwin.runnable.tail trivial, hq.runnable.tail, List.getLast?_map]

/-- `l -> tail -> next = j`. -/
theorem linkNext {n : Option NodePtr} {t : Nat} (fine : fresh → n = none)
    (h : k.Loose ⟨n, none, 0, 0, True, none⟩ [k.currentThread, j] run blk)
    (ht : run.getLast? = some t) :
    { k with links := setNext k.links (threadListNode t) (some (threadListNode j)) }.Linking
      j t fresh run blk := by
  obtain ⟨⟨k', htwin, hq⟩, hfits⟩ := h
  refine ⟨ht, by simp, n, fine, ⟨k', ⟨⟨fun y hy => ?_, fun y hy => ?_⟩, htwin.runnable,
    htwin.blocked, htwin.rest⟩, hq⟩, hfits.prev, fun x hx => ?_⟩
  · rw [setNext_prev]
    exact htwin.links.prev y hy
  · have hne : y ≠ threadListNode t := fun e => hy (by rw [e])
    rw [setNext_next, if_neg hne]
    exact htwin.links.next y nofun
  · rw [List.getLast?_map, ht]
    exact hx

/-- In the middle of linking `t` and `j` are two threads. -/
theorem Linking.ne {t : Nat} (h : k.Linking j t fresh run blk) :
    threadListNode t ≠ threadListNode j := by
  obtain ⟨hlast, -, n, -, ⟨k', -, hq⟩, -⟩ := h
  intro heq
  obtain rfl : t = j := threadListNode_injective heq
  exact hq.not_mem_run (List.mem_cons_of_mem _ (List.mem_singleton_self _))
    (List.mem_of_getLast? hlast)

/-- `j -> prev = l -> tail`. -/
theorem Linking.linkPrev {t : Nat} (h : k.Linking j t fresh run blk) (v : Option NodePtr) :
    { k with links := setPrev k.links (threadListNode j) v }.Linking j t fresh run blk := by
  obtain ⟨hlast, hnext, n, fine, hloose⟩ := h
  refine ⟨hlast, ?_, n, fine, hloose.setPrev_hand
    (List.mem_cons_of_mem _ (List.mem_singleton_self _)) v⟩
  rw [setPrev_next]
  exact hnext

/-- `j -> next = NULL`. -/
theorem Linking.clearNext {t : Nat} (h : k.Linking j t fresh run blk) (v : Option NodePtr) :
    { k with links := setNext k.links (threadListNode j) v }.Linking j t fresh run blk := by
  have hne := h.ne
  obtain ⟨hlast, hnext, n, fine, hloose⟩ := h
  refine ⟨hlast, ?_, n, fine, hloose.setNext_hand
    (List.mem_cons_of_mem _ (List.mem_singleton_self _)) v⟩
  rw [setNext_next, if_neg hne]
  exact hnext

/-- `l -> tail = j`: the header catches up. -/
theorem Linking.moveLast {t : Nat} (h : k.Linking j t fresh run blk)
    (hj : k.links (threadListNode j) = ⟨some (threadListNode t), none⟩) :
    ∃ n, (fresh → n = none) ∧
      { k with runnableQueue := { k.runnableQueue with tail := some (threadListNode j) } }.Loose
        ⟨n, none, 1, 0, True, none⟩ [k.currentThread] (run ++ [j]) blk := by
  obtain ⟨hlast, hnext, n, fine, ⟨k', htwin, hq⟩, hfits⟩ := h
  have hq' := (hq.reorder (List.Perm.swap _ _ _)).insertRunnable.1
  have htail : k'.runnableQueue.tail = some (threadListNode t) := by
    rw [hq.runnable.tail, List.getLast?_map, hlast]
    rfl
  refine ⟨n, fine, ⟨k'.insertRunnable (threadListNode j), ⟨⟨fun y hy => ?_, fun y _ => ?_⟩, ?_,
    htwin.blocked, htwin.rest⟩, hq'⟩, hfits.prev, nofun⟩
  · simp only [insertRunnable, listInsertLast, htail, setNext_prev, setPrev_prev]
    split_ifs with hyj
    · rw [hyj, hj]
    · exact htwin.links.prev y hy
  · simp only [insertRunnable, listInsertLast, htail, setNext_next, setPrev_next]
    split_ifs with hyj hyt
    · rw [hyj, hj]
    · rw [hyt, hnext]
    · exact htwin.links.next y fun e => hyt (Option.some.inj e).symm
  · have hlength : k'.runnableQueue.length = k.runnableQueue.length + 0 := htwin.runnable.length
    simp only [insertRunnable, listInsertLast, htail]
    refine ⟨htwin.runnable.head, ?_, fun _ => rfl, fun hnot => absurd trivial hnot⟩
    show k'.runnableQueue.length + 1 = k.runnableQueue.length + 1
    omega

/-- `l -> length++`. -/
theorem countUp {n : Option NodePtr} {hand : List Nat}
    (h : k.Loose ⟨n, none, 1, 0, True, none⟩ hand run blk) :
    { k with runnableQueue := { k.runnableQueue with length := k.runnableQueue.length + 1 } }.Loose
      ⟨n, none, 0, 0, True, none⟩ hand run blk := by
  obtain ⟨⟨k', htwin, hq⟩, hfits⟩ := h
  refine ⟨⟨k', ⟨htwin.links, ⟨htwin.runnable.head, ?_, htwin.runnable.tail, htwin.runnable.loose⟩,
    htwin.blocked, htwin.rest⟩, hq⟩, hfits.prev, hfits.next⟩
  have hlength : k'.runnableQueue.length = k.runnableQueue.length + 1 := htwin.runnable.length
  show k'.runnableQueue.length = k.runnableQueue.length + 1 + 0
  omega

end Kernel

end Pebbles
