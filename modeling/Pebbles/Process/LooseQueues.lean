import Pebbles.Process.QueueContents
import Pebbles.DataStructure.LooseLinks

/-! # Scheduling with queues that are almost right

`Kernel.Loose k s hand run blk` says that the queues hold `run` and `blk` up to the slack `s`: one
`prev` field, one `next` field, the two lengths and the tail of `blocked_queue` may be off. The
functions of `schedule` do the same to such queues as to right ones, as long as they do not come
across the fields that are off. With no slack this is `Kernel.Queued`. -/

namespace Pebbles

open DoublyLinked

/-- **What may be off** in the two queues. -/
structure Slack where
  /-- The node whose `prev` field may be off. -/
  prev : Option NodePtr
  /-- The node whose `next` field may be off. -/
  next : Option NodePtr
  /-- What the length of the runnable queue lacks. -/
  run : Int
  /-- What the length of the blocked queue lacks. -/
  blk : Int
  /-- The tail of the blocked queue is right. -/
  tight : Prop
  /-- What it is otherwise. -/
  last : Option NodePtr

/-- The `next` field has been put right. -/
def Slack.healed (s : Slack) : Slack := { s with next := none }

theorem Slack.healed_of_none {s : Slack} (h : s.next = none) : s.healed = s := by
  cases s with
  | mk prev next run blk tight last =>
      obtain rfl : next = none := h
      rfl

/-- Nothing is off. -/
def Slack.exact : Slack := ⟨none, none, 0, 0, True, none⟩

/-- The node with the wrong `prev` field is in the blocked queue, the one with the wrong `next`
field the last of the runnable queue. -/
structure Slack.Fits (s : Slack) (run blk : List Nat) : Prop where
  /-- Where the `prev` field is. -/
  prev : ∀ x, s.prev = some x → x ∈ blk.map threadListNode
  /-- Where the `next` field is. -/
  next : ∀ x, s.next = some x → (run.map threadListNode).getLast? = some x

namespace Kernel

/-- The kernel without its queues. -/
def offQueues (k : Kernel) : Kernel :=
  { k with links := fun _ => ⟨none, none⟩, runnableQueue := emptyHeader, blockedQueue := emptyHeader }

/-- **Twins**: the queues of `k` are those of `k'` up to the slack `s`; all else is the same. -/
structure Twin (s : Slack) (k k' : Kernel) : Prop where
  /-- The links. -/
  links : LooseLinks s.prev s.next k.links k'.links
  /-- The header of the runnable queue. -/
  runnable : LooseHeader s.run True none k.runnableQueue k'.runnableQueue
  /-- The header of the blocked queue. -/
  blocked : LooseHeader s.blk s.tight s.last k.blockedQueue k'.blockedQueue
  /-- Everything else. -/
  rest : k'.offQueues = k.offQueues

namespace Twin

variable {s : Slack} {k k' : Kernel} {t : Nat}

theorem tcb (h : Twin s k k') : k'.tcb = k.tcb := congrArg (·.tcb) h.rest

theorem current (h : Twin s k k') : k'.currentThread = k.currentThread :=
  congrArg (·.currentThread) h.rest

theorem nextTid (h : Twin s k k') : k'.nextTid = k.nextTid := congrArg (·.nextTid) h.rest

theorem nextPid (h : Twin s k k') : k'.nextPid = k.nextPid := congrArg (·.nextPid) h.rest

theorem numTicks (h : Twin s k k') : k'.numTicks = k.numTicks := congrArg (·.numTicks) h.rest

theorem sleepOver (h : Twin s k k') : k'.sleepOver = k.sleepOver := by
  funext t
  simp only [Kernel.sleepOver, h.tcb, h.numTicks]

/-- The fields of a node that is not off. -/
theorem node (h : Twin s k k') (hp : s.prev ≠ some (threadListNode t))
    (hn : s.next ≠ some (threadListNode t)) :
    k'.links (threadListNode t) = k.links (threadListNode t) := by
  have hprev := h.links.prev _ hp
  have hnext := h.links.next _ hn
  cases hk : k.links (threadListNode t) with
  | mk a b =>
      cases hk' : k'.links (threadListNode t) with
      | mk a' b' =>
          rw [hk, hk'] at hprev hnext
          exact congrArg₂ Node.mk hprev hnext

/-- What is not written in one twin is not written in the other. -/
theorem kept {s1 : Slack} {k1 k1' : Kernel} (h : Twin s k k') (h1 : Twin s1 k1 k1')
    (hkept : NodeKept k' k1' t) (hp : s.prev ≠ some (threadListNode t))
    (hn : s.next ≠ some (threadListNode t)) (hp1 : s1.prev ≠ some (threadListNode t))
    (hn1 : s1.next ≠ some (threadListNode t)) : NodeKept k k1 t := by
  show k1.links _ = k.links _
  rw [← h.node hp hn, ← h1.node hp1 hn1]
  exact hkept

/-! ## The list operations on twins -/

theorem setState (h : Twin s k k') (st : ThreadState) :
    Twin s (k.setState t st) (k'.setState t st) where
  links := h.links
  runnable := h.runnable
  blocked := h.blocked
  rest := by
    have hoff : ∀ u : Kernel, (u.setState t st).offQueues = u.offQueues.setState t st := fun _ => rfl
    rw [hoff, hoff, h.rest]

theorem insertRunnable (h : Twin s k k') (n : NodePtr) :
    Twin s (k.insertRunnable n) (k'.insertRunnable n) where
  links := (h.links.insertLast h.runnable n).1
  runnable := (h.links.insertLast h.runnable n).2
  blocked := h.blocked
  rest := h.rest

/-- The insertion writes the `next` field of the last runnable thread. -/
theorem insertRunnable_heal (h : Twin s k k') {x : NodePtr} (hnext : s.next = some x)
    (htail : k.runnableQueue.tail = some x) (n : NodePtr) :
    Twin s.healed (k.insertRunnable n) (k'.insertRunnable n) where
  links := by
    have hlinks := h.links
    rw [hnext] at hlinks
    exact (hlinks.insertLast_heal h.runnable htail n).1
  runnable := (h.links.insertLast h.runnable n).2
  blocked := h.blocked
  rest := h.rest

theorem insertBlocked (h : Twin s k k') (tight : s.tight) (n : NodePtr) :
    Twin s (k.insertBlocked n) (k'.insertBlocked n) := by
  have hblocked : LooseHeader s.blk True none k.blockedQueue k'.blockedQueue :=
    ⟨h.blocked.head, h.blocked.length, fun _ => h.blocked.tail tight,
      fun hnot => absurd trivial hnot⟩
  obtain ⟨hlinks, hheader⟩ := h.links.insertLast hblocked n
  exact ⟨hlinks, h.runnable, ⟨hheader.head, hheader.length, fun _ => hheader.tail trivial,
    fun hnot => absurd tight hnot⟩, h.rest⟩

theorem deleteRunnable (h : Twin s k k') {x : NodePtr} (hp : s.prev ≠ some x)
    (hn : s.next ≠ some x) : Twin s (k.deleteRunnable x) (k'.deleteRunnable x) := by
  obtain ⟨hlinks, hheader, -⟩ := h.links.delete h.runnable hp hn (Or.inl trivial)
  exact ⟨hlinks, hheader, h.blocked, h.rest⟩

theorem deleteBlocked (h : Twin s k k') {x : NodePtr} (hp : s.prev ≠ some x)
    (hn : s.next ≠ some x) (last : s.tight ∨ (k.links x).next ≠ none) :
    Twin s (k.deleteBlocked x) (k'.deleteBlocked x) := by
  obtain ⟨hlinks, hheader, -⟩ := h.links.delete h.blocked hp hn last
  exact ⟨hlinks, h.runnable, hheader, h.rest⟩

theorem switchTo (h : Twin s k k') : Twin s (k.switchTo t) (k'.switchTo t) := by
  have hcurrent : ∀ u u' : Kernel, Twin s u u' →
      Twin s { u with currentThread := t } { u' with currentThread := t } := by
    intro u u' hu
    refine ⟨hu.links, hu.runnable, hu.blocked, ?_⟩
    exact congrArg (fun v : Kernel => { v with currentThread := t }) hu.rest
  unfold Kernel.switchTo
  rw [h.tcb]
  split_ifs
  · exact hcurrent _ _ (h.setState .running)
  · exact hcurrent _ _ h

end Twin

/-- **The queues hold `run` and `blk` up to the slack `s`**, and the threads of `hand` are in
neither. -/
structure Loose (k : Kernel) (s : Slack) (hand run blk : List Nat) : Prop where
  /-- A kernel with the same queues put right. -/
  twin : ∃ k', Twin s k k' ∧ k'.Queued hand run blk
  /-- Where the fields are that may be off. -/
  fits : s.Fits run blk

/-- With no slack. -/
theorem loose_exact {k : Kernel} {hand run blk : List Nat} :
    k.Loose .exact hand run blk ↔ k.Queued hand run blk := by
  constructor
  · rintro ⟨⟨k', htwin, hq⟩, -⟩
    have hlinks : k'.links = k.links := by
      funext x
      have hprev := htwin.links.prev x nofun
      have hnext := htwin.links.next x nofun
      cases hk : k.links x with
      | mk a b =>
          cases hk' : k'.links x with
          | mk a' b' =>
              rw [hk, hk'] at hprev hnext
              exact congrArg₂ Node.mk hprev hnext
    have header : ∀ l l' : Header NodePtr, LooseHeader 0 True none l l' → l = l' := by
      rintro ⟨n, a, b⟩ ⟨n', a', b'⟩ ⟨hhead, hlength, htail, -⟩
      have ht := htail trivial
      simp only at hhead hlength ht
      rw [hhead, ht, hlength, Int.add_zero]
    exact hq.congr hlinks.symm (header _ _ htwin.runnable) (header _ _ htwin.blocked)
      htwin.nextTid.symm
  · intro hq
    exact ⟨⟨k, ⟨.refl _ _ _, .refl _ _, .refl _ _, rfl⟩, hq⟩, nofun, nofun⟩

/-! ## The loop over the sleepers -/

/-- **The loop wakes the first sleeper whose time has come**, and no other. It follows the `next`
fields only. -/
theorem wakeSleepersFrom_visits {k : Kernel} {bs : List Nat} {fuel : Nat} {start : Option NodePtr}
    (h : Visits (fun x => (k.links x).next) start (bs.map threadListNode))
    (hfuel : bs.length ≤ fuel) :
    k.wakeSleepersFrom fuel start =
      match bs.find? k.sleepOver with
      | some t => k.wake t
      | none => k := by
  induction bs generalizing start fuel with
  | nil =>
      obtain rfl : start = none := h
      exact Refines.wakeSleepersFrom_none k fuel
  | cons t bs ih =>
      obtain ⟨rfl, hrest⟩ := h
      cases fuel with
      | zero => simp at hfuel
      | succ fuel =>
          rw [wakeSleepersFrom]
          show (let k' := if k.sleepOver t then k.wake t else k
            k'.wakeSleepersFrom fuel (k'.links (threadListNode t)).next) = _
          by_cases hover : k.sleepOver t = true
          · -- the moved node has no successor any more
            simp only [hover, if_true, List.find?_cons_of_pos, Refines.wake_next]
            exact Refines.wakeSleepersFrom_none _ fuel
          · simp only [hover, if_false, List.find?_cons_of_neg, not_false_eq_true,
              Bool.false_eq_true]
            exact ih hrest (by simpa using hfuel)

/-- **What the loop over the sleepers does** to the queues. -/
inductive Scanned (k : Kernel) (run blk : List Nat) : List Nat → List Nat → Prop
  /-- It wakes nobody. -/
  | nobody (none : blk.find? k.sleepOver = none) : Scanned k run blk run blk
  /-- It wakes one thread. -/
  | sleeper (w : Nat) (found : blk.find? k.sleepOver = some w) :
      Scanned k run blk (run ++ [w]) (blk.erase w)

/-- **What the loop may wake** when the queues are off by `s`: a thread whose `prev` field is right,
and the last blocked one only if the tail is right. -/
def Spares (k : Kernel) (s : Slack) (blk : List Nat) : Prop :=
  ∀ w, blk.find? k.sleepOver = some w →
    s.prev ≠ some (threadListNode w) ∧ (s.tight ∨ blk.getLast? ≠ some w)

namespace Loose

variable {k : Kernel} {s : Slack} {hand run blk : List Nat} {t : Nat}

/-- The wrong `prev` field is not one of a thread elsewhere. -/
theorem prev_ne (h : k.Loose s hand run blk) (ht : t ∉ blk) :
    s.prev ≠ some (threadListNode t) := by
  intro heq
  obtain ⟨w, hw, hnode⟩ := List.mem_map.mp (h.fits.prev _ heq)
  exact ht (threadListNode_injective hnode ▸ hw)

/-- Nor is the wrong `next` field. -/
theorem next_ne (h : k.Loose s hand run blk) (ht : t ∉ run) :
    s.next ≠ some (threadListNode t) := by
  intro heq
  obtain ⟨w, hw, hnode⟩ := List.mem_map.mp (List.mem_of_getLast? (h.fits.next _ heq))
  exact ht (threadListNode_injective hnode ▸ hw)

/-- The blocked queue can be walked. -/
theorem visits_blocked (h : k.Loose s hand run blk) :
    Visits (fun x => (k.links x).next) k.blockedQueue.head (blk.map threadListNode) := by
  obtain ⟨k', htwin, hq⟩ := h.twin
  have hvisits := hq.blocked.seg.visits_next
  rw [← hq.blocked.head, htwin.blocked.head] at hvisits
  apply hvisits.congr
  intro x hx
  obtain ⟨w, hw, rfl⟩ := List.mem_map.mp hx
  exact htwin.links.next _ (h.next_ne fun hrun => hq.run_disjoint_blk hrun hw)

/-- The scan finds the first sleeper whose time has come. -/
theorem wakeSleepers_eq (h : k.Loose s hand run blk) :
    k.wakeSleepers =
      match blk.find? k.sleepOver with
      | some t => k.wake t
      | none => k := by
  apply wakeSleepersFrom_visits h.visits_blocked
  obtain ⟨k', htwin, hq⟩ := h.twin
  apply Nat.le_trans (length_le_of_nodup_lt hq.blk_nodup _) (Nat.le_add_right _ _)
  intro w hw
  rw [← htwin.nextTid]
  exact hq.lt w (List.mem_append_right _ (List.mem_append_right _ hw))

/-! ## The parts of `schedule` -/

/-- A node that stays where it is in the twin, and is not one of those that are off. -/
theorem kept {k1 k' k1' : Kernel} {s1 : Slack} {run1 blk1 : List Nat} (h : k.Loose s hand run blk)
    (htwin : Twin s k k') (h1 : s1.Fits run1 blk1) (htwin1 : Twin s1 k1 k1')
    (hkept : NodeKept k' k1' t) (hrun : t ∉ run) (hblk : t ∉ blk) (hrun1 : t ∉ run1)
    (hblk1 : t ∉ blk1) : NodeKept k k1 t := by
  have hp1 : s1.prev ≠ some (threadListNode t) := by
    intro heq
    obtain ⟨w, hw, hnode⟩ := List.mem_map.mp (h1.prev _ heq)
    exact hblk1 (threadListNode_injective hnode ▸ hw)
  have hn1 : s1.next ≠ some (threadListNode t) := by
    intro heq
    obtain ⟨w, hw, hnode⟩ := List.mem_map.mp (List.mem_of_getLast? (h1.next _ heq))
    exact hrun1 (threadListNode_injective hnode ▸ hw)
  exact htwin.kept htwin1 hkept (h.prev_ne hblk) (h.next_ne hrun) hp1 hn1

/-- A blocked thread that is not the last one has another after it. -/
theorem next_ne_none (h : k.Loose s hand run blk) (ht : t ∈ blk) (hlast : blk.getLast? ≠ some t) :
    (k.links (threadListNode t)).next ≠ none := by
  obtain ⟨k', htwin, hq⟩ := h.twin
  have hsame := htwin.links.next _ (h.next_ne fun hrun => hq.run_disjoint_blk hrun ht)
  obtain ⟨as, bs, rfl⟩ := List.append_of_mem ht
  have hblocked := hq.blocked
  rw [List.map_append, List.map_cons] at hblocked
  rw [← hsame, hblocked.next_eq]
  cases bs with
  | nil => exact absurd (List.getLast?_concat) hlast
  | cons b bs => simp

/-- **Inserting** a thread of the hand in the runnable queue. -/
theorem insertRunnable (h : k.Loose s (t :: hand) run blk) :
    (k.insertRunnable (threadListNode t)).Loose s.healed hand (run ++ [t]) blk ∧
      ∀ w ∈ hand, NodeKept k (k.insertRunnable (threadListNode t)) w := by
  obtain ⟨k', htwin, hq⟩ := h.twin
  obtain ⟨hq1, hkept⟩ := hq.insertRunnable
  have htwin1 : Twin s.healed (k.insertRunnable (threadListNode t))
      (k'.insertRunnable (threadListNode t)) := by
    cases hnext : s.next with
    | none =>
        rw [Slack.healed_of_none hnext]
        exact htwin.insertRunnable _
    | some x =>
        apply htwin.insertRunnable_heal hnext
        rw [← htwin.runnable.tail trivial, hq.runnable.tail]
        exact h.fits.next x hnext
  have hfits : s.healed.Fits (run ++ [t]) blk := ⟨h.fits.prev, nofun⟩
  refine ⟨⟨⟨_, htwin1, hq1⟩, hfits⟩, fun w hw => ?_⟩
  have hrun := hq.not_mem_run (List.mem_cons_of_mem t hw)
  have hne : w ≠ t := by
    rintro rfl
    exact (List.nodup_cons.mp hq.nodup).1 (List.mem_append_left _ hw)
  exact h.kept htwin hfits htwin1 (hkept w hrun hne) hrun (hq.not_mem_blk (List.mem_cons_of_mem t hw))
    (hq1.not_mem_run hw) (hq1.not_mem_blk hw)

/-- **Inserting** a thread of the hand in the blocked queue, whose tail must be right. -/
theorem insertBlocked (h : k.Loose s (t :: hand) run blk) (tight : s.tight) :
    (k.insertBlocked (threadListNode t)).Loose s hand run (blk ++ [t]) ∧
      ∀ w ∈ hand, NodeKept k (k.insertBlocked (threadListNode t)) w := by
  obtain ⟨k', htwin, hq⟩ := h.twin
  obtain ⟨hq1, hkept⟩ := hq.insertBlocked
  have htwin1 := htwin.insertBlocked tight (threadListNode t)
  have hfits : s.Fits run (blk ++ [t]) := by
    refine ⟨fun x hx => ?_, h.fits.next⟩
    rw [List.map_append]
    exact List.mem_append_left _ (h.fits.prev x hx)
  refine ⟨⟨⟨_, htwin1, hq1⟩, hfits⟩, fun w hw => ?_⟩
  have hblk := hq.not_mem_blk (List.mem_cons_of_mem t hw)
  have hne : w ≠ t := by
    rintro rfl
    exact (List.nodup_cons.mp hq.nodup).1 (List.mem_append_left _ hw)
  exact h.kept htwin hfits htwin1 (hkept w hblk hne) (hq.not_mem_run (List.mem_cons_of_mem t hw)) hblk
    (hq1.not_mem_run hw) (hq1.not_mem_blk hw)

/-- **Taking** a thread off the runnable queue. -/
theorem deleteRunnable (h : k.Loose s hand run blk) (ht : t ∈ run)
    (hlast : s.next ≠ some (threadListNode t)) :
    (k.deleteRunnable (threadListNode t)).Loose s (t :: hand) (run.erase t) blk ∧
      ∀ w ∈ hand, NodeKept k (k.deleteRunnable (threadListNode t)) w := by
  obtain ⟨k', htwin, hq⟩ := h.twin
  obtain ⟨hq1, hkept⟩ := hq.deleteRunnable ht
  have hprev := h.prev_ne (hq.run_disjoint_blk ht)
  have htwin1 := htwin.deleteRunnable hprev hlast
  have hfits : s.Fits (run.erase t) blk := by
    refine ⟨h.fits.prev, fun x hx => ?_⟩
    have hlast' := h.fits.next x hx
    obtain ⟨as, bs, rfl⟩ := List.append_of_mem ht
    have hnot : t ∉ as := fun hmem =>
      (List.disjoint_of_nodup_append hq.run_nodup) hmem List.mem_cons_self
    rw [List.erase_append_right _ hnot, List.erase_cons_head]
    rw [List.map_append, List.map_cons] at hlast'
    rw [List.map_append]
    cases bs with
    | nil =>
        exfalso
        apply hlast
        rw [hx, ← hlast']
        exact List.getLast?_concat
    | cons b bs =>
        rw [List.getLast?_append_of_ne_nil _ (by simp)] at hlast' ⊢
        rw [List.map_cons, List.getLast?_cons_cons] at hlast'
        exact hlast'
  refine ⟨⟨⟨_, htwin1, hq1⟩, hfits⟩, fun w hw => ?_⟩
  have hrun := hq.not_mem_run hw
  exact h.kept htwin hfits htwin1 (hkept w hrun) hrun (hq.not_mem_blk hw)
    (hq1.not_mem_run (List.mem_cons_of_mem t hw)) (hq.not_mem_blk hw)

/-- **Taking** a thread off the blocked queue. -/
theorem deleteBlocked (h : k.Loose s hand run blk) (ht : t ∈ blk)
    (hp : s.prev ≠ some (threadListNode t)) (last : s.tight ∨ blk.getLast? ≠ some t) :
    (k.deleteBlocked (threadListNode t)).Loose s (t :: hand) run (blk.erase t) ∧
      ∀ w ∈ hand, NodeKept k (k.deleteBlocked (threadListNode t)) w := by
  obtain ⟨k', htwin, hq⟩ := h.twin
  obtain ⟨hq1, hkept⟩ := hq.deleteBlocked ht
  have hnext := h.next_ne fun hrun => hq.run_disjoint_blk hrun ht
  have htwin1 := htwin.deleteBlocked hp hnext (last.imp_right (h.next_ne_none ht))
  have hfits : s.Fits run (blk.erase t) := by
    refine ⟨fun x hx => ?_, h.fits.next⟩
    obtain ⟨w, hw, rfl⟩ := List.mem_map.mp (h.fits.prev x hx)
    apply List.mem_map_of_mem
    apply (List.mem_erase_of_ne _).mpr hw
    rintro rfl
    exact hp hx
  refine ⟨⟨⟨_, htwin1, hq1⟩, hfits⟩, fun w hw => ?_⟩
  have hblk := hq.not_mem_blk hw
  exact h.kept htwin hfits htwin1 (hkept w hblk) (hq.not_mem_run hw) hblk (hq.not_mem_run hw)
    (hq1.not_mem_blk (List.mem_cons_of_mem t hw))

/-- Only the links, the two headers and the number of threads matter. -/
theorem congr {k1 : Kernel} (h : k.Loose s hand run blk) (links : k1.links = k.links)
    (runnable : k1.runnableQueue = k.runnableQueue) (blocked : k1.blockedQueue = k.blockedQueue)
    (tid : k1.nextTid = k.nextTid) : k1.Loose s hand run blk := by
  obtain ⟨k', htwin, hq⟩ := h.twin
  let k1' : Kernel := { k1 with
    links := k'.links, runnableQueue := k'.runnableQueue, blockedQueue := k'.blockedQueue }
  refine ⟨⟨k1', ⟨?_, ?_, ?_, rfl⟩, hq.congr rfl rfl rfl (tid.trans htwin.nextTid.symm)⟩, h.fits⟩
  · rw [links]
    exact htwin.links
  · rw [runnable]
    exact htwin.runnable
  · rw [blocked]
    exact htwin.blocked

/-- The states of the threads do not matter. -/
theorem setState (h : k.Loose s hand run blk) (st : ThreadState) :
    (k.setState t st).Loose s hand run blk :=
  h.congr rfl rfl rfl rfl

/-- **Waking** a blocked thread. -/
theorem wake (h : k.Loose s hand run blk) (ht : t ∈ blk) (hp : s.prev ≠ some (threadListNode t))
    (last : s.tight ∨ blk.getLast? ≠ some t) :
    (k.wake t).Loose s.healed hand (run ++ [t]) (blk.erase t) ∧
      ∀ w ∈ hand, NodeKept k (k.wake t) w := by
  obtain ⟨hdelete, hkept⟩ := (h.setState (t := t) .runnable).deleteBlocked ht hp last
  obtain ⟨hinsert, hkept'⟩ := hdelete.insertRunnable
  exact ⟨hinsert, fun w hw => (hkept w hw).trans (hkept' w hw)⟩

/-- **The loop over the sleepers.** -/
theorem wakeSleepers (h : k.Loose s hand run blk) (spares : k.Spares s blk) :
    ∃ run1 blk1 s1, Scanned k run blk run1 blk1 ∧ (s1 = s ∧ run1 = run ∨ s1 = s.healed) ∧
      k.wakeSleepers.Loose s1 hand run1 blk1 ∧ ∀ w ∈ hand, NodeKept k k.wakeSleepers w := by
  rw [h.wakeSleepers_eq]
  cases hfind : blk.find? k.sleepOver with
  | none => exact ⟨run, blk, s, .nobody hfind, Or.inl ⟨rfl, rfl⟩, h, fun _ _ => rfl⟩
  | some t =>
      obtain ⟨hp, last⟩ := spares t hfind
      obtain ⟨hwake, hkept⟩ := h.wake (List.mem_of_find?_eq_some hfind) hp last
      exact ⟨_, _, _, .sleeper t hfind, Or.inr rfl, hwake, hkept⟩

/-- The scan writes the control blocks of blocked threads only. -/
theorem wakeSleepers_tcb (h : k.Loose s hand run blk) (ht : t ∉ blk) :
    k.wakeSleepers.tcb t = k.tcb t := by
  rw [h.wakeSleepers_eq]
  cases hfind : blk.find? k.sleepOver with
  | none => rfl
  | some w =>
      have hne : t ≠ w := by
        rintro rfl
        exact ht (List.mem_of_find?_eq_some hfind)
      exact Function.update_of_ne hne _ _

/-- So can the runnable queue when its `next` fields are right. -/
theorem visits_runnable (h : k.Loose s hand run blk) (right : s.next = none) :
    Visits (fun x => (k.links x).next) k.runnableQueue.head (run.map threadListNode) := by
  obtain ⟨k', htwin, hq⟩ := h.twin
  have hvisits := hq.runnable.seg.visits_next
  rw [← hq.runnable.head, htwin.runnable.head] at hvisits
  exact hvisits.congr fun x _ => htwin.links.next x (by rw [right]; nofun)

/-- A loop over the runnable queue meets all of it. -/
theorem members_runnable (h : k.Loose s hand run blk) (right : s.next = none) :
    k.members k.runnableQueue = run := by
  have hlen : (run.map threadListNode).length ≤ k.bound := by
    obtain ⟨k', htwin, hq⟩ := h.twin
    rw [List.length_map, Kernel.bound, ← htwin.nextTid]
    apply Nat.le_trans (length_le_of_nodup_lt hq.run_nodup _) (Nat.le_add_right _ _)
    intro w hw
    exact hq.lt w (List.mem_append_right _ (List.mem_append_left _ hw))
  unfold Kernel.members listBegin
  rw [(h.visits_runnable right).walk_eq hlen, List.map_map]
  exact List.map_id run

/-- A loop over the blocked queue meets all of it. -/
theorem members_blocked (h : k.Loose s hand run blk) : k.members k.blockedQueue = blk := by
  have hlen : (blk.map threadListNode).length ≤ k.bound := by
    obtain ⟨k', htwin, hq⟩ := h.twin
    rw [List.length_map, Kernel.bound, ← htwin.nextTid]
    apply Nat.le_trans (length_le_of_nodup_lt hq.blk_nodup _) (Nat.le_add_right _ _)
    intro w hw
    exact hq.lt w (List.mem_append_right _ (List.mem_append_right _ hw))
  unfold Kernel.members listBegin
  rw [h.visits_blocked.walk_eq hlen, List.map_map]
  exact List.map_id blk

/-- The first thread is not the last one. -/
theorem next_ne_first {rest : List Nat} (h : k.Loose s hand (t :: rest) blk)
    (more : s.next = none ∨ 2 ≤ (t :: rest).length) : s.next ≠ some (threadListNode t) := by
  intro hnext
  have hlast := h.fits.next _ hnext
  obtain ⟨k', -, hq⟩ := h.twin
  cases rest with
  | nil =>
      rcases more with hnone | hlen
      · rw [hnone] at hnext
        cases hnext
      · simp at hlen
  | cons b rest =>
      rw [List.map_cons, List.map_cons, List.getLast?_cons_cons] at hlast
      have hmem := List.mem_of_getLast? hlast
      rw [← List.map_cons] at hmem
      obtain ⟨w, hw, hnode⟩ := List.mem_map.mp hmem
      exact (List.nodup_cons.mp hq.run_nodup).1 (threadListNode_injective hnode ▸ hw)

/-- **Choosing the next thread.** -/
theorem takeNext {tid : Int} {k1 : Kernel} (h : k.Loose s hand run blk)
    (more : s.next = none ∨ tid = -1 ∧ 2 ≤ run.length) (hs : k.takeNext tid = some (t, k1)) :
    t ∈ run ∧ (tid = -1 → run.head? = some t) ∧ k1.Loose s (t :: hand) (run.erase t) blk ∧
      ∀ w ∈ hand, NodeKept k k1 w := by
  by_cases htid : tid = -1
  · subst htid
    obtain ⟨k', htwin, hq⟩ := h.twin
    cases run with
    | nil =>
        have hhead : k.runnableQueue.head = none := by
          rw [← htwin.runnable.head, hq.runnable.head]
          rfl
        simp [Kernel.takeNext, listDeleteFirst, hhead, listDelete] at hs
    | cons a rest =>
        have hhead : k.runnableQueue.head = some (threadListNode a) := by
          rw [← htwin.runnable.head, hq.runnable.head]
          rfl
        have hfirst := h.next_ne_first (more.imp_right And.right)
        have hprev := h.prev_ne (hq.run_disjoint_blk List.mem_cons_self)
        have hret := (htwin.links.delete htwin.runnable hprev hfirst (Or.inl trivial)).2.2
        rw [(listDelete_spec hq.runnable (List.mem_map_of_mem List.mem_cons_self)).2.1] at hret
        simp only [Kernel.takeNext, if_true, listDeleteFirst, hhead, ← hret, Option.map_some] at hs
        obtain ⟨rfl, rfl⟩ := Prod.mk.inj (Option.some.inj hs)
        obtain ⟨hdelete, hkept⟩ := h.deleteRunnable List.mem_cons_self hfirst
        exact ⟨List.mem_cons_self, fun _ => rfl, hdelete, hkept⟩
  · have hright : s.next = none := more.resolve_right fun hone => htid hone.1
    simp only [Kernel.takeNext, htid, if_false] at hs
    obtain ⟨w, hfind, heq⟩ := Option.map_eq_some_iff.mp hs
    obtain ⟨rfl, rfl⟩ := Prod.mk.inj heq
    rw [Kernel.listSearchTid, h.members_runnable hright] at hfind
    have hmem := List.mem_of_find?_eq_some hfind
    obtain ⟨hdelete, hkept⟩ := h.deleteRunnable hmem
      (by rw [hright]; exact (Option.some_ne_none _).symm)
    exact ⟨hmem, fun hone => absurd hone htid, hdelete, hkept⟩

/-- Switching. -/
theorem switchTo (h : k.Loose s hand run blk) : (k.switchTo t).Loose s hand run blk := by
  obtain ⟨k', htwin, hq⟩ := h.twin
  refine ⟨⟨_, htwin.switchTo, ?_⟩, h.fits⟩
  unfold Kernel.switchTo
  split_ifs <;> exact hq.congr rfl rfl rfl rfl

end Loose

/-! ## All of it -/

/-- **What `schedule` does to the queues.** The current thread `c`, the hand and the queues are
followed by the next current thread, the hand and the queues after the call. -/
inductive Rescheduled (k : Kernel) (tid : Int) (hand run blk : List Nat) :
    Nat → List Nat → List Nat → List Nat → Prop
  /-- Thread 1 goes on. -/
  | returns {run1 blk1 : List Nat} (scan : Scanned k run blk run1 blk1)
      (one : k.currentThread = 1) :
      Rescheduled k tid hand run blk k.currentThread hand run1 blk1
  /-- The current thread has exited. -/
  | exits {run1 blk1 : List Nat} {t : Nat} (scan : Scanned k run blk run1 blk1) (mem : t ∈ run1)
      (first : tid = -1 → run1.head? = some t) (state : (k.tcb k.currentThread).state = .exit) :
      Rescheduled k tid hand run blk t (k.currentThread :: hand) (run1.erase t) blk1
  /-- The current thread is suspended. -/
  | suspends {run1 blk1 : List Nat} {t : Nat} (scan : Scanned k run blk run1 blk1) (mem : t ∈ run1)
      (first : tid = -1 → run1.head? = some t)
      (state : (k.tcb k.currentThread).state.suspended = true) :
      Rescheduled k tid hand run blk t hand (run1.erase t) (blk1 ++ [k.currentThread])
  /-- The current thread could go on. -/
  | yields {run1 blk1 : List Nat} {t : Nat} (scan : Scanned k run blk run1 blk1) (mem : t ∈ run1)
      (first : tid = -1 → run1.head? = some t)
      (state : (k.tcb k.currentThread).state.ready = true) :
      Rescheduled k tid hand run blk t hand (run1.erase t ++ [k.currentThread]) blk1

/-- **`schedule` on queues that are almost right.** The tail of the blocked queue must be right if
the current thread is put there; a wrong `next` field at the end of the runnable queue must not be
met before the current thread is put behind it. -/
theorem Loose.schedule {k k1 : Kernel} {s : Slack} {hand run blk : List Nat} {tid : Int}
    (h : k.Loose s (k.currentThread :: hand) run blk) (spares : k.Spares s blk)
    (stays : s.tight ∨ (k.tcb k.currentThread).state.suspended = false)
    (more : s.next = none ∨ tid = -1 ∧ 2 ≤ run.length ∧ k.currentThread ≠ 1 ∧
      (k.tcb k.currentThread).state.ready = true)
    (hs : k.schedule tid = some k1) :
    ∃ hand' run' blk', Rescheduled k tid hand run blk k1.currentThread hand' run' blk' ∧
      k1.Loose s.healed (k1.currentThread :: hand') run' blk' ∧ ∀ w ∈ hand, NodeKept k k1 w := by
  obtain ⟨run1, blk1, s1, hscan, hs1, hloose, hkept⟩ := h.wakeSleepers spares
  have hheal : s1.healed = s.healed := by
    rcases hs1 with ⟨rfl, -⟩ | rfl <;> rfl
  have hcur : k.currentThread ∉ blk := by
    obtain ⟨k', -, hq⟩ := h.twin
    exact hq.not_mem_blk List.mem_cons_self
  have htcb := h.wakeSleepers_tcb hcur
  rcases schedule_cases hs with ⟨⟨hone, -⟩, rfl⟩ | ⟨-, t, k2, htake, rfl⟩
  · rw [k.wakeSleepers_current] at hone ⊢
    have hright : s.next = none := more.resolve_right fun hmore => hmore.2.2.1 hone
    have heq : s1 = s.healed := by
      rcases hs1 with ⟨rfl, -⟩ | rfl
      · exact (Slack.healed_of_none hright).symm
      · rfl
    rw [heq] at hloose
    exact ⟨hand, run1, blk1, .returns hscan hone, hloose,
      fun w hw => hkept w (List.mem_cons_of_mem _ hw)⟩
  · have hmore : s1.next = none ∨ tid = -1 ∧ 2 ≤ run1.length := by
      rcases hs1 with ⟨rfl, rfl⟩ | rfl
      · exact more.imp_right fun hmore => ⟨hmore.1, hmore.2.1⟩
      · exact Or.inl rfl
    obtain ⟨hmem, hfirst, htaken, hkept2⟩ := hloose.takeNext hmore htake
    obtain ⟨-, hcur2, htcb2⟩ := switched_takeNext htake
    rw [k.wakeSleepers_current] at hcur2
    have hstate : (k2.tcb k2.currentThread).state = (k.tcb k.currentThread).state := by
      rw [hcur2, htcb2, htcb]
    have hkept' : ∀ w ∈ hand, NodeKept k k2 w := fun w hw =>
      (hkept w (List.mem_cons_of_mem _ hw)).trans (hkept2 w (List.mem_cons_of_mem _ hw))
    -- the thread just taken and the current one change places in the hand
    have hswap : k2.Loose s1 (k2.currentThread :: t :: hand) (run1.erase t) blk1 := by
      obtain ⟨⟨k', htwin, hq⟩, hfits⟩ := htaken
      rw [hcur2]
      exact ⟨⟨k', htwin, hq.reorder (List.Perm.swap _ _ _)⟩, hfits⟩
    have hright : ¬ (k.tcb k.currentThread).state.ready = true → s1 = s.healed := by
      intro hnot
      have hnone : s.next = none := more.resolve_right fun hmore => hnot hmore.2.2.2
      rcases hs1 with ⟨rfl, -⟩ | rfl
      · exact (Slack.healed_of_none hnone).symm
      · rfl
    have keep : ∀ k3 : Kernel, (∀ w ∈ t :: hand, NodeKept k2 k3 w) →
        ∀ w ∈ hand, NodeKept k (k3.switchTo t) w := by
      intro k3 hk3 w hw
      have hlinks : (k3.switchTo t).links = k3.links := by
        unfold Kernel.switchTo
        split_ifs <;> rfl
      show (k3.switchTo t).links _ = _
      rw [hlinks]
      exact (hkept' w hw).trans (hk3 w (List.mem_cons_of_mem t hw))
    rw [switchTo_current]
    unfold Kernel.putBack
    rw [hstate]
    cases hst : (k.tcb k.currentThread).state with
    | exit =>
        have heq := hright (by rw [hst]; decide)
        rw [hst] at hstate
        rw [heq] at htaken
        refine ⟨k.currentThread :: hand, _, _, .exits hscan hmem hfirst hst, htaken.switchTo, ?_⟩
        exact keep k2 fun _ _ => rfl
    | blocked | waiting | readline | sleeping =>
        have heq := hright (by rw [hst]; decide)
        have htight : s.healed.tight := stays.resolve_right (by rw [hst]; decide)
        rw [heq] at hswap
        obtain ⟨hput, hkept3⟩ := hswap.insertBlocked htight
        rw [hcur2] at hput hkept3 ⊢
        exact ⟨hand, _, _, .suspends hscan hmem hfirst (by rw [hst]; rfl), hput.switchTo,
          keep _ hkept3⟩
    | running | runnable | init =>
        obtain ⟨hput, hkept3⟩ := hswap.insertRunnable
        rw [hheal, hcur2] at hput
        rw [hcur2] at hkept3 ⊢
        exact ⟨hand, _, _, .yields hscan hmem hfirst (by rw [hst]; rfl), hput.switchTo,
          keep _ hkept3⟩

/-! ## Who is ready afterwards -/

namespace Scanned

variable {k : Kernel} {run blk run1 blk1 : List Nat} {t : Nat}

/-- The scan moves threads about. -/
theorem perm (h : Scanned k run blk run1 blk1) : (run1 ++ blk1).Perm (run ++ blk) := by
  cases h with
  | nobody => exact List.Perm.refl _
  | sleeper w found =>
      rw [List.append_assoc]
      exact (List.perm_cons_erase (List.mem_of_find?_eq_some found)).symm.append_left run

/-- It takes nobody off the runnable queue. -/
theorem mem_run (h : Scanned k run blk run1 blk1) (ht : t ∈ run) : t ∈ run1 := by
  cases h with
  | nobody => exact ht
  | sleeper w found => exact List.mem_append_left _ ht

/-- It puts there the thread that it wakes. -/
theorem of_mem_run (h : Scanned k run blk run1 blk1) (ht : t ∈ run1) :
    t ∈ run ∨ blk.find? k.sleepOver = some t := by
  cases h with
  | nobody => exact Or.inl ht
  | sleeper w found =>
      rcases List.mem_append.mp ht with hmem | hlast
      · exact Or.inl hmem
      · rw [List.mem_singleton.mp hlast]
        exact Or.inr found

/-- Whoever is not woken stays blocked. -/
theorem mem_blk (h : Scanned k run blk run1 blk1) (ht : t ∈ blk)
    (asleep : blk.find? k.sleepOver ≠ some t) : t ∈ blk1 := by
  cases h with
  | nobody => exact ht
  | sleeper w found =>
      apply (List.mem_erase_of_ne _).mpr ht
      rintro rfl
      exact asleep found

end Scanned

/-- A thread that does not sleep is not woken. -/
theorem not_sleeper {k : Kernel} {t : Nat} (blk : List Nat)
    (awake : (k.tcb t).state ≠ .sleeping) : blk.find? k.sleepOver ≠ some t := by
  intro hfind
  have hover := List.find?_some hfind
  simp only [sleepOver, decide_eq_true_eq] at hover
  exact awake hover.1

namespace Rescheduled

variable {k : Kernel} {tid : Int} {hand run blk hand' run' blk' : List Nat} {t w : Nat}

/-- `schedule` moves threads about. -/
theorem perm (h : Rescheduled k tid hand run blk t hand' run' blk') :
    (t :: (hand' ++ (run' ++ blk'))).Perm (k.currentThread :: (hand ++ (run ++ blk))) := by
  -- the rest of the runnable queue, with the thread that was taken in front
  have taken : ∀ {run1 blk1 : List Nat}, Scanned k run blk run1 blk1 → t ∈ run1 →
      (t :: (hand ++ (run1.erase t ++ blk1))).Perm (hand ++ (run ++ blk)) := by
    intro run1 blk1 scan mem
    have hrun : (t :: (run1.erase t ++ blk1)).Perm (run ++ blk) :=
      ((List.perm_cons_erase mem).symm.append_right blk1).trans scan.perm
    exact List.perm_middle.symm.trans (hrun.append_left hand)
  cases h with
  | returns scan one => exact (scan.perm.append_left hand).cons _
  | exits scan mem first state =>
      exact (List.Perm.swap _ _ _).trans ((taken scan mem).cons _)
  | @suspends run1 blk1 _ scan mem first state =>
      have hmove : (hand ++ (run1.erase t ++ (blk1 ++ [k.currentThread]))).Perm
          (k.currentThread :: (hand ++ (run1.erase t ++ blk1))) := by
        rw [← List.append_assoc, ← List.append_assoc, ← List.append_assoc hand]
        exact List.perm_append_singleton _ _
      exact ((hmove.cons t).trans (List.Perm.swap _ _ _)).trans ((taken scan mem).cons _)
  | @yields run1 _ _ scan mem first state =>
      have hmove : (hand ++ (run1.erase t ++ [k.currentThread] ++ blk')).Perm
          (k.currentThread :: (hand ++ (run1.erase t ++ blk'))) := by
        rw [List.append_assoc, List.singleton_append, ← List.append_assoc,
          ← List.append_assoc hand]
        exact List.perm_middle
      exact ((hmove.cons t).trans (List.Perm.swap _ _ _)).trans ((taken scan mem).cons _)

/-- The hand stays the same unless the current thread has exited. -/
theorem hand_eq (h : Rescheduled k tid hand run blk t hand' run' blk')
    (live : (k.tcb k.currentThread).state ≠ .exit) : hand' = hand := by
  cases h with
  | exits scan mem first state => exact absurd state live
  | _ => rfl

/-- Who may run afterwards: whoever could before, whoever was woken, and the current thread. -/
theorem of_mem (h : Rescheduled k tid hand run blk t hand' run' blk') (hw : w ∈ t :: run') :
    w ∈ run ∨ blk.find? k.sleepOver = some w ∨
      w = k.currentThread ∧ (k.currentThread = 1 ∨ (k.tcb k.currentThread).state.ready = true) := by
  cases h with
  | returns scan one =>
      rcases List.mem_cons.mp hw with rfl | hmem
      · exact Or.inr (Or.inr ⟨rfl, Or.inl one⟩)
      · exact (scan.of_mem_run hmem).imp_right Or.inl
  | exits scan mem first state | suspends scan mem first state =>
      rcases List.mem_cons.mp hw with rfl | hmem
      · exact (scan.of_mem_run mem).imp_right Or.inl
      · exact (scan.of_mem_run (List.mem_of_mem_erase hmem)).imp_right Or.inl
  | yields scan mem first state =>
      rcases List.mem_cons.mp hw with rfl | hmem
      · exact (scan.of_mem_run mem).imp_right Or.inl
      · rcases List.mem_append.mp hmem with hrest | hlast
        · exact (scan.of_mem_run (List.mem_of_mem_erase hrest)).imp_right Or.inl
        · exact Or.inr (Or.inr ⟨List.mem_singleton.mp hlast, Or.inr state⟩)

/-- Whoever could run and does not suspend itself still can. -/
theorem mem_of_mem (h : Rescheduled k tid hand run blk t hand' run' blk')
    (hw : w ∈ run ∨ w = k.currentThread ∧ (k.tcb k.currentThread).state.ready = true) :
    w ∈ t :: run' := by
  have taken : ∀ {run1 blk1 : List Nat}, Scanned k run blk run1 blk1 → t ∈ run1 → w ∈ run →
      w ∈ t :: run1.erase t := fun scan mem hrun =>
    (List.perm_cons_erase mem).mem_iff.mp (scan.mem_run hrun)
  cases h with
  | returns scan one =>
      rcases hw with hrun | ⟨rfl, -⟩
      · exact List.mem_cons_of_mem _ (scan.mem_run hrun)
      · exact List.mem_cons_self
  | exits scan mem first state =>
      rcases hw with hrun | ⟨-, hready⟩
      · exact taken scan mem hrun
      · rw [state] at hready
        cases hready
  | suspends scan mem first state =>
      rcases hw with hrun | ⟨-, hready⟩
      · exact taken scan mem hrun
      · rw [Machine.ready_of_suspended state] at hready
        cases hready
  | yields scan mem first state =>
      rw [← List.cons_append]
      rcases hw with hrun | ⟨rfl, -⟩
      · exact List.mem_append_left _ (taken scan mem hrun)
      · exact List.mem_append_right _ (List.mem_singleton_self _)

/-- Whoever is not woken stays in the blocked queue. -/
theorem mem_blk (h : Rescheduled k tid hand run blk t hand' run' blk') (hw : w ∈ blk)
    (asleep : blk.find? k.sleepOver ≠ some w) : w ∈ blk' := by
  cases h with
  | returns scan | exits scan | yields scan => exact scan.mem_blk hw asleep
  | suspends scan => exact List.mem_append_left _ (scan.mem_blk hw asleep)

/-- Whoever is in a queue afterwards was in one, or is the current thread, which has not exited. -/
theorem of_mem_queues (h : Rescheduled k tid hand run blk t hand' run' blk')
    (hw : w ∈ run' ++ blk') :
    w ∈ run ++ blk ∨ w = k.currentThread ∧ (k.tcb k.currentThread).state ≠ .exit := by
  cases h with
  | returns scan one => exact Or.inl (scan.perm.mem_iff.mp hw)
  | exits scan mem first state =>
      refine Or.inl (scan.perm.mem_iff.mp ?_)
      exact (List.mem_append.mp hw).elim
        (fun hrun => List.mem_append_left _ (List.mem_of_mem_erase hrun))
        fun hblk => List.mem_append_right _ hblk
  | suspends scan mem first state =>
      rw [← List.append_assoc] at hw
      rcases List.mem_append.mp hw with hold | hlast
      · refine Or.inl (scan.perm.mem_iff.mp ?_)
        exact (List.mem_append.mp hold).elim
          (fun hrun => List.mem_append_left _ (List.mem_of_mem_erase hrun))
          fun hblk => List.mem_append_right _ hblk
      · exact Or.inr ⟨List.mem_singleton.mp hlast, Machine.ne_exit_of_suspended state⟩
  | yields scan mem first state =>
      rcases List.mem_append.mp hw with hrun | hblk
      · rcases List.mem_append.mp hrun with hold | hlast
        · refine Or.inl (scan.perm.mem_iff.mp ?_)
          exact List.mem_append_left _ (List.mem_of_mem_erase hold)
        · exact Or.inr ⟨List.mem_singleton.mp hlast, Machine.ne_exit_of_ready state⟩
      · exact Or.inl (scan.perm.mem_iff.mp (List.mem_append_right _ hblk))

/-- The next thread comes from a queue, unless thread 1 goes on. -/
theorem next_cases (h : Rescheduled k tid hand run blk t hand' run' blk') :
    t ∈ run ++ blk ∨ t = k.currentThread ∧ k.currentThread = 1 := by
  cases h with
  | returns scan one => exact Or.inr ⟨rfl, one⟩
  | exits scan mem first state | suspends scan mem first state | yields scan mem first state =>
      exact Or.inl (scan.perm.mem_iff.mp (List.mem_append_left _ mem))

/-- A suspended thread is put aside, unless it goes on. -/
theorem suspended (h : Rescheduled k tid hand run blk t hand' run' blk')
    (state : (k.tcb k.currentThread).state.suspended = true) :
    k.currentThread = t ∨ k.currentThread ∈ blk' := by
  cases h with
  | returns scan one => exact Or.inl rfl
  | exits scan mem first exited =>
      rw [exited] at state
      cases state
  | suspends => exact Or.inr (List.mem_append_right _ (List.mem_singleton_self _))
  | yields scan mem first ready =>
      rw [Machine.ready_of_suspended state] at ready
      cases ready

/-- An exited thread joins the hand. -/
theorem hand_cases (h : Rescheduled k tid hand run blk t hand' run' blk') :
    hand' = hand ∨ hand' = k.currentThread :: hand := by
  cases h with
  | exits => exact Or.inr rfl
  | _ => exact Or.inl rfl

end Rescheduled

/-- A ready thread stays ready. -/
theorem Switched.ready {k k1 : Kernel} {t : Nat} (h : Switched k k1)
    (ht : (k.tcb t).state.ready = true) : (k1.tcb t).state.ready = true := by
  rcases h.state t with heq | ⟨hready, -⟩
  · rw [heq]
    exact ht
  · exact hready

/-- After the scan `schedule` only moves queue nodes and starts new threads. -/
theorem switched_after_scan {k k1 : Kernel} {tid : Int} (hs : k.schedule tid = some k1) :
    Switched k.wakeSleepers k1 := by
  rcases schedule_cases hs with ⟨-, rfl⟩ | ⟨-, t, k2, htake, rfl⟩
  · exact .refl _
  · exact ((switched_takeNext htake).1.trans (switched_putBack k2).1).trans
      (switched_switchTo _ t)

/-- **Ready after `schedule`**: whoever was ready, and whoever was woken. -/
theorem Loose.schedule_ready {k k1 : Kernel} {s : Slack} {hand run blk : List Nat} {tid : Int}
    {t : Nat} (h : k.Loose s hand run blk) (hs : k.schedule tid = some k1)
    (ht : (k.tcb t).state.ready = true ∨ blk.find? k.sleepOver = some t) :
    (k1.tcb t).state.ready = true := by
  rcases ht with hready | hfound
  · exact (switched_schedule hs).ready hready
  · apply (switched_after_scan hs).ready
    rw [h.wakeSleepers_eq, hfound]
    show ((k.setState t .runnable).tcb t).state.ready = true
    rw [setState_state, if_pos rfl]
    rfl

/-- **`schedule` on right queues.** -/
theorem Queued.schedule {k k1 : Kernel} {hand run blk : List Nat} {tid : Int}
    (h : k.Queued (k.currentThread :: hand) run blk) (hs : k.schedule tid = some k1) :
    ∃ hand' run' blk', Rescheduled k tid hand run blk k1.currentThread hand' run' blk' ∧
      k1.Queued (k1.currentThread :: hand') run' blk' ∧ ∀ w ∈ hand, NodeKept k k1 w := by
  obtain ⟨hand', run', blk', heff, hloose, hkept⟩ := (loose_exact.mpr h).schedule
    (fun _ _ => ⟨nofun, Or.inl trivial⟩) (Or.inl trivial) (Or.inl rfl) hs
  exact ⟨hand', run', blk', heff, loose_exact.mp hloose, hkept⟩

end Kernel

end Pebbles
