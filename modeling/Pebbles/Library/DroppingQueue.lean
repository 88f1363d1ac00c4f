import Pebbles.Library.Runs

/-! # A queue that drops its oldest element

A first-in first-out queue with room for `cap` elements: an element that arrives at a full queue
pushes the oldest one out. `Accounts` gives a history to what arrived: every arrival was handed out,
still waits, or was pushed out with at least `cap` arrivals after it, and what was handed out came
out in the order of arrival. -/

namespace DroppingQueue

open Transition

variable {α : Type*} {cap : Nat}

/-! ## The queue -/

/-- What is done to the queue. -/
inductive Op (α : Type*) where
  /-- An element arrives. -/
  | enqueue (a : α)
  /-- The oldest element is taken. -/
  | dequeue

/-- An element arrives. -/
def enqueue (cap : Nat) (q : List α) (a : α) : List α :=
  (if q.length = cap then q.tail else q) ++ [a]

/-- An operation on the queue and on what was handed out. Nothing is taken from an empty queue. -/
def next (cap : Nat) (s : List α × List α) : Op α → Option (List α × List α)
  | .enqueue a => some (enqueue cap s.1 a, s.2)
  | .dequeue =>
      match s.1 with
      | [] => none
      | a :: q => some (q, s.2 ++ [a])

/-- **The operations in a row**, from the empty queue: what waits and what was handed out. -/
def exec (cap : Nat) (ops : List (Op α)) : Option (List α × List α) :=
  runList (next cap) ([], []) ops

/-- The element that arrives. -/
def Op.arrival : Op α → Option α
  | .enqueue a => some a
  | .dequeue => none

/-- The elements that arrive, in order. -/
def arrivals (ops : List (Op α)) : List α := ops.filterMap Op.arrival

/-! ## The history -/

/-- **The history of the queue**: `picked` are the positions in `arrived` of the elements in `out`,
and `waiting` is in the queue. -/
structure Accounts (cap : Nat) (arrived out waiting : List α) (picked : List Nat) : Prop where
  /-- The queue has room for what waits. -/
  room : waiting.length ≤ cap
  /-- The last arrivals wait. -/
  suffix : waiting <:+ arrived
  /-- The elements handed out are those that arrived at the positions. -/
  values : out.map some = picked.map fun p => arrived[p]?
  /-- **Arrival order.** -/
  increasing : picked.Pairwise (· < ·)
  /-- What was handed out came before what waits. -/
  before : ∀ p ∈ picked, p + waiting.length < arrived.length
  /-- **What was pushed out** had `cap` arrivals after it. -/
  pushed : ∀ p, p + waiting.length < arrived.length → p ∉ picked → p + cap < arrived.length

variable {arrived out waiting : List α} {picked : List Nat}

theorem accounts_empty (cap : Nat) : Accounts cap ([] : List α) [] [] [] where
  room := Nat.zero_le cap
  suffix := List.suffix_rfl
  values := rfl
  increasing := List.Pairwise.nil
  before _ hp := nomatch hp
  pushed _ hp := nomatch hp

/-- **An arrival** pushes out the oldest element of a full queue. -/
theorem Accounts.enqueue (h : Accounts cap arrived out waiting picked) (pos : 0 < cap) (a : α) :
    Accounts cap (arrived ++ [a]) out (enqueue cap waiting a) picked := by
  have hroom := h.room
  have hlength := h.suffix.length_le
  have hsize : (DroppingQueue.enqueue cap waiting a).length =
      if waiting.length = cap then cap else waiting.length + 1 := by
    unfold DroppingQueue.enqueue
    split_ifs with hfull
    · rw [List.length_append, List.length_tail, List.length_singleton]
      omega
    · rw [List.length_append, List.length_singleton]
  refine ⟨?_, ?_, ?_, h.increasing, ?_, ?_⟩
  · rw [hsize]
    split_ifs <;> omega
  · unfold DroppingQueue.enqueue
    obtain ⟨gone, hgone⟩ := h.suffix
    split_ifs
    · obtain ⟨dropped, hdropped⟩ := List.tail_suffix waiting
      refine ⟨gone ++ dropped, ?_⟩
      rw [← List.append_assoc, List.append_assoc gone, hdropped, hgone]
    · exact ⟨gone, by rw [← List.append_assoc, hgone]⟩
  · rw [h.values]
    apply List.map_congr_left
    intro p hp
    have hbefore := h.before p hp
    rw [List.getElem?_append_left (by omega)]
  · intro p hp
    have hbefore := h.before p hp
    rw [hsize, List.length_append, List.length_singleton]
    split_ifs <;> omega
  · intro p hp hnot
    rw [hsize] at hp
    rw [List.length_append, List.length_singleton] at hp ⊢
    split_ifs at hp with hfull
    · exact hp
    · exact Nat.lt_succ_of_lt (h.pushed p (by omega) hnot)

/-- **The oldest element is handed out.** -/
theorem Accounts.dequeue {a : α} (h : Accounts cap arrived out (a :: waiting) picked) :
    Accounts cap arrived (out ++ [a]) waiting
      (picked ++ [arrived.length - (waiting.length + 1)]) := by
  have hroom := h.room
  have hlength := h.suffix.length_le
  rw [List.length_cons] at hroom hlength
  refine ⟨Nat.le_of_succ_le hroom, (List.suffix_cons a waiting).trans h.suffix, ?_, ?_, ?_, ?_⟩
  · have hfirst : arrived[arrived.length - (waiting.length + 1)]? = some a := by
      obtain ⟨gone, rfl⟩ := h.suffix
      have hposition : (gone ++ a :: waiting).length - (waiting.length + 1) = gone.length := by
        rw [List.length_append, List.length_cons, Nat.add_sub_cancel]
      rw [hposition, List.getElem?_append_right (Nat.le_refl _), Nat.sub_self,
        List.getElem?_cons_zero]
    rw [List.map_append, List.map_append, h.values, List.map_singleton, List.map_singleton, hfirst]
  · refine List.pairwise_append.mpr ⟨h.increasing, List.pairwise_singleton _ _, ?_⟩
    intro p hp p' hp'
    obtain rfl := List.mem_singleton.mp hp'
    have hbefore := h.before p hp
    rw [List.length_cons] at hbefore
    omega
  · intro p hp
    rcases List.mem_append.mp hp with hold | hnew
    · have hbefore := h.before p hold
      rw [List.length_cons] at hbefore
      omega
    · obtain rfl := List.mem_singleton.mp hnew
      omega
  · intro p hp hnot
    obtain ⟨hold, hnew⟩ := not_or.mp (mt List.mem_append.mpr hnot)
    have hne := mt List.mem_singleton.mpr hnew
    refine h.pushed p ?_ hold
    rw [List.length_cons]
    omega

/-- **Every run has its history.** -/
theorem accounts_of_exec (pos : 0 < cap) {ops : List (Op α)} {s : List α × List α}
    (run : exec cap ops = some s) : ∃ picked, Accounts cap (arrivals ops) s.2 s.1 picked := by
  refine (Run.of_runList run).trace_invariant
    (I := fun ops (s : List α × List α) => ∃ picked, Accounts cap (arrivals ops) s.2 s.1 picked)
    ⟨[], accounts_empty cap⟩ ?_
  rintro ops ⟨waiting, out⟩ op s' ⟨picked, h⟩ hstep
  cases op with
  | enqueue a =>
      obtain rfl := Option.some.inj hstep
      refine ⟨picked, ?_⟩
      rw [arrivals, List.filterMap_append]
      exact h.enqueue pos a
  | dequeue =>
      cases waiting with
      | nil => cases hstep
      | cons a waiting =>
          obtain rfl := Option.some.inj hstep
          have hsame : arrivals (ops ++ [.dequeue]) = arrivals ops := by
            rw [arrivals, List.filterMap_append]
            exact List.append_nil _
          rw [hsame]
          exact ⟨_, h.dequeue⟩

end DroppingQueue
