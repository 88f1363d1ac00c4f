import Pebbles.Hardware.Keyboard
import Pebbles.Library.DroppingQueue

/-! # The keyboard ring is a queue

The ring of `kern/hardware/keyboard.c` under any sequence of calls of `enqueue` and `dequeue`. An
empty and a full ring are told apart by the first index only, which a call of `enqueue` pushes on
when the ring is full; both indices wrap around. The characters from the first index to the last are
a queue with room for 511 characters that drops its oldest one. -/

namespace Pebbles

open DroppingQueue Transition

namespace KeyQueue

/-- A call on the ring, and what was handed out. `readchar` calls `dequeue` on a ring that is not
empty only. -/
def next (s : KeyQueue × List UInt8) : Op UInt8 → Option (KeyQueue × List UInt8)
  | .enqueue c => some (s.1.enqueue c, s.2)
  | .dequeue => if s.1.queueEmpty then none else some (s.1.dequeue.2, s.2 ++ [s.1.dequeue.1])

/-- **The calls in a row**, after `setup_keyboard`. -/
def exec (ops : List (Op UInt8)) : Option (KeyQueue × List UInt8) := runList next (setup, []) ops

/-- The queue that a ring stands for. -/
def queued (s : KeyQueue × List UInt8) : List UInt8 × List UInt8 := (s.1.contents, s.2)

/-- **Each call** does to the ring what it does to the queue, and is refused when it is there. -/
theorem queued_next (s : KeyQueue × List UInt8) (op : Op UInt8) :
    (next s op).map queued = DroppingQueue.next 511 (queued s) op := by
  obtain ⟨k, out⟩ := s
  cases op with
  | enqueue c =>
      have hcontents := k.contents_enqueue c
      rw [← length_contents] at hcontents
      change some (queued (k.enqueue c, out)) = some (DroppingQueue.enqueue 511 k.contents c, out)
      rw [queued, hcontents, DroppingQueue.enqueue]
  | dequeue =>
      unfold next DroppingQueue.next queued
      dsimp only
      cases hcontents : k.contents with
      | nil =>
          rw [if_pos (k.queueEmpty_iff.mpr hcontents)]
          rfl
      | cons c cs =>
          obtain ⟨hc, hcs⟩ := contents_dequeue hcontents
          have hne : ¬k.queueEmpty = true := by
            rw [k.queueEmpty_iff, hcontents]
            exact List.cons_ne_nil c cs
          rw [if_neg hne, Option.map_some, hc, hcs]

/-- **The keyboard ring is a bounded queue.** Any sequence of calls goes through on the ring exactly
when it does on the queue, with the same characters handed out and the same ones left; both indices
stay in the buffer, `queue_empty` tells whether the queue is empty, and every character that came
was handed out in its turn, still waits, or was dropped with at least 511 characters after it. -/
theorem ring_is_queue (ops : List (Op UInt8)) :
    (exec ops).map queued = DroppingQueue.exec 511 ops ∧
      ∀ k out, exec ops = some (k, out) →
        k.start ≤ 511 ∧ k.tail ≤ 511 ∧ (k.queueEmpty = true ↔ k.contents = []) ∧
          ∃ picked, Accounts 511 (arrivals ops) out k.contents picked := by
  have hexec : (exec ops).map queued = DroppingQueue.exec 511 ops :=
    runList_map queued_next (setup, []) ops
  refine ⟨hexec, fun k out hrun => ?_⟩
  rw [hrun] at hexec
  exact ⟨Nat.le_of_lt_succ k.start_lt, Nat.le_of_lt_succ k.tail_lt, k.queueEmpty_iff,
    accounts_of_exec (by decide) hexec.symm⟩

/-- Three characters come and one is taken. -/
theorem ring_is_queue_three : ∃ k, exec [.enqueue 97, .enqueue 98, .dequeue, .enqueue 10] =
    some (k, [97]) ∧ k.contents = [98, 10] ∧ k.queueEmpty = false ∧
      ∃ picked, Accounts 511 [97, 98, 10] [97] k.contents picked := by
  obtain ⟨-, hring⟩ := ring_is_queue [.enqueue 97, .enqueue 98, .dequeue, .enqueue 10]
  obtain ⟨-, -, hempty, haccounts⟩ := hring _ _ rfl
  refine ⟨_, rfl, by decide, ?_, haccounts⟩
  rw [Bool.eq_false_iff, ne_eq, hempty]
  decide

end KeyQueue

end Pebbles
