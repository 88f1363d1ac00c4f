import Pebbles.Process.LooseQueues
import Pebbles.Library.Runs

/-! # Queue updates, statement by statement

`sys_fork` and `sys_thread_fork` end with `list_insert_last` on `runnable_queue`;
`sys_make_runnable` does `list_delete` on `blocked_queue` and then the same insertion. They hold
mutexes that `schedule` does not take, with interrupts enabled, so a timer interrupt may come
between any two statements. `Kernel.statement` executes one statement; `Kernel.turn` is what other
threads do until the interrupted one goes on. -/

namespace Pebbles

open DoublyLinked Transition

/-! ## The statements -/

/-- **Where an update of the queues stands**: the statement that comes next, first in
`list_delete(&blocked_queue, j)`, then in `list_insert_last(&runnable_queue, j)`. Each condition is
a statement of its own. -/
inductive UpdatePoint where
  /-- `if (j -> prev != NULL)`. -/
  | testPrev
  /-- `j -> prev -> next = j -> next`. -/
  | skipNext
  /-- `else if (l -> head == j)`. -/
  | testHead
  /-- `l -> head = j -> next`. -/
  | moveHead
  /-- `if (j -> next != NULL)`. -/
  | testNext
  /-- `j -> next -> prev = j -> prev`. -/
  | skipPrev
  /-- `else if (l -> tail == j)`. -/
  | testTail
  /-- `l -> tail = j -> prev`. -/
  | moveTail
  /-- `l -> length--`. -/
  | countDown
  /-- `if (l -> tail == NULL)`. -/
  | testEmpty
  /-- `l -> head = l -> tail = j`. -/
  | startList
  /-- `j -> prev = j -> next = NULL`. -/
  | clearLinks
  /-- `l -> tail -> next = j`. -/
  | linkNext
  /-- `j -> prev = l -> tail`. -/
  | linkPrev
  /-- `j -> next = NULL`. -/
  | clearNext
  /-- `l -> tail = j`. -/
  | moveLast
  /-- `l -> length++`. -/
  | countUp
  /-- The update is complete. -/
  | done
  deriving DecidableEq

/-- How many statements may be left. -/
def UpdatePoint.left : UpdatePoint → Nat
  | .testPrev => 13
  | .testHead => 12
  | .skipNext | .moveHead => 11
  | .testNext => 10
  | .testTail => 9
  | .skipPrev | .moveTail => 8
  | .countDown => 7
  | .testEmpty => 6
  | .linkNext => 5
  | .linkPrev => 4
  | .startList | .clearNext => 3
  | .clearLinks | .moveLast => 2
  | .countUp => 1
  | .done => 0

namespace Kernel

/-- **One statement** of the update for the node `j`. There is no result where the kernel would
write through `NULL`. Where `list_delete` returns early, `sys_make_runnable` goes on to the
insertion all the same. -/
def statement (k : Kernel) (j : NodePtr) : UpdatePoint → Option (Kernel × UpdatePoint)
  | .testPrev => some (k, if (k.links j).prev.isSome then .skipNext else .testHead)
  | .skipNext => (k.links j).prev.map fun p =>
      ({ k with links := setNext k.links p (k.links j).next }, .testNext)
  | .testHead => some (k, if k.blockedQueue.head = some j then .moveHead else .testEmpty)
  | .moveHead =>
      some ({ k with blockedQueue := { k.blockedQueue with head := (k.links j).next } }, .testNext)
  | .testNext => some (k, if (k.links j).next.isSome then .skipPrev else .testTail)
  | .skipPrev => (k.links j).next.map fun n =>
      ({ k with links := setPrev k.links n (k.links j).prev }, .countDown)
  | .testTail => some (k, if k.blockedQueue.tail = some j then .moveTail else .testEmpty)
  | .moveTail =>
      some ({ k with blockedQueue := { k.blockedQueue with tail := (k.links j).prev } }, .countDown)
  | .countDown =>
      some ({ k with
        blockedQueue := { k.blockedQueue with length := k.blockedQueue.length - 1 } }, .testEmpty)
  | .testEmpty => some (k, if k.runnableQueue.tail.isSome then .linkNext else .startList)
  | .startList =>
      some ({ k with runnableQueue := { k.runnableQueue with head := some j, tail := some j } },
        .clearLinks)
  | .clearLinks =>
      some ({ k with links := setPrev (setNext k.links j none) j none }, .countUp)
  | .linkNext => k.runnableQueue.tail.map fun t =>
      ({ k with links := setNext k.links t (some j) }, .linkPrev)
  | .linkPrev => some ({ k with links := setPrev k.links j k.runnableQueue.tail }, .clearNext)
  | .clearNext => some ({ k with links := setNext k.links j none }, .moveLast)
  | .moveLast =>
      some ({ k with runnableQueue := { k.runnableQueue with tail := some j } }, .countUp)
  | .countUp =>
      some ({ k with
        runnableQueue := { k.runnableQueue with length := k.runnableQueue.length + 1 } }, .done)
  | .done => some (k, .done)

/-- The next `count` statements. -/
def statements (j : NodePtr) : Nat → Kernel × UpdatePoint → Option (Kernel × UpdatePoint)
  | 0, x => some x
  | count + 1, x => (x.1.statement j x.2).bind (statements j count)

/-- The rest of the update, without an interrupt, leads to `k'`. -/
def Completes (k : Kernel) (j : NodePtr) (p : UpdatePoint) (k' : Kernel) : Prop :=
  ∃ count, statements j count (k, p) = some (k', .done)

theorem Completes.done {k : Kernel} {j : NodePtr} : k.Completes j .done k := ⟨0, rfl⟩

/-- One statement, then the rest. -/
theorem Completes.next {k k1 k' : Kernel} {j : NodePtr} {p p1 : UpdatePoint}
    (h : k.statement j p = some (k1, p1)) (rest : k1.Completes j p1 k') : k.Completes j p k' := by
  obtain ⟨count, hcount⟩ := rest
  refine ⟨count + 1, ?_⟩
  simp only [statements, h, Option.bind_some]
  exact hcount

/-- Statements in two parts. -/
theorem statements_add (j : NodePtr) (m n : Nat) (x : Kernel × UpdatePoint) :
    statements j (m + n) x = (statements j m x).bind (statements j n) := by
  induction m generalizing x with
  | zero => rw [Nat.zero_add, statements, Option.bind_some]
  | succ m ih =>
      rw [Nat.succ_add, statements, statements, Option.bind_assoc]
      congr 1
      funext y
      exact ih y

/-- After the last one nothing changes. -/
theorem statements_done (k : Kernel) (j : NodePtr) (n : Nat) :
    statements j n (k, .done) = some (k, .done) := by
  induction n with
  | zero => rfl
  | succ n ih => simpa only [statements, statement, Option.bind_some] using ih

/-- **The rest of an update has one outcome.** -/
theorem Completes.unique {k k1 k2 : Kernel} {j : NodePtr} {p : UpdatePoint}
    (h1 : k.Completes j p k1) (h2 : k.Completes j p k2) : k1 = k2 := by
  obtain ⟨m, hm⟩ := h1
  obtain ⟨n, hn⟩ := h2
  have h := statements_add j m n (k, p)
  have h' := statements_add j n m (k, p)
  rw [hm, Option.bind_some, statements_done] at h
  rw [hn, Option.bind_some, statements_done, Nat.add_comm, h] at h'
  exact (Prod.mk.inj (Option.some.inj h')).1

/-! ## What they amount to -/

/-- **Uninterrupted, the insertion is `list_insert_last`.** -/
theorem completes_insert (k : Kernel) (j : NodePtr) :
    k.Completes j .testEmpty (k.insertRunnable j) := by
  cases ht : k.runnableQueue.tail with
  | none =>
      refine ⟨4, ?_⟩
      simp only [statements, statement, ht, insertRunnable, listInsertLast, Option.bind_some,
        Option.isSome_none, Bool.false_eq_true, if_false, Option.some.injEq, Prod.mk.injEq, and_true]
      congr 1
      funext x
      by_cases hx : x = j
      · subst hx
        simp [setNext, setPrev]
      · rw [setPrev_of_ne _ _ hx, setNext_of_ne _ _ hx, setNext_of_ne _ _ hx, setPrev_of_ne _ _ hx]
  | some t =>
      refine ⟨6, ?_⟩
      simp only [statements, statement, ht, insertRunnable, listInsertLast, Option.bind_some,
        Option.isSome_some, if_true, Option.map_some]

/-- The kernel after the second conditional of `list_delete` and the count. -/
def afterDetach (k : Kernel) : Option (Links NodePtr × Header NodePtr) → Kernel
  | none => k
  | some r =>
      { k with links := r.1, blockedQueue := { r.2 with length := r.2.length - 1 } }

/-- From the second conditional of `list_delete` on. -/
theorem completes_testNext (k : Kernel) (j : NodePtr) :
    k.Completes j .testNext
      ((k.afterDetach (detachPrev k.links k.blockedQueue j)).insertRunnable j) := by
  cases hn : (k.links j).next with
  | some n =>
      have h1 : k.statement j .testNext = some (k, .skipPrev) := by simp [statement, hn]
      have h2 : k.statement j .skipPrev =
          some ({ k with links := setPrev k.links n (k.links j).prev }, .countDown) := by
        simp [statement, hn]
      simp only [detachPrev, hn]
      exact .next h1 (.next h2 (.next rfl (completes_insert _ j)))
  | none =>
      have h1 : k.statement j .testNext = some (k, .testTail) := by simp [statement, hn]
      refine .next h1 ?_
      by_cases ht : k.blockedQueue.tail = some j
      · have h2 : k.statement j .testTail = some (k, .moveTail) := by simp [statement, ht]
        simp only [detachPrev, hn, ht, if_true]
        exact .next h2 (.next rfl (.next rfl (completes_insert _ j)))
      · have h2 : k.statement j .testTail = some (k, .testEmpty) := by simp [statement, ht]
        simp only [detachPrev, hn, ht, if_false]
        exact .next h2 (completes_insert _ j)

/-- `list_delete` from its second conditional on. -/
theorem deleteBlocked_eq {k : Kernel} {j : NodePtr} {m : Links NodePtr} {l : Header NodePtr}
    (h : detachNext k.links k.blockedQueue j = some (m, l)) :
    k.deleteBlocked j =
      { k with links := m, blockedQueue := l }.afterDetach (detachPrev m l j) := by
  cases h2 : detachPrev m l j <;> simp [deleteBlocked, listDelete, h, h2, afterDetach]

/-- **Uninterrupted, the deletion is `list_delete`**, and the insertion follows. -/
theorem completes_move (k : Kernel) (j : NodePtr) :
    k.Completes j .testPrev ((k.deleteBlocked j).insertRunnable j) := by
  cases hp : (k.links j).prev with
  | some q =>
      have h1 : k.statement j .testPrev = some (k, .skipNext) := by simp [statement, hp]
      have h2 : k.statement j .skipNext =
          some ({ k with links := setNext k.links q (k.links j).next }, .testNext) := by
        simp [statement, hp]
      rw [deleteBlocked_eq (by simp only [detachNext, hp]; rfl)]
      exact .next h1 (.next h2 (completes_testNext _ j))
  | none =>
      have h1 : k.statement j .testPrev = some (k, .testHead) := by simp [statement, hp]
      refine .next h1 ?_
      by_cases hh : k.blockedQueue.head = some j
      · have h2 : k.statement j .testHead = some (k, .moveHead) := by simp [statement, hh]
        rw [deleteBlocked_eq (by simp only [detachNext, hp, hh, if_true]; rfl)]
        exact .next h2 (.next rfl (completes_testNext _ j))
      · have h2 : k.statement j .testHead = some (k, .testEmpty) := by simp [statement, hh]
        have hk : k.deleteBlocked j = k := by simp [deleteBlocked, listDelete_stranger hp hh]
        rw [hk]
        exact .next h2 (completes_insert _ j)

end Kernel

/-! ## What other threads do meanwhile -/

/-- **A turn**: what happens while the update is interrupted. -/
inductive Turn where
  /-- A timer interrupt that does not call `schedule`. -/
  | tick
  /-- A timer interrupt that does. -/
  | timer
  /-- The running thread calls `schedule(tid)` in `yield`. -/
  | yield (tid : Int)
  /-- The running thread puts itself aside in the state `st` and calls `schedule(-1)`, as `sleep`,
  `deschedule`, `wait` and `readline` do. -/
  | suspend (st : ThreadState) (startTicks duration : Nat)

namespace Kernel

/-- `numTicks++`. -/
def ticked (k : Kernel) : Kernel := { k with numTicks := (k.numTicks + 1) % 2 ^ 32 }

/-- The next timer interrupt calls `schedule`. -/
def switchDue (k : Kernel) : Prop := k.ticked.numTicks % scheduleInterval = 0

instance (k : Kernel) : Decidable k.switchDue := inferInstanceAs (Decidable (_ = _))

/-- The call of `schedule` of a turn: the state before the call, and the argument. -/
def calls (k : Kernel) : Turn → Option (Kernel × Int)
  | .tick => none
  | .timer => some (k.ticked, -1)
  | .yield tid => some (k, tid)
  | .suspend st startTicks duration =>
      some (k.setTcb k.currentThread { k.tcb k.currentThread with
        state := st, startTicks := startTicks, duration := duration }, -1)

/-- When a turn can be taken: the thread `c` is in the middle of the update, so it makes no system
call, and thread 1 does not put itself aside. -/
def Allows (c : Nat) (k : Kernel) : Turn → Prop
  | .tick => ¬ k.switchDue
  | .timer => k.switchDue
  | .yield _ => k.currentThread ≠ c
  | .suspend st _ _ => st.suspended = true ∧ k.currentThread ≠ 1 ∧ k.currentThread ≠ c

instance (c : Nat) (k : Kernel) (t : Turn) : Decidable (k.Allows c t) := by
  cases t <;> unfold Allows <;> infer_instance

/-- **One turn.** -/
def turn (c : Nat) (k : Kernel) (t : Turn) : Option Kernel :=
  if k.Allows c t then
    match k.calls t with
    | some r => r.1.schedule r.2
    | none => some k.ticked
  else none

/-- The two timer turns are the timer handler. -/
theorem timerHandler_eq (c : Nat) (k : Kernel) :
    k.timerHandler = k.turn c (if k.switchDue then .timer else .tick) := by
  by_cases h : k.switchDue
  · have hdue : (k.numTicks + 1) % 2 ^ 32 % scheduleInterval = 0 := h
    simp only [h, if_true, turn, Allows, calls, timerHandler, hdue]
    rfl
  · have hdue : ¬ (k.numTicks + 1) % 2 ^ 32 % scheduleInterval = 0 := h
    simp only [h, if_false, turn, Allows, calls, timerHandler, hdue, not_false_eq_true, if_true]
    rfl

/-- Turns one after the other. -/
def TurnStep (c : Nat) (k : Kernel) (t : Turn) (k' : Kernel) : Prop := k.turn c t = some k'

/-- The call of `schedule` in a turn, or a tick. -/
theorem turn_cases {c : Nat} {k k' : Kernel} {t : Turn} (h : k.turn c t = some k') :
    k.Allows c t ∧ (t = .tick ∧ k' = k.ticked ∨
      ∃ k1 tid, k.calls t = some (k1, tid) ∧ k1.schedule tid = some k') := by
  unfold turn at h
  split_ifs at h with hallows
  refine ⟨hallows, ?_⟩
  cases t with
  | tick => exact Or.inl ⟨rfl, (Option.some.inj h).symm⟩
  | timer => exact Or.inr ⟨_, _, rfl, h⟩
  | yield tid => exact Or.inr ⟨_, _, rfl, h⟩
  | suspend st startTicks duration => exact Or.inr ⟨_, _, rfl, h⟩

end Kernel

end Pebbles
