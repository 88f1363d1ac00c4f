import Pebbles.Process.Preemption
import Pebbles.Process.Machine

/-! # What a switch leaves alone

`schedule` in any kernel state, with the queues in whatever order: it moves queue nodes, wakes
sleepers and starts new threads. `Kernel.Switched` says so once. -/

namespace Pebbles

open DoublyLinked

namespace Kernel

/-- **Switched**: sleepers have been woken, new threads started and queue nodes moved; no other
state of a thread, no process and no counter has changed. -/
structure Switched (k k' : Kernel) : Prop where
  /-- The processes are the same. -/
  pcb : k'.pcb = k.pcb
  /-- So is the queue of all processes. -/
  processQueue : k'.processQueue = k.processQueue
  /-- No thread was created. -/
  nextTid : k'.nextTid = k.nextTid
  /-- No process was created. -/
  nextPid : k'.nextPid = k.nextPid
  /-- No thread was freed. -/
  freedTcb : k'.freedTcb = k.freedTcb
  /-- No process was freed. -/
  freedPcb : k'.freedPcb = k.freedPcb
  /-- No thread changed its process. -/
  owner : ∀ t, (k'.tcb t).pcb = (k.tcb t).pcb
  /-- Only sleepers and new threads have changed their state. -/
  state : ∀ t, (k'.tcb t).state = (k.tcb t).state ∨
    (k'.tcb t).state.ready = true ∧ ((k.tcb t).state = .sleeping ∨ (k.tcb t).state = .init)

namespace Switched

variable {k k1 k2 : Kernel}

theorem refl (k : Kernel) : Switched k k :=
  ⟨rfl, rfl, rfl, rfl, rfl, rfl, fun _ => rfl, fun _ => Or.inl rfl⟩

theorem trans (h : Switched k k1) (h' : Switched k1 k2) : Switched k k2 where
  pcb := h'.pcb.trans h.pcb
  processQueue := h'.processQueue.trans h.processQueue
  nextTid := h'.nextTid.trans h.nextTid
  nextPid := h'.nextPid.trans h.nextPid
  freedTcb := h'.freedTcb.trans h.freedTcb
  freedPcb := h'.freedPcb.trans h.freedPcb
  owner t := (h'.owner t).trans (h.owner t)
  state t := by
    rcases h'.state t with heq | ⟨hready, hfrom⟩
    · rw [heq]
      exact h.state t
    · rcases h.state t with heq | ⟨-, hfrom'⟩
      · rw [heq] at hfrom
        exact Or.inr ⟨hready, hfrom⟩
      · exact Or.inr ⟨hready, hfrom'⟩

/-- A state that is neither ready nor that of a sleeper is kept, and none is entered. -/
theorem state_iff (h : Switched k k1) {st : ThreadState} (ready : st.ready = false)
    (sleeping : st ≠ .sleeping) (t : Nat) :
    (k1.tcb t).state = st ↔ (k.tcb t).state = st := by
  rcases h.state t with heq | ⟨hready, hfrom⟩
  · rw [heq]
  · constructor
    · intro heq
      rw [heq, ready] at hready
      cases hready
    · intro heq
      rcases hfrom with hs | hs
      · exact absurd (heq.symm.trans hs) sleeping
      · rw [← heq, hs] at ready
        cases ready

end Switched

/-! ## The parts of `schedule` -/

/-- The state of a thread after an assignment to one of them. -/
@[simp] theorem setState_state (k : Kernel) (t s : Nat) (st : ThreadState) :
    ((k.setState t st).tcb s).state = if s = t then st else (k.tcb s).state := by
  by_cases h : s = t
  · subst h
    simp [setState, setTcb]
  · simp [setState, setTcb, h]

@[simp] theorem setState_pcb (k : Kernel) (t s : Nat) (st : ThreadState) :
    ((k.setState t st).tcb s).pcb = (k.tcb s).pcb := by
  by_cases h : s = t
  · subst h
    simp [setState, setTcb]
  · simp [setState, setTcb, h]

/-- A sleeper, or a new thread, is given a ready state. -/
theorem switched_setState {k : Kernel} {t : Nat} (st : ThreadState) (ready : st.ready = true)
    (h : (k.tcb t).state = .sleeping ∨ (k.tcb t).state = .init) : Switched k (k.setState t st) where
  pcb := rfl
  processQueue := rfl
  nextTid := rfl
  nextPid := rfl
  freedTcb := rfl
  freedPcb := rfl
  owner s := k.setState_pcb t s st
  state s := by
    rw [setState_state]
    by_cases hst : s = t
    · rw [if_pos hst, hst]
      exact Or.inr ⟨ready, h⟩
    · rw [if_neg hst]
      exact Or.inl rfl

/-- Moving queue nodes about is a switch. -/
theorem switched_queues (k : Kernel) (l : Links NodePtr) (rq bq : Header NodePtr) (t : Nat) :
    Switched k { k with links := l, runnableQueue := rq, blockedQueue := bq, currentThread := t } :=
  ⟨rfl, rfl, rfl, rfl, rfl, rfl, fun _ => rfl, fun _ => Or.inl rfl⟩

/-- Waking a sleeper is a switch. -/
theorem switched_wake {k : Kernel} {t : Nat} (h : (k.tcb t).state = .sleeping) :
    Switched k (k.wake t) :=
  (switched_setState .runnable rfl (Or.inl h)).trans (switched_queues _ _ _ _ _)

/-- So is the loop over the sleepers, from any node. -/
theorem switched_wakeSleepersFrom (fuel : Nat) (n : Option NodePtr) (k : Kernel) :
    Switched k (k.wakeSleepersFrom fuel n) ∧
      (k.wakeSleepersFrom fuel n).currentThread = k.currentThread := by
  induction fuel generalizing n k with
  | zero => exact ⟨Switched.refl k, rfl⟩
  | succ fuel ih =>
      cases n with
      | none => exact ⟨Switched.refl k, rfl⟩
      | some n =>
          rw [wakeSleepersFrom]
          by_cases hover : k.sleepOver (listEntry n) = true
          · have hsleeping : (k.tcb (listEntry n)).state = .sleeping := by
              simp only [sleepOver, decide_eq_true_eq] at hover
              exact hover.1
            rw [if_pos hover]
            obtain ⟨hrest, hcurrent⟩ := ih ((k.wake (listEntry n)).links n).next (k.wake (listEntry n))
            exact ⟨(switched_wake hsleeping).trans hrest, hcurrent⟩
          · rw [if_neg hover]
            exact ih _ k

theorem switched_wakeSleepers (k : Kernel) : Switched k k.wakeSleepers :=
  (switched_wakeSleepersFrom _ _ k).1

@[simp] theorem wakeSleepers_current (k : Kernel) :
    k.wakeSleepers.currentThread = k.currentThread :=
  (switched_wakeSleepersFrom _ _ k).2

theorem switched_takeNext {k k1 : Kernel} {tid : Int} {t : Nat}
    (h : k.takeNext tid = some (t, k1)) :
    Switched k k1 ∧ k1.currentThread = k.currentThread ∧ k1.tcb = k.tcb := by
  unfold takeNext at h
  split_ifs at h with htid
  · obtain ⟨n, -, heq⟩ := Option.map_eq_some_iff.mp h
    obtain ⟨-, rfl⟩ := Prod.mk.inj heq
    exact ⟨switched_queues _ _ _ _ _, rfl, rfl⟩
  · obtain ⟨n, -, heq⟩ := Option.map_eq_some_iff.mp h
    obtain ⟨-, rfl⟩ := Prod.mk.inj heq
    exact ⟨switched_queues _ _ _ _ _, rfl, rfl⟩

theorem switched_putBack (k : Kernel) : Switched k k.putBack ∧ k.putBack.tcb = k.tcb := by
  unfold putBack
  split
  · exact ⟨Switched.refl k, rfl⟩
  all_goals exact ⟨switched_queues _ _ _ _ _, rfl⟩

theorem switched_switchTo (k : Kernel) (t : Nat) : Switched k (k.switchTo t) := by
  unfold switchTo
  by_cases hinit : (k.tcb t).state = .init
  · rw [if_pos hinit]
    exact (switched_setState .running rfl (Or.inr hinit)).trans (switched_queues _ _ _ _ _)
  · rw [if_neg hinit]
    exact switched_queues _ _ _ _ _

@[simp] theorem switchTo_current (k : Kernel) (t : Nat) : (k.switchTo t).currentThread = t := by
  unfold switchTo
  split_ifs <;> rfl

/-! ## All of it -/

/-- **`schedule`** returns at once, or takes a thread off the runnable queue, puts the current one
back and goes on with the other. -/
theorem schedule_cases {k k' : Kernel} {tid : Int} (h : k.schedule tid = some k') :
    k.idles ∧ k' = k.wakeSleepers ∨
      ¬ k.idles ∧ ∃ t k1, k.wakeSleepers.takeNext tid = some (t, k1) ∧ k' = k1.putBack.switchTo t := by
  have hs : (if k.idles then some k.wakeSleepers
      else (k.wakeSleepers.takeNext tid).map fun r => r.2.putBack.switchTo r.1) = some k' := h
  by_cases hidle : k.idles
  · refine Or.inl ⟨hidle, ?_⟩
    rw [if_pos hidle] at hs
    exact (Option.some.inj hs).symm
  · refine Or.inr ⟨hidle, ?_⟩
    rw [if_neg hidle] at hs
    obtain ⟨r, htake, rfl⟩ := Option.map_eq_some_iff.mp hs
    exact ⟨r.1, r.2, htake, rfl⟩

/-- **A switch changes little**, whatever the queues look like. -/
theorem switched_schedule {k k' : Kernel} {tid : Int} (h : k.schedule tid = some k') :
    Switched k k' := by
  have hwake := k.switched_wakeSleepers
  rcases schedule_cases h with ⟨-, rfl⟩ | ⟨-, t, k1, htake, rfl⟩
  · exact hwake
  · exact ((hwake.trans (switched_takeNext htake).1).trans (switched_putBack k1).1).trans
      (switched_switchTo _ t)

/-- When `schedule` returns at once the same thread goes on. -/
theorem schedule_idles {k k' : Kernel} {tid : Int} (h : k.schedule tid = some k') (idle : k.idles) :
    k'.currentThread = k.currentThread := by
  rcases schedule_cases h with ⟨-, rfl⟩ | ⟨hnot, -⟩
  · exact k.wakeSleepers_current
  · exact absurd idle hnot

end Kernel

/-! ## The same for the preemptible kernel -/

namespace Preempt

/-- **A call of `schedule`** switches, and drops `deschedule_lock` when it puts a blocked thread
aside. -/
theorem schedule_spec {s s' : Preempt} {tid : Int} (h : s.schedule tid = some s') :
    s.kernel.schedule tid = some s'.kernel ∧ s'.pc = s.pc ∧ s'.threads = s.threads ∧
      s'.freedPd = s.freedPd ∧ s'.word = s.word ∧ s'.mapped = s.mapped ∧
        s'.owner = if s.kernel.handsOver then Function.update s.owner .deschedule none
          else s.owner := by
  obtain ⟨k, hk, rfl⟩ := Option.map_eq_some_iff.mp h
  exact ⟨hk, rfl, rfl, rfl, rfl, rfl, rfl⟩

@[simp] theorem goto_current (s : Preempt) (pc : Pc) : (s.goto pc).current = s.current := rfl

@[simp] theorem goto_pc_self (s : Preempt) (pc : Pc) : (s.goto pc).pc s.current = pc := by
  simp [goto]

theorem goto_pc_of_ne (s : Preempt) (pc : Pc) {t : Nat} (h : t ≠ s.current) :
    (s.goto pc).pc t = s.pc t := by
  simp [goto, h]

/-- A write leaves the program counters and the mutexes alone. -/
theorem perform_frame (s : Preempt) (a : Act) :
    (s.perform a).pc = s.pc ∧ (s.perform a).owner = s.owner ∧ (s.perform a).current = s.current ∧
      (s.perform a).word = s.word ∧ (s.perform a).mapped = s.mapped := by
  cases a <;> exact ⟨rfl, rfl, rfl, rfl, rfl⟩

/-- The state of a thread after a write. -/
theorem perform_state (s : Preempt) (a : Act) (t : Nat) :
    ((s.perform a).kernel.tcb t).state =
      match a with
      | .setOwn st => if t = s.current then st else (s.kernel.tcb t).state
      | .setRunnable w => if t = w then .runnable else (s.kernel.tcb t).state
      | _ => (s.kernel.tcb t).state := by
  cases a with
  | setOwn st => exact Kernel.setState_state _ _ _ _
  | setRunnable w => exact Kernel.setState_state _ _ _ _
  | setSleep ticks =>
      show (Function.update s.kernel.tcb s.current _ t).state = _
      by_cases ht : t = s.current
      · subst ht
        rw [Function.update_self]
      · rw [Function.update_of_ne ht]
  | _ => rfl

/-- A write changes the parent and the thread list of no process, and the state of one at its exit
only. -/
theorem perform_process (s : Preempt) (a : Act) (c : Nat) :
    ((s.perform a).kernel.pcb c).parent = (s.kernel.pcb c).parent ∧
      ((s.perform a).kernel.pcb c).threads = (s.kernel.pcb c).threads ∧
        (((s.perform a).kernel.pcb c).state = (s.kernel.pcb c).state ∨
          a = .setExit ∧ c = s.kernel.currentPcb) := by
  have update : ∀ b : PCB, b.parent = (s.kernel.pcb s.kernel.currentPcb).parent →
      b.threads = (s.kernel.pcb s.kernel.currentPcb).threads →
      (Function.update s.kernel.pcb s.kernel.currentPcb b c).parent = (s.kernel.pcb c).parent ∧
        (Function.update s.kernel.pcb s.kernel.currentPcb b c).threads = (s.kernel.pcb c).threads ∧
          (c = s.kernel.currentPcb ∧
            Function.update s.kernel.pcb s.kernel.currentPcb b c = b ∨
            Function.update s.kernel.pcb s.kernel.currentPcb b c = s.kernel.pcb c) := by
    intro b hparent hthreads
    by_cases hc : c = s.kernel.currentPcb
    · subst hc
      rw [Function.update_self]
      exact ⟨hparent, hthreads, Or.inl ⟨rfl, rfl⟩⟩
    · rw [Function.update_of_ne hc]
      exact ⟨rfl, rfl, Or.inr rfl⟩
  have keep : ∀ b : PCB, b.parent = (s.kernel.pcb s.kernel.currentPcb).parent →
      b.threads = (s.kernel.pcb s.kernel.currentPcb).threads →
      b.state = (s.kernel.pcb s.kernel.currentPcb).state →
      (Function.update s.kernel.pcb s.kernel.currentPcb b c).parent = (s.kernel.pcb c).parent ∧
        (Function.update s.kernel.pcb s.kernel.currentPcb b c).threads = (s.kernel.pcb c).threads ∧
          ((Function.update s.kernel.pcb s.kernel.currentPcb b c).state = (s.kernel.pcb c).state ∨
            a = .setExit ∧ c = s.kernel.currentPcb) := by
    intro b hparent hthreads hstate
    obtain ⟨hp, ht, hc⟩ := update b hparent hthreads
    refine ⟨hp, ht, Or.inl ?_⟩
    rcases hc with ⟨rfl, heq⟩ | heq
    · rw [heq, hstate]
    · rw [heq]
  cases a with
  | setReturn status => exact keep _ rfl rfl rfl
  | unlinkChild n => exact keep _ rfl rfl rfl
  | countDown => exact keep _ rfl rfl rfl
  | setExit =>
      obtain ⟨hp, ht, hc⟩ := update { s.kernel.pcb s.kernel.currentPcb with state := .exit } rfl rfl
      refine ⟨hp, ht, ?_⟩
      rcases hc with ⟨hcur, -⟩ | heq
      · exact Or.inr ⟨rfl, hcur⟩
      · exact Or.inl (congrArg PCB.state heq)
  | _ => exact ⟨rfl, rfl, Or.inl rfl⟩

/-- What a write frees. -/
theorem perform_freed (s : Preempt) (a : Act) :
    (∀ t, t ∈ (s.perform a).kernel.freedTcb ↔ t ∈ s.kernel.freedTcb ∨ a = .freeThread t) ∧
      (∀ c, c ∈ (s.perform a).kernel.freedPcb ↔ c ∈ s.kernel.freedPcb ∨ a = .freeProcess c) ∧
        ∀ c, c ∈ (s.perform a).freedPd ↔ c ∈ s.freedPd ∨ a = .freeDirectory c := by
  cases a with
  | freeThread w =>
      refine ⟨fun t => ?_, fun c => by simp [perform, withKernel], fun c => by simp [perform, withKernel]⟩
      simp [perform, withKernel, or_comm, eq_comm]
  | freeProcess w =>
      refine ⟨fun t => by simp [perform, withKernel], fun c => ?_, fun c => by simp [perform, withKernel]⟩
      simp [perform, withKernel, or_comm, eq_comm]
  | freeDirectory w =>
      refine ⟨fun t => by simp [perform], fun c => by simp [perform], fun c => ?_⟩
      simp [perform, or_comm, eq_comm]
  | _ => exact ⟨fun t => by simp; rfl, fun c => by simp; rfl, fun c => by simp; rfl⟩

end Preempt

end Pebbles
