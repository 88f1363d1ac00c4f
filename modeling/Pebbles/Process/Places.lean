import Pebbles.Process.MachineSteps
import Mathlib.Data.List.Perm.Basic

/-! # The places of threads

`Queues m hand` says that the threads in `hand` (the current one, at rest) and the two queues hold
no thread twice and that the state of a thread fits its place. `schedule` keeps this
(`schedule_spec`) and changes little else (`Shuffled`). -/

namespace Pebbles

namespace Machine

/-! ## Threads and their places -/

/-- **The queues**, with the threads of `hand` in neither of them. -/
structure Queues (m : Machine) (hand : List Nat) : Prop where
  /-- No thread has two places. -/
  nodup : (hand ++ (m.run ++ m.blk)).Nodup
  /-- Every thread with a place was created. -/
  lt : ∀ t ∈ hand ++ (m.run ++ m.blk), t < m.nextTid
  /-- Threads in the runnable queue are ready. -/
  run_ready : ∀ t ∈ m.run, (m.tcb t).state.ready = true
  /-- Threads in the blocked queue are suspended. -/
  blk_suspended : ∀ t ∈ m.blk, (m.tcb t).state.suspended = true
  /-- Suspended threads are in the blocked queue. -/
  suspended_blk : ∀ t, (m.tcb t).state.suspended = true → t ∈ m.blk ∨ t ∈ hand

theorem ready_of_suspended {st : ThreadState} (h : st.suspended = true) : st.ready = false := by
  cases st <;> simp_all [ThreadState.suspended, ThreadState.ready]

theorem ne_exit_of_ready {st : ThreadState} (h : st.ready = true) : st ≠ .exit := by
  rintro rfl
  simp [ThreadState.ready] at h

theorem ne_exit_of_suspended {st : ThreadState} (h : st.suspended = true) : st ≠ .exit := by
  rintro rfl
  simp [ThreadState.suspended] at h

@[simp] theorem setState_state (m : Machine) (t s : Nat) (st : ThreadState) :
    ((m.setState t st).tcb s).state = if s = t then st else (m.tcb s).state := by
  by_cases h : s = t
  · subst h
    simp [setState, setTcb]
  · simp [setState, setTcb, h]

@[simp] theorem setState_pcb (m : Machine) (t s : Nat) (st : ThreadState) :
    ((m.setState t st).tcb s).pcb = (m.tcb s).pcb := by
  by_cases h : s = t
  · subst h
    simp [setState, setTcb]
  · simp [setState, setTcb, h]

@[simp] theorem setState_resume (m : Machine) (t s : Nat) (st : ThreadState) :
    ((m.setState t st).tcb s).resume = (m.tcb s).resume := by
  by_cases h : s = t
  · subst h
    simp [setState, setTcb]
  · simp [setState, setTcb, h]

@[simp] theorem wake_state (m : Machine) (t s : Nat) :
    ((m.wake t).tcb s).state = if s = t then .runnable else (m.tcb s).state :=
  m.setState_state t s .runnable

@[simp] theorem wake_pcb (m : Machine) (t s : Nat) :
    ((m.wake t).tcb s).pcb = (m.tcb s).pcb :=
  m.setState_pcb t s .runnable

@[simp] theorem wake_resume (m : Machine) (t s : Nat) :
    ((m.wake t).tcb s).resume = (m.tcb s).resume :=
  m.setState_resume t s .runnable

/-- Waking moves a thread from the one queue to the other. -/
theorem wake_places {m : Machine} {t : Nat} (ht : t ∈ m.blk) :
    ((m.wake t).run ++ (m.wake t).blk).Perm (m.run ++ m.blk) := by
  show (m.run ++ [t] ++ m.blk.erase t).Perm (m.run ++ m.blk)
  rw [List.append_assoc]
  exact (List.perm_cons_erase ht).symm.append_left m.run

namespace Queues

variable {m : Machine} {hand : List Nat}

/-- Waking a blocked thread keeps the queues. -/
theorem wake (h : Queues m hand) {t : Nat} (ht : t ∈ m.blk) : Queues (m.wake t) hand := by
  have hperm : (hand ++ ((m.wake t).run ++ (m.wake t).blk)).Perm (hand ++ (m.run ++ m.blk)) :=
    (wake_places ht).append_left hand
  have hblk : m.blk.Nodup := (h.nodup.of_append_right).of_append_right
  refine ⟨hperm.nodup_iff.mpr h.nodup, fun s hs => h.lt s (hperm.mem_iff.mp hs), ?_, ?_, ?_⟩
  · intro s hs
    rw [wake_state]
    rcases List.mem_append.mp hs with hrun | hlast
    · by_cases hst : s = t
      · simp [hst, ThreadState.ready]
      · simpa [hst] using h.run_ready s hrun
    · simp [List.mem_singleton.mp hlast, ThreadState.ready]
  · intro s hs
    obtain ⟨hne, hmem⟩ := hblk.mem_erase_iff.mp hs
    rw [wake_state, if_neg hne]
    exact h.blk_suspended s hmem
  · intro s hs
    rw [wake_state] at hs
    by_cases hst : s = t
    · simp [hst, ThreadState.suspended] at hs
    · rw [if_neg hst] at hs
      rcases h.suspended_blk s hs with hmem | hmem
      · exact Or.inl (hblk.mem_erase_iff.mpr ⟨hst, hmem⟩)
      · exact Or.inr hmem

/-- A machine with the same queues, tids and states has the same well-formed queues. -/
theorem congr {m' : Machine} (h : Queues m hand) (run : m'.run = m.run) (blk : m'.blk = m.blk)
    (tid : m.nextTid ≤ m'.nextTid) (state : ∀ t, (m'.tcb t).state = (m.tcb t).state) :
    Queues m' hand := by
  refine ⟨?_, fun t ht => Nat.lt_of_lt_of_le (h.lt t ?_) tid, fun t ht => ?_, fun t ht => ?_,
    fun t ht => ?_⟩
  · rw [run, blk]
    exact h.nodup
  · rw [run, blk] at ht
    exact ht
  · rw [state]
    exact h.run_ready t (run ▸ ht)
  · rw [state]
    exact h.blk_suspended t (blk ▸ ht)
  · rw [state] at ht
    rw [blk]
    exact h.suspended_blk t ht

/-- The state of a thread in the hand may be changed. -/
theorem setTcb_hand {t : Nat} {b : TCB} (h : Queues m (t :: hand)) :
    Queues (m.setTcb t b) (t :: hand) := by
  have hnot : t ∉ m.run ++ m.blk := fun hmem =>
    (List.nodup_cons.mp h.nodup).1 (List.mem_append_right hand hmem)
  have other : ∀ s, s ≠ t → (m.setTcb t b).tcb s = m.tcb s := fun s hs => by simp [setTcb, hs]
  refine ⟨h.nodup, h.lt, fun s hs => ?_, fun s hs => ?_, fun s hs => ?_⟩
  · rw [other s fun e => hnot (e ▸ List.mem_append_left _ hs)]
    exact h.run_ready s hs
  · rw [other s fun e => hnot (e ▸ List.mem_append_right _ hs)]
    exact h.blk_suspended s hs
  · by_cases hst : s = t
    · exact Or.inr (hst ▸ List.mem_cons_self)
    · rw [other s hst] at hs
      exact h.suspended_blk s hs

/-- A new thread that is in no queue. -/
theorem withThread (h : Queues m hand) {m' : Machine} (run : m'.run = m.run) (blk : m'.blk = m.blk)
    (tid : m'.nextTid = m.nextTid + 1)
    (state : ∀ t, t ≠ m.nextTid → (m'.tcb t).state = (m.tcb t).state)
    (fresh : (m'.tcb m.nextTid).state = .init) : Queues m' hand := by
  have hnew : m.nextTid ∉ hand ++ (m.run ++ m.blk) := fun hmem => Nat.lt_irrefl _ (h.lt _ hmem)
  have hplaced : ∀ t ∈ hand ++ (m.run ++ m.blk), (m'.tcb t).state = (m.tcb t).state :=
    fun t ht => state t fun e => hnew (e ▸ ht)
  refine ⟨?_, fun t ht => ?_, fun t ht => ?_, fun t ht => ?_, fun t ht => ?_⟩
  · rw [run, blk]
    exact h.nodup
  · rw [run, blk] at ht
    rw [tid]
    exact Nat.lt_succ_of_lt (h.lt t ht)
  · rw [run] at ht
    rw [hplaced t (List.mem_append_right _ (List.mem_append_left _ ht))]
    exact h.run_ready t ht
  · rw [blk] at ht
    rw [hplaced t (List.mem_append_right _ (List.mem_append_right _ ht))]
    exact h.blk_suspended t ht
  · rw [blk]
    by_cases hne : t = m.nextTid
    · rw [hne, fresh] at ht
      cases ht
    · rw [state t hne] at ht
      exact h.suspended_blk t ht

/-- A new thread at the end of the runnable queue. -/
theorem newThread (h : Queues m hand) {m' : Machine}
    (run : m'.run = m.run ++ [m.nextTid]) (blk : m'.blk = m.blk)
    (tid : m'.nextTid = m.nextTid + 1)
    (state : ∀ t, t ≠ m.nextTid → (m'.tcb t).state = (m.tcb t).state)
    (fresh : (m'.tcb m.nextTid).state = .init) : Queues m' hand := by
  have hnew : m.nextTid ∉ hand ++ (m.run ++ m.blk) := fun hmem => Nat.lt_irrefl _ (h.lt _ hmem)
  have hperm : (hand ++ (m'.run ++ m'.blk)).Perm (m.nextTid :: (hand ++ (m.run ++ m.blk))) := by
    rw [run, blk]
    have hlast : (m.run ++ m.nextTid :: m.blk).Perm (m.nextTid :: (m.run ++ m.blk)) :=
      List.perm_middle
    rw [List.append_assoc]
    exact (hlast.append_left hand).trans List.perm_middle
  refine ⟨hperm.nodup_iff.mpr (List.nodup_cons.mpr ⟨hnew, h.nodup⟩), fun t ht => ?_,
    fun t ht => ?_, fun t ht => ?_, fun t ht => ?_⟩
  · rw [tid]
    rcases List.mem_cons.mp (hperm.mem_iff.mp ht) with rfl | hmem
    · exact Nat.lt_succ_self _
    · exact Nat.lt_succ_of_lt (h.lt t hmem)
  · by_cases hne : t = m.nextTid
    · rw [hne, fresh]
      rfl
    · rw [state t hne]
      rw [run] at ht
      rcases List.mem_append.mp ht with hrun | hlast
      · exact h.run_ready t hrun
      · exact absurd (List.mem_singleton.mp hlast) hne
  · rw [blk] at ht
    rw [state t fun e => hnew (e ▸ List.mem_append_right _ (List.mem_append_right _ ht))]
    exact h.blk_suspended t ht
  · by_cases hne : t = m.nextTid
    · rw [hne, fresh] at ht
      simp [ThreadState.suspended] at ht
    · rw [state t hne] at ht
      rw [blk]
      exact h.suspended_blk t ht

end Queues

/-! ## Scheduling changes little -/

/-- **Shuffled**: threads have changed places, sleepers have been woken and new threads started;
nothing else has changed. -/
structure Shuffled (m m' : Machine) : Prop where
  /-- The processes are the same. -/
  proc : m'.proc = m.proc
  /-- No thread was created. -/
  nextTid : m'.nextTid = m.nextTid
  /-- No process was created. -/
  nextPid : m'.nextPid = m.nextPid
  /-- No thread was freed. -/
  freedTcb : m'.freedTcb = m.freedTcb
  /-- No process was freed. -/
  freedPcb : m'.freedPcb = m.freedPcb
  /-- No thread changed its process. -/
  pcb : ∀ t, (m'.tcb t).pcb = (m.tcb t).pcb
  /-- No thread goes on elsewhere. -/
  resume : ∀ t, (m'.tcb t).resume = (m.tcb t).resume
  /-- Only sleepers and new threads have changed their state. -/
  state : ∀ t, (m'.tcb t).state = (m.tcb t).state ∨
    (m'.tcb t).state.ready = true ∧
      ((m.tcb t).state = .sleeping ∨ (m.tcb t).state = .init)

namespace Shuffled

variable {m m1 m2 : Machine}

theorem refl (m : Machine) : Shuffled m m :=
  ⟨rfl, rfl, rfl, rfl, rfl, fun _ => rfl, fun _ => rfl, fun _ => Or.inl rfl⟩

theorem trans (h : Shuffled m m1) (h' : Shuffled m1 m2) : Shuffled m m2 where
  proc := h'.proc.trans h.proc
  nextTid := h'.nextTid.trans h.nextTid
  nextPid := h'.nextPid.trans h.nextPid
  freedTcb := h'.freedTcb.trans h.freedTcb
  freedPcb := h'.freedPcb.trans h.freedPcb
  pcb t := (h'.pcb t).trans (h.pcb t)
  resume t := (h'.resume t).trans (h.resume t)
  state t := by
    rcases h'.state t with heq | ⟨hready, hfrom⟩
    · rw [heq]
      exact h.state t
    · rcases h.state t with heq | ⟨-, hfrom'⟩
      · rw [heq] at hfrom
        exact Or.inr ⟨hready, hfrom⟩
      · exact Or.inr ⟨hready, hfrom'⟩

/-- The exited threads stay the same. -/
theorem exit_iff (h : Shuffled m m1) (t : Nat) :
    (m1.tcb t).state = .exit ↔ (m.tcb t).state = .exit := by
  rcases h.state t with heq | ⟨hready, hfrom⟩
  · rw [heq]
  · constructor
    · intro hexit
      exact absurd hexit (ne_exit_of_ready hready)
    · intro hexit
      rcases hfrom with hs | hs <;> rw [hs] at hexit <;> cases hexit

/-- The waiting threads stay the same. -/
theorem waiting_iff (h : Shuffled m m1) (t : Nat) :
    (m1.tcb t).state = .waiting ↔ (m.tcb t).state = .waiting := by
  rcases h.state t with heq | ⟨hready, hfrom⟩
  · rw [heq]
  · constructor
    · intro hwait
      rw [hwait] at hready
      cases hready
    · intro hwait
      rcases hfrom with hs | hs <;> rw [hs] at hwait <;> cases hwait

end Shuffled

/-- Waking a sleeper is a shuffle. -/
theorem shuffled_wake {m : Machine} {t : Nat} (h : (m.tcb t).state = .sleeping) :
    Shuffled m (m.wake t) where
  proc := rfl
  nextTid := rfl
  nextPid := rfl
  freedTcb := rfl
  freedPcb := rfl
  pcb s := m.wake_pcb t s
  resume s := m.wake_resume t s
  state s := by
    rw [wake_state]
    by_cases hst : s = t
    · rw [if_pos hst, hst]
      exact Or.inr ⟨rfl, Or.inl h⟩
    · rw [if_neg hst]
      exact Or.inl rfl

/-- The loop of `schedule` wakes one sleeper or none. -/
theorem wakeSleepers_cases (m : Machine) :
    m.wakeSleepers = m ∨
      ∃ t ∈ m.blk, (m.tcb t).state = .sleeping ∧ m.wakeSleepers = m.wake t := by
  unfold wakeSleepers
  cases h : m.blk.find? m.sleepOver with
  | none => exact Or.inl rfl
  | some t =>
      have hover := List.find?_some h
      simp only [sleepOver, decide_eq_true_eq] at hover
      exact Or.inr ⟨t, List.mem_of_find?_eq_some h, hover.1, rfl⟩

/-- The next thread is taken out of the runnable queue. -/
theorem takeNext_cases {m m1 : Machine} {tid : Int} {t : Nat} (h : m.takeNext tid = some (t, m1)) :
    t ∈ m.run ∧ m1 = { m with run := m.run.erase t } := by
  unfold takeNext at h
  split_ifs at h with htid
  · obtain ⟨s, hs, heq⟩ := Option.map_eq_some_iff.mp h
    obtain ⟨rfl, rfl⟩ := Prod.mk.inj heq
    refine ⟨List.mem_of_head? hs, ?_⟩
    obtain ⟨ys, hys⟩ := List.head?_eq_some_iff.mp hs
    simp [hys]
  · obtain ⟨s, hs, heq⟩ := Option.map_eq_some_iff.mp h
    obtain ⟨rfl, rfl⟩ := Prod.mk.inj heq
    exact ⟨List.mem_of_find?_eq_some hs, rfl⟩

/-- Where the current thread is put back. -/
theorem putBack_cases (m : Machine) :
    (m.tcb m.current).state = .exit ∧ m.putBack = m ∨
      (m.tcb m.current).state.suspended = true ∧ m.putBack = { m with blk := m.blk ++ [m.current] } ∨
        (m.tcb m.current).state.ready = true ∧
          m.putBack = { m with run := m.run ++ [m.current] } := by
  unfold putBack
  cases h : (m.tcb m.current).state with
  | exit => exact Or.inl ⟨rfl, rfl⟩
  | blocked => exact Or.inr (Or.inl ⟨rfl, rfl⟩)
  | waiting => exact Or.inr (Or.inl ⟨rfl, rfl⟩)
  | readline => exact Or.inr (Or.inl ⟨rfl, rfl⟩)
  | sleeping => exact Or.inr (Or.inl ⟨rfl, rfl⟩)
  | running => exact Or.inr (Or.inr ⟨rfl, rfl⟩)
  | runnable => exact Or.inr (Or.inr ⟨rfl, rfl⟩)
  | init => exact Or.inr (Or.inr ⟨rfl, rfl⟩)

/-- Switching is a shuffle. -/
theorem shuffled_switchTo (m : Machine) (t : Nat) : Shuffled m (m.switchTo t) := by
  unfold switchTo
  by_cases hinit : (m.tcb t).state = .init
  · simp only [hinit, if_true]
    refine ⟨rfl, rfl, rfl, rfl, rfl, fun s => m.setState_pcb t s _,
      fun s => m.setState_resume t s _, fun s => ?_⟩
    show ((m.setState t .running).tcb s).state = _ ∨ ((m.setState t .running).tcb s).state.ready = _ ∧ _
    rw [setState_state]
    by_cases hst : s = t
    · rw [if_pos hst, hst]
      exact Or.inr ⟨rfl, Or.inr hinit⟩
    · rw [if_neg hst]
      exact Or.inl rfl
  · simp only [hinit, if_false]
    exact ⟨rfl, rfl, rfl, rfl, rfl, fun _ => rfl, fun _ => rfl, fun _ => Or.inl rfl⟩

/-! ## Scheduling keeps the queues -/

/-- The places of threads: running, runnable, blocked. -/
def places (m : Machine) : List Nat := m.current :: (m.run ++ m.blk)

/-- The current thread, when it leaves for good. -/
def leaver (m : Machine) : List Nat :=
  if (m.tcb m.current).state = .exit then [m.current] else []

namespace Queues

variable {m : Machine} {hand : List Nat}

/-- Another hand and other queues with the same threads, but for those in `gone`. -/
theorem rearrange (h : Queues m hand) {m' : Machine} {hand' : List Nat} (gone : List Nat) (tcb : m'.tcb = m.tcb)
    (tid : m'.nextTid = m.nextTid)
    (perm : (hand ++ (m.run ++ m.blk)).Perm (hand' ++ (m'.run ++ m'.blk) ++ gone))
    (run : ∀ t ∈ m'.run, (m.tcb t).state.ready = true)
    (blk : ∀ t ∈ m'.blk, (m.tcb t).state.suspended = true)
    (suspended : ∀ t, (m.tcb t).state.suspended = true → t ∈ m'.blk ∨ t ∈ hand') :
    Queues m' hand' := by
  refine ⟨?_, fun t ht => ?_, fun t ht => ?_, fun t ht => ?_, fun t ht => ?_⟩
  · exact (perm.nodup_iff.mp h.nodup).of_append_left
  · rw [tid]
    exact h.lt t (perm.mem_iff.mpr (List.mem_append_left gone ht))
  · rw [tcb]
    exact run t ht
  · rw [tcb]
    exact blk t ht
  · rw [tcb] at ht
    exact suspended t ht

/-- The next thread is taken in hand. -/
theorem takeNext (h : Queues m hand) {t : Nat} (ht : t ∈ m.run) :
    Queues { m with run := m.run.erase t } (hand ++ [t]) := by
  have hrun : m.run.Nodup := (h.nodup.of_append_right).of_append_left
  refine h.rearrange [] rfl rfl ?_ ?_ h.blk_suspended ?_
  · have hperm : (m.run ++ m.blk).Perm ([t] ++ (m.run.erase t ++ m.blk)) :=
      (List.perm_cons_erase ht).append_right m.blk
    simpa [List.append_assoc] using hperm.append_left hand
  · intro s hs
    exact h.run_ready s (List.mem_of_mem_erase hs)
  · intro s hs
    rcases h.suspended_blk s hs with hmem | hmem
    · exact Or.inl hmem
    · exact Or.inr (List.mem_append_left _ hmem)

/-- The current thread is put back, or left out when it has exited. -/
theorem putBack (h : Queues m (m.current :: hand)) : Queues m.putBack hand := by
  rcases m.putBack_cases with ⟨hst, heq⟩ | ⟨hst, heq⟩ | ⟨hst, heq⟩
  · rw [heq]
    refine h.rearrange [m.current] rfl rfl ?_ h.run_ready h.blk_suspended ?_
    · exact (List.perm_append_singleton m.current _).symm
    · intro t ht
      rcases h.suspended_blk t ht with hmem | hmem
      · exact Or.inl hmem
      · rcases List.mem_cons.mp hmem with rfl | hmem
        · rw [hst] at ht
          cases ht
        · exact Or.inr hmem
  · rw [heq]
    refine h.rearrange [] rfl rfl ?_ h.run_ready ?_ ?_
    · show (m.current :: (hand ++ (m.run ++ m.blk))).Perm
        (hand ++ (m.run ++ (m.blk ++ [m.current])) ++ [])
      have hlast := (List.perm_append_singleton m.current (hand ++ (m.run ++ m.blk))).symm
      simpa [List.append_assoc] using hlast
    · intro t ht
      rcases List.mem_append.mp ht with hmem | hmem
      · exact h.blk_suspended t hmem
      · rw [List.mem_singleton.mp hmem]
        exact hst
    · intro t ht
      rcases h.suspended_blk t ht with hmem | hmem
      · exact Or.inl (List.mem_append_left _ hmem)
      · rcases List.mem_cons.mp hmem with rfl | hmem
        · exact Or.inl (List.mem_append_right _ (List.mem_singleton_self _))
        · exact Or.inr hmem
  · rw [heq]
    refine h.rearrange [] rfl rfl ?_ ?_ h.blk_suspended ?_
    · show (m.current :: (hand ++ (m.run ++ m.blk))).Perm
        (hand ++ (m.run ++ [m.current] ++ m.blk) ++ [])
      have hmid : (m.current :: (m.run ++ m.blk)).Perm (m.run ++ m.current :: m.blk) :=
        List.perm_middle.symm
      have hfront : (m.current :: (hand ++ (m.run ++ m.blk))).Perm
          (hand ++ m.current :: (m.run ++ m.blk)) := List.perm_middle.symm
      simpa [List.append_assoc] using hfront.trans (hmid.append_left hand)
    · intro t ht
      rcases List.mem_append.mp ht with hmem | hmem
      · exact h.run_ready t hmem
      · rw [List.mem_singleton.mp hmem]
        exact hst
    · intro t ht
      rcases h.suspended_blk t ht with hmem | hmem
      · exact Or.inl hmem
      · rcases List.mem_cons.mp hmem with rfl | hmem
        · rw [ready_of_suspended ht] at hst
          cases hst
        · exact Or.inr hmem

end Queues

/-- Putting back the current thread keeps every thread but one that leaves. -/
theorem putBack_places (m : Machine) :
    (m.current :: (m.run ++ m.blk)).Perm (m.putBack.run ++ m.putBack.blk ++ m.leaver) := by
  rcases m.putBack_cases with ⟨hst, heq⟩ | ⟨hst, heq⟩ | ⟨hst, heq⟩
  · rw [heq, leaver, if_pos hst]
    exact (List.perm_append_singleton m.current _).symm
  · rw [heq, leaver, if_neg (ne_exit_of_suspended hst)]
    simpa [List.append_assoc] using (List.perm_append_singleton m.current (m.run ++ m.blk)).symm
  · rw [heq, leaver, if_neg (ne_exit_of_ready hst)]
    have hmid : (m.run ++ m.current :: m.blk).Perm (m.current :: (m.run ++ m.blk)) :=
      List.perm_middle
    simpa [List.append_assoc] using hmid.symm

/-- Putting back is a shuffle. -/
theorem shuffled_putBack (m : Machine) : Shuffled m m.putBack := by
  rcases m.putBack_cases with ⟨-, heq⟩ | ⟨-, heq⟩ | ⟨-, heq⟩ <;> rw [heq]
  · exact Shuffled.refl m
  · exact ⟨rfl, rfl, rfl, rfl, rfl, fun _ => rfl, fun _ => rfl, fun _ => Or.inl rfl⟩
  · exact ⟨rfl, rfl, rfl, rfl, rfl, fun _ => rfl, fun _ => rfl, fun _ => Or.inl rfl⟩

/-- Waking sleepers keeps the queues and is a shuffle that moves no thread out of its places. -/
theorem wakeSleepers_spec {m : Machine} {hand : List Nat} (h : Queues m hand) :
    Queues m.wakeSleepers hand ∧ Shuffled m m.wakeSleepers ∧ m.wakeSleepers.current = m.current ∧
      (m.run ++ m.blk).Perm (m.wakeSleepers.run ++ m.wakeSleepers.blk) := by
  rcases m.wakeSleepers_cases with heq | ⟨t, hmem, hsleep, heq⟩ <;> rw [heq]
  · exact ⟨h, Shuffled.refl m, rfl, List.Perm.refl _⟩
  · exact ⟨h.wake hmem, shuffled_wake hsleep, rfl, (wake_places hmem).symm⟩

@[simp] theorem switchTo_run (m : Machine) (t : Nat) : (m.switchTo t).run = m.run := by
  unfold switchTo
  split_ifs <;> rfl

@[simp] theorem switchTo_blk (m : Machine) (t : Nat) : (m.switchTo t).blk = m.blk := by
  unfold switchTo
  split_ifs <;> rfl

@[simp] theorem switchTo_current (m : Machine) (t : Nat) : (m.switchTo t).current = t := rfl

/-- Switching to a ready thread starts it, which keeps the queues. -/
theorem Queues.switchTo {m : Machine} {t : Nat} (h : Queues m [t])
    (hready : (m.tcb t).state.ready = true) :
    Queues (m.switchTo t) [t] ∧ ((m.switchTo t).tcb t).state.ready = true := by
  unfold Machine.switchTo
  by_cases hinit : (m.tcb t).state = .init
  · simp only [hinit, if_true]
    refine ⟨?_, by simp [ThreadState.ready]⟩
    have hset : Queues (m.setState t .running) [t] := h.setTcb_hand
    exact hset.congr rfl rfl (Nat.le_refl _) fun _ => rfl
  · simp only [hinit, if_false]
    exact ⟨h.congr rfl rfl (Nat.le_refl _) fun _ => rfl, hready⟩

/-- `schedule` does not touch the processes, in whatever state it is called. -/
theorem schedule_families {m m' : Machine} {tid : Int} (hs : m.schedule tid = some m') :
    m'.proc = m.proc ∧ m'.nextPid = m.nextPid ∧ m'.freedPcb = m.freedPcb := by
  have hwake : m.wakeSleepers.proc = m.proc ∧ m.wakeSleepers.nextPid = m.nextPid ∧
      m.wakeSleepers.freedPcb = m.freedPcb := by
    rcases m.wakeSleepers_cases with heq | ⟨t, -, -, heq⟩ <;> rw [heq] <;> exact ⟨rfl, rfl, rfl⟩
  unfold schedule at hs
  simp only at hs
  split_ifs at hs with hidle
  · obtain rfl := Option.some.inj hs
    exact hwake
  · obtain ⟨⟨t, m2⟩, htake, heq⟩ := Option.map_eq_some_iff.mp hs
    obtain ⟨-, rfl⟩ := takeNext_cases htake
    subst heq
    have hshuf := (shuffled_putBack { m.wakeSleepers with
      run := m.wakeSleepers.run.erase t }).trans (shuffled_switchTo _ t)
    exact ⟨hshuf.proc.trans hwake.1, hshuf.nextPid.trans hwake.2.1,
      hshuf.freedPcb.trans hwake.2.2⟩

/-- **What `schedule` does**: the queues stay well-formed, the thread it returns in is ready, and
threads are only shuffled, but for a current thread that leaves for good. -/
theorem schedule_spec {m m' : Machine} {tid : Int} (h : Queues m [m.current])
    (idle : m.current = 1 → (m.tcb m.current).state.ready = true)
    (hs : m.schedule tid = some m') :
    Queues m' [m'.current] ∧ (m'.tcb m'.current).state.ready = true ∧ Shuffled m m' ∧
      m.places.Perm (m'.places ++ m.leaver) := by
  obtain ⟨hq, hshuf, hcur, hperm⟩ := wakeSleepers_spec h
  -- the current thread is in no queue, so the loop does not touch its state
  have hstate : ∀ st : ThreadState, st.ready = true →
      (m.tcb m.current).state = st → (m.wakeSleepers.tcb m.current).state.ready = true := by
    intro st hst heq
    rcases hshuf.state m.current with hsame | ⟨hready, -⟩
    · rw [hsame, heq]
      exact hst
    · exact hready
  unfold schedule at hs
  simp only at hs
  split_ifs at hs with hidle
  · obtain rfl := Option.some.inj hs
    have hready := idle (hcur ▸ hidle.1)
    have hleaver : m.leaver = [] := if_neg (ne_exit_of_ready hready)
    refine ⟨hcur.symm ▸ hq, ?_, hshuf, ?_⟩
    · rw [hcur]
      exact hstate _ hready rfl
    · rw [hleaver, List.append_nil, places, places, hcur]
      exact hperm.cons m.current
  · obtain ⟨⟨t, m2⟩, htake, heq⟩ := Option.map_eq_some_iff.mp hs
    obtain ⟨ht, rfl⟩ := takeNext_cases htake
    subst heq
    let w := m.wakeSleepers
    let m2 : Machine := { w with run := w.run.erase t }
    have htaken : Queues m2 ([m2.current] ++ [t]) := Queues.takeNext (hcur.symm ▸ hq) ht
    have hback : Queues m2.putBack [t] := Queues.putBack htaken
    have hshuf2 : Shuffled m m2 :=
      hshuf.trans ⟨rfl, rfl, rfl, rfl, rfl, fun _ => rfl, fun _ => rfl, fun _ => Or.inl rfl⟩
    have hready : (m2.putBack.tcb t).state.ready = true := by
      rcases (shuffled_putBack m2).state t with hsame | ⟨hready, -⟩
      · rw [hsame]
        exact hq.run_ready t ht
      · exact hready
    obtain ⟨hswitch, hnext⟩ := hback.switchTo hready
    refine ⟨hswitch, hnext,
      (hshuf2.trans (shuffled_putBack m2)).trans (shuffled_switchTo _ t), ?_⟩
    have hleaver : m2.leaver = m.leaver := by
      have hexit := hshuf.exit_iff m.current
      simp only [leaver, m2, w, hcur, hexit]
    have hfirst : (w.run ++ w.blk).Perm (t :: (m2.run ++ m2.blk)) :=
      (List.perm_cons_erase ht).append_right w.blk
    have hplaces := (m2.putBack_places).cons t
    rw [hleaver] at hplaces
    have hswap : m.places.Perm (t :: m2.current :: (m2.run ++ m2.blk)) := by
      refine (hperm.cons m.current).trans (((hfirst.cons m.current)).trans ?_)
      show (m.current :: t :: _).Perm (t :: w.current :: _)
      rw [hcur]
      exact List.Perm.swap t m.current _
    refine hswap.trans ?_
    show (t :: m2.current :: (m2.run ++ m2.blk)).Perm
      ((t :: ((m2.putBack.switchTo t).run ++ (m2.putBack.switchTo t).blk)) ++ m.leaver)
    rw [switchTo_run, switchTo_blk]
    exact hplaces

end Machine

end Pebbles
