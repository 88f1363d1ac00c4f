import Pebbles.Process.LastThread

/-! # Waiters and zombies

A thread that `sys_vanish` has woken inside `sys_wait` scans the children list once more and gives
up when it finds no zombie. It finds one as long as no process with a living child has more woken
waiters than zombies (`Machine.Served`). Three kinds of steps can break this: a `sys_wait` that
reaps the zombie of somebody else, a `fork` while a waiter is left without a zombie, and an exit
that wakes a thread of a process that does not get the zombie. Without them `sys_wait` fails only
in a process without children. -/

namespace Pebbles

open Transition

/-! ## Counting -/

section Counting

variable {l : List Nat} {P Q : Nat → Bool}

/-- A member that begins to count. -/
theorem countP_succ_le (mono : ∀ x ∈ l, P x → Q x) {a : Nat} (ha : a ∈ l) (hP : ¬ P a) (hQ : Q a) :
    l.countP P + 1 ≤ l.countP Q := by
  induction l with
  | nil => cases ha
  | cons b l ih =>
      rw [List.countP_cons, List.countP_cons]
      have hb := mono b List.mem_cons_self
      have hrest : ∀ x ∈ l, P x → Q x := fun x hx => mono x (List.mem_cons_of_mem b hx)
      rcases List.mem_cons.mp ha with rfl | ha
      · have hle := List.countP_mono_left hrest
        rw [if_neg hP, if_pos hQ]
        omega
      · have hle := ih hrest ha
        split_ifs with h1 h2
        · omega
        · exact absurd (hb h1) h2
        · omega
        · omega

/-- At most one member begins to count. -/
theorem countP_le_succ (hl : l.Nodup) (a : Nat) (mono : ∀ x ∈ l, Q x → P x ∨ x = a) :
    l.countP Q ≤ l.countP P + 1 := by
  have hsub : l.filter Q ⊆ a :: l.filter P := by
    intro x hx
    obtain ⟨hmem, hQ⟩ := List.mem_filter.mp hx
    rcases mono x hmem hQ with hP | rfl
    · exact List.mem_cons_of_mem a (List.mem_filter.mpr ⟨hmem, hP⟩)
    · exact List.mem_cons_self
  rw [List.countP_eq_length_filter, List.countP_eq_length_filter]
  exact ((hl.filter Q).subperm hsub).length_le

end Counting

/-! ## The property and the condition -/

/-- The threads of process `p` that were woken inside `sys_wait` and have not gone on yet. -/
def Kernel.wokenWaiters (k : Kernel) (p : Nat) : Nat :=
  (k.threadsOf p).countP fun t => (k.tcb t).resume ≠ .userMode ∧ (k.tcb t).state ≠ .waiting

/-- The children of `p` that have exited and are not reaped. -/
def Kernel.zombieChildren (k : Kernel) (p : Nat) : Nat :=
  (k.members (k.pcb p).children).countP fun c => (k.pcb c).state = .exit

/-- The children of `p` that have not exited. -/
def Kernel.livingChildren (k : Kernel) (p : Nat) : Nat :=
  (k.members (k.pcb p).children).countP fun c => (k.pcb c).state ≠ .exit

/-- **`wait` fails only without children**: it returns `-1` for an accepted pointer only if the
process has no unreaped child at that moment. -/
def WaitFailsChildless (_ : Kernel) (x : Action) (k' : Kernel) : Prop :=
  x.scans → x.out.ret = some (-1) → k'.members (k'.pcb x.process).children = []

/-- The exit of the current process wakes a waiting thread of `p`: thread 2 when the parent is
missing or has exited, else one in the thread list of the parent. -/
def Kernel.WakesThreadOf (k : Kernel) (p : Nat) : Prop :=
  ((∀ q, (k.pcb k.currentPcb).parent = some q → (k.pcb q).state = .exit) ∧
    (k.tcb 2).state = .waiting ∧ (k.tcb 2).pcb = p) ∨
  (k.pcb k.currentPcb).parent = some p ∧ (k.pcb p).state ≠ .exit ∧
    ∃ t ∈ k.members (k.pcb p).threads, (k.tcb t).state = .waiting

/-- **No waiter is left without its zombie** by the action. -/
structure LeavesNoWaiter (k : Kernel) (x : Action) : Prop where
  /-- A first scan reaps a zombie only if there are more zombies than woken waiters, or no living
  child. -/
  reaps : (∃ statusPtr, acceptsStatus statusPtr ∧ x.event = .call (.wait statusPtr)) →
    k.findZombie k.currentPcb ≠ none →
    k.livingChildren k.currentPcb = 0 ∨
      k.wokenWaiters k.currentPcb < k.zombieChildren k.currentPcb
  /-- A fork finds a zombie for every woken waiter. -/
  forks : x.event.bearsChild = true →
    k.wokenWaiters k.currentPcb ≤ k.zombieChildren k.currentPcb
  /-- An exit wakes a thread of the process that gets the zombie, or of one that has a zombie to
  spare or no living child. -/
  exits : k.Exits x → ∀ p, k.WakesThreadOf p →
    k.currentPcb ∈ k.members (k.pcb p).children ∧ (k.pcb k.currentPcb).state ≠ .exit ∨
      k.livingChildren p = 0 ∨ k.wokenWaiters p < k.zombieChildren p

namespace Machine

/-- Thread `t` was woken inside `wait`. -/
def awake (m : Machine) (t : Nat) : Prop :=
  (m.tcb t).resume ≠ .userMode ∧ (m.tcb t).state ≠ .waiting

instance (m : Machine) (t : Nat) : Decidable (m.awake t) := inferInstanceAs (Decidable (_ ∧ _))

/-- The woken waiters of `p`. -/
def wokenWaiters (m : Machine) (p : Nat) : Nat := (m.threadsOf p).countP fun t => m.awake t

/-- The zombies among the children of `p`. -/
def zombieChildren (m : Machine) (p : Nat) : Nat :=
  (m.proc p).children.countP fun c => (m.proc c).state = .exit

/-- The living children of `p`. -/
def livingChildren (m : Machine) (p : Nat) : Nat :=
  (m.proc p).children.countP fun c => (m.proc c).state ≠ .exit

/-- **Served**: in a process with a living child there is a zombie for every woken waiter. -/
structure Served (m : Machine) : Prop where
  /-- The woken waiters are no more than the zombies. -/
  served : ∀ p, m.livingChildren p = 0 ∨ m.wokenWaiters p ≤ m.zombieChildren p
  /-- Unused control blocks are not inside a call. -/
  unused : ∀ t, m.nextTid ≤ t → (m.tcb t).resume = .userMode

/-! ## Who is woken -/

/-- The exit of the current process can wake the waiting thread `t`. -/
def exitWakesThread (m : Machine) (t : Nat) : Prop :=
  (m.tcb t).state = .waiting ∧
    ((∀ q, (m.proc m.currentPcb).parent = some q → (m.proc q).state = .exit) ∧ t = 2 ∨
      ∃ q, (m.proc m.currentPcb).parent = some q ∧ (m.proc q).state ≠ .exit ∧
        t ∈ (m.proc q).chain)

/-- **What a step does to the waiters.** -/
structure AwakeEffect (m : Machine) (e : Event) (m' : Machine) : Prop where
  /-- Unused control blocks are not inside a call. -/
  unused : ∀ t, m.nextTid ≤ t → (m.tcb t).resume = .userMode → (m'.tcb t).resume = .userMode
  /-- Only the exit of a process wakes a waiter, and not more than one. -/
  woken : ∃ w, ∀ t, m'.awake t → m.awake t ∨ t = w ∧ e = .call .vanish ∧
    m.liveCount (m.proc m.currentPcb).chain = 1 ∧ m.exitWakesThread t
  /-- A waiter that goes on was woken. -/
  resumed : e = .resume → m.awake m.current ∧ ¬ m'.awake m.current

section Awake

variable {m m1 m' : Machine} {e : Event}

/-- Exits wake one thread or none. -/
theorem ExitWakes.awake {p : Nat} (h : ExitWakes m p m1) :
    ∃ w, ∀ t, m1.awake t → m.awake t ∨ t = w ∧ (m.tcb t).state = .waiting ∧
      ((∀ q, (m.proc p).parent = some q → (m.proc q).state = .exit) ∧ t = 2 ∨
        ∃ q, (m.proc p).parent = some q ∧ (m.proc q).state ≠ .exit ∧ t ∈ (m.proc q).chain) := by
  have hwoken : ∀ s t, (m.wake s).awake t → m.awake t ∨ t = s ∧ (m.tcb t).state = .waiting := by
    rintro s t ⟨hresume, hstate⟩
    rw [wake_resume] at hresume
    rw [wake_state] at hstate
    by_cases hwait : (m.tcb t).state = .waiting
    · by_cases hts : t = s
      · exact Or.inr ⟨hts, hwait⟩
      · rw [if_neg hts] at hstate
        exact absurd hwait hstate
    · exact Or.inl ⟨hresume, hwait⟩
  cases h with
  | nobody quiet => exact ⟨0, fun t ht => Or.inl ht⟩
  | init orphan mem =>
      refine ⟨2, fun t ht => (hwoken 2 t ht).imp id fun h => ?_⟩
      exact ⟨h.1, h.2, Or.inl ⟨orphan, h.1⟩⟩
  | waiter q s parent living mem waiting =>
      refine ⟨s, fun t ht => (hwoken s t ht).imp id fun h => ?_⟩
      exact ⟨h.1, h.2, Or.inr ⟨q, parent, living, h.1 ▸ mem⟩⟩

/-- A shuffle wakes no waiter. -/
theorem Shuffled.awake_iff (h : Shuffled m m') (t : Nat) : m'.awake t ↔ m.awake t := by
  unfold Machine.awake
  rw [h.resume, ne_eq, ne_eq, h.waiting_iff]

namespace AwakeEffect

/-- Steps that wake no waiter. -/
theorem of_no_wake (unused : ∀ t, m.nextTid ≤ t → (m.tcb t).resume = .userMode →
    (m'.tcb t).resume = .userMode) (woken : ∀ t, m'.awake t → m.awake t) (event : e ≠ .resume) :
    AwakeEffect m e m' :=
  ⟨unused, ⟨0, fun t ht => Or.inl (woken t ht)⟩, fun h => absurd h event⟩

/-- Steps that keep the control blocks. -/
theorem same (tcb : m'.tcb = m.tcb) (event : e ≠ .resume) : AwakeEffect m e m' := by
  refine of_no_wake (fun t _ ht => by rwa [tcb]) (fun t ht => ?_) event
  unfold awake at ht
  rwa [tcb] at ht

/-- A wake-up from another state than waiting. -/
theorem wake {s : Nat} (hs : (m.tcb s).state ≠ .waiting) (event : e ≠ .resume) :
    AwakeEffect m e (m.wake s) := by
  refine of_no_wake (fun t _ ht => by rwa [wake_resume]) (fun t ⟨hresume, hstate⟩ => ?_) event
  rw [wake_resume] at hresume
  rw [wake_state] at hstate
  refine ⟨hresume, fun hwait => ?_⟩
  by_cases hts : t = s
  · exact hs (hts ▸ hwait)
  · rw [if_neg hts] at hstate
    exact hstate hwait

/-- A new thread starts in user mode. -/
theorem newThread {n : Nat} (new : (m'.tcb n).resume = .userMode)
    (old : ∀ t, t ≠ n → m'.tcb t = m.tcb t) (event : e ≠ .resume) : AwakeEffect m e m' := by
  refine of_no_wake (fun t _ ht => ?_) (fun t ht => ?_) event
  · by_cases htn : t = n
    · rw [htn, new]
    · rwa [old t htn]
  · have htn : t ≠ n := by
      rintro rfl
      exact ht.1 new
    unfold awake at ht
    rwa [old t htn] at ht

/-- Rewriting the control block of the current thread, which was not inside a call. -/
theorem setCurrent (wf : m.Wf) {b : TCB} (asleep : b.resume = .userMode ∨ b.state = .waiting)
    (event : e ≠ .resume) : AwakeEffect m e (m.setTcb m.current b) := by
  have hlt := wf.placed_lt m.current_placed
  have hother : ∀ t, t ≠ m.current → (m.setTcb m.current b).tcb t = m.tcb t := fun t ht => by
    simp [setTcb, ht]
  refine of_no_wake (fun t hle ht => ?_) (fun t ht => ?_) event
  · rwa [hother t (by omega)]
  · have hne : t ≠ m.current := by
      rintro rfl
      rcases asleep with hb | hb
      · exact ht.1 (by simpa [setTcb] using hb)
      · exact ht.2 (by simpa [setTcb] using hb)
    unfold awake at ht
    rwa [hother t hne] at ht

/-- `schedule` wakes no waiter. -/
theorem schedule (h : AwakeEffect m e m1) (hshuf : Shuffled m1 m') (event : e ≠ .resume) :
    AwakeEffect m e m' := by
  obtain ⟨w, hwoken⟩ := h.woken
  refine ⟨fun t hle ht => ?_, ⟨w, fun t ht => hwoken t ((hshuf.awake_iff t).mp ht)⟩,
    fun he => absurd he event⟩
  rw [hshuf.resume]
  exact h.unused t hle ht

end AwakeEffect

/-- Returning steps. -/
theorem Returns.awakeEffect {o : Out} (h : Returns m e o m') (wf : m.Wf) : AwakeEffect m e m' := by
  cases h with
  | tick n => exact .same rfl nofun
  | noReader => exact .same rfl nofun
  | reader t mem state => exact .wake (by rw [state]; simp) nofun
  | refuse c v manages => exact .same rfl nofun
  | makeRunnable tid t mem state => exact .wake (by rw [state]; simp) nofun
  | threadFork =>
      refine .newThread (n := m.nextTid) ?_ (fun t ht => ?_) nofun
      · rw [sysThreadFork_tcb, if_pos rfl]
      · rw [sysThreadFork_tcb, if_neg ht]
  | fork outcome =>
      have hnew : (m.forkBlocks.tcb m.nextTid).resume = .userMode := by
        rw [forkBlocks_tcb, if_pos rfl]
      have hold : ∀ t, t ≠ m.nextTid → m.forkBlocks.tcb t = m.tcb t := fun t ht => by
        rw [forkBlocks_tcb, if_neg ht]
      cases outcome with
      | early => exact .same rfl nofun
      | stack => exact .same rfl nofun
      | late => exact .newThread hnew hold nofun
      | ok => exact .newThread hnew hold nofun
  | setStatus status => exact .same rfl nofun
  | badPointer statusPtr bad => exact .same rfl nofun
  | childless statusPtr none => exact .same rfl nofun
  | firstScan statusPtr c accepts found => exact .same rfl nofun
  | secondScan statusPtr inside alive =>
      have htcb : (m.resumeWait statusPtr).1.tcb = m.goOn.tcb := by
        rw [resumeWait_eq]
        cases m.goOn.findZombie m.currentPcb <;> rfl
      have hother : ∀ t, t ≠ m.current → m.goOn.tcb t = m.tcb t := fun t ht => by
        simp [goOn, setTcb, ht]
      have hself : (m.goOn.tcb m.current).resume = .userMode := by simp [goOn, setTcb]
      have hgone : ¬ (m.resumeWait statusPtr).1.awake m.current := by
        rintro ⟨hresume, -⟩
        rw [htcb] at hresume
        exact hresume hself
      refine ⟨fun t hle ht => ?_, ⟨0, fun t ht => Or.inl ?_⟩, fun _ => ⟨⟨?_, ?_⟩, hgone⟩⟩
      · have hlt := wf.placed_lt m.current_placed
        rw [htcb, hother t (by omega)]
        exact ht
      · have hne : t ≠ m.current := by
          rintro rfl
          exact hgone ht
        unfold awake at ht
        rwa [htcb, hother t hne] at ht
      · rw [inside]
        simp
      · intro hwait
        have hready := wf.ready
        rw [hwait] at hready
        cases hready

/-- Blocking steps, before `schedule`. -/
theorem Blocks.awakeEffect (h : Blocks m e m1) (wf : m.Wf) : AwakeEffect m e m1 ∧ e ≠ .resume := by
  cases h with
  | tick n => exact ⟨.same rfl nofun, nofun⟩
  | reschedule => exact ⟨.same rfl nofun, nofun⟩
  | yield tid => exact ⟨.same rfl nofun, nofun⟩
  | aside c b manages user state owner resume =>
      exact ⟨.setCurrent wf (Or.inl resume) nofun, nofun⟩
  | wait statusPtr user none => exact ⟨.setCurrent wf (Or.inr rfl) nofun, nofun⟩
  | vanish user peers => exact ⟨.setCurrent wf (Or.inl user.1) nofun, nofun⟩
  | exit m2 user last parent wakes =>
      obtain ⟨w, hwoken⟩ := wakes.awake
      refine ⟨⟨fun t hle ht => ?_, ⟨w, fun t ht => ?_⟩, nofun⟩, nofun⟩
      · rw [setState_resume]
        cases wakes with
        | nobody quiet => exact ht
        | init orphan mem => rwa [wake_resume]
        | waiter q s parent living mem waiting => rwa [wake_resume]
      · have hne : t ≠ m.current := by
          rintro rfl
          have hresume := ht.1
          rw [setState_resume] at hresume
          cases wakes with
          | nobody quiet => exact hresume user.1
          | init orphan mem =>
              rw [wake_resume] at hresume
              exact hresume user.1
          | waiter q s parent living mem waiting =>
              rw [wake_resume] at hresume
              exact hresume user.1
        have ht2 : m2.awake t := by
          refine ⟨by simpa using ht.1, ?_⟩
          have hstate := ht.2
          rwa [setState_state, if_neg hne] at hstate
        refine (hwoken t ht2).imp id fun hthread => ⟨hthread.1, rfl, last, hthread.2.1, ?_⟩
        have hparent : ((m.exited m.currentPcb).proc m.currentPcb).parent =
            (m.proc m.currentPcb).parent := by rw [exited_proc_self]
        have hsame : ∀ q, (m.proc m.currentPcb).parent = some q →
            (m.exited m.currentPcb).proc q = m.proc q := fun q hq =>
          m.exited_proc_of_ne (wf.parent_ne user.2.2 hq)
        rw [hparent] at hthread
        refine hthread.2.2.imp (fun horphan => ⟨fun q hq => ?_, horphan.2⟩) ?_
        · rw [← hsame q hq]
          exact horphan.1 q hq
        · rintro ⟨q, hq, hliving, hmem⟩
          rw [hsame q hq] at hliving hmem
          exact ⟨q, hq, hliving, hmem⟩

/-- **Every step has this effect.** -/
theorem awake_effect {o : Out} (wf : m.Wf) (hs : m.step e = some (m', o)) : AwakeEffect m e m' := by
  rcases step_cases hs with hret | ⟨-, m1, tid, hblocks, hsched⟩
  · exact hret.awakeEffect wf
  · obtain ⟨heffect, hevent⟩ := hblocks.awakeEffect wf
    have hat := (wf.blocks hblocks).1
    exact heffect.schedule (schedule_spec hat.queues hat.idle hsched).2.2.1 hevent

/-! ## The counts after a step -/

/-- A new thread is not awake inside a call, so that only the old ones count. -/
theorem wokenWaiters_eq (h : Served m) (ht : ThreadEffect m e m') (ha : AwakeEffect m e m')
    (p : Nat) : m'.wokenWaiters p = (m.threadsOf p).countP fun t => m'.awake t := by
  have hnew : ¬ m'.awake m.nextTid := fun hnew =>
    hnew.1 (ha.unused _ (Nat.le_refl _) (h.unused _ (Nat.le_refl _)))
  rw [wokenWaiters, threadsOf_step ht, List.countP_append]
  split_ifs
  · rw [List.countP_cons, List.countP_nil]
    simp [hnew]
  · rw [List.countP_nil, Nat.add_zero]

/-- Without a wake-up there are no more woken waiters than before. -/
theorem wokenWaiters_le (h : Served m) (ht : ThreadEffect m e m') (ha : AwakeEffect m e m') {p : Nat}
    (none : ∀ t ∈ m.threadsOf p, ¬ (e = .call .vanish ∧
      m.liveCount (m.proc m.currentPcb).chain = 1 ∧ m.exitWakesThread t)) :
    m'.wokenWaiters p ≤ m.wokenWaiters p := by
  obtain ⟨w, hwoken⟩ := ha.woken
  rw [wokenWaiters_eq h ht ha, wokenWaiters]
  refine List.countP_mono_left fun t hmem hawake => ?_
  have hold := (hwoken t (by simpa using hawake)).resolve_right fun hw => none t hmem hw.2
  simpa using hold

/-- A step wakes at most one waiter. -/
theorem wokenWaiters_le_succ (h : Served m) (ht : ThreadEffect m e m') (ha : AwakeEffect m e m')
    (p : Nat) : m'.wokenWaiters p ≤ m.wokenWaiters p + 1 := by
  obtain ⟨w, hwoken⟩ := ha.woken
  rw [wokenWaiters_eq h ht ha, wokenWaiters]
  refine countP_le_succ (m.nodup_threadsOf p) w fun t _ hawake => ?_
  exact (hwoken t (by simpa using hawake)).imp (fun hold => by simpa using hold) And.left

/-- A waiter that goes on is not counted any more. -/
theorem wokenWaiters_resume (h : Served m) (wf : m.Wf) (ht : ThreadEffect m .resume m')
    (ha : AwakeEffect m .resume m') :
    m'.wokenWaiters m.currentPcb + 1 ≤ m.wokenWaiters m.currentPcb := by
  obtain ⟨w, hwoken⟩ := ha.woken
  obtain ⟨hbefore, hafter⟩ := ha.resumed rfl
  rw [wokenWaiters_eq h ht ha, wokenWaiters]
  refine countP_succ_le (fun t _ hawake => ?_)
    (mem_threadsOf.mpr ⟨wf.placed_lt m.current_placed, rfl⟩) (by simpa using hafter)
    (by simpa using hbefore)
  have hold := (hwoken t (by simpa using hawake)).resolve_right fun hw => by cases hw.2.1
  simpa using hold

/-- Steps that keep the children and their states keep the counts. -/
theorem children_counts {p : Nat} (children : (m'.proc p).children = (m.proc p).children)
    (state : ∀ c ∈ (m.proc p).children, (m'.proc c).state = (m.proc c).state) :
    m'.livingChildren p = m.livingChildren p ∧ m'.zombieChildren p = m.zombieChildren p := by
  unfold livingChildren zombieChildren
  rw [children]
  constructor
  · exact List.countP_congr fun c hc => by rw [state c hc]
  · exact List.countP_congr fun c hc => by rw [state c hc]

/-- The exit of the current process makes a zombie of a living child. -/
theorem exited_counts (proc : m'.proc = (m.exited m.currentPcb).proc) (p : Nat) :
    m'.livingChildren p ≤ m.livingChildren p ∧ m.zombieChildren p ≤ m'.zombieChildren p ∧
      (m.currentPcb ∈ (m.proc p).children → (m.proc m.currentPcb).state ≠ .exit →
        0 < m.livingChildren p ∧ m.zombieChildren p + 1 ≤ m'.zombieChildren p) := by
  have hchildren : (m'.proc p).children = (m.proc p).children := by
    rw [proc, exited_proc]
    split_ifs <;> rfl
  have hstate : ∀ c, (m'.proc c).state = if c = m.currentPcb then .exit else (m.proc c).state := by
    intro c
    rw [proc, exited_proc]
    split_ifs <;> rfl
  have hmono : ∀ c, (m.proc c).state = .exit → (m'.proc c).state = .exit := by
    intro c hc
    rw [hstate]
    split_ifs
    · rfl
    · exact hc
  unfold livingChildren zombieChildren
  rw [hchildren]
  refine ⟨List.countP_mono_left fun c _ hc => ?_, List.countP_mono_left fun c _ hc => ?_,
    fun hmem hliving => ⟨?_, ?_⟩⟩
  · simp only [ne_eq, decide_eq_true_eq] at hc ⊢
    exact fun hexit => hc (hmono c hexit)
  · simp only [decide_eq_true_eq] at hc ⊢
    exact hmono c hc
  · exact List.countP_pos_iff.mpr ⟨_, hmem, by simpa using hliving⟩
  · refine countP_succ_le (fun c _ hc => ?_) hmem (by simpa using hliving) (by simp [hstate])
    simp only [decide_eq_true_eq] at hc ⊢
    exact hmono c hc

/-- A reap takes a zombie away. -/
theorem reap_counts {q z statusPtr : Nat}
    (proc : m'.proc = (m.reap q z statusPtr).1.proc) (found : m.findZombie q = some z) (p : Nat) :
    m'.livingChildren p = m.livingChildren p ∧
      m'.zombieChildren p + (if p = q then 1 else 0) = m.zombieChildren p := by
  obtain ⟨hmem, hexit⟩ := Wf.findZombie_some found
  have hproc : ∀ c, m'.proc c = (m.reap q z statusPtr).1.proc c := fun c => by rw [proc]
  simp only [reap_proc] at hproc
  have hstate : ∀ c, (m'.proc c).state = (m.proc c).state := by
    intro c
    rw [hproc]
    split_ifs <;> rfl
  have hchildren : (m'.proc p).children =
      if p = q then (m.proc p).children.erase z else (m.proc p).children := by
    rw [hproc]
    split_ifs <;> rfl
  unfold livingChildren zombieChildren
  simp only [hstate]
  rw [hchildren]
  split_ifs with hp
  · subst hp
    have hperm := List.perm_cons_erase hmem
    constructor
    · rw [hperm.countP_eq, List.countP_cons]
      simp [hexit]
    · rw [hperm.countP_eq (p := fun c => decide ((m.proc c).state = .exit)), List.countP_cons]
      simp [hexit]
  · exact ⟨rfl, rfl⟩

/-- A fork adds a living child. -/
theorem born_counts (wf : m.Wf) (proc : m'.proc = m.forkBlocks.proc) (p : Nat) :
    m'.zombieChildren p = m.zombieChildren p ∧
      (p ≠ m.currentPcb → m'.livingChildren p = m.livingChildren p) := by
  have hcur : m.currentPcb < m.nextPid := wf.chains.owner_lt m.current
  have hproc : ∀ c, m'.proc c = m.forkBlocks.proc c := fun c => by rw [proc]
  simp only [forkBlocks_proc hcur] at hproc
  have hstate : ∀ c, c ≠ m.nextPid → (m'.proc c).state = (m.proc c).state := by
    intro c hc
    rw [hproc]
    split_ifs <;> rfl
  have hnew : (m'.proc m.nextPid).state = .running := by
    rw [hproc, if_neg (Nat.ne_of_gt hcur), if_pos rfl]
  have hchild : ∀ q, ∀ c ∈ (m.proc q).children, c ≠ m.nextPid := fun q c hc =>
    Nat.ne_of_lt (wf.kin.child q c hc).2.1
  by_cases hp : p = m.currentPcb
  · refine ⟨?_, fun hne => absurd hp hne⟩
    unfold zombieChildren
    rw [hproc, if_pos hp, List.countP_append, List.countP_cons, List.countP_nil, hnew]
    simp only [reduceCtorEq, decide_false, if_false, Nat.add_zero, Bool.false_eq_true]
    exact List.countP_congr fun c hc => by rw [hstate c (hchild p c hc)]
  · have hsame : (m'.proc p).children = (m.proc p).children := by
      rw [hproc, if_neg hp]
      split_ifs with hq
      · rw [hq, wf.kin.unborn _ (Nat.le_refl _)]
      · rfl
    obtain ⟨hliving, hzombie⟩ := children_counts hsame fun c hc => hstate c (hchild p c hc)
    exact ⟨hzombie, fun _ => hliving⟩

end Awake

/-! ## The invariant -/

/-- `Pebbles.LeavesNoWaiter` on the machine. -/
structure LeavesNoWaiter (m : Machine) (e : Event) : Prop where
  /-- A first scan. -/
  reaps : (∃ statusPtr, acceptsStatus statusPtr ∧ e = .call (.wait statusPtr)) →
    m.findZombie m.currentPcb ≠ none →
    m.livingChildren m.currentPcb = 0 ∨
      m.wokenWaiters m.currentPcb < m.zombieChildren m.currentPcb
  /-- A fork. -/
  forks : e.bearsChild = true → m.wokenWaiters m.currentPcb ≤ m.zombieChildren m.currentPcb
  /-- An exit. -/
  exits : e = .call .vanish → m.liveCount (m.proc m.currentPcb).chain = 1 →
    ∀ t, m.exitWakesThread t →
      m.currentPcb ∈ (m.proc (m.tcb t).pcb).children ∧ (m.proc m.currentPcb).state ≠ .exit ∨
        m.livingChildren (m.tcb t).pcb = 0 ∨
          m.wokenWaiters (m.tcb t).pcb < m.zombieChildren (m.tcb t).pcb

/-- **Step lemma**: an action that leaves no waiter without its zombie keeps every process
served. -/
theorem Served.step {m m' : Machine} {e : Event} {o : Out} (h : Served m) (wf : m.Wf)
    (hleaves : m.LeavesNoWaiter e) (hs : m.step e = some (m', o)) : Served m' := by
  have hthread := thread_effect wf hs
  have hawake := awake_effect wf hs
  have hunused : ∀ t, m'.nextTid ≤ t → (m'.tcb t).resume = .userMode := fun t ht =>
    hawake.unused t (Nat.le_trans hthread.tid ht) (h.unused t (Nat.le_trans hthread.tid ht))
  refine ⟨fun p => ?_, hunused⟩
  have hserved := h.served p
  -- but for exits the woken waiters are no more than before
  have hfewer : (e = .call .vanish → m.liveCount (m.proc m.currentPcb).chain ≠ 1) →
      m'.wokenWaiters p ≤ m.wokenWaiters p := fun hno =>
    wokenWaiters_le h hthread hawake fun t _ ht => hno ht.1 ht.2.1
  have quiet : (e = .call .vanish → m.liveCount (m.proc m.currentPcb).chain ≠ 1) →
      (∀ q, (m'.proc q).children = (m.proc q).children) →
      (∀ q, (m'.proc q).state = (m.proc q).state) →
      m'.livingChildren p = 0 ∨ m'.wokenWaiters p ≤ m'.zombieChildren p := by
    intro hno hchildren hstate
    obtain ⟨hliving, hzombie⟩ := children_counts (hchildren p) fun c _ => hstate c
    have hle := hfewer hno
    omega
  cases family_effect hs with
  | still proc pid freed makes status reaps peers scan =>
      exact quiet peers (fun q => by rw [proc]) fun q => by rw [proc]
  | threads event proc pid freed =>
      refine quiet (fun he => ?_) (fun q => ?_) fun q => ?_
      · rw [event] at he
        cases he
      · rw [proc, sysThreadFork_proc]
        split_ifs <;> rfl
      · rw [proc, sysThreadFork_proc]
        split_ifs <;> rfl
  | status status event proc pid freed =>
      refine quiet (fun he => ?_) (fun q => ?_) fun q => ?_
      · rw [event] at he
        cases he
      · rw [proc, sysSetStatus_proc]
        split_ifs <;> rfl
      · rw [proc, sysSetStatus_proc]
        split_ifs <;> rfl
  | born bears proc pid freed alive =>
      have hle := hfewer fun he => by
        rw [he] at bears
        cases bears
      obtain ⟨hzombie, hliving⟩ := born_counts wf proc p
      by_cases hp : p = m.currentPcb
      · have hforks := hleaves.forks bears
        rw [← hp] at hforks
        omega
      · rw [hliving hp]
        omega
  | reaped statusPtr z waits accepts found result proc pid freed alive =>
      obtain ⟨hliving, hzombie⟩ := reap_counts proc found p
      have hle := hfewer fun he => by
        rcases waits with hw | ⟨hw, -⟩ <;> rw [he] at hw <;> cases hw
      rw [hliving]
      by_cases hp : p = m.currentPcb
      · subst hp
        rw [if_pos rfl] at hzombie
        rcases waits with hw | ⟨hw, -⟩
        · have hspare := hleaves.reaps ⟨statusPtr, accepts hw, hw⟩ (by rw [found]; simp)
          omega
        · -- the second scan takes the zombie of the waiter that goes on
          subst hw
          have hlt := wokenWaiters_resume h wf hthread hawake
          omega
      · rw [if_neg hp, Nat.add_zero] at hzombie
        omega
  | exits event last parent proc pid freed alive =>
      obtain ⟨hliving, hzombie, hchild⟩ := exited_counts proc p
      by_cases hwakes : ∃ t ∈ m.threadsOf p, m.exitWakesThread t
      · obtain ⟨t, ht, hthread'⟩ := hwakes
        have hsucc := wokenWaiters_le_succ h hthread hawake p
        obtain rfl := (mem_threadsOf.mp ht).2
        rcases hleaves.exits event last t hthread' with ⟨hmem, hstate⟩ | hnone | hspare
        · obtain ⟨hpos, hmore⟩ := hchild hmem hstate
          omega
        · omega
        · omega
      · have hle := wokenWaiters_le h hthread hawake (p := p) fun t ht hw =>
          hwakes ⟨t, ht, hw.2.2⟩
        omega

/-- **A failing wait**: the count of children is zero, or the second scan finds no zombie. -/
theorem wait_fails {m m' : Machine} {e : Event} {o : Out} (hs : m.step e = some (m', o))
    (hscan : e = .resume ∨ ∃ statusPtr, acceptsStatus statusPtr ∧ e = .call (.wait statusPtr))
    (hret : o.ret = some (-1)) : m'.proc = m.proc ∧
      ((m.proc m.currentPcb).childrenCount = 0 ∨
        e = .resume ∧ m.findZombie m.currentPcb = none) := by
  rcases step_cases hs with hreturns | ⟨rfl, m1, tid, hblocks, hsched⟩
  · cases hreturns with
    | tick n => cases hret
    | noReader => cases hret
    | reader t mem state => cases hret
    | setStatus status => cases hret
    | refuse c v manages =>
        rcases hscan with he | ⟨statusPtr, -, he⟩
        · cases he
        · cases he
          exact manages.elim
    | makeRunnable tid t mem state =>
        rcases hscan with he | ⟨statusPtr, -, he⟩ <;> cases he
    | threadFork =>
        rcases hscan with he | ⟨statusPtr, -, he⟩ <;> cases he
    | fork outcome =>
        rcases hscan with he | ⟨statusPtr, -, he⟩ <;> cases he
    | badPointer statusPtr bad =>
        rcases hscan with he | ⟨statusPtr, hgood, he⟩ <;> cases he
        exact absurd hgood bad
    | childless statusPtr none => exact ⟨rfl, Or.inl none⟩
    | firstScan statusPtr c accepts found =>
        have hc : (c : Int) = -1 := Option.some.inj hret
        omega
    | secondScan statusPtr inside alive =>
        rw [resumeWait_eq] at hret ⊢
        cases found : m.goOn.findZombie m.currentPcb with
        | none => exact ⟨rfl, Or.inr ⟨rfl, found⟩⟩
        | some c =>
            rw [found] at hret
            have hc : (c : Int) = -1 := Option.some.inj hret
            omega
  · cases hret

/-- In a served process a wait fails only without children. -/
theorem Served.wait_fails {m m' : Machine} {e : Event} {o : Out} (h : Served m) (wf : m.Wf)
    (hs : m.step e = some (m', o))
    (hscan : e = .resume ∨ ∃ statusPtr, acceptsStatus statusPtr ∧ e = .call (.wait statusPtr))
    (hret : o.ret = some (-1)) : (m'.proc m.currentPcb).children = [] := by
  obtain ⟨hproc, hfails⟩ := Machine.wait_fails hs hscan hret
  rw [hproc]
  rcases hfails with hcount | ⟨rfl, hnone⟩
  · rw [wf.kin.count] at hcount
    exact List.length_eq_zero_iff.mp (by omega)
  · have hno := Wf.findZombie_none hnone
    have hzombie : m.zombieChildren m.currentPcb = 0 :=
      List.countP_eq_zero.mpr fun c hc => by simpa using hno c hc
    -- the waiter that goes on was woken, so no child is left alive
    have hpos := wokenWaiters_resume h wf (thread_effect wf hs) (awake_effect wf hs)
    have hliving : m.livingChildren m.currentPcb = 0 := by
      rcases h.served m.currentPcb with hl | hle <;> omega
    refine List.eq_nil_iff_forall_not_mem.mpr fun c hc => ?_
    have hc' := List.countP_eq_zero.mp hliving c hc
    exact hc' (by simpa using hno c hc)

/-- After boot nobody waits. -/
theorem served_boot : Served boot := by
  have hresume : ∀ t, (boot.tcb t).resume = .userMode := by
    intro t
    simp only [boot]
    split_ifs <;> rfl
  refine ⟨fun p => Or.inr ?_, fun t _ => hresume t⟩
  have hnone : boot.wokenWaiters p = 0 :=
    List.countP_eq_zero.mpr fun t _ => by simp [awake, hresume t]
  omega

end Machine

/-! ## Failing waits -/

/-- The condition on the kernel state is the condition on the machine. -/
theorem LeavesNoWaiter.machine {k : Kernel} {m : Machine} {x : Action} (hm : k.RepresentedBy m)
    (h : LeavesNoWaiter k x) : m.LeavesNoWaiter x.event := by
  obtain ⟨href, wf⟩ := hm
  have hwoken : ∀ p, k.wokenWaiters p = m.wokenWaiters p := by
    intro p
    rw [Kernel.wokenWaiters, href.threadsOf, href.tcb]
    rfl
  have hmembers := href.members_children wf.kin
  have hzombie : ∀ p, k.zombieChildren p = m.zombieChildren p := by
    intro p
    simp only [Kernel.zombieChildren, Machine.zombieChildren, hmembers, (href.pcb _).state]
  have hliving : ∀ p, k.livingChildren p = m.livingChildren p := by
    intro p
    simp only [Kernel.livingChildren, Machine.livingChildren, hmembers, (href.pcb _).state]
  refine ⟨fun he hfound => ?_, fun he => ?_, fun he hlast t ht => ?_⟩
  · have hreaps := h.reaps he (by rwa [href.findZombie wf, href.currentPcb])
    rwa [hliving, hwoken, hzombie, href.currentPcb] at hreaps
  · have hforks := h.forks he
    rwa [hwoken, hzombie, href.currentPcb] at hforks
  · have hwakes : k.WakesThreadOf (m.tcb t).pcb := by
      unfold Kernel.WakesThreadOf
      rw [href.currentPcb, (href.pcb _).parent, href.tcb]
      simp only [(href.pcb _).state, href.members_threads wf.chains]
      obtain ⟨hwait, ⟨horphan, rfl⟩ | ⟨q, hq, hstate, hmem⟩⟩ := ht
      · exact Or.inl ⟨horphan, hwait, rfl⟩
      · rw [(wf.chains.own q t hmem).1]
        exact Or.inr ⟨hq, hstate, t, hmem, hwait⟩
    have hexits := h.exits ((href.exits_iff wf x).mpr ⟨he, hlast⟩) _ hwakes
    rwa [hmembers, hliving, hwoken, hzombie, href.currentPcb, (href.pcb _).state] at hexits

/-- **`wait` fails only when there is nothing to wait for**, in every run in which no step leaves a
woken waiter without its zombie. -/
theorem wait_fails_only_childless {as : List Action} {k : Kernel}
    (run : Run (Guarded Kernel.Step LeavesNoWaiter) Kernel.boot as k) :
    Run (Satisfying Kernel.Step WaitFailsChildless) Kernel.boot as k := by
  refine run.mono_of_invariant (I := fun u => ∃ m, u.RepresentedBy m ∧ m.Served)
    ⟨_, Kernel.represented_boot, Machine.served_boot⟩ ?_ ?_
  · rintro u x v ⟨m, hm, hserved⟩ ⟨hstep, hleaves⟩
    obtain ⟨m', hs, hm'⟩ := hm.step hstep
    exact ⟨m', hm', hserved.step hm.2 (hleaves.machine hm) hs⟩
  · rintro u x v ⟨m, hm, hserved⟩ ⟨hstep, -⟩
    refine ⟨hstep, fun hscan hret => ?_⟩
    obtain ⟨m', hs, hm'⟩ := hm.step hstep
    have hproc : x.process = m.currentPcb := by rw [Action.process, hstep.1, hm.1.currentPcb]
    rw [hm'.1.members_children hm'.2.kin, hproc]
    exact hserved.wait_fails hm.2 hs hscan hret

/-- Calls other than `fork`, `vanish` and a `wait` that finds a zombie leave nobody behind. -/
theorem LeavesNoWaiter.of_quiet {k : Kernel} {x : Action}
    (reaps : k.findZombie k.currentPcb = none ∨ ∀ statusPtr, x.event ≠ .call (.wait statusPtr))
    (bears : x.event.bearsChild = false) (vanish : x.event ≠ .call .vanish) :
    LeavesNoWaiter k x := by
  refine ⟨?_, fun h => ?_, fun h => absurd h.1 vanish⟩
  · rintro ⟨statusPtr, -, he⟩ hfound
    rcases reaps with hnone | hno
    · exact absurd hnone hfound
    · exact absurd he (hno statusPtr)
  · rw [bears] at h
    cases h

/-- A fork in a process with a zombie for every woken waiter. -/
theorem LeavesNoWaiter.of_fork {k : Kernel} {x : Action} (bears : x.event.bearsChild = true)
    (h : k.wokenWaiters k.currentPcb ≤ k.zombieChildren k.currentPcb) : LeavesNoWaiter k x := by
  refine ⟨?_, fun _ => h, fun hexit => ?_⟩
  · rintro ⟨statusPtr, -, he⟩
    rw [he] at bears
    cases bears
  · rw [hexit.1] at bears
    cases bears

/-- The exit of a living child of the process whose thread it wakes. -/
theorem LeavesNoWaiter.of_exit {k : Kernel} {x : Action} {q : Nat} (event : x.event = .call .vanish)
    (parent : (k.pcb k.currentPcb).parent = some q) (living : (k.pcb q).state ≠ .exit)
    (child : k.currentPcb ∈ k.members (k.pcb q).children ∧ (k.pcb k.currentPcb).state ≠ .exit) :
    LeavesNoWaiter k x := by
  refine ⟨?_, fun hbears => ?_, fun _ p hp => Or.inl ?_⟩
  · rintro ⟨statusPtr, -, he⟩
    rw [event] at he
    cases he
  · rw [event] at hbears
    cases hbears
  · rcases hp with ⟨horphan, -⟩ | ⟨hp, -⟩
    · exact absurd (horphan q parent) living
    · rw [parent] at hp
      rw [← Option.some.inj hp]
      exact child

/-- A child is forked and exits while its parent waits; the waiter gets it, and the next `wait`
fails. -/
theorem wait_fails_only_childless_one_child :
    ∃ as k, as.map Action.event = [.call (.fork .ok), .call (.wait 0), .reschedule, .call .vanish,
        .reschedule, .resume, .call (.wait 0)] ∧
      as.map (fun x => x.out.ret) = [some 3, none, none, none, none, some 3, some (-1)] ∧
      Run (Satisfying Kernel.Step WaitFailsChildless) Kernel.boot as k := by
  have h0 : Run (Guarded Kernel.Step LeavesNoWaiter) Kernel.boot [] Kernel.boot := Run.nil
  have h1 := h0.snoc ⟨Kernel.step_act (e := .call (.fork .ok)) (by decide +kernel),
    .of_fork rfl (by decide +kernel)⟩
  have h2 := h1.snoc ⟨Kernel.step_act (e := .call (.wait 0)) (by decide +kernel),
    .of_quiet (Or.inl (by decide +kernel)) rfl nofun⟩
  have h3 := h2.snoc ⟨Kernel.step_act (e := .reschedule) (by decide +kernel),
    .of_quiet (Or.inr nofun) rfl nofun⟩
  have h4 := h3.snoc ⟨Kernel.step_act (e := .call .vanish) (by decide +kernel),
    .of_exit (q := 2) rfl (by decide +kernel) (by decide +kernel) (by decide +kernel)⟩
  have h5 := h4.snoc ⟨Kernel.step_act (e := .reschedule) (by decide +kernel),
    .of_quiet (Or.inr nofun) rfl nofun⟩
  have h6 := h5.snoc ⟨Kernel.step_act (e := .resume) (by decide +kernel),
    .of_quiet (Or.inr nofun) rfl nofun⟩
  have h7 := h6.snoc ⟨Kernel.step_act (e := .call (.wait 0)) (by decide +kernel),
    .of_quiet (Or.inl (by decide +kernel)) rfl nofun⟩
  exact ⟨_, _, by decide +kernel, by decide +kernel, wait_fails_only_childless h7⟩

/-- An orphan's exit wakes `init` inside `sys_wait`, which gives up while its child is alive:
process 3 forks 4, process 4 forks 5 and exits, then 5 exits. -/
theorem wait_fails_with_living_child :
    ∃ as k x k', Run Kernel.Step Kernel.boot as k ∧ k.Step x k' ∧
      (as ++ [x]).map Action.event = [.call (.fork .ok), .call (.wait 0), .reschedule,
        .call (.fork .ok), .call (.yield 4), .call (.fork .ok), .call .vanish, .reschedule,
        .call (.yield 5), .call .vanish, .reschedule, .reschedule, .resume] ∧
      x.out.ret = some (-1) ∧ (k'.pcb 3).state ≠ .exit ∧ ¬ WaitFailsChildless k x k' := by
  have h := Kernel.reaches_trace [.call (.fork .ok), .call (.wait 0), .reschedule,
    .call (.fork .ok), .call (.yield 4), .call (.fork .ok), .call .vanish, .reschedule,
    .call (.yield 5), .call .vanish, .reschedule, .reschedule] (by decide +kernel)
  have hstep := Kernel.step_act (k := (Kernel.trace [.call (.fork .ok), .call (.wait 0),
    .reschedule, .call (.fork .ok), .call (.yield 4), .call (.fork .ok), .call .vanish,
    .reschedule, .call (.yield 5), .call .vanish, .reschedule, .reschedule]).2) (e := .resume)
    (by decide +kernel)
  refine ⟨_, _, _, _, h, hstep, by decide +kernel, by decide +kernel, by decide +kernel,
    fun hgood => ?_⟩
  exact absurd (hgood (Or.inl rfl) (by decide +kernel)) (by decide +kernel)

end Pebbles
