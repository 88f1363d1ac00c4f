import Pebbles.Process.LostWakeUp
import Pebbles.Process.LooseQueues
import Mathlib.Tactic.IntervalCases

/-! # Reaping a child that has not stopped

`sys_vanish` makes its process a zombie and wakes a waiting thread of the parent; only then it
assigns `THREAD_EXIT` and calls `schedule` for the last time. A thread of the parent that gets the
processor in between finds the zombie and frees its page directory and its PCB, while the child is
still in the runnable queue. -/

namespace Pebbles

open DoublyLinked Transition

/-! ## The property -/

namespace Preempt

/-- The process of `t` has its PCB and its page directory. -/
def Keeps (s : Preempt) (t : Nat) : Prop :=
  (s.kernel.tcb t).pcb ∉ s.kernel.freedPcb ∧ (s.kernel.tcb t).pcb ∉ s.freedPd

/-- **No process is freed under its thread**: the process of every thread that runs or is in a queue
has its PCB and its page directory. -/
def KeepsProcesses (s : Preempt) : Prop := ∀ t, s.kernel.InPlace t → s.Keeps t

/-- Only the thread `c` vanishes, and nobody calls `make_runnable`. -/
def VanishesAlone (c : Nat) (s : Preempt) (m : Move) : Prop :=
  (m = .enter .vanish → s.current = c) ∧ ∀ tid, m ≠ .enter (.makeRunnable tid)

/-- **An ended child**: when `sys_wait` frees the page directory of a process, every thread of this
process has assigned `THREAD_EXIT`. -/
def ReapsEnded (s : Preempt) (m : Move) : Prop :=
  m = .run → ∀ z rest next, s.pc s.current = ⟨.act (.freeDirectory z) :: rest, next⟩ →
    ∀ t, (s.kernel.tcb t).pcb = z → (s.kernel.tcb t).state = .exit

end Preempt

/-! ## Code that leaves the queues alone -/

/-- The writes to neither queue, with which no thread exits and none is woken or freed. -/
def Act.calm : Act → Bool
  | .setOwn st => st ≠ .exit
  | .setRunnable _ | .deleteBlocked _ | .deleteRunnable _ | .insertRunnable _ | .unlinkPeer _
  | .freeThread _ => false
  | _ => true

/-- The points that lead to such writes only, but for the wake-up of a waiting thread. -/
def Point.calm : Point → Bool
  | .makeTest _ | .makeRunnable _ _ | .makeBlocked _ _ | .findInit _ => false
  | _ => true

/-- **Calm code.** -/
structure Pc.Calm (pc : Pc) : Prop where
  /-- The statements. -/
  todo : ∀ a, .act a ∈ pc.todo → a.calm = true
  /-- The point after them. -/
  next : pc.next.calm = true

/-- A PCB is freed after its page directory. -/
def Pc.ReapsInOrder (freed : List Nat) (pc : Pc) : Prop :=
  ∀ z before after, pc.todo = before ++ .act (.freeProcess z) :: after →
    .act (.freeDirectory z) ∈ before ∨ z ∈ freed

namespace Pc

variable {stmt : Stmt} {rest : List Stmt} {next : Point} {freed : List Nat}

/-- A statement is executed. -/
theorem Calm.tail (h : Calm ⟨stmt :: rest, next⟩) : Calm ⟨rest, next⟩ :=
  ⟨fun a ha => h.todo a (List.mem_cons_of_mem _ ha), h.next⟩

/-- At a point. -/
theorem Calm.point {x : Point} (calm : x.calm = true) : (Pc.point x).Calm :=
  ⟨fun _ ha => absurd ha List.not_mem_nil, calm⟩

/-- Code that frees no PCB. -/
theorem ReapsInOrder.of_not_mem {pc : Pc} (none : ∀ z, .act (.freeProcess z) ∉ pc.todo) :
    pc.ReapsInOrder freed := by
  intro z before after htodo
  refine absurd ?_ (none z)
  rw [htodo]
  exact List.mem_append_right _ List.mem_cons_self

/-- The code that reaps a child. -/
theorem reapsInOrder_waitReap (c : Nat) (next : Point) :
    ReapsInOrder freed ⟨waitReap c, next⟩ := by
  intro z before after htodo
  rcases before with _ | ⟨a, _ | ⟨b, _ | ⟨d, before⟩⟩⟩
  · simp [waitReap] at htodo
  · simp [waitReap] at htodo
  · simp [waitReap] at htodo
  · simp only [waitReap, List.cons_append, List.cons.injEq] at htodo
    obtain ⟨-, -, rfl, hrest⟩ := htodo
    rcases before with _ | ⟨e, before⟩
    · simp only [List.nil_append, List.cons.injEq, Stmt.act.injEq, Act.freeProcess.injEq] at hrest
      exact Or.inl (by simp [hrest.1])
    · simp at hrest

/-- A statement is executed, which has freed a page directory if it was one to do so. -/
theorem ReapsInOrder.tail {freed' : List Nat} (h : ReapsInOrder freed ⟨stmt :: rest, next⟩)
    (grows : ∀ z, z ∈ freed ∨ stmt = .act (.freeDirectory z) → z ∈ freed') :
    ReapsInOrder freed' ⟨rest, next⟩ := by
  intro z before after htodo
  rcases h z (stmt :: before) after (congrArg (stmt :: ·) htodo) with hmem | hfreed
  · rcases List.mem_cons.mp hmem with heq | hrest
    · exact Or.inr (grows z (Or.inr heq.symm))
    · exact Or.inl hrest
  · exact Or.inr (grows z (Or.inl hfreed))

/-- A PCB that is freed next has lost its page directory. -/
theorem ReapsInOrder.head {z : Nat} (h : ReapsInOrder freed ⟨.act (.freeProcess z) :: rest, next⟩) :
    z ∈ freed :=
  (h z [] rest rfl).resolve_left List.not_mem_nil

end Pc

/-- A call other than `make_runnable` begins with calm code. -/
theorem Entry.calm {e : Entry} (t : Nat) (other : ∀ tid, e ≠ .makeRunnable tid) :
    (e.pc t).Calm ∧ ∀ z, .act (.freeProcess z) ∉ (e.pc t).todo := by
  cases e with
  | makeRunnable tid => exact absurd rfl (other tid)
  | vanish => exact ⟨⟨by simp [Entry.pc, Act.calm], rfl⟩, by simp [Entry.pc]⟩
  | setStatus status => exact ⟨⟨by simp [Entry.pc, Act.calm], rfl⟩, by simp [Entry.pc]⟩
  | _ => exact ⟨⟨by simp [Entry.pc, Pc.point], rfl⟩, by simp [Entry.pc, Pc.point]⟩

namespace Preempt

variable {s : Preempt}

/-- Code of a test: calm, and with the frees in order. -/
def Follows (freed : List Nat) (pc : Pc) : Prop := pc.Calm ∧ pc.ReapsInOrder freed

/-- Code without statements, or with calm ones that free no PCB. -/
theorem follows_of_calm {pc : Pc} {freed : List Nat} (next : pc.next.calm = true)
    (todo : ∀ a, .act a ∈ pc.todo → a.calm = true)
    (none : ∀ z, .act (.freeProcess z) ∉ pc.todo) : Follows freed pc :=
  ⟨⟨todo, next⟩, .of_not_mem none⟩

/-- **A calm test outside `sys_vanish` leads to calm code.** -/
theorem branch_calm {x : Point} {pc : Pc} (leads : s.branch x = some pc) (calm : x.calm = true)
    (outside : x.inVanish = false) : Follows s.freedPd pc := by
  have loop : ∀ (l : Header NodePtr) (here : Cursor → Point) (done : Pc)
      (body : NodePtr → Option Pc) (c : Cursor), (∀ c, (here c).calm = true) →
      Follows s.freedPd done → (∀ n pc, body n = some pc → Follows s.freedPd pc) →
      Follows s.freedPd (s.loop l here done body c) := by
    intro l here done body c hhere hdone hbody
    rcases s.loop_cases l here done body c with ⟨c', heq⟩ | ⟨-, heq⟩ | ⟨n, pc, -, hpc, heq⟩
    · rw [heq]
      exact follows_of_calm (hhere c') (by simp [Pc.point]) (by simp [Pc.point])
    · rw [heq]
      exact hdone
    · rw [heq]
      exact hbody n pc hpc
  cases x with
  | user out => cases leads
  | vanishCount | vanishReap | vanishParent | findInit | findWaiter => cases outside
  | makeTest | makeRunnable | makeBlocked => cases calm
  | waitScan statusPtr again c =>
      simp only [branch, scanChildren] at leads
      split at leads
      · cases leads
      · cases leads
        apply loop
        · exact fun _ => rfl
        · cases again with
          | false => exact follows_of_calm rfl (by simp [suspend, Act.calm]) (by simp [suspend])
          | true =>
              exact follows_of_calm rfl (by simp [Pc.value]) (by simp [Pc.value])
        · intro n pc hpc
          have hreap : ∀ z out, Follows s.freedPd ⟨waitReap z, .user out⟩ := fun z out =>
            ⟨⟨by simp [waitReap, Act.calm], rfl⟩, Pc.reapsInOrder_waitReap z _⟩
          split_ifs at hpc <;> cases hpc <;> exact hreap _ _
  | yieldBlocked | yieldRunnable =>
      cases leads
      apply loop
      · exact fun _ => rfl
      · exact follows_of_calm rfl (by simp) (by simp)
      · intro n pc hpc
        split_ifs at hpc
        cases hpc
        exact follows_of_calm rfl (by simp) (by simp)
  | readlineRead len =>
      cases leads
      split_ifs
      · exact follows_of_calm rfl (by simp [Pc.value]) (by simp [Pc.value])
      · exact follows_of_calm rfl (by simp [Pc.point]) (by simp [Pc.point])
  | _ =>
      simp only [branch] at leads
      split_ifs at leads <;> cases leads <;>
        exact follows_of_calm rfl (by simp [Pc.value, Pc.point, suspend, Act.calm])
          (by simp [Pc.value, Pc.point, suspend])

end Preempt

/-! ## The wake-up -/

/-- The end of `sys_vanish` of thread `c`, with a wake-up of `w`, from statement `i` on. -/
def wakeCode (c w i : Nat) : Pc := ⟨(vanishWake w ++ vanishEnd c).drop i, .user Out.quiet⟩

/-- **Statement after statement.** Four of them write. -/
theorem wakeCode_cases {c w i : Nat} {stmt : Stmt} {rest : List Stmt} {next : Point}
    (h : wakeCode c w i = ⟨stmt :: rest, next⟩) :
    i ≤ 11 ∧ (⟨rest, next⟩ : Pc) = wakeCode c w (i + 1) ∧ ∀ a, stmt = .act a →
      i = 1 ∧ a = .deleteBlocked (threadListNode w) ∨ i = 4 ∧ a = .setRunnable w ∨
        i = 7 ∧ a = .insertRunnable (threadListNode w) ∨ i = 9 ∧ a = .setOwn .exit := by
  obtain ⟨hcode, hnext⟩ := Pc.mk.inj h
  have hlt : i < (vanishWake w ++ vanishEnd c).length := by
    by_contra hge
    rw [List.drop_eq_nil_of_le (Nat.le_of_not_lt hge)] at hcode
    cases hcode
  rw [List.drop_eq_getElem_cons hlt] at hcode
  obtain ⟨hstmt, hrest⟩ := List.cons.inj hcode
  have hlength : (vanishWake w ++ vanishEnd c).length = 12 := rfl
  refine ⟨by omega, ?_, ?_⟩
  · rw [← hrest, ← hnext]
    rfl
  · rintro a rfl
    rw [hlength] at hlt
    have hget : (vanishWake w ++ vanishEnd c)[i]? = some (.act a) := by
      rw [List.getElem?_eq_getElem (by omega), hstmt]
    clear hcode hstmt hrest h
    interval_cases i <;> simp_all [vanishWake, vanishEnd]

/-- It frees nothing. -/
theorem wakeCode_frees (c w i z : Nat) : .act (.freeProcess z) ∉ (wakeCode c w i).todo := by
  intro hz
  have hall := List.mem_of_mem_drop hz
  simp [vanishWake, vanishEnd] at hall

namespace Preempt

variable {s : Preempt} {p : Nat}

/-- The loop variable of the search for a waiting thread points into the thread list of `p`. -/
def Seeks (s : Preempt) (p : Nat) (pc : Pc) : Prop :=
  ∀ cur n, pc.next = .findWaiter cur → cur.node = some n →
    s.kernel.nodeClass n = (.peerThreads, p)

/-- Code that does not lead into the search. -/
theorem seeks_of_ne {pc : Pc} (h : ∀ cur, pc.next ≠ .findWaiter cur) : s.Seeks p pc :=
  fun cur _ hcur => absurd hcur (h cur)

/-- **A test in `sys_vanish` of the single thread of a process** leads to calm code or to the end of
the call, with a wake-up if a thread of the parent `p` waits. -/
theorem branch_vanish {x : Point} {pc : Pc} (h : s.Separated) (code : s.pc s.current = ⟨[], x⟩)
    (leads : s.branch x = some pc) (inside : x.inVanish = true) (calm : x.calm = true)
    (alone : ∀ t, (s.kernel.tcb t).pcb = s.kernel.currentPcb → t = s.current)
    (parent : (s.kernel.pcb s.kernel.currentPcb).parent = some p)
    (living : (s.kernel.pcb p).state ≠ .exit) (seeks : s.Seeks p ⟨[], x⟩) :
    Follows s.freedPd pc ∧ s.Seeks p pc ∨ pc = wakeCode s.current 0 9 ∨
      ∃ w, pc = wakeCode s.current w 0 ∧ (s.kernel.tcb w).pcb = p ∧
        (s.kernel.tcb w).state = .waiting := by
  have hpoint : ∀ y : Point, y.calm = true → s.Seeks p (Pc.point y) →
      Follows s.freedPd (Pc.point y) ∧ s.Seeks p (Pc.point y) := fun y hy hseeks =>
    ⟨follows_of_calm hy (by simp [Pc.point]) (by simp [Pc.point]), hseeks⟩
  cases x with
  | vanishCount live c =>
      cases leads
      rcases s.loop_cases (s.threads s.current) (.vanishCount live)
          (if live = 1 then Pc.point (.vanishReap .start)
            else ⟨vanishEnd s.current, .user Out.quiet⟩)
          (fun n => if (s.kernel.tcb (listEntry n)).state ≠ .exit
            then some (Pc.point (.vanishCount (live + 1) (.after n))) else none) c with
        ⟨c', heq⟩ | ⟨-, heq⟩ | ⟨n, pc, -, hbody, heq⟩
      · rw [heq]
        exact Or.inl (hpoint _ rfl (seeks_of_ne (by simp [Pc.point])))
      · rw [heq]
        split_ifs
        · exact Or.inl (hpoint _ rfl (seeks_of_ne (by simp [Pc.point])))
        · exact Or.inr (Or.inl rfl)
      · rw [heq]
        split_ifs at hbody
        cases hbody
        exact Or.inl (hpoint _ rfl (seeks_of_ne (by simp [Pc.point])))
  | vanishReap c =>
      cases leads
      have hcursor := (h.code s.current).peer
      rw [code] at hcursor
      rcases loop_class .vanishReap ⟨vanishExit, .vanishParent⟩
          (fun n => if listEntry n ≠ s.current then some ⟨vanishFree n, .vanishReap (.after n)⟩
            else none) h.kernel.links (h.threads s.current) hcursor with
        ⟨c', heq, -⟩ | heq | ⟨n, pc, hn, hbody, heq⟩
      · rw [heq]
        exact Or.inl (hpoint _ rfl (seeks_of_ne (by simp [Pc.point])))
      · rw [heq]
        exact Or.inl ⟨follows_of_calm rfl (by simp [vanishExit, Act.calm]) (by simp [vanishExit]),
          seeks_of_ne (by simp)⟩
      · -- the list has no other thread
        have hself := alone _ (Kernel.eq_peerThreadsNode (hcursor n hn)).2
        rw [if_neg (not_not.mpr hself)] at hbody
        cases hbody
  | vanishParent =>
      simp only [branch, testParent, parent] at leads
      split_ifs at leads
      cases leads
      refine Or.inl (hpoint _ rfl fun cur n hcur hn => ?_)
      cases hcur
      exact h.kernel.threads p n (Or.inl hn)
  | findInit => cases calm
  | findWaiter c =>
      cases leads
      rcases loop_class .findWaiter ⟨vanishEnd s.current, .user Out.quiet⟩
          (fun n => if (s.kernel.tcb (listEntry n)).state = .waiting
            then some ⟨vanishWake (listEntry n) ++ vanishEnd s.current, .user Out.quiet⟩
            else none) h.kernel.links (names_listInit _ _) (fun n hn => seeks c n rfl hn) with
        ⟨c', heq, hc'⟩ | heq | ⟨n, pc, hn, hbody, heq⟩
      · rw [heq]
        refine Or.inl (hpoint _ rfl fun cur n hcur hn => ?_)
        cases hcur
        exact hc' n hn
      · rw [heq]
        exact Or.inr (Or.inl rfl)
      · rw [heq]
        split_ifs at hbody with hwaiting
        cases hbody
        exact Or.inr (Or.inr ⟨_, rfl, (Kernel.eq_peerThreadsNode (seeks c n rfl hn)).2, hwaiting⟩)
  | _ => cases inside

end Preempt

/-! ## The invariant -/

namespace Preempt

/-- **Where `c` is with its wake-up**, and the thread that it holds between the two queues. -/
inductive Wakes (c : Nat) (s : Preempt) (blk : List Nat) : List Nat → Prop
  /-- Nobody is being woken. -/
  | calm (code : (s.pc c).Calm) : Wakes c s blk []
  /-- A waiting thread was found. -/
  | found {w i : Nat} (code : s.pc c = wakeCode c w i) (before : i ≤ 1) (mem : w ∈ blk)
      (waiting : (s.kernel.tcb w).state = .waiting) : Wakes c s blk []
  /-- It has left `blocked_queue`; from statement 5 on it is runnable. -/
  | holds {w i : Nat} (code : s.pc c = wakeCode c w i) (after : 2 ≤ i) (before : i ≤ 7)
      (live : (s.kernel.tcb w).state ≠ .exit)
      (woken : 5 ≤ i → (s.kernel.tcb w).state ≠ .waiting) : Wakes c s blk [w]
  /-- It is in `runnable_queue`, or there was none. -/
  | ends {w i : Nat} (code : s.pc c = wakeCode c w i) (after : 8 ≤ i) (before : i ≤ 11) :
      Wakes c s blk []

/-- **The places of the threads**: the two queues, the thread `hand` that is being woken, and the
threads `ended` that have stopped for good. -/
structure Held (c p : Nat) (s : Preempt) (hand ended run blk : List Nat) : Prop where
  /-- The wake-up. -/
  wakes : s.Wakes c blk hand
  /-- The queues. -/
  queued : s.kernel.Queued (s.current :: (hand ++ ended)) run blk
  /-- No thread in a queue has exited. -/
  live : ∀ t ∈ run ++ blk, (s.kernel.tcb t).state ≠ .exit
  /-- A waiting thread of `p` is blocked, or about to be. -/
  waits : ∀ t, (s.kernel.tcb t).pcb = p → (s.kernel.tcb t).state = .waiting →
    t = s.current ∨ t ∈ hand ∨ t ∈ blk
  /-- Nobody's process was freed but that of the threads that have stopped. -/
  safe : ∀ t ∈ s.current :: (hand ++ (run ++ blk)), s.Keeps t

end Preempt

/-- The thread `c` is the only one of its process, a child of the living process `p`. -/
structure Kernel.OnlyChild (k : Kernel) (c p : Nat) : Prop where
  /-- No other thread belongs to the process. -/
  alone : ∀ t, (k.tcb t).pcb = (k.tcb c).pcb → t = c
  /-- Its parent. -/
  parent : (k.pcb (k.tcb c).pcb).parent = some p
  /-- The parent is another process. -/
  other : (k.tcb c).pcb ≠ p
  /-- The parent has not exited. -/
  living : (k.pcb p).state ≠ .exit
  /-- Thread 1 is nobody's child. -/
  idle : c ≠ 1

/-- Only the processes of the threads, the parents and the state of `p` matter. -/
theorem Kernel.OnlyChild.congr {k k' : Kernel} {c p : Nat} (h : k.OnlyChild c p)
    (owner : ∀ t, (k'.tcb t).pcb = (k.tcb t).pcb)
    (parent : ∀ q, (k'.pcb q).parent = (k.pcb q).parent)
    (state : (k'.pcb p).state = (k.pcb p).state) : k'.OnlyChild c p where
  alone t ht := h.alone t (by rwa [owner, owner] at ht)
  parent := by
    rw [owner, parent]
    exact h.parent
  other := by
    rw [owner]
    exact h.other
  living := by
    rw [state]
    exact h.living
  idle := h.idle

namespace Preempt

/-- **The invariant**: the single thread `c` of a child of `p` may vanish, the other threads do not
touch the queues but by calls of `schedule`. -/
structure Orderly (c p : Nat) (s : Preempt) : Prop where
  /-- The lists are apart. -/
  apart : s.Separated
  /-- The processes. -/
  child : s.kernel.OnlyChild c p
  /-- The code of the other threads. -/
  code : ∀ t, t ≠ c → (s.pc t).Calm ∧ (s.pc t).next.inVanish = false
  /-- The loop variable of `c`. -/
  seeks : s.Seeks p (s.pc c)
  /-- A PCB is freed after its page directory. -/
  reaps : ∀ t, (s.pc t).ReapsInOrder s.freedPd
  /-- Only `c` exits. -/
  exits : (s.kernel.tcb s.current).state = .exit → s.current = c
  /-- The places of the threads. -/
  held : ∃ hand ended run blk, s.Held c p hand ended run blk

/-- **The end**: a thread that runs after it has exited is about to stop. -/
def Stopping (c : Nat) (s : Preempt) : Prop :=
  (s.kernel.tcb s.current).state = .exit → ∃ w i, 10 ≤ i ∧ i ≤ 11 ∧ s.pc c = wakeCode c w i

variable {s s' : Preempt} {c p : Nat} {hand ended run blk : List Nat}

/-- **The invariant implies the property.** -/
theorem Orderly.keepsProcesses (h : s.Orderly c p) : s.KeepsProcesses := by
  obtain ⟨hand, ended, run, blk, held⟩ := h.held
  intro t ht
  apply held.safe
  rcases ht with hcur | hrun | hblk
  · exact List.mem_cons.mpr (Or.inl hcur)
  · rw [held.queued.members_runnable] at hrun
    exact List.mem_cons_of_mem _ (List.mem_append_right _ (List.mem_append_left _ hrun))
  · rw [held.queued.members_blocked] at hblk
    exact List.mem_cons_of_mem _ (List.mem_append_right _ (List.mem_append_right _ hblk))

/-! ## Calls of `schedule` -/

/-- **`schedule` moves the threads**, and stops the current one if it has exited. -/
theorem Held.schedule {tid : Int} (h : s.Held c p hand ended run blk)
    (hs : s.schedule tid = some s') :
    ∃ ended' run' blk', s'.Held c p hand ended' run' blk' ∧
      (s'.current ∈ run ++ blk ∨ s'.current = s.current ∧ s.current = 1) := by
  obtain ⟨hk, hpc, -, hfreedPd, -⟩ := schedule_spec hs
  have hswitched := Kernel.switched_schedule hk
  obtain ⟨out', run', blk', heffect, hqueued, -⟩ := h.queued.schedule hk
  have hexit : ∀ t, (s'.kernel.tcb t).state = .exit ↔ (s.kernel.tcb t).state = .exit :=
    hswitched.state_iff rfl (by decide)
  have hwaiting : ∀ t, (s'.kernel.tcb t).state = .waiting ↔ (s.kernel.tcb t).state = .waiting :=
    hswitched.state_iff rfl (by decide)
  have hkept : ∀ t, (s.kernel.tcb t).state = .waiting → t ∈ blk → t ∈ blk' := by
    intro t ht hmem
    apply heffect.mem_blk hmem
    apply Kernel.not_sleeper
    rw [ht]
    decide
  obtain ⟨ended', hperm⟩ : ∃ ended', (hand ++ ended').Perm out' := by
    rcases heffect.hand_cases with rfl | rfl
    · exact ⟨ended, List.Perm.refl _⟩
    · exact ⟨s.current :: ended, List.perm_middle⟩
  refine ⟨ended', run', blk', ⟨?_, hqueued.reorder (hperm.cons _), fun t ht => ?_,
    fun t howner ht => ?_, fun t ht => ?_⟩, heffect.next_cases⟩
  · cases h.wakes with
    | calm code =>
        apply Wakes.calm
        rw [hpc]
        exact code
    | found code before mem waiting =>
        exact .found (by rw [hpc, code]) before (hkept _ waiting mem) ((hwaiting _).mpr waiting)
    | holds code after before live woken =>
        exact .holds (by rw [hpc, code]) after before (mt (hexit _).mp live)
          fun hi => mt (hwaiting _).mp (woken hi)
    | ends code after before => exact .ends (by rw [hpc, code]) after before
  · apply mt (hexit t).mp
    rcases heffect.of_mem_queues ht with hmem | ⟨rfl, hlive⟩
    · exact h.live t hmem
    · exact hlive
  · rw [hswitched.owner] at howner
    have hold := (hwaiting t).mp ht
    rcases h.waits t howner hold with rfl | hmem | hmem
    · have hsuspended : (s.kernel.tcb s.kernel.currentThread).state.suspended = true := by
        rw [show s.kernel.currentThread = s.current from rfl, hold]
        rfl
      rcases heffect.suspended hsuspended with heq | hmem
      · exact Or.inl heq
      · exact Or.inr (Or.inr hmem)
    · exact Or.inr (Or.inl hmem)
    · exact Or.inr (Or.inr (hkept t hold hmem))
  · have hold : t ∈ s.current :: (hand ++ (run ++ blk)) := by
      rcases List.mem_cons.mp ht with rfl | hmem
      · rcases heffect.next_cases with hnext | ⟨hnext, -⟩
        · exact List.mem_cons_of_mem _ (List.mem_append_right _ hnext)
        · exact List.mem_cons.mpr (Or.inl hnext)
      · rcases List.mem_append.mp hmem with hhand | hqueue
        · exact List.mem_cons_of_mem _ (List.mem_append_left _ hhand)
        · rcases heffect.of_mem_queues hqueue with hnext | ⟨hnext, -⟩
          · exact List.mem_cons_of_mem _ (List.mem_append_right _ hnext)
          · exact List.mem_cons.mpr (Or.inl hnext)
    obtain ⟨hpcb, hpd⟩ := h.safe t hold
    exact ⟨by rwa [hswitched.owner, hswitched.freedPcb], by rwa [hswitched.owner, hfreedPd]⟩

/-- The code of the threads. -/
theorem Seeks.congr {pc : Pc} (h : s.Seeks p pc)
    (owner : ∀ t, (s'.kernel.tcb t).pcb = (s.kernel.tcb t).pcb) : s'.Seeks p pc := by
  intro cur n hcur hn
  rw [Kernel.nodeClass_congr owner]
  exact h cur n hcur hn

namespace Orderly

/-- **A call of `schedule`.** No thread runs afterwards that has exited. -/
theorem schedule {tid : Int} (h : s.Orderly c p) (hs : s.schedule tid = some s') :
    s'.Orderly c p ∧ (s'.kernel.tcb s'.current).state ≠ .exit := by
  obtain ⟨hk, hpc, -, hfreedPd, -⟩ := schedule_spec hs
  have hswitched := Kernel.switched_schedule hk
  obtain ⟨hand, ended, run, blk, held⟩ := h.held
  obtain ⟨ended', run', blk', held', hnext⟩ := held.schedule hs
  have hlive : (s'.kernel.tcb s'.current).state ≠ .exit := by
    apply mt (hswitched.state_iff rfl (by decide) _).mp
    rcases hnext with hmem | ⟨heq, hone⟩
    · exact held.live _ hmem
    · rw [heq]
      exact fun hexit => h.child.idle ((h.exits hexit).symm.trans hone)
  refine ⟨⟨h.apart.schedule hs, ?_, ?_, ?_, ?_, fun hexit => absurd hexit hlive, _, _, _, _, held'⟩,
    hlive⟩
  · exact h.child.congr hswitched.owner (fun q => by rw [hswitched.pcb]) (by rw [hswitched.pcb])
  · rw [hpc]
    exact h.code
  · rw [hpc]
    exact h.seeks.congr hswitched.owner
  · rw [hpc, hfreedPd]
    exact h.reaps

/-- **The current thread goes on** at `pc'`. -/
theorem advance (h : s.Orderly c p) {pc' : Pc} (apart : s'.Separated)
    (child : s'.kernel.OnlyChild c p) (owner : ∀ t, (s'.kernel.tcb t).pcb = (s.kernel.tcb t).pcb)
    (pc : s'.pc = (s.goto pc').pc) (freed : ∀ z, z ∈ s.freedPd → z ∈ s'.freedPd)
    (code : s.current ≠ c → pc'.Calm ∧ pc'.next.inVanish = false)
    (seeks : s.current = c → s.Seeks p pc') (reaps : pc'.ReapsInOrder s'.freedPd)
    (exits : (s'.kernel.tcb s'.current).state = .exit → s'.current = c)
    (held : ∃ hand ended run blk, s'.Held c p hand ended run blk) : s'.Orderly c p := by
  refine ⟨apart, child, fun t ht => ?_, ?_, fun t => ?_, exits, held⟩
  · rw [pc]
    by_cases hcur : t = s.current
    · subst hcur
      rw [goto_pc_self]
      exact code ht
    · rw [goto_pc_of_ne _ _ hcur]
      exact h.code t ht
  · rw [pc]
    apply Seeks.congr _ owner
    by_cases hcur : c = s.current
    · rw [hcur, goto_pc_self]
      exact seeks hcur.symm
    · rw [goto_pc_of_ne _ _ hcur]
      exact h.seeks
  · rw [pc]
    by_cases hcur : t = s.current
    · subst hcur
      rw [goto_pc_self]
      exact reaps
    · rw [goto_pc_of_ne _ _ hcur]
      exact fun z before after hz => (h.reaps t z before after hz).imp_right (freed z)

/-- It leaves a statement behind. -/
theorem advance_tail (h : s.Orderly c p) {stmt : Stmt} {rest : List Stmt} {next : Point}
    (here : s.pc s.current = ⟨stmt :: rest, next⟩) (apart : s'.Separated)
    (child : s'.kernel.OnlyChild c p) (owner : ∀ t, (s'.kernel.tcb t).pcb = (s.kernel.tcb t).pcb)
    (pc : s'.pc = (s.goto ⟨rest, next⟩).pc)
    (freed : ∀ z, z ∈ s.freedPd ∨ stmt = .act (.freeDirectory z) → z ∈ s'.freedPd)
    (exits : (s'.kernel.tcb s'.current).state = .exit → s'.current = c)
    (held : ∃ hand ended run blk, s'.Held c p hand ended run blk) : s'.Orderly c p := by
  apply h.advance apart child owner pc (fun z hz => freed z (Or.inl hz))
  · intro hne
    have hcode := h.code s.current hne
    rw [here] at hcode
    exact ⟨hcode.1.tail, hcode.2⟩
  · rintro rfl
    have hseeks := h.seeks
    rw [here] at hseeks
    exact hseeks
  · have hreaps := h.reaps s.current
    rw [here] at hreaps
    exact hreaps.tail freed
  · exact exits
  · exact held

end Orderly

/-! ## Statements that do not write -/

/-- The places do not change when only code does. -/
theorem Held.recode (h : s.Held c p hand ended run blk) (wakes : s'.Wakes c blk hand)
    (kernel : s'.kernel = s.kernel) (freedPd : s'.freedPd = s.freedPd) :
    s'.Held c p hand ended run blk := by
  have hcur : s'.current = s.current := congrArg Kernel.currentThread kernel
  refine ⟨wakes, ?_, ?_, ?_, ?_⟩
  · rw [hcur, kernel]
    exact h.queued
  · rw [kernel]
    exact h.live
  · rw [hcur, kernel]
    exact h.waits
  · intro t ht
    rw [hcur] at ht
    rw [Keeps, kernel, freedPd]
    exact h.safe t ht

/-- The wake-up does not change when `c` is elsewhere. -/
theorem Wakes.of_other (h : s.Wakes c blk hand) (pc : s'.pc c = s.pc c)
    (kernel : s'.kernel = s.kernel) : s'.Wakes c blk hand := by
  cases h with
  | calm code =>
      apply Wakes.calm
      rw [pc]
      exact code
  | found code before mem waiting =>
      exact .found (by rw [pc, code]) before mem (by rw [kernel, waiting])
  | holds code after before live woken =>
      exact .holds (by rw [pc, code]) after before (by rwa [kernel]) (by rwa [kernel])
  | ends code after before => exact .ends (by rw [pc, code]) after before

/-- **A statement that is no write** goes on with the wake-up. -/
theorem Wakes.goto_tail (h : s.Wakes c blk hand) {stmt : Stmt} {rest : List Stmt} {next : Point}
    (here : s.pc s.current = ⟨stmt :: rest, next⟩) (plain : ∀ a, stmt ≠ .act a) :
    (s.goto ⟨rest, next⟩).Wakes c blk hand := by
  by_cases hcur : c = s.current
  · subst hcur
    have hself := goto_pc_self s ⟨rest, next⟩
    cases h with
    | calm code =>
        rw [here] at code
        apply Wakes.calm
        rw [hself]
        exact code.tail
    | @found w i code before mem waiting =>
        rw [here] at code
        obtain ⟨-, htail, -⟩ := wakeCode_cases code.symm
        have hi : i ≠ 1 := by
          rintro rfl
          exact plain _ (List.cons.inj (Pc.mk.inj code).1).1
        exact .found (hself.trans htail) (by omega) mem waiting
    | @holds w i code after before live woken =>
        rw [here] at code
        obtain ⟨-, htail, -⟩ := wakeCode_cases code.symm
        have hready : i ≠ 4 := by
          rintro rfl
          exact plain _ (List.cons.inj (Pc.mk.inj code).1).1
        have hinsert : i ≠ 7 := by
          rintro rfl
          exact plain _ (List.cons.inj (Pc.mk.inj code).1).1
        exact .holds (hself.trans htail) (by omega) (by omega) live fun hi => woken (by omega)
    | @ends w i code after before =>
        rw [here] at code
        obtain ⟨-, htail, -⟩ := wakeCode_cases code.symm
        by_cases hlast : i = 11
        · subst hlast
          apply Wakes.calm
          rw [hself, htail]
          exact Pc.Calm.point rfl
        · exact .ends (hself.trans htail) (by omega) (by omega)
  · exact h.of_other (goto_pc_of_ne _ _ hcur) rfl

/-- **A mutex or a call of `schedule`**: the thread goes on. -/
theorem Orderly.goto_tail (h : s.Orderly c p) {stmt : Stmt} {rest : List Stmt} {next : Point}
    (here : s.pc s.current = ⟨stmt :: rest, next⟩) (plain : ∀ a, stmt ≠ .act a) :
    (s.goto ⟨rest, next⟩).Orderly c p := by
  obtain ⟨hand, ended, run, blk, held⟩ := h.held
  refine h.advance_tail here (h.apart.goto_tail here) h.child (fun _ => rfl) rfl ?_ h.exits
    ⟨_, _, _, _, held.recode (held.wakes.goto_tail here plain) rfl rfl⟩
  rintro z (hz | hz)
  · exact hz
  · exact absurd hz (plain _)

/-- The owners of mutexes and user memory do not matter. -/
theorem Orderly.same (h : s.Orderly c p) (o : Lock → Option Nat) (w : Nat → Nat → Int)
    (mp : Nat → Nat → Bool) : Orderly c p { s with owner := o, word := w, mapped := mp } := by
  obtain ⟨hand, ended, run, blk, held⟩ := h.held
  refine ⟨⟨h.apart.kernel, h.apart.threads, h.apart.code⟩, h.child, h.code, h.seeks, h.reaps,
    h.exits, hand, ended, run, blk, held.recode (held.wakes.of_other rfl rfl) rfl rfl⟩

/-- The timer counts. -/
theorem Orderly.count (h : s.Orderly c p) (n : Nat) :
    (s.withKernel { s.kernel with numTicks := n }).Orderly c p := by
  obtain ⟨hand, ended, run, blk, held⟩ := h.held
  have hwakes : (s.withKernel { s.kernel with numTicks := n }).Wakes c blk hand := by
    cases held.wakes with
    | calm code => exact .calm code
    | found code before mem waiting => exact .found code before mem waiting
    | holds code after before live woken => exact .holds code after before live woken
    | ends code after before => exact .ends code after before
  refine ⟨h.apart.rewrite (h.apart.kernel.withCounters _ _ _ _ _ _) (fun _ => rfl) rfl
    fun _ => Or.inl rfl, ?_, h.code, h.seeks, h.reaps, h.exits, hand, ended, run, blk, ?_⟩
  · exact h.child.congr (fun _ => rfl) (fun _ => rfl) rfl
  · exact ⟨hwakes, held.queued.congr rfl rfl rfl rfl, held.live, held.waits, held.safe⟩

/-! ## Calm writes -/

/-- **A calm write leaves the two queues.** -/
theorem perform_queued (apart : s.kernel.Separated) {a : Act} (calm : a.calm = true)
    (h : s.kernel.Queued hand run blk) : (s.perform a).kernel.Queued hand run blk := by
  -- the other lists have nodes of other classes
  have relink : ∀ (m : Links NodePtr) (k' : Kernel), k'.links = m →
      (∀ t, m (threadListNode t) = s.kernel.links (threadListNode t)) →
      k'.runnableQueue = s.kernel.runnableQueue → k'.blockedQueue = s.kernel.blockedQueue →
      k'.nextTid = s.kernel.nextTid → k'.Queued hand run blk := by
    intro m k' hlinks hframe hrun hblk htid
    refine ⟨?_, ?_, h.nodup, by rw [htid]; exact h.lt⟩
    · rw [hlinks, hrun]
      apply h.runnable.frame
      intro x hx
      obtain ⟨t, -, rfl⟩ := List.mem_map.mp hx
      exact hframe t
    · rw [hlinks, hblk]
      apply h.blocked.frame
      intro x hx
      obtain ⟨t, -, rfl⟩ := List.mem_map.mp hx
      exact hframe t
  cases a with
  | deleteProcess =>
      refine relink _ _ rfl (fun t => ?_) rfl rfl rfl
      exact listDelete_frame_class apart.links (by simp)
  | unlinkChild z =>
      refine relink _ _ rfl (fun t => ?_) rfl rfl rfl
      exact listDelete_frame_class apart.links (by simp)
  | setRunnable | deleteBlocked | deleteRunnable | insertRunnable | unlinkPeer | freeThread =>
      cases calm
  | _ => exact h.congr rfl rfl rfl rfl

/-- It changes the state of the current thread only, and lets no thread exit. -/
theorem perform_calm_state (s : Preempt) {a : Act} (calm : a.calm = true) (t : Nat) :
    ((s.perform a).kernel.tcb t).state = (s.kernel.tcb t).state ∨
      t = s.current ∧ ((s.perform a).kernel.tcb t).state ≠ .exit := by
  rw [perform_state]
  cases a with
  | setOwn st =>
      dsimp only
      split_ifs with hcur
      · exact Or.inr ⟨hcur, by simpa [Act.calm] using calm⟩
      · exact Or.inl rfl
  | setRunnable | deleteBlocked | deleteRunnable | insertRunnable | unlinkPeer | freeThread =>
      cases calm
  | _ => exact Or.inl rfl

/-- The thread in the hand has not exited. -/
theorem Wakes.live (h : s.Wakes c blk hand) : ∀ t ∈ hand, (s.kernel.tcb t).state ≠ .exit := by
  cases h with
  | holds code after before live woken =>
      intro t ht
      rw [List.mem_singleton.mp ht]
      exact live
  | _ => exact fun t ht => absurd ht List.not_mem_nil

/-- **A calm write** keeps the places. It frees no process under its thread when a freed page
directory belongs to threads that have exited. -/
theorem Held.calm (h : s.Held c p hand ended run blk) (apart : s.Separated) {a : Act}
    {rest : List Stmt} {next : Point} (here : s.pc s.current = ⟨.act a :: rest, next⟩)
    (calm : a.calm = true) (live : (s.kernel.tcb s.current).state ≠ .exit)
    (stopped : ∀ z, a = .freeDirectory z →
      ∀ t, (s.kernel.tcb t).pcb = z → (s.kernel.tcb t).state = .exit)
    (order : ∀ z, a = .freeProcess z → z ∈ s.freedPd) :
    ((s.goto ⟨rest, next⟩).perform a).Held c p hand ended run blk := by
  obtain ⟨hpc, -, hcur, -⟩ := (s.goto ⟨rest, next⟩).perform_frame a
  have hnodup := h.queued.nodup
  have hstate : ∀ t, t ≠ s.current →
      (((s.goto ⟨rest, next⟩).perform a).kernel.tcb t).state = (s.kernel.tcb t).state := by
    intro t ht
    exact ((s.goto ⟨rest, next⟩).perform_calm_state calm t).resolve_right fun hc => ht hc.1
  have howner := (s.goto ⟨rest, next⟩).perform_owner a
  have hne : ∀ t ∈ hand ++ ended ++ (run ++ blk), t ≠ s.current := by
    rintro t ht rfl
    exact (List.nodup_cons.mp hnodup).1 ht
  refine ⟨?_, ?_, fun t ht => ?_, fun t htp ht => ?_, fun t ht => ?_⟩
  · by_cases hc : c = s.current
    · subst hc
      cases h.wakes with
      | calm code =>
          rw [here] at code
          apply Wakes.calm
          rw [hpc, goto_pc_self]
          exact code.tail
      | found code | holds code | ends code =>
          -- the writes of a wake-up are not calm
          rw [here] at code
          obtain ⟨-, -, hact⟩ := wakeCode_cases code.symm
          rcases hact a rfl with ⟨-, rfl⟩ | ⟨-, rfl⟩ | ⟨-, rfl⟩ | ⟨-, rfl⟩ <;> cases calm
    · have hself : ((s.goto ⟨rest, next⟩).perform a).pc c = s.pc c := by
        rw [hpc, goto_pc_of_ne _ _ hc]
      cases h.wakes with
      | calm code =>
          apply Wakes.calm
          rw [hself]
          exact code
      | found code before mem waiting =>
          refine .found (by rw [hself, code]) before mem ?_
          rw [hstate _ (hne _ (List.mem_append_right _ (List.mem_append_right _ mem)))]
          exact waiting
      | @holds w i code after before hlive woken =>
          have hsame := hstate w (hne _ (List.mem_append_left _ List.mem_cons_self))
          exact .holds (by rw [hself, code]) after before (by rwa [hsame]) (by rwa [hsame])
      | ends code after before => exact .ends (by rw [hself, code]) after before
  · have hqueued : (s.goto ⟨rest, next⟩).kernel.Queued (s.current :: (hand ++ ended)) run blk :=
      h.queued
    rw [hcur]
    exact perform_queued (s := s.goto ⟨rest, next⟩) apart.kernel calm hqueued
  · rw [hstate t (hne t (List.mem_append_right _ ht))]
    exact h.live t ht
  · rw [hcur]
    by_cases heq : t = s.current
    · exact Or.inl heq
    · rw [hstate t heq] at ht
      rw [howner] at htp
      exact h.waits t htp ht
  · rw [hcur] at ht
    -- whoever has a place has not exited
    have hlive : (s.kernel.tcb t).state ≠ .exit := by
      rcases List.mem_cons.mp ht with rfl | hmem
      · exact live
      · rcases List.mem_append.mp hmem with hhand | hqueue
        · exact h.wakes.live t hhand
        · exact h.live t hqueue
    obtain ⟨hpcb, hpd⟩ := h.safe t ht
    obtain ⟨-, hfreedPcb, hfreedPd⟩ := (s.goto ⟨rest, next⟩).perform_freed a
    rw [Keeps, howner, hfreedPcb, hfreedPd]
    refine ⟨?_, ?_⟩
    · rintro (hmem | hfree)
      · exact hpcb hmem
      · exact hpd (order _ hfree)
    · rintro (hmem | hfree)
      · exact hpd hmem
      · exact hlive (stopped _ hfree t rfl)

/-! ## The writes of a wake-up -/

/-- The current thread and the processes are the same. -/
structure SameProcesses (s s' : Preempt) : Prop where
  /-- The current thread. -/
  current : s'.current = s.current
  /-- The processes of the threads. -/
  owner : ∀ t, (s'.kernel.tcb t).pcb = (s.kernel.tcb t).pcb
  /-- The PCBs that were freed. -/
  freedPcb : s'.kernel.freedPcb = s.kernel.freedPcb
  /-- The page directories that were freed. -/
  freedPd : s'.freedPd = s.freedPd

/-- Threads that change places keep their processes. -/
theorem Held.safe_of_same {hand' run' blk' : List Nat} (h : s.Held c p hand ended run blk)
    (same : s.SameProcesses s')
    (places : ∀ t ∈ hand' ++ (run' ++ blk'), t ∈ hand ++ (run ++ blk)) :
    ∀ t ∈ s'.current :: (hand' ++ (run' ++ blk')), s'.Keeps t := by
  intro t ht
  rw [same.current] at ht
  rw [Keeps, same.owner, same.freedPcb, same.freedPd]
  apply h.safe t
  rcases List.mem_cons.mp ht with rfl | hrest
  · exact List.mem_cons_self
  · exact List.mem_cons_of_mem _ (places t hrest)

/-- **Taking the waiting thread** off `blocked_queue`. -/
theorem Held.take {w : Nat} (h : s.Held c p [] ended run blk) (mem : w ∈ blk)
    (waiting : (s.kernel.tcb w).state = .waiting) (code : s'.pc c = wakeCode c w 2)
    (kernel : s'.kernel = s.kernel.deleteBlocked (threadListNode w))
    (same : s.SameProcesses s') : s'.Held c p [w] ended run (blk.erase w) := by
  have htcb : s'.kernel.tcb = s.kernel.tcb := by
    rw [kernel]
    rfl
  obtain ⟨hqueued, -⟩ := h.queued.deleteBlocked mem
  have hqueue : ∀ t ∈ run ++ blk.erase w, t ∈ run ++ blk := fun t ht =>
    (List.mem_append.mp ht).elim (List.mem_append_left _)
      fun hblk => List.mem_append_right _ (List.mem_of_mem_erase hblk)
  refine ⟨?_, ?_, fun t ht => ?_, fun t htp ht => ?_, h.safe_of_same same fun t ht => ?_⟩
  · refine .holds code (Nat.le_refl 2) (by decide) ?_ fun hi => absurd hi (by decide)
    rw [htcb, waiting]
    decide
  · rw [same.current, kernel]
    exact hqueued.reorder (List.Perm.swap _ _ _)
  · rw [htcb]
    exact h.live t (hqueue t ht)
  · rw [htcb] at htp ht
    rw [same.current]
    rcases h.waits t htp ht with heq | hhand | hblk
    · exact Or.inl heq
    · cases hhand
    · by_cases heq : t = w
      · exact Or.inr (Or.inl (List.mem_singleton.mpr heq))
      · exact Or.inr (Or.inr ((List.mem_erase_of_ne heq).mpr hblk))
  · rcases List.mem_cons.mp ht with rfl | hmem
    · have hold : t ∈ run ++ blk := List.mem_append_right _ mem
      exact hold
    · exact hqueue t hmem

/-- **Making it runnable.** -/
theorem Held.ready {w : Nat} (h : s.Held c p [w] ended run blk) (code : s'.pc c = wakeCode c w 5)
    (kernel : s'.kernel = s.kernel.setState w .runnable) (same : s.SameProcesses s') :
    s'.Held c p [w] ended run blk := by
  have hstate : ∀ t, (s'.kernel.tcb t).state =
      if t = w then .runnable else (s.kernel.tcb t).state := by
    intro t
    rw [kernel]
    exact Kernel.setState_state _ _ _ _
  refine ⟨.holds code (by decide) (by decide) ?_ fun _ => ?_, ?_, fun t ht => ?_,
    fun t htp ht => ?_, h.safe_of_same same fun t ht => ht⟩
  · rw [hstate, if_pos rfl]
    decide
  · rw [hstate, if_pos rfl]
    decide
  · rw [same.current, kernel]
    exact h.queued.congr rfl rfl rfl rfl
  · rw [hstate]
    split_ifs
    · decide
    · exact h.live t ht
  · rw [hstate] at ht
    split_ifs at ht
    rw [same.owner] at htp
    rw [same.current]
    exact h.waits t htp ht

/-- **Putting it** in `runnable_queue`. -/
theorem Held.insert {w : Nat} (h : s.Held c p [w] ended run blk)
    (woken : (s.kernel.tcb w).state ≠ .waiting) (code : s'.pc c = wakeCode c w 8)
    (kernel : s'.kernel = s.kernel.insertRunnable (threadListNode w))
    (same : s.SameProcesses s') : s'.Held c p [] ended (run ++ [w]) blk := by
  have htcb : s'.kernel.tcb = s.kernel.tcb := by
    rw [kernel]
    rfl
  obtain ⟨hqueued, -⟩ := (h.queued.reorder (List.Perm.swap _ _ _)).insertRunnable
  have hplaces : ∀ t ∈ run ++ [w] ++ blk, t = w ∨ t ∈ run ++ blk := by
    intro t ht
    rcases List.mem_append.mp ht with hrun | hblk
    · rcases List.mem_append.mp hrun with hold | hlast
      · exact Or.inr (List.mem_append_left _ hold)
      · exact Or.inl (List.mem_singleton.mp hlast)
    · exact Or.inr (List.mem_append_right _ hblk)
  refine ⟨.ends code (Nat.le_refl 8) (by decide), ?_, fun t ht => ?_, fun t htp ht => ?_,
    h.safe_of_same same fun t ht => ?_⟩
  · rw [same.current, kernel]
    exact hqueued
  · rw [htcb]
    rcases hplaces t ht with rfl | hold
    · exact h.wakes.live t List.mem_cons_self
    · exact h.live t hold
  · rw [htcb] at htp ht
    rw [same.current]
    rcases h.waits t htp ht with heq | hhand | hblk
    · exact Or.inl heq
    · rw [List.mem_singleton.mp hhand] at ht
      exact absurd ht woken
    · exact Or.inr (Or.inr hblk)
  · rcases hplaces t ht with rfl | hold
    · exact List.mem_append_left _ List.mem_cons_self
    · exact List.mem_append_right _ hold

/-- **The exit of `c`.** -/
theorem Held.exit {w : Nat} (h : s.Held c p [] ended run blk) (mine : s.current = c)
    (other : (s.kernel.tcb c).pcb ≠ p) (code : s'.pc c = wakeCode c w 10)
    (kernel : s'.kernel = s.kernel.setState c .exit) (same : s.SameProcesses s') :
    s'.Held c p [] ended run blk := by
  have hstate : ∀ t, t ≠ c → (s'.kernel.tcb t).state = (s.kernel.tcb t).state := by
    intro t ht
    rw [kernel, Kernel.setState_state, if_neg ht]
  refine ⟨.ends code (by decide) (by decide), ?_, fun t ht => ?_, fun t htp ht => ?_,
    h.safe_of_same same fun t ht => ht⟩
  · rw [same.current, kernel]
    exact h.queued.congr rfl rfl rfl rfl
  · have hne : t ≠ c := by
      rintro rfl
      have hnodup := h.queued.nodup
      rw [mine] at hnodup
      exact (List.nodup_cons.mp hnodup).1 (List.mem_append_right _ ht)
    rw [hstate t hne]
    exact h.live t ht
  · rw [same.owner] at htp
    have hne : t ≠ c := by
      rintro rfl
      exact other htp
    rw [hstate t hne] at ht
    rw [same.current]
    exact h.waits t htp ht

/-! ## Steps -/

/-- The wake-up writes nothing that `SameProcesses` is about. -/
theorem sameProcesses_perform (s : Preempt) (pc' : Pc) {a : Act}
    (keeps : ∀ z, a ≠ .freeProcess z ∧ a ≠ .freeDirectory z) :
    s.SameProcesses ((s.goto pc').perform a) where
  current := ((s.goto pc').perform_frame a).2.2.1
  owner := (s.goto pc').perform_owner a
  freedPcb := by
    cases a with
    | freeProcess z => exact absurd rfl (keeps z).1
    | _ => rfl
  freedPd := by
    cases a with
    | freeDirectory z => exact absurd rfl (keeps z).2
    | _ => rfl

namespace Orderly

/-- A thread with a write ahead has not exited. -/
theorem live_of_act (h : s.Orderly c p) (stopping : s.Stopping c) {a : Act} {rest : List Stmt}
    {next : Point} (here : s.pc s.current = ⟨.act a :: rest, next⟩) :
    (s.kernel.tcb s.current).state ≠ .exit := by
  intro hexit
  obtain ⟨w, i, hlow, hhigh, code⟩ := stopping hexit
  rw [← h.exits hexit, here] at code
  obtain ⟨-, -, hact⟩ := wakeCode_cases code.symm
  have hi := hact a rfl
  omega

/-- **The processes** stay what they are: the process that exits is not `p`. -/
theorem child_perform (h : s.Orderly c p) {a : Act} {rest : List Stmt} {next : Point}
    (here : s.pc s.current = ⟨.act a :: rest, next⟩) :
    ((s.goto ⟨rest, next⟩).perform a).kernel.OnlyChild c p := by
  have hprocess := (s.goto ⟨rest, next⟩).perform_process a
  refine h.child.congr ((s.goto ⟨rest, next⟩).perform_owner a) (fun q => (hprocess q).1) ?_
  refine (hprocess p).2.2.resolve_right ?_
  rintro ⟨rfl, hp⟩
  by_cases hcur : s.current = c
  · rw [← hcur] at h
    exact h.child.other hp.symm
  · have htidy := h.apart.code s.current
    have hcode := (h.code s.current hcur).2
    rw [here] at htidy hcode
    have hnext : next = .vanishParent := htidy.exit List.mem_cons_self
    rw [hnext] at hcode
    cases hcode

/-- **A write.** -/
theorem act (h : s.Orderly c p) (stopping : s.Stopping c) {a : Act} {rest : List Stmt}
    {next : Point} (here : s.pc s.current = ⟨.act a :: rest, next⟩)
    (stopped : ∀ z, a = .freeDirectory z →
      ∀ t, (s.kernel.tcb t).pcb = z → (s.kernel.tcb t).state = .exit) :
    ((s.goto ⟨rest, next⟩).perform a).Orderly c p ∧
      ((s.goto ⟨rest, next⟩).perform a).Stopping c := by
  have hlive := h.live_of_act stopping here
  obtain ⟨hpc, -, hcur, -⟩ := (s.goto ⟨rest, next⟩).perform_frame a
  obtain ⟨-, -, hfreedPd⟩ := (s.goto ⟨rest, next⟩).perform_freed a
  have hself := goto_pc_self s ⟨rest, next⟩
  have hapart : ((s.goto ⟨rest, next⟩).perform a).Separated := by
    apply (h.apart.goto_tail here).perform
    rintro n rfl
    have htidy := h.apart.code s.current
    rw [here] at htidy
    exact htidy.insert n List.mem_cons_self
  have hnext := h.advance_tail here hapart (h.child_perform here)
    ((s.goto ⟨rest, next⟩).perform_owner a) hpc fun z hz => (hfreedPd z).mpr
      (hz.imp_right fun heq => Stmt.act.inj heq)
  obtain ⟨hand, ended, run, blk, held⟩ := h.held
  -- a write after which the current thread is as alive as before
  have alive : (((s.goto ⟨rest, next⟩).perform a).kernel.tcb s.current).state ≠ .exit →
      (∃ hand ended run blk,
        ((s.goto ⟨rest, next⟩).perform a).Held c p hand ended run blk) →
      ((s.goto ⟨rest, next⟩).perform a).Orderly c p ∧
        ((s.goto ⟨rest, next⟩).perform a).Stopping c := by
    intro hstate hheld
    rw [Stopping, hcur]
    exact ⟨hnext (fun hexit => absurd hexit (by rw [hcur]; exact hstate)) hheld,
      fun hexit => absurd hexit hstate⟩
  have calm : a.calm = true → ((s.goto ⟨rest, next⟩).perform a).Orderly c p ∧
      ((s.goto ⟨rest, next⟩).perform a).Stopping c := by
    intro hcalm
    apply alive
    · rcases (s.goto ⟨rest, next⟩).perform_calm_state hcalm s.current with heq | ⟨-, hne⟩
      · rw [heq]
        exact hlive
      · exact hne
    · refine ⟨_, _, _, _, held.calm h.apart here hcalm hlive stopped ?_⟩
      rintro z rfl
      have hreaps := h.reaps s.current
      rw [here] at hreaps
      exact hreaps.head
  by_cases mine : s.current = c
  · subst mine
    cases held.wakes with
    | calm code =>
        rw [here] at code
        exact calm (code.todo a List.mem_cons_self)
    | @found w i code before mem waiting =>
        rw [here] at code
        obtain ⟨-, htail, hact⟩ := wakeCode_cases code.symm
        obtain ⟨rfl, rfl⟩ : i = 1 ∧ a = .deleteBlocked (threadListNode w) := by
          rcases hact a rfl with hi | hi | hi | hi
          · exact hi
          all_goals omega
        refine alive hlive ⟨_, _, _, _, held.take mem waiting (hself.trans htail) rfl ?_⟩
        exact s.sameProcesses_perform _ (by simp)
    | @holds w i code after before live woken =>
        rw [here] at code
        obtain ⟨-, htail, hact⟩ := wakeCode_cases code.symm
        rcases hact a rfl with ⟨hi, -⟩ | ⟨rfl, rfl⟩ | ⟨rfl, rfl⟩ | ⟨hi, -⟩
        · omega
        · refine alive ?_ ⟨_, _, _, _, held.ready (hself.trans htail) rfl
            (s.sameProcesses_perform _ (by simp))⟩
          rw [perform_state]
          dsimp only
          split_ifs
          · decide
          · exact hlive
        · exact alive hlive ⟨_, _, _, _, held.insert (woken (by decide)) (hself.trans htail) rfl
            (s.sameProcesses_perform _ (by simp))⟩
        · omega
    | @ends w i code after before =>
        rw [here] at code
        obtain ⟨-, htail, hact⟩ := wakeCode_cases code.symm
        obtain ⟨rfl, rfl⟩ : i = 9 ∧ a = .setOwn .exit := by
          rcases hact a rfl with hi | hi | hi | hi
          · omega
          · omega
          · omega
          · exact hi
        have hsame := s.sameProcesses_perform (a := .setOwn .exit) ⟨rest, next⟩ (by simp)
        refine ⟨hnext (fun _ => rfl) ⟨[], ended, run, blk, ?_⟩, fun _ => ?_⟩
        · exact held.exit rfl h.child.other (hself.trans htail) rfl hsame
        · exact ⟨w, 10, Nat.le_refl 10, by decide, hself.trans htail⟩
  · have hcode := (h.code s.current mine).1
    rw [here] at hcode
    exact calm (hcode.todo a List.mem_cons_self)

end Orderly

end Preempt

/-! ## Tests and calls -/

/-- The end of `sys_vanish` consists of statements. -/
theorem wakeCode_todo_ne {c w i : Nat} (h : i ≤ 11) : (wakeCode c w i).todo ≠ [] := by
  intro hnil
  have hlength : (wakeCode c w i).todo.length = 12 - i := List.length_drop
  rw [hnil, List.length_nil] at hlength
  omega

namespace Preempt

variable {s s' : Preempt} {c p : Nat} {hand ended run blk : List Nat}

/-- Between two pieces of code nobody is being woken. -/
theorem Wakes.calm_of_nil (h : s.Wakes c blk hand) (done : (s.pc c).todo = []) :
    hand = [] ∧ (s.pc c).Calm := by
  cases h with
  | calm code => exact ⟨rfl, code⟩
  | found code before =>
      rw [code] at done
      exact absurd done (wakeCode_todo_ne (by omega))
  | holds code after before =>
      rw [code] at done
      exact absurd done (wakeCode_todo_ne (by omega))
  | ends code after before =>
      rw [code] at done
      exact absurd done (wakeCode_todo_ne before)

namespace Orderly

/-- A thread between two pieces of code has not exited. -/
theorem live_of_nil (h : s.Orderly c p) (stopping : s.Stopping c)
    (done : (s.pc s.current).todo = []) : (s.kernel.tcb s.current).state ≠ .exit := by
  intro hexit
  obtain ⟨w, i, -, hhigh, code⟩ := stopping hexit
  rw [h.exits hexit, code] at done
  exact wakeCode_todo_ne hhigh done

/-- **A test by `c`.** -/
theorem test_self (h : s.Orderly c p) (mine : s.current = c) {x : Point} {pc' : Pc}
    (here : s.pc s.current = ⟨[], x⟩) (leads : s.branch x = some pc') :
    s.Seeks p pc' ∧ pc'.ReapsInOrder s.freedPd ∧
      ∃ hand ended run blk, (s.goto pc').Held c p hand ended run blk := by
  subst mine
  obtain ⟨hand, ended, run, blk, held⟩ := h.held
  have hself := goto_pc_self s pc'
  obtain ⟨rfl, hcalm⟩ := held.wakes.calm_of_nil (by rw [here])
  rw [here] at hcalm
  have calm : Follows s.freedPd pc' → s.Seeks p pc' → s.Seeks p pc' ∧
      pc'.ReapsInOrder s.freedPd ∧
        ∃ hand ended run blk, (s.goto pc').Held s.current p hand ended run blk := by
    rintro ⟨hcode, hreaps⟩ hseeks
    refine ⟨hseeks, hreaps, _, _, _, _, held.recode (.calm ?_) rfl rfl⟩
    rw [hself]
    exact hcode
  have quiet : ∀ w i, s.Seeks p (wakeCode s.current w i) ∧
      (wakeCode s.current w i).ReapsInOrder s.freedPd := fun w i =>
    ⟨seeks_of_ne (by simp [wakeCode]), .of_not_mem (wakeCode_frees s.current w i)⟩
  by_cases inside : x.inVanish = true
  · have hseeks := h.seeks
    rw [here] at hseeks
    rcases branch_vanish h.apart here leads inside hcalm.next h.child.alone h.child.parent
      h.child.living hseeks with ⟨hfollows, hpc⟩ | rfl | ⟨w, rfl, hown, hwaiting⟩
    · exact calm hfollows hpc
    · obtain ⟨hpc, hreaps⟩ := quiet 0 9
      exact ⟨hpc, hreaps, _, _, _, _,
        held.recode (.ends hself (by decide) (by decide)) rfl rfl⟩
    · obtain ⟨hpc, hreaps⟩ := quiet w 0
      -- the thread that was found is blocked
      have hmem : w ∈ blk := by
        rcases held.waits w hown hwaiting with rfl | hhand | hblk
        · exact absurd hown h.child.other
        · exact absurd hhand List.not_mem_nil
        · exact hblk
      exact ⟨hpc, hreaps, _, _, _, _,
        held.recode (.found hself (by decide) hmem hwaiting) rfl rfl⟩
  · have outside : x.inVanish = false := Bool.eq_false_iff.mpr inside
    apply calm (branch_calm leads hcalm.next outside)
    intro cur n hcur
    have hnext := branch_inVanish leads outside
    rw [hcur] at hnext
    cases hnext

/-- **A test.** -/
theorem test (h : s.Orderly c p) {x : Point} {pc' : Pc} (here : s.pc s.current = ⟨[], x⟩)
    (leads : s.branch x = some pc') : (s.goto pc').Orderly c p := by
  have hapart := h.apart.goto (h.apart.branch leads here)
  by_cases mine : s.current = c
  · obtain ⟨hseeks, hreaps, hheld⟩ := h.test_self mine here leads
    exact h.advance hapart h.child (fun _ => rfl) rfl (fun _ hz => hz) (fun hne => absurd mine hne)
      (fun _ => hseeks) hreaps h.exits hheld
  · obtain ⟨hcalm, hout⟩ := h.code s.current mine
    rw [here] at hcalm hout
    obtain ⟨hcode, hreaps⟩ := branch_calm leads hcalm.next hout
    obtain ⟨hand, ended, run, blk, held⟩ := h.held
    have hwakes := held.wakes.of_other (goto_pc_of_ne s pc' (Ne.symm mine)) rfl
    exact h.advance hapart h.child (fun _ => rfl) rfl (fun _ hz => hz)
      (fun _ => ⟨hcode, branch_inVanish leads hout⟩) (fun heq => absurd heq mine) hreaps h.exits
      ⟨_, _, _, _, held.recode hwakes rfl rfl⟩

/-- **A call begins.** -/
theorem enter (h : s.Orderly c p) {e : Entry} (user : (s.pc s.current).inUser = true)
    (vanishes : e = .vanish → s.current = c) (other : ∀ tid, e ≠ .makeRunnable tid) :
    (s.goto (e.pc s.current)).Orderly c p := by
  obtain ⟨hcalm, hfrees⟩ := Entry.calm s.current other
  obtain ⟨out, hpoint⟩ := Pc.eq_point_of_inUser user
  obtain ⟨hand, ended, run, blk, held⟩ := h.held
  have hwakes : (s.goto (e.pc s.current)).Wakes c blk hand := by
    by_cases mine : s.current = c
    · subst mine
      obtain ⟨rfl, -⟩ := held.wakes.calm_of_nil (by rw [hpoint]; rfl)
      apply Wakes.calm
      rw [goto_pc_self]
      exact hcalm
    · exact held.wakes.of_other (goto_pc_of_ne _ _ (Ne.symm mine)) rfl
  apply h.advance (h.apart.goto (tidy_entry _ _ _)) h.child (fun _ => rfl) rfl (fun _ hz => hz)
  · intro hne
    refine ⟨hcalm, ?_⟩
    cases e with
    | vanish => exact absurd (vanishes rfl) hne
    | _ => rfl
  · intro _ cur n hcur
    cases e <;> cases hcur
  · exact .of_not_mem hfrees
  · exact h.exits
  · exact ⟨_, _, _, _, held.recode hwakes rfl rfl⟩

end Orderly

end Preempt

/-! ## Every step -/

namespace Preempt

variable {s s' : Preempt} {m : Move} {c p : Nat}

/-- **The end goes on**: after the assignment of `THREAD_EXIT` a mutex is dropped. -/
theorem Stopping.goto_tail (stopping : s.Stopping c) (h : s.Orderly c p) {stmt : Stmt}
    {rest : List Stmt} {next : Point} (here : s.pc s.current = ⟨stmt :: rest, next⟩)
    (stays : ∀ tid, stmt ≠ .schedule tid) : (s.goto ⟨rest, next⟩).Stopping c := by
  intro hexit
  obtain ⟨w, i, hlow, hhigh, code⟩ := stopping hexit
  have mine := h.exits hexit
  rw [mine] at here
  rw [here] at code
  obtain ⟨-, htail, -⟩ := wakeCode_cases code.symm
  have hlast : i ≠ 11 := by
    rintro rfl
    exact stays _ (List.cons.inj (Pc.mk.inj code).1).1
  refine ⟨w, i + 1, by omega, by omega, ?_⟩
  have hself := goto_pc_self s ⟨rest, next⟩
  rw [mine] at hself
  exact hself.trans htail

/-- **Every step keeps the invariant** when the child is reaped only after it has ended. -/
theorem Orderly.step (h : s.Orderly c p) (stopping : s.Stopping c) (hs : s.Step m s')
    (alone : s.VanishesAlone c m) (ended : s.ReapsEnded m) : s'.Orderly c p ∧ s'.Stopping c := by
  have switched : ∀ {u : Preempt} {tid : Int}, u.Orderly c p → u.schedule tid = some s' →
      s'.Orderly c p ∧ s'.Stopping c := by
    intro u tid hu hsched
    obtain ⟨horderly, hlive⟩ := hu.schedule hsched
    exact ⟨horderly, fun hexit => absurd hexit hlive⟩
  -- a thread at a test or in user mode is alive
  have live : (s.pc s.current).todo = [] → ∀ {u : Preempt}, u.kernel = s.kernel → u.Stopping c := by
    intro hdone u hkernel hexit
    rw [current, hkernel] at hexit
    exact absurd hexit (h.live_of_nil stopping hdone)
  have user : s.atUser → (s.pc s.current).todo = [] := by
    rintro ⟨huser, -⟩
    obtain ⟨out, hpoint⟩ := Pc.eq_point_of_inUser huser
    rw [hpoint]
    rfl
  cases hs.happens with
  | tick => exact ⟨h.count _, stopping⟩
  | timer switch => exact switched (h.count _) switch
  | preempt switch => exact switched h switch
  | contend _ _ _ switch => exact switched h switch
  | lock _ here _ =>
      exact ⟨(h.goto_tail here (by simp)).same _ _ _, stopping.goto_tail h here (by simp)⟩
  | unlock _ here =>
      exact ⟨(h.goto_tail here (by simp)).same _ _ _, stopping.goto_tail h here (by simp)⟩
  | schedule _ here switch => exact switched (h.goto_tail here (by simp)) switch
  | act _ here =>
      apply h.act stopping here
      rintro z rfl
      exact ended rfl z _ _ here
  | test _ here leads => exact ⟨h.test here leads, live (by rw [here]) rfl⟩
  | enter atUser =>
      refine ⟨h.enter atUser.1 (fun heq => alone.1 (by rw [heq])) fun tid heq => ?_,
        live (user atUser) rfl⟩
      exact alone.2 tid (by rw [heq])
  | store atUser => exact ⟨h.same _ _ _, live (user atUser) rfl⟩
  | remap atUser => exact ⟨h.same _ _ _, live (user atUser) rfl⟩

end Preempt

/-! ## The start -/

/-- Thread 1 is the one of process 1. -/
theorem Kernel.Reaches.idle_process {as : List Action} {k : Kernel} (reach : Kernel.Reaches as k) :
    (k.tcb 1).pcb = 1 := by
  obtain ⟨m, ⟨href, -⟩, hone, -⟩ := reach.machine_invariant
    (I := fun _ m => (m.tcb 1).pcb = 1 ∧ 1 < m.nextTid) ⟨rfl, by decide⟩ (by
      rintro bs u x m m' hm - hs - ⟨hone, hlt⟩
      have heffect := Machine.thread_effect hm.2 hs
      exact ⟨(heffect.pcb 1 (Or.inl (Nat.ne_of_lt hlt))).trans hone,
        Nat.lt_of_lt_of_le hlt heffect.tid⟩)
  rw [href.tcb]
  exact hone

/-- The single thread of a child that was not freed, at the start. -/
theorem Kernel.onlyChild_of_reaches {as : List Action} {k : Kernel} (reach : Kernel.Reaches as k)
    {c p : Nat} (alone : k.Alone c) (parent : (k.pcb (k.tcb c).pcb).parent = some p)
    (living : (k.pcb p).state ≠ .exit) (kept : (k.tcb c).pcb ∉ k.freedPcb) : k.OnlyChild c p := by
  obtain ⟨m, ⟨href, wf⟩, -⟩ := reach.manned
  have hparent : (m.proc (k.tcb c).pcb).parent = some p := (href.pcb _).parent.symm.trans parent
  -- `idle` and `init` have no parent
  have hforked : 3 ≤ (k.tcb c).pcb := by
    by_contra hlt
    rw [wf.kin.roots _ (Nat.lt_of_not_le hlt)] at hparent
    cases hparent
  refine ⟨fun t ht => alone.eq_of_owner reach ht, parent, ?_, living, ?_⟩
  · have hcreated : (k.tcb c).pcb < m.nextPid := by
      rw [href.tcb]
      exact wf.chains.owner_lt c
    rw [href.freedPcb] at kept
    obtain ⟨q, hq⟩ := wf.kin.home _ hforked hcreated kept
    obtain ⟨hq', -⟩ := wf.kin.child q _ hq
    rw [hparent] at hq'
    obtain rfl := Option.some.inj hq'
    exact Nat.ne_of_gt (wf.kin.older _ _ hq)
  · rintro rfl
    rw [reach.idle_process] at hforked
    exact absurd hforked (by decide)

namespace Preempt

/-- **At the start** the single thread of a child is in user mode or inside `sys_wait`, like all
others. -/
theorem orderly_start {as : List Action} {k : Kernel} (reach : Kernel.Reaches as k) {c p : Nat}
    (alone : k.Alone c) (parent : (k.pcb (k.tcb c).pcb).parent = some p)
    (living : (k.pcb p).state ≠ .exit) {word : Nat → Nat → Int} {mapped : Nat → Nat → Bool}
    (sound : (start k word mapped).KeepsProcesses) :
    (start k word mapped).Orderly c p ∧ (start k word mapped).Stopping c := by
  obtain ⟨m, ⟨href, wf⟩, -⟩ := reach.manned
  have hlive : ∀ t ∈ m.places, (k.tcb t).state ≠ .exit := by
    intro t ht
    rw [href.tcb]
    exact wf.placed_live ht
  have hcurrent : (k.tcb k.currentThread).state ≠ .exit := by
    rw [href.current]
    exact hlive _ m.current_placed
  have hchild := Kernel.onlyChild_of_reaches reach alone parent living (sound c alone.place).1
  have hcode : ∀ r : Resume, r.pc.Calm ∧ r.pc.next.inVanish = false ∧ r.pc.todo = [] := by
    intro r
    cases r <;> exact ⟨Pc.Calm.point rfl, rfl, rfl⟩
  have hheld : (start k word mapped).Held c p [] [] m.run m.blk := by
    refine ⟨.calm (hcode _).1, ?_, fun t ht => hlive t (List.mem_cons_of_mem _ ht),
      fun t _ hwaiting => Or.inr (Or.inr ?_), fun t ht => sound t ?_⟩
    · show k.Queued [k.currentThread] m.run m.blk
      rw [href.current]
      exact href.queued wf.queues
    · apply wf.mem_blk_of_waiting
      rw [← href.tcb]
      exact hwaiting
    · apply (href.inPlace_iff wf t).mpr
      have hcur : (start k word mapped).current = m.current := href.current
      rwa [hcur] at ht
  refine ⟨⟨separated_start reach.separated word mapped, hchild, fun t _ => ?_, ?_, fun t => ?_,
    fun hexit => absurd hexit hcurrent, _, _, _, _, hheld⟩, fun hexit => absurd hexit hcurrent⟩
  · exact ⟨(hcode _).1, (hcode _).2.1⟩
  · intro cur n hcur
    have hout := (hcode (k.tcb c).resume).2.1
    have hnext : (k.tcb c).resume.pc.next = .findWaiter cur := hcur
    rw [hnext] at hout
    cases hout
  · apply Pc.ReapsInOrder.of_not_mem
    intro z hz
    have htodo : (k.tcb t).resume.pc.todo = [] := (hcode _).2.2
    have hz' : .act (.freeProcess z) ∈ (k.tcb t).resume.pc.todo := hz
    rw [htodo] at hz'
    cases hz'

/-! ## No process freed under its thread -/

/-- **A process is not freed under its last thread when it is reaped only after it has ended.** The
single thread `c` of a child of the living process `p` may vanish at any time, while all threads,
those of the parent among them, make any calls but `vanish` and `make_runnable`, in every
interleaving. If no page directory is freed before the threads of its process have assigned
`THREAD_EXIT`, then no thread that runs or is in a queue ever belongs to a freed process. -/
theorem keepsProcesses_of_reapsEnded {as : List Action} {k : Kernel} (reach : Kernel.Reaches as k)
    {c p : Nat} (alone : k.Alone c) (parent : (k.pcb (k.tcb c).pcb).parent = some p)
    (living : (k.pcb p).state ≠ .exit) {word : Nat → Nat → Int} {mapped : Nat → Nat → Bool}
    (sound : (start k word mapped).KeepsProcesses) {moves : List Move} {s : Preempt}
    (run : Run (Guarded Step fun u m => u.VanishesAlone c m ∧ u.ReapsEnded m) (start k word mapped)
      moves s) : s.KeepsProcesses := by
  have hinv : s.Orderly c p ∧ s.Stopping c := by
    apply run.invariant (orderly_start reach alone parent living sound)
    rintro u m v ⟨hu, hstopping⟩ ⟨hstep, halone, hended⟩
    exact hu.step hstopping hstep halone hended
  exact hinv.1.keepsProcesses

/-- At the start of `forked` no process is freed. -/
theorem forked_keepsProcesses : forked.KeepsProcesses := by
  have hfreed : forked.kernel.freedPcb = [] := by decide +kernel
  intro t _
  rw [Keeps, show forked.freedPd = forked.kernel.freedPcb from rfl, hfreed]
  exact ⟨List.not_mem_nil, List.not_mem_nil⟩

/-- A test that implies the conditions when thread 3 is the only one of process 3. -/
def reapedInTime (s : Preempt) (m : Move) : Bool :=
  match m with
  | .enter .vanish => s.current = 3
  | .enter (.makeRunnable _) => false
  | .run =>
      match (s.pc s.current).todo.head? with
      | some (.act (.freeDirectory z)) => z = 3 ∧ (s.kernel.tcb 3).state = .exit
      | _ => true
  | _ => true

/-- The test implies the conditions. -/
theorem conditions_of_reapedInTime {s : Preempt} {m : Move} (h : s.reapedInTime m = true)
    (only : ∀ t, (s.kernel.tcb t).pcb = 3 → t = 3) : s.VanishesAlone 3 m ∧ s.ReapsEnded m := by
  refine ⟨⟨?_, ?_⟩, ?_⟩
  · rintro rfl
    simpa [reapedInTime] using h
  · rintro tid rfl
    simp [reapedInTime] at h
  · rintro rfl z rest next here t ht
    simp only [reapedInTime, here, List.head?_cons, decide_eq_true_eq] at h
    obtain ⟨rfl, hexit⟩ := h
    rw [only t ht]
    exact hexit

/-- `init` waits, the child vanishes without an interruption and is reaped. -/
theorem keepsProcesses_of_reapsEnded_forked :
    ∃ moves s, Run Step forked moves s ∧ 3 ∈ s.kernel.freedPcb ∧ s.KeepsProcesses := by
  let moves := Move.enter (.wait 0) :: List.replicate 9 Move.run ++ [.preempt, .enter .vanish] ++
    List.replicate 28 Move.run ++ [.preempt] ++ List.replicate 6 Move.run
  have hend : ((Transition.runList (fun u m => if reapedInTime u m then step u m else none) forked
      moves).map fun u => u.kernel.freedPcb) = some [3] := by decide +kernel
  obtain ⟨s, hs, hfreed⟩ := Option.map_eq_some_iff.mp hend
  have htested : Run (Guarded Step fun u m => u.reapedInTime m = true) forked moves s :=
    Run.guarded_of_runList (fun _ _ h => h) hs
  have hrun :
      Run (Guarded Step fun u m => u.VanishesAlone 3 m ∧ u.ReapsEnded m) forked moves s := by
    apply htested.mono_of_invariant (I := fun u => ∀ t, (u.kernel.tcb t).pcb = 3 → t = 3)
    · exact forked_only Run.nil
    · rintro u m v hu ⟨hstep, -⟩ t ht
      rw [hstep.owner] at ht
      exact hu t ht
    · rintro u m v hu ⟨hstep, htest⟩
      exact ⟨hstep, conditions_of_reapedInTime htest hu⟩
  refine ⟨moves, s, htested.of_guarded, ?_, ?_⟩
  · rw [hfreed]
    exact List.mem_singleton_self 3
  · exact keepsProcesses_of_reapsEnded (p := 2)
      (Kernel.reaches_trace [.call (.fork .ok)] (by decide +kernel))
      ⟨Or.inr (Or.inl (by decide +kernel)), by decide +kernel⟩ (by decide +kernel)
      (by decide +kernel) forked_keepsProcesses hrun

/-- `init` waits; the child vanishes, and is interrupted between the wake-up of `init` and the
assignment of `THREAD_EXIT`; then `init` looks for a zombie again. -/
def interruptedVanish : List Move :=
  .enter (.wait 0) :: List.replicate 9 .run ++ [.preempt, .enter .vanish] ++
    List.replicate 25 .run ++ [.preempt, .preempt] ++ List.replicate 6 .run

/-- **A process is freed under its last thread**: the child is in `runnable_queue`, and its page
directory and its PCB are freed. -/
theorem freed_under_last_thread :
    Run Step forked interruptedVanish (forked.after interruptedVanish) ∧ forked.kernel.Alone 3 ∧
      (forked.kernel.pcb (forked.kernel.tcb 3).pcb).parent = some 2 ∧
      (forked.kernel.pcb 2).state ≠ .exit ∧ forked.KeepsProcesses ∧
      3 ∈ (forked.after interruptedVanish).kernel.members
        (forked.after interruptedVanish).kernel.runnableQueue ∧
      ¬ (forked.after interruptedVanish).KeepsProcesses := by
  have hplace : 3 ∈ (forked.after interruptedVanish).kernel.members
      (forked.after interruptedVanish).kernel.runnableQueue := by decide +kernel
  refine ⟨run_after (by decide +kernel), ⟨Or.inr (Or.inl (by decide +kernel)), by decide +kernel⟩,
    by decide +kernel, by decide +kernel, forked_keepsProcesses, hplace, fun hkeeps => ?_⟩
  have hfreed : ((forked.after interruptedVanish).kernel.tcb 3).pcb ∈
      (forked.after interruptedVanish).kernel.freedPcb := by decide +kernel
  exact (hkeeps 3 (Or.inr (Or.inl hplace))).1 hfreed

end Preempt

end Pebbles
