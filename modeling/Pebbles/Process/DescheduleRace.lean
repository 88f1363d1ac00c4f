import Pebbles.Process.PreemptedLists

/-! # `deschedule` against `make_runnable`

A thread calls `sys_deschedule(&r)`; another one of its process stores a non-zero value in `r` and
calls `sys_make_runnable` on it. `sys_deschedule` reads `r` and assigns `THREAD_BLOCKED` under
`deschedule_lock`, but `sys_make_runnable` takes this mutex after its two searches only: it gives up
when it comes between the read and the assignment, and the thread blocks afterwards. -/

namespace Pebbles

open DoublyLinked Transition

/-! ## What a step does to one thread -/

namespace Preempt

/-- **How a step moves the thread `x`.** -/
inductive Advances (s : Preempt) (m : Move) (s' : Preempt) (x : Nat) : Prop
  /-- It stays where it is. -/
  | stays (same : s'.pc x = s.pc x)
  /-- It executes a statement. -/
  | stmt {stmt : Stmt} {rest : List Stmt} {next : Point} (runs : m = .run) (current : s.current = x)
      (here : s.pc x = ⟨stmt :: rest, next⟩) (there : s'.pc x = ⟨rest, next⟩)
      (writes : ∀ a, stmt = .act a → s' = (s.goto ⟨rest, next⟩).perform a)
  /-- It executes a test. -/
  | test {next : Point} {pc' : Pc} (runs : m = .run) (current : s.current = x)
      (here : s.pc x = ⟨[], next⟩) (leads : s.branch next = some pc') (after : s' = s.goto pc')
  /-- It makes a call. -/
  | enter {e : Entry} (call : m = .enter e) (current : s.current = x)
      (user : (s.pc x).inUser = true) (there : s'.pc x = e.pc x)

variable {s s' : Preempt} {m : Move}

theorem Step.advances (hs : s.Step m s') (x : Nat) : s.Advances m s' x := by
  have other : ∀ pc : Pc, x ≠ s.current → (s.goto pc).pc x = s.pc x :=
    fun pc hx => goto_pc_of_ne _ _ hx
  cases hs.happens with
  | timer switch =>
      refine .stays ?_
      rw [(schedule_spec switch).2.1]
      rfl
  | preempt switch => exact .stays (by rw [(schedule_spec switch).2.1])
  | contend _ _ _ switch => exact .stays (by rw [(schedule_spec switch).2.1])
  | lock alive pc free =>
      by_cases hx : x = s.current
      · subst hx
        exact .stmt rfl rfl pc (goto_pc_self _ _) nofun
      · exact .stays (other _ hx)
  | unlock alive pc =>
      by_cases hx : x = s.current
      · subst hx
        exact .stmt rfl rfl pc (goto_pc_self _ _) nofun
      · exact .stays (other _ hx)
  | schedule alive pc switch =>
      have hpc := (schedule_spec switch).2.1
      by_cases hx : x = s.current
      · subst hx
        exact .stmt rfl rfl pc (by rw [hpc, goto_pc_self]) nofun
      · exact .stays (by rw [hpc, other _ hx])
  | @act a rest next alive pc =>
      have hpc := (perform_frame (s.goto ⟨rest, next⟩) a).1
      by_cases hx : x = s.current
      · subst hx
        refine .stmt rfl rfl pc (by rw [hpc, goto_pc_self]) fun a' ha => ?_
        obtain rfl := Stmt.act.inj ha
        rfl
      · exact .stays (by rw [hpc, other _ hx])
  | test alive pc leads =>
      by_cases hx : x = s.current
      · subst hx
        exact .test rfl rfl pc leads rfl
      · exact .stays (other _ hx)
  | enter user =>
      by_cases hx : x = s.current
      · subst hx
        exact .enter rfl rfl user.1 (goto_pc_self _ _)
      · exact .stays (other _ hx)
  | tick | store | remap => exact .stays rfl

/-- **A thread blocks by its own assignment.** -/
theorem Step.blocked_back (hs : s.Step m s') {t : Nat} (ht : (s'.kernel.tcb t).state = .blocked) :
    (s.kernel.tcb t).state = .blocked ∨ s.current = t ∧
      ∃ rest next, s.pc t = ⟨.act (.setOwn .blocked) :: rest, next⟩ ∧ s'.pc t = ⟨rest, next⟩ := by
  have switched : ∀ {u : Preempt} {tid : Int}, u.schedule tid = some s' →
      (u.kernel.tcb t).state = (s.kernel.tcb t).state → (s.kernel.tcb t).state = .blocked := by
    intro u tid hswitch hsame
    have hiff := (Kernel.switched_schedule (schedule_spec hswitch).1).state_iff
      (by rfl : ThreadState.blocked.ready = false) (by decide) t
    rw [← hsame]
    exact hiff.mp ht
  cases hs.happens with
  | timer switch => exact Or.inl (switched switch rfl)
  | preempt switch => exact Or.inl (switched switch rfl)
  | contend _ _ _ switch => exact Or.inl (switched switch rfl)
  | schedule _ _ switch => exact Or.inl (switched switch rfl)
  | @act a rest next alive pc =>
      rw [perform_state] at ht
      cases a with
      | setOwn st =>
          dsimp only at ht
          split_ifs at ht with hcur
          · subst ht
            obtain rfl : t = s.current := hcur
            refine Or.inr ⟨rfl, rest, next, pc, ?_⟩
            rw [(perform_frame _ _).1, goto_pc_self]
          · exact Or.inl ht
      | setRunnable w =>
          dsimp only at ht
          split_ifs at ht
          exact Or.inl ht
      | _ => exact Or.inl ht
  | _ => exact Or.inl ht

/-- **A word of user memory** changes when it is stored. -/
theorem Step.word_cases (hs : s.Step m s') (p a : Nat) : s'.word p a = s.word p a ∨
    ∃ v, m = .store a v ∧ p = s.kernel.currentPcb ∧ s'.word p a = v := by
  cases hs.happens with
  | timer switch => exact Or.inl (by rw [(schedule_spec switch).2.2.2.2.1]; rfl)
  | preempt switch => exact Or.inl (by rw [(schedule_spec switch).2.2.2.2.1])
  | contend _ _ _ switch => exact Or.inl (by rw [(schedule_spec switch).2.2.2.2.1])
  | schedule _ _ switch => exact Or.inl (by rw [(schedule_spec switch).2.2.2.2.1]; rfl)
  | act => exact Or.inl (by rw [(perform_frame _ _).2.2.2.1]; rfl)
  | @store addr v word user same written =>
      by_cases hp : p = s.kernel.currentPcb
      · by_cases ha : a = addr
        · subst hp ha
          exact Or.inr ⟨v, rfl, rfl, written⟩
        · exact Or.inl (same p a (Or.inr ha))
      · exact Or.inl (same p a (Or.inl hp))
  | _ => exact Or.inl rfl

end Preempt

/-! ## The two threads -/

/-- A move that the current thread makes in user mode. -/
def Move.byUser : Move → Bool
  | .enter _ | .store _ _ | .remap _ _ => true
  | _ => false

/-- **The race**: the preemptible kernel, with what the two threads have left to do in user mode. -/
structure Race where
  /-- The kernel. -/
  machine : Preempt
  /-- What the descheduling thread has left to do. -/
  toSleep : List Move
  /-- What the waking thread has left to do. -/
  toWake : List Move

namespace Race

/-- **The start**: thread `t` is going to call `sys_deschedule(&r)`, and another thread to store `v`
in `r` and to call `sys_make_runnable(t)`. -/
def start (t r : Nat) (v : Int) (s : Preempt) : Race :=
  ⟨s, [.enter (.deschedule r)], [.store r v, .enter (.makeRunnable t)]⟩

/-- **A step of the race** between the threads `t` and `u`: each keeps to what it has left to do,
and the other threads do not store in the word `r` of their process. -/
def step (t u r : Nat) (x : Race) (m : Move) : Option Race :=
  (x.machine.step m).bind fun s =>
    if m.byUser = false then some { x with machine := s }
    else if x.machine.current = t then
      if x.toSleep.head? = some m then some { x with machine := s, toSleep := x.toSleep.tail }
      else none
    else if x.machine.current = u then
      if x.toWake.head? = some m then some { x with machine := s, toWake := x.toWake.tail }
      else none
    else
      match m with
      | .store addr _ =>
          if addr = r ∧ x.machine.kernel.currentPcb = (x.machine.kernel.tcb t).pcb then none
          else some { x with machine := s }
      | _ => some { x with machine := s }

/-- The steps as a relation. -/
def Step (t u r : Nat) (x : Race) (m : Move) (x' : Race) : Prop := x.step t u r m = some x'

/-- **No wake-up is missed**: when the call of `sys_make_runnable` has returned, `t` is not in
`blocked_queue` in state `THREAD_BLOCKED`. -/
def Heard (t u : Nat) (x : Race) : Prop :=
  x.toWake = [] → (x.machine.pc u).inUser = true →
    ¬(t ∈ x.machine.kernel.members x.machine.kernel.blockedQueue ∧
      (x.machine.kernel.tcb t).state = .blocked)

end Race

namespace Preempt

/-- The next test of thread `u` ends its call of `sys_make_runnable` with -1: the number is bad, the
target is runnable, or it was not found in `blocked_queue`. -/
def givesUp (s : Preempt) (u : Nat) : Bool :=
  match s.pc u with
  | ⟨[], .makeTest tid⟩ => tid ≤ 0
  | ⟨[], .makeRunnable tid (.at (some n))⟩ =>
      (listEntry n : Int) = tid ∧ (s.kernel.tcb (listEntry n)).state = .runnable
  | ⟨[], .makeBlocked _ (.at none)⟩ => true
  | _ => false

/-- Thread `t` has read `*reject` as 0 and has not been woken since: it is going to assign
`THREAD_BLOCKED`, or has. -/
def goesToSleep (s : Preempt) (t : Nat) : Bool :=
  (s.kernel.tcb t).state = .blocked ∨ .act (.setOwn .blocked) ∈ (s.pc t).todo

end Preempt

namespace Race

/-- **The condition**, as a test: `sys_make_runnable` does not give up while `t` goes to sleep. -/
def inTime (t u : Nat) (x : Race) : Move → Bool
  | .run => x.machine.current = u → x.machine.givesUp u = true → x.machine.goesToSleep t = false
  | _ => true

/-- The condition. -/
def InTime (t u : Nat) (x : Race) (m : Move) : Prop := x.inTime t u m = true

/-! ## What the tests lead to -/

end Race

/-- The pointer of a call of `sys_deschedule` that has not read the word. -/
def Point.reject : Point → Option Nat
  | .descheduleTest r | .descheduleRead r => some r
  | _ => none

/-- The number of a call of `sys_make_runnable` that has not found its target. -/
def Point.target : Point → Option Int
  | .makeTest tid | .makeRunnable tid _ | .makeBlocked tid _ => some tid
  | _ => none

/-- The call has its result. -/
def Point.returns : Point → Bool
  | .user _ => true
  | _ => false

/-- **Code apart** from the two calls: it leads into neither, and does not assign
`THREAD_BLOCKED`. -/
structure Pc.Apart (pc : Pc) : Prop where
  /-- It does not lead into `sys_deschedule`. -/
  reject : pc.next.reject = none
  /-- It does not lead into `sys_make_runnable`. -/
  target : pc.next.target = none
  /-- It does not assign `THREAD_BLOCKED`. -/
  awake : .act (.setOwn .blocked) ∉ pc.todo

namespace Preempt

variable {s : Preempt} {x : Point} {pc : Pc}

/-- A round of a loop in code that is apart. -/
theorem loop_apart {l : Header NodePtr} {here : Cursor → Point} {done : Pc}
    {body : NodePtr → Option Pc} (c : Cursor) (stays : ∀ c, (Pc.point (here c)).Apart)
    (ends : done.Apart) (hits : ∀ n pc, body n = some pc → pc.Apart) :
    (s.loop l here done body c).Apart := by
  rcases s.loop_cases l here done body c with ⟨c', heq⟩ | ⟨-, heq⟩ | ⟨n, pc, -, hpc, heq⟩
  · rw [heq]
    exact stays c'
  · rw [heq]
    exact ends
  · rw [heq]
    exact hits n pc hpc

/-- **The tests of all other calls** lead to code that is apart. -/
theorem apart_of_branch (leads : s.branch x = some pc) (reject : x.reject = none)
    (target : x.target = none) : pc.Apart := by
  have point : ∀ y : Point, y.reject = none → y.target = none → (Pc.point y).Apart :=
    fun y hr ht => ⟨hr, ht, List.not_mem_nil⟩
  cases x with
  | user out => cases leads
  | descheduleTest | descheduleRead => cases reject
  | makeTest | makeRunnable | makeBlocked => cases target
  | waitScan statusPtr again c =>
      simp only [branch, scanChildren] at leads
      split at leads
      · cases leads
      · cases leads
        apply loop_apart c
        · exact fun _ => point _ rfl rfl
        · cases again
          · exact ⟨rfl, rfl, by simp [suspend]⟩
          · exact point _ rfl rfl
        · intro n pc hpc
          split_ifs at hpc <;> cases hpc <;> exact ⟨rfl, rfl, by simp [waitReap]⟩
  | vanishCount live c =>
      cases leads
      apply loop_apart c
      · exact fun _ => point _ rfl rfl
      · split_ifs
        · exact point _ rfl rfl
        · exact ⟨rfl, rfl, by simp [vanishEnd]⟩
      · intro n pc hpc
        split_ifs at hpc
        cases hpc
        exact point _ rfl rfl
  | vanishReap c =>
      cases leads
      apply loop_apart c
      · exact fun _ => point _ rfl rfl
      · exact ⟨rfl, rfl, by simp [vanishExit]⟩
      · intro n pc hpc
        split_ifs at hpc
        cases hpc
        exact ⟨rfl, rfl, by simp [vanishFree]⟩
  | vanishParent =>
      simp only [branch, testParent] at leads
      split at leads
      · cases leads
        exact point _ rfl rfl
      · split_ifs at leads <;> cases leads <;> exact point _ rfl rfl
  | findInit c | findWaiter c =>
      cases leads
      apply loop_apart c
      · exact fun _ => point _ rfl rfl
      · exact ⟨rfl, rfl, by simp [vanishEnd]⟩
      · intro n pc hpc
        split_ifs at hpc
        cases hpc
        exact ⟨rfl, rfl, by simp [vanishWake, vanishEnd]⟩
  | yieldBlocked tid c | yieldRunnable tid c =>
      cases leads
      apply loop_apart c
      · exact fun _ => point _ rfl rfl
      · exact ⟨rfl, rfl, by simp⟩
      · intro n pc hpc
        split_ifs at hpc
        cases hpc
        exact ⟨rfl, rfl, by simp⟩
  | readlineRead len =>
      cases leads
      split_ifs
      · exact point _ rfl rfl
      · exact point _ rfl rfl
  | _ =>
      simp only [branch] at leads
      split_ifs at leads <;> cases leads <;> exact ⟨rfl, rfl, by simp [Pc.value, Pc.point, suspend]⟩

/-- **The tests of `sys_deschedule`**: it goes on with the same pointer, is back, or has read 0 and
is going to block. -/
theorem reject_of_branch {r : Nat} (leads : s.branch x = some pc) (here : x.reject = some r) :
    pc.next.target = none ∧ ((pc.next.reject = some r ∧ .act (.setOwn .blocked) ∉ pc.todo) ∨
      (pc.next.returns = true ∧ .act (.setOwn .blocked) ∉ pc.todo) ∨
        s.word s.kernel.currentPcb r = 0 ∧
          pc = ⟨suspend s.current .blocked, .user (Out.value 0)⟩) := by
  cases x with
  | descheduleTest reject =>
      obtain rfl := Option.some.inj here
      simp only [branch] at leads
      split_ifs at leads
      · cases leads
        exact ⟨rfl, Or.inl ⟨rfl, by simp⟩⟩
      · cases leads
        exact ⟨rfl, Or.inr (Or.inl ⟨rfl, List.not_mem_nil⟩)⟩
  | descheduleRead reject =>
      obtain rfl := Option.some.inj here
      simp only [branch] at leads
      split_ifs at leads with hmapped hword
      · cases leads
        exact ⟨rfl, Or.inr (Or.inl ⟨rfl, by simp⟩)⟩
      · cases leads
        exact ⟨rfl, Or.inr (Or.inr ⟨not_not.mp hword, rfl⟩)⟩
  | _ => cases here

/-- **The tests of `sys_make_runnable`**: it goes on with its search, gives up, or has found its
target blocked. -/
theorem target_of_branch {u : Nat} {tid : Int} (leads : s.branch x = some pc)
    (here : s.pc u = ⟨[], x⟩) (target : x.target = some tid) :
    pc.next.reject = none ∧ .act (.setOwn .blocked) ∉ pc.todo ∧
      (pc.next.target = some tid ∨ pc.next.target = none ∧ s.givesUp u = true ∨
        ∃ w : Nat, (w : Int) = tid ∧ (s.kernel.tcb w).state = .blocked ∧
          pc = ⟨makeWake w, .user (Out.value 0)⟩) := by
  cases x with
  | makeTest tid' =>
      obtain rfl := Option.some.inj target
      simp only [branch] at leads
      split_ifs at leads with hbad
      · cases leads
        exact ⟨rfl, List.not_mem_nil, Or.inr (Or.inl ⟨rfl, by simp [givesUp, here, hbad]⟩)⟩
      · cases leads
        exact ⟨rfl, by simp, Or.inl rfl⟩
  | makeRunnable tid' c =>
      obtain rfl := Option.some.inj target
      cases leads
      rcases s.loop_cases s.kernel.runnableQueue (.makeRunnable tid')
          ⟨[.unlock .runnableQueue, .lock .blockedQueue], .makeBlocked tid' .start⟩
          (fun n => if (listEntry n : Int) = tid' ∧ (s.kernel.tcb (listEntry n)).state = .runnable
            then some ⟨[.unlock .runnableQueue], .user (Out.value (-1))⟩ else none) c with
        ⟨c', heq⟩ | ⟨-, heq⟩ | ⟨n, pc, rfl, hbody, heq⟩
      · rw [heq]
        exact ⟨rfl, List.not_mem_nil, Or.inl rfl⟩
      · rw [heq]
        exact ⟨rfl, by simp, Or.inl rfl⟩
      · rw [heq]
        split_ifs at hbody with hfound
        cases hbody
        exact ⟨rfl, by simp, Or.inr (Or.inl ⟨rfl, by simp [givesUp, here, hfound]⟩)⟩
  | makeBlocked tid' c =>
      obtain rfl := Option.some.inj target
      cases leads
      rcases s.loop_cases s.kernel.blockedQueue (.makeBlocked tid')
          ⟨[.unlock .blockedQueue], .user (Out.value (-1))⟩
          (fun n => if (listEntry n : Int) = tid' ∧ (s.kernel.tcb (listEntry n)).state = .blocked
            then some ⟨makeWake (listEntry n), .user (Out.value 0)⟩ else none) c with
        ⟨c', heq⟩ | ⟨rfl, heq⟩ | ⟨n, pc, rfl, hbody, heq⟩
      · rw [heq]
        exact ⟨rfl, List.not_mem_nil, Or.inl rfl⟩
      · rw [heq]
        exact ⟨rfl, by simp, Or.inr (Or.inl ⟨rfl, by simp [givesUp, here]⟩)⟩
      · rw [heq]
        split_ifs at hbody with hfound
        cases hbody
        exact ⟨rfl, by simp [makeWake], Or.inr (Or.inr ⟨listEntry n, hfound.1, hfound.2, rfl⟩)⟩
  | _ => cases target

/-- No call begins with the assignment of `THREAD_BLOCKED`. -/
theorem awake_entry (t : Nat) (e : Entry) : .act (.setOwn .blocked) ∉ (e.pc t).todo := by
  cases e <;> simp [Entry.pc, Pc.point]

/-- A call begins in user mode. -/
theorem Step.enter_pc {s' : Preempt} {e : Entry} (hs : s.Step (.enter e) s') :
    s'.pc s.current = e.pc s.current := by
  cases hs.happens with
  | enter user => exact goto_pc_self _ _

/-- The word holds what was stored. -/
theorem Step.word_store {s' : Preempt} {a : Nat} {v : Int} (hs : s.Step (.store a v) s') :
    s'.word s.kernel.currentPcb a = v := by
  cases hs.happens with
  | store user same written => exact written

/-- After the assignment `THREAD_BLOCKED` is not assigned again. -/
theorem awake_of_suffix {t : Nat} {rest : List Stmt}
    (h : .act (.setOwn .blocked) :: rest <:+ suspend t .blocked) :
    .act (.setOwn .blocked) ∉ rest := by
  simp only [suspend, List.suffix_cons_iff, List.cons.injEq, reduceCtorEq, false_and,
    List.suffix_nil, true_and, false_or, or_false] at h
  rw [h]
  simp

end Preempt

/-! ## The invariant -/

namespace Race

open Preempt

variable {t u r p : Nat} {v : Int} {x x' : Race} {m : Move}

/-- **Whose turn it is** in user mode. -/
inductive Takes (t u r : Nat) (x : Race) (m : Move) (x' : Race) : Prop
  /-- Another thread, or the kernel. -/
  | other (sleep : x'.toSleep = x.toSleep) (wake : x'.toWake = x.toWake)
      (idle : m.byUser = true → x.machine.current ≠ t ∧ x.machine.current ≠ u)
      (spares : ∀ w, m = .store r w →
        x.machine.kernel.currentPcb ≠ (x.machine.kernel.tcb t).pcb)
  /-- The descheduling thread. -/
  | sleeper (current : x.machine.current = t) (sleep : x.toSleep = m :: x'.toSleep)
      (wake : x'.toWake = x.toWake)
  /-- The waking thread. -/
  | waker (current : x.machine.current = u) (sleep : x'.toSleep = x.toSleep)
      (wake : x.toWake = m :: x'.toWake)

/-- A step of the race is a step of the kernel. -/
theorem Step.takes (hs : Step t u r x m x') :
    x.machine.Step m x'.machine ∧ Takes t u r x m x' := by
  have first : ∀ l : List Move, l.head? = some m → l = m :: l.tail := by
    intro l hl
    cases l with
    | nil => cases hl
    | cons a l =>
        obtain rfl := Option.some.inj hl
        rfl
  obtain ⟨s, hstep, hx⟩ := Option.bind_eq_some_iff.mp hs
  split_ifs at hx with huser ht hfirst hu hfirst
  · obtain rfl := Option.some.inj hx
    refine ⟨hstep, .other rfl rfl (fun h => ?_) fun w hw => ?_⟩
    · rw [huser] at h
      cases h
    · rw [hw] at huser
      cases huser
  · obtain rfl := Option.some.inj hx
    exact ⟨hstep, .sleeper ht (first _ hfirst) rfl⟩
  · obtain rfl := Option.some.inj hx
    exact ⟨hstep, .waker hu rfl (first _ hfirst)⟩
  · split at hx
    · next addr w =>
        split_ifs at hx with hword
        obtain rfl := Option.some.inj hx
        refine ⟨hstep, .other rfl rfl (fun _ => ⟨ht, hu⟩) fun w' hw' => ?_⟩
        obtain ⟨rfl, -⟩ := Move.store.inj hw'
        exact fun hp => hword ⟨rfl, hp⟩
    · next hstore =>
        obtain rfl := Option.some.inj hx
        exact ⟨hstep, .other rfl rfl (fun _ => ⟨ht, hu⟩) fun w hw => absurd hw (hstore r w)⟩

/-- The thread has made its call of `sys_deschedule`, and does not assign `THREAD_BLOCKED` any
more. -/
structure Past (t : Nat) (x : Race) : Prop where
  /-- The call was made. -/
  called : x.toSleep = []
  /-- It has its result. -/
  result : (x.machine.pc t).next.returns = true
  /-- There is no assignment. -/
  awake : .act (.setOwn .blocked) ∉ (x.machine.pc t).todo

/-- **What the race keeps.** -/
structure Kept (t u r p : Nat) (v : Int) (x : Race) : Prop where
  /-- The two threads are of one process. -/
  owner : (x.machine.kernel.tcb t).pcb = p ∧ (x.machine.kernel.tcb u).pcb = p
  /-- What the descheduling thread has left to do. -/
  sleeper : x.toSleep = [.enter (.deschedule r)] ∨ x.toSleep = []
  /-- What the waking thread has left to do. -/
  waker : x.toWake = [.store r v, .enter (.makeRunnable t)] ∨
    x.toWake = [.enter (.makeRunnable t)] ∨ x.toWake = []
  /-- The word, after the store. -/
  word : x.toWake.length ≤ 1 → x.machine.word p r ≠ 0
  /-- The pointer of `sys_deschedule`. -/
  reject : ∀ r', (x.machine.pc t).next.reject = some r' → r' = r ∧ x.toSleep = [] ∧
    .act (.setOwn .blocked) ∉ (x.machine.pc t).todo
  /-- The way to the assignment of `THREAD_BLOCKED`. -/
  suspends : .act (.setOwn .blocked) ∈ (x.machine.pc t).todo → x.toSleep = [] ∧
    (x.machine.pc t).next = .user (Out.value 0) ∧ (x.machine.pc t).todo <:+ suspend t .blocked
  /-- After it. -/
  blocked : (x.machine.kernel.tcb t).state = .blocked → x.Past t
  /-- The number for `sys_make_runnable`. -/
  target : ∀ tid, (x.machine.pc u).next.target = some tid → tid = t
  /-- **`sys_make_runnable`** searches, has found the thread blocked, or the thread does not go to
  sleep. -/
  heard : x.toWake = [] → (x.machine.pc u).next.target = some (t : Int) ∨
    (.act (.setRunnable t) ∈ (x.machine.pc u).todo ∧ x.Past t) ∨ x.machine.goesToSleep t = false

/-- The call of `sys_deschedule` is made once. -/
theorem Takes.called (h : Takes t u r x m x') (called : x.toSleep = []) : x'.toSleep = [] := by
  cases h with
  | other sleep => rw [sleep, called]
  | sleeper current sleep =>
      rw [called] at sleep
      cases sleep
  | waker current sleep => rw [sleep, called]

/-- After it the thread makes no other call. -/
theorem Takes.not_enter (h : Takes t u r x m x') (tu : t ≠ u) (called : x.toSleep = []) {e : Entry}
    (hm : m = .enter e) : x.machine.current ≠ t := by
  cases h with
  | other sleep wake idle spares => exact (idle (by rw [hm]; rfl)).1
  | sleeper current sleep =>
      rw [called] at sleep
      cases sleep
  | waker current => exact fun hcur => tu (hcur.symm.trans current)

theorem Past.step (h : x.Past t) (tu : t ≠ u) (hs : Step t u r x m x') : x'.Past t := by
  obtain ⟨hstep, htakes⟩ := hs.takes
  refine ⟨htakes.called h.called, ?_, ?_⟩
  · cases hstep.advances t with
    | stays same =>
        rw [same]
        exact h.result
    | stmt runs current here there =>
        rw [there]
        have hresult := h.result
        rwa [here] at hresult
    | @test next pc' runs current here leads =>
        have hresult := h.result
        rw [here] at hresult
        change next.returns = true at hresult
        cases next with
        | user out => cases leads
        | _ => cases hresult
    | enter call current => exact absurd current (htakes.not_enter tu h.called call)
  · cases hstep.advances t with
    | stays same =>
        rw [same]
        exact h.awake
    | stmt runs current here there =>
        rw [there]
        have hawake := h.awake
        rw [here] at hawake
        exact fun hmem => hawake (List.mem_cons_of_mem _ hmem)
    | @test next pc' runs current here leads =>
        have hresult := h.result
        rw [here] at hresult
        change next.returns = true at hresult
        cases next with
        | user out => cases leads
        | _ => cases hresult
    | enter call current => exact absurd current (htakes.not_enter tu h.called call)

/-- **The tests of the descheduling thread**: it goes on with its call, or is on its way to block
after it has read 0. -/
theorem Kept.sleeper_test (h : x.Kept t u r p v) {next : Point} {pc : Pc}
    (here : x.machine.pc t = ⟨[], next⟩) (current : x.machine.current = t)
    (leads : x.machine.branch next = some pc) :
    ((∀ r', pc.next.reject = some r' → r' = r ∧ x.toSleep = []) ∧
      .act (.setOwn .blocked) ∉ pc.todo) ∨
    (x.toSleep = [] ∧ x.machine.word p r = 0 ∧ pc = ⟨suspend t .blocked, .user (Out.value 0)⟩) := by
  cases hreject : next.reject with
  | none =>
      left
      cases htarget : next.target with
      | none =>
          have hapart := apart_of_branch leads hreject htarget
          refine ⟨fun r' hr' => ?_, hapart.awake⟩
          rw [hapart.reject] at hr'
          cases hr'
      | some tid =>
          obtain ⟨hnone, hawake, -⟩ := target_of_branch leads here htarget
          refine ⟨fun r' hr' => ?_, hawake⟩
          rw [hnone] at hr'
          cases hr'
  | some r₀ =>
      obtain ⟨rfl, hcalled, -⟩ := h.reject r₀ (by rw [here]; exact hreject)
      obtain ⟨-, ⟨hsame, hawake⟩ | ⟨hreturns, hawake⟩ | ⟨hword, rfl⟩⟩ :=
        reject_of_branch leads hreject
      · refine Or.inl ⟨fun r' hr' => ?_, hawake⟩
        rw [hsame] at hr'
        exact ⟨(Option.some.inj hr').symm, hcalled⟩
      · refine Or.inl ⟨fun r' hr' => ?_, hawake⟩
        cases hnext : pc.next with
        | user out =>
            rw [hnext] at hr'
            cases hr'
        | _ =>
            rw [hnext] at hreturns
            cases hreturns
      · refine Or.inr ⟨hcalled, ?_, by rw [current]⟩
        have hp : x.machine.kernel.currentPcb = p := by
          rw [← h.owner.1, ← current]
          rfl
        rwa [hp] at hword

/-- **The pc of the descheduling thread**, along a step. -/
theorem Kept.sleeper_pc (h : x.Kept t u r p v) (tu : t ≠ u) (hs : Step t u r x m x') :
    (∀ r', (x'.machine.pc t).next.reject = some r' → r' = r ∧ x'.toSleep = [] ∧
      .act (.setOwn .blocked) ∉ (x'.machine.pc t).todo) ∧
    (.act (.setOwn .blocked) ∈ (x'.machine.pc t).todo → x'.toSleep = [] ∧
      (x'.machine.pc t).next = .user (Out.value 0) ∧
        (x'.machine.pc t).todo <:+ suspend t .blocked) := by
  obtain ⟨hstep, htakes⟩ := hs.takes
  cases hstep.advances t with
  | stays same =>
      rw [same]
      constructor
      · intro r' hr'
        obtain ⟨heq, hcalled, hawake⟩ := h.reject r' hr'
        exact ⟨heq, htakes.called hcalled, hawake⟩
      · intro hmem
        obtain ⟨hcalled, hnext⟩ := h.suspends hmem
        exact ⟨htakes.called hcalled, hnext⟩
  | stmt runs current here there =>
      rw [there]
      have hreject := h.reject
      have hsuspends := h.suspends
      rw [here] at hreject hsuspends
      constructor
      · intro r' hr'
        obtain ⟨heq, hcalled, hawake⟩ := hreject r' hr'
        exact ⟨heq, htakes.called hcalled, fun hmem => hawake (List.mem_cons_of_mem _ hmem)⟩
      · intro hmem
        obtain ⟨hcalled, hnext, hsuffix⟩ := hsuspends (List.mem_cons_of_mem _ hmem)
        exact ⟨htakes.called hcalled, hnext, (List.suffix_cons _ _).trans hsuffix⟩
  | @test next pc' runs current here leads after =>
      have hpc : x'.machine.pc t = pc' := by
        rw [after, ← current]
        exact goto_pc_self _ _
      rw [hpc]
      rcases h.sleeper_test here current leads with ⟨hreject, hawake⟩ | ⟨hcalled, -, rfl⟩
      · refine ⟨fun r' hr' => ?_, fun hmem => absurd hmem hawake⟩
        obtain ⟨heq, hcalled⟩ := hreject r' hr'
        exact ⟨heq, htakes.called hcalled, hawake⟩
      · exact ⟨nofun, fun _ => ⟨htakes.called hcalled, rfl, List.suffix_rfl⟩⟩
  | @enter e call current user there =>
      rw [there]
      refine ⟨fun r' hr' => ?_, fun hmem => absurd hmem (awake_entry t e)⟩
      cases htakes with
      | other sleep wake idle => exact absurd current (idle (by rw [call]; rfl)).1
      | waker here => exact absurd (current.symm.trans here) tu
      | sleeper _ sleep =>
          rcases h.sleeper with hs | hs
          · rw [hs, call] at sleep
            obtain ⟨hentry, hrest⟩ := List.cons.inj sleep
            obtain rfl := Move.enter.inj hentry
            exact ⟨(Option.some.inj hr').symm, hrest.symm, List.not_mem_nil⟩
          · rw [hs] at sleep
            cases sleep

/-- **The number that the waking thread looks for.** -/
theorem Kept.target_step (h : x.Kept t u r p v) (tu : t ≠ u) (hs : Step t u r x m x') {tid : Int}
    (htid : (x'.machine.pc u).next.target = some tid) : tid = t := by
  obtain ⟨hstep, htakes⟩ := hs.takes
  cases hstep.advances u with
  | stays same =>
      rw [same] at htid
      exact h.target tid htid
  | stmt runs current here there =>
      rw [there] at htid
      exact h.target tid (by rw [here]; exact htid)
  | @test next pc' runs current here leads after =>
      have hpc : x'.machine.pc u = pc' := by
        rw [after, ← current]
        exact goto_pc_self _ _
      rw [hpc] at htid
      cases htarget : next.target with
      | some tid' =>
          obtain rfl := h.target tid' (by rw [here]; exact htarget)
          obtain ⟨-, -, hsame | ⟨hnone, -⟩ | ⟨w, -, -, rfl⟩⟩ := target_of_branch leads here htarget
          · rw [hsame] at htid
            exact (Option.some.inj htid).symm
          · rw [hnone] at htid
            cases htid
          · cases htid
      | none =>
          have hnone : pc'.next.target = none := by
            cases hreject : next.reject with
            | none => exact (apart_of_branch leads hreject htarget).target
            | some r' => exact (reject_of_branch leads hreject).1
          rw [hnone] at htid
          cases htid
  | @enter e call current user there =>
      rw [there] at htid
      cases htakes with
      | other sleep wake idle => exact absurd current (idle (by rw [call]; rfl)).2
      | sleeper here => exact absurd (here.symm.trans current) tu
      | waker _ _ wake =>
          rcases h.waker with hw | hw | hw
          · rw [hw, call] at wake
            cases (List.cons.inj wake).1
          · rw [hw, call] at wake
            obtain rfl := Move.enter.inj (List.cons.inj wake).1
            exact (Option.some.inj htid).symm
          · rw [hw] at wake
            cases wake

/-- **The word** keeps a value other than 0. -/
theorem Kept.word_step (h : x.Kept t u r p v) (nonzero : v ≠ 0) (hs : Step t u r x m x')
    (stored : x'.toWake.length ≤ 1) : x'.machine.word p r ≠ 0 := by
  obtain ⟨hstep, htakes⟩ := hs.takes
  by_cases hbefore : x.toWake.length ≤ 1
  · rcases hstep.word_cases p r with hsame | ⟨w, rfl, hp, hw⟩
    · rw [hsame]
      exact h.word hbefore
    · cases htakes with
      | other sleep wake idle spares => exact absurd (hp.symm.trans h.owner.1.symm) (spares w rfl)
      | sleeper _ sleep =>
          rcases h.sleeper with hs | hs <;> rw [hs] at sleep
          · cases (List.cons.inj sleep).1
          · cases sleep
      | waker _ _ wake =>
          rcases h.waker with hw | hw | hw <;> rw [hw] at wake hbefore
          · simp at hbefore
          · cases (List.cons.inj wake).1
          · cases wake
  · -- the store itself
    have hw : x.toWake = [.store r v, .enter (.makeRunnable t)] := by
      rcases h.waker with hw | hw | hw
      · exact hw
      · exact absurd (by rw [hw]; exact Nat.le_refl 1) hbefore
      · exact absurd (by rw [hw]; exact Nat.zero_le 1) hbefore
    cases htakes with
    | other sleep wake => exact absurd (wake ▸ stored) hbefore
    | sleeper _ _ wake => exact absurd (wake ▸ stored) hbefore
    | waker current _ wake =>
        rw [hw] at wake
        obtain rfl := (List.cons.inj wake).1
        have hp : x.machine.kernel.currentPcb = p := by
          rw [← h.owner.2, ← current]
          rfl
        rw [← hp, hstep.word_store]
        exact nonzero

/-- The two ways to go to sleep. -/
theorem awake_iff {s : Preempt} : s.goesToSleep t = false ↔
    (s.kernel.tcb t).state ≠ .blocked ∧ .act (.setOwn .blocked) ∉ (s.pc t).todo := by
  rw [goesToSleep, decide_eq_false_iff_not, not_or]

/-- **A thread that was spared stays awake**: the word is not 0 any more. -/
theorem Kept.awake_step (h : x.Kept t u r p v) (hs : Step t u r x m x')
    (stored : x.toWake.length ≤ 1) (awake : x.machine.goesToSleep t = false) :
    x'.machine.goesToSleep t = false := by
  obtain ⟨hstep, -⟩ := hs.takes
  obtain ⟨hstate, hnone⟩ := awake_iff.mp awake
  refine awake_iff.mpr ⟨fun hblocked => ?_, ?_⟩
  · rcases hstep.blocked_back hblocked with hbefore | ⟨-, rest, next, here, -⟩
    · exact hstate hbefore
    · rw [here] at hnone
      exact hnone List.mem_cons_self
  · cases hstep.advances t with
    | stays same =>
        rw [same]
        exact hnone
    | stmt runs current here there =>
        rw [there]
        rw [here] at hnone
        exact fun hmem => hnone (List.mem_cons_of_mem _ hmem)
    | @test next pc' runs current here leads after =>
        have hpc : x'.machine.pc t = pc' := by
          rw [after, ← current]
          exact goto_pc_self _ _
        rw [hpc]
        rcases h.sleeper_test here current leads with ⟨-, hawake⟩ | ⟨-, hword, -⟩
        · exact hawake
        · exact absurd hword (h.word stored)
    | @enter e call current user there =>
        rw [there]
        exact awake_entry t e

/-- **A thread that blocks** has made its call, and does not do so again. -/
theorem Kept.blocked_step (h : x.Kept t u r p v) (tu : t ≠ u) (hs : Step t u r x m x')
    (blocked : (x'.machine.kernel.tcb t).state = .blocked) : x'.Past t := by
  obtain ⟨hstep, htakes⟩ := hs.takes
  rcases hstep.blocked_back blocked with hbefore | ⟨-, rest, next, here, there⟩
  · exact (h.blocked hbefore).step tu hs
  · have hsuspends := h.suspends
    rw [here] at hsuspends
    obtain ⟨hcalled, hnext, hsuffix⟩ := hsuspends List.mem_cons_self
    refine ⟨htakes.called hcalled, ?_, ?_⟩
    · obtain rfl : next = .user (Out.value 0) := hnext
      rw [there]
      rfl
    · rw [there]
      exact awake_of_suffix hsuffix

/-- **The call of `sys_make_runnable`**, along a step: it searches on, finds the thread blocked and
wakes it, or gives up in time. -/
theorem Kept.heard_step (h : x.Kept t u r p v) (tu : t ≠ u) (hs : Step t u r x m x')
    (inTime : x.InTime t u m) (called : x'.toWake = []) :
    (x'.machine.pc u).next.target = some (t : Int) ∨
      (.act (.setRunnable t) ∈ (x'.machine.pc u).todo ∧ x'.Past t) ∨
        x'.machine.goesToSleep t = false := by
  obtain ⟨hstep, htakes⟩ := hs.takes
  by_cases hbefore : x.toWake = []
  · have hstored : x.toWake.length ≤ 1 := by simp [hbefore]
    have noEntry : ∀ e, m = .enter e → x.machine.current ≠ u := by
      intro e he hcur
      cases htakes with
      | other sleep wake idle => exact (idle (by rw [he]; rfl)).2 hcur
      | sleeper here => exact tu (here.symm.trans hcur)
      | waker _ _ wake =>
          rw [hbefore] at wake
          cases wake
    rcases h.heard hbefore with htarget | ⟨hmem, hpast⟩ | hawake
    · cases hstep.advances u with
      | stays same =>
          rw [same]
          exact Or.inl htarget
      | stmt runs current here there =>
          rw [there]
          rw [here] at htarget
          exact Or.inl htarget
      | @test next pc' runs current here leads after =>
          have hpc : x'.machine.pc u = pc' := by
            rw [after, ← current]
            exact goto_pc_self _ _
          rw [here] at htarget
          rw [hpc]
          obtain ⟨-, -, hsame | ⟨-, hgives⟩ | ⟨w, hw, hblocked, rfl⟩⟩ :=
            target_of_branch leads here htarget
          · exact Or.inl hsame
          · subst runs
            have hawake := of_decide_eq_true inTime current hgives
            exact Or.inr (Or.inr (h.awake_step hs hstored hawake))
          · obtain rfl := Int.ofNat.inj hw
            exact Or.inr (Or.inl ⟨by simp [makeWake], (h.blocked hblocked).step tu hs⟩)
      | enter call current => exact absurd current (noEntry _ call)
    · have hpast' := hpast.step tu hs
      cases hstep.advances u with
      | stays same =>
          rw [same]
          exact Or.inr (Or.inl ⟨hmem, hpast'⟩)
      | @stmt stmt rest next runs current here there writes =>
          rw [here] at hmem
          rw [there]
          rcases List.mem_cons.mp hmem with hnow | hlater
          · right
            right
            refine awake_iff.mpr ⟨?_, hpast'.awake⟩
            rw [writes _ hnow.symm, perform_state]
            simp
          · exact Or.inr (Or.inl ⟨hlater, hpast'⟩)
      | test runs current here =>
          rw [here] at hmem
          cases hmem
      | enter call current => exact absurd current (noEntry _ call)
    · exact Or.inr (Or.inr (h.awake_step hs hstored hawake))
  · -- the call begins
    cases htakes with
    | other _ wake => exact absurd (wake ▸ called) hbefore
    | sleeper _ _ wake => exact absurd (wake ▸ called) hbefore
    | waker current _ wake =>
        rw [called] at wake
        rcases h.waker with hw | hw | hw
        · rw [hw] at wake
          cases (List.cons.inj wake).2
        · rw [hw] at wake
          obtain rfl := (List.cons.inj wake).1
          have hpc := hstep.enter_pc
          rw [current] at hpc
          rw [hpc]
          exact Or.inl rfl
        · exact absurd hw hbefore

/-- **Every step in time keeps the invariant.** -/
theorem Kept.step (h : x.Kept t u r p v) (tu : t ≠ u) (nonzero : v ≠ 0) (hs : Step t u r x m x')
    (inTime : x.InTime t u m) : x'.Kept t u r p v := by
  obtain ⟨hstep, htakes⟩ := hs.takes
  have hpc := h.sleeper_pc tu hs
  refine ⟨?_, ?_, ?_, h.word_step nonzero hs, hpc.1, hpc.2, h.blocked_step tu hs,
    fun tid htid => h.target_step tu hs htid, h.heard_step tu hs inTime⟩
  · rw [hstep.owner t, hstep.owner u]
    exact h.owner
  · cases htakes with
    | other sleep => rw [sleep]; exact h.sleeper
    | waker _ sleep => rw [sleep]; exact h.sleeper
    | sleeper _ sleep =>
        right
        rcases h.sleeper with hs | hs <;> rw [hs] at sleep
        · exact (List.cons.inj sleep).2.symm
        · cases sleep
  · cases htakes with
    | other _ wake => rw [wake]; exact h.waker
    | sleeper _ _ wake => rw [wake]; exact h.waker
    | waker _ _ wake =>
        right
        rcases h.waker with hw | hw | hw <;> rw [hw] at wake
        · exact Or.inl (List.cons.inj wake).2.symm
        · exact Or.inr (List.cons.inj wake).2.symm
        · cases wake

/-- The race begins with both threads in user mode or in `sys_wait`. -/
theorem kept_start {k : Kernel} (same : (k.tcb u).pcb = (k.tcb t).pcb)
    (fresh : (k.tcb t).state ≠ .blocked) (word : Nat → Nat → Int) (mapped : Nat → Nat → Bool) :
    (start t r v (Preempt.start k word mapped)).Kept t u r (k.tcb t).pcb v where
  owner := ⟨rfl, same⟩
  sleeper := Or.inl rfl
  waker := Or.inl rfl
  word h := absurd h (by simp [start])
  reject r' hr' := by
    change (k.tcb t).resume.pc.next.reject = some r' at hr'
    cases hresume : (k.tcb t).resume <;> rw [hresume] at hr' <;> cases hr'
  suspends hmem := by
    change _ ∈ (k.tcb t).resume.pc.todo at hmem
    cases hresume : (k.tcb t).resume <;> rw [hresume] at hmem <;> cases hmem
  blocked h := absurd h fresh
  target tid htid := by
    change (k.tcb u).resume.pc.next.target = some tid at htid
    cases hresume : (k.tcb u).resume <;> rw [hresume] at htid <;> cases htid
  heard h := nomatch h

/-- Once the call has returned the thread does not go to sleep. -/
theorem Kept.heardNow (h : x.Kept t u r p v) : x.Heard t u := by
  rintro called user ⟨-, hblocked⟩
  obtain ⟨out, hpc⟩ := Pc.eq_point_of_inUser user
  rcases h.heard called with htarget | ⟨hmem, -⟩ | hawake
  · rw [hpc] at htarget
    cases htarget
  · rw [hpc] at hmem
    cases hmem
  · exact (awake_iff.mp hawake).1 hblocked

/-! ## The wake-up is not missed in time -/

/-- **`deschedule` is atomic with respect to `make_runnable` when this one does not give up too
early.** A thread `t` calls `sys_deschedule(&r)`, another thread `u` of its process stores a value
other than 0 in `r` and calls `sys_make_runnable` on `t`; all other threads do what they like, but
do not store in `r`. In every interleaving where the call does not give up while `t` is in state
`THREAD_BLOCKED` or is about to assign it, `t` is not left in `blocked_queue` in this state. -/
theorem heard_of_inTime {k : Kernel} (tu : t ≠ u) (same : (k.tcb u).pcb = (k.tcb t).pcb)
    (fresh : (k.tcb t).state ≠ .blocked) (nonzero : v ≠ 0) {word : Nat → Nat → Int}
    {mapped : Nat → Nat → Bool} {moves : List Move}
    (run : Run (Guarded (Step t u r) (InTime t u)) (start t r v (Preempt.start k word mapped))
      moves x) : x.Heard t u := by
  apply Kept.heardNow
  apply run.invariant (kept_start same fresh word mapped)
  rintro y m z hy ⟨hstep, hinTime⟩
  exact hy.step tu nonzero hstep hinTime

/-- Threads 2 and 3 of `init`, in user mode; the word at `0x1000000` is 0. -/
def twoThreads : Preempt :=
  Preempt.start (Kernel.trace [.call .threadFork]).2 (fun _ _ => 0) fun _ _ => true

/-- Thread 2 has gone to sleep when thread 3 stores the word and calls `sys_make_runnable`. -/
def wokenInTime : List Move :=
  .enter (.deschedule 0x1000000) :: List.replicate 7 .run ++
    [.preempt, .store 0x1000000 1, .enter (.makeRunnable 2)] ++ List.replicate 22 .run

/-- Thread 3 finds thread 2 blocked and wakes it. -/
theorem heard_of_inTime_woken :
    ∃ moves x, Run (Step 2 3 0x1000000) (start 2 0x1000000 1 twoThreads) moves x ∧
      x.toWake = [] ∧ (x.machine.pc 3).inUser = true ∧ x.Heard 2 3 := by
  have hend : ((runList (fun y m => if y.inTime 2 3 m then y.step 2 3 0x1000000 m else none)
      (start 2 0x1000000 1 twoThreads) wokenInTime).map fun x =>
        (x.toWake, (x.machine.pc 3).inUser)) = some ([], true) := by decide +kernel
  obtain ⟨x, hx, hdone⟩ := Option.map_eq_some_iff.mp hend
  obtain ⟨hwake, huser⟩ := Prod.mk.inj hdone
  have hrun : Run (Guarded (Step 2 3 0x1000000) (InTime 2 3)) (start 2 0x1000000 1 twoThreads)
      wokenInTime x := Run.guarded_of_runList (fun y m h => h) hx
  refine ⟨wokenInTime, x, hrun.of_guarded, hwake, huser, ?_⟩
  exact heard_of_inTime (by decide) (by decide +kernel) (by decide +kernel) (by decide) hrun

/-- Thread 2 is interrupted between its test of `*reject` and the assignment of `THREAD_BLOCKED`;
thread 3 stores the word and does not find thread 2 in `blocked_queue`. -/
def missedWakeUp : List Move :=
  .enter (.deschedule 0x1000000) :: List.replicate 3 .run ++
    [.preempt, .preempt, .store 0x1000000 1, .enter (.makeRunnable 2)] ++
      List.replicate 13 .run ++ .preempt :: List.replicate 4 .run

/-- **A wake-up is missed**: `sys_make_runnable` has returned -1, and thread 2 blocks after it. -/
theorem wakeUp_missed :
    ∃ moves x, Run (Step 2 3 0x1000000) (start 2 0x1000000 1 twoThreads) moves x ∧
      (twoThreads.kernel.tcb 3).pcb = (twoThreads.kernel.tcb 2).pcb ∧
        (twoThreads.kernel.tcb 2).state ≠ .blocked ∧ x.toSleep = [] ∧
          x.machine.pc 3 = Pc.value (-1) ∧ ¬ x.Heard 2 3 := by
  have hend : ((runList (step 2 3 0x1000000) (start 2 0x1000000 1 twoThreads) missedWakeUp).map
      fun x => (x.toSleep, x.toWake, x.machine.pc 3,
        decide (2 ∈ x.machine.kernel.members x.machine.kernel.blockedQueue ∧
          (x.machine.kernel.tcb 2).state = .blocked))) = some ([], [], Pc.value (-1), true) := by
    decide +kernel
  obtain ⟨x, hx, hdone⟩ := Option.map_eq_some_iff.mp hend
  simp only [Prod.mk.injEq, decide_eq_true_eq] at hdone
  obtain ⟨hsleep, hwake, hpc, hblocked⟩ := hdone
  refine ⟨missedWakeUp, x, Run.of_runList hx, by decide +kernel, by decide +kernel, hsleep, hpc, ?_⟩
  intro hheard
  exact hheard hwake (by rw [hpc]; rfl) hblocked

end Race

end Pebbles
