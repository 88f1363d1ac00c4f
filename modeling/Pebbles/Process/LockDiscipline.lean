import Pebbles.Process.Switching
import Pebbles.Library.Mutexes

/-! # System calls and their mutexes

A call takes and drops mutexes along many paths, and `deschedule_lock` is handed to `schedule`,
which drops it for a thread that is put aside in state `THREAD_BLOCKED`. `Follows` checks a piece
of code against the mutexes its thread holds; every piece of the nine calls passes the check, but
for the return of `sys_print` on a bad buffer. -/

namespace Pebbles

open Transition Mutexes

/-! ## The property -/

namespace Preempt

/-- The thread `t` is back in user mode, or it has been switched away for good. -/
def hasLeft (s : Preempt) (t : Nat) : Prop :=
  (s.pc t).inUser = true ∨ (s.kernel.tcb t).state = .exit ∧ t ≠ s.current

/-- **Every call releases its locks**: a thread that has left the kernel holds no mutex. -/
def LocksReleased (s : Preempt) : Prop := ∀ t, s.hasLeft t → ∀ l, s.owner l ≠ some t

/-- The steps at which no mutex is left behind. -/
structure ReleasesSafely (s : Preempt) (m : Move) : Prop where
  /-- `sys_print` finds that its buffer is a mapped user address. -/
  print : m = .run → ∀ buf, s.pc s.current = Pc.point (.printTest buf) →
    Kernel.isUserAddr buf = true ∧ s.mapped s.kernel.currentPcb buf = true
  /-- Thread 1 does not call `schedule` with `deschedule_lock` and nobody else to run. -/
  handOver : m = .run → ∀ tid rest next, s.pc s.current = ⟨.schedule tid :: rest, next⟩ →
    s.owner .deschedule = some s.current → ¬ s.kernel.idles
  /-- No thread is switched away with a mutex after it has set `THREAD_EXIT`. -/
  exit : ∀ s', s.step m = some s' → s'.current ≠ s.current →
    (s.kernel.tcb s.current).state = .exit → ∀ l, s.owner l ≠ some s.current

end Preempt

/-! ## Code that follows the discipline -/

/-- The mutexes that thread `t` holds at a point of the source. -/
def Point.held (t : Nat) : Point → Set Lock
  | .vanishCount _ _ | .vanishReap _ | .vanishParent | .findInit _ | .findWaiter _ | .yieldSelf _ =>
      {.tcb t}
  | .yieldBlocked _ _ | .makeBlocked _ _ => {.blockedQueue}
  | .yieldRunnable _ _ | .makeRunnable _ _ => {.runnableQueue}
  | .descheduleRead _ => {.deschedule}
  | .printRead _ | .printTest _ => {.print}
  | _ => ∅

/-- The thread `t` holds what it should at the point `x`. Another thread may have taken
`deschedule_lock` from it, as `schedule` does not look who holds it. -/
def AtPoint (t : Nat) (x : Point) (held : Set Lock) : Prop :=
  (∀ l, l ≠ .deschedule → (l ∈ held ↔ l ∈ x.held t)) ∧
    (.deschedule ∈ held → .deschedule ∈ x.held t)

/-- **Code that follows the discipline**: started by thread `t` with the mutexes `held`, the
statements drop only what is held, and arrive with what is held at the point `x`. The flag says
that the thread has put itself into the state `THREAD_BLOCKED` while it held `deschedule_lock`. -/
def Follows (t : Nat) (x : Point) : Bool → Set Lock → List Stmt → Prop
  | _, held, [] => AtPoint t x held
  | flag, held, .lock l :: rest =>
      (l = .deschedule → l ∉ held) ∧
        (l ∉ held → Follows t x (if l = .deschedule then false else flag) (insert l held) rest)
  | flag, held, .unlock l :: rest =>
      (l ≠ .deschedule → l ∈ held) ∧ Follows t x flag (held \ {l}) rest
  | flag, held, .schedule _ :: rest =>
      (.deschedule ∈ held → flag = true ∧ (Pc.mk rest x).inUser = true) ∧
        Follows t x false (held \ {.deschedule}) rest
  | _, held, .act (.setOwn st) :: rest => Follows t x (st = .blocked) held rest
  | flag, held, .act (.setRunnable _) :: rest =>
      (flag = true → .deschedule ∉ held) ∧ Follows t x flag held rest
  | flag, held, .act _ :: rest => Follows t x flag held rest

/-- Losing `deschedule_lock` does not matter. -/
theorem AtPoint.lose {t : Nat} {x : Point} {held : Set Lock} (h : AtPoint t x held) :
    AtPoint t x (held \ {.deschedule}) := by
  refine ⟨fun l hl => ?_, fun hmem => absurd rfl hmem.2⟩
  rw [← h.1 l hl]
  simp [hl]

theorem Follows.lose {t : Nat} {x : Point} {flag : Bool} {held : Set Lock} {code : List Stmt}
    (h : Follows t x flag held code) : Follows t x flag (held \ {.deschedule}) code := by
  induction code generalizing flag held with
  | nil => exact AtPoint.lose h
  | cons stmt rest ih =>
      cases stmt with
      | lock l =>
          obtain ⟨hfirst, hrest⟩ := h
          refine ⟨fun hl hmem => hfirst hl hmem.1, fun hmem => ?_⟩
          by_cases hl : l = .deschedule
          · -- a thread that takes the mutex did not hold it, so that it lost nothing
            subst hl
            rw [Set.sdiff_singleton_eq_self (hfirst rfl)]
            exact hrest (hfirst rfl)
          · have hnot : l ∉ held := fun hin => hmem ⟨hin, hl⟩
            rw [Set.insert_sdiff_singleton_comm hl]
            exact ih (hrest hnot)
      | unlock l =>
          obtain ⟨hfirst, hrest⟩ := h
          refine ⟨fun hl => ⟨hfirst hl, hl⟩, ?_⟩
          rw [Set.sdiff_sdiff_comm]
          exact ih hrest
      | schedule tid =>
          refine ⟨fun hmem => absurd rfl hmem.2, ?_⟩
          rw [Set.sdiff_sdiff_comm]
          exact ih h.2
      | act a =>
          cases a with
          | setRunnable w => exact ⟨fun _ hmem => hmem.2 rfl, ih h.2⟩
          | setOwn st =>
              have hrest : Follows t x (decide (st = .blocked)) held rest := h
              exact ih hrest
          | _ =>
              have hrest : Follows t x flag held rest := h
              exact ih hrest

/-! ## The code of the calls -/

/-- Apart from `deschedule_lock`, what a thread holds at a point is known. -/
theorem AtPoint.held_eq {t : Nat} {x : Point} {held : Set Lock} (h : AtPoint t x held)
    (free : .deschedule ∉ x.held t) : held = x.held t := by
  ext l
  by_cases hl : l = .deschedule
  · subst hl
    exact ⟨h.2, fun hmem => absurd hmem free⟩
  · exact h.1 l hl

theorem atPoint_held (t : Nat) (x : Point) : AtPoint t x (x.held t) :=
  ⟨fun _ _ => Iff.rfl, id⟩

section Code

variable {t : Nat}

attribute [local simp] Follows

/-- A return with nothing held. -/
theorem follows_value (v : Int) : Follows t (Pc.value v).next false ∅ (Pc.value v).todo :=
  atPoint_held t _

/-- Suspending in a state other than `THREAD_BLOCKED`, with nothing held. -/
theorem follows_suspend (x : Point) (st : ThreadState) (hx : x.held t = ∅) :
    Follows t x false ∅ (suspend t st) := by
  simp [suspend, Follows, AtPoint, hx]

attribute [local simp] Point.held

/-- Suspending in the state `THREAD_BLOCKED`: `deschedule_lock` is left to `schedule`. -/
theorem follows_suspend_blocked (out : Out) {held : Set Lock}
    (h : ∀ l ∈ held, l = .deschedule) : Follows t (.user out) false held (suspend t .blocked) := by
  have ht : Lock.tcb t ∉ held := fun hmem => by cases h _ hmem
  have hother : ∀ l, ¬ l = .deschedule → l ∉ held := fun l hl hmem => hl (h l hmem)
  simp [suspend, Follows, AtPoint, Point.held, Pc.inUser, ht]
  exact fun l hl hmem => absurd hmem (hother l hl)

theorem follows_makeWake (w : Nat) :
    Follows t (.user (Out.value 0)) false {.blockedQueue} (makeWake w) := by
  simp [makeWake, Follows, AtPoint, Point.held]

/-- Waking a thread other than `t`; a thread that tries to take its own mutex again stays there. -/
theorem follows_vanishWake (w : Nat) :
    Follows t (.user Out.quiet) false {.tcb t} (vanishWake w ++ vanishEnd t) := by
  simp [vanishWake, vanishEnd, Follows, AtPoint, Point.held]
  grind

theorem follows_vanishEnd : Follows t (.user Out.quiet) false {.tcb t} (vanishEnd t) := by
  simp [vanishEnd, Follows, AtPoint, Point.held]

theorem follows_vanishExit : Follows t .vanishParent false {.tcb t} vanishExit := by
  simp [vanishExit, Follows, AtPoint, Point.held]

theorem follows_vanishFree (n : NodePtr) (c : Cursor) :
    Follows t (.vanishReap c) false {.tcb t} (vanishFree n) := by
  simp [vanishFree, Follows, AtPoint, Point.held]

theorem follows_waitReap (c : Nat) (out : Out) :
    Follows t (.user out) false ∅ (waitReap c) := by
  simp [waitReap, Follows, AtPoint, Point.held]

/-- A round of a search follows the discipline when its end and its hit do. -/
theorem follows_loop {s : Preempt} {l : DoublyLinked.Header NodePtr} {here : Cursor → Point}
    {done : Pc} {P : NodePtr → Prop} [DecidablePred P] {hit : NodePtr → Pc} {held : Set Lock}
    (c : Cursor) (stays : ∀ c', (here c').held t = held)
    (ends : Follows t done.next false held done.todo)
    (hits : ∀ n, Follows t (hit n).next false held (hit n).todo) :
    Follows t (s.loop l here done (fun n => if P n then some (hit n) else none) c).next false held
      (s.loop l here done (fun n => if P n then some (hit n) else none) c).todo := by
  rcases s.loop_cases l here done (fun n => if P n then some (hit n) else none) c with
    ⟨c', heq⟩ | ⟨-, heq⟩ | ⟨n, pc, -, hbody, heq⟩
  · rw [heq, ← stays c']
    exact atPoint_held t _
  · rw [heq]
    exact ends
  · split_ifs at hbody
    cases hbody
    rw [heq]
    exact hits n

end Code

/-- **Every test leads to code that follows the discipline**, but for the test of the buffer in
`sys_print`. -/
theorem branch_follows {s : Preempt} {x : Point} {pc : Pc} {held : Set Lock}
    (leads : s.branch x = some pc) (at_ : AtPoint s.current x held)
    (print : ∀ buf, x = .printTest buf →
      Kernel.isUserAddr buf = true ∧ s.mapped s.kernel.currentPcb buf = true) :
    Follows s.current pc.next false held pc.todo := by
  cases x with
  | user out => cases leads
  | descheduleRead reject =>
      have honly : ∀ l ∈ held, l = .deschedule := by
        intro l hl
        by_contra hne
        exact hne ((at_.1 l hne).mp hl)
      simp only [Preempt.branch] at leads
      split_ifs at leads with hmapped hreject
      · cases leads
        refine ⟨fun hne => absurd rfl hne, fun l hl => ⟨fun hmem => ?_, fun hmem => ?_⟩, fun hmem => ?_⟩
        · exact absurd (honly l hmem.1) hl
        · exact absurd hmem (Set.notMem_empty l)
        · exact absurd rfl hmem.2
      · cases leads
        exact follows_suspend_blocked _ honly
  | waitTest statusPtr =>
      obtain rfl := at_.held_eq (Set.notMem_empty _)
      simp only [Preempt.branch] at leads
      split_ifs at leads <;> cases leads
      · exact follows_value _
      · exact follows_value _
      · exact atPoint_held _ _
  | waitScan statusPtr again c =>
      obtain rfl := at_.held_eq (Set.notMem_empty _)
      simp only [Preempt.branch, Preempt.scanChildren] at leads
      split at leads
      · cases leads
      · cases leads
        apply follows_loop c
        · exact fun _ => rfl
        · cases again
          · exact follows_suspend _ _ rfl
          · exact follows_value _
        · exact fun n => follows_waitReap _ _
  | vanishCount live c =>
      obtain rfl := at_.held_eq (by simp [Point.held])
      cases leads
      apply follows_loop c
      · exact fun _ => rfl
      · split_ifs
        · exact atPoint_held _ _
        · exact follows_vanishEnd
      · exact fun n => atPoint_held _ _
  | vanishReap c =>
      obtain rfl := at_.held_eq (by simp [Point.held])
      cases leads
      apply follows_loop c
      · exact fun _ => rfl
      · exact follows_vanishExit
      · exact fun n => follows_vanishFree n _
  | vanishParent =>
      obtain rfl := at_.held_eq (by simp [Point.held])
      simp only [Preempt.branch, Preempt.testParent] at leads
      split at leads
      · cases leads
        exact atPoint_held _ _
      · split_ifs at leads <;> cases leads <;> exact atPoint_held _ _
  | findInit c =>
      obtain rfl := at_.held_eq (by simp [Point.held])
      cases leads
      apply follows_loop c
      · exact fun _ => rfl
      · exact follows_vanishEnd
      · exact fun _ => follows_vanishWake 2
  | findWaiter c =>
      obtain rfl := at_.held_eq (by simp [Point.held])
      cases leads
      apply follows_loop c
      · exact fun _ => rfl
      · exact follows_vanishEnd
      · exact fun n => follows_vanishWake _
  | yieldTest tid =>
      obtain rfl := at_.held_eq (Set.notMem_empty _)
      simp only [Preempt.branch] at leads
      split_ifs at leads <;> cases leads
      · exact follows_value _
      · simp [Follows, AtPoint, Point.held]
      · simp [Follows, AtPoint, Point.held]
  | yieldBlocked tid c =>
      obtain rfl := at_.held_eq (by simp [Point.held])
      cases leads
      apply follows_loop c
      · exact fun _ => rfl
      · simp [Follows, AtPoint, Point.held]
      · simp [Follows, AtPoint, Point.held]
  | yieldSelf tid =>
      obtain rfl := at_.held_eq (by simp [Point.held])
      simp only [Preempt.branch] at leads
      split_ifs at leads <;> cases leads <;> simp [Follows, AtPoint, Point.held]
  | yieldRunnable tid c =>
      obtain rfl := at_.held_eq (by simp [Point.held])
      cases leads
      apply follows_loop c
      · exact fun _ => rfl
      · simp [Follows, AtPoint, Point.held]
      · simp [Follows, AtPoint, Point.held]
  | sleepTest ticks =>
      obtain rfl := at_.held_eq (Set.notMem_empty _)
      simp only [Preempt.branch] at leads
      split_ifs at leads <;> cases leads
      · exact follows_value _
      · exact follows_value _
      · simp [Follows, AtPoint, Point.held]
  | descheduleTest reject =>
      obtain rfl := at_.held_eq (Set.notMem_empty _)
      simp only [Preempt.branch] at leads
      split_ifs at leads <;> cases leads
      · simp [Follows, AtPoint, Point.held]
      · exact follows_value _
  | makeTest tid =>
      obtain rfl := at_.held_eq (Set.notMem_empty _)
      simp only [Preempt.branch] at leads
      split_ifs at leads <;> cases leads
      · exact follows_value _
      · simp [Follows, AtPoint, Point.held]
  | makeRunnable tid c =>
      obtain rfl := at_.held_eq (by simp [Point.held])
      cases leads
      apply follows_loop c
      · exact fun _ => rfl
      · simp [Follows, AtPoint, Point.held]
      · simp [Follows, AtPoint, Point.held]
  | makeBlocked tid c =>
      obtain rfl := at_.held_eq (by simp [Point.held])
      cases leads
      apply follows_loop c
      · exact fun _ => rfl
      · simp [Follows, AtPoint, Point.held]
      · exact fun n => follows_makeWake _
  | readlineTest len buf =>
      obtain rfl := at_.held_eq (Set.notMem_empty _)
      simp only [Preempt.branch] at leads
      split_ifs at leads <;> cases leads
      · exact follows_value _
      · exact follows_suspend _ _ rfl
      · exact follows_value _
  | readlineRead len =>
      obtain rfl := at_.held_eq (Set.notMem_empty _)
      cases leads
      split_ifs
      · exact follows_value _
      · exact atPoint_held _ _
  | printRead buf =>
      obtain rfl := at_.held_eq (by simp [Point.held])
      simp only [Preempt.branch] at leads
      split_ifs at leads
      cases leads
      exact atPoint_held _ _
  | printTest buf =>
      obtain rfl := at_.held_eq (by simp [Point.held])
      simp only [Preempt.branch] at leads
      split_ifs at leads with hbuf
      · cases leads
        simp [Follows, AtPoint, Point.held]
      · exact absurd (print buf rfl) hbuf

/-- **So does every call** from user mode. -/
theorem entry_follows (t : Nat) (e : Entry) :
    Follows t (e.pc t).next false ∅ (e.pc t).todo := by
  cases e with
  | print buf => simp [Entry.pc, Follows, AtPoint, Point.held]
  | vanish => simp [Entry.pc, Follows, AtPoint, Point.held]
  | setStatus status => simp [Entry.pc, Follows, AtPoint, Point.held]
  | _ => exact atPoint_held t _

/-! ## The discipline along runs -/

namespace Preempt

/-- **The state follows the discipline.** -/
structure Disciplined (s : Preempt) : Prop where
  /-- The code that each thread has still to run fits the mutexes it holds; the flag is right as
  long as the thread holds `deschedule_lock`. -/
  code : ∀ t, ∃ flag, Follows t (s.pc t).next flag (heldBy s.owner t) (s.pc t).todo ∧
    (flag = true → s.owner .deschedule = some t →
      (s.kernel.tcb t).state = .blocked ∧ t = s.current)
  /-- A thread that was switched away for good holds nothing. -/
  gone : ∀ t, (s.kernel.tcb t).state = .exit → t ≠ s.current → ∀ l, s.owner l ≠ some t

namespace Disciplined

variable {s s' : Preempt} {m : Move}

/-- A thread in user mode holds nothing. -/
theorem user (h : s.Disciplined) {t : Nat} (ht : (s.pc t).inUser = true) :
    heldBy s.owner t = ∅ := by
  obtain ⟨flag, hfollows, -⟩ := h.code t
  obtain ⟨out, hpc⟩ := Pc.eq_point_of_inUser ht
  rw [hpc] at hfollows
  exact AtPoint.held_eq hfollows (Set.notMem_empty _)

/-- **The discipline releases all locks.** -/
theorem locksReleased (h : s.Disciplined) : s.LocksReleased := by
  intro t ht l hl
  rcases ht with huser | ⟨hexit, hne⟩
  · have hmem : l ∈ heldBy s.owner t := hl
    rw [h.user huser] at hmem
    exact hmem
  · exact h.gone t hexit hne l hl

/-- What a call of `schedule` does to the mutexes of a thread. -/
theorem heldBy_schedule {tid : Int} (hs : s.schedule tid = some s') (t : Nat) :
    heldBy s'.owner t =
      if s.kernel.handsOver then heldBy s.owner t \ {.deschedule} else heldBy s.owner t := by
  obtain ⟨-, -, -, -, -, -, howner⟩ := schedule_spec hs
  rw [howner]
  split_ifs
  · exact heldBy_drop s.owner _ t
  · rfl

/-- A call of `schedule` takes mutexes away only. -/
theorem owner_of_schedule {tid : Int} (hs : s.schedule tid = some s') {l : Lock} {t : Nat}
    (hl : s'.owner l = some t) : s.owner l = some t := by
  have hmem : l ∈ heldBy s'.owner t := hl
  rw [heldBy_schedule hs] at hmem
  split_ifs at hmem
  · exact hmem.1
  · exact hmem

/-- A blocked thread that still holds `deschedule_lock` after a call of `schedule` goes on. -/
theorem stays_of_schedule {tid : Int} (hs : s.schedule tid = some s') {t : Nat}
    (hl : s'.owner .deschedule = some t) (state : (s.kernel.tcb t).state = .blocked)
    (current : t = s.current) : (s'.kernel.tcb t).state = .blocked ∧ t = s'.current := by
  obtain ⟨hk, -⟩ := schedule_spec hs
  have hidles : s.kernel.idles := by
    by_contra hidles
    have hhands : s.kernel.handsOver := by
      refine ⟨?_, hidles⟩
      rw [current] at state
      exact state
    have hmem : Lock.deschedule ∈ heldBy s'.owner t := hl
    rw [heldBy_schedule hs, if_pos hhands] at hmem
    exact hmem.2 rfl
  refine ⟨?_, current.trans (Kernel.schedule_idles hk hidles).symm⟩
  exact ((Kernel.switched_schedule hk).state_iff rfl (by decide) t).mpr state

/-- **A call of `schedule`**, when each thread's code fits what it holds afterwards. -/
theorem schedule {tid : Int} (hs : s.schedule tid = some s')
    (code : ∀ t, ∃ flag, Follows t (s.pc t).next flag (heldBy s'.owner t) (s.pc t).todo ∧
      (flag = true → s'.owner .deschedule = some t →
        (s.kernel.tcb t).state = .blocked ∧ t = s.current))
    (gone : ∀ t, (s.kernel.tcb t).state = .exit → t ≠ s.current → ∀ l, s.owner l ≠ some t)
    (exit : s'.current ≠ s.current → (s.kernel.tcb s.current).state = .exit →
      ∀ l, s.owner l ≠ some s.current) : s'.Disciplined := by
  obtain ⟨hk, hpc, -⟩ := schedule_spec hs
  refine ⟨fun t => ?_, fun t hexit hne l hl => ?_⟩
  · obtain ⟨flag, hfollows, hflag⟩ := code t
    refine ⟨flag, by rwa [hpc], fun hf hd => ?_⟩
    obtain ⟨hstate, hcurrent⟩ := hflag hf hd
    exact stays_of_schedule hs hd hstate hcurrent
  · have hexit' := ((Kernel.switched_schedule hk).state_iff rfl (by decide) t).mp hexit
    have hl' := owner_of_schedule hs hl
    by_cases ht : t = s.current
    · subst ht
      exact exit (fun e => hne e.symm) hexit' l hl'
    · exact gone t hexit' ht l hl'

/-- A call of `schedule` between two statements. -/
theorem switch (h : s.Disciplined) {tid : Int} (hs : s.schedule tid = some s')
    (exit : s'.current ≠ s.current → (s.kernel.tcb s.current).state = .exit →
      ∀ l, s.owner l ≠ some s.current) : s'.Disciplined := by
  refine schedule hs (fun t => ?_) h.gone exit
  obtain ⟨flag, hfollows, hflag⟩ := h.code t
  refine ⟨flag, ?_, fun hf hd => hflag hf (owner_of_schedule hs hd)⟩
  rw [heldBy_schedule hs]
  split_ifs
  · exact hfollows.lose
  · exact hfollows

/-- The call of `schedule` in a system call: a blocked thread leaves `deschedule_lock` behind. -/
theorem scheduleStmt (h : s.Disciplined) {tid : Int} {rest : List Stmt} {next : Point}
    (pc : s.pc s.current = ⟨.schedule tid :: rest, next⟩)
    (hs : (s.goto ⟨rest, next⟩).schedule tid = some s')
    (handOver : s.owner .deschedule = some s.current → ¬ s.kernel.idles)
    (exit : s'.current ≠ s.current → (s.kernel.tcb s.current).state = .exit →
      ∀ l, s.owner l ≠ some s.current) : s'.Disciplined := by
  refine schedule hs (fun t => ?_) h.gone exit
  by_cases ht : t = s.current
  · subst ht
    obtain ⟨flag, hfollows, hflag⟩ := h.code s.current
    rw [pc] at hfollows
    obtain ⟨hdrop, hrest⟩ := hfollows
    rw [goto_pc_self, heldBy_schedule hs]
    refine ⟨false, ?_, fun hf => absurd hf (by decide)⟩
    by_cases hhands : s.kernel.handsOver
    · rw [if_pos (show (s.goto _).kernel.handsOver from hhands)]
      exact hrest
    · -- it does not hold the mutex: it would be blocked, and `schedule` not return at once
      have hnot : .deschedule ∉ heldBy s.owner s.current := fun hmem =>
        hhands ⟨(hflag (hdrop hmem).1 hmem).1, handOver hmem⟩
      rw [if_neg (show ¬ (s.goto _).kernel.handsOver from hhands)]
      rwa [Set.sdiff_singleton_eq_self hnot] at hrest
  · obtain ⟨flag, hfollows, hflag⟩ := h.code t
    rw [goto_pc_of_ne _ _ ht]
    refine ⟨flag, ?_, fun hf hd => hflag hf (owner_of_schedule hs hd)⟩
    rw [heldBy_schedule hs]
    split_ifs
    · exact hfollows.lose
    · exact hfollows

/-- The current thread goes on, with the mutexes of the others unchanged or `deschedule_lock` taken
from them. -/
theorem advance (h : s.Disciplined) (pc : Pc) (flag : Bool) (hpc : s'.pc = (s.goto pc).pc)
    (current : s'.current = s.current)
    (mine : Follows s.current pc.next flag (heldBy s'.owner s.current) pc.todo)
    (blocked : flag = true → s'.owner .deschedule = some s.current →
      (s'.kernel.tcb s.current).state = .blocked)
    (others : ∀ t, t ≠ s.current → heldBy s'.owner t = heldBy s.owner t ∨
      heldBy s'.owner t = heldBy s.owner t \ {.deschedule})
    (exit : ∀ t, t ≠ s.current → (s'.kernel.tcb t).state = .exit → (s.kernel.tcb t).state = .exit) :
    s'.Disciplined := by
  refine ⟨fun t => ?_, fun t hexit hne l hl => ?_⟩
  · by_cases ht : t = s.current
    · subst ht
      rw [hpc, goto_pc_self]
      exact ⟨flag, mine, fun hf hd => ⟨blocked hf hd, current.symm⟩⟩
    · obtain ⟨flag', hfollows, hflag⟩ := h.code t
      rw [hpc, goto_pc_of_ne _ _ ht]
      rcases others t ht with heq | heq
      · rw [heq]
        refine ⟨flag', hfollows, fun hf hd => absurd (hflag hf ?_).2 ht⟩
        have hmem : Lock.deschedule ∈ heldBy s'.owner t := hd
        rwa [heq] at hmem
      · rw [heq]
        refine ⟨flag', hfollows.lose, fun _ hd => ?_⟩
        have hmem : Lock.deschedule ∈ heldBy s'.owner t := hd
        rw [heq] at hmem
        exact absurd rfl hmem.2
  · have ht : t ≠ s.current := fun e => hne (e.trans current.symm)
    refine h.gone t (exit t ht hexit) ht l ?_
    have hmem : l ∈ heldBy s'.owner t := hl
    rcases others t ht with heq | heq
    · rwa [heq] at hmem
    · rw [heq] at hmem
      exact hmem.1

/-- A free mutex is taken. -/
theorem lock (h : s.Disciplined) {l : Lock} {rest : List Stmt} {next : Point}
    (pc : s.pc s.current = ⟨.lock l :: rest, next⟩) (free : s.owner l = none) :
    ((s.goto ⟨rest, next⟩).setOwner l (some s.current)).Disciplined := by
  obtain ⟨flag, hfollows, hflag⟩ := h.code s.current
  rw [pc] at hfollows
  have hnot : l ∉ heldBy s.owner s.current := by
    rw [mem_heldBy, free]
    exact Option.some_ne_none _ ∘ Eq.symm
  have hself := heldBy_take_self s.owner l s.current
  apply h.advance ⟨rest, next⟩ (if l = .deschedule then false else flag)
  · rfl
  · rfl
  · show Follows _ _ _ (heldBy (Function.update s.owner l (some s.current)) s.current) _
    rw [hself]
    exact hfollows.2 hnot
  · intro hf hd
    split_ifs at hf with hl
    have hd' : Function.update s.owner l (some s.current) .deschedule = some s.current := hd
    rw [Function.update_of_ne fun e => hl e.symm] at hd'
    exact (hflag hf hd').1
  · exact fun t ht => Or.inl (heldBy_take_of_ne free ht)
  · exact fun t _ hexit => hexit

/-- A mutex is dropped. -/
theorem unlock (h : s.Disciplined) {l : Lock} {rest : List Stmt} {next : Point}
    (pc : s.pc s.current = ⟨.unlock l :: rest, next⟩) :
    ((s.goto ⟨rest, next⟩).setOwner l none).Disciplined := by
  obtain ⟨flag, hfollows, hflag⟩ := h.code s.current
  rw [pc] at hfollows
  apply h.advance ⟨rest, next⟩ flag
  · rfl
  · rfl
  · show Follows _ _ _ (heldBy (Function.update s.owner l none) s.current) _
    rw [heldBy_drop]
    exact hfollows.2
  · intro hf hd
    by_cases hl : l = .deschedule
    · have hd' : Function.update s.owner l none .deschedule = some s.current := hd
      rw [hl, Function.update_self] at hd'
      cases hd'
    · have hd' : Function.update s.owner l none .deschedule = some s.current := hd
      rw [Function.update_of_ne fun e => hl e.symm] at hd'
      exact (hflag hf hd').1
  · intro t ht
    by_cases hl : l = .deschedule
    · subst hl
      exact Or.inr (heldBy_drop s.owner _ t)
    · exact Or.inl (heldBy_drop_of_ne (hfollows.1 hl) ht)
  · exact fun t _ hexit => hexit

/-- A write. -/
theorem act (h : s.Disciplined) {a : Act} {rest : List Stmt} {next : Point}
    (pc : s.pc s.current = ⟨.act a :: rest, next⟩) :
    ((s.goto ⟨rest, next⟩).perform a).Disciplined := by
  obtain ⟨flag, hfollows, hflag⟩ := h.code s.current
  rw [pc] at hfollows
  obtain ⟨hpc, howner, hcurrent, -, -⟩ := (s.goto ⟨rest, next⟩).perform_frame a
  have hstate := perform_state (s.goto ⟨rest, next⟩) a
  have howner' : ((s.goto ⟨rest, next⟩).perform a).owner = s.owner := howner
  -- the flag after the write
  obtain ⟨flag', hfollows', hflag'⟩ : ∃ flag', Follows s.current next flag'
      (heldBy s.owner s.current) rest ∧ (flag' = true → s.owner .deschedule = some s.current →
        (((s.goto ⟨rest, next⟩).perform a).kernel.tcb s.current).state = .blocked) := by
    cases a with
    | setOwn st =>
        refine ⟨decide (st = .blocked), hfollows, fun hf _ => ?_⟩
        rw [hstate]
        dsimp only
        rw [goto_current, if_pos rfl]
        exact of_decide_eq_true hf
    | setRunnable w =>
        exact ⟨flag, hfollows.2, fun hf hd => absurd hd (hfollows.1 hf)⟩
    | _ => exact ⟨flag, hfollows, fun hf hd => (hstate _).trans (hflag hf hd).1⟩
  apply h.advance ⟨rest, next⟩ flag' hpc hcurrent
  · rw [howner']
    exact hfollows'
  · rw [howner']
    exact hflag'
  · intro t _
    rw [howner']
    exact Or.inl rfl
  · intro t ht hexit
    rw [hstate] at hexit
    cases a with
    | setOwn st =>
        dsimp only at hexit
        rwa [goto_current, if_neg ht] at hexit
    | setRunnable w =>
        dsimp only at hexit
        split_ifs at hexit
        exact hexit
    | _ => exact hexit

/-- The current thread goes on at code that fits what it holds. -/
theorem goto (h : s.Disciplined) {pc : Pc}
    (mine : Follows s.current pc.next false (heldBy s.owner s.current) pc.todo) :
    (s.goto pc).Disciplined := by
  apply h.advance pc false
  · rfl
  · rfl
  · exact mine
  · exact fun hf => absurd hf (by decide)
  · exact fun t _ => Or.inl rfl
  · exact fun t _ hexit => hexit

/-- **The discipline is kept** by the steps that release safely. -/
theorem step (h : s.Disciplined) (hs : s.Step m s') (safe : s.ReleasesSafely m) :
    s'.Disciplined := by
  have hexit := safe.exit s' hs
  cases hs.happens with
  | tick => exact ⟨h.code, h.gone⟩
  | @timer n _ hswitch =>
      have hcount : (s.withKernel { s.kernel with numTicks := n }).Disciplined := ⟨h.code, h.gone⟩
      exact hcount.switch hswitch hexit
  | preempt hswitch => exact h.switch hswitch hexit
  | contend _ _ _ hswitch => exact h.switch hswitch hexit
  | lock _ pc free => exact h.lock pc free
  | unlock _ pc => exact h.unlock pc
  | schedule _ pc hswitch =>
      exact h.scheduleStmt pc hswitch (safe.handOver rfl _ _ _ pc) hexit
  | act _ pc => exact h.act pc
  | test _ pc leads =>
      obtain ⟨flag, hfollows, -⟩ := h.code s.current
      rw [pc] at hfollows
      apply h.goto
      refine branch_follows leads hfollows fun buf hbuf => safe.print rfl buf ?_
      rw [pc, hbuf]
      rfl
  | enter user =>
      apply h.goto
      rw [h.user user.1]
      exact entry_follows s.current _
  | store => exact ⟨h.code, h.gone⟩
  | remap => exact ⟨h.code, h.gone⟩

/-- `sys_print` leaves `print_lock` behind when its buffer is bad. -/
theorem print_of_released (h : s.Disciplined) (hs : s.Step .run s') (released : s'.LocksReleased)
    {buf : Nat} (pc : s.pc s.current = Pc.point (.printTest buf)) :
    Kernel.isUserAddr buf = true ∧ s.mapped s.kernel.currentPcb buf = true := by
  by_contra hbuf
  obtain ⟨flag, hfollows, -⟩ := h.code s.current
  rw [pc] at hfollows
  have hprint : s.owner .print = some s.current := (hfollows.1 .print (by decide)).mpr rfl
  have hleads : s.branch (.printTest buf) = some (Pc.value (-1)) := if_pos hbuf
  have hs' : s' = s.goto (Pc.value (-1)) := by
    have hrun : s.run = some s' := hs
    unfold run at hrun
    split_ifs at hrun
    rw [pc] at hrun
    simp only [Pc.point, hleads, Option.map_some] at hrun
    exact (Option.some.inj hrun).symm
  subst hs'
  refine released s.current (Or.inl ?_) .print hprint
  rw [goto_pc_self]
  rfl

/-- Thread 1 leaves `deschedule_lock` behind when its call of `schedule` returns at once. -/
theorem handOver_of_released (h : s.Disciplined) (hs : s.Step .run s')
    (released : s'.LocksReleased) {tid : Int} {rest : List Stmt} {next : Point}
    (pc : s.pc s.current = ⟨.schedule tid :: rest, next⟩)
    (hd : s.owner .deschedule = some s.current) : ¬ s.kernel.idles := by
  intro hidles
  obtain ⟨flag, hfollows, -⟩ := h.code s.current
  rw [pc] at hfollows
  have huser : (Pc.mk rest next).inUser = true := (hfollows.1 hd).2
  have hswitch : (s.goto ⟨rest, next⟩).schedule tid = some s' := by
    have hrun : s.run = some s' := hs
    unfold run at hrun
    split_ifs at hrun
    rw [pc] at hrun
    exact hrun
  obtain ⟨hk, hpc, -⟩ := schedule_spec hswitch
  have hkept : heldBy s'.owner s.current = heldBy s.owner s.current := by
    rw [heldBy_schedule hswitch, if_neg fun hhands => hhands.2 hidles]
    rfl
  have hleft : Lock.deschedule ∈ heldBy s'.owner s.current := by
    rw [hkept]
    exact hd
  refine released s.current (Or.inl ?_) .deschedule hleft
  rw [hpc, goto_pc_self]
  exact huser

/-- A thread that exits and is switched away with a mutex leaves it behind. -/
theorem exit_of_released (hs : s.Step m s') (released : s'.LocksReleased)
    (hne : s'.current ≠ s.current) (hexit : (s.kernel.tcb s.current).state = .exit) (l : Lock) :
    s.owner l ≠ some s.current := by
  intro hl
  -- the mutexes of a thread that is not blocked stay its own
  have left : ∀ (s0 : Preempt) (tid : Int), s0.schedule tid = some s' → s0.owner = s.owner →
      (s0.kernel.tcb s.current).state = .exit → s0.current = s.current → False := by
    intro s0 tid hswitch howner hexit0 hcurrent
    obtain ⟨hk, -⟩ := schedule_spec hswitch
    have hhands : ¬ s0.kernel.handsOver := by
      rintro ⟨hblocked, -⟩
      rw [show s0.kernel.currentThread = s.current from hcurrent, hexit0] at hblocked
      cases hblocked
    have hkept : heldBy s'.owner s.current = heldBy s.owner s.current := by
      rw [heldBy_schedule hswitch, if_neg hhands, howner]
    have hstate := ((Kernel.switched_schedule hk).state_iff rfl (by decide) s.current).mpr hexit0
    have hleft : l ∈ heldBy s'.owner s.current := by
      rw [hkept]
      exact hl
    exact released s.current (Or.inr ⟨hstate, Ne.symm hne⟩) l hleft
  cases hs.happens with
  | timer hswitch => exact left _ _ hswitch rfl hexit rfl
  | preempt hswitch => exact left _ _ hswitch rfl hexit rfl
  | contend _ _ _ hswitch => exact left _ _ hswitch rfl hexit rfl
  | schedule _ _ hswitch => exact left _ _ hswitch rfl hexit rfl
  | act => exact hne (perform_frame _ _).2.2.1
  | _ => exact hne rfl

/-- **A step that releases all locks releases safely.** -/
theorem releasesSafely (h : s.Disciplined) (hs : s.Step m s') (released : s'.LocksReleased) :
    s.ReleasesSafely m where
  print hm buf pc := by
    subst hm
    exact h.print_of_released hs released pc
  handOver hm tid rest next pc hd := by
    subst hm
    exact h.handOver_of_released hs released pc hd
  exit s'' hs'' hne hexit l := by
    obtain rfl : s' = s'' := Option.some.inj (hs.symm.trans hs'')
    exact exit_of_released hs released hne hexit l

end Disciplined

/-- At the start no mutex is held and no thread is at a point where it should hold one. -/
theorem disciplined_start (k : Kernel) (word : Nat → Nat → Int) (mapped : Nat → Nat → Bool) :
    (start k word mapped).Disciplined := by
  refine ⟨fun t => ⟨false, ?_, fun hf => absurd hf (by decide)⟩, fun t _ _ l hl => ?_⟩
  · have hnone : heldBy (start k word mapped).owner t = ∅ := by
      ext l
      constructor
      · intro hl
        cases hl
      · exact fun hl => absurd hl (Set.notMem_empty l)
    rw [hnone]
    show Follows t (k.tcb t).resume.pc.next false ∅ (k.tcb t).resume.pc.todo
    cases (k.tcb t).resume with
    | userMode => exact atPoint_held t _
    | wait statusPtr => exact atPoint_held t _
  · cases hl

/-! ## All calls, along every run -/

end Preempt

end Pebbles
