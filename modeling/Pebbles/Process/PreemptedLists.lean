import Pebbles.Process.ListSeparation
import Pebbles.Process.Switching

/-! # The lists stay apart between statements

A thread inside `sys_vanish` holds a local list header and a loop variable that point into the
thread list of its process, while other threads move nodes about. Whatever the queues have come to,
these pointers keep to the threads of that process: `sys_vanish` never frees a thread of another
one. -/

namespace Pebbles

open DoublyLinked Transition

/-! ## The pointers that code holds -/

/-- The writes that need a node of the right kind. -/
def Act.plain : Act → Bool
  | .insertRunnable _ | .freeThread _ | .setExit => false
  | _ => true

/-- The loop variable of the two loops over the local thread list. -/
def Point.peer : Point → Option NodePtr
  | .vanishCount _ c | .vanishReap c => c.node
  | _ => none

/-- **Tidy code** of thread `t`: it inserts queue nodes only, frees other threads of its own process
only, and does so, and exits, in its place in `sys_vanish`. -/
structure Pc.Tidy (k : Kernel) (t : Nat) (pc : Pc) : Prop where
  /-- What goes on the runnable queue is a queue node. -/
  insert : ∀ n, .act (.insertRunnable n) ∈ pc.todo → ∃ w, n = threadListNode w
  /-- Whoever is freed is another thread of the same process. -/
  free : ∀ w, .act (.freeThread w) ∈ pc.todo →
    (k.tcb w).pcb = (k.tcb t).pcb ∧ w ≠ t ∧ ∃ c, pc.next = .vanishReap c
  /-- The process exits before its parent is tested. -/
  exit : .act .setExit ∈ pc.todo → pc.next = .vanishParent
  /-- The loop variable points into the thread list of the process. -/
  peer : ∀ n, pc.next.peer = some n → k.nodeClass n = (.peerThreads, (k.tcb t).pcb)

namespace Pc.Tidy

variable {k k' : Kernel} {t : Nat} {pc : Pc}

/-- A statement is executed. -/
theorem tail {stmt : Stmt} {rest : List Stmt} {next : Point} (h : Tidy k t ⟨stmt :: rest, next⟩) :
    Tidy k t ⟨rest, next⟩ where
  insert n hn := h.insert n (List.mem_cons_of_mem _ hn)
  free w hw := h.free w (List.mem_cons_of_mem _ hw)
  exit hexit := h.exit (List.mem_cons_of_mem _ hexit)
  peer := h.peer

/-- Only the processes of the threads matter. -/
theorem congr (h : Tidy k t pc) (owner : ∀ s, (k'.tcb s).pcb = (k.tcb s).pcb) : Tidy k' t pc where
  insert := h.insert
  free w hw := by
    rw [owner, owner]
    exact h.free w hw
  exit := h.exit
  peer n hn := by
    rw [Kernel.nodeClass_congr owner, owner]
    exact h.peer n hn

/-- Plain code that goes on at a point outside the two loops. -/
theorem of_plain (todo : ∀ a, .act a ∈ pc.todo → a.plain = true) (peer : pc.next.peer = none) :
    Tidy k t pc where
  insert n hn := by cases todo _ hn
  free w hw := by cases todo _ hw
  exit hexit := by cases todo _ hexit
  peer n hn := by
    rw [peer] at hn
    cases hn

end Pc.Tidy

/-! ## The invariant -/

namespace Preempt

/-- **The lists are apart**, with the pointers that threads hold. -/
structure Separated (s : Preempt) : Prop where
  /-- The lists of the kernel. -/
  kernel : s.kernel.Separated
  /-- The local headers. -/
  threads : ∀ t, Names s.kernel.nodeClass (.peerThreads, (s.kernel.tcb t).pcb) (s.threads t)
  /-- The code that each thread has still to run. -/
  code : ∀ t, (s.pc t).Tidy s.kernel t

/-- No write changes the process of a thread. -/
theorem perform_owner (s : Preempt) (a : Act) (t : Nat) :
    ((s.perform a).kernel.tcb t).pcb = (s.kernel.tcb t).pcb := by
  cases a with
  | setOwn st => exact s.kernel.setState_pcb _ t st
  | setRunnable w => exact s.kernel.setState_pcb w t _
  | setSleep ticks =>
      show (Function.update s.kernel.tcb s.current _ t).pcb = _
      by_cases ht : t = s.current
      · subst ht
        rw [Function.update_self]
      · rw [Function.update_of_ne ht]
  | _ => rfl

/-- **A round of a loop over a list of one class** keeps its variable in the class. -/
theorem loop_class {s : Preempt} {l : Header NodePtr} {c : NodeField × Nat} {cur : Cursor}
    (here : Cursor → Point) (done : Pc) (body : NodePtr → Option Pc)
    (links : Closed s.kernel.nodeClass s.kernel.links) (hl : Names s.kernel.nodeClass c l)
    (hcur : ∀ n, cur.node = some n → s.kernel.nodeClass n = c) :
    (∃ cur', s.loop l here done body cur = Pc.point (here cur') ∧
      ∀ n, cur'.node = some n → s.kernel.nodeClass n = c) ∨
      s.loop l here done body cur = done ∨
      ∃ n pc, cur.node = some n ∧ body n = some pc ∧ s.loop l here done body cur = pc := by
  cases cur with
  | start => exact Or.inl ⟨_, rfl, fun n hn => hl n (Or.inl hn)⟩
  | after n =>
      refine Or.inl ⟨_, rfl, fun y hy => ?_⟩
      rw [links n y (Or.inr hy)]
      exact hcur n rfl
  | «at» n =>
      cases n with
      | none => exact Or.inr (Or.inl rfl)
      | some n =>
          cases hbody : body n with
          | none => exact Or.inl ⟨.after n, by simp [loop, hbody], fun y hy => hcur y hy⟩
          | some pc => exact Or.inr (Or.inr ⟨n, pc, rfl, hbody, by simp [loop, hbody]⟩)

/-- A round of any other loop leads to tidy code when its end and its body do. -/
theorem loop_tidy {s : Preempt} {l : Header NodePtr} {here : Cursor → Point} {done : Pc}
    {body : NodePtr → Option Pc} (cur : Cursor) (stays : ∀ c, (here c).peer = none)
    (ends : done.Tidy s.kernel s.current)
    (hits : ∀ n pc, body n = some pc → pc.Tidy s.kernel s.current) :
    (s.loop l here done body cur).Tidy s.kernel s.current := by
  rcases s.loop_cases l here done body cur with ⟨c', heq⟩ | ⟨-, heq⟩ | ⟨n, pc, -, hbody, heq⟩
  · rw [heq]
    exact Pc.Tidy.of_plain (by simp [Pc.point]) (stays c')
  · rw [heq]
    exact ends
  · rw [heq]
    exact hits n pc hbody

/-- The end of `sys_vanish` is tidy, with or without a wake-up. -/
theorem tidy_vanishEnd (k : Kernel) (t : Nat) :
    Pc.Tidy k t ⟨vanishEnd t, .user Out.quiet⟩ := by
  apply Pc.Tidy.of_plain
  · simp [vanishEnd, Act.plain]
  · rfl

theorem tidy_vanishWake (k : Kernel) (t w : Nat) :
    Pc.Tidy k t ⟨vanishWake w ++ vanishEnd t, .user Out.quiet⟩ where
  insert n hn := ⟨w, by simpa [vanishWake, vanishEnd] using hn⟩
  free v hv := by simp [vanishWake, vanishEnd] at hv
  exit hexit := by simp [vanishWake, vanishEnd] at hexit
  peer n hn := by cases hn

/-- `sys_make_runnable` is tidy when it wakes a thread. -/
theorem tidy_makeWake (k : Kernel) (t w : Nat) :
    Pc.Tidy k t ⟨makeWake w, .user (Out.value 0)⟩ where
  insert n hn := ⟨w, by simpa [makeWake] using hn⟩
  free v hv := by simp [makeWake] at hv
  exit hexit := by simp [makeWake] at hexit
  peer n hn := by cases hn

/-- **Every test leads to tidy code.** -/
theorem Separated.branch {s : Preempt} (h : s.Separated) {x : Point} {pc : Pc}
    (leads : s.branch x = some pc) (hpc : s.pc s.current = ⟨[], x⟩) :
    pc.Tidy s.kernel s.current := by
  have hcode := h.code s.current
  rw [hpc] at hcode
  have hpeer := hcode.peer
  cases x with
  | user out => cases leads
  | vanishCount live c =>
      cases leads
      rcases loop_class (.vanishCount live) _ _ h.kernel.links (h.threads s.current) hpeer with
        ⟨c', heq, hc'⟩ | heq | ⟨n, pc, hn, hbody, heq⟩
      · rw [heq]
        exact ⟨by simp [Pc.point], by simp [Pc.point], by simp [Pc.point], hc'⟩
      · rw [heq]
        split_ifs
        · exact Pc.Tidy.of_plain (by simp [Pc.point]) rfl
        · exact tidy_vanishEnd _ _
      · rw [heq]
        split_ifs at hbody
        cases hbody
        refine ⟨by simp [Pc.point], by simp [Pc.point], by simp [Pc.point], fun y hy => ?_⟩
        obtain rfl : n = y := Option.some.inj hy
        exact hpeer n hn
  | vanishReap c =>
      cases leads
      rcases loop_class .vanishReap _ _ h.kernel.links (h.threads s.current) hpeer with
        ⟨c', heq, hc'⟩ | heq | ⟨n, pc, hn, hbody, heq⟩
      · rw [heq]
        exact ⟨by simp [Pc.point], by simp [Pc.point], by simp [Pc.point], hc'⟩
      · rw [heq]
        exact ⟨by simp [vanishExit], by simp [vanishExit], fun _ => rfl, nofun⟩
      · rw [heq]
        split_ifs at hbody with hother
        cases hbody
        have hclass := hpeer n hn
        refine ⟨by simp [vanishFree], fun w hw => ?_, by simp [vanishFree], fun y hy => ?_⟩
        · obtain rfl : w = listEntry n := by simpa [vanishFree] using hw
          exact ⟨(Kernel.eq_peerThreadsNode hclass).2, hother, _, rfl⟩
        · obtain rfl : n = y := Option.some.inj hy
          exact hclass
  | vanishParent =>
      simp only [Preempt.branch, testParent] at leads
      split at leads
      · cases leads
        exact Pc.Tidy.of_plain (by simp [Pc.point]) rfl
      · split_ifs at leads <;> cases leads <;>
          exact Pc.Tidy.of_plain (by simp [Pc.point]) rfl
  | findInit c =>
      cases leads
      apply loop_tidy c
      · exact fun _ => rfl
      · exact tidy_vanishEnd _ _
      · intro n pc hbody
        split_ifs at hbody
        cases hbody
        exact tidy_vanishWake _ _ _
  | findWaiter c =>
      cases leads
      apply loop_tidy c
      · exact fun _ => rfl
      · exact tidy_vanishEnd _ _
      · intro n pc hbody
        split_ifs at hbody
        cases hbody
        exact tidy_vanishWake _ _ _
  | makeBlocked tid c =>
      cases leads
      apply loop_tidy c
      · exact fun _ => rfl
      · exact Pc.Tidy.of_plain (by simp) rfl
      · intro n pc hbody
        split_ifs at hbody
        cases hbody
        exact tidy_makeWake _ _ _
  | waitScan statusPtr again c =>
      simp only [Preempt.branch, scanChildren] at leads
      split at leads
      · cases leads
      · cases leads
        apply loop_tidy c
        · exact fun _ => rfl
        · cases again
          · exact Pc.Tidy.of_plain (by simp [suspend, Act.plain]) rfl
          · exact Pc.Tidy.of_plain (by simp [Pc.value]) rfl
        · intro n pc hbody
          split_ifs at hbody <;> cases hbody <;>
            exact Pc.Tidy.of_plain (by simp [waitReap, Act.plain]) rfl
  | yieldBlocked tid c =>
      cases leads
      apply loop_tidy c
      · exact fun _ => rfl
      · exact Pc.Tidy.of_plain (by simp) rfl
      · intro n pc hbody
        split_ifs at hbody
        cases hbody
        exact Pc.Tidy.of_plain (by simp) rfl
  | yieldRunnable tid c =>
      cases leads
      apply loop_tidy c
      · exact fun _ => rfl
      · exact Pc.Tidy.of_plain (by simp) rfl
      · intro n pc hbody
        split_ifs at hbody
        cases hbody
        exact Pc.Tidy.of_plain (by simp) rfl
  | makeRunnable tid c =>
      cases leads
      apply loop_tidy c
      · exact fun _ => rfl
      · exact Pc.Tidy.of_plain (by simp) rfl
      · intro n pc hbody
        split_ifs at hbody
        cases hbody
        exact Pc.Tidy.of_plain (by simp) rfl
  | readlineRead len =>
      cases leads
      split_ifs
      · exact Pc.Tidy.of_plain (by simp [Pc.value]) rfl
      · exact Pc.Tidy.of_plain (by simp [Pc.point]) rfl
  | _ =>
      simp only [Preempt.branch] at leads
      split_ifs at leads <;> cases leads <;>
        exact Pc.Tidy.of_plain (by simp [Pc.value, Pc.point, suspend, Act.plain]) rfl

/-- So does every call from user mode. -/
theorem tidy_entry (k : Kernel) (t : Nat) (e : Entry) : (e.pc t).Tidy k t := by
  cases e <;> exact Pc.Tidy.of_plain (by simp [Entry.pc, Pc.point, Act.plain]) rfl

/-! ## Every step -/

namespace Separated

variable {s s' : Preempt} {m : Move}

/-- The current thread goes on at tidy code. -/
theorem goto (h : s.Separated) {pc : Pc} (tidy : pc.Tidy s.kernel s.current) :
    (s.goto pc).Separated := by
  refine ⟨h.kernel, h.threads, fun t => ?_⟩
  by_cases ht : t = s.current
  · subst ht
    rw [goto_pc_self]
    exact tidy
  · rw [goto_pc_of_ne _ _ ht]
    exact h.code t

/-- It leaves a statement behind. -/
theorem goto_tail (h : s.Separated) {stmt : Stmt} {rest : List Stmt} {next : Point}
    (pc : s.pc s.current = ⟨stmt :: rest, next⟩) : (s.goto ⟨rest, next⟩).Separated := by
  apply h.goto
  have hcode := h.code s.current
  rw [pc] at hcode
  exact hcode.tail

/-- Writes that change the kernel state and one local header at most. -/
theorem rewrite (h : s.Separated) (kernel : s'.kernel.Separated)
    (owner : ∀ t, (s'.kernel.tcb t).pcb = (s.kernel.tcb t).pcb) (pc : s'.pc = s.pc)
    (threads : ∀ t, s'.threads t = s.threads t ∨
      Names s.kernel.nodeClass (.peerThreads, (s.kernel.tcb t).pcb) (s'.threads t)) :
    s'.Separated := by
  refine ⟨kernel, fun t => ?_, fun t => ?_⟩
  · rw [Kernel.nodeClass_congr owner, owner]
    rcases threads t with heq | hnames
    · rw [heq]
      exact h.threads t
    · exact hnames
  · rw [pc]
    exact (h.code t).congr owner

/-- A call of `schedule`. -/
theorem schedule (h : s.Separated) {tid : Int} (hs : s.schedule tid = some s') :
    s'.Separated := by
  obtain ⟨hk, hpc, hthreads, -⟩ := schedule_spec hs
  apply h.rewrite (h.kernel.schedule hk) (Kernel.switched_schedule hk).owner hpc
  intro t
  rw [hthreads]
  exact Or.inl rfl

/-- **A write**, which is the next statement of the current thread. -/
theorem perform (h : s.Separated) {a : Act}
    (insert : ∀ n, a = .insertRunnable n → ∃ w, n = threadListNode w) :
    (s.perform a).Separated := by
  have local_ : ∀ hd : Header NodePtr,
      Names s.kernel.nodeClass (.peerThreads, s.kernel.currentPcb) hd → ∀ t,
      Function.update s.threads s.current hd t = s.threads t ∨
        Names s.kernel.nodeClass (.peerThreads, (s.kernel.tcb t).pcb)
          (Function.update s.threads s.current hd t) := by
    intro hd hhd t
    by_cases ht : t = s.current
    · subst ht
      rw [Function.update_self]
      exact Or.inr hhd
    · rw [Function.update_of_ne ht]
      exact Or.inl rfl
  refine h.rewrite (?_ : (s.perform a).kernel.Separated) ?_ ?_ ?_
  · cases a with
    | setOwn st => exact h.kernel.setState _ st
    | setRunnable w => exact h.kernel.setState w _
    | setSleep ticks => exact h.kernel.setTcb rfl
    | setReturn status => exact h.kernel.setPcb rfl rfl
    | deleteBlocked n => exact h.kernel.deleteBlocked n
    | deleteRunnable n => exact h.kernel.deleteRunnable n
    | insertRunnable n =>
        obtain ⟨w, rfl⟩ := insert n rfl
        exact h.kernel.insertRunnable w
    | copyThreads => exact h.kernel
    | unlinkPeer n => exact h.kernel.deleteLocal (h.threads s.current) n
    | freeThread w => exact h.kernel.withCounters _ _ _ _ _ _
    | setExit => exact h.kernel.setPcb rfl rfl
    | deleteProcess => exact h.kernel.deleteProcess _
    | unlinkChild c => exact h.kernel.unlinkChild _ _ rfl rfl
    | countDown => exact h.kernel.setPcb rfl rfl
    | freeDirectory c => exact h.kernel
    | freeProcess c => exact h.kernel.withCounters _ _ _ _ _ _
  · exact s.perform_owner a
  · exact (s.perform_frame a).1
  · cases a with
    | copyThreads => exact local_ _ (h.kernel.threads _)
    | unlinkPeer n => exact local_ _ (h.kernel.links.delete (h.threads s.current)).2
    | _ => exact fun t => Or.inl rfl

/-- **Every step keeps the lists apart.** -/
theorem step (h : s.Separated) (hs : s.Step m s') : s'.Separated := by
  have count : ∀ n, (s.withKernel { s.kernel with numTicks := n }).Separated := by
    intro n
    exact h.rewrite (h.kernel.withCounters _ _ _ _ _ _) (fun _ => rfl) rfl fun _ => Or.inl rfl
  cases hs.happens with
  | tick => exact count _
  | timer switch => exact (count _).schedule switch
  | preempt switch => exact h.schedule switch
  | contend _ _ _ switch => exact h.schedule switch
  | lock _ pc _ =>
      have hnext := h.goto_tail pc
      exact ⟨hnext.kernel, hnext.threads, hnext.code⟩
  | unlock _ pc =>
      have hnext := h.goto_tail pc
      exact ⟨hnext.kernel, hnext.threads, hnext.code⟩
  | schedule _ pc switch => exact (h.goto_tail pc).schedule switch
  | act _ pc =>
      apply (h.goto_tail pc).perform
      rintro n rfl
      have hcode := h.code s.current
      rw [pc] at hcode
      exact hcode.insert n List.mem_cons_self
  | test _ pc leads => exact h.goto (h.branch leads pc)
  | enter _ => exact h.goto (tidy_entry _ _ _)
  | store => exact ⟨h.kernel, h.threads, h.code⟩
  | remap => exact ⟨h.kernel, h.threads, h.code⟩

end Separated

/-- No step changes the process of a thread. -/
theorem Step.owner {s s' : Preempt} {m : Move} (hs : s.Step m s') (t : Nat) :
    (s'.kernel.tcb t).pcb = (s.kernel.tcb t).pcb := by
  cases hs.happens with
  | timer switch => exact (Kernel.switched_schedule (schedule_spec switch).1).owner t
  | preempt switch => exact (Kernel.switched_schedule (schedule_spec switch).1).owner t
  | contend _ _ _ switch => exact (Kernel.switched_schedule (schedule_spec switch).1).owner t
  | schedule _ _ switch => exact (Kernel.switched_schedule (schedule_spec switch).1).owner t
  | act => exact perform_owner _ _ t
  | _ => rfl

/-- Nor does one along a run. -/
theorem Run.owner {s s' : Preempt} {moves : List Move} (run : Run Step s moves s') (t : Nat) :
    (s'.kernel.tcb t).pcb = (s.kernel.tcb t).pcb := by
  apply run.invariant (I := fun u => (u.kernel.tcb t).pcb = (s.kernel.tcb t).pcb) rfl
  exact fun u m v hu hstep => (hstep.owner t).trans hu

/-- At the start no thread holds a pointer into a list. -/
theorem separated_start {k : Kernel} (h : k.Separated) (word : Nat → Nat → Int)
    (mapped : Nat → Nat → Bool) : (start k word mapped).Separated where
  kernel := h
  threads _ := names_listInit _ _
  code t := by
    show Pc.Tidy k t (k.tcb t).resume.pc
    cases (k.tcb t).resume with
    | userMode => exact Pc.Tidy.of_plain (by simp [Resume.pc, Pc.point]) rfl
    | wait statusPtr => exact Pc.Tidy.of_plain (by simp [Resume.pc, Pc.point]) rfl

end Preempt

end Pebbles
