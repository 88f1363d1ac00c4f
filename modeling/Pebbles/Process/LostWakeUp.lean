import Pebbles.Process.PreemptedLists

/-! # Wake-ups between `wait` and `vanish`

`sys_wait` scans the children, assigns `THREAD_WAITING` and calls `schedule`; `sys_vanish` makes its
process a zombie and then looks for a waiting thread of the parent. The two calls share no mutex.
A thread of the child is *bound to look* at the parent's thread as long as it has not passed it in
its search; a wake-up is lost when the parent's thread assigns `THREAD_WAITING` and no thread of a
zombie is bound to look at it any more. -/

namespace Pebbles

open DoublyLinked Transition

/-! ## The property -/

/-- The thread `t` has a place: it runs, or is in one of the two queues. -/
def Kernel.InPlace (k : Kernel) (t : Nat) : Prop :=
  t = k.currentThread ∨ t ∈ k.members k.runnableQueue ∨ t ∈ k.members k.blockedQueue

/-- **A thread alone**: it has a place, and is the only thread ever created for its process. -/
structure Kernel.Alone (k : Kernel) (t : Nat) : Prop where
  /-- It has a place. -/
  place : k.InPlace t
  /-- Its process has had no other thread. -/
  only : k.threadsOf (k.tcb t).pcb = [t]

/-- The loops of `sys_vanish` and the test between them. -/
def Point.inVanish : Point → Bool
  | .vanishCount _ _ | .vanishReap _ | .vanishParent | .findInit _ | .findWaiter _ => true
  | _ => false

/-- The thread is inside `sys_vanish` of the last thread, and has yet to run the wake-up loop to the
assignment of `THREAD_RUNNABLE` in it. -/
def Pc.BeforeWakeUp (pc : Pc) : Prop :=
  match pc.next with
  | .vanishReap _ | .vanishParent | .findInit _ | .findWaiter _ => True
  | .user out => out = Out.quiet ∧ ∃ w, .act (.setRunnable w) ∈ pc.todo
  | _ => False

/-- The thread is bound to look at the state of `t`, the first thread of the parent, or has found
that `t` waits and is about to make it runnable. -/
def Pc.BoundToLook (t : Nat) (pc : Pc) : Prop :=
  match pc.next with
  | .vanishReap _ | .vanishParent => True
  | .findWaiter c => c = .at (some (peerThreadsNode t))
  | .user out => out = Out.quiet ∧ .act (.setRunnable t) ∈ pc.todo
  | _ => False

namespace Preempt

/-- `c` is a child of `p` that has exited and is not reaped. -/
def Zombie (s : Preempt) (p c : Nat) : Prop :=
  (s.kernel.pcb c).parent = some p ∧ (s.kernel.pcb c).state = .exit ∧ c ∉ s.kernel.freedPcb

/-- **A lost wake-up**: `t` is in `blocked_queue` in state `THREAD_WAITING`, some child is a zombie,
and no thread of that child has yet to run the wake-up loop. -/
def LosesWakeUp (s : Preempt) (t : Nat) : Prop :=
  t ∈ s.kernel.members s.kernel.blockedQueue ∧ (s.kernel.tcb t).state = .waiting ∧
    ∃ c, s.Zombie (s.kernel.tcb t).pcb c ∧
      ∀ x, (s.kernel.tcb x).pcb = c → x ∉ s.kernel.freedTcb → ¬ (s.pc x).BeforeWakeUp

/-- The thread `t` does not vanish. -/
def Stays (t : Nat) (s : Preempt) (m : Move) : Prop := m = .enter .vanish → s.current ≠ t

/-- **In time**: when `t` assigns `THREAD_WAITING`, each zombie has a thread that is bound to look
at `t`. -/
def WaitsInTime (t : Nat) (s : Preempt) (m : Move) : Prop :=
  m = .run → s.current = t →
    (∃ rest next, s.pc t = ⟨.act (.setOwn .waiting) :: rest, next⟩) →
      ∀ c, s.Zombie (s.kernel.tcb t).pcb c →
        ∃ x, (s.kernel.tcb x).pcb = c ∧ x ∉ s.kernel.freedTcb ∧ (s.pc x).BoundToLook t

end Preempt

/-- The threads in place have the places of the machine. -/
theorem Refines.inPlace_iff {k : Kernel} {m : Machine} (href : Refines k m) (wf : m.Wf) (t : Nat) :
    k.InPlace t ↔ t ∈ m.places := by
  rw [Kernel.InPlace, href.members_runnable wf.queues, href.members_blocked wf.queues, href.current,
    Machine.places, List.mem_cons, List.mem_append]

/-- A thread alone is the only one of its process. -/
theorem Kernel.Alone.eq_of_owner {k : Kernel} {t : Nat} (alone : k.Alone t) {as : List Action}
    (reach : Kernel.Reaches as k) {x : Nat} (hx : (k.tcb x).pcb = (k.tcb t).pcb) : x = t := by
  obtain ⟨m, ⟨href, wf⟩, manned⟩ := reach.manned
  have hplace := (href.inPlace_iff wf t).mp alone.place
  have honly := alone.only
  rw [href.threadsOf, href.tcb] at honly
  rw [href.tcb] at hx
  by_cases hlt : x < m.nextTid
  · have hmem : x ∈ m.threadsOf (m.tcb t).pcb := Machine.mem_threadsOf.mpr ⟨hlt, hx⟩
    rw [honly] at hmem
    exact List.mem_singleton.mp hmem
  -- an unused control block names no process
  · rw [manned.unused x (Nat.le_of_not_lt hlt)] at hx
    exact absurd hx.symm (manned.owned t hplace)

/-! ## Threads that are bound to look -/

/-- In user mode no thread has a wake-up loop ahead. -/
theorem Pc.not_beforeWakeUp_user (out : Out) : ¬ (Pc.point (.user out)).BeforeWakeUp := by
  rintro ⟨-, w, hw⟩
  cases hw

/-- Whoever is bound to look has yet to run the loop. -/
theorem Pc.BoundToLook.beforeWakeUp {t : Nat} {pc : Pc} (h : pc.BoundToLook t) :
    pc.BeforeWakeUp := by
  obtain ⟨todo, next⟩ := pc
  cases next with
  | vanishReap | vanishParent | findWaiter => trivial
  | user out => exact ⟨h.1, t, h.2⟩
  | _ => exact h.elim

/-- Any statement but the wake-up itself leaves a thread bound to look. -/
theorem Pc.BoundToLook.tail {t : Nat} {stmt : Stmt} {rest : List Stmt} {next : Point}
    (h : Pc.BoundToLook t ⟨stmt :: rest, next⟩) (hne : stmt ≠ .act (.setRunnable t)) :
    Pc.BoundToLook t ⟨rest, next⟩ := by
  cases next with
  | vanishReap | vanishParent => trivial
  | findWaiter => exact h
  | user out => exact ⟨h.1, (List.mem_cons.mp h.2).resolve_left fun e => hne e.symm⟩
  | _ => exact h.elim

namespace Preempt

/-- A test outside `sys_vanish` leads to a point outside it. -/
theorem branch_inVanish {s : Preempt} {x : Point} {pc : Pc} (leads : s.branch x = some pc)
    (outside : x.inVanish = false) : pc.next.inVanish = false := by
  have loop : ∀ (l : Header NodePtr) (here : Cursor → Point) (done : Pc)
      (body : NodePtr → Option Pc) (c : Cursor), (∀ c, (here c).inVanish = false) →
      done.next.inVanish = false → (∀ n pc, body n = some pc → pc.next.inVanish = false) →
      (s.loop l here done body c).next.inVanish = false := by
    intro l here done body c hhere hdone hbody
    rcases s.loop_cases l here done body c with ⟨c', heq⟩ | ⟨-, heq⟩ | ⟨n, pc, -, hpc, heq⟩
    · rw [heq]
      exact hhere c'
    · rw [heq]
      exact hdone
    · rw [heq]
      exact hbody n pc hpc
  cases x with
  | user out => cases leads
  | vanishCount | vanishReap | vanishParent | findInit | findWaiter => cases outside
  | waitScan statusPtr again c =>
      simp only [branch, scanChildren] at leads
      split at leads
      · cases leads
      · cases leads
        apply loop
        · exact fun _ => rfl
        · cases again <;> rfl
        · intro n pc hpc
          split_ifs at hpc <;> cases hpc <;> rfl
  | yieldBlocked | yieldRunnable | makeRunnable | makeBlocked =>
      cases leads
      apply loop
      · exact fun _ => rfl
      · rfl
      · intro n pc hpc
        split_ifs at hpc
        cases hpc
        rfl
  | readlineRead len =>
      cases leads
      split_ifs <;> rfl
  | _ =>
      simp only [branch] at leads
      split_ifs at leads <;> cases leads <;> rfl

/-- **A thread that is bound to look stays so**, while `t` waits and the parent of its process is
alive with `t` as its first thread. -/
theorem branch_boundToLook {s : Preempt} {t p : Nat} {x : Point} {pc : Pc}
    (leads : s.branch x = some pc) (bound : Pc.BoundToLook t ⟨[], x⟩)
    (parent : (s.kernel.pcb s.kernel.currentPcb).parent = some p)
    (living : (s.kernel.pcb p).state ≠ .exit)
    (listed : (s.kernel.pcb p).threads.head = some (peerThreadsNode t))
    (waiting : (s.kernel.tcb t).state = .waiting) : pc.BoundToLook t := by
  cases x with
  | vanishReap c =>
      cases leads
      rcases s.loop_cases (s.threads s.current) .vanishReap ⟨vanishExit, .vanishParent⟩
          (fun n => if listEntry n ≠ s.current then some ⟨vanishFree n, .vanishReap (.after n)⟩
            else none) c with ⟨c', heq⟩ | ⟨-, heq⟩ | ⟨n, pc, -, hpc, heq⟩
      · rw [heq]
        trivial
      · rw [heq]
        trivial
      · rw [heq]
        split_ifs at hpc
        cases hpc
        trivial
  | vanishParent =>
      simp only [branch, testParent, parent] at leads
      split_ifs at leads
      cases leads
      show Cursor.at _ = Cursor.at _
      rw [listBegin, listed]
  | findWaiter c =>
      have hc : c = .at (some (peerThreadsNode t)) := bound
      subst hc
      cases leads
      have hstate : (s.kernel.tcb (listEntry (peerThreadsNode t))).state = .waiting := waiting
      simp only [loop, hstate, if_true, Option.getD_some]
      exact ⟨rfl, by simp [vanishWake, listEntry, peerThreadsNode]⟩
  | user out => cases leads
  | _ => exact bound.elim

/-! ## The invariant -/

/-- **The single thread `t` of a living process `p`** is outside `sys_vanish`, and is attended to:
while it waits, every zombie of `p` has a thread that is bound to look at it. -/
structure Attended (t p : Nat) (s : Preempt) : Prop where
  /-- The lists are apart. -/
  apart : s.Separated
  /-- The thread belongs to `p`. -/
  owner : (s.kernel.tcb t).pcb = p
  /-- No other thread does. -/
  alone : ∀ x, (s.kernel.tcb x).pcb = p → x = t
  /-- It is the first one in the thread list. -/
  listed : (s.kernel.pcb p).threads.head = some (peerThreadsNode t)
  /-- The process has not exited. -/
  living : (s.kernel.pcb p).state ≠ .exit
  /-- The thread is outside `sys_vanish`. -/
  outside : (s.pc t).next.inVanish = false
  /-- While it waits, each zombie has a thread that is bound to look at it. -/
  attended : (s.kernel.tcb t).state = .waiting → ∀ c, s.Zombie p c →
    ∃ x, (s.kernel.tcb x).pcb = c ∧ x ∉ s.kernel.freedTcb ∧ (s.pc x).BoundToLook t

namespace Attended

variable {s s' : Preempt} {m : Move} {t p : Nat}

/-- No wake-up is lost while the thread is attended to. -/
theorem not_losesWakeUp (h : s.Attended t p) : ¬ s.LosesWakeUp t := by
  rintro ⟨-, hwaiting, c, hzombie, hnobody⟩
  rw [h.owner] at hzombie
  obtain ⟨x, hx, hfree, hbound⟩ := h.attended hwaiting c hzombie
  exact hnobody x hx hfree hbound.beforeWakeUp

/-- A zombie of `p` is another process. -/
theorem ne_of_zombie (h : s.Attended t p) {c x : Nat} (hz : s.Zombie p c)
    (hx : (s.kernel.tcb x).pcb = c) : x ≠ t := by
  rintro rfl
  have hc : p = c := h.owner.symm.trans hx
  subst hc
  exact h.living hz.2.1

/-- **Frame rule**: no new zombie, no new wait, and whoever is bound to look stays so. -/
theorem frame (h : s.Attended t p) (apart : s'.Separated)
    (owner : ∀ x, (s'.kernel.tcb x).pcb = (s.kernel.tcb x).pcb)
    (process : ∀ c, (s'.kernel.pcb c).parent = (s.kernel.pcb c).parent ∧
      (s'.kernel.pcb c).threads = (s.kernel.pcb c).threads ∧
        (s'.kernel.pcb c).state = (s.kernel.pcb c).state)
    (freed : ∀ c, c ∈ s.kernel.freedPcb → c ∈ s'.kernel.freedPcb)
    (outside : (s'.pc t).next.inVanish = false)
    (attended : (s'.kernel.tcb t).state = .waiting → ∀ c, s.Zombie p c →
      ∃ x, (s.kernel.tcb x).pcb = c ∧ x ∉ s'.kernel.freedTcb ∧ (s'.pc x).BoundToLook t) :
    s'.Attended t p := by
  refine ⟨apart, (owner t).trans h.owner, fun x hx => h.alone x ((owner x).symm.trans hx), ?_, ?_,
    outside, fun hwaiting c hz => ?_⟩
  · rw [(process p).2.1]
    exact h.listed
  · rw [(process p).2.2]
    exact h.living
  · have hz' : s.Zombie p c := by
      obtain ⟨hparent, hstate, hfree⟩ := hz
      refine ⟨(process c).1.symm.trans hparent, (process c).2.2.symm.trans hstate, ?_⟩
      exact fun hmem => hfree (freed c hmem)
    obtain ⟨x, hx, hrest⟩ := attended hwaiting c hz'
    exact ⟨x, (owner x).trans hx, hrest⟩

/-- The current thread leaves behind a statement that is no wake-up. -/
theorem bound_goto (s : Preempt) {stmt : Stmt} {rest : List Stmt} {next : Point}
    (pc : s.pc s.current = ⟨stmt :: rest, next⟩) (hne : stmt ≠ .act (.setRunnable t)) {x : Nat}
    (hx : (s.pc x).BoundToLook t) : ((s.goto ⟨rest, next⟩).pc x).BoundToLook t := by
  by_cases hcur : x = s.current
  · subst hcur
    rw [goto_pc_self]
    rw [pc] at hx
    exact hx.tail hne
  · rw [goto_pc_of_ne _ _ hcur]
    exact hx

/-- It stays outside `sys_vanish` with that, if it is `t`. -/
theorem outside_goto (h : s.Attended t p) {stmt : Stmt} {rest : List Stmt} {next : Point}
    (pc : s.pc s.current = ⟨stmt :: rest, next⟩) :
    ((s.goto ⟨rest, next⟩).pc t).next.inVanish = false := by
  have hout := h.outside
  by_cases hcur : t = s.current
  · rw [hcur, goto_pc_self]
    rw [hcur, pc] at hout
    exact hout
  · rw [goto_pc_of_ne _ _ hcur]
    exact hout

/-- Any statement but a write. -/
theorem goto_tail (h : s.Attended t p) {stmt : Stmt} {rest : List Stmt} {next : Point}
    (pc : s.pc s.current = ⟨stmt :: rest, next⟩) (hne : stmt ≠ .act (.setRunnable t)) :
    (s.goto ⟨rest, next⟩).Attended t p := by
  apply h.frame (h.apart.goto_tail pc)
  · exact fun _ => rfl
  · exact fun _ => ⟨rfl, rfl, rfl⟩
  · exact fun _ hc => hc
  · exact h.outside_goto pc
  · intro hwaiting c hz
    obtain ⟨x, hx, hfree, hbound⟩ := h.attended hwaiting c hz
    exact ⟨x, hx, hfree, bound_goto s pc hne hbound⟩

/-- Mutexes and user memory do not matter. -/
theorem same (h : s.Attended t p) (o : Lock → Option Nat) (w : Nat → Nat → Int)
    (mp : Nat → Nat → Bool) : Attended t p { s with owner := o, word := w, mapped := mp } := by
  refine frame h ⟨h.apart.kernel, h.apart.threads, h.apart.code⟩ ?_ ?_ ?_ ?_ ?_
  · exact fun _ => rfl
  · exact fun _ => ⟨rfl, rfl, rfl⟩
  · exact fun _ hc => hc
  · exact h.outside
  · exact h.attended

/-- A call of `schedule`. -/
theorem schedule (h : s.Attended t p) {tid : Int} (hs : s.schedule tid = some s') :
    s'.Attended t p := by
  obtain ⟨hk, hpc, -⟩ := schedule_spec hs
  have hswitched := Kernel.switched_schedule hk
  apply h.frame (h.apart.schedule hs) hswitched.owner
  · intro c
    rw [hswitched.pcb]
    exact ⟨rfl, rfl, rfl⟩
  · intro c hc
    rwa [hswitched.freedPcb]
  · rw [hpc]
    exact h.outside
  · intro hwaiting c hz
    rw [hpc, hswitched.freedTcb]
    exact h.attended ((hswitched.state_iff rfl (by decide) t).mp hwaiting) c hz

/-- The timer counts. -/
theorem count (h : s.Attended t p) (n : Nat) :
    (s.withKernel { s.kernel with numTicks := n }).Attended t p := by
  apply h.frame
  · exact h.apart.rewrite (h.apart.kernel.withCounters _ _ _ _ _ _) (fun _ => rfl) rfl
      fun _ => Or.inl rfl
  · exact fun _ => rfl
  · exact fun _ => ⟨rfl, rfl, rfl⟩
  · exact fun _ hc => hc
  · exact h.outside
  · exact h.attended

/-- **The process of another thread exits**: that thread is bound to look. -/
theorem exit (h : s.Attended t p) {rest : List Stmt} {next : Point}
    (allocated : s.current ∉ s.kernel.freedTcb)
    (pc : s.pc s.current = ⟨.act .setExit :: rest, next⟩) :
    ((s.goto ⟨rest, next⟩).perform .setExit).Attended t p := by
  have hcode := h.apart.code s.current
  rw [pc] at hcode
  have hnext : next = .vanishParent := hcode.exit List.mem_cons_self
  have hother : p ≠ s.kernel.currentPcb := by
    intro hp
    have hcur : s.current = t := h.alone s.current hp.symm
    have hout := h.outside
    rw [← hcur, pc, hnext] at hout
    cases hout
  have hprocess := (s.goto ⟨rest, next⟩).perform_process .setExit
  refine ⟨(h.apart.goto_tail pc).perform nofun, h.owner, h.alone, ?_, ?_, h.outside_goto pc,
    fun hwaiting c hz => ?_⟩
  · rw [(hprocess p).2.1]
    exact h.listed
  · rcases (hprocess p).2.2 with heq | ⟨-, hp⟩
    · rw [heq]
      exact h.living
    · exact absurd hp hother
  · by_cases hc : c = s.kernel.currentPcb
    · refine ⟨s.current, hc.symm, allocated, ?_⟩
      show Pc.BoundToLook t ((s.goto ⟨rest, next⟩).pc s.current)
      rw [goto_pc_self, hnext]
      trivial
    · have hstate : ((s.goto ⟨rest, next⟩).kernel.pcb c).state = .exit := by
        rcases (hprocess c).2.2 with heq | ⟨-, hp⟩
        · rw [← heq]
          exact hz.2.1
        · exact absurd hp hc
      have hz' : s.Zombie p c := ⟨(hprocess c).1.symm.trans hz.1, hstate, hz.2.2⟩
      obtain ⟨x, hx, hfree, hbound⟩ := h.attended hwaiting c hz'
      exact ⟨x, hx, hfree, bound_goto s pc (by simp) hbound⟩

/-- **A write.** -/
theorem act (h : s.Attended t p) {a : Act} {rest : List Stmt} {next : Point}
    (allocated : s.current ∉ s.kernel.freedTcb)
    (pc : s.pc s.current = ⟨.act a :: rest, next⟩)
    (inTime : a = .setOwn .waiting → s.current = t → ∀ c, s.Zombie p c →
      ∃ x, (s.kernel.tcb x).pcb = c ∧ x ∉ s.kernel.freedTcb ∧ (s.pc x).BoundToLook t) :
    ((s.goto ⟨rest, next⟩).perform a).Attended t p := by
  by_cases hexit : a = .setExit
  · subst hexit
    exact h.exit allocated pc
  have hcode := h.apart.code s.current
  rw [pc] at hcode
  obtain ⟨hsame, hfreedPcb, -⟩ := (s.goto ⟨rest, next⟩).perform_freed a
  have hpc : ((s.goto ⟨rest, next⟩).perform a).pc = (s.goto ⟨rest, next⟩).pc :=
    (perform_frame _ a).1
  have hstate := perform_state (s.goto ⟨rest, next⟩) a t
  apply h.frame
  · apply (h.apart.goto_tail pc).perform
    rintro n rfl
    exact hcode.insert n List.mem_cons_self
  · exact perform_owner _ a
  · intro c
    obtain ⟨hparent, hthreads, hc⟩ := (s.goto ⟨rest, next⟩).perform_process a c
    exact ⟨hparent, hthreads, hc.resolve_right fun e => hexit e.1⟩
  · exact fun c hc => (hfreedPcb c).mpr (Or.inl hc)
  · rw [hpc]
    exact h.outside_goto pc
  · intro hwaiting c hz
    rw [hstate] at hwaiting
    rw [hpc]
    -- whoever is bound to look, unless it is freed or makes the wake-up now
    have keep : (s.kernel.tcb t).state = .waiting → a ≠ .setRunnable t →
        (∀ w, a ≠ .freeThread w) → ∃ x, (s.kernel.tcb x).pcb = c ∧
          x ∉ ((s.goto ⟨rest, next⟩).perform a).kernel.freedTcb ∧
            ((s.goto ⟨rest, next⟩).pc x).BoundToLook t := by
      intro hw hne hfree
      obtain ⟨x, hx, hxfree, hbound⟩ := h.attended hw c hz
      refine ⟨x, hx, fun hmem => ?_, bound_goto s pc (fun e => hne (Stmt.act.inj e)) hbound⟩
      exact ((hsame x).mp hmem).elim hxfree (hfree x)
    cases a with
    | setOwn st =>
        dsimp only at hwaiting
        split_ifs at hwaiting with hcur
        · obtain ⟨x, hx, hxfree, hbound⟩ := inTime (by rw [hwaiting]) hcur.symm c hz
          refine ⟨x, hx, hxfree, ?_⟩
          have hne : x ≠ s.current := fun e => h.ne_of_zombie hz hx (e.trans hcur.symm)
          rw [goto_pc_of_ne _ _ hne]
          exact hbound
        · exact keep hwaiting (by simp) (by simp)
    | setRunnable w =>
        dsimp only at hwaiting
        split_ifs at hwaiting with hw
        exact keep hwaiting (fun e => hw (Act.setRunnable.inj e).symm) (by simp)
    | freeThread w =>
        obtain ⟨hown, hne, c', hnext⟩ := hcode.free w List.mem_cons_self
        obtain ⟨x, hx, hxfree, hbound⟩ := h.attended hwaiting c hz
        by_cases hxw : x = w
        · -- the thread that frees it belongs to the same process, and is bound to look itself
          subst hxw
          refine ⟨s.current, hown.symm.trans hx, fun hmem => ?_, ?_⟩
          · rcases (hsame s.current).mp hmem with hmem | heq
            · exact allocated hmem
            · exact hne (Act.freeThread.inj heq)
          · rw [goto_pc_self]
            have hnext' : next = .vanishReap c' := hnext
            rw [hnext']
            trivial
        · refine ⟨x, hx, fun hmem => ?_, bound_goto s pc (by simp) hbound⟩
          rcases (hsame x).mp hmem with hmem | heq
          · exact hxfree hmem
          · exact hxw (Act.freeThread.inj heq).symm
    | _ => exact keep hwaiting (by simp) (by simp)

/-- **A test.** -/
theorem test (h : s.Attended t p) {next : Point} {pc' : Pc}
    (pc : s.pc s.current = ⟨[], next⟩) (leads : s.branch next = some pc') :
    (s.goto pc').Attended t p := by
  apply h.frame (h.apart.goto (h.apart.branch leads pc))
  · exact fun _ => rfl
  · exact fun _ => ⟨rfl, rfl, rfl⟩
  · exact fun _ hc => hc
  · have hout := h.outside
    by_cases hcur : t = s.current
    · rw [hcur, goto_pc_self]
      rw [hcur, pc] at hout
      exact branch_inVanish leads hout
    · rw [goto_pc_of_ne _ _ hcur]
      exact hout
  · intro hwaiting c hz
    obtain ⟨x, hx, hfree, hbound⟩ := h.attended hwaiting c hz
    refine ⟨x, hx, hfree, ?_⟩
    by_cases hcur : x = s.current
    · subst hcur
      rw [pc] at hbound
      rw [goto_pc_self]
      have hparent : (s.kernel.pcb s.kernel.currentPcb).parent = some p := by
        rw [show s.kernel.currentPcb = c from hx]
        exact hz.1
      exact branch_boundToLook leads hbound hparent h.living h.listed hwaiting
    · rw [goto_pc_of_ne _ _ hcur]
      exact hbound

/-- **A call begins**, other than `vanish` by the thread itself. -/
theorem enter (h : s.Attended t p) {e : Entry} (user : (s.pc s.current).inUser = true)
    (stays : e = .vanish → s.current ≠ t) : (s.goto (e.pc s.current)).Attended t p := by
  apply h.frame (h.apart.goto (tidy_entry _ _ _))
  · exact fun _ => rfl
  · exact fun _ => ⟨rfl, rfl, rfl⟩
  · exact fun _ hc => hc
  · by_cases hcur : t = s.current
    · rw [hcur, goto_pc_self]
      cases e with
      | vanish => exact absurd hcur.symm (stays rfl)
      | _ => rfl
    · rw [goto_pc_of_ne _ _ hcur]
      exact h.outside
  · intro hwaiting c hz
    obtain ⟨x, hx, hfree, hbound⟩ := h.attended hwaiting c hz
    refine ⟨x, hx, hfree, ?_⟩
    by_cases hcur : x = s.current
    · -- a thread in user mode is not bound to look
      subst hcur
      obtain ⟨out, hpc⟩ := Pc.eq_point_of_inUser user
      rw [hpc] at hbound
      exact absurd hbound.2 List.not_mem_nil
    · rw [goto_pc_of_ne _ _ hcur]
      exact hbound

/-- **Every step in time keeps the thread attended to**, as long as it does not vanish. -/
theorem step (h : s.Attended t p) (hs : s.Step m s') (stays : s.Stays t m)
    (inTime : s.WaitsInTime t m) : s'.Attended t p := by
  cases hs.happens with
  | tick => exact h.count _
  | timer switch => exact (h.count _).schedule switch
  | preempt switch => exact h.schedule switch
  | contend _ _ _ switch => exact h.schedule switch
  | lock _ pc _ => exact (h.goto_tail pc (by simp)).same _ _ _
  | unlock _ pc => exact (h.goto_tail pc (by simp)).same _ _ _
  | schedule _ pc switch => exact (h.goto_tail pc (by simp)).schedule switch
  | act alive pc =>
      apply h.act alive.1 pc
      rintro rfl hcur c hz
      apply inTime rfl hcur
      · rw [← hcur]
        exact ⟨_, _, pc⟩
      · rw [h.owner]
        exact hz
  | test _ pc leads => exact h.test pc leads
  | enter user =>
      apply h.enter user.1
      rintro rfl
      exact stays rfl
  | store => exact h.same _ _ _
  | remap => exact h.same _ _ _

end Attended

/-- **At the start** a thread that is alone and does not wait is attended to. -/
theorem attended_start {as : List Action} {k : Kernel} (reach : Kernel.Reaches as k) {t : Nat}
    (alone : k.Alone t) (fresh : (k.tcb t).state ≠ .waiting) (word : Nat → Nat → Int)
    (mapped : Nat → Nat → Bool) : (start k word mapped).Attended t (k.tcb t).pcb := by
  obtain ⟨m, ⟨href, wf⟩, manned⟩ := reach.manned
  have hplace := (href.inPlace_iff wf t).mp alone.place
  have honly : m.threadsOf (m.tcb t).pcb = [t] := by
    have h := alone.only
    rwa [href.threadsOf, href.tcb] at h
  have hsmall : (m.threadsOf (m.tcb t).pcb).length ≤ 2 := by
    rw [honly]
    exact Nat.le_succ 1
  refine ⟨separated_start reach.separated word mapped, rfl, fun x hx => alone.eq_of_owner reach hx,
    ?_, ?_, ?_, fun hwaiting => absurd hwaiting fresh⟩
  · have hmem : ∀ x, x ∈ (m.proc (m.tcb t).pcb).chain ↔ x = t := by
      intro x
      constructor
      · intro hx
        obtain ⟨hown, hlt⟩ := wf.chains.own _ x hx
        have hthread : x ∈ m.threadsOf (m.tcb t).pcb := Machine.mem_threadsOf.mpr ⟨hlt, hown⟩
        rw [honly] at hthread
        exact List.mem_singleton.mp hthread
      · rintro rfl
        exact manned.listed x hplace hsmall x (by rw [honly]; exact List.mem_singleton_self x)
    have hhead := (href.pcb (m.tcb t).pcb).threadsHead
    show (k.pcb (k.tcb t).pcb).threads.head = _
    rw [href.tcb, hhead]
    cases hchain : (m.proc (m.tcb t).pcb).chain with
    | nil =>
        have hself := (hmem t).mpr rfl
        rw [hchain] at hself
        cases hself
    | cons r rest =>
        have hr : r = t := (hmem r).mp (by rw [hchain]; exact List.mem_cons_self)
        rw [hr]
        rfl
  · show (k.pcb (k.tcb t).pcb).state ≠ .exit
    rw [href.tcb, (href.pcb _).state]
    exact manned.living t hplace hsmall
  · show (k.tcb t).resume.pc.next.inVanish = false
    cases (k.tcb t).resume <;> rfl

/-! ## No lost wake-up -/

/-- **No wake-up is lost when the parent waits in time.** The thread `t`, alone in its process, may
call anything but `vanish`, and the other threads anything at all, in every interleaving. If at each
assignment of `THREAD_WAITING` by `t` every zombie has a thread that is bound to look at `t`, then
`t` is never in `blocked_queue` in this state with a zombie left for which nobody has yet to run the
wake-up loop. -/
theorem no_lost_wakeUp {as : List Action} {k : Kernel} (reach : Kernel.Reaches as k) {t : Nat}
    (alone : k.Alone t) (fresh : (k.tcb t).state ≠ .waiting) {word : Nat → Nat → Int}
    {mapped : Nat → Nat → Bool} {moves : List Move} {s : Preempt}
    (run : Run (Guarded Step fun u m => u.Stays t m ∧ u.WaitsInTime t m) (start k word mapped)
      moves s) : ¬ s.LosesWakeUp t := by
  apply Attended.not_losesWakeUp (p := (k.tcb t).pcb)
  apply run.invariant (attended_start reach alone fresh word mapped)
  rintro u m v hu ⟨hstep, hstays, hinTime⟩
  exact hu.step hstep hstays hinTime

/-- `init` has forked process 3. -/
def forked : Preempt := start (Kernel.trace [.call (.fork .ok)]).2 (fun _ _ => 0) fun _ _ => true

/-- A test that implies the condition: `init` neither vanishes nor assigns `THREAD_WAITING`. -/
def initNeverWaits (s : Preempt) (m : Move) : Bool :=
  match m with
  | .enter .vanish => s.current ≠ 2
  | .run => s.current ≠ 2 ∨ (s.pc 2).todo.head? ≠ some (.act (.setOwn .waiting))
  | _ => true

/-- The child vanishes while `init` is before its scan, which then finds the zombie. -/
theorem no_lost_wakeUp_zombie_found :
    ∃ moves s, Run Step forked moves s ∧ s.pc 2 = ⟨[], .user ⟨some 3, none⟩⟩ ∧
      ¬ s.LosesWakeUp 2 := by
  let moves := Move.enter (.wait 0) :: List.replicate 2 Move.run ++
    [.preempt, .preempt, .enter .vanish] ++ List.replicate 26 Move.run
  have hend : ((Transition.runList (fun u m => if initNeverWaits u m then step u m else none) forked
      moves).map fun u => u.pc 2) = some ⟨[], .user ⟨some 3, none⟩⟩ := by decide +kernel
  obtain ⟨s, hs, hpc⟩ := Option.map_eq_some_iff.mp hend
  have hrun : Run (Guarded Step fun u m => u.Stays 2 m ∧ u.WaitsInTime 2 m) forked moves s := by
    apply Run.guarded_of_runList _ hs
    intro u m hm
    constructor
    · rintro rfl
      simpa [initNeverWaits] using hm
    · rintro rfl hcur ⟨rest, next, hpc⟩
      simp [initNeverWaits, hcur, hpc] at hm
  refine ⟨moves, s, hrun.of_guarded, hpc, ?_⟩
  exact no_lost_wakeUp (Kernel.reaches_trace [.call (.fork .ok)] (by decide +kernel))
    ⟨Or.inl (by decide +kernel), by decide +kernel⟩ (by decide +kernel) hrun

/-- `init` is interrupted between its scan and the assignment; the child vanishes meanwhile. -/
def interruptedWait : List Move :=
  .enter (.wait 0) :: List.replicate 5 .run ++ [.preempt, .preempt, .enter .vanish] ++
    List.replicate 25 .run

/-- Nobody looks any more for a process whose only thread is in user mode. -/
theorem not_beforeWakeUp_of_user {s : Preempt} {c t : Nat} {out : Out}
    (only : ∀ x, (s.kernel.tcb x).pcb = c → x = t) (user : s.pc t = Pc.point (.user out)) (x : Nat)
    (hx : (s.kernel.tcb x).pcb = c) (_ : x ∉ s.kernel.freedTcb) : ¬ (s.pc x).BeforeWakeUp := by
  rw [only x hx, user]
  exact Pc.not_beforeWakeUp_user out

/-- The child has one thread, before and after. -/
theorem forked_only {moves : List Move} {s : Preempt} (run : Run Step forked moves s) (x : Nat)
    (hx : (s.kernel.tcb x).pcb = 3) : x = 3 := by
  have alone : forked.kernel.Alone 3 := ⟨Or.inr (Or.inl (by decide +kernel)), by decide +kernel⟩
  have reach := Kernel.reaches_trace [.call (.fork .ok)] (by decide +kernel)
  have three : (forked.kernel.tcb 3).pcb = 3 := by decide +kernel
  apply (attended_start reach alone (by decide +kernel) (fun _ _ => 0) fun _ _ => true).alone
  rw [Preempt.Run.owner run x] at hx
  exact hx.trans three.symm

/-- **A wake-up is lost**: `init` has scanned its children and is interrupted before it assigns
`THREAD_WAITING`; the child vanishes and finds no waiting thread; then `init` blocks. -/
theorem wakeUp_lost :
    ∃ moves, Run Step forked moves (forked.after moves) ∧ forked.kernel.Alone 2 ∧
      (forked.kernel.tcb 2).state ≠ .waiting ∧ (forked.after moves).LosesWakeUp 2 := by
  have hrun : Run Step forked interruptedWait (forked.after interruptedWait) :=
    run_after (by decide +kernel)
  refine ⟨interruptedWait, hrun, ⟨Or.inl (by decide +kernel), by decide +kernel⟩,
    by decide +kernel, by decide +kernel, by decide +kernel, 3,
    ⟨by decide +kernel, by decide +kernel, by decide +kernel⟩, ?_⟩
  have huser : (forked.after interruptedWait).pc 3 = Pc.point (.user Out.quiet) := by decide +kernel
  exact not_beforeWakeUp_of_user (forked_only hrun) huser

end Preempt

end Pebbles
