import Pebbles.Process.UpdateStages

/-! # Queue updates and timer interrupts

The stages of `UpdateStages` follow one another as the statements are executed, and `schedule`
leaves them standing, except in two places: in the middle of the linking, and half out of the
blocked queue when the wrong thread moves. An update that is interrupted anywhere else loses nobody;
one that is interrupted in the middle of the linking loses the thread that it inserts. -/

namespace Pebbles

open DoublyLinked Transition

namespace Kernel

variable {k : Kernel} {j : Nat} {fresh : Prop} {run blk : List Nat} {p : UpdatePoint}

/-! ## One statement -/

/-- **An executed statement**: the next point, its stage, and where the threads are. -/
structure Advances (k : Kernel) (j : Nat) (fresh : Prop) (run blk : List Nat) (p : UpdatePoint)
    (k1 : Kernel) (p1 : UpdatePoint) (run1 blk1 : List Nat) : Prop where
  /-- The statement. -/
  statement : k.statement (threadListNode j) p = some (k1, p1)
  /-- The next stage. -/
  stage : k1.Stage j fresh run1 blk1 p1
  /-- Only the queues are written. -/
  rest : k1.offQueues = k.offQueues
  /-- The next statement can be executed. -/
  executable : k1.Executable j p1
  /-- The update comes to its end. -/
  left : p1.left < p.left
  /-- Nobody gets lost. -/
  perm : (p1.hand k.currentThread j ++ (run1 ++ blk1)).Perm
    (p.hand k.currentThread j ++ (run ++ blk))
  /-- The thread arrives, if at all, in the runnable queue. -/
  arrives : run1 = run ∨ p.pending = true ∧ p1.pending = false ∧ run1 = run ++ [j]
  /-- It does not go back. -/
  pending : p1.pending = true → p.pending = true

/-- A thread between the queues. -/
theorem perm_taken {c : Nat} (hj : j ∈ blk) :
    ([c, j] ++ (run ++ blk.erase j)).Perm ([c] ++ (run ++ blk)) := by
  have hblk : (run ++ j :: blk.erase j).Perm (run ++ blk) :=
    (List.perm_cons_erase hj).symm.append_left run
  exact (List.perm_middle.symm.trans hblk).cons c

/-- A thread that arrives. -/
theorem perm_arrived {c : Nat} :
    ([c] ++ (run ++ [j] ++ blk)).Perm ([c, j] ++ (run ++ blk)) := by
  rw [List.append_assoc, List.singleton_append]
  have hmiddle : (run ++ j :: blk).Perm (j :: (run ++ blk)) := List.perm_middle
  exact hmiddle.cons c

/-- Only the second statement of `list_delete` needs what a test found. -/
theorem executable_of_ne (hne : p ≠ .skipNext) : k.Executable j p :=
  fun heq => absurd heq hne

/-- **Every stage leads to the next one**, with somebody in the runnable queue. -/
theorem Stage.advances (h : k.Stage j fresh run blk p) (busy : run ≠ [])
    (executable : k.Executable j p) (more : p ≠ .done) :
    ∃ k1 p1 run1 blk1, Advances k j fresh run blk p k1 p1 run1 blk1 := by
  cases p with
  | testPrev =>
      obtain ⟨hq, hj⟩ := h
      cases hp : (k.links (threadListNode j)).prev with
      | some q =>
          refine ⟨k, .skipNext, run, blk, by simp [Kernel.statement, hp], ⟨hq, hj⟩, rfl,
            fun _ => ?_, by decide, .refl _, .inl rfl, id⟩
          rw [hp]
          exact Option.some_ne_none q
      | none =>
          refine ⟨k, .testHead, run, blk, by simp [Kernel.statement, hp], ⟨hq, ?_⟩, rfl,
            executable_of_ne (by decide), by decide, .refl _, .inl rfl, id⟩
          obtain ⟨as, bs, rfl⟩ := List.append_of_mem hj
          have hblocked := hq.blocked
          rw [List.map_append, List.map_cons] at hblocked
          rw [hblocked.prev_eq, List.getLast?_eq_none_iff, List.map_eq_nil_iff] at hp
          rw [hp]
          rfl
  | skipNext =>
      obtain ⟨hq, hj⟩ := h
      cases hp : (k.links (threadListNode j)).prev with
      | some q =>
          refine ⟨{ k with links := setNext k.links q (k.links (threadListNode j)).next },
            .testNext, run, blk.erase j, by simp [Kernel.statement, hp], ?_, rfl,
            executable_of_ne (by decide), by decide, perm_taken hj, .inl rfl, id⟩
          exact (halfOut_of_detach hq hj (by simp only [detachNext, hp]) rfl).weaken
            fun _ => trivial
      | none => exact absurd hp (executable rfl)
  | testHead =>
      obtain ⟨hq, hhead⟩ := h
      have hh : k.blockedQueue.head = some (threadListNode j) := by
        rw [hq.blocked.head, List.head?_map, hhead]
        rfl
      exact ⟨k, .moveHead, run, blk, by simp [Kernel.statement, hh], ⟨hq, hhead⟩, rfl,
        executable_of_ne (by decide), by decide, .refl _, .inl rfl, id⟩
  | moveHead =>
      obtain ⟨hq, hhead⟩ := h
      have hj : j ∈ blk := List.mem_of_head? hhead
      have hh : k.blockedQueue.head = some (threadListNode j) := by
        rw [hq.blocked.head, List.head?_map, hhead]
        rfl
      have hp : (k.links (threadListNode j)).prev = none := by
        obtain ⟨rest, rfl⟩ := List.head?_eq_some_iff.mp hhead
        exact hq.blocked.seg.1
      refine ⟨_, .testNext, run, blk.erase j, rfl, ?_, rfl, executable_of_ne (by decide), by
        decide, perm_taken hj, .inl rfl, id⟩
      exact (halfOut_of_detach hq hj (by simp only [detachNext, hp, hh, if_true]) rfl).weaken
        fun _ => trivial
  | testNext =>
      have hhalf : k.HalfOut j fresh run blk := h
      cases hn : (k.links (threadListNode j)).next with
      | some x =>
          refine ⟨k, .skipPrev, run, blk, by simp [Kernel.statement, hn], ⟨hhalf, ?_⟩, rfl,
            executable_of_ne (by decide), by decide, .refl _, .inl rfl, id⟩
          rw [hn]
          exact Option.some_ne_none x
      | none =>
          exact ⟨k, .testTail, run, blk, by simp [Kernel.statement, hn], ⟨hhalf, hn⟩, rfl,
            executable_of_ne (by decide), by decide, .refl _, .inl rfl, id⟩
  | skipPrev =>
      obtain ⟨hhalf, hsome⟩ := h
      obtain ⟨x, hx⟩ := Option.ne_none_iff_exists'.mp hsome
      exact ⟨_, .countDown, run, blk, by simp only [Kernel.statement, hx]; rfl, hhalf.skipPrev hx,
        rfl, executable_of_ne (by decide), by decide, .refl _, .inl rfl, id⟩
  | testTail =>
      obtain ⟨hhalf, hnone⟩ := h
      have htail := hhalf.tail_eq hnone
      exact ⟨k, .moveTail, run, blk, by simp [Kernel.statement, htail], ⟨hhalf, hnone⟩, rfl,
        executable_of_ne (by decide), by decide, .refl _, .inl rfl, id⟩
  | moveTail =>
      obtain ⟨hhalf, hnone⟩ := h
      exact ⟨_, .countDown, run, blk, rfl, ⟨none, fun _ => rfl, hhalf.moveTail hnone⟩, rfl,
        executable_of_ne (by decide), by decide, .refl _, .inl rfl, id⟩
  | countDown =>
      obtain ⟨n, fine, hloose⟩ := h
      exact ⟨_, .testEmpty, run, blk, rfl, ⟨n, fine, Kernel.countDown hloose⟩, rfl,
        executable_of_ne (by decide), by decide, .refl _, .inl rfl, id⟩
  | testEmpty =>
      obtain ⟨n, fine, hloose⟩ := h
      have htail := hloose.runnable_tail
      obtain ⟨t, ht⟩ := Option.ne_none_iff_exists'.mp (mt List.getLast?_eq_none_iff.mp busy)
      rw [ht] at htail
      exact ⟨k, .linkNext, run, blk, by simp [Kernel.statement, htail], ⟨n, fine, hloose⟩, rfl,
        executable_of_ne (by decide), by decide, .refl _, .inl rfl, id⟩
  | linkNext =>
      obtain ⟨n, fine, hloose⟩ := h
      have htail := hloose.runnable_tail
      obtain ⟨t, ht⟩ := Option.ne_none_iff_exists'.mp (mt List.getLast?_eq_none_iff.mp busy)
      rw [ht] at htail
      exact ⟨_, .linkPrev, run, blk, by simp only [Kernel.statement, htail]; rfl, ⟨t,
        Kernel.linkNext fine hloose ht⟩, rfl, executable_of_ne (by decide), by decide, .refl _,
        .inl rfl, id⟩
  | linkPrev =>
      obtain ⟨t, hlink⟩ := h
      have htail : k.runnableQueue.tail = some (threadListNode t) := by
        obtain ⟨hlast, -, n, -, hloose⟩ := hlink
        rw [hloose.runnable_tail, hlast]
        rfl
      refine ⟨_, .clearNext, run, blk, rfl, ⟨t, hlink.linkPrev _, ?_⟩, rfl,
        executable_of_ne (by decide), by decide, .refl _, .inl rfl, id⟩
      rw [htail, setPrev_prev, if_pos rfl]
  | clearNext =>
      obtain ⟨t, hlink, hprev⟩ := h
      refine ⟨_, .moveLast, run, blk, rfl, ⟨t, hlink.clearNext _, ?_⟩, rfl,
        executable_of_ne (by decide), by decide, .refl _, .inl rfl, id⟩
      simp [setNext, hprev]
  | moveLast =>
      obtain ⟨t, hlink, hj⟩ := h
      exact ⟨_, .countUp, run ++ [j], blk, rfl, hlink.moveLast hj, rfl,
        executable_of_ne (by decide), by decide, perm_arrived, .inr ⟨rfl, rfl, rfl⟩, fun _ => rfl⟩
  | countUp =>
      obtain ⟨n, fine, hloose⟩ := h
      exact ⟨_, .done, run, blk, rfl, ⟨n, fine, Kernel.countUp hloose⟩, rfl,
        executable_of_ne (by decide), by decide, .refl _, .inl rfl, id⟩
  | startList | clearLinks => exact h.elim
  | done => exact absurd rfl more

/-! ## The invariant -/

/-- **In the middle of an update** that moves `j`: the stage, with everybody of `all` in a place;
whoever is in the runnable queue is ready, and thread 1 can run. -/
structure Midway (all : List Nat) (j : Nat) (fresh : Prop) (k : Kernel) (run blk : List Nat)
    (p : UpdatePoint) : Prop where
  /-- The stage. -/
  stage : k.Stage j fresh run blk p
  /-- Everybody has a place. -/
  perm : (p.hand k.currentThread j ++ (run ++ blk)).Perm all
  /-- The threads of the runnable queue are ready. -/
  ready : ∀ t ∈ run, (k.tcb t).state.ready = true
  /-- So is the thread that is moved. -/
  self : p.pending = true → (k.tcb j).state.ready = true
  /-- Thread 1 can run. -/
  one : 1 ∈ k.currentThread :: run

variable {all : List Nat}

/-- **A statement keeps the invariant.** -/
theorem Midway.statement (h : Midway all j fresh k run blk p) (busy : k.currentThread ≠ 1)
    (executable : k.Executable j p) (more : p ≠ .done) :
    ∃ k1 p1 run1 blk1, k.statement (threadListNode j) p = some (k1, p1) ∧
      Midway all j fresh k1 run1 blk1 p1 ∧ k1.offQueues = k.offQueues ∧ k1.Executable j p1 ∧
        p1.left < p.left ∧ (p1.pending = true → p.pending = true ∧ run1 = run) := by
  have hone : 1 ∈ run := (List.mem_cons.mp h.one).resolve_left fun e => busy e.symm
  obtain ⟨k1, p1, run1, blk1, hadv⟩ :=
    h.stage.advances (List.ne_nil_of_mem hone) executable more
  have hcur : k1.currentThread = k.currentThread := congrArg (·.currentThread) hadv.rest
  have htcb : k1.tcb = k.tcb := congrArg (·.tcb) hadv.rest
  refine ⟨k1, p1, run1, blk1, hadv.statement, ⟨hadv.stage, ?_, fun t ht => ?_, fun hp => ?_, ?_⟩,
    hadv.rest, hadv.executable, hadv.left, fun hp => ⟨hadv.pending hp, ?_⟩⟩
  · rw [hcur]
    exact hadv.perm.trans h.perm
  · rw [htcb]
    rcases hadv.arrives with heq | ⟨hpending, -, heq⟩
    · exact h.ready t (heq ▸ ht)
    · rw [heq] at ht
      rcases List.mem_append.mp ht with hmem | hlast
      · exact h.ready t hmem
      · rw [List.mem_singleton.mp hlast]
        exact h.self hpending
  · rw [htcb]
    exact h.self (hadv.pending hp)
  · rw [hcur]
    rcases hadv.arrives with heq | ⟨-, -, heq⟩
    · rw [heq]
      exact h.one
    · rw [heq, ← List.cons_append]
      exact List.mem_append_left _ h.one
  · refine hadv.arrives.resolve_right fun harrived => ?_
    rw [hp] at harrived
    cases harrived.2.1

/-- **The update comes to its end** when nothing interrupts it. -/
theorem Midway.completes (h : Midway all j fresh k run blk p) (busy : k.currentThread ≠ 1)
    (executable : k.Executable j p) :
    ∃ k' run' blk', k.Completes (threadListNode j) p k' ∧ Midway all j fresh k' run' blk' .done ∧
      k'.offQueues = k.offQueues := by
  -- the induction is on the number of statements that may be left
  induction hn : p.left using Nat.strongRecOn generalizing k run blk p with
  | ind n ih =>
      by_cases hdone : p = .done
      · subst hdone
        exact ⟨k, run, blk, .done, h, rfl⟩
      · obtain ⟨k1, p1, run1, blk1, hstmt, h1, hrest, hex, hleft, -⟩ :=
          h.statement busy executable hdone
        have hcur : k1.currentThread = k.currentThread := congrArg (·.currentThread) hrest
        obtain ⟨k', run', blk', hcomplete, h', hrest'⟩ :=
          ih p1.left (hn ▸ hleft) h1 (by rw [hcur]; exact busy) hex rfl
        exact ⟨k', run', blk', .next hstmt hcomplete, h', hrest'.trans hrest⟩

/-- **Some statements** keep the invariant. -/
theorem Midway.statements {count : Nat} {k1 : Kernel} {p1 : UpdatePoint}
    (h : Midway all j fresh k run blk p) (busy : k.currentThread ≠ 1)
    (executable : k.Executable j p)
    (hs : Kernel.statements (threadListNode j) count (k, p) = some (k1, p1)) :
    ∃ run1 blk1, Midway all j fresh k1 run1 blk1 p1 ∧ k1.offQueues = k.offQueues ∧
      (p1.pending = true → p.pending = true ∧ run1 = run) := by
  induction count generalizing k run blk p with
  | zero =>
      obtain ⟨rfl, rfl⟩ := Prod.mk.inj (Option.some.inj hs)
      exact ⟨run, blk, h, rfl, fun hp => ⟨hp, rfl⟩⟩
  | succ count ih =>
      obtain ⟨⟨k2, p2⟩, hstmt, hrest⟩ := Option.bind_eq_some_iff.mp hs
      by_cases hdone : p = .done
      · subst hdone
        obtain ⟨rfl, rfl⟩ := Prod.mk.inj (Option.some.inj hstmt)
        exact ih h busy executable hrest
      · obtain ⟨k2', p2', run2, blk2, hstmt', h2, hrest2, hex2, -, hrun2⟩ :=
          h.statement busy executable hdone
        obtain ⟨rfl, rfl⟩ := Prod.mk.inj (Option.some.inj (hstmt.symm.trans hstmt'))
        have hcur : k2.currentThread = k.currentThread := congrArg (·.currentThread) hrest2
        obtain ⟨run1, blk1, h1, hrest1, hrun1⟩ := ih h2 (by rw [hcur]; exact busy) hex2 hrest
        refine ⟨run1, blk1, h1, hrest1.trans hrest2, fun hp => ?_⟩
        obtain ⟨hp2, heq1⟩ := hrun1 hp
        obtain ⟨hp, heq2⟩ := hrun2 hp2
        exact ⟨hp, heq1.trans heq2⟩

end Kernel

end Pebbles
