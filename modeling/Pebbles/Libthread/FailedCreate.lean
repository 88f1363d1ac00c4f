import Pebbles.Libthread.ThreadStart

/-! # When `thr_create` fails

`thr_create` looks at the answer of `thread_fork` last. By then the stack is mapped, and a
`thread_t` with this answer for its `tid` is in `thread_list`, marked as running: a failed call
leaves both, and `thr_exit` counts a thread that does not exist. -/

namespace Pebbles.ThreadLib

open Monitors Transition

namespace Lib

variable {s s1 s' : Lib} {t c : Int} {base : Nat}

/-! ## One call -/

/-- The events of a call of `thr_create` by `t` that nobody interrupts. `new_pages` finds room at
`base`, and `thread_fork` answers `c`. -/
def createCall (t : Int) (base : Nat) (c : Int) : List Event :=
  [.create t, .go t, .probe t base, .go t, .fork t c, .go t, .go t, .go t, .go t, .go t]

/-- What `thr_create` returns when `thread_fork` has answered `c`. -/
def createResult (c : Int) : Int := if c < 0 then -1 else c

/-- **The call left no trace**: `thread_list` and the mapped stacks are what they were, and so is
the number of threads that `thr_exit` counts. -/
structure NoTrace (s s' : Lib) : Prop where
  /-- `thread_list`. -/
  nodes : s'.nodes = s.nodes
  /-- The pages of the stacks. -/
  mapped : s'.mapped = s.mapped
  /-- The count of `thr_exit`. -/
  live : s'.liveCount = s.liveCount

/-- The data of the library, apart from the locks and the places of the threads. -/
structure SameData (s s' : Lib) : Prop where
  /-- `thread_list`. -/
  nodes : s'.nodes = s.nodes
  /-- The `thread_t`s. -/
  block : s'.block = s.block
  /-- How many there are. -/
  made : s'.made = s.made
  /-- The stacks. -/
  mapped : s'.mapped = s.mapped

/-- An operation that leaves the caller at the place `p`. -/
def Passes (o : Op Cond Lock Pc) (p : Pc) : Prop :=
  (∃ l, o = .lock l p) ∨ (∃ l, o = .unlock l p) ∨ ∃ x, o = .signal x p

/-- **A lock, an unlock or a signal** moves the caller on and changes no data. -/
theorem go_passes {p : Pc} (hs : s.Step (.go t) s') (here : Passes (s.pc t).op p) :
    s'.pc t = p ∧ SameData s s' := by
  have hcode : (s.pc t).op ≠ .code := by
    rcases here with ⟨l, h⟩ | ⟨l, h⟩ | ⟨x, h⟩ <;> rw [h] <;> nofun
  obtain ⟨u, hu, rfl⟩ : ∃ u, prog.step s.toSync t = some u ∧ { s with toSync := u } = s' := by
    simp only [Step, next] at hs
    exact Option.map_eq_some_iff.mp hs
  refine ⟨?_, rfl, rfl, rfl, rfl⟩
  have hop : prog.op (s.toSync.pc t) = (s.pc t).op := rfl
  rcases here with ⟨l, h⟩ | ⟨l, h⟩ | ⟨x, h⟩
  · simp only [Program.step, hop, h] at hu
    split at hu
    · obtain rfl := Option.some.inj hu
      exact Function.update_self _ _ _
    · cases hu
    · obtain rfl := Option.some.inj hu
      exact Function.update_self _ _ _
  · simp only [Program.step, hop, h] at hu
    split_ifs at hu
    · obtain rfl := Option.some.inj hu
      exact Function.update_self _ _ _
    · obtain rfl := Option.some.inj hu
      exact Function.update_self _ _ _
  · simp only [Program.step, hop, h] at hu
    split at hu
    · obtain rfl := Option.some.inj hu
      exact Function.update_self _ _ _
    · obtain rfl := Option.some.inj hu
      exact Function.update_self _ _ _

/-- **What a call of `thr_create` does**, whatever `thread_fork` answers: a `thread_t` with the
answer and the new stack is in `thread_list` and runs, and the stack is mapped. -/
structure Created (s s' : Lib) (base : Nat) (c : Int) : Prop where
  /-- The pages were not mapped before. -/
  found : s.mapped base = none
  /-- `thread_fork` made a thread or failed. -/
  answer : 0 < c ∨ c < 0
  /-- `thread_list`. -/
  nodes : s'.nodes = s.nodes ++ [(c, s.made)]
  /-- The `thread_t`s. -/
  block : s'.block = Function.update s.block s.made ⟨c, base, .running, ⟨0⟩, 0⟩
  /-- The stack. -/
  mapped : s'.mapped base = some (.block s.made)

/-- `thread_fork` writes no data, and its caller goes on. -/
theorem fork_answers (hs : s.Step (.fork t c) s') (here : s.pc t = .createFork base) :
    (0 < c ∨ c < 0) ∧ s'.pc t = .createInit base c ∧ SameData s s' := by
  simp only [Step, next, here] at hs
  split_ifs at hs with hchild hfailed
  · obtain rfl := Option.some.inj hs
    exact ⟨Or.inl hchild.1, Function.update_self _ _ _, rfl, rfl, rfl, rfl⟩
  · obtain rfl := Option.some.inj hs
    exact ⟨Or.inr hfailed, Function.update_self _ _ _, rfl, rfl, rfl, rfl⟩

/-- Code that is no such operation. -/
theorem go_code (hs : s.Step (.go t) s') (here : (s.pc t).op = .code) : s.code t = some s' := by
  simpa only [Step, next, here] using hs

/-- The new `thread_t` is written, and the stack is its own. -/
theorem go_createInit (hs : s.Step (.go t) s') (here : s.pc t = .createInit base c) :
    s'.pc t = .createLockList s.made c ∧ s'.nodes = s.nodes ∧
      s'.block = Function.update s.block s.made ⟨c, base, .running, ⟨0⟩, 0⟩ ∧
      s'.mapped base = some (.block s.made) := by
  have hcode := go_code hs (by rw [here]; rfl)
  simp only [code, here] at hcode
  obtain rfl := Option.some.inj hcode
  exact ⟨Function.update_self _ _ _, rfl, rfl, Function.update_self _ _ _⟩

/-- It is put at the end of `thread_list`. -/
theorem go_createInsert {b : Nat} (hs : s.Step (.go t) s') (here : s.pc t = .createInsert b c) :
    s'.pc t = .createSignal c ∧ s'.nodes = s.nodes ++ [(c, b)] ∧ s'.block = s.block ∧
      s'.mapped = s.mapped := by
  have hcode := go_code hs (by rw [here]; rfl)
  simp only [code, here] at hcode
  obtain rfl := Option.some.inj hcode
  exact ⟨Function.update_self _ _ _, rfl, rfl, rfl⟩

/-- **Every call of `thr_create` registers a running thread.** -/
theorem created_of_run (run : Run Step s (createCall t base c) s') : Created s s' base c := by
  obtain ⟨a1, hcreate, run⟩ := run.uncons
  obtain ⟨a2, hlock, run⟩ := run.uncons
  obtain ⟨a3, hprobe, run⟩ := run.uncons
  obtain ⟨a4, hunlock, run⟩ := run.uncons
  obtain ⟨a5, hfork, run⟩ := run.uncons
  obtain ⟨a6, hinit, run⟩ := run.uncons
  obtain ⟨a7, hlockList, run⟩ := run.uncons
  obtain ⟨a8, hinsert, run⟩ := run.uncons
  obtain ⟨a9, hsignal, run⟩ := run.uncons
  -- up to the search for a stack
  have h1 : a1.pc t = .createLock ∧ SameData s a1 := by
    simp only [Step, next] at hcreate
    split_ifs at hcreate
    obtain rfl := Option.some.inj hcreate
    exact ⟨Function.update_self _ _ _, rfl, rfl, rfl, rfl⟩
  have h2 : a2.pc t = .createProbe ∧ SameData a1 a2 :=
    go_passes hlock (by rw [h1.1]; exact Or.inl ⟨.m, rfl⟩)
  have h3 : s.mapped base = none ∧ a3.pc t = .createUnlock base ∧ a3.nodes = a2.nodes ∧
      a3.block = a2.block ∧ a3.made = a2.made := by
    simp only [Step, next] at hprobe
    split_ifs at hprobe with hroom
    obtain rfl := Option.some.inj hprobe
    rw [h2.2.mapped, h1.2.mapped] at hroom
    exact ⟨Option.isNone_iff_eq_none.mp hroom.2, Function.update_self _ _ _, rfl, rfl, rfl⟩
  -- up to the new `thread_t`
  have h4 : a4.pc t = .createFork base ∧ SameData a3 a4 :=
    go_passes hunlock (by rw [h3.2.1]; exact Or.inr (Or.inl ⟨.m, rfl⟩))
  obtain ⟨hanswer, hpc5, h5⟩ := fork_answers hfork h4.1
  obtain ⟨hpc6, hnodes6, hblock6, hmapped6⟩ := go_createInit hinit hpc5
  -- up to its node
  have h7 : a7.pc t = .createInsert a5.made c ∧ SameData a6 a7 :=
    go_passes hlockList (by rw [hpc6]; exact Or.inl ⟨.list, rfl⟩)
  obtain ⟨hpc8, hnodes8, hblock8, hmapped8⟩ := go_createInsert hinsert h7.1
  have h9 : a9.pc t = .createUnlockList c ∧ SameData a8 a9 :=
    go_passes hsignal (by rw [hpc8]; exact Or.inr (Or.inr ⟨.list, rfl⟩))
  obtain ⟨a10, hunlockList, run⟩ := run.uncons
  have h10 : a10.pc t = .user ∧ SameData a9 a10 :=
    go_passes hunlockList (by rw [h9.1]; exact Or.inr (Or.inl ⟨.list, rfl⟩))
  obtain rfl : s' = a10 := run.deterministic Run.nil fun x a y z hy hz =>
    Option.some.inj (hy.symm.trans hz)
  have hmade : a5.made = s.made := by
    rw [h5.made, h4.2.made, h3.2.2.2.2, h2.2.made, h1.2.made]
  have hnodes : a6.nodes = s.nodes := by
    rw [hnodes6, h5.nodes, h4.2.nodes, h3.2.2.1, h2.2.nodes, h1.2.nodes]
  have hblock : a5.block = s.block := by
    rw [h5.block, h4.2.block, h3.2.2.2.1, h2.2.block, h1.2.block]
  refine ⟨h3.1, hanswer, ?_, ?_, ?_⟩
  · rw [h10.2.nodes, h9.2.nodes, hnodes8, h7.2.nodes, hnodes, hmade]
  · rw [h10.2.block, h9.2.block, hblock8, h7.2.block, hblock6, hblock, hmade]
  · rw [h10.2.mapped, h9.2.mapped, hmapped8, h7.2.mapped, hmapped6, hmade]

/-! ## The failed call -/

/-- **A failed `thr_create` always leaves a trace.** In every state, the promise about a negative
result is kept exactly when `thread_fork` makes a thread, so that the result is not negative. -/
theorem noTrace_iff (run : Run Step s (createCall t base c) s') :
    (createResult c < 0 → NoTrace s s') ↔ 0 < c := by
  have hcreated := created_of_run run
  rcases hcreated.answer with hpos | hneg
  · have hresult : ¬ createResult c < 0 := by
      rw [createResult, if_neg (by omega)]
      omega
    exact ⟨fun _ => hpos, fun _ h => absurd h hresult⟩
  · have hresult : createResult c < 0 := by
      rw [createResult, if_pos hneg]
      decide
    refine ⟨fun h => ?_, fun h => absurd h (by omega)⟩
    -- the node of the phantom is still there
    have hnodes := (h hresult).nodes
    rw [hcreated.nodes] at hnodes
    exact absurd hnodes (by simp)

/-- A call that makes thread 2. -/
theorem noTrace_iff_second : ∃ s, Run Step (init 1 zeroed) (createCall 1 100 2) s ∧
    (createResult 2 < 0 → NoTrace (init 1 zeroed) s) := by
  have hruns : (runList next (init 1 zeroed) (createCall 1 100 2)).isSome = true := by decide +kernel
  obtain ⟨s, hs⟩ := Option.isSome_iff_exists.mp hruns
  exact ⟨s, Run.of_runList hs, (noTrace_iff (Run.of_runList hs)).mpr (by decide)⟩

/-- **A phantom**: the first call of the root fails in `thread_fork`, returns -1, and leaves a
running `thread_t` with tid -1 in `thread_list`. -/
theorem phantom_registered : ∃ s, Run Step (init 1 zeroed) (createCall 1 100 (-1)) s ∧
    createResult (-1) = -1 ∧ s.nodes = [(1, 0), (-1, 1)] ∧ (s.mapped 100).isSome = true ∧
    ¬ (createResult (-1) < 0 → NoTrace (init 1 zeroed) s) := by
  have hruns : (runList next (init 1 zeroed) (createCall 1 100 (-1))).map
      (fun s => (s.nodes, (s.mapped 100).isSome)) = some ([(1, 0), (-1, 1)], true) := by
    decide +kernel
  obtain ⟨s, hs, hdata⟩ := Option.map_eq_some_iff.mp hruns
  obtain ⟨hnodes, hmapped⟩ := Prod.mk.inj hdata
  refine ⟨s, Run.of_runList hs, rfl, hnodes, hmapped, fun h => ?_⟩
  have hsame := (h (by decide)).nodes
  rw [hnodes] at hsame
  exact absurd hsame (by decide)

/-- **Later calls of `thr_exit` count the phantom**: the count is one more than before the failed
call, for a thread that does not exist. -/
theorem liveCount_failed (run : Run Step s (createCall t base c) s') (sound : s.Sound)
    (failed : c < 0) : s'.liveCount = s.liveCount + 1 ∧ s.pc c = .absent := by
  have hcreated := created_of_run run
  refine ⟨?_, sound.negative c failed⟩
  rw [liveCount, hcreated.nodes, hcreated.block, List.countP_append, List.countP_singleton]
  rw [if_pos (by simp)]
  -- the nodes that were there have `thread_t`s of their own
  have hold : s.nodes.countP (fun n =>
      (Function.update s.block s.made ⟨c, base, .running, ⟨0⟩, 0⟩ n.2).status = .running) =
        s.liveCount := by
    refine List.countP_congr fun n hn => ?_
    have hne : n.2 ≠ s.made := Nat.ne_of_lt (sound.nodes n hn).1
    rw [Function.update_of_ne hne]
  rw [hold]

end Lib

end Pebbles.ThreadLib
