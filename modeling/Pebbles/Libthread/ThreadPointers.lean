import Pebbles.Libthread.ThreadJoin
import Pebbles.Libthread.ThreadLocks
import Pebbles.Libthread.ThreadOwners

/-! # The pointers of the thread library

`thr_join` looks a `thread_t` up under `list_mutex` and works with it afterwards, and `thr_reap`
frees it before it is taken out of `thread_list`. Here is what a step reads and writes, the
condition under which nothing is used after it was freed, and the invariant that this condition
keeps. -/

namespace Pebbles.ThreadLib

open Monitors Transition

/-! ## What a place says -/

namespace Pc

/-- The pointer of a call of `thr_join` that has passed the test of `joining_tid`. -/
def accepted : Pc → Option Nat
  | joinLoop _ b | joinWait _ b | joinAsleep _ b | joinRelock _ b | joinRelease _ b _
  | reapDestroy _ b _ | reapRemove _ b _ | reapFree _ b _ => some b
  | _ => none

/-- The pointer of such a call that has not begun to reap. -/
def awaiting : Pc → Option Nat
  | joinLoop _ b | joinWait _ b | joinAsleep _ b | joinRelock _ b | joinRelease _ b _
  | reapDestroy _ b _ => some b
  | _ => none

/-- The pointer with which `thr_reap` works, and how far it is. -/
def reapStage : Pc → Option (Nat × Reaping)
  | reapRemove _ b _ | lastRemove b => some (b, .destroyed)
  | reapFree _ b _ | lastFree b => some (b, .removed)
  | _ => none

/-- The thread whose `thread_t` was freed and whose node has not been taken out of the list. -/
def unlinking : Pc → Option Int
  | deleteLock tid _ | deleteNode tid _ => some tid
  | _ => none

/-- A thread that has released the last mutex of its call of `thr_exit`. -/
def released : Pc → Bool
  | exitVanish | vanished | taskVanished => true
  | _ => false

/-- The thread has vanished. -/
def ended : Pc → Bool
  | vanished | taskVanished => true
  | _ => false

/-- `t_mutex` of the `thread_t` is held. -/
def holdsThread (b : Nat) : Pc → Bool
  | joinTest _ b' | joinReject _ b' | joinLoop _ b' | joinWait _ b' | joinRelease _ b' _
  | exitStore _ b' | exitSignal b' | exitUnlockThread b' => b' = b
  | _ => false

variable {p q : Pc} {b : Nat}

attribute [local simp] accepted awaiting reapStage unlinking released ended holdsThread

theorem Flow.accepted_back (h : Flow p q) (hq : q.accepted = some b) :
    p.accepted = some b ∨ ∃ tid, p = .joinTest tid b ∧ q = .joinLoop tid b := by
  cases h.edge <;> simp_all [Pc.accepted]

theorem Flow.awaiting_back (h : Flow p q) (hq : q.awaiting = some b) :
    p.awaiting = some b ∨ ∃ tid, p = .joinTest tid b ∧ q = .joinLoop tid b := by
  cases h.edge <;> simp_all [Pc.awaiting]

theorem Flow.reapStage_back {r : Reaping} (h : Flow p q) (hq : q.reapStage = some (b, r)) :
    p.reapStage = some (b, r) ∨
      (r = .destroyed ∧ ∃ tid v, p = .reapDestroy tid b v ∧ q = .reapRemove tid b v) ∨
      (r = .destroyed ∧ p = .lastNext ∧ q = .lastRemove b) ∨
      (r = .removed ∧ p.reapStage = some (b, .destroyed)) := by
  cases h.edge <;> simp_all [Pc.reapStage]

theorem Flow.unlinking_keep {tid : Int} (h : Flow p q) (hp : p.unlinking = some tid) :
    q.unlinking = some tid ∨ ∃ v, p = .deleteNode tid v ∧ q = .deleteUnlock tid v := by
  cases h.edge <;> simp_all [Pc.unlinking]

theorem Flow.released_keep (h : Flow p q) (hp : p.released = true) : q.released = true := by
  cases h.edge <;> simp_all [Pc.released]

theorem target_of_accepted (h : p.accepted = some b) : ∃ tid, p.target = some (tid, b) := by
  unfold accepted at h
  split at h <;> simp_all [target]

theorem running_of_unlinking {tid : Int} (h : p.unlinking = some tid) : p.phase = .running := by
  unfold unlinking at h
  split at h <;> simp_all [phase]

theorem running_of_accepted (h : p.accepted = some b) : p.phase = .running := by
  obtain ⟨tid, htarget⟩ := target_of_accepted h
  exact running_of_target htarget

theorem running_of_reaping {tid : Int} (h : p.reaping = some tid) : p.phase = .running := by
  unfold reaping at h
  split at h <;> simp_all [phase]

theorem accepted_of_awaiting (h : p.awaiting = some b) : p.accepted = some b := by
  unfold awaiting at h
  split at h <;> simp_all [accepted]

theorem awaiting_of_sleeping (h : p.sleeping = some (.thread b)) : p.awaiting = some b := by
  unfold sleeping at h
  split at h <;> simp_all [awaiting]

/-- Who reaps has been accepted, or is the last thread. -/
theorem accepted_or_lastBlock {r : Reaping} (h : p.reapStage = some (b, r)) :
    p.accepted = some b ∧ p.awaiting = none ∨ p.lastBlock = some b := by
  unfold reapStage at h
  split at h <;> simp_all [accepted, awaiting, lastBlock]

theorem reapStage_of_lastBlock (h : p.lastBlock = some b) : ∃ r, p.reapStage = some (b, r) := by
  unfold lastBlock at h
  split at h <;> simp_all [reapStage]

theorem removing_of_reapStage (h : p.reapStage = some (b, .destroyed)) :
    (∃ tid v, p = .reapRemove tid b v) ∨ p = .lastRemove b := by
  unfold reapStage at h
  split at h <;> simp_all

theorem reapStage_ne {r : Reaping} (h : p.reapStage = some (b, r)) : r ≠ .no ∧ r ≠ .freed := by
  unfold reapStage at h
  split at h <;> grind

/-- The end of a thread. -/
theorem released_of_over (h : p.phase = .over) :
    p.released = true ∨ p.lasting = true ∨ p = .fault ∨
      ∃ b, p.own = some b ∧ p.holdsThread b = true := by
  cases p <;> simp_all [phase, released, lasting, own, holdsThread]

theorem running_or_holds_of_own (h : p.own = some b) :
    p.phase = .running ∨ p.holdsThread b = true := by
  unfold own at h
  split at h <;> simp_all [phase, holdsThread]

theorem target_or_own_of_holds (h : p.holdsThread b = true) :
    (∃ tid, p.target = some (tid, b)) ∨ p.own = some b := by
  unfold holdsThread at h
  split at h <;> simp_all [target, own]

/-- The places of `prog` where `t_mutex` is held. -/
theorem holding_thread (b : Nat) : prog.Holding (.thread b) (holdsThread b) where
  lock p q h := by
    change p.op = _ at h
    unfold op at h
    split at h <;> grind [holdsThread]
  unlock p q h := by
    change p.op = _ at h
    unfold op at h
    split at h <;> grind [holdsThread]
  wait p c a q h := by
    change p.op = _ at h
    unfold op at h
    split at h <;> grind [holdsThread]
  other p q h hlock hunlock hwait := by
    change Program.Op.LeadsTo p.op q at h
    change ∀ r, p.op ≠ _ at hlock
    change ∀ r, p.op ≠ _ at hunlock
    change ∀ c a r, p.op ≠ _ at hwait
    unfold op at h hlock hunlock hwait
    split at h <;> grind [Program.Op.LeadsTo, holdsThread]
  wake p := by
    change p.wake.holdsThread b = _
    cases p <;> rfl

end Pc

namespace Lib

variable {s s' : Lib} {e : Event}

/-! ## What a step does to a `thread_t` -/

/-- **What `thr_reap` does** with a `thread_t` in a step. -/
inductive Reaps (s : Lib) (e : Event) (s' : Lib) (b : Nat) : Prop
  /-- Nothing. -/
  | same (after : s'.reaped b = s.reaped b)
  /-- A call of `thr_join` begins. -/
  | begins {t tid : Int} {v : Status} (event : e = .go t) (here : s.pc t = .reapDestroy tid b v)
      (there : s'.pc t = .reapRemove tid b v) (unused : s.destroyable b = true)
      (after : s'.reaped b = .destroyed)
  /-- The last thread takes it out of the list. -/
  | pops {t c : Int} (event : e = .go t) (here : s.pc t = .lastNext)
      (first : s.nodes = (c, b) :: s'.nodes) (unused : s.destroyable b = true)
      (after : s'.reaped b = .destroyed)
  /-- The stack is removed. -/
  | removes {t : Int} (event : e = .go t) (here : (s.pc t).reapStage = some (b, .destroyed))
      (there : (s'.pc t).reapStage = some (b, .removed)) (after : s'.reaped b = .removed)
  /-- It is freed by a call of `thr_join`. -/
  | frees {t tid : Int} {v : Status} (event : e = .go t) (here : s.pc t = .reapFree tid b v)
      (there : s'.pc t = .deleteLock tid v) (after : s'.reaped b = .freed)
  /-- It is freed by the last thread. -/
  | lastFrees {t : Int} (event : e = .go t) (here : s.pc t = .lastFree b)
      (there : s'.pc t = .lastNext) (after : s'.reaped b = .freed)

theorem Effect.reaps (h : s.Effect e s') (b : Nat) : s.Reaps e s' b := by
  have place : ∀ (t : Int) (p : Pc), Function.update s.pc t p t = p :=
    fun t p => Function.update_self ..
  have other : ∀ (b' : Nat) (r : Reaping), b ≠ b' → Function.update s.reaped b' r b = s.reaped b :=
    fun b' r hb => Function.update_of_ne hb _ _
  cases h with
  | @destroy t tid b' v here =>
      by_cases hb : b = b'
      · subst hb
        by_cases hok : s.destroyable b = true
        · refine .begins rfl here ?_ hok ?_
          · rw [destroy_pc, if_pos hok, Function.update_self]
          · rw [destroy_reaped, if_pos hok, Function.update_self]
        · exact .same (by rw [destroy_reaped, if_neg hok])
      · exact .same (destroy_reaped_of_ne hb)
  | @lastPop t n rest here first =>
      by_cases hb : b = n.2
      · subst hb
        by_cases hok : s.destroyable n.2 = true
        · refine .pops rfl here first hok ?_
          show (if s.destroyable n.2 = true then Function.update s.reaped n.2 .destroyed
            else s.reaped) n.2 = _
          rw [if_pos hok, Function.update_self]
        · refine .same ?_
          show (if s.destroyable n.2 = true then Function.update s.reaped n.2 .destroyed
            else s.reaped) n.2 = _
          rw [if_neg hok]
      · exact .same (destroy_reaped_of_ne hb)
  | @remove t tid b' v here =>
      by_cases hb : b = b'
      · subst hb
        exact .removes rfl (by rw [here]; rfl) (congrArg Pc.reapStage (place t _))
          (Function.update_self ..)
      · exact .same (other b' _ hb)
  | @lastRemove t b' here =>
      by_cases hb : b = b'
      · subst hb
        exact .removes rfl (by rw [here]; rfl) (congrArg Pc.reapStage (place t _))
          (Function.update_self ..)
      · exact .same (other b' _ hb)
  | @free t tid b' v here =>
      by_cases hb : b = b'
      · subst hb
        exact .frees rfl here (place t _) (Function.update_self ..)
      · exact .same (other b' _ hb)
  | @lastFree t b' here =>
      by_cases hb : b = b'
      · subst hb
        exact .lastFrees rfl here (place t _) (Function.update_self ..)
      · exact .same (other b' _ hb)
  | _ => exact .same rfl

/-- **The fields of a `thread_t`** that was not freed. -/
theorem Effect.fields (h : s.Effect e s') {b : Nat} (hb : b < s.made) (hfreed : s.reaped b ≠ .freed) :
    (s'.block b).tid = (s.block b).tid ∧ (s'.block b).base = (s.block b).base ∧
      ((s'.block b).joiningTid = (s.block b).joiningTid ∨
        ∃ t tid, s.pc t = .joinTest tid b ∧ (s'.block b).joiningTid = t) := by
  cases h with
  | init =>
      rw [move_block, newThread_block, Function.update_of_ne (Nat.ne_of_lt hb)]
      exact ⟨rfl, rfl, Or.inl rfl⟩
  | @accept t tid b' here free =>
      rw [move_block, store_block]
      by_cases hbb : b = b'
      · subst hbb
        rw [Function.update_self]
        exact ⟨rfl, rfl, Or.inr ⟨t, tid, here, rfl⟩⟩
      · rw [Function.update_of_ne hbb]
        exact ⟨rfl, rfl, Or.inl rfl⟩
  | @exits t v b' here =>
      rw [move_block, store_block]
      by_cases hbb : b = b'
      · subst hbb
        rw [Function.update_self]
        exact ⟨rfl, rfl, Or.inl rfl⟩
      · rw [Function.update_of_ne hbb]
        exact ⟨rfl, rfl, Or.inl rfl⟩
  | @reuse b' content freed =>
      have hbb : b ≠ b' := by
        rintro rfl
        exact hfreed freed
      rw [store_block, Function.update_of_ne hbb]
      exact ⟨rfl, rfl, Or.inl rfl⟩
  | _ => exact ⟨rfl, rfl, Or.inl rfl⟩

/-! ## The property and the condition -/

/-- The `thread_t`s that a thread reads or writes when it goes on. -/
def touches (s : Lib) (t : Int) : List Nat :=
  match s.pc t with
  | .joinLockThread _ b | .joinTest _ b | .joinReject _ b | .joinLoop _ b | .joinWait _ b
  | .joinRelock _ b | .joinRelease _ b _ | .reapDestroy _ b _ | .reapRemove _ b _ | .reapFree _ b _
  | .exitLockThread _ b | .exitStore _ b | .exitSignal b | .exitUnlockThread b | .lastRemove b
  | .lastFree b => [b]
  | .exitCount _ => s.nodes.map Prod.snd
  | .lastNext => (s.nodes.map Prod.snd).take 1
  | _ => []

/-- The `thread_t` with which a thread begins `thr_reap` when it goes on. -/
def beginsReap (s : Lib) (t : Int) : Option Nat :=
  match s.pc t with
  | .reapDestroy _ b _ => some b
  | .lastNext => ((s.nodes.map Prod.snd).head?).filter fun b => (s.block b).tid ≠ t
  | _ => none

/-- The `thread_t` whose stack a thread removes when it goes on. -/
def removesStack (s : Lib) (t : Int) : Option Nat :=
  match s.pc t with
  | .reapRemove _ b _ | .lastRemove b => some b
  | _ => none

/-- **Resources are released after their last use**: no `thread_t` is read or written after it was
freed, none is reaped twice, and a stack is removed when its thread has vanished. -/
structure Safe (s : Lib) (e : Event) : Prop where
  /-- The uses. -/
  used : ∀ t, e = .go t → ∀ b ∈ s.touches t, s.reaped b ≠ .freed
  /-- The reaping. -/
  once : ∀ t b, e = .go t → s.beginsReap t = some b → s.reaped b = .no
  /-- The stacks. -/
  stack : ∀ t b, e = .go t → s.removesStack t = some b →
    ∀ x, s.stack x = some (s.block b).base → (s.pc x).ended = true

/-- The condition, as a test. `thr_join` looks a thread up, and `thr_exit` counts, when no call of
`thr_join` is between `free` and `list_delete_id`; `thr_join` frees a `thread_t` to which no other
call has a pointer; a stack is removed when its thread is not between its last `mutex_unlock` and
`vanish`; and when the `thread_t` of the first thread is reaped, its `base`, which was never set, is
not the base of a stack. -/
def careful (s : Lib) : Event → Bool
  | .go t =>
      match s.pc t with
      | .joinSearch tid => ∀ x ∈ s.registered, (s.pc x).unlinking ≠ some tid
      | .exitCount _ => ∀ x ∈ s.registered, (s.pc x).unlinking = none
      | .reapFree tid b _ => ∀ x ∈ s.registered, x = t ∨ (s.pc x).target ≠ some (tid, b)
      | .reapRemove _ b _ | .lastRemove b =>
          if b = 0 then (s.mapped (s.block 0).base).isNone else s.pc (s.owner b) ≠ .exitVanish
      | _ => true
  | _ => true

/-- **Careful reaping.** -/
def Careful (s : Lib) (e : Event) : Prop := s.careful e = true

/-! ## The invariant -/

/-- What holds in every run in which threads have positive numbers. -/
structure Tracked (s : Lib) : Prop where
  /-- The `thread_t`s. -/
  sound : s.Sound
  /-- Their threads. -/
  owned : s.Owned
  /-- The threads that have started. -/
  started : s.Started
  /-- The queues. -/
  asleep : Program.Asleep Pc.sleeping s.toSync
  /-- The numbers. -/
  positive : ∀ x, s.pc x ≠ .absent → 0 < x

theorem Tracked.step (h : s.Tracked) (step : s.Step e s') : s'.Tracked where
  sound := h.sound.step step
  owned := h.owned.step h.sound step
  started := h.started.step step
  asleep := asleep_step h.asleep (effect_of_step step)
  positive x hx := by
    by_cases habsent : s.pc x = .absent
    · exact ((effect_of_step step).born habsent hx).1
    · exact h.positive x habsent

/-- **What careful reaping keeps.** -/
structure Kept (s : Lib) : Prop extends Tracked s where
  /-- A pointer of `thr_join` is to a `thread_t` that was not freed. -/
  pointer : ∀ t tid b, (s.pc t).target = some (tid, b) → s.reaped b ≠ .freed
  /-- A node whose `thread_t` was freed is going to be taken out. -/
  unlinked : ∀ n ∈ s.nodes, s.reaped n.2 = .freed → s.last = [] →
    ∃ x, (s.pc x).unlinking = some n.1
  /-- `joining_tid` is set when a call of `thr_join` was accepted. -/
  accepted : ∀ t b, (s.pc t).accepted = some b → 0 < (s.block b).joiningTid
  /-- One call is accepted. -/
  acceptedOne : ∀ t x b, (s.pc t).accepted = some b → (s.pc x).accepted = some b → x = t
  /-- `joining_tid` is set while the `thread_t` is reaped. -/
  taken : ∀ b, s.reaped b ≠ .no → s.reaped b ≠ .freed → s.last = [] → 0 < (s.block b).joiningTid
  /-- The accepted call finds the `thread_t` as it was. -/
  awaiting : ∀ t b, (s.pc t).awaiting = some b → s.reaped b = .no
  /-- `thr_reap` is as far as its caller. -/
  stage : ∀ t b r, (s.pc t).reapStage = some (b, r) → s.reaped b = r
  /-- Nobody reaps the `thread_t` with which `thr_exit` works. -/
  own : ∀ t b, (s.pc t).own = some b → s.reaped b = .no
  /-- Its mutex is there until it is reaped. -/
  alive : ∀ b, b < s.made → s.reaped b = .no → s.mutex (.thread b) ≠ .destroyed
  /-- The mutex has one holder. -/
  exclusive : ∀ b, b < s.made → s.reaped b = .no →
    Program.Exclusive (.thread b) (Pc.holdsThread b) s.toSync
  /-- The last thread finds the `thread_t`s as they were. -/
  lastNodes : s.last ≠ [] → ∀ n ∈ s.nodes, 0 ≤ n.1 ∧ s.reaped n.2 = .no
  /-- `tid`, which is not set for the first thread. -/
  tids : ∀ b, b < s.made → b ≠ 0 → s.reaped b ≠ .freed → (s.block b).tid = s.owner b
  /-- While a `thread_t` is reaped, its thread does not use it any more. -/
  released : ∀ t b r, (s.pc t).reapStage = some (b, r) → b ≠ 0 →
    (s.pc (s.owner b)).released = true

namespace Tracked

variable (h : s.Tracked)

include h

/-- Nobody runs beside the last thread. -/
theorem not_running_of_lasting {t : Int} (ht : (s.pc t).lasting = true) (x : Int) :
    (s.pc x).phase ≠ .running := by
  intro hx
  have hlast := h.sound.lasting_last ht
  exact hlast (h.sound.last_eq_nil (Or.inr hx))

theorem lt_of_accepted {x : Int} {b : Nat} (hx : (s.pc x).accepted = some b) : b < s.made := by
  obtain ⟨tid, htarget⟩ := Pc.target_of_accepted hx
  exact (h.sound.target x tid b htarget).1

theorem lt_of_reapStage {x : Int} {b : Nat} {r : Reaping}
    (hx : (s.pc x).reapStage = some (b, r)) : b < s.made := by
  rcases Pc.accepted_or_lastBlock hx with ⟨haccepted, -⟩ | hlast
  · exact h.lt_of_accepted haccepted
  · exact h.sound.lastBlock x b hlast

/-- The running threads are in the list of those that have started. -/
theorem mem_registered {x : Int} (hx : (s.pc x).phase = .running) : x ∈ s.registered :=
  h.started.started x (Or.inl hx)

/-! ### The condition -/

theorem careful_lookup {t tid : Int} (hc : s.Careful (.go t)) (ht : s.pc t = .joinSearch tid)
    (x : Int) : (s.pc x).unlinking ≠ some tid := by
  intro hx
  have hmem : x ∈ s.registered := h.mem_registered (Pc.running_of_unlinking hx)
  simp only [Careful, careful, ht, decide_eq_true_eq] at hc
  exact hc x hmem hx

theorem careful_count {t : Int} {v : Status} (hc : s.Careful (.go t)) (ht : s.pc t = .exitCount v)
    (x : Int) : (s.pc x).unlinking = none := by
  by_contra hx
  obtain ⟨tid, htid⟩ := Option.ne_none_iff_exists'.mp hx
  have hmem : x ∈ s.registered := h.mem_registered (Pc.running_of_unlinking htid)
  simp only [Careful, careful, ht, decide_eq_true_eq] at hc
  exact hx (hc x hmem)

theorem careful_free {t tid : Int} {b : Nat} {v : Status} (hc : s.Careful (.go t))
    (ht : s.pc t = .reapFree tid b v) {x : Int} (hx : (s.pc x).target = some (tid, b)) : x = t := by
  have hmem : x ∈ s.registered := h.mem_registered (Pc.running_of_target hx)
  simp only [Careful, careful, ht, decide_eq_true_eq] at hc
  exact (hc x hmem).resolve_right fun hne => hne hx

end Tracked

namespace Kept

variable (h : s.Kept)

include h

/-- One thread reaps a `thread_t`. -/
theorem stageOne {t x : Int} {b : Nat} {r r' : Reaping} (ht : (s.pc t).reapStage = some (b, r))
    (hx : (s.pc x).reapStage = some (b, r')) : x = t := by
  rcases Pc.accepted_or_lastBlock ht with ⟨ht, -⟩ | ht
  · rcases Pc.accepted_or_lastBlock hx with ⟨hx, -⟩ | hx
    · exact h.acceptedOne t x b ht hx
    · exact absurd (Pc.running_of_accepted ht)
        (h.not_running_of_lasting (Pc.lasting_of_lastBlock hx) t)
  · rcases Pc.accepted_or_lastBlock hx with ⟨hx, -⟩ | hx
    · exact absurd (Pc.running_of_accepted hx)
        (h.not_running_of_lasting (Pc.lasting_of_lastBlock ht) x)
    · exact h.owned.lastOne x (h.sound.lasting x (Pc.lasting_of_lastBlock hx)) t
        (h.sound.lasting t (Pc.lasting_of_lastBlock ht))

/-- A `thread_t` whose mutex is held is not destroyed. -/
theorem not_destroyable {x : Int} {b : Nat} (hb : b < s.made) (hno : s.reaped b = .no)
    (hx : (s.pc x).holdsThread b = true) : s.destroyable b = false := by
  have hheld : s.mutex (.thread b) = .held x := h.exclusive b hb hno x hx
  simp [destroyable, locked, hheld]

/-- **What becomes of a `thread_t`** with which an accepted call works. -/
theorem reaped_of_accepted (step : s.Step e s') {t : Int} {b : Nat}
    (ht : (s.pc t).accepted = some b) : s'.reaped b = s.reaped b ∨
      (∃ tid v, s.pc t = .reapDestroy tid b v ∧ s'.pc t = .reapRemove tid b v) ∨
      (s.pc t).awaiting = none := by
  have hrunning := Pc.running_of_accepted ht
  rcases (effect_of_step step).reaps b with hsame | ⟨-, hx, hthere, -⟩ | ⟨-, hx, -⟩ | ⟨-, hx, -⟩ |
    ⟨-, hx, -⟩ | ⟨-, hx, -⟩
  · exact Or.inl hsame
  · obtain rfl := h.acceptedOne t _ b ht (by rw [hx]; rfl)
    exact Or.inr (Or.inl ⟨_, _, hx, hthere⟩)
  · exact absurd hrunning (h.not_running_of_lasting (by rw [hx]; rfl) t)
  · rcases Pc.accepted_or_lastBlock hx with ⟨hx, hnone⟩ | hx
    · obtain rfl := h.acceptedOne t _ b ht hx
      exact Or.inr (Or.inr hnone)
    · exact absurd hrunning (h.not_running_of_lasting (Pc.lasting_of_lastBlock hx) t)
  · obtain rfl := h.acceptedOne t _ b ht (by rw [hx]; rfl)
    exact Or.inr (Or.inr (by rw [hx]; rfl))
  · exact absurd hrunning (h.not_running_of_lasting (by rw [hx]; rfl) t)

/-- What is being reaped was allocated. -/
theorem lt_of_reaped (step : s.Step e s') {b : Nat} (hb : s'.reaped b ≠ .no) : b < s.made := by
  by_contra hnew
  have hfresh := h.sound.fresh b (Nat.not_lt.mp hnew)
  by_cases hmade : b < s'.made
  · rw [((effect_of_step step).made_new (Nat.not_lt.mp hnew) hmade).2] at hb
    exact hb hfresh
  · exact hb (h.sound.step_fresh step b (Nat.not_lt.mp hmade))

/-- `joining_tid` stays set. -/
theorem joiningTid_keep (step : s.Step e s') {b : Nat} (hb : b < s.made)
    (hfreed : s.reaped b ≠ .freed) (hpos : 0 < (s.block b).joiningTid) :
    0 < (s'.block b).joiningTid := by
  rcases ((effect_of_step step).fields hb hfreed).2.2 with hsame | ⟨x, tid, hx, hset⟩
  · rwa [hsame]
  · rw [hset]
    exact h.positive x (by rw [hx]; exact Pc.noConfusion)

omit h in
/-- **A call of `thr_join` is accepted** when nobody has set `joining_tid`. -/
theorem accepts {t tid : Int} {b : Nat} (step : s.Step e s') (htest : s.pc t = .joinTest tid b)
    (hloop : s'.pc t = .joinLoop tid b) : e = .go t ∧ ¬0 < (s.block b).joiningTid ∧
      (s'.block b).joiningTid = t ∧ s'.reaped = s.reaped := by
  obtain ⟨hevent, hcode⟩ := code_of_edge step htest hloop Pc.noConfusion rfl
  simp only [code, htest] at hcode
  split_ifs at hcode with htaken
  · obtain rfl := Option.some.inj hcode
    rw [move_pc, Function.update_self] at hloop
    cases hloop
  · obtain rfl := Option.some.inj hcode
    refine ⟨hevent, htaken, ?_, rfl⟩
    rw [move_block, store_block, Function.update_self]

/-! ### Its steps -/

theorem step_pointer (step : s.Step e s') (careful : s.Careful e) (t tid : Int) (b : Nat)
    (ht : (s'.pc t).target = some (tid, b)) : s'.reaped b ≠ .freed := by
  have heffect := effect_of_step step
  rcases (heffect.flow t).target_back ht with hold | ⟨hsearch, hunlock⟩
  · have hrunning := Pc.running_of_target hold
    rcases heffect.reaps b with hsame | ⟨-, -, -, -, hafter⟩ | ⟨-, -, -, -, hafter⟩ | ⟨-, -, -, hafter⟩ |
      ⟨rfl, hx, hthere, -⟩ | ⟨-, hx, -⟩
    · rw [hsame]
      exact h.pointer t tid b hold
    · rw [hafter]
      exact Reaping.noConfusion
    · rw [hafter]
      exact Reaping.noConfusion
    · rw [hafter]
      exact Reaping.noConfusion
    · obtain rfl := (h.sound.target _ _ b (by rw [hx]; rfl)).2.symm.trans (h.sound.target t tid b hold).2
      obtain rfl := h.careful_free careful hx hold
      rw [hthere] at ht
      cases ht
    · exact absurd hrunning (h.not_running_of_lasting (by rw [hx]; rfl) t)
  · obtain ⟨rfl, hfound, rfl⟩ := searched step hsearch hunlock
    have hmem := mem_of_search hfound
    intro hfreed
    obtain ⟨x, hx⟩ := h.unlinked _ hmem hfreed (h.sound.last_eq_nil (Or.inr (by rw [hsearch]; rfl)))
    exact h.careful_lookup careful hsearch x hx

theorem step_unlinked (step : s.Step e s') (n : Int × Nat) (hn : n ∈ s'.nodes)
    (hfreed : s'.reaped n.2 = .freed) (hlast' : s'.last = []) :
    ∃ x, (s'.pc x).unlinking = some n.1 := by
  have heffect := effect_of_step step
  have hlast : s.last = [] := by
    by_contra hne
    exact heffect.last_ne_nil hne hlast'
  have hmem := h.sound.mem_of_reaped step hlast hn (by rw [hfreed]; exact Reaping.noConfusion)
  rcases heffect.reaps n.2 with hsame | ⟨-, -, -, -, hafter⟩ | ⟨-, -, -, -, hafter⟩ | ⟨-, -, -, hafter⟩ |
    ⟨-, hx, hthere, -⟩ | ⟨-, hx, -⟩
  · obtain ⟨x, hx⟩ := h.unlinked n hmem (hsame.symm.trans hfreed) hlast
    rcases (heffect.flow x).unlinking_keep hx with hstill | ⟨v, hdelete, hunlock⟩
    · exact ⟨x, hstill⟩
    · -- the node is taken out in this step
      obtain ⟨-, hcode⟩ := code_of_edge step hdelete hunlock Pc.noConfusion rfl
      simp only [code, hdelete] at hcode
      obtain rfl := Option.some.inj hcode
      have hpos : 0 < n.1 := by
        apply h.positive
        intro habsent
        rcases h.sound.past x n.1 (by rw [hdelete]; rfl) with hover | hne
        · rw [habsent] at hover
          cases hover
        · exact hne hlast
      exact absurd rfl (h.sound.distinct.not_mem_delete (Int.le_of_lt hpos) n hn)
  · rw [hafter] at hfreed
    cases hfreed
  · rw [hafter] at hfreed
    cases hfreed
  · rw [hafter] at hfreed
    cases hfreed
  · rename_i x tid v
    have howner := (h.sound.target x tid n.2 (by rw [hx]; rfl)).2
    rw [(h.sound.nodes n hmem).2.1] at howner
    exact ⟨x, by rw [hthere, howner]; rfl⟩
  · exact absurd hlast (h.sound.lasting_last (by rw [hx]; rfl))

theorem step_accepted (step : s.Step e s') (t : Int) (b : Nat)
    (ht : (s'.pc t).accepted = some b) : 0 < (s'.block b).joiningTid := by
  rcases ((effect_of_step step).flow t).accepted_back ht with hold | ⟨tid, htest, hloop⟩
  · obtain ⟨tid, htarget⟩ := Pc.target_of_accepted hold
    exact h.joiningTid_keep step (h.lt_of_accepted hold) (h.pointer t tid b htarget)
      (h.accepted t b hold)
  · rw [(accepts step htest hloop).2.2.1]
    exact h.positive t (by rw [htest]; exact Pc.noConfusion)

theorem step_acceptedOne (step : s.Step e s') (t x : Int) (b : Nat)
    (ht : (s'.pc t).accepted = some b) (hx : (s'.pc x).accepted = some b) : x = t := by
  have heffect := effect_of_step step
  rcases (heffect.flow t).accepted_back ht with ht | ⟨tid, htest, hloop⟩
  · rcases (heffect.flow x).accepted_back hx with hx | ⟨tid, htest, hloop⟩
    · exact h.acceptedOne t x b ht hx
    · exact absurd (h.accepted t b ht) (accepts step htest hloop).2.1
  · rcases (heffect.flow x).accepted_back hx with hx | ⟨tid', htest', hloop'⟩
    · exact absurd (h.accepted x b hx) (accepts step htest hloop).2.1
    · have hevent := (accepts step htest hloop).1
      rw [(accepts step htest' hloop').1] at hevent
      exact Event.go.inj hevent

theorem step_taken (step : s.Step e s') (b : Nat) (hno : s'.reaped b ≠ .no)
    (hfreed : s'.reaped b ≠ .freed) (hlast' : s'.last = []) : 0 < (s'.block b).joiningTid := by
  have heffect := effect_of_step step
  have hlast : s.last = [] := by
    by_contra hne
    exact heffect.last_ne_nil hne hlast'
  have hb := h.lt_of_reaped step hno
  have keep : ∀ t, (s.pc t).accepted = some b → 0 < (s'.block b).joiningTid := by
    intro t ht
    obtain ⟨tid, htarget⟩ := Pc.target_of_accepted ht
    exact h.joiningTid_keep step hb (h.pointer t tid b htarget) (h.accepted t b ht)
  rcases heffect.reaps b with hsame | ⟨-, hx, -⟩ | ⟨-, hx, -⟩ | ⟨-, hx, -⟩ | ⟨-, -, -, hafter⟩ |
    ⟨-, -, -, hafter⟩
  · rw [hsame] at hno hfreed
    exact h.joiningTid_keep step hb hfreed (h.taken b hno hfreed hlast)
  · exact keep _ (by rw [hx]; rfl)
  · exact absurd hlast (h.sound.lasting_last (by rw [hx]; rfl))
  · rcases Pc.accepted_or_lastBlock hx with ⟨hx, -⟩ | hx
    · exact keep _ hx
    · exact absurd hlast (h.sound.lasting_last (Pc.lasting_of_lastBlock hx))
  · exact absurd hafter hfreed
  · exact absurd hafter hfreed

theorem step_awaiting (step : s.Step e s') (t : Int) (b : Nat)
    (ht : (s'.pc t).awaiting = some b) : s'.reaped b = .no := by
  rcases ((effect_of_step step).flow t).awaiting_back ht with hold | ⟨tid, htest, hloop⟩
  · rcases h.reaped_of_accepted step (Pc.accepted_of_awaiting hold) with hsame | ⟨tid, v, -, hremove⟩ |
      hnone
    · rw [hsame, h.awaiting t b hold]
    · rw [hremove] at ht
      cases ht
    · rw [hnone] at hold
      cases hold
  · -- `joining_tid` would be set if it were reaped
    obtain ⟨-, hfree, -, hreaped⟩ := accepts step htest hloop
    rw [hreaped]
    by_contra hno
    have hlast := h.sound.last_eq_nil (x := t) (Or.inr (by rw [htest]; rfl))
    exact hfree (h.taken b hno (h.pointer t tid b (by rw [htest]; rfl)) hlast)

end Kept

end Lib

end Pebbles.ThreadLib
