import Pebbles.Libthread.ThreadBlocks

/-! # Joining a thread

A call of `thr_join` looks its target up under `list_mutex` and works with the `thread_t`
afterwards. As long as nobody else is between these two points, the `thread_t` is there until the
call reaps it, and the status that the call reads is the one with which its target has called
`thr_exit`. -/

namespace Pebbles.ThreadLib

open Monitors Transition

/-! ## What a place says -/

namespace Pc

/-- The pointer of a call of `thr_join` that has not begun to reap. -/
def holding : Pc → Option (Int × Nat)
  | joinUnlock tid (some b) | joinLockThread tid b | joinTest tid b | joinReject tid b
  | joinLoop tid b | joinWait tid b | joinAsleep tid b | joinRelock tid b | joinRelease tid b _
  | reapDestroy tid b _ => some (tid, b)
  | _ => none

/-- The target of a call of `thr_join`. -/
def joins : Pc → Option Int
  | joinLock tid | joinSearch tid | joinUnlock tid _ | joinLockThread tid _ | joinTest tid _
  | joinReject tid _ | joinLoop tid _ | joinWait tid _ | joinAsleep tid _ | joinRelock tid _
  | joinRelease tid _ _ | reapDestroy tid _ _ | reapRemove tid _ _ | reapFree tid _ _
  | deleteLock tid _ | deleteNode tid _ | deleteUnlock tid _ => some tid
  | _ => none

/-- The target and the status that a call of `thr_join` has read. -/
def result : Pc → Option (Int × Status)
  | joinRelease tid _ v | reapDestroy tid _ v | reapRemove tid _ v | reapFree tid _ v
  | deleteLock tid v | deleteNode tid v | deleteUnlock tid v => some (tid, v)
  | _ => none

/-- The status of a call of `thr_exit` that has not stored it. -/
def exiting : Pc → Option Status
  | exitLock v | exitCount v | exitUnlock v _ | exitLockThread v _ | exitStore v _ => some v
  | _ => none

/-- The pointer of a call of `thr_join` that is reaping. -/
def reapBlock : Pc → Option Nat
  | reapRemove _ b _ | reapFree _ b _ => some b
  | _ => none

variable {p q : Pc}

attribute [local simp] holding joins result exiting reapBlock

theorem Flow.holding_back {tid : Int} {b : Nat} (h : Flow p q) (hq : q.holding = some (tid, b)) :
    p.holding = some (tid, b) ∨ p = .joinSearch tid ∧ q = .joinUnlock tid (some b) := by
  cases h.edge <;> simp_all [Pc.holding]

theorem Flow.joins_back {tid : Int} (h : Flow p q) (hq : q.joins = some tid) :
    p.joins = some tid ∨ p = .user ∧ q = .joinLock tid := by
  cases h.edge <;> simp_all [Pc.joins]

theorem Flow.result_back {tid : Int} {v : Status} (h : Flow p q) (hq : q.result = some (tid, v)) :
    p.result = some (tid, v) ∨ ∃ b, p = .joinLoop tid b ∧ q = .joinRelease tid b v := by
  cases h.edge <;> simp_all [Pc.result]

theorem Flow.exiting_back {v : Status} (h : Flow p q) (hq : q.exiting = some v) :
    p.exiting = some v ∨ p = .user ∧ q = .exitLock v := by
  cases h.edge <;> simp_all [Pc.exiting]

theorem Flow.exiting_keep {v : Status} (h : Flow p q) (hp : p.exiting = some v) :
    q.exiting = some v ∨ q.phase = .over := by
  cases h.edge <;> simp_all [Pc.exiting, Pc.phase]

theorem Flow.reapBlock_back {b : Nat} (h : Flow p q) (hq : q.reapBlock = some b) :
    p.reapBlock = some b ∨ ∃ tid v, p = .reapDestroy tid b v ∧ q = .reapRemove tid b v := by
  cases h.edge <;> simp_all [Pc.reapBlock]

theorem Flow.reaps {tid : Int} {b : Nat} (h : Flow p q) (hp : p.target = some (tid, b))
    (hq : q.reaping = some tid) : p.reapBlock = some b ∨ ∃ v, p = .reapDestroy tid b v := by
  cases h.edge with
  | stay => cases p <;> simp_all [Pc.target, Pc.reaping, Pc.reapBlock]
  | _ => simp_all [Pc.target, Pc.reaping, Pc.reapBlock]

theorem target_of_holding {x : Int × Nat} (h : p.holding = some x) : p.target = some x := by
  unfold holding at h
  split at h <;> simp_all [target]

theorem joins_of_holding {tid : Int} {b : Nat} (h : p.holding = some (tid, b)) :
    p.joins = some tid := by
  unfold holding at h
  split at h <;> simp_all [joins]

theorem joins_of_reaping {tid : Int} (h : p.reaping = some tid) : p.joins = some tid := by
  unfold reaping at h
  split at h <;> simp_all [joins]

theorem holding_of_reaping {tid : Int} (h : p.reaping = some tid) : p.holding = none := by
  unfold reaping at h
  split at h <;> simp_all [holding]

theorem target_of_reapBlock {b : Nat} (h : p.reapBlock = some b) :
    ∃ tid, p.target = some (tid, b) := by
  unfold reapBlock at h
  split at h <;> simp_all [target]

end Pc

namespace Lib

variable {s s' : Lib} {e : Event}

/-! ## Nobody between the lookup and the reaping -/

/-- **Apart**: `thr_join` looks its target up when nobody reaps it, and begins to reap it when
nobody else has looked it up. -/
def Apart (s : Lib) (e : Event) : Prop :=
  ∀ t, e = .go t →
    (∀ tid, s.pc t = .joinSearch tid → ∀ x, (s.pc x).reaping ≠ some tid) ∧
      ∀ tid b v, s.pc t = .reapDestroy tid b v →
        ∀ x, x ≠ t → (s.pc x).holding ≠ some (tid, b)

/-- The `thread_t` that a call of `thr_join` has looked up is there until the call reaps it. -/
structure Unreaped (s : Lib) : Prop where
  /-- Before. -/
  holding : ∀ t tid b, (s.pc t).holding = some (tid, b) → s.reaped b = .no
  /-- Afterwards. -/
  reapBlock : ∀ t b, (s.pc t).reapBlock = some b → s.reaped b ≠ .no

/-- `thr_reap` is not undone. -/
theorem Effect.reaped_ne_no (h : s.Effect e s') {b : Nat} (hb : s.reaped b ≠ .no) :
    s'.reaped b ≠ .no := by
  have hset : ∀ (b' : Nat) (r : Reaping), r ≠ .no → Function.update s.reaped b' r b ≠ .no := by
    intro b' r hr
    by_cases hbb : b = b'
    · rwa [hbb, Function.update_self]
    · rwa [Function.update_of_ne hbb]
  have hdestroy : ∀ (u : Lib) (t : Int) (b' : Nat) (p : Pc), u.reaped = s.reaped →
      (u.destroy t b' p).reaped b ≠ .no := by
    intro u t b' p hu
    rw [destroy_reaped, hu]
    split_ifs
    · exact hset b' _ Reaping.noConfusion
    · exact hb
  cases h with
  | destroy | lastPop => exact hdestroy _ _ _ _ rfl
  | remove | lastRemove | free | lastFree => exact hset _ _ Reaping.noConfusion
  | _ => exact hb

/-- The same for one target. -/
structure UnreapedOf (s : Lib) (tid : Int) : Prop where
  /-- Before. -/
  holding : ∀ t b, (s.pc t).holding = some (tid, b) → s.reaped b = .no
  /-- Afterwards. -/
  reapBlock : ∀ t b, (s.pc t).reapBlock = some b → s.owner b = tid → s.reaped b ≠ .no

theorem unreaped_iff : s.Unreaped ↔ ∀ tid, s.UnreapedOf tid :=
  ⟨fun h tid => ⟨fun t b => h.holding t tid b, fun t b hb _ => h.reapBlock t b hb⟩,
    fun h => ⟨fun t tid => (h tid).holding t, fun t b hb => (h (s.owner b)).reapBlock t b hb rfl⟩⟩

/-- **Apart**, for one target. -/
def ApartFor (s : Lib) (e : Event) (tid : Int) : Prop :=
  ∀ t, e = .go t →
    (s.pc t = .joinSearch tid → ∀ x, (s.pc x).reaping ≠ some tid) ∧
      ∀ b v, s.pc t = .reapDestroy tid b v → ∀ x, x ≠ t → (s.pc x).holding ≠ some (tid, b)

theorem UnreapedOf.step_holding {tid : Int} (hu : s.UnreapedOf tid) (h : s.Sound)
    (step : s.Step e s') (apart : s.ApartFor e tid) (t : Int) (b : Nat)
    (ht : (s'.pc t).holding = some (tid, b)) : s'.reaped b = .no := by
  have heffect := effect_of_step step
  rcases (heffect.flow t).holding_back ht with hold | ⟨hsearch, hunlock⟩
  · have hno := hu.holding t b hold
    have htarget := Pc.target_of_holding hold
    have hlast := h.last_eq_nil (Or.inr (Pc.running_of_target htarget))
    rcases heffect.reaped b with hsame | ⟨x, tid', hx, -, hreaping⟩ | ⟨x, hx, -⟩ | ⟨x, hx⟩
    · rw [hsame, hno]
    · obtain rfl : tid = tid' := (h.target t tid b htarget).2.symm.trans (h.target x tid' b hx).2
      rcases (heffect.flow x).reaps hx hreaping with hblock | ⟨v, hdestroy⟩
      · exact absurd hno (hu.reapBlock x b hblock (h.target x tid b hx).2)
      · -- nobody else has looked it up
        have hmoved : s'.pc x ≠ s.pc x := by
          intro hsame
          rw [hsame, hdestroy] at hreaping
          cases hreaping
        obtain rfl := event_of_moved step hmoved (by rw [hdestroy]; rfl)
        by_cases hxt : t = x
        · rw [hxt, Pc.holding_of_reaping hreaping] at ht
          cases ht
        · exact absurd hold ((apart x rfl).2 b v hdestroy t hxt)
    · exact absurd hlast (h.lasting_last (by rw [hx]; rfl))
    · exact absurd hlast (h.lasting_last (Pc.lasting_of_lastBlock hx))
  · obtain ⟨rfl, hfound, rfl⟩ := searched step hsearch hunlock
    have hmem := mem_of_search hfound
    by_contra hreaped
    rcases h.dangling _ hmem hreaped with ⟨x, hx⟩ | hlast
    · exact (apart t rfl).1 hsearch x hx
    · exact hlast (h.last_eq_nil (Or.inr (by rw [hsearch]; rfl)))

theorem UnreapedOf.step_reapBlock {tid : Int} (hu : s.UnreapedOf tid) (h : s.Sound)
    (step : s.Step e s') (t : Int) (b : Nat) (ht : (s'.pc t).reapBlock = some b)
    (howner : s'.owner b = tid) : s'.reaped b ≠ .no := by
  have heffect := effect_of_step step
  rcases (heffect.flow t).reapBlock_back ht with hold | ⟨tid', v, hdestroy, hremove⟩
  · have hb : b < s.made := by
      obtain ⟨tid', htarget⟩ := Pc.target_of_reapBlock hold
      exact (h.target t tid' b htarget).1
    rw [heffect.owner_eq hb] at howner
    exact heffect.reaped_ne_no (hu.reapBlock t b hold howner)
  · obtain ⟨-, hcode⟩ := code_of_edge step hdestroy hremove Pc.noConfusion rfl
    simp only [code, hdestroy] at hcode
    obtain rfl := Option.some.inj hcode
    rw [destroy_pc, Function.update_self] at hremove
    rw [destroy_reaped]
    split_ifs at hremove ⊢
    rw [Function.update_self]
    exact Reaping.noConfusion

theorem UnreapedOf.step {tid : Int} (hu : s.UnreapedOf tid) (h : s.Sound) (step : s.Step e s')
    (apart : s.ApartFor e tid) : s'.UnreapedOf tid :=
  ⟨hu.step_holding h step apart, hu.step_reapBlock h step⟩

theorem Unreaped.step (hu : s.Unreaped) (h : s.Sound) (step : s.Step e s') (apart : s.Apart e) :
    s'.Unreaped :=
  unreaped_iff.mpr fun tid => (unreaped_iff.mp hu tid).step h step fun t ht =>
    ⟨(apart t ht).1 tid, (apart t ht).2 tid⟩

/-! ## The status -/

/-- **A single joiner per target**: all calls of `thr_join` on a thread are of one thread. -/
def SingleJoiner (s : Lib) : Event → Prop
  | .join t tid => ∀ j, s.joiner tid = some j → j = t
  | _ => True

/-- The condition, as a test. -/
def singleJoiner (s : Lib) : Event → Bool
  | .join t tid => s.joiner tid = none ∨ s.joiner tid = some t
  | _ => true

theorem singleJoiner_spec (h : s.singleJoiner e = true) : s.SingleJoiner e := by
  cases e with
  | join t tid =>
      intro j hj
      simp only [singleJoiner, hj, decide_eq_true_eq, reduceCtorEq, Option.some.injEq, false_or] at h
      exact h
  | _ => trivial

/-- **A single joiner** of one target. A thread that joins itself is turned away at once. -/
def SingleJoinerOf (tid : Int) (s : Lib) : Event → Prop
  | .join t tid' => tid' = tid → tid' ≠ t → ∀ j, s.joiner tid = some j → j = t
  | _ => True

/-- **Join delivers the exit status**: a call that has found its target returns with the status with
which the target has called `thr_exit`; and a thread whose start function runs, or has run, was put
into the list. -/
structure Delivered (s : Lib) : Prop where
  /-- The status. -/
  status : ∀ tid v, (tid, v) ∈ s.joined → s.exited tid = some v
  /-- The start. -/
  started : ∀ c, (s.pc c).phase = .running ∨ (s.pc c).phase = .over → c ∈ s.registered

/-- The joiner of a thread is the one that is in `thr_join`. -/
def Joining (s : Lib) : Prop := ∀ t tid, (s.pc t).joins = some tid → s.joiner tid = some t

/-- The same for one target. -/
def JoiningOf (s : Lib) (tid : Int) : Prop :=
  ∀ t, (s.pc t).joins = some tid → s.joiner tid = some t

/-- Two calls of `thr_join` on the target are of one thread. -/
theorem JoiningOf.unique {tid t x : Int} (h : s.JoiningOf tid) (ht : (s.pc t).joins = some tid)
    (hx : (s.pc x).joins = some tid) : x = t :=
  Option.some.inj ((h x hx).symm.trans (h t ht))

/-- With a single joiner, nobody is between the lookup and the reaping. -/
theorem JoiningOf.apart {tid : Int} (h : s.JoiningOf tid) : s.ApartFor e tid := by
  rintro t -
  constructor
  · intro ht x hx
    have hsame : x = t := h.unique (by rw [ht]; rfl) (Pc.joins_of_reaping hx)
    rw [hsame, ht] at hx
    cases hx
  · intro b v ht x hxt hx
    exact hxt (h.unique (by rw [ht]; rfl) (Pc.joins_of_holding hx))

/-- The same for all targets. -/
theorem Joining.apart (h : s.Joining) : s.Apart e := fun t ht =>
  ⟨fun tid => (JoiningOf.apart (h · tid) t ht).1, fun tid => (JoiningOf.apart (h · tid) t ht).2⟩

/-- The joiner of a thread changes with a call of `thr_join`. -/
theorem Effect.joiner (h : s.Effect e s') : s'.joiner = s.joiner ∨
    ∃ t tid, e = .join t tid ∧ tid ≠ t ∧ s'.joiner = Function.update s.joiner tid (some t) := by
  cases h with
  | join here other => exact Or.inr ⟨_, _, rfl, other, rfl⟩
  | _ => exact Or.inl rfl

theorem joining_iff : s.Joining ↔ ∀ tid, s.JoiningOf tid :=
  ⟨fun h tid t => h t tid, fun h t tid => h tid t⟩

theorem JoiningOf.step {tid : Int} (hj : s.JoiningOf tid) (step : s.Step e s')
    (single : s.SingleJoinerOf tid e) : s'.JoiningOf tid := by
  have heffect := effect_of_step step
  intro t ht
  rcases (heffect.flow t).joins_back ht with hold | ⟨huser, hlock⟩
  · have hbefore := hj t hold
    rcases heffect.joiner with hsame | ⟨t', tid', rfl, hother, hjoiner⟩
    · rw [hsame, hbefore]
    · by_cases htid : tid' = tid
      · subst htid
        rw [hjoiner, Function.update_self, single rfl hother t hbefore]
      · rw [hjoiner, Function.update_of_ne (Ne.symm htid), hbefore]
  · rcases called step huser (by rw [hlock]; exact Pc.noConfusion) with ⟨-, hcreate⟩ |
      ⟨tid', -, hjoin, hjoiner⟩ | ⟨v, -, hexit | hexit, -⟩
    · rw [hlock] at hcreate
      cases hcreate
    · rw [hlock] at hjoin
      rw [hjoiner, Pc.joinLock.inj hjoin, Function.update_self]
    · rw [hlock] at hexit
      cases hexit
    · rw [hlock] at hexit
      cases hexit

theorem Joining.step (hj : s.Joining) (step : s.Step e s') (single : s.SingleJoiner e) :
    s'.Joining := by
  refine joining_iff.mpr fun tid => (joining_iff.mp hj tid).step step ?_
  cases e with
  | join t tid' =>
      rintro rfl -
      exact single
  | _ => trivial

/-- What was put into the list. -/
structure Started (s : Lib) : Prop where
  /-- The threads of the list. -/
  nodes : ∀ n ∈ s.nodes, n.1 ∈ s.registered
  /-- The threads that have started. -/
  started : ∀ c, (s.pc c).phase = .running ∨ (s.pc c).phase = .over → c ∈ s.registered

/-- A thread is put into the list once. -/
theorem Effect.registered (h : s.Effect e s') :
    (s'.registered = s.registered ∧ ∀ n ∈ s'.nodes, n ∈ s.nodes) ∨
      ∃ b c, s'.registered = c :: s.registered ∧ s'.nodes = s.nodes ++ [(c, b)] := by
  cases h with
  | insert => exact Or.inr ⟨_, _, rfl, rfl⟩
  | delete => exact Or.inl ⟨rfl, fun n hn => List.mem_of_mem_eraseP hn⟩
  | lastPop here first =>
      refine Or.inl ⟨rfl, fun n hn => ?_⟩
      rw [first]
      exact List.mem_cons_of_mem _ hn
  | _ => exact Or.inl ⟨rfl, fun n hn => hn⟩

theorem Started.step (hs : s.Started) (step : s.Step e s') : s'.Started := by
  have heffect := effect_of_step step
  have keep : ∀ c ∈ s.registered, c ∈ s'.registered := by
    intro c hc
    rcases heffect.registered with ⟨hsame, -⟩ | ⟨b, c', hcons, -⟩
    · rwa [hsame]
    · rw [hcons]
      exact List.mem_cons_of_mem _ hc
  constructor
  · intro n hn
    rcases heffect.registered with ⟨-, hsub⟩ | ⟨b, c, hcons, hnodes⟩
    · exact keep _ (hs.nodes n (hsub n hn))
    · rw [hnodes, List.mem_append, List.mem_singleton] at hn
      rcases hn with hn | rfl
      · exact keep _ (hs.nodes n hn)
      · rw [hcons]
        exact List.mem_cons_self
  · intro c hc
    apply keep
    rcases hc with hrunning | hover
    · rcases (heffect.flow c).running_back hrunning with hold | ⟨w, hcheck, hunlock⟩
      · exact hs.started c (Or.inl hold)
      · -- it has found itself in the list
        obtain ⟨-, hcode⟩ := code_of_edge step hcheck hunlock Pc.noConfusion rfl
        simp only [code, hcheck] at hcode
        obtain rfl := Option.some.inj hcode
        rw [move_pc, Function.update_self] at hunlock
        split_ifs at hunlock with hfound
        obtain ⟨b, hb⟩ := Option.ne_none_iff_exists'.mp hfound
        exact hs.nodes _ (mem_of_search hb)
    · exact hs.started c ((heffect.flow c).over_back hover).symm

/-- **What the statuses are.** -/
structure Told (s : Lib) : Prop where
  /-- A thread in `thr_exit`. -/
  exiting : ∀ t v, (s.pc t).exiting = some v → s.exited t = some v
  /-- Nobody comes back from `thr_exit`. -/
  exited : ∀ t v, s.exited t = some v → (s.pc t).exiting = some v ∨ (s.pc t).phase = .over
  /-- A stored status. -/
  stored : ∀ b, b < s.made → s.reaped b = .no → (s.block b).status = .exit →
    s.exited (s.owner b) = some (s.block b).statusp
  /-- A status that `thr_join` has read. -/
  result : ∀ t tid v, (s.pc t).result = some (tid, v) → s.exited tid = some v
  /-- A status that `thr_join` has returned. -/
  joined : ∀ tid v, (tid, v) ∈ s.joined → s.exited tid = some v

/-- **The statuses with which threads exit.** -/
structure Exits (s : Lib) : Prop where
  /-- A thread in `thr_exit`. -/
  exiting : ∀ t v, (s.pc t).exiting = some v → s.exited t = some v
  /-- Nobody comes back from `thr_exit`. -/
  exited : ∀ t v, s.exited t = some v → (s.pc t).exiting = some v ∨ (s.pc t).phase = .over
  /-- A stored status. -/
  stored : ∀ b, b < s.made → s.reaped b = .no → (s.block b).status = .exit →
    s.exited (s.owner b) = some (s.block b).statusp

/-- The statuses of one target that `thr_join` has read and returned. -/
structure ToldOf (s : Lib) (tid : Int) : Prop where
  /-- A status that `thr_join` has read. -/
  result : ∀ t v, (s.pc t).result = some (tid, v) → s.exited tid = some v
  /-- A status that `thr_join` has returned. -/
  joined : ∀ v, (tid, v) ∈ s.joined → s.exited tid = some v

theorem told_iff : s.Told ↔ s.Exits ∧ ∀ tid, s.ToldOf tid :=
  ⟨fun h => ⟨⟨h.exiting, h.exited, h.stored⟩,
    fun tid => ⟨fun t => h.result t tid, fun v => h.joined tid v⟩⟩,
    fun ⟨h, ht⟩ => ⟨h.exiting, h.exited, h.stored, fun t tid => (ht tid).result t,
      fun tid => (ht tid).joined⟩⟩

/-- The status of a thread is set by its call of `thr_exit`. -/
theorem Effect.exited (h : s.Effect e s') : s'.exited = s.exited ∨
    ∃ t v, s.pc t = .user ∧ s'.exited = Function.update s.exited t (some v) ∧
      ((s'.pc t).exiting = some v ∨ (s'.pc t).phase = .over) := by
  cases h with
  | exitSingle here =>
      refine Or.inr ⟨_, _, here, rfl, Or.inr ?_⟩
      rw [move_pc, Function.update_self]
      rfl
  | exit here =>
      refine Or.inr ⟨_, _, here, rfl, Or.inl ?_⟩
      rw [move_pc, Function.update_self]
      rfl
  | _ => exact Or.inl rfl

/-- A call of `thr_join` returns with the status that it has read. -/
theorem Effect.joined (h : s.Effect e s') : s'.joined = s.joined ∨
    ∃ t tid v, s.pc t = .deleteNode tid v ∧ s'.joined = (tid, v) :: s.joined := by
  cases h with
  | delete here => exact Or.inr ⟨_, _, _, here, rfl⟩
  | _ => exact Or.inl rfl

/-- A thread calls `thr_exit` once. -/
theorem Exits.exited_keep (ht : s.Exits) (h : s.Effect e s') {t : Int} {v : Status}
    (hv : s.exited t = some v) : s'.exited t = some v := by
  rcases h.exited with hsame | ⟨x, w, huser, hexited, -⟩
  · rw [hsame, hv]
  · have hne : t ≠ x := by
      rintro rfl
      rcases ht.exited t v hv with hexiting | hover
      · rw [huser] at hexiting
        cases hexiting
      · rw [huser] at hover
        cases hover
    rw [hexited, Function.update_of_ne hne, hv]

theorem Exits.step_exiting (ht : s.Exits) (step : s.Step e s') (t : Int) (v : Status)
    (hv : (s'.pc t).exiting = some v) : s'.exited t = some v := by
  have heffect := effect_of_step step
  rcases (heffect.flow t).exiting_back hv with hold | ⟨huser, hlock⟩
  · exact ht.exited_keep heffect (ht.exiting t v hold)
  · rcases called step huser (by rw [hlock]; exact Pc.noConfusion) with ⟨-, hcreate⟩ |
      ⟨tid', -, hjoin, -⟩ | ⟨w, -, hexit | hexit, hexited⟩
    · rw [hlock] at hcreate
      cases hcreate
    · rw [hlock] at hjoin
      cases hjoin
    · rw [hlock] at hexit
      rw [hexited, Pc.exitLock.inj hexit, Function.update_self]
    · rw [hlock] at hexit
      cases hexit

theorem Exits.step_exited (ht : s.Exits) (step : s.Step e s') (t : Int) (v : Status)
    (hv : s'.exited t = some v) : (s'.pc t).exiting = some v ∨ (s'.pc t).phase = .over := by
  have heffect := effect_of_step step
  have keep : s.exited t = some v → (s'.pc t).exiting = some v ∨ (s'.pc t).phase = .over := by
    intro hold
    rcases ht.exited t v hold with hexiting | hover
    · exact (heffect.flow t).exiting_keep hexiting
    · exact Or.inr ((heffect.flow t).over hover)
  rcases heffect.exited with hsame | ⟨x, w, -, hexited, hafter⟩
  · exact keep (by rwa [← hsame])
  · by_cases htx : t = x
    · subst htx
      rw [hexited, Function.update_self] at hv
      rwa [Option.some.inj hv] at hafter
    · rw [hexited, Function.update_of_ne htx] at hv
      exact keep hv

theorem Exits.step_stored (ht : s.Exits) (h : s.Sound) (step : s.Step e s') (b : Nat)
    (hb : b < s'.made) (hno : s'.reaped b = .no) (hexit : (s'.block b).status = .exit) :
    s'.exited (s'.owner b) = some (s'.block b).statusp := by
  have heffect := effect_of_step step
  have hold : b < s.made := by
    by_contra hnew
    rw [(heffect.made_new (Nat.not_lt.mp hnew) hb).1] at hexit
    cases hexit
  have hbefore : s.reaped b = .no := by
    by_contra hne
    exact heffect.reaped_ne_no hne hno
  rw [heffect.owner_eq hold]
  apply ht.exited_keep heffect
  rcases heffect.status hold (by rw [hbefore]; exact Reaping.noConfusion) with
    ⟨hstatus, hstatusp⟩ | ⟨t, v, hstore, -, -, hstatusp⟩
  · rw [hstatusp]
    exact ht.stored b hold hbefore (hstatus ▸ hexit)
  · -- its thread stores it
    obtain ⟨-, howner, -⟩ := h.own t b (by rw [hstore]; rfl)
    rw [howner, hstatusp]
    exact ht.exiting t v (by rw [hstore]; rfl)

/-- **Every step keeps the statuses.** -/
theorem Exits.step (hx : s.Exits) (h : s.Sound) (step : s.Step e s') : s'.Exits where
  exiting := hx.step_exiting step
  exited := hx.step_exited step
  stored := hx.step_stored h step

theorem ToldOf.step_result {tid : Int} (ht : s.ToldOf tid) (hx : s.Exits) (h : s.Sound)
    (hu : s.UnreapedOf tid) (step : s.Step e s') (t : Int) (v : Status)
    (hv : (s'.pc t).result = some (tid, v)) : s'.exited tid = some v := by
  have heffect := effect_of_step step
  apply hx.exited_keep heffect
  rcases (heffect.flow t).result_back hv with hold | ⟨b, hloop, hrelease⟩
  · exact ht.result t v hold
  · obtain ⟨hexit, rfl⟩ := found_exit step hloop hrelease
    obtain ⟨hb, rfl⟩ := h.target t tid b (by rw [hloop]; rfl)
    exact hx.stored b hb (hu.holding t b (by rw [hloop]; rfl)) hexit

theorem ToldOf.step_joined {tid : Int} (ht : s.ToldOf tid) (hx : s.Exits) (step : s.Step e s')
    (v : Status) (hv : (tid, v) ∈ s'.joined) : s'.exited tid = some v := by
  have heffect := effect_of_step step
  apply hx.exited_keep heffect
  rcases heffect.joined with hsame | ⟨t, tid', w, hdelete, hcons⟩
  · exact ht.joined v (hsame ▸ hv)
  · rw [hcons, List.mem_cons] at hv
    rcases hv with hnew | hold
    · obtain ⟨rfl, rfl⟩ := Prod.mk.inj hnew
      exact ht.result t v (by rw [hdelete]; rfl)
    · exact ht.joined v hold

theorem ToldOf.step {tid : Int} (ht : s.ToldOf tid) (hx : s.Exits) (h : s.Sound)
    (hu : s.UnreapedOf tid) (step : s.Step e s') : s'.ToldOf tid :=
  ⟨ht.step_result hx h hu step, ht.step_joined hx step⟩

theorem Told.step (ht : s.Told) (h : s.Sound) (hu : s.Unreaped) (step : s.Step e s') :
    s'.Told := by
  obtain ⟨hx, hof⟩ := told_iff.mp ht
  exact told_iff.mpr ⟨hx.step h step, fun tid => (hof tid).step hx h (unreaped_iff.mp hu tid) step⟩

/-- **What holds with single joiners.** -/
structure Joinable (s : Lib) : Prop where
  /-- The `thread_t`s. -/
  sound : s.Sound
  /-- The joiners. -/
  joining : s.Joining
  /-- The pointers. -/
  unreaped : s.Unreaped
  /-- The list. -/
  started : s.Started
  /-- The statuses. -/
  told : s.Told

theorem Joinable.delivered (h : s.Joinable) : s.Delivered := ⟨h.told.joined, h.started.started⟩

theorem Joinable.step (h : s.Joinable) (step : s.Step e s') (single : s.SingleJoiner e) :
    s'.Joinable where
  sound := h.sound.step step
  joining := h.joining.step step single
  unreaped := h.unreaped.step h.sound step h.joining.apart
  started := h.started.step step
  told := h.told.step h.sound h.unreaped step

/-- At the start. -/
theorem joinable_init (root : Nat) (memory : ThreadT) : (init root memory).Joinable := by
  have hpc := init_plain root memory
  refine ⟨sound_init root memory, ?_, ⟨?_, ?_⟩, ⟨?_, ?_⟩, ⟨?_, ?_, ?_, ?_, ?_⟩⟩
  · intro t tid ht
    rcases hpc t with h | h <;> rw [h] at ht <;> cases ht
  · exact fun _ _ _ _ => rfl
  · intro t b ht
    rcases hpc t with h | h <;> rw [h] at ht <;> cases ht
  · intro n hn
    obtain rfl := List.mem_singleton.mp hn
    exact List.mem_singleton_self _
  · intro c hc
    by_cases hroot : c = root
    · rw [hroot]
      exact List.mem_singleton_self _
    · have habsent : (init root memory).pc c = .absent := if_neg hroot
      rw [habsent] at hc
      rcases hc with hc | hc <;> cases hc
  · intro t v ht
    rcases hpc t with h | h <;> rw [h] at ht <;> cases ht
  · intro t v ht
    cases ht
  · intro b hb hno hexit
    cases hexit
  · intro t tid v ht
    rcases hpc t with h | h <;> rw [h] at ht <;> cases ht
  · intro tid v hv
    cases hv

/-- **Join delivers the exit status**, and no thread starts before it is in the list, in every run
with a single joiner per target. -/
theorem delivered_of_run {root : Nat} {memory : ThreadT} {es : List Event}
    (run : Run (Guarded Step SingleJoiner) (init root memory) es s) : s.Delivered :=
  (run.invariant (joinable_init root memory) fun _ _ _ h step => h.step step.1 step.2).delivered

/-- Thread 1 makes thread 2 and joins it; thread 2 exits with 7 when thread 1 waits. -/
def joinSecond : List Event :=
  [.create 1, .go 1, .probe 1 100, .go 1, .fork 1 2, .go 1, .go 1, .go 1, .go 1, .go 1,
    .go 2, .go 2, .go 2, .join 1 2, .go 1, .go 1, .go 1, .go 1, .go 1, .go 1, .go 1,
    .exit 2 ⟨7⟩, .go 2, .go 2, .go 2, .go 2, .go 2, .go 2, .go 2, .go 2,
    .go 1, .go 1, .go 1, .go 1, .go 1, .go 1, .go 1, .go 1, .go 1]

/-- The call of `thr_join` returns 7. -/
theorem delivered_of_run_second : ∃ s : Lib, (2, ⟨7⟩) ∈ s.joined ∧ s.pc 1 = .user ∧ s.Delivered := by
  have hrun : (runList (fun s e => if s.singleJoiner e then s.next e else none)
      (init 1 ⟨0, 0, .running, ⟨0⟩, 0⟩) joinSecond).map (fun s => (s.joined, s.pc 1)) =
        some ([(2, ⟨7⟩)], .user) := by decide +kernel
  obtain ⟨s, hs, hjoined⟩ := Option.map_eq_some_iff.mp hrun
  obtain ⟨hjoined, hpc⟩ := Prod.mk.inj hjoined
  refine ⟨s, ?_, hpc, delivered_of_run (Run.guarded_of_runList (fun _ _ => singleJoiner_spec) hs)⟩
  rw [hjoined]
  exact List.mem_singleton_self _

end Lib

end Pebbles.ThreadLib
