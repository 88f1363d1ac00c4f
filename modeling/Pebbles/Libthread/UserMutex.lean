import Pebbles.Library.SharedObjects
import Pebbles.Libthread.RootThread

/-! # The mutexes of the thread library

`mutex.c` and `spinlock.c`, statement by statement: a mutex is a status and the word of a spinlock,
which `atomic_xchange` takes. For every program that releases only what it holds, and neither makes
nor destroys a mutex while another thread is about to use it, they are the mutexes of
`Monitors.Mutex`. -/

namespace Pebbles.ThreadLib

open Monitors SharedObjects Transition

/-! ## The operations -/

variable {T L C : Type*}

/-- The functions of `mutex.c`. -/
inductive MutexOp (L : Type*) where
  | init (mp : L)
  | lock (mp : L)
  | unlock (mp : L)
  | destroy (mp : L)

/-- The mutex of a call. -/
def MutexOp.mutex : MutexOp L → L
  | .init mp | .lock mp | .unlock mp | .destroy mp => mp

/-- Any number of threads may lock and unlock a mutex at a time. -/
def MutexOp.Ordinary : MutexOp L → Prop
  | .lock _ | .unlock _ => True
  | .init _ | .destroy _ => False

/-- **The statement a thread executes next.** -/
inductive MutexPc (L : Type*) where
  /-- `mutex_init`: `mp -> status = MUTEX_UNLOCKED`. -/
  | initStatus (mp : L)
  /-- `spinlock_init`: `sl -> state = SPINLOCK_UNLOCKED`. -/
  | initLock (mp : L)
  /-- `mutex_lock`: `mp -> status == MUTEX_UNAVAILABLE`. -/
  | lockTest (mp : L)
  /-- `spinlock_lock`: the `xchg` of `atomic_xchange`, and the test of the loop. -/
  | lockSpin (mp : L)
  /-- `mp -> status = MUTEX_LOCKED`. -/
  | lockStatus (mp : L)
  /-- `mutex_unlock`: `mp -> status == MUTEX_UNAVAILABLE`. -/
  | unlockTest (mp : L)
  /-- `mp -> status = MUTEX_UNLOCKED`. -/
  | unlockStatus (mp : L)
  /-- `spinlock_unlock`: `sl -> state = SPINLOCK_UNLOCKED`. -/
  | unlockLock (mp : L)
  /-- `spinlock_destroy`: `sl -> state == SPINLOCK_LOCKED`. -/
  | destroyLock (mp : L)
  /-- `mutex_destroy`: `mp -> status == MUTEX_LOCKED`. -/
  | destroyTest (mp : L)
  /-- `mp -> status = MUTEX_UNAVAILABLE`. -/
  | destroyStatus (mp : L)

/-- `MUTEX_UNLOCKED` and `SPINLOCK_UNLOCKED`. -/
def unlocked : Int := 0

/-- `MUTEX_LOCKED` and `SPINLOCK_LOCKED`. -/
def locked : Int := 1

section Statements

variable [DecidableEq L]

/-- `mp -> status = v`. -/
def setStatus (w : L → MutexT) (mp : L) (v : Int) : L → MutexT :=
  Function.update w mp { w mp with status := v }

/-- `mp -> lock.state = v`. -/
def setLock (w : L → MutexT) (mp : L) (v : Int) : L → MutexT :=
  Function.update w mp { w mp with lock := v }

/-- **The next statement** of a thread. -/
def nextStatement (w : L → MutexT) : MutexPc L → (L → MutexT) × Doing (MutexPc L)
  | .initStatus mp => (setStatus w mp unlocked, .inside (.initLock mp))
  | .initLock mp => (setLock w mp unlocked, .own)
  | .lockTest mp => (w, if (w mp).status = unavailable then .own else .inside (.lockSpin mp))
  | .lockSpin mp =>
      (setLock w mp locked, .inside (if (w mp).lock ≠ 0 then .lockSpin mp else .lockStatus mp))
  | .lockStatus mp => (setStatus w mp locked, .own)
  | .unlockTest mp => (w, if (w mp).status = unavailable then .own else .inside (.unlockStatus mp))
  | .unlockStatus mp => (setStatus w mp unlocked, .inside (.unlockLock mp))
  | .unlockLock mp => (setLock w mp unlocked, .own)
  | .destroyLock mp => (w, if (w mp).lock = locked then .gone else .inside (.destroyTest mp))
  | .destroyTest mp => (w, if (w mp).status = locked then .gone else .inside (.destroyStatus mp))
  | .destroyStatus mp => (setStatus w mp unavailable, .own)

/-- The first statement of a call. -/
def MutexOp.begin : MutexOp L → MutexPc L
  | .init mp => .initStatus mp
  | .lock mp => .lockTest mp
  | .unlock mp => .unlockTest mp
  | .destroy mp => .destroyLock mp

/-- **The mutexes of `mutex.c`.** -/
def userMutexes (T L : Type*) [DecidableEq L] :
    Object T (MutexOp L) (MutexPc L) (L → MutexT) where
  start := MutexOp.begin
  Step _ w p w' d := (w', d) = nextStatement w p

/-! ## What they are for -/

/-- **The effect of an operation** on mutexes that are free, held or destroyed, or have not been
made yet. -/
inductive MutexEffect (t : T) (b : L → Option (Mutex T)) :
    MutexOp L → (L → Option (Mutex T)) → Prop
  | init (mp : L) : MutexEffect t b (.init mp) (Function.update b mp (some .free))
  | lock {mp : L} (free : b mp = some .free) :
      MutexEffect t b (.lock mp) (Function.update b mp (some (.held t)))
  | lockDestroyed {mp : L} (destroyed : b mp = some .destroyed) : MutexEffect t b (.lock mp) b
  | unlock {mp : L} (held : b mp = some (.held t)) :
      MutexEffect t b (.unlock mp) (Function.update b mp (some .free))
  | unlockDestroyed {mp : L} (destroyed : b mp = some .destroyed) : MutexEffect t b (.unlock mp) b
  | destroy {mp : L} (free : b mp = some .free ∨ b mp = some .destroyed) :
      MutexEffect t b (.destroy mp) (Function.update b mp (some .destroyed))

/-- The meaning of the operations. Who destroys a mutex that somebody holds vanishes. -/
def mutexMeaning (T L : Type*) [DecidableEq L] :
    Meaning T (MutexOp L) (L → Option (Mutex T)) where
  Effect t op b b' := MutexEffect t b op b'
  Ends _ op b := ∃ mp u, op = .destroy mp ∧ b mp = some (.held u)

/-- **How a program uses mutexes.** -/
structure Disciplined (b : L → Option (Mutex T)) (g : T → Doing (Stage (MutexOp L))) : Prop where
  /-- A thread unlocks what it holds. -/
  unlock : ∀ t mp, g t = .inside (.pending (.unlock mp)) →
    b mp = some (.held t) ∨ b mp = some .destroyed
  /-- A mutex is made before it is used. -/
  made : ∀ t op, g t = .inside (.pending op) → b op.mutex = none → op = .init op.mutex
  /-- While a thread makes or destroys a mutex, no other thread is in an operation on it. -/
  alone : ∀ t u p q, t ≠ u → g t = .inside p → g u = .inside q → p.op.mutex = q.op.mutex →
    p.op.Ordinary

end Statements

/-! ## The relation -/

/-- **The words of a mutex.** -/
def WordsMatch (w : MutexT) : Option (Mutex T) → Prop
  | none => True
  | some .free => w.lock = unlocked ∧ w.status = unlocked
  | some (.held _) => w.lock = locked ∧ w.status ≠ unavailable
  | some .destroyed => w.lock = unlocked ∧ w.status = unavailable

/-- It is free or held. -/
def Usable (m : Option (Mutex T)) : Prop := m = some .free ∨ ∃ u, m = some (.held u)

/-- It is free or destroyed. -/
def Idle (m : Option (Mutex T)) : Prop := m = some .free ∨ m = some .destroyed

/-- What the status tells. -/
theorem WordsMatch.destroyed {w : MutexT} {m : Option (Mutex T)} (h : WordsMatch w m)
    (made : m ≠ none) (status : w.status = unavailable) : m = some .destroyed := by
  match m, made with
  | some .free, _ => exact absurd (h.2.symm.trans status) (by decide)
  | some (.held _), _ => exact absurd status h.2
  | some .destroyed, _ => rfl

theorem WordsMatch.usable {w : MutexT} {m : Option (Mutex T)} (h : WordsMatch w m)
    (made : m ≠ none) (status : w.status ≠ unavailable) : Usable m := by
  match m, made with
  | some .free, _ => exact Or.inl rfl
  | some (.held u), _ => exact Or.inr ⟨u, rfl⟩
  | some .destroyed, _ => exact absurd h.2 status

/-- What the lock word tells. -/
theorem WordsMatch.held {w : MutexT} {m : Option (Mutex T)} (h : WordsMatch w m) (made : m ≠ none)
    (lock : w.lock ≠ unlocked) : ∃ u, m = some (.held u) := by
  match m, made with
  | some .free, _ => exact absurd h.1 lock
  | some (.held u), _ => exact ⟨u, rfl⟩
  | some .destroyed, _ => exact absurd h.1 lock

theorem WordsMatch.idle {w : MutexT} {m : Option (Mutex T)} (h : WordsMatch w m) (made : m ≠ none)
    (lock : w.lock ≠ locked) : Idle m := by
  match m, made with
  | some .free, _ => exact Or.inl rfl
  | some (.held _), _ => exact absurd h.1 lock
  | some .destroyed, _ => exact Or.inr rfl

/-- What the words of a mutex are that nobody holds. -/
theorem WordsMatch.of_idle {w : MutexT} {m : Option (Mutex T)} (h : WordsMatch w m)
    (idle : Idle m) : w.lock = unlocked ∧ w.status ≠ locked := by
  rcases idle with rfl | rfl
  · exact ⟨h.1, by rw [h.2]; decide⟩
  · exact ⟨h.1, by rw [h.2]; decide⟩

/-- The operation of a statement. -/
def MutexPc.op : MutexPc L → MutexOp L
  | .initStatus mp | .initLock mp => .init mp
  | .lockTest mp | .lockSpin mp | .lockStatus mp => .lock mp
  | .unlockTest mp | .unlockStatus mp | .unlockLock mp => .unlock mp
  | .destroyLock mp | .destroyTest mp | .destroyStatus mp => .destroy mp

/-- Whether it has taken effect: a mutex is taken by `xchg`. -/
def MutexPc.stage : MutexPc L → Stage (MutexOp L)
  | .lockStatus mp => .done (.lock mp)
  | p => .pending p.op

theorem MutexPc.stage_op (p : MutexPc L) : p.stage.op = p.op := by
  cases p <;> rfl

/-- **What a thread knows** at a statement. -/
def Known (w : L → MutexT) (b : L → Option (Mutex T)) (t : T) : MutexPc L → Prop
  | .initLock mp => (w mp).status = unlocked
  | .lockSpin mp => Usable (b mp)
  | .lockStatus mp | .unlockStatus mp => b mp = some (.held t)
  | .unlockLock mp => b mp = some (.held t) ∧ (w mp).status = unlocked
  | .destroyTest mp | .destroyStatus mp => Idle (b mp)
  | _ => True

/-- **The code and the mutexes it stands for.** -/
structure Represents (w : L → MutexT) (f : T → Doing (MutexPc L)) (b : L → Option (Mutex T))
    (g : T → Doing (Stage (MutexOp L))) : Prop where
  /-- The threads. -/
  threads : ∀ t, g t = (f t).map MutexPc.stage
  /-- What they know. -/
  known : ∀ t p, f t = .inside p → Known w b t p
  /-- The words, unless a thread is in the middle of `mutex_init`. -/
  words : ∀ mp, (∀ t, f t ≠ .inside (.initLock mp)) → WordsMatch (w mp) (b mp)

section Relation

variable {w w' : L → MutexT} {b b' : L → Option (Mutex T)} {t u : T} {mp : L} {p : MutexPc L}
  {d : Doing (MutexPc L)} {f : T → Doing (MutexPc L)} {g : T → Doing (Stage (MutexOp L))}

/-- Other mutexes are as they were. -/
def SameOutside (mp : L) (w w' : L → MutexT) (b b' : L → Option (Mutex T)) : Prop :=
  ∀ l, l ≠ mp → w' l = w l ∧ b' l = b l

/-- A thread that is in no operation on the mutex. -/
theorem Known.outside (h : Known w b u p) (same : SameOutside mp w w' b b')
    (away : p.op.mutex ≠ mp) : Known w' b' u p := by
  obtain ⟨hw, hb⟩ := same _ away
  cases p with
  | initStatus | lockTest | unlockTest | destroyLock => trivial
  | initLock l =>
      show (w' l).status = _
      rwa [show w' l = w l from hw]
  | lockSpin l =>
      show Usable (b' l)
      rwa [show b' l = b l from hb]
  | lockStatus l | unlockStatus l =>
      show b' l = _
      rwa [show b' l = b l from hb]
  | unlockLock l =>
      show b' l = _ ∧ (w' l).status = _
      rwa [show b' l = b l from hb, show w' l = w l from hw]
  | destroyTest l | destroyStatus l =>
      show Idle (b' l)
      rwa [show b' l = b l from hb]

/-- A thread in an ordinary operation on the mutex, when it does not hold it. -/
theorem Known.waiting (h : Known w b u p) (same : SameOutside mp w w' b b')
    (ordinary : p.op.mutex = mp → p.op.Ordinary) (other : b mp ≠ some (.held u))
    (usable : Usable (b' mp)) : Known w' b' u p := by
  by_cases haway : p.op.mutex ≠ mp
  · exact h.outside same haway
  obtain rfl := not_not.mp haway
  have hordinary := ordinary rfl
  cases p with
  | initStatus | lockTest | unlockTest | destroyLock => trivial
  | initLock | destroyTest | destroyStatus => exact hordinary.elim
  | lockSpin => exact usable
  | lockStatus | unlockStatus => exact absurd h other
  | unlockLock => exact absurd h.1 other

/-- What a thread has in progress. -/
theorem Represents.inside (h : Represents w f b g) (hp : f t = .inside p) :
    g t = .inside p.stage := by
  rw [h.threads, hp]
  rfl

/-- The words of a mutex that a thread has an operation on. -/
theorem Represents.words_of (h : Represents w f b g) (hD : Disciplined b g)
    (hp : f t = .inside p) (place : p ≠ .initLock p.op.mutex) :
    WordsMatch (w p.op.mutex) (b p.op.mutex) := by
  refine h.words _ fun u hu => ?_
  by_cases hut : u = t
  · subst hut
    exact place (Doing.inside.inj (hp.symm.trans hu))
  · exact hD.alone u t _ _ hut (h.inside hu) (h.inside hp) (by rw [p.stage_op]; rfl)

/-- Other threads in operations on the same mutex. -/
theorem Represents.ordinary (h : Represents w f b g) (hD : Disciplined b g)
    (hp : f t = .inside p) (hut : u ≠ t) {p' : MutexPc L} (hp' : f u = .inside p')
    (same : p'.op.mutex = p.op.mutex) : p'.op.Ordinary := by
  have halone := hD.alone u t _ _ hut (h.inside hp') (h.inside hp)
  rw [p.stage_op, p'.stage_op] at halone
  exact halone same

/-- There is none while the mutex is made or destroyed. -/
theorem Represents.away (h : Represents w f b g) (hD : Disciplined b g) (hp : f t = .inside p)
    (special : ¬p.op.Ordinary) (hut : u ≠ t) {p' : MutexPc L} (hp' : f u = .inside p') :
    p'.op.mutex ≠ p.op.mutex := fun same =>
  special (h.ordinary hD hp' (Ne.symm hut) hp same.symm)

/-- A mutex that a thread is about to use has been made. -/
theorem Represents.made (h : Represents w f b g) (hD : Disciplined b g) (hp : f t = .inside p)
    (pending : p.stage = .pending p.op) (use : p.op ≠ .init p.op.mutex) : b p.op.mutex ≠ none :=
  fun hnone => use (hD.made t p.op ((h.inside hp).trans (by rw [pending])) hnone)

/-- What other threads know when nothing of the mutexes changes. -/
theorem Represents.others (h : Represents w f b g) (u : T) (q : MutexPc L) (_ : u ≠ t)
    (hq : f u = .inside q) : Known w b u q := h.known u q hq

/-- A mutex is held by one thread. -/
theorem ne_held (mine : b mp = some (.held t)) (hut : u ≠ t) : b mp ≠ some (.held u) := by
  rw [mine]
  intro heq
  cases heq
  exact hut rfl

/-- At the start no mutex has been made, whatever the words are. -/
theorem represents_start (w : L → MutexT) :
    Represents w (fun _ : T => .own) (fun _ => none) fun _ => .own where
  threads _ := rfl
  known _ _ hp := by cases hp
  words _ _ := trivial

variable [DecidableEq T]

/-- **A thread moves.** -/
theorem Represents.move (h : Represents w f b g) (hp : f t = .inside p)
    (same : SameOutside p.op.mutex w w' b b')
    (others : ∀ u q, u ≠ t → f u = .inside q → Known w' b' u q)
    (here : ∀ q, d = .inside q → Known w' b' t q)
    (word : d ≠ .inside (.initLock p.op.mutex) → WordsMatch (w' p.op.mutex) (b' p.op.mutex)) :
    Represents w' (Function.update f t d) b' (Function.update g t (d.map MutexPc.stage)) where
  threads u := by
    by_cases hu : u = t
    · subst hu
      rw [Function.update_self, Function.update_self]
    · rw [Function.update_of_ne hu, Function.update_of_ne hu]
      exact h.threads u
  known u q hq := by
    by_cases hu : u = t
    · subst hu
      rw [Function.update_self] at hq
      exact here q hq
    · rw [Function.update_of_ne hu] at hq
      exact others u q hu hq
  words l hl := by
    by_cases hmp : l = p.op.mutex
    · subst hmp
      refine word ?_
      have := hl t
      rwa [Function.update_self] at this
    · rw [(same l hmp).1, (same l hmp).2]
      refine h.words l fun u => ?_
      by_cases hu : u = t
      · subst hu
        rw [hp]
        intro heq
        cases heq
        exact hmp rfl
      · have := hl u
        rwa [Function.update_of_ne hu] at this

/-- **A thread calls an operation.** -/
theorem Represents.call (h : Represents w f b g) (here : f t = .own) (op : MutexOp L) :
    Represents w (Function.update f t (.inside op.begin)) b
      (Function.update g t (.inside (.pending op))) where
  threads u := by
    by_cases hu : u = t
    · subst hu
      rw [Function.update_self, Function.update_self]
      cases op <;> rfl
    · rw [Function.update_of_ne hu, Function.update_of_ne hu]
      exact h.threads u
  known u q hq := by
    by_cases hu : u = t
    · subst hu
      rw [Function.update_self] at hq
      obtain rfl := Doing.inside.inj hq
      cases op <;> trivial
    · rw [Function.update_of_ne hu] at hq
      exact h.known u q hq
  words mp hmp := by
    refine h.words mp fun u hu => ?_
    by_cases hut : u = t
    · rw [hut, here] at hu
      cases hu
    · have := hmp u
      rw [Function.update_of_ne hut] at this
      exact this hu

/-- A thread moves, and its operation does not take effect. -/
theorem Represents.stutter (h : Represents w f b g) (hp : f t = .inside p)
    (same : SameOutside p.op.mutex w w' b b)
    (others : ∀ u q, u ≠ t → f u = .inside q → Known w' b u q) {q : MutexPc L}
    (stage : q.stage = p.stage) (here : Known w' b t q)
    (word : q ≠ .initLock p.op.mutex → WordsMatch (w' p.op.mutex) (b p.op.mutex)) :
    Represents w' (Function.update f t (.inside q)) b g := by
  have hmove := h.move hp same others (d := .inside q) (fun r hr => by cases hr; exact here)
    fun hne => word fun heq => hne (by rw [heq])
  have hgt : g t = (Doing.inside q).map MutexPc.stage := by
    rw [h.inside hp, ← stage]
    rfl
  rwa [← hgt, Function.update_eq_self] at hmove

end Relation

/-! ## The simulation -/

section Words

variable [DecidableEq L] {w w' : L → MutexT} {b : L → Option (Mutex T)} {mp : L} {v : Int}
  {m : Option (Mutex T)}

@[simp] theorem setStatus_self : setStatus w mp v mp = { w mp with status := v } :=
  Function.update_self _ _ _

@[simp] theorem setLock_self : setLock w mp v mp = { w mp with lock := v } :=
  Function.update_self _ _ _

theorem sameOutside_setStatus : SameOutside mp w (setStatus w mp v) b b :=
  fun _ hl => ⟨Function.update_of_ne hl _ _, rfl⟩

theorem sameOutside_setLock : SameOutside mp w (setLock w mp v) b b :=
  fun _ hl => ⟨Function.update_of_ne hl _ _, rfl⟩

theorem SameOutside.update (same : SameOutside mp w w' b b) :
    SameOutside mp w w' b (Function.update b mp m) :=
  fun l hl => ⟨(same l hl).1, Function.update_of_ne hl _ _⟩

end Words

section Simulation

variable [DecidableEq T] [DecidableEq L] {w : L → MutexT} {b : L → Option (Mutex T)} {t : T}
  {mp : L} {f : T → Doing (MutexPc L)} {g : T → Doing (Stage (MutexOp L))} {p : MutexPc L}

/-- A statement with an atomic step, or with no step. -/
def Simulated (t : T) (f : T → Doing (MutexPc L)) (b : L → Option (Mutex T))
    (g : T → Doing (Stage (MutexOp L))) (next : (L → MutexT) × Doing (MutexPc L)) : Prop :=
  Represents next.1 (Function.update f t next.2) b g ∨ ∃ q b' e, g t = .inside q ∧
    (mutexMeaning T L).Step t b q b' e ∧
    Represents next.1 (Function.update f t next.2) b' (Function.update g t e)

/-- The operation takes effect, and the words change. -/
theorem Represents.simulated (h : Represents w f b g) (hp : f t = .inside p) {w' : L → MutexT}
    {b' : L → Option (Mutex T)} {d : Doing (MutexPc L)}
    (step : (mutexMeaning T L).Step t b p.stage b' (d.map MutexPc.stage))
    (same : SameOutside p.op.mutex w w' b b')
    (others : ∀ u q, u ≠ t → f u = .inside q → Known w' b' u q)
    (here : ∀ q, d = .inside q → Known w' b' t q)
    (word : d ≠ .inside (.initLock p.op.mutex) → WordsMatch (w' p.op.mutex) (b' p.op.mutex)) :
    Simulated t f b g (w', d) :=
  Or.inr ⟨_, _, _, h.inside hp, step, h.move hp same others here word⟩

/-- **`mutex_init`.** -/
theorem simulated_initStatus (h : Represents w f b g) (hD : Disciplined b g)
    (hp : f t = .inside (.initStatus mp)) :
    Simulated t f b g (nextStatement w (.initStatus mp)) := by
  refine Or.inl (h.stutter hp sameOutside_setStatus (fun u q hu hq => ?_) rfl ?_ ?_)
  -- until the lock word is written, too, the words of the mutex mean nothing
  · exact (h.known u q hq).outside sameOutside_setStatus (h.away hD hp id hu hq)
  · show (setStatus w mp unlocked mp).status = unlocked
    simp
  · exact fun hne => absurd rfl hne

theorem simulated_initLock (h : Represents w f b g) (hD : Disciplined b g)
    (hp : f t = .inside (.initLock mp)) :
    Simulated t f b g (nextStatement w (.initLock mp)) := by
  refine h.simulated hp (.both (.init mp)) sameOutside_setLock.update (fun u q hu hq => ?_)
    (by simp) fun _ => ?_
  · exact (h.known u q hq).outside sameOutside_setLock.update (h.away hD hp id hu hq)
  · have hstatus : (w mp).status = unlocked := h.known t _ hp
    show WordsMatch (setLock w mp unlocked mp) (Function.update b mp (some .free) mp)
    rw [Function.update_self, setLock_self]
    exact ⟨rfl, hstatus⟩

/-- **`mutex_lock`.** -/
theorem simulated_lockTest (h : Represents w f b g) (hD : Disciplined b g)
    (hp : f t = .inside (.lockTest mp)) :
    Simulated t f b g (nextStatement w (.lockTest mp)) := by
  have hmade : b mp ≠ none := h.made hD hp rfl nofun
  have hwords : WordsMatch (w mp) (b mp) := h.words_of hD hp nofun
  rw [nextStatement]
  split_ifs with hstatus
  · exact h.simulated hp (.both (.lockDestroyed (hwords.destroyed hmade hstatus)))
      (fun _ _ => ⟨rfl, rfl⟩) h.others (by simp) fun _ => hwords
  · exact Or.inl (h.stutter hp (fun _ _ => ⟨rfl, rfl⟩) h.others rfl
      (hwords.usable hmade hstatus) fun _ => hwords)

/-- **The `xchg`** takes a mutex that is free. -/
theorem simulated_lockSpin (h : Represents w f b g) (hD : Disciplined b g)
    (hp : f t = .inside (.lockSpin mp)) :
    Simulated t f b g (nextStatement w (.lockSpin mp)) := by
  have hmade : b mp ≠ none := h.made hD hp rfl nofun
  have hwords : WordsMatch (w mp) (b mp) := h.words_of hD hp nofun
  have husable : Usable (b mp) := h.known t _ hp
  rw [nextStatement]
  split_ifs with hlock
  -- somebody holds the mutex: the word is 1 already, and the loop goes round
  · obtain ⟨u, hu⟩ := hwords.held hmade hlock
    have hw : setLock w mp locked = w := by
      rw [hu] at hwords
      refine Function.update_eq_self_iff.mpr ?_
      rw [← hwords.1]
    rw [hw]
    exact Or.inl (h.stutter hp (fun _ _ => ⟨rfl, rfl⟩) h.others rfl husable fun _ => hwords)
  -- the word was 0: from now on the mutex is held, whatever its status says
  · have hfree : b mp = some .free := by
      rcases husable with hfree | ⟨u, hu⟩
      · exact hfree
      · rw [hu] at hwords
        exact absurd (hwords.1.symm.trans (not_not.mp hlock)) (by decide)
    refine h.simulated hp (.effect (.lock hfree)) sameOutside_setLock.update
      (fun u q hu hq => ?_) (fun q hq => ?_) fun _ => ?_
    · refine (h.known u q hq).waiting sameOutside_setLock.update (h.ordinary hD hp hu hq) ?_ ?_
      · rw [show b _ = some .free from hfree]
        nofun
      · exact Or.inr ⟨t, Function.update_self _ _ _⟩
    · cases hq
      exact Function.update_self _ _ _
    · rw [hfree] at hwords
      show WordsMatch (setLock w mp locked mp) (Function.update b mp (some (.held t)) mp)
      rw [Function.update_self, setLock_self]
      exact ⟨rfl, by rw [hwords.2]; decide⟩

/-- The holder writes the status. -/
theorem simulated_lockStatus (h : Represents w f b g) (hD : Disciplined b g)
    (hp : f t = .inside (.lockStatus mp)) :
    Simulated t f b g (nextStatement w (.lockStatus mp)) := by
  have hmine : b mp = some (.held t) := h.known t _ hp
  have hwords : WordsMatch (w mp) (b mp) := h.words_of hD hp nofun
  refine h.simulated hp .back sameOutside_setStatus (fun u q hu hq => ?_) (by simp) fun _ => ?_
  · exact (h.known u q hq).waiting sameOutside_setStatus (h.ordinary hD hp hu hq)
      (ne_held hmine hu) (Or.inr ⟨t, hmine⟩)
  · show WordsMatch (setStatus w mp locked mp) (b mp)
    rw [hmine] at hwords ⊢
    rw [setStatus_self]
    exact ⟨hwords.1, show locked ≠ unavailable by decide⟩

/-- **`mutex_unlock`.** -/
theorem simulated_unlockTest (h : Represents w f b g) (hD : Disciplined b g)
    (hp : f t = .inside (.unlockTest mp)) :
    Simulated t f b g (nextStatement w (.unlockTest mp)) := by
  have hmade : b mp ≠ none := h.made hD hp rfl nofun
  have hwords : WordsMatch (w mp) (b mp) := h.words_of hD hp nofun
  rw [nextStatement]
  split_ifs with hstatus
  · exact h.simulated hp (.both (.unlockDestroyed (hwords.destroyed hmade hstatus)))
      (fun _ _ => ⟨rfl, rfl⟩) h.others (by simp) fun _ => hwords
  · have hmine : b mp = some (.held t) := by
      refine (hD.unlock t mp (h.inside hp)).resolve_right fun hdestroyed => hstatus ?_
      rw [hdestroyed] at hwords
      exact hwords.2
    exact Or.inl (h.stutter hp (fun _ _ => ⟨rfl, rfl⟩) h.others rfl hmine fun _ => hwords)

theorem simulated_unlockStatus (h : Represents w f b g) (hD : Disciplined b g)
    (hp : f t = .inside (.unlockStatus mp)) :
    Simulated t f b g (nextStatement w (.unlockStatus mp)) := by
  have hmine : b mp = some (.held t) := h.known t _ hp
  have hwords : WordsMatch (w mp) (b mp) := h.words_of hD hp nofun
  refine Or.inl (h.stutter hp sameOutside_setStatus (fun u q hu hq => ?_) rfl ⟨hmine, ?_⟩
    fun _ => ?_)
  · exact (h.known u q hq).waiting sameOutside_setStatus (h.ordinary hD hp hu hq)
      (ne_held hmine hu) (Or.inr ⟨t, hmine⟩)
  · show (setStatus w mp unlocked mp).status = unlocked
    rw [setStatus_self]
  -- it is still held: who tests the status now goes on to the `xchg` and waits there
  · show WordsMatch (setStatus w mp unlocked mp) (b mp)
    rw [hmine] at hwords ⊢
    rw [setStatus_self]
    exact ⟨hwords.1, show unlocked ≠ unavailable by decide⟩

/-- **The last store** releases the mutex. -/
theorem simulated_unlockLock (h : Represents w f b g) (hD : Disciplined b g)
    (hp : f t = .inside (.unlockLock mp)) :
    Simulated t f b g (nextStatement w (.unlockLock mp)) := by
  obtain ⟨hmine, hstatus⟩ : b mp = some (.held t) ∧ (w mp).status = unlocked := h.known t _ hp
  refine h.simulated hp (.both (.unlock hmine)) sameOutside_setLock.update (fun u q hu hq => ?_)
    (by simp) fun _ => ?_
  · exact (h.known u q hq).waiting sameOutside_setLock.update (h.ordinary hD hp hu hq)
      (ne_held hmine hu) (Or.inl (Function.update_self _ _ _))
  · show WordsMatch (setLock w mp unlocked mp) (Function.update b mp (some .free) mp)
    rw [Function.update_self, setLock_self]
    exact ⟨rfl, hstatus⟩

/-- **`mutex_destroy`.** -/
theorem simulated_destroyLock (h : Represents w f b g) (hD : Disciplined b g)
    (hp : f t = .inside (.destroyLock mp)) :
    Simulated t f b g (nextStatement w (.destroyLock mp)) := by
  have hmade : b mp ≠ none := h.made hD hp rfl nofun
  have hwords : WordsMatch (w mp) (b mp) := h.words_of hD hp nofun
  rw [nextStatement]
  split_ifs with hlock
  · obtain ⟨u, hu⟩ := hwords.held hmade (by rw [hlock]; decide)
    exact h.simulated hp (.ends ⟨mp, u, rfl, hu⟩) (fun _ _ => ⟨rfl, rfl⟩) h.others (by simp)
      fun _ => hwords
  · exact Or.inl (h.stutter hp (fun _ _ => ⟨rfl, rfl⟩) h.others rfl (hwords.idle hmade hlock)
      fun _ => hwords)

theorem simulated_destroyTest (h : Represents w f b g) (hD : Disciplined b g)
    (hp : f t = .inside (.destroyTest mp)) :
    Simulated t f b g (nextStatement w (.destroyTest mp)) := by
  have hwords : WordsMatch (w mp) (b mp) := h.words_of hD hp nofun
  have hidle : Idle (b mp) := h.known t _ hp
  rw [nextStatement, if_neg (hwords.of_idle hidle).2]
  exact Or.inl (h.stutter hp (fun _ _ => ⟨rfl, rfl⟩) h.others rfl hidle fun _ => hwords)

theorem simulated_destroyStatus (h : Represents w f b g) (hD : Disciplined b g)
    (hp : f t = .inside (.destroyStatus mp)) :
    Simulated t f b g (nextStatement w (.destroyStatus mp)) := by
  have hwords : WordsMatch (w mp) (b mp) := h.words_of hD hp nofun
  have hidle : Idle (b mp) := h.known t _ hp
  refine h.simulated hp (.both (.destroy hidle)) sameOutside_setStatus.update
    (fun u q hu hq => ?_) (by simp) fun _ => ?_
  · exact (h.known u q hq).outside sameOutside_setStatus.update (h.away hD hp id hu hq)
  · show WordsMatch (setStatus w mp unavailable mp) (Function.update b mp (some .destroyed) mp)
    rw [Function.update_self, setStatus_self]
    exact ⟨(hwords.of_idle hidle).1, rfl⟩

/-- **The code simulates the mutexes.** -/
theorem userMutexes_simulates : Simulates (userMutexes T L) (mutexMeaning T L).atomic
    Disciplined Represents where
  own {w f b g} h t := by
    rw [h.threads t]
    cases f t <;> simp [Doing.map]
  call h here _ := h.call here _
  go {w f b g t p w' d} h hD hp step := by
    obtain rfl : w' = (nextStatement w p).1 := congrArg Prod.fst step
    obtain rfl : d = (nextStatement w p).2 := congrArg Prod.snd step
    cases p with
    | initStatus => exact simulated_initStatus h hD hp
    | initLock => exact simulated_initLock h hD hp
    | lockTest => exact simulated_lockTest h hD hp
    | lockSpin => exact simulated_lockSpin h hD hp
    | lockStatus => exact simulated_lockStatus h hD hp
    | unlockTest => exact simulated_unlockTest h hD hp
    | unlockStatus => exact simulated_unlockStatus h hD hp
    | unlockLock => exact simulated_unlockLock h hD hp
    | destroyLock => exact simulated_destroyLock h hD hp
    | destroyTest => exact simulated_destroyTest h hD hp
    | destroyStatus => exact simulated_destroyStatus h hD hp

/-- **`mutex.c` makes correct mutexes.** Any program, with any number of threads and mutexes, that
keeps the discipline with the mutexes of `Monitors.Mutex` does with those of `mutex.c` only what it
could have done with them: the same calls and steps of its own, in the same order and with the same
state. The words of a mutex tell who may take it, and a thread that vanishes has destroyed a mutex
that was held. -/
theorem user_mutexes_refine {client : Client T (MutexOp L) C} {c : C} {w : L → MutexT}
    {s : State T C (L → MutexT) (MutexPc L)} {as : List (Label T (MutexOp L))}
    (keeps : Keeps client (mutexMeaning T L).atomic Disciplined (.start c fun _ => none))
    (run : Run (Step client (userMutexes T L)) (.start c w) as s) :
    ∃ bs s', Run (Step client (mutexMeaning T L).atomic) (.start c fun _ => none) bs s' ∧
      s'.client = s.client ∧ bs.filter Label.ofClient = as.filter Label.ofClient ∧
      Represents s.object s.doing s'.object s'.doing := by
  obtain ⟨bs, s', run', hclient, hrep, hfilter⟩ :=
    userMutexes_simulates.run keeps (represents_start w) rfl run
  exact ⟨bs, s', run', hclient, hfilter, hrep⟩

end Simulation

/-! ## A program -/

/-- Each thread makes a mutex of its own, locks it and unlocks it. -/
def ownMutexes : Client ℕ (MutexOp ℕ) (ℕ → ℕ) where
  Act _ _ _ := False
  Call t op c c' := c' = Function.update c t (c t + 1) ∧
    (c t = 0 ∧ op = .init t ∨ c t = 1 ∧ op = .lock t ∨ c t = 2 ∧ op = .unlock t)

/-- **How far a thread is.** -/
inductive OwnPhase (t : ℕ) : ℕ → Doing (Stage (MutexOp ℕ)) → Option (Mutex ℕ) → Prop
  | start : OwnPhase t 0 .own none
  | init : OwnPhase t 1 (.inside (.pending (.init t))) none
  | made {d : Doing (Stage (MutexOp ℕ))} (h : d = .own ∨ d = .inside (.done (.init t))) :
      OwnPhase t 1 d (some .free)
  | lock : OwnPhase t 2 (.inside (.pending (.lock t))) (some .free)
  | held {d : Doing (Stage (MutexOp ℕ))} (h : d = .own ∨ d = .inside (.done (.lock t))) :
      OwnPhase t 2 d (some (.held t))
  | unlock : OwnPhase t 3 (.inside (.pending (.unlock t))) (some (.held t))
  | free {d : Doing (Stage (MutexOp ℕ))} (h : d = .own ∨ d = .inside (.done (.unlock t))) :
      OwnPhase t 3 d (some .free)

namespace OwnPhase

variable {t n : ℕ} {m : Option (Mutex ℕ)} {b b' : ℕ → Option (Mutex ℕ)} {op : MutexOp ℕ}

/-- A call. -/
theorem call (h : OwnPhase t n .own m)
    (hop : n = 0 ∧ op = .init t ∨ n = 1 ∧ op = .lock t ∨ n = 2 ∧ op = .unlock t) :
    OwnPhase t (n + 1) (.inside (.pending op)) m := by
  rcases hop with ⟨rfl, rfl⟩ | ⟨rfl, rfl⟩ | ⟨rfl, rfl⟩
  · cases h
    exact .init
  · cases h
    exact .lock
  · cases h
    exact .unlock

/-- The end of a call. -/
theorem back (h : OwnPhase t n (.inside (.done op)) m) : OwnPhase t n .own m := by
  cases h with
  | made => exact .made (Or.inl rfl)
  | held => exact .held (Or.inl rfl)
  | free => exact .free (Or.inl rfl)

/-- The effect of a call. -/
theorem effect (h : OwnPhase t n (.inside (.pending op)) (b t)) (effect : MutexEffect t b op b') :
    OwnPhase t n (.inside (.done op)) (b' t) ∧ ∀ u, u ≠ t → b' u = b u := by
  generalize hm : b t = m at h
  cases h with
  | made h | held h | free h => exact absurd h (by simp)
  | init =>
      cases effect
      rw [Function.update_self]
      exact ⟨.made (Or.inr rfl), fun u hu => Function.update_of_ne hu _ _⟩
  | lock =>
      cases effect with
      | lock free =>
          rw [Function.update_self]
          exact ⟨.held (Or.inr rfl), fun u hu => Function.update_of_ne hu _ _⟩
      | lockDestroyed destroyed =>
          rw [hm] at destroyed
          cases destroyed
  | unlock =>
      cases effect with
      | unlock held =>
          rw [Function.update_self]
          exact ⟨.free (Or.inr rfl), fun u hu => Function.update_of_ne hu _ _⟩
      | unlockDestroyed destroyed =>
          rw [hm] at destroyed
          cases destroyed

/-- A step in a call. -/
theorem go {q : Stage (MutexOp ℕ)} {e : Doing (Stage (MutexOp ℕ))}
    (h : OwnPhase t n (.inside q) (b t)) (step : (mutexMeaning ℕ ℕ).Step t b q b' e) :
    OwnPhase t n e (b' t) ∧ ∀ u, u ≠ t → b' u = b u := by
  cases step with
  | effect effect => exact h.effect effect
  | both effect => exact ⟨(h.effect effect).1.back, (h.effect effect).2⟩
  | back => exact ⟨h.back, fun _ _ => rfl⟩
  | ends ends =>
      obtain ⟨mp, u, rfl, -⟩ := ends
      generalize b t = m at h
      cases h with
      | made h | held h | free h => exact absurd h (by simp)

/-- Each thread uses its own mutex. -/
theorem mutex {q : Stage (MutexOp ℕ)} (h : OwnPhase t n (.inside q) m) : q.op.mutex = t := by
  cases h with
  | init | lock | unlock => rfl
  | made h | held h | free h =>
      obtain rfl : q = .done _ := Doing.inside.inj (h.resolve_left (by simp))
      rfl

end OwnPhase

/-- All threads. -/
def OwnPhases (s : State ℕ (ℕ → ℕ) (ℕ → Option (Mutex ℕ)) (Stage (MutexOp ℕ))) : Prop :=
  ∀ t, OwnPhase t (s.client t) (s.doing t) (s.object t)

theorem OwnPhases.step {s s' : State ℕ (ℕ → ℕ) (ℕ → Option (Mutex ℕ)) (Stage (MutexOp ℕ))}
    {a : Label ℕ (MutexOp ℕ)} (h : OwnPhases s)
    (step : Step ownMutexes (mutexMeaning ℕ ℕ).atomic s a s') : OwnPhases s' := by
  cases step with
  | act _ act => exact act.elim
  | @call t op c here call =>
      obtain ⟨rfl, hop⟩ := call
      intro u
      have hu := h u
      by_cases hut : u = t
      · subst hut
        rw [here] at hu
        simp only [Function.update_self]
        exact hu.call hop
      · simp only [Function.update_of_ne hut]
        exact hu
  | @go t q b e here step =>
      have ht := h t
      rw [here] at ht
      obtain ⟨hphase, hrest⟩ := ht.go step
      intro u
      by_cases hut : u = t
      · subst hut
        simp only [Function.update_self]
        exact hphase
      · simp only [Function.update_of_ne hut, hrest u hut]
        exact h u

/-- **The program keeps the discipline.** -/
theorem OwnPhases.disciplined
    {s : State ℕ (ℕ → ℕ) (ℕ → Option (Mutex ℕ)) (Stage (MutexOp ℕ))} (h : OwnPhases s) :
    Disciplined s.object s.doing where
  unlock t mp hq := by
    have ht := h t
    rw [hq] at ht
    obtain rfl : mp = t := ht.mutex
    generalize s.object mp = m at ht ⊢
    generalize s.client mp = n at ht
    cases ht with
    | unlock => exact Or.inl rfl
    | made h | held h | free h => exact absurd h (by simp)
  made t op hq hnone := by
    have ht := h t
    rw [hq] at ht
    rw [show op.mutex = t from ht.mutex] at hnone ⊢
    rw [hnone] at ht
    generalize s.client t = n at ht
    cases ht
    rfl
  alone t u p q hne hp hq hsame := by
    have ht := h t
    have hu := h u
    rw [hp] at ht
    rw [hq] at hu
    exact absurd (ht.mutex.symm.trans (hsame.trans hu.mutex)) hne

/-- The first thread makes its mutex out of any words. -/
theorem user_mutexes_refine_own : ∃ s bs s',
    Run (Step ownMutexes (userMutexes ℕ ℕ)) (.start (fun _ => 0) fun _ => ⟨7, 7⟩)
      [.call 0 (.init 0), .go 0, .go 0] s ∧
    Run (Step ownMutexes (mutexMeaning ℕ ℕ).atomic) (.start (fun _ => 0) fun _ => none) bs s' ∧
    s'.client = s.client ∧ bs.filter Label.ofClient = [.call 0 (.init 0)] := by
  have keeps : Keeps ownMutexes (mutexMeaning ℕ ℕ).atomic Disciplined
      (.start (fun _ => 0) fun _ => none) := fun as s run =>
    OwnPhases.disciplined (run.invariant (I := OwnPhases) (fun _ => .start)
      fun _ _ _ h step => h.step step)
  have run : Run (Step ownMutexes (userMutexes ℕ ℕ)) (.start (fun _ => 0) fun _ => ⟨7, 7⟩)
      [.call 0 (.init 0), .go 0, .go 0] _ :=
    ((Run.nil.snoc (.call rfl ⟨rfl, Or.inl ⟨rfl, rfl⟩⟩)).snoc
      (.go (p := .initStatus 0) rfl rfl)).snoc
      (.go (p := .initLock 0) rfl rfl)
  obtain ⟨bs, s', run', hclient, hfilter, -⟩ := user_mutexes_refine keeps run
  exact ⟨_, bs, s', run, run', hclient, hfilter⟩

end Pebbles.ThreadLib
