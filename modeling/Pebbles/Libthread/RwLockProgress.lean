import Pebbles.Libthread.RwLockExclusion

/-! # When the reader-writer lock does not deadlock

A writer takes `wcnt_mutex` before it waits for `r`, and the writer that has `r` needs `wcnt_mutex`
to unlock or to downgrade; and a writer that unlocks does not give the unit of `w` back. In runs
without these two, a stuck state would have every thread waiting for a semaphore that some thread
waiting for another has, and following the semaphores leads to one that is free. -/

namespace Pebbles

open Tallies Transition

/-! ## Where a thread may wait, and where it may go -/

namespace RwPc

/-- The semaphore that the statement waits for. -/
def waitsFor : RwPc → Option RwSem
  | lockGen => some .genMutex
  | lockR | writeR _ => some .r
  | lockRcnt | exitRcnt | downRcnt => some .rcntMutex
  | lockW | writeW _ => some .w
  | writeWcnt _ | exitWcnt | downWcnt => some .wcntMutex
  | _ => none

/-- The statements that may come next in the function, or the next function. -/
def next : RwPc → List RwPc
  | idle => []
  | lockGen => [lockR]
  | lockR => [lockRcnt]
  | lockRcnt => [incRead]
  | incRead => [testFirst]
  | testFirst => [lockW, lockSignalRcnt]
  | lockW => [lockSignalRcnt]
  | lockSignalRcnt => [lockSignalR]
  | lockSignalR => [lockSignalGen]
  | lockSignalGen => [reading]
  | reading => [testRead false]
  | writeWcnt down => [incWrite down]
  | incWrite down => [writeR down]
  | writeR down => [writeW down]
  | writeW down => [writeSignalWcnt down]
  | writeSignalWcnt down => [writing down]
  | writing down => [if down then downWcnt else testRead true]
  | testRead _ => [exitRcnt, exitWcnt]
  | exitRcnt => [decRead]
  | decRead => [testLastRead]
  | testLastRead => [exitSignalW, exitSignalRcnt]
  | exitSignalW => [exitSignalRcnt]
  | exitSignalRcnt => [idle]
  | exitWcnt => [decWrite]
  | decWrite => [testLastWrite]
  | testLastWrite => [exitSignalR, exitSignalWcnt]
  | exitSignalR => [exitSignalWcnt]
  | exitSignalWcnt => [idle]
  | downWcnt => [downRcnt]
  | downRcnt => [downDecWrite]
  | downDecWrite => [downIncRead]
  | downIncRead => [downSignalRcnt]
  | downSignalRcnt => [downSignalWcnt]
  | downSignalWcnt => [downSignalR]
  | downSignalR => [reading]

/-- Inside `rwlock_lock`. -/
def locking : RwPc → Bool
  | lockGen | lockR | lockRcnt | incRead | testFirst | lockW | lockSignalRcnt | lockSignalR
  | lockSignalGen | writeWcnt _ | incWrite _ | writeR _ | writeW _ | writeSignalWcnt _ => true
  | _ => false

/-- With the lock held for writing, up to `sem_wait(&rwlock->wcnt_mutex)` of `rwlock_unlock` or
`rwlock_downgrade`. -/
def departing : RwPc → Bool
  | writing _ | testRead true | exitWcnt | downWcnt => true
  | _ => false

/-- Between the two waits for `wcnt_mutex` of a writer. -/
def between : RwPc → Int
  | incWrite _ | writeR _ | writeW _ | writeSignalWcnt _ | writing _ | testRead true | exitWcnt
  | downWcnt => 1
  | _ => 0

theorem between_nonneg : ∀ p, 0 ≤ between p :=
  of_places (by decide)

/-- Who is between the waits has `wcnt_mutex` or departs. -/
theorem between_le : ∀ p, departing p = false → between p ≤ owns .wcntMutex p :=
  of_places (by decide)

/-- Only a wait for `wcnt_mutex` in `rwlock_lock` puts a thread between the two, or a reader that
takes the branch of a writer. -/
theorem between_next : ∀ p, (∀ down, p ≠ .writeWcnt down) → p ≠ .testRead false →
    ∀ q ∈ p.next, between q ≤ between p :=
  of_places (by decide)

/-- Nobody gets into `rwlock_lock` by going on. -/
theorem locking_next : ∀ p, locking p = false → ∀ q ∈ p.next, locking q = false :=
  of_places (by decide)

end RwPc

namespace RwLock

variable {ι : Type*} [DecidableEq ι] {s s' : RwLock ι} {u : ι}

/-- **Where a statement leads.** -/
theorem go_next (hs : s.go u = some s') :
    ∃ q ∈ (s.pc u).next, s'.pc = Function.update s.pc u q := by
  have wait : ∀ x q, s.semWait u x q = some s' → s'.pc = Function.update s.pc u q := by
    intro x q h
    unfold RwLock.semWait at h
    split_ifs at h
    obtain rfl := Option.some.inj h
    rfl
  have signal : ∀ x q, s.semSignal u x q = some s' → s'.pc = Function.update s.pc u q := by
    intro x q h
    obtain rfl := Option.some.inj h
    rfl
  unfold RwLock.go at hs
  cases hpc : s.pc u with
  | idle => simp [hpc] at hs
  | lockGen | lockR | lockRcnt | lockW | writeWcnt | writeR | writeW | exitRcnt | exitWcnt
  | downWcnt | downRcnt =>
      simp only [hpc] at hs
      exact ⟨_, List.mem_singleton_self _, wait _ _ hs⟩
  | lockSignalRcnt | lockSignalR | lockSignalGen | writeSignalWcnt | exitSignalW | exitSignalRcnt
  | exitSignalR | exitSignalWcnt | downSignalRcnt | downSignalWcnt | downSignalR =>
      simp only [hpc] at hs
      exact ⟨_, List.mem_singleton_self _, signal _ _ hs⟩
  | testFirst | testRead | testLastRead | testLastWrite =>
      simp only [hpc, Option.some.injEq] at hs
      subst hs
      refine ⟨_, ?_, rfl⟩
      split_ifs
      · exact List.mem_cons_self
      · exact List.mem_cons_of_mem _ (List.mem_singleton_self _)
  | _ =>
      simp only [hpc, Option.some.injEq] at hs
      subst hs
      exact ⟨_, List.mem_singleton_self _, rfl⟩

/-- **A thread that cannot go on** is outside, or waits for a semaphore without a unit. -/
theorem go_eq_none (hs : s.go u = none) :
    s.pc u = .idle ∨ ∃ x, (s.pc u).waitsFor = some x ∧ s.sem x ≤ 0 := by
  have wait : ∀ x q, s.semWait u x q = none → s.sem x ≤ 0 := by
    intro x q h
    unfold RwLock.semWait at h
    split_ifs at h with hblocked
    exact hblocked
  unfold RwLock.go at hs
  cases hpc : s.pc u with
  | idle => exact Or.inl rfl
  | lockGen | lockR | lockRcnt | lockW | writeWcnt | writeR | writeW | exitRcnt | exitWcnt
  | downWcnt | downRcnt =>
      simp only [hpc] at hs
      exact Or.inr ⟨_, rfl, wait _ _ hs⟩
  | _ => simp [hpc, RwLock.semSignal] at hs

/-! ## A stuck lock -/

/-- Every thread is outside or waits for a semaphore without a unit. -/
def Stuck (s : RwLock ι) : Prop :=
  ∀ u, s.pc u = .idle ∨ ∃ x, (s.pc u).waitsFor = some x ∧ s.sem x ≤ 0

/-- Where the threads of a stuck lock can be. -/
def waitingPlaces : List RwPc := RwPc.places.filter fun p => p = .idle ∨ p.waitsFor.isSome

omit [DecidableEq ι] in
theorem Stuck.waiting (h : Stuck s) (u : ι) : s.pc u ∈ waitingPlaces := by
  refine List.mem_filter.mpr ⟨RwPc.of_places (fun p hp => hp) _, ?_⟩
  rcases h u with hidle | ⟨x, hx, -⟩
  · exact decide_eq_true (Or.inl hidle)
  · exact decide_eq_true (Or.inr (by rw [hx]; rfl))

omit [DecidableEq ι] in
/-- Nobody waits for a semaphore that has a unit. -/
theorem Stuck.narrow (h : Stuck s) {L : List RwPc} (hL : ∀ u, s.pc u ∈ L) {x : RwSem}
    (free : 0 < s.sem x) (u : ι) : s.pc u ∈ L.filter fun p => p.waitsFor ≠ some x := by
  refine List.mem_filter.mpr ⟨hL u, decide_eq_true fun hx => ?_⟩
  rcases h u with hidle | ⟨y, hy, hblocked⟩
  · rw [hidle] at hx
    cases hx
  · rw [hx] at hy
    obtain rfl := Option.some.inj hy
    omega

variable [Fintype ι] {n : Int}

omit [DecidableEq ι] in
/-- A semaphore that nobody has a unit of has its unit. -/
theorem Tokens.free (h : Tokens n s) {L : List RwPc} (hL : ∀ u, s.pc u ∈ L) {x : RwSem}
    (hx : x ≠ .w) (none : ∀ p ∈ L, RwPc.owns x p = 0) : 0 < s.sem x := by
  have hbalance := (h.shared x hx).balance
  rw [tally_eq_zero fun t => none _ (hL t)] at hbalance
  omega

omit [DecidableEq ι] in
/-- A semaphore without a unit has a holder. -/
theorem Tokens.holder (h : Tokens n s) {x : RwSem} (hx : x ≠ .w) (blocked : s.sem x ≤ 0) :
    ∃ v, 0 < RwPc.owns x (s.pc v) := by
  have hbalance := (h.shared x hx).balance
  exact exists_of_tally_pos (by omega)

/-- The first reader does not wait for `w` when the unit of `w` is not lost: a writer that had it
would have `r` as well, which the first reader has. -/
theorem Tokens.rcnt_free (h : Tokens n s) (hstuck : Stuck s)
    (kept : ∀ u, s.pc u = .lockW → n = 1) : 0 < s.sem .rcntMutex := by
  by_contra hblocked
  obtain ⟨v, hv⟩ := h.holder (by decide) (not_lt.mp hblocked)
  -- of the places where a thread may wait, only this one has `rcnt_mutex`
  have hlockW : s.pc v = .lockW := by
    have hplace : ∀ p ∈ waitingPlaces, 0 < RwPc.owns .rcntMutex p → p = .lockW := by decide
    exact hplace _ (hstuck.waiting v) hv
  have hw : s.sem .w ≤ 0 := by
    rcases hstuck v with hidle | ⟨x, hx, hle⟩
    · rw [hlockW] at hidle
      cases hidle
    · rw [hlockW] at hx
      exact Option.some.inj hx ▸ hle
  have hone : s.readcnt = 1 := h.expected v 1 (by rw [hlockW]; rfl)
  have hout := h.out_eq hlockW rfl
  rw [hone] at hout
  change s.out = 0 at hout
  have htoken := h.token
  rw [hout, kept v hlockW] at htoken
  obtain ⟨x, hx⟩ : ∃ x, 0 < RwPc.owns .w (s.pc x) := exists_of_tally_pos (by omega)
  have hplace : ∀ p ∈ waitingPlaces, 0 < RwPc.owns .w p → RwPc.owns .r p = 1 ∧ p ≠ .lockW := by
    decide
  obtain ⟨hr, hne⟩ := hplace _ (hstuck.waiting x) hx
  have hvx : v = x := h.unique (by decide) (by rw [hlockW]; rfl) hr
  exact hne (hvx ▸ hlockW)

/-- The places where a thread of a stuck lock waits in `rwlock_lock`. -/
def lockingPlaces : List RwPc :=
  .idle :: .lockGen :: .lockR :: [false, true].flatMap fun b => [.writeWcnt b, .writeR b, .writeW b]

/-- A writer does not wait for `wcnt_mutex` to unlock or to downgrade: the holder would be a second
one between the two waits. -/
theorem Tokens.lockingPlaces_of_stuck (h : Tokens n s) (hstuck : Stuck s)
    (free : 0 < s.sem .rcntMutex) (one : tally RwPc.between s.pc ≤ 1) (u : ι) :
    s.pc u ∈ lockingPlaces := by
  have hfirst := hstuck.narrow hstuck.waiting free
  have hlockW : s.pc u ≠ .lockW := by
    intro hu
    have hself := le_tally s.pc (RwPc.owns_nonneg .rcntMutex) u
    have hbalance := (h.shared .rcntMutex (by decide)).balance
    rw [hu] at hself
    change 1 ≤ _ at hself
    omega
  have hdeparting : (s.pc u).departing = false := by
    by_contra hdeparts
    have hplace : ∀ p ∈ waitingPlaces, ¬ p.departing = false →
        p.waitsFor = some .wcntMutex ∧ p.between = 1 ∧ RwPc.owns .wcntMutex p = 0 := by decide
    obtain ⟨hwaits, hbetween, hnone⟩ := hplace _ (hstuck.waiting u) hdeparts
    have hblocked : s.sem .wcntMutex ≤ 0 := by
      rcases hstuck u with hidle | ⟨x, hx, hle⟩
      · rw [hidle] at hwaits
        cases hwaits
      · rw [hwaits] at hx
        exact Option.some.inj hx ▸ hle
    obtain ⟨v, hv⟩ := h.holder (by decide) hblocked
    have hsecond : ∀ p ∈ waitingPlaces.filter (fun p => p.waitsFor ≠ some .rcntMutex),
        0 < RwPc.owns .wcntMutex p → p.between = 1 := by decide
    have hvu : v ≠ u := by
      rintro rfl
      omega
    have htwo := two_le_tally s.pc RwPc.between_nonneg hvu
    rw [hsecond _ (hfirst v) hv, hbetween] at htwo
    omega
  have hplace : ∀ p ∈ waitingPlaces.filter (fun p => p.waitsFor ≠ some .rcntMutex),
      p ≠ .lockW → p.departing = false → p ∈ lockingPlaces := by decide
  exact hplace _ (hfirst u) hlockW hdeparting

/-- **A stuck lock is idle**, when no unit of `w` is lost while a thread is in `rwlock_lock` and at
most one writer is between its two waits for `wcnt_mutex`. -/
theorem Tokens.idle_of_stuck (h : Tokens n s) (hstuck : Stuck s)
    (kept : ∀ u, (s.pc u).locking = true → n = 1) (one : tally RwPc.between s.pc ≤ 1) (u : ι) :
    s.pc u = .idle := by
  by_contra hbusy
  have hrcnt := h.rcnt_free hstuck fun u hu => kept u (by rw [hu]; rfl)
  have hplaces := h.lockingPlaces_of_stuck hstuck hrcnt one
  -- nobody has the unit of `w`, which is not lost
  have hn : n = 1 := by
    have hplace : ∀ p ∈ lockingPlaces, p ≠ .idle → p.locking = true := by decide
    exact kept u (hplace _ (hplaces u) hbusy)
  have hzero : ∀ f : RwPc → Int, (∀ p ∈ lockingPlaces, f p = 0) → tally f s.pc = 0 :=
    fun f hf => tally_eq_zero fun t => hf _ (hplaces t)
  have hw : 0 < s.sem .w := by
    have htoken := h.token
    have hreaders := h.readers
    rw [hzero _ (by decide)] at hreaders
    rw [hzero _ (by decide), out, if_pos hreaders, hzero _ (by decide)] at htoken
    omega
  -- so nobody waits for `w`, and nobody has `r`; and so on
  have hnotW := hstuck.narrow hplaces hw
  have hr := h.free hnotW (x := .r) (by decide) (by decide)
  have hnotR := hstuck.narrow hnotW hr
  have hgen := h.free hnotR (x := .genMutex) (by decide) (by decide)
  have hwcnt := h.free hnotR (x := .wcntMutex) (by decide) (by decide)
  have hnobody := hstuck.narrow (hstuck.narrow hnotR hgen) hwcnt u
  have hplace : ∀ p ∈ (((lockingPlaces.filter fun p => p.waitsFor ≠ some .w).filter fun p =>
      p.waitsFor ≠ some .r).filter fun p => p.waitsFor ≠ some .genMutex).filter fun p =>
      p.waitsFor ≠ some .wcntMutex, p = .idle := by decide
  exact hbusy (hplace _ hnobody)

end RwLock

/-! ## Threads with something to do -/

/-- Threads on one lock, each with the sessions that it has still to begin. -/
structure RwTask (ι : Type*) where
  /-- The lock. -/
  lock : RwLock ι
  /-- The sessions. -/
  todo : ι → List Session

namespace RwTask

variable {ι : Type*} [DecidableEq ι]

/-- **One step** of the thread `u`: outside, it begins its next session. -/
def step (s : RwTask ι) (u : ι) : Option (RwTask ι) :=
  match s.lock.pc u, s.todo u with
  | .idle, [] => none
  | .idle, c :: rest =>
      (s.lock.step (.start u c)).map fun lock => ⟨lock, Function.update s.todo u rest⟩
  | _, _ => (s.lock.step (.go u)).map fun lock => ⟨lock, s.todo⟩

/-- The steps as a relation. -/
def Step (s : RwTask ι) (u : ι) (s' : RwTask ι) : Prop := s.step u = some s'

/-- After `rwlock_init`. -/
def init (todo : ι → List Session) : RwTask ι := ⟨RwLock.init, todo⟩

/-- The thread has not finished. -/
def Unfinished (s : RwTask ι) (u : ι) : Prop := s.lock.pc u ≠ .idle ∨ s.todo u ≠ []

/-- **The condition** on the step of the thread `u`: a writer takes `wcnt_mutex` in `rwlock_lock`
only when no other departs, and a writer unlocks only when no thread is in `rwlock_lock` or has
still a session to begin. -/
structure Safe (s : RwTask ι) (u : ι) : Prop where
  /-- The wait for `wcnt_mutex`. -/
  enter : (∃ down, s.lock.pc u = .writeWcnt down) → ∀ v, (s.lock.pc v).departing = false
  /-- The branch of a writer. -/
  unlock : s.lock.pc u = .testRead true → ∀ v, (s.lock.pc v).locking = false ∧ s.todo v = []

instance [Fintype ι] (s : RwTask ι) (u : ι) : Decidable (s.Safe u) :=
  decidable_of_iff (((∃ down, s.lock.pc u = .writeWcnt down) →
      ∀ v, (s.lock.pc v).departing = false) ∧
      (s.lock.pc u = .testRead true → ∀ v, (s.lock.pc v).locking = false ∧ s.todo v = []))
    ⟨fun h => ⟨h.1, h.2⟩, fun h => ⟨h.enter, h.unlock⟩⟩

/-- The steps of a task are those of its lock. -/
theorem step_cases {s s' : RwTask ι} {u : ι} (hs : s.Step u s') :
    (∃ c rest, s.lock.Step (.start u c) s'.lock ∧ s.todo u = c :: rest ∧
      s'.todo = Function.update s.todo u rest) ∨
    (s.lock.pc u ≠ .idle ∧ s.lock.go u = some s'.lock ∧ s'.todo = s.todo) := by
  unfold Step RwTask.step at hs
  split at hs
  · cases hs
  · next c rest _ htodo =>
      obtain ⟨lock, hlock, rfl⟩ := Option.map_eq_some_iff.mp hs
      exact Or.inl ⟨c, rest, hlock, htodo, rfl⟩
  · next hidle hidle' =>
      obtain ⟨lock, hlock, rfl⟩ := Option.map_eq_some_iff.mp hs
      refine Or.inr ⟨fun hpc => ?_, hlock, rfl⟩
      cases htodo : s.todo u with
      | nil => exact hidle hpc htodo
      | cons c rest => exact hidle' c rest hpc htodo

/-- **A task that cannot go on** has a stuck lock, and no session to begin outside. -/
theorem stuck_of_step {s : RwTask ι} (hs : ∀ u, s.step u = none) :
    s.lock.Stuck ∧ ∀ u, s.lock.pc u = .idle → s.todo u = [] := by
  refine ⟨fun u => ?_, fun u hidle => ?_⟩
  · by_cases hidle : s.lock.pc u = .idle
    · exact Or.inl hidle
    · have hnone := hs u
      unfold RwTask.step at hnone
      split at hnone
      · next hpc _ => exact Or.inl hpc
      · next hpc _ => exact Or.inl hpc
      · exact RwLock.go_eq_none (Option.map_eq_none_iff.mp hnone)
  · have hnone := hs u
    cases htodo : s.todo u with
    | nil => rfl
    | cons c rest => simp [RwTask.step, hidle, htodo, RwLock.step] at hnone

/-! ## Runs that keep the condition -/

variable [Fintype ι] {s s' : RwTask ι} {u : ι}

/-- **The invariant**: the unit of `w` is lost only when nobody needs the lock any more, and one
writer at a time is between its waits for `wcnt_mutex`. -/
structure Smooth (n : Int) (s : RwTask ι) : Prop where
  tokens : s.lock.Tokens n
  le_one : n ≤ 1
  between : tally RwPc.between s.lock.pc ≤ 1
  kept : n = 1 ∨ ∀ v, (s.lock.pc v).locking = false ∧ s.todo v = []

omit [DecidableEq ι] in
theorem smooth_init (todo : ι → List Session) : Smooth 1 (init todo) where
  tokens := RwLock.tokens_init
  le_one := le_refl 1
  between := (tally_eq_zero fun _ => rfl).trans_le Int.one_nonneg
  kept := Or.inl rfl

/-- A writer that gets `wcnt_mutex` finds no other between the two waits. -/
theorem Smooth.between_eq_zero {n : Int} {lock : RwLock ι} (h : Smooth n s) {down : Bool}
    (pc : s.lock.pc u = .writeWcnt down) (departs : ∀ v, (s.lock.pc v).departing = false)
    (hs : s.lock.go u = some lock) : tally RwPc.between s.lock.pc ≤ 0 := by
  have hfree : 0 < s.lock.sem .wcntMutex := by
    simp only [RwLock.go, pc, RwLock.semWait] at hs
    split_ifs at hs with hblocked
    omega
  have hbalance := (h.tokens.shared .wcntMutex (by decide)).balance
  have hle : tally RwPc.between s.lock.pc ≤ tally (RwPc.owns .wcntMutex) s.lock.pc :=
    tally_le fun t => RwPc.between_le _ (departs t)
  omega

/-- **One writer at a time** is between the two waits. -/
theorem Smooth.between_step {n : Int} {lock : RwLock ι} (h : Smooth n s) (safe : s.Safe u)
    (hs : s.lock.go u = some lock) : tally RwPc.between lock.pc ≤ 1 := by
  obtain ⟨q, hq, hpc⟩ := RwLock.go_next hs
  have hmove := tally_update RwPc.between s.lock.pc u q
  have hbefore := h.between
  rw [← hpc] at hmove
  have hnonneg := RwPc.between_nonneg (s.lock.pc u)
  by_cases henter : ∃ down, s.lock.pc u = .writeWcnt down
  · obtain ⟨down, hu⟩ := henter
    have hzero := h.between_eq_zero hu (safe.enter ⟨down, hu⟩) hs
    have hone : RwPc.between q ≤ 1 := RwPc.of_places (P := fun p => p.between ≤ 1) (by decide) q
    omega
  · by_cases hreader : s.lock.pc u = .testRead false
    · -- a counted reader takes the branch of a reader
      have hpos := h.tokens.readcnt_pos (u := u) (by rw [hreader]; rfl)
      simp only [RwLock.go, hreader, if_pos (show s.lock.readcnt > 0 from hpos),
        Option.some.injEq] at hs
      subst hs
      have hsame := tally_update RwPc.between s.lock.pc u .exitRcnt
      change tally RwPc.between (Function.update s.lock.pc u .exitRcnt) ≤ 1
      change _ + _ = _ + (0 : Int) at hsame
      omega
    · have hle := RwPc.between_next (s.lock.pc u) (fun down hu => henter ⟨down, hu⟩) hreader q hq
      omega

/-- **Step lemma.** -/
theorem Smooth.step {n : Int} (h : Smooth n s) (hs : s.Step u s') (safe : s.Safe u) :
    ∃ n', Smooth n' s' := by
  rcases step_cases hs with ⟨c, rest, hlock, htodo, -⟩ | ⟨-, hgo, htodo⟩
  · -- somebody had a session to begin
    have hn : n = 1 := by
      rcases h.kept with hone | hnone
      · exact hone
      · rw [(hnone u).2] at htodo
        cases htodo
    have htokens : s'.lock.Tokens n := h.tokens.step h.le_one hlock
    refine ⟨n, htokens, h.le_one, ?_, Or.inl hn⟩
    simp only [RwLock.Step, RwLock.step] at hlock
    split_ifs at hlock with hidle
    have hpc : s'.lock.pc = Function.update s.lock.pc u (RwLock.entry c) := by
      rw [← Option.some.inj hlock]
      rfl
    rw [hpc, tally_update_same (by rw [hidle]; cases c <;> rfl)]
    exact h.between
  · have htokens := h.tokens.go h.le_one hgo
    refine ⟨_, htokens, (RwLock.keptBy_le n s.lock (.go u)).trans h.le_one,
      h.between_step safe hgo, ?_⟩
    obtain ⟨q, hq, hpc⟩ := RwLock.go_next hgo
    have hnobody : (∀ v, (s.lock.pc v).locking = false ∧ s.todo v = []) →
        ∀ v, (s'.lock.pc v).locking = false ∧ s'.todo v = [] := by
      intro hnone v
      rw [htodo, hpc]
      refine ⟨?_, (hnone v).2⟩
      by_cases hvu : v = u
      · rw [hvu, Function.update_self]
        exact RwPc.locking_next _ (hnone u).1 q hq
      · rw [Function.update_of_ne hvu]
        exact (hnone v).1
    by_cases hwriter : s.lock.pc u = .testRead true
    · exact Or.inr (hnobody (safe.unlock hwriter))
    · rw [RwLock.kept, if_neg hwriter]
      exact h.kept.imp id hnobody

/-- **No deadlock** in a state with the invariant. -/
theorem Smooth.progress {n : Int} (h : Smooth n s) (busy : ∃ u, s.Unfinished u) :
    ∃ u s', s.Step u s' := by
  by_contra hnone
  have hblocked : ∀ u, s.step u = none := by
    intro u
    cases hs : s.step u with
    | none => rfl
    | some s' => exact absurd ⟨u, s', hs⟩ hnone
  obtain ⟨hstuck, hdone⟩ := stuck_of_step hblocked
  have hkept : ∀ u, (s.lock.pc u).locking = true → n = 1 := by
    intro u hu
    rcases h.kept with hone | hnobody
    · exact hone
    · rw [(hnobody u).1] at hu
      cases hu
  have hidle := h.tokens.idle_of_stuck hstuck hkept h.between
  obtain ⟨u, hpc | htodo⟩ := busy
  · exact hpc (hidle u)
  · exact htodo (hdone u (hidle u))

/-- **The lock does not deadlock** in the runs whose steps all meet the condition, for any number of
threads and any sessions: while a thread has not finished, some thread can take a step. -/
theorem rwlock_progresses {todo : ι → List Session} {moves : List ι}
    (run : Run (Guarded Step Safe) (init todo) moves s) (busy : ∃ u, s.Unfinished u) :
    ∃ u s', s.Step u s' := by
  have hsmooth : ∃ n, Smooth n s := by
    apply run.invariant (I := fun s => ∃ n, Smooth n s) ⟨1, smooth_init todo⟩
    rintro s u s' ⟨n, h⟩ ⟨hs, hsafe⟩
    exact h.step hs hsafe
  obtain ⟨n, h⟩ := hsmooth
  exact h.progress busy

/-- A writer that will downgrade has the lock, and a reader waits for `r`. -/
theorem rwlock_progresses_waiting :
    ∃ s : RwTask (Fin 2), s.lock.pc 0 = .writing true ∧ s.lock.pc 1 = .lockR ∧
      s.step 1 = none ∧ ∃ u s', s.Step u s' := by
  have hruns : ∃ s, runList (fun s u => if decide (Safe s u) = true then step s u else none)
      (init fun u : Fin 2 => if u = 0 then [.write true] else [.read])
      [0, 0, 0, 0, 0, 0, 1, 1] = some s ∧ s.lock.pc 0 = .writing true ∧ s.lock.pc 1 = .lockR ∧
      s.step 1 = none := ⟨_, rfl, rfl, rfl, rfl⟩
  obtain ⟨s, hrun, hwriter, hreader, hblocked⟩ := hruns
  refine ⟨s, hwriter, hreader, hblocked, ?_⟩
  apply rwlock_progresses (Run.guarded_of_runList (fun _ _ => of_decide_eq_true) hrun)
  exact ⟨1, Or.inl (by rw [hreader]; decide)⟩

/-- **The lock deadlocks**: a thread that has unlocked as a writer waits as the first reader for the
lost unit of `w`; and a writer that has the lock waits for `wcnt_mutex` to downgrade, which a writer
that waits for `r` holds. -/
theorem rwlock_deadlocks :
    (∃ moves, ∃ s : RwTask (Fin 1), Run Step (init fun _ => [.write false, .read]) moves s ∧
      s.Unfinished 0 ∧ ∀ u, s.step u = none) ∧
    ∃ moves, ∃ s : RwTask (Fin 2), Run Step (init fun _ => [.write true]) moves s ∧
      s.Unfinished 0 ∧ s.Unfinished 1 ∧ ∀ u, s.step u = none := by
  constructor
  · have hruns : ∃ s : RwTask (Fin 1), runList step (init fun _ => [.write false, .read])
        (List.replicate 19 0) = some s ∧ s.lock.pc 0 = .lockW ∧ s.step 0 = none :=
      ⟨_, rfl, rfl, rfl⟩
    obtain ⟨s, hrun, hpc, hblocked⟩ := hruns
    refine ⟨_, s, Run.of_runList hrun, Or.inl (by rw [hpc]; decide), ?_⟩
    intro u
    rw [Subsingleton.elim u 0]
    exact hblocked
  · have hruns : ∃ s : RwTask (Fin 2), runList step (init fun _ => [.write true])
        [0, 0, 0, 0, 0, 0, 1, 1, 1, 0] = some s ∧ s.lock.pc 0 = .downWcnt ∧
        s.lock.pc 1 = .writeR true ∧ s.step 0 = none ∧ s.step 1 = none :=
      ⟨_, rfl, rfl, rfl, rfl, rfl⟩
    obtain ⟨s, hrun, hfirst, hsecond, hblocked, hblocked'⟩ := hruns
    refine ⟨_, s, Run.of_runList hrun, Or.inl (by rw [hfirst]; decide),
      Or.inl (by rw [hsecond]; decide), ?_⟩
    exact Fin.forall_fin_two.mpr ⟨hblocked, hblocked'⟩

end RwTask

end Pebbles
