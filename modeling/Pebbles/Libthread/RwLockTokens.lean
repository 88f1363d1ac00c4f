import Pebbles.Libthread.RwLock
import Pebbles.Library.Tallies

/-! # The units of the reader-writer lock

The units of the four semaphores other than `w` are left or with single threads, and the two
counters count threads by where they are. The unit of `w` is left, or with a writer, or with the
readers together: from the wait of the first one, which holds `rcnt_mutex` until it has the unit, to
the signal of the last one, which holds `rcnt_mutex` from the decrement on. The writer's branch of
`rwlock_unlock` gives no unit of `w` back. -/

namespace Pebbles

open Tallies

/-! ## What a place counts for -/

namespace RwPc

/-- The semaphores of which a thread at the place has a unit. -/
def units : RwPc → List RwSem
  | lockR | lockSignalGen => [.genMutex]
  | lockRcnt | lockSignalR => [.genMutex, .r]
  | incRead | testFirst | lockW | lockSignalRcnt => [.genMutex, .r, .rcntMutex]
  | incWrite _ | writeR _ => [.wcntMutex]
  | writeW _ => [.wcntMutex, .r]
  | writeSignalWcnt _ => [.wcntMutex, .r, .w]
  | writing _ | testRead true | downWcnt => [.r, .w]
  | decRead | testLastRead | exitSignalW | exitSignalRcnt => [.rcntMutex]
  | exitWcnt => [.r]
  | decWrite | testLastWrite | exitSignalR => [.r, .wcntMutex]
  | exitSignalWcnt => [.wcntMutex]
  | downRcnt => [.r, .w, .wcntMutex]
  | downDecWrite | downIncRead => [.r, .w, .wcntMutex, .rcntMutex]
  | downSignalRcnt => [.r, .wcntMutex, .rcntMutex]
  | downSignalWcnt => [.r, .wcntMutex]
  | downSignalR => [.r]
  | _ => []

/-- The units of one semaphore. -/
def owns (x : RwSem) (p : RwPc) : Int := if x ∈ p.units then 1 else 0

/-- Between `readcnt++` and `readcnt--`. -/
def reader : RwPc → Int
  | testFirst | lockW | lockSignalRcnt | lockSignalR | lockSignalGen | reading | testRead false
  | exitRcnt | decRead | downSignalRcnt | downSignalWcnt | downSignalR => 1
  | _ => 0

/-- Between `writecnt++` and `writecnt--`. -/
def writer : RwPc → Int
  | writeR _ | writeW _ | writeSignalWcnt _ | writing _ | testRead true | exitWcnt | decWrite
  | downWcnt | downRcnt | downDecWrite => 1
  | _ => 0

/-- A reader that may have to wait for `w`. -/
def arriving : RwPc → Int
  | testFirst | lockW => 1
  | _ => 0

/-- A reader that may have to signal `w`. -/
def leaving : RwPc → Int
  | testLastRead | exitSignalW => 1
  | _ => 0

/-- The value of `readcnt` that a thread at the place relies on. -/
def expects : RwPc → Option Int
  | lockW | downSignalRcnt | downSignalWcnt | downSignalR => some 1
  | exitSignalW => some 0
  | _ => none

/-- All places. -/
def places : List RwPc :=
  [idle, lockGen, lockR, lockRcnt, incRead, testFirst, lockW, lockSignalRcnt, lockSignalR,
    lockSignalGen, reading, exitRcnt, decRead, testLastRead, exitSignalW, exitSignalRcnt, exitWcnt,
    decWrite, testLastWrite, exitSignalR, exitSignalWcnt, downWcnt, downRcnt, downDecWrite,
    downIncRead, downSignalRcnt, downSignalWcnt, downSignalR] ++
  [false, true].flatMap fun b =>
    [writeWcnt b, incWrite b, writeR b, writeW b, writeSignalWcnt b, writing b, testRead b]

/-- What holds at the listed places holds everywhere. -/
theorem of_places {P : RwPc → Prop} (h : ∀ p ∈ places, P p) (p : RwPc) : P p := by
  apply h
  cases p with
  | writeWcnt b | incWrite b | writeR b | writeW b | writeSignalWcnt b | writing b | testRead b =>
      cases b <;> decide
  | _ => decide

theorem owns_nonneg (x : RwSem) (p : RwPc) : 0 ≤ owns x p := by
  unfold owns
  split_ifs <;> decide

theorem reader_nonneg : ∀ p, 0 ≤ reader p :=
  of_places (by decide)

theorem writer_nonneg : ∀ p, 0 ≤ writer p :=
  of_places (by decide)

theorem arriving_nonneg : ∀ p, 0 ≤ arriving p :=
  of_places (by decide)

theorem leaving_nonneg : ∀ p, 0 ≤ leaving p :=
  of_places (by decide)

/-- Whoever may have to wait for `w` holds `rcnt_mutex` -/
theorem arriving_le_rcnt : ∀ p, arriving p ≤ owns .rcntMutex p :=
  of_places (by decide)

/-- and `r`. -/
theorem arriving_le_r : ∀ p, arriving p ≤ owns .r p :=
  of_places (by decide)

theorem leaving_le_rcnt : ∀ p, leaving p ≤ owns .rcntMutex p :=
  of_places (by decide)

/-- A counted writer holds `wcnt_mutex` or `r`. -/
theorem writer_le : ∀ p, writer p ≤ owns .wcntMutex p + owns .r p :=
  of_places (by decide)

/-- The semaphores other than `w`, one by one. -/
theorem owns_ext {f g : RwSem → Int} (rcntMutex : f .rcntMutex = g .rcntMutex)
    (wcntMutex : f .wcntMutex = g .wcntMutex) (genMutex : f .genMutex = g .genMutex)
    (r : f .r = g .r) : ∀ x, x ≠ .w → f x = g x := by
  intro x hx
  cases x with
  | rcntMutex => exact rcntMutex
  | wcntMutex => exact wcntMutex
  | genMutex => exact genMutex
  | r => exact r
  | w => exact absurd rfl hx

/-- Whoever relies on `readcnt` holds `rcnt_mutex`, or `r` as the only counted reader. -/
theorem owns_of_expects : ∀ p c, expects p = some c →
    owns .rcntMutex p = 1 ∨ owns .r p = 1 ∧ reader p = 1 ∧ c = 1 := by
  intro p c h
  cases p with
  | lockW | exitSignalW | downSignalRcnt => exact Or.inl (by decide)
  | downSignalWcnt | downSignalR =>
      exact Or.inr ⟨by decide, by decide, (Option.some.inj h).symm⟩
  | _ => cases h

/-- **The same role**: the places differ at most in the semaphores other than `w`. -/
structure Same (p q : RwPc) : Prop where
  w : owns .w q = owns .w p
  reader : q.reader = p.reader
  writer : q.writer = p.writer
  arriving : q.arriving = p.arriving
  leaving : q.leaving = p.leaving

end RwPc

/-! ## The invariant -/

namespace RwLock

variable {ι : Type*} [Fintype ι]

/-- The units of `w` that the readers have together. -/
def out (s : RwLock ι) : Int :=
  if s.readcnt = 0 then tally RwPc.leaving s.pc
  else if s.readcnt = 1 then 1 - tally RwPc.arriving s.pc
  else 1

/-- **Where the units are**, when `n` units of `w` have not been lost. -/
structure Tokens (n : Int) (s : RwLock ι) : Prop where
  /-- Each of the other semaphores has one unit. -/
  shared : ∀ x, x ≠ .w → Shared 1 (s.sem x) (RwPc.owns x) s.pc
  /-- `readcnt` counts readers. -/
  readers : s.readcnt = tally RwPc.reader s.pc
  /-- `writecnt` counts writers. -/
  writers : s.writecnt = tally RwPc.writer s.pc
  /-- The count of `w` is never negative. -/
  nonneg : 0 ≤ s.sem .w
  /-- The units of `w` are left, with a writer, or with the readers. -/
  token : s.sem .w + tally (RwPc.owns .w) s.pc + s.out = n
  /-- `readcnt` is what the threads rely on. -/
  expected : ∀ t c, (s.pc t).expects = some c → s.readcnt = c

/-- After `rwlock_init`. -/
theorem tokens_init : Tokens 1 (init : RwLock ι) := by
  have hzero : ∀ f : RwPc → Int, f .idle = 0 → tally f (init : RwLock ι).pc = 0 :=
    fun f hf => tally_eq_zero fun _ => hf
  refine ⟨fun x _ => ⟨Int.one_nonneg, ?_⟩, (hzero _ rfl).symm, (hzero _ rfl).symm,
    Int.one_nonneg, ?_,
    fun t c h => by cases h⟩
  · rw [hzero (RwPc.owns x) rfl]
    rfl
  · rw [hzero (RwPc.owns .w) rfl]
    show (1 : Int) + 0 + tally RwPc.leaving (init : RwLock ι).pc = 1
    rw [hzero RwPc.leaving rfl]
    rfl

/-- The counters are between zero and the number of threads. -/
theorem Tokens.counters {n : Int} {s : RwLock ι} (h : Tokens n s) :
    (0 ≤ s.readcnt ∧ s.readcnt ≤ Fintype.card ι) ∧
      (0 ≤ s.writecnt ∧ s.writecnt ≤ Fintype.card ι) := by
  rw [h.readers, h.writers]
  exact ⟨⟨tally_nonneg RwPc.reader_nonneg, tally_le_card (RwPc.of_places (by decide))⟩,
    ⟨tally_nonneg RwPc.writer_nonneg, tally_le_card (RwPc.of_places (by decide))⟩⟩

/-- **A holder of a semaphore keeps the others away** from the places that need it. -/
theorem Tokens.tally_of_owns {n : Int} {s : RwLock ι} (h : Tokens n s) {x : RwSem} (hx : x ≠ .w)
    {u : ι} (own : RwPc.owns x (s.pc u) = 1) {f : RwPc → Int} (nonneg : ∀ p, 0 ≤ f p)
    (le : ∀ p, f p ≤ RwPc.owns x p) : tally f s.pc = f (s.pc u) := by
  have hothers := tally_others s.pc le u
  have hself := le_tally s.pc nonneg u
  have hbalance := (h.shared x hx).balance
  have hnonneg := (h.shared x hx).nonneg
  omega

/-- Two threads that need the same semaphore. -/
theorem Tokens.unique {n : Int} {s : RwLock ι} (h : Tokens n s) [DecidableEq ι] {x : RwSem}
    (hx : x ≠ .w) {u v : ι} (hu : RwPc.owns x (s.pc u) = 1) (hv : RwPc.owns x (s.pc v) = 1) :
    u = v :=
  (h.shared x hx).unique (RwPc.owns_nonneg x) hu hv

/-- A counted reader is counted. -/
theorem Tokens.readcnt_pos {n : Int} {s : RwLock ι} (h : Tokens n s) {u : ι}
    (reader : (s.pc u).reader = 1) : 1 ≤ s.readcnt := by
  rw [h.readers, ← reader]
  exact le_tally s.pc RwPc.reader_nonneg u

/-- The readers never have less than nothing. -/
theorem Tokens.out_nonneg {n : Int} {s : RwLock ι} (h : Tokens n s) : 0 ≤ s.out := by
  have hbalance := (h.shared .rcntMutex (by decide)).balance
  have hnonneg := (h.shared .rcntMutex (by decide)).nonneg
  have hleaving : 0 ≤ tally RwPc.leaving s.pc := tally_nonneg RwPc.leaving_nonneg
  have harriving : tally RwPc.arriving s.pc ≤ tally (RwPc.owns .rcntMutex) s.pc :=
    tally_le fun t => RwPc.arriving_le_rcnt (s.pc t)
  unfold out
  split_ifs <;> omega

/-- **A writer with the unit of `w` is alone**: no reader is counted. -/
theorem Tokens.readcnt_of_writer {n : Int} {s : RwLock ι} (h : Tokens n s) (hn : n ≤ 1) {u : ι}
    (w : RwPc.owns .w (s.pc u) = 1) (r : RwPc.owns .r (s.pc u) = 1)
    (idle : (s.pc u).arriving = 0) : s.readcnt = 0 := by
  have hself := le_tally s.pc (RwPc.owns_nonneg .w) u
  have harriving :=
    h.tally_of_owns (by decide) r RwPc.arriving_nonneg RwPc.arriving_le_r
  have htoken := h.token
  have hnonneg := h.nonneg
  have hcount := h.counters.1.1
  unfold out at htoken
  split_ifs at htoken <;> omega

/-! ## Statements -/

variable [DecidableEq ι] {n n' : Int} {s s' : RwLock ι} {u : ι} {p q : RwPc}

/-- **A statement of the thread `u`**, by what it changes. -/
theorem Tokens.change (h : Tokens n s) (pc : s'.pc = Function.update s.pc u q)
    (shared : ∀ x, x ≠ .w → Shared 1 (s'.sem x) (RwPc.owns x) s'.pc)
    (readers : s'.readcnt + (s.pc u).reader = s.readcnt + q.reader)
    (writers : s'.writecnt + (s.pc u).writer = s.writecnt + q.writer)
    (nonneg : 0 ≤ s'.sem .w)
    (token : s'.sem .w + RwPc.owns .w q + s'.out + n =
      s.sem .w + RwPc.owns .w (s.pc u) + s.out + n')
    (expects : ∀ c, q.expects = some c → s'.readcnt = c)
    (others : s'.readcnt = s.readcnt ∨ ∀ t, t ≠ u → (s.pc t).expects = none) : Tokens n' s' := by
  have hreaders := h.readers
  have hwriters := h.writers
  have htoken := h.token
  have hreader := tally_update RwPc.reader s.pc u q
  have hwriter := tally_update RwPc.writer s.pc u q
  have hw := tally_update (RwPc.owns .w) s.pc u q
  rw [← pc] at hreader hwriter hw
  refine ⟨shared, by omega, by omega, nonneg, by omega, fun t c ht => ?_⟩
  rw [pc] at ht
  by_cases htu : t = u
  · rw [htu, Function.update_self] at ht
    exact expects c ht
  · rw [Function.update_of_ne htu] at ht
    rcases others with hsame | hnone
    · rw [hsame]
      exact h.expected t c ht
    · rw [hnone t htu] at ht
      cases ht

/-- The readers' units, when the thread stays in or out of them. -/
theorem out_same (pc : s'.pc = Function.update s.pc u q) (readcnt : s'.readcnt = s.readcnt)
    (arriving : q.arriving = (s.pc u).arriving) (leaving : q.leaving = (s.pc u).leaving) :
    s'.out = s.out := by
  unfold out
  rw [readcnt, pc, tally_update_same leaving, tally_update_same arriving]

/-- A statement that keeps the role of its thread, the counters and `w`. -/
theorem Tokens.frame (h : Tokens n s) (pc : s'.pc = Function.update s.pc u q)
    (readcnt : s'.readcnt = s.readcnt) (writecnt : s'.writecnt = s.writecnt)
    (w : s'.sem .w = s.sem .w)
    (shared : ∀ x, x ≠ .w → Shared 1 (s'.sem x) (RwPc.owns x) s'.pc)
    (same : RwPc.Same (s.pc u) q) (expects : ∀ c, q.expects = some c → s.readcnt = c) :
    Tokens n s' := by
  have hout := out_same pc readcnt same.arriving same.leaving
  refine h.change pc shared ?_ ?_ ?_ ?_ ?_ (Or.inl readcnt)
  · rw [readcnt, same.reader]
  · rw [writecnt, same.writer]
  · rw [w]
    exact h.nonneg
  · rw [w, hout, same.w]
  · rw [readcnt]
    exact expects

/-- A thread that only moves. -/
theorem Tokens.move (h : Tokens n s) (pc : s.pc u = p) (owns : ∀ x, x ≠ .w → RwPc.owns x q = RwPc.owns x p)
    (same : RwPc.Same p q) (expects : ∀ c, q.expects = some c → s.readcnt = c) :
    Tokens n (s.goto u q) := by
  subst pc
  exact h.frame rfl rfl rfl rfl (fun x hx => (h.shared x hx).keep (owns x hx)) same expects

/-- `sem_wait` on a semaphore other than `w`. -/
theorem Tokens.semWait (h : Tokens n s) (pc : s.pc u = p) {x : RwSem}
    (hs : s.semWait u x q = some s') (hx : x ≠ .w)
    (owns : ∀ y, y ≠ .w → RwPc.owns y q = RwPc.owns y p + if y = x then 1 else 0)
    (same : RwPc.Same p q) (expects : ∀ c, q.expects = some c → s.readcnt = c) :
    Tokens n s' := by
  subst pc
  unfold RwLock.semWait at hs
  split_ifs at hs with hblocked
  obtain rfl := Option.some.inj hs
  have hw : Function.update s.sem x (s.sem x - 1) .w = s.sem .w :=
    Function.update_of_ne (Ne.symm hx) _ _
  refine h.frame rfl rfl rfl hw (fun y hy => ?_) same expects
  show Shared 1 (Function.update s.sem x (s.sem x - 1) y) _ _
  have hone := owns y hy
  by_cases hyx : y = x
  · subst hyx
    rw [if_pos rfl] at hone
    rw [Function.update_self]
    exact (h.shared y hy).take (by omega) hone
  · rw [if_neg hyx, add_zero] at hone
    rw [Function.update_of_ne hyx]
    exact (h.shared y hy).keep hone

/-- `sem_signal` on a semaphore other than `w`. -/
theorem Tokens.semSignal (h : Tokens n s) (pc : s.pc u = p) {x : RwSem}
    (hs : s.semSignal u x q = some s') (hx : x ≠ .w)
    (owns : ∀ y, y ≠ .w → RwPc.owns y q + (if y = x then 1 else 0) = RwPc.owns y p)
    (same : RwPc.Same p q) (expects : ∀ c, q.expects = some c → s.readcnt = c) :
    Tokens n s' := by
  subst pc
  obtain rfl := Option.some.inj hs
  have hw : Function.update s.sem x (s.sem x + 1) .w = s.sem .w :=
    Function.update_of_ne (Ne.symm hx) _ _
  refine h.frame rfl rfl rfl hw (fun y hy => ?_) same expects
  show Shared 1 (Function.update s.sem x (s.sem x + 1) y) _ _
  have hone := owns y hy
  by_cases hyx : y = x
  · subst hyx
    rw [if_pos rfl] at hone
    rw [Function.update_self]
    exact (h.shared y hy).give hone
  · rw [if_neg hyx, add_zero] at hone
    rw [Function.update_of_ne hyx]
    exact (h.shared y hy).keep hone

/-- The other semaphores, when a statement concerns `w` only. -/
theorem Tokens.shared_of_w (h : Tokens n s) (c : Int)
    (owns : ∀ x, x ≠ .w → RwPc.owns x q = RwPc.owns x (s.pc u)) :
    ∀ x, x ≠ .w → Shared 1 (((s.setSem .w c).goto u q).sem x) (RwPc.owns x)
      ((s.setSem .w c).goto u q).pc := by
  intro x hx
  have hsem : ((s.setSem .w c).goto u q).sem x = s.sem x := Function.update_of_ne hx _ _
  rw [hsem]
  exact (h.shared x hx).keep (owns x hx)

/-- `sem_wait` on `w`. -/
theorem Tokens.waitW (h : Tokens n s) (pc : s.pc u = p) (hs : s.semWait u .w q = some s')
    (owns : ∀ x, x ≠ .w → RwPc.owns x q = RwPc.owns x p)
    (reader : q.reader = p.reader) (writer : q.writer = p.writer)
    (token : (s.goto u q).out + RwPc.owns .w q = s.out + RwPc.owns .w p + 1)
    (expects : ∀ c, q.expects = some c → s.readcnt = c) :
    Tokens n s' := by
  subst pc
  unfold RwLock.semWait at hs
  split_ifs at hs with hblocked
  obtain rfl := Option.some.inj hs
  have hsem : ((s.setSem .w (s.sem .w - 1)).goto u q).sem .w = s.sem .w - 1 :=
    setSem_sem_self s .w _
  refine h.change rfl (h.shared_of_w _ owns) ?_ ?_ ?_ ?_ expects (Or.inl rfl)
  · rw [reader]
    rfl
  · rw [writer]
    rfl
  · rw [hsem]
    omega
  · rw [hsem]
    change _ + (s.goto u q).out + n = _
    omega

/-- `sem_signal` on `w`. -/
theorem Tokens.signalW (h : Tokens n s) (pc : s.pc u = p) (hs : s.semSignal u .w q = some s')
    (owns : ∀ x, x ≠ .w → RwPc.owns x q = RwPc.owns x p)
    (reader : q.reader = p.reader) (writer : q.writer = p.writer)
    (token : (s.goto u q).out + RwPc.owns .w q + 1 = s.out + RwPc.owns .w p)
    (expects : ∀ c, q.expects = some c → s.readcnt = c) :
    Tokens n s' := by
  subst pc
  obtain rfl := Option.some.inj hs
  have hsem : ((s.setSem .w (s.sem .w + 1)).goto u q).sem .w = s.sem .w + 1 :=
    setSem_sem_self s .w _
  have hnonneg := h.nonneg
  refine h.change rfl (h.shared_of_w _ owns) ?_ ?_ ?_ ?_ expects (Or.inl rfl)
  · rw [reader]
    rfl
  · rw [writer]
    rfl
  · rw [hsem]
    omega
  · rw [hsem]
    change _ + (s.goto u q).out + n = _
    omega

/-- A statement that moves its thread and changes its role. -/
theorem Tokens.turn (h : Tokens n s) (pc : s.pc u = p) (owns : ∀ x, x ≠ .w → RwPc.owns x q = RwPc.owns x p)
    (reader : q.reader = p.reader) (writer : q.writer = p.writer)
    (token : (s.goto u q).out + RwPc.owns .w q + n = s.out + RwPc.owns .w p + n')
    (expects : ∀ c, q.expects = some c → s.readcnt = c) : Tokens n' (s.goto u q) := by
  subst pc
  refine h.change rfl (fun x hx => (h.shared x hx).keep (owns x hx)) ?_ ?_ h.nonneg ?_ expects
    (Or.inl rfl)
  · rw [reader]
    rfl
  · rw [writer]
    rfl
  · change s.sem .w + _ + _ + n = _
    omega

/-- An update of `writecnt`. -/
theorem Tokens.countWriter (h : Tokens n s) (pc : s.pc u = p) {c : Int}
    (owns : ∀ x, RwPc.owns x q = RwPc.owns x p) (reader : q.reader = p.reader)
    (arriving : q.arriving = p.arriving) (leaving : q.leaving = p.leaving)
    (writers : c + p.writer = s.writecnt + q.writer) (expects : q.expects = none) :
    Tokens n ({ s with writecnt := c }.goto u q) := by
  subst pc
  have hout : ({ s with writecnt := c }.goto u q).out = s.out := out_same rfl rfl arriving leaving
  refine h.change rfl (fun x hx => (h.shared x hx).keep (owns x)) ?_ writers h.nonneg ?_ ?_
    (Or.inl rfl)
  · rw [reader]
    rfl
  · rw [hout, owns .w]
    rfl
  · intro k hk
    rw [expects] at hk
    cases hk

/-- Nobody else relies on `readcnt` while a thread may update it. -/
theorem Tokens.unexpected (h : Tokens n s) (own : RwPc.owns .rcntMutex (s.pc u) = 1)
    (also : RwPc.owns .r (s.pc u) = 1 ∨ (s.pc u).reader = 1) :
    ∀ t, t ≠ u → (s.pc t).expects = none := by
  intro t htu
  cases hc : (s.pc t).expects with
  | none => rfl
  | some c =>
      rcases RwPc.owns_of_expects _ c hc with hrcnt | ⟨hr, hreader, hone⟩
      · exact absurd (h.unique (by decide) hrcnt own) htu
      · rcases also with hur | hureader
        · exact absurd (h.unique (by decide) hr hur) htu
        · -- two counted readers, and one of them relies on being the only one
          have htwo := two_le_tally s.pc RwPc.reader_nonneg htu
          have hreadcnt := h.expected t c hc
          have hreaders := h.readers
          omega

/-- An update of `readcnt`. -/
theorem Tokens.countReader (h : Tokens n s) (pc : s.pc u = p) {c : Int} (own : RwPc.owns .rcntMutex p = 1)
    (also : RwPc.owns .r p = 1 ∨ p.reader = 1)
    (owns : ∀ x, x ≠ .w → RwPc.owns x q = RwPc.owns x p)
    (writer : q.writer = p.writer)
    (readers : c + p.reader = s.readcnt + q.reader)
    (token : ({ s with readcnt := c }.goto u q).out + RwPc.owns .w q =
      s.out + RwPc.owns .w p)
    (expects : ∀ k, q.expects = some k → c = k) :
    Tokens n ({ s with readcnt := c }.goto u q) := by
  subst pc
  refine h.change rfl (fun x hx => (h.shared x hx).keep (owns x hx)) readers ?_ h.nonneg ?_ expects
    (Or.inr (h.unexpected own also))
  · rw [writer]
    rfl
  · change s.sem .w + _ + _ + n = _
    omega

end RwLock

end Pebbles
