import Pebbles.Libthread.RwLockTokens

/-! # Reader-writer exclusion

Every statement keeps the units of the lock where the invariant says, and with them a writer is
alone: it holds `r`, of which there is one unit, and either it holds the unit of `w`, so that no
reader is counted, or it is the only counted reader already. -/

namespace Pebbles

open Tallies Transition

namespace RwLock

variable {ι : Type*} [Fintype ι] [DecidableEq ι] {n n' : Int} {s s' : RwLock ι} {u : ι} {p q : RwPc}

/-! ## The readers' units after a statement -/

/-- How the readers' units depend on the place of one thread. -/
theorem out_goto (s : RwLock ι) (u : ι) (q : RwPc) (c : Int) :
    ({ s with readcnt := c }.goto u q).out =
      if c = 0 then tally RwPc.leaving s.pc + q.leaving - (s.pc u).leaving
      else if c = 1 then 1 - (tally RwPc.arriving s.pc + q.arriving - (s.pc u).arriving)
      else 1 := by
  have hleaving := tally_update RwPc.leaving s.pc u q
  have harriving := tally_update RwPc.arriving s.pc u q
  show (if c = 0 then tally RwPc.leaving (Function.update s.pc u q)
    else if c = 1 then 1 - tally RwPc.arriving (Function.update s.pc u q) else 1) = _
  split_ifs <;> omega

omit [DecidableEq ι] in
/-- A holder of `rcnt_mutex` is the only one that may have to wait for `w` or to signal it. -/
theorem Tokens.alone (h : Tokens n s) (pc : s.pc u = p) (own : RwPc.owns .rcntMutex p = 1) :
    tally RwPc.leaving s.pc = p.leaving ∧ tally RwPc.arriving s.pc = p.arriving := by
  subst pc
  exact ⟨h.tally_of_owns (by decide) own RwPc.leaving_nonneg RwPc.leaving_le_rcnt,
    h.tally_of_owns (by decide) own RwPc.arriving_nonneg RwPc.arriving_le_rcnt⟩

omit [DecidableEq ι] in
/-- **The readers' units**, as a holder of `rcnt_mutex` sees them. -/
theorem Tokens.out_eq (h : Tokens n s) (pc : s.pc u = p) (own : RwPc.owns .rcntMutex p = 1) :
    s.out = if s.readcnt = 0 then p.leaving
      else if s.readcnt = 1 then 1 - p.arriving else 1 := by
  obtain ⟨hleaving, harriving⟩ := h.alone pc own
  unfold out
  rw [hleaving, harriving]

/-- And after its statement. -/
theorem Tokens.out_goto_eq (h : Tokens n s) (pc : s.pc u = p) (own : RwPc.owns .rcntMutex p = 1)
    (c : Int) :
    ({ s with readcnt := c }.goto u q).out = if c = 0 then q.leaving
      else if c = 1 then 1 - q.arriving else 1 := by
  obtain ⟨hleaving, harriving⟩ := h.alone pc own
  rw [out_goto, pc, hleaving, harriving, add_sub_cancel_left, add_sub_cancel_left]

/-- And after its move. -/
theorem Tokens.out_move_eq (h : Tokens n s) (pc : s.pc u = p)
    (own : RwPc.owns .rcntMutex p = 1) :
    (s.goto u q).out = if s.readcnt = 0 then q.leaving
      else if s.readcnt = 1 then 1 - q.arriving else 1 :=
  h.out_goto_eq pc own s.readcnt

/-! ## The statements that concern the counters and `w` -/

/-- `readcnt++` of a reader. -/
theorem Tokens.incRead (h : Tokens n s) (pc : s.pc u = .incRead) :
    Tokens n ({ s with readcnt := s.readcnt + 1 }.goto u .testFirst) := by
  have hcount := h.counters.1.1
  refine h.countReader pc rfl (by decide) (RwPc.owns_ext rfl rfl rfl rfl) rfl (add_zero _) ?_ nofun
  rw [h.out_goto_eq pc rfl, h.out_eq pc rfl]
  show (if s.readcnt + 1 = 0 then (0 : Int) else if s.readcnt + 1 = 1 then 1 - 1 else 1) + 0 =
    (if s.readcnt = 0 then 0 else if s.readcnt = 1 then 1 - 0 else 1) + 0
  split_ifs <;> omega

/-- `readcnt--`. -/
theorem Tokens.decRead (h : Tokens n s) (pc : s.pc u = .decRead) :
    Tokens n ({ s with readcnt := s.readcnt - 1 }.goto u .testLastRead) := by
  have hcount := h.readcnt_pos (u := u) (by rw [pc]; rfl)
  refine h.countReader pc rfl (by decide) (RwPc.owns_ext rfl rfl rfl rfl) rfl ?_ ?_ nofun
  · show s.readcnt - 1 + 1 = s.readcnt + 0
    omega
  · rw [h.out_goto_eq pc rfl, h.out_eq pc rfl]
    show (if s.readcnt - 1 = 0 then (1 : Int) else if s.readcnt - 1 = 1 then 1 - 0 else 1) + 0 =
      (if s.readcnt = 0 then 0 else if s.readcnt = 1 then 1 - 0 else 1) + 0
    split_ifs <;> omega

/-- `readcnt++` of a downgrading writer, whose unit of `w` becomes the readers'. -/
theorem Tokens.downIncRead (h : Tokens n s) (hn : n ≤ 1) (pc : s.pc u = .downIncRead) :
    Tokens n ({ s with readcnt := s.readcnt + 1 }.goto u .downSignalRcnt) := by
  have hnone : s.readcnt = 0 :=
    h.readcnt_of_writer hn (u := u) (by rw [pc]; rfl) (by rw [pc]; rfl) (by rw [pc]; rfl)
  refine h.countReader pc rfl (by decide) (RwPc.owns_ext rfl rfl rfl rfl) rfl (add_zero _) ?_ ?_
  · rw [h.out_goto_eq pc rfl, h.out_eq pc rfl, hnone]
    rfl
  · intro c hc
    rw [hnone]
    exact Option.some.inj hc

/-- `if (rwlock->readcnt == 1)`. -/
theorem Tokens.testFirst (h : Tokens n s) (pc : s.pc u = .testFirst) :
    Tokens n (s.goto u (if s.readcnt = 1 then .lockW else .lockSignalRcnt)) := by
  split_ifs with hfirst
  · refine h.move pc (RwPc.owns_ext rfl rfl rfl rfl) ⟨rfl, rfl, rfl, rfl, rfl⟩ fun c hc => ?_
    exact hfirst.trans (Option.some.inj hc)
  · have hcount := h.readcnt_pos (u := u) (by rw [pc]; rfl)
    refine h.turn pc (RwPc.owns_ext rfl rfl rfl rfl) rfl rfl ?_ nofun
    rw [h.out_eq pc rfl, h.out_move_eq pc rfl]
    show (if s.readcnt = 0 then (0 : Int) else if s.readcnt = 1 then 1 - 0 else 1) + 0 + n =
      (if s.readcnt = 0 then 0 else if s.readcnt = 1 then 1 - 1 else 1) + 0 + n
    split_ifs; omega; rfl

/-- `sem_wait(&rwlock->w)` of the first reader. -/
theorem Tokens.lockW (h : Tokens n s) (pc : s.pc u = .lockW)
    (hs : s.semWait u .w .lockSignalRcnt = some s') : Tokens n s' := by
  have hone : s.readcnt = 1 := h.expected u 1 (by rw [pc]; rfl)
  refine h.waitW pc hs (RwPc.owns_ext rfl rfl rfl rfl) rfl rfl ?_ nofun
  rw [h.out_eq pc rfl, h.out_move_eq pc rfl, hone]
  rfl

/-- `sem_wait(&rwlock->w)` of a writer. -/
theorem Tokens.writeW (h : Tokens n s) {down : Bool} (pc : s.pc u = .writeW down)
    (hs : s.semWait u .w (.writeSignalWcnt down) = some s') : Tokens n s' := by
  refine h.waitW pc hs (RwPc.owns_ext rfl rfl rfl rfl) rfl rfl ?_ nofun
  have hout : (s.goto u (.writeSignalWcnt down)).out = s.out :=
    out_same rfl rfl (by rw [pc]; rfl) (by rw [pc]; rfl)
  rw [hout]
  show s.out + 1 = s.out + 0 + 1
  omega

/-- `if (rwlock->readcnt == 0)`. -/
theorem Tokens.testLastRead (h : Tokens n s) (pc : s.pc u = .testLastRead) :
    Tokens n (s.goto u (if s.readcnt = 0 then .exitSignalW else .exitSignalRcnt)) := by
  split_ifs with hlast
  · refine h.move pc (RwPc.owns_ext rfl rfl rfl rfl) ⟨rfl, rfl, rfl, rfl, rfl⟩ fun c hc => ?_
    exact hlast.trans (Option.some.inj hc)
  · refine h.turn pc (RwPc.owns_ext rfl rfl rfl rfl) rfl rfl ?_ nofun
    rw [h.out_eq pc rfl, h.out_move_eq pc rfl,
      if_neg hlast, if_neg hlast]
    rfl

/-- `sem_signal(&rwlock->w)` of the last reader. -/
theorem Tokens.exitSignalW (h : Tokens n s) (pc : s.pc u = .exitSignalW)
    (hs : s.semSignal u .w .exitSignalRcnt = some s') : Tokens n s' := by
  have hzero : s.readcnt = 0 := h.expected u 0 (by rw [pc]; rfl)
  refine h.signalW pc hs (RwPc.owns_ext rfl rfl rfl rfl) rfl rfl ?_ nofun
  rw [h.out_eq pc rfl, h.out_move_eq pc rfl, hzero]
  rfl

/-- `if (rwlock->writecnt == 0)`: no other writer is counted, since each would need `wcnt_mutex` or
`r`, and so `r` is signalled. -/
theorem Tokens.testLastWrite (h : Tokens n s) (pc : s.pc u = .testLastWrite) :
    Tokens n (s.goto u (if s.writecnt = 0 then .exitSignalR else .exitSignalWcnt)) := by
  have hnone : s.writecnt = 0 := by
    have hothers := tally_others_add s.pc RwPc.writer_le u
    have hwcnt := h.shared .wcntMutex (by decide)
    have hr := h.shared .r (by decide)
    have hwriters := h.writers
    have hcount := h.counters.2.1
    rw [pc] at hothers
    change tally RwPc.writer s.pc - 0 ≤ _ + _ - 1 - 1 at hothers
    have hbalance := hwcnt.balance
    have hbalance' := hr.balance
    have hnonneg := hwcnt.nonneg
    have hnonneg' := hr.nonneg
    omega
  rw [if_pos hnone]
  exact h.move pc (RwPc.owns_ext rfl rfl rfl rfl) ⟨rfl, rfl, rfl, rfl, rfl⟩ nofun

/-- **`if (rwlock->readcnt > 0)` takes the branch of its thread**: a reader is counted, and beside a
writer nobody is. The writer's unit of `w` is lost here. -/
theorem Tokens.testRead (h : Tokens n s) (hn : n ≤ 1) {writer : Bool}
    (pc : s.pc u = .testRead writer) :
    Tokens (if writer then n - 1 else n)
      (s.goto u (if s.readcnt > 0 then .exitRcnt else .exitWcnt)) := by
  cases writer with
  | false =>
      have hcount := h.readcnt_pos (u := u) (by rw [pc]; rfl)
      rw [if_pos (show s.readcnt > 0 from hcount)]
      exact h.move pc (RwPc.owns_ext rfl rfl rfl rfl) ⟨rfl, rfl, rfl, rfl, rfl⟩ nofun
  | true =>
      have hnone : s.readcnt = 0 :=
        h.readcnt_of_writer hn (u := u) (by rw [pc]; rfl) (by rw [pc]; rfl) (by rw [pc]; rfl)
      have hout : (s.goto u .exitWcnt).out = s.out :=
        out_same rfl rfl (by rw [pc]; rfl) (by rw [pc]; rfl)
      rw [hnone, if_neg (lt_irrefl 0), if_pos rfl]
      refine h.turn pc (RwPc.owns_ext rfl rfl rfl rfl) rfl rfl ?_ nofun
      rw [hout]
      show s.out + 0 + n = s.out + 1 + (n - 1)
      omega

/-! ## The step lemma -/

/-- The units of `w` that are not lost when `n` of them are not and the thread is at `p`. -/
def kept (n : Int) (p : RwPc) : Int := if p = .testRead true then n - 1 else n

/-- **Step lemma**, for the statements. -/
theorem Tokens.go (h : Tokens n s) (hn : n ≤ 1) (hs : s.go u = some s') :
    Tokens (kept n (s.pc u)) s' := by
  unfold RwLock.go at hs
  cases hpc : s.pc u with
  | idle => simp [hpc] at hs
  -- `sem_wait` on a semaphore other than `w`
  | lockGen | lockR | lockRcnt | writeWcnt down | writeR down | exitRcnt | exitWcnt | downWcnt
  | downRcnt =>
      simp only [hpc] at hs
      exact h.semWait hpc hs (by decide) (RwPc.owns_ext rfl rfl rfl rfl)
        ⟨rfl, rfl, rfl, rfl, rfl⟩ nofun
  -- `sem_signal` on a semaphore other than `w`
  | lockSignalRcnt | lockSignalR | lockSignalGen | writeSignalWcnt down | exitSignalRcnt
  | exitSignalR | exitSignalWcnt | downSignalR =>
      simp only [hpc] at hs
      exact h.semSignal hpc hs (by decide) (RwPc.owns_ext rfl rfl rfl rfl)
        ⟨rfl, rfl, rfl, rfl, rfl⟩ nofun
  | downSignalRcnt | downSignalWcnt =>
      simp only [hpc] at hs
      have hone : s.readcnt = 1 := h.expected u 1 (by rw [hpc]; rfl)
      exact h.semSignal hpc hs (by decide) (RwPc.owns_ext rfl rfl rfl rfl)
        ⟨rfl, rfl, rfl, rfl, rfl⟩ fun c hc => hone.trans (Option.some.inj hc)
  | lockW =>
      simp only [hpc] at hs
      exact h.lockW hpc hs
  | writeW down =>
      simp only [hpc] at hs
      exact h.writeW hpc hs
  | exitSignalW =>
      simp only [hpc] at hs
      exact h.exitSignalW hpc hs
  | incRead =>
      simp only [hpc, Option.some.injEq] at hs
      exact hs ▸ h.incRead hpc
  | decRead =>
      simp only [hpc, Option.some.injEq] at hs
      exact hs ▸ h.decRead hpc
  | downIncRead =>
      simp only [hpc, Option.some.injEq] at hs
      exact hs ▸ h.downIncRead hn hpc
  | incWrite down =>
      simp only [hpc, Option.some.injEq] at hs
      subst hs
      exact h.countWriter hpc (fun x => rfl) rfl rfl rfl (add_zero _) rfl
  | decWrite =>
      simp only [hpc, Option.some.injEq] at hs
      subst hs
      refine h.countWriter hpc (fun x => rfl) rfl rfl rfl ?_ rfl
      exact (sub_add_cancel s.writecnt 1).trans (add_zero _).symm
  | downDecWrite =>
      simp only [hpc, Option.some.injEq] at hs
      subst hs
      refine h.countWriter hpc (fun x => rfl) rfl rfl rfl ?_ rfl
      exact (sub_add_cancel s.writecnt 1).trans (add_zero _).symm
  | testFirst =>
      simp only [hpc, Option.some.injEq] at hs
      exact hs ▸ h.testFirst hpc
  | testLastRead =>
      simp only [hpc, Option.some.injEq] at hs
      exact hs ▸ h.testLastRead hpc
  | testLastWrite =>
      simp only [hpc, Option.some.injEq] at hs
      exact hs ▸ h.testLastWrite hpc
  | testRead writer =>
      simp only [hpc, Option.some.injEq] at hs
      subst hs
      have hnext := h.testRead hn hpc
      cases writer <;> exact hnext
  | reading =>
      simp only [hpc, Option.some.injEq] at hs
      subst hs
      exact h.move hpc (RwPc.owns_ext rfl rfl rfl rfl) ⟨rfl, rfl, rfl, rfl, rfl⟩ nofun
  | writing down =>
      simp only [hpc, Option.some.injEq] at hs
      subst hs
      cases down
      · exact h.move hpc (RwPc.owns_ext rfl rfl rfl rfl) ⟨rfl, rfl, rfl, rfl, rfl⟩ nofun
      · exact h.move hpc (RwPc.owns_ext rfl rfl rfl rfl) ⟨rfl, rfl, rfl, rfl, rfl⟩ nofun

/-- A session begins. -/
theorem Tokens.start (h : Tokens n s) (pc : s.pc u = .idle) (c : Session) :
    Tokens n (s.goto u (entry c)) := by
  cases c with
  | read => exact h.move pc (RwPc.owns_ext rfl rfl rfl rfl) ⟨rfl, rfl, rfl, rfl, rfl⟩ nofun
  | write down => exact h.move pc (RwPc.owns_ext rfl rfl rfl rfl) ⟨rfl, rfl, rfl, rfl, rfl⟩ nofun

/-- The units of `w` that the step does not lose. -/
def keptBy (n : Int) (s : RwLock ι) : RwMove ι → Int
  | .start _ _ => n
  | .go u => kept n (s.pc u)

/-- **Step lemma.** -/
theorem Tokens.step {m : RwMove ι} (h : Tokens n s) (hn : n ≤ 1) (hs : s.Step m s') :
    Tokens (keptBy n s m) s' := by
  cases m with
  | go u => exact h.go hn hs
  | start u c =>
      simp only [Step, RwLock.step] at hs
      split_ifs at hs with hidle
      obtain rfl := Option.some.inj hs
      exact h.start hidle c

omit [Fintype ι] [DecidableEq ι] in
theorem keptBy_le (n : Int) (s : RwLock ι) (m : RwMove ι) : keptBy n s m ≤ n := by
  cases m with
  | start u c => exact le_refl n
  | go u =>
      simp only [keptBy, kept]
      split_ifs <;> omega

/-- **Run lemma.** At most one unit of `w` is not lost. -/
theorem tokens_of_run {moves : List (RwMove ι)} (run : Run Step init moves s) :
    ∃ n ≤ 1, Tokens n s := by
  apply run.invariant (I := fun s => ∃ n ≤ 1, Tokens n s) ⟨1, le_refl 1, tokens_init⟩
  rintro s m s' ⟨n, hn, h⟩ hs
  exact ⟨keptBy n s m, (keptBy_le n s m).trans hn, h.step hn hs⟩

/-! ## Exclusion -/

omit [Fintype ι] [DecidableEq ι] in
/-- A writer holds `r`, and the unit of `w` or the place of the first reader. -/
theorem owns_of_holdsWrite {p : RwPc} (h : p.HoldsWrite) :
    RwPc.owns .r p = 1 ∧ p.arriving = 0 ∧ p.HoldsRead = False ∧
      (RwPc.owns .w p = 1 ∨ p.expects = some 1 ∧ p.reader = 1) := by
  cases p with
  | writing down => exact ⟨rfl, rfl, rfl, Or.inl rfl⟩
  | downWcnt | downRcnt | downDecWrite | downIncRead => exact ⟨rfl, rfl, rfl, Or.inl rfl⟩
  | downSignalRcnt | downSignalWcnt | downSignalR => exact ⟨rfl, rfl, rfl, Or.inr ⟨rfl, rfl⟩⟩
  | _ => exact h.elim

/-- **A writer is alone.** -/
theorem Tokens.exclusive (h : Tokens n s) (hn : n ≤ 1) (hu : (s.pc u).HoldsWrite) (v : ι) :
    ((s.pc v).HoldsWrite → v = u) ∧ ¬ (s.pc v).HoldsRead := by
  obtain ⟨hr, harriving, hnotRead, hw⟩ := owns_of_holdsWrite hu
  refine ⟨fun hv => h.unique (by decide) (owns_of_holdsWrite hv).1 hr, fun hv => ?_⟩
  have hvu : v ≠ u := by
    rintro rfl
    exact hnotRead ▸ hv
  have hreader : (s.pc v).reader = 1 := by
    cases hp : s.pc v <;> rw [hp] at hv <;> first | rfl | exact hv.elim
  have hpos := h.readcnt_pos hreader
  rcases hw with hw | ⟨hexpects, hcounted⟩
  · -- the writer has the unit of `w`, and no reader is counted
    have hnone := h.readcnt_of_writer hn hw hr harriving
    omega
  · -- the writer is counted as the only reader
    have hone := h.expected u 1 hexpects
    have htwo := two_le_tally s.pc RwPc.reader_nonneg hvu
    have hreaders := h.readers
    omega

/-- **Reader-writer exclusion**: for any number of threads and any interleaving, when a thread holds
the lock for writing, no other thread does, and no thread holds it for reading. -/
theorem rwlock_excludes {moves : List (RwMove ι)} (run : Run Step init moves s) {u : ι}
    (writer : (s.pc u).HoldsWrite) (v : ι) :
    ((s.pc v).HoldsWrite → v = u) ∧ ¬ (s.pc v).HoldsRead := by
  obtain ⟨n, hn, h⟩ := tokens_of_run run
  exact h.exclusive hn writer v

/-- A writer in the middle of `rwlock_downgrade`, and a reader that waits for `r`. -/
theorem rwlock_excludes_downgrade :
    ∃ s : RwLock (Fin 2), s.pc 0 = .downSignalR ∧ s.pc 1 = .lockR ∧ ¬ (s.pc 1).HoldsRead := by
  have hruns : ∃ s : RwLock (Fin 2), runList step init (.start 0 (.write true) ::
      List.replicate 12 (.go 0) ++ [.start 1 .read, .go 1]) = some s ∧ s.pc 0 = .downSignalR ∧
      s.pc 1 = .lockR := ⟨_, rfl, rfl, rfl⟩
  obtain ⟨s, hrun, hwriter, hreader⟩ := hruns
  refine ⟨s, hwriter, hreader, ?_⟩
  exact (rwlock_excludes (Run.of_runList hrun) (u := 0) (by rw [hwriter]; trivial) 1).2

end RwLock

end Pebbles
