import Pebbles.Libthread.WaitLists

/-! # Condition variables neither lose nor invent wake-ups

Every statement keeps the invariant of `WaitLists`, and the contract of the three functions is read
off it: each signal wakes the thread that waits longest, each broadcast the threads it found, nobody
comes out of `deschedule` but a dequeued thread, and whoever has released its mutex is in the list
when a lock is taken. -/

namespace Pebbles

open Transition

variable {ι κ μ : Type*}

namespace CvState

variable {s s' : CvState ι κ μ} {u : ι} {q : CvPc ι κ μ}

/-! ## The statements keep the invariant -/

/-- Mutexes do not matter. -/
theorem Sound.mutexLock [DecidableEq μ] (h : Sound s) {mp : μ} (hs : s.mutexLock mp = some s') :
    Sound s' ∧ s'.pc = s.pc ∧ s'.waitList = s.waitList := by
  unfold CvState.mutexLock at hs
  split_ifs at hs
  · obtain rfl := Option.some.inj hs
    exact ⟨h, rfl, rfl⟩
  · obtain rfl := Option.some.inj hs
    exact ⟨⟨⟨h.taken, h.one⟩, ⟨h.listed, h.waiting, h.fresh, h.woken, h.nodup, h.sorted,
      h.foundSorted, h.recorded⟩⟩, rfl, rfl⟩

theorem Sound.mutexUnlock [DecidableEq μ] (h : Sound s) (mp : μ) : Sound (s.mutexUnlock mp) := by
  unfold CvState.mutexUnlock
  split_ifs
  · exact h
  · exact ⟨⟨h.taken, h.one⟩, ⟨h.listed, h.waiting, h.fresh, h.woken, h.nodup, h.sorted,
      h.foundSorted, h.recorded⟩⟩

variable [DecidableEq ι]

/-- **A statement that moves its thread only**, and neither takes nor drops a lock. -/
theorem Sound.plain (h : Sound s) (holds : q.holds = (s.pc u).holds)
    (queued : q.queued = (s.pc u).queued) (notInsert : ∀ cv mp, q ≠ .waitInsert cv mp)
    (target : ∀ x, q.target = some x → (s.pc u).target = some x)
    (recorded : q.Recorded s.waitList (s.found u) (s.unblocked u)) : Sound (s.goto u q) := by
  have hpc : (s.goto u q).pc u = q := goto_pc_self s u q
  refine ⟨h.toLocks.keep holds, ?_⟩
  apply h.toWaits.keep (u := u) (fun t ht => goto_pc_of_ne s q ht) rfl rfl (fun _ _ => rfl)
    (fun _ _ => rfl) (fun _ _ => rfl)
  · rw [hpc, queued]
  · intro cv mp hq
    exact absurd (hpc.symm.trans hq) (notInsert cv mp)
  · intro x hx
    rw [hpc] at hx ⊢
    exact ⟨target x hx, holds⟩
  · exact h.foundSorted u
  · rw [hpc]
    exact recorded

/-- A thread in user mode starts one of the functions or goes on in user mode. -/
theorem Sound.enter (h : Sound s) (pc : (s.pc u).holds = none) (queued : (s.pc u).queued = none)
    (qholds : q.holds = none) (qqueued : q.queued = none)
    (recorded : q.Recorded s.waitList (s.found u) (s.unblocked u))
    (notInsert : ∀ cv mp, q ≠ .waitInsert cv mp) : Sound (s.goto u q) := by
  apply h.plain (qholds.trans pc.symm) (qqueued.trans queued.symm) notInsert _ recorded
  intro x hx
  obtain ⟨cv, hcv⟩ := CvPc.holds_of_target hx
  rw [qholds] at hcv
  cases hcv

/-- A waiter releases its mutex. -/
theorem Sound.release (h : Sound s) {cv : κ} {mp : μ} (pc : s.pc u = .waitUnlockMutex cv mp) :
    Sound ({ s with dequeued := Function.update s.dequeued u false }.goto u (.waitInsert cv mp)) := by
  set s1 : CvState ι κ μ := { s with dequeued := Function.update s.dequeued u false }
  have hpc : (s1.goto u (.waitInsert cv mp)).pc u = .waitInsert cv mp := goto_pc_self s1 u _
  have hother : ∀ t, t ≠ u → (s1.goto u (.waitInsert cv mp)).pc t = s.pc t :=
    fun t ht => goto_pc_of_ne s1 _ ht
  have hlocks := h.toLocks.keep (u := u) (q := .waitInsert cv mp) (by rw [pc]; rfl)
  refine ⟨⟨hlocks.taken, hlocks.one⟩, ?_⟩
  apply h.toWaits.keep hother rfl rfl
  · intro t ht
    refine Function.update_of_ne ?_ _ _
    rcases ht with ht | ht
    · exact ht
    · rw [pc] at ht
      exact absurd rfl ht
  · exact fun _ _ => rfl
  · exact fun _ _ => rfl
  · rw [hpc, pc]
    rfl
  · exact fun _ _ _ => Function.update_self _ _ _
  · intro x hx
    rw [hpc] at hx
    cases hx
  · exact h.foundSorted u
  · rw [hpc]
    trivial

/-- A signaller wakes the thread it has dequeued, or has to try again. -/
theorem Sound.makeRunnable (h : Sound s) {x : ι} {done again : CvPc ι κ μ}
    (target : (s.pc u).target = some x) (holds : done.holds = (s.pc u).holds)
    (queued : done.queued = none) (idle : done.target = none)
    (notInsert : ∀ cv mp, done ≠ .waitInsert cv mp)
    (recorded : done.Recorded s.waitList (s.found u) (s.unblocked u ++ [x]))
    (againHolds : again.holds = (s.pc u).holds) (againTarget : again.target = some x)
    (recordedAgain : again.Recorded s.waitList (s.found u) (s.unblocked u)) :
    Sound (s.makeRunnable u x done again) := by
  have huq : (s.pc u).queued = none := by
    cases hp : s.pc u <;> rw [hp] at target <;> first | rfl | cases target
  have retry : Sound (s.goto u again) := by
    have haq : again.queued = none := by
      cases again <;> first | rfl | cases againTarget
    apply h.plain againHolds (haq.trans huq.symm) _ _ recordedAgain
    · rintro cv mp rfl
      cases againTarget
    · intro y hy
      rw [againTarget] at hy
      rw [target]
      exact hy
  unfold CvState.makeRunnable
  cases hx : s.pc x with
  | asleep cv' mp =>
      have hxq : (s.pc x).queued = some cv' := by rw [hx]; rfl
      have hxu : x ≠ u := ne_of_queued hxq huq
      exact ⟨h.toLocks.wake hx hxu holds,
        h.toWaits.wake h.toLocks target hx queued idle notInsert recorded⟩
  | _ => exact retry

variable [DecidableEq κ]

/-- A thread takes a free lock. -/
theorem Sound.take (h : Sound s) {cv : κ} (free : s.spin cv = false) (holds : q.holds = some cv)
    (queued : q.queued = (s.pc u).queued) (notInsert : ∀ cv mp, q ≠ .waitInsert cv mp)
    (idle : q.target = none) (recorded : q.Recorded s.waitList (s.found u) (s.unblocked u)) :
    Sound ((s.setSpin cv true).goto u q) := by
  have hpc : ((s.setSpin cv true).goto u q).pc u = q := goto_pc_self _ u q
  have hother : ∀ t, t ≠ u → ((s.setSpin cv true).goto u q).pc t = s.pc t :=
    fun t ht => goto_pc_of_ne _ q ht
  refine ⟨h.toLocks.take free holds, ?_⟩
  apply h.toWaits.keep hother rfl rfl (fun _ _ => rfl)
    (fun _ _ => rfl) (fun _ _ => rfl)
  · rw [hpc, queued]
  · intro cv mp hq
    exact absurd (hpc.symm.trans hq) (notInsert cv mp)
  · intro x hx
    rw [hpc, idle] at hx
    cases hx
  · exact h.foundSorted u
  · rw [hpc]
    exact recorded

/-- A thread takes a free lock to wake others. -/
theorem Sound.takeSpin (h : Sound s) {cv : κ} (holds : q.holds = some cv)
    (queued : q.queued = (s.pc u).queued) (notInsert : ∀ cv mp, q ≠ .waitInsert cv mp)
    (idle : q.target = none) (recorded : q.Recorded s.waitList (s.waitList cv) [])
    (hs : s.takeSpin u cv q = some s') : Sound s' := by
  unfold CvState.takeSpin at hs
  split_ifs at hs with hspin
  obtain rfl := Option.some.inj hs
  have hlocks := h.toLocks.take (u := u) (q := q) (Bool.not_eq_true _ ▸ hspin) holds
  set s1 : CvState ι κ μ := { s.setSpin cv true with
    found := Function.update s.found u (s.waitList cv),
    unblocked := Function.update s.unblocked u [] }
  have hpc : (s1.goto u q).pc u = q := goto_pc_self s1 u q
  have hother : ∀ t, t ≠ u → (s1.goto u q).pc t = s.pc t := fun t ht => goto_pc_of_ne s1 q ht
  refine ⟨⟨hlocks.taken, hlocks.one⟩, ?_⟩
  apply h.toWaits.keep hother rfl rfl (fun _ _ => rfl)
    (fun t ht => Function.update_of_ne ht _ _) (fun t ht => Function.update_of_ne ht _ _)
  · rw [hpc, queued]
  · intro cv mp hq
    exact absurd (hpc.symm.trans hq) (notInsert cv mp)
  · intro x hx
    rw [hpc, idle] at hx
    cases hx
  · show (Function.update s.found u (s.waitList cv) u).Pairwise _
    rw [Function.update_self]
    exact h.sorted cv
  · rw [hpc]
    show q.Recorded s.waitList (Function.update s.found u _ u) (Function.update s.unblocked u _ u)
    rw [Function.update_self, Function.update_self]
    exact recorded

/-- A thread drops its lock. -/
theorem Sound.drop (h : Sound s) {cv : κ} (held : (s.pc u).holds = some cv) (holds : q.holds = none)
    (queued : q.queued = (s.pc u).queued) (notInsert : ∀ cv mp, q ≠ .waitInsert cv mp)
    (recorded : q.Recorded s.waitList (s.found u) (s.unblocked u)) :
    Sound ((s.setSpin cv false).goto u q) := by
  have hpc : ((s.setSpin cv false).goto u q).pc u = q := goto_pc_self _ u q
  have hother : ∀ t, t ≠ u → ((s.setSpin cv false).goto u q).pc t = s.pc t :=
    fun t ht => goto_pc_of_ne _ q ht
  refine ⟨h.toLocks.drop held holds, ?_⟩
  apply h.toWaits.keep hother rfl rfl (fun _ _ => rfl)
    (fun _ _ => rfl) (fun _ _ => rfl)
  · rw [hpc, queued]
  · intro cv mp hq
    exact absurd (hpc.symm.trans hq) (notInsert cv mp)
  · intro x hx
    rw [hpc] at hx
    obtain ⟨cv', hcv'⟩ := CvPc.holds_of_target hx
    rw [holds] at hcv'
    cases hcv'
  · exact h.foundSorted u
  · rw [hpc]
    exact recorded

/-- A signaller takes the first node off the list, or finds it empty. -/
theorem Sound.deleteFirst (h : Sound s) {cv : κ} {found : ι → CvPc ι κ μ} {empty : CvPc ι κ μ}
    (held : (s.pc u).holds = some cv) (unqueued : (s.pc u).queued = none)
    (holds : ∀ x, (found x).holds = some cv) (target : ∀ x, (found x).target = some x)
    (emptyHolds : empty.holds = some cv) (emptyQueued : empty.queued = none)
    (emptyIdle : empty.target = none) (notInsert : ∀ cv mp, empty ≠ .waitInsert cv mp)
    (recordedEmpty : s.waitList cv = [] → empty.Recorded s.waitList (s.found u) (s.unblocked u))
    (recorded : ∀ n rest, s.waitList cv = n :: rest →
      (found n.tid).Recorded (Function.update s.waitList cv rest) (s.found u) (s.unblocked u)) :
    Sound (s.deleteFirst u cv found empty) := by
  unfold CvState.deleteFirst
  cases hlist : s.waitList cv with
  | nil =>
      apply h.plain (emptyHolds.trans held.symm) (emptyQueued.trans unqueued.symm) notInsert _
        (recordedEmpty hlist)
      intro x hx
      rw [emptyIdle] at hx
      cases hx
  | cons n rest =>
      have hlocks := h.toLocks.keep (u := u) (q := found n.tid) ((holds _).trans held.symm)
      refine ⟨⟨hlocks.taken, hlocks.one⟩, ?_⟩
      exact h.toWaits.dequeue h.toLocks hlist held unqueued (holds _) (target _)
        (recorded n rest hlist)

variable [DecidableEq μ]

/-- **Step lemma**, for the statements. -/
theorem Sound.go (h : Sound s) (hs : s.go u = some s') : Sound s' := by
  have hrec := h.recorded u
  unfold CvState.go at hs
  cases hpc : s.pc u with
  | user => simp [hpc] at hs
  | waitTest cv mp =>
      simp only [hpc, Option.some.injEq] at hs
      subst hs
      split_ifs
      · exact h.enter (by rw [hpc]; rfl) (by rw [hpc]; rfl) rfl rfl trivial (by nofun)
      · exact h.enter (by rw [hpc]; rfl) (by rw [hpc]; rfl) rfl rfl trivial (by nofun)
  | waitLock cv mp =>
      simp only [hpc] at hs
      split_ifs at hs with hspin
      obtain rfl := Option.some.inj hs
      exact h.take (Bool.not_eq_true _ ▸ hspin) rfl (by rw [hpc]; rfl) (by nofun) rfl trivial
  | waitUnlockMutex cv mp =>
      simp only [hpc, Option.some.injEq] at hs
      subst hs
      have hpc' : (s.mutexUnlock mp).pc u = .waitUnlockMutex cv mp := by
        unfold CvState.mutexUnlock
        split_ifs <;> exact hpc
      have hdeq : (s.mutexUnlock mp).dequeued = s.dequeued := by
        unfold CvState.mutexUnlock
        split_ifs <;> rfl
      have hrelease := (h.mutexUnlock mp).release hpc'
      rw [hdeq] at hrelease
      exact hrelease
  | waitInsert cv mp =>
      simp only [hpc, Option.some.injEq] at hs
      subst hs
      have hlocks := h.toLocks.keep (u := u) (q := .waitUnlock cv mp) (by rw [hpc]; rfl)
      exact ⟨⟨hlocks.taken, hlocks.one⟩, h.toWaits.insert h.toLocks hpc⟩
  | waitUnlock cv mp =>
      simp only [hpc, Option.some.injEq] at hs
      subst hs
      exact h.drop (by rw [hpc]; rfl) rfl (by rw [hpc]; rfl) (by nofun) trivial
  | waitDeschedule cv mp =>
      simp only [hpc, Option.some.injEq] at hs
      subst hs
      exact h.plain (by rw [hpc]; rfl) (by rw [hpc]; rfl) (by nofun) (by nofun) trivial
  | asleep cv mp => simp [hpc] at hs
  | waitRelock cv mp =>
      simp only [hpc] at hs
      obtain ⟨s1, hlock, rfl⟩ := Option.map_eq_some_iff.mp hs
      obtain ⟨h1, hpc1, -⟩ := h.mutexLock hlock
      exact h1.enter (by rw [hpc1, hpc]; rfl) (by rw [hpc1, hpc]; rfl) rfl rfl trivial (by nofun)
  | signalTest cv =>
      simp only [hpc, Option.some.injEq] at hs
      subst hs
      split_ifs
      · exact h.enter (by rw [hpc]; rfl) (by rw [hpc]; rfl) rfl rfl trivial (by nofun)
      · exact h.enter (by rw [hpc]; rfl) (by rw [hpc]; rfl) rfl rfl trivial (by nofun)
  | signalLock cv =>
      simp only [hpc] at hs
      have hnone : CvPc.Recorded s.waitList (s.waitList cv) [] (.signalDelete cv : CvPc ι κ μ) :=
        ⟨rfl, rfl⟩
      exact h.takeSpin rfl (by rw [hpc]; rfl) (by nofun) rfl hnone hs
  | signalDelete cv =>
      simp only [hpc, Option.some.injEq] at hs
      subst hs
      rw [hpc] at hrec
      obtain ⟨hfound, hnone⟩ := hrec
      refine h.deleteFirst (by rw [hpc]; rfl) (by rw [hpc]; rfl) (fun _ => rfl) (fun _ => rfl) rfl
        rfl rfl (by nofun) ?_ ?_
      · intro hlist
        show s.unblocked u = ((s.found u).take 1).map CvNode.tid
        rw [hfound, hlist, hnone]
        rfl
      · intro n rest hlist
        refine ⟨n, rfl, ?_, hnone⟩
        rw [Function.update_self, hfound, hlist]
  | signalWake cv x =>
      simp only [hpc, Option.some.injEq] at hs
      subst hs
      rw [hpc] at hrec
      obtain ⟨n, htid, hfound, hnone⟩ := hrec
      refine h.makeRunnable (by rw [hpc]; rfl) (by rw [hpc]; rfl) rfl rfl (by nofun) ?_ (by rw [hpc]; rfl)
        rfl ⟨n, htid, hfound, hnone⟩
      · show s.unblocked u ++ [x] = ((s.found u).take 1).map CvNode.tid
        rw [hfound, hnone, ← htid]
        rfl
  | signalYield cv x =>
      simp only [hpc, Option.some.injEq] at hs
      subst hs
      rw [hpc] at hrec
      exact h.plain (by rw [hpc]; rfl) (by rw [hpc]; rfl) (by nofun) (by rw [hpc]; exact fun _ h => h) hrec
  | signalUnlock cv =>
      simp only [hpc, Option.some.injEq] at hs
      subst hs
      exact h.drop (by rw [hpc]; rfl) rfl (by rw [hpc]; rfl) (by nofun) trivial
  | castTest cv =>
      simp only [hpc, Option.some.injEq] at hs
      subst hs
      split_ifs
      · exact h.enter (by rw [hpc]; rfl) (by rw [hpc]; rfl) rfl rfl trivial (by nofun)
      · exact h.enter (by rw [hpc]; rfl) (by rw [hpc]; rfl) rfl rfl trivial (by nofun)
  | castLock cv =>
      simp only [hpc] at hs
      have hnone : CvPc.Recorded s.waitList (s.waitList cv) [] (.castLength cv : CvPc ι κ μ) :=
        (List.nil_append _).symm
      exact h.takeSpin rfl (by rw [hpc]; rfl) (by nofun) rfl hnone hs
  | castLength cv =>
      simp only [hpc, Option.some.injEq] at hs
      subst hs
      rw [hpc] at hrec
      split_ifs with hlen
      · exact h.plain (by rw [hpc]; rfl) (by rw [hpc]; rfl) (by nofun) (by nofun) hrec
      · refine h.plain (by rw [hpc]; rfl) (by rw [hpc]; rfl) (by nofun) (by nofun) ?_
        have hnil : s.waitList cv = [] := List.length_eq_zero_iff.mp (not_not.mp hlen)
        change (s.found u).map CvNode.tid = s.unblocked u ++ (s.waitList cv).map CvNode.tid at hrec
        rw [hnil, List.map_nil, List.append_nil] at hrec
        exact hrec.symm
  | castDelete cv =>
      simp only [hpc, Option.some.injEq] at hs
      subst hs
      rw [hpc] at hrec
      refine h.deleteFirst (by rw [hpc]; rfl) (by rw [hpc]; rfl) (fun _ => rfl) (fun _ => rfl) rfl
        rfl rfl (by nofun) ?_ ?_
      · exact fun _ => hrec
      · intro n rest hlist
        change (s.found u).map CvNode.tid = s.unblocked u ++ (s.waitList cv).map CvNode.tid at hrec
        show (s.found u).map CvNode.tid =
          s.unblocked u ++ n.tid :: (Function.update s.waitList cv rest cv).map CvNode.tid
        rw [Function.update_self, hrec, hlist]
        rfl
  | castWake cv x =>
      simp only [hpc, Option.some.injEq] at hs
      subst hs
      rw [hpc] at hrec
      refine h.makeRunnable (by rw [hpc]; rfl) (by rw [hpc]; rfl) rfl rfl (by nofun) ?_ (by rw [hpc]; rfl)
        rfl hrec
      show (s.found u).map CvNode.tid = s.unblocked u ++ [x] ++ (s.waitList cv).map CvNode.tid
      rw [List.append_assoc]
      exact hrec
  | castYield cv x =>
      simp only [hpc, Option.some.injEq] at hs
      subst hs
      rw [hpc] at hrec
      exact h.plain (by rw [hpc]; rfl) (by rw [hpc]; rfl) (by nofun) (by rw [hpc]; exact fun _ h => h) hrec
  | castUnlock cv =>
      simp only [hpc, Option.some.injEq] at hs
      subst hs
      exact h.drop (by rw [hpc]; rfl) rfl (by rw [hpc]; rfl) (by nofun) trivial

/-- **Step lemma.** -/
theorem Sound.step {m : CvMove ι κ μ} (h : Sound s) (hs : s.Step m s') : Sound s' := by
  -- a call of one of the functions is entered in user mode, and records nothing
  have enter : ∀ u q, s.pc u = .user → q.holds = none → q.queued = none →
      q.Recorded s.waitList (s.found u) (s.unblocked u) → (∀ cv mp, q ≠ .waitInsert cv mp) →
      Sound (s.goto u q) := by
    intro u q huser hq hqueued hrecorded hinsert
    exact h.enter (by rw [huser]; rfl) (by rw [huser]; rfl) hq hqueued hrecorded hinsert
  cases m with
  | go u => exact h.go hs
  | wait u cv mp =>
      simp only [Step, CvState.step] at hs
      split at hs
      · next huser =>
          obtain rfl := Option.some.inj hs
          exact enter u _ huser rfl rfl trivial (by nofun)
      · cases hs
  | signal u cv =>
      simp only [Step, CvState.step] at hs
      split at hs
      · next huser =>
          obtain rfl := Option.some.inj hs
          exact enter u _ huser rfl rfl trivial (by nofun)
      · cases hs
  | broadcast u cv =>
      simp only [Step, CvState.step] at hs
      split at hs
      · next huser =>
          obtain rfl := Option.some.inj hs
          exact enter u _ huser rfl rfl trivial (by nofun)
      · cases hs
  | lock u mp =>
      simp only [Step, CvState.step] at hs
      split at hs
      · exact (h.mutexLock hs).1
      · cases hs
  | unlock u mp =>
      simp only [Step, CvState.step] at hs
      split at hs
      · obtain rfl := Option.some.inj hs
        exact h.mutexUnlock mp
      · cases hs

/-! ## What a statement does to the other threads -/

/-- The thread `u` wakes nobody. -/
structure Quiet (s : CvState ι κ μ) (u : ι) (s' : CvState ι κ μ) : Prop where
  /-- The other threads stay where they are. -/
  pc : ∀ t, t ≠ u → s'.pc t = s.pc t
  /-- Nothing is recorded, or the record is started afresh. -/
  unblocked : s'.unblocked = s.unblocked ∨ s'.unblocked = Function.update s.unblocked u []

omit [DecidableEq κ] [DecidableEq μ] in
theorem quiet_goto {s1 : CvState ι κ μ} (hpc : s1.pc = s.pc) (hu : s1.unblocked = s.unblocked) :
    Quiet s u (s1.goto u q) :=
  ⟨fun t ht => by rw [goto_pc_of_ne s1 q ht, hpc], Or.inl hu⟩

omit [DecidableEq μ] in
theorem quiet_takeSpin {cv : κ} (hs : s.takeSpin u cv q = some s') : Quiet s u s' := by
  unfold CvState.takeSpin at hs
  split_ifs at hs
  obtain rfl := Option.some.inj hs
  exact ⟨fun t ht => goto_pc_of_ne _ q ht, Or.inr rfl⟩

omit [DecidableEq μ] in
theorem quiet_deleteFirst {cv : κ} {found : ι → CvPc ι κ μ} {empty : CvPc ι κ μ} :
    Quiet s u (s.deleteFirst u cv found empty) := by
  unfold CvState.deleteFirst
  split <;> exact quiet_goto rfl rfl

omit [DecidableEq ι] [DecidableEq κ] in
theorem mutexUnlock_pc (s : CvState ι κ μ) (mp : μ) : (s.mutexUnlock mp).pc = s.pc := by
  unfold CvState.mutexUnlock
  split_ifs <;> rfl

omit [DecidableEq ι] [DecidableEq κ] in
theorem mutexUnlock_unblocked (s : CvState ι κ μ) (mp : μ) :
    (s.mutexUnlock mp).unblocked = s.unblocked := by
  unfold CvState.mutexUnlock
  split_ifs <;> rfl

omit [DecidableEq ι] [DecidableEq κ] in
theorem mutexLock_same {mp : μ} (hs : s.mutexLock mp = some s') :
    s'.pc = s.pc ∧ s'.unblocked = s.unblocked ∧ s'.dequeued = s.dequeued := by
  unfold CvState.mutexLock at hs
  split_ifs at hs
  · obtain rfl := Option.some.inj hs
    exact ⟨rfl, rfl, rfl⟩
  · obtain rfl := Option.some.inj hs
    exact ⟨rfl, rfl, rfl⟩

/-- The thread `u` wakes the thread `x` that it has dequeued. -/
structure Awakes (s : CvState ι κ μ) (u x : ι) (s' : CvState ι κ μ) : Prop where
  /-- `u` is about to wake `x`. -/
  target : (s.pc u).target = some x
  /-- `x` is in `deschedule` before, and takes its mutex again after. -/
  asleep : ∃ cv mp, s.pc x = .asleep cv mp ∧ s'.pc x = .waitRelock cv mp
  /-- The other threads stay where they are. -/
  pc : ∀ t, t ≠ u → t ≠ x → s'.pc t = s.pc t
  /-- The wake-up is recorded. -/
  unblocked : s'.unblocked = Function.update s.unblocked u (s.unblocked u ++ [x])

omit [DecidableEq κ] [DecidableEq μ] in
theorem makeRunnable_cases {x : ι} {done again : CvPc ι κ μ} (target : (s.pc u).target = some x) :
    Quiet s u (s.makeRunnable u x done again) ∨ Awakes s u x (s.makeRunnable u x done again) := by
  unfold CvState.makeRunnable
  split
  · next cv mp hx =>
      have hxu : x ≠ u := by
        rintro rfl
        rw [hx] at target
        cases target
      refine Or.inr ⟨target, ⟨cv, mp, hx, ?_⟩, fun t htu htx => ?_, rfl⟩
      · rw [goto_pc_of_ne _ done hxu]
        exact goto_pc_self s x _
      · rw [goto_pc_of_ne _ done htu]
        exact goto_pc_of_ne s _ htx
  · exact Or.inl (quiet_goto rfl rfl)

/-- **A statement wakes nobody but the thread that it names.** -/
theorem go_cases (hs : s.go u = some s') : Quiet s u s' ∨ ∃ x, Awakes s u x s' := by
  unfold CvState.go at hs
  cases hpc : s.pc u with
  | user => simp [hpc] at hs
  | asleep cv mp => simp [hpc] at hs
  | waitLock cv mp =>
      simp only [hpc] at hs
      split_ifs at hs
      obtain rfl := Option.some.inj hs
      exact Or.inl (quiet_goto rfl rfl)
  | waitUnlockMutex cv mp =>
      simp only [hpc, Option.some.injEq] at hs
      subst hs
      exact Or.inl (quiet_goto (mutexUnlock_pc s mp) (mutexUnlock_unblocked s mp))
  | waitRelock cv mp =>
      simp only [hpc] at hs
      obtain ⟨s1, hlock, rfl⟩ := Option.map_eq_some_iff.mp hs
      obtain ⟨hpc1, hunblocked, -⟩ := mutexLock_same hlock
      exact Or.inl (quiet_goto hpc1 hunblocked)
  | signalLock cv | castLock cv =>
      simp only [hpc] at hs
      exact Or.inl (quiet_takeSpin hs)
  | signalDelete cv | castDelete cv =>
      simp only [hpc, Option.some.injEq] at hs
      subst hs
      exact Or.inl quiet_deleteFirst
  | signalWake cv x | castWake cv x =>
      simp only [hpc, Option.some.injEq] at hs
      subst hs
      exact (makeRunnable_cases (by rw [hpc]; rfl)).imp id fun hwake => ⟨x, hwake⟩
  | _ =>
      simp only [hpc, Option.some.injEq] at hs
      subst hs
      exact Or.inl (quiet_goto rfl rfl)

/-- **Only a signal or broadcast dequeues a thread**, and it is the first of the list. -/
theorem go_dequeues {t : ι} (hs : s.go u = some s') (before : s.dequeued t = false)
    (after : s'.dequeued t = true) :
    ∃ cv n rest, (s.pc u = .signalDelete cv ∨ s.pc u = .castDelete cv) ∧
      s.waitList cv = n :: rest ∧ s'.waitList cv = rest ∧ n.tid = t := by
  have same : s'.dequeued ≠ s.dequeued := by
    intro heq
    rw [heq, before] at after
    cases after
  have delete : ∀ cv (found : ι → CvPc ι κ μ) empty, s.deleteFirst u cv found empty = s' →
      ∃ n rest, s.waitList cv = n :: rest ∧ s'.waitList cv = rest ∧ n.tid = t := by
    rintro cv found empty rfl
    unfold CvState.deleteFirst at same after ⊢
    split at same
    · exact absurd rfl same
    · next n rest hlist =>
        simp only [hlist] at after ⊢
        have hrest : Function.update s.waitList cv rest cv = rest := by
          rw [Function.update_self]
        refine ⟨n, rest, rfl, hrest, ?_⟩
        by_contra hne
        change Function.update s.dequeued n.tid true t = true at after
        rw [Function.update_of_ne (Ne.symm hne), before] at after
        cases after
  unfold CvState.go at hs
  cases hpc : s.pc u with
  | user => simp [hpc] at hs
  | asleep cv mp => simp [hpc] at hs
  | waitLock cv mp =>
      simp only [hpc] at hs
      split_ifs at hs
      obtain rfl := Option.some.inj hs
      exact absurd rfl same
  | waitUnlockMutex cv mp =>
      simp only [hpc, Option.some.injEq] at hs
      subst hs
      change Function.update s.dequeued u false t = true at after
      by_cases htu : t = u
      · rw [htu, Function.update_self] at after
        cases after
      · rw [Function.update_of_ne htu, before] at after
        cases after
  | waitRelock cv mp =>
      simp only [hpc] at hs
      obtain ⟨s1, hlock, rfl⟩ := Option.map_eq_some_iff.mp hs
      exact absurd (mutexLock_same hlock).2.2 same
  | signalLock cv | castLock cv =>
      simp only [hpc] at hs
      unfold CvState.takeSpin at hs
      split_ifs at hs
      obtain rfl := Option.some.inj hs
      exact absurd rfl same
  | signalDelete cv =>
      simp only [hpc, Option.some.injEq] at hs
      obtain ⟨n, rest, h⟩ := delete cv _ _ hs
      exact ⟨cv, n, rest, Or.inl rfl, h⟩
  | castDelete cv =>
      simp only [hpc, Option.some.injEq] at hs
      obtain ⟨n, rest, h⟩ := delete cv _ _ hs
      exact ⟨cv, n, rest, Or.inr rfl, h⟩
  | signalWake cv x | castWake cv x =>
      simp only [hpc, Option.some.injEq] at hs
      subst hs
      unfold CvState.makeRunnable at same
      split at same <;> exact absurd rfl same
  | _ =>
      simp only [hpc, Option.some.injEq] at hs
      subst hs
      exact absurd rfl same

/-! ## The contract -/

/-- The thread holds the lock of `cv` at the end of a `cond_signal`. -/
def SignalEnds (s : CvState ι κ μ) (u : ι) (cv : κ) : Prop := s.pc u = .signalUnlock cv

/-- The thread holds the lock of `cv` at the end of a `cond_broadcast`. -/
def BroadcastEnds (s : CvState ι κ μ) (u : ι) (cv : κ) : Prop := s.pc u = .castUnlock cv

/-- The thread is about to take the lock of `cv` in a signal or a broadcast. -/
def Takes (s : CvState ι κ μ) (u : ι) (cv : κ) : Prop :=
  s.pc u = .signalLock cv ∨ s.pc u = .castLock cv

/-- **Wake-ups are neither lost nor invented** by the step `m` from `s` to `s'`. -/
structure WakeUps (s : CvState ι κ μ) (m : CvMove ι κ μ) (s' : CvState ι κ μ) : Prop where
  /-- A thread that takes the lock has found the list as it is, and unblocked nobody yet. -/
  takes : ∀ u cv, m = .go u → s.Takes u cv → s'.found u = s.waitList cv ∧ s'.unblocked u = []
  /-- The record grows by a thread exactly when that thread comes out of `deschedule`. -/
  records : ∀ u x, s'.unblocked u = s.unblocked u ++ [x] →
    ∃ cv mp, s.pc x = .asleep cv mp ∧ s'.pc x = .waitRelock cv mp
  /-- A signal that completes has unblocked nobody when it found the list empty, and otherwise
  exactly the thread that waited longest. -/
  signal : ∀ u cv, m = .go u → s.SignalEnds u cv →
    (s'.found u = [] → s'.unblocked u = []) ∧
    ∀ n rest, s'.found u = n :: rest →
      s'.unblocked u = [n.tid] ∧ ∀ n' ∈ rest, n.ticket < n'.ticket
  /-- A broadcast that completes has unblocked exactly the threads of the list that it found. -/
  broadcast : ∀ u cv, m = .go u → s.BroadcastEnds u cv →
    s'.unblocked u = (s'.found u).map CvNode.tid
  /-- Only a dequeued thread leaves `deschedule`, unblocked by a signal or broadcast. -/
  leaves : ∀ x cv mp, s.pc x = .asleep cv mp → s'.pc x ≠ .asleep cv mp →
    s.dequeued x = true ∧ ∃ u, m = .go u ∧ (s.pc u).holds = some cv ∧
      s'.unblocked u = s.unblocked u ++ [x]
  /-- Only a signal or broadcast dequeues, and it is the thread that it takes off the list. -/
  dequeues : ∀ t, s.dequeued t = false → s'.dequeued t = true →
    ∃ u cv n rest, m = .go u ∧ (s.pc u = .signalDelete cv ∨ s.pc u = .castDelete cv) ∧
      s.waitList cv = n :: rest ∧ s'.waitList cv = rest ∧ n.tid = t
  /-- Who has released its mutex and has not been dequeued is in the list when the lock is taken. -/
  listed : ∀ u cv, m = .go u → s.Takes u cv → s.spin cv = false →
    ∀ t, (s.pc t).released = some cv → s.dequeued t = false →
      t ∈ (s.waitList cv).map CvNode.tid

/-- A thread in user mode that enters a function, or a mutex, wakes nobody. -/
theorem step_cases {m : CvMove ι κ μ} (hs : s.Step m s') :
    (∃ u, m = .go u ∧ s.go u = some s') ∨ (∀ u, m ≠ .go u) ∧ s'.unblocked = s.unblocked ∧
      s'.dequeued = s.dequeued ∧ ∀ t, s.pc t = s'.pc t ∨ s.pc t = .user := by
  have enter : ∀ u q, s.pc u = .user → ∀ t, s.pc t = (s.goto u q).pc t ∨ s.pc t = .user := by
    intro u q huser t
    by_cases htu : t = u
    · exact Or.inr (htu ▸ huser)
    · exact Or.inl (goto_pc_of_ne s q htu).symm
  cases m with
  | go u => exact Or.inl ⟨u, rfl, hs⟩
  | wait u cv mp =>
      simp only [Step, CvState.step] at hs
      split at hs
      · next huser =>
          obtain rfl := Option.some.inj hs
          exact Or.inr ⟨by nofun, rfl, rfl, enter u _ huser⟩
      · cases hs
  | signal u cv =>
      simp only [Step, CvState.step] at hs
      split at hs
      · next huser =>
          obtain rfl := Option.some.inj hs
          exact Or.inr ⟨by nofun, rfl, rfl, enter u _ huser⟩
      · cases hs
  | broadcast u cv =>
      simp only [Step, CvState.step] at hs
      split at hs
      · next huser =>
          obtain rfl := Option.some.inj hs
          exact Or.inr ⟨by nofun, rfl, rfl, enter u _ huser⟩
      · cases hs
  | lock u mp =>
      simp only [Step, CvState.step] at hs
      split at hs
      · obtain ⟨hpc, hunblocked, hdequeued⟩ := mutexLock_same hs
        exact Or.inr ⟨by nofun, hunblocked, hdequeued, fun t => Or.inl (by rw [hpc])⟩
      · cases hs
  | unlock u mp =>
      simp only [Step, CvState.step] at hs
      split at hs
      · obtain rfl := Option.some.inj hs
        have hdequeued : (s.mutexUnlock mp).dequeued = s.dequeued := by
          unfold CvState.mutexUnlock
          split_ifs <;> rfl
        exact Or.inr ⟨by nofun, mutexUnlock_unblocked s mp, hdequeued,
          fun t => Or.inl (by rw [mutexUnlock_pc])⟩
      · cases hs

/-- **Every step from a sound state keeps the contract.** -/
theorem Sound.wakeUps {m : CvMove ι κ μ} (h : Sound s) (hs : s.Step m s') : WakeUps s m s' := by
  have grow : ∀ (l : List ι) x, l ≠ l ++ [x] := fun l x heq => by simp at heq
  have go : ∀ u, m = .go u → s.go u = some s' := by
    rintro u rfl
    exact hs
  refine ⟨fun u cv hm htakes => ?_, fun u x hgrow => ?_, fun u cv hm hends => ?_,
    fun u cv hm hends => ?_, fun x cv mp hx hleft => ?_, fun t before after => ?_,
    fun u cv hm _ hspin t ht hd => ?_⟩
  · have hgo := go u hm
    have hfound : ∀ q, s.takeSpin u cv q = some s' →
        s'.found u = s.waitList cv ∧ s'.unblocked u = [] := by
      intro q hq
      unfold CvState.takeSpin at hq
      split_ifs at hq
      obtain rfl := Option.some.inj hq
      exact ⟨Function.update_self u _ _, Function.update_self u _ _⟩
    rcases htakes with hpc | hpc
    · simp only [CvState.go, hpc] at hgo
      exact hfound _ hgo
    · simp only [CvState.go, hpc] at hgo
      exact hfound _ hgo
  · rcases step_cases hs with ⟨v, -, hgo⟩ | ⟨-, hunblocked, -⟩
    · rcases go_cases hgo with hquiet | ⟨y, hwake⟩
      · rcases hquiet.unblocked with hsame | hnew
        · exact absurd (congrFun hsame u ▸ hgrow) (grow _ x)
        · rw [hnew] at hgrow
          by_cases huv : u = v
          · rw [huv, Function.update_self] at hgrow
            simp at hgrow
          · rw [Function.update_of_ne huv] at hgrow
            exact absurd hgrow (grow _ x)
      · rw [hwake.unblocked] at hgrow
        by_cases huv : u = v
        · rw [huv, Function.update_self] at hgrow
          have hyx : y = x := by simpa using hgrow
          exact hyx ▸ hwake.asleep
        · rw [Function.update_of_ne huv] at hgrow
          exact absurd hgrow (grow _ x)
    · exact absurd (congrFun hunblocked u ▸ hgrow) (grow _ x)
  · have hgo := go u hm
    simp only [CvState.go, show s.pc u = .signalUnlock cv from hends, Option.some.injEq] at hgo
    subst hgo
    have hrec := h.recorded u
    rw [show s.pc u = .signalUnlock cv from hends] at hrec
    have hsorted := h.foundSorted u
    change s.unblocked u = ((s.found u).take 1).map CvNode.tid at hrec
    refine ⟨fun hnil => ?_, fun n rest hcons => ?_⟩
    · change s.found u = [] at hnil
      show s.unblocked u = []
      rw [hrec, hnil]
      rfl
    · change s.found u = n :: rest at hcons
      rw [hcons] at hrec hsorted
      exact ⟨hrec, (List.pairwise_cons.mp hsorted).1⟩
  · have hgo := go u hm
    simp only [CvState.go, show s.pc u = .castUnlock cv from hends, Option.some.injEq] at hgo
    subst hgo
    have hrec := h.recorded u
    rw [show s.pc u = .castUnlock cv from hends] at hrec
    exact hrec
  · rcases step_cases hs with ⟨u, hm, hgo⟩ | ⟨-, -, -, hpc⟩
    · have hxu : x ≠ u := by
        rintro rfl
        simp [CvState.go, hx] at hgo
      rcases go_cases hgo with hquiet | ⟨y, hwake⟩
      · exact absurd ((hquiet.pc x hxu).trans hx) hleft
      · have hxy : x = y := by
          by_contra hne
          exact hleft ((hwake.pc x hxu hne).trans hx)
        obtain ⟨hqueued, hdequeued⟩ := h.woken u y hwake.target
        rw [← hxy, hx] at hqueued
        refine ⟨hxy ▸ hdequeued, u, hm, hqueued.symm, ?_⟩
        rw [hwake.unblocked, Function.update_self, hxy]
    · rcases hpc x with hsame | huser
      · exact absurd (hsame.symm.trans hx) hleft
      · rw [hx] at huser
        cases huser
  · rcases step_cases hs with ⟨u, hm, hgo⟩ | ⟨-, -, hdequeued, -⟩
    · obtain ⟨cv, n, rest, hdelete⟩ := go_dequeues hgo before after
      exact ⟨u, cv, n, rest, hm, hdelete⟩
    · rw [hdequeued, before] at after
      cases after
  · -- the lock is free, so the thread is past its insertion
    have hqueued : (s.pc t).queued = some cv := by
      cases hpc : s.pc t with
      | waitInsert cv' mp =>
          rw [hpc] at ht
          have hheld := h.taken t cv (by rw [hpc]; exact ht)
          rw [hspin] at hheld
          cases hheld
      | waitUnlock | waitDeschedule | asleep =>
          rw [hpc] at ht
          exact ht
      | _ =>
          rw [hpc] at ht
          cases ht
    exact h.waiting t cv hqueued hd

/-- **Condition variables neither lose nor invent wake-ups**: for any threads, condition variables
and mutexes, and any interleaving of the statements, every step keeps the contract. -/
theorem wakeUps_kept {available : κ → Bool} {usable locked : μ → Bool} {moves : List (CvMove ι κ μ)}
    {m : CvMove ι κ μ} (run : Run Step (start available usable locked) moves s)
    (hs : s.Step m s') : WakeUps s m s' := by
  have hsound : Sound s :=
    run.invariant (sound_start available usable locked) fun _ _ _ h hstep => h.step hstep
  exact hsound.wakeUps hs

/-- Thread 0 waits, thread 1 signals, and the signal completes. -/
theorem wakeUps_kept_signalled :
    ∃ s s' : CvState Nat Unit Unit, s.Step (.go 1) s' ∧ s'.unblocked 1 = [0] ∧
      WakeUps s (.go 1) s' := by
  have hruns : ∃ s, runList step (start (fun _ => true) (fun _ => true) fun _ => false)
      [.lock 0 (), .wait 0 () (), .go 0, .go 0, .go 0, .go 0, .go 0, .go 0, .signal 1 (), .go 1,
        .go 1, .go 1, .go 1] = some s ∧
      ∃ s' : CvState Nat Unit Unit, s.Step (.go 1) s' ∧ s'.unblocked 1 = [0] :=
    ⟨_, rfl, _, rfl, rfl⟩
  obtain ⟨s, hrun, s', hstep, hwoken⟩ := hruns
  exact ⟨s, s', hstep, hwoken, wakeUps_kept (Run.of_runList hrun) hstep⟩

end CvState

end Pebbles
