import Pebbles.Libthread.CondVar

/-! # Wait lists and wake-ups

A thread holds `cv -> lock` from before it releases its mutex until it is in the wait list, and a
signaller holds the lock while it takes a node off the list and until the thread of the node is
awake. So the wait list is what the signaller found, less the threads it has taken off, and every
thread between its release and its wake-up is in the list or is the one that the signaller is
waking. -/

namespace Pebbles

open Transition

variable {ι κ μ : Type*}

/-! ## What a program counter says -/

namespace CvPc

/-- The condition variable whose lock the thread holds. -/
def holds : CvPc ι κ μ → Option κ
  | waitUnlockMutex cv _ | waitInsert cv _ | waitUnlock cv _ | signalDelete cv | signalWake cv _
  | signalYield cv _ | signalUnlock cv | castLength cv | castDelete cv | castWake cv _
  | castYield cv _ | castUnlock cv => some cv
  | _ => none

/-- The condition variable whose wait list the thread has been put into, up to the end of
`deschedule`. -/
def queued : CvPc ι κ μ → Option κ
  | waitUnlock cv _ | waitDeschedule cv _ | asleep cv _ => some cv
  | _ => none

/-- The condition variable in whose `cond_wait` the thread has released its mutex and has not come
out of `deschedule`. -/
def released : CvPc ι κ μ → Option κ
  | waitInsert cv _ | waitUnlock cv _ | waitDeschedule cv _ | asleep cv _ => some cv
  | _ => none

/-- The thread that is being woken. -/
def target : CvPc ι κ μ → Option ι
  | signalWake _ x | signalYield _ x | castWake _ x | castYield _ x => some x
  | _ => none

/-- **What a signaller has done so far**, from the list it found. -/
def Recorded (waitList : κ → List (CvNode ι)) (found : List (CvNode ι)) (unblocked : List ι) :
    CvPc ι κ μ → Prop
  | signalDelete cv => found = waitList cv ∧ unblocked = []
  | signalWake cv x | signalYield cv x =>
      ∃ n, n.tid = x ∧ found = n :: waitList cv ∧ unblocked = []
  | signalUnlock _ => unblocked = (found.take 1).map CvNode.tid
  | castLength cv | castDelete cv =>
      found.map CvNode.tid = unblocked ++ (waitList cv).map CvNode.tid
  | castWake cv x | castYield cv x =>
      found.map CvNode.tid = unblocked ++ x :: (waitList cv).map CvNode.tid
  | castUnlock _ => unblocked = found.map CvNode.tid
  | _ => True

/-- A record speaks about the list of the lock that is held. -/
theorem Recorded.congr {p : CvPc ι κ μ} {waitList waitList' : κ → List (CvNode ι)}
    {found : List (CvNode ι)} {unblocked : List ι} (h : p.Recorded waitList found unblocked)
    (same : ∀ cv, p.holds = some cv → waitList' cv = waitList cv) :
    p.Recorded waitList' found unblocked := by
  cases p with
  | signalDelete cv | signalWake cv x | signalYield cv x | castLength cv | castDelete cv
  | castWake cv x | castYield cv x =>
      simp only [Recorded, same cv rfl]
      exact h
  | _ => exact h

/-- A queued thread has released its mutex. -/
theorem released_of_queued {p : CvPc ι κ μ} {cv : κ} (h : p.queued = some cv) :
    p.released = some cv := by
  cases p with
  | waitUnlock | waitDeschedule | asleep => exact h
  | _ => cases h

/-- A thread that is being woken is woken by a holder. -/
theorem holds_of_target {p : CvPc ι κ μ} {x : ι} (h : p.target = some x) :
    ∃ cv, p.holds = some cv := by
  cases p with
  | signalWake cv | signalYield cv | castWake cv | castYield cv => exact ⟨cv, rfl⟩
  | _ => cases h

end CvPc

namespace CvState

/-! ## The locks -/

/-- **The locks are held by one thread each.** -/
structure Locks (s : CvState ι κ μ) : Prop where
  /-- A held lock is taken. -/
  taken : ∀ u cv, (s.pc u).holds = some cv → s.spin cv = true
  /-- By one thread. -/
  one : ∀ u v cv, (s.pc u).holds = some cv → (s.pc v).holds = some cv → u = v

/-! ## The lists -/

/-- **The wait lists**: who is in them, and what the signallers know. -/
structure Waits (s : CvState ι κ μ) : Prop where
  /-- The thread of a node is in `cond_wait` and has not been dequeued. -/
  listed : ∀ cv, ∀ n ∈ s.waitList cv,
    (s.pc n.tid).queued = some cv ∧ s.dequeued n.tid = false ∧ n.ticket < s.made
  /-- A queued thread that has not been dequeued is listed. -/
  waiting : ∀ t cv, (s.pc t).queued = some cv → s.dequeued t = false →
    t ∈ (s.waitList cv).map CvNode.tid
  /-- A thread about to be inserted has not been dequeued. -/
  fresh : ∀ t cv mp, s.pc t = .waitInsert cv mp → s.dequeued t = false
  /-- A thread being woken is queued on the same condition variable and was dequeued. -/
  woken : ∀ u x, (s.pc u).target = some x →
    (s.pc x).queued = (s.pc u).holds ∧ s.dequeued x = true
  /-- No thread is twice in a list. -/
  nodup : ∀ cv, ((s.waitList cv).map CvNode.tid).Nodup
  /-- The lists are in the order of arrival. -/
  sorted : ∀ cv, (s.waitList cv).Pairwise fun n n' => n.ticket < n'.ticket
  /-- So are the lists found by signallers. -/
  foundSorted : ∀ u, (s.found u).Pairwise fun n n' => n.ticket < n'.ticket
  /-- What the signallers have done. -/
  recorded : ∀ u, (s.pc u).Recorded s.waitList (s.found u) (s.unblocked u)

/-- The invariant. -/
structure Sound (s : CvState ι κ μ) : Prop extends Locks s, Waits s

/-- At the start. -/
theorem sound_start (available : κ → Bool) (usable locked : μ → Bool) :
    Sound (start available usable locked : CvState ι κ μ) where
  taken u cv h := by cases h
  one u v cv h := by cases h
  listed cv n h := by cases h
  waiting t cv h := by cases h
  fresh t cv mp h := by cases h
  woken u x h := by cases h
  nodup cv := List.nodup_nil
  sorted cv := List.Pairwise.nil
  foundSorted u := List.Pairwise.nil
  recorded u := trivial

/-- A queued thread is not one that is not. -/
theorem ne_of_queued {s : CvState ι κ μ} {t u : ι} {cv : κ} (ht : (s.pc t).queued = some cv)
    (hu : (s.pc u).queued = none) : t ≠ u := by
  rintro rfl
  rw [hu] at ht
  cases ht

/-- The list of a lock that another thread holds is not changed by a holder. -/
theorem Locks.recorded_of_ne [DecidableEq κ] {s : CvState ι κ μ} {u : ι} (l : Locks s) (h : Waits s)
    {cv : κ} (held : (s.pc u).holds = some cv) (list : List (CvNode ι)) {t : ι} (htu : t ≠ u) :
    (s.pc t).Recorded (Function.update s.waitList cv list) (s.found t) (s.unblocked t) := by
  apply (h.recorded t).congr
  intro cv' hcv'
  have hne : cv' ≠ cv := by
    rintro rfl
    exact htu (l.one t u cv' hcv' held)
  exact Function.update_of_ne hne list s.waitList

variable [DecidableEq ι] {s s' : CvState ι κ μ} {u : ι} {q : CvPc ι κ μ}

@[simp] theorem goto_pc_self (s : CvState ι κ μ) (u : ι) (q : CvPc ι κ μ) :
    (s.goto u q).pc u = q := by
  simp [goto]

theorem goto_pc_of_ne (s : CvState ι κ μ) {u t : ι} (q : CvPc ι κ μ) (h : t ≠ u) :
    (s.goto u q).pc t = s.pc t := by
  simp [goto, h]

/-! ## Changes of the locks -/

/-- A thread that keeps its lock. -/
theorem Locks.keep (h : Locks s) (holds : q.holds = (s.pc u).holds) : Locks (s.goto u q) := by
  have same : ∀ t, ((s.goto u q).pc t).holds = (s.pc t).holds := by
    intro t
    by_cases ht : t = u
    · rw [ht, goto_pc_self, holds]
    · rw [goto_pc_of_ne s q ht]
  refine ⟨fun t cv ht => h.taken t cv (same t ▸ ht), fun t v cv ht hv => ?_⟩
  exact h.one t v cv (same t ▸ ht) (same v ▸ hv)

/-- A thread that takes a free lock. -/
theorem Locks.take [DecidableEq κ] (h : Locks s) {cv : κ} (free : s.spin cv = false)
    (holds : q.holds = some cv) : Locks ((s.setSpin cv true).goto u q) := by
  have nobody : ∀ t, (s.pc t).holds ≠ some cv := by
    intro t ht
    rw [h.taken t cv ht] at free
    cases free
  constructor
  · intro t cv' ht
    by_cases hcv : cv' = cv
    · rw [hcv]
      exact Function.update_self cv true s.spin
    · show Function.update s.spin cv true cv' = true
      rw [Function.update_of_ne hcv]
      by_cases htu : t = u
      · rw [htu, goto_pc_self, holds] at ht
        exact absurd (Option.some.inj ht).symm hcv
      · rw [goto_pc_of_ne _ q htu] at ht
        exact h.taken t cv' ht
  · intro t v cv' ht hv
    by_cases htu : t = u <;> by_cases hvu : v = u
    · rw [htu, hvu]
    · rw [htu, goto_pc_self, holds] at ht
      rw [goto_pc_of_ne _ q hvu] at hv
      rw [← Option.some.inj ht] at hv
      exact absurd hv (nobody v)
    · rw [hvu, goto_pc_self, holds] at hv
      rw [goto_pc_of_ne _ q htu] at ht
      rw [← Option.some.inj hv] at ht
      exact absurd ht (nobody t)
    · rw [goto_pc_of_ne _ q htu] at ht
      rw [goto_pc_of_ne _ q hvu] at hv
      exact h.one t v cv' ht hv

/-- A thread that drops its lock. -/
theorem Locks.drop [DecidableEq κ] (h : Locks s) {cv : κ} (held : (s.pc u).holds = some cv)
    (holds : q.holds = none) : Locks ((s.setSpin cv false).goto u q) := by
  have other : ∀ t cv', (((s.setSpin cv false).goto u q).pc t).holds = some cv' →
      t ≠ u ∧ (s.pc t).holds = some cv' := by
    intro t cv' ht
    by_cases htu : t = u
    · rw [htu, goto_pc_self, holds] at ht
      cases ht
    · rw [goto_pc_of_ne _ q htu] at ht
      exact ⟨htu, ht⟩
  constructor
  · intro t cv' ht
    obtain ⟨htu, hbefore⟩ := other t cv' ht
    have hcv : cv' ≠ cv := by
      rintro rfl
      exact htu (h.one t u cv' hbefore held)
    show Function.update s.spin cv false cv' = true
    rw [Function.update_of_ne hcv]
    exact h.taken t cv' hbefore
  · intro t v cv' ht hv
    exact h.one t v cv' (other t cv' ht).2 (other v cv' hv).2

/-! ## Changes of the lists -/

/-- **A statement that leaves the lists alone**, and takes its thread neither into a wait list nor
out of one. -/
theorem Waits.keep (h : Waits s) (pc : ∀ t, t ≠ u → s'.pc t = s.pc t)
    (waitList : s'.waitList = s.waitList) (made : s'.made = s.made)
    (dequeued : ∀ t, t ≠ u ∨ (s.pc u).released ≠ none → s'.dequeued t = s.dequeued t)
    (found : ∀ t, t ≠ u → s'.found t = s.found t)
    (unblocked : ∀ t, t ≠ u → s'.unblocked t = s.unblocked t)
    (queued : (s'.pc u).queued = (s.pc u).queued)
    (fresh : ∀ cv mp, s'.pc u = .waitInsert cv mp → s'.dequeued u = false)
    (target : ∀ x, (s'.pc u).target = some x →
      (s.pc u).target = some x ∧ (s'.pc u).holds = (s.pc u).holds)
    (foundSorted : (s'.found u).Pairwise fun n n' => n.ticket < n'.ticket)
    (recorded : (s'.pc u).Recorded s.waitList (s'.found u) (s'.unblocked u)) : Waits s' := by
  have hqueued : ∀ t, (s'.pc t).queued = (s.pc t).queued := by
    intro t
    by_cases ht : t = u
    · rw [ht, queued]
    · rw [pc t ht]
  have hdequeued : ∀ t cv, (s.pc t).queued = some cv → s'.dequeued t = s.dequeued t := by
    intro t cv ht
    apply dequeued
    by_cases htu : t = u
    · refine Or.inr fun hnone => ?_
      rw [htu] at ht
      rw [CvPc.released_of_queued ht] at hnone
      cases hnone
    · exact Or.inl htu
  refine ⟨fun cv n hn => ?_, fun t cv ht hd => ?_, fun t cv mp ht => ?_, fun v x hv => ?_,
    fun cv => ?_, fun cv => ?_, fun t => ?_, fun t => ?_⟩
  · rw [waitList] at hn
    obtain ⟨hq, hd, hlt⟩ := h.listed cv n hn
    rw [hqueued, hdequeued _ cv hq, made]
    exact ⟨hq, hd, hlt⟩
  · rw [hqueued] at ht
    rw [hdequeued t cv ht] at hd
    rw [waitList]
    exact h.waiting t cv ht hd
  · by_cases htu : t = u
    · rw [htu] at ht ⊢
      exact fresh cv mp ht
    · rw [pc t htu] at ht
      rw [dequeued t (Or.inl htu)]
      exact h.fresh t cv mp ht
  · -- the holder of `x` is the same as before
    have hbefore : (s.pc v).target = some x ∧ (s'.pc v).holds = (s.pc v).holds := by
      by_cases hvu : v = u
      · rw [hvu] at hv ⊢
        exact target x hv
      · rw [pc v hvu] at hv ⊢
        exact ⟨hv, rfl⟩
    obtain ⟨hx, hd⟩ := h.woken v x hbefore.1
    obtain ⟨cv, hcv⟩ := CvPc.holds_of_target hbefore.1
    rw [hqueued, hbefore.2, hdequeued x cv (hx.trans hcv)]
    exact ⟨hx, hd⟩
  · rw [waitList]
    exact h.nodup cv
  · rw [waitList]
    exact h.sorted cv
  · by_cases htu : t = u
    · rw [htu]
      exact foundSorted
    · rw [found t htu]
      exact h.foundSorted t
  · rw [waitList]
    by_cases htu : t = u
    · rw [htu]
      exact recorded
    · rw [pc t htu, found t htu, unblocked t htu]
      exact h.recorded t

/-- **The insertion** of a waiting thread. -/
theorem Waits.insert [DecidableEq κ] (h : Waits s) (l : Locks s) {cv : κ} {mp : μ}
    (pc : s.pc u = .waitInsert cv mp) : Waits ((s.insert u cv).goto u (.waitUnlock cv mp)) := by
  have hqueued : (s.pc u).queued = none := by rw [pc]; rfl
  have hheld : (s.pc u).holds = some cv := by rw [pc]; rfl
  have hout : u ∉ (s.waitList cv).map CvNode.tid := by
    intro hmem
    obtain ⟨n, hn, htid⟩ := List.mem_map.mp hmem
    exact ne_of_queued (h.listed cv n hn).1 hqueued htid
  have hpc : ∀ t, t ≠ u → (((s.insert u cv).goto u (.waitUnlock cv mp)).pc t) = s.pc t :=
    fun t ht => goto_pc_of_ne _ _ ht
  have hlist : ∀ cv', ((s.insert u cv).goto u (.waitUnlock cv mp)).waitList cv' =
      if cv' = cv then s.waitList cv ++ [⟨u, s.made⟩] else s.waitList cv' := by
    intro cv'
    show Function.update s.waitList cv _ cv' = _
    split_ifs with hcv
    · rw [hcv, Function.update_self]
    · rw [Function.update_of_ne hcv]
  refine ⟨fun cv' n hn => ?_, fun t cv' ht hd => ?_, fun t cv' mp' ht => ?_, fun v x hv => ?_,
    fun cv' => ?_, fun cv' => ?_, h.foundSorted, fun t => ?_⟩
  · have hold : ∀ m ∈ s.waitList cv', (((s.insert u cv).goto u (.waitUnlock cv mp)).pc m.tid).queued
        = some cv' ∧ s.dequeued m.tid = false ∧ m.ticket < s.made + 1 := by
      intro m hm
      obtain ⟨hq, hd, hlt⟩ := h.listed cv' m hm
      rw [hpc _ (ne_of_queued hq hqueued)]
      exact ⟨hq, hd, Nat.lt_succ_of_lt hlt⟩
    rw [hlist] at hn
    split_ifs at hn with hcv
    · subst hcv
      rcases List.mem_append.mp hn with hmem | hmem
      · exact hold n hmem
      · rw [List.mem_singleton.mp hmem]
        refine ⟨?_, h.fresh u _ mp pc, Nat.lt_succ_self _⟩
        rw [goto_pc_self]
        rfl
    · exact hold n hn
  · rw [hlist]
    by_cases htu : t = u
    · rw [htu, goto_pc_self] at ht
      rw [if_pos (Option.some.inj ht).symm, htu, List.map_append]
      exact List.mem_append_right _ List.mem_cons_self
    · rw [hpc t htu] at ht
      have hmem := h.waiting t cv' ht hd
      split_ifs with hcv
      · rw [List.map_append, ← hcv]
        exact List.mem_append_left _ hmem
      · exact hmem
  · by_cases htu : t = u
    · rw [htu, goto_pc_self] at ht
      cases ht
    · rw [hpc t htu] at ht
      exact h.fresh t cv' mp' ht
  · by_cases hvu : v = u
    · rw [hvu, goto_pc_self] at hv
      cases hv
    · rw [hpc v hvu] at hv ⊢
      obtain ⟨hx, hd⟩ := h.woken v x hv
      obtain ⟨cv', hcv'⟩ := CvPc.holds_of_target hv
      rw [hpc x (ne_of_queued (hx.trans hcv') hqueued)]
      exact ⟨hx, hd⟩
  · rw [hlist]
    split_ifs with hcv
    · rw [List.map_append]
      refine List.nodup_append.mpr ⟨h.nodup cv, List.nodup_singleton u, fun a ha b hb he => ?_⟩
      have hb' : b = u := by simpa using hb
      rw [he, hb'] at ha
      exact hout ha
    · exact h.nodup cv'
  · rw [hlist]
    split_ifs with hcv
    · refine List.pairwise_append.mpr ⟨h.sorted cv, List.pairwise_singleton _ _, ?_⟩
      intro n hn n' hn'
      rw [List.mem_singleton.mp hn']
      exact (h.listed cv n hn).2.2
    · exact h.sorted cv'
  · by_cases htu : t = u
    · rw [htu, goto_pc_self]
      trivial
    · rw [hpc t htu]
      exact l.recorded_of_ne h hheld _ htu

/-- **A deletion** by a signaller, which goes on to wake the thread. -/
theorem Waits.dequeue [DecidableEq κ] (h : Waits s) (l : Locks s) {cv : κ} {n : CvNode ι}
    {rest : List (CvNode ι)} (list : s.waitList cv = n :: rest) (held : (s.pc u).holds = some cv)
    (unqueued : (s.pc u).queued = none) (holds : q.holds = some cv)
    (target : q.target = some n.tid)
    (recorded : q.Recorded (Function.update s.waitList cv rest) (s.found u) (s.unblocked u)) :
    Waits ((s.takeOff cv n rest).goto u q) := by
  have hmem : n ∈ s.waitList cv := by
    rw [list]
    exact List.mem_cons_self
  obtain ⟨hnq, -, -⟩ := h.listed cv n hmem
  have hnodup := h.nodup cv
  have hsorted := h.sorted cv
  rw [list] at hnodup hsorted
  obtain ⟨hout, hnodup'⟩ := List.nodup_cons.mp hnodup
  have hqqueued : q.queued = none := by
    cases q <;> first | rfl | cases target
  have hpc : ∀ t, t ≠ u → ((s.takeOff cv n rest).goto u q).pc t = s.pc t :=
    fun t ht => goto_pc_of_ne _ _ ht
  refine ⟨fun cv' m hm => ?_, fun t cv' ht hd => ?_, fun t cv' mp ht => ?_, fun v x hv => ?_,
    fun cv' => ?_, fun cv' => ?_, h.foundSorted, fun t => ?_⟩
  · -- the other nodes of this list and the nodes of other lists are those of other threads
    have hold : m ∈ s.waitList cv' ∧ m.tid ≠ n.tid := by
      change m ∈ Function.update s.waitList cv rest cv' at hm
      by_cases hcv : cv' = cv
      · subst hcv
        rw [Function.update_self] at hm
        rw [list]
        refine ⟨List.mem_cons_of_mem n hm, fun he => hout ?_⟩
        exact he ▸ List.mem_map_of_mem hm
      · rw [Function.update_of_ne hcv] at hm
        refine ⟨hm, fun he => hcv ?_⟩
        have hq := (h.listed cv' m hm).1
        rw [he, hnq] at hq
        exact (Option.some.inj hq).symm
    obtain ⟨hq, hd, hlt⟩ := h.listed cv' m hold.1
    rw [hpc _ (ne_of_queued hq unqueued)]
    refine ⟨hq, ?_, hlt⟩
    show Function.update s.dequeued n.tid true m.tid = false
    rw [Function.update_of_ne hold.2]
    exact hd
  · have htu : t ≠ u := by
      rintro rfl
      rw [goto_pc_self, hqqueued] at ht
      cases ht
    rw [hpc t htu] at ht
    have htn : t ≠ n.tid := by
      rintro rfl
      change Function.update s.dequeued n.tid true n.tid = false at hd
      rw [Function.update_self] at hd
      cases hd
    change Function.update s.dequeued n.tid true t = false at hd
    rw [Function.update_of_ne htn] at hd
    have hbefore := h.waiting t cv' ht hd
    show t ∈ (Function.update s.waitList cv rest cv').map CvNode.tid
    by_cases hcv : cv' = cv
    · subst hcv
      rw [Function.update_self]
      rw [list] at hbefore
      exact (List.mem_cons.mp hbefore).resolve_left htn
    · rw [Function.update_of_ne hcv]
      exact hbefore
  · have htu : t ≠ u := by
      rintro rfl
      rw [goto_pc_self] at ht
      rw [ht] at target
      cases target
    rw [hpc t htu] at ht
    have htn : t ≠ n.tid := by
      rintro rfl
      rw [ht] at hnq
      cases hnq
    show Function.update s.dequeued n.tid true t = false
    rw [Function.update_of_ne htn]
    exact h.fresh t cv' mp ht
  · have hflag : s.dequeued x = true ∨ x = n.tid →
        Function.update s.dequeued n.tid true x = true := by
      intro hx
      by_cases he : x = n.tid
      · rw [he, Function.update_self]
      · rw [Function.update_of_ne he]
        exact hx.resolve_right he
    by_cases hvu : v = u
    · rw [hvu, goto_pc_self] at hv ⊢
      rw [target] at hv
      rw [← Option.some.inj hv, hpc _ (ne_of_queued hnq unqueued), holds]
      exact ⟨hnq, Function.update_self _ _ _⟩
    · rw [hpc v hvu] at hv ⊢
      obtain ⟨hx, hd⟩ := h.woken v x hv
      obtain ⟨cv', hcv'⟩ := CvPc.holds_of_target hv
      rw [hpc x (ne_of_queued (hx.trans hcv') unqueued)]
      exact ⟨hx, hflag (Or.inl hd)⟩
  · show ((Function.update s.waitList cv rest cv').map CvNode.tid).Nodup
    by_cases hcv : cv' = cv
    · rw [hcv, Function.update_self]
      exact hnodup'
    · rw [Function.update_of_ne hcv]
      exact h.nodup cv'
  · show (Function.update s.waitList cv rest cv').Pairwise _
    by_cases hcv : cv' = cv
    · rw [hcv, Function.update_self]
      exact (List.pairwise_cons.mp hsorted).2
    · rw [Function.update_of_ne hcv]
      exact h.sorted cv'
  · by_cases htu : t = u
    · rw [htu, goto_pc_self]
      exact recorded
    · rw [hpc t htu]
      exact l.recorded_of_ne h held rest htu

/-- **A wake-up**: `make_runnable` succeeds on the thread `x` that `u` has dequeued. -/
theorem Waits.wake (h : Waits s) (l : Locks s) {x : ι} {cv' : κ} {mp : μ}
    (target : (s.pc u).target = some x)
    (asleep : s.pc x = .asleep cv' mp) (queued : q.queued = none) (idle : q.target = none)
    (notInsert : ∀ cv mp, q ≠ .waitInsert cv mp)
    (recorded : q.Recorded s.waitList (s.found u) (s.unblocked u ++ [x])) :
    Waits ((s.unblock u x (.waitRelock cv' mp)).goto u q) := by
  have hxq : (s.pc x).queued = some cv' := by rw [asleep]; rfl
  have huq : (s.pc u).queued = none := by
    cases hp : s.pc u <;> rw [hp] at target <;> first | rfl | cases target
  have hxu : x ≠ u := ne_of_queued hxq huq
  obtain ⟨hxheld, hxd⟩ := h.woken u x target
  have hpcu : ((s.unblock u x (.waitRelock cv' mp)).goto u q).pc u = q := goto_pc_self _ u q
  have hpcx : ((s.unblock u x (.waitRelock cv' mp)).goto u q).pc x = .waitRelock cv' mp := by
    rw [goto_pc_of_ne _ q hxu]
    exact goto_pc_self s x _
  have hpc : ∀ t, t ≠ u → t ≠ x → ((s.unblock u x (.waitRelock cv' mp)).goto u q).pc t = s.pc t := by
    intro t htu htx
    rw [goto_pc_of_ne _ q htu]
    exact goto_pc_of_ne s _ htx
  refine ⟨fun cv n hn => ?_, fun t cv ht hd => ?_, fun t cv mp ht => ?_, fun v y hv => ?_,
    h.nodup, h.sorted, h.foundSorted, fun t => ?_⟩
  · obtain ⟨hq, hd, hlt⟩ := h.listed cv n hn
    have hnx : n.tid ≠ x := by
      rintro rfl
      rw [hxd] at hd
      cases hd
    rw [hpc _ (ne_of_queued hq huq) hnx]
    exact ⟨hq, hd, hlt⟩
  · by_cases htu : t = u
    · rw [htu, hpcu, queued] at ht
      cases ht
    · by_cases htx : t = x
      · rw [htx, hpcx] at ht
        cases ht
      · rw [hpc t htu htx] at ht
        exact h.waiting t cv ht hd
  · by_cases htu : t = u
    · rw [htu, hpcu] at ht
      exact absurd ht (notInsert cv mp)
    · by_cases htx : t = x
      · rw [htx, hpcx] at ht
        cases ht
      · rw [hpc t htu htx] at ht
        exact h.fresh t cv mp ht
  · by_cases hvu : v = u
    · rw [hvu, hpcu, idle] at hv
      cases hv
    · by_cases hvx : v = x
      · rw [hvx, hpcx] at hv
        cases hv
      · rw [hpc v hvu hvx] at hv ⊢
        obtain ⟨hy, hd⟩ := h.woken v y hv
        obtain ⟨cv2, hcv2⟩ := CvPc.holds_of_target hv
        -- another thread that is being woken is woken by another holder
        have hyx : y ≠ x := by
          rintro rfl
          rw [hcv2, hxheld] at hy
          exact hvu (l.one v u cv2 hcv2 hy)
        rw [hpc y (ne_of_queued (hy.trans hcv2) huq) hyx]
        exact ⟨hy, hd⟩
  · by_cases htu : t = u
    · rw [htu, hpcu]
      show q.Recorded s.waitList (s.found u) (Function.update s.unblocked u _ u)
      rw [Function.update_self]
      exact recorded
    · have hun : ((s.unblock u x (.waitRelock cv' mp)).goto u q).unblocked t = s.unblocked t :=
        Function.update_of_ne htu _ _
      rw [hun]
      by_cases htx : t = x
      · rw [htx, hpcx]
        trivial
      · rw [hpc t htu htx]
        exact h.recorded t

/-- The locks at a wake-up. -/
theorem Locks.wake (h : Locks s) {x : ι} {cv' : κ} {mp : μ} (asleep : s.pc x = .asleep cv' mp)
    (hxu : x ≠ u) (holds : q.holds = (s.pc u).holds) :
    Locks ((s.unblock u x (.waitRelock cv' mp)).goto u q) := by
  have hx : (CvPc.waitRelock cv' mp : CvPc ι κ μ).holds = (s.pc x).holds := by
    rw [asleep]
    rfl
  have h1 : Locks (s.unblock u x (.waitRelock cv' mp)) :=
    ⟨(h.keep hx).taken, (h.keep hx).one⟩
  apply h1.keep
  rw [holds]
  exact congrArg CvPc.holds (goto_pc_of_ne s _ hxu.symm).symm

end CvState

end Pebbles
