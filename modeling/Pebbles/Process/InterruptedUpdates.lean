import Pebbles.Process.UpdateWindows

/-! # Interrupted queue updates

A timer interrupt comes between two statements of a queue update, other threads take turns, and the
interrupted thread goes on. The stage of the update stands through every turn that it survives
(`Midway.turn`), so the rest of the update finds what it relies on. -/

namespace Pebbles

open DoublyLinked Transition

/-! ## What an update survives -/

/-- The thread that the next scan of `schedule` wakes. -/
def Kernel.nextSleeper (k : Kernel) : Option Nat :=
  (k.members k.blockedQueue).find? k.sleepOver

/-- **A call of `schedule` that the update of `j` survives.** It never survives one in the middle of
the linking. Half out of the blocked queue it survives one that does not wake the thread after `j`;
if `j` was the last one, the call must not wake the thread before it and put nobody in the queue. -/
def UpdatePoint.Survives (p : UpdatePoint) (j : Nat) (k : Kernel) : Prop :=
  p.linking = false ∧ (p.halfOut = true →
    (∀ n, (k.links (threadListNode j)).next = some n → k.nextSleeper ≠ some (listEntry n)) ∧
      ((k.links (threadListNode j)).next = none →
        (k.tcb k.currentThread).state.suspended = false ∧
          ∀ y, (k.links (threadListNode j)).prev = some y → k.nextSleeper ≠ some (listEntry y)))

namespace Kernel

/-- **A turn that the update survives**: one without `schedule`, or with a call that it survives. -/
def Clear (j : Nat) (p : UpdatePoint) (k : Kernel) (t : Turn) : Prop :=
  ∀ k1 tid, k.calls t = some (k1, tid) → p.Survives j k1

variable {k k' : Kernel} {j : Nat} {fresh fresh' : Prop} {run blk run' blk' hand : List Nat}
  {p : UpdatePoint} {tid : Int} {t : Nat}

/-! ## The blocked queue after a scan -/

namespace Scanned

variable {run1 blk1 : List Nat}

/-- Whoever is not woken stays the first one. -/
theorem head_blk (h : Scanned k run blk run1 blk1) (ht : blk.head? = some t)
    (asleep : blk.find? k.sleepOver ≠ some t) : blk1.head? = some t := by
  cases h with
  | nobody => exact ht
  | sleeper w found =>
      obtain ⟨rest, rfl⟩ := List.head?_eq_some_iff.mp ht
      have hne : ¬ (t == w) = true := by
        simp only [beq_iff_eq]
        rintro rfl
        exact asleep found
      rw [List.erase_cons_tail hne]
      rfl

/-- And the last one. -/
theorem last_blk (h : Scanned k run blk run1 blk1) (nodup : blk.Nodup)
    (asleep : ∀ w, blk.find? k.sleepOver = some w → blk.getLast? ≠ some w) :
    blk1.getLast? = blk.getLast? := by
  cases h with
  | nobody => rfl
  | sleeper w found =>
      obtain ⟨as, bs, rfl⟩ := List.append_of_mem (List.mem_of_find?_eq_some found)
      have hnot : w ∉ as := fun hmem =>
        (List.disjoint_of_nodup_append nodup) hmem List.mem_cons_self
      rw [List.erase_append_right _ hnot, List.erase_cons_head]
      cases bs with
      | nil => exact absurd List.getLast?_concat (asleep w found)
      | cons b bs =>
          rw [List.getLast?_append_of_ne_nil _ (by simp), List.getLast?_append_of_ne_nil _ (by simp),
            List.getLast?_cons_cons]

end Scanned

namespace Rescheduled

variable {hand' : List Nat}

/-- The first thread stays the first one. -/
theorem head_blk {w : Nat} (h : Rescheduled k tid hand run blk t hand' run' blk')
    (hw : blk.head? = some w) (asleep : blk.find? k.sleepOver ≠ some w) : blk'.head? = some w := by
  cases h with
  | returns scan | exits scan | yields scan => exact scan.head_blk hw asleep
  | suspends scan =>
      obtain ⟨rest, hrest⟩ := List.head?_eq_some_iff.mp (scan.head_blk hw asleep)
      rw [hrest]
      rfl

/-- The last thread stays the last one when nobody is put behind it. -/
theorem last_blk (h : Rescheduled k tid hand run blk t hand' run' blk') (nodup : blk.Nodup)
    (asleep : ∀ w, blk.find? k.sleepOver = some w → blk.getLast? ≠ some w)
    (goes : (k.tcb k.currentThread).state.suspended = false) : blk'.getLast? = blk.getLast? := by
  cases h with
  | returns scan | exits scan | yields scan => exact scan.last_blk nodup asleep
  | suspends scan mem first state =>
      rw [state] at goes
      cases goes

end Rescheduled

/-! ## The stages through a call of `schedule` -/

/-- `schedule` on queues that are off along `prev` or in their lengths only. -/
theorem Loose.reschedule {s : Slack} (h : k.Loose s (k.currentThread :: hand) run blk)
    (right : s.next = none) (spares : k.Spares s blk)
    (stays : s.tight ∨ (k.tcb k.currentThread).state.suspended = false)
    (live : (k.tcb k.currentThread).state ≠ .exit) (hs : k.schedule tid = some k') :
    ∃ run' blk', Rescheduled k tid hand run blk k'.currentThread hand run' blk' ∧
      k'.Loose s (k'.currentThread :: hand) run' blk' ∧ ∀ w ∈ hand, NodeKept k k' w := by
  obtain ⟨hand', run', blk', heff, hloose, hkept⟩ := h.schedule spares stays (Or.inl right) hs
  obtain rfl := heff.hand_eq live
  rw [Slack.healed_of_none right] at hloose
  exact ⟨run', blk', heff, hloose, hkept⟩

/-- Right queues spare everything. -/
theorem spares_of_right {s : Slack} (prev : s.prev = none) (tight : s.tight) : k.Spares s blk :=
  fun _ _ => ⟨by rw [prev]; nofun, Or.inl tight⟩

/-- A ready thread is not woken. -/
theorem not_sleeper_of_ready (h : (k.tcb t).state.ready = true) :
    blk.find? k.sleepOver ≠ some t := by
  apply not_sleeper
  intro heq
  rw [heq] at h
  cases h

/-- **Half out through a call that the update survives.** -/
theorem HalfOut.reschedule (h : k.HalfOut j fresh run blk) (half : p.halfOut = true)
    (survives : p.Survives j k) (live : (k.tcb k.currentThread).state ≠ .exit)
    (hs : k.schedule tid = some k') :
    ∃ run' blk', Rescheduled k tid [j] run blk k'.currentThread [j] run' blk' ∧
      k'.HalfOut j False run' blk' ∧ NodeKept k k' j := by
  obtain ⟨after, last⟩ := survives.2 half
  have hsleeper : k.nextSleeper = blk.find? k.sleepOver := by
    rw [nextSleeper, h.loose.members_blocked]
  rw [hsleeper] at after last
  -- with nothing after `j` the last blocked thread is the one before it
  have hlast : (k.links (threadListNode j)).next = none →
      ∀ w, blk.find? k.sleepOver = some w → blk.getLast? ≠ some w := by
    intro hnone w hfind hw
    apply (last hnone).2 (threadListNode w) _ hfind
    rw [h.tail hnone, List.getLast?_map, hw]
    rfl
  have hspares : k.Spares ⟨(k.links (threadListNode j)).next, none, 0, -1,
      (k.links (threadListNode j)).next ≠ none, some (threadListNode j)⟩ blk := by
    intro w hfind
    refine ⟨fun hnext => after _ hnext hfind, ?_⟩
    by_cases hnone : (k.links (threadListNode j)).next = none
    · exact Or.inr (hlast hnone w hfind)
    · exact Or.inl hnone
  have hstays : (k.links (threadListNode j)).next ≠ none ∨
      (k.tcb k.currentThread).state.suspended = false := by
    by_cases hnone : (k.links (threadListNode j)).next = none
    · exact Or.inr (last hnone).1
    · exact Or.inl hnone
  obtain ⟨run', blk', heff, hloose, hkept⟩ := h.loose.reschedule rfl hspares hstays live hs
  have hj : k'.links (threadListNode j) = k.links (threadListNode j) :=
    hkept j (List.mem_singleton_self j)
  refine ⟨run', blk', heff, ⟨?_, fun hnone => ?_, False.elim⟩, hj⟩
  · rw [hj]
    exact hloose
  · rw [hj] at hnone ⊢
    have hnodup : blk.Nodup := by
      obtain ⟨⟨k'', -, hq⟩, -⟩ := h.loose
      exact hq.blk_nodup
    rw [h.tail hnone, List.getLast?_map, List.getLast?_map,
      heff.last_blk hnodup (hlast hnone) (last hnone).1]

/-- **A stage stands** through a call of `schedule` that the update survives. Half out, the `prev`
field that is written next may not be right any more. -/
theorem Stage.reschedule (h : k.Stage j (p.halfOut = false) run blk p) (survives : p.Survives j k)
    (live : (k.tcb k.currentThread).state ≠ .exit)
    (self : p.pending = true → (k.tcb j).state.ready = true) (hs : k.schedule tid = some k') :
    ∃ run' blk', Rescheduled k tid (p.between j) run blk k'.currentThread (p.between j) run' blk' ∧
      k'.Stage j (p.halfOut = false) run' blk' p := by
  -- the points at which the queues are right but for a length
  have counting : ∀ {s : Slack}, s.prev = none → s.next = none → s.tight →
      k.Loose s (k.currentThread :: p.between j) run blk →
      ∃ run' blk',
        Rescheduled k tid (p.between j) run blk k'.currentThread (p.between j) run' blk' ∧
          k'.Loose s (k'.currentThread :: p.between j) run' blk' := by
    intro s hprev hnext htight hloose
    obtain ⟨run', blk', heff, hloose', -⟩ := hloose.reschedule hnext (spares_of_right hprev htight)
      (Or.inl htight) live hs
    exact ⟨run', blk', heff, hloose'⟩
  have half : k.HalfOut j (p.halfOut = false) run blk → p.halfOut = true → p.between j = [j] →
      ∃ run' blk',
        Rescheduled k tid (p.between j) run blk k'.currentThread (p.between j) run' blk' ∧
          k'.HalfOut j (p.halfOut = false) run' blk' ∧ NodeKept k k' j := by
    intro hhalf hp hbetween
    obtain ⟨run', blk', heff, hhalf', hkept⟩ := hhalf.reschedule hp survives live hs
    rw [hbetween]
    refine ⟨run', blk', heff, hhalf'.weaken fun hf => ?_, hkept⟩
    rw [hp] at hf
    cases hf
  cases p with
  | testPrev | skipNext =>
      obtain ⟨hq, hj⟩ := h
      obtain ⟨run', blk', heff, hloose⟩ := counting rfl rfl trivial (loose_exact.mpr hq)
      exact ⟨run', blk', heff, loose_exact.mp hloose,
        heff.mem_blk hj (not_sleeper_of_ready (self rfl))⟩
  | testHead | moveHead =>
      obtain ⟨hq, hhead⟩ := h
      obtain ⟨run', blk', heff, hloose⟩ := counting rfl rfl trivial (loose_exact.mpr hq)
      exact ⟨run', blk', heff, loose_exact.mp hloose,
        heff.head_blk hhead (not_sleeper_of_ready (self rfl))⟩
  | testNext =>
      obtain ⟨run', blk', heff, hhalf, -⟩ := half h rfl rfl
      exact ⟨run', blk', heff, hhalf⟩
  | skipPrev =>
      obtain ⟨run', blk', heff, hhalf, hkept⟩ := half h.1 rfl rfl
      refine ⟨run', blk', heff, hhalf, ?_⟩
      rw [show k'.links (threadListNode j) = k.links (threadListNode j) from hkept]
      exact h.2
  | testTail | moveTail =>
      obtain ⟨run', blk', heff, hhalf, hkept⟩ := half h.1 rfl rfl
      refine ⟨run', blk', heff, hhalf, ?_⟩
      rw [show k'.links (threadListNode j) = k.links (threadListNode j) from hkept]
      exact h.2
  | countDown | testEmpty | linkNext | countUp | done =>
      obtain ⟨n, fine, hloose⟩ := h
      obtain rfl := fine rfl
      obtain ⟨run', blk', heff, hloose'⟩ := counting rfl rfl trivial hloose
      exact ⟨run', blk', heff, none, fun _ => rfl, hloose'⟩
  | linkPrev | clearNext | moveLast => cases survives.1
  | startList | clearLinks => exact h.elim

/-! ## The invariant through a turn -/

/-- At every stage the queues are those of a loose kernel. -/
theorem Stage.loose (h : k.Stage j fresh run blk p) :
    ∃ s, k.Loose s (k.currentThread :: p.between j) run blk := by
  cases p with
  | testPrev | skipNext | testHead | moveHead => exact ⟨_, loose_exact.mpr h.1⟩
  | testNext => exact ⟨_, HalfOut.loose h⟩
  | skipPrev | testTail | moveTail => exact ⟨_, h.1.loose⟩
  | countDown | testEmpty | linkNext | countUp | done =>
      obtain ⟨n, -, hloose⟩ := h
      exact ⟨_, hloose⟩
  | linkPrev =>
      obtain ⟨t, -, -, n, -, hloose⟩ := h
      exact ⟨_, hloose⟩
  | clearNext | moveLast =>
      obtain ⟨t, ⟨-, -, n, -, hloose⟩, -⟩ := h
      exact ⟨_, hloose⟩
  | startList | clearLinks => exact h.elim

/-- Only the queues matter. -/
theorem HalfOut.congr {k1 : Kernel} (h : k.HalfOut j fresh run blk) (links : k1.links = k.links)
    (runnable : k1.runnableQueue = k.runnableQueue) (blocked : k1.blockedQueue = k.blockedQueue)
    (current : k1.currentThread = k.currentThread) (tid : k1.nextTid = k.nextTid) :
    k1.HalfOut j fresh run blk := by
  obtain ⟨hloose, htail, hback⟩ := h
  constructor
  · rw [links, current]
    exact hloose.congr links runnable blocked tid
  · rw [links]
    exact htail
  · rw [links]
    exact hback

/-- Only the queues matter. -/
theorem Linking.congr {k1 : Kernel} (h : k.Linking j t fresh run blk) (links : k1.links = k.links)
    (runnable : k1.runnableQueue = k.runnableQueue) (blocked : k1.blockedQueue = k.blockedQueue)
    (current : k1.currentThread = k.currentThread) (tid : k1.nextTid = k.nextTid) :
    k1.Linking j t fresh run blk := by
  obtain ⟨hlast, hnext, n, fine, hloose⟩ := h
  refine ⟨hlast, by rw [links]; exact hnext, n, fine, ?_⟩
  rw [current]
  exact hloose.congr links runnable blocked tid

/-- Only the queues matter. -/
theorem Stage.congr {k1 : Kernel} (h : k.Stage j fresh run blk p) (links : k1.links = k.links)
    (runnable : k1.runnableQueue = k.runnableQueue) (blocked : k1.blockedQueue = k.blockedQueue)
    (current : k1.currentThread = k.currentThread) (tid : k1.nextTid = k.nextTid) :
    k1.Stage j fresh run blk p := by
  cases p with
  | testPrev | skipNext | testHead | moveHead =>
      refine ⟨?_, h.2⟩
      rw [current]
      exact h.1.congr links runnable blocked tid
  | testNext => exact HalfOut.congr h links runnable blocked current tid
  | skipPrev | testTail | moveTail =>
      refine ⟨h.1.congr links runnable blocked current tid, ?_⟩
      rw [links]
      exact h.2
  | countDown | testEmpty | linkNext | countUp | done =>
      obtain ⟨n, fine, hloose⟩ := h
      refine ⟨n, fine, ?_⟩
      rw [current]
      exact hloose.congr links runnable blocked tid
  | linkPrev =>
      obtain ⟨t, hlink⟩ := h
      exact ⟨t, hlink.congr links runnable blocked current tid⟩
  | clearNext | moveLast =>
      obtain ⟨t, hlink, hj⟩ := h
      refine ⟨t, hlink.congr links runnable blocked current tid, ?_⟩
      rw [links]
      exact hj
  | startList | clearLinks => exact h.elim

/-- What is fresh may be taken for stale. -/
theorem Stage.weaken (h : k.Stage j fresh run blk p) (imp : fresh' → fresh) :
    k.Stage j fresh' run blk p := by
  have link : ∀ t, k.Linking j t fresh run blk → k.Linking j t fresh' run blk := by
    rintro t ⟨hlast, hnext, n, fine, hloose⟩
    exact ⟨hlast, hnext, n, fun hf => fine (imp hf), hloose⟩
  cases p with
  | testPrev | skipNext | testHead | moveHead => exact h
  | testNext => exact HalfOut.weaken h imp
  | skipPrev | testTail | moveTail => exact ⟨h.1.weaken imp, h.2⟩
  | countDown | testEmpty | linkNext | countUp | done =>
      obtain ⟨n, fine, hloose⟩ := h
      exact ⟨n, fun hf => fine (imp hf), hloose⟩
  | linkPrev =>
      obtain ⟨t, hlink⟩ := h
      exact ⟨t, link t hlink⟩
  | clearNext | moveLast =>
      obtain ⟨t, hlink, hj⟩ := h
      exact ⟨t, link t hlink, hj⟩
  | startList | clearLinks => exact h.elim

namespace Midway

variable {all : List Nat} {c : Nat}

/-- What is fresh may be taken for stale. -/
theorem weaken (h : Midway all j fresh k run blk p) (imp : fresh' → fresh) :
    Midway all j fresh' k run blk p :=
  { h with stage := h.stage.weaken imp }

/-- The current thread is not in the runnable queue. -/
theorem current_not_mem (h : Midway all j fresh k run blk p) : k.currentThread ∉ run := by
  obtain ⟨s, ⟨k', -, hq⟩, -⟩ := h.stage.loose
  exact hq.not_mem_run List.mem_cons_self

/-- Nor is it the thread that is moved, until that one has arrived. -/
theorem current_ne (h : Midway all j fresh k run blk p) (hp : p.pending = true) :
    k.currentThread ≠ j := by
  obtain ⟨s, ⟨k', -, hq⟩, -⟩ := h.stage.loose
  have hnot := (List.nodup_cons.mp hq.nodup).1
  have hstage := h.stage
  rintro rfl
  cases p with
  | testPrev | skipNext => exact hnot (List.mem_append_right _ (List.mem_append_right _ hstage.2))
  | testHead | moveHead =>
      exact hnot (List.mem_append_right _ (List.mem_append_right _ (List.mem_of_head? hstage.2)))
  | countUp | done => cases hp
  | startList | clearLinks => exact hstage.elim
  | _ => exact hnot (List.mem_append_left _ (List.mem_singleton_self _))

/-- A change to the counters, or to the state of the current thread. -/
theorem congr {k1 : Kernel} (h : Midway all j fresh k run blk p) (links : k1.links = k.links)
    (runnable : k1.runnableQueue = k.runnableQueue) (blocked : k1.blockedQueue = k.blockedQueue)
    (current : k1.currentThread = k.currentThread) (tid : k1.nextTid = k.nextTid)
    (tcb : ∀ t, t ≠ k.currentThread → k1.tcb t = k.tcb t) : Midway all j fresh k1 run blk p where
  stage := h.stage.congr links runnable blocked current tid
  perm := by
    rw [current]
    exact h.perm
  ready t ht := by
    have hne : t ≠ k.currentThread := fun e => h.current_not_mem (e ▸ ht)
    rw [tcb t hne]
    exact h.ready t ht
  self hp := by
    rw [tcb j (h.current_ne hp).symm]
    exact h.self hp
  one := by
    rw [current]
    exact h.one

/-- After a call of `schedule` that leaves a stage behind, the invariant holds with that stage. -/
theorem rescheduled {p' : UpdatePoint} (h : Midway all j fresh k run blk p)
    (state : (k.tcb k.currentThread).state.ready = true ∨
      (k.tcb k.currentThread).state.suspended = true ∧ k.currentThread ≠ 1)
    (hs : k.schedule tid = some k')
    (moves : Rescheduled k tid (p.between j) run blk k'.currentThread (p'.between j) run' blk')
    (stage : k'.Stage j fresh' run' blk' p') (pending : p'.pending = true → p.pending = true) :
    Midway all j fresh' k' run' blk' p' ∧ (k'.tcb k'.currentThread).state.ready = true := by
  obtain ⟨s, hloose⟩ := h.stage.loose
  have hcurrent : k.currentThread = 1 → (k.tcb k.currentThread).state.ready = true := fun hone =>
    state.resolve_right fun hsusp => hsusp.2 hone
  -- whoever can run after the call is ready
  have hready : ∀ w ∈ k'.currentThread :: run', (k'.tcb w).state.ready = true := by
    intro w hw
    apply hloose.schedule_ready hs
    rcases moves.of_mem hw with hrun | hfound | ⟨rfl, hone | hready⟩
    · exact Or.inl (h.ready w hrun)
    · exact Or.inr hfound
    · exact Or.inl (hcurrent hone)
    · exact Or.inl hready
  refine ⟨⟨stage, moves.perm.trans h.perm, fun w hw => hready w (List.mem_cons_of_mem _ hw),
    fun hp => (switched_schedule hs).ready (h.self (pending hp)), moves.mem_of_mem ?_⟩,
    hready _ List.mem_cons_self⟩
  rcases List.mem_cons.mp h.one with hone | hrun
  · exact Or.inr ⟨hone, hcurrent hone.symm⟩
  · exact Or.inl hrun

/-- **A call of `schedule`** that the update survives. -/
theorem schedule (h : Midway all j (p.halfOut = false) k run blk p)
    (state : (k.tcb k.currentThread).state.ready = true ∨
      (k.tcb k.currentThread).state.suspended = true ∧ k.currentThread ≠ 1)
    (survives : p.Survives j k) (hs : k.schedule tid = some k') :
    ∃ run' blk', Midway all j (p.halfOut = false) k' run' blk' p ∧
      (k'.tcb k'.currentThread).state.ready = true := by
  have live : (k.tcb k.currentThread).state ≠ .exit := by
    rcases state with hready | ⟨hsusp, -⟩
    · exact Machine.ne_exit_of_ready hready
    · exact Machine.ne_exit_of_suspended hsusp
  obtain ⟨run', blk', heff, hstage⟩ := h.stage.reschedule survives live h.self hs
  exact ⟨run', blk', h.rescheduled state hs heff hstage id⟩

/-- **A turn** that the update survives. -/
theorem turn {u : Turn} (h : Midway all j (p.halfOut = false) k run blk p)
    (state : (k.tcb k.currentThread).state.ready = true) (clear : k.Clear j p u)
    (step : k.turn c u = some k') :
    ∃ run' blk', Midway all j (p.halfOut = false) k' run' blk' p ∧
      (k'.tcb k'.currentThread).state.ready = true := by
  obtain ⟨allows, ⟨rfl, rfl⟩ | ⟨k1, tid, hcall, hs⟩⟩ := turn_cases step
  · exact ⟨run, blk, h.congr rfl rfl rfl rfl rfl fun _ _ => rfl, state⟩
  · have survives := clear k1 tid hcall
    cases u with
    | tick => cases hcall
    | timer =>
        cases hcall
        have hticked : Midway all j (p.halfOut = false) k.ticked run blk p :=
          h.congr rfl rfl rfl rfl rfl fun _ _ => rfl
        exact hticked.schedule (Or.inl state) survives hs
    | yield tid =>
        cases hcall
        exact h.schedule (Or.inl state) survives hs
    | suspend st startTicks duration =>
        cases hcall
        have haside : Midway all j (p.halfOut = false) (k.setTcb k.currentThread
            { k.tcb k.currentThread with
              state := st, startTicks := startTicks, duration := duration }) run blk p :=
          h.congr rfl rfl rfl rfl rfl fun w hw => Function.update_of_ne hw _ _
        refine haside.schedule (Or.inr ⟨?_, allows.2.1⟩) survives hs
        show (Function.update k.tcb k.currentThread _ k.currentThread).state.suspended = true
        rw [Function.update_self]
        exact allows.1

/-- **Run lemma.** The stage stands through all turns that the update survives. -/
theorem turns {us : List Turn} (h : Midway all j (p.halfOut = false) k run blk p)
    (state : (k.tcb k.currentThread).state.ready = true)
    (steps : Run (Guarded (TurnStep c) (Clear j p)) k us k') :
    ∃ run' blk', Midway all j (p.halfOut = false) k' run' blk' p ∧
      (k'.tcb k'.currentThread).state.ready = true := by
  apply steps.invariant (I := fun u => ∃ run' blk', Midway all j (p.halfOut = false) u run' blk' p ∧
    (u.tcb u.currentThread).state.ready = true) ⟨run, blk, h, state⟩
  rintro u t v ⟨run', blk', hu, hready⟩ ⟨hstep, hclear⟩
  exact hu.turn hready hclear hstep

end Midway

end Kernel

end Pebbles
