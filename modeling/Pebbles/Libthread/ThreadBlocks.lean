import Pebbles.Libthread.ThreadPlaces
import Mathlib.Data.List.Count

/-! # The `thread_t`s and their threads

Whatever the threads do, every thread that runs finds a `thread_t` of its own with `THREAD_RUNNING`
in `thread_list`, every pointer that a call of `thr_join` or `thr_exit` works with is to the
`thread_t` of its target, and nothing is reaped before its thread has passed its last store of a
status. -/

namespace Pebbles.ThreadLib

open Transition

namespace Lib

variable {s s' : Lib} {e : Event}

/-! ## Searching the list -/

/-- No two nodes are of one thread. The nodes without a thread do not count. -/
def Distinct (nodes : List (Int × Nat)) : Prop := nodes.Pairwise fun n m => 0 ≤ n.1 → n.1 ≠ m.1

theorem mem_of_search {x : Int} {b : Nat} (h : s.search x = some b) : (x, b) ∈ s.nodes := by
  obtain ⟨n, hn, rfl⟩ := Option.map_eq_some_iff.mp h
  have hx := List.find?_some hn
  have hmem := List.mem_of_find?_eq_some hn
  rw [decide_eq_true_eq] at hx
  rwa [← hx]

theorem search_eq_none_iff {x : Int} : s.search x = none ↔ ∀ n ∈ s.nodes, n.1 ≠ x := by
  rw [search, Option.map_eq_none_iff, List.find?_eq_none]
  simp

theorem search_of_nodes (h : s'.nodes = s.nodes) (x : Int) : s'.search x = s.search x := by
  rw [search, h]
  rfl

/-- A thread stays where it is found when a node is put behind. -/
theorem search_of_insert {n : Int × Nat} (h : s'.nodes = s.nodes ++ [n]) {x : Int} {b : Nat}
    (hx : s.search x = some b) : s'.search x = some b := by
  obtain ⟨m, hm, rfl⟩ := Option.map_eq_some_iff.mp hx
  rw [search, h, List.find?_append, hm]
  rfl

/-- A new node is found. -/
theorem search_of_insert_new {x : Int} {b : Nat} (h : s'.nodes = s.nodes ++ [(x, b)])
    (hx : ∀ n ∈ s.nodes, n.1 ≠ x) : s'.search x = some b := by
  have hnone : s.nodes.find? (fun n => n.1 = x) = none := by
    rw [List.find?_eq_none]
    simpa using hx
  rw [search, h, List.find?_append, hnone]
  simp

/-- Deleting another thread. -/
theorem search_of_delete {tid x : Int} (h : s'.nodes = s.nodes.eraseP fun n => n.1 = tid)
    (hx : x ≠ tid) : s'.search x = s.search x := by
  rw [search, search, h]
  congr 1
  induction s.nodes with
  | nil => rfl
  | cons n rest ih =>
      by_cases hn : n.1 = tid
      · rw [List.eraseP_cons_of_pos (by simpa using hn),
          List.find?_cons_of_neg (by simpa [hn] using hx.symm)]
      · rw [List.eraseP_cons_of_neg (by simpa using hn)]
        by_cases hnx : n.1 = x
        · rw [List.find?_cons_of_pos (by simpa using hnx), List.find?_cons_of_pos (by simpa using hnx)]
        · rw [List.find?_cons_of_neg (by simpa using hnx), List.find?_cons_of_neg (by simpa using hnx), ih]

/-- A thread that was deleted is not in the list. -/
theorem Distinct.not_mem_delete {nodes : List (Int × Nat)} (h : Distinct nodes) {tid : Int}
    (htid : 0 ≤ tid) : ∀ n ∈ nodes.eraseP fun n => n.1 = tid, n.1 ≠ tid := by
  induction nodes with
  | nil => simp
  | cons m rest ih =>
      obtain ⟨hm, hrest⟩ := List.pairwise_cons.mp h
      intro n hn
      by_cases hmt : m.1 = tid
      · rw [List.eraseP_cons_of_pos (by simpa using hmt)] at hn
        exact (hmt ▸ hm n hn (hmt ▸ htid)).symm
      · rw [List.eraseP_cons_of_neg (by simpa using hmt)] at hn
        rcases List.mem_cons.mp hn with rfl | hn
        · exact hmt
        · exact ih hrest n hn

/-! ## The invariant -/

/-- A thread finds a `thread_t` of its own with `THREAD_RUNNING`, which nobody reaps. -/
def Listed (s : Lib) (x : Int) : Prop :=
  ∃ b, s.search x = some b ∧ b < s.made ∧ s.owner b = x ∧ (s.block b).status = .running ∧
    s.reaped b = .no

/-- A thread has passed its last store, or the branch of the last thread was entered. -/
def Gone (s : Lib) (x : Int) : Prop := (s.pc x).phase = .over ∨ s.last ≠ []

/-- **What holds in every run.** -/
structure Sound (s : Lib) : Prop where
  /-- Threads have no negative numbers. -/
  negative : ∀ x, x < 0 → s.pc x = .absent
  /-- A `thread_t` that was not allocated is not reaped. -/
  fresh : ∀ b, s.made ≤ b → s.reaped b = .no
  /-- A node is of the thread of its `thread_t`. -/
  nodes : ∀ n ∈ s.nodes, n.2 < s.made ∧ s.owner n.2 = n.1 ∧
    (0 ≤ n.1 → (s.pc n.1).phase ≠ .absent)
  /-- A thread has one node. -/
  distinct : Distinct s.nodes
  /-- A thread that was made and is not in the list has one maker, and does not start. -/
  making : ∀ t c, (s.pc t).making = some c → 0 ≤ c → (s.pc c).phase = .child ∧
    (∀ n ∈ s.nodes, n.1 ≠ c) ∧ ∀ t', (s.pc t').making = some c → t' = t
  /-- Its `thread_t`. -/
  madeBlock : ∀ t b c, (s.pc t).madeBlock = some (b, c) → b < s.made ∧ s.owner b = c ∧
    (s.block b).status = .running ∧ s.reaped b = .no
  /-- A thread that runs is in the list. -/
  running : ∀ x, (s.pc x).phase = .running → s.Listed x
  /-- A thread that waits for its start is in the list, or will be put there. -/
  children : ∀ x, (s.pc x).phase = .child → s.Listed x ∨ ∃ t, (s.pc t).making = some x
  /-- The pointer of `thr_join`. -/
  target : ∀ t tid b, (s.pc t).target = some (tid, b) → b < s.made ∧ s.owner b = tid
  /-- `thr_join` goes on when its target is gone. -/
  past : ∀ t tid, (s.pc t).past = some tid → s.Gone tid
  /-- A thread is gone when its status says so, and when its `thread_t` is reaped. -/
  stored : ∀ b, b < s.made → (s.block b).status = .exit ∨ s.reaped b ≠ .no → s.Gone (s.owner b)
  /-- The pointer of `thr_exit`. -/
  own : ∀ t b, (s.pc t).own = some b → b < s.made ∧ s.owner b = t ∧
    ((s.pc t).phase = .running → s.search t = some b)
  /-- After the branch of the last thread was entered, all others are over. -/
  lastOver : ∀ t ∈ s.last, (s.pc t).phase = .over ∧
    ∀ x, x ≠ t → (s.pc x).phase = .absent ∨ (s.pc x).phase = .over
  /-- Who is in this branch has entered it. -/
  lasting : ∀ t, (s.pc t).lasting = true → t ∈ s.last
  /-- The pointer there. -/
  lastBlock : ∀ t b, (s.pc t).lastBlock = some b → b < s.made
  /-- While the `thread_t` of a node is reaped, the node is going to be deleted. -/
  dangling : ∀ n ∈ s.nodes, s.reaped n.2 ≠ .no →
    (∃ t, (s.pc t).reaping = some n.1) ∨ s.last ≠ []

/-- At the start nobody is in the library. -/
theorem init_plain (root : Nat) (memory : ThreadT) (x : Int) :
    (init root memory).pc x = .user ∨ (init root memory).pc x = .absent := by
  by_cases hx : x = root
  · exact Or.inl (if_pos hx)
  · exact Or.inr (if_neg hx)

/-- At the start. -/
theorem sound_init (root : Nat) (memory : ThreadT) : (init root memory).Sound := by
  have hpc : ∀ x, (init root memory).pc x = if x = root then .user else .absent := fun _ => rfl
  have hplain := init_plain root memory
  have huser : (init root memory).pc root = .user := by rw [hpc, if_pos rfl]
  refine ⟨?_, fun b hb => rfl, ?_, ?_, ?_, ?_, ?_, ?_, ?_, ?_, ?_, ?_, ?_, ?_, ?_, ?_⟩
  · intro x hx
    rw [hpc, if_neg]
    rintro rfl
    omega
  · intro n hn
    obtain rfl := List.mem_singleton.mp hn
    refine ⟨Nat.zero_lt_one, rfl, fun _ => ?_⟩
    rw [huser]
    exact Phase.noConfusion
  · exact List.pairwise_singleton _ _
  · intro t c hc
    rcases hplain t with h | h <;> rw [h] at hc <;> cases hc
  · intro t b c hc
    rcases hplain t with h | h <;> rw [h] at hc <;> cases hc
  · intro x hx
    rw [hpc] at hx
    split_ifs at hx with hroot
    · subst hroot
      exact ⟨0, by simp [search, init], Nat.zero_lt_one, rfl, rfl, rfl⟩
    · cases hx
  · intro x hx
    rcases hplain x with h | h <;> rw [h] at hx <;> cases hx
  · intro t tid b ht
    rcases hplain t with h | h <;> rw [h] at ht <;> cases ht
  · intro t tid ht
    rcases hplain t with h | h <;> rw [h] at ht <;> cases ht
  · intro b hb h
    rcases h with h | h
    · cases h
    · exact absurd rfl h
  · intro t b ht
    rcases hplain t with h | h <;> rw [h] at ht <;> cases ht
  · intro t ht
    cases ht
  · intro t ht
    rcases hplain t with h | h <;> rw [h] at ht <;> cases ht
  · intro t b ht
    rcases hplain t with h | h <;> rw [h] at ht <;> cases ht
  · intro n hn h
    exact absurd rfl h

/-- The branch of the last thread stays entered. -/
theorem Effect.last_ne_nil (h : s.Effect e s') (hlast : s.last ≠ []) : s'.last ≠ [] := by
  rcases h.last_eq with hsame | ⟨t, v, -, -, -, hcons⟩
  · rwa [hsame]
  · rw [hcons]
    exact List.cons_ne_nil _ _

/-- Who is gone stays gone. -/
theorem gone_keep (step : s.Step e s') {x : Int} (hx : s.Gone x) : s'.Gone x := by
  rcases hx with hover | hlast
  · exact Or.inl (((effect_of_step step).flow x).over hover)
  · exact Or.inr ((effect_of_step step).last_ne_nil hlast)

/-- A new thread that is not in the list does not start. -/
theorem child_keep (step : s.Step e s') {c : Int} (hchild : (s.pc c).phase = .child)
    (hmissing : ∀ n ∈ s.nodes, n.1 ≠ c) : (s'.pc c).phase = .child := by
  have hflow := (effect_of_step step).flow c
  have hnot : (s'.pc c).phase ≠ .absent := by
    intro habsent
    rw [hflow.absent_back habsent] at hchild
    cases hchild
  cases hphase : (s'.pc c).phase with
  | absent => exact absurd hphase hnot
  | child => rfl
  | running =>
      rcases hflow.running_back hphase with hrunning | ⟨w, hcheck, hunlock⟩
      · rw [hrunning] at hchild
        cases hchild
      · obtain ⟨-, hcode⟩ := code_of_edge step hcheck hunlock Pc.noConfusion rfl
        have hnone : s.search c = none := search_eq_none_iff.mpr hmissing
        simp only [code, hcheck, hnone] at hcode
        obtain rfl := Option.some.inj hcode
        simp at hunlock
  | _ =>
      rcases hflow.over_back hphase with hover | hrunning
      · rw [hover] at hchild
        cases hchild
      · rw [hrunning] at hchild
        cases hchild

/-- When the count is one, one node is of a running thread. -/
theorem eq_of_counted {n m : Int × Nat} (hone : s.liveCount = 1) (hn : n ∈ s.nodes)
    (hns : (s.block n.2).status = .running) (hm : m ∈ s.nodes)
    (hms : (s.block m.2).status = .running) : n = m := by
  have hfilter : (s.nodes.filter fun n => (s.block n.2).status = .running).length = 1 := by
    rw [← List.countP_eq_length_filter]
    exact hone
  obtain ⟨k, hk⟩ := List.length_eq_one_iff.mp hfilter
  have hmem : ∀ {z : Int × Nat}, z ∈ s.nodes → (s.block z.2).status = .running → z = k := by
    intro z hz hzs
    have hin : z ∈ s.nodes.filter fun n => (s.block n.2).status = .running :=
      List.mem_filter.mpr ⟨hz, by simpa using hzs⟩
    rw [hk] at hin
    exact List.mem_singleton.mp hin
  rw [hmem hn hns, hmem hm hms]

/-- **One running thread**: when the count is one, two threads in the list are the same. -/
theorem eq_of_liveCount {x y : Int} (hone : s.liveCount = 1) (hx : s.Listed x) (hy : s.Listed y) :
    x = y := by
  obtain ⟨b, hxb, -, -, hxs, -⟩ := hx
  obtain ⟨b', hyb, -, -, hys, -⟩ := hy
  exact congrArg Prod.fst (eq_of_counted hone (mem_of_search hxb) hxs (mem_of_search hyb) hys)

namespace Sound

variable (h : s.Sound)

include h

/-- As long as a thread is not over, the branch of the last thread was not entered. -/
theorem last_eq_nil {x : Int} (hx : (s.pc x).phase = .child ∨ (s.pc x).phase = .running) :
    s.last = [] := by
  refine List.eq_nil_iff_forall_not_mem.mpr fun t ht => ?_
  obtain ⟨hover, hothers⟩ := h.lastOver t ht
  by_cases hxt : x = t
  · rw [hxt, hover] at hx
    rcases hx with hx | hx <;> cases hx
  · rcases hothers x hxt with hother | hother <;> rw [hother] at hx <;> rcases hx with hx | hx <;> cases hx

/-- Such a thread is not gone. -/
theorem not_gone {x : Int} (hx : (s.pc x).phase = .child ∨ (s.pc x).phase = .running) :
    ¬s.Gone x := by
  rintro (hover | hlast)
  · rw [hover] at hx
    rcases hx with hx | hx <;> cases hx
  · exact hlast (h.last_eq_nil hx)

/-- Nobody reaps what is of a thread that is not gone. -/
theorem reaped_keep (step : s.Step e s') {b : Nat} (hb : ¬s.Gone (s.owner b)) :
    s'.reaped b = s.reaped b := by
  rcases (effect_of_step step).reaped b with hsame | ⟨t, tid, htarget, hpast, -⟩ | ⟨t, ht, -⟩ | ⟨t, ht⟩
  · exact hsame
  · obtain ⟨-, rfl⟩ := h.target t tid b htarget
    exact absurd (h.past t _ hpast) hb
  · have hlast := h.lasting t (by rw [ht]; rfl)
    exact absurd (Or.inr (List.ne_nil_of_mem hlast)) hb
  · have hlast := h.lasting t (Pc.lasting_of_lastBlock ht)
    exact absurd (Or.inr (List.ne_nil_of_mem hlast)) hb

/-- The status is kept until its thread is over. -/
theorem status_keep (step : s.Step e s') {b : Nat} (hb : b < s.made) (hfreed : s.reaped b ≠ .freed)
    (hover : (s'.pc (s.owner b)).phase ≠ .over) :
    (s'.block b).status = (s.block b).status ∧ (s'.block b).statusp = (s.block b).statusp := by
  rcases (effect_of_step step).status hb hfreed with hsame | ⟨t, v, hstore, hsignal, -, -⟩
  · exact hsame
  · obtain ⟨-, howner, -⟩ := h.own t b (by rw [hstore]; rfl)
    rw [howner, hsignal] at hover
    exact absurd rfl hover

/-- A thread that is not over is found where it was found. -/
theorem search_keep (step : s.Step e s') {x : Int} {b : Nat}
    (hx : (s.pc x).phase = .child ∨ (s.pc x).phase = .running) (hsearch : s.search x = some b) :
    s'.search x = some b := by
  rcases (effect_of_step step).nodes with hsame | ⟨t, b', c, -, -, hinsert⟩ | ⟨t, tid, v, ht, hdelete⟩ |
    ⟨t, n, ht, -⟩
  · rw [search_of_nodes hsame, hsearch]
  · exact search_of_insert hinsert hsearch
  · have hne : x ≠ tid := by
      rintro rfl
      exact h.not_gone hx (h.past t x (by rw [ht]; rfl))
    rw [search_of_delete hdelete hne, hsearch]
  · have hlast := h.lasting t (by rw [ht]; rfl)
    rw [h.last_eq_nil hx] at hlast
    cases hlast

/-- **A thread that is not over stays in the list.** -/
theorem listed_keep (step : s.Step e s') {x : Int}
    (hx : (s.pc x).phase = .child ∨ (s.pc x).phase = .running) (hafter : (s'.pc x).phase ≠ .over)
    (hlisted : s.Listed x) : s'.Listed x := by
  obtain ⟨b, hsearch, hb, rfl, hstatus, hreaped⟩ := hlisted
  have heffect := effect_of_step step
  refine ⟨b, h.search_keep step hx hsearch, Nat.lt_of_lt_of_le hb heffect.made_le,
    heffect.owner_eq hb, ?_, ?_⟩
  · have hfreed : s.reaped b ≠ .freed := by
      rw [hreaped]
      exact Reaping.noConfusion
    rw [(h.status_keep step hb hfreed hafter).1, hstatus]
  · rw [h.reaped_keep step (h.not_gone hx), hreaped]

/-! ## Its steps -/

/-- A thread in the branch of the last thread has entered it. -/
theorem lasting_last {t : Int} (ht : (s.pc t).lasting = true) : s.last ≠ [] :=
  List.ne_nil_of_mem (h.lasting t ht)

theorem step_negative (step : s.Step e s') (x : Int) (hx : x < 0) : s'.pc x = .absent := by
  by_contra hmade
  obtain ⟨hpos, -⟩ := (effect_of_step step).born (h.negative x hx) hmade
  omega

theorem step_fresh (step : s.Step e s') (b : Nat) (hb : s'.made ≤ b) : s'.reaped b = .no := by
  have heffect := effect_of_step step
  have hold : s.made ≤ b := Nat.le_trans heffect.made_le hb
  rcases heffect.reaped b with hsame | ⟨t, tid, ht, -, -⟩ | ⟨t, -, n, hn, rfl⟩ | ⟨t, ht⟩
  · rw [hsame, h.fresh b hold]
  · exact absurd (h.target t tid b ht).1 (Nat.not_lt.mpr hold)
  · exact absurd (h.nodes n hn).1 (Nat.not_lt.mpr hold)
  · exact absurd (h.lastBlock t b ht) (Nat.not_lt.mpr hold)

theorem step_nodes (step : s.Step e s') (n : Int × Nat) (hn : n ∈ s'.nodes) :
    n.2 < s'.made ∧ s'.owner n.2 = n.1 ∧ (0 ≤ n.1 → (s'.pc n.1).phase ≠ .absent) := by
  have heffect := effect_of_step step
  have hold : n ∈ s.nodes → n.2 < s'.made ∧ s'.owner n.2 = n.1 ∧
      (0 ≤ n.1 → (s'.pc n.1).phase ≠ .absent) := by
    intro hmem
    obtain ⟨hb, howner, hborn⟩ := h.nodes n hmem
    refine ⟨Nat.lt_of_lt_of_le hb heffect.made_le, by rw [heffect.owner_eq hb, howner], ?_⟩
    exact fun hpos habsent => hborn hpos ((heffect.flow n.1).absent_back habsent)
  rcases heffect.nodes with hsame | ⟨t, b, c, ht, -, hinsert⟩ | ⟨t, tid, v, -, hdelete⟩ |
    ⟨t, m, -, hpop⟩
  · exact hold (hsame ▸ hn)
  · rw [hinsert, List.mem_append, List.mem_singleton] at hn
    rcases hn with hmem | rfl
    · exact hold hmem
    · obtain ⟨hb, howner, -⟩ := h.madeBlock t b c (by rw [ht]; rfl)
      refine ⟨Nat.lt_of_lt_of_le hb heffect.made_le, by rw [heffect.owner_eq hb, howner], ?_⟩
      intro hpos habsent
      obtain ⟨hchild, -⟩ := h.making t c (by rw [ht]; rfl) hpos
      rw [(heffect.flow c).absent_back habsent] at hchild
      cases hchild
  · rw [hdelete] at hn
    exact hold (List.mem_of_mem_eraseP hn)
  · exact hold (hpop ▸ List.mem_cons_of_mem _ hn)

theorem step_distinct (step : s.Step e s') : Distinct s'.nodes := by
  rcases (effect_of_step step).nodes with hsame | ⟨t, b, c, ht, -, hinsert⟩ | ⟨t, tid, v, -, hdelete⟩ |
    ⟨t, m, -, hpop⟩
  · rw [hsame]
    exact h.distinct
  · rw [hinsert]
    refine List.pairwise_append.mpr ⟨h.distinct, List.pairwise_singleton _ _, ?_⟩
    intro n hn m hm hpos hsame
    obtain rfl := List.mem_singleton.mp hm
    have hpos : 0 ≤ c := by rwa [hsame] at hpos
    obtain ⟨-, hnot, -⟩ := h.making t c (by rw [ht]; rfl) hpos
    exact hnot n hn hsame
  · rw [hdelete]
    exact h.distinct.sublist List.eraseP_sublist
  · have hpairs := h.distinct
    rw [hpop] at hpairs
    exact (List.pairwise_cons.mp hpairs).2

theorem step_making (step : s.Step e s') (t : Int) (c : Int) (hc : (s'.pc t).making = some c)
    (hpos : 0 ≤ c) : (s'.pc c).phase = .child ∧ (∀ n ∈ s'.nodes, n.1 ≠ c) ∧
      ∀ t', (s'.pc t').making = some c → t' = t := by
  have heffect := effect_of_step step
  rcases (heffect.flow t).making_back hc with hold | ⟨base, hfork, hinit⟩
  · obtain ⟨hchild, hmissing, honly⟩ := h.making t c hold hpos
    refine ⟨child_keep step hchild hmissing, ?_, ?_⟩
    · intro n hn hnc
      rcases heffect.nodes with hsame | ⟨t', b, c', ht', hsignal, hinsert⟩ | ⟨t', tid, v, -, hdelete⟩ |
        ⟨t', m, -, hpop⟩
      · exact hmissing n (hsame ▸ hn) hnc
      · rw [hinsert, List.mem_append, List.mem_singleton] at hn
        rcases hn with hn | rfl
        · exact hmissing n hn hnc
        · -- the maker itself has put it into the list
          obtain rfl : c' = c := hnc
          obtain rfl := honly t' (by rw [ht']; rfl)
          rw [hsignal] at hc
          cases hc
      · rw [hdelete] at hn
        exact hmissing n (List.mem_of_mem_eraseP hn) hnc
      · exact hmissing n (hpop ▸ List.mem_cons_of_mem _ hn) hnc
    · intro t' ht'
      rcases (heffect.flow t').making_back ht' with hold' | ⟨base, hfork, hinit⟩
      · exact honly t' hold'
      · obtain ⟨-, -, hnew⟩ := forks step hfork hinit
        rw [(hnew hpos).1] at hchild
        cases hchild
  · obtain ⟨hnodes, hevent, hnew⟩ := forks step hfork hinit
    obtain ⟨habsent, hborn⟩ := hnew hpos
    refine ⟨by rw [hborn]; rfl, ?_, ?_⟩
    · rintro n hn rfl
      refine (h.nodes n (hnodes ▸ hn)).2.2 hpos ?_
      rw [habsent]
      rfl
    · intro t' ht'
      rcases (heffect.flow t').making_back ht' with hold' | ⟨base', hfork', hinit'⟩
      · obtain ⟨hchild, -⟩ := h.making t' c hold' hpos
        rw [habsent] at hchild
        cases hchild
      · obtain ⟨-, hevent', -⟩ := forks step hfork' hinit'
        rw [hevent] at hevent'
        exact (Event.fork.inj hevent').1.symm

/-- The `thread_t` of a thread that is being made is of a thread that is not gone, and does not go
in this step. -/
theorem making_not_gone {t : Int} {b : Nat} {c : Int} (ht : (s.pc t).madeBlock = some (b, c)) :
    ¬s.Gone c ∧ ∀ {e s'}, s.Step e s' → (s'.pc c).phase ≠ .over := by
  obtain ⟨hmaking, hrunning⟩ := Pc.making_of_madeBlock ht
  have hlast : s.last = [] := h.last_eq_nil (Or.inr hrunning)
  by_cases hpos : 0 ≤ c
  · obtain ⟨hchild, hmissing, -⟩ := h.making t c hmaking hpos
    refine ⟨h.not_gone (Or.inl hchild), fun step hover => ?_⟩
    rw [child_keep step hchild hmissing] at hover
    cases hover
  · have hneg : c < 0 := by omega
    refine ⟨?_, fun step hover => ?_⟩
    · rintro (hover | hne)
      · rw [h.negative c hneg] at hover
        cases hover
      · exact hne hlast
    · rw [h.step_negative step c hneg] at hover
      cases hover

theorem step_madeBlock (step : s.Step e s') (t : Int) (b : Nat) (c : Int)
    (ht : (s'.pc t).madeBlock = some (b, c)) : b < s'.made ∧ s'.owner b = c ∧
      (s'.block b).status = .running ∧ s'.reaped b = .no := by
  have heffect := effect_of_step step
  rcases (heffect.flow t).madeBlock_back ht with hold | ⟨base, hinit, hlock⟩
  · obtain ⟨hb, rfl, hstatus, hreaped⟩ := h.madeBlock t b c hold
    obtain ⟨hgone, hkeep⟩ := h.making_not_gone hold
    refine ⟨Nat.lt_of_lt_of_le hb heffect.made_le, heffect.owner_eq hb, ?_, ?_⟩
    · have hfreed : s.reaped b ≠ .freed := by
        rw [hreaped]
        exact Reaping.noConfusion
      rw [(h.status_keep step hb hfreed (hkeep step)).1, hstatus]
    · rw [h.reaped_keep step hgone, hreaped]
  · obtain ⟨-, hcode⟩ := code_of_edge step hinit hlock Pc.noConfusion rfl
    simp only [code, hinit] at hcode
    obtain rfl := Option.some.inj hcode
    have hplace : (s.newThread base c).pc = s.pc := rfl
    rw [move_pc, Function.update_self] at hlock
    obtain ⟨rfl, -⟩ := Pc.createLockList.inj hlock
    refine ⟨Nat.lt_succ_self _, Function.update_self .., ?_, h.fresh _ (Nat.le_refl _)⟩
    rw [move_block, newThread_block, Function.update_self]

theorem step_running (step : s.Step e s') (x : Int) (hx : (s'.pc x).phase = .running) :
    s'.Listed x := by
  have hafter : (s'.pc x).phase ≠ .over := by
    rw [hx]
    exact Phase.noConfusion
  rcases ((effect_of_step step).flow x).running_back hx with hold | ⟨w, hcheck, hunlock⟩
  · exact h.listed_keep step (Or.inr hold) hafter (h.running x hold)
  · have hchild : (s.pc x).phase = .child := by
      rw [hcheck]
      rfl
    rcases h.children x hchild with hlisted | ⟨t, ht⟩
    · exact h.listed_keep step (Or.inl hchild) hafter hlisted
    · -- a thread that is not in the list does not start
      have hpos : 0 ≤ x := by
        by_contra hneg
        rw [h.negative x (by omega)] at hcheck
        cases hcheck
      have hstill := child_keep step hchild (h.making t x ht hpos).2.1
      rw [hx] at hstill
      cases hstill

theorem step_children (step : s.Step e s') (x : Int) (hx : (s'.pc x).phase = .child) :
    s'.Listed x ∨ ∃ t, (s'.pc t).making = some x := by
  have heffect := effect_of_step step
  have hafter : (s'.pc x).phase ≠ .over := by
    rw [hx]
    exact Phase.noConfusion
  rcases (heffect.flow x).child_back hx with hold | habsent
  · rcases h.children x hold with hlisted | ⟨t, ht⟩
    · exact Or.inl (h.listed_keep step (Or.inl hold) hafter hlisted)
    · rcases (heffect.flow t).making_keep ht with hstill | ⟨b, hinsert, hsignal⟩
      · exact Or.inr ⟨t, hstill⟩
      · -- the maker puts it into the list
        refine Or.inl ⟨b, ?_⟩
        obtain ⟨hb, rfl, hstatus, hreaped⟩ := h.madeBlock t b x (by rw [hinsert]; rfl)
        have hpos : 0 ≤ s.owner b := by
          by_contra hneg
          rw [h.negative _ (by omega)] at hold
          cases hold
        have hmissing := (h.making t _ ht hpos).2.1
        obtain ⟨-, hcode⟩ := code_of_edge step hinsert hsignal Pc.noConfusion rfl
        simp only [code, hinsert] at hcode
        obtain rfl := Option.some.inj hcode
        exact ⟨search_of_insert_new rfl hmissing, hb, rfl, hstatus, hreaped⟩
  · have hmade : s'.pc x ≠ .absent := by
      intro hstill
      rw [hstill] at hx
      cases hx
    obtain ⟨-, t, base, -, hinit, -⟩ := heffect.born habsent hmade
    exact Or.inr ⟨t, by rw [hinit]; rfl⟩

theorem step_target (step : s.Step e s') (t tid : Int) (b : Nat)
    (ht : (s'.pc t).target = some (tid, b)) : b < s'.made ∧ s'.owner b = tid := by
  have heffect := effect_of_step step
  have hold : b < s.made ∧ s.owner b = tid := by
    rcases (heffect.flow t).target_back ht with hold | ⟨hsearch, hunlock⟩
    · exact h.target t tid b hold
    · obtain ⟨-, hfound, rfl⟩ := searched step hsearch hunlock
      obtain ⟨hb, howner, -⟩ := h.nodes _ (mem_of_search hfound)
      exact ⟨hb, howner⟩
  exact ⟨Nat.lt_of_lt_of_le hold.1 heffect.made_le, by rw [heffect.owner_eq hold.1, hold.2]⟩

theorem step_past (step : s.Step e s') (t tid : Int) (ht : (s'.pc t).past = some tid) :
    s'.Gone tid := by
  refine gone_keep step ?_
  rcases ((effect_of_step step).flow t).past_back ht with hold | ⟨b, v, hloop, hrelease⟩
  · exact h.past t tid hold
  · obtain ⟨hb, rfl⟩ := h.target t tid b (by rw [hloop]; rfl)
    exact h.stored b hb (Or.inl (found_exit step hloop hrelease).1)

theorem step_stored (step : s.Step e s') (b : Nat) (hb : b < s'.made)
    (hstored : (s'.block b).status = .exit ∨ s'.reaped b ≠ .no) : s'.Gone (s'.owner b) := by
  have heffect := effect_of_step step
  by_cases hold : b < s.made
  · rw [heffect.owner_eq hold]
    by_contra hgone
    have hgone' : ¬s.Gone (s.owner b) := mt (gone_keep step) hgone
    have hbefore : ¬((s.block b).status = .exit ∨ s.reaped b ≠ .no) := mt (h.stored b hold) hgone'
    obtain ⟨hstatus, hreaped⟩ := not_or.mp hbefore
    have hreaped : s.reaped b = .no := not_not.mp hreaped
    rw [h.reaped_keep step hgone', hreaped] at hstored
    have hfreed : s.reaped b ≠ .freed := by
      rw [hreaped]
      exact Reaping.noConfusion
    have hover : (s'.pc (s.owner b)).phase ≠ .over := fun hover => hgone (Or.inl hover)
    rw [(h.status_keep step hold hfreed hover).1] at hstored
    exact hstored.elim hstatus fun hne => hne rfl
  · have hnew := Nat.not_lt.mp hold
    obtain ⟨hstatus, hreaped⟩ := heffect.made_new hnew hb
    rw [hstatus, hreaped, h.fresh b hnew] at hstored
    rcases hstored with hstored | hstored
    · cases hstored
    · exact absurd rfl hstored

theorem step_own (step : s.Step e s') (t : Int) (b : Nat) (ht : (s'.pc t).own = some b) :
    b < s'.made ∧ s'.owner b = t ∧ ((s'.pc t).phase = .running → s'.search t = some b) := by
  have heffect := effect_of_step step
  rcases (heffect.flow t).own_back ht with hold | ⟨v, hcount, hunlock⟩
  · obtain ⟨hb, howner, hsearch⟩ := h.own t b hold
    refine ⟨Nat.lt_of_lt_of_le hb heffect.made_le, by rw [heffect.owner_eq hb, howner], ?_⟩
    intro hrunning
    have hbefore : (s.pc t).phase = .running := by
      rcases (heffect.flow t).running_back hrunning with hbefore | ⟨w, hcheck, -⟩
      · exact hbefore
      · rw [hcheck] at hold
        cases hold
    exact h.search_keep step (Or.inr hbefore) (hsearch hbefore)
  · obtain ⟨-, -, hfound, rfl⟩ := counted step hcount hunlock
    obtain ⟨hb, howner, -⟩ := h.nodes _ (mem_of_search hfound)
    exact ⟨hb, howner, fun _ => hfound⟩

theorem step_lastOver (step : s.Step e s') (t : Int) (ht : t ∈ s'.last) :
    (s'.pc t).phase = .over ∧ ∀ x, x ≠ t → (s'.pc x).phase = .absent ∨ (s'.pc x).phase = .over := by
  have heffect := effect_of_step step
  -- nobody else is alive, so nobody else is made
  have hkeep : (s'.pc t).phase = .over →
      (∀ x, x ≠ t → (s.pc x).phase = .absent ∨ (s.pc x).phase = .over) →
      ((s.pc t).phase = .over ∨ ∃ v, s.pc t = .exitCount v) →
      (s'.pc t).phase = .over ∧
        ∀ x, x ≠ t → (s'.pc x).phase = .absent ∨ (s'.pc x).phase = .over := by
    intro hover hothers hself
    refine ⟨hover, fun x hx => ?_⟩
    rcases hothers x hx with habsent | hgone
    · by_contra hboth
      obtain ⟨hmade, -⟩ := not_or.mp hboth
      have habsent : s.pc x = .absent := by
        cases hpc : s.pc x <;> rw [hpc] at habsent <;> simp_all [Pc.phase]
      obtain ⟨-, y, base, hfork, -, -⟩ := heffect.born habsent fun hstill => hmade (by rw [hstill]; rfl)
      by_cases hy : y = t
      · rw [← hy, hfork] at hself
        rcases hself with hself | ⟨v, hself⟩ <;> cases hself
      · have hother := hothers y hy
        rw [hfork] at hother
        rcases hother with hother | hother <;> cases hother
    · exact Or.inr ((heffect.flow x).over hgone)
  rcases heffect.last_eq with hsame | ⟨y, v, hcount, hnext, hone, hcons⟩
  · rw [hsame] at ht
    obtain ⟨hover, hothers⟩ := h.lastOver t ht
    exact hkeep ((heffect.flow t).over hover) hothers (Or.inl hover)
  · have hyrunning : (s.pc y).phase = .running := by
      rw [hcount]
      rfl
    have hylisted := h.running y hyrunning
    rw [hcons, h.last_eq_nil (Or.inr hyrunning), List.mem_singleton] at ht
    subst ht
    refine hkeep (by rw [hnext]; rfl) (fun x hx => ?_) (Or.inr ⟨v, hcount⟩)
    cases hphase : (s.pc x).phase with
    | absent => exact Or.inl rfl
    | running => exact absurd (eq_of_liveCount hone (h.running x hphase) hylisted) hx
    | child =>
        rcases h.children x hphase with hlisted | ⟨z, hz⟩
        · exact absurd (eq_of_liveCount hone hlisted hylisted) hx
        · have hzlisted := h.running z (Pc.running_of_making hz)
          obtain rfl := eq_of_liveCount hone hzlisted hylisted
          rw [hcount] at hz
          cases hz
    | _ => exact Or.inr rfl

theorem step_lasting (step : s.Step e s') (t : Int) (ht : (s'.pc t).lasting = true) :
    t ∈ s'.last := by
  have heffect := effect_of_step step
  rcases (heffect.flow t).lasting_back ht with hold | ⟨v, hcount, hnext⟩
  · rcases heffect.last_eq with hsame | ⟨y, v, -, -, -, hcons⟩
    · rw [hsame]
      exact h.lasting t hold
    · rw [hcons]
      exact List.mem_cons_of_mem _ (h.lasting t hold)
  · obtain ⟨-, hcode⟩ := code_of_edge step hcount hnext Pc.noConfusion rfl
    simp only [code, hcount] at hcode
    split_ifs at hcode with hone
    · obtain rfl := Option.some.inj hcode
      exact List.mem_cons_self
    · obtain rfl := Option.some.inj hcode
      simp at hnext

theorem step_lastBlock (step : s.Step e s') (t : Int) (b : Nat) (ht : (s'.pc t).lastBlock = some b) :
    b < s'.made := by
  have heffect := effect_of_step step
  refine Nat.lt_of_lt_of_le ?_ heffect.made_le
  rcases (heffect.flow t).lastBlock_back ht with hold | ⟨hnext, hremove⟩
  · exact h.lastBlock t b hold
  · obtain ⟨-, hcode⟩ := code_of_edge step hnext hremove Pc.noConfusion rfl
    simp only [code, hnext] at hcode
    split at hcode
    · obtain rfl := Option.some.inj hcode
      simp at hremove
    · next hnodes =>
        obtain rfl := Option.some.inj hcode
        rw [destroy_pc, Function.update_self] at hremove
        split_ifs at hremove
        · obtain rfl := Pc.lastRemove.inj hremove
          exact (h.nodes _ (by rw [hnodes]; exact List.mem_cons_self)).1

/-- A node whose `thread_t` is reaped was in the list before. -/
theorem mem_of_reaped (step : s.Step e s') (hlast : s.last = []) {n : Int × Nat}
    (hn : n ∈ s'.nodes) (hreaped : s'.reaped n.2 ≠ .no) : n ∈ s.nodes := by
  rcases (effect_of_step step).nodes with hsame | ⟨t, b, c, hinsert, -, hnodes⟩ | ⟨t, tid, v, -, hnodes⟩ |
    ⟨t, m, ht, -⟩
  · rwa [hsame] at hn
  · rw [hnodes, List.mem_append, List.mem_singleton] at hn
    refine hn.resolve_right ?_
    rintro rfl
    -- the `thread_t` is new
    obtain ⟨-, rfl, -, hnot⟩ := h.madeBlock t b c (by rw [hinsert]; rfl)
    obtain ⟨hgone, -⟩ := h.making_not_gone (t := t) (b := b) (by rw [hinsert]; rfl)
    exact hreaped (by rw [h.reaped_keep step hgone, hnot])
  · rw [hnodes] at hn
    exact List.mem_of_mem_eraseP hn
  · exact absurd hlast (h.lasting_last (by rw [ht]; rfl))

theorem step_dangling (step : s.Step e s') (n : Int × Nat) (hn : n ∈ s'.nodes)
    (hreaped : s'.reaped n.2 ≠ .no) : (∃ t, (s'.pc t).reaping = some n.1) ∨ s'.last ≠ [] := by
  have heffect := effect_of_step step
  by_cases hlast : s.last = []
  swap
  · exact Or.inr (heffect.last_ne_nil hlast)
  have hmem := h.mem_of_reaped step hlast hn hreaped
  rcases heffect.reaped n.2 with hsame | ⟨t, tid, htarget, -, hafter⟩ | ⟨t, ht, -⟩ | ⟨t, ht⟩
  · rw [hsame] at hreaped
    obtain ⟨t, ht⟩ := (h.dangling n hmem hreaped).resolve_right fun hne => hne hlast
    rcases (heffect.flow t).reaping_keep ht with hstill | ⟨v, hdelete, hunlock⟩
    · exact Or.inl ⟨t, hstill⟩
    · -- the node is deleted in this step
      obtain ⟨-, hcode⟩ := code_of_edge step hdelete hunlock Pc.noConfusion rfl
      simp only [code, hdelete] at hcode
      obtain rfl := Option.some.inj hcode
      have hpos : 0 ≤ n.1 := by
        by_contra hneg
        rcases h.past t n.1 (by rw [hdelete]; rfl) with hover | hne
        · rw [h.negative n.1 (by omega)] at hover
          cases hover
        · exact hne hlast
      exact absurd rfl (h.distinct.not_mem_delete hpos n hn)
  · obtain ⟨-, howner⟩ := h.target t tid n.2 htarget
    rw [← (h.nodes n hmem).2.1, howner]
    exact Or.inl ⟨t, hafter⟩
  · exact absurd hlast (h.lasting_last (by rw [ht]; rfl))
  · exact absurd hlast (h.lasting_last (Pc.lasting_of_lastBlock ht))

/-- **Every step keeps the invariant.** -/
theorem step (hstep : s.Step e s') : s'.Sound where
  negative := h.step_negative hstep
  fresh := h.step_fresh hstep
  nodes := h.step_nodes hstep
  distinct := h.step_distinct hstep
  making := h.step_making hstep
  madeBlock := h.step_madeBlock hstep
  running := h.step_running hstep
  children := h.step_children hstep
  target := h.step_target hstep
  past := h.step_past hstep
  stored := h.step_stored hstep
  own := h.step_own hstep
  lastOver := h.step_lastOver hstep
  lasting := h.step_lasting hstep
  lastBlock := h.step_lastBlock hstep
  dangling := h.step_dangling hstep

end Sound

/-- **Every run keeps the invariant.** -/
theorem sound_of_run {root : Nat} {memory : ThreadT} {es : List Event}
    (run : Run Step (init root memory) es s) : s.Sound :=
  run.invariant (sound_init root memory) fun _ _ _ h step => h.step step

end Lib

end Pebbles.ThreadLib
