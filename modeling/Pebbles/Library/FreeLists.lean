import Mathlib.Data.List.Basic
import Mathlib.Data.Set.Card
import Mathlib.Order.CompletePartialOrder
import Mathlib.Order.Interval.Finset.Nat
import Mathlib.Order.Interval.Set.Basic
import Mathlib.Order.Lattice
import Mathlib.Tactic.Common

/-! # Address-ordered free lists

A chunk is a stretch of addresses, and a free list is a list of chunks in ascending order. The list
is `Separated` when an address lies between any two of its chunks that belongs to neither: then the
addresses alone determine the list (`Separated.eq_of_cells_eq`), and every free stretch lies in one
chunk (`Separated.exists_chunk`). A part of a chunk is taken out by `carve`, and a chunk is put in
by `release`, which joins it to its neighbours; both keep the list separated. -/

namespace FreeLists

/-- **A chunk**: `length` addresses from `start` on. -/
structure Chunk where
  /-- The first address. -/
  start : ℕ
  /-- The number of addresses. -/
  length : ℕ
  deriving DecidableEq

namespace Chunk

/-- The address after the last one. -/
def stop (c : Chunk) : ℕ := c.start + c.length

/-- The addresses of a chunk. -/
def cells (c : Chunk) : Set ℕ := Set.Ico c.start c.stop

@[simp] theorem mem_cells {c : Chunk} {x : ℕ} : x ∈ c.cells ↔ c.start ≤ x ∧ x < c.stop := Iff.rfl

@[simp] theorem stop_mk (a n : ℕ) : stop ⟨a, n⟩ = a + n := rfl

end Chunk

/-- The addresses of a list of chunks. -/
def cells (l : List Chunk) : Set ℕ := {x | ∃ c ∈ l, x ∈ c.cells}

theorem mem_cells {l : List Chunk} {x : ℕ} : x ∈ cells l ↔ ∃ c ∈ l, c.start ≤ x ∧ x < c.stop :=
  Iff.rfl

@[simp] theorem cells_nil : cells [] = ∅ := by
  ext x
  simp [cells]

@[simp] theorem cells_cons (c : Chunk) (l : List Chunk) : cells (c :: l) = c.cells ∪ cells l := by
  ext x
  simp [cells]

@[simp] theorem cells_append (l l' : List Chunk) : cells (l ++ l') = cells l ∪ cells l' := by
  ext x
  constructor
  · rintro ⟨c, hc, hx⟩
    rcases List.mem_append.mp hc with hc | hc
    · exact Or.inl ⟨c, hc, hx⟩
    · exact Or.inr ⟨c, hc, hx⟩
  · rintro (⟨c, hc, hx⟩ | ⟨c, hc, hx⟩)
    · exact ⟨c, List.mem_append_left l' hc, hx⟩
    · exact ⟨c, List.mem_append_right l hc, hx⟩

/-- The number of addresses in a list. -/
def total (l : List Chunk) : ℕ := (l.map Chunk.length).sum

@[simp] theorem total_nil : total [] = 0 := rfl

@[simp] theorem total_cons (c : Chunk) (l : List Chunk) : total (c :: l) = c.length + total l := by
  simp [total]

@[simp] theorem total_append (l l' : List Chunk) : total (l ++ l') = total l + total l' := by
  simp [total]

theorem ncard_Ico (a n : ℕ) : (Set.Ico a (a + n)).ncard = n := by
  rw [← Finset.coe_Ico, Set.ncard_coe_finset, Nat.card_Ico, Nat.add_sub_cancel_left]

theorem finite_cells (l : List Chunk) : (cells l).Finite := by
  induction l with
  | nil => rw [cells_nil]; exact Set.finite_empty
  | cons c l ih => rw [cells_cons]; exact (Set.finite_Ico _ _).union ih

/-! ## Separated lists -/

/-- **Separated**: ascending chunks, none of them empty, none adjacent to the next. -/
def Separated : List Chunk → Prop
  | [] => True
  | c :: l => 0 < c.length ∧ (∀ d ∈ l, c.stop < d.start) ∧ Separated l

/-- The chunks of a list start and end at multiples of `g`. -/
def Grained (g : ℕ) (l : List Chunk) : Prop := ∀ c ∈ l, g ∣ c.start ∧ g ∣ c.length

/-- The chunks of a list lie between two addresses. -/
def Within (lo hi : ℕ) (l : List Chunk) : Prop := ∀ c ∈ l, lo ≤ c.start ∧ c.stop ≤ hi

variable {c d : Chunk} {l l' before after : List Chunk} {a b n x lo hi g : ℕ}

/-- What lies beyond all chunks of a list is beyond all its addresses. -/
theorem lt_of_mem_cells (h : ∀ d ∈ l, b < d.start) (hx : x ∈ cells l) : b < x := by
  obtain ⟨d, hd, hstart, -⟩ := hx
  exact lt_of_lt_of_le (h d hd) hstart

theorem within_of_mem_cells (h : Within lo hi l) (hx : x ∈ cells l) : lo ≤ x ∧ x < hi := by
  obtain ⟨d, hd, hstart, hstop⟩ := hx
  exact ⟨le_trans (h d hd).1 hstart, lt_of_lt_of_le hstop (h d hd).2⟩

namespace Separated

theorem positive (h : Separated l) (hc : c ∈ l) : 0 < c.length := by
  induction l with
  | nil => cases hc
  | cons d l ih =>
      rcases List.mem_cons.mp hc with rfl | hc
      · exact h.1
      · exact ih h.2.2 hc

/-- The end of the first chunk is not free. -/
theorem stop_notMem (h : Separated (c :: l)) : c.stop ∉ cells (c :: l) := by
  rw [cells_cons]
  rintro (hx | hx)
  · exact lt_irrefl _ hx.2
  · exact lt_irrefl _ (lt_of_mem_cells h.2.1 hx)

/-- The addresses behind the first chunk. -/
theorem mem_tail_iff (h : Separated (c :: l)) : x ∈ cells l ↔ x ∈ cells (c :: l) ∧ c.stop < x := by
  rw [cells_cons]
  constructor
  · intro hx
    exact ⟨Or.inr hx, lt_of_mem_cells h.2.1 hx⟩
  · rintro ⟨hx | hx, hstop⟩
    · exact absurd hx.2 (not_lt.mpr hstop.le)
    · exact hx

/-- The first address is the least one. -/
theorem start_le (h : Separated (c :: l)) (hx : x ∈ cells (c :: l)) : c.start ≤ x := by
  rw [cells_cons] at hx
  rcases hx with hx | hx
  · exact hx.1
  · have hlt := lt_of_mem_cells h.2.1 hx
    rw [Chunk.stop] at hlt
    omega

theorem start_mem (h : Separated (c :: l)) : c.start ∈ cells (c :: l) := by
  rw [cells_cons]
  refine Or.inl ⟨le_rfl, ?_⟩
  have := h.1
  rw [Chunk.stop]
  omega

/-- **A free stretch lies in one chunk.** -/
theorem exists_chunk (h : Separated l) (hab : a < b) (hsub : Set.Ico a b ⊆ cells l) :
    ∃ c ∈ l, c.start ≤ a ∧ b ≤ c.stop := by
  induction l with
  | nil =>
      have hx : a ∈ cells [] := hsub ⟨le_rfl, hab⟩
      rw [cells_nil] at hx
      cases hx
  | cons c l ih =>
      have ha := hsub ⟨le_rfl, hab⟩
      rw [cells_cons] at ha
      rcases ha with ha | ha
      · refine ⟨c, List.mem_cons_self, ha.1, ?_⟩
        by_contra hlt
        -- the stretch would cross the gap behind the chunk
        exact h.stop_notMem (hsub ⟨ha.2.le, not_le.mp hlt⟩)
      · have hlt := lt_of_mem_cells h.2.1 ha
        obtain ⟨d, hd, hle⟩ := ih h.2.2 fun x hx =>
          h.mem_tail_iff.mpr ⟨hsub hx, lt_of_lt_of_le hlt hx.1⟩
        exact ⟨d, List.mem_cons_of_mem c hd, hle⟩

/-- **The addresses determine the list.** -/
theorem eq_of_cells_eq (h : Separated l) (h' : Separated l') (heq : cells l = cells l') :
    l = l' := by
  induction l generalizing l' with
  | nil =>
      cases l' with
      | nil => rfl
      | cons d l' =>
          have hx := h'.start_mem
          rw [← heq, cells_nil] at hx
          cases hx
  | cons c l ih =>
      cases l' with
      | nil =>
          have hx := h.start_mem
          rw [heq, cells_nil] at hx
          cases hx
      | cons d l' =>
          have hstart : c.start = d.start :=
            le_antisymm (h.start_le (heq ▸ h'.start_mem)) (h'.start_le (heq ▸ h.start_mem))
          have hc := h.1
          have hd := h'.1
          have hstop : c.stop = d.stop := by
            rcases lt_trichotomy c.stop d.stop with hlt | heq' | hlt
            · -- the end of the shorter chunk would be free
              refine absurd ?_ h.stop_notMem
              rw [heq, cells_cons]
              refine Or.inl ⟨?_, hlt⟩
              rw [← hstart, Chunk.stop]
              omega
            · exact heq'
            · refine absurd ?_ h'.stop_notMem
              rw [← heq, cells_cons]
              refine Or.inl ⟨?_, hlt⟩
              rw [hstart, Chunk.stop]
              omega
          have hcd : c = d := by
            obtain ⟨cstart, clength⟩ := c
            obtain ⟨dstart, dlength⟩ := d
            simp only [Chunk.stop] at hstart hstop
            simp only [Chunk.mk.injEq]
            exact ⟨hstart, by omega⟩
          subst hcd
          rw [ih h.2.2 h'.2.2]
          ext x
          rw [h.mem_tail_iff, h'.mem_tail_iff, heq]

/-- No address is counted twice. -/
theorem ncard_cells (h : Separated l) : (cells l).ncard = total l := by
  induction l with
  | nil => rw [cells_nil, Set.ncard_empty, total_nil]
  | cons c l ih =>
      have hdisj : Disjoint c.cells (cells l) := Set.disjoint_left.mpr fun x hx hx' =>
        absurd (lt_of_mem_cells h.2.1 hx') (not_lt.mpr hx.2.le)
      rw [cells_cons, Set.ncard_union_eq hdisj (Set.finite_Ico _ _) (finite_cells l), ih h.2.2,
        total_cons]
      exact congrArg (· + total l) (ncard_Ico _ _)

/-- There are at least as many addresses between the bounds as in the list. -/
theorem total_le (h : Separated l) (hw : Within lo hi l) : total l ≤ hi - lo := by
  induction l generalizing lo with
  | nil => exact Nat.zero_le _
  | cons c l ih =>
      obtain ⟨hlo, hhi⟩ := hw c List.mem_cons_self
      have hrest := ih h.2.2 fun d hd =>
        ⟨(h.2.1 d hd).le, (hw d (List.mem_cons_of_mem c hd)).2⟩
      rw [total_cons]
      rw [Chunk.stop] at hhi hrest
      omega

theorem append_iff : Separated (before ++ after) ↔
    Separated before ∧ Separated after ∧ ∀ c ∈ before, ∀ d ∈ after, c.stop < d.start := by
  induction before with
  | nil => simp [Separated]
  | cons c before ih =>
      rw [List.cons_append, Separated, Separated, ih]
      constructor
      · rintro ⟨hpos, hgap, hb, ha, hba⟩
        refine ⟨⟨hpos, fun d hd => hgap d (List.mem_append_left _ hd), hb⟩, ha, ?_⟩
        intro e he d hd
        rcases List.mem_cons.mp he with rfl | he
        · exact hgap d (List.mem_append_right _ hd)
        · exact hba e he d hd
      · rintro ⟨⟨hpos, hgap, hb⟩, ha, hba⟩
        refine ⟨hpos, fun d hd => ?_, hb, ha, fun e he => hba e (List.mem_cons_of_mem c he)⟩
        rcases List.mem_append.mp hd with hd | hd
        · exact hgap d hd
        · exact hba c List.mem_cons_self d hd

end Separated

/-! ## Taking a part of a chunk -/

/-- What is left of a chunk when `n` addresses from `a` on are taken. -/
def pieces (c : Chunk) (a n : ℕ) : List Chunk :=
  (if c.start < a then [⟨c.start, a - c.start⟩] else []) ++
    if a + n < c.stop then [⟨a + n, c.stop - (a + n)⟩] else []

theorem mem_pieces (ha : c.start ≤ a) (hn : a + n ≤ c.stop) (hd : d ∈ pieces c a n) :
    0 < d.length ∧ c.start ≤ d.start ∧ d.stop ≤ c.stop ∧ (d.stop ≤ a ∨ a + n ≤ d.start) := by
  rw [pieces, List.mem_append] at hd
  rcases hd with hd | hd
  · split at hd
    · next hlt =>
        rw [List.mem_singleton] at hd
        subst hd
        simp only [Chunk.stop] at *
        omega
    · cases hd
  · split at hd
    · next hlt =>
        rw [List.mem_singleton] at hd
        subst hd
        simp only [Chunk.stop] at *
        omega
    · cases hd

theorem cells_pieces (ha : c.start ≤ a) (hn : a + n ≤ c.stop) :
    cells (pieces c a n) = c.cells \ Set.Ico a (a + n) := by
  have hfirst : cells (if c.start < a then [(⟨c.start, a - c.start⟩ : Chunk)] else []) =
      Set.Ico c.start a := by
    split
    · ext x
      simp only [cells_cons, cells_nil, Set.union_empty, Chunk.mem_cells, Chunk.stop, Set.mem_Ico]
      omega
    · rw [cells_nil, Set.Ico_eq_empty (by omega)]
  have hlast : cells (if a + n < c.stop then [(⟨a + n, c.stop - (a + n)⟩ : Chunk)] else []) =
      Set.Ico (a + n) c.stop := by
    split
    · ext x
      simp only [cells_cons, cells_nil, Set.union_empty, Chunk.mem_cells, Chunk.stop, Set.mem_Ico]
      omega
    · rw [cells_nil, Set.Ico_eq_empty (by omega)]
  rw [pieces, cells_append, hfirst, hlast]
  ext x
  simp only [Set.mem_union, Set.mem_sdiff, Set.mem_Ico, Chunk.mem_cells]
  omega

theorem total_pieces (ha : c.start ≤ a) (hn : a + n ≤ c.stop) :
    total (pieces c a n) + n = c.length := by
  rw [pieces, total_append]
  rw [Chunk.stop] at hn
  split <;> split <;> simp [Chunk.stop] at * <;> omega

theorem separated_pieces (hpos : 0 < n) : Separated (pieces c a n) := by
  rw [pieces, Separated.append_iff]
  refine ⟨?_, ?_, ?_⟩
  · split
    · exact ⟨Nat.sub_pos_of_lt ‹_›, fun _ h => absurd h List.not_mem_nil, trivial⟩
    · trivial
  · split
    · exact ⟨Nat.sub_pos_of_lt ‹_›, fun _ h => absurd h List.not_mem_nil, trivial⟩
    · trivial
  · intro e he d hd
    split at he
    · split at hd
      · rw [List.mem_singleton] at he hd
        subst he hd
        simp only [Chunk.stop]
        omega
      · cases hd
    · cases he

/-- The list without a part of one of its chunks. -/
def carve (before : List Chunk) (c : Chunk) (after : List Chunk) (a n : ℕ) : List Chunk :=
  before ++ pieces c a n ++ after

/-- **Taking a part** keeps the list separated. -/
theorem Separated.carve (h : Separated (before ++ c :: after)) (ha : c.start ≤ a)
    (hn : a + n ≤ c.stop) (hpos : 0 < n) : Separated (carve before c after a n) := by
  obtain ⟨hb, hca, hcross⟩ := Separated.append_iff.mp h
  rw [FreeLists.carve, List.append_assoc]
  refine Separated.append_iff.mpr ⟨hb, Separated.append_iff.mpr
    ⟨separated_pieces hpos, hca.2.2, ?_⟩, ?_⟩
  · intro e he d hd
    exact lt_of_le_of_lt (mem_pieces ha hn he).2.2.1 (hca.2.1 d hd)
  · intro e he d hd
    rcases List.mem_append.mp hd with hd | hd
    · exact lt_of_lt_of_le (hcross e he c List.mem_cons_self) (mem_pieces ha hn hd).2.1
    · exact hcross e he d (List.mem_cons_of_mem c hd)

/-- **The addresses that are left.** -/
theorem Separated.cells_carve (h : Separated (before ++ c :: after)) (ha : c.start ≤ a)
    (hn : a + n ≤ c.stop) :
    cells (FreeLists.carve before c after a n) =
      cells (before ++ c :: after) \ Set.Ico a (a + n) := by
  obtain ⟨-, hca, hcross⟩ := Separated.append_iff.mp h
  have hbefore : ∀ x ∈ cells before, x < c.start := by
    rintro x ⟨e, he, -, hx⟩
    exact lt_trans hx (hcross e he c List.mem_cons_self)
  have hafter : ∀ x ∈ cells after, c.stop < x := fun x hx => lt_of_mem_cells hca.2.1 hx
  rw [FreeLists.carve, cells_append, cells_append, cells_pieces ha hn, cells_append, cells_cons]
  ext x
  have hxb := hbefore x
  have hxa := hafter x
  simp only [Set.mem_union, Set.mem_sdiff, Set.mem_Ico, Chunk.mem_cells]
  constructor
  · rintro ((hx | ⟨hx, hout⟩) | hx)
    · exact ⟨Or.inl hx, fun hin => by have := hxb hx; omega⟩
    · exact ⟨Or.inr (Or.inl hx), hout⟩
    · exact ⟨Or.inr (Or.inr hx), fun hin => by have := hxa hx; omega⟩
  · rintro ⟨hx | hx | hx, hout⟩
    · exact Or.inl (Or.inl hx)
    · exact Or.inl (Or.inr ⟨hx, hout⟩)
    · exact Or.inr hx

theorem total_carve (ha : c.start ≤ a) (hn : a + n ≤ c.stop) :
    total (carve before c after a n) + n = total (before ++ c :: after) := by
  have := total_pieces ha hn
  simp only [carve, total_append, total_cons]
  omega

theorem Within.carve (h : Within lo hi (before ++ c :: after)) (ha : c.start ≤ a)
    (hn : a + n ≤ c.stop) : Within lo hi (carve before c after a n) := by
  intro d hd
  rw [FreeLists.carve, List.mem_append, List.mem_append] at hd
  rcases hd with (hd | hd) | hd
  · exact h d (List.mem_append_left _ hd)
  · have hc := h c (List.mem_append_right _ List.mem_cons_self)
    obtain ⟨-, hstart, hstop, -⟩ := mem_pieces ha hn hd
    exact ⟨le_trans hc.1 hstart, le_trans hstop hc.2⟩
  · exact h d (List.mem_append_right _ (List.mem_cons_of_mem c hd))

theorem Grained.carve (h : Grained g (before ++ c :: after)) (hga : g ∣ a) (hgn : g ∣ n) :
    Grained g (carve before c after a n) := by
  intro d hd
  rw [FreeLists.carve, List.mem_append, List.mem_append] at hd
  rcases hd with (hd | hd) | hd
  · exact h d (List.mem_append_left _ hd)
  · obtain ⟨hstart, hlen⟩ := h c (List.mem_append_right _ List.mem_cons_self)
    have hstop : g ∣ c.stop := Nat.dvd_add hstart hlen
    rw [pieces, List.mem_append] at hd
    rcases hd with hd | hd
    · split at hd
      · rw [List.mem_singleton] at hd
        subst hd
        exact ⟨hstart, Nat.dvd_sub hga hstart⟩
      · cases hd
    · split at hd
      · rw [List.mem_singleton] at hd
        subst hd
        exact ⟨Nat.dvd_add hga hgn, Nat.dvd_sub hstop (Nat.dvd_add hga hgn)⟩
      · cases hd
  · exact h d (List.mem_append_right _ (List.mem_cons_of_mem c hd))

/-! ## Putting a chunk in -/

/-- A chunk in front of a list, joined to the first chunk of the list if they meet. -/
def join (c : Chunk) : List Chunk → List Chunk
  | [] => [c]
  | d :: l => if d.start ≤ c.stop then ⟨c.start, c.length + d.length⟩ :: l else c :: d :: l

/-- **A chunk is put in**, and joined to the chunks that it meets. -/
def release (c : Chunk) : List Chunk → List Chunk
  | [] => [c]
  | d :: l =>
      if d.start < c.start then
        if c.start ≤ d.stop then join ⟨d.start, d.length + c.length⟩ l else d :: release c l
      else join c (d :: l)

theorem total_join (c : Chunk) (l : List Chunk) : total (join c l) = c.length + total l := by
  cases l with
  | nil => rfl
  | cons d l =>
      rw [join]
      split
      · simp only [total_cons]
        omega
      · simp only [total_cons]

theorem total_release (c : Chunk) (l : List Chunk) :
    total (release c l) = c.length + total l := by
  induction l with
  | nil => rfl
  | cons d l ih =>
      rw [release]
      split
      · split
        · rw [total_join, total_cons]
          simp only
          omega
        · rw [total_cons, ih, total_cons]
          omega
      · exact total_join c (d :: l)

/-- The chunk is in front of the list, and has no address in common with it. -/
theorem cells_join (hd : ∀ d ∈ l, c.stop ≤ d.start) : cells (join c l) = c.cells ∪ cells l := by
  cases l with
  | nil => rw [join, cells_cons]
  | cons d l =>
      rw [join]
      split
      · next hle =>
          have heq : c.stop = d.start := le_antisymm (hd d List.mem_cons_self) hle
          rw [cells_cons, cells_cons, ← Set.union_assoc]
          congr 1
          ext x
          simp only [Chunk.mem_cells, Chunk.stop, Set.mem_union] at *
          omega
      · rw [cells_cons, cells_cons]

theorem Separated.join (hc : 0 < c.length) (h : Separated l) (hd : ∀ d ∈ l, c.stop ≤ d.start) :
    Separated (join c l) := by
  cases l with
  | nil => exact ⟨hc, fun _ h => absurd h List.not_mem_nil, trivial⟩
  | cons d l =>
      rw [FreeLists.join]
      split
      · next hle =>
          have heq : c.stop = d.start := le_antisymm (hd d List.mem_cons_self) hle
          refine ⟨by simp only; omega, fun e he => ?_, h.2.2⟩
          have := h.2.1 e he
          simp only [Chunk.stop] at *
          omega
      · next hlt =>
          refine ⟨hc, fun e he => ?_, h⟩
          rcases List.mem_cons.mp he with rfl | he
          · omega
          · have h1 := h.2.1 e he
            have h2 := h.1
            simp only [Chunk.stop] at *
            omega

/-- The chunk has no address in common with the list. -/
def Fresh (c : Chunk) (l : List Chunk) : Prop := ∀ d ∈ l, d.stop ≤ c.start ∨ c.stop ≤ d.start

theorem fresh_of_disjoint (hc : 0 < c.length) (h : Separated l)
    (hdisj : Disjoint c.cells (cells l)) : Fresh c l := by
  intro d hd
  by_contra hno
  rw [not_or, not_le, not_le] at hno
  have hpos := h.positive hd
  have hx : max c.start d.start ∈ c.cells := by
    refine ⟨le_max_left _ _, ?_⟩
    simp only [Chunk.stop] at *
    omega
  refine Set.disjoint_left.mp hdisj hx ⟨d, hd, le_max_right _ _, ?_⟩
  simp only [Chunk.stop] at *
  omega

/-- A chunk that does not lie behind the first chunk is in front of the whole list. -/
theorem Fresh.stop_le (hf : Fresh c (d :: l)) (h : Separated (d :: l))
    (hle : ¬ d.start < c.start) : ∀ e ∈ d :: l, c.stop ≤ e.start := by
  have hd : c.stop ≤ d.start := by
    rcases hf d List.mem_cons_self with hstop | hstop
    · have := h.1
      simp only [Chunk.stop] at *
      omega
    · exact hstop
  intro e he
  rcases List.mem_cons.mp he with rfl | he
  · exact hd
  · have h1 := h.2.1 e he
    simp only [Chunk.stop] at *
    omega

/-- A chunk that the first chunk meets lies in front of the rest. -/
theorem Fresh.stop_le_of_meets (hf : Fresh c (d :: l)) (hc : 0 < c.length)
    (h : Separated (d :: l)) (hlt : d.start < c.start) (hmeets : c.start ≤ d.stop) :
    d.stop = c.start ∧ ∀ e ∈ l, c.stop ≤ e.start := by
  have heq : d.stop = c.start := by
    rcases hf d List.mem_cons_self with hstop | hstop
    · omega
    · simp only [Chunk.stop] at *
      omega
  refine ⟨heq, fun e he => ?_⟩
  have hde := h.2.1 e he
  have hpos := h.2.2.positive he
  rcases hf e (List.mem_cons_of_mem d he) with hstop | hstop
  · simp only [Chunk.stop] at *
    omega
  · exact hstop

theorem Fresh.tail (hf : Fresh c (d :: l)) : Fresh c l := fun e he =>
  hf e (List.mem_cons_of_mem d he)

/-- **Putting a chunk in** adds its addresses. -/
theorem cells_release (hc : 0 < c.length) (h : Separated l) (hf : Fresh c l) :
    cells (release c l) = c.cells ∪ cells l := by
  induction l with
  | nil => rw [release, cells_cons]
  | cons d l ih =>
      rw [release]
      split
      · next hlt =>
          split
          · next hmeets =>
              obtain ⟨heq, hrest⟩ := hf.stop_le_of_meets hc h hlt hmeets
              rw [cells_join (by
                intro e he
                have := hrest e he
                simp only [Chunk.stop] at *
                omega), cells_cons, ← Set.union_assoc]
              congr 1
              ext x
              simp only [Chunk.mem_cells, Chunk.stop, Set.mem_union] at *
              omega
          · rw [cells_cons, ih h.2.2 hf.tail, cells_cons, Set.union_left_comm]
      · next hge =>
          exact cells_join (hf.stop_le h hge)

/-- A bound on the starts of a list is a bound on the starts of the list with a chunk more. -/
theorem lt_start_of_mem_release (hl : ∀ e ∈ l, b < e.start) (hc : b < c.start) :
    ∀ e ∈ release c l, b < e.start := by
  have hjoin : ∀ (c : Chunk) (l : List Chunk), b < c.start → (∀ e ∈ l, b < e.start) →
      ∀ e ∈ join c l, b < e.start := by
    intro c l hc hl e he
    cases l with
    | nil =>
        rw [join, List.mem_singleton] at he
        rwa [he]
    | cons d l =>
        rw [join] at he
        split at he
        · rcases List.mem_cons.mp he with rfl | he
          · exact hc
          · exact hl e (List.mem_cons_of_mem d he)
        · rcases List.mem_cons.mp he with rfl | he
          · exact hc
          · exact hl e he
  induction l with
  | nil =>
      intro e he
      rw [release, List.mem_singleton] at he
      rwa [he]
  | cons d l ih =>
      rw [release]
      have hrest : ∀ e ∈ l, b < e.start := fun e he => hl e (List.mem_cons_of_mem d he)
      split
      · split
        · exact hjoin _ _ (hl d List.mem_cons_self) hrest
        · intro e he
          rcases List.mem_cons.mp he with rfl | he
          · exact hl e List.mem_cons_self
          · exact ih hrest e he
      · exact hjoin _ _ hc hl

/-- **Putting a chunk in** keeps the list separated. -/
theorem Separated.release (hc : 0 < c.length) (h : Separated l) (hf : Fresh c l) :
    Separated (release c l) := by
  induction l with
  | nil => exact ⟨hc, fun _ h => absurd h List.not_mem_nil, trivial⟩
  | cons d l ih =>
      rw [FreeLists.release]
      split
      · next hlt =>
          split
          · next hmeets =>
              obtain ⟨heq, hrest⟩ := hf.stop_le_of_meets hc h hlt hmeets
              refine Separated.join (by simp only; omega) h.2.2 fun e he => ?_
              have := hrest e he
              simp only [Chunk.stop] at *
              omega
          · next hgap =>
              exact ⟨h.1, lt_start_of_mem_release h.2.1 (not_le.mp hgap), ih h.2.2 hf.tail⟩
      · next hge => exact Separated.join hc h (hf.stop_le h hge)

/-- The chunks that end before the chunk stay in front of it. -/
theorem release_append (hb : ∀ d ∈ before, d.stop < c.start) (l : List Chunk) :
    release c (before ++ l) = before ++ release c l := by
  induction before with
  | nil => rfl
  | cons d before ih =>
      have hd := hb d List.mem_cons_self
      have hstart : d.start < c.start := by
        rw [Chunk.stop] at hd
        omega
      rw [List.cons_append, release, if_pos hstart, if_neg (not_le.mpr hd),
        ih fun e he => hb e (List.mem_cons_of_mem d he), List.cons_append]

/-- In front of the list the chunk can only be joined to the first one. -/
theorem release_eq_join (h : ∀ d ∈ l.head?, c.start ≤ d.start) : release c l = join c l := by
  cases l with
  | nil => rfl
  | cons d l => rw [release, if_neg (not_lt.mpr (h d rfl))]

/-- A property that chunks and their joins have is kept. -/
theorem forall_mem_release {P : Chunk → Prop} (hc : P c) (hl : ∀ d ∈ l, P d)
    (hjoin : ∀ d e, P d → P e → P ⟨d.start, d.length + e.length⟩) : ∀ d ∈ release c l, P d := by
  have hj : ∀ (c : Chunk) (l : List Chunk), P c → (∀ e ∈ l, P e) → ∀ e ∈ join c l, P e := by
    intro c l hc hl e he
    cases l with
    | nil =>
        rw [join, List.mem_singleton] at he
        rwa [he]
    | cons d l =>
        rw [join] at he
        split at he
        · rcases List.mem_cons.mp he with rfl | he
          · exact hjoin c d hc (hl d List.mem_cons_self)
          · exact hl e (List.mem_cons_of_mem d he)
        · rcases List.mem_cons.mp he with rfl | he
          · exact hc
          · exact hl e he
  induction l with
  | nil =>
      intro e he
      rw [release, List.mem_singleton] at he
      rwa [he]
  | cons d l ih =>
      rw [release]
      have hrest : ∀ e ∈ l, P e := fun e he => hl e (List.mem_cons_of_mem d he)
      split
      · split
        · exact hj _ _ (hjoin d c (hl d List.mem_cons_self) hc) hrest
        · intro e he
          rcases List.mem_cons.mp he with rfl | he
          · exact hl e List.mem_cons_self
          · exact ih hrest e he
      · exact hj _ _ hc hl

theorem Grained.release (h : Grained g l) (hstart : g ∣ c.start) (hlen : g ∣ c.length) :
    Grained g (release c l) :=
  forall_mem_release (P := fun d => g ∣ d.start ∧ g ∣ d.length) ⟨hstart, hlen⟩ h
    fun _ _ hd he => ⟨hd.1, Nat.dvd_add hd.2 he.2⟩

/-- The bounds of a list are those of its addresses. -/
theorem Separated.within_iff (h : Separated l) :
    Within lo hi l ↔ ∀ x ∈ cells l, lo ≤ x ∧ x < hi := by
  constructor
  · intro hw x hx
    exact within_of_mem_cells hw hx
  · intro hx c hc
    have hpos := h.positive hc
    have hfirst := hx c.start ⟨c, hc, le_rfl, by rw [Chunk.stop]; omega⟩
    have hlast := hx (c.stop - 1) ⟨c, hc, by rw [Chunk.stop]; omega, by rw [Chunk.stop]; omega⟩
    rw [Chunk.stop] at *
    omega

theorem Within.release (hw : Within lo hi l) (hc : 0 < c.length) (h : Separated l)
    (hf : Fresh c l) (hlo : lo ≤ c.start) (hhi : c.stop ≤ hi) : Within lo hi (release c l) := by
  refine (h.release hc hf).within_iff.mpr fun x hx => ?_
  rw [cells_release hc h hf] at hx
  rcases hx with hx | hx
  · exact ⟨le_trans hlo hx.1, lt_of_lt_of_le hx.2 hhi⟩
  · exact within_of_mem_cells hw hx

end FreeLists
