import Pebbles.DataStructure.ListHistories

/-! # Deleting a node that is not in the list

`sys_vanish` and `get_real_handler` call `list_delete` on `blocked_queue` and on `runnable_queue`
with a node they have just taken out of a third list, without knowing where it is. `list_delete`
infers from the links of the node whether it is in the list, and has done half of the unlinking
when it looks at the second link. -/

namespace Pebbles

open DoublyLinked

variable {ν : Type*} [DecidableEq ν]

/-! ## Well-formed lists -/

omit [DecidableEq ν] in
/-- A well-formed list is represented by its header. -/
theorem WellFormed.isList {m : Links ν} {l : Header ν} {xs : List ν} (h : WellFormed m l xs) :
    IsList m l xs where
  seg := seg_of_visits h.forward h.backward
  head := h.forward.start_eq
  tail := by
    have hlast := h.backward.start_eq
    rwa [List.head?_reverse] at hlast
  length := h.length
  nodup := h.forward.nodup

omit [DecidableEq ν] in
/-- Writes to other nodes do not matter. -/
theorem WellFormed.frame {m m' : Links ν} {l : Header ν} {xs : List ν} (h : WellFormed m l xs)
    (same : ∀ x ∈ xs, m' x = m x) : WellFormed m' l xs :=
  wellFormed_of_isList (h.isList.frame same)

omit [DecidableEq ν] in
/-- A header names no node outside its list. -/
theorem WellFormed.ends {m : Links ν} {l : Header ν} {xs : List ν} (h : WellFormed m l xs) {j : ν}
    (hj : j ∉ xs) : l.head ≠ some j ∧ l.tail ≠ some j := by
  refine ⟨fun e => hj ?_, fun e => hj ?_⟩
  · rw [h.isList.head] at e
    exact List.mem_of_head? e
  · rw [h.isList.tail] at e
    exact List.mem_of_getLast? e

/-! ## The deletion -/

/-- **`list_delete` of `j` from `l` is harmless**: it returns `NULL`, leaves the header of `l` with
its length, and every well-formed list of the store is well formed with the same nodes after it. -/
structure Harmless (m : Links ν) (l : Header ν) (j : ν) : Prop where
  /-- The node returned. -/
  result : (listDelete m l (some j)).2.2 = none
  /-- The header of `l`. -/
  header : (listDelete m l (some j)).2.1 = l
  /-- All lists, `l` among them. -/
  lists : ∀ hd xs, WellFormed m hd xs → WellFormed (listDelete m l (some j)).1 hd xs

/-- The node before a stray last node keeps its place in its list. -/
def CutsNothing (m : Links ν) (j : ν) : Prop :=
  ∀ p, (m j).prev = some p → (m p).next = none ∨ ∀ hd ys, WellFormed m hd ys → p ∉ ys

/-- A node with a node before it and one after it is unlinked from both, wherever it is. -/
theorem listDelete_between {m : Links ν} {l : Header ν} {j p n : ν} (hp : (m j).prev = some p)
    (hn : (m j).next = some n) : (listDelete m l (some j)).2.2 = some j := by
  simp [listDelete, detachNext, detachPrev, hp, hn]

/-- Clearing the `next` of a node leaves the lists as they are exactly when it was `NULL` or the
node is in none. -/
theorem wellFormed_setNext_iff {m : Links ν} {p : ν} :
    (∀ hd xs, WellFormed m hd xs → WellFormed (setNext m p none) hd xs) ↔
      ((m p).next = none ∨ ∀ hd ys, WellFormed m hd ys → p ∉ ys) := by
  constructor
  · intro keeps
    by_cases hin : ∃ hd ys, WellFormed m hd ys ∧ p ∈ ys
    · obtain ⟨hd, ys, h, hp⟩ := hin
      obtain ⟨as, bs, rfl⟩ := List.append_of_mem hp
      have hafter : (setNext m p none p).next = bs.head? := (keeps hd _ h).forward.step_eq
      refine Or.inl ?_
      rw [show (m p).next = bs.head? from h.forward.step_eq, ← hafter, setNext_next, if_pos rfl]
    · refine Or.inr fun hd ys h hp => hin ⟨hd, ys, h, hp⟩
  · rintro (hnull | hnone) hd xs h
    · rwa [← hnull, setNext_self]
    · refine h.frame fun x hx => setNext_of_ne m none ?_
      rintro rfl
      exact hnone hd xs h hx

/-- **When deleting a stray node is harmless.** For a well-formed list and a node outside it: when
the node has nothing before it, or has nothing after it and the node before it is the last of its
list already or in no list. -/
theorem harmless_iff {m : Links ν} {l : Header ν} {xs : List ν} (h : WellFormed m l xs) {j : ν}
    (hj : j ∉ xs) :
    Harmless m l j ↔ (m j).prev = none ∨ ((m j).next = none ∧ CutsNothing m j) := by
  obtain ⟨hhead, htail⟩ := h.ends hj
  cases hp : (m j).prev with
  | none =>
      have heq := listDelete_stranger hp hhead
      refine ⟨fun _ => Or.inl rfl, fun _ => ⟨?_, ?_, fun hd ys hys => ?_⟩⟩
      · rw [heq]
      · rw [heq]
      · rwa [heq]
  | some p =>
      cases hn : (m j).next with
      | some n =>
          refine ⟨fun hh => ?_, fun hc => ?_⟩
          · have hresult := hh.result
            rw [listDelete_between hp hn] at hresult
            cases hresult
          · rcases hc with hc | ⟨hc, -⟩ <;> cases hc
      | none =>
          -- the node before `j` is written, and then the second check gives up
          have heq : listDelete m l (some j) = (setNext m p none, l, none) := by
            by_cases hjp : j = p
            · subst hjp
              have hself : setNext m j none = m := by rw [← hn, setNext_self]
              simp [listDelete, detachNext, detachPrev, hp, hn, hself, htail]
            · exact listDelete_cut hjp hp hn htail
          have hcuts : CutsNothing m j ↔
              ((m p).next = none ∨ ∀ hd ys, WellFormed m hd ys → p ∉ ys) := by
            refine ⟨fun hc => hc p hp, fun hc p' hp' => ?_⟩
            rw [hp] at hp'
            cases hp'
            exact hc
          constructor
          · intro hh
            have hlists := hh.lists
            rw [heq] at hlists
            exact Or.inr ⟨rfl, hcuts.mpr (wellFormed_setNext_iff.mp hlists)⟩
          · rintro (hc | ⟨-, hc⟩)
            · cases hc
            · refine ⟨by rw [heq], by rw [heq], ?_⟩
              rw [heq]
              exact wellFormed_setNext_iff.mpr (hcuts.mp hc)

/-- The first node of another list may be deleted. -/
theorem harmless_iff_first_of_two :
    Harmless (fun x : Nat => if x = 1 then ⟨none, some 2⟩ else ⟨some 1, none⟩) listInit 1 :=
  (harmless_iff (wellFormed_of_isList (isList_empty _)) (by decide)).mpr (Or.inl rfl)

/-- The last of two nodes is deleted from an empty list: the call returns `NULL`, and the list the
node is in has lost it. -/
theorem last_of_two_cut :
    WellFormed (fun x : Nat => if x = 1 then ⟨none, some 2⟩ else ⟨some 1, none⟩) listInit [] ∧
      ¬ Harmless (fun x : Nat => if x = 1 then ⟨none, some 2⟩ else ⟨some 1, none⟩) listInit 2 := by
  refine ⟨wellFormed_of_isList (isList_empty _), fun h => ?_⟩
  have hlist : WellFormed (fun x : Nat => if x = 1 then ⟨none, some 2⟩ else ⟨some 1, none⟩)
      ⟨2, some 1, some 2⟩ [1, 2] := ⟨⟨rfl, rfl, rfl⟩, ⟨rfl, rfl, rfl⟩, rfl⟩
  have hcut := (h.lists _ _ hlist).forward.2.1
  exact absurd hcut (by decide)

/-! ## The two kinds of stray nodes -/

/-- **A member of another list** may be deleted when it is the first one there. -/
theorem harmless_member_iff {m : Links ν} {l hd : Header ν} {xs ys : List ν}
    (h : WellFormed m l xs) {j : ν} (hj : j ∉ xs) (hys : WellFormed m hd ys) (hmem : j ∈ ys) :
    Harmless m l j ↔ hd.head = some j := by
  obtain ⟨as, bs, rfl⟩ := List.append_of_mem hmem
  have hprev := hys.isList.prev_eq
  rw [harmless_iff h hj, hprev, hys.isList.head]
  rcases as.eq_nil_or_concat' with rfl | ⟨as, a, rfl⟩
  · simp
  · have hnext : (m a).next = some j := by
      have heq := hys.isList
      rw [List.append_assoc] at heq
      exact heq.next_eq
    have hcuts : ¬ CutsNothing m j := by
      intro hc
      rcases hc a (by rw [hprev, List.getLast?_concat]) with hnull | hnone
      · rw [hnext] at hnull
        cases hnull
      · exact hnone hd _ hys (by simp)
    have hne : (as ++ [a] ++ j :: bs).head? ≠ some j := by
      intro e
      have hnodup := hys.isList.nodup
      have hin : j ∈ as ++ [a] := by
        cases as with
        | nil => exact List.mem_singleton.mpr (Option.some.inj e).symm
        | cons b as => exact (Option.some.inj e) ▸ List.mem_cons_self
      exact List.disjoint_of_nodup_append hnodup hin List.mem_cons_self
    refine ⟨?_, fun e => absurd e hne⟩
    rintro (hfirst | ⟨-, hc⟩)
    · rw [List.getLast?_concat] at hfirst
      cases hfirst
    · exact absurd hc hcuts

/-- **A deleted node** may be deleted again, from any list, when it was at an end of its list. -/
theorem harmless_deleted_iff {m : Links ν} {l hd : Header ν} {xs as bs : List ν} {j : ν}
    (hys : WellFormed m hd (as ++ j :: bs))
    (h : WellFormed (listDelete m hd (some j)).1 l xs) (hj : j ∉ xs) :
    Harmless (listDelete m hd (some j)).1 l j ↔ as = [] ∨ bs = [] := by
  obtain ⟨hlist, -, hframe⟩ := listDelete_spec hys.isList
    (List.mem_append_right as List.mem_cons_self)
  have hnot : j ∉ as := fun hmem =>
    List.disjoint_of_nodup_append hys.isList.nodup hmem List.mem_cons_self
  rw [List.erase_append_right _ hnot, List.erase_cons_head] at hlist hframe
  have hout : j ∉ as ++ bs := by
    have hnodup := hys.isList.nodup
    rw [List.nodup_middle] at hnodup
    exact (List.nodup_cons.mp hnodup).1
  have hsame := hframe j hout
  rw [harmless_iff h hj, hsame, hys.isList.prev_eq, hys.isList.next_eq]
  have hcuts : bs = [] → CutsNothing (listDelete m hd (some j)).1 j := by
    rintro rfl p hp
    rw [hsame, hys.isList.prev_eq] at hp
    obtain ⟨as', rfl⟩ := List.getLast?_eq_some_iff.mp hp
    rw [List.append_nil] at hlist
    exact Or.inl hlist.next_eq
  constructor
  · rintro (hfirst | ⟨hlast, -⟩)
    · exact Or.inl (List.getLast?_eq_none_iff.mp hfirst)
    · exact Or.inr (List.head?_eq_none_iff.mp hlast)
  · rintro (rfl | rfl)
    · exact Or.inl rfl
    · exact Or.inr ⟨rfl, hcuts rfl⟩

end Pebbles
