import Pebbles.Library.DoublyLinked

/-! # The kernel's linked list

The functions of `kern/datastructure/linked_list.c` on a store of links. A node pointer is an
`Option`, with `none` for `NULL`; a header pointer is never `NULL` at a call. Each function comes
with its meaning on represented lists: what becomes of the list and which nodes are not written. -/

namespace Pebbles

open DoublyLinked

variable {ν : Type*} [DecidableEq ν]

/-! ## The functions -/

/-- `list_init`. -/
def listInit : Header ν := ⟨0, none, none⟩

/-- `list_begin`. -/
def listBegin (l : Header ν) : Option ν := l.head

/-- `list_end`. -/
def listEnd (l : Header ν) : Option ν := l.tail

/-- The first conditional of `list_delete`: take `j` out of the `next` direction. -/
def detachNext (m : Links ν) (l : Header ν) (j : ν) : Option (Links ν × Header ν) :=
  match (m j).prev with
  | some p => some (setNext m p (m j).next, l)
  | none => if l.head = some j then some (m, { l with head := (m j).next }) else none

/-- The second conditional of `list_delete`: take `j` out of the `prev` direction. -/
def detachPrev (m : Links ν) (l : Header ν) (j : ν) : Option (Links ν × Header ν) :=
  match (m j).next with
  | some n => some (setPrev m n (m j).prev, l)
  | none => if l.tail = some j then some (m, { l with tail := (m j).prev }) else none

/-- `list_delete`: the links and the header after the call, and its result. When the second
conditional gives up, the writes of the first one stay. -/
def listDelete (m : Links ν) (l : Header ν) : Option ν → Links ν × Header ν × Option ν
  | none => (m, l, none)
  | some j =>
      match detachNext m l j with
      | none => (m, l, none)
      | some (m1, l1) =>
          match detachPrev m1 l1 j with
          | none => (m1, l1, none)
          | some (m2, l2) => (m2, { l2 with length := l2.length - 1 }, some j)

/-- `list_delete_first`. -/
def listDeleteFirst (m : Links ν) (l : Header ν) : Links ν × Header ν × Option ν :=
  listDelete m l l.head

/-- `list_delete_last`. -/
def listDeleteLast (m : Links ν) (l : Header ν) : Links ν × Header ν × Option ν :=
  listDelete m l l.tail

/-- `list_insert_first`. -/
def listInsertFirst (m : Links ν) (l : Header ν) : Option ν → Links ν × Header ν
  | none => (m, l)
  | some j =>
      match l.head with
      | none =>
          (setPrev (setNext m j none) j none, ⟨l.length + 1, some j, some j⟩)
      | some h =>
          (setPrev (setNext (setPrev m h (some j)) j (some h)) j none,
            { l with head := some j, length := l.length + 1 })

/-- `list_insert_last`. -/
def listInsertLast (m : Links ν) (l : Header ν) : Option ν → Links ν × Header ν
  | none => (m, l)
  | some j =>
      match l.tail with
      | none =>
          (setNext (setPrev m j none) j none, ⟨l.length + 1, some j, some j⟩)
      | some t =>
          (setNext (setPrev (setNext m t (some j)) j (some t)) j none,
            { l with tail := some j, length := l.length + 1 })

/-! ## What they write, on any list -/

/-- `list_insert_last` writes the new node and the old tail only. -/
theorem listInsertLast_frame {m : Links ν} {l : Header ν} {j x : ν} (hj : x ≠ j)
    (ht : l.tail ≠ some x) : (listInsertLast m l (some j)).1 x = m x := by
  cases hl : l.tail with
  | none =>
      simp only [listInsertLast, hl]
      rw [setNext_of_ne _ _ hj, setPrev_of_ne _ _ hj]
  | some t =>
      have hxt : x ≠ t := by
        rintro rfl
        exact ht hl
      simp only [listInsertLast, hl]
      rw [setNext_of_ne _ _ hj, setPrev_of_ne _ _ hj, setNext_of_ne _ _ hxt]

/-- The new node is the last one. -/
theorem listInsertLast_next {m : Links ν} {l : Header ν} {j : ν} :
    ((listInsertLast m l (some j)).1 j).next = none := by
  cases hl : l.tail <;> simp [listInsertLast, hl]

/-- The old tail is the node before the new one. -/
theorem listInsertLast_prev {m : Links ν} {l : Header ν} {j : ν} :
    ((listInsertLast m l (some j)).1 j).prev = l.tail := by
  cases hl : l.tail <;> simp [listInsertLast, hl]

/-- `list_delete` writes the two neighbours of the node only. -/
theorem listDelete_frame {m : Links ν} {l : Header ν} {j x : ν} (hp : (m j).prev ≠ some x)
    (hn : (m j).next ≠ some x) : (listDelete m l (some j)).1 x = m x := by
  -- the links after the first conditional, whichever branch it took
  have first : ∀ m1 l1, detachNext m l j = some (m1, l1) →
      m1 x = m x ∧ (m1 j).next = (m j).next := by
    intro m1 l1 h
    cases hprev : (m j).prev with
    | none =>
        simp only [detachNext, hprev] at h
        split_ifs at h
        cases h
        exact ⟨rfl, rfl⟩
    | some p =>
        simp only [detachNext, hprev] at h
        cases h
        have hxp : x ≠ p := by
          rintro rfl
          exact hp hprev
        refine ⟨setNext_of_ne _ _ hxp, ?_⟩
        rw [setNext_next]
        split_ifs <;> rfl
  have second : ∀ m1 l1 m2 l2, m1 x = m x → (m1 j).next = (m j).next →
      detachPrev m1 l1 j = some (m2, l2) → m2 x = m x := by
    intro m1 l1 m2 l2 hx hnext h
    cases hnx : (m j).next with
    | none =>
        simp only [detachPrev, hnext, hnx] at h
        split_ifs at h
        cases h
        exact hx
    | some n =>
        simp only [detachPrev, hnext, hnx] at h
        cases h
        have hxn : x ≠ n := by
          rintro rfl
          exact hn hnx
        rw [setPrev_of_ne _ _ hxn]
        exact hx
  cases h1 : detachNext m l j with
  | none => simp [listDelete, h1]
  | some r1 =>
      obtain ⟨hx, hnext⟩ := first r1.1 r1.2 h1
      cases h2 : detachPrev r1.1 r1.2 j with
      | none => simpa [listDelete, h1, h2] using hx
      | some r2 => simpa [listDelete, h1, h2] using second _ _ r2.1 r2.2 hx hnext h2

/-! ## Their meaning on represented lists -/

/-- **`list_insert_last` appends** a node that is not in the list and writes no node outside. -/
theorem listInsertLast_spec {m : Links ν} {l : Header ν} {xs : List ν} {j : ν}
    (h : IsList m l xs) (hj : j ∉ xs) :
    IsList (listInsertLast m l (some j)).1 (listInsertLast m l (some j)).2 (xs ++ [j]) ∧
      ∀ x, x ∉ xs → x ≠ j → (listInsertLast m l (some j)).1 x = m x := by
  have hseg := h.seg.link_last h.nodup hj
  have hnodup : (xs ++ [j]).Nodup :=
    List.nodup_append.mpr ⟨h.nodup, List.nodup_singleton j, by
      rintro a ha b hb rfl
      exact hj (List.mem_singleton.mp hb ▸ ha)⟩
  have hlength : l.length + 1 = ((xs ++ [j]).length : Int) := by
    rw [h.length, List.length_append]
    simp
  rcases xs.eq_nil_or_concat' with rfl | ⟨ys, y, rfl⟩
  · have htail : l.tail = none := by simpa using h.tail
    simp only [listInsertLast, htail]
    refine ⟨⟨by simpa [pointLast] using hseg, rfl, rfl, hlength, hnodup⟩, fun x _ hx => ?_⟩
    rw [setNext_of_ne _ _ hx, setPrev_of_ne _ _ hx]
  · have hlast : (ys ++ [y]).getLast? = some y := by simp
    have htail : l.tail = some y := by rw [h.tail, hlast]
    rw [hlast] at hseg
    simp only [listInsertLast, htail]
    refine ⟨⟨by simpa [pointLast] using hseg, ?_, by simp, hlength, hnodup⟩, fun x hx hne => ?_⟩
    · rw [h.head]
      cases ys <;> rfl
    · have hxy : x ≠ y := by
        rintro rfl
        simp at hx
      rw [setNext_of_ne _ _ hne, setPrev_of_ne _ _ hne, setNext_of_ne _ _ hxy]

/-- **`list_insert_first` prepends** a node that is not in the list and writes no node outside. -/
theorem listInsertFirst_spec {m : Links ν} {l : Header ν} {xs : List ν} {j : ν}
    (h : IsList m l xs) (hj : j ∉ xs) :
    IsList (listInsertFirst m l (some j)).1 (listInsertFirst m l (some j)).2 (j :: xs) ∧
      ∀ x, x ∉ xs → x ≠ j → (listInsertFirst m l (some j)).1 x = m x := by
  have hseg := h.seg.link_first h.nodup hj
  have hnodup : (j :: xs).Nodup := List.nodup_cons.mpr ⟨hj, h.nodup⟩
  have hlength : l.length + 1 = ((j :: xs).length : Int) := by
    rw [h.length, List.length_cons]
    simp
  cases xs with
  | nil =>
      have hhead : l.head = none := by simpa using h.head
      simp only [listInsertFirst, hhead]
      refine ⟨⟨by simpa [pointFirst] using hseg, rfl, rfl, hlength, hnodup⟩, fun x _ hx => ?_⟩
      rw [setPrev_of_ne _ _ hx, setNext_of_ne _ _ hx]
  | cons y ys =>
      have hhead : l.head = some y := by simpa using h.head
      simp only [listInsertFirst, hhead]
      refine ⟨⟨by simpa [pointFirst] using hseg, rfl, ?_, hlength, hnodup⟩, fun x hx hne => ?_⟩
      · rw [h.tail]
        simp [List.getLast?_cons]
      · have hxy : x ≠ y := by
          rintro rfl
          simp at hx
        rw [setPrev_of_ne _ _ hne, setNext_of_ne _ _ hne, setPrev_of_ne _ _ hxy]

/-- What the first conditional of `list_delete` computes on a member: the node before `j`, or the
header, is pointed to the node after it. -/
theorem detachNext_eq {m : Links ν} {l : Header ν} {as bs : List ν} {j : ν}
    (h : IsList m l (as ++ j :: bs)) :
    detachNext m l j =
      some (pointLast m as.getLast? bs.head?, { l with head := (as ++ bs).head? }) := by
  have hprev := h.prev_eq
  have hnext := h.next_eq
  rcases as.eq_nil_or_concat' with rfl | ⟨as, a, rfl⟩
  · have hhead : l.head = some j := by simpa using h.head
    simp [detachNext, hprev, hhead, hnext, pointLast]
  · have hhead : l.head = (as ++ [a] ++ bs).head? := by
      rw [h.head]
      cases as <;> rfl
    have hlast : (as ++ [a]).getLast? = some a := by simp
    rw [hlast] at hprev
    simp only [detachNext, hprev, hnext, hlast, pointLast, ← hhead]

/-- What `list_delete` computes on a member: the two neighbours are pointed at each other. -/
theorem listDelete_eq {m : Links ν} {l : Header ν} {as bs : List ν} {j : ν}
    (h : IsList m l (as ++ j :: bs)) :
    listDelete m l (some j)
      = (pointFirst (pointLast m as.getLast? bs.head?) bs.head? as.getLast?,
          ⟨l.length - 1, (as ++ bs).head?, (as ++ bs).getLast?⟩, some j) := by
  have hprev := h.prev_eq
  have hnext := h.next_eq
  have hja : ∀ p, as.getLast? = some p → p ≠ j := by
    rintro p hp rfl
    exact (List.disjoint_of_nodup_append h.nodup) (List.mem_of_getLast? hp) List.mem_cons_self
  -- the fields of `j` itself are not written by the first conditional
  have hkeep : ∀ q, (pointLast m as.getLast? q) j = m j := fun q =>
    pointLast_of_ne m q fun e => hja j e rfl
  have hsecond : ∀ l1 : Header ν, l1.tail = l.tail →
      detachPrev (pointLast m as.getLast? bs.head?) l1 j
        = some (pointFirst (pointLast m as.getLast? bs.head?) bs.head? as.getLast?,
            { l1 with tail := (as ++ bs).getLast? }) := by
    intro l1 hl1
    cases bs with
    | nil =>
        have htail : l1.tail = some j := by rw [hl1, h.tail]; simp
        simp only [detachPrev, hkeep, hnext, hprev, htail, List.head?_nil, pointFirst,
          List.append_nil, if_true]
    | cons b bs =>
        have htail : l1.tail = (as ++ b :: bs).getLast? := by
          rw [hl1, h.tail, List.getLast?_append_of_ne_nil _ (by simp),
            List.getLast?_append_of_ne_nil _ (by simp), List.getLast?_cons_cons]
        simp only [detachPrev, hkeep, hnext, hprev, List.head?_cons, pointFirst, ← htail]
  simp only [listDelete, detachNext_eq h]
  rw [hsecond { l with head := (as ++ bs).head? } rfl]

/-- **`list_delete` of a member removes it**, returns it, and writes no node outside the rest of
the list; the links of the removed node itself stay as they were. -/
theorem listDelete_spec {m : Links ν} {l : Header ν} {xs : List ν} {j : ν}
    (h : IsList m l xs) (hj : j ∈ xs) :
    IsList (listDelete m l (some j)).1 (listDelete m l (some j)).2.1 (xs.erase j) ∧
      (listDelete m l (some j)).2.2 = some j ∧
      ∀ x, x ∉ xs.erase j → (listDelete m l (some j)).1 x = m x := by
  obtain ⟨as, bs, rfl⟩ := List.append_of_mem hj
  have hnot : j ∉ as := fun hmem =>
    (List.disjoint_of_nodup_append h.nodup) hmem List.mem_cons_self
  have herase : (as ++ j :: bs).erase j = as ++ bs := by
    rw [List.erase_append_right _ hnot, List.erase_cons_head]
  rw [listDelete_eq h, herase]
  refine ⟨⟨?_, rfl, rfl, ?_, ?_⟩, rfl, fun x hx => ?_⟩
  · simpa using h.seg.unlink h.nodup
  · show l.length - 1 = _
    rw [h.length]
    simp only [List.length_append, List.length_cons]
    push_cast
    omega
  · rw [← herase]
    exact h.nodup.erase j
  · have hxa : as.getLast? ≠ some x := fun e =>
      hx (List.mem_append_left _ (List.mem_of_getLast? e))
    have hxb : bs.head? ≠ some x := fun e =>
      hx (List.mem_append_right _ (List.mem_of_head? e))
    show pointFirst _ _ _ x = m x
    rw [pointFirst_of_ne _ _ hxb, pointLast_of_ne _ _ hxa]

/-- `list_delete_first` of a represented list takes its first node, or returns `NULL`. -/
theorem listDeleteFirst_spec {m : Links ν} {l : Header ν} {xs : List ν} (h : IsList m l xs) :
    (listDeleteFirst m l).2.2 = xs.head? ∧
      IsList (listDeleteFirst m l).1 (listDeleteFirst m l).2.1 xs.tail ∧
      ∀ x, x ∉ xs.tail → (listDeleteFirst m l).1 x = m x := by
  cases xs with
  | nil =>
      have hhead : l.head = none := by simpa using h.head
      rw [listDeleteFirst, hhead]
      exact ⟨rfl, h, fun _ _ => rfl⟩
  | cons y ys =>
      have hhead : l.head = some y := by simpa using h.head
      obtain ⟨hlist, hret, hframe⟩ := listDelete_spec h (List.mem_cons_self (a := y) (l := ys))
      rw [List.erase_cons_head] at hlist hframe
      simp only [listDeleteFirst, hhead]
      exact ⟨hret, hlist, hframe⟩

/-- `list_delete_last` of a represented list takes its last node, or returns `NULL`. -/
theorem listDeleteLast_spec {m : Links ν} {l : Header ν} {xs : List ν} (h : IsList m l xs) :
    (listDeleteLast m l).2.2 = xs.getLast? ∧
      IsList (listDeleteLast m l).1 (listDeleteLast m l).2.1 xs.dropLast ∧
      ∀ x, x ∉ xs.dropLast → (listDeleteLast m l).1 x = m x := by
  rcases xs.eq_nil_or_concat' with rfl | ⟨ys, y, rfl⟩
  · have htail : l.tail = none := by simpa using h.tail
    rw [listDeleteLast, htail]
    exact ⟨rfl, h, fun _ _ => rfl⟩
  · have hlast : (ys ++ [y]).getLast? = some y := List.getLast?_concat
    have htail : l.tail = some y := by rw [h.tail, hlast]
    have hnot : y ∉ ys := fun hmem =>
      (List.disjoint_of_nodup_append h.nodup) hmem List.mem_cons_self
    obtain ⟨hlist, hret, hframe⟩ := listDelete_spec h (List.mem_append_right ys (List.mem_cons_self))
    have herase : (ys ++ [y]).erase y = (ys ++ [y]).dropLast := by
      rw [List.erase_append_right _ hnot, List.erase_cons_head, List.append_nil,
        List.dropLast_concat]
    rw [herase] at hlist hframe
    simp only [listDeleteLast, htail]
    exact ⟨hret.trans hlast.symm, hlist, hframe⟩

/-! ## Deleting through a header that does not fit -/

/-- A node with no neighbour before it, in a list it is not the head of: nothing happens. -/
theorem listDelete_stranger {m : Links ν} {l : Header ν} {j : ν} (hp : (m j).prev = none)
    (hh : l.head ≠ some j) : listDelete m l (some j) = (m, l, none) := by
  simp [listDelete, detachNext, hp, hh]

/-- A last node in a list it is not the tail of: the node before it is cut off all the same. -/
theorem listDelete_cut {m : Links ν} {l : Header ν} {j p : ν} (hne : j ≠ p)
    (hp : (m j).prev = some p) (hn : (m j).next = none) (ht : l.tail ≠ some j) :
    listDelete m l (some j) = (setNext m p none, l, none) := by
  have hj : setNext m p none j = m j := setNext_of_ne m none hne
  simp [listDelete, detachNext, detachPrev, hp, hn, ht]

/-- A head with a node after it. -/
theorem listDelete_head {m : Links ν} {l : Header ν} {j n : ν} (hp : (m j).prev = none)
    (hn : (m j).next = some n) (hh : l.head = some j) :
    listDelete m l (some j) =
      (setPrev m n none, { l with head := some n, length := l.length - 1 }, some j) := by
  simp [listDelete, detachNext, detachPrev, hp, hn, hh]

/-- A head with nothing after it, in a list it is not the tail of: only the header is written. -/
theorem listDelete_head_only {m : Links ν} {l : Header ν} {j : ν} (hp : (m j).prev = none)
    (hn : (m j).next = none) (hh : l.head = some j) :
    (listDelete m l (some j)).1 = m := by
  by_cases ht : l.tail = some j <;> simp [listDelete, detachNext, detachPrev, hp, hn, hh, ht]

end Pebbles
