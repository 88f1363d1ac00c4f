import Pebbles.DataStructure.LinkedList

/-! # Lists that are almost right

Two stores of links that agree but for one `prev` and one `next` field, and two headers that agree
but for the length and perhaps the tail. The functions of `linked_list.c` keep this up as long as
they are not applied to a node whose fields differ: they read the fields of the node they are
applied to and the two ends of the header, and nothing else. -/

namespace Pebbles

open DoublyLinked

variable {ν : Type*} [DecidableEq ν]

/-! ## The relations -/

omit [DecidableEq ν] in
/-- **Links that agree**, the `prev` field of `p` and the `next` field of `q` apart. -/
structure LooseLinks (p q : Option ν) (m m' : Links ν) : Prop where
  /-- The `prev` fields. -/
  prev : ∀ x, p ≠ some x → (m' x).prev = (m x).prev
  /-- The `next` fields. -/
  next : ∀ x, q ≠ some x → (m' x).next = (m x).next

/-- **Headers that agree**, the length apart, which differs by `d`, and the tail unless `tight`:
then the first header has the tail `last`. -/
structure LooseHeader (d : Int) (tight : Prop) (last : Option ν) (l l' : Header ν) : Prop where
  /-- The heads. -/
  head : l'.head = l.head
  /-- The lengths. -/
  length : l'.length = l.length + d
  /-- The tails. -/
  tail : tight → l'.tail = l.tail
  /-- The tail that is off. -/
  loose : ¬ tight → l.tail = last

namespace LooseLinks

variable {p q : Option ν} {m m' : Links ν}

omit [DecidableEq ν] in
theorem refl (p q : Option ν) (m : Links ν) : LooseLinks p q m m :=
  ⟨fun _ _ => rfl, fun _ _ => rfl⟩

/-- The same write on both sides. -/
theorem setNext (h : LooseLinks p q m m') (x : ν) (v : Option ν) :
    LooseLinks p q (DoublyLinked.setNext m x v) (DoublyLinked.setNext m' x v) where
  prev y hy := by
    rw [setNext_prev, setNext_prev]
    exact h.prev y hy
  next y hy := by
    rw [setNext_next, setNext_next, h.next y hy]

/-- The same write on both sides. -/
theorem setPrev (h : LooseLinks p q m m') (x : ν) (v : Option ν) :
    LooseLinks p q (DoublyLinked.setPrev m x v) (DoublyLinked.setPrev m' x v) where
  prev y hy := by
    rw [setPrev_prev, setPrev_prev, h.prev y hy]
  next y hy := by
    rw [setPrev_next, setPrev_next]
    exact h.next y hy

/-- A write to the field that differs makes it agree. -/
theorem heal {x : ν} (h : LooseLinks p (some x) m m') (v : Option ν) :
    LooseLinks p none (DoublyLinked.setNext m x v) (DoublyLinked.setNext m' x v) where
  prev := (h.setNext x v).prev
  next y _ := by
    rw [setNext_next, setNext_next]
    by_cases hy : y = x
    · rw [if_pos hy, if_pos hy]
    · rw [if_neg hy, if_neg hy]
      exact h.next y fun e => hy (Option.some.inj e).symm

end LooseLinks

namespace LooseHeader

variable {d : Int} {tight : Prop} {last : Option ν} {l l' : Header ν}

omit [DecidableEq ν] in
theorem refl (last : Option ν) (l : Header ν) : LooseHeader 0 True last l l :=
  ⟨rfl, by omega, fun _ => rfl, fun hnot => absurd trivial hnot⟩

omit [DecidableEq ν] in
/-- The tail is right after all. -/
theorem tighten (h : LooseHeader d tight last l l') (ht : tight) : LooseHeader d True none l l' :=
  ⟨h.head, h.length, fun _ => h.tail ht, fun hnot => absurd trivial hnot⟩

omit [DecidableEq ν] in
/-- Both lengths change alike. -/
theorem count (h : LooseHeader d tight last l l') (e : Int) :
    LooseHeader d tight last { l with length := l.length + e } { l' with length := l'.length + e } where
  head := h.head
  length := by
    show l'.length + e = l.length + e + d
    rw [h.length]
    omega
  tail := h.tail
  loose := h.loose

end LooseHeader

/-! ## Insertion at the end -/

section Insertion

variable {p q last : Option ν} {m m' : Links ν} {d : Int} {l l' : Header ν}

/-- **`list_insert_last`** on both sides. -/
theorem LooseLinks.insertLast (h : LooseLinks p q m m') (hd : LooseHeader d True last l l') (j : ν) :
    LooseLinks p q (listInsertLast m l (some j)).1 (listInsertLast m' l' (some j)).1 ∧
      LooseHeader d True last (listInsertLast m l (some j)).2 (listInsertLast m' l' (some j)).2 := by
  have right : ∀ hd hd' : Header ν, hd'.head = hd.head → hd'.length = hd.length + d →
      hd'.tail = hd.tail → LooseHeader d True last hd hd' := fun _ _ h1 h2 h3 =>
    ⟨h1, h2, fun _ => h3, fun hnot => absurd trivial hnot⟩
  have htail := hd.tail trivial
  have hlength := (hd.count 1).length
  cases ht : l.tail with
  | none =>
      simp only [listInsertLast, htail, ht]
      exact ⟨(h.setPrev j none).setNext j none, right _ _ rfl hlength rfl⟩
  | some t =>
      simp only [listInsertLast, htail, ht]
      exact ⟨((h.setNext t _).setPrev j _).setNext j none, right _ _ hd.head hlength rfl⟩

/-- It writes the `next` field of the last node. -/
theorem LooseLinks.insertLast_heal {t : ν} (h : LooseLinks p (some t) m m')
    (hd : LooseHeader d True last l l') (ht : l.tail = some t) (j : ν) :
    LooseLinks p none (listInsertLast m l (some j)).1 (listInsertLast m' l' (some j)).1 ∧
      LooseHeader d True last (listInsertLast m l (some j)).2 (listInsertLast m' l' (some j)).2 := by
  refine ⟨?_, (h.insertLast hd j).2⟩
  simp only [listInsertLast, hd.tail trivial, ht]
  exact ((h.heal _).setPrev j _).setNext j none

end Insertion

/-! ## Deletion -/

section Deletion

variable {p q last : Option ν} {m m' : Links ν} {d : Int} {tight : Prop} {l l' : Header ν} {x : ν}

omit [DecidableEq ν] in
/-- The two sides of a conditional of `list_delete`: both give up, or both go on. -/
def LooseResult (p q : Option ν) (d : Int) (tight : Prop) (last : Option ν) :
    Option (Links ν × Header ν) → Option (Links ν × Header ν) → Prop
  | none, none => True
  | some r, some r' => LooseLinks p q r.1 r'.1 ∧ LooseHeader d tight last r.2 r'.2
  | _, _ => False

/-- The first conditional of `list_delete`. -/
theorem LooseLinks.detachNext (h : LooseLinks p q m m') (hd : LooseHeader d tight last l l')
    (hp : p ≠ some x) (hq : q ≠ some x) :
    LooseResult p q d tight last (Pebbles.detachNext m l x) (Pebbles.detachNext m' l' x) := by
  cases hprev : (m x).prev with
  | some y =>
      simp only [Pebbles.detachNext, h.prev x hp, h.next x hq, hprev]
      exact ⟨h.setNext y _, hd⟩
  | none =>
      simp only [Pebbles.detachNext, h.prev x hp, h.next x hq, hprev, hd.head]
      split_ifs
      · exact ⟨h, rfl, hd.length, hd.tail, hd.loose⟩
      · trivial

/-- The second one: it reads the tail only for a node with nothing after it. -/
theorem LooseLinks.detachPrev (h : LooseLinks p q m m') (hd : LooseHeader d tight last l l')
    (hp : p ≠ some x) (hq : q ≠ some x) (ends : tight ∨ (m x).next ≠ none) :
    LooseResult p q d tight last (Pebbles.detachPrev m l x) (Pebbles.detachPrev m' l' x) := by
  cases hnext : (m x).next with
  | some y =>
      simp only [Pebbles.detachPrev, h.prev x hp, h.next x hq, hnext]
      exact ⟨h.setPrev y _, hd⟩
  | none =>
      have htight : tight := ends.resolve_right fun hne => hne hnext
      simp only [Pebbles.detachPrev, h.prev x hp, h.next x hq, hnext, hd.tail htight]
      split_ifs
      · exact ⟨h, hd.head, hd.length, fun _ => rfl, fun hnot => absurd htight hnot⟩
      · trivial

/-- The first conditional does not write the `next` field of the node itself. -/
theorem detachNext_next {m1 : Links ν} {l1 : Header ν} (h : detachNext m l x = some (m1, l1)) :
    (m1 x).next = (m x).next := by
  cases hprev : (m x).prev with
  | some y =>
      simp only [detachNext, hprev] at h
      cases h
      rw [setNext_next]
      split_ifs <;> rfl
  | none =>
      simp only [detachNext, hprev] at h
      split_ifs at h
      cases h
      rfl

/-- **`list_delete`** on both sides. -/
theorem LooseLinks.delete (h : LooseLinks p q m m') (hd : LooseHeader d tight last l l')
    (hp : p ≠ some x) (hq : q ≠ some x) (ends : tight ∨ (m x).next ≠ none) :
    LooseLinks p q (listDelete m l (some x)).1 (listDelete m' l' (some x)).1 ∧
      LooseHeader d tight last (listDelete m l (some x)).2.1 (listDelete m' l' (some x)).2.1 ∧
        (listDelete m' l' (some x)).2.2 = (listDelete m l (some x)).2.2 := by
  have first := h.detachNext hd hp hq
  cases h1 : Pebbles.detachNext m l x with
  | none =>
      cases h1' : Pebbles.detachNext m' l' x with
      | none =>
          simp only [listDelete, h1, h1']
          exact ⟨h, hd, trivial⟩
      | some r' =>
          rw [h1, h1'] at first
          exact first.elim
  | some r =>
      cases h1' : Pebbles.detachNext m' l' x with
      | none =>
          rw [h1, h1'] at first
          exact first.elim
      | some r' =>
          rw [h1, h1'] at first
          obtain ⟨hlinks, hheader⟩ := first
          have hends : tight ∨ (r.1 x).next ≠ none := by
            obtain ⟨m1, l1⟩ := r
            rw [detachNext_next h1]
            exact ends
          have second := hlinks.detachPrev hheader hp hq hends
          cases h2 : Pebbles.detachPrev r.1 r.2 x with
          | none =>
              cases h2' : Pebbles.detachPrev r'.1 r'.2 x with
              | none =>
                  simp only [listDelete, h1, h1', h2, h2']
                  exact ⟨hlinks, hheader, trivial⟩
              | some s' =>
                  rw [h2, h2'] at second
                  exact second.elim
          | some s =>
              cases h2' : Pebbles.detachPrev r'.1 r'.2 x with
              | none =>
                  rw [h2, h2'] at second
                  exact second.elim
              | some s' =>
                  rw [h2, h2'] at second
                  simp only [listDelete, h1, h1', h2, h2']
                  exact ⟨second.1, second.2.count (-1), trivial⟩

end Deletion

end Pebbles
