import Pebbles.DataStructure.LinkedList

/-! # Lists keep to their class

A classification `κ` of the nodes is kept by the links when nodes point at nodes of their own class
only. `list_insert_last` and `list_delete` keep it, even on lists whose headers or links have gone
wrong, and write no node of another class than that of the node they are called for. -/

namespace Pebbles

open DoublyLinked

variable {ν γ : Type*} {κ : ν → γ} {m : Links ν} {l : Header ν} {c : γ} {j : ν}

/-! ## Classes -/

/-- Nodes point at nodes of their own class. -/
def Closed (κ : ν → γ) (m : Links ν) : Prop :=
  ∀ x y, (m x).prev = some y ∨ (m x).next = some y → κ y = κ x

/-- The header names nodes of the class `c`. -/
def Names (κ : ν → γ) (c : γ) (l : Header ν) : Prop :=
  ∀ y, l.head = some y ∨ l.tail = some y → κ y = c

/-- An empty list names nobody. -/
theorem names_listInit (κ : ν → γ) (c : γ) : Names κ c (listInit : Header ν) := by
  intro y hy
  rcases hy with hy | hy <;> cases hy

/-- Closedness depends on the classes of the linked nodes only. -/
theorem Closed.congr {δ : Type*} {κ' : ν → δ} (h : Closed κ m)
    (same : ∀ x y, (m x).prev = some y ∨ (m x).next = some y → κ y = κ x → κ' y = κ' x) :
    Closed κ' m :=
  fun x y hy => same x y hy (h x y hy)

variable [DecidableEq ν]

/-- Pointing a node forward at one of its class. -/
theorem Closed.setNext {x : ν} {q : Option ν} (h : Closed κ m) (hq : ∀ y, q = some y → κ y = κ x) :
    Closed κ (setNext m x q) := by
  intro z y hy
  rw [setNext_prev, setNext_next] at hy
  rcases hy with hy | hy
  · exact h z y (Or.inl hy)
  · split_ifs at hy with hz
    · rw [hz]
      exact hq y hy
    · exact h z y (Or.inr hy)

/-- Pointing a node back at one of its class. -/
theorem Closed.setPrev {x : ν} {p : Option ν} (h : Closed κ m) (hp : ∀ y, p = some y → κ y = κ x) :
    Closed κ (setPrev m x p) := by
  intro z y hy
  rw [setPrev_prev, setPrev_next] at hy
  rcases hy with hy | hy
  · split_ifs at hy with hz
    · rw [hz]
      exact hp y hy
    · exact h z y (Or.inl hy)
  · exact h z y (Or.inr hy)

/-! ## Insertion -/

/-- **`list_insert_last` keeps the classes**, on a list of the class of the new node. -/
theorem Closed.insertLast (h : Closed κ m) (hl : Names κ (κ j) l) :
    Closed κ (listInsertLast m l (some j)).1 ∧
      Names κ (κ j) (listInsertLast m l (some j)).2 := by
  cases ht : l.tail with
  | none =>
      simp only [listInsertLast, ht]
      constructor
      · apply Closed.setNext
        · exact h.setPrev fun y hy => by cases hy
        · exact fun y hy => by cases hy
      · intro y hy
        have hjy : j = y := by simpa using hy
        rw [hjy]
  | some t =>
      have htj : κ t = κ j := hl t (Or.inr ht)
      simp only [listInsertLast, ht]
      constructor
      · apply Closed.setNext
        · apply Closed.setPrev
          · refine h.setNext fun y hy => ?_
            rw [← Option.some.inj hy, htj]
          · intro y hy
            rw [← Option.some.inj hy, htj]
        · exact fun y hy => by cases hy
      · intro y hy
        rcases hy with hy | hy
        · exact hl y (Or.inl hy)
        · have hjy : j = y := by simpa using hy
          rw [hjy]

/-- It writes no node of another class. -/
theorem listInsertLast_frame_class {x : ν} (hl : Names κ (κ j) l) (hx : κ x ≠ κ j) :
    (listInsertLast m l (some j)).1 x = m x := by
  refine listInsertLast_frame (fun e => hx (by rw [e])) fun e => hx (hl x (Or.inr e))

/-! ## Deletion -/

/-- **`list_delete` keeps the classes**, whichever list it is called with. -/
theorem Closed.delete (h : Closed κ m) (hl : Names κ c l) :
    Closed κ (listDelete m l (some j)).1 ∧ Names κ c (listDelete m l (some j)).2.1 := by
  have first : ∀ m1 l1, detachNext m l j = some (m1, l1) → Closed κ m1 ∧ Names κ c l1 := by
    intro m1 l1 heq
    unfold detachNext at heq
    split at heq
    · next p hp =>
        cases heq
        refine ⟨h.setNext fun y hy => ?_, hl⟩
        rw [h j y (Or.inr hy), h j p (Or.inl hp)]
    · split_ifs at heq with hhead
      cases heq
      refine ⟨h, fun y hy => ?_⟩
      rcases hy with hy | hy
      · rw [h j y (Or.inr hy), hl j (Or.inl hhead)]
      · exact hl y (Or.inr hy)
  have second : ∀ m1 l1 m2 l2, Closed κ m1 → Names κ c l1 →
      detachPrev m1 l1 j = some (m2, l2) → Closed κ m2 ∧ Names κ c l2 := by
    intro m1 l1 m2 l2 h1 hl1 heq
    unfold detachPrev at heq
    split at heq
    · next n hn =>
        cases heq
        refine ⟨h1.setPrev fun y hy => ?_, hl1⟩
        rw [h1 j y (Or.inl hy), h1 j n (Or.inr hn)]
    · split_ifs at heq with htail
      cases heq
      refine ⟨h1, fun y hy => ?_⟩
      rcases hy with hy | hy
      · exact hl1 y (Or.inl hy)
      · rw [h1 j y (Or.inl hy), hl1 j (Or.inr htail)]
  cases h1 : detachNext m l j with
  | none => simpa [listDelete, h1] using ⟨h, hl⟩
  | some r1 =>
      obtain ⟨hc1, hl1⟩ := first r1.1 r1.2 h1
      cases h2 : detachPrev r1.1 r1.2 j with
      | none => simpa [listDelete, h1, h2] using ⟨hc1, hl1⟩
      | some r2 =>
          obtain ⟨hc2, hl2⟩ := second _ _ r2.1 r2.2 hc1 hl1 h2
          simp only [listDelete, h1, h2]
          exact ⟨hc2, fun y hy => hl2 y hy⟩

/-- It writes no node of another class. -/
theorem listDelete_frame_class {x : ν} (h : Closed κ m) (hx : κ x ≠ κ j) :
    (listDelete m l (some j)).1 x = m x := by
  apply listDelete_frame
  · exact fun e => hx (h j x (Or.inl e))
  · exact fun e => hx (h j x (Or.inr e))

end Pebbles
