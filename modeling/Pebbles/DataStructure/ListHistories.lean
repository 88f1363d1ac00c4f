import Pebbles.DataStructure.LinkedList
import Pebbles.Library.Runs
import Mathlib.Data.Fintype.Basic

/-! # Histories of list operations

Any number of lists share one store of nodes. A node keeps its links when it leaves a list, and is
inserted again with whatever they hold. The operations of `kern/datastructure/linked_list.c`, and
those of the same names in `user/libthread/linked_list.c` (the same statements, on a node that also
has `tid` and `data`, which they do not read or write), are compared with operations on abstract
sequences along whole histories. -/

namespace Pebbles

open DoublyLinked Transition

variable {ι ν : Type*} [DecidableEq ι] [DecidableEq ν]

/-! ## Calls -/

/-- A call of one of the operations, on the list `i`. -/
inductive ListCall (ι ν : Type*) where
  /-- `list_insert_first`. -/
  | insertFirst (i : ι) (j : ν)
  /-- `list_insert_last`. -/
  | insertLast (i : ι) (j : ν)
  /-- `list_delete`. -/
  | delete (i : ι) (j : ν)
  /-- `list_delete_first`. -/
  | deleteFirst (i : ι)
  /-- `list_delete_last`. -/
  | deleteLast (i : ι)

/-- The list a call is made on. -/
def ListCall.list : ListCall ι ν → ι
  | insertFirst i _ | insertLast i _ | delete i _ | deleteFirst i | deleteLast i => i

/-- The links of all nodes and the headers of all lists. -/
structure ListStore (ι ν : Type*) where
  /-- The links. -/
  links : Links ν
  /-- The headers. -/
  header : ι → Header ν

/-- All headers after `list_init`; the nodes hold anything. -/
def ListStore.init (links : Links ν) : ListStore ι ν := ⟨links, fun _ => listInit⟩

/-- **A call**: the store after it, and the node it returns. -/
def ListStore.call (s : ListStore ι ν) : ListCall ι ν → ListStore ι ν × Option ν
  | .insertFirst i j =>
      let r := listInsertFirst s.links (s.header i) (some j)
      (⟨r.1, Function.update s.header i r.2⟩, none)
  | .insertLast i j =>
      let r := listInsertLast s.links (s.header i) (some j)
      (⟨r.1, Function.update s.header i r.2⟩, none)
  | .delete i j =>
      let r := listDelete s.links (s.header i) (some j)
      (⟨r.1, Function.update s.header i r.2.1⟩, r.2.2)
  | .deleteFirst i =>
      let r := listDeleteFirst s.links (s.header i)
      (⟨r.1, Function.update s.header i r.2.1⟩, r.2.2)
  | .deleteLast i =>
      let r := listDeleteLast s.links (s.header i)
      (⟨r.1, Function.update s.header i r.2.1⟩, r.2.2)

/-! ## Sequences -/

/-- **The abstract operations**: cons, snoc, removal, behead and drop-last on the sequence `i`. -/
def ListCall.apply (q : ι → List ν) : ListCall ι ν → (ι → List ν) × Option ν
  | insertFirst i j => (Function.update q i (j :: q i), none)
  | insertLast i j => (Function.update q i (q i ++ [j]), none)
  | delete i j => (Function.update q i ((q i).erase j), some j)
  | deleteFirst i => (Function.update q i (q i).tail, (q i).head?)
  | deleteLast i => (Function.update q i (q i).dropLast, (q i).getLast?)

/-- Nodes are inserted when they are in no list, and deleted from the list they are in. -/
def ListCall.Legal (q : ι → List ν) : ListCall ι ν → Prop
  | insertFirst _ j | insertLast _ j => ∀ i, j ∉ q i
  | delete i j => j ∈ q i
  | deleteFirst _ | deleteLast _ => True

instance [Fintype ι] (q : ι → List ν) (c : ListCall ι ν) : Decidable (c.Legal q) :=
  match c with
  | .insertFirst _ j | .insertLast _ j => inferInstanceAs (Decidable (∀ i, j ∉ q i))
  | .delete i j => inferInstanceAs (Decidable (j ∈ q i))
  | .deleteFirst _ | .deleteLast _ => inferInstanceAs (Decidable True)

/-- A legal call on sequences, labelled with the call and its result. -/
def SequenceStep (q : ι → List ν) (a : ListCall ι ν × Option ν) (q' : ι → List ν) : Prop :=
  a.1.Legal q ∧ a.1.apply q = (q', a.2)

/-- The step on finitely many sequences, when it is legal and the result is the one named. -/
def nextSequences [Fintype ι] (q : ι → List ν) (a : ListCall ι ν × Option ν) :
    Option (ι → List ν) :=
  if a.1.Legal q ∧ (a.1.apply q).2 = a.2 then some (a.1.apply q).1 else none

/-- It is a step. -/
theorem sequenceStep_of_next [Fintype ι] {q q' : ι → List ν} {a : ListCall ι ν × Option ν}
    (h : nextSequences q a = some q') : SequenceStep q a q' := by
  unfold nextSequences at h
  split at h
  · next legal => exact ⟨legal.1, Prod.ext (Option.some.inj h) legal.2⟩
  · cases h

/-- A call on the store, labelled with the call and its result. -/
def StoreStep (s : ListStore ι ν) (a : ListCall ι ν × Option ν) (s' : ListStore ι ν) : Prop :=
  s.call a.1 = (s', a.2)

/-- **A well-formed list with the node sequence `xs`**: following `next` from the head and `prev`
from the tail visits these nodes in opposite orders and ends in `NULL`, and `length` is their
number. -/
structure WellFormed (m : Links ν) (l : Header ν) (xs : List ν) : Prop where
  /-- From the head. -/
  forward : Visits (fun x => (m x).next) l.head xs
  /-- From the tail. -/
  backward : Visits (fun x => (m x).prev) l.tail xs.reverse
  /-- The length field. -/
  length : l.length = xs.length

omit [DecidableEq ν] in
/-- A represented list is well formed. -/
theorem wellFormed_of_isList {m : Links ν} {l : Header ν} {xs : List ν} (h : IsList m l xs) :
    WellFormed m l xs where
  forward := by
    rw [h.head]
    exact h.seg.visits_next
  backward := by
    rw [h.tail]
    exact h.seg.visits_prev
  length := h.length

/-! ## One call -/

namespace ListStore

/-- The headers represent the sequences, and no node is in two of them. -/
structure Represents (s : ListStore ι ν) (q : ι → List ν) : Prop where
  /-- Each header represents its sequence. -/
  list : ∀ i, IsList s.links (s.header i) (q i)
  /-- The sequences are disjoint. -/
  disjoint : ∀ i i' x, x ∈ q i → x ∈ q i' → i = i'

/-- The other lists keep their header and the links of their nodes. -/
def Spares (s s' : ListStore ι ν) (q : ι → List ν) (i : ι) : Prop :=
  ∀ i', i' ≠ i → s'.header i' = s.header i' ∧ ∀ x ∈ q i', s'.links x = s.links x

omit [DecidableEq ι] [DecidableEq ν] in
/-- After `list_init` every list is empty. -/
theorem represents_init (links : Links ν) : (init links).Represents fun _ : ι => [] where
  list _ := isList_empty links
  disjoint _ _ _ h := by cases h

omit [DecidableEq ν] in
/-- **Replacing one list.** The new sequence takes nodes of the old one or nodes of no list, and
nothing else is written. -/
theorem Represents.replace {s : ListStore ι ν} {q : ι → List ν} (h : s.Represents q) {i : ι}
    {m : Links ν} {l : Header ν} {xs : List ν} (hlist : IsList m l xs)
    (frame : ∀ x, x ∉ q i → x ∉ xs → m x = s.links x)
    (source : ∀ x ∈ xs, x ∈ q i ∨ ∀ i', x ∉ q i') :
    (ListStore.mk m (Function.update s.header i l)).Represents (Function.update q i xs) ∧
      s.Spares ⟨m, Function.update s.header i l⟩ q i := by
  have away : ∀ i', i' ≠ i → ∀ x ∈ q i', x ∉ xs := by
    intro i' hne x hx hxs
    rcases source x hxs with hold | hfresh
    · exact hne (h.disjoint i' i x hx hold)
    · exact hfresh i' hx
  have same : ∀ i', i' ≠ i → ∀ x ∈ q i', m x = s.links x := fun i' hne x hx =>
    frame x (fun hi => hne (h.disjoint i' i x hx hi)) (away i' hne x hx)
  refine ⟨⟨fun i' => ?_, fun a b x ha hb => ?_⟩, fun i' hne => ⟨?_, same i' hne⟩⟩
  · by_cases hi : i' = i
    · subst hi
      simpa using hlist
    · simp only [Function.update_of_ne hi]
      exact (h.list i').frame (same i' hi)
  · by_cases hia : a = i <;> by_cases hib : b = i
    · rw [hia, hib]
    · subst hia
      rw [Function.update_self] at ha
      rw [Function.update_of_ne hib] at hb
      exact absurd ha (away b hib x hb)
    · subst hib
      rw [Function.update_of_ne hia] at ha
      rw [Function.update_self] at hb
      exact absurd hb (away a hia x ha)
    · rw [Function.update_of_ne hia] at ha
      rw [Function.update_of_ne hib] at hb
      exact h.disjoint a b x ha hb
  · exact Function.update_of_ne hne _ _

/-- **One legal call**: it returns what the abstract operation returns, the headers represent the
sequences after it, and the other lists are spared. -/
theorem Represents.call {s : ListStore ι ν} {q : ι → List ν} (h : s.Represents q)
    {c : ListCall ι ν} (legal : c.Legal q) :
    (s.call c).2 = (c.apply q).2 ∧ (s.call c).1.Represents (c.apply q).1 ∧
      s.Spares (s.call c).1 q c.list := by
  cases c with
  | insertFirst i j =>
      obtain ⟨hlist, hframe⟩ := listInsertFirst_spec (h.list i) (legal i)
      refine ⟨rfl, h.replace hlist ?_ ?_⟩
      · intro x hx hxs
        exact hframe x hx fun e => hxs (e ▸ List.mem_cons_self)
      · intro x hx
        rcases List.mem_cons.mp hx with rfl | hold
        · exact Or.inr legal
        · exact Or.inl hold
  | insertLast i j =>
      obtain ⟨hlist, hframe⟩ := listInsertLast_spec (h.list i) (legal i)
      refine ⟨rfl, h.replace hlist ?_ ?_⟩
      · intro x hx hxs
        exact hframe x hx fun e => hxs (e ▸ List.mem_append_right _ List.mem_cons_self)
      · intro x hx
        rcases List.mem_append.mp hx with hold | hnew
        · exact Or.inl hold
        · exact Or.inr (List.mem_singleton.mp hnew ▸ legal)
  | delete i j =>
      obtain ⟨hlist, hret, hframe⟩ := listDelete_spec (h.list i) legal
      refine ⟨hret, h.replace hlist (fun x _ hx => hframe x hx) fun x hx => ?_⟩
      exact Or.inl (List.mem_of_mem_erase hx)
  | deleteFirst i =>
      obtain ⟨hret, hlist, hframe⟩ := listDeleteFirst_spec (h.list i)
      refine ⟨hret, h.replace hlist (fun x _ hx => hframe x hx) fun x hx => ?_⟩
      exact Or.inl (List.mem_of_mem_tail hx)
  | deleteLast i =>
      obtain ⟨hret, hlist, hframe⟩ := listDeleteLast_spec (h.list i)
      refine ⟨hret, h.replace hlist (fun x _ hx => hframe x hx) fun x hx => ?_⟩
      exact Or.inl (List.dropLast_subset _ hx)

end ListStore

/-! ## Histories -/

/-- **The lists refine the sequences.** Every legal history of operations on sequences, over any
number of them, is a history of the lists with the same results, whatever the links of the nodes
hold at the start; after it each list is well formed with its own sequence, and a further legal
call leaves the header and the nodes of every other list as they are. -/
theorem listHistory_refines (links : Links ν) {history : List (ListCall ι ν × Option ν)}
    {q : ι → List ν} (run : Run SequenceStep (fun _ => []) history q) :
    ∃ s, Run StoreStep (ListStore.init links) history s ∧
      (∀ i, WellFormed s.links (s.header i) (q i)) ∧
      ∀ c : ListCall ι ν, c.Legal q → s.Spares (s.call c).1 q c.list := by
  have hmatch : ∀ (q : ι → List ν) (e : ListCall ι ν × Option ν) (q' : ι → List ν)
      (s : ListStore ι ν), s.Represents q → SequenceStep q e q' →
        ∃ s', StoreStep s e s' ∧ s'.Represents q' := by
    rintro q ⟨c, r⟩ q' s hrep ⟨legal, happly⟩
    obtain ⟨hret, hnext, -⟩ := hrep.call legal
    rw [happly] at hret hnext
    exact ⟨(s.call c).1, Prod.ext rfl hret, hnext⟩
  obtain ⟨s, hrun, hrep⟩ := run.simulate (R := fun q s => ListStore.Represents s q)
    (ListStore.represents_init links) hmatch
  exact ⟨s, hrun, fun i => wellFormed_of_isList (hrep.list i), fun c legal => (hrep.call legal).2.2⟩

/-- Two lists: a node is taken from the front of one and put at the end of the other, which stays
when the first list is emptied and asked again. -/
theorem listHistory_refines_moved :
    ∃ s : ListStore Bool Nat, Run StoreStep (ListStore.init fun _ => ⟨some 7, some 8⟩)
      [(.insertLast false 1, none), (.insertFirst false 2, none), (.deleteFirst false, some 2),
        (.insertLast true 2, none), (.delete false 1, some 1), (.deleteLast false, none)] s ∧
      WellFormed s.links (s.header false) [] ∧ WellFormed s.links (s.header true) [2] := by
  have hruns : runList nextSequences (fun _ : Bool => ([] : List Nat))
      [(.insertLast false 1, none), (.insertFirst false 2, none), (.deleteFirst false, some 2),
        (.insertLast true 2, none), (.delete false 1, some 1), (.deleteLast false, none)] =
      some _ := rfl
  have run := (Run.of_runList hruns).mono fun _ _ _ => sequenceStep_of_next
  obtain ⟨s, hrun, hlists, -⟩ := listHistory_refines (fun _ => ⟨some 7, some 8⟩) run
  exact ⟨s, hrun, hlists false, hlists true⟩

end Pebbles
