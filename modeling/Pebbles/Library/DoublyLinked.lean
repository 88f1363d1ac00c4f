import Mathlib.Data.List.Nodup
import Mathlib.Data.List.Basic
import Mathlib.Data.List.Induction
import Mathlib.Logic.Function.Basic
import Mathlib.Tactic.Common

/-! # Doubly linked lists in a store of links

A store of links gives every node its `prev` and `next` field. A list header names the first and
the last node and a length. `Seg m p xs q` says that the nodes `xs` are chained in that order, the
first one pointing back to `p` and the last one forward to `q`; `IsList m l xs` says that the
header `l` represents exactly the sequence `xs`. The rules of this file say what reading along
`next` yields, that writes to other nodes do not matter, and how a node is linked in at the end or
the front and unlinked anywhere. -/

namespace DoublyLinked

variable {ν : Type*}

/-- The two link fields of a node. -/
structure Node (ν : Type*) where
  /-- The previous node. -/
  prev : Option ν
  /-- The next node. -/
  next : Option ν
  deriving DecidableEq, Repr

/-- The link fields of all nodes. -/
abbrev Links (ν : Type*) := ν → Node ν

/-- A list header. -/
structure Header (ν : Type*) where
  /-- The recorded number of nodes. -/
  length : Int
  /-- The first node. -/
  head : Option ν
  /-- The last node. -/
  tail : Option ν
  deriving DecidableEq, Repr

section Writes

variable [DecidableEq ν]

/-- Write the `prev` field of `x`. -/
def setPrev (m : Links ν) (x : ν) (p : Option ν) : Links ν :=
  Function.update m x { m x with prev := p }

/-- Write the `next` field of `x`. -/
def setNext (m : Links ν) (x : ν) (q : Option ν) : Links ν :=
  Function.update m x { m x with next := q }

@[simp] theorem setPrev_prev (m : Links ν) (x : ν) (p : Option ν) (y : ν) :
    (setPrev m x p y).prev = if y = x then p else (m y).prev := by
  by_cases h : y = x
  · subst h
    simp [setPrev]
  · simp [setPrev, h]

@[simp] theorem setPrev_next (m : Links ν) (x : ν) (p : Option ν) (y : ν) :
    (setPrev m x p y).next = (m y).next := by
  by_cases h : y = x
  · subst h
    simp [setPrev]
  · simp [setPrev, h]

@[simp] theorem setNext_next (m : Links ν) (x : ν) (q : Option ν) (y : ν) :
    (setNext m x q y).next = if y = x then q else (m y).next := by
  by_cases h : y = x
  · subst h
    simp [setNext]
  · simp [setNext, h]

@[simp] theorem setNext_prev (m : Links ν) (x : ν) (q : Option ν) (y : ν) :
    (setNext m x q y).prev = (m y).prev := by
  by_cases h : y = x
  · subst h
    simp [setNext]
  · simp [setNext, h]

/-- A write to `x` leaves every other node alone. -/
theorem setPrev_of_ne (m : Links ν) {x y : ν} (p : Option ν) (h : y ≠ x) :
    setPrev m x p y = m y := by
  simp [setPrev, h]

/-- A write to `x` leaves every other node alone. -/
theorem setNext_of_ne (m : Links ν) {x y : ν} (q : Option ν) (h : y ≠ x) :
    setNext m x q y = m y := by
  simp [setNext, h]

/-- Writing what is there. -/
theorem setNext_self (m : Links ν) (x : ν) : setNext m x (m x).next = m :=
  Function.update_eq_self x m

/-- Writing the same field twice. -/
theorem setNext_setNext (m : Links ν) (x : ν) (p q : Option ν) :
    setNext (setNext m x p) x q = setNext m x q := by
  simp [setNext]

end Writes

/-! ## Segments -/

/-- **A chained segment**: `xs` in order, coming from `p` and going on to `q`. -/
def Seg (m : Links ν) : Option ν → List ν → Option ν → Prop
  | _, [], _ => True
  | p, x :: xs, q => (m x).prev = p ∧ (m x).next = xs.head?.or q ∧ Seg m (some x) xs q

@[simp] theorem seg_nil (m : Links ν) (p q : Option ν) : Seg m p [] q := trivial

theorem seg_cons {m : Links ν} {p q : Option ν} {x : ν} {xs : List ν} :
    Seg m p (x :: xs) q ↔
      (m x).prev = p ∧ (m x).next = xs.head?.or q ∧ Seg m (some x) xs q := Iff.rfl

/-- **Frame rule.** A segment only depends on the links of its own nodes. -/
theorem Seg.frame {m m' : Links ν} {p q : Option ν} {xs : List ν} (h : Seg m p xs q)
    (same : ∀ x ∈ xs, m' x = m x) : Seg m' p xs q := by
  induction xs generalizing p with
  | nil => trivial
  | cons x xs ih =>
      obtain ⟨hp, hn, hrest⟩ := h
      rw [seg_cons, same x List.mem_cons_self]
      exact ⟨hp, hn, ih hrest fun y hy => same y (List.mem_cons_of_mem x hy)⟩

/-- **A segment splits** into two that point at each other. -/
theorem seg_append {m : Links ν} {p q : Option ν} {xs ys : List ν} :
    Seg m p (xs ++ ys) q ↔ Seg m p xs (ys.head?.or q) ∧ Seg m (xs.getLast?.or p) ys q := by
  induction xs generalizing p with
  | nil => simp
  | cons x xs ih =>
      have hhead : (xs ++ ys).head?.or q = xs.head?.or (ys.head?.or q) := by
        cases xs <;> simp
      have hlast : (x :: xs).getLast?.or p = xs.getLast?.or (some x) := by
        cases xs with
        | nil => simp
        | cons y ys => simp [List.getLast?_cons]
      rw [List.cons_append, seg_cons, seg_cons, ih, hhead, hlast]
      tauto

/-- A node alone is a segment when its fields name its neighbours. -/
theorem seg_singleton {m : Links ν} {p q : Option ν} {x : ν} :
    Seg m p [x] q ↔ (m x).prev = p ∧ (m x).next = q := by
  simp [seg_cons]

section Rewiring

variable [DecidableEq ν]

/-- The last node of a segment can be pointed elsewhere. -/
theorem Seg.retarget_last {m : Links ν} {p q q' : Option ν} {xs : List ν} {x : ν}
    (h : Seg m p (xs ++ [x]) q) (hx : x ∉ xs) : Seg (setNext m x q') p (xs ++ [x]) q' := by
  rw [seg_append, seg_singleton] at h ⊢
  obtain ⟨hxs, hprev, -⟩ := h
  refine ⟨?_, ?_, ?_⟩
  · exact hxs.frame fun y hy => setNext_of_ne m q' (by rintro rfl; exact hx hy)
  · simpa using hprev
  · simp

/-- The first node of a segment can be made to come from elsewhere. -/
theorem Seg.retarget_first {m : Links ν} {p p' q : Option ν} {xs : List ν} {x : ν}
    (h : Seg m p (x :: xs) q) (hx : x ∉ xs) : Seg (setPrev m x p') p' (x :: xs) q := by
  obtain ⟨-, hnext, hrest⟩ := h
  refine ⟨by simp, by simpa using hnext, ?_⟩
  exact hrest.frame fun y hy => setPrev_of_ne m p' (by rintro rfl; exact hx hy)

/-- The links after the last of the nodes `xs`, if any, is pointed to `q`. -/
def pointLast (m : Links ν) (last : Option ν) (q : Option ν) : Links ν :=
  match last with
  | some x => setNext m x q
  | none => m

/-- The links after the first of the nodes `xs`, if any, is made to come from `p`. -/
def pointFirst (m : Links ν) (first : Option ν) (p : Option ν) : Links ν :=
  match first with
  | some x => setPrev m x p
  | none => m

/-- A write to the last node leaves the others alone. -/
theorem pointLast_of_ne (m : Links ν) {last : Option ν} (q : Option ν) {y : ν}
    (h : last ≠ some y) : pointLast m last q y = m y := by
  cases last with
  | none => rfl
  | some x => exact setNext_of_ne m q fun e => h (by rw [e])

/-- A write to the first node leaves the others alone. -/
theorem pointFirst_of_ne (m : Links ν) {first : Option ν} (p : Option ν) {y : ν}
    (h : first ≠ some y) : pointFirst m first p y = m y := by
  cases first with
  | none => rfl
  | some x => exact setPrev_of_ne m p fun e => h (by rw [e])

/-- `Seg.retarget_last` for a segment that may be empty. -/
theorem Seg.pointLast {m : Links ν} {p q : Option ν} {xs : List ν} (q' : Option ν)
    (h : Seg m p xs q) (nodup : xs.Nodup) : Seg (pointLast m xs.getLast? q') p xs q' := by
  rcases xs.eq_nil_or_concat' with rfl | ⟨ys, y, rfl⟩
  · trivial
  · rw [List.getLast?_append_of_ne_nil _ (by simp)]
    have hy : y ∉ ys := fun hmem =>
      (List.disjoint_of_nodup_append nodup) hmem List.mem_cons_self
    exact h.retarget_last hy

/-- `Seg.retarget_first` for a segment that may be empty. -/
theorem Seg.pointFirst {m : Links ν} {p q : Option ν} {xs : List ν} (p' : Option ν)
    (h : Seg m p xs q) (nodup : xs.Nodup) : Seg (pointFirst m xs.head? p') p' xs q := by
  cases xs with
  | nil => trivial
  | cons x xs => exact h.retarget_first (List.nodup_cons.mp nodup).1

/-- **Unlinking rule.** Pointing the neighbours of `j` at each other takes `j` out. -/
theorem Seg.unlink {m : Links ν} {p q : Option ν} {as bs : List ν} {j : ν}
    (h : Seg m p (as ++ j :: bs) q) (nodup : (as ++ j :: bs).Nodup) :
    Seg (DoublyLinked.pointFirst (DoublyLinked.pointLast m as.getLast? (bs.head?.or q)) bs.head?
      (as.getLast?.or p)) p (as ++ bs) q := by
  obtain ⟨hA, -, -, hB⟩ := seg_append.mp h
  have ndA : as.Nodup := nodup.of_append_left
  have ndB : bs.Nodup := (List.nodup_cons.mp nodup.of_append_right).2
  have hdis : ∀ x ∈ as, x ∉ bs := fun x hx hb =>
    (List.disjoint_of_nodup_append nodup) hx (List.mem_cons_of_mem j hb)
  rw [seg_append]
  constructor
  · refine (hA.pointLast _ ndA).frame fun x hx => pointFirst_of_ne _ _ fun e => ?_
    exact hdis x hx (List.mem_of_head? e)
  · refine Seg.pointFirst _ (hB.frame fun x hx => pointLast_of_ne m _ fun e => ?_) ndB
    exact hdis x (List.mem_of_getLast? e) hx

/-- **Linking rule, at the end.** -/
theorem Seg.link_last {m : Links ν} {p q : Option ν} {xs : List ν} {j : ν} (h : Seg m p xs q)
    (nodup : xs.Nodup) (hj : j ∉ xs) :
    Seg (setNext (setPrev (DoublyLinked.pointLast m xs.getLast? (some j)) j (xs.getLast?.or p)) j q)
      p (xs ++ [j]) q := by
  rw [seg_append, seg_singleton]
  refine ⟨?_, by simp, by simp⟩
  refine (h.pointLast (some j) nodup).frame fun x hx => ?_
  have hne : x ≠ j := by
    rintro rfl
    exact hj hx
  rw [setNext_of_ne _ _ hne, setPrev_of_ne _ _ hne]

/-- **Linking rule, at the front.** -/
theorem Seg.link_first {m : Links ν} {p q : Option ν} {xs : List ν} {j : ν} (h : Seg m p xs q)
    (nodup : xs.Nodup) (hj : j ∉ xs) :
    Seg (setPrev (setNext (DoublyLinked.pointFirst m xs.head? (some j)) j (xs.head?.or q)) j p)
      p (j :: xs) q := by
  refine ⟨by simp, by simp, ?_⟩
  refine (h.pointFirst (some j) nodup).frame fun x hx => ?_
  have hne : x ≠ j := by
    rintro rfl
    exact hj hx
  rw [setPrev_of_ne _ _ hne, setNext_of_ne _ _ hne]

end Rewiring

/-! ## Lists with a header -/

/-- **The header `l` represents the sequence `xs`** in the store `m`. -/
structure IsList (m : Links ν) (l : Header ν) (xs : List ν) : Prop where
  /-- The nodes are chained in order, from and to nothing. -/
  seg : Seg m none xs none
  /-- The header names the first node. -/
  head : l.head = xs.head?
  /-- The header names the last node. -/
  tail : l.tail = xs.getLast?
  /-- The length field is the number of nodes. -/
  length : l.length = xs.length
  /-- No node occurs twice. -/
  nodup : xs.Nodup

/-- The header of no nodes. -/
def emptyHeader : Header ν := ⟨0, none, none⟩

/-- The empty header represents the empty sequence. -/
theorem isList_empty (m : Links ν) : IsList m emptyHeader [] :=
  ⟨trivial, rfl, rfl, rfl, List.nodup_nil⟩

/-- **Frame rule** for lists: writes to other nodes do not matter. -/
theorem IsList.frame {m m' : Links ν} {l : Header ν} {xs : List ν} (h : IsList m l xs)
    (same : ∀ x ∈ xs, m' x = m x) : IsList m' l xs :=
  { h with seg := h.seg.frame same }

/-- The nodes met by following `next` from `start`, for at most `fuel` nodes. -/
def walk (m : Links ν) : Nat → Option ν → List ν
  | 0, _ => []
  | _ + 1, none => []
  | fuel + 1, some x => x :: walk m fuel (m x).next

@[simp] theorem walk_none (m : Links ν) (fuel : Nat) : walk m fuel none = [] := by
  cases fuel <;> rfl

/-- A walk is no longer than its bound. -/
theorem walk_length_le (m : Links ν) (fuel : Nat) (start : Option ν) :
    (walk m fuel start).length ≤ fuel := by
  induction fuel generalizing start with
  | zero => exact Nat.le_refl 0
  | succ fuel ih =>
      cases start with
      | none => exact Nat.zero_le _
      | some x => exact Nat.succ_le_succ (ih _)

/-- Following `next` through a segment that ends in nothing yields its nodes. -/
theorem Seg.walk_eq {m : Links ν} {p : Option ν} {xs : List ν} (h : Seg m p xs none) {fuel : Nat}
    (hfuel : xs.length ≤ fuel) : walk m fuel xs.head? = xs := by
  induction xs generalizing p fuel with
  | nil => cases fuel <;> rfl
  | cons x xs ih =>
      cases fuel with
      | zero => simp at hfuel
      | succ fuel =>
          obtain ⟨-, hnext, hrest⟩ := h
          rw [List.head?_cons, walk, hnext, Option.or_none, ih hrest (by simpa using hfuel)]

/-- **Traversal rule.** Walking a represented list meets its nodes in order. -/
theorem IsList.walk_eq {m : Links ν} {l : Header ν} {xs : List ν} (h : IsList m l xs) {fuel : Nat}
    (hfuel : xs.length ≤ fuel) : walk m fuel l.head = xs := by
  rw [h.head]
  exact h.seg.walk_eq hfuel

/-- **What a traversal visits**: from `start` and along `step` the nodes `xs`, in order, and then
nothing. -/
def Visits (step : ν → Option ν) : Option ν → List ν → Prop
  | start, [] => start = none
  | start, x :: xs => start = some x ∧ Visits step (step x) xs

/-- A traversal depends on the steps from its nodes only. -/
theorem Visits.congr {step step' : ν → Option ν} {start : Option ν} {xs : List ν}
    (h : Visits step start xs) (same : ∀ x ∈ xs, step x = step' x) : Visits step' start xs := by
  induction xs generalizing start with
  | nil => exact h
  | cons x xs ih =>
      obtain ⟨rfl, hrest⟩ := h
      refine ⟨rfl, ?_⟩
      rw [← same x List.mem_cons_self]
      exact ih hrest fun y hy => same y (List.mem_cons_of_mem x hy)

/-- A bounded walk along `next` meets what a traversal visits. -/
theorem Visits.walk_eq {m : Links ν} {start : Option ν} {xs : List ν}
    (h : Visits (fun x => (m x).next) start xs) {fuel : Nat} (hfuel : xs.length ≤ fuel) :
    walk m fuel start = xs := by
  induction xs generalizing start fuel with
  | nil =>
      obtain rfl : start = none := h
      exact walk_none m fuel
  | cons x xs ih =>
      obtain ⟨rfl, hrest⟩ := h
      cases fuel with
      | zero => simp at hfuel
      | succ fuel => rw [walk, ih hrest (by simpa using hfuel)]

/-- **A traversal has one outcome.** -/
theorem Visits.unique {step : ν → Option ν} {start : Option ν} {xs ys : List ν}
    (h : Visits step start xs) (h' : Visits step start ys) : xs = ys := by
  induction xs generalizing start ys with
  | nil =>
      obtain rfl : start = none := h
      cases ys with
      | nil => rfl
      | cons y ys => cases h'.1
  | cons x xs ih =>
      obtain ⟨rfl, hrest⟩ := h
      cases ys with
      | nil => cases h'
      | cons y ys =>
          obtain ⟨hxy, hrest'⟩ := h'
          obtain rfl := Option.some.inj hxy
          rw [ih hrest hrest']

/-- A traversal starts from its first node. -/
theorem Visits.start_eq {step : ν → Option ν} {start : Option ν} {xs : List ν}
    (h : Visits step start xs) : start = xs.head? := by
  cases xs with
  | nil => exact h
  | cons x xs => exact h.1

/-- The rest of a traversal is one. -/
theorem Visits.suffix {step : ν → Option ν} {start : Option ν} {xs ys : List ν}
    (h : Visits step start (xs ++ ys)) : Visits step ys.head? ys := by
  induction xs generalizing start with
  | nil =>
      have hstart := Visits.start_eq h
      rw [List.nil_append] at hstart h
      rwa [hstart] at h
  | cons x xs ih => exact ih h.2

/-- A visited node is followed by the next one. -/
theorem Visits.step_eq {step : ν → Option ν} {start : Option ν} {as bs : List ν} {j : ν}
    (h : Visits step start (as ++ j :: bs)) : step j = bs.head? :=
  Visits.start_eq h.suffix.2

/-- **A traversal that ends meets no node twice**: from the second visit on it would go on as from
the first. -/
theorem Visits.nodup {step : ν → Option ν} {start : Option ν} {xs : List ν}
    (h : Visits step start xs) : xs.Nodup := by
  induction xs generalizing start with
  | nil => exact List.nodup_nil
  | cons x xs ih =>
      refine List.nodup_cons.mpr ⟨fun hmem => ?_, ih h.2⟩
      obtain ⟨as, bs, rfl⟩ := List.append_of_mem hmem
      have hfirst : Visits step (some x) (x :: (as ++ x :: bs)) := ⟨rfl, h.2⟩
      have hsecond : Visits step (some x) (x :: bs) := h.2.suffix
      have hlength := congrArg List.length (hfirst.unique hsecond)
      simp at hlength
      omega

/-- Along `next` a segment that ends in nothing is visited in its order. -/
theorem Seg.visits_next {m : Links ν} {p : Option ν} {xs : List ν} (h : Seg m p xs none) :
    Visits (fun x => (m x).next) xs.head? xs := by
  induction xs generalizing p with
  | nil => rfl
  | cons x xs ih =>
      obtain ⟨-, hnext, hrest⟩ := h
      refine ⟨rfl, ?_⟩
      show Visits _ (m x).next xs
      rw [hnext, Option.or_none]
      exact ih hrest

/-- Along `prev` a segment that starts from nothing is visited in the opposite order. -/
theorem Seg.visits_prev {m : Links ν} {q : Option ν} {xs : List ν} (h : Seg m none xs q) :
    Visits (fun x => (m x).prev) xs.getLast? xs.reverse := by
  -- the last node is visited first, so the induction takes it off
  induction xs using List.reverseRecOn generalizing q with
  | nil => rfl
  | append_singleton xs x ih =>
      obtain ⟨hrest, hprev, -⟩ := seg_append.mp h
      rw [List.reverse_append, List.getLast?_concat]
      refine ⟨rfl, ?_⟩
      show Visits _ (m x).prev xs.reverse
      rw [hprev, Option.or_none]
      exact ih hrest

/-- **Two traversals make a segment**: the nodes met along `next` are met along `prev` in the
opposite order. -/
theorem seg_of_visits {m : Links ν} {start last : Option ν} {xs : List ν}
    (forward : Visits (fun x => (m x).next) start xs)
    (backward : Visits (fun x => (m x).prev) last xs.reverse) : Seg m none xs none := by
  -- the induction keeps the nodes already passed, to read `prev` from the other traversal
  have hpart : ∀ as bs, xs = as ++ bs → Seg m as.getLast? bs none := by
    intro as bs
    induction bs generalizing as with
    | nil => exact fun _ => trivial
    | cons x bs ih =>
        intro hxs
        have hnext : (m x).next = bs.head? := by
          rw [hxs] at forward
          exact forward.step_eq
        have hprev : (m x).prev = as.getLast? := by
          rw [hxs, List.reverse_append, List.reverse_cons, List.append_assoc,
            List.singleton_append] at backward
          have h := backward.step_eq
          rwa [List.head?_reverse] at h
        refine ⟨hprev, by rw [hnext, Option.or_none], ?_⟩
        have hrest := ih (as ++ [x]) (by rw [hxs, List.append_assoc]; rfl)
        rwa [List.getLast?_concat] at hrest
  exact hpart [] xs rfl

/-- The first field of a member: no previous node exactly for the first member. -/
theorem IsList.prev_eq {m : Links ν} {l : Header ν} {as bs : List ν} {j : ν}
    (h : IsList m l (as ++ j :: bs)) : (m j).prev = as.getLast? := by
  obtain ⟨-, hprev, -, -⟩ := seg_append.mp h.seg
  simpa using hprev

/-- The second field of a member: no next node exactly for the last member. -/
theorem IsList.next_eq {m : Links ν} {l : Header ν} {as bs : List ν} {j : ν}
    (h : IsList m l (as ++ j :: bs)) : (m j).next = bs.head? := by
  obtain ⟨-, -, hnext, -⟩ := seg_append.mp h.seg
  simpa using hnext

end DoublyLinked
