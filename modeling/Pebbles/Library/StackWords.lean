import Pebbles.Library.ByteStores
import Mathlib.Data.Set.Card
import Mathlib.Order.CompletePartialOrder
import Mathlib.Order.Interval.Set.Basic

/-! # Words on a stack

Memory that is the same on a set of addresses (`Agree`), and words that lie one above the other in
memory (`WordsAt`): the words of a stack from its pointer upwards. Pushing puts words in front of
them (`WordsAt.push`), and nothing else changes (`agree_pushWords`). -/

namespace ByteStores

/-! ## Addresses -/

theorem add_toNat {x y : UInt32} (h : x.toNat + y.toNat < 2 ^ 32) :
    (x + y).toNat = x.toNat + y.toNat := by
  rw [UInt32.toNat_add, Nat.mod_eq_of_lt h]

theorem sub_toNat_of_le {x y : UInt32} (h : y.toNat ≤ x.toNat) :
    (x - y).toNat = x.toNat - y.toNat :=
  UInt32.toNat_sub_of_le _ _ (UInt32.le_iff_toNat_le.mpr h)

theorem add_four_toNat {x : UInt32} (h : x.toNat + 8 ≤ 2 ^ 32) : (x + 4).toNat = x.toNat + 4 :=
  add_toNat (by show x.toNat + 4 < 2 ^ 32; omega)

theorem four_mul_toNat {n : ℕ} (h : 4 * n < 2 ^ 32) : (4 * UInt32.ofNat n).toNat = 4 * n := by
  rw [UInt32.toNat_mul, UInt32.toNat_ofNat']
  show 4 * (n % 2 ^ 32) % 2 ^ 32 = 4 * n
  omega

/-! ## Memory that agrees -/

/-- Two memories have the same bytes at the addresses `S`. -/
def Agree (S : Set ℕ) (m m' : Image) : Prop := ∀ x : UInt32, x.toNat ∈ S → m' x = m x

namespace Agree

variable {S T : Set ℕ} {m m1 m2 : Image} {a w : UInt32}

theorem refl (S : Set ℕ) (m : Image) : Agree S m m := fun _ _ => rfl

theorem trans (h : Agree S m m1) (h' : Agree S m1 m2) : Agree S m m2 := fun x hx =>
  (h' x hx).trans (h x hx)

theorem mono (h : Agree S m m1) (sub : T ⊆ S) : Agree T m m1 := fun x hx => h x (sub hx)

theorem union (h : Agree S m m1) (h' : Agree T m m1) : Agree (S ∪ T) m m1 := fun x hx =>
  hx.elim (h x) (h' x)

/-- A word is the same when its bytes are. -/
theorem load (h : Agree S m m1) (ha : a.toNat + 4 ≤ 2 ^ 32)
    (hS : Set.Ico a.toNat (a.toNat + 4) ⊆ S) : load m1 a = load m a := by
  refine load_congr fun n hn => h _ (hS ?_)
  rw [UInt32.toNat_add, UInt32.toNat_ofNat', Nat.mod_eq_of_lt (by omega : n < 2 ^ 32),
    Nat.mod_eq_of_lt (by omega)]
  exact ⟨Nat.le_add_right _ _, by omega⟩

/-- A store leaves everything else. -/
theorem storeWord (ha : a.toNat + 4 ≤ 2 ^ 32) (hS : Disjoint S (Set.Ico a.toNat (a.toNat + 4))) :
    Agree S m (storeWord m a w) := by
  intro x hx
  refine storeBytes_of_le (by rw [length_wordBytes]; decide) ?_
  have hout : ¬ (a.toNat ≤ x.toNat ∧ x.toNat < a.toNat + 4) := fun h =>
    Set.disjoint_left.mp hS hx h
  have hlt := x.toNat_lt
  rw [length_wordBytes, sub_toNat]
  omega

end Agree

/-! ## Words one above the other -/

/-- **The words from an address upwards.** -/
def WordsAt (m : Image) (a : UInt32) : List UInt32 → Prop
  | [] => True
  | w :: ws => load m a = w ∧ WordsAt m (a + 4) ws

/-- Words are pushed, one after another. -/
def pushWords (m : Image) (sp : UInt32) : List UInt32 → Image
  | [] => m
  | w :: ws => pushWords (storeWord m (sp - 4) w) (sp - 4) ws

variable {m m1 : Image} {a w sp : UInt32} {ws vs : List UInt32} {S : Set ℕ}

theorem sub_four_toNat (h : 4 ≤ sp.toNat) : (sp - 4).toNat = sp.toNat - 4 := sub_toNat_of_le h

/-- **Frame**: words stay when memory agrees on them. -/
theorem WordsAt.frame (h : WordsAt m a ws) (agree : Agree S m m1)
    (fits : a.toNat + 4 * ws.length ≤ 2 ^ 32)
    (hS : Set.Ico a.toNat (a.toNat + 4 * ws.length) ⊆ S) : WordsAt m1 a ws := by
  induction ws generalizing a with
  | nil => trivial
  | cons w ws ih =>
      rw [List.length_cons] at fits hS
      refine ⟨?_, ?_⟩
      · rw [← h.1]
        exact agree.load (by omega) fun x hx => hS ⟨hx.1, by have := hx.2; omega⟩
      · cases ws with
        | nil => trivial
        | cons v ws =>
            rw [List.length_cons] at fits hS ih
            have hnext : (a + 4).toNat = a.toNat + 4 := add_four_toNat (by omega)
            refine ih h.2 (by omega) fun x hx => hS ⟨?_, ?_⟩
            · have := hx.1
              omega
            · have := hx.2
              omega

theorem WordsAt.append_iff : WordsAt m a (ws ++ vs) ↔
    WordsAt m a ws ∧ WordsAt m (a + 4 * UInt32.ofNat ws.length) vs := by
  induction ws generalizing a with
  | nil => simp [WordsAt]
  | cons w ws ih =>
      have hnext : a + 4 + 4 * UInt32.ofNat ws.length = a + 4 * UInt32.ofNat (ws.length + 1) := by
        rw [UInt32.ofNat_add, UInt32.mul_add, UInt32.add_assoc, UInt32.add_comm 4]
        rfl
      rw [List.cons_append, WordsAt, WordsAt, ih, List.length_cons, hnext, and_assoc]

/-- **A word is pushed.** -/
theorem WordsAt.push (h : WordsAt m sp ws) (room : 4 ≤ sp.toNat)
    (fits : sp.toNat + 4 * ws.length ≤ 2 ^ 32) (w : UInt32) :
    WordsAt (storeWord m (sp - 4) w) (sp - 4) (w :: ws) := by
  have hsp := sub_four_toNat room
  refine ⟨load_storeWord _ _ _, ?_⟩
  rw [UInt32.sub_add_cancel]
  refine h.frame (Agree.storeWord (S := Set.Ici sp.toNat) (by omega) ?_) fits fun x hx => hx.1
  refine Set.disjoint_left.mpr fun x hx hx' => ?_
  have h1 : sp.toNat ≤ x := hx
  have h2 := hx'.2
  omega

/-- Nothing but the words that are pushed changes. -/
theorem agree_pushWords (m : Image) (ws : List UInt32) (room : 4 * ws.length ≤ sp.toNat) :
    Agree (Set.Ico (sp.toNat - 4 * ws.length) sp.toNat)ᶜ m (pushWords m sp ws) := by
  induction ws generalizing m sp with
  | nil => exact Agree.refl _ _
  | cons w ws ih =>
      rw [List.length_cons] at room ⊢
      have hlt := sp.toNat_lt
      have hsp : (sp - 4).toNat = sp.toNat - 4 := sub_four_toNat (by omega)
      refine Agree.trans (Agree.storeWord (by omega) ?_) ((ih (storeWord m (sp - 4) w)
        (by omega)).mono ?_)
      · refine Set.disjoint_left.mpr fun x hx hx' => hx ⟨?_, ?_⟩
        · have := hx'.1
          omega
        · have := hx'.2
          omega
      · refine Set.compl_subset_compl.mpr fun x hx => ⟨?_, ?_⟩
        · have := hx.1
          omega
        · have := hx.2
          omega

/-- **Words are pushed**: the last one is the first one from the pointer upwards. -/
theorem WordsAt.pushWords (h : WordsAt m sp vs) (ws : List UInt32)
    (room : 4 * ws.length ≤ sp.toNat) (fits : sp.toNat + 4 * vs.length ≤ 2 ^ 32) :
    WordsAt (ByteStores.pushWords m sp ws) (sp - 4 * UInt32.ofNat ws.length)
      (ws.reverse ++ vs) := by
  induction ws generalizing m sp vs with
  | nil => simpa [ByteStores.pushWords] using h
  | cons w ws ih =>
      rw [List.length_cons] at room
      have hsp : (sp - 4).toNat = sp.toNat - 4 := sub_four_toNat (by omega)
      have hpush := ih (h.push (by omega) fits w) (by omega) (by rw [List.length_cons]; omega)
      have hptr : sp - 4 - 4 * UInt32.ofNat ws.length = sp - 4 * UInt32.ofNat (ws.length + 1) := by
        have hmul : 4 * UInt32.ofNat (ws.length + 1) = 4 * UInt32.ofNat ws.length + 4 := by
          rw [UInt32.ofNat_add, UInt32.mul_add]
          rfl
        rw [hmul, UInt32.sub_eq_iff_eq_add, UInt32.sub_eq_iff_eq_add, UInt32.add_assoc,
          UInt32.sub_add_cancel]
      rw [List.length_cons, ← hptr, List.reverse_cons, List.append_assoc]
      exact hpush

/-! ## Words that are copied -/

/-- The bytes of a word. -/
abbrev cell (a : UInt32) : Set ℕ := Set.Ico a.toNat (a.toNat + 4)

/-- A store leaves a word that it does not overlap. -/
theorem load_storeWord_of_cell {b : UInt32} (ha : a.toNat + 4 ≤ 2 ^ 32)
    (hb : b.toNat + 4 ≤ 2 ^ 32) (h : Disjoint (cell a) (cell b)) :
    load (storeWord m a w) b = load m b :=
  (Agree.storeWord ha h.symm).load hb subset_rfl

/-- Words are copied, one after another: pairs of a destination and a source. -/
def copyWords (m : Image) : List (UInt32 × UInt32) → Image
  | [] => m
  | (d, s) :: ps => copyWords (storeWord m d (load m s)) ps

variable {ps : List (UInt32 × UInt32)}

/-- Nothing but the destinations changes. -/
theorem agree_copyWords (m : Image) (fits : ∀ p ∈ ps, p.1.toNat + 4 ≤ 2 ^ 32)
    (apart : ∀ p ∈ ps, Disjoint S (cell p.1)) : Agree S m (copyWords m ps) := by
  induction ps generalizing m with
  | nil => exact Agree.refl _ _
  | cons p ps ih =>
      exact (Agree.storeWord (fits p List.mem_cons_self) (apart p List.mem_cons_self)).trans
        (ih _ (fun q hq => fits q (List.mem_cons_of_mem p hq))
          fun q hq => apart q (List.mem_cons_of_mem p hq))

/-- **Words are copied**: each destination has the word of its source. -/
theorem load_copyWords (m : Image) {d s : UInt32} (hp : (d, s) ∈ ps)
    (fits : ∀ q ∈ ps, q.1.toNat + 4 ≤ 2 ^ 32 ∧ q.2.toNat + 4 ≤ 2 ^ 32)
    (sources : ∀ q ∈ ps, ∀ r ∈ ps, Disjoint (cell q.1) (cell r.2))
    (apart : ps.Pairwise fun q r => Disjoint (cell q.1) (cell r.1)) :
    load (copyWords m ps) d = load m s := by
  induction ps generalizing m with
  | nil => exact absurd hp List.not_mem_nil
  | cons q ps ih =>
      obtain ⟨hq, hps⟩ := List.pairwise_cons.mp apart
      have hself : q ∈ q :: ps := List.mem_cons_self
      have htail : ∀ r ∈ ps, r ∈ q :: ps := fun r hr => List.mem_cons_of_mem q hr
      rw [copyWords]
      rcases List.mem_cons.mp hp with rfl | hp
      · have hrest := agree_copyWords (S := cell d) (storeWord m d (load m s))
          (fun r hr => (fits r (htail r hr)).1) hq
        rw [hrest.load (fits _ hself).1 subset_rfl, load_storeWord]
      · rw [ih _ hp (fun r hr => fits r (htail r hr))
          (fun r hr u hu => sources r (htail r hr) u (htail u hu)) hps]
        exact load_storeWord_of_cell (fits q hself).1 (fits _ (htail _ hp)).2
          (sources q hself _ (htail _ hp))

end ByteStores
