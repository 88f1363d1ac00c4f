import Mathlib.Data.List.Basic
import Mathlib.Logic.Function.Basic
import Mathlib.Tactic.Common
import Mathlib.Tactic.IntervalCases

/-! # Stores of bytes and words in a 32-bit address space

An image is a byte at each address. A list of bytes is stored from an address upwards, and addresses
wrap around at the end; what is then at an address depends on its distance from the first one. Words
are stored with the lowest byte first. -/

namespace ByteStores

/-- **An image** of the address space. -/
abbrev Image := UInt32 → UInt8

/-- Bytes are stored one after another. -/
def storeBytes (m : Image) (a : UInt32) : List UInt8 → Image
  | [] => m
  | b :: bs => storeBytes (Function.update m a b) (a + 1) bs

/-- The bytes of a word. -/
def wordBytes (w : UInt32) : List UInt8 :=
  [UInt8.ofNat w.toNat, UInt8.ofNat (w.toNat / 2 ^ 8), UInt8.ofNat (w.toNat / 2 ^ 16),
    UInt8.ofNat (w.toNat / 2 ^ 24)]

/-- The word of four bytes. -/
def wordOf (b0 b1 b2 b3 : UInt8) : UInt32 :=
  UInt32.ofNat (b0.toNat + 2 ^ 8 * b1.toNat + 2 ^ 16 * b2.toNat + 2 ^ 24 * b3.toNat)

/-- The word at an address. -/
def load (m : Image) (a : UInt32) : UInt32 := wordOf (m a) (m (a + 1)) (m (a + 2)) (m (a + 3))

/-- A word is stored. -/
def storeWord (m : Image) (a w : UInt32) : Image := storeBytes m a (wordBytes w)

variable {m : Image} {a b x w : UInt32} {bs : List UInt8}

/-! ## Distances -/

theorem sub_toNat (x a : UInt32) : (x - a).toNat = (x.toNat + (2 ^ 32 - a.toNat)) % 2 ^ 32 := by
  rw [UInt32.toNat_sub, Nat.add_comm]

/-- The distance of an address that is given by its distance. -/
theorem add_sub_toNat {n : Nat} (a : UInt32) (hn : n < 2 ^ 32) :
    (a + UInt32.ofNat n - a).toNat = n := by
  have ha := a.toNat_lt
  rw [sub_toNat, UInt32.toNat_add, UInt32.toNat_ofNat']
  omega

/-- An address is given by its distance. -/
theorem add_ofNat_sub (x a : UInt32) : a + UInt32.ofNat (x - a).toNat = x := by
  apply UInt32.toNat.inj
  have ha := a.toNat_lt
  have hx := x.toNat_lt
  rw [UInt32.toNat_add, UInt32.toNat_ofNat', sub_toNat]
  omega

/-- The distance from an address further up. -/
theorem sub_add_toNat {n : Nat} (hn : n ≤ (x - a).toNat) :
    (x - (a + UInt32.ofNat n)).toNat = (x - a).toNat - n := by
  have ha := a.toNat_lt
  have hx := x.toNat_lt
  rw [sub_toNat] at hn ⊢
  rw [sub_toNat, UInt32.toNat_add, UInt32.toNat_ofNat']
  omega

/-! ## Bytes -/

/-- **One element more**, at the first address: the rest does not come around to it. -/
theorem getElem?_cons_sub {β : Type*} {b : β} {bs : List β} (x a : UInt32) :
    (b :: bs)[(x - a).toNat]? = if x = a then some b else bs[(x - (a + 1)).toNat]? := by
  by_cases hx : x = a
  · have hzero : (x - a).toNat = 0 := by rw [hx, UInt32.sub_self, UInt32.toNat_zero]
    rw [hzero, if_pos hx]
    rfl
  · have hpos : 1 ≤ (x - a).toNat := by
      refine Nat.one_le_iff_ne_zero.mpr fun hzero => hx ?_
      rw [← add_ofNat_sub x a, hzero]
      exact UInt32.add_zero a
    have hnext : (x - (a + 1)).toNat = (x - a).toNat - 1 := sub_add_toNat hpos
    obtain ⟨n, hn⟩ : ∃ n, (x - a).toNat = n + 1 := ⟨_, (Nat.sub_add_cancel hpos).symm⟩
    rw [hnext, hn, Nat.add_sub_cancel, List.getElem?_cons_succ, if_neg hx]

/-- The address after the first one is the last one to be reached. -/
theorem getElem?_sub_next {β : Type*} {bs : List β} (a : UInt32) (hlen : bs.length < 2 ^ 32) :
    bs[(a - (a + 1)).toNat]? = none := by
  have hfar : (a - (a + 1)).toNat = 2 ^ 32 - 1 := by
    have ha := a.toNat_lt
    rw [sub_toNat, UInt32.toNat_add, UInt32.toNat_one]
    omega
  exact List.getElem?_eq_none (by omega)

/-- **What is at an address after a store.** -/
theorem storeBytes_apply (m : Image) (a x : UInt32) (hlen : bs.length ≤ 2 ^ 32) :
    storeBytes m a bs x = (bs[(x - a).toNat]?).getD (m x) := by
  induction bs generalizing m a with
  | nil => rfl
  | cons b bs ih =>
      rw [List.length_cons] at hlen
      rw [storeBytes, ih _ _ (by omega), getElem?_cons_sub x a]
      by_cases hx : x = a
      · rw [if_pos hx, hx, getElem?_sub_next a (by omega), Function.update_self]
        rfl
      · rw [if_neg hx, Function.update_of_ne hx]

/-- A store changes nothing outside its range. -/
theorem storeBytes_of_le (hlen : bs.length ≤ 2 ^ 32) (hx : bs.length ≤ (x - a).toNat) :
    storeBytes m a bs x = m x := by
  rw [storeBytes_apply m a x hlen, List.getElem?_eq_none hx]
  rfl

/-- The bytes that were stored. -/
theorem storeBytes_of_lt {n : Nat} (hlen : bs.length ≤ 2 ^ 32) (hn : n < bs.length) :
    storeBytes m a bs (a + UInt32.ofNat n) = bs[n] := by
  rw [storeBytes_apply m a _ hlen, add_sub_toNat a (by omega), List.getElem?_eq_getElem hn]
  rfl

/-! ## Words -/

theorem length_wordBytes (w : UInt32) : (wordBytes w).length = 4 := rfl

/-- The word of the bytes of a word. -/
theorem wordOf_wordBytes (w : UInt32) :
    wordOf (UInt8.ofNat w.toNat) (UInt8.ofNat (w.toNat / 2 ^ 8)) (UInt8.ofNat (w.toNat / 2 ^ 16))
      (UInt8.ofNat (w.toNat / 2 ^ 24)) = w := by
  apply UInt32.toNat.inj
  have hw := w.toNat_lt
  rw [wordOf, UInt32.toNat_ofNat', UInt8.toNat_ofNat', UInt8.toNat_ofNat', UInt8.toNat_ofNat',
    UInt8.toNat_ofNat']
  omega

/-- The bytes of the word of four bytes. -/
theorem wordBytes_wordOf (b0 b1 b2 b3 : UInt8) :
    wordBytes (wordOf b0 b1 b2 b3) = [b0, b1, b2, b3] := by
  have h0 := b0.toNat_lt
  have h1 := b1.toNat_lt
  have h2 := b2.toNat_lt
  have h3 := b3.toNat_lt
  have hword : (wordOf b0 b1 b2 b3).toNat =
      b0.toNat + 2 ^ 8 * b1.toNat + 2 ^ 16 * b2.toNat + 2 ^ 24 * b3.toNat := by
    rw [wordOf, UInt32.toNat_ofNat']
    omega
  have hbyte : ∀ (c : UInt8) (n : Nat), n % 2 ^ 8 = c.toNat → UInt8.ofNat n = c := by
    intro c n hn
    apply UInt8.toNat.inj
    rw [UInt8.toNat_ofNat', hn]
  rw [wordBytes, hword, hbyte b0 _ (by omega), hbyte b1 _ (by omega), hbyte b2 _ (by omega),
    hbyte b3 _ (by omega)]

/-- **The word at an address** is given by the four bytes there. -/
theorem load_eq_iff :
    load m a = w ↔ ∀ n, (hn : n < 4) → m (a + UInt32.ofNat n) = (wordBytes w)[n] := by
  constructor
  · rintro rfl n hn
    have hbytes : wordBytes (load m a) = [m a, m (a + 1), m (a + 2), m (a + 3)] :=
      wordBytes_wordOf ..
    have ha : a + UInt32.ofNat 0 = a := UInt32.add_zero a
    simp only [hbytes]
    interval_cases n
    · rw [ha]
      rfl
    · rfl
    · rfl
    · rfl
  · intro h
    have ha : a + UInt32.ofNat 0 = a := UInt32.add_zero a
    have h0 := h 0 (by decide)
    rw [ha] at h0
    have h1 := h 1 (by decide)
    have h2 := h 2 (by decide)
    have h3 := h 3 (by decide)
    show wordOf (m a) (m (a + 1)) (m (a + 2)) (m (a + 3)) = w
    change m (a + 1) = _ at h1
    change m (a + 2) = _ at h2
    change m (a + 3) = _ at h3
    rw [h0, h1, h2, h3]
    exact wordOf_wordBytes w

/-- Words are equal when their bytes are. -/
theorem load_congr {m' : Image} (h : ∀ n < 4, m' (a + UInt32.ofNat n) = m (a + UInt32.ofNat n)) :
    load m' a = load m a :=
  load_eq_iff.mpr fun n hn => (h n hn).trans (load_eq_iff.mp rfl n hn)

/-- **The word that was stored.** -/
theorem load_storeWord (m : Image) (a w : UInt32) : load (storeWord m a w) a = w :=
  load_eq_iff.mpr fun _ hn => storeBytes_of_lt (by rw [length_wordBytes]; decide) hn

/-- A word elsewhere. -/
theorem load_storeWord_of_disjoint (h : 4 ≤ (b - a).toNat) (h' : 4 ≤ (a - b).toNat) :
    load (storeWord m a w) b = load m b := by
  refine load_congr fun n hn => storeBytes_of_le (by rw [length_wordBytes]; decide) ?_
  have ha := a.toNat_lt
  have hb := b.toNat_lt
  rw [sub_toNat] at h h' ⊢
  rw [UInt32.toNat_add, UInt32.toNat_ofNat', length_wordBytes]
  omega

/-! ## Arrays of words -/

theorem length_flatMap_wordBytes (ws : List UInt32) :
    (ws.flatMap wordBytes).length = 4 * ws.length := by
  induction ws with
  | nil => rfl
  | cons w ws ih =>
      rw [List.flatMap_cons, List.length_append, length_wordBytes, ih, List.length_cons]
      omega

/-- The bytes of an array. -/
theorem getElem?_flatMap_wordBytes {ws : List UInt32} {k n : Nat} (hk : k < ws.length)
    (hn : n < 4) : (ws.flatMap wordBytes)[4 * k + n]? = (wordBytes ws[k])[n]? := by
  induction ws generalizing k with
  | nil => exact absurd hk (Nat.not_lt_zero k)
  | cons w ws ih =>
      rw [List.flatMap_cons]
      cases k with
      | zero =>
          rw [List.getElem?_append_left (by rw [length_wordBytes]; omega), Nat.mul_zero,
            Nat.zero_add]
          rfl
      | succ k =>
          rw [List.getElem?_append_right (by rw [length_wordBytes]; omega), length_wordBytes,
            List.getElem_cons_succ, ← ih (Nat.lt_of_succ_lt_succ hk)]
          congr 1
          omega

/-- **The words of an array that was stored.** -/
theorem load_storeBytes_flatMap {ws : List UInt32} {k : Nat} (hlen : 4 * ws.length ≤ 2 ^ 32)
    (hk : k < ws.length) :
    load (storeBytes m a (ws.flatMap wordBytes)) (a + UInt32.ofNat (4 * k)) = ws[k] := by
  refine load_eq_iff.mpr fun n hn => ?_
  have hindex : 4 * k + n < (ws.flatMap wordBytes).length := by
    rw [length_flatMap_wordBytes]
    omega
  rw [UInt32.add_assoc, ← UInt32.ofNat_add,
    storeBytes_of_lt (by rw [length_flatMap_wordBytes]; exact hlen) hindex]
  apply Option.some.inj
  rw [← List.getElem?_eq_getElem hindex, getElem?_flatMap_wordBytes hk hn]
  exact List.getElem?_eq_getElem (by rwa [length_wordBytes])

end ByteStores
