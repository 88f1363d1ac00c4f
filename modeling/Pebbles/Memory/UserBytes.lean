import Pebbles.Library.ByteStores
import Pebbles.Memory.PageContents

/-! # Bytes at virtual addresses

The kernel reads and writes user memory through the page directory in `cr3`. Here is what `memcpy`
and `memset` do there, byte by byte, as long as no two pages of the user half share a frame:
`PagedMem.storeBytes_spec` for one call and `PagedMem.storeAll_spec` for calls that write to
disjoint ranges. -/

namespace Pebbles.Memory

open ByteStores

/-- The page of an address. -/
def pageOf (a : UInt32) : Nat × Nat := (vaPdInd a.toNat, vaPtInd a.toNat)

/-- A page of the user half. -/
structure UserPage (p : Nat × Nat) : Prop where
  /-- It is above the kernel. -/
  user : 4 ≤ p.1
  /-- Its entry in the page directory. -/
  directory : p.1 < pageLen
  /-- Its entry in the page table. -/
  table : p.2 < pageLen

namespace PagedMem

/-- The byte at an address; where no page is mapped the access faults. -/
def byteAt (s : PagedMem) (a : UInt32) : Option UInt8 :=
  (s.memory.translate (pageOf a)).map fun f => s.bytes f (a.toNat % pageSize)

/-- A byte is stored at an address. -/
def storeByte (s : PagedMem) (a : UInt32) (b : UInt8) : Option PagedMem :=
  (s.memory.translate (pageOf a)).map fun f =>
    { s with bytes :=
      Function.update s.bytes f (Function.update (s.bytes f) (a.toNat % pageSize) b) }

/-- Bytes are stored one after another, as `memcpy` and `memset` do. -/
def storeBytes (s : PagedMem) (a : UInt32) : List UInt8 → Option PagedMem
  | [] => some s
  | b :: bs => (s.storeByte a b).bind fun s => s.storeBytes (a + 1) bs

/-- Several calls. -/
def storeAll (s : PagedMem) (l : List (UInt32 × List UInt8)) : Option PagedMem :=
  l.foldlM (fun s w => s.storeBytes w.1 w.2) s

end PagedMem

/-- **The user half consists of the pages `P`**, each with a frame of its own. -/
structure UserPages (m : PhysMem) (P : Nat × Nat → Prop) : Prop where
  /-- The pages. -/
  mapped : ∀ p, UserPage p → P p → ∃ f, m.translate p = some f
  /-- There are no others. -/
  unmapped : ∀ p, UserPage p → ¬ P p → m.translate p = none
  /-- No two of them share a frame. -/
  distinct : ∀ p q f, UserPage p → UserPage q → m.translate p = some f → m.translate q = some f →
    p = q

/-- The bytes of a call go to pages that are mapped. -/
structure WritesTo (P : Nat × Nat → Prop) (w : UInt32 × List UInt8) : Prop where
  /-- They fit into the address space. -/
  fits : w.2.length < 2 ^ 32
  /-- They are in the user half. -/
  user : ∀ k < w.2.length, userMemStart ≤ (w.1 + UInt32.ofNat k).toNat
  /-- Their pages. -/
  pages : ∀ k < w.2.length, P (pageOf (w.1 + UInt32.ofNat k))

/-- Two calls write to different bytes. -/
def Apart (w w' : UInt32 × List UInt8) : Prop :=
  ∀ k < w.2.length, w'.2.length ≤ (w.1 + UInt32.ofNat k - w'.1).toNat

section
variable {s s1 : PagedMem} {P : Nat × Nat → Prop} {a x : UInt32} {b : UInt8} {bs : List UInt8}
  {w : UInt32 × List UInt8} {l : List (UInt32 × List UInt8)}

/-! ## Addresses -/

/-- The page of a user address. -/
theorem userPage_pageOf (ha : userMemStart ≤ a.toNat) : UserPage (pageOf a) := by
  have hlt := a.toNat_lt
  rw [userMemStart] at ha
  refine ⟨?_, ?_, vaPtInd_lt a.toNat⟩
  · show 4 ≤ vaPdInd a.toNat
    rw [vaPdInd_eq]
    omega
  · show vaPdInd a.toNat < pageLen
    rw [vaPdInd_eq, pageLen]
    omega

/-- An address is given by its page and its place in the page. -/
theorem pageOf_inj (hpage : pageOf a = pageOf x)
    (hplace : a.toNat % pageSize = x.toNat % pageSize) : a = x := by
  obtain ⟨hdir, htab⟩ := Prod.mk.inj hpage
  have ha := vaPdInd_mul_add a.toNat
  have hx := vaPdInd_mul_add x.toNat
  rw [hdir, htab, hx] at ha
  rw [pageSize] at hplace
  apply UInt32.toNat.inj
  omega

/-! ## Stores -/

namespace PagedMem

/-- **One byte is stored.** -/
theorem storeByte_spec (h : UserPages s.memory P) (ha : userMemStart ≤ a.toNat)
    (hpage : P (pageOf a)) (b : UInt8) :
    ∃ s1, s.storeByte a b = some s1 ∧ s1.memory = s.memory ∧
      ∀ x, userMemStart ≤ x.toNat → s1.byteAt x = if x = a then some b else s.byteAt x := by
  obtain ⟨f, hf⟩ := h.mapped _ (userPage_pageOf ha) hpage
  refine ⟨⟨s.memory, Function.update s.bytes f
    (Function.update (s.bytes f) (a.toNat % pageSize) b)⟩, ?_, rfl, fun x hx => ?_⟩
  · rw [storeByte, hf]
    rfl
  rw [byteAt, byteAt]
  cases hg : s.memory.translate (pageOf x) with
  | none =>
      have hne : x ≠ a := by
        rintro rfl
        rw [hf] at hg
        cases hg
      rw [if_neg hne]
      rfl
  | some g =>
      dsimp only [Option.map_some]
      by_cases hgf : g = f
      · -- the page of the store, and its byte or another one
        subst hgf
        have hsame := h.distinct _ _ g (userPage_pageOf hx) (userPage_pageOf ha) hg hf
        rw [Function.update_self, Function.update_apply]
        by_cases hxa : x = a
        · rw [if_pos hxa, if_pos (by rw [hxa])]
        · rw [if_neg hxa, if_neg fun hplace => hxa (pageOf_inj hsame hplace)]
      · have hne : x ≠ a := by
          rintro rfl
          exact hgf (Option.some.inj (hg.symm.trans hf))
        rw [Function.update_of_ne hgf, if_neg hne]

/-- **The rule of `memcpy` and `memset`** on user memory. -/
theorem storeBytes_spec (h : UserPages s.memory P) (hw : WritesTo P (a, bs)) :
    ∃ s1, s.storeBytes a bs = some s1 ∧ s1.memory = s.memory ∧
      ∀ x, userMemStart ≤ x.toNat → s1.byteAt x = (bs[(x - a).toNat]?).or (s.byteAt x) := by
  induction bs generalizing s a with
  | nil => exact ⟨s, rfl, rfl, fun x _ => rfl⟩
  | cons b bs ih =>
      have hlen : bs.length + 1 < 2 ^ 32 := hw.fits
      have hzero : a + UInt32.ofNat 0 = a := UInt32.add_zero a
      have hfirst := hw.user 0 (Nat.succ_pos _)
      have hpage := hw.pages 0 (Nat.succ_pos _)
      rw [hzero] at hfirst hpage
      obtain ⟨s1, hbyte, hmem, hread⟩ := storeByte_spec h hfirst hpage b
      have hnext : ∀ k, a + 1 + UInt32.ofNat k = a + UInt32.ofNat (k + 1) := by
        intro k
        rw [Nat.add_comm, UInt32.ofNat_add, ← UInt32.add_assoc]
        rfl
      obtain ⟨s2, hrest, hmem2, hread2⟩ := ih (s := s1) (a := a + 1) (hmem ▸ h)
        ⟨Nat.lt_of_succ_lt hlen, fun k hk => hnext k ▸ hw.user (k + 1) (Nat.succ_lt_succ hk),
          fun k hk => hnext k ▸ hw.pages (k + 1) (Nat.succ_lt_succ hk)⟩
      refine ⟨s2, by rw [storeBytes, hbyte, Option.bind_some, hrest], hmem2.trans hmem,
        fun x hx => ?_⟩
      rw [hread2 x hx, hread x hx, getElem?_cons_sub]
      by_cases hxa : x = a
      · rw [if_pos hxa, if_pos hxa, hxa, getElem?_sub_next a (Nat.lt_of_succ_lt hlen)]
        rfl
      · rw [if_neg hxa, if_neg hxa]

/-- **The rule of several calls** that write to different bytes. -/
theorem storeAll_spec (h : UserPages s.memory P) (hl : ∀ w ∈ l, WritesTo P w)
    (hapart : l.Pairwise Apart) :
    ∃ s1, s.storeAll l = some s1 ∧ s1.memory = s.memory ∧
      (∀ w ∈ l, ∀ k, (hk : k < w.2.length) → s1.byteAt (w.1 + UInt32.ofNat k) = some w.2[k]) ∧
      ∀ x, userMemStart ≤ x.toNat → (∀ w ∈ l, w.2.length ≤ (x - w.1).toNat) →
        s1.byteAt x = s.byteAt x := by
  induction l generalizing s with
  | nil => exact ⟨s, rfl, rfl, nofun, fun x _ _ => rfl⟩
  | cons w l ih =>
      obtain ⟨hfirst, hapart'⟩ := List.pairwise_cons.mp hapart
      have hw := hl w List.mem_cons_self
      obtain ⟨s1, hstore, hmem, hread⟩ := storeBytes_spec h hw
      obtain ⟨s2, hrest, hmem2, hwrites, hsame⟩ := ih (s := s1) (hmem ▸ h)
        (fun w' hw' => hl w' (List.mem_cons_of_mem w hw')) hapart'
      have hcall : s.storeAll (w :: l) = some s2 := by
        show (s.storeBytes w.1 w.2).bind (fun s => s.storeAll l) = some s2
        rw [hstore, Option.bind_some, hrest]
      refine ⟨s2, hcall, hmem2.trans hmem, fun w' hw' k hk => ?_, fun x hx hout => ?_⟩
      · rcases List.mem_cons.mp hw' with rfl | hw'
        · rw [hsame _ (hw.user k hk) fun v hv => hfirst v hv k hk, hread _ (hw.user k hk),
            add_sub_toNat _ (hk.trans hw.fits), List.getElem?_eq_getElem hk]
          rfl
        · exact hwrites w' hw' k hk
      · rw [hsame x hx fun w' hw' => hout w' (List.mem_cons_of_mem w hw'), hread x hx,
          List.getElem?_eq_none (hout w List.mem_cons_self)]
        rfl

end PagedMem

end

end Pebbles.Memory
