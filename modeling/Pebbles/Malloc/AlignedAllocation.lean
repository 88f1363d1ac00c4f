import Mathlib.Data.Nat.Bitwise
import Pebbles.Malloc.Allocation

/-! # Allocation at an aligned address

What `lmm_alloc_gen` does in one region: the alignment loop finds the next address with the low bits
asked for (`alignAddr_spec`), and the node is split in front of the block and behind it. The block
is found whenever there is one (`Region.Holds.allocGen`). -/

namespace Pebbles.Malloc

open ByteStores FreeLists

variable {r : Region} {m : Image} {l before after : List Chunk} {c : Chunk} {link : Link}
  {node : UInt32}

/-! ## Alignment of a block -/

theorem bit_toNat {i : ℕ} (hi : i < 32) : ((1 : UInt32) <<< UInt32.ofNat i).toNat = 2 ^ i := by
  rw [UInt32.toNat_shiftLeft, UInt32.toNat_ofNat', Nat.mod_eq_of_lt (by omega : i < 2 ^ 32),
    Nat.mod_eq_of_lt hi, UInt32.toNat_one, Nat.one_shiftLeft,
    Nat.mod_eq_of_lt (Nat.pow_lt_pow_right (by decide) hi)]

/-- The test of a bit. -/
theorem xor_and_bit_ne_zero {a ofs : UInt32} {i : ℕ} (hi : i < 32) :
    (a ^^^ ofs) &&& (1 <<< UInt32.ofNat i) ≠ 0 ↔ a.toNat.testBit i ≠ ofs.toNat.testBit i := by
  have hnat : ((a ^^^ ofs) &&& ((1 : UInt32) <<< UInt32.ofNat i)).toNat =
      2 ^ i * (a.toNat.testBit i ^^ ofs.toNat.testBit i).toNat := by
    rw [UInt32.toNat_and, bit_toNat hi, UInt32.toNat_xor, Nat.and_two_pow, Nat.testBit_xor,
      Nat.mul_comm]
  rw [ne_eq, ← UInt32.toNat_inj, hnat, UInt32.toNat_zero]
  cases a.toNat.testBit i <;> cases ofs.toNat.testBit i <;> simp

/-- **The alignment loop** finds the next address with the low bits asked for. -/
theorem alignAddr_spec {addr ofs : UInt32} {bits : ℕ} (hbits : bits ≤ 32)
    (hroom : addr.toNat + 2 ^ bits ≤ 2 ^ 32) :
    addr.toNat ≤ (alignAddr addr ofs bits).toNat ∧
      (alignAddr addr ofs bits).toNat < addr.toNat + 2 ^ bits ∧
      (alignAddr addr ofs bits).toNat % 2 ^ bits = ofs.toNat % 2 ^ bits := by
  induction bits with
  | zero => exact ⟨le_rfl, Nat.lt_succ_self _, by rw [pow_zero, Nat.mod_one, Nat.mod_one]⟩
  | succ i ih =>
      have hpow : 2 ^ (i + 1) = 2 * 2 ^ i := Nat.pow_succ'
      obtain ⟨hle, hlt, hmod⟩ := ih (by omega) (by omega)
      set a := alignAddr addr ofs i with ha
      have hstep : alignAddr addr ofs (i + 1) =
          if (a ^^^ ofs) &&& ((1 : UInt32) <<< UInt32.ofNat i) ≠ 0
            then a + (1 : UInt32) <<< UInt32.ofNat i else a := rfl
      have hbitpos : 0 < 2 ^ i := Nat.two_pow_pos i
      rw [hstep]
      by_cases hbit : (a ^^^ ofs) &&& ((1 : UInt32) <<< UInt32.ofNat i) ≠ 0
      · rw [if_pos hbit]
        have hne := (xor_and_bit_ne_zero (by omega)).mp hbit
        have hadd : (a + (1 : UInt32) <<< UInt32.ofNat i).toNat = a.toNat + 2 ^ i := by
          rw [add_toNat (by rw [bit_toNat (by omega)]; omega), bit_toNat (by omega)]
        rw [hadd]
        refine ⟨by omega, by omega, ?_⟩
        -- adding the bit flips it, and leaves those below
        have hflip : (a.toNat / 2 ^ i + 1) % 2 = ofs.toNat / 2 ^ i % 2 := by
          rw [Nat.testBit_eq_decide_div_mod_eq, Nat.testBit_eq_decide_div_mod_eq, ne_eq,
            decide_eq_decide] at hne
          omega
        rw [Nat.pow_succ, Nat.mod_mul, Nat.mod_mul, Nat.add_mod_right, hmod,
          Nat.add_div_right _ hbitpos, hflip]
      · rw [if_neg hbit]
        have heq : a.toNat / 2 ^ i % 2 = ofs.toNat / 2 ^ i % 2 := by
          have hiff := not_ne_iff.mp fun hne => hbit ((xor_and_bit_ne_zero (by omega)).mpr hne)
          rw [Nat.testBit_eq_decide_div_mod_eq, Nat.testBit_eq_decide_div_mod_eq,
            decide_eq_decide] at hiff
          omega
        refine ⟨hle, by omega, ?_⟩
        rw [Nat.pow_succ, Nat.mod_mul, Nat.mod_mul, hmod, heq]
/-- It is the next one. -/
theorem le_of_aligned {k a b base ofs : ℕ} (hlt : a < base + k) (ha : a % k = ofs % k)
    (hb : base ≤ b) (hb' : b % k = ofs % k) : a ≤ b := by
  by_contra hba
  have hmod := Nat.sub_mod_eq_zero_of_mod_eq (ha.trans hb'.symm)
  rw [Nat.mod_eq_of_lt (by omega)] at hmod
  omega

namespace Request

variable {q : Request}

/-- The least address a block can have in a node. -/
def base (q : Request) (start : ℕ) : ℕ := max start q.inMin.toNat

/-- The numbers that are computed for a node do not wrap around. -/
def Fits (q : Request) (start : ℕ) : Prop :=
  q.base start + 2 ^ q.alignBits + q.size.toNat ≤ 2 ^ 32

/-- An address has the low bits that are asked for. -/
def Aligned (q : Request) (a : ℕ) : Prop :=
  a % 2 ^ q.alignBits = q.alignOfs.toNat % 2 ^ q.alignBits

theorem addrIn_spec (hbits : q.alignBits ≤ 32) (hfits : q.Fits node.toNat) :
    q.base node.toNat ≤ (q.addrIn node).toNat ∧
      (q.addrIn node).toNat < q.base node.toNat + 2 ^ q.alignBits ∧
      q.Aligned (q.addrIn node).toNat := by
  have hbase : (if node < q.inMin then q.inMin else node).toNat = q.base node.toNat := by
    rw [base]
    split
    · next hlt => exact (max_eq_right (UInt32.lt_iff_toNat_lt.mp hlt).le).symm
    · next hge => exact (max_eq_left (UInt32.le_iff_toNat_le.mp (UInt32.not_lt.mp hge))).symm
  rw [Fits] at hfits
  rw [← hbase]
  exact alignAddr_spec hbits (by rw [hbase]; omega)

/-- **The verdict on a node**, in terms of the addresses a block can have in it. -/
theorem judge_spec (hbits : q.alignBits ≤ 32) (hstart : node.toNat = c.start)
    (hlen : c.stop < 2 ^ 32) (hfits : q.size.toNat ≤ c.length → q.Fits c.start) :
    (q.judge node (UInt32.ofNat c.length) = .pass → ∀ b, q.base c.start ≤ b → q.Aligned b →
      c.stop < b + q.size.toNat) ∧
    (q.judge node (UInt32.ofNat c.length) = .stop → ∀ b, q.base c.start ≤ b → q.Aligned b →
      q.inMax.toNat < b + q.size.toNat) ∧
    (q.judge node (UInt32.ofNat c.length) = .take → q.Fits c.start ∧
      (q.addrIn node).toNat + q.size.toNat ≤ c.stop ∧
      (q.addrIn node).toNat + q.size.toNat ≤ q.inMax.toNat) := by
  rw [Chunk.stop] at hlen ⊢
  have hnat : (UInt32.ofNat c.length).toNat = c.length := by
    rw [UInt32.toNat_ofNat', Nat.mod_eq_of_lt (by omega)]
  have hbase : c.start ≤ q.base c.start := le_max_left _ _
  rw [judge]
  by_cases hsmall : UInt32.ofNat c.length < q.size
  · rw [if_pos hsmall]
    rw [UInt32.lt_iff_toNat_lt, hnat] at hsmall
    exact ⟨fun _ b hb _ => by omega, fun h => (by cases h), fun h => by cases h⟩
  rw [if_neg hsmall]
  rw [UInt32.lt_iff_toNat_lt, hnat, not_lt] at hsmall
  have hfits := hfits hsmall
  obtain ⟨hle, hlt, haligned⟩ := addrIn_spec hbits (hstart ▸ hfits)
  rw [hstart] at hle hlt
  rw [Fits] at hfits
  have hoff : (q.addrIn node - node + q.size).toNat =
      (q.addrIn node).toNat - c.start + q.size.toNat := by
    have hsub : (q.addrIn node - node).toNat = (q.addrIn node).toNat - c.start := by
      rw [sub_toNat_of_le (by omega), hstart]
    rw [add_toNat (by rw [hsub]; omega), hsub]
  have hend : (q.addrIn node + q.size).toNat = (q.addrIn node).toNat + q.size.toNat :=
    add_toNat (by omega)
  have hleast : ∀ b, q.base c.start ≤ b → q.Aligned b → (q.addrIn node).toNat ≤ b :=
    fun b hb hb' => le_of_aligned hlt haligned hb hb'
  by_cases hout : UInt32.ofNat c.length < q.addrIn node - node + q.size
  · rw [if_pos hout]
    rw [UInt32.lt_iff_toNat_lt, hnat, hoff] at hout
    refine ⟨fun _ b hb hb' => ?_, fun h => (by cases h), fun h => by cases h⟩
    have := hleast b hb hb'
    omega
  rw [if_neg hout]
  rw [UInt32.lt_iff_toNat_lt, hnat, hoff, not_lt] at hout
  by_cases hpast : q.inMax < q.addrIn node + q.size
  · rw [if_pos hpast]
    rw [UInt32.lt_iff_toNat_lt, hend] at hpast
    refine ⟨fun h => (by cases h), fun _ b hb hb' => ?_, fun h => by cases h⟩
    have := hleast b hb hb'
    omega
  · rw [if_neg hpast]
    rw [UInt32.lt_iff_toNat_lt, hend, not_lt] at hpast
    exact ⟨fun h => (by cases h), fun h => (by cases h), fun _ => ⟨hfits, by omega, hpast⟩⟩

end Request

/-! ## A node is split in front of the block -/

/-- **The stores that split a node** at `anode`, which takes over the pointer. -/
theorem split_stores {anode : UInt32} (hapart : node.toNat + 8 ≤ anode.toNat)
    (htop : anode.toNat + 8 ≤ 2 ^ 32) (m : Image) :
    let m' := setSize (setSize (setNext m anode (nextOf m node)) anode
      (sizeOf (setNext m anode (nextOf m node)) node - (anode - node))) node (anode - node)
    nextOf m' anode = nextOf m node ∧ sizeOf m' anode = sizeOf m node - (anode - node) ∧
      sizeOf m' node = anode - node ∧
      Agree (Set.Ico node.toNat (node.toNat + 8) ∪
        Set.Ico anode.toNat (anode.toNat + 8))ᶜ m m' := by
  -- the size of the node is not overwritten before it is read
  have hread : sizeOf (setNext m anode (nextOf m node)) node = sizeOf m node := by
    refine Agree.load (Agree.storeWord (by omega) ?_) ?_ subset_rfl
    · rw [add_four_toNat (by omega)]
      refine Set.disjoint_left.mpr fun y hy hy' => ?_
      have h1 := hy.2
      have h2 := hy'.1
      omega
    · rw [add_four_toNat (by omega)]
      omega
  rw [hread]
  obtain ⟨hnext1, hsize1, hagree1⟩ := node_stores htop m (nextOf m node)
    (sizeOf m node - (anode - node))
  generalize setSize (setNext m anode (nextOf m node)) anode (sizeOf m node - (anode - node)) = m1
    at hnext1 hsize1 hagree1
  obtain ⟨-, hsize2, hagree2⟩ := setSize_stores (show node.toNat + 8 ≤ 2 ^ 32 by omega) m1
    (anode - node)
  have hheader : Set.Ico anode.toNat (anode.toNat + 8) ⊆
      (Set.Ico node.toNat (node.toNat + 8))ᶜ := fun y hy hy' => by
    have h1 := hy.1
    have h2 := hy'.2
    omega
  refine ⟨?_, ?_, hsize2, (hagree1.mono ?_).trans (hagree2.mono ?_)⟩
  · rw [← hnext1]
    refine hagree2.load (by omega) (Set.Subset.trans ?_ hheader)
    exact fun y hy => ⟨hy.1, by have := hy.2; omega⟩
  · rw [← hsize1]
    refine hagree2.load (by rw [add_four_toNat (by omega)]; omega) (Set.Subset.trans ?_ hheader)
    rw [add_four_toNat (by omega)]
    exact fun y hy => ⟨by have := hy.1; omega, by have := hy.2; omega⟩
  · exact Set.compl_subset_compl.mpr Set.subset_union_right
  · exact Set.compl_subset_compl.mpr Set.subset_union_left

/-- The back of a chunk. -/
theorem Spaced.back {a : ℕ} (hs : Spaced (c :: after)) (hback : a + 8 ≤ c.stop) :
    Spaced (⟨a, c.stop - a⟩ :: after) := by
  obtain ⟨⟨-, hstop⟩, hgap, hsa⟩ := Spaced.cons_iff.mp hs
  have hend : Chunk.stop ⟨a, c.stop - a⟩ = c.stop := by
    rw [Chunk.stop_mk]
    omega
  refine Spaced.cons_iff.mpr ⟨⟨?_, by rwa [hend]⟩, ?_, hsa⟩
  · simp only
    omega
  · rwa [hend]

/-- **A chunk in two parts** with room for a node each. -/
theorem Spaced.split {a : ℕ} (hs : Spaced (before ++ c :: after)) (hfront : c.start + 8 ≤ a)
    (hback : a + 8 ≤ c.stop) :
    Spaced ((before ++ [⟨c.start, a - c.start⟩]) ++ ⟨a, c.stop - a⟩ :: after) := by
  obtain ⟨hsb, hsc, hcross⟩ := Spaced.append_iff.mp hs
  obtain ⟨⟨-, hstop⟩, hgap, -⟩ := Spaced.cons_iff.mp hsc
  rw [List.append_assoc, List.singleton_append]
  refine Spaced.append_iff.mpr ⟨hsb, Spaced.cons_iff.mpr ⟨⟨?_, ?_⟩, ?_,
    hsc.back hback⟩, ?_⟩
  · simp only
    omega
  · rw [Chunk.stop_mk]
    omega
  · intro d hd
    rw [Chunk.stop_mk]
    rcases List.mem_cons.mp hd with rfl | hd
    · simp only
      omega
    · have := hgap d hd
      omega
  · intro d hd e he
    have h1 := hcross d hd c List.mem_cons_self
    rcases List.mem_cons.mp he with rfl | he
    · exact h1
    rcases List.mem_cons.mp he with rfl | he
    · simp only
      omega
    · exact hcross d hd e (List.mem_cons_of_mem c he)

/-- **The node in front of the block**: the chunk is two chunks afterwards, unless the block is at
its start. The pointer of the first one is to be set yet. -/
theorem splitBefore_spec {anode : UInt32} (h : Seg m r.nodes (before ++ c :: after) 0)
    (hs : Spaced (before ++ c :: after)) (ends : link.Ends before) (hnode : node.toNat = c.start)
    (hge : c.start ≤ anode.toNat) (hfront : c.start < anode.toNat → c.start + 8 ≤ anode.toNat)
    (hback : anode.toNat + 8 ≤ c.stop) :
    ∃ front q, front = (if c.start < anode.toNat then
        [(⟨c.start, anode.toNat - c.start⟩ : Chunk)] else []) ∧
      Seg (splitBefore m link node anode).1 r.nodes (before ++ front) q ∧
      (sizeOf (splitBefore m link node anode).1 anode).toNat = c.stop - anode.toNat ∧
      Seg (splitBefore m link node anode).1
        (nextOf (splitBefore m link node anode).1 anode) after 0 ∧
      Spaced ((before ++ front) ++ ⟨anode.toNat, c.stop - anode.toNat⟩ :: after) ∧
      (splitBefore m link node anode).2.Ends (before ++ front) ∧
      Agree c.cellsᶜ m (splitBefore m link node anode).1 := by
  obtain ⟨x, hbefore, hx, hstart, hsize, hafter⟩ := seg_append.mp h
  obtain rfl : node = x := UInt32.toNat.inj (hnode.trans hstart.symm)
  obtain ⟨hsb, hsc, hcross⟩ := Spaced.append_iff.mp hs
  obtain ⟨⟨-, hstop⟩, hgap, hsa⟩ := Spaced.cons_iff.mp hsc
  have hbc : ∀ d ∈ before, d.stop ≤ c.start := fun d hd => hcross d hd c List.mem_cons_self
  rw [splitBefore]
  by_cases hlt : node < anode
  · rw [if_pos hlt]
    rw [UInt32.lt_iff_toNat_lt, hnode] at hlt
    have hfront := hfront hlt
    obtain ⟨hnextA, hsizeA, hsizeN, hagree⟩ := split_stores
      (show node.toNat + 8 ≤ anode.toNat by omega) (by omega) m
    dsimp only
    generalize setSize (setSize (setNext m anode (nextOf m node)) anode
      (sizeOf (setNext m anode (nextOf m node)) node - (anode - node))) node (anode - node) = m2
      at hnextA hsizeA hsizeN hagree ⊢
    have hdist : (anode - node).toNat = anode.toNat - c.start := by
      rw [sub_toNat_of_le (by omega), hnode]
    have hagree : Agree c.cellsᶜ m m2 := hagree.mono (Set.compl_subset_compl.mpr fun y hy => by
      rcases hy with hy | hy
      · exact ⟨hnode.ge.trans hy.1, lt_of_lt_of_le hy.2 (by omega)⟩
      · exact ⟨hlt.le.trans hy.1, lt_of_lt_of_le hy.2 hback⟩)
    have hbefore2 : Seg m2 r.nodes before node := hbefore.frame hsb
      (hagree.mono fun y hy hyc => Spaced.notMem_of_le hbc hyc.1 hy)
    refine ⟨_, nextOf m2 node, rfl, ?_, ?_, ?_, ?_, ?_, hagree⟩
    · rw [if_pos hlt]
      exact seg_append.mpr ⟨node, hbefore2, hx, hnode, by rw [hsizeN, hdist], rfl⟩
    · show (sizeOf m2 anode).toNat = _
      rw [Chunk.stop] at hback ⊢
      rw [hsizeA, sub_toNat_of_le (by omega), hdist, hsize]
      omega
    · show Seg m2 (nextOf m2 anode) after 0
      rw [hnextA]
      exact hafter.frame hsa
        (hagree.mono fun y hy hyc => Spaced.notMem_of_lt hgap hyc.2 hy)
    · rw [if_pos hlt]
      exact hs.split hfront hback
    · rw [if_pos hlt]
      exact ⟨before, ⟨c.start, anode.toNat - c.start⟩, rfl, hnode⟩
  · rw [if_neg hlt]
    rw [UInt32.lt_iff_toNat_lt, hnode] at hlt
    have heq : anode.toNat = c.start := by omega
    have hanode : anode = node := UInt32.toNat.inj (by rw [heq, hnode])
    have hc : (⟨anode.toNat, c.stop - anode.toNat⟩ : Chunk) = c := by
      rw [heq, Chunk.stop, Nat.add_sub_cancel_left]
    refine ⟨_, node, rfl, ?_, ?_, ?_, ?_, ?_, Agree.refl _ _⟩
    · rw [if_neg hlt, List.append_nil]
      exact hbefore
    · show (sizeOf m anode).toNat = _
      rw [hanode, hsize, hnode, Chunk.stop, Nat.add_sub_cancel_left]
    · show Seg m (nextOf m anode) after 0
      rw [hanode]
      exact hafter
    · rw [if_neg hlt, List.append_nil, hc]
      exact hs
    · rw [if_neg hlt, List.append_nil]
      exact ends

/-! ## One region -/

/-- What is left of a chunk behind the block, and in front of it. -/
theorem carve_front {a n : ℕ} (hle : a ≤ c.stop) :
    carve before c after a n = before ++
      (if c.start < a then [(⟨c.start, a - c.start⟩ : Chunk)] else []) ++
        (pieces ⟨a, c.stop - a⟩ a n ++ after) := by
  have hstop : Chunk.stop ⟨a, c.stop - a⟩ = c.stop := by
    rw [Chunk.stop_mk]
    omega
  rw [carve, pieces, pieces, hstop, if_neg (lt_irrefl _), List.nil_append]
  simp only [List.append_assoc]

/-- **A search that finds nothing** misses no stretch for the block. -/
theorem Region.Holds.none_fits (h : r.Holds m l) {q : Request} (hpos : 0 < q.size.toNat)
    (hbits : q.alignBits ≤ 32) (hfits : ∀ c ∈ l, q.size.toNat ≤ c.length → q.Fits c.start)
    {passed left : List Chunk} (split : l = passed ++ left)
    (pass : ∀ c ∈ passed, judged q.judge c = .pass)
    (stop : ∀ c ∈ left.head?, judged q.judge c = .stop) {b : ℕ} (hb : q.inMin.toNat ≤ b)
    (hb' : b + q.size.toNat ≤ q.inMax.toNat) (haligned : q.Aligned b) :
    ¬ Set.Ico b (b + q.size.toNat) ⊆ cells l := by
  intro hsub
  obtain ⟨c, hc, hstart, hstop⟩ := h.separated.exists_chunk (by omega) hsub
  have hstartOf : ∀ d ∈ l, (UInt32.ofNat d.start).toNat = d.start := fun d hd => by
    have hlt := (h.spaced.room d hd).2
    rw [Chunk.stop] at hlt
    rw [UInt32.toNat_ofNat', Nat.mod_eq_of_lt (by omega)]
  have hjudge : ∀ d ∈ l, _ := fun d hd =>
    Request.judge_spec hbits (hstartOf d hd) (h.spaced.room d hd).2 (hfits d hd)
  have hbase : q.base c.start ≤ b := max_le hstart hb
  rw [split] at hc
  rcases List.mem_append.mp hc with hc | hc
  · have := (hjudge c (split ▸ List.mem_append_left _ hc)).1 (pass c hc) b hbase haligned
    omega
  -- a block in a later chunk would end behind the range, too
  cases left with
  | nil => cases hc
  | cons d left =>
      have hd := stop d rfl
      have hpast := (hjudge d (split ▸ List.mem_append_right _ List.mem_cons_self)).2.1 hd b
      have hdc : d.start ≤ c.start := by
        rcases List.mem_cons.mp hc with rfl | hc
        · exact le_rfl
        · have hsep := (Separated.append_iff.mp (split ▸ h.separated)).2.1
          have := hsep.2.1 c hc
          rw [Chunk.stop] at this
          omega
      have := hpast (le_trans (max_le_max_right _ hdc) hbase) haligned
      omega

/-- A chunk that is split has the bytes that it had. -/
theorem cells_split_subset (before after : List Chunk) {a : ℕ} (hge : c.start ≤ a) (hle : a ≤ c.stop) :
    cells ((before ++ if c.start < a then [(⟨c.start, a - c.start⟩ : Chunk)] else []) ++
      ⟨a, c.stop - a⟩ :: after) ⊆ cells (before ++ c :: after) := by
  rw [cells_append, cells_append, cells_cons, cells_append, cells_cons]
  rintro y ((hy | hy) | hy | hy)
  · exact Or.inl hy
  · refine Or.inr (Or.inl ?_)
    split at hy
    · rw [cells_cons, cells_nil, Set.union_empty] at hy
      refine ⟨hy.1, lt_of_lt_of_le hy.2 ?_⟩
      rw [Chunk.stop_mk]
      omega
    · rw [cells_nil] at hy
      exact hy.elim
  · refine Or.inr (Or.inl ⟨hge.trans hy.1, lt_of_lt_of_le hy.2 ?_⟩)
    rw [Chunk.stop_mk]
    omega
  · exact Or.inr (Or.inr hy)

/-- **One region in `lmm_alloc_gen`.** The bytes that are taken are those of the grains of the
block. -/
theorem Region.Holds.allocGen (h : r.Holds m l) {q : Request} (hpos : 0 < q.size.toNat)
    (hbits : q.alignBits ≤ 32) (hrange : q.inMin.toNat + q.inSize.toNat < 2 ^ 32)
    (hfits : ∀ c ∈ l, q.size.toNat ≤ c.length → q.Fits c.start) :
    (r.allocGen m q = .absent ∧ (q.flags &&& ~~~r.flags = 0 → ∀ b, q.inMin.toNat ≤ b →
      b + q.size.toNat ≤ q.inMax.toNat → q.Aligned b →
        ¬ Set.Ico b (b + q.size.toNat) ⊆ cells l)) ∨
    q.flags &&& ~~~r.flags = 0 ∧ ∃ a m' r' l', r.allocGen m q = .gives a m' r' ∧
      Carves r m l (a.toNat / 8 * 8) ((a.toNat % 8 + q.size.toNat + 7) / 8 * 8) r' m' l' ∧
        a ≠ 0 ∧ q.inMin.toNat ≤ a.toNat ∧ a.toNat + q.size.toNat ≤ q.inMax.toNat ∧
          q.Aligned a.toNat := by
  have hmax : q.inMax.toNat = q.inMin.toNat + q.inSize.toNat := add_toNat hrange
  rw [Region.allocGen, if_pos h.checked]
  by_cases hout : q.flags &&& ~~~r.flags ≠ 0 ∨ q.inMax ≤ r.min ∨ r.max ≤ q.inMin
  · -- the region does not come into question
    rw [if_pos hout]
    refine Or.inl ⟨rfl, fun hflags b hb hb' _ hsub => ?_⟩
    have hfirst := within_of_mem_cells h.within (hsub ⟨le_rfl, by omega⟩)
    have hmem : b + q.size.toNat - 1 ∈ Set.Ico b (b + q.size.toNat) := ⟨by omega, by omega⟩
    have hlast := within_of_mem_cells h.within (hsub hmem)
    rcases hout with hno | hout | hout
    · exact hno hflags
    · rw [UInt32.le_iff_toNat_le] at hout
      omega
    · rw [UInt32.le_iff_toNat_le] at hout
      omega
  rw [if_neg hout]
  rw [not_or, not_not] at hout
  have hsearch := h.search q.judge (show l = [] ++ l from rfl)
    (show Link.nodes.Ends [] from rfl) h.length_lt_fuel
  generalize r.search m q.judge fuel .nodes = result at hsearch
  cases hsearch with
  | absent passed left split pass stop =>
      exact Or.inl ⟨rfl, fun _ b hb hb' haligned =>
        h.none_fits hpos hbits hfits split pass stop hb hb' haligned⟩
  | found passed c left link node split pass take start ends =>
      rw [List.nil_append] at ends
      subst split
      have hc : c ∈ passed ++ c :: left := List.mem_append_right _ List.mem_cons_self
      obtain ⟨hstart8, hlen8⟩ := h.grained c hc
      have hlt := (h.spaced.room c hc).2
      have hstop8 : 8 ∣ c.stop := Nat.dvd_add hstart8 hlen8
      obtain ⟨hfit, hin, hinMax⟩ :=
        (Request.judge_spec hbits start hlt (hfits c hc)).2.2 take
      obtain ⟨hbase, -, haligned⟩ := Request.addrIn_spec hbits (start ▸ hfit)
      rw [start] at hbase
      have hge : c.start ≤ (q.addrIn node).toNat := le_trans (le_max_left _ _) hbase
      have hminle : q.inMin.toNat ≤ (q.addrIn node).toNat := le_trans (le_max_right _ _) hbase
      set a := q.addrIn node with ha
      -- the grains of the block
      have hanode : (a &&& ~~~alignMask).toNat = a.toNat / 8 * 8 := and_not_alignMask a
      set anode := a &&& ~~~alignMask with hanodeDef
      have hnode0 : node ≠ 0 := by
        obtain ⟨x, -, hx, hxs, -⟩ := seg_append.mp h.seg
        rintro rfl
        exact hx (UInt32.toNat.inj (hxs.trans start.symm))
      have hcpos : 0 < c.start := by
        rw [← start]
        exact Nat.pos_of_ne_zero fun hzero => hnode0 (UInt32.toNat.inj hzero)
      have hsize : (((a &&& alignMask) + q.size + alignMask) &&& ~~~alignMask).toNat =
          (a.toNat % 8 + q.size.toNat + 7) / 8 * 8 := grains_toNat (by omega)
      set size := ((a &&& alignMask) + q.size + alignMask) &&& ~~~alignMask with hsizeDef
      have hend : anode.toNat + size.toNat ≤ c.stop := by
        rw [hanode, hsize]
        omega
      have hstart' : c.start ≤ anode.toNat := by omega
      have hsize8 : 8 ≤ size.toNat := by omega
      have hcheck : node ≤ anode ∧ (anode - node) &&& alignMask = 0 := by
        have hle : node ≤ anode := UInt32.le_iff_toNat_le.mpr (by omega)
        refine ⟨hle, and_alignMask_eq_zero ?_⟩
        rw [sub_toNat_of_le (by omega), start]
        exact Nat.dvd_sub (by omega) hstart8
      obtain ⟨front, x, hfront, hbefore, hasize, hafter, hspaced, hends, hagree1⟩ :=
        splitBefore_spec h.seg h.spaced ends start hstart'
          (fun hlt => by omega) (by omega)
      obtain ⟨hseg, hagree2, hsame⟩ := Region.unlink_spec hbefore hasize hafter
        hspaced hends rfl hsize8 (by simp only; omega) fun hlt => by
          simp only at hlt ⊢
          omega
      have hsub : c.cells ⊆ cells (passed ++ c :: left) := by
        rw [cells_append, cells_cons]
        exact fun y hy => Or.inr (Or.inl hy)
      have hsub' := cells_split_subset passed left hstart'
        (show anode.toNat ≤ c.stop by omega)
      rw [← hfront] at hsub'
      obtain ⟨r1, hgive, hcarves⟩ := h.give anode.toNat size.toNat a
        (by rw [carve_front (by omega), ← hfront]; exact hseg) hsame
        ((hagree1.mono (Set.compl_subset_compl.mpr hsub)).trans
          (hagree2.mono (Set.compl_subset_compl.mpr hsub')))
        hstart' hend (by omega) (by omega) (by omega) rfl
      refine Or.inr ⟨hout.1, a, _, r1, _, ?_, hanode ▸ hsize ▸ hcarves, ?_, hminle, hinMax,
        haligned⟩
      · dsimp only
        rw [if_pos hcheck]
        exact hgive
      · rintro hzero
        rw [hzero, UInt32.toNat_zero] at hge
        omega

end Pebbles.Malloc
