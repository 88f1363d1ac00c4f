import Pebbles.Library.StackWords
import Pebbles.Library.FreeLists

/-! # The nodes of the list memory manager

The kernel heap is kept by `410kern/lmm`. The free memory of a region is a linked list of nodes, and
each node lies at the start of the free memory it describes (`lmm_types.h`). `Seg` says that memory
holds a list of chunks as such a list of nodes; the lemmas say which stores keep it. -/

namespace Pebbles.Malloc

open ByteStores FreeLists

/-- `ALIGN_MASK`: a node is eight bytes. -/
def alignMask : UInt32 := 7

/-- `struct lmm_region`, without the pointer to the next one. -/
structure Region where
  /-- The first node. -/
  nodes : UInt32
  /-- Start of the region. -/
  min : UInt32
  /-- End of the region. -/
  max : UInt32
  /-- Attributes of the memory. -/
  flags : UInt32
  /-- Priority. -/
  pri : UInt32
  /-- Free bytes. -/
  free : UInt32
  deriving DecidableEq

/-- `lmm_t`, with the memory its nodes are in. -/
structure Lmm where
  /-- Memory. -/
  memory : Image
  /-- The list `regions`. -/
  regions : List Region

/-- A pointer to a pointer to a node. -/
inductive Link where
  /-- `&reg->nodes`. -/
  | nodes
  /-- `&node->next`. -/
  | next (node : UInt32)
  deriving DecidableEq

/-- `node->next`. -/
def nextOf (m : Image) (node : UInt32) : UInt32 := load m node

/-- `node->size`. -/
def sizeOf (m : Image) (node : UInt32) : UInt32 := load m (node + 4)

/-- `node->next = v`. -/
def setNext (m : Image) (node v : UInt32) : Image := storeWord m node v

/-- `node->size = v`. -/
def setSize (m : Image) (node v : UInt32) : Image := storeWord m (node + 4) v

/-- `*nodep`. -/
def Region.follow (r : Region) (m : Image) : Link → UInt32
  | .nodes => r.nodes
  | .next node => nextOf m node

/-- `*nodep = v`. -/
def Region.assign (r : Region) (m : Image) (link : Link) (v : UInt32) : Image × Region :=
  match link with
  | .nodes => (m, { r with nodes := v })
  | .next node => (setNext m node v, r)

/-! ## Alignment -/

theorem and_not_alignMask (x : UInt32) : (x &&& ~~~alignMask).toNat = x.toNat / 8 * 8 := by
  have hmask : (~~~alignMask).toNat = 2 ^ 32 - 8 := by decide
  have hx := x.toNat_lt
  rw [UInt32.toNat_and, hmask]
  have hdiv := Nat.and_div_two_pow (a := x.toNat) (b := 2 ^ 32 - 8) (n := 3)
  have hmod := Nat.and_mod_two_pow (a := x.toNat) (b := 2 ^ 32 - 8) (n := 3)
  have hall : x.toNat / 2 ^ 3 &&& (2 ^ 32 - 8) / 2 ^ 3 = x.toNat / 2 ^ 3 % 2 ^ 29 :=
    Nat.and_two_pow_sub_one_eq_mod _ 29
  have hzero : x.toNat % 2 ^ 3 &&& (2 ^ 32 - 8) % 2 ^ 3 = 0 := Nat.and_zero _
  omega

theorem and_alignMask (x : UInt32) : (x &&& alignMask).toNat = x.toNat % 8 := by
  have hmask : alignMask.toNat = 2 ^ 3 - 1 := by decide
  rw [UInt32.toNat_and, hmask]
  exact Nat.and_two_pow_sub_one_eq_mod _ 3

theorem and_alignMask_eq_zero {x : UInt32} (h : 8 ∣ x.toNat) : x &&& alignMask = 0 := by
  apply UInt32.toNat.inj
  rw [and_alignMask, Nat.mod_eq_zero_of_dvd h, UInt32.toNat_zero]

/-- `(x + ALIGN_MASK) & ~ALIGN_MASK` is the next multiple of eight. -/
theorem alignUp_toNat {x : UInt32} (h : x.toNat + 7 < 2 ^ 32) :
    ((x + alignMask) &&& ~~~alignMask).toNat = (x.toNat + 7) / 8 * 8 := by
  have hmask : alignMask.toNat = 7 := by decide
  rw [and_not_alignMask, UInt32.toNat_add, hmask, Nat.mod_eq_of_lt h]

/-- The bytes of the grains of a block. -/
theorem grains_toNat {a size : UInt32} (h : a.toNat % 8 + size.toNat + 7 < 2 ^ 32) :
    (((a &&& alignMask) + size + alignMask) &&& ~~~alignMask).toNat =
      (a.toNat % 8 + size.toNat + 7) / 8 * 8 := by
  have hmod := and_alignMask a
  have hsum : ((a &&& alignMask) + size).toNat = a.toNat % 8 + size.toNat := by
    rw [add_toNat (by omega), hmod]
  rw [alignUp_toNat (by omega), hsum]

/-! ## Lists of nodes in memory -/

/-- **A list segment**: from the node `p` on, memory holds nodes that describe the chunks of the
list, the last of them followed by `q`. -/
def Seg (m : Image) (p : UInt32) : List Chunk → UInt32 → Prop
  | [], q => p = q
  | c :: l, q => p ≠ 0 ∧ p.toNat = c.start ∧ (sizeOf m p).toNat = c.length ∧ Seg m (nextOf m p) l q

/-- The chunks have room for a node each, end in the address space and do not overlap. -/
structure Spaced (l : List Chunk) : Prop where
  /-- A node fits. -/
  room : ∀ c ∈ l, 8 ≤ c.length ∧ c.stop < 2 ^ 32
  /-- They are in ascending order. -/
  ascending : l.Pairwise fun c d => c.stop ≤ d.start

variable {m m' : Image} {p q v node : UInt32} {l before after : List Chunk} {c d : Chunk}
  {r : Region} {link : Link}

namespace Spaced

theorem nil : Spaced [] := ⟨fun _ h => absurd h List.not_mem_nil, List.Pairwise.nil⟩

theorem cons_iff : Spaced (c :: l) ↔
    (8 ≤ c.length ∧ c.stop < 2 ^ 32) ∧ (∀ d ∈ l, c.stop ≤ d.start) ∧ Spaced l := by
  constructor
  · intro h
    obtain ⟨hgap, hrest⟩ := List.pairwise_cons.mp h.ascending
    exact ⟨h.room c List.mem_cons_self, hgap,
      ⟨fun d hd => h.room d (List.mem_cons_of_mem c hd), hrest⟩⟩
  · rintro ⟨hroom, hgap, h⟩
    refine ⟨fun d hd => ?_, List.pairwise_cons.mpr ⟨hgap, h.ascending⟩⟩
    rcases List.mem_cons.mp hd with rfl | hd
    · exact hroom
    · exact h.room d hd

theorem append_iff : Spaced (before ++ after) ↔
    Spaced before ∧ Spaced after ∧ ∀ c ∈ before, ∀ d ∈ after, c.stop ≤ d.start := by
  constructor
  · intro h
    obtain ⟨hb, ha, hcross⟩ := List.pairwise_append.mp h.ascending
    exact ⟨⟨fun c hc => h.room c (List.mem_append_left _ hc), hb⟩,
      ⟨fun c hc => h.room c (List.mem_append_right _ hc), ha⟩, hcross⟩
  · rintro ⟨hb, ha, hcross⟩
    refine ⟨fun c hc => ?_, List.pairwise_append.mpr ⟨hb.ascending, ha.ascending, hcross⟩⟩
    rcases List.mem_append.mp hc with hc | hc
    · exact hb.room c hc
    · exact ha.room c hc

/-- What lies before all chunks of a list. -/
theorem notMem_of_lt {x : ℕ} (h : ∀ d ∈ l, c.stop ≤ d.start) (hx : x < c.stop) : x ∉ cells l := by
  rintro ⟨d, hd, hstart, -⟩
  have := h d hd
  omega

/-- What lies behind all chunks of a list. -/
theorem notMem_of_le {x : ℕ} (h : ∀ d ∈ l, d.stop ≤ c.start) (hx : c.start ≤ x) : x ∉ cells l := by
  rintro ⟨d, hd, -, hstop⟩
  have := h d hd
  omega

end Spaced

theorem seg_nil : Seg m p [] q ↔ p = q := Iff.rfl

theorem seg_append : Seg m p (before ++ after) q ↔
    ∃ x, Seg m p before x ∧ Seg m x after q := by
  induction before generalizing p with
  | nil => exact ⟨fun h => ⟨p, rfl, h⟩, fun ⟨x, hx, h⟩ => (show p = x from hx) ▸ h⟩
  | cons c before ih =>
      rw [List.cons_append, Seg]
      constructor
      · rintro ⟨hp, hstart, hsize, h⟩
        obtain ⟨x, hb, ha⟩ := ih.mp h
        exact ⟨x, ⟨hp, hstart, hsize, hb⟩, ha⟩
      · rintro ⟨x, ⟨hp, hstart, hsize, hb⟩, ha⟩
        exact ⟨hp, hstart, hsize, ih.mpr ⟨x, hb, ha⟩⟩

/-- **Frame**: stores outside the chunks of a list leave it. -/
theorem Seg.frame (h : Seg m p l q) (hs : Spaced l) (agree : Agree (cells l) m m') :
    Seg m' p l q := by
  induction l generalizing p with
  | nil => exact h
  | cons c l ih =>
      obtain ⟨hp, hstart, hsize, h⟩ := h
      obtain ⟨hroom, -, hs⟩ := Spaced.cons_iff.mp hs
      rw [cells_cons] at agree
      have hin : Set.Ico c.start (c.start + 8) ⊆ c.cells := fun x hx =>
        ⟨hx.1, lt_of_lt_of_le hx.2 (Nat.add_le_add_left hroom.1 _)⟩
      have hstop := hroom.2
      rw [Chunk.stop] at hstop
      have hp4 : (p + 4).toNat = c.start + 4 := by rw [add_four_toNat (by omega), hstart]
      have hnext : nextOf m' p = nextOf m p := by
        refine agree.load (by omega) fun x hx => Or.inl (hin ?_)
        rw [hstart] at hx
        exact ⟨hx.1, by have := hx.2; omega⟩
      have hsize' : sizeOf m' p = sizeOf m p := by
        refine agree.load (by omega) fun x hx => Or.inl (hin ?_)
        rw [hp4] at hx
        exact ⟨by have := hx.1; omega, by have := hx.2; omega⟩
      refine ⟨hp, hstart, by rw [hsize', hsize], ?_⟩
      rw [hnext]
      exact ih h hs (agree.mono fun x hx => Or.inr hx)

/-! ## Stores into a node -/

/-- A node is written: its two words, and no other byte. -/
theorem node_stores (hnode : node.toNat + 8 ≤ 2 ^ 32) (m : Image) (next size : UInt32) :
    let m' := setSize (setNext m node next) node size
    nextOf m' node = next ∧ sizeOf m' node = size ∧
      Agree (Set.Ico node.toNat (node.toNat + 8))ᶜ m m' := by
  have h4 := add_four_toNat hnode
  have hlow : Set.Ico node.toNat (node.toNat + 4) ⊆ Set.Ico node.toNat (node.toNat + 8) :=
    fun x hx => ⟨hx.1, by have := hx.2; omega⟩
  have hhigh : Set.Ico (node + 4).toNat ((node + 4).toNat + 4) ⊆
      Set.Ico node.toNat (node.toNat + 8) := fun x hx =>
    ⟨by have := hx.1; omega, by have := hx.2; omega⟩
  have hdisj : Disjoint (Set.Ico node.toNat (node.toNat + 4))
      (Set.Ico (node + 4).toNat ((node + 4).toNat + 4)) :=
    Set.disjoint_left.mpr fun x hx hx' => by
      have h1 := hx.2
      have h2 := hx'.1
      omega
  refine ⟨?_, load_storeWord _ _ _, ?_⟩
  · rw [nextOf, setSize, (Agree.storeWord (by omega) hdisj).load (by omega) subset_rfl]
    exact load_storeWord _ _ _
  · refine (Agree.storeWord (by omega) ?_).trans (Agree.storeWord (by omega) ?_)
    · exact Set.disjoint_left.mpr fun x hx hx' => hx (hlow hx')
    · exact Set.disjoint_left.mpr fun x hx hx' => hx (hhigh hx')

/-- The size of a node is written. -/
theorem setSize_stores (hnode : node.toNat + 8 ≤ 2 ^ 32) (m : Image) (size : UInt32) :
    nextOf (setSize m node size) node = nextOf m node ∧ sizeOf (setSize m node size) node = size ∧
      Agree (Set.Ico node.toNat (node.toNat + 8))ᶜ m (setSize m node size) := by
  have h4 := add_four_toNat hnode
  refine ⟨?_, load_storeWord _ _ _, Agree.storeWord (by omega) ?_⟩
  · refine (Agree.storeWord (by omega) ?_).load (by omega) subset_rfl
    exact Set.disjoint_left.mpr fun x hx hx' => by
      have h1 := hx.2
      have h2 := hx'.1
      omega
  · exact Set.disjoint_left.mpr fun x hx hx' => hx
      ⟨by have := hx'.1; omega, by have := hx'.2; omega⟩

/-- The pointer of a node is written. -/
theorem setNext_stores (hnode : node.toNat + 8 ≤ 2 ^ 32) (m : Image) (next : UInt32) :
    nextOf (setNext m node next) node = next ∧ sizeOf (setNext m node next) node = sizeOf m node ∧
      Agree (Set.Ico node.toNat (node.toNat + 8))ᶜ m (setNext m node next) := by
  have h4 := add_four_toNat hnode
  refine ⟨load_storeWord _ _ _, ?_, Agree.storeWord (by omega) ?_⟩
  · refine (Agree.storeWord (by omega) ?_).load (by omega) subset_rfl
    exact Set.disjoint_left.mpr fun x hx hx' => by
      have h1 := hx.1
      have h2 := hx'.2
      omega
  · exact Set.disjoint_left.mpr fun x hx hx' => hx
      ⟨hx'.1, by have := hx'.2; omega⟩

/-! ## The pointer to a node -/

/-- The link behind the chunks of a list: the pointer of the last one, or the head. -/
def Link.Ends (link : Link) (before : List Chunk) : Prop :=
  match link with
  | .nodes => before = []
  | .next node => ∃ b c, before = b ++ [c] ∧ node.toNat = c.start

/-- The link behind a list that was followed to its end. -/
theorem Seg.follow (h : Seg m r.nodes before q) (hlink : link.Ends before) :
    r.follow m link = q := by
  cases link with
  | nodes =>
      obtain rfl : before = [] := hlink
      exact h
  | next node =>
      obtain ⟨b, c, rfl, hnode⟩ := hlink
      obtain ⟨x, -, -, hstart, -, hnext⟩ := seg_append.mp h
      obtain rfl : node = x := UInt32.toNat.inj (hnode.trans hstart.symm)
      exact hnext

/-- **`*nodep = v`** sets what comes behind the chunks of the list, and no byte elsewhere. -/
theorem Seg.assign (h : Seg m r.nodes before q) (hlink : link.Ends before) (hs : Spaced before)
    (v : UInt32) :
    Seg (r.assign m link v).1 (r.assign m link v).2.nodes before v ∧
      Agree (cells before)ᶜ m (r.assign m link v).1 ∧
      (r.assign m link v).2 = { r with nodes := (r.assign m link v).2.nodes } := by
  cases link with
  | nodes =>
      obtain rfl : before = [] := hlink
      exact ⟨rfl, Agree.refl _ _, rfl⟩
  | next node =>
      obtain ⟨b, c, rfl, hnode⟩ := hlink
      obtain ⟨x, hb, hx, hstart, hsize, hnext⟩ := seg_append.mp h
      obtain rfl : node = x := UInt32.toNat.inj (hnode.trans hstart.symm)
      obtain ⟨hsb, hsc, hcross⟩ := Spaced.append_iff.mp hs
      obtain ⟨hlen, hstop⟩ := hsc.room c (List.mem_singleton_self c)
      have hroom : node.toNat + 8 ≤ 2 ^ 32 := by
        rw [Chunk.stop] at hstop
        omega
      obtain ⟨hnext', hsize', hagree⟩ := setNext_stores hroom m v
      have hin : Set.Ico node.toNat (node.toNat + 8) ⊆ c.cells := by
        rw [hnode]
        exact fun y hy => ⟨hy.1, lt_of_lt_of_le hy.2 (Nat.add_le_add_left hlen _)⟩
      refine ⟨seg_append.mpr ⟨node, hb.frame hsb (hagree.mono ?_), hx, hstart, ?_, hnext'⟩,
        hagree.mono ?_, rfl⟩
      · exact fun y hy hy' => Spaced.notMem_of_le
          (fun d hd => hcross d hd c (List.mem_singleton_self c)) (hin hy').1 hy
      · show (sizeOf (setNext m node v) node).toNat = c.length
        rw [hsize', hsize]
      · intro y hy hy'
        refine hy ?_
        rw [cells_append, cells_cons]
        exact Or.inr (Or.inl (hin hy'))

end Pebbles.Malloc
