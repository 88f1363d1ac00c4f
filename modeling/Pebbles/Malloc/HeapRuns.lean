import Pebbles.Library.Runs
import Pebbles.Library.Shares
import Pebbles.Malloc.Allocators

/-! # Runs of the kernel heap

The allocators are called in any order, and clients store into their blocks. A `Heap` is the memory
manager with the blocks that are live; `Legal` says which calls a client may make. The heap is what
a client thinks it is, a collection of blocks with bytes of their own (`Store`): every run of the
allocators is a run of this specification, and no assertion in them fails. -/

namespace Pebbles.Malloc

open ByteStores FreeLists Transition Shares
open Memory (Block Allocator)

/-! ## Calls -/

/-- A call of an allocator, or a store of a client. -/
inductive Call where
  /-- `_malloc(size)`. -/
  | malloc (size : UInt32)
  /-- `_calloc(nelt, eltsize)`. -/
  | calloc (nelt eltsize : UInt32)
  /-- `_memalign(alignment, size)`. -/
  | memalign (alignment size : UInt32)
  /-- `_smemalign(alignment, size)`. -/
  | smemalign (alignment size : UInt32)
  /-- `_realloc(buf, new_size)`. -/
  | realloc (buf newSize : UInt32)
  /-- `_free(ptr)`. -/
  | free (ptr : UInt32)
  /-- `_sfree(chunk, size)`. -/
  | sfree (chunk size : UInt32)
  /-- The byte at an address is written. -/
  | store (address : UInt32) (byte : UInt8)

/-- The memory manager and its clients. -/
structure Heap where
  /-- The memory manager. -/
  lmm : Lmm
  /-- The live blocks. -/
  live : List Block
  /-- The grains that are in no list and in no block. -/
  lost : List ℕ

namespace Heap

/-- The block that `_free` and `_realloc` find at an address. -/
def keptAt (ptr : UInt32) (b : Block) : Bool := b.address = ptr.toNat ∧ b.allocator = .sizeKept

/-- The block of a size that is at an address. -/
def sizedAt (chunk size : UInt32) (b : Block) : Bool :=
  b.address = chunk.toNat ∧ b.size = size.toNat ∧ 0 < b.size

/-- The header of a block that starts in the first half of a grain is in the grain before. A release
of the bytes of the block leaves that grain out. -/
def leftOut (b : Block) : List ℕ :=
  if b.allocator = .sizeKept ∧ b.address % 8 < 4 then [grainStart (chunkAddress b)] else []

/-- The result of an allocator. -/
def hand (h : Heap) (size : UInt32) (allocator : Allocator) (result : UInt32 × Lmm) :
    UInt32 × Heap :=
  (result.1, { h with
    lmm := result.2
    live := if result.1 = 0 then h.live else ⟨result.1.toNat, size.toNat, allocator⟩ :: h.live })

/-- **One call.** There is no result when an assertion fails. -/
def step (h : Heap) : Call → Option (UInt32 × Heap)
  | .malloc size => (malloc h.lmm size).map (h.hand size .sizeKept)
  | .calloc nelt eltsize => (calloc h.lmm nelt eltsize).map (h.hand (nelt * eltsize) .sizeKept)
  | .memalign alignment size => (memalign h.lmm alignment size).map (h.hand size .sizeKept)
  | .smemalign alignment size => (smemalign h.lmm alignment size).map (h.hand size .sizeGiven)
  | .realloc buf newSize => (realloc h.lmm buf newSize).map fun (np, lmm) =>
      (np, { h with
        lmm := lmm
        live := if np = 0 then h.live
          else ⟨np.toNat, newSize.toNat, .sizeKept⟩ :: h.live.eraseP (keptAt buf) })
  | .free ptr => (free h.lmm ptr).map fun lmm =>
      (0, { h with lmm := lmm, live := h.live.eraseP (keptAt ptr) })
  | .sfree chunk size => (sfree h.lmm chunk size).map fun lmm =>
      (0, { lmm := lmm
            live := h.live.eraseP (sizedAt chunk size)
            lost := ((h.live.find? (sizedAt chunk size)).map leftOut).getD [] ++ h.lost })
  | .store address byte =>
      some (0, { h with lmm := { h.lmm with memory := storeBytes h.lmm.memory address [byte] } })

/-- **What a client may call.** Sizes do not wrap around, alignments are reached by a shift, what is
released is live, and stores stay inside the blocks. -/
def Legal (h : Heap) : Call → Prop
  | .malloc size => size.toNat + 11 < 2 ^ 32
  | .calloc nelt eltsize => (nelt * eltsize).toNat + 11 < 2 ^ 32
  | .memalign alignment size => alignment.toNat ≤ 2 ^ 31 ∧ size.toNat + 11 < 2 ^ 32
  | .smemalign alignment size => alignment.toNat ≤ 2 ^ 31 ∧ 0 < size.toNat
  | .realloc buf newSize => (buf = 0 ∨ ∃ b ∈ h.live, keptAt buf b) ∧ newSize.toNat + 11 < 2 ^ 32
  | .free ptr => ∃ b ∈ h.live, keptAt ptr b
  | .sfree chunk size => ∃ b ∈ h.live, sizedAt chunk size b
  | .store address _ => ∃ b ∈ h.live, address.toNat ∈ data b

/-- A call that a client may make, with its result. -/
def Step (h : Heap) (label : Call × UInt32) (h' : Heap) : Prop :=
  h.Legal label.1 ∧ h.step label.1 = some (label.2, h')

/-- No block is live. -/
def start (s : Lmm) : Heap := ⟨s, [], []⟩

end Heap

/-! ## What the calls are for -/

/-- A block with its bytes. -/
structure Item where
  /-- The block. -/
  block : Block
  /-- The bytes. -/
  bytes : List UInt8

/-- The bytes of a block in memory. -/
def item (m : Image) (b : Block) : Item :=
  ⟨b, (List.range b.size).map fun i => m (UInt32.ofNat (b.address + i))⟩

/-- A byte of the block is written. -/
def Item.put (address : UInt32) (byte : UInt8) (i : Item) : Item :=
  if i.block.address ≤ address.toNat ∧ address.toNat < i.block.address + i.block.size then
    { i with bytes := i.bytes.set (address.toNat - i.block.address) byte }
  else i

/-- The collection of blocks. -/
abbrev Store := List Item

/-- The blocks of the heap with their bytes. -/
def Heap.store (h : Heap) : Store := h.live.map (item h.lmm.memory)

namespace Store

/-- A call that may answer with a block with these bytes. -/
def Answers : Call → Block → List UInt8 → Prop
  | .malloc size, b, bytes => b.size = size.toNat ∧ b.allocator = .sizeKept ∧ bytes.length = b.size
  | .calloc nelt eltsize, b, bytes => b.size = (nelt * eltsize).toNat ∧ b.allocator = .sizeKept ∧
      bytes = List.replicate b.size 0
  | .memalign alignment size, b, bytes => b.size = size.toNat ∧ b.allocator = .sizeKept ∧
      bytes.length = b.size ∧ aligned alignment ∣ b.address
  | .smemalign alignment size, b, bytes => b.size = size.toNat ∧ b.allocator = .sizeGiven ∧
      bytes.length = b.size ∧ aligned alignment ∣ b.address
  | .realloc buf newSize, b, bytes => buf = 0 ∧ b.size = newSize.toNat ∧
      b.allocator = .sizeKept ∧ bytes.length = b.size
  | _, _, _ => False

/-- The call asks for a block. -/
def Asks : Call → Prop
  | .malloc _ | .calloc _ _ | .memalign _ _ | .smemalign _ _ | .realloc _ _ => True
  | _ => False

/-- A block for which there is room beside the others: no byte of it is a byte of another one, and
no other block would be taken for it when it is released. -/
def Fresh (arena : Set ℕ) (b : Block) (s : Store) : Prop :=
  data b ⊆ arena ∧ ∀ i ∈ s, Disjoint (data b) (data i.block) ∧
    (b.address = i.block.address → b.allocator ≠ i.block.allocator)

/-- **The specification of the allocators.** -/
inductive Step (arena : Set ℕ) : Store → Call × UInt32 → Store → Prop
  /-- There is no memory, and nothing changes. -/
  | refused {s : Store} {c : Call} (hc : Asks c) : Step arena s (c, 0) s
  /-- A block is handed out; the others keep their bytes. -/
  | handed {s : Store} {c : Call} {p : UInt32} {b : Block} {bytes : List UInt8} (hp : p ≠ 0)
      (hb : b.address = p.toNat) (hc : Answers c b bytes) (fresh : Fresh arena b s) :
      Step arena s (c, p) (⟨b, bytes⟩ :: s)
  /-- A block is moved; it keeps its bytes as far as it goes. -/
  | moved {s t : Store} {i : Item} {buf newSize np : UInt32} {bytes : List UInt8} (hp : np ≠ 0)
      (hi : Heap.keptAt buf i.block) (hlen : bytes.length = newSize.toNat)
      (kept : bytes.take (min i.block.size newSize.toNat) =
        i.bytes.take (min i.block.size newSize.toNat))
      (fresh : Fresh arena ⟨np.toNat, newSize.toNat, .sizeKept⟩ (s ++ i :: t)) :
      Step arena (s ++ i :: t) (.realloc buf newSize, np)
        (⟨⟨np.toNat, newSize.toNat, .sizeKept⟩, bytes⟩ :: (s ++ t))
  /-- A block is released. -/
  | freed {s t : Store} {i : Item} {ptr : UInt32} (hi : Heap.keptAt ptr i.block) :
      Step arena (s ++ i :: t) (.free ptr, 0) (s ++ t)
  /-- A block is released by its size. -/
  | sfreed {s t : Store} {i : Item} {chunk size : UInt32} (hi : Heap.sizedAt chunk size i.block) :
      Step arena (s ++ i :: t) (.sfree chunk size, 0) (s ++ t)
  /-- A byte is written; it is a byte of one block only. -/
  | stored {s : Store} {address : UInt32} {byte : UInt8}
      (hs : ∃ i ∈ s, address.toNat ∈ data i.block) :
      Step arena s (.store address byte, 0) (s.map (Item.put address byte))

end Store

/-! ## The invariant -/

/-- A grain. -/
def grain (a : ℕ) : Set ℕ := Set.Ico a (a + 8)

/-- The addresses that are in use, or lost. -/
def Heap.reserved (h : Heap) : List (Set ℕ) := h.live.map blockExtent ++ h.lost.map grain

/-- The free memory of the heap. -/
def Heap.vacant (arena : Set ℕ) (h : Heap) : Set ℕ := rest arena h.reserved

/-- The bounds and attributes of the regions of a manager. -/
abbrev Bounds := List (UInt32 × UInt32 × UInt32 × UInt32)

/-- **The invariant** of the heap in an arena. -/
structure Heap.Good (arena : Set ℕ) (regions : Bounds) (h : Heap) : Prop where
  /-- The regions are those of the arena. -/
  bounds : h.lmm.bounds = regions
  /-- What is in no block is free. -/
  free : h.lmm.HasFree (h.vacant arena)
  /-- The blocks do not overlap. -/
  shares : Apart arena h.reserved
  /-- They are in their places. -/
  placed : ∀ b ∈ h.live, Placed h.lmm.regions b
  /-- Their headers have their sizes. -/
  headed : ∀ b ∈ h.live, Headed h.lmm.memory b

variable {arena F S : Set ℕ} {h h' : Heap} {s s' : Lmm} {b b' : Block} {m m' : Image}
  {pre post : List Block} {regions : List Region} {bs : Bounds}

/-- The bytes of a block stay when memory agrees on it. -/
theorem item_congr (placed : Placed regions b) (agree : Agree S m m')
    (hS : blockExtent b ⊆ S) : item m' b = item m b := by
  have htop := placed.top
  rw [← placed.stop_eq] at htop
  rw [item, item]
  refine congrArg _ (List.map_congr_left fun i hi => agree _ ?_)
  have hi := List.mem_range.mp hi
  rw [UInt32.toNat_ofNat', Nat.mod_eq_of_lt (by omega)]
  exact hS (placed.data_subset ⟨Nat.le_add_right _ _, Nat.add_lt_add_left hi _⟩)

/-- A live block and the free memory. -/
theorem Heap.disjoint_vacant (hb : b ∈ h.live) : Disjoint (blockExtent b) (h.vacant arena) :=
  disjoint_rest (List.mem_append_left _ (List.mem_map_of_mem hb))

/-- Blocks of one allocator whose grains do not overlap have different addresses. -/
theorem allocator_ne (placed : Placed regions b)
    (placed' : Placed regions b') (apart : Disjoint (blockExtent b) (blockExtent b'))
    (h : b.address = b'.address) : b.allocator ≠ b'.allocator := by
  intro hsame
  have hchunk : chunkAddress b = chunkAddress b' := by rw [chunkAddress, chunkAddress, h, hsame]
  have hmem : chunkAddress b ∈ blockExtent b :=
    mem_extent le_rfl (Nat.lt_add_of_pos_right placed.pos)
  have hmem' : chunkAddress b ∈ blockExtent b' := by
    rw [hchunk]
    exact mem_extent le_rfl (Nat.lt_add_of_pos_right placed'.pos)
  exact Set.disjoint_left.mp apart hmem hmem'

namespace Heap.Good

/-- Blocks that stay in their places, when memory agrees on them. -/
theorem frame (good : h.Good arena bs) (hb : b ∈ h.live) (bounds : s'.bounds = h.lmm.bounds)
    (agree : Agree S h.lmm.memory s'.memory) (hS : blockExtent b ⊆ S) :
    Placed s'.regions b ∧ Headed s'.memory b ∧ item s'.memory b = item h.lmm.memory b :=
  ⟨(good.placed b hb).of_bounds bounds, (good.placed b hb).headed (good.headed b hb) agree hS,
    item_congr (good.placed b hb) agree hS⟩

/-- A live block is outside of the free memory. -/
theorem subset_compl (hb : b ∈ h.live) : blockExtent b ⊆ (h.vacant arena)ᶜ := fun _ hx hv =>
  Set.disjoint_left.mp (disjoint_vacant hb) hx hv

/-- A block that is free memory is fresh. -/
theorem fresh (good : h.Good arena bs) (placed : Placed h.lmm.regions b)
    (sub : blockExtent b ⊆ h.vacant arena) : Store.Fresh arena b h.store := by
  refine ⟨(placed.data_subset.trans sub).trans (rest_subset _ _), fun i hi => ?_⟩
  obtain ⟨b', hb', rfl⟩ := List.mem_map.mp hi
  have apart : Disjoint (blockExtent b) (blockExtent b') :=
    ((disjoint_vacant hb').mono_right sub).symm
  exact ⟨apart.mono placed.data_subset (good.placed b' hb').data_subset,
    allocator_ne placed (good.placed b' hb') apart⟩

/-- **A block is handed out.** -/
theorem handed (good : h.Good arena bs) (obtains : Obtains h.lmm (h.vacant arena) b s') :
    Good arena bs { h with lmm := s', live := b :: h.live } ∧
      store { h with lmm := s', live := b :: h.live } = item s'.memory b :: h.store := by
  have hframe := fun b' (hb' : b' ∈ h.live) =>
    good.frame hb' obtains.bounds obtains.agree (subset_compl hb')
  refine ⟨⟨obtains.bounds.trans good.bounds, ?_, ?_, fun b' hb' => ?_, fun b' hb' => ?_⟩, ?_⟩
  · have hfree := obtains.free
    rw [vacant] at hfree ⊢
    rwa [reserved, List.map_cons, List.cons_append, rest_cons]
  · rw [reserved, List.map_cons, List.cons_append]
    exact Apart.cons_iff.mpr ⟨obtains.sub, good.shares⟩
  · rcases List.mem_cons.mp hb' with rfl | hb'
    · exact obtains.placed.of_bounds obtains.bounds
    · exact (hframe b' hb').1
  · rcases List.mem_cons.mp hb' with rfl | hb'
    · exact obtains.headed
    · exact (hframe b' hb').2.1
  · rw [store, List.map_cons, store]
    exact congrArg _ (List.map_congr_left fun b' hb' => (hframe b' hb').2.2)

/-- **One block and the others**: what is in use, and what is free. -/
theorem split (good : h.Good arena bs) (hlive : h.live = pre ++ b :: post) (s' : Lmm) :
    Apart arena (blockExtent b :: Heap.reserved ⟨s', pre ++ post, h.lost⟩) ∧
      h.vacant arena = rest arena (blockExtent b :: Heap.reserved ⟨s', pre ++ post, h.lost⟩) := by
  have hperm : h.reserved.Perm (blockExtent b :: Heap.reserved ⟨s', pre ++ post, h.lost⟩) := by
    rw [reserved, reserved, hlive, List.map_append, List.map_cons, List.map_append,
      List.append_assoc, List.cons_append, List.append_assoc]
    exact List.perm_middle
  exact ⟨good.shares.perm hperm, rest_perm hperm⟩

/-- What is written in free memory and in one block is not in the others. -/
theorem frame_others (good : h.Good arena bs) (hlive : h.live = pre ++ b :: post) {E : Set ℕ}
    (hE : E ⊆ blockExtent b) (bounds : s'.bounds = h.lmm.bounds)
    (agree : Agree (h.vacant arena ∪ E)ᶜ h.lmm.memory s'.memory) (hb : b' ∈ pre ++ post) :
    Placed s'.regions b' ∧ Headed s'.memory b' ∧
      item s'.memory b' = item h.lmm.memory b' := by
  have hmem : b' ∈ h.live := by
    rw [hlive]
    rcases List.mem_append.mp hb with hb | hb
    · exact List.mem_append_left _ hb
    · exact List.mem_append_right _ (List.mem_cons_of_mem b hb)
  refine good.frame hmem bounds agree fun x hx hvE => ?_
  rcases hvE with hv | hxE
  · exact subset_compl hmem hx hv
  · exact Set.disjoint_left.mp ((List.pairwise_cons.mp (good.split hlive s').1.apart).1 _
      (List.mem_append_left _ (List.mem_map_of_mem hb))) (hE hxE) hx

/-- Grains that are in no list any more. -/
theorem rest_leftOut {R : List (Set ℕ)} (placed : Placed regions b)
    (h : Apart arena (blockExtent b :: R)) :
    Apart arena ((leftOut b).map grain ++ R) ∧
      rest arena ((leftOut b).map grain ++ R) =
        rest arena (blockExtent b :: R) ∪ sizedExtent b := by
  have hle := placed.le_address
  have hstop := placed.stop_eq
  by_cases hout : b.allocator = .sizeKept ∧ b.address % 8 < 4
  · -- the grain of the header is a grain of the block
    have hbehind := placed.behind hout.1
    have hlow := placed.low
    have hgrain : grain (grainStart (chunkAddress b)) ⊆ blockExtent b := by
      refine Set.Ico_subset_Ico le_rfl ?_
      have := placed.pos
      rw [grainLength]
      omega
    have hsized : sizedExtent b = blockExtent b \ grain (grainStart (chunkAddress b)) := by
      ext x
      simp only [sizedExtent, blockExtent, grain, extent, grainStart, grainLength, Set.mem_sdiff,
        Set.mem_Ico]
      omega
    rw [leftOut, if_pos hout, List.map_cons, List.map_nil, List.singleton_append, hsized]
    exact h.shrink hgrain
  · have hsized : sizedExtent b = blockExtent b := by
      rw [sizedExtent, blockExtent, extent, extent, grainStart, grainStart, grainLength,
        grainLength]
      cases hb : b.allocator with
      | sizeKept =>
          have hbehind := placed.behind hb
          have hmod : ¬ b.address % 8 < 4 := fun hlt => hout ⟨hb, hlt⟩
          refine congrArg₂ Set.Ico ?_ ?_
          · omega
          · omega
      | sizeGiven => rw [chunkAddress, chunkSize, hb]
    rw [leftOut, if_neg hout, List.map_nil, List.nil_append, hsized]
    exact ⟨(Apart.cons_iff.mp h).2, h.rest_union.symm⟩

/-- **A block is released**, and some grains of it are lost. -/
theorem returned (good : h.Good arena bs) (hlive : h.live = pre ++ b :: post) {E : Set ℕ}
    {l : List ℕ} (hE : E ⊆ blockExtent b)
    (hl : ∀ R, Apart arena (blockExtent b :: R) → Apart arena (l.map grain ++ R) ∧
      rest arena (l.map grain ++ R) = rest arena (blockExtent b :: R) ∪ E)
    (returns : Returns h.lmm (h.vacant arena) E s') :
    Good arena bs ⟨s', pre ++ post, l ++ h.lost⟩ ∧
      store ⟨s', pre ++ post, l ++ h.lost⟩ = (pre ++ post).map (item h.lmm.memory) := by
  obtain ⟨hapart, hvacant⟩ := good.split hlive s'
  obtain ⟨hshares, hrest⟩ := hl _ hapart
  have hperm : (Heap.reserved ⟨s', pre ++ post, l ++ h.lost⟩).Perm
      (l.map grain ++ Heap.reserved ⟨s', pre ++ post, h.lost⟩) := by
    have hsplit : (l ++ h.lost).map grain = l.map grain ++ h.lost.map grain := List.map_append
    rw [reserved, reserved, hsplit, ← List.append_assoc, ← List.append_assoc]
    exact List.Perm.append_right _ List.perm_append_comm
  have hframe := fun b' (hb' : b' ∈ pre ++ post) =>
    good.frame_others hlive hE returns.bounds returns.agree hb'
  refine ⟨⟨returns.bounds.trans good.bounds, ?_, ?_, fun b' hb' => (hframe b' hb').1,
    fun b' hb' => (hframe b' hb').2.1⟩, ?_⟩
  · have hfree := returns.free
    rw [vacant, rest_perm hperm, hrest, ← hvacant]
    exact hfree
  · exact hshares.perm hperm.symm
  · exact List.map_congr_left fun b' hb' => (hframe b' hb').2.2

/-- **A block is released** with all its grains. -/
theorem released (good : h.Good arena bs) (hlive : h.live = pre ++ b :: post)
    (returns : Returns h.lmm (h.vacant arena) (blockExtent b) s') :
    Good arena bs ⟨s', pre ++ post, h.lost⟩ ∧
      store ⟨s', pre ++ post, h.lost⟩ = (pre ++ post).map (item h.lmm.memory) :=
  good.returned (l := []) hlive (le_refl (blockExtent b))
    (fun _ hR => ⟨(Apart.cons_iff.mp hR).2, hR.rest_union.symm⟩) returns

/-- **A block is moved.** -/
theorem moved (good : h.Good arena bs) (hlive : h.live = pre ++ b :: post)
    (moves : Moves h.lmm (h.vacant arena) b b' s') :
    Good arena bs ⟨s', b' :: (pre ++ post), h.lost⟩ ∧
      store ⟨s', b' :: (pre ++ post), h.lost⟩ =
        item s'.memory b' :: (pre ++ post).map (item h.lmm.memory) := by
  obtain ⟨hapart, hvacant⟩ := good.split hlive s'
  have hframe := fun x (hx : x ∈ pre ++ post) =>
    good.frame_others hlive le_rfl moves.bounds moves.agree hx
  have hb : Disjoint (blockExtent b) (blockExtent b') := by
    refine Disjoint.mono_right moves.sub ?_
    rw [hvacant]
    exact disjoint_rest List.mem_cons_self
  refine ⟨⟨moves.bounds.trans good.bounds, ?_, ?_, fun x hx => ?_, fun x hx => ?_⟩, ?_⟩
  · -- the new block is taken, the old one is given back
    have hfree := moves.free
    have heq : h.vacant arena \ blockExtent b' ∪ blockExtent b =
        Heap.vacant arena ⟨s', b' :: (pre ++ post), h.lost⟩ := by
      change _ = rest arena (blockExtent b' :: Heap.reserved ⟨s', pre ++ post, h.lost⟩)
      rw [rest_cons, ← hapart.rest_union, ← hvacant, Set.union_sdiff_distrib,
        sdiff_eq_self_iff_disjoint.mpr hb.symm]
    rwa [heq] at hfree
  · rw [reserved, List.map_cons, List.cons_append]
    refine Apart.cons_iff.mpr ⟨?_, (Apart.cons_iff.mp hapart).2⟩
    change _ ⊆ rest arena (Heap.reserved ⟨s', pre ++ post, h.lost⟩)
    rw [← hapart.rest_union, ← hvacant]
    exact moves.sub.trans Set.subset_union_left
  · rcases List.mem_cons.mp hx with rfl | hx
    · exact moves.placed.of_bounds moves.bounds
    · exact (hframe x hx).1
  · rcases List.mem_cons.mp hx with rfl | hx
    · exact moves.headed
    · exact (hframe x hx).2.1
  · rw [store, List.map_cons]
    exact congrArg _ (List.map_congr_left fun x hx => (hframe x hx).2.2)

end Heap.Good

/-! ## Stores -/

/-- A byte that is written. -/
theorem storeByte_apply (m : Image) (a x : UInt32) (byte : UInt8) :
    storeBytes m a [byte] x = if x = a then byte else m x := by
  have hlen : [byte].length ≤ 2 ^ 32 := Nat.one_le_two_pow
  rw [storeBytes_apply m a x hlen]
  by_cases hx : x = a
  · rw [if_pos hx, hx, UInt32.sub_self]
    rfl
  · have hne : (x - a).toNat ≠ 0 := fun hzero =>
      hx ((UInt32.sub_eq_iff_eq_add.mp (UInt32.toNat.inj hzero)).trans (UInt32.zero_add a))
    rw [if_neg hx, List.getElem?_eq_none (by simpa [Nat.one_le_iff_ne_zero] using hne)]
    rfl

/-- The bytes of a block when a byte is written. -/
theorem item_store (placed : Placed regions b) (m : Image) (a : UInt32) (byte : UInt8) :
    item (storeBytes m a [byte]) b = (item m b).put a byte := by
  have htop := placed.top
  rw [← placed.stop_eq] at htop
  have hiff : ∀ i, b.address + i < 2 ^ 32 →
      (UInt32.ofNat (b.address + i) = a ↔ b.address + i = a.toNat) := by
    intro i hi
    rw [← UInt32.toNat_inj, UInt32.toNat_ofNat', Nat.mod_eq_of_lt hi]
  rw [Item.put, item, item]
  have hlt := a.toNat_lt
  split
  · next hin =>
    refine congrArg (Item.mk b) (List.ext_getElem (by simp) fun i hi hi' => ?_)
    rw [List.length_map, List.length_range] at hi
    rw [List.getElem_map, List.getElem_range, storeByte_apply, List.getElem_set, List.getElem_map,
      List.getElem_range, if_congr (hiff i (by omega)) rfl rfl]
    refine if_congr ?_ rfl rfl
    change _ ↔ a.toNat - b.address = i
    have := hin.1
    simp only at this
    omega
  · next hin =>
    refine congrArg (Item.mk b) (List.map_congr_left fun i hi => ?_)
    have hi := List.mem_range.mp hi
    rw [storeByte_apply, if_neg fun heq => hin ?_]
    rw [hiff i (by omega)] at heq
    change b.address ≤ a.toNat ∧ a.toNat < b.address + b.size
    omega

namespace Heap.Good

/-- Two live blocks do not overlap. -/
theorem disjoint (good : h.Good arena bs) (hb : b ∈ h.live) (hb' : b' ∈ h.live) (hne : b ≠ b') :
    Disjoint (blockExtent b) (blockExtent b') := by
  have hpair : h.live.Pairwise fun b b' => Disjoint (blockExtent b) (blockExtent b') :=
    List.pairwise_map.mp (List.pairwise_append.mp good.shares.apart).1
  have : Std.Symm fun b b' => Disjoint (blockExtent b) (blockExtent b') := ⟨fun _ _ h => h.symm⟩
  exact hpair.forall hb hb' hne

/-- **A client stores** into a block. -/
theorem stored (good : h.Good arena bs) {address : UInt32} (byte : UInt8) (hb : b ∈ h.live)
    (ha : address.toNat ∈ data b) :
    Good arena bs
        { h with lmm := { h.lmm with memory := storeBytes h.lmm.memory address [byte] } } ∧
      store { h with lmm := { h.lmm with memory := storeBytes h.lmm.memory address [byte] } } =
        h.store.map (Item.put address byte) := by
  have hplaced := good.placed b hb
  have hagree : Agree {address.toNat}ᶜ h.lmm.memory (storeBytes h.lmm.memory address [byte]) :=
    fun x hx => by
      rw [storeByte_apply, if_neg fun heq => hx (by rw [heq]; rfl)]
  have hext : {address.toNat} ⊆ blockExtent b :=
    Set.singleton_subset_iff.mpr (hplaced.data_subset ha)
  refine ⟨⟨good.bounds, ?_, good.shares, good.placed, fun b' hb' => ?_⟩, ?_⟩
  · exact good.free.store hagree ((disjoint_vacant hb).mono_left hext)
  · -- neither the header of the block nor another block is written
    by_cases hbb : b' = b
    · subst hbb
      intro hkept
      have hbehind := hplaced.behind hkept
      rw [hagree.load]
      · exact good.headed b' hb' hkept
      · have := hplaced.top
        rw [hplaced.chunk_toNat]
        have hsize : chunkSize b' = b'.size + 4 := by rw [chunkSize, hkept]
        omega
      · intro x hx heq
        rw [hplaced.chunk_toNat, Set.mem_singleton_iff.mp heq] at hx
        have h1 := hx.2
        have h2 := ha.1
        omega
    · exact (good.placed b' hb').headed (good.headed b' hb') hagree
        fun x hx heq => Set.disjoint_left.mp (good.disjoint hb' hb hbb) hx (hext heq)
  · rw [store, store, List.map_map]
    exact List.map_congr_left fun b' hb' => item_store (good.placed b' hb') _ _ _

/-! ## One call -/

/-- The number of bytes of an item. -/
@[simp] theorem length_item (m : Image) (b : Block) : (item m b).bytes.length = b.size := by
  rw [item, List.length_map, List.length_range]

/-- A call that is refused leaves the heap. -/
theorem hand_zero (h : Heap) (size : UInt32) (allocator : Allocator) :
    h.hand size allocator (0, h.lmm) = (0, h) := rfl

/-- **A call that asks for a block.** -/
theorem asked (good : h.Good arena bs) {c : Call} {size : UInt32} {allocator : Allocator}
    {result : Option (UInt32 × Lmm)} (hc : Store.Asks c)
    (cases : result = some (0, h.lmm) ∨ ∃ p s', result = some (p, s') ∧ p ≠ 0 ∧
      Obtains h.lmm (h.vacant arena) ⟨p.toNat, size.toNat, allocator⟩ s' ∧
      Store.Answers c ⟨p.toNat, size.toNat, allocator⟩
        (item s'.memory ⟨p.toNat, size.toNat, allocator⟩).bytes) :
    ∃ p h', result.map (h.hand size allocator) = some (p, h') ∧ Good arena bs h' ∧
      Store.Step arena h.store (c, p) h'.store := by
  rcases cases with rfl | ⟨p, s', rfl, hp, obtains, answers⟩
  · exact ⟨0, h, rfl, good, Store.Step.refused hc⟩
  · obtain ⟨good', hstore⟩ := good.handed obtains
    refine ⟨p, { h with lmm := s', live := ⟨p.toNat, size.toNat, allocator⟩ :: h.live }, ?_, good',
      ?_⟩
    · rw [Option.map_some, hand, if_neg hp]
    · rw [hstore]
      exact Store.Step.handed hp rfl answers (good.fresh obtains.placed obtains.sub)

/-- The block that a call names. -/
theorem named {test : Block → Bool} (hb : ∃ b ∈ h.live, test b) :
    ∃ b pre post, h.live = pre ++ b :: post ∧ test b ∧ h.live.eraseP test = pre ++ post ∧
      h.live.find? test = some b := by
  obtain ⟨b, hb, htest⟩ := hb
  obtain ⟨b', pre, post, hno, htest', hlive, herase⟩ := List.exists_of_eraseP hb htest
  refine ⟨b', pre, post, hlive, htest', herase, ?_⟩
  rw [hlive, List.find?_append, List.find?_eq_none.mpr hno, List.find?_cons_of_pos htest']
  rfl

theorem malloc_step (good : h.Good arena bs) (low : arena ⊆ Set.Ici 8) {size : UInt32}
    (hsize : size.toNat + 11 < 2 ^ 32) :
    ∃ p h', h.step (.malloc size) = some (p, h') ∧ Good arena bs h' ∧
      Store.Step arena h.store (.malloc size, p) h'.store := by
  refine good.asked trivial ?_
  rcases malloc_spec good.free ((rest_subset _ _).trans low) hsize with ⟨hres, -⟩ |
    ⟨p, s', hres, hp, -, obtains⟩
  · exact Or.inl hres
  · exact Or.inr ⟨p, s', hres, hp, obtains, rfl, rfl, length_item _ _⟩

theorem calloc_step (good : h.Good arena bs) (low : arena ⊆ Set.Ici 8) {nelt eltsize : UInt32}
    (hsize : (nelt * eltsize).toNat + 11 < 2 ^ 32) :
    ∃ p h', h.step (.calloc nelt eltsize) = some (p, h') ∧ Good arena bs h' ∧
      Store.Step arena h.store (.calloc nelt eltsize, p) h'.store := by
  refine good.asked trivial ?_
  rcases calloc_spec good.free ((rest_subset _ _).trans low) hsize with ⟨hres, -⟩ |
    ⟨p, s', hres, hp, obtains, hzero⟩
  · exact Or.inl hres
  · refine Or.inr ⟨p, s', hres, hp, obtains, rfl, rfl, List.eq_replicate_iff.mpr
      ⟨length_item _ _, fun v hv => ?_⟩⟩
    obtain ⟨i, hi, rfl⟩ := List.mem_map.mp hv
    have hi := List.mem_range.mp hi
    have htop := obtains.placed.top
    rw [← obtains.placed.stop_eq] at htop
    refine hzero _ ?_
    rw [UInt32.toNat_ofNat', Nat.mod_eq_of_lt (by omega)]
    exact ⟨Nat.le_add_right _ _, Nat.add_lt_add_left hi _⟩

theorem free_step (good : h.Good arena bs) {ptr : UInt32} (hb : ∃ b ∈ h.live, keptAt ptr b) :
    ∃ p h', h.step (.free ptr) = some (p, h') ∧ Good arena bs h' ∧
      Store.Step arena h.store (.free ptr, p) h'.store := by
  obtain ⟨b, pre, post, hlive, htest, herase, -⟩ := named hb
  have hmem : b ∈ h.live := by
    rw [hlive]
    exact List.mem_append_right _ List.mem_cons_self
  obtain ⟨haddr, hkept⟩ := of_decide_eq_true htest
  obtain ⟨s', hres, returns⟩ := free_spec good.free hkept (good.placed b hmem) (good.headed b hmem)
    (disjoint_vacant hmem)
  rw [haddr, UInt32.ofNat_toNat] at hres
  obtain ⟨good', hstore⟩ := good.released hlive returns
  refine ⟨0, ⟨s', pre ++ post, h.lost⟩, ?_, good', ?_⟩
  · rw [step, hres, Option.map_some, herase]
  · rw [hstore, store, hlive, List.map_append, List.map_cons, List.map_append]
    exact Store.Step.freed htest

theorem sfree_step (good : h.Good arena bs) {chunk size : UInt32}
    (hb : ∃ b ∈ h.live, sizedAt chunk size b) :
    ∃ p h', h.step (.sfree chunk size) = some (p, h') ∧ Good arena bs h' ∧
      Store.Step arena h.store (.sfree chunk size, p) h'.store := by
  obtain ⟨b, pre, post, hlive, htest, herase, hfind⟩ := named hb
  have hmem : b ∈ h.live := by
    rw [hlive]
    exact List.mem_append_right _ List.mem_cons_self
  obtain ⟨haddr, hsize, hpos⟩ := of_decide_eq_true htest
  obtain ⟨s', hres, returns⟩ := sfree_spec good.free (good.placed b hmem) hpos
    (disjoint_vacant hmem)
  rw [haddr, hsize, UInt32.ofNat_toNat, UInt32.ofNat_toNat] at hres
  obtain ⟨good', hstore⟩ := good.returned hlive (sizedExtent_subset (good.placed b hmem))
    (fun _ hR => rest_leftOut (good.placed b hmem) hR) returns
  refine ⟨0, ⟨s', pre ++ post, leftOut b ++ h.lost⟩, ?_, good', ?_⟩
  · rw [step, hres, Option.map_some, herase, hfind]
    rfl
  · rw [hstore, store, hlive, List.map_append, List.map_cons, List.map_append]
    exact Store.Step.sfreed htest

theorem realloc_step (good : h.Good arena bs) (low : arena ⊆ Set.Ici 8) {buf newSize : UInt32}
    (hb : buf = 0 ∨ ∃ b ∈ h.live, keptAt buf b) (hsize : newSize.toNat + 11 < 2 ^ 32) :
    ∃ p h', h.step (.realloc buf newSize) = some (p, h') ∧ Good arena bs h' ∧
      Store.Step arena h.store (.realloc buf newSize, p) h'.store := by
  have hlow : h.vacant arena ⊆ Set.Ici 8 := (rest_subset _ _).trans low
  rcases hb with rfl | hb
  · -- no block is at address zero
    have hno : ∀ b ∈ h.live, ¬ keptAt 0 b := by
      intro b hb htest
      obtain ⟨haddr, -⟩ := of_decide_eq_true htest
      have h1 := (good.placed b hb).low
      have h2 := (good.placed b hb).le_address
      rw [haddr, UInt32.toNat_zero] at h2
      omega
    have hstep : h.step (.realloc 0 newSize) =
        (malloc h.lmm newSize).map (h.hand newSize .sizeKept) := by
      rw [step, realloc, if_pos rfl, List.eraseP_of_forall_not hno]
      rfl
    rw [hstep]
    refine good.asked trivial ?_
    rcases malloc_spec good.free hlow hsize with ⟨hres, -⟩ | ⟨p, s', hres, hp, -, obtains⟩
    · exact Or.inl hres
    · exact Or.inr ⟨p, s', hres, hp, obtains, rfl, rfl, rfl, length_item _ _⟩
  · obtain ⟨b, pre, post, hlive, htest, herase, -⟩ := named hb
    have hmem : b ∈ h.live := by
      rw [hlive]
      exact List.mem_append_right _ List.mem_cons_self
    obtain ⟨haddr, hkept⟩ := of_decide_eq_true htest
    rcases realloc_spec good.free hlow hkept (good.placed b hmem) (good.headed b hmem)
      (disjoint_vacant hmem) hsize with ⟨hres, -⟩ | ⟨p, s', hres, hp, moves⟩
    · rw [haddr, UInt32.ofNat_toNat] at hres
      refine ⟨0, h, ?_, good, Store.Step.refused trivial⟩
      rw [step, hres]
      rfl
    · rw [haddr, UInt32.ofNat_toNat] at hres
      obtain ⟨good', hstore⟩ := good.moved hlive moves
      refine ⟨p, ⟨s', ⟨p.toNat, newSize.toNat, .sizeKept⟩ :: (pre ++ post), h.lost⟩, ?_, good', ?_⟩
      · rw [step, hres, Option.map_some]
        dsimp only
        rw [if_neg hp, herase]
      · have hfresh := good.fresh moves.placed moves.sub
        rw [store, hlive, List.map_append, List.map_cons] at hfresh
        rw [hstore, store, hlive, List.map_append, List.map_cons, List.map_append]
        refine Store.Step.moved hp htest (length_item _ _) ?_ hfresh
        change List.take (min b.size newSize.toNat) _ = List.take (min b.size newSize.toNat) _
        refine List.ext_getElem ?_ fun i hi hi' => ?_
        · rw [List.length_take, List.length_take, length_item]
          change min _ (item s'.memory _).bytes.length = _
          rw [length_item]
          simp only
          omega
        have hlt : i < min b.size newSize.toNat := by
          rw [List.length_take] at hi
          exact lt_of_lt_of_le hi (Nat.min_le_left _ _)
        rw [List.getElem_take, List.getElem_take]
        simpa [item] using moves.kept i hlt

theorem memalign_step (good : h.Good arena bs) (low : arena ⊆ Set.Ici 8)
    (high : arena ⊆ Set.Iio (2 ^ 31)) {alignment size : UInt32}
    (halign : alignment.toNat ≤ 2 ^ 31) (hsize : size.toNat + 11 < 2 ^ 32) :
    ∃ p h', h.step (.memalign alignment size) = some (p, h') ∧ Good arena bs h' ∧
      Store.Step arena h.store (.memalign alignment size, p) h'.store := by
  refine good.asked trivial ?_
  rcases memalign_spec good.free ((rest_subset _ _).trans low) ((rest_subset _ _).trans high) halign
    hsize with ⟨hres, -⟩ | ⟨p, s', hres, hp, haligned, obtains⟩
  · exact Or.inl hres
  · exact Or.inr ⟨p, s', hres, hp, obtains, rfl, rfl, length_item _ _, haligned⟩

theorem smemalign_step (good : h.Good arena bs) (low : arena ⊆ Set.Ici 8)
    (high : arena ⊆ Set.Iio (2 ^ 31)) {alignment size : UInt32}
    (halign : alignment.toNat ≤ 2 ^ 31) (hsize : 0 < size.toNat) :
    ∃ p h', h.step (.smemalign alignment size) = some (p, h') ∧ Good arena bs h' ∧
      Store.Step arena h.store (.smemalign alignment size, p) h'.store := by
  refine good.asked trivial ?_
  rcases smemalign_spec good.free ((rest_subset _ _).trans low) ((rest_subset _ _).trans high)
    halign hsize with ⟨hres, -⟩ | ⟨p, s', hres, hp, haligned, obtains⟩
  · exact Or.inl hres
  · exact Or.inr ⟨p, s', hres, hp, obtains, rfl, rfl, length_item _ _, haligned⟩

/-- **One call** that a client may make: it has a result, and it is what the specification says. -/
theorem step (good : h.Good arena bs) (low : arena ⊆ Set.Ici 8)
    (high : arena ⊆ Set.Iio (2 ^ 31)) {c : Call} (legal : h.Legal c) :
    ∃ p h', h.step c = some (p, h') ∧ Good arena bs h' ∧
      Store.Step arena h.store (c, p) h'.store := by
  cases c with
  | malloc size => exact good.malloc_step low legal
  | calloc nelt eltsize => exact good.calloc_step low legal
  | memalign alignment size => exact good.memalign_step low high legal.1 legal.2
  | smemalign alignment size => exact good.smemalign_step low high legal.1 legal.2
  | realloc buf newSize => exact good.realloc_step low legal.1 legal.2
  | free ptr => exact good.free_step legal
  | sfree chunk size => exact good.sfree_step legal
  | store address byte =>
      obtain ⟨b, hb, ha⟩ := legal
      obtain ⟨good', hstore⟩ := good.stored byte hb ha
      refine ⟨0, _, rfl, good', ?_⟩
      rw [hstore]
      exact Store.Step.stored ⟨item h.lmm.memory b, List.mem_map_of_mem hb, ha⟩

end Heap.Good

end Pebbles.Malloc
