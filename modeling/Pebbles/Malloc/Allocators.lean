import Pebbles.Malloc.FreeMemory
import Pebbles.Memory.KernelHeap
import Mathlib.Data.Nat.Log
import Mathlib.Data.Nat.ModEq

/-! # The allocators of the kernel

The functions of `410kern/malloc` over the list memory manager. `_malloc` and `_memalign` put the
size of the block in front of it, where `_free` finds it; for `_smemalign` and `_sfree` the caller
keeps it.
Each function is described by the block it hands out or takes back: `Obtains` and `Returns`. -/

namespace Pebbles.Malloc

open ByteStores FreeLists
open Memory (Block Allocator)

/-! ## The functions -/

/-- `*chunk = size; return chunk+1`. -/
def keepSize (size : UInt32) (result : UInt32 × Lmm) : UInt32 × Lmm :=
  if result.1 = 0 then (0, result.2)
  else (result.1 + 4, { result.2 with memory := storeWord result.2.memory result.1 size })

/-- `_malloc`. -/
def malloc (s : Lmm) (size : UInt32) : Option (UInt32 × Lmm) :=
  (lmmAlloc s (size + 4) 0).map (keepSize (size + 4))

/-- `memset(ptr, 0, n)`. -/
def clear (m : Image) (p n : UInt32) : Image := storeBytes m p (List.replicate n.toNat 0)

/-- `_calloc`. -/
def calloc (s : Lmm) (nelt eltsize : UInt32) : Option (UInt32 × Lmm) :=
  let allocsize := nelt * eltsize
  (malloc s allocsize).map fun (ptr, s) =>
    if ptr = 0 then (0, s) else (ptr, { s with memory := clear s.memory ptr allocsize })

/-- The alignment shift in bits. There is no result where the shift would be undefined. -/
def shiftFor (alignment : UInt32) : ℕ → ℕ → Option ℕ
  | 0, _ => none
  | steps + 1, shift =>
      if (1 : UInt32) <<< UInt32.ofNat shift < alignment then shiftFor alignment steps (shift + 1)
      else some shift

/-- `_memalign`. -/
def memalign (s : Lmm) (alignment size : UInt32) : Option (UInt32 × Lmm) :=
  (shiftFor alignment 32 0).bind fun shift =>
    (lmmAllocAligned s (size + 4) 0 shift ((1 : UInt32) <<< UInt32.ofNat shift - 4)).map
      (keepSize (size + 4))

/-- `_smemalign`. -/
def smemalign (s : Lmm) (alignment size : UInt32) : Option (UInt32 × Lmm) :=
  (shiftFor alignment 32 0).bind fun shift => lmmAllocAligned s size 0 shift 0

/-- `_free`. -/
def free (s : Lmm) (ptr : UInt32) : Option Lmm := lmmFree s (ptr - 4) (load s.memory (ptr - 4))

/-- `_sfree`. -/
def sfree (s : Lmm) (chunk size : UInt32) : Option Lmm := lmmFree s chunk size

/-- `memcpy(dst, src, n)`. -/
def copy (m : Image) (dst src n : UInt32) : Image :=
  storeBytes m dst ((List.range n.toNat).map fun i => m (src + UInt32.ofNat i))

/-- `_realloc`. -/
def realloc (s : Lmm) (buf newSize : UInt32) : Option (UInt32 × Lmm) :=
  if buf = 0 then malloc s newSize
  else
    let op := buf - 4
    let oldSize := load s.memory op
    let newSize := newSize + 4
    (lmmAlloc s newSize 0).bind fun (np, s) =>
      if np = 0 then some (0, s)
      else
        let s := { s with
          memory := copy s.memory np op (if oldSize < newSize then oldSize else newSize) }
        (lmmFree s op oldSize).map fun s =>
          (np + 4, { s with memory := storeWord s.memory np newSize })

/-! ## Blocks -/

/-- The address that the manager knows a block by. -/
def chunkAddress (b : Block) : ℕ :=
  match b.allocator with
  | .sizeKept => b.address - 4
  | .sizeGiven => b.address

/-- The size that the manager knows. -/
def chunkSize (b : Block) : ℕ :=
  match b.allocator with
  | .sizeKept => b.size + 4
  | .sizeGiven => b.size

/-- The grains of a block. -/
def blockExtent (b : Block) : Set ℕ := extent (chunkAddress b) (chunkSize b)

/-- The bytes that belong to the caller. -/
def data (b : Block) : Set ℕ := Set.Ico b.address (b.address + b.size)

/-- **A block in its place**: it is in one region, and behind its header if it has one. -/
structure Placed (regions : List Region) (b : Block) : Prop where
  /-- It does not begin in the first grain. -/
  low : 8 ≤ chunkAddress b
  /-- It is not empty. -/
  pos : 0 < chunkSize b
  /-- It lies in one region. -/
  inside : ∃ r ∈ regions, blockExtent b ⊆ r.range
  /-- The header is in front of it. -/
  behind : b.allocator = .sizeKept → b.address = chunkAddress b + 4

/-- The header of a block has its size. -/
def Headed (m : Image) (b : Block) : Prop :=
  b.allocator = .sizeKept → (load m (UInt32.ofNat (chunkAddress b))).toNat = b.size + 4

variable {s s' : Lmm} {F : Set ℕ} {b : Block} {m m' : Image} {size alignment : UInt32} {a n : ℕ}
  {regions : List Region}

/-- The extent of a block has the bytes of the block. -/
theorem mem_extent (ha : a ≤ n) {k : ℕ} (hn : n < a + k) : n ∈ extent a k := by
  refine ⟨?_, ?_⟩
  · rw [grainStart]
    omega
  · rw [grainStart, grainLength]
    omega

/-- A block ends in the region that its grains lie in. -/
theorem Region.block_stop {r : Region} (hin : extent a n ⊆ r.range) (hn : 0 < n) :
    a + n < 2 ^ 32 := by
  have hlast := hin (mem_extent (n := a + n - 1) (k := n) (a := a) (by omega) (by omega))
  have h1 := hlast.2
  have h2 := r.max.toNat_lt
  omega

/-- The regions of two states of the manager lie in the same places. -/
theorem exists_region (h : s'.bounds = s.bounds) {r : Region} (hr : r ∈ s.regions) :
    ∃ r' ∈ s'.regions, r'.range = r.range := by
  have hmem : r.bounds ∈ s'.bounds := by
    rw [h]
    exact List.mem_map_of_mem hr
  obtain ⟨r', hr', heq⟩ := List.mem_map.mp hmem
  obtain ⟨hmin, hmax, -⟩ := Prod.ext_iff.mp heq |>.imp_right Prod.ext_iff.mp
  refine ⟨r', hr', ?_⟩
  rw [Region.range, Region.range]
  exact congrArg₂ (fun x y : UInt32 => Set.Ico x.toNat y.toNat) hmin hmax

namespace Placed

/-- A block stays in its place. -/
theorem of_bounds (h : Placed s.regions b) (hb : s'.bounds = s.bounds) : Placed s'.regions b := by
  obtain ⟨r, hr, hin⟩ := h.inside
  obtain ⟨r', hr', hrange⟩ := exists_region hb hr
  exact ⟨h.low, h.pos, ⟨r', hr', by rw [hrange]; exact hin⟩, h.behind⟩

theorem top (h : Placed regions b) : chunkAddress b + chunkSize b < 2 ^ 32 := by
  obtain ⟨r, -, hr⟩ := h.inside
  exact Region.block_stop hr h.pos

theorem chunk_lt (h : Placed regions b) : chunkAddress b < 2 ^ 32 :=
  lt_of_le_of_lt (Nat.le_add_right _ _) h.top

/-- The caller's end of the block is the end of the chunk. -/
theorem stop_eq (h : Placed regions b) : b.address + b.size = chunkAddress b + chunkSize b := by
  cases hb : b.allocator with
  | sizeKept =>
      have := h.behind hb
      rw [chunkSize, hb]
      simp only
      omega
  | sizeGiven => rw [chunkAddress, chunkSize, hb]

theorem le_address (_ : Placed regions b) : chunkAddress b ≤ b.address := by
  rw [chunkAddress]
  split <;> omega

theorem chunk_toNat (h : Placed regions b) :
    (UInt32.ofNat (chunkAddress b)).toNat = chunkAddress b := by
  rw [UInt32.toNat_ofNat', Nat.mod_eq_of_lt h.chunk_lt]

theorem address_toNat (h : Placed regions b) : (UInt32.ofNat b.address).toNat = b.address := by
  have htop := h.top
  rw [← h.stop_eq] at htop
  rw [UInt32.toNat_ofNat', Nat.mod_eq_of_lt (by omega)]

/-- The header is one word in front of the block. -/
theorem header_pointer (h : Placed regions b) (hb : b.allocator = .sizeKept) :
    UInt32.ofNat b.address - 4 = UInt32.ofNat (chunkAddress b) := by
  have hbehind := h.behind hb
  have hfour : (4 : UInt32).toNat = 4 := rfl
  apply UInt32.toNat.inj
  rw [sub_toNat_of_le (by rw [h.address_toNat, hfour]; omega), h.address_toNat, h.chunk_toNat,
    hfour]
  omega

/-- The size in the header is that of the chunk. -/
theorem load_header (h : Placed regions b) (hh : Headed m b) (hb : b.allocator = .sizeKept) :
    (load m (UInt32.ofNat b.address - 4)).toNat = chunkSize b := by
  rw [h.header_pointer hb, hh hb, chunkSize, hb]

/-- The bytes of the caller are in the extent. -/
theorem data_subset (h : Placed regions b) : data b ⊆ blockExtent b := by
  intro x hx
  have h2 := hx.2
  rw [h.stop_eq] at h2
  exact mem_extent (le_trans h.le_address hx.1) h2

/-- So is the header. -/
theorem header_subset (_ : Placed regions b) (hb : b.allocator = .sizeKept) :
    Set.Ico (chunkAddress b) (chunkAddress b + 4) ⊆ blockExtent b := by
  intro x hx
  refine mem_extent hx.1 ?_
  have h2 := hx.2
  rw [chunkSize, hb]
  simp only
  omega

/-- The header stays when memory agrees on the extent. -/
theorem headed (h : Placed regions b) (hh : Headed m b) {S : Set ℕ} (agree : Agree S m m')
    (hS : blockExtent b ⊆ S) : Headed m' b := by
  intro hb
  have hnat : (UInt32.ofNat (chunkAddress b)).toNat = chunkAddress b := by
    rw [UInt32.toNat_ofNat', Nat.mod_eq_of_lt h.chunk_lt]
  have htop := h.top
  have hsize : 4 ≤ chunkSize b := by
    rw [chunkSize, hb]
    exact Nat.le_add_left _ _
  rw [agree.load (by rw [hnat]; omega)
    (by rw [hnat]; exact (h.header_subset hb).trans hS)]
  exact hh hb

end Placed

/-- **A block is handed out.** -/
structure Obtains (s : Lmm) (F : Set ℕ) (b : Block) (s' : Lmm) : Prop where
  /-- Its grains were free. -/
  sub : blockExtent b ⊆ F
  /-- They are not any more, everything else is. -/
  free : s'.HasFree (F \ blockExtent b)
  /-- It is in its place. -/
  placed : Placed s.regions b
  /-- Its header has the size. -/
  headed : Headed s'.memory b
  /-- Memory is the same where it was not free. -/
  agree : Agree Fᶜ s.memory s'.memory
  /-- The regions lie where they lay. -/
  bounds : s'.bounds = s.bounds

/-- **Grains are taken back**: those of `E`. -/
structure Returns (s : Lmm) (F E : Set ℕ) (s' : Lmm) : Prop where
  /-- They are free. -/
  free : s'.HasFree (F ∪ E)
  /-- Memory is the same everywhere else. -/
  agree : Agree (F ∪ E)ᶜ s.memory s'.memory
  /-- The regions lie where they lay. -/
  bounds : s'.bounds = s.bounds

/-! ## Stores into a block -/

/-- A store into memory that is not free. -/
theorem Lmm.HasFree.store (h : s.HasFree F) {E : Set ℕ} (agree : Agree Eᶜ s.memory m')
    (held : Disjoint E F) : Lmm.HasFree { s with memory := m' } F := by
  obtain ⟨zs, hz, rfl⟩ := h
  refine ⟨zs, ⟨hz.regions, fun z hzm => ?_, hz.apart⟩, rfl⟩
  have hhz := hz.holds z hzm
  refine ⟨hhz.seg.frame hhz.spaced (agree.mono ?_), hhz.separated, hhz.grained, hhz.within,
    hhz.free⟩
  exact fun x hx hxE => Set.disjoint_left.mp held hxE ⟨z, hzm, hx⟩

/-- A store into a block just handed out. -/
theorem Obtains.store (h : Obtains s F b s') {E : Set ℕ} (agree : Agree Eᶜ s'.memory m')
    (hE : E ⊆ blockExtent b) (headed : Headed m' b) : Obtains s F b { s' with memory := m' } where
  sub := h.sub
  free := h.free.store agree (Set.disjoint_left.mpr fun _ hx hxF => hxF.2 (hE hx))
  placed := h.placed
  headed := headed
  agree := h.agree.trans (agree.mono fun _ hx hxE => hx (h.sub (hE hxE)))
  bounds := h.bounds

/-- The bytes that `memset` and `memcpy` write. -/
theorem agree_storeBytes (bs : List UInt8) {p : UInt32} (m : Image)
    (hp : p.toNat + bs.length ≤ 2 ^ 32) :
    Agree (Set.Ico p.toNat (p.toNat + bs.length))ᶜ m (storeBytes m p bs) := by
  intro x hx
  refine storeBytes_of_le (by omega) ?_
  have hlt := x.toNat_lt
  have hout : ¬ (p.toNat ≤ x.toNat ∧ x.toNat < p.toNat + bs.length) := hx
  rw [sub_toNat]
  omega

/-! ## The size in front of the block -/

/-- A chunk with room for the size in front is a block in its place. -/
theorem Granted.block {chunk flags : UInt32} (h8 : 8 ≤ chunk.toNat)
    (hsize : size.toNat + 4 < 2 ^ 32) (h : Granted s F flags (grainStart chunk.toNat)
      (grainLength chunk.toNat (size + 4).toNat) s') :
    (chunk + 4).toNat = chunk.toNat + 4 ∧
      chunkAddress ⟨(chunk + 4).toNat, size.toNat, .sizeKept⟩ = chunk.toNat ∧
      blockExtent ⟨(chunk + 4).toNat, size.toNat, .sizeKept⟩ =
        extent chunk.toNat (size + 4).toNat ∧
      Placed s.regions ⟨(chunk + 4).toNat, size.toNat, .sizeKept⟩ := by
  have hsum : (size + 4).toNat = size.toNat + 4 := add_toNat hsize
  obtain ⟨r, hr, -, hin⟩ := h.inside
  have hext : extent chunk.toNat (size + 4).toNat ⊆ r.range := hin
  have hlt : chunk.toNat + (size + 4).toNat < 2 ^ 32 := Region.block_stop hext (by omega)
  have hp : (chunk + 4).toNat = chunk.toNat + 4 := add_toNat (by
    show chunk.toNat + 4 < 2 ^ 32
    omega)
  have haddr : chunkAddress ⟨(chunk + 4).toNat, size.toNat, .sizeKept⟩ = chunk.toNat := by
    rw [chunkAddress]
    simp only [hp]
    omega
  have hcsize : chunkSize ⟨(chunk + 4).toNat, size.toNat, .sizeKept⟩ = (size + 4).toNat := hsum.symm
  have hbext : blockExtent ⟨(chunk + 4).toNat, size.toNat, .sizeKept⟩ =
      extent chunk.toNat (size + 4).toNat := by rw [blockExtent, haddr, hcsize]
  exact ⟨hp, haddr, hbext, by rw [haddr]; exact h8, by rw [hcsize]; omega,
    ⟨r, hr, by rw [hbext]; exact hext⟩, fun _ => by rw [haddr, hp]⟩

/-- The word in front is in the extent of the block. -/
theorem word_subset {chunk : UInt32} (hsize : size.toNat + 4 < 2 ^ 32) :
    Set.Ico chunk.toNat (chunk.toNat + 4) ⊆ extent chunk.toNat (size + 4).toNat := by
  have hsum : (size + 4).toNat = size.toNat + 4 := add_toNat hsize
  intro x hx
  have := hx.2
  exact mem_extent hx.1 (by omega)

/-- **A chunk becomes a block with its size in front.** -/
theorem obtains_keepSize {chunk : UInt32} (hne : chunk ≠ 0) (h8 : 8 ≤ chunk.toNat)
    (hsize : size.toNat + 4 < 2 ^ 32)
    (h : Granted s F 0 (grainStart chunk.toNat)
      (grainLength chunk.toNat (size + 4).toNat) s') :
    ∃ p s1, keepSize (size + 4) (chunk, s') = (p, s1) ∧ p.toNat = chunk.toNat + 4 ∧
      Obtains s F ⟨p.toNat, size.toNat, .sizeKept⟩ s1 := by
  obtain ⟨hp, haddr, hbext, hplaced⟩ := h.block h8 hsize
  have hlt : chunk.toNat + (size.toNat + 4) < 2 ^ 32 := by
    rw [← haddr]
    exact hplaced.top
  have hagree : Agree (Set.Ico chunk.toNat (chunk.toNat + 4))ᶜ s'.memory
      (storeWord s'.memory chunk (size + 4)) :=
    Agree.storeWord (by omega) (Set.disjoint_left.mpr fun x hx hx' => hx hx')
  have hword : Set.Ico chunk.toNat (chunk.toNat + 4) ⊆ extent chunk.toNat (size + 4).toNat :=
    word_subset hsize
  refine ⟨chunk + 4, { s' with memory := storeWord s'.memory chunk (size + 4) }, ?_, hp, ?_⟩
  · rw [keepSize, if_neg hne]
  · refine ⟨by rw [hbext]; exact h.sub, ?_, hplaced, ?_, ?_, h.bounds⟩
    · rw [hbext]
      exact h.free.store hagree (Set.disjoint_left.mpr fun x hx hxF => hxF.2 (hword hx))
    · intro _
      rw [haddr, UInt32.ofNat_toNat, load_storeWord]
      exact add_toNat hsize
    · exact h.agree.trans (hagree.mono fun x hx hxw => hx (h.sub (hword hxw)))

/-! ## Allocation -/

/-- There is no stretch of `k` free bytes in a region that begins at a grain. -/
def NoStretch (s : Lmm) (F : Set ℕ) (k : ℕ) : Prop :=
  ∀ r ∈ s.regions, ∀ a, ¬ Set.Ico a (a + k) ⊆ F ∩ r.range

/-- **`_malloc`** hands out a block, unless no stretch of free memory is long enough. -/
theorem malloc_spec (h : s.HasFree F) (low : F ⊆ Set.Ici 8) (hsize : size.toNat + 11 < 2 ^ 32) :
    (malloc s size = some (0, s) ∧ NoStretch s F (grainLength 0 (size.toNat + 4))) ∨
    ∃ p s', malloc s size = some (p, s') ∧ p ≠ 0 ∧ 8 ∣ p.toNat - 4 ∧
      Obtains s F ⟨p.toNat, size.toNat, .sizeKept⟩ s' := by
  have hsum : (size + 4).toNat = size.toNat + 4 := add_toNat (by
    show size.toNat + 4 < 2 ^ 32
    omega)
  rw [malloc]
  rcases lmmAlloc_spec h (by omega : 0 < (size + 4).toNat) (by omega) 0 with
    ⟨hres, hno⟩ | ⟨chunk, s1, hres, hne, h8, hgranted⟩
  · rw [hres]
    refine Or.inl ⟨rfl, fun r hr a hsub => ?_⟩
    refine hno r hr UInt32.zero_and a ?_
    rwa [hsum]
  · have hlow : 8 ≤ chunk.toNat := by
      have hfirst : grainStart chunk.toNat ∈ F :=
        hgranted.sub ⟨le_rfl, by rw [grainLength]; omega⟩
      exact le_trans (low hfirst) (Nat.div_mul_le_self _ _)
    obtain ⟨p, s2, hkeep, hp, hobtains⟩ := obtains_keepSize hne hlow (by omega) hgranted
    rw [hres]
    refine Or.inr ⟨p, s2, by rw [Option.map_some, hkeep], ?_, by rw [hp]; simpa using h8, hobtains⟩
    rintro rfl
    rw [UInt32.toNat_zero] at hp
    omega

/-- **`_calloc`** does the same, and the bytes of the block are zero. -/
theorem calloc_spec {nelt eltsize : UInt32} (h : s.HasFree F) (low : F ⊆ Set.Ici 8)
    (hsize : (nelt * eltsize).toNat + 11 < 2 ^ 32) :
    (calloc s nelt eltsize = some (0, s) ∧
      NoStretch s F (grainLength 0 ((nelt * eltsize).toNat + 4))) ∨
    ∃ p s', calloc s nelt eltsize = some (p, s') ∧ p ≠ 0 ∧
      Obtains s F ⟨p.toNat, (nelt * eltsize).toNat, .sizeKept⟩ s' ∧
        ∀ x : UInt32, x.toNat ∈ data ⟨p.toNat, (nelt * eltsize).toNat, .sizeKept⟩ →
          s'.memory x = 0 := by
  rw [calloc]
  dsimp only
  generalize nelt * eltsize = size at hsize ⊢
  rcases malloc_spec h low hsize with ⟨hres, hno⟩ | ⟨p, s1, hres, hne, -, hobtains⟩
  · rw [hres]
    exact Or.inl ⟨rfl, hno⟩
  · have htop := hobtains.placed.top
    rw [← hobtains.placed.stop_eq] at htop
    have hlen : (List.replicate size.toNat (0 : UInt8)).length = size.toNat :=
      List.length_replicate
    have hagree := agree_storeBytes (List.replicate size.toNat 0) (p := p) s1.memory
      (by rw [hlen]; exact htop.le)
    rw [hlen] at hagree
    refine Or.inr ⟨p, { s1 with memory := clear s1.memory p size }, ?_, hne,
      hobtains.store hagree hobtains.placed.data_subset ?_, ?_⟩
    · rw [hres]
      exact congrArg some (if_neg hne)
    · -- the header is in front of the bytes that are cleared
      intro hb
      have hbehind := hobtains.placed.behind rfl
      have hlt := hobtains.placed.chunk_lt
      rw [clear, hagree.load]
      · exact hobtains.headed hb
      · rw [UInt32.toNat_ofNat', Nat.mod_eq_of_lt hlt]
        have := p.toNat_lt
        simp only at hbehind
        omega
      · rw [UInt32.toNat_ofNat', Nat.mod_eq_of_lt hlt]
        intro x hx hx'
        have h1 := hx.2
        have h2 := hx'.1
        simp only at hbehind
        omega
    · intro x hx
      have h1 : p.toNat ≤ x.toNat := hx.1
      have h2 : x.toNat < p.toNat + size.toNat := hx.2
      have hdist : (x - p).toNat = x.toNat - p.toNat := sub_toNat_of_le h1
      show storeBytes s1.memory p (List.replicate size.toNat 0) x = 0
      rw [storeBytes_apply _ _ _ (by rw [hlen]; exact size.toNat_lt.le), hdist,
        List.getElem?_replicate, if_pos (by omega)]
      rfl

/-! ## Aligned allocation -/

/-- **The alignment shift** is the least one that reaches the alignment. -/
theorem shiftFor_spec {steps k : ℕ} (hsum : steps + k = 32) (hk : k ≤ Nat.clog 2 alignment.toNat)
    (hmax : alignment.toNat ≤ 2 ^ 31) :
    shiftFor alignment steps k = some (Nat.clog 2 alignment.toNat) := by
  have hle31 : Nat.clog 2 alignment.toNat ≤ 31 :=
    Nat.clog_le_of_le_pow hmax
  induction steps generalizing k with
  | zero => omega
  | succ steps ih =>
      have hbit : ((1 : UInt32) <<< UInt32.ofNat k).toNat = 2 ^ k := bit_toNat (by omega)
      have hiff : (1 : UInt32) <<< UInt32.ofNat k < alignment ↔ k < Nat.clog 2 alignment.toNat := by
        rw [UInt32.lt_iff_toNat_lt, hbit, Nat.lt_clog_iff_pow_lt (by decide)]
      by_cases hlt : (1 : UInt32) <<< UInt32.ofNat k < alignment
      · rw [shiftFor, if_pos hlt]
        exact ih (by omega) (hiff.mp hlt)
      · rw [shiftFor, if_neg hlt]
        rw [hiff, not_lt] at hlt
        rw [le_antisymm hk hlt]

/-- The alignment that is reached: the least power of two that is not smaller. -/
def aligned (alignment : UInt32) : ℕ := 2 ^ Nat.clog 2 alignment.toNat

/-- The offset that `_memalign` asks for is that of an address four in front of an aligned one. -/
theorem offset_iff {shift a : ℕ} (hshift : shift ≤ 31) :
    a % 2 ^ shift = ((1 : UInt32) <<< UInt32.ofNat shift - 4).toNat % 2 ^ shift ↔
      2 ^ shift ∣ a + 4 := by
  have hdvd : 2 ^ shift ∣ 2 ^ 32 := Nat.pow_dvd_pow 2 (by omega)
  have hfour : (4 : UInt32).toNat = 4 := rfl
  rw [sub_toNat, bit_toNat (by omega), hfour, Nat.mod_mod_of_dvd _ hdvd, Nat.add_mod_left]
  have hsum : 2 ^ 32 - 4 + 4 ≡ 0 [MOD 2 ^ shift] := by
    rw [Nat.sub_add_cancel (by decide)]
    exact Nat.modEq_zero_iff_dvd.mpr hdvd
  constructor
  · intro h
    exact Nat.modEq_zero_iff_dvd.mp ((Nat.ModEq.add_right 4 h).trans hsum)
  · intro h
    exact Nat.ModEq.add_right_cancel' 4 ((Nat.modEq_zero_iff_dvd.mpr h).trans hsum.symm)

/-- The whole address space. -/
theorem inMax_anywhere : (0 : UInt32).toNat + (-1 : UInt32).toNat = 2 ^ 32 - 1 := by decide

/-- **`lmm_alloc_aligned`** finds a block with the low bits asked for when there is one. -/
theorem lmmAllocAligned_spec {k : ℕ} (h : s.HasFree F) (high : F ⊆ Set.Iio (2 ^ 31)) (hk : k ≤ 31)
    (hpos : 0 < size.toNat) (ofs : UInt32) :
    (lmmAllocAligned s size 0 k ofs = some (0, s) ∧
      ∀ r ∈ s.regions, ∀ a, a % 2 ^ k = ofs.toNat % 2 ^ k →
        ¬ Set.Ico a (a + size.toNat) ⊆ F ∩ r.range) ∨
    ∃ chunk s', lmmAllocAligned s size 0 k ofs = some (chunk, s') ∧ chunk ≠ 0 ∧
      chunk.toNat % 2 ^ k = ofs.toNat % 2 ^ k ∧
      Granted s F 0 (grainStart chunk.toNat) (grainLength chunk.toNat size.toNat) s' := by
  have hlast : ∀ b, Set.Ico b (b + size.toNat) ⊆ F → b + size.toNat ≤ 2 ^ 31 := by
    intro b hsub
    have hmem : b + size.toNat - 1 ∈ Set.Ico b (b + size.toNat) := ⟨by omega, by omega⟩
    have hlt : b + size.toNat - 1 < 2 ^ 31 := high (hsub hmem)
    omega
  have hpow : 2 ^ k ≤ 2 ^ 31 := Nat.pow_le_pow_right (by decide) hk
  have hfits : ∀ b, Set.Ico b (b + size.toNat) ⊆ F →
      (Request.mk size 0 k ofs 0 (-1)).Fits b := by
    intro b hsub
    have hle := hlast b hsub
    have hbase : (Request.mk size 0 k ofs 0 (-1)).base b = b := max_eq_left (Nat.zero_le _)
    rw [Request.Fits, hbase]
    show b + 2 ^ k + size.toNat ≤ 2 ^ 32
    omega
  have hrange : (Request.mk size 0 k ofs 0 (-1)).inMin.toNat +
      (Request.mk size 0 k ofs 0 (-1)).inSize.toNat < 2 ^ 32 := by
    rw [inMax_anywhere]
    decide
  rw [lmmAllocAligned]
  rcases lmmAllocGen_spec h hpos (le_trans hk (by decide) : k ≤ 32) hrange hfits with
    ⟨hres, hno⟩ | ⟨chunk, s1, hres, hne, -, -, haligned, hgranted⟩
  · rw [inMax_anywhere] at hno
    refine Or.inl ⟨hres, fun r hr a hal hsub => ?_⟩
    have hle := hlast a fun x hx => (hsub hx).1
    refine hno r hr UInt32.zero_and a (Nat.zero_le _) ?_ hal hsub
    show a + size.toNat ≤ 2 ^ 32 - 1
    omega
  · exact Or.inr ⟨chunk, s1, hres, hne, haligned, hgranted⟩

/-- A block is not at the bottom of memory when free memory is not. -/
theorem Granted.low {start n : ℕ} {flags : UInt32} (h : Granted s F flags start n s')
    (low : F ⊆ Set.Ici 8) (hn : 0 < n) : 8 ≤ start :=
  low (h.sub ⟨le_rfl, Nat.lt_add_of_pos_right hn⟩)

theorem grainLength_pos {k : ℕ} (hk : 0 < k) : 0 < grainLength a k := by
  rw [grainLength]
  omega

/-- **`_memalign`** hands out a block with the alignment asked for, unless there is no stretch of
free memory with room for it. -/
theorem memalign_spec (h : s.HasFree F) (low : F ⊆ Set.Ici 8) (high : F ⊆ Set.Iio (2 ^ 31))
    (halign : alignment.toNat ≤ 2 ^ 31) (hsize : size.toNat + 11 < 2 ^ 32) :
    (memalign s alignment size = some (0, s) ∧
      ∀ r ∈ s.regions, ∀ a, aligned alignment ∣ a + 4 →
        ¬ Set.Ico a (a + (size.toNat + 4)) ⊆ F ∩ r.range) ∨
    ∃ p s', memalign s alignment size = some (p, s') ∧ p ≠ 0 ∧ aligned alignment ∣ p.toNat ∧
      Obtains s F ⟨p.toNat, size.toNat, .sizeKept⟩ s' := by
  have hk31 : Nat.clog 2 alignment.toNat ≤ 31 := Nat.clog_le_of_le_pow halign
  have hsum : (size + 4).toNat = size.toNat + 4 := add_toNat (by
    show size.toNat + 4 < 2 ^ 32
    omega)
  have hpos : 0 < (size + 4).toNat := by omega
  rw [memalign, shiftFor_spec rfl (Nat.zero_le _) halign, Option.bind_some, aligned]
  rcases lmmAllocAligned_spec h high hk31 hpos
      ((1 : UInt32) <<< UInt32.ofNat (Nat.clog 2 alignment.toNat) - 4) with
    ⟨hres, hno⟩ | ⟨chunk, s1, hres, hne, haligned, hgranted⟩
  · rw [hsum] at hno
    rw [hres]
    exact Or.inl ⟨rfl, fun r hr a hdvd => hno r hr a ((offset_iff hk31).mpr hdvd)⟩
  · have hlow := le_trans (hgranted.low low (grainLength_pos hpos)) (Nat.div_mul_le_self _ _)
    obtain ⟨p, s2, hkeep, hp, hobtains⟩ := obtains_keepSize hne hlow (by omega) hgranted
    rw [hres]
    refine Or.inr ⟨p, s2, by rw [Option.map_some, hkeep], ?_, ?_, hobtains⟩
    · rintro rfl
      rw [UInt32.toNat_zero] at hp
      omega
    · rw [hp]
      exact (offset_iff hk31).mp haligned

/-- **`_smemalign`** does so with no header. -/
theorem smemalign_spec (h : s.HasFree F) (low : F ⊆ Set.Ici 8) (high : F ⊆ Set.Iio (2 ^ 31))
    (halign : alignment.toNat ≤ 2 ^ 31) (hpos : 0 < size.toNat) :
    (smemalign s alignment size = some (0, s) ∧
      ∀ r ∈ s.regions, ∀ a, aligned alignment ∣ a →
        ¬ Set.Ico a (a + size.toNat) ⊆ F ∩ r.range) ∨
    ∃ p s', smemalign s alignment size = some (p, s') ∧ p ≠ 0 ∧ aligned alignment ∣ p.toNat ∧
      Obtains s F ⟨p.toNat, size.toNat, .sizeGiven⟩ s' := by
  have hk31 : Nat.clog 2 alignment.toNat ≤ 31 := Nat.clog_le_of_le_pow halign
  rw [smemalign, shiftFor_spec rfl (Nat.zero_le _) halign, Option.bind_some, aligned]
  have hzero : (0 : UInt32).toNat % 2 ^ Nat.clog 2 alignment.toNat = 0 :=
    Nat.zero_mod _
  rcases lmmAllocAligned_spec h high hk31 hpos 0 with
    ⟨hres, hno⟩ | ⟨chunk, s1, hres, hne, haligned, hgranted⟩
  · refine Or.inl ⟨hres, fun r hr a hdvd => hno r hr a ?_⟩
    rw [hzero, Nat.mod_eq_zero_of_dvd hdvd]
  · have hlow := le_trans (hgranted.low low (grainLength_pos hpos)) (Nat.div_mul_le_self _ _)
    obtain ⟨r, hr, -, hin⟩ := hgranted.inside
    rw [hzero] at haligned
    exact Or.inr ⟨chunk, s1, hres, hne, Nat.dvd_of_mod_eq_zero haligned, hgranted.sub,
      hgranted.free, ⟨hlow, hpos, ⟨r, hr, hin⟩, fun h => (by cases h)⟩, fun h => (by cases h),
      hgranted.agree, hgranted.bounds⟩

/-! ## Release -/

/-- **`_free`** takes the grains of a block back. -/
theorem free_spec (h : s.HasFree F) (hb : b.allocator = .sizeKept) (placed : Placed s.regions b)
    (headed : Headed s.memory b) (held : Disjoint (blockExtent b) F) :
    ∃ s', free s (UInt32.ofNat b.address) = some s' ∧ Returns s F (blockExtent b) s' := by
  have hload := placed.load_header headed hb
  rw [placed.header_pointer hb] at hload
  obtain ⟨s', hres, hfree, hagree, hbounds⟩ := lmmFree_spec h
    (by rw [placed.chunk_toNat]; exact placed.low) (by rw [hload]; exact placed.pos)
    (by rw [placed.chunk_toNat, hload]; exact placed.inside)
    (by rw [placed.chunk_toNat, hload]; exact held)
  rw [placed.chunk_toNat, hload] at hfree hagree
  refine ⟨s', ?_, hfree, hagree, hbounds⟩
  rw [free, placed.header_pointer hb]
  exact hres

/-- The grains that `_sfree` takes back for a block. -/
def sizedExtent (b : Block) : Set ℕ := extent b.address b.size

/-- They are grains of the block. -/
theorem sizedExtent_subset (placed : Placed regions b) : sizedExtent b ⊆ blockExtent b := by
  have hle := placed.le_address
  have hstop := placed.stop_eq
  intro x hx
  have h1 := hx.1
  have h2 := hx.2
  rw [grainStart] at h1
  rw [grainStart, grainLength] at h2
  refine ⟨?_, ?_⟩
  · rw [grainStart]
    omega
  · rw [grainStart, grainLength]
    omega

/-- **`_sfree`** takes back the grains of the bytes it is told of. -/
theorem sfree_spec (h : s.HasFree F) (placed : Placed s.regions b) (hpos : 0 < b.size)
    (held : Disjoint (blockExtent b) F) :
    ∃ s', sfree s (UInt32.ofNat b.address) (UInt32.ofNat b.size) = some s' ∧
      Returns s F (sizedExtent b) s' := by
  have htop := placed.top
  rw [← placed.stop_eq] at htop
  have hnat := placed.address_toNat
  have hsize : (UInt32.ofNat b.size).toNat = b.size := by
    rw [UInt32.toNat_ofNat', Nat.mod_eq_of_lt (by omega)]
  obtain ⟨r, hr, hin⟩ := placed.inside
  have hlow : 8 ≤ (UInt32.ofNat b.address).toNat := by
    rw [hnat]
    exact le_trans placed.low placed.le_address
  have hpos' : 0 < (UInt32.ofNat b.size).toNat := by
    rw [hsize]
    exact hpos
  obtain ⟨s', hres, hfree, hagree, hbounds⟩ := lmmFree_spec h hlow hpos'
    (by rw [hnat, hsize]; exact ⟨r, hr, (sizedExtent_subset placed).trans hin⟩)
    (by rw [hnat, hsize]; exact held.mono_left (sizedExtent_subset placed))
  rw [hnat, hsize] at hfree hagree
  exact ⟨s', hres, hfree, hagree, hbounds⟩

/-! ## Moving a block -/

/-- **A block is moved**: what was `b` is `b'`. -/
structure Moves (s : Lmm) (F : Set ℕ) (b b' : Block) (s' : Lmm) : Prop where
  /-- The grains of the new block were free. -/
  sub : blockExtent b' ⊆ F
  /-- The grains of the old one are. -/
  free : s'.HasFree (F \ blockExtent b' ∪ blockExtent b)
  /-- The new block is in its place. -/
  placed : Placed s.regions b'
  /-- Its header has the size. -/
  headed : Headed s'.memory b'
  /-- Memory is the same everywhere else. -/
  agree : Agree (F ∪ blockExtent b)ᶜ s.memory s'.memory
  /-- The regions lie where they lay. -/
  bounds : s'.bounds = s.bounds
  /-- The bytes are the same as far as both blocks go. -/
  kept : ∀ i < min b.size b'.size,
    s'.memory (UInt32.ofNat (b'.address + i)) = s.memory (UInt32.ofNat (b.address + i))

/-- The bytes that `memcpy` writes. -/
theorem copy_apply {dst src k : UInt32} {i : ℕ} (hi : i < k.toNat) :
    copy m dst src k (dst + UInt32.ofNat i) = m (src + UInt32.ofNat i) := by
  have hlen : ((List.range k.toNat).map fun i => m (src + UInt32.ofNat i)).length = k.toNat := by
    rw [List.length_map, List.length_range]
  have hk := k.toNat_lt
  rw [copy, storeBytes_of_lt (by rw [hlen]; exact hk.le) (by rw [hlen]; exact hi), List.getElem_map,
    List.getElem_range]

theorem agree_copy {dst k : UInt32} (src : UInt32) (m : Image)
    (h : dst.toNat + k.toNat ≤ 2 ^ 32) :
    Agree (Set.Ico dst.toNat (dst.toNat + k.toNat))ᶜ m (copy m dst src k) := by
  have hlen : ((List.range k.toNat).map fun i => m (src + UInt32.ofNat i)).length = k.toNat := by
    rw [List.length_map, List.length_range]
  have hagree := agree_storeBytes ((List.range k.toNat).map fun i => m (src + UInt32.ofNat i))
    (p := dst) m (by rw [hlen]; exact h)
  rwa [hlen] at hagree

/-- How many bytes are copied. -/
theorem toNat_smaller (old new : UInt32) :
    (if old < new then old else new).toNat = min old.toNat new.toNat := by
  rw [apply_ite UInt32.toNat]
  simp only [UInt32.lt_iff_toNat_lt]
  split <;> omega

/-- **The bytes of a moved block.** `m₁` is memory when the new block is allocated, `m₃` when the
old one is freed, and `m₄` at the end. -/
theorem kept_of_copy {regions : List Region} {m₁ m₃ m₄ : Image} {chunk k : UInt32}
    (hb : b.allocator = .sizeKept) (placed : Placed regions b)
    (top : chunk.toNat + (size.toNat + 4) < 2 ^ 32)
    (length : k.toNat = min (chunkSize b) (size.toNat + 4))
    (allocated : Agree (blockExtent b) m m₁)
    (freed : Agree (extent chunk.toNat (size.toNat + 4))
      (copy m₁ chunk (UInt32.ofNat (chunkAddress b)) k) m₃)
    (stored : Agree (Set.Ico chunk.toNat (chunk.toNat + 4))ᶜ m₃ m₄) :
    ∀ i < min b.size size.toNat,
      m₄ (UInt32.ofNat ((chunk + 4).toNat + i)) = m (UInt32.ofNat (b.address + i)) := by
  intro i hi
  have hbsize : chunkSize b = b.size + 4 := by rw [chunkSize, hb]
  have hbtop := placed.top
  have hnat : ∀ c : UInt32, c.toNat + (4 + i) < 2 ^ 32 →
      (c + UInt32.ofNat (4 + i)).toNat = c.toNat + (4 + i) := fun c hc => by
    rw [UInt32.toNat_add, UInt32.toNat_ofNat', Nat.mod_eq_of_lt (by omega : 4 + i < 2 ^ 32),
      Nat.mod_eq_of_lt hc]
  have hfour : (chunk + 4).toNat = chunk.toNat + 4 := add_toNat (by
    show chunk.toNat + 4 < 2 ^ 32
    omega)
  have hnew : UInt32.ofNat ((chunk + 4).toNat + i) = chunk + UInt32.ofNat (4 + i) := by
    rw [hfour, Nat.add_assoc, UInt32.ofNat_add, UInt32.ofNat_toNat]
  have hold : UInt32.ofNat (b.address + i) =
      UInt32.ofNat (chunkAddress b) + UInt32.ofNat (4 + i) := by
    rw [placed.behind hb, Nat.add_assoc, UInt32.ofNat_add]
  have hx : (chunk + UInt32.ofNat (4 + i)).toNat = chunk.toNat + (4 + i) := hnat chunk (by omega)
  have hy : (UInt32.ofNat (chunkAddress b) + UInt32.ofNat (4 + i)).toNat =
      chunkAddress b + (4 + i) := by
    rw [hnat _ (by rw [placed.chunk_toNat]; omega), placed.chunk_toNat]
  rw [hnew, hold]
  calc
    _ = m₃ (chunk + UInt32.ofNat (4 + i)) := stored _ fun h => by
        have := h.2
        omega
    _ = copy m₁ chunk (UInt32.ofNat (chunkAddress b)) k (chunk + UInt32.ofNat (4 + i)) :=
        freed _ (by rw [hx]; exact mem_extent (Nat.le_add_right _ _) (by omega))
    _ = m₁ (UInt32.ofNat (chunkAddress b) + UInt32.ofNat (4 + i)) := copy_apply (by omega)
    _ = m (UInt32.ofNat (chunkAddress b) + UInt32.ofNat (4 + i)) :=
        allocated _ (by rw [hy]; exact mem_extent (Nat.le_add_right _ _) (by omega))

/-- **`_realloc`** moves a block, unless no stretch of free memory is long enough. -/
theorem realloc_spec (h : s.HasFree F) (low : F ⊆ Set.Ici 8) (hb : b.allocator = .sizeKept)
    (placed : Placed s.regions b) (headed : Headed s.memory b) (held : Disjoint (blockExtent b) F)
    (hsize : size.toNat + 11 < 2 ^ 32) :
    (realloc s (UInt32.ofNat b.address) size = some (0, s) ∧
      NoStretch s F (grainLength 0 (size.toNat + 4))) ∨
    ∃ p s', realloc s (UInt32.ofNat b.address) size = some (p, s') ∧ p ≠ 0 ∧
      Moves s F b ⟨p.toNat, size.toNat, .sizeKept⟩ s' := by
  have hsum : (size + 4).toNat = size.toNat + 4 := add_toNat (by
    show size.toNat + 4 < 2 ^ 32
    omega)
  have hptr := placed.header_pointer hb
  have hload := placed.load_header headed hb
  have hbpos : ¬ UInt32.ofNat b.address = 0 := fun hzero => by
    have hnat := placed.address_toNat
    have hbehind := placed.behind hb
    rw [hzero, UInt32.toNat_zero] at hnat
    omega
  rw [realloc, if_neg hbpos]
  dsimp only
  rcases lmmAlloc_spec h (by omega : 0 < (size + 4).toNat) (by omega) 0 with
    ⟨hres, hno⟩ | ⟨chunk, s1, hres, hne, h8, hgranted⟩
  · rw [hres]
    refine Or.inl ⟨rfl, fun r hr a hsub => hno r hr UInt32.zero_and a ?_⟩
    rwa [hsum]
  · have hlow := le_trans (hgranted.low low (grainLength_pos (by omega))) (Nat.div_mul_le_self _ _)
    obtain ⟨hp, haddr, hbext, hplaced⟩ := hgranted.block hlow (by omega)
    have hword : Set.Ico chunk.toNat (chunk.toNat + 4) ⊆ extent chunk.toNat (size + 4).toNat :=
      word_subset (by omega)
    have hsub : extent chunk.toNat (size + 4).toNat ⊆ F := hgranted.sub
    have htop : chunk.toNat + (size.toNat + 4) < 2 ^ 32 := by
      rw [← haddr]
      exact hplaced.top
    -- the copy stays inside the new block
    rw [hptr] at hload ⊢
    have hk : (if load s.memory (UInt32.ofNat (chunkAddress b)) < size + 4 then
        load s.memory (UInt32.ofNat (chunkAddress b)) else size + 4).toNat =
        min (chunkSize b) (size + 4).toNat := by
      rw [toNat_smaller, hload]
    generalize (if load s.memory (UInt32.ofNat (chunkAddress b)) < size + 4 then
        load s.memory (UInt32.ofNat (chunkAddress b)) else size + 4) = k at hk ⊢
    have hagree2 := agree_copy (UInt32.ofNat (chunkAddress b)) s1.memory
      (show chunk.toNat + k.toNat ≤ 2 ^ 32 by omega)
    have hcopied : Set.Ico chunk.toNat (chunk.toNat + k.toNat) ⊆
        extent chunk.toNat (size + 4).toNat := fun x hx =>
      mem_extent hx.1 (lt_of_lt_of_le hx.2 (by omega))
    have hfree2 := hgranted.free.store hagree2
      (Set.disjoint_left.mpr fun x hx hxF => hxF.2 (hcopied hx))
    obtain ⟨s3, hres3, hfree3, hagree3, hbounds3⟩ := lmmFree_spec hfree2
      (by rw [placed.chunk_toNat]; exact placed.low) (by rw [hload]; exact placed.pos)
      (by rw [placed.chunk_toNat, hload]; exact (placed.of_bounds hgranted.bounds).inside)
      (by
        rw [placed.chunk_toNat, hload]
        exact held.mono_right Set.sdiff_subset)
    rw [placed.chunk_toNat, hload] at hfree3 hagree3
    have hagree4 : Agree (Set.Ico chunk.toNat (chunk.toNat + 4))ᶜ s3.memory
        (storeWord s3.memory chunk (size + 4)) :=
      Agree.storeWord (by omega) (Set.disjoint_left.mpr fun x hx hx' => hx hx')
    have hapart : Disjoint (extent chunk.toNat (size + 4).toNat)
        (F \ extent chunk.toNat (size + 4).toNat ∪ blockExtent b) :=
      Set.disjoint_union_right.mpr ⟨Set.disjoint_sdiff_right, (held.mono_right hsub).symm⟩
    rw [hres]
    refine Or.inr ⟨chunk + 4, { s3 with memory := storeWord s3.memory chunk (size + 4) }, ?_, ?_,
      ?_⟩
    · rw [Option.bind_some]
      dsimp only
      rw [if_neg hne, hres3]
      rfl
    · rintro hzero
      rw [hzero, UInt32.toNat_zero] at hp
      omega
    · refine ⟨by rw [hbext]; exact hsub, ?_, hplaced, ?_, ?_, hbounds3.trans hgranted.bounds, ?_⟩
      · rw [hbext]
        exact hfree3.store hagree4 (hapart.mono_left hword)
      · intro _
        rw [haddr, UInt32.ofNat_toNat, load_storeWord]
        exact hsum
      · -- nothing but free memory and the old block is written
        intro x hx
        have hxF : x.toNat ∉ F := fun h => hx (Or.inl h)
        refine (hagree4 x fun h => hxF (hsub (hword h))).trans ((hagree3 x fun h => ?_).trans
          ((hagree2 x fun h => hxF (hsub (hcopied h))).trans (hgranted.agree x hxF)))
        exact h.elim (fun h => hxF h.1) fun h => hx (Or.inr h)
      · rw [hsum] at hk hagree3 hapart
        exact kept_of_copy hb placed htop hk
          (hgranted.agree.mono fun x hx hxF => Set.disjoint_left.mp held hx hxF)
          (hagree3.mono fun x hx h => Set.disjoint_left.mp hapart hx h) hagree4

end Pebbles.Malloc
