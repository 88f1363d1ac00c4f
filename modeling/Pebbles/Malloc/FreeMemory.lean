import Pebbles.Malloc.AlignedAllocation
import Pebbles.Malloc.Release

/-! # The free memory of the manager

`Lmm.HasFree s F` says that the free lists of all regions are in order and that `F` is the set of
the free bytes. Each function of the manager is described by what it does to this set and to memory:
`lmmAlloc_spec`, `lmmAllocGen_spec` and `lmmFree_spec`. The set of free bytes and the bounds of the
regions determine the free lists (`Lmm.HasFree.holds_eq`). -/

namespace Pebbles.Malloc

open ByteStores FreeLists

/-- A region with its free chunks. -/
abbrev Zone := Region × List Chunk

/-- The free lists of the regions. -/
structure Lmm.Holds (s : Lmm) (zs : List Zone) : Prop where
  /-- The regions. -/
  regions : s.regions = zs.map Prod.fst
  /-- Their lists. -/
  holds : ∀ z ∈ zs, z.1.Holds s.memory z.2
  /-- The regions do not overlap. -/
  apart : zs.Pairwise fun z y => z.1.max.toNat ≤ y.1.min.toNat ∨ y.1.max.toNat ≤ z.1.min.toNat

/-- The free bytes of the regions. -/
def freeCells (zs : List Zone) : Set ℕ := {x | ∃ z ∈ zs, x ∈ cells z.2}

/-- **The free bytes** of the manager are `F`, and its lists are in order. -/
def Lmm.HasFree (s : Lmm) (F : Set ℕ) : Prop := ∃ zs, s.Holds zs ∧ freeCells zs = F

/-- What stays the same of a region. -/
def Region.bounds (r : Region) : UInt32 × UInt32 × UInt32 × UInt32 := (r.min, r.max, r.flags, r.pri)

/-- What stays the same of the manager. -/
def Lmm.bounds (s : Lmm) : List (UInt32 × UInt32 × UInt32 × UInt32) := s.regions.map Region.bounds

/-- The addresses of a region. -/
def Region.range (r : Region) : Set ℕ := Set.Ico r.min.toNat r.max.toNat

variable {s s' : Lmm} {F : Set ℕ} {zs pre post : List Zone} {z y : Zone} {r r' : Region}
  {m m' : Image} {l l' : List Chunk} {a size flags block : UInt32} {start n x : ℕ}

@[simp] theorem freeCells_append (pre post : List Zone) :
    freeCells (pre ++ post) = freeCells pre ∪ freeCells post := by
  ext x
  constructor
  · rintro ⟨z, hz, hx⟩
    rcases List.mem_append.mp hz with hz | hz
    · exact Or.inl ⟨z, hz, hx⟩
    · exact Or.inr ⟨z, hz, hx⟩
  · rintro (⟨z, hz, hx⟩ | ⟨z, hz, hx⟩)
    · exact ⟨z, List.mem_append_left _ hz, hx⟩
    · exact ⟨z, List.mem_append_right _ hz, hx⟩

@[simp] theorem freeCells_cons (z : Zone) (zs : List Zone) :
    freeCells (z :: zs) = cells z.2 ∪ freeCells zs := by
  ext x
  simp [freeCells]

theorem Region.Holds.cells_subset (h : r.Holds m l) : cells l ⊆ r.range := fun _ hx =>
  within_of_mem_cells h.within hx

namespace Lmm.Holds

/-- Two regions of the manager that have an address in common are one. -/
theorem notMem_other (h : s.Holds (pre ++ z :: post)) (hy : y ∈ pre ++ post) (hx : x ∈ z.1.range) :
    x ∉ y.1.range := by
  have h1 := hx.1
  have h2 := hx.2
  obtain ⟨-, hpost, hcross⟩ := List.pairwise_append.mp h.apart
  rintro ⟨h3, h4⟩
  rcases List.mem_append.mp hy with hy | hy
  · have := hcross y hy z List.mem_cons_self
    omega
  · have := (List.pairwise_cons.mp hpost).1 y hy
    omega

/-- The free bytes in a region are those of its list. -/
theorem mem_cells_of_mem (h : s.Holds (pre ++ z :: post)) (hF : x ∈ freeCells (pre ++ z :: post))
    (hx : x ∈ z.1.range) : x ∈ cells z.2 := by
  obtain ⟨y, hy, hxy⟩ := hF
  have hmem : y ∈ pre ++ post ∨ y = z := by
    rcases List.mem_append.mp hy with hy | hy
    · exact Or.inl (List.mem_append_left _ hy)
    rcases List.mem_cons.mp hy with rfl | hy
    · exact Or.inr rfl
    · exact Or.inl (List.mem_append_right _ hy)
  rcases hmem with hother | rfl
  · exact absurd ((h.holds y hy).cells_subset hxy) (h.notMem_other hother hx)
  · exact hxy

/-- The free bytes in a region are exactly those of its list. -/
theorem inter_range (h : s.Holds zs) (hz : z ∈ zs) : freeCells zs ∩ z.1.range = cells z.2 := by
  obtain ⟨pre, post, rfl⟩ := List.append_of_mem hz
  ext x
  exact ⟨fun hx => h.mem_cells_of_mem hx.1 hx.2,
    fun hx => ⟨⟨z, hz, hx⟩, (h.holds z hz).cells_subset hx⟩⟩

/-- **One region changes**, and memory inside of it. -/
theorem replace (h : s.Holds (pre ++ z :: post)) (holds : r'.Holds m' l')
    (same : r' = { z.1 with nodes := r'.nodes, free := r'.free }) {S : Set ℕ}
    (agree : Agree Sᶜ s.memory m') (hS : S ⊆ z.1.range) :
    Lmm.Holds ⟨m', pre.map Prod.fst ++ r' :: post.map Prod.fst⟩ (pre ++ (r', l') :: post) ∧
      Lmm.bounds ⟨m', pre.map Prod.fst ++ r' :: post.map Prod.fst⟩ = s.bounds := by
  have hmin : r'.min = z.1.min := by rw [same]
  have hmax : r'.max = z.1.max := by rw [same]
  have hother : ∀ y ∈ pre ++ post, y.1.Holds m' y.2 := by
    intro y hy
    have hmem : y ∈ pre ++ z :: post := by
      rcases List.mem_append.mp hy with hy | hy
      · exact List.mem_append_left _ hy
      · exact List.mem_append_right _ (List.mem_cons_of_mem z hy)
    have hhy := h.holds y hmem
    refine ⟨hhy.seg.frame hhy.spaced (agree.mono ?_), hhy.separated, hhy.grained, hhy.within,
      hhy.free⟩
    exact fun x hx hxS => h.notMem_other hy (hS hxS) (hhy.cells_subset hx)
  constructor
  · refine ⟨by rw [List.map_append, List.map_cons], fun y hy => ?_, ?_⟩
    · rcases List.mem_append.mp hy with hy | hy
      · exact hother y (List.mem_append_left _ hy)
      rcases List.mem_cons.mp hy with rfl | hy
      · exact holds
      · exact hother y (List.mem_append_right _ hy)
    · obtain ⟨hpre, hpost, hcross⟩ := List.pairwise_append.mp h.apart
      obtain ⟨hz, hrest⟩ := List.pairwise_cons.mp hpost
      refine List.pairwise_append.mpr ⟨hpre, List.pairwise_cons.mpr ⟨fun y hy => ?_, hrest⟩, ?_⟩
      · rw [hmin, hmax]
        exact hz y hy
      · intro y hy w hw
        rcases List.mem_cons.mp hw with rfl | hw
        · rw [hmin, hmax]
          exact hcross y hy z List.mem_cons_self
        · exact hcross y hy w (List.mem_cons_of_mem z hw)
  · have hbounds : r'.bounds = z.1.bounds := by rw [Region.bounds, same, Region.bounds]
    rw [Lmm.bounds, Lmm.bounds, h.regions]
    simp only [List.map_append, List.map_cons, hbounds]

end Lmm.Holds

/-! ## The loop over the regions -/

/-- Either no region has memory, or the first one that has gives it. -/
theorem firstRegion_cases {tryIn : Region → Outcome} (zs : List Zone)
    (h : ∀ z ∈ zs, tryIn z.1 ≠ .fails) :
    (firstRegion m tryIn (zs.map Prod.fst) = some (0, ⟨m, zs.map Prod.fst⟩) ∧
      ∀ z ∈ zs, tryIn z.1 = .absent) ∨
    ∃ pre z post a m' r', zs = pre ++ z :: post ∧ tryIn z.1 = .gives a m' r' ∧
      firstRegion m tryIn (zs.map Prod.fst) =
        some (a, ⟨m', pre.map Prod.fst ++ r' :: post.map Prod.fst⟩) := by
  induction zs with
  | nil => exact Or.inl ⟨rfl, fun _ h => absurd h List.not_mem_nil⟩
  | cons z zs ih =>
      rw [List.map_cons, firstRegion]
      cases hz : tryIn z.1 with
      | fails => exact absurd hz (h z List.mem_cons_self)
      | gives a m' r' => exact Or.inr ⟨[], z, zs, a, m', r', rfl, hz, rfl⟩
      | absent =>
          dsimp only
          rcases ih fun y hy => h y (List.mem_cons_of_mem z hy) with ⟨hres, habs⟩ |
            ⟨pre, y, post, a, m', r', rfl, hy, hres⟩
          · rw [hres]
            refine Or.inl ⟨rfl, fun y hy => ?_⟩
            rcases List.mem_cons.mp hy with rfl | hy
            · exact hz
            · exact habs y hy
          · rw [hres]
            exact Or.inr ⟨z :: pre, y, post, a, m', r', rfl, hy, rfl⟩

/-- **The effect of an allocation** on the manager: `n` bytes from `start` on, which lie in one
region with the attributes asked for, are not free any more. -/
structure Granted (s : Lmm) (F : Set ℕ) (flags : UInt32) (start n : ℕ) (s' : Lmm) : Prop where
  /-- They were free. -/
  sub : Set.Ico start (start + n) ⊆ F
  /-- All other free bytes still are. -/
  free : s'.HasFree (F \ Set.Ico start (start + n))
  /-- They lie in one region. -/
  inside : ∃ r ∈ s.regions, flags &&& ~~~r.flags = 0 ∧ Set.Ico start (start + n) ⊆ r.range
  /-- Memory is the same where it was not free. -/
  agree : Agree Fᶜ s.memory s'.memory
  /-- The regions lie where they lay. -/
  bounds : s'.bounds = s.bounds

/-- **The loop over the regions.** What a region says when it has no memory is said of the free
bytes of the manager in it. -/
theorem firstRegion_spec (h : s.HasFree F) (flags : UInt32) (tryIn : Region → Outcome)
    (Absent : Region → Set ℕ → Prop) (Found : UInt32 → ℕ → ℕ → Prop)
    (each : ∀ r l, r ∈ s.regions → r.Holds s.memory l → cells l ⊆ F →
      (tryIn r = .absent ∧ Absent r (cells l)) ∨
      flags &&& ~~~r.flags = 0 ∧ ∃ a m' r' l' start n, tryIn r = .gives a m' r' ∧
        Carves r s.memory l start n r' m' l' ∧ Found a start n) :
    (firstRegion s.memory tryIn s.regions = some (0, s) ∧
      ∀ r ∈ s.regions, Absent r (F ∩ r.range)) ∨
    ∃ a s' start n, firstRegion s.memory tryIn s.regions = some (a, s') ∧
      Granted s F flags start n s' ∧ Found a start n := by
  obtain ⟨zs, hz, rfl⟩ := h
  have hsub : ∀ z ∈ zs, cells z.2 ⊆ freeCells zs := fun z hz x hx => ⟨z, hz, hx⟩
  have hmem : ∀ z ∈ zs, z.1 ∈ s.regions := fun z hzm => by
    rw [hz.regions]
    exact List.mem_map_of_mem hzm
  have hnofail : ∀ z ∈ zs, tryIn z.1 ≠ .fails := by
    intro z hzm hfail
    rcases each z.1 z.2 (hmem z hzm) (hz.holds z hzm) (hsub z hzm) with ⟨habs, -⟩ |
      ⟨-, a, m', r', l', start, n, hgives, -⟩
    · rw [hfail] at habs
      cases habs
    · rw [hfail] at hgives
      cases hgives
  have hs : s = ⟨s.memory, zs.map Prod.fst⟩ := by rw [← hz.regions]
  rw [show s.regions = zs.map Prod.fst from hz.regions]
  rcases firstRegion_cases (m := s.memory) zs hnofail with ⟨hres, habs⟩ |
    ⟨pre, z, post, a, m', r', rfl, hgive, hres⟩
  · refine Or.inl ⟨by rw [hres, ← hs], fun r hr => ?_⟩
    obtain ⟨z, hzm, rfl⟩ := List.mem_map.mp hr
    rw [hz.inter_range hzm]
    rcases each z.1 z.2 (hmem z hzm) (hz.holds z hzm) (hsub z hzm) with ⟨-, h⟩ |
      ⟨-, a, m', r', l', start, n, hgives, -⟩
    · exact h
    · rw [habs z hzm] at hgives
      cases hgives
  · refine Or.inr ?_
    have hzm : z ∈ pre ++ z :: post := List.mem_append_right _ List.mem_cons_self
    rcases each z.1 z.2 (hmem z hzm) (hz.holds z hzm) (hsub z hzm) with ⟨habs, -⟩ |
      ⟨hflags, a1, m1, r1, l1, start, n, hgives, hcarves, hfound⟩
    · rw [hgive] at habs
      cases habs
    rw [hgive] at hgives
    obtain ⟨rfl, rfl, rfl⟩ := Outcome.gives.inj hgives
    have hrange := (hz.holds z hzm).cells_subset
    obtain ⟨hholds, hbounds⟩ := hz.replace hcarves.holds hcarves.same hcarves.agree hrange
    refine ⟨a, _, start, n, hres, ⟨hcarves.sub.trans (hsub z hzm), ⟨_, hholds, ?_⟩,
      ⟨z.1, hmem z hzm, hflags, hcarves.sub.trans hrange⟩, ?_, hbounds⟩, hfound⟩
    · ext x
      rw [freeCells_append, freeCells_cons, freeCells_append, freeCells_cons, hcarves.cells]
      -- the bytes taken are in no other region
      have hout : x ∈ Set.Ico start (start + n) → x ∉ freeCells pre ∧ x ∉ freeCells post := by
        intro hx
        have hxz := hrange (hcarves.sub hx)
        constructor
        · rintro ⟨y, hy, hxy⟩
          exact hz.notMem_other (List.mem_append_left _ hy) hxz
            ((hz.holds y (List.mem_append_left _ hy)).cells_subset hxy)
        · rintro ⟨y, hy, hxy⟩
          exact hz.notMem_other (List.mem_append_right _ hy) hxz ((hz.holds y
            (List.mem_append_right _ (List.mem_cons_of_mem z hy))).cells_subset hxy)
      constructor
      · rintro (hx | ⟨hx, hno⟩ | hx)
        · exact ⟨Or.inl hx, fun hin => (hout hin).1 hx⟩
        · exact ⟨Or.inr (Or.inl hx), hno⟩
        · exact ⟨Or.inr (Or.inr hx), fun hin => (hout hin).2 hx⟩
      · rintro ⟨hx | hx | hx, hno⟩
        · exact Or.inl hx
        · exact Or.inr (Or.inl ⟨hx, hno⟩)
        · exact Or.inr (Or.inr hx)
    · exact hcarves.agree.mono fun x hx hxz => hx (hsub z hzm hxz)

/-! ## The functions of the manager -/

/-- The bytes of the grains that a block of a given size at a given address lies in. -/
def grainStart (a : ℕ) : ℕ := a / 8 * 8

/-- Their number. -/
def grainLength (a size : ℕ) : ℕ := (a % 8 + size + 7) / 8 * 8

/-- **The extent** of a block: the grains that it lies in. -/
def extent (a size : ℕ) : Set ℕ := Set.Ico (grainStart a) (grainStart a + grainLength a size)

/-- **`lmm_alloc`** finds a block when there is one. -/
theorem lmmAlloc_spec (h : s.HasFree F) (hpos : 0 < size.toNat) (hsize : size.toNat + 7 < 2 ^ 32)
    (flags : UInt32) :
    (lmmAlloc s size flags = some (0, s) ∧ ∀ r ∈ s.regions, flags &&& ~~~r.flags = 0 →
      ∀ b, ¬ Set.Ico b (b + grainLength 0 size.toNat) ⊆ F ∩ r.range) ∨
    ∃ a s', lmmAlloc s size flags = some (a, s') ∧ a ≠ 0 ∧ 8 ∣ a.toNat ∧
      Granted s F flags (grainStart a.toNat) (grainLength a.toNat size.toNat) s' := by
  have hup : ((size + alignMask) &&& ~~~alignMask).toNat = grainLength 0 size.toNat := by
    rw [alignUp_toNat hsize, grainLength, Nat.zero_mod, Nat.zero_add]
  have hup8 : 8 ∣ ((size + alignMask) &&& ~~~alignMask).toNat := by
    rw [hup]
    exact Nat.dvd_mul_left 8 _
  have huppos : 0 < ((size + alignMask) &&& ~~~alignMask).toNat := by
    rw [hup, grainLength]
    omega
  have hne : size ≠ 0 := by
    rintro rfl
    exact lt_irrefl _ hpos
  have hcases := firstRegion_spec h flags
    (fun r => r.alloc s.memory ((size + alignMask) &&& ~~~alignMask) flags)
    (fun r S => flags &&& ~~~r.flags = 0 →
      ∀ b, ¬ Set.Ico b (b + grainLength 0 size.toNat) ⊆ S)
    (fun a start n => a ≠ 0 ∧ 8 ∣ a.toNat ∧ start = grainStart a.toNat ∧
      n = grainLength a.toNat size.toNat)
    fun r l _ hr _ => by
      rcases hr.alloc huppos hup8 flags with ⟨habs, hno⟩ |
        ⟨hflags, a, m', r', l', hgive, hcarves, hne, ha8⟩
      · rw [hup] at hno
        exact Or.inl ⟨habs, hno⟩
      · refine Or.inr ⟨hflags, a, m', r', l', a.toNat, _, hgive, hcarves, hne, ha8, ?_, ?_⟩
        · rw [grainStart]
          omega
        · rw [hup, grainLength, grainLength]
          omega
  rw [lmmAlloc, if_neg hne]
  rcases hcases with habsent | ⟨a, s', start, n, hres, hgranted, hne', ha8, rfl, rfl⟩
  · exact Or.inl habsent
  · exact Or.inr ⟨a, s', hres, hne', ha8, hgranted⟩

/-- **`lmm_alloc_gen`** finds a block with the alignment and in the range asked for when there is
one. -/
theorem lmmAllocGen_spec {q : Request} (h : s.HasFree F) (hpos : 0 < q.size.toNat)
    (hbits : q.alignBits ≤ 32) (hrange : q.inMin.toNat + q.inSize.toNat < 2 ^ 32)
    (hfits : ∀ b, Set.Ico b (b + q.size.toNat) ⊆ F → q.Fits b) :
    (lmmAllocGen s q = some (0, s) ∧ ∀ r ∈ s.regions, q.flags &&& ~~~r.flags = 0 →
      ∀ b, q.inMin.toNat ≤ b → b + q.size.toNat ≤ q.inMin.toNat + q.inSize.toNat → q.Aligned b →
        ¬ Set.Ico b (b + q.size.toNat) ⊆ F ∩ r.range) ∨
    ∃ a s', lmmAllocGen s q = some (a, s') ∧ a ≠ 0 ∧ q.inMin.toNat ≤ a.toNat ∧
      a.toNat + q.size.toNat ≤ q.inMin.toNat + q.inSize.toNat ∧ q.Aligned a.toNat ∧
      Granted s F q.flags (grainStart a.toNat) (grainLength a.toNat q.size.toNat) s' := by
  have hmax : q.inMax.toNat = q.inMin.toNat + q.inSize.toNat := add_toNat hrange
  have hne : q.size ≠ 0 := by
    intro hzero
    rw [hzero] at hpos
    exact lt_irrefl _ hpos
  have hcases := firstRegion_spec h q.flags
    (fun r => r.allocGen s.memory q)
    (fun r S => q.flags &&& ~~~r.flags = 0 → ∀ b, q.inMin.toNat ≤ b →
      b + q.size.toNat ≤ q.inMin.toNat + q.inSize.toNat → q.Aligned b →
        ¬ Set.Ico b (b + q.size.toNat) ⊆ S)
    (fun a start n => (a ≠ 0 ∧ q.inMin.toNat ≤ a.toNat ∧
      a.toNat + q.size.toNat ≤ q.inMin.toNat + q.inSize.toNat ∧ q.Aligned a.toNat) ∧
        start = grainStart a.toNat ∧ n = grainLength a.toNat q.size.toNat)
    fun r l _ hr hsub => by
      rcases hr.allocGen hpos hbits hrange fun c hc hle => hfits c.start fun x hx =>
          hsub ⟨c, hc, hx.1, lt_of_lt_of_le hx.2 (Nat.add_le_add_left hle _)⟩ with
        ⟨habs, hno⟩ | ⟨hflags, a, m', r', l', hgive, hcarves, hne, hmin, hle, haligned⟩
      · rw [hmax] at hno
        exact Or.inl ⟨habs, hno⟩
      · rw [hmax] at hle
        exact Or.inr ⟨hflags, a, m', r', l', _, _, hgive, hcarves, ⟨hne, hmin, hle, haligned⟩,
          rfl, rfl⟩
  rw [lmmAllocGen, if_neg hne]
  rcases hcases with habsent |
    ⟨a, s', start, n, hres, hgranted, ⟨hne', hmin, hle, haligned⟩, rfl, rfl⟩
  · exact Or.inl habsent
  · exact Or.inr ⟨a, s', hres, hne', hmin, hle, haligned, hgranted⟩

/-- Every region before the one of the block is passed. -/
theorem freeIn_spec {node : UInt32} (h : ∀ y ∈ pre ++ z :: post, y.1.Holds m y.2)
    (hpre : ∀ y ∈ pre, node.toNat ∉ y.1.range) (hz : node.toNat ∈ z.1.range) {size : UInt32}
    (hinsert : z.1.insert m node size = some (m', r')) :
    freeIn m node size ((pre ++ z :: post).map Prod.fst) =
      some ⟨m', pre.map Prod.fst ++ r' :: post.map Prod.fst⟩ := by
  have hnodes : ∀ y ∈ pre ++ z :: post, (y.1.nodes = 0 ∧ y.1.free = 0) ∨ y.1.min ≤ y.1.nodes := by
    intro y hy
    have hchecked := (h y hy).checked
    rw [Region.checked, decide_eq_true_iff] at hchecked
    exact hchecked.1
  induction pre with
  | nil =>
      have hin : z.1.min ≤ node ∧ node < z.1.max :=
        ⟨UInt32.le_iff_toNat_le.mpr hz.1, UInt32.lt_iff_toNat_lt.mpr hz.2⟩
      rw [List.nil_append, List.map_cons, freeIn, if_pos (hnodes z List.mem_cons_self), if_pos hin,
        hinsert]
      rfl
  | cons y pre ih =>
      have hout : ¬ (y.1.min ≤ node ∧ node < y.1.max) := fun hin =>
        hpre y List.mem_cons_self
          ⟨UInt32.le_iff_toNat_le.mp hin.1, UInt32.lt_iff_toNat_lt.mp hin.2⟩
      rw [List.cons_append, List.map_cons, freeIn, if_pos (hnodes y List.mem_cons_self),
        if_neg hout, ih (fun w hw => h w (List.mem_cons_of_mem y hw))
          (fun w hw => hpre w (List.mem_cons_of_mem y hw))
          (fun w hw => hnodes w (List.mem_cons_of_mem y hw))]
      rfl

/-- **`lmm_free`** adds the grains of the block to the free bytes. No assertion fails. -/
theorem lmmFree_spec (h : s.HasFree F) (hblock : 8 ≤ block.toNat) (hpos : 0 < size.toNat)
    (inside : ∃ r ∈ s.regions, extent block.toNat size.toNat ⊆ r.range)
    (held : Disjoint (extent block.toNat size.toNat) F) :
    ∃ s', lmmFree s block size = some s' ∧ s'.HasFree (F ∪ extent block.toNat size.toNat) ∧
      Agree (F ∪ extent block.toNat size.toNat)ᶜ s.memory s'.memory ∧ s'.bounds = s.bounds := by
  obtain ⟨zs, hz, rfl⟩ := h
  obtain ⟨r, hr, hin⟩ := inside
  rw [hz.regions] at hr
  obtain ⟨z, hzm, rfl⟩ := List.mem_map.mp hr
  obtain ⟨pre, post, rfl⟩ := List.append_of_mem hzm
  have hmax := z.1.max.toNat_lt
  have hlen : 0 < grainLength block.toNat size.toNat := by
    rw [grainLength]
    omega
  -- the chunk of the block
  let c : Chunk := ⟨grainStart block.toNat, grainLength block.toNat size.toNat⟩
  have hcells : c.cells = extent block.toNat size.toNat := rfl
  have hfirst : c.start ∈ extent block.toNat size.toNat := ⟨le_rfl, Nat.lt_add_of_pos_right hlen⟩
  have hlastmem : c.stop - 1 ∈ extent block.toNat size.toNat := by
    have hstop : c.stop = grainStart block.toNat + grainLength block.toNat size.toNat := rfl
    refine ⟨?_, ?_⟩
    · omega
    · omega
  have hlo : z.1.min.toNat ≤ c.start := (hin hfirst).1
  have hhi : c.stop ≤ z.1.max.toNat := by
    have := (hin hlastmem).2
    omega
  have hnode : (block &&& ~~~alignMask).toNat = c.start := and_not_alignMask block
  have hlength : c.length = (block.toNat % 8 + size.toNat + 7) / 8 * 8 := rfl
  have hstart : c.start = block.toNat / 8 * 8 := rfl
  have hstop := hhi
  rw [Chunk.stop] at hstop
  have hsize : (((block &&& alignMask) + size + alignMask) &&& ~~~alignMask).toNat = c.length :=
    grains_toNat (by omega)
  have hne : block &&& ~~~alignMask ≠ 0 := fun hzero => by
    rw [hzero, UInt32.toNat_zero] at hnode
    omega
  have hzholds := hz.holds z hzm
  have hdisj : Disjoint c.cells (cells z.2) := by
    rw [hcells]
    have hsub : cells z.2 ⊆ freeCells (pre ++ z :: post) := fun x hx => ⟨z, hzm, hx⟩
    exact held.mono_right hsub
  obtain ⟨m', r', hcode, hholds, hagree, hsame⟩ := hzholds.insert hne hnode hsize hlen
    (Nat.dvd_mul_left 8 _) (Nat.dvd_mul_left 8 _) hlo hhi
    (fresh_of_disjoint hlen hzholds.separated hdisj)
  have hrange : cells z.2 ∪ c.cells ⊆ z.1.range :=
    Set.union_subset hzholds.cells_subset (hcells ▸ hin)
  obtain ⟨hholds', hbounds⟩ := hz.replace hholds hsame hagree hrange
  have hblock0 : ¬ (block = 0 ∨ size = 0) := by
    rintro (rfl | rfl)
    · exact absurd hblock (by decide)
    · exact lt_irrefl _ hpos
  refine ⟨_, ?_, ⟨_, hholds', ?_⟩, hagree.mono ?_, hbounds⟩
  · rw [lmmFree, if_neg hblock0, hz.regions]
    refine freeIn_spec hz.holds (fun y hy hxy => ?_) (hnode ▸ hin hfirst) hcode
    rw [hnode] at hxy
    exact hz.notMem_other (List.mem_append_left _ hy) (hin hfirst) hxy
  · rw [freeCells_append, freeCells_cons, freeCells_append, freeCells_cons,
      cells_release hlen hzholds.separated (fresh_of_disjoint hlen hzholds.separated hdisj), hcells]
    ext x
    simp only [Set.mem_union]
    tauto
  · refine Set.compl_subset_compl.mpr (Set.union_subset_union_left _ fun x hx => ⟨z, hzm, hx⟩)

/-! ## What the free bytes determine -/

/-- The counters `free` of all regions. -/
def Lmm.freeBytes (s : Lmm) : ℕ := (s.regions.map fun r => r.free.toNat).sum

theorem freeCells_finite (zs : List Zone) : (freeCells zs).Finite := by
  induction zs with
  | nil => simp [freeCells]
  | cons z zs ih =>
      rw [freeCells_cons]
      exact (finite_cells z.2).union ih

/-- The counters count the free bytes. -/
theorem freeCells_ncard (h : ∀ z ∈ zs, z.1.Holds m z.2)
    (apart : zs.Pairwise fun z y =>
      z.1.max.toNat ≤ y.1.min.toNat ∨ y.1.max.toNat ≤ z.1.min.toNat) :
    (freeCells zs).ncard = (zs.map fun z => z.1.free.toNat).sum := by
  induction zs with
  | nil => simp [freeCells]
  | cons z zs ih =>
      obtain ⟨hz, hrest⟩ := List.pairwise_cons.mp apart
      have hzh := h z List.mem_cons_self
      have hdisj : Disjoint (cells z.2) (freeCells zs) := by
        refine Set.disjoint_left.mpr fun x hx hx' => ?_
        obtain ⟨y, hy, hxy⟩ := hx'
        have h1 := hzh.cells_subset hx
        have h2 := (h y (List.mem_cons_of_mem z hy)).cells_subset hxy
        rcases hz y hy with hle | hle
        · exact absurd (lt_of_lt_of_le h1.2 hle) (not_lt.mpr h2.1)
        · exact absurd (lt_of_lt_of_le h2.2 hle) (not_lt.mpr h1.1)
      rw [freeCells_cons, Set.ncard_union_eq hdisj (finite_cells _) (freeCells_finite _),
        hzh.separated.ncard_cells, ← hzh.free,
        ih (fun y hy => h y (List.mem_cons_of_mem z hy)) hrest, List.map_cons, List.sum_cons]

theorem Lmm.HasFree.finite (h : s.HasFree F) : F.Finite := by
  obtain ⟨zs, -, rfl⟩ := h
  exact freeCells_finite zs

theorem Lmm.HasFree.freeBytes_eq (h : s.HasFree F) : s.freeBytes = F.ncard := by
  obtain ⟨zs, hz, rfl⟩ := h
  rw [freeCells_ncard hz.holds hz.apart, freeBytes, hz.regions, List.map_map]
  rfl

/-- A list of chunks has one first node. -/
theorem Seg.start_eq {p q : UInt32} (h : Seg m p l 0) (h' : Seg m' q l 0) : p = q := by
  cases l with
  | nil => exact (show p = 0 from h).trans (show q = 0 from h').symm
  | cons c l => exact UInt32.toNat.inj (h.2.1.trans h'.2.1.symm)

/-- The region is determined by its bounds and its list. -/
theorem Region.Holds.eq (h : r.Holds m l) (h' : r'.Holds m' l) (hb : r'.bounds = r.bounds) :
    r' = r := by
  have hnodes : r'.nodes = r.nodes := h'.seg.start_eq h.seg
  have hfree : r'.free = r.free := UInt32.toNat.inj (h'.free.trans h.free.symm)
  rw [Region.bounds, Region.bounds] at hb
  cases r
  cases r'
  simp_all

/-- **The free bytes and the bounds of the regions determine the free lists** with all their
addresses, sizes and counters. -/
theorem Lmm.HasFree.holds_eq (h : s.HasFree F) (h' : s'.HasFree F) (hb : s'.bounds = s.bounds) :
    ∃ zs, s.Holds zs ∧ s'.Holds zs := by
  obtain ⟨zs, hz, rfl⟩ := h
  obtain ⟨zs', hz', hcells⟩ := h'
  have hlen : zs'.length = zs.length := by
    have := congrArg List.length hb
    rwa [Lmm.bounds, Lmm.bounds, hz.regions, hz'.regions, List.length_map, List.length_map,
      List.length_map, List.length_map] at this
  have heq : zs' = zs := by
    refine List.ext_getElem hlen fun i hi' hi => ?_
    have hbounds : zs'[i].1.bounds = zs[i].1.bounds := by
      have := List.getElem_of_eq hb (i := i) (by rw [Lmm.bounds, hz'.regions]; simpa using hi')
      simpa [Lmm.bounds, hz.regions, hz'.regions] using this
    have hrange : zs'[i].1.range = zs[i].1.range := by
      obtain ⟨hmin, hmax, -⟩ := Prod.ext_iff.mp hbounds |>.imp_right Prod.ext_iff.mp
      exact congrArg₂ (fun x y : UInt32 => Set.Ico x.toNat y.toNat) hmin hmax
    have hholds := hz.holds zs[i] (List.getElem_mem hi)
    have hholds' := hz'.holds zs'[i] (List.getElem_mem hi')
    have hlist : zs'[i].2 = zs[i].2 := by
      refine hholds'.separated.eq_of_cells_eq hholds.separated ?_
      rw [← hz'.inter_range (List.getElem_mem hi'), ← hz.inter_range (List.getElem_mem hi), hcells,
        hrange]
    rw [hlist] at hholds'
    exact Prod.ext (hholds.eq hholds' hbounds) hlist
  subst heq
  exact ⟨zs', hz, hz'⟩

end Pebbles.Malloc
