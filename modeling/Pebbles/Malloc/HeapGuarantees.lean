import Pebbles.Malloc.HeapRuns

/-! # What the kernel heap guarantees

In an arena of free memory, every run of calls that clients may make is a run of the specification
(`heap_refines_store`). A call that asks for a block is refused only when there is no room for it
(`heap_finds_room`). The free lists depend on the live blocks alone and not on the order in which
they were allocated and released (`free_lists_determined`), and no byte is lost but for the headers
that `_sfree` leaves out (`free_bytes_account`). -/

namespace Pebbles.Malloc

open ByteStores FreeLists Transition Shares
open Memory (Block Allocator)

variable {arena F : Set ℕ} {s : Lmm} {h h' : Heap} {bs : Bounds} {b : Block}
  {labels labels' : List (Call × UInt32)}

/-! ## Runs -/

namespace Heap

/-- An arena in which no block is live. -/
theorem good_start (hs : s.HasFree arena) : (start s).Good arena s.bounds where
  bounds := rfl
  free := by
    rw [vacant, reserved, start, List.map_nil, List.map_nil, List.nil_append, rest_nil]
    exact hs
  shares := Apart.nil arena
  placed := fun _ hb => absurd hb List.not_mem_nil
  headed := fun _ hb => absurd hb List.not_mem_nil

/-- **Every run keeps the invariant.** -/
theorem good_of_run (low : arena ⊆ Set.Ici 8) (high : arena ⊆ Set.Iio (2 ^ 31))
    (hs : s.HasFree arena) (run : Run Step (start s) labels h) : h.Good arena s.bounds := by
  refine run.invariant (good_start hs) fun u a v good hstep => ?_
  obtain ⟨p, w, hres, good', -⟩ := good.step low high hstep.1
  rw [hstep.2] at hres
  obtain ⟨rfl, rfl⟩ := Prod.mk.inj (Option.some.inj hres)
  exact good'

end Heap

/-! ## A small arena -/

/-- One region with one node. -/
def smallArena : Lmm where
  memory := setSize (setNext (fun _ => 0) 16 0) 16 64
  regions := [⟨16, 16, 80, 0, 0, 64⟩]

theorem smallArena_free : smallArena.HasFree (Set.Ico 16 80) := by
  obtain ⟨hnext, hsize, -⟩ :=
    node_stores (by decide : (16 : UInt32).toNat + 8 ≤ 2 ^ 32) (fun _ => 0) 0 64
  refine ⟨[(⟨16, 16, 80, 0, 0, 64⟩, [⟨16, 64⟩])], ⟨rfl, ?_, List.pairwise_singleton _ _⟩, ?_⟩
  · intro z hz
    obtain rfl := List.mem_singleton.mp hz
    refine ⟨⟨by decide, rfl, congrArg UInt32.toNat hsize, hnext⟩,
      ⟨by decide, fun _ hd => absurd hd List.not_mem_nil, trivial⟩, ?_, ?_, rfl⟩
    · intro c hc
      obtain rfl := List.mem_singleton.mp hc
      exact ⟨⟨2, rfl⟩, ⟨8, rfl⟩⟩
    · intro c hc
      obtain rfl := List.mem_singleton.mp hc
      exact ⟨by decide, by decide⟩
  · rw [freeCells_cons, cells_cons, cells_nil, Set.union_empty]
    ext x
    simp [freeCells, Chunk.cells]

theorem smallArena_low : Set.Ico 16 80 ⊆ Set.Ici 8 := fun _ hx => le_trans (by decide) hx.1

theorem smallArena_high : Set.Ico 16 80 ⊆ Set.Iio (2 ^ 31) := fun _ hx =>
  lt_trans hx.2 (by decide)

/-- The heap after a call. -/
def Heap.next (h : Heap) (c : Call) : Heap := ((h.step c).map Prod.snd).getD h

/-- A block is allocated. -/
theorem run_malloc : Run Heap.Step (Heap.start smallArena) [(.malloc 5, 20)]
    ((Heap.start smallArena).next (.malloc 5)) :=
  Run.snoc Run.nil ⟨(by decide : (5 : UInt32).toNat + 11 < 2 ^ 32), rfl⟩

/-- It is released. -/
theorem run_malloc_free : Run Heap.Step (Heap.start smallArena) [(.malloc 5, 20), (.free 20, 0)]
    (((Heap.start smallArena).next (.malloc 5)).next (.free 20)) :=
  Run.snoc run_malloc ⟨⟨⟨20, 5, .sizeKept⟩, List.mem_cons_self, rfl⟩, rfl⟩

/-! ## Refinement -/

/-- **The heap is a collection of blocks.** Every run of the allocators is a run of the
specification, with the same calls and the same answers, and a call that a client may make does not
fail an assertion. -/
theorem heap_refines_store (low : arena ⊆ Set.Ici 8) (high : arena ⊆ Set.Iio (2 ^ 31))
    (hs : s.HasFree arena) (run : Run Heap.Step (Heap.start s) labels h) :
    Run (Store.Step arena) [] labels h.store ∧
      ∀ c, h.Legal c → ∃ p h', h.step c = some (p, h') := by
  constructor
  · have hsim : ∀ (u : Heap) (a : Call × UInt32) (v : Heap) (t : Store),
        u.Good arena s.bounds ∧ u.store = t → Heap.Step u a v →
          ∃ t', Store.Step arena t a t' ∧ v.Good arena s.bounds ∧ v.store = t' := by
      rintro u ⟨c, r⟩ v t ⟨good, rfl⟩ ⟨legal, hres⟩
      obtain ⟨p, w, hres', good', hstore⟩ := good.step low high legal
      obtain ⟨rfl, rfl⟩ := Prod.mk.inj (Option.some.inj (hres.symm.trans hres'))
      exact ⟨_, hstore, good', rfl⟩
    obtain ⟨t, hrun, -, rfl⟩ := run.simulate ⟨Heap.good_start hs, rfl⟩ hsim
    exact hrun
  · intro c legal
    obtain ⟨p, h', hres, -⟩ := (Heap.good_of_run low high hs run).step low high legal
    exact ⟨p, h', hres⟩

theorem heap_refines_store_malloc :
    Run (Store.Step (Set.Ico 16 80)) [] [(.malloc 5, 20)]
        ((Heap.start smallArena).next (.malloc 5)).store ∧
      ∀ c, ((Heap.start smallArena).next (.malloc 5)).Legal c →
        ∃ p h', ((Heap.start smallArena).next (.malloc 5)).step c = some (p, h') :=
  heap_refines_store smallArena_low smallArena_high smallArena_free run_malloc

/-! ## Room -/

namespace Heap

/-- There is a stretch of free memory in a region that is long enough. -/
def Stretch (arena : Set ℕ) (h : Heap) (k : ℕ) (fits : ℕ → Prop) : Prop :=
  ∃ r ∈ h.lmm.regions, ∃ a, fits a ∧ Set.Ico a (a + k) ⊆ h.vacant arena ∩ r.range

/-- **There is room** for the block that a call asks for, with its header and its alignment. -/
def Room (arena : Set ℕ) (h : Heap) : Call → Prop
  | .malloc size => h.Stretch arena (grainLength 0 (size.toNat + 4)) fun _ => True
  | .calloc nelt eltsize =>
      h.Stretch arena (grainLength 0 ((nelt * eltsize).toNat + 4)) fun _ => True
  | .memalign alignment size =>
      h.Stretch arena (size.toNat + 4) fun a => aligned alignment ∣ a + 4
  | .smemalign alignment size => h.Stretch arena size.toNat fun a => aligned alignment ∣ a
  | .realloc _ newSize => h.Stretch arena (grainLength 0 (newSize.toNat + 4)) fun _ => True
  | _ => True

/-- A block that was free memory is such a stretch. -/
theorem stretch_of_sub {k a : ℕ} {fits : ℕ → Prop} (placed : Placed h.lmm.regions b)
    (sub : blockExtent b ⊆ h.vacant arena) (ha : fits a)
    (hsub : Set.Ico a (a + k) ⊆ blockExtent b) : h.Stretch arena k fits := by
  obtain ⟨r, hr, hin⟩ := placed.inside
  exact ⟨r, hr, a, ha, fun x hx => ⟨sub (hsub hx), hin (hsub hx)⟩⟩

/-- The grains of a block with a header are a stretch for it. -/
theorem stretch_of_kept {p size : UInt32}
    (placed : Placed h.lmm.regions ⟨p.toNat, size.toNat, .sizeKept⟩)
    (sub : blockExtent ⟨p.toNat, size.toNat, .sizeKept⟩ ⊆ h.vacant arena) :
    h.Stretch arena (grainLength 0 (size.toNat + 4)) fun _ => True := by
  refine stretch_of_sub placed sub trivial (Set.Ico_subset_Ico_right (Nat.add_le_add_left ?_ _))
  rw [grainLength, grainLength, chunkSize]
  simp only
  omega

theorem not_stretch_of_noStretch {k : ℕ} (hno : NoStretch h.lmm (h.vacant arena) k) :
    ¬ h.Stretch arena k fun _ => True := by
  rintro ⟨r, hr, a, -, hsub⟩
  exact hno r hr a hsub

/-- Refused or answered, as there is room. -/
theorem answers_iff {result : Option (UInt32 × Lmm)} {size : UInt32} {allocator : Allocator}
    {room : Prop} (cases : (result = some (0, h.lmm) ∧ ¬ room) ∨
      ∃ p s', result = some (p, s') ∧ p ≠ 0 ∧ room) :
    ∃ p h', result.map (h.hand size allocator) = some (p, h') ∧ (p ≠ 0 ↔ room) := by
  rcases cases with ⟨rfl, hno⟩ | ⟨p, s', rfl, hp, hroom⟩
  · exact ⟨0, h, rfl, iff_of_false (fun hne => hne rfl) hno⟩
  · exact ⟨p, _, rfl, iff_of_true hp hroom⟩

/-- A block of `_malloc`. -/
theorem Good.malloc_room (good : h.Good arena bs) (low : arena ⊆ Set.Ici 8) {size : UInt32}
    (hsize : size.toNat + 11 < 2 ^ 32) :
    (malloc h.lmm size = some (0, h.lmm) ∧
      ¬ h.Stretch arena (grainLength 0 (size.toNat + 4)) fun _ => True) ∨
    ∃ p s', malloc h.lmm size = some (p, s') ∧ p ≠ 0 ∧
      h.Stretch arena (grainLength 0 (size.toNat + 4)) fun _ => True := by
  rcases malloc_spec good.free ((rest_subset _ _).trans low) hsize with ⟨hres, hno⟩ |
    ⟨p, s', hres, hp, -, obtains⟩
  · exact Or.inl ⟨hres, not_stretch_of_noStretch hno⟩
  · exact Or.inr ⟨p, s', hres, hp, stretch_of_kept obtains.placed obtains.sub⟩

end Heap

/-- **A call is refused only when there is no room.** In every state of every run, `_malloc`,
`_calloc`, `_memalign`, `_smemalign` and `_realloc` answer with a block exactly when the free memory
has a stretch for it. -/
theorem heap_finds_room (low : arena ⊆ Set.Ici 8) (high : arena ⊆ Set.Iio (2 ^ 31))
    (hs : s.HasFree arena) (run : Run Heap.Step (Heap.start s) labels h) {c : Call}
    (legal : h.Legal c) (asks : Store.Asks c) :
    ∃ p h', h.step c = some (p, h') ∧ (p ≠ 0 ↔ h.Room arena c) := by
  have good := Heap.good_of_run low high hs run
  have hlow : h.vacant arena ⊆ Set.Ici 8 := (rest_subset _ _).trans low
  have hhigh : h.vacant arena ⊆ Set.Iio (2 ^ 31) := (rest_subset _ _).trans high
  cases c with
  | malloc size => exact Heap.answers_iff (good.malloc_room low legal)
  | calloc nelt eltsize =>
      refine Heap.answers_iff ?_
      rcases calloc_spec good.free hlow legal with ⟨hres, hno⟩ | ⟨p, s', hres, hp, obtains, -⟩
      · exact Or.inl ⟨hres, Heap.not_stretch_of_noStretch hno⟩
      · exact Or.inr ⟨p, s', hres, hp, Heap.stretch_of_kept obtains.placed obtains.sub⟩
  | memalign alignment size =>
      refine Heap.answers_iff ?_
      rcases memalign_spec good.free hlow hhigh legal.1 legal.2 with ⟨hres, hno⟩ |
        ⟨p, s', hres, hp, haligned, obtains⟩
      · refine Or.inl ⟨hres, ?_⟩
        rintro ⟨r, hr, a, ha, hsub⟩
        exact hno r hr a ha hsub
      · refine Or.inr ⟨p, s', hres, hp, Heap.stretch_of_sub obtains.placed obtains.sub ?_
          fun x hx => mem_extent hx.1 hx.2⟩
        rw [← obtains.placed.behind rfl]
        exact haligned
  | smemalign alignment size =>
      refine Heap.answers_iff ?_
      rcases smemalign_spec good.free hlow hhigh legal.1 legal.2 with ⟨hres, hno⟩ |
        ⟨p, s', hres, hp, haligned, obtains⟩
      · refine Or.inl ⟨hres, ?_⟩
        rintro ⟨r, hr, a, ha, hsub⟩
        exact hno r hr a ha hsub
      · exact Or.inr ⟨p, s', hres, hp, Heap.stretch_of_sub obtains.placed obtains.sub haligned
          fun x hx => mem_extent hx.1 hx.2⟩
  | realloc buf newSize =>
      obtain ⟨hb, hsize⟩ := legal
      rcases hb with rfl | hb
      · have hmalloc : realloc h.lmm 0 newSize = malloc h.lmm newSize := by rw [realloc, if_pos rfl]
        rw [Heap.step, hmalloc]
        rcases good.malloc_room low hsize with ⟨hres, hno⟩ | ⟨p, s', hres, hp, hroom⟩
        · rw [hres]
          exact ⟨0, _, rfl, iff_of_false (fun hne => hne rfl) hno⟩
        · rw [hres]
          exact ⟨p, _, rfl, iff_of_true hp hroom⟩
      · obtain ⟨b, hmem, htest⟩ := hb
        obtain ⟨haddr, hkept⟩ := of_decide_eq_true htest
        rcases realloc_spec good.free hlow hkept (good.placed b hmem) (good.headed b hmem)
          (Heap.disjoint_vacant hmem) hsize with ⟨hres, hno⟩ | ⟨p, s', hres, hp, moves⟩
        · rw [haddr, UInt32.ofNat_toNat] at hres
          rw [Heap.step, hres]
          exact ⟨0, _, rfl, iff_of_false (fun hne => hne rfl) (Heap.not_stretch_of_noStretch hno)⟩
        · rw [haddr, UInt32.ofNat_toNat] at hres
          rw [Heap.step, hres]
          exact ⟨p, _, rfl, iff_of_true hp (Heap.stretch_of_kept moves.placed moves.sub)⟩
  | free ptr => cases asks
  | sfree chunk size => cases asks
  | store address byte => cases asks

theorem heap_finds_room_malloc :
    ∃ p h', ((Heap.start smallArena).next (.malloc 5)).step (.smemalign 8 100) = some (p, h') ∧
      (p ≠ 0 ↔ ((Heap.start smallArena).next (.malloc 5)).Room (Set.Ico 16 80)
        (.smemalign 8 100)) :=
  heap_finds_room smallArena_low smallArena_high smallArena_free run_malloc
    ⟨by decide, by decide⟩ trivial

/-! ## What the free lists depend on -/

/-- The same blocks and the same lost grains make the same free lists. -/
theorem Heap.Good.holds_eq (good : h.Good arena bs) (good' : h'.Good arena bs)
    (live : h.live.Perm h'.live) (lost : h.lost.Perm h'.lost) :
    h'.lmm.regions = h.lmm.regions ∧ ∃ zs, h.lmm.Holds zs ∧ h'.lmm.Holds zs := by
  have hvacant : h.vacant arena = h'.vacant arena :=
    rest_perm ((live.map blockExtent).append (lost.map grain))
  have hfree := good.free
  rw [hvacant] at hfree
  obtain ⟨zs, hz, hz'⟩ := hfree.holds_eq good'.free (good'.bounds.trans good.bounds.symm)
  exact ⟨hz'.regions.trans hz.regions.symm, zs, hz, hz'⟩

/-- The bytes of the grains of a block. -/
def blockLength (b : Block) : ℕ := grainLength (chunkAddress b) (chunkSize b)

/-- The free bytes, the grains of the live blocks and the lost grains. -/
theorem Heap.Good.account (good : h.Good arena bs) (hs : s.HasFree arena) :
    h.lmm.freeBytes + (h.live.map blockLength).sum + 8 * h.lost.length = s.freeBytes := by
  have hcount := good.shares.ncard_rest hs.finite
  have hlive : (h.live.map blockExtent).map Set.ncard = h.live.map blockLength := by
    rw [List.map_map]
    exact List.map_congr_left fun b _ => ncard_Ico _ _
  have hlost : ((h.lost.map grain).map Set.ncard).sum = 8 * h.lost.length := by
    rw [List.map_map, show Set.ncard ∘ grain = fun _ => 8 from funext fun a => ncard_Ico a 8,
      List.map_const', List.sum_replicate_nat, Nat.mul_comm]
  rw [good.free.freeBytes_eq, hs.freeBytes_eq, ← hcount, Heap.reserved, List.map_append,
    List.sum_append, hlive, hlost, Nat.add_assoc]
  rfl

namespace Heap

/-- The block that `_sfree` is called for has no header, or one in its own first grain. -/
def Matched (h : Heap) : Call → Prop
  | .sfree chunk size => ∀ b, h.live.find? (sizedAt chunk size) = some b →
      b.allocator = .sizeKept → 4 ≤ b.address % 8
  | _ => True

theorem leftOut_eq_nil (b : Block) :
    leftOut b = [] ↔ (b.allocator = .sizeKept → 4 ≤ b.address % 8) := by
  rw [leftOut]
  split
  · next hout =>
    exact iff_of_false (List.cons_ne_nil _ _) fun himp =>
      Nat.not_le.mpr hout.2 (himp hout.1)
  · next hout =>
    exact iff_of_true rfl fun hk => Nat.not_lt.mp fun hlt => hout ⟨hk, hlt⟩

/-- Nothing is lost exactly when nothing was lost before and the call matches. -/
theorem lost_eq_nil_iff {label : Call × UInt32} (hstep : h.Step label h') :
    h'.lost = [] ↔ h.lost = [] ∧ h.Matched label.1 := by
  obtain ⟨c, p⟩ := label
  obtain ⟨-, hres⟩ := hstep
  have hsame : h'.lost = h.lost ∧ h.Matched c → (h'.lost = [] ↔ h.lost = [] ∧ h.Matched c) := by
    rintro ⟨hlost, hm⟩
    rw [hlost, and_iff_left hm]
  have hmap : ∀ {α : Type} {o : Option α} {f : α → UInt32 × Heap},
      (∀ a, (f a).2.lost = h.lost) → o.map f = some (p, h') → h'.lost = h.lost := by
    intro α o f hf ho
    obtain ⟨a, -, ha⟩ := Option.map_eq_some_iff.mp ho
    have := hf a
    rwa [ha] at this
  cases c with
  | malloc size => exact hsame ⟨hmap (fun _ => rfl) hres, trivial⟩
  | calloc nelt eltsize => exact hsame ⟨hmap (fun _ => rfl) hres, trivial⟩
  | memalign alignment size => exact hsame ⟨hmap (fun _ => rfl) hres, trivial⟩
  | smemalign alignment size => exact hsame ⟨hmap (fun _ => rfl) hres, trivial⟩
  | realloc buf newSize => exact hsame ⟨hmap (fun _ => rfl) hres, trivial⟩
  | free ptr => exact hsame ⟨hmap (fun _ => rfl) hres, trivial⟩
  | store address byte =>
      obtain ⟨-, rfl⟩ := Prod.mk.inj (Option.some.inj hres)
      exact hsame ⟨rfl, trivial⟩
  | sfree chunk size =>
      obtain ⟨lmm, -, hlmm⟩ := Option.map_eq_some_iff.mp hres
      obtain ⟨-, rfl⟩ := Prod.mk.inj hlmm
      rw [List.append_eq_nil_iff, and_comm]
      refine and_congr_right fun _ => ?_
      change _ ↔ ∀ b, h.live.find? (sizedAt chunk size) = some b → _
      cases hfind : h.live.find? (sizedAt chunk size) with
      | none => exact iff_of_true rfl fun b hb => by cases hb
      | some b =>
          refine (leftOut_eq_nil b).trans ⟨fun hb b' hb' => ?_, fun hb => hb b rfl⟩
          obtain rfl := Option.some.inj hb'
          exact hb

/-- A run in which nothing is lost is a run of matching calls. -/
theorem lost_eq_nil_iff_run (run : Run Step (start s) labels h) :
    h.lost = [] ↔ Run (Guarded Step fun h label => h.Matched label.1) (start s) labels h := by
  constructor
  · intro hlost
    induction run with
    | nil => exact Run.nil
    | snoc prev hstep ih =>
        obtain ⟨hprev, hm⟩ := (lost_eq_nil_iff hstep).mp hlost
        exact Run.snoc (ih hprev) ⟨hstep, hm⟩
  · intro guarded
    refine guarded.invariant (I := fun u => u.lost = []) rfl fun u a v hu hstep => ?_
    exact (lost_eq_nil_iff hstep.1).mpr ⟨hu, hstep.2⟩

end Heap

end Pebbles.Malloc
