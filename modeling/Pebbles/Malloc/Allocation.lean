import Pebbles.Malloc.FreeNodes

/-! # Allocation from the free lists

`lmm_alloc`, `lmm_alloc_gen` and `lmm_alloc_aligned`. An assertion that fails ends in `panic` and
has no result here. Both functions search the free list of each region and take the memory from the
first node that will do; `Region.search` is their common loop. What a region holds is a separated
list of chunks of eight-byte grains (`Region.Holds`), and an allocation carves its bytes out of one
of them (`Region.Holds.alloc`). -/

namespace Pebbles.Malloc

open ByteStores FreeLists

/-! ## The search of a free list -/

/-- The assertions about a region. -/
def Region.checked (r : Region) : Bool :=
  ((r.nodes = 0 ∧ r.free = 0) ∨ r.min ≤ r.nodes) ∧ r.free ≤ r.max - r.min

/-- The assertions about a node of a region. -/
def Region.checkedNode (r : Region) (m : Image) (node : UInt32) : Bool :=
  node &&& alignMask = 0 ∧ sizeOf m node &&& alignMask = 0 ∧
    (nextOf m node = 0 ∨ node < nextOf m node) ∧ node < r.max

/-- What the loop does at a node. -/
inductive Verdict where
  /-- `continue`. -/
  | pass
  /-- `break`. -/
  | stop
  /-- The memory is taken from the node. -/
  | take
  deriving DecidableEq

/-- How a search ends. -/
inductive Search where
  /-- An assertion fails. -/
  | fails
  /-- There is no node. -/
  | absent
  /-- The node, and the pointer to it. -/
  | found (link : Link) (node : UInt32)

/-- The loop over the nodes of a region. -/
def Region.search (r : Region) (m : Image) (judge : UInt32 → UInt32 → Verdict) : ℕ → Link → Search
  | 0, _ => .fails
  | fuel + 1, link =>
      let node := r.follow m link
      if node = 0 then .absent
      else if r.checkedNode m node then
        match judge node (sizeOf m node) with
        | .pass => r.search m judge fuel (.next node)
        | .stop => .absent
        | .take => .found link node
      else .fails

/-- There are fewer nodes than addresses. -/
def fuel : ℕ := 2 ^ 32

/-- The head of a node is used: the node is split, or removed from the list. -/
def Region.unlink (r : Region) (m : Image) (link : Link) (node size : UInt32) : Image × Region :=
  if size < sizeOf m node then
    let newnode := node + size
    let m := setNext m newnode (nextOf m node)
    let m := setSize m newnode (sizeOf m node - size)
    r.assign m link newnode
  else r.assign m link (nextOf m node)

/-- What one region comes to. -/
inductive Outcome where
  /-- An assertion fails. -/
  | fails
  /-- There is no memory in this region. -/
  | absent
  /-- The block, with memory and the region afterwards. -/
  | gives (addr : UInt32) (m : Image) (r : Region)

/-- `reg->free -= size`, and the block is returned. -/
def Region.give (r : Region) (m : Image) (addr size : UInt32) : Outcome :=
  if size ≤ r.free then .gives addr m { r with free := r.free - size } else .fails

/-- The loop over the regions. -/
def firstRegion (m : Image) (tryIn : Region → Outcome) : List Region → Option (UInt32 × Lmm)
  | [] => some (0, ⟨m, []⟩)
  | r :: rs =>
      match tryIn r with
      | .fails => none
      | .absent => (firstRegion m tryIn rs).map fun (a, s) => (a, ⟨s.memory, r :: s.regions⟩)
      | .gives a m' r' => some (a, ⟨m', r' :: rs⟩)

/-! ## The two functions -/

/-- The test of `lmm_alloc`. -/
def fits (size : UInt32) (_ nodeSize : UInt32) : Verdict := if size ≤ nodeSize then .take else .pass

/-- One region in `lmm_alloc`. -/
def Region.alloc (r : Region) (m : Image) (size flags : UInt32) : Outcome :=
  if r.checked then
    if flags &&& ~~~r.flags ≠ 0 then .absent
    else
      match r.search m (fits size) fuel .nodes with
      | .fails => .fails
      | .absent => .absent
      | .found link node =>
          let (m, r) := r.unlink m link node size
          r.give m node size
  else .fails

/-- `lmm_alloc`. -/
def lmmAlloc (s : Lmm) (size flags : UInt32) : Option (UInt32 × Lmm) :=
  if size = 0 then none
  else firstRegion s.memory
    (fun r => r.alloc s.memory ((size + alignMask) &&& ~~~alignMask) flags) s.regions

/-- The loop that moves an address up to the alignment asked for. -/
def alignAddr (addr alignOfs : UInt32) : ℕ → UInt32
  | 0 => addr
  | i + 1 =>
      let a := alignAddr addr alignOfs i
      let bit : UInt32 := 1 <<< UInt32.ofNat i
      if (a ^^^ alignOfs) &&& bit ≠ 0 then a + bit else a

/-- A call of `lmm_alloc_gen`. -/
structure Request where
  /-- The size. -/
  size : UInt32
  /-- The attributes asked for. -/
  flags : UInt32
  /-- The number of low bits of the address that are asked for. -/
  alignBits : ℕ
  /-- These bits. -/
  alignOfs : UInt32
  /-- The least address. -/
  inMin : UInt32
  /-- The size of the range. -/
  inSize : UInt32

namespace Request

/-- `in_max`. -/
def inMax (q : Request) : UInt32 := q.inMin + q.inSize

/-- The address at which the block would start in a node. -/
def addrIn (q : Request) (node : UInt32) : UInt32 :=
  alignAddr (if node < q.inMin then q.inMin else node) q.alignOfs q.alignBits

/-- The tests of `lmm_alloc_gen`. -/
def judge (q : Request) (node nodeSize : UInt32) : Verdict :=
  if nodeSize < q.size then .pass
  else if nodeSize < q.addrIn node - node + q.size then .pass
  else if q.inMax < q.addrIn node + q.size then .stop
  else .take

end Request

/-- The node is split in front of `anode`. -/
def splitBefore (m : Image) (link : Link) (node anode : UInt32) : Image × Link :=
  if node < anode then
    let splitSize := anode - node
    let m := setNext m anode (nextOf m node)
    let m := setSize m anode (sizeOf m node - splitSize)
    (setSize m node splitSize, .next node)
  else (m, link)

/-- One region in `lmm_alloc_gen`. -/
def Region.allocGen (r : Region) (m : Image) (q : Request) : Outcome :=
  if r.checked then
    if q.flags &&& ~~~r.flags ≠ 0 ∨ q.inMax ≤ r.min ∨ r.max ≤ q.inMin then .absent
    else
      match r.search m q.judge fuel .nodes with
      | .fails => .fails
      | .absent => .absent
      | .found link node =>
          let addr := q.addrIn node
          let anode := addr &&& ~~~alignMask
          if node ≤ anode ∧ (anode - node) &&& alignMask = 0 then
            let (m, link) := splitBefore m link node anode
            let size := ((addr &&& alignMask) + q.size + alignMask) &&& ~~~alignMask
            let (m, r) := r.unlink m link anode size
            r.give m addr size
          else .fails
  else .fails

/-- `lmm_alloc_gen`. -/
def lmmAllocGen (s : Lmm) (q : Request) : Option (UInt32 × Lmm) :=
  if q.size = 0 then none else firstRegion s.memory (fun r => r.allocGen s.memory q) s.regions

/-- `lmm_alloc_aligned`. -/
def lmmAllocAligned (s : Lmm) (size flags : UInt32) (alignBits : ℕ) (alignOfs : UInt32) :
    Option (UInt32 × Lmm) :=
  lmmAllocGen s ⟨size, flags, alignBits, alignOfs, 0, -1⟩

/-! ## What a region holds -/

/-- **The free chunks of a region**, in memory as a list of nodes. -/
structure Region.Holds (r : Region) (m : Image) (l : List Chunk) : Prop where
  /-- The nodes describe them. -/
  seg : Seg m r.nodes l 0
  /-- They are in order and not adjacent. -/
  separated : Separated l
  /-- They consist of grains. -/
  grained : Grained 8 l
  /-- They lie in the region. -/
  within : Within r.min.toNat r.max.toNat l
  /-- The counter is right. -/
  free : r.free.toNat = total l

variable {r r' : Region} {m m' : Image} {l before after : List Chunk} {c : Chunk}
  {link : Link} {node size : UInt32} {judge : UInt32 → UInt32 → Verdict}

theorem Grained.room (h : Grained 8 l) (hs : Separated l) (hc : c ∈ l) : 8 ≤ c.length :=
  Nat.le_of_dvd (hs.positive hc) (h c hc).2

theorem spaced_of_separated (hs : Separated l) (hg : Grained 8 l) {lo hi : ℕ}
    (hw : Within lo hi l) (hhi : hi < 2 ^ 32) : Spaced l := by
  induction l with
  | nil => exact Spaced.nil
  | cons c l ih =>
      refine Spaced.cons_iff.mpr ⟨⟨Grained.room hg hs List.mem_cons_self, ?_⟩,
        fun d hd => (hs.2.1 d hd).le, ih hs.2.2 (fun d hd => hg d (List.mem_cons_of_mem c hd))
          fun d hd => hw d (List.mem_cons_of_mem c hd)⟩
      exact lt_of_le_of_lt (hw c List.mem_cons_self).2 hhi

theorem length_le_total (hs : Separated l) : l.length ≤ total l := by
  induction l with
  | nil => exact le_rfl
  | cons c l ih =>
      have hpos := hs.1
      have hrest := ih hs.2.2
      rw [List.length_cons, total_cons]
      omega

namespace Region.Holds

theorem spaced (h : r.Holds m l) : Spaced l :=
  spaced_of_separated h.separated h.grained h.within r.max.toNat_lt

/-- There is fuel for every list of nodes. -/
theorem length_lt_fuel (h : r.Holds m l) : l.length < fuel := by
  have hlen := length_le_total h.separated
  have hlt := r.free.toNat_lt
  rw [h.free] at hlt
  exact lt_of_le_of_lt hlen hlt

/-- The assertions about the region. -/
theorem checked (h : r.Holds m l) : r.checked = true := by
  have htotal := h.separated.total_le h.within
  have hfree : r.free ≤ r.max - r.min := by
    rw [UInt32.le_iff_toNat_le, h.free]
    cases l with
    | nil => exact Nat.zero_le _
    | cons c l =>
        obtain ⟨hlo, hhi⟩ := h.within c List.mem_cons_self
        rw [Chunk.stop] at hhi
        rwa [sub_toNat_of_le (by omega)]
  have hnodes : (r.nodes = 0 ∧ r.free = 0) ∨ r.min ≤ r.nodes := by
    cases l with
    | nil =>
        refine Or.inl ⟨h.seg, UInt32.toNat.inj ?_⟩
        rw [h.free]
        rfl
    | cons c l =>
        refine Or.inr (UInt32.le_iff_toNat_le.mpr ?_)
        rw [h.seg.2.1]
        exact (h.within c List.mem_cons_self).1
  exact decide_eq_true ⟨hnodes, hfree⟩

/-- The assertions about a node. -/
theorem checkedNode (h : r.Holds m (before ++ c :: after)) (hnode : node.toNat = c.start)
    (hsize : (sizeOf m node).toNat = c.length) (hnext : Seg m (nextOf m node) after 0) :
    r.checkedNode m node = true := by
  have hc : c ∈ before ++ c :: after := List.mem_append_right _ List.mem_cons_self
  obtain ⟨hstart8, hlen8⟩ := h.grained c hc
  have hpos := h.separated.positive hc
  have hmax := (h.within c hc).2
  rw [Chunk.stop] at hmax
  have hafter : nextOf m node = 0 ∨ node < nextOf m node := by
    cases after with
    | nil => exact Or.inl hnext
    | cons d after =>
        refine Or.inr (UInt32.lt_iff_toNat_lt.mpr ?_)
        have hgap := (Separated.append_iff.mp h.separated).2.1.2.1 d List.mem_cons_self
        rw [hnode, hnext.2.1]
        rw [Chunk.stop] at hgap
        omega
  refine decide_eq_true ⟨and_alignMask_eq_zero (hnode ▸ hstart8),
    and_alignMask_eq_zero (hsize ▸ hlen8), hafter, UInt32.lt_iff_toNat_lt.mpr ?_⟩
  omega

end Region.Holds

/-! ## What a search finds -/

/-- The verdict on a chunk. -/
def judged (judge : UInt32 → UInt32 → Verdict) (c : Chunk) : Verdict :=
  judge (UInt32.ofNat c.start) (UInt32.ofNat c.length)

/-- **What a search comes to**, when the chunks `before` have been passed and `rest` is to come. -/
inductive Finds (judge : UInt32 → UInt32 → Verdict) (before rest : List Chunk) : Search → Prop
  /-- All chunks were passed, or those before one at which the loop stops. -/
  | absent (passed left : List Chunk) (split : rest = passed ++ left)
      (pass : ∀ c ∈ passed, judged judge c = .pass)
      (stop : ∀ c ∈ left.head?, judged judge c = .stop) : Finds judge before rest .absent
  /-- The first chunk that will do, with the link that leads to it. -/
  | found (passed : List Chunk) (c : Chunk) (left : List Chunk) (link : Link) (node : UInt32)
      (split : rest = passed ++ c :: left) (pass : ∀ d ∈ passed, judged judge d = .pass)
      (take : judge node (UInt32.ofNat c.length) = .take) (start : node.toNat = c.start)
      (ends : link.Ends (before ++ passed)) : Finds judge before rest (.found link node)

/-- **The loop over the nodes** of a region. No assertion fails. -/
theorem Region.Holds.search (h : r.Holds m l) (judge : UInt32 → UInt32 → Verdict)
    {rest : List Chunk} {steps : ℕ} (split : l = before ++ rest) (ends : link.Ends before)
    (enough : rest.length < steps) : Finds judge before rest (r.search m judge steps link) := by
  induction rest generalizing before link steps with
  | nil =>
      obtain ⟨steps, rfl⟩ : ∃ k, steps = k + 1 := Nat.exists_eq_add_one.mpr enough
      obtain ⟨x, hbefore, hx⟩ := seg_append.mp (split ▸ h.seg)
      have hzero : r.follow m link = 0 := (hbefore.follow ends).trans hx
      rw [Region.search, if_pos hzero]
      exact .absent [] [] rfl (fun _ h => absurd h List.not_mem_nil) fun _ h => by cases h
  | cons c rest ih =>
      obtain ⟨steps, rfl⟩ : ∃ k, steps = k + 1 :=
        Nat.exists_eq_add_one.mpr (Nat.zero_lt_of_lt enough)
      obtain ⟨x, hbefore, hx, hstart, hsize, hrest⟩ := seg_append.mp (split ▸ h.seg)
      have hfollow : r.follow m link = x := hbefore.follow ends
      have hchunk : judged judge c = judge x (sizeOf m x) := by
        rw [judged, ← hstart, ← hsize, UInt32.ofNat_toNat, UInt32.ofNat_toNat]
      have hcheck : r.checkedNode m x = true := (split ▸ h).checkedNode hstart hsize hrest
      rw [Region.search, hfollow, if_neg hx, if_pos hcheck]
      have hends : (Link.next x).Ends (before ++ [c]) := ⟨before, c, rfl, hstart⟩
      cases hj : judge x (sizeOf m x) with
      | pass =>
          have hsplit : l = (before ++ [c]) ++ rest := by
            rw [split, List.append_assoc, List.singleton_append]
          have hgo := ih hsplit hends (Nat.lt_of_succ_lt_succ enough)
          show Finds judge before (c :: rest) (r.search m judge steps (.next x))
          generalize r.search m judge steps (.next x) = result at hgo ⊢
          cases hgo with
          | absent passed left hsplit hpass hstop =>
              refine .absent (c :: passed) left (by rw [hsplit, List.cons_append]) ?_ hstop
              intro d hd
              rcases List.mem_cons.mp hd with rfl | hd
              · rw [hchunk, hj]
              · exact hpass d hd
          | found passed d left link' node hsplit hpass htake hnode hends' =>
              refine .found (c :: passed) d left link' node (by rw [hsplit, List.cons_append]) ?_
                htake hnode ?_
              · intro e he
                rcases List.mem_cons.mp he with rfl | he
                · rw [hchunk, hj]
                · exact hpass e he
              · rwa [List.append_assoc, List.singleton_append] at hends'
      | stop =>
          refine .absent [] (c :: rest) rfl (fun _ h => absurd h List.not_mem_nil) fun d hd => ?_
          obtain rfl : c = d := Option.some.inj hd
          rw [hchunk, hj]
      | take =>
          refine .found [] c rest link x rfl (fun _ h => absurd h List.not_mem_nil) ?_ hstart ?_
          · rw [← hsize, UInt32.ofNat_toNat, hj]
          · rwa [List.append_nil]

/-! ## Nodes are split and removed -/

/-- **The head of a node is used**: its other bytes stay in the list, and memory changes in the
chunks of the list only. -/
theorem Region.unlink_spec {q : UInt32} (hbefore : Seg m r.nodes before q)
    (hsize : (sizeOf m node).toNat = c.length) (hafter : Seg m (nextOf m node) after 0)
    (hs : Spaced (before ++ c :: after)) (ends : link.Ends before) (hnode : node.toNat = c.start)
    (h8 : 8 ≤ size.toNat) (hle : size.toNat ≤ c.length)
    (hrest : size.toNat < c.length → size.toNat + 8 ≤ c.length) :
    Seg (r.unlink m link node size).1 (r.unlink m link node size).2.nodes
        (before ++ (pieces c c.start size.toNat ++ after)) 0 ∧
      Agree (cells (before ++ c :: after))ᶜ m (r.unlink m link node size).1 ∧
      (r.unlink m link node size).2 =
        { r with nodes := (r.unlink m link node size).2.nodes } := by
  obtain ⟨hsb, hsc, hcross⟩ := Spaced.append_iff.mp hs
  obtain ⟨⟨-, hstop⟩, hgap, hsa⟩ := Spaced.cons_iff.mp hsc
  rw [Chunk.stop] at hstop
  have hbc : ∀ d ∈ before, d.stop ≤ c.start := fun d hd => hcross d hd c List.mem_cons_self
  -- the chunks around the one that is used
  have hother : cells before ∪ cells after ⊆ c.cellsᶜ := by
    rintro y (hy | hy) hyc
    · exact Spaced.notMem_of_le hbc hyc.1 hy
    · exact Spaced.notMem_of_lt hgap hyc.2 hy
  have hall : ∀ y, y ∉ cells (before ++ c :: after) → y ∉ cells before ∧ y ∉ c.cells := by
    intro y hy
    rw [cells_append, cells_cons] at hy
    exact ⟨fun h => hy (Or.inl h), fun h => hy (Or.inr (Or.inl h))⟩
  have hab : cells after ⊆ (cells before)ᶜ := by
    rintro y ⟨d, hd, hyd, -⟩ hyb
    obtain ⟨e, he, -, hye⟩ := hyb
    have := hcross e he d (List.mem_cons_of_mem c hd)
    omega
  rw [Region.unlink]
  by_cases hlt : size < sizeOf m node
  · rw [if_pos hlt]
    rw [UInt32.lt_iff_toNat_lt, hsize] at hlt
    have hroom := hrest hlt
    set new := node + size with hnew
    have hnewNat : new.toNat = c.start + size.toNat := by
      rw [hnew, add_toNat (by omega), hnode]
    have hin : Set.Ico new.toNat (new.toNat + 8) ⊆ c.cells := by
      rw [hnewNat]
      intro y hy
      have h1 := hy.1
      have h2 := hy.2
      exact ⟨by omega, by rw [Chunk.stop]; omega⟩
    -- the header of the node used is not overwritten before it is read
    have hread : sizeOf (setNext m new (nextOf m node)) node = sizeOf m node := by
      refine Agree.load (Agree.storeWord (by omega) ?_) ?_ subset_rfl
      · rw [add_four_toNat (by omega), hnewNat]
        refine Set.disjoint_left.mpr fun y hy hy' => ?_
        have h1 := hy.2
        have h2 := hy'.1
        omega
      · rw [add_four_toNat (by omega)]
        omega
    dsimp only
    rw [hread]
    obtain ⟨hnext, hsize', hagree⟩ := node_stores (show new.toNat + 8 ≤ 2 ^ 32 by omega) m
      (nextOf m node) (sizeOf m node - size)
    set m1 := setSize (setNext m new (nextOf m node)) new (sizeOf m node - size) with hm1
    have hagree' : Agree c.cellsᶜ m m1 := hagree.mono (Set.compl_subset_compl.mpr hin)
    have hbefore1 : Seg m1 r.nodes before q :=
      hbefore.frame hsb (hagree'.mono fun y hy => hother (Or.inl hy))
    obtain ⟨hb2, hagree2, hr2⟩ := hbefore1.assign ends hsb new
    have hpiece : pieces c c.start size.toNat =
        [⟨c.start + size.toNat, c.length - size.toNat⟩] := by
      rw [pieces, if_neg (lt_irrefl _), if_pos (by rw [Chunk.stop]; omega), List.nil_append,
        Chunk.stop, Nat.add_sub_add_left]
    have hnewSeg : Seg m1 new [⟨c.start + size.toNat, c.length - size.toNat⟩] (nextOf m node) := by
      refine ⟨fun hzero => ?_, hnewNat, ?_, hnext⟩
      · rw [hzero, UInt32.toNat_zero] at hnewNat
        omega
      · rw [hsize', sub_toNat_of_le (by omega), hsize]
    have hspaced : Spaced [⟨c.start + size.toNat, c.length - size.toNat⟩] := by
      refine Spaced.cons_iff.mpr ⟨⟨by simp only; omega, by rw [Chunk.stop_mk]; omega⟩,
        fun _ h => absurd h List.not_mem_nil, Spaced.nil⟩
    have hsub : cells [⟨c.start + size.toNat, c.length - size.toNat⟩] ⊆ c.cells := by
      rw [cells_cons, cells_nil, Set.union_empty]
      rintro y ⟨hy, hy'⟩
      rw [Chunk.stop_mk] at hy'
      exact ⟨le_trans (Nat.le_add_right _ _) hy, by rw [Chunk.stop]; omega⟩
    refine ⟨?_, (hagree'.mono ?_).trans (hagree2.mono ?_), hr2⟩
    · rw [hpiece]
      refine seg_append.mpr ⟨new, hb2, seg_append.mpr ⟨nextOf m node, ?_, ?_⟩⟩
      · exact hnewSeg.frame hspaced (hagree2.mono fun y hy hyb => hother (Or.inl hyb) (hsub hy))
      · exact (hafter.frame hsa (hagree'.mono fun y hy => hother (Or.inr hy))).frame hsa
          (hagree2.mono hab)
    · exact fun y hy => (hall y hy).2
    · exact fun y hy => (hall y hy).1
  · rw [if_neg hlt]
    rw [UInt32.lt_iff_toNat_lt, hsize] at hlt
    have hpiece : pieces c c.start size.toNat = [] := by
      rw [pieces, if_neg (lt_irrefl _), if_neg (by rw [Chunk.stop]; omega), List.nil_append]
    obtain ⟨hb2, hagree2, hr2⟩ := hbefore.assign ends hsb (nextOf m node)
    refine ⟨?_, hagree2.mono fun y hy => (hall y hy).1, hr2⟩
    rw [hpiece, List.nil_append]
    exact seg_append.mpr ⟨nextOf m node, hb2, hafter.frame hsa (hagree2.mono hab)⟩

/-! ## What one region gives -/

/-- **The effect of an allocation** on a region: `n` bytes from `start` on are not free any more,
and memory has changed where there was free memory only. -/
structure Carves (r : Region) (m : Image) (l : List Chunk) (start n : ℕ) (r' : Region) (m' : Image)
    (l' : List Chunk) : Prop where
  /-- The region holds the rest. -/
  holds : r'.Holds m' l'
  /-- The bytes were free. -/
  sub : Set.Ico start (start + n) ⊆ cells l
  /-- All the others are still free. -/
  cells : cells l' = cells l \ Set.Ico start (start + n)
  /-- Other memory is the same. -/
  agree : Agree (FreeLists.cells l)ᶜ m m'
  /-- The region lies where it lay. -/
  same : r' = { r with nodes := r'.nodes, free := r'.free }

/-- The counter is adjusted, and the block returned. -/
theorem Region.Holds.give (h : r.Holds m (before ++ c :: after)) (start n : ℕ) (addr : UInt32)
    (seg : Seg m' r'.nodes (carve before c after start n) 0)
    (same : r' = { r with nodes := r'.nodes }) (agree : Agree (cells (before ++ c :: after))ᶜ m m')
    (hstart : c.start ≤ start) (hstop : start + n ≤ c.stop) (hpos : 0 < n) (start8 : 8 ∣ start)
    (n8 : 8 ∣ n) (hsize : size.toNat = n) :
    ∃ r1, r'.give m' addr size = .gives addr m' r1 ∧
      Carves r m (before ++ c :: after) start n r1 m' (carve before c after start n) := by
  have htotal : total (carve before c after start n) + n = total (before ++ c :: after) :=
    total_carve hstart hstop
  have hfree : r'.free = r.free := by rw [same]
  have hle : size ≤ r'.free := by
    rw [UInt32.le_iff_toNat_le, hsize, hfree, h.free]
    omega
  refine ⟨{ r' with free := r'.free - size }, if_pos hle, ?_, ?_, ?_, agree, ?_⟩
  · refine ⟨seg, h.separated.carve hstart hstop hpos, h.grained.carve start8 n8, ?_, ?_⟩
    · have hw := h.within.carve hstart hstop
      rw [same]
      exact hw
    · show (r'.free - size).toNat = _
      rw [sub_toNat_of_le (UInt32.le_iff_toNat_le.mp hle), hfree, h.free, hsize]
      omega
  · intro x hx
    exact ⟨c, List.mem_append_right _ List.mem_cons_self, le_trans hstart hx.1,
      lt_of_lt_of_le hx.2 hstop⟩
  · exact h.separated.cells_carve hstart hstop
  · rw [same]

/-- **One region in `lmm_alloc`.** -/
theorem Region.Holds.alloc (h : r.Holds m l) (hpos : 0 < size.toNat) (size8 : 8 ∣ size.toNat)
    (flags : UInt32) :
    (r.alloc m size flags = .absent ∧ (flags &&& ~~~r.flags = 0 →
      ∀ b, ¬ Set.Ico b (b + size.toNat) ⊆ cells l)) ∨
    flags &&& ~~~r.flags = 0 ∧ ∃ a m' r' l', r.alloc m size flags = .gives a m' r' ∧
      Carves r m l a.toNat size.toNat r' m' l' ∧ a ≠ 0 ∧ 8 ∣ a.toNat := by
  rw [Region.alloc, if_pos h.checked]
  by_cases hflags : flags &&& ~~~r.flags = 0
  · have hsearch := h.search (fits size) (show l = [] ++ l from rfl)
      (show Link.nodes.Ends [] from rfl) h.length_lt_fuel
    rw [if_neg (not_not.mpr hflags)]
    generalize r.search m (fits size) fuel .nodes = result at hsearch
    cases hsearch with
    | absent passed left split pass stop =>
        -- the loop does not stop before the end
        have hleft : left = [] := by
          cases left with
          | nil => rfl
          | cons c left =>
              have hstop := stop c rfl
              rw [judged, fits] at hstop
              split at hstop <;> cases hstop
        subst hleft
        rw [List.append_nil] at split
        refine Or.inl ⟨rfl, fun _ b hb => ?_⟩
        obtain ⟨c, hc, hstart, hstop⟩ := h.separated.exists_chunk (by omega) hb
        have hpass := pass c (split ▸ hc)
        have hlt := (h.spaced.room c hc).2
        rw [Chunk.stop] at hstop hlt
        rw [judged, fits, if_pos] at hpass
        · cases hpass
        · rw [UInt32.le_iff_toNat_le, UInt32.toNat_ofNat', Nat.mod_eq_of_lt (by omega)]
          omega
    | found passed c left link node split pass take start ends =>
        rw [List.nil_append] at ends
        subst split
        have hc : c ∈ passed ++ c :: left := List.mem_append_right _ List.mem_cons_self
        obtain ⟨hstart8, hlen8⟩ := h.grained c hc
        have hlt := (h.spaced.room c hc).2
        rw [Chunk.stop] at hlt
        have hle : size.toNat ≤ c.length := by
          rw [fits] at take
          split at take
          · next hle =>
              rwa [UInt32.le_iff_toNat_le, UInt32.toNat_ofNat', Nat.mod_eq_of_lt (by omega)] at hle
          · cases take
        obtain ⟨x, hbefore, hx, hxstart, hxsize, hafter⟩ := seg_append.mp h.seg
        obtain rfl : node = x := UInt32.toNat.inj (start.trans hxstart.symm)
        obtain ⟨hseg, hagree, hsame⟩ := Region.unlink_spec hbefore hxsize hafter h.spaced ends start
          (Nat.le_of_dvd hpos size8) hle fun hlt => by omega
        obtain ⟨r1, hgive, hcarves⟩ := h.give c.start size.toNat node
          (by rw [carve, List.append_assoc]; exact hseg) hsame hagree le_rfl
          (Nat.add_le_add_left hle _) hpos hstart8 size8 rfl
        exact Or.inr ⟨hflags, node, _, r1, _, hgive, start ▸ hcarves, hx, start ▸ hstart8⟩
  · rw [if_pos hflags]
    exact Or.inl ⟨rfl, fun hno => absurd hno hflags⟩

end Pebbles.Malloc
