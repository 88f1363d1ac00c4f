import Pebbles.Malloc.Allocation

/-! # Release to the free lists

`lmm_free` in one region: the loop finds the nodes between which the chunk belongs, and the chunk is
joined to those that it meets. In memory this is what `FreeLists.release` does to the list
(`Region.Holds.insert`). -/

namespace Pebbles.Malloc

open ByteStores FreeLists

/-- The loop that looks for the place of a node. There is no result when it does not end. -/
def place (m : Image) (node : UInt32) : ℕ → UInt32 → UInt32 → Option (UInt32 × UInt32)
  | 0, _, _ => none
  | steps + 1, prevnode, nextnode =>
      if nextnode ≠ 0 ∧ nextnode < node then place m node steps nextnode (nextOf m nextnode)
      else some (prevnode, nextnode)

/-- The pointer that leads to the node after `prevnode`. -/
def linkAfter (prevnode : UInt32) : Link := if prevnode ≠ 0 then .next prevnode else .nodes

/-- The freed chunk is joined to the previous node, and to the next one if possible. -/
def growPrev (m : Image) (node size prevnode nextnode : UInt32) : Option Image :=
  if prevnode + sizeOf m prevnode ≠ node then none
  else if nextnode ≠ 0 ∧ nextnode ≤ node + size then
    if node + size ≠ nextnode then none
    else
      let m := setSize m prevnode (sizeOf m prevnode + (size + sizeOf m nextnode))
      some (setNext m prevnode (nextOf m nextnode))
  else some (setSize m prevnode (sizeOf m prevnode + size))

/-- The freed chunk gets a node, which is joined to the next one if possible. -/
def Region.addNode (r : Region) (m : Image) (node size prevnode nextnode : UInt32) :
    Image × Region :=
  let (m, r) := r.assign m (linkAfter prevnode) node
  if nextnode ≠ 0 ∧ nextnode ≤ node + size then
    let m := setSize m node (size + sizeOf m nextnode)
    (setNext m node (nextOf m nextnode), r)
  else
    let m := setSize m node size
    (setNext m node nextnode, r)

/-- The part of `lmm_free` that adds a chunk to its region. -/
def Region.insert (r : Region) (m : Image) (node size : UInt32) : Option (Image × Region) :=
  let r := { r with free := r.free + size }
  if r.max - r.min < r.free then none
  else
    (place m node fuel 0 r.nodes).bind fun (prevnode, nextnode) =>
      if prevnode ≠ 0 ∧ node ≤ prevnode + sizeOf m prevnode then
        (growPrev m node size prevnode nextnode).map fun m => (m, r)
      else some (r.addNode m node size prevnode nextnode)

/-- The loop over the regions. -/
def freeIn (m : Image) (node size : UInt32) : List Region → Option Lmm
  | [] => none
  | r :: rs =>
      if (r.nodes = 0 ∧ r.free = 0) ∨ r.min ≤ r.nodes then
        if r.min ≤ node ∧ node < r.max then
          (r.insert m node size).map fun (m, r) => ⟨m, r :: rs⟩
        else (freeIn m node size rs).map fun s => ⟨s.memory, r :: s.regions⟩
      else none

/-- `lmm_free`. -/
def lmmFree (s : Lmm) (block size : UInt32) : Option Lmm :=
  if block = 0 ∨ size = 0 then none
  else freeIn s.memory (block &&& ~~~alignMask)
    (((block &&& alignMask) + size + alignMask) &&& ~~~alignMask) s.regions

variable {r : Region} {m m' : Image} {l before after : List Chunk} {c d e : Chunk}
  {node size prevnode nextnode target : UInt32}

/-! ## The place of a node -/

/-- `prevnode` is the last node of a list. -/
def Last (prevnode : UInt32) (before : List Chunk) : Prop :=
  (before = [] ∧ prevnode = 0) ∨
    ∃ b d, before = b ++ [d] ∧ prevnode ≠ 0 ∧ prevnode.toNat = d.start

theorem Last.ends (h : Last prevnode before) : (linkAfter prevnode).Ends before := by
  rcases h with ⟨rfl, rfl⟩ | ⟨b, d, rfl, hne, hstart⟩
  · rfl
  · rw [linkAfter, if_pos hne]
    exact ⟨b, d, rfl, hstart⟩

/-- **The place of a node**: behind the nodes at lower addresses, before the others. -/
structure Place (m : Image) (nodes : UInt32) (l : List Chunk) (node prevnode nextnode : UInt32)
    (before after : List Chunk) : Prop where
  /-- The list in two parts. -/
  split : l = before ++ after
  /-- The first one in memory. -/
  first : Seg m nodes before nextnode
  /-- The second one in memory. -/
  second : Seg m nextnode after 0
  /-- The first part ends with `prevnode`. -/
  last : Last prevnode before
  /-- The first part is at lower addresses. -/
  lower : ∀ d ∈ before, d.start < node.toNat

/-- **The loop over the nodes** finds the place. -/
theorem place_spec {nodes : UInt32} {steps : ℕ}
    (h : Place m nodes l node prevnode nextnode before after) (enough : after.length < steps) :
    ∃ prevnode' nextnode' before' after',
      place m node steps prevnode nextnode = some (prevnode', nextnode') ∧
        Place m nodes l node prevnode' nextnode' before' after' ∧
          ∀ d ∈ after'.head?, node.toNat ≤ d.start := by
  induction after generalizing before prevnode nextnode steps with
  | nil =>
      obtain ⟨steps, rfl⟩ : ∃ k, steps = k + 1 := Nat.exists_eq_add_one.mpr enough
      have hzero : nextnode = 0 := h.second
      refine ⟨prevnode, nextnode, before, [], ?_, h, fun _ h => by cases h⟩
      rw [place, if_neg fun hne => hne.1 hzero]
  | cons c after ih =>
      obtain ⟨steps, rfl⟩ : ∃ k, steps = k + 1 :=
        Nat.exists_eq_add_one.mpr (Nat.zero_lt_of_lt enough)
      obtain ⟨hne, hstart, hsize, hrest⟩ := h.second
      by_cases hlt : nextnode < node
      · rw [place, if_pos ⟨hne, hlt⟩]
        rw [UInt32.lt_iff_toNat_lt, hstart] at hlt
        suffices hnext : Place m nodes l node nextnode (nextOf m nextnode) (before ++ [c]) after from
          ih hnext (Nat.lt_of_succ_lt_succ enough)
        refine ⟨?_, ?_, hrest, ?_, ?_⟩
        · rw [h.split, List.append_assoc, List.singleton_append]
        · exact seg_append.mpr ⟨nextnode, h.first, hne, hstart, hsize, rfl⟩
        · exact Or.inr ⟨before, c, rfl, hne, hstart⟩
        · intro d hd
          rcases List.mem_append.mp hd with hd | hd
          · exact h.lower d hd
          · rw [List.mem_singleton] at hd
            rwa [hd]
      · refine ⟨prevnode, nextnode, before, c :: after, ?_, h, fun d hd => ?_⟩
        · rw [place, if_neg fun hboth => hlt hboth.2]
        · obtain rfl : c = d := Option.some.inj hd
          rw [UInt32.lt_iff_toNat_lt, hstart, not_lt] at hlt
          exact hlt

namespace Place

variable {b : List Chunk} {p : Chunk}

/-- The chunks in front of the place stop where the freed one starts, or before. -/
theorem stop_le (h : Place m nodes l node prevnode nextnode before after) (fresh : Fresh c l)
    (start : node.toNat = c.start) : ∀ d ∈ before, d.stop ≤ c.start := by
  intro d hd
  have hlt := h.lower d hd
  rcases fresh d (h.split ▸ List.mem_append_left _ hd) with hle | hle
  · exact hle
  · rw [Chunk.stop] at hle
    omega

/-- The chunks behind the place start where the freed one does, or later. -/
theorem start_le (h : Place m nodes l node prevnode nextnode before after)
    (separated : Separated l) (start : node.toNat = c.start)
    (head : ∀ d ∈ after.head?, node.toNat ≤ d.start) : ∀ d ∈ after, c.start ≤ d.start := by
  intro d hd
  cases after with
  | nil => cases hd
  | cons e after =>
      have hhead := head e rfl
      rcases List.mem_cons.mp hd with rfl | hd
      · omega
      · have hsep : Separated (e :: after) := (Separated.append_iff.mp (h.split ▸ separated)).2.1
        have hgap := hsep.2.1 d hd
        rw [Chunk.stop] at hgap
        omega

/-- So they start behind it. -/
theorem le_start (h : Place m nodes l node prevnode nextnode before after) (fresh : Fresh c l)
    (separated : Separated l) (starts : ∀ d ∈ after, c.start ≤ d.start) :
    ∀ d ∈ after, c.stop ≤ d.start := by
  intro d hd
  have hle := starts d hd
  have hpos := separated.positive (h.split ▸ List.mem_append_right _ hd)
  rcases fresh d (h.split ▸ List.mem_append_right _ hd) with hstop | hstop
  · rw [Chunk.stop] at hstop
    omega
  · exact hstop

/-- The chunk of `prevnode`. -/
theorem previous (h : Place m nodes l node prevnode nextnode before after) (hne : prevnode ≠ 0) :
    ∃ b p, before = b ++ [p] ∧ prevnode.toNat = p.start ∧
      (sizeOf m prevnode).toNat = p.length := by
  rcases h.last with ⟨-, hzero⟩ | ⟨b, p, rfl, -, hstart⟩
  · exact absurd hzero hne
  · obtain ⟨x, -, -, hxstart, hsize, -⟩ := seg_append.mp h.first
    obtain rfl : prevnode = x := UInt32.toNat.inj (hstart.trans hxstart.symm)
    exact ⟨b, p, rfl, hstart, hsize⟩

/-- Only the last chunk in front can meet the freed one. -/
theorem stop_lt (h : Place m nodes l node prevnode nextnode (b ++ [p]) after)
    (separated : Separated l) (start : node.toNat = c.start) : ∀ d ∈ b, d.stop < c.start := by
  intro d hd
  have hsep := (Separated.append_iff.mp (h.split ▸ separated)).1
  have hgap := (Separated.append_iff.mp hsep).2.2 d hd p (List.mem_singleton_self p)
  have hlt := h.lower p (List.mem_append_right _ (List.mem_singleton_self p))
  omega

/-- The test whether it does. -/
theorem meets_previous (hstop : p.stop < 2 ^ 32) (hprev : prevnode.toNat = p.start)
    (hsize : (sizeOf m prevnode).toNat = p.length) (start : node.toNat = c.start) :
    node ≤ prevnode + sizeOf m prevnode ↔ c.start ≤ p.stop := by
  rw [Chunk.stop] at hstop ⊢
  rw [UInt32.le_iff_toNat_le, add_toNat (by omega), hprev, hsize, start]

/-- When the test fails, all chunks in front stop before the freed one starts. -/
theorem apart (h : Place m nodes l node prevnode nextnode before after) (spaced : Spaced before)
    (separated : Separated l) (start : node.toNat = c.start)
    (hno : ¬ (prevnode ≠ 0 ∧ node ≤ prevnode + sizeOf m prevnode)) :
    ∀ d ∈ before, d.stop < c.start := by
  intro d hd
  by_cases hzero : prevnode = 0
  · rcases h.last with ⟨rfl, -⟩ | ⟨b, p, -, hne, -⟩
    · cases hd
    · exact absurd hzero hne
  · obtain ⟨b, p, rfl, hprev, hsize⟩ := h.previous hzero
    have hstop := (spaced.room p (List.mem_append_right _ (List.mem_singleton_self p))).2
    rcases List.mem_append.mp hd with hd | hd
    · exact h.stop_lt separated start d hd
    · obtain rfl := List.mem_singleton.mp hd
      exact not_le.mp fun hle => hno ⟨hzero, (meets_previous hstop hprev hsize start).mpr hle⟩

end Place

/-! ## Joining -/

/-- A node is written, its size first. -/
theorem node_stores' (hnode : node.toNat + 8 ≤ 2 ^ 32) (m : Image) (next size : UInt32) :
    nextOf (setNext (setSize m node size) node next) node = next ∧
      sizeOf (setNext (setSize m node size) node next) node = size ∧
      Agree (Set.Ico node.toNat (node.toNat + 8))ᶜ m (setNext (setSize m node size) node next) := by
  obtain ⟨-, hsize, hagree⟩ := setSize_stores hnode m size
  obtain ⟨hnext, hsize', hagree'⟩ := setNext_stores hnode (setSize m node size) next
  exact ⟨hnext, hsize'.trans hsize, hagree.trans hagree'⟩

/-- **A node that takes in the next one.** -/
theorem seg_join_meets (h : Seg m nextnode (d :: after) 0) (hs : Spaced (d :: after))
    (htarget : target ≠ 0) (hstart : target.toNat = e.start) (hroom : 8 ≤ e.length)
    (hle : e.stop ≤ d.start) (hmeets : d.start ≤ e.stop)
    (hsize : (sizeOf m' target).toNat = e.length + d.length)
    (hnext : nextOf m' target = nextOf m nextnode)
    (agree : Agree (Set.Ico target.toNat (target.toNat + 8))ᶜ m m') :
    Seg m' target (join e (d :: after)) 0 := by
  rw [join, if_pos hmeets]
  obtain ⟨hroom', hgap, hs⟩ := Spaced.cons_iff.mp hs
  refine ⟨htarget, hstart, hsize, ?_⟩
  rw [hnext]
  refine h.2.2.2.frame hs (agree.mono ?_)
  rintro x ⟨y, hy, hyx, -⟩ hx
  have h1 := hgap y hy
  have h2 := hx.2
  rw [Chunk.stop] at hle h1
  omega

/-- **A node in front of the next one.** -/
theorem seg_join_apart (h : Seg m nextnode after 0) (hs : Spaced after) (htarget : target ≠ 0)
    (hstart : target.toNat = e.start) (hroom : 8 ≤ e.length)
    (hle : ∀ d ∈ after, e.stop ≤ d.start) (hapart : ∀ d ∈ after.head?, e.stop < d.start)
    (hsize : (sizeOf m' target).toNat = e.length) (hnext : nextOf m' target = nextnode)
    (agree : Agree (Set.Ico target.toNat (target.toNat + 8))ᶜ m m') :
    Seg m' target (join e after) 0 := by
  have hjoin : join e after = e :: after := by
    cases after with
    | nil => rfl
    | cons d after => rw [join, if_neg (not_le.mpr (hapart d rfl))]
  rw [hjoin]
  refine ⟨htarget, hstart, hsize, ?_⟩
  rw [hnext]
  refine h.frame hs (agree.mono ?_)
  rintro x ⟨y, hy, hyx, -⟩ hx
  have h1 := hle y hy
  have h2 := hx.2
  rw [Chunk.stop] at h1
  omega

/-- Whether the next node is met, in memory and in the list. -/
theorem meets_iff (h : Seg m nextnode after 0) (stop : UInt32) :
    (nextnode ≠ 0 ∧ nextnode ≤ stop) ↔ ∃ d rest, after = d :: rest ∧ d.start ≤ stop.toNat := by
  cases after with
  | nil =>
      constructor
      · rintro ⟨hne, -⟩
        exact absurd h hne
      · rintro ⟨d, rest, hno, -⟩
        cases hno
  | cons d rest =>
      obtain ⟨hne, hstart, -⟩ := h
      rw [UInt32.le_iff_toNat_le, hstart]
      constructor
      · rintro ⟨-, hle⟩
        exact ⟨d, rest, rfl, hle⟩
      · rintro ⟨d', rest', heq, hle⟩
        obtain ⟨rfl, rfl⟩ := List.cons.inj heq
        exact ⟨hne, hle⟩

/-! ## The two ways to add a chunk -/

/-- The header of a node is its own. -/
theorem header_compl_of_le {t : UInt32} {x : ℕ} (h : x < t.toNat ∨ t.toNat + 8 ≤ x) :
    x ∈ (Set.Ico t.toNat (t.toNat + 8))ᶜ := fun hx => by
  have h1 := hx.1
  have h2 := hx.2
  omega

/-- **The freed chunk gets a node** behind the chunks `before`. -/
theorem Region.addNode_spec (hbefore : Seg m r.nodes before nextnode)
    (hafter : Seg m nextnode after 0) (hlast : Last prevnode before)
    (hs : Spaced (before ++ after)) (hnode : node ≠ 0) (hstart : node.toNat = c.start)
    (hsize : size.toNat = c.length) (hroom : 8 ≤ c.length) (hstop : c.stop < 2 ^ 32)
    (hb : ∀ d ∈ before, d.stop ≤ c.start) (ha : ∀ d ∈ after, c.stop ≤ d.start) :
    Seg (r.addNode m node size prevnode nextnode).1
        (r.addNode m node size prevnode nextnode).2.nodes (before ++ join c after) 0 ∧
      Agree (cells before ∪ c.cells)ᶜ m (r.addNode m node size prevnode nextnode).1 ∧
      (r.addNode m node size prevnode nextnode).2 =
        { r with nodes := (r.addNode m node size prevnode nextnode).2.nodes } := by
  obtain ⟨hsb, hsa, hcross⟩ := Spaced.append_iff.mp hs
  obtain ⟨hb1, hagree1, hr1⟩ := hbefore.assign hlast.ends hsb node
  have hafter1 : Seg (r.assign m (linkAfter prevnode) node).1 nextnode after 0 := by
    refine hafter.frame hsa (hagree1.mono ?_)
    rintro x ⟨d, hd, hx, -⟩ ⟨e, he, -, hx'⟩
    have := hcross e he d hd
    omega
  rw [Region.addNode]
  generalize r.assign m (linkAfter prevnode) node = state at hb1 hagree1 hr1 hafter1
  obtain ⟨m1, r1⟩ := state
  dsimp only at hb1 hagree1 hr1 hafter1 ⊢
  rw [Chunk.stop] at hstop
  have hend : (node + size).toNat = c.stop := by
    rw [add_toNat (by omega), hstart, hsize, Chunk.stop]
  have hin : Set.Ico node.toNat (node.toNat + 8) ⊆ c.cells := by
    rw [hstart]
    exact fun x hx => ⟨hx.1, lt_of_lt_of_le hx.2 (Nat.add_le_add_left hroom _)⟩
  have hbframe : cells before ⊆ (Set.Ico node.toNat (node.toNat + 8))ᶜ := fun x hx hx' =>
    Spaced.notMem_of_le hb (hin hx').1 hx
  have hmeets := meets_iff hafter1 (node + size)
  rw [hend] at hmeets
  by_cases hnext : nextnode ≠ 0 ∧ nextnode ≤ node + size
  · rw [if_pos hnext]
    obtain ⟨d, rest, rfl, hle⟩ := hmeets.mp hnext
    obtain ⟨hdroom, -, -⟩ := Spaced.cons_iff.mp hsa
    obtain ⟨hne, hdstart, hdsize, hdrest⟩ := hafter1
    have hdle := ha d List.mem_cons_self
    have hread : nextOf (setSize m1 node (size + sizeOf m1 nextnode)) nextnode =
        nextOf m1 nextnode := by
      refine (setSize_stores (by omega) m1 _).2.2.load (by rw [Chunk.stop] at hdroom; omega) ?_
      intro x hx
      refine header_compl_of_le (Or.inr ?_)
      have := hx.1
      rw [Chunk.stop] at hdle
      omega
    obtain ⟨hnext2, hsize2, hagree2⟩ := node_stores' (show node.toNat + 8 ≤ 2 ^ 32 by omega) m1
      (nextOf (setSize m1 node (size + sizeOf m1 nextnode)) nextnode) (size + sizeOf m1 nextnode)
    have hsum : (size + sizeOf m1 nextnode).toNat = c.length + d.length := by
      have hdstop := hdroom.2
      rw [Chunk.stop] at hdstop hle hdle
      rw [add_toNat (by rw [hsize, hdsize]; omega), hsize, hdsize]
    refine ⟨seg_append.mpr ⟨node, hb1.frame hsb (hagree2.mono hbframe), ?_⟩, ?_, hr1⟩
    · exact seg_join_meets ⟨hne, hdstart, hdsize, hdrest⟩ hsa hnode hstart hroom hdle hle
        (by rw [hsize2, hsum]) (by rw [hnext2, hread]) hagree2
    · refine Agree.trans (hagree1.mono ?_) (hagree2.mono ?_)
      · exact fun x hx hxb => hx (Or.inl hxb)
      · exact fun x hx hxn => hx (Or.inr (hin hxn))
  · rw [if_neg hnext]
    obtain ⟨hnext2, hsize2, hagree2⟩ := node_stores' (show node.toNat + 8 ≤ 2 ^ 32 by omega)
      m1 nextnode size
    refine ⟨seg_append.mpr ⟨node, hb1.frame hsb (hagree2.mono hbframe), ?_⟩, ?_, hr1⟩
    · refine seg_join_apart hafter1 hsa hnode hstart hroom ha (fun d hd => ?_)
        (by rw [hsize2, hsize]) hnext2 hagree2
      obtain ⟨rest, rfl⟩ : ∃ rest, after = d :: rest := by
        cases after with
        | nil => cases hd
        | cons x rest => exact ⟨rest, by rw [Option.some.inj hd]⟩
      by_contra hle
      exact hnext (hmeets.mpr ⟨d, rest, rfl, not_lt.mp hle⟩)
    · refine Agree.trans (hagree1.mono ?_) (hagree2.mono ?_)
      · exact fun x hx hxb => hx (Or.inl hxb)
      · exact fun x hx hxn => hx (Or.inr (hin hxn))

/-- **The freed chunk is joined to the previous node.** -/
theorem growPrev_spec {nodes : UInt32} {p : Chunk} (hbefore : Seg m nodes (before ++ [p]) nextnode)
    (hafter : Seg m nextnode after 0) (hprev : prevnode.toNat = p.start)
    (hs : Spaced ((before ++ [p]) ++ after)) (hstart : node.toNat = c.start)
    (hsize : size.toNat = c.length) (hstop : c.stop < 2 ^ 32) (hmeets : p.stop = c.start)
    (ha : ∀ d ∈ after, c.stop ≤ d.start) :
    ∃ m', growPrev m node size prevnode nextnode = some m' ∧
      Seg m' nodes (before ++ join ⟨p.start, p.length + c.length⟩ after) 0 ∧
      Agree p.cellsᶜ m m' := by
  obtain ⟨x, hb, hx, hxstart, hpsize, hpnext⟩ := seg_append.mp hbefore
  obtain rfl : prevnode = x := UInt32.toNat.inj (hprev.trans hxstart.symm)
  have hpnext : nextOf m prevnode = nextnode := hpnext
  obtain ⟨hsbp, hsa, -⟩ := Spaced.append_iff.mp hs
  obtain ⟨hsb, hsp, hbp⟩ := Spaced.append_iff.mp hsbp
  obtain ⟨hproom, hpstop⟩ := hsp.room p (List.mem_singleton_self p)
  have hgrown : Chunk.stop ⟨p.start, p.length + c.length⟩ = c.stop := by
    rw [Chunk.stop_mk]
    simp only [Chunk.stop] at hmeets ⊢
    omega
  rw [Chunk.stop] at hstop hpstop hmeets
  have hend : (node + size).toNat = c.stop := by
    rw [add_toNat (by omega), hstart, hsize, Chunk.stop]
  have hpend : prevnode + sizeOf m prevnode = node := by
    apply UInt32.toNat.inj
    rw [add_toNat (by omega), hprev, hpsize, hstart, hmeets]
  have hin : Set.Ico prevnode.toNat (prevnode.toNat + 8) ⊆ p.cells := by
    rw [hprev]
    exact fun x hx => ⟨hx.1, lt_of_lt_of_le hx.2 (Nat.add_le_add_left hproom _)⟩
  have hbframe : cells before ⊆ (Set.Ico prevnode.toNat (prevnode.toNat + 8))ᶜ := fun x hx hx' =>
    Spaced.notMem_of_le (fun d hd => hbp d hd p (List.mem_singleton_self p)) (hin hx').1 hx
  have hmeetsNext := meets_iff hafter (node + size)
  rw [hend] at hmeetsNext
  have hafterle : ∀ d ∈ after, Chunk.stop ⟨p.start, p.length + c.length⟩ ≤ d.start := by
    rw [hgrown]
    exact ha
  rw [growPrev, if_neg (not_not.mpr hpend)]
  by_cases hnext : nextnode ≠ 0 ∧ nextnode ≤ node + size
  · rw [if_pos hnext]
    obtain ⟨d, rest, rfl, hle⟩ := hmeetsNext.mp hnext
    obtain ⟨hdroom, -, -⟩ := Spaced.cons_iff.mp hsa
    have hdle := ha d List.mem_cons_self
    have hdfacts := hafter
    obtain ⟨hne, hdstart, hdsize, hdrest⟩ := hdfacts
    have hequal : node + size = nextnode := by
      apply UInt32.toNat.inj
      rw [hend, hdstart]
      omega
    rw [if_neg (not_not.mpr hequal)]
    set total := sizeOf m prevnode + (size + sizeOf m nextnode) with htotal
    have hsum : total.toNat = p.length + c.length + d.length := by
      have hdstop := hdroom.2
      rw [Chunk.stop] at hdstop hle hdle
      have hinner : (size + sizeOf m nextnode).toNat = c.length + d.length := by
        rw [add_toNat (by rw [hsize, hdsize]; omega), hsize, hdsize]
      rw [htotal, add_toNat (by rw [hinner, hpsize]; omega), hinner, hpsize, Nat.add_assoc]
    have hread : nextOf (setSize m prevnode total) nextnode = nextOf m nextnode := by
      refine (setSize_stores (by omega) m total).2.2.load (by rw [Chunk.stop] at hdroom; omega) ?_
      intro x hx
      refine header_compl_of_le (Or.inr ?_)
      have := hx.1
      rw [Chunk.stop] at hdle
      omega
    obtain ⟨hnext2, hsize2, hagree2⟩ := node_stores'
      (show prevnode.toNat + 8 ≤ 2 ^ 32 by omega) m
      (nextOf (setSize m prevnode total) nextnode) total
    refine ⟨_, rfl, seg_append.mpr ⟨prevnode, hb.frame hsb (hagree2.mono hbframe), ?_⟩,
      hagree2.mono (Set.compl_subset_compl.mpr hin)⟩
    exact seg_join_meets hafter hsa hx hprev (by simp only; omega)
      (hafterle d List.mem_cons_self) (by rw [hgrown]; exact hle) (by rw [hsize2, hsum])
      (by rw [hnext2, hread]) hagree2
  · rw [if_neg hnext]
    obtain ⟨hnext2, hsize2, hagree2⟩ := setSize_stores
      (show prevnode.toNat + 8 ≤ 2 ^ 32 by omega) m (sizeOf m prevnode + size)
    have hsum : (sizeOf m prevnode + size).toNat = p.length + c.length := by
      rw [add_toNat (by omega), hpsize, hsize]
    refine ⟨_, rfl, seg_append.mpr ⟨prevnode, hb.frame hsb (hagree2.mono hbframe), ?_⟩,
      hagree2.mono (Set.compl_subset_compl.mpr hin)⟩
    refine seg_join_apart hafter hsa hx hprev (by simp only; omega) hafterle (fun d hd => ?_)
      (by rw [hsize2, hsum]) (by rw [hnext2, hpnext]) hagree2
    obtain ⟨rest, rfl⟩ : ∃ rest, after = d :: rest := by
      cases after with
      | nil => cases hd
      | cons x rest => exact ⟨rest, by rw [Option.some.inj hd]⟩
    rw [hgrown]
    by_contra hle
    exact hnext (hmeetsNext.mpr ⟨d, rest, rfl, not_lt.mp hle⟩)

/-! ## One region -/

/-- **One region in `lmm_free`**: the chunk is put into the list. No assertion fails. -/
theorem Region.Holds.insert (h : r.Holds m l) (hnode : node ≠ 0) (hstart : node.toNat = c.start)
    (hsize : size.toNat = c.length) (hpos : 0 < c.length) (start8 : 8 ∣ c.start)
    (length8 : 8 ∣ c.length) (hlo : r.min.toNat ≤ c.start) (hhi : c.stop ≤ r.max.toNat)
    (hfresh : Fresh c l) :
    ∃ m' r', r.insert m node size = some (m', r') ∧ r'.Holds m' (release c l) ∧
      Agree (cells l ∪ c.cells)ᶜ m m' ∧
      r' = { r with nodes := r'.nodes, free := r'.free } := by
  have hroom : 8 ≤ c.length := Nat.le_of_dvd hpos length8
  have hmax := r.max.toNat_lt
  have hsep := h.separated.release hpos hfresh
  have hwithin := h.within.release hpos h.separated hfresh hlo hhi
  have hgrained : Grained 8 (release c l) := h.grained.release start8 length8
  have htotal := hsep.total_le hwithin
  rw [total_release] at htotal
  have hhi' := hhi
  rw [Chunk.stop] at hhi'
  have hfree : (r.free + size).toNat = total (release c l) := by
    rw [total_release, add_toNat (by rw [h.free, hsize]; omega), h.free, hsize, Nat.add_comm]
  have hcount : ¬ r.max - r.min < r.free + size := by
    rw [UInt32.lt_iff_toNat_lt, sub_toNat_of_le (by omega), hfree, total_release]
    omega
  obtain ⟨prevnode, nextnode, before, after, hplace, hp, hafter⟩ :=
    place_spec (show Place m r.nodes l node 0 r.nodes [] l from ⟨rfl, rfl, h.seg,
      Or.inl ⟨rfl, rfl⟩, fun _ h => absurd h List.not_mem_nil⟩) h.length_lt_fuel
  have hsplit : l = before ++ after := hp.split
  have hspaced : Spaced (before ++ after) := hsplit ▸ h.spaced
  -- the chunks on both sides
  have hb := hp.stop_le hfresh hstart
  have hstarts := hp.start_le h.separated hstart hafter
  have ha := hp.le_start hfresh h.separated hstarts
  have hjoin : release c after = join c after :=
    release_eq_join fun d hd => hstarts d (List.mem_of_mem_head? hd)
  have hsubb : cells before ⊆ cells l := by
    rw [hsplit, cells_append]
    exact Set.subset_union_left
  rw [Region.insert]
  dsimp only
  rw [if_neg hcount, hplace, Option.bind_some]
  -- the assembly of the two ways
  have finish : ∀ {m1 : Image} {nodes : UInt32}, Seg m1 nodes (release c l) 0 →
      Region.Holds { r with nodes := nodes, free := r.free + size } m1 (release c l) :=
    fun hseg => ⟨hseg, hsep, hgrained, hwithin, hfree⟩
  by_cases hgrow : prevnode ≠ 0 ∧ node ≤ prevnode + sizeOf m prevnode
  · rw [if_pos hgrow]
    obtain ⟨hne, hle⟩ := hgrow
    obtain ⟨b, p, rfl, hpstart, hpsize⟩ := hp.previous hne
    have hpmem : p ∈ b ++ [p] := List.mem_append_right _ (List.mem_singleton_self p)
    have hpstop := (hspaced.room p (List.mem_append_left _ hpmem)).2
    have hmeets : p.stop = c.start :=
      le_antisymm (hb p hpmem) ((Place.meets_previous hpstop hpstart hpsize hstart).mp hle)
    obtain ⟨m1, hcode, hseg, hagree⟩ := growPrev_spec hp.first hp.second hpstart hspaced hstart
      hsize (by rw [Chunk.stop]; omega) hmeets ha
    have hlist : release c l = b ++ join ⟨p.start, p.length + c.length⟩ after := by
      have hbgap := hp.stop_lt h.separated hstart
      rw [hsplit, List.append_assoc, List.singleton_append, release_append hbgap, release,
        if_pos (hstart ▸ hp.lower p hpmem), if_pos hmeets.ge]
    refine ⟨m1, _, by rw [hcode, Option.map_some], finish (hlist ▸ hseg), hagree.mono ?_, rfl⟩
    refine Set.compl_subset_compl.mpr fun x hx => Or.inl (hsubb ?_)
    rw [cells_append, cells_cons]
    exact Or.inr (Or.inl hx)
  · rw [if_neg hgrow]
    obtain ⟨hseg, hagree, hr⟩ := Region.addNode_spec (r := { r with free := r.free + size })
      hp.first hp.second hp.last hspaced hnode hstart hsize hroom (by rw [Chunk.stop]; omega) hb ha
    have hlist : release c l = before ++ join c after := by
      have hbgap := hp.apart (Spaced.append_iff.mp hspaced).1 h.separated hstart hgrow
      rw [hsplit, release_append hbgap, hjoin]
    generalize Region.addNode { r with free := r.free + size } m node size prevnode nextnode = state
      at hseg hagree hr
    obtain ⟨m1, r1⟩ := state
    dsimp only at hseg hagree hr
    refine ⟨m1, r1, rfl, ?_, hagree.mono ?_, ?_⟩
    · rw [hr]
      exact finish (hlist ▸ hseg)
    · exact Set.compl_subset_compl.mpr (Set.union_subset_union_left _ hsubb)
    · rw [hr]

end Pebbles.Malloc
