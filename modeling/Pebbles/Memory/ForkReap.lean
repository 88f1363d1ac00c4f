import Pebbles.Memory.ForkStale

/-! # Reaping undoes a fork

`destroy_page_directory` (`kern/memory/vm_routines.c`) walks the two levels of the page tables of a
child once more and releases the frame of every entry that it finds. `TableEmptied` and
`SpaceEmptied` say what its two loops leave behind when no two entries name the same frame;
`reap_undoes_fork` puts them after `sys_fork`: the frame table is what it was before the fork. -/

namespace Pebbles.Memory

/-! ## The frames of an address space -/

/-- The frames that the entries of a page table name. -/
def tableFrames (words : Nat → Nat → Nat) (pt : Nat) (js : List Nat) : List Nat :=
  (js.filter fun j => words pt j ≠ 0).map fun j => frameNo (words pt j)

/-- The frames that the page tables of a page directory name. -/
def spaceFrames (words : Nat → Nat → Nat) (d : Nat) (is : List Nat) : List Nat :=
  (is.filter fun i => words d i ≠ 0).flatMap fun i =>
    tableFrames words (deflagAddr (words d i)) (List.range pageLen)

/-- The body of the loop of `destroy_page_table`. -/
def releaseEntry (pt : Nat) (m : PhysMem) (i : Nat) : Option PhysMem :=
  let pte := m.words pt i
  if pte = 0 then some m
  else (releaseFreeFrame m.frames (deflagAddr pte)).map fun frames =>
    (m.setFrames frames).write pt i 0

/-- The body of the loop of `destroy_page_directory`. -/
def releaseTable (pd : Nat) (m : PhysMem) (i : Nat) : Option PhysMem :=
  if m.words pd i = 0 then some m
  else (destroyPageTable m (deflagAddr (m.words pd i))).map fun m => m.write pd i 0

/-- `destroy_page_table` is its loop and the `sfree` after it. -/
theorem destroyPageTable_eq (m : PhysMem) (pt : Nat) : destroyPageTable m pt
    = ((List.range pageLen).foldlM (releaseEntry pt) m).map fun m => m.sfree pt := rfl

section
variable {words words' : Nat → Nat → Nat} {pt d i j : Nat} {is js : List Nat}

/-- An entry that is 0 names no frame. -/
theorem tableFrames_cons_of_zero (h : words pt j = 0) :
    tableFrames words pt (j :: js) = tableFrames words pt js := by
  rw [tableFrames, List.filter_cons_of_neg (by simpa using h)]
  rfl

/-- Any other entry names one. -/
theorem tableFrames_cons_of_ne (h : words pt j ≠ 0) :
    tableFrames words pt (j :: js) = frameNo (words pt j) :: tableFrames words pt js := by
  rw [tableFrames, List.filter_cons_of_pos (by simpa using h)]
  rfl

/-- The frames depend on the entries of the page table. -/
theorem tableFrames_congr (h : ∀ k ∈ js, words' pt k = words pt k) :
    tableFrames words' pt js = tableFrames words pt js := by
  have hfilter : (js.filter fun k => words' pt k ≠ 0) = js.filter fun k => words pt k ≠ 0 :=
    List.filter_congr fun k hk => by rw [h k hk]
  rw [tableFrames, tableFrames, hfilter]
  exact List.map_congr_left fun k hk => by rw [h k (List.mem_filter.mp hk).1]

/-- A page table that is not there has no frames. -/
theorem spaceFrames_cons_of_zero (h : words d i = 0) :
    spaceFrames words d (i :: is) = spaceFrames words d is := by
  rw [spaceFrames, List.filter_cons_of_neg (by simpa using h)]
  rfl

/-- The frames of the first page table come first. -/
theorem spaceFrames_cons_of_ne (h : words d i ≠ 0) : spaceFrames words d (i :: is)
    = tableFrames words (deflagAddr (words d i)) (List.range pageLen) ++ spaceFrames words d is := by
  rw [spaceFrames, List.filter_cons_of_pos (by simpa using h), List.flatMap_cons]
  rfl

/-- The frames depend on the entries of the page directory and of its page tables. -/
theorem spaceFrames_congr (hdir : ∀ k ∈ is, words' d k = words d k)
    (htable : ∀ k ∈ is, words d k ≠ 0 →
      words' (deflagAddr (words d k)) = words (deflagAddr (words d k))) :
    spaceFrames words' d is = spaceFrames words d is := by
  have hfilter : (is.filter fun k => words' d k ≠ 0) = is.filter fun k => words d k ≠ 0 :=
    List.filter_congr fun k hk => by rw [hdir k hk]
  rw [spaceFrames, spaceFrames, hfilter]
  refine List.flatMap_congr fun k hk => ?_
  obtain ⟨hmem, hne⟩ := List.mem_filter.mp hk
  rw [hdir k hmem]
  exact tableFrames_congr fun x _ => congrFun (htable k hmem (by simpa using hne)) x

end

/-! ## Emptying a page table -/

/-- The frames `fs` can be released: they are distinct and each has one user. -/
structure Releasable (t : FrameTable) (fs : List Nat) : Prop where
  /-- The table is in order. -/
  ordered : t.Ordered
  /-- No frame occurs twice. -/
  nodup : fs.Nodup
  /-- The frames are those of the machine. -/
  lt : ∀ f ∈ fs, f < totalPhysFrames
  /-- Each has one user. -/
  used : ∀ f ∈ fs, t.refcount f = 1

namespace Releasable

variable {t t' : FrameTable} {f : Nat} {fs gs : List Nat}

/-- The first frames. -/
theorem left (h : Releasable t (fs ++ gs)) : Releasable t fs :=
  ⟨h.ordered, (List.nodup_append.mp h.nodup).1, fun f hf => h.lt f (List.mem_append_left gs hf),
    fun f hf => h.used f (List.mem_append_left gs hf)⟩

/-- The other frames, after the first have been given back. -/
theorem right (h : Releasable t (fs ++ gs)) (hgives : GivesAll t fs t') : Releasable t' gs := by
  obtain ⟨-, hnodup, hne⟩ := List.nodup_append.mp h.nodup
  refine ⟨hgives.ordered, hnodup, fun g hg => h.lt g (List.mem_append_right fs hg), fun g hg => ?_⟩
  rw [hgives.refcount, if_neg fun hmem => hne g hmem g hg rfl]
  exact h.used g (List.mem_append_right fs hg)

/-- The first frame can be given back. -/
theorem first (h : Releasable t (f :: fs)) :
    ∃ t', releaseFreeFrame t (f * pageSize) = some t' ∧ GivesAll t [f] t' :=
  release_givesAll h.ordered (h.lt f List.mem_cons_self) (h.used f List.mem_cons_self)

end Releasable

/-- **The entries `js` of the page table `pt` have been cleared**, and the frames `fs` released. -/
structure TableEmptied (m m' : PhysMem) (pt : Nat) (js fs : List Nat) : Prop where
  /-- The frames. -/
  gives : GivesAll m.frames fs m'.frames
  /-- The blocks in use. -/
  heap : m'.heap = m.heap
  /-- The entries are 0. -/
  cleared : ∀ j ∈ js, m'.words pt j = 0
  /-- No other word is written. -/
  others : ∀ b k, ¬ (b = pt ∧ k ∈ js) → m'.words b k = m.words b k

section
variable {m m' m1 : PhysMem} {pt d i j : Nat} {is js fs gs : List Nat}

/-- The physical address of the frame that an entry names. -/
theorem deflagAddr_eq_frameNo (pte : Nat) : deflagAddr pte = frameNo pte * pageSize := by
  have hmod := deflagAddr_mod pte
  rw [frameNo, Nat.div_mul_cancel (Nat.dvd_of_mod_eq_zero hmod)]

/-- One entry, and then the others. -/
theorem TableEmptied.cons (h : TableEmptied m1 m' pt js fs)
    (hgives : GivesAll m.frames [frameNo (m.words pt j)] m1.frames) (hheap : m1.heap = m.heap)
    (hcleared : m1.words pt j = 0)
    (hothers : ∀ b k, ¬ (b = pt ∧ k = j) → m1.words b k = m.words b k) :
    TableEmptied m m' pt (j :: js) (frameNo (m.words pt j) :: fs) where
  gives := hgives.append h.gives
  heap := h.heap.trans hheap
  cleared k hk := by
    by_cases hmem : k ∈ js
    · exact h.cleared k hmem
    · obtain rfl := (List.mem_cons.mp hk).resolve_right hmem
      rw [h.others pt k fun e => hmem e.2]
      exact hcleared
  others b k hk := by
    rw [h.others b k fun e => hk ⟨e.1, List.mem_cons_of_mem j e.2⟩]
    refine hothers b k fun e => hk ⟨e.1, ?_⟩
    rw [e.2]
    exact List.mem_cons_self

/-- **The rule of the loop of `destroy_page_table`**: it comes to its end when its frames can be
released. -/
theorem tableEmptied_of_releasable (hjs : js.Nodup)
    (h : Releasable m.frames (tableFrames m.words pt js)) :
    ∃ m', js.foldlM (releaseEntry pt) m = some m' ∧
      TableEmptied m m' pt js (tableFrames m.words pt js) := by
  induction js generalizing m with
  | nil =>
      exact ⟨m, rfl, .nil h.ordered, rfl, fun _ hj => absurd hj List.not_mem_nil, fun _ _ _ => rfl⟩
  | cons j js ih =>
      obtain ⟨hj, hrest⟩ := List.nodup_cons.mp hjs
      by_cases hpte : m.words pt j = 0
      · rw [tableFrames_cons_of_zero hpte] at h ⊢
        obtain ⟨m', hloop, hempty⟩ := ih hrest h
        refine ⟨m', ?_, hempty.gives, hempty.heap, fun k hk => ?_,
          fun b k hk => hempty.others b k fun e => hk ⟨e.1, List.mem_cons_of_mem j e.2⟩⟩
        · rw [List.foldlM_cons, releaseEntry]
          simp only [if_pos hpte]
          exact hloop
        · by_cases hmem : k ∈ js
          · exact hempty.cleared k hmem
          · obtain rfl := (List.mem_cons.mp hk).resolve_right hmem
            rw [hempty.others pt k fun e => hmem e.2]
            exact hpte
      · rw [tableFrames_cons_of_ne hpte] at h ⊢
        obtain ⟨frames, hrel, hgives⟩ := h.first
        -- the other entries are not written by this round
        have hwords : ∀ b k, ¬ (b = pt ∧ k = j) →
            ((m.setFrames frames).write pt j 0).words b k = m.words b k := fun b k hk => by
          rw [PhysMem.write_words, if_neg hk]
          rfl
        have hsame : tableFrames ((m.setFrames frames).write pt j 0).words pt js
            = tableFrames m.words pt js :=
          tableFrames_congr fun k hk => hwords pt k fun e => hj (e.2 ▸ hk)
        have hleft : Releasable frames (tableFrames m.words pt js) :=
          Releasable.right (List.singleton_append ▸ h) hgives
        obtain ⟨m', hloop, hempty⟩ := ih (m := (m.setFrames frames).write pt j 0) hrest (by
          rw [hsame]
          exact hleft)
        rw [hsame] at hempty
        refine ⟨m', ?_, hempty.cons hgives rfl (by rw [PhysMem.write_words, if_pos ⟨rfl, rfl⟩])
          hwords⟩
        rw [List.foldlM_cons, releaseEntry]
        simp only [if_neg hpte, deflagAddr_eq_frameNo, hrel, Option.map_some]
        exact hloop

/-! ## Emptying a page directory -/

/-- The user page tables of the page directory `d`, and `d` itself, are different blocks. -/
structure Separate (words : Nat → Nat → Nat) (d : Nat) (is : List Nat) : Prop where
  /-- No page table is the page directory. -/
  ne : ∀ i ∈ is, words d i ≠ 0 → deflagAddr (words d i) ≠ d
  /-- No two entries share one. -/
  inj : ∀ i ∈ is, ∀ i' ∈ is, words d i ≠ 0 → words d i' ≠ 0 →
    deflagAddr (words d i) = deflagAddr (words d i') → i = i'

/-- **The entries `is` of the page directory `d` have been cleared**, their page tables freed, and
the frames `fs` released. -/
structure SpaceEmptied (m m' : PhysMem) (d : Nat) (is fs : List Nat) : Prop where
  /-- The frames. -/
  gives : GivesAll m.frames fs m'.frames
  /-- The entries are 0. -/
  cleared : ∀ i ∈ is, m'.words d i = 0
  /-- The other entries are not written. -/
  dir : ∀ k, k ∉ is → m'.words d k = m.words d k
  /-- Blocks other than the page directory and its page tables are not written. -/
  others : ∀ b, b ≠ d → (∀ i ∈ is, m.words d i ≠ 0 → deflagAddr (m.words d i) ≠ b) →
    m'.words b = m.words b
  /-- Nor are they freed. -/
  heap : ∀ b, (∀ i ∈ is, m.words d i ≠ 0 → deflagAddr (m.words d i) ≠ b) →
    (b ∈ m'.heap ↔ b ∈ m.heap)

/-- The page tables of a page directory, without the first. -/
theorem Separate.tail {words : Nat → Nat → Nat} (h : Separate words d (i :: is)) :
    Separate words d is :=
  ⟨fun k hk => h.ne k (List.mem_cons_of_mem i hk),
    fun k hk k' hk' => h.inj k (List.mem_cons_of_mem i hk) k' (List.mem_cons_of_mem i hk')⟩

/-- **One round of the loop of `destroy_page_directory`.** -/
theorem releaseTable_emptied (hsep : Separate m.words d (i :: is))
    (hpde : m.words d i ≠ 0) (h : Releasable m.frames (spaceFrames m.words d (i :: is))) :
    ∃ m1, releaseTable d m i = some m1 ∧
      GivesAll m.frames (tableFrames m.words (deflagAddr (m.words d i)) (List.range pageLen))
        m1.frames ∧
      (∀ k, m1.words d k = if k = i then 0 else m.words d k) ∧
      (∀ b, b ≠ d → b ≠ deflagAddr (m.words d i) → m1.words b = m.words b) ∧
      m1.heap = m.heap.erase (deflagAddr (m.words d i)) := by
  have ht : deflagAddr (m.words d i) ≠ d := hsep.ne i List.mem_cons_self hpde
  rw [spaceFrames_cons_of_ne hpde] at h
  obtain ⟨m0, hloop, hempty⟩ := tableEmptied_of_releasable List.nodup_range h.left
  refine ⟨(m0.sfree (deflagAddr (m.words d i))).write d i 0, ?_, hempty.gives, fun k => ?_,
    fun b hb hbt => funext fun k => ?_, ?_⟩
  · rw [releaseTable, if_neg hpde, destroyPageTable_eq, hloop]
    rfl
  · rw [PhysMem.write_words]
    by_cases hk : k = i
    · rw [if_pos ⟨rfl, hk⟩, if_pos hk]
    · rw [if_neg fun e => hk e.2, if_neg hk]
      exact hempty.others d k fun e => ht e.1.symm
  · rw [PhysMem.write_words, if_neg fun e => hb e.1]
    exact hempty.others b k fun e => hbt e.1
  · exact congrArg (Finset.erase · _) hempty.heap

/-- **The rule of the loop of `destroy_page_directory`**: it comes to its end when the frames can be
released. -/
theorem spaceEmptied_of_releasable (his : is.Nodup) (hsep : Separate m.words d is)
    (h : Releasable m.frames (spaceFrames m.words d is)) :
    ∃ m', is.foldlM (releaseTable d) m = some m' ∧
      SpaceEmptied m m' d is (spaceFrames m.words d is) := by
  induction is generalizing m with
  | nil =>
      exact ⟨m, rfl, .nil h.ordered, fun _ hi => absurd hi List.not_mem_nil, fun _ _ => rfl,
        fun _ _ _ => rfl, fun _ _ => Iff.rfl⟩
  | cons i is ih =>
      obtain ⟨hi, hrest⟩ := List.nodup_cons.mp his
      by_cases hpde : m.words d i = 0
      · rw [spaceFrames_cons_of_zero hpde] at h ⊢
        obtain ⟨m', hloop, hempty⟩ := ih hrest hsep.tail h
        refine ⟨m', ?_, hempty.gives, fun k hk => ?_,
          fun k hk => hempty.dir k fun e => hk (List.mem_cons_of_mem i e),
          fun b hb hbt => hempty.others b hb fun k hk => hbt k (List.mem_cons_of_mem i hk),
          fun b hbt => hempty.heap b fun k hk => hbt k (List.mem_cons_of_mem i hk)⟩
        · rw [List.foldlM_cons, releaseTable, if_pos hpde]
          exact hloop
        · by_cases hmem : k ∈ is
          · exact hempty.cleared k hmem
          · obtain rfl := (List.mem_cons.mp hk).resolve_right hmem
            rw [hempty.dir k hmem]
            exact hpde
      · obtain ⟨m1, hround, hgives, hdir, hothers, hheap⟩ := releaseTable_emptied hsep hpde h
        rw [spaceFrames_cons_of_ne hpde] at h ⊢
        -- what the other rounds read has stayed
        have hdir' : ∀ k ∈ is, m1.words d k = m.words d k := fun k hk => by
          rw [hdir, if_neg]
          rintro rfl
          exact hi hk
        have hne : ∀ k ∈ is, m.words d k ≠ 0 →
            deflagAddr (m.words d k) ≠ deflagAddr (m.words d i) := fun k hk hpde' e =>
          hi (hsep.inj k (List.mem_cons_of_mem i hk) i List.mem_cons_self hpde' hpde e ▸ hk)
        have hsame : spaceFrames m1.words d is = spaceFrames m.words d is :=
          spaceFrames_congr hdir' fun k hk hpde' =>
            hothers _ (hsep.ne k (List.mem_cons_of_mem i hk) hpde') (hne k hk hpde')
        have hsep' : Separate m1.words d is := by
          refine ⟨fun k hk => ?_, fun k hk k' hk' => ?_⟩
          · rw [hdir' k hk]
            exact hsep.ne k (List.mem_cons_of_mem i hk)
          · rw [hdir' k hk, hdir' k' hk']
            exact hsep.inj k (List.mem_cons_of_mem i hk) k' (List.mem_cons_of_mem i hk')
        obtain ⟨m', hloop, hempty⟩ := ih hrest hsep' (by
          rw [hsame]
          exact h.right hgives)
        rw [hsame] at hempty
        refine ⟨m', ?_, hgives.append hempty.gives, fun k hk => ?_, fun k hk => ?_,
          fun b hb hbt => ?_, fun b hbt => ?_⟩
        · rw [List.foldlM_cons, hround]
          exact hloop
        · by_cases hmem : k ∈ is
          · exact hempty.cleared k hmem
          · obtain rfl := (List.mem_cons.mp hk).resolve_right hmem
            rw [hempty.dir k hmem, hdir, if_pos rfl]
        · obtain ⟨hki, hkis⟩ := not_or.mp (List.mem_cons.not.mp hk)
          rw [hempty.dir k hkis, hdir, if_neg hki]
        · rw [hempty.others b hb, hothers b hb (hbt i List.mem_cons_self hpde).symm]
          intro k hk
          rw [hdir' k hk]
          exact hbt k (List.mem_cons_of_mem i hk)
        · rw [hempty.heap b, hheap, Finset.mem_erase,
            and_iff_right (hbt i List.mem_cons_self hpde).symm]
          intro k hk
          rw [hdir' k hk]
          exact hbt k (List.mem_cons_of_mem i hk)

end

/-! ## The child of a fork -/

section
variable {s s' : PagedMem} {d : Nat} {a0 : Answer} {as : List Answer} {fs : List Nat} {i : Nat}

/-- The entry `i` of the child's page directory, when the blocks were zero-filled. -/
theorem Forked.child_entry (h : Forked s s' d a0 as fs) (hzero : ZeroFilled (a0 :: as))
    (hi : i ∈ userTables) :
    s'.memory.words a0.address i ≠ 0 ↔ deflagAddr (s.memory.words d i) ≠ 0 := by
  by_cases hpde : deflagAddr (s.memory.words d i) = 0
  · have hword : s'.memory.words a0.address i = 0 := by
      rw [h.stale i hi hpde]
      exact hzero a0 List.mem_cons_self i
    exact iff_of_false (not_not_intro hword) (not_not_intro hpde)
  · obtain ⟨n, hn, rfl⟩ := List.mem_iff_getElem.mp (mem_presentTables.mpr ⟨hi, hpde⟩)
    have hgiven := h.tables.get hn (h.tables.length_eq ▸ hn)
    refine iff_of_true ?_ hpde
    rw [List.get_eq_getElem] at hgiven
    rw [hgiven.entry]
    exact (addFlag_block hgiven.block (getFlag_lt _)).1

/-- The page table `i` of the child is the block of an answer; which one, is said by the place of
`i` among the page tables of the parent. -/
theorem Forked.child_table (h : Forked s s' d a0 as fs) (hzero : ZeroFilled (a0 :: as))
    (hi : i ∈ userTables) (hpde : s'.memory.words a0.address i ≠ 0) :
    ∃ n, ∃ hn : n < (presentTables s.memory.words d userTables).length, ∃ hn' : n < as.length,
      (presentTables s.memory.words d userTables)[n] = i ∧
        deflagAddr (s'.memory.words a0.address i) = as[n].address ∧
        TableGiven s.memory s'.memory d a0.address i as[n] := by
  obtain ⟨n, hn, rfl⟩ := List.mem_iff_getElem.mp
    (mem_presentTables.mpr ⟨hi, (h.child_entry hzero hi).mp hpde⟩)
  have hn' : n < as.length := h.tables.length_eq ▸ hn
  have hgiven := h.tables.get hn hn'
  rw [List.get_eq_getElem, List.get_eq_getElem] at hgiven
  refine ⟨n, hn, hn', rfl, ?_, hgiven⟩
  rw [hgiven.entry]
  exact (addFlag_block hgiven.block (getFlag_lt _)).2

/-- The page tables of the child and its page directory are different blocks. -/
theorem Forked.separate_child (h : Forked s s' d a0 as fs) (hzero : ZeroFilled (a0 :: as)) :
    Separate s'.memory.words a0.address userTables where
  ne i hi hpde := by
    obtain ⟨n, -, hn, -, hblock, -⟩ := h.child_table hzero hi hpde
    rw [hblock]
    exact fun e => (List.nodup_cons.mp h.nodup).1 (e ▸ List.mem_map_of_mem (List.getElem_mem hn))
  inj i hi i' hi' hpde hpde' heq := by
    obtain ⟨n, _, hn, rfl, hblock, -⟩ := h.child_table hzero hi hpde
    obtain ⟨n', _, hn', rfl, hblock', -⟩ := h.child_table hzero hi' hpde'
    have hnodup : (as.map Answer.address).Nodup := (List.nodup_cons.mp h.nodup).2
    have hsame : as[n] = as[n'] := List.inj_on_of_nodup_map hnodup (List.getElem_mem hn)
      (List.getElem_mem hn') (by rw [← hblock, ← hblock', heq])
    obtain rfl := (List.Nodup.getElem_inj_iff hnodup.of_map).mp hsame
    rfl

/-- An entry of the child, when the blocks were zero-filled, is there when the parent's is. -/
theorem Forked.child_page (h : Forked s s' d a0 as fs) (hd : Directory s.memory d)
    (hzero : ZeroFilled (a0 :: as)) (hi : i ∈ presentTables s.memory.words d userTables) {j : Nat}
    (hj : j < pageLen) : s'.memory.words (deflagAddr (s'.memory.words a0.address i)) j ≠ 0
      ↔ deflagAddr (s.memory.words (deflagAddr (s.memory.words d i)) j) ≠ 0 := by
  obtain ⟨hmem, hpde⟩ := mem_presentTables.mp hi
  have hne := (h.child_entry hzero hmem).mpr hpde
  have hparent : s.memory.words d i ≠ 0 := fun e => hpde (by rw [e, deflagAddr_zero])
  by_cases hpte : deflagAddr (s.memory.words (deflagAddr (s.memory.words d i)) j) = 0
  · obtain ⟨n, -, hn, -, hblock, hgiven⟩ := h.child_table hzero hmem hne
    refine iff_of_false (not_not_intro ?_) (not_not_intro hpte)
    rw [hblock, hgiven.stale j hj hpte]
    exact hzero _ (List.mem_cons_of_mem a0 (List.getElem_mem hn)) j
  · have hp : (i, j) ∈ presentPages s.memory.words d userTables :=
      mem_presentPages.mpr ⟨hmem, hpde, hj, hpte⟩
    have hentry := h.entries (i, j) hp
    have hframe : frameNo (entryOf s'.memory.words a0.address (i, j)) ∈ fs := by
      rw [← h.frames]
      exact List.mem_map_of_mem hp
    rw [entryOf_of_table hne] at hentry hframe
    refine iff_of_true (fun e => ?_) hpte
    -- frame 0 is in use, so it is not one that was taken
    have hused := (mem_freeSet.mp (h.takes.free _ hframe)).2
    rw [e, frameNo, deflagAddr_zero, Nat.zero_div, hd.first_frame] at hused
    exact one_ne_zero hused

/-- **The frames of the child** are those that the fork has taken. -/
theorem Forked.child_frames (h : Forked s s' d a0 as fs) (hd : Directory s.memory d)
    (hzero : ZeroFilled (a0 :: as)) : spaceFrames s'.memory.words a0.address userTables = fs := by
  have htables : (userTables.filter fun i => s'.memory.words a0.address i ≠ 0)
      = presentTables s.memory.words d userTables :=
    List.filter_congr fun i hi => decide_eq_decide.mpr (h.child_entry hzero hi)
  rw [← h.frames, spaceFrames, htables, presentPages, List.map_flatMap]
  refine List.flatMap_congr fun i hi => ?_
  obtain ⟨hmem, hpde⟩ := mem_presentTables.mp hi
  have hpages : ((List.range pageLen).filter fun j =>
        s'.memory.words (deflagAddr (s'.memory.words a0.address i)) j ≠ 0)
      = presentEntries s.memory.words (deflagAddr (s.memory.words d i)) (List.range pageLen) :=
    List.filter_congr fun j hj =>
      decide_eq_decide.mpr (h.child_page hd hzero hi (List.mem_range.mp hj))
  rw [tableFrames, hpages, List.map_map]
  refine List.map_congr_left fun j _ => ?_
  rw [Function.comp_apply, entryOf_of_table ((h.child_entry hzero hmem).mpr hpde)]

/-- The frames that were taken can be released. -/
theorem TakesAll.releasable {t t' : FrameTable} (h : TakesAll t fs t') : Releasable t' fs where
  ordered := h.ordered
  nodup := h.nodup
  lt f hf := (mem_freeSet.mp (h.free f hf)).1
  used f hf := by
    rw [h.refcount, if_pos hf]

/-- Releasing the frames that were taken leaves the frame table as it was. -/
theorem TakesAll.undone {t t1 t' : FrameTable} (h : TakesAll t fs t1) (hgives : GivesAll t1 fs t') :
    (∀ f, t'.refcount f = t.refcount f) ∧ t'.freeFrameNum = t.freeFrameNum := by
  refine ⟨fun f => ?_, ?_⟩
  · rw [hgives.refcount, h.refcount]
    split_ifs with hf
    · exact (mem_freeSet.mp (h.free f hf)).2.symm
    · rfl
  · rw [hgives.freeFrameNum, h.freeFrameNum]
    omega

/-- **What reaping the child has undone**: `m0` is the memory before the fork, `m1` the one after
it, and `m2` the one when the page directory `b` of the child has been destroyed; `d` is the page
directory of the parent. -/
structure Reaped (m0 m1 m2 : PhysMem) (d b : Nat) : Prop where
  /-- The counts. -/
  refcount : ∀ f, m2.frames.refcount f = m0.frames.refcount f
  /-- The counter. -/
  freeFrameNum : m2.frames.freeFrameNum = m0.frames.freeFrameNum
  /-- Each frame of the child has been released once. -/
  released : (spaceFrames m1.words b userTables).Nodup ∧
    releaseAll (spaceFrames m1.words b userTables) m1.frames = some m2.frames
  /-- The kernel entries of the child. -/
  kernel : ∀ i < 4, m2.words b i = m1.words b i
  /-- The page tables of the parent. -/
  parent : SameSpace m1.words m2.words d
  /-- They are as before the fork. -/
  before : SameSpace m0.words m2.words d

/-- Destroying the page directory of the child. -/
theorem Forked.reaped (h : Forked s s' d a0 as fs) (hd : Directory s.memory d)
    (hzero : ZeroFilled (a0 :: as)) :
    ∃ m, destroyPageDirectory s'.memory a0.address = some m ∧
      Reaped s.memory s'.memory m d a0.address := by
  have hframes := h.child_frames hd hzero
  have hnodup : userTables.Nodup := List.nodup_range'
  obtain ⟨m, hloop, hempty⟩ := spaceEmptied_of_releasable hnodup
    (h.separate_child hzero) (by rw [hframes]; exact h.takes.releasable)
  have hundone := h.takes.undone (hframes ▸ hempty.gives)
  -- a block that was in use before the fork is none of the child's
  have hkeeps : ∀ x ∈ s.memory.heap, m.words x = s'.memory.words x := by
    refine fun x hx => hempty.others x (fun e => h.fresh (e ▸ hx)) fun i hi hpde e => ?_
    obtain ⟨n, -, hn, -, hblock, hgiven⟩ := h.child_table hzero hi hpde
    exact hgiven.fresh (hblock ▸ e ▸ hx)
  have hbefore : ∀ x ∈ s.memory.heap, m.words x = s.memory.words x := fun x hx => by
    rw [hkeeps x hx]
    refine h.others x fun hmem => ?_
    rcases List.mem_cons.mp hmem with rfl | hmem
    · exact h.fresh hx
    · obtain ⟨n, hn, heq⟩ := List.mem_iff_getElem.mp hmem
      rw [List.getElem_map] at heq
      have hgiven := h.tables.get (i := n) (by rw [h.tables.length_eq]; simpa using hn)
        (by simpa using hn)
      exact hgiven.fresh (by rw [List.get_eq_getElem, heq]; exact hx)
  refine ⟨m, hloop, hundone.1, hundone.2, ⟨?_, hempty.gives.released⟩, fun i hi => ?_,
    ⟨fun k => ?_, fun x hx hpde k => ?_⟩, hd.sameSpace fun x hx _ => hbefore x hx⟩
  · rw [hframes]
    exact h.takes.nodup
  · refine hempty.dir i fun hmem => ?_
    have hlow := (mem_userTables.mp hmem).1
    omega
  · rw [hkeeps d hd.mem]
  · rw [h.same.dir] at hpde ⊢
    rw [hkeeps _ (hd.table_mem x hx hpde)]

end

/-- **Reaping undoes a fork.** For every page directory of the parent and every frame table, when
`sys_fork` makes a child and the blocks for its page directory and page tables are zero-filled,
`destroy_page_directory` comes to its end on the page directory of the child, and leaves the counts
of all frames and `free_frame_num` as they were before the fork; the kernel entries of the child
and all page tables of the parent stay, and each frame of the child is released once. -/
theorem reap_undoes_fork {s s' : Vm} {a : AddressSpace} {r : Int} (hd : Directory s.memory a.pd)
    (hcr3 : s.memory.cr3 = a.pd) (ha : s.currentSpace = some a)
    (hzero : ZeroFilled s.memory.answers) (call : s.sysFork = some (s', r)) (hr : r ≠ -1) :
    ∃ b m, s'.spaces s.nextPid = some b ∧ destroyPageDirectory s'.memory b.pd = some m ∧
      Reaped s.memory s'.memory m a.pd b.pd := by
  obtain ⟨t, a0, as, fs, hmem, -, hspace, hforked⟩ :=
    Vm.forked_of_sysFork hd hcr3 ha call hr fun _ _ => 0
  have hused : s.memory.answers = a0 :: as ++ t.memory.answers := hforked.answers
  obtain ⟨m, hdestroy, hreaped⟩ := hforked.reaped hd fun x hx =>
    hzero x (hused ▸ List.mem_append_left _ hx)
  refine ⟨_, m, hspace, ?_, ?_⟩
  · rw [hmem]
    exact hdestroy
  · rw [hmem]
    exact hreaped

/-- `reap_undoes_fork` for the first child of `init`. -/
theorem reap_undoes_fork_booted :
    ∃ s' b m, (bootedVm (childBlocks 0)).sysFork = some (s', 3) ∧ s'.spaces 3 = some b ∧
      destroyPageDirectory s'.memory b.pd = some m ∧
      Reaped (bootedMemory (childBlocks 0)) s'.memory m (263 * pageSize) b.pd := by
  have hchild : ((bootedVm (childBlocks 0)).sysFork).map Prod.snd = some 3 := by decide +kernel
  obtain ⟨⟨s', r⟩, hfork, rfl⟩ := Option.map_eq_some_iff.mp hchild
  have hzero : ZeroFilled (bootedVm (childBlocks 0)).memory.answers := by
    intro x hx k
    rcases List.mem_cons.mp hx with rfl | hx
    · exact ite_self 0
    · rw [List.mem_singleton.mp hx]
  obtain ⟨b, m, hb, hdestroy, hreaped⟩ :=
    reap_undoes_fork (directory_bootedMemory _) rfl rfl hzero hfork (by decide)
  exact ⟨s', b, m, hfork, hb, hdestroy, hreaped⟩

end Pebbles.Memory
