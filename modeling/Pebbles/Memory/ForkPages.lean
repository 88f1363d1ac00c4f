import Mathlib.Data.List.Forall2
import Pebbles.Memory.RegionRemoval

/-! # The pages of a forked process

The copying loops of `sys_fork` (`kern/process/sys_fork.c`) over memory with contents, whatever the
blocks that `memalign` hands out contain. Each page of the parent is copied through one borrowed
entry of the parent's own page tables: the new frame is mapped there, cleared, filled by a `memcpy`
between two virtual addresses, moved to the child, and the entry is free again. `TableCopied` and
`SpaceCopied` say what the loops leave behind, for the page tables and for the frames. -/

namespace Pebbles.Memory

/-! ## Copying with contents -/

/-- The number of the frame that a page-table entry names. -/
def frameNo (pte : Nat) : Nat := deflagAddr pte / pageSize

namespace PagedMem

/-- `memcpy((void * )dst, (void * )src, 4096)`, between two pages. -/
def copyPage (s : PagedMem) (src dst : Nat × Nat) : Option PagedMem :=
  (s.memory.translate dst).bind fun f => (s.memory.translate src).map fun g =>
    { s with bytes := Function.update s.bytes f (s.bytes g) }

/-- The inner loop of `sys_fork`, for the page-directory entry `i`. -/
def copyEntries (parentDirectory : Nat) (entry : EntryInfo) (i ptAddr childDe : Nat) :
    List Nat → PagedMem → Option (Bool × PagedMem)
  | [], s => some (true, s)
  | j :: js, s =>
      let physAddrRaw := s.memory.words ptAddr j
      if deflagAddr physAddrRaw = 0 then copyEntries parentDirectory entry i ptAddr childDe js s
      else
        (s.virtualMapPhysical parentDirectory entry.pdIndex entry.ptIndex).bind fun (result, s) =>
          if result = -1 then some (false, s)
          else
            let foundTable := deflagAddr (s.memory.words parentDirectory entry.pdIndex)
            let newPhysAddr := s.memory.words foundTable entry.ptIndex
            (s.copyPage (i, j) (entry.pdIndex, entry.ptIndex)).bind fun s =>
              let m := s.memory.write childDe j
                (addFlag (deflagAddr newPhysAddr) (getFlag physAddrRaw))
              let m := m.write foundTable entry.ptIndex 0
              copyEntries parentDirectory entry i ptAddr childDe js
                ⟨m.setCr3 parentDirectory, s.bytes⟩

/-- The outer loop of `sys_fork`. -/
def copyTables (parentDirectory : Nat) (entry : EntryInfo) (childDirectory : Nat) :
    List Nat → PagedMem → Option (Bool × PagedMem)
  | [], s => some (true, s)
  | i :: is, s =>
      let parentDeRaw := s.memory.words parentDirectory i
      let ptAddr := deflagAddr parentDeRaw
      if ptAddr = 0 then copyTables parentDirectory entry childDirectory is s
      else
        s.memory.memalign.bind fun (childDe, m) =>
          if childDe = 0 then some (false, ⟨m, s.bytes⟩)
          else
            let m := m.write childDirectory i (addFlag childDe (getFlag parentDeRaw))
            (copyEntries parentDirectory entry i ptAddr childDe (List.range pageLen)
              ⟨m, s.bytes⟩).bind fun (done, s) =>
                if done then copyTables parentDirectory entry childDirectory is s
                else some (false, s)

/-- The copy of an address space into the new page directory `childDirectory`. -/
def copySpace (parentDirectory : Nat) (entry : EntryInfo) (childDirectory : Nat) (s : PagedMem) :
    Option (Bool × PagedMem) :=
  copyTables parentDirectory entry childDirectory (List.range' 4 1020)
    ⟨(List.range 4).foldl (fun m i => m.write childDirectory i (m.words parentDirectory i))
      s.memory, s.bytes⟩

end PagedMem

/-! ## One page table -/

/-- The entries of a page table that the copy does not skip. -/
def presentEntries (words : Nat → Nat → Nat) (pt : Nat) (js : List Nat) : List Nat :=
  js.filter fun j => deflagAddr (words pt j) ≠ 0

/-- **The page table `pt` has been copied** to the block `c`, to the frames `fs`. -/
structure TableCopied (s s' : PagedMem) (pt c : Nat) (js fs : List Nat) : Prop where
  /-- The frames. -/
  takes : TakesAll s.memory.frames fs s'.memory.frames
  /-- The blocks in use. -/
  heap : s'.memory.heap = s.memory.heap
  /-- The answers. -/
  answers : s'.memory.answers = s.memory.answers
  /-- The page directory in use. -/
  cr3 : s'.memory.cr3 = s.memory.cr3
  /-- Each entry names the next frame. -/
  frames : (presentEntries s.memory.words pt js).map (fun j => frameNo (s'.memory.words c j)) = fs
  /-- It has the flags of the parent's. -/
  entries : ∀ j ∈ presentEntries s.memory.words pt js, s'.memory.words c j
    = addFlag (frameNo (s'.memory.words c j) * pageSize) (getFlag (s.memory.words pt j))
  /-- No other word is written. -/
  others : ∀ b k, ¬ (b = c ∧ k ∈ presentEntries s.memory.words pt js) →
    s'.memory.words b k = s.memory.words b k
  /-- The new frames contain what those of the parent do, when these are in use. -/
  bytes : ∀ j ∈ presentEntries s.memory.words pt js,
    frameNo (s.memory.words pt j) ∉ s.memory.frames.freeSet →
      s'.bytes (frameNo (s'.memory.words c j)) = s.bytes (frameNo (s.memory.words pt j))
  /-- No other frame is written. -/
  other_bytes : ∀ f, f ∉ fs → s'.bytes f = s.bytes f

section
variable {s s' s1 : PagedMem} {m m' : PhysMem} {d b c i j f : Nat} {js fs : List Nat}
  {entry : EntryInfo} {p q : Nat × Nat} {frames : FrameTable}

/-- A page directory whose words and blocks stay is one still. -/
theorem Directory.congr (h : Directory m d) (hwords : m'.words d = m.words d)
    (hheap : m.heap ⊆ m'.heap) (hnull : 0 ∉ m'.heap) (hordered : m'.frames.Ordered)
    (hfirst : m'.frames.refcount 0 = 1) : Directory m' d where
  ordered := hordered
  first_frame := hfirst
  null := hnull
  mem := hheap h.mem
  table_mem i hi hpde := by
    rw [hwords] at hpde ⊢
    exact hheap (h.table_mem i hi hpde)
  table_ne := by
    rw [hwords]
    exact h.table_ne
  table_inj := by
    rw [hwords]
    exact h.table_inj

/-- The frame that an entry with flags names. -/
theorem frameNo_addFlag {flag : Nat} (hf : f < totalPhysFrames) (hflag : flag < pageSize) :
    frameNo (addFlag (f * pageSize) flag) = f := by
  have hlt : f * pageSize < 2 ^ 32 := by
    rw [totalPhysFrames] at hf
    rw [pageSize]
    omega
  rw [frameNo, deflagAddr_addFlag (Nat.mul_mod_left f pageSize) hlt hflag]
  exact Nat.mul_div_cancel f (by decide)

/-- The MMU finds the frame that an entry names. -/
theorem frameOf_eq_frameNo {pte : Nat} (hpte : pte ≠ 0) : frameOf pte = some (frameNo pte) :=
  if_neg hpte

/-- The page table of an entry is not `NULL`. -/
theorem Directory.table_ne_zero (h : Directory m d) (hi : i < pageLen) (hpde : m.words d i ≠ 0) :
    deflagAddr (m.words d i) ≠ 0 := fun e => h.null (e ▸ h.table_mem i hi hpde)

/-- The memory while the new frame is mapped at the borrowed entry: the words, and the frames that
the MMU finds for the borrowed page and for the page that is copied. -/
theorem Directory.borrowed (h : Directory m d) (frames : FrameTable) (hcr3 : m.cr3 = d)
    {t pt k : Nat} (htable : m.words d p.1 ≠ 0) (ht : deflagAddr (m.words d p.1) = t)
    (hp : p.1 < pageLen) (hfree : m.words t p.2 = 0) (hpde : m.words d i ≠ 0)
    (hpt : deflagAddr (m.words d i) = pt) (hpte : m.words pt k ≠ 0) (hf : f < totalPhysFrames) :
    (∀ x, ((m.setFrames frames).write t p.2 (frameEntry f)).words d x = m.words d x) ∧
      ((m.setFrames frames).write t p.2 (frameEntry f)).translate p = some f ∧
      ((m.setFrames frames).write t p.2 (frameEntry f)).translate (i, k)
        = some (frameNo (m.words pt k)) := by
  have hdt : d ≠ t := fun e => h.table_ne p.1 hp htable (ht.trans e.symm)
  have hdir : ∀ x, ((m.setFrames frames).write t p.2 (frameEntry f)).words d x = m.words d x := by
    intro x
    rw [PhysMem.write_words, if_neg fun e => hdt e.1]
    rfl
  have hcr3' : ((m.setFrames frames).write t p.2 (frameEntry f)).cr3 = d := hcr3
  refine ⟨hdir, ?_, ?_⟩
  · rw [PhysMem.translate, hcr3', entryOf_of_table (by rw [hdir]; exact htable), hdir, ht,
      PhysMem.write_words, if_pos ⟨rfl, rfl⟩]
    exact frameOf_frameEntry hf
  · have hother : ¬ (pt = t ∧ k = p.2) := by
      rintro ⟨rfl, rfl⟩
      exact hpte hfree
    rw [PhysMem.translate, hcr3', entryOf_of_table (by rw [hdir]; exact hpde), hdir, hpt,
      PhysMem.write_words, if_neg hother]
    exact frameOf_eq_frameNo hpte

/-- **The borrowed entry is free**: its page table is there, and its word is 0. -/
structure SlotFree (m : PhysMem) (d : Nat) (entry : EntryInfo) : Prop where
  /-- The index is one of the page directory. -/
  index : entry.pdIndex < pageLen
  /-- The page table. -/
  table : m.words d entry.pdIndex ≠ 0
  /-- The word. -/
  free : m.words (deflagAddr (m.words d entry.pdIndex)) entry.ptIndex = 0

/-- **What `virtual_map_physical` does at the borrowed entry**: it fails, for there is a word, or
the entry was free and gets a frame. -/
theorem Directory.slot_of_call (h : Directory m d) (hslot : m.words d entry.pdIndex ≠ 0) {r : Int}
    (call : virtualMapPhysical m d entry.pdIndex entry.ptIndex = some (r, m')) :
    r = -1 ∨ SlotFree m d entry ∧ ∃ f frames, Takes m.frames f frames := by
  obtain ⟨hpd, heffect⟩ := mapEffect_of_call (p := (entry.pdIndex, entry.ptIndex)) h.ordered
    (h.ordered.freeFrame_ne h.first_frame) call
  cases heffect with
  | taken => exact Or.inl rfl
  | fresh hnone => exact absurd hnone hslot
  | table htable hfree htakes => exact Or.inr ⟨⟨hpd, htable, hfree⟩, _, _, htakes⟩

/-- **What `virtual_map_physical` does at a free entry**. -/
theorem SlotFree.mapped (hs : SlotFree m d entry) (h : Directory m d)
    (htakes : Takes m.frames f frames) :
    virtualMapPhysical m d entry.pdIndex entry.ptIndex
      = some (0, (m.setFrames frames).write (deflagAddr (m.words d entry.pdIndex)) entry.ptIndex
        (frameEntry f)) := by
  have hne : f * pageSize ≠ 0 := address_ne_zero htakes (h.ordered.freeFrame_ne h.first_frame)
  simp only [virtualMapPhysical, hs.index, hs.table, hs.free, htakes.acquired, hne, if_true,
    if_false, ne_eq, not_false_eq_true, Option.map_some, frameEntry]

/-- **One page**, without contents: the entry of the child is all that stays of the round. -/
theorem SlotFree.copied (hs : SlotFree m d entry) (h : Directory m d) (hcr3 : m.cr3 = d)
    (hc : Elsewhere m d c) (htakes : Takes m.frames f frames) {pt raw : Nat}
    (hraw : m.words pt j = raw) (hpte : deflagAddr raw ≠ 0) :
    Memory.copyEntries d entry pt c (j :: js) m = Memory.copyEntries d entry pt c js
      ((m.setFrames frames).write c j (addFlag (f * pageSize) (getFlag raw))) := by
  have hct : c ≠ deflagAddr (m.words d entry.pdIndex) :=
    (hc.2.2 entry.pdIndex hs.index hs.table).symm
  have hdt : d ≠ deflagAddr (m.words d entry.pdIndex) := fun e =>
    h.table_ne entry.pdIndex hs.index hs.table e.symm
  have hdir : ((m.setFrames frames).write (deflagAddr (m.words d entry.pdIndex)) entry.ptIndex
      (frameEntry f)).words d entry.pdIndex = m.words d entry.pdIndex := by
    rw [PhysMem.write_words, if_neg fun e => hdt e.1]
    rfl
  have hfound : ((m.setFrames frames).write (deflagAddr (m.words d entry.pdIndex)) entry.ptIndex
      (frameEntry f)).words (deflagAddr (m.words d entry.pdIndex)) entry.ptIndex
        = frameEntry f := by
    rw [PhysMem.write_words, if_pos ⟨rfl, rfl⟩]
  simp only [Memory.copyEntries, hraw, if_neg hpte, hs.mapped h htakes, Option.bind_some,
    if_neg (show ¬ (0 : Int) = -1 by decide), hdir, hfound, deflagAddr_frameEntry htakes.lt,
    moved_eq frames hs.free hcr3 hct]

/-- **One page**: the entry of the child is all that stays of the round, and the frame behind it has
what the page of the parent has. -/
theorem PagedMem.copied_page (h : Directory s.memory d) (hcr3 : s.memory.cr3 = d)
    (hslot : s.memory.words d entry.pdIndex ≠ 0) (hc : Elsewhere s.memory d c)
    (hpde : s.memory.words d i ≠ 0) {pt raw : Nat} (hpt : deflagAddr (s.memory.words d i) = pt)
    (hraw : s.memory.words pt j = raw) (hpte : deflagAddr raw ≠ 0)
    (call : Memory.copyEntries d entry pt c (j :: js) s.memory = some (true, m')) :
    ∃ f frames, Takes s.memory.frames f frames ∧
      Memory.copyEntries d entry pt c js ((s.memory.setFrames frames).write c j
        (addFlag (f * pageSize) (getFlag raw))) = some (true, m') ∧
      s.copyEntries d entry i pt c (j :: js) = PagedMem.copyEntries d entry i pt c js
        ⟨(s.memory.setFrames frames).write c j (addFlag (f * pageSize) (getFlag raw)),
          Function.update (Function.update s.bytes f fun _ => 0) f
            (Function.update s.bytes f (fun _ => 0) (frameNo raw))⟩ := by
  have hne : raw ≠ 0 := fun e => hpte (by rw [e, deflagAddr_zero])
  obtain ⟨hs, f, frames, htakes⟩ : SlotFree s.memory d entry ∧ ∃ f frames,
      Takes s.memory.frames f frames := by
    simp only [Memory.copyEntries, hraw, if_neg hpte] at call
    obtain ⟨⟨r, m1⟩, hmap, hround⟩ := Option.bind_eq_some_iff.mp call
    refine (h.slot_of_call hslot hmap).resolve_left fun hr => ?_
    simp [hr] at hround
  refine ⟨f, frames, htakes, (hs.copied h hcr3 hc htakes hraw hpte).symm.trans call, ?_⟩
  obtain ⟨hdir, hslotframe, hsource⟩ := h.borrowed frames (p := (entry.pdIndex, entry.ptIndex))
    hcr3 hs.table rfl hs.index hs.free hpde hpt (by rw [hraw]; exact hne) htakes.lt
  have hct : c ≠ deflagAddr (s.memory.words d entry.pdIndex) :=
    (hc.2.2 entry.pdIndex hs.index hs.table).symm
  have hfound : ((s.memory.setFrames frames).write
      (deflagAddr (s.memory.words d entry.pdIndex)) entry.ptIndex (frameEntry f)).words
        (deflagAddr (s.memory.words d entry.pdIndex)) entry.ptIndex = frameEntry f := by
    rw [PhysMem.write_words, if_pos ⟨rfl, rfl⟩]
  rw [PagedMem.copyEntries]
  simp only [hraw, if_neg hpte, PagedMem.virtualMapPhysical, hs.mapped h htakes, Option.bind_some,
    if_true, PagedMem.clearPage, hslotframe, Option.map_some, PagedMem.copyPage, hsource, hdir,
    hfound, deflagAddr_frameEntry htakes.lt, moved_eq frames hs.free hcr3 hct,
    if_neg (show ¬ (0 : Int) = -1 by decide)]

/-- An entry that the copy skips. -/
theorem presentEntries_cons_of_zero {words : Nat → Nat → Nat} {pt : Nat}
    (h : deflagAddr (words pt j) = 0) :
    presentEntries words pt (j :: js) = presentEntries words pt js :=
  List.filter_cons_of_neg (by simpa using h)

/-- An entry that the copy does not skip. -/
theorem presentEntries_cons_of_ne {words : Nat → Nat → Nat} {pt : Nat}
    (h : deflagAddr (words pt j) ≠ 0) :
    presentEntries words pt (j :: js) = j :: presentEntries words pt js :=
  List.filter_cons_of_pos (by simpa using h)

/-- The entries of the list that the copy does not skip. -/
theorem mem_presentEntries {words : Nat → Nat → Nat} {pt : Nat} :
    j ∈ presentEntries words pt js ↔ j ∈ js ∧ deflagAddr (words pt j) ≠ 0 := by
  simp [presentEntries]

/-- The entries depend on the words of the page table. -/
theorem presentEntries_congr {words words' : Nat → Nat → Nat} {pt : Nat}
    (h : ∀ k, words' pt k = words pt k) (js : List Nat) :
    presentEntries words' pt js = presentEntries words pt js :=
  List.filter_congr fun k _ => by rw [h]

/-- An entry that was skipped adds nothing. -/
theorem TableCopied.skip {pt : Nat} (h : TableCopied s s' pt c js fs)
    (hzero : deflagAddr (s.memory.words pt j) = 0) : TableCopied s s' pt c (j :: js) fs := by
  have hsame : presentEntries s.memory.words pt (j :: js) = presentEntries s.memory.words pt js :=
    presentEntries_cons_of_zero hzero
  refine ⟨h.takes, h.heap, h.answers, h.cr3, ?_, ?_, ?_, ?_, h.other_bytes⟩
  · rw [hsame]
    exact h.frames
  · rw [hsame]
    exact h.entries
  · rw [hsame]
    exact h.others
  · rw [hsame]
    exact h.bytes

/-- One page, and then the others. -/
theorem TableCopied.cons {pt raw : Nat} (htakes : Takes s.memory.frames f frames) (hcpt : c ≠ pt)
    (hj : j ∉ js) (hraw : s.memory.words pt j = raw) (hpte : deflagAddr raw ≠ 0)
    (h : TableCopied ⟨(s.memory.setFrames frames).write c j (addFlag (f * pageSize) (getFlag raw)),
      Function.update (Function.update s.bytes f fun _ => 0) f
        (Function.update s.bytes f (fun _ => 0) (frameNo raw))⟩ s' pt c js fs) :
    TableCopied s s' pt c (j :: js) (f :: fs) := by
  have hpresent : presentEntries s.memory.words pt (j :: js)
      = j :: presentEntries s.memory.words pt js :=
    presentEntries_cons_of_ne (by rw [hraw]; exact hpte)
  have hwords : ∀ b k, ((s.memory.setFrames frames).write c j
      (addFlag (f * pageSize) (getFlag raw))).words b k
        = if b = c ∧ k = j then addFlag (f * pageSize) (getFlag raw) else s.memory.words b k :=
    fun b k => PhysMem.write_words ..
  have hpt : ∀ k, ((s.memory.setFrames frames).write c j
      (addFlag (f * pageSize) (getFlag raw))).words pt k = s.memory.words pt k := fun k => by
    rw [hwords, if_neg fun e => hcpt e.1.symm]
  have hsame : presentEntries ((s.memory.setFrames frames).write c j
      (addFlag (f * pageSize) (getFlag raw))).words pt js = presentEntries s.memory.words pt js :=
    presentEntries_congr hpt js
  have hnew : frameNo (addFlag (f * pageSize) (getFlag raw)) = f :=
    frameNo_addFlag htakes.lt (getFlag_lt raw)
  -- the entry that was written stays
  have hself : s'.memory.words c j = addFlag (f * pageSize) (getFlag raw) := by
    rw [h.others c j fun e => hj (mem_presentEntries.mp e.2).1, hwords, if_pos ⟨rfl, rfl⟩]
  have hne : ∀ k ∈ presentEntries s.memory.words pt js, k ≠ j := fun k hk e =>
    hj (e ▸ (mem_presentEntries.mp hk).1)
  have hfs : f ∉ fs := h.takes.notMem_of_used (by
    show frames.refcount f ≠ 0
    rw [htakes.refcount, if_pos rfl]
    decide)
  refine ⟨(TakesAll.of_takes htakes).append h.takes, h.heap, h.answers, h.cr3, ?_, ?_, ?_, ?_, ?_⟩
  · rw [hpresent, List.map_cons, hself, hnew, ← hsame, h.frames]
  · rw [hpresent]
    intro k hk
    rcases List.mem_cons.mp hk with rfl | hk
    · rw [hself, hnew, hraw]
    · have hentry := h.entries k (hsame ▸ hk)
      rwa [hpt] at hentry
  · intro b k hk
    rw [hpresent] at hk
    rw [h.others b k fun e => hk ⟨e.1, List.mem_cons_of_mem j (hsame ▸ e.2)⟩, hwords, if_neg]
    rintro ⟨rfl, rfl⟩
    exact hk ⟨rfl, List.mem_cons_self⟩
  · rw [hpresent]
    intro k hk hused
    rcases List.mem_cons.mp hk with rfl | hk
    · rw [hraw] at hused ⊢
      have hgf : frameNo raw ≠ f := fun e => hused (e ▸ htakes.free)
      rw [hself, hnew, h.other_bytes f hfs]
      show Function.update _ f _ f = _
      rw [Function.update_self, Function.update_of_ne hgf]
    · have hcopied := h.bytes k (hsame ▸ hk) ?_
      · rw [hpt] at hcopied
        have hgf : frameNo (s.memory.words pt k) ≠ f := fun e => hused (e ▸ htakes.free)
        rw [hcopied]
        show Function.update _ f _ _ = _
        rw [Function.update_of_ne hgf, Function.update_of_ne hgf]
      · rw [hpt]
        exact fun hfree => hused (htakes.free_of_free hfree)
  · intro g hg
    obtain ⟨hgf, hgs⟩ := not_or.mp (List.mem_cons.not.mp hg)
    rw [h.other_bytes g hgs]
    show Function.update _ f _ g = _
    rw [Function.update_of_ne hgf, Function.update_of_ne hgf]

/-- **The rule of the inner loop of `sys_fork`**, with contents: it comes to its end whenever the
loop without contents does. -/
theorem PagedMem.tableCopied_of_call (h : Directory s.memory d) (hcr3 : s.memory.cr3 = d)
    (hslot : s.memory.words d entry.pdIndex ≠ 0) (hc : Elsewhere s.memory d c) {pt : Nat}
    (hi : i < pageLen) (hpde : s.memory.words d i ≠ 0) (hpt : deflagAddr (s.memory.words d i) = pt)
    (hnodup : js.Nodup)
    (call : Memory.copyEntries d entry pt c js s.memory = some (true, m')) :
    ∃ s' fs, s.copyEntries d entry i pt c js = some (true, s') ∧ s'.memory = m' ∧
      TableCopied s s' pt c js fs := by
  induction js generalizing s with
  | nil =>
      obtain ⟨-, rfl⟩ := Prod.mk.inj (Option.some.inj call)
      exact ⟨s, [], rfl, rfl, .nil h.ordered, rfl, rfl, rfl, rfl,
        fun _ hj => by simp [presentEntries] at hj, fun _ _ _ => rfl,
        fun _ hj => by simp [presentEntries] at hj, fun _ _ => rfl⟩
  | cons j js ih =>
      obtain ⟨hj, hrest⟩ := List.nodup_cons.mp hnodup
      by_cases hpte : deflagAddr (s.memory.words pt j) = 0
      · simp only [Memory.copyEntries, if_pos hpte] at call
        obtain ⟨s', fs, hcall, hmem, hcopied⟩ := ih h hcr3 hslot hc hpde hpt hrest call
        refine ⟨s', fs, ?_, hmem, hcopied.skip hpte⟩
        simp only [PagedMem.copyEntries, if_pos hpte]
        exact hcall
      · obtain ⟨f, frames, htakes, hround, hcall⟩ := copied_page h hcr3 hslot hc hpde hpt rfl hpte
          call
        have hdir : ∀ x, ((s.memory.setFrames frames).write c j
            (addFlag (f * pageSize) (getFlag (s.memory.words pt j)))).words d x
              = s.memory.words d x := fun x => by
          rw [PhysMem.write_words, if_neg fun e => hc.2.1 e.1.symm]
          rfl
        have hcpt : c ≠ pt := fun e => hc.2.2 i hi hpde (hpt.trans e.symm)
        obtain ⟨s', fs, hloop, hmem, hcopied⟩ := ih (s := ⟨(s.memory.setFrames frames).write c j
            (addFlag (f * pageSize) (getFlag (s.memory.words pt j))), _⟩)
          (h.congr (funext hdir) (Finset.Subset.refl _) h.null htakes.ordered
            (htakes.keeps h.first_frame)) hcr3 (by rw [hdir]; exact hslot)
          ⟨hc.1, hc.2.1, fun x hx => by rw [hdir]; exact hc.2.2 x hx⟩ (by rw [hdir]; exact hpde)
          (by rw [hdir]; exact hpt) hrest hround
        exact ⟨s', f :: fs, hcall.trans hloop, hmem, .cons htakes hcpt hj rfl hpte hcopied⟩

end

/-! ## One address space -/

/-- The page tables of the page directory `d` that the copy does not skip. -/
def presentTables (words : Nat → Nat → Nat) (d : Nat) (is : List Nat) : List Nat :=
  is.filter fun i => deflagAddr (words d i) ≠ 0

/-- The pages that the copy does not skip. -/
def presentPages (words : Nat → Nat → Nat) (d : Nat) (is : List Nat) : List (Nat × Nat) :=
  (presentTables words d is).flatMap fun i =>
    (presentEntries words (deflagAddr (words d i)) (List.range pageLen)).map (i, ·)

/-- **The child has the answer `a`** as its page table `i`: what the copy has skipped is what the
block contained before. -/
structure TableGiven (m m' : PhysMem) (d b i : Nat) (a : Answer) : Prop where
  /-- The block is a page of the kernel heap. -/
  block : IsBlock a.address
  /-- Nobody held it. -/
  fresh : a.address ∉ m.heap
  /-- The entry of the page directory has the flags of the parent's. -/
  entry : m'.words b i = addFlag a.address (getFlag (m.words d i))
  /-- The words that were skipped. -/
  stale : ∀ j < pageLen, deflagAddr (m.words (deflagAddr (m.words d i)) j) = 0 →
    m'.words a.address j = a.contents j

/-- **The page tables `is` of the page directory `d` have been copied** to the page directory `b`,
in the blocks of the answers `as`, and their pages to the frames `fs`. -/
structure SpaceCopied (s s' : PagedMem) (d b : Nat) (is : List Nat) (as : List Answer)
    (fs : List Nat) : Prop where
  /-- The parent's page directory is one still. -/
  directory : Directory s'.memory d
  /-- The frames. -/
  takes : TakesAll s.memory.frames fs s'.memory.frames
  /-- The answers were used in order. -/
  answers : s.memory.answers = as ++ s'.memory.answers
  /-- The page directory in use. -/
  cr3 : s'.memory.cr3 = s.memory.cr3
  /-- The blocks in use. -/
  heap : ∀ x, x ∈ s'.memory.heap ↔ x ∈ s.memory.heap ∨ x ∈ as.map Answer.address
  /-- The page tables of the child. -/
  tables : List.Forall₂ (TableGiven s.memory s'.memory d b) (presentTables s.memory.words d is) as
  /-- They are distinct. -/
  nodup : (as.map Answer.address).Nodup
  /-- Each page of the child has the next frame. -/
  frames : (presentPages s.memory.words d is).map
    (fun p => frameNo (entryOf s'.memory.words b p)) = fs
  /-- It has the flags of the parent's. -/
  entries : ∀ p ∈ presentPages s.memory.words d is, entryOf s'.memory.words b p
    = addFlag (frameNo (entryOf s'.memory.words b p) * pageSize)
      (getFlag (entryOf s.memory.words d p))
  /-- No other word is written. -/
  others : ∀ x k, x ∉ as.map Answer.address →
    ¬ (x = b ∧ k ∈ presentTables s.memory.words d is) → s'.memory.words x k = s.memory.words x k
  /-- The new frames contain what those of the parent do, when these are in use. -/
  bytes : ∀ p ∈ presentPages s.memory.words d is,
    frameNo (entryOf s.memory.words d p) ∉ s.memory.frames.freeSet →
      s'.bytes (frameNo (entryOf s'.memory.words b p))
        = s.bytes (frameNo (entryOf s.memory.words d p))
  /-- No other frame is written. -/
  other_bytes : ∀ f, f ∉ fs → s'.bytes f = s.bytes f

/-- **One round of the outer loop**: the page table `i` has been copied to the block of the answer
`a`. -/
structure RoundDone (s s' : PagedMem) (d b i : Nat) (a : Answer) (fs : List Nat) : Prop where
  /-- The parent's page directory is one still. -/
  directory : Directory s'.memory d
  /-- The child's is none of its blocks. -/
  elsewhere : Elsewhere s'.memory d b
  /-- The frames. -/
  takes : TakesAll s.memory.frames fs s'.memory.frames
  /-- The answer was used. -/
  answers : s.memory.answers = a :: s'.memory.answers
  /-- The page directory in use. -/
  cr3 : s'.memory.cr3 = s.memory.cr3
  /-- The block is in use. -/
  heap : s'.memory.heap = insert a.address s.memory.heap
  /-- The page table of the child. -/
  given : TableGiven s.memory s'.memory d b i a
  /-- Each page of the child has the next frame. -/
  frames : (presentEntries s.memory.words (deflagAddr (s.memory.words d i))
    (List.range pageLen)).map (fun j => frameNo (s'.memory.words a.address j)) = fs
  /-- It has the flags of the parent's. -/
  entries : ∀ j ∈ presentEntries s.memory.words (deflagAddr (s.memory.words d i))
    (List.range pageLen), s'.memory.words a.address j
      = addFlag (frameNo (s'.memory.words a.address j) * pageSize)
        (getFlag (s.memory.words (deflagAddr (s.memory.words d i)) j))
  /-- No other word is written. -/
  others : ∀ x k, x ≠ a.address → ¬ (x = b ∧ k = i) → s'.memory.words x k = s.memory.words x k
  /-- The new frames contain what those of the parent do, when these are in use. -/
  bytes : ∀ j ∈ presentEntries s.memory.words (deflagAddr (s.memory.words d i))
    (List.range pageLen),
      frameNo (s.memory.words (deflagAddr (s.memory.words d i)) j) ∉ s.memory.frames.freeSet →
        s'.bytes (frameNo (s'.memory.words a.address j))
          = s.bytes (frameNo (s.memory.words (deflagAddr (s.memory.words d i)) j))
  /-- No other frame is written. -/
  other_bytes : ∀ f, f ∉ fs → s'.bytes f = s.bytes f

section
variable {s s' s1 : PagedMem} {m m' m1 : PhysMem} {d b i : Nat} {is fs : List Nat} {a : Answer}
  {entry : EntryInfo}

/-- The page tables of the list that the copy does not skip. -/
theorem mem_presentTables {words : Nat → Nat → Nat} :
    i ∈ presentTables words d is ↔ i ∈ is ∧ deflagAddr (words d i) ≠ 0 := by
  simp [presentTables]

/-- **The page directory `d` and its page tables** have the same words. -/
structure SameSpace (words words' : Nat → Nat → Nat) (d : Nat) : Prop where
  /-- The page directory. -/
  dir : ∀ k, words' d k = words d k
  /-- Its page tables. -/
  table : ∀ x < pageLen, words d x ≠ 0 → ∀ k,
    words' (deflagAddr (words d x)) k = words (deflagAddr (words d x)) k

namespace SameSpace

variable {words words' : Nat → Nat → Nat}

/-- The entries are the same. -/
theorem entryOf (h : SameSpace words words' d) {p : Nat × Nat} (hp : p.1 < pageLen) :
    Memory.entryOf words' d p = Memory.entryOf words d p := by
  rw [Memory.entryOf, Memory.entryOf, h.dir]
  split
  · rfl
  · next hpde => exact h.table p.1 hp hpde p.2

/-- So are the page tables that a copy does not skip. -/
theorem presentTables (h : SameSpace words words' d) (is : List Nat) :
    Memory.presentTables words' d is = Memory.presentTables words d is :=
  List.filter_congr fun x _ => by rw [h.dir]

/-- So are the pages that a copy does not skip. -/
theorem presentPages (h : SameSpace words words' d) (his : ∀ x ∈ is, x < pageLen) :
    Memory.presentPages words' d is = Memory.presentPages words d is := by
  rw [Memory.presentPages, Memory.presentPages, h.presentTables]
  refine List.flatMap_congr fun x hx => ?_
  obtain ⟨hmem, hpde⟩ := mem_presentTables.mp hx
  have hne : words d x ≠ 0 := fun e => hpde (by rw [e, deflagAddr_zero])
  rw [h.dir, presentEntries_congr (h.table x (his x hmem) hne)]

end SameSpace

/-- The memory after `memalign` has given the answer `a`. -/
def PhysMem.given (m : PhysMem) (a : Answer) (rest : List Answer) : PhysMem :=
  { m with
    answers := rest
    heap := insert a.address m.heap
    words := Function.update m.words a.address a.contents }

/-- `memalign` has given a block. -/
theorem memalign_block (call : m.memalign = some (b, m1)) (hb : b ≠ 0) :
    ∃ a rest, m.answers = a :: rest ∧ a.address = b ∧ IsBlock b ∧ b ∉ m.heap ∧
      m1 = m.given a rest := by
  unfold PhysMem.memalign at call
  split at call
  · cases call
  · next a rest hanswers =>
      split at call
      · obtain ⟨rfl, -⟩ := Prod.mk.inj (Option.some.inj call)
        exact absurd rfl hb
      · next hnz =>
          split at call
          · next hcond =>
              obtain ⟨rfl, rfl⟩ := Prod.mk.inj (Option.some.inj call)
              exact ⟨a, rest, hanswers, rfl, ⟨hnz, hcond.1, hcond.2.1⟩, hcond.2.2, rfl⟩
          · cases call

/-- The words after the block was given and entered in the page directory of the child. -/
theorem PhysMem.given_words {rest : List Answer} {v x k : Nat} (hx : x ≠ a.address)
    (hbi : ¬ (x = b ∧ k = i)) : ((m.given a rest).write b i v).words x k = m.words x k := by
  rw [PhysMem.write_words, if_neg hbi]
  exact congrFun (Function.update_of_ne hx ..) k

/-- **A round of the outer loop** that comes to its end: a block for the page table, and the inner
loop. -/
theorem copyTables_cons_of_call (hpde : deflagAddr (m.words d i) ≠ 0)
    (call : Memory.copyTables d entry b (i :: is) m = some (true, m')) :
    ∃ a rest m2, m.answers = a :: rest ∧ IsBlock a.address ∧ a.address ∉ m.heap ∧
      m.memalign = some (a.address, m.given a rest) ∧
      Memory.copyEntries d entry (deflagAddr (m.words d i)) a.address (List.range pageLen)
        ((m.given a rest).write b i (addFlag a.address (getFlag (m.words d i)))) = some (true, m2) ∧
      Memory.copyTables d entry b is m2 = some (true, m') := by
  simp only [Memory.copyTables, if_neg hpde] at call
  obtain ⟨⟨c, m1⟩, halloc, hrun⟩ := Option.bind_eq_some_iff.mp call
  by_cases hc : c = 0
  · simp [hc] at hrun
  rw [if_neg hc] at hrun
  obtain ⟨⟨done, m2⟩, hinner, hnext⟩ := Option.bind_eq_some_iff.mp hrun
  cases done with
  | false => simp at hnext
  | true =>
    obtain ⟨a, rest, hanswers, rfl, hblock, hfresh, rfl⟩ := memalign_block halloc hc
    exact ⟨a, rest, m2, hanswers, hblock, hfresh, halloc, hinner, hnext⟩

/-- **The new page table of the child** has nothing to do with the page tables of the parent. -/
theorem Directory.given (h : Directory m d) (hb : Elsewhere m d b) (hblock : IsBlock a.address)
    (hfresh : a.address ∉ m.heap) (rest : List Answer) (i v : Nat) :
    SameSpace m.words ((m.given a rest).write b i v).words d ∧
      Directory ((m.given a rest).write b i v) d ∧
      Elsewhere ((m.given a rest).write b i v) d a.address := by
  have hda : d ≠ a.address := fun e => hfresh (e ▸ h.mem)
  have hdir : ∀ k, ((m.given a rest).write b i v).words d k = m.words d k := fun k =>
    PhysMem.given_words hda fun e => hb.2.1 e.1.symm
  have htable : ∀ x < pageLen, m.words d x ≠ 0 → deflagAddr (m.words d x) ≠ a.address :=
    fun x hx hpde e => hfresh (e ▸ h.table_mem x hx hpde)
  refine ⟨⟨hdir, fun x hx hpde k => PhysMem.given_words (htable x hx hpde)
    fun e => hb.2.2 x hx hpde e.1⟩, ?_, Finset.mem_insert_self .., hda.symm, fun x hx => ?_⟩
  · exact h.congr (funext hdir) (Finset.subset_insert ..)
      (fun e => (Finset.mem_insert.mp e).elim (fun e => hblock.1 e.symm) h.null) h.ordered
      h.first_frame
  · rw [hdir]
    exact htable x hx

/-- **The rule of one round of the outer loop**, with contents. -/
theorem PagedMem.round_of_call (h : Directory s.memory d) (hcr3 : s.memory.cr3 = d)
    (hslot : s.memory.words d entry.pdIndex ≠ 0) (hb : Elsewhere s.memory d b) (hi : i < pageLen)
    (hpde : deflagAddr (s.memory.words d i) ≠ 0)
    (call : Memory.copyTables d entry b (i :: is) s.memory = some (true, m')) :
    ∃ s1 a fs, Memory.copyTables d entry b is s1.memory = some (true, m') ∧
      s.copyTables d entry b (i :: is) = s1.copyTables d entry b is ∧
      RoundDone s s1 d b i a fs := by
  have hne : s.memory.words d i ≠ 0 := fun e => hpde (by rw [e, deflagAddr_zero])
  obtain ⟨a, rest, m2, hanswers, hblock, hfresh, halloc, hinner, hnext⟩ :=
    copyTables_cons_of_call hpde call
  have hda : d ≠ a.address := fun e => hfresh (e ▸ h.mem)
  have hba : b ≠ a.address := fun e => hfresh (e ▸ hb.1)
  let s0 : PagedMem := ⟨(s.memory.given a rest).write b i
    (addFlag a.address (getFlag (s.memory.words d i))), s.bytes⟩
  -- the page tables of the parent are not written
  obtain ⟨hsame0, hdirectory, helse⟩ : SameSpace s.memory.words s0.memory.words d ∧
      Directory s0.memory d ∧ Elsewhere s0.memory d a.address := h.given hb hblock hfresh rest i _
  have hdir := hsame0.dir
  have hpt := hsame0.table i hi hne
  have hsame : presentEntries s0.memory.words (deflagAddr (s.memory.words d i))
      (List.range pageLen) = presentEntries s.memory.words (deflagAddr (s.memory.words d i))
        (List.range pageLen) := presentEntries_congr hpt _
  obtain ⟨s1, fs, hcopy, rfl, hcopied⟩ := tableCopied_of_call (s := s0) hdirectory hcr3
    (by rw [hdir]; exact hslot) helse hi
    (by rw [hdir]; exact hne) (by rw [hdir]) List.nodup_range hinner
  have hdir1 : ∀ k, s1.memory.words d k = s.memory.words d k := fun k =>
    (hcopied.others d k fun e => hda e.1).trans (hdir k)
  have hfirst : s1.memory.frames.refcount 0 = 1 := hcopied.takes.keeps hdirectory.first_frame
  refine ⟨s1, a, fs, hnext, ?_, ?_⟩
  · simp only [PagedMem.copyTables, if_neg hpde, halloc, Option.bind_some, if_neg hblock.1]
    show (s0.copyEntries d entry i _ a.address (List.range pageLen)).bind _ = _
    rw [hcopy]
    rfl
  · refine ⟨?_, ⟨?_, hb.2.1, fun x hx => ?_⟩, hcopied.takes, ?_, hcopied.cr3, hcopied.heap,
      ⟨hblock, hfresh, ?_, fun j hj hzero => ?_⟩, ?_, ?_, fun x k hx hbi => ?_, ?_,
      hcopied.other_bytes⟩
    · refine hdirectory.congr (funext fun k => hcopied.others d k fun e => hda e.1) ?_ ?_
        hcopied.takes.ordered hfirst
      · rw [hcopied.heap]
      · rw [hcopied.heap]
        exact hdirectory.null
    · rw [hcopied.heap]
      exact Finset.mem_insert_of_mem hb.1
    · rw [hdir1]
      exact hb.2.2 x hx
    · rw [hcopied.answers]
      exact hanswers
    · rw [hcopied.others b i fun e => hba e.1, PhysMem.write_words, if_pos ⟨rfl, rfl⟩]
    · rw [hcopied.others a.address j, PhysMem.write_words, if_neg fun e => hba e.1.symm]
      · exact congrFun (Function.update_self ..) j
      · rintro ⟨-, hmem⟩
        rw [hsame] at hmem
        exact (mem_presentEntries.mp hmem).2 hzero
    · rw [← hsame]
      exact hcopied.frames
    · intro j hj
      have hentry := hcopied.entries j (by rw [hsame]; exact hj)
      rwa [hpt] at hentry
    · rw [hcopied.others x k fun e => hx e.1]
      exact PhysMem.given_words hx hbi
    · intro j hj
      have hbytes := hcopied.bytes j (by rw [hsame]; exact hj)
      rwa [hpt] at hbytes

/-! ## All page tables -/

/-- A page table that the copy skips. -/
theorem presentTables_cons_of_zero {words : Nat → Nat → Nat} (h : deflagAddr (words d i) = 0) :
    presentTables words d (i :: is) = presentTables words d is :=
  List.filter_cons_of_neg (by simpa using h)

/-- A page table that the copy does not skip. -/
theorem presentTables_cons_of_ne {words : Nat → Nat → Nat} (h : deflagAddr (words d i) ≠ 0) :
    presentTables words d (i :: is) = i :: presentTables words d is :=
  List.filter_cons_of_pos (by simpa using h)

/-- The pages that the copy does not skip. -/
theorem mem_presentPages {words : Nat → Nat → Nat} {p : Nat × Nat} :
    p ∈ presentPages words d is ↔ p.1 ∈ is ∧ deflagAddr (words d p.1) ≠ 0 ∧ p.2 < pageLen ∧
      deflagAddr (words (deflagAddr (words d p.1)) p.2) ≠ 0 := by
  obtain ⟨i, j⟩ := p
  simp only [presentPages, List.mem_flatMap, List.mem_map, mem_presentTables, mem_presentEntries,
    List.mem_range, Prod.mk.injEq]
  constructor
  · rintro ⟨i', ⟨hi, hpde⟩, j', ⟨hj, hpte⟩, rfl, rfl⟩
    exact ⟨hi, hpde, hj, hpte⟩
  · rintro ⟨hi, hpde, hj, hpte⟩
    exact ⟨i, ⟨hi, hpde⟩, j, ⟨hj, hpte⟩, rfl, rfl⟩

/-- A page table that was skipped adds nothing. -/
theorem SpaceCopied.skip {as : List Answer} (h : SpaceCopied s s' d b is as fs)
    (hzero : deflagAddr (s.memory.words d i) = 0) : SpaceCopied s s' d b (i :: is) as fs := by
  have htables : presentTables s.memory.words d (i :: is) = presentTables s.memory.words d is :=
    presentTables_cons_of_zero hzero
  have hpages : presentPages s.memory.words d (i :: is) = presentPages s.memory.words d is := by
    rw [presentPages, presentPages, htables]
  refine ⟨h.directory, h.takes, h.answers, h.cr3, h.heap, ?_, h.nodup, ?_, ?_, ?_, ?_,
    h.other_bytes⟩
  · rw [htables]
    exact h.tables
  · rw [hpages]
    exact h.frames
  · rw [hpages]
    exact h.entries
  · rw [htables]
    exact h.others
  · rw [hpages]
    exact h.bytes

/-- The blocks that were given were free. -/
theorem SpaceCopied.notMem {as : List Answer} (h : SpaceCopied s s' d b is as fs) {x : Nat}
    (hx : x ∈ s.memory.heap) : x ∉ as.map Answer.address := by
  have hfresh : ∀ a ∈ as, a.address ∉ s.memory.heap := by
    have hall : List.Forall₂ (fun _ a => Answer.address a ∉ s.memory.heap)
        (presentTables s.memory.words d is) as := h.tables.imp fun _ _ hgiven => hgiven.fresh
    intro a ha
    obtain ⟨n, hn, rfl⟩ := List.mem_iff_getElem.mp ha
    exact hall.get (by rw [hall.length_eq]; exact hn) hn
  intro hmem
  obtain ⟨a, ha, rfl⟩ := List.mem_map.mp hmem
  exact hfresh a ha hx

/-- What is written to blocks that have nothing to do with a page directory leaves it as it is. -/
theorem Directory.sameSpace (h : Directory m d)
    (hwords : ∀ x, x ∈ m.heap → (¬ Elsewhere m d x) → m'.words x = m.words x) :
    SameSpace m.words m'.words d where
  dir k := congrFun (hwords d h.mem fun e => e.2.1 rfl) k
  table x hx hpde k := congrFun (hwords _ (h.table_mem x hx hpde) fun e => e.2.2 x hx hpde rfl) k

/-- The round does not touch the page tables of the parent. -/
theorem RoundDone.sameSpace (h : RoundDone s s1 d b i a fs) (hd : Directory s.memory d)
    (hb : Elsewhere s.memory d b) : SameSpace s.memory.words s1.memory.words d := by
  refine hd.sameSpace fun x hx helse => funext fun k => h.others x k ?_ ?_
  · rintro rfl
    exact h.given.fresh hx
  · rintro ⟨rfl, -⟩
    exact helse hb

/-- The entry of a page of the child, in the page table that the round has added. -/
theorem RoundDone.entryOf {s' : PagedMem} {as : List Answer} {gs : List Nat}
    (h : RoundDone s s1 d b i a fs) (hb : Elsewhere s.memory d b)
    (hrest : SpaceCopied s1 s' d b is as gs) (hi : i ∉ is) (j : Nat) :
    s'.memory.words b i = addFlag a.address (getFlag (s.memory.words d i)) ∧
      (∀ k, s'.memory.words a.address k = s1.memory.words a.address k) ∧
      Memory.entryOf s'.memory.words b (i, j) = s1.memory.words a.address j := by
  have hself : a.address ∈ s1.memory.heap := by
    rw [h.heap]
    exact Finset.mem_insert_self ..
  have hba : b ≠ a.address := fun e => h.given.fresh (e ▸ hb.1)
  have hflag := addFlag_block h.given.block (getFlag_lt (s.memory.words d i))
  have hpde : s'.memory.words b i = addFlag a.address (getFlag (s.memory.words d i)) := by
    rw [hrest.others b i (hrest.notMem h.elsewhere.1)
      fun e => hi (mem_presentTables.mp e.2).1, h.given.entry]
  have htable : ∀ k, s'.memory.words a.address k = s1.memory.words a.address k := fun k =>
    hrest.others a.address k (hrest.notMem hself) fun e => hba e.1.symm
  refine ⟨hpde, htable, ?_⟩
  rw [entryOf_of_table (by rw [hpde]; exact hflag.1), hpde, hflag.2, htable]

/-- The pages of one page table come first. -/
theorem presentPages_cons_of_ne {words : Nat → Nat → Nat} (h : deflagAddr (words d i) ≠ 0) :
    presentPages words d (i :: is)
      = (presentEntries words (deflagAddr (words d i)) (List.range pageLen)).map (i, ·)
        ++ presentPages words d is := by
  rw [presentPages, presentTables_cons_of_ne h, List.flatMap_cons]
  rfl

/-- What was given in a later round was given. -/
theorem TableGiven.earlier {x : Nat} {a' : Answer} (h : TableGiven m1 m' d b x a')
    (hsame : SameSpace m.words m1.words d) (hheap : m.heap ⊆ m1.heap) (hx : x < pageLen)
    (hpde : m.words d x ≠ 0) : TableGiven m m' d b x a' where
  block := h.block
  fresh hmem := h.fresh (hheap hmem)
  entry := by
    rw [h.entry, hsame.dir]
  stale j hj hzero := h.stale j hj (by rw [hsame.dir, hsame.table x hx hpde, hzero])

/-- One round, and then the others. -/
theorem SpaceCopied.cons {as : List Answer} {gs : List Nat} (hd : Directory s.memory d)
    (hb : Elsewhere s.memory d b) (hpde : deflagAddr (s.memory.words d i) ≠ 0)
    (his : ∀ x ∈ i :: is, x < pageLen) (hi : i ∉ is) (h : RoundDone s s1 d b i a fs)
    (hrest : SpaceCopied s1 s' d b is as gs) :
    SpaceCopied s s' d b (i :: is) (a :: as) (fs ++ gs) := by
  have his' : ∀ x ∈ is, x < pageLen := fun x hx => his x (List.mem_cons_of_mem i hx)
  have hne : s.memory.words d i ≠ 0 := fun e => hpde (by rw [e, deflagAddr_zero])
  have hsame := h.sameSpace hd hb
  have htables := hsame.presentTables is
  have hpages := hsame.presentPages his'
  have hheap : s.memory.heap ⊆ s1.memory.heap := by
    rw [h.heap]
    exact Finset.subset_insert ..
  have hlt : ∀ p ∈ presentPages s.memory.words d is, p.1 < pageLen := fun p hp =>
    his' p.1 (mem_presentPages.mp hp).1
  -- the entries of the page table that this round has added
  have hentry := fun j => (h.entryOf hb hrest hi j).2.2
  obtain ⟨hself, htable, -⟩ := h.entryOf hb hrest hi 0
  have hparent : ∀ j, entryOf s.memory.words d (i, j)
      = s.memory.words (deflagAddr (s.memory.words d i)) j := fun j => entryOf_of_table hne
  have hnotMem : a.address ∉ as.map Answer.address := hrest.notMem (by
    rw [h.heap]
    exact Finset.mem_insert_self ..)
  refine ⟨hrest.directory, h.takes.append hrest.takes, ?_, hrest.cr3.trans h.cr3, fun x => ?_, ?_,
    ?_, ?_, ?_, fun x k hx hbk => ?_, ?_, fun f hf => ?_⟩
  · rw [h.answers, hrest.answers, List.cons_append]
  · rw [hrest.heap, h.heap, Finset.mem_insert, List.map_cons, List.mem_cons]
    tauto
  · rw [presentTables_cons_of_ne hpde]
    refine .cons ⟨h.given.block, h.given.fresh, hself, fun j hj hzero => ?_⟩ ?_
    · rw [htable, h.given.stale j hj hzero]
    · have hgiven := hrest.tables
      rw [htables] at hgiven
      refine ((List.forall₂_and_left (p := fun x => x ∈ presentTables s.memory.words d is) _ _).mpr
        ⟨fun _ hx => hx, hgiven⟩).imp fun x a' hx => ?_
      obtain ⟨hmem, hpde'⟩ := mem_presentTables.mp hx.1
      exact hx.2.earlier hsame hheap (his' x hmem) fun e => hpde' (by rw [e, deflagAddr_zero])
  · exact List.nodup_cons.mpr ⟨hnotMem, hrest.nodup⟩
  · rw [presentPages_cons_of_ne hpde, List.map_append, List.map_map]
    refine congrArg₂ _ ?_ ?_
    · rw [← h.frames]
      exact List.map_congr_left fun j _ => by rw [Function.comp_apply, hentry]
    · rw [← hpages]
      exact hrest.frames
  · intro p hp
    rw [presentPages_cons_of_ne hpde] at hp
    rcases List.mem_append.mp hp with hp | hp
    · obtain ⟨j, hj, rfl⟩ := List.mem_map.mp hp
      rw [hentry, hparent]
      exact h.entries j hj
    · have hold := hrest.entries p (by rw [hpages]; exact hp)
      rwa [hsame.entryOf (hlt p hp)] at hold
  · obtain ⟨hxa, hxas⟩ := not_or.mp (List.mem_cons.not.mp hx)
    rw [presentTables_cons_of_ne hpde] at hbk
    rw [hrest.others x k hxas fun e => hbk ⟨e.1, List.mem_cons_of_mem i (htables ▸ e.2)⟩]
    refine h.others x k hxa fun e => hbk ⟨e.1, ?_⟩
    rw [e.2]
    exact List.mem_cons_self
  · intro p hp hused
    rw [presentPages_cons_of_ne hpde] at hp
    rcases List.mem_append.mp hp with hp | hp
    · obtain ⟨j, hj, rfl⟩ := List.mem_map.mp hp
      rw [hparent] at hused ⊢
      have hf : frameNo (s1.memory.words a.address j) ∈ fs := by
        rw [← h.frames]
        exact List.mem_map_of_mem hj
      have hgs : frameNo (s1.memory.words a.address j) ∉ gs := fun hmem =>
        (List.nodup_append.mp (h.takes.append hrest.takes).nodup).2.2 _ hf _ hmem rfl
      rw [hentry, hrest.other_bytes _ hgs, h.bytes j hj hused]
    · have hold := hrest.bytes p (by rw [hpages]; exact hp)
      rw [hsame.entryOf (hlt p hp)] at hold
      rw [hold fun hfree => hused (h.takes.free_of_free hfree)]
      exact h.other_bytes _ fun hmem => hused (h.takes.free _ hmem)
  · obtain ⟨hfs, hgs⟩ := not_or.mp (List.mem_append.not.mp hf)
    rw [hrest.other_bytes f hgs, h.other_bytes f hfs]

/-- **The rule of the outer loop of `sys_fork`**, with contents: it comes to its end whenever the
loop without contents does. -/
theorem PagedMem.spaceCopied_of_call (h : Directory s.memory d) (hcr3 : s.memory.cr3 = d)
    (hslot : s.memory.words d entry.pdIndex ≠ 0) (hb : Elsewhere s.memory d b)
    (his : ∀ x ∈ is, x < pageLen) (hnodup : is.Nodup)
    (call : Memory.copyTables d entry b is s.memory = some (true, m')) :
    ∃ s' as fs, s.copyTables d entry b is = some (true, s') ∧ s'.memory = m' ∧
      SpaceCopied s s' d b is as fs := by
  induction is generalizing s with
  | nil =>
      obtain ⟨-, rfl⟩ := Prod.mk.inj (Option.some.inj call)
      exact ⟨s, [], [], rfl, rfl, h, .nil h.ordered, rfl, rfl, fun x => by simp, .nil, .nil, rfl,
        fun _ hp => absurd hp List.not_mem_nil, fun _ _ _ _ => rfl,
        fun _ hp => absurd hp List.not_mem_nil, fun _ _ => rfl⟩
  | cons i is ih =>
      obtain ⟨hi, hrest⟩ := List.nodup_cons.mp hnodup
      have his' : ∀ x ∈ is, x < pageLen := fun x hx => his x (List.mem_cons_of_mem i hx)
      by_cases hpde : deflagAddr (s.memory.words d i) = 0
      · simp only [Memory.copyTables, if_pos hpde] at call
        obtain ⟨s', as, fs, hcall, hmem, hcopied⟩ := ih h hcr3 hslot hb his' hrest call
        refine ⟨s', as, fs, ?_, hmem, hcopied.skip hpde⟩
        simp only [PagedMem.copyTables, if_pos hpde]
        exact hcall
      · obtain ⟨s1, a, fs, hnext, hcall, hround⟩ := round_of_call h hcr3 hslot hb
          (his i List.mem_cons_self) hpde call
        have hsame := hround.sameSpace h hb
        obtain ⟨s', as, gs, hloop, hmem, hcopied⟩ := ih hround.directory (hround.cr3.trans hcr3)
          (by rw [hsame.dir]; exact hslot) hround.elsewhere his' hrest hnext
        exact ⟨s', a :: as, fs ++ gs, hcall.trans hloop, hmem,
          .cons h hb hpde his hi hround hcopied⟩

end

/-! ## The whole copy -/

/-- The entries of a page directory for user memory. -/
def userTables : List Nat := List.range' 4 1020

/-- **The child has been copied** from the parent's page directory `d`: its page directory is the
block of the answer `a0`, its page tables are those of the answers `as`, and its pages are in the
frames `fs`. -/
structure Forked (s s' : PagedMem) (d : Nat) (a0 : Answer) (as : List Answer) (fs : List Nat) :
    Prop where
  /-- The page tables of the parent are as before. -/
  same : SameSpace s.memory.words s'.memory.words d
  /-- The frames. -/
  takes : TakesAll s.memory.frames fs s'.memory.frames
  /-- The answers were used in order. -/
  answers : s.memory.answers = a0 :: as ++ s'.memory.answers
  /-- The page directory in use. -/
  cr3 : s'.memory.cr3 = s.memory.cr3
  /-- The page directory of the child is a page of the kernel heap. -/
  block : IsBlock a0.address
  /-- Nobody held it. -/
  fresh : a0.address ∉ s.memory.heap
  /-- The blocks in use. -/
  heap : ∀ x, x ∈ s'.memory.heap ↔ x ∈ s.memory.heap ∨ x ∈ (a0 :: as).map Answer.address
  /-- The kernel entries are those of the parent. -/
  kernel : ∀ i < 4, s'.memory.words a0.address i = s.memory.words d i
  /-- What was skipped is what the block contained before. -/
  stale : ∀ i ∈ userTables, deflagAddr (s.memory.words d i) = 0 →
    s'.memory.words a0.address i = a0.contents i
  /-- The page tables of the child. -/
  tables : List.Forall₂ (TableGiven s.memory s'.memory d a0.address)
    (presentTables s.memory.words d userTables) as
  /-- The blocks are distinct. -/
  nodup : ((a0 :: as).map Answer.address).Nodup
  /-- Each page of the child has the next frame. -/
  frames : (presentPages s.memory.words d userTables).map
    (fun p => frameNo (entryOf s'.memory.words a0.address p)) = fs
  /-- It has the flags of the parent's. -/
  entries : ∀ p ∈ presentPages s.memory.words d userTables, entryOf s'.memory.words a0.address p
    = addFlag (frameNo (entryOf s'.memory.words a0.address p) * pageSize)
      (getFlag (entryOf s.memory.words d p))
  /-- No other word is written. -/
  others : ∀ x, x ∉ (a0 :: as).map Answer.address → s'.memory.words x = s.memory.words x
  /-- The new frames contain what those of the parent do, when these are in use. -/
  bytes : ∀ p ∈ presentPages s.memory.words d userTables,
    frameNo (entryOf s.memory.words d p) ∉ s.memory.frames.freeSet →
      s'.bytes (frameNo (entryOf s'.memory.words a0.address p))
        = s.bytes (frameNo (entryOf s.memory.words d p))
  /-- No other frame is written. -/
  other_bytes : ∀ f, f ∉ fs → s'.bytes f = s.bytes f

section
variable {s s' : PagedMem} {m m' m1 : PhysMem} {d b : Nat} {fs : List Nat} {entry : EntryInfo}

/-- The indices of the user entries. -/
theorem mem_userTables {i : Nat} : i ∈ userTables ↔ 4 ≤ i ∧ i < pageLen := by
  rw [userTables, List.mem_range'_1, pageLen]

/-- The page table of the entry that `find_free_entry` finds is there. -/
theorem findFreeEntry_table (call : findFreeEntry m d = some entry) :
    m.words d entry.pdIndex ≠ 0 := by
  obtain ⟨i, -, hfound⟩ := List.exists_of_findSome?_eq_some call
  simp only at hfound
  split at hfound
  · cases hfound
  · next hpde =>
      obtain ⟨j, -, rfl⟩ := Option.map_eq_some_iff.mp hfound
      exact fun e => hpde (by rw [e, deflagAddr_zero])

/-- The words when the kernel entries of the child have been copied. -/
theorem kernelEntries_copied (a : Answer) (rest : List Answer) (hda : d ≠ a.address) :
    ∃ words, (List.range 4).foldl (fun m i => m.write a.address i (m.words d i)) (m.given a rest)
        = { m.given a rest with words := words } ∧
      (∀ k, words a.address k = if k < 4 then m.words d k else a.contents k) ∧
      ∀ x, x ≠ a.address → words x = m.words x := by
  have hd : ∀ k, (m.given a rest).words d k = m.words d k := fun k =>
    congrFun (Function.update_of_ne hda ..) k
  obtain ⟨words, hfold, hnew⟩ := stores_spec (f := fun m i => m.words d i)
    (g := fun i => m.words d i) (m.given a rest) a.address (by
      intro m' i _ hw
      exact (hw _ _ hda).trans (hd i)) 4
  refine ⟨words, hfold, fun k => ?_, fun x hx => funext fun k => ?_⟩
  · rw [hnew]
    split_ifs with h1 h2 h2
    · rfl
    · exact absurd h1.2 h2
    · exact absurd ⟨rfl, h2⟩ h1
    · exact congrFun (Function.update_self ..) k
  · rw [hnew, if_neg fun e => hx e.1]
    exact congrFun (Function.update_of_ne hx ..) k

/-- **The new page directory of the child** has nothing to do with the page tables of the parent. -/
theorem Directory.beside (h : Directory m d) {a : Answer} (rest : List Answer)
    (hblock : IsBlock a.address) (hfresh : a.address ∉ m.heap) {words : Nat → Nat → Nat}
    (hother : ∀ x, x ≠ a.address → words x = m.words x) :
    SameSpace m.words words d ∧ Directory { m.given a rest with words := words } d ∧
      Elsewhere { m.given a rest with words := words } d a.address := by
  have hda : d ≠ a.address := fun e => hfresh (e ▸ h.mem)
  have hsame : SameSpace m.words words d := by
    refine ⟨fun k => congrFun (hother d hda) k, fun x hx hpde k => congrFun (hother _ ?_) k⟩
    exact fun e => hfresh (e ▸ h.table_mem x hx hpde)
  refine ⟨hsame, ?_, Finset.mem_insert_self .., hda.symm, fun x hx => ?_⟩
  · exact h.congr (hother d hda) (Finset.subset_insert ..)
      (fun e => (Finset.mem_insert.mp e).elim (fun e => hblock.1 e.symm) h.null) h.ordered
      h.first_frame
  · show words d x ≠ 0 → deflagAddr (words d x) ≠ a.address
    rw [hsame.dir]
    exact fun hpde e => hfresh (e ▸ h.table_mem x hx hpde)

/-- **The rule of the copy of an address space**, with contents: it comes to its end whenever the
copy without contents does. -/
theorem PagedMem.forked_of_call (h : Directory s.memory d) (hcr3 : s.memory.cr3 = d)
    (hfind : findFreeEntry s.memory d = some entry) (halloc : s.memory.memalign = some (b, m1))
    (hb : b ≠ 0) (call : Memory.copySpace d entry b m1 = some (true, m')) :
    ∃ s' a0 as fs, PagedMem.copySpace d entry b ⟨m1, s.bytes⟩ = some (true, s') ∧ s'.memory = m' ∧
      a0.address = b ∧ Forked s s' d a0 as fs := by
  obtain ⟨a0, rest, hanswers, rfl, hblock, hfresh, rfl⟩ := memalign_block halloc hb
  have hda : d ≠ a0.address := fun e => hfresh (e ▸ h.mem)
  obtain ⟨words, hfold, hself, hother⟩ := kernelEntries_copied (m := s.memory) a0 rest hda
  have hheap : s.memory.heap ⊆ insert a0.address s.memory.heap := Finset.subset_insert ..
  let s0 : PagedMem := ⟨{ s.memory.given a0 rest with words := words }, s.bytes⟩
  obtain ⟨hsame, hdirectory, helse⟩ : SameSpace s.memory.words s0.memory.words d ∧
      Directory s0.memory d ∧ Elsewhere s0.memory d a0.address := h.beside rest hblock hfresh hother
  have hrange : ∀ x ∈ userTables, x < pageLen := fun x hx => (mem_userTables.mp hx).2
  rw [Memory.copySpace, hfold] at call
  obtain ⟨s', as, fs, hloop, hmem, hcopied⟩ := spaceCopied_of_call (s := s0)
    hdirectory hcr3 (by rw [hsame.dir]; exact findFreeEntry_table hfind) helse hrange
    List.nodup_range' call
  refine ⟨s', a0, as, fs, ?_, hmem, rfl, ?_⟩
  · rw [PagedMem.copySpace, hfold]
    exact hloop
  have htables := hsame.presentTables userTables
  have hpages := hsame.presentPages hrange
  have hlt : ∀ p ∈ presentPages s.memory.words d userTables, p.1 < pageLen := fun p hp =>
    hrange p.1 (mem_presentPages.mp hp).1
  -- the block of the page directory is none of those of the page tables
  have hnotMem : a0.address ∉ as.map Answer.address :=
    hcopied.notMem (Finset.mem_insert_self ..)
  have hothers : ∀ x, x ∉ (a0 :: as).map Answer.address →
      s'.memory.words x = s.memory.words x := by
    intro x hx
    obtain ⟨hxa, hxas⟩ := not_or.mp (List.mem_cons.not.mp hx)
    rw [← hother x hxa]
    exact funext fun k => hcopied.others x k hxas fun e => hxa e.1
  have hpd : ∀ k, k ∉ presentTables s.memory.words d userTables →
      s'.memory.words a0.address k = if k < 4 then s.memory.words d k else a0.contents k := by
    intro k hk
    rw [← hself]
    exact hcopied.others _ k hnotMem fun e => hk (htables ▸ e.2)
  refine ⟨h.sameSpace fun x hx _ => hothers x fun hmem' => ?_, hcopied.takes, ?_, hcopied.cr3,
    hblock, hfresh, fun x => ?_, fun i hi => ?_, fun i hi hzero => ?_, ?_,
    List.nodup_cons.mpr ⟨hnotMem, hcopied.nodup⟩, ?_, fun p hp => ?_, hothers, fun p hp hused => ?_,
    hcopied.other_bytes⟩
  · rcases List.mem_cons.mp hmem' with rfl | hmem'
    · exact hfresh hx
    · exact hcopied.notMem (hheap hx) hmem'
  · have hrest : rest = as ++ s'.memory.answers := hcopied.answers
    rw [hanswers, List.cons_append, hrest]
  · rw [hcopied.heap, List.map_cons, List.mem_cons]
    show x ∈ insert a0.address s.memory.heap ∨ _ ↔ _
    rw [Finset.mem_insert, or_assoc, or_left_comm]
  · rw [hpd i fun hmem' => ?_, if_pos hi]
    have hrange' := (mem_userTables.mp (mem_presentTables.mp hmem').1).1
    omega
  · rw [hpd i fun hmem' => (mem_presentTables.mp hmem').2 hzero, if_neg]
    have hrange' := (mem_userTables.mp hi).1
    omega
  · have hgiven := hcopied.tables
    rw [htables] at hgiven
    have hboth := (List.forall₂_and_left
      (p := fun x => x ∈ presentTables s.memory.words d userTables) _ _).mpr
        ⟨fun _ hx => hx, hgiven⟩
    refine hboth.imp fun x a hx => ?_
    obtain ⟨hmem', hpde⟩ := mem_presentTables.mp hx.1
    exact hx.2.earlier hsame hheap (hrange x hmem') fun e => hpde (by rw [e, deflagAddr_zero])
  · rw [← hpages]
    exact hcopied.frames
  · have hentry := hcopied.entries p (by rw [hpages]; exact hp)
    rwa [hsame.entryOf (hlt p hp)] at hentry
  · have hbytes := hcopied.bytes p (by rw [hpages]; exact hp)
    rw [hsame.entryOf (hlt p hp)] at hbytes
    exact hbytes hused

end

/-! ## The system call -/

/-- **A `sys_fork` that makes a child** has copied the address space of the parent. -/
theorem Vm.forked_of_sysFork {s s' : Vm} {a : AddressSpace} {r : Int}
    (hd : Directory s.memory a.pd) (hcr3 : s.memory.cr3 = a.pd) (ha : s.currentSpace = some a)
    (call : s.sysFork = some (s', r)) (hr : r ≠ -1) (bytes : Nat → Nat → UInt8) :
    ∃ t a0 as fs, s'.memory = t.memory ∧ r = s.nextPid ∧
      s'.spaces s.nextPid = some ⟨a0.address, [], [], false, true⟩ ∧
      Forked ⟨s.memory, bytes⟩ t a.pd a0 as fs := by
  rw [Vm.sysFork, ha, Option.bind_some] at call
  split at call
  · obtain ⟨-, rfl⟩ := Prod.mk.inj (Option.some.inj call)
    exact absurd rfl hr
  · next entry hfind =>
      obtain ⟨⟨b, m1⟩, halloc, hrest⟩ := Option.bind_eq_some_iff.mp call
      simp only at hrest
      split at hrest
      · obtain ⟨-, rfl⟩ := Prod.mk.inj (Option.some.inj hrest)
        exact absurd rfl hr
      · next hb =>
          obtain ⟨⟨done, m'⟩, hcopy, hres⟩ := Option.map_eq_some_iff.mp hrest
          obtain ⟨rfl, rfl⟩ := Prod.mk.inj hres
          cases done with
          | false => exact absurd rfl hr
          | true =>
              obtain ⟨t, a0, as, fs, -, rfl, rfl, hforked⟩ := PagedMem.forked_of_call
                (s := ⟨s.memory, bytes⟩) hd hcr3 hfind halloc hb hcopy
              exact ⟨t, a0, as, fs, rfl, rfl, Function.update_self .., hforked⟩

end Pebbles.Memory
