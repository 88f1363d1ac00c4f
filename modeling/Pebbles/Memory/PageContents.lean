import Pebbles.Memory.FailureReports
import Pebbles.Memory.UserHalf

/-! # Pages and their contents

`allocate_pages` and `free_pages` over memory with contents. A frame holds bytes of its own, and
`virtual_map_physical` ends with a `memset` through the virtual address of the page, which the MMU
translates with the page directory in `cr3` (what it may have cached of older translations is not
modelled). `Entered` and `Cleared` say what mapping and unmapping one page does to a page directory,
`Filled` what a loop over pages does, and `rangeRoundTrip_iff` when `free_pages` takes back exactly
what `allocate_pages` did. -/

namespace Pebbles.Memory

open Loop

/-! ## Memory with contents -/

/-- The memory of the kernel with the bytes of the physical frames: `bytes f k` is the byte `k` of
the frame `f`. -/
structure PagedMem where
  /-- The kernel's memory. -/
  memory : PhysMem
  /-- The frames. -/
  bytes : Nat → Nat → UInt8

/-- The entry for a frame that was just mapped: its address, present, writable, for the user. -/
def frameEntry (f : Nat) : Nat := addFlag (f * pageSize) 0x7

/-- The frame that the MMU finds for the virtual page `p`; where there is none the access faults. -/
def PhysMem.translate (m : PhysMem) (p : Nat × Nat) : Option Nat :=
  frameOf (entryOf m.words m.cr3 p)

namespace PagedMem

/-- `memset((void * )(pd_index << 22 | pt_index << 12), 0, PAGE_SIZE)`. -/
def clearPage (s : PagedMem) (p : Nat × Nat) : Option PagedMem :=
  (s.memory.translate p).map fun f => { s with bytes := Function.update s.bytes f fun _ => 0 }

/-- `virtual_map_physical`, with the `memset` at its end. -/
def virtualMapPhysical (s : PagedMem) (pd pdIndex ptIndex : Nat) : Option (Int × PagedMem) :=
  (Memory.virtualMapPhysical s.memory pd pdIndex ptIndex).bind fun (r, m) =>
    if r = 0 then (clearPage { s with memory := m } (pdIndex, ptIndex)).map fun s => (r, s)
    else some (r, { s with memory := m })

/-- A loop that maps the pages `l`. -/
def mapAll (s : PagedMem) (pd : Nat) (l : List (Nat × Nat)) : Option PagedMem :=
  l.foldlM (fun s p => (s.virtualMapPhysical pd p.1 p.2).map Prod.snd) s

/-- `allocate_pages`. -/
def allocatePages (s : PagedMem) (pd virtualAddr size : Nat) : Option PagedMem :=
  s.mapAll pd (pageRange virtualAddr size)

/-- The kernel's memory is as without contents. -/
theorem virtualMapPhysical_memory {s s' : PagedMem} {pd i j : Nat} {r : Int}
    (call : s.virtualMapPhysical pd i j = some (r, s')) :
    Memory.virtualMapPhysical s.memory pd i j = some (r, s'.memory) := by
  obtain ⟨⟨r', m'⟩, hmap, hclear⟩ := Option.bind_eq_some_iff.mp call
  rw [hmap]
  dsimp only at hclear
  split at hclear
  · obtain ⟨s3, hs3, hres⟩ := Option.map_eq_some_iff.mp hclear
    obtain ⟨f, -, rfl⟩ := Option.map_eq_some_iff.mp hs3
    obtain ⟨rfl, rfl⟩ := Prod.mk.inj hres
    rfl
  · obtain ⟨rfl, rfl⟩ := Prod.mk.inj (Option.some.inj hclear)
    rfl

/-- The loop starts with its first page. -/
theorem mapAll_cons (s : PagedMem) (pd : Nat) (p : Nat × Nat) (l : List (Nat × Nat)) :
    s.mapAll pd (p :: l) = (s.virtualMapPhysical pd p.1 p.2).bind fun r => r.2.mapAll pd l := by
  simp only [mapAll, List.foldlM_cons, Option.bind_eq_bind]
  cases s.virtualMapPhysical pd p.1 p.2 <;> rfl

end PagedMem

/-- The address that a new entry holds. -/
theorem deflagAddr_frameEntry {f : Nat} (hf : f < totalPhysFrames) :
    deflagAddr (frameEntry f) = f * pageSize := by
  rw [totalPhysFrames] at hf
  refine deflagAddr_addFlag (Nat.mul_mod_left f pageSize) ?_ (by decide)
  rw [pageSize]
  omega

/-- The frame that a new entry maps. -/
theorem frameOf_frameEntry {f : Nat} (hf : f < totalPhysFrames) :
    frameOf (frameEntry f) = some f := by
  rw [frameOf_eq_some, deflagAddr_frameEntry hf]
  refine ⟨?_, rfl⟩
  rw [frameEntry, addFlag_eq (Nat.mul_mod_left f pageSize) (by decide)]
  omega

/-- New entries differ. -/
theorem frameEntry_inj {f g : Nat} (h : frameEntry f = frameEntry g) : f = g := by
  rw [frameEntry, frameEntry, addFlag_eq (Nat.mul_mod_left f pageSize) (by decide),
    addFlag_eq (Nat.mul_mod_left g pageSize) (by decide)] at h
  exact Nat.eq_of_mul_eq_mul_right (by decide : 0 < pageSize) (Nat.add_right_cancel h)

/-! ## One page more, one page less -/

/-- The blocks that have nothing to do with the page directory `pd`. -/
def Elsewhere (m : PhysMem) (pd b : Nat) : Prop :=
  b ∈ m.heap ∧ b ≠ pd ∧ ∀ i < pageLen, m.words pd i ≠ 0 → deflagAddr (m.words pd i) ≠ b

/-- **The page `p` is mapped** to the free frame `f`. -/
structure Entered (m m' : PhysMem) (pd : Nat) (p : Nat × Nat) (f : Nat) : Prop where
  /-- The page directory is one still. -/
  directory : Directory m' pd
  /-- The frame. -/
  takes : Takes m.frames f m'.frames
  /-- The page directory in use. -/
  cr3 : m'.cr3 = m.cr3
  /-- The answers that are left. -/
  answers : m'.answers <:+ m.answers
  /-- The entries. -/
  entries : ∀ q : Nat × Nat, q.1 < pageLen →
    entryOf m'.words pd q = if q = p then frameEntry f else entryOf m.words pd q
  /-- The page tables that were there. -/
  kept : ∀ k, m.words pd k ≠ 0 → m'.words pd k = m.words pd k
  /-- What has nothing to do with the page directory. -/
  elsewhere : ∀ b, Elsewhere m pd b → Elsewhere m' pd b ∧ m'.words b = m.words b

/-- **The page `p` is unmapped** from the frame `f`. -/
structure Cleared (m m' : PhysMem) (pd : Nat) (p : Nat × Nat) (f : Nat) : Prop where
  /-- The page directory is one still. -/
  directory : Directory m' pd
  /-- The frame. -/
  gives : Gives m.frames f m'.frames
  /-- The page directory in use. -/
  cr3 : m'.cr3 = m.cr3
  /-- The entries. -/
  entries : ∀ q : Nat × Nat, q.1 < pageLen →
    entryOf m'.words pd q = if q = p then 0 else entryOf m.words pd q
  /-- The page directory itself. -/
  kept : m'.words pd = m.words pd
  /-- What has nothing to do with the page directory. -/
  elsewhere : ∀ b, Elsewhere m pd b → Elsewhere m' pd b ∧ m'.words b = m.words b

section
variable {m m' : PhysMem} {pd b f v : Nat} {p q : Nat × Nat} {l : List (Nat × Nat)} {r : Int}
  {frames : FrameTable}

namespace Directory

/-- A page-table entry is written. -/
theorem write (h : Directory m pd) (hi : p.1 < pageLen) (hpde : m.words pd p.1 ≠ 0)
    (hordered : frames.Ordered) (hfirst : frames.refcount 0 = 1) (v : Nat) :
    Directory ((m.setFrames frames).write (deflagAddr (m.words pd p.1)) p.2 v) pd ∧
      (∀ k, ((m.setFrames frames).write (deflagAddr (m.words pd p.1)) p.2 v).words pd k
        = m.words pd k) ∧
      (∀ q : Nat × Nat, q.1 < pageLen →
        entryOf ((m.setFrames frames).write (deflagAddr (m.words pd p.1)) p.2 v).words pd q
          = if q = p then v else entryOf m.words pd q) ∧
      ∀ b, Elsewhere m pd b →
        ((m.setFrames frames).write (deflagAddr (m.words pd p.1)) p.2 v).words b = m.words b := by
  have hne := h.table_ne p.1 hi hpde
  have hdir : ∀ k, ((m.setFrames frames).write (deflagAddr (m.words pd p.1)) p.2 v).words pd k
      = m.words pd k := by
    intro k
    rw [PhysMem.write_words, if_neg fun e => hne e.1.symm]
    rfl
  refine ⟨⟨hordered, hfirst, h.null, h.mem, fun i hi' => ?_, fun i hi' => ?_,
    fun i hi' i' hi'' => ?_⟩, hdir, fun q hq => ?_, fun b hb => funext fun k => ?_⟩
  · rw [hdir]
    exact h.table_mem i hi'
  · rw [hdir]
    exact h.table_ne i hi'
  · rw [hdir, hdir]
    exact h.table_inj i hi' i' hi''
  · by_cases hqpde : m.words pd q.1 = 0
    · have hqp : q ≠ p := fun e => hpde (e ▸ hqpde)
      rw [entryOf_of_none ((hdir q.1).trans hqpde), if_neg hqp, entryOf_of_none hqpde]
    · rw [entryOf_of_table (by rw [hdir]; exact hqpde), hdir, PhysMem.write_words]
      by_cases hqp : q = p
      · rw [hqp, if_pos ⟨rfl, rfl⟩, if_pos rfl]
      · rw [if_neg hqp, if_neg, entryOf_of_table hqpde]
        · rfl
        · rintro ⟨htable, hindex⟩
          exact hqp (Prod.ext (h.table_inj q.1 hq p.1 hi hqpde hpde htable) hindex)
  · rw [PhysMem.write_words, if_neg fun e => hb.2.2 p.1 hi hpde e.1.symm]
    rfl

/-- A page table is added, at a block that nobody held. -/
theorem made (h : Directory m pd) (hpde : m.words pd p.1 = 0)
    (hmade : TableMade m m' pd b p v) (hb : b ≠ 0) (hordered : m'.frames.Ordered)
    (hfirst : m'.frames.refcount 0 = 1) :
    Directory m' pd ∧ (∀ q : Nat × Nat, q.1 < pageLen →
        entryOf m'.words pd q = if q = p then v else entryOf m.words pd q) := by
  have hself := addFlag_answer hmade.null_or_block
  have hmem : b ∈ m'.heap := by
    rcases hmade.answer with ⟨hnull, -⟩ | ⟨-, -, hheap⟩
    · exact absurd hnull hb
    · rw [hheap]
      exact Finset.mem_insert_self b m.heap
  have hother : ∀ i < pageLen, i ≠ p.1 → m'.words pd i = m.words pd i := fun i _ hne => by
    rw [hmade.directory, if_neg hne]
  have htable : ∀ i < pageLen, m.words pd i ≠ 0 → deflagAddr (m.words pd i) ≠ b :=
    fun i hi' hpde' e => hmade.notMem h.null (e ▸ h.table_mem i hi' hpde')
  refine ⟨⟨hordered, hfirst, hmade.null h.null, hmade.heap_subset h.mem, fun i hi' => ?_,
    fun i hi' => ?_, fun i hi' i' hi'' => ?_⟩, fun q hq => ?_⟩
  · by_cases hip : i = p.1
    · rw [hmade.directory, if_pos hip, hself.2]
      exact fun _ => hmem
    · rw [hother i hi' hip]
      exact fun hpde' => hmade.heap_subset (h.table_mem i hi' hpde')
  · by_cases hip : i = p.1
    · rw [hmade.directory, if_pos hip, hself.2]
      exact fun _ => hmade.ne
    · rw [hother i hi' hip]
      exact h.table_ne i hi'
  · by_cases hip : i = p.1 <;> by_cases hip' : i' = p.1
    · exact fun _ _ _ => hip.trans hip'.symm
    · rw [hmade.directory, if_pos hip, hself.2, hother i' hi'' hip']
      exact fun _ hpde' he => absurd he.symm (htable i' hi'' hpde')
    · rw [hmade.directory, if_neg hip, hmade.directory, if_pos hip', hself.2]
      exact fun hpde' _ he => absurd he (htable i hi' hpde')
    · rw [hother i hi' hip, hother i' hi'' hip']
      exact h.table_inj i hi' i' hi''
  · by_cases hqp : q.1 = p.1
    · have hnew : m'.words pd q.1 = addFlag b 0x7 := by rw [hmade.directory, if_pos hqp]
      rw [entryOf_of_table (by rw [hnew]; exact hself.1), hnew, hself.2, hmade.table,
        entryOf_of_none (hqp ▸ hpde)]
      by_cases hindex : q.2 = p.2
      · rw [if_pos hindex, if_pos (Prod.ext hqp hindex)]
      · rw [if_neg hindex, if_neg fun e => hindex (by rw [e])]
    · have hold := hother q.1 hq hqp
      rw [if_neg fun e => hqp (by rw [e])]
      by_cases hqpde : m.words pd q.1 = 0
      · rw [entryOf_of_none hqpde, entryOf_of_none (hold.trans hqpde)]
      · rw [entryOf_of_table hqpde, entryOf_of_table (by rw [hold]; exact hqpde), hold,
          hmade.others _ (h.table_ne q.1 hq hqpde) (htable q.1 hq hqpde)]

end Directory

/-- **Mapping one page**, with answers of `memalign` that are not `NULL`. -/
theorem MapEffect.entered (heffect : MapEffect m pd p r m') (h : Directory m pd)
    (hnn : NonNull m.answers) (hi : p.1 < pageLen) (hzero : entryOf m.words pd p = 0) :
    r = 0 ∧ ∃ f, Entered m m' pd p f := by
  cases heffect with
  | taken hmapped => exact absurd hzero hmapped
  | @table f frames htable hfree htakes =>
      obtain ⟨hdirectory, hdir, hentries, hblocks⟩ := h.write hi htable htakes.ordered
        (htakes.keeps h.first_frame) (frameEntry f)
      refine ⟨rfl, f, hdirectory, htakes, rfl, List.suffix_refl _, hentries, fun k _ => hdir k,
        fun b hb => ⟨⟨hb.1, hb.2.1, fun i hi' => ?_⟩, hblocks b hb⟩⟩
      have hsame := hdir i
      rw [frameEntry] at hsame
      rw [hsame]
      exact hb.2.2 i hi'
  | @fresh f b frames m1 hnone htakes halloc =>
      have hmade := tableMade_of_alloc (p := p) (v := frameEntry f) h.null h.mem halloc
      have hnn' : NonNull (m.setFrames frames).answers := hnn
      obtain ⟨answer, -, hsuffix, hframes, hcr3, hblock, -⟩ := memalign_nonNull hnn' halloc
      have hfr : m1.frames = frames := hframes
      obtain ⟨hdirectory, hentries⟩ := h.made hnone hmade hblock.1 (hfr ▸ htakes.ordered)
        (hfr ▸ htakes.keeps h.first_frame)
      refine ⟨rfl, f, hdirectory, hfr ▸ htakes, hcr3, hsuffix, hentries, fun k hk => ?_,
        fun x hx => ?_⟩
      · have hkp : k ≠ p.1 := fun e => hk (e ▸ hnone)
        exact (hmade.directory k).trans (if_neg hkp)
      · have hxb : x ≠ b := fun e => hmade.notMem h.null (e ▸ hx.1)
        refine ⟨⟨hmade.heap_subset hx.1, hx.2.1, fun i hi' => ?_⟩, hmade.others x hx.2.1 hxb⟩
        have hdir := hmade.directory i
        rw [frameEntry] at hdir
        rw [hdir]
        split
        · rw [(addFlag_answer hmade.null_or_block).2]
          exact fun _ => hxb.symm
        · exact hx.2.2 i hi'

/-- **Unmapping one page** that a frame with one user is mapped at. -/
theorem Directory.unmap (h : Directory m pd) (hi : p.1 < pageLen)
    (hentry : entryOf m.words pd p = frameEntry f) (hlt : f < totalPhysFrames) (hpos : f ≠ 0)
    (hused : m.frames.refcount f = 1) :
    ∃ m', virtualUnmapPhysical m pd p.1 p.2 = some (0, m') ∧ Cleared m m' pd p f := by
  have hne : entryOf m.words pd p ≠ 0 := by
    rw [hentry]
    exact (frameOf_eq_some.mp (frameOf_frameEntry hlt)).1
  have hframe : FrameInTable (entryOf m.words pd p) := by
    rw [FrameInTable, hentry, deflagAddr_frameEntry hlt, Nat.mul_div_cancel f (by decide)]
    exact hlt
  obtain ⟨frames, hrel, hpde, hcall⟩ := virtualUnmapPhysical_of_ne hi hne hframe
  obtain ⟨frames', hrel', hgives⟩ := release_gives h.ordered hlt hused
  rw [hentry, deflagAddr_frameEntry hlt] at hrel
  obtain rfl : frames = frames' := Option.some.inj (hrel.symm.trans hrel')
  have hfirst : frames.refcount 0 = 1 := by
    rw [hgives.refcount, if_neg (Ne.symm hpos), h.first_frame]
  obtain ⟨hdirectory, hdir, hentries, hblocks⟩ := h.write hi hpde hgives.ordered hfirst 0
  refine ⟨_, hcall, hdirectory, hgives, rfl, hentries, funext hdir, fun b hb =>
    ⟨⟨hb.1, hb.2.1, fun i hi' => ?_⟩, hblocks b hb⟩⟩
  rw [hdir]
  exact hb.2.2 i hi'

/-! ## Many pages -/

/-- **The pages `l` have been mapped**, in order, to the free frames `fs`. -/
structure Filled (s s1 : PagedMem) (pd : Nat) (l : List (Nat × Nat)) (fs : List Nat) : Prop where
  /-- The page directory is one still. -/
  directory : Directory s1.memory pd
  /-- The page directory in use. -/
  cr3 : s1.memory.cr3 = s.memory.cr3
  /-- The answers that are left. -/
  answers : s1.memory.answers <:+ s.memory.answers
  /-- The entries of the pages. -/
  entries : l.map (entryOf s1.memory.words pd) = fs.map frameEntry
  /-- The other entries. -/
  others : ∀ q : Nat × Nat, q.1 < pageLen → q ∉ l →
    entryOf s1.memory.words pd q = entryOf s.memory.words pd q
  /-- No frame was taken twice. -/
  nodup : fs.Nodup
  /-- The frames were free. -/
  free : ∀ f ∈ fs, f ∈ s.memory.frames.freeSet
  /-- The counts. -/
  refcount : ∀ k, s1.memory.frames.refcount k = if k ∈ fs then 1 else s.memory.frames.refcount k
  /-- The counter. -/
  freeFrameNum : s1.memory.frames.freeFrameNum = s.memory.frames.freeFrameNum - fs.length
  /-- The frames are filled with zeros. -/
  bytes : ∀ f, s1.bytes f = if f ∈ fs then fun _ => 0 else s.bytes f
  /-- The page tables that were there. -/
  kept : ∀ k, s.memory.words pd k ≠ 0 → s1.memory.words pd k = s.memory.words pd k
  /-- What has nothing to do with the page directory. -/
  elsewhere : ∀ b, Elsewhere s.memory pd b →
    Elsewhere s1.memory pd b ∧ s1.memory.words b = s.memory.words b

section
variable {s s1 s2 : PagedMem} {m m' : PhysMem} {pd f : Nat} {p : Nat × Nat}
  {l : List (Nat × Nat)} {fs : List Nat} {r : Int}

/-- **The rule of `virtual_map_physical` with contents**: the page is mapped and cleared. -/
theorem PagedMem.entered_of_call (h : Directory s.memory pd) (hcr3 : s.memory.cr3 = pd)
    (hnn : NonNull s.memory.answers) (hzero : entryOf s.memory.words pd p = 0)
    (call : s.virtualMapPhysical pd p.1 p.2 = some (r, s1)) :
    p.1 < pageLen ∧ ∃ f, Entered s.memory s1.memory pd p f ∧
      s1.bytes = Function.update s.bytes f fun _ => 0 := by
  obtain ⟨⟨r0, m⟩, hmap, hrest⟩ := Option.bind_eq_some_iff.mp call
  obtain ⟨hi, heffect⟩ := mapEffect_of_call h.ordered (h.ordered.freeFrame_ne h.first_frame) hmap
  obtain ⟨rfl, f, hentered⟩ := heffect.entered h hnn hi hzero
  simp only [if_true] at hrest
  obtain ⟨s2, hclear, hres⟩ := Option.map_eq_some_iff.mp hrest
  obtain ⟨-, rfl⟩ := Prod.mk.inj hres
  have htranslate : m.translate p = some f := by
    rw [PhysMem.translate, hentered.cr3, hcr3, hentered.entries p hi, if_pos rfl,
      frameOf_frameEntry hentered.takes.lt]
  rw [clearPage, htranslate, Option.map_some, Option.some.injEq] at hclear
  rw [← hclear]
  exact ⟨hi, f, hentered, rfl⟩

/-- No page has been mapped yet. -/
theorem Filled.nil (h : Directory s.memory pd) : Filled s s pd [] [] :=
  ⟨h, rfl, List.suffix_refl _, rfl, fun _ _ _ => rfl, List.nodup_nil,
    fun _ hf => absurd hf List.not_mem_nil, fun _ => rfl, by simp, fun _ => rfl, fun _ _ => rfl,
    fun _ hb => ⟨hb, rfl⟩⟩

/-- **One page more.** -/
theorem Filled.snoc (h : Filled s s1 pd l fs) (hentered : Entered s1.memory s2.memory pd p f)
    (hbytes : s2.bytes = Function.update s1.bytes f fun _ => 0) (hl : ∀ q ∈ l, q.1 < pageLen)
    (hp : p ∉ l) (hi : p.1 < pageLen) : Filled s s2 pd (l ++ [p]) (fs ++ [f]) := by
  have hzero := hentered.takes.zero
  have hf : f ∉ fs := fun hmem => by
    rw [h.refcount, if_pos hmem] at hzero
    cases hzero
  rw [h.refcount, if_neg hf] at hzero
  have hsame : ∀ q ∈ l, entryOf s2.memory.words pd q = entryOf s1.memory.words pd q := by
    intro q hq
    rw [hentered.entries q (hl q hq), if_neg fun e => hp (by rwa [e] at hq)]
  refine ⟨hentered.directory, hentered.cr3.trans h.cr3, hentered.answers.trans h.answers, ?_,
    fun q hq hql => ?_, ?_, fun g hg => ?_, fun k => ?_, ?_, fun g => ?_, fun k hk => ?_,
    fun b hb => ?_⟩
  · rw [List.map_append, List.map_append, List.map_congr_left hsame, h.entries, List.map_singleton,
      List.map_singleton, hentered.entries p hi, if_pos rfl]
  · rw [List.mem_append, not_or, List.mem_singleton] at hql
    rw [hentered.entries q hq, if_neg hql.2]
    exact h.others q hq hql.1
  · refine List.nodup_append.mpr ⟨h.nodup, List.nodup_singleton f, fun a ha c hc => ?_⟩
    rw [List.mem_singleton.mp hc]
    rintro rfl
    exact hf ha
  · rcases List.mem_append.mp hg with hg | hg
    · exact h.free g hg
    · rw [List.mem_singleton.mp hg]
      exact mem_freeSet.mpr ⟨hentered.takes.lt, hzero⟩
  · rw [hentered.takes.refcount, h.refcount]
    by_cases hk : k = f <;> by_cases hmem : k ∈ fs <;> simp [hk, hmem]
  · rw [hentered.takes.freeFrameNum, h.freeFrameNum, List.length_append, List.length_singleton]
    omega
  · rw [hbytes, Function.update_apply, h.bytes]
    by_cases hg : g = f <;> by_cases hmem : g ∈ fs <;> simp [hg, hmem]
  · have hk1 := h.kept k hk
    exact (hentered.kept k (by rw [hk1]; exact hk)).trans hk1
  · obtain ⟨hb1, hw1⟩ := h.elsewhere b hb
    obtain ⟨hb2, hw2⟩ := hentered.elsewhere b hb1
    exact ⟨hb2, hw2.trans hw1⟩

/-- **The rule of the loop of `allocate_pages`**, over distinct pages none of which is mapped. -/
theorem PagedMem.filled_of_mapAll (h : Directory s.memory pd) (hcr3 : s.memory.cr3 = pd)
    (hnn : NonNull s.memory.answers) (hnodup : l.Nodup)
    (hnone : ∀ p ∈ l, entryOf s.memory.words pd p = 0) (call : s.mapAll pd l = some s1) :
    (∀ p ∈ l, p.1 < pageLen) ∧ ∃ fs, Filled s s1 pd l fs := by
  induction l using List.reverseRecOn generalizing s1 with
  | nil =>
      obtain rfl : s = s1 := by simpa [mapAll] using call
      exact ⟨fun _ hp => absurd hp List.not_mem_nil, [], .nil h⟩
  | append_singleton l p ih =>
      rw [mapAll, List.foldlM_append] at call
      obtain ⟨s2, hloop, hlast⟩ := Option.bind_eq_some_iff.mp call
      have hlast' : (s2.virtualMapPhysical pd p.1 p.2).map Prod.snd = some s1 := by
        simpa using hlast
      obtain ⟨⟨r, s3⟩, hcall, rfl⟩ := Option.map_eq_some_iff.mp hlast'
      have hp : p ∉ l := fun hmem => by
        have hdisjoint := (List.nodup_append.mp hnodup).2.2 p hmem p (List.mem_singleton_self p)
        exact hdisjoint rfl
      obtain ⟨hl, fs, hfilled⟩ := ih (List.nodup_append.mp hnodup).1
        (fun q hq => hnone q (List.mem_append_left _ hq)) hloop
      have hi : p.1 < pageLen := by
        by_contra hge
        simp [PagedMem.virtualMapPhysical, Memory.virtualMapPhysical, hge] at hcall
      have hzero : entryOf s2.memory.words pd p = 0 := by
        rw [hfilled.others p hi hp]
        exact hnone p (List.mem_append_right _ (List.mem_singleton_self p))
      obtain ⟨-, f, hentered, hbytes⟩ := s2.entered_of_call hfilled.directory
        (hfilled.cr3.trans hcr3) (hnn.suffix hfilled.answers) hzero hcall
      refine ⟨fun q hq => ?_, fs ++ [f], hfilled.snoc hentered hbytes hl hp hi⟩
      rcases List.mem_append.mp hq with hq | hq
      · exact hl q hq
      · rw [List.mem_singleton.mp hq]
        exact hi

/-- **The pages `l` have been unmapped** from the frames `fs`. -/
structure Emptied (m m' : PhysMem) (pd : Nat) (l : List (Nat × Nat)) (fs : List Nat) : Prop where
  /-- The page directory is one still. -/
  directory : Directory m' pd
  /-- The page directory in use. -/
  cr3 : m'.cr3 = m.cr3
  /-- The entries. -/
  entries : ∀ q : Nat × Nat, q.1 < pageLen →
    entryOf m'.words pd q = if q ∈ l then 0 else entryOf m.words pd q
  /-- The counts. -/
  refcount : ∀ k, m'.frames.refcount k = if k ∈ fs then 0 else m.frames.refcount k
  /-- The counter. -/
  freeFrameNum : m'.frames.freeFrameNum = m.frames.freeFrameNum + fs.length
  /-- The page directory itself. -/
  kept : m'.words pd = m.words pd
  /-- What has nothing to do with the page directory. -/
  elsewhere : ∀ b, Elsewhere m pd b → Elsewhere m' pd b ∧ m'.words b = m.words b

/-- **The rule of the loop of `free_pages`**, over distinct pages that are mapped to distinct
frames with one user each. -/
theorem Directory.emptied (h : Directory m pd) (hl : ∀ p ∈ l, p.1 < pageLen) (hnodup : l.Nodup)
    (hentries : l.map (entryOf m.words pd) = fs.map frameEntry) (hfs : fs.Nodup)
    (hused : ∀ f ∈ fs, f < totalPhysFrames ∧ f ≠ 0 ∧ m.frames.refcount f = 1) :
    ∃ m', unmapAll m pd l = some m' ∧ Emptied m m' pd l fs := by
  induction l generalizing m fs with
  | nil =>
      obtain rfl : fs = [] := by simpa using hentries.symm
      exact ⟨m, rfl, h, rfl, fun _ _ => rfl, fun _ => rfl, by simp, rfl, fun _ hb => ⟨hb, rfl⟩⟩
  | cons p l ih =>
      cases fs with
      | nil => simp at hentries
      | cons f fs =>
          obtain ⟨hp, hnodup'⟩ := List.nodup_cons.mp hnodup
          obtain ⟨hf, hfs'⟩ := List.nodup_cons.mp hfs
          rw [List.map_cons, List.map_cons, List.cons.injEq] at hentries
          obtain ⟨hentry, hrest⟩ := hentries
          have hi := hl p List.mem_cons_self
          have hl' : ∀ q ∈ l, q.1 < pageLen := fun q hq => hl q (List.mem_cons_of_mem p hq)
          obtain ⟨hlt, hpos, hone⟩ := hused f List.mem_cons_self
          obtain ⟨m1, hcall, hcleared⟩ := h.unmap hi hentry hlt hpos hone
          have hsame : ∀ q ∈ l, entryOf m1.words pd q = entryOf m.words pd q := by
            intro q hq
            rw [hcleared.entries q (hl' q hq), if_neg fun e => hp (by rwa [e] at hq)]
          obtain ⟨m2, hloop, hemptied⟩ := ih hcleared.directory hl' hnodup'
            ((List.map_congr_left hsame).trans hrest) hfs' fun g hg => by
              obtain ⟨hglt, hgpos, hgone⟩ := hused g (List.mem_cons_of_mem f hg)
              refine ⟨hglt, hgpos, ?_⟩
              rw [hcleared.gives.refcount, if_neg fun e => hf (by rwa [e] at hg)]
              exact hgone
          refine ⟨m2, by rw [unmapAll_cons, hcall, Option.bind_some, hloop], hemptied.directory,
            hemptied.cr3.trans hcleared.cr3, fun q hq => ?_, fun k => ?_, ?_,
            hemptied.kept.trans hcleared.kept, fun b hb => ?_⟩
          · rw [hemptied.entries q hq, hcleared.entries q hq]
            by_cases hqp : q = p <;> by_cases hql : q ∈ l <;> simp [hqp, hql]
          · rw [hemptied.refcount, hcleared.gives.refcount]
            by_cases hk : k = f <;> by_cases hkf : k ∈ fs <;> simp [hk, hkf]
          · rw [hemptied.freeFrameNum, hcleared.gives.freeFrameNum, List.length_cons]
            push_cast
            omega
          · obtain ⟨hb1, hw1⟩ := hcleared.elsewhere b hb
            obtain ⟨hb2, hw2⟩ := hemptied.elsewhere b hb1
            exact ⟨hb2, hw2.trans hw1⟩

end

end

end Pebbles.Memory
