import Pebbles.Memory.Isolation

/-! # The user half of the address space

Nothing in `sys_new_pages` tests whether the requested range wraps around at `2^32`. What keeps it
from wrapping is that the top page of the stack is mapped in every address space, and that no
region in a list of regions contains it, so that `sys_remove_pages` cannot unmap it. -/

namespace Pebbles.Memory

open Transition
open Kernel (isUserAddr)

/-! ## Indices -/

theorem vaPdInd_eq (x : Nat) : vaPdInd x = x / 2 ^ 22 := Nat.shiftRight_eq_div_pow x 22

theorem vaPtInd_eq (x : Nat) : vaPtInd x = x / 4096 % 1024 := by
  have hmask : (0x3ff000 : Nat) >>> 12 = 2 ^ 10 - 1 := by decide
  rw [vaPtInd, Nat.shiftRight_and_distrib, hmask, Nat.and_two_pow_sub_one_eq_mod,
    Nat.shiftRight_eq_div_pow]

theorem and_fff (x : Nat) : x &&& 0xfff = x % 4096 := Nat.and_two_pow_sub_one_eq_mod x 12

/-- The two indices of an address make up its page number. -/
theorem vaPdInd_mul_add (x : Nat) : vaPdInd x * pageLen + vaPtInd x = x / 4096 := by
  rw [vaPdInd_eq, vaPtInd_eq, pageLen]
  omega

/-- The number of pages of an aligned range. -/
theorem pageTimes_aligned {addr size : Nat} (haddr : addr % 4096 = 0) (hsize : size % 4096 = 0)
    (hlt : size < 2 ^ 32) : pageTimes addr size = size / 4096 := by
  rw [pageTimes, and_fff, haddr, Nat.zero_add, Nat.mod_eq_of_lt hlt, pageSize, if_pos hsize]

/-- **The entries of an aligned range** are those of its page numbers. -/
theorem mem_pageRange {addr size : Nat} (haddr : addr % 4096 = 0) (hsize : size % 4096 = 0)
    (hlt : size < 2 ^ 32) {p : Nat × Nat} (hp : p ∈ pageRange addr size) :
    p.2 < pageLen ∧ ∃ k < size / 4096, p.1 * pageLen + p.2 = addr / 4096 + k := by
  obtain ⟨k, hk, rfl⟩ := List.mem_map.mp hp
  rw [List.mem_range, pageTimes_aligned haddr hsize hlt] at hk
  have hsum := vaPdInd_mul_add addr
  refine ⟨Nat.mod_lt _ (by decide), k, hk, ?_⟩
  calc (vaPdInd addr + (vaPtInd addr + k) / pageLen) * pageLen + (vaPtInd addr + k) % pageLen
      = vaPdInd addr * pageLen + ((vaPtInd addr + k) / pageLen * pageLen
          + (vaPtInd addr + k) % pageLen) := by rw [Nat.add_mul, Nat.add_assoc]
    _ = vaPdInd addr * pageLen + (vaPtInd addr + k) := by rw [Nat.div_add_mod']
    _ = addr / 4096 + k := by rw [← Nat.add_assoc, hsum]

/-! ## Regions -/

/-- An aligned region of the user half that ends below the top page. -/
structure VaInfo.BelowTop (r : VaInfo) : Prop where
  /-- The region starts at a page. -/
  aligned : r.virtualAddr % 4096 = 0
  /-- It consists of pages. -/
  whole : r.len % 4096 = 0
  /-- The length is an `int`. -/
  short : r.len < 2 ^ 32
  /-- It starts in the user half. -/
  user : 0x01000000 ≤ r.virtualAddr
  /-- It does not contain the top page. -/
  below : r.len = 0 ∨ r.virtualAddr + r.len ≤ 0xfffff000

/-- The top page is not in such a region. -/
theorem VaInfo.BelowTop.top_notMem {r : VaInfo} (h : r.BelowTop) :
    (1023, 1023) ∉ pageRange r.virtualAddr r.len := by
  intro hmem
  obtain ⟨-, k, hk, he⟩ := mem_pageRange h.aligned h.whole h.short hmem
  have hbelow := h.below
  rw [pageLen] at he
  omega

/-- The entries of such a region lie in the user half. -/
theorem VaInfo.BelowTop.entries {r : VaInfo} (h : r.BelowTop) {p : Nat × Nat}
    (hp : p ∈ pageRange r.virtualAddr r.len) : 4 ≤ p.1 ∧ p.1 < pageLen := by
  obtain ⟨hlt, k, hk, he⟩ := mem_pageRange h.aligned h.whole h.short hp
  have hbelow := h.below
  have huser := h.user
  rw [pageLen] at *
  omega

/-- The pages that the check loop of `sys_new_pages` looks at for such a region do not wrap. -/
theorem VaInfo.BelowTop.curAddr {r : VaInfo} (h : r.BelowTop) {i : Nat} (hi : i < r.len / 4096) :
    4 ≤ vaPdInd (curAddr r.virtualAddr i) ∧ vaPdInd (curAddr r.virtualAddr i) < pageLen := by
  have hbelow := h.below
  have huser := h.user
  rw [Memory.curAddr, vaPdInd_eq, pageLen, pageSize]
  omega

/-! ## The invariant -/

/-- **The top page stays**: every process that can run has the top page of its stack mapped, and
its regions lie below. -/
def TopKept (s : Vm) : Prop :=
  ∀ p a, s.spaces p = some a → a.scheduled = true →
    (s.userFrame p 1023 1023).isSome ∧ ∀ r ∈ a.va, r.BelowTop

/-- The top page is one of the pages of each program. -/
theorem top_mem_loaderRange (header : ElfHeader) : (1023, 1023) ∈ loaderRange header := by
  rw [loaderRange, pageRange_stack]
  simp

section
variable {kernelBlocks : Nat → Nat} {lost lost' : List Nat} {s s' : Vm} {c : Call} {r : Int}

/-- **What the checks of `sys_new_pages` ensure** when the top page is mapped. -/
theorem Sound.belowTop (h : Sound kernelBlocks lost s) (htop : TopKept s) {a : AddressSpace}
    (ha : s.currentSpace = some a) {addr : UInt32} {len : Int32}
    (hchecks : newPagesChecks s.memory a.pd addr.toNat len.toInt = true) :
    VaInfo.BelowTop ⟨addr.toNat, len.toInt.toNat⟩ := by
  obtain ⟨hd, -, -⟩ := h.current_dir ha
  obtain ⟨huser, haligned, hpos, hwhole, -, hnone⟩ := decide_eq_true_eq.mp hchecks
  obtain ⟨hframe, -⟩ := htop s.current a ha (h.current_flags ha).1
  rw [and_fff] at haligned hwhole
  have huser' : 0x01000000 ≤ addr.toNat := (decide_eq_true_eq.mp huser).2
  have hlen : len.toInt < 2 ^ 31 := len.toInt_lt
  have hsmall := addr.toNat_lt
  have hshort : len.toInt.toNat < 2 ^ 32 := by omega
  have hwhole' : len.toInt.toNat % 4096 = 0 := hwhole
  refine ⟨haligned, hwhole', hshort, huser', ?_⟩
  show len.toInt.toNat = 0 ∨ addr.toNat + len.toInt.toNat ≤ 0xfffff000
  by_contra hover
  -- the loop has looked at the top page, and it is mapped
  have hcur : curAddr addr.toNat ((0xfffff000 - addr.toNat) / 4096) = 0xfffff000 := by
    rw [curAddr, pageSize]
    omega
  have hmem : (0xfffff000 - addr.toNat) / 4096 ∈ List.range (len.toInt / 4096).toNat := by
    rw [List.mem_range]
    omega
  have hfree := List.all_eq_true.mp hnone _ hmem
  simp only [hcur, show vaPdInd 0xfffff000 = 1023 by decide,
    show vaPtInd 0xfffff000 = 1023 by decide, decide_eq_true_eq] at hfree
  obtain ⟨f, hf⟩ := Option.isSome_iff_exists.mp hframe
  rw [← s.frame_process lost] at hf
  obtain ⟨hj, t, ht, hpte⟩ := frameAt_eq_some.mp hf
  obtain ⟨-, d, hd', hpde, hdef⟩ := tableAt_eq_some.mp ht
  obtain rfl : a.pd = d := Option.some.inj (hd.symm.trans hd')
  rw [hdef] at hfree
  rcases hfree with hzero | hzero
  · exact (h.owned.heap_block t (h.owned.table_mem ht)).1 hzero
  · rw [h.owned.deflagAddr_eq_zero ht hj] at hzero
    exact (frameOf_eq_some.mp hpte).1 hzero

/-- The frames of a process whose page directory stays, when no word is written. -/
theorem Vm.userFrame_same {p : Nat} (hwords : s'.memory.words = s.memory.words)
    (hdir : s'.dirs [] (.process p) = s.dirs [] (.process p)) (i j : Nat) :
    s'.userFrame p i j = s.userFrame p i j := by
  rw [Vm.userFrame, Vm.frame, frameAt_dirs hdir, hwords]
  rfl

/-- The page directory is the one in the control block. -/
theorem Vm.dirs_congr {p : Nat} (h : s'.spaces p = s.spaces p) :
    s'.dirs lost (.process p) = s.dirs lost (.process p) := by
  simp only [Vm.dirs, h]

/-- **Every step keeps the top page.** -/
theorem Sound.topKept_step (h : Sound kernelBlocks lost s) (htop : TopKept s)
    (heffect : StepEffect s lost c r lost' s') : TopKept s' := by
  intro p a' ha' hsched
  cases heffect with
  | nothing _ hspaces _ _ hwords =>
      rw [hspaces] at ha'
      rw [Vm.userFrame_same hwords (Vm.dirs_congr (congrFun hspaces p))]
      exact htop p a' ha' hsched
  | contextSwitch hspaces _ _ hwords =>
      rw [hspaces] at ha'
      rw [Vm.userFrame_same hwords (Vm.dirs_congr (congrFun hspaces p))]
      exact htop p a' ha' hsched
  | @vanish next a _ hspace hspaces _ _ hwords =>
      have hdirs : s'.dirs [] = s.dirs [] :=
        Vm.dirs_same (b := { a with exited := true }) hspace rfl hspaces
      rw [Vm.userFrame_same hwords (congrFun hdirs _)]
      rw [hspaces] at ha'
      rcases update_cases ha' with ⟨rfl, rfl⟩ | ⟨-, ha⟩
      · exact htop s.current a hspace hsched
      · exact htop p a' ha hsched
  | @newPages addr len a _ hspace hchecks hspaces _ _ hmaps =>
      have hdirs : s'.dirs lost = s.dirs lost :=
        Vm.dirs_same (b := { a with va := a.va ++ [⟨addr.toNat, len.toInt.toNat⟩] }) hspace rfl hspaces
      have hframe : (s.userFrame p 1023 1023).isSome → (s'.userFrame p 1023 1023).isSome := by
        intro hsome
        obtain ⟨f, hf⟩ := Option.isSome_iff_exists.mp hsome
        rw [← s.frame_process lost] at hf
        rw [← s'.frame_process lost, Vm.frame, hdirs, hmaps.kept hf]
        rfl
      rw [hspaces] at ha'
      rcases update_cases ha' with ⟨rfl, rfl⟩ | ⟨-, ha⟩
      · obtain ⟨hsome, hva⟩ := htop s.current a hspace hsched
        refine ⟨hframe hsome, fun region hregion => ?_⟩
        rcases List.mem_append.mp hregion with hold | hnew
        · exact hva region hold
        · rw [List.mem_singleton.mp hnew]
          exact h.belowTop htop hspace hchecks
      · exact ⟨hframe (htop p a' ha hsched).1, (htop p a' ha hsched).2⟩
  | @removePages addr a region _ hspace haddr hfound hspaces _ _ hunmaps =>
      have hdirs : s'.dirs lost = s.dirs lost :=
        Vm.dirs_same (b := { a with va := a.va.erase region }) hspace rfl hspaces
      have hmem : region ∈ a.va := List.mem_of_find?_eq_some hfound
      have hstart : region.virtualAddr = addr.toNat := by
        simpa using List.find?_some hfound
      have hbelow := (htop s.current a hspace (h.current_flags hspace).1).2 region hmem
      have hframe : s'.userFrame p 1023 1023 = s.userFrame p 1023 1023 := by
        rw [← s'.frame_process lost, Vm.frame, hdirs, hunmaps, if_neg]
        · rfl
        · rintro ⟨-, hrange⟩
          rw [← hstart] at hrange
          exact hbelow.top_notMem hrange
      rw [hframe]
      rw [hspaces] at ha'
      rcases update_cases ha' with ⟨rfl, rfl⟩ | ⟨-, ha⟩
      · obtain ⟨hsome, hva⟩ := htop s.current a hspace hsched
        exact ⟨hsome, fun region' hregion' => hva region' (List.mem_of_mem_erase hregion')⟩
      · exact htop p a' ha hsched
  | @fork a b _ _ hspace hblank _ hspaces _ _ hothers hcopy =>
      rw [hspaces] at ha'
      rcases update_cases ha' with ⟨rfl, rfl⟩ | ⟨hp, ha'⟩
      · -- the child has a copy of what the parent has
        have hparent := (htop s.current a hspace (h.current_flags hspace).1).1
        rw [← s.frame_process lost] at hparent
        refine ⟨?_, fun region hregion => ?_⟩
        · rw [← s'.frame_process lost]
          exact (hcopy hsched 1023 1023).mpr hparent
        · rw [hblank.1] at hregion
          cases hregion
      · rw [← s'.frame_process lost, hothers _ _ _ (by simpa using hp)]
        rcases update_cases ha' with ⟨rfl, rfl⟩ | ⟨-, ha⟩
        · exact htop s.current a hspace hsched
        · exact htop p a' ha hsched
  | @exec _ _ _ _ a header pd _ hspace _ hspaces _ _ hothers _ hloaded =>
      rw [hspaces] at ha'
      rw [← s'.frame_process (lost ++ [a.pd])]
      rcases update_cases ha' with ⟨rfl, rfl⟩ | ⟨hp, ha⟩
      · exact ⟨(hloaded 1023 1023).mpr ⟨top_mem_loaderRange header, by decide⟩,
          (htop s.current a hspace hsched).2⟩
      · rw [hothers _ _ _ (by simpa using hp) (by simp)]
        exact htop p a' ha hsched
  | @reap a b child _ hspace _ _ hspaces _ _ hothers =>
      rw [hspaces, Function.update_apply] at ha'
      split at ha'
      · cases ha'
      next hp =>
        rw [← s'.frame_process lost, hothers _ _ _ (by simpa using hp)]
        rcases update_cases ha' with ⟨rfl, rfl⟩ | ⟨-, ha⟩
        · exact htop s.current a hspace hsched
        · exact htop p a' ha hsched

/-- The top page is mapped after the boot. -/
theorem Prepared.topKept (h : Prepared kernelBlocks s) : TopKept s := by
  intro p a ha _
  obtain ⟨hva, -, -, -, -, header, hpages⟩ := h.newborn ha
  refine ⟨(hpages 1023 1023).mpr ⟨top_mem_loaderRange header, by decide⟩, fun r hr => ?_⟩
  rw [hva] at hr
  cases hr

/-- The top page is mapped in every state of a well-served run. -/
theorem topKept_of_run {idle init : ElfHeader} {answers : List Answer} {s0 : Vm}
    {events : List Event} (hnn : NonNull answers) (hboot : boot idle init answers = some s0)
    (run : Run ServedStep s0 events s) :
    TopKept s ∧ ∃ kernelBlocks lost, Sound kernelBlocks lost s := by
  obtain ⟨kernelBlocks, hsound, hprepared⟩ := prepared_boot hnn hboot
  refine run.invariant
    (I := fun s => TopKept s ∧ ∃ kernelBlocks lost, Sound kernelBlocks lost s)
    ⟨hprepared.topKept, kernelBlocks, [], hsound⟩ ?_
  rintro u e v ⟨htop, kernelBlocks, lost, hu⟩ ⟨⟨r, hstep⟩, hserved⟩
  obtain ⟨lost', heffect, hv⟩ := hu.step hserved hstep
  exact ⟨hu.topKept_step htop heffect, kernelBlocks, lost', hv⟩

end

/-! ## The kernel's entries and page tables -/

section
variable {ω : Type*} [DecidableEq ω] {kernelBlocks : Nat → Nat} {m m' : PhysMem}
  {dirs : ω → Option Nat} {o : ω} {d i j : Nat}

/-- The page directory `d` has the same kernel entries, and the kernel's page tables are the
same. -/
def KernelKept (kernelBlocks : Nat → Nat) (d : Nat) (words words' : Nat → Nat → Nat) : Prop :=
  ∀ n < 4, words' d n = words d n ∧ ∀ k, words' (kernelBlocks n) k = words (kernelBlocks n) k

/-- **`virtual_map_physical` in the user half** leaves the kernel's entries alone. -/
theorem Owned.virtualMapPhysical_kernelKept (h : Owned kernelBlocks m dirs) (hd : dirs o = some d)
    (hi : 4 ≤ i) (hj : j < pageLen) (hnn : NonNull m.answers) {r : Int}
    (call : Memory.virtualMapPhysical m d i j = some (r, m')) :
    KernelKept kernelBlocks d m.words m'.words := by
  have hlen : i < pageLen := by
    by_contra hge
    simp [Memory.virtualMapPhysical, hge] at call
  by_cases hzero : m.words d i = 0
  · -- a new page table: a fresh block is written, and the entry `i`
    simp only [Memory.virtualMapPhysical, hlen, if_true, hzero, ne_eq, not_true_eq_false,
      if_false] at call
    obtain ⟨⟨address, frames⟩, hacq, hrest⟩ := Option.bind_eq_some_iff.mp call
    split at hrest
    · obtain ⟨-, rfl⟩ := Prod.mk.inj (Option.some.inj hrest)
      exact fun n _ => ⟨rfl, fun _ => rfl⟩
    obtain ⟨⟨b, m1⟩, halloc, hres⟩ := Option.map_eq_some_iff.mp hrest
    obtain ⟨-, rfl⟩ := Prod.mk.inj hres
    obtain ⟨answer, -, -, -, -, -, hfresh, -, hwords⟩ :=
      memalign_nonNull (m := m.setFrames frames) hnn halloc
    have hkeep : ∀ x k, x ≠ b → ¬ (x = d ∧ k = i) →
        (((m1.clear b).write b j (addFlag address 0x7)).write d i (addFlag b 0x7)).words x k
          = m.words x k := by
      intro x k hx hk
      rw [PhysMem.write_words, if_neg hk, PhysMem.write_words, if_neg fun e => hx e.1,
        PhysMem.clear_words, if_neg hx, hwords, Function.update_of_ne hx]
      rfl
    intro n hn
    have hkb : kernelBlocks n ∈ m.heap := h.kernel_mem (by omega)
    refine ⟨hkeep d n (h.dir_ne_fresh hfresh hd) fun e => by omega, fun k => ?_⟩
    refine hkeep _ k (fun e => hfresh (e ▸ hkb)) fun e => ?_
    exact h.kernel_ne_dir (n := n) (by omega) hd e.1
  · have ht : tableAt m.words dirs o i = some (deflagAddr (m.words d i)) :=
      tableAt_eq_some.mpr ⟨⟨hi, hlen⟩, d, hd, hzero, rfl⟩
    obtain ⟨-, -, ⟨-, -, rfl⟩ | ⟨-, -, f, frames, -, -, -, rfl⟩⟩ :=
      h.virtualMapPhysical_table hd ht hj call
    · exact fun n _ => ⟨rfl, fun _ => rfl⟩
    · intro n hn
      refine ⟨?_, fun k => ?_⟩
      · rw [PhysMem.write_words, if_neg fun e => h.dir_ne_table hd ht e.1]
        rfl
      · rw [PhysMem.write_words, if_neg fun e => h.kernel_ne_table (n := n) (by omega) ht e.1]
        rfl

/-- **`allocate_pages` in the user half** leaves the kernel's entries alone. -/
theorem Owned.allocatePages_kernelKept (h : Owned kernelBlocks m dirs) (hd : dirs o = some d)
    (hnn : NonNull m.answers) {va size : Nat} (hrange : ∀ p ∈ pageRange va size, 4 ≤ p.1)
    (call : Memory.allocatePages m d va size = some m') :
    KernelKept kernelBlocks d m.words m'.words := by
  rw [Memory.allocatePages, forPages_eq] at call
  refine (Loop.foldlM_preserves (I := fun m1 => Evolves kernelBlocks dirs m m1 ∧
    KernelKept kernelBlocks d m.words m1.words) call ⟨.refl h, fun n _ => ⟨rfl, fun _ => rfl⟩⟩ ?_).2
  rintro ⟨i, j⟩ hp m1 m2 ⟨hevolves, hkept⟩ hcall
  obtain ⟨⟨r, m2⟩, hroutine, rfl⟩ := Option.map_eq_some_iff.mp hcall
  have hnn1 := hnn.suffix hevolves.answers
  obtain ⟨hnext, -⟩ := hevolves.owned.virtualMapPhysical hd (pageRange_lt hp) hnn1 hroutine
  have hone := hevolves.owned.virtualMapPhysical_kernelKept hd (hrange _ hp) (pageRange_lt hp) hnn1
    hroutine
  refine ⟨hevolves.trans hnext, fun n hn => ⟨?_, fun k => ?_⟩⟩
  · exact (hone n hn).1.trans (hkept n hn).1
  · exact ((hone n hn).2 k).trans ((hkept n hn).2 k)

end

/-! ## `sys_new_pages` stays in the user half -/

/-- What `sys_new_pages(addr, len)` must not do once it has passed its checks: wrap around, use an
index of the page directory outside of 4 to 1023, or change an entry or a page table of the
kernel, whatever `memalign` answers short of `NULL`. -/
structure StaysInUserHalf (s : Vm) (a : AddressSpace) (addr : UInt32) (len : Int32) : Prop where
  /-- The range ends at `2^32` at the latest. -/
  no_wrap : addr.toNat + len.toInt.toNat ≤ 2 ^ 32
  /-- The indices used by the check loop. -/
  checked : ∀ i < (len.toInt / 4096).toNat,
    4 ≤ vaPdInd (curAddr addr.toNat i) ∧ vaPdInd (curAddr addr.toNat i) < pageLen
  /-- The indices used by `allocate_pages`. -/
  allocated : ∀ p ∈ pageRange addr.toNat len.toInt.toNat, 4 ≤ p.1 ∧ p.1 < pageLen
  /-- The kernel's entries and page tables. -/
  kernel : ∀ answers s' r, NonNull answers → s.step ⟨.newPages addr len, answers⟩ = some (s', r) →
    ∀ n < 4, s'.memory.words a.pd n = s.memory.words a.pd n ∧
      ∀ k, s'.memory.words (deflagAddr (s.memory.words a.pd n)) k
        = s.memory.words (deflagAddr (s.memory.words a.pd n)) k

/-- `sys_new_pages` never leaves the user half in the state `s`. -/
def NewPagesSafe (s : Vm) : Prop :=
  ∀ a addr len, s.currentSpace = some a →
    newPagesChecks s.memory a.pd addr.toNat len.toInt = true → StaysInUserHalf s a addr len

/-- **`sys_new_pages` never leaves the user half**, in every state of every run from a boot in
which `memalign` never answers `NULL` where this is not tested for and the blocks of `sys_fork`
are filled with zeros. -/
theorem newPagesSafe_of_run {idle init : ElfHeader} {answers : List Answer} {s0 s : Vm}
    {events : List Event} (hnn : NonNull answers) (hboot : boot idle init answers = some s0)
    (run : Run ServedStep s0 events s) : NewPagesSafe s := by
  obtain ⟨htop, kernelBlocks, lost, hsound⟩ := topKept_of_run hnn hboot run
  intro a addr len ha hchecks
  have hbelow := hsound.belowTop htop ha hchecks
  have hpos : 0 ≤ len.toInt := (decide_eq_true_eq.mp hchecks).2.2.1
  refine ⟨?_, fun i hi => hbelow.curAddr ?_, fun p hp => hbelow.entries hp, ?_⟩
  · have hend : len.toInt.toNat = 0 ∨ addr.toNat + len.toInt.toNat ≤ 0xfffff000 := hbelow.below
    have hsmall := addr.toNat_lt
    omega
  · show i < len.toInt.toNat / 4096
    omega
  · intro given s' r hgiven hstep n hn
    have h0 := hsound.supply given
    have ha0 : (s.supply given).currentSpace = some a := ha
    obtain ⟨hd, -, -⟩ := h0.current_dir ha0
    have hentry : deflagAddr (s.memory.words a.pd n) = kernelBlocks n :=
      (h0.owned.kernel_entry _ _ hd n hn).2
    rw [hentry]
    obtain ⟨⟨t, r'⟩, hcode, hend⟩ := Option.bind_eq_some_iff.mp hstep
    obtain ⟨rfl, rfl⟩ : t = s' ∧ r' = r := by
      split at hend
      · exact Prod.mk.inj (Option.some.inj hend)
      · cases hend
    have hbody : (s.supply given).sysNewPages addr len = some (t, r') := hcode
    rw [Vm.sysNewPages, ha0, Option.bind_some] at hbody
    split at hbody
    · obtain ⟨m, halloc, hres⟩ := Option.map_eq_some_iff.mp hbody
      obtain ⟨rfl, -⟩ := Prod.mk.inj hres
      exact h0.owned.allocatePages_kernelKept hd hgiven (fun p hp => (hbelow.entries hp).1)
        halloc n hn
    · obtain ⟨rfl, -⟩ := Prod.mk.inj (Option.some.inj hbody)
      exact ⟨rfl, fun _ => rfl⟩

/-- A boot, and a request for a page that `memalign` serves. -/
theorem newPagesSafe_of_run_one_page :
    ∃ s0 s, boot smallProgram smallProgram (inOrder 256 9) = some s0 ∧
      Run ServedStep s0 [⟨.newPages 0x40000000 4096, inOrder 265 1⟩] s ∧ NewPagesSafe s := by
  obtain ⟨s0, hboot, h⟩ := boot_begun
  obtain ⟨m, hstep, -⟩ := newPages_total 0x40000000 ⟨265 * pageSize, fun _ => 0⟩ (i := 256) (j := 0)
     h.space (by decide) (by decide) (by decide) (by decide)
    (by decide) ((h.directory 256 (by decide)).trans (if_neg (by decide)))
    (Or.inr ⟨isBlock_page (by decide) (by decide), h.fresh (Nat.le_refl _)⟩)
    h.frames (by decide) (by decide)
  have hrun : Run ServedStep s0 [⟨.newPages 0x40000000 4096, inOrder 265 1⟩] _ :=
    Run.nil.snoc ⟨⟨0, hstep⟩, nonNull_inOrder (by decide) 1⟩
  exact ⟨s0, _, hboot, hrun, newPagesSafe_of_run (nonNull_inOrder (by decide) 9) hboot hrun⟩

/-- **A stack at the address 0**: `memalign` answers `NULL` for the page table of the stack of a
new image. `DEFLAG_ADDR` of its page-directory entry is 0, so the top page counts as unmapped, and
so does the page 0 of the kernel: a request for two pages from the top page on passes the
checks. -/
theorem null_stack_table_lets_new_pages_wrap :
    ∃ s0 s, boot smallProgram smallProgram (inOrder 256 9) = some s0 ∧
      Run VmStep s0 [⟨.exec 0xffffe000 0xffffe000 (some smallProgram) true,
        [⟨265 * pageSize, fun _ => 0⟩, ⟨0, fun _ => 0⟩]⟩] s ∧ ¬ NewPagesSafe s := by
  obtain ⟨s0, hboot, h⟩ := boot_begun
  obtain ⟨m, hstep, hframes, -, hwords⟩ := exec_total (x := ⟨265 * pageSize, fun _ => 0⟩)
    (y := ⟨0, fun _ => 0⟩) h.space h.stack_mapped (isBlock_page (by decide) (by decide))
    (h.fresh (Nat.le_refl _)) (Or.inl rfl) (by decide) h.frames (by decide) (by decide)
    (by rw [h.cr3]; decide)
  let a : AddressSpace := ⟨265 * pageSize, [], [], false, true⟩
  let s := (s0.setMemory m).setSpace s0.current a
  have hspace : s.currentSpace = some a := Function.update_self ..
  have hleft : m.frames.freeFrameNum = (totalPhysFrames - 4102 : Nat) := hframes.freeFrameNum_eq
  have htop : deflagAddr (m.words (265 * pageSize) 1023) = 0 := by
    rw [hwords, if_pos rfl, if_neg (by decide), if_pos rfl]
    decide
  have hkernel : deflagAddr (m.words (265 * pageSize) 0) = 257 * pageSize := by
    have hcr3 := h.kernel 0 (by decide)
    rw [hwords, if_pos rfl, if_pos (by decide), h.cr3, hcr3]
    decide
  have hfirst : deflagAddr (m.words (257 * pageSize) 0) = 0 := by
    rw [hwords, if_neg (by decide), if_neg (by decide)]
    exact h.first_frame
  have hchecks : newPagesChecks m (265 * pageSize) (0xfffff000 : UInt32).toNat
      (8192 : Int32).toInt = true := by
    rw [show (8192 : Int32).toInt = 8192 by decide,
      show (0xfffff000 : UInt32).toNat = 0xfffff000 by decide]
    simp only [newPagesChecks, decide_eq_true_eq]
    refine ⟨by decide, by decide, by decide, by decide, ?_, ?_⟩
    · rw [hleft]
      decide
    · refine List.all_eq_true.mpr fun i hi => ?_
      obtain rfl | rfl : i = 0 ∨ i = 1 := by
        have hlt := List.mem_range.mp hi
        omega
      · simp only [show vaPdInd (curAddr 0xfffff000 0) = 1023 by decide, htop, true_or, decide_true]
      · simp only [show vaPdInd (curAddr 0xfffff000 1) = 0 by decide,
          show vaPtInd (curAddr 0xfffff000 1) = 0 by decide, hkernel, hfirst, or_true, decide_true]
  refine ⟨s0, s, hboot, Run.nil.snoc ⟨0, hstep⟩, fun hsafe => ?_⟩
  have hwrap := (hsafe a 0xfffff000 8192 hspace hchecks).no_wrap
  revert hwrap
  decide

end Pebbles.Memory
