import Pebbles.Memory.Startup

/-! # Isolation and leaks

Two properties of every run of the system calls that change address spaces, from a boot on. No
frame is mapped twice and none of the kernel's frames is mapped by a user entry; this needs that
`memalign` never answers `NULL` where the kernel does not test for it. No frame is lost; this
holds exactly as long as no `sys_exec` succeeds, since `sys_exec` leaves the frames of the address
space it replaces behind.

* `isolated_of_run` — isolation.
* `noLeak_iff_noExec` — the leak. -/

namespace Pebbles.Memory

open Transition

/-! ## Runs -/

/-- The transition relation of the memory calls. -/
def VmStep (s : Vm) (e : Event) (s' : Vm) : Prop := ∃ r, s.step e = some (s', r)

/-- The steps under whose events `memalign` behaves as the kernel takes for granted. -/
abbrev ServedStep : Vm → Event → Vm → Prop := Guarded VmStep fun _ e => e.WellServed

/-- **The invariant of every well-served run.** -/
theorem sound_of_run {idle init : ElfHeader} {answers : List Answer} {s0 s : Vm}
    {events : List Event} (hnn : NonNull answers) (hboot : boot idle init answers = some s0)
    (run : Run ServedStep s0 events s) : ∃ kernelBlocks lost, Sound kernelBlocks lost s := by
  obtain ⟨kernelBlocks, hsound, -⟩ := prepared_boot hnn hboot
  refine run.invariant (I := fun s => ∃ kernelBlocks lost, Sound kernelBlocks lost s)
    ⟨kernelBlocks, [], hsound⟩ ?_
  rintro u e v ⟨kernelBlocks, lost, hu⟩ ⟨⟨r, hstep⟩, hserved⟩
  obtain ⟨lost', -, hv⟩ := hu.step hserved hstep
  exact ⟨kernelBlocks, lost', hv⟩

/-! ## Isolation -/

/-- The frame that the user entry `i`, `j` of the process `p` maps. -/
def Vm.userFrame (s : Vm) (p i j : Nat) : Option Nat := s.frame [] (.process p) i j

/-- What was left behind does not matter to the processes. -/
theorem Vm.frame_process (s : Vm) (lost : List Nat) (p i j : Nat) :
    s.frame lost (.process p) i j = s.userFrame p i j := rfl

/-- **Isolation**: no two user entries map the same frame, every frame mapped by a user entry has
the reference count 1, and none is one of the first 4096. -/
structure Isolated (s : Vm) : Prop where
  /-- No frame is mapped twice. -/
  exclusive : ∀ {p i j p' i' j' f}, s.userFrame p i j = some f → s.userFrame p' i' j' = some f →
    p = p' ∧ i = i' ∧ j = j'
  /-- The reference count. -/
  counted : ∀ {p i j f}, s.userFrame p i j = some f → s.memory.frames.refcount f = 1
  /-- The frames of the kernel are out of reach. -/
  above : ∀ {p i j f}, s.userFrame p i j = some f → 4096 ≤ f

/-- A sound state is isolated. -/
theorem Sound.isolated {kernelBlocks : Nat → Nat} {lost : List Nat} {s : Vm}
    (h : Sound kernelBlocks lost s) : Isolated s where
  exclusive hf hf' := by
    rw [← s.frame_process lost] at hf hf'
    have hkey := h.owned.pages.exclusive (k := PageKey.user _ _ _) (l := PageKey.user _ _ _) hf hf'
    simpa using hkey
  counted hf := by
    rw [← s.frame_process lost] at hf
    exact (h.owned.frame_facts hf).1.2
  above hf := by
    rw [← s.frame_process lost] at hf
    exact (h.owned.frame_facts hf).2

/-- **Every reachable state is isolated**, in every run from a boot in which `memalign` never
answers `NULL` where this is not tested for and the blocks of `sys_fork` are filled with zeros. -/
theorem isolated_of_run {idle init : ElfHeader} {answers : List Answer} {s0 s : Vm}
    {events : List Event} (hnn : NonNull answers) (hboot : boot idle init answers = some s0)
    (run : Run ServedStep s0 events s) : Isolated s := by
  obtain ⟨kernelBlocks, lost, hsound⟩ := sound_of_run hnn hboot run
  exact hsound.isolated

/-- Answers in order are never `NULL`. -/
theorem nonNull_inOrder {i : Nat} (hi : 0 < i) (n : Nat) : NonNull (inOrder i n) := by
  intro a ha
  obtain ⟨k, hk, rfl⟩ := List.mem_map.mp ha
  obtain ⟨hik, -⟩ := List.mem_range'_1.mp hk
  show k * pageSize ≠ 0
  rw [pageSize]
  omega

/-- A boot, and a request for a page that `memalign` serves. -/
theorem isolated_of_run_one_page :
    ∃ s0 s, boot smallProgram smallProgram (inOrder 256 9) = some s0 ∧
      Run ServedStep s0 [⟨.newPages 0x40000000 4096, inOrder 265 1⟩] s ∧ Isolated s := by
  obtain ⟨s0, hboot, h⟩ := boot_begun
  obtain ⟨m, hstep, -⟩ := newPages_total 0x40000000 ⟨265 * pageSize, fun _ => 0⟩ (i := 256) (j := 0)
     h.space (by decide) (by decide) (by decide) (by decide)
    (by decide) ((h.directory 256 (by decide)).trans (if_neg (by decide)))
    (Or.inr ⟨isBlock_page (by decide) (by decide), h.fresh (Nat.le_refl _)⟩)
    h.frames (by decide) (by decide)
  have hrun : Run ServedStep s0 [⟨.newPages 0x40000000 4096, inOrder 265 1⟩] _ :=
    Run.nil.snoc ⟨⟨0, hstep⟩, nonNull_inOrder (by decide) 1⟩
  exact ⟨s0, _, hboot, hrun, isolated_of_run (nonNull_inOrder (by decide) 9) hboot hrun⟩

/-- **A page table at the address 0**: `memalign` answers `NULL` twice, and two page-directory
entries of `init` share the page table at 0, hence its frame. -/
theorem null_page_tables_share_frame :
    ∃ s0 s, boot smallProgram smallProgram (inOrder 256 9) = some s0 ∧
      Run VmStep s0 [⟨.newPages 0x40000000 4096, [⟨0, fun _ => 0⟩]⟩,
        ⟨.newPages 0x40400000 4096, [⟨0, fun _ => 0⟩]⟩] s ∧ ¬ Isolated s := by
  obtain ⟨s0, hboot, h⟩ := boot_begun
  obtain ⟨m1, hstep1, hframes1, -, -, hwords1⟩ := newPages_total 0x40000000 ⟨0, fun _ => 0⟩ (i := 256)
    (j := 0)  h.space (by decide) (by decide) (by decide) (by decide)
    (by decide) ((h.directory 256 (by decide)).trans (if_neg (by decide))) (Or.inl rfl) h.frames
    (by decide) (by decide)
  let a1 : AddressSpace := ⟨263 * pageSize, [⟨0x40000000, 4096⟩], [], false, true⟩
  let s1 := (s0.setMemory m1).setSpace s0.current a1
  have hspace1 : s1.currentSpace = some a1 := Function.update_self ..
  have hzero1 : m1.words (263 * pageSize) 257 = 0 := by
    rw [hwords1, if_neg (by decide), if_neg (by decide)]
    exact (h.directory 257 (by decide)).trans (if_neg (by decide))
  obtain ⟨m2, hstep2, -, -, -, hwords2⟩ := newPages_total (s := s1) 0x40400000 ⟨0, fun _ => 0⟩
    (i := 257) (j := 0)  hspace1 (by decide) (by decide) (by decide)
    (by decide) (by decide) hzero1 (Or.inl rfl) hframes1 (by decide) (by decide)
  let a2 : AddressSpace := { a1 with va := a1.va ++ [⟨0x40400000, 4096⟩] }
  let s2 := (s1.setMemory m2).setSpace s1.current a2
  -- both entries of the page directory hold the flags only
  have hfirst : m2.words (263 * pageSize) 256 = 7 := by
    rw [hwords2, if_neg (by decide), if_neg (by decide)]
    show m1.words _ _ = _
    rw [hwords1, if_pos ⟨rfl, rfl⟩]
    rfl
  have hsecond : m2.words (263 * pageSize) 257 = 7 := by
    rw [hwords2, if_pos ⟨rfl, rfl⟩]
    rfl
  have hpte : frameOf (m2.words 0 0) = some 4101 := by
    rw [hwords2, if_neg (by decide), if_pos rfl, if_pos rfl]
    exact frameOf_addFlag (by decide) (by decide) (by decide)
  have hdir : s2.dirs [] (.process s0.current) = some (263 * pageSize) :=
    s2.dirs_process (p := s0.current) (a := a2) (Function.update_self ..) (by decide)
  have hframe : ∀ i, 4 ≤ i → i < pageLen → m2.words (263 * pageSize) i = 7 →
      s2.userFrame s0.current i 0 = some 4101 := by
    intro i hlow hlt hpde
    refine frameAt_eq_some.mpr ⟨by decide, 0, tableAt_eq_some.mpr ⟨⟨hlow, hlt⟩, _, hdir, ?_, ?_⟩,
      hpte⟩
    · show m2.words _ _ ≠ 0
      rw [hpde]
      decide
    · show deflagAddr (m2.words _ _) = 0
      rw [hpde]
      decide
  refine ⟨s0, s2, hboot, (Run.nil.snoc ⟨0, hstep1⟩).snoc ⟨0, hstep2⟩, fun hisolated => ?_⟩
  obtain ⟨-, he, -⟩ := hisolated.exclusive (hframe 256 (by decide) (by decide) hfirst)
    (hframe 257 (by decide) (by decide) hsecond)
  cases he

/-! ## Leaks -/

/-- **No frame is lost**: every frame in use above the first 4096 is mapped by a user entry of a
process that has not been reaped. -/
def NoLeak (s : Vm) : Prop :=
  ∀ f, 4096 ≤ f → s.memory.frames.InUse f → ∃ p i j, s.userFrame p i j = some f

/-- No `sys_exec` gets past its checks. -/
def NoExec (s : Vm) (e : Event) : Prop :=
  match e.call with
  | .exec execname argvec program argsFit => ∀ a, s.currentSpace = some a →
      execAccepts s.memory a.pd execname.toNat argvec.toNat program argsFit = none
  | _ => True

section
variable {kernelBlocks : Nat → Nat} {lost lost' : List Nat} {s s' : Vm} {c : Call} {r : Int}

/-- A frame is lost exactly when a page directory that was left behind maps one. -/
theorem Sound.noLeak_iff (h : Sound kernelBlocks lost s) :
    NoLeak s ↔ ∀ n i j, s.frame lost (.abandoned n) i j = none := by
  constructor
  · intro hnoleak n i j
    by_contra hsome
    obtain ⟨f, hf⟩ := Option.ne_none_iff_exists'.mp hsome
    obtain ⟨huse, hlow⟩ := h.owned.frame_facts hf
    obtain ⟨p, i', j', hf'⟩ := hnoleak f hlow huse
    rw [← s.frame_process lost] at hf'
    have hkey := h.owned.pages.exclusive (k := PageKey.user _ _ _) (l := PageKey.user _ _ _) hf hf'
    cases hkey
  · intro hnone f hlow huse
    obtain ⟨k, hk⟩ := (h.owned.pages.accounts f).mp huse
    cases k with
    | kernel n =>
        simp only [pageAt] at hk
        split at hk
        · have hn := Option.some.inj hk
          omega
        · cases hk
    | user o i j =>
        cases o with
        | process p => exact ⟨p, i, j, hk⟩
        | abandoned n =>
            have hf : s.frame lost (.abandoned n) i j = some f := hk
            rw [hnone] at hf
            cases hf

/-- An address that `addr_has_mapping` accepts is mapped by a user entry. -/
theorem Sound.frame_of_mapping (h : Sound kernelBlocks lost s) {a : AddressSpace} {addr : Nat}
    (ha : s.currentSpace = some a) (hlt : addr < 2 ^ 32)
    (huser : Kernel.isUserAddr addr = true) (hmapped : addrHasMapping s.memory a.pd addr = true) :
    (s.frame lost (.process s.current) (vaPdInd addr) (vaPtInd addr)).isSome := by
  obtain ⟨hd, -, -⟩ := h.current_dir ha
  obtain ⟨-, -, hpde, hpte⟩ := decide_eq_true_eq.mp hmapped
  have hi : vaPdInd addr < pageLen := by
    rw [vaPdInd, Nat.shiftRight_eq_div_pow, pageLen]
    omega
  have hpde' : s.memory.words a.pd (vaPdInd addr) ≠ 0 := by
    intro hz
    rw [hz, deflagAddr_zero] at hpde
    exact hpde rfl
  have ht : tableAt s.memory.words (s.dirs lost) (.process s.current) (vaPdInd addr)
      = some (deflagAddr (s.memory.words a.pd (vaPdInd addr))) :=
    tableAt_eq_some.mpr ⟨⟨vaPdInd_of_user huser, hi⟩, _, hd, hpde', rfl⟩
  rw [Vm.frame, frameAt_of_table ht (vaPtInd_lt addr), frameOf, if_neg]
  · rfl
  · intro hz
    rw [hz, deflagAddr_zero] at hpte
    exact hpte rfl

/-- **A successful `sys_exec` loses frames**: those that the name of the program lay in, among
others. -/
theorem Sound.leak_of_exec (h : Sound kernelBlocks lost s) (h' : Sound kernelBlocks lost' s')
    {execname argvec : UInt32} {program : Option ElfHeader} {argsFit : Bool} {a : AddressSpace}
    {header : ElfHeader} (ha : s.currentSpace = some a)
    (haccepts : execAccepts s.memory a.pd execname.toNat argvec.toNat program argsFit = some header)
    (heffect : StepEffect s lost (.exec execname argvec program argsFit) r lost' s') :
    ¬ NoLeak s' := by
  intro hnoleak
  cases heffect with
  | nothing hrefused _ _ _ _ =>
      obtain ⟨b, hb, hnone⟩ := hrefused
      obtain rfl : b = a := Option.some.inj (hb.symm.trans ha)
      cases hnone.symm.trans haccepts
  | exec hspace _ _ _ _ _ hlost _ =>
      simp only [execAccepts] at haccepts
      split at haccepts
      · next hchecks =>
          simp only [Bool.and_eq_true] at hchecks
          have hsome := h.frame_of_mapping ha execname.toNat_lt hchecks.1.1.1.1 hchecks.1.1.1.2
          rw [← hlost, h'.noLeak_iff.mp hnoleak] at hsome
          cases hsome
      · cases haccepts

/-- No other step changes what was left behind. -/
theorem StepEffect.abandoned (h : StepEffect s lost c r lost' s')
    (hexec : ∀ execname argvec program argsFit a, c = .exec execname argvec program argsFit →
      s.currentSpace = some a →
      execAccepts s.memory a.pd execname.toNat argvec.toNat program argsFit = none) :
    lost' = lost ∧ ∀ n i j, s'.frame lost (.abandoned n) i j = s.frame lost (.abandoned n) i j := by
  -- the page directories that were left behind do not depend on the control blocks
  have hdirs : ∀ n i j, s'.frame lost (.abandoned n) i j
      = frameAt s'.memory.words (s.dirs lost) (.abandoned n) i j :=
    fun n i j => frameAt_dirs rfl i j
  have hsame : s'.memory.words = s.memory.words →
      ∀ n i j, s'.frame lost (.abandoned n) i j = s.frame lost (.abandoned n) i j := by
    intro hwords n i j
    rw [hdirs, hwords]
    rfl
  cases h with
  | nothing _ _ _ _ hwords => exact ⟨rfl, hsame hwords⟩
  | newPages _ _ _ _ _ hmaps =>
      exact ⟨rfl, fun n i j => (hdirs n i j).trans (hmaps.only fun e => by cases e.1)⟩
  | removePages _ _ _ _ _ _ hunmaps =>
      exact ⟨rfl, fun n i j => (hdirs n i j).trans
        ((hunmaps _ i j).trans (if_neg fun e => by cases e.1))⟩
  | fork _ _ _ _ _ _ hothers _ => exact ⟨rfl, fun n i j => hothers _ i j (by simp)⟩
  | exec hspace haccepts _ _ _ _ _ _ =>
      rw [hexec _ _ _ _ _ rfl hspace] at haccepts
      cases haccepts
  | reap _ _ _ _ _ _ hothers => exact ⟨rfl, fun n i j => hothers _ i j (by simp)⟩
  | vanish _ _ _ _ hwords => exact ⟨rfl, hsame hwords⟩
  | contextSwitch _ _ _ hwords => exact ⟨rfl, hsame hwords⟩

/-- A step from a state without a leak leads to one without a leak exactly when it is not a
successful `sys_exec`. -/
theorem Sound.noLeak_step (h : Sound kernelBlocks lost s) (hnoleak : NoLeak s) {e : Event}
    (hstep : ServedStep s e s') : NoLeak s' ↔ NoExec s e := by
  obtain ⟨⟨r, hrun⟩, hserved⟩ := hstep
  obtain ⟨lost', heffect, h'⟩ := h.step hserved hrun
  constructor
  · intro hnoleak'
    obtain ⟨c, answers⟩ := e
    cases c with
    | exec execname argvec program argsFit =>
        intro a ha
        by_contra hsome
        obtain ⟨header, haccepts⟩ := Option.ne_none_iff_exists'.mp hsome
        exact h.leak_of_exec h' ha haccepts heffect hnoleak'
    | _ => trivial
  · intro hnoexec
    obtain ⟨rfl, hframes⟩ := heffect.abandoned (by
      intro execname argvec program argsFit a hc ha
      obtain ⟨c, answers⟩ := e
      obtain rfl : c = _ := hc
      exact hnoexec a ha)
    refine h'.noLeak_iff.mpr fun n i j => ?_
    rw [hframes]
    exact h.noLeak_iff.mp hnoleak n i j

end

/-- **The runs without a leak are those in which no `sys_exec` succeeds**, among the runs from a
boot in which `memalign` never answers `NULL` where this is not tested for and the blocks of
`sys_fork` are filled with zeros. -/
theorem noLeak_iff_noExec {idle init : ElfHeader} {answers : List Answer} {s0 s : Vm}
    {events : List Event} (hnn : NonNull answers) (hboot : boot idle init answers = some s0) :
    Run (Into ServedStep NoLeak) s0 events s ↔ Run (Guarded ServedStep NoExec) s0 events s := by
  obtain ⟨kernelBlocks, hsound, -⟩ := prepared_boot hnn hboot
  refine Run.into_iff_guarded (I := fun u => ∃ kernelBlocks lost, Sound kernelBlocks lost u)
    ⟨kernelBlocks, [], hsound⟩ (hsound.noLeak_iff.mpr fun n i j => ?_) ?_ ?_
  · simp [Vm.frame, frameAt, tableAt, Vm.dirs]
  · rintro u e v ⟨kernelBlocks, lost, hu⟩ ⟨⟨r, hstep⟩, hserved⟩
    obtain ⟨lost', -, hv⟩ := hu.step hserved hstep
    exact ⟨kernelBlocks, lost', hv⟩
  · rintro u e v ⟨kernelBlocks, lost, hu⟩ hnoleak hstep
    exact hu.noLeak_step hnoleak hstep

/-- The boot with programs that have only a stack. -/
theorem noLeak_iff_noExec_begun :
    ∃ s0, boot smallProgram smallProgram (inOrder 256 9) = some s0 ∧ ∀ events s,
      Run (Into ServedStep NoLeak) s0 events s ↔ Run (Guarded ServedStep NoExec) s0 events s := by
  obtain ⟨s0, hboot, -⟩ := boot_begun
  exact ⟨s0, hboot, fun _ _ => noLeak_iff_noExec (nonNull_inOrder (by decide) 9) hboot⟩

/-- **An `exec` right after the boot**: the frames of the old stack of `init` stay in use, and
nobody maps them. -/
theorem exec_leaks_old_image :
    ∃ s0 s, boot smallProgram smallProgram (inOrder 256 9) = some s0 ∧
      Run ServedStep s0
        [⟨.exec 0xffffe000 0xffffe000 (some smallProgram) true, inOrder 265 2⟩] s ∧ ¬ NoLeak s := by
  obtain ⟨s0, hboot, h⟩ := boot_begun
  obtain ⟨m, hstep, -⟩ := exec_total (x := ⟨265 * pageSize, fun _ => 0⟩)
    (y := ⟨266 * pageSize, fun _ => 0⟩) h.space h.stack_mapped
    (isBlock_page (by decide) (by decide)) (h.fresh (Nat.le_refl _))
    (Or.inr ⟨isBlock_page (by decide) (by decide), h.fresh (by decide)⟩) (by decide) h.frames
    (by decide) (by decide) (by rw [h.cr3]; decide)
  have hserved : ServedStep s0
      ⟨.exec 0xffffe000 0xffffe000 (some smallProgram) true, inOrder 265 2⟩ _ :=
    ⟨⟨0, hstep⟩, nonNull_inOrder (by decide) 2⟩
  obtain ⟨kernelBlocks, hsound, -⟩ := prepared_boot (nonNull_inOrder (by decide) 9) hboot
  have hbegin : NoLeak s0 := hsound.noLeak_iff.mpr fun n i j => by
    simp [Vm.frame, frameAt, tableAt, Vm.dirs]
  refine ⟨s0, _, hboot, Run.nil.snoc hserved, fun hnoleak => ?_⟩
  have hnone := (hsound.noLeak_step hbegin hserved).mp hnoleak _ h.space
  rw [show (0xffffe000 : UInt32).toNat = 0xffffe000 by decide, execAccepts, h.stack_mapped] at hnone
  cases hnone

end Pebbles.Memory
