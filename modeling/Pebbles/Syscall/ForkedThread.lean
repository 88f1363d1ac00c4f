import Mathlib.Data.Bool.AllAny
import Pebbles.Syscall.CallLinkage
import Pebbles.Process.StackSwitchRuns

/-! # The thread that `fork` and `thread_fork` make

`sys_fork` and `sys_thread_fork` take the registers of the caller from the top of its kernel stack,
and leave them in the control block of a new thread. The first `context_switch` to this thread loads
them in user mode. -/

namespace Pebbles.Syscall

open ByteStores Processor Transition
open Exception (leaveWith eflVm)
open Memory (UserRegisters)

/-! ## The registers -/

/-- `current_thread->registers.ss = kernel_stack[14]` and so on: the offset of a field in the
control block, and the number of the word on the stack. -/
def stackFields : List (UInt32 × UInt32) :=
  [(108, 14), (104, 13), (100, 12), (96, 11), (92, 10), (64, 9), (56, 8), (60, 7), (76, 6), (80, 5),
    (72, 4)]

/-- The registers of the caller are taken from the top of its kernel stack. -/
def saveRegisters (m : Image) (tcb : UInt32) : Image :=
  let kernelStack := load m (tcb + 24) + load m (tcb + 28) - 60
  copyWords m (stackFields.map fun p => (tcb + p.1, kernelStack + 4 * p.2))

/-- The words of a `ureg_t` in the control block. -/
def registerFields : List UInt32 := (List.range 20).map fun k => 32 + 4 * UInt32.ofNat k

/-- The fields of the new thread up to `stack_size`. `stackBase` is what `memalign` returns. -/
def startFields (m : Image) (parent child pcb tid stackBase : UInt32) : Image :=
  let m := storeWord m (child + 4) pcb
  let m := storeWord m (child + 8) tid
  let m := storeWord m (child + 12) Processor.threadInit
  let m := storeWord m (child + 28) (load m (parent + 28))
  let m := storeWord m (child + 24) stackBase
  storeWord m (child + 0) (load m (child + 24) + load m (child + 28))

/-- **The control block of the new thread.** -/
def startThread (m : Image) (parent child pcb tid stackBase id : UInt32) : Image :=
  let m := startFields m parent child pcb tid stackBase
  let m := copyWords m (registerFields.map fun f => (child + f, parent + f))
  let m := storeWord m (child + 84) 0
  storeWord m (parent + 84) id

/-- **`sys_fork` and `sys_thread_fork`**, from memory `m` to memory `m'`: in between, other things
are written, and afterwards the lists. -/
structure Forks (parent child : Thread) (m m' : Image) : Prop where
  run : ∃ (m₀ m₁ : Image) (pcb tid id : UInt32),
    Agree (Set.Ico (parent.tcb.toNat + 24) (parent.tcb.toNat + 32) ∪
      Set.Ico (parent.top.toNat - 60) parent.top.toNat) m m₀ ∧
    Agree (Set.Ico parent.tcb.toNat (parent.tcb.toNat + 112)) (saveRegisters m₀ parent.tcb) m₁ ∧
    Agree (Set.Ico child.tcb.toNat (child.tcb.toNat + 112))
      (startThread m₁ parent.tcb child.tcb pcb tid child.stackBase id) m'

/-! ## Fields -/

section Fields

variable {t t' : Thread} {m : Image} {f g w : UInt32}

/-- Offsets of different words. -/
def Separate (f g : UInt32) : Prop := f.toNat + 4 ≤ g.toNat ∨ g.toNat + 4 ≤ f.toNat

instance : DecidableRel Separate := fun _ _ => inferInstanceAs (Decidable (_ ∨ _))

/-- A word of the control block. -/
def InBlock (f : UInt32) : Prop := f.toNat + 4 ≤ 112

instance : DecidablePred InBlock := fun _ => inferInstanceAs (Decidable (_ ≤ _))

theorem cell_field (hf : InBlock f) :
    cell (t.tcb + f) = Set.Ico (t.tcb.toNat + f.toNat) (t.tcb.toNat + f.toNat + 4) := by
  rw [cell, t.field_toNat hf]

theorem cell_field_subset (hf : InBlock f) :
    cell (t.tcb + f) ⊆ Set.Ico t.tcb.toNat (t.tcb.toNat + 112) := by
  have hf' : f.toNat + 4 ≤ 112 := hf
  rw [cell_field hf]
  exact Set.Ico_subset_Ico (by omega) (by omega)

theorem field_fits (hf : InBlock f) : (t.tcb + f).toNat + 4 ≤ 2 ^ 32 := by
  have hf' : f.toNat + 4 ≤ 112 := hf
  have := t.control
  rw [t.field_toNat hf]
  omega

theorem disjoint_fields (hf : InBlock f) (hg : InBlock g) (h : Separate f g) :
    Disjoint (cell (t.tcb + f)) (cell (t.tcb + g)) := by
  rw [cell_field hf, cell_field hg]
  refine Set.disjoint_left.mpr fun x hx hx' => ?_
  have h1 := hx.1
  have h2 := hx.2
  have h3 := hx'.1
  have h4 := hx'.2
  rcases h with h | h
  · omega
  · omega

/-- A field stays when another one is written. -/
theorem load_field (hf : InBlock f) (hg : InBlock g) (h : Separate f g) :
    load (storeWord m (t.tcb + f) w) (t.tcb + g) = load m (t.tcb + g) :=
  load_storeWord_of_cell (field_fits hf) (field_fits hg) (disjoint_fields hf hg h)

/-- The fields of two threads. -/
theorem disjoint_blocks (h : Disjoint t.bytes t'.bytes) :
    Disjoint (Set.Ico t.tcb.toNat (t.tcb.toNat + 112))
      (Set.Ico t'.tcb.toNat (t'.tcb.toNat + 112)) :=
  Set.disjoint_of_subset Set.subset_union_left Set.subset_union_left h

/-- A field is the same when the control block is. -/
theorem load_of_agree {m' : Image}
    (agree : Agree (Set.Ico t.tcb.toNat (t.tcb.toNat + 112)) m m') (hf : InBlock f) :
    load m' (t.tcb + f) = load m (t.tcb + f) :=
  agree.load (field_fits hf) (cell_field_subset hf)

end Fields

/-! ## The copies -/

section Copies

variable {t parent child : Thread} {m : Image}

/-- A word at the top of the kernel stack. -/
theorem top_word_toNat (room : 60 ≤ t.stackSize.toNat) {k : UInt32} (hk : k.toNat + 4 ≤ 60) :
    (t.top - 60 + k).toNat = t.top.toNat - 60 + k.toNat := by
  have htop := t.top_toNat
  have hinMemory := t.inMemory
  have hsub : (t.top - 60).toNat = t.top.toNat - 60 :=
    sub_toNat_of_le (show 60 ≤ t.top.toNat by omega)
  rw [add_toNat (by omega), hsub]

theorem top_word_fits (room : 60 ≤ t.stackSize.toNat) {k : UInt32} (hk : k.toNat + 4 ≤ 60) :
    (t.top - 60 + k).toNat + 4 ≤ 2 ^ 32 := by
  have hlt := t.top.toNat_lt
  have htop := t.top_toNat
  rw [top_word_toNat room hk]
  omega

/-- It belongs to the kernel stack. -/
theorem top_word_subset (room : 60 ≤ t.stackSize.toNat) {k : UInt32} (hk : k.toNat + 4 ≤ 60) :
    cell (t.top - 60 + k) ⊆ Set.Ico (t.top.toNat - 60) t.top.toNat := by
  have htop := t.top_toNat
  rw [cell, top_word_toNat room hk]
  exact Set.Ico_subset_Ico (by omega) (by omega)

/-- **The registers of the caller** are in its control block. -/
theorem load_saveRegisters (sized : t.Sized m) (room : 60 ≤ t.stackSize.toNat)
    {f k : UInt32} (hp : (f, k) ∈ stackFields) :
    load (saveRegisters m t.tcb) (t.tcb + f) = load m (t.top - 60 + 4 * k) := by
  have hfield : ∀ q ∈ stackFields, InBlock q.1 :=
    List.all_iff_forall_prop.mp (by decide)
  have hword : ∀ q ∈ stackFields, (4 * q.2).toNat + 4 ≤ 60 :=
    List.all_iff_forall_prop.mp (by decide)
  have hseparate : stackFields.Pairwise fun q r => Separate q.1 r.1 := by decide
  have hmem : (t.tcb + f, t.top - 60 + 4 * k) ∈
      stackFields.map fun q => (t.tcb + q.1, t.top - 60 + 4 * q.2) :=
    List.mem_map.mpr ⟨(f, k), hp, rfl⟩
  have hcopy : saveRegisters m t.tcb =
      copyWords m (stackFields.map fun q => (t.tcb + q.1, t.top - 60 + 4 * q.2)) := by
    unfold saveRegisters
    rw [sized.base, sized.size, Thread.top]
  have htop := t.top_toNat
  have hlt := t.top.toNat_lt
  rw [hcopy]
  refine load_copyWords m hmem ?_ ?_ ?_
  · simp only [List.mem_map]
    rintro _ ⟨q, hq, rfl⟩
    exact ⟨field_fits (hfield q hq), top_word_fits room (hword q hq)⟩
  · simp only [List.mem_map]
    rintro _ ⟨q, hq, rfl⟩ _ ⟨r, hr, rfl⟩
    refine Set.disjoint_of_subset (cell_field_subset (hfield q hq))
      ((top_word_subset room (hword r hr)).trans ?_) t.apart
    exact Set.Ico_subset_Ico (by omega) (by omega)
  · rw [List.pairwise_map]
    exact hseparate.imp_of_mem fun hq hr h => disjoint_fields (hfield _ hq) (hfield _ hr) h

/-- The fields from an offset on. -/
theorem cell_field_above {f g : UInt32} (hf : InBlock f) (h : g.toNat ≤ f.toNat) :
    cell (t.tcb + f) ⊆ Set.Ico (t.tcb.toNat + g.toNat) (t.tcb.toNat + 112) := by
  have hf' : f.toNat + 4 ≤ 112 := hf
  rw [cell_field hf]
  exact Set.Ico_subset_Ico (by omega) (by omega)

/-- Nothing but the general registers is written. -/
theorem agree_saveRegisters (m : Image) (t : Thread) :
    Agree (Set.Ico (t.tcb.toNat + 56) (t.tcb.toNat + 112))ᶜ m (saveRegisters m t.tcb) := by
  have hfield : ∀ q ∈ stackFields, InBlock q.1 ∧ 56 ≤ q.1.toNat :=
    List.all_iff_forall_prop.mp (by decide)
  refine agree_copyWords m ?_ ?_
  · simp only [List.mem_map]
    rintro _ ⟨q, hq, rfl⟩
    exact field_fits (hfield q hq).1
  · simp only [List.mem_map]
    rintro _ ⟨q, hq, rfl⟩
    exact Set.disjoint_left.mpr fun x hx hx' =>
      hx (cell_field_above (g := 56) (hfield q hq).1 (hfield q hq).2 hx')

/-- The other fields stay. -/
theorem load_saveRegisters_of_lt {f : UInt32} (hf : f.toNat + 4 ≤ 56) :
    load (saveRegisters m t.tcb) (t.tcb + f) = load m (t.tcb + f) := by
  have hf' : InBlock f := show f.toNat + 4 ≤ 112 by omega
  refine (agree_saveRegisters m t).load (field_fits hf') fun x hx hx' => ?_
  rw [t.field_toNat hf'] at hx
  have h1 := hx.2
  have h2 := hx'.1
  omega

/-- A store to a field leaves everything apart from the control block. -/
theorem agree_field {S : Set ℕ} {f w : UInt32} (hf : InBlock f)
    (apart : Disjoint S (Set.Ico t.tcb.toNat (t.tcb.toNat + 112))) :
    Agree S m (storeWord m (t.tcb + f) w) :=
  Agree.storeWord (field_fits hf) (Set.disjoint_of_subset_right (cell_field_subset hf) apart)

variable {pcb tid stackBase id : UInt32}

theorem agree_startFields {S : Set ℕ}
    (apart : Disjoint S (Set.Ico child.tcb.toNat (child.tcb.toNat + 112))) (parentTcb : UInt32) :
    Agree S m (startFields m parentTcb child.tcb pcb tid stackBase) :=
  ((((((agree_field (by decide) apart).trans (agree_field (by decide) apart)).trans
    (agree_field (by decide) apart)).trans (agree_field (by decide) apart)).trans
    (agree_field (by decide) apart)).trans (agree_field (by decide) apart))

/-- The fields up to `stack_size`. -/
theorem load_startFields (m : Image) (pcb tid stackBase : UInt32)
    (apart : Disjoint parent.bytes child.bytes) :
    let m' := startFields m parent.tcb child.tcb pcb tid stackBase
    load m' (child.tcb + 0) = stackBase + load m (parent.tcb + 28) ∧
      load m' (child.tcb + 12) = Processor.threadInit ∧ load m' (child.tcb + 24) = stackBase ∧
      load m' (child.tcb + 28) = load m (parent.tcb + 28) := by
  have hparent : ∀ f w (m : Image), InBlock f → load (storeWord m (child.tcb + f) w)
      (parent.tcb + 28) = load m (parent.tcb + 28) := fun f w m hf =>
    load_of_agree (agree_field hf (disjoint_blocks apart)) (by decide)
  simp (disch := decide) only [startFields, load_storeWord, load_field, hparent, and_self]

/-- The registers of one control block are copied to another one. -/
theorem load_copyRegisters (apart : Disjoint parent.bytes child.bytes) {f : UInt32}
    (hf : f ∈ registerFields) :
    load (copyWords m (registerFields.map fun f => (child.tcb + f, parent.tcb + f)))
      (child.tcb + f) = load m (parent.tcb + f) := by
  have hfield : ∀ f ∈ registerFields, InBlock f :=
    List.all_iff_forall_prop.mp (by decide)
  have hseparate : registerFields.Pairwise Separate := by decide
  refine load_copyWords m (List.mem_map.mpr ⟨f, hf, rfl⟩) ?_ ?_ ?_
  · simp only [List.mem_map]
    rintro _ ⟨q, hq, rfl⟩
    exact ⟨field_fits (hfield q hq), field_fits (hfield q hq)⟩
  · simp only [List.mem_map]
    rintro _ ⟨q, hq, rfl⟩ _ ⟨r, hr, rfl⟩
    exact Set.disjoint_of_subset (cell_field_subset (hfield q hq))
      (cell_field_subset (hfield r hr)) (disjoint_blocks apart).symm
  · rw [List.pairwise_map]
    exact hseparate.imp_of_mem fun hq hr h => disjoint_fields (hfield _ hq) (hfield _ hr) h

/-- Nothing else is written. -/
theorem agree_copyRegisters (m : Image) (child : Thread) (parentTcb : UInt32) :
    Agree (Set.Ico (child.tcb.toNat + 32) (child.tcb.toNat + 112))ᶜ m
      (copyWords m (registerFields.map fun f => (child.tcb + f, parentTcb + f))) := by
  have hfield : ∀ f ∈ registerFields, InBlock f ∧ 32 ≤ f.toNat :=
    List.all_iff_forall_prop.mp (by decide)
  refine agree_copyWords m ?_ ?_
  · simp only [List.mem_map]
    rintro _ ⟨q, hq, rfl⟩
    exact field_fits (hfield q hq).1
  · simp only [List.mem_map]
    rintro _ ⟨q, hq, rfl⟩
    exact Set.disjoint_left.mpr fun x hx hx' =>
      hx (cell_field_above (g := 32) (hfield q hq).1 (hfield q hq).2 hx')

theorem load_copyRegisters_of_lt {f parentTcb : UInt32} (hf : f.toNat + 4 ≤ 32) :
    load (copyWords m (registerFields.map fun f => (child.tcb + f, parentTcb + f)))
      (child.tcb + f) = load m (child.tcb + f) := by
  have hf' : InBlock f := show f.toNat + 4 ≤ 112 by omega
  refine (agree_copyRegisters m child parentTcb).load (field_fits hf') fun x hx hx' => ?_
  rw [child.field_toNat hf'] at hx
  have h1 := hx.2
  have h2 := hx'.1
  omega

/-- **The control block of the new thread**: the registers are those of the caller, except for
`%eax`. -/
theorem load_startThread (m : Image) (pcb tid stackBase id : UInt32)
    (apart : Disjoint parent.bytes child.bytes) :
    let m' := startThread m parent.tcb child.tcb pcb tid stackBase id
    (∀ f ∈ registerFields, f ≠ 84 → load m' (child.tcb + f) = load m (parent.tcb + f)) ∧
      load m' (child.tcb + 84) = 0 ∧ (∀ f ∈ [0, 12, 24, 28], load m' (child.tcb + f) =
        load (startFields m parent.tcb child.tcb pcb tid stackBase) (child.tcb + f)) := by
  have hblocks := disjoint_blocks apart
  -- the store to the caller's control block
  have hlast : ∀ (f w : UInt32) (m : Image), InBlock f →
      load (storeWord m (parent.tcb + 84) w) (child.tcb + f) = load m (child.tcb + f) :=
    fun f w m hf => load_of_agree (agree_field (by decide) hblocks.symm) hf
  refine ⟨fun f hf hne => ?_, ?_, fun f hf => ?_⟩
  · have hfield : ∀ f ∈ registerFields, f ≠ 84 → InBlock f ∧ Separate 84 f :=
      List.all_iff_forall_prop.mp (by decide)
    obtain ⟨hf', hsep⟩ := hfield f hf hne
    rw [startThread, hlast _ _ _ hf', load_field (by decide) hf' hsep, load_copyRegisters apart hf]
    exact load_of_agree (agree_startFields hblocks _) hf'
  · rw [startThread, hlast _ _ _ (by decide), load_storeWord]
  · have hfield : ∀ f ∈ [(0 : UInt32), 12, 24, 28], InBlock f ∧ Separate 84 f ∧
        f.toNat + 4 ≤ 32 :=
      List.all_iff_forall_prop.mp (by decide)
    obtain ⟨hf', hsep, hlt⟩ := hfield f hf
    rw [startThread, hlast _ _ _ hf', load_field (by decide) hf' hsep,
      load_copyRegisters_of_lt hlt]

/-- **Nothing else is written**: the new control block, and the `%eax` of the caller. -/
theorem agree_startThread (m : Image) (parent child : Thread) (pcb tid stackBase id : UInt32) :
    Agree (Set.Ico child.tcb.toNat (child.tcb.toNat + 112) ∪
        Set.Ico (parent.tcb.toNat + 56) (parent.tcb.toNat + 112))ᶜ
      m (startThread m parent.tcb child.tcb pcb tid stackBase id) := by
  have hchild : Disjoint (Set.Ico child.tcb.toNat (child.tcb.toNat + 112) ∪
      Set.Ico (parent.tcb.toNat + 56) (parent.tcb.toNat + 112))ᶜ
      (Set.Ico child.tcb.toNat (child.tcb.toNat + 112)) :=
    Set.disjoint_left.mpr fun x hx hx' => hx (Or.inl hx')
  refine (((agree_startFields hchild parent.tcb).trans ((agree_copyRegisters _ child _).mono
    fun x hx hx' => hx (Or.inl ⟨?_, hx'.2⟩))).trans (agree_field (by decide) hchild)).trans
    (Agree.storeWord (field_fits (by decide)) (Set.disjoint_left.mpr fun x hx hx' =>
      hx (Or.inr (cell_field_above (g := 56) (by decide) (by decide) hx'))))
  have h1 := hx'.1
  omega

end Copies

/-! ## The new thread -/

/-- What `PUSHREGS` and the processor leave at the top of the kernel stack. -/
def stackWords (v : UserRegisters) : List UInt32 :=
  [v.ebx, v.ecx, v.edx, v.esi, v.edi, v.ebp, v.eip, v.cs, v.eflags, v.esp, v.ss]

/-- **The new thread has the registers of the caller**, with `%eax` zero. -/
theorem Forks.starts {parent child : Thread} {m m' : Image} {v : UserRegisters} (code : Code)
    (forks : Forks parent child m m') (apart : Disjoint parent.bytes child.bytes)
    (sized : parent.Sized m) (room : 60 ≤ parent.stackSize.toNat)
    (size : child.stackSize = parent.stackSize)
    (locals : code.locals.toNat + 60 ≤ child.stackSize.toNat)
    (words : WordsAt m (parent.top - 60 + 16) (stackWords v)) :
    Starts code m' child { v with eax := 0 } := by
  obtain ⟨m₀, m₁, pcb, tid, id, hbefore, hsaved, hstarted⟩ := forks.run
  obtain ⟨hcopied, heax, hfields⟩ := load_startThread m₁ pcb tid child.stackBase id apart
  obtain ⟨hzero, h12, h24, h28⟩ := load_startFields m₁ pcb tid child.stackBase apart
  have hsized : parent.Sized m₀ :=
    sized.frame (hbefore.mono Set.subset_union_left)
  -- a register, from the stack of the caller to the new control block
  have hregister : ∀ f k, (f, k) ∈ stackFields →
      load m' (child.tcb + f) = load m (parent.top - 60 + 4 * k) := by
    intro f k hp
    have hfield : ∀ q ∈ stackFields, q.1 ∈ registerFields ∧ q.1 ≠ 84 ∧ InBlock q.1 ∧
        (4 * q.2).toNat + 4 ≤ 60 :=
      List.all_iff_forall_prop.mp (by decide)
    obtain ⟨hmem, hne, hf, hk⟩ := hfield _ hp
    rw [load_of_agree hstarted hf, hcopied f hmem hne, load_of_agree hsaved hf,
      load_saveRegisters hsized room hp]
    exact (hbefore.mono Set.subset_union_right).load (top_word_fits room hk)
      (top_word_subset room hk)
  have hsize : load m₁ (parent.tcb + 28) = parent.stackSize := by
    rw [load_of_agree hsaved (by decide), load_saveRegisters_of_lt (by decide), hsized.size]
  refine ⟨?_, ?_, ⟨?_, ?_⟩, ?_, locals⟩
  · rw [← UInt32.add_zero child.tcb, load_of_agree hstarted (by decide), hfields 0 (by decide),
      hzero, hsize, ← size, Thread.top]
  · rw [load_of_agree hstarted (by decide), hfields 12 (by decide), h12]
  · rw [load_of_agree hstarted (by decide), hfields 24 (by decide), h24]
  · rw [load_of_agree hstarted (by decide), hfields 28 (by decide), h28, hsize, size]
  · simp only [stackWords, WordsAt, UInt32.add_assoc, UInt32.reduceAdd] at words
    obtain ⟨hebx, hecx, hedx, hesi, hedi, hebp, heip, hcs, heflags, hesp, hss, -⟩ := words
    have h84 : load m' (child.tcb + 84) = 0 := (load_of_agree hstarted (by decide)).trans heax
    simp only [registersOf, h84, UserRegisters.mk.injEq]
    exact ⟨(hregister 56 8 (by decide)).trans hedi, (hregister 60 7 (by decide)).trans hesi,
      (hregister 64 9 (by decide)).trans hebp, (hregister 72 4 (by decide)).trans hebx,
      (hregister 76 6 (by decide)).trans hedx, (hregister 80 5 (by decide)).trans hecx, trivial,
      (hregister 92 10 (by decide)).trans heip, (hregister 96 11 (by decide)).trans hcs,
      (hregister 100 12 (by decide)).trans heflags, (hregister 104 13 (by decide)).trans hesp,
      (hregister 108 14 (by decide)).trans hss⟩

/-- The registers of a thread at `INT`. -/
def caller (u : Cpu) (flags next : UInt32) : UserRegisters where
  edi := u.general .edi
  esi := u.general .esi
  ebp := u.general .ebp
  ebx := u.general .ebx
  edx := u.general .edx
  ecx := u.general .ecx
  eax := u.general .eax
  eip := next
  cs := segselUserCs
  eflags := flags
  esp := u.esp
  ss := segselUserDs

/-- **What a system call leaves at the top of the kernel stack.** -/
theorem stackWords_of_enterKernel {t : Thread} {u e : Cpu} {flags next back : UInt32}
    (room : 64 ≤ t.stackSize.toNat)
    (entered : enterKernel .fork t.top flags next back u = some e) :
    WordsAt e.memory (t.top - 60 + 16) (stackWords (caller u flags next)) := by
  have htop := t.top_toNat
  have hlt := t.top.toNat_lt
  have hfinds : Wrapper.fork.passing.Finds u [] := ⟨rfl, trivial⟩
  obtain ⟨e', he', hesp, hwords, -⟩ := enterKernel_spec .fork flags next back hfinds
    (Set.empty_subset _) (show 64 ≤ t.top.toNat by omega) (Set.empty_disjoint _)
  obtain rfl : e = e' := Option.some.inj (entered.symm.trans he')
  have hesp' : e.esp.toNat = t.top.toNat - 48 := by
    rw [hesp]
    show t.top.toNat - 24 - 24 - 0 = _
    omega
  have haddr : e.esp + 4 = t.top - 60 + 16 := by
    apply UInt32.toNat.inj
    rw [add_four_toNat (by omega), hesp',
      top_word_toNat (by omega) (by decide)]
    show _ = t.top.toNat - 60 + 16
    omega
  rw [← haddr]
  exact hwords.2

/-- **The new thread goes on behind its parent's `INT`**, when it is switched to for the first
time. -/
theorem child_of_run {code : Code} {s₁ s₂ : System} {child : Thread} {u : Cpu} {flags next : UInt32}
    {as : List Processor.Act} (good : Good code s₁) (run : Run (Step code) s₁ as s₂)
    (parked : (child, Rest.fresh { caller u flags next with eax := 0 }) ∈ s₁.parked)
    (stays : ∀ a ∈ as, a ≠ .reap child ∧ a ≠ .switch child) (hflags : flags &&& eflVm = 0)
    (sane : s₂.kernel.cpu.Sane) (room : s₂.current.HasRoom s₂.kernel.cpu) :
    ∃ k f, contextSwitch code s₂.kernel child.tcb = some k ∧ iret k.cpu = some f ∧
      f.general = answered u 0 ∧ f.esp = u.esp ∧ f.eip = next ∧ f.memory = k.cpu.memory ∧
      ∀ r, f.segment r = segselUserDs := by
  obtain ⟨k, hk, -, -, hgoes⟩ := switch_of_run good run parked stays sane room
  -- `iret` finds the segments of user mode
  let v : Exception.UserCpu := Cpu.inUserMode { caller u flags next with eax := 0 }
  have hsegments : segselUserCs &&& 0xffff = segselUserCs ∧
      segselUserDs &&& 0xffff = segselUserDs := by decide
  have hiret : k.cpu.iret = .resumes v.inUserMode := by
    refine Eq.trans hgoes ?_
    rw [leaveWith, if_pos ⟨hflags, hsegments.1⟩]
    exact if_pos hsegments.2
  refine ⟨k, inUser v.inUserMode k.cpu.memory, hk, by rw [iret, hiret], ?_, rfl, rfl, rfl,
    fun r => ?_⟩
  · funext r
    cases r <;> rfl
  · cases r <;> rfl

/-- **The first switch to the new thread** goes on behind the caller's `INT`. A thread enters the
kernel through the wrapper of `fork` or `thread_fork`, and makes a new thread. After any number of
steps, the first `context_switch` to this one succeeds, and its `iret` leads to user mode with the
registers of the caller, the result 0, and the data segments of user mode. -/
theorem forked_thread_returns_zero {code : Code} {s : System} {child : Thread} {u c : Cpu}
    {flags next back : UInt32} {w : Wrapper} (hw : w = .fork ∨ w = .threadForkWrapper)
    (good : Good code s) (room : 64 ≤ s.current.stackSize.toNat) (hflags : flags &&& eflVm = 0)
    (entered : enterKernel w s.current.top flags next back u = some s.kernel.cpu)
    (forks : Forks s.current child s.memory c.memory) (works : Works s c.memory)
    (apart : ∀ t ∈ s.current :: s.parked.map Prod.fst, Disjoint child.bytes t.bytes)
    (size : child.stackSize = s.current.stackSize)
    (locals : code.locals.toNat + 60 ≤ child.stackSize.toNat) :
    ∃ s₁, Step code s (.create child) s₁ ∧ s₁.kernel.cpu = c ∧
      ∀ as s₂, Run (Step code) s₁ as s₂ → (∀ a ∈ as, a ≠ .reap child ∧ a ≠ .switch child) →
        s₂.kernel.cpu.Sane → s₂.current.HasRoom s₂.kernel.cpu →
        ∃ k f, contextSwitch code s₂.kernel child.tcb = some k ∧ iret k.cpu = some f ∧
          f.general = answered u 0 ∧ f.esp = u.esp ∧ f.eip = next ∧
          ∀ r, f.segment r = segselUserDs := by
  obtain rfl : w = .fork := hw.elim id id
  have hwords := stackWords_of_enterKernel room entered
  have hstarts := forks.starts code (apart s.current List.mem_cons_self).symm good.sized
    (by omega) size locals hwords
  have hstep := Step.create works apart hstarts
  refine ⟨_, hstep, rfl, fun as s₂ run stays sane hroom => ?_⟩
  obtain ⟨k, f, hk, hf, hgeneral, hesp, heip, -, hsegment⟩ :=
    child_of_run (good.step hstep) run List.mem_cons_self stays hflags sane hroom
  exact ⟨k, f, hk, hf, hgeneral, hesp, heip, hsegment⟩

/-! ## A thread that forks -/

/-- A thread in user mode. -/
def forkCall : Cpu where
  general := fun _ => 7
  segment := fun _ => segselUserDs
  esp := 0x8000
  eip := 0
  zero := false
  memory := twoThreads

/-- The system in which only this thread exists, and its processor is `e`. -/
def alone (e : Cpu) : System where
  kernel := { cpu := e, cr3 := 0, esp0 := 0x3000, currentThread := 0x1000 }
  current := idleThread
  parked := []

theorem alone_good {e : Cpu} (code : Code)
    (agree : Agree (Set.Ico 0x1000 0x1038) twoThreads e.memory) : Good code (alone e) where
  running := rfl
  esp0 := rfl
  started := by
    have hload : load e.memory (0x1000 + 12) = load twoThreads (0x1000 + 12) :=
      agree.load (by decide) (Set.Ico_subset_Ico (by decide) (by decide))
    show load e.memory (0x1000 + 12) ≠ Processor.threadInit
    rw [hload]
    decide
  sized := Thread.Sized.frame (t := idleThread) ⟨by decide, by decide⟩
    (agree.mono (Set.Ico_subset_Ico (by decide) (by decide)))
  apart := List.pairwise_singleton _ _
  holds _ hp := absurd hp List.not_mem_nil

/-- Memory behind `fork`. -/
def forkedMemory (m : Image) : Image :=
  startThread (saveRegisters m 0x1000) 0x1000 0x4000 1 2 0x5000 3

theorem agree_forkedMemory (m : Image) :
    Agree (Set.Ico 0x1038 0x1070 ∪ Set.Ico 0x4000 0x4070)ᶜ m (forkedMemory m) := by
  have hsave : Agree (Set.Ico 0x1038 0x1070)ᶜ m (saveRegisters m 0x1000) :=
    agree_saveRegisters m idleThread
  have hstart : Agree (Set.Ico 0x4000 0x4070 ∪ Set.Ico 0x1038 0x1070)ᶜ (saveRegisters m 0x1000)
    (forkedMemory m) := agree_startThread _ idleThread newThread 1 2 0x5000 3
  rw [Set.union_comm] at hstart
  exact (hsave.mono (Set.compl_subset_compl.mpr Set.subset_union_left)).trans hstart

theorem alone_forks (m : Image) : Forks idleThread newThread m (forkedMemory m) :=
  ⟨⟨_, _, 1, 2, 3, Agree.refl _ _, Agree.refl _ _, Agree.refl _ _⟩⟩

theorem alone_works {e : Cpu} {code : Code} (good : Good code (alone e)) :
    Works (alone e) (forkedMemory e.memory) := by
  have hkeep : Agree (Set.Ico 0x1000 0x1038) e.memory (forkedMemory e.memory) := by
    refine (agree_forkedMemory e.memory).mono ?_
    rintro x ⟨-, h1⟩ (⟨h2, -⟩ | ⟨h2, -⟩)
    · omega
    · omega
  refine ⟨fun p hp => absurd hp List.not_mem_nil, ?_,
    hkeep.mono (Set.Ico_subset_Ico (show 0x1000 ≤ 0x1000 + 24 by decide)
      (show 0x1000 + 32 ≤ 0x1038 by decide))⟩
  have hload := hkeep.load (a := 0x1000 + 12) (by decide)
    (Set.Ico_subset_Ico (by decide) (by decide))
  exact fun hinit => good.started (hload ▸ hinit)

/-- What the kernel is entered with leaves the control block of the thread. -/
theorem alone_good_of_agree {m : Image} {e : Cpu} (code : Code)
    (block : Agree (Set.Ico 0x1000 0x1038) twoThreads m)
    (agree : Agree (Set.Ico (0x3000 - 64) 0x3000)ᶜ m e.memory) : Good code (alone e) := by
  refine alone_good code (block.trans (agree.mono fun x hx hx' => ?_))
  have h1 := hx.2
  have h2 := hx'.1
  omega

/-- The child of a thread that calls `fork` comes to user mode with the result 0. -/
theorem forked_thread_returns_zero_alone : ∃ (e c : Cpu) (s₁ : System) (k : Processor.Kernel)
    (f : Cpu), enterKernel .fork 0x3000 0x202 0x9000 0x100000 forkCall = some e ∧
      Step plainCode (alone e) (.create newThread) s₁ ∧
      Step plainCode s₁ .work { s₁ with kernel := { s₁.kernel with cpu := c } } ∧
      contextSwitch plainCode { s₁.kernel with cpu := c } 0x4000 = some k ∧ iret k.cpu = some f ∧
      f.general .eax = 0 ∧ f.general .ebx = 7 ∧ f.esp = 0x8000 ∧ f.eip = 0x9000 := by
  have hfinds : Wrapper.fork.passing.Finds forkCall [] := ⟨rfl, trivial⟩
  obtain ⟨e, he, -, -, hagree⟩ := enterKernel_spec .fork 0x202 0x9000 0x100000 hfinds
    (Set.empty_subset _) (show 64 ≤ (0x3000 : UInt32).toNat by decide) (Set.empty_disjoint _)
  have good := alone_good_of_agree plainCode (Agree.refl _ twoThreads) hagree
  obtain ⟨s₁, hstep, hcpu, hrun⟩ := forked_thread_returns_zero
    (c := { e with memory := forkedMemory e.memory })
    (Or.inl rfl) good (show 64 ≤ 0x1000 by decide) (by decide) he (alone_forks e.memory)
    (alone_works good) (fun t ht => by
      rw [List.mem_singleton.mp ht]
      exact (twoThreadSystem_good.disjoint List.mem_cons_self).symm) rfl (by decide)
  have hcurrent : s₁.current = idleThread := by
    cases hstep
    rfl
  -- it works until it is at the bottom of its stack
  have work : Step plainCode s₁ .work { s₁ with kernel := { s₁.kernel with
      cpu := { s₁.kernel.cpu with segment := fun _ => 0, esp := 0x3000 } } } :=
    .work (good.step hstep).works_refl
  obtain ⟨k, f, hk, hf, hgeneral, hesp, heip, -⟩ := hrun _ _ (Run.nil.snoc work) (by simp)
    (Cpu.sane_of_null rfl) (by
      rw [hcurrent]
      exact ⟨show 0x2000 + 68 ≤ 0x3000 by decide, show 0x3000 ≤ 0x3000 from le_rfl⟩)
  exact ⟨e, _, s₁, k, f, he, hstep, work, hk, hf, congrFun hgeneral .eax, congrFun hgeneral .ebx,
    hesp, heip⟩

end Pebbles.Syscall
