import Pebbles.Hardware.Interrupts
import Pebbles.Syscall.ForkedThread

/-! # `thread_fork` of the thread library

`t_fork.S` calls the kernel on the stack of the thread to come. The parent goes back to its own
stack and returns the number of its child; the child calls `run_child` with the function and the
argument that the parent has been given. -/

namespace Pebbles.Syscall

open ByteStores Processor Transition
open Exception (eflVm)

/-! ## The code -/

/-- `thread_fork`, up to `INT`. -/
def threadForkEnter : List Insn :=
  [.pushl .ebp, .movEsp .ebp, .pushl .ebx, .pushl .esi, .pushl .edi, .loadFrame 12 .esi,
    .loadFrame 16 .edi, .movEsp .ebx, .loadFrameEsp 8, .movEsp .ebp]

/-- The arguments of `run_child`. -/
def threadForkChild : List Insn := [.pushl .edi, .pushl .esi]

/-- `parent_end`. -/
def threadForkParent : List Insn :=
  [.setEsp .ebx, .popl .edi, .popl .esi, .popl .ebx, .popl .ebp, .ret]

/-- How `thread_fork` goes on behind `INT`. -/
inductive Forked where
  /-- It returns. -/
  | parent (c : Cpu)
  /-- It calls `run_child`. -/
  | child (c : Cpu)

/-- **`thread_fork` behind `INT`**: `back` is where `run_child` would return to. -/
def threadForkLeave (back : UInt32) (c : Cpu) : Option Forked :=
  (c.run [.cmpImm 0 .eax]).bind fun c =>
    if c.zero then (c.run threadForkChild).map fun c => .child (c.push back)
    else (c.run threadForkParent).map .parent

/-! ## Before `INT` -/

section Stub

variable {c u e : Cpu} {ret stack func arg back : UInt32}

/-- **A call of `thread_fork`.** -/
structure Forking (c : Cpu) (ret stack func arg : UInt32) : Prop where
  /-- The arguments. -/
  words : WordsAt c.memory c.esp [ret, stack, func, arg]
  /-- There is room for the registers. -/
  room : 16 ≤ c.esp.toNat
  /-- The arguments are in memory. -/
  fits : c.esp.toNat + 16 ≤ 2 ^ 32

/-- The stack pointer is on the new stack, and the registers are on the old one. -/
structure OnNewStack (c u : Cpu) (stack func arg : UInt32) : Prop where
  /-- The registers. -/
  general : u.general = fun
    | .ebx => c.esp - 16
    | .esi => func
    | .edi => arg
    | .ebp => stack
    | r => c.general r
  /-- The new stack. -/
  esp : u.esp = stack
  /-- The old stack. -/
  memory : u.memory = pushWords c.memory c.esp
    [c.general .ebp, c.general .ebx, c.general .esi, c.general .edi]
  /-- The segment registers stay. -/
  segment : u.segment = c.segment

theorem run_threadForkEnter (h : Forking c ret stack func arg) :
    ∃ u, c.run threadForkEnter = some u ∧ OnNewStack c u stack func arg := by
  have hagree := agree_pushWords c.memory
    [c.general .ebp, c.general .ebx, c.general .esi, c.general .edi] h.room
  obtain ⟨-, hstack, hfunc, harg, -⟩ := h.words.frame hagree h.fits fun x hx hx' => by
    have h1 := hx.1
    have h2 := hx'.2
    omega
  have h12 : c.esp - 4 + 12 = c.esp + 4 + 4 := by
    rw [show (12 : UInt32) = 8 + 4 from rfl, ← UInt32.add_assoc, sub_four_add_eight]
  have h16 : c.esp - 4 + 16 = c.esp + 4 + 4 + 4 := by
    rw [show (16 : UInt32) = 12 + 4 from rfl, ← UInt32.add_assoc, h12]
  have hesp : c.esp - 4 - 4 - 4 - 4 = c.esp - 16 := by
    rw [sub_four_sub_four, UInt32.sub_eq_iff_eq_add, UInt32.sub_eq_iff_eq_add,
      UInt32.sub_eq_iff_eq_add, UInt32.add_assoc, UInt32.add_assoc]
    exact (UInt32.sub_add_cancel _ _).symm
  simp only [pushWords, hesp] at hstack hfunc harg
  refine ⟨_, rfl, ?_, ?_, rfl, rfl⟩
  · funext r
    cases r <;> simp [Cpu.set, Cpu.push, sub_four_add_eight, h12, h16, hesp, hstack, hfunc, harg]
  · simp [Cpu.set, Cpu.push, sub_four_add_eight, hesp, hstack]

/-- The registers on the old stack. -/
theorem OnNewStack.words (h : OnNewStack c u stack func arg)
    (call : Forking c ret stack func arg) :
    WordsAt u.memory (c.esp - 16) [c.general .edi, c.general .esi, c.general .ebx, c.general .ebp,
      ret] := by
  have hret : WordsAt c.memory c.esp [ret] := ⟨call.words.1, trivial⟩
  rw [h.memory]
  exact hret.pushWords [c.general .ebp, c.general .ebx, c.general .esi, c.general .edi] call.room
    (show _ + 4 ≤ _ by have := call.fits; omega)

/-! ## Behind `INT` -/

/-- **The child calls `run_child`** with the function and the argument, on its own stack. -/
theorem OnNewStack.child (h : OnNewStack c u stack func arg) (back : UInt32)
    (general : e.general = answered u 0) (esp : e.esp = u.esp) (room : 12 ≤ stack.toNat) :
    ∃ m, threadForkLeave back e = some (.child m) ∧ m.esp = stack - 12 ∧
      WordsAt m.memory m.esp [back, func, arg] := by
  have hesi : e.general .esi = func := by rw [general, answered, if_neg (by decide), h.general]
  have hedi : e.general .edi = arg := by rw [general, answered, if_neg (by decide), h.general]
  have heax : e.general .eax = 0 := by rw [general, answered, if_pos rfl]
  have hleave : threadForkLeave back e =
      some (.child (Cpu.pushAll { e with zero := true } [arg, func, back])) := by
    simp [threadForkLeave, threadForkChild, Cpu.run, Cpu.exec, heax, hesi, hedi, Cpu.pushAll,
      Cpu.push]
  have hesp : e.esp = stack := esp.trans h.esp
  have hnil : WordsAt e.memory e.esp [] := trivial
  have hwords := wordsAt_pushAll (c := { e with zero := true }) hnil [arg, func, back]
    (show 12 ≤ e.esp.toNat by rwa [hesp]) e.esp.toNat_lt.le
  refine ⟨_, hleave, ?_, hwords⟩
  rw [Cpu.pushAll_eq, ← hesp]
  rfl

/-- **The parent returns** the number of the child, with its registers and on its own stack. -/
theorem OnNewStack.parent (h : OnNewStack c u stack func arg)
    (call : Forking c ret stack func arg) (back : UInt32) {result : UInt32} (hresult : result ≠ 0)
    (general : e.general = answered u result)
    (kept : Agree (Set.Ico (c.esp.toNat - 16) (c.esp.toNat + 4)) u.memory e.memory) :
    ∃ m, threadForkLeave back e = some (.parent m) ∧ m.general = answered c result ∧
      m.esp = c.esp + 4 ∧ m.eip = ret ∧ m.memory = e.memory ∧ m.segment = e.segment := by
  have hebx : e.general .ebx = c.esp - 16 := by
    rw [general, answered, if_neg (by decide), h.general]
  have heax : e.general .eax = result := by rw [general, answered, if_pos rfl]
  have hlow := call.room
  have hfits := call.fits
  have hsub : (c.esp - 16).toNat = c.esp.toNat - 16 := sub_toNat_of_le hlow
  have hwords := (h.words call).frame kept (show _ + 20 ≤ _ by omega) fun x hx => ⟨by
    have := hx.1
    omega, by
    have hx2 : x < _ + 20 := hx.2
    omega⟩
  simp only [WordsAt, UInt32.add_assoc, UInt32.reduceAdd] at hwords
  obtain ⟨hedi, hesi, hebx', hebp, hret, -⟩ := hwords
  rw [UInt32.sub_add_cancel] at hret
  have hesp : c.esp - 16 + 20 = c.esp + 4 := by
    rw [show (20 : UInt32) = 16 + 4 from rfl, ← UInt32.add_assoc, UInt32.sub_add_cancel]
  have hregisters : ∀ r, r ≠ .ebp → r ≠ .ebx → r ≠ .esi → r ≠ .edi →
      e.general r = answered c result r := fun r h1 h2 h3 h4 => by
    rw [general, answered, answered, h.general]
    cases r <;> simp_all
  refine ⟨{ e with general := answered c result, esp := c.esp + 4, eip := ret, zero := false }, ?_,
    rfl, rfl, rfl, rfl, rfl⟩
  simp [threadForkLeave, threadForkParent, Cpu.run, Cpu.exec, heax, hresult, Cpu.drop, Cpu.word,
    Cpu.set, UInt32.add_assoc, hebx, hedi, hesi, hebx', hebp, hret, hesp]
  funext r
  cases r <;> simp [answered, hregisters]

end Stub

/-! ## Parent and child -/

section Split

variable {code : Code} {s : System} {child : Thread} {c u d : Cpu}
  {ret stack func arg flags next back : UInt32}

/-- **The kernel goes back to the parent.** -/
theorem leave_threadFork {t : Thread} {e e' : Cpu} (sane : u.Sane) (hflags : flags &&& eflVm = 0)
    (room : 64 ≤ t.stackSize.toNat)
    (entered : enterKernel .threadForkWrapper t.top flags next back u = some e)
    (kept : Agree (Set.Ico (e.esp.toNat + 4) t.top.toNat) e.memory e'.memory)
    (hesp : e'.esp = e.esp + 4) :
    ∃ f, leaveKernel .threadForkWrapper e' = some f ∧
      f.general = answered u (e'.general .eax) ∧ f.esp = u.esp ∧ f.eip = next ∧
      (∀ r, f.segment r = segselUserDs) ∧
      Agree (Set.Ico t.stackBase.toNat t.top.toNat)ᶜ e'.memory f.memory := by
  have htop := t.top_toNat
  have hlt := t.top.toNat_lt
  have hfinds : Wrapper.threadForkWrapper.passing.Finds u [] := ⟨rfl, trivial⟩
  obtain ⟨e₀, he₀, hsp, hwords, -⟩ := enterKernel_spec .threadForkWrapper flags next back hfinds
    (Set.empty_subset _) (show 64 ≤ t.top.toNat by omega) (Set.empty_disjoint _)
  obtain rfl : e = e₀ := Option.some.inj (entered.symm.trans he₀)
  have hsp' : e.esp.toNat = t.top.toNat - 48 := by
    rw [hsp]
    show t.top.toNat - 24 - 24 - 0 = _
    omega
  have hsp4 : (e.esp + 4).toNat = e.esp.toNat + 4 := add_four_toNat (by omega)
  have hwords' : WordsAt e'.memory (e'.esp + 4 * UInt32.ofNat 0)
      (Wrapper.threadForkWrapper.saved u ++ frame u flags next) := by
    have hzero : e'.esp + 4 * UInt32.ofNat 0 = e.esp + 4 := by rw [hesp]; exact UInt32.add_zero _
    rw [hzero]
    refine WordsAt.frame hwords.2 kept ?_ fun x hx => ⟨?_, ?_⟩
    · rw [hsp4]
      show _ + 44 ≤ _
      omega
    · have := hx.1
      omega
    · have hx2 : x < _ + 44 := hx.2
      omega
  obtain ⟨f, hf, hgeneral, hfesp, heip, hsegment, hagree⟩ := leaveKernel_spec .threadForkWrapper
    t.top sane hflags (show 24 + 24 + 0 ≤ _ by omega) (by
      rw [hesp, hsp4]
      show _ = t.top.toNat - 20 - 24 - 0
      omega) hwords'
  refine ⟨f, hf, hgeneral, hfesp, heip, hsegment, hagree.mono
    (Set.compl_subset_compl.mpr (Set.Ico_subset_Ico_left ?_))⟩
  show t.stackBase.toNat ≤ t.top.toNat - 64 - 0
  omega

/-- **`thread_fork` returns in the parent and calls `run_child` in the child.** A thread calls it,
and the kernel makes a new thread. Whatever runs in between, the child's first `context_switch`
leads to the call of `run_child` with the function and the argument on the new stack; and when
`sys_thread_fork` returns a number other than 0, the parent is back behind its call with the number,
its registers and its stack, as long as nobody writes to the frame of the call. -/
theorem thread_fork_splits (runChild : UInt32) (good : Good code s)
    (call : Forking c ret stack func arg)
    (space : 12 ≤ stack.toNat) (sane : c.Sane) (stub : c.run threadForkEnter = some u)
    (room : 64 ≤ s.current.stackSize.toNat) (hflags : flags &&& eflVm = 0)
    (entered : enterKernel .threadForkWrapper s.current.top flags next back u =
      some s.kernel.cpu)
    (forks : Forks s.current child s.memory d.memory) (works : Works s d.memory)
    (kept : Agree (Set.Ico (s.kernel.cpu.esp.toNat + 4) s.current.top.toNat) s.memory d.memory)
    (apart : ∀ t ∈ s.current :: s.parked.map Prod.fst, Disjoint child.bytes t.bytes)
    (size : child.stackSize = s.current.stackSize)
    (locals : code.locals.toNat + 60 ≤ child.stackSize.toNat)
    (user : Disjoint (Set.Ico (c.esp.toNat - 16) (c.esp.toNat + 4))
      (Set.Ico s.current.stackBase.toNat s.current.top.toNat)) :
    ∃ s₁, Step code s (.create child) s₁ ∧ s₁.kernel.cpu = d ∧
      (∀ as s₂, Run (Step code) s₁ as s₂ → (∀ a ∈ as, a ≠ .reap child ∧ a ≠ .switch child) →
        s₂.kernel.cpu.Sane → s₂.current.HasRoom s₂.kernel.cpu →
        ∃ k f m, contextSwitch code s₂.kernel child.tcb = some k ∧ iret k.cpu = some f ∧
          f.eip = next ∧ threadForkLeave runChild f = some (.child m) ∧ m.esp = stack - 12 ∧
          WordsAt m.memory m.esp [runChild, func, arg]) ∧
      ∀ as s₂,
        Run (Satisfying (Step code) (KeepsStack s.current (s.kernel.cpu.esp.toNat + 4))) s₁ as s₂ →
        s₂.current = s.current → s₂.kernel.cpu.esp = s.kernel.cpu.esp + 4 →
        s₂.kernel.cpu.general .eax ≠ 0 →
        Agree (Set.Ico (c.esp.toNat - 16) (c.esp.toNat + 4)) u.memory s₂.memory →
        ∃ f m, leaveKernel .threadForkWrapper s₂.kernel.cpu = some f ∧ f.eip = next ∧
          threadForkLeave runChild f = some (.parent m) ∧
          m.general = answered c (s₂.kernel.cpu.general .eax) ∧ m.esp = c.esp + 4 ∧
          m.eip = ret := by
  obtain ⟨u', hu', hstack⟩ := run_threadForkEnter call
  obtain rfl : u = u' := Option.some.inj (stub.symm.trans hu')
  have husane : u.Sane := fun r => by
    rw [hstack.segment]
    exact sane r
  have hwords := stackWords_of_enterKernel room entered
  have hstarts := forks.starts code (apart s.current List.mem_cons_self).symm good.sized
    (by omega) size locals hwords
  have hstep := Step.create works apart hstarts
  refine ⟨_, hstep, rfl, fun as s₂ run stays hsane hroom => ?_,
    fun as s₂ run hcurrent hesp hresult hframe => ?_⟩
  · obtain ⟨k, f, hk, hf, hgeneral, hesp, heip, -, -⟩ :=
      child_of_run (good.step hstep) run List.mem_cons_self stays hflags hsane hroom
    obtain ⟨m, hm, hmesp, hmwords⟩ := hstack.child runChild hgeneral hesp space
    exact ⟨k, f, m, hk, hf, heip, hm, hmesp, hmwords⟩
  · obtain ⟨⟨hkept, -⟩, -⟩ := Kept.run ⟨kept, Or.inl rfl⟩ (good.step hstep) run
    obtain ⟨f, hf, hgeneral, -, heip, -, hagree⟩ :=
      leave_threadFork husane hflags room entered hkept hesp
    obtain ⟨m, hm, hmgeneral, hmesp, hmeip, -⟩ := hstack.parent call runChild hresult hgeneral
      (hframe.trans (hagree.mono fun x hx hx' => Set.disjoint_left.mp user hx hx'))
    exact ⟨f, m, hf, heip, hm, hmgeneral, hmesp, hmeip⟩

end Split

/-! ## A thread that calls `thread_fork` -/

/-- The call: the new stack ends at `0xb000`. -/
def threadForkCall : Cpu :=
  Cpu.pushAll { forkCall with esp := 0x8010 } [0xd, 0xc00, 0xb000, 0xa00]

theorem threadForkCall_words :
    Forking threadForkCall 0xa00 0xb000 0xc00 0xd ∧
      Agree (Set.Ico (0x8010 - 16) 0x8010)ᶜ twoThreads threadForkCall.memory := by
  have hnil : WordsAt forkCall.memory 0x8010 [] := trivial
  have hwords := wordsAt_pushAll (c := { forkCall with esp := 0x8010 }) hnil
    [0xd, 0xc00, 0xb000, 0xa00] (show 16 ≤ 0x8010 by decide) (show 0x8010 + 0 ≤ 2 ^ 32 by decide)
  have hagree := agree_pushAll { forkCall with esp := 0x8010 } [0xd, 0xc00, 0xb000, 0xa00]
    (show 16 ≤ 0x8010 by decide)
  exact ⟨⟨hwords, by decide, by decide⟩, hagree⟩

theorem threadForkCall_sane : threadForkCall.Sane := fun _ =>
  show Exception.loadable segselUserDs = true ∧ segselUserDs &&& 0xffff = segselUserDs by decide

/-- The child calls `run_child`, and the parent returns the number 5. -/
theorem thread_fork_splits_alone : ∃ (u e : Cpu) (s₁ : System) (k : Processor.Kernel)
    (f m f' m' : Cpu), threadForkCall.run threadForkEnter = some u ∧
      enterKernel .threadForkWrapper 0x3000 0x202 0x9000 0x100000 u = some e ∧
      Step plainCode (alone e) (.create newThread) s₁ ∧
      contextSwitch plainCode { s₁.kernel with
        cpu := { s₁.kernel.cpu with segment := fun _ => 0, esp := 0x3000 } } 0x4000 = some k ∧
      iret k.cpu = some f ∧ threadForkLeave 0x9100 f = some (.child m) ∧
      WordsAt m.memory 0xaff4 [0x9100, 0xc00, 0xd] ∧
      leaveKernel .threadForkWrapper ({ e with esp := e.esp + 4, memory := s₁.memory }.set .eax 5) =
        some f' ∧ threadForkLeave 0x9100 f' = some (.parent m') ∧ m'.general .eax = 5 ∧
      m'.general .ebx = 7 ∧ m'.esp = 0x8004 ∧ m'.eip = 0xa00 := by
  obtain ⟨hcall, hmemory⟩ := threadForkCall_words
  obtain ⟨u, hu, hstack⟩ := run_threadForkEnter hcall
  have hpush : Agree (Set.Ico (0x8000 - 16) 0x8000)ᶜ threadForkCall.memory u.memory := by
    rw [hstack.memory]
    have hagree := agree_pushWords threadForkCall.memory [threadForkCall.general .ebp,
      threadForkCall.general .ebx, threadForkCall.general .esi, threadForkCall.general .edi]
      hcall.room
    exact hagree
  have hblock : Agree (Set.Ico 0x1000 0x1038) twoThreads u.memory := by
    refine (hmemory.mono fun x hx hx' => ?_).trans (hpush.mono fun x hx hx' => ?_)
    · have h1 := hx.2
      have h2 := hx'.1
      omega
    · have h1 := hx.2
      have h2 := hx'.1
      omega
  have hfinds : Wrapper.threadForkWrapper.passing.Finds u [] := ⟨rfl, trivial⟩
  obtain ⟨e, he, hesp, -, hagree⟩ := enterKernel_spec .threadForkWrapper 0x202 0x9000 0x100000
    hfinds (Set.empty_subset _) (show 64 ≤ (0x3000 : UInt32).toNat by decide)
    (Set.empty_disjoint _)
  have hesp' : e.esp.toNat = 0x3000 - 48 := hesp
  have good := alone_good_of_agree plainCode hblock hagree
  have hforked := agree_forkedMemory e.memory
  have htop : idleThread.top.toNat = 0x3000 := by decide
  obtain ⟨s₁, hstep, hcpu, hchild, hparent⟩ := thread_fork_splits 0x9100
    (d := { e with memory := forkedMemory e.memory }) good hcall
    (show 12 ≤ 0xb000 by decide) threadForkCall_sane hu (show 64 ≤ 0x1000 by decide) (by decide)
    he (alone_forks e.memory) (alone_works good) (hforked.mono fun x hx hx' => by
      have h1 : e.esp.toNat + 4 ≤ x := hx.1
      rcases hx' with ⟨-, h2⟩ | ⟨h2, -⟩
      · omega
      · have h3 : x < idleThread.top.toNat := hx.2
        omega) (fun t ht => by
      rw [List.mem_singleton.mp ht]
      exact (twoThreadSystem_good.disjoint List.mem_cons_self).symm) rfl (by decide)
    (Set.disjoint_left.mpr fun x hx hx' => by
      have h1 : 0x8000 - 16 ≤ x := hx.1
      have h2 : x < idleThread.top.toNat := hx'.2
      omega)
  have hcurrent : s₁.current = idleThread := by
    cases hstep
    rfl
  have hmemory₁ : s₁.memory = forkedMemory e.memory := by rw [System.memory, hcpu]
  have hrefl := (good.step hstep).works_refl
  -- the child
  have work : Step plainCode s₁ .work { s₁ with kernel := { s₁.kernel with
      cpu := { s₁.kernel.cpu with segment := fun _ => 0, esp := 0x3000 } } } := .work hrefl
  obtain ⟨k, f, m, hk, hf, -, hm, hmesp, hmwords⟩ := hchild _ _ (Run.nil.snoc work) (by simp)
    (Cpu.sane_of_null rfl) (by
      rw [hcurrent]
      exact ⟨show 0x2000 + 68 ≤ 0x3000 by decide, show 0x3000 ≤ 0x3000 from le_rfl⟩)
  rw [hmesp, show (0xb000 : UInt32) - 12 = 0xaff4 by decide] at hmwords
  -- the parent
  have work' : Step plainCode s₁ .work { s₁ with kernel := { s₁.kernel with
      cpu := ({ e with esp := e.esp + 4, memory := s₁.memory } : Cpu).set .eax 5 } } := .work hrefl
  obtain ⟨f', m', hf', -, hm', hgeneral, hmesp', heip⟩ := hparent _ _
    (Run.nil.snoc ⟨work', by simp, fun _ _ => Agree.refl _ _, by simp⟩) hcurrent rfl
    (show (5 : UInt32) ≠ 0 by decide)
    (by
      show Agree _ u.memory s₁.memory
      rw [hmemory₁]
      refine (hagree.mono fun x hx hx' => ?_).trans (hforked.mono ?_)
      · have h1 : 0x8000 - 16 ≤ x := hx.1
        have h2 : x < 0x3000 := hx'.2
        omega
      · rintro x ⟨h1, -⟩ (⟨-, h2⟩ | ⟨-, h2⟩)
        · have h3 : 0x8000 - 16 ≤ x := h1
          omega
        · have h3 : 0x8000 - 16 ≤ x := h1
          omega)
  exact ⟨u, e, s₁, k, f, m, f', m', hu, he, hstep, hk, hf, hm, hmwords, hf', hm',
    congrFun hgeneral .eax, congrFun hgeneral .ebx, hmesp'.trans (by decide), heip⟩

end Pebbles.Syscall
