import Pebbles.Process.StackSwitch

/-! # System calls, from the library to the kernel and back

A library function leaves its arguments in `%esi` (`libsyscall`), the wrapper of the interrupt
pushes them on the kernel stack and calls a function in C (`life_cycle.S`, `consoleIO.S`, `misc.S`,
`thread_management.S`, `memory_management.S`). -/

namespace Pebbles.Syscall

open ByteStores Processor
open Exception (loadable Outcome UserCpu leaveWith segselKernelDs eflVm)

/-! ## The library -/

/-- A library function: what it does before and after `INT`, up to `ret`. -/
structure Stub where
  /-- The interrupt. -/
  interrupt : UInt32
  /-- Before `INT`. -/
  enter : List Insn
  /-- After `INT`. -/
  leave : List Insn
  deriving DecidableEq

/-- No arguments. -/
def bare (interrupt : UInt32) : Stub := ⟨interrupt, [], []⟩

/-- `movl 8(%ebp), %esi`: the argument. -/
def byValue (interrupt : UInt32) : Stub :=
  ⟨interrupt, [.pushl .ebp, .movEsp .ebp, .pushl .esi, .loadFrame 8 .esi], [.popl .esi, .popl .ebp]⟩

/-- `add $8, %ebp; movl %ebp, %esi; sub $8, %ebp`: the address of the arguments. -/
def byAddress (interrupt : UInt32) : Stub :=
  ⟨interrupt, [.pushl .ebp, .movEsp .ebp, .pushl .esi, .addImm 8 .ebp, .movl .ebp .esi,
    .subImm 8 .ebp], [.popl .esi, .popl .ebp]⟩

/-- `leal 8(%ebp), %esi`: the address of the arguments. -/
def byFrame (interrupt : UInt32) : Stub :=
  ⟨interrupt, [.pushl .ebp, .movEsp .ebp, .pushl .esi, .leaFrame 8 .esi], [.popl .esi, .popl .ebp]⟩

/-- The functions of `libsyscall`. -/
inductive Call where
  | deschedule | exec | fork | getCursorPos | getTicks | getchar | gettid | halt | makeRunnable
  | misbehave | newPages | print | readfile | readline | removePages | setCursorPos | setStatus
  | setTermColor | sleep | swexn | taskVanish | vanish | wait | yield
  deriving DecidableEq

/-- Their code. -/
def Call.stub : Call → Stub
  | .deschedule => byValue 0x46
  | .exec => byAddress 0x42
  | .fork => bare 0x41
  | .getCursorPos => byFrame 0x51
  | .getTicks => bare 0x53
  | .getchar => bare 0x4c
  | .gettid => bare 0x48
  | .halt => bare 0x55
  | .makeRunnable => byValue 0x47
  | .misbehave => byValue 0x54
  | .newPages => byAddress 0x49
  | .print => byAddress 0x4e
  | .readfile => byAddress 0x62
  | .readline => byAddress 0x4d
  | .removePages => byValue 0x4a
  | .setCursorPos => byFrame 0x50
  | .setStatus => byValue 0x59
  | .setTermColor => byValue 0x4f
  | .sleep => byValue 0x4b
  | .swexn => byAddress 0x74
  | .taskVanish => byValue 0x57
  | .vanish => bare 0x60
  | .wait => byValue 0x44
  | .yield => byValue 0x45

/-! ## The wrappers -/

/-- What a wrapper pushes for the function in C. -/
inductive Passing where
  /-- Nothing. -/
  | nothing
  /-- `%esi`. -/
  | value
  /-- The words at the address `%esi`. -/
  | words (n : ℕ)
  deriving DecidableEq

namespace Passing

/-- The number of arguments. -/
def count : Passing → ℕ
  | .nothing => 0
  | .value => 1
  | .words n => n

/-- The arguments are pushed, the last one first. -/
def push : Passing → List Insn
  | .nothing => []
  | .value => [.pushl .esi]
  | .words n => (List.range n).reverse.map fun k => .pushArgument (4 * UInt32.ofNat k)

/-- The arguments are taken off the stack. -/
def pop (p : Passing) : List Insn := List.replicate p.count (.popl .esi)

end Passing

/-- `PUSHREGS` (`push_pop_helper.h`). -/
def pushregs : List Insn :=
  [.pushl .ebp, .pushl .edi, .pushl .esi, .pushl .edx, .pushl .ecx, .pushl .ebx, .pushl .eax,
    .movImm segselKernelDs .eax, .movSegment .eax .ds, .movSegment .eax .es, .movSegment .eax .fs,
    .movSegment .eax .gs, .popl .eax]

/-- `POPREGS` (`push_pop_helper.h`). -/
def popregs : List Insn :=
  [.pushl .eax, .movImm segselUserDs .eax, .movSegment .eax .ds, .movSegment .eax .es,
    .movSegment .eax .fs, .movSegment .eax .gs, .popl .eax, .popl .ebx, .popl .ecx, .popl .edx,
    .popl .esi, .popl .edi, .popl .ebp]

/-- `PUSHREGS` of `memory_management.S`. -/
def pushregsSegments : List Insn :=
  [.pushl .ebp, .pushl .edi, .pushl .esi, .pushl .edx, .pushl .ecx, .pushl .ebx, .pushSegment .ds,
    .pushSegment .es, .pushSegment .fs, .pushSegment .gs]

/-- `POPREGS` of `memory_management.S`. -/
def popregsSegments : List Insn :=
  [.popSegment .gs, .popSegment .fs, .popSegment .es, .popSegment .ds, .popl .ebx, .popl .ecx,
    .popl .edx, .popl .esi, .popl .edi, .popl .ebp]

/-- A wrapper. -/
structure Wrapper where
  /-- The arguments. -/
  passing : Passing
  /-- The segment registers are pushed, too. -/
  segments : Bool
  /-- Behind the call are `POPREGS` and `iret`. -/
  returns : Bool
  deriving DecidableEq

namespace Wrapper

/-- `PUSHREGS`. -/
def save (w : Wrapper) : List Insn := if w.segments then pushregsSegments else pushregs

/-- `POPREGS`. -/
def restore (w : Wrapper) : List Insn := if w.segments then popregsSegments else popregs

/-- A wrapper of `life_cycle.S`, `consoleIO.S`, `misc.S` or `thread_management.S`. -/
def plain (passing : Passing) : Wrapper := ⟨passing, false, true⟩

/-- A wrapper that ends with the call, or goes on in another way. -/
def noReturn (passing : Passing) : Wrapper := ⟨passing, false, false⟩

def fork : Wrapper := plain .nothing
def exec : Wrapper := plain (.words 2)
def threadForkWrapper : Wrapper := plain .nothing
def wait : Wrapper := plain .value
def setStatus : Wrapper := plain .value
def vanish : Wrapper := noReturn .nothing
def readline : Wrapper := plain (.words 2)
def print : Wrapper := plain (.words 2)
def getCursorPos : Wrapper := plain (.words 2)
def setCursorPos : Wrapper := plain (.words 2)
def setTermColor : Wrapper := plain (.words 2)
def halt : Wrapper := noReturn .nothing
def readfile : Wrapper := plain (.words 4)
def yield : Wrapper := plain .value
def gettid : Wrapper := plain .nothing
def getTicks : Wrapper := plain .nothing
def deschedule : Wrapper := plain .value
def makeRunnable : Wrapper := plain .value
def sleep : Wrapper := plain .value
/-- `sys_swexn_wrapper`, which may go on with `newureg`. -/
def sysSwexnWrapper : Wrapper := noReturn (.words 4)
def newPages : Wrapper := ⟨.words 2, true, true⟩
def removePages : Wrapper := ⟨.value, true, true⟩

end Wrapper

/-- The system calls that `handler_install` installs. -/
def idt : UInt32 → Option Wrapper
  | 0x42 => some .exec
  | 0x41 => some .fork
  | 0x48 => some .gettid
  | 0x44 => some .wait
  | 0x59 => some .setStatus
  | 0x60 => some .vanish
  | 0x4e => some .print
  | 0x62 => some .readfile
  | 0x4b => some .sleep
  | 0x46 => some .deschedule
  | 0x55 => some .halt
  | 0x4d => some .readline
  | 0x49 => some .newPages
  | 0x4a => some .removePages
  | 0x74 => some .sysSwexnWrapper
  | 0x52 => some .threadForkWrapper
  | 0x53 => some .getTicks
  | 0x45 => some .yield
  | 0x47 => some .makeRunnable
  | 0x4f => some .setTermColor
  | 0x51 => some .getCursorPos
  | 0x50 => some .setCursorPos
  | _ => none

/-! ## The way to the kernel and back -/

/-- `INT`: the processor takes the kernel stack and pushes the frame of `iret`. -/
def interrupt (esp0 flags next : UInt32) (c : Cpu) : Cpu :=
  Cpu.pushAll { c with esp := esp0 } [segselUserDs, c.esp, flags, segselUserCs, next]

/-- The processor in user mode. -/
def inUser (u : UserCpu) (m : Image) : Cpu where
  general
    | .eax => u.eax
    | .ecx => u.ecx
    | .edx => u.edx
    | .ebx => u.ebx
    | .ebp => u.ebp
    | .esi => u.esi
    | .edi => u.edi
  segment
    | .ds => u.ds
    | .es => u.es
    | .fs => u.fs
    | .gs => u.gs
  esp := u.esp
  eip := u.eip
  zero := u.eflags &&& 0x40 != 0
  memory := m

/-- `iret` to user mode. -/
def iret (c : Cpu) : Option Cpu :=
  match c.iret with
  | .resumes u => some (inUser u c.memory)
  | _ => none

/-- From `INT` to the function in C: `back` is where it returns to. -/
def enterKernel (w : Wrapper) (esp0 flags next back : UInt32) (c : Cpu) : Option Cpu :=
  ((interrupt esp0 flags next c).run (w.save ++ w.passing.push)).map fun c => c.push back

/-- From the function in C to user mode. -/
def leaveKernel (w : Wrapper) (c : Cpu) : Option Cpu :=
  (c.run (w.passing.pop ++ w.restore)).bind iret

/-! ## Registers on the stack -/

/-- `pushl %eax`, the segment registers are loaded through `%eax`, `popl %eax`. -/
def loadSegments (w : UInt32) : List Insn :=
  [.pushl .eax, .movImm w .eax, .movSegment .eax .ds, .movSegment .eax .es, .movSegment .eax .fs,
    .movSegment .eax .gs, .popl .eax]

theorem run_loadSegments (c : Cpu) {w : UInt32} (hw : loadable w = true) :
    c.run (loadSegments w) = some { c with
      segment := fun _ => w &&& 0xffff
      memory := storeWord c.memory (c.esp - 4) (c.general .eax) } := by
  simp [loadSegments, Cpu.run, Cpu.exec, Cpu.push, Cpu.set, Cpu.loadSegment, Cpu.drop, Cpu.word, hw]
  refine ⟨?_, ?_⟩
  · funext r
    cases r <;> simp [load_storeWord]
  · funext s
    cases s <;> simp

/-- What `PUSHREGS` leaves on the stack, from its pointer upwards. -/
def Wrapper.saved (w : Wrapper) (c : Cpu) : List UInt32 :=
  (if w.segments then [c.segment .gs, c.segment .fs, c.segment .es, c.segment .ds] else []) ++
    [c.general .ebx, c.general .ecx, c.general .edx, c.general .esi, c.general .edi,
      c.general .ebp]

theorem Wrapper.saved_length_le (w : Wrapper) (c : Cpu) : (w.saved c).length ≤ 10 := by
  rw [Wrapper.saved, List.length_append]
  split
  · exact le_refl 10
  · exact Nat.le_of_ble_eq_true rfl

theorem run_pushl (c : Cpu) : c.run [.pushl .ebp, .pushl .edi, .pushl .esi, .pushl .edx,
    .pushl .ecx, .pushl .ebx] = some (c.pushAll [c.general .ebp, c.general .edi, c.general .esi,
      c.general .edx, c.general .ecx, c.general .ebx]) := rfl

/-- **Words are pushed.** -/
theorem wordsAt_pushAll {c : Cpu} {ws : List UInt32} (h : WordsAt c.memory c.esp ws)
    (vs : List UInt32) (room : 4 * vs.length ≤ c.esp.toNat)
    (fits : c.esp.toNat + 4 * ws.length ≤ 2 ^ 32) :
    WordsAt (c.pushAll vs).memory (c.pushAll vs).esp (vs.reverse ++ ws) := by
  rw [Cpu.pushAll_eq]
  exact h.pushWords vs room fits

theorem agree_pushAll (c : Cpu) (vs : List UInt32) (room : 4 * vs.length ≤ c.esp.toNat) :
    Agree (Set.Ico (c.esp.toNat - 4 * vs.length) c.esp.toNat)ᶜ c.memory (c.pushAll vs).memory := by
  rw [Cpu.pushAll_eq]
  exact agree_pushWords c.memory vs room

theorem pushAll_esp (c : Cpu) (vs : List UInt32) (room : 4 * vs.length ≤ c.esp.toNat) :
    (c.pushAll vs).esp.toNat = c.esp.toNat - 4 * vs.length := by
  have hlt := c.esp.toNat_lt
  have hlen : (4 * UInt32.ofNat vs.length).toNat = 4 * vs.length := four_mul_toNat (by omega)
  rw [Cpu.pushAll_eq]
  exact (sub_toNat_of_le (by omega)).trans (by rw [hlen])

/-- **`PUSHREGS`** leaves the registers on the stack, and the general registers as they are. -/
theorem run_save (w : Wrapper) {c : Cpu} {ws : List UInt32} (room : 40 ≤ c.esp.toNat)
    (fits : c.esp.toNat + 4 * ws.length ≤ 2 ^ 32) (h : WordsAt c.memory c.esp ws) :
    ∃ m, c.run w.save = some m ∧ m.general = c.general ∧
      m.esp.toNat = c.esp.toNat - 4 * (w.saved c).length ∧
      WordsAt m.memory m.esp (w.saved c ++ ws) ∧
      Agree (Set.Ico (c.esp.toNat - 40) c.esp.toNat)ᶜ c.memory m.memory := by
  obtain ⟨passing, segments, returns⟩ := w
  cases segments with
  | true =>
      let vs := [c.general .ebp, c.general .edi, c.general .esi, c.general .edx, c.general .ecx,
        c.general .ebx, c.segment .ds, c.segment .es, c.segment .fs, c.segment .gs]
      refine ⟨c.pushAll vs, rfl, ?_, pushAll_esp c vs room, wordsAt_pushAll h vs room fits,
        agree_pushAll c vs room⟩
      rw [Cpu.pushAll_eq]
  | false =>
      let vs := [c.general .ebp, c.general .edi, c.general .esi, c.general .edx, c.general .ecx,
        c.general .ebx]
      have room24 : 4 * vs.length ≤ c.esp.toNat := show 24 ≤ c.esp.toNat by omega
      have hesp : (c.pushAll vs).esp.toNat = c.esp.toNat - 24 := pushAll_esp c vs room24
      have hsub : ((c.pushAll vs).esp - 4).toNat = c.esp.toNat - 28 := by
        rw [sub_four_toNat (by omega), hesp]
        omega
      have hwords := wordsAt_pushAll h vs room24 fits
      have hrun : c.run pushregs = some { c.pushAll vs with
          segment := fun _ => segselKernelDs &&& 0xffff
          memory := storeWord (c.pushAll vs).memory ((c.pushAll vs).esp - 4)
            ((c.pushAll vs).general .eax) } := by
        have hsplit : pushregs = [.pushl .ebp, .pushl .edi, .pushl .esi, .pushl .edx, .pushl .ecx,
          .pushl .ebx] ++ loadSegments segselKernelDs := rfl
        rw [hsplit, Cpu.run_append, run_pushl, Option.bind_some]
        exact run_loadSegments _ (by decide)
      have hlen : (vs.reverse ++ ws).length = ws.length + 6 := by
        rw [List.length_append]
        exact Nat.add_comm _ _
      have hstore : Agree (Set.Ico (c.esp.toNat - 28) (c.esp.toNat - 24))ᶜ (c.pushAll vs).memory
          (storeWord (c.pushAll vs).memory ((c.pushAll vs).esp - 4)
            ((c.pushAll vs).general .eax)) := by
        refine Agree.storeWord (by omega) (Set.disjoint_left.mpr fun x hx hx' => hx ?_)
        rw [hsub] at hx'
        exact ⟨hx'.1, by have := hx'.2; omega⟩
      refine ⟨_, hrun, by rw [Cpu.pushAll_eq], hesp, ?_, ?_⟩
      · refine hwords.frame hstore (by rw [hlen, hesp]; omega) fun x hx hx' => ?_
        have h1 := hx.1
        have h2 := hx'.2
        omega
      · have hpush : Agree (Set.Ico (c.esp.toNat - 24) c.esp.toNat)ᶜ c.memory
            (c.pushAll vs).memory := agree_pushAll c vs room24
        exact (hpush.mono (Set.compl_subset_compl.mpr (Set.Ico_subset_Ico_left (by omega)))).trans
          (hstore.mono (Set.compl_subset_compl.mpr (Set.Ico_subset_Ico (by omega) (by omega))))

/-! ## Arguments on the stack -/

/-- **Arguments where a wrapper looks for them.** -/
def Passing.Finds (p : Passing) (c : Cpu) (args : List UInt32) : Prop :=
  args.length = p.count ∧
    match p with
    | .nothing => True
    | .value => args = [c.general .esi]
    | .words _ => WordsAt c.memory (c.general .esi) args

/-- Where they are in memory. -/
def Passing.place (p : Passing) (c : Cpu) : Set ℕ :=
  match p with
  | .words n => Set.Ico (c.general .esi).toNat ((c.general .esi).toNat + 4 * n)
  | _ => ∅

/-- The words at `%esi` are pushed, the last one first. -/
theorem run_pushArguments {c : Cpu} {args : List UInt32}
    (h : WordsAt c.memory (c.general .esi) args)
    (fits : (c.general .esi).toNat + 4 * args.length ≤ 2 ^ 32)
    (room : 4 * args.length ≤ c.esp.toNat)
    (apart : Disjoint (Set.Ico (c.general .esi).toNat ((c.general .esi).toNat + 4 * args.length))
      (Set.Ico (c.esp.toNat - 4 * args.length) c.esp.toNat)) :
    c.run ((List.range args.length).reverse.map fun k => .pushArgument (4 * UInt32.ofNat k)) =
      some (c.pushAll args.reverse) := by
  induction args using List.reverseRecOn generalizing c with
  | nil => rfl
  | append_singleton args a ih =>
      rw [List.length_append, List.length_singleton] at fits room apart ⊢
      obtain ⟨hargs, hlast, -⟩ := WordsAt.append_iff.mp h
      have hlt := c.esp.toNat_lt
      have hesp : (c.esp - 4).toNat = c.esp.toNat - 4 := sub_four_toNat (by omega)
      have hstore : Agree (Set.Ico (c.esp.toNat - 4) c.esp.toNat)ᶜ c.memory (c.push a).memory := by
        refine Agree.storeWord (by omega) (Set.disjoint_left.mpr fun x hx hx' => hx ?_)
        rw [hesp] at hx'
        exact ⟨hx'.1, by have := hx'.2; omega⟩
      have hargs' : WordsAt (c.push a).memory (c.general .esi) args :=
        hargs.frame hstore (by omega) fun x hx hx' => Set.disjoint_left.mp apart
          ⟨hx.1, by have := hx.2; omega⟩ ⟨by have := hx'.1; omega, hx'.2⟩
      have hpush : (c.push a).esp.toNat = c.esp.toNat - 4 := hesp
      have hesi : (c.push a).general .esi = c.general .esi := rfl
      have hih := ih (c := c.push a) hargs' (by rw [hesi]; omega) (by omega) (by
        rw [hesi, hpush]
        exact Set.disjoint_of_subset (Set.Ico_subset_Ico_right (by omega))
          (Set.Ico_subset_Ico (by omega) (by omega)) apart)
      rw [List.range_succ, List.reverse_append, List.reverse_singleton, List.singleton_append,
        List.map_cons, Cpu.run, Cpu.exec, Option.bind_some, hlast, hih, List.reverse_append]
      rfl

/-- **The arguments are pushed.** -/
theorem Passing.run_push {p : Passing} {c : Cpu} {args : List UInt32} (finds : p.Finds c args)
    (fits : p.place c ⊆ Set.Iio (2 ^ 32)) (room : 4 * args.length ≤ c.esp.toNat)
    (apart : Disjoint (p.place c) (Set.Ico (c.esp.toNat - 4 * args.length) c.esp.toNat)) :
    c.run p.push = some (c.pushAll args.reverse) := by
  obtain ⟨hlen, hargs⟩ := finds
  cases p with
  | nothing =>
      rw [List.eq_nil_of_length_eq_zero hlen]
      rfl
  | value =>
      rw [show args = [c.general .esi] from hargs]
      rfl
  | words n =>
      obtain rfl : args.length = n := hlen
      refine run_pushArguments hargs ?_ room apart
      by_cases hzero : args.length = 0
      · have := (c.general .esi).toNat_lt
        omega
      · have hlast : (c.general .esi).toNat + 4 * args.length - 1 < 2 ^ 32 :=
          fits ⟨by omega, by omega⟩
        omega

/-- The arguments are still found when the registers and their place stay. -/
theorem Passing.Finds.frame {p : Passing} {c d : Cpu} {args : List UInt32} (h : p.Finds c args)
    (general : d.general = c.general) (fits : p.place c ⊆ Set.Iio (2 ^ 32))
    (agree : Agree (p.place c) c.memory d.memory) : p.Finds d args ∧ p.place d = p.place c := by
  obtain ⟨hlen, hargs⟩ := h
  cases p with
  | nothing => exact ⟨⟨hlen, hargs⟩, rfl⟩
  | value => exact ⟨⟨hlen, by rw [general]; exact hargs⟩, rfl⟩
  | words n =>
      obtain rfl : args.length = n := hlen
      refine ⟨⟨rfl, ?_⟩, by simp only [Passing.place, general]⟩
      rw [general]
      by_cases hzero : args.length = 0
      · rw [List.eq_nil_of_length_eq_zero hzero]
        trivial
      · have hlast : (c.general .esi).toNat + 4 * args.length - 1 < 2 ^ 32 :=
          fits ⟨by omega, by omega⟩
        exact WordsAt.frame hargs agree (by omega) subset_rfl

/-! ## Into the kernel -/

/-- The frame of `iret`. -/
def frame (c : Cpu) (flags next : UInt32) : List UInt32 :=
  [next, segselUserCs, flags, c.esp, segselUserDs]

theorem interrupt_eq (esp0 flags next : UInt32) (c : Cpu) : interrupt esp0 flags next c = { c with
    esp := esp0 - 20
    memory := pushWords c.memory esp0 [segselUserDs, c.esp, flags, segselUserCs, next] } :=
  Cpu.pushAll_eq _ _

/-- **The kernel is entered**: the function in C has its arguments, and the registers are above
them. -/
theorem enterKernel_spec (w : Wrapper) {c : Cpu} {esp0 : UInt32} {args : List UInt32}
    (flags next back : UInt32) (finds : w.passing.Finds c args)
    (fits : w.passing.place c ⊆ Set.Iio (2 ^ 32)) (room : 64 + 4 * args.length ≤ esp0.toNat)
    (apart : Disjoint (w.passing.place c)
      (Set.Ico (esp0.toNat - 64 - 4 * args.length) esp0.toNat)) :
    ∃ e, enterKernel w esp0 flags next back c = some e ∧
      e.esp.toNat = esp0.toNat - 24 - 4 * (w.saved c).length - 4 * args.length ∧
      WordsAt e.memory e.esp (back :: (args ++ (w.saved c ++ frame c flags next))) ∧
      Agree (Set.Ico (esp0.toNat - 64 - 4 * args.length) esp0.toNat)ᶜ c.memory e.memory := by
  have hlt := esp0.toNat_lt
  have hsaved := w.saved_length_le c
  -- `INT`
  have hnil : WordsAt c.memory esp0 [] := trivial
  have hwords : WordsAt (interrupt esp0 flags next c).memory (interrupt esp0 flags next c).esp
      (frame c flags next) := wordsAt_pushAll (c := { c with esp := esp0 }) hnil
        [segselUserDs, c.esp, flags, segselUserCs, next] (show 20 ≤ esp0.toNat by omega) hlt.le
  have hframe : Agree (Set.Ico (esp0.toNat - 20) esp0.toNat)ᶜ c.memory
      (interrupt esp0 flags next c).memory := agree_pushAll { c with esp := esp0 }
        [segselUserDs, c.esp, flags, segselUserCs, next] (show 20 ≤ esp0.toNat by omega)
  have hesp : (interrupt esp0 flags next c).esp.toNat = esp0.toNat - 20 :=
    pushAll_esp { c with esp := esp0 } [segselUserDs, c.esp, flags, segselUserCs, next]
      (show 20 ≤ esp0.toNat by omega)
  have hgeneral : (interrupt esp0 flags next c).general = c.general := by rw [interrupt_eq]
  have hsame : w.saved (interrupt esp0 flags next c) = w.saved c := by rw [interrupt_eq]; rfl
  -- `PUSHREGS`
  obtain ⟨m, hsave, hgeneral', hesp', hwords', hagree⟩ := run_save w (by omega)
    (show _ + 20 ≤ 2 ^ 32 by omega) hwords
  rw [hsame] at hesp' hwords'
  rw [hesp] at hesp' hagree
  have hmemory : Agree (Set.Ico (esp0.toNat - 60) esp0.toNat)ᶜ c.memory m.memory :=
    (hframe.mono (Set.compl_subset_compl.mpr (Set.Ico_subset_Ico (by omega) (by omega)))).trans
      (hagree.mono (Set.compl_subset_compl.mpr (Set.Ico_subset_Ico (by omega) (by omega))))
  obtain ⟨hfinds, hplace⟩ := finds.frame (hgeneral'.trans hgeneral) fits
    (hmemory.mono fun x hx hx' => Set.disjoint_left.mp apart hx ⟨by have := hx'.1; omega, hx'.2⟩)
  -- the arguments, and the call
  have hpush := Passing.run_push hfinds (hplace ▸ fits) (by omega) (Set.disjoint_of_subset
    (hplace ▸ subset_rfl) (Set.Ico_subset_Ico (by omega) (by omega)) apart)
  have hcall : (m.pushAll args.reverse).push back = m.pushAll (args.reverse ++ [back]) := by
    rw [Cpu.pushAll, Cpu.pushAll, List.foldl_append]
    rfl
  have hlen : (args.reverse ++ [back]).length = args.length + 1 := by simp
  have hrev : (args.reverse ++ [back]).reverse = back :: args := by simp
  have hall := wordsAt_pushAll hwords' (args.reverse ++ [back]) (by omega) (by
    rw [List.length_append, hesp']
    show _ + 4 * (_ + 5) ≤ 2 ^ 32
    omega)
  have hrest := agree_pushAll m (args.reverse ++ [back]) (by omega)
  have hsp := pushAll_esp m (args.reverse ++ [back]) (by omega)
  rw [hlen] at hrest hsp
  rw [hrev] at hall
  refine ⟨m.pushAll (args.reverse ++ [back]), ?_, by omega, hall, (hmemory.mono ?_).trans
    (hrest.mono ?_)⟩
  · rw [enterKernel, Cpu.run_append, hsave, Option.bind_some, hpush, Option.map_some, hcall]
  · exact Set.compl_subset_compl.mpr (Set.Ico_subset_Ico (by omega) (by omega))
  · exact Set.compl_subset_compl.mpr (Set.Ico_subset_Ico (by omega) (by omega))

/-! ## Out of the kernel -/

/-- The arguments are taken off the stack. -/
theorem Passing.run_pop (p : Passing) (c : Cpu) :
    ∃ m, c.run p.pop = some m ∧ m.esp = c.esp + 4 * UInt32.ofNat p.count ∧
      m.memory = c.memory ∧ m.segment = c.segment ∧ m.general .eax = c.general .eax := by
  rw [Passing.pop]
  generalize p.count = n
  induction n generalizing c with
  | zero => exact ⟨c, rfl, (UInt32.add_zero _).symm, rfl, rfl, rfl⟩
  | succ n ih =>
      obtain ⟨m, hrun, hesp, hmemory, hsegment, heax⟩ := ih ((c.drop 1).set .esi (c.word 0))
      refine ⟨m, hrun, hesp.trans ?_, hmemory, hsegment, heax⟩
      rw [UInt32.ofNat_add, UInt32.mul_add, UInt32.add_comm (4 * UInt32.ofNat n),
        ← UInt32.add_assoc]
      rfl

/-- The registers of `c`, with a result in `%eax`. -/
def answered (c : Cpu) (result : UInt32) : General → UInt32 := fun r =>
  if r = .eax then result else c.general r

theorem run_popl {c d : Cpu} {ws : List UInt32} (h : WordsAt d.memory d.esp ([c.general .ebx,
    c.general .ecx, c.general .edx, c.general .esi, c.general .edi, c.general .ebp] ++ ws)) :
    d.run [.popl .ebx, .popl .ecx, .popl .edx, .popl .esi, .popl .edi, .popl .ebp] =
      some { d with general := answered c (d.general .eax), esp := d.esp + 24 } := by
  simp only [List.cons_append, List.nil_append, WordsAt, UInt32.add_assoc, UInt32.reduceAdd] at h
  obtain ⟨hebx, hecx, hedx, hesi, hedi, hebp, -⟩ := h
  simp [Cpu.run, Cpu.exec, Cpu.drop, Cpu.word, Cpu.set, UInt32.add_assoc, hebx, hecx, hedx, hesi,
    hedi, hebp]
  funext r
  cases r <;> simp [answered]

/-- **`POPREGS`** takes the registers from the stack, `%eax` apart. -/
theorem run_restore (w : Wrapper) {c d : Cpu} {ws : List UInt32} (sane : c.Sane)
    (room : 4 ≤ d.esp.toNat) (fits : d.esp.toNat + 4 * (w.saved c ++ ws).length ≤ 2 ^ 32)
    (h : WordsAt d.memory d.esp (w.saved c ++ ws)) :
    ∃ m, d.run w.restore = some m ∧ m.general = answered c (d.general .eax) ∧
      m.segment = (if w.segments then c.segment else fun _ => segselUserDs) ∧
      m.esp = d.esp + 4 * UInt32.ofNat (w.saved c).length ∧ WordsAt m.memory m.esp ws ∧
      Agree (Set.Ico (d.esp.toNat - 4) d.esp.toNat)ᶜ d.memory m.memory := by
  have htail := (WordsAt.append_iff.mp h).2
  obtain ⟨passing, segments, returns⟩ := w
  cases segments with
  | true =>
      have hsplit : popregsSegments = [.popSegment .gs, .popSegment .fs, .popSegment .es,
        .popSegment .ds] ++ [.popl .ebx, .popl .ecx, .popl .edx, .popl .esi, .popl .edi,
          .popl .ebp] := rfl
      have hsegments : d.run [.popSegment .gs, .popSegment .fs, .popSegment .es,
          .popSegment .ds] = some { d with segment := c.segment, esp := d.esp + 16 } := by
        simp only [Wrapper.saved, if_true, List.cons_append, List.nil_append, WordsAt,
          UInt32.add_assoc, UInt32.reduceAdd] at h
        obtain ⟨hgs, hfs, hes, hds, -⟩ := h
        have hsegment : ∀ s, loadable (c.segment s) = true := fun s => (sane s).1
        have hlow : ∀ s, c.segment s &&& 0xffff = c.segment s := fun s => (sane s).2
        simp [Cpu.run, Cpu.exec, Cpu.drop, Cpu.word, Cpu.loadSegment, UInt32.add_assoc, hgs, hfs,
          hes, hds, hsegment, hlow]
        funext s
        cases s <;> simp
      have hwords : WordsAt d.memory (d.esp + 16) ([c.general .ebx, c.general .ecx,
          c.general .edx, c.general .esi, c.general .edi, c.general .ebp] ++ ws) := by
        rw [Wrapper.saved, if_pos rfl, List.append_assoc] at h
        exact (WordsAt.append_iff.mp h).2
      refine ⟨{ d with
        segment := c.segment, general := answered c (d.general .eax), esp := d.esp + 40 },
        ?_, rfl, rfl, rfl, htail, Agree.refl _ _⟩
      show d.run popregsSegments = _
      have hesp : d.esp + 16 + 24 = d.esp + 40 := UInt32.add_assoc _ _ _
      rw [hsplit, Cpu.run_append, hsegments, Option.bind_some, ← hesp]
      exact run_popl (d := { d with segment := c.segment, esp := d.esp + 16 }) hwords
  | false =>
      have hsplit : popregs = loadSegments segselUserDs ++ [.popl .ebx, .popl .ecx, .popl .edx,
        .popl .esi, .popl .edi, .popl .ebp] := rfl
      have hsub : (d.esp - 4).toNat = d.esp.toNat - 4 := sub_four_toNat room
      have hstore : Agree (Set.Ico (d.esp.toNat - 4) d.esp.toNat)ᶜ d.memory
          (storeWord d.memory (d.esp - 4) (d.general .eax)) := by
        have hlt := d.esp.toNat_lt
        refine Agree.storeWord (by omega) (Set.disjoint_left.mpr fun x hx hx' => hx ?_)
        rw [hsub] at hx'
        exact ⟨hx'.1, by have := hx'.2; omega⟩
      have hwords := h.frame hstore fits fun x hx hx' => by
        have h1 := hx.1
        have h2 := hx'.2
        omega
      refine ⟨{ d with
        segment := fun _ => segselUserDs, general := answered c (d.general .eax)
        esp := d.esp + 24, memory := storeWord d.memory (d.esp - 4) (d.general .eax) },
        ?_, rfl, rfl, rfl, (WordsAt.append_iff.mp hwords).2, hstore⟩
      show d.run popregs = _
      rw [hsplit, Cpu.run_append, run_loadSegments d (by decide), Option.bind_some]
      exact run_popl (d := { d with
        segment := fun _ => segselUserDs &&& 0xffff
        memory := storeWord d.memory (d.esp - 4) (d.general .eax) }) hwords

/-- **`iret`** goes on in user mode behind `INT`. -/
theorem iret_spec {c d : Cpu} {flags next : UInt32} (hflags : flags &&& eflVm = 0)
    (h : WordsAt d.memory d.esp (frame c flags next)) :
    ∃ m, iret d = some m ∧ m.general = d.general ∧ m.esp = c.esp ∧ m.eip = next ∧
      m.zero = (flags &&& 0x40 != 0) ∧ m.memory = d.memory ∧
      ∀ s, m.segment s = Exception.atUser (d.segment s) := by
  have hword : ∀ (k : ℕ) (hk : k < (frame c flags next).length),
      d.word (UInt32.ofNat k) = (frame c flags next)[k] := fun k hk => Cpu.word_of_wordsAt h hk
  have h0 : d.word 0 = next := hword 0 (show 0 < 5 by decide)
  have h1 : d.word 1 = segselUserCs := hword 1 (show 1 < 5 by decide)
  have h2 : d.word 2 = flags := hword 2 (show 2 < 5 by decide)
  have h3 : d.word 3 = c.esp := hword 3 (show 3 < 5 by decide)
  have h4 : d.word 4 = segselUserDs := hword 4 (show 4 < 5 by decide)
  have hsegments : segselUserCs &&& 0xffff = segselUserCs ∧
      segselUserDs &&& 0xffff = segselUserDs := by decide
  let u : UserCpu := {
    edi := d.general .edi, esi := d.general .esi, ebp := d.general .ebp, ebx := d.general .ebx
    edx := d.general .edx, ecx := d.general .ecx, eax := d.general .eax
    ds := d.segment .ds, es := d.segment .es, fs := d.segment .fs, gs := d.segment .gs
    eip := next, cs := segselUserCs, eflags := flags, esp := c.esp, ss := segselUserDs }
  have hiret : d.iret = .resumes u.inUserMode := by
    rw [Cpu.iret, leaveWith, h0, h1, h2, h3, h4, if_pos ⟨hflags, hsegments.1⟩,
      if_pos hsegments.2]
  refine ⟨inUser u.inUserMode d.memory, by rw [iret, hiret], ?_, rfl, rfl, rfl, rfl, ?_⟩
  · funext r
    cases r <;> rfl
  · intro s
    cases s <;> rfl

/-- **The kernel is left**: with the result in `%eax`, and all other registers as they were. The
function in C may have changed its arguments. -/
theorem leaveKernel_spec (w : Wrapper) (esp0 : UInt32) {c e : Cpu} {flags next : UInt32}
    (sane : c.Sane) (hflags : flags &&& eflVm = 0)
    (room : 24 + 4 * (w.saved c).length + 4 * w.passing.count ≤ esp0.toNat)
    (hesp : e.esp.toNat = esp0.toNat - 20 - 4 * (w.saved c).length - 4 * w.passing.count)
    (h : WordsAt e.memory (e.esp + 4 * UInt32.ofNat w.passing.count)
      (w.saved c ++ frame c flags next)) :
    ∃ m, leaveKernel w e = some m ∧ m.general = answered c (e.general .eax) ∧ m.esp = c.esp ∧
      m.eip = next ∧ (∀ s, m.segment s =
        if w.segments then Exception.atUser (c.segment s) else segselUserDs) ∧
      Agree (Set.Ico (esp0.toNat - 64 - 4 * w.passing.count) esp0.toNat)ᶜ e.memory m.memory := by
  have hlt := esp0.toNat_lt
  have hsaved := w.saved_length_le c
  obtain ⟨d, hpop, hsp, hmemory, -, heax⟩ := w.passing.run_pop e
  have hsp' : d.esp.toNat = esp0.toNat - 20 - 4 * (w.saved c).length := by
    have hfour : (4 * UInt32.ofNat w.passing.count).toNat = 4 * w.passing.count :=
      four_mul_toNat (by omega)
    rw [hsp, add_toNat (by omega), hfour, hesp]
    omega
  rw [← hsp, ← hmemory] at h
  obtain ⟨m, hrestore, hgeneral, hsegment, hesp', hframe, hagree⟩ :=
    run_restore w sane (by omega) (by
      rw [List.length_append, hsp']
      show _ + 4 * (_ + 5) ≤ 2 ^ 32
      omega) h
  obtain ⟨k, hiret, hgeneral', hesp'', heip, -, hmemory', hsegment'⟩ := iret_spec hflags hframe
  refine ⟨k, ?_, hgeneral'.trans (by rw [hgeneral, heax]), hesp'', heip, fun s => ?_, ?_⟩
  · rw [leaveKernel, Cpu.run_append, hpop, Option.bind_some, hrestore, Option.bind_some, hiret]
  · rw [hsegment' s, hsegment]
    split
    · rfl
    · rfl
  · rw [hmemory', ← hmemory]
    exact hagree.mono (Set.compl_subset_compl.mpr (Set.Ico_subset_Ico (by omega) (by omega)))

/-! ## The library functions -/

/-- A library function that leaves its arguments where a wrapper looks for them. -/
inductive Linked : Stub → Passing → Prop
  | bare (i : UInt32) : Linked (bare i) .nothing
  | byValue (i : UInt32) : Linked (byValue i) .value
  | byAddress (i : UInt32) (n : ℕ) : Linked (byAddress i) (.words n)
  | byFrame (i : UInt32) (n : ℕ) : Linked (byFrame i) (.words n)

/-- **All functions of the library are linked**, except for `set_term_color`, which leaves its
argument in `%esi` for a wrapper that looks for two words there. -/
theorem linked {k : Call} {w : Wrapper} (installed : idt k.stub.interrupt = some w)
    (hk : k ≠ .setTermColor) : Linked k.stub w.passing := by
  cases k <;> cases installed
  all_goals first | exact .bare _ | exact .byValue _ | exact .byAddress _ _ | exact .byFrame _ _ |
    exact absurd rfl hk

/-- A library function with a stack frame, before `INT`. -/
structure Framed (c m : Cpu) (v : UInt32) : Prop where
  /-- `%esi` and `%ebp` are set. -/
  general : m.general = fun r =>
    if r = .esi then v else if r = .ebp then c.esp - 4 else c.general r
  /-- Two words are on the stack. -/
  esp : m.esp = c.esp - 8
  /-- They are what `%ebp` and `%esi` were. -/
  memory : m.memory = pushWords c.memory c.esp [c.general .ebp, c.general .esi]
  /-- The segment registers stay. -/
  segment : m.segment = c.segment

theorem sub_four_add_eight (x : UInt32) : x - 4 + 8 = x + 4 := by
  rw [show (8 : UInt32) = 4 + 4 from rfl, ← UInt32.add_assoc, UInt32.sub_add_cancel]

theorem sub_four_sub_four (x : UInt32) : x - 4 - 4 = x - 8 := by
  rw [UInt32.sub_eq_iff_eq_add, UInt32.sub_eq_iff_eq_add, UInt32.add_assoc,
    show (4 : UInt32) + 4 = 8 from rfl, UInt32.sub_add_cancel]

theorem run_byValue (i : UInt32) (c : Cpu) : ∃ m, c.run (byValue i).enter = some m ∧
    Framed c m (load (pushWords c.memory c.esp [c.general .ebp, c.general .esi]) (c.esp + 4)) := by
  refine ⟨_, rfl, ?_, sub_four_sub_four _, rfl, rfl⟩
  funext r
  cases r <;> simp [Cpu.set, Cpu.push, pushWords, sub_four_add_eight]

theorem run_byAddress (i : UInt32) (c : Cpu) :
    ∃ m, c.run (byAddress i).enter = some m ∧ Framed c m (c.esp + 4) := by
  refine ⟨_, rfl, ?_, sub_four_sub_four _, rfl, rfl⟩
  funext r
  cases r <;> simp [Cpu.set, Cpu.push, ← sub_four_add_eight]

theorem run_byFrame (i : UInt32) (c : Cpu) :
    ∃ m, c.run (byFrame i).enter = some m ∧ Framed c m (c.esp + 4) := by
  refine ⟨_, rfl, ?_, sub_four_sub_four _, rfl, rfl⟩
  funext r
  cases r <;> simp [Cpu.set, Cpu.push, sub_four_add_eight]

/-- The way back from `INT` to the caller of a library function, which it has left with `c`. -/
def ComesBack (s : Stub) (c u : Cpu) (ret : UInt32) : Prop :=
  ∀ (d : Cpu) (result : UInt32), d.general = answered u result → d.esp = u.esp →
    Agree (Set.Ico u.esp.toNat (c.esp.toNat + 4)) u.memory d.memory →
    ∃ f, d.run (s.leave ++ [.ret]) = some f ∧ f.general = answered c result ∧ f.esp = c.esp + 4 ∧
      f.eip = ret ∧ f.memory = d.memory

section Framed

variable {c u : Cpu} {v ret : UInt32} {args : List UInt32}

/-- The stack of a library function with a frame. -/
theorem Framed.wordsAt (h : Framed c u v) (room : 8 ≤ c.esp.toNat)
    (fits : c.esp.toNat + 4 * (args.length + 1) ≤ 2 ^ 32)
    (words : WordsAt c.memory c.esp (ret :: args)) :
    WordsAt u.memory u.esp (c.general .esi :: c.general .ebp :: ret :: args) := by
  rw [h.memory, h.esp]
  exact words.pushWords [c.general .ebp, c.general .esi] room fits

/-- The arguments, above it. -/
theorem Framed.wordsAt_args (h : Framed c u v) (room : 8 ≤ c.esp.toNat)
    (fits : c.esp.toNat + 4 * (args.length + 1) ≤ 2 ^ 32)
    (words : WordsAt c.memory c.esp (ret :: args)) : WordsAt u.memory (c.esp + 4) args := by
  have hargs := (WordsAt.append_iff.mp (show WordsAt u.memory u.esp
    ([c.general .esi, c.general .ebp, ret] ++ args) from h.wordsAt room fits words)).2
  have hesp : u.esp + 4 * UInt32.ofNat 3 = c.esp + 4 := by
    rw [h.esp, show 4 * UInt32.ofNat 3 = 8 + 4 from rfl, ← UInt32.add_assoc,
      UInt32.sub_add_cancel]
  rw [← hesp]
  exact hargs

theorem Framed.esp_toNat (h : Framed c u v) (room : 8 ≤ c.esp.toNat) :
    u.esp.toNat = c.esp.toNat - 8 := by
  rw [h.esp]
  exact sub_toNat_of_le room

theorem Framed.agree (h : Framed c u v) (room : 8 ≤ c.esp.toNat) :
    Agree (Set.Ico (c.esp.toNat - 8) c.esp.toNat)ᶜ c.memory u.memory := by
  rw [h.memory]
  exact agree_pushWords c.memory [c.general .ebp, c.general .esi] room

/-- **A library function with a frame comes back.** -/
theorem Framed.comesBack {s : Stub} (h : Framed c u v) (hs : s.leave = [.popl .esi, .popl .ebp])
    (room : 8 ≤ c.esp.toNat) (fits : c.esp.toNat + 4 * (args.length + 1) ≤ 2 ^ 32)
    (words : WordsAt c.memory c.esp (ret :: args)) : ComesBack s c u ret := by
  intro d result hgeneral hesp hagree
  have hall : WordsAt u.memory u.esp [c.general .esi, c.general .ebp, ret] :=
    (WordsAt.append_iff.mp (show WordsAt u.memory u.esp
      ([c.general .esi, c.general .ebp, ret] ++ args) from h.wordsAt room fits words)).1
  have hu := h.esp_toNat room
  have hstack : WordsAt d.memory d.esp [c.general .esi, c.general .ebp, ret] := by
    rw [hesp]
    refine hall.frame hagree (show _ + 12 ≤ 2 ^ 32 by omega) fun x hx => ⟨hx.1, ?_⟩
    have h2 : x < u.esp.toNat + 12 := hx.2
    omega
  simp only [WordsAt, UInt32.add_assoc, UInt32.reduceAdd] at hstack
  obtain ⟨hesi, hebp, hret, -⟩ := hstack
  have hesp' : d.esp + 12 = c.esp + 4 := by
    rw [hesp, h.esp, show (12 : UInt32) = 8 + 4 from rfl, ← UInt32.add_assoc,
      UInt32.sub_add_cancel]
  refine ⟨{ d with general := answered c result, esp := c.esp + 4, eip := ret }, ?_, rfl, rfl, rfl,
    rfl⟩
  rw [hs, ← hesp']
  simp [Cpu.run, Cpu.exec, Cpu.drop, Cpu.word, Cpu.set, UInt32.add_assoc, hesi, hebp, hret,
    hgeneral]
  funext r
  cases r <;> simp [answered, h.general]

/-- The address of the arguments is in `%esi`. -/
theorem Framed.finds {n : ℕ} (h : Framed c u (c.esp + 4)) (count : args.length = n)
    (room : 8 ≤ c.esp.toNat) (fits : c.esp.toNat + 4 * (args.length + 1) ≤ 2 ^ 32)
    (words : WordsAt c.memory c.esp (ret :: args)) :
    (Passing.words n).Finds u args ∧ (Passing.words n).place u ⊆
      Set.Ico c.esp.toNat (c.esp.toNat + 4 * (args.length + 1)) := by
  have hesi : u.general .esi = c.esp + 4 := by simp [h.general]
  refine ⟨⟨count, show WordsAt _ (u.general .esi) args by
    rw [hesi]; exact h.wordsAt_args room fits words⟩, ?_⟩
  rw [Passing.place, hesi]
  rintro x ⟨h1, h2⟩
  have hfour : (c.esp + 4).toNat = c.esp.toNat + 4 := add_four_toNat (by omega)
  exact ⟨by omega, by omega⟩

end Framed

/-- **A library function leaves its arguments for the wrapper, and comes back.** -/
theorem enter_spec {s : Stub} {p : Passing} {c : Cpu} {ret : UInt32} {args : List UInt32}
    (linked : Linked s p) (count : args.length = p.count) (room : 8 ≤ c.esp.toNat)
    (fits : c.esp.toNat + 4 * (args.length + 1) ≤ 2 ^ 32)
    (words : WordsAt c.memory c.esp (ret :: args)) :
    ∃ u, c.run s.enter = some u ∧ p.Finds u args ∧
      p.place u ⊆ Set.Ico c.esp.toNat (c.esp.toNat + 4 * (args.length + 1)) ∧
      u.segment = c.segment ∧ c.esp.toNat - 8 ≤ u.esp.toNat ∧ u.esp.toNat ≤ c.esp.toNat ∧
      Agree (Set.Ico (c.esp.toNat - 8) c.esp.toNat)ᶜ c.memory u.memory ∧ ComesBack s c u ret := by
  cases linked with
  | bare i =>
      refine ⟨c, rfl, ⟨count, trivial⟩, Set.empty_subset _, rfl, Nat.sub_le _ _, le_rfl,
        Agree.refl _ _, fun d result hgeneral hesp hagree => ?_⟩
      have hret : load c.memory c.esp = ret := words.1
      refine ⟨{ d.drop 1 with eip := d.word 0 }, rfl, hgeneral, ?_, ?_, rfl⟩
      · rw [← hesp]
        rfl
      · have hword : d.word 0 = load d.memory (d.esp + 4 * 0) := rfl
        rw [← hret, hword, UInt32.mul_zero, UInt32.add_zero, hesp]
        exact hagree.load (by omega) subset_rfl
  | byValue i =>
      obtain ⟨u, hrun, framed⟩ := run_byValue i c
      obtain ⟨a, rfl⟩ := List.length_eq_one_iff.mp (show args.length = 1 from count)
      have harg : load u.memory (c.esp + 4) = a := (framed.wordsAt_args room fits words).1
      have hesi : u.general .esi = a := by
        rw [framed.general, ← harg, framed.memory]
        rfl
      have hesp := framed.esp_toNat room
      exact ⟨u, hrun, ⟨count, by rw [hesi]⟩, Set.empty_subset _, framed.segment, hesp.ge,
        by omega, framed.agree room, framed.comesBack rfl room fits words⟩
  | byAddress i n =>
      obtain ⟨u, hrun, framed⟩ := run_byAddress i c
      obtain ⟨hfinds, hplace⟩ := framed.finds count room fits words
      have hesp := framed.esp_toNat room
      exact ⟨u, hrun, hfinds, hplace, framed.segment, hesp.ge, by omega, framed.agree room,
        framed.comesBack rfl room fits words⟩
  | byFrame i n =>
      obtain ⟨u, hrun, framed⟩ := run_byFrame i c
      obtain ⟨hfinds, hplace⟩ := framed.finds count room fits words
      have hesp := framed.esp_toNat room
      exact ⟨u, hrun, hfinds, hplace, framed.segment, hesp.ge, by omega, framed.agree room,
        framed.comesBack rfl room fits words⟩

/-! ## Calls -/

/-- **A call of a library function**: the arguments are above the return address, and the kernel
stack is somewhere else. -/
structure Site (w : Wrapper) (c : Cpu) (esp0 ret : UInt32) (args : List UInt32) : Prop where
  /-- The number of arguments. -/
  count : args.length = w.passing.count
  /-- The stack of the caller. -/
  words : WordsAt c.memory c.esp (ret :: args)
  /-- There is room for the frame of the library function. -/
  room : 8 ≤ c.esp.toNat
  /-- The arguments are in memory. -/
  fits : c.esp.toNat + 4 * (args.length + 1) ≤ 2 ^ 32
  /-- There is room on the kernel stack. -/
  kernelRoom : 64 + 4 * args.length ≤ esp0.toNat
  /-- The stacks do not overlap. -/
  apart : Disjoint (Set.Ico (c.esp.toNat - 8) (c.esp.toNat + 4 * (args.length + 1)))
    (Set.Ico (esp0.toNat - 64 - 4 * args.length) esp0.toNat)
  /-- What the segment registers hold. -/
  sane : c.Sane

/-- **A function in C**, from its first instruction to the one behind its call: it takes its return
address from the stack, and keeps what is above its arguments and the frames in user mode. -/
structure Keeps (c u e e' : Cpu) (esp0 : UInt32) (n : ℕ) : Prop where
  /-- The stack pointer. -/
  esp : e'.esp = e.esp + 4
  /-- The registers of the thread. -/
  kernel : Agree (Set.Ico (e.esp.toNat + 4 * (n + 1)) esp0.toNat) e.memory e'.memory
  /-- The frame of the library function, and the return address. -/
  user : Agree (Set.Ico u.esp.toNat (c.esp.toNat + 4)) e.memory e'.memory

/-- A thread that calls `print(3, 0x7000)`. -/
def printCall : Cpu where
  general := fun _ => 0
  segment := fun _ => segselUserDs
  esp := 0x8000
  eip := 0
  zero := false
  memory := pushWords (fun _ => 0) 0x800c [0x7000, 3, 0x9000]

theorem printCall_site : Site .print printCall 0x3000 0x9000 [3, 0x7000] where
  count := rfl
  words := ⟨by decide, by decide, by decide, trivial⟩
  room := by decide
  fits := by decide
  kernelRoom := by decide
  apart := Set.disjoint_left.mpr fun x hx hx' => by
    have h1 : 0x8000 - 8 ≤ x := hx.1
    have h2 : x < 0x3000 := hx'.2
    omega
  sane := fun _ => ⟨show loadable segselUserDs = true by decide,
    show segselUserDs &&& 0xffff = segselUserDs by decide⟩

/-- **`set_term_color`** leaves its argument in `%esi`, and the wrapper takes it for an address: the
function in C gets the words that lie there. -/
theorem setTermColor_arguments {c : Cpu} {esp0 flags ret color x y : UInt32} (next back : UInt32)
    (room : 8 ≤ c.esp.toNat) (fits : c.esp.toNat + 8 ≤ 2 ^ 32)
    (words : WordsAt c.memory c.esp [ret, color]) (there : WordsAt c.memory color [x, y])
    (inMemory : color.toNat + 8 ≤ 2 ^ 32) (kernelRoom : 72 ≤ esp0.toNat)
    (apart : Disjoint (Set.Ico color.toNat (color.toNat + 8))
      (Set.Ico (c.esp.toNat - 8) c.esp.toNat ∪ Set.Ico (esp0.toNat - 72) esp0.toNat)) :
    ∃ u e, c.run Call.setTermColor.stub.enter = some u ∧
      enterKernel .setTermColor esp0 flags next back u = some e ∧
      WordsAt e.memory e.esp [back, x, y] := by
  obtain ⟨hframe, hkernel⟩ := Set.disjoint_union_right.mp apart
  obtain ⟨u, hu, ⟨-, hesi⟩, -, -, -, -, hagree, -⟩ := enter_spec (.byValue 0x4f)
    (show [color].length = 1 from rfl) room fits words
  have hcolor : u.general .esi = color := (List.singleton_inj.mp hesi).symm
  have hfinds : Wrapper.setTermColor.passing.Finds u [x, y] := by
    refine ⟨rfl, show WordsAt u.memory (u.general .esi) [x, y] from ?_⟩
    rw [hcolor]
    exact there.frame hagree inMemory fun a ha ha' => Set.disjoint_left.mp hframe ha ha'
  have hplace : Wrapper.setTermColor.passing.place u =
      Set.Ico color.toNat (color.toNat + 8) := by
    rw [← hcolor]
    rfl
  obtain ⟨e, he, -, hwords, -⟩ := enterKernel_spec .setTermColor flags next back hfinds
    (hplace ▸ fun a ha => lt_of_lt_of_le ha.2 inMemory) kernelRoom (hplace ▸ hkernel)
  exact ⟨u, e, hu, he, (WordsAt.append_iff.mp (show WordsAt e.memory e.esp ([back, x, y] ++
    (Wrapper.setTermColor.saved u ++ frame u flags next)) from hwords)).1⟩

end Pebbles.Syscall
