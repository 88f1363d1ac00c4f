import Pebbles.Memory.CleanSlate

/-! # Ways in and out of the kernel

The assembly around a software exception handler: the entry of a page fault
(`exception_handler_wrappers.S`), the macros of `push_pop_helper.h` and `sys_swexn_wrapper`
(`thread_management.S`), as instructions of a machine. The machine counts the words of a kernel
stack from its top, where the processor begins to push: the words of the stack have negative
numbers. `iret` ends with what the processor makes of the words it pops. -/

namespace Pebbles.Exception

open Pebbles.Memory

/-! ## The machine -/

/-- The registers that the wrappers name, `%esp` apart. -/
inductive Reg where
  | eax | ecx | edx | ebx | esi | edi | ebp | ds | es | fs | gs | cr2
  deriving DecidableEq

/-- A segment register. -/
def Reg.isSegment : Reg → Bool
  | .ds | .es | .fs | .gs => true
  | _ => false

/-- The registers of a thread in user mode. -/
structure UserCpu extends UserRegisters where
  /-- Data segment. -/
  ds : UInt32
  /-- Extra segment. -/
  es : UInt32
  /-- Segment `fs`. -/
  fs : UInt32
  /-- Segment `gs`. -/
  gs : UInt32
  deriving DecidableEq

deriving instance Inhabited for Ureg, SwexnInfo, UserRegisters, UserCpu

/-- The general registers and the segment registers, by name. -/
def UserCpu.reg (c : UserCpu) (cr2 : UInt32) : Reg → UInt32
  | .eax => c.eax
  | .ecx => c.ecx
  | .edx => c.edx
  | .ebx => c.ebx
  | .esi => c.esi
  | .edi => c.edi
  | .ebp => c.ebp
  | .ds => c.ds
  | .es => c.es
  | .fs => c.fs
  | .gs => c.gs
  | .cr2 => cr2

/-- The processor in kernel mode. -/
structure Machine where
  /-- The address of the end of the kernel stack, which `set_esp0` was told. -/
  esp0 : UInt32
  /-- The registers. -/
  regs : Reg → UInt32
  /-- `%esp`: the number of a word. -/
  esp : Int
  /-- Where `%ebp` points after `movl %esp, %ebp`. -/
  frame : Int
  /-- The words of the kernel stack, and of what lies above it. -/
  stack : Int → UInt32
  /-- The words that were written. -/
  written : List Int
  /-- The words of user memory, by the address of their first byte. -/
  user : UInt32 → UInt32

namespace Machine

/-- The address of a word of the kernel stack. -/
def address (m : Machine) (o : Int) : UInt32 := m.esp0 + UInt32.ofInt (4 * o)

/-- A word of the stack is written. -/
def store (m : Machine) (o : Int) (w : UInt32) : Machine :=
  { m with stack := fun o' => if o' = o then w else m.stack o', written := o :: m.written }

/-- A word is pushed. -/
def push (m : Machine) (w : UInt32) : Machine := { m.store (m.esp - 1) w with esp := m.esp - 1 }

/-- The processor enters the kernel: the frame that `iret` takes back. -/
def trap (c : UserCpu) (cr2 esp0 : UInt32) (found : Int → UInt32) (user : UInt32 → UInt32) :
    Machine :=
  ((((({ esp0, regs := c.reg cr2, esp := 0, frame := 0, stack := found, written := [], user } :
    Machine).push c.ss).push c.esp).push c.eflags).push c.cs).push c.eip

end Machine

/-- The selectors that the kernel may load into a data segment register: the null selectors, and
those of the code and data segments in `init_gdt`. -/
def loadable (selector : UInt32) : Bool :=
  let s := selector &&& 0xffff
  s < 4 || s == 0x10 || s == 0x18 || (0x20 ≤ s && s < 0x24) || (0x28 ≤ s && s < 0x2c)

/-- The instructions of the wrappers. -/
inductive Instr where
  /-- `pushl %r`. -/
  | pushl (r : Reg)
  /-- `pushl $c`. -/
  | pushImm (c : UInt32)
  /-- `pushl %esp`. -/
  | pushEsp
  /-- `pushl 4k(%ebp)`, with `%ebp` in the kernel stack. -/
  | pushFrame (k : Int)
  /-- `pushl off(%esi)`, with `%esi` in user memory. -/
  | pushUser (off : UInt32)
  /-- `popl %r`. -/
  | popl (r : Reg)
  /-- `movl %esp, %ebp`. -/
  | enter
  /-- `movl $c, %r`. -/
  | movImm (c : UInt32) (r : Reg)
  /-- `movl %r, %s`. -/
  | movl (r s : Reg)
  /-- `movl off(%esi), %r`, with `%esi` in user memory. -/
  | loadUser (off : UInt32) (r : Reg)
  /-- `movl %r, 4k(%esp)`. -/
  | storeStack (r : Reg) (k : Int)

namespace Machine

/-- A register is loaded. A bad selector is a general protection fault. -/
def load (m : Machine) (r : Reg) (w : UInt32) : Option Machine :=
  if r.isSegment then
    if loadable w then
      some { m with regs := fun s => if s = r then w &&& 0xffff else m.regs s }
    else none
  else some { m with regs := fun s => if s = r then w else m.regs s }

/-- One instruction. -/
def exec (m : Machine) : Instr → Option Machine
  | .pushl r => some (m.push (m.regs r))
  | .pushImm c => some (m.push c)
  | .pushEsp => some (m.push (m.address m.esp))
  | .pushFrame k => some (m.push (m.stack (m.frame + k)))
  | .pushUser off => some (m.push (m.user (m.regs .esi + off)))
  | .popl r => ({ m with esp := m.esp + 1 }).load r (m.stack m.esp)
  | .enter => ({ m with frame := m.esp }).load .ebp (m.address m.esp)
  | .movImm c r => m.load r c
  | .movl r s => m.load s (m.regs r)
  | .loadUser off r => m.load r (m.user (m.regs .esi + off))
  | .storeStack r k => some (m.store (m.esp + k) (m.regs r))

/-- Instructions in a row. -/
def run (m : Machine) : List Instr → Option Machine
  | [] => some m
  | i :: is => (m.exec i).bind fun m => m.run is

/-- A C function returns: `%eax` has its result, `%ecx` and `%edx` may have changed. -/
def returned (m : Machine) (result : Int) (ecx edx : UInt32) : Machine :=
  { m with regs := fun
      | .eax => UInt32.ofInt result
      | .ecx => ecx
      | .edx => edx
      | r => m.regs r }

/-- The `ureg_t` at an address of user memory. -/
def uregAt (m : Machine) (a : UInt32) : Ureg :=
  ⟨m.user a, m.user (a + 4), m.user (a + 8), m.user (a + 12), m.user (a + 16), m.user (a + 20),
    m.user (a + 24), m.user (a + 28), m.user (a + 32), m.user (a + 36), m.user (a + 40),
    m.user (a + 44), m.user (a + 48), m.user (a + 52), m.user (a + 56), m.user (a + 60),
    m.user (a + 64), m.user (a + 68), m.user (a + 72), m.user (a + 76)⟩

/-- The `ureg_t` on the kernel stack, from the word `o` on. -/
def uregOn (m : Machine) (o : Int) : Ureg :=
  ⟨m.stack o, m.stack (o + 1), m.stack (o + 2), m.stack (o + 3), m.stack (o + 4), m.stack (o + 5),
    m.stack (o + 6), m.stack (o + 7), m.stack (o + 8), m.stack (o + 9), m.stack (o + 10),
    m.stack (o + 11), m.stack (o + 12), m.stack (o + 13), m.stack (o + 14), m.stack (o + 15),
    m.stack (o + 16), m.stack (o + 17), m.stack (o + 18), m.stack (o + 19)⟩

end Machine

/-! ## The way back to user mode -/

@[simp] theorem segselUserCs_low : segselUserCs &&& 0xffff = segselUserCs := by decide

@[simp] theorem segselUserDs_low : segselUserDs &&& 0xffff = segselUserDs := by decide

/-- What `iret` comes to. -/
inductive Outcome where
  /-- The thread goes on in user mode. -/
  | resumes (c : UserCpu)
  /-- The processor goes on in another mode, or in another code segment. -/
  | elsewhere
  /-- A fault in the kernel. -/
  | faults

/-- A data segment of the kernel does not stay loaded in user mode. -/
def atUser (selector : UInt32) : UInt32 :=
  if selector = 0x10 ∨ selector = 0x18 then 0 else selector

/-- `EFL_VM`. -/
def eflVm : UInt32 := 0x20000

/-- The registers `c`, as they are in user mode. -/
def UserCpu.inUserMode (c : UserCpu) : UserCpu :=
  { c with
    cs := segselUserCs, ss := segselUserDs
    ds := atUser c.ds, es := atUser c.es, fs := atUser c.fs, gs := atUser c.gs }

/-- The processor leaves the kernel with the registers `c`. -/
def leaveWith (c : UserCpu) : Outcome :=
  if c.eflags &&& eflVm = 0 ∧ c.cs &&& 0xffff = segselUserCs then
    if c.ss &&& 0xffff = segselUserDs then .resumes c.inUserMode else .faults
  else .elsewhere

/-- `iret`. -/
def Machine.iret (m : Machine) : Outcome :=
  leaveWith {
    edi := m.regs .edi, esi := m.regs .esi, ebp := m.regs .ebp, ebx := m.regs .ebx
    edx := m.regs .edx, ecx := m.regs .ecx, eax := m.regs .eax
    ds := m.regs .ds, es := m.regs .es, fs := m.regs .fs, gs := m.regs .gs
    eip := m.stack m.esp, cs := m.stack (m.esp + 1), eflags := m.stack (m.esp + 2)
    esp := m.stack (m.esp + 3), ss := m.stack (m.esp + 4) }

/-! ## The wrappers -/

/-- `SEGSEL_KERNEL_DS`. -/
def segselKernelDs : UInt32 := 0x18

/-- `PUSHREGS`. -/
def pushregs : List Instr :=
  [.pushl .ebp, .pushl .edi, .pushl .esi, .pushl .edx, .pushl .ecx, .pushl .ebx, .pushl .eax,
    .movImm segselKernelDs .eax, .movl .eax .ds, .movl .eax .es, .movl .eax .fs, .movl .eax .gs,
    .popl .eax]

/-- `POPREGS`. -/
def popregs : List Instr :=
  [.pushl .eax, .movImm segselUserDs .eax, .movl .eax .ds, .movl .eax .es, .movl .eax .fs,
    .movl .eax .gs, .popl .eax, .popl .ebx, .popl .ecx, .popl .edx, .popl .esi, .popl .edi,
    .popl .ebp]

/-- `POPREGS2`. -/
def popregs2 : List Instr :=
  [.popl .ebp, .popl .ebp, .popl .ebp, .popl .ebp, .popl .ebp, .popl .ebp, .popl .ebp]

/-- `PUSH_GENERAL_INFO_1`. -/
def pushGeneralInfo1 : List Instr :=
  [.pushl .ebp, .enter, .pushFrame 6, .pushFrame 5, .pushFrame 4, .pushFrame 3, .pushFrame 2,
    .pushFrame 1, .pushl .eax, .pushl .ecx, .pushl .edx, .pushl .ebx, .pushImm 0, .pushFrame 0,
    .pushl .esi, .pushl .edi, .pushl .gs, .pushl .fs, .pushl .es, .pushl .ds, .pushImm 0]

/-- `PF`, up to the call of `get_real_handler`. -/
def pf : List Instr := pushGeneralInfo1 ++ [.pushImm 0x0e, .pushEsp]

/-- `sys_swexn_wrapper`, up to the call of `sys_swexn`. -/
def swexnCall : List Instr :=
  pushregs ++ [.pushUser 12, .pushUser 8, .pushUser 4, .pushUser 0]

/-- After the call `%esi` is `newureg`. -/
def swexnReturn : List Instr := [.popl .esi, .popl .esi, .popl .esi, .popl .esi]

/-- The part of `sys_swexn_wrapper` that loads `newureg`. -/
def loadNewureg : List Instr :=
  popregs2 ++ [
    .loadUser 4 .eax, .movl .eax .cr2, .loadUser 8 .eax, .movl .eax .ds, .loadUser 12 .eax,
    .movl .eax .es, .loadUser 16 .eax, .movl .eax .fs, .loadUser 20 .eax, .movl .eax .gs,
    .loadUser 24 .edi, .loadUser 32 .ebp, .loadUser 40 .ebx, .loadUser 44 .edx, .loadUser 48 .ecx,
    -- eip, cs, eflags, esp, ss
    .loadUser 60 .eax, .storeStack .eax 0, .loadUser 64 .eax, .storeStack .eax 1,
    .loadUser 68 .eax, .storeStack .eax 2, .loadUser 72 .eax, .storeStack .eax 3,
    .loadUser 76 .eax, .storeStack .eax 4, .loadUser 52 .eax, .loadUser 28 .esi]

/-- A call of `swexn`: the registers of the caller, the memory it sees, what is found on its kernel
stack, and what `sys_swexn` leaves in two registers. -/
structure SwexnCall where
  /-- The registers of the caller. -/
  caller : UserCpu
  /-- The register `%cr2`. -/
  cr2 : UInt32
  /-- The kernel stack. -/
  found : Int → UInt32
  /-- The words of user memory. -/
  user : UInt32 → UInt32
  /-- Register `ecx` after the call. -/
  ecx : UInt32
  /-- Register `edx` after the call. -/
  edx : UInt32

/-- User memory with the words `ws` from `a` on. -/
def wordsFrom (a : UInt32) (ws : List UInt32) (b : UInt32) : UInt32 :=
  ws.getD ((b - a).toNat / 4) 0

namespace SwexnCall

/-- The arguments are in user memory, from `%esi` on. -/
def argument (c : SwexnCall) (k : UInt32) : UInt32 := c.user (c.caller.esi + k)

/-- The last argument. -/
def newureg (c : SwexnCall) : UInt32 := c.argument 12

/-- The machine at the entry of the wrapper. -/
def entry (c : SwexnCall) (esp0 : UInt32) : Machine :=
  Machine.trap c.caller c.cr2 esp0 c.found c.user

/-- The `ureg_t` at an address, if there is one. -/
def registersAt (c : SwexnCall) (a : UInt32) : Option Ureg :=
  if a = 0 then none else some ((c.entry 0).uregAt a)

/-- The call of `sys_swexn`, with the arguments of the caller. -/
def result (c : SwexnCall) (t : Task) (esp0 : UInt32) : Task × Int :=
  t.sysSwexn esp0 (c.argument 0) (c.argument 4) (c.argument 8) c.newureg (c.registersAt c.newureg)

/-- `sys_swexn_wrapper`: what becomes of the thread, and the machine at the `iret`, unless a
selector was bad. -/
def sysSwexnWrapper (c : SwexnCall) (t : Task) (esp0 : UInt32) : Task × Option Machine :=
  match (c.entry esp0).run swexnCall with
  | none => (t, none)
  | some m =>
      let newureg := m.stack (m.esp + 3)
      let r := t.sysSwexn esp0 (m.stack m.esp) (m.stack (m.esp + 1)) (m.stack (m.esp + 2)) newureg
        (c.registersAt newureg)
      (r.1, ((m.returned r.2 c.ecx c.edx).run swexnReturn).bind fun m =>
        if m.regs .eax ≠ 0 ∨ m.regs .esi = 0 then m.run popregs else m.run loadNewureg)

end SwexnCall

/-! ## What the wrappers do -/

@[simp] theorem loadable_segselKernelDs : loadable segselKernelDs = true := by decide

@[simp] theorem loadable_segselUserDs : loadable segselUserDs = true := by decide

/-- The selectors that the wrapper loads from a `ureg_t` are good ones. -/
def Loads (u : Ureg) : Prop :=
  loadable u.ds = true ∧ loadable u.es = true ∧ loadable u.fs = true ∧ loadable u.gs = true

/-- The registers of a `ureg_t`. -/
def ofUreg (u : Ureg) : UserCpu where
  edi := u.edi
  esi := u.esi
  ebp := u.ebp
  ebx := u.ebx
  edx := u.edx
  ecx := u.ecx
  eax := u.eax
  eip := u.eip
  cs := u.cs
  eflags := u.eflags
  esp := u.esp
  ss := u.ss
  ds := u.ds &&& 0xffff
  es := u.es &&& 0xffff
  fs := u.fs &&& 0xffff
  gs := u.gs &&& 0xffff

/-- The top of a kernel stack during a system call: what `PUSHREGS` leaves of the registers, below
the frame of the processor. -/
def Saves (stack : Int → UInt32) (c : UserCpu) : Prop :=
  stack (-11) = c.ebx ∧ stack (-10) = c.ecx ∧ stack (-9) = c.edx ∧ stack (-8) = c.esi ∧
    stack (-7) = c.edi ∧ stack (-6) = c.ebp ∧ stack (-5) = c.eip ∧ stack (-4) = c.cs ∧
    stack (-3) = c.eflags ∧ stack (-2) = c.esp ∧ stack (-1) = c.ss

/-- The registers `c`, back from a system call with a result. -/
def UserCpu.answered (c : UserCpu) (result : UInt32) : UserCpu :=
  { c with
    eax := result, ds := segselUserDs, es := segselUserDs, fs := segselUserDs, gs := segselUserDs }

namespace Machine

/-- **The entry of a page fault** leaves a `ureg_t` with the registers of the thread, one word above
the pointer to it. The processor pushes the error code below its frame. -/
theorem run_pf (c : UserCpu) (cr2 esp0 errorCode : UInt32) (found : Int → UInt32)
    (user : UInt32 → UInt32) :
    ∃ m, ((trap c cr2 esp0 found user).push errorCode).run pf = some m ∧ m.esp = -28 ∧
      m.stack (-28) = esp0 - 108 ∧
      m.uregOn (-27) = ⟨0x0e, 0, c.ds, c.es, c.fs, c.gs, c.edi, c.esi, c.ebp, 0, c.ebx, c.edx, c.ecx,
        c.eax, errorCode, c.eip, c.cs, c.eflags, c.esp, c.ss⟩ := by
  have haddress : UInt32.ofInt 4 * -UInt32.ofInt 27 = -108 := by decide
  simp [pf, pushGeneralInfo1, run, exec, load, Reg.isSegment, push, store, trap, UserCpu.reg,
    address, uregOn, haddress, UInt32.sub_eq_add_neg]

/-- **Up to the call of `sys_swexn`**: the four arguments are on the stack, over the six words that
`PUSHREGS` leaves. -/
theorem run_swexnCall (c : UserCpu) (cr2 esp0 : UInt32) (found : Int → UInt32)
    (user : UInt32 → UInt32) :
    ∃ m : Machine, (trap c cr2 esp0 found user).run swexnCall = some m ∧ m.esp = -15 ∧
      m.user = user ∧ m.stack (-15) = user c.esi ∧ m.stack (-14) = user (c.esi + 4) ∧
      m.stack (-13) = user (c.esi + 8) ∧ m.stack (-12) = user (c.esi + 12) ∧
      Saves m.stack c ∧ ∀ o ∈ m.written, -15 ≤ o ∧ o < 0 := by
  simp [swexnCall, pushregs, run, exec, load, Reg.isSegment, push, store, trap, UserCpu.reg, Saves]

/-- After the call `%esi` has the last argument. -/
theorem run_swexnReturn {m : Machine} (hesp : m.esp = -15) :
    ∃ m', m.run swexnReturn = some m' ∧ m'.esp = -11 ∧ m'.regs .esi = m.stack (-12) ∧
      m'.regs .eax = m.regs .eax ∧ m'.stack = m.stack ∧ m'.written = m.written ∧
      m'.user = m.user := by
  simp [swexnReturn, run, exec, load, Reg.isSegment, hesp]

/-- Instructions in a row, in two parts. -/
theorem run_append (m : Machine) (is js : List Instr) :
    m.run (is ++ js) = (m.run is).bind fun m => m.run js := by
  induction is generalizing m with
  | nil => rfl
  | cons i is ih => simp only [List.cons_append, run, ih, Option.bind_assoc]

/-- `POPREGS2` takes seven words off the stack and keeps the last one, in `%ebp`. -/
theorem run_popregs2 (m : Machine) :
    ∃ m', m.run popregs2 = some m' ∧ m'.esp = m.esp + 7 ∧ m'.stack = m.stack ∧
      m'.written = m.written ∧ m'.user = m.user ∧ m'.regs .esi = m.regs .esi := by
  simp [popregs2, run, exec, load, Reg.isSegment, add_assoc]

/-- The part of `sys_swexn_wrapper` that loads `%cr2` and the selectors of `newureg`. -/
def loadSelectors : List Instr :=
  [.loadUser 4 .eax, .movl .eax .cr2, .loadUser 8 .eax, .movl .eax .ds, .loadUser 12 .eax,
    .movl .eax .es, .loadUser 16 .eax, .movl .eax .fs, .loadUser 20 .eax, .movl .eax .gs]

/-- Good selectors are loaded. -/
theorem run_loadSelectors {m : Machine} {u : Ureg} (hu : m.uregAt (m.regs .esi) = u)
    (loads : Loads u) :
    ∃ m', m.run loadSelectors = some m' ∧ m'.esp = m.esp ∧ m'.stack = m.stack ∧
      m'.written = m.written ∧ m'.user = m.user ∧ m'.regs .esi = m.regs .esi ∧
      m'.regs .ds = u.ds &&& 0xffff ∧ m'.regs .es = u.es &&& 0xffff ∧
      m'.regs .fs = u.fs &&& 0xffff ∧ m'.regs .gs = u.gs &&& 0xffff := by
  obtain ⟨hds, hes, hfs, hgs⟩ := loads
  subst hu
  simp only [uregAt] at hds hes hfs hgs
  simp [loadSelectors, run, exec, load, Reg.isSegment, uregAt, hds, hes, hfs, hgs]

/-- A bad one is a fault. -/
theorem run_loadSelectors_none {m : Machine} {u : Ureg} (hu : m.uregAt (m.regs .esi) = u)
    (bad : ¬Loads u) : m.run loadSelectors = none := by
  subst hu
  rw [← Option.not_isSome_iff_eq_none, Option.isSome_iff_exists]
  rintro ⟨m', hrun⟩
  simp only [loadSelectors, run, exec, load, Option.bind_eq_some_iff] at hrun
  simp [Reg.isSegment] at hrun
  exact bad ⟨hrun.1, hrun.2.1, hrun.2.2.1, hrun.2.2.2.1⟩

/-- **Loading `newureg`**: `POPREGS2` takes seven words where `PUSHREGS` has left six, so the frame
is written one word further up, and read from there. -/
theorem run_loadNewureg {m : Machine} {u : Ureg} (hesp : m.esp = -11)
    (hu : m.uregAt (m.regs .esi) = u) (loads : Loads u) :
    ∃ m', m.run loadNewureg = some m' ∧ m'.iret = leaveWith (ofUreg u) ∧
      m'.written = 0 :: -1 :: -2 :: -3 :: -4 :: m.written := by
  obtain ⟨m1, hrun1, hesp1, -, hwritten1, huser1, hesi1⟩ := m.run_popregs2
  have hu1 : m1.uregAt (m1.regs .esi) = u := by
    rw [hesi1, uregAt, huser1]
    exact hu
  obtain ⟨m2, hrun2, hesp2, -, hwritten2, huser2, hesi2, hds, hes, hfs, hgs⟩ :=
    run_loadSelectors hu1 loads
  have hu2 : m2.uregAt (m2.regs .esi) = u := by
    rw [hesi2, uregAt, huser2]
    exact hu1
  have hfour : m2.esp = -4 := by rw [hesp2, hesp1, hesp]; rfl
  show ∃ m', m.run (popregs2 ++ (loadSelectors ++ _)) = some m' ∧ _
  rw [run_append, hrun1, Option.bind_some, run_append, hrun2, Option.bind_some,
    ← hwritten1, ← hwritten2]
  subst hu2
  simp [run, exec, load, Reg.isSegment, store, hfour, hds, hes, hfs, hgs, iret, ofUreg, uregAt]

/-- A bad selector is a fault. -/
theorem run_loadNewureg_none {m : Machine} {u : Ureg} (hu : m.uregAt (m.regs .esi) = u)
    (bad : ¬Loads u) : m.run loadNewureg = none := by
  obtain ⟨m1, hrun1, -, -, -, huser1, hesi1⟩ := m.run_popregs2
  have hu1 : m1.uregAt (m1.regs .esi) = u := by
    rw [hesi1, uregAt, huser1]
    exact hu
  show m.run (popregs2 ++ (loadSelectors ++ _)) = none
  rw [run_append, hrun1, Option.bind_some, run_append, run_loadSelectors_none hu1 bad,
    Option.bind_none]

/-- **A call that loads nothing** returns to its caller, with the result in `%eax`. -/
theorem run_popregs {m : Machine} {c : UserCpu} (hesp : m.esp = -11) (saves : Saves m.stack c) :
    ∃ m', m.run popregs = some m' ∧ m'.written = -12 :: m.written ∧
      m'.iret = leaveWith (c.answered (m.regs .eax)) := by
  obtain ⟨hebx, hecx, hedx, hesi, hedi, hebp, heip, hcs, heflags, hsp, hss⟩ := saves
  simp [popregs, run, exec, load, push, store, Reg.isSegment, iret, UserCpu.answered, hesp,
    hebx, hecx, hedx, hesi, hedi, hebp, heip, hcs, heflags, hsp, hss]

end Machine

/-! ## What `is_valid_newureg` accepts -/

/-- Words with equal bits are equal. -/
theorem eq_of_bits {x y : UInt32} (h : ∀ i < 32, x.toBitVec.getLsbD i = y.toBitVec.getLsbD i) :
    x = y :=
  UInt32.toBitVec_inj.mp (BitVec.eq_of_getLsbD_eq h)

theorem bits_of_eq {x y : UInt32} (h : x = y) (i : Nat) :
    x.toBitVec.getLsbD i = y.toBitVec.getLsbD i := by
  rw [h]

/-- The test of `is_valid_newureg` for changed bits. -/
theorem changed_or_mask_iff (changed allowed : UInt32) :
    changed ||| (changed ^^^ allowed) = allowed ↔ changed &&& ~~~allowed = 0 := by
  constructor <;>
    · intro h
      refine eq_of_bits fun i hi => ?_
      have hbit := bits_of_eq h i
      simp [hi] at hbit ⊢
      grind

/-- The bits outside `allowed` agree. -/
theorem and_eq_and_of_changed {x y allowed m : UInt32} (h : (x ^^^ y) &&& ~~~allowed = 0)
    (hm : allowed &&& m = 0) : x &&& m = y &&& m := by
  refine eq_of_bits fun i hi => ?_
  have hbit := bits_of_eq h i
  have hmask := bits_of_eq hm i
  simp [hi] at hbit hmask ⊢
  grind

/-- **What `is_valid_newureg` accepts.** -/
theorem isValidNewureg_iff (t : Task) (kernStackHigh : UInt32) (u : Ureg) :
    isValidNewureg t kernStackHigh (some u) = true ↔
      u.cause ∈ swexnCauses ∧ u.cs = segselUserCs ∧ u.ds = segselUserDs ∧
        kernStackHigh < u.ebp ∧ kernStackHigh < u.esp ∧ kernStackHigh < u.eip ∧
        (u.eflags ^^^ t.swexnInfo.eflags) &&& ~~~allowedBits = 0 := by
  simp only [isValidNewureg, Bool.and_eq_true, beq_iff_eq, changed_or_mask_iff, decide_eq_true_eq,
    List.contains_iff_mem, and_assoc]

/-- `sys_swexn` returns 0 or -1. -/
theorem sysSwexn_result (t : Task) (kernStackHigh esp3 eip arg newureg : UInt32)
    (registers : Option Ureg) :
    (t.sysSwexn kernStackHigh esp3 eip arg newureg registers).2 = 0 ∨
      (t.sysSwexn kernStackHigh esp3 eip arg newureg registers).2 = -1 := by
  unfold Task.sysSwexn
  split_ifs
  · exact Or.inr rfl
  · exact Or.inl rfl
  · exact Or.inl rfl

/-- It returns 0 for valid registers. -/
theorem sysSwexn_accepts (t : Task) (kernStackHigh esp3 eip arg newureg : UInt32)
    (registers : Option Ureg) :
    (t.sysSwexn kernStackHigh esp3 eip arg newureg registers).2 = 0 ↔
      isValidNewureg t kernStackHigh registers = true := by
  unfold Task.sysSwexn
  split_ifs with hvalid
  · simp [hvalid]
  · simpa using hvalid
  · simpa using hvalid

/-! ## The whole wrapper -/

namespace SwexnCall

variable {c : SwexnCall} {t : Task} {esp0 : UInt32}

/-- The wrapper hands the arguments over, and goes on with what is then in `%eax` and `%esi`. -/
theorem sysSwexnWrapper_eq (c : SwexnCall) (t : Task) (esp0 : UInt32) :
    ∃ m : Machine, m.esp = -11 ∧ m.user = c.user ∧ m.regs .esi = c.newureg ∧
      m.regs .eax = UInt32.ofInt (c.result t esp0).2 ∧ Saves m.stack c.caller ∧
      (∀ o ∈ m.written, -15 ≤ o ∧ o < 0) ∧
      c.sysSwexnWrapper t esp0 = ((c.result t esp0).1,
        if m.regs .eax ≠ 0 ∨ m.regs .esi = 0 then m.run popregs else m.run loadNewureg) := by
  obtain ⟨m, hrun, hesp, huser, h0, h4, h8, h12, hsaves, hwritten⟩ :=
    Machine.run_swexnCall c.caller c.cr2 esp0 c.found c.user
  have hresult : t.sysSwexn esp0 (m.stack (-15)) (m.stack (-14)) (m.stack (-13)) (m.stack (-12))
      (c.registersAt (m.stack (-12))) = c.result t esp0 := by
    rw [h0, h4, h8, h12]
    simp [result, newureg, argument]
  have hreturned : (m.returned (c.result t esp0).2 c.ecx c.edx).esp = -15 := hesp
  obtain ⟨m', hrun', hesp', hesi, heax, hstack, hwritten', huser'⟩ :=
    Machine.run_swexnReturn hreturned
  refine ⟨m', hesp', huser'.trans huser, hesi.trans h12, heax, ?_, ?_, ?_⟩
  · rw [hstack]
    exact hsaves
  · rw [hwritten']
    exact hwritten
  · have hentry : (c.entry esp0).run swexnCall = some m := hrun
    simp only [sysSwexnWrapper, hentry, hesp, Int.reduceAdd, Int.reduceNeg, hresult, hrun',
      Option.bind_some]

/-- What becomes of the thread is what `sys_swexn` makes of it. -/
theorem sysSwexnWrapper_task (c : SwexnCall) (t : Task) (esp0 : UInt32) :
    (c.sysSwexnWrapper t esp0).1 = (c.result t esp0).1 := by
  obtain ⟨m, -, -, -, -, -, -, heq⟩ := c.sysSwexnWrapper_eq t esp0
  rw [heq]

/-- The registers that an accepted call loads. -/
theorem registersAt_newureg {u : Ureg} (h : c.registersAt c.newureg = some u) {m : Machine}
    (huser : m.user = c.user) (hesi : m.regs .esi = c.newureg) :
    c.newureg ≠ 0 ∧ m.uregAt (m.regs .esi) = u := by
  unfold registersAt at h
  split_ifs at h with hzero
  obtain rfl := Option.some.inj h
  refine ⟨hzero, ?_⟩
  simp [Machine.uregAt, hesi, huser, entry, Machine.trap, Machine.push, Machine.store]

/-- **An accepted call loads `newureg`**, and writes the word above the kernel stack. -/
theorem sysSwexnWrapper_loads {u : Ureg} (hresult : (c.result t esp0).2 = 0)
    (hu : c.registersAt c.newureg = some u) (loads : Loads u) :
    ∃ m, (c.sysSwexnWrapper t esp0).2 = some m ∧ m.iret = leaveWith (ofUreg u) ∧ 0 ∈ m.written ∧
      ∀ o ∈ m.written, -15 ≤ o ∧ o ≤ 0 := by
  obtain ⟨m, hesp, huser, hesi, heax, -, hwritten, heq⟩ := c.sysSwexnWrapper_eq t esp0
  obtain ⟨hne, hureg⟩ := registersAt_newureg hu huser hesi
  obtain ⟨m', hrun, hiret, hwritten'⟩ := Machine.run_loadNewureg hesp hureg loads
  rw [hresult] at heax
  refine ⟨m', ?_, hiret, ?_, fun o ho => ?_⟩
  · rw [heq, if_neg]
    · exact hrun
    · rintro (h | h)
      · exact h heax
      · exact hne (hesi ▸ h)
  · rw [hwritten']
    exact List.mem_cons_self
  · rw [hwritten'] at ho
    simp only [List.mem_cons] at ho
    rcases ho with rfl | rfl | rfl | rfl | rfl | hold
    iterate 5 omega
    have := hwritten o hold
    omega

/-- An accepted call with a bad selector faults. -/
theorem sysSwexnWrapper_bad {u : Ureg} (hresult : (c.result t esp0).2 = 0)
    (hu : c.registersAt c.newureg = some u) (bad : ¬Loads u) :
    (c.sysSwexnWrapper t esp0).2 = none := by
  obtain ⟨m, -, huser, hesi, heax, -, -, heq⟩ := c.sysSwexnWrapper_eq t esp0
  obtain ⟨hne, hureg⟩ := registersAt_newureg hu huser hesi
  rw [hresult] at heax
  rw [heq, if_neg]
  · exact Machine.run_loadNewureg_none hureg bad
  · rintro (h | h)
    · exact h heax
    · exact hne (hesi ▸ h)

/-- **A rejected call** returns -1, and writes nothing above the kernel stack. -/
theorem sysSwexnWrapper_rejected (hresult : (c.result t esp0).2 ≠ 0) :
    ∃ m, (c.sysSwexnWrapper t esp0).2 = some m ∧ m.iret = leaveWith (c.caller.answered (-1)) ∧
      ∀ o ∈ m.written, -15 ≤ o ∧ o < 0 := by
  obtain ⟨m, hesp, -, -, heax, hsaves, hwritten, heq⟩ := c.sysSwexnWrapper_eq t esp0
  have hminus : (c.result t esp0).2 = -1 := (sysSwexn_result ..).resolve_left hresult
  have heax' : m.regs .eax = -1 := by
    rw [heax, hminus]
    decide
  obtain ⟨m', hrun, hwritten', hiret⟩ := Machine.run_popregs hesp hsaves
  refine ⟨m', ?_, ?_, fun o ho => ?_⟩
  · rw [heq, if_pos]
    · exact hrun
    · left
      rw [heax']
      decide
  · rw [hiret, heax']
  · rw [hwritten'] at ho
    rcases List.mem_cons.mp ho with rfl | hold
    · omega
    · exact hwritten o hold

end SwexnCall

end Pebbles.Exception
