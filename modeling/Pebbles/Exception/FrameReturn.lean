import Pebbles.Exception.FaultDelivery

/-! # Going on after a fault

A handler that passes the `ureg_t` of its page fault back to `swexn`, as it got it. The wrapper of
the fault, `get_real_handler`, `is_valid_newureg` and `sys_swexn_wrapper` agree on the layout of the
`ureg_t`, but not on the number of words below the frame of `iret`: `PUSHREGS` leaves six, as it
pops `%eax` again, and `POPREGS2` takes seven. The last word of the frame is therefore written
above the kernel stack. -/

namespace Pebbles.Exception

open Pebbles.Memory

/-! ## The fault and the call -/

/-- The `ureg_t` that the wrapper of a page fault hands to `get_real_handler`, with `cr2` set. -/
def faultUreg (c : UserCpu) (cr2 esp0 errorCode : UInt32) (found : Int → UInt32)
    (user : UInt32 → UInt32) : Option Ureg :=
  (((Machine.trap c cr2 esp0 found user).push errorCode).run pf).map fun m =>
    { m.uregOn (m.esp + 1) with cr2 := cr2 }

/-- **A page fault in user mode and the answer of its handler**: the handler is entered, and its
first call of `swexn` gives the `ureg_t` on its stack back unmodified. -/
structure FrameReturn (s : KernelStack) where
  /-- The registers of the thread at the fault. -/
  cpu : UserCpu
  /-- The faulting address. -/
  cr2 : UInt32
  /-- The error code. -/
  errorCode : UInt32
  /-- What was on the kernel stack. -/
  found : Int → UInt32
  /-- The user memory at the fault. -/
  user : UInt32 → UInt32
  /-- The thread. -/
  task : Task
  /-- The fault, as `get_real_handler` sees it. -/
  fault : Fault s
  /-- The call of `swexn`. -/
  call : SwexnCall
  /-- The segments are those of the user. -/
  segments : cpu.cs = segselUserCs ∧ cpu.ds = segselUserDs ∧ cpu.es = segselUserDs ∧
    cpu.fs = segselUserDs ∧ cpu.gs = segselUserDs ∧ cpu.ss = segselUserDs
  /-- The thread was not in virtual-8086 mode. -/
  protectedMode : cpu.eflags &&& eflVm = 0
  /-- It faulted at an address of the user. -/
  eip_user : userMemStart ≤ cpu.eip.toNat
  /-- Its stack was in user memory. -/
  esp_user : userMemStart ≤ cpu.esp.toNat
  /-- The `ureg_t` is the one of the wrapper. -/
  registers : faultUreg cpu cr2 s.top errorCode found user = some fault.registers
  /-- It is where the wrapper leaves it. -/
  curUreg : fault.curUreg = s.top - 108
  /-- The handler is entered. -/
  entered : (getRealHandler task fault).handler = some (handlerCpu task)
  /-- It passes the copy on its stack. -/
  passed : call.newureg = task.swexnInfo.esp3 - 80
  /-- The copy is as it was. -/
  unmodified : call.registersAt call.newureg = some fault.registers

namespace FrameReturn

variable {s : KernelStack} (r : FrameReturn s)

/-- The thread when it calls `swexn`. -/
def handling : Task := delivered r.task r.fault

/-- The word lies in the `stack_size` bytes of the kernel stack. -/
def onStack (o : Int) : Prop := -1024 ≤ o ∧ o < 0

/-- **The frame is resumed**: the call is accepted, the thread goes on with exactly the registers of
the fault, and nothing outside the kernel stack is written. -/
def Resumed : Prop :=
  (r.call.result r.handling s.top).2 = 0 ∧
    ∃ m c, (r.call.sysSwexnWrapper r.handling s.top).2 = some m ∧ m.iret = .resumes c ∧
      c.toUserRegisters = r.cpu.toUserRegisters ∧ ∀ o ∈ m.written, onStack o

/-! ## The layout -/

/-- The `ureg_t` of a fault has the registers of the thread. -/
theorem registers_eq : r.fault.registers =
    ⟨0x0e, r.cr2, r.cpu.ds, r.cpu.es, r.cpu.fs, r.cpu.gs, r.cpu.edi, r.cpu.esi, r.cpu.ebp, 0,
      r.cpu.ebx, r.cpu.edx, r.cpu.ecx, r.cpu.eax, r.errorCode, r.cpu.eip, r.cpu.cs, r.cpu.eflags,
      r.cpu.esp, r.cpu.ss⟩ := by
  obtain ⟨m, hrun, hesp, -, hureg⟩ :=
    Machine.run_pf r.cpu r.cr2 s.top r.errorCode r.found r.user
  have hregisters := r.registers
  rw [faultUreg, hrun, Option.map_some, hesp] at hregisters
  rw [← Option.some.inj hregisters]
  show { m.uregOn (-27) with cr2 := r.cr2 } = _
  rw [hureg]

/-- The wrapper can load the segments of the fault. -/
theorem loads_registers : Loads r.fault.registers := by
  obtain ⟨-, hds, hes, hfs, hgs, -⟩ := r.segments
  rw [registers_eq]
  simp [Loads, hds, hes, hfs, hgs]

/-- **The validator looks at three registers**: an unmodified frame is accepted when `ebp`, `esp`
and `eip` are above the kernel stack. -/
theorem accepted_iff : (r.call.result r.handling s.top).2 = 0 ↔
    s.top < r.cpu.ebp ∧ s.top < r.cpu.esp ∧ s.top < r.cpu.eip := by
  obtain ⟨hcs, hds, -⟩ := r.segments
  have hcause : (0x0e : UInt32) ∈ swexnCauses := by decide
  -- `get_real_handler` has kept the flags of this very frame
  have hflags : r.handling.swexnInfo.eflags = r.cpu.eflags := by
    show r.fault.registers.eflags = _
    rw [registers_eq]
  rw [SwexnCall.result, sysSwexn_accepts, r.unmodified, isValidNewureg_iff, registers_eq]
  simp [hcause, hcs, hds, hflags]

/-- **Resuming**: an accepted frame is resumed exactly, and of what is written one word is not on
the kernel stack, the one above it. -/
theorem resumes (haccepted : (r.call.result r.handling s.top).2 = 0) :
    ∃ m c, (r.call.sysSwexnWrapper r.handling s.top).2 = some m ∧ m.iret = .resumes c ∧
      c.toUserRegisters = r.cpu.toUserRegisters ∧ 0 ∈ m.written ∧
      ∀ o ∈ m.written, o ≠ 0 → onStack o := by
  obtain ⟨m, hm, hiret, hzero, hwritten⟩ :=
    SwexnCall.sysSwexnWrapper_loads haccepted r.unmodified r.loads_registers
  obtain ⟨hcs, -, -, -, -, hss⟩ := r.segments
  have hmode := r.protectedMode
  refine ⟨m, (ofUreg r.fault.registers).inUserMode, hm, ?_, ?_, hzero, fun o ho hne => ?_⟩
  · rw [hiret, registers_eq, leaveWith, if_pos, if_pos]
    · simp [ofUreg, hss]
    · simp [ofUreg, hmode, hcs]
  · rw [registers_eq]
    simp [ofUreg, UserCpu.inUserMode, ← hcs, ← hss]
  · have := hwritten o ho
    exact ⟨by omega, by omega⟩

/-- A resumed frame has the word above the kernel stack on it. -/
theorem Resumed.onStack_zero (h : r.Resumed) : onStack 0 := by
  obtain ⟨haccepted, m, c, hm, -, -, hwritten⟩ := h
  obtain ⟨m', -, hm', -, -, hzero, -⟩ := r.resumes haccepted
  rw [hm] at hm'
  obtain rfl := Option.some.inj hm'
  exact hwritten 0 hzero

/-- **No frame is ever resumed**: it is rejected, or a word outside the kernel stack is written. -/
theorem not_resumed : ¬r.Resumed := fun h => absurd (Resumed.onStack_zero r h).2 (lt_irrefl 0)

/-- A page fault, returned from a handler whose stack ends at `0x02000060`. The arguments of `swexn`
are right below the `ureg_t`. -/
def plainReturn : FrameReturn ⟨0x00200000, by decide, by decide⟩ where
  cpu := { (default : UserCpu) with
    ebp := 0xffffe010, eip := 0x01000000, cs := segselUserCs, eflags := 0x202, esp := 0xffffe000
    ss := segselUserDs, ds := segselUserDs, es := segselUserDs, fs := segselUserDs
    gs := segselUserDs }
  cr2 := 0
  errorCode := 4
  found := 0
  user := 0
  task := ⟨default, ⟨0x02000060, 0x01000000, 0, 0, 1, 0⟩, []⟩
  fault := {
    memory := ⟨⟨fun _ _ => true, 0⟩, fun _ _ _ => rfl⟩
    curUreg := 0x00200f94
    registers := ⟨0x0e, 0, 0x2b, 0x2b, 0x2b, 0x2b, 0, 0, 0xffffe010, 0, 0, 0, 0, 0, 4, 0x01000000,
      0x23, 0x202, 0xffffe000, 0x2b⟩
    onStack := by decide }
  call := {
    caller := { (default : UserCpu) with esi := 0x02000000 }
    cr2 := 0, found := 0, ecx := 0, edx := 0
    user := wordsFrom 0x02000000 [0, 0, 0, 0x02000010, 0x0e, 0, 0x2b, 0x2b, 0x2b, 0x2b, 0, 0,
      0xffffe010, 0, 0, 0, 0, 0, 4, 0x01000000, 0x23, 0x202, 0xffffe000, 0x2b] }
  segments := by decide
  protectedMode := by decide
  eip_user := by decide
  esp_user := by decide
  registers := by rfl
  curUreg := by decide
  entered := by decide +kernel
  passed := by decide +kernel
  unmodified := by decide +kernel

/-- The frame is accepted and its registers are resumed, but the word above the kernel stack is
written. -/
theorem plainReturn_not_resumed :
    (plainReturn.call.result plainReturn.handling (0x00200000 + 4096)).2 = 0 ∧ ¬plainReturn.Resumed :=
  ⟨by decide +kernel, fun h => absurd (Resumed.onStack_zero _ h).2 (lt_irrefl 0)⟩

end FrameReturn

end Pebbles.Exception
