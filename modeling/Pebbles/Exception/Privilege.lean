import Pebbles.Exception.FaultDelivery

/-! # What `swexn` can load

The registers that a thread gets from an accepted `newureg`. `is_valid_newureg` compares the flags
with those kept in `swexn_info`, which come from the last fault with a handler and are cleared with
the handler; it does not look at `es`, `fs`, `gs` and `ss`, and it takes the end of the kernel stack
for the end of kernel memory. -/

namespace Pebbles.Exception

open Pebbles.Memory Transition

/-! ## The property and the condition -/

/-- `EFL_IF`. -/
def eflIf : UInt32 := 0x200

/-- The flags that are not for a user program: `EFL_IF`, `EFL_IOPL_RING3`, `EFL_VM`, `EFL_VIF` and
`EFL_VIP`. -/
def systemFlags : UInt32 := 0x1a3200

/-- **Legitimate flags**: of the system flags, those that `thr_create` gives, which are `EFL_IF`
alone. -/
def Legitimate (eflags : UInt32) : Prop := eflags &&& systemFlags = eflIf

instance (eflags : UInt32) : Decidable (Legitimate eflags) := inferInstanceAs (Decidable (_ = _))

/-- **A harmless set of registers.** -/
structure Harmless (c : UserCpu) : Prop where
  /-- The code segment. -/
  cs : c.cs = segselUserCs
  /-- The data segments. -/
  segments : c.ds = segselUserDs ∧ c.es = segselUserDs ∧ c.fs = segselUserDs ∧
    c.gs = segselUserDs ∧ c.ss = segselUserDs
  /-- The instruction pointer. -/
  eip : userMemStart ≤ c.eip.toNat
  /-- The stack pointer. -/
  esp : userMemStart ≤ c.esp.toNat
  /-- The flags. -/
  eflags : ∃ legitimate, Legitimate legitimate ∧ (c.eflags ^^^ legitimate) &&& ~~~allowedBits = 0

/-- A thread that goes on does so with harmless registers. -/
def Outcome.Harmless : Outcome → Prop
  | .resumes c => Exception.Harmless c
  | .elsewhere => False
  | .faults => True

/-- The registers of an accepted call are harmless. -/
def HarmlessCall {s : KernelStack} (t : Option Task) (e : Event s) (_ : Option Task) : Prop :=
  ∀ task c u, t = some task → e = .swexn c → (c.result task s.top).2 = 0 →
    c.registersAt c.newureg = some u →
      ∀ m, (c.sysSwexnWrapper task s.top).2 = some m → m.iret.Harmless

/-- The wrapper comes back to user mode with these registers, or to another mode. -/
def Returns (u : Ureg) : Prop :=
  Loads u ∧ (u.eflags &&& eflVm = 0 → u.ss &&& 0xffff = segselUserDs)

/-- **Registers that may be loaded**: unless the wrapper faults on them, the segments that are not
looked at are those of the user, both addresses are in user memory, and the flags kept from the
last fault are legitimate. -/
def CarefulRegisters (t : Task) (u : Ureg) : Prop :=
  Returns u → u.es &&& 0xffff = segselUserDs ∧ u.fs &&& 0xffff = segselUserDs ∧
    u.gs &&& 0xffff = segselUserDs ∧ userMemStart ≤ u.eip.toNat ∧ userMemStart ≤ u.esp.toNat ∧
    Legitimate t.swexnInfo.eflags

/-- The condition on a call. -/
def CarefulCall {s : KernelStack} (t : Option Task) (e : Event s) : Prop :=
  ∀ task c u, t = some task → e = .swexn c → (c.result task s.top).2 = 0 →
    c.registersAt c.newureg = some u → CarefulRegisters task u

/-! ## Flags -/

/-- A change of allowed bits keeps flags legitimate. -/
theorem legitimate_congr {x y : UInt32} (h : (x ^^^ y) &&& ~~~allowedBits = 0) :
    Legitimate x ↔ Legitimate y := by
  rw [Legitimate, Legitimate, and_eq_and_of_changed h (by decide)]

/-- Flags that differ from legitimate ones in allowed bits are legitimate themselves. -/
theorem legitimate_iff_exists {x : UInt32} :
    (∃ l, Legitimate l ∧ (x ^^^ l) &&& ~~~allowedBits = 0) ↔ Legitimate x := by
  constructor
  · rintro ⟨l, hl, hx⟩
    exact (legitimate_congr hx).mpr hl
  · intro hx
    exact ⟨x, hx, by rw [UInt32.xor_self, UInt32.zero_and]⟩

/-- Legitimate flags have `IF` set, `IOPL` 0 and `VM` clear. -/
theorem Legitimate.bits {x : UInt32} (h : Legitimate x) :
    x &&& eflIf = eflIf ∧ x &&& 0x3000 = 0 ∧ x &&& eflVm = 0 := by
  have hbits (m : UInt32) (hm : systemFlags &&& m = m) : x &&& m = eflIf &&& m := by
    calc x &&& m = x &&& (systemFlags &&& m) := by rw [hm]
      _ = x &&& systemFlags &&& m := (UInt32.and_assoc ..).symm
      _ = eflIf &&& m := by rw [h]
  exact ⟨hbits eflIf (by decide), hbits 0x3000 (by decide), hbits eflVm (by decide)⟩

/-- A fault with a handler keeps the flags of the thread. -/
theorem legitimate_delivered {s : KernelStack} (t : Task) (f : Fault s) :
    Legitimate (delivered t f).swexnInfo.eflags ↔ Legitimate f.registers.eflags := Iff.rfl

/-- After a deregistration the flags that are kept are not legitimate. -/
theorem not_legitimate_deregistered (t : Task) (kernStackHigh eip arg newureg : UInt32) :
    ¬Legitimate (t.sysSwexn kernStackHigh 0 eip arg newureg none).1.swexnInfo.eflags := by
  have hzero : (t.sysSwexn kernStackHigh 0 eip arg newureg none).1.swexnInfo.eflags = 0 := by
    simp [Task.sysSwexn, isValidNewureg]
  rw [hzero]
  decide

/-! ## Exactness -/

/-- Only the data segment of the user is the data segment of the user in user mode. -/
theorem atUser_eq_userDs {selector : UInt32} :
    atUser selector = segselUserDs ↔ selector = segselUserDs := by
  unfold atUser
  split_ifs with h
  · constructor
    · intro hzero
      exact absurd hzero (by decide)
    · rintro rfl
      exact absurd h (by decide)
  · rfl

/-- The registers in user mode, when the code and the stack segment are those of the user. -/
theorem harmless_inUserMode_iff {u : Ureg} (hds : u.ds = segselUserDs) :
    Harmless (ofUreg u).inUserMode ↔ u.es &&& 0xffff = segselUserDs ∧
      u.fs &&& 0xffff = segselUserDs ∧ u.gs &&& 0xffff = segselUserDs ∧
      userMemStart ≤ u.eip.toNat ∧ userMemStart ≤ u.esp.toNat ∧ Legitimate u.eflags := by
  constructor
  · rintro ⟨-, ⟨-, hes, hfs, hgs, -⟩, heip, hesp, heflags⟩
    exact ⟨atUser_eq_userDs.mp hes, atUser_eq_userDs.mp hfs, atUser_eq_userDs.mp hgs, heip, hesp,
      legitimate_iff_exists.mp heflags⟩
  · rintro ⟨hes, hfs, hgs, heip, hesp, heflags⟩
    have hds' : u.ds &&& 0xffff = segselUserDs := by rw [hds, segselUserDs_low]
    exact ⟨rfl, ⟨atUser_eq_userDs.mpr hds', atUser_eq_userDs.mpr hes, atUser_eq_userDs.mpr hfs,
      atUser_eq_userDs.mpr hgs, rfl⟩, heip, hesp, legitimate_iff_exists.mpr heflags⟩

/-- What `iret` comes to after an accepted call is harmless exactly for careful registers. -/
theorem leaveWith_harmless_iff {t : Task} {kernStackHigh : UInt32} {u : Ureg} (loads : Loads u)
    (hvalid : isValidNewureg t kernStackHigh (some u) = true) :
    (leaveWith (ofUreg u)).Harmless ↔ CarefulRegisters t u := by
  obtain ⟨-, hcs, hds, -, -, -, hflags⟩ := (isValidNewureg_iff t kernStackHigh u).mp hvalid
  have hcs' : (ofUreg u).cs &&& 0xffff = segselUserCs := by
    rw [← segselUserCs_low, ← hcs]
    rfl
  by_cases hvm : u.eflags &&& eflVm = 0
  · rw [leaveWith, if_pos ⟨hvm, hcs'⟩]
    by_cases hss : (ofUreg u).ss &&& 0xffff = segselUserDs
    · -- the thread goes on in user mode
      rw [if_pos hss]
      refine (harmless_inUserMode_iff hds).trans ?_
      rw [legitimate_congr hflags]
      exact ⟨fun h _ => h, fun h => h ⟨loads, fun _ => hss⟩⟩
    · rw [if_neg hss]
      exact ⟨fun _ returns => absurd (returns.2 hvm) hss, fun _ => trivial⟩
  · -- the processor goes on in virtual-8086 mode, with flags that are not legitimate
    rw [leaveWith, if_neg fun h => hvm h.1]
    refine ⟨False.elim, fun careful => ?_⟩
    have hlegitimate := (careful ⟨loads, fun h => absurd h hvm⟩).2.2.2.2.2
    exact hvm ((legitimate_congr hflags).mpr hlegitimate).bits.2.2

/-- **An accepted call is harmless exactly for careful registers.** -/
theorem accepted_harmless_iff {t : Task} {esp0 : UInt32} {c : SwexnCall} {u : Ureg}
    (haccepted : (c.result t esp0).2 = 0) (hu : c.registersAt c.newureg = some u) :
    (∀ m, (c.sysSwexnWrapper t esp0).2 = some m → m.iret.Harmless) ↔ CarefulRegisters t u := by
  have hvalid : isValidNewureg t esp0 (some u) = true := by
    rw [SwexnCall.result, sysSwexn_accepts, hu] at haccepted
    exact haccepted
  by_cases loads : Loads u
  · obtain ⟨m, hm, hiret, -, -⟩ := SwexnCall.sysSwexnWrapper_loads haccepted hu loads
    rw [← leaveWith_harmless_iff loads hvalid, ← hiret]
    constructor
    · intro h
      exact h m hm
    · intro h m' hm'
      rw [hm] at hm'
      exact Option.some.inj hm' ▸ h
  · -- a bad selector: the wrapper does not come back
    rw [SwexnCall.sysSwexnWrapper_bad haccepted hu loads]
    refine ⟨fun _ returns => absurd returns.1 loads, fun _ m hm => ?_⟩
    cases hm

/-- **Every accepted call is harmless exactly when every accepted call is careful**, in every
history of calls of `swexn` and of faults. -/
theorem harmless_iff_careful {s : KernelStack} (t : Task) (es : List (Event s))
    (t' : Option Task) :
    Run (Satisfying Step HarmlessCall) (some t) es t' ↔
      Run (Guarded Step CarefulCall) (some t) es t' := by
  refine Run.satisfying_iff_guarded (I := fun _ => True) trivial (fun _ _ _ _ _ => trivial) ?_
  intro v e v' _ _
  constructor
  · intro harmless task c u hv he haccepted hu
    exact (accepted_harmless_iff haccepted hu).mp (harmless task c u hv he haccepted hu)
  · intro careful task c u hv he haccepted hu
    exact (accepted_harmless_iff haccepted hu).mpr (careful task c u hv he haccepted hu)

/-- After a deregistration `swexn` accepts registers with all flags cleared, `IF` among them. -/
theorem interrupts_disabled :
    let s : KernelStack := ⟨0x00200000, by decide, by decide⟩
    let t : Task := ((⟨default, default, []⟩ : Task).sysSwexn s.top 0 0 0 0 none).1
    let c : SwexnCall := {
      caller := { (default : UserCpu) with esi := 0x02000000 }
      cr2 := 0, found := 0, ecx := 0, edx := 0
      user := wordsFrom 0x02000000 [0, 0, 0, 0x02000010, 0x0e, 0, 0x2b, 0x2b, 0x2b, 0x2b, 0, 0,
        0xffffe010, 0, 0, 0, 0, 0, 4, 0x01000000, 0x23, 0, 0xffffe000, 0x2b] }
    (c.result t s.top).2 = 0 ∧ ∃ m cpu, (c.sysSwexnWrapper t s.top).2 = some m ∧
      m.iret = .resumes cpu ∧ cpu.eflags = 0 ∧ ¬Harmless cpu := by
  intro s t c
  have haccepted : (c.result t s.top).2 = 0 := by decide +kernel
  let u : Ureg := ⟨0x0e, 0, 0x2b, 0x2b, 0x2b, 0x2b, 0, 0, 0xffffe010, 0, 0, 0, 0, 0, 4, 0x01000000,
    0x23, 0, 0xffffe000, 0x2b⟩
  have hu : c.registersAt c.newureg = some u := by decide +kernel
  have loads : Loads u := by
    unfold Loads
    decide
  obtain ⟨m, hm, hiret, -⟩ := SwexnCall.sysSwexnWrapper_loads haccepted hu loads
  refine ⟨haccepted, m, (ofUreg u).inUserMode, hm, ?_, rfl, fun harmless => ?_⟩
  · rw [hiret, leaveWith, if_pos (by decide), if_pos (by decide)]
  · have hzero : Legitimate 0 := legitimate_iff_exists.mp harmless.eflags
    exact absurd hzero (by decide)

end Pebbles.Exception
