import Pebbles.Process.Processor

/-! # The switch from one stack to another

`do_switch` (`do_switch.S`) leaves the registers of a thread on its kernel stack and takes those of
the next one from its stack; a thread that has not run yet goes through `prepare_init_thread` and
`enter_user_mode` instead. -/

namespace Pebbles.Processor

open ByteStores
open Exception (loadable Outcome leaveWith UserCpu)
open Memory (UserRegisters)

/-! ## The code -/

/-- `THREAD_INIT`. -/
def threadInit : UInt32 := 4

/-- `do_switch`, up to the instruction that leaves the stack. -/
def doSwitchSave : List Insn :=
  [.pushl .ebp, .movEsp .ebp, .pusha, .pushSegment .ds, .pushSegment .es, .pushSegment .fs,
    .pushSegment .gs, .loadFrame 8 .ebx, .loadFrame 12 .ecx, .loadFrame 16 .edx, .saveEsp .ebx]

/-- The change of the stack, and the comparison. -/
def doSwitchChange : List Insn := [.loadEsp .ecx, .cmpImm threadInit .edx]

/-- `do_switch`, from the stack of the next thread on. -/
def doSwitchResume : List Insn :=
  [.popSegment .gs, .popSegment .fs, .popSegment .es, .popSegment .ds, .popa, .popl .ebp, .ret]

/-- `enter_user_mode`, up to `iret`. -/
def enterUserMode : List Insn :=
  [.popl .eax, .popl .edi, .popl .esi, .popl .ebp, .popl .ebx, .popl .edx, .popl .ecx, .popl .eax,
    .pushl .eax, .movImm 0x2b .eax, .movSegment .eax .ds, .movSegment .eax .es,
    .movSegment .eax .fs, .movSegment .eax .gs, .popl .eax]

/-- `next->registers`, the arguments of `enter_user_mode`. -/
def registersOf (m : Image) (tcb : UInt32) : UserRegisters where
  edi := load m (tcb + 56)
  esi := load m (tcb + 60)
  ebp := load m (tcb + 64)
  ebx := load m (tcb + 72)
  edx := load m (tcb + 76)
  ecx := load m (tcb + 80)
  eax := load m (tcb + 84)
  eip := load m (tcb + 92)
  cs := load m (tcb + 96)
  eflags := load m (tcb + 100)
  esp := load m (tcb + 104)
  ss := load m (tcb + 108)

/-- The registers in the order of the arguments. -/
def arguments (u : UserRegisters) : List UInt32 :=
  [u.edi, u.esi, u.ebp, u.ebx, u.edx, u.ecx, u.eax, u.eip, u.cs, u.eflags, u.esp, u.ss]

namespace Cpu

/-- Words are pushed, one after another. -/
def pushAll (c : Cpu) (ws : List UInt32) : Cpu := ws.foldl push c

/-- `iret`: the registers that user mode gets. -/
def iret (c : Cpu) : Outcome :=
  leaveWith {
    edi := c.general .edi, esi := c.general .esi, ebp := c.general .ebp, ebx := c.general .ebx
    edx := c.general .edx, ecx := c.general .ecx, eax := c.general .eax
    ds := c.segment .ds, es := c.segment .es, fs := c.segment .fs, gs := c.segment .gs
    eip := c.word 0, cs := c.word 1, eflags := c.word 2, esp := c.word 3, ss := c.word 4 }

/-- `prepare_init_thread(next)`, which calls `enter_user_mode`: a C function that has `locals` bytes
on the stack, and the addresses to which the calls would return. -/
def prepareInitThread (c : Cpu) (locals back : UInt32) : Option Cpu :=
  let next := c.word 1
  let c := { c with memory := storeWord c.memory (next + 12) 0 }
  let registers := registersOf c.memory next
  let c := { c with esp := c.esp - locals }
  (c.pushAll ((arguments registers).reverse ++ [back])).run enterUserMode

end Cpu

/-- What `do_switch` comes to. -/
inductive Switched where
  /-- It returns, to the caller on the other stack. -/
  | returns (c : Cpu)
  /-- The next thread comes to the `iret` of `enter_user_mode`. -/
  | enters (c : Cpu)

/-- **`do_switch`.** There is no result when a bad selector is loaded. -/
def doSwitch (locals back back' : UInt32) (c : Cpu) : Option Switched :=
  (c.run (doSwitchSave ++ doSwitchChange)).bind fun c =>
    if c.zero then
      (((c.push (c.general .ecx)).push back).prepareInitThread locals back').map .enters
    else (c.run doSwitchResume).map .returns

/-! ## Pushing -/

namespace Cpu

theorem pushAll_eq (c : Cpu) (ws : List UInt32) :
    c.pushAll ws = { c with
      esp := c.esp - 4 * UInt32.ofNat ws.length, memory := pushWords c.memory c.esp ws } := by
  induction ws generalizing c with
  | nil => simp [pushAll, pushWords]
  | cons w ws ih =>
      have hmul : 4 * UInt32.ofNat (ws.length + 1) = 4 * UInt32.ofNat ws.length + 4 := by
        rw [UInt32.ofNat_add, UInt32.mul_add]
        rfl
      have hesp : c.esp - 4 - 4 * UInt32.ofNat ws.length =
          c.esp - 4 * UInt32.ofNat (ws.length + 1) := by
        rw [hmul, UInt32.sub_eq_iff_eq_add, UInt32.sub_eq_iff_eq_add, UInt32.add_assoc,
          UInt32.sub_add_cancel]
      rw [List.length_cons, ← hesp]
      exact ih (c.push w)

/-! ## The saved registers -/

/-- **The registers of a thread on its stack**, from the saved pointer upwards. -/
def saved (c : Cpu) : List UInt32 :=
  [c.segment .gs, c.segment .fs, c.segment .es, c.segment .ds, c.general .edi, c.general .esi,
    c.esp - 4, c.esp - 4, c.general .ebx, c.general .edx, c.general .ecx, c.general .eax,
    c.general .ebp]

/-- The processor when the registers have been pushed. -/
def afterPushes (c : Cpu) : Cpu := { c.pushAll c.saved.reverse with
  general := fun s => if s = .ebp then c.esp - 4 else c.general s }

theorem run_pushes (c : Cpu) :
    c.run [.pushl .ebp, .movEsp .ebp, .pusha, .pushSegment .ds, .pushSegment .es, .pushSegment .fs,
      .pushSegment .gs] = some c.afterPushes := by
  simp [run, exec, push, set, afterPushes, pushAll, saved]

variable {c m : Cpu} {ret cur nxt st : UInt32}

/-- The saved registers are on the stack, above them what was there. -/
theorem wordsAt_afterPushes {ws : List UInt32} (room : 52 ≤ c.esp.toNat)
    (fits : c.esp.toNat + 4 * ws.length ≤ 2 ^ 32) (h : WordsAt c.memory c.esp ws) :
    WordsAt c.afterPushes.memory (c.esp - 52) (c.saved ++ ws) := by
  have hpush := h.pushWords c.saved.reverse room fits
  rw [List.reverse_reverse] at hpush
  rw [afterPushes, pushAll_eq]
  exact hpush

theorem agree_afterPushes (room : 52 ≤ c.esp.toNat) :
    Agree (Set.Ico (c.esp.toNat - 52) c.esp.toNat)ᶜ c.memory c.afterPushes.memory := by
  rw [afterPushes, pushAll_eq]
  exact agree_pushWords c.memory c.saved.reverse room

/-- **`do_switch` saves the registers** and the stack pointer. -/
theorem run_doSwitchSave (room : 52 ≤ c.esp.toNat) (fits : c.esp.toNat + 16 ≤ 2 ^ 32)
    (args : WordsAt c.memory c.esp [ret, cur, nxt, st]) :
    ∃ m, c.run doSwitchSave = some m ∧ m.esp = c.esp - 52 ∧ m.general .ecx = nxt ∧
      m.general .edx = st ∧ m.memory = storeWord c.afterPushes.memory cur (c.esp - 52) := by
  have hargs : WordsAt c.afterPushes.memory c.esp [ret, cur, nxt, st] := by
    refine args.frame (agree_afterPushes room) fits fun x hx hx' => ?_
    have h1 := hx.1
    have h2 := hx'.2
    omega
  obtain ⟨-, hcur, hnxt, hst, -⟩ := hargs
  have hesp : c.afterPushes.esp = c.esp - 52 := by
    rw [afterPushes, pushAll_eq]
    rfl
  have hebp : c.afterPushes.general .ebp = c.esp - 4 := rfl
  have h8 : c.esp - 4 + 8 = c.esp + 4 := by
    rw [show (8 : UInt32) = 4 + 4 from rfl, ← UInt32.add_assoc, UInt32.sub_add_cancel]
  have h12 : c.esp - 4 + 12 = c.esp + 4 + 4 := by
    rw [show (12 : UInt32) = 4 + (4 + 4) from rfl, ← UInt32.add_assoc, UInt32.sub_add_cancel,
      UInt32.add_assoc]
  have h16 : c.esp - 4 + 16 = c.esp + 4 + 4 + 4 := by
    rw [show (16 : UInt32) = 4 + (4 + (4 + 4)) from rfl, ← UInt32.add_assoc, UInt32.sub_add_cancel,
      UInt32.add_assoc, UInt32.add_assoc]
  have hsplit : doSwitchSave = [.pushl .ebp, .movEsp .ebp, .pusha, .pushSegment .ds,
      .pushSegment .es, .pushSegment .fs, .pushSegment .gs] ++
      [.loadFrame 8 .ebx, .loadFrame 12 .ecx, .loadFrame 16 .edx, .saveEsp .ebx] := rfl
  rw [hsplit, run_append, run_pushes, Option.bind_some]
  refine ⟨_, rfl, hesp, ?_, ?_, ?_⟩
  · simpa [set, hebp, h12] using hnxt
  · simpa [set, hebp, h16] using hst
  · simp [set, hebp, h8, hcur, hesp]

/-- **`do_switch` takes the registers** of the next thread from its stack. -/
theorem run_doSwitchResume (sane : c.Sane) (h : WordsAt m.memory m.esp (c.saved ++ [ret])) :
    m.run doSwitchResume = some { m with
      general := c.general, segment := c.segment, esp := m.esp + 56, eip := ret } := by
  simp only [saved, List.cons_append, List.nil_append, WordsAt, UInt32.add_assoc, UInt32.reduceAdd]
    at h
  obtain ⟨hgs, hfs, hes, hds, hedi, hesi, -, -, hebx, hedx, hecx, heax, hebp, hret, -⟩ := h
  have hsegment : ∀ s, loadable (c.segment s) = true := fun s => (sane s).1
  have hlow : ∀ s, c.segment s &&& 0xffff = c.segment s := fun s => (sane s).2
  simp [doSwitchResume, run, exec, drop, word, set, loadSegment, UInt32.add_assoc, hgs, hfs, hes,
    hds, hedi, hesi, hebx, hedx, hecx, heax, hebp, hret, hsegment, hlow]
  refine ⟨?_, ?_⟩
  · funext r
    cases r <;> simp
  · funext s
    cases s <;> simp

/-! ## Entering user mode -/

/-- The registers `u` with the data segments of user mode. -/
def inUserMode (u : UserRegisters) : UserCpu :=
  { u with ds := 0x2b, es := 0x2b, fs := 0x2b, gs := 0x2b }

/-- **`enter_user_mode`** loads its arguments. -/
theorem run_enterUserMode {u : UserRegisters} {back : UInt32}
    (fits : m.esp.toNat + 52 ≤ 2 ^ 32)
    (h : WordsAt m.memory m.esp (back :: arguments u)) :
    ∃ k, m.run enterUserMode = some k ∧ k.iret = leaveWith (inUserMode u) ∧
      k.memory = storeWord m.memory (m.esp + 28) u.eax := by
  have hselector : loadable 0x2b = true := by decide
  have hlow : (0x2b : UInt32) &&& 0xffff = 0x2b := by decide
  have hesp : (m.esp + 28).toNat = m.esp.toNat + 28 := add_toNat (by
    show m.esp.toNat + 28 < 2 ^ 32
    omega)
  have hesp' : (m.esp + 32).toNat = m.esp.toNat + 32 := add_toNat (by
    show m.esp.toNat + 32 < 2 ^ 32
    omega)
  -- the frame of `iret` is above the word that is pushed
  have hframe : WordsAt m.memory (m.esp + 32) [u.eip, u.cs, u.eflags, u.esp, u.ss] := by
    simp only [arguments, WordsAt, UInt32.add_assoc, UInt32.reduceAdd] at h ⊢
    obtain ⟨-, -, -, -, -, -, -, -, heip, hcs, heflags, hsp, hss, -⟩ := h
    exact ⟨heip, hcs, heflags, hsp, hss, trivial⟩
  have hpushed := hframe.push (by omega) (by rw [hesp']; simpa using fits) u.eax
  have hsub : m.esp + 32 - 4 = m.esp + 28 := by
    rw [UInt32.sub_eq_iff_eq_add, UInt32.add_assoc]
    rfl
  rw [hsub] at hpushed
  simp only [arguments, WordsAt, UInt32.add_assoc, UInt32.reduceAdd] at h hpushed
  obtain ⟨-, hedi, hesi, hebp, hebx, hedx, hecx, heax, -⟩ := h
  obtain ⟨heax', heip, hcs, heflags, hsp, hss, -⟩ := hpushed
  simp [enterUserMode, run, exec, drop, word, set, loadSegment, push, iret, inUserMode,
    UInt32.add_assoc, hedi, hesi, hebp, hebx, hedx, hecx, heax, heax', heip, hcs, heflags, hsp,
    hss, hselector, hlow]

/-- The arguments of a thread that has not run yet stay when memory agrees on them. -/
theorem registersOf_frame {S : Set ℕ} {m m' : Image} {tcb : UInt32} (agree : Agree S m m')
    (fits : tcb.toNat + 112 ≤ 2 ^ 32) (hS : Set.Ico (tcb.toNat + 56) (tcb.toNat + 112) ⊆ S) :
    registersOf m' tcb = registersOf m tcb := by
  have hload : ∀ k : UInt32, 56 ≤ k.toNat → k.toNat ≤ 108 →
      load m' (tcb + k) = load m (tcb + k) := by
    intro k h1 h2
    have hk : (tcb + k).toNat = tcb.toNat + k.toNat := add_toNat (by omega)
    refine agree.load (by omega) fun x hx => hS ⟨?_, ?_⟩
    · have := hx.1
      omega
    · have := hx.2
      omega
  simp only [registersOf, hload 56 (by decide) (by decide), hload 60 (by decide) (by decide),
    hload 64 (by decide) (by decide), hload 72 (by decide) (by decide),
    hload 76 (by decide) (by decide), hload 80 (by decide) (by decide),
    hload 84 (by decide) (by decide), hload 92 (by decide) (by decide),
    hload 96 (by decide) (by decide), hload 100 (by decide) (by decide),
    hload 104 (by decide) (by decide), hload 108 (by decide) (by decide)]

/-- **`prepare_init_thread`** enters user mode with the registers of the control block. It writes
its own stack, and the state of the thread. -/
theorem prepareInitThread_spec (locals back : UInt32) {next : UInt32} {u : UserRegisters}
    (hnext : m.word 1 = next) (hu : registersOf m.memory next = u)
    (fits : next.toNat + 112 ≤ 2 ^ 32) (room : locals.toNat + 52 ≤ m.esp.toNat)
    (apart : Disjoint (Set.Ico next.toNat (next.toNat + 112))
      (Set.Ico (m.esp.toNat - locals.toNat - 52) m.esp.toNat)) :
    ∃ k, m.prepareInitThread locals back = some k ∧ k.iret = leaveWith (inUserMode u) ∧
      load k.memory (next + 12) = 0 ∧
      Agree (Set.Ico (m.esp.toNat - locals.toNat - 52) m.esp.toNat ∪
        Set.Ico (next.toNat + 12) (next.toNat + 16))ᶜ m.memory k.memory := by
  have hstate : (next + 12).toNat = next.toNat + 12 := add_toNat (by
    show next.toNat + 12 < 2 ^ 32
    omega)
  have hagree1 : Agree (Set.Ico (next.toNat + 12) (next.toNat + 16))ᶜ m.memory
      (storeWord m.memory (next + 12) 0) := by
    refine Agree.storeWord (by omega) (Set.disjoint_left.mpr fun x hx hx' => hx ?_)
    rw [hstate] at hx'
    exact hx'
  have hu' : registersOf (storeWord m.memory (next + 12) 0) next = u := by
    rw [← hu]
    refine registersOf_frame hagree1 fits fun x hx hx' => ?_
    have h1 := hx.1
    have h2 := hx'.2
    omega
  have hsp : (m.esp - locals).toNat = m.esp.toNat - locals.toNat := sub_toNat_of_le (by omega)
  have hlt := m.esp.toNat_lt
  have hpush : WordsAt (pushWords (storeWord m.memory (next + 12) 0) (m.esp - locals)
      ((arguments u).reverse ++ [back])) (m.esp - locals - 52) (back :: arguments u) := by
    have hnil : WordsAt (storeWord m.memory (next + 12) 0) (m.esp - locals) [] := trivial
    have h := hnil.pushWords ((arguments u).reverse ++ [back])
      (show 52 ≤ (m.esp - locals).toNat by omega) (m.esp - locals).toNat_lt.le
    rw [List.reverse_append, List.reverse_reverse, List.append_nil] at h
    exact h
  have hsp' : (m.esp - locals - 52).toNat = m.esp.toNat - locals.toNat - 52 := by
    rw [sub_toNat_of_le (by rw [hsp]; show 52 ≤ m.esp.toNat - locals.toNat; omega), hsp]
    rfl
  have hentry : m.prepareInitThread locals back = ({ m with
      esp := m.esp - locals - 52
      memory := pushWords (storeWord m.memory (next + 12) 0) (m.esp - locals)
        ((arguments u).reverse ++ [back]) } : Cpu).run enterUserMode := by
    have hlen : 4 * UInt32.ofNat ((arguments u).reverse ++ [back]).length = 52 := rfl
    rw [prepareInitThread]
    dsimp only
    rw [hnext, hu', pushAll_eq, hlen]
  obtain ⟨k, hrun, hiret, hmemory⟩ := run_enterUserMode (m := { m with
      esp := m.esp - locals - 52
      memory := pushWords (storeWord m.memory (next + 12) 0) (m.esp - locals)
        ((arguments u).reverse ++ [back]) }) (by dsimp only; omega) hpush
  have hagree2 := agree_pushWords (storeWord m.memory (next + 12) 0)
    ((arguments u).reverse ++ [back]) (show 52 ≤ (m.esp - locals).toNat by omega)
  have hword : (m.esp - locals - 52 + 28).toNat = m.esp.toNat - locals.toNat - 24 := by
    rw [add_toNat (by rw [hsp']; show _ + 28 < 2 ^ 32; omega), hsp']
    show m.esp.toNat - locals.toNat - 52 + 28 = _
    omega
  have hpushed : ((arguments u).reverse ++ [back]).length = 13 := rfl
  rw [hpushed, hsp] at hagree2
  -- behind the store of the state, only the stack is written
  have hstack : Agree (Set.Ico (m.esp.toNat - locals.toNat - 52) m.esp.toNat)ᶜ
      (storeWord m.memory (next + 12) 0) k.memory := by
    rw [hmemory]
    refine Agree.trans (hagree2.mono ?_) (Agree.storeWord (by rw [hword]; omega) ?_)
    · refine fun x hx hx' => hx ⟨?_, ?_⟩
      · have := hx'.1
        omega
      · have := hx'.2
        omega
    · refine Set.disjoint_left.mpr fun x hx hx' => hx ⟨?_, ?_⟩
      · have := hx'.1
        rw [hword] at this
        omega
      · have := hx'.2
        rw [hword] at this
        omega
  refine ⟨k, hentry.trans hrun, hiret, ?_, Agree.trans (hagree1.mono ?_) (hstack.mono ?_)⟩
  · rw [hstack.load (by omega) fun x hx hx' => Set.disjoint_left.mp apart ⟨?_, ?_⟩ hx',
      load_storeWord]
    · have := hx.1
      omega
    · have := hx.2
      omega
  · exact fun x hx hx' => hx (Or.inr hx')
  · exact fun x hx hx' => hx (Or.inl hx')

/-! ## The whole switch -/

/-- **A call of `do_switch`**: its arguments are on the stack, there is room for the registers, and
the control block is not in the way. -/
structure Calls (c : Cpu) (cur nxt st : UInt32) : Prop where
  /-- The registers have room. -/
  room : 52 ≤ c.esp.toNat
  /-- The arguments are in memory. -/
  fits : c.esp.toNat + 16 ≤ 2 ^ 32
  /-- The arguments. -/
  args : WordsAt c.memory (c.esp + 4) [cur, nxt, st]
  /-- The control block is in memory. -/
  inMemory : cur.toNat + 4 ≤ 2 ^ 32
  /-- It is somewhere else. -/
  apart : Disjoint (Set.Ico cur.toNat (cur.toNat + 4))
    (Set.Ico (c.esp.toNat - 52) (c.esp.toNat + 16))

/-- What `do_switch` writes: the registers, and the saved stack pointer. -/
def written (c : Cpu) (cur : UInt32) : Set ℕ :=
  Set.Ico (c.esp.toNat - 52) c.esp.toNat ∪ Set.Ico cur.toNat (cur.toNat + 4)

/-- **A thread that has called `do_switch`**: its registers are on its stack, and the pointer to
them in its control block. -/
structure Parked (m : Image) (tcb : UInt32) (c : Cpu) : Prop where
  /-- The saved stack pointer. -/
  pointer : load m tcb = c.esp - 52
  /-- The saved registers. -/
  registers : WordsAt m (c.esp - 52) c.saved

theorem esp_sub_toNat (room : 52 ≤ c.esp.toNat) : (c.esp - 52).toNat = c.esp.toNat - 52 :=
  sub_toNat_of_le room

/-- A thread stays parked when memory agrees on what it has left. -/
theorem Parked.frame {S : Set ℕ} {m' m'' : Image} {tcb : UInt32} (h : Parked m' tcb c)
    (agree : Agree S m' m'') (room : 52 ≤ c.esp.toNat) (htcb : tcb.toNat + 4 ≤ 2 ^ 32)
    (hS : Set.Ico tcb.toNat (tcb.toNat + 4) ⊆ S)
    (hS' : Set.Ico (c.esp.toNat - 52) c.esp.toNat ⊆ S) : Parked m'' tcb c := by
  have hsp := esp_sub_toNat room
  have hlt := c.esp.toNat_lt
  refine ⟨(agree.load htcb hS).trans h.pointer, h.registers.frame agree ?_ ?_⟩
  · rw [hsp]
    show c.esp.toNat - 52 + 52 ≤ 2 ^ 32
    omega
  · rw [hsp]
    show Set.Ico (c.esp.toNat - 52) (c.esp.toNat - 52 + 52) ⊆ S
    rw [Nat.sub_add_cancel room]
    exact hS'

/-- **Saving parks the thread.** -/
theorem Calls.save (h : Calls c cur nxt st) :
    ∃ m, c.run doSwitchSave = some m ∧ m.general .ecx = nxt ∧ m.general .edx = st ∧
      Parked m.memory cur c ∧ Agree (written c cur)ᶜ c.memory m.memory := by
  obtain ⟨m, hrun, -, hecx, hedx, hmemory⟩ := run_doSwitchSave h.room h.fits ⟨rfl, h.args⟩
  have hsp := esp_sub_toNat h.room
  have hlt := c.esp.toNat_lt
  have hword : WordsAt c.afterPushes.memory (c.esp - 52) c.saved := by
    have hnil : WordsAt c.memory c.esp [] := trivial
    have hfits : c.esp.toNat + 4 * ([] : List UInt32).length ≤ 2 ^ 32 := hlt.le
    have hall := wordsAt_afterPushes h.room hfits hnil
    rwa [List.append_nil] at hall
  have hstore : Agree (Set.Ico cur.toNat (cur.toNat + 4))ᶜ c.afterPushes.memory m.memory := by
    rw [hmemory]
    exact Agree.storeWord h.inMemory (Set.disjoint_left.mpr fun x hx hx' => hx hx')
  refine ⟨m, hrun, hecx, hedx, ⟨?_, hword.frame hstore ?_ ?_⟩, ?_⟩
  · rw [hmemory, load_storeWord]
  · rw [hsp]
    show c.esp.toNat - 52 + 52 ≤ 2 ^ 32
    omega
  · intro x hx hx'
    have h1 := hx.1
    have h2 : x < (c.esp - 52).toNat + 52 := hx.2
    rw [hsp, Nat.sub_add_cancel h.room] at h2
    rw [hsp] at h1
    exact Set.disjoint_left.mp h.apart hx' ⟨h1, lt_of_lt_of_le h2 (Nat.le_add_right _ _)⟩
  · refine Agree.trans ((agree_afterPushes h.room).mono ?_) (hstore.mono ?_)
    · exact fun x hx hx' => hx (Or.inl hx')
    · exact fun x hx hx' => hx (Or.inr hx')

/-- The comparison. -/
theorem run_doSwitchChange {k : Cpu} (h : k.general .ecx = nxt) (h' : k.general .edx = st) :
    k.run doSwitchChange = some { k with esp := load k.memory nxt, zero := st == threadInit } := by
  simp [doSwitchChange, run, exec, h, h']

/-- **`do_switch` returns to a thread that has called it**: its registers are as they were, and it
goes on behind its call. -/
theorem doSwitch_returns (locals back back' : UInt32) {d : Cpu} (h : Calls c cur nxt st)
    (hst : st ≠ threadInit) (sane : d.Sane) (room : 52 ≤ d.esp.toNat)
    (fits : d.esp.toNat + 4 ≤ 2 ^ 32) (hnxt : nxt.toNat + 4 ≤ 2 ^ 32)
    (parked : Parked c.memory nxt d) (frame : Set.Ico nxt.toNat (nxt.toNat + 4) ⊆ (written c cur)ᶜ)
    (frame' : Set.Ico (d.esp.toNat - 52) (d.esp.toNat + 4) ⊆ (written c cur)ᶜ) :
    ∃ m, doSwitch locals back back' c = some (.returns m) ∧ m.general = d.general ∧
      m.segment = d.segment ∧ m.esp = d.esp + 4 ∧ m.eip = load c.memory d.esp ∧
      Parked m.memory cur c ∧ Agree (written c cur)ᶜ c.memory m.memory := by
  obtain ⟨k, hrun, hecx, hedx, hparked, hagree⟩ := h.save
  have hd := parked.frame hagree room hnxt frame fun x hx =>
    frame' ⟨hx.1, lt_of_lt_of_le hx.2 (Nat.le_add_right _ _)⟩
  have hret : load k.memory d.esp = load c.memory d.esp :=
    hagree.load fits fun x hx => frame' ⟨by have := hx.1; omega, hx.2⟩
  have hwords : WordsAt k.memory (d.esp - 52) (d.saved ++ [load c.memory d.esp]) := by
    refine WordsAt.append_iff.mpr ⟨hd.registers, ?_, trivial⟩
    rw [show d.esp - 52 + 4 * UInt32.ofNat d.saved.length = d.esp from UInt32.sub_add_cancel _ _]
    exact hret
  refine ⟨{ k with
    general := d.general, segment := d.segment, esp := load k.memory nxt + 56
    eip := load c.memory d.esp, zero := st == threadInit }, ?_, rfl, rfl, ?_, rfl, hparked, hagree⟩
  · rw [doSwitch, run_append, hrun, Option.bind_some, run_doSwitchChange hecx hedx,
      Option.bind_some]
    dsimp only
    rw [if_neg (by simpa using hst), run_doSwitchResume sane (by rw [hd.pointer]; exact hwords)]
    rfl
  · dsimp only
    rw [hd.pointer, UInt32.sub_eq_add_neg, UInt32.add_assoc]
    rfl

/-- **`do_switch` enters user mode** with the registers in the control block of a thread that has
not run yet. Besides what it saves, it writes the stack of this thread and its state. -/
theorem doSwitch_enters (locals back back' : UInt32) {sp : UInt32} {u : UserRegisters}
    (h : Calls c cur nxt threadInit) (hsp : load c.memory nxt = sp)
    (hu : registersOf c.memory nxt = u) (fits : nxt.toNat + 112 ≤ 2 ^ 32)
    (room : locals.toNat + 60 ≤ sp.toNat)
    (frame : Set.Ico nxt.toNat (nxt.toNat + 112) ⊆ (written c cur)ᶜ)
    (apart : Disjoint (Set.Ico nxt.toNat (nxt.toNat + 112))
      (Set.Ico (sp.toNat - locals.toNat - 60) sp.toNat)) :
    ∃ m, doSwitch locals back back' c = some (.enters m) ∧
      m.iret = leaveWith (inUserMode u) ∧ load m.memory (nxt + 12) = 0 ∧
      ∃ m', Parked m' cur c ∧ Agree (written c cur)ᶜ c.memory m' ∧
        Agree (Set.Ico (sp.toNat - locals.toNat - 60) sp.toNat ∪
          Set.Ico (nxt.toNat + 12) (nxt.toNat + 16))ᶜ m' m.memory := by
  obtain ⟨k, hrun, hecx, hedx, hparked, hagree⟩ := h.save
  have hlt := sp.toNat_lt
  have hptr : load k.memory nxt = sp := by
    rw [← hsp]
    exact hagree.load (by omega) fun x hx => frame ⟨hx.1, by have := hx.2; omega⟩
  have hu1 : registersOf k.memory nxt = u := by
    rw [← hu]
    exact registersOf_frame hagree fits fun x hx => frame ⟨by have := hx.1; omega, hx.2⟩
  -- the call of `prepare_init_thread`
  let e : Cpu := { k with esp := sp, zero := true }
  have hcall : ((e.push nxt).push back) = { e with
      esp := sp - 8, memory := pushWords k.memory sp [nxt, back] } := by
    have h8 : sp - 4 - 4 = sp - 8 := by
      rw [UInt32.sub_eq_iff_eq_add, UInt32.sub_eq_iff_eq_add, UInt32.add_assoc,
        show (4 : UInt32) + 4 = 8 from rfl, UInt32.sub_add_cancel]
    simp [push, pushWords, e, h8]
  have hnil : WordsAt k.memory sp [] := trivial
  have hwords := hnil.pushWords [nxt, back] (show 8 ≤ sp.toNat by omega) hlt.le
  have hpush := agree_pushWords k.memory [nxt, back] (show 8 ≤ sp.toNat by omega)
  have h8 : (sp - 8).toNat = sp.toNat - 8 := sub_toNat_of_le (show 8 ≤ sp.toNat by omega)
  let f : Cpu := { e with esp := sp - 8, memory := pushWords k.memory sp [nxt, back] }
  have hu2 : registersOf f.memory nxt = u := by
    rw [← hu1]
    refine registersOf_frame hpush fits fun x hx hx' => ?_
    have h1 : sp.toNat - 8 ≤ x := hx'.1
    exact Set.disjoint_left.mp apart ⟨by have := hx.1; omega, hx.2⟩ ⟨by omega, hx'.2⟩
  have hnext : f.word 1 = nxt := by
    have hstack : WordsAt f.memory f.esp [back, nxt] := hwords
    exact word_of_wordsAt hstack (show 1 < 2 by decide)
  have hroom : locals.toNat + 52 ≤ f.esp.toNat := by
    show locals.toNat + 52 ≤ (sp - 8).toNat
    omega
  have hbelow : Set.Ico (f.esp.toNat - locals.toNat - 52) f.esp.toNat ⊆
      Set.Ico (sp.toNat - locals.toNat - 60) sp.toNat := by
    rintro x ⟨h1, h2⟩
    have h1' : (sp - 8).toNat - locals.toNat - 52 ≤ x := h1
    have h2' : x < (sp - 8).toNat := h2
    exact ⟨by omega, by omega⟩
  obtain ⟨m, hprepare, hiret, hstate, hlast⟩ :=
    prepareInitThread_spec locals back' hnext hu2 fits hroom (apart.mono_right hbelow)
  refine ⟨m, ?_, hiret, hstate, k.memory, hparked, hagree, ?_⟩
  · rw [doSwitch, run_append, hrun, Option.bind_some, run_doSwitchChange hecx hedx,
      Option.bind_some, hptr]
    dsimp only
    rw [if_pos (beq_self_eq_true _), hecx]
    show (((e.push nxt).push back).prepareInitThread locals back').map Switched.enters = _
    rw [hcall, hprepare]
    rfl
  · refine Agree.trans (hpush.mono ?_) (hlast.mono ?_)
    · refine fun x hx hx' => hx (Or.inl ⟨?_, hx'.2⟩)
      have h1 : sp.toNat - 8 ≤ x := hx'.1
      omega
    · refine fun x hx hx' => hx ?_
      rcases hx' with hx' | hx'
      · refine Or.inl ⟨?_, ?_⟩
        · have h1 : (sp - 8).toNat - locals.toNat - 52 ≤ x := hx'.1
          omega
        · have h2 : x < (sp - 8).toNat := hx'.2
          omega
      · exact Or.inr hx'

end Cpu

end Pebbles.Processor
