import Pebbles.Process.StackSwitch
import Pebbles.Library.Runs

/-! # Threads on one processor

All threads share the processor. A thread that calls `context_switch` leaves its registers on its
own kernel stack, other threads run, and when one of them switches back, it goes on as if nothing
had happened; a new thread starts in user mode. This holds after any number of switches, as long as
a thread at work leaves the stacks and the control blocks of the others alone. -/

namespace Pebbles.Processor

open ByteStores
open Exception (leaveWith)
open Memory (UserRegisters)
open Transition

/-! ## The code -/

/-- What the compiler and the linker choose. -/
structure Code where
  /-- The address behind the call of `do_switch`. -/
  contextSwitch : UInt32
  /-- The address behind the call of `prepare_init_thread`. -/
  doSwitch : UInt32
  /-- The address behind the call of `enter_user_mode`. -/
  prepareInitThread : UInt32
  /-- The bytes that `prepare_init_thread` needs for itself. -/
  locals : UInt32

/-- The processor, and what belongs to the running thread. -/
structure Kernel where
  /-- The processor. -/
  cpu : Cpu
  /-- The page directory. -/
  cr3 : UInt32
  /-- The stack for the next entry into the kernel. -/
  esp0 : UInt32
  /-- `current_thread`. -/
  currentThread : UInt32

/-- `do_switch(current, next, state)` is called. -/
def Cpu.callDoSwitch (code : Code) (c : Cpu) (current next state : UInt32) : Cpu :=
  c.pushAll [state, next, current, code.contextSwitch]

/-- **`current_thread = context_switch(current_thread, next)`.** When `do_switch` returns, `current`
is a variable of the thread that goes on. -/
def contextSwitch (code : Code) (k : Kernel) (next : UInt32) : Option Kernel :=
  let m := k.cpu.memory
  let k := { k with
    cr3 := load m (load m (next + 4) + 56)
    esp0 := load m (next + 24) + load m (next + 28) }
  match doSwitch code.locals code.doSwitch code.prepareInitThread
      (k.cpu.callDoSwitch code k.currentThread next (load m (next + 12))) with
  | some (.returns c) => some { k with cpu := c, currentThread := c.word 0 }
  | some (.enters c) => some { k with cpu := c, currentThread := next }
  | none => none

/-! ## Threads -/

/-- **A thread**: its control block and its kernel stack. -/
structure Thread where
  /-- The control block. -/
  tcb : UInt32
  /-- The stack. -/
  stackBase : UInt32
  /-- Its size. -/
  stackSize : UInt32
  /-- The control block, up to the registers, is in memory. -/
  control : tcb.toNat + 112 ≤ 2 ^ 32
  /-- The stack is in memory. -/
  inMemory : stackBase.toNat + stackSize.toNat < 2 ^ 32
  /-- They do not overlap. -/
  apart : Disjoint (Set.Ico tcb.toNat (tcb.toNat + 112))
    (Set.Ico stackBase.toNat (stackBase.toNat + stackSize.toNat))

namespace Thread

/-- The end of the stack. -/
def top (t : Thread) : UInt32 := t.stackBase + t.stackSize

/-- The bytes of a thread. -/
def bytes (t : Thread) : Set ℕ :=
  Set.Ico t.tcb.toNat (t.tcb.toNat + 112) ∪ Set.Ico t.stackBase.toNat t.top.toNat

theorem top_toNat (t : Thread) : t.top.toNat = t.stackBase.toNat + t.stackSize.toNat :=
  add_toNat t.inMemory

/-- A word of the control block. -/
theorem field_toNat (t : Thread) {k : UInt32} (hk : k.toNat + 4 ≤ 112) :
    (t.tcb + k).toNat = t.tcb.toNat + k.toNat := by
  have := t.control
  exact add_toNat (by omega)

/-- The words `stack_base` and `stack_size` of the control block. -/
structure Sized (m : Image) (t : Thread) : Prop where
  /-- `stack_base`. -/
  base : load m (t.tcb + 24) = t.stackBase
  /-- `stack_size`. -/
  size : load m (t.tcb + 28) = t.stackSize

end Thread

/-- What a thread comes back to. -/
inductive Rest where
  /-- It has called `context_switch`, with these registers and this stack. -/
  | called (c : Cpu)
  /-- It has not run yet. -/
  | fresh (u : UserRegisters)

/-- **The system**: the kernel, and what every thread that does not run has left. -/
structure System where
  /-- The kernel. -/
  kernel : Kernel
  /-- The running thread. -/
  current : Thread
  /-- The other threads. -/
  parked : List (Thread × Rest)

/-- Memory. -/
abbrev System.memory (s : System) : Image := s.kernel.cpu.memory

/-- **What others leave alone**: the saved stack pointer and the stack above it, or the registers of
a thread that has not run yet. Its state changes, but not to `THREAD_INIT`. -/
structure Untouched (t : Thread) (m m' : Image) : Prop where
  /-- The saved stack pointer. -/
  pointer : Agree (Set.Ico t.tcb.toNat (t.tcb.toNat + 4)) m m'
  /-- The state. -/
  state : load m' (t.tcb + 12) = threadInit ↔ load m (t.tcb + 12) = threadInit
  /-- The place and the size of the stack. -/
  sizes : Agree (Set.Ico (t.tcb.toNat + 24) (t.tcb.toNat + 32)) m m'
  /-- The stack. -/
  stack : load m (t.tcb + 12) ≠ threadInit →
    Agree (Set.Ico (load m t.tcb).toNat t.top.toNat) m m'
  /-- The registers. -/
  registers : load m (t.tcb + 12) = threadInit →
    Agree (Set.Ico (t.tcb.toNat + 56) (t.tcb.toNat + 112)) m m'

/-- **The kernel at work**: the running thread goes from memory `m` to memory `m'`. -/
structure Works (s : System) (m' : Image) : Prop where
  /-- The other threads are left alone. -/
  others : ∀ p ∈ s.parked, Untouched p.1 s.memory m'
  /-- The running thread does not go back to `THREAD_INIT`. -/
  started : load m' (s.current.tcb + 12) ≠ threadInit
  /-- Its stack stays where it is. -/
  sizes : Agree (Set.Ico (s.current.tcb.toNat + 24) (s.current.tcb.toNat + 32)) s.memory m'

/-- **A new thread** in memory. -/
structure Starts (code : Code) (m : Image) (t : Thread) (u : UserRegisters) : Prop where
  /-- Its stack is empty. -/
  pointer : load m t.tcb = t.top
  /-- Its state. -/
  state : load m (t.tcb + 12) = threadInit
  /-- The place and the size of its stack. -/
  sized : t.Sized m
  /-- Its registers. -/
  registers : registersOf m t.tcb = u
  /-- There is room for `prepare_init_thread`. -/
  room : code.locals.toNat + 60 ≤ t.stackSize.toNat

/-- What the running thread does. -/
inductive Act where
  /-- Anything else. -/
  | work
  /-- A thread is created. -/
  | create (t : Thread)
  /-- A thread that will not run again is freed. -/
  | reap (t : Thread)
  /-- `context_switch`. -/
  | switch (t : Thread)

/-- The stack pointer is on the stack of a thread, and there is room for a call of `do_switch`. -/
def Thread.HasRoom (t : Thread) (c : Cpu) : Prop :=
  t.stackBase.toNat + 68 ≤ c.esp.toNat ∧ c.esp.toNat ≤ t.top.toNat

/-- **The steps of the kernel.** -/
inductive Step (code : Code) (s : System) : Act → System → Prop
  | work {c : Cpu} (works : Works s c.memory) :
      Step code s .work { s with kernel := { s.kernel with cpu := c } }
  | create {c : Cpu} {t : Thread} {u : UserRegisters} (works : Works s c.memory)
      (apart : ∀ t' ∈ s.current :: s.parked.map Prod.fst, Disjoint t.bytes t'.bytes)
      (starts : Starts code c.memory t u) :
      Step code s (.create t)
        { s with kernel := { s.kernel with cpu := c }, parked := (t, .fresh u) :: s.parked }
  | reap {pre post : List (Thread × Rest)} {t : Thread} {r : Rest}
      (parked : s.parked = pre ++ (t, r) :: post) :
      Step code s (.reap t) { s with parked := pre ++ post }
  | switch {pre post : List (Thread × Rest)} {t : Thread} {r : Rest} {k : Kernel}
      (parked : s.parked = pre ++ (t, r) :: post) (sane : s.kernel.cpu.Sane)
      (room : s.current.HasRoom s.kernel.cpu)
      (call : contextSwitch code s.kernel t.tcb = some k) :
      Step code s (.switch t)
        { kernel := k, current := t
          parked := (s.current, .called s.kernel.cpu) :: (pre ++ post) }

/-! ## What every thread has left -/

/-- **A thread that has called `context_switch`** in memory. -/
structure Waits (code : Code) (m : Image) (t : Thread) (c : Cpu) : Prop where
  /-- It has started. -/
  state : load m (t.tcb + 12) ≠ threadInit
  /-- The place and the size of its stack. -/
  sized : t.Sized m
  /-- What its segment registers held. -/
  sane : c.Sane
  /-- Its stack pointer. -/
  room : t.HasRoom c
  /-- Its registers and its stack. -/
  saved : ∃ next state, Cpu.Parked m t.tcb (c.callDoSwitch code t.tcb next state) ∧
    Agree (Set.Ico (c.esp.toNat - 16) t.top.toNat) (c.callDoSwitch code t.tcb next state).memory m

/-- What a thread has left in memory. -/
def Holds (code : Code) (m : Image) (t : Thread) : Rest → Prop
  | .called c => Waits code m t c
  | .fresh u => Starts code m t u

/-- **The invariant.** -/
structure Good (code : Code) (s : System) : Prop where
  /-- `current_thread`. -/
  running : s.kernel.currentThread = s.current.tcb
  /-- The stack for the next entry into the kernel. -/
  esp0 : s.kernel.esp0 = s.current.top
  /-- The running thread has started. -/
  started : load s.memory (s.current.tcb + 12) ≠ threadInit
  /-- The place and the size of its stack. -/
  sized : s.current.Sized s.memory
  /-- No thread overlaps another one. -/
  apart : (s.current :: s.parked.map Prod.fst).Pairwise fun t t' => Disjoint t.bytes t'.bytes
  /-- What the others have left. -/
  holds : ∀ p ∈ s.parked, Holds code s.memory p.1 p.2

/-- **How a thread goes on.** -/
def GoesOn (code : Code) (t : Thread) (k : Kernel) : Rest → Prop
  | .called c => k.cpu.general = c.general ∧ k.cpu.segment = c.segment ∧
      k.cpu.esp = c.esp - 12 ∧ k.cpu.eip = code.contextSwitch ∧
      Agree (Set.Ico c.esp.toNat t.top.toNat) c.memory k.cpu.memory
  | .fresh u => k.cpu.iret = leaveWith (Cpu.inUserMode u)

/-! ## A call of `do_switch` -/

section Call

variable {c : Cpu} {t : Thread} (code : Code) (next state : UInt32)

theorem callDoSwitch_eq : c.callDoSwitch code t.tcb next state = { c with
    esp := c.esp - 16
    memory := pushWords c.memory c.esp [state, next, t.tcb, code.contextSwitch] } :=
  Cpu.pushAll_eq _ _

theorem Thread.HasRoom.esp_toNat (room : t.HasRoom c) :
    (c.callDoSwitch code t.tcb next state).esp.toNat = c.esp.toNat - 16 := by
  rw [callDoSwitch_eq]
  exact sub_toNat_of_le (show 16 ≤ c.esp.toNat by have := room.1; omega)

/-- The call writes the stack of the thread. -/
theorem Thread.HasRoom.agree_call (room : t.HasRoom c) :
    Agree (Set.Ico (c.esp.toNat - 16) c.esp.toNat)ᶜ c.memory
      (c.callDoSwitch code t.tcb next state).memory := by
  rw [callDoSwitch_eq]
  exact agree_pushWords c.memory [state, next, t.tcb, code.contextSwitch]
    (show 16 ≤ c.esp.toNat by have := room.1; omega)

/-- The arguments of the call. -/
theorem Thread.HasRoom.wordsAt_call (room : t.HasRoom c) :
    WordsAt (c.callDoSwitch code t.tcb next state).memory
      (c.callDoSwitch code t.tcb next state).esp [code.contextSwitch, t.tcb, next, state] := by
  have hnil : WordsAt c.memory c.esp [] := trivial
  rw [callDoSwitch_eq]
  exact hnil.pushWords [state, next, t.tcb, code.contextSwitch]
    (show 16 ≤ c.esp.toNat by have := room.1; omega) c.esp.toNat_lt.le

theorem Thread.HasRoom.calls (room : t.HasRoom c) :
    (c.callDoSwitch code t.tcb next state).Calls t.tcb next state := by
  obtain ⟨hlow, hhigh⟩ := id room
  have hesp := room.esp_toNat code next state
  have hlt := c.esp.toNat_lt
  have hcontrol := t.control
  have htop := t.top_toNat
  have hword : Set.Ico t.tcb.toNat (t.tcb.toNat + 4) ⊆ Set.Ico t.tcb.toNat (t.tcb.toNat + 112) :=
    Set.Ico_subset_Ico_right (by omega)
  refine ⟨by omega, by omega, (room.wordsAt_call code next state).2, by omega,
    Set.disjoint_of_subset hword ?_ t.apart⟩
  exact Set.Ico_subset_Ico (by omega) (by omega)

/-- What `do_switch` writes belongs to the thread that calls it. -/
theorem Thread.HasRoom.written_subset (room : t.HasRoom c) :
    Cpu.written (c.callDoSwitch code t.tcb next state) t.tcb ⊆ t.bytes := by
  obtain ⟨hlow, hhigh⟩ := id room
  have hesp := room.esp_toNat code next state
  rintro x (⟨h1, h2⟩ | ⟨h1, h2⟩)
  · exact Or.inr ⟨by omega, by omega⟩
  · exact Or.inl ⟨h1, by omega⟩

/-- The call of `do_switch` writes nothing but bytes of the thread. -/
theorem Thread.HasRoom.agree_call_bytes (room : t.HasRoom c) :
    Agree t.bytesᶜ c.memory (c.callDoSwitch code t.tcb next state).memory := by
  refine (room.agree_call code next state).mono
    (Set.compl_subset_compl.mpr fun x hx => Or.inr ⟨?_, ?_⟩)
  · have h1 := hx.1
    have := room.1
    omega
  · have h2 := hx.2
    have := room.2
    omega

end Call

section Result

variable {code : Code} {k : Kernel} {next current state : UInt32} {c : Cpu}

/-- `do_switch` has returned, with the variables of the thread that goes on. -/
theorem contextSwitch_of_returns (running : k.currentThread = current)
    (hstate : load k.cpu.memory (next + 12) = state)
    (h : doSwitch code.locals code.doSwitch code.prepareInitThread
      (k.cpu.callDoSwitch code current next state) = some (.returns c)) :
    contextSwitch code k next = some {
      cpu := c
      cr3 := load k.cpu.memory (load k.cpu.memory (next + 4) + 56)
      esp0 := load k.cpu.memory (next + 24) + load k.cpu.memory (next + 28)
      currentThread := c.word 0 } := by
  subst running hstate
  unfold contextSwitch
  simp only [h]

/-- `do_switch` has called `prepare_init_thread`. -/
theorem contextSwitch_of_enters (running : k.currentThread = current)
    (hstate : load k.cpu.memory (next + 12) = state)
    (h : doSwitch code.locals code.doSwitch code.prepareInitThread
      (k.cpu.callDoSwitch code current next state) = some (.enters c)) :
    contextSwitch code k next = some {
      cpu := c
      cr3 := load k.cpu.memory (load k.cpu.memory (next + 4) + 56)
      esp0 := load k.cpu.memory (next + 24) + load k.cpu.memory (next + 28)
      currentThread := next } := by
  subst running hstate
  unfold contextSwitch
  simp only [h]

end Result

/-! ## What is left alone -/

section Frame

variable {code : Code} {m m' : Image} {t : Thread} {r : Rest} {c : Cpu} {u : UserRegisters}

theorem Thread.Sized.frame (h : t.Sized m)
    (agree : Agree (Set.Ico (t.tcb.toNat + 24) (t.tcb.toNat + 32)) m m') : t.Sized m' := by
  have h24 : (t.tcb + 24).toNat = t.tcb.toNat + 24 := t.field_toNat (by decide)
  have h28 : (t.tcb + 28).toNat = t.tcb.toNat + 28 := t.field_toNat (by decide)
  have := t.control
  refine ⟨?_, ?_⟩
  · rw [agree.load (by omega) fun x hx => ⟨by have := hx.1; omega, by have := hx.2; omega⟩, h.base]
  · rw [agree.load (by omega) fun x hx => ⟨by have := hx.1; omega, by have := hx.2; omega⟩, h.size]

/-- The saved stack pointer. -/
theorem Waits.pointer_toNat (h : Waits code m t c) : (load m t.tcb).toNat = c.esp.toNat - 68 := by
  obtain ⟨next, state, parked, -⟩ := h.saved
  have hesp := h.room.esp_toNat code next state
  have hlow := h.room.1
  rw [parked.pointer, Cpu.esp_sub_toNat (by omega)]
  omega

theorem Waits.untouched (h : Waits code m t c) (ut : Untouched t m m') : Waits code m' t c := by
  obtain ⟨next, state, parked, agree⟩ := h.saved
  have hesp := h.room.esp_toNat code next state
  have hstack := ut.stack h.state
  have hcontrol := t.control
  rw [h.pointer_toNat] at hstack
  obtain ⟨hlow, hhigh⟩ := id h.room
  refine ⟨fun hinit => h.state (ut.state.mp hinit), h.sized.frame ut.sizes, h.sane, h.room, next,
    state, ?_, agree.trans (hstack.mono fun x hx => ⟨by have := hx.1; omega, hx.2⟩)⟩
  refine parked.frame (ut.pointer.union hstack) (by omega) (by omega) (fun x hx => Or.inl hx)
    fun x hx => Or.inr ⟨?_, ?_⟩
  · have := hx.1
    omega
  · have := hx.2
    omega

theorem Starts.untouched (h : Starts code m t u) (ut : Untouched t m m') : Starts code m' t u := by
  have hcontrol := t.control
  refine ⟨?_, ut.state.mpr h.state, h.sized.frame ut.sizes, ?_, h.room⟩
  · rw [ut.pointer.load (by omega) subset_rfl, h.pointer]
  · rw [Cpu.registersOf_frame (ut.registers h.state) t.control subset_rfl, h.registers]

/-- **A thread that is left alone keeps what it has left.** -/
theorem Holds.untouched (h : Holds code m t r) (ut : Untouched t m m') : Holds code m' t r := by
  cases r with
  | called c => exact Waits.untouched h ut
  | fresh u => exact Starts.untouched h ut

/-- It is left alone when nothing of it changes. -/
theorem Holds.untouched_of_agree (h : Holds code m t r) (agree : Agree t.bytes m m') :
    Untouched t m m' := by
  have hcontrol := t.control
  have h12 : (t.tcb + 12).toNat = t.tcb.toNat + 12 := t.field_toNat (by decide)
  refine ⟨agree.mono fun x hx => Or.inl ⟨hx.1, by have := hx.2; omega⟩, ?_,
    agree.mono fun x hx => Or.inl ⟨by have := hx.1; omega, by have := hx.2; omega⟩, ?_,
    fun _ => agree.mono fun x hx => Or.inl ⟨by have := hx.1; omega, hx.2⟩⟩
  · rw [agree.load (by omega) fun x hx => Or.inl ⟨by have := hx.1; omega, by have := hx.2; omega⟩]
  · intro hstate
    refine agree.mono fun x hx => Or.inr ⟨?_, hx.2⟩
    cases r with
    | called c =>
        have h1 := hx.1
        have h2 : t.stackBase.toNat + 68 ≤ c.esp.toNat := (Waits.room h).1
        rw [Waits.pointer_toNat h] at h1
        omega
    | fresh u => exact absurd (Starts.state h) hstate

theorem Holds.frame (h : Holds code m t r) (agree : Agree t.bytes m m') : Holds code m' t r :=
  h.untouched (h.untouched_of_agree agree)

end Frame

/-! ## One switch -/

section Switch

variable {code : Code} {m : Image} {t t' : Thread} {c d : Cpu} {k : Kernel} {u : UserRegisters}
  {next state : UInt32}

/-- **The thread that calls `do_switch` leaves everything it has.** -/
theorem Thread.HasRoom.saves (room : t.HasRoom c) (sane : c.Sane)
    (started : load c.memory (t.tcb + 12) ≠ threadInit) (sized : t.Sized c.memory)
    (parked : Cpu.Parked m t.tcb (c.callDoSwitch code t.tcb next state))
    (agree : Agree (Cpu.written (c.callDoSwitch code t.tcb next state) t.tcb)ᶜ
      (c.callDoSwitch code t.tcb next state).memory m) :
    Waits code m t c ∧ Agree t.bytesᶜ c.memory m := by
  obtain ⟨hlow, hhigh⟩ := id room
  have hesp := room.esp_toNat code next state
  have htop := t.top_toNat
  have hcontrol := t.control
  have h12 : (t.tcb + 12).toNat = t.tcb.toNat + 12 := t.field_toNat (by decide)
  -- the control block behind its first word
  have hblock : Agree (Set.Ico (t.tcb.toNat + 4) (t.tcb.toNat + 112)) c.memory m := by
    have hout : ∀ x ∈ Set.Ico (t.tcb.toNat + 4) (t.tcb.toNat + 112),
        x ∉ Set.Ico t.stackBase.toNat t.top.toNat := fun x hx hx' =>
      Set.disjoint_left.mp t.apart ⟨by have := hx.1; omega, hx.2⟩ (by rwa [htop] at hx')
    refine ((room.agree_call code next state).mono fun x hx hx' => hout x hx ⟨?_, ?_⟩).trans
      (agree.mono fun x hx hx' => ?_)
    · have := hx'.1
      omega
    · have := hx'.2
      omega
    · rcases hx' with ⟨h1, h2⟩ | ⟨-, h2⟩
      · exact hout x hx ⟨by omega, by omega⟩
      · have := hx.1
        omega
  refine ⟨⟨?_, sized.frame (hblock.mono (Set.Ico_subset_Ico (by omega) (by omega))), sane, room,
    next, state, parked, agree.mono ?_⟩, (room.agree_call_bytes code next state).trans
      (agree.mono ?_)⟩
  · rwa [hblock.load (by omega) (Set.Ico_subset_Ico (by omega) (by omega))]
  · rintro x ⟨h1, h2⟩ (⟨-, h3⟩ | ⟨h3, h4⟩)
    · omega
    · exact Set.disjoint_left.mp t.apart ⟨h3, by omega⟩ ⟨by omega, by omega⟩
  · exact Set.compl_subset_compl.mpr (room.written_subset code next state)

/-- **A switch back to a thread that has called `context_switch`.** -/
theorem contextSwitch_returns (running : k.currentThread = t.tcb) (room : t.HasRoom k.cpu)
    (sane : k.cpu.Sane) (started : load k.cpu.memory (t.tcb + 12) ≠ threadInit)
    (sized : t.Sized k.cpu.memory) (apart : Disjoint t.bytes t'.bytes)
    (h : Waits code k.cpu.memory t' d) :
    ∃ k', contextSwitch code k t'.tcb = some k' ∧ k'.esp0 = t'.top ∧ k'.currentThread = t'.tcb ∧
      GoesOn code t' k' (.called d) ∧ Waits code k'.cpu.memory t k.cpu ∧
      Agree t.bytesᶜ k.cpu.memory k'.cpu.memory := by
  have hother : t'.bytes ⊆ t.bytesᶜ := fun x hx hx' => Set.disjoint_left.mp apart hx' hx
  have hstate := h.state
  generalize hst : load k.cpu.memory (t'.tcb + 12) = state at hstate
  have hcall := room.agree_call_bytes code t'.tcb state
  have hd : Waits code (k.cpu.callDoSwitch code t.tcb t'.tcb state).memory t' d :=
    Holds.frame (r := .called d) h (hcall.mono hother)
  obtain ⟨next', state', hparked, hagree⟩ := hd.saved
  obtain ⟨hlow, hhigh⟩ := id hd.room
  have hesp := hd.room.esp_toNat code next' state'
  have htop := t'.top_toNat
  have hcontrol := t'.control
  have hinMemory := t'.inMemory
  have hsub := hother.trans (Set.compl_subset_compl.mpr (room.written_subset code t'.tcb state))
  obtain ⟨m, hswitch, hgeneral, hsegment, hsp, heip, hparked', hwritten⟩ :=
    Cpu.doSwitch_returns code.locals code.doSwitch code.prepareInitThread
      (room.calls code t'.tcb state) hstate (d := d.callDoSwitch code t'.tcb next' state')
      (by rw [callDoSwitch_eq]; exact hd.sane) (by omega) (by omega) (by omega) hparked
      (fun x hx => hsub (Or.inl ⟨hx.1, by have := hx.2; omega⟩))
      (fun x hx => hsub (Or.inr ⟨by have := hx.1; omega, by have := hx.2; omega⟩))
  obtain ⟨hwaits, hrest⟩ := room.saves sane started sized hparked' hwritten
  -- the stack of `t'` is as it was at its call
  have hstack : Agree (Set.Ico (d.esp.toNat - 16) t'.top.toNat)
      (d.callDoSwitch code t'.tcb next' state').memory m.memory :=
    hagree.trans (hwritten.mono fun x hx => hsub (Or.inr ⟨by have := hx.1; omega, hx.2⟩))
  obtain ⟨hret, hcur, -⟩ := hd.room.wordsAt_call code next' state'
  have hesp4 : ((d.callDoSwitch code t'.tcb next' state').esp + 4).toNat = d.esp.toNat - 12 := by
    rw [add_four_toNat (by omega), hesp]
    omega
  refine ⟨_, contextSwitch_of_returns running hst hswitch, ?_, ?_, ⟨?_, ?_, ?_, ?_, ?_⟩, hwaits,
    hrest⟩
  · dsimp only
    rw [h.sized.base, h.sized.size, Thread.top]
  · have hword : m.word 0 = load m.memory (m.esp + 4 * 0) := rfl
    rw [hword, hsp, UInt32.mul_zero, UInt32.add_zero]
    exact (hstack.load (by omega) (Set.Ico_subset_Ico (by omega) (by omega))).trans hcur
  · exact hgeneral.trans (by rw [callDoSwitch_eq])
  · exact hsegment.trans (by rw [callDoSwitch_eq])
  · refine hsp.trans ?_
    rw [callDoSwitch_eq]
    dsimp only
    rw [UInt32.sub_eq_add_neg, UInt32.sub_eq_add_neg, UInt32.add_assoc]
    rfl
  · exact heip.trans ((hagree.load (by omega)
      (Set.Ico_subset_Ico (by omega) (by omega))).trans hret)
  · refine ((hd.room.agree_call code next' state').mono fun x hx hx' => ?_).trans
      (hstack.mono (Set.Ico_subset_Ico_left (by omega)))
    have h1 := hx.1
    have h2 := hx'.2
    omega

/-- **A switch to a thread that has not run yet.** -/
theorem contextSwitch_enters (running : k.currentThread = t.tcb) (room : t.HasRoom k.cpu)
    (sane : k.cpu.Sane) (started : load k.cpu.memory (t.tcb + 12) ≠ threadInit)
    (sized : t.Sized k.cpu.memory) (apart : Disjoint t.bytes t'.bytes)
    (h : Starts code k.cpu.memory t' u) :
    ∃ k', contextSwitch code k t'.tcb = some k' ∧ k'.esp0 = t'.top ∧ k'.currentThread = t'.tcb ∧
      GoesOn code t' k' (.fresh u) ∧ Waits code k'.cpu.memory t k.cpu ∧
      load k'.cpu.memory (t'.tcb + 12) ≠ threadInit ∧ t'.Sized k'.cpu.memory ∧
      Agree (t.bytes ∪ t'.bytes)ᶜ k.cpu.memory k'.cpu.memory := by
  have hother : t'.bytes ⊆ t.bytesᶜ := fun x hx hx' => Set.disjoint_left.mp apart hx' hx
  have hcall := room.agree_call_bytes code t'.tcb threadInit
  have hd : Starts code (k.cpu.callDoSwitch code t.tcb t'.tcb threadInit).memory t' u :=
    Holds.frame (r := .fresh u) h (hcall.mono hother)
  have htop := t'.top_toNat
  have hcontrol := t'.control
  have hsize := h.room
  have hbytes : Set.Ico t'.tcb.toNat (t'.tcb.toNat + 112) ⊆ t'.bytes := Set.subset_union_left
  have hstack : Set.Ico (t'.top.toNat - code.locals.toNat - 60) t'.top.toNat ⊆
      Set.Ico t'.stackBase.toNat (t'.stackBase.toNat + t'.stackSize.toNat) :=
    Set.Ico_subset_Ico (by omega) (by omega)
  obtain ⟨m, hswitch, hiret, hstate, m', hparked, hwritten, hentered⟩ :=
    Cpu.doSwitch_enters code.locals code.doSwitch code.prepareInitThread
      (room.calls code t'.tcb threadInit) hd.pointer hd.registers t'.control (by omega)
      (hbytes.trans (hother.trans (Set.compl_subset_compl.mpr
        (room.written_subset code t'.tcb threadInit))))
      (t'.apart.mono_right hstack)
  obtain ⟨hwaits, hrest⟩ := room.saves sane started sized hparked hwritten
  -- `prepare_init_thread` writes only bytes of its own thread
  have hown : Agree t'.bytesᶜ m' m.memory := by
    refine hentered.mono (Set.compl_subset_compl.mpr ?_)
    rintro x (hx | ⟨h1, h2⟩)
    · exact Or.inr ⟨(hstack hx).1, hx.2⟩
    · exact Or.inl ⟨by omega, by omega⟩
  have hsizes : Agree (Set.Ico (t'.tcb.toNat + 24) (t'.tcb.toNat + 32)) k.cpu.memory m.memory := by
    refine (hrest.mono fun x hx => hother (Or.inl ⟨?_, ?_⟩)).trans
      (hentered.mono fun x hx hx' => ?_)
    · have := hx.1
      omega
    · have := hx.2
      omega
    · obtain ⟨h1, h2⟩ := hx
      rcases hx' with hx' | ⟨-, h3⟩
      · exact Set.disjoint_left.mp t'.apart ⟨by omega, by omega⟩ (hstack hx')
      · omega
  refine ⟨_, contextSwitch_of_enters running h.state hswitch, ?_, rfl, hiret,
    Holds.frame (r := .called k.cpu) hwaits (hown.mono fun x hx hx' =>
      Set.disjoint_left.mp apart hx hx'), ?_, h.sized.frame hsizes,
    (hrest.mono (Set.compl_subset_compl.mpr Set.subset_union_left)).trans
      (hown.mono (Set.compl_subset_compl.mpr Set.subset_union_right))⟩
  · dsimp only
    rw [h.sized.base, h.sized.size, Thread.top]
  · dsimp only
    rw [hstate]
    decide

/-- **A switch**, to any thread that has left something in memory: it succeeds, the thread goes on,
and the one that has switched waits. -/
theorem contextSwitch_spec {r : Rest} (running : k.currentThread = t.tcb) (room : t.HasRoom k.cpu)
    (sane : k.cpu.Sane) (started : load k.cpu.memory (t.tcb + 12) ≠ threadInit)
    (sized : t.Sized k.cpu.memory) (apart : Disjoint t.bytes t'.bytes)
    (h : Holds code k.cpu.memory t' r) :
    ∃ k', contextSwitch code k t'.tcb = some k' ∧ k'.esp0 = t'.top ∧ k'.currentThread = t'.tcb ∧
      GoesOn code t' k' r ∧ Waits code k'.cpu.memory t k.cpu ∧
      load k'.cpu.memory (t'.tcb + 12) ≠ threadInit ∧ t'.Sized k'.cpu.memory ∧
      Agree (t.bytes ∪ t'.bytes)ᶜ k.cpu.memory k'.cpu.memory := by
  cases r with
  | fresh u => exact contextSwitch_enters running room sane started sized apart h
  | called d =>
      obtain ⟨k', hk, hesp0, hthread, hgoes, hwaits, hagree⟩ :=
        contextSwitch_returns running room sane started sized apart h
      have hother : t'.bytes ⊆ t.bytesᶜ := fun x hx hx' => Set.disjoint_left.mp apart hx' hx
      have hd : Waits code k'.cpu.memory t' d :=
        Holds.frame (r := .called d) h (hagree.mono hother)
      exact ⟨k', hk, hesp0, hthread, hgoes, hwaits, hd.state, hd.sized,
        hagree.mono (Set.compl_subset_compl.mpr Set.subset_union_left)⟩

end Switch

/-! ## Runs -/

section Runs

variable {code : Code} {s s' : System} {a : Act}

/-- The threads that stay when one goes. -/
theorem sublist_parked {pre post : List (Thread × Rest)} {p : Thread × Rest}
    (parked : s.parked = pre ++ p :: post) : (pre ++ post).Sublist s.parked := by
  rw [parked]
  exact (List.sublist_cons_self p post).append_left pre

theorem mem_parked_of_ne {pre post : List (Thread × Rest)} {p q : Thread × Rest}
    (parked : s.parked = pre ++ p :: post) (hq : q ∈ s.parked) (hne : q ≠ p) : q ∈ pre ++ post := by
  rw [parked] at hq
  rcases List.mem_append.mp hq with hpre | hpost
  · exact List.mem_append_left _ hpre
  · exact List.mem_append_right _ ((List.mem_cons.mp hpost).resolve_left hne)

namespace Good

/-- The running thread and another one do not overlap. -/
theorem disjoint (h : Good code s) {p : Thread × Rest} (hp : p ∈ s.parked) :
    Disjoint s.current.bytes p.1.bytes :=
  (List.pairwise_cons.mp h.apart).1 p.1 (List.mem_map_of_mem hp)

/-- **Work keeps the invariant.** -/
theorem work (h : Good code s) {c : Cpu} (works : Works s c.memory) :
    Good code { s with kernel := { s.kernel with cpu := c } } where
  running := h.running
  esp0 := h.esp0
  started := works.started
  sized := h.sized.frame works.sizes
  apart := h.apart
  holds p hp := (h.holds p hp).untouched (works.others p hp)

/-- **A switch keeps the invariant.** -/
theorem switch (h : Good code s) {pre post : List (Thread × Rest)} {t : Thread} {r : Rest}
    {k : Kernel} (parked : s.parked = pre ++ (t, r) :: post) (sane : s.kernel.cpu.Sane)
    (room : s.current.HasRoom s.kernel.cpu) (call : contextSwitch code s.kernel t.tcb = some k) :
    Good code { kernel := k, current := t
                parked := (s.current, .called s.kernel.cpu) :: (pre ++ post) } := by
  have ht : (t, r) ∈ s.parked := by simp [parked]
  obtain ⟨k', hk, hesp0, hthread, -, hwaits, hstate, hsized, hagree⟩ :=
    contextSwitch_spec h.running room sane h.started h.sized (h.disjoint ht) (h.holds _ ht)
  obtain rfl : k = k' := Option.some.inj (call.symm.trans hk)
  -- the threads are the same ones
  have hperm : (s.current :: s.parked.map Prod.fst).Perm
      (t :: s.current :: (pre ++ post).map Prod.fst) := by
    rw [parked]
    simp only [List.map_append, List.map_cons]
    exact (List.perm_middle.cons _).trans (List.Perm.swap _ _ _)
  have hapart := (hperm.pairwise_iff fun hd => hd.symm).mp h.apart
  refine ⟨hthread, hesp0, hstate, hsized, hapart, fun p hp => ?_⟩
  rcases List.mem_cons.mp hp with rfl | hp
  · exact hwaits
  · have hp' : p ∈ s.parked := (sublist_parked parked).subset hp
    have hmem : p.1 ∈ (pre ++ post).map Prod.fst := List.mem_map_of_mem hp
    have hdisjoint := (List.pairwise_cons.mp hapart).1 p.1 (List.mem_cons_of_mem _ hmem)
    refine (h.holds p hp').frame (hagree.mono fun x hx hx' => ?_)
    rcases hx' with hx' | hx'
    · exact Set.disjoint_left.mp (h.disjoint hp') hx' hx
    · exact Set.disjoint_left.mp hdisjoint hx' hx

/-- **Each step keeps the invariant.** -/
theorem step (h : Good code s) (hstep : Step code s a s') : Good code s' := by
  cases hstep with
  | work works => exact h.work works
  | create works apart starts =>
      have hwork := h.work works
      have hperm : ∀ (t : Thread) (ts : List Thread), (s.current :: t :: ts).Perm
          (t :: s.current :: ts) := fun t ts => List.Perm.swap _ _ _
      refine ⟨hwork.running, hwork.esp0, hwork.started, hwork.sized, ?_, fun p hp => ?_⟩
      · exact ((hperm _ _).pairwise_iff fun hd => hd.symm).mpr
          (List.pairwise_cons.mpr ⟨apart, h.apart⟩)
      · rcases List.mem_cons.mp hp with rfl | hp
        · exact starts
        · exact hwork.holds p hp
  | @reap pre post t r parked =>
      have hsub := sublist_parked parked
      exact ⟨h.running, h.esp0, h.started, h.sized,
        h.apart.sublist ((hsub.map Prod.fst).cons_cons _), fun p hp => h.holds p (hsub.subset hp)⟩
  | switch parked sane room call => exact h.switch parked sane room call

theorem run {as : List Act} (h : Good code s) (run : Run (Step code) s as s') : Good code s' :=
  run.invariant h fun _ _ _ hgood hstep => hgood.step hstep

end Good

/-- A thread that is neither switched to nor freed has what it had left. -/
theorem parked_of_run {t : Thread} {r : Rest} {as : List Act} (run : Run (Step code) s as s')
    (h : (t, r) ∈ s.parked) (stays : ∀ a ∈ as, a ≠ .reap t ∧ a ≠ .switch t) :
    (t, r) ∈ s'.parked := by
  refine run.trace_invariant (I := fun bs u => (∀ a ∈ bs, a ≠ .reap t ∧ a ≠ .switch t) →
    (t, r) ∈ u.parked) (fun _ => h) (fun bs u a v ih hstep hbs => ?_) stays
  obtain ⟨hreap, hswitch⟩ := hbs a (List.mem_append_right _ List.mem_cons_self)
  have hu := ih fun b hb => hbs b (List.mem_append_left _ hb)
  -- another thread goes, and this one stays
  have hkeep : ∀ {pre post : List (Thread × Rest)} {t' : Thread} {r' : Rest}, t' ≠ t →
      u.parked = pre ++ (t', r') :: post → (t, r) ∈ pre ++ post := fun hne hparked =>
    mem_parked_of_ne hparked hu fun heq => hne (congrArg Prod.fst heq).symm
  cases hstep with
  | work works => exact hu
  | create works apart starts => exact List.mem_cons_of_mem _ hu
  | reap parked => exact hkeep (fun he => hreap (congrArg Act.reap he)) parked
  | switch parked sane room call =>
      exact List.mem_cons_of_mem _ (hkeep (fun he => hswitch (congrArg Act.switch he)) parked)

/-- **After every run**, a switch to any thread succeeds, and the thread goes on from what it has
left. -/
theorem switch_of_run {t : Thread} {r : Rest} {as : List Act} (good : Good code s)
    (run : Run (Step code) s as s') (h : (t, r) ∈ s.parked)
    (stays : ∀ a ∈ as, a ≠ .reap t ∧ a ≠ .switch t) (sane : s'.kernel.cpu.Sane)
    (room : s'.current.HasRoom s'.kernel.cpu) :
    ∃ k, contextSwitch code s'.kernel t.tcb = some k ∧ k.esp0 = t.top ∧
      k.currentThread = t.tcb ∧ GoesOn code t k r := by
  have hgood := good.run run
  have hp := parked_of_run run h stays
  obtain ⟨k, hk, hesp0, hthread, hgoes, -⟩ := contextSwitch_spec hgood.running room sane
    hgood.started hgood.sized (hgood.disjoint hp) (hgood.holds _ hp)
  exact ⟨k, hk, hesp0, hthread, hgoes⟩

/-- **`context_switch` comes back.** A thread calls `context_switch`, and other threads run, are
created, freed and switched to, for as long as it takes. The first switch back to the thread
succeeds, and `do_switch` returns with the registers, the segments, the stack and the
`current_thread` of the call. -/
theorem switch_resumes {t : Thread} {s₁ s₂ : System} {as : List Act} (good : Good code s)
    (away : Step code s (.switch t) s₁) (run : Run (Step code) s₁ as s₂)
    (stays : ∀ a ∈ as, a ≠ .reap s.current ∧ a ≠ .switch s.current)
    (sane : s₂.kernel.cpu.Sane) (room : s₂.current.HasRoom s₂.kernel.cpu) :
    ∃ k, contextSwitch code s₂.kernel s.current.tcb = some k ∧ k.currentThread = s.current.tcb ∧
      k.esp0 = s.current.top ∧ k.cpu.general = s.kernel.cpu.general ∧
      k.cpu.segment = s.kernel.cpu.segment ∧ k.cpu.esp = s.kernel.cpu.esp - 12 ∧
      k.cpu.eip = code.contextSwitch ∧
      Agree (Set.Ico s.kernel.cpu.esp.toNat s.current.top.toNat) s.memory k.cpu.memory := by
  have hparked : (s.current, Rest.called s.kernel.cpu) ∈ s₁.parked := by
    cases away with
    | switch parked sane room call => exact List.mem_cons_self
  obtain ⟨k, hk, hesp0, hthread, hgoes⟩ :=
    switch_of_run (good.step away) run hparked stays sane room
  exact ⟨k, hk, hthread, hesp0, hgoes⟩

/-- Work that leaves memory as it is. -/
theorem Good.works_refl (h : Good code s) : Works s s.memory where
  others _ _ := ⟨Agree.refl _ _, Iff.rfl, Agree.refl _ _, fun _ => Agree.refl _ _,
    fun _ => Agree.refl _ _⟩
  started := h.started
  sizes := Agree.refl _ _

end Runs

/-! ## Two threads -/

/-- A running thread. -/
def idleThread : Thread where
  tcb := 0x1000
  stackBase := 0x2000
  stackSize := 0x1000
  control := by decide
  inMemory := by decide
  apart := Set.disjoint_left.mpr fun x hx hx' => by
    have h1 : x < 0x1000 + 112 := hx.2
    have h2 : 0x2000 ≤ x := hx'.1
    omega

/-- A new thread. -/
def newThread : Thread where
  tcb := 0x4000
  stackBase := 0x5000
  stackSize := 0x1000
  control := by decide
  inMemory := by decide
  apart := Set.disjoint_left.mpr fun x hx hx' => by
    have h1 : x < 0x4000 + 112 := hx.2
    have h2 : 0x5000 ≤ x := hx'.1
    omega

/-- Their control blocks in memory. -/
def twoThreads : Image :=
  storeWord (storeWord (storeWord (storeWord (storeWord (storeWord (fun _ => 0)
    (0x1000 + 24) 0x2000) (0x1000 + 28) 0x1000) 0x4000 0x6000) (0x4000 + 12) threadInit)
    (0x4000 + 24) 0x5000) (0x4000 + 28) 0x1000

/-- The running thread, at the bottom of its stack. -/
def twoThreadSystem : System where
  kernel := {
    cpu := {
      general := fun _ => 0, segment := fun _ => 0, esp := 0x3000, eip := 0, zero := false
      memory := twoThreads }
    cr3 := 0, esp0 := 0x3000, currentThread := 0x1000 }
  current := idleThread
  parked := [(newThread, .fresh (registersOf twoThreads 0x4000))]

/-- No locals. -/
def plainCode : Code := ⟨0x100, 0x200, 0x300, 0⟩

theorem twoThreadSystem_good : Good plainCode twoThreadSystem where
  running := rfl
  esp0 := rfl
  started := by decide
  sized := ⟨by decide, by decide⟩
  apart := by
    refine List.pairwise_pair.mpr (Set.disjoint_left.mpr ?_)
    rintro x (⟨-, h1⟩ | ⟨-, h1⟩) (⟨h2, -⟩ | ⟨h2, -⟩)
    · have h1' : x < 0x1000 + 112 := h1
      have h2' : 0x4000 ≤ x := h2
      omega
    · have h1' : x < 0x1000 + 112 := h1
      have h2' : 0x5000 ≤ x := h2
      omega
    · have h1' : x < 0x3000 := h1
      have h2' : 0x4000 ≤ x := h2
      omega
    · have h1' : x < 0x3000 := h1
      have h2' : 0x5000 ≤ x := h2
      omega
  holds p hp := by
    rw [List.mem_singleton.mp hp]
    exact ⟨by decide, by decide, ⟨by decide, by decide⟩, rfl, by decide⟩

theorem twoThreadSystem_room : idleThread.HasRoom twoThreadSystem.kernel.cpu :=
  ⟨by decide, by decide⟩

/-- The null selectors are loaded. -/
theorem Cpu.sane_of_null {c : Cpu} (h : c.segment = fun _ => 0) : c.Sane := fun _ => by
  rw [h]
  exact ⟨show Exception.loadable 0 = true by decide, UInt32.zero_and⟩

/-- The new thread runs, calls `context_switch`, and the first one goes on. -/
theorem switch_resumes_twoThreads :
    ∃ (s₁ s₂ : System) (k : Kernel), Step plainCode twoThreadSystem (.switch newThread) s₁ ∧
      Step plainCode s₁ .work s₂ ∧ contextSwitch plainCode s₂.kernel 0x1000 = some k ∧
      k.currentThread = 0x1000 ∧ k.esp0 = 0x3000 ∧ k.cpu.esp = 0x3000 - 12 ∧
      k.cpu.eip = 0x100 := by
  have good := twoThreadSystem_good
  have hnew : (newThread, Rest.fresh (registersOf twoThreads 0x4000)) ∈ twoThreadSystem.parked :=
    List.mem_singleton.mpr rfl
  obtain ⟨k, hk, -⟩ := contextSwitch_spec good.running twoThreadSystem_room
    (Cpu.sane_of_null rfl) good.started good.sized (good.disjoint hnew) (good.holds _ hnew)
  obtain ⟨s₁, hcurrent, away⟩ : ∃ s₁, s₁.current = newThread ∧
      Step plainCode twoThreadSystem (.switch newThread) s₁ :=
    ⟨_, rfl, @Step.switch plainCode twoThreadSystem [] [] newThread _ k rfl
      (Cpu.sane_of_null rfl) twoThreadSystem_room hk⟩
  -- it works until it is at the bottom of its stack again
  have work : Step plainCode s₁ .work { s₁ with kernel := { s₁.kernel with
      cpu := { s₁.kernel.cpu with segment := fun _ => 0, esp := 0x6000 } } } :=
    .work (good.step away).works_refl
  obtain ⟨k', hk', hthread, hesp0, -, -, hesp, heip, -⟩ :=
    switch_resumes good away (Run.nil.snoc work) (by simp)
      (Cpu.sane_of_null rfl) (by
        rw [hcurrent]
        exact ⟨show 0x5000 + 68 ≤ 0x6000 by decide, show 0x6000 ≤ 0x6000 from le_rfl⟩)
  exact ⟨_, _, k', away, work, hk', hthread, hesp0, hesp, heip⟩

end Pebbles.Processor
