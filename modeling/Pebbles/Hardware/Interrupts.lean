import Pebbles.Process.StackSwitchRuns
import Pebbles.Syscall.CallLinkage

/-! # Interrupts of the timer and of the keyboard

`timer_wrapper` and `keyboard_wrapper` (`hardware_handler_wrappers.S`) run a handler in C between
two instructions of a thread, in user mode or in the kernel. The handler may call `context_switch`,
and then other threads run before it returns. All the same the thread goes on as if there had been
no interrupt. -/

namespace Pebbles.Processor

open ByteStores Transition
open Exception (loadable eflVm atUser)
open Syscall (wordsAt_pushAll agree_pushAll pushAll_esp)

/-! ## The wrappers -/

/-- Who interrupts. -/
inductive Device where
  | timer | keyboard
  deriving DecidableEq

namespace Device

/-- The wrapper, before the call of the handler. -/
def enter : Device → List Insn
  | .timer => [.pusha, .pushSegment .ds, .pushSegment .es, .pushSegment .fs, .pushSegment .gs]
  | .keyboard => [.pusha]

/-- The wrapper behind the call, up to `iret`. -/
def leave : Device → List Insn
  | .timer => [.popSegment .gs, .popSegment .fs, .popSegment .es, .popSegment .ds, .popa]
  | .keyboard => [.popa]

/-- What the wrapper leaves on the stack, from its pointer upwards. -/
def saved (d : Device) (c : Cpu) : List UInt32 :=
  (match d with
    | .timer => [c.segment .gs, c.segment .fs, c.segment .es, c.segment .ds]
    | .keyboard => []) ++
  [c.general .edi, c.general .esi, c.general .ebp, c.esp, c.general .ebx, c.general .edx,
    c.general .ecx, c.general .eax]

theorem saved_length (d : Device) (c : Cpu) :
    8 ≤ (d.saved c).length ∧ (d.saved c).length ≤ 12 := by
  cases d
  · exact show 8 ≤ 12 ∧ 12 ≤ 12 by decide
  · exact show 8 ≤ 8 ∧ 8 ≤ 12 by decide

end Device

/-- `SEGSEL_KERNEL_CS`. -/
def segselKernelCs : UInt32 := 0x10

/-- Where the interrupt finds the processor. -/
inductive Mode where
  | user | kernel
  deriving DecidableEq

namespace Mode

/-- The frame that the processor pushes for `iret`. -/
def frame (mode : Mode) (flags : UInt32) (c : Cpu) : List UInt32 :=
  match mode with
  | .user => Syscall.frame c flags c.eip
  | .kernel => [c.eip, segselKernelCs, flags]

/-- Where it begins to push: in user mode it takes the kernel stack of the thread. -/
def place (mode : Mode) (k : Kernel) : UInt32 :=
  match mode with
  | .user => k.esp0
  | .kernel => k.cpu.esp

/-- The processor takes an interrupt. -/
def interrupt (mode : Mode) (flags : UInt32) (k : Kernel) : Cpu :=
  Cpu.pushAll { k.cpu with esp := mode.place k } (mode.frame flags k.cpu).reverse

end Mode

/-- From the interrupt to the handler: `back` is where the handler returns to. -/
def enterHandler (d : Device) (mode : Mode) (flags back : UInt32) (k : Kernel) : Option Cpu :=
  ((mode.interrupt flags k).run d.enter).map fun c => c.push back

/-- `iret`, to the kernel or to user mode. -/
def interruptReturn (c : Cpu) : Option Cpu :=
  if c.word 1 &&& 0xffff = segselKernelCs then
    if c.word 2 &&& eflVm = 0 then
      some { c.drop 3 with eip := c.word 0, zero := c.word 2 &&& 0x40 != 0 }
    else none
  else Syscall.iret c

/-- From the handler back to the thread. -/
def leaveHandler (d : Device) (c : Cpu) : Option Cpu := (c.run d.leave).bind interruptReturn

/-! ## Into the handler -/

section Enter

variable {d : Device} {mode : Mode} {flags back : UInt32} {k : Kernel} {e : Cpu}

/-- What is on the stack when the handler begins, its return address apart. -/
def onStack (d : Device) (mode : Mode) (flags : UInt32) (k : Kernel) : List UInt32 :=
  d.saved (mode.interrupt flags k) ++ mode.frame flags k.cpu

theorem onStack_length (d : Device) (mode : Mode) (flags : UInt32) (k : Kernel) :
    8 ≤ (onStack d mode flags k).length ∧ (onStack d mode flags k).length ≤ 17 := by
  have hsaved := d.saved_length (mode.interrupt flags k)
  have hframe : (mode.frame flags k.cpu).length ≤ 5 := by
    cases mode
    · exact le_refl 5
    · exact show 3 ≤ 5 by decide
  rw [onStack, List.length_append]
  omega

/-- The wrapper and `iret` give back what they took of the kernel stack. -/
theorem kernel_esp_back {p : UInt32}
    (h : p.toNat + 4 * (onStack d .kernel flags k).length = k.cpu.esp.toNat) :
    p + 4 * UInt32.ofNat (d.saved (Mode.interrupt .kernel flags k)).length + 12 = k.cpu.esp := by
  have hlt := k.cpu.esp.toNat_lt
  have hframe : (Mode.frame .kernel flags k.cpu).length = 3 := rfl
  rw [onStack, List.length_append, hframe] at h
  generalize (d.saved (Mode.interrupt .kernel flags k)).length = n at h ⊢
  have hn : (4 * UInt32.ofNat n).toNat = 4 * n := four_mul_toNat (by omega)
  have hp : (p + 4 * UInt32.ofNat n).toNat = p.toNat + 4 * n := by
    rw [add_toNat (by omega), hn]
  refine UInt32.toNat.inj ?_
  rw [add_toNat (by rw [hp]; show _ + 12 < _; omega), hp]
  show _ + 12 = _
  omega

theorem sane_interrupt (sane : k.cpu.Sane) : (mode.interrupt flags k).Sane := by
  rw [Mode.interrupt, Cpu.pushAll_eq]
  exact sane

theorem general_interrupt (mode : Mode) (flags : UInt32) (k : Kernel) :
    (mode.interrupt flags k).general = k.cpu.general ∧
      (mode.interrupt flags k).segment = k.cpu.segment := by
  rw [Mode.interrupt, Cpu.pushAll_eq]
  exact ⟨rfl, rfl⟩

/-- **Everything is pushed**, and nothing else happens. -/
theorem enterHandler_eq (d : Device) (mode : Mode) (flags back : UInt32) (k : Kernel) :
    enterHandler d mode flags back k = some (Cpu.pushAll { k.cpu with esp := mode.place k }
      (back :: onStack d mode flags k).reverse) := by
  have hpush : Cpu.pushAll { k.cpu with esp := mode.place k }
      (back :: onStack d mode flags k).reverse =
        ((mode.interrupt flags k).pushAll
          (d.saved (mode.interrupt flags k)).reverse).push back := by
    rw [List.reverse_cons, onStack, List.reverse_append, Cpu.pushAll, List.foldl_append,
      List.foldl_append]
    rfl
  rw [hpush]
  cases d <;> rfl

theorem general_of_enterHandler (h : enterHandler d mode flags back k = some e) :
    e.general = k.cpu.general ∧ e.segment = k.cpu.segment := by
  rw [enterHandler_eq, Cpu.pushAll_eq] at h
  obtain rfl := Option.some.inj h
  exact ⟨rfl, rfl⟩

/-- **The handler begins** with all registers of the thread above its return address. -/
theorem enterHandler_spec (h : enterHandler d mode flags back k = some e)
    (room : 72 ≤ (mode.place k).toNat) :
    e.esp.toNat = (mode.place k).toNat - 4 * ((onStack d mode flags k).length + 1) ∧
      WordsAt e.memory e.esp (back :: onStack d mode flags k) ∧
      Agree (Set.Ico ((mode.place k).toNat - 72) (mode.place k).toNat)ᶜ k.cpu.memory e.memory := by
  have hlen := onStack_length d mode flags k
  have hlength : (back :: onStack d mode flags k).reverse.length =
    (onStack d mode flags k).length + 1 := by simp
  have hroom : 4 * (back :: onStack d mode flags k).reverse.length ≤ (mode.place k).toNat := by
    omega
  have hnil : WordsAt k.cpu.memory (mode.place k) [] := trivial
  have hwords := wordsAt_pushAll (c := { k.cpu with esp := mode.place k }) hnil _ hroom
    (mode.place k).toNat_lt.le
  have hagree := (agree_pushAll { k.cpu with esp := mode.place k } _ hroom).mono
    (Set.compl_subset_compl.mpr (Set.Ico_subset_Ico_left (show (mode.place k).toNat - 72 ≤ _ by
      rw [hlength]
      show _ ≤ (mode.place k).toNat - _
      omega)))
  have hesp := pushAll_esp { k.cpu with esp := mode.place k } _ hroom
  rw [enterHandler_eq] at h
  obtain rfl := Option.some.inj h
  rw [List.reverse_reverse, List.append_nil] at hwords
  rw [hlength] at hesp
  exact ⟨hesp, hwords, hagree⟩

end Enter

/-! ## Back to the thread -/

section Leave

variable {d : Device} {mode : Mode} {c m : Cpu} {flags : UInt32}

/-- **The wrapper takes the registers from the stack.** That of the keyboard has not saved the
segment registers. -/
theorem Device.run_leave (d : Device) {ws : List UInt32} (sane : c.Sane)
    (h : WordsAt m.memory m.esp (d.saved c ++ ws)) :
    ∃ m', m.run d.leave = some m' ∧ m'.general = c.general ∧
      m'.segment = (if d = .timer then c.segment else m.segment) ∧ m'.memory = m.memory ∧
      m'.esp = m.esp + 4 * UInt32.ofNat (d.saved c).length ∧ WordsAt m'.memory m'.esp ws := by
  have hwords := (WordsAt.append_iff.mp h).2
  unfold saved at h
  have hsegment : ∀ s, loadable (c.segment s) = true := fun s => (sane s).1
  have hlow : ∀ s, c.segment s &&& 0xffff = c.segment s := fun s => (sane s).2
  cases d with
  | timer =>
      simp only [List.cons_append, List.nil_append, WordsAt, UInt32.add_assoc,
        UInt32.reduceAdd] at h
      obtain ⟨hgs, hfs, hes, hds, hedi, hesi, hebp, -, hebx, hedx, hecx, heax, -⟩ := h
      refine ⟨{ m with general := c.general, segment := c.segment, esp := m.esp + 48 }, ?_, rfl,
        rfl, rfl, rfl, hwords⟩
      simp [leave, Cpu.run, Cpu.exec, Cpu.drop, Cpu.word, Cpu.loadSegment, UInt32.add_assoc, hgs,
        hfs, hes, hds, hedi, hesi, hebp, hebx, hedx, hecx, heax, hsegment, hlow]
      refine ⟨?_, ?_⟩
      · funext r
        cases r <;> rfl
      · funext s
        cases s <;> rfl
  | keyboard =>
      simp only [List.cons_append, List.nil_append, WordsAt, UInt32.add_assoc,
        UInt32.reduceAdd] at h
      obtain ⟨hedi, hesi, hebp, -, hebx, hedx, hecx, heax, -⟩ := h
      refine ⟨{ m with general := c.general, esp := m.esp + 32 }, ?_, rfl, rfl, rfl, rfl, hwords⟩
      simp [leave, Cpu.run, Cpu.exec, Cpu.drop, Cpu.word, hedi, hesi, hebp, hebx, hedx, hecx,
        heax]
      funext r
      cases r <;> rfl

/-- **`iret`** goes on at the instruction that was interrupted. -/
theorem interruptReturn_spec (hflags : flags &&& eflVm = 0)
    (h : WordsAt m.memory m.esp (mode.frame flags c)) :
    ∃ m', interruptReturn m = some m' ∧ m'.general = m.general ∧
      (∀ s, m'.segment s = if mode = .user then atUser (m.segment s) else m.segment s) ∧
      m'.esp = (if mode = .user then c.esp else m.esp + 12) ∧ m'.eip = c.eip ∧
      m'.zero = (flags &&& 0x40 != 0) ∧ m'.memory = m.memory := by
  have hword : ∀ (k : ℕ) (hk : k < (mode.frame flags c).length),
      m.word (UInt32.ofNat k) = (mode.frame flags c)[k] := fun k hk => Cpu.word_of_wordsAt h hk
  cases mode with
  | user =>
      have h1 : m.word 1 = segselUserCs := hword 1 (show 1 < 5 by decide)
      obtain ⟨m', hiret, hgeneral, hesp, heip, hzero, hmemory, hsegment⟩ :=
        Syscall.iret_spec hflags h
      refine ⟨m', ?_, hgeneral, hsegment, hesp, heip, hzero, hmemory⟩
      rw [interruptReturn, h1, if_neg (by decide), hiret]
  | kernel =>
      have h0 : m.word 0 = c.eip := hword 0 (show 0 < 3 by decide)
      have h1 : m.word 1 = segselKernelCs := hword 1 (show 1 < 3 by decide)
      have h2 : m.word 2 = flags := hword 2 (show 2 < 3 by decide)
      refine ⟨{ m.drop 3 with eip := c.eip, zero := flags &&& 0x40 != 0 }, ?_, rfl,
        fun _ => rfl, rfl, rfl, rfl, rfl⟩
      rw [interruptReturn, h0, h1, h2, if_pos (by decide), if_pos hflags]

end Leave

/-! ## While other threads run -/

/-- **How a thread keeps its stack** from the address `lo` on: its own code leaves it alone, and
calls `context_switch` only with a stack pointer below. -/
structure KeepsStack (t : Thread) (lo : ℕ) (s : System) (a : Act) (s' : System) : Prop where
  /-- The thread is not freed. -/
  stays : a ≠ .reap t
  /-- Its own code. -/
  work : s.current = t → (∀ t', a ≠ .switch t') →
    Agree (Set.Ico lo t.top.toNat) s.memory s'.memory
  /-- Its calls of `context_switch`. -/
  switch : s.current = t → ∀ t', a = .switch t' → s.kernel.cpu.esp.toNat ≤ lo

/-- **The stack of a thread is kept**, and it runs, or waits below. -/
structure Kept (t : Thread) (lo : ℕ) (m : Image) (s : System) : Prop where
  /-- The stack. -/
  stack : Agree (Set.Ico lo t.top.toNat) m s.memory
  /-- The thread. -/
  place : s.current = t ∨ ∃ c, (t, Rest.called c) ∈ s.parked ∧ c.esp.toNat ≤ lo

section Kept

variable {code : Code} {s s' : System} {t t' : Thread} {r : Rest} {lo : ℕ} {m : Image} {a : Act}
  {k : Kernel}

/-- No thread is without bytes. -/
theorem Thread.tcb_mem (t : Thread) : t.tcb.toNat ∈ t.bytes :=
  Or.inl ⟨le_rfl, by omega⟩

/-- Two threads that wait do not overlap. -/
theorem Good.disjoint_parked (good : Good code s) {p q : Thread × Rest} (hp : p ∈ s.parked)
    (hq : q ∈ s.parked) (hne : p ≠ q) : Disjoint p.1.bytes q.1.bytes := by
  have hapart := (List.pairwise_cons.mp good.apart).2
  rw [List.pairwise_map] at hapart
  have hsymm : Std.Symm fun p q : Thread × Rest => Disjoint p.1.bytes q.1.bytes :=
    ⟨fun _ _ h => h.symm⟩
  exact hapart.forall hp hq hne

/-- A thread waits once. -/
theorem Good.parked_unique (good : Good code s) {p q : Thread × Rest} (hp : p ∈ s.parked)
    (hq : q ∈ s.parked) (h : p.1 = q.1) : p = q := by
  by_contra hne
  have hdisjoint := good.disjoint_parked hp hq hne
  rw [← h] at hdisjoint
  exact Set.disjoint_left.mp hdisjoint p.1.tcb_mem p.1.tcb_mem

/-- **What others do** leaves the stack of a thread that waits. -/
theorem Waits.agree_stack {c : Cpu} {m' : Image} (h : Waits code m t c) (ut : Untouched t m m')
    (hle : c.esp.toNat ≤ lo) : Agree (Set.Ico lo t.top.toNat) m m' := by
  have hstack := ut.stack h.state
  rw [h.pointer_toNat] at hstack
  exact hstack.mono (Set.Ico_subset_Ico_left (by omega))

/-- Work of any thread keeps the stack. -/
theorem Kept.agree_works (kept : Kept t lo m s) (good : Good code s) {m' : Image}
    (works : Works s m') (own : s.current = t → Agree (Set.Ico lo t.top.toNat) s.memory m') :
    Agree (Set.Ico lo t.top.toNat) m m' := by
  rcases kept.place with hcurrent | ⟨c, hc, hle⟩
  · exact kept.stack.trans (own hcurrent)
  · exact kept.stack.trans (Waits.agree_stack (good.holds _ hc) (works.others _ hc) hle)

/-- **A switch away** leaves the stack of the thread. -/
theorem agree_of_away (waits : Waits code k.cpu.memory s.current s.kernel.cpu) :
    Agree (Set.Ico s.kernel.cpu.esp.toNat s.current.top.toNat) s.memory k.cpu.memory := by
  obtain ⟨next, state, -, hagree⟩ := waits.saved
  refine ((waits.room.agree_call code next state).mono fun x hx hx' => ?_).trans
    (hagree.mono (Set.Ico_subset_Ico_left (by omega)))
  have h1 := hx.1
  have h2 := hx'.2
  omega

/-- **A switch keeps the stack.** -/
theorem Kept.switch (kept : Kept t lo m s) (good : Good code s)
    {pre post : List (Thread × Rest)} (parked : s.parked = pre ++ (t', r) :: post)
    (sane : s.kernel.cpu.Sane) (room : s.current.HasRoom s.kernel.cpu)
    (call : contextSwitch code s.kernel t'.tcb = some k)
    (own : s.current = t → s.kernel.cpu.esp.toNat ≤ lo) :
    Kept t lo m { kernel := k, current := t'
                  parked := (s.current, .called s.kernel.cpu) :: (pre ++ post) } := by
  have ht' : (t', r) ∈ s.parked := by simp [parked]
  have hdisjoint := good.disjoint ht'
  obtain ⟨k', hk, -, -, -, hwaits, -, -, hagree⟩ :=
    contextSwitch_spec good.running room sane good.started good.sized hdisjoint (good.holds _ ht')
  obtain rfl : k = k' := Option.some.inj (call.symm.trans hk)
  rcases kept.place with hcurrent | ⟨c, hc, hle⟩
  · -- the thread itself calls `context_switch`
    subst hcurrent
    exact ⟨kept.stack.trans ((agree_of_away hwaits).mono (Set.Ico_subset_Ico_left (own rfl))),
      Or.inr ⟨_, List.mem_cons_self, own rfl⟩⟩
  · have hlow : t.stackBase.toNat + 68 ≤ c.esp.toNat := (Waits.room (good.holds _ hc)).1
    have hbytes : Set.Ico lo t.top.toNat ⊆ t.bytes := fun x hx =>
      Or.inr ⟨by have := hx.1; omega, hx.2⟩
    have hcurrent := good.disjoint hc
    by_cases hsame : t' = t
    · -- it is the one that goes on
      subst hsame
      obtain rfl : r = .called c := congrArg Prod.snd (good.parked_unique ht' hc rfl)
      obtain ⟨k', hk', -, -, -, -, hothers⟩ :=
        contextSwitch_returns good.running room sane good.started good.sized hdisjoint
          (good.holds _ ht')
      obtain rfl : k = k' := Option.some.inj (call.symm.trans hk')
      exact ⟨kept.stack.trans (hothers.mono fun x hx hx' =>
        Set.disjoint_left.mp hcurrent hx' (hbytes hx)), Or.inl rfl⟩
    · -- it waits on
      have hne : ((t', r) : Thread × Rest) ≠ (t, .called c) := fun h =>
        hsame (congrArg Prod.fst h)
      have hother : Disjoint t'.bytes t.bytes := good.disjoint_parked ht' hc hne
      have hmem := mem_parked_of_ne parked hc hne.symm
      refine ⟨kept.stack.trans (hagree.mono fun x hx hx' => ?_), Or.inr ⟨c,
        List.mem_cons_of_mem _ hmem, hle⟩⟩
      rcases hx' with hx' | hx'
      · exact Set.disjoint_left.mp hcurrent hx' (hbytes hx)
      · exact Set.disjoint_left.mp hother hx' (hbytes hx)

/-- **Each step keeps the stack.** -/
theorem Kept.step (kept : Kept t lo m s) (good : Good code s) (hstep : Step code s a s')
    (keeps : KeepsStack t lo s a s') : Kept t lo m s' := by
  cases hstep with
  | work works =>
      exact ⟨kept.agree_works good works fun h => keeps.work h (by simp), kept.place⟩
  | create works apart starts =>
      refine ⟨kept.agree_works good works fun h => keeps.work h (by simp), ?_⟩
      exact kept.place.imp_right fun ⟨c, hc, hle⟩ => ⟨c, List.mem_cons_of_mem _ hc, hle⟩
  | @reap pre post t' r parked =>
      refine ⟨kept.stack, kept.place.imp_right fun ⟨c, hc, hle⟩ => ⟨c, ?_, hle⟩⟩
      exact mem_parked_of_ne parked hc fun h =>
        keeps.stays (congrArg Act.reap (congrArg Prod.fst h).symm)
  | switch parked sane room call =>
      exact kept.switch good parked sane room call fun h => keeps.switch h _ rfl

/-- **A run keeps the stack**, whatever other threads do. -/
theorem Kept.run {as : List Act} (kept : Kept t lo m s) (good : Good code s)
    (run : Run (Satisfying (Step code) (KeepsStack t lo)) s as s') :
    Kept t lo m s' ∧ Good code s' :=
  run.invariant (I := fun s => Kept t lo m s ∧ Good code s) ⟨kept, good⟩
    fun _ _ _ ⟨hkept, hgood⟩ hstep => ⟨hkept.step hgood hstep.1 hstep.2, hgood.step hstep.1⟩

end Kept

/-! ## An interrupt -/

/-- **An interrupt** of the running thread. -/
structure Interrupted (d : Device) (mode : Mode) (flags back : UInt32) (s : System) (e : Cpu) :
    Prop where
  /-- The wrapper has called the handler. -/
  entered : enterHandler d mode flags back s.kernel = some e
  /-- The flags are those of the processor. -/
  zero : s.kernel.cpu.zero = (flags &&& 0x40 != 0)
  /-- It is not in virtual 8086 mode. -/
  vm : flags &&& eflVm = 0
  /-- What its segment registers hold. -/
  sane : s.kernel.cpu.Sane
  /-- In user mode they hold no data segment of the kernel. -/
  segments : mode = .user → ∀ r, atUser (s.kernel.cpu.segment r) = s.kernel.cpu.segment r
  /-- The place is on the kernel stack of the thread. -/
  onStack : (mode.place s.kernel).toNat ≤ s.current.top.toNat
  /-- There is room for the registers. -/
  room : s.current.stackBase.toNat + 72 ≤ (mode.place s.kernel).toNat

namespace Interrupted

variable {code : Code} {d : Device} {mode : Mode} {flags back : UInt32} {s s' : System} {e : Cpu}

/-- Only the stack of the thread is written. -/
theorem agree_bytes (h : Interrupted d mode flags back s e) :
    Agree (Set.Ico s.current.stackBase.toNat s.current.top.toNat)ᶜ s.memory e.memory := by
  have hroom := h.room
  have hon := h.onStack
  exact (enterHandler_spec h.entered (by omega)).2.2.mono
    (Set.compl_subset_compl.mpr (Set.Ico_subset_Ico (by omega) (by omega)))

/-- The kernel works. -/
theorem works (h : Interrupted d mode flags back s e) (good : Good code s) :
    Works s e.memory := by
  have hcontrol := s.current.control
  have htop := s.current.top_toNat
  have h12 : (s.current.tcb + 12).toNat = s.current.tcb.toNat + 12 :=
    s.current.field_toNat (by decide)
  have hblock : Set.Ico s.current.tcb.toNat (s.current.tcb.toNat + 112) ⊆
      (Set.Ico s.current.stackBase.toNat s.current.top.toNat)ᶜ := fun x hx hx' =>
    Set.disjoint_left.mp s.current.apart hx (by rwa [htop] at hx')
  refine ⟨fun p hp => ?_, ?_, ?_⟩
  · refine (good.holds p hp).untouched_of_agree (h.agree_bytes.mono fun x hx hx' => ?_)
    exact Set.disjoint_left.mp (good.disjoint hp) (Or.inr hx') hx
  · rw [h.agree_bytes.load (by omega)
      ((Set.Ico_subset_Ico (by omega) (by omega)).trans hblock)]
    exact good.started
  · exact h.agree_bytes.mono ((Set.Ico_subset_Ico (by omega) (by omega)).trans hblock)

end Interrupted

/-- **An interrupt is not seen by the thread.** The handler runs, and as long as it takes other
threads run, are created, freed and switched to. When it returns, the wrapper and `iret` succeed,
and the thread goes on with the registers, the segments, the flag, the stack and the
`current_thread` that it had. -/
theorem interrupt_transparent {code : Code} {d : Device} {mode : Mode} {flags back : UInt32}
    {s s' : System} {e : Cpu} {as : List Act} (good : Good code s)
    (taken : Interrupted d mode flags back s e)
    (run : Run (Satisfying (Step code) (KeepsStack s.current (e.esp.toNat + 4)))
      { s with kernel := { s.kernel with cpu := e } } as s')
    (current : s'.current = s.current) (ret : s'.kernel.cpu.esp = e.esp + 4)
    (keyboard : d = .keyboard → s'.kernel.cpu.segment = e.segment) :
    ∃ m, leaveHandler d s'.kernel.cpu = some m ∧ m.general = s.kernel.cpu.general ∧
      m.segment = s.kernel.cpu.segment ∧ m.esp = s.kernel.cpu.esp ∧ m.eip = s.kernel.cpu.eip ∧
      m.zero = s.kernel.cpu.zero ∧ s'.kernel.currentThread = s.kernel.currentThread ∧
      s'.kernel.esp0 = s.kernel.esp0 ∧
      Agree (Set.Ico (mode.place s.kernel).toNat s.current.top.toNat) s.memory m.memory := by
  have hroom := taken.room
  have hon := taken.onStack
  have hlt := (mode.place s.kernel).toNat_lt
  have hlen := onStack_length d mode flags s.kernel
  obtain ⟨hesp, hwords, hagree⟩ := enterHandler_spec taken.entered (by omega)
  obtain ⟨hgeneral, hsegment⟩ := general_of_enterHandler taken.entered
  obtain ⟨⟨hstack, -⟩, hgood⟩ := Kept.run
    (s := { s with kernel := { s.kernel with cpu := e } }) ⟨Agree.refl _ _, Or.inl rfl⟩
    (good.work (taken.works good)) run
  have hret : s'.kernel.cpu.esp.toNat = e.esp.toNat + 4 := by
    rw [ret]
    exact add_four_toNat (by omega)
  have htop := s.current.top.toNat_lt
  -- above its return address, the stack is as it was when the handler began
  have hwords' : WordsAt s'.kernel.cpu.memory s'.kernel.cpu.esp
      (d.saved (mode.interrupt flags s.kernel) ++ mode.frame flags s.kernel.cpu) := by
    rw [ret]
    have hfour : (e.esp + 4).toNat = e.esp.toNat + 4 := by rw [← ret, hret]
    refine hwords.2.frame hstack ?_ fun x hx => ⟨?_, ?_⟩
    · rw [hfour]
      omega
    · have := hx.1
      omega
    · have hx2 : x < _ + 4 * (onStack d mode flags s.kernel).length := hx.2
      show x < s.current.top.toNat
      omega
  obtain ⟨m, hleave, hmgeneral, hmsegment, hmmemory, hmesp, hframe⟩ :=
    d.run_leave (sane_interrupt taken.sane) hwords'
  obtain ⟨m', hiret, hgeneral', hsegment', hesp', heip, hzero, hmemory⟩ :=
    interruptReturn_spec taken.vm hframe
  have hsame := general_interrupt mode flags s.kernel
  have hsegments : m.segment = s.kernel.cpu.segment := by
    rw [hmsegment]
    split_ifs with hd
    · exact hsame.2
    · rw [keyboard (by cases d <;> simp_all), hsegment]
  refine ⟨m', by rw [leaveHandler, hleave, Option.bind_some, hiret], ?_, ?_, ?_, heip,
    hzero.trans taken.zero.symm, ?_, ?_, ?_⟩
  · rw [hgeneral', hmgeneral, hsame.1]
  · funext r
    rw [hsegment', hsegments]
    split_ifs with hmode
    · exact taken.segments hmode r
    · rfl
  · rw [hesp']
    cases mode with
    | user => rfl
    | kernel =>
        have hplace : Mode.kernel.place s.kernel = s.kernel.cpu.esp := rfl
        rw [hplace] at hesp hroom
        rw [if_neg (by decide), hmesp]
        exact kernel_esp_back (by omega)
  · rw [hgood.running, current, good.running]
  · rw [hgood.esp0, current, good.esp0]
  · rw [hmemory, hmmemory]
    refine (hagree.mono fun x hx hx' => ?_).trans (hstack.mono (Set.Ico_subset_Ico_left (by omega)))
    have h1 := hx.1
    have h2 := hx'.2
    omega

/-- The timer interrupts a thread in user mode, and the handler returns. -/
theorem interrupt_transparent_timer :
    ∃ (e : Cpu) (s' : System) (m : Cpu),
      enterHandler .timer .user 0x202 0x400 twoThreadSystem.kernel = some e ∧
      Step plainCode { twoThreadSystem with kernel := { twoThreadSystem.kernel with cpu := e } }
        .work s' ∧ leaveHandler .timer s'.kernel.cpu = some m ∧ m.esp = 0x3000 ∧
      m.general = twoThreadSystem.kernel.cpu.general := by
  have good := twoThreadSystem_good
  have taken : Interrupted .timer .user 0x202 0x400 twoThreadSystem _ := {
    entered := enterHandler_eq .timer .user 0x202 0x400 twoThreadSystem.kernel
    zero := rfl
    vm := by decide
    sane := Cpu.sane_of_null rfl
    segments := fun _ _ => rfl
    onStack := le_rfl
    room := by decide }
  generalize Cpu.pushAll _ _ = e at taken
  have hwork := (good.work (taken.works good)).works_refl
  have work : Step plainCode
      { twoThreadSystem with kernel := { twoThreadSystem.kernel with cpu := e } } .work
      { twoThreadSystem with kernel := { twoThreadSystem.kernel with
        cpu := { e with esp := e.esp + 4 } } } :=
    .work (c := { e with esp := e.esp + 4 }) hwork
  obtain ⟨m, hleave, hgeneral, -, hesp, -⟩ := interrupt_transparent good taken
    (Run.nil.snoc ⟨work, by simp, fun _ _ => Agree.refl _ _, by simp⟩) rfl rfl (by simp)
  exact ⟨e, _, m, taken.entered, work, hleave, hesp, hgeneral⟩

end Pebbles.Processor
