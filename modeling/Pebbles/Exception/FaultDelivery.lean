import Pebbles.Exception.KernelEntry
import Pebbles.Library.Runs
import Pebbles.Memory.UserHalf
import Mathlib.Data.List.TakeWhile
import Mathlib.Data.UInt

/-! # The delivery of a fault

`get_real_handler` (`exception_handler_real.c`) when a handler is installed: it copies the `ureg_t`
of the fault below the stack that `sys_swexn` was given, pushes two words below the copy and enters
the handler. No pointer is checked. A store to a page that is not mapped is a fault in the kernel,
at a time when the handler is not installed any more, so the thread is killed. `memcpy` is the one
of `bcopy.S`, which copies words upwards, or bytes downwards when the copy would overwrite what it
still has to read. -/

namespace Pebbles.Exception

open Pebbles.Memory Transition

/-! ## The memory of the thread -/

/-- The memory of a process: the pages of the kernel are mapped. -/
structure ProcessMemory extends UserMemory where
  /-- The first four page tables are those of the kernel. -/
  kernelMapped : ∀ i j, i < 4 → mapped i j = true

/-- A new page directory. -/
def ProcessMemory.init (found : UInt32 → UInt8) : ProcessMemory where
  toUserMemory := UserMemory.initPd found
  kernelMapped i _ hi := by simpa [UserMemory.initPd] using hi

/-- A page is mapped. -/
def ProcessMemory.map (u : ProcessMemory) (i j : Nat) : Option ProcessMemory :=
  (u.virtualMapPhysical i j).pmap
    (fun v hv => ⟨v, hv⟩) <| by
      intro v hv i' j' hi'
      unfold UserMemory.virtualMapPhysical at hv
      split_ifs at hv
      · obtain rfl := Option.some.inj hv
        exact u.kernelMapped i' j' hi'
      · obtain rfl := Option.some.inj hv
        simp [u.kernelMapped i' j' hi']

/-- The kernel stack of a thread, a page of kernel memory. -/
structure KernelStack where
  /-- `stack_base`. -/
  base : UInt32
  /-- The page at 0 is not given to a stack. -/
  base_pos : 4096 ≤ base.toNat
  /-- The stack is in the memory of the kernel. -/
  inKernel : base.toNat + 4096 ≤ userMemStart

/-- The end of the stack, which `set_esp0` is told. -/
def KernelStack.top (s : KernelStack) : UInt32 := s.base + 4096

theorem KernelStack.toNat_top (s : KernelStack) : s.top.toNat = s.base.toNat + 4096 := by
  have h := s.inKernel
  rw [userMemStart] at h
  rw [top, UInt32.toNat_add]
  exact Nat.mod_eq_of_lt (by simp; omega)

/-- A fault of a thread: the pages that are mapped, and the `ureg_t` that the wrapper has left on
the kernel stack. -/
structure Fault (s : KernelStack) where
  /-- The memory. -/
  memory : ProcessMemory
  /-- The address of the `ureg_t`. -/
  curUreg : UInt32
  /-- What it holds. -/
  registers : Ureg
  /-- It is on the kernel stack. -/
  onStack : s.base.toNat ≤ curUreg.toNat ∧ curUreg.toNat + 80 ≤ s.top.toNat

/-! ## `get_real_handler` -/

/-- A store: the address and the number of bytes. -/
structure Store where
  /-- The address. -/
  addr : UInt32
  /-- The number of bytes. -/
  size : Nat

/-- The addresses of a store, modulo `2 ^ 32`. -/
def Store.bytes (s : Store) : List UInt32 :=
  (List.range s.size).map fun k => s.addr + UInt32.ofNat k

/-- `memcpy` copies words upwards. -/
def CopiesUp (dest src : UInt32) : Prop := src + 80 ≤ dest ∨ dest + 80 ≤ src ∨ dest < src

instance (dest src : UInt32) : Decidable (CopiesUp dest src) :=
  inferInstanceAs (Decidable (_ ∨ _ ∨ _))

/-- The stores of `memcpy(dest, src, sizeof(ureg_t))`. -/
def memcpyUreg (dest src : UInt32) : List Store :=
  if CopiesUp dest src then (List.range 20).map fun k => ⟨dest + UInt32.ofNat (4 * k), 4⟩
  else if dest = src then []
  else (List.range 80).map fun k => ⟨dest + 79 - UInt32.ofNat k, 1⟩

/-- The stores of `get_real_handler` below `esp3`: the copy, the pointer to it and the argument. -/
def frameStores (esp3 curUreg : UInt32) : List Store :=
  memcpyUreg (esp3 - 80) curUreg ++ [⟨esp3 - 80 - 4, 4⟩, ⟨esp3 - 80 - 4 - 4, 4⟩]

/-- The stores that are carried out: those before the first that meets an unmapped page. -/
def carriedOut (u : UserMemory) (stores : List Store) : List Store :=
  stores.takeWhile fun s => s.bytes.all u.maps

/-- What becomes of a fault. -/
structure Delivery where
  /-- The addresses written, in this order. -/
  written : List UInt32
  /-- The registers of the handler, unless the thread is killed. -/
  handler : Option UserCpu

/-- Where `enter_user_mode` starts the handler. -/
def handlerCpu (t : Task) : UserCpu :=
  { userRegisters { t.registers with eip := t.swexnInfo.eip, esp := t.swexnInfo.esp3 - 80 - 4 - 4 - 4 } with
    ds := segselUserDs, es := segselUserDs, fs := segselUserDs, gs := segselUserDs }

/-- `get_real_handler`, as to what it writes and where it goes. -/
def getRealHandler {s : KernelStack} (t : Task) (f : Fault s) : Delivery :=
  if t.swexnInfo.installedFlag = 0 then ⟨[], none⟩
  else
    let stores := frameStores t.swexnInfo.esp3 f.curUreg
    let done := carriedOut f.memory.toUserMemory stores
    ⟨done.flatMap Store.bytes, if done.length = stores.length then some (handlerCpu t) else none⟩

/-- The handler is deregistered before it is entered; the flags of the fault are kept. -/
def delivered {s : KernelStack} (t : Task) (f : Fault s) : Task :=
  { t with swexnInfo := ⟨0, 0, 0, 0, 0, f.registers.eflags⟩ }

/-! ## Histories of a thread -/

/-- What happens to a thread. -/
inductive Event (s : KernelStack) where
  /-- A fault. -/
  | fault (f : Fault s)
  /-- A call of `swexn`. -/
  | swexn (c : SwexnCall)

/-- One event: what becomes of the thread, if it is not killed. -/
def after {s : KernelStack} (t : Task) : Event s → Option Task
  | .fault f => (getRealHandler t f).handler.map fun _ => delivered t f
  | .swexn c => some (c.sysSwexnWrapper t s.top).1

/-- The events as steps of a thread that has not been killed. -/
def Step {s : KernelStack} (t : Option Task) (e : Event s) (t' : Option Task) : Prop :=
  ∃ task, t = some task ∧ t' = after task e

/-! ## The property and the condition -/

/-- **A safe delivery**: what is written is user memory with its page mapped, and the handler starts
at an address of the user, if the thread is not killed. -/
structure SafeDelivery (u : UserMemory) (d : Delivery) : Prop where
  /-- The addresses written. -/
  written : ∀ a ∈ d.written, userMemStart ≤ a.toNat ∧ u.maps a = true
  /-- Where the handler starts. -/
  eip : ∀ c ∈ d.handler, userMemStart ≤ c.eip.toNat

/-- The lowest `esp3` with the whole frame in user memory. -/
def lowestEsp3 : Nat := userMemStart + 88

/-- **A handler that can be entered safely.** With the frame in user memory, it starts at an address
of the user, or a page of the frame is missing. With the frame not in user memory, the very first
store meets a missing page. -/
def CarefulHandler {s : KernelStack} (t : Task) (f : Fault s) : Prop :=
  let esp3 := t.swexnInfo.esp3
  t.swexnInfo.installedFlag = 0 ∨
    if lowestEsp3 ≤ esp3.toNat ∨ esp3 = 0 then
      userMemStart ≤ t.swexnInfo.eip.toNat ∨
        ∃ k < 88, f.memory.maps (esp3 - 88 + UInt32.ofNat k) = false
    else ∃ first ∈ (frameStores esp3 f.curUreg).head?, ∃ a ∈ first.bytes, f.memory.maps a = false

/-- The property of an event. -/
def SafeEvent {s : KernelStack} (t : Option Task) (e : Event s) (_ : Option Task) : Prop :=
  ∀ task f, t = some task → e = .fault f →
    SafeDelivery f.memory.toUserMemory (getRealHandler task f)

/-- The condition on an event. -/
def CarefulEvent {s : KernelStack} (t : Option Task) (e : Event s) : Prop :=
  ∀ task f, t = some task → e = .fault f → CarefulHandler task f

/-! ## Pages -/

/-- The page of an address is found by its number. -/
theorem maps_congr (u : UserMemory) {a b : UInt32} (h : a.toNat / 4096 = b.toNat / 4096) :
    u.maps a = u.maps b := by
  have hpd : a.toNat / 2 ^ 22 = b.toNat / 2 ^ 22 := by omega
  simp only [UserMemory.maps, vaPdInd_eq, vaPtInd_eq, hpd, h]

/-- The pages of the kernel are mapped. -/
theorem ProcessMemory.maps_kernel (u : ProcessMemory) {a : UInt32} (h : a.toNat < userMemStart) :
    u.maps a = true := by
  apply u.kernelMapped
  rw [userMemStart] at h
  rw [vaPdInd_eq]
  omega

/-! ## The frame -/

/-- The address of the byte `k` from an address on. -/
theorem toNat_add_ofNat (a : UInt32) (k : Nat) :
    (a + UInt32.ofNat k).toNat = (a.toNat + k) % 2 ^ 32 := by
  rw [UInt32.toNat_add, UInt32.toNat_ofNat']
  omega

theorem mem_bytes {st : Store} {a : UInt32} :
    a ∈ st.bytes ↔ ∃ k < st.size, st.addr + UInt32.ofNat k = a := by
  simp [Store.bytes]

/-- Every byte of the frame is one of the 88 bytes below `esp3`. -/
theorem toNat_of_mem_frame {esp3 cur a : UInt32} {st : Store} (hst : st ∈ frameStores esp3 cur)
    (ha : a ∈ st.bytes) : ∃ k < 88, a.toNat = (esp3.toNat + (2 ^ 32 - 88) + k) % 2 ^ 32 := by
  obtain ⟨j, hj, rfl⟩ := mem_bytes.mp ha
  rw [toNat_add_ofNat]
  simp only [frameStores, memcpyUreg, List.mem_append, List.mem_cons, List.not_mem_nil,
    or_false] at hst
  rcases hst with hcopy | rfl | rfl
  · split_ifs at hcopy
    · -- a word of the copy
      obtain ⟨k, hk, rfl⟩ := List.mem_map.mp hcopy
      have hk' := List.mem_range.mp hk
      have hj' : j < 4 := hj
      refine ⟨8 + 4 * k + j, by omega, ?_⟩
      simp only [UInt32.toNat_add, UInt32.toNat_sub, UInt32.toNat_ofNat, UInt32.toNat_ofNat']
      omega
    · cases hcopy
    · -- a byte of the copy
      obtain ⟨k, hk, rfl⟩ := List.mem_map.mp hcopy
      have hk' := List.mem_range.mp hk
      have hj' : j < 1 := hj
      refine ⟨8 + (79 - k) + j, by omega, ?_⟩
      simp only [UInt32.toNat_add, UInt32.toNat_sub, UInt32.toNat_ofNat, UInt32.toNat_ofNat']
      omega
  · have hj' : j < 4 := hj
    refine ⟨4 + j, by omega, ?_⟩
    simp only [UInt32.toNat_sub, UInt32.toNat_ofNat]
    omega
  · have hj' : j < 4 := hj
    refine ⟨j, by omega, ?_⟩
    simp only [UInt32.toNat_sub, UInt32.toNat_ofNat]
    omega

/-- Unless the copy would be its own source, each of the 88 bytes is written by some store. -/
theorem exists_store {esp3 cur : UInt32} (hne : esp3 - 80 ≠ cur) {k : Nat} (hk : k < 88) :
    ∃ st ∈ frameStores esp3 cur, esp3 - 88 + UInt32.ofNat k ∈ st.bytes := by
  simp only [frameStores, mem_bytes, ← UInt32.toNat_inj, toNat_add_ofNat]
  by_cases hlow : k < 8
  · -- one of the two words
    by_cases harg : k < 4
    · refine ⟨⟨esp3 - 80 - 4 - 4, 4⟩, by simp, k, harg, ?_⟩
      simp only [UInt32.toNat_sub, UInt32.toNat_ofNat]
      omega
    · refine ⟨⟨esp3 - 80 - 4, 4⟩, by simp, k - 4, ?_, ?_⟩
      · show k - 4 < 4
        omega
      · simp only [UInt32.toNat_sub, UInt32.toNat_ofNat]
        omega
  · -- the copy
    by_cases hup : CopiesUp (esp3 - 80) cur
    · refine ⟨⟨esp3 - 80 + UInt32.ofNat (4 * ((k - 8) / 4)), 4⟩, ?_, (k - 8) % 4, ?_, ?_⟩
      · rw [memcpyUreg, if_pos hup]
        apply List.mem_append_left
        exact List.mem_map.mpr ⟨(k - 8) / 4, List.mem_range.mpr (by omega), rfl⟩
      · show (k - 8) % 4 < 4
        omega
      · simp only [UInt32.toNat_add, UInt32.toNat_sub, UInt32.toNat_ofNat, UInt32.toNat_ofNat']
        omega
    · refine ⟨⟨esp3 - 80 + 79 - UInt32.ofNat (87 - k), 1⟩, ?_, 0, Nat.one_pos, ?_⟩
      · rw [memcpyUreg, if_neg hup, if_neg hne]
        apply List.mem_append_left
        exact List.mem_map.mpr ⟨87 - k, List.mem_range.mpr (by omega), rfl⟩
      · simp only [UInt32.toNat_add, UInt32.toNat_sub, UInt32.toNat_ofNat, UInt32.toNat_ofNat']
        omega

/-! ## What is carried out -/

section CarriedOut

variable {u : UserMemory} {stores : List Store}

/-- What is carried out has its pages mapped. -/
theorem maps_of_mem_carriedOut {st : Store} (h : st ∈ carriedOut u stores) :
    ∀ a ∈ st.bytes, u.maps a = true := by
  have hall : st.bytes.all u.maps = true :=
    List.mem_takeWhile_imp (p := fun s : Store => s.bytes.all u.maps) h
  exact List.all_eq_true.mp hall

/-- With all pages mapped, all is carried out. -/
theorem carriedOut_eq_self (h : ∀ st ∈ stores, ∀ a ∈ st.bytes, u.maps a = true) :
    carriedOut u stores = stores :=
  List.takeWhile_eq_self_iff.mpr fun st hst => List.all_eq_true.mpr (h st hst)

/-- All is carried out only with all pages mapped. -/
theorem carriedOut_length_iff :
    (carriedOut u stores).length = stores.length ↔ ∀ st ∈ stores, ∀ a ∈ st.bytes, u.maps a = true := by
  constructor
  · intro hlen st hst
    have heq := (List.takeWhile_prefix _).eq_of_length hlen
    rw [← heq] at hst
    exact maps_of_mem_carriedOut hst
  · intro h
    rw [carriedOut_eq_self h]

/-- The first store is carried out when its pages are mapped. -/
theorem head_mem_carriedOut {first : Store} (hfirst : first ∈ stores.head?)
    (h : ∀ a ∈ first.bytes, u.maps a = true) : first ∈ carriedOut u stores := by
  cases stores with
  | nil => cases hfirst
  | cons st rest =>
      obtain rfl : st = first := by simpa using hfirst
      have hall : st.bytes.all u.maps = true := List.all_eq_true.mpr h
      simp [carriedOut, hall]

/-- Nothing is carried out when the first store meets a missing page. -/
theorem carriedOut_eq_nil {first : Store} {a : UInt32} (hfirst : first ∈ stores.head?)
    (ha : a ∈ first.bytes) (h : u.maps a = false) : carriedOut u stores = [] := by
  cases stores with
  | nil => cases hfirst
  | cons st rest =>
      obtain rfl : st = first := by simpa using hfirst
      apply List.takeWhile_cons_of_neg
      intro hall
      rw [List.all_eq_true.mp hall a ha] at h
      cases h

end CarriedOut

/-! ## Exactness -/

section Exact

variable {s : KernelStack} {t : Task} {f : Fault s} {esp3 : UInt32}

/-- The frame lies in user memory. -/
theorem user_of_mem_frame {cur a : UInt32} {st : Store}
    (hhigh : lowestEsp3 ≤ esp3.toNat ∨ esp3 = 0) (hst : st ∈ frameStores esp3 cur)
    (ha : a ∈ st.bytes) : userMemStart ≤ a.toNat := by
  obtain ⟨k, hk, heq⟩ := toNat_of_mem_frame hst ha
  have hlt := esp3.toNat_lt
  rw [heq]
  simp only [lowestEsp3, userMemStart] at hhigh ⊢
  rcases hhigh with h | rfl
  · omega
  · rw [UInt32.toNat_zero]
    omega

/-- A frame in user memory is written completely when the 88 bytes are mapped. -/
theorem frame_mapped_iff (u : UserMemory) (hhigh : lowestEsp3 ≤ esp3.toNat ∨ esp3 = 0) :
    (∀ st ∈ frameStores esp3 f.curUreg, ∀ a ∈ st.bytes, u.maps a = true) ↔
      ∀ k < 88, u.maps (esp3 - 88 + UInt32.ofNat k) = true := by
  have hsrc := f.onStack
  have htop := s.toNat_top
  have hkernel := s.inKernel
  have hlt := esp3.toNat_lt
  have hne : esp3 - 80 ≠ f.curUreg := by
    simp only [lowestEsp3, userMemStart, ← UInt32.toNat_inj, UInt32.toNat_zero] at hhigh hkernel
    simp only [Ne, ← UInt32.toNat_inj, UInt32.toNat_sub, UInt32.toNat_ofNat]
    omega
  constructor
  · intro h k hk
    obtain ⟨st, hst, ha⟩ := exists_store hne hk
    exact h st hst _ ha
  · intro h st hst a ha
    obtain ⟨k, hk, heq⟩ := toNat_of_mem_frame hst ha
    have haddr : a = esp3 - 88 + UInt32.ofNat k := by
      simp only [← UInt32.toNat_inj, toNat_add_ofNat, UInt32.toNat_sub, UInt32.toNat_ofNat, heq]
      omega
    rw [haddr]
    exact h k hk

/-- **A frame in user memory**: only the address of the handler matters. -/
theorem safe_of_high (hinstalled : t.swexnInfo.installedFlag ≠ 0)
    (hhigh : lowestEsp3 ≤ t.swexnInfo.esp3.toNat ∨ t.swexnInfo.esp3 = 0) :
    SafeDelivery f.memory.toUserMemory (getRealHandler t f) ↔
      (userMemStart ≤ t.swexnInfo.eip.toNat ∨
        ∃ k < 88, f.memory.maps (t.swexnInfo.esp3 - 88 + UInt32.ofNat k) = false) := by
  have hall := (carriedOut_length_iff (u := f.memory.toUserMemory)).trans
    (frame_mapped_iff (f := f) f.memory.toUserMemory hhigh)
  have hwritten : ∀ a ∈ (getRealHandler t f).written,
      userMemStart ≤ a.toNat ∧ f.memory.maps a = true := by
    intro a ha
    rw [getRealHandler, if_neg hinstalled] at ha
    obtain ⟨st, hst, hast⟩ := List.mem_flatMap.mp ha
    have hframe := List.takeWhile_subset _ hst
    exact ⟨user_of_mem_frame hhigh hframe hast, maps_of_mem_carriedOut hst a hast⟩
  have heip : (∀ c ∈ (getRealHandler t f).handler, userMemStart ≤ c.eip.toNat) ↔
      ((∀ k < 88, f.memory.maps (t.swexnInfo.esp3 - 88 + UInt32.ofNat k) = true) →
        userMemStart ≤ t.swexnInfo.eip.toNat) := by
    rw [getRealHandler, if_neg hinstalled, ← hall]
    simp [handlerCpu, userRegisters]
  constructor
  · intro safe
    by_cases hmapped : ∀ k < 88, f.memory.maps (t.swexnInfo.esp3 - 88 + UInt32.ofNat k) = true
    · exact Or.inl (heip.mp safe.eip hmapped)
    · right
      simpa using hmapped
  · rintro (huser | ⟨k, hk, hmissing⟩)
    · exact ⟨hwritten, heip.mpr fun _ => huser⟩
    · refine ⟨hwritten, heip.mpr fun hmapped => ?_⟩
      rw [hmapped k hk] at hmissing
      cases hmissing

/-- The first store of the frame. -/
theorem frame_head (esp3 cur : UInt32) :
    (frameStores esp3 cur).head? = some
      (if CopiesUp (esp3 - 80) cur then ⟨esp3 - 80 + UInt32.ofNat 0, 4⟩
      else if esp3 - 80 = cur then ⟨esp3 - 80 - 4, 4⟩
      else ⟨esp3 - 80 + 79 - UInt32.ofNat 0, 1⟩) := by
  unfold frameStores memcpyUreg
  split_ifs <;> rfl

/-- A frame with each byte in the kernel, or in one page that is mapped. -/
theorem frame_mapped_of_page (u : ProcessMemory) {cur b : UInt32} (hb : u.maps b = true)
    (hpage : ∀ k < 88, (esp3.toNat + (2 ^ 32 - 88) + k) % 2 ^ 32 < userMemStart ∨
      (esp3.toNat + (2 ^ 32 - 88) + k) % 2 ^ 32 / 4096 = b.toNat / 4096) :
    ∀ st ∈ frameStores esp3 cur, ∀ a ∈ st.bytes, u.maps a = true := by
  intro st hst a ha
  obtain ⟨k, hk, heq⟩ := toNat_of_mem_frame hst ha
  rcases hpage k hk with hkernel | hsame
  · exact u.maps_kernel (by omega)
  · rw [← heq] at hsame
    exact (maps_congr u.toUserMemory hsame).trans hb

/-- Such a frame is written completely, and its bytes in the kernel are written. -/
theorem writes_kernel_of_page (u : ProcessMemory) {cur b : UInt32} (hne : esp3 - 80 ≠ cur)
    (hb : u.maps b = true)
    (hpage : ∀ k < 88, (esp3.toNat + (2 ^ 32 - 88) + k) % 2 ^ 32 < userMemStart ∨
      (esp3.toNat + (2 ^ 32 - 88) + k) % 2 ^ 32 / 4096 = b.toNat / 4096) {k : Nat} (hk : k < 88)
    (hkernel : (esp3.toNat + (2 ^ 32 - 88) + k) % 2 ^ 32 < userMemStart) :
    ∃ st ∈ carriedOut u.toUserMemory (frameStores esp3 cur), ∃ a ∈ st.bytes,
      a.toNat < userMemStart := by
  obtain ⟨st, hst, ha⟩ := exists_store hne hk
  refine ⟨st, ?_, _, ha, ?_⟩
  · rw [carriedOut_eq_self (frame_mapped_of_page u hb hpage)]
    exact hst
  · simp only [toNat_add_ofNat, UInt32.toNat_sub, UInt32.toNat_ofNat]
    omega

/-- **A frame not in user memory**: once the first store is carried out, the kernel is written. -/
theorem writes_kernel (hlow : esp3.toNat < lowestEsp3) (hpos : 0 < esp3.toNat) {first : Store}
    (hfirst : first ∈ (frameStores esp3 f.curUreg).head?)
    (hmapped : ∀ a ∈ first.bytes, f.memory.maps a = true) :
    ∃ st ∈ carriedOut f.memory.toUserMemory (frameStores esp3 f.curUreg), ∃ a ∈ st.bytes,
      a.toNat < userMemStart := by
  have hdone := head_mem_carriedOut hfirst hmapped
  have hsrc := f.onStack
  have htop := s.toNat_top
  have hkernel := s.inKernel
  have hbase := s.base_pos
  simp only [lowestEsp3, userMemStart] at hlow hkernel
  -- the first byte of the first store
  have hbyte (hsize : 0 < first.size) : first.addr ∈ first.bytes :=
    mem_bytes.mpr ⟨0, hsize, by simp⟩
  rw [frame_head, Option.mem_some_iff] at hfirst
  by_cases hup : CopiesUp (esp3 - 80) f.curUreg
  · rw [if_pos hup] at hfirst
    subst hfirst
    have haddr : (esp3 - 80 + UInt32.ofNat 0).toNat = (esp3.toNat + (2 ^ 32 - 80)) % 2 ^ 32 := by
      simp only [toNat_add_ofNat, UInt32.toNat_sub, UInt32.toNat_ofNat]
      omega
    have hbyte := hbyte (Nat.succ_pos 3)
    by_cases hdest : (esp3.toNat + (2 ^ 32 - 80)) % 2 ^ 32 < userMemStart
    · -- the copy begins in the kernel
      exact ⟨_, hdone, _, hbyte, by rw [haddr]; exact hdest⟩
    · -- it begins in the last page below 2 ^ 32, or in the first page of the user
      rw [userMemStart] at hdest
      have hne : esp3 - 80 ≠ f.curUreg := by
        simp only [Ne, ← UInt32.toNat_inj, UInt32.toNat_sub, UInt32.toNat_ofNat]
        omega
      by_cases hwrap : esp3.toNat < 80
      · refine writes_kernel_of_page f.memory hne (hmapped _ hbyte) (fun k hk => ?_)
          (show 88 - esp3.toNat < 88 by omega) ?_
        · rw [haddr, userMemStart]
          omega
        · rw [userMemStart]
          omega
      · refine writes_kernel_of_page f.memory hne (hmapped _ hbyte) (fun k hk => ?_)
          (show 0 < 88 by omega) ?_
        · rw [haddr, userMemStart]
          omega
        · rw [userMemStart]
          omega
  · rw [if_neg hup] at hfirst
    by_cases heq : esp3 - 80 = f.curUreg
    · -- nothing is copied; the next word is on the kernel stack
      rw [if_pos heq] at hfirst
      subst hfirst
      refine ⟨_, hdone, _, hbyte (Nat.succ_pos 3), ?_⟩
      simp only [heq, UInt32.toNat_sub, UInt32.toNat_ofNat, userMemStart]
      omega
    · -- the copy runs down into the kernel
      rw [if_neg heq] at hfirst
      subst hfirst
      have hbyte := hbyte Nat.one_pos
      have haddr : (esp3 - 80 + 79 - UInt32.ofNat 0).toNat =
          (esp3.toNat + (2 ^ 32 - 1)) % 2 ^ 32 := by
        simp only [UInt32.toNat_add, UInt32.toNat_sub, UInt32.toNat_ofNat, UInt32.toNat_ofNat']
        omega
      simp only [CopiesUp, not_or, UInt32.le_iff_toNat_le, UInt32.lt_iff_toNat_lt,
        UInt32.toNat_add, UInt32.toNat_sub, UInt32.toNat_ofNat] at hup
      by_cases hbelow : esp3.toNat ≤ userMemStart
      · refine ⟨_, hdone, _, hbyte, ?_⟩
        rw [haddr, userMemStart]
        rw [userMemStart] at hbelow
        omega
      · rw [userMemStart] at hbelow
        refine writes_kernel_of_page f.memory heq (hmapped _ hbyte) (fun k hk => ?_)
          (show 8 < 88 by omega) ?_
        · rw [haddr, userMemStart]
          omega
        · rw [userMemStart]
          omega

theorem frameStores_ne_nil (esp3 cur : UInt32) : frameStores esp3 cur ≠ [] := by
  simp [frameStores]

/-- **A frame not in user memory**: the first store must meet a missing page. -/
theorem safe_of_low (hinstalled : t.swexnInfo.installedFlag ≠ 0)
    (hlow : ¬(lowestEsp3 ≤ t.swexnInfo.esp3.toNat ∨ t.swexnInfo.esp3 = 0)) :
    SafeDelivery f.memory.toUserMemory (getRealHandler t f) ↔
      ∃ first ∈ (frameStores t.swexnInfo.esp3 f.curUreg).head?, ∃ a ∈ first.bytes,
        f.memory.maps a = false := by
  rw [not_or, Nat.not_le, ← UInt32.toNat_inj] at hlow
  have hpos : 0 < t.swexnInfo.esp3.toNat := Nat.pos_of_ne_zero hlow.2
  rw [getRealHandler, if_neg hinstalled]
  constructor
  · intro safe
    by_contra hmapped
    have hfirst := frame_head t.swexnInfo.esp3 f.curUreg
    obtain ⟨st, hst, a, ha, hkernel⟩ := writes_kernel hlow.1 hpos hfirst fun a ha => by
      by_contra hmissing
      exact hmapped ⟨_, hfirst, a, ha, by simpa using hmissing⟩
    have := (safe.written a (List.mem_flatMap.mpr ⟨st, hst, ha⟩)).1
    omega
  · rintro ⟨first, hfirst, a, ha, hmissing⟩
    have hnil : carriedOut f.memory.toUserMemory (frameStores t.swexnInfo.esp3 f.curUreg) = [] :=
      carriedOut_eq_nil hfirst ha hmissing
    have hlen : (0 : Nat) ≠ (frameStores t.swexnInfo.esp3 f.curUreg).length :=
      (List.length_pos_of_ne_nil (frameStores_ne_nil _ _)).ne
    simp only [hnil, List.length_nil, if_neg hlen]
    exact ⟨by simp, by simp⟩

/-- **Safe exactly with a careful handler**, at every fault. -/
theorem safeDelivery_iff (t : Task) (f : Fault s) :
    SafeDelivery f.memory.toUserMemory (getRealHandler t f) ↔ CarefulHandler t f := by
  unfold CarefulHandler
  by_cases hinstalled : t.swexnInfo.installedFlag = 0
  · -- without a handler nothing is written
    rw [getRealHandler, if_pos hinstalled]
    exact ⟨fun _ => Or.inl hinstalled, fun _ => ⟨by simp, by simp⟩⟩
  · simp only [hinstalled, false_or]
    split_ifs with hhigh
    · exact safe_of_high hinstalled hhigh
    · exact safe_of_low hinstalled hhigh

end Exact

/-- **Every delivery is safe exactly when every handler is careful**, in every history of calls of
`swexn` and of faults. -/
theorem safe_iff_careful {s : KernelStack} (t : Task) (es : List (Event s)) (t' : Option Task) :
    Run (Satisfying Step SafeEvent) (some t) es t' ↔ Run (Guarded Step CarefulEvent) (some t) es t' := by
  refine Run.satisfying_iff_guarded (I := fun _ => True) trivial (fun _ _ _ _ _ => trivial) ?_
  intro u e v _ _
  constructor
  · intro safe task f hu he
    exact (safeDelivery_iff task f).mp (safe task f hu he)
  · intro careful task f hu he
    exact (safeDelivery_iff task f).mpr (careful task f hu he)

/-- A stack in the image of the kernel is accepted, and the first fault writes below it. -/
theorem frame_in_kernel :
    let s : KernelStack := ⟨0x00200000, by decide, by decide⟩
    let f : Fault s := ⟨ProcessMemory.init 0, 0x00200f94, default, by decide⟩
    let t : Task := ⟨default, default, []⟩
    let r := t.sysSwexn s.top 0x00150000 0x01000000 0 0 none
    r.2 = 0 ∧ 0x0014ffb0 ∈ (getRealHandler r.1 f).written ∧
      ¬SafeDelivery f.memory.toUserMemory (getRealHandler r.1 f) := by
  refine ⟨by decide, by decide +kernel, fun safe => ?_⟩
  have hkernel := (safe.written 0x0014ffb0 (by decide +kernel)).1
  exact absurd hkernel (by decide)

end Pebbles.Exception
