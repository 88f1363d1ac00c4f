import Pebbles.Library.TwoRuns
import Pebbles.Memory.Isolation
import Pebbles.Process.Creation

/-! # The state a program starts in

What `sys_exec` (`kern/process/sys_exec.c`) hands to a new program: its memory, as the program sees
it through the new page directory, the registers, the list of regions and the handler. The memory
is the one of the kernel up to the choice of frames: `execPages_iff` says that the pages are those
of the paging code. `startsClean_iff` says what of the old image shows in the new one. -/

namespace Pebbles.Memory

open TwoRuns Transition

/-! ## User memory -/

/-- The memory behind a page directory. -/
structure UserMemory where
  /-- Whether the entry `i`, `j` maps a page. -/
  mapped : Nat → Nat → Bool
  /-- The byte at each address. -/
  bytes : UInt32 → UInt8

namespace UserMemory

/-- The page of the address `a` is mapped. -/
def maps (u : UserMemory) (a : UInt32) : Bool := u.mapped (vaPdInd a.toNat) (vaPtInd a.toNat)

/-- `init_pd`: the pages of the kernel. What a frame holds before it is mapped shows in `found`. -/
def initPd (found : UInt32 → UInt8) : UserMemory := ⟨fun i _ => decide (i < 4), found⟩

/-- `virtual_map_physical`, with the `memset` at its end. -/
def virtualMapPhysical (u : UserMemory) (i j : Nat) : Option UserMemory :=
  if i < pageLen then
    if u.mapped i j then some u
    else some {
      mapped := fun i' j' => if i' = i ∧ j' = j then true else u.mapped i' j'
      bytes := fun a => if vaPdInd a.toNat = i ∧ vaPtInd a.toNat = j then 0 else u.bytes a }
  else none

/-- `allocate_pages`. -/
def allocatePages (u : UserMemory) (addr size : UInt32) : Option UserMemory :=
  (pageRange addr.toNat size.toNat).foldlM (fun u p => u.virtualMapPhysical p.1 p.2) u

/-- Stores of the kernel to the bytes from `a` on. Where a page is missing the kernel faults. -/
def store (u : UserMemory) (a : UInt32) (bs : List UInt8) : Option UserMemory :=
  if (List.range bs.length).all fun k => u.maps (a + UInt32.ofNat k) then
    some { u with bytes := fun b => (bs[(b - a).toNat]?).getD (u.bytes b) }
  else none

end UserMemory

/-! ## Programs -/

/-- A program: its header and the bytes of its file. -/
structure Program where
  /-- The segments. -/
  header : ElfHeader
  /-- `e_entry`. -/
  entry : UInt32
  /-- `execbytes`. -/
  execbytes : Nat → UInt8
  /-- `e_txtoff`. -/
  txtOff : UInt32
  /-- `e_rodatoff`. -/
  rodatOff : UInt32
  /-- `e_datoff`. -/
  datOff : UInt32

/-- What `getbytes` copies. -/
def Program.getbytes (p : Program) (offset size : UInt32) : List UInt8 :=
  (List.range size.toNat).map fun k => p.execbytes (offset.toNat + k)

/-- `program_loader`, into a new address space. -/
def UserMemory.programLoader (p : Program) (u : UserMemory) : Option UserMemory :=
  let h := p.header
  -- the pages of all segments and of the stack come first, then what they hold
  (u.allocatePages h.txtStart h.txtLen).bind fun u =>
    (u.allocatePages h.rodatStart h.rodatLen).bind fun u =>
      (u.allocatePages h.bssStart h.bssLen).bind fun u =>
        (u.allocatePages h.datStart h.datLen).bind fun u =>
          (u.allocatePages 0xffffe000 8192).bind fun u =>
            (u.store h.datStart (p.getbytes p.datOff h.datLen)).bind fun u =>
              (u.store h.txtStart (p.getbytes p.txtOff h.txtLen)).bind fun u =>
                (u.store h.rodatStart (p.getbytes p.rodatOff h.rodatLen)).bind fun u =>
                  if 0 < (h.datLen + h.txtLen + h.rodatLen).toInt32.toInt then
                    u.store h.bssStart (List.replicate h.bssLen.toNat 0)
                  else none

/-! ## The call -/

/-- What `sys_exec` leaves of a process and of its thread. -/
structure Task where
  /-- The saved registers. -/
  registers : Ureg
  /-- The handler. -/
  swexnInfo : SwexnInfo
  /-- The list of regions. -/
  va : List VaInfo

/-- What happens to be around a `sys_exec`. -/
structure Around where
  /-- What the frames hold that are going to be mapped, at their new addresses. -/
  found : UInt32 → UInt8
  /-- The words of the kernel stack above `vector`. -/
  above : Nat → UInt32
  /-- `strlen(NULL)`: the string at the address 0. -/
  strlenNull : Nat

/-- The state a new program starts in. -/
structure Start where
  /-- Its memory. -/
  memory : UserMemory
  /-- Its registers, handler and regions. -/
  task : Task

/-- A word in memory. -/
def wordBytes (w : UInt32) : List UInt8 :=
  [w.toUInt8, (w >>> 8).toUInt8, (w >>> 16).toUInt8, (w >>> 24).toUInt8]

/-- The checks of the arguments: their number, and the length of all but the first. The loop also
takes the length of the `NULL` at the end. -/
def argumentsFit (argv : List (List UInt8)) (e : Around) : Bool :=
  argv.length ≤ 100 && argv.tail.all (fun s => s.length ≤ 50) &&
    (argv.isEmpty || e.strlenNull ≤ 50)

/-- The strings on the new stack, each below the one before; `vector` holds where they are. -/
def pushStrings (argv : List (List UInt8)) (u : UserMemory) :
    Option (UserMemory × UInt32 × List UInt32) :=
  argv.foldlM (fun (r : UserMemory × UInt32 × List UInt32) string =>
    let dest := r.2.1 - UInt32.ofNat (string.length + 1)
    (r.1.store dest (string ++ [0])).map fun u => (u, dest, r.2.2 ++ [dest]))
    (u, 0xffffffff, [])

/-- The five words from `vector` on, which has one word for each argument and a `NULL`. -/
def vectorWords (vector : List UInt32) (above : Nat → UInt32) : List UInt32 :=
  (List.range 5).map fun k =>
    if h : k < vector.length then vector[k]
    else if k = vector.length then 0
    else above (k - vector.length - 1)

/-- The 20 bytes that `memcpy` takes from `vector` on. -/
def vectorBytes (vector : List UInt32) (above : Nat → UInt32) : List UInt8 :=
  (vectorWords vector above).flatMap wordBytes

/-- The stores through the saved stack pointer, with what becomes of it. -/
def pushCall (argc dest : UInt32) (u : UserMemory) (esp : UInt32) : Option (UserMemory × UInt32) :=
  (u.store esp (wordBytes 0xffffc000)).bind fun u =>
    (u.store (esp - 4) (wordBytes 0xffffffff)).bind fun u =>
      (u.store (esp - 4 - 4) (wordBytes dest)).bind fun u =>
        (u.store (esp - 4 - 4 - 4) (wordBytes argc)).map fun u => (u, esp - 4 - 4 - 4 - 4)

/-- `sys_exec`, when `execname` and `argvec` are good pointers and the program is there. -/
def Task.sysExec (t : Task) (p : Program) (argv : List (List UInt8)) (e : Around) :
    Option Start :=
  if argumentsFit argv e then
    ((UserMemory.initPd e.found).programLoader p).bind fun u =>
      (pushStrings argv u).bind fun (u, dest, vector) =>
        let dest := dest - 20
        (u.store dest (vectorBytes vector e.above)).bind fun u =>
          (pushCall (UInt32.ofNat argv.length) dest u t.registers.esp).map fun (u, esp) =>
            ⟨u, { t with registers := { t.registers with eip := p.entry, esp := esp } }⟩
  else none

/-! ## What a process did before -/

/-- `ALLOWED_BITS`: the flags a handler may change. -/
def allowedBits : UInt32 := 0x40cd5

/-- The causes that `is_valid_newureg` knows. -/
def swexnCauses : List UInt32 :=
  [0x00, 0x01, 0x03, 0x04, 0x05, 0x06, 0x07, 0x0b, 0x0d, 0x0e, 0x10, 0x11, 0x13]

/-- `is_valid_newureg`, where `newureg` is `NULL` or points to registers. -/
def isValidNewureg (t : Task) (kernStackHigh : UInt32) : Option Ureg → Bool
  | none => true
  | some newureg =>
      let changedbit := newureg.eflags ^^^ t.swexnInfo.eflags
      let mask := changedbit ^^^ allowedBits
      swexnCauses.contains newureg.cause && newureg.cs == segselUserCs &&
        newureg.ds == segselUserDs && kernStackHigh < newureg.ebp &&
        kernStackHigh < newureg.esp && kernStackHigh < newureg.eip &&
        changedbit ||| mask == allowedBits

/-- `sys_swexn`, where `newureg` is an address and `registers` what it points to. -/
def Task.sysSwexn (t : Task) (kernStackHigh esp3 eip arg newureg : UInt32)
    (registers : Option Ureg) : Task × Int :=
  if isValidNewureg t kernStackHigh registers = false then (t, -1)
  else if esp3 = 0 ∨ eip = 0 then ({ t with swexnInfo := ⟨0, 0, 0, 0, 0, 0⟩ }, 0)
  else ({ t with swexnInfo := { t.swexnInfo with
    esp3 := esp3, eip := eip, arg := arg, newureg := newureg, installedFlag := 1 } }, 0)

/-- What `sys_fork` and `sys_thread_fork` store of the kernel stack, with the new `eax`. -/
def forkRegisters (r : Ureg) (kernelStack : Nat → UInt32) (eax : UInt32) : Ureg :=
  { r with
    ss := kernelStack 14, esp := kernelStack 13, eflags := kernelStack 12, cs := kernelStack 11
    eip := kernelStack 10, ebp := kernelStack 9, edi := kernelStack 8, esi := kernelStack 7
    edx := kernelStack 6, ecx := kernelStack 5, ebx := kernelStack 4, eax := eax }

/-- What a process can do that shows in its `Task`. -/
inductive Past where
  /-- `new_pages` succeeded. -/
  | newPages (region : VaInfo)
  /-- `remove_pages` succeeded. -/
  | removePages (addr : Nat)
  /-- A call of `swexn`. -/
  | swexn (kernStackHigh esp3 eip arg newureg : UInt32) (registers : Option Ureg)
  /-- It forked, and got the value `eax`. -/
  | forks (kernelStack : Nat → UInt32) (eax : UInt32)
  /-- It goes on as the child of its own fork, with the handler found in the new block. -/
  | forked (kernelStack : Nat → UInt32) (found : SwexnInfo)
  /-- `exec` succeeded. -/
  | exec (p : Program) (argv : List (List UInt8)) (e : Around)

/-- One step of the past. -/
def Task.after (t : Task) : Past → Option Task
  | .newPages region => some { t with va := t.va ++ [region] }
  | .removePages addr => some { t with va := t.va.eraseP fun r => r.virtualAddr = addr }
  | .swexn kernStackHigh esp3 eip arg newureg registers =>
      some (t.sysSwexn kernStackHigh esp3 eip arg newureg registers).1
  | .forks kernelStack eax =>
      some { t with registers := forkRegisters t.registers kernelStack eax }
  | .forked kernelStack found =>
      some ⟨forkRegisters t.registers kernelStack 0, found, []⟩
  | .exec p argv e => (t.sysExec p argv e).map Start.task

/-! ## Two starts -/

/-- The registers that `enter_user_mode` loads; the segment registers it sets itself. -/
structure UserRegisters where
  /-- Register `edi`. -/
  edi : UInt32
  /-- Register `esi`. -/
  esi : UInt32
  /-- Register `ebp`. -/
  ebp : UInt32
  /-- Register `ebx`. -/
  ebx : UInt32
  /-- Register `edx`. -/
  edx : UInt32
  /-- Register `ecx`. -/
  ecx : UInt32
  /-- Register `eax`. -/
  eax : UInt32
  /-- The instruction pointer. -/
  eip : UInt32
  /-- Code segment. -/
  cs : UInt32
  /-- The flags. -/
  eflags : UInt32
  /-- The stack pointer. -/
  esp : UInt32
  /-- Stack segment. -/
  ss : UInt32
  deriving DecidableEq

/-- The arguments of `enter_user_mode`. -/
def userRegisters (r : Ureg) : UserRegisters :=
  ⟨r.edi, r.esi, r.ebp, r.ebx, r.edx, r.ecx, r.eax, r.eip, r.cs, r.eflags, r.esp, r.ss⟩

/-- Two memories have the same pages, with the same bytes in those of the user. -/
structure UserMemory.Alike (u u' : UserMemory) : Prop where
  /-- The pages. -/
  mapped : ∀ i j, u.mapped i j = u'.mapped i j
  /-- The bytes. -/
  bytes : ∀ a, userMemStart ≤ a.toNat → u.maps a = true → u.bytes a = u'.bytes a

/-- **A clean slate**: two programs start in the same state, with no regions and no handler. -/
structure CleanSlate (s s' : Start) : Prop where
  /-- The pages and what they hold. -/
  memory : s.memory.Alike s'.memory
  /-- The registers. -/
  registers : userRegisters s.task.registers = userRegisters s'.task.registers
  /-- The regions. -/
  va : s.task.va = [] ∧ s'.task.va = []
  /-- The handler. -/
  handler : s.task.swexnInfo.installedFlag = 0 ∧ s'.task.swexnInfo.installedFlag = 0

/-- Where the strings end on the new stack. -/
def stringsEnd (argv : List (List UInt8)) : UInt32 :=
  argv.foldl (fun dest string => dest - UInt32.ofNat (string.length + 1)) 0xffffffff

/-- The address is that of a user, and not among the four words stored below and at `esp`. -/
def Stays (esp b : UInt32) : Prop := userMemStart ≤ b.toNat ∧ 16 ≤ (b - (esp - 12)).toNat

/-- **The old images have left nothing behind**: the saved registers agree, `eip` apart, there are
no regions and no handlers. With fewer than four arguments, the words found above `vector` agree
in the bytes that stay. -/
structure NothingLeft (t t' : Task) (argv : List (List UInt8)) (e e' : Around) : Prop where
  /-- The registers. -/
  registers : userRegisters { t.registers with eip := 0 } =
    userRegisters { t'.registers with eip := 0 }
  /-- The regions. -/
  va : t.va = [] ∧ t'.va = []
  /-- The handlers. -/
  handler : t.swexnInfo.installedFlag = 0 ∧ t'.swexnInfo.installedFlag = 0
  /-- The kernel stack. -/
  above : ∀ k n, argv.length + 1 + k < 5 → n < 4 →
    Stays t.registers.esp (stringsEnd argv - 20 + UInt32.ofNat (4 * (argv.length + 1 + k) + n)) →
      (wordBytes (e.above k))[n]? = (wordBytes (e'.above k))[n]?

/-! ## The same steps in two memories -/

namespace UserMemory

variable {u u' v v' : UserMemory}

/-- The new page is cleared on both sides. -/
theorem Alike.virtualMapPhysical (h : u.Alike u') (i j : Nat) :
    Both Alike (u.virtualMapPhysical i j) (u'.virtualMapPhysical i j) := by
  refine Both.guard ?_
  rw [← h.mapped i j]
  by_cases hm : u.mapped i j = true
  · rw [if_pos hm, if_pos hm]
    exact Both.some h
  · rw [if_neg hm, if_neg hm]
    refine Both.some ⟨fun i' j' => by simp only [h.mapped], fun a ha hma => ?_⟩
    dsimp only
    by_cases hp : vaPdInd a.toNat = i ∧ vaPtInd a.toNat = j
    · rw [if_pos hp, if_pos hp]
    · rw [if_neg hp, if_neg hp]
      refine h.bytes a ha ?_
      rw [maps] at hma ⊢
      simpa only [hp, if_false] using hma

theorem Alike.allocatePages (h : u.Alike u') (addr size : UInt32) :
    Both Alike (u.allocatePages addr size) (u'.allocatePages addr size) :=
  Both.foldlM (fun _ _ _ _ hab => hab.virtualMapPhysical _ _) h

theorem Alike.store (h : u.Alike u') (a : UInt32) (bs : List UInt8) :
    Both Alike (u.store a bs) (u'.store a bs) := by
  refine Both.guard (Both.some ⟨h.mapped, fun b hb hm => ?_⟩)
  dsimp only
  rw [h.bytes b hb hm]

theorem Alike.programLoader (h : u.Alike u') (p : Program) :
    Both Alike (u.programLoader p) (u'.programLoader p) := by
  refine (h.allocatePages _ _).bind fun _ _ h => ?_
  refine (h.allocatePages _ _).bind fun _ _ h => ?_
  refine (h.allocatePages _ _).bind fun _ _ h => ?_
  refine (h.allocatePages _ _).bind fun _ _ h => ?_
  refine (h.allocatePages _ _).bind fun _ _ h => ?_
  -- the pages are there; now what they hold
  refine (h.store _ _).bind fun _ _ h => ?_
  refine (h.store _ _).bind fun _ _ h => ?_
  refine (h.store _ _).bind fun _ _ h => ?_
  exact Both.guard (h.store _ _)

/-- The strings end up at the same places. -/
theorem Alike.pushStrings (h : u.Alike u') (argv : List (List UInt8)) :
    Both (fun r r' : UserMemory × UInt32 × List UInt32 => r.1.Alike r'.1 ∧ r.2 = r'.2)
      (pushStrings argv u) (pushStrings argv u') := by
  refine Both.foldlM ?_ ⟨h, rfl⟩
  rintro string - ⟨w, rest⟩ ⟨w', rest'⟩ ⟨hw, rfl⟩
  exact (hw.store _ _).map fun _ _ h => ⟨h, rfl⟩

/-- A new address space has no pages of the user. -/
theorem alike_initPd (found found' : UInt32 → UInt8) : (initPd found).Alike (initPd found') where
  mapped _ _ := rfl
  bytes a ha hm := by
    have hlow : vaPdInd a.toNat < 4 := of_decide_eq_true hm
    rw [vaPdInd, Nat.shiftRight_eq_div_pow] at hlow
    rw [userMemStart] at ha
    omega

/-- What a store does. -/
theorem store_spec {a : UInt32} {bs : List UInt8} (h : u.store a bs = some v) :
    v.mapped = u.mapped ∧ (∀ b, v.bytes b = (bs[(b - a).toNat]?).getD (u.bytes b)) ∧
      ∀ k < bs.length, u.maps (a + UInt32.ofNat k) = true := by
  obtain ⟨hall, h⟩ := Option.ite_none_right_eq_some.mp h
  obtain rfl := Option.some.inj h
  exact ⟨rfl, fun _ => rfl, fun k hk => List.all_eq_true.mp hall k (List.mem_range.mpr hk)⟩

end UserMemory

/-! ## The new stack -/

section
variable {u v : UserMemory} {argc dest esp esp' : UInt32} {argv : List (List UInt8)}
  {vector : List UInt32} {above : Nat → UInt32}

/-- Where the strings are does not depend on the memory. -/
theorem pushStrings_spec (h : pushStrings argv u = some (v, dest, vector)) :
    dest = stringsEnd argv ∧ vector.length = argv.length := by
  suffices hloop : ∀ (argv : List (List UInt8)) (r : UserMemory × UInt32 × List UInt32),
      argv.foldlM (fun (r : UserMemory × UInt32 × List UInt32) string =>
        (r.1.store (r.2.1 - UInt32.ofNat (string.length + 1)) (string ++ [0])).map fun u =>
          (u, r.2.1 - UInt32.ofNat (string.length + 1),
            r.2.2 ++ [r.2.1 - UInt32.ofNat (string.length + 1)])) r = some (v, dest, vector) →
      dest = argv.foldl (fun d string => d - UInt32.ofNat (string.length + 1)) r.2.1 ∧
        vector.length = r.2.2.length + argv.length by
    obtain ⟨hd, hl⟩ := hloop argv _ h
    exact ⟨hd, hl.trans (Nat.zero_add _)⟩
  intro argv
  induction argv with
  | nil =>
      intro r hr
      obtain rfl := Option.some.inj hr
      exact ⟨rfl, rfl⟩
  | cons string argv ih =>
      intro r hr
      rw [List.foldlM_cons] at hr
      obtain ⟨r', hr', hrest⟩ := Option.bind_eq_some_iff.mp hr
      obtain ⟨w, -, rfl⟩ := Option.map_eq_some_iff.mp hr'
      obtain ⟨hd, hl⟩ := ih _ hrest
      refine ⟨hd, hl.trans ?_⟩
      rw [List.length_append, List.length_singleton, List.length_cons]
      omega

/-- Words are four bytes each. -/
theorem flatMap_wordBytes_get (l : List UInt32) {i n : Nat} (hn : n < 4) :
    (l.flatMap wordBytes)[4 * i + n]? = l[i]?.bind fun w => (wordBytes w)[n]? := by
  induction l generalizing i with
  | nil => simp
  | cons w l ih =>
      have hlen : (wordBytes w).length = 4 := rfl
      rw [List.flatMap_cons]
      cases i with
      | zero =>
          rw [List.getElem?_append_left (by omega)]
          simp
      | succ i =>
          rw [List.getElem?_append_right (by omega), hlen, List.getElem?_cons_succ,
            show 4 * (i + 1) + n - 4 = 4 * i + n by omega]
          exact ih

/-- The words from `vector` on. -/
theorem vectorWords_get {k : Nat} (hk : k < 5) : (vectorWords vector above)[k]? =
    some (if h : k < vector.length then vector[k]
      else if k = vector.length then 0 else above (k - vector.length - 1)) := by
  rw [vectorWords, List.getElem?_map, List.getElem?_range hk, Option.map_some]

/-- Two stores one above the other are one store. -/
theorem getD_adjacent {l l' : List UInt8} (hl : l.length = 4) (a b : UInt32) (x : UInt8) :
    (l[(b - (a - 4)).toNat]?).getD ((l'[(b - a).toNat]?).getD x) =
      ((l ++ l')[(b - (a - 4)).toNat]?).getD x := by
  have hindex : (b - (a - 4)).toNat = ((b - a).toNat + 4) % 2 ^ 32 := by
    have ha := a.toNat_lt
    have hb := b.toNat_lt
    simp only [UInt32.toNat_sub, UInt32.reduceToNat]
    omega
  have hlt := (b - a).toNat_lt
  by_cases hover : (b - a).toNat + 4 < 2 ^ 32
  · rw [hindex, Nat.mod_eq_of_lt hover, List.getElem?_eq_none (by omega),
      List.getElem?_append_right (by omega), hl, Nat.add_sub_cancel, Option.getD_none]
  · have hlow : (b - (a - 4)).toNat < l.length := by omega
    rw [List.getElem?_append_left hlow, List.getElem?_eq_getElem hlow]
    rfl

/-- What the last stores write, the lowest byte first. -/
def callBytes (argc dest : UInt32) : List UInt8 :=
  wordBytes argc ++ (wordBytes dest ++ (wordBytes 0xffffffff ++ wordBytes 0xffffc000))

/-- The last stores write 16 bytes. -/
theorem pushCall_spec (h : pushCall argc dest u esp = some (v, esp')) :
    esp' = esp - 4 - 4 - 4 - 4 ∧ v.mapped = u.mapped ∧
      ∀ b, v.bytes b = ((callBytes argc dest)[(b - (esp - 4 - 4 - 4)).toNat]?).getD (u.bytes b) := by
  obtain ⟨u1, h1, h⟩ := Option.bind_eq_some_iff.mp h
  obtain ⟨u2, h2, h⟩ := Option.bind_eq_some_iff.mp h
  obtain ⟨u3, h3, h⟩ := Option.bind_eq_some_iff.mp h
  obtain ⟨u4, h4, h⟩ := Option.map_eq_some_iff.mp h
  obtain ⟨rfl, rfl⟩ := Prod.mk.inj h
  obtain ⟨m1, b1, -⟩ := UserMemory.store_spec h1
  obtain ⟨m2, b2, -⟩ := UserMemory.store_spec h2
  obtain ⟨m3, b3, -⟩ := UserMemory.store_spec h3
  obtain ⟨m4, b4, -⟩ := UserMemory.store_spec h4
  refine ⟨rfl, m4.trans (m3.trans (m2.trans m1)), fun b => ?_⟩
  rw [b4, b3, b2, b1, getD_adjacent rfl esp b, getD_adjacent rfl (esp - 4) b,
    getD_adjacent rfl (esp - 4 - 4) b]
  rfl

/-- Of the words from `vector` on, only those above it can differ. -/
theorem vectorBytes_agree_iff {above' : Nat → UInt32} {i n : Nat} (hi : i < 5) (hn : n < 4) :
    (vectorBytes vector above)[4 * i + n]? = (vectorBytes vector above')[4 * i + n]? ↔
      (vector.length < i → (wordBytes (above (i - vector.length - 1)))[n]?
        = (wordBytes (above' (i - vector.length - 1)))[n]?) := by
  rw [vectorBytes, vectorBytes, flatMap_wordBytes_get _ hn, flatMap_wordBytes_get _ hn,
    vectorWords_get hi, vectorWords_get hi, Option.bind_some, Option.bind_some]
  rcases Nat.lt_trichotomy i vector.length with hlt | heq | hgt
  · rw [dif_pos hlt, dif_pos hlt]
    exact iff_of_true rfl fun h => absurd h (by omega)
  · rw [dif_neg (by omega), if_pos heq, dif_neg (by omega), if_pos heq]
    exact iff_of_true rfl fun h => absurd h (by omega)
  · rw [dif_neg (by omega), if_neg (by omega), dif_neg (by omega), if_neg (by omega)]
    exact (imp_iff_right hgt).symm

/-- Reading bytes that are there. -/
theorem getD_eq_getD_iff {l l' : List UInt8} {k : Nat} (hk : k < l.length) (hk' : k < l'.length)
    (x y : UInt8) : (l[k]?).getD x = (l'[k]?).getD y ↔ l[k]? = l'[k]? := by
  rw [List.getElem?_eq_getElem hk, List.getElem?_eq_getElem hk', Option.getD_some,
    Option.getD_some, Option.some_inj]

end

/-! ## What shows of the old image -/

section
variable {t t' : Task} {p : Program} {argv : List (List UInt8)} {e e' : Around} {s s' : Start}

/-- What a `sys_exec` has done, from the new stack on. -/
structure ExecDone (t : Task) (p : Program) (argv : List (List UInt8)) (e : Around) (s : Start)
    (u v : UserMemory) (vector : List UInt32) : Prop where
  /-- The program was loaded and its arguments were copied. -/
  pushed : ∃ w, (UserMemory.initPd e.found).programLoader p = some w ∧
    pushStrings argv w = some (u, stringsEnd argv, vector)
  /-- One word for each argument. -/
  length : vector.length = argv.length
  /-- The words from `vector` on are on the stack. -/
  stored : u.store (stringsEnd argv - 20) (vectorBytes vector e.above) = some v
  /-- The pages. -/
  mapped : s.memory.mapped = v.mapped
  /-- The last four words are on the stack. -/
  bytes : ∀ b, s.memory.bytes b =
    ((callBytes (UInt32.ofNat argv.length) (stringsEnd argv - 20))[(b -
      (t.registers.esp - 12)).toNat]?).getD (v.bytes b)
  /-- The registers changed, and nothing else of the process. -/
  task : s.task = { t with
    registers := { t.registers with eip := p.entry, esp := t.registers.esp - 16 } }

/-- **What `sys_exec` does.** -/
theorem Task.sysExec_spec (h : t.sysExec p argv e = some s) :
    ∃ u v vector, ExecDone t p argv e s u v vector := by
  obtain ⟨-, h⟩ := Option.ite_none_right_eq_some.mp h
  obtain ⟨w, hload, h⟩ := Option.bind_eq_some_iff.mp h
  obtain ⟨⟨u, dest, vector⟩, hstrings, h⟩ := Option.bind_eq_some_iff.mp h
  obtain ⟨v, hstore, h⟩ := Option.bind_eq_some_iff.mp h
  obtain ⟨⟨v', esp⟩, hcall, rfl⟩ := Option.map_eq_some_iff.mp h
  obtain ⟨rfl, hlen⟩ := pushStrings_spec hstrings
  obtain ⟨rfl, hmapped, hbytes⟩ := pushCall_spec hcall
  have hsub : ∀ x : UInt32, x - 4 - 4 - 4 = x - 12 ∧ x - 4 - 4 - 4 - 4 = x - 16 := by
    intro x
    simp only [← UInt32.toNat_inj, UInt32.toNat_sub, UInt32.reduceToNat]
    omega
  rw [(hsub _).1] at hbytes
  refine ⟨u, v, vector, ⟨⟨w, hload, hstrings⟩, hlen, hstore, hmapped, hbytes, ?_⟩⟩
  rw [(hsub _).2]

/-- The new memories up to the arguments. -/
theorem ExecDone.alike {u v u' v' : UserMemory} {vector vector' : List UInt32}
    (h : ExecDone t p argv e s u v vector) (h' : ExecDone t' p argv e' s' u' v' vector') :
    u.Alike u' ∧ vector = vector' := by
  obtain ⟨w, hload, hstrings⟩ := h.pushed
  obtain ⟨w', hload', hstrings'⟩ := h'.pushed
  have hw := (UserMemory.alike_initPd e.found e'.found).programLoader p w w' hload hload'
  obtain ⟨hu, hrest⟩ := hw.pushStrings argv _ _ hstrings hstrings'
  exact ⟨hu, (Prod.mk.inj hrest).2⟩

/-- The registers of the new program agree exactly when the saved ones do. -/
theorem userRegisters_started_iff (r r' : Ureg) (eip : UInt32) :
    userRegisters { r with eip := eip, esp := r.esp - 16 } =
        userRegisters { r' with eip := eip, esp := r'.esp - 16 } ↔
      userRegisters { r with eip := 0 } = userRegisters { r' with eip := 0 } := by
  simp only [userRegisters, UserRegisters.mk.injEq, UInt32.sub_left_inj]

/-- With the same stack pointer, the new memories agree exactly when the words above `vector` do
where they stay. -/
theorem ExecDone.memory_iff {u v u' v' : UserMemory} {vector vector' : List UInt32}
    (h : ExecDone t p argv e s u v vector) (h' : ExecDone t' p argv e' s' u' v' vector')
    (hesp : t.registers.esp = t'.registers.esp) :
    s.memory.Alike s'.memory ↔ ∀ k n, argv.length + 1 + k < 5 → n < 4 →
      Stays t.registers.esp (stringsEnd argv - 20 + UInt32.ofNat (4 * (argv.length + 1 + k) + n)) →
        (wordBytes (e.above k))[n]? = (wordBytes (e'.above k))[n]? := by
  obtain ⟨hu, rfl⟩ := h.alike h'
  obtain ⟨hm, hb, hmaps⟩ := UserMemory.store_spec h.stored
  obtain ⟨hm', hb', -⟩ := UserMemory.store_spec h'.stored
  have hlen := h.length
  constructor
  · intro halike k n hk hn hstays
    -- the byte is on the stack and is not written again
    have hindex : (stringsEnd argv - 20 + UInt32.ofNat (4 * (argv.length + 1 + k) + n)
        - (stringsEnd argv - 20)).toNat = 4 * (argv.length + 1 + k) + n := by
      rw [UInt32.add_comm, UInt32.add_sub_cancel, UInt32.toNat_ofNat']
      omega
    have hshort : 4 * (argv.length + 1 + k) + n < 20 := by omega
    have hbytes := halike.bytes _ hstays.1 (by
      rw [UserMemory.maps, h.mapped, hm]
      exact hmaps _ hshort)
    rw [h.bytes, h'.bytes, ← hesp, List.getElem?_eq_none hstays.2, Option.getD_none,
      Option.getD_none, hb, hb', hindex, getD_eq_getD_iff hshort hshort,
      vectorBytes_agree_iff hk hn] at hbytes
    have hagree := hbytes (by omega)
    rwa [show argv.length + 1 + k - vector.length - 1 = k by omega] at hagree
  · intro habove
    refine ⟨fun i j => by rw [h.mapped, h'.mapped, hm, hm', hu.mapped], fun b hub hmb => ?_⟩
    rw [h.bytes, h'.bytes, ← hesp]
    by_cases hover : (b - (t.registers.esp - 12)).toNat < 16
    · rw [getD_eq_getD_iff hover hover]
    · rw [List.getElem?_eq_none (Nat.not_lt.mp hover), Option.getD_none, Option.getD_none, hb, hb']
      by_cases hshort : (b - (stringsEnd argv - 20)).toNat < 20
      · rw [getD_eq_getD_iff hshort hshort]
        -- byte `n` of word `i`
        have hb : b = stringsEnd argv - 20 + UInt32.ofNat (b - (stringsEnd argv - 20)).toNat := by
          rw [UInt32.ofNat_toNat, UInt32.add_comm, UInt32.sub_add_cancel]
        have hsplit := (Nat.div_add_mod (b - (stringsEnd argv - 20)).toNat 4).symm
        have hn := Nat.mod_lt (b - (stringsEnd argv - 20)).toNat (show 4 > 0 by decide)
        generalize (b - (stringsEnd argv - 20)).toNat / 4 = i at hsplit
        generalize (b - (stringsEnd argv - 20)).toNat % 4 = n at hsplit hn
        rw [hsplit, vectorBytes_agree_iff (by omega) hn]
        intro hlt
        refine habove _ n (by omega) hn ?_
        rw [show argv.length + 1 + (i - vector.length - 1) = i by omega, ← hsplit, ← hb]
        exact ⟨hub, Nat.not_lt.mp hover⟩
      · rw [List.getElem?_eq_none (Nat.not_lt.mp hshort),
          List.getElem?_eq_none (Nat.not_lt.mp hshort), Option.getD_none, Option.getD_none]
        refine hu.bytes b hub ?_
        rw [UserMemory.maps, ← hm, ← h.mapped]
        exact hmb

/-- **What a new program sees of the old one.** -/
theorem startsClean_iff (h : t.sysExec p argv e = some s) (h' : t'.sysExec p argv e' = some s') :
    CleanSlate s s' ↔ NothingLeft t t' argv e e' := by
  obtain ⟨u, v, vector, h⟩ := Task.sysExec_spec h
  obtain ⟨u', v', vector', h'⟩ := Task.sysExec_spec h'
  have hregisters : userRegisters s.task.registers = userRegisters s'.task.registers ↔
      userRegisters { t.registers with eip := 0 } =
        userRegisters { t'.registers with eip := 0 } := by
    rw [h.task, h'.task]
    exact userRegisters_started_iff _ _ _
  have hesp : userRegisters { t.registers with eip := 0 } =
      userRegisters { t'.registers with eip := 0 } → t.registers.esp = t'.registers.esp :=
    fun hr => congrArg UserRegisters.esp hr
  have hva : s.task.va = t.va ∧ s'.task.va = t'.va := by
    rw [h.task, h'.task]
    exact ⟨rfl, rfl⟩
  have hhandler : s.task.swexnInfo = t.swexnInfo ∧ s'.task.swexnInfo = t'.swexnInfo := by
    rw [h.task, h'.task]
    exact ⟨rfl, rfl⟩
  constructor
  · intro hclean
    have hr := hregisters.mp hclean.registers
    refine ⟨hr, ?_, ?_, (h.memory_iff h' (hesp hr)).mp hclean.memory⟩
    · rw [← hva.1, ← hva.2]
      exact hclean.va
    · rw [← hhandler.1, ← hhandler.2]
      exact hclean.handler
  · intro hnothing
    have hr := hnothing.registers
    refine ⟨(h.memory_iff h' (hesp hr)).mpr hnothing.above, hregisters.mpr hr, ?_, ?_⟩
    · rw [hva.1, hva.2]
      exact hnothing.va
    · rw [hhandler.1, hhandler.2]
      exact hnothing.handler

end

/-- The program of one byte of text, with its file. -/
def smallFile : Program := ⟨smallProgram, 0xffffe000, fun _ => 0xc3, 0, 0, 0⟩

/-- `init`, as `process_create` makes it from blocks of zeros. -/
def initTask : Task :=
  ⟨{ (thrCreate quietSurroundings zeroTcb true).registers with esp := 0xffffff00 },
    zeroTcb.swexnInfo, []⟩

/-- Nothing but zeros around. -/
def quietAround : Around := ⟨fun _ => 0, fun _ => 0, 0⟩

/-- `init` can execute the program. -/
theorem initTask_execs :
    ∃ s, initTask.sysExec smallFile [[0x61]] quietAround = some s :=
  Option.isSome_iff_exists.mp (by decide +kernel)

/-- `init` executes the program, twice over. -/
theorem startsClean_iff_init : ∃ s, initTask.sysExec smallFile [[0x61]] quietAround = some s ∧
    (CleanSlate s s ↔ NothingLeft initTask initTask [[0x61]] quietAround quietAround) := by
  obtain ⟨s, hs⟩ := initTask_execs
  exact ⟨s, hs, startsClean_iff hs hs⟩

/-- **What the old image did shows in the new one**: `init` executes a program at once; or after
a call of `new_pages`; or after a call of `swexn`; or after another `exec`. -/
theorem old_image_shows_in_start :
    ∃ s, initTask.sysExec smallFile [[0x61]] quietAround = some s ∧
      ∀ past ∈ [Past.newPages ⟨0x40000000, 4096⟩,
        Past.swexn 0x300000 0xfffff000 0xffffe000 0 0 none,
        Past.exec smallFile [[0x61]] quietAround],
        ∃ t s', initTask.after past = some t ∧
          t.sysExec smallFile [[0x61]] quietAround = some s' ∧ ¬ CleanSlate s s' := by
  obtain ⟨s, hs⟩ := initTask_execs
  obtain ⟨_, _, _, hdone⟩ := Task.sysExec_spec hs
  refine ⟨s, hs, fun past hpast => ?_⟩
  -- a second start, and what is wrong with it
  have hrun (t : Task) (ht : initTask.after past = some t)
      (hsome : (t.sysExec smallFile [[0x61]] quietAround).isSome)
      (hbad : t.va ≠ [] ∨ t.swexnInfo.installedFlag ≠ 0 ∨
        t.registers.esp ≠ initTask.registers.esp) :
      ∃ t s', initTask.after past = some t ∧
        t.sysExec smallFile [[0x61]] quietAround = some s' ∧ ¬ CleanSlate s s' := by
    obtain ⟨s', hs'⟩ := Option.isSome_iff_exists.mp hsome
    obtain ⟨_, _, _, hdone'⟩ := Task.sysExec_spec hs'
    refine ⟨t, s', ht, hs', fun hclean => ?_⟩
    rcases hbad with hva | hflag | hesp
    · exact hva (by simpa only [hdone'.task] using hclean.va.2)
    · exact hflag (by simpa only [hdone'.task] using hclean.handler.2)
    · have hr := congrArg UserRegisters.esp hclean.registers
      rw [hdone.task, hdone'.task] at hr
      exact hesp ((UInt32.sub_left_inj 16).mp hr).symm
  simp only [List.mem_cons, List.not_mem_nil, or_false] at hpast
  rcases hpast with rfl | rfl | rfl
  · exact hrun _ rfl (by decide +kernel) (Or.inl (by decide))
  · exact hrun _ rfl (by decide +kernel) (Or.inr (Or.inl (by decide)))
  · refine hrun s.task (by rw [Task.after, hs, Option.map_some]) ?_ (Or.inr (Or.inr ?_))
    · rw [hdone.task]
      decide +kernel
    · rw [hdone.task]
      decide

/-! ## The pages -/

section
variable {u v : UserMemory} {p : Program} {i j : Nat}

/-- The pages after `virtual_map_physical`. -/
theorem UserMemory.virtualMapPhysical_mapped {i' j' : Nat}
    (h : u.virtualMapPhysical i j = some v) :
    v.mapped i' j' = true ↔ u.mapped i' j' = true ∨ (i', j') = (i, j) := by
  obtain ⟨-, h⟩ := Option.ite_none_right_eq_some.mp h
  by_cases hm : u.mapped i j = true
  · rw [if_pos hm] at h
    obtain rfl := Option.some.inj h
    refine ⟨Or.inl, fun h' => h'.elim id fun he => ?_⟩
    obtain ⟨rfl, rfl⟩ := Prod.mk.inj he
    exact hm
  · rw [if_neg hm] at h
    obtain rfl := Option.some.inj h
    rw [Prod.mk.injEq]
    by_cases he : i' = i ∧ j' = j <;> simp [he]

/-- The pages after `allocate_pages`. -/
theorem UserMemory.allocatePages_mapped {addr size : UInt32}
    (h : u.allocatePages addr size = some v) :
    v.mapped i j = true ↔ u.mapped i j = true ∨ (i, j) ∈ pageRange addr.toNat size.toNat := by
  refine Loop.foldlM_invariant
    (I := fun done w => w.mapped i j = true ↔ u.mapped i j = true ∨ (i, j) ∈ done) h (by simp) ?_
  intro done x _ w w' hw hx
  rw [virtualMapPhysical_mapped hx, hw, List.mem_append, List.mem_singleton, or_assoc]

/-- The pages after the loader. -/
theorem UserMemory.programLoader_mapped (h : u.programLoader p = some v) :
    v.mapped i j = true ↔ u.mapped i j = true ∨ (i, j) ∈ loaderRange p.header := by
  obtain ⟨u1, h1, h⟩ := Option.bind_eq_some_iff.mp h
  obtain ⟨u2, h2, h⟩ := Option.bind_eq_some_iff.mp h
  obtain ⟨u3, h3, h⟩ := Option.bind_eq_some_iff.mp h
  obtain ⟨u4, h4, h⟩ := Option.bind_eq_some_iff.mp h
  obtain ⟨u5, h5, h⟩ := Option.bind_eq_some_iff.mp h
  -- stores map nothing
  obtain ⟨u6, h6, h⟩ := Option.bind_eq_some_iff.mp h
  obtain ⟨u7, h7, h⟩ := Option.bind_eq_some_iff.mp h
  obtain ⟨u8, h8, h⟩ := Option.bind_eq_some_iff.mp h
  obtain ⟨-, h⟩ := Option.ite_none_right_eq_some.mp h
  rw [(store_spec h).1, (store_spec h8).1, (store_spec h7).1, (store_spec h6).1,
    allocatePages_mapped h5, allocatePages_mapped h4, allocatePages_mapped h3,
    allocatePages_mapped h2, allocatePages_mapped h1, loaderRange]
  simp only [List.mem_append, or_assoc]
  exact Iff.rfl

/-- The pages after the strings. -/
theorem pushStrings_mapped {argv : List (List UInt8)} {r : UserMemory × UInt32 × List UInt32}
    (h : pushStrings argv u = some r) : r.1.mapped = u.mapped := by
  refine Loop.foldlM_preserves (I := fun r : UserMemory × UInt32 × List UInt32 =>
    r.1.mapped = u.mapped) h rfl fun string _ r r' hr hstep => ?_
  obtain ⟨w, hw, rfl⟩ := Option.map_eq_some_iff.mp hstep
  exact (UserMemory.store_spec hw).1.trans hr

end

/-- The program that is started is the one that was found. -/
theorem execAccepts_header {m : PhysMem} {pd execname argvec : Nat} {program : Option ElfHeader}
    {fit : Bool} {h : ElfHeader} (haccepts : execAccepts m pd execname argvec program fit = some h) :
    program = some h := by
  rw [execAccepts] at haccepts
  split at haccepts
  · exact haccepts
  · cases haccepts

/-- **The pages of a new program are those that the paging code maps**, in every run from a boot
in which `memalign` behaves as the kernel takes for granted. -/
theorem execPages_iff {idle init : ElfHeader} {answers answers' : List Answer} {vm0 vm vm' : Vm}
    {events : List Event} (hnn : NonNull answers) (hboot : boot idle init answers = some vm0)
    (run : Run ServedStep vm0 events vm) {p : Program} {execname argvec : UInt32} {fit : Bool}
    (hserved : Event.WellServed ⟨.exec execname argvec (some p.header) fit, answers'⟩)
    (hstep : vm.step ⟨.exec execname argvec (some p.header) fit, answers'⟩ = some (vm', 0))
    {t : Task} {argv : List (List UInt8)} {e : Around} {s : Start}
    (hexec : t.sysExec p argv e = some s) {i j : Nat} (hi : 4 ≤ i) :
    (vm'.userFrame vm.current i j).isSome ↔ s.memory.mapped i j = true := by
  obtain ⟨kernelBlocks, lost, hsound⟩ := sound_of_run hnn hboot run
  obtain ⟨lost', heffect, -⟩ := hsound.step hserved hstep
  obtain ⟨u, v, vector, hdone⟩ := Task.sysExec_spec hexec
  obtain ⟨w, hload, hstrings⟩ := hdone.pushed
  have hpages : s.memory.mapped i j = true ↔ (i, j) ∈ loaderRange p.header := by
    rw [hdone.mapped, (UserMemory.store_spec hdone.stored).1, pushStrings_mapped hstrings,
      UserMemory.programLoader_mapped hload]
    refine or_iff_right fun hlow => ?_
    have := of_decide_eq_true hlow
    omega
  rw [hpages, ← vm'.frame_process lost']
  generalize hzero : (0 : Int) = r at heffect
  cases heffect with
  | nothing => cases hzero
  | exec _ haccepts _ _ _ _ _ hloaded =>
      obtain rfl := Option.some.inj (execAccepts_header haccepts)
      rw [hloaded i j]
      exact and_iff_left hi

end Pebbles.Memory
