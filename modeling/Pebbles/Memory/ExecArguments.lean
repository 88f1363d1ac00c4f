import Pebbles.Memory.AddressSpaces

/-! # The arguments of `exec`

The beginning of `sys_exec` (`kern/process/sys_exec.c`): the checks of the two pointers, the loop
that counts the entries of `argvec` and measures them, and the copy of the arguments to the kernel
stack. The memory is the one that the kernel reads, byte by byte, so that the entries of `argvec`
and the strings may lie anywhere. The `malloc` for the name is taken to succeed.

The loop increments `argc` between its test and `strlen(argvec[argc])`. `execWithinLimits_iff` says
for which argument vectors the limits are kept all the same. -/

namespace Pebbles.Memory

open Kernel (isUserAddr)

/-! ## Strings and words -/

/-- `ARGC_LIMIT`. -/
def argcLimit : Nat := 100

/-- `ARGV_LIMIT`. -/
def argvLimit : Nat := 50

/-- The number of addresses. -/
def addressCount : Nat := 2 ^ 32

/-- The bytes that the kernel reads; a read where there is none faults. -/
abbrev ByteMemory := UInt32 → Option UInt8

/-- `strlen` within the next `fuel` bytes. -/
def strlenFrom (mem : ByteMemory) : Nat → UInt32 → Option Nat
  | 0, _ => none
  | fuel + 1, a =>
      (mem a).bind fun c => if c = 0 then some 0 else (strlenFrom mem fuel (a + 1)).map (· + 1)

/-- `strlen`. There is no result when a read faults or when no byte of the memory is `NUL`. -/
def strlen (mem : ByteMemory) (a : UInt32) : Option Nat := strlenFrom mem addressCount a

/-- The word at `a`. -/
def wordAt (mem : ByteMemory) (a : UInt32) : Option UInt32 :=
  (mem a).bind fun b0 => (mem (a + 1)).bind fun b1 => (mem (a + 2)).bind fun b2 =>
    (mem (a + 3)).map fun b3 =>
      b0.toUInt32 ||| b1.toUInt32 <<< (8 : UInt32) ||| b2.toUInt32 <<< (16 : UInt32) |||
        b3.toUInt32 <<< (24 : UInt32)

/-- `argvec[k]`. -/
def argument (mem : ByteMemory) (argvec : UInt32) (k : Nat) : Option UInt32 :=
  wordAt mem (argvec + UInt32.ofNat (4 * k))

/-! ## The call -/

/-- How the loop over `argvec` ends. -/
inductive Counted where
  /-- At an entry that is `NULL`. -/
  | counted (argc : Nat)
  /-- With `return -1`. -/
  | refused
  /-- With a fault, or not at all. -/
  | undefined

/-- The loop over `argvec`, with `argc` entries counted, and the pointers it applies `strlen` to. -/
def countArguments (mem : ByteMemory) (argvec : UInt32) : Nat → Nat → List UInt32 × Counted
  | 0, _ => ([], .undefined)
  | fuel + 1, argc =>
      match argument mem argvec argc with
      | none => ([], .undefined)
      | some entry =>
          if entry = 0 then ([], .counted argc)
          else
            let argc := argc + 1
            match argument mem argvec argc with
            | none => ([], .undefined)
            | some p =>
                match strlen mem p with
                | none => ([p], .undefined)
                | some len =>
                    if argvLimit < len then ([p], .refused)
                    else
                      let r := countArguments mem argvec fuel argc
                      (p :: r.1, r.2)

/-- What a call of `sys_exec` does. -/
structure ExecCall where
  /-- The pointers `strlen` is applied to. -/
  measured : List UInt32
  /-- The call goes on to load the program. -/
  loads : Bool
  /-- The state it leaves and the value it returns, unless it faults. -/
  result : Option (Vm × Int)

/-- `is_user_addr(a)` and `addr_has_mapping(a)`. -/
def goodPointer (m : PhysMem) (pd : Nat) (a : UInt32) : Bool :=
  isUserAddr a.toNat && addrHasMapping m pd a.toNat

/-- `sys_exec`, reading its arguments from the memory. -/
def Vm.sysExecCall (s : Vm) (mem : ByteMemory) (execname argvec : UInt32)
    (program : Option ElfHeader) : ExecCall :=
  match s.currentSpace with
  | none => ⟨[], false, none⟩
  | some a =>
      if goodPointer s.memory a.pd execname && goodPointer s.memory a.pd argvec then
        let name := [execname, execname]
        match strlen mem execname, program with
        | none, _ => ⟨[execname], false, none⟩
        | some _, none => ⟨name, false, some (s, -1)⟩
        | some _, some h =>
            match countArguments mem argvec addressCount 0 with
            | (measured, .undefined) => ⟨name ++ measured, false, none⟩
            | (measured, .refused) => ⟨name ++ measured, false, some (s, -1)⟩
            | (measured, .counted argc) =>
                if argcLimit < argc then ⟨name ++ measured, false, some (s, -1)⟩
                else
                  -- the sum of the lengths, then the copies
                  let copied := (List.range argc).filterMap (argument mem argvec)
                  if copied.all fun p => (strlen mem p).isSome then
                    ⟨name ++ measured ++ copied ++ copied, true,
                      s.sysExec execname argvec (some h) true⟩
                  else ⟨name ++ measured ++ copied, false, none⟩
      else ⟨[], false, some (s, -1)⟩

/-! ## Argument vectors -/

/-- `argvec` has `argc` entries before its `NULL`. -/
structure NullTerminated (mem : ByteMemory) (argvec : UInt32) (argc : Nat) : Prop where
  /-- The entries before it are pointers. -/
  entry : ∀ i < argc, ∃ p, argument mem argvec i = some p ∧ p ≠ 0
  /-- The `NULL`. -/
  null : argument mem argvec argc = some 0

/-- `strlen(argvec[i])`. -/
def argumentLength (mem : ByteMemory) (argvec : UInt32) (i : Nat) : Option Nat :=
  (argument mem argvec i).bind (strlen mem)

/-- The entry `i` is longer than `ARGV_LIMIT`. -/
def TooLong (mem : ByteMemory) (argvec : UInt32) (i : Nat) : Prop :=
  ∃ len, argumentLength mem argvec i = some len ∧ argvLimit < len

/-- The limits of `sys_exec`. -/
def WithinLimits (mem : ByteMemory) (argvec : UInt32) (argc : Nat) : Prop :=
  argc ≤ argcLimit ∧ ∀ i < argc, ¬ TooLong mem argvec i

/-- **The claim about `sys_exec`**: it goes on to load the program exactly when the arguments are
within the limits, returns -1 and changes nothing otherwise, and measures no `NULL`. -/
structure ExecWithinLimits (s : Vm) (mem : ByteMemory) (execname argvec : UInt32) (h : ElfHeader)
    (argc : Nat) : Prop where
  /-- Which arguments are accepted. -/
  loads_iff : (s.sysExecCall mem execname argvec (some h)).loads = true ↔
    WithinLimits mem argvec argc
  /-- What happens to the others. -/
  refuses : ¬ WithinLimits mem argvec argc →
    (s.sysExecCall mem execname argvec (some h)).result = some (s, -1)
  /-- `strlen` gets strings only. -/
  measures : 0 ∉ (s.sysExecCall mem execname argvec (some h)).measured

/-! ## The loop -/

section
variable {mem : ByteMemory} {argvec : UInt32} {argc k fuel : Nat}

/-- The addresses come around. -/
theorem argument_mod (mem : ByteMemory) (argvec : UInt32) (k : Nat) :
    argument mem argvec (k % 2 ^ 30) = argument mem argvec k := by
  have haddr : UInt32.ofNat (4 * (k % 2 ^ 30)) = UInt32.ofNat (4 * k) := by
    apply UInt32.toNat.inj
    rw [UInt32.toNat_ofNat', UInt32.toNat_ofNat']
    omega
  rw [argument, haddr, argument]

/-- The vector is not longer than the memory. -/
theorem NullTerminated.argc_lt (h : NullTerminated mem argvec argc) : argc < addressCount := by
  have hnull := h.null
  rw [← argument_mod] at hnull
  by_contra hge
  rw [addressCount] at hge
  obtain ⟨p, hp, hne⟩ := h.entry (argc % 2 ^ 30) (by omega)
  rw [hnull, Option.some.injEq] at hp
  exact hne hp.symm

/-- At the `NULL` the loop ends. -/
theorem NullTerminated.count_end (h : NullTerminated mem argvec argc) (fuel : Nat)
    (hfuel : 0 < fuel) : countArguments mem argvec fuel argc = ([], .counted argc) := by
  obtain ⟨fuel, rfl⟩ : ∃ f, fuel = f + 1 := ⟨fuel - 1, by omega⟩
  simp only [countArguments, h.null, if_true]

/-- **One round of the loop** looks at the entry after the one that was counted. -/
theorem NullTerminated.count_step (h : NullTerminated mem argvec argc) (fuel : Nat)
    (hk : k < argc) :
    ∃ p, argument mem argvec (k + 1) = some p ∧
      countArguments mem argvec (fuel + 1) k =
        match strlen mem p with
        | none => ([p], .undefined)
        | some len =>
            if argvLimit < len then ([p], .refused)
            else (p :: (countArguments mem argvec fuel (k + 1)).1,
              (countArguments mem argvec fuel (k + 1)).2) := by
  obtain ⟨entry, hentry, hne⟩ := h.entry k hk
  obtain ⟨p, hp⟩ : ∃ p, argument mem argvec (k + 1) = some p := by
    rcases Nat.lt_or_ge (k + 1) argc with hlt | hge
    · exact (h.entry (k + 1) hlt).imp fun _ e => e.1
    · have heq : k + 1 = argc := by omega
      exact ⟨0, heq ▸ h.null⟩
  refine ⟨p, hp, ?_⟩
  simp only [countArguments, hentry, hne, if_false, hp]

/-- An entry of the vector that is looked at in a round. -/
theorem NullTerminated.next_eq_zero (h : NullTerminated mem argvec argc) (hk : k < argc)
    {p : UInt32} (hp : argument mem argvec (k + 1) = some p) : p = 0 ↔ k + 1 = argc := by
  constructor
  · rintro rfl
    by_contra hne
    obtain ⟨q, hq, hqne⟩ := h.entry (k + 1) (by omega)
    rw [hp, Option.some.injEq] at hq
    exact hqne hq.symm
  · intro heq
    have hnull := h.null
    rw [← heq, hp, Option.some.injEq] at hnull
    exact hnull

/-- What is too long lies beyond an entry that is not. -/
theorem tooLong_beyond (hshort : ¬ TooLong mem argvec (k + 1)) :
    (∃ i, k < i ∧ i < argc ∧ TooLong mem argvec i) ↔
      ∃ i, k + 1 < i ∧ i < argc ∧ TooLong mem argvec i := by
  refine exists_congr fun i => ⟨fun ⟨hki, hi, hlong⟩ => ⟨?_, hi, hlong⟩,
    fun ⟨hki, hi, hlong⟩ => ⟨by omega, hi, hlong⟩⟩
  rcases Nat.eq_or_lt_of_le (Nat.succ_le_of_lt hki) with rfl | hgt
  · exact absurd hlong hshort
  · exact hgt

/-- **What the loop measures**: from the entry `k` on it stays away from the `NULL` exactly when it
has nothing left to do, or meets a string that is too long before. -/
theorem NullTerminated.null_notMem_iff (h : NullTerminated mem argvec argc)
    (hstrings : ∀ i < argc, (argumentLength mem argvec i).isSome) (hk : k ≤ argc)
    (hfuel : argc < k + fuel) :
    (0 ∉ (countArguments mem argvec fuel k).1 ↔
      k = argc ∨ ∃ i, k < i ∧ i < argc ∧ TooLong mem argvec i) ∧
    ((∃ i, k < i ∧ i < argc ∧ TooLong mem argvec i) →
      (countArguments mem argvec fuel k).2 = .refused) := by
  induction fuel generalizing k with
  | zero => omega
  | succ fuel ih =>
      rcases Nat.eq_or_lt_of_le hk with rfl | hlt
      · rw [h.count_end (fuel + 1) (Nat.succ_pos fuel)]
        refine ⟨by simp, ?_⟩
        rintro ⟨i, hki, hi, -⟩
        omega
      · obtain ⟨p, hp, hcount⟩ := h.count_step fuel hlt
        have hzero := h.next_eq_zero hlt hp
        rcases Nat.eq_or_lt_of_le (Nat.succ_le_of_lt hlt) with hlast | hmore
        · -- the entry after the one that was counted is the `NULL`
          have hp0 : p = 0 := hzero.mpr hlast
          have hmem : (0 : UInt32) ∈ (countArguments mem argvec (fuel + 1) k).1 := by
            rw [hcount, hp0]
            cases strlen mem 0 with
            | none => exact List.mem_singleton_self 0
            | some len =>
                simp only
                split <;> exact List.mem_cons_self
          have hno : ¬ ∃ i, k < i ∧ i < argc ∧ TooLong mem argvec i := by
            rintro ⟨i, hki, hi, -⟩
            omega
          exact ⟨⟨fun hn => absurd hmem hn, fun hor => by
            rcases hor with rfl | hex
            · omega
            · exact absurd hex hno⟩, fun hex => absurd hex hno⟩
        · have hp0 : p ≠ 0 := fun e => by
            have heq := hzero.mp e
            omega
          obtain ⟨len, hlen⟩ := Option.isSome_iff_exists.mp (hstrings (k + 1) hmore)
          have hstr : strlen mem p = some len := by
            rw [argumentLength, hp, Option.bind_some] at hlen
            exact hlen
          rw [hcount, hstr]
          by_cases hlong : argvLimit < len
          · have hex : ∃ i, k < i ∧ i < argc ∧ TooLong mem argvec i :=
              ⟨k + 1, Nat.lt_succ_self k, hmore, len, hlen, hlong⟩
            simp only [hlong, if_true, List.mem_singleton]
            exact ⟨⟨fun _ => Or.inr hex, fun _ => hp0.symm⟩, fun _ => trivial⟩
          · have hshort : ¬ TooLong mem argvec (k + 1) := by
              rintro ⟨len', hlen', hlong'⟩
              rw [hlen, Option.some.injEq] at hlen'
              omega
            obtain ⟨hih, hrefused⟩ := ih (k := k + 1) hmore.le (by omega)
            simp only [hlong, if_false, List.mem_cons, not_or]
            rw [hih, tooLong_beyond hshort]
            refine ⟨⟨fun hor => ?_, fun hor => ⟨hp0.symm, ?_⟩⟩, hrefused⟩
            · rcases hor.2 with heq | hex
              · omega
              · exact Or.inr hex
            · rcases hor with rfl | hex
              · omega
              · exact Or.inr hex

end

/-! ## The whole call -/

section
variable {s : Vm} {mem : ByteMemory} {execname argvec : UInt32} {h : ElfHeader} {argc : Nat}
  {a : AddressSpace}

/-- A good pointer is not `NULL`. -/
theorem ne_zero_of_goodPointer {m : PhysMem} {pd : Nat} {p : UInt32}
    (hgood : goodPointer m pd p = true) : p ≠ 0 := by
  rintro rfl
  simp [goodPointer, isUserAddr] at hgood

/-- The call measures what the loop measures. -/
theorem mem_measured (hspace : s.currentSpace = some a)
    (hname : goodPointer s.memory a.pd execname = true)
    (hvec : goodPointer s.memory a.pd argvec = true) (hstring : (strlen mem execname).isSome)
    {p : UInt32} (hp : p ∈ (countArguments mem argvec addressCount 0).1) :
    p ∈ (s.sysExecCall mem execname argvec (some h)).measured := by
  obtain ⟨len, hlen⟩ := Option.isSome_iff_exists.mp hstring
  simp only [Vm.sysExecCall, hspace, hname, hvec, Bool.and_self, if_true, hlen]
  generalize countArguments mem argvec addressCount 0 = r at hp
  obtain ⟨measured, verdict⟩ := r
  cases verdict with
  | undefined => exact List.mem_append_right _ hp
  | refused => exact List.mem_append_right _ hp
  | counted argc =>
      simp only
      split
      · exact List.mem_append_right _ hp
      · split
        · exact List.mem_append_left _ (List.mem_append_left _ (List.mem_append_right _ hp))
        · exact List.mem_append_left _ (List.mem_append_right _ hp)

/-- **The limits of `exec`.** For a program that is there and good pointers to its name and to a
vector of strings, `sys_exec` keeps to its limits exactly when the vector is empty or one of the
entries after the first is too long. -/
theorem execWithinLimits_iff (hspace : s.currentSpace = some a)
    (hname : goodPointer s.memory a.pd execname = true)
    (hvec : goodPointer s.memory a.pd argvec = true) (hstring : (strlen mem execname).isSome)
    (hnull : NullTerminated mem argvec argc)
    (hstrings : ∀ i < argc, (argumentLength mem argvec i).isSome) :
    ExecWithinLimits s mem execname argvec h argc ↔
      argc = 0 ∨ ∃ i, 0 < i ∧ i < argc ∧ TooLong mem argvec i := by
  obtain ⟨len, hlen⟩ := Option.isSome_iff_exists.mp hstring
  have hne : execname ≠ 0 := ne_zero_of_goodPointer hname
  have hfuel : argc < 0 + addressCount := by simpa using hnull.argc_lt
  obtain ⟨hmeasured, hrefused⟩ := hnull.null_notMem_iff hstrings (Nat.zero_le argc) hfuel
  constructor
  · intro hlimits
    exact (hmeasured.mp fun hmem => hlimits.measures
      (mem_measured hspace hname hvec hstring hmem)).imp_left Eq.symm
  · intro hor
    rcases hor with rfl | hex
    · have hcall : s.sysExecCall mem execname argvec (some h)
          = ⟨[execname, execname], true, s.sysExec execname argvec (some h) true⟩ := by
        simp [Vm.sysExecCall, hspace, hname, hvec, hlen,
          hnull.count_end addressCount (by decide), argcLimit]
      have hwithin : WithinLimits mem argvec 0 := ⟨Nat.zero_le _, fun i hi => absurd hi (by omega)⟩
      refine ⟨?_, fun hno => absurd hwithin hno, ?_⟩
      · rw [hcall]
        exact ⟨fun _ => hwithin, fun _ => rfl⟩
      · rw [hcall]
        simp [hne.symm]
    · have hmem : 0 ∉ (countArguments mem argvec addressCount 0).1 := hmeasured.mpr (Or.inr hex)
      obtain ⟨measured, hcount⟩ : ∃ measured, countArguments mem argvec addressCount 0
          = (measured, .refused) := ⟨_, Prod.ext rfl (hrefused hex)⟩
      have hcall : s.sysExecCall mem execname argvec (some h)
          = ⟨[execname, execname] ++ measured, false, some (s, -1)⟩ := by
        simp only [Vm.sysExecCall, hspace, hname, hvec, Bool.and_self, if_true, hlen, hcount]
      have hwithin : ¬ WithinLimits mem argvec argc := by
        obtain ⟨i, -, hi, hlong⟩ := hex
        exact fun e => e.2 i hi hlong
      rw [hcount] at hmem
      refine ⟨?_, fun _ => ?_, ?_⟩
      · rw [hcall]
        simp [hwithin]
      · rw [hcall]
      · rw [hcall]
        simpa [hne.symm] using hmem

end

/-! ## One argument -/

/-- A process with a page directory at 4096 and one page table at 8192, all of whose entries are
taken. -/
def onePageTable : Vm where
  memory := ⟨initFreeFrame totalPhysFrames, fun _ _ => 0x2007, {4096, 8192}, [], 4096⟩
  spaces := fun _ => some ⟨4096, [], [], false, true⟩
  current := 2
  nextPid := 3

/-- The vector at `0x01000000` with the entry `0x01000010`, where the string is `"a"`; there is
nothing else in the memory. -/
def oneArgument : ByteMemory := fun a =>
  if a = 0x01000000 then some 0x10 else if a = 0x01000003 then some 0x01
  else if a = 0x01000010 then some 97 else some 0

/-- An empty program. -/
def emptyProgram : ElfHeader := ⟨0, 0, 0, 0, 0, 0, 0, 0⟩

/-- `strlen` of the argument. -/
theorem argumentLength_oneArgument : argumentLength oneArgument 0x01000000 0 = some 1 := by
  decide +kernel

/-- The vector ends after one entry. -/
theorem nullTerminated_oneArgument : NullTerminated oneArgument 0x01000000 1 := by
  refine ⟨fun i hi => ⟨0x01000010, ?_, by decide⟩, by decide +kernel⟩
  obtain rfl : i = 0 := by omega
  decide +kernel

/-- **The `NULL` is measured**: one argument of one character is enough. -/
theorem null_entry_is_measured :
    goodPointer onePageTable.memory 4096 0x01000004 = true ∧
      goodPointer onePageTable.memory 4096 0x01000000 = true ∧
      (strlen oneArgument 0x01000004).isSome ∧ NullTerminated oneArgument 0x01000000 1 ∧
      (∀ i < 1, (argumentLength oneArgument 0x01000000 i).isSome) ∧
      ¬ ExecWithinLimits onePageTable oneArgument 0x01000004 0x01000000 emptyProgram 1 := by
  refine ⟨by decide +kernel, by decide +kernel, by decide +kernel, nullTerminated_oneArgument,
    fun i hi => ?_, fun hlimits => hlimits.measures ?_⟩
  · obtain rfl : i = 0 := by omega
    rw [argumentLength_oneArgument]
    rfl
  · decide +kernel

/-- `execWithinLimits_iff` at one argument. -/
theorem execWithinLimits_iff_oneArgument :
    ExecWithinLimits onePageTable oneArgument 0x01000004 0x01000000 emptyProgram 1 ↔
      1 = 0 ∨ ∃ i, 0 < i ∧ i < 1 ∧ TooLong oneArgument 0x01000000 i := by
  refine execWithinLimits_iff (a := ⟨4096, [], [], false, true⟩) rfl (by decide +kernel)
    (by decide +kernel) (by decide +kernel) nullTerminated_oneArgument fun i hi => ?_
  obtain rfl : i = 0 := by omega
  rw [argumentLength_oneArgument]
  rfl

end Pebbles.Memory
