import Pebbles.Library.ByteStores
import Pebbles.Memory.ExecArguments

/-! # The stack of a new program

The end of `sys_exec`: the arguments are copied to the top of the user stack, from the first one
downwards, their addresses are collected in `vector`, `memcpy` copies five words of it below the
strings, and four words are pushed at `registers.esp`. Five words are enough for four arguments and
the `NULL`. -/

namespace Pebbles.Memory

open ByteStores

/-! ## The code -/

/-- The bytes before the next `NUL`, within the next `fuel` bytes. -/
def stringFrom (mem : ByteMemory) : Nat → UInt32 → Option (List UInt8)
  | 0, _ => none
  | fuel + 1, a =>
      (mem a).bind fun c => if c = 0 then some [] else (stringFrom mem fuel (a + 1)).map (c :: ·)

/-- The string at an address. -/
def stringAt (mem : ByteMemory) (a : UInt32) : Option (List UInt8) := stringFrom mem addressCount a

/-- The arguments, as `strcpy` copies them to the kernel stack. -/
def argumentStrings (mem : ByteMemory) (argvec : UInt32) (argc : Nat) : List (List UInt8) :=
  (List.range argc).filterMap fun k => (argument mem argvec k).bind (stringAt mem)

/-- The loop that copies the arguments to the user stack: the memory and `dest` after it, and the
addresses in `vector`. -/
def copyStrings : List (List UInt8) → Image → UInt32 → Image × UInt32 × List UInt32
  | [], m, dest => (m, dest, [])
  | s :: rest, m, dest =>
      let dest := dest - UInt32.ofNat (s.length + 1)
      let r := copyStrings rest (storeBytes m dest (s ++ [0])) dest
      (r.1, r.2.1, dest :: r.2.2)

/-- The words of `vector`, and of the kernel stack behind it. -/
def vectorWord (addresses : List UInt32) (behind : Nat → UInt32) (k : Nat) : UInt32 :=
  (addresses ++ [0]).getD k (behind k)

/-- The first part: the strings, and `memcpy(dest, vector, sizeof(int) * 5)`. -/
def copyArguments (strs : List (List UInt8)) (behind : Nat → UInt32) (m : Image) : Image × UInt32 :=
  let r := copyStrings strs m 0xffffffff
  let dest := r.2.1 - 20
  let words := (List.range 5).map (vectorWord r.2.2 behind)
  (storeBytes r.1 dest (words.flatMap wordBytes), dest)

/-- The second part: the four words at `registers.esp`, and `registers.esp` afterwards. -/
def pushEntry (argc : Nat) (dest : UInt32) (m : Image) (esp : UInt32) : Image × UInt32 :=
  let m := storeWord m esp 0xffffc000
  let m := storeWord m (esp - 4) 0xffffffff
  let m := storeWord m (esp - 8) dest
  let m := storeWord m (esp - 12) (UInt32.ofNat argc)
  (m, esp - 16)

/-- **The user stack** with which `sys_exec` enters the program: memory and stack pointer. -/
def execStack (mem : ByteMemory) (argvec : UInt32) (argc : Nat) (behind : Nat → UInt32) (m : Image)
    (esp : UInt32) : Image × UInt32 :=
  let r := copyArguments (argumentStrings mem argvec argc) behind m
  pushEntry argc r.2 r.1 esp

/-! ## The property and the condition -/

/-- The strings as they lie in the memory: the last one first, each with its `NUL`. -/
def stringBytes (strs : List (List UInt8)) : List UInt8 := (strs.reverse.map (· ++ [0])).flatten

/-- Where they begin. They end before `0xffffffff`. -/
def stringsBase (strs : List (List UInt8)) : UInt32 :=
  0xffffffff - UInt32.ofNat (stringBytes strs).length

/-- `argv` of the new program. -/
def argvOf (m : Image) (esp : UInt32) : UInt32 := load m (esp + 8)

/-- At `p`, among the strings, there is a copy of `s` with its `NUL`. -/
structure CopyAt (m : Image) (strs : List (List UInt8)) (p : UInt32) (s : List UInt8) : Prop where
  /-- It lies among the strings. -/
  inside : (p - stringsBase strs).toNat + s.length < (stringBytes strs).length
  /-- Its bytes. -/
  bytes : ∀ j, (hj : j < (s ++ [0]).length) → m (p + UInt32.ofNat j) = (s ++ [0])[j]

/-- The words at `esp`, which `sys_exec` writes last. -/
def PushedAt (esp x : UInt32) : Prop := (x - (esp + 4)).toNat < 16

/-- **The arguments are delivered**: `argc` is the number of the arguments, `argv` is an array in
user memory with a pointer to a copy of each of them and a `NULL`, and the words that are written
last lie elsewhere. -/
structure ArgumentsDelivered (m : Image) (esp : UInt32) (strs : List (List UInt8)) : Prop where
  /-- `argc`. -/
  argc : load m (esp + 4) = UInt32.ofNat strs.length
  /-- The array is in user memory. -/
  user : userMemStart ≤ (argvOf m esp).toNat ∧
    (argvOf m esp).toNat + 4 * (strs.length + 1) ≤ 2 ^ 32
  /-- Its entries. -/
  entry : ∀ i, (hi : i < strs.length) →
    CopyAt m strs (load m (argvOf m esp + UInt32.ofNat (4 * i))) strs[i]
  /-- Its `NULL`. -/
  null : load m (argvOf m esp + UInt32.ofNat (4 * strs.length)) = 0
  /-- Nothing is written over the array. -/
  array : ∀ x, PushedAt esp x → 4 * (strs.length + 1) ≤ (x - argvOf m esp).toNat
  /-- Nothing is written over the strings. -/
  strings : ∀ x, PushedAt esp x → (stringBytes strs).length ≤ (x - stringsBase strs).toNat

/-- The word that the strings spell from a position on. -/
def spelled (strs : List (List UInt8)) (n : Nat) : Option UInt32 :=
  match (stringBytes strs).drop n with
  | b0 :: b1 :: b2 :: b3 :: _ => some (wordOf b0 b1 b2 b3)
  | _ => none

/-- **The strings spell the rest of the array**: the entries from 5 on, which `memcpy` does not
copy, lie where the strings do. -/
structure SpellsRest (strs : List (List UInt8)) : Prop where
  /-- An address among the strings where the argument is. -/
  entry : ∀ i, 5 ≤ i → (hi : i < strs.length) → ∃ o,
    spelled strs (4 * (i - 5)) = some (stringsBase strs + UInt32.ofNat o) ∧
      (strs[i] ++ [0]) <+: (stringBytes strs).drop o
  /-- The `NULL`. -/
  null : spelled strs (4 * (strs.length - 5)) = some 0

/-! ## Strings -/

section Strings

variable {mem : ByteMemory} {argvec : UInt32} {argc : Nat}

/-- A string is as long as `strlen` says. -/
theorem length_stringFrom (mem : ByteMemory) (fuel : Nat) (a : UInt32) :
    (stringFrom mem fuel a).map List.length = strlenFrom mem fuel a := by
  induction fuel generalizing a with
  | zero => rfl
  | succ fuel ih =>
      rw [stringFrom, strlenFrom]
      cases mem a with
      | none => rfl
      | some c =>
          rw [Option.bind_some, Option.bind_some]
          split_ifs
          · rfl
          · rw [← ih, Option.map_map, Option.map_map]
            rfl

/-- **The arguments**, when all of them are strings. -/
theorem argumentStrings_spec (hstrings : ∀ i < argc, (argumentLength mem argvec i).isSome) :
    (argumentStrings mem argvec argc).length = argc ∧
      ∀ s ∈ argumentStrings mem argvec argc, ∃ i < argc,
        (argument mem argvec i).bind (stringAt mem) = some s ∧
          argumentLength mem argvec i = some s.length := by
  have hstring : ∀ i, ((argument mem argvec i).bind (stringAt mem)).map List.length =
      argumentLength mem argvec i := by
    intro i
    rw [argumentLength, Option.map_bind]
    congr 1
    funext a
    exact length_stringFrom mem addressCount a
  constructor
  · rw [argumentStrings, List.length_filterMap_eq_countP, List.countP_eq_length.mpr,
      List.length_range]
    intro i hi
    have hsome := hstrings i (List.mem_range.mp hi)
    rwa [← hstring, Option.isSome_map] at hsome
  · intro s hs
    obtain ⟨i, hi, hsi⟩ := List.mem_filterMap.mp hs
    refine ⟨i, List.mem_range.mp hi, hsi, ?_⟩
    rw [← hstring, hsi]
    rfl

end Strings

/-! ## The copy of the strings -/

section Copies

variable {strs : List (List UInt8)} {m : Image} {dest x : UInt32}

theorem stringBytes_cons (s : List UInt8) (rest : List (List UInt8)) :
    stringBytes (s :: rest) = stringBytes rest ++ (s ++ [0]) := by
  simp [stringBytes]

theorem length_stringBytes_cons (s : List UInt8) (rest : List (List UInt8)) :
    (stringBytes (s :: rest)).length = (stringBytes rest).length + (s.length + 1) := by
  rw [stringBytes_cons, List.length_append, List.length_append, List.length_singleton]

/-- Where the copy ends. -/
theorem copyStrings_dest (strs : List (List UInt8)) (m : Image) (dest : UInt32) :
    (copyStrings strs m dest).2.1 = dest - UInt32.ofNat (stringBytes strs).length := by
  induction strs generalizing m dest with
  | nil => exact (UInt32.sub_zero dest).symm
  | cons s rest ih =>
      rw [copyStrings, ih, length_stringBytes_cons, UInt32.ofNat_add _ (s.length + 1)]
      apply UInt32.toNat.inj
      have hrest := (UInt32.ofNat (stringBytes rest).length).toNat_lt
      have hs := (UInt32.ofNat (s.length + 1)).toNat_lt
      rw [UInt32.toNat_sub, UInt32.toNat_sub, UInt32.toNat_sub, UInt32.toNat_add]
      omega

/-- **The memory after the copy.** -/
theorem copyStrings_apply (hlen : (stringBytes strs).length ≤ 2 ^ 32) :
    (copyStrings strs m dest).1 x =
      ((stringBytes strs)[(x - (copyStrings strs m dest).2.1).toNat]?).getD (m x) := by
  induction strs generalizing m dest with
  | nil => rfl
  | cons s rest ih =>
      rw [length_stringBytes_cons] at hlen
      have hs : (s ++ [0]).length ≤ 2 ^ 32 := by
        rw [List.length_append, List.length_singleton]
        omega
      rw [copyStrings, ih (by omega), stringBytes_cons, storeBytes_apply _ _ _ hs]
      set low := (copyStrings rest (storeBytes m (dest - UInt32.ofNat (s.length + 1)) (s ++ [0]))
        (dest - UInt32.ofNat (s.length + 1))).2.1 with hlow
      have hstart : dest - UInt32.ofNat (s.length + 1) =
          low + UInt32.ofNat (stringBytes rest).length := by
        rw [hlow, copyStrings_dest, UInt32.sub_add_cancel]
      by_cases hx : (x - low).toNat < (stringBytes rest).length
      · rw [List.getElem?_append_left hx, List.getElem?_eq_getElem hx]
        rfl
      · have hle := Nat.not_lt.mp hx
        rw [List.getElem?_append_right hle, List.getElem?_eq_none hle, hstart, sub_add_toNat hle]
        rfl

/-- **The addresses in `vector`.** -/
theorem copyStrings_vector (strs : List (List UInt8)) (m : Image) (dest : UInt32) :
    (copyStrings strs m dest).2.2.length = strs.length ∧
      ∀ k < strs.length, (copyStrings strs m dest).2.2[k]? = some
        ((copyStrings strs m dest).2.1 + UInt32.ofNat (stringBytes (strs.drop (k + 1))).length) := by
  induction strs generalizing m dest with
  | nil => exact ⟨rfl, nofun⟩
  | cons s rest ih =>
      obtain ⟨hlength, hword⟩ := ih (storeBytes m (dest - UInt32.ofNat (s.length + 1)) (s ++ [0]))
        (dest - UInt32.ofNat (s.length + 1))
      refine ⟨congrArg Nat.succ hlength, fun k hk => ?_⟩
      rw [copyStrings]
      cases k with
      | zero =>
          show some _ = some _
          rw [copyStrings_dest, List.drop_succ_cons, List.drop_zero, UInt32.sub_add_cancel]
      | succ k => exact hword k (Nat.lt_of_succ_lt_succ hk)

/-- Each argument lies among the strings, with its `NUL`. -/
theorem prefix_drop_stringBytes {k : Nat} (hk : k < strs.length) :
    strs[k] ++ [0] <+: (stringBytes strs).drop (stringBytes (strs.drop (k + 1))).length := by
  induction strs generalizing k with
  | nil => exact absurd hk (Nat.not_lt_zero k)
  | cons s rest ih =>
      rw [stringBytes_cons]
      cases k with
      | zero =>
          rw [List.drop_succ_cons, List.drop_zero, List.drop_left]
          exact List.prefix_refl _
      | succ k =>
          have hlt := Nat.lt_of_succ_lt_succ hk
          rw [List.drop_succ_cons]
          have hle := (ih hlt).length_le
          rw [List.length_drop, List.length_append, List.length_singleton] at hle
          rw [List.drop_append_of_le_length (by omega)]
          exact (ih hlt).trans (List.prefix_append _ _)

end Copies

/-! ## The whole stack -/

section Stack

variable {strs : List (List UInt8)} {behind : Nat → UInt32} {m : Image} {x : UInt32}

/-- The strings, when they fit into the two pages of the stack. -/
theorem stringsBase_toNat (hlen : (stringBytes strs).length ≤ 5100) :
    (stringsBase strs).toNat = 0xffffffff - (stringBytes strs).length := by
  have htop : (0xffffffff : UInt32).toNat = 0xffffffff := rfl
  rw [stringsBase, UInt32.toNat_sub, UInt32.toNat_ofNat', htop]
  omega

/-- Where the array is. -/
theorem copyArguments_dest : (copyArguments strs behind m).2 = stringsBase strs - 20 := by
  show (copyStrings strs m 0xffffffff).2.1 - 20 = _
  rw [copyStrings_dest]
  rfl

theorem length_words (addresses : List UInt32) :
    ((List.range 5).map (vectorWord addresses behind)).length = 5 := by
  rw [List.length_map, List.length_range]

/-- The strings stay as they were copied. -/
theorem copyArguments_strings (hlen : (stringBytes strs).length ≤ 5100) {o : Nat}
    (ho : o < (stringBytes strs).length) :
    (copyArguments strs behind m).1 (stringsBase strs + UInt32.ofNat o) = (stringBytes strs)[o] := by
  have hbase := stringsBase_toNat hlen
  have hdest : (copyStrings strs m 0xffffffff).2.1 = stringsBase strs := copyStrings_dest ..
  show storeBytes _ ((copyStrings strs m 0xffffffff).2.1 - 20) _ _ = _
  rw [storeBytes_of_le (by rw [length_flatMap_wordBytes, length_words]; decide),
    copyStrings_apply (by omega), hdest, add_sub_toNat _ (by omega), List.getElem?_eq_getElem ho]
  · rfl
  · have htwenty : (20 : UInt32).toNat = 20 := rfl
    rw [length_flatMap_wordBytes, length_words, hdest, sub_toNat, UInt32.toNat_add,
      UInt32.toNat_ofNat', UInt32.toNat_sub, htwenty]
    omega

/-- **The five words** that `memcpy` copies. -/
theorem copyArguments_words {k : Nat} (hk : k < 5) :
    load (copyArguments strs behind m).1
      ((copyArguments strs behind m).2 + UInt32.ofNat (4 * k)) =
        vectorWord (copyStrings strs m 0xffffffff).2.2 behind k := by
  have hlength : ((List.range 5).map
      (vectorWord (copyStrings strs m 0xffffffff).2.2 behind)).length = 5 := length_words _
  have hload := load_storeBytes_flatMap (m := (copyStrings strs m 0xffffffff).1)
    (a := (copyStrings strs m 0xffffffff).2.1 - 20) (by rw [hlength]; decide)
    (k := k) (by rw [hlength]; exact hk)
  rw [List.getElem_map, List.getElem_range] at hload
  exact hload

/-- The words of an argument. -/
theorem vectorWord_argument {k : Nat} (hk : k < strs.length) :
    vectorWord (copyStrings strs m 0xffffffff).2.2 behind k =
      stringsBase strs + UInt32.ofNat (stringBytes (strs.drop (k + 1))).length := by
  obtain ⟨hlength, hword⟩ := copyStrings_vector strs m 0xffffffff
  have hk' : k < (copyStrings strs m 0xffffffff).2.2.length := by rwa [hlength]
  rw [vectorWord, List.getD_eq_getElem?_getD, List.getElem?_append_left hk', hword k hk,
    copyStrings_dest]
  rfl

/-- The `NULL`. -/
theorem vectorWord_null :
    vectorWord (copyStrings strs m 0xffffffff).2.2 behind strs.length = 0 := by
  obtain ⟨hlength, -⟩ := copyStrings_vector strs m 0xffffffff
  rw [vectorWord, List.getD_eq_getElem?_getD, ← hlength,
    List.getElem?_append_right (Nat.le_refl _), Nat.sub_self]
  rfl

/-- **What the pushed words leave alone.** -/
theorem pushEntry_of_far {argc : Nat} {dest : UInt32} (hx : 16 ≤ (x - 0xffffff04).toNat) :
    (pushEntry argc dest m 0xffffff10).1 x = m x := by
  have hfar : ∀ a : UInt32, a.toNat - 0xffffff04 ≤ 12 → 0xffffff04 ≤ a.toNat →
      4 ≤ (x - a).toNat := by
    intro a ha ha'
    have hx' := x.toNat_lt
    have halt := a.toNat_lt
    have hesp : (0xffffff04 : UInt32).toNat = 0xffffff04 := rfl
    rw [sub_toNat] at hx ⊢
    rw [hesp] at hx
    omega
  have hword : ∀ (m : Image) (a w : UInt32), a.toNat - 0xffffff04 ≤ 12 → 0xffffff04 ≤ a.toNat →
      storeWord m a w x = m x := fun m a w ha ha' =>
    storeBytes_of_le (by rw [length_wordBytes]; decide)
      (by rw [length_wordBytes]; exact hfar a ha ha')
  show storeWord (storeWord (storeWord (storeWord m 0xffffff10 0xffffc000) 0xffffff0c 0xffffffff)
    0xffffff08 dest) 0xffffff04 (UInt32.ofNat argc) x = m x
  rw [hword _ _ _ (by decide) (by decide), hword _ _ _ (by decide) (by decide),
    hword _ _ _ (by decide) (by decide), hword _ _ _ (by decide) (by decide)]

/-- `argc` and `argv` on the stack. -/
theorem pushEntry_words (argc : Nat) (dest : UInt32) (m : Image) :
    load (pushEntry argc dest m 0xffffff10).1 0xffffff04 = UInt32.ofNat argc ∧
      load (pushEntry argc dest m 0xffffff10).1 0xffffff08 = dest := by
  refine ⟨load_storeWord _ 0xffffff04 _, ?_⟩
  show load (storeWord _ 0xffffff04 _) 0xffffff08 = dest
  rw [load_storeWord_of_disjoint (by decide) (by decide)]
  exact load_storeWord _ 0xffffff08 _

end Stack

/-! ## Entry -/

section Entry

variable {strs : List (List UInt8)} {behind : Nat → UInt32} {m : Image} {x w : UInt32} {n : Nat}

/-- The user memory at entry, for the arguments on the kernel stack. -/
def entryImage (strs : List (List UInt8)) (behind : Nat → UInt32) (m : Image) : Image :=
  let r := copyArguments strs behind m
  (pushEntry strs.length r.2 r.1 0xffffff10).1

/-- Each string lies among them beside the others, of which every one has its `NUL`. -/
theorem length_add_length_le {k : Nat} (hk : k < strs.length) :
    strs[k].length + strs.length ≤ (stringBytes strs).length := by
  have hcount : ∀ strs : List (List UInt8), strs.length ≤ (stringBytes strs).length := by
    intro strs
    induction strs with
    | nil => exact Nat.zero_le _
    | cons s rest ih =>
        rw [length_stringBytes_cons, List.length_cons]
        omega
  induction strs generalizing k with
  | nil => exact absurd hk (Nat.not_lt_zero k)
  | cons s rest ih =>
      rw [length_stringBytes_cons, List.length_cons]
      cases k with
      | zero =>
          have hrest := hcount rest
          rw [List.getElem_cons_zero]
          omega
      | succ k =>
          have hk' := ih (Nat.lt_of_succ_lt_succ hk)
          rw [List.getElem_cons_succ]
          omega

/-- The limits of `sys_exec` bound the length of all of them. -/
theorem length_stringBytes_le (hlen : ∀ s ∈ strs, s.length ≤ argvLimit) :
    (stringBytes strs).length ≤ 51 * strs.length := by
  induction strs with
  | nil => exact Nat.zero_le _
  | cons s rest ih =>
      have hs : s.length ≤ 50 := hlen s List.mem_cons_self
      have hrest := ih fun t ht => hlen t (List.mem_cons_of_mem s ht)
      rw [length_stringBytes_cons, List.length_cons]
      omega

/-- `argv`. -/
theorem argvOf_entryImage :
    argvOf (entryImage strs behind m) 0xffffff00 = stringsBase strs - 20 :=
  (pushEntry_words ..).2.trans copyArguments_dest

/-- Where the array is, in the numbers. -/
theorem stringsBase_sub_toNat (hlen : (stringBytes strs).length ≤ 5100) :
    (stringsBase strs - 20).toNat = 0xffffffff - (stringBytes strs).length - 20 := by
  have htwenty : (20 : UInt32).toNat = 20 := rfl
  have hbase := stringsBase_toNat hlen
  rw [UInt32.toNat_sub, hbase, htwenty]
  omega

/-- **The pushed words stay away** from strings and array when both are short. -/
theorem entryImage_apply (hlen : (stringBytes strs).length ≤ 215)
    (hn : n ≤ (stringBytes strs).length + 20) :
    entryImage strs behind m (stringsBase strs - 20 + UInt32.ofNat n) =
      (copyArguments strs behind m).1 (stringsBase strs - 20 + UInt32.ofNat n) := by
  have hbase : (stringsBase strs - 20).toNat = _ := stringsBase_sub_toNat (by omega)
  have hesp : (0xffffff04 : UInt32).toNat = 0xffffff04 := rfl
  have hfar : 16 ≤ (stringsBase strs - 20 + UInt32.ofNat n - 0xffffff04).toNat := by
    rw [sub_toNat, UInt32.toNat_add, UInt32.toNat_ofNat', hbase, hesp]
    omega
  exact pushEntry_of_far hfar

/-- The strings begin where the five words end. -/
theorem stringsBase_add (strs : List (List UInt8)) (n : Nat) :
    stringsBase strs - 20 + UInt32.ofNat (20 + n) = stringsBase strs + UInt32.ofNat n := by
  have htwenty : UInt32.ofNat 20 = 20 := rfl
  rw [UInt32.ofNat_add, ← UInt32.add_assoc, htwenty, UInt32.sub_add_cancel]

/-- The strings are there at entry. -/
theorem entryImage_strings (hlen : (stringBytes strs).length ≤ 215)
    (hn : n < (stringBytes strs).length) :
    entryImage strs behind m (stringsBase strs + UInt32.ofNat n) = (stringBytes strs)[n] := by
  have happly : entryImage strs behind m (stringsBase strs - 20 + UInt32.ofNat (20 + n)) = _ :=
    entryImage_apply hlen (by omega)
  rw [stringsBase_add] at happly
  exact happly.trans (copyArguments_strings (by omega) hn)

/-- **The five words are there at entry.** -/
theorem entryImage_words (hlen : (stringBytes strs).length ≤ 215) {k : Nat} (hk : k < 5) :
    load (entryImage strs behind m) (stringsBase strs - 20 + UInt32.ofNat (4 * k)) =
      vectorWord (copyStrings strs m 0xffffffff).2.2 behind k := by
  rw [← copyArguments_words hk, copyArguments_dest]
  refine load_congr fun j hj => ?_
  rw [UInt32.add_assoc, ← UInt32.ofNat_add]
  exact entryImage_apply hlen (by omega)

/-- The word that the strings spell, byte by byte. -/
theorem spelled_eq_some_iff :
    spelled strs n = some w ↔
      n + 4 ≤ (stringBytes strs).length ∧
        ∀ j, (hj : j < 4) → (stringBytes strs)[n + j]? = some (wordBytes w)[j] := by
  have hget : ∀ j, (stringBytes strs)[n + j]? = ((stringBytes strs).drop n)[j]? :=
    fun j => List.getElem?_drop.symm
  have hlength : ((stringBytes strs).drop n).length = (stringBytes strs).length - n :=
    List.length_drop
  rw [spelled]
  simp only [hget]
  generalize (stringBytes strs).drop n = bytes at hlength
  match bytes with
  | [] | [_] | [_, _] | [_, _, _] =>
      refine ⟨nofun, fun ⟨hle, _⟩ => ?_⟩
      simp only [List.length_cons, List.length_nil] at hlength
      omega
  | b0 :: b1 :: b2 :: b3 :: rest =>
      simp only [List.length_cons] at hlength
      constructor
      · intro hword
        obtain rfl := Option.some.inj hword
        refine ⟨by omega, fun j hj => ?_⟩
        simp only [wordBytes_wordOf]
        interval_cases j <;> rfl
      · rintro ⟨-, hbytes⟩
        have h0 := Option.some.inj (hbytes 0 (by decide))
        have h1 := Option.some.inj (hbytes 1 (by decide))
        have h2 := Option.some.inj (hbytes 2 (by decide))
        have h3 := Option.some.inj (hbytes 3 (by decide))
        rw [h0, h1, h2, h3]
        exact congrArg some (wordOf_wordBytes w)

/-- **Beyond the five words the array consists of what the strings spell.** -/
theorem load_entryImage_iff (hlen : (stringBytes strs).length ≤ 215)
    (hn : n + 4 ≤ (stringBytes strs).length) :
    load (entryImage strs behind m) (stringsBase strs + UInt32.ofNat n) = w ↔
      spelled strs n = some w := by
  rw [load_eq_iff, spelled_eq_some_iff]
  have hbyte : ∀ j, (hj : j < 4) →
      (entryImage strs behind m (stringsBase strs + UInt32.ofNat n + UInt32.ofNat j) =
          (wordBytes w)[j] ↔
        (stringBytes strs)[n + j]? = some (wordBytes w)[j]) := by
    intro j hj
    rw [UInt32.add_assoc, ← UInt32.ofNat_add, entryImage_strings hlen (by omega),
      List.getElem?_eq_getElem (by omega), Option.some.injEq]
  exact ⟨fun h => ⟨hn, fun j hj => (hbyte j hj).mp (h j hj)⟩,
    fun h j hj => (hbyte j hj).mpr (h.2 j hj)⟩

/-- **A copy of a string** is a position from which the strings begin with it. -/
theorem copyAt_iff (hlen : (stringBytes strs).length ≤ 215) {o : Nat} (ho : o < 2 ^ 32)
    (s : List UInt8) :
    CopyAt (entryImage strs behind m) strs (stringsBase strs + UInt32.ofNat o) s ↔
      s ++ [0] <+: (stringBytes strs).drop o := by
  have hs : (s ++ [0]).length = s.length + 1 := by rw [List.length_append, List.length_singleton]
  have hbyte : ∀ j, o + s.length < (stringBytes strs).length → (hj : j < (s ++ [0]).length) →
      (entryImage strs behind m (stringsBase strs + UInt32.ofNat o + UInt32.ofNat j) =
          (s ++ [0])[j] ↔
        ((stringBytes strs).drop o)[j]? = some (s ++ [0])[j]) := by
    intro j hle hj
    rw [UInt32.add_assoc, ← UInt32.ofNat_add, entryImage_strings hlen (by omega),
      List.getElem?_drop, List.getElem?_eq_getElem (by omega), Option.some.injEq]
  rw [List.prefix_iff_getElem?]
  constructor
  · rintro ⟨hinside, hbytes⟩ j hj
    rw [add_sub_toNat _ ho] at hinside
    exact (hbyte j hinside hj).mp (hbytes j hj)
  · intro hbegins
    have hinside : o + s.length < (stringBytes strs).length := by
      have hlast := hbegins s.length (by omega)
      rw [List.getElem?_drop] at hlast
      exact (List.getElem?_eq_some_iff.mp hlast).1
    refine ⟨by rwa [add_sub_toNat _ ho], fun j hj => (hbyte j hinside hj).mpr (hbegins j hj)⟩

end Entry

/-! ## Delivery -/

section Delivery

variable {strs : List (List UInt8)} {behind : Nat → UInt32} {m : Image}

/-- The array lies in the strings from its sixth word on. -/
theorem entry_address (strs : List (List UInt8)) {i : Nat} (hi : 5 ≤ i) :
    stringsBase strs - 20 + UInt32.ofNat (4 * i) =
      stringsBase strs + UInt32.ofNat (4 * (i - 5)) := by
  rw [← stringsBase_add]
  congr 2
  omega

/-- **Short strings are out of reach** of the pushed words, and so is the array. -/
theorem apart_of_short (hlen : (stringBytes strs).length ≤ 215)
    (hargs : 4 * strs.length ≤ (stringBytes strs).length + 16) {x : UInt32}
    (hx : PushedAt 0xffffff00 x) :
    4 * (strs.length + 1) ≤ (x - (stringsBase strs - 20)).toNat ∧
      (stringBytes strs).length ≤ (x - stringsBase strs).toNat := by
  have hesp : (0xffffff00 + 4 : UInt32).toNat = 0xffffff04 := rfl
  have hxlt := x.toNat_lt
  rw [PushedAt, sub_toNat, hesp] at hx
  rw [sub_toNat x (stringsBase strs - 20), sub_toNat x (stringsBase strs),
    stringsBase_sub_toNat (by omega), stringsBase_toNat (by omega)]
  omega

/-- **Of five arguments the strings are short**, when the pushed words lie elsewhere: the last byte
that is pushed is `0xffffff13`. -/
theorem short_of_apart (hlen : (stringBytes strs).length ≤ 5100) (hargs : 5 ≤ strs.length)
    (harray : ∀ x, PushedAt 0xffffff00 x →
      4 * (strs.length + 1) ≤ (x - (stringsBase strs - 20)).toNat)
    (hstrings : ∀ x, PushedAt 0xffffff00 x →
      (stringBytes strs).length ≤ (x - stringsBase strs).toNat) :
    (stringBytes strs).length ≤ 215 := by
  have hlast : (0xffffff13 : UInt32).toNat = 0xffffff13 := rfl
  have hpushed : PushedAt 0xffffff00 0xffffff13 := by
    rw [PushedAt]
    decide
  have harr := harray _ hpushed
  have hstr := hstrings _ hpushed
  rw [sub_toNat, hlast, stringsBase_sub_toNat hlen] at harr
  rw [sub_toNat, hlast, stringsBase_toNat hlen] at hstr
  omega

/-- The entries that `memcpy` copies. -/
theorem entry_of_lt (hlen : (stringBytes strs).length ≤ 215) {i : Nat} (hi : i < strs.length)
    (hfive : i < 5) :
    CopyAt (entryImage strs behind m) strs
      (load (entryImage strs behind m) (stringsBase strs - 20 + UInt32.ofNat (4 * i)))
      strs[i] := by
  have hbegins := prefix_drop_stringBytes hi
  have hle := hbegins.length_le
  rw [List.length_drop, List.length_append, List.length_singleton] at hle
  rw [entryImage_words hlen hfive, vectorWord_argument hi, copyAt_iff hlen (by omega)]
  exact hbegins

/-- The `NULL` that `memcpy` copies. -/
theorem null_of_lt (hlen : (stringBytes strs).length ≤ 215) (hfive : strs.length < 5) :
    load (entryImage strs behind m) (stringsBase strs - 20 + UInt32.ofNat (4 * strs.length)) =
      0 := by
  rw [entryImage_words hlen hfive, vectorWord_null]

/-- **What is enough.** -/
theorem delivered_of_short (hlen : (stringBytes strs).length ≤ 215)
    (hrest : 5 ≤ strs.length → SpellsRest strs) :
    ArgumentsDelivered (entryImage strs behind m) 0xffffff00 strs := by
  have hargs : 4 * strs.length ≤ (stringBytes strs).length + 16 := by
    rcases Nat.lt_or_ge strs.length 5 with hfew | hmany
    · omega
    · have hnull := (spelled_eq_some_iff.mp (hrest hmany).null).1
      omega
  refine ⟨(pushEntry_words ..).1, ?_, fun i hi => ?_, ?_, fun x hx => ?_, fun x hx =>
    (apart_of_short hlen hargs hx).2⟩
  · rw [argvOf_entryImage, stringsBase_sub_toNat (by omega), userMemStart]
    omega
  · rw [argvOf_entryImage]
    rcases Nat.lt_or_ge i 5 with hfew | hmany
    · exact entry_of_lt hlen hi hfew
    · obtain ⟨o, hspelled, hbegins⟩ := (hrest (by omega)).entry i hmany hi
      have hle := hbegins.length_le
      rw [List.length_drop, List.length_append, List.length_singleton] at hle
      have hinside := (spelled_eq_some_iff.mp hspelled).1
      rw [entry_address strs hmany, (load_entryImage_iff hlen hinside).mpr hspelled,
        copyAt_iff hlen (by omega)]
      exact hbegins
  · rw [argvOf_entryImage]
    rcases Nat.lt_or_ge strs.length 5 with hfew | hmany
    · exact null_of_lt hlen hfew
    · have hspelled := (hrest hmany).null
      rw [entry_address strs hmany]
      exact (load_entryImage_iff hlen (spelled_eq_some_iff.mp hspelled).1).mpr hspelled
  · rw [argvOf_entryImage]
    exact (apart_of_short hlen hargs hx).1

/-- An address among short strings has no byte 0. -/
theorem ne_zero_of_mem_wordBytes (hlen : (stringBytes strs).length ≤ 215) {o : Nat}
    (ho : o < (stringBytes strs).length) :
    ∀ b ∈ wordBytes (stringsBase strs + UInt32.ofNat o), b ≠ 0 := by
  have hbase : (stringsBase strs).toNat = _ := stringsBase_toNat (by omega)
  have haddr : (stringsBase strs + UInt32.ofNat o).toNat =
      0xffffffff - (stringBytes strs).length + o := by
    rw [UInt32.toNat_add, UInt32.toNat_ofNat', hbase]
    omega
  have hne : ∀ n : Nat, n % 2 ^ 8 ≠ 0 → UInt8.ofNat n ≠ 0 := by
    intro n hn hzero
    have htoNat := congrArg UInt8.toNat hzero
    rw [UInt8.toNat_ofNat'] at htoNat
    exact hn htoNat
  intro b hb
  rw [wordBytes, haddr] at hb
  simp only [List.mem_cons, List.not_mem_nil, or_false] at hb
  rcases hb with rfl | rfl | rfl | rfl <;> exact hne _ (by omega)

/-- **The array ends among the strings**: the last string, which lies first, ends with a `NUL`, and
no pointer has a byte 0. -/
theorem ArgumentsDelivered.rest_inside
    (h : ArgumentsDelivered (entryImage strs behind m) 0xffffff00 strs)
    (hlen : (stringBytes strs).length ≤ 215) (hargs : 5 ≤ strs.length) :
    4 * (strs.length - 5) + 4 ≤ (stringBytes strs).length := by
  have hlast : strs.length - 1 < strs.length := by omega
  have hsum := length_add_length_le hlast
  suffices hlong : 4 * (strs.length - 5) ≤ strs[strs.length - 1].length by omega
  by_contra hshort
  obtain ⟨n, hn⟩ : ∃ n, strs[strs.length - 1].length = n := ⟨_, rfl⟩
  rw [hn] at hsum hshort
  -- the `NUL` after the last string
  have hbegins := prefix_drop_stringBytes hlast
  have hnone : strs.drop (strs.length - 1 + 1) = [] := List.drop_eq_nil_of_le (by omega)
  rw [hnone, List.prefix_iff_getElem?] at hbegins
  have hnul : (stringBytes strs)[n]? = some 0 := by
    have hbyte := hbegins n (by rw [List.length_append, hn, List.length_singleton]; omega)
    have hzero : (stringBytes []).length + n = n := Nat.zero_add n
    subst hn
    rwa [List.getElem?_drop, hzero, List.getElem_concat_length rfl] at hbyte
  -- the pointer in whose place it lies
  have hi : 5 + n / 4 < strs.length := by omega
  have hentry := (h.entry (5 + n / 4) hi).inside
  rw [argvOf_entryImage, entry_address strs (by omega)] at hentry
  obtain ⟨w, hw⟩ : ∃ w, load (entryImage strs behind m)
      (stringsBase strs + UInt32.ofNat (4 * (5 + n / 4 - 5))) = w := ⟨_, rfl⟩
  rw [hw] at hentry
  have hbytes := ne_zero_of_mem_wordBytes hlen (o := (w - stringsBase strs).toNat) (by omega)
  rw [add_ofNat_sub] at hbytes
  have hbyte := load_eq_iff.mp hw (n % 4) (by omega)
  have haddr : 4 * (5 + n / 4 - 5) + n % 4 = n := by omega
  rw [UInt32.add_assoc, ← UInt32.ofNat_add, haddr, entryImage_strings hlen (by omega)] at hbyte
  refine hbytes _ (List.getElem_mem _) (hbyte.symm.trans ?_)
  exact Option.some.inj ((List.getElem?_eq_getElem _).symm.trans hnul)

/-- **The stack of the new program**, for any strings that fit into the limits. -/
theorem delivered_iff (hcount : strs.length ≤ argcLimit)
    (hlimit : ∀ s ∈ strs, s.length ≤ argvLimit) :
    ArgumentsDelivered (entryImage strs behind m) 0xffffff00 strs ↔
      strs.length ≤ 4 ∨ ((stringBytes strs).length ≤ 215 ∧ SpellsRest strs) := by
  have hbound := length_stringBytes_le hlimit
  rw [argcLimit] at hcount
  constructor
  · intro h
    by_cases hfew : strs.length ≤ 4
    · exact Or.inl hfew
    refine Or.inr ?_
    have harray := h.array
    rw [argvOf_entryImage] at harray
    have hlen := short_of_apart (by omega) (by omega) harray h.strings
    have hinside := h.rest_inside hlen (by omega)
    refine ⟨hlen, fun i hfive hi => ?_, ?_⟩
    · have hentry := h.entry i hi
      rw [argvOf_entryImage, entry_address strs hfive] at hentry
      obtain ⟨w, hw⟩ : ∃ w, load (entryImage strs behind m)
          (stringsBase strs + UInt32.ofNat (4 * (i - 5))) = w := ⟨_, rfl⟩
      rw [hw, ← add_ofNat_sub w (stringsBase strs)] at hentry
      refine ⟨(w - stringsBase strs).toNat, ?_,
        (copyAt_iff hlen (w - stringsBase strs).toNat_lt _).mp hentry⟩
      rw [add_ofNat_sub]
      exact (load_entryImage_iff hlen (by omega)).mp hw
    · have hnull := h.null
      rw [argvOf_entryImage, entry_address strs (by omega)] at hnull
      exact (load_entryImage_iff hlen hinside).mp hnull
  · rintro (hfew | ⟨hlen, hrest⟩)
    · exact delivered_of_short (by omega) fun hmany => absurd hmany (by omega)
    · exact delivered_of_short hlen fun _ => hrest

end Delivery

/-! ## `sys_exec` -/

section

variable {mem : ByteMemory} {argvec : UInt32} {argc : Nat}

/-- **The arguments of `exec`.** For every vector of `argc` strings within the limits, `sys_exec`
delivers the arguments exactly when there are at most four of them, or when they are short and
happen to spell the rest of the array. -/
theorem argumentsDelivered_iff
    (hstrings : ∀ i < argc, (argumentLength mem argvec i).isSome)
    (hlimits : WithinLimits mem argvec argc) (behind : Nat → UInt32) (m : Image) :
    let strs := argumentStrings mem argvec argc
    let r := execStack mem argvec argc behind m 0xffffff10
    ArgumentsDelivered r.1 r.2 strs ↔
      argc ≤ 4 ∨ ((stringBytes strs).length ≤ 215 ∧ SpellsRest strs) := by
  intro strs r
  obtain ⟨hlength, hmem⟩ := argumentStrings_spec hstrings
  have hlimit : ∀ s ∈ strs, s.length ≤ argvLimit := by
    intro s hs
    obtain ⟨i, hi, -, hlen⟩ := hmem s hs
    by_contra hlong
    exact hlimits.2 i hi ⟨s.length, hlen, Nat.not_le.mp hlong⟩
  have himage : entryImage strs behind m = r.1 := by
    show (pushEntry strs.length _ _ _).1 = (pushEntry argc _ _ _).1
    rw [hlength]
  rw [← himage, ← hlength]
  exact delivered_iff (hlength ▸ hlimits.1) hlimit

end

-- the strings of five arguments spell the `NULL` when the last four are empty
example : SpellsRest [[97], [], [], [], []] where
  entry i hi hlt := absurd hlt (Nat.not_lt.mpr hi)
  null := by decide

/-- One argument of one character is delivered. -/
theorem argumentsDelivered_oneArgument :
    let r := execStack oneArgument 0x01000000 1 (fun _ => 0) (fun _ => 0) 0xffffff10
    ArgumentsDelivered r.1 r.2 (argumentStrings oneArgument 0x01000000 1) := by
  have hlength : ∀ i < 1, argumentLength oneArgument 0x01000000 i = some 1 := by
    intro i hi
    obtain rfl : i = 0 := by omega
    exact argumentLength_oneArgument
  refine (argumentsDelivered_iff (fun i hi => by rw [hlength i hi]; rfl)
    ⟨by decide, fun i hi => ?_⟩ (fun _ => 0) (fun _ => 0)).mpr (Or.inl (by decide))
  rintro ⟨len, hlen, hlong⟩
  rw [hlength i hi, Option.some.injEq] at hlen
  exact absurd hlong (by subst hlen; decide)

/-- The vector at `0x01000000` with five entries `0x01000020`, where the string is `"a"`. -/
def fiveArguments : ByteMemory := fun a =>
  if a - 0x01000000 < 20 then
    if a % 4 = 0 then some 0x20 else if a % 4 = 3 then some 0x01 else some 0
  else if a = 0x01000020 then some 97 else some 0

/-- **The fifth argument is one too many**: the word after its pointer is no `NULL`, but a part of
the strings. -/
theorem fifth_argument_without_null :
    NullTerminated fiveArguments 0x01000000 5 ∧
      (∀ i < 5, argumentLength fiveArguments 0x01000000 i = some 1) ∧
      WithinLimits fiveArguments 0x01000000 5 ∧
      let r := execStack fiveArguments 0x01000000 5 (fun _ => 0) (fun _ => 0) 0xffffff10
      load r.1 (argvOf r.1 r.2 + 20) = 0x00610061 ∧
        ¬ ArgumentsDelivered r.1 r.2 (argumentStrings fiveArguments 0x01000000 5) := by
  have hlength : ∀ i < 5, argumentLength fiveArguments 0x01000000 i = some 1 := by
    decide +kernel
  refine ⟨⟨fun i hi => ⟨0x01000020, ?_, by decide⟩, by decide +kernel⟩, hlength,
    ⟨by decide, fun i hi => ?_⟩, by decide +kernel, fun h => absurd h.null (by decide +kernel)⟩
  · revert i
    decide +kernel
  · rintro ⟨len, hlen, hlong⟩
    rw [hlength i hi, Option.some.injEq] at hlen
    exact absurd hlong (by subst hlen; decide)

end Pebbles.Memory
