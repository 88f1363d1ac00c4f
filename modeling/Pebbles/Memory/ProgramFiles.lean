import Pebbles.Memory.UserAccess

/-! # The two readers of program files

The programs are arrays of bytes in the kernel image, with a table of contents. `sys_readfile`
(`kern/syscall/sys_misc.c`) hands them out to user code, `getbytes` (`kern/loader.c`) to the loader;
both search the table for a name and copy from an offset on. A copy is described by the addresses
that `memcpy` reads, so that it can be compared with the bytes of the file. -/

namespace Pebbles.Memory

/-! ## The table of contents -/

/-- An entry of `exec2obj_userapp_TOC` with its bytes. -/
structure ProgramFile extends TocEntry where
  /-- `execbytes`. -/
  execbytes : UInt32
  /-- The length of an array. -/
  nonneg : 0 ≤ execlen.toInt

namespace ProgramFile

/-- The length. -/
def length (e : ProgramFile) : Nat := e.execlen.toInt.toNat

/-- The name, as a C string. -/
def name (e : ProgramFile) : List UInt8 := e.execname.takeWhile fun ch => ch ≠ 0

/-- **The bytes of the file**, in the kernel image. -/
def contents (image : UInt32 → UInt8) (e : ProgramFile) : List UInt8 :=
  (List.range e.length).map fun i => image (e.execbytes + UInt32.ofNat i)

/-- The length is what the table says. -/
theorem length_eq (e : ProgramFile) : (e.length : Int) = e.execlen.toInt :=
  Int.toNat_of_nonneg e.nonneg

@[simp] theorem length_contents (image : UInt32 → UInt8) (e : ProgramFile) :
    (e.contents image).length = e.length := by
  simp [contents]

end ProgramFile

/-! ## The readers -/

/-- What a reader does: the value it returns, and the addresses that `memcpy` reads, in order. -/
structure Copied where
  /-- The value it returns. -/
  result : Int
  /-- Where the bytes come from. -/
  reads : List UInt32

namespace Copied

/-- The bytes copied to the buffer. -/
def bytes (image : UInt32 → UInt8) (r : Copied) : List UInt8 := r.reads.map image

end Copied

/-- `memcpy` of `n` bytes from `start`. -/
def memcpyReads (start : UInt32) (n : Nat) : List UInt32 :=
  (List.range n).map fun i => start + UInt32.ofNat i

/-- The first entry whose name is the string at `filename`. -/
def searchToc (c : Caller) (filename : UInt32) (toc : List ProgramFile) : Option ProgramFile :=
  toc.find? fun e => (strcmp c e.execname filename).2

/-- `getbytes`. -/
def getbytes (c : Caller) (toc : List ProgramFile) (filename : UInt32) (offset size : Int32) :
    Copied :=
  match searchToc c filename toc with
  | none => ⟨-1, []⟩
  | some e => ⟨size.toInt, memcpyReads (e.execbytes + offset.toUInt32) size.toUInt32.toNat⟩

/-- The loop of `sys_readfile`, after its checks. -/
def readfileCopy (c : Caller) (toc : List ProgramFile) (filename : UInt32) (size offset : Int32) :
    Copied :=
  match searchToc c filename toc with
  | none => ⟨-1, []⟩
  | some e =>
      let realStartingPoint := e.execbytes + offset.toUInt32
      let realsize := min size.toInt (e.execlen - offset).toInt
      if realsize < 0 then ⟨-1, []⟩ else ⟨realsize, memcpyReads realStartingPoint realsize.toNat⟩

/-- `sys_readfile`. -/
def readfile (c : Caller) (toc : List ProgramFile) (filename buf : UInt32) (size offset : Int32) :
    Copied :=
  if c.checks filename = false then ⟨-1, []⟩
  else if c.checks buf = false then ⟨-1, []⟩
  else if size.toInt < 0 ∨ offset.toInt < 0 then ⟨-1, []⟩
  else readfileCopy c toc filename size offset

/-! ## The search -/

section Search

variable {c : Caller} {filename a : UInt32} {toc : List ProgramFile} {e : ProgramFile}
  {name : List UInt8}

/-- The string at `a` is `name`. -/
def Caller.StringAt (c : Caller) : UInt32 → List UInt8 → Prop
  | a, [] => c.bytes a = 0
  | a, ch :: name => ch ≠ 0 ∧ c.bytes a = ch ∧ c.StringAt (a + 1) name

/-- **`strcmp`** finds the name up to its `NUL`. -/
theorem strcmp_iff {l : List UInt8} (string : c.StringAt a name) :
    (strcmp c l a).2 = true ↔ l.takeWhile (fun ch => ch ≠ 0) = name := by
  induction l generalizing a name with
  | nil =>
      cases name with
      | nil =>
          have hzero : c.bytes a = 0 := string
          simp [strcmp, hzero]
      | cons ch name =>
          obtain ⟨hne, hbyte, -⟩ := string
          simp [strcmp, hbyte, hne]
  | cons x l ih =>
      cases name with
      | nil =>
          have hzero : c.bytes a = 0 := string
          by_cases hx : x = 0
          · simp [strcmp, hzero, hx]
          · simp [strcmp, hzero, hx]
      | cons ch name =>
          obtain ⟨hne, hbyte, hrest⟩ := string
          have htail := ih hrest
          by_cases hx : x = ch
          · subst hx
            simp [strcmp, hbyte, hne, htail]
          · by_cases hzero : x = 0
            · subst hzero
              simp [strcmp, hbyte, hx]
            · simp [strcmp, hbyte, hx, hzero]

/-- The search finds the first entry with the name. -/
theorem searchToc_eq (string : c.StringAt filename name) (toc : List ProgramFile) :
    searchToc c filename toc = toc.find? fun e => e.name = name := by
  rw [searchToc]
  congr 1
  funext e
  have hiff := strcmp_iff (l := e.execname) string
  rw [Bool.eq_iff_iff, hiff, decide_eq_true_iff]
  rfl

/-- The search of `UserAccess` finds the same entry. -/
theorem findFile_searchToc (c : Caller) (filename : UInt32) (toc : List ProgramFile) :
    (findFile c filename (toc.map ProgramFile.toTocEntry)).2 =
      (searchToc c filename toc).map ProgramFile.toTocEntry := by
  rw [findFile_found, searchToc, List.find?_map]
  rfl

/-- **`sys_readfile` of `UserAccess`** returns the same and writes as many bytes to the buffer. -/
theorem sysReadfile_readfile (c : Caller) (toc : List ProgramFile) (filename buf : UInt32)
    (size offset : Int32) :
    (sysReadfile c filename buf size offset (toc.map ProgramFile.toTocEntry)).result =
      (readfile c toc filename buf size offset).result := by
  have hsearch := findFile_searchToc c filename toc
  rw [sysReadfile, readfile]
  split_ifs
  · rfl
  · rfl
  · rfl
  · generalize findFile c filename (toc.map ProgramFile.toTocEntry) = found at hsearch ⊢
    obtain ⟨compared, entry⟩ := found
    rw [readfileCopy]
    cases hfound : searchToc c filename toc with
    | none =>
        rw [hfound] at hsearch
        obtain rfl : entry = none := hsearch
        rfl
    | some e =>
        rw [hfound] at hsearch
        obtain rfl : entry = some e.toTocEntry := hsearch
        dsimp only
        split_ifs <;> rfl

end Search

/-! ## The copies -/

/-- A difference of two `int`s that are not negative does not overflow. -/
theorem toInt_sub_of_nonneg {a b : Int32} (ha : 0 ≤ a.toInt) (hb : 0 ≤ b.toInt) :
    (a - b).toInt = a.toInt - b.toInt := by
  have hlt := a.toInt_lt
  have hlt' := b.toInt_lt
  rw [Int32.toInt_sub]
  apply Int.bmod_eq_of_le <;> omega

/-- An offset that is not negative, as an `unsigned int`. -/
theorem toUInt32_of_nonneg {a : Int32} (ha : 0 ≤ a.toInt) :
    a.toUInt32 = UInt32.ofNat a.toInt.toNat := by
  have hnat := Int32.toNat_toUInt32_of_le (Int32.le_iff_toInt_le.mpr ha)
  rw [← UInt32.ofNat_toNat (x := a.toUInt32), hnat]
  rfl

section Copies

variable {c : Caller} {toc : List ProgramFile} {filename buf : UInt32} {size offset : Int32}
  {e : ProgramFile} {image : UInt32 → UInt8}

/-- **The copy of `sys_readfile`**, when the name is found: nothing beyond the end of the file. -/
theorem readfileCopy_found (found : searchToc c filename toc = some e) (hsize : 0 ≤ size.toInt)
    (hoffset : 0 ≤ offset.toInt) :
    readfileCopy c toc filename size offset =
      if e.execlen.toInt < offset.toInt then ⟨-1, []⟩
      else ⟨min size.toInt (e.execlen.toInt - offset.toInt),
        memcpyReads (e.execbytes + UInt32.ofNat offset.toInt.toNat)
          (min size.toInt (e.execlen.toInt - offset.toInt)).toNat⟩ := by
  rw [readfileCopy, found]
  dsimp only
  rw [toInt_sub_of_nonneg e.nonneg hoffset, toUInt32_of_nonneg hoffset]
  have hreal : min size.toInt (e.execlen.toInt - offset.toInt) < 0 ↔
      e.execlen.toInt < offset.toInt := by
    omega
  simp only [hreal]

/-- **The copy of `getbytes`**: as many bytes as were asked for. -/
theorem getbytes_found (found : searchToc c filename toc = some e) (hsize : 0 ≤ size.toInt)
    (hoffset : 0 ≤ offset.toInt) :
    getbytes c toc filename offset size =
      ⟨size.toInt,
        memcpyReads (e.execbytes + UInt32.ofNat offset.toInt.toNat) size.toInt.toNat⟩ := by
  have hlt := size.toInt_lt
  have hnat : size.toUInt32.toNat = size.toInt.toNat := by
    rw [toUInt32_of_nonneg hsize, UInt32.toNat_ofNat']
    exact Nat.mod_eq_of_lt (by omega)
  rw [getbytes, found]
  dsimp only
  rw [toUInt32_of_nonneg hoffset, hnat]

/-- A copy from inside the file gives its bytes. -/
theorem map_memcpyReads (image : UInt32 → UInt8) (e : ProgramFile) {k n : Nat}
    (fits : k + n ≤ e.length) :
    (memcpyReads (e.execbytes + UInt32.ofNat k) n).map image =
      ((e.contents image).drop k).take n := by
  apply List.ext_getElem
  · simp only [memcpyReads, List.length_map, List.length_range, List.length_take,
      List.length_drop, ProgramFile.length_contents]
    omega
  · intro i _ _
    simp only [memcpyReads, ProgramFile.contents, List.getElem_map, List.getElem_range,
      List.getElem_take, List.getElem_drop, UInt32.ofNat_add]
    rw [UInt32.add_assoc]

end Copies

/-! ## Reading in chunks -/

/-- **The loop of `cat`**: `while ((amt_read = readfile(name, buf, size, offset)) > 0)
offset += amt_read`, from call number `n` on, for at most `fuel` calls. Between the calls the memory
of the caller may change. The result is the last value returned, the offset and the bytes copied. -/
def readChunks (callers : Nat → Caller) (image : UInt32 → UInt8) (toc : List ProgramFile)
    (filename buf : UInt32) (size : Int32) :
    Nat → Nat → Int32 → List UInt8 → Option (Int × Int32 × List UInt8)
  | 0, _, _, _ => none
  | fuel + 1, n, offset, out =>
      let r := readfile (callers n) toc filename buf size offset
      if r.result > 0 then
        readChunks callers image toc filename buf size fuel (n + 1)
          (offset + Int32.ofInt r.result) (out ++ r.bytes image)
      else some (r.result, offset, out)

/-- **A valid request**: both pointers pass the checks, and the name is at `filename`. -/
structure Caller.Asks (c : Caller) (filename buf : UInt32) (name : List UInt8) : Prop where
  /-- The check of `filename`. -/
  nameChecked : c.checks filename = true
  /-- The check of `buf`. -/
  bufChecked : c.checks buf = true
  /-- The name. -/
  string : c.StringAt filename name

section Chunks

variable {callers : Nat → Caller} {image : UInt32 → UInt8} {toc : List ProgramFile}
  {filename buf : UInt32} {size offset : Int32} {name : List UInt8} {e : ProgramFile}

/-- **One call** copies the next chunk, and the last one nothing. -/
theorem readfile_chunk {c : Caller} (asks : c.Asks filename buf name)
    (first : toc.find? (fun e => e.name = name) = some e) (hsize : 1 ≤ size.toInt)
    (hoffset : 0 ≤ offset.toInt) (inside : offset.toInt ≤ e.execlen.toInt) :
    readfile c toc filename buf size offset =
      ⟨min size.toInt (e.execlen.toInt - offset.toInt),
        memcpyReads (e.execbytes + UInt32.ofNat offset.toInt.toNat)
          (min size.toInt (e.execlen.toInt - offset.toInt)).toNat⟩ := by
  have hfound : searchToc c filename toc = some e := by
    rw [searchToc_eq asks.string, first]
  have hargs : ¬(size.toInt < 0 ∨ offset.toInt < 0) := by
    omega
  rw [readfile, asks.nameChecked, asks.bufChecked, if_neg (by decide), if_neg (by decide),
    if_neg hargs, readfileCopy_found hfound (by omega) hoffset, if_neg (by omega)]

/-- **The loop**, from an offset inside the file on. -/
theorem readChunks_from (asks : ∀ n, (callers n).Asks filename buf name)
    (first : toc.find? (fun e => e.name = name) = some e) (hsize : 1 ≤ size.toInt)
    (fuel n : Nat) (hoffset : 0 ≤ offset.toInt) (inside : offset.toInt ≤ e.execlen.toInt)
    (enough : e.length < fuel + offset.toInt.toNat) :
    readChunks callers image toc filename buf size fuel n offset
        ((e.contents image).take offset.toInt.toNat) =
      some (0, e.execlen, e.contents image) := by
  have hlength := e.length_eq
  have hlt := e.execlen.toInt_lt
  induction fuel generalizing n offset with
  | zero => omega
  | succ fuel ih =>
      have hcall := readfile_chunk (asks n) first hsize hoffset inside
      rw [readChunks, hcall]
      dsimp only
      by_cases hend : offset.toInt = e.execlen.toInt
      · -- the last call
        have hzero : min size.toInt (e.execlen.toInt - offset.toInt) = 0 := by
          omega
        have hwhole : (e.contents image).take offset.toInt.toNat = e.contents image := by
          apply List.take_of_length_le
          rw [ProgramFile.length_contents]
          omega
        rw [hzero, if_neg (Int.lt_irrefl 0), hwhole, Int32.toInt_inj.mp hend]
      · generalize hchunk : min size.toInt (e.execlen.toInt - offset.toInt) = chunk
        have hpos : chunk > 0 := by
          omega
        have hnext : (offset + Int32.ofInt chunk).toInt = offset.toInt + chunk := by
          rw [Int32.toInt_add, Int32.toInt_ofInt_of_le (by omega) (by omega)]
          apply Int.bmod_eq_of_le <;> omega
        have hbytes : (e.contents image).take offset.toInt.toNat ++
            (memcpyReads (e.execbytes + UInt32.ofNat offset.toInt.toNat) chunk.toNat).map image =
              (e.contents image).take (offset + Int32.ofInt chunk).toInt.toNat := by
          have hsum : (offset + Int32.ofInt chunk).toInt.toNat =
              offset.toInt.toNat + chunk.toNat := by
            rw [hnext]
            omega
          rw [map_memcpyReads image e (by omega), hsum, List.take_add]
        rw [if_pos hpos, Copied.bytes, hbytes]
        apply ih <;> omega

/-- **Reading a file in chunks reproduces it.** For every table, every name in it and every chunk
size, the loop ends with the result 0, at the end of the first file with this name, and has copied
the bytes of this file. -/
theorem readChunks_reproduces (asks : ∀ n, (callers n).Asks filename buf name)
    (first : toc.find? (fun e => e.name = name) = some e) (hsize : 1 ≤ size.toInt) {fuel : Nat}
    (enough : e.length < fuel) :
    readChunks callers image toc filename buf size fuel 0 0 [] =
      some (0, e.execlen, e.contents image) :=
  readChunks_from asks first hsize fuel 0 (Int.le_refl 0) e.nonneg enough

/-- A file of three bytes with the name `a`. -/
def threeBytes : ProgramFile where
  execname := [97]
  execlen := 3
  execbytes := 0x200000
  nonneg := by decide

/-- The process of `stackCaller`, with the string `a` in its lower stack page. -/
def namingCaller : Caller := { stackCaller with bytes := fun a => if a = 0xffffe000 then 97 else 0 }

/-- Two calls copy the file in chunks of two bytes, and a third one ends the loop. -/
theorem readChunks_reproduces_three :
    readChunks (fun _ => namingCaller) UInt32.toUInt8 [threeBytes] 0xffffe000 0xfffff000 2 4 0 0
      [] = some (0, 3, [0, 1, 2]) := by
  have asks : namingCaller.Asks 0xffffe000 0xfffff000 [97] :=
    ⟨by decide, by decide, by decide, by decide, rfl⟩
  have hfirst : [threeBytes].find? (fun e => e.name = [97]) = some threeBytes := rfl
  exact readChunks_reproduces (fun _ => asks) hfirst (by decide) (by decide)

end Chunks

/-! ## The two readers -/

/-- **The two readers agree**, and `getbytes` stays inside the file. -/
structure ReadersAgree (c : Caller) (image : UInt32 → UInt8) (toc : List ProgramFile)
    (filename : UInt32) (offset size : Int32) : Prop where
  /-- `getbytes` reads at positions below the length of the file. -/
  inside : ∀ e, searchToc c filename toc = some e →
    ∀ a ∈ (getbytes c toc filename offset size).reads,
      ((a - e.execbytes).toNat : Int) < e.execlen.toInt
  /-- It returns the number of bytes it copied, unless the name is absent or the offset lies beyond
  the end. -/
  counted : (getbytes c toc filename offset size).result =
    if ∃ e, searchToc c filename toc = some e ∧ offset.toInt ≤ e.execlen.toInt then
      ((getbytes c toc filename offset size).reads.length : Int) else -1
  /-- Both return the same. -/
  result : (getbytes c toc filename offset size).result =
    (readfileCopy c toc filename size offset).result
  /-- Both copy the same bytes. -/
  bytes : (getbytes c toc filename offset size).bytes image =
    (readfileCopy c toc filename size offset).bytes image

section Readers

variable {c : Caller} {image : UInt32 → UInt8} {toc : List ProgramFile} {filename : UInt32}
  {size offset : Int32} {e : ProgramFile}

/-- The position of a byte that is read. -/
theorem position_of_mem {start : UInt32} {k n : Nat} (small : k + n ≤ 2 ^ 32) {a : UInt32}
    (ha : a ∈ memcpyReads (start + UInt32.ofNat k) n) :
    k ≤ (a - start).toNat ∧ (a - start).toNat < k + n := by
  obtain ⟨i, hi, rfl⟩ := List.mem_map.mp ha
  have hlt := List.mem_range.mp hi
  have hposition : start + UInt32.ofNat k + UInt32.ofNat i - start = UInt32.ofNat (k + i) := by
    rw [UInt32.add_assoc, ← UInt32.ofNat_add, UInt32.add_comm, UInt32.add_sub_cancel]
  rw [hposition, UInt32.toNat_ofNat', Nat.mod_eq_of_lt (by omega)]
  omega

/-- **The readers agree exactly when** the name is absent, or the bytes asked for lie in the
file. -/
theorem readersAgree_iff (hoffset : 0 ≤ offset.toInt) (hsize : 0 ≤ size.toInt) :
    ReadersAgree c image toc filename offset size ↔
      ∀ e, searchToc c filename toc = some e →
        offset.toInt + size.toInt ≤ e.execlen.toInt := by
  cases hfound : searchToc c filename toc with
  | none =>
      have hbytes : getbytes c toc filename offset size = ⟨-1, []⟩ := by
        rw [getbytes, hfound]
      have hcopy : readfileCopy c toc filename size offset = ⟨-1, []⟩ := by
        rw [readfileCopy, hfound]
      refine ⟨fun _ => nofun, fun _ => ⟨?_, ?_, ?_, ?_⟩⟩
      · rw [hfound]
        exact nofun
      · rw [hbytes, hfound]
        simp
      · rw [hbytes, hcopy]
      · rw [hbytes, hcopy]
  | some e =>
      have hbytes := getbytes_found hfound hsize hoffset
      have hcopy := readfileCopy_found hfound hsize hoffset
      have hlt := size.toInt_lt
      have hlt' := offset.toInt_lt
      constructor
      · intro agree e' he'
        obtain rfl := Option.some.inj he'
        -- the count tells what was copied
        have hresult := agree.result
        rw [hbytes, hcopy] at hresult
        split_ifs at hresult with hbeyond
        · dsimp only at hresult
          omega
        · dsimp only at hresult
          omega
      · intro fits
        have hfits := fits e rfl
        have hreal : min size.toInt (e.execlen.toInt - offset.toInt) = size.toInt := by
          omega
        rw [if_neg (by omega), hreal] at hcopy
        refine ⟨?_, ?_, ?_, ?_⟩
        · intro e' he' a ha
          rw [hfound] at he'
          obtain rfl := Option.some.inj he'
          rw [hbytes] at ha
          have hposition := position_of_mem (by omega) ha
          omega
        · rw [hbytes, hfound, if_pos ⟨e, rfl, by omega⟩]
          dsimp only
          rw [memcpyReads, List.length_map, List.length_range]
          omega
        · rw [hbytes, hcopy]
        · rw [hbytes, hcopy]

/-- The whole file. -/
theorem readersAgree_iff_whole :
    ReadersAgree namingCaller (fun _ => 0) [threeBytes] 0xffffe000 0 3 := by
  have hfound : searchToc namingCaller 0xffffe000 [threeBytes] = some threeBytes := rfl
  refine (readersAgree_iff (by decide) (by decide)).mpr fun e he => ?_
  rw [hfound] at he
  obtain rfl := Option.some.inj he
  decide

/-- **`getbytes` reads beyond the end**: four bytes of a file of three. -/
theorem getbytes_beyond_end :
    ¬ReadersAgree namingCaller (fun _ => 0) [threeBytes] 0xffffe000 0 4 ∧
      (getbytes namingCaller [threeBytes] 0xffffe000 0 4).result = 4 ∧
        (readfileCopy namingCaller [threeBytes] 0xffffe000 4 0).result = 3 := by
  refine ⟨fun agree => ?_, by decide, by decide⟩
  have hresult := agree.result
  revert hresult
  decide

end Readers

end Pebbles.Memory
