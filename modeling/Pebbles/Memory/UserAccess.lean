import Pebbles.Memory.AddressSpaces

/-! # Accesses through pointers of the user

The system calls that read or write user memory through a pointer they were given: `sys_readline`,
`sys_print` and `sys_get_cursor_pos` (`kern/syscall/sys_consoleIO.c`), `sys_readfile`
(`kern/syscall/sys_misc.c`) and `sys_wait` (`kern/process/sys_life_cycle.c`). Each is a function to
its result and the accesses it makes, in order. The checks look at the first byte of a range only,
and `inBounds_iff` says for which requests that is enough.

The page directory is the one of the calling process during the call. What `lprintf` reads is
counted as well: it formats its strings in the kernel. -/

namespace Pebbles.Memory

open Kernel (isUserAddr)

/-! ## The caller and the accesses -/

/-- The address space of the caller. -/
structure Caller where
  /-- The page tables. -/
  memory : PhysMem
  /-- The page directory of the process. -/
  pd : Nat
  /-- The byte that a load at an address gives. -/
  bytes : UInt32 → UInt8

/-- `is_user_addr(addr) && addr_has_mapping(addr)`. -/
def Caller.checks (c : Caller) (a : UInt32) : Bool :=
  isUserAddr a.toNat && addrHasMapping c.memory c.pd a.toNat

/-- The address is one of the user, and its page is mapped in the page directory. -/
def Caller.Mapped (c : Caller) (a : UInt32) : Prop :=
  userMemStart ≤ a.toNat ∧ c.pd ≠ 0 ∧ deflagAddr (c.memory.words c.pd (vaPdInd a.toNat)) ≠ 0 ∧
    deflagAddr (c.memory.words (deflagAddr (c.memory.words c.pd (vaPdInd a.toNat)))
      (vaPtInd a.toNat)) ≠ 0

/-- The check of a pointer is the right one for its first byte. -/
theorem Caller.checks_iff (c : Caller) (a : UInt32) : c.checks a = true ↔ c.Mapped a := by
  have hnonzero : userMemStart ≤ a.toNat → a.toNat ≠ 0 := by
    rw [userMemStart]
    omega
  rw [checks, Mapped, isUserAddr, addrHasMapping, userMemStart]
  simp only [Bool.and_eq_true, decide_eq_true_eq]
  constructor
  · rintro ⟨⟨-, hlow⟩, -, hpd, hpde, hpte⟩
    exact ⟨hlow, hpd, hpde, hpte⟩
  · rintro ⟨hlow, hpd, hpde, hpte⟩
    exact ⟨⟨hnonzero hlow, hlow⟩, hnonzero hlow, hpd, hpde, hpte⟩

/-- An access to user memory. -/
inductive Access where
  /-- The `n` bytes from `a` on. -/
  | bytes (a : UInt32) (n : Nat)
  /-- The string at `a`, through its `NUL` or the byte at `last`, in the memory `mem`. -/
  | string (mem : UInt32 → UInt8) (a : UInt32) (last : Nat)

/-- The addresses of an access, computed modulo `2 ^ 32`. -/
def Access.Touches : Access → UInt32 → Prop
  | .bytes a n, x => ∃ k < n, x = a + UInt32.ofNat k
  | .string mem a last, x =>
      ∃ k ≤ last, (∀ i < k, mem (a + UInt32.ofNat i) ≠ 0) ∧ x = a + UInt32.ofNat k

/-- What a call does. -/
structure Outcome where
  /-- The value it returns. -/
  result : Int
  /-- Its accesses to user memory. -/
  accesses : List Access

/-! ## The system calls -/

/-- Where `strlen` and `strcpy` stop at the latest: the addresses have come around. -/
def wholeString : Nat := 2 ^ 32

/-- The precision of a `%s` in `_doprnt` when none is given. -/
def maxInt : Nat := 0x7fffffff

/-- The loop of `sys_readline` over the characters that `readchar` gives: where each character
and the final `NUL` or newline are stored, counted from `buf`, and the count in the end. The
character `0xff` is the `-1` that ends the loop. -/
def readlineLoop (len : Nat) : Nat → List UInt8 → List (UInt32 × UInt8) × Nat
  | count, [] => ([], count)
  | count, c :: typed =>
      if c = 0xff then ([], count)
      else
        let store := (UInt32.ofNat count, c)
        let count := count + 1
        -- a backspace takes itself and one character back
        let count := if c = 8 then (if 0 < count - 1 then count - 1 - 1 else count - 1) else count
        if count = len then ([store, (UInt32.ofNat count - 1, 0)], count)
        else if c = 10 then ([store, (UInt32.ofNat count - 1, 10)], count)
        else
          let r := readlineLoop len count typed
          (store :: r.1, r.2)

/-- The memory after stores at places counted from `buf`. -/
def storeAll (mem : UInt32 → UInt8) (buf : UInt32) (stores : List (UInt32 × UInt8)) :
    UInt32 → UInt8 :=
  stores.foldl (fun mem s => Function.update mem (buf + s.1) s.2) mem

/-- `sys_readline`, where `typed` is what the keyboard has ready. -/
def sysReadline (c : Caller) (len : Int32) (buf : UInt32) (typed : List UInt8) : Outcome :=
  if c.checks buf = false then ⟨-1, []⟩
  else if 4096 < len.toInt then ⟨-1, []⟩
  else if len.toInt < 0 then ⟨-1, []⟩
  else
    let r := readlineLoop len.toInt.toNat 0 typed
    ⟨r.2, r.1.map (fun s => .bytes (buf + s.1) 1) ++
      [.string (storeAll c.bytes buf r.1) buf maxInt]⟩

/-- `putbytes`. -/
def putbytes (c : Caller) (s : UInt32) (len : Int32) : List Access :=
  if len.toInt ≤ 0 then [] else [.string c.bytes s (len.toInt.toNat - 1)]

/-- `sys_print`. The arguments of `lprintf` come before the check of `buf`. -/
def sysPrint (c : Caller) (len : Int32) (buf : UInt32) : Outcome :=
  let logged := [.string c.bytes buf wholeString] ++
    if buf = 0 then [] else [.string c.bytes buf maxInt]
  if c.checks buf = false then ⟨-1, logged⟩
  else ⟨0, logged ++ putbytes c buf len⟩

/-- `strcmp` of the name `name` with the string at `s`: how many bytes of the string it reads, and
whether the two are equal. -/
def strcmp (c : Caller) : List UInt8 → UInt32 → Nat × Bool
  | [], s => (1, c.bytes s = 0)
  | a :: name, s =>
      if a ≠ 0 ∧ c.bytes s ≠ 0 ∧ a = c.bytes s then
        let r := strcmp c name (s + 1)
        (r.1 + 1, r.2)
      else (1, a = c.bytes s)

/-- An entry of `exec2obj_userapp_TOC`. -/
structure TocEntry where
  /-- `execname`, without its `NUL`. -/
  execname : List UInt8
  /-- `execlen`. -/
  execlen : Int32

/-- The search of `sys_readfile`: the accesses of the comparisons, and the entry that is found. -/
def findFile (c : Caller) (filename : UInt32) : List TocEntry → List Access × Option TocEntry
  | [] => ([], none)
  | e :: toc =>
      let r := strcmp c e.execname filename
      if r.2 then ([.bytes filename r.1], some e)
      else
        let s := findFile c filename toc
        (.bytes filename r.1 :: s.1, s.2)

/-- `sys_readfile`. -/
def sysReadfile (c : Caller) (filename buf : UInt32) (size offset : Int32) (toc : List TocEntry) :
    Outcome :=
  if c.checks filename = false then ⟨-1, []⟩
  else if c.checks buf = false then ⟨-1, []⟩
  else if size.toInt < 0 ∨ offset.toInt < 0 then ⟨-1, []⟩
  else
    match findFile c filename toc with
    | (compared, none) => ⟨-1, compared⟩
    | (compared, some e) =>
        let realsize := min size.toInt (e.execlen - offset).toInt
        if realsize < 0 then ⟨-1, compared⟩
        else ⟨realsize, compared ++ [.bytes buf realsize.toNat]⟩

/-- What `sys_wait` sees of a child. -/
structure Child where
  /-- The state is `PROCESS_EXIT`. -/
  exited : Bool
  /-- The process id. -/
  pid : Nat

/-- `sys_wait`, with the children at the first scan and at the one after `schedule`. -/
def sysWait (statusPtr : UInt32) (childrenCount : Nat) (now later : List Child) : Outcome :=
  let collect := if statusPtr = 0 then [] else [Access.bytes statusPtr 4]
  if statusPtr ≠ 0 ∧ isUserAddr statusPtr.toNat = false then ⟨-1, []⟩
  else if childrenCount = 0 then ⟨-1, []⟩
  else
    match now.find? Child.exited with
    | some child => ⟨child.pid, collect⟩
    | none =>
        match later.find? Child.exited with
        | some child => ⟨child.pid, collect⟩
        | none => ⟨-1, []⟩

/-- `sys_get_cursor_pos`. -/
def sysGetCursorPos (c : Caller) (row col : UInt32) : Outcome :=
  if c.checks row = false then ⟨-1, []⟩
  else if c.checks col = false then ⟨-1, []⟩
  else ⟨0, [.bytes row 4, .bytes col 4]⟩

/-- The calls, each with what it finds in the kernel. -/
inductive UserCall where
  /-- `readline(len, buf)`. -/
  | readline (len : Int32) (buf : UInt32) (typed : List UInt8)
  /-- `print(len, buf)`. -/
  | print (len : Int32) (buf : UInt32)
  /-- `readfile(filename, buf, size, offset)`. -/
  | readfile (filename buf : UInt32) (size offset : Int32) (toc : List TocEntry)
  /-- `wait(status_ptr)`. -/
  | wait (statusPtr : UInt32) (childrenCount : Nat) (now later : List Child)
  /-- `get_cursor_pos(row, col)`. -/
  | getCursorPos (row col : UInt32)

/-- The code of a call. -/
def UserCall.run (c : Caller) : UserCall → Outcome
  | .readline len buf typed => sysReadline c len buf typed
  | .print len buf => sysPrint c len buf
  | .readfile filename buf size offset toc => sysReadfile c filename buf size offset toc
  | .wait statusPtr childrenCount now later => sysWait statusPtr childrenCount now later
  | .getCursorPos row col => sysGetCursorPos c row col

/-- What the caller asks the kernel to read or write. -/
def UserCall.requested (c : Caller) : UserCall → List Access
  | .readline len buf _ => [.bytes buf len.toInt.toNat]
  | .print len buf => [.bytes buf len.toInt.toNat]
  | .readfile filename buf size _ _ =>
      [.string c.bytes filename wholeString, .bytes buf size.toInt.toNat]
  | .wait statusPtr _ _ _ => if statusPtr = 0 then [] else [.bytes statusPtr 4]
  | .getCursorPos row col => [.bytes row 4, .bytes col 4]

/-! ## What is asked of a call -/

/-- All addresses of these accesses are mapped. -/
def Caller.AllMapped (c : Caller) (l : List Access) : Prop :=
  ∀ x ∈ l, ∀ a, x.Touches a → c.Mapped a

/-- **The call touches only mapped user memory**, and it returns -1 when something of what was
requested is not that. -/
def UserCall.TouchesOnlyMapped (c : Caller) (call : UserCall) : Prop :=
  c.AllMapped (call.run c).accesses ∧
    (¬ c.AllMapped (call.requested c) → (call.run c).result = -1)

/-- **The request keeps to mapped memory.** What is asked for goes beyond the check of the first
byte:

* `readline`: the whole buffer; with a buffer of no bytes, wherever the typed line goes; and the
  string at `buf` with the line in it, through its `NUL`, for it is logged;
* `print`: the whole string at `buf`, whatever `len` is, and `len` bytes;
* `readfile`: the bytes of `filename` as far as the names tried agree with it and one more; `size`
  bytes at `buf`, when the file is found and `offset` lies in it;
* `wait`: four bytes, unless no child has exited;
* `get_cursor_pos`: four bytes each. -/
def UserCall.InBounds (c : Caller) : UserCall → Prop
  | .readline len buf typed =>
      c.Mapped buf → 0 ≤ len.toInt → len.toInt ≤ 4096 →
        let n := len.toInt.toNat
        let stores := (readlineLoop n 0 typed).1
        (∀ k < n, c.Mapped (buf + UInt32.ofNat k)) ∧
          (n = 0 → ∀ s ∈ stores, c.Mapped (buf + s.1)) ∧
          ∀ k, n ≤ k → k ≤ maxInt →
            (∀ i < k, storeAll c.bytes buf stores (buf + UInt32.ofNat i) ≠ 0) →
              c.Mapped (buf + UInt32.ofNat k)
  | .print len buf =>
      (∀ k ≤ wholeString, (∀ i < k, c.bytes (buf + UInt32.ofNat i) ≠ 0) →
        c.Mapped (buf + UInt32.ofNat k)) ∧
        ∀ k < len.toInt.toNat, c.Mapped (buf + UInt32.ofNat k)
  | .readfile filename buf size offset toc =>
      c.Mapped filename → c.Mapped buf → 0 ≤ size.toInt → 0 ≤ offset.toInt →
        (∀ before e after, toc = before ++ e :: after →
          (∀ x ∈ before, (strcmp c x.execname filename).2 = false) →
          ∀ k, (∀ i < k, e.execname.getD i 0 ≠ 0 ∧
            c.bytes (filename + UInt32.ofNat i) = e.execname.getD i 0) →
              c.Mapped (filename + UInt32.ofNat k)) ∧
          ∀ e, toc.find? (fun e => (strcmp c e.execname filename).2) = some e →
            0 ≤ (e.execlen - offset).toInt →
              ∀ k < size.toInt.toNat, c.Mapped (buf + UInt32.ofNat k)
  | .wait statusPtr childrenCount now later =>
      userMemStart ≤ statusPtr.toNat → childrenCount ≠ 0 →
        (now.any Child.exited = true ∨ later.any Child.exited = true) →
          ∀ k < 4, c.Mapped (statusPtr + UInt32.ofNat k)
  | .getCursorPos row col =>
      c.Mapped row → c.Mapped col →
        ∀ k < 4, c.Mapped (row + UInt32.ofNat k) ∧ c.Mapped (col + UInt32.ofNat k)

/-! ## Lists of accesses -/

namespace Caller

variable {c : Caller} {l l' : List Access} {x : Access} {a : UInt32} {n : Nat}

@[simp] theorem allMapped_nil : c.AllMapped [] := by
  intro x hx
  cases hx

@[simp] theorem allMapped_cons :
    c.AllMapped (x :: l) ↔ (∀ a, x.Touches a → c.Mapped a) ∧ c.AllMapped l :=
  List.forall_mem_cons

@[simp] theorem allMapped_append : c.AllMapped (l ++ l') ↔ c.AllMapped l ∧ c.AllMapped l' :=
  List.forall_mem_append

/-- A range of bytes. -/
@[simp] theorem touches_bytes : (∀ x, (Access.bytes a n).Touches x → c.Mapped x) ↔
    ∀ k < n, c.Mapped (a + UInt32.ofNat k) := by
  constructor
  · intro h k hk
    exact h _ ⟨k, hk, rfl⟩
  · rintro h x ⟨k, hk, rfl⟩
    exact h k hk

/-- A string. -/
@[simp] theorem touches_string {mem : UInt32 → UInt8} :
    (∀ x, (Access.string mem a n).Touches x → c.Mapped x) ↔
      ∀ k ≤ n, (∀ i < k, mem (a + UInt32.ofNat i) ≠ 0) → c.Mapped (a + UInt32.ofNat k) := by
  constructor
  · intro h k hk hnonzero
    exact h _ ⟨k, hk, hnonzero, rfl⟩
  · rintro h x ⟨k, hk, hnonzero, rfl⟩
    exact h k hk hnonzero

/-- A pointer that is refused. -/
theorem checks_eq_false : c.checks a = false ↔ ¬ c.Mapped a := by
  rw [← c.checks_iff, Bool.not_eq_true]

end Caller

/-- A call that returns something else than -1 has to serve the whole request. -/
theorem UserCall.touchesOnlyMapped_of_served {c : Caller} {call : UserCall}
    (h : (call.run c).result ≠ -1) : call.TouchesOnlyMapped c ↔
      c.AllMapped (call.run c).accesses ∧ c.AllMapped (call.requested c) :=
  and_congr_right fun _ => ⟨fun hr => not_not.mp fun hn => h (hr hn), fun hr hn => absurd hr hn⟩

/-- A call that returns -1 only has to be careful. -/
theorem UserCall.touchesOnlyMapped_of_refused {c : Caller} {call : UserCall}
    (h : (call.run c).result = -1) :
    call.TouchesOnlyMapped c ↔ c.AllMapped (call.run c).accesses :=
  and_iff_left fun _ => h

/-- A call that gives up at once is careful. -/
theorem UserCall.iff_of_nothing {c : Caller} {call : UserCall} (h : call.run c = ⟨-1, []⟩)
    (hin : call.InBounds c) : call.TouchesOnlyMapped c ↔ call.InBounds c := by
  refine iff_of_true ((touchesOnlyMapped_of_refused (by rw [h])).mpr ?_) hin
  rw [h]
  exact Caller.allMapped_nil

/-! ## Call by call -/

section
variable {c : Caller}

/-- With room in the buffer the line stays in it. -/
theorem readlineLoop_stores {n count : Nat} (typed : List UInt8) (h : count < n) :
    ∀ s ∈ (readlineLoop n count typed).1, ∃ k < n, s.1 = UInt32.ofNat k := by
  have hpred (k : Nat) : UInt32.ofNat (k + 1) - 1 = UInt32.ofNat k :=
    (UInt32.ofNat_sub (Nat.le_add_left 1 k)).symm
  induction typed generalizing count with
  | nil =>
      intro s hs
      cases hs
  | cons x typed ih =>
      rw [readlineLoop]
      by_cases hend : x = 0xff
      · rw [if_pos hend]
        intro s hs
        cases hs
      · rw [if_neg hend]
        dsimp only
        -- the count after this character
        generalize hnext : (if x = 8 then (if 0 < count + 1 - 1 then count + 1 - 1 - 1
          else count + 1 - 1) else count + 1) = next
        have hle : next ≤ n := by
          rw [← hnext]
          split
          · split <;> omega
          · exact h
        by_cases hfull : next = n
        · obtain ⟨m, rfl⟩ : ∃ m, n = m + 1 := ⟨n - 1, by omega⟩
          rw [if_pos hfull, hfull, hpred]
          intro s hs
          rcases List.mem_cons.mp hs with rfl | hs
          · exact ⟨count, h, rfl⟩
          · obtain rfl := List.mem_singleton.mp hs
            exact ⟨m, Nat.lt_succ_self m, rfl⟩
        · rw [if_neg hfull]
          by_cases hline : x = 10
          · have hcount : next = count + 1 := by
              rw [← hnext, if_neg (by rw [hline]; decide)]
            rw [if_pos hline, hcount, hpred]
            intro s hs
            rcases List.mem_cons.mp hs with rfl | hs
            · exact ⟨count, h, rfl⟩
            · obtain rfl := List.mem_singleton.mp hs
              exact ⟨count, h, rfl⟩
          · rw [if_neg hline]
            intro s hs
            rcases List.mem_cons.mp hs with rfl | hs
            · exact ⟨count, h, rfl⟩
            · exact ih (by omega) s hs

/-- `readline`: the line stays in the buffer, but the string that is logged may not end there. -/
theorem readline_iff (len : Int32) (buf : UInt32) (typed : List UInt8) :
    (UserCall.readline len buf typed).TouchesOnlyMapped c ↔
      (UserCall.readline len buf typed).InBounds c := by
  by_cases hbuf : c.Mapped buf
  swap
  · refine UserCall.iff_of_nothing ?_ fun h => absurd h hbuf
    rw [UserCall.run, sysReadline, if_pos (Caller.checks_eq_false.mpr hbuf)]
  by_cases hlong : 4096 < len.toInt
  · refine UserCall.iff_of_nothing ?_ fun _ _ h => absurd h (by omega)
    rw [UserCall.run, sysReadline, (c.checks_iff buf).mpr hbuf, if_neg (by decide), if_pos hlong]
  by_cases hneg : len.toInt < 0
  · refine UserCall.iff_of_nothing ?_ fun _ h => absurd h (by omega)
    rw [UserCall.run, sysReadline, (c.checks_iff buf).mpr hbuf, if_neg (by decide), if_neg hlong,
      if_pos hneg]
  have hrun : (UserCall.readline len buf typed).run c =
      ⟨(readlineLoop len.toInt.toNat 0 typed).2,
        (readlineLoop len.toInt.toNat 0 typed).1.map (fun s => Access.bytes (buf + s.1) 1) ++
          [.string (storeAll c.bytes buf (readlineLoop len.toInt.toNat 0 typed).1) buf maxInt]⟩ := by
    rw [UserCall.run, sysReadline, (c.checks_iff buf).mpr hbuf, if_neg (by decide), if_neg hlong,
      if_neg hneg]
  have hstores : c.AllMapped ((readlineLoop len.toInt.toNat 0 typed).1.map
      fun s => Access.bytes (buf + s.1) 1) ↔
      ∀ s ∈ (readlineLoop len.toInt.toNat 0 typed).1, c.Mapped (buf + s.1) := by
    rw [Caller.AllMapped, List.forall_mem_map]
    refine forall₂_congr fun s _ => ?_
    rw [Caller.touches_bytes]
    simp
  rw [UserCall.touchesOnlyMapped_of_served (by rw [hrun]; dsimp only; omega), hrun]
  simp only [UserCall.requested, UserCall.InBounds, Caller.allMapped_append, Caller.allMapped_cons,
    Caller.allMapped_nil, and_true, Caller.touches_bytes, Caller.touches_string, hstores, hbuf,
    forall_const, Int.not_lt.mp hneg, Int.not_lt.mp hlong]
  constructor
  · rintro ⟨⟨hline, htext⟩, hrange⟩
    exact ⟨hrange, fun _ => hline, fun k _ hk => htext k hk⟩
  · rintro ⟨hrange, hempty, htext⟩
    refine ⟨⟨fun s hs => ?_, fun k hk hnonzero => ?_⟩, hrange⟩
    · rcases Nat.eq_zero_or_pos len.toInt.toNat with hzero | hpos
      · exact hempty hzero s hs
      · obtain ⟨k, hk, he⟩ := readlineLoop_stores typed hpos s hs
        rw [he]
        exact hrange k hk
    · by_cases hin : k < len.toInt.toNat
      · exact hrange k hin
      · exact htext k (Nat.not_lt.mp hin) hk hnonzero

/-- `print`: what `putbytes` reads is a part of what was logged. -/
theorem print_iff (len : Int32) (buf : UInt32) :
    (UserCall.print len buf).TouchesOnlyMapped c ↔ (UserCall.print len buf).InBounds c := by
  have hlogged : c.AllMapped ([.string c.bytes buf wholeString] ++
      if buf = 0 then [] else [.string c.bytes buf maxInt]) ↔
      ∀ k ≤ wholeString, (∀ i < k, c.bytes (buf + UInt32.ofNat i) ≠ 0) →
        c.Mapped (buf + UInt32.ofNat k) := by
    rw [Caller.allMapped_append, Caller.allMapped_cons, Caller.touches_string]
    refine ⟨fun h => h.1.1, fun h => ⟨⟨h, Caller.allMapped_nil⟩, ?_⟩⟩
    split
    · exact Caller.allMapped_nil
    · rw [Caller.allMapped_cons, Caller.touches_string]
      exact ⟨fun k hk => h k (hk.trans (by decide)), Caller.allMapped_nil⟩
  have hfirst : (∀ k ≤ wholeString, (∀ i < k, c.bytes (buf + UInt32.ofNat i) ≠ 0) →
      c.Mapped (buf + UInt32.ofNat k)) → c.Mapped buf := by
    intro h
    simpa using h 0 (Nat.zero_le _) (fun i hi => absurd hi (Nat.not_lt_zero i))
  by_cases hbuf : c.Mapped buf
  · have hrun : (UserCall.print len buf).run c = ⟨0, ([.string c.bytes buf wholeString] ++
        if buf = 0 then [] else [.string c.bytes buf maxInt]) ++ putbytes c buf len⟩ := by
      rw [UserCall.run, sysPrint, (c.checks_iff buf).mpr hbuf, if_neg (by decide)]
    rw [UserCall.touchesOnlyMapped_of_served (by rw [hrun]; exact (by decide : (0 : Int) ≠ -1)),
      hrun, Caller.allMapped_append, hlogged]
    simp only [UserCall.requested, UserCall.InBounds, Caller.allMapped_cons, Caller.touches_bytes,
      Caller.allMapped_nil, and_true]
    refine and_congr_left fun hrange => and_iff_left_of_imp fun h => ?_
    rw [putbytes]
    split
    · exact Caller.allMapped_nil
    · rw [Caller.allMapped_cons, Caller.touches_string]
      refine ⟨fun k hk hnonzero => hrange k (by omega), Caller.allMapped_nil⟩
  · have hrun : (UserCall.print len buf).run c = ⟨-1, [.string c.bytes buf wholeString] ++
        if buf = 0 then [] else [.string c.bytes buf maxInt]⟩ := by
      rw [UserCall.run, sysPrint, if_pos (Caller.checks_eq_false.mpr hbuf)]
    rw [UserCall.touchesOnlyMapped_of_refused (by rw [hrun]), hrun, hlogged]
    exact iff_of_false (fun h => hbuf (hfirst h)) fun h => hbuf (hfirst h.1)

/-- `strcmp` reads the string as far as it agrees with the name, and one byte more. -/
theorem strcmp_reads {name : List UInt8} {s : UInt32} {k : Nat} :
    k < (strcmp c name s).1 ↔
      ∀ i < k, name.getD i 0 ≠ 0 ∧ c.bytes (s + UInt32.ofNat i) = name.getD i 0 := by
  induction name generalizing s k with
  | nil =>
      rw [strcmp, Nat.lt_one_iff]
      constructor
      · rintro rfl i hi
        exact absurd hi (Nat.not_lt_zero i)
      · intro h
        by_contra hk
        exact (h 0 (Nat.pos_of_ne_zero hk)).1 rfl
  | cons a name ih =>
      have hnext (i : Nat) : s + 1 + UInt32.ofNat i = s + UInt32.ofNat (i + 1) := by
        rw [UInt32.ofNat_add, UInt32.add_assoc, UInt32.add_comm (UInt32.ofNat i)]
        rfl
      cases k with
      | zero =>
          refine iff_of_true ?_ fun i hi => absurd hi (Nat.not_lt_zero i)
          rw [strcmp]
          split <;> exact Nat.succ_pos _
      | succ k =>
          rw [strcmp]
          by_cases hgo : a ≠ 0 ∧ c.bytes s ≠ 0 ∧ a = c.bytes s
          · rw [if_pos hgo]
            dsimp only
            rw [Nat.add_lt_add_iff_right, ih]
            constructor
            · intro h i hi
              cases i with
              | zero => exact ⟨hgo.1, by simpa using hgo.2.2.symm⟩
              | succ i =>
                  rw [← hnext]
                  exact h i (by omega)
            · intro h i hi
              rw [hnext]
              exact h (i + 1) (by omega)
          · rw [if_neg hgo]
            refine iff_of_false (by dsimp only; omega) fun h => hgo ?_
            obtain ⟨ha, hb⟩ := h 0 (Nat.succ_pos k)
            have hbyte : c.bytes s = a := by simpa using hb
            exact ⟨ha, by rw [hbyte]; exact ha, hbyte.symm⟩

/-- When the two are equal the whole string was read. -/
theorem strcmp_whole {name : List UInt8} {s : UInt32} (h : (strcmp c name s).2 = true) {k : Nat}
    (hk : ∀ i < k, c.bytes (s + UInt32.ofNat i) ≠ 0) : k < (strcmp c name s).1 := by
  induction name generalizing s k with
  | nil =>
      rw [strcmp] at h ⊢
      refine Nat.lt_one_iff.mpr ?_
      by_contra hpos
      exact hk 0 (Nat.pos_of_ne_zero hpos) (by simpa using h)
  | cons a name ih =>
      rw [strcmp] at h ⊢
      by_cases hgo : a ≠ 0 ∧ c.bytes s ≠ 0 ∧ a = c.bytes s
      · rw [if_pos hgo] at h ⊢
        cases k with
        | zero => exact Nat.succ_pos _
        | succ k =>
            refine Nat.succ_lt_succ (ih h fun i hi => ?_)
            have hnext : s + 1 + UInt32.ofNat i = s + UInt32.ofNat (i + 1) := by
              rw [UInt32.ofNat_add, UInt32.add_assoc, UInt32.add_comm (UInt32.ofNat i)]
              rfl
            rw [hnext]
            exact hk (i + 1) (by omega)
      · rw [if_neg hgo] at h ⊢
        -- both strings end here
        have ha : a = c.bytes s := by simpa using h
        have hend : c.bytes s = 0 := by
          by_contra hne
          exact hgo ⟨ha ▸ hne, hne, ha⟩
        refine Nat.lt_one_iff.mpr ?_
        by_contra hpos
        exact hk 0 (Nat.pos_of_ne_zero hpos) (by simpa using hend)

/-- The search finds the first entry with this name. -/
theorem findFile_found (c : Caller) (filename : UInt32) (toc : List TocEntry) :
    (findFile c filename toc).2 = toc.find? fun e => (strcmp c e.execname filename).2 := by
  induction toc with
  | nil => rfl
  | cons e toc ih =>
      rw [findFile]
      by_cases he : (strcmp c e.execname filename).2 = true
      · rw [if_pos he, List.find?_cons_of_pos (by exact he)]
      · rw [if_neg he, List.find?_cons_of_neg (by exact he)]
        exact ih

/-- The search compares `filename` with the names up to the one that is found. -/
theorem findFile_accesses (c : Caller) (filename : UInt32) (toc : List TocEntry) :
    c.AllMapped (findFile c filename toc).1 ↔
      ∀ before e after, toc = before ++ e :: after →
        (∀ x ∈ before, (strcmp c x.execname filename).2 = false) →
        ∀ k < (strcmp c e.execname filename).1, c.Mapped (filename + UInt32.ofNat k) := by
  induction toc with
  | nil =>
      refine iff_of_true Caller.allMapped_nil fun before e after h => ?_
      exact absurd h (by simp)
  | cons e toc ih =>
      rw [findFile]
      -- the first entry is compared in any case
      have hhead : (∀ before x after, e :: toc = before ++ x :: after →
          (∀ y ∈ before, (strcmp c y.execname filename).2 = false) →
          ∀ k < (strcmp c x.execname filename).1, c.Mapped (filename + UInt32.ofNat k)) ↔
        (∀ k < (strcmp c e.execname filename).1, c.Mapped (filename + UInt32.ofNat k)) ∧
          ((strcmp c e.execname filename).2 = false → ∀ before x after,
            toc = before ++ x :: after →
            (∀ y ∈ before, (strcmp c y.execname filename).2 = false) →
            ∀ k < (strcmp c x.execname filename).1, c.Mapped (filename + UInt32.ofNat k)) := by
        constructor
        · intro h
          refine ⟨h [] e toc rfl (fun y hy => by cases hy), fun he before x after htoc hb => ?_⟩
          refine h (e :: before) x after (by rw [htoc]; rfl) fun y hy => ?_
          rcases List.mem_cons.mp hy with rfl | hy
          · exact he
          · exact hb y hy
        · rintro ⟨hfirst, hrest⟩ before x after htoc hb
          cases before with
          | nil =>
              obtain ⟨rfl, -⟩ := List.cons.inj htoc
              exact hfirst
          | cons y before =>
              obtain ⟨rfl, htail⟩ := List.cons.inj htoc
              exact hrest (hb e List.mem_cons_self) before x after htail
                fun z hz => hb z (List.mem_cons_of_mem _ hz)
      rw [hhead, ← ih]
      by_cases he : (strcmp c e.execname filename).2 = true
      · rw [if_pos he]
        simp [he]
      · rw [if_neg he]
        simp [he]

/-- When a file is found the whole string at `filename` was read. -/
theorem findFile_whole {filename : UInt32} {toc : List TocEntry} {e : TocEntry}
    (hfound : (findFile c filename toc).2 = some e)
    (hcompared : c.AllMapped (findFile c filename toc).1) :
    c.AllMapped [.string c.bytes filename wholeString] := by
  rw [findFile_found] at hfound
  obtain ⟨hsame, before, after, htoc, hbefore⟩ := List.find?_eq_some_iff_append.mp hfound
  rw [Caller.allMapped_cons, Caller.touches_string]
  refine ⟨fun k _ hnonzero => ?_, Caller.allMapped_nil⟩
  refine (findFile_accesses c filename toc).mp hcompared before e after htoc (fun x hx => ?_) k
    (strcmp_whole hsame hnonzero)
  simpa using hbefore x hx

/-- `readfile`: the name is read as far as needed, the buffer is checked at its first byte. -/
theorem readfile_iff (filename buf : UInt32) (size offset : Int32) (toc : List TocEntry) :
    (UserCall.readfile filename buf size offset toc).TouchesOnlyMapped c ↔
      (UserCall.readfile filename buf size offset toc).InBounds c := by
  by_cases hname : c.Mapped filename
  swap
  · refine UserCall.iff_of_nothing ?_ fun h => absurd h hname
    rw [UserCall.run, sysReadfile, if_pos (Caller.checks_eq_false.mpr hname)]
  by_cases hbuf : c.Mapped buf
  swap
  · refine UserCall.iff_of_nothing ?_ fun _ h => absurd h hbuf
    rw [UserCall.run, sysReadfile, (c.checks_iff filename).mpr hname, if_neg (by decide),
      if_pos (Caller.checks_eq_false.mpr hbuf)]
  by_cases hargs : size.toInt < 0 ∨ offset.toInt < 0
  · refine UserCall.iff_of_nothing ?_ fun _ _ hs ho => absurd hargs (by omega)
    rw [UserCall.run, sysReadfile, (c.checks_iff filename).mpr hname,
      (c.checks_iff buf).mpr hbuf, if_neg (by decide), if_neg (by decide), if_pos hargs]
  have hsize : 0 ≤ size.toInt := by omega
  have hoffset : 0 ≤ offset.toInt := by omega
  have hcompared := findFile_accesses c filename toc
  simp only [strcmp_reads] at hcompared
  have hfound := findFile_found c filename toc
  have hwhole (e : TocEntry) (hmatch : (findFile c filename toc).2 = some e) :
      c.AllMapped (findFile c filename toc).1 → c.AllMapped [.string c.bytes filename wholeString] :=
    findFile_whole hmatch
  have hrun : (UserCall.readfile filename buf size offset toc).run c =
      match findFile c filename toc with
      | (compared, none) => ⟨-1, compared⟩
      | (compared, some e) =>
          if min size.toInt (e.execlen - offset).toInt < 0 then ⟨-1, compared⟩
          else ⟨min size.toInt (e.execlen - offset).toInt, compared ++
            [.bytes buf (min size.toInt (e.execlen - offset).toInt).toNat]⟩ := by
    rw [UserCall.run, sysReadfile, (c.checks_iff filename).mpr hname,
      (c.checks_iff buf).mpr hbuf, if_neg (by decide), if_neg (by decide), if_neg hargs]
  simp only [UserCall.InBounds, hname, hbuf, hsize, hoffset, forall_const]
  rw [← hcompared, ← hfound]
  generalize findFile c filename toc = search at hrun hfound hwhole
  obtain ⟨compared, found⟩ := search
  cases found with
  | none =>
      rw [UserCall.touchesOnlyMapped_of_refused (by rw [hrun]), hrun]
      simp
  | some e =>
      dsimp only at hrun hfound ⊢
      by_cases hreal : (e.execlen - offset).toInt < 0
      · rw [if_pos (by omega)] at hrun
        rw [UserCall.touchesOnlyMapped_of_refused (by rw [hrun]), hrun]
        refine (and_iff_left ?_).symm
        intro e' he' hle
        obtain rfl := Option.some.inj he'
        omega
      · rw [if_neg (by omega)] at hrun
        rw [UserCall.touchesOnlyMapped_of_served (by rw [hrun]; dsimp only; omega), hrun]
        simp only [UserCall.requested, Caller.allMapped_append, Option.some_inj, forall_eq',
          Int.not_lt.mp hreal, forall_const]
        constructor
        · rintro ⟨⟨hc, -⟩, hrequested⟩
          exact ⟨hc, Caller.touches_bytes.mp (hrequested _ (by simp))⟩
        · rintro ⟨hc, hall⟩
          have hbytes (n : Nat) (hn : n ≤ size.toInt.toNat) : c.AllMapped [.bytes buf n] := by
            rw [Caller.allMapped_cons, Caller.touches_bytes]
            exact ⟨fun k hk => hall k (by omega), Caller.allMapped_nil⟩
          refine ⟨⟨hc, hbytes _ (by omega)⟩, ?_⟩
          exact (Caller.allMapped_append (l := [_])).mpr ⟨hwhole e rfl hc, hbytes _ le_rfl⟩

/-- `wait`: the pointer is used when an exited child is found. -/
theorem wait_iff (statusPtr : UInt32) (childrenCount : Nat) (now later : List Child) :
    (UserCall.wait statusPtr childrenCount now later).TouchesOnlyMapped c ↔
      (UserCall.wait statusPtr childrenCount now later).InBounds c := by
  have hrun : statusPtr ≠ 0 → userMemStart ≤ statusPtr.toNat → childrenCount ≠ 0 →
      (UserCall.wait statusPtr childrenCount now later).run c =
        match (now.find? Child.exited).or (later.find? Child.exited) with
        | some child => ⟨child.pid, [.bytes statusPtr 4]⟩
        | none => ⟨-1, []⟩ := by
    intro hzero huser hcount
    have hpass : ¬ (statusPtr ≠ 0 ∧ isUserAddr statusPtr.toNat = false) := by
      rintro ⟨-, h⟩
      rw [isUserAddr, decide_eq_false_iff_not] at h
      exact h ⟨by rw [userMemStart] at huser; omega, huser⟩
    rw [UserCall.run, sysWait, if_neg hpass, if_neg hcount, if_neg hzero]
    cases now.find? Child.exited with
    | some child => rfl
    | none => cases later.find? Child.exited <;> rfl
  by_cases hzero : statusPtr = 0
  · -- a `NULL` is not used
    subst hzero
    refine iff_of_true ⟨?_, fun h => absurd Caller.allMapped_nil h⟩ fun h => absurd h (by decide)
    rw [UserCall.run, sysWait, if_neg (by simp)]
    by_cases hcount : childrenCount = 0
    · rw [if_pos hcount]
      exact Caller.allMapped_nil
    · rw [if_neg hcount]
      cases now.find? Child.exited with
      | some child => exact Caller.allMapped_nil
      | none => cases later.find? Child.exited <;> exact Caller.allMapped_nil
  by_cases huser : userMemStart ≤ statusPtr.toNat
  swap
  · refine UserCall.iff_of_nothing ?_ fun h => absurd h huser
    have hlow : isUserAddr statusPtr.toNat = false := by
      rw [isUserAddr, decide_eq_false_iff_not]
      exact fun h => huser h.2
    rw [UserCall.run, sysWait, if_pos ⟨hzero, hlow⟩]
  by_cases hcount : childrenCount = 0
  · refine UserCall.iff_of_nothing ?_ fun _ h => absurd hcount h
    rw [UserCall.run, sysWait, if_pos hcount]
    split <;> rfl
  have hrun := hrun hzero huser hcount
  have hany : (now.any Child.exited = true ∨ later.any Child.exited = true) ↔
      ((now.find? Child.exited).or (later.find? Child.exited)).isSome = true := by
    rw [Option.isSome_or, Bool.or_eq_true, List.find?_isSome, List.find?_isSome,
      List.any_eq_true, List.any_eq_true]
  simp only [UserCall.InBounds, huser, hcount, ne_eq, not_false_eq_true, forall_const, hany]
  generalize (now.find? Child.exited).or (later.find? Child.exited) = found at hrun
  cases found with
  | none =>
      rw [UserCall.touchesOnlyMapped_of_refused (by rw [hrun]), hrun]
      exact iff_of_true Caller.allMapped_nil fun h => absurd h (by decide)
  | some child =>
      rw [UserCall.touchesOnlyMapped_of_served (by rw [hrun]; dsimp only; omega), hrun]
      simp only [UserCall.requested, hzero, if_false, Caller.allMapped_cons, Caller.touches_bytes,
        Caller.allMapped_nil, and_true, and_self, Option.isSome_some, forall_const]

/-- `get_cursor_pos` checks one byte of each four. -/
theorem getCursorPos_iff (row col : UInt32) :
    (UserCall.getCursorPos row col).TouchesOnlyMapped c ↔
      (UserCall.getCursorPos row col).InBounds c := by
  by_cases hrow : c.Mapped row
  swap
  · refine UserCall.iff_of_nothing ?_ fun h => absurd h hrow
    rw [UserCall.run, sysGetCursorPos, if_pos (Caller.checks_eq_false.mpr hrow)]
  by_cases hcol : c.Mapped col
  swap
  · refine UserCall.iff_of_nothing ?_ fun _ h => absurd h hcol
    rw [UserCall.run, sysGetCursorPos, (c.checks_iff row).mpr hrow, if_neg (by decide),
      if_pos (Caller.checks_eq_false.mpr hcol)]
  have hrun : (UserCall.getCursorPos row col).run c = ⟨0, [.bytes row 4, .bytes col 4]⟩ := by
    rw [UserCall.run, sysGetCursorPos, (c.checks_iff row).mpr hrow, (c.checks_iff col).mpr hcol]
    rfl
  rw [UserCall.touchesOnlyMapped_of_served (by rw [hrun]; exact (by decide : (0 : Int) ≠ -1)),
    hrun]
  simp only [UserCall.requested, UserCall.InBounds, Caller.allMapped_cons, Caller.touches_bytes,
    Caller.allMapped_nil, and_true, hrow, hcol, forall_const, and_self]
  constructor
  · intro h k hk
    exact ⟨h.1 k hk, h.2 k hk⟩
  · intro h
    exact ⟨fun k hk => (h k hk).1, fun k hk => (h k hk).2⟩

end

/-- **The calls touch only mapped user memory exactly when the request keeps to it.** -/
theorem touchesOnlyMapped_iff_inBounds (c : Caller) (call : UserCall) :
    call.TouchesOnlyMapped c ↔ call.InBounds c := by
  cases call with
  | readline len buf typed => exact readline_iff len buf typed
  | print len buf => exact print_iff len buf
  | readfile filename buf size offset toc => exact readfile_iff filename buf size offset toc
  | wait statusPtr childrenCount now later => exact wait_iff statusPtr childrenCount now later
  | getCursorPos row col => exact getCursorPos_iff row col

/-! ## The end of memory -/

/-- A process with the two pages of its stack. -/
def stackCaller : Caller where
  memory := {
    frames := initFreeFrame totalPhysFrames
    words := fun b k =>
      if b = 0x100000 ∧ k = 1023 then 0x101007
      else if b = 0x101000 ∧ k = 1022 then 0x1000007
      else if b = 0x101000 ∧ k = 1023 then 0x1001007
      else 0
    heap := {0x100000, 0x101000}
    answers := []
    cr3 := 0x100000 }
  pd := 0x100000
  bytes := fun _ => 0

/-- **A cursor position in the last two bytes of memory** is written to the addresses 0 and 1 as
well, which are the kernel's. -/
theorem cursor_position_wraps_to_kernel :
    ¬ (UserCall.getCursorPos 0xfffffffe 0xffffe000).TouchesOnlyMapped stackCaller := by
  intro h
  have hrun : (UserCall.getCursorPos 0xfffffffe 0xffffe000).run stackCaller =
      ⟨0, [.bytes 0xfffffffe 4, .bytes 0xffffe000 4]⟩ := by
    rw [UserCall.run, sysGetCursorPos, if_neg (by decide), if_neg (by decide)]
  have hzero := h.1 (.bytes 0xfffffffe 4) (by rw [hrun]; exact List.mem_cons_self) 0
    ⟨2, by decide, by decide⟩
  exact absurd hzero.1 (by decide)

end Pebbles.Memory
