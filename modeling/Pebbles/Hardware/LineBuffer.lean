import Pebbles.Hardware.Keyboard
import Mathlib.Data.Bool.AllAny

/-! # The buffer of `readline`

The loop of `sys_readline` (`kern/syscall/sys_consoleIO.c`) with the buffer it writes: one index,
`count`, says where the next character goes, how long the line is, where a backspace goes back to
and when the buffer is full. The buffer is memory, of which every byte written is recorded, so that
a property can speak about the bytes outside of it. -/

namespace Pebbles

open LineEditing

/-! ## The loop -/

/-- The local state of the loop. -/
structure LineBuffer where
  /-- The memory, counted from `buf`. -/
  buf : Int → UInt8
  /-- `count`. -/
  count : Int
  /-- The indices that were written, the latest first. -/
  written : List Int

namespace LineBuffer

/-- Before the loop. -/
def start (buf : Int → UInt8) : LineBuffer := ⟨buf, 0, []⟩

/-- `buf[i] = v`. -/
def store (b : LineBuffer) (i : Int) (v : UInt8) : LineBuffer :=
  { b with buf := Function.update b.buf i v, written := i :: b.written }

/-- `count` moves. -/
def move (b : LineBuffer) (d : Int) : LineBuffer := { b with count := b.count + d }

/-- A backspace: it was stored itself, and takes one more character back. -/
def erase (b : LineBuffer) : LineBuffer :=
  let b := b.move (-1)
  if b.count > 0 then b.move (-1) else b

/-- The body of the loop up to its two tests. -/
def key (b : LineBuffer) (c : UInt8) : LineBuffer :=
  let b := (b.store b.count c).move 1
  if c = 8 then b.erase else b

/-- **The body of the loop**, and whether it breaks out. -/
def takeChar (len : Int) (b : LineBuffer) (c : UInt8) : LineBuffer × Bool :=
  let b := b.key c
  if b.count = len then (b.store (b.count - 1) 0, true)
  else if c = 10 then (b.store (b.count - 1) 10, true)
  else (b, false)

end LineBuffer

namespace KeyQueue

/-- `while ((c = readchar()) != -1)`. The body says whether it breaks out. -/
def drain {σ : Type*} (body : σ → UInt8 → σ × Bool) : Nat → σ → KeyQueue → σ × KeyQueue
  | 0, s, k => (s, k)
  | fuel + 1, s, k =>
      match k.readchar with
      | (none, k) => (s, k)
      | (some c, k) =>
          let r := body s c
          if r.2 then (r.1, k) else drain body fuel r.1 k

end KeyQueue

/-- `sys_readline` when the thread runs again: the value that it returns, the buffer, and the
keyboard. Interrupts are off, and the ring has fewer than `BUF_LEN` characters. -/
def readLine (len : Int) (buf : Int → UInt8) (k : Keyboard) : Int × LineBuffer × Keyboard :=
  if len < 0 then (-1, LineBuffer.start buf, k)
  else
    let r := KeyQueue.drain (LineBuffer.takeChar len) bufLen (LineBuffer.start buf) k.queue
    (r.1.count, r.1, ({ k with queue := r.2 } : Keyboard).count (-r.1.count))

/-! ## The loop on the list of the waiting characters -/

/-- The loop on a list: its state, and the characters that it leaves. -/
def drainList {σ : Type*} (body : σ → UInt8 → σ × Bool) : σ → List UInt8 → σ × List UInt8
  | s, [] => (s, [])
  | s, c :: cs =>
      if c = 0xff then (s, cs)
      else if (body s c).2 then ((body s c).1, cs) else drainList body (body s c).1 cs

namespace KeyQueue

variable {σ : Type*}

/-- **The loop reads the list of the waiting characters**, and comes to its end. -/
theorem drain_eq (body : σ → UInt8 → σ × Bool) (fuel : Nat) (s : σ) (k : KeyQueue)
    (hfuel : k.contents.length < fuel) :
    (drain body fuel s k).1 = (drainList body s k.contents).1 ∧
      (drain body fuel s k).2.contents = (drainList body s k.contents).2 := by
  induction fuel generalizing s k with
  | zero => exact absurd hfuel (Nat.not_lt_zero _)
  | succ fuel ih =>
      cases hcontents : k.contents with
      | nil =>
          have hempty : k.queueEmpty = true := k.queueEmpty_iff.mpr hcontents
          simp [drain, readchar, hempty, drainList, hcontents]
      | cons c cs =>
          have hne : ¬k.queueEmpty = true := by
            rw [k.queueEmpty_iff, hcontents]
            exact List.cons_ne_nil c cs
          obtain ⟨hc, hcs⟩ := contents_dequeue hcontents
          have hread : k.readchar = (if c = 0xff then none else some c, k.dequeue.2) := by
            rw [readchar, if_neg hne, hc]
          have hshort : k.dequeue.2.contents.length < fuel := by
            rw [hcontents, List.length_cons] at hfuel
            rw [hcs]
            exact Nat.lt_of_succ_lt_succ hfuel
          obtain ⟨hstate, hrest⟩ := ih (body s c).1 k.dequeue.2 hshort
          rw [drain, hread, drainList]
          by_cases hff : c = 0xff
          · simp [hff, hcs]
          · simp only [if_neg hff]
            split_ifs
            · exact ⟨rfl, hcs⟩
            · rw [← hcs]
              exact ⟨hstate, hrest⟩

end KeyQueue

/-- `sys_readline` on the list of the waiting characters. -/
theorem readLine_eq {len : Int} (nonneg : 0 ≤ len) (buf : Int → UInt8) (k : Keyboard) :
    let r := drainList (LineBuffer.takeChar len) (LineBuffer.start buf) k.queue.contents
    (readLine len buf k).1 = r.1.count ∧ (readLine len buf k).2.1 = r.1 ∧
      (readLine len buf k).2.2.queue.contents = r.2 := by
  obtain ⟨hstate, hrest⟩ := KeyQueue.drain_eq (LineBuffer.takeChar len) bufLen
    (LineBuffer.start buf) k.queue (by rw [KeyQueue.length_contents]; exact k.queue.size_lt)
  rw [readLine, if_neg (Int.not_lt.mpr nonneg)]
  exact ⟨congrArg LineBuffer.count hstate, hstate, hrest⟩

/-! ## The line in the buffer -/

namespace LineBuffer

/-- The bytes below `count` are the line. -/
structure Holds (b : LineBuffer) (text : List UInt8) : Prop where
  /-- The length. -/
  count : b.count = text.length
  /-- The bytes. -/
  bytes : ∀ i : Nat, i < text.length → text[i]? = some (b.buf i)

variable {b : LineBuffer} {line : List UInt8} {len : Int} {c : UInt8}

theorem holds_start (buf : Int → UInt8) : (start buf).Holds [] := ⟨rfl, fun _ hi => nomatch hi⟩

/-- `buf[i]` after a store. -/
theorem store_buf (b : LineBuffer) (i j : Int) (v : UInt8) :
    (b.store i v).buf j = if j = i then v else b.buf j :=
  Function.update_apply _ _ _ _

/-- A character is stored and counted. -/
theorem Holds.push (h : b.Holds line) (c : UInt8) :
    ((b.store b.count c).move 1).Holds (line ++ [c]) := by
  refine ⟨?_, fun i hi => ?_⟩
  · change b.count + 1 = _
    rw [h.count, List.length_append, List.length_singleton]
    rfl
  · change _ = some ((b.store b.count c).buf i)
    rw [store_buf, h.count]
    by_cases hlast : i = line.length
    · subst hlast
      rw [if_pos rfl, List.getElem?_append_right (Nat.le_refl _), Nat.sub_self]
      rfl
    · have hlt : i < line.length := by
        rw [List.length_append, List.length_singleton] at hi
        omega
      rw [if_neg (by omega), List.getElem?_append_left hlt]
      exact h.bytes i hlt

/-- Going back takes the last character away. -/
theorem Holds.pop (h : b.Holds line) (nonempty : line ≠ []) :
    (b.move (-1)).Holds line.dropLast := by
  have hpos := List.length_pos_iff.mpr nonempty
  refine ⟨?_, fun i hi => ?_⟩
  · change b.count + -1 = _
    rw [h.count, List.length_dropLast]
    omega
  · rw [List.length_dropLast] at hi
    rw [List.getElem?_dropLast, if_pos hi]
    exact h.bytes i (by omega)

/-- **A key** edits the line in the buffer. -/
theorem Holds.key (h : b.Holds line) (c : UInt8) : (b.key c).Holds (press isBackspace line c) := by
  have hpush := h.push c
  unfold LineBuffer.key
  dsimp only
  split_ifs with hback
  · -- the backspace itself goes first
    have hself := hpush.pop (List.append_ne_nil_of_right_ne_nil line (List.cons_ne_nil c []))
    rw [List.dropLast_concat] at hself
    rw [press_of_erases (by simp [isBackspace, hback]), erase]
    split_ifs with hmore
    · refine hself.pop fun hnil => ?_
      rw [hself.count, hnil] at hmore
      exact absurd hmore (Int.lt_irrefl 0)
    · have hnil : line = [] := by
        rw [hself.count] at hmore
        exact List.length_eq_zero_iff.mp (by omega)
      rw [hnil] at hself ⊢
      exact hself
  · rw [press_of_not_erases (by simp [isBackspace, hback])]
    exact hpush

/-- The last character of the line is overwritten. -/
theorem Holds.last (h : b.Holds line) (nonempty : line ≠ []) (v : UInt8) :
    (b.store (b.count - 1) v).Holds (line.dropLast ++ [v]) := by
  have hpop := (h.pop nonempty).push v
  exact ⟨by rw [← hpop.count]; change b.count = b.count + -1 + 1; omega, hpop.bytes⟩

/-! ## The edited line -/

end LineBuffer

/-- **The edited line** and the characters that are left: the characters are processed in order, a
backspace deletes the last character of the line, and it ends with its first newline or when it has
`len` characters. -/
def editLine (len : Int) (line : List UInt8) : List UInt8 → List UInt8 × List UInt8
  | [] => (line, [])
  | c :: cs =>
      let line := press isBackspace line c
      if c = 10 ∨ line.length = len then (line, cs) else editLine len line cs

/-- What `sys_readline` leaves of a line: when it fills the buffer, its last character is
overwritten by a `NUL`. -/
def closed (len : Int) (line : List UInt8) : List UInt8 :=
  if line.length = len then line.dropLast ++ [0] else line

namespace LineBuffer

variable {b : LineBuffer} {line : List UInt8} {len : Int} {c : UInt8}

/-- **The loop** leaves the edited line in the buffer, closed, and the same characters. -/
theorem Holds.drainList (h : b.Holds line) (short : line.length < len) {cs : List UInt8}
    (keys : ∀ c ∈ cs, c ≠ 0xff) :
    (drainList (takeChar len) b cs).1.Holds (closed len (editLine len line cs).1) ∧
      (drainList (takeChar len) b cs).2 = (editLine len line cs).2 := by
  induction cs generalizing b line with
  | nil =>
      have hopen : closed len line = line := if_neg (Int.ne_of_lt short)
      rw [Pebbles.drainList, editLine, hopen]
      exact ⟨h, rfl⟩
  | cons c cs ih =>
      have hkey := h.key c
      rw [Pebbles.drainList, if_neg (keys c List.mem_cons_self), editLine, takeChar]
      rw [hkey.count]
      by_cases hfull : ((press isBackspace line c).length : Int) = len
      · have hne : press isBackspace line c ≠ [] := by
          intro hnil
          rw [hnil] at hfull
          have : (0 : Int) ≤ line.length := Int.natCast_nonneg _
          rw [← hfull] at short
          exact absurd short (Int.not_lt.mpr this)
        rw [if_pos hfull, if_pos (Or.inr hfull), if_pos rfl, closed, if_pos hfull, ← hkey.count]
        exact ⟨hkey.last hne 0, rfl⟩
      · rw [if_neg hfull]
        by_cases hnewline : c = 10
        · -- the newline is stored a second time
          have hpress : press isBackspace line c = line ++ [c] :=
            press_of_not_erases (by simp [isBackspace, hnewline])
          have hlast := hkey.last (by rw [hpress]; simp) c
          rw [if_pos hnewline, if_pos (Or.inl hnewline), if_pos rfl, closed, if_neg hfull,
            ← hkey.count, ← hnewline]
          rw [hpress, List.dropLast_concat] at hlast
          rw [hpress]
          exact ⟨hlast, rfl⟩
        · rw [if_neg hnewline, if_neg Bool.false_ne_true, if_neg (not_or.mpr ⟨hnewline, hfull⟩)]
          refine ih hkey ?_ fun c hc => keys c (List.mem_cons_of_mem _ hc)
          have hgrow := (press_sublist isBackspace line c).length_le
          rw [List.length_append, List.length_singleton] at hgrow
          omega

end LineBuffer

/-- Closing a line keeps its length. -/
theorem length_closed {len : Int} (positive : 1 ≤ len) (line : List UInt8) :
    (closed len line).length = line.length := by
  unfold closed
  split_ifs with hfull
  · rw [List.length_append, List.length_dropLast, List.length_singleton]
    omega
  · rfl

/-- The loop of `Keyboard.sysReadline` leaves the same line, and the same characters. -/
theorem readChars_eq {len : Int} {line cs : List UInt8} (short : line.length < len)
    (keys : ∀ c ∈ cs, c ≠ 0xff) :
    Keyboard.readChars len line cs =
      (closed len (editLine len line cs).1, (editLine len line cs).2) := by
  induction cs generalizing line with
  | nil =>
      have hopen : closed len line = line := if_neg (Int.ne_of_lt short)
      rw [Keyboard.readChars, editLine, hopen]
  | cons c cs ih =>
      have hgrow := (press_sublist isBackspace line c).length_le
      rw [List.length_append, List.length_singleton] at hgrow
      rw [Keyboard.readChars, if_neg (keys c List.mem_cons_self), editLine]
      dsimp only
      by_cases hfull : ((press isBackspace line c).length : Int) = len
      · have hne : press isBackspace line c ≠ [] := by
          rintro hnil
          rw [hnil] at hfull
          simp only [List.length_nil, Int.natCast_zero] at hfull
          omega
        rw [if_pos hfull, if_pos (Or.inr hfull), closed, if_pos hfull, Keyboard.terminate,
          if_neg hne]
      · rw [if_neg hfull]
        by_cases hnewline : c = 10
        · rw [if_pos hnewline, if_pos (Or.inl hnewline), closed, if_neg hfull]
        · rw [if_neg hnewline, if_neg (not_or.mpr ⟨hnewline, hfull⟩)]
          exact ih (by omega) fun c hc => keys c (List.mem_cons_of_mem _ hc)

/-- **`readline` returns the edited line**, closed. From a buffer of `len` bytes and any waiting
characters, none of which is the `0xff` that `readchar` also gives when the ring is empty, the call
returns the length of the edited line, leaves it in the buffer, with a `NUL` in place of its last
character when it fills the buffer, and takes the processed characters out of the ring. -/
theorem readLine_returns_closed {len : Int} (positive : 1 ≤ len) (buf : Int → UInt8) (k : Keyboard)
    (keys : ∀ c ∈ k.queue.contents, c ≠ 0xff) :
    (readLine len buf k).1 = (editLine len [] k.queue.contents).1.length ∧
      (∀ i : Nat, i < (editLine len [] k.queue.contents).1.length →
        (closed len (editLine len [] k.queue.contents).1)[i]? =
          some ((readLine len buf k).2.1.buf i)) ∧
        (readLine len buf k).2.2.queue.contents = (editLine len [] k.queue.contents).2 := by
  obtain ⟨hcount, hbuffer, hrest⟩ := readLine_eq (Int.le_of_lt positive) buf k
  obtain ⟨hholds, hleft⟩ := (LineBuffer.holds_start buf).drainList positive keys
  have hlength := length_closed positive (editLine len [] k.queue.contents).1
  refine ⟨?_, fun i hi => ?_, ?_⟩
  · rw [hcount, hholds.count, hlength]
  · rw [hbuffer]
    exact hholds.bytes i (by rwa [hlength])
  · rw [hrest, hleft]

/-- A keyboard with the given characters waiting. -/
def typed (cs : List UInt8) : Keyboard := ⟨cs.foldl KeyQueue.enqueue KeyQueue.setup, 0⟩

/-- A newline after an erased character, in a buffer with room. -/
theorem readLine_returns_closed_room : (readLine 4 (fun _ => 0) (typed [97, 98, 8, 10])).1 = 2 ∧
    (readLine 4 (fun _ => 0) (typed [97, 98, 8, 10])).2.1.buf 0 = 97 := by
  obtain ⟨hcount, hbytes, -⟩ := readLine_returns_closed (by decide : (1 : Int) ≤ 4) (fun _ => 0)
    (typed [97, 98, 8, 10]) (List.all_iff_forall_prop.mp (by decide))
  exact ⟨hcount.trans (by decide), (Option.some.inj (hbytes 0 (by decide))).symm.trans (by decide)⟩

/-- **A line that fills the buffer** loses its last character. -/
theorem last_character_lost : (∀ c ∈ (typed [97]).queue.contents, c ≠ 0xff) ∧
    (editLine 1 [] (typed [97]).queue.contents).1 = [97] ∧
      (readLine 1 (fun _ => 0) (typed [97])).1 = 1 ∧
        (readLine 1 (fun _ => 0) (typed [97])).2.1.buf 0 ≠ 97 := by
  -- the list is asked for its elements, not all characters
  have hkeys : (typed [97]).queue.contents.all (· ≠ 0xff) := by
    decide
  exact ⟨List.all_iff_forall_prop.mp hkeys, by decide, by decide, by decide⟩

/-! ## The bounds of the buffer -/

namespace LineBuffer

variable {b : LineBuffer} {len : Int} {c : UInt8}

/-- **Inside the buffer**: every index that was written, and `count`. -/
structure Inside (len : Int) (b : LineBuffer) : Prop where
  /-- The indices. -/
  written : ∀ i ∈ b.written, 0 ≤ i ∧ i < len
  /-- The count. -/
  count : 0 ≤ b.count ∧ b.count ≤ len

/-- A byte is stored inside. -/
theorem Inside.store (h : b.Inside len) {i : Int} (hi : 0 ≤ i ∧ i < len) (v : UInt8) :
    (b.store i v).Inside len := by
  refine ⟨fun j hj => ?_, h.count⟩
  rcases List.mem_cons.mp hj with rfl | hold
  · exact hi
  · exact h.written j hold

/-- **A key** stays inside when there is room for it. -/
theorem Inside.key (h : b.Inside len) (room : b.count < len) (c : UInt8) :
    (b.key c).Inside len := by
  have hcount := h.count
  have hpush := h.store ⟨hcount.1, room⟩ c
  have hwritten := hpush.written
  unfold LineBuffer.key erase
  dsimp only
  split_ifs with hback hmore
  · refine ⟨hwritten, ?_⟩
    change 0 ≤ b.count + 1 + -1 + -1 ∧ b.count + 1 + -1 + -1 ≤ len
    have hmore' : 0 < b.count + 1 + -1 := hmore
    omega
  · refine ⟨hwritten, ?_⟩
    change 0 ≤ b.count + 1 + -1 ∧ b.count + 1 + -1 ≤ len
    omega
  · refine ⟨hwritten, ?_⟩
    change 0 ≤ b.count + 1 ∧ b.count + 1 ≤ len
    omega

/-- A character other than a backspace is counted. -/
theorem key_count (b : LineBuffer) (plain : c ≠ 8) : (b.key c).count = b.count + 1 := by
  rw [LineBuffer.key, if_neg plain]
  rfl

/-- **The body of the loop** stays inside, and breaks out when the buffer is full. -/
theorem Inside.takeChar (h : b.Inside len) (room : b.count < len) (c : UInt8) :
    (takeChar len b c).1.Inside len ∧
      ((takeChar len b c).2 = false → (takeChar len b c).1.count < len) := by
  have hkey := h.key room c
  have hbefore := h.count
  have hcount := hkey.count
  unfold LineBuffer.takeChar
  dsimp only
  split_ifs with hfull hnewline
  · exact ⟨hkey.store (by omega) 0, nofun⟩
  · -- the newline was counted
    have hone := b.key_count (c := c) (by rw [hnewline]; decide)
    exact ⟨hkey.store (by omega) 10, nofun⟩
  · exact ⟨hkey, fun _ => Int.lt_iff_le_and_ne.mpr ⟨hcount.2, hfull⟩⟩

/-- **The loop** stays inside a buffer that is not full. -/
theorem Inside.drainList {cs : List UInt8} (h : b.Inside len) (room : b.count < len) :
    (drainList (LineBuffer.takeChar len) b cs).1.Inside len := by
  induction cs generalizing b with
  | nil => exact h
  | cons c cs ih =>
      obtain ⟨htake, hroom⟩ := h.takeChar room c
      rw [Pebbles.drainList]
      split_ifs with hff hbreak
      · exact h
      · exact htake
      · exact ih htake (hroom (Bool.eq_false_iff.mpr hbreak))

/-- What was written stays recorded, and the character is stored at `count`. -/
theorem written_takeChar (len : Int) (b : LineBuffer) (c : UInt8) {i : Int}
    (hi : i ∈ b.count :: b.written) : i ∈ (LineBuffer.takeChar len b c).1.written := by
  have hkey : (b.key c).written = b.count :: b.written := by
    unfold LineBuffer.key erase
    dsimp only
    split_ifs <;> rfl
  unfold LineBuffer.takeChar
  dsimp only
  rw [← hkey] at hi
  split_ifs
  · exact List.mem_cons_of_mem _ hi
  · exact List.mem_cons_of_mem _ hi
  · exact hi

/-- The loop keeps what was written recorded. -/
theorem written_drainList (len : Int) (b : LineBuffer) (cs : List UInt8) {i : Int}
    (hi : i ∈ b.written) :
    i ∈ (Pebbles.drainList (LineBuffer.takeChar len) b cs).1.written := by
  induction cs generalizing b with
  | nil => exact hi
  | cons c cs ih =>
      have htake := written_takeChar len b c (List.mem_cons_of_mem _ hi)
      rw [Pebbles.drainList]
      split_ifs
      · exact hi
      · exact htake
      · exact ih _ htake

end LineBuffer

/-- **`readline` stays inside its buffer**: every index written is below `len`, and so is the
returned count, or equal to it. -/
def StaysInside (len : Int) (r : Int × LineBuffer × Keyboard) : Prop :=
  (∀ i ∈ r.2.1.written, 0 ≤ i ∧ i < len) ∧ 0 ≤ r.1 ∧ r.1 ≤ len

/-- **`readline` stays inside its buffer exactly when** the buffer has room for a character, or the
loop reads none: the ring is empty, or begins with the character that is taken for -1. -/
theorem staysInside_iff {len : Int} (nonneg : 0 ≤ len) (buf : Int → UInt8) (k : Keyboard) :
    StaysInside len (readLine len buf k) ↔
      1 ≤ len ∨ ∀ c, k.queue.contents.head? = some c → c = 0xff := by
  obtain ⟨hcount, hbuffer, -⟩ := readLine_eq nonneg buf k
  have hstart : (LineBuffer.start buf).Inside len := ⟨nofun, Int.le_refl 0, nonneg⟩
  have inside : (drainList (LineBuffer.takeChar len) (LineBuffer.start buf)
      k.queue.contents).1.Inside len → StaysInside len (readLine len buf k) := by
    intro h
    rw [StaysInside, hcount, hbuffer]
    exact ⟨h.written, h.count⟩
  constructor
  · intro h
    by_contra hboth
    obtain ⟨hnone, hfirst⟩ := not_or.mp hboth
    push Not at hfirst
    obtain ⟨c, hc, hff⟩ := hfirst
    obtain ⟨cs, hcontents⟩ := List.head?_eq_some_iff.mp hc
    -- the first character goes to index 0
    have hstored : (0 : Int) ∈ (readLine len buf k).2.1.written := by
      have htake := LineBuffer.written_takeChar len (LineBuffer.start buf) c
        (List.mem_cons_self : (0 : Int) ∈ 0 :: [])
      rw [hbuffer, hcontents, drainList, if_neg hff]
      split_ifs
      · exact htake
      · exact LineBuffer.written_drainList len _ cs htake
    have hzero := h.1 0 hstored
    omega
  · rintro (hroom | hnothing)
    · exact inside (hstart.drainList hroom)
    · apply inside
      cases hcontents : k.queue.contents with
      | nil => exact hstart
      | cons c cs =>
          rw [drainList, if_pos (hnothing c (by rw [hcontents]; rfl))]
          exact hstart

/-- A backspace in a buffer of one byte. -/
theorem staysInside_iff_one : StaysInside 1 (readLine 1 (fun _ => 0) (typed [8, 97])) :=
  (staysInside_iff (by decide) (fun _ => 0) (typed [8, 97])).mpr (Or.inl (by decide))

/-- **A buffer of no bytes** is written, and the count is not 0. -/
theorem empty_buffer_written : ¬StaysInside 0 (readLine 0 (fun _ => 0) (typed [97, 98, 10])) ∧
    (readLine 0 (fun _ => 0) (typed [97, 98, 10])).1 = 3 := by
  refine ⟨fun h => ?_, by decide⟩
  have hcount := h.2.2
  revert hcount
  decide

end Pebbles
