import Pebbles.Library.LineEditing
import Mathlib.Data.List.GetD
import Mathlib.Algebra.Group.Nat.Defs
import Mathlib.Algebra.Group.Int.Defs

/-! # The keyboard driver and `readline`

`kern/hardware/keyboard.c` with the loop of `sys_readline` (`kern/syscall/sys_consoleIO.c`): a ring
of `BUF_LEN` characters between the interrupt handler and the readers, and the counter `total_num`.
The ring is the array of the source with its two indices; `contents` is the list of the characters
that wait in it, and every function is described by what it does to this list. -/

namespace Pebbles

open LineEditing

/-! ## The ring -/

/-- `BUF_LEN`. -/
def bufLen : Nat := 512

/-- `s_queue` with `start` and `tail`. -/
structure KeyQueue where
  /-- The buffer. -/
  q : Nat → UInt8
  /-- Where the next character is taken out. -/
  start : Nat
  /-- Where the next character is put. -/
  tail : Nat
  /-- An index of the buffer. -/
  start_lt : start < bufLen
  /-- An index of the buffer. -/
  tail_lt : tail < bufLen

namespace KeyQueue

/-- `setup_keyboard`. -/
def setup : KeyQueue := ⟨fun _ => 0, 0, 0, by decide, by decide⟩

/-- `queue_empty`. -/
def queueEmpty (k : KeyQueue) : Bool := k.start = k.tail

/-- The index after `i`. -/
def after (i : Nat) : Nat := (i + 1) % bufLen

theorem after_lt (i : Nat) : after i < bufLen := Nat.mod_lt _ (by decide)

/-- `enqueue`. A full ring loses its oldest character. -/
def enqueue (k : KeyQueue) (s : UInt8) : KeyQueue where
  q := fun i => if i = k.tail then s else k.q i
  start := if k.start = after k.tail then after k.start else k.start
  tail := after k.tail
  start_lt := by
    split_ifs
    · exact after_lt _
    · exact k.start_lt
  tail_lt := after_lt _

/-- `dequeue`. -/
def dequeue (k : KeyQueue) : UInt8 × KeyQueue :=
  (k.q k.start, { k with start := after k.start, start_lt := after_lt _ })

/-- `readchar`. Without a character it is -1, and so is the character `0xff`. -/
def readchar (k : KeyQueue) : Option UInt8 × KeyQueue :=
  if k.queueEmpty then (none, k)
  else (if k.dequeue.1 = 0xff then none else some k.dequeue.1, k.dequeue.2)

/-- The number of characters in the ring. -/
def size (k : KeyQueue) : Nat := (k.tail + bufLen - k.start) % bufLen

/-- The characters in the ring, the oldest first. -/
def contents (k : KeyQueue) : List UInt8 :=
  (List.range k.size).map fun i => k.q ((k.start + i) % bufLen)

@[simp] theorem length_contents (k : KeyQueue) : k.contents.length = k.size := by simp [contents]

theorem size_lt (k : KeyQueue) : k.size < bufLen := Nat.mod_lt _ (by decide)

@[simp] theorem contents_setup : setup.contents = [] := rfl

/-- The test for an empty ring. -/
theorem queueEmpty_iff (k : KeyQueue) : k.queueEmpty = true ↔ k.contents = [] := by
  have hstart := k.start_lt
  have htail := k.tail_lt
  rw [← List.length_eq_zero_iff, length_contents, size, queueEmpty, decide_eq_true_eq]
  simp only [bufLen] at *
  omega

/-- A character of the ring. -/
theorem contents_getElem? (k : KeyQueue) (i : Nat) :
    k.contents[i]? = if i < k.size then some (k.q ((k.start + i) % bufLen)) else none := by
  rw [contents, List.getElem?_map]
  split_ifs with h
  · rw [List.getElem?_range h, Option.map_some]
  · rw [List.getElem?_eq_none (by simpa using h), Option.map_none]

/-- The ring is full when the index after the last is the first. -/
theorem full_iff (k : KeyQueue) : k.start = after k.tail ↔ k.size = 511 := by
  have hstart := k.start_lt
  have htail := k.tail_lt
  simp only [after, size, bufLen] at *
  omega

theorem enqueue_start_of_full {k : KeyQueue} {s : UInt8} (h : k.size = 511) :
    (k.enqueue s).start = (k.start + 1) % 512 :=
  if_pos (k.full_iff.mpr h)

theorem enqueue_start {k : KeyQueue} {s : UInt8} (h : k.size ≠ 511) :
    (k.enqueue s).start = k.start :=
  if_neg (mt k.full_iff.mp h)

@[simp] theorem enqueue_tail (k : KeyQueue) (s : UInt8) :
    (k.enqueue s).tail = (k.tail + 1) % 512 := rfl

@[simp] theorem enqueue_q (k : KeyQueue) (s : UInt8) (i : Nat) :
    (k.enqueue s).q i = if i = k.tail then s else k.q i := rfl

/-- **Enqueueing** appends; when 511 characters wait, the oldest one is lost. -/
theorem contents_enqueue (k : KeyQueue) (s : UInt8) :
    (k.enqueue s).contents = (if k.size = 511 then k.contents.tail else k.contents) ++ [s] := by
  have hstart := k.start_lt
  have htail := k.tail_lt
  have hsize : k.size = (k.tail + 512 - k.start) % 512 := rfl
  have hsize' : (k.enqueue s).size = ((k.tail + 1) % 512 + 512 - (k.enqueue s).start) % 512 := rfl
  simp only [bufLen] at hstart htail
  apply List.ext_getElem?
  intro i
  rw [contents_getElem?, enqueue_q, bufLen]
  by_cases h : k.size = 511
  · -- the first index moves on
    rw [enqueue_start_of_full h] at hsize' ⊢
    have hlen : k.contents.tail.length = 510 := by simp [h]
    rw [if_pos h, List.getElem?_append, hlen, List.getElem?_tail, contents_getElem?, bufLen]
    by_cases hi : i < 510
    · have hindex : ((k.start + 1) % 512 + i) % 512 = (k.start + (i + 1)) % 512 := by omega
      have hne : (k.start + (i + 1)) % 512 ≠ k.tail := by omega
      have hlt : i < (k.enqueue s).size := by omega
      have hlt' : i + 1 < k.size := by omega
      rw [hindex, if_neg hne, if_pos hlt, if_pos hi, if_pos hlt']
    · rw [if_neg hi]
      by_cases hlast : i = 510
      · have hlt : i < (k.enqueue s).size := by omega
        have hindex : ((k.start + 1) % 512 + i) % 512 = k.tail := by omega
        rw [if_pos hindex, if_pos hlt, hlast]
        rfl
      · have hge : ¬i < (k.enqueue s).size := by omega
        rw [if_neg hge, List.getElem?_eq_none]
        rw [List.length_singleton]
        omega
  · -- the first index stays
    rw [enqueue_start h] at hsize' ⊢
    rw [if_neg h, List.getElem?_append, length_contents, contents_getElem?, bufLen]
    by_cases hi : i < k.size
    · have hne : (k.start + i) % 512 ≠ k.tail := by omega
      have hlt : i < (k.enqueue s).size := by omega
      rw [if_neg hne, if_pos hlt, if_pos hi, if_pos hi]
    · rw [if_neg hi]
      by_cases hlast : i = k.size
      · have hlt : i < (k.enqueue s).size := by omega
        have hindex : (k.start + i) % 512 = k.tail := by omega
        rw [if_pos hindex, if_pos hlt, hlast, Nat.sub_self]
        rfl
      · have hge : ¬i < (k.enqueue s).size := by omega
        rw [if_neg hge, List.getElem?_eq_none]
        rw [List.length_singleton]
        omega

/-- **Dequeueing** takes the oldest character. -/
theorem contents_dequeue {k : KeyQueue} {c : UInt8} {cs : List UInt8} (h : k.contents = c :: cs) :
    k.dequeue.1 = c ∧ k.dequeue.2.contents = cs := by
  have hstart := k.start_lt
  have htail := k.tail_lt
  have hsize : k.size = (k.tail + 512 - k.start) % 512 := rfl
  have hsize' : k.dequeue.2.size = (k.tail + 512 - (k.start + 1) % 512) % 512 := rfl
  simp only [bufLen] at hstart htail
  have hpos : 0 < k.size := by
    rw [← length_contents, h]
    exact Nat.succ_pos _
  constructor
  · have hfirst := k.contents_getElem? 0
    rw [h, if_pos hpos, List.getElem?_cons_zero, Nat.add_zero, Nat.mod_eq_of_lt k.start_lt] at hfirst
    exact (Option.some.inj hfirst).symm
  · apply List.ext_getElem?
    intro i
    have hnext := k.contents_getElem? (i + 1)
    rw [h, List.getElem?_cons_succ, bufLen] at hnext
    rw [hnext, contents_getElem?, bufLen]
    have hindex : (k.dequeue.2.start + i) % 512 = (k.start + (i + 1)) % 512 := by
      show ((k.start + 1) % 512 + i) % 512 = _
      omega
    rw [hindex]
    by_cases hi : i + 1 < k.size
    · rw [if_pos (by omega), if_pos hi]
      rfl
    · rw [if_neg (by omega), if_neg hi]

end KeyQueue

/-! ## The handler and the reading loop -/

/-- The character of a key. `process_scancode` gives ASCII characters and those of `kh_extended_e`,
none of which is `0xff`. -/
def Key : Type := { ch : UInt8 // ch ≠ 0xff }

/-- `'\b'`. -/
def isBackspace (c : UInt8) : Bool := c = 8

/-- The ring and `total_num`. -/
structure Keyboard where
  /-- The ring. -/
  queue : KeyQueue
  /-- `total_num`. -/
  totalNum : Int

namespace Keyboard

/-- After `setup_keyboard`. -/
def boot : Keyboard := ⟨KeyQueue.setup, 0⟩

/-- `total_num` is an `int`. -/
def count (k : Keyboard) (change : Int) : Keyboard :=
  { k with totalNum := (k.totalNum + change).bmod (2 ^ 32) }

/-- A character is put into the ring. -/
def put (k : Keyboard) (ch : UInt8) : Keyboard := { k with queue := k.queue.enqueue ch }

/-- `keyboard_handler`, for a key that goes down. `waiting` says whether a thread in `blocked_queue`
is in state `THREAD_READLINE`; a newline makes the first one runnable. The second component is what
`putbyte` echoes. -/
def keyboardHandler (k : Keyboard) (ch : UInt8) (waiting : Bool) : Keyboard × Option UInt8 :=
  if ch = 10 then
    if waiting then ((k.count 1).put ch, some ch) else (k, some ch)
  else if ch = 8 then
    if k.totalNum = 0 then (k, none) else (((k.count (-2)).count 1).put ch, some ch)
  else ((k.count 1).put ch, some ch)

/-- `buf[count - 1] = '\0'`. -/
def terminate (buf : List UInt8) : List UInt8 := if buf = [] then [] else buf.dropLast ++ [0]

/-- The loop of `sys_readline`: `buf` is what lies below `count` in the buffer. -/
def readLoop (len : Int) : Nat → List UInt8 → KeyQueue → List UInt8 × KeyQueue
  | 0, buf, k => (buf, k)
  | fuel + 1, buf, k =>
      match k.readchar with
      | (none, k) => (buf, k)
      | (some c, k) =>
          let buf := press isBackspace buf c
          if buf.length = len then (terminate buf, k)
          else if c = 10 then (buf, k)
          else readLoop len fuel buf k

/-- `sys_readline`, once the thread has been woken: the buffer up to `count`. The ring has room for
fewer than `BUF_LEN` characters, so the loop comes to its end. -/
def sysReadline (k : Keyboard) (len : Int) : Keyboard × List UInt8 :=
  if len < 0 then (k, [])
  else
    let r := readLoop len bufLen [] k.queue
    (({ k with queue := r.2 }).count (-r.1.length), r.1)

/-! ## The loop on the list of the waiting characters -/

/-- The loop of `sys_readline` on a list: the buffer, and the characters that it leaves. -/
def readChars (len : Int) (buf : List UInt8) : List UInt8 → List UInt8 × List UInt8
  | [] => (buf, [])
  | c :: cs =>
      if c = 0xff then (buf, cs)
      else
        let buf := press isBackspace buf c
        if buf.length = len then (terminate buf, cs)
        else if c = 10 then (buf, cs)
        else readChars len buf cs

/-- **The loop reads the list of the waiting characters.** -/
theorem readLoop_eq (len : Int) (fuel : Nat) (buf : List UInt8) (k : KeyQueue)
    (hfuel : k.contents.length < fuel) :
    (readLoop len fuel buf k).1 = (readChars len buf k.contents).1 ∧
      (readLoop len fuel buf k).2.contents = (readChars len buf k.contents).2 := by
  induction fuel generalizing buf k with
  | zero => omega
  | succ fuel ih =>
      cases hcontents : k.contents with
      | nil =>
          have hempty : k.queueEmpty = true := k.queueEmpty_iff.mpr hcontents
          simp [readLoop, KeyQueue.readchar, hempty, readChars, hcontents]
      | cons c cs =>
          have hne : k.queueEmpty = false := by
            rw [← Bool.not_eq_true, k.queueEmpty_iff, hcontents]
            exact List.cons_ne_nil _ _
          obtain ⟨hc, hcs⟩ := KeyQueue.contents_dequeue hcontents
          have hread : k.readchar = (if c = 0xff then none else some c, k.dequeue.2) := by
            rw [KeyQueue.readchar, hne, if_neg Bool.false_ne_true, hc]
          have hshort : k.dequeue.2.contents.length < fuel := by
            rw [hcs]
            rw [hcontents, List.length_cons] at hfuel
            omega
          obtain ⟨hbuf, hrest⟩ := ih (press isBackspace buf c) k.dequeue.2 hshort
          rw [readLoop, hread, readChars]
          by_cases hff : c = 0xff
          · simp [hff, hcs]
          · simp only [if_neg hff]
            split_ifs
            · exact ⟨rfl, hcs⟩
            · exact ⟨rfl, hcs⟩
            · rw [← hcs]
              exact ⟨hbuf, hrest⟩

/-- The number of characters up to the first newline, or up to where the line, as it is edited, has
`len` characters. -/
def lineLength (len : Int) (line : List UInt8) : List UInt8 → Nat
  | [] => 0
  | c :: cs =>
      let line := press isBackspace line c
      if line.length = len ∨ c = 10 then 1 else lineLength len line cs + 1

/-- **The loop takes one line**, and what it leaves in the buffer is as long as this
line, edited. -/
theorem readChars_spec (len : Int) (buf cs : List UInt8) (hff : ∀ c ∈ cs, c ≠ 0xff) :
    (readChars len buf cs).2 = cs.drop (lineLength len buf cs) ∧
      (readChars len buf cs).1.length =
        (edit isBackspace buf (cs.take (lineLength len buf cs))).length := by
  induction cs generalizing buf with
  | nil => exact ⟨rfl, rfl⟩
  | cons c cs ih =>
      rw [readChars, lineLength, if_neg (hff c List.mem_cons_self)]
      dsimp only
      by_cases hlen : ((press isBackspace buf c).length : Int) = len
      · rw [if_pos hlen, if_pos (Or.inl hlen)]
        refine ⟨rfl, ?_⟩
        rw [List.take_succ_cons, List.take_zero, edit_cons, edit_nil, terminate]
        split_ifs with hnil
        · rw [hnil]
        · have := List.length_pos_iff.mpr hnil
          rw [List.length_append, List.length_dropLast, List.length_singleton]
          omega
      · by_cases hnl : c = 10
        · rw [if_neg hlen, if_pos hnl, if_pos (Or.inr hnl)]
          exact ⟨rfl, rfl⟩
        · rw [if_neg hlen, if_neg hnl, if_neg (not_or.mpr ⟨hlen, hnl⟩)]
          exact ih (press isBackspace buf c) fun c hc => hff c (List.mem_cons_of_mem _ hc)

end Keyboard

end Pebbles
