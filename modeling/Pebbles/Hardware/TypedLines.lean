import Pebbles.Hardware.Keyboard
import Pebbles.Library.Runs

/-! # Typed lines and the readers

Any number of threads call `readline` while keys are typed. Below is the driver with its readers: a
call marks its thread `THREAD_READLINE`, the thread goes to `blocked_queue`, a newline wakes the
first one there, and a thread that has been woken goes through its loop whenever the scheduler lets
it. Beside the driver the state keeps what was typed, line by line, and what the calls have
returned. -/

namespace Pebbles

open LineEditing Transition

/-- A call of `readline`: the thread and its `len`. -/
structure Reader where
  /-- The thread. -/
  thread : Nat
  /-- The size of the buffer. -/
  len : Int

/-- The driver, its readers, and the lines. -/
structure TypedLines where
  /-- The driver. -/
  kb : Keyboard
  /-- Threads in state `THREAD_READLINE` that still run. -/
  entered : List Reader
  /-- The readers in `blocked_queue`. -/
  blocked : List Reader
  /-- The readers that a newline has made runnable. -/
  woken : List Reader
  /-- The lines that were typed, edited, each with its newline. -/
  lines : List (List UInt8)
  /-- The line that is being typed, edited. -/
  current : List UInt8
  /-- What the completed calls have returned. -/
  returned : List (List UInt8)

/-- What happens. -/
inductive LineEvent where
  /-- A key goes down. -/
  | key (key : Key)
  /-- A thread calls `readline` with a buffer of `len` characters. -/
  | call (thread : Nat) (len : Int)
  /-- A thread that has called is put into `blocked_queue`. -/
  | block (reader : Reader)
  /-- A thread that was woken goes through the loop. -/
  | read (reader : Reader)

/-- `MAX_READ_LEN`. -/
def maxReadLen : Int := 4096

namespace TypedLines

/-- After the boot. -/
def boot : TypedLines := ⟨Keyboard.boot, [], [], [], [], [], []⟩

/-- The readers, wherever they are. -/
def readers (s : TypedLines) : List Reader := s.entered ++ s.blocked ++ s.woken

/-- A key on the line that is being typed. -/
def type (s : TypedLines) (ch : UInt8) : TypedLines :=
  if ch = 10 then { s with lines := s.lines ++ [s.current ++ [10]], current := [] }
  else { s with current := press isBackspace s.current ch }

/-- `keyboard_handler` takes the first reader out of `blocked_queue` when the key is a newline. -/
def wake (s : TypedLines) (ch : UInt8) : TypedLines :=
  if ch = 10 then { s with blocked := s.blocked.tail, woken := s.woken ++ s.blocked.take 1 } else s

/-- A key. -/
def key (s : TypedLines) (ch : UInt8) : TypedLines :=
  { (s.wake ch).type ch with kb := (s.kb.keyboardHandler ch (s.blocked ≠ [])).1 }

/-- The loop of a reader. -/
def read (s : TypedLines) (len : Int) : TypedLines :=
  { s with kb := (s.kb.sysReadline len).1, returned := s.returned ++ [(s.kb.sysReadline len).2] }

/-- **One event.** -/
inductive Step (s : TypedLines) : LineEvent → TypedLines → Prop
  /-- `keyboard_handler` runs with interrupts disabled. -/
  | key (key : Key) : Step s (.key key) (s.key key.1)
  /-- A thread has one call at a time, and `len` is checked before the thread waits. -/
  | call (thread : Nat) (len : Int) (free : ∀ r ∈ s.readers, r.thread ≠ thread)
      (short : len ≤ maxReadLen) :
      Step s (.call thread len) { s with entered := ⟨thread, len⟩ :: s.entered }
  /-- `schedule`, called by the thread or by the timer. -/
  | block (before after : List Reader) (reader : Reader)
      (here : s.entered = before ++ reader :: after) :
      Step s (.block reader)
        { s with entered := before ++ after, blocked := s.blocked ++ [reader] }
  /-- The loop runs with interrupts disabled. -/
  | read (before after : List Reader) (reader : Reader)
      (here : s.woken = before ++ reader :: after) :
      Step s (.read reader) { (s.read reader.len) with woken := before ++ after }

/-! ## The property and the condition -/

/-- **Delivered**: the calls have returned the first lines that were typed, in order. -/
def Delivered (s : TypedLines) : Prop := s.returned <+: s.lines

/-- The first line that waits in the ring is, as it is edited, always shorter than `len`. -/
def Fits (s : TypedLines) (len : Int) : Prop :=
  ∀ keys, keys <+: s.kb.queue.contents → 10 ∉ keys.dropLast →
    ((edit isBackspace [] keys).length : Int) < len

/-- **Careful events.** A key comes when fewer than 511 characters are unread, and a buffer is
longer than the line that is read. Moreover a newline comes when a reader is in `blocked_queue`, and
a backspace comes when `total_num` is not 0 or there is nothing on its line to erase. -/
def Careful (s : TypedLines) : LineEvent → Prop
  | .key key =>
      s.kb.queue.size < 511 ∧ (key.1 = 10 → s.blocked ≠ []) ∧
        (key.1 = 8 → s.kb.totalNum = 0 → s.current = [])
  | .read reader => s.Fits reader.len
  | _ => True

/-- A buffer for all unread characters is long enough. -/
theorem fits_of_size_lt {s : TypedLines} {len : Int} (h : (s.kb.queue.size : Int) < len) :
    s.Fits len := by
  intro keys hkeys _
  have hedit : (edit isBackspace [] keys).length ≤ ([] : List UInt8).length + keys.length :=
    length_edit_le
  have hshort := hkeys.length_le
  rw [KeyQueue.length_contents] at hshort
  rw [List.length_nil] at hedit
  omega

/-! ## Reading a line -/

/-- **The loop returns the first line of the ring**, edited, when the buffer is long enough. -/
theorem readChars_line {len : Int} {buf w rest : List UInt8} (hnl : (10 : UInt8) ∉ w)
    (hff : ∀ c ∈ w, c ≠ 0xff)
    (hfits : ∀ keys, keys <+: w ++ [10] → ((edit isBackspace buf keys).length : Int) < len) :
    Keyboard.readChars len buf (w ++ 10 :: rest) = (edit isBackspace buf (w ++ [10]), rest) := by
  induction w generalizing buf with
  | nil =>
      have hlen := hfits [10] (List.prefix_refl _)
      rw [edit_cons, edit_nil] at hlen
      rw [List.nil_append, Keyboard.readChars, if_neg (by decide)]
      dsimp only
      rw [if_neg (by omega), if_pos rfl]
      rfl
  | cons c cs ih =>
      obtain ⟨hc, hcs⟩ := not_or.mp (mt List.mem_cons.mpr hnl)
      have hlen := hfits [c] (by simp)
      rw [edit_cons, edit_nil] at hlen
      rw [List.cons_append, Keyboard.readChars, if_neg (hff c List.mem_cons_self)]
      dsimp only
      rw [if_neg (by omega), if_neg (Ne.symm hc)]
      refine ih hcs (fun c hmem => hff c (List.mem_cons_of_mem _ hmem)) fun keys hkeys => ?_
      exact hfits (c :: keys) (List.cons_prefix_cons.mpr ⟨rfl, hkeys⟩)

/-! ## The invariant -/

/-- The keys of a line with its newline. -/
def IsLine (keys : List UInt8) : Prop := ∃ w, keys = w ++ [10] ∧ (10 : UInt8) ∉ w

/-- **What holds as long as no key is lost**: the ring holds the lines that were typed and not read,
one for each reader that was woken, and after them the keys of the line that is being typed. -/
structure InOrder (s : TypedLines) (unread : List (List UInt8)) (keys : List UInt8) : Prop where
  /-- The ring. -/
  contents : s.kb.queue.contents = unread.flatten ++ keys
  /-- Whole lines. -/
  whole : ∀ line ∈ unread, IsLine line
  /-- The line that is being typed has no newline yet. -/
  open_line : (10 : UInt8) ∉ keys
  /-- The lines that were not read come after those that were. -/
  lines : s.lines = s.returned ++ unread.map (edit isBackspace [])
  /-- The line that is being typed. -/
  current : s.current = edit isBackspace [] keys
  /-- One line for each reader. -/
  readers : unread.length = s.woken.length
  /-- No character is taken for the end. -/
  chars : ∀ c ∈ s.kb.queue.contents, c ≠ 0xff

variable {s t : TypedLines} {unread : List (List UInt8)} {keys : List UInt8}

theorem InOrder.delivered (h : s.InOrder unread keys) : s.Delivered := by
  rw [Delivered, h.lines]
  exact List.prefix_append _ _

theorem inOrder_boot : boot.InOrder [] [] where
  contents := rfl
  whole line hline := by cases hline
  open_line := List.not_mem_nil
  lines := rfl
  current := rfl
  readers := rfl
  chars c hc := by cases hc

/-- A character is put into the ring. -/
theorem InOrder.contents_put (h : s.InOrder unread keys) (hroom : s.kb.queue.size < 511)
    (key : Key) :
    (s.kb.queue.enqueue key.1).contents = unread.flatten ++ keys ++ [key.1] ∧
      ∀ c ∈ (s.kb.queue.enqueue key.1).contents, c ≠ 0xff := by
  have hput : (s.kb.queue.enqueue key.1).contents = s.kb.queue.contents ++ [key.1] := by
    rw [KeyQueue.contents_enqueue, if_neg (by omega)]
  refine ⟨by rw [hput, h.contents], fun c hc => ?_⟩
  rw [hput, List.mem_append, List.mem_singleton] at hc
  rcases hc with hold | rfl
  · exact h.chars c hold
  · exact key.2

/-- **A newline** that meets a reader ends the line and wakes the reader. -/
theorem InOrder.newline (h : s.InOrder unread keys) (key : Key) (hkey : key.1 = 10)
    (careful : s.Careful (.key key)) : (s.key key.1).InOrder (unread ++ [keys ++ [10]]) [] := by
  obtain ⟨hroom, hreader, -⟩ := careful
  have hwaiting : s.blocked ≠ [] := hreader hkey
  obtain ⟨hcontents, hchars⟩ := h.contents_put hroom key
  rw [hkey] at hcontents hchars
  have hnext : s.key key.1 =
      { s with
        kb := (s.kb.count 1).put 10
        blocked := s.blocked.tail
        woken := s.woken ++ s.blocked.take 1
        lines := s.lines ++ [s.current ++ [10]]
        current := [] } := by
    simp [TypedLines.key, wake, type, hkey, Keyboard.keyboardHandler, hwaiting]
  have hone : (s.blocked.take 1).length = 1 := by
    have := List.length_pos_iff.mpr hwaiting
    rw [List.length_take]
    omega
  have hnot : isBackspace 10 = false := by decide
  rw [hnext]
  refine ⟨?_, ?_, List.not_mem_nil, ?_, rfl, ?_, hchars⟩
  · show (s.kb.queue.enqueue 10).contents = _
    rw [hcontents]
    simp
  · intro line hline
    rcases List.mem_append.mp hline with hold | hnew
    · exact h.whole line hold
    · exact ⟨keys, List.mem_singleton.mp hnew, h.open_line⟩
  · show s.lines ++ _ = s.returned ++ _
    rw [h.lines, h.current, List.map_append, List.map_singleton, edit_concat,
      press_of_not_erases hnot, List.append_assoc]
  · show (unread ++ [keys ++ [10]]).length = (s.woken ++ s.blocked.take 1).length
    rw [List.length_append, List.length_append, List.length_singleton, hone, h.readers]

/-- **A key on the line** that is being typed. -/
theorem InOrder.press (h : s.InOrder unread keys) (key : Key) (hkey : key.1 ≠ 10)
    (hroom : s.kb.queue.size < 511) (total : Int) :
    InOrder { s with
      kb := ⟨s.kb.queue.enqueue key.1, total⟩
      current := press isBackspace s.current key.1 } unread (keys ++ [key.1]) := by
  obtain ⟨hcontents, hchars⟩ := h.contents_put hroom key
  refine ⟨?_, h.whole, ?_, h.lines, ?_, h.readers, hchars⟩
  · rw [← List.append_assoc]
    exact hcontents
  · rw [List.mem_append, List.mem_singleton]
    exact not_or.mpr ⟨h.open_line, Ne.symm hkey⟩
  · rw [edit_concat, ← h.current]

/-- **Careful keys** keep the lines in order. -/
theorem InOrder.key (h : s.InOrder unread keys) (key : Key) (careful : s.Careful (.key key)) :
    ∃ unread' keys', (s.key key.1).InOrder unread' keys' := by
  by_cases hnl : key.1 = 10
  · exact ⟨_, _, h.newline key hnl careful⟩
  · obtain ⟨hroom, -, herase⟩ := careful
    by_cases hback : key.1 = 8
    · by_cases hzero : s.kb.totalNum = 0
      · -- the backspace is ignored, and has nothing to erase
        have hnothing : s.current = [] := herase hback hzero
        have hsame : s.key key.1 = s := by
          obtain ⟨kb, entered, blocked, woken, lines, current, returned⟩ := s
          simp only at hzero hnothing
          simp [TypedLines.key, wake, type, hback, Keyboard.keyboardHandler, hzero, hnothing,
            LineEditing.press, isBackspace]
        rw [hsame]
        exact ⟨unread, keys, h⟩
      · have hput := h.press key hnl hroom ((s.kb.count (-2)).count 1).totalNum
        refine ⟨unread, keys ++ [key.1], ?_⟩
        simpa [TypedLines.key, wake, type, hback, Keyboard.keyboardHandler, hzero, Keyboard.put,
          Keyboard.count] using hput
    · have hput := h.press key hnl hroom (s.kb.count 1).totalNum
      refine ⟨unread, keys ++ [key.1], ?_⟩
      simpa [TypedLines.key, wake, type, hnl, hback, Keyboard.keyboardHandler, Keyboard.put,
        Keyboard.count] using hput

/-- **A careful reader** returns the first line that was not read. -/
theorem InOrder.read (h : s.InOrder unread keys) {before after : List Reader} {reader : Reader}
    (here : s.woken = before ++ reader :: after) (fits : s.Fits reader.len) :
    ∃ unread', InOrder { (s.read reader.len) with woken := before ++ after } unread' keys := by
  obtain ⟨line, unread, rfl⟩ : ∃ line rest, unread = line :: rest := by
    cases hunread : unread with
    | nil =>
        have hcount := h.readers
        rw [hunread, here, List.length_append, List.length_cons, List.length_nil] at hcount
        omega
    | cons line rest => exact ⟨line, rest, rfl⟩
  obtain ⟨w, rfl, hw⟩ := h.whole _ List.mem_cons_self
  have hring : s.kb.queue.contents = w ++ 10 :: (unread.flatten ++ keys) := by
    rw [h.contents]
    simp
  have hfits : ∀ keys, keys <+: w ++ [10] →
      ((edit isBackspace [] keys).length : Int) < reader.len := by
    intro keys hkeys
    refine fits keys ?_ ?_
    · rw [hring, List.append_cons]
      exact hkeys.trans (List.prefix_append _ _)
    · intro hmem
      have hinside : keys.dropLast <+: w := by
        rcases List.prefix_concat_iff.mp hkeys with rfl | hinside
        · exact ⟨[], by rw [List.dropLast_concat, List.append_nil]⟩
        · exact (List.dropLast_prefix keys).trans hinside
      exact hw (hinside.subset hmem)
  have hpos : ¬reader.len < 0 := by
    have := hfits [] List.nil_prefix
    rw [edit_nil, List.length_nil] at this
    omega
  have hsize := s.kb.queue.size_lt
  rw [← KeyQueue.length_contents] at hsize
  obtain ⟨hbuf, hrest⟩ := Keyboard.readLoop_eq reader.len bufLen [] s.kb.queue hsize
  have hff : ∀ c ∈ w, c ≠ 0xff := by
    intro c hc
    refine h.chars c ?_
    rw [hring]
    exact List.mem_append_left _ hc
  rw [hring, readChars_line hw hff hfits] at hbuf hrest
  have hline : (s.kb.sysReadline reader.len).2 = edit isBackspace [] (w ++ [10]) := by
    rw [Keyboard.sysReadline, if_neg hpos]
    exact hbuf
  have hafter : (s.kb.sysReadline reader.len).1.queue.contents = unread.flatten ++ keys := by
    rw [Keyboard.sysReadline, if_neg hpos]
    exact hrest
  refine ⟨unread, hafter, fun line hline => h.whole line (List.mem_cons_of_mem _ hline),
    h.open_line, ?_, h.current, ?_, ?_⟩
  · show s.lines = s.returned ++ [_] ++ _
    rw [h.lines, hline, List.map_cons, List.append_cons]
  · have hcount := h.readers
    rw [here, List.length_append, List.length_cons, List.length_cons] at hcount
    show unread.length = (before ++ after).length
    rw [List.length_append]
    omega
  · intro c hc
    refine h.chars c ?_
    have hc : c ∈ (s.kb.sysReadline reader.len).1.queue.contents := hc
    rw [hafter] at hc
    rw [hring]
    exact List.mem_append_right _ (List.mem_cons_of_mem _ hc)

/-- **Careful events** keep the lines in order. -/
theorem InOrder.step (h : s.InOrder unread keys) {e : LineEvent} (step : Step s e t)
    (careful : s.Careful e) : ∃ unread' keys', t.InOrder unread' keys' := by
  cases step with
  | key key => exact h.key key careful
  | call => exact ⟨unread, keys, h.contents, h.whole, h.open_line, h.lines, h.current, h.readers,
      h.chars⟩
  | block => exact ⟨unread, keys, h.contents, h.whole, h.open_line, h.lines, h.current, h.readers,
      h.chars⟩
  | read before after reader here =>
      obtain ⟨unread', hread⟩ := h.read here careful
      exact ⟨unread', keys, hread⟩

/-! ## Histories -/

/-- **Every typed line is delivered exactly once, in order**, in every history of careful events. -/
theorem delivered_of_careful {es : List LineEvent} {s : TypedLines}
    (run : Run (Guarded Step Careful) boot es s) : Run (Into Step Delivered) boot es s := by
  refine run.mono_of_invariant (I := fun s => ∃ unread keys, s.InOrder unread keys)
    ⟨[], [], inOrder_boot⟩ ?_ ?_
  · rintro s e t ⟨unread, keys, h⟩ ⟨step, careful⟩
    exact h.step step careful
  · rintro s e t ⟨unread, keys, h⟩ ⟨step, careful⟩
    obtain ⟨_, _, hafter⟩ := h.step step careful
    exact ⟨step, hafter.delivered⟩

/-- The letter `a`. -/
def keyA : Key := ⟨97, by decide⟩

/-- The newline. -/
def keyNewline : Key := ⟨10, by decide⟩

/-- A line that is typed for a reader is returned to it. -/
theorem delivered_of_careful_one_line : ∃ s,
    Run (Into Step Delivered) boot
      [.call 1 80, .block ⟨1, 80⟩, .key keyA, .key keyNewline, .read ⟨1, 80⟩] s ∧
      s.returned = [[97, 10]] := by
  have hcall : Guarded Step Careful boot (.call 1 80) _ :=
    ⟨.call 1 80 (fun r hr => by cases hr) (by decide), trivial⟩
  have hblock := (Run.nil.snoc hcall).snoc ⟨.block [] [] ⟨1, 80⟩ rfl, trivial⟩
  have hkeys := (hblock.snoc ⟨.key keyA, by decide +kernel, by decide, by decide⟩).snoc
    ⟨.key keyNewline, by decide +kernel, by decide, by decide⟩
  have hread := hkeys.snoc ⟨.read [] [] ⟨1, 80⟩ rfl, fits_of_size_lt (by decide +kernel)⟩
  exact ⟨_, delivered_of_careful hread, by decide +kernel⟩

/-- **A line typed before any thread reads** loses its newline, and comes out as the beginning of
the next line. -/
theorem early_line_runs_on : ∃ s,
    Run Step boot
      [.key keyA, .key keyNewline, .call 1 80, .block ⟨1, 80⟩, .key keyA, .key keyNewline,
        .read ⟨1, 80⟩] s ∧
      s.lines = [[97, 10], [97, 10]] ∧ s.returned = [[97, 97, 10]] ∧ ¬s.Delivered := by
  have htyped : Run Step boot [.key keyA, .key keyNewline] _ :=
    (Run.nil.snoc (.key keyA)).snoc (.key keyNewline)
  have hcalled := (htyped.snoc (.call 1 80 (fun r hr => by cases hr) (by decide))).snoc
    (.block [] [] ⟨1, 80⟩ rfl)
  have hread := ((hcalled.snoc (.key keyA)).snoc (.key keyNewline)).snoc (.read [] [] ⟨1, 80⟩ rfl)
  refine ⟨_, hread, by decide +kernel, by decide +kernel, ?_⟩
  unfold Delivered
  decide +kernel

end TypedLines

end Pebbles
