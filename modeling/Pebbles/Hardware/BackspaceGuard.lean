import Pebbles.Hardware.Keyboard
import Pebbles.Library.Runs
import Mathlib.Data.List.Nodup
import Mathlib.Tactic.Common

/-! # The backspace guard

`total_num` is there so that a backspace erases nothing but typed characters. It is compared here
with what it is meant to count: the characters that were echoed, have not been read and were not
erased by a later backspace. Each character carries the time at which it was typed. -/

namespace Pebbles

open LineEditing Transition

/-- A character with the time at which it was typed. -/
abbrev Typed : Type := UInt8 × Nat

/-- A backspace erases. -/
def Typed.erases (e : Typed) : Bool := isBackspace e.1

/-- The keyboard, with the characters on the screen. -/
structure Typing where
  /-- The driver. -/
  kb : Keyboard
  /-- The time. -/
  clock : Nat
  /-- The characters in the ring. -/
  queued : List Typed
  /-- The characters that were echoed, not read and not erased. -/
  live : List Typed
  /-- The number of backspaces that were echoed when no such character was there. -/
  stray : Nat

/-- What happens to the keyboard. -/
inductive TypingEvent where
  /-- A key goes down; a thread waits in `readline`, or none does. -/
  | key (key : Key) (waiting : Bool)
  /-- A call of `readline` goes through its loop. -/
  | readline (len : Int)

namespace Typing

/-- After the boot. -/
def boot : Typing := ⟨Keyboard.boot, 0, [], [], 0⟩

/-- The number of characters that a reader takes: a line of the waiting characters. -/
def takes (s : Typing) (len : Int) : Nat :=
  if len < 0 then 0 else Keyboard.lineLength len [] (s.queued.map Prod.fst)

/-- The characters that a reader takes. -/
def taken (s : Typing) (len : Int) : List Typed := s.queued.take (s.takes len)

/-- The characters that a reader leaves. -/
def left (s : Typing) (len : Int) : List Typed := s.queued.drop (s.takes len)

/-- A character is echoed. -/
def echo (s : Typing) (ch : UInt8) : Typing :=
  { s with
    live := press Typed.erases s.live (ch, s.clock)
    stray := if ch = 8 ∧ s.live = [] then s.stray + 1 else s.stray }

/-- A character is put into the ring. -/
def enqueue (s : Typing) (ch : UInt8) : Typing :=
  { s with queued := (if s.queued.length = 511 then s.queued.tail else s.queued) ++ [(ch, s.clock)] }

/-- A key. A newline for which no thread waits is echoed, but not put into the ring. -/
def key (s : Typing) (ch : UInt8) (waiting : Bool) : Typing :=
  let r := s.kb.keyboardHandler ch waiting
  let s1 := if r.2 = none then s else s.echo ch
  let s2 := if r.2 = none ∨ (ch = 10 ∧ waiting = false) then s1 else s1.enqueue ch
  { s2 with kb := r.1, clock := s.clock + 1 }

/-- A reader. -/
def readline (s : Typing) (len : Int) : Typing :=
  { s with
    kb := (s.kb.sysReadline len).1
    queued := s.left len
    live := s.live.filter fun e => e ∉ s.taken len }

/-- One event. -/
def next (s : Typing) : TypingEvent → Typing
  | .key key waiting => s.key key.1 waiting
  | .readline len => s.readline len

/-- The events as steps. -/
def Step (s : Typing) (e : TypingEvent) (s' : Typing) : Prop := s.next e = s'

/-! ## The property and the condition -/

/-- **The guard counts what can be erased.** -/
structure Guards (s : Typing) : Prop where
  /-- It is not negative. -/
  nonneg : 0 ≤ s.kb.totalNum
  /-- It is the number of characters that can be erased. -/
  counts : s.kb.totalNum = s.live.length
  /-- No backspace was echoed without such a character. -/
  erases : s.stray = 0

/-- **Careful events**: a newline meets a waiting thread, the counter does not overflow, and a
reader leaves no backspace behind that was typed for a character it takes: of the characters that it
takes nothing is left after editing, or no backspace among the others is in excess. -/
def Careful (s : Typing) : TypingEvent → Prop
  | .key key waiting =>
      (key.1 = 10 → waiting = true) ∧ (key.1 ≠ 8 → s.kb.totalNum < 2 ^ 31 - 1)
  | .readline len =>
      edit Typed.erases [] (s.taken len) = [] ∨ excess Typed.erases (s.left len) = 0

/-! ## The invariant -/

/-- **What holds as long as the guard counts right**: the characters on the screen are those of the
ring, edited, after what is left of characters that the ring has lost. -/
structure Tracked (s : Typing) : Prop where
  /-- The counter. -/
  counts : s.kb.totalNum = s.live.length
  /-- It has not overflowed. -/
  fits : s.live.length < 2 ^ 31
  /-- No stray backspace. -/
  erases : s.stray = 0
  /-- The ring. -/
  contents : s.kb.queue.contents = s.queued.map Prod.fst
  /-- What can be erased. -/
  live : ∃ lost, s.live = edit Typed.erases lost s.queued ∧ (lost ++ s.queued).Nodup ∧
    ∀ e ∈ lost ++ s.queued, e.2 < s.clock
  /-- No character is taken for the end. -/
  chars : ∀ e ∈ s.queued, e.1 ≠ 0xff

variable {s : Typing}

theorem Tracked.guards (h : s.Tracked) : s.Guards where
  nonneg := by
    rw [h.counts]
    omega
  counts := h.counts
  erases := h.erases

theorem tracked_boot : boot.Tracked where
  counts := rfl
  fits := by decide
  erases := rfl
  contents := rfl
  live := ⟨[], rfl, List.nodup_nil, fun e he => by cases he⟩
  chars e he := by cases he

/-! ## Keys -/

/-- A key that does nothing but take time. -/
theorem Tracked.tick (h : s.Tracked) : Tracked { s with clock := s.clock + 1 } where
  counts := h.counts
  fits := h.fits
  erases := h.erases
  contents := h.contents
  live := by
    obtain ⟨lost, hlive, hnodup, hclock⟩ := h.live
    exact ⟨lost, hlive, hnodup, fun e he => Nat.lt_succ_of_lt (hclock e he)⟩
  chars := h.chars

/-- What the ring holds when it has room for one more character. -/
theorem Tracked.room (h : s.Tracked) : ∃ lost,
    s.live = edit Typed.erases lost (if s.queued.length = 511 then s.queued.tail else s.queued) ∧
      (lost ++ if s.queued.length = 511 then s.queued.tail else s.queued).Nodup ∧
      ∀ e ∈ lost ++ if s.queued.length = 511 then s.queued.tail else s.queued, e.2 < s.clock := by
  obtain ⟨lost, hlive, hnodup, hclock⟩ := h.live
  by_cases hfull : s.queued.length = 511
  · -- the oldest character is lost, with its effect
    rw [if_pos hfull]
    obtain ⟨first, rest, hqueued⟩ : ∃ first rest, s.queued = first :: rest := by
      cases hq : s.queued with
      | nil =>
          rw [hq] at hfull
          cases hfull
      | cons first rest => exact ⟨first, rest, rfl⟩
    rw [hqueued] at hlive hnodup hclock ⊢
    have hsub : (press Typed.erases lost first ++ rest).Sublist (lost ++ first :: rest) := by
      simpa using (press_sublist Typed.erases lost first).append (List.Sublist.refl rest)
    exact ⟨press Typed.erases lost first, hlive, hnodup.sublist hsub,
      fun e he => hclock e (hsub.subset he)⟩
  · rw [if_neg hfull]
    exact ⟨lost, hlive, hnodup, hclock⟩

/-- **An accepted key** is put into the ring and onto the screen, or erases there. -/
theorem Tracked.accept (h : s.Tracked) (key : Key) {total : Int}
    (htotal : total = (press Typed.erases s.live (key.1, s.clock)).length)
    (hfits : (press Typed.erases s.live (key.1, s.clock)).length < 2 ^ 31) :
    Tracked { (s.enqueue key.1) with
      kb := ⟨s.kb.queue.enqueue key.1, total⟩
      clock := s.clock + 1
      live := press Typed.erases s.live (key.1, s.clock) } where
  counts := htotal
  fits := hfits
  erases := h.erases
  contents := by
    have hsize : s.kb.queue.size = s.queued.length := by
      rw [← KeyQueue.length_contents, h.contents, List.length_map]
    show (s.kb.queue.enqueue key.1).contents = _
    rw [KeyQueue.contents_enqueue, h.contents, hsize]
    simp only [enqueue, List.map_append, List.map_singleton]
    split_ifs
    · rw [List.map_tail]
    · rfl
  live := by
    obtain ⟨lost, hlive, hnodup, hclock⟩ := h.room
    refine ⟨lost, ?_, ?_, ?_⟩
    · show press Typed.erases s.live _ = edit Typed.erases lost (_ ++ [_])
      rw [edit_concat, ← hlive]
    · show (lost ++ (_ ++ [_])).Nodup
      rw [← List.append_assoc]
      refine List.nodup_append.mpr ⟨hnodup, List.nodup_singleton _, ?_⟩
      rintro e he e' he' rfl
      obtain rfl := List.mem_singleton.mp he'
      exact absurd (hclock _ he) (Nat.lt_irrefl _)
    · intro e he
      have he : e ∈ lost ++ (_ ++ [(key.1, s.clock)]) := he
      rw [← List.append_assoc, List.mem_append, List.mem_singleton] at he
      rcases he with hold | rfl
      · exact Nat.lt_succ_of_lt (hclock e hold)
      · exact Nat.lt_succ_self _
  chars := by
    intro e he
    have he : e ∈ (if s.queued.length = 511 then s.queued.tail else s.queued) ++ [_] := he
    rcases List.mem_append.mp he with hold | hnew
    · split_ifs at hold
      · exact h.chars e (List.mem_of_mem_tail hold)
      · exact h.chars e hold
    · obtain rfl := List.mem_singleton.mp hnew
      exact key.2

theorem Tracked.bounds (h : s.Tracked) : 0 ≤ s.kb.totalNum ∧ s.kb.totalNum < 2 ^ 31 := by
  have hfits := h.fits
  rw [h.counts]
  omega

/-- Nothing happens to the counter but the change, when the result fits. -/
theorem bmod_of_fits {x : Int} (low : -2 ^ 31 ≤ x) (high : x < 2 ^ 31) : x.bmod (2 ^ 32) = x := by
  rw [Int.bmod_def]
  omega

/-- **A character** that is not a backspace, accepted below the greatest `int`. -/
theorem Tracked.char (h : s.Tracked) (key : Key) (hback : key.1 ≠ 8)
    (hfits : s.kb.totalNum < 2 ^ 31 - 1) :
    Tracked { ((s.echo key.1).enqueue key.1) with
      kb := (s.kb.count 1).put key.1, clock := s.clock + 1 } := by
  have hbounds := h.bounds
  have hnot : Typed.erases (key.1, s.clock) = false := by simpa [Typed.erases, isBackspace] using hback
  have hlen : ((press Typed.erases s.live (key.1, s.clock)).length : Int) = s.kb.totalNum + 1 := by
    rw [press_of_not_erases hnot, List.length_append, List.length_singleton, h.counts]
    rfl
  have htotal : (s.kb.totalNum + 1).bmod (2 ^ 32) =
      (press Typed.erases s.live (key.1, s.clock)).length := by
    rw [hlen]
    exact bmod_of_fits (by omega) (by omega)
  have hecho : s.echo key.1 = { s with live := press Typed.erases s.live (key.1, s.clock) } := by
    simp [echo, hback]
  rw [hecho]
  exact h.accept key htotal (by omega)

/-- **A backspace**, accepted when there is something to erase. -/
theorem Tracked.backspace (h : s.Tracked) (key : Key) (hback : key.1 = 8)
    (hpos : s.kb.totalNum ≠ 0) :
    Tracked { ((s.echo key.1).enqueue key.1) with
      kb := ((s.kb.count (-2)).count 1).put key.1, clock := s.clock + 1 } := by
  have hbounds := h.bounds
  have hlive : s.live ≠ [] := by
    intro hnil
    apply hpos
    rw [h.counts, hnil]
    rfl
  have herases : Typed.erases (key.1, s.clock) = true := by simpa [Typed.erases, isBackspace] using hback
  have hlen : ((press Typed.erases s.live (key.1, s.clock)).length : Int) = s.kb.totalNum - 1 := by
    have := List.length_pos_iff.mpr hlive
    rw [press_of_erases herases, List.length_dropLast, h.counts]
    omega
  have htotal : ((s.kb.totalNum + -2).bmod (2 ^ 32) + 1).bmod (2 ^ 32) =
      (press Typed.erases s.live (key.1, s.clock)).length := by
    rw [hlen, bmod_of_fits (x := s.kb.totalNum + -2) (by omega) (by omega)]
    rw [bmod_of_fits (by omega) (by omega)]
    omega
  have hecho : s.echo key.1 = { s with live := press Typed.erases s.live (key.1, s.clock) } := by
    simp [echo, hlive]
  rw [hecho]
  exact h.accept key htotal (by omega)

/-- **Careful keys** keep the invariant. -/
theorem Tracked.key (h : s.Tracked) (key : Key) (waiting : Bool)
    (careful : s.Careful (.key key waiting)) : (s.key key.1 waiting).Tracked := by
  obtain ⟨hwaiting, hfits⟩ := careful
  by_cases hnl : key.1 = 10
  · have hback : key.1 ≠ 8 := by
      rw [hnl]
      decide
    have haccepted := h.char key hback (hfits hback)
    simpa [Typing.key, Keyboard.keyboardHandler, hnl, hwaiting hnl] using haccepted
  · by_cases hback : key.1 = 8
    · by_cases hzero : s.kb.totalNum = 0
      · simpa [Typing.key, Keyboard.keyboardHandler, hback, hzero] using h.tick
      · have haccepted := h.backspace key hback hzero
        simpa [Typing.key, Keyboard.keyboardHandler, hback, hzero] using haccepted
    · have haccepted := h.char key hback (hfits hback)
      simpa [Typing.key, Keyboard.keyboardHandler, hnl, hback] using haccepted

/-- A counted character is counted, or overflows. -/
theorem key_totalNum (s : Typing) (key : Key) {waiting : Bool} (hback : key.1 ≠ 8)
    (hwaiting : key.1 = 10 → waiting = true) :
    (s.key key.1 waiting).kb.totalNum = (s.kb.totalNum + 1).bmod (2 ^ 32) := by
  by_cases hnl : key.1 = 10
  · simp [Typing.key, Keyboard.keyboardHandler, hnl, hwaiting hnl, Keyboard.put, Keyboard.count]
  · simp [Typing.key, Keyboard.keyboardHandler, hnl, hback, Keyboard.put, Keyboard.count]

/-- **Keys that keep the guard right are careful.** -/
theorem Tracked.careful_of_key (h : s.Tracked) (key : Key) (waiting : Bool)
    (guards : (s.key key.1 waiting).Guards) : s.Careful (.key key waiting) := by
  have hbounds := h.bounds
  have hwaiting : key.1 = 10 → waiting = true := by
    intro hnl
    by_contra hnone
    rw [Bool.not_eq_true] at hnone
    -- the newline is on the screen, and is not counted
    have hcounts := guards.counts
    have hold := h.counts
    simp [Typing.key, Keyboard.keyboardHandler, hnl, hnone, echo, press, Typed.erases,
      isBackspace] at hcounts
    omega
  refine ⟨hwaiting, fun hback => ?_⟩
  by_contra hlarge
  have htotal : s.kb.totalNum = 2 ^ 31 - 1 := by omega
  have hnonneg := guards.nonneg
  rw [key_totalNum s key hback hwaiting, htotal] at hnonneg
  exact absurd hnonneg (by decide)

/-! ## Readers -/

/-- What a reader takes and leaves. -/
theorem taken_append_left (s : Typing) (len : Int) : s.taken len ++ s.left len = s.queued :=
  List.take_append_drop ..

/-- The length of edited characters does not depend on when they were typed. -/
theorem length_edit_typed (es : List Typed) :
    (edit Typed.erases [] es).length = (edit isBackspace [] (es.map Prod.fst)).length := by
  have hmap : (edit Typed.erases [] es).map Prod.fst = edit isBackspace [] (es.map Prod.fst) :=
    map_edit fun _ => rfl
  rw [← List.length_map (f := Prod.fst), hmap]

/-- **A reader** leaves the characters that it does not take, and counts off the length of what it
takes, edited. -/
theorem Tracked.sysReadline (h : s.Tracked) (len : Int) :
    (s.kb.sysReadline len).1.queue.contents = (s.left len).map Prod.fst ∧
      (s.kb.sysReadline len).1.totalNum =
        s.kb.totalNum - (edit Typed.erases [] (s.taken len)).length := by
  have hbounds := h.bounds
  by_cases hneg : len < 0
  · -- nothing is read
    have hsame : s.kb.sysReadline len = (s.kb, []) := if_pos hneg
    have hnone : s.takes len = 0 := if_pos hneg
    simp [taken, left, hsame, hnone, h.contents]
  · have hsize := s.kb.queue.size_lt
    rw [← KeyQueue.length_contents] at hsize
    obtain ⟨hbuf, hrest⟩ := Keyboard.readLoop_eq len bufLen [] s.kb.queue hsize
    have hchars : ∀ c ∈ s.kb.queue.contents, c ≠ 0xff := by
      rw [h.contents]
      intro c hc
      obtain ⟨e, he, rfl⟩ := List.mem_map.mp hc
      exact h.chars e he
    obtain ⟨hleft, hlen⟩ := Keyboard.readChars_spec len [] _ hchars
    have hread : s.kb.sysReadline len =
        (({ s.kb with queue := (Keyboard.readLoop len bufLen [] s.kb.queue).2 }).count
          (-(Keyboard.readLoop len bufLen [] s.kb.queue).1.length),
          (Keyboard.readLoop len bufLen [] s.kb.queue).1) := if_neg hneg
    have htakes : s.takes len = Keyboard.lineLength len [] s.kb.queue.contents := by
      rw [takes, if_neg hneg, h.contents]
    rw [← htakes, h.contents] at hleft hlen
    rw [h.contents] at hbuf hrest hsize
    constructor
    · rw [hread, left, List.map_drop, ← hleft, ← hrest]
      rfl
    · rw [length_edit_typed, taken, List.map_take, ← hlen, ← hbuf, hread]
      have hshort : (Keyboard.readLoop len bufLen [] s.kb.queue).1.length < bufLen := by
        have hedit : (edit isBackspace [] ((s.queued.map Prod.fst).take (s.takes len))).length
            ≤ ([] : List UInt8).length + ((s.queued.map Prod.fst).take (s.takes len)).length :=
          length_edit_le
        rw [List.length_nil, List.length_take] at hedit
        rw [hbuf, hlen]
        omega
      have hbufLen : bufLen = 512 := rfl
      show (s.kb.totalNum + -((Keyboard.readLoop len bufLen [] s.kb.queue).1.length : Int)).bmod
        (2 ^ 32) = _
      rw [bmod_of_fits (by omega) (by omega)]
      rfl

/-- **What is live after a reader**: of the edited characters, those that the reader takes are gone,
as far as no backspace among the others has erased them before. -/
theorem filter_edit {lost took others : List Typed} (hnodup : (lost ++ (took ++ others)).Nodup) :
    ∃ (before : List Typed) (n : Nat), before.Sublist lost ∧
      n = before.length + (edit Typed.erases [] took).length - excess Typed.erases others ∧
      (edit Typed.erases lost (took ++ others)).length =
        n + (edit Typed.erases [] others).length ∧
      (edit Typed.erases lost (took ++ others)).filter (fun e => e ∉ took) =
        before.take n ++ edit Typed.erases [] others := by
  obtain ⟨-, hrest, hlost⟩ := List.nodup_append.mp hnodup
  obtain ⟨-, -, hdisjoint⟩ := List.nodup_append.mp hrest
  set line := edit Typed.erases [] took with hline
  let before := lost.take (lost.length - excess Typed.erases took)
  have hbefore : before.Sublist lost := List.take_sublist ..
  let n := before.length + line.length - excess Typed.erases others
  have hedit : edit Typed.erases lost (took ++ others) =
      (before ++ line).take n ++ edit Typed.erases [] others := by
    rw [edit_append, edit_eq_take_append _ lost took, edit_eq_take_append, List.length_append]
  refine ⟨before, n, hbefore, rfl, ?_, ?_⟩
  · rw [hedit, List.length_append, List.length_take, List.length_append]
    omega
  · rw [hedit, List.filter_append, List.take_append, List.filter_append]
    -- the characters from before and the others are not taken, those of the line are
    have hfirst : (before.take n).filter (fun e => e ∉ took) = before.take n := by
      refine List.filter_eq_self.mpr fun e he => decide_eq_true fun htook => ?_
      have hmem := hbefore.subset (List.mem_of_mem_take he)
      exact hlost e hmem e (List.mem_append_left _ htook) rfl
    have hmiddle : (line.take (n - before.length)).filter (fun e => e ∉ took) = [] := by
      refine List.filter_eq_nil_iff.mpr fun e he => ?_
      have hmem : e ∈ took := (mem_edit (List.mem_of_mem_take he)).resolve_left List.not_mem_nil
      simpa using hmem
    have hlast : (edit Typed.erases [] others).filter (fun e => e ∉ took) =
        edit Typed.erases [] others := by
      refine List.filter_eq_self.mpr fun e he => decide_eq_true fun htook => ?_
      have hmem := (mem_edit he).resolve_left List.not_mem_nil
      exact hdisjoint e htook e hmem rfl
    rw [hfirst, hmiddle, hlast, List.append_nil]

/-- What a reader does to the number of live characters, and to the counter. -/
theorem Tracked.readline_lengths (h : s.Tracked) (len : Int) :
    ∃ before rest : Nat,
      s.kb.totalNum = (before + (edit Typed.erases [] (s.taken len)).length -
        excess Typed.erases (s.left len) : Nat) + rest ∧
      ((s.readline len).live.length : Int) =
        (min (before + (edit Typed.erases [] (s.taken len)).length -
          excess Typed.erases (s.left len)) before : Nat) + rest ∧
      (s.readline len).kb.totalNum =
        s.kb.totalNum - (edit Typed.erases [] (s.taken len)).length := by
  obtain ⟨-, htotal⟩ := h.sysReadline len
  obtain ⟨lost, hlive, hnodup, -⟩ := h.live
  rw [← s.taken_append_left len] at hlive hnodup
  obtain ⟨before, n, -, hn, hlen, hfilter⟩ := filter_edit hnodup
  have hafter : (s.readline len).live = before.take n ++ edit Typed.erases [] (s.left len) := by
    show s.live.filter _ = _
    rw [hlive, hfilter]
  refine ⟨before.length, (edit Typed.erases [] (s.left len)).length, ?_, ?_, htotal⟩
  · rw [h.counts, hlive, hlen, hn]
    rfl
  · rw [hafter, List.length_append, List.length_take, hn]
    rfl

/-- **Careful readers** keep the invariant. -/
theorem Tracked.readline (h : s.Tracked) (len : Int) (careful : s.Careful (.readline len)) :
    (s.readline len).Tracked := by
  obtain ⟨hcontents, -⟩ := h.sysReadline len
  obtain ⟨before', rest', htotal, hlength, hcounter⟩ := h.readline_lengths len
  have hbounds := h.bounds
  have hcounts : (s.readline len).kb.totalNum = (s.readline len).live.length := by
    rcases careful with hempty | hexcess
    · rw [hempty, List.length_nil] at htotal hlength hcounter
      omega
    · rw [hexcess] at htotal hlength
      omega
  refine ⟨hcounts, ?_, h.erases, hcontents, ?_, ?_⟩
  · omega
  · obtain ⟨lost, hlive, hnodup, hclock⟩ := h.live
    rw [← s.taken_append_left len] at hlive hnodup hclock
    obtain ⟨before, n, hbefore, hn, -, hfilter⟩ := filter_edit hnodup
    have hsub : (before ++ s.left len).Sublist (lost ++ (s.taken len ++ s.left len)) :=
      hbefore.append (List.sublist_append_right ..)
    refine ⟨before, ?_, hnodup.sublist hsub, fun e he => hclock e (hsub.subset he)⟩
    -- nothing before was erased by a backspace that is left
    show s.live.filter _ = edit Typed.erases before (s.left len)
    rw [hlive, hfilter, edit_eq_take_append _ before]
    congr 1
    rcases careful with hempty | hexcess
    · rw [hn, hempty, List.length_nil, Nat.add_zero]
    · rw [hn, hexcess, List.take_of_length_le (by omega), List.take_of_length_le (by omega)]
  · intro e he
    exact h.chars e (List.mem_of_mem_drop he)

/-- **Readers that keep the guard right are careful.** -/
theorem Tracked.careful_of_readline (h : s.Tracked) (len : Int)
    (guards : (s.readline len).Guards) : s.Careful (.readline len) := by
  obtain ⟨before, rest, htotal, hlength, hcounter⟩ := h.readline_lengths len
  have hcounts := guards.counts
  show edit Typed.erases [] (s.taken len) = [] ∨ excess Typed.erases (s.left len) = 0
  rw [← List.length_eq_zero_iff]
  omega

/-! ## Histories -/

/-- **The guard counts what can be erased exactly when all events are careful**, in every history of
keys and readers. -/
theorem guards_iff_careful (es : List TypingEvent) (s : Typing) :
    Run (Into Step Guards) boot es s ↔ Run (Guarded Step Careful) boot es s := by
  refine Run.into_iff_guarded_of_keep tracked_boot (fun _ h => h.guards) ?_ ?_
  · rintro s (⟨key, waiting⟩ | len) t h rfl careful
    · exact h.key key waiting careful
    · exact h.readline len careful
  · rintro s (⟨key, waiting⟩ | len) t h rfl guards
    · exact h.careful_of_key key waiting guards
    · exact h.careful_of_readline len guards

/-- A reader takes a line, and a backspace typed after the newline has erased the newline: the
counter falls to -1. -/
theorem guard_falls_below_zero : ∃ s,
    Run Step boot [.key ⟨97, by decide⟩ false, .key ⟨10, by decide⟩ true, .key ⟨8, by decide⟩ false,
      .readline 4096] s ∧ s.kb.totalNum = -1 ∧ ¬s.Guards := by
  refine ⟨_, ((((Run.nil).snoc rfl).snoc rfl).snoc rfl).snoc rfl, by decide +kernel, fun h => ?_⟩
  exact absurd h.nonneg (by decide +kernel)

end Typing

end Pebbles
