import Pebbles.Library.StackWords
import Pebbles.Exception.KernelEntry

/-! # The processor and its stack

The instructions of `do_switch`, `enter_user_mode` and the wrappers and stubs of the system calls.
Here the stack is in memory, as a thread that gives up the processor leaves everything it has on its
stack. A list of instructions is run one after the other; `ret` sets `%eip`, and the list ends. -/

namespace Pebbles.Processor

open ByteStores
open Exception (loadable)
open Memory (UserRegisters)

/-! ## Registers -/

/-- The general registers, `%esp` apart. -/
inductive General where
  | eax | ecx | edx | ebx | ebp | esi | edi
  deriving DecidableEq

/-- The data segment registers. -/
inductive Segment where
  | ds | es | fs | gs
  deriving DecidableEq

/-- The processor, with the memory it sees. -/
structure Cpu where
  /-- The general registers. -/
  general : General → UInt32
  /-- The segment registers. -/
  segment : Segment → UInt32
  /-- The stack pointer. -/
  esp : UInt32
  /-- The instruction pointer. -/
  eip : UInt32
  /-- The zero flag. -/
  zero : Bool
  /-- Memory. -/
  memory : Image

namespace Cpu

/-- A register is set. -/
def set (c : Cpu) (r : General) (w : UInt32) : Cpu :=
  { c with general := fun s => if s = r then w else c.general s }

/-- A segment register is loaded. A bad selector is a fault. -/
def loadSegment (c : Cpu) (s : Segment) (w : UInt32) : Option Cpu :=
  if loadable w then
    some { c with segment := fun t => if t = s then w &&& 0xffff else c.segment t }
  else none

/-- A word is pushed. -/
def push (c : Cpu) (w : UInt32) : Cpu :=
  { c with esp := c.esp - 4, memory := storeWord c.memory (c.esp - 4) w }

/-- A word of the stack. -/
def word (c : Cpu) (n : UInt32) : UInt32 := load c.memory (c.esp + 4 * n)

/-- Words are taken off the stack. -/
def drop (c : Cpu) (n : UInt32) : Cpu := { c with esp := c.esp + 4 * n }

end Cpu

/-! ## Instructions -/

/-- An instruction. -/
inductive Insn where
  /-- `pushl %r`. -/
  | pushl (r : General)
  /-- `pushl %s`. -/
  | pushSegment (s : Segment)
  /-- `pushl k(%esi)`. -/
  | pushArgument (k : UInt32)
  /-- `pusha`. -/
  | pusha
  /-- `popl %r`. -/
  | popl (r : General)
  /-- `popl %s`. -/
  | popSegment (s : Segment)
  /-- `popa`. -/
  | popa
  /-- `movl $w, %r`. -/
  | movImm (w : UInt32) (r : General)
  /-- `movl %q, %r`. -/
  | movl (q r : General)
  /-- `movl %r, %s`. -/
  | movSegment (r : General) (s : Segment)
  /-- `movl %esp, %r`. -/
  | movEsp (r : General)
  /-- `movl k(%ebp), %r`. -/
  | loadFrame (k : UInt32) (r : General)
  /-- `leal k(%ebp), %r`. -/
  | leaFrame (k : UInt32) (r : General)
  /-- `add $w, %r`. -/
  | addImm (w : UInt32) (r : General)
  /-- `sub $w, %r`. -/
  | subImm (w : UInt32) (r : General)
  /-- `movl %esp, (%r)`. -/
  | saveEsp (r : General)
  /-- `movl (%r), %esp`. -/
  | loadEsp (r : General)
  /-- `movl k(%ebp), %esp`. -/
  | loadFrameEsp (k : UInt32)
  /-- `movl %r, %esp`. -/
  | setEsp (r : General)
  /-- `cmp $w, %r`. -/
  | cmpImm (w : UInt32) (r : General)
  /-- `ret`. -/
  | ret
  deriving DecidableEq

namespace Cpu

/-- One instruction. -/
def exec (c : Cpu) : Insn → Option Cpu
  | .pushl r => some (c.push (c.general r))
  | .pushSegment s => some (c.push (c.segment s))
  | .pushArgument k => some (c.push (load c.memory (c.general .esi + k)))
  | .pusha =>
      some ((((((((c.push (c.general .eax)).push (c.general .ecx)).push (c.general .edx)).push
        (c.general .ebx)).push c.esp).push (c.general .ebp)).push (c.general .esi)).push
        (c.general .edi))
  | .popl r => some ((c.drop 1).set r (c.word 0))
  | .popSegment s => (c.drop 1).loadSegment s (c.word 0)
  | .popa =>
      some { c.drop 8 with general := fun
        | .edi => c.word 0
        | .esi => c.word 1
        | .ebp => c.word 2
        | .ebx => c.word 4
        | .edx => c.word 5
        | .ecx => c.word 6
        | .eax => c.word 7 }
  | .movImm w r => some (c.set r w)
  | .movl q r => some (c.set r (c.general q))
  | .movSegment r s => c.loadSegment s (c.general r)
  | .movEsp r => some (c.set r c.esp)
  | .loadFrame k r => some (c.set r (load c.memory (c.general .ebp + k)))
  | .leaFrame k r => some (c.set r (c.general .ebp + k))
  | .addImm w r => some { c.set r (c.general r + w) with zero := c.general r + w == 0 }
  | .subImm w r => some { c.set r (c.general r - w) with zero := c.general r - w == 0 }
  | .saveEsp r => some { c with memory := storeWord c.memory (c.general r) c.esp }
  | .loadEsp r => some { c with esp := load c.memory (c.general r) }
  | .loadFrameEsp k => some { c with esp := load c.memory (c.general .ebp + k) }
  | .setEsp r => some { c with esp := c.general r }
  | .cmpImm w r => some { c with zero := c.general r == w }
  | .ret => some { c.drop 1 with eip := c.word 0 }

/-- Instructions in a row. -/
def run (c : Cpu) : List Insn → Option Cpu
  | [] => some c
  | i :: is => (c.exec i).bind fun c => c.run is

/-- Instructions in a row, in two parts. -/
theorem run_append (c : Cpu) (is js : List Insn) :
    c.run (is ++ js) = (c.run is).bind fun c => c.run js := by
  induction is generalizing c with
  | nil => rfl
  | cons i is ih => simp only [List.cons_append, run, ih, Option.bind_assoc]

/-- What a segment register can hold. -/
def Sane (c : Cpu) : Prop :=
  ∀ s, loadable (c.segment s) = true ∧ c.segment s &&& 0xffff = c.segment s

/-- A selector is loaded. -/
theorem loadSegment_of_loadable {c : Cpu} {s : Segment} {w : UInt32} (h : loadable w = true) :
    c.loadSegment s w =
      some { c with segment := fun t => if t = s then w &&& 0xffff else c.segment t } :=
  if_pos h

/-- The words of the stack, by number. -/
theorem word_of_wordsAt {c : Cpu} {ws : List UInt32} (h : WordsAt c.memory c.esp ws) {k : ℕ}
    (hk : k < ws.length) : c.word (UInt32.ofNat k) = ws[k] := by
  have hsplit : ws = ws.take k ++ ws[k] :: ws.drop (k + 1) := by
    rw [← List.drop_eq_getElem_cons hk, List.take_append_drop]
  rw [hsplit, WordsAt.append_iff, List.length_take_of_le hk.le] at h
  exact h.2.1

/-- What is below the words that are taken off. -/
theorem wordsAt_drop {c : Cpu} {ws vs : List UInt32} (h : WordsAt c.memory c.esp (ws ++ vs)) :
    WordsAt (c.drop (UInt32.ofNat ws.length)).memory (c.drop (UInt32.ofNat ws.length)).esp vs :=
  (WordsAt.append_iff.mp h).2

end Cpu

end Pebbles.Processor
