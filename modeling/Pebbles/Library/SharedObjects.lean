import Pebbles.Library.Runs
import Mathlib.Logic.Function.Basic
import Mathlib.Tactic.Common

/-! # Objects that threads share

Threads run a program and call operations of an object. An operation takes several steps, and the
steps of different threads are interleaved in any way. An atomic object is one whose operations take
effect in one step, between the call and the return. When an object simulates an atomic one, under a
discipline that every program keeps with the atomic object, then no program can tell the two apart:
what it does with the object it could have done with the atomic one. -/

namespace SharedObjects

open Transition

variable {T Op C A B P Q : Type*}

/-- What a thread does. `P` are the stages of the operations. -/
inductive Doing (P : Type*) where
  /-- Its own code. -/
  | own
  /-- It is at a stage of an operation. -/
  | inside (p : P)
  /-- An operation has ended the thread. -/
  | gone

/-- The same with other stages. -/
def Doing.map (h : P → Q) : Doing P → Doing Q
  | .own => .own
  | .inside p => .inside (h p)
  | .gone => .gone

/-- **An object**, with its states `A`. -/
structure Object (T Op P A : Type*) where
  /-- The first stage of an operation. -/
  start : Op → P
  /-- A step of a thread from a stage. -/
  Step : T → A → P → A → Doing P → Prop

/-- **A program**, with the states `C` of all that the object is not. -/
structure Client (T Op C : Type*) where
  /-- A step of the thread's own code. -/
  Act : T → C → C → Prop
  /-- A call. -/
  Call : T → Op → C → C → Prop

/-- A program and an object. -/
structure State (T C A P : Type*) where
  /-- The program. -/
  client : C
  /-- The object. -/
  object : A
  /-- The threads. -/
  doing : T → Doing P

/-- At the start, all threads are in their own code. -/
def State.start (c : C) (a : A) : State T C A P := ⟨c, a, fun _ => .own⟩

/-- Who moves. -/
inductive Label (T Op : Type*) where
  /-- The thread's own code. -/
  | act (t : T)
  /-- A call. -/
  | call (t : T) (op : Op)
  /-- A step in an operation. -/
  | go (t : T)

/-- What the program does. -/
def Label.ofClient : Label T Op → Bool
  | .go _ => false
  | _ => true

variable [DecidableEq T]

/-- **The steps.** -/
inductive Step (client : Client T Op C) (object : Object T Op P A) (s : State T C A P) :
    Label T Op → State T C A P → Prop
  | act {t : T} {c : C} (here : s.doing t = .own) (act : client.Act t s.client c) :
      Step client object s (.act t) { s with client := c }
  | call {t : T} {op : Op} {c : C} (here : s.doing t = .own) (call : client.Call t op s.client c) :
      Step client object s (.call t op) { s with
        client := c, doing := Function.update s.doing t (.inside (object.start op)) }
  | go {t : T} {p : P} {a : A} {d : Doing P} (here : s.doing t = .inside p)
      (step : object.Step t s.object p a d) :
      Step client object s (.go t) { s with object := a, doing := Function.update s.doing t d }

/-! ## Simulation -/

/-- **A simulation** of the object `ob` by the object `ob'`, as long as the condition `D` holds. A
step of `ob` is a step of `ob'`, or no step of it. -/
structure Simulates (ob : Object T Op P A) (ob' : Object T Op Q B)
    (D : B → (T → Doing Q) → Prop) (R : A → (T → Doing P) → B → (T → Doing Q) → Prop) : Prop where
  /-- The same threads are in their own code. -/
  own : ∀ {a f b g}, R a f b g → ∀ t, f t = .own ↔ g t = .own
  /-- A call. -/
  call : ∀ {a f b g t op}, R a f b g → f t = .own →
    D b (Function.update g t (.inside (ob'.start op))) →
    R a (Function.update f t (.inside (ob.start op))) b
      (Function.update g t (.inside (ob'.start op)))
  /-- A step. -/
  go : ∀ {a f b g t p a' d}, R a f b g → D b g → f t = .inside p → ob.Step t a p a' d →
    R a' (Function.update f t d) b g ∨ ∃ q b' e, g t = .inside q ∧ ob'.Step t b q b' e ∧
      R a' (Function.update f t d) b' (Function.update g t e)

section Simulation

variable {ob : Object T Op P A} {ob' : Object T Op Q B} {D : B → (T → Doing Q) → Prop}
  {R : A → (T → Doing P) → B → (T → Doing Q) → Prop} {client : Client T Op C}
  {s t : State T C A P} {s' : State T C B Q} {as : List (Label T Op)}

/-- The program keeps a discipline with the object. -/
def Keeps (client : Client T Op C) (ob : Object T Op Q B) (D : B → (T → Doing Q) → Prop)
    (s : State T C B Q) : Prop :=
  ∀ as t, Run (Step client ob) s as t → D t.object t.doing

/-- **Every run has one with the atomic object in which the program does the same.** -/
theorem Simulates.run (sim : Simulates ob ob' D R) (keeps : Keeps client ob' D s')
    (base : R s.object s.doing s'.object s'.doing) (same : s'.client = s.client)
    (run : Run (Step client ob) s as t) :
    ∃ bs t', Run (Step client ob') s' bs t' ∧ t'.client = t.client ∧
      R t.object t.doing t'.object t'.doing ∧
      bs.filter Label.ofClient = as.filter Label.ofClient := by
  induction run with
  | nil => exact ⟨[], s', .nil, same, base, rfl⟩
  | @snoc as u v a _ step ih =>
      obtain ⟨bs, u', run', hclient, hR, hfilter⟩ := ih
      cases step with
      -- the own code of a thread runs with the atomic object, too, which is where the discipline
      -- is kept
      | @act t c here act =>
          have step' : Step client ob' u' (.act t) { u' with client := c } :=
            .act ((sim.own hR t).mp here) (by rwa [hclient])
          exact ⟨_, _, run'.snoc step', rfl, hR, by simp [hfilter]⟩
      | @call t op c here call =>
          have step' : Step client ob' u' (.call t op) { u' with
              client := c, doing := Function.update u'.doing t (.inside (ob'.start op)) } :=
            .call ((sim.own hR t).mp here) (by rwa [hclient])
          have hD := keeps _ _ (run'.snoc step')
          exact ⟨_, _, run'.snoc step', rfl, sim.call hR here hD, by simp [hfilter]⟩
      | @go t p a d here step =>
          -- no step of the program, and one of the atomic object or none
          rcases sim.go hR (keeps _ _ run') here step with hR' | ⟨q, b', e, here', step', hR'⟩
          · exact ⟨bs, u', run', hclient, hR', by simp [hfilter, Label.ofClient]⟩
          · exact ⟨_, _, run'.snoc (.go here' step'), hclient, hR',
              by simp [hfilter, Label.ofClient]⟩

end Simulation

/-! ## Atomic objects -/

/-- The stages of an atomic operation. -/
inductive Stage (Op : Type*) where
  /-- It has not taken effect yet. -/
  | pending (op : Op)
  /-- It has taken effect. -/
  | done (op : Op)

/-- The operation of a stage. -/
def Stage.op : Stage Op → Op
  | .pending op => op
  | .done op => op

/-- **What the operations are for.** -/
structure Meaning (T Op B : Type*) where
  /-- The effect of an operation. It waits while there is none. -/
  Effect : T → Op → B → B → Prop
  /-- The operation ends the thread. -/
  Ends : T → Op → B → Prop

/-- The steps of an atomic operation: it takes effect, and returns then or later. -/
inductive Meaning.Step (meaning : Meaning T Op B) (t : T) (b : B) :
    Stage Op → B → Doing (Stage Op) → Prop
  | effect {op : Op} {b' : B} (effect : meaning.Effect t op b b') :
      Step meaning t b (.pending op) b' (.inside (.done op))
  | both {op : Op} {b' : B} (effect : meaning.Effect t op b b') :
      Step meaning t b (.pending op) b' .own
  | back {op : Op} : Step meaning t b (.done op) b .own
  | ends {op : Op} (ends : meaning.Ends t op b) : Step meaning t b (.pending op) b .gone

/-- **The atomic object.** -/
def Meaning.atomic (meaning : Meaning T Op B) : Object T Op (Stage Op) B where
  start := .pending
  Step := meaning.Step

end SharedObjects
