import Pebbles.Process.ExitRefinement
import Pebbles.Library.Runs

/-! # Runs of the kernel

The kernel as a transition system: an `Action` is an event with the state it happens in and what
it hands to user mode, so that a property of runs can speak about who did what. Every reachable
state is represented by a well-formed abstract machine. -/

namespace Pebbles

open Transition

/-! ## What an event shows -/

/-- The event puts a new process into a children list. -/
def Event.bearsChild : Event → Bool
  | .call (.fork .ok) | .call (.fork .late) => true
  | _ => false

/-- The event starts a new thread. -/
def Event.startsThread : Event → Bool
  | .call .threadFork | .call (.fork .ok) => true
  | _ => false

/-- The event writes the control block of a new thread. -/
def Event.makesThread (e : Event) : Bool := e.startsThread || e.bearsChild

theorem Event.makesThread_eq_false {e : Event} :
    e.makesThread = false ↔ e.startsThread = false ∧ e.bearsChild = false :=
  Bool.or_eq_false_iff

/-- The calls that start a thread. -/
theorem Event.startsThread_cases {e : Event} (h : e.startsThread = true) :
    e = .call .threadFork ∨ e = .call (.fork .ok) := by
  unfold Event.startsThread at h
  split at h
  · exact Or.inl rfl
  · exact Or.inr rfl
  · cases h

/-- The status that the event sets. -/
def Event.status : Event → Option Int
  | .call (.setStatus status) => some status
  | _ => none

/-- The pid that a return of `wait` hands out. -/
def reapedPid (e : Event) (o : Out) : Option Nat :=
  match e with
  | .resume | .call (.wait _) => o.ret.bind fun v => if 0 ≤ v then some v.toNat else none
  | _ => none

/-! ## Actions and steps -/

/-- **An action**: an event, the state in which it happens, and what it hands to user mode. -/
structure Action where
  /-- The state before. -/
  before : Kernel
  /-- The event. -/
  event : Event
  /-- What is handed to user mode. -/
  out : Out

namespace Action

/-- The thread that acts. -/
def thread (x : Action) : Nat := x.before.currentThread

/-- The process that acts. -/
def process (x : Action) : Nat := x.before.currentPcb

/-- The thread that the action creates: `thread_fork` and a successful `fork` create one. -/
def newThread (x : Action) : Option Nat :=
  if x.event.startsThread then some x.before.nextTid else none

/-- The process that the action puts into the children list of the current one. -/
def newProcess (x : Action) : Option Nat :=
  if x.event.bearsChild then some x.before.nextPid else none

/-- The pid that the action hands out, as a return of `wait`. -/
def reaped (x : Action) : Option Nat := reapedPid x.event x.out

/-- The action is a return of `sys_wait` with the value `v`. -/
def waitReturns (x : Action) (v : Int) : Prop :=
  (x.event = .resume ∨ ∃ statusPtr, x.event = .call (.wait statusPtr)) ∧ x.out.ret = some v

/-- The action is a call of `wait` that scans the children list, or the second scan of one. -/
def scans (x : Action) : Prop :=
  x.event = .resume ∨ ∃ statusPtr, acceptsStatus statusPtr ∧ x.event = .call (.wait statusPtr)

end Action

/-- **A step of the kernel.** -/
def Kernel.Step (k : Kernel) (x : Action) (k' : Kernel) : Prop :=
  x.before = k ∧ k.step x.event = some (k', x.out)

/-- **Reachable states** are those at the end of a run from the boot state. -/
abbrev Kernel.Reaches (as : List Action) (k : Kernel) : Prop := Run Kernel.Step Kernel.boot as k

/-! ## Runs on given events -/

/-- The actions and the last state of a run on the given events. -/
def Kernel.exec : Kernel → List Event → Option (List Action × Kernel)
  | k, [] => some ([], k)
  | k, e :: es =>
      (k.step e).bind fun r => (r.1.exec es).map fun s => (⟨k, e, r.2⟩ :: s.1, s.2)

/-- A run on given events is a run. -/
theorem Kernel.run_of_exec {k k' : Kernel} {es : List Event} {as : List Action}
    (h : k.exec es = some (as, k')) : Run Kernel.Step k as k' := by
  induction es generalizing k as with
  | nil =>
      obtain ⟨rfl, rfl⟩ := Prod.mk.inj (Option.some.inj h)
      exact Run.nil
  | cons e es ih =>
      obtain ⟨⟨k1, o⟩, hstep, hrest⟩ := Option.bind_eq_some_iff.mp h
      obtain ⟨⟨bs, k2⟩, hexec, heq⟩ := Option.map_eq_some_iff.mp hrest
      obtain ⟨rfl, rfl⟩ := Prod.mk.inj heq
      have first : Run Kernel.Step k [⟨k, e, o⟩] k1 := by
        simpa using Run.snoc Run.nil (a := (⟨k, e, o⟩ : Action)) ⟨rfl, hstep⟩
      simpa using first.append (ih hexec)

/-- The run from the boot state on given events. -/
def Kernel.trace (es : List Event) : List Action × Kernel :=
  (Kernel.boot.exec es).getD ([], Kernel.boot)

/-- A run on given events that goes through reaches its last state. -/
theorem Kernel.reaches_trace (es : List Event) (h : (Kernel.boot.exec es).isSome = true) :
    Kernel.Reaches (Kernel.trace es).1 (Kernel.trace es).2 := by
  obtain ⟨r, hr⟩ := Option.isSome_iff_exists.mp h
  rw [Kernel.trace, hr]
  exact Kernel.run_of_exec hr

/-- The next action, on a given event, and the state after it. -/
def Kernel.act (k : Kernel) (e : Event) : Action × Kernel :=
  match k.step e with
  | some r => (⟨k, e, r.2⟩, r.1)
  | none => (⟨k, e, Out.quiet⟩, k)

/-- A step on a given event that goes through. -/
theorem Kernel.step_act {k : Kernel} {e : Event} (h : (k.step e).isSome = true) :
    k.Step (k.act e).1 (k.act e).2 := by
  obtain ⟨r, hr⟩ := Option.isSome_iff_exists.mp h
  unfold Kernel.act
  rw [hr]
  exact ⟨rfl, hr⟩

/-! ## Representation -/

/-- A well-formed machine represents the kernel state. -/
def Kernel.RepresentedBy (k : Kernel) (m : Machine) : Prop := Refines k m ∧ m.Wf

/-- **A kernel step is a machine step** from any machine that represents the state. -/
theorem Kernel.RepresentedBy.step {k k' : Kernel} {m : Machine} {x : Action}
    (h : k.RepresentedBy m) (hs : k.Step x k') :
    ∃ m', m.step x.event = some (m', x.out) ∧ k'.RepresentedBy m' := by
  obtain ⟨m', hm', h'⟩ := h.1.step h.2 x.event k' x.out hs.2
  exact ⟨m', hm', h', h.2.step hm'⟩

/-- The boot state is represented. -/
theorem Kernel.represented_boot : Kernel.boot.RepresentedBy Machine.boot :=
  ⟨refines_boot, Machine.wf_boot⟩

/-- **Every reachable state is represented by a well-formed machine.** -/
theorem Kernel.Reaches.represented {as : List Action} {k : Kernel} (h : Kernel.Reaches as k) :
    ∃ m, k.RepresentedBy m := by
  refine Run.invariant (I := fun u => ∃ m, u.RepresentedBy m) h
    ⟨_, Kernel.represented_boot⟩ ?_
  rintro u x v ⟨m, hm⟩ hstep
  obtain ⟨m', -, hm'⟩ := hm.step hstep
  exact ⟨m', hm'⟩

/-- **Invariants of the machine along kernel runs**: an invariant that may speak about the actions
read so far is proved on machine steps. -/
theorem Kernel.Reaches.machine_invariant {as : List Action} {k : Kernel} (h : Kernel.Reaches as k)
    {I : List Action → Machine → Prop} (base : I [] Machine.boot)
    (keep : ∀ bs u x m m', u.RepresentedBy m → x.before = u → m.step x.event = some (m', x.out) →
      m'.Wf → I bs m → I (bs ++ [x]) m') :
    ∃ m, k.RepresentedBy m ∧ I as m := by
  refine Run.trace_invariant (I := fun bs u => ∃ m, u.RepresentedBy m ∧ I bs m) h
    ⟨_, Kernel.represented_boot, base⟩ ?_
  rintro bs u x v ⟨m, hm, hI⟩ hstep
  obtain ⟨m', hm', hv⟩ := hm.step hstep
  exact ⟨m', hv, keep bs u x m m' hm hstep.1 hm' hv.2 hI⟩

end Pebbles
