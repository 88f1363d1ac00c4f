import Pebbles.Memory.AddressSpaces
import Pebbles.Memory.ForkCopy

/-! # What a step does to the address spaces

The page directories of the processes, together with those that `sys_exec` has left behind, own
the memory: this is the invariant `Sound`. `StepEffect` says once what each call can do, in terms
of who maps which frame, and `Sound.step` says that from a sound state every step has such an
effect and leads to a sound state. -/

namespace Pebbles.Memory

open Kernel (isUserAddr)

/-! ## Owners -/

/-- The owners of page directories. -/
inductive Owner where
  /-- A process. -/
  | process (p : Nat)
  /-- Nobody: the `n`-th page directory that `sys_exec` replaced. -/
  | abandoned (n : Nat)
  deriving DecidableEq

/-- The page directory of each owner, `lost` being those that were replaced. -/
def Vm.dirs (s : Vm) (lost : List Nat) : Owner → Option Nat
  | .process p => (s.spaces p).bind fun a => if a.pd = 0 then none else some a.pd
  | .abandoned n => lost[n]?

/-- **The invariant**: the address spaces own the memory, the running process is one that can run
and its page directory is in use, and no pid is given twice. -/
structure Sound (kernelBlocks : Nat → Nat) (lost : List Nat) (s : Vm) : Prop where
  /-- The ledgers balance. -/
  owned : Owned kernelBlocks s.memory (s.dirs lost)
  /-- The running process. -/
  running : ∃ a, s.spaces s.current = some a ∧ a.scheduled = true ∧ a.exited = false ∧
    s.memory.cr3 = a.pd
  /-- A process that can run has a page directory. -/
  scheduled_pd : ∀ {p a}, s.spaces p = some a → a.scheduled = true → a.pd ≠ 0
  /-- A process that exited could run. -/
  exited_scheduled : ∀ {p a}, s.spaces p = some a → a.exited = true → a.scheduled = true
  /-- The next pids are unused. -/
  fresh : ∀ {p}, s.nextPid ≤ p → s.spaces p = none

/-- The pages of a program: its segments and its stack. -/
def loaderRange (h : ElfHeader) : List (Nat × Nat) :=
  pageRange h.txtStart.toNat h.txtLen.toNat ++ pageRange h.rodatStart.toNat h.rodatLen.toNat ++
    pageRange h.bssStart.toNat h.bssLen.toNat ++ pageRange h.datStart.toNat h.datLen.toNat ++
    pageRange 0xffffe000 8192

/-- The frame that the entry `i`, `j` of an owner maps. -/
def Vm.frame (s : Vm) (lost : List Nat) (o : Owner) (i j : Nat) : Option Nat :=
  frameAt s.memory.words (s.dirs lost) o i j

/-- The call gives up before it touches an address space. -/
def Vm.refuses (s : Vm) (c : Call) : Prop :=
  ∃ a, s.currentSpace = some a ∧
    match c with
    | .newPages addr len => newPagesChecks s.memory a.pd addr.toNat len.toInt = false
    | .removePages _ => True
    | .fork => findFreeEntry s.memory a.pd = none
    | .exec execname argvec program argsFit =>
        execAccepts s.memory a.pd execname.toNat argvec.toNat program argsFit = none
    | .wait => a.children.find? s.hasExited = none
    | .vanish _ | .contextSwitch _ => False

/-- `sys_fork` gets what it asks for: a free entry, and blocks for the page directory and the page
tables of the child. -/
def Vm.ForkServed (s : Vm) (answers : List Answer) : Prop :=
  ∃ a, s.currentSpace = some a ∧ findFreeEntry s.memory a.pd ≠ none ∧ NonNull answers

/-- **What one step can do**, from the state `s` to the last argument: the call, its value, and
who maps which frame afterwards. -/
inductive StepEffect (s : Vm) (lost : List Nat) : Call → Int → List Nat → Vm → Prop
  /-- The call gives up. -/
  | nothing {c : Call} {s' : Vm} (hrefused : s.refuses c) (hspaces : s'.spaces = s.spaces)
      (hcurrent : s'.current = s.current) (hpid : s'.nextPid = s.nextPid)
      (hwords : s'.memory.words = s.memory.words) :
      StepEffect s lost c (-1) lost s'
  /-- `sys_new_pages` succeeds. -/
  | newPages {addr : UInt32} {len : Int32} {a : AddressSpace} {s' : Vm}
      (hspace : s.currentSpace = some a)
      (hchecks : newPagesChecks s.memory a.pd addr.toNat len.toInt = true)
      (hspaces : s'.spaces = Function.update s.spaces s.current
        (some { a with va := a.va ++ [⟨addr.toNat, len.toInt.toNat⟩] }))
      (hcurrent : s'.current = s.current) (hpid : s'.nextPid = s.nextPid)
      (hmaps : MapsRange (s.dirs lost) s.memory.words s'.memory.words (.process s.current)
        (pageRange addr.toNat len.toInt.toNat)) :
      StepEffect s lost (.newPages addr len) 0 lost s'
  /-- `sys_remove_pages` succeeds. -/
  | removePages {addr : UInt32} {a : AddressSpace} {region : VaInfo} {s' : Vm}
      (hspace : s.currentSpace = some a) (haddr : isUserAddr addr.toNat = true)
      (hfound : a.va.find? (fun r => r.virtualAddr = addr.toNat) = some region)
      (hspaces : s'.spaces = Function.update s.spaces s.current
        (some { a with va := a.va.erase region }))
      (hcurrent : s'.current = s.current) (hpid : s'.nextPid = s.nextPid)
      (hunmaps : UnmapsRange (s.dirs lost) s.memory.words s'.memory.words (.process s.current)
        (pageRange addr.toNat region.len)) :
      StepEffect s lost (.removePages addr) 0 lost s'
  /-- `sys_fork` makes a child, complete or not. -/
  | fork {a b : AddressSpace} {r : Int} {s' : Vm} (hspace : s.currentSpace = some a)
      (hblank : b.va = [] ∧ b.children = [] ∧ b.exited = false)
      (hresult : r = if b.scheduled then (s.nextPid : Int) else -1)
      (hspaces : s'.spaces = Function.update (Function.update s.spaces s.current
        (some { a with children := a.children ++ [s.nextPid] })) s.nextPid (some b))
      (hcurrent : s'.current = s.current) (hpid : s'.nextPid = s.nextPid + 1)
      (hothers : ∀ o i j, o ≠ .process s.nextPid → s'.frame lost o i j = s.frame lost o i j)
      (hcopy : b.scheduled = true → ∀ i j, (s'.frame lost (.process s.nextPid) i j).isSome ↔
        (s.frame lost (.process s.current) i j).isSome) :
      StepEffect s lost .fork r lost s'
  /-- `sys_exec` succeeds: the old page directory is left behind. -/
  | exec {execname argvec : UInt32} {program : Option ElfHeader} {argsFit : Bool}
      {a : AddressSpace} {h : ElfHeader} {pd : Nat} {s' : Vm} (hspace : s.currentSpace = some a)
      (haccepts : execAccepts s.memory a.pd execname.toNat argvec.toNat program argsFit = some h)
      (hspaces : s'.spaces = Function.update s.spaces s.current (some { a with pd := pd }))
      (hcurrent : s'.current = s.current) (hpid : s'.nextPid = s.nextPid)
      (hothers : ∀ o i j, o ≠ .process s.current → o ≠ .abandoned lost.length →
        s'.frame (lost ++ [a.pd]) o i j = s.frame lost o i j)
      (hlost : ∀ i j, s'.frame (lost ++ [a.pd]) (.abandoned lost.length) i j
        = s.frame lost (.process s.current) i j)
      (hloaded : ∀ i j, (s'.frame (lost ++ [a.pd]) (.process s.current) i j).isSome ↔
        (i, j) ∈ loaderRange h ∧ 4 ≤ i) :
      StepEffect s lost (.exec execname argvec program argsFit) 0 (lost ++ [a.pd]) s'
  /-- `sys_wait` reaps the child `c`. -/
  | reap {a b : AddressSpace} {c : Nat} {s' : Vm} (hspace : s.currentSpace = some a)
      (hchild : s.spaces c = some b) (hfound : a.children.find? s.hasExited = some c)
      (hspaces : s'.spaces = Function.update (Function.update s.spaces s.current
        (some { a with children := a.children.erase c })) c none)
      (hcurrent : s'.current = s.current) (hpid : s'.nextPid = s.nextPid)
      (hothers : ∀ o i j, o ≠ .process c → s'.frame lost o i j = s.frame lost o i j) :
      StepEffect s lost .wait c lost s'
  /-- The process exits. -/
  | vanish {next : Nat} {a : AddressSpace} {s' : Vm} (hspace : s.currentSpace = some a)
      (hspaces : s'.spaces = Function.update s.spaces s.current (some { a with exited := true }))
      (hcurrent : s'.current = next) (hpid : s'.nextPid = s.nextPid)
      (hwords : s'.memory.words = s.memory.words) :
      StepEffect s lost (.vanish next) 0 lost s'
  /-- Another process runs. -/
  | contextSwitch {next : Nat} {s' : Vm} (hspaces : s'.spaces = s.spaces)
      (hcurrent : s'.current = next) (hpid : s'.nextPid = s.nextPid)
      (hwords : s'.memory.words = s.memory.words) :
      StepEffect s lost (.contextSwitch next) 0 lost s'

/-! ## The owners after a change of control blocks -/

/-- Who has which control block after one was written. -/
theorem update_cases {spaces : Nat → Option AddressSpace} {p q : Nat} {b x : AddressSpace}
    (hx : Function.update spaces q (some b) p = some x) :
    (p = q ∧ x = b) ∨ (p ≠ q ∧ spaces p = some x) := by
  rw [Function.update_apply] at hx
  split at hx
  · next hp => exact Or.inl ⟨hp, (Option.some.inj hx).symm⟩
  · next hp => exact Or.inr ⟨hp, hx⟩

section
variable {s s' : Vm} {lost : List Nat} {p : Nat} {a b : AddressSpace}

/-- A process that has a page directory. -/
theorem Vm.dirs_process (ha : s.spaces p = some a) (hpd : a.pd ≠ 0) :
    s.dirs lost (.process p) = some a.pd := by
  simp [Vm.dirs, ha, hpd]

/-- Writing a control block without moving the page directory. -/
theorem Vm.dirs_same (ha : s.spaces p = some a) (hb : b.pd = a.pd)
    (hspaces : s'.spaces = Function.update s.spaces p (some b)) : s'.dirs lost = s.dirs lost := by
  funext o
  cases o with
  | abandoned n => rfl
  | process q =>
      by_cases hq : q = p
      · subst hq
        simp [Vm.dirs, hspaces, ha, hb]
      · simp [Vm.dirs, hspaces, hq]

/-- A process is added, with or without a page directory. -/
theorem Vm.dirs_update (hspaces : s'.spaces = Function.update s.spaces p (some b)) :
    s'.dirs lost = Function.update (s.dirs lost) (.process p)
      (if b.pd = 0 then none else some b.pd) := by
  funext o
  cases o with
  | abandoned n => rfl
  | process q =>
      by_cases hq : q = p
      · subst hq
        simp [Vm.dirs, hspaces]
      · have hne : Owner.process q ≠ Owner.process p := by simpa using hq
        rw [Function.update_of_ne hne]
        simp [Vm.dirs, hspaces, hq]

/-- A process is removed. -/
theorem Vm.dirs_remove (hspaces : s'.spaces = Function.update s.spaces p none) :
    s'.dirs lost = Function.update (s.dirs lost) (.process p) none := by
  funext o
  cases o with
  | abandoned n => rfl
  | process q =>
      by_cases hq : q = p
      · subst hq
        simp [Vm.dirs, hspaces]
      · have hne : Owner.process q ≠ Owner.process p := by simpa using hq
        rw [Function.update_of_ne hne]
        simp [Vm.dirs, hspaces, hq]

/-- The page directory of `p` is left behind: `p` and the next abandoned owner change names. -/
theorem Vm.dirs_abandon (ha : s.spaces p = some a) (hpd : a.pd ≠ 0) :
    (fun o => s.dirs lost (Equiv.swap (Owner.process p) (.abandoned lost.length) o))
      = Function.update (s.dirs (lost ++ [a.pd])) (.process p) none := by
  funext o
  cases o with
  | process q =>
      by_cases hq : q = p
      · subst hq
        rw [Equiv.swap_apply_left, Function.update_self]
        simp [Vm.dirs]
      · have hne : Owner.process q ≠ Owner.process p := by simpa using hq
        rw [Equiv.swap_apply_of_ne_of_ne hne (by simp), Function.update_of_ne hne]
        rfl
  | abandoned n =>
      rw [Function.update_of_ne (by simp)]
      by_cases hn : n = lost.length
      · subst hn
        rw [Equiv.swap_apply_right, s.dirs_process ha hpd]
        simp [Vm.dirs]
      · rw [Equiv.swap_apply_of_ne_of_ne (by simp) (by simpa using hn)]
        show lost[n]? = (lost ++ [a.pd])[n]?
        rcases Nat.lt_or_gt_of_ne hn with hlt | hgt
        · rw [List.getElem?_append_left hlt]
        · rw [List.getElem?_eq_none (by omega), List.getElem?_eq_none (by simp; omega)]

end

/-! ## Each call has its effect -/

section
variable {kernelBlocks : Nat → Nat} {lost : List Nat} {s s' : Vm} {r : Int} {a b : AddressSpace}

namespace Sound

/-- The page directory of the running process. -/
theorem current_dir (h : Sound kernelBlocks lost s) (ha : s.currentSpace = some a) :
    s.dirs lost (.process s.current) = some a.pd ∧ s.memory.cr3 = a.pd ∧ a.pd ≠ 0 := by
  obtain ⟨b, hb, hsched, -, hcr3⟩ := h.running
  obtain rfl : b = a := Option.some.inj (hb.symm.trans ha)
  have hpd := h.scheduled_pd hb hsched
  exact ⟨s.dirs_process hb hpd, hcr3, hpd⟩

/-- The running process can run. -/
theorem current_flags (h : Sound kernelBlocks lost s) (ha : s.currentSpace = some a) :
    a.scheduled = true ∧ a.exited = false := by
  obtain ⟨b, hb, hsched, hexit, -⟩ := h.running
  obtain rfl : b = a := Option.some.inj (hb.symm.trans ha)
  exact ⟨hsched, hexit⟩

/-- The running process is not the next one to be made. -/
theorem current_ne_next (h : Sound kernelBlocks lost s) (ha : s.currentSpace = some a) :
    s.current ≠ s.nextPid := by
  intro he
  have hnone := h.fresh (Nat.le_of_eq he.symm)
  rw [show s.spaces s.current = some a from ha] at hnone
  cases hnone

/-- The answers do not matter. -/
theorem supply (h : Sound kernelBlocks lost s) (answers : List Answer) :
    Sound kernelBlocks lost (s.supply answers) where
  owned := h.owned.congr rfl rfl rfl
  running := h.running
  scheduled_pd := h.scheduled_pd
  exited_scheduled := h.exited_scheduled
  fresh := h.fresh

/-- The control block of the running process is written, its page directory stays. -/
theorem writeCurrent (h : Sound kernelBlocks lost s) (ha : s.currentSpace = some a)
    (hpd : b.pd = a.pd) (hsched : b.scheduled = a.scheduled) (hexit : b.exited = a.exited)
    (hspaces : s'.spaces = Function.update s.spaces s.current (some b))
    (hcurrent : s'.current = s.current) (hpid : s'.nextPid = s.nextPid)
    (howned : Owned kernelBlocks s'.memory (s.dirs lost))
    (hcr3 : s'.memory.cr3 = s.memory.cr3) : Sound kernelBlocks lost s' := by
  obtain ⟨hs, he⟩ := h.current_flags ha
  obtain ⟨-, hc, hne⟩ := h.current_dir ha
  have hold : ∀ {p x}, s'.spaces p = some x → (p = s.current ∧ x = b) ∨ s.spaces p = some x := by
    intro p x hx
    rw [hspaces, Function.update_apply] at hx
    split at hx
    · next hp => exact Or.inl ⟨hp, (Option.some.inj hx).symm⟩
    · exact Or.inr hx
  refine ⟨by rwa [Vm.dirs_same (s := s) ha hpd hspaces], ⟨b, ?_, hsched.trans hs, hexit.trans he,
    ?_⟩, fun {p x} hx hxs => ?_, fun {p x} hx hxe => ?_, fun {p} hp => ?_⟩
  · rw [hspaces, hcurrent, Function.update_self]
  · rw [hcr3, hc, hpd]
  · rcases hold hx with ⟨-, rfl⟩ | hx
    · rw [hpd]; exact hne
    · exact h.scheduled_pd hx hxs
  · rcases hold hx with ⟨-, rfl⟩ | hx
    · exact hsched.trans hs
    · exact h.exited_scheduled hx hxe
  · rw [hpid] at hp
    have hcur : p ≠ s.current := by
      rintro rfl
      have hnone := h.fresh hp
      rw [show s.spaces s.current = some a from ha] at hnone
      cases hnone
    rw [hspaces, Function.update_of_ne hcur]
    exact h.fresh hp

/-! ### `new_pages` and `remove_pages` -/

theorem newPages (h : Sound kernelBlocks lost s) (hnn : NonNull s.memory.answers) {addr : UInt32}
    {len : Int32} (call : s.sysNewPages addr len = some (s', r)) :
    StepEffect s lost (.newPages addr len) r lost s' ∧ Sound kernelBlocks lost s' := by
  obtain ⟨a, ha, hbody⟩ := Option.bind_eq_some_iff.mp call
  obtain ⟨hd, -, -⟩ := h.current_dir ha
  split at hbody
  · next hchecks =>
      obtain ⟨m, halloc, hres⟩ := Option.map_eq_some_iff.mp hbody
      obtain ⟨rfl, rfl⟩ := Prod.mk.inj hres
      obtain ⟨hev, hmaps⟩ := h.owned.allocatePages hd hnn halloc
      exact ⟨.newPages ha hchecks rfl rfl rfl hmaps,
        h.writeCurrent (b := { a with va := a.va ++ [⟨addr.toNat, len.toInt.toNat⟩] }) ha rfl rfl rfl
          rfl rfl rfl hev.owned hev.cr3⟩
  · next hchecks =>
      obtain ⟨rfl, rfl⟩ := Prod.mk.inj (Option.some.inj hbody)
      exact ⟨.nothing ⟨a, ha, by simpa using hchecks⟩ rfl rfl rfl rfl, h⟩

/-- A user address lies in the user half of the page directory. -/
theorem vaPdInd_of_user {addr : Nat} (h : isUserAddr addr = true) : 4 ≤ vaPdInd addr := by
  have hle : 0x01000000 ≤ addr := (decide_eq_true_eq.mp h).2
  rw [vaPdInd, Nat.shiftRight_eq_div_pow]
  omega

theorem removePages (h : Sound kernelBlocks lost s) {addr : UInt32}
    (call : s.sysRemovePages addr = some (s', r)) :
    StepEffect s lost (.removePages addr) r lost s' ∧ Sound kernelBlocks lost s' := by
  obtain ⟨a, ha, hbody⟩ := Option.bind_eq_some_iff.mp call
  obtain ⟨hd, hcr3, -⟩ := h.current_dir ha
  have hnothing : ∀ {s'' r'}, some (s, (-1 : Int)) = some (s'', r') →
      StepEffect s lost (.removePages addr) r' lost s'' ∧ Sound kernelBlocks lost s'' := by
    intro s'' r' he
    obtain ⟨rfl, rfl⟩ := Prod.mk.inj (Option.some.inj he)
    exact ⟨.nothing ⟨a, ha, trivial⟩ rfl rfl rfl rfl, h⟩
  simp only at hbody
  split at hbody
  · exact hnothing hbody
  next huser =>
    split at hbody
    · exact hnothing hbody
    split at hbody
    · exact hnothing hbody
    split at hbody
    · exact hnothing hbody
    split at hbody
    · exact hnothing hbody
    next region hfound =>
      have haddr : isUserAddr addr.toNat = true := by simpa using huser
      obtain ⟨m, hfree, hres⟩ := Option.map_eq_some_iff.mp hbody
      obtain ⟨rfl, rfl⟩ := Prod.mk.inj hres
      obtain ⟨hev, hunmaps⟩ := h.owned.freePages hd (vaPdInd_of_user haddr) hfree
      exact ⟨.removePages ha haddr hfound rfl rfl rfl hunmaps,
        h.writeCurrent (b := { a with va := a.va.erase region }) ha rfl rfl rfl rfl rfl rfl
          (hev.owned.congr rfl rfl rfl) hcr3.symm⟩

/-! ### `fork` -/

/-- The control blocks after a fork. -/
theorem addChild (s' : Vm) (h : Sound kernelBlocks lost s) (ha : s.currentSpace = some a)
    (hexit : b.exited = false) (hsched : b.scheduled = true → b.pd ≠ 0)
    (hspaces : s'.spaces = Function.update (Function.update s.spaces s.current
      (some { a with children := a.children ++ [s.nextPid] })) s.nextPid (some b))
    (hcurrent : s'.current = s.current) (hpid : s'.nextPid = s.nextPid + 1)
    (howned : Owned kernelBlocks s'.memory
      (Function.update (s.dirs lost) (.process s.nextPid) (if b.pd = 0 then none else some b.pd)))
    (hcr3 : s'.memory.cr3 = s.memory.cr3) :
    Sound kernelBlocks lost s' ∧
      s'.dirs lost = Function.update (s.dirs lost) (.process s.nextPid)
        (if b.pd = 0 then none else some b.pd) := by
  obtain ⟨hs, he⟩ := h.current_flags ha
  obtain ⟨-, hc, hne⟩ := h.current_dir ha
  have hcur := h.current_ne_next ha
  -- the parent's block first, then the child's
  let s1 := s.setSpace s.current { a with children := a.children ++ [s.nextPid] }
  have hdirs1 : s1.dirs lost = s.dirs lost :=
    Vm.dirs_same (b := { a with children := a.children ++ [s.nextPid] }) ha rfl rfl
  have hdirs : s'.dirs lost = Function.update (s.dirs lost) (.process s.nextPid)
      (if b.pd = 0 then none else some b.pd) := by
    rw [← hdirs1]
    exact Vm.dirs_update (s := s1) hspaces
  have hold : ∀ {p x}, s'.spaces p = some x → (p = s.nextPid ∧ x = b) ∨
      (p = s.current ∧ x = { a with children := a.children ++ [s.nextPid] }) ∨
      s.spaces p = some x := by
    intro p x hx
    rw [hspaces, Function.update_apply] at hx
    split at hx
    · next hp => exact Or.inl ⟨hp, (Option.some.inj hx).symm⟩
    rw [Function.update_apply] at hx
    split at hx
    · next hp => exact Or.inr (Or.inl ⟨hp, (Option.some.inj hx).symm⟩)
    · exact Or.inr (Or.inr hx)
  refine ⟨⟨hdirs ▸ howned, ⟨{ a with children := a.children ++ [s.nextPid] }, ?_, hs, he, ?_⟩,
    fun {p x} hx hxs => ?_, fun {p x} hx hxe => ?_, fun {p} hp => ?_⟩, hdirs⟩
  · rw [hspaces, hcurrent, Function.update_of_ne hcur, Function.update_self]
  · rw [hcr3, hc]
  · rcases hold hx with ⟨-, rfl⟩ | ⟨-, rfl⟩ | hx
    · exact hsched hxs
    · exact hne
    · exact h.scheduled_pd hx hxs
  · rcases hold hx with ⟨-, rfl⟩ | ⟨-, rfl⟩ | hx
    · rw [hexit] at hxe
      cases hxe
    · exact hs
    · exact h.exited_scheduled hx hxe
  · rw [hpid] at hp
    have hnone := h.fresh (p := p) (by omega)
    have hpc : p ≠ s.current := by
      rintro rfl
      rw [show s.spaces s.current = some a from ha] at hnone
      cases hnone
    rw [hspaces, Function.update_of_ne (by omega), Function.update_of_ne hpc]
    exact hnone

/-- The next process owns nothing yet. -/
theorem next_dir (h : Sound kernelBlocks lost s) : s.dirs lost (.process s.nextPid) = none := by
  simp [Vm.dirs, h.fresh (Nat.le_refl s.nextPid)]

theorem fork (h : Sound kernelBlocks lost s) (hzero : ZeroFilled s.memory.answers)
    (call : s.sysFork = some (s', r)) :
    StepEffect s lost .fork r lost s' ∧ Sound kernelBlocks lost s' ∧
      (s'.memory.answers = [] → (r ≠ -1 ↔ s.ForkServed s.memory.answers)) := by
  obtain ⟨a, ha, hbody⟩ := Option.bind_eq_some_iff.mp call
  obtain ⟨hd, hcr3, -⟩ := h.current_dir ha
  split at hbody
  · next hfind =>
      obtain ⟨rfl, rfl⟩ := Prod.mk.inj (Option.some.inj hbody)
      refine ⟨.nothing ⟨a, ha, hfind⟩ rfl rfl rfl rfl, h, fun _ => ?_⟩
      simp [Vm.ForkServed, ha, hfind]
  next entry hfind =>
    obtain ⟨⟨pd, m⟩, halloc, hrest⟩ := Option.bind_eq_some_iff.mp hbody
    obtain ⟨answer, hanswer, -, hsuffix, hframes, hsame, hcases⟩ := memalign_cases halloc
    obtain ⟨first, hfirst, hfirst'⟩ := memalign_answers halloc
    rcases hcases with ⟨rfl, hwords, hheap⟩ | ⟨hblock, hfresh, hheap, hwords⟩
    · -- no page directory
      simp only [if_true] at hrest
      obtain ⟨rfl, rfl⟩ := Prod.mk.inj (Option.some.inj hrest)
      have hnone : Function.update (s.dirs lost) (.process s.nextPid) none = s.dirs lost := by
        rw [← h.next_dir, Function.update_eq_self]
      obtain ⟨hsound, hdirs⟩ := addChild (b := ⟨0, [], [], false, false⟩)
        ((({ s with nextPid := s.nextPid + 1 }.setSpace s.current
          { a with children := a.children ++ [s.nextPid] }).setMemory m).setSpace s.nextPid
            ⟨0, [], [], false, false⟩) h ha rfl (by simp) rfl rfl rfl
        (by
          rw [if_pos rfl, hnone]
          exact h.owned.congr hframes hwords hheap) hsame
      refine ⟨.fork ha ⟨rfl, rfl, rfl⟩ rfl rfl rfl rfl (fun o i j _ => ?_)
        (fun hs => by cases hs), hsound, fun _ => ?_⟩
      · rw [Vm.frame, Vm.frame, hdirs, if_pos rfl, hnone]
        show frameAt m.words _ o i j = _
        rw [hwords]
      · simp [Vm.ForkServed, NonNull, hfirst, hfirst']
    · have hpd : ¬ pd = 0 := hblock.1
      simp only [hpd, if_false] at hrest
      obtain ⟨⟨done, m'⟩, hcopy, hres⟩ := Option.map_eq_some_iff.mp hrest
      obtain ⟨rfl, rfl⟩ := Prod.mk.inj hres
      obtain ⟨t, hentry⟩ := h.owned.findFreeEntry hd hfind
      have hfill : m.words = Function.update s.memory.words pd fun _ => 0 := by
        rw [hwords]
        congr 1
        funext k
        exact hzero answer hanswer k
      obtain ⟨hev, hothers, hcopied, used, hused, hdone⟩ := h.owned.copySpace hd hcr3 hentry h.next_dir hblock hfresh
        hframes hheap hfill hsame (hzero.suffix hsuffix) hcopy
      obtain ⟨hsound, hdirs⟩ := addChild (b := ⟨pd, [], [], false, done⟩)
        ((({ s with nextPid := s.nextPid + 1 }.setSpace s.current
          { a with children := a.children ++ [s.nextPid] }).setMemory m').setSpace s.nextPid
            ⟨pd, [], [], false, done⟩) h ha rfl (fun _ => hpd) rfl rfl rfl
        (by
          rw [if_neg hpd]
          exact hev.owned) (hev.cr3.trans hsame)
      rw [if_neg hpd] at hdirs
      refine ⟨.fork ha ⟨rfl, rfl, rfl⟩ rfl rfl rfl rfl (fun o i j ho => ?_)
        (fun hdone i j => ?_), hsound, fun hend => ?_⟩
      · rw [Vm.frame, Vm.frame, hdirs]
        exact hothers o i j ho
      · rw [Vm.frame, Vm.frame, hdirs]
        exact hcopied hdone i j
      · have hend' : m'.answers = [] := hend
        rw [hend', List.append_nil] at hused
        have hchild : ((s.nextPid : Int) = -1) ↔ False := iff_of_false (by omega) not_false
        cases done <;> simp_all [Vm.ForkServed, NonNull]

/-! ### `exec` -/

end Sound

/-- **The rule of `program_loader`.** -/
theorem Owned.programLoader {dirs : Owner → Option Nat} {m m' : PhysMem} {o : Owner} {d : Nat}
    (h : Owned kernelBlocks m dirs) (hd : dirs o = some d) (hnn : NonNull m.answers)
    {header : ElfHeader} (call : Memory.programLoader header m d = some m') :
    Evolves kernelBlocks dirs m m' ∧
      MapsRange dirs m.words m'.words o (loaderRange header) := by
  obtain ⟨-, call⟩ := Option.ite_none_right_eq_some.mp call
  obtain ⟨m1, h1, call⟩ := Option.bind_eq_some_iff.mp call
  obtain ⟨m2, h2, call⟩ := Option.bind_eq_some_iff.mp call
  obtain ⟨m3, h3, call⟩ := Option.bind_eq_some_iff.mp call
  obtain ⟨m4, h4, h5⟩ := Option.bind_eq_some_iff.mp call
  obtain ⟨e1, r1⟩ := h.allocatePages hd hnn h1
  obtain ⟨e2, r2⟩ := e1.owned.allocatePages hd (hnn.suffix e1.answers) h2
  have e12 := e1.trans e2
  obtain ⟨e3, r3⟩ := e12.owned.allocatePages hd (hnn.suffix e12.answers) h3
  have e13 := e12.trans e3
  obtain ⟨e4, r4⟩ := e13.owned.allocatePages hd (hnn.suffix e13.answers) h4
  have e14 := e13.trans e4
  obtain ⟨e5, r5⟩ := e14.owned.allocatePages hd (hnn.suffix e14.answers) h5
  exact ⟨e14.trans e5, (((r1.append r2).append r3).append r4).append r5⟩

/-- A new page directory for an owner that has none, with a program in it. -/
theorem Owned.newImage {dirs : Owner → Option Nat} {m m1 m' : PhysMem} {o : Owner} {pd : Nat}
    (h : Owned kernelBlocks m dirs) (hnone : dirs o = none) (hcr3 : m.cr3 ∈ m.heap)
    (hentries : KernelEntries kernelBlocks m.words m.cr3) (hnn : NonNull m.answers)
    {header : ElfHeader} (hinit : Memory.initPd m = some (pd, m1))
    (hload : Memory.programLoader header m1 pd = some m') :
    Owned kernelBlocks m' (Function.update dirs o (some pd)) ∧ pd ≠ 0 ∧ m'.cr3 = pd ∧
      m'.answers <:+ m.answers ∧
      (∀ o' i j, o' ≠ o → frameAt m'.words (Function.update dirs o (some pd)) o' i j
        = frameAt m.words dirs o' i j) ∧
      ∀ i j, (frameAt m'.words (Function.update dirs o (some pd)) o i j).isSome ↔
        (i, j) ∈ loaderRange header ∧ 4 ≤ i := by
  obtain ⟨hadd, hc, hsuffix⟩ := h.initPd hcr3 hentries hnn hinit
  have h1 := h.newDir hnone hadd
  obtain ⟨hev, hmaps⟩ := h1.programLoader (Function.update_self ..) (hnn.suffix hsuffix) hload
  refine ⟨hev.owned, hadd.block.1, hev.cr3.trans hc, hev.answers.trans hsuffix,
    fun o' i j ho => ?_, fun i j => ⟨fun hsome => ?_, fun ⟨hmem, hi⟩ => ?_⟩⟩
  · rw [hmaps.only fun e => ho e.1, h.frameAt_dirAdded hadd hnone]
  · obtain ⟨f, hf⟩ := Option.isSome_iff_exists.mp hsome
    have hi : 4 ≤ i := by
      obtain ⟨-, t, ht, -⟩ := frameAt_eq_some.mp hf
      exact (tableAt_eq_some.mp ht).1.1
    refine ⟨?_, hi⟩
    by_contra hmem
    rw [hmaps.only fun e => hmem e.2, h.frameAt_dirAdded hadd hnone, frameAt, tableAt, hnone] at hf
    simp at hf
  · obtain ⟨f, hf⟩ := hmaps.mapped hmem hi
    exact Option.isSome_iff_exists.mpr ⟨f, hf⟩

namespace Sound

theorem exec (h : Sound kernelBlocks lost s) (hnn : NonNull s.memory.answers)
    {execname argvec : UInt32} {program : Option ElfHeader} {argsFit : Bool}
    (call : s.sysExec execname argvec program argsFit = some (s', r)) :
    ∃ lost', StepEffect s lost (.exec execname argvec program argsFit) r lost' s' ∧
      Sound kernelBlocks lost' s' := by
  obtain ⟨a, ha, hbody⟩ := Option.bind_eq_some_iff.mp call
  obtain ⟨hd, hcr3, hpd⟩ := h.current_dir ha
  obtain ⟨hs, he⟩ := h.current_flags ha
  split at hbody
  · next hrefuses =>
      obtain ⟨rfl, rfl⟩ := Prod.mk.inj (Option.some.inj hbody)
      exact ⟨lost, .nothing ⟨a, ha, hrefuses⟩ rfl rfl rfl rfl, h⟩
  next header haccepts =>
    obtain ⟨⟨pd, m1⟩, hinit, hrest⟩ := Option.bind_eq_some_iff.mp hbody
    obtain ⟨m, hload, hres⟩ := Option.map_eq_some_iff.mp hrest
    obtain ⟨rfl, rfl⟩ := Prod.mk.inj hres
    -- the page directory changes hands, so that the process has none
    have hrenamed := h.owned.rename (Equiv.swap (Owner.process s.current) (.abandoned lost.length))
    have hnone : (fun o => s.dirs lost (Equiv.swap (Owner.process s.current)
        (.abandoned lost.length) o)) (.process s.current) = none := by
      simp [Equiv.swap_apply_left, Vm.dirs]
    have hmem : s.memory.cr3 ∈ s.memory.heap := hcr3 ▸ h.owned.dir_mem hd
    have hentries : KernelEntries kernelBlocks s.memory.words s.memory.cr3 := by
      rw [hcr3]
      exact h.owned.kernel_entry _ _ hd
    obtain ⟨howned, hpd', hc, -, hothers, hloaded⟩ :=
      hrenamed.newImage hnone hmem hentries hnn hinit hload
    let s' := (s.setMemory m).setSpace s.current { a with pd := pd }
    have hdirs : s'.dirs (lost ++ [a.pd]) = Function.update (fun o => s.dirs lost
        (Equiv.swap (Owner.process s.current) (.abandoned lost.length) o))
          (.process s.current) (some pd) := by
      have hup : s'.dirs (lost ++ [a.pd]) = Function.update (s.dirs (lost ++ [a.pd]))
          (.process s.current) (if pd = 0 then none else some pd) :=
        Vm.dirs_update (b := { a with pd := pd }) rfl
      rw [hup, if_neg hpd', s.dirs_abandon ha hpd, Function.update_idem]
    refine ⟨lost ++ [a.pd], .exec ha haccepts rfl rfl rfl (fun o i j ho ho' => ?_)
      (fun i j => ?_) (fun i j => ?_), ⟨?_, ⟨{ a with pd := pd }, ?_, hs, he, hc⟩,
      fun {p x} hx hxs => ?_, fun {p x} hx hxe => ?_, fun {p} hp => ?_⟩⟩
    · show frameAt m.words (s'.dirs (lost ++ [a.pd])) o i j = _
      rw [hdirs]
      refine (hothers o i j ho).trans ?_
      show frameAt _ (fun o => s.dirs lost (Equiv.swap (Owner.process s.current)
        (.abandoned lost.length) o)) o i j = frameAt _ (s.dirs lost) o i j
      simp only [frameAt, tableAt, Equiv.swap_apply_of_ne_of_ne ho ho']
    · show frameAt m.words (s'.dirs (lost ++ [a.pd])) (.abandoned lost.length) i j = _
      rw [hdirs]
      refine (hothers _ i j (by simp)).trans ?_
      show frameAt _ (fun o => s.dirs lost (Equiv.swap (Owner.process s.current)
        (.abandoned lost.length) o)) (.abandoned lost.length) i j = frameAt _ (s.dirs lost) _ i j
      simp only [frameAt, tableAt, Equiv.swap_apply_right]
    · show (frameAt m.words (s'.dirs (lost ++ [a.pd])) (.process s.current) i j).isSome ↔ _
      rw [hdirs]
      exact hloaded i j
    · show Owned kernelBlocks m (s'.dirs (lost ++ [a.pd]))
      rw [hdirs]
      exact howned
    · exact Function.update_self ..
    · by_cases hp : p = s.current
      · subst hp
        obtain rfl : { a with pd := pd } = x := by
          simpa [Vm.setSpace, Vm.setMemory] using hx
        exact hpd'
      · exact h.scheduled_pd (by simpa [Vm.setSpace, Vm.setMemory, hp] using hx) hxs
    · by_cases hp : p = s.current
      · subst hp
        obtain rfl : { a with pd := pd } = x := by
          simpa [Vm.setSpace, Vm.setMemory] using hx
        exact hs
      · exact h.exited_scheduled (by simpa [Vm.setSpace, Vm.setMemory, hp] using hx) hxe
    · have hnone := h.fresh (p := p) hp
      have hpc : p ≠ s.current := by
        rintro rfl
        rw [show s.spaces s.current = some a from ha] at hnone
        cases hnone
      simpa [Vm.setSpace, Vm.setMemory, hpc] using hnone

/-! ### `wait`, `vanish` and switches -/

theorem wait (h : Sound kernelBlocks lost s) (call : s.sysWait = some (s', r)) :
    StepEffect s lost .wait r lost s' ∧ Sound kernelBlocks lost s' := by
  obtain ⟨a, ha, hbody⟩ := Option.bind_eq_some_iff.mp call
  obtain ⟨hs, he⟩ := h.current_flags ha
  obtain ⟨-, hcr3, hpd⟩ := h.current_dir ha
  split at hbody
  · next hfind =>
      obtain ⟨rfl, rfl⟩ := Prod.mk.inj (Option.some.inj hbody)
      exact ⟨.nothing ⟨a, ha, hfind⟩ rfl rfl rfl rfl, h⟩
  next c hfind =>
    obtain ⟨b, hb, hrest⟩ := Option.bind_eq_some_iff.mp hbody
    obtain ⟨m, hdestroy, hres⟩ := Option.map_eq_some_iff.mp hrest
    obtain ⟨rfl, rfl⟩ := Prod.mk.inj hres
    have hexited : b.exited = true := by
      have hfound := List.find?_some hfind
      simpa [Vm.hasExited, hb] using hfound
    have hbpd : b.pd ≠ 0 := h.scheduled_pd hb (h.exited_scheduled hb hexited)
    have hne : s.current ≠ c := by
      rintro rfl
      obtain rfl : b = a := Option.some.inj (hb.symm.trans ha)
      rw [he] at hexited
      cases hexited
    have hdir : s.dirs lost (.process c) = some b.pd := s.dirs_process hb hbpd
    obtain ⟨hev, hnone, hframes⟩ := h.owned.destroyPageDirectory hdir hdestroy
    have hdropped := hev.owned.dropDir hdir hnone
    -- the parent's block first, then the child's
    let s1 := s.setSpace s.current { a with children := a.children.erase c }
    have hdirs1 : s1.dirs lost = s.dirs lost :=
      Vm.dirs_same (b := { a with children := a.children.erase c }) ha rfl rfl
    let s' : Vm := { (s.setMemory (m.sfree b.pd)).setSpace s.current
        { a with children := a.children.erase c } with
      spaces := Function.update s1.spaces c none }
    have hdirs : s'.dirs lost = Function.update (s.dirs lost) (.process c) none := by
      rw [← hdirs1]
      exact Vm.dirs_remove (s := s1) rfl
    have hold : ∀ {p x}, s'.spaces p = some x →
        (p = s.current ∧ x = { a with children := a.children.erase c }) ∨ s.spaces p = some x := by
      intro p x hx
      rw [show s'.spaces = Function.update s1.spaces c none from rfl, Function.update_apply] at hx
      split at hx
      · cases hx
      rw [show s1.spaces = Function.update s.spaces s.current
        (some { a with children := a.children.erase c }) from rfl, Function.update_apply] at hx
      split at hx
      · next hp => exact Or.inl ⟨hp, (Option.some.inj hx).symm⟩
      · exact Or.inr hx
    refine ⟨.reap ha hb hfind rfl rfl rfl fun o i j ho => ?_, ⟨?_,
      ⟨{ a with children := a.children.erase c }, ?_, hs, he, ?_⟩, fun {p x} hx hxs => ?_,
      fun {p x} hx hxe => ?_, fun {p} hp => ?_⟩⟩
    · show frameAt m.words (s'.dirs lost) o i j = frameAt s.memory.words (s.dirs lost) o i j
      have hsame : s'.dirs lost o = s.dirs lost o := by rw [hdirs, Function.update_of_ne ho]
      rw [← hframes o i j ho]
      simp only [frameAt, tableAt, hsame]
    · show Owned kernelBlocks (m.sfree b.pd) (s'.dirs lost)
      rw [hdirs]
      exact hdropped
    · show Function.update s1.spaces c none s.current = _
      rw [Function.update_of_ne hne]
      exact Function.update_self ..
    · show m.cr3 = a.pd
      rw [hev.cr3, hcr3]
    · rcases hold hx with ⟨-, rfl⟩ | hx
      · exact hpd
      · exact h.scheduled_pd hx hxs
    · rcases hold hx with ⟨-, rfl⟩ | hx
      · exact hs
      · exact h.exited_scheduled hx hxe
    · have hnone := h.fresh (p := p) hp
      have hpc : p ≠ s.current := by
        rintro rfl
        rw [show s.spaces s.current = some a from ha] at hnone
        cases hnone
      show Function.update s1.spaces c none p = none
      rw [Function.update_apply]
      split
      · rfl
      · exact (Function.update_of_ne hpc ..).trans hnone

/-- What `context_switch` needs and leaves. -/
theorem switch (s' : Vm) {next : Nat} (hdirs : s'.dirs lost = s.dirs lost)
    (howned : Owned kernelBlocks s.memory (s.dirs lost))
    (hpd : ∀ {p x}, s'.spaces p = some x → x.scheduled = true → x.pd ≠ 0)
    (hexit : ∀ {p x}, s'.spaces p = some x → x.exited = true → x.scheduled = true)
    (hfresh : ∀ {p}, s'.nextPid ≤ p → s'.spaces p = none) (hmem : s'.memory = s.memory)
    {t : Vm} (call : s'.contextSwitch next = some t) :
    t.spaces = s'.spaces ∧ t.current = next ∧ t.nextPid = s'.nextPid ∧
      t.memory.words = s'.memory.words ∧ Sound kernelBlocks lost t := by
  obtain ⟨b, hb, hbody⟩ := Option.bind_eq_some_iff.mp call
  split at hbody
  · next hrun =>
      obtain rfl := Option.some.inj hbody
      refine ⟨rfl, rfl, rfl, rfl, ⟨?_, ⟨b, hb, hrun.1, hrun.2, rfl⟩, hpd, hexit, hfresh⟩⟩
      have hsame : Vm.dirs { s'.setMemory (s'.memory.setCr3 b.pd) with current := next } lost
          = s.dirs lost := hdirs
      rw [hsame]
      exact howned.congr (by rw [← hmem]; rfl) (by rw [← hmem]; rfl) (by rw [← hmem]; rfl)
  · cases hbody

theorem contextSwitch (h : Sound kernelBlocks lost s) {next : Nat}
    (call : s.contextSwitch next = some s') :
    StepEffect s lost (.contextSwitch next) 0 lost s' ∧ Sound kernelBlocks lost s' := by
  obtain ⟨hspaces, hcurrent, hpid, hwords, hsound⟩ :=
    switch s rfl h.owned h.scheduled_pd h.exited_scheduled h.fresh rfl call
  exact ⟨.contextSwitch hspaces hcurrent hpid hwords, hsound⟩

theorem vanish (h : Sound kernelBlocks lost s) {next : Nat}
    (call : s.sysVanish next = some s') :
    StepEffect s lost (.vanish next) 0 lost s' ∧ Sound kernelBlocks lost s' := by
  obtain ⟨a, ha, hbody⟩ := Option.bind_eq_some_iff.mp call
  obtain ⟨hs, -⟩ := h.current_flags ha
  obtain ⟨-, -, hpd⟩ := h.current_dir ha
  have hold : ∀ {p x}, (s.setSpace s.current { a with exited := true }).spaces p = some x →
      (p = s.current ∧ x = { a with exited := true }) ∨ s.spaces p = some x := by
    intro p x hx
    rw [show (s.setSpace s.current { a with exited := true }).spaces = Function.update s.spaces
      s.current (some { a with exited := true }) from rfl, Function.update_apply] at hx
    split at hx
    · next hp => exact Or.inl ⟨hp, (Option.some.inj hx).symm⟩
    · exact Or.inr hx
  obtain ⟨hspaces, hcurrent, hpid, hwords, hsound⟩ := switch
    (s.setSpace s.current { a with exited := true })
    (Vm.dirs_same (b := { a with exited := true }) ha rfl rfl) h.owned
    (fun hx hxs => by
      rcases hold hx with ⟨-, rfl⟩ | hx
      · exact hpd
      · exact h.scheduled_pd hx hxs)
    (fun hx hxe => by
      rcases hold hx with ⟨-, rfl⟩ | hx
      · exact hs
      · exact h.exited_scheduled hx hxe)
    (fun {p} hp => by
      have hnone := h.fresh (p := p) hp
      have hpc : p ≠ s.current := by
        rintro rfl
        rw [show s.spaces s.current = some a from ha] at hnone
        cases hnone
      exact (Function.update_of_ne hpc ..).trans hnone) rfl hbody
  exact ⟨.vanish ha hspaces hcurrent hpid hwords, hsound⟩

/-! ## Every step -/

/-- The effect does not depend on the answers that lie ready. -/
theorem effect_of_supply {answers : List Answer} {c : Call} {lost' : List Nat}
    (h : StepEffect (s.supply answers) lost c r lost' s') : StepEffect s lost c r lost' s' := by
  cases h with
  | nothing hrefused hspaces hcurrent hpid hwords =>
      exact .nothing hrefused hspaces hcurrent hpid hwords
  | newPages hspace hchecks hspaces hcurrent hpid hmaps =>
      exact .newPages hspace hchecks hspaces hcurrent hpid hmaps
  | removePages hspace haddr hfound hspaces hcurrent hpid hunmaps =>
      exact .removePages hspace haddr hfound hspaces hcurrent hpid hunmaps
  | fork hspace hblank hresult hspaces hcurrent hpid hothers hcopy =>
      exact .fork hspace hblank hresult hspaces hcurrent hpid hothers hcopy
  | exec hspace haccepts hspaces hcurrent hpid hothers hlost hloaded =>
      exact .exec hspace haccepts hspaces hcurrent hpid hothers hlost hloaded
  | reap hspace hchild hfound hspaces hcurrent hpid hothers =>
      exact .reap hspace hchild hfound hspaces hcurrent hpid hothers
  | vanish hspace hspaces hcurrent hpid hwords => exact .vanish hspace hspaces hcurrent hpid hwords
  | contextSwitch hspaces hcurrent hpid hwords =>
      exact .contextSwitch hspaces hcurrent hpid hwords

end Sound

/-- **What is asked of `memalign`**: inside `sys_fork`, which tests for `NULL`, the blocks are
filled with zeros; elsewhere, where it is not tested for, no answer is `NULL`. -/
def Event.WellServed (e : Event) : Prop :=
  match e.call with
  | .fork => ZeroFilled e.answers
  | _ => NonNull e.answers

/-- **Every step** of a well-served event has its effect and keeps the invariant. -/
theorem Sound.step (h : Sound kernelBlocks lost s) {e : Event} (hserved : e.WellServed)
    (hstep : s.step e = some (s', r)) :
    ∃ lost', StepEffect s lost e.call r lost' s' ∧ Sound kernelBlocks lost' s' := by
  obtain ⟨⟨t, r'⟩, hcode, hend⟩ := Option.bind_eq_some_iff.mp hstep
  split at hend
  · obtain ⟨rfl, rfl⟩ := Prod.mk.inj (Option.some.inj hend)
    have h0 := h.supply e.answers
    obtain ⟨c, answers⟩ := e
    cases c with
    | newPages addr len =>
        obtain ⟨heffect, hsound⟩ := h0.newPages hserved hcode
        exact ⟨lost, effect_of_supply heffect, hsound⟩
    | removePages addr =>
        obtain ⟨heffect, hsound⟩ := h0.removePages hcode
        exact ⟨lost, effect_of_supply heffect, hsound⟩
    | fork =>
        obtain ⟨heffect, hsound, -⟩ := h0.fork hserved hcode
        exact ⟨lost, effect_of_supply heffect, hsound⟩
    | exec execname argvec program argsFit =>
        obtain ⟨lost', heffect, hsound⟩ := h0.exec hserved hcode
        exact ⟨lost', effect_of_supply heffect, hsound⟩
    | wait =>
        obtain ⟨heffect, hsound⟩ := h0.wait hcode
        exact ⟨lost, effect_of_supply heffect, hsound⟩
    | vanish next =>
        obtain ⟨t', hrun, hres⟩ := Option.map_eq_some_iff.mp
          (show ((s.supply answers).sysVanish next).map (·, (0 : Int)) = some (t, r') from hcode)
        obtain ⟨rfl, rfl⟩ := Prod.mk.inj hres
        obtain ⟨heffect, hsound⟩ := h0.vanish hrun
        exact ⟨lost, effect_of_supply heffect, hsound⟩
    | contextSwitch next =>
        obtain ⟨t', hrun, hres⟩ := Option.map_eq_some_iff.mp
          (show ((s.supply answers).contextSwitch next).map (·, (0 : Int)) = some (t, r') from hcode)
        obtain ⟨rfl, rfl⟩ := Prod.mk.inj hres
        obtain ⟨heffect, hsound⟩ := h0.contextSwitch hrun
        exact ⟨lost, effect_of_supply heffect, hsound⟩
  · cases hend

end

end Pebbles.Memory
