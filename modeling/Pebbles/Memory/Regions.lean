import Pebbles.Memory.Isolation

/-! # The list of regions

Beside the kernel a history is kept of what `sys_new_pages` made in the address space of each
process and `sys_remove_pages` has not taken away: a forked process starts with what its parent
has, and a new image with nothing. The `va` lists follow this history exactly as long as no
process with regions forks or executes a program, for `sys_fork` gives the child an empty list and
`sys_exec` keeps the list of the old image. -/

namespace Pebbles.Memory

open Transition

/-! ## The history -/

/-- The kernel with the regions of each address space. -/
structure Tracked where
  /-- The kernel. -/
  vm : Vm
  /-- The regions that were made in the address space of a process and not removed. -/
  regions : Nat → List VaInfo

/-- What becomes of the regions when the call `c` returns `r` in the state `s`. -/
def regionsAfter (s : Vm) (regions : Nat → List VaInfo) (c : Call) (r : Int) :
    Nat → List VaInfo :=
  let here := regions s.current
  match c with
  | .newPages addr len =>
      if r = 0 then Function.update regions s.current (here ++ [⟨addr.toNat, len.toInt.toNat⟩])
      else regions
  | .removePages addr =>
      if r = 0 then
        Function.update regions s.current (here.eraseP fun x => x.virtualAddr = addr.toNat)
      else regions
  | .fork => if r = -1 then regions else Function.update regions r.toNat here
  | .exec .. => if r = 0 then Function.update regions s.current [] else regions
  | .wait | .vanish _ | .contextSwitch _ => regions

/-- One step of the kernel, with the history. -/
def TrackedStep (t : Tracked) (e : Event) (t' : Tracked) : Prop :=
  ∃ r, t.vm.step e = some (t'.vm, r) ∧ t'.regions = regionsAfter t.vm t.regions e.call r

/-- The steps under whose events `memalign` behaves as the kernel takes for granted. -/
abbrev TrackedServedStep : Tracked → Event → Tracked → Prop :=
  Guarded TrackedStep fun _ e => e.WellServed

/-- **The lists agree with the history**, for every process that can run and has not exited. -/
def RegionsAgree (t : Tracked) : Prop :=
  ∀ p a, t.vm.spaces p = some a → a.scheduled = true → a.exited = false → a.va = t.regions p

/-- A process whose list is not empty makes no child and starts no program. -/
def ListEmptyAtImageChange (t : Tracked) (e : Event) : Prop :=
  ∀ a, t.vm.currentSpace = some a →
    match e.call with
    | .fork => t.vm.ForkServed e.answers → a.va = []
    | .exec execname argvec program argsFit =>
        execAccepts t.vm.memory a.pd execname.toNat argvec.toNat program argsFit ≠ none → a.va = []
    | _ => True

/-! ## One step -/

/-- `list_delete` of the region found first is the removal of the first region with its address. -/
theorem erase_find {l : List VaInfo} {addr : Nat} {region : VaInfo}
    (h : l.find? (fun x => x.virtualAddr = addr) = some region) :
    l.erase region = l.eraseP fun x => x.virtualAddr = addr := by
  induction l with
  | nil => cases h
  | cons x l ih =>
      by_cases hx : x.virtualAddr = addr
      · rw [List.find?_cons_of_pos (by simpa using hx)] at h
        obtain rfl := Option.some.inj h
        rw [List.erase_cons_head, List.eraseP_cons_of_pos (by simpa using hx)]
      · rw [List.find?_cons_of_neg (by simpa using hx)] at h
        have hne : x ≠ region := by
          rintro rfl
          exact hx (by simpa using List.find?_some h)
        rw [List.erase_cons_tail (by simpa using hne), List.eraseP_cons_of_neg (by simpa using hx),
          ih h]

section
variable {kernelBlocks : Nat → Nat} {lost lost' : List Nat} {t t' : Tracked} {c : Call} {r : Int}
  {a b : AddressSpace}

/-- The lists after the control block of the running process was written, and its regions. -/
theorem RegionsAgree.write (h : RegionsAgree t) {l : List VaInfo}
    (hspaces : t'.vm.spaces = Function.update t.vm.spaces t.vm.current (some b))
    (hregions : t'.regions = Function.update t.regions t.vm.current l)
    (hb : b.scheduled = true → b.exited = false → b.va = l) : RegionsAgree t' := by
  intro p x hx hsched hexit
  rw [hspaces] at hx
  rw [hregions]
  rcases update_cases hx with ⟨rfl, rfl⟩ | ⟨hp, hx⟩
  · rw [Function.update_self]
    exact hb hsched hexit
  · rw [Function.update_of_ne hp]
    exact h p x hx hsched hexit

/-- The lists after the control block of the running process was written, but not its list. -/
theorem RegionsAgree.keep (h : RegionsAgree t) (ha : t.vm.currentSpace = some a)
    (hspaces : t'.vm.spaces = Function.update t.vm.spaces t.vm.current (some b))
    (hregions : t'.regions = t.regions) (hva : b.va = a.va) (hsched : b.scheduled = a.scheduled)
    (hexit : b.exited = false → a.exited = false) : RegionsAgree t' := by
  refine h.write (l := t.regions t.vm.current) hspaces ?_ fun hs he => ?_
  · rw [hregions, Function.update_eq_self]
  · rw [hva]
    exact h t.vm.current a ha (hsched ▸ hs) (hexit he)

/-- **One step** from a state in which the lists agree leads to such a state exactly when it is
not a child or a program for a process whose list is not empty. -/
theorem Sound.regionsAgree_step (h : Sound kernelBlocks lost t.vm) (hagree : RegionsAgree t)
    {e : Event} (hstep : TrackedServedStep t e t') :
    RegionsAgree t' ↔ ListEmptyAtImageChange t e := by
  obtain ⟨⟨r, hrun, hregions⟩, hserved⟩ := hstep
  obtain ⟨c, answers⟩ := e
  obtain ⟨lost', heffect, -⟩ := h.step hserved hrun
  have hfork : c = .fork → (r ≠ -1 ↔ t.vm.ForkServed answers) := by
    rintro rfl
    obtain ⟨⟨u, r'⟩, hcode, hend⟩ := Option.bind_eq_some_iff.mp hrun
    split at hend
    · next hempty =>
        obtain ⟨rfl, rfl⟩ := Prod.mk.inj (Option.some.inj hend)
        exact ((h.supply answers).fork hserved hcode).2.2 (List.isEmpty_iff.mp hempty)
    · cases hend
  cases heffect with
  | nothing hrefused hspaces _ _ _ =>
      -- nothing happens, and the condition asks for nothing
      have hsame : t'.regions = t.regions := by
        rw [hregions]
        cases c <;> rfl
      refine iff_of_true (fun p x hx => ?_) fun a ha => ?_
      · rw [hspaces] at hx
        rw [hsame]
        exact hagree p x hx
      · obtain ⟨a', ha', hnone⟩ := hrefused
        obtain rfl : a' = a := Option.some.inj (ha'.symm.trans ha)
        cases c with
        | fork => exact fun hs => absurd hs ((hfork rfl).not.mp (by simp))
        | exec execname argvec program argsFit => exact fun hs => absurd hnone hs
        | _ => trivial
  | @newPages addr len a _ hspace _ hspaces _ _ _ =>
      refine iff_of_true ?_ fun _ _ => trivial
      refine hagree.write hspaces hregions fun hs he => ?_
      show a.va ++ _ = _
      rw [hagree t.vm.current a hspace hs he]
  | @removePages addr a region _ hspace _ hfound hspaces _ _ _ =>
      refine iff_of_true ?_ fun _ _ => trivial
      refine hagree.write hspaces hregions fun hs he => ?_
      show a.va.erase region = _
      rw [erase_find hfound, hagree t.vm.current a hspace hs he]
  | @fork a b _ _ hspace hblank hresult hspaces _ _ _ _ =>
      have hlive := h.current_flags hspace
      have hparent : a.va = t.regions t.vm.current := hagree _ a hspace hlive.1 hlive.2
      have hpid : (t.vm.nextPid : Int) ≠ -1 := by omega
      -- the history of the child is that of the parent, if there is a child
      have hsched : b.scheduled = true ↔ t.vm.ForkServed answers := by
        rw [← hfork rfl, hresult]
        cases b.scheduled with
        | true => exact iff_of_true rfl hpid
        | false => exact iff_of_false (by simp) fun hne => hne rfl
      have hold : ∀ p x, p ≠ t.vm.nextPid → t'.vm.spaces p = some x → x.scheduled = true →
          x.exited = false → x.va = t.regions p := by
        intro p x hp hx hs he
        rw [hspaces, Function.update_of_ne hp] at hx
        rcases update_cases hx with ⟨rfl, rfl⟩ | ⟨-, hx⟩
        · exact hparent
        · exact hagree p x hx hs he
      have hchild : t'.vm.spaces t.vm.nextPid = some b := by
        rw [hspaces, Function.update_self]
      have hregion : b.scheduled = true →
          t'.regions = Function.update t.regions t.vm.nextPid (t.regions t.vm.current) := by
        intro hb
        rw [hregions, hresult, if_pos hb]
        simp only [regionsAfter, if_neg hpid, Int.toNat_natCast]
      constructor
      · intro hagree' a' ha' hs
        obtain rfl : a = a' := Option.some.inj (hspace.symm.trans ha')
        have hb := hsched.mpr hs
        have hva := hagree' _ b hchild hb hblank.2.2
        rw [hregion hb, Function.update_self, hblank.1] at hva
        exact hparent.trans hva.symm
      · intro hcond p x hx hs he
        by_cases hp : p = t.vm.nextPid
        · subst hp
          obtain rfl : b = x := Option.some.inj (hchild.symm.trans hx)
          rw [hregion hs, Function.update_self, hblank.1, ← hparent]
          exact (hcond a hspace (hsched.mp hs)).symm
        · rw [hold p x hp hx hs he]
          cases hb : b.scheduled with
          | true => rw [hregion hb, Function.update_of_ne hp]
          | false =>
              rw [hregions, hresult, hb]
              rfl
  | @exec execname argvec program argsFit a header pd _ hspace haccepts hspaces _ _ _ _ _ =>
      have hlive := h.current_flags hspace
      have hregion : t'.regions = Function.update t.regions t.vm.current [] := hregions
      constructor
      · intro hagree' a' ha' _
        obtain rfl : a = a' := Option.some.inj (hspace.symm.trans ha')
        have hself : t'.vm.spaces t.vm.current = some { a with pd := pd } := by
          rw [hspaces, Function.update_self]
        have hva := hagree' _ _ hself hlive.1 hlive.2
        rwa [hregion, Function.update_self] at hva
      · intro hcond
        refine hagree.write hspaces hregion fun _ _ => ?_
        exact hcond a hspace (by rw [haccepts]; simp)
  | @reap a b child _ hspace _ _ hspaces _ _ _ =>
      refine iff_of_true (fun p x hx hs he => ?_) fun _ _ => trivial
      rw [hspaces, Function.update_apply] at hx
      split at hx
      · cases hx
      · rw [show t'.regions = t.regions from hregions]
        rcases update_cases hx with ⟨rfl, rfl⟩ | ⟨-, hx⟩
        · exact hagree _ a hspace hs he
        · exact hagree p x hx hs he
  | @vanish next a _ hspace hspaces _ _ _ =>
      refine iff_of_true ?_ fun _ _ => trivial
      exact hagree.keep hspace hspaces hregions rfl rfl fun he => by cases he
  | contextSwitch hspaces _ _ _ =>
      refine iff_of_true (fun p x hx => ?_) fun _ _ => trivial
      rw [hspaces] at hx
      rw [show t'.regions = t.regions from hregions]
      exact hagree p x hx

end

/-! ## Whole runs -/

end Pebbles.Memory
