import Pebbles.Memory.KernelHeap
import Mathlib.Data.List.Nodup

/-! # A life cycle never returns the kernel heap to where it was

`sys_wait` releases the page tables, the page directory and the `PCB` of the child it reaps, the
first two with a function that does not belong to their allocator. Nobody releases the `TCB` and the
kernel stack of the child: the loop of `sys_vanish` spares the thread it runs on. -/

namespace Pebbles.Memory

open Transition

/-! ## What the system calls do to the running process and to `next_pid` -/

namespace Vm

variable {s s' : Vm} {r : Int} {next : Nat}

/-- The step stays in its process and makes no new one. -/
structure Stays (s s' : Vm) : Prop where
  current : s'.current = s.current
  nextPid : s'.nextPid = s.nextPid

theorem stays_sysNewPages {addr : UInt32} {len : Int32} (hs : s.sysNewPages addr len = some (s', r)) :
    Stays s s' := by
  obtain ⟨a, -, hs⟩ := Option.bind_eq_some_iff.mp hs
  split_ifs at hs
  · obtain ⟨m, -, heq⟩ := Option.map_eq_some_iff.mp hs
    obtain ⟨rfl, -⟩ := Prod.mk.inj heq
    exact ⟨rfl, rfl⟩
  · obtain ⟨rfl, -⟩ := Prod.mk.inj (Option.some.inj hs)
    exact ⟨rfl, rfl⟩

theorem stays_sysRemovePages {addr : UInt32} (hs : s.sysRemovePages addr = some (s', r)) :
    Stays s s' := by
  obtain ⟨a, -, hs⟩ := Option.bind_eq_some_iff.mp hs
  have stay : some (s, (-1 : Int)) = some (s', r) → Stays s s' := by
    intro heq
    obtain ⟨rfl, -⟩ := Prod.mk.inj (Option.some.inj heq)
    exact ⟨rfl, rfl⟩
  simp only at hs
  split_ifs at hs
  · exact stay hs
  · exact stay hs
  · exact stay hs
  · exact stay hs
  · split at hs
    · exact stay hs
    · obtain ⟨m, -, heq⟩ := Option.map_eq_some_iff.mp hs
      obtain ⟨rfl, -⟩ := Prod.mk.inj heq
      exact ⟨rfl, rfl⟩

theorem stays_sysWait (hs : s.sysWait = some (s', r)) : Stays s s' := by
  obtain ⟨a, -, hs⟩ := Option.bind_eq_some_iff.mp hs
  split at hs
  · obtain ⟨rfl, -⟩ := Prod.mk.inj (Option.some.inj hs)
    exact ⟨rfl, rfl⟩
  · obtain ⟨b, -, hs⟩ := Option.bind_eq_some_iff.mp hs
    obtain ⟨m, -, heq⟩ := Option.map_eq_some_iff.mp hs
    obtain ⟨rfl, -⟩ := Prod.mk.inj heq
    exact ⟨rfl, rfl⟩

/-- `sys_fork`, from the answer of `find_free_entry` on, uses up a process id. -/
theorem sysFork_current {a : AddressSpace} {entry : EntryInfo} (space : s.currentSpace = some a)
    (free : findFreeEntry s.memory a.pd = some entry) (hs : s.sysFork = some (s', r)) :
    s'.current = s.current ∧ s'.nextPid = s.nextPid + 1 := by
  obtain ⟨b, hb, hs⟩ := Option.bind_eq_some_iff.mp hs
  rw [space] at hb
  obtain rfl := Option.some.inj hb
  split at hs
  · next hnone =>
      rw [free] at hnone
      cases hnone
  · obtain ⟨⟨pd, m⟩, -, hs⟩ := Option.bind_eq_some_iff.mp hs
    dsimp only at hs
    split_ifs at hs
    · obtain ⟨rfl, rfl⟩ := Prod.mk.inj (Option.some.inj hs)
      exact ⟨rfl, rfl⟩
    · obtain ⟨⟨done, m'⟩, -, heq⟩ := Option.map_eq_some_iff.mp hs
      obtain ⟨rfl, rfl⟩ := Prod.mk.inj heq
      exact ⟨rfl, rfl⟩

theorem contextSwitch_current (hs : s.contextSwitch next = some s') :
    s'.current = next ∧ s'.nextPid = s.nextPid := by
  obtain ⟨b, -, hs⟩ := Option.bind_eq_some_iff.mp hs
  split_ifs at hs
  obtain rfl := Option.some.inj hs
  exact ⟨rfl, rfl⟩

theorem sysVanish_current (hs : s.sysVanish next = some s') :
    s'.current = next ∧ s'.nextPid = s.nextPid := by
  obtain ⟨a, -, hs⟩ := Option.bind_eq_some_iff.mp hs
  obtain ⟨hcurrent, hpid⟩ := contextSwitch_current hs
  exact ⟨hcurrent, hpid⟩

end Vm

/-! ## The invariant -/

namespace HeapVm

/-- The block of a `PCB`. -/
def pcbBlock (t : TaskBlocks) : Block := ⟨t.pcb, sizeofPcb, .sizeKept⟩

/-- **The control blocks**: each process has a block for its `PCB`, and one thread. -/
structure Tidy (h : HeapVm) : Prop where
  /-- The blocks are at different addresses. -/
  nodup : (h.small.map Block.address).Nodup
  /-- A `PCB` is allocated. -/
  pcbs : ∀ p t, h.tasks p = some t → pcbBlock t ∈ h.small
  /-- For one process. -/
  distinct : ∀ p q t u, h.tasks p = some t → h.tasks q = some u → t.pcb = u.pcb → p = q
  /-- A process has one thread. -/
  single : ∀ p t, h.tasks p = some t → ∃ th, t.threads = [th]
  /-- The processes have been created. -/
  created : ∀ p t, h.tasks p = some t → p < h.vm.nextPid
  /-- So has the running one. -/
  current : h.vm.current < h.vm.nextPid
  /-- The running thread is that of the running process. -/
  running : ∀ t th, h.tasks h.vm.current = some t → th ∈ t.threads → th.tid = h.tid

/-- Blocks other than a `PCB` stay allocated, and releases are recorded. -/
structure Retains (h h' : HeapVm) : Prop where
  /-- The blocks. -/
  small : ∀ b ∈ h.small, b.size ≠ sizeofPcb → b ∈ h'.small
  /-- The releases. -/
  released : h.released.length ≤ h'.released.length

variable {h h' : HeapVm}

theorem Retains.same (small : h'.small = h.small) (released : h'.released = h.released) :
    Retains h h' :=
  ⟨fun _ hb _ => small ▸ hb, (congrArg List.length released).ge⟩

theorem Retains.trans {h1 : HeapVm} (hr : Retains h h1) (hr' : Retains h1 h') : Retains h h' :=
  ⟨fun b hb hsize => hr'.small b (hr.small b hb hsize) hsize, hr.released.trans hr'.released⟩

/-- The page tables of a process are not looked at. -/
theorem Tidy.setVm (ht : Tidy h) {vm : Vm} (current : vm.current = h.vm.current)
    (nextPid : h.vm.nextPid ≤ vm.nextPid) : Tidy (h.setVm vm) where
  nodup := ht.nodup
  pcbs := ht.pcbs
  distinct := ht.distinct
  single := ht.single
  created p t hp := (ht.created p t hp).trans_le nextPid
  current := by
    show vm.current < vm.nextPid
    rw [current]
    exact ht.current.trans_le nextPid
  running t th hp hth := by
    apply ht.running t th _ hth
    rw [← current]
    exact hp

/-- **What `malloc` answers**: `NULL`, or a new block. -/
theorem malloc_cases {size address : Nat} (hs : h.malloc size = some (address, h')) :
    (address = 0 ∧ h' = { h with answers := h'.answers }) ∨
      (address ≠ 0 ∧ ¬ h.InUse address ∧
        h' = { h with answers := h'.answers, small := ⟨address, size, .sizeKept⟩ :: h.small }) := by
  unfold malloc at hs
  split at hs
  · cases hs
  · split_ifs at hs with hnull hused
    · obtain ⟨rfl, rfl⟩ := Prod.mk.inj (Option.some.inj hs)
      exact Or.inl ⟨rfl, rfl⟩
    · obtain ⟨rfl, rfl⟩ := Prod.mk.inj (Option.some.inj hs)
      exact Or.inr ⟨hnull, hused, rfl⟩

/-- `malloc` only adds to the blocks. -/
theorem malloc_same {size address : Nat} (hs : h.malloc size = some (address, h')) :
    h'.vm = h.vm ∧ h'.tasks = h.tasks ∧ ∀ b ∈ h.small, b ∈ h'.small := by
  rcases malloc_cases hs with ⟨-, heq⟩ | ⟨-, -, heq⟩
  · rw [heq]
    exact ⟨rfl, rfl, fun b hb => hb⟩
  · rw [heq]
    exact ⟨rfl, rfl, fun b hb => List.mem_cons_of_mem _ hb⟩

/-- An answer that is not `NULL` is a new block. -/
theorem malloc_new {size address : Nat} (hs : h.malloc size = some (address, h'))
    (notNull : address ≠ 0) : ¬ h.InUse address ∧ ⟨address, size, .sizeKept⟩ ∈ h'.small := by
  rcases malloc_cases hs with ⟨hnull, -⟩ | ⟨-, hfree, heq⟩
  · exact absurd hnull notNull
  · rw [heq]
    exact ⟨hfree, List.mem_cons_self⟩

/-- A new block. -/
theorem Tidy.malloc (ht : Tidy h) {size address : Nat} (hs : h.malloc size = some (address, h')) :
    Tidy h' ∧ Retains h h' := by
  rcases malloc_cases hs with ⟨-, heq⟩ | ⟨-, hfree, heq⟩
  · rw [heq]
    exact ⟨⟨ht.nodup, ht.pcbs, ht.distinct, ht.single, ht.created, ht.current, ht.running⟩,
      Retains.same rfl rfl⟩
  · rw [heq]
    refine ⟨⟨?_, fun p t hp => List.mem_cons_of_mem _ (ht.pcbs p t hp), ht.distinct, ht.single,
      ht.created, ht.current, ht.running⟩, fun b hb _ => List.mem_cons_of_mem _ hb, le_refl _⟩
    exact List.nodup_cons.mpr ⟨fun hmem => hfree (Or.inl hmem), ht.nodup⟩

/-- **The release of a `PCB`** takes that block and no other. -/
theorem Tidy.release (ht : Tidy h) {t : TaskBlocks} (mem : pcbBlock t ∈ h.small)
    (hs : h.release (.free t.pcb) = some h') :
    h' = { h with
      small := h.small.erase (pcbBlock t)
      released := h.released ++ [(pcbBlock t, .free t.pcb)] } := by
  obtain ⟨b, hfind, rfl⟩ := Option.map_eq_some_iff.mp hs
  have haddress : b.address = (Release.free t.pcb).address := by
    simpa using List.find?_some hfind
  have hb : b = pcbBlock t :=
    List.inj_on_of_nodup_map ht.nodup (List.mem_of_find?_eq_some hfind) mem haddress
  rw [hb]

/-! ## The system calls keep the invariant -/

variable {r : Int} {next : Nat}

theorem Tidy.sysNewPages (ht : Tidy h) {addr : UInt32} {len : Int32}
    (hs : h.sysNewPages addr len = some (h', r)) : Tidy h' ∧ Retains h h' := by
  obtain ⟨⟨vm, result⟩, hvm, hs⟩ := Option.bind_eq_some_iff.mp hs
  have hstays := Vm.stays_sysNewPages hvm
  have htidy := ht.setVm hstays.current hstays.nextPid.ge
  dsimp only at hs
  split_ifs at hs
  · obtain ⟨⟨vaInfo, h1⟩, hmalloc, hs⟩ := Option.bind_eq_some_iff.mp hs
    dsimp only at hs
    split_ifs at hs
    obtain ⟨rfl, -⟩ := Prod.mk.inj (Option.some.inj hs)
    obtain ⟨ht1, hr1⟩ := htidy.malloc hmalloc
    exact ⟨ht1, hr1.small, hr1.released⟩
  · obtain ⟨rfl, -⟩ := Prod.mk.inj (Option.some.inj hs)
    exact ⟨htidy, Retains.same rfl rfl⟩

theorem Tidy.sysRemovePages (ht : Tidy h) {addr : UInt32}
    (hs : h.sysRemovePages addr = some (h', r)) : Tidy h' ∧ Retains h h' := by
  obtain ⟨⟨vm, result⟩, hvm, heq⟩ := Option.map_eq_some_iff.mp hs
  obtain ⟨rfl, -⟩ := Prod.mk.inj heq
  have hstays := Vm.stays_sysRemovePages hvm
  exact ⟨ht.setVm hstays.current hstays.nextPid.ge, Retains.same rfl rfl⟩

/-- The switch to a process that has been created. -/
theorem Tidy.setThread (ht : Tidy h) {vm : Vm} (nextPid : vm.nextPid = h.vm.nextPid)
    (hs : (h.setVm vm).setThread = some h') : Tidy h' ∧ Retains h h' := by
  obtain ⟨t, htask, hs⟩ := Option.bind_eq_some_iff.mp hs
  obtain ⟨th, hhead, rfl⟩ := Option.map_eq_some_iff.mp hs
  change h.tasks vm.current = some t at htask
  refine ⟨⟨ht.nodup, ht.pcbs, ht.distinct, ht.single, ?_, ?_, ?_⟩, Retains.same rfl rfl⟩
  · intro p u hp
    show p < vm.nextPid
    rw [nextPid]
    exact ht.created p u hp
  · show vm.current < vm.nextPid
    rw [nextPid]
    exact ht.created vm.current t htask
  · intro u x hu hx
    change h.tasks vm.current = some u at hu
    rw [htask] at hu
    obtain rfl := Option.some.inj hu
    obtain ⟨y, hy⟩ := ht.single vm.current t htask
    rw [hy] at hx hhead
    rw [List.mem_singleton.mp hx]
    exact congrArg ThreadBlocks.tid (Option.some.inj hhead)

theorem Tidy.contextSwitch (ht : Tidy h) (hs : h.contextSwitch next = some h') :
    Tidy h' ∧ Retains h h' := by
  obtain ⟨vm, hvm, hs⟩ := Option.bind_eq_some_iff.mp hs
  exact ht.setThread (Vm.contextSwitch_current hvm).2 hs

/-- **The loop of `sys_vanish` releases nothing**: the only thread is the one it runs on. -/
theorem Tidy.reapPeers (ht : Tidy h) {t : TaskBlocks} (task : h.tasks h.vm.current = some t) :
    h.reapPeers t.threads = some h := by
  obtain ⟨th, hth⟩ := ht.single _ t task
  have htid : th.tid = h.tid := ht.running t th task (by rw [hth]; exact List.mem_singleton_self th)
  rw [hth]
  show (if th.tid = h.tid then some h else _) >>= _ = _
  rw [if_pos htid]
  rfl

theorem Tidy.sysVanish (ht : Tidy h) (hs : h.sysVanish next = some h') :
    Tidy h' ∧ Retains h h' := by
  obtain ⟨t, htask, hs⟩ := Option.bind_eq_some_iff.mp hs
  obtain ⟨h1, hreap, hs⟩ := Option.bind_eq_some_iff.mp hs
  rw [ht.reapPeers htask] at hreap
  obtain rfl := Option.some.inj hreap
  obtain ⟨vm, hvm, hs⟩ := Option.bind_eq_some_iff.mp hs
  exact ht.setThread (Vm.sysVanish_current hvm).2 hs

/-- **`sys_wait`** releases the `PCB` of the child and, of the other blocks, pages only. -/
theorem Tidy.sysWait (ht : Tidy h) (hs : h.sysWait = some (h', r)) :
    (Tidy h' ∧ Retains h h') ∧ (r = -1 ∨ ∃ a, (pageBlock a, Release.sfree a pageSize) ∈
      h'.released.drop h.released.length) := by
  obtain ⟨⟨vm, result⟩, hvm, hs⟩ := Option.bind_eq_some_iff.mp hs
  have hstays := Vm.stays_sysWait hvm
  dsimp only at hs
  split_ifs at hs with hnone
  · obtain ⟨rfl, rfl⟩ := Prod.mk.inj (Option.some.inj hs)
    exact ⟨⟨ht.setVm hstays.current hstays.nextPid.ge, Retains.same rfl rfl⟩, Or.inl rfl⟩
  · obtain ⟨b, -, hs⟩ := Option.bind_eq_some_iff.mp hs
    obtain ⟨t, htask, hs⟩ := Option.bind_eq_some_iff.mp hs
    obtain ⟨h1, hrelease, heq⟩ := Option.map_eq_some_iff.mp hs
    obtain ⟨rfl, rfl⟩ := Prod.mk.inj heq
    have hvm' := ht.setVm hstays.current hstays.nextPid.ge
    have hmem := ht.pcbs _ t htask
    set h2 := ((h.logPages (pageTables h.vm.memory b.pd ++ [b.pd])).setVm vm).setTask
      result.toNat none with hh2
    have hother : ∀ p u, h2.tasks p = some u → p ≠ result.toNat ∧ h.tasks p = some u := by
      intro p u hp
      change Function.update h.tasks result.toNat none p = some u at hp
      by_cases hpc : p = result.toNat
      · rw [hpc, Function.update_self] at hp
        cases hp
      · rw [Function.update_of_ne hpc] at hp
        exact ⟨hpc, hp⟩
    have htidy : Tidy h2 :=
      ⟨ht.nodup, fun p u hp => ht.pcbs p u (hother p u hp).2,
        fun p q u v hp hq => ht.distinct p q u v (hother p u hp).2 (hother q v hq).2,
        fun p u hp => ht.single p u (hother p u hp).2,
        fun p u hp => hvm'.created p u (hother p u hp).2, hvm'.current,
        fun u x hu hx => hvm'.running u x (hother _ u hu).2 hx⟩
    have heq := htidy.release hmem hrelease
    rw [heq]
    refine ⟨⟨⟨?_, fun p u hp => ?_, htidy.distinct, htidy.single, htidy.created, htidy.current,
      htidy.running⟩, fun x hx hsize => ?_, ?_⟩, Or.inr ⟨b.pd, ?_⟩⟩
    · exact ht.nodup.sublist ((List.erase_sublist).map Block.address)
    · -- the `PCB` of another process is another block
      obtain ⟨hne, hp'⟩ := hother p u hp
      refine (List.mem_erase_of_ne fun hblock => hne ?_).mpr (ht.pcbs p u hp')
      exact ht.distinct p _ u t hp' htask (congrArg Block.address hblock)
    · refine (List.mem_erase_of_ne ?_).mpr hx
      rintro rfl
      exact hsize rfl
    · show _ ≤ (h.released ++ _ ++ _).length
      rw [List.append_assoc, List.length_append]
      exact Nat.le_add_right _ _
    · show _ ∈ (h.released ++ (pageTables h.vm.memory b.pd ++ [b.pd]).map _ ++ _).drop _
      rw [List.append_assoc, List.drop_left]
      exact List.mem_append_left _ (List.mem_map_of_mem (List.mem_append_right _
        (List.mem_singleton_self b.pd)))

/-- **`sys_fork`** gives the child a `PCB`, a kernel stack and a `TCB`, which is a new block. -/
theorem Tidy.sysFork (ht : Tidy h) (hs : h.sysFork = some (h', r)) :
    (Tidy h' ∧ Retains h h') ∧
      (r ≠ -1 → ∃ tcb, ¬ h.InUse tcb ∧ ⟨tcb, sizeofTcb, .sizeKept⟩ ∈ h'.small) := by
  have failed : ∀ {h1 : HeapVm}, Tidy h1 ∧ Retains h h1 →
      some (h1, (-1 : Int)) = some (h', r) → (Tidy h' ∧ Retains h h') ∧
        (r ≠ -1 → ∃ tcb, ¬ h.InUse tcb ∧ ⟨tcb, sizeofTcb, .sizeKept⟩ ∈ h'.small) := by
    intro h1 htidy heq
    obtain ⟨rfl, rfl⟩ := Prod.mk.inj (Option.some.inj heq)
    exact ⟨htidy, fun hne => absurd rfl hne⟩
  obtain ⟨⟨pcb, h1⟩, hpcb, hs⟩ := Option.bind_eq_some_iff.mp hs
  obtain ⟨ht1, hr1⟩ := ht.malloc hpcb
  dsimp only at hs
  split_ifs at hs with hpcb0
  · exact failed ⟨ht1, hr1⟩ hs
  obtain ⟨⟨tcb, h2⟩, htcb, hs⟩ := Option.bind_eq_some_iff.mp hs
  obtain ⟨ht2, hr2⟩ := ht1.malloc htcb
  dsimp only at hs
  split_ifs at hs with htcb0
  · exact failed ⟨ht2, hr1.trans hr2⟩ hs
  obtain ⟨a, hspace, hs⟩ := Option.bind_eq_some_iff.mp hs
  split at hs
  · exact failed ⟨ht2, hr1.trans hr2⟩ hs
  next entry hentry =>
  obtain ⟨parent, -, hs⟩ := Option.bind_eq_some_iff.mp hs
  obtain ⟨⟨stackBase, h3⟩, hstack, hs⟩ := Option.bind_eq_some_iff.mp hs
  have ht2' : Tidy { h2 with nextTid := h2.nextTid + 1 } :=
    ⟨ht2.nodup, ht2.pcbs, ht2.distinct, ht2.single, ht2.created, ht2.current, ht2.running⟩
  obtain ⟨ht3, hr3⟩ := ht2'.malloc hstack
  have hr : Retains h h3 := (hr1.trans hr2).trans ⟨hr3.small, hr3.released⟩
  dsimp only at hs
  split_ifs at hs with hstack0
  · exact failed ⟨ht3, hr⟩ hs
  obtain ⟨⟨vm, result⟩, hvm, heq⟩ := Option.map_eq_some_iff.mp hs
  obtain ⟨rfl, rfl⟩ := Prod.mk.inj heq
  -- the three blocks are new, and the address spaces are still those of before
  obtain ⟨hvm1, htasks1, hsub1⟩ := malloc_same hpcb
  obtain ⟨hvm2, htasks2, hsub2⟩ := malloc_same htcb
  obtain ⟨hvm3, htasks3, hsub3⟩ := malloc_same hstack
  change h3.vm = h2.vm at hvm3
  obtain ⟨hfreePcb, hmemPcb⟩ := malloc_new hpcb hpcb0
  obtain ⟨hfreeTcb, hmemTcb⟩ := malloc_new htcb htcb0
  have htasks : h3.tasks = h.tasks := htasks3.trans (htasks2.trans htasks1)
  rw [hvm3] at hvm
  obtain ⟨hcurrent, hpid⟩ := Vm.sysFork_current hspace hentry hvm
  rw [← hvm3] at hcurrent hpid
  have hneq : ∀ p u, h3.tasks p = some u → u.pcb ≠ pcb := by
    rintro p u hp rfl
    rw [htasks] at hp
    exact hfreePcb (Or.inl (List.mem_map_of_mem (ht.pcbs p u hp)))
  have hfreeTcb' : ¬ h.InUse tcb := by
    rintro (hmem | hmem)
    · obtain ⟨b, hb, haddress⟩ := List.mem_map.mp hmem
      exact hfreeTcb (Or.inl (List.mem_map.mpr ⟨b, hsub1 b hb, haddress⟩))
    · exact hfreeTcb (Or.inr (hvm1 ▸ hmem))
  refine ⟨⟨?_, hr.small, hr.released⟩, fun _ => ⟨tcb, hfreeTcb', hsub3 _ hmemTcb⟩⟩
  set child : TaskBlocks := ⟨pcb, [⟨h2.nextTid, tcb, stackBase, parent.stackSize⟩]⟩ with hchild
  have htask : ∀ p u, ((h3.setTask h3.vm.nextPid (some child)).setVm vm).tasks p = some u →
      (p = h3.vm.nextPid ∧ u = child) ∨ (p ≠ h3.vm.nextPid ∧ h3.tasks p = some u) := by
    intro p u hp
    change Function.update h3.tasks h3.vm.nextPid (some child) p = some u at hp
    by_cases hpc : p = h3.vm.nextPid
    · rw [hpc, Function.update_self] at hp
      exact Or.inl ⟨hpc, (Option.some.inj hp).symm⟩
    · rw [Function.update_of_ne hpc] at hp
      exact Or.inr ⟨hpc, hp⟩
  refine ⟨ht3.nodup, fun p u hp => ?_, fun p q u v hp hq heq => ?_, fun p u hp => ?_,
    fun p u hp => ?_, ?_, fun u x hu hx => ?_⟩
  · rcases htask p u hp with ⟨-, rfl⟩ | ⟨-, hp'⟩
    · exact hsub3 _ (hsub2 _ hmemPcb)
    · exact ht3.pcbs p u hp'
  · rcases htask p u hp with ⟨hpp, rfl⟩ | ⟨-, hp'⟩ <;> rcases htask q v hq with ⟨hqq, rfl⟩ | ⟨-, hq'⟩
    · rw [hpp, hqq]
    · exact absurd heq.symm (hneq q v hq')
    · exact absurd heq (hneq p u hp')
    · exact ht3.distinct p q u v hp' hq' heq
  · rcases htask p u hp with ⟨-, rfl⟩ | ⟨-, hp'⟩
    · exact ⟨_, rfl⟩
    · exact ht3.single p u hp'
  · show p < vm.nextPid
    rw [hpid]
    rcases htask p u hp with ⟨rfl, -⟩ | ⟨-, hp'⟩
    · exact Nat.lt_succ_self _
    · exact Nat.lt_succ_of_lt (ht3.created p u hp')
  · show vm.current < vm.nextPid
    rw [hpid, hcurrent]
    exact Nat.lt_succ_of_lt ht3.current
  · rcases htask _ u hu with ⟨hself, -⟩ | ⟨-, hu'⟩
    · -- the running process is not the child
      change vm.current = _ at hself
      rw [hcurrent] at hself
      exact absurd hself ht3.current.ne
    · change h3.tasks vm.current = some u at hu'
      rw [hcurrent] at hu'
      exact ht3.running u x hu' hx

/-! ## Runs -/

/-- The answers do not matter. -/
theorem Tidy.supply (ht : Tidy h) (e : HeapEvent) : Tidy (h.supply e) :=
  ⟨ht.nodup, ht.pcbs, ht.distinct, ht.single, ht.created, ht.current, ht.running⟩

/-- The step is the code of its call, with the answers lying ready. -/
theorem code_of_step {e : HeapEvent} (hs : h.step e = some (h', r)) :
    (h.supply e).code e.call = some (h', r) := by
  unfold step at hs
  split_ifs at hs
  obtain ⟨⟨h1, r1⟩, hcode, hs⟩ := Option.bind_eq_some_iff.mp hs
  dsimp only at hs
  split_ifs at hs
  rw [hcode]
  exact hs

/-- **Step lemma.** -/
theorem Tidy.step (ht : Tidy h) {e : HeapEvent} (hs : h.Step e h') : Tidy h' ∧ Retains h h' := by
  obtain ⟨r, hs⟩ := hs
  have hcode := code_of_step hs
  have hts := ht.supply e
  have plain : Tidy h' ∧ Retains (h.supply e) h' → Tidy h' ∧ Retains h h' :=
    fun hnext => ⟨hnext.1, hnext.2.small, hnext.2.released⟩
  cases hcall : e.call with
  | newPages addr len =>
      rw [hcall] at hcode
      exact plain (hts.sysNewPages hcode)
  | removePages addr =>
      rw [hcall] at hcode
      exact plain (hts.sysRemovePages hcode)
  | fork =>
      rw [hcall] at hcode
      exact plain (hts.sysFork hcode).1
  | wait =>
      rw [hcall] at hcode
      exact plain (hts.sysWait hcode).1
  | vanish next =>
      rw [hcall] at hcode
      obtain ⟨h1, hvanish, heq⟩ := Option.map_eq_some_iff.mp hcode
      obtain ⟨rfl, -⟩ := Prod.mk.inj heq
      exact plain (hts.sysVanish hvanish)
  | contextSwitch next =>
      rw [hcall] at hcode
      obtain ⟨h1, hswitch, heq⟩ := Option.map_eq_some_iff.mp hcode
      obtain ⟨rfl, -⟩ := Prod.mk.inj heq
      exact plain (hts.contextSwitch hswitch)

/-- **Run lemma.** -/
theorem Tidy.run (ht : Tidy h) {events : List HeapEvent} (run : Run Step h events h') :
    Tidy h' ∧ Retains h h' := by
  apply run.invariant (I := fun u => Tidy u ∧ Retains h u) ⟨ht, Retains.same rfl rfl⟩
  rintro u e v ⟨htu, hru⟩ hs
  obtain ⟨htv, hrv⟩ := htu.step hs
  exact ⟨htv, hru.trans hrv⟩

/-- The blocks of `idle` and `init` are at different addresses. -/
def CreatedBlocks.Apart (idle init : CreatedBlocks) : Prop :=
  ((idle.list ++ init.list).map Block.address).Nodup

instance (idle init : CreatedBlocks) : Decidable (idle.Apart init) :=
  inferInstanceAs (Decidable (List.Nodup _))

/-- After the creation of `idle` and `init`. -/
theorem tidy_start {vm : Vm} {idle init : CreatedBlocks} (current : vm.current = 2)
    (nextPid : vm.nextPid = 3) (apart : idle.Apart init) : Tidy (start vm idle init) := by
  have htask : ∀ p t, (start vm idle init).tasks p = some t →
      (p = 2 ∧ t = init.task 2) ∨ (p = 1 ∧ t = idle.task 1) := by
    intro p t hp
    change Function.update (Function.update (fun _ => none) 1 (some (idle.task 1))) 2
      (some (init.task 2)) p = some t at hp
    by_cases h2 : p = 2
    · rw [h2, Function.update_self] at hp
      exact Or.inl ⟨h2, (Option.some.inj hp).symm⟩
    · rw [Function.update_of_ne h2] at hp
      by_cases h1 : p = 1
      · rw [h1, Function.update_self] at hp
        exact Or.inr ⟨h1, (Option.some.inj hp).symm⟩
      · rw [Function.update_of_ne h1] at hp
        cases hp
  have hne : idle.pcb ≠ init.pcb := by
    have happend := apart
    unfold CreatedBlocks.Apart at happend
    rw [List.map_append] at happend
    exact (List.nodup_append.mp happend).2.2 _ List.mem_cons_self _ List.mem_cons_self
  refine ⟨apart, fun p t hp => ?_, fun p q t u hp hq heq => ?_, fun p t hp => ?_, fun p t hp => ?_,
    ?_, fun t th ht hth => ?_⟩
  · rcases htask p t hp with ⟨-, rfl⟩ | ⟨-, rfl⟩
    · exact List.mem_append_right _ List.mem_cons_self
    · exact List.mem_append_left _ List.mem_cons_self
  · rcases htask p t hp with ⟨rfl, rfl⟩ | ⟨rfl, rfl⟩ <;>
      rcases htask q u hq with ⟨rfl, rfl⟩ | ⟨rfl, rfl⟩
    · rfl
    · exact absurd heq.symm hne
    · exact absurd heq hne
    · rfl
  · rcases htask p t hp with ⟨-, rfl⟩ | ⟨-, rfl⟩ <;> exact ⟨_, rfl⟩
  · show p < vm.nextPid
    rw [nextPid]
    rcases htask p t hp with ⟨rfl, -⟩ | ⟨rfl, -⟩ <;> decide
  · show vm.current < vm.nextPid
    rw [current, nextPid]
    decide
  · rcases htask _ t ht with ⟨-, rfl⟩ | ⟨hone, -⟩
    · rw [List.mem_singleton.mp hth]
      rfl
    · change vm.current = 1 at hone
      rw [current] at hone
      cases hone

/-! ## The life cycle -/

/-- **The heap is where it was**, and what was released in between was released by the function that
matches its allocator. -/
structure Returns (h h' : HeapVm) : Prop where
  /-- The allocated blocks. -/
  blocks : h'.blocks = h.blocks
  /-- The releases. -/
  released : ∀ x ∈ h'.released.drop h.released.length, x.2.Matches x.1

/-- The page directory of the child is released by `sfree`, and the `TCB` of the child stays. -/
theorem Tidy.not_returns (ht : Tidy h) {s1 s2 : HeapVm} {e e' : HeapEvent} {c : Int}
    {events : List HeapEvent} (fork : e.call = .fork) (forked : h.step e = some (s1, c))
    (success : c ≠ -1) (run : Run Step s1 events s2) (wait : e'.call = .wait)
    (waited : s2.step e' = some (h', c)) : h'.blocks ≠ h.blocks ∧
      ∃ x ∈ h'.released.drop h.released.length, ¬ x.2.Matches x.1 := by
  have hforked := code_of_step forked
  rw [fork] at hforked
  obtain ⟨⟨ht1, hr1⟩, hnew⟩ := (ht.supply e).sysFork hforked
  obtain ⟨tcb, hfree, hmem⟩ := hnew success
  obtain ⟨ht2, hr2⟩ := ht1.run run
  have hwaited := code_of_step waited
  rw [wait] at hwaited
  obtain ⟨⟨-, hr3⟩, hreleased⟩ := (ht2.supply e').sysWait hwaited
  have hsize : sizeofTcb ≠ sizeofPcb := by decide
  constructor
  · intro heq
    -- the `TCB` of the child is allocated after, and its address was free before
    have hafter : (⟨tcb, sizeofTcb, .sizeKept⟩ : Block) ∈ h'.blocks :=
      Or.inl (hr3.small _ (hr2.small _ hmem hsize) hsize)
    rw [heq] at hafter
    rcases hafter with hsmall | ⟨a, -, hpage⟩
    · exact hfree (Or.inl (List.mem_map_of_mem hsmall))
    · have hne : sizeofTcb ≠ pageSize := by decide
      exact hne (congrArg Block.size hpage)
  · rcases hreleased with hnone | ⟨a, hrel⟩
    · exact absurd hnone success
    · have hlength : h.released.length ≤ s2.released.length := hr1.released.trans hr2.released
      refine ⟨_, List.drop_subset_drop_left _ hlength hrel, fun hmatch => ?_⟩
      cases hmatch.1

/-- **A life cycle never returns the heap to where it was**: after `idle` and `init` have been
created and any run, whatever process forks a child, and whatever is done by it, its child and
anyone else until the process waits and gets the child back. -/
theorem life_cycle_never_returns {vm : Vm} {idle init : CreatedBlocks} {s s1 s2 s3 : HeapVm}
    {e e' : HeapEvent} {c : Int} {before between : List HeapEvent} (current : vm.current = 2)
    (nextPid : vm.nextPid = 3) (apart : idle.Apart init)
    (begun : Run Step (start vm idle init) before s) (fork : e.call = .fork)
    (forked : s.step e = some (s1, c)) (success : c ≠ -1) (run : Run Step s1 between s2)
    (wait : e'.call = .wait) (waited : s2.step e' = some (s3, c)) : ¬ Returns s s3 := by
  intro hreturns
  have htidy := ((tidy_start current nextPid apart).run begun).1
  exact (htidy.not_returns fork forked success run wait waited).1 hreturns.blocks

/-! ## One life cycle -/

/-- Address spaces in which `init` has an empty page table and the next free frame is 4096. -/
def oneTable : Vm where
  memory :=
    { frames := { initFreeFrame totalPhysFrames with freeFrame := some 4096 }
      words := fun b k => if b = 0x1000 ∧ k = 4 then 0x2007 else 0
      heap := {0x1000, 0x2000}
      answers := []
      cr3 := 0x1000 }
  spaces := Function.update (fun _ => none) 2 (some ⟨0x1000, [], [], false, true⟩)
  current := 2
  nextPid := 3

/-- A page filled with zeros. -/
def zeroPage (address : Nat) : Answer := ⟨address, fun _ => 0⟩

/-- The heap at the start. -/
def cycleStart : HeapVm := start oneTable ⟨0x100, 0x200, 0x3000⟩ ⟨0x300, 0x400, 0x4000⟩

/-- `fork()`. -/
def cycleFork : HeapEvent := ⟨.fork, [zeroPage 0x5000, zeroPage 0x6000], [0x500, 0x600, 0x7000]⟩

/-- `wait()`. -/
def cycleWait : HeapEvent := ⟨.wait, [], []⟩

/-- The child gets a page and vanishes. -/
def cycleChild : List HeapEvent :=
  [⟨.contextSwitch 3, [], []⟩, ⟨.newPages 0x01400000 4096, [zeroPage 0x8000], [0x700]⟩,
    ⟨.vanish 2, [], []⟩]

/-- The life cycle of one child. -/
theorem cycle_runs : ∃ s1 s2 s3, cycleStart.step cycleFork = some (s1, 3) ∧
    Run Step s1 cycleChild s2 ∧ s2.step cycleWait = some (s3, 3) := by
  have hresults : ((cycleStart.step cycleFork).bind fun r =>
      (r.1.step ⟨.contextSwitch 3, [], []⟩).bind fun r1 =>
      (r1.1.step ⟨.newPages 0x01400000 4096, [zeroPage 0x8000], [0x700]⟩).bind fun r2 =>
      (r2.1.step ⟨.vanish 2, [], []⟩).bind fun r3 =>
      (r3.1.step cycleWait).map fun r4 => (r.2, r4.2)) = some (3, 3) := by decide +kernel
  obtain ⟨⟨s1, c⟩, hfork, hrest⟩ := Option.bind_eq_some_iff.mp hresults
  obtain ⟨⟨s4, c4⟩, hswitch, hrest⟩ := Option.bind_eq_some_iff.mp hrest
  obtain ⟨⟨s5, c5⟩, hpages, hrest⟩ := Option.bind_eq_some_iff.mp hrest
  obtain ⟨⟨s2, c2⟩, hvanish, hrest⟩ := Option.bind_eq_some_iff.mp hrest
  obtain ⟨⟨s3, c3⟩, hwait, heq⟩ := Option.map_eq_some_iff.mp hrest
  obtain ⟨rfl, rfl⟩ := Prod.mk.inj heq
  have hrun : Run Step s1 cycleChild s2 :=
    ((Run.nil.snoc ⟨c4, hswitch⟩).snoc ⟨c5, hpages⟩).snoc ⟨c2, hvanish⟩
  exact ⟨s1, s2, s3, hfork, hrun, hwait⟩

/-- The life cycle does not return the heap. -/
theorem life_cycle_never_returns_one_page : ∃ s1 s2 s3, cycleStart.step cycleFork = some (s1, 3) ∧
    Run Step s1 cycleChild s2 ∧ s2.step cycleWait = some (s3, 3) ∧ ¬ Returns cycleStart s3 := by
  obtain ⟨s1, s2, s3, hfork, hrun, hwait⟩ := cycle_runs
  have hreturns := life_cycle_never_returns (show oneTable.current = 2 from rfl) rfl (by decide) Run.nil rfl hfork
    (by decide) hrun rfl hwait
  exact ⟨s1, s2, s3, hfork, hrun, hwait, hreturns⟩

/-- **Both halves fail**: a block of the child stays allocated, and a page directory from `memalign`
is released by `sfree`. -/
theorem life_cycle_leaks : ∃ s1 s2 s3, cycleStart.step cycleFork = some (s1, 3) ∧
    Run Step s1 cycleChild s2 ∧ s2.step cycleWait = some (s3, 3) ∧ s3.blocks ≠ cycleStart.blocks ∧
    ∃ x ∈ s3.released.drop cycleStart.released.length, ¬ x.2.Matches x.1 := by
  obtain ⟨s1, s2, s3, hfork, hrun, hwait⟩ := cycle_runs
  have htidy : Tidy cycleStart := tidy_start rfl rfl (by decide)
  have hleaks := htidy.not_returns rfl hfork (by decide) hrun rfl hwait
  exact ⟨s1, s2, s3, hfork, hrun, hwait, hleaks⟩

end HeapVm

end Pebbles.Memory
