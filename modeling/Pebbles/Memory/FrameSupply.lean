import Pebbles.Memory.FrameAllocator

/-! # How many frames are left

The frame allocator on a machine with any number of frames. `machine_phys_frames` only sets the
counter `free_frame_num`, which the allocator itself never reads: `Ordered` is the invariant of the
allocator for a table with any counter, and `Takes` says what an `acquire_free_frame` takes from
such a table. -/

namespace Pebbles.Memory

open Transition

/-! ## Tables with another counter -/

/-- The table with the counter `n`. -/
def FrameTable.recount (t : FrameTable) (n : Int) : FrameTable := { t with freeFrameNum := n }

section
variable {t t' : FrameTable} {n : Int} {address : Nat}

@[simp] theorem freeSet_recount (t : FrameTable) (n : Int) : (t.recount n).freeSet = t.freeSet := rfl

@[simp] theorem aboveSet_recount (t : FrameTable) (n : Int) :
    (t.recount n).aboveSet = t.aboveSet := rfl

@[simp] theorem recount_recount (t : FrameTable) (n k : Int) :
    (t.recount n).recount k = t.recount k := rfl

/-- The search does not read the counter. -/
theorem seek_recount (t : FrameTable) (n : Int) (fuel : Nat) (p : Option Nat) :
    (t.recount n).seek fuel p = t.seek fuel p := by
  induction fuel generalizing p with
  | zero => rfl
  | succ fuel ih =>
      cases p with
      | none => rfl
      | some i =>
          simp only [FrameTable.seek]
          rw [ih]
          rfl

/-- `acquire_free_frame` does not read the counter. -/
theorem acquire_recount {i : Nat} (hi : t.freeFrame = some i) (n : Int) :
    acquireFreeFrame (t.recount n)
      = (acquireFreeFrame t).map fun r => (r.1, r.2.recount (n - 1)) := by
  have hi' : (t.recount n).freeFrame = some i := hi
  simp only [acquireFreeFrame, hi, hi', Option.map_map]
  have hseek : ((t.recount n).setRefcount i (((t.recount n).refcount i + 1) % 2 ^ 32)).seek
      totalPhysFrames (some i)
      = (t.setRefcount i ((t.refcount i + 1) % 2 ^ 32)).seek totalPhysFrames (some i) :=
    seek_recount (t.setRefcount i ((t.refcount i + 1) % 2 ^ 32)) n totalPhysFrames (some i)
  rw [hseek]
  rfl

/-- `release_free_frame` does not read the counter. -/
theorem release_recount (t : FrameTable) (n : Int) (address : Nat) :
    releaseFreeFrame (t.recount n) address
      = (releaseFreeFrame t address).map fun t' => t'.recount (n + 1) := by
  by_cases hlt : address / pageSize < totalPhysFrames
  · simp only [releaseFreeFrame, hlt, if_true, Option.map_some, Option.some.injEq]
    by_cases hzero : (t.setRefcount (address / pageSize)
        ((t.refcount (address / pageSize) + (2 ^ 32 - 1)) % 2 ^ 32)).refcount
          (address / pageSize) = 0
    · have hzero' : ((t.recount n).setRefcount (address / pageSize)
          (((t.recount n).refcount (address / pageSize) + (2 ^ 32 - 1)) % 2 ^ 32)).refcount
            (address / pageSize) = 0 := hzero
      rw [if_pos hzero, if_pos hzero']
      rfl
    · have hzero' : ¬ ((t.recount n).setRefcount (address / pageSize)
          (((t.recount n).refcount (address / pageSize) + (2 ^ 32 - 1)) % 2 ^ 32)).refcount
            (address / pageSize) = 0 := hzero
      rw [if_neg hzero, if_neg hzero']
      rfl
  · simp only [releaseFreeFrame, hlt, if_false, Option.map_none]

/-- **The allocator invariant without the counter.** -/
def FrameTable.Ordered (t : FrameTable) : Prop := (t.recount t.freeSet.card).Ok

/-- The invariant with the counter is the stronger one. -/
theorem FrameTable.Ok.ordered (h : t.Ok) : t.Ordered := by
  rw [FrameTable.Ordered, ← h.count]
  exact h

/-- A table in order with some counter. -/
theorem FrameTable.ordered_of_recount (h : (t.recount n).Ok) : t.Ordered := by
  have hcount : n = t.freeSet.card := h.count
  rw [FrameTable.Ordered, ← hcount]
  exact h

/-- `free_frame` points to a free record. -/
theorem FrameTable.Ordered.free_pointer (h : t.Ordered) :
    ∃ i, t.freeFrame = some i ∧ i ∈ t.freeSet :=
  FrameTable.Ok.free_pointer (t := t.recount t.freeSet.card) h

/-- The records within reach are never none. -/
theorem FrameTable.Ordered.above_pos (h : t.Ordered) : 0 < t.aboveSet.card := by
  obtain ⟨i, hi, hfree⟩ := h.free_pointer
  exact Finset.card_pos.mpr ⟨i, mem_aboveSet_self hi hfree⟩

/-- `free_frame` does not point to a record in use. -/
theorem FrameTable.Ordered.freeFrame_ne (h : t.Ordered) {i : Nat} (hused : t.refcount i = 1) :
    t.freeFrame ≠ some i := by
  intro hi
  obtain ⟨j, hj, hfree⟩ := h.free_pointer
  obtain rfl : i = j := Option.some.inj (hi.symm.trans hj)
  have hzero := (mem_freeSet.mp hfree).2
  omega

/-! ## One frame less -/

/-- **What `acquire_free_frame` takes** from a table. -/
structure Takes (t : FrameTable) (f : Nat) (t' : FrameTable) : Prop where
  /-- The call. -/
  acquired : acquireFreeFrame t = some (f * pageSize, t')
  /-- The record is the one `free_frame` points to. -/
  pointer : t.freeFrame = some f
  /-- It was free. -/
  free : f ∈ t.freeSet
  /-- The table stays in order. -/
  ordered : t'.Ordered
  /-- The counts. -/
  refcount : ∀ k, t'.refcount k = if k = f then 1 else t.refcount k
  /-- The counter. -/
  freeFrameNum : t'.freeFrameNum = t.freeFrameNum - 1
  /-- One record less is within reach. -/
  above : t'.aboveSet.card + 1 = t.aboveSet.card

/-- **The rule of `acquire_free_frame`.** -/
theorem acquire_takes (h : t.Ordered) (hacq : acquireFreeFrame t = some (address, t')) :
    ∃ f, address = f * pageSize ∧ Takes t f t' := by
  obtain ⟨i, hi, -⟩ := h.free_pointer
  obtain ⟨n, hok⟩ : ∃ n, (t.recount n).Ok := ⟨_, h⟩
  have hacq' : acquireFreeFrame (t.recount n) = some (address, t'.recount (n - 1)) := by
    rw [acquire_recount hi, hacq]
    rfl
  obtain ⟨f, p, hf, hfree, rfl, -, -, -, ht'⟩ := acquire_spec hok hacq'
  obtain ⟨f', hf', heq, habove⟩ := aboveSet_acquire hok hacq'
  obtain rfl : f = f' := Nat.eq_of_mul_eq_mul_right (by decide : 0 < pageSize) heq
  have hnum : t'.freeFrameNum = t.freeFrameNum - 1 := by
    simp only [acquireFreeFrame, hi] at hacq
    obtain ⟨q, -, hres⟩ := Option.map_eq_some_iff.mp hacq
    obtain ⟨-, rfl⟩ := Prod.mk.inj hres
    rfl
  refine ⟨f, rfl, hacq, hf, hfree, FrameTable.ordered_of_recount (hok.acquire hacq'), fun k => ?_,
    hnum, ?_⟩
  · have hcounts : (t'.recount (n - 1)).refcount k = (t.setRefcount f 1).refcount k := by
      rw [ht']
      rfl
    rw [refcount_setRefcount] at hcounts
    exact hcounts
  · have hcard := Finset.card_erase_add_one hf'
    rw [← habove] at hcard
    exact hcard

/-- **When `acquire_free_frame` comes back**: another free record lies within reach. -/
theorem acquire_isSome_iff_of_ordered (h : t.Ordered) :
    (acquireFreeFrame t).isSome ↔ 1 < t.aboveSet.card := by
  obtain ⟨i, hi, -⟩ := h.free_pointer
  have hiff := acquire_isSome_iff h
  rw [acquire_recount hi, Option.isSome_map] at hiff
  exact hiff

/-- Consecutive acquires, whatever the counter says. -/
theorem acquireMany_isSome_iff_of_ordered (h : t.Ordered) (k : Nat) :
    (acquireMany k t).isSome ↔ k < t.aboveSet.card := by
  induction k generalizing t with
  | zero => simpa [acquireMany] using h.above_pos
  | succ k ih =>
      have hone := acquire_isSome_iff_of_ordered h
      cases hacq : acquireFreeFrame t with
      | none =>
          rw [hacq] at hone
          have hno : ¬ 1 < t.aboveSet.card := by simpa using hone
          simp only [acquireMany, hacq, Option.bind_none, Option.isSome_none, Bool.false_eq_true,
            false_iff]
          omega
      | some taken =>
          obtain ⟨address, t'⟩ := taken
          obtain ⟨f, -, htakes⟩ := acquire_takes h hacq
          have habove := htakes.above
          simp only [acquireMany, hacq, Option.bind_some, Option.isSome_map]
          rw [ih htakes.ordered]
          omega

/-- Consecutive acquires in two parts. -/
theorem acquireMany_add {k n : Nat} {as bs : List Nat} {t1 : FrameTable}
    (h : acquireMany k t = some (as, t1)) (hrest : acquireMany n t1 = some (bs, t')) :
    acquireMany (k + n) t = some (as ++ bs, t') := by
  induction k generalizing t as with
  | zero =>
      obtain ⟨rfl, rfl⟩ := Prod.mk.inj (Option.some.inj h)
      rw [Nat.zero_add]
      exact hrest
  | succ k ih =>
      simp only [acquireMany, Option.bind_eq_some_iff, Option.map_eq_some_iff] at h
      obtain ⟨⟨a, t2⟩, hfirst, ⟨rest, t3⟩, hmany, hpair⟩ := h
      obtain ⟨rfl, rfl⟩ := Prod.mk.inj hpair
      rw [Nat.add_right_comm, acquireMany, hfirst, Option.bind_some, ih hmany]
      rfl

/-- Consecutive acquires leave a table in order, with as many records less within reach. -/
theorem acquireMany_left (h : t.Ordered) {k : Nat} {addresses : List Nat}
    (hacq : acquireMany k t = some (addresses, t')) :
    t'.Ordered ∧ t'.aboveSet.card + k = t.aboveSet.card := by
  induction k generalizing t addresses with
  | zero =>
      simp only [acquireMany, Option.some.injEq, Prod.mk.injEq] at hacq
      obtain ⟨-, rfl⟩ := hacq
      exact ⟨h, Nat.add_zero _⟩
  | succ k ih =>
      simp only [acquireMany, Option.bind_eq_some_iff, Option.map_eq_some_iff] at hacq
      obtain ⟨⟨a, t1⟩, hfirst, ⟨as, t2⟩, hrest, hpair⟩ := hacq
      obtain ⟨-, rfl⟩ := Prod.mk.inj hpair
      obtain ⟨f, -, htakes⟩ := acquire_takes h hfirst
      obtain ⟨hok, hcard⟩ := ih htakes.ordered hrest
      have habove := htakes.above
      exact ⟨hok, by omega⟩

namespace Takes

variable {f : Nat}

/-- The record is one of the table. -/
theorem lt (h : Takes t f t') : f < totalPhysFrames := (mem_freeSet.mp h.free).1

/-- The record was not in use. -/
theorem zero (h : Takes t f t') : t.refcount f = 0 := (mem_freeSet.mp h.free).2

/-- What was in use stays in use. -/
theorem keeps (h : Takes t f t') {k : Nat} (hk : t.refcount k = 1) : t'.refcount k = 1 := by
  rw [h.refcount]
  split
  · rfl
  · exact hk

/-- What is free afterwards was free before. -/
theorem free_of_free (h : Takes t f t') {k : Nat} (hk : k ∈ t'.freeSet) : k ∈ t.freeSet := by
  obtain ⟨hlt, hzero⟩ := mem_freeSet.mp hk
  rw [h.refcount] at hzero
  split at hzero
  · cases hzero
  · exact mem_freeSet.mpr ⟨hlt, hzero⟩

end Takes

/-- **The frames `fs` have been taken**, one after the other. -/
structure TakesAll (t : FrameTable) (fs : List Nat) (t' : FrameTable) : Prop where
  /-- The calls. -/
  acquired : acquireMany fs.length t = some (fs.map (· * pageSize), t')
  /-- The table stays in order. -/
  ordered : t'.Ordered
  /-- No frame was taken twice. -/
  nodup : fs.Nodup
  /-- The frames were free. -/
  free : ∀ f ∈ fs, f ∈ t.freeSet
  /-- The counts. -/
  refcount : ∀ k, t'.refcount k = if k ∈ fs then 1 else t.refcount k
  /-- The counter. -/
  freeFrameNum : t'.freeFrameNum = t.freeFrameNum - fs.length

namespace TakesAll

variable {f : Nat} {fs gs : List Nat} {t1 : FrameTable}

/-- No frame is taken. -/
theorem nil (h : t.Ordered) : TakesAll t [] t :=
  ⟨rfl, h, List.nodup_nil, fun _ hf => absurd hf List.not_mem_nil, fun _ => rfl, by simp⟩

/-- A frame that was in use is none of them. -/
theorem notMem_of_used (h : TakesAll t fs t') {k : Nat} (hk : t.refcount k ≠ 0) : k ∉ fs :=
  fun hmem => hk (mem_freeSet.mp (h.free k hmem)).2

/-- The frames are those that the allocator hands out. -/
theorem eq_of_acquireMany (h : TakesAll t fs t') (hlen : gs.length = fs.length)
    (hacq : acquireMany gs.length t = some (gs.map (· * pageSize), t1)) : fs = gs := by
  rw [hlen, h.acquired] at hacq
  have hmap := (Prod.mk.inj (Option.some.inj hacq)).1
  exact List.map_injective_iff.mpr (fun x y hxy => Nat.eq_of_mul_eq_mul_right (by decide) hxy) hmap

/-- What was in use stays in use. -/
theorem keeps (h : TakesAll t fs t') {k : Nat} (hk : t.refcount k = 1) : t'.refcount k = 1 := by
  rw [h.refcount, hk, ite_self]

/-- What is free afterwards was free before. -/
theorem free_of_free (h : TakesAll t fs t') {k : Nat} (hk : k ∈ t'.freeSet) : k ∈ t.freeSet := by
  obtain ⟨hlt, hzero⟩ := mem_freeSet.mp hk
  rw [h.refcount] at hzero
  split at hzero
  · cases hzero
  · exact mem_freeSet.mpr ⟨hlt, hzero⟩

/-- More frames are taken. -/
theorem append (h : TakesAll t fs t1) (hrest : TakesAll t1 gs t') : TakesAll t (fs ++ gs) t' where
  acquired := by
    rw [List.length_append, List.map_append]
    exact acquireMany_add h.acquired hrest.acquired
  ordered := hrest.ordered
  nodup := by
    refine List.nodup_append.mpr ⟨h.nodup, hrest.nodup, fun f hf g hg => ?_⟩
    rintro rfl
    have hone : t1.refcount f ≠ 0 := by rw [h.refcount, if_pos hf]; decide
    exact hrest.notMem_of_used hone hg
  free f hf := by
    rcases List.mem_append.mp hf with hf | hf
    · exact h.free f hf
    · exact h.free_of_free (hrest.free f hf)
  refcount k := by
    rw [hrest.refcount, h.refcount]
    by_cases hk : k ∈ fs <;> by_cases hk' : k ∈ gs <;> simp [hk, hk']
  freeFrameNum := by
    rw [hrest.freeFrameNum, h.freeFrameNum, List.length_append]
    push_cast
    omega

/-- One frame is taken. -/
theorem of_takes (h : Takes t f t') : TakesAll t [f] t' where
  acquired := by
    rw [List.length_singleton, acquireMany, h.acquired]
    rfl
  ordered := h.ordered
  nodup := List.nodup_singleton f
  free k hk := List.mem_singleton.mp hk ▸ h.free
  refcount k := by
    rw [h.refcount]
    simp
  freeFrameNum := by
    rw [h.freeFrameNum]
    rfl

end TakesAll

end

/-! ## One frame more -/

section
variable {t t' : FrameTable} {f : Nat}

/-- **What `release_free_frame` gives back** to a table, for a frame with one user. -/
structure Gives (t : FrameTable) (f : Nat) (t' : FrameTable) : Prop where
  /-- The table stays in order. -/
  ordered : t'.Ordered
  /-- The counts. -/
  refcount : ∀ k, t'.refcount k = if k = f then 0 else t.refcount k
  /-- The counter. -/
  freeFrameNum : t'.freeFrameNum = t.freeFrameNum + 1

/-- **The rule of `release_free_frame`.** -/
theorem release_gives (h : t.Ordered) (hlt : f < totalPhysFrames) (hused : t.refcount f = 1) :
    ∃ t', releaseFreeFrame t (f * pageSize) = some t' ∧ Gives t f t' := by
  obtain ⟨n, hok⟩ : ∃ n, (t.recount n).Ok := ⟨_, h⟩
  have hspec := release_spec hlt hused
  refine ⟨_, hspec, ?_, fun k => refcount_setRefcount t f 0 k, rfl⟩
  have hspec' : releaseFreeFrame (t.recount n) (f * pageSize) = some (FrameTable.recount
      { t.setRefcount f 0 with freeFrame := some f, freeFrameNum := t.freeFrameNum + 1 }
      (n + 1)) := by
    rw [release_recount, hspec]
    rfl
  exact FrameTable.ordered_of_recount (hok.release hlt hused hspec')

/-- Release the frames `fs`, one after the other. -/
def releaseAll (fs : List Nat) (t : FrameTable) : Option FrameTable :=
  fs.foldlM (fun t f => releaseFreeFrame t (f * pageSize)) t

/-- **The frames `fs` have been given back**, each of them once. -/
structure GivesAll (t : FrameTable) (fs : List Nat) (t' : FrameTable) : Prop where
  /-- The calls. -/
  released : releaseAll fs t = some t'
  /-- The table stays in order. -/
  ordered : t'.Ordered
  /-- The counts. -/
  refcount : ∀ k, t'.refcount k = if k ∈ fs then 0 else t.refcount k
  /-- The counter. -/
  freeFrameNum : t'.freeFrameNum = t.freeFrameNum + fs.length

namespace GivesAll

variable {fs gs : List Nat} {t1 : FrameTable}

/-- No frame is given back. -/
theorem nil (h : t.Ordered) : GivesAll t [] t :=
  ⟨rfl, h, fun _ => rfl, by simp⟩

/-- More frames are given back. -/
theorem append (h : GivesAll t fs t1) (hrest : GivesAll t1 gs t') : GivesAll t (fs ++ gs) t' where
  released := by
    have hfirst : fs.foldlM (fun t f => releaseFreeFrame t (f * pageSize)) t = some t1 := h.released
    rw [releaseAll, List.foldlM_append, hfirst]
    exact hrest.released
  ordered := hrest.ordered
  refcount k := by
    rw [hrest.refcount, h.refcount]
    by_cases hk : k ∈ fs <;> by_cases hk' : k ∈ gs <;> simp [hk, hk']
  freeFrameNum := by
    rw [hrest.freeFrameNum, h.freeFrameNum, List.length_append]
    push_cast
    omega

end GivesAll

/-- One frame is given back. -/
theorem release_givesAll (h : t.Ordered) (hlt : f < totalPhysFrames) (hused : t.refcount f = 1) :
    ∃ t', releaseFreeFrame t (f * pageSize) = some t' ∧ GivesAll t [f] t' := by
  obtain ⟨t', hrel, hgives⟩ := release_gives h hlt hused
  refine ⟨t', hrel, ?_, hgives.ordered, fun k => ?_, hgives.freeFrameNum⟩
  · rw [releaseAll, List.foldlM_cons, hrel]
    rfl
  · rw [hgives.refcount]
    simp

end

/-! ## Histories on any machine -/

/-- The state after `init_free_frame` on a machine that reports `n` frames. -/
def initAlloc (n : Nat) : AllocState := ⟨initFreeFrame n, ∅⟩

/-- **Every history of calls keeps the table in order**, on every machine. -/
theorem ordered_of_run {n : Nat} {calls : List FrameCall} {s : AllocState}
    (run : Run AllocStep (initAlloc n) calls s) : s.table.Ordered := by
  have hall : ∃ k : Int, AllocState.Ok ⟨s.table.recount k, s.held⟩ := by
    refine run.invariant (I := fun s => ∃ k : Int, AllocState.Ok ⟨s.table.recount k, s.held⟩)
      ⟨((totalPhysFrames : Nat) : Int), ok_bootAlloc⟩ ?_
    rintro u c v ⟨k, hok⟩ hstep
    cases hstep with
    | @acquire address t call =>
        obtain ⟨i, hi, -⟩ := hok.table_ok.free_pointer
        refine ⟨k - 1, hok.step (.acquire (t := t.recount (k - 1)) ?_)⟩
        show acquireFreeFrame (u.table.recount k) = _
        rw [acquire_recount (t := u.table) hi, call]
        rfl
    | @release i t holds call =>
        refine ⟨k + 1, hok.step (.release (t := t.recount (k + 1)) holds ?_)⟩
        show releaseFreeFrame (u.table.recount k) _ = _
        rw [release_recount, call]
        rfl
  obtain ⟨k, hok⟩ := hall
  exact FrameTable.ordered_of_recount hok.table_ok

/-- Consecutive acquires are a history. -/
theorem run_acquireMany {n : Nat} (s0 : AllocState) {t' : FrameTable} {addresses : List Nat}
    (hacq : acquireMany n s0.table = some (addresses, t')) :
    ∃ held, Run AllocStep s0 (addresses.map .acquire) ⟨t', held⟩ := by
  induction n generalizing s0 addresses with
  | zero =>
      simp only [acquireMany, Option.some.injEq, Prod.mk.injEq] at hacq
      obtain ⟨rfl, rfl⟩ := hacq
      exact ⟨s0.held, .nil⟩
  | succ n ih =>
      simp only [acquireMany, Option.bind_eq_some_iff, Option.map_eq_some_iff] at hacq
      obtain ⟨⟨a, t1⟩, hfirst, ⟨as, t2⟩, hrest, hpair⟩ := hacq
      simp only [Prod.mk.injEq] at hpair
      obtain ⟨rfl, rfl⟩ := hpair
      obtain ⟨held, run⟩ := ih ⟨t1, insert (a / pageSize) s0.held⟩ hrest
      exact ⟨held, (Run.nil.snoc (AllocStep.acquire hfirst)).append run⟩

end Pebbles.Memory
