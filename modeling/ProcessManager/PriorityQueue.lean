import ProcessManager.IntHeap

/-! The heap over any sequence of `insert_data` and `extract_min` is a priority queue under
`compare_process`, as long as no insertion finds 2 ^ 30 items in it. -/
namespace ProcessManager

variable {α : Type} {compare : α → α → ℤ} {heap heap' : MinHeap α} {procs : ProcTable}

/-- One operation on the heap. -/
inductive HeapOp
  | insertData (p : ProcId)
  | extractMin
  deriving DecidableEq, Repr

/-- The heap after one operation, with the process that left it. -/
def HeapOp.run (procs : ProcTable) (heap : IntHeap ProcId) :
    HeapOp → Option (IntHeap ProcId × List ProcId)
  | .insertData p => do
    let heap ← heap.insertData (compareBy procs) p
    return (heap, [])
  | .extractMin => do
    let (extracted, heap) ← heap.extractMin (compareBy procs)
    return (heap, extracted.toList)

/-- The heap after a sequence of operations, with the processes that left it; `none` if an `int`
overflowed, or an access was outside the array or met an entry that is not set. -/
def runHeap (procs : ProcTable) (heap : IntHeap ProcId) :
    List HeapOp → Option (IntHeap ProcId × List ProcId)
  | [] => some (heap, [])
  | op :: ops => do
    let (heap, left) ← op.run procs heap
    let (heap, rest) ← runHeap procs heap ops
    return (heap, left ++ rest)

/-- The processes a sequence of operations inserts. -/
def inserted (ops : List HeapOp) : List ProcId :=
  ops.filterMap fun
    | .insertData p => some p
    | .extractMin => none

/-- From a heap of `held` items on, no insertion finds 2 ^ 30 of them. -/
def NeverFull (held : ℕ) : List HeapOp → Prop
  | [] => True
  | .insertData _ :: ops => held < 2 ^ 30 ∧ NeverFull (held + 1) ops
  | .extractMin :: ops => NeverFull (held - 1) ops

/-- After the operations, none of which accesses an entry beyond the capacity, the items in use fit
the array and are what was inserted and not extracted, no parent comes after its child, and the next
extraction returns NULL from an empty heap and else a process that no other precedes: by service
time, then arrival time, then name. -/
def IsPriorityQueue (procs : ProcTable) (ops : List HeapOp) : Prop :=
  ∃ heap extracted, runHeap procs .create ops = some (heap, extracted) ∧
    0 ≤ heap.numItems ∧ heap.numItems ≤ heap.capacity ∧
    (∀ i : ℕ, 0 < i → i < heap.numItems → ∃ above below, heap.data ((i - 1) / 2) = some above ∧
      heap.data i = some below ∧ compareProcess (procs above) (procs below) ≤ 0) ∧
    heap.items.length = heap.numItems ∧ (heap.items ++ extracted).Perm (inserted ops) ∧
    ∃ result heap', heap.extractMin (compareBy procs) = some (result, heap') ∧
      (result = none ↔ heap.numItems = 0) ∧
      ∀ p, result = some p → p ∈ heap.items ∧ heap.items.Perm (p :: heap'.items) ∧
        ∀ q ∈ heap'.items, ¬ compareProcess (procs q) (procs p) < 0 ∧
          ¬ (procs q).key < (procs p).key

theorem swap_capacity {i j : ℕ} (h : heap.swap i j = some heap') :
    heap'.capacity = heap.capacity := by
  simp only [MinHeap.swap, Option.bind_eq_bind, Option.bind_eq_some_iff] at h
  obtain ⟨_, _, _, _, mid, hmid, hend⟩ := h
  rw [write_eq_some hend, write_eq_some hmid]

theorem upHeap_capacity {index : ℕ} (h : upHeap compare heap index = some heap') :
    heap'.capacity = heap.capacity := by
  fun_induction upHeap compare heap index generalizing heap' with
  | case1 heap index hpos ih =>
    simp only [Option.bind_eq_bind, Option.bind_eq_some_iff] at h
    obtain ⟨above, -, item, -, h⟩ := h
    split at h
    · obtain ⟨mid, hswap, h⟩ := Option.bind_eq_some_iff.mp h
      exact (ih mid h).trans (swap_capacity hswap)
    · cases h
      rfl
  | case2 =>
    cases h
    rfl

theorem downHeap_capacity {index : ℕ} (h : downHeap compare heap index = some heap') :
    heap'.capacity = heap.capacity := by
  fun_induction downHeap compare heap index generalizing heap' with
  | case1 => cases h
  | case2 => cases h
  | case3 heap index smallest hs hne mid hswap ih => exact (ih h).trans (swap_capacity hswap)
  | case4 =>
    cases h
    rfl

/-- The array doubles when it is full. -/
theorem insertData_capacity {item : α} (h : insertData compare heap item = some heap') :
    heap'.capacity =
      if heap.numItems ≥ heap.capacity then heap.capacity * 2 else heap.capacity := by
  simp only [insertData, Option.bind_eq_bind, Option.bind_eq_some_iff] at h
  obtain ⟨mid, hmid, hup⟩ := h
  rw [upHeap_capacity hup, write_eq_some hmid]
  split <;> rfl

theorem extractMin_capacity {extracted : Option α}
    (h : extractMin compare heap = some (extracted, heap')) :
    heap'.capacity = heap.capacity := by
  unfold extractMin at h
  split at h
  · cases h
    rfl
  · simp only [Option.bind_eq_bind, Option.bind_eq_some_iff] at h
    obtain ⟨min, -, h⟩ := h
    split at h
    · obtain ⟨mid, hmid, heq⟩ := Option.bind_eq_some_iff.mp h
      cases heq
      rw [write_eq_some hmid]
    · simp only [Option.bind_eq_some_iff] at h
      obtain ⟨last, -, mid, hmid, down, hdown, heq⟩ := h
      cases heq
      rw [downHeap_capacity hdown, write_eq_some hmid]

/-- What every operation keeps: the heap is in order and holds what was inserted and has not left
it, in an array whose size is a power of 2. -/
structure Holds (procs : ProcTable) (heap : MinHeap ProcId) (ins outs : List ProcId) : Prop where
  wellFormed : heap.WellFormed (compareBy procs)
  perm : (heap.items ++ outs).Perm ins
  capacity : ∃ k, heap.capacity = 2 ^ (k + 1)
  bound : heap.capacity ≤ 2 ^ 30

variable {nat nat' : MinHeap ProcId} {ins outs : List ProcId} {ops : List HeapOp} {held : ℕ}

theorem createHeap_holds : Holds procs createHeap [] [] where
  wellFormed := createHeap_wellFormed
  perm := by simp
  capacity := ⟨0, rfl⟩
  bound := by simp [createHeap, initSize]

theorem Holds.numItems_le (h : Holds procs nat ins outs) : nat.numItems ≤ 2 ^ 30 :=
  h.wellFormed.bound.trans h.bound

/-- With fewer than 2 ^ 30 items the array has room for one more, or doubles. -/
theorem Holds.grows (h : Holds procs nat ins outs) (hroom : nat.numItems < 2 ^ 30)
    (hcapacity : nat'.capacity =
      if nat.numItems ≥ nat.capacity then nat.capacity * 2 else nat.capacity) :
    (∃ k, nat'.capacity = 2 ^ (k + 1)) ∧ nat'.capacity ≤ 2 ^ 30 := by
  obtain ⟨k, hk⟩ := h.capacity
  by_cases hfull : nat.numItems ≥ nat.capacity
  · rw [if_pos hfull, hk, ← pow_succ] at hcapacity
    have hlt : 2 ^ (k + 1) < 2 ^ 30 := by omega
    have hexp : k + 1 < 30 := (Nat.pow_lt_pow_iff_right (by decide)).mp hlt
    refine ⟨⟨k + 1, hcapacity⟩, ?_⟩
    rw [hcapacity]
    exact Nat.pow_le_pow_right (by decide) hexp
  · rw [if_neg hfull] at hcapacity
    rw [hcapacity]
    exact ⟨h.capacity, h.bound⟩

theorem Holds.insertData (h : Holds procs nat ins outs) (hroom : nat.numItems < 2 ^ 30)
    (p : ProcId) : ∃ nat', HeapOp.run procs (.ofNat nat) (.insertData p) = some (.ofNat nat', []) ∧
      Holds procs nat' (ins ++ [p]) outs ∧ nat'.numItems = nat.numItems + 1 := by
  obtain ⟨nat', hins, hwf, hperm⟩ := insertData_spec (compareBy_comparison procs) h.wellFormed p
  obtain ⟨hpower, hbound⟩ := h.grows hroom (insertData_capacity hins)
  refine ⟨nat', by simp [HeapOp.run, IntHeap.insertData_ofNat hroom, hins], ⟨hwf, ?_, hpower,
    hbound⟩, ?_⟩
  · exact ((hperm.append_right outs).trans (h.perm.cons p)).trans
      (List.perm_append_singleton p ins).symm
  · have hlength := hperm.length_eq
    rwa [List.length_cons, hwf.items_length, h.wellFormed.items_length] at hlength

/-- The capacity would be 2 ^ 31. -/
theorem Holds.insertData_full (h : Holds procs nat ins outs) (hfull : ¬ nat.numItems < 2 ^ 30)
    (p : ProcId) : HeapOp.run procs (.ofNat nat) (.insertData p) = none := by
  have hitems := h.wellFormed.bound
  have hbound := h.bound
  have hnone : (IntHeap.ofNat nat).insertData (compareBy procs) p = none :=
    IntHeap.insertData_full (by omega) (by omega) p
  rw [HeapOp.run, hnone]
  rfl

theorem Holds.extractMin (h : Holds procs nat ins outs) :
    ∃ nat' left, HeapOp.run procs (.ofNat nat) .extractMin = some (.ofNat nat', left) ∧
      Holds procs nat' ins (outs ++ left) ∧ nat'.numItems = nat.numItems - 1 := by
  by_cases hempty : nat.numItems = 0
  · refine ⟨nat, [], ?_, by rwa [List.append_nil], by omega⟩
    simp [HeapOp.run, IntHeap.extractMin_ofNat h.numItems_le, extractMin_empty hempty]
  · obtain ⟨p, nat', hext, hwf, hperm, -⟩ :=
      extractMin_spec (compareBy_comparison procs) h.wellFormed hempty
    have hcapacity := extractMin_capacity hext
    refine ⟨nat', [p], ?_, ⟨hwf, ?_, hcapacity ▸ h.capacity, hcapacity ▸ h.bound⟩, ?_⟩
    · simp [HeapOp.run, IntHeap.extractMin_ofNat h.numItems_le, hext]
    · apply List.Perm.trans _ h.perm
      apply List.Perm.trans _ (hperm.append_right outs).symm
      rw [← List.append_assoc]
      exact List.perm_append_singleton p (nat'.items ++ outs)
    · have hlength := hperm.length_eq
      rw [List.length_cons, hwf.items_length, h.wellFormed.items_length] at hlength
      omega

/-- By induction on the operations: they go on as long as no insertion finds the heap full. -/
theorem Holds.runHeap (h : Holds procs nat ins outs) (hfits : NeverFull nat.numItems ops) :
    ∃ nat' left, runHeap procs (.ofNat nat) ops = some (.ofNat nat', left) ∧
      Holds procs nat' (ins ++ inserted ops) (outs ++ left) := by
  induction ops generalizing nat ins outs with
  | nil => exact ⟨nat, [], rfl, by simpa [inserted] using h⟩
  | cons op ops ih =>
    cases op with
    | insertData p =>
      obtain ⟨mid, hop, hmid, hcount⟩ := h.insertData hfits.1 p
      obtain ⟨last, left, hops, hlast⟩ := ih hmid (hcount ▸ hfits.2)
      refine ⟨last, left, by simp [ProcessManager.runHeap, hop, hops], ?_⟩
      rwa [List.append_assoc] at hlast
    | extractMin =>
      obtain ⟨mid, first, hop, hmid, hcount⟩ := h.extractMin
      obtain ⟨last, left, hops, hlast⟩ := ih hmid (by rwa [hcount])
      refine ⟨last, first ++ left, by simp [ProcessManager.runHeap, hop, hops], ?_⟩
      rwa [List.append_assoc] at hlast

theorem Holds.neverFull (h : Holds procs nat ins outs)
    (hrun : (ProcessManager.runHeap procs (.ofNat nat) ops).isSome) :
    NeverFull nat.numItems ops := by
  induction ops generalizing nat ins outs with
  | nil => trivial
  | cons op ops ih =>
    cases op with
    | insertData p =>
      by_cases hroom : nat.numItems < 2 ^ 30
      · obtain ⟨mid, hop, hmid, hcount⟩ := h.insertData hroom p
        refine ⟨hroom, hcount ▸ ih hmid ?_⟩
        cases hops : ProcessManager.runHeap procs (.ofNat mid) ops with
        | none => simp [ProcessManager.runHeap, hop, hops] at hrun
        | some out => rfl
      · simp [ProcessManager.runHeap, h.insertData_full hroom] at hrun
    | extractMin =>
      obtain ⟨mid, first, hop, hmid, hcount⟩ := h.extractMin
      rw [NeverFull, ← hcount]
      apply ih hmid
      cases hops : ProcessManager.runHeap procs (.ofNat mid) ops with
      | none => simp [ProcessManager.runHeap, hop, hops] at hrun
      | some out => rfl

theorem NeverFull.of_prefix {pre : List HeapOp} (h : NeverFull held ops) (hpre : pre <+: ops) :
    NeverFull held pre := by
  obtain ⟨rest, rfl⟩ := hpre
  induction pre generalizing held with
  | nil => trivial
  | cons op pre ih =>
    cases op with
    | insertData p => exact ⟨h.1, ih h.2⟩
    | extractMin =>
      change NeverFull (held - 1) pre
      exact ih h

/-- What the next `extract_min` does with a heap in order. -/
theorem extractMin_first {heap : MinHeap ProcId} (hw : heap.WellFormed (compareBy procs)) :
    ∃ result heap', extractMin (compareBy procs) heap = some (result, heap') ∧
      (result = none ↔ heap.numItems = 0) ∧
      ∀ p, result = some p → p ∈ heap.items ∧ heap.items.Perm (p :: heap'.items) ∧
        ∀ q ∈ heap'.items, ¬ compareProcess (procs q) (procs p) < 0 := by
  by_cases hempty : heap.numItems = 0
  · exact ⟨none, heap, extractMin_empty hempty, by simp [hempty], nofun⟩
  · obtain ⟨p, heap', hext, -, hperm, hmin⟩ :=
      extractMin_spec (compareBy_comparison procs) hw hempty
    refine ⟨some p, heap', hext, by simp [hempty], ?_⟩
    intro p' hp
    obtain rfl := Option.some.inj hp
    refine ⟨hperm.mem_iff.mpr List.mem_cons_self, hperm, fun q hq => ?_⟩
    have hle := hmin q hq
    rw [compareBy, compareProcess_neg] at hle
    omega

theorem isPriorityQueue_of_neverFull (h : NeverFull 0 ops) : IsPriorityQueue procs ops := by
  have hstart : Holds procs createHeap [] [] := createHeap_holds
  obtain ⟨nat, extracted, hrun, hw, hperm, -, hbound⟩ := hstart.runHeap h
  obtain ⟨result, nat', hext, hnone, hsome⟩ := extractMin_first hw
  have hsize : nat.numItems ≤ 2 ^ 30 := hw.bound.trans hbound
  refine ⟨.ofNat nat, extracted, hrun, Int.natCast_nonneg _, Int.ofNat_le.mpr hw.bound,
    fun i hi hlt => hw.ordered i hi (Int.ofNat_lt.mp hlt), congrArg Nat.cast hw.items_length, hperm,
    result, .ofNat nat', by simp [IntHeap.extractMin_ofNat hsize, hext], ?_, ?_⟩
  · exact hnone.trans Int.natCast_eq_zero.symm
  · intro p hp
    obtain ⟨hmem, hrest, hfirst⟩ := hsome p hp
    refine ⟨hmem, hrest, fun q hq => ⟨hfirst q hq, ?_⟩⟩
    rw [← compareProcess_neg_iff]
    exact hfirst q hq

theorem neverFull_of_isPriorityQueue (h : IsPriorityQueue procs ops) : NeverFull 0 ops := by
  obtain ⟨heap, extracted, hrun, -⟩ := h
  have hstart : Holds procs createHeap [] [] := createHeap_holds
  exact hstart.neverFull (Option.isSome_iff_exists.mpr ⟨_, hrun⟩)

/-- The min heap is a priority queue after every operation of a sequence if and only if no insertion
finds 2 ^ 30 items in it. -/
theorem heap_is_priority_queue (procs : ProcTable) (ops : List HeapOp) :
    (∀ pre, pre <+: ops → IsPriorityQueue procs pre) ↔ NeverFull 0 ops := by
  constructor
  · intro h
    exact neverFull_of_isPriorityQueue (h ops (List.prefix_refl ops))
  · intro h pre hpre
    exact isPriorityQueue_of_neverFull (h.of_prefix hpre)

theorem neverFull_replicate {n : ℕ} {p : ProcId} (hn : n ≠ 0) :
    NeverFull held (List.replicate n (.insertData p)) → held + n ≤ 2 ^ 30 := by
  induction n generalizing held with
  | zero => exact absurd rfl hn
  | succ n ih =>
    rw [List.replicate_succ]
    rintro ⟨hroom, hrest⟩
    rcases Nat.eq_zero_or_pos n with rfl | hpos
    · omega
    · have hle := ih (by omega) hrest
      omega

/-- The insertion after 2 ^ 30 others. -/
theorem heap_overflows : ¬ IsPriorityQueue (fun _ => createProcess ⟨0, [65], 1, 1⟩)
    (List.replicate (2 ^ 30 + 1) (.insertData 0)) := by
  intro h
  have hle := neverFull_replicate (by omega) (neverFull_of_isPriorityQueue h)
  omega

end ProcessManager
