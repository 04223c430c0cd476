import ProcessManager.ProcessData
import ProcessManager.LinkedList
import ProcessManager.MinHeap

/-! The ready queue behind `void *ready`: the heap of SJF or the list of RR, with the functions
the scheduler passes for it. -/
namespace ProcessManager

/-- The two values of the `-s` option. -/
inductive Scheduler
  | sjf
  | rr
  deriving DecidableEq, Repr

/-- Where the program would leave defined behaviour. -/
inductive Fault
  /-- `continue_process` or `suspend_process` called with a NULL process. -/
  | nullProcess
  /-- The block of a process read while its `block_node` is NULL. -/
  | nullBlock
  /-- `delete_node_by_data` ran past the end of its list. -/
  | searchPastEnd
  /-- A heap entry used that is outside the array or not set. -/
  | heapAccess
  deriving DecidableEq, Repr

/-- The heap counts in natural numbers, as the one of the source does while it holds no more than
`2 ^ 30` processes. -/
inductive ReadyQueue
  | heap (h : MinHeap ProcId)
  | list (l : List ProcId)

/-- `compare_process` on two pointers. -/
def compareBy (procs : ProcTable) (p1 p2 : ProcId) : ℤ := compareProcess (procs p1) (procs p2)

/-- `create_heap` or `create_empty_list`. -/
def createReady : Scheduler → ReadyQueue
  | .sjf => .heap createHeap
  | .rr => .list []

/-- `insert_data` or `enqueue`. -/
def ReadyQueue.insert (procs : ProcTable) (p : ProcId) : ReadyQueue → Except Fault ReadyQueue
  | .heap h =>
    match insertData (compareBy procs) h p with
    | some h => .ok (.heap h)
    | none => .error .heapAccess
  | .list l => .ok (.list (enqueue l (some p)).1)

/-- `extract_min` or `dequeue`. -/
def ReadyQueue.extract (procs : ProcTable) :
    ReadyQueue → Except Fault (Option ProcId × ReadyQueue)
  | .heap h =>
    match extractMin (compareBy procs) h with
    | some (p, h) => .ok (p, .heap h)
    | none => .error .heapAccess
  | .list l => .ok ((dequeue l).1, .list (dequeue l).2)

/-- `is_empty_heap` or `is_empty_list`. -/
def ReadyQueue.isEmpty : ReadyQueue → Bool
  | .heap h => isEmptyHeap h
  | .list l => l.isEmpty

/-- `get_heap_size` or `get_list_size`. -/
def ReadyQueue.size : ReadyQueue → ℕ
  | .heap h => h.numItems
  | .list l => l.length

/-- The processes in the queue; in a list, from head to tail. -/
def ReadyQueue.items : ReadyQueue → List ProcId
  | .heap h => h.items
  | .list l => l

/-- A queue of the kind the scheduler uses, with its heap in order. -/
def ReadyQueue.WellFormed (scheduler : Scheduler) (procs : ProcTable) : ReadyQueue → Prop
  | .heap h => scheduler = .sjf ∧ h.WellFormed (compareBy procs)
  | .list _ => scheduler = .rr

variable {scheduler : Scheduler} {procs procs' : ProcTable} {ready : ReadyQueue} {p : ProcId}

theorem compareBy_comparison (procs : ProcTable) : Comparison (compareBy procs) where
  flip a b h := by
    rw [compareBy, compareProcess_neg] at h
    simp only [compareBy]
    omega
  trans a b c hab hbc := by
    simp only [compareBy, compareProcess_le_iff] at *
    exact hab.trans hbc

/-- The comparison reads only what a process was loaded with. -/
theorem compareBy_congr (h : ∀ p, (procs' p).SameRecord (procs p)) :
    compareBy procs' = compareBy procs := by
  funext a b
  exact compareProcess_congr (h a) (h b)

theorem ReadyQueue.WellFormed.congr (h : ready.WellFormed scheduler procs)
    (hs : ∀ p, (procs' p).SameRecord (procs p)) : ready.WellFormed scheduler procs' := by
  cases ready with
  | heap h' => exact ⟨h.1, compareBy_congr hs ▸ h.2⟩
  | list l => exact h

theorem createReady_wellFormed : (createReady scheduler).WellFormed scheduler procs := by
  cases scheduler with
  | sjf => exact ⟨rfl, createHeap_wellFormed⟩
  | rr => rfl

@[simp] theorem items_createReady : (createReady scheduler).items = [] := by
  cases scheduler <;> simp [createReady, ReadyQueue.items]

theorem ReadyQueue.WellFormed.size_eq (h : ready.WellFormed scheduler procs) :
    ready.size = ready.items.length := by
  cases ready with
  | heap heap => exact h.2.items_length.symm
  | list list => rfl

theorem ReadyQueue.WellFormed.isEmpty_iff (h : ready.WellFormed scheduler procs) :
    ready.isEmpty = true ↔ ready.items = [] := by
  cases ready with
  | heap heap =>
    rw [← List.length_eq_zero_iff, items, h.2.items_length]
    simp [isEmpty, isEmptyHeap]
  | list list => simp [isEmpty, items]

/-- Insertion succeeds and adds one process; in a list, at the tail. -/
theorem ReadyQueue.WellFormed.insert (h : ready.WellFormed scheduler procs) (p : ProcId) :
    ∃ ready', ready.insert procs p = .ok ready' ∧ ready'.WellFormed scheduler procs ∧
      ready'.items.Perm (p :: ready.items) ∧
      (scheduler = .rr → ready'.items = ready.items ++ [p]) := by
  cases ready with
  | heap heap =>
    obtain ⟨hs, hw⟩ := h
    obtain ⟨heap', hins, hw', hperm⟩ := insertData_spec (compareBy_comparison procs) hw p
    exact ⟨.heap heap', by simp [ReadyQueue.insert, hins], ⟨hs, hw'⟩, hperm, by simp [hs]⟩
  | list list =>
    exact ⟨.list (list ++ [p]), rfl, h, List.perm_append_singleton _ _, fun _ => rfl⟩

/-- Extraction from a queue that is not empty: the head of the list, or a process of the heap
that no other precedes. -/
theorem ReadyQueue.WellFormed.extract (h : ready.WellFormed scheduler procs)
    (hne : ready.isEmpty = false) :
    ∃ p ready', ready.extract procs = .ok (some p, ready') ∧
      ready'.WellFormed scheduler procs ∧ ready.items.Perm (p :: ready'.items) ∧
      (scheduler = .rr → ready.items = p :: ready'.items) ∧
      (scheduler = .sjf → ∀ r ∈ ready'.items, compareBy procs p r ≤ 0) := by
  cases ready with
  | heap heap =>
    obtain ⟨hs, hw⟩ := h
    have hn : heap.numItems ≠ 0 := by simpa [isEmpty, isEmptyHeap] using hne
    obtain ⟨p, heap', hex, hw', hperm, hmin⟩ :=
      extractMin_spec (compareBy_comparison procs) hw hn
    exact ⟨p, .heap heap', by simp [ReadyQueue.extract, hex], ⟨hs, hw'⟩, hperm, by simp [hs],
      fun _ => hmin⟩
  | list list =>
    cases list with
    | nil => simp [isEmpty] at hne
    | cons p list =>
      exact ⟨p, .list list, rfl, h, .refl _, fun _ => rfl, by simp [show scheduler = .rr from h]⟩

/-- What a successful insertion has done. -/
theorem ReadyQueue.WellFormed.insert_ok {ready' : ReadyQueue}
    (h : ready.WellFormed scheduler procs) (hput : ready.insert procs p = .ok ready') :
    ready'.WellFormed scheduler procs ∧ ready'.items.Perm (p :: ready.items) ∧
      (scheduler = .rr → ready'.items = ready.items ++ [p]) := by
  obtain ⟨queue, hok, hw, hperm, hlist⟩ := h.insert p
  obtain rfl : queue = ready' := Except.ok.inj (hok.symm.trans hput)
  exact ⟨hw, hperm, hlist⟩

/-- What a successful extraction has done. -/
theorem ReadyQueue.WellFormed.extract_ok {ready' : ReadyQueue}
    (h : ready.WellFormed scheduler procs) (hnext : ready.extract procs = .ok (some p, ready')) :
    ready'.WellFormed scheduler procs ∧ ready.items.Perm (p :: ready'.items) ∧
      (scheduler = .rr → ready.items = p :: ready'.items) ∧
      (scheduler = .sjf → ∀ r ∈ ready'.items, compareBy procs p r ≤ 0) := by
  have hne : ready.isEmpty = false := by
    cases ready with
    | heap heap =>
      cases hn : heap.numItems with
      | zero => simp [ReadyQueue.extract, extractMin_empty hn] at hnext
      | succ n => simp [isEmpty, isEmptyHeap, hn]
    | list list =>
      cases list with
      | nil => simp [ReadyQueue.extract, dequeue] at hnext
      | cons q list => rfl
  obtain ⟨q, queue, hok, hw, hperm, hhead, hmin⟩ := h.extract hne
  have heq := Except.ok.inj (hok.symm.trans hnext)
  obtain rfl : q = p := Option.some.inj (congrArg Prod.fst heq)
  obtain rfl : queue = ready' := congrArg Prod.snd heq
  exact ⟨hw, hperm, hhead, hmin⟩

/-- Putting a process behind others and taking the next: the first of the others comes out. -/
theorem ReadyQueue.WellFormed.preempt_ok {queue ready' : ReadyQueue} {r : ProcId}
    (h : ready.WellFormed scheduler procs) (hrr : scheduler = .rr) (hne : ready.items ≠ [])
    (hput : ready.insert procs p = .ok queue)
    (hnext : queue.extract procs = .ok (some r, ready')) :
    ∃ others, ready.items = r :: others ∧ ready'.items = others ++ [p] := by
  obtain ⟨hwf, -, hlist⟩ := h.insert_ok hput
  obtain ⟨-, -, hhead, -⟩ := hwf.extract_ok hnext
  obtain ⟨first, others, hready⟩ := List.exists_cons_of_ne_nil hne
  have hqueue : first :: (others ++ [p]) = r :: ready'.items := by
    rw [← hhead hrr, hlist hrr, hready]
    rfl
  obtain ⟨rfl, hrest⟩ := List.cons.inj hqueue
  exact ⟨others, hready, hrest.symm⟩

end ProcessManager
