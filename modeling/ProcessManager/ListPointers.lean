import ProcessManager.LinkedList
import ProcessManager.Library.DoublyLinked

/-! `linked_list.c` at the level of its pointers. A node is an address of the heap, `new` is the
address that `malloc` returns, and the result is `none` when a pointer is followed to no node. -/
namespace ProcessManager.Pointer

open DoublyLinked

variable {α β ι : Type*}

/-- `create_empty_list`. -/
def createEmptyList : Header := ⟨none, none, 0⟩

/-- `create_node`. -/
def createNode (heap : Heap α) (new : Addr) (data : α) (next prev : Option Addr) : Heap α :=
  heap.store new ⟨data, next, prev⟩

/-- `enqueue`. -/
def enqueue (heap : Heap α) (list : Header) (new : Addr) :
    Option α → Option (Heap α × Header × Bool)
  | none => some (heap, list, false)
  | some data =>
    let heap := createNode heap new data none list.tail
    if list.head = none then
      some (heap,
        { list with head := some new, tail := some new, numItems := list.numItems + 1 }, true)
    else
      (heap.setNext list.tail (some new)).map fun heap =>
        (heap, { list with tail := some new, numItems := list.numItems + 1 }, true)

/-- `dequeue`: the data of the head, whose node is freed. -/
def dequeue (heap : Heap α) (list : Header) : Option (Option α × Heap α × Header) :=
  match list.head with
  | none => some (none, heap, list)
  | some head =>
    (heap head).map fun node =>
      let list := { list with head := node.next }
      let list := if list.head = none then { list with tail := none } else list
      (some node.data, Function.update heap head none,
        { list with numItems := list.numItems - 1 })

/-- The loop of `insert_node_sorted`: the node behind the new one, and the one in front of that. -/
def findPlace (compare : β → β → ℤ) (getSortValue : α → β) (heap : Heap α) (value : β) :
    ℕ → Option Addr → Option Addr → Option (Option Addr × Option Addr)
  | 0, _, _ => none
  | _ + 1, prev, none => some (prev, none)
  | fuel + 1, prev, some curr =>
    (heap curr).bind fun node =>
      if compare (getSortValue node.data) value < 0 then
        findPlace compare getSortValue heap value fuel (some curr) node.next
      else some (prev, some curr)

/-- `insert_node_sorted`. The loop is cut off, without a result, only after more rounds than the
list has nodes. -/
def insertNodeSorted (compare : β → β → ℤ) (getSortValue : α → β) (heap : Heap α) (list : Header)
    (new : Addr) (data : α) : Option (Heap α × Header) :=
  (findPlace compare getSortValue heap (getSortValue data) (list.numItems.toNat + 1) none
    list.head).bind fun (prev, curr) =>
    let heap := createNode heap new data curr prev
    let numItems := list.numItems + 1
    if list.numItems = 0 then some (heap, ⟨some new, some new, numItems⟩)
    else
      match prev, curr with
      | none, curr =>
        (heap.setPrev curr (some new)).map fun heap =>
          (heap, { list with head := some new, numItems := numItems })
      | some prev, none =>
        (heap.setNext (some prev) (some new)).map fun heap =>
          (heap, { list with tail := some new, numItems := numItems })
      | some prev, some curr =>
        (heap.setNext (some prev) (some new)).bind fun heap =>
          (heap.setPrev (some curr) (some new)).map fun heap =>
            (heap, { list with numItems := numItems })

/-- `delete_node`. The node itself is left to the caller. -/
def deleteNode (heap : Heap α) (list : Header) (node : Option Addr) :
    Option (Heap α × Header) :=
  if list.head = none ∨ list.tail = none then some (heap, list)
  else
    match node with
    | none => some (heap, list)
    | some a =>
      (heap a).bind fun node =>
        let list := if list.head = some a then { list with head := node.next } else list
        let list := if list.tail = some a then { list with tail := node.prev } else list
        (heap.linkPrev node.next node.prev).bind fun heap =>
          (heap a).bind fun node =>
            (heap.linkNext node.prev node.next).map fun heap =>
              (heap, { list with numItems := list.numItems - 1 })

/-- `insert_node`. -/
def insertNode (heap : Heap α) (list : Header) (new : Addr) (data : α) (prev next : Option Addr) :
    Option (Heap α × Header) :=
  let heap := createNode heap new data next prev
  (heap.linkNext prev (some new)).bind fun heap =>
    let list := if prev = none then { list with head := some new } else list
    (heap.linkPrev next (some new)).map fun heap =>
      let list := if next = none then { list with tail := some new } else list
      (heap, { list with numItems := list.numItems + 1 })

variable {heap heap' : Heap α} {list list' : Header} {entries L R : List (Addr × α)}
  {e : Addr × α} {new a : Addr} {data : α}

theorem createEmptyList_linked (heap : Heap α) : Linked heap createEmptyList [] :=
  ⟨rfl, rfl, rfl, trivial, List.nodup_nil⟩

/-- The nodes that belong to nobody else stay as they are. -/
def Frame (heap heap' : Heap α) (entries : List (Addr × α)) : Prop :=
  ∀ a, heap a ≠ none → a ∉ addresses entries → heap' a = heap a

theorem enqueue_linked (h : Linked heap list entries) (hnew : heap new = none) (data : α) :
    ∃ heap' list', enqueue heap list new (some data) = some (heap', list', true) ∧
      Linked heap' list' (entries ++ [(new, data)]) ∧ Frame heap heap' entries := by
  have h' : Linked heap list (entries ++ []) := by rwa [List.append_nil]
  obtain ⟨heap1, heap2, hnext, hprev, hlinked, hframe⟩ := h'.insert hnew data
  obtain rfl : heap1 = heap2 := by simpa using hprev
  rw [List.append_nil] at hframe
  rw [first_nil, ← h.tail] at hnext
  refine ⟨heap1, _, ?_, hlinked, hframe⟩
  by_cases hempty : entries = []
  · subst hempty
    have hhead : list.head = none := h.head
    have htail : list.tail = none := h.tail
    rw [htail] at hnext
    obtain rfl := Option.some.inj hnext
    simp [enqueue, createNode, hhead, htail]
  · have hhead : list.head ≠ none := by
      rwa [h.head, ne_eq, first_eq_none]
    obtain ⟨t, ht⟩ : ∃ t, list.tail = some t := by
      rw [← Option.ne_none_iff_exists', h.tail, ne_eq, last_eq_none]
      exact hempty
    rw [ht, Heap.linkNext_some] at hnext
    simp [enqueue, createNode, hhead, ht, hnext, hempty]

theorem insertNode_linked (h : Linked heap list (L ++ R)) (hnew : heap new = none) (data : α) :
    ∃ heap' list', insertNode heap list new data (last none L) (first R none) =
        some (heap', list') ∧
      Linked heap' list' (L ++ (new, data) :: R) ∧ Frame heap heap' (L ++ R) := by
  obtain ⟨heap1, heap2, hnext, hprev, hlinked, hframe⟩ := h.insert hnew data
  refine ⟨heap2, _, ?_, hlinked, hframe⟩
  rw [insertNode, createNode, hnext, Option.bind_some, hprev, Option.map_some]
  simp only [last_eq_none, first_eq_none]
  split_ifs <;> rfl

/-- Whose value is smaller than that of the new node. -/
def Before (compare : β → β → ℤ) (getSortValue : α → β) (value : β) (e : Addr × α) : Bool :=
  compare (getSortValue e.2) value < 0

theorem findPlace_segment (compare : β → β → ℤ) (getSortValue : α → β) (value : β) {fuel : ℕ}
    {before : Option Addr} (h : Segment heap before entries none) (hfuel : entries.length < fuel) :
    findPlace compare getSortValue heap value fuel before (first entries none) =
      some (last before (entries.takeWhile (Before compare getSortValue value)),
        first (entries.dropWhile (Before compare getSortValue value)) none) := by
  induction entries generalizing before fuel with
  | nil =>
    obtain ⟨fuel, rfl⟩ := Nat.exists_eq_add_of_lt hfuel
    rfl
  | cons e rest ih =>
    obtain ⟨hnode, hrest⟩ := h
    obtain ⟨fuel, rfl⟩ := Nat.exists_eq_add_of_le' hfuel
    rw [first_cons, Nat.add_succ, findPlace, hnode, Option.bind_some]
    by_cases hlt : compare (getSortValue e.2) value < 0
    · rw [if_pos hlt, ih hrest (by simp only [List.length_cons]; omega)]
      simp [Before, hlt]
    · rw [if_neg hlt]
      simp [Before, hlt]

/-- The sequence with the new node in its place. -/
theorem insertNodeSorted_split (compare : β → β → ℤ) (getSortValue : α → β)
    (new : Addr) (data : α) (entries : List (Addr × α)) :
    ProcessManager.insertNodeSorted compare (fun e => getSortValue e.2) (new, data) entries =
      entries.takeWhile (Before compare getSortValue (getSortValue data)) ++
        (new, data) :: entries.dropWhile (Before compare getSortValue (getSortValue data)) := by
  induction entries with
  | nil => rfl
  | cons e rest ih =>
    by_cases hlt : compare (getSortValue e.2) (getSortValue data) < 0
    · simp [ProcessManager.insertNodeSorted, Before, hlt, ih]
    · simp [ProcessManager.insertNodeSorted, Before, hlt]

theorem insertNodeSorted_linked (compare : β → β → ℤ) (getSortValue : α → β)
    (h : Linked heap list entries) (hnew : heap new = none) (data : α) :
    ∃ heap' list', insertNodeSorted compare getSortValue heap list new data =
        some (heap', list') ∧
      Linked heap' list' (ProcessManager.insertNodeSorted compare (fun e => getSortValue e.2)
        (new, data) entries) ∧ Frame heap heap' entries := by
  have hcount := h.numItems
  have hplace := findPlace_segment compare getSortValue (getSortValue data) h.segment
    (show entries.length < list.numItems.toNat + 1 by omega)
  have hsplit := List.takeWhile_append_dropWhile
    (p := Before compare getSortValue (getSortValue data)) (l := entries)
  rw [← h.head] at hplace
  rw [insertNodeSorted_split]
  generalize entries.takeWhile (Before compare getSortValue (getSortValue data)) = L at *
  generalize entries.dropWhile (Before compare getSortValue (getSortValue data)) = R at *
  subst hsplit
  obtain ⟨heap1, heap2, hnext, hprev, hlinked, hframe⟩ := h.insert hnew data
  refine ⟨heap2, _, ?_, hlinked, hframe⟩
  rw [insertNodeSorted, hplace, Option.bind_some]
  by_cases hL : L = []
  · subst hL
    obtain rfl := Option.some.inj hnext
    cases R with
    | nil =>
      obtain rfl := Option.some.inj hprev
      have hzero : list.numItems = 0 := hcount
      simp [createNode, hzero]
    | cons e R =>
      have hpos : list.numItems ≠ 0 := by
        simp only [List.nil_append, List.length_cons] at hcount
        omega
      rw [first_cons, Heap.linkPrev_some, last_nil] at hprev
      simp [createNode, hpos, hprev]
  · obtain ⟨d, -, hlast⟩ := last_mem none hL
    have hpos : list.numItems ≠ 0 := by
      have := List.length_pos_of_ne_nil hL
      rw [List.length_append] at hcount
      omega
    rw [hlast, Heap.linkNext_some] at hnext
    cases R with
    | nil =>
      obtain rfl := Option.some.inj hprev
      rw [first_nil] at hnext
      simp [createNode, hpos, hlast, hnext, hL]
    | cons e R =>
      rw [first_cons] at hnext
      rw [first_cons, Heap.linkPrev_some] at hprev
      simp [createNode, hpos, hlast, hnext, hprev, hL]

theorem deleteNode_linked (h : Linked heap list (L ++ e :: R)) :
    ∃ heap' list', deleteNode heap list (some e.1) = some (heap', list') ∧
      Linked heap' list' (L ++ R) ∧ ∀ a ∉ addresses (L ++ R), heap' a = heap a := by
  obtain ⟨heap1, heap2, hprev, hnext, hlinked, hkeep, hframe⟩ := h.remove
  obtain ⟨-, hnode, -⟩ := segment_append.mp h.segment
  obtain ⟨hnot, -⟩ := nodup_middle.mp h.nodup
  rw [addresses_append, List.mem_append, not_or] at hnot
  obtain ⟨hnotL, hnotR⟩ := hnot
  have hends : ¬ (list.head = none ∨ list.tail = none) := by
    rw [h.head, h.tail, first_eq_none, last_eq_none]
    simp
  -- the node is the head, or the tail, exactly when nothing is on that side
  have hhead : list.head = some e.1 ↔ L = [] := by
    rw [h.head, first_append]
    cases L with
    | nil => simp
    | cons d L =>
      have hne : d.1 ≠ e.1 := fun he => hnotL (by simp [he])
      simp [hne]
  have htail : list.tail = some e.1 ↔ R = [] := by
    rw [h.tail, last_append, last_cons]
    by_cases hR : R = []
    · simp [hR]
    · obtain ⟨f, hf, hlast⟩ := last_mem (some e.1) hR
      have hne : f.1 ≠ e.1 := fun he => hnotR (he ▸ mem_addresses_of_mem hf)
      simp [hlast, hne, hR]
  refine ⟨heap2, _, ?_, hlinked, hframe⟩
  rw [deleteNode, if_neg hends]
  simp only [hnode, Option.bind_some, hprev, hkeep, hnext, Option.map_some]
  congr 2
  by_cases hL : L = [] <;> by_cases hR : R = [] <;> simp [hL, hR, hhead, htail]

end ProcessManager.Pointer
