import ProcessManager.ListPointers

/-! Lists that are built by the pointer operations, over one heap, are the sequences that the
operations on sequences make. -/
namespace ProcessManager.Pointer

open DoublyLinked

variable {α β ι : Type*}

/-- A call of one of the operations that build a list. -/
inductive Call (α : Type*)
  | enqueue (new : Addr) (data : Option α)
  | insertNode (new : Addr) (data : α) (prev next : Option Addr)
  | insertNodeSorted (new : Addr) (data : α)
  | deleteNode (node : Addr)
  deriving DecidableEq, Repr

/-- What the call does to the heap and the list. -/
def Call.apply (compare : β → β → ℤ) (getSortValue : α → β) (heap : Heap α) (list : Header) :
    Call α → Option (Heap α × Header)
  | .enqueue new data =>
    (Pointer.enqueue heap list new data).map fun (heap, list, _) => (heap, list)
  | .insertNode new data prev next => Pointer.insertNode heap list new data prev next
  | .insertNodeSorted new data =>
    Pointer.insertNodeSorted compare getSortValue heap list new data
  | .deleteNode node => Pointer.deleteNode heap list (some node)

/-- A new entry behind the one with a given address. -/
def insertAfter (prev : Addr) (entry : Addr × α) : List (Addr × α) → List (Addr × α)
  | [] => [entry]
  | e :: rest => if e.1 = prev then e :: entry :: rest else e :: insertAfter prev entry rest

/-- What it does to the sequence of nodes: append, insert at the place, insert before the first
element not smaller, erase. -/
def Call.spec (compare : β → β → ℤ) (getSortValue : α → β) (entries : List (Addr × α)) :
    Call α → List (Addr × α)
  | .enqueue _ none => entries
  | .enqueue new (some data) => entries ++ [(new, data)]
  | .insertNode new data none _ => (new, data) :: entries
  | .insertNode new data (some prev) _ => insertAfter prev (new, data) entries
  | .insertNodeSorted new data =>
    ProcessManager.insertNodeSorted compare (fun e => getSortValue e.2) (new, data) entries
  | .deleteNode node => entries.eraseP (·.1 = node)

/-- `malloc` returns an address that is not in use; a node is inserted between two neighbours or
at an end, and a member is deleted. -/
def Call.Legal (heap : Heap α) (entries : List (Addr × α)) : Call α → Prop
  | .enqueue _ none => True
  | .enqueue new (some _) => heap new = none
  | .insertNode new _ prev next => heap new = none ∧
    ∃ L R, entries = L ++ R ∧ prev = last none L ∧ next = first R none
  | .insertNodeSorted new _ => heap new = none
  | .deleteNode node => node ∈ addresses entries

/-- A heap with several lists on it. -/
structure Memory (ι α : Type*) where
  heap : Heap α
  lists : ι → Header

/-- Lists built from `create_empty_list` by calls in any order, with the sequence of each. Between
the calls the heap may change away from their nodes. -/
inductive Built [DecidableEq ι] (compare : β → β → ℤ) (getSortValue : α → β) :
    Memory ι α → (ι → List (Addr × α)) → Prop
  | start (heap : Heap α) : Built compare getSortValue ⟨heap, fun _ => createEmptyList⟩ fun _ => []
  | call {m : Memory ι α} {seqs : ι → List (Addr × α)} {i : ι} {c : Call α} {heap : Heap α}
      {list : Header} (h : Built compare getSortValue m seqs) (legal : c.Legal m.heap (seqs i))
      (run : c.apply compare getSortValue m.heap (m.lists i) = some (heap, list)) :
      Built compare getSortValue ⟨heap, Function.update m.lists i list⟩
        (Function.update seqs i (c.spec compare getSortValue (seqs i)))
  | elsewhere {m : Memory ι α} {seqs : ι → List (Addr × α)} {heap : Heap α}
      (h : Built compare getSortValue m seqs)
      (same : ∀ i, ∀ a ∈ addresses (seqs i), heap a = m.heap a) :
      Built compare getSortValue ⟨heap, m.lists⟩ seqs

variable {compare : β → β → ℤ} {getSortValue : α → β} {heap heap' : Heap α} {list list' : Header}
  {entries L R : List (Addr × α)} {e : Addr × α} {a node : Addr} {c : Call α}

theorem insertAfter_append (h : e.1 ∉ addresses L) (entry : Addr × α) :
    insertAfter e.1 entry (L ++ e :: R) = L ++ e :: entry :: R := by
  induction L with
  | nil => simp [insertAfter]
  | cons d L ih =>
    rw [addresses_cons, List.mem_cons, not_or] at h
    simp [insertAfter, Ne.symm h.1, ih h.2]

theorem eraseP_append (h : e.1 ∉ addresses L) :
    (L ++ e :: R).eraseP (·.1 = e.1) = L ++ R := by
  rw [List.eraseP_append_right, List.eraseP_cons_of_pos (by simp)]
  intro d hd
  have hne : d.1 ≠ e.1 := fun he => h (he ▸ mem_addresses_of_mem hd)
  simpa using hne

/-- The place of an insertion, in the terms of the sequence. -/
theorem spec_insertNode (hnd : (addresses (L ++ R)).Nodup) (new : Addr) (data : α)
    (next : Option Addr) :
    (Call.insertNode new data (last none L) next).spec compare getSortValue (L ++ R) =
      L ++ (new, data) :: R := by
  rcases List.eq_nil_or_concat L with rfl | ⟨L, e, rfl⟩
  · rfl
  · rw [List.concat_eq_append, List.append_assoc] at hnd
    obtain ⟨hapart, -⟩ := nodup_middle.mp hnd
    have hnot : e.1 ∉ addresses L := by
      rw [addresses_append, List.mem_append, not_or] at hapart
      exact hapart.1
    rw [List.concat_eq_append, last_append, last_cons, last_nil, List.append_assoc,
      List.append_assoc]
    exact insertAfter_append hnot (new, data)

/-- A legal call succeeds, makes of the list what it makes of the sequence, and leaves the nodes
of others alone. -/
theorem Call.correct (h : Linked heap list entries) (legal : c.Legal heap entries) :
    ∃ heap' list', c.apply compare getSortValue heap list = some (heap', list') ∧
      Linked heap' list' (c.spec compare getSortValue entries) ∧
      Frame heap heap' entries := by
  cases c with
  | enqueue new data =>
    cases data with
    | none => exact ⟨heap, list, rfl, h, fun _ _ _ => rfl⟩
    | some data =>
      obtain ⟨heap', list', hok, hlinked, hframe⟩ := enqueue_linked h legal data
      exact ⟨heap', list', by simp [Call.apply, hok], hlinked, hframe⟩
  | insertNode new data prev next =>
    obtain ⟨hnew, L, R, rfl, rfl, rfl⟩ := legal
    rw [spec_insertNode h.nodup]
    exact insertNode_linked h hnew data
  | insertNodeSorted new data => exact insertNodeSorted_linked compare getSortValue h legal data
  | deleteNode node =>
    obtain ⟨L, e, R, rfl, rfl, hnot⟩ := split_at_member h.nodup legal
    obtain ⟨heap', list', hok, hlinked, hframe⟩ := deleteNode_linked h
    refine ⟨heap', list', hok, ?_, fun a _ ha => hframe a fun hmem => ha ?_⟩
    · rw [Call.spec, eraseP_append hnot]
      exact hlinked
    · exact mem_addresses_middle.mpr (Or.inr hmem)

/-- The nodes of the result are those of the list, or new. -/
theorem Call.spec_addresses (h : Linked heap list entries) (legal : c.Legal heap entries)
    (ha : a ∈ addresses (c.spec compare getSortValue entries)) :
    a ∈ addresses entries ∨ heap a = none := by
  cases c with
  | enqueue new data =>
    cases data with
    | none => exact Or.inl ha
    | some data =>
      rw [Call.spec, addresses_append] at ha
      rcases List.mem_append.mp ha with ha | ha
      · exact Or.inl ha
      · obtain rfl := List.mem_singleton.mp ha
        exact Or.inr legal
  | insertNode new data prev next =>
    obtain ⟨hnew, L, R, rfl, rfl, rfl⟩ := legal
    rw [spec_insertNode h.nodup] at ha
    rcases mem_addresses_middle.mp ha with rfl | ha
    · exact Or.inr hnew
    · exact Or.inl ha
  | insertNodeSorted new data =>
    rw [Call.spec, insertNodeSorted_split] at ha
    rcases mem_addresses_middle.mp ha with rfl | ha
    · exact Or.inr legal
    · rw [List.takeWhile_append_dropWhile] at ha
      exact Or.inl ha
  | deleteNode node =>
    obtain ⟨d, hd, rfl⟩ := List.mem_map.mp ha
    exact Or.inl (mem_addresses_of_mem (List.mem_of_mem_eraseP hd))

/-- What the sequences of the other modules keep of a list, its data or its nodes, changes as the
operations on sequences say. -/
theorem Call.spec_sequence (h : Linked heap list entries) (legal : c.Legal heap entries) :
    match c with
    | .enqueue _ data => (c.spec compare getSortValue entries).map Prod.snd =
        (ProcessManager.enqueue (entries.map Prod.snd) data).1
    | .insertNode new _ prev next => addresses (c.spec compare getSortValue entries) =
        ProcessManager.insertNode (addresses entries) new prev next
    | .insertNodeSorted _ data => (c.spec compare getSortValue entries).map Prod.snd =
        ProcessManager.insertNodeSorted compare getSortValue data (entries.map Prod.snd)
    | .deleteNode node => addresses (c.spec compare getSortValue entries) =
        ProcessManager.deleteNode (addresses entries) node := by
  cases c with
  | enqueue new data =>
    cases data with
    | none => rfl
    | some data => simp [Call.spec, ProcessManager.enqueue]
  | insertNode new data prev next =>
    obtain ⟨-, L, R, rfl, rfl, rfl⟩ := legal
    have hnd := h.nodup
    rw [addresses_append] at hnd
    change addresses ((Call.insertNode new data (last none L) (first R none)).spec compare
      getSortValue (L ++ R)) = _
    rw [spec_insertNode h.nodup, ← getLast?_addresses, ← head?_addresses, addresses_append,
      addresses_append, addresses_cons]
    exact (insertNode_between hnd).symm
  | insertNodeSorted new data =>
    simp only [Call.spec]
    clear h legal
    induction entries with
    | nil => rfl
    | cons e rest ih =>
      by_cases hlt : compare (getSortValue e.2) (getSortValue data) < 0
      · simp [ProcessManager.insertNodeSorted, hlt, ih]
      · simp [ProcessManager.insertNodeSorted, hlt]
  | deleteNode node =>
    obtain ⟨L, e, R, rfl, rfl, hnot⟩ := split_at_member h.nodup legal
    simp only [Call.spec, eraseP_append hnot, addresses_append, addresses_cons]
    exact (deleteNode_append hnot).symm

/-- Every list is linked as its sequence, and no node is in two of them. -/
structure Separate (m : Memory ι α) (seqs : ι → List (Addr × α)) : Prop where
  linked : ∀ i, Linked m.heap (m.lists i) (seqs i)
  disjoint : ∀ i j, i ≠ j → ∀ a ∈ addresses (seqs i), a ∉ addresses (seqs j)

variable {m : Memory ι α} {seqs : ι → List (Addr × α)} {i j : ι}

/-- A legal call on one list keeps the nodes of the others. -/
theorem Separate.others (h : Separate m seqs) (hframe : Frame m.heap heap (seqs i)) (hj : j ≠ i)
    (ha : a ∈ addresses (seqs j)) : heap a = m.heap a :=
  hframe a ((h.linked j).segment.allocated ha) (h.disjoint j i hj a ha)

variable [DecidableEq ι]

theorem Separate.step (h : Separate m seqs) (legal : c.Legal m.heap (seqs i))
    (run : c.apply compare getSortValue m.heap (m.lists i) = some (heap, list)) :
    Separate ⟨heap, Function.update m.lists i list⟩
      (Function.update seqs i (c.spec compare getSortValue (seqs i))) := by
  obtain ⟨heap', list', hok, hlinked, hframe⟩ := Call.correct (h.linked i) legal
  obtain ⟨rfl, rfl⟩ := Prod.mk.inj (Option.some.inj (hok.symm.trans run))
  have hnodes : ∀ j, j ≠ i → ∀ a ∈ addresses (c.spec compare getSortValue (seqs i)),
      a ∉ addresses (seqs j) := by
    intro j hj a ha hmem
    rcases Call.spec_addresses (h.linked i) legal ha with hold | hnew
    · exact h.disjoint i j hj.symm a hold hmem
    · exact (h.linked j).segment.allocated hmem hnew
  constructor
  case linked =>
    intro j
    by_cases hj : j = i
    · subst hj
      simpa using hlinked
    · simp only [Function.update_of_ne hj]
      exact (h.linked j).congr fun a ha => h.others hframe hj ha
  case disjoint =>
    intro j k hjk a ha hmem
    by_cases hj : j = i
    · subst hj
      rw [Function.update_self] at ha
      rw [Function.update_of_ne hjk.symm] at hmem
      exact hnodes k hjk.symm a ha hmem
    · rw [Function.update_of_ne hj] at ha
      by_cases hk : k = i
      · subst hk
        rw [Function.update_self] at hmem
        exact hnodes j hj a hmem ha
      · rw [Function.update_of_ne hk] at hmem
        exact h.disjoint j k hjk a ha hmem

theorem Built.separate (h : Built compare getSortValue m seqs) : Separate m seqs := by
  induction h with
  | start heap => exact ⟨fun _ => createEmptyList_linked heap, by simp⟩
  | call _ legal run ih => exact ih.step legal run
  | elsewhere _ same ih => exact ⟨fun i => (ih.linked i).congr (same i), ih.disjoint⟩

/-- Every list built by the operations has the shape of its sequence, whatever happened to the
others; and the next legal call succeeds and leaves the nodes of the others untouched. -/
theorem lists_refine (h : Built compare getSortValue m seqs) :
    (∀ i, Shape m.heap (m.lists i) (seqs i)) ∧
    ∀ i (c : Call α), c.Legal m.heap (seqs i) →
      ∃ heap list, c.apply compare getSortValue m.heap (m.lists i) = some (heap, list) ∧
        ∀ j ≠ i, ∀ a ∈ addresses (seqs j), heap a = m.heap a := by
  have hsep := h.separate
  refine ⟨fun i => (hsep.linked i).shape, fun i c legal => ?_⟩
  obtain ⟨heap, list, hok, -, hframe⟩ := Call.correct (hsep.linked i) legal
  exact ⟨heap, list, hok, fun j hj a ha => hsep.others hframe hj ha⟩

/-- A sorted list of two nodes, the second put in front of the first, beside a queue. -/
theorem lists_refine_twoLists : ∃ m : Memory Bool ℕ,
    Shape m.heap (m.lists true) [(2, 5), (1, 7)] ∧ Shape m.heap (m.lists false) [(3, 9)] := by
  have h0 : Built compareInts (fun n : ℕ => (n : ℤ)) ⟨fun _ => none, fun _ : Bool => _⟩ _ :=
    .start _
  have h1 := h0.call (i := true) (c := .insertNodeSorted 1 7) rfl rfl
  have h2 := h1.call (i := false) (c := .enqueue 3 (some 9)) rfl rfl
  have h3 := h2.call (i := true) (c := .insertNodeSorted 2 5) rfl rfl
  obtain ⟨hshape, -⟩ := lists_refine h3
  exact ⟨_, hshape true, hshape false⟩

end ProcessManager.Pointer
