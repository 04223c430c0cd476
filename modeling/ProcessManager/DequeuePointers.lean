import ProcessManager.ListRefinement

/-! `dequeue` frees the head but leaves the `prev` link of the next node pointing at it. -/
namespace ProcessManager.Pointer

open DoublyLinked

variable {α : Type*}

/-- A list on its heap. A freed node is no longer allocated. -/
structure QueueState (α : Type*) where
  heap : Heap α
  list : Header

/-- An operation on a queue. After `delete_node` the caller may free the node. -/
inductive QueueOp (α : Type*)
  | enqueue (new : Addr) (data : Option α)
  | dequeue
  | deleteNode (node : Addr) (freed : Bool)
  deriving DecidableEq, Repr

def QueueOp.apply (s : QueueState α) : QueueOp α → Option (QueueState α)
  | .enqueue new data =>
    (Pointer.enqueue s.heap s.list new data).map fun (heap, list, _) => ⟨heap, list⟩
  | .dequeue => (Pointer.dequeue s.heap s.list).map fun (_, heap, list) => ⟨heap, list⟩
  | .deleteNode node freed =>
    (Pointer.deleteNode s.heap s.list (some node)).map fun (heap, list) =>
      ⟨if freed then Function.update heap node none else heap, list⟩

/-- A node that the `next` links lead to from the head. -/
def Member (s : QueueState α) (node : Addr) : Prop :=
  ∃ fuel entries, follow Node.next s.heap fuel s.list.head = some entries ∧
    node ∈ addresses entries

/-- `malloc` returns an address that is not in use, and what is deleted is a member. -/
def QueueOp.Legal (s : QueueState α) : QueueOp α → Prop
  | .enqueue _ none => True
  | .enqueue new (some _) => s.heap new = none
  | .dequeue => True
  | .deleteNode node _ => Member s node

/-- The operations so far, from `create_empty_list` on, and the state after them. -/
inductive QueueRun (heap : Heap α) : List (QueueOp α) → QueueState α → Prop
  | start : QueueRun heap [] ⟨heap, createEmptyList⟩
  | step {ops : List (QueueOp α)} {s s' : QueueState α} {o : QueueOp α}
      (h : QueueRun heap ops s) (legal : o.Legal s) (run : o.apply s = some s') :
      QueueRun heap (ops ++ [o]) s'

/-- The list is fit for the other operations: no link of its nodes and neither end leads to a freed
node, nothing is in front of the head, and deleting any member leaves a list of the others. -/
def Fit (s : QueueState α) : Prop :=
  ∃ entries, (∀ fuel, entries.length ≤ fuel →
      follow Node.next s.heap fuel s.list.head = some entries) ∧
    (∀ a, s.list.head = some a ∨ s.list.tail = some a → s.heap a ≠ none) ∧
    (∀ a ∈ addresses entries, ∀ node, s.heap a = some node →
      ∀ b, node.next = some b ∨ node.prev = some b → s.heap b ≠ none) ∧
    (∀ a node, s.list.head = some a → s.heap a = some node → node.prev = none) ∧
    ∀ a ∈ addresses entries, ∃ heap list,
      deleteNode s.heap s.list (some a) = some (heap, list) ∧
        Shape heap list (entries.eraseP (·.1 = a))

variable {heap heap' : Heap α} {list list' : Header} {entries L R : List (Addr × α)}
  {e f : Addr × α} {a b : Addr} {s s' : QueueState α} {o : QueueOp α} {ops : List (QueueOp α)}

theorem fit_of_linked (h : Linked s.heap s.list entries) : Fit s := by
  have hallocated : ∀ a ∈ addresses entries, s.heap a ≠ none := fun a => h.segment.allocated
  refine ⟨entries, h.shape.forward, ?_, ?_, ?_, ?_⟩
  · rintro a (ha | ha)
    · exact hallocated a (first_mem (h.head ▸ ha))
    · exact hallocated a (last_mem_addresses (h.tail ▸ ha))
  · intro a ha node hnode b hb
    exact hallocated b (h.links ha hnode hb)
  · intro a node ha hnode
    cases entries with
    | nil => exact absurd (h.head.symm.trans ha) (by simp)
    | cons e rest =>
      obtain rfl : e.1 = a := Option.some.inj (h.head.symm.trans ha)
      obtain ⟨hfirst, -⟩ := h.segment
      obtain rfl := Option.some.inj (hnode.symm.trans hfirst)
      rfl
  · intro a ha
    obtain ⟨L, e, R, rfl, rfl, hnot⟩ := split_at_member h.nodup ha
    obtain ⟨heap, list, hok, hlinked, -⟩ := deleteNode_linked h
    refine ⟨heap, list, hok, ?_⟩
    rw [eraseP_append hnot]
    exact hlinked.shape

/-- The only node of a list is taken out of it for good. -/
theorem dequeue_one (h : Linked heap list [e]) :
    ∃ heap' list', dequeue heap list = some (some e.2, heap', list') ∧ Linked heap' list' [] := by
  obtain ⟨hnode, -⟩ := h.segment
  have hhead : list.head = some e.1 := h.head
  have hcount : list.numItems = 1 := h.numItems
  refine ⟨Function.update heap e.1 none, ⟨none, none, 0⟩, ?_, createEmptyList_linked _⟩
  simp [dequeue, hhead, hnode, hcount]

/-- With a second node, that one is the head now, and its `prev` link leads to the freed node. -/
theorem dequeue_more (h : Linked heap list (e :: f :: R)) :
    ∃ heap' list' node, dequeue heap list = some (some e.2, heap', list') ∧
      heap' e.1 = none ∧ list'.head = some f.1 ∧ heap' f.1 = some node ∧
      node.prev = some e.1 := by
  obtain ⟨hnode, hnext, -⟩ := h.segment
  have hhead : list.head = some e.1 := h.head
  have hne : f.1 ≠ e.1 := by
    have hnd := h.nodup
    simp only [addresses_cons, List.nodup_cons, List.mem_cons, not_or] at hnd
    exact Ne.symm hnd.1.1
  refine ⟨Function.update heap e.1 none, ⟨some f.1, list.tail, list.numItems - 1⟩,
    ⟨f.2, first R none, some e.1⟩, ?_, ?_, rfl, ?_, rfl⟩
  · simp [dequeue, hhead, hnode]
  · exact Function.update_self _ _ _
  · rw [Function.update_of_ne hne]
    exact hnext

/-- On a linked list `dequeue` follows no pointer to a freed node. -/
theorem dequeue_ok (h : Linked s.heap s.list entries) :
    ∃ s', QueueOp.dequeue.apply s = some s' := by
  cases entries with
  | nil =>
    have hhead : s.list.head = none := h.head
    exact ⟨s, by simp [QueueOp.apply, Pointer.dequeue, hhead]⟩
  | cons e rest =>
    obtain ⟨hnode, -⟩ := h.segment
    have hhead : s.list.head = some e.1 := h.head
    exact ⟨_, by simp only [QueueOp.apply, Pointer.dequeue, hhead, hnode, Option.map_some]; rfl⟩

/-- A `dequeue` leaves a linked list, or one that is not fit when it had two items or more. -/
theorem dequeue_linked_or_unfit (h : Linked s.heap s.list entries)
    (run : QueueOp.dequeue.apply s = some s') :
    (∃ entries', Linked s'.heap s'.list entries') ∧ s.list.numItems < 2 ∨
      ¬ s.list.numItems < 2 ∧ ¬ Fit s' := by
  have hcount := h.numItems
  cases entries with
  | nil =>
    have hhead : s.list.head = none := h.head
    have hzero : s.list.numItems = 0 := hcount
    simp only [QueueOp.apply, Pointer.dequeue, hhead, Option.map_some, Option.some.injEq] at run
    subst run
    exact Or.inl ⟨⟨[], h⟩, by omega⟩
  | cons e rest =>
    cases rest with
    | nil =>
      have hone : s.list.numItems = 1 := hcount
      obtain ⟨heap, list, hok, hlinked⟩ := dequeue_one h
      simp only [QueueOp.apply, hok, Option.map_some, Option.some.injEq] at run
      subst run
      exact Or.inl ⟨⟨[], hlinked⟩, by omega⟩
    | cons f R =>
      simp only [List.length_cons] at hcount
      obtain ⟨heap, list, node, hok, -, hhead, hnode, hprev⟩ := dequeue_more h
      simp only [QueueOp.apply, hok, Option.map_some, Option.some.injEq] at run
      subst run
      refine Or.inr ⟨by omega, ?_⟩
      rintro ⟨_, -, -, -, hfront, -⟩
      exact absurd ((hfront f.1 node hhead hnode).symm.trans hprev) (by simp)

/-- However far the walk was allowed to go, it visits the nodes of the list. -/
theorem Member.mem (h : Linked s.heap s.list entries) (hnode : Member s a) :
    a ∈ addresses entries := by
  obtain ⟨fuel, visited, hvisited, hmem⟩ := hnode
  have hlong := follow_mono hvisited (le_max_left fuel entries.length)
  obtain rfl := Option.some.inj (hlong.symm.trans (h.shape.forward _ (le_max_right _ _)))
  exact hmem

theorem deleteNode_stays_linked {freed : Bool} (h : Linked s.heap s.list entries)
    (hnode : Member s a) (run : (QueueOp.deleteNode a freed).apply s = some s') :
    ∃ entries', Linked s'.heap s'.list entries' := by
  obtain ⟨L, e, R, rfl, rfl, -⟩ := split_at_member h.nodup (hnode.mem h)
  obtain ⟨heap, list, hok, hlinked, -⟩ := deleteNode_linked h
  simp only [QueueOp.apply, hok, Option.map_some, Option.some.injEq] at run
  subst run
  obtain ⟨hgone, -⟩ := nodup_middle.mp h.nodup
  refine ⟨L ++ R, hlinked.congr fun a ha => ?_⟩
  cases freed with
  | false => rfl
  | true => exact Function.update_of_ne (ne_of_mem_of_not_mem ha hgone) _ _

theorem enqueue_stays_linked {data : Option α} (h : Linked s.heap s.list entries)
    (legal : (QueueOp.enqueue a data).Legal s)
    (run : (QueueOp.enqueue a data).apply s = some s') :
    ∃ entries', Linked s'.heap s'.list entries' := by
  cases data with
  | none =>
    obtain rfl := Option.some.inj run
    exact ⟨entries, h⟩
  | some data =>
    obtain ⟨heap, list, hok, hlinked, -⟩ := enqueue_linked h legal data
    simp only [QueueOp.apply, hok, Option.map_some, Option.some.injEq] at run
    subst run
    exact ⟨_, hlinked⟩

/-- A legal operation keeps a list linked, unless it is a `dequeue` from two nodes or more, which
leaves a list that is not fit. -/
theorem QueueOp.linked_or_unfit (h : Linked s.heap s.list entries) (legal : o.Legal s)
    (run : o.apply s = some s') :
    (∃ entries', Linked s'.heap s'.list entries') ∧ (o = .dequeue → s.list.numItems < 2) ∨
      o = .dequeue ∧ ¬ s.list.numItems < 2 ∧ ¬ Fit s' := by
  cases o with
  | enqueue new data => exact Or.inl ⟨enqueue_stays_linked h legal run, by simp⟩
  | deleteNode node freed => exact Or.inl ⟨deleteNode_stays_linked h legal run, by simp⟩
  | dequeue =>
    rcases dequeue_linked_or_unfit h run with ⟨hlinked, hshort⟩ | ⟨hlong, hunfit⟩
    · exact Or.inl ⟨hlinked, fun _ => hshort⟩
    · exact Or.inr ⟨rfl, hlong, hunfit⟩

theorem QueueRun.linked_of_fit (h : QueueRun heap ops s)
    (hfit : ∀ ops₁ s₁, ops₁ <+: ops → QueueRun heap ops₁ s₁ → Fit s₁) :
    ∃ entries, Linked s.heap s.list entries := by
  induction h with
  | start => exact ⟨[], createEmptyList_linked heap⟩
  | @step ops s s' o h legal run ih =>
    obtain ⟨entries, hlinked⟩ := ih fun ops₁ s₁ hearlier =>
      hfit ops₁ s₁ (hearlier.trans (List.prefix_append ops [o]))
    rcases QueueOp.linked_or_unfit hlinked legal run with ⟨hlinked', -⟩ | ⟨-, -, hunfit⟩
    · exact hlinked'
    · exact absurd (hfit _ _ List.prefix_rfl (h.step legal run)) hunfit

theorem QueueRun.linked_of_short (h : QueueRun heap ops s)
    (hshort : ∀ ops₁ s₁, ops₁ ++ [.dequeue] <+: ops → QueueRun heap ops₁ s₁ →
      s₁.list.numItems < 2) : ∃ entries, Linked s.heap s.list entries := by
  induction h with
  | start => exact ⟨[], createEmptyList_linked heap⟩
  | @step ops s s' o h legal run ih =>
    obtain ⟨entries, hlinked⟩ := ih fun ops₁ s₁ hearlier =>
      hshort ops₁ s₁ (hearlier.trans (List.prefix_append ops [o]))
    rcases QueueOp.linked_or_unfit hlinked legal run with ⟨hlinked', -⟩ | ⟨rfl, hlong, -⟩
    · exact hlinked'
    · exact absurd (hshort ops s List.prefix_rfl h) hlong

/-- The list is fit after every operation of a run exactly when nothing is ever dequeued from a
list of two items or more. -/
theorem fit_iff_dequeue_short (heap : Heap α) (ops : List (QueueOp α)) :
    (∀ ops₁ s₁, ops₁ <+: ops → QueueRun heap ops₁ s₁ → Fit s₁) ↔
      ∀ ops₁ s₁, ops₁ ++ [.dequeue] <+: ops → QueueRun heap ops₁ s₁ → s₁.list.numItems < 2 := by
  constructor
  · intro hfit ops₁ s₁ hearlier h₁
    obtain ⟨entries, hlinked⟩ := h₁.linked_of_fit fun ops₂ s₂ hshorter =>
      hfit ops₂ s₂ (hshorter.trans ((List.prefix_append ops₁ _).trans hearlier))
    obtain ⟨s', run⟩ := dequeue_ok hlinked
    rcases QueueOp.linked_or_unfit (o := .dequeue) hlinked trivial run with
      ⟨-, hshort⟩ | ⟨-, -, hunfit⟩
    · exact hshort rfl
    · exact absurd (hfit _ _ hearlier (h₁.step trivial run)) hunfit
  · intro hshort ops₁ s₁ hearlier h₁
    obtain ⟨entries, hlinked⟩ := h₁.linked_of_short fun ops₂ s₂ hshorter =>
      hshort ops₂ s₂ (hshorter.trans hearlier)
    exact fit_of_linked hlinked

/-- Two items and one `dequeue`: the `prev` link of the node that is left leads to the freed one,
and deleting that node would follow it. -/
theorem dequeue_unfit : ∃ s : QueueState ℕ,
    QueueRun (fun _ => none) [.enqueue 1 (some 10), .enqueue 2 (some 20), .dequeue] s ∧
    ¬ Fit s ∧ ∃ node, s.list.head = some 2 ∧ s.heap 2 = some node ∧ node.prev = some 1 ∧
      s.heap 1 = none ∧ deleteNode s.heap s.list (some 2) = none := by
  have h1 : QueueRun (fun _ => none) ([] : List (QueueOp ℕ)) _ := .start
  have h2 := h1.step (o := .enqueue 1 (some 10)) rfl rfl
  have h3 := h2.step (o := .enqueue 2 (some 20)) rfl rfl
  have h4 := h3.step (o := .dequeue) trivial rfl
  refine ⟨_, h4, ?_, _, rfl, rfl, rfl, rfl, rfl⟩
  rintro ⟨_, -, -, -, hfront, -⟩
  exact absurd (hfront 2 _ rfl rfl) (by decide)

end ProcessManager.Pointer
