import Mathlib

/-! The operations of `linked_list.c`, on a list read as the sequence of its data from head to
tail. A node that is its own identity (a memory node) stands for itself. -/
namespace ProcessManager

variable {α β : Type*}

/-- `enqueue`: NULL is refused. -/
def enqueue (list : List α) : Option α → List α × Bool
  | none => (list, false)
  | some data => (list ++ [data], true)

/-- `dequeue`: NULL when the list is empty. -/
def dequeue : List α → Option α × List α
  | [] => (none, [])
  | data :: rest => (some data, rest)

/-- `insert_node_sorted`: in front of the first node whose value is not smaller. -/
def insertNodeSorted (compare : β → β → ℤ) (getSortValue : α → β) (node : α) : List α → List α
  | [] => [node]
  | curr :: rest =>
    if compare (getSortValue curr) (getSortValue node) < 0 then
      curr :: insertNodeSorted compare getSortValue node rest
    else node :: curr :: rest

/-- `compare_ints`. -/
def compareInts (int1 int2 : ℤ) : ℤ :=
  if int1 > int2 then 1 else if int1 < int2 then -1 else 0

section
variable [DecidableEq α]

/-- `delete_node` of a member. -/
def deleteNode (list : List α) (node : α) : List α := list.erase node

/-- `delete_node_by_data`: the search has no end test, so it runs into NULL when the data is not
there. -/
def deleteNodeByData : List α → α → Option (List α)
  | [], _ => none
  | curr :: rest, data =>
    if curr = data then some rest else (deleteNodeByData rest data).map (curr :: ·)

/-- What the `next` links lead to from a node. -/
def nodesAfter (list : List α) (node : α) : List α := (list.dropWhile (· ≠ node)).tail

/-- What stands between the head and a node. -/
def nodesBefore (list : List α) (node : α) : List α := list.takeWhile (· ≠ node)

/-- `get_next`. -/
def getNext (list : List α) (node : α) : Option α := (nodesAfter list node).head?

/-- `get_prev`. -/
def getPrev (list : List α) (node : α) : Option α := (nodesBefore list node).getLast?

/-- `insert_node`: the head up to `prev`, the new node, and `next` up to the tail. -/
def insertNode (list : List α) (new : α) (prev next : Option α) : List α :=
  prev.elim [] (fun a => nodesBefore list a ++ [a]) ++
    new :: next.elim [] (fun b => b :: nodesAfter list b)

end

variable {l L R : List α} {n a : α}

/-- Insertion by `compare_ints` is the insertion of insertion sort. -/
theorem insertNodeSorted_eq (key : α → ℤ) (l : List α) :
    insertNodeSorted compareInts key n l = l.orderedInsert (fun a b => key a ≤ key b) n := by
  induction l with
  | nil => rfl
  | cons x l ih =>
    have hc : compareInts (key x) (key n) < 0 ↔ ¬ key n ≤ key x := by
      unfold compareInts
      split_ifs <;> omega
    by_cases h : key n ≤ key x
    · simp [insertNodeSorted, hc, h]
    · simp [insertNodeSorted, hc, h, ih]

theorem insertNodeSorted_perm (key : α → ℤ) (l : List α) :
    (insertNodeSorted compareInts key n l).Perm (n :: l) := by
  rw [insertNodeSorted_eq]
  exact List.perm_orderedInsert _ _ _

theorem insertNodeSorted_sorted {key : α → ℤ} (h : l.Pairwise (key · ≤ key ·)) :
    (insertNodeSorted compareInts key n l).Pairwise (key · ≤ key ·) := by
  rw [insertNodeSorted_eq]
  have : Std.Total (fun a b : α => key a ≤ key b) := ⟨fun a b => le_total _ _⟩
  have : IsTrans α (fun a b : α => key a ≤ key b) := ⟨fun a b c => le_trans⟩
  exact h.orderedInsert _ _

/-- Only the values of the nodes concerned decide where a node goes. -/
theorem insertNodeSorted_congr {key key' : α → ℤ} (h : ∀ x ∈ n :: l, key x = key' x) :
    insertNodeSorted compareInts key n l = insertNodeSorted compareInts key' n l := by
  induction l with
  | nil => rfl
  | cons x l ih =>
    have hl := ih (fun y hy => h y (by simp at hy ⊢; tauto))
    simp [insertNodeSorted, hl, h x (by simp), h n (by simp)]

/-- Between the smaller nodes and the others, in front of those that are equal. -/
theorem insertNodeSorted_between {key : α → ℤ} (hL : ∀ x ∈ L, key x < key n)
    (hR : ∀ x ∈ R, key n ≤ key x) : insertNodeSorted compareInts key n (L ++ R) = L ++ n :: R := by
  rw [insertNodeSorted_eq]
  induction L with
  | nil =>
    cases R with
    | nil => rfl
    | cons x R => simp [hR x (by simp)]
  | cons x L ih =>
    have hx : ¬ key n ≤ key x := (hL x (by simp)).not_ge
    simp [hx, ih fun y hy => hL y (List.mem_cons_of_mem _ hy)]

variable [DecidableEq α]

/-- Taking out what was put in leaves the list as it was. -/
theorem insertNodeSorted_erase (key : α → ℤ) (l : List α) :
    (insertNodeSorted compareInts key n l).erase n = l := by
  have : Std.Refl (fun a b : α => key a ≤ key b) := ⟨fun a => le_refl _⟩
  rw [insertNodeSorted_eq]
  exact List.erase_orderedInsert _ _

theorem nodesAfter_append (h : n ∉ L) : nodesAfter (L ++ n :: R) n = R := by
  induction L with
  | nil => simp [nodesAfter]
  | cons x L ih =>
    simp only [List.mem_cons, not_or] at h
    simpa [nodesAfter, Ne.symm h.1] using ih h.2

theorem nodesBefore_append (h : n ∉ L) : nodesBefore (L ++ n :: R) n = L := by
  induction L with
  | nil => simp [nodesBefore]
  | cons x L ih =>
    simp only [List.mem_cons, not_or] at h
    simpa [nodesBefore, Ne.symm h.1] using ih h.2

theorem getNext_append (h : n ∉ L) : getNext (L ++ n :: R) n = R.head? := by
  rw [getNext, nodesAfter_append h]

theorem getPrev_append (h : n ∉ L) : getPrev (L ++ n :: R) n = L.getLast? := by
  rw [getPrev, nodesBefore_append h]

theorem deleteNode_append (h : n ∉ L) : deleteNode (L ++ n :: R) n = L ++ R := by
  simp [deleteNode, List.erase_append_right _ h]

/-- Linking a node between the two halves of a list puts it between them. -/
theorem insertNode_between (h : (L ++ R).Nodup) :
    insertNode (L ++ R) a L.getLast? R.head? = L ++ a :: R := by
  have hleft : (L.getLast?.elim [] fun x => nodesBefore (L ++ R) x ++ [x]) = L := by
    rcases List.eq_nil_or_concat L with rfl | ⟨L, x, rfl⟩
    · rfl
    · have hx : x ∉ L := by
        have hd := (List.nodup_append.mp h).1
        simp only [List.concat_eq_append, List.nodup_append] at hd
        exact fun hmem => hd.2.2 x hmem x (by simp) rfl
      simp [nodesBefore_append hx]
  have hright : (R.head?.elim [] fun x => x :: nodesAfter (L ++ R) x) = R := by
    cases R with
    | nil => rfl
    | cons x R =>
      have hx : x ∉ L := fun hmem => (List.nodup_append.mp h).2.2 x hmem x (by simp) rfl
      simp [nodesAfter_append hx]
  rw [insertNode, hleft, hright]

theorem deleteNodeByData_of_mem (h : n ∈ l) : deleteNodeByData l n = some (l.erase n) := by
  induction l with
  | nil => simp at h
  | cons x l ih =>
    by_cases hx : x = n
    · simp [deleteNodeByData, hx]
    · have hn : n ∈ l := by simpa [Ne.symm hx] using h
      simp [deleteNodeByData, hx, ih hn]

end ProcessManager
