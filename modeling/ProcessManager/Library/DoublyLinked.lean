import Mathlib

/-! Doubly linked lists on a heap: the nodes a list runs through in both directions, and what
writing its links does to it. -/
namespace DoublyLinked

/-- The address of a node. A pointer is `none` when it is NULL. -/
abbrev Addr := ℕ

structure Node (α : Type*) where
  data : α
  next : Option Addr
  prev : Option Addr
  deriving DecidableEq, Repr

/-- The nodes that are allocated. -/
abbrev Heap (α : Type*) := Addr → Option (Node α)

/-- What a list stores besides its nodes. A 32-bit counter has room for fewer than `2 ^ 31` of
them. -/
structure Header where
  head : Option Addr
  tail : Option Addr
  numItems : ℤ
  deriving DecidableEq, Repr

variable {α : Type*}

def Heap.store (heap : Heap α) (a : Addr) (node : Node α) : Heap α :=
  Function.update heap a (some node)

/-- `pointer->next = value`, which fails at a pointer that leads to no node. -/
def Heap.setNext (heap : Heap α) (pointer value : Option Addr) : Option (Heap α) :=
  pointer.bind fun a => (heap a).map fun node => heap.store a { node with next := value }

/-- `pointer->prev = value`. -/
def Heap.setPrev (heap : Heap α) (pointer value : Option Addr) : Option (Heap α) :=
  pointer.bind fun a => (heap a).map fun node => heap.store a { node with prev := value }

/-- The same, left out at NULL. -/
def Heap.linkNext (heap : Heap α) (pointer value : Option Addr) : Option (Heap α) :=
  if pointer = none then some heap else heap.setNext pointer value

def Heap.linkPrev (heap : Heap α) (pointer value : Option Addr) : Option (Heap α) :=
  if pointer = none then some heap else heap.setPrev pointer value

/-- What a walk along one kind of links visits, up to NULL. -/
def follow (direction : Node α → Option Addr) (heap : Heap α) :
    ℕ → Option Addr → Option (List (Addr × α))
  | _, none => some []
  | 0, some _ => none
  | fuel + 1, some a => do
    let node ← heap a
    let rest ← follow direction heap fuel (direction node)
    return (a, node.data) :: rest

/-- The address of the first of some nodes, or what comes after them. -/
def first : List (Addr × α) → Option Addr → Option Addr
  | [], after => after
  | e :: _, _ => some e.1

/-- The address of the last of some nodes, or what comes before them. -/
def last : Option Addr → List (Addr × α) → Option Addr
  | before, [] => before
  | _, e :: rest => last (some e.1) rest

/-- The nodes are linked in this order, between two pointers. -/
def Segment (heap : Heap α) : Option Addr → List (Addr × α) → Option Addr → Prop
  | _, [], _ => True
  | before, e :: rest, after =>
    heap e.1 = some ⟨e.2, first rest after, before⟩ ∧ Segment heap (some e.1) rest after

def addresses (entries : List (Addr × α)) : List Addr := entries.map Prod.fst

/-- The list has these nodes, in this order. -/
structure Linked (heap : Heap α) (list : Header) (entries : List (Addr × α)) : Prop where
  head : list.head = first entries none
  tail : list.tail = last none entries
  numItems : list.numItems = entries.length
  segment : Segment heap none entries none
  nodup : (addresses entries).Nodup

variable {heap heap' : Heap α} {list : Header} {entries L R : List (Addr × α)} {e : Addr × α}
  {before after value : Option Addr} {a new : Addr} {data : α} {fuel : ℕ}

@[simp] theorem Heap.store_self (node : Node α) : heap.store a node a = some node :=
  Function.update_self _ _ _

theorem Heap.store_of_ne {b : Addr} {node : Node α} (h : b ≠ a) : heap.store a node b = heap b :=
  Function.update_of_ne h _ _

@[simp] theorem Heap.linkNext_none : heap.linkNext none value = some heap := rfl

@[simp] theorem Heap.linkNext_some : heap.linkNext (some a) value = heap.setNext (some a) value :=
  rfl

@[simp] theorem Heap.linkPrev_none : heap.linkPrev none value = some heap := rfl

@[simp] theorem Heap.linkPrev_some : heap.linkPrev (some a) value = heap.setPrev (some a) value :=
  rfl

@[simp] theorem first_nil : first ([] : List (Addr × α)) after = after := rfl

@[simp] theorem first_cons : first (e :: R) after = some e.1 := rfl

@[simp] theorem last_nil : last before ([] : List (Addr × α)) = before := rfl

@[simp] theorem last_cons : last before (e :: R) = last (some e.1) R := rfl

@[simp] theorem first_append : first (L ++ R) after = first L (first R after) := by
  cases L <;> rfl

@[simp] theorem last_append : last before (L ++ R) = last (last before L) R := by
  induction L generalizing before with
  | nil => rfl
  | cons e L ih => exact ih

theorem first_eq_none : first entries none = none ↔ entries = [] := by
  cases entries <;> simp

theorem last_eq_none : last none entries = none ↔ entries = [] := by
  rcases List.eq_nil_or_concat entries with rfl | ⟨L, e, rfl⟩
  · simp
  · simp

theorem last_mem (before : Option Addr) (hne : entries ≠ []) :
    ∃ e ∈ entries, last before entries = some e.1 := by
  rcases List.eq_nil_or_concat entries with rfl | ⟨L, e, rfl⟩
  · exact absurd rfl hne
  · exact ⟨e, by simp, by simp⟩

/-- A node in the middle is an end only where nothing is before or behind it. -/
theorem first_middle :
    first (L ++ e :: R) none = if L = [] then some e.1 else first (L ++ R) none := by
  cases L <;> simp

theorem last_middle :
    last none (L ++ e :: R) = if R = [] then some e.1 else last none (L ++ R) := by
  rcases List.eq_nil_or_concat R with rfl | ⟨R, e, rfl⟩ <;> simp

@[simp] theorem addresses_nil : addresses ([] : List (Addr × α)) = [] := rfl

@[simp] theorem addresses_cons : addresses (e :: R) = e.1 :: addresses R := rfl

@[simp] theorem addresses_append : addresses (L ++ R) = addresses L ++ addresses R :=
  List.map_append

theorem head?_addresses (R : List (Addr × α)) : (addresses R).head? = first R none := by
  cases R <;> rfl

theorem getLast?_addresses (L : List (Addr × α)) : (addresses L).getLast? = last none L := by
  rcases List.eq_nil_or_concat L with rfl | ⟨L, e, rfl⟩
  · rfl
  · simp

theorem mem_addresses_of_mem (h : e ∈ entries) : e.1 ∈ addresses entries := List.mem_map_of_mem h

theorem mem_addresses_middle :
    a ∈ addresses (L ++ e :: R) ↔ a = e.1 ∨ a ∈ addresses (L ++ R) := by
  rw [addresses_append, addresses_cons, List.mem_append, List.mem_cons, addresses_append,
    List.mem_append, or_left_comm]

/-- A node in the middle is none of the others. -/
theorem nodup_middle : (addresses (L ++ e :: R)).Nodup ↔
    e.1 ∉ addresses (L ++ R) ∧ (addresses (L ++ R)).Nodup := by
  rw [addresses_append, addresses_cons, List.nodup_middle, List.nodup_cons, addresses_append]

theorem first_mem (h : first entries none = some a) : a ∈ addresses entries := by
  cases entries with
  | nil => cases h
  | cons e rest =>
    obtain rfl := Option.some.inj h
    exact List.mem_cons_self

theorem last_mem_addresses (h : last none entries = some a) : a ∈ addresses entries := by
  have hne : entries ≠ [] := by
    rintro rfl
    cases h
  obtain ⟨e, he, hlast⟩ := last_mem none hne
  obtain rfl := Option.some.inj (hlast.symm.trans h)
  exact mem_addresses_of_mem he

/-- A member stands somewhere, once. -/
theorem split_at_member (hnd : (addresses entries).Nodup) (ha : a ∈ addresses entries) :
    ∃ L e R, entries = L ++ e :: R ∧ e.1 = a ∧ e.1 ∉ addresses L := by
  obtain ⟨e, he, rfl⟩ := List.mem_map.mp ha
  obtain ⟨L, R, rfl⟩ := List.append_of_mem he
  obtain ⟨hnot, -⟩ := nodup_middle.mp hnd
  refine ⟨L, e, R, rfl, rfl, fun hmem => hnot ?_⟩
  rw [addresses_append]
  exact List.mem_append_left _ hmem

@[simp] theorem segment_nil : Segment heap before [] after := trivial

@[simp] theorem segment_cons : Segment heap before (e :: R) after ↔
    heap e.1 = some ⟨e.2, first R after, before⟩ ∧ Segment heap (some e.1) R after := Iff.rfl

theorem segment_append : Segment heap before (L ++ R) after ↔
    Segment heap before L (first R after) ∧ Segment heap (last before L) R after := by
  induction L generalizing before with
  | nil => simp
  | cons e L ih =>
    rw [List.cons_append, segment_cons, segment_cons, ih, first_append, last_cons, and_assoc]

/-- Only the nodes of a segment matter to it. -/
theorem Segment.congr (h : Segment heap before entries after)
    (same : ∀ a ∈ addresses entries, heap' a = heap a) : Segment heap' before entries after := by
  induction entries generalizing before with
  | nil => trivial
  | cons e rest ih =>
    obtain ⟨hnode, hrest⟩ := h
    exact ⟨(same e.1 (by simp)).trans hnode, ih hrest fun a ha => same a (by simp [ha])⟩

/-- A node of a segment is allocated. -/
theorem Segment.allocated (h : Segment heap before entries after) (ha : a ∈ addresses entries) :
    heap a ≠ none := by
  induction entries generalizing before with
  | nil => simp at ha
  | cons e rest ih =>
    obtain ⟨hnode, hrest⟩ := h
    rcases List.mem_cons.mp ha with rfl | ha
    · simp [hnode]
    · exact ih hrest ha

/-- Writing the last `next` link changes where a segment leads to. -/
theorem Segment.linkNext (h : Segment heap none L after) (hnd : (addresses L).Nodup)
    (value : Option Addr) : ∃ heap', heap.linkNext (last none L) value = some heap' ∧
      Segment heap' none L value ∧ ∀ a ∉ addresses L, heap' a = heap a := by
  rcases List.eq_nil_or_concat L with rfl | ⟨L, e, rfl⟩
  · exact ⟨heap, rfl, trivial, fun _ _ => rfl⟩
  · rw [List.concat_eq_append] at h hnd ⊢
    obtain ⟨hL, hnode, -⟩ := segment_append.mp h
    have hnot : e.1 ∉ addresses L := by
      simpa using (nodup_middle.mp hnd).1
    refine ⟨heap.store e.1 ⟨e.2, value, last none L⟩, ?_, ?_, ?_⟩
    · simp [Heap.linkNext, Heap.setNext, hnode]
    · refine segment_append.mpr ⟨hL.congr fun a ha => ?_, by simp⟩
      exact Heap.store_of_ne (ne_of_mem_of_not_mem ha hnot)
    · intro a ha
      exact Heap.store_of_ne fun he => ha (by simp [he])

/-- Writing the first `prev` link changes where a segment comes from. -/
theorem Segment.linkPrev (h : Segment heap before R none) (hnd : (addresses R).Nodup)
    (value : Option Addr) : ∃ heap', heap.linkPrev (first R none) value = some heap' ∧
      Segment heap' value R none ∧ ∀ a ∉ addresses R, heap' a = heap a := by
  cases R with
  | nil => exact ⟨heap, rfl, trivial, fun _ _ => rfl⟩
  | cons e R =>
    obtain ⟨hnode, hR⟩ := h
    have hnot : e.1 ∉ addresses R := (List.nodup_cons.mp hnd).1
    refine ⟨heap.store e.1 ⟨e.2, first R none, value⟩, ?_, ?_, ?_⟩
    · simp [Heap.linkPrev, Heap.setPrev, hnode]
    · refine ⟨by simp, hR.congr fun a ha => ?_⟩
      exact Heap.store_of_ne (ne_of_mem_of_not_mem ha hnot)
    · intro a ha
      exact Heap.store_of_ne fun he => ha (by simp [he])

/-- A walk that has ended ends the same with more steps allowed. -/
theorem follow_mono {direction : Node α → Option Addr} {pointer : Option Addr} {m n : ℕ}
    (h : follow direction heap m pointer = some entries) (hmn : m ≤ n) :
    follow direction heap n pointer = some entries := by
  induction m generalizing n pointer entries with
  | zero =>
    cases pointer with
    | none => cases n <;> exact h
    | some a => cases h
  | succ m ih =>
    obtain ⟨n, rfl⟩ := Nat.exists_eq_add_of_le' hmn
    rw [← Nat.add_assoc]
    cases pointer with
    | none => exact h
    | some a =>
      simp only [follow, Option.bind_eq_bind, Option.bind_eq_some_iff] at h ⊢
      obtain ⟨node, hnode, rest, hrest, hentries⟩ := h
      exact ⟨node, hnode, rest, ih hrest (Nat.le_add_left _ _), hentries⟩

theorem Segment.follow_next (h : Segment heap before entries none) (hfuel : entries.length ≤ fuel) :
    follow Node.next heap fuel (first entries none) = some entries := by
  induction entries generalizing before fuel with
  | nil => cases fuel <;> rfl
  | cons e rest ih =>
    obtain ⟨hnode, hrest⟩ := h
    obtain ⟨fuel, rfl⟩ := Nat.exists_eq_add_of_le' hfuel
    rw [List.length_cons, ← Nat.add_assoc]
    simp [follow, hnode, ih hrest (Nat.le_add_left _ _)]

theorem Segment.follow_prev (h : Segment heap none entries after)
    (hfuel : entries.length ≤ fuel) :
    follow Node.prev heap fuel (last none entries) = some entries.reverse := by
  induction entries using List.reverseRecOn generalizing after fuel with
  | nil => cases fuel <;> rfl
  | append_singleton L e ih =>
    obtain ⟨hL, hnode, -⟩ := segment_append.mp h
    obtain ⟨fuel, rfl⟩ := Nat.exists_eq_add_of_le' hfuel
    rw [List.length_append, List.length_singleton, ← Nat.add_assoc]
    simp [follow, hnode, ih hL (Nat.le_add_left _ _)]

/-- Only its own nodes matter to a list. -/
theorem Linked.congr (h : Linked heap list entries)
    (same : ∀ a ∈ addresses entries, heap' a = heap a) : Linked heap' list entries :=
  ⟨h.head, h.tail, h.numItems, h.segment.congr same, h.nodup⟩

/-- The links of a member lead to members. -/
theorem Linked.links (h : Linked heap list entries) (ha : a ∈ addresses entries) {b : Addr}
    {node : Node α} (hnode : heap a = some node) (hb : node.next = some b ∨ node.prev = some b) :
    b ∈ addresses entries := by
  obtain ⟨L, e, R, rfl, rfl, -⟩ := split_at_member h.nodup ha
  obtain ⟨-, hmiddle, -⟩ := segment_append.mp h.segment
  obtain rfl := Option.some.inj (hnode.symm.trans hmiddle)
  rw [addresses_append, addresses_cons]
  rcases hb with hb | hb
  · exact List.mem_append_right _ (List.mem_cons_of_mem _ (first_mem hb))
  · exact List.mem_append_left _ (last_mem_addresses hb)

/-- A new node between two parts of a list, with the links to it. -/
theorem Linked.insert (h : Linked heap list (L ++ R)) (hnew : heap new = none) (data : α) :
    ∃ heap1 heap2,
      (heap.store new ⟨data, first R none, last none L⟩).linkNext (last none L) (some new) =
        some heap1 ∧
      heap1.linkPrev (first R none) (some new) = some heap2 ∧
      Linked heap2 ⟨if L = [] then some new else list.head,
        if R = [] then some new else list.tail, list.numItems + 1⟩ (L ++ (new, data) :: R) ∧
      ∀ a, heap a ≠ none → a ∉ addresses (L ++ R) → heap2 a = heap a := by
  have hfresh : new ∉ addresses (L ++ R) := fun hmem => h.segment.allocated hmem hnew
  obtain ⟨hL, hR⟩ := segment_append.mp h.segment
  have hnd := h.nodup
  rw [addresses_append] at hnd
  obtain ⟨hndL, hndR, hdisjoint⟩ := List.nodup_append.mp hnd
  have hapart := hfresh
  simp only [addresses_append, List.mem_append, not_or] at hapart
  have hcreate : ∀ a, a ≠ new →
      heap.store new ⟨data, first R none, last none L⟩ a = heap a := fun a ha =>
    Heap.store_of_ne ha
  obtain ⟨heap1, hok1, hL1, hframe1⟩ := (hL.congr fun a ha =>
    hcreate a (ne_of_mem_of_not_mem ha hapart.1)).linkNext hndL (some new)
  have hR1 : Segment heap1 (last none L) R none := hR.congr fun a ha => by
    rw [hframe1 a fun hmem => hdisjoint a hmem a ha rfl,
      hcreate a (ne_of_mem_of_not_mem ha hapart.2)]
  obtain ⟨heap2, hok2, hR2, hframe2⟩ := hR1.linkPrev hndR (some new)
  have hnode : heap2 new = some ⟨data, first R none, last none L⟩ := by
    rw [hframe2 new hapart.2, hframe1 new hapart.1, Heap.store_self]
  have hL2 : Segment heap2 none L (some new) := hL1.congr fun a ha =>
    hframe2 a fun hmem => hdisjoint a ha a hmem rfl
  refine ⟨heap1, heap2, hok1, hok2, ⟨?_, ?_, ?_, ?_, ?_⟩, ?_⟩
  · rw [first_middle, h.head]
  · rw [last_middle, h.tail]
  · have hcount := h.numItems
    simp only [List.length_append, List.length_cons] at hcount ⊢
    omega
  · exact segment_append.mpr ⟨hL2, hnode, hR2⟩
  · exact nodup_middle.mpr ⟨hfresh, h.nodup⟩
  · intro a ha hmem
    simp only [addresses_append, List.mem_append, not_or] at hmem
    have hne : a ≠ new := by
      rintro rfl
      exact ha hnew
    rw [hframe2 a hmem.2, hframe1 a hmem.1, hcreate a hne]

/-- The links past a node that is taken out of a list. -/
theorem Linked.remove (h : Linked heap list (L ++ e :: R)) :
    ∃ heap1 heap2, heap.linkPrev (first R none) (last none L) = some heap1 ∧
      heap1.linkNext (last none L) (first R none) = some heap2 ∧
      Linked heap2 ⟨if L = [] then first R none else list.head,
        if R = [] then last none L else list.tail, list.numItems - 1⟩ (L ++ R) ∧
      heap1 e.1 = heap e.1 ∧ ∀ a ∉ addresses (L ++ R), heap2 a = heap a := by
  obtain ⟨hL, hnode, hR⟩ := segment_append.mp h.segment
  obtain ⟨hnot, hnodup⟩ := nodup_middle.mp h.nodup
  have hnd := hnodup
  rw [addresses_append] at hnd
  obtain ⟨hndL, hndR, hdisjoint⟩ := List.nodup_append.mp hnd
  simp only [addresses_append, List.mem_append, not_or] at hnot
  obtain ⟨heap1, hok1, hR1, hframe1⟩ := hR.linkPrev hndR (last none L)
  have hL1 : Segment heap1 none L (some e.1) := hL.congr fun a ha =>
    hframe1 a fun hmem => hdisjoint a ha a hmem rfl
  obtain ⟨heap2, hok2, hL2, hframe2⟩ := hL1.linkNext hndL (first R none)
  have hR2 : Segment heap2 (last none L) R none := hR1.congr fun a ha =>
    hframe2 a fun hmem => hdisjoint a hmem a ha rfl
  refine ⟨heap1, heap2, hok1, hok2, ⟨?_, ?_, ?_, ?_, ?_⟩, hframe1 e.1 hnot.2, ?_⟩
  · rw [h.head, first_middle]
    cases L <;> simp
  · rw [h.tail, last_middle]
    cases R <;> simp
  · have hcount := h.numItems
    simp only [List.length_append, List.length_cons] at hcount ⊢
    omega
  · exact segment_append.mpr ⟨hL2, hR2⟩
  · exact hnodup
  · intro a hmem
    simp only [addresses_append, List.mem_append, not_or] at hmem
    rw [hframe2 a hmem.1, hframe1 a hmem.2]

/-- What a list looks like from outside: walks along `next` and along `prev` visit the same nodes
in opposite orders and end at NULL, and the count is right. -/
structure Shape (heap : Heap α) (list : Header) (entries : List (Addr × α)) : Prop where
  forward : ∀ fuel, entries.length ≤ fuel →
    follow Node.next heap fuel list.head = some entries
  backward : ∀ fuel, entries.length ≤ fuel →
    follow Node.prev heap fuel list.tail = some entries.reverse
  numItems : list.numItems = entries.length
  head_none : list.head = none ↔ list.numItems = 0
  tail_none : list.tail = none ↔ list.numItems = 0

theorem Linked.shape (h : Linked heap list entries) : Shape heap list entries where
  forward fuel hfuel := by
    rw [h.head]
    exact h.segment.follow_next hfuel
  backward fuel hfuel := by
    rw [h.tail]
    exact h.segment.follow_prev hfuel
  numItems := h.numItems
  head_none := by
    rw [h.head, first_eq_none, h.numItems]
    simp
  tail_none := by
    rw [h.tail, last_eq_none, h.numItems]
    simp

end DoublyLinked
