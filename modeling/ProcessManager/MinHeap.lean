import ProcessManager.Library.HeapOrder

/-! The ready queue of SJF: `min_heap.c` over an array with stale and unset entries. -/
namespace ProcessManager

/-- `struct min_heap`, with natural numbers for its counters. An entry is `none` where `data` was
never written or holds NULL. -/
structure MinHeap (α : Type) where
  data : ℕ → Option α
  numItems : ℕ
  capacity : ℕ

variable {α : Type}

def initSize : ℕ := 2

/-- `create_heap`. -/
def createHeap : MinHeap α := ⟨fun _ => none, 0, initSize⟩

/-- A read of `heap->data[index]`, which must be below the capacity and set. -/
def MinHeap.read (heap : MinHeap α) (index : ℕ) : Option α :=
  if index < heap.capacity then heap.data index else none

/-- A write to `heap->data[index]`, which must be below the capacity. -/
def MinHeap.write (heap : MinHeap α) (index : ℕ) (value : Option α) : Option (MinHeap α) :=
  if index < heap.capacity then
    some { heap with data := Function.update heap.data index value }
  else none

/-- `swap` of two entries. -/
def MinHeap.swap (heap : MinHeap α) (i j : ℕ) : Option (MinHeap α) := do
  let temp ← heap.read i
  let other ← heap.read j
  let heap ← heap.write i (some other)
  heap.write j (some temp)

/-- `up_heap`. -/
def upHeap (compare : α → α → ℤ) (heap : MinHeap α) (index : ℕ) : Option (MinHeap α) :=
  if _h : 0 < index then do
    let above ← heap.read ((index - 1) / 2)
    let item ← heap.read index
    if compare above item > 0 then
      let heap ← heap.swap index ((index - 1) / 2)
      upHeap compare heap ((index - 1) / 2)
    else some heap
  else some heap
termination_by index
decreasing_by omega

/-- One of the two tests of `down_heap`: the child replaces `smallest` if it exists and is
strictly smaller. -/
def smallerChild (compare : α → α → ℤ) (heap : MinHeap α) (smallest child : ℕ) : Option ℕ :=
  if child < heap.numItems then do
    let a ← heap.read smallest
    let b ← heap.read child
    some (if compare a b > 0 then child else smallest)
  else some smallest

/-- The `smallest` that `down_heap` computes, left child first. -/
def smallestOf (compare : α → α → ℤ) (heap : MinHeap α) (index : ℕ) : Option ℕ := do
  let smallest ← smallerChild compare heap index (2 * index + 1)
  smallerChild compare heap smallest (2 * index + 2)

theorem smallerChild_cases {compare : α → α → ℤ} {heap : MinHeap α} {s c r : ℕ}
    (h : smallerChild compare heap s c = some r) : r = s ∨ (r = c ∧ c < heap.numItems) := by
  unfold smallerChild at h
  split at h
  · simp only [Option.bind_eq_bind, Option.bind_eq_some_iff, Option.some.injEq] at h
    obtain ⟨_, _, _, _, rfl⟩ := h
    split <;> simp_all
  · simp_all

theorem smallestOf_bound {compare : α → α → ℤ} {heap : MinHeap α} {index r : ℕ}
    (h : smallestOf compare heap index = some r) :
    r = index ∨ (index < r ∧ r < heap.numItems) := by
  simp only [smallestOf, Option.bind_eq_bind, Option.bind_eq_some_iff] at h
  obtain ⟨m, hm, hr⟩ := h
  rcases smallerChild_cases hm with rfl | ⟨rfl, hlt⟩ <;>
    rcases smallerChild_cases hr with rfl | ⟨rfl, hlt'⟩ <;> omega

theorem write_eq_some {heap heap' : MinHeap α} {i : ℕ} {v : Option α}
    (h : heap.write i v = some heap') :
    heap' = { heap with data := Function.update heap.data i v } := by
  unfold MinHeap.write at h
  split at h
  · exact (Option.some.inj h).symm
  · cases h

theorem swap_numItems {heap heap' : MinHeap α} {i j : ℕ} (h : heap.swap i j = some heap') :
    heap'.numItems = heap.numItems := by
  simp only [MinHeap.swap, Option.bind_eq_bind, Option.bind_eq_some_iff] at h
  obtain ⟨_, _, _, _, mid, hmid, hend⟩ := h
  rw [write_eq_some hend, write_eq_some hmid]

/-- `down_heap`. -/
def downHeap (compare : α → α → ℤ) (heap : MinHeap α) (index : ℕ) : Option (MinHeap α) :=
  match _hs : smallestOf compare heap index with
  | none => none
  | some smallest =>
    if _hne : smallest ≠ index then
      match _hw : heap.swap index smallest with
      | none => none
      | some heap' => downHeap compare heap' smallest
    else some heap
termination_by heap.numItems - index
decreasing_by
  have := smallestOf_bound _hs
  have := swap_numItems _hw
  omega

/-- `insert_data`: the array doubles when it is full. -/
def insertData (compare : α → α → ℤ) (heap : MinHeap α) (item : α) : Option (MinHeap α) := do
  let heap :=
    if heap.numItems ≥ heap.capacity then { heap with capacity := heap.capacity * 2 } else heap
  let heap ← heap.write heap.numItems (some item)
  upHeap compare { heap with numItems := heap.numItems + 1 } heap.numItems

/-- `extract_min`: NULL from an empty heap. -/
def extractMin (compare : α → α → ℤ) (heap : MinHeap α) : Option (Option α × MinHeap α) :=
  if heap.numItems = 0 then some (none, heap)
  else do
    let min ← heap.read 0
    let heap := { heap with numItems := heap.numItems - 1 }
    if heap.numItems = 0 then
      let heap ← heap.write 0 none
      some (some min, heap)
    else
      let last ← heap.read heap.numItems
      let heap ← heap.write 0 (some last)
      let heap ← downHeap compare heap 0
      some (some min, heap)

/-- `is_empty_heap`. -/
def isEmptyHeap (heap : MinHeap α) : Bool := heap.numItems = 0

/-- The entries in use. -/
def MinHeap.items (heap : MinHeap α) : List α := (List.range heap.numItems).filterMap heap.data

/-- What the sifts need of a comparison: of two items out of order the exchange is in order, and
being in order is transitive. -/
structure Comparison (compare : α → α → ℤ) : Prop where
  flip : ∀ a b, compare a b > 0 → compare b a ≤ 0
  trans : ∀ a b c, compare a b ≤ 0 → compare b c ≤ 0 → compare a c ≤ 0

/-- Both entries are set and the first may stand above the second. -/
def InOrder (compare : α → α → ℤ) (u v : Option α) : Prop :=
  ∃ x y, u = some x ∧ v = some y ∧ compare x y ≤ 0

/-- Room for the items, and every entry in use set. -/
structure MinHeap.Filled (heap : MinHeap α) : Prop where
  capacity_pos : 0 < heap.capacity
  bound : heap.numItems ≤ heap.capacity
  filled : ∀ i, i < heap.numItems → ∃ x, heap.data i = some x

structure MinHeap.WellFormed (compare : α → α → ℤ) (heap : MinHeap α) : Prop
    extends heap.Filled where
  ordered : HeapOrder.Ordered (InOrder compare) heap.data heap.numItems

variable {compare : α → α → ℤ} {heap : MinHeap α} {index : ℕ}

theorem inOrder_trans (hc : Comparison compare) :
    ∀ x y z, InOrder compare x y → InOrder compare y z → InOrder compare x z := by
  rintro _ _ _ ⟨a, b, rfl, rfl, hab⟩ ⟨b', c, hb, rfl, hbc⟩
  cases hb
  exact ⟨a, c, rfl, rfl, hc.trans a b c hab hbc⟩

theorem createHeap_wellFormed : (createHeap : MinHeap α).WellFormed compare where
  capacity_pos := by simp [createHeap, initSize]
  bound := by simp [createHeap]
  filled := by simp [createHeap]
  ordered := by simp [HeapOrder.Ordered, createHeap]

@[simp] theorem items_createHeap : (createHeap : MinHeap α).items = [] := by
  simp [MinHeap.items, createHeap]

theorem MinHeap.Filled.items_length (h : heap.Filled) : heap.items.length = heap.numItems := by
  have hall : ∀ i ∈ List.range heap.numItems, (heap.data i).isSome = true := by
    intro i hi
    obtain ⟨x, hx⟩ := h.filled i (List.mem_range.mp hi)
    simp [hx]
  rw [items, List.length_filterMap_eq_countP, List.countP_eq_length.mpr hall, List.length_range]

theorem MinHeap.Filled.read (h : heap.Filled) {i : ℕ} (hi : i < heap.numItems) :
    ∃ x, heap.data i = some x ∧ heap.read i = some x := by
  obtain ⟨x, hx⟩ := h.filled i hi
  have hb := h.bound
  exact ⟨x, hx, by simp [MinHeap.read, hx]; omega⟩

theorem MinHeap.write_of_lt {v : Option α} (hi : index < heap.capacity) :
    heap.write index v = some { heap with data := Function.update heap.data index v } := by
  simp [MinHeap.write, hi]

/-- A swap of two entries in use is an exchange. -/
theorem MinHeap.Filled.swap (h : heap.Filled) {i j : ℕ} (hi : i < heap.numItems)
    (hj : j < heap.numItems) :
    heap.swap i j = some { heap with data := HeapOrder.exchange heap.data i j } := by
  obtain ⟨x, hx, hrx⟩ := h.read hi
  obtain ⟨y, hy, hry⟩ := h.read hj
  have hb := h.bound
  rw [MinHeap.swap, hrx, hry]
  simp only [Option.bind_eq_bind, Option.bind_some]
  rw [MinHeap.write_of_lt (by omega), Option.bind_some, MinHeap.write_of_lt (by simp; omega),
    ← hx, ← hy, HeapOrder.exchange_eq_update]

theorem MinHeap.Filled.exchange (h : heap.Filled) {i j : ℕ} (hi : i < heap.numItems)
    (hj : j < heap.numItems) :
    MinHeap.Filled { heap with data := HeapOrder.exchange heap.data i j } where
  capacity_pos := h.capacity_pos
  bound := h.bound
  filled _ hk := h.filled _ (HeapOrder.swap_lt hi hj hk)

theorem items_exchange {i j : ℕ} (hi : i < heap.numItems) (hj : j < heap.numItems) :
    ({ heap with data := HeapOrder.exchange heap.data i j } : MinHeap α).items.Perm
      heap.items :=
  HeapOrder.exchange_perm id hi hj

/-- `up_heap` from a heap out of order at `index` and its parent only. -/
theorem upHeap_spec (hc : Comparison compare) (heap : MinHeap α) (index : ℕ) (hf : heap.Filled)
    (ho : HeapOrder.UpOrder (InOrder compare) heap.data heap.numItems index)
    (hi : index < heap.numItems) :
    ∃ heap', upHeap compare heap index = some heap' ∧ heap'.WellFormed compare ∧
      heap'.items.Perm heap.items := by
  induction index using Nat.strong_induction_on generalizing heap with
  | h index ih =>
    rw [upHeap]
    by_cases hpos : 0 < index
    · have hlt : (index - 1) / 2 < index := HeapOrder.parent_lt hpos
      have hlt' : (index - 1) / 2 < heap.numItems := by omega
      obtain ⟨above, hx, hrx⟩ := hf.read hlt'
      obtain ⟨item, hy, hry⟩ := hf.read hi
      simp only [hpos, dite_true, hrx, hry, Option.bind_eq_bind, Option.bind_some]
      by_cases hcmp : compare above item > 0
      · simp only [hcmp, if_true, hf.swap hi hlt', Option.bind_some]
        have hle : InOrder compare (heap.data index) (heap.data (HeapOrder.parent index)) :=
          ⟨item, above, hy, hx, hc.flip _ _ hcmp⟩
        have hmove := ho.move (inOrder_trans hc) hpos hi hle
        obtain ⟨heap', hup, hwf, hperm⟩ := ih _ hlt _ (hf.exchange hi hlt') hmove hlt'
        exact ⟨heap', hup, hwf, hperm.trans (items_exchange hi hlt')⟩
      · simp only [hcmp, if_false]
        exact ⟨heap, rfl, ⟨hf, ho.finish fun _ => ⟨above, item, hx, hy, by omega⟩⟩, .refl _⟩
    · simp only [hpos, dite_false]
      exact ⟨heap, rfl, ⟨hf, ho.finish fun h => absurd h hpos⟩, .refl _⟩

/-- The array after a full one doubled. -/
theorem grow_filled (hf : heap.Filled) :
    (if heap.numItems ≥ heap.capacity then { heap with capacity := heap.capacity * 2 }
      else heap) = { heap with capacity :=
        if heap.numItems ≥ heap.capacity then heap.capacity * 2 else heap.capacity } ∧
    heap.numItems <
      if heap.numItems ≥ heap.capacity then heap.capacity * 2 else heap.capacity := by
  have hp := hf.capacity_pos
  have hb := hf.bound
  constructor
  · split <;> rfl
  · split <;> omega

/-- `insert_data` never faults and adds exactly its item. -/
theorem insertData_spec (hc : Comparison compare) (hw : heap.WellFormed compare) (item : α) :
    ∃ heap', insertData compare heap item = some heap' ∧ heap'.WellFormed compare ∧
      heap'.items.Perm (item :: heap.items) := by
  obtain ⟨hgrow, hroom⟩ := grow_filled hw.toFilled
  generalize hcap : (if heap.numItems ≥ heap.capacity then heap.capacity * 2
    else heap.capacity) = cap at hgrow hroom
  have hwrite := (MinHeap.write_of_lt hroom :
    ({ heap with capacity := cap } : MinHeap α).write heap.numItems (some item) = _)
  rw [insertData, hgrow]
  simp only [hwrite, Option.bind_eq_bind, Option.bind_some]
  have hlast : ∀ i, i < heap.numItems →
      Function.update heap.data heap.numItems (some item) i = heap.data i :=
    fun i hi => Function.update_of_ne (by omega) _ _
  obtain ⟨heap', hup, hwf, hperm⟩ := upHeap_spec hc
    ⟨Function.update heap.data heap.numItems (some item), heap.numItems + 1, cap⟩ heap.numItems
    { capacity_pos := by simp; omega
      bound := by simp; omega
      filled := by
        intro i hi
        by_cases hin : i = heap.numItems
        · exact ⟨item, by simp [hin]⟩
        · obtain ⟨x, hx⟩ := hw.filled i (by simp at hi; omega)
          exact ⟨x, by simpa [Function.update_of_ne hin] using hx⟩ }
    (hw.ordered.push _) (by simp)
  refine ⟨heap', hup, hwf, hperm.trans ?_⟩
  have hold : (List.range heap.numItems).filterMap
      (Function.update heap.data heap.numItems (some item)) = heap.items :=
    List.filterMap_congr fun i hi => hlast i (List.mem_range.mp hi)
  simp only [MinHeap.items, List.range_succ, List.filterMap_append, hold]
  simp

theorem smallerChild_spec (hc : Comparison compare) (hf : heap.Filled) {s c : ℕ}
    (hs : s < heap.numItems) :
    ∃ r, smallerChild compare heap s c = some r ∧
      (heap.numItems ≤ c ∧ r = s ∨
        c < heap.numItems ∧ (r = s ∧ InOrder compare (heap.data s) (heap.data c) ∨
          r = c ∧ InOrder compare (heap.data c) (heap.data s))) := by
  unfold smallerChild
  by_cases hlt : c < heap.numItems
  · obtain ⟨x, hx, hrx⟩ := hf.read hs
    obtain ⟨y, hy, hry⟩ := hf.read hlt
    by_cases hcmp : compare x y > 0
    · exact ⟨c, by simp [hlt, hrx, hry, hcmp],
        Or.inr ⟨hlt, Or.inr ⟨rfl, y, x, hy, hx, hc.flip _ _ hcmp⟩⟩⟩
    · exact ⟨s, by simp [hlt, hrx, hry, hcmp],
        Or.inr ⟨hlt, Or.inl ⟨rfl, x, y, hx, hy, by omega⟩⟩⟩
  · exact ⟨s, by simp [hlt], Or.inl ⟨by omega, rfl⟩⟩

/-- The position `down_heap` goes on from: `index` when it is in order with its children, else a
child in order with it and with the other child. -/
theorem smallestOf_spec (hc : Comparison compare) (hf : heap.Filled)
    (hi : index < heap.numItems) :
    ∃ r, smallestOf compare heap index = some r ∧
      (r = index ∧ (∀ d, HeapOrder.IsChild d index → d < heap.numItems →
          InOrder compare (heap.data index) (heap.data d)) ∨
        HeapOrder.IsChild r index ∧ r < heap.numItems ∧
          InOrder compare (heap.data r) (heap.data index) ∧
          ∀ d, HeapOrder.IsChild d index → d < heap.numItems → d ≠ r →
            InOrder compare (heap.data r) (heap.data d)) := by
  have htrans := inOrder_trans hc
  obtain ⟨m, hm, hleft⟩ := smallerChild_spec hc hf (c := 2 * index + 1) hi
  have hmlt : m < heap.numItems := by
    rcases hleft with ⟨_, rfl⟩ | ⟨hlt, ⟨rfl, _⟩ | ⟨rfl, _⟩⟩ <;> assumption
  obtain ⟨r, hr, hright⟩ := smallerChild_spec hc hf (c := 2 * index + 2) hmlt
  refine ⟨r, by simp [smallestOf, hm, hr], ?_⟩
  rcases hleft with ⟨hno, rfl⟩ | ⟨hlt, ⟨rfl, hle⟩ | ⟨rfl, hle⟩⟩
  · rcases hright with ⟨_, rfl⟩ | ⟨hlt, _⟩
    · left
      refine ⟨rfl, fun d hd hdn => ?_⟩
      rw [HeapOrder.isChild_iff] at hd
      omega
    · omega
  · rcases hright with ⟨hno, rfl⟩ | ⟨hlt', ⟨rfl, hle'⟩ | ⟨rfl, hle'⟩⟩
    · left
      refine ⟨rfl, fun d hd hdn => ?_⟩
      rcases HeapOrder.isChild_iff.mp hd with rfl | rfl
      · exact hle
      · omega
    · left
      refine ⟨rfl, fun d hd hdn => ?_⟩
      rcases HeapOrder.isChild_iff.mp hd with rfl | rfl
      · exact hle
      · exact hle'
    · right
      refine ⟨HeapOrder.isChild_iff.mpr (by omega), hlt', hle', fun d hd hdn hne => ?_⟩
      rcases HeapOrder.isChild_iff.mp hd with rfl | rfl
      · exact htrans _ _ _ hle' hle
      · exact absurd rfl hne
  · rcases hright with ⟨hno, rfl⟩ | ⟨hlt', ⟨rfl, hle'⟩ | ⟨rfl, hle'⟩⟩
    · right
      refine ⟨HeapOrder.isChild_iff.mpr (by omega), hlt, hle, fun d hd hdn hne => ?_⟩
      rcases HeapOrder.isChild_iff.mp hd with rfl | rfl
      · exact absurd rfl hne
      · omega
    · right
      refine ⟨HeapOrder.isChild_iff.mpr (by omega), hlt, hle, fun d hd hdn hne => ?_⟩
      rcases HeapOrder.isChild_iff.mp hd with rfl | rfl
      · exact absurd rfl hne
      · exact hle'
    · right
      refine ⟨HeapOrder.isChild_iff.mpr (by omega), hlt', htrans _ _ _ hle' hle,
        fun d hd hdn hne => ?_⟩
      rcases HeapOrder.isChild_iff.mp hd with rfl | rfl
      · exact hle'
      · exact absurd rfl hne

/-- `down_heap` from a heap out of order at `index` and its children only. -/
theorem downHeap_spec (hc : Comparison compare) (heap : MinHeap α) (index : ℕ)
    (hf : heap.Filled)
    (ho : HeapOrder.DownOrder (InOrder compare) heap.data heap.numItems index)
    (hi : index < heap.numItems) :
    ∃ heap', downHeap compare heap index = some heap' ∧ heap'.WellFormed compare ∧
      heap'.items.Perm heap.items := by
  induction hk : heap.numItems - index using Nat.strong_induction_on generalizing heap index with
  | h k ih =>
    obtain ⟨r, hr, hcase⟩ := smallestOf_spec hc hf hi
    rw [downHeap]
    rcases hcase with ⟨rfl, hstop⟩ | ⟨hchild, hlt, hle, hmin⟩
    · refine ⟨heap, ?_, ⟨hf, ho.finish hstop⟩, .refl _⟩
      split
      · simp_all
      · simp_all
    · have hgt : index < r := by
        rw [HeapOrder.isChild_iff] at hchild
        omega
      have hmove := ho.move hchild hlt hle hmin
      obtain ⟨heap', hdown, hwf, hperm⟩ := ih _ (by simp; omega) _ r (hf.exchange hi hlt)
        hmove hlt rfl
      refine ⟨heap', ?_, hwf, hperm.trans (items_exchange hi hlt)⟩
      split
      · simp_all
      · rename_i s hs
        obtain rfl : s = r := by simpa [hr] using hs.symm
        rw [dif_pos (by omega)]
        split
        · rename_i hw
          simp [hf.swap hi hlt] at hw
        · rename_i h' hw
          rw [hf.swap hi hlt] at hw
          cases hw
          exact hdown

/-- `extract_min` never faults: NULL from an empty heap, else the root, which comes before every
entry that stays. -/
theorem extractMin_spec (hc : Comparison compare) (hw : heap.WellFormed compare)
    (hne : heap.numItems ≠ 0) :
    ∃ item heap', extractMin compare heap = some (some item, heap') ∧
      heap'.WellFormed compare ∧ heap.items.Perm (item :: heap'.items) ∧
      ∀ y ∈ heap'.items, compare item y ≤ 0 := by
  obtain ⟨n, hn⟩ : ∃ n, heap.numItems = n + 1 := ⟨heap.numItems - 1, by omega⟩
  obtain ⟨item, hx, hrx⟩ := hw.read (i := 0) (by omega)
  have hroot := (hn ▸ hw.ordered).root (inOrder_trans hc)
  have hcap := hw.capacity_pos
  have hitems : heap.items = item :: (List.range n).filterMap fun i => heap.data (i + 1) := by
    rw [MinHeap.items, hn, List.range_succ_eq_map, List.filterMap_cons, hx, List.filterMap_map]
    rfl
  have hmin : ∀ y ∈ (List.range n).filterMap fun i => heap.data (i + 1), compare item y ≤ 0 := by
    intro y hy
    simp only [List.mem_filterMap, List.mem_range] at hy
    obtain ⟨i, hi, hyi⟩ := hy
    obtain ⟨a, b, ha, hb, hab⟩ := hroot (i + 1) (by omega) (by omega)
    rw [hx, Option.some.injEq] at ha
    rw [hyi, Option.some.injEq] at hb
    rwa [ha, hb]
  rw [extractMin, if_neg hne, hrx]
  simp only [Option.bind_eq_bind, Option.bind_some, hn, Nat.add_sub_cancel]
  by_cases hone : n = 0
  · subst hone
    refine ⟨item, ⟨Function.update heap.data 0 none, 0, heap.capacity⟩, ?_, ?_, ?_, ?_⟩
    · simp [MinHeap.write, hcap]
    · exact ⟨⟨hcap, by simp, by simp⟩, by simp [HeapOrder.Ordered]⟩
    · rw [hitems]
      simp [MinHeap.items]
    · simp [MinHeap.items]
  · obtain ⟨last, hl, hrl⟩ := hw.read (i := n) (by omega)
    have hbound := hw.bound
    simp only [hone, if_false]
    have hrl' : MinHeap.read { heap with numItems := n } n = some last := hrl
    have hfilled : MinHeap.Filled ⟨Function.update heap.data 0 (some last), n, heap.capacity⟩ :=
      { capacity_pos := hcap
        bound := by simp; omega
        filled := by
          intro i hi
          by_cases hi0 : i = 0
          · exact ⟨last, by simp [hi0]⟩
          · obtain ⟨x, hx⟩ := hw.filled i (by simp at hi; omega)
            exact ⟨x, by simpa [Function.update_of_ne hi0] using hx⟩ }
    obtain ⟨heap', hdown, hwf, hperm⟩ := downHeap_spec hc
      ⟨Function.update heap.data 0 (some last), n, heap.capacity⟩ 0 hfilled
      ((hn ▸ hw.ordered).pop _) (by simp; omega)
    -- the root's place holds the last item, every other place what it held
    have hmoved : (⟨Function.update heap.data 0 (some last), n, heap.capacity⟩ :
        MinHeap α).items.Perm ((List.range n).filterMap fun i => heap.data (i + 1)) := by
      obtain ⟨m, rfl⟩ : ∃ m, n = m + 1 := ⟨n - 1, by omega⟩
      rw [MinHeap.items, List.range_succ_eq_map, List.filterMap_cons, List.filterMap_map,
        ← List.range_succ_eq_map, List.range_succ, List.filterMap_append]
      simp only [Function.update_self, List.filterMap_cons, hl, List.filterMap_nil]
      have hrest : (List.range m).filterMap
          (Function.update heap.data 0 (some last) ∘ Nat.succ) =
          (List.range m).filterMap fun i => heap.data (i + 1) :=
        List.filterMap_congr fun i _ => by simp
      rw [hrest]
      exact (List.perm_append_singleton _ _).symm
    refine ⟨item, heap', ?_, hwf, ?_, ?_⟩
    · rw [hrl', Option.bind_some, MinHeap.write_of_lt (by exact hcap), Option.bind_some, hdown]
      rfl
    · rw [hitems]
      exact (hperm.trans hmoved).symm.cons item
    · intro y hy
      exact hmin y ((hperm.trans hmoved).mem_iff.mp hy)

theorem extractMin_empty (h : heap.numItems = 0) :
    extractMin compare heap = some (none, heap) := by
  simp [extractMin, h]

end ProcessManager
