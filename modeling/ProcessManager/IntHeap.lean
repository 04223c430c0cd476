import ProcessManager.ReadyQueue

/-! `min_heap.c` over the `int` counters and indexes it has. While no more than `2 ^ 30` items are
held it is the heap over natural numbers; with `2 ^ 30` of them the next insertion doubles the
capacity out of its range. -/
namespace ProcessManager

variable {α : Type}

/-- `struct min_heap`. -/
structure IntHeap (α : Type) where
  data : ℕ → Option α
  numItems : ℤ
  capacity : ℤ

namespace IntHeap

/-- `create_heap`. -/
def create : IntHeap α := ⟨fun _ => none, 0, initSize⟩

def read (heap : IntHeap α) (index : ℤ) : Option α :=
  if 0 ≤ index ∧ index < heap.capacity then heap.data index.toNat else none

def write (heap : IntHeap α) (index : ℤ) (value : Option α) : Option (IntHeap α) :=
  if 0 ≤ index ∧ index < heap.capacity then
    some { heap with data := Function.update heap.data index.toNat value }
  else none

/-- `swap`. -/
def swap (heap : IntHeap α) (i j : ℤ) : Option (IntHeap α) := do
  let temp ← heap.read i
  let other ← heap.read j
  let heap ← heap.write i (some other)
  heap.write j (some temp)

/-- `up_heap`. The index is never negative, so that the subtraction cannot overflow. -/
def upHeap (compare : α → α → ℤ) (heap : IntHeap α) (index : ℤ) : Option (IntHeap α) :=
  if _h : index > 0 then do
    let above ← heap.read ((index - 1).tdiv 2)
    let item ← heap.read index
    if compare above item > 0 then
      let heap ← heap.swap index ((index - 1).tdiv 2)
      upHeap compare heap ((index - 1).tdiv 2)
    else some heap
  else some heap
termination_by index.toNat
decreasing_by
  rw [Int.tdiv_eq_ediv_of_nonneg (by omega)]
  omega

/-- One of the two tests of `down_heap`. -/
def smallerChild (compare : α → α → ℤ) (heap : IntHeap α) (smallest child : ℤ) : Option ℤ :=
  if child < heap.numItems then do
    let a ← heap.read smallest
    let b ← heap.read child
    some (if compare a b > 0 then child else smallest)
  else some smallest

/-- The `smallest` of `down_heap`. -/
def smallestOf (compare : α → α → ℤ) (heap : IntHeap α) (index : ℤ) : Option ℤ := do
  let left ← toInt (2 * index + 1)
  let right ← toInt (2 * index + 2)
  let smallest ← smallerChild compare heap index left
  smallerChild compare heap smallest right

variable {compare : α → α → ℤ} {heap heap' : IntHeap α} {index child r : ℤ}

theorem read_nonneg {a : α} (h : heap.read index = some a) : 0 ≤ index := by
  unfold read at h
  split at h
  · omega
  · cases h

theorem write_numItems {v : Option α} (h : heap.write index v = some heap') :
    heap'.numItems = heap.numItems := by
  unfold write at h
  split at h
  · obtain rfl := Option.some.inj h
    rfl
  · cases h

theorem swap_numItems {i j : ℤ} (h : heap.swap i j = some heap') :
    heap'.numItems = heap.numItems := by
  simp only [swap, Option.bind_eq_bind, Option.bind_eq_some_iff] at h
  obtain ⟨_, _, _, _, mid, hmid, hend⟩ := h
  exact (write_numItems hend).trans (write_numItems hmid)

theorem smallerChild_cases (h : smallerChild compare heap index child = some r) :
    r = index ∨ (r = child ∧ 0 ≤ index ∧ child < heap.numItems) := by
  unfold smallerChild at h
  split at h
  · simp only [Option.bind_eq_bind, Option.bind_eq_some_iff] at h
    obtain ⟨a, ha, b, -, hr⟩ := h
    have hindex := read_nonneg ha
    split at hr <;> cases hr
    · exact Or.inr ⟨rfl, hindex, by assumption⟩
    · exact Or.inl rfl
  · cases h
    exact Or.inl rfl

theorem toInt_eq_some {x y : ℤ} (h : toInt x = some y) : y = x := by
  unfold toInt at h
  split at h
  · exact (Option.some.inj h).symm
  · cases h

theorem smallestOf_bound (h : smallestOf compare heap index = some r) :
    r = index ∨ (index < r ∧ r < heap.numItems) := by
  simp only [smallestOf, Option.bind_eq_bind, Option.bind_eq_some_iff] at h
  obtain ⟨left, hleft, right, hright, m, hm, hr⟩ := h
  obtain rfl := toInt_eq_some hleft
  obtain rfl := toInt_eq_some hright
  rcases smallerChild_cases hm with rfl | ⟨rfl, hpos, hlt⟩ <;>
    rcases smallerChild_cases hr with rfl | ⟨rfl, hpos', hlt'⟩ <;> omega

/-- `down_heap`. -/
def downHeap (compare : α → α → ℤ) (heap : IntHeap α) (index : ℤ) : Option (IntHeap α) :=
  match _hs : smallestOf compare heap index with
  | none => none
  | some smallest =>
    if _hne : smallest ≠ index then
      match _hw : heap.swap index smallest with
      | none => none
      | some heap' => downHeap compare heap' smallest
    else some heap
termination_by (heap.numItems - index).toNat
decreasing_by
  have := smallestOf_bound _hs
  have := swap_numItems _hw
  omega

/-- The array of `insert_data` doubles when it is full; memory never runs out. -/
def grow (heap : IntHeap α) : Option (IntHeap α) :=
  if heap.numItems ≥ heap.capacity then do
    let capacity ← toInt (heap.capacity * 2)
    some { heap with capacity }
  else some heap

/-- `insert_data`. -/
def insertData (compare : α → α → ℤ) (heap : IntHeap α) (item : α) : Option (IntHeap α) := do
  let heap ← heap.grow
  let heap ← heap.write heap.numItems (some item)
  let numItems ← toInt (heap.numItems + 1)
  upHeap compare { heap with numItems } (numItems - 1)

/-- `extract_min`. -/
def extractMin (compare : α → α → ℤ) (heap : IntHeap α) : Option (Option α × IntHeap α) :=
  if heap.numItems = 0 then some (none, heap)
  else do
    let min ← heap.read 0
    let numItems ← toInt (heap.numItems - 1)
    let heap := { heap with numItems }
    if heap.numItems = 0 then
      let heap ← heap.write 0 none
      some (some min, heap)
    else
      let last ← heap.read heap.numItems
      let heap ← heap.write 0 (some last)
      let heap ← downHeap compare heap 0
      some (some min, heap)

/-- The entries in use. -/
def items (heap : IntHeap α) : List α := (List.range heap.numItems.toNat).filterMap heap.data

/-- The heap with the same numbers in its `int` fields. -/
def ofNat (heap : MinHeap α) : IntHeap α := ⟨heap.data, heap.numItems, heap.capacity⟩

variable {nat : MinHeap α} {i j : ℕ}

theorem read_ofNat (nat : MinHeap α) (i : ℕ) : (ofNat nat).read i = nat.read i := by
  simp [read, MinHeap.read, ofNat]

theorem write_ofNat (nat : MinHeap α) (i : ℕ) (v : Option α) :
    (ofNat nat).write i v = (nat.write i v).map ofNat := by
  unfold write MinHeap.write
  by_cases h : i < nat.capacity
  · simp [ofNat, h]
  · simp [ofNat, h]

theorem swap_ofNat (nat : MinHeap α) (i j : ℕ) :
    (ofNat nat).swap i j = (nat.swap i j).map ofNat := by
  unfold swap MinHeap.swap
  rw [read_ofNat, read_ofNat]
  cases nat.read i with
  | none => rfl
  | some temp =>
    cases nat.read j with
    | none => rfl
    | some other =>
      simp only [Option.bind_eq_bind, Option.bind_some, write_ofNat]
      cases nat.write i (some other) with
      | none => rfl
      | some mid => exact write_ofNat mid j (some temp)

theorem upHeap_ofNat (nat : MinHeap α) (i : ℕ) :
    upHeap compare (ofNat nat) i = (ProcessManager.upHeap compare nat i).map ofNat := by
  induction i using Nat.strong_induction_on generalizing nat with
  | h i ih =>
    rw [upHeap, ProcessManager.upHeap]
    by_cases hpos : 0 < i
    · have hparent : ((i : ℤ) - 1).tdiv 2 = ((i - 1) / 2 : ℕ) := by
        rw [Int.tdiv_eq_ediv_of_nonneg (by omega)]
        omega
      rw [dif_pos (by omega), dif_pos hpos, hparent, read_ofNat, read_ofNat]
      cases nat.read ((i - 1) / 2) with
      | none => rfl
      | some above =>
        cases nat.read i with
        | none => rfl
        | some item =>
          simp only [Option.bind_eq_bind, Option.bind_some, swap_ofNat]
          split
          · cases nat.swap i ((i - 1) / 2) with
            | none => rfl
            | some mid => exact ih ((i - 1) / 2) (by omega) mid
          · rfl
    · rw [dif_neg (by omega), dif_neg hpos]
      rfl

theorem smallerChild_ofNat (nat : MinHeap α) (i j : ℕ) :
    smallerChild compare (ofNat nat) i j =
      (ProcessManager.smallerChild compare nat i j).map Nat.cast := by
  unfold smallerChild ProcessManager.smallerChild
  rw [read_ofNat, read_ofNat]
  by_cases h : j < nat.numItems
  · rw [if_pos (by exact Int.ofNat_lt.mpr h), if_pos h]
    cases nat.read i with
    | none => rfl
    | some a =>
      cases nat.read j with
      | none => rfl
      | some b =>
        simp only [Option.bind_eq_bind, Option.bind_some, Option.map_some]
        split <;> rfl
  · rw [if_neg (by exact fun hlt => h (Int.ofNat_lt.mp hlt)), if_neg h]
    rfl

theorem smallestOf_ofNat (hi : 2 * i + 2 < 2 ^ 31) :
    smallestOf compare (ofNat nat) i =
      (ProcessManager.smallestOf compare nat i).map Nat.cast := by
  have hleft : toInt (2 * (i : ℤ) + 1) = some ((2 * i + 1 : ℕ) : ℤ) :=
    toInt_natCast (by omega : 2 * i + 1 < 2 ^ 31)
  have hright : toInt (2 * (i : ℤ) + 2) = some ((2 * i + 2 : ℕ) : ℤ) := toInt_natCast hi
  unfold smallestOf ProcessManager.smallestOf
  rw [hleft, hright]
  simp only [Option.bind_eq_bind, Option.bind_some, smallerChild_ofNat]
  cases ProcessManager.smallerChild compare nat i (2 * i + 1) with
  | none => rfl
  | some m => exact smallerChild_ofNat nat m (2 * i + 2)

theorem downHeap_eq (heap : IntHeap α) (index : ℤ) :
    downHeap compare heap index = (smallestOf compare heap index).bind fun smallest =>
      if smallest ≠ index then
        (heap.swap index smallest).bind fun heap' => downHeap compare heap' smallest
      else some heap := by
  rw [downHeap]
  split
  next hs => simp [hs]
  next smallest hs =>
    rw [hs, Option.bind_some]
    split
    · split
      next hw => simp [hw]
      next heap' hw => simp [hw]
    · rfl

/-- With fewer than 2 ^ 30 items the children of an index in use are `int` values. -/
theorem downHeap_ofNat (nat : MinHeap α) (i : ℕ) (hn : nat.numItems < 2 ^ 30)
    (hi : i < nat.numItems) :
    downHeap compare (ofNat nat) i = (ProcessManager.downHeap compare nat i).map ofNat := by
  fun_induction ProcessManager.downHeap compare nat i with
  | case1 nat i hs =>
    rw [downHeap_eq, smallestOf_ofNat (by omega), hs]
    rfl
  | case2 nat i smallest hs hne hw =>
    rw [downHeap_eq, smallestOf_ofNat (by omega), hs, Option.map_some, Option.bind_some,
      if_pos (by exact_mod_cast hne), swap_ofNat, hw]
    rfl
  | case3 nat i smallest hs hne mid hw ih =>
    have hsize := ProcessManager.swap_numItems hw
    have hbound := ProcessManager.smallestOf_bound hs
    rw [downHeap_eq, smallestOf_ofNat (by omega), hs, Option.map_some, Option.bind_some,
      if_pos (by exact_mod_cast hne), swap_ofNat, hw]
    exact ih (by omega) (by omega)
  | case4 nat i smallest hs hne =>
    rw [downHeap_eq, smallestOf_ofNat (by omega), hs, Option.map_some, Option.bind_some,
      if_neg (by exact_mod_cast hne)]
    rfl

theorem grow_ofNat {nat : MinHeap α} (hn : nat.numItems < 2 ^ 30) :
    (ofNat nat).grow = some (ofNat (if nat.numItems ≥ nat.capacity then
      { nat with capacity := nat.capacity * 2 } else nat)) := by
  unfold grow
  by_cases hfull : nat.numItems ≥ nat.capacity
  · have hdouble : toInt ((nat.capacity : ℤ) * 2) = some ((nat.capacity * 2 : ℕ) : ℤ) :=
      toInt_natCast (by omega : nat.capacity * 2 < 2 ^ 31)
    rw [if_pos (by exact Int.ofNat_le.mpr hfull), if_pos hfull]
    exact congrArg (Option.bind · _) hdouble
  · have hroom : ¬ (ofNat nat).numItems ≥ (ofNat nat).capacity :=
      fun h => hfull (Int.ofNat_le.mp h)
    rw [if_neg hroom, if_neg hfull]

/-- An insertion that finds fewer than 2 ^ 30 items. -/
theorem insertData_ofNat {nat : MinHeap α} (hn : nat.numItems < 2 ^ 30) (item : α) :
    insertData compare (ofNat nat) item =
      (ProcessManager.insertData compare nat item).map ofNat := by
  unfold insertData ProcessManager.insertData
  rw [grow_ofNat hn]
  generalize hgrown : (if nat.numItems ≥ nat.capacity then
    { nat with capacity := nat.capacity * 2 } else nat) = grown
  have hsize : grown.numItems = nat.numItems := by
    rw [← hgrown]
    split <;> rfl
  have hnext : toInt ((grown.numItems : ℤ) + 1) = some ((grown.numItems + 1 : ℕ) : ℤ) := by
    rw [← Nat.cast_succ]
    exact toInt_natCast (by omega)
  have hlast : ((grown.numItems + 1 : ℕ) : ℤ) - 1 = grown.numItems := by omega
  have hwrite : (ofNat grown).write (ofNat grown).numItems (some item) =
      (grown.write grown.numItems (some item)).map ofNat := write_ofNat _ _ _
  simp only [Option.bind_eq_bind, Option.bind_some, hwrite]
  cases hw : grown.write grown.numItems (some item) with
  | none => rfl
  | some mid =>
    have hmid : mid.numItems = grown.numItems := by rw [write_eq_some hw]
    have hcount : (ofNat mid).numItems = grown.numItems := by
      rw [← hmid]
      rfl
    rw [Option.map_some, Option.bind_some, Option.bind_some, hcount, hnext, Option.bind_some, hlast,
      hmid]
    have hcounted : (⟨(ofNat mid).data, (grown.numItems + 1 : ℕ), (ofNat mid).capacity⟩ :
        IntHeap α) = ofNat { mid with numItems := grown.numItems + 1 } := rfl
    rw [hcounted]
    exact upHeap_ofNat _ grown.numItems

/-- An insertion that finds 2 ^ 30 items in an array of that size. -/
theorem insertData_full {nat : MinHeap α} (hn : nat.numItems = 2 ^ 30)
    (hcapacity : nat.capacity = 2 ^ 30) (item : α) :
    insertData compare (ofNat nat) item = none := by
  have hover : toInt 2147483648 = none := by decide
  have hgrow : (ofNat nat).grow = none := by
    unfold grow
    rw [if_pos (by simp [ofNat, hn, hcapacity])]
    simp [ofNat, hcapacity, hover]
  rw [insertData, hgrow]
  rfl

/-- What an extraction does with the items that stay. -/
theorem extractRest_ofNat {nat : MinHeap α} (hn : nat.numItems < 2 ^ 30) (min : α) :
    (if (ofNat nat).numItems = 0 then do
        let heap ← (ofNat nat).write 0 none
        some (some min, heap)
      else do
        let last ← (ofNat nat).read (ofNat nat).numItems
        let heap ← (ofNat nat).write 0 (some last)
        let heap ← downHeap compare heap 0
        some (some min, heap)) =
      (if nat.numItems = 0 then do
        let heap ← nat.write 0 none
        some (some min, heap)
      else do
        let last ← nat.read nat.numItems
        let heap ← nat.write 0 (some last)
        let heap ← ProcessManager.downHeap compare heap 0
        some (some min, heap)).map (Prod.map id ofNat) := by
  have hwrite : ∀ v, (ofNat nat).write 0 v = (nat.write 0 v).map ofNat := write_ofNat nat 0
  have hread : (ofNat nat).read (ofNat nat).numItems = nat.read nat.numItems := read_ofNat nat _
  by_cases hempty : nat.numItems = 0
  · rw [if_pos (by simp [ofNat, hempty]), if_pos hempty, hwrite]
    cases nat.write 0 none with
    | none => rfl
    | some mid => rfl
  · rw [if_neg (by simp [ofNat, hempty]), if_neg hempty, hread]
    cases nat.read nat.numItems with
    | none => rfl
    | some last =>
      simp only [Option.bind_eq_bind, Option.bind_some, hwrite]
      cases hw : nat.write 0 (some last) with
      | none => rfl
      | some mid =>
        have hmid : mid.numItems = nat.numItems := by rw [write_eq_some hw]
        have hdown : downHeap compare (ofNat mid) 0 =
            (ProcessManager.downHeap compare mid 0).map ofNat :=
          downHeap_ofNat mid 0 (by omega) (by omega)
        rw [Option.map_some, Option.bind_some, Option.bind_some, hdown]
        cases ProcessManager.downHeap compare mid 0 with
        | none => rfl
        | some heap => rfl

theorem extractMin_ofNat {nat : MinHeap α} (hn : nat.numItems ≤ 2 ^ 30) :
    extractMin compare (ofNat nat) =
      (ProcessManager.extractMin compare nat).map (Prod.map id ofNat) := by
  unfold extractMin ProcessManager.extractMin
  by_cases hempty : nat.numItems = 0
  · rw [if_pos (by simp [ofNat, hempty]), if_pos hempty]
    rfl
  · have hless : toInt ((ofNat nat).numItems - 1) = some ((nat.numItems - 1 : ℕ) : ℤ) := by
      have hpred : (ofNat nat).numItems - 1 = (nat.numItems - 1 : ℕ) :=
        (Nat.cast_pred (by omega)).symm
      rw [hpred]
      exact toInt_natCast (by omega)
    have hread : (ofNat nat).read 0 = nat.read 0 := read_ofNat nat 0
    rw [if_neg (by simp [ofNat, hempty]), if_neg hempty, hread]
    cases nat.read 0 with
    | none => rfl
    | some min =>
      simp only [Option.bind_eq_bind, Option.bind_some, hless]
      have hrest : nat.numItems - 1 < 2 ^ 30 := by omega
      let rest : MinHeap α := { nat with numItems := nat.numItems - 1 }
      exact extractRest_ofNat (show rest.numItems < 2 ^ 30 from hrest) min

end IntHeap

end ProcessManager
