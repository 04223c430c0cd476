import Mathlib

/-! Binary heaps in an array: the order on parents and children, and how one exchange moves the
single place where it may fail. -/
namespace HeapOrder

/-- The parent of a position; position 0 is its own. -/
def parent (i : ℕ) : ℕ := (i - 1) / 2

/-- Position 0 is no position's child. -/
def IsChild (c p : ℕ) : Prop := 0 < c ∧ parent c = p

theorem parent_lt {i : ℕ} (h : 0 < i) : parent i < i := by
  unfold parent
  omega

theorem isChild_iff {c p : ℕ} : IsChild c p ↔ c = 2 * p + 1 ∨ c = 2 * p + 2 := by
  unfold IsChild parent
  omega

variable {β : Type*} {le : β → β → Prop} {a : ℕ → β} {n hole c : ℕ}

/-- No entry below `n` comes before its parent. -/
def Ordered (le : β → β → Prop) (a : ℕ → β) (n : ℕ) : Prop :=
  ∀ i, 0 < i → i < n → le (a (parent i)) (a i)

/-- Only the pair of `hole` and its parent may be out of order. -/
structure UpOrder (le : β → β → Prop) (a : ℕ → β) (n hole : ℕ) : Prop where
  except : ∀ i, 0 < i → i < n → i ≠ hole → le (a (parent i)) (a i)
  grand : 0 < hole → ∀ c, IsChild c hole → c < n → le (a (parent hole)) (a c)

/-- Only the pairs of `hole` and its children may be out of order. -/
structure DownOrder (le : β → β → Prop) (a : ℕ → β) (n hole : ℕ) : Prop where
  except : ∀ i, 0 < i → i < n → parent i ≠ hole → le (a (parent i)) (a i)
  grand : 0 < hole → ∀ c, IsChild c hole → c < n → le (a (parent hole)) (a c)

/-- The array with two entries exchanged. -/
def exchange (a : ℕ → β) (i j : ℕ) : ℕ → β := a ∘ Equiv.swap i j

@[simp] theorem exchange_left (a : ℕ → β) (i j : ℕ) : exchange a i j i = a j := by
  simp [exchange]

@[simp] theorem exchange_right (a : ℕ → β) (i j : ℕ) : exchange a i j j = a i := by
  simp [exchange]

theorem exchange_other {i j k : ℕ} (hi : k ≠ i) (hj : k ≠ j) : exchange a i j k = a k := by
  simp [exchange, Equiv.swap_apply_of_ne_of_ne hi hj]

theorem exchange_eq_update (a : ℕ → β) (i j : ℕ) :
    Function.update (Function.update a i (a j)) j (a i) = exchange a i j := by
  funext k
  by_cases hj : k = j
  · subst hj
    simp
  · by_cases hi : k = i
    · subst hi
      simp [hj]
    · simp [hi, hj, exchange_other hi hj]

theorem swap_lt {i j k : ℕ} (hi : i < n) (hj : j < n) (hk : k < n) : Equiv.swap i j k < n := by
  rw [Equiv.swap_apply_def]
  split_ifs <;> assumption

/-- Exchanging two of the first `n` entries keeps them as a collection. -/
theorem exchange_perm {γ : Type*} (f : β → Option γ) {i j : ℕ} (hi : i < n) (hj : j < n) :
    ((List.range n).filterMap fun k => f (exchange a i j k)).Perm
      ((List.range n).filterMap fun k => f (a k)) := by
  have hmap : ((List.range n).map (Equiv.swap i j)).Perm (List.range n) := by
    refine (List.perm_ext_iff_of_nodup
      (List.nodup_range.map (Equiv.injective _)) List.nodup_range).mpr fun k => ?_
    simp only [List.mem_map, List.mem_range]
    constructor
    · rintro ⟨l, hl, rfl⟩
      exact swap_lt hi hj hl
    · intro hk
      exact ⟨Equiv.swap i j k, swap_lt hi hj hk, by simp⟩
  have := hmap.filterMap fun k => f (a k)
  simpa [List.filterMap_map, exchange, Function.comp_def] using this

theorem UpOrder.move (htrans : ∀ x y z, le x y → le y z → le x z) (o : UpOrder le a n hole)
    (hpos : 0 < hole) (hlt : hole < n) (hle : le (a hole) (a (parent hole))) :
    UpOrder le (exchange a hole (parent hole)) n (parent hole) := by
  have hp := parent_lt hpos
  constructor
  · intro i hi hin hne
    by_cases hih : i = hole
    · subst hih
      simpa using hle
    rw [exchange_other hih hne]
    by_cases hpi : parent i = hole
    · rw [hpi, exchange_left]
      exact o.grand hpos i ⟨hi, hpi⟩ hin
    · by_cases hpp : parent i = parent hole
      · rw [hpp, exchange_right]
        have hsib := o.except i hi hin hih
        rw [hpp] at hsib
        exact htrans _ _ _ hle hsib
      · rw [exchange_other hpi hpp]
        exact o.except i hi hin hih
  · intro hppos c hc hcn
    have hpp := parent_lt hppos
    have hparent := o.except (parent hole) hppos (by omega) (by omega)
    rw [exchange_other (by omega) (by omega)]
    by_cases hch : c = hole
    · subst hch
      simpa using hparent
    · have hcp : c ≠ parent hole := by
        intro he
        have := parent_lt hc.1
        have := hc.2
        omega
      rw [exchange_other hch hcp]
      have hsib := o.except c hc.1 hcn hch
      rw [hc.2] at hsib
      exact htrans _ _ _ hparent hsib

theorem UpOrder.finish (o : UpOrder le a n hole)
    (hstop : 0 < hole → le (a (parent hole)) (a hole)) : Ordered le a n := by
  intro i hi hin
  by_cases hih : i = hole
  · subst hih
    exact hstop hi
  · exact o.except i hi hin hih

/-- An entry put behind the last one may be out of order with its parent only. -/
theorem Ordered.push (o : Ordered le a n) (x : β) :
    UpOrder le (Function.update a n x) (n + 1) n := by
  constructor
  · intro i hi hin hne
    have hp := parent_lt hi
    rw [Function.update_of_ne hne, Function.update_of_ne (by omega)]
    exact o i hi (by omega)
  · intro _ c hc hcn
    have := parent_lt hc.1
    have := hc.2
    omega

theorem DownOrder.move (o : DownOrder le a n hole) (hc : IsChild c hole) (hcn : c < n)
    (hle : le (a c) (a hole)) (hmin : ∀ d, IsChild d hole → d < n → d ≠ c → le (a c) (a d)) :
    DownOrder le (exchange a hole c) n c := by
  have hhc : hole < c := by
    have := parent_lt hc.1
    have := hc.2
    omega
  constructor
  · intro i hi hin hpc
    by_cases hic : i = c
    · subst hic
      simpa [hc.2] using hle
    by_cases hpi : parent i = hole
    · have hih : i ≠ hole := by
        have := parent_lt hi
        omega
      rw [hpi, exchange_left, exchange_other hih hic]
      exact hmin i ⟨hi, hpi⟩ hin hic
    · rw [exchange_other hpi hpc]
      by_cases hih : i = hole
      · subst hih
        rw [exchange_left]
        exact o.grand hi c hc hcn
      · rw [exchange_other hih hic]
        exact o.except i hi hin hpi
  · intro _ d hd hdn
    have hcd : c < d := by
      have := parent_lt hd.1
      have := hd.2
      omega
    rw [hc.2, exchange_left, exchange_other (by omega) (by omega)]
    have := o.except d hd.1 hdn (by rw [hd.2]; omega)
    rwa [hd.2] at this

theorem DownOrder.finish (o : DownOrder le a n hole)
    (hstop : ∀ c, IsChild c hole → c < n → le (a hole) (a c)) : Ordered le a n := by
  intro i hi hin
  by_cases hp : parent i = hole
  · rw [hp]
    exact hstop i ⟨hi, hp⟩ hin
  · exact o.except i hi hin hp

/-- With the last entry moved to the root, only the root may come after its children. -/
theorem Ordered.pop (o : Ordered le a (n + 1)) (x : β) :
    DownOrder le (Function.update a 0 x) n 0 := by
  constructor
  · intro i hi hin hp
    rw [Function.update_of_ne hp, Function.update_of_ne (by omega)]
    exact o i hi (by omega)
  · intro h
    omega

/-- The root comes before every other entry. -/
theorem Ordered.root (htrans : ∀ x y z, le x y → le y z → le x z) (o : Ordered le a n) :
    ∀ i, 0 < i → i < n → le (a 0) (a i) := by
  intro i
  induction i using Nat.strong_induction_on with
  | h i ih =>
    intro hi hin
    have hp := parent_lt hi
    have hle := o i hi hin
    by_cases h0 : parent i = 0
    · rwa [h0] at hle
    · exact htrans _ _ _ (ih (parent i) hp (by omega) (by omega)) hle

end HeapOrder
