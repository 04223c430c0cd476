import Mathlib

/-! Lists of non-empty intervals that cover a range without gap or overlap. -/
namespace Tiling

variable {α β : Type*} {start size start' size' : α → ℤ} {a b c : ℤ} {x y : α} {l L R : List α}

/-- The intervals of the list cover `[a, b)` exactly, in list order. -/
def Tiles (start size : α → ℤ) : ℤ → ℤ → List α → Prop
  | a, b, [] => a = b
  | a, b, x :: rest => start x = a ∧ 1 ≤ size x ∧ Tiles start size (a + size x) b rest

@[simp] theorem tiles_nil : Tiles start size a b [] ↔ a = b := Iff.rfl

@[simp] theorem tiles_cons : Tiles start size a b (x :: l) ↔
    start x = a ∧ 1 ≤ size x ∧ Tiles start size (a + size x) b l := Iff.rfl

/-- Two neighbouring ranges are covered one after the other. -/
theorem tiles_append : Tiles start size a c (L ++ R) ↔
    ∃ b, Tiles start size a b L ∧ Tiles start size b c R := by
  induction L generalizing a with
  | nil => simp
  | cons x L ih =>
    simp only [List.cons_append, tiles_cons, ih]
    constructor
    · rintro ⟨hs, hp, b, hl, hr⟩
      exact ⟨b, ⟨hs, hp, hl⟩, hr⟩
    · rintro ⟨b, ⟨hs, hp, hl⟩, hr⟩
      exact ⟨hs, hp, b, hl, hr⟩

theorem Tiles.congr (h : Tiles start size a b l)
    (hl : ∀ x ∈ l, start' x = start x ∧ size' x = size x) : Tiles start' size' a b l := by
  induction l generalizing a with
  | nil => exact h
  | cons x l ih =>
    obtain ⟨hs, hp, hr⟩ := h
    obtain ⟨hsx, hzx⟩ := hl x (by simp)
    refine ⟨hsx.trans hs, hzx ▸ hp, ?_⟩
    rw [hzx]
    exact ih hr fun y hy => hl y (List.mem_cons_of_mem _ hy)

theorem Tiles.le (h : Tiles start size a b l) : a ≤ b := by
  induction l generalizing a with
  | nil => exact le_of_eq h
  | cons x l ih =>
    obtain ⟨_, hp, hr⟩ := h
    have := ih hr
    omega

theorem Tiles.size_pos (h : Tiles start size a b l) (hx : x ∈ l) : 1 ≤ size x := by
  obtain ⟨L, R, rfl⟩ := List.append_of_mem hx
  obtain ⟨_, _, _, hp, _⟩ := tiles_append.mp h
  exact hp

/-- Every interval lies inside the range. -/
theorem Tiles.bounds (h : Tiles start size a b l) (hx : x ∈ l) :
    a ≤ start x ∧ start x + size x ≤ b := by
  obtain ⟨L, R, rfl⟩ := List.append_of_mem hx
  obtain ⟨m, hl, hs, _, hr⟩ := tiles_append.mp h
  have := hl.le
  have := hr.le
  omega

/-- Two places of the list never share a point. -/
theorem Tiles.disjoint (h : Tiles start size a b l) (hx : x ∈ l) (hy : y ∈ l) (hxy : x ≠ y) :
    start x + size x ≤ start y ∨ start y + size y ≤ start x := by
  obtain ⟨L, R, rfl⟩ := List.append_of_mem hx
  obtain ⟨m, hl, hs, _, hr⟩ := tiles_append.mp h
  rcases List.mem_append.mp hy with hy | hy
  · have := hl.bounds hy
    omega
  · have hy : y ∈ R := by simpa [Ne.symm hxy] using hy
    have := hr.bounds hy
    omega

/-- The interval at a place begins where everything before it ends. -/
theorem tiles_split : Tiles start size a b (L ++ x :: R) ↔
    Tiles start size a (start x) L ∧ 1 ≤ size x ∧ Tiles start size (start x + size x) b R := by
  rw [tiles_append]
  constructor
  · rintro ⟨m, hl, rfl, hp, hr⟩
    exact ⟨hl, hp, hr⟩
  · rintro ⟨hl, hp, hr⟩
    exact ⟨_, hl, rfl, hp, hr⟩

/-- A run of points that meets intervals of one kind only, no two of them neighbours, lies in one
interval. -/
theorem Tiles.run_in_one (h : Tiles start size a b l) {kind : α → Prop}
    (hapart : l.IsChain fun x y => ¬ (kind x ∧ kind y)) {c n : ℤ} (ha : a ≤ c) (hn : 1 ≤ n)
    (hb : c + n ≤ b)
    (hkind : ∀ x ∈ l, start x < c + n → c < start x + size x → kind x) :
    ∃ x ∈ l, kind x ∧ start x ≤ c ∧ c + n ≤ start x + size x := by
  induction l generalizing a with
  | nil =>
    have : a = b := h
    omega
  | cons x l ih =>
    obtain ⟨hs, hp, hr⟩ := h
    by_cases hc : c < a + size x
    · have hx : kind x := hkind x (by simp) (by omega) (by omega)
      refine ⟨x, by simp, hx, by omega, ?_⟩
      by_contra hlong
      -- the run goes on into the next interval, which is of the same kind
      cases l with
      | nil =>
        have : a + size x = b := hr
        omega
      | cons y l =>
        obtain ⟨hsy, hpy, -⟩ := hr
        have hy : kind y := hkind y (by simp) (by omega) (by omega)
        exact (List.isChain_cons_cons.mp hapart).1 ⟨hx, hy⟩
    · obtain ⟨y, hy, hin⟩ := ih hr hapart.tail (by omega)
        fun y hy => hkind y (List.mem_cons_of_mem _ hy)
      exact ⟨y, List.mem_cons_of_mem _ hy, hin⟩

section
variable {start' size' : β → ℤ} {l' : List β} {free : α → Prop} {free' : β → Prop} {n : ℤ}

/-- The point lies in an interval that is not free. -/
def Used (start size : α → ℤ) (free : α → Prop) (l : List α) (c : ℤ) : Prop :=
  ∃ x ∈ l, ¬ free x ∧ start x ≤ c ∧ c < start x + size x

/-- `n` points from `c` on that no used interval meets, and that cannot be extended. -/
structure Gap (used : ℤ → Prop) (a b c n : ℤ) : Prop where
  size_pos : 1 ≤ n
  low : a ≤ c
  high : c + n ≤ b
  unused : ∀ z, c ≤ z → z < c + n → ¬ used z
  left : c = a ∨ used (c - 1)
  right : c + n = b ∨ used (c + n)

/-- A point of a free interval is not used. -/
theorem Tiles.not_used (h : Tiles start size a b l) (hx : x ∈ l) (hfree : free x)
    (hlow : start x ≤ c) (hhigh : c < start x + size x) : ¬ Used start size free l c := by
  rintro ⟨y, hy, hused, hylow, hyhigh⟩
  have hxy : x ≠ y := by
    rintro rfl
    exact hused hfree
  have hdisjoint := h.disjoint hx hy hxy
  omega

/-- Where free intervals are no neighbours, each of them is a gap between used ones. -/
theorem Tiles.gap_of_free (h : Tiles start size a b l)
    (hapart : l.IsChain fun x y => ¬ (free x ∧ free y)) (hx : x ∈ l) (hfree : free x) :
    Gap (Used start size free l) a b (start x) (size x) := by
  obtain ⟨hlow, hhigh⟩ := h.bounds hx
  obtain ⟨L, R, rfl⟩ := List.append_of_mem hx
  obtain ⟨hleft, hpos, hright⟩ := tiles_split.mp h
  constructor
  case size_pos => exact hpos
  case low => exact hlow
  case high => exact hhigh
  case unused => exact fun z hz hz' => h.not_used hx hfree hz hz'
  case left =>
    rcases List.eq_nil_or_concat L with rfl | ⟨L, w, rfl⟩
    · exact Or.inl hleft.symm
    · right
      rw [List.concat_eq_append] at hleft hapart ⊢
      obtain ⟨-, hw, hend⟩ := tiles_split.mp hleft
      have hused : ¬ free w := by
        intro hwfree
        have hpair := (List.isChain_append.mp hapart).2.2 w (by simp) x (by simp)
        exact hpair ⟨hwfree, hfree⟩
      have hw_end : start w + size w = start x := hend
      exact ⟨w, by simp, hused, by omega, by omega⟩
  case right =>
    cases R with
    | nil => exact Or.inl hright
    | cons w R =>
      right
      obtain ⟨hw_start, hw, -⟩ := hright
      have hused : ¬ free w := by
        intro hwfree
        have htail := (List.isChain_append.mp hapart).2.1
        exact (List.isChain_cons_cons.mp htail).1 ⟨hfree, hwfree⟩
      exact ⟨w, by simp, hused, by omega, by omega⟩

/-- Every gap is one free interval. -/
theorem Tiles.free_of_gap (h : Tiles start size a b l)
    (hapart : l.IsChain fun x y => ¬ (free x ∧ free y))
    (hgap : Gap (Used start size free l) a b c n) :
    ∃ x ∈ l, free x ∧ start x = c ∧ size x = n := by
  have hkind : ∀ x ∈ l, start x < c + n → c < start x + size x → free x := by
    intro x hx hfrom hto
    by_contra hused
    have hpos := h.size_pos hx
    have hn := hgap.size_pos
    exact hgap.unused (max c (start x)) (le_max_left _ _) (by omega)
      ⟨x, hx, hused, le_max_right _ _, by omega⟩
  obtain ⟨x, hx, hfree, hlow, hhigh⟩ :=
    h.run_in_one hapart hgap.low hgap.size_pos hgap.high hkind
  obtain ⟨hxlow, hxhigh⟩ := h.bounds hx
  have hpos := hgap.size_pos
  have hstart : start x = c := by
    by_contra hne
    rcases hgap.left with hend | hused
    · omega
    · exact h.not_used hx hfree (by omega) (by omega) hused
  have hend : start x + size x = c + n := by
    by_contra hne
    rcases hgap.right with hend | hused
    · omega
    · exact h.not_used hx hfree (by omega) (by omega) hused
  exact ⟨x, hx, hfree, hstart, by omega⟩

/-- Where an interval begins, how long it is and whether it is free. -/
def piece (start size : α → ℤ) (free : α → Prop) (x : α) : ℤ × ℤ × Prop :=
  (start x, size x, free x)

theorem Tiles.increasing (h : Tiles start size a b l) : l.Pairwise (start · < start ·) := by
  induction l generalizing a with
  | nil => exact .nil
  | cons x l ih =>
    obtain ⟨hx, hpos, hrest⟩ := h
    refine .cons (fun y hy => ?_) (ih hrest)
    have hlow := (hrest.bounds hy).1
    omega

/-- With the same used intervals two tilings have the same pieces. -/
theorem Tiles.mem_pieces (h : Tiles start size a b l) (h' : Tiles start' size' a b l')
    (hapart : l.IsChain fun x y => ¬ (free x ∧ free y))
    (hused : ∀ c n, (∃ x ∈ l, ¬ free x ∧ start x = c ∧ size x = n) ↔
      ∃ y ∈ l', ¬ free' y ∧ start' y = c ∧ size' y = n)
    (hapart' : l'.IsChain fun x y => ¬ (free' x ∧ free' y)) {p : ℤ × ℤ × Prop}
    (hp : p ∈ l.map (piece start size free)) : p ∈ l'.map (piece start' size' free') := by
  obtain ⟨x, hx, rfl⟩ := List.mem_map.mp hp
  have hpoints : Used start size free l = Used start' size' free' l' := by
    funext z
    apply propext
    constructor
    · rintro ⟨w, hw, hwused, hlow, hhigh⟩
      obtain ⟨v, hv, hvused, hstart, hsize⟩ := (hused _ _).mp ⟨w, hw, hwused, rfl, rfl⟩
      exact ⟨v, hv, hvused, by omega, by omega⟩
    · rintro ⟨w, hw, hwused, hlow, hhigh⟩
      obtain ⟨v, hv, hvused, hstart, hsize⟩ := (hused _ _).mpr ⟨w, hw, hwused, rfl, rfl⟩
      exact ⟨v, hv, hvused, by omega, by omega⟩
  by_cases hfree : free x
  · have hgap := h.gap_of_free hapart hx hfree
    rw [hpoints] at hgap
    obtain ⟨y, hy, hyfree, hstart, hsize⟩ := h'.free_of_gap hapart' hgap
    exact List.mem_map.mpr ⟨y, hy, by simp [piece, hstart, hsize, hfree, hyfree]⟩
  · obtain ⟨y, hy, hyused, hstart, hsize⟩ := (hused _ _).mp ⟨x, hx, hfree, rfl, rfl⟩
    exact List.mem_map.mpr ⟨y, hy, by simp [piece, hstart, hsize, hfree, hyused]⟩

/-- Two tilings of one range without neighbouring free intervals agree interval by interval when
their used intervals are the same. -/
theorem Tiles.unique (h : Tiles start size a b l) (h' : Tiles start' size' a b l')
    (hapart : l.IsChain fun x y => ¬ (free x ∧ free y))
    (hapart' : l'.IsChain fun x y => ¬ (free' x ∧ free' y))
    (hused : ∀ c n, (∃ x ∈ l, ¬ free x ∧ start x = c ∧ size x = n) ↔
      ∃ y ∈ l', ¬ free' y ∧ start' y = c ∧ size' y = n) :
    List.Forall₂ (fun x y => start x = start' y ∧ size x = size' y ∧ (free x ↔ free' y)) l l' := by
  have hsorted : (l.map (piece start size free)).Pairwise (·.1 < ·.1) :=
    List.pairwise_map.mpr h.increasing
  have hsorted' : (l'.map (piece start' size' free')).Pairwise (·.1 < ·.1) :=
    List.pairwise_map.mpr h'.increasing
  have hnodup : (l.map (piece start size free)).Nodup :=
    hsorted.imp fun hlt heq => hlt.ne (congrArg Prod.fst heq)
  have hnodup' : (l'.map (piece start' size' free')).Nodup :=
    hsorted'.imp fun hlt heq => hlt.ne (congrArg Prod.fst heq)
  have hperm : (l.map (piece start size free)).Perm (l'.map (piece start' size' free')) :=
    (List.perm_ext_iff_of_nodup hnodup hnodup').mpr fun p =>
      ⟨h.mem_pieces h' hapart hused hapart', h'.mem_pieces h hapart' (fun c n => (hused c n).symm)
        hapart⟩
  have heq := hperm.eq_of_pairwise (fun p q _ _ hpq hqp => absurd hpq hqp.not_gt) hsorted hsorted'
  rw [← List.forall₂_eq_eq_eq, List.forall₂_map_left_iff, List.forall₂_map_right_iff] at heq
  refine heq.imp fun x y hxy => ?_
  simpa [piece] using hxy

end

end Tiling
