import Mathlib

/-! Jobs on one machine: each starts when it is released and the one before it is done. -/
namespace Serial

variable {α β : Type*} {release duration release' duration' : α → ℕ} {a : α} {l r : List α}
  {m n : ℕ}

/-- When the last job is done if the first may start at `n`. -/
def finish (release duration : α → ℕ) (n : ℕ) (l : List α) : ℕ :=
  l.foldl (fun n a => max n (release a) + duration a) n

@[simp] theorem finish_nil : finish release duration n [] = n := rfl

@[simp] theorem finish_cons : finish release duration n (a :: l) =
    finish release duration (max n (release a) + duration a) l := rfl

theorem finish_append : finish release duration n (l ++ r) =
    finish release duration (finish release duration n l) r :=
  List.foldl_append

theorem finish_map (f : β → α) (l : List β) : finish release duration n (l.map f) =
    finish (release ∘ f) (duration ∘ f) n l := List.foldl_map

theorem le_finish : n ≤ finish release duration n l := by
  induction l generalizing n with
  | nil => exact le_refl n
  | cons a l ih =>
    have hstart : n ≤ max n (release a) + duration a := by omega
    exact hstart.trans ih

/-- Without waiting, the machine is busy for the sum of the durations. -/
theorem finish_released (h : ∀ a ∈ l, release a ≤ n) :
    finish release duration n l = n + (l.map duration).sum := by
  induction l generalizing n with
  | nil => simp
  | cons a l ih =>
    have ha := h a (by simp)
    rw [finish_cons, max_eq_left ha, ih, List.map_cons, List.sum_cons, Nat.add_assoc]
    intro b hb
    have := h b (List.mem_cons_of_mem _ hb)
    omega

/-- Starting later makes no difference before the first release. -/
theorem finish_idle (hne : l ≠ []) (hmn : m ≤ n) (h : ∀ a ∈ l, n ≤ release a) :
    finish release duration m l = finish release duration n l := by
  cases l with
  | nil => exact absurd rfl hne
  | cons a l =>
    have ha := h a (by simp)
    rw [finish_cons, finish_cons, max_eq_right ha, max_eq_right (hmn.trans ha)]

theorem lt_finish (hne : l ≠ []) (h : ∀ a ∈ l, n ≤ release a) (hd : ∀ a ∈ l, 1 ≤ duration a) :
    n < finish release duration m l := by
  cases l with
  | nil => exact absurd rfl hne
  | cons a l =>
    have ha := h a (by simp)
    have hda := hd a (by simp)
    have hstart : n < max m (release a) + duration a := by omega
    exact hstart.trans_le le_finish

/-- In order of release, what is left after the released prefix is not released yet. -/
theorem lt_of_mem_dropWhile (hl : l.Pairwise fun a b => release a ≤ release b)
    (ha : a ∈ l.dropWhile fun a => release a ≤ n) : n < release a := by
  induction l with
  | nil => simp at ha
  | cons b l ih =>
    obtain ⟨hb, hl⟩ := List.pairwise_cons.mp hl
    by_cases hn : release b ≤ n
    · rw [List.dropWhile_cons_of_pos (by simpa using hn)] at ha
      exact ih hl ha
    · rw [List.dropWhile_cons_of_neg (by simpa using hn)] at ha
      have hlt : n < release b := Nat.lt_of_not_le hn
      rcases List.mem_cons.mp ha with rfl | ha
      · exact hlt
      · exact hlt.trans_le (hb a ha)

/-- In order of release, the released prefix is all that is released. -/
theorem takeWhile_eq_filter (hl : l.Pairwise fun a b => release a ≤ release b) :
    l.takeWhile (fun a => release a ≤ n) = l.filter fun a => release a ≤ n := by
  conv_rhs => rw [← List.takeWhile_append_dropWhile (p := fun a => decide (release a ≤ n)) (l := l)]
  rw [List.filter_append, List.filter_eq_self.mpr, List.filter_eq_nil_iff.mpr, List.append_nil]
  · intro a ha
    simpa using lt_of_mem_dropWhile hl ha
  · intro a ha
    exact List.mem_takeWhile_imp (p := fun a => decide (release a ≤ n)) ha

end Serial
