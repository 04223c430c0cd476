import Mathlib

/-! Machines that run side by side, one for each key, of which only one may be busy at a time. -/
namespace Machines

variable {κ φ ο : Type*} {next : φ → ο → Option φ} {busy : φ → Prop} {f : φ}

/-- The phase after a word of operations; `none` when one of them is not allowed. -/
def after (next : φ → ο → Option φ) (f : φ) : List ο → Option φ
  | [] => some f
  | op :: ops => (next f op).bind fun g => after next g ops

@[simp] theorem after_nil : after next f [] = some f := rfl

@[simp] theorem after_cons (op : ο) (ops : List ο) :
    after next f (op :: ops) = (next f op).bind fun g => after next g ops := rfl

theorem after_append (l r : List ο) :
    after next f (l ++ r) = (after next f l).bind fun g => after next g r := by
  induction l generalizing f with
  | nil => rfl
  | cons op l ih =>
    cases h : next f op with
    | none => simp [h]
    | some g => simp [h, ih]

/-- A word that is allowed is allowed up to each of its places. -/
theorem after_prefix {l r : List ο} (h : l <+: r) (hr : (after next f r).isSome) :
    (after next f l).isSome := by
  obtain ⟨rest, rfl⟩ := h
  rw [after_append] at hr
  cases hl : after next f l with
  | none => simp [hl] at hr
  | some g => rfl

variable [DecidableEq κ] {a b c : κ → φ} {l r : List (κ × ο)}

/-- The operations on one machine. -/
def wordOf (k : κ) (l : List (κ × ο)) : List ο := (l.filter (·.1 = k)).map Prod.snd

theorem wordOf_append (k : κ) : wordOf k (l ++ r) = wordOf k l ++ wordOf k r := by
  simp [wordOf]

theorem wordOf_length (k : κ) (l : List (κ × ο)) :
    (wordOf k l).length = (l.map Prod.fst).count k := by
  rw [wordOf, List.length_map, ← List.countP_eq_length_filter, List.count, List.countP_map]
  exact List.countP_congr fun x _ => by simp

/-- Operations on different machines make short words. -/
theorem wordOf_length_le (h : (l.map Prod.fst).Nodup) (k : κ) : (wordOf k l).length ≤ 1 := by
  have hcount := List.nodup_iff_count_le_one.mp h k
  rw [List.count, List.countP_map] at hcount
  rw [wordOf, List.length_map, ← List.countP_eq_length_filter]
  exact hcount

/-- A common history: each operation is allowed on its machine, and none becomes or stays busy
beside another busy one. -/
inductive Runs (next : φ → ο → Option φ) (busy : φ → Prop) :
    (κ → φ) → List (κ × ο) → (κ → φ) → Prop
  | nil (a : κ → φ) : Runs next busy a [] a
  | cons {a b : κ → φ} {k : κ} {op : ο} {f : φ} {l : List (κ × ο)}
      (hnext : next (a k) op = some f) (hfree : busy f → ∀ j, j ≠ k → ¬ busy (a j))
      (hrest : Runs next busy (Function.update a k f) l b) : Runs next busy a ((k, op) :: l) b

theorem Runs.append (h : Runs next busy a l b) (h' : Runs next busy b r c) :
    Runs next busy a (l ++ r) c := by
  induction h with
  | nil => exact h'
  | cons hnext hfree _ ih => exact .cons hnext hfree (ih h')

theorem Runs.split (h : Runs next busy a (l ++ r) c) :
    ∃ b, Runs next busy a l b ∧ Runs next busy b r c := by
  induction l generalizing a with
  | nil => exact ⟨a, .nil a, h⟩
  | cons x l ih =>
    cases h with
    | cons hnext hfree hrest =>
      obtain ⟨b, hl, hr⟩ := ih hrest
      exact ⟨b, .cons hnext hfree hl, hr⟩

theorem Runs.single {k : κ} {op : ο} {g : φ} (hnext : next (a k) op = some g)
    (hfree : busy g → ∀ j, j ≠ k → ¬ busy (a j)) (hb : b = Function.update a k g) :
    Runs next busy a [(k, op)] b := by
  subst hb
  exact .cons hnext hfree (.nil _)

/-- Each machine goes through its own word. -/
theorem Runs.after (h : Runs next busy a l b) (k : κ) :
    after next (a k) (wordOf k l) = some (b k) := by
  induction h with
  | nil => rfl
  | @cons a b j op f l hnext _ _ ih =>
    by_cases hjk : j = k
    · subst hjk
      have hword : wordOf j ((j, op) :: l) = op :: wordOf j l := by simp [wordOf]
      rw [Function.update_self] at ih
      rw [hword, after_cons, hnext, Option.bind_some, ih]
    · have hword : wordOf k ((j, op) :: l) = wordOf k l := by simp [wordOf, hjk]
      rw [Function.update_of_ne (Ne.symm hjk)] at ih
      rw [hword, ih]

/-- At no time are two machines busy. -/
theorem Runs.one_busy (h : Runs next busy a l b) (ha : ∀ j k, busy (a j) → busy (a k) → j = k) :
    ∀ j k, busy (b j) → busy (b k) → j = k := by
  induction h with
  | nil => exact ha
  | @cons a b i op f l hnext hfree _ ih =>
    apply ih
    intro j k hj hk
    by_cases hji : j = i
    · by_cases hki : k = i
      · exact hji.trans hki.symm
      · rw [hji, Function.update_self] at hj
        rw [Function.update_of_ne hki] at hk
        exact absurd hk (hfree hj k hki)
    · rw [Function.update_of_ne hji] at hj
      by_cases hki : k = i
      · rw [hki, Function.update_self] at hk
        exact absurd hj (hfree hk j hji)
      · rw [Function.update_of_ne hki] at hk
        exact ha j k hj hk

end Machines
