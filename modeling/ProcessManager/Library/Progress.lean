import Mathlib

/-! Systems whose next step is chosen from outside: their runs, the states in which nothing can
happen, and a measure that bounds every run. -/
namespace Progress

variable {σ α : Type*} {step : σ → α → Option σ} {I : σ → Prop} {measure : σ → ℕ} {s t : σ} {a : α}
  {as bs : List α}

/-- The actions one after the other; `none` when one of them is not possible. -/
def run (step : σ → α → Option σ) (s : σ) : List α → Option σ
  | [] => some s
  | a :: as => (step s a).bind fun t => run step t as

/-- No action is possible. -/
def Stuck (step : σ → α → Option σ) (s : σ) : Prop := ∀ a, step s a = none

/-- Every step keeps the invariant and makes the measure smaller. -/
def Decreases (step : σ → α → Option σ) (I : σ → Prop) (measure : σ → ℕ) : Prop :=
  ∀ s a t, I s → step s a = some t → I t ∧ measure t < measure s

theorem run_cons (h : step s a = some t) : run step s (a :: as) = run step t as := by
  simp [run, h]

/-- What every step keeps, every run keeps. -/
theorem run_invariant (hstep : ∀ s a t, I s → step s a = some t → I t)
    (hs : I s) (h : run step s as = some t) : I t := by
  induction as generalizing s with
  | nil =>
    cases h
    exact hs
  | cons a as ih =>
    obtain ⟨r, hr, hrest⟩ := Option.bind_eq_some_iff.mp h
    exact ih (hstep s a r hs hr) hrest

/-- A run takes no more steps than the measure goes down. -/
theorem run_length_le (hdec : Decreases step I measure) (hs : I s)
    (h : run step s as = some t) : as.length + measure t ≤ measure s := by
  induction as generalizing s with
  | nil =>
    cases h
    simp
  | cons a as ih =>
    obtain ⟨r, hr, hrest⟩ := Option.bind_eq_some_iff.mp h
    obtain ⟨hkeep, hlt⟩ := hdec s a r hs hr
    have hle := ih hkeep hrest
    rw [List.length_cons]
    omega

/-- Every run can be carried on until nothing can happen any more. -/
theorem exists_run_stuck (hdec : Decreases step I measure) (hs : I s) :
    ∃ as t, run step s as = some t ∧ Stuck step t := by
  induction hm : measure s using Nat.strong_induction_on generalizing s with
  | _ m ih =>
    by_cases hstuck : Stuck step s
    · exact ⟨[], s, rfl, hstuck⟩
    · simp only [Stuck, not_forall] at hstuck
      obtain ⟨a, ha⟩ := hstuck
      obtain ⟨r, hr⟩ := Option.ne_none_iff_exists'.mp ha
      obtain ⟨hkeep, hlt⟩ := hdec s a r hs hr
      obtain ⟨as, t, hrun, ht⟩ := ih (measure r) (hm ▸ hlt) hkeep rfl
      exact ⟨a :: as, t, (run_cons hr).trans hrun, ht⟩

end Progress
