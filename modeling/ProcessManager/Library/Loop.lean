import Mathlib

/-! Loops that leave by `break` or stop at a fault, and the rules for their runs. -/
namespace Loop

/-- How one pass of a loop body ends: back at the head, out by `break`, or at a fault. -/
inductive Outcome (σ ε : Type*)
  | next (s : σ)
  | done (s : σ)
  | fault (e : ε)
  deriving DecidableEq, Repr

variable {σ τ ε : Type*}

/-- The state a pass ends in, unless it faults. -/
def Outcome.state? : Outcome σ ε → Option σ
  | .next s | .done s => some s
  | .fault _ => none

/-- A pass whose every step falls through to the end of the body. -/
def Outcome.ofExcept : Except ε σ → Outcome σ ε
  | .ok s => .next s
  | .error e => .fault e

/-- The outcome of the first `n` passes; `.next t` is the state at the head before pass `n`. -/
def iterate (body : σ → Outcome σ ε) (s : σ) : ℕ → Outcome σ ε
  | 0 => .next s
  | n + 1 =>
    match iterate body s n with
    | .next t => body t
    | o => o

variable {body : σ → Outcome σ ε} {s t u : σ} {e : ε} {m n : ℕ}

@[simp] theorem iterate_zero : iterate body s 0 = .next s := rfl

theorem iterate_succ_of_next (h : iterate body s n = .next t) :
    iterate body s (n + 1) = body t := by
  simp [iterate, h]

theorem iterate_succ_of_not_next (h : ∀ t, iterate body s n ≠ .next t) :
    iterate body s (n + 1) = iterate body s n := by
  rw [iterate]
  split
  · rename_i t ht
    exact absurd ht (h t)
  · rfl

theorem iterate_succ_eq_next :
    iterate body s (n + 1) = .next u ↔ ∃ t, iterate body s n = .next t ∧ body t = .next u := by
  cases h : iterate body s n with
  | next t => simp [iterate, h]
  | done t => simp [iterate, h]
  | fault e => simp [iterate, h]

/-- The first pass taken off the front. -/
theorem iterate_succ_head (body : σ → Outcome σ ε) (s : σ) (n : ℕ) :
    iterate body s (n + 1) = match body s with
      | .next t => iterate body t n
      | o => o := by
  induction n with
  | zero =>
    rw [iterate_succ_of_next iterate_zero]
    cases body s <;> rfl
  | succ n ih =>
    rw [iterate, ih]
    cases body s <;> rfl

/-- A loop that has been left stays left. -/
theorem iterate_done_of_le (hmn : m ≤ n) (h : iterate body s m = .done t) :
    iterate body s n = .done t := by
  induction n, hmn using Nat.le_induction with
  | base => exact h
  | succ n hmn ih =>
    rw [iterate_succ_of_not_next (by simp [ih]), ih]

/-- Before a pass is reached, so are the ones before it. -/
theorem iterate_next_of_le (hmn : m ≤ n) (h : iterate body s n = .next t) :
    ∃ u, iterate body s m = .next u := by
  induction n, hmn using Nat.le_induction generalizing t with
  | base => exact ⟨t, h⟩
  | succ n hmn ih =>
    obtain ⟨u, hu, -⟩ := iterate_succ_eq_next.mp h
    exact ih hu

/-- The `break` is taken in one pass, from a state at the head. -/
theorem iterate_done_origin (h : iterate body s n = .done u) :
    ∃ m t, m < n ∧ iterate body s m = .next t ∧ body t = .done u := by
  induction n with
  | zero => simp at h
  | succ n ih =>
    cases hn : iterate body s n with
    | next t =>
      rw [iterate_succ_of_next hn] at h
      exact ⟨n, t, by omega, hn, h⟩
    | done t =>
      rw [iterate_succ_of_not_next (by simp [hn])] at h
      obtain ⟨m, t, hm, ht, hb⟩ := ih h
      exact ⟨m, t, by omega, ht, hb⟩
    | fault e =>
      rw [iterate_succ_of_not_next (by simp [hn]), hn] at h
      cases h

theorem iterate_fault_origin (h : iterate body s n = .fault e) :
    ∃ m t, m < n ∧ iterate body s m = .next t ∧ body t = .fault e := by
  induction n with
  | zero => simp at h
  | succ n ih =>
    cases hn : iterate body s n with
    | next t =>
      rw [iterate_succ_of_next hn] at h
      exact ⟨n, t, by omega, hn, h⟩
    | done t =>
      rw [iterate_succ_of_not_next (by simp [hn]), hn] at h
      cases h
    | fault e' =>
      rw [iterate_succ_of_not_next (by simp [hn])] at h
      obtain ⟨m, t, hm, ht, hb⟩ := ih h
      exact ⟨m, t, by omega, ht, hb⟩

/-- What holds at the start and is kept by every pass holds whenever the head is reached. -/
theorem iterate_invariant {I : ℕ → σ → Prop} (h0 : I 0 s)
    (hstep : ∀ n t u, iterate body s n = .next t → I n t → body t = .next u → I (n + 1) u) :
    ∀ n t, iterate body s n = .next t → I n t := by
  intro n
  induction n with
  | zero =>
    intro t ht
    cases ht
    exact h0
  | succ n ih =>
    intro u hu
    obtain ⟨t, ht, hb⟩ := iterate_succ_eq_next.mp hu
    exact hstep n t u ht (ih t ht) hb

/-- Two outcomes of the same kind whose states are related. -/
inductive Outcome.Rel (R : σ → τ → Prop) : Outcome σ ε → Outcome τ ε → Prop
  | next {s : σ} {t : τ} (h : R s t) : Rel R (.next s) (.next t)
  | done {s : σ} {t : τ} (h : R s t) : Rel R (.done s) (.done t)
  | fault (e : ε) : Rel R (.fault e) (.fault e)

theorem Outcome.Rel.mono {R S : σ → τ → Prop} {o : Outcome σ ε} {o' : Outcome τ ε}
    (h : Outcome.Rel R o o') (hRS : ∀ s t, R s t → S s t) : Outcome.Rel S o o' := by
  cases h with
  | next h => exact .next (hRS _ _ h)
  | done h => exact .done (hRS _ _ h)
  | fault e => exact .fault e

/-- Two loops whose bodies keep a relation run in step. -/
theorem iterate_rel {body' : τ → Outcome τ ε} {s' : τ} {R : σ → τ → Prop} (h0 : R s s')
    (hstep : ∀ n t t', iterate body s n = .next t → iterate body' s' n = .next t' → R t t' →
      Outcome.Rel R (body t) (body' t')) :
    ∀ n, Outcome.Rel R (iterate body s n) (iterate body' s' n) := by
  intro n
  induction n with
  | zero => exact .next h0
  | succ n ih =>
    simp only [iterate]
    generalize ho : iterate body s n = o at ih
    generalize ho' : iterate body' s' n = o' at ih
    cases ih with
    | next h => exact hstep n _ _ ho ho' h
    | done h => exact .done h
    | fault e => exact .fault e

end Loop
