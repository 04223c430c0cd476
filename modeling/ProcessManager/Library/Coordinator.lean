import ProcessManager.Library.Progress

/-! One coordinator that works through a plan, with one of many parties at a time, beside parties
that also take steps of their own. -/
namespace Coordinator

open Progress

variable {κ σ α : Type*}

/-- What a party and the coordinator's dealings with it can do: the coordinator's next step, whether
it is between two jobs, and the party's own steps. -/
structure Behaviour (σ α : Type*) where
  manage : σ → Option σ
  idle : σ → Bool
  act : σ → α → Option σ

/-- `plan` lists the parties of the jobs to come; `current` is the one whose job is being done. -/
structure State (κ σ : Type*) where
  plan : List κ
  current : Option κ
  part : κ → σ

inductive Action (κ α : Type*)
  | manage
  | act (k : κ) (a : α)
  deriving DecidableEq

variable [DecidableEq κ] {b : Behaviour σ α} {s t : State κ σ} {x y : σ} {a : α} {k : κ}
  {action : Action κ α} {actions : List (Action κ α)}

/-- The coordinator has taken a step with one party, and goes on with it unless the job is done. -/
def State.advance (b : Behaviour σ α) (s : State κ σ) (plan : List κ) (k : κ) (x : σ) :
    State κ σ where
  plan := plan
  current := if b.idle x then none else some k
  part := Function.update s.part k x

/-- One step; `none` when it is not possible. -/
def step (b : Behaviour σ α) (s : State κ σ) : Action κ α → Option (State κ σ)
  | .manage =>
    match s.current with
    | some k => (b.manage (s.part k)).map (s.advance b s.plan k)
    | none =>
      match s.plan with
      | [] => none
      | k :: plan => (b.manage (s.part k)).map (s.advance b plan k)
  | .act k a => (b.act (s.part k) a).map fun x => { s with part := Function.update s.part k x }

/-- One step of one party, alone with the coordinator. -/
def Alone (b : Behaviour σ α) (x y : σ) : Prop := b.manage x = some y ∨ ∃ a, b.act x a = some y

/-- How the parts go together with the plan: the coordinator is busy with the current party only,
and each party has as many jobs to come as the plan has for it. -/
structure Orderly (b : Behaviour σ α) (pending : σ → ℕ) (s : State κ σ) : Prop where
  busy : ∀ k, b.idle (s.part k) = false ↔ s.current = some k
  pending : ∀ k, pending (s.part k) = s.plan.count k

/-- What the steps of the behaviour do to `idle` and to the number of jobs to come. -/
structure Jobs (b : Behaviour σ α) (pending : σ → ℕ) : Prop where
  starts : ∀ x, b.idle x = true → (pending x = 0 ↔ b.manage x = none)
  takes : ∀ x y, b.idle x = true → b.manage x = some y → pending y + 1 = pending x
  goes_on : ∀ x y, b.idle x = false → b.manage x = some y → pending y = pending x
  act : ∀ x a y, b.act x a = some y → b.idle y = b.idle x ∧ pending y = pending x

theorem step_manage (h : step b s .manage = some t) :
    ∃ k plan y, b.manage (s.part k) = some y ∧ t = s.advance b plan k y ∧
      (s.current = some k ∧ plan = s.plan ∨ s.current = none ∧ s.plan = k :: plan) := by
  cases hcurrent : s.current with
  | some k =>
    simp only [step, hcurrent] at h
    obtain ⟨y, hy, rfl⟩ := Option.map_eq_some_iff.mp h
    exact ⟨k, _, y, hy, rfl, Or.inl ⟨rfl, rfl⟩⟩
  | none =>
    cases hplan : s.plan with
    | nil => simp [step, hcurrent, hplan] at h
    | cons k plan =>
      simp only [step, hcurrent, hplan] at h
      obtain ⟨y, hy, rfl⟩ := Option.map_eq_some_iff.mp h
      exact ⟨k, plan, y, hy, rfl, Or.inr ⟨rfl, rfl⟩⟩

/-- Every party goes its own way. -/
theorem step_alone (h : step b s action = some t) (k : κ) :
    t.part k = s.part k ∨ Alone b (s.part k) (t.part k) := by
  cases action with
  | manage =>
    obtain ⟨j, plan, y, hy, rfl, -⟩ := step_manage h
    by_cases hk : k = j
    · subst hk
      right; left
      simpa [State.advance] using hy
    · left
      simp [State.advance, hk]
  | act j a =>
    obtain ⟨y, hy, rfl⟩ := Option.map_eq_some_iff.mp h
    by_cases hk : k = j
    · subst hk
      right; right
      exact ⟨a, by simpa using hy⟩
    · left
      simp [hk]

/-- What each party keeps alone, it keeps among the others. -/
theorem run_part {J : κ → σ → Prop} (hkeep : ∀ k x y, J k x → Alone b x y → J k y)
    (hs : ∀ k, J k (s.part k)) (h : Progress.run (step b) s actions = some t) (k : κ) :
    J k (t.part k) := by
  refine run_invariant (I := fun s => ∀ k, J k (s.part k)) ?_ hs h k
  intro s action t hs hstep k
  rcases step_alone hstep k with heq | halone
  · rw [heq]
    exact hs k
  · exact hkeep k _ _ (hs k) halone

theorem Orderly.step {pending : σ → ℕ} (hjobs : Jobs b pending) (h : Orderly b pending s)
    (hstep : Coordinator.step b s action = some t) : Orderly b pending t := by
  cases action with
  | manage =>
    obtain ⟨j, plan, y, hy, rfl, hcase⟩ := step_manage hstep
    constructor
    · intro k
      by_cases hk : k = j
      · subst hk
        cases hidle : b.idle y <;> simp [State.advance, hidle]
      · have hother : b.idle (s.part k) = true := by
          rw [← Bool.not_eq_false, h.busy]
          rcases hcase with ⟨hcurrent, -⟩ | ⟨hcurrent, -⟩
          · rw [hcurrent]
            exact fun heq => hk (Option.some.inj heq).symm
          · simp [hcurrent]
        cases hidle : b.idle y <;> simp [State.advance, hidle, hk, hother, Ne.symm hk]
    · intro k
      have hk := h.pending k
      rcases hcase with ⟨hcurrent, rfl⟩ | ⟨hcurrent, hplan⟩
      · by_cases heq : k = j
        · subst heq
          have hsame := hjobs.goes_on _ _ ((h.busy k).mpr hcurrent) hy
          simpa [State.advance, hsame] using hk
        · simpa [State.advance, heq] using hk
      · rw [hplan] at hk
        by_cases heq : k = j
        · subst heq
          have hidle : b.idle (s.part k) = true := by
            rw [← Bool.not_eq_false, h.busy, hcurrent]
            simp
          have hless := hjobs.takes _ _ hidle hy
          rw [List.count_cons_self] at hk
          simp only [State.advance, Function.update_self]
          omega
        · rw [List.count_cons_of_ne (Ne.symm heq)] at hk
          simpa [State.advance, heq] using hk
  | act j a =>
    obtain ⟨y, hy, rfl⟩ := Option.map_eq_some_iff.mp hstep
    obtain ⟨hidle, hpending⟩ := hjobs.act _ _ _ hy
    constructor
    · intro k
      rw [← h.busy k]
      by_cases hk : k = j
      · subst hk
        simp [hidle]
      · simp [hk]
    · intro k
      rw [← h.pending k]
      by_cases hk : k = j
      · subst hk
        simp [hpending]
      · simp [hk]

/-- When nothing can happen, and a party with which nothing can happen is never left in the middle
of a job, the plan is done and with no party anything can happen. -/
theorem Orderly.stuck {pending : σ → ℕ} (hjobs : Jobs b pending) (h : Orderly b pending s)
    (hstuck : Stuck (Coordinator.step b) s)
    (hparts : ∀ k, b.manage (s.part k) = none → (∀ a, b.act (s.part k) a = none) →
      b.idle (s.part k) = true) :
    s.plan = [] ∧ s.current = none ∧
      ∀ k, b.manage (s.part k) = none ∧ ∀ a, b.act (s.part k) a = none := by
  have hact : ∀ k a, b.act (s.part k) a = none := by
    intro k a
    simpa [Coordinator.step] using hstuck (.act k a)
  have hmanage := hstuck .manage
  have hcurrent : s.current = none := by
    cases hcurrent : s.current with
    | none => rfl
    | some k =>
      simp only [Coordinator.step, hcurrent, Option.map_eq_none_iff] at hmanage
      have hidle := hparts k hmanage (hact k)
      have hbusy := (h.busy k).mpr hcurrent
      simp [hidle] at hbusy
  have hidle : ∀ k, b.idle (s.part k) = true := by
    intro k
    rw [← Bool.not_eq_false, h.busy, hcurrent]
    simp
  have hplan : s.plan = [] := by
    cases hplan : s.plan with
    | nil => rfl
    | cons k plan =>
      simp only [Coordinator.step, hcurrent, hplan, Option.map_eq_none_iff] at hmanage
      have hzero := (hjobs.starts _ (hidle k)).mpr hmanage
      have hcount := h.pending k
      rw [hplan, List.count_cons_self] at hcount
      omega
  refine ⟨hplan, hcurrent, fun k => ⟨?_, hact k⟩⟩
  rw [← hjobs.starts _ (hidle k), h.pending k, hplan]
  simp

/-- The measures of some parties, added up. -/
def total (measure : σ → ℕ) (K : Finset κ) (s : State κ σ) : ℕ := ∑ k ∈ K, measure (s.part k)

theorem total_update (measure : σ → ℕ) {K : Finset κ} (hk : k ∈ K) (part : κ → σ) (x : σ) :
    ∑ j ∈ K, measure (Function.update part k x j) + measure (part k) =
      ∑ j ∈ K, measure (part j) + measure x := by
  rw [← Finset.add_sum_erase K _ hk, ← Finset.add_sum_erase K (fun j => measure (part j)) hk,
    Function.update_self]
  have hrest : ∑ j ∈ K.erase k, measure (Function.update part k x j) =
      ∑ j ∈ K.erase k, measure (part j) :=
    Finset.sum_congr rfl fun j hj => by rw [Function.update_of_ne (Finset.ne_of_mem_erase hj)]
  omega

/-- A measure that every step of a party alone makes smaller, and that is nothing outside `K`, adds
up to one that every step makes smaller. -/
theorem total_decreases {measure : σ → ℕ} {K : Finset κ}
    (hdec : ∀ x y, Alone b x y → measure y < measure x) :
    Decreases (step b) (fun s : State κ σ => ∀ k ∉ K, measure (s.part k) = 0) (total measure K) := by
  have hpart : ∀ (s : State κ σ) k x, (∀ j ∉ K, measure (s.part j) = 0) → Alone b (s.part k) x →
      (∀ j ∉ K, measure (Function.update s.part k x j) = 0) ∧
        ∑ j ∈ K, measure (Function.update s.part k x j) < ∑ j ∈ K, measure (s.part j) := by
    intro s k x hzero halone
    have hlt := hdec _ _ halone
    have hk : k ∈ K := by
      by_contra hk
      rw [hzero k hk] at hlt
      exact Nat.not_lt_zero _ hlt
    have htotal := total_update measure hk s.part x
    refine ⟨fun j hj => ?_, by omega⟩
    rw [Function.update_of_ne (ne_of_mem_of_not_mem hk hj).symm]
    exact hzero j hj
  intro s action t hzero hstep
  cases action with
  | manage =>
    obtain ⟨k, plan, y, hy, rfl, -⟩ := step_manage hstep
    exact hpart s k y hzero (Or.inl hy)
  | act k a =>
    obtain ⟨y, hy, rfl⟩ := Option.map_eq_some_iff.mp hstep
    exact hpart s k y hzero (Or.inr ⟨a, hy⟩)

end Coordinator
