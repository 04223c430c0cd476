import ProcessManager.ProcessData
import ProcessManager.HandshakeProgress
import ProcessManager.Library.Coordinator

/-! The manager and all real processes at once. The manager deals with one process at a time, in the
order of its plan, while every process goes on at its own pace. -/
namespace ProcessManager

open Posix Machines Progress
open Coordinator (Behaviour Orderly Jobs Alone)

variable {sha256Hash : List UInt8 → List UInt8} {name : ProcId → ProcessName} {s s' : System}
  {plan : List (ProcId × Operation × UInt32)} {p : ProcId}

/-- One real process with the pipes to it and the manager's dealings with it. -/
def dealings (sha256Hash : List UInt8 → List UInt8) : Behaviour System Action where
  manage := System.manage
  idle s := s.manager.pc = .idle
  act s action := if action = .manage then none else s.step sha256Hash action

/-- The manager, whose plan lists the processes of its operations, and the dealings with each. -/
abbrev Fleet := Coordinator.State ProcId System

/-- A step of the manager, or of one process. -/
abbrev FleetAction := Coordinator.Action ProcId Action

/-- Before the first operation: no process has been forked. -/
def Fleet.init (name : ProcId → ProcessName) (plan : List (ProcId × Operation × UInt32)) :
    Fleet where
  plan := plan.map Prod.fst
  current := none
  part p := System.init (name p).bytes (wordOf p plan)

/-- An interleaving of the manager with all processes. -/
def Fleet.run (sha256Hash : List UInt8 → List UInt8) (f : Fleet)
    (actions : List FleetAction) : Option Fleet :=
  Progress.run (Coordinator.step (dealings sha256Hash)) f actions

variable {f : Fleet} {actions : List FleetAction}

theorem issue_some (h : s.issue = some s') :
    s'.manager.todo.length + 1 = s.manager.todo.length := by
  cases htodo : s.manager.todo with
  | nil => simp [System.issue, htodo] at h
  | cons next todo =>
    simp only [System.issue, htodo] at h
    split at h <;> cases h <;> rfl

theorem issue_none : s.issue = none ↔ s.manager.todo.length = 0 := by
  cases htodo : s.manager.todo with
  | nil => simp [System.issue, htodo]
  | cons next todo =>
    simp only [System.issue, htodo]
    split <;> simp

/-- In the middle of an operation the manager begins no other. -/
theorem manage_todo (hpc : s.manager.pc ≠ .idle) (h : s.manage = some s') :
    s'.manager.todo = s.manager.todo := by
  cases hcase : s.manager.pc with
  | idle => exact absurd hcase hpc
  | sending op time i =>
    simp only [System.manage, hcase] at h
    split at h <;> cases h <;> rfl
  | signalling op sig time =>
    simp only [System.manage, hcase] at h
    obtain ⟨q, -, heq⟩ := Option.map_eq_some_iff.mp h
    cases heq
    rfl
  | verifying testByte =>
    simp only [System.manage, hcase] at h
    split at h <;> cases h
    rfl
  | suspending =>
    simp only [System.manage, hcase] at h
    obtain ⟨q, -, hwait⟩ := Option.bind_eq_some_iff.mp h
    obtain ⟨signals, -, heq⟩ := Option.map_eq_some_iff.mp hwait
    cases heq
    rfl
  | readingHash =>
    simp only [System.manage, hcase] at h
    split at h <;> cases h
    rfl
  | failed => simp [System.manage, hcase] at h

theorem dealings_act {action : Action}
    (h : (dealings sha256Hash).act s action = some s') :
    s.step sha256Hash action = some s' ∧ s'.manager = s.manager := by
  simp only [dealings] at h
  split at h
  · cases h
  · rename_i haction
    refine ⟨h, ?_⟩
    rw [System.step, if_neg haction] at h
    obtain ⟨p, -, hact⟩ := Option.bind_eq_some_iff.mp h
    split at hact
    · cases hact
    · obtain ⟨x, -, heq⟩ := Option.map_eq_some_iff.mp hact
      cases heq
      rfl

theorem dealings_jobs (sha256Hash : List UInt8 → List UInt8) :
    Jobs (dealings sha256Hash) fun s => s.manager.todo.length where
  starts s hidle := by
    have hpc : s.manager.pc = .idle := of_decide_eq_true hidle
    have hmanage : (dealings sha256Hash).manage s = s.issue := by
      simp [dealings, System.manage, hpc]
    rw [hmanage, issue_none]
  takes s s' hidle h := by
    have hpc : s.manager.pc = .idle := of_decide_eq_true hidle
    simp only [dealings, System.manage, hpc] at h
    exact issue_some h
  goes_on s s' hidle h := congrArg List.length (manage_todo (of_decide_eq_false hidle) h)
  act s action s' h := by
    obtain ⟨-, hmanager⟩ := dealings_act h
    simp [dealings, hmanager]

theorem alone_step (h : Alone (dealings sha256Hash) s s') :
    ∃ action, s.step sha256Hash action = some s' := by
  rcases h with hmanage | ⟨action, hact⟩
  · exact ⟨.manage, by simpa [System.step, dealings] using hmanage⟩
  · exact ⟨action, (dealings_act hact).1⟩

/-- Among the others each process goes through an interleaving of its own. -/
theorem Fleet.part_reachable (h : (Fleet.init name plan).run sha256Hash actions = some f)
    (p : ProcId) :
    System.Reachable sha256Hash (name p).bytes (wordOf p plan) (f.part p) := by
  apply Coordinator.run_part
    (J := fun p => System.Reachable sha256Hash (name p).bytes (wordOf p plan)) ?_ ?_ h
  · intro p s s' hs halone
    obtain ⟨action, hstep⟩ := alone_step halone
    exact hs.step hstep
  · intro p
    exact .init

theorem Fleet.orderly (h : (Fleet.init name plan).run sha256Hash actions = some f) :
    Orderly (dealings sha256Hash) (fun s => s.manager.todo.length) f := by
  refine Progress.run_invariant
    (fun s a t hs hstep => hs.step (dealings_jobs sha256Hash) hstep) ?_ h
  constructor
  · intro p
    simp [Fleet.init, dealings, System.init]
  · intro p
    exact wordOf_length p plan

theorem alone_work (h : Alone (dealings sha256Hash) s s') : s'.work < s.work := by
  obtain ⟨action, hstep⟩ := alone_step h
  exact (System.step_work sha256Hash s action s' trivial hstep).2

/-- The steps left to all processes of a plan. -/
theorem Fleet.init_total (name : ProcId → ProcessName) (plan : List (ProcId × Operation × UInt32)) :
    Coordinator.total System.work (plan.map Prod.fst).toFinset (Fleet.init name plan) =
      26 * plan.length := by
  have hwork : ∀ p, ((Fleet.init name plan).part p).work = 26 * (plan.map Prod.fst).count p := by
    intro p
    rw [← wordOf_length]
    rfl
  rw [Coordinator.total, Finset.sum_congr rfl fun p _ => hwork p, ← Finset.mul_sum,
    List.sum_toFinset_count_eq_length, List.length_map]

theorem Fleet.init_outside (name : ProcId → ProcessName)
    (plan : List (ProcId × Operation × UInt32)) :
    ∀ p ∉ (plan.map Prod.fst).toFinset, ((Fleet.init name plan).part p).work = 0 := by
  intro p hp
  have hword : wordOf p plan = [] := by
    rw [← List.length_eq_zero_iff, wordOf_length]
    exact List.count_eq_zero_of_not_mem (by simpa using hp)
  simp [Fleet.init, System.init, System.work, hword, ManagerPc.work]

theorem Fleet.decreases (sha256Hash : List UInt8 → List UInt8)
    (plan : List (ProcId × Operation × UInt32)) :
    Decreases (Coordinator.step (dealings sha256Hash))
      (fun f : Fleet => ∀ p ∉ (plan.map Prod.fst).toFinset, (f.part p).work = 0)
      (Coordinator.total System.work (plan.map Prod.fst).toFinset) :=
  Coordinator.total_decreases fun _ _ => alone_work

section Disciplined

variable (hplan : ∀ p, ∃ w ∈ discipline, (wordOf p plan).map Prod.fst <+: w)
  (h : (Fleet.init name plan).run sha256Hash actions = some f)

include hplan h

theorem Fleet.part_synchronised (p : ProcId) :
    Synchronised (wordOf p plan) (f.part p) ∧ (f.part p).Hashed sha256Hash (name p).bytes := by
  have hops := prefix_discipline_iff.mp (hplan p)
  have hreach := Fleet.part_reachable h p
  exact ⟨reachable_synchronised hops hreach, reachable_hashed hops hreach⟩

/-- No check of the manager fails, and no process finds leftover bytes. -/
theorem Fleet.safe (p : ProcId) : (f.part p).manager.pc ≠ .failed ∧
    ∀ q, (f.part p).process = some q → q.pc ≠ .leftoverBytes := by
  have hjoint := (Fleet.part_synchronised hplan h p).1.joint
  exact ⟨hjoint.not_failed, fun q hq => (hjoint.process_safe hq).1⟩

omit hplan in
theorem Fleet.carries_on : ∃ more f', f.run sha256Hash more = some f' ∧
    ∀ action, Coordinator.step (dealings sha256Hash) f' action = none := by
  have hdec := Fleet.decreases sha256Hash plan
  exact exists_run_stuck hdec
    (Progress.run_invariant (fun s a t hs hstep => (hdec s a t hs hstep).1)
      (Fleet.init_outside name plan) h)

/-- When nothing can happen the plan is done, and each process has done its own part of it. -/
theorem Fleet.ends (hstuck : ∀ action, Coordinator.step (dealings sha256Hash) f action = none) :
    f.plan = [] ∧ f.current = none ∧
    ∀ p, (f.part p).manager.pc = .idle ∧ (f.part p).manager.issued = wordOf p plan ∧
      ∀ q, (f.part p).process = some q → q.decoded = wordOf p plan := by
  have hends : ∀ p, (dealings sha256Hash).manage (f.part p) = none →
      (∀ action, (dealings sha256Hash).act (f.part p) action = none) →
      (f.part p).manager.pc = .idle ∧ (f.part p).manager.issued = wordOf p plan ∧
        ∀ q, (f.part p).process = some q → q.decoded = wordOf p plan := by
    intro p hmanage hact
    obtain ⟨hsync, hhashed⟩ := Fleet.part_synchronised hplan h p
    refine hsync.ends hhashed fun action => ?_
    by_cases haction : action = .manage
    · subst haction
      simpa [System.step, dealings] using hmanage
    · simpa [dealings, haction] using hact action
  obtain ⟨hdone, hcurrent, hparts⟩ := (Fleet.orderly h).stuck (dealings_jobs sha256Hash) hstuck
    fun p hmanage hact => decide_eq_true (hends p hmanage hact).1
  exact ⟨hdone, hcurrent, fun p => hends p (hparts p).1 (hparts p).2⟩

end Disciplined

/-- The manager and any number of processes whose names their command lines take, in any
interleaving: at most 26 steps are taken for each operation of the plan, no check of any party
fails, and the run can be carried on until nothing can happen. Then the plan is done, and every
process has decoded its own operations in order. -/
theorem fleet_completes (sha256Hash : List UInt8 → List UInt8) (name : ProcId → ProcessName)
    (plan : List (ProcId × Operation × UInt32))
    (hplan : ∀ p, ∃ w ∈ discipline, (wordOf p plan).map Prod.fst <+: w)
    (actions : List FleetAction) (f : Fleet)
    (h : (Fleet.init name plan).run sha256Hash actions = some f) :
    actions.length ≤ 26 * plan.length ∧
    (∀ p, (f.part p).manager.pc ≠ .failed ∧
      ∀ q, (f.part p).process = some q → q.pc ≠ .leftoverBytes) ∧
    (∃ more f', f.run sha256Hash more = some f' ∧
      ∀ action, Coordinator.step (dealings sha256Hash) f' action = none) ∧
    ((∀ action, Coordinator.step (dealings sha256Hash) f action = none) →
      f.plan = [] ∧ f.current = none ∧
      ∀ p, (f.part p).manager.issued = wordOf p plan ∧
        ∀ q, (f.part p).process = some q → q.decoded = wordOf p plan) := by
  have hbound := run_length_le (Fleet.decreases sha256Hash plan) (Fleet.init_outside name plan) h
  rw [Fleet.init_total] at hbound
  refine ⟨by omega, Fleet.safe hplan h, Fleet.carries_on h, fun hstuck => ?_⟩
  obtain ⟨hdone, hcurrent, hparts⟩ := Fleet.ends hplan h hstuck
  exact ⟨hdone, hcurrent, fun p => (hparts p).2⟩

/-- START and TERM of process 1, then START of process 0. -/
def threeOperations : List (ProcId × Operation × UInt32) :=
  [(1, .start, 0), (1, .term, 2), (0, .start, 2)]

/-- The manager is through with process 1 before it forks process 0. -/
def startTerm : List FleetAction :=
  [.manage, .act 1 .proceed, .manage, .manage, .manage, .manage, .act 1 (.read 4), .act 1 .proceed,
    .act 1 .proceed, .act 1 .proceed, .manage, .manage, .manage, .manage, .manage, .manage, .manage,
    .act 1 (.dequeue .sigterm), .act 1 .proceed, .act 1 (.read 4), .act 1 .proceed,
    .act 1 .proceed, .act 1 .proceed, .manage, .manage, .manage, .act 0 .proceed]

theorem fleet_completes_twoProcesses : ∃ f : Fleet,
    (Fleet.init (fun p => ⟨[65 + UInt8.ofNat p], rfl⟩) threeOperations).run id startTerm = some f ∧
      startTerm.length ≤ 26 * threeOperations.length ∧ (f.part 1).manager.pc ≠ .failed := by
  have hfleet : ∃ f, (Fleet.init (fun p => ⟨[65 + UInt8.ofNat p], rfl⟩) threeOperations).run id
      startTerm = some f := ⟨_, rfl⟩
  have hplan : ∀ p, ∃ w ∈ discipline, (wordOf p threeOperations).map Prod.fst <+: w := by
    intro p
    rw [prefix_discipline_iff]
    match p with
    | 0 | 1 => rfl
    | p + 2 =>
      have hword : wordOf (p + 2) threeOperations = [] := by simp [wordOf, threeOperations]
      rw [hword]
      rfl
  obtain ⟨f, hf⟩ := hfleet
  obtain ⟨hbound, hsafe, -⟩ := fleet_completes id _ threeOperations hplan startTerm f hf
  exact ⟨f, hf, hbound, (hsafe 1).1⟩

end ProcessManager
