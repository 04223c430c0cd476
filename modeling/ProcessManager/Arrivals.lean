import ProcessManager.Library.Serial
import ProcessManager.ServiceTime

/-! Arrivals and the clock: when a process leaves the list of processes that have not arrived. -/
namespace ProcessManager

open Loop

variable {cfg : Config} {workload : List Record} {s s' : State} {p q : ProcId}
  {events : List Event} {n : ℕ}

/-- The list is in order of arrival. -/
def ArrivalOrder (workload : List Record) : Prop :=
  workload.Pairwise fun a b => a.arrivalTime ≤ b.arrivalTime

/-- A run that stays in the range of `num_cycles`, and of its clock where that is no exact one. -/
def NoWrap (cfg : Config) (n : ℕ) : Prop :=
  n < 2 ^ 32 ∧ (cfg.clock = .uint32 → cfg.quantum * n < 2 ^ 32)

/-- In the range of the clock of the code, `num_cycles` is in range as well. -/
theorem noWrap_of_time (h : cfg.quantum * n < 2 ^ 32) : NoWrap cfg n :=
  ⟨(Nat.le_mul_of_pos_left n cfg.quantum_pos).trans_lt h, fun _ => h⟩

theorem Step.time (hs : Step cfg s events s')
    (hwrap : cfg.clock = .uint32 → cfg.quantum * (n + 1) < 2 ^ 32)
    (htime : s.simTime = cfg.quantum * n) : s'.simTime = cfg.quantum * (n + 1) := by
  have hsum : ((s.simTime : ℤ) + cfg.quantum) = ((cfg.quantum * (n + 1) : ℕ) : ℤ) := by
    rw [htime]
    push_cast
    ring
  rw [hs.clock.2.1, hsum, Clock.wrap_natCast hwrap]

theorem NoWrap.mono {m : ℕ} (h : NoWrap cfg n) (hmn : m ≤ n) : NoWrap cfg m := by
  refine ⟨hmn.trans_lt h.1, fun hclock => ?_⟩
  exact (Nat.mul_le_mul_left cfg.quantum hmn).trans_lt (h.2 hclock)

theorem run_time : ∀ n s, run cfg workload n = .next s → NoWrap cfg n →
    s.simTime = cfg.quantum * n := by
  apply run_invariant
  case h0 => exact fun _ => rfl
  case hstep =>
    intro n s events s' _ _ _ h hs hwrap
    have htime := h (hwrap.mono (Nat.le_succ n))
    exact hs.time hwrap.2 (by rwa [State.simTime_entered])

theorem map_range_getD (workload : List Record) (d : Record) :
    (List.range workload.length).map (fun p => workload.getD p d) = workload := by
  apply List.ext_getElem
  · simp
  · intro i h1 h2
    simp [h2]

theorem ArrivalOrder.loaded (h : ArrivalOrder workload) : (List.range workload.length).Pairwise
    fun a b => (loadedProcs workload a).arrivalTime ≤ (loadedProcs workload b).arrivalTime := by
  rw [ArrivalOrder, ← map_range_getD workload ⟨0, [], 0, 0⟩, List.pairwise_map] at h
  exact h.imp fun hab => UInt32.le_iff_toNat_le.mp hab

theorem Invariant.arrived_eq (h : Invariant cfg workload s) : s.arrived =
    s.processes.takeWhile fun p => (loadedProcs workload p).arrivalTime ≤ s.simTime := by
  simp only [State.arrived, fun p => (h.loaded p).arrivalTime]

theorem Invariant.unarrived_eq (h : Invariant cfg workload s) : s.unarrived =
    s.processes.dropWhile fun p => (loadedProcs workload p).arrivalTime ≤ s.simTime := by
  simp only [State.unarrived, fun p => (h.loaded p).arrivalTime]

theorem Charge.processes (hc : Charge cfg s events s') : s'.processes = s.processes := by
  cases hc <;> rfl

theorem Admit.processes (ha : Admit cfg s events s') : s'.processes = s.unarrived := by
  cases ha
  rfl

/-- A pass takes the processes off the list that have arrived by its time. -/
theorem Step.processes (h : AtHead cfg workload s) (hs : Step cfg s events s') : s'.processes =
    s.processes.dropWhile fun p => (loadedProcs workload p).arrivalTime ≤ s.simTime := by
  cases hs with
  | @step s1 s2 s3 charged admitted driven hcharge _ hadmits hsched =>
    have hinv1 := hcharge.invariant h
    have hprocesses : s3.processes = s1.unarrived :=
      (hsched.queues (hadmits.invariant hinv1)).1.trans hadmits.processes
    rw [State.tick_processes, hprocesses, hinv1.unarrived_eq, hcharge.processes,
      hcharge.clock.2.1]

theorem run_sorted (horder : ArrivalOrder workload) : ∀ n s, run cfg workload n = .next s →
    s.processes.Pairwise
      fun a b => (loadedProcs workload a).arrivalTime ≤ (loadedProcs workload b).arrivalTime := by
  apply run_invariant
  case h0 => exact horder.loaded
  case hstep =>
    intro n s events s' _ _ h hsorted hs
    rw [hs.processes h.entered, State.processes_entered]
    exact hsorted.sublist (List.dropWhile_sublist _)

/-- Who is still on the list after a pass arrives later. -/
theorem run_late (horder : ArrivalOrder workload) (hn : run cfg workload n = .next s)
    (hs : Step cfg s events s') (hp : p ∈ s'.processes) :
    s.simTime < (loadedProcs workload p).arrivalTime := by
  rw [hs.processes (run_atHead n s hn)] at hp
  have hlt := Serial.lt_of_mem_dropWhile (run_sorted horder n s hn) hp
  exact hlt

end ProcessManager
