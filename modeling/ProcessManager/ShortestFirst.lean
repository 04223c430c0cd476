import ProcessManager.Makespan
import ProcessManager.FinishTimes
import ProcessManager.Library.PrefixSums

/-! Of jobs that arrive together SJF finishes the first `k` no later than RR, for every `k`. -/
namespace ProcessManager

open Loop PrefixSums

variable {cfg : Config} {workload : List Record} {s s' t : State} {p q : ProcId}
  {events : List Event} {m n : ℕ}

theorem loaded_arrival_zero (hzero : ∀ r ∈ workload, r.arrivalTime = 0) (p : ProcId) :
    (loadedProcs workload p).arrivalTime = 0 := by
  by_cases hp : p < workload.length
  · rw [loadedProcs_getElem hp]
    simp [createProcess, hzero _ (List.getElem_mem hp)]
  · rw [loadedProcs, List.getD_eq_default _ _ (Nat.le_of_not_lt hp)]
    rfl

theorem order_of_zero (hzero : ∀ r ∈ workload, r.arrivalTime = 0) : ArrivalOrder workload := by
  apply List.pairwise_of_forall_mem_list
  intro a ha b hb
  rw [hzero a ha]
  exact UInt32.zero_le

/-- The first pass takes everybody off the list. -/
theorem Step.all_arrived (hzero : ∀ r ∈ workload, r.arrivalTime = 0) (h : AtHead cfg workload s)
    (hs : Step cfg s events s') : s'.processes = [] := by
  rw [hs.processes h, List.dropWhile_eq_nil_iff]
  intro p _
  simp [loaded_arrival_zero hzero p]

theorem run_all_arrived (hzero : ∀ r ∈ workload, r.arrivalTime = 0) (hpos : 1 ≤ n)
    (h : run cfg workload n = .next s) : s.processes = [] := by
  obtain ⟨n, rfl⟩ := Nat.exists_eq_add_of_le' hpos
  obtain ⟨t, ht, hb⟩ := iterate_succ_eq_next.mp h
  obtain ⟨events, hs⟩ := cycleBody_next (run_atHead n t ht) hb
  exact hs.all_arrived hzero (run_atHead n t ht).entered

theorem makespan_eq_total (hzero : ∀ r ∈ workload, r.arrivalTime = 0) (quantum : ℕ) :
    makespan quantum workload =
      total (durationOf quantum workload) (List.range workload.length) := by
  rw [makespan_eq_finish, Serial.finish_released, Nat.zero_add, total]
  intro p _
  simp [releaseOf, loaded_arrival_zero hzero p]

theorem quantaNeeded_mono {quantum : ℕ} (hq : 1 ≤ quantum) {a b : ℕ} (hab : a ≤ b) :
    quantaNeeded quantum a ≤ quantaNeeded quantum b := by
  rw [quantaNeeded_le hq (one_le_quantaNeeded quantum b)]
  exact hab.trans ((quantaNeeded_le hq (one_le_quantaNeeded quantum b)).mp le_rfl)

theorem Invariant.need_le (h : Invariant cfg workload s) (p : ProcId) :
    s.need cfg.quantum p ≤ durationOf cfg.quantum workload p := by
  rw [durationOf, ← (h.loaded p).serviceTime]
  exact quantaNeeded_mono cfg.quantum_pos (h.timeLeft p)

/-- At least the quanta of the processes that have finished were given so far; under SJF no
others were. -/
theorem FinishedIn.quanta (hzero : ∀ r ∈ workload, r.arrivalTime = 0)
    (hpaced : Paced cfg workload m t) (h : FinishedIn cfg workload s p m t) :
    total (durationOf cfg.quantum workload) (t.finishedQueue ++ [p]) ≤ m ∧
      (cfg.scheduler = .sjf →
        total (durationOf cfg.quantum workload) (t.finishedQueue ++ [p]) = m) := by
  have hhead := run_atHead m t h.head
  have hpos : 1 ≤ m := run_current_pos h.head (by simp [h.current])
  obtain ⟨charged, t1, hcharge, hfinished, hrun⟩ := h.charge
  have hinv := hcharge.invariant hhead
  have hnone := run_all_arrived hzero hpos h.head
  -- The quanta given and those still needed make up the makespan, and so do all durations.
  have hplan := hcharge.plan hhead hpaced fun _ => hpos
  rw [hnone, Serial.finish_nil, makespan_eq_total hzero] at hplan
  have hall : t1.members.Perm (List.range workload.length) :=
    (hcharge.members hhead).trans hpaced.complete
  have hsplit : total (durationOf cfg.quantum workload) _ =
      total (durationOf cfg.quantum workload) _ := total_perm hall
  rw [State.members, hcharge.processes, hnone, hrun, hfinished, List.nil_append, List.nil_append,
    ← List.append_assoc, total_append] at hsplit
  have hwork : t1.work cfg.quantum =
      total (t1.need cfg.quantum) (t1.inputQueue ++ t1.readyQueue.items) := by
    rw [State.work, hrun, List.append_nil, total]
  have hle : t1.work cfg.quantum ≤ total (durationOf cfg.quantum workload)
      (t1.inputQueue ++ t1.readyQueue.items) := by
    rw [hwork]
    exact List.sum_le_sum fun q _ => hinv.need_le q
  refine ⟨by omega, fun hsjf => ?_⟩
  have hfresh := hcharge.fresh hhead (run_fresh m t h.head)
  have heq : t1.work cfg.quantum = total (durationOf cfg.quantum workload)
      (t1.inputQueue ++ t1.readyQueue.items) := by
    rw [hwork, total, total]
    congr 1
    apply List.map_congr_left
    intro q hq
    have hwaits : Waits cfg t1 q := by
      rcases List.mem_append.mp hq with hq | hq
      · exact Or.inr (Or.inl hq)
      · exact Or.inr (Or.inr ⟨hsjf, hq⟩)
    rw [State.need, hfresh q hwaits, durationOf, (hinv.loaded q).serviceTime]
  omega

/-- The processes that have finished or run are in ascending order, before those that wait. -/
structure Ascending (workload : List Record) (s : State) : Prop where
  sorted : (s.finishedQueue ++ s.running).Pairwise fun a b =>
    (loadedProcs workload a).serviceTime ≤ (loadedProcs workload b).serviceTime
  least : ∀ a ∈ s.finishedQueue ++ s.running,
    ∀ b ∈ s.processes ++ (s.inputQueue ++ s.readyQueue.items),
    (loadedProcs workload a).serviceTime ≤ (loadedProcs workload b).serviceTime

theorem Ascending.entered (ha : Ascending workload s) :
    Ascending workload (s.entered cfg) := by
  unfold State.entered
  split
  · have hfinished : s.finishedQueue.Sublist (s.finishedQueue ++ s.running) :=
      List.sublist_append_left _ _
    constructor
    · simp only [State.restarted_finishedQueue, State.running_restarted, List.append_nil]
      exact ha.sorted.sublist hfinished
    · simp only [State.restarted_finishedQueue, State.running_restarted, List.append_nil,
        State.restarted_processes, State.restarted_inputQueue, State.restarted_readyQueue,
        items_createReady]
      intro a hmem b hb
      refine ha.least a (hfinished.mem hmem) b ?_
      rw [← List.append_assoc]
      exact List.mem_append_left _ hb
  · exact ha

theorem FinishedIn.place {k : ℕ} (h : FinishedIn cfg workload s p m t)
    (hnodup : s.finishedQueue.Nodup) (hk : s.finishedQueue[k]? = some p) :
    t.finishedQueue.length = k ∧ s.finishedQueue.take (k + 1) = t.finishedQueue ++ [p] := by
  obtain ⟨rest, hrest⟩ := h.order
  have hlt : k < s.finishedQueue.length := (List.getElem?_eq_some_iff.mp hk).1
  have hat : s.finishedQueue[t.finishedQueue.length]? = some p := by simp [← hrest]
  have hlength : k = t.finishedQueue.length :=
    (List.getElem?_inj hlt hnodup).mp (hk.trans hat.symm)
  refine ⟨hlength.symm, ?_⟩
  rw [← hrest, hlength]
  exact List.take_left' (by simp)

/-- All jobs arrive at time 0, memory has no limit, and the clock does not wrap. -/
structure Together (cfg : Config) (workload : List Record) : Prop where
  infinite : cfg.memStrategy = .infinite
  nonempty : workload ≠ []
  arrival : ∀ r ∈ workload, r.arrivalTime = 0
  noWrap : NoWrap cfg (makespan cfg.quantum workload)

namespace Together

theorem paced (h : Together cfg workload) (hs : run cfg workload n = .next s) :
    s.simTime = cfg.quantum * n ∧ Paced cfg workload n s :=
  run_paced h.nonempty (order_of_zero h.arrival) (by simp [h.infinite]) (by simp [h.infinite])
    h.noWrap n s hs

theorem ends (h : Together cfg workload) : ∃ n s, run cfg workload n = .done s := by
  have hstarts : Starts cfg workload := by
    obtain ⟨first, rest, rfl⟩ := List.exists_cons_of_ne_nil h.nonempty
    exact starts_of_arrived (first_arrived (h.arrival first (by simp))) (by simp [h.infinite])
  obtain ⟨s, hs⟩ := run_reaches_done h.nonempty (order_of_zero h.arrival) (by simp [h.infinite])
    (by simp [h.infinite]) h.noWrap hstarts
  exact ⟨_, s, hs⟩

/-- The pass that finished the process at a place of the queue. -/
theorem finished (h : Together cfg workload) (hs : run cfg workload n = .done s) {k : ℕ}
    (hk : s.finishedQueue[k]? = some p) : ∃ m t, FinishedIn cfg workload s p m t ∧
      Paced cfg workload m t ∧ (s.procs p).finishTime = cfg.quantum * m ∧
      t.finishedQueue.length = k ∧ s.finishedQueue.take (k + 1) = t.finishedQueue ++ [p] := by
  have hstate : (run cfg workload n).state? = some s := by rw [hs]; rfl
  obtain ⟨m, t, hfinished⟩ := run_finishedIn hstate (List.mem_of_getElem? hk)
  obtain ⟨htime, hpaced⟩ := h.paced hfinished.head
  exact ⟨m, t, hfinished, hpaced, hfinished.time.trans htime,
    hfinished.place (run_state_invariant hstate).finished_nodup hk⟩

theorem finishTime_ge (h : Together cfg workload) (hs : run cfg workload n = .done s) {k : ℕ}
    (hk : s.finishedQueue[k]? = some p) : cfg.quantum *
      total (durationOf cfg.quantum workload) (s.finishedQueue.take (k + 1)) ≤
        (s.procs p).finishTime := by
  obtain ⟨m, t, hfinished, hpaced, htime, -, htake⟩ := h.finished hs hk
  rw [htime, htake]
  exact Nat.mul_le_mul_left _ (hfinished.quanta h.arrival hpaced).1

theorem turnaround_eq (h : Together cfg workload) (hs : run cfg workload n = .done s)
    (hp : p ∈ s.finishedQueue) : (s.procs p).turnaroundTime = (s.procs p).finishTime := by
  have hstate : (run cfg workload n).state? = some s := by rw [hs]; rfl
  obtain ⟨k, hk⟩ := List.mem_iff_getElem?.mp hp
  obtain ⟨m, t, hfinished, hpaced, htime, -⟩ := h.finished hs hk
  obtain ⟨cycle, r, -, hturnaround⟩ := run_recorded hstate hp
  have hbound := hpaced.bound
  have harrival : (s.procs p).arrivalTime = 0 := by
    rw [((run_state_invariant hstate).loaded p).arrivalTime]
    exact loaded_arrival_zero h.arrival p
  rw [hturnaround, harrival, Nat.cast_zero, sub_zero, htime]
  exact Clock.wrap_natCast (h.noWrap.mono hbound).2

end Together

end ProcessManager
