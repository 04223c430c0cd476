import ProcessManager.Trace
import ProcessManager.Arrivals

/-! The trace holds the arrival of every process that has left the list, and the FINISHED line its
statistics were made from. -/
namespace ProcessManager

open Loop

variable {cfg : Config} {workload : List Record} {s s' t : State} {p q : ProcId}
  {events : List Event} {m n : ℕ}

theorem Charge.processes_arrive (hc : Charge cfg s events s') (hp : p ∈ s.processes) :
    p ∈ s'.processes := by
  rw [hc.processes]
  exact hp

/-- A process stays on the list or is logged as arrived. -/
theorem Step.arrives (h : AtHead cfg workload s) (hs : Step cfg s events s')
    (hp : p ∈ s.processes) : p ∈ s'.processes ∨ .arrive p ∈ events := by
  cases hs with
  | @step s1 s2 s3 charged admitted driven hcharge _ hadmits hsched =>
    have hprocesses : s3.processes = s1.unarrived :=
      (hsched.queues (hadmits.invariant (hcharge.invariant h))).1.trans hadmits.processes
    have hp1 : p ∈ s1.arrived ++ s1.unarrived := by
      rw [s1.arrived_append_unarrived]
      exact hcharge.processes_arrive hp
    rcases List.mem_append.mp hp1 with hp1 | hp1
    · right
      have hadmitted : .arrive p ∈ admitted := by
        cases hadmits
        exact List.mem_append_left _ (List.mem_map_of_mem hp1)
      exact List.mem_append_left _ (List.mem_append_right _ hadmitted)
    · left
      rw [State.tick_processes, hprocesses]
      exact hp1

theorem run_arrived_next : ∀ n s, run cfg workload n = .next s → ∀ p < workload.length,
    p ∈ s.processes ∨ ∃ cycle time, ⟨cycle, time, .arrive p⟩ ∈ s.trace := by
  apply run_invariant
  case h0 =>
    intro p hp
    exact Or.inl (List.mem_range.mpr hp)
  case hstep =>
    intro n s events s' _ _ h ih hs p hp
    rw [hs.trace]
    rcases ih p hp with hmem | ⟨cycle, time, hentry⟩
    · rw [← State.processes_entered cfg s] at hmem
      rcases hs.arrives h.entered hmem with hmem | he
      · exact Or.inl hmem
      · exact Or.inr ⟨_, _, List.mem_append_right _ (List.mem_map_of_mem he)⟩
    · exact Or.inr ⟨cycle, time, List.mem_append_left _ hentry⟩

theorem run_arrived (h : (run cfg workload n).state? = some s) (hp : p < workload.length) :
    p ∈ s.processes ∨ ∃ cycle time, ⟨cycle, time, .arrive p⟩ ∈ s.trace := by
  rcases run_state_cases h with hrun | ⟨m, t, events, -, ht, -, hcharge, -⟩
  · exact run_arrived_next n s hrun p hp
  · rw [hcharge.clock.2.2, hcharge.processes]
    rcases run_arrived_next m t ht p hp with hmem | ⟨cycle, time, hentry⟩
    · exact Or.inl hmem
    · exact Or.inr ⟨cycle, time, List.mem_append_left _ hentry⟩

/-- An arrival is logged by the pass that finds the process on the list, with its time reached. -/
theorem FromPass.arrive {entry : Entry} (h : FromPass cfg workload n entry)
    (he : entry.event = .arrive p) :
    ∃ t, run cfg workload entry.cycle = .next t ∧ entry.simTime = t.simTime ∧
      p ∈ t.processes ∧ (loadedProcs workload p).arrivalTime ≤ t.simTime := by
  obtain ⟨t, events, t', ht, -, hstep, hmem, htime⟩ := h.step (by simp [he]) (by simp [he])
  rw [he] at hmem
  refine ⟨t, ht, htime, ?_⟩
  have hhead := run_atHead _ t ht
  rw [← State.processes_entered cfg t, ← State.simTime_entered cfg t]
  cases hstep with
  | @step s1 s2 s3 charged admitted driven hcharge _ hadmits hsched =>
    have hinv := hcharge.invariant hhead.entered
    have harrived : p ∈ s1.arrived := by
      have hadmitted := mem_admitted hcharge hsched hmem rfl
      rcases hadmits.event_cases hadmitted with ⟨q, hq, heq⟩ | ⟨_, _, heq⟩ | ⟨_, _, heq⟩
      · exact (Event.arrive.inj heq) ▸ hq
      · cases heq
      · cases heq
    constructor
    · rw [← hcharge.processes]
      exact (List.takeWhile_sublist _).mem harrived
    · rw [hinv.arrived_eq] at harrived
      have hle := List.mem_takeWhile_imp harrived
      rw [hcharge.clock.2.1] at hle
      simpa using hle

/-- The statistics of a process come from a FINISHED line of the trace. -/
def Recorded (cfg : Config) (s : State) (p : ProcId) : Prop :=
  ∃ cycle r, ⟨cycle, (s.procs p).finishTime, .finished p r⟩ ∈ s.trace ∧
    (s.procs p).turnaroundTime =
      cfg.clock.wrap ((s.procs p).finishTime - (s.procs p).arrivalTime)

theorem Recorded.mono (h : Recorded cfg s p) (hprocs : s'.procs p = s.procs p)
    {new : List Entry} (htrace : s'.trace = s.trace ++ new) : Recorded cfg s' p := by
  obtain ⟨cycle, r, hentry, hturnaround⟩ := h
  rw [Recorded, hprocs, htrace]
  exact ⟨cycle, r, List.mem_append_left _ hentry, hturnaround⟩

theorem setBlockNode_other {procs : ProcTable} {node : Option NodeId} (hq : q ≠ p) :
    setBlockNode procs p node q = procs q := by
  simp [setBlockNode, hq]

/-- A process that has finished is not written again. -/
theorem Charge.procs_finished (h : AtHead cfg workload s) (hc : Charge cfg s events s')
    (hp : p ∈ s.finishedQueue) : s'.procs p = s.procs p := by
  cases hc with
  | idle => rfl
  | @quantum q hcur =>
    obtain ⟨-, -, -, hnot⟩ := h.running_elsewhere (p := q) (by simp [h.running_some hcur])
    exact Function.update_of_ne (ne_of_mem_of_not_mem hp hnot) _ _
  | @finish q store hcur hleft hfree =>
    obtain ⟨-, -, -, hnot⟩ := h.running_elsewhere (p := q) (by simp [h.running_some hcur])
    have hne : p ≠ q := ne_of_mem_of_not_mem hp hnot
    have hretired : finishedProcs cfg s.simTime s.procs q p = s.procs p :=
      Function.update_of_ne hne _ _
    simp only [State.procs_emit, State.procs_mk, deallocateMemory_procs hfree]
    split
    · exact (setBlockNode_other hne).trans hretired
    · exact hretired

theorem Admit.procs_finished (h : Invariant cfg workload s) (ha : Admit cfg s events s')
    (hp : p ∈ s.finishedQueue) : s'.procs p = s.procs p := by
  cases ha with
  | ofPass hpass =>
    apply hpass.procs_other
    intro htaken
    have hwaits := List.count_pos_iff.mpr (hpass.taken_sublist.mem htaken)
    have hdone := List.count_pos_iff.mpr hp
    have hle := h.count_le_one p
    have hsplit := s.count_processes p
    rw [List.count_append] at hwaits
    omega

theorem Schedule.procs_finished (h : Invariant cfg workload s) (hs : Schedule cfg s events s')
    (hp : p ∈ s.finishedQueue) : s'.procs p = s.procs p := by
  have hother : ∀ r ∈ s.readyQueue.items,
      dispatchedProcs cfg s.procs r p = s.procs p := by
    intro r hr
    obtain ⟨-, -, -, hnot⟩ := h.ready_elsewhere hr
    exact Function.update_of_ne (ne_of_mem_of_not_mem hp hnot) _ _
  cases hs with
  | idle => rfl
  | resume => rfl
  | @dispatch r ready hrun hnext =>
    obtain ⟨-, hperm, -⟩ := h.ready.extract_ok hnext
    exact hother r (hperm.mem_iff.mpr List.mem_cons_self)
  | @preempt o r queue ready hrr hrun hne hput hnext =>
    obtain ⟨others, hready, -⟩ := h.ready.preempt_ok hrr hne hput hnext
    exact hother r (by simp [hready])

/-- The pass that finishes a process sets its finish time and makes its statistics from it. -/
theorem Charge.settles (hc : Charge cfg s events s') (hp : p ∈ s'.finishedQueue)
    (hnot : p ∉ s.finishedQueue) :
    (s'.procs p).finishTime = s.simTime ∧ updateStats cfg.clock (s'.procs p) = s'.procs p := by
  cases hc with
  | idle => exact absurd hp hnot
  | quantum => exact absurd hp hnot
  | finish hcur hleft hfree =>
    rcases List.mem_append.mp hp with hp | hp
    · exact absurd hp hnot
    · obtain rfl := List.mem_singleton.mp hp
      simp only [State.procs_emit, State.procs_mk, deallocateMemory_procs hfree]
      split
      · simp [setBlockNode, finishedProcs, updateStats]
      · simp [finishedProcs, updateStats]

theorem Charge.recorded (h : AtHead cfg workload s)
    (hold : ∀ p ∈ s.finishedQueue, Recorded cfg s p) (hc : Charge cfg s events s') :
    ∀ p ∈ s'.finishedQueue, Recorded cfg s' p := by
  intro p hp
  by_cases hbefore : p ∈ s.finishedQueue
  · exact (hold p hbefore).mono (hc.procs_finished h hbefore) hc.clock.2.2
  · obtain ⟨htime, hstats⟩ := hc.settles hp hbefore
    cases hc with
    | idle => exact absurd hp hbefore
    | quantum => exact absurd hp hbefore
    | @finish q store hcur hleft hfree =>
      obtain rfl : p = q := by simpa [hbefore] using hp
      refine ⟨s.passes, s.inputQueue.length + s.readyQueue.size, ?_, ?_⟩
      · rw [htime]
        exact List.mem_append_right _ (by simp [finishEvents])
      · exact (congrArg Process.turnaroundTime hstats).symm

/-- After the quantum is charged no finished process changes in a pass. -/
theorem Schedule.procs_settled {s1 s2 s3 : State} {admitted driven : List Event}
    (hinv1 : Invariant cfg workload s1) (hadmits : Admit cfg s1 admitted s2)
    (hsched : Schedule cfg s2 driven s3) (hp : p ∈ s3.finishedQueue) :
    p ∈ s1.finishedQueue ∧ s3.procs p = s1.procs p := by
  have hinv2 := hadmits.invariant hinv1
  have hp2 : p ∈ s2.finishedQueue := (hsched.queues hinv2).2.2.1 ▸ hp
  have hp1 : p ∈ s1.finishedQueue := hadmits.finishedQueue ▸ hp2
  exact ⟨hp1, (hsched.procs_finished hinv2 hp2).trans (hadmits.procs_finished hinv1 hp1)⟩

theorem Step.recorded (h : AtHead cfg workload s)
    (hold : ∀ p ∈ s.finishedQueue, Recorded cfg s p) (hs : Step cfg s events s') :
    ∀ p ∈ s'.finishedQueue, Recorded cfg s' p := by
  cases hs with
  | @step s1 s2 s3 charged admitted driven hcharge _ hadmits hsched =>
    intro p hp
    obtain ⟨hp1, hprocs⟩ := Schedule.procs_settled (hcharge.invariant h) hadmits hsched hp
    have htrace := hsched.clock.2.2
    rw [hadmits.clock.2.2, List.append_assoc] at htrace
    have h3 : Recorded cfg s3 p := (hcharge.recorded h hold p hp1).mono hprocs htrace
    exact h3

theorem run_settled_next : ∀ n s, run cfg workload n = .next s →
    ∀ p ∈ s.finishedQueue, updateStats cfg.clock (s.procs p) = s.procs p := by
  apply run_invariant
  case h0 => simp [initialState]
  case hstep =>
    intro n s events s' _ _ h hold hs p hp
    rw [← State.finishedQueue_entered cfg s, ← State.procs_entered cfg s] at hold
    cases hs with
    | @step s1 s2 s3 charged admitted driven hcharge _ hadmits hsched =>
      obtain ⟨hp1, hprocs⟩ := Schedule.procs_settled (hcharge.invariant h.entered) hadmits hsched hp
      rw [State.procs_tick, hprocs]
      by_cases hbefore : p ∈ (s.entered cfg).finishedQueue
      · rw [hcharge.procs_finished h.entered hbefore]
        exact hold p hbefore
      · exact (hcharge.settles hp1 hbefore).2

/-- The statistics of a finished process are the ones `update_stats` makes. -/
theorem run_settled (h : (run cfg workload n).state? = some s) (hp : p ∈ s.finishedQueue) :
    updateStats cfg.clock (s.procs p) = s.procs p := by
  rcases run_state_cases h with hrun | ⟨m, t, events, -, ht, -, hcharge, -⟩
  · exact run_settled_next n s hrun p hp
  · by_cases hbefore : p ∈ t.finishedQueue
    · rw [hcharge.procs_finished (run_atHead m t ht) hbefore]
      exact run_settled_next m t ht p hbefore
    · exact (hcharge.settles hp hbefore).2

theorem run_recorded_next : ∀ n s, run cfg workload n = .next s →
    ∀ p ∈ s.finishedQueue, Recorded cfg s p := by
  apply run_invariant
  case h0 => simp [initialState]
  case hstep =>
    intro n s events s' _ _ h hold hs
    refine hs.recorded h.entered fun p hp => ?_
    rw [State.finishedQueue_entered] at hp
    simpa [Recorded] using hold p hp

theorem run_recorded (h : (run cfg workload n).state? = some s) (hp : p ∈ s.finishedQueue) :
    Recorded cfg s p := by
  rcases run_state_cases h with hrun | ⟨m, t, events, -, ht, -, hcharge, -⟩
  · exact run_recorded_next n s hrun p hp
  · exact hcharge.recorded (run_atHead m t ht) (run_recorded_next m t ht) p hp

theorem Step.finished_prefix (h : AtHead cfg workload s) (hs : Step cfg s events s') :
    s.finishedQueue <+: s'.finishedQueue := by
  cases hs with
  | @step s1 s2 s3 charged admitted driven hcharge _ hadmits hsched =>
    have hfinished : s3.finishedQueue = s1.finishedQueue :=
      (hsched.queues (hadmits.invariant (hcharge.invariant h))).2.2.1.trans hadmits.finishedQueue
    rw [State.tick_finishedQueue, hfinished]
    cases hcharge with
    | idle | quantum => exact List.prefix_rfl
    | finish => exact List.prefix_append _ _

theorem run_finished_prefix_next (hm : run cfg workload m = .next t) :
    ∀ n s, run cfg workload n = .next s → m ≤ n → t.finishedQueue <+: s.finishedQueue := by
  apply run_invariant
  case h0 =>
    intro hle
    obtain rfl : m = 0 := Nat.le_zero.mp hle
    cases hm
    exact List.prefix_rfl
  case hstep =>
    intro n s events s' hn hnext h ih hs hle
    rcases Nat.le_succ_iff.mp hle with hle | rfl
    · have hprefix := hs.finished_prefix h.entered
      rw [State.finishedQueue_entered] at hprefix
      exact (ih hle).trans hprefix
    · obtain rfl := run_unique hm hnext
      exact List.prefix_rfl

/-- The queue of finished processes only grows at its end. -/
theorem run_finished_prefix (hm : run cfg workload m = .next t)
    (h : (run cfg workload n).state? = some s) (hle : m ≤ n) :
    t.finishedQueue <+: s.finishedQueue := by
  rcases run_state_cases h with hrun | ⟨k, u, events, hkn, hu, hdone, hcharge, -⟩
  · exact run_finished_prefix_next hm n s hrun hle
  · have hmk : m ≤ k := by
      by_contra hlt
      have hstill : run cfg workload m = .done s := iterate_done_of_le (by omega) hdone
      rw [hstill] at hm
      cases hm
    apply (run_finished_prefix_next hm k u hu hmk).trans
    cases hcharge with
    | idle | quantum => exact List.prefix_rfl
    | finish => exact List.prefix_append _ _

/-- Pass `m`, from the head `t`, gave the process its last quantum and set its finish time. -/
structure FinishedIn (cfg : Config) (workload : List Record) (s : State) (p : ProcId) (m : ℕ)
    (t : State) : Prop where
  head : run cfg workload m = .next t
  current : t.currentProcess = some p
  time : (s.procs p).finishTime = t.simTime
  order : t.finishedQueue ++ [p] <+: s.finishedQueue
  charge : ∃ charged t1, Charge cfg t charged t1 ∧ t1.finishedQueue = t.finishedQueue ++ [p] ∧
    t1.running = []

theorem run_finishedIn (h : (run cfg workload n).state? = some s) (hp : p ∈ s.finishedQueue) :
    ∃ m t, FinishedIn cfg workload s p m t := by
  obtain ⟨m, r, hentry, -⟩ := run_recorded h hp
  obtain ⟨hmn, t, events, t', ht, hperforms, he, htime⟩ := run_fromPass h hentry
  obtain ⟨hcur, hfinished, hcharge⟩ := hperforms.finished (run_atHead m t ht) he
  refine ⟨m, t, ht, hcur, htime, ?_, hcharge⟩
  rw [← hfinished]
  rcases hperforms with ⟨hnext, -⟩ | ⟨hdone, -⟩
  · exact run_finished_prefix hnext h hmn
  · have hsame : run cfg workload n = .done t' := iterate_done_of_le hmn hdone
    rw [hsame] at h
    cases h
    exact List.prefix_rfl

end ProcessManager
