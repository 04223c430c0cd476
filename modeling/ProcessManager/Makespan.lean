import ProcessManager.Driving
import ProcessManager.Arrivals

/-! No pass is wasted: the makespan is that of the jobs done in file order without preemption. -/
namespace ProcessManager

open Loop

variable {cfg : Config} {workload : List Record} {s s' : State} {p q : ProcId}
  {events : List Event} {n : ℕ}

/-- The makespan in quanta, from the records in file order. -/
def makespan (quantum : ℕ) (workload : List Record) : ℕ :=
  workload.foldl (fun n r => max n (r.arrivalTime.toNat ⌈/⌉ quantum) +
    quantaNeeded quantum r.serviceTime.toNat) 0

/-- The first pass that finds the process arrived. -/
def releaseOf (quantum : ℕ) (workload : List Record) (p : ProcId) : ℕ :=
  (loadedProcs workload p).arrivalTime ⌈/⌉ quantum

def durationOf (quantum : ℕ) (workload : List Record) (p : ProcId) : ℕ :=
  quantaNeeded quantum (loadedProcs workload p).serviceTime

/-- The quanta an unfinished process still takes. -/
def State.need (quantum : ℕ) (s : State) (p : ProcId) : ℕ :=
  quantaNeeded quantum (s.procs p).serviceTimeLeft

/-- The quanta that all processes take which have arrived and not finished. -/
def State.work (quantum : ℕ) (s : State) : ℕ :=
  ((s.inputQueue ++ (s.readyQueue.items ++ s.running)).map (s.need quantum)).sum

theorem makespan_eq_finish (quantum : ℕ) (workload : List Record) : makespan quantum workload =
    Serial.finish (releaseOf quantum workload) (durationOf quantum workload) 0
      (List.range workload.length) := by
  have hfold : makespan quantum workload =
      Serial.finish (fun r : Record => r.arrivalTime.toNat ⌈/⌉ quantum)
        (fun r : Record => quantaNeeded quantum r.serviceTime.toNat) 0 workload := rfl
  rw [hfold]
  conv_lhs => rw [← map_range_getD workload ⟨0, [], 0, 0⟩]
  rw [Serial.finish_map]
  rfl

theorem one_le_quantaNeeded (quantum service : ℕ) : 1 ≤ quantaNeeded quantum service :=
  le_max_left 1 _

theorem releaseOf_le (hq : 1 ≤ cfg.quantum) : releaseOf cfg.quantum workload p ≤ n ↔
    (loadedProcs workload p).arrivalTime ≤ cfg.quantum * n :=
  ceilDiv_le_iff_le_mul hq

/-- One quantum less is needed after a full one. -/
theorem quantaNeeded_sub {quantum left : ℕ} (hq : 1 ≤ quantum) (hleft : quantum < left) :
    quantaNeeded quantum (left - quantum) + 1 = quantaNeeded quantum left := by
  apply le_antisymm
  · have hone : ¬ quantaNeeded quantum left ≤ 1 := by
      rw [quantaNeeded_le hq le_rfl]
      omega
    obtain ⟨k, hk⟩ := Nat.exists_eq_add_of_lt (Nat.lt_of_not_le hone)
    have hle : left ≤ quantum * (1 + k + 1) := (quantaNeeded_le hq (by omega)).mp hk.le
    have hmul : quantum * (1 + k + 1) = quantum * (1 + k) + quantum := by ring
    have := (quantaNeeded_le hq (Nat.le_add_right 1 k)).mpr
      (show left - quantum ≤ quantum * (1 + k) by omega)
    omega
  · rw [quantaNeeded_le hq (by omega)]
    have hle := (quantaNeeded_le hq (one_le_quantaNeeded quantum (left - quantum))).mp le_rfl
    have hmul : quantum * (quantaNeeded quantum (left - quantum) + 1) =
      quantum * quantaNeeded quantum (left - quantum) + quantum := by ring
    omega

theorem quantaNeeded_last {quantum left : ℕ} (hq : 1 ≤ quantum) (hleft : left ≤ quantum) :
    quantaNeeded quantum left = 1 := by
  apply le_antisymm _ (one_le_quantaNeeded quantum left)
  rw [quantaNeeded_le hq le_rfl]
  omega

theorem State.work_eq (quantum : ℕ) (s : State) : s.work quantum =
    (s.inputQueue.map (s.need quantum)).sum + ((s.readyQueue.items.map (s.need quantum)).sum +
      (s.running.map (s.need quantum)).sum) := by
  simp [work]

theorem Charge.need_other (hc : Charge cfg s events s') (hne : s.currentProcess ≠ some q) :
    s'.need cfg.quantum q = s.need cfg.quantum q := by
  rw [State.need, hc.timeLeft q, if_neg hne, Nat.sub_zero, State.need]

/-- A running process takes one quantum off the work. -/
theorem Charge.work (h : AtHead cfg workload s) (hc : Charge cfg s events s')
    (hcur : s.currentProcess = some p) :
    s'.work cfg.quantum + 1 = s.work cfg.quantum := by
  have hrun := h.running_some hcur
  obtain ⟨-, hnotinput, hnotready, -⟩ := h.running_elsewhere (p := p) (by simp [hrun])
  have hother : ∀ l : List ProcId, p ∉ l →
      l.map (s'.need cfg.quantum) = l.map (s.need cfg.quantum) := by
    intro l hl
    apply List.map_congr_left
    intro r hr
    apply hc.need_other
    rw [hcur]
    rintro he
    exact hl (Option.some.inj he ▸ hr)
  have hinput := hother s.inputQueue hnotinput
  have hready := hother s.readyQueue.items hnotready
  have hneed : s'.need cfg.quantum p =
      quantaNeeded cfg.quantum ((s.procs p).serviceTimeLeft - cfg.quantum) := by
    rw [State.need, hc.timeLeft p, if_pos hcur]
  rw [s'.work_eq, s.work_eq, hrun]
  cases hc with
  | idle hnone => simp [hnone] at hcur
  | quantum hsome hleft =>
    obtain rfl := Option.some.inj (hsome.symm.trans hcur)
    have hsub := quantaNeeded_sub cfg.quantum_pos hleft
    change (s.inputQueue.map _).sum + ((s.readyQueue.items.map _).sum +
      (s.running.map _).sum) + 1 = _
    rw [hinput, hready, hrun]
    simp only [List.map_cons, List.map_nil, List.sum_singleton, hneed]
    rw [State.need, ← hsub]
    omega
  | finish hsome hleft =>
    obtain rfl := Option.some.inj (hsome.symm.trans hcur)
    have hlast := quantaNeeded_last cfg.quantum_pos hleft
    change (s.inputQueue.map _).sum + ((s.readyQueue.items.map _).sum + 0) + 1 = _
    rw [hinput, hready]
    simp only [List.map_cons, List.map_nil, List.sum_singleton, State.need, hlast]
    omega

/-- The arrived processes add what they need. -/
theorem Admit.work (h : Invariant cfg workload s) (ha : Admit cfg s events s') :
    s'.work cfg.quantum =
      s.work cfg.quantum + (s.arrived.map (s.need cfg.quantum)).sum := by
  have hneed : s'.need cfg.quantum = s.need cfg.quantum := by
    funext q
    rw [State.need, ha.timeLeft q, State.need]
  have hrun := ha.running
  rw [State.work, State.work, hneed, hrun, ← List.sum_append, ← List.map_append]
  apply List.Perm.sum_eq
  apply List.Perm.map
  cases ha with
  | @ofPass pass taken left hpass =>
    obtain ⟨-, hready, -⟩ := hpass.ready h.ready
    apply List.perm_iff_count.mpr
    intro q
    have h1 := hpass.perm.count_eq q
    have h2 := hready.count_eq q
    simp only [List.count_append] at h1 h2
    simp only [State.emit_inputQueue, State.emit_readyQueue, List.count_append]
    omega

theorem Schedule.work (h : Invariant cfg workload s) (hs : Schedule cfg s events s') :
    s'.work cfg.quantum = s.work cfg.quantum := by
  obtain ⟨-, hinput, -, hperm⟩ := hs.queues h
  have hneed : s'.need cfg.quantum = s.need cfg.quantum := by
    funext q
    rw [State.need, hs.timeLeft q, State.need]
  rw [State.work, State.work, hneed, hinput]
  exact ((hperm.append_left _).map _).sum_eq

/-- At the head before pass `n`, no quantum was wasted: the jobs still to be done finish when they
would without preemption, and somebody runs unless everybody who arrived has finished. -/
structure Paced (cfg : Config) (workload : List Record) (n : ℕ) (s : State) : Prop where
  plan : Serial.finish (releaseOf cfg.quantum workload) (durationOf cfg.quantum workload)
    (n - 1 + s.work cfg.quantum) s.processes = makespan cfg.quantum workload
  late : ∀ p ∈ s.processes, n ≤ releaseOf cfg.quantum workload p
  busy : s.running = [] → s.inputQueue = [] ∧ s.readyQueue.items = []
  complete : s.Complete workload
  more : s.finishedQueue.length < workload.length

theorem Paced.idle_work (hp : Paced cfg workload n s) (hrun : s.running = []) :
    s.work cfg.quantum = 0 := by
  obtain ⟨hinput, hready⟩ := hp.busy hrun
  simp [State.work, hinput, hready, hrun]

/-- An idle machine waits for a process that has not arrived. -/
theorem Paced.idle_processes (hp : Paced cfg workload n s) (hrun : s.running = []) :
    s.processes ≠ [] := by
  obtain ⟨hinput, hready⟩ := hp.busy hrun
  intro hnil
  have hlength := hp.complete.length_eq
  have hmore := hp.more
  simp only [hinput, hready, hrun, hnil, List.length_nil] at hlength
  omega

/-- The run is still inside its makespan. -/
theorem Paced.bound (hp : Paced cfg workload n s) :
    n ≤ makespan cfg.quantum workload := by
  have hplan := hp.plan
  cases hrun : s.running with
  | nil =>
    have hduration : ∀ p ∈ s.processes, 1 ≤ durationOf cfg.quantum workload p :=
      fun p _ => one_le_quantaNeeded _ _
    rw [← hplan]
    exact (Serial.lt_finish (hp.idle_processes hrun) hp.late hduration).le
  | cons p rest =>
    have hwork : 1 ≤ s.work cfg.quantum := by
      have hone : 1 ≤ s.need cfg.quantum p := one_le_quantaNeeded _ _
      rw [s.work_eq, hrun, List.map_cons, List.sum_cons]
      omega
    have hle : n - 1 + s.work cfg.quantum ≤ makespan cfg.quantum workload :=
      Serial.le_finish.trans hplan.le
    omega

theorem initialState_paced (hne : workload ≠ []) :
    Paced cfg workload 0 (initialState cfg workload) where
  plan := by
    rw [makespan_eq_finish]
    simp [State.work, initialState, State.running]
  late _ _ := Nat.zero_le _
  busy _ := by simp [initialState]
  complete := initialState_complete cfg workload
  more := List.length_pos_of_ne_nil hne

theorem Charge.plan (h : AtHead cfg workload s) (hp : Paced cfg workload n s)
    (hn : s.currentProcess ≠ none → 1 ≤ n) (hc : Charge cfg s events s') :
    Serial.finish (releaseOf cfg.quantum workload) (durationOf cfg.quantum workload)
      (n + s'.work cfg.quantum) s.processes = makespan cfg.quantum workload := by
  rw [← hp.plan]
  cases hcur : s.currentProcess with
  | none =>
    have hrun : s.running = [] := by simp [h.running, hcur]
    have hsame : s'.work cfg.quantum = 0 := by
      cases hc with
      | idle => exact hp.idle_work hrun
      | quantum hsome | finish hsome => simp [hcur] at hsome
    rw [hsame, hp.idle_work hrun, Nat.add_zero, Nat.add_zero]
    exact (Serial.finish_idle (hp.idle_processes hrun) (Nat.sub_le n 1)
      hp.late).symm
  | some p =>
    have hwork := hc.work h hcur
    have hpos := hn (by simp [hcur])
    congr 1
    omega

/-- Admission carries the plan over to the processes that have not arrived. -/
theorem Admit.plan (h : Invariant cfg workload s) (ha : Admit cfg s events s')
    (htime : s.simTime = cfg.quantum * n) (hfresh : Fresh cfg s)
    (hplan : Serial.finish (releaseOf cfg.quantum workload) (durationOf cfg.quantum workload)
      (n + s.work cfg.quantum) s.processes = makespan cfg.quantum workload) :
    Serial.finish (releaseOf cfg.quantum workload) (durationOf cfg.quantum workload)
      (n + s'.work cfg.quantum) s'.processes = makespan cfg.quantum workload := by
  have hreleased : ∀ p ∈ s.arrived, releaseOf cfg.quantum workload p ≤
      n + s.work cfg.quantum := by
    intro p hp
    have harrived := List.mem_takeWhile_imp (h.arrived_eq ▸ hp)
    have hle : releaseOf cfg.quantum workload p ≤ n := by
      rw [releaseOf_le cfg.quantum_pos, ← htime]
      simpa using harrived
    omega
  have hneeded : s.arrived.map (durationOf cfg.quantum workload) =
      s.arrived.map (s.need cfg.quantum) := by
    apply List.map_congr_left
    intro p hp
    have hmem : p ∈ s.processes := (List.takeWhile_sublist _).mem hp
    rw [State.need, hfresh p (Or.inl hmem), (h.loaded p).serviceTime]
    rfl
  rw [← hplan, ← s.arrived_append_unarrived, Serial.finish_append,
    Serial.finish_released hreleased, hneeded, ha.work h, ha.processes, Nat.add_assoc]

/-- After admission nobody waits for memory while nothing is ready or running. -/
theorem Admit.waiting_none (h : Invariant cfg workload s) (hall : s.Complete workload)
    (ht : cfg.memStrategy = .bestFit → s.store.Tiled)
    (hfits : cfg.memStrategy = .bestFit → ∀ r ∈ workload, r.memRequirement ≤ memCapacity)
    (ha : Admit cfg s events s') (hrun : s.running = []) (hready : s'.readyQueue.items = []) :
    s'.inputQueue = [] := by
  have hnone : s.inputQueue ++ s.arrived = [] := by
    apply List.eq_nil_iff_forall_not_mem.mpr
    intro p hp
    have hlt := h.lt_of_waiting hp
    refine ha.ready_of_waiting h hall ht hrun hp (fun hb => ?_) hready
    rw [h.memRequirement hlt]
    exact hfits hb _ (List.getElem_mem hlt)
  cases ha with
  | ofPass hpass =>
    rw [hnone] at hpass
    exact List.sublist_nil.mp hpass.left_sublist

theorem Schedule.idle_of_running_nil (hs : Schedule cfg s events s') (hrun : s'.running = []) :
    s.running = [] ∧ s.readyQueue.items = [] ∧ s'.readyQueue.items = [] := by
  cases hs with
  | idle hnone hempty => exact ⟨hnone, hempty, hempty⟩
  | dispatch | preempt => simp [State.running] at hrun
  | resume hsome =>
    have hnil : s.running = [] := hrun
    simp [hnil] at hsome

theorem Step.paced (horder : ArrivalOrder workload)
    (hpos : cfg.memStrategy = .bestFit → Positive workload)
    (hfits : cfg.memStrategy = .bestFit → ∀ r ∈ workload, r.memRequirement ≤ memCapacity)
    (hn : run cfg workload n = .next s) (htime : s.simTime = cfg.quantum * n)
    (hp : Paced cfg workload n s) (hs : Step cfg s events s') :
    Paced cfg workload (n + 1) s' := by
  have h := run_atHead n s hn
  have hhead := hs.atHead h
  have hcomplete : s'.Complete workload := (hs.members h).trans hp.complete
  have hlate : ∀ p ∈ s'.processes, n + 1 ≤ releaseOf cfg.quantum workload p := by
    intro p hmem
    have hlt := run_late horder hn hs hmem
    by_contra hle
    have hle' : releaseOf cfg.quantum workload p ≤ n := by omega
    rw [releaseOf_le cfg.quantum_pos, ← htime] at hle'
    omega
  cases hs with
  | @step s1 s2 s3 charged admitted driven hcharge hmore hadmits hsched =>
    have hinv1 := hcharge.invariant h
    have hinv2 := hadmits.invariant hinv1
    obtain ⟨hprocesses, hinput, hfinished, -⟩ := hsched.queues hinv2
    refine ⟨?plan, hlate, ?busy, hcomplete, ?more⟩
    case plan =>
      have hplan1 := hcharge.plan h hp (run_current_pos hn)
      rw [← hcharge.processes] at hplan1
      have hplan2 := hadmits.plan hinv1 (hcharge.clock.2.1.trans htime)
        (hcharge.fresh h (run_fresh n s hn)) hplan1
      have hwork3 := hsched.work hinv2
      have hwork : (s3.tick cfg).work cfg.quantum = s2.work cfg.quantum := hwork3
      rw [hwork, ← hplan2, Nat.add_sub_cancel]
      simp only [State.tick_processes, hprocesses]
    case busy =>
      intro hrun
      obtain ⟨hrun2, hready2, hready3⟩ := hsched.idle_of_running_nil hrun
      have hrun1 : s1.running = [] := hadmits.running ▸ hrun2
      have hnone := hadmits.waiting_none hinv1 ((hcharge.members h).trans hp.complete)
        (fun hb => hcharge.tiled h hb (run_tiled (hpos hb) hb n s hn)) hfits hrun1 hready2
      exact ⟨hinput.trans hnone, hready3⟩
    case more =>
      have hlength := hcomplete.length_eq
      have hnot : s3.finishedQueue.length ≠ workload.length := by
        rw [hfinished, hadmits.finishedQueue]
        cases hcharge with
        | idle | quantum =>
          have := hp.more
          exact this.ne
        | finish =>
          have hne := hmore (by simp [finishEvents])
          exact h.numProcesses ▸ hne
      simp only [State.tick_finishedQueue] at hlength ⊢
      omega

theorem run_paced_within {N : ℕ} (hne : workload ≠ []) (horder : ArrivalOrder workload)
    (hpos : cfg.memStrategy = .bestFit → Positive workload)
    (hfits : cfg.memStrategy = .bestFit → ∀ r ∈ workload, r.memRequirement ≤ memCapacity)
    (hcount : N ≤ 2 ^ 32) (hclock : cfg.clock = .uint32 → cfg.quantum * N < 2 ^ 32) :
    ∀ n s, run cfg workload n = .next s → n ≤ N →
      s.simTime = cfg.quantum * n ∧ Paced cfg workload n s := by
  apply run_invariant
  case h0 => exact fun _ => ⟨rfl, initialState_paced hne⟩
  case hstep =>
    intro n s events s' hn _ _ ih hs hlt
    obtain ⟨htime, hp⟩ := ih (Nat.le_of_succ_le hlt)
    rw [run_entered (lt_of_lt_of_le hlt hcount) hn] at hs
    refine ⟨hs.time (fun h => ?_) htime, hs.paced horder hpos hfits hn htime hp⟩
    exact (Nat.mul_le_mul_left cfg.quantum hlt).trans_lt (hclock h)

/-- A run in the range of its counters does not go on after its makespan. -/
theorem run_within (hne : workload ≠ []) (horder : ArrivalOrder workload)
    (hpos : cfg.memStrategy = .bestFit → Positive workload)
    (hfits : cfg.memStrategy = .bestFit → ∀ r ∈ workload, r.memRequirement ≤ memCapacity)
    (hwrap : NoWrap cfg (makespan cfg.quantum workload)) (hn : run cfg workload n = .next s) :
    n ≤ makespan cfg.quantum workload := by
  by_contra hlt
  obtain ⟨u, hu⟩ := iterate_next_of_le (Nat.succ_le_of_lt (not_le.mp hlt)) hn
  obtain ⟨t, ht, hb⟩ := iterate_succ_eq_next.mp hu
  obtain ⟨htime, hp⟩ := run_paced_within hne horder hpos hfits hwrap.1.le hwrap.2 _ t ht le_rfl
  obtain ⟨events, hs⟩ := cycleBody_next (run_atHead _ t ht) hb
  rw [run_entered hwrap.1 ht] at hs
  have hbound := (hs.paced horder hpos hfits ht htime hp).bound
  omega

theorem run_paced (hne : workload ≠ []) (horder : ArrivalOrder workload)
    (hpos : cfg.memStrategy = .bestFit → Positive workload)
    (hfits : cfg.memStrategy = .bestFit → ∀ r ∈ workload, r.memRequirement ≤ memCapacity)
    (hwrap : NoWrap cfg (makespan cfg.quantum workload)) :
    ∀ n s, run cfg workload n = .next s →
      s.simTime = cfg.quantum * n ∧ Paced cfg workload n s := by
  intro n s hs
  exact run_paced_within hne horder hpos hfits hwrap.1.le hwrap.2 n s hs
    (run_within hne horder hpos hfits hwrap hs)

/-- When the loop is left everybody has finished. -/
theorem run_done_finished (h : run cfg workload n = .done s) :
    s.finishedQueue.Perm (List.range workload.length) ∧ s.processes = [] ∧
      s.work cfg.quantum = 0 := by
  obtain ⟨m, t, events, -, ht, -, hcharge, -, hend⟩ := run_done h
  obtain ⟨hperm, hprocesses, hinput, hready, hrun⟩ :=
    (hcharge.invariant (run_atHead m t ht)).all_finished hend
  exact ⟨hperm, hprocesses, by simp [State.work, hinput, hready, hrun]⟩

/-- At that pace the loop is left in the last pass of the makespan. -/
theorem Paced.last_pass (hn : run cfg workload n = .next s) (hp : Paced cfg workload n s)
    (hdone : run cfg workload (n + 1) = .done s') : n = makespan cfg.quantum workload := by
  obtain ⟨-, hprocesses, hwork⟩ := run_done_finished hdone
  have h := run_atHead n s hn
  obtain ⟨events, -, hcharge, -⟩ := cycleBody_done h ((iterate_succ_of_next hn).symm.trans hdone)
  have hplan := hcharge.plan h hp (run_current_pos hn)
  rwa [← hcharge.processes, hprocesses, hwork, Serial.finish_nil, Nat.add_zero] at hplan

/-- The loop is left after the last quantum of the makespan. -/
theorem run_done_time (hne : workload ≠ []) (horder : ArrivalOrder workload)
    (hpos : cfg.memStrategy = .bestFit → Positive workload)
    (hfits : cfg.memStrategy = .bestFit → ∀ r ∈ workload, r.memRequirement ≤ memCapacity)
    (hwrap : NoWrap cfg (makespan cfg.quantum workload)) (h : run cfg workload n = .done s) :
    s.simTime = cfg.quantum * makespan cfg.quantum workload := by
  obtain ⟨m, t, events, -, ht, hdone, hcharge, -⟩ := run_done h
  obtain ⟨htime, hp⟩ := run_paced hne horder hpos hfits hwrap m t ht
  rw [hcharge.clock.2.1, htime, hp.last_pass ht hdone]

theorem run_reaches_done (hne : workload ≠ []) (horder : ArrivalOrder workload)
    (hpos : cfg.memStrategy = .bestFit → Positive workload)
    (hfits : cfg.memStrategy = .bestFit → ∀ r ∈ workload, r.memRequirement ≤ memCapacity)
    (hwrap : NoWrap cfg (makespan cfg.quantum workload)) (hstarts : Starts cfg workload) :
    ∃ s, run cfg workload (makespan cfg.quantum workload + 1) = .done s := by
  cases hrun : run cfg workload (makespan cfg.quantum workload + 1) with
  | next s =>
    have hbound := run_within hne horder hpos hfits hwrap hrun
    omega
  | done s => exact ⟨s, rfl⟩
  | fault e =>
    have hlt := hwrap.1
    exact absurd hrun (run_never_faults hstarts (by omega) e)

end ProcessManager
