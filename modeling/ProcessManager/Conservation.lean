import ProcessManager.NumCycles
import ProcessManager.Trace

/-! Every loaded process stays in exactly one of five places, and the printed `proc_remaining` is
what the arrivals and finishes so far leave. -/
namespace ProcessManager

open Loop

variable {cfg : Config} {workload : List Record} {s s' : State} {p q : ProcId}
  {events : List Event} {n : ℕ} {trace new : List Entry}

def Event.isArrive : Event → Bool
  | .arrive _ => true
  | _ => false

def Event.isFinished : Event → Bool
  | .finished _ _ => true
  | _ => false

/-- How many processes have entered the input queue. -/
def arrivals (trace : List Entry) : ℕ := trace.countP fun e => e.event.isArrive

def finishes (trace : List Entry) : ℕ := trace.countP fun e => e.event.isFinished

/-- Each FINISHED line reports the arrivals before it less the finishes up to it. -/
def Counted (trace : List Entry) : Prop :=
  ∀ before cycle time p r after, trace = before ++ ⟨cycle, time, .finished p r⟩ :: after →
    r + (finishes before + 1) = arrivals before

@[simp] theorem arrivals_append : arrivals (trace ++ new) = arrivals trace + arrivals new :=
  List.countP_append

@[simp] theorem finishes_append : finishes (trace ++ new) = finishes trace + finishes new :=
  List.countP_append

theorem arrivals_entries (s : State) (events : List Event) :
    arrivals (s.entries events) = events.countP Event.isArrive := by
  simp only [arrivals, State.entries, List.countP_map]
  rfl

theorem finishes_entries (s : State) (events : List Event) :
    finishes (s.entries events) = events.countP Event.isFinished := by
  simp only [finishes, State.entries, List.countP_map]
  rfl

theorem Counted.concat {entry : Entry} (h : Counted trace)
    (hlast : ∀ p r, entry.event = .finished p r → r + (finishes trace + 1) = arrivals trace) :
    Counted (trace ++ [entry]) := by
  intro before cycle time p r after heq
  rcases List.eq_nil_or_concat after with rfl | ⟨rest, last, rfl⟩
  · obtain ⟨rfl, he⟩ := List.append_inj' heq rfl
    obtain rfl := List.singleton_inj.mp he
    exact hlast p r rfl
  · rw [List.concat_eq_append, ← List.cons_append, ← List.append_assoc] at heq
    obtain ⟨hinit, -⟩ := List.append_inj' heq rfl
    exact h before cycle time p r rest hinit

/-- Without a FINISHED line there is nothing new to count. -/
theorem Counted.append (h : Counted trace)
    (hnew : ∀ entry ∈ new, entry.event.isFinished = false) : Counted (trace ++ new) := by
  induction new generalizing trace with
  | nil => simpa using h
  | cons entry new ih =>
    rw [← List.singleton_append, ← List.append_assoc]
    apply ih
    · apply h.concat
      intro p r he
      have hquiet := hnew entry (by simp)
      simp [he, Event.isFinished] at hquiet
    · intro e he
      exact hnew e (List.mem_cons_of_mem _ he)

/-- The counts of the trace against the lengths of the queues. -/
structure Tallied (s : State) : Prop where
  arrivals_eq : arrivals s.trace = s.inputQueue.length + s.readyQueue.items.length +
    s.running.length + s.finishedQueue.length
  finishes_eq : finishes s.trace = s.finishedQueue.length
  counted : Counted s.trace

theorem quiet_counts (hquiet : ∀ e ∈ events, e.isFinished = false) (s : State) :
    finishes (s.entries events) = 0 ∧
      ∀ entry ∈ s.entries events, entry.event.isFinished = false := by
  constructor
  · rw [finishes_entries, List.countP_eq_zero]
    intro e he
    simp [hquiet e he]
  · intro entry he
    obtain ⟨e, hmem, rfl⟩ := List.mem_map.mp he
    exact hquiet e hmem

theorem Charge.tallied (h : AtHead cfg workload s) (ht : Tallied s)
    (hc : Charge cfg s events s') : Tallied s' := by
  cases hc with
  | idle => exact ht
  | quantum => exact ⟨ht.arrivals_eq, ht.finishes_eq, ht.counted⟩
  | @finish p store hcur _ _ =>
    have hrun := h.running_some hcur
    have hsize := h.ready.size_eq
    have harr := ht.arrivals_eq
    have hfin := ht.finishes_eq
    rw [hrun] at harr
    have hcounted : Counted (s.trace ++ s.entries (finishEvents s p)) := by
      have hsplit : s.entries (finishEvents s p) =
          [⟨s.passes, s.simTime, .finished p (s.inputQueue.length + s.readyQueue.size)⟩] ++
            [⟨s.passes, s.simTime, .term p⟩] := rfl
      rw [hsplit, ← List.append_assoc]
      refine (ht.counted.concat ?_).append (by simp [Event.isFinished])
      intro p' r he
      obtain ⟨rfl, rfl⟩ := Event.finished.inj he
      rw [hsize, harr, hfin, List.length_singleton]
      omega
    constructor
    case arrivals_eq =>
      change arrivals (s.trace ++ s.entries _) = _ + _ + 0 + (s.finishedQueue ++ [p]).length
      rw [arrivals_append, harr, arrivals_entries]
      simp [finishEvents, Event.isArrive]
      omega
    case finishes_eq =>
      change finishes (s.trace ++ s.entries _) = (s.finishedQueue ++ [p]).length
      rw [finishes_append, hfin, finishes_entries, List.length_append]
      rfl
    case counted => exact hcounted

theorem Admit.tallied (h : Invariant cfg workload s) (ht : Tallied s)
    (ha : Admit cfg s events s') : Tallied s' := by
  have hrun := ha.running
  have hclock := ha.clock.2.2
  have hquiet : ∀ e ∈ events, e.isFinished = false := by
    intro e he
    rcases ha.event_cases he with ⟨_, -, rfl⟩ | ⟨_, _, rfl⟩ | ⟨_, _, rfl⟩ <;> rfl
  obtain ⟨hzero, hentries⟩ := quiet_counts hquiet s
  cases ha with
  | @ofPass pass taken left hpass =>
    obtain ⟨-, hready, -⟩ := hpass.ready h.ready
    obtain ⟨new, hnew, hall⟩ := hpass.events
    rw [List.nil_append] at hnew
    have harrive : (s.arrived.map Event.arrive ++ pass.events).countP Event.isArrive =
        s.arrived.length := by
      have hnone : pass.events.countP Event.isArrive = 0 := by
        rw [List.countP_eq_zero]
        intro e he
        rcases hall e (hnew ▸ he) with ⟨_, _, rfl⟩ | ⟨_, _, rfl⟩ <;> simp [Event.isArrive]
      have hevery : ∀ e ∈ s.arrived.map Event.arrive, e.isArrive = true := by
        simp [Event.isArrive]
      rw [List.countP_append, hnone, List.countP_eq_length.mpr hevery, List.length_map]
      rfl
    have hin := hpass.perm.length_eq
    have hout := hready.length_eq
    simp only [List.length_append] at hin hout
    constructor
    case arrivals_eq =>
      rw [hclock, hrun, arrivals_append, ht.arrivals_eq, arrivals_entries, harrive]
      simp only [State.emit_inputQueue, State.emit_readyQueue, State.emit_finishedQueue]
      omega
    case finishes_eq =>
      rw [hclock, finishes_append, hzero, ht.finishes_eq]
      rfl
    case counted =>
      rw [hclock]
      exact ht.counted.append hentries

/-- Scheduling neither admits nor finishes a process. -/
theorem Schedule.quiet (hs : Schedule cfg s events s') :
    ∀ e ∈ events, e.isArrive = false ∧ e.isFinished = false := by
  intro e he
  rcases hs.event_cases he with ⟨_, rfl⟩ | ⟨_, rfl⟩ | ⟨_, _, rfl⟩ | ⟨-, ⟨_, _, rfl⟩ | ⟨_, rfl⟩⟩ <;>
    exact ⟨rfl, rfl⟩

theorem Schedule.tallied (h : Invariant cfg workload s) (ht : Tallied s)
    (hs : Schedule cfg s events s') : Tallied s' := by
  obtain ⟨-, hinput, hfinished, hperm⟩ := hs.queues h
  have hquiet := hs.quiet
  have hclock := hs.clock.2.2
  obtain ⟨hzero, hentries⟩ := quiet_counts (fun e he => (hquiet e he).2) s
  have hnone : arrivals (s.entries events) = 0 := by
    rw [arrivals_entries, List.countP_eq_zero]
    intro e he
    simp [(hquiet e he).1]
  have hlength := hperm.length_eq
  simp only [List.length_append] at hlength
  constructor
  case arrivals_eq =>
    rw [hclock, arrivals_append, hnone, ht.arrivals_eq, hinput, hfinished]
    omega
  case finishes_eq => rw [hclock, finishes_append, hzero, ht.finishes_eq, hfinished,
    Nat.add_zero]
  case counted =>
    rw [hclock]
    exact ht.counted.append hentries

theorem Tallied.entered (ht : Tallied s) (h : AtHead cfg workload s)
    (hspared : s.numCycles = 0 → s.currentProcess = none) : Tallied (s.entered cfg) := by
  obtain ⟨hready, hrun⟩ := h.spared hspared
  constructor
  case arrivals_eq => simpa [hready, hrun] using ht.arrivals_eq
  case finishes_eq => simpa using ht.finishes_eq
  case counted => simpa using ht.counted

theorem run_tallied (hno : Undropped cfg workload n)
    (h : (run cfg workload n).state? = some s) : Tallied s := by
  have hnext : ∀ m s, run cfg workload m = .next s → m ≤ n → Tallied s := by
    apply run_invariant
    case h0 =>
      intro _
      refine ⟨by simp [initialState, arrivals, State.running],
        by simp [initialState, finishes], ?_⟩
      intro before cycle time p r after heq
      simp [initialState] at heq
    case hstep =>
      intro m s events s' hm _ hhead ht hs hlt
      have hentered := (ht (Nat.le_of_succ_le hlt)).entered hhead (hno m hlt s hm)
      cases hs with
      | step hc _ ha hsched =>
        have hinv := hc.invariant hhead.entered
        have hlast := hsched.tallied (ha.invariant hinv)
          (ha.tallied hinv (hc.tallied hhead.entered hentered))
        exact ⟨hlast.arrivals_eq, hlast.finishes_eq, hlast.counted⟩
  rcases run_state_cases h with hrun | ⟨m, t, events, hmn, ht, -, hcharge, -⟩
  · exact hnext n s hrun le_rfl
  · exact hcharge.tallied (run_atHead m t ht) (hnext m t ht hmn.le)

/-- No process is lost or duplicated, and the number on every FINISHED line is right. -/
structure State.Conserves (workload : List Record) (s : State) : Prop where
  places : (s.processes ++ s.inputQueue ++ s.readyQueue.items ++ s.running ++
    s.finishedQueue).Perm (List.range workload.length)
  remaining : ∀ before cycle time p procRemaining after,
    s.trace = before ++ ⟨cycle, time, .finished p procRemaining⟩ :: after →
    procRemaining = arrivals before - (finishes before + 1) ∧
      finishes before + 1 ≤ arrivals before

theorem run_conserves (hno : Undropped cfg workload n)
    (h : (run cfg workload n).state? = some s) : s.Conserves workload := by
  constructor
  · simp only [List.append_assoc]
    exact run_complete hno h
  · intro before cycle time p r after heq
    have hcount := (run_tallied hno h).counted before cycle time p r after heq
    omega

theorem run_loses (hs : run cfg workload n = .next s) (h0 : s.numCycles = 0)
    (hcur : s.currentProcess = some p) :
    ∃ s', (run cfg workload (n + 1)).state? = some s' ∧ ¬ s'.Conserves workload := by
  obtain ⟨hp, s', hs', hout, -⟩ := run_dropped_current hs h0 hcur
  refine ⟨s', by rw [hs']; rfl, fun hconserves => hout ?_⟩
  simpa [State.members] using hconserves.places.mem_iff.mpr (List.mem_range.mpr hp)

/-- What the first `n` passes reach conserves the processes exactly when none of these passes finds
`num_cycles` 0 with a process running. -/
theorem processes_conserved (cfg : Config) (workload : List Record) (n : ℕ) :
    (∀ m ≤ n, ∀ s, (run cfg workload m).state? = some s → s.Conserves workload) ↔
      Undropped cfg workload n := by
  constructor
  · intro hall m hm s hs h0
    by_contra hne
    obtain ⟨p, hcur⟩ := Option.ne_none_iff_exists'.mp hne
    obtain ⟨s', hs', hnot⟩ := run_loses hs h0 hcur
    exact hnot (hall (m + 1) hm s' hs')
  · intro hno m hm s hs
    exact run_conserves (hno.mono hm) hs

/-- Two jobs under RR: after three passes one has finished and one runs. -/
theorem processes_conserved_twoJobs : ∃ s : State,
    (run (sampleConfig .rr .infinite) twoJobs 3).state? = some s ∧ s.finishedQueue = [1] ∧
    (s.processes ++ s.inputQueue ++ s.readyQueue.items ++ s.running ++ s.finishedQueue).Perm
      (List.range 2) := by
  have hrun : ∃ s : State, (run (sampleConfig .rr .infinite) twoJobs 3).state? = some s ∧
      s.finishedQueue = [1] := ⟨_, rfl, rfl⟩
  obtain ⟨s, hs, hfinished⟩ := hrun
  have hconserves := (processes_conserved (sampleConfig .rr .infinite) twoJobs 3).mpr
    (undropped_of_le (by omega)) 3 le_rfl s hs
  exact ⟨s, hs, hfinished, hconserves.places⟩

/-- The job that runs when `num_cycles` is 0 again is in none of the five places after the pass. -/
theorem late_job_lost : ¬ ∀ n s,
    (run (unitConfig .sjf .infinite .uint32) lateJobs n).state? = some s →
      s.Conserves lateJobs := by
  intro hall
  obtain ⟨s, hs, h0, hcur⟩ := lateJobs_running .infinite .uint32
  obtain ⟨s', hs', hnot⟩ := run_loses hs h0 hcur
  exact hnot (hall (2 ^ 32 + 1) s' hs')

end ProcessManager
