import ProcessManager.Makespan
import ProcessManager.Trace
import ProcessManager.Signals

/-! Every real process is started once, driven only while it runs or is stopped, and terminated
while it runs, and no two of them run at once. -/
namespace ProcessManager

open Loop Machines

variable {cfg : Config} {workload : List Record} {s s' : State} {p q : ProcId}
  {events : List Event} {n : ℕ} {trace new : List Entry}

def Event.operation? : Event → Option (ProcId × Operation)
  | .start p => some (p, .start)
  | .cont p => some (p, .cont)
  | .stop p => some (p, .stop)
  | .term p => some (p, .term)
  | _ => none

/-- The operations among some events, each with its process. -/
def operations (events : List Event) : List (ProcId × Operation) :=
  events.filterMap Event.operation?

/-- The operations issued to a process, each with the time that is sent. -/
def operationsOn (p : ProcId) (trace : List Entry) : List (Operation × ℕ) :=
  trace.filterMap fun entry =>
    match entry.event.operation? with
    | some (q, op) => if q = p then some (op, entry.simTime) else none
    | none => none

/-- The operations after which a process has the processor for a quantum. -/
def Operation.grants : Operation → Bool
  | .start => true
  | .cont => true
  | _ => false

/-- A process that was started and is neither stopped nor terminated. -/
def Driven (p : ProcId) (trace : List Entry) : Prop :=
  ((operationsOn p trace).map Prod.fst).getLast? = some .start ∨
    ((operationsOn p trace).map Prod.fst).getLast? = some .cont

theorem operations_append (l r : List Event) :
    operations (l ++ r) = operations l ++ operations r := List.filterMap_append

theorem operationsOn_append (p : ProcId) (trace new : List Entry) :
    operationsOn p (trace ++ new) = operationsOn p trace ++ operationsOn p new :=
  List.filterMap_append

theorem operationsOn_fst (p : ProcId) (trace : List Entry) :
    (operationsOn p trace).map Prod.fst = wordOf p (operations (trace.map Entry.event)) := by
  induction trace with
  | nil => rfl
  | cons entry trace ih =>
    have hcons : operationsOn p (entry :: trace) =
        operationsOn p [entry] ++ operationsOn p trace := operationsOn_append p [entry] trace
    have hevents : operations ((entry :: trace).map Entry.event) =
        operations [entry.event] ++ operations (trace.map Entry.event) :=
      operations_append [entry.event] _
    have hentry : (operationsOn p [entry]).map Prod.fst = wordOf p (operations [entry.event]) := by
      cases hop : entry.event.operation? with
      | none => simp [operationsOn, operations, wordOf, hop]
      | some x =>
        by_cases hp : x.1 = p <;> simp [operationsOn, operations, wordOf, hop, hp]
    rw [hcons, hevents, wordOf_append, List.map_append, hentry, ih]

theorem entries_event (s : State) (events : List Event) :
    (s.entries events).map Entry.event = events := by
  simp [State.entries, Function.comp_def]

theorem operationsOn_entries_fst (p : ProcId) (s : State) (events : List Event) :
    (operationsOn p (s.entries events)).map Prod.fst = wordOf p (operations events) := by
  rw [operationsOn_fst, entries_event]

theorem operations_none (h : ∀ e ∈ events, e.operation? = none) : operations events = [] :=
  List.filterMap_eq_nil_iff.mpr h

theorem Admit.operations (ha : Admit cfg s events s') : operations events = [] := by
  apply operations_none
  intro e he
  rcases ha.event_cases he with ⟨_, -, rfl⟩ | ⟨_, _, rfl⟩ | ⟨_, _, rfl⟩ <;> rfl

theorem operations_dispatchEvents (procs : ProcTable) (p : ProcId) :
    operations (dispatchEvents procs p) =
      [(p, if (procs p).pid = 0 then .start else .cont)] := by
  unfold dispatchEvents
  split <;> rfl

/-- What the manager's data say about the real process. -/
def State.phaseOf (s : State) (p : ProcId) : Phase :=
  if p ∈ s.finishedQueue then .ended
  else if p ∈ s.running then .running
  else if (s.procs p).pid = 0 then .fresh
  else .stopped

/-- Who runs was started. -/
def State.Started (s : State) : Prop := ∀ p ∈ s.running, (s.procs p).pid ≠ 0

theorem Invariant.phaseOf_running (h : Invariant cfg workload s) (hp : p ∈ s.running) :
    s.phaseOf p = .running := by
  obtain ⟨-, -, -, hfinished⟩ := h.running_elsewhere hp
  simp [State.phaseOf, hfinished, hp]

theorem phaseOf_running_mem (h : s.phaseOf p = .running) : p ∈ s.running := by
  unfold State.phaseOf at h
  split_ifs at h with _ hrun
  exact hrun

theorem Invariant.phaseOf_ready (h : Invariant cfg workload s) (hp : p ∈ s.readyQueue.items) :
    s.phaseOf p = if (s.procs p).pid = 0 then .fresh else .stopped := by
  obtain ⟨-, -, hrun, hfinished⟩ := h.ready_elsewhere hp
  simp [State.phaseOf, hfinished, hrun]

theorem phaseOf_other (hfinished : q ∈ s'.finishedQueue ↔ q ∈ s.finishedQueue)
    (hrun : q ∈ s'.running ↔ q ∈ s.running) (hpid : (s'.procs q).pid = (s.procs q).pid) :
    s'.phaseOf q = s.phaseOf q := by
  simp only [State.phaseOf, hfinished, hrun, hpid]

theorem phaseOf_congr (hfinished : s'.finishedQueue = s.finishedQueue)
    (hrun : s'.running = s.running) (hpid : ∀ q, (s'.procs q).pid = (s.procs q).pid) :
    s'.phaseOf = s.phaseOf :=
  funext fun q => phaseOf_other (by rw [hfinished]) (by rw [hrun]) (hpid q)

theorem dispatchedProcs_pid_self (cfg : Config) (procs : ProcTable) (p : ProcId) :
    (dispatchedProcs cfg procs p p).pid ≠ 0 := by
  by_cases hpid : (procs p).pid = 0
  · simp [dispatchedProcs, hpid]
  · simp [dispatchedProcs, hpid]

theorem dispatchedProcs_other (cfg : Config) (procs : ProcTable) (hq : q ≠ p) :
    dispatchedProcs cfg procs p q = procs q := by
  simp [dispatchedProcs, hq]

theorem Charge.pid (hc : Charge cfg s events s') (q : ProcId) :
    (s'.procs q).pid = (s.procs q).pid := by
  cases hc with
  | idle => rfl
  | quantum => exact update_field Process.pid (by rfl) q
  | @finish p store hcur hleft hfree =>
    have hretired : (finishedProcs cfg s.simTime s.procs p q).pid = (s.procs q).pid :=
      update_field Process.pid (by rfl) q
    simp only [State.procs_emit, State.procs_mk, deallocateMemory_procs hfree]
    split
    · exact (update_field Process.pid (by rfl) q).trans hretired
    · exact hretired

theorem Admit.pid (h : Invariant cfg workload s) (ha : Admit cfg s events s') (q : ProcId) :
    (s'.procs q).pid = (s.procs q).pid := by
  cases ha with
  | @ofPass pass taken left hpass =>
    by_cases hq : q ∈ taken
    · obtain ⟨b, hb, -, -⟩ := hpass.procs_taken h.waiting_nodup hq
      simp [hb]
    · simp [hpass.procs_other hq]

theorem Charge.started (h : s.Started) (hc : Charge cfg s events s') : s'.Started := by
  intro p hp
  rw [hc.pid]
  cases hc with
  | idle => exact h p hp
  | quantum => exact h p hp
  | finish => simp [State.running] at hp

theorem Admit.started (hi : Invariant cfg workload s) (h : s.Started)
    (ha : Admit cfg s events s') : s'.Started := by
  intro p hp
  rw [ha.pid hi]
  exact h p (ha.running ▸ hp)

theorem Schedule.started (h : s.Started) (hs : Schedule cfg s events s') : s'.Started := by
  cases hs with
  | idle => simp [State.Started, State.running]
  | resume => exact h
  | dispatch | preempt =>
    intro q hq
    obtain rfl := List.mem_singleton.mp hq
    exact dispatchedProcs_pid_self cfg _ _

theorem Charge.runs (h : AtHead cfg workload s) (hc : Charge cfg s events s') :
    Runs Phase.next (· = .running) s.phaseOf (operations events) s'.phaseOf := by
  have hpid := hc.pid
  cases hc with
  | idle => exact .nil _
  | quantum =>
    rw [phaseOf_congr (by rfl) (by rfl) hpid]
    exact .nil _
  | @finish p store hcur _ _ =>
    have hrun := h.running_some hcur
    have hrunning := h.phaseOf_running (p := p) (by simp [hrun])
    refine .single (by rw [hrunning]; rfl) (by simp) ?_
    funext q
    by_cases hq : q = p
    · subst hq
      simp [State.phaseOf]
    · rw [Function.update_of_ne hq]
      simp only [State.phaseOf, hpid, hrun]
      simp [State.running, hq]

theorem Admit.phaseOf (h : Invariant cfg workload s) (ha : Admit cfg s events s') :
    s'.phaseOf = s.phaseOf := phaseOf_congr ha.finishedQueue ha.running (ha.pid h)

/-- The phases once who runs is stopped. -/
def State.pausedPhase (s : State) (q : ProcId) : Phase :=
  if q ∈ s.running then .stopped else s.phaseOf q

theorem pausedPhase_idle (h : s.running = []) : s.pausedPhase = s.phaseOf := by
  funext q
  simp [State.pausedPhase, h]

theorem pausedPhase_running (h : s.running = [p]) :
    s.pausedPhase = Function.update s.phaseOf p .stopped := by
  funext q
  by_cases hq : q = p
  · subst hq
    simp [State.pausedPhase, h]
  · simp [State.pausedPhase, h, hq]

/-- The process that is dispatched is the only one that is driven then. -/
theorem Invariant.dispatch_runs (h : Invariant cfg workload s) (hstarted : s.Started)
    (hp : p ∈ s.readyQueue.items) (hfinished : s'.finishedQueue = s.finishedQueue)
    (hrun : s'.running = [p]) (hprocs : s'.procs = dispatchedProcs cfg s.procs p) :
    Runs Phase.next (· = .running) s.pausedPhase (operations (dispatchEvents s.procs p))
      s'.phaseOf := by
  obtain ⟨-, -, hidle, hlive⟩ := h.ready_elsewhere hp
  rw [operations_dispatchEvents]
  refine .single (g := .running) ?_ ?_ ?_
  · rw [State.pausedPhase, if_neg hidle, h.phaseOf_ready hp]
    split <;> rfl
  · intro _ q _ hbusy
    by_cases hq : q ∈ s.running
    · simp [State.pausedPhase, hq] at hbusy
    · rw [State.pausedPhase, if_neg hq] at hbusy
      exact hq (phaseOf_running_mem hbusy)
  · funext q
    by_cases hq : q = p
    · subst hq
      simp [State.phaseOf, hfinished, hrun, hlive]
    · have hpid : (s'.procs q).pid = (s.procs q).pid := by
        rw [hprocs, dispatchedProcs_other cfg _ hq]
      rw [Function.update_of_ne hq]
      by_cases hran : q ∈ s.running
      · obtain ⟨-, -, -, hunfinished⟩ := h.running_elsewhere hran
        have hstart := hstarted q hran
        simp [State.pausedPhase, State.phaseOf, hran, hfinished, hrun, hq, hunfinished, hpid,
          hstart]
      · rw [State.pausedPhase, if_neg hran]
        exact phaseOf_other (by rw [hfinished]) (by simp [hrun, hq, hran]) hpid

theorem Schedule.runs (h : Invariant cfg workload s) (hstarted : s.Started)
    (hs : Schedule cfg s events s') :
    Runs Phase.next (· = .running) s.phaseOf (operations events) s'.phaseOf := by
  cases hs with
  | idle hrun =>
    have hnone : State.running { s with currentProcess := none } = [] := by simp [State.running]
    have hsame : State.phaseOf { s with currentProcess := none } = s.phaseOf :=
      phaseOf_congr rfl (hnone.trans hrun.symm) fun _ => rfl
    rw [hsame]
    exact .nil _
  | @resume p hrun =>
    have hrunning := h.phaseOf_running (p := p) (by simp [hrun])
    refine .single (by rw [hrunning]; rfl) ?_ ?_
    · intro _ j hj hbusy
      have hmem := phaseOf_running_mem hbusy
      simp [hrun, hj] at hmem
    · rw [← hrunning, Function.update_eq_self]
      rfl
  | @dispatch p ready hrun hnext =>
    obtain ⟨-, hperm, -⟩ := h.ready.extract_ok hnext
    have hp : p ∈ s.readyQueue.items := hperm.mem_iff.mpr List.mem_cons_self
    rw [← pausedPhase_idle hrun]
    exact h.dispatch_runs hstarted hp rfl rfl rfl
  | @preempt p r queue ready hrr hrun hne hput hnext =>
    obtain ⟨others, hready, -⟩ := h.ready.preempt_ok hrr hne hput hnext
    have hr : r ∈ s.readyQueue.items := by simp [hready]
    have hstop : Phase.next (s.phaseOf p) .stop = some .stopped := by
      rw [h.phaseOf_running (p := p) (by simp [hrun])]
      rfl
    change Runs _ _ _ ((p, .stop) :: operations (dispatchEvents s.procs r)) _
    refine .cons hstop (by simp) ?_
    rw [← pausedPhase_running hrun]
    exact h.dispatch_runs hstarted hr rfl rfl rfl

theorem initialState_phaseOf (cfg : Config) (workload : List Record) :
    (initialState cfg workload).phaseOf = fun _ => .fresh := by
  funext p
  simp [State.phaseOf, initialState, State.running, State.procs, initialiseMemory, loadedProcs,
    createProcess]

/-- The operations so far lead from the start to what the manager's data say. -/
structure Obeyed (s : State) : Prop where
  started : s.Started
  runs : Runs Phase.next (· = .running) (fun _ => .fresh)
    (operations (s.trace.map Entry.event)) s.phaseOf

theorem operations_entries (s : State) (events : List Event) :
    operations ((s.trace ++ s.entries events).map Entry.event) =
      operations (s.trace.map Entry.event) ++ operations events := by
  rw [List.map_append, operations_append, entries_event]

theorem Charge.obeyed (h : AtHead cfg workload s) (ho : Obeyed s)
    (hc : Charge cfg s events s') : Obeyed s' := by
  refine ⟨hc.started ho.started, ?_⟩
  rw [hc.clock.2.2, operations_entries]
  exact ho.runs.append (hc.runs h)

theorem Admit.obeyed (h : Invariant cfg workload s) (ho : Obeyed s)
    (ha : Admit cfg s events s') : Obeyed s' := by
  refine ⟨ha.started h ho.started, ?_⟩
  rw [ha.clock.2.2, operations_entries, ha.operations, List.append_nil, ha.phaseOf h]
  exact ho.runs

theorem Schedule.obeyed (h : Invariant cfg workload s) (ho : Obeyed s)
    (hs : Schedule cfg s events s') : Obeyed s' := by
  refine ⟨hs.started ho.started, ?_⟩
  rw [hs.clock.2.2, operations_entries]
  exact ho.runs.append (hs.runs h ho.started)

/-- A pass that drops nobody starts from what the manager's data said before. -/
theorem Obeyed.entered (ho : Obeyed s) (h : AtHead cfg workload s)
    (hspared : s.numCycles = 0 → s.currentProcess = none) : Obeyed (s.entered cfg) := by
  have hrun := (h.spared hspared).2
  constructor
  · intro p hp
    rw [hrun] at hp
    rw [State.procs_entered]
    exact ho.started p hp
  · rw [State.trace_entered, phaseOf_congr (s.finishedQueue_entered cfg) hrun fun _ => by simp]
    exact ho.runs

theorem run_obeyed (hno : Undropped cfg workload n) (h : (run cfg workload n).state? = some s) :
    Obeyed s := by
  have hnext : ∀ m s, run cfg workload m = .next s → m ≤ n → Obeyed s := by
    apply run_invariant
    case h0 =>
      refine fun _ => ⟨by simp [State.Started, initialState, State.running], ?_⟩
      rw [initialState_phaseOf]
      exact .nil _
    case hstep =>
      intro m s events s' hm _ hhead ih hs hlt
      have ho := (ih (Nat.le_of_succ_le hlt)).entered hhead (hno m hlt s hm)
      cases hs with
      | step hcharge _ hadmits hsched =>
        have hinv := hcharge.invariant hhead.entered
        have hlast := hsched.obeyed (hadmits.invariant hinv)
          (hadmits.obeyed hinv (hcharge.obeyed hhead.entered ho))
        exact ⟨hlast.started, hlast.runs⟩
  rcases run_state_cases h with hrun | ⟨m, t, events, hmn, ht, -, hcharge, -⟩
  · exact hnext n s hrun le_rfl
  · exact hcharge.obeyed (run_atHead m t ht) (hnext m t ht hmn.le)

/-- Up to every moment of the run the words are in order and at most one process is driven. -/
theorem Obeyed.moment {moment : List Entry} (h : Obeyed s) (hm : moment <+: s.trace) :
    (∀ p, ∃ word ∈ discipline, (operationsOn p moment).map Prod.fst <+: word) ∧
      ∀ p q, Driven p moment → Driven q moment → p = q := by
  obtain ⟨rest, hrest⟩ := hm
  have hruns := h.runs
  rw [← hrest, List.map_append, operations_append] at hruns
  obtain ⟨phase, hmoment, -⟩ := hruns.split
  have hword : ∀ p, after Phase.next .fresh ((operationsOn p moment).map Prod.fst) =
      some (phase p) := by
    intro p
    rw [operationsOn_fst]
    exact hmoment.after p
  have hdriven : ∀ p, Driven p moment → phase p = .running := by
    intro p hp
    have hsome := hword p
    rw [(after_running_iff (by rw [hsome]; rfl)).mpr hp] at hsome
    exact (Option.some.inj hsome).symm
  constructor
  · intro p
    exact prefix_discipline_iff.mpr (by rw [hword p]; rfl)
  · intro p q hp hq
    exact hmoment.one_busy (by simp) p q (hdriven p hp) (hdriven q hq)

/-- In one pass no process is operated on twice: who is terminated is not scheduled. -/
theorem Charge.operations_finished (hc : Charge cfg s events s') :
    ((operations events).map Prod.fst).Nodup ∧
      ∀ p ∈ (operations events).map Prod.fst, p ∈ s'.finishedQueue := by
  cases hc with
  | idle => simp [operations]
  | quantum => simp [operations]
  | @finish p store =>
    have hops : operations (finishEvents s p) = [(p, .term)] := rfl
    simp [hops]

theorem Schedule.operations_live (h : Invariant cfg workload s) (hs : Schedule cfg s events s') :
    ((operations events).map Prod.fst).Nodup ∧
      ∀ p ∈ (operations events).map Prod.fst, p ∉ s.finishedQueue := by
  cases hs with
  | idle => simp [operations]
  | @resume p hrun =>
    obtain ⟨-, -, -, hp⟩ := h.running_elsewhere (p := p) (by simp [hrun])
    simp [operations, Event.operation?, hp]
  | @dispatch p ready hrun hnext =>
    obtain ⟨-, hperm, -⟩ := h.ready.extract_ok hnext
    obtain ⟨-, -, -, hp⟩ := h.ready_elsewhere (p := p) (hperm.mem_iff.mpr List.mem_cons_self)
    simp [operations_dispatchEvents, hp]
  | @preempt p r queue ready hrr hrun hne hput hnext =>
    obtain ⟨others, hready, -⟩ := h.ready.preempt_ok hrr hne hput hnext
    obtain ⟨-, -, hnotin, hp⟩ := h.running_elsewhere (p := p) (by simp [hrun])
    obtain ⟨-, -, -, hr⟩ := h.ready_elsewhere (p := r) (by simp [hready])
    have hpr : p ≠ r := by
      rintro rfl
      simp [hready] at hnotin
    have hops : operations (.insert p s.readyQueue.items :: .stop p :: dispatchEvents s.procs r) =
        (p, .stop) :: operations (dispatchEvents s.procs r) := rfl
    simp [hops, operations_dispatchEvents, hpr, hp, hr]

theorem Step.operations_nodup (h : AtHead cfg workload s) (hs : Step cfg s events s') :
    ((operations events).map Prod.fst).Nodup := by
  cases hs with
  | @step s1 s2 s3 charged admitted driven hcharge _ hadmits hsched =>
    obtain ⟨hleft, hfinished⟩ := hcharge.operations_finished
    obtain ⟨hright, hlive⟩ := hsched.operations_live (hadmits.invariant (hcharge.invariant h))
    rw [operations_append, operations_append, hadmits.operations, List.append_nil,
      List.map_append, List.nodup_append]
    refine ⟨hleft, hright, ?_⟩
    rintro p hp q hq rfl
    exact hlive p hq (hadmits.finishedQueue ▸ hfinished p hp)

/-- The times on the operations of a process, each from an earlier pass than the next. -/
theorem increasing_append (hold : ((operationsOn p s.trace).map Prod.snd).Pairwise (· < ·))
    (hpast : ∀ entry ∈ s.trace, entry.simTime < s.simTime)
    (hnew : ((operations events).map Prod.fst).Nodup) :
    ((operationsOn p (s.trace ++ s.entries events)).map Prod.snd).Pairwise (· < ·) := by
  rw [operationsOn_append, List.map_append, List.pairwise_append]
  refine ⟨hold, ?_, ?_⟩
  · have hlength : ((operationsOn p (s.entries events)).map Prod.snd).length ≤ 1 := by
      rw [List.length_map, ← List.length_map Prod.fst, operationsOn_entries_fst]
      exact wordOf_length_le hnew p
    generalize (operationsOn p (s.entries events)).map Prod.snd = times at hlength
    cases times with
    | nil => exact .nil
    | cons time times =>
      obtain rfl : times = [] := by simpa using hlength
      exact List.pairwise_singleton _ _
  · have htimes : ∀ {trace : List Entry} {time : ℕ},
        time ∈ (operationsOn p trace).map Prod.snd → ∃ entry ∈ trace, entry.simTime = time := by
      intro trace time hmem
      obtain ⟨x, hx, rfl⟩ := List.mem_map.mp hmem
      obtain ⟨entry, hentry, heq⟩ := List.mem_filterMap.mp hx
      refine ⟨entry, hentry, ?_⟩
      split at heq
      · split at heq
        · cases heq
          rfl
        · cases heq
      · cases heq
    intro a ha b hb
    obtain ⟨x, hx, rfl⟩ := htimes ha
    obtain ⟨y, hy, rfl⟩ := htimes hb
    obtain ⟨e, -, rfl⟩ := List.mem_map.mp hy
    exact hpast x hx

/-- The clock is ahead of everything in the trace. -/
theorem run_past (hwrap : NoWrap cfg n) (hn : run cfg workload n = .next s) :
    ∀ entry ∈ s.trace, entry.simTime < s.simTime := by
  intro entry hentry
  obtain ⟨hlt, t, events, t', ht, -, -, htime⟩ := run_fromPass_next n s hn entry hentry
  rw [htime, run_time n s hn hwrap, run_time _ t ht (hwrap.mono hlt.le)]
  exact Nat.mul_lt_mul_of_pos_left hlt cfg.quantum_pos

theorem run_increasing_next (p : ProcId) : ∀ n s, run cfg workload n = .next s →
    (∀ m t, m < n → run cfg workload m = .next t → NoWrap cfg m) →
      ((operationsOn p s.trace).map Prod.snd).Pairwise (· < ·) := by
  apply run_invariant
  case h0 =>
    intro _
    exact .nil
  case hstep =>
    intro n s events s' hn _ h ih hs hwrap
    have hlast := hwrap n s (Nat.lt_succ_self n) hn
    rw [hs.trace]
    exact increasing_append (ih fun m t hm => hwrap m t (Nat.lt_succ_of_lt hm))
      (run_past hlast hn) (hs.operations_nodup h.entered)

theorem run_increasing (p : ProcId) (h : (run cfg workload n).state? = some s)
    (hwrap : ∀ m t, m < n → run cfg workload m = .next t → NoWrap cfg m) :
    ((operationsOn p s.trace).map Prod.snd).Pairwise (· < ·) := by
  rcases run_state_cases h with hrun | ⟨m, t, events, hmn, ht, -, hcharge, -⟩
  · exact run_increasing_next p n s hrun hwrap
  · rw [hcharge.clock.2.2]
    exact increasing_append
      (run_increasing_next p m t ht fun k u hk => hwrap k u (hk.trans hmn))
      (run_past (hwrap m t hmn ht) ht) hcharge.operations_finished.1

/-- How many quanta were granted to a process. -/
def grants (p : ProcId) (trace : List Entry) : ℕ :=
  (operationsOn p trace).countP fun x => x.1.grants

theorem grants_append (p : ProcId) (trace new : List Entry) :
    grants p (trace ++ new) = grants p trace + grants p new := by
  rw [grants, operationsOn_append, List.countP_append]
  rfl

theorem grants_entries (p : ProcId) (s : State) (events : List Event) :
    grants p (s.entries events) = (wordOf p (operations events)).countP Operation.grants := by
  rw [← operationsOn_entries_fst p s, List.countP_map]
  rfl

theorem Charge.grants (hc : Charge cfg s events s') (p : ProcId) :
    grants p (s.entries events) = 0 := by
  rw [grants_entries]
  cases hc with
  | idle => rfl
  | quantum => rfl
  | @finish q store hcur _ _ =>
    by_cases hq : q = p <;>
      simp [operations, finishEvents, Event.operation?, wordOf, hq, Operation.grants]

theorem Admit.grants (ha : Admit cfg s events s') (p : ProcId) :
    grants p (s.entries events) = 0 := by
  rw [grants_entries, ha.operations]
  rfl

/-- Scheduling grants a quantum to who is current afterwards, and to nobody else. -/
theorem Schedule.grants (hs : Schedule cfg s events s') (p : ProcId) :
    grants p (s.entries events) = if s'.currentProcess = some p then 1 else 0 := by
  rw [grants_entries]
  have hdispatch : ∀ (procs : ProcTable) (q : ProcId),
      (wordOf p (operations (dispatchEvents procs q))).countP Operation.grants =
        if q = p then 1 else 0 := by
    intro procs q
    rw [operations_dispatchEvents]
    by_cases hq : q = p
    · subst hq
      by_cases hpid : (procs q).pid = 0 <;> simp [wordOf, hpid, Operation.grants]
    · simp [wordOf, hq]
  cases hs with
  | idle => rfl
  | @resume q hrun =>
    have hcur : s.currentProcess = some q := by
      cases hflag : s.noProcessRunning with
      | true => simp [State.running, hflag] at hrun
      | false =>
        cases hcur : s.currentProcess with
        | none => simp [State.running, hcur] at hrun
        | some r => simpa [State.running, hflag, hcur] using hrun
    by_cases hq : q = p <;>
      simp [operations, Event.operation?, wordOf, hq, hcur, Operation.grants]
  | dispatch =>
    rw [hdispatch]
    simp
  | @preempt o r queue ready =>
    have hops : operations (.insert o s.readyQueue.items :: .stop o :: dispatchEvents s.procs r) =
        [(o, .stop)] ++ operations (dispatchEvents s.procs r) := rfl
    have hstop : (wordOf p [(o, Operation.stop)]).countP Operation.grants = 0 := by
      by_cases ho : o = p <;> simp [wordOf, ho, Operation.grants]
    rw [hops, wordOf_append, List.countP_append, hstop, hdispatch]
    simp

/-- Each quantum granted is charged in the next pass. -/
theorem run_grants_next (p : ProcId) : ∀ n s, run cfg workload n = .next s →
    grants p s.trace = quantaGiven cfg workload p n +
      if s.currentProcess = some p then 1 else 0 := by
  apply run_invariant
  case h0 => rfl
  case hstep =>
    intro n s events s' hn _ _ ih hs
    rw [quantaGiven_succ hn, ← ih, ← s.trace_entered cfg]
    cases hs with
    | @step s1 s2 s3 charged admitted driven hcharge _ hadmits hsched =>
      have h3 : grants p s3.trace = grants p s2.trace + grants p (s2.entries driven) := by
        rw [hsched.clock.2.2, grants_append]
      have h2 : grants p s2.trace = grants p s1.trace + grants p (s1.entries admitted) := by
        rw [hadmits.clock.2.2, grants_append]
      have h1 : grants p s1.trace = grants p (s.entered cfg).trace +
          grants p ((s.entered cfg).entries charged) := by
        rw [hcharge.clock.2.2, grants_append]
      rw [hsched.grants p] at h3
      rw [hadmits.grants p] at h2
      rw [hcharge.grants p] at h1
      simp only [State.tick_trace, State.tick_currentProcess]
      omega

theorem run_grants (hno : Undropped cfg workload n)
    (h : (run cfg workload n).state? = some s) (hp : p ∈ s.finishedQueue) :
    grants p s.trace = quantaNeeded cfg.quantum (s.procs p).serviceTime := by
  rcases run_state_cases h with hrun | ⟨m, t, events, hmn, ht, -, hcharge, -⟩
  · have hhead := run_atHead n s hrun
    have hcur : s.currentProcess ≠ some p := fun hcur => hhead.current_unfinished hcur hp
    rw [run_grants_next p n s hrun, if_neg hcur]
    exact (run_accounted p hno hrun).finished hp
  · rw [hcharge.clock.2.2, grants_append, hcharge.grants, run_grants_next p m t ht]
    exact (hcharge.accounted (run_atHead m t ht)
      (run_accounted p (hno.mono hmn.le) ht)).finished hp

/-- The operations on every real process: up to every moment they begin a word of the discipline
and at most one process is driven; their times increase; and a finished process was started and
continued exactly once for each quantum it needed. It takes that no pass finds `num_cycles` 0 with a
process running, which none does whose number is below `2 ^ 32`. -/
theorem signal_discipline (hstarts : Starts cfg workload) :
    (∀ n, (∀ m t, m < n → run cfg workload m = .next t → m < 2 ^ 32) →
      Undropped cfg workload n ∧ ∀ e, run cfg workload n ≠ .fault e) ∧
    ∀ n s, (run cfg workload n).state? = some s → Undropped cfg workload n →
      (∀ moment, moment <+: s.trace →
        (∀ p, ∃ word ∈ discipline, (operationsOn p moment).map Prod.fst <+: word) ∧
        ∀ p q, Driven p moment → Driven q moment → p = q) ∧
      ((∀ m t, m < n → run cfg workload m = .next t → NoWrap cfg m) →
        ∀ p, ((operationsOn p s.trace).map Prod.snd).Pairwise (· < ·)) ∧
      ∀ p ∈ s.finishedQueue, (operationsOn p s.trace).countP (fun x => x.1.grants) =
        quantaNeeded cfg.quantum (loadedProcs workload p).serviceTime := by
  constructor
  · intro n hcount
    refine ⟨undropped_of_counted hcount, fun e hfault => ?_⟩
    obtain ⟨m, t, hmn, ht, hb⟩ := iterate_fault_origin hfault
    exact run_never_faults hstarts (Nat.le_succ_of_le (hcount m t hmn ht)) e
      ((iterate_succ_of_next ht).trans hb)
  · intro n s hs hno
    refine ⟨fun moment hm => (run_obeyed hno hs).moment hm, ?_, ?_⟩
    · intro hwrap p
      exact run_increasing p hs hwrap
    · intro p hp
      rw [← ((run_state_invariant hs).loaded p).serviceTime]
      exact run_grants hno hs hp

/-- Two jobs under RR: the first is started, stopped, continued and terminated. -/
theorem signal_discipline_twoJobs : ∃ s : State,
    (run (sampleConfig .rr .infinite) twoJobs 4).state? = some s ∧
    operationsOn 0 s.trace = [(.start, 0), (.stop, 2), (.cont, 4), (.term, 6)] ∧
    ∃ word ∈ discipline, (operationsOn 0 s.trace).map Prod.fst <+: word := by
  have hstarts : Starts (sampleConfig .rr .infinite) twoJobs :=
    starts_of_arrived (first_arrived rfl) (by simp [sampleConfig])
  have hrun : ∃ s : State, (run (sampleConfig .rr .infinite) twoJobs 4).state? = some s ∧
      operationsOn 0 s.trace = [(.start, 0), (.stop, 2), (.cont, 4), (.term, 6)] :=
    ⟨_, rfl, by decide⟩
  obtain ⟨s, hs, hops⟩ := hrun
  have hmoment := ((signal_discipline hstarts).2 4 s hs (undropped_of_le (by omega))).1 s.trace
    (List.prefix_refl _)
  exact ⟨s, hs, hops, hmoment.1 0⟩

end ProcessManager
