import ProcessManager.CycleInvariant

/-! Which pass of the run an entry of the trace comes from. -/
namespace ProcessManager

open Loop

variable {cfg : Config} {workload : List Record} {s s' s1 s2 s3 : State} {p : ProcId}
  {events charged admitted driven : List Event} {e : Event} {entry : Entry} {n : ℕ}

theorem Charge.event_cases (hc : Charge cfg s events s') (he : e ∈ events) :
    (∃ p r, e = .finished p r ∧ s.currentProcess = some p) ∨
      ∃ p, e = .term p ∧ s.currentProcess = some p := by
  cases hc with
  | idle => simp at he
  | quantum => simp at he
  | finish hcur =>
    simp only [finishEvents, List.mem_cons, List.not_mem_nil, or_false] at he
    rcases he with rfl | rfl
    · exact Or.inl ⟨_, _, rfl, hcur⟩
    · exact Or.inr ⟨_, rfl, hcur⟩

theorem Admit.event_cases (ha : Admit cfg s events s') (he : e ∈ events) :
    (∃ p ∈ s.arrived, e = .arrive p) ∨ (∃ p ahead, e = .insert p ahead) ∨
      ∃ p address, e = .ready p address := by
  cases ha with
  | ofPass hpass =>
    obtain ⟨new, hnew, hall⟩ := hpass.events
    rw [List.nil_append] at hnew
    rcases List.mem_append.mp he with he | he
    · obtain ⟨p, hp, rfl⟩ := List.mem_map.mp he
      exact Or.inl ⟨p, hp, rfl⟩
    · exact Or.inr (hall e (hnew ▸ he))

theorem dispatchEvents_cases {procs : ProcTable} (he : e ∈ dispatchEvents procs p) :
    e = .start p ∨ e = .cont p ∨ e = .running p (procs p).serviceTimeLeft := by
  simp only [dispatchEvents, List.mem_cons, List.not_mem_nil, or_false] at he
  rcases he with rfl | rfl
  · split <;> simp
  · simp

theorem Schedule.event_cases (hs : Schedule cfg s events s') (he : e ∈ events) :
    (∃ p, e = .start p) ∨ (∃ p, e = .cont p) ∨ (∃ p r, e = .running p r) ∨
      (cfg.scheduler = .rr ∧ ((∃ p ahead, e = .insert p ahead) ∨ ∃ p, e = .stop p)) := by
  have hdispatch : ∀ {procs : ProcTable} {p : ProcId}, e ∈ dispatchEvents procs p →
      (∃ p, e = .start p) ∨ (∃ p, e = .cont p) ∨ ∃ p r, e = .running p r := by
    intro procs p hmem
    rcases dispatchEvents_cases hmem with rfl | rfl | rfl
    · exact Or.inl ⟨_, rfl⟩
    · exact Or.inr (Or.inl ⟨_, rfl⟩)
    · exact Or.inr (Or.inr ⟨_, _, rfl⟩)
  cases hs with
  | idle => simp at he
  | resume => exact Or.inr (Or.inl ⟨_, List.mem_singleton.mp he⟩)
  | dispatch =>
    rcases hdispatch he with h | h | h
    · exact Or.inl h
    · exact Or.inr (Or.inl h)
    · exact Or.inr (Or.inr (Or.inl h))
  | preempt hrr =>
    rcases List.mem_cons.mp he with rfl | he
    · exact Or.inr (Or.inr (Or.inr ⟨hrr, Or.inl ⟨_, _, rfl⟩⟩))
    · rcases List.mem_cons.mp he with rfl | he
      · exact Or.inr (Or.inr (Or.inr ⟨hrr, Or.inr ⟨_, rfl⟩⟩))
      · rcases hdispatch he with h | h | h
        · exact Or.inl h
        · exact Or.inr (Or.inl h)
        · exact Or.inr (Or.inr (Or.inl h))

/-- The parts of a pass. -/
inductive PassPart
  | charge
  | admission
  | schedule

/-- The part that logs an event. The admission inserts processes, and so does a preemption. -/
def Event.part : Event → Option PassPart
  | .finished _ _ | .term _ => some .charge
  | .arrive _ | .ready _ _ => some .admission
  | .start _ | .cont _ | .stop _ | .running _ _ => some .schedule
  | .insert _ _ => none

theorem Charge.part (hc : Charge cfg s events s') (he : e ∈ events) : e.part = some .charge := by
  rcases hc.event_cases he with ⟨_, _, rfl, -⟩ | ⟨_, rfl, -⟩ <;> rfl

theorem Admit.part (ha : Admit cfg s events s') (he : e ∈ events) :
    e.part = some .admission ∨ e.part = none := by
  rcases ha.event_cases he with ⟨_, -, rfl⟩ | ⟨_, _, rfl⟩ | ⟨_, _, rfl⟩
  · exact Or.inl rfl
  · exact Or.inr rfl
  · exact Or.inl rfl

theorem Schedule.part (hs : Schedule cfg s events s') (he : e ∈ events) :
    e.part = some .schedule ∨ e.part = none := by
  rcases hs.event_cases he with ⟨_, rfl⟩ | ⟨_, rfl⟩ | ⟨_, _, rfl⟩ | ⟨-, ⟨_, _, rfl⟩ | ⟨_, rfl⟩⟩
  · exact Or.inl rfl
  · exact Or.inl rfl
  · exact Or.inl rfl
  · exact Or.inr rfl
  · exact Or.inl rfl

theorem mem_charged (ha : Admit cfg s1 admitted s2) (hs : Schedule cfg s2 driven s3)
    (he : e ∈ charged ++ admitted ++ driven) (hpart : e.part = some .charge) : e ∈ charged := by
  rcases List.mem_append.mp he with he | he
  · rcases List.mem_append.mp he with he | he
    · exact he
    · have hother := ha.part he
      simp [hpart] at hother
  · have hother := hs.part he
    simp [hpart] at hother

theorem mem_admitted (hc : Charge cfg s charged s1) (hs : Schedule cfg s2 driven s3)
    (he : e ∈ charged ++ admitted ++ driven) (hpart : e.part = some .admission) :
    e ∈ admitted := by
  rcases List.mem_append.mp he with he | he
  · rcases List.mem_append.mp he with he | he
    · have hother := hc.part he
      simp [hpart] at hother
    · exact he
  · have hother := hs.part he
    simp [hpart] at hother

theorem mem_driven (hc : Charge cfg s charged s1) (ha : Admit cfg s1 admitted s2)
    (he : e ∈ charged ++ admitted ++ driven) (hpart : e.part = some .schedule) : e ∈ driven := by
  rcases List.mem_append.mp he with he | he
  · rcases List.mem_append.mp he with he | he
    · have hother := hc.part he
      simp [hpart] at hother
    · have hother := ha.part he
      simp [hpart] at hother
  · exact he

/-- What pass `n` did from `s`: a step, or the charge that leaves the loop. -/
def Performs (cfg : Config) (workload : List Record) (n : ℕ) (s : State) (events : List Event)
    (s' : State) : Prop :=
  (run cfg workload (n + 1) = .next s' ∧ Step cfg (s.entered cfg) events s') ∨
    (run cfg workload (n + 1) = .done s' ∧ Charge cfg s events s')

/-- The events of a pass are what it adds to the trace. -/
theorem Step.trace (h : Step cfg (s.entered cfg) events s') :
    s'.trace = s.trace ++ s.entries events := by
  rw [h.clock.2.2, State.entries, State.entries, State.trace_entered, State.passes_entered,
    State.simTime_entered]

theorem Performs.trace (h : Performs cfg workload n s events s') :
    s'.trace = s.trace ++ s.entries events := by
  rcases h with ⟨-, hstep⟩ | ⟨-, hcharge⟩
  · exact hstep.trace
  · exact hcharge.clock.2.2

theorem Performs.state (h : Performs cfg workload n s events s') :
    (run cfg workload (n + 1)).state? = some s' := by
  rcases h with ⟨hrun, -⟩ | ⟨hrun, -⟩ <;> rw [hrun] <;> rfl

/-- The entry belongs to a pass before `n`. -/
def FromPass (cfg : Config) (workload : List Record) (n : ℕ) (entry : Entry) : Prop :=
  entry.cycle < n ∧ ∃ s events s', run cfg workload entry.cycle = .next s ∧
    Performs cfg workload entry.cycle s events s' ∧ entry.event ∈ events ∧
    entry.simTime = s.simTime

theorem fromPass_new (hn : run cfg workload n = .next s)
    (h : Performs cfg workload n s events s') (he : entry ∈ s.entries events) :
    FromPass cfg workload (n + 1) entry := by
  have hcycle := run_passes n s hn
  obtain ⟨e, hmem, rfl⟩ := List.mem_map.mp he
  rw [hcycle]
  exact ⟨Nat.lt_succ_self n, s, events, s', hn, h, hmem, rfl⟩

theorem run_fromPass_next : ∀ n s, run cfg workload n = .next s →
    ∀ entry ∈ s.trace, FromPass cfg workload n entry := by
  apply run_invariant
  case h0 => simp [initialState]
  case hstep =>
    intro n s events s' hn hnext _ h hs entry he
    rw [hs.trace] at he
    rcases List.mem_append.mp he with he | he
    · obtain ⟨hlt, hfrom⟩ := h entry he
      exact ⟨Nat.lt_succ_of_lt hlt, hfrom⟩
    · exact fromPass_new hn (Or.inl ⟨hnext, hs⟩) he

theorem run_fromPass (h : (run cfg workload n).state? = some s) (he : entry ∈ s.trace) :
    FromPass cfg workload n entry := by
  rcases run_state_cases h with hrun | ⟨m, t, events, hmn, ht, hdone, hcharge, -⟩
  · exact run_fromPass_next n s hrun entry he
  · have hfrom : FromPass cfg workload (m + 1) entry := by
      rw [hcharge.clock.2.2] at he
      rcases List.mem_append.mp he with he | he
      · obtain ⟨hlt, hfrom⟩ := run_fromPass_next m t ht entry he
        exact ⟨Nat.lt_succ_of_lt hlt, hfrom⟩
      · exact fromPass_new ht (Or.inr ⟨hdone, hcharge⟩) he
    exact ⟨hfrom.1.trans_le hmn, hfrom.2⟩

/-- The events of one pass, in order. -/
def eventsIn (trace : List Entry) (cycle : ℕ) : List Event :=
  (trace.filter (·.cycle = cycle)).map Entry.event

theorem eventsIn_append (trace new : List Entry) (cycle : ℕ) :
    eventsIn (trace ++ new) cycle = eventsIn trace cycle ++ eventsIn new cycle := by
  simp [eventsIn]

theorem eventsIn_entries (s : State) (events : List Event) (cycle : ℕ) :
    eventsIn (s.entries events) cycle = if s.passes = cycle then events else [] := by
  by_cases hcycle : s.passes = cycle
  · simp [eventsIn, State.entries, List.filter_map, hcycle, Function.comp_def]
  · simp [eventsIn, State.entries, List.filter_map, hcycle, Function.comp_def]

/-- No pass of a run has been logged before it takes place. -/
theorem eventsIn_future (hn : run cfg workload n = .next s) : eventsIn s.trace n = [] := by
  simp only [eventsIn, List.map_eq_nil_iff, List.filter_eq_nil_iff, decide_eq_true_eq]
  intro entry he heq
  have hlt := (run_fromPass_next n s hn entry he).1
  omega

theorem eventsIn_new (hn : run cfg workload n = .next s)
    (h : Performs cfg workload n s events s') : eventsIn s'.trace n = events := by
  rw [h.trace, eventsIn_append, eventsIn_future hn, eventsIn_entries,
    if_pos (run_passes n s hn), List.nil_append]

/-- Later passes leave the log of a pass as it is. -/
theorem eventsIn_old {m : ℕ} (hn : run cfg workload n = .next s) (hmn : m < n)
    (h : Performs cfg workload n s events s') : eventsIn s'.trace m = eventsIn s.trace m := by
  have hcycle : s.passes ≠ m := by
    rw [run_passes n s hn]
    omega
  rw [h.trace, eventsIn_append, eventsIn_entries, if_neg hcycle, List.append_nil]

theorem run_eventsIn_next {m : ℕ} {t t' : State} (hm : run cfg workload m = .next t)
    (h : Performs cfg workload m t events t') :
    ∀ n s, run cfg workload n = .next s → m < n → eventsIn s.trace m = events := by
  apply run_invariant
  case h0 =>
    intro hlt
    omega
  case hstep =>
    intro n s new s' hn hnext _ ih hs hlt
    have hperforms : Performs cfg workload n s new s' := Or.inl ⟨hnext, hs⟩
    rcases Nat.lt_succ_iff_lt_or_eq.mp hlt with hlt | rfl
    · rw [eventsIn_old hn hlt hperforms, ih hlt]
    · obtain rfl := run_unique hn hm
      have hsame : s' = t' := Option.some.inj (hperforms.state.symm.trans h.state)
      rw [hsame, eventsIn_new hm h]

/-- The log of a pass, in every state of the run after it. -/
theorem run_eventsIn {m : ℕ} {t t' : State} (hm : run cfg workload m = .next t)
    (hperforms : Performs cfg workload m t events t') (h : (run cfg workload n).state? = some s)
    (hmn : m < n) : eventsIn s.trace m = events := by
  rcases run_state_cases h with hrun | ⟨k, u, last, hkn, hu, hdone, hcharge, -⟩
  · exact run_eventsIn_next hm hperforms n s hrun hmn
  · have hlast : Performs cfg workload k u last s := Or.inr ⟨hdone, hcharge⟩
    rcases Nat.lt_trichotomy m k with hmk | rfl | hkm
    · rw [eventsIn_old hu hmk hlast]
      exact run_eventsIn_next hm hperforms k u hu hmk
    · obtain rfl := run_unique hu hm
      have hsame : s = t' := Option.some.inj (hlast.state.symm.trans hperforms.state)
      rw [hsame, eventsIn_new hm hperforms]
    · have hstill : run cfg workload m = .done s := iterate_done_of_le hkm hdone
      rw [hstill] at hm
      cases hm

theorem mem_eventsIn {cycle : ℕ} {trace : List Entry} :
    e ∈ eventsIn trace cycle ↔ ∃ time, ⟨cycle, time, e⟩ ∈ trace := by
  simp only [eventsIn, List.mem_map, List.mem_filter, decide_eq_true_eq]
  constructor
  · rintro ⟨entry, ⟨hmem, rfl⟩, rfl⟩
    exact ⟨entry.simTime, hmem⟩
  · rintro ⟨time, hmem⟩
    exact ⟨_, ⟨hmem, rfl⟩, rfl⟩

/-- An entry that is no FINISHED line and no termination comes from a full pass. -/
theorem FromPass.step (h : FromPass cfg workload n entry)
    (hfinished : ∀ p r, entry.event ≠ .finished p r) (hterm : ∀ p, entry.event ≠ .term p) :
    ∃ s events s', run cfg workload entry.cycle = .next s ∧
      run cfg workload (entry.cycle + 1) = .next s' ∧ Step cfg (s.entered cfg) events s' ∧
      entry.event ∈ events ∧ entry.simTime = s.simTime := by
  obtain ⟨-, s, events, s', hrun, hperforms, he, htime⟩ := h
  rcases hperforms with ⟨hnext, hstep⟩ | ⟨-, hcharge⟩
  · exact ⟨s, events, s', hrun, hnext, hstep, he, htime⟩
  · rcases hcharge.event_cases he with ⟨p, r, heq, -⟩ | ⟨p, heq, -⟩
    · exact absurd heq (hfinished p r)
    · exact absurd heq (hterm p)

/-- A pass with `num_cycles` 0 charges nobody. -/
theorem Charge.entered_of_mem (hc : Charge cfg (s.entered cfg) events s') (he : e ∈ events) :
    s.entered cfg = s := by
  apply State.entered_of_ne
  intro h0
  rw [State.entered_of_eq h0] at hc
  rcases hc.event_cases he with ⟨_, _, -, hcur⟩ | ⟨_, -, hcur⟩ <;> simp at hcur

/-- The pass that logs a FINISHED line charged the process with its last quantum. -/
theorem Performs.finished {r : ℕ} (hhead : AtHead cfg workload s)
    (h : Performs cfg workload n s events s') (he : .finished p r ∈ events) :
    s.currentProcess = some p ∧ s'.finishedQueue = s.finishedQueue ++ [p] ∧
      ∃ charged s1, Charge cfg s charged s1 ∧ s1.finishedQueue = s.finishedQueue ++ [p] ∧
        s1.running = [] := by
  have hcharged : ∀ {charged : List Event} {s1 : State}, Charge cfg s charged s1 →
      .finished p r ∈ charged → s.currentProcess = some p ∧
        s1.finishedQueue = s.finishedQueue ++ [p] ∧ s1.running = [] := by
    intro charged s1 hcharge hmem
    cases hcharge with
    | idle | quantum => cases hmem
    | finish hcur =>
      simp only [finishEvents, List.mem_cons, Event.finished.injEq, reduceCtorEq,
        List.not_mem_nil, or_false] at hmem
      obtain ⟨rfl, -⟩ := hmem
      exact ⟨hcur, rfl, rfl⟩
  rcases h with ⟨-, hstep⟩ | ⟨-, hcharge⟩
  · cases hstep with
    | @step s1 s2 s3 charged admitted driven hcharge _ hadmits hsched =>
      have hinv := hadmits.invariant (hcharge.invariant hhead.entered)
      have hmem : .finished p r ∈ charged := mem_charged hadmits hsched he rfl
      rw [hcharge.entered_of_mem hmem] at hcharge
      obtain ⟨hcur, hfinished, hrun⟩ := hcharged hcharge hmem
      have hkept : s3.finishedQueue = s1.finishedQueue :=
        (hsched.queues hinv).2.2.1.trans hadmits.finishedQueue
      exact ⟨hcur, hkept.trans hfinished, _, s1, hcharge, hfinished, hrun⟩
  · obtain ⟨hcur, hfinished, hrun⟩ := hcharged hcharge he
    exact ⟨hcur, hfinished, _, s', hcharge, hfinished, hrun⟩

/-- The processes whose real process was terminated, in order. -/
def terminated (trace : List Entry) : List ProcId :=
  trace.filterMap fun entry =>
    match entry.event with
    | .term p => some p
    | _ => none

theorem terminated_append (trace new : List Entry) :
    terminated (trace ++ new) = terminated trace ++ terminated new := List.filterMap_append

/-- Only `finish_process` terminates. -/
theorem terminated_quiet (h : ∀ e ∈ events, ∀ p, e ≠ .term p) :
    terminated (s.entries events) = [] := by
  apply List.filterMap_eq_nil_iff.mpr
  intro entry hentry
  obtain ⟨e, he, rfl⟩ := List.mem_map.mp hentry
  have hne := h e he
  cases e with
  | term p => exact absurd rfl (hne p)
  | _ => rfl

theorem Charge.terminated (hc : Charge cfg s events s')
    (h : terminated s.trace = s.finishedQueue) : terminated s'.trace = s'.finishedQueue := by
  rw [hc.clock.2.2, terminated_append, h]
  cases hc with
  | idle => exact List.append_nil _
  | quantum => exact List.append_nil _
  | finish => rfl

theorem Admit.terminated (ha : Admit cfg s events s')
    (h : terminated s.trace = s.finishedQueue) : terminated s'.trace = s'.finishedQueue := by
  rw [ha.clock.2.2, terminated_append, h, ha.finishedQueue, terminated_quiet, List.append_nil]
  intro e he p
  rcases ha.event_cases he with ⟨_, -, rfl⟩ | ⟨_, _, rfl⟩ | ⟨_, _, rfl⟩ <;> simp

theorem Schedule.terminated (h : Invariant cfg workload s) (hs : Schedule cfg s events s')
    (ht : terminated s.trace = s.finishedQueue) : terminated s'.trace = s'.finishedQueue := by
  rw [hs.clock.2.2, terminated_append, ht, (hs.queues h).2.2.1, terminated_quiet, List.append_nil]
  intro e he p
  rcases hs.event_cases he with ⟨_, rfl⟩ | ⟨_, rfl⟩ | ⟨_, _, rfl⟩ | ⟨-, ⟨_, _, rfl⟩ | ⟨_, rfl⟩⟩ <;>
    simp

/-- The finished queue lists the terminated processes in order. -/
theorem run_terminated (h : (run cfg workload n).state? = some s) :
    terminated s.trace = s.finishedQueue :=
  run_parts (I := fun s => terminated s.trace = s.finishedQueue) rfl id
    (fun _ ht hc => hc.terminated ht) (fun _ ht ha => ha.terminated ht)
    (fun hinv ht hs => hs.terminated hinv ht) id h

end ProcessManager
