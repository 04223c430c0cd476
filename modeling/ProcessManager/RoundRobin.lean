import ProcessManager.NumCycles
import ProcessManager.Trace

/-! RR: the ready queue is served first in, first out, one quantum each. -/
namespace ProcessManager

open Loop

variable {cfg : Config} {workload : List Record} {s s' : State} {p q : ProcId}
  {events : List Event} {n : ℕ} {ahead queue : List ProcId}

/-- The processes that are dispatched. -/
def dispatches (events : List Event) : List ProcId :=
  events.filterMap fun
    | .running p _ => some p
    | _ => none

theorem dispatches_append (l r : List Event) :
    dispatches (l ++ r) = dispatches l ++ dispatches r := List.filterMap_append

theorem dispatches_dispatchEvents (procs : ProcTable) (p : ProcId) :
    dispatches (dispatchEvents procs p) = [p] := by
  unfold dispatchEvents
  split <;> rfl

theorem Charge.dispatches_nil (hc : Charge cfg s events s') : dispatches events = [] := by
  apply List.filterMap_eq_nil_iff.mpr
  intro e he
  rcases hc.event_cases he with ⟨_, _, rfl, -⟩ | ⟨_, rfl, -⟩ <;> rfl

theorem Admit.dispatches_nil (ha : Admit cfg s events s') : dispatches events = [] := by
  apply List.filterMap_eq_nil_iff.mpr
  intro e he
  rcases ha.event_cases he with ⟨_, -, rfl⟩ | ⟨_, _, rfl⟩ | ⟨_, _, rfl⟩ <;> rfl

/-- What a pass does with the queue it makes by all its insertions: the head is dispatched, and who
ran before has finished or was stopped. -/
structure Serves (s : State) (events : List Event) (s' : State) (queue : List ProcId) : Prop where
  inserted : ∀ p ahead, .insert p ahead ∈ events → ahead ++ [p] <+: queue
  kept : s.readyQueue.items <+: queue
  nodup : queue.Nodup
  served : ∀ d rest, queue = d :: rest → s'.readyQueue.items = rest ∧
    s'.currentProcess = some d ∧ dispatches events = [d] ∧
    ∀ p, s.currentProcess = some p → .stop p ∈ events ∨ ∃ r, .finished p r ∈ events

/-- Admission puts the processes it takes at the end of the queue. -/
theorem Admit.inserted (hrr : cfg.scheduler = .rr) (h : Invariant cfg workload s)
    (ha : Admit cfg s events s') :
    s.readyQueue.items <+: s'.readyQueue.items ∧
      ∀ p ahead, .insert p ahead ∈ events → ahead ++ [p] <+: s'.readyQueue.items := by
  have hw := h.ready
  rw [hrr] at hw
  cases ha with
  | @ofPass pass taken left hpass =>
    obtain ⟨-, -, hlist⟩ := hpass.ready hw
    constructor
    · simp only [State.emit_readyQueue]
      rw [hlist rfl]
      exact List.prefix_append _ _
    · intro p ahead he
      have hinsert : .insert p ahead ∈ pass.events := by
        rcases List.mem_append.mp he with he | he
        · simp at he
        · exact he
      rcases hpass.insert_prefix hw hinsert with hnil | hprefix
      · simp at hnil
      · exact hprefix

theorem Charge.readyQueue (hc : Charge cfg s events s') : s'.readyQueue = s.readyQueue := by
  cases hc <;> rfl

/-- Who was current when the processor is free after the charge has finished. -/
theorem Charge.finished_of_free (h : AtHead cfg workload s) (hc : Charge cfg s events s')
    (hrun : s'.running = []) (hcur : s.currentProcess = some p) :
    ∃ r, .finished p r ∈ events := by
  cases hc with
  | idle hnone => simp [hnone] at hcur
  | quantum =>
    have hnone : s.running = [] := hrun
    simp [h.running_some hcur] at hnone
  | finish hsome =>
    obtain rfl := Option.some.inj (hsome.symm.trans hcur)
    exact ⟨_, List.mem_cons_self⟩

/-- Who still runs after the charge was current. -/
theorem Charge.current_of_running (h : AtHead cfg workload s) (hc : Charge cfg s events s')
    (hrun : s'.running = [q]) (hcur : s.currentProcess = some p) : p = q := by
  cases hc with
  | idle hnone => simp [hnone] at hcur
  | quantum =>
    have hsome : s.running = [q] := hrun
    simpa [h.running_some hcur] using hsome
  | finish => simp [State.running] at hrun

theorem Step.serves (hrr : cfg.scheduler = .rr) (h : AtHead cfg workload s)
    (hs : Step cfg s events s') : ∃ queue, Serves s events s' queue := by
  cases hs with
  | @step s1 s2 s3 charged admitted driven hcharge _ hadmits hsched =>
    have hinv1 := hcharge.invariant h
    have hinv2 := hadmits.invariant hinv1
    obtain ⟨hkept, hinserted⟩ := hadmits.inserted hrr hinv1
    rw [hcharge.readyQueue] at hkept
    have hnone : ∀ p ahead, .insert p ahead ∉ charged := by
      intro p ahead he
      cases hcharge.part he
    have hquiet : dispatches (charged ++ admitted) = [] := by
      rw [dispatches_append, hcharge.dispatches_nil, hadmits.dispatches_nil]
      rfl
    cases hsched with
    | idle hrun hempty =>
      refine ⟨s2.readyQueue.items, ?_, hkept, hinv2.ready_nodup, ?_⟩
      · intro p ahead he
        simp only [List.append_nil, List.mem_append, hnone, false_or] at he
        exact hinserted p ahead he
      · intro d rest heq
        simp [hempty] at heq
    | resume hrun halone =>
      refine ⟨s2.readyQueue.items, ?_, hkept, hinv2.ready_nodup, ?_⟩
      · intro p ahead he
        simp only [List.mem_append, hnone, false_or, List.mem_singleton, reduceCtorEq,
          or_false] at he
        exact hinserted p ahead he
      · intro d rest heq
        simp [halone hrr] at heq
    | @dispatch r ready hrun hnext =>
      obtain ⟨-, -, hhead, -⟩ := hinv2.ready.extract_ok hnext
      refine ⟨s2.readyQueue.items, ?_, hkept, hinv2.ready_nodup, ?_⟩
      · intro p ahead he
        rcases List.mem_append.mp he with he | he
        · simp only [List.mem_append, hnone, false_or] at he
          exact hinserted p ahead he
        · rcases dispatchEvents_cases he with heq | heq | heq <;> cases heq
      · intro d rest heq
        rw [hhead hrr] at heq
        obtain ⟨rfl, rfl⟩ := List.cons.inj heq
        refine ⟨rfl, rfl, ?_, fun p hcur => Or.inr ?_⟩
        · rw [dispatches_append, hquiet, dispatches_dispatchEvents, List.nil_append]
        · have hrun1 : s1.running = [] := hadmits.running ▸ hrun
          obtain ⟨r, hr⟩ := hcharge.finished_of_free h hrun1 hcur
          exact ⟨r, List.mem_append_left _ (List.mem_append_left _ hr)⟩
    | @preempt o r next ready _ hrun hne hput hnext =>
      obtain ⟨-, -, hnotin, -⟩ := hinv2.running_elsewhere (p := o) (by simp [hrun])
      obtain ⟨hwf, -, hlist⟩ := hinv2.ready.insert_ok hput
      obtain ⟨-, -, hhead, -⟩ := hwf.extract_ok hnext
      refine ⟨next.items, ?_, ?_, ?_, ?_⟩
      · intro p ahead he
        rcases List.mem_append.mp he with he | he
        · simp only [List.mem_append, hnone, false_or] at he
          rw [hlist hrr]
          exact (hinserted p ahead he).trans (List.prefix_append _ _)
        · simp only [List.mem_cons, Event.insert.injEq, reduceCtorEq, false_or] at he
          rcases he with ⟨rfl, rfl⟩ | he
          · rw [hlist hrr]
          · rcases dispatchEvents_cases he with heq | heq | heq <;> cases heq
      · rw [hlist hrr]
        exact hkept.trans (List.prefix_append _ _)
      · rw [hlist hrr]
        rw [← List.concat_eq_append]
        exact hinv2.ready_nodup.concat hnotin
      · intro d rest heq
        rw [hhead hrr] at heq
        obtain ⟨rfl, rfl⟩ := List.cons.inj heq
        refine ⟨rfl, rfl, ?_, fun p hcur => Or.inl ?_⟩
        · rw [dispatches_append, hquiet, List.nil_append]
          exact dispatches_dispatchEvents _ _
        · have hrun1 : s1.running = [o] := hadmits.running ▸ hrun
          obtain rfl := hcharge.current_of_running h hrun1 hcur
          simp

/-- A process is stopped after it was put behind everybody who is ready, and another one is
dispatched. -/
theorem Step.stopped (h : AtHead cfg workload s) (hs : Step cfg s events s')
    (he : .stop p ∈ events) :
    ∃ ahead before after, events = before ++ .insert p ahead :: .stop p :: after ∧
      (∀ q ahead', .insert q ahead' ∈ events → q = p ∨ q ∈ ahead) ∧
      p ∉ dispatches events ∧ .cont p ∉ events := by
  cases hs with
  | @step s1 s2 s3 charged admitted driven hcharge _ hadmits hsched =>
    have hinv1 := hcharge.invariant h
    have hinv2 := hadmits.invariant hinv1
    have hdriven : .stop p ∈ driven := mem_driven hcharge hadmits he rfl
    cases hsched with
    | idle => simp at hdriven
    | resume => simp at hdriven
    | dispatch => rcases dispatchEvents_cases hdriven with heq | heq | heq <;> cases heq
    | @preempt o r next ready hrr hrun hne hput hnext =>
      obtain rfl : p = o := by
        simp only [List.mem_cons, reduceCtorEq, false_or, Event.stop.injEq] at hdriven
        rcases hdriven with rfl | hdriven
        · rfl
        · rcases dispatchEvents_cases hdriven with heq | heq | heq <;> cases heq
      obtain ⟨others, hready, -⟩ := hinv2.ready.preempt_ok hrr hne hput hnext
      obtain ⟨-, -, hnotin, -⟩ := hinv2.running_elsewhere (p := p) (by simp [hrun])
      have hrp : r ≠ p := by
        rintro rfl
        simp [hready] at hnotin
      obtain ⟨-, hinserted⟩ := hadmits.inserted hrr hinv1
      refine ⟨s2.readyQueue.items, charged ++ admitted, dispatchEvents s2.procs r, rfl, ?_, ?_, ?_⟩
      · intro q ahead hq
        rcases List.mem_append.mp hq with hq | hq
        · right
          have hadmitted : .insert q ahead ∈ admitted := by
            rcases List.mem_append.mp hq with hq | hq
            · cases hcharge.part hq
            · exact hq
          exact (hinserted q ahead hadmitted).subset (by simp)
        · left
          simp only [List.mem_cons, Event.insert.injEq, reduceCtorEq, false_or] at hq
          rcases hq with ⟨rfl, -⟩ | hq
          · rfl
          · rcases dispatchEvents_cases hq with heq | heq | heq <;> cases heq
      · have hdispatch : dispatches (.insert p s2.readyQueue.items :: .stop p ::
            dispatchEvents s2.procs r) = [r] := dispatches_dispatchEvents _ _
        rw [dispatches_append, dispatches_append, hcharge.dispatches_nil, hadmits.dispatches_nil,
          hdispatch]
        simpa using hrp.symm
      · intro hcont
        have hlast := mem_driven hcharge hadmits hcont rfl
        simp only [List.mem_cons, reduceCtorEq, false_or] at hlast
        rcases dispatchEvents_cases hlast with heq | heq | heq
        · cases heq
        · exact hrp (Event.cont.inj heq).symm
        · cases heq

/-- No pass that finds `num_cycles` 0 finds a process in the ready queue. -/
def NobodyReady (cfg : Config) (workload : List Record) : Prop :=
  ∀ n s, run cfg workload n = .next s → s.numCycles = 0 → s.readyQueue.items = []

/-- A run goes on while somebody is ready. -/
theorem ready_continues (hno : NobodyReady cfg workload) (hn : run cfg workload n = .next s)
    (hne : s.readyQueue.items ≠ []) : s.entered cfg = s ∧
    ∃ events s', run cfg workload (n + 1) = .next s' ∧ Step cfg (s.entered cfg) events s' := by
  have hhead := run_atHead n s hn
  have hrun : run cfg workload (n + 1) = cycleBody cfg s := iterate_succ_of_next hn
  refine ⟨State.entered_of_ne fun h0 => hne (hno n s hn h0), ?_⟩
  rcases cycleBody_cases hhead with ⟨events, s', hb, hstep⟩ | ⟨events, s', -, -, hcharge, -, hend⟩ |
    ⟨hb, -⟩
  · exact ⟨events, s', hrun.trans hb, hstep⟩
  · obtain ⟨-, -, -, hnil, -⟩ := (hcharge.invariant hhead).all_finished hend
    rw [hcharge.readyQueue] at hnil
    exact absurd hnil hne
  · exact absurd (fun _ => hhead.busy hne) ((cycleBody_fault hhead).mp hb).2.2

/-- Pass `n` serves a queue that begins with `line`. -/
def PassServes (cfg : Config) (workload : List Record) (n : ℕ) (line : List ProcId) : Prop :=
  ∃ s events s' queue, run cfg workload n = .next s ∧ run cfg workload (n + 1) = .next s' ∧
    Step cfg (s.entered cfg) events s' ∧ Serves (s.entered cfg) events s' queue ∧ line <+: queue

theorem PassServes.next {d : ProcId} {line : List ProcId} (hrr : cfg.scheduler = .rr)
    (hno : NobodyReady cfg workload) (h : PassServes cfg workload n (d :: line))
    (hne : line ≠ []) : PassServes cfg workload (n + 1) line ∧
      ∀ s, run cfg workload (n + 1) = .next s → s.entered cfg = s := by
  obtain ⟨s, events, s', queue, -, hs', -, hserves, rest, rfl⟩ := h
  obtain ⟨hready, -⟩ := hserves.served d (line ++ rest) rfl
  have hline : line <+: s'.readyQueue.items := by
    rw [hready]
    exact List.prefix_append _ _
  have hsome : s'.readyQueue.items ≠ [] := by
    intro hnil
    rw [hnil] at hline
    exact hne (List.prefix_nil.mp hline)
  obtain ⟨hentered, events', s2, hs2, hstep⟩ := ready_continues hno hs' hsome
  obtain ⟨queue', hserves'⟩ := hstep.serves hrr (run_atHead _ s' hs').entered
  have hkept := hserves'.kept
  rw [hentered] at hkept
  constructor
  · exact ⟨s', events', s2, queue', hs', hs2, hstep, hserves', hline.trans hkept⟩
  · intro t ht
    rwa [run_unique ht hs']

/-- The line moves up by one in each pass. -/
theorem PassServes.drop {line : List ProcId} {i : ℕ} (hrr : cfg.scheduler = .rr)
    (hno : NobodyReady cfg workload) (h : PassServes cfg workload n line) (hi : i < line.length) :
    PassServes cfg workload (n + i) (line.drop i) := by
  induction i with
  | zero => exact h
  | succ i ih =>
    have hlt : i < line.length := Nat.lt_of_succ_lt hi
    have hprev := ih hlt
    rw [List.drop_eq_getElem_cons hlt] at hprev
    refine (hprev.next hrr hno ?_).1
    simpa using hi

theorem PassServes.dispatched {d : ProcId} {line : List ProcId}
    (h : PassServes cfg workload n (d :: line)) :
    ∃ s', run cfg workload (n + 1) = .next s' ∧ s'.currentProcess = some d ∧
      dispatches (eventsIn s'.trace n) = [d] := by
  obtain ⟨s, events, s', queue, hs, hs', hstep, hserves, rest, rfl⟩ := h
  obtain ⟨-, hcur, hdispatch, -⟩ := hserves.served d (line ++ rest) rfl
  refine ⟨s', hs', hcur, ?_⟩
  rw [eventsIn_new hs (Or.inl ⟨hs', hstep⟩)]
  exact hdispatch

/-- While somebody waits, the dispatched process is charged one quantum and then finishes or is
stopped. -/
theorem PassServes.one_quantum {d : ProcId} {line : List ProcId} (hrr : cfg.scheduler = .rr)
    (hno : NobodyReady cfg workload) (h : PassServes cfg workload n (d :: line))
    (hne : line ≠ []) :
    ∃ s s', run cfg workload (n + 1) = .next s ∧ run cfg workload (n + 2) = .next s' ∧
      (s'.procs d).serviceTimeLeft = (s.procs d).serviceTimeLeft - cfg.quantum ∧
      (.stop d ∈ eventsIn s'.trace (n + 1) ∨
        ∃ r, .finished d r ∈ eventsIn s'.trace (n + 1)) := by
  obtain ⟨t, ht, hcur, -⟩ := h.dispatched
  obtain ⟨⟨s, events, s', queue, hs, hs', hstep, hserves, rest, rfl⟩, hentered⟩ :=
    h.next hrr hno hne
  obtain rfl := run_unique hs ht
  obtain ⟨d', line', rfl⟩ := List.exists_cons_of_ne_nil hne
  obtain ⟨-, -, -, hends⟩ := hserves.served d' (line' ++ rest) rfl
  refine ⟨s, s', hs, hs', ?_, ?_⟩
  · rw [hstep.timeLeft d, hentered s hs, if_pos hcur]
  · rw [eventsIn_new hs (Or.inl ⟨hs', hstep⟩)]
    rw [hentered s hs] at hends
    exact hends d hcur

theorem passServes_of_insert {cycle : ℕ} (hrr : cfg.scheduler = .rr)
    (h : (run cfg workload n).state? = some s)
    (he : .insert p ahead ∈ eventsIn s.trace cycle) :
    PassServes cfg workload cycle (ahead ++ [p]) ∧ p ∉ ahead := by
  obtain ⟨time, hentry⟩ := mem_eventsIn.mp he
  obtain ⟨t, events, t', ht, ht', hstep, hmem, -⟩ :=
    (run_fromPass h hentry).step (by simp) (by simp)
  simp only at ht ht' hmem
  obtain ⟨queue, hserves⟩ := hstep.serves hrr (run_atHead cycle t ht).entered
  have hprefix := hserves.inserted p ahead hmem
  have hnodup := hserves.nodup.sublist hprefix.sublist
  refine ⟨⟨t, events, t', queue, ht, ht', hstep, hserves, hprefix⟩, ?_⟩
  intro hp
  exact (List.nodup_append.mp hnodup).2.2 p hp p (by simp) rfl

/-- A process that is put into the ready queue in pass `cycle` behind `ahead` is dispatched in pass
`cycle + ahead.length`, after those ahead of it in their order, one in each pass, and each of those
runs for one quantum. A process that is stopped was put behind all that became ready in the same
pass, and is not resumed in it. -/
theorem served_in_turn (hrr : cfg.scheduler = .rr) (hno : NobodyReady cfg workload)
    (h : (run cfg workload n).state? = some s) :
    (∀ cycle p ahead, .insert p ahead ∈ eventsIn s.trace cycle →
      p ∉ ahead ∧
      (∀ i d, (ahead ++ [p])[i]? = some d →
        ∃ s', run cfg workload (cycle + i + 1) = .next s' ∧ s'.currentProcess = some d ∧
          dispatches (eventsIn s'.trace (cycle + i)) = [d]) ∧
      ∀ i d, ahead[i]? = some d →
        ∃ s1 s2, run cfg workload (cycle + i + 1) = .next s1 ∧
          run cfg workload (cycle + i + 2) = .next s2 ∧
          (s2.procs d).serviceTimeLeft = (s1.procs d).serviceTimeLeft - cfg.quantum ∧
          (.stop d ∈ eventsIn s2.trace (cycle + i + 1) ∨
            ∃ r, .finished d r ∈ eventsIn s2.trace (cycle + i + 1))) ∧
    ∀ cycle p, .stop p ∈ eventsIn s.trace cycle →
      ∃ ahead before after,
        eventsIn s.trace cycle = before ++ .insert p ahead :: .stop p :: after ∧
        (∀ q ahead', .insert q ahead' ∈ eventsIn s.trace cycle → q = p ∨ q ∈ ahead) ∧
        p ∉ dispatches (eventsIn s.trace cycle) ∧ .cont p ∉ eventsIn s.trace cycle := by
  constructor
  · intro cycle p ahead he
    obtain ⟨hserves, hnot⟩ := passServes_of_insert hrr h he
    refine ⟨hnot, ?_, ?_⟩
    · intro i d hd
      obtain ⟨hi, hget⟩ := List.getElem?_eq_some_iff.mp hd
      have hpass := hserves.drop hrr hno hi
      rw [List.drop_eq_getElem_cons hi, hget] at hpass
      exact hpass.dispatched
    · intro i d hd
      obtain ⟨hi, hget⟩ := List.getElem?_eq_some_iff.mp hd
      have hi' : i < (ahead ++ [p]).length := by
        rw [List.length_append]
        omega
      have hpass := hserves.drop hrr hno hi'
      rw [List.drop_eq_getElem_cons hi', List.getElem_append_left hi, hget] at hpass
      apply hpass.one_quantum hrr hno
      rw [Ne, List.drop_eq_nil_iff, List.length_append, List.length_singleton]
      omega
  · intro cycle p he
    obtain ⟨time, hentry⟩ := mem_eventsIn.mp he
    obtain ⟨hlt, -⟩ := run_fromPass h hentry
    obtain ⟨t, events, t', ht, ht', hstep, hmem, -⟩ :=
      (run_fromPass h hentry).step (by simp) (by simp)
    simp only at ht ht' hmem hlt
    rw [run_eventsIn ht (Or.inl ⟨ht', hstep⟩) h hlt]
    exact hstep.stopped (run_atHead cycle t ht).entered hmem

/-- In a run that ends within `2 ^ 32` passes, only the first pass finds `num_cycles` 0. -/
theorem nobodyReady_of_done (hdone : run cfg workload n = .done s) (hn : n ≤ 2 ^ 32) :
    NobodyReady cfg workload := by
  intro m t ht h0
  have hmn : m < n := by
    by_contra hle
    cases (iterate_done_of_le (not_lt.mp hle) hdone).symm.trans ht
  obtain rfl : m = 0 := Nat.eq_zero_of_dvd_of_lt ((run_numCycles ht).mp h0) (hmn.trans_le hn)
  cases ht
  exact items_createReady

/-- Of two jobs that arrive together the second is put behind the first in pass 0 and runs in
pass 1. -/
theorem served_in_turn_twoJobs :
    ∃ s, run (sampleConfig .rr .infinite) twoJobs 2 = .next s ∧ s.currentProcess = some 1 ∧
      dispatches (eventsIn s.trace 1) = [1] := by
  have hdone : ∃ s : State, run (sampleConfig .rr .infinite) twoJobs 4 = .done s := ⟨_, rfl⟩
  obtain ⟨u, hu⟩ := hdone
  have hrun : ∃ s : State, (run (sampleConfig .rr .infinite) twoJobs 1).state? = some s ∧
      .insert 1 [0] ∈ eventsIn s.trace 0 := ⟨_, rfl, by decide⟩
  obtain ⟨s, hs, he⟩ := hrun
  exact ((served_in_turn rfl (nobodyReady_of_done hu (by omega)) hs).1 0 1 [0] he).2.1 1 1 rfl

/-- A job of one unit, and two that arrive together, in the last pass before `num_cycles` is 0
again. -/
def lastJobs : List Record := [⟨0, [80], 1, 1⟩, ⟨4294967295, [65], 5, 1⟩, ⟨4294967295, [66], 5, 1⟩]

/-- Two processes that arrive together enter an empty ready queue one behind the other. -/
theorem Admission.two_queued {pass pass' : Pass} {taken left : List ProcId}
    (h : Admission .infinite pass [p, q] taken left pass') (hempty : pass.ready = .list []) :
    .insert q [p] ∈ pass'.events ∧ pass'.ready.items = [p, q] := by
  cases h with
  | skip hb => cases hb
  | take _ hput hrest =>
    rw [hempty] at hput
    obtain rfl := Except.ok.inj hput
    cases hrest with
    | skip hb => cases hb
    | take _ hput' hrest' =>
      obtain rfl := Except.ok.inj hput'
      cases hrest'
      refine ⟨?_, rfl⟩
      simp only [Pass.take, List.mem_append, List.mem_cons]
      exact Or.inr (Or.inl rfl)

theorem State.Awaits.queues (hw : s.Awaits [p, q]) (h : AtHead cfg workload s)
    (hrr : cfg.scheduler = .rr) (hinf : cfg.memStrategy = .infinite)
    (hin : ∀ r ∈ [p, q], (s.procs r).arrivalTime ≤ s.simTime) (hs : Step cfg s events s') :
    .insert q [p] ∈ events ∧ s'.readyQueue.items = [q] := by
  have harrived : s.arrived = [p, q] := by
    rw [State.arrived, hw.processes, List.takeWhile_eq_self_iff]
    simpa using hin
  have hempty : s.readyQueue = .list [] := by
    have hready := h.ready
    have hnil := hw.ready
    cases hqueue : s.readyQueue with
    | heap heap =>
      rw [hqueue, hrr] at hready
      cases hready.1
    | list l =>
      rw [hqueue] at hnil
      exact congrArg ReadyQueue.list hnil
  cases hs with
  | @step s1 s2 s3 charged admitted driven hcharge _ hadmits hsched =>
    cases hcharge with
    | quantum hcur | finish hcur => simp [hw.current] at hcur
    | idle =>
      have hinv2 := hadmits.invariant h.toInvariant
      have hrun2 := hadmits.running.trans hw.running
      obtain ⟨hinsert, hitems⟩ : .insert q [p] ∈ admitted ∧ s2.readyQueue.items = [p, q] := by
        cases hadmits with
        | ofPass hpass =>
          rw [hw.input, harrived, hinf] at hpass
          obtain ⟨hinsert, hitems⟩ := hpass.two_queued hempty
          exact ⟨List.mem_append_right _ hinsert, hitems⟩
      refine ⟨List.mem_append_left _ (List.mem_append_right _ hinsert), ?_⟩
      cases hsched with
      | idle _ hnil => simp [hitems] at hnil
      | dispatch _ hnext =>
        obtain ⟨-, -, hlist, -⟩ := hinv2.ready.extract_ok hnext
        have hlist := hlist hrr
        rw [hitems] at hlist
        exact (List.cons.inj hlist).2.symm
      | resume hrun | preempt _ hrun => simp [hrun2] at hrun

/-- The job that is put behind another one in that pass is lost in the next. -/
theorem queued_job_lost : ¬ ∀ n s,
    (run (unitConfig .rr .infinite .uint32) lastJobs n).state? = some s →
      ∀ cycle p ahead, .insert p ahead ∈ eventsIn s.trace cycle →
        ∃ s',
          run (unitConfig .rr .infinite .uint32) lastJobs (cycle + ahead.length + 1) = .next s' ∧
          s'.currentProcess = some p := by
  intro hserved
  obtain ⟨s, hs, hw, htime⟩ : ∃ s, run (unitConfig .rr .infinite .uint32) lastJobs 2 = .next s ∧
      s.Awaits [1, 2] ∧ s.simTime = 1 * 2 := awaits_of_check (by decide +kernel)
  have hquantum : (unitConfig .rr .infinite .uint32).quantum = 1 := rfl
  have harrival : ∀ p ∈ [1, 2], (s.procs p).arrivalTime = 4294967295 := by
    intro p hp
    rw [((run_atHead 2 s hs).loaded p).arrivalTime]
    fin_cases hp <;> rfl
  obtain ⟨t, ht, hwt, htimet, hsame⟩ := run_awaits hs hw htime 4294967293 (by omega)
    (fun _ => by omega) fun p hp => by rw [harrival p hp, hquantum]
  have hhead := run_atHead _ t ht
  obtain ⟨events, t', hb, hstep⟩ := hhead.goes_on (fun hflag => by simp [hwt.idle] at hflag)
    (by simp [hwt.current])
  have hpass : run (unitConfig .rr .infinite .uint32) lastJobs (2 ^ 32) = .next t' :=
    (iterate_succ_of_next ht).trans hb
  have hlogged := eventsIn_new ht (Or.inl ⟨hpass, hstep⟩)
  rw [run_entered (by omega) ht] at hstep
  obtain ⟨hinsert, hready⟩ := hwt.queues hhead rfl rfl
    (fun p hp => by rw [hsame, harrival p hp, htimet, hquantum]) hstep
  obtain ⟨u, hu, hcur⟩ := hserved (2 ^ 32) t' (by rw [hpass]; rfl) _ 2 [1] (hlogged ▸ hinsert)
  have h0 : t'.numCycles = 0 := (run_numCycles hpass).mpr (dvd_refl _)
  obtain ⟨-, u', hu', hout, -⟩ := run_dropped hpass h0 (p := 2) (Or.inl (by simp [hready]))
  obtain rfl := run_unique hu hu'
  exact hout (by simp [State.members, (run_atHead _ u hu).running_some hcur])

end ProcessManager
