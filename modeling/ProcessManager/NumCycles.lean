import ProcessManager.Driving

/-! What the pass in which `num_cycles` is 0 again drops: the running process and the ready queue.
It is pass `2 ^ 32`, and one run gets there. -/
namespace ProcessManager

open Loop

variable {cfg : Config} {workload : List Record} {s s' : State} {p q : ProcId}
  {events : List Event} {m n left : ℕ} {ps : List ProcId}

/-- No pass before pass `m` that finds `num_cycles` 0 finds a process running. -/
def Undropped (cfg : Config) (workload : List Record) (m : ℕ) : Prop :=
  ∀ n < m, ∀ s, run cfg workload n = .next s → s.numCycles = 0 → s.currentProcess = none

theorem Undropped.mono (h : Undropped cfg workload n) (hmn : m ≤ n) : Undropped cfg workload m :=
  fun k hk => h k (hk.trans_le hmn)

theorem undropped_of_le (hm : m ≤ 2 ^ 32) : Undropped cfg workload m := by
  intro n hn s hs h0
  obtain rfl : n = 0 := Nat.eq_zero_of_dvd_of_lt ((run_numCycles hs).mp h0) (hn.trans_le hm)
  cases hs
  rfl

/-- Nor is anybody dropped in a run whose heads come before the wrap. -/
theorem undropped_of_counted (hcount : ∀ m s, m < n → run cfg workload m = .next s → m < 2 ^ 32) :
    Undropped cfg workload n :=
  fun m hm s hs h0 => undropped_of_le (hcount m s hm hs) m (Nat.lt_succ_self m) s hs h0

theorem undropped_succ : Undropped cfg workload (n + 1) ↔ Undropped cfg workload n ∧
    ∀ s, run cfg workload n = .next s → s.numCycles = 0 → s.currentProcess = none := by
  constructor
  · exact fun h => ⟨h.mono (Nat.le_succ n), h n (Nat.lt_succ_self n)⟩
  · rintro ⟨h, hlast⟩ k hk
    rcases Nat.lt_succ_iff_lt_or_eq.mp hk with hk | rfl
    · exact h k hk
    · exact hlast

/-- With nobody running, nobody is ready either. -/
theorem AtHead.spared (h : AtHead cfg workload s)
    (hspared : s.numCycles = 0 → s.currentProcess = none) :
    (s.entered cfg).readyQueue.items = s.readyQueue.items ∧
      (s.entered cfg).running = s.running := by
  by_cases h0 : s.numCycles = 0
  · have hcur := hspared h0
    have hready : s.readyQueue.items = [] := by
      by_contra hne
      exact h.busy hne hcur
    rw [State.entered_of_eq h0, hready, h.running, hcur]
    simp
  · rw [State.entered_of_ne h0]
    exact ⟨rfl, rfl⟩

theorem State.entered_currentProcess (hspared : s.numCycles = 0 → s.currentProcess = none) :
    (s.entered cfg).currentProcess = s.currentProcess := by
  by_cases h0 : s.numCycles = 0
  · rw [State.entered_of_eq h0, hspared h0]
    rfl
  · rw [State.entered_of_ne h0]

theorem AtHead.entered_complete (h : AtHead cfg workload s) (hall : s.Complete workload)
    (hspared : s.numCycles = 0 → s.currentProcess = none) :
    (s.entered cfg).Complete workload := by
  obtain ⟨hready, hrun⟩ := h.spared hspared
  rw [State.Complete, State.members, hready, hrun, State.processes_entered,
    State.inputQueue_entered, State.finishedQueue_entered]
  exact hall

theorem run_complete_next (h : Undropped cfg workload m) :
    ∀ n s, run cfg workload n = .next s → n ≤ m → s.Complete workload := by
  apply run_invariant
  case h0 => exact fun _ => initialState_complete cfg workload
  case hstep =>
    intro n s events s' hn _ hhead hall hs hlt
    have hentered := hhead.entered_complete (hall (Nat.le_of_succ_le hlt)) (h n hlt s hn)
    exact (hs.members hhead.entered).trans hentered

theorem run_complete (h : Undropped cfg workload n) (hs : (run cfg workload n).state? = some s) :
    s.Complete workload := by
  rcases run_state_cases hs with hrun | ⟨k, t, events, hkn, ht, -, hcharge, -⟩
  · exact run_complete_next h n s hrun le_rfl
  · have hall := run_complete_next h k t ht hkn.le
    exact (hcharge.members (run_atHead k t ht)).trans hall

/-- A step changes nobody outside the five places. -/
theorem Step.procs_outside (h : AtHead cfg workload s) (hs : Step cfg s events s')
    (hp : p ∉ s.members) : s'.procs p = s.procs p := by
  cases hs with
  | @step s1 s2 s3 charged admitted driven hcharge _ hadmits hsched =>
    have hinv1 := hcharge.invariant h
    have hinv2 := hadmits.invariant hinv1
    have hp1 : p ∉ s1.members := fun hin => hp ((hcharge.members h).subset hin)
    have hp2 : p ∉ s2.members := fun hin => hp1 ((hadmits.members hinv1).subset hin)
    have hcharged : s1.procs p = s.procs p := by
      have hother : ∀ q, s.currentProcess = some q → p ≠ q := by
        rintro q hcur rfl
        exact hp (by simp [State.members, h.running_some hcur])
      cases hcharge with
      | idle => rfl
      | quantum hcur => exact Function.update_of_ne (hother _ hcur) _ _
      | finish hcur _ hfree =>
        have hne := hother _ hcur
        simp only [State.procs_emit, State.procs_mk, deallocateMemory_procs hfree]
        split
        · exact (Function.update_of_ne hne _ _).trans (Function.update_of_ne hne _ _)
        · exact Function.update_of_ne hne _ _
    have hadmitted : s2.procs p = s1.procs p := by
      cases hadmits with
      | @ofPass pass taken left hpass =>
        refine hpass.procs_other fun htaken => hp1 ?_
        rcases List.mem_append.mp (hpass.taken_sublist.mem htaken) with hin | hin
        · simp [State.members, hin]
        · simp [State.members, (List.takeWhile_sublist _).mem hin]
    have hdriven : s3.procs p = s2.procs p := by
      have hother : ∀ q ∈ s2.readyQueue.items, p ≠ q := by
        rintro q hq rfl
        exact hp2 (by simp [State.members, hq])
      cases hsched with
      | idle | resume => rfl
      | @dispatch q ready _ hnext =>
        obtain ⟨-, hperm, -⟩ := hinv2.ready.extract_ok hnext
        exact Function.update_of_ne (hother q (hperm.mem_iff.mpr List.mem_cons_self)) _ _
      | @preempt q r queue ready _ hrun _ hput hnext =>
        obtain ⟨hqueue, hin, -⟩ := hinv2.ready.insert_ok hput
        obtain ⟨-, hout, -⟩ := hqueue.extract_ok hnext
        have hr : r ∈ q :: s2.readyQueue.items :=
          hin.mem_iff.mp (hout.mem_iff.mpr List.mem_cons_self)
        refine Function.update_of_ne ?_ _ _
        rcases List.mem_cons.mp hr with rfl | hr
        · rintro rfl
          exact hp2 (by simp [State.members, hrun])
        · exact hother r hr
    rw [State.procs_tick, hdriven, hadmitted, hcharged]

/-- Who runs or is ready is in no place of the state that such a pass goes on with. -/
theorem AtHead.live_outside (h : AtHead cfg workload s)
    (hp : p ∈ s.readyQueue.items ∨ p ∈ s.running) : p ∉ (s.restarted cfg).members := by
  rcases hp with hp | hp
  · obtain ⟨hprocesses, hinput, -, hfinished⟩ := h.ready_elsewhere hp
    simp [State.members, hprocesses, hinput, hfinished]
  · obtain ⟨hprocesses, hinput, -, hfinished⟩ := h.running_elsewhere hp
    simp [State.members, hprocesses, hinput, hfinished]

/-- A process that runs or is ready when `num_cycles` is 0 again is in no place after the pass, and
nothing is written to it. -/
theorem run_dropped (hn : run cfg workload n = .next s) (h0 : s.numCycles = 0)
    (hp : p ∈ s.readyQueue.items ∨ p ∈ s.running) : p < workload.length ∧ ∃ s',
      run cfg workload (n + 1) = .next s' ∧ p ∉ s'.members ∧ s'.procs p = s.procs p := by
  have hhead := run_atHead n s hn
  refine ⟨hp.elim hhead.lt_of_ready hhead.lt_of_running, ?_⟩
  obtain ⟨events, s', hok, hstep⟩ := firstCycle_step hhead
  have hout := hhead.live_outside hp
  have hkept : s'.procs p = (s.restarted cfg).procs p := hstep.procs_outside hhead.restarted hout
  refine ⟨s', ?_, fun hin => hout ((hstep.members hhead.restarted).subset hin), hkept⟩
  rw [run, iterate_succ_of_next hn, cycleBody, if_pos h0, hok]
  rfl

theorem run_dropped_current (hn : run cfg workload n = .next s) (h0 : s.numCycles = 0)
    (hcur : s.currentProcess = some p) : p < workload.length ∧ ∃ s',
      run cfg workload (n + 1) = .next s' ∧ p ∉ s'.members ∧ s'.procs p = s.procs p :=
  run_dropped hn h0 (Or.inr (by simp [(run_atHead n s hn).running_some hcur]))

/-- A pass that leaves the loop charges the last quantum, and one that drives NULL has the flag
cleared over it; any other goes on. -/
theorem AtHead.goes_on (h : AtHead cfg workload s) (hagree : s.Agree)
    (hmore : ∀ q, s.currentProcess = some q → cfg.quantum < (s.procs q).serviceTimeLeft) :
    ∃ events s', cycleBody cfg s = .next s' ∧ Step cfg (s.entered cfg) events s' := by
  rcases cycleBody_cases h with hnext | ⟨events, s', -, -, hcharge, hne, -⟩ | ⟨hfault, -⟩
  · exact hnext
  · exfalso
    cases hcharge with
    | idle | quantum => exact hne rfl
    | finish hcur hleft => exact absurd (hmore _ hcur) (not_lt.mpr hleft)
  · exact absurd hagree ((cycleBody_fault h).mp hfault).2.2

/-- The processor is idle, and those of `ps` are still to arrive. -/
structure State.Awaits (s : State) (ps : List ProcId) : Prop where
  current : s.currentProcess = none
  idle : s.noProcessRunning = true
  processes : s.processes = ps
  input : s.inputQueue = []
  ready : s.readyQueue.items = []
  fresh : ∀ p ∈ ps, (s.procs p).serviceTimeLeft = (s.procs p).serviceTime

/-- `p` runs, and nobody else waits for anything. -/
structure State.Solo (s : State) (p : ProcId) (left : ℕ) : Prop where
  current : s.currentProcess = some p
  timeLeft : (s.procs p).serviceTimeLeft = left
  processes : s.processes = []
  input : s.inputQueue = []
  ready : s.readyQueue.items = []

theorem State.Awaits.running (h : s.Awaits ps) : s.running = [] := by simp [State.running, h.idle]

theorem Schedule.of_idle (h : Invariant cfg workload s) (hs : Schedule cfg s events s')
    (hrun : s.running = []) (hempty : s.readyQueue.items = []) :
    s' = { s with currentProcess := none } := by
  cases hs with
  | idle => rfl
  | dispatch _ hnext =>
    obtain ⟨-, hperm, -⟩ := h.ready.extract_ok hnext
    simp [hempty] at hperm
  | resume hrun' | preempt _ hrun' => simp [hrun] at hrun'

theorem Schedule.of_alone (hs : Schedule cfg s events s') (hrun : s.running = [p])
    (hempty : s.readyQueue.items = []) : s' = s.emit [.cont p] := by
  cases hs with
  | idle hrun' | dispatch hrun' => simp [hrun'] at hrun
  | resume hrun' =>
    obtain rfl := List.singleton_inj.mp (hrun.symm.trans hrun')
    rfl
  | preempt _ _ hne => exact absurd hempty hne

/-- Before anybody arrives, nothing happens. -/
theorem State.Awaits.waits (hw : s.Awaits ps) (h : AtHead cfg workload s)
    (hlate : ∀ p ∈ ps, s.simTime < (s.procs p).arrivalTime) (hs : Step cfg s events s') :
    s'.Awaits ps ∧ s'.procs = s.procs := by
  have harrived : s.arrived = [] := by
    rw [State.arrived, hw.processes, List.takeWhile_eq_nil_iff]
    intro hpos
    simpa using hlate _ (List.getElem_mem hpos)
  have hstay : s.unarrived = ps := by
    have hsplit := s.arrived_append_unarrived
    rwa [harrived, List.nil_append, hw.processes] at hsplit
  cases hs with
  | step hcharge _ hadmits hsched =>
    cases hcharge with
    | quantum hcur | finish hcur => simp [hw.current] at hcur
    | idle =>
      have hinv2 := hadmits.invariant h.toInvariant
      cases hadmits with
      | @ofPass pass taken left hpass =>
        rw [hw.input, harrived] at hpass
        cases hpass with
        | nil =>
          obtain rfl := hsched.of_idle hinv2 hw.running hw.ready
          exact ⟨⟨rfl, hw.idle, hstay, rfl, hw.ready, hw.fresh⟩, rfl⟩

/-- `p` arrives, finds its memory and is dispatched. -/
theorem State.Awaits.arrives (hw : s.Awaits [p]) (h : AtHead cfg workload s)
    (hroom : s.HasRoom cfg) (hin : (s.procs p).arrivalTime ≤ s.simTime)
    (hs : Step cfg s events s') : s'.Solo p (s.procs p).serviceTime := by
  have harrived : s.arrived = [p] := by simp [State.arrived, hw.processes, hin]
  have hgone : s.unarrived = [] := by simp [State.unarrived, hw.processes, hin]
  have hleft := hs.timeLeft p
  rw [hw.current, if_neg (by simp), Nat.sub_zero, hw.fresh p (by simp)] at hleft
  cases hs with
  | @step s1 s2 s3 charged admitted driven hcharge _ hadmits hsched =>
    cases hcharge with
    | quantum hcur | finish hcur => simp [hw.current] at hcur
    | idle =>
      have hinv2 := hadmits.invariant h.toInvariant
      have hne := (hadmits.ready_iff_room h.toInvariant hw.ready).mpr hroom
      have hrun2 := hadmits.running.trans hw.running
      obtain ⟨hitems, hinput, hprocesses⟩ : s2.readyQueue.items = [p] ∧ s2.inputQueue = [] ∧
          s2.processes = [] := by
        cases hadmits with
        | @ofPass pass taken left hpass =>
          obtain ⟨-, hperm, -⟩ := hpass.ready h.ready
          have hboth := hpass.perm.length_eq
          have htaken := hpass.taken_sublist
          rw [hw.ready, List.nil_append] at hperm
          rw [hw.input, harrived, List.nil_append] at hboth htaken
          rcases List.sublist_singleton.mp htaken with rfl | rfl
          · exact absurd (List.perm_nil.mp hperm) hne
          · exact ⟨List.perm_singleton.mp hperm, by simpa using hboth, hgone⟩
      cases hsched with
      | idle _ hempty => simp [hitems] at hempty
      | @dispatch q ready _ hnext =>
        obtain ⟨-, hperm, -⟩ := hinv2.ready.extract_ok hnext
        obtain ⟨rfl, hnil⟩ := List.cons.inj (List.singleton_perm.mp (hitems ▸ hperm))
        exact ⟨rfl, hleft, hprocesses, hinput, hnil.symm⟩
      | resume hrun | preempt _ hrun => simp [hrun2] at hrun

/-- While it has more than a quantum left, `p` goes on alone. -/
theorem State.Solo.continues (hp : s.Solo p left) (h : AtHead cfg workload s)
    (hmore : cfg.quantum < left) (hs : Step cfg s events s') :
    s'.Solo p (left - cfg.quantum) := by
  have hleft := hs.timeLeft p
  rw [if_pos hp.current, hp.timeLeft] at hleft
  cases hs with
  | @step s1 s2 s3 charged admitted driven hcharge _ hadmits hsched =>
    cases hcharge with
    | idle hcur => simp [hp.current] at hcur
    | finish hcur hlast =>
      obtain rfl := Option.some.inj (hp.current.symm.trans hcur)
      rw [hp.timeLeft] at hlast
      omega
    | @quantum q hcur _ =>
      have hrun2 := hadmits.running.trans (h.running_some hp.current)
      cases hadmits with
      | @ofPass pass taken left' hpass =>
        simp only [State.arrived, State.setProcs_inputQueue, State.setProcs_processes, hp.input,
          hp.processes, List.takeWhile_nil, List.append_nil] at hpass
        cases hpass with
        | nil =>
          obtain rfl := hsched.of_alone hrun2 hp.ready
          refine ⟨hp.current, hleft, ?_, rfl, hp.ready⟩
          simp [State.unarrived, hp.processes]

theorem run_awaits {k : ℕ} (hk : run cfg workload k = .next s) (hw : s.Awaits ps)
    (htime : s.simTime = cfg.quantum * k) (i : ℕ) (hcount : k + i ≤ 2 ^ 32)
    (hwrap : cfg.clock = .uint32 → cfg.quantum * (k + i) < 2 ^ 32)
    (hlate : ∀ p ∈ ps, cfg.quantum * (k + i) ≤ (s.procs p).arrivalTime) :
    ∃ t, run cfg workload (k + i) = .next t ∧ t.Awaits ps ∧ t.simTime = cfg.quantum * (k + i) ∧
      t.procs = s.procs := by
  induction i with
  | zero => exact ⟨s, hk, hw, htime, rfl⟩
  | succ i ih =>
    have hpos := cfg.quantum_pos
    have hlt : cfg.quantum * (k + i) < cfg.quantum * (k + (i + 1)) :=
      Nat.mul_lt_mul_of_pos_left (Nat.lt_succ_self _) hpos
    obtain ⟨t, ht, hwt, htimet, hsame⟩ := ih (by omega) (fun hclock => hlt.trans (hwrap hclock))
      (fun p hp => hlt.le.trans (hlate p hp))
    have hhead := run_atHead _ t ht
    obtain ⟨events, t', hb, hstep⟩ := hhead.goes_on (fun hflag => by simp [hwt.idle] at hflag)
      (by simp [hwt.current])
    rw [run_entered (by omega) ht] at hstep
    have hearly : ∀ p ∈ ps, t.simTime < (t.procs p).arrivalTime := by
      intro p hp
      rw [htimet, hsame]
      exact hlt.trans_le (hlate p hp)
    obtain ⟨hwt', hsame'⟩ := hwt.waits hhead hearly hstep
    refine ⟨t', (iterate_succ_of_next ht).trans hb, hwt', ?_, hsame'.trans hsame⟩
    have hsum : ((t.simTime : ℤ) + cfg.quantum) = ((cfg.quantum * (k + (i + 1)) : ℕ) : ℤ) := by
      rw [htimet]
      push_cast
      ring
    rw [hstep.clock.2.1, hsum, Clock.wrap_natCast hwrap]

theorem run_solo {k : ℕ} (hk : run cfg workload k = .next s) (hp : s.Solo p left) (i : ℕ)
    (hcount : k + i ≤ 2 ^ 32) (hmore : cfg.quantum * i < left) :
    ∃ t, run cfg workload (k + i) = .next t ∧ t.Solo p (left - cfg.quantum * i) := by
  induction i with
  | zero => exact ⟨s, hk, hp⟩
  | succ i ih =>
    rw [Nat.mul_succ] at hmore ⊢
    obtain ⟨t, ht, hpt⟩ := ih (by omega) (by omega)
    have hhead := run_atHead _ t ht
    have hleft : ∀ q, t.currentProcess = some q → cfg.quantum < (t.procs q).serviceTimeLeft := by
      intro q hq
      obtain rfl := Option.some.inj (hpt.current.symm.trans hq)
      rw [hpt.timeLeft]
      omega
    obtain ⟨events, t', hb, hstep⟩ := hhead.goes_on (fun _ => by simp [hpt.current]) hleft
    rw [run_entered (by omega) ht] at hstep
    have hsolo := hpt.continues hhead (by omega) hstep
    rw [Nat.sub_sub] at hsolo
    exact ⟨t', (iterate_succ_of_next ht).trans hb, hsolo⟩

/-- Quantum 1. -/
def unitConfig (scheduler : Scheduler) (strategy : MemStrategy) (clock : Clock) : Config :=
  { sampleConfig scheduler strategy with
    quantum := 1
    quantum_pos := by decide
    quantum_int := by decide
    clock := clock }

/-- A job of one unit, and one of 20 units that arrives six passes before `num_cycles` is 0
again. -/
def lateJobs : List Record := [⟨0, [80], 1, 1⟩, ⟨4294967290, [80, 48], 20, 1⟩]

/-- What a state of a run awaits can be looked up while not everybody has finished. -/
theorem awaits_of_check (hchecked : (run cfg workload n).state?.any (fun s =>
      s.currentProcess = none ∧ s.noProcessRunning = true ∧ s.processes = ps ∧
        s.inputQueue = [] ∧ s.readyQueue.items = [] ∧ s.finishedQueue.length ≠ s.numProcesses ∧
        s.simTime = cfg.quantum * n ∧
        ∀ p ∈ ps, (s.procs p).serviceTimeLeft = (s.procs p).serviceTime) = true) :
    ∃ s, run cfg workload n = .next s ∧ s.Awaits ps ∧ s.simTime = cfg.quantum * n := by
  obtain ⟨s, hs, hdecided⟩ := (Option.any_eq_true _ _).mp hchecked
  obtain ⟨hcur, hidle, hprocesses, hinput, hready, hmore, htime, hfresh⟩ :=
    of_decide_eq_true hdecided
  rcases run_state_cases hs with hrun | ⟨_, _, _, -, -, -, -, -, hend⟩
  · exact ⟨s, hrun, ⟨hcur, hidle, hprocesses, hinput, hready, hfresh⟩, htime⟩
  · exact absurd hend hmore

/-- The second job is running when `num_cycles` is 0 again. -/
theorem lateJobs_running (strategy : MemStrategy) (clock : Clock) :
    ∃ s, run (unitConfig .sjf strategy clock) lateJobs (2 ^ 32) = .next s ∧ s.numCycles = 0 ∧
      s.currentProcess = some 1 := by
  obtain ⟨s, hs, hw, htime⟩ : ∃ s, run (unitConfig .sjf strategy clock) lateJobs 2 = .next s ∧
      s.Awaits [1] ∧ s.simTime = 1 * 2 := by
    apply awaits_of_check
    cases strategy <;> cases clock <;> decide +kernel
  have harrival : (s.procs 1).arrivalTime = 4294967290 :=
    ((run_atHead 2 s hs).loaded 1).arrivalTime
  have hquantum : (unitConfig .sjf strategy clock).quantum = 1 := rfl
  obtain ⟨t, ht, hwt, htimet, hsame⟩ := run_awaits hs hw htime 4294967288 (by omega)
    (fun _ => by omega) (by simp [harrival, hquantum])
  have hhead := run_atHead _ t ht
  have hin : (t.procs 1).arrivalTime ≤ t.simTime := by
    rw [hsame, harrival, htimet]
    omega
  obtain ⟨events, t', hb, hstep⟩ := hhead.goes_on (fun hflag => by simp [hwt.idle] at hflag)
    (by simp [hwt.current])
  rw [run_entered (by omega) ht] at hstep
  have hroom : t.HasRoom (unitConfig .sjf strategy clock) := by
    refine hhead.hasRoom (run_complete_next (undropped_of_le le_rfl) _ t ht (by omega))
      (fun hb => run_tiled (by simp [Positive, lateJobs]) hb _ t ht) hwt.ready hwt.running
      (p := 1) ?_ fun _ => ?_
    · simp [State.arrived, hwt.processes, hin]
    · rw [(hhead.loaded 1).memRequirement]
      decide
  have hsolo := hwt.arrives hhead hroom hin hstep
  have hservice : (t.procs 1).serviceTime = 20 := (hhead.loaded 1).serviceTime
  rw [hservice] at hsolo
  obtain ⟨u, hu, hpu⟩ := run_solo ((iterate_succ_of_next ht).trans hb) hsolo 5 (by omega)
    (by omega)
  exact ⟨u, hu, (run_numCycles hu).mpr (by decide), hpu.current⟩

end ProcessManager
