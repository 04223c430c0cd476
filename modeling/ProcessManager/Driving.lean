import ProcessManager.CycleMemory

/-! When `no_process_running` and `current_process` agree. A pass with `num_cycles` 0 clears the flag
without looking at what `run_next_process` returned. -/
namespace ProcessManager

open Loop

variable {cfg cfg' : Config} {workload workload' : List Record} {s s' s2 t : State} {p : ProcId}
  {events : List Event} {n : ℕ} {first : Record} {rest : List Record}

/-- The flag says that a process runs only if there is one. -/
def State.Agree (s : State) : Prop := s.noProcessRunning = false → s.currentProcess ≠ none

/-- A process is dispatched in the first pass. -/
def Starts (cfg : Config) (workload : List Record) : Prop :=
  ∃ s, run cfg workload 1 = .next s ∧ s.currentProcess ≠ none

/-- A process that waits, or that arrives now, finds its memory. -/
def State.HasRoom (cfg : Config) (s : State) : Prop :=
  ∃ p ∈ s.inputQueue ++ s.arrived, cfg.memStrategy = .bestFit →
    ∃ node ∈ s.store.holes, (s.procs p).memRequirement ≤ s.store.getSize node

/-- Every pass before pass `m` that finds `num_cycles` 0 finds a process it can dispatch. -/
def Dispatches (cfg : Config) (workload : List Record) (m : ℕ) : Prop :=
  ∀ n < m, ∀ s, run cfg workload n = .next s → s.numCycles = 0 → s.HasRoom cfg

theorem Charge.agree (hc : Charge cfg s events s') (h : s.Agree) : s'.Agree := by
  cases hc with
  | idle => exact h
  | quantum => exact h
  | finish =>
    intro hidle
    simp at hidle

theorem Admit.agree (ha : Admit cfg s events s') (h : s.Agree) : s'.Agree := by
  cases ha
  exact h

theorem Schedule.agree (hs : Schedule cfg s events s') (h : s.Agree) : s'.Agree := by
  cases hs with
  | idle hrun =>
    intro hidle
    have hflag : s.noProcessRunning = false := hidle
    obtain ⟨p, hcur⟩ := Option.ne_none_iff_exists'.mp (h hflag)
    simp [State.running, hflag, hcur] at hrun
  | resume => exact h
  | dispatch | preempt =>
    intro _
    simp

theorem Step.agree (hs : Step cfg s events s') (h : s.Agree) : s'.Agree := by
  cases hs with
  | step hcharge _ hadmits hsched => exact hsched.agree (hadmits.agree (hcharge.agree h))

theorem Admission.taken_eq_nil {strategy : MemStrategy} {pass pass' : Pass}
    {input taken left : List ProcId} (h : Admission strategy pass input taken left pass')
    (hsmall : ∀ p ∈ input, strategy = .bestFit ∧
      ∀ node ∈ pass.store.holes, pass.store.getSize node < (pass.store.procs p).memRequirement) :
    taken = [] := by
  induction h with
  | nil => rfl
  | skip _ _ _ ih => exact ih fun q hq => hsmall q (List.mem_cons_of_mem _ hq)
  | take htake =>
    obtain ⟨hb, hholes⟩ := hsmall _ List.mem_cons_self
    cases htake with
    | infinite => simp at hb
    | bestFit hplace => exact absurd (hholes _ hplace.node_hole) (not_lt.mpr hplace.fits)

/-- Where nobody was ready, the pass makes somebody ready if there is room for anybody. -/
theorem Admit.ready_iff_room (h : Invariant cfg workload s) (hempty : s.readyQueue.items = [])
    (ha : Admit cfg s events s') : s'.readyQueue.items ≠ [] ↔ s.HasRoom cfg := by
  cases ha with
  | @ofPass pass taken left hpass =>
    obtain ⟨-, hperm, -⟩ := hpass.ready h.ready
    have hready : pass.ready.items = [] ↔ taken = [] := by
      rw [← List.perm_nil, ← List.perm_nil]
      rw [hempty, List.nil_append] at hperm
      exact ⟨hperm.symm.trans, hperm.trans⟩
    simp only [State.emit_readyQueue, Ne, hready]
    constructor
    · intro hne
      by_contra hnone
      refine hne (hpass.taken_eq_nil fun p hp => ?_)
      by_contra hnot
      refine hnone ⟨p, hp, fun hb => ?_⟩
      by_contra hholes
      exact hnot ⟨hb, fun node hnode => not_le.mp fun hle => hholes ⟨node, hnode, hle⟩⟩
    · rintro ⟨p, hp, hroom⟩ hnone
      obtain ⟨hb, hsmall⟩ := (hpass.none_taken hnone).2 p hp
      obtain ⟨node, hnode, hle⟩ := hroom hb
      exact absurd (hsmall node hnode) (not_lt.mpr hle)

/-- When nobody is ready or running, there is room for a process that fits into the capacity. -/
theorem Invariant.hasRoom (h : Invariant cfg workload s) (hall : s.Complete workload)
    (ht : cfg.memStrategy = .bestFit → s.store.Tiled) (hready : s.readyQueue.items = [])
    (hrun : s.running = []) (hp : p ∈ s.inputQueue ++ s.arrived)
    (hfits : cfg.memStrategy = .bestFit → (s.procs p).memRequirement ≤ memCapacity) :
    s.HasRoom cfg := by
  refine ⟨p, hp, fun hb => ?_⟩
  have hfree : ∀ q, (s.store.procs q).blockNode = none := by
    intro q
    by_contra hne
    have hheld := (h.allocated hall hb q).mp hne
    simp [hready, hrun] at hheld
  obtain ⟨node, -, hholes, hsize⟩ := Store.single_hole (h.indexed hb) (ht hb) hfree
  exact ⟨node, by simp [hholes], (hfits hb).trans_eq hsize.symm⟩

/-- When nothing is running and a waiting process fits into the capacity, the pass leaves a process
ready. -/
theorem Admit.ready_of_waiting (h : Invariant cfg workload s) (hall : s.Complete workload)
    (ht : cfg.memStrategy = .bestFit → s.store.Tiled) (ha : Admit cfg s events s')
    (hrun : s.running = []) (hp : p ∈ s.inputQueue ++ s.arrived)
    (hfits : cfg.memStrategy = .bestFit → (s.procs p).memRequirement ≤ memCapacity) :
    s'.readyQueue.items ≠ [] := by
  by_cases hready : s.readyQueue.items = []
  · exact (ha.ready_iff_room h hready).mpr (h.hasRoom hall ht hready hrun hp hfits)
  · intro hempty
    cases ha with
    | @ofPass pass taken left hpass =>
      obtain ⟨-, hperm, -⟩ := hpass.ready h.ready
      have hnil : pass.ready.items = [] := hempty
      rw [hnil, List.nil_perm] at hperm
      exact hready (List.append_eq_nil_iff.mp hperm).1

/-- A pass with `num_cycles` 0 clears the flag, whether it dispatches a process or not. -/
theorem Step.restarted_dispatch (h : AtHead cfg workload s)
    (hs : Step cfg (s.restarted cfg) events s') :
    (s'.currentProcess ≠ none ↔ s.HasRoom cfg) ∧ s'.noProcessRunning = false := by
  cases hs with
  | @step s1 s2 s3 charged admitted driven hcharge _ hadmits hsched =>
    cases hcharge with
    | quantum hcur | finish hcur => simp at hcur
    | idle =>
      have hrunning : s2.running = [] := hadmits.running
      have hflag : s2.noProcessRunning = false := by
        cases hadmits
        rfl
      have hroom := hadmits.ready_iff_room h.restarted.toInvariant (by simp)
      have hsame : (s.restarted cfg).HasRoom cfg ↔ s.HasRoom cfg := Iff.rfl
      rw [← hsame, ← hroom]
      cases hsched with
      | idle _ hempty => simp [hempty, hflag]
      | dispatch _ hnext =>
        obtain ⟨-, hperm, -⟩ := (hadmits.invariant h.restarted.toInvariant).ready.extract_ok hnext
        refine ⟨⟨fun _ hnil => ?_, fun _ => by simp⟩, rfl⟩
        rw [hnil] at hperm
        simp at hperm
      | resume hrun | preempt _ hrun => simp [hrunning] at hrun

theorem initialState_numCycles (cfg : Config) (workload : List Record) :
    (initialState cfg workload).numCycles = 0 :=
  (State.numCycles_eq_zero _).mpr (dvd_zero _)

theorem first_pass (cfg : Config) (workload : List Record) :
    ∃ events s', run cfg workload 1 = .next s' ∧
      Step cfg ((initialState cfg workload).restarted cfg) events s' := by
  obtain ⟨events, s', hok, hstep⟩ := firstCycle_step (initialState_atHead cfg workload)
  refine ⟨events, s', ?_, hstep⟩
  rw [run, iterate_succ_of_next iterate_zero, cycleBody, if_pos (initialState_numCycles ..), hok]
  rfl

theorem starts_iff_room (cfg : Config) (workload : List Record) :
    Starts cfg workload ↔ (initialState cfg workload).HasRoom cfg := by
  obtain ⟨events, s, hs, hstep⟩ := first_pass cfg workload
  rw [← (hstep.restarted_dispatch (initialState_atHead cfg workload)).1]
  constructor
  · rintro ⟨t, ht, hcur⟩
    rwa [run_unique hs ht]
  · exact fun hcur => ⟨s, hs, hcur⟩

/-- While `num_cycles` counts the passes, only the first one finds it 0. -/
theorem Starts.dispatches (h : Starts cfg workload) : Dispatches cfg workload (2 ^ 32) := by
  intro n hn s hs h0
  obtain rfl : n = 0 := Nat.eq_zero_of_dvd_of_lt ((run_numCycles hs).mp h0) hn
  cases hs
  exact (starts_iff_room cfg workload).mp h

theorem run_agree {m : ℕ} (hroom : Dispatches cfg workload m) :
    ∀ n s, run cfg workload n = .next s → n ≤ m → 1 ≤ n → s.Agree := by
  apply run_invariant
  case h0 =>
    intro _ h
    omega
  case hstep =>
    intro n s events s' hn _ hhead h hs hlt _
    by_cases h0 : s.numCycles = 0
    · rw [State.entered_of_eq h0] at hs
      exact fun _ => (hs.restarted_dispatch hhead).1.mpr (hroom n hlt s hn h0)
    · rw [State.entered_of_ne h0] at hs
      have hpos : n ≠ 0 := by
        rintro rfl
        exact h0 ((run_numCycles hn).mpr (dvd_zero _))
      exact hs.agree (h (Nat.le_of_succ_le hlt) (Nat.pos_of_ne_zero hpos))

theorem atSchedule_idle (h : AtHead cfg workload s) (h0 : s.numCycles ≠ 0)
    (hidle : s.noProcessRunning = false) (hcur : s.currentProcess = none) :
    ∃ s2, AtSchedule cfg s s2 ∧ s2.noProcessRunning = false ∧ s2.currentProcess = none := by
  obtain ⟨charged, s1, hcharged, hcharge⟩ := chargeQuantum_charge h
  obtain ⟨admitted, s2, hadmitted, hadmits⟩ := admitInput_admit (hcharge.invariant h)
  refine ⟨s2, ⟨h0, s1, _, hcharged, ?_, hadmitted⟩, ?_⟩
  · cases hcharge with
    | idle => simp
    | quantum hcur' | finish hcur' => simp [hcur] at hcur'
  · cases hcharge with
    | idle =>
      cases hadmits
      exact ⟨hidle, hcur⟩
    | quantum hcur' | finish hcur' => simp [hcur] at hcur'

/-- A pass drives NULL exactly from a cleared flag over a NULL process. -/
theorem cycleBody_fault (h : AtHead cfg workload s) {e : Fault} :
    cycleBody cfg s = .fault e ↔ e = .nullProcess ∧ s.numCycles ≠ 0 ∧ ¬ s.Agree := by
  constructor
  · intro hb
    rcases cycleBody_cases h with ⟨_, t, ht, _⟩ | ⟨_, t, ht, _⟩ | ⟨ht, s2, hat, hidle, hcur⟩
    · cases hb.symm.trans ht
    · cases hb.symm.trans ht
    · cases hb.symm.trans ht
      obtain ⟨charged, s1, admitted, hcharge, -, hadmits⟩ := hat.parts h
      refine ⟨rfl, hat.1, fun hagree => ?_⟩
      exact hadmits.agree (hcharge.agree hagree) hidle hcur
  · rintro ⟨rfl, h0, hnot⟩
    obtain ⟨hflag, hnull⟩ := Classical.not_imp.mp hnot
    obtain ⟨s2, hat, hidle, hcur⟩ := atSchedule_idle h h0 hflag (not_not.mp hnull)
    rw [hat.body, schedule_null hidle hcur]
    rfl

theorem run_fault {m : ℕ} (hroom : Dispatches cfg workload m) (hn : n ≤ m + 1) (e : Fault) :
    run cfg workload n ≠ .fault e := by
  intro hfault
  obtain ⟨k, s, hkn, hs, hb⟩ := iterate_fault_origin hfault
  obtain ⟨-, h0, hnot⟩ := (cycleBody_fault (run_atHead k s hs)).mp hb
  have hpos : k ≠ 0 := by
    rintro rfl
    exact h0 ((run_numCycles hs).mpr (dvd_zero _))
  exact hnot (run_agree hroom k s hs (by omega) (Nat.pos_of_ne_zero hpos))

/-- While `num_cycles` counts the passes, a run that starts with a process drives no NULL. -/
theorem run_never_faults (hstarts : Starts cfg workload) (hn : n ≤ 2 ^ 32 + 1) (e : Fault) :
    run cfg workload n ≠ .fault e := run_fault hstarts.dispatches hn e

/-- Two states with one `num_cycles` and one flag, whose charges keep a relation and leave the loop
together, and whose full passes keep the relation, stay related through a pass. -/
theorem cycleBody_related {R : State → State → Prop} (h : AtHead cfg workload s)
    (h' : AtHead cfg' workload' t) (hcycles : t.numCycles = s.numCycles)
    (hagree : t.Agree ↔ s.Agree)
    (hcharge : ∀ {events events' : List Event} {s' t' : State}, Charge cfg s events s' →
      Charge cfg' t events' t' → (events' = [] ↔ events = []) ∧
        (t'.finishedQueue.length = t'.numProcesses ↔ s'.finishedQueue.length = s'.numProcesses) ∧
        R s' t')
    (hstep : ∀ {events events' : List Event} {s' t' : State}, Step cfg (s.entered cfg) events s' →
      Step cfg' (t.entered cfg') events' t' → R s' t') :
    Outcome.Rel R (cycleBody cfg s) (cycleBody cfg' t) := by
  have hfault : cycleBody cfg s = .fault .nullProcess ↔
      cycleBody cfg' t = .fault .nullProcess := by
    rw [cycleBody_fault h, cycleBody_fault h', hcycles, hagree]
  rcases cycleBody_cases h with ⟨events, s', hok, hs⟩ | ⟨events, s', hok, h0, hs, hne, hlast⟩ |
    ⟨hok, -⟩
  · rcases cycleBody_cases h' with ⟨events', t', hok', ht⟩ |
      ⟨events', t', -, h0', ht, hne', hlast'⟩ | ⟨hok', -⟩
    · rw [hok, hok']
      exact .next (hstep hs ht)
    · exfalso
      rw [State.entered_of_ne (hcycles ▸ h0')] at hs
      cases hs with
      | step hs hmore =>
        obtain ⟨hsame, hboth, -⟩ := hcharge hs ht
        exact hmore (mt hsame.mpr hne') (hboth.mp hlast')
    · cases hok.symm.trans (hfault.mpr hok')
  · rcases cycleBody_cases h' with ⟨events', t', -, ht⟩ | ⟨events', t', hok', -, ht, -⟩ |
      ⟨hok', -⟩
    · exfalso
      rw [State.entered_of_ne (hcycles.trans_ne h0)] at ht
      cases ht with
      | step ht hmore' =>
        obtain ⟨hsame, hboth, -⟩ := hcharge hs ht
        exact hmore' (mt hsame.mp hne) (hboth.mpr hlast)
    · rw [hok, hok']
      exact .done (hcharge hs ht).2.2
    · cases hok.symm.trans (hfault.mpr hok')
  · rw [hok, hfault.mp hok]
    exact .fault _

/-- A process that is there at time 0 and fits into memory starts the run. -/
theorem starts_of_arrived (hp : p ∈ (initialState cfg workload).arrived)
    (hfits : cfg.memStrategy = .bestFit →
      (loadedProcs workload p).memRequirement ≤ memCapacity) : Starts cfg workload := by
  rw [starts_iff_room]
  refine ⟨p, List.mem_append_right _ hp, fun hb => ?_⟩
  exact ⟨0, by simp [initialState, initialiseMemory], hfits hb⟩

theorem first_arrived (h : first.arrivalTime = 0) :
    0 ∈ (initialState cfg (first :: rest)).arrived := by
  have h0 : (loadedProcs (first :: rest) 0).arrivalTime = 0 := by
    simp [loadedProcs, createProcess, h]
  simp [State.arrived, initialState, List.range_succ_eq_map, State.procs, initialiseMemory, h0]

theorem none_arrived (h : first.arrivalTime ≠ 0) :
    (initialState cfg (first :: rest)).arrived = [] := by
  have h0 : (loadedProcs (first :: rest) 0).arrivalTime ≠ 0 := by
    intro h0
    apply h
    apply UInt32.toNat_inj.mp
    simpa [loadedProcs, createProcess] using h0
  simp [State.arrived, initialState, List.range_succ_eq_map, State.procs, initialiseMemory, h0]

/-- With room for everybody, the first pass dispatches a process exactly if one is there. -/
theorem starts_iff_first (cfg : Config) (rest : List Record) (hfits : first.memRequirement ≤ 2048) :
    Starts cfg (first :: rest) ↔ first.arrivalTime = 0 := by
  constructor
  · rw [starts_iff_room]
    rintro ⟨p, hp, -⟩
    by_contra hlate
    rw [none_arrived hlate] at hp
    simp [initialState] at hp
  · intro harrival
    apply starts_of_arrived (first_arrived harrival)
    intro _
    simpa [loadedProcs, createProcess, memCapacity] using hfits

/-- A pass that finds `num_cycles` 0 and nobody to dispatch makes the next one drive NULL. -/
theorem undispatched_faults (hn : run cfg workload n = .next s) (h0 : s.numCycles = 0)
    (hnone : ¬ s.HasRoom cfg) : ∃ s' s2, run cfg workload (n + 1) = .next s' ∧
      AtSchedule cfg s' s2 ∧ s2.noProcessRunning = false ∧ s2.currentProcess = none ∧
      run cfg workload (n + 2) = .fault .nullProcess := by
  have hhead := run_atHead n s hn
  obtain ⟨events, s', hok, hstep⟩ := firstCycle_step hhead
  have hrun : run cfg workload (n + 1) = .next s' := by
    rw [run, iterate_succ_of_next hn, cycleBody, if_pos h0, hok]
    rfl
  obtain ⟨hcur, hflag⟩ := hstep.restarted_dispatch hhead
  have hidle : s'.currentProcess = none := not_not.mp (mt hcur.mp hnone)
  have h1 : s'.numCycles ≠ 0 := by
    rw [Ne, run_numCycles hrun]
    have hdvd := (run_numCycles hn).mp h0
    omega
  obtain ⟨s2, hat, hidle2, hcur2⟩ := atSchedule_idle (run_atHead _ s' hrun) h1 hflag hidle
  refine ⟨s', s2, hrun, hat, hidle2, hcur2, ?_⟩
  apply (iterate_succ_of_next hrun).trans
  rw [hat.body, schedule_null hidle2 hcur2]
  rfl

/-- No NULL process is driven exactly when each pass with `num_cycles` 0 can dispatch somebody. -/
theorem driven_iff_dispatches (cfg : Config) (workload : List Record) :
    ((∀ n, run cfg workload n ≠ .fault .nullProcess) ↔ ∀ m, Dispatches cfg workload m) ∧
    ((∀ n s s2, run cfg workload n = .next s → AtSchedule cfg s s2 →
      s2.noProcessRunning = false → s2.currentProcess ≠ none) ↔
        ∀ m, Dispatches cfg workload m) := by
  constructor
  · constructor
    · intro hnever m n _ s hn h0
      by_contra hnone
      obtain ⟨_, _, _, _, _, _, hfault⟩ := undispatched_faults hn h0 hnone
      exact hnever (n + 2) hfault
    · exact fun hroom n => run_fault (hroom n) (Nat.le_succ n) _
  · constructor
    · intro hagree m n _ s hn h0
      by_contra hnone
      obtain ⟨s', s2, hrun, hat, hidle, hcur, -⟩ := undispatched_faults hn h0 hnone
      exact hagree (n + 1) s' s2 hrun hat hidle hcur
    · intro hroom n s s2 hn hat
      obtain ⟨charged, s1, admitted, hcharge, -, hadmits⟩ := hat.parts (run_atHead n s hn)
      have hpos : n ≠ 0 := by
        rintro rfl
        exact hat.1 ((run_numCycles hn).mpr (dvd_zero _))
      exact hadmits.agree (hcharge.agree
        (run_agree (hroom n) n s hn le_rfl (Nat.pos_of_ne_zero hpos)))

/-- The first pass always finds `num_cycles` 0. -/
theorem dispatches_iff (cfg : Config) (rest : List Record) (hfits : first.memRequirement ≤ 2048) :
    (∀ m, Dispatches cfg (first :: rest) m) ↔ first.arrivalTime = 0 ∧ ∀ n s, 0 < n →
      run cfg (first :: rest) n = .next s → s.numCycles = 0 → s.HasRoom cfg := by
  rw [← starts_iff_first cfg rest hfits, starts_iff_room]
  constructor
  · intro hroom
    exact ⟨hroom 1 0 one_pos _ rfl (initialState_numCycles ..),
      fun n s _ => hroom (n + 1) n (Nat.lt_succ_self n) s⟩
  · rintro ⟨hstart, hlater⟩ m n - s hs h0
    rcases Nat.eq_zero_or_pos n with rfl | hpos
    · cases hs
      exact hstart
    · exact hlater n s hpos hs h0

/-- No NULL process is driven in any pass exactly when the first process of the list has arrived at
time 0 and every later pass with `num_cycles` 0 has room for a process that waits or arrives;
exactly then the two variables agree at every scheduling step. In the first `2 ^ 32` passes only the
first arrival counts. -/
theorem driven_process_exists (cfg : Config) (first : Record) (rest : List Record)
    (hfits : first.memRequirement ≤ 2048) :
    ((∀ n, run cfg (first :: rest) n ≠ .fault .nullProcess) ↔
      first.arrivalTime = 0 ∧ ∀ n s, 0 < n → run cfg (first :: rest) n = .next s →
        s.numCycles = 0 → s.HasRoom cfg) ∧
    ((∀ n s s2, run cfg (first :: rest) n = .next s → AtSchedule cfg s s2 →
      s2.noProcessRunning = false → s2.currentProcess ≠ none) ↔
      first.arrivalTime = 0 ∧ ∀ n s, 0 < n → run cfg (first :: rest) n = .next s →
        s.numCycles = 0 → s.HasRoom cfg) ∧
    ((∀ n ≤ 2 ^ 32, run cfg (first :: rest) n ≠ .fault .nullProcess) ↔
      first.arrivalTime = 0) := by
  obtain ⟨hnever, hagree⟩ := driven_iff_dispatches cfg (first :: rest)
  rw [← dispatches_iff cfg rest hfits]
  refine ⟨hnever, hagree, ?_⟩
  rw [← starts_iff_first cfg rest hfits]
  constructor
  · intro hsoon
    rw [starts_iff_room]
    by_contra hnone
    obtain ⟨_, _, _, _, _, _, hfault⟩ :=
      undispatched_faults (n := 0) rfl (initialState_numCycles cfg (first :: rest)) hnone
    exact hsoon 2 (by omega) hfault
  · exact fun hstarts n hn => run_never_faults hstarts (Nat.le_succ_of_le hn) _

theorem driven_process_exists_twoJobs :
    run (sampleConfig .sjf .bestFit) twoJobs 2 ≠ .fault .nullProcess :=
  (driven_process_exists (sampleConfig .sjf .bestFit) ⟨0, [65], 3, 8⟩ [⟨0, [66], 2, 16⟩]
    (by decide)).2.2.mpr rfl 2 (by omega)

/-- One job that arrives at time 1: the second pass continues NULL. -/
theorem late_first_arrival_drives_null :
    ¬ ∀ n, run (sampleConfig .rr .infinite) [⟨1, [65], 3, 8⟩] n ≠ .fault .nullProcess := by
  intro hnever
  exact hnever 2 rfl

end ProcessManager
