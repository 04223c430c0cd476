import ProcessManager.CycleStep

/-! The invariant holds at every loop head, and the only fault a pass can have is a NULL process
at its scheduling step. -/
namespace ProcessManager

open Loop

variable {cfg : Config} {workload : List Record} {s s' : State} {p q : ProcId}
  {events : List Event} {n : ℕ}

theorem initialState_complete (cfg : Config) (workload : List Record) :
    (initialState cfg workload).Complete workload := by
  simp [State.Complete, State.members, initialState, State.running]

theorem initialState_atHead (cfg : Config) (workload : List Record) :
    AtHead cfg workload (initialState cfg workload) where
  loaded _ := .refl _
  timeLeft _ := le_refl _
  numProcesses := rfl
  ready := createReady_wellFormed
  conserved := (initialState_complete cfg workload).subperm
  indexed _ := initialiseMemory_indexed fun _ => rfl
  held _ p := by simp [initialState, State.running]
  unheld _ _ _ := rfl
  settled h := by simp [initialState] at h
  busy h := by simp [initialState] at h

/-- The process that finishes goes from the processor to the finished queue. -/
theorem Charge.members (h : AtHead cfg workload s) (hc : Charge cfg s events s') :
    s'.members.Perm s.members := by
  cases hc with
  | idle => exact .refl _
  | quantum => exact .refl _
  | @finish p store hcur hleft hfree =>
    rw [State.members, State.members, h.running_some hcur]
    simp only [State.running, State.emit_noProcessRunning, State.emit_processes,
      State.emit_inputQueue, State.emit_readyQueue, State.emit_finishedQueue, if_true,
      List.nil_append]
    refine .append_left _ (.append_left _ (.append_left _ ?_))
    exact List.perm_append_comm

theorem Charge.invariant (h : AtHead cfg workload s) (hc : Charge cfg s events s') :
    Invariant cfg workload s' := by
  have hsame := hc.sameRecord
  have hloaded q := (hsame q).trans (h.loaded q)
  have htime q : (s'.procs q).serviceTimeLeft ≤ (s'.procs q).serviceTime := by
    rw [hc.timeLeft q, (hsame q).serviceTime]
    exact (Nat.sub_le _ _).trans (h.timeLeft q)
  have hready := h.ready.congr hsame
  have hconserved := (hc.members h).subperm.trans h.conserved
  cases hc with
  | idle => exact h.toInvariant
  | @quantum p hcur hleft =>
    have hblock q : (chargedProcs cfg s.procs p q).blockNode = (s.procs q).blockNode :=
      update_field Process.blockNode (by rfl) q
    have hmem q : (chargedProcs cfg s.procs p q).memRequirement = (s.procs q).memRequirement :=
      update_field Process.memRequirement (by rfl) q
    exact
      { loaded := hloaded
        timeLeft := htime
        numProcesses := h.numProcesses
        ready := hready
        conserved := hconserved
        indexed := fun hb => (h.indexed hb).congr _ hblock hmem
        held := fun hb q hq => by
          rw [State.procs_setProcs, hblock]
          exact h.held hb q hq
        unheld := fun hb q hq => by
          rw [State.procs_setProcs, hblock]
          exact h.unheld hb q hq }
  | @finish p store hcur hleft hfree =>
    have hrun := h.running_some hcur
    have hprocs := deallocateMemory_procs hfree
    have hblock (hb : cfg.memStrategy = .bestFit) (q : ProcId) :
        (store.procs q).blockNode = if q = p then none else (s.procs q).blockNode := by
      rw [hprocs, if_pos hb, setBlockNode_blockNode, finishedProcs_blockNode]
    refine ⟨hloaded, htime, h.numProcesses, hready, hconserved, ?_, ?_, ?_⟩
    · intro hb
      exact (h.release hb hcur hfree).indexed (h.retired_indexed p hb)
    · intro hb q hq
      have hready : q ∈ s.readyQueue.items := by simpa [State.running] using hq
      obtain ⟨-, -, hnot, -⟩ := h.running_elsewhere (p := p) (by simp [hrun])
      have hne : q ≠ p := ne_of_mem_of_not_mem hready hnot
      simp only [State.procs_emit, State.procs_mk, hblock hb, if_neg hne]
      exact h.held hb q (Or.inl hready)
    · intro hb q hq
      simp only [State.procs_emit, State.procs_mk, hblock hb]
      split
      · rfl
      · rename_i hne
        apply h.unheld hb q
        simpa [hne] using hq

/-- Admission moves processes on along the queues. -/
theorem Admit.members (h : Invariant cfg workload s) (ha : Admit cfg s events s') :
    s'.members.Perm s.members := by
  have hrun := ha.running
  cases ha with
  | @ofPass pass taken left hpass =>
    obtain ⟨-, hperm, -⟩ := hpass.ready h.ready
    refine List.perm_iff_count.mpr fun q => ?_
    have h1 := hperm.count_eq q
    have h2 := hpass.perm.count_eq q
    have h3 := s.count_processes q
    simp only [List.count_append] at h1 h2
    simp only [State.members, hrun, State.emit_processes, State.emit_inputQueue,
      State.emit_readyQueue, State.emit_finishedQueue, List.count_append]
    omega

theorem Admit.invariant (h : Invariant cfg workload s) (ha : Admit cfg s events s') :
    Invariant cfg workload s' := by
  have hsame := ha.sameRecord
  have htime := ha.timeLeft
  have hnodup := h.waiting_nodup
  have hrun := ha.running
  have hconserved := (ha.members h).subperm.trans h.conserved
  cases ha with
  | @ofPass pass taken left hpass =>
    obtain ⟨hready, hperm, -⟩ := hpass.ready h.ready
    refine ⟨fun q => (hsame q).trans (h.loaded q), fun q => ?_, h.numProcesses, hready,
      hconserved, ?_, ?_, ?_⟩
    · rw [htime q, (hsame q).serviceTime]
      exact h.timeLeft q
    · intro hb
      rw [hb] at hpass
      exact hpass.indexed (h.indexed hb) hnodup (h.waiting_unallocated hb)
    · intro hb q hq
      simp only [State.procs_emit, State.procs_mk, State.emit_readyQueue, hrun] at hq ⊢
      by_cases htaken : q ∈ taken
      · obtain ⟨b, hb', -, hsome⟩ := hpass.procs_taken hnodup htaken
        simp [hb', hsome hb]
      · rw [hpass.procs_other htaken]
        rw [hperm.mem_iff, List.mem_append] at hq
        exact h.held hb q (by simpa [htaken] using hq)
    · intro hb q hq
      simp only [State.procs_emit, State.procs_mk, State.emit_processes, State.emit_inputQueue,
        State.emit_finishedQueue] at hq ⊢
      have hother : q ∉ taken := by
        intro htaken
        have hcount := h.count_le_one q
        have hsplit := s.count_processes q
        have htook := hpass.perm.count_eq q
        have hpos := List.count_pos_iff.mpr htaken
        simp only [List.count_append] at htook
        rcases hq with hq | hq | hq | hq
        · have := List.count_pos_iff.mpr hq
          omega
        · have := List.count_pos_iff.mpr hq
          omega
        · have := List.count_pos_iff.mpr hq
          omega
        · exact absurd (h.lt_of_waiting (hpass.taken_sublist.mem htaken)) (Nat.not_lt.mpr hq)
      rw [hpass.procs_other hother]
      apply h.unheld hb q
      rcases hq with hq | hq | hq | hq
      · exact Or.inl ((List.dropWhile_sublist _).mem hq)
      · rcases List.mem_append.mp (hpass.left_sublist.mem hq) with hq | hq
        · exact Or.inr (Or.inl hq)
        · exact Or.inl ((List.takeWhile_sublist _).mem hq)
      · exact Or.inr (Or.inr (Or.inl hq))
      · exact Or.inr (Or.inr (Or.inr hq))

/-- Scheduling passes processes between the ready queue and the processor. -/
theorem Schedule.queues (h : Invariant cfg workload s) (hs : Schedule cfg s events s') :
    s'.processes = s.processes ∧ s'.inputQueue = s.inputQueue ∧
      s'.finishedQueue = s.finishedQueue ∧
      (s'.readyQueue.items ++ s'.running).Perm (s.readyQueue.items ++ s.running) := by
  cases hs with
  | idle hrun hempty =>
    refine ⟨rfl, rfl, rfl, ?_⟩
    rw [hrun, hempty]
    simp [State.running]
  | resume => exact ⟨rfl, rfl, rfl, .refl _⟩
  | @dispatch p ready hrun hnext =>
    obtain ⟨-, hperm, -⟩ := h.ready.extract_ok hnext
    refine ⟨rfl, rfl, rfl, ?_⟩
    rw [hrun, List.append_nil]
    exact (List.perm_append_singleton p ready.items).trans hperm.symm
  | @preempt p r queue ready hrr hrun hne hput hnext =>
    obtain ⟨hqueue, hin, -⟩ := h.ready.insert_ok hput
    obtain ⟨-, hout, -⟩ := hqueue.extract_ok hnext
    refine ⟨rfl, rfl, rfl, ?_⟩
    rw [hrun]
    exact (List.perm_append_singleton r ready.items).trans
      (hout.symm.trans (hin.trans (List.perm_append_singleton p _).symm))

theorem Schedule.wellFormed (h : Invariant cfg workload s) (hs : Schedule cfg s events s') :
    s'.readyQueue.WellFormed cfg.scheduler s'.procs := by
  have hsame := hs.sameRecord
  cases hs with
  | idle | resume => exact h.ready
  | dispatch _ hnext =>
    obtain ⟨hwf, -⟩ := h.ready.extract_ok hnext
    exact hwf.congr hsame
  | preempt _ _ _ hput hnext =>
    obtain ⟨hqueue, -⟩ := h.ready.insert_ok hput
    obtain ⟨hwf, -⟩ := hqueue.extract_ok hnext
    exact hwf.congr hsame

theorem Schedule.members (h : Invariant cfg workload s) (hs : Schedule cfg s events s') :
    s'.members.Perm s.members := by
  obtain ⟨hprocesses, hinput, hfinished, hperm⟩ := hs.queues h
  rw [State.members, State.members, hprocesses, hinput, hfinished,
    ← List.append_assoc s'.readyQueue.items, ← List.append_assoc s.readyQueue.items]
  exact .append_left _ (.append_left _ (hperm.append_right _))

theorem Schedule.invariant (h : Invariant cfg workload s) (hs : Schedule cfg s events s') :
    Invariant cfg workload s' := by
  obtain ⟨hprocesses, hinput, hfinished, hperm⟩ := hs.queues h
  constructor
  case loaded => exact fun q => (hs.sameRecord q).trans (h.loaded q)
  case timeLeft =>
    intro q
    rw [hs.timeLeft q, (hs.sameRecord q).serviceTime]
    exact h.timeLeft q
  case numProcesses => cases hs <;> exact h.numProcesses
  case ready => exact hs.wellFormed h
  case conserved => exact (hs.members h).subperm.trans h.conserved
  case indexed =>
    intro hb
    have hindexed := (h.indexed hb).congr s'.procs hs.blockNode
      fun q => (hs.sameRecord q).memRequirement
    cases hs <;> exact hindexed
  case held =>
    intro hb q hq
    rw [hs.blockNode q]
    rw [← List.mem_append, hperm.mem_iff, List.mem_append] at hq
    exact h.held hb q hq
  case unheld =>
    intro hb q hq
    rw [hs.blockNode q]
    rw [hprocesses, hinput, hfinished] at hq
    exact h.unheld hb q hq

/-- At the end of the scheduling step the two variables agree, unless nothing was run from the
start. -/
theorem Schedule.settled (hs : Schedule cfg s events s') :
    s'.noProcessRunning = true → s'.currentProcess = none := by
  cases hs with
  | idle => exact fun _ => rfl
  | dispatch | preempt =>
    intro h
    simp at h
  | resume hrun =>
    intro h
    have hidle : s.noProcessRunning = true := h
    simp [State.running, hidle] at hrun

/-- Where somebody is ready, somebody is current. -/
theorem Schedule.busy (hs : Schedule cfg s events s') (hne : s'.readyQueue.items ≠ []) :
    s'.currentProcess ≠ none := by
  cases hs with
  | idle _ hempty => exact absurd hempty hne
  | dispatch | preempt => simp
  | resume hrun =>
    intro hnone
    have hcur : s.currentProcess = none := hnone
    simp [State.running, hcur] at hrun

theorem Step.atHead (h : AtHead cfg workload s) (hs : Step cfg s events s') :
    AtHead cfg workload s' := by
  cases hs with
  | step hcharge _ hadmits hsched =>
    have hinv := hsched.invariant (hadmits.invariant (hcharge.invariant h))
    exact ⟨⟨hinv.loaded, hinv.timeLeft, hinv.numProcesses, hinv.ready, hinv.conserved,
      hinv.indexed, hinv.held, hinv.unheld⟩, hsched.settled, hsched.busy⟩

/-- A step moves processes from place to place, and loses none. -/
theorem Step.members (h : AtHead cfg workload s) (hs : Step cfg s events s') :
    s'.members.Perm s.members := by
  cases hs with
  | @step s1 s2 s3 charged admitted driven hcharge _ hadmits hsched =>
    have hinv := hcharge.invariant h
    have hlast : s3.members.Perm s2.members := hsched.members (hadmits.invariant hinv)
    exact hlast.trans ((hadmits.members hinv).trans (hcharge.members h))

theorem preempt_none (hcur : s.currentProcess = none) :
    preempt cfg s = .error .nullProcess := by
  simp [preempt, hcur, suspendProcess, bind, Except.bind]

theorem preempt_some (hcur : s.currentProcess = some p) (hrun : s.noProcessRunning = false)
    (h : s.readyQueue.WellFormed cfg.scheduler s.procs) (hrr : cfg.scheduler = .rr) :
    ∃ r queue ready, s.readyQueue.insert s.procs p = .ok queue ∧
      queue.extract s.procs = .ok (some r, ready) ∧
      preempt cfg s = .ok (({ s with
        readyQueue := ready
        currentProcess := some r
        noProcessRunning := false }.setProcs (dispatchedProcs cfg s.procs r)).emit
        (.insert p s.readyQueue.items :: .stop p :: dispatchEvents s.procs r)) := by
  obtain ⟨queue, hput, hwf, -, hlist⟩ := h.insert p
  let suspended := ({ s with readyQueue := queue }.emit [.insert p s.readyQueue.items]).emit
    [.stop p]
  have hne : suspended.readyQueue.items ≠ [] := by simp [suspended, hlist hrr]
  obtain ⟨r, ready, hnext, hok⟩ := runNextProcess_dispatch (s := suspended) hwf hne
  refine ⟨r, queue, ready, hput, hnext, ?_⟩
  have hstop : preempt cfg s = runNextProcess cfg suspended := by
    simp [preempt, hcur, hput, suspendProcess, bind, Except.bind, suspended, State.emit]
  rw [hstop, hok, runProcess_eq]
  simp [suspended, State.emit, State.setProcs, hrun]

/-- With `no_process_running` 0 and `current_process` NULL, the code drives NULL. -/
theorem schedule_null (hidle : s.noProcessRunning = false) (hcur : s.currentProcess = none) :
    schedule cfg s = .error .nullProcess := by
  simp only [schedule, hidle, hcur, Bool.false_eq_true, if_false, preempt_none hcur]
  cases cfg.scheduler with
  | sjf => rfl
  | rr => cases s.readyQueue.isEmpty <;> rfl

/-- Otherwise the code takes a step. -/
theorem schedule_cases (h : Invariant cfg workload s) :
    (∃ events s', schedule cfg s = .ok s' ∧ Schedule cfg s events s') ∨
      (s.noProcessRunning = false ∧ s.currentProcess = none ∧
        schedule cfg s = .error .nullProcess) := by
  have hempty := h.ready.isEmpty_iff
  cases hidle : s.noProcessRunning with
  | true =>
    have hrun : s.running = [] := by simp [State.running, hidle]
    left
    by_cases hnil : s.readyQueue.items = []
    · refine ⟨_, _, ?_, .idle hrun hnil⟩
      simp only [schedule, hidle, hempty.mpr hnil, if_true]
      rfl
    · obtain ⟨p, ready, hnext, hok⟩ := runNextProcess_dispatch h.ready hnil
      refine ⟨_, _, ?_, .dispatch hrun hnext⟩
      simp only [schedule, hidle, mt hempty.mp hnil, if_true, hok, runProcess_eq]
      rfl
  | false =>
    cases hcur : s.currentProcess with
    | none =>
      right
      exact ⟨rfl, rfl, schedule_null hidle hcur⟩
    | some p =>
      have hrun : s.running = [p] := by simp [State.running, hidle, hcur]
      left
      by_cases halone : cfg.scheduler = .rr → s.readyQueue.items = []
      · refine ⟨_, _, ?_, .resume hrun halone⟩
        simp only [schedule, hidle, hcur]
        cases hsch : cfg.scheduler with
        | sjf => rfl
        | rr =>
          simp only [hempty.mpr (halone hsch)]
          rfl
      · push Not at halone
        obtain ⟨hrr, hnil⟩ := halone
        obtain ⟨r, queue, ready, hput, hnext, hok⟩ := preempt_some hcur hidle h.ready hrr
        refine ⟨_, _, ?_, .preempt hrr hrun hnil hput hnext⟩
        simp only [schedule, hidle, hrr, hok, mt hempty.mp hnil]
        rfl

/-- In the first pass nothing runs yet, and the next process is looked for at once. -/
theorem runFirst (h : Invariant cfg workload s) (hidle : s.noProcessRunning = false)
    (hcur : s.currentProcess = none) :
    ∃ events s', runNextProcess cfg s = .ok s' ∧
      Schedule cfg s events { s' with noProcessRunning := false } := by
  have hrun : s.running = [] := by simp [State.running, hidle, hcur]
  by_cases hnil : s.readyQueue.items = []
  · refine ⟨[], _, runNextProcess_empty h hnil, ?_⟩
    have hsched : Schedule cfg s [] { s with currentProcess := none } := .idle hrun hnil
    simpa only [hidle] using hsched
  · obtain ⟨p, ready, hnext, hok⟩ := runNextProcess_dispatch h.ready hnil
    refine ⟨dispatchEvents s.procs p, _, hok, ?_⟩
    rw [runProcess_eq]
    exact .dispatch hrun hnext

/-- `run_next_process` does not look at the process that was current before. -/
theorem runNextProcess_flags (cfg : Config) (s : State) (flag : Bool) (cur : Option ProcId) :
    (runNextProcess cfg { s with noProcessRunning := flag, currentProcess := cur }).map
        (fun s => { s with noProcessRunning := false }) =
      (runNextProcess cfg s).map fun s => { s with noProcessRunning := false } := by
  simp only [runNextProcess]
  split
  · rfl
  · simp only [State.procs_mk, State.store_procs, bind, Except.bind]
    cases s.readyQueue.extract s.procs with
    | error e => rfl
    | ok extracted =>
      obtain ⟨_ | p, ready⟩ := extracted
      · rfl
      · simp only [runProcess_eq]
        rfl

theorem allocate_flags (cfg : Config) (s : State) (flag : Bool) (cur : Option ProcId) :
    allocate cfg { s with noProcessRunning := flag, currentProcess := cur } =
      (allocate cfg s).map fun s => { s with noProcessRunning := flag, currentProcess := cur } := by
  simp only [allocate, bind, Except.bind]
  cases allocateMemory cfg.memStrategy s.store s.inputQueue s.readyQueue <;> rfl

theorem firstCycle_eq (cfg : Config) (s : State) : firstCycle cfg s =
    (allocate cfg { updateInput s with readyQueue := createReady cfg.scheduler }).bind fun s =>
      ((runNextProcess cfg s).map fun s => { s with noProcessRunning := false }).map
        (State.tick cfg) := by
  simp only [firstCycle, bind]
  congr 1
  funext t
  cases runNextProcess cfg t <;> rfl

/-- What was current or ready before does not matter to the pass with `num_cycles` 0. -/
theorem firstCycle_restarted (cfg : Config) (s : State) :
    firstCycle cfg (s.restarted cfg) = firstCycle cfg s := by
  have hqueue : { updateInput (s.restarted cfg) with readyQueue := createReady cfg.scheduler } =
      { { updateInput s with readyQueue := createReady cfg.scheduler } with
        noProcessRunning := false, currentProcess := none } := rfl
  rw [firstCycle_eq, firstCycle_eq, hqueue, allocate_flags]
  cases allocate cfg { updateInput s with readyQueue := createReady cfg.scheduler } with
  | error e => rfl
  | ok t => exact congrArg (Except.map (State.tick cfg)) (runNextProcess_flags cfg t false none)

theorem AtHead.restarted (h : AtHead cfg workload s) : AtHead cfg workload (s.restarted cfg) where
  loaded := h.loaded
  timeLeft := h.timeLeft
  numProcesses := h.numProcesses
  ready := createReady_wellFormed
  conserved := by
    refine List.Subperm.trans (List.Sublist.subperm ?_) h.conserved
    simp only [State.members, State.restarted_processes, State.restarted_inputQueue,
      State.restarted_readyQueue, State.running_restarted, State.restarted_finishedQueue,
      items_createReady, List.nil_append]
    refine .append (.refl _) (.append (.refl _) ?_)
    exact (List.sublist_append_right _ _).trans (List.sublist_append_right _ _)
  indexed := h.indexed
  held hb p hp := by simp at hp
  unheld := h.unheld
  settled := by simp
  busy := by simp

theorem firstCycle_parts (h : AtHead cfg workload s) :
    ∃ admitted s2 driven s3, admitInput cfg (s.restarted cfg) = .ok s2 ∧
      Admit cfg (s.restarted cfg) admitted s2 ∧ Schedule cfg s2 driven s3 ∧
      firstCycle cfg s = .ok (s3.tick cfg) := by
  have hinv := h.restarted.toInvariant
  obtain ⟨admitted, s2, hok, hadmits⟩ := admitInput_admit hinv
  have hidle : s2.noProcessRunning = false ∧ s2.currentProcess = none := by
    cases hadmits
    exact ⟨rfl, rfl⟩
  obtain ⟨driven, s3, hrun, hsched⟩ := runFirst (hadmits.invariant hinv) hidle.1 hidle.2
  have hallocate : allocate cfg (updateInput (s.restarted cfg)) = .ok s2 := hok
  have hqueue : { updateInput (s.restarted cfg) with readyQueue := createReady cfg.scheduler } =
      updateInput (s.restarted cfg) := rfl
  refine ⟨admitted, s2, driven, _, hok, hadmits, hsched, ?_⟩
  rw [← firstCycle_restarted]
  simp only [firstCycle, hqueue, hallocate, bind, Except.bind, hrun]
  rfl

theorem firstCycle_step (h : AtHead cfg workload s) :
    ∃ events s', firstCycle cfg s = .ok s' ∧ Step cfg (s.restarted cfg) events s' := by
  obtain ⟨admitted, s2, driven, s3, -, hadmits, hsched, hok⟩ := firstCycle_parts h
  exact ⟨_, _, hok, .step (.idle rfl) (by simp) hadmits hsched⟩

/-- The state at the scheduling step of a later pass. -/
def AtSchedule (cfg : Config) (s s2 : State) : Prop :=
  s.numCycles ≠ 0 ∧ ∃ s1 finished, chargeQuantum cfg s = .ok (s1, finished) ∧
    ¬ (finished = true ∧ s1.finishedQueue.length = s1.numProcesses) ∧ admitInput cfg s1 = .ok s2

theorem AtSchedule.parts {s2 : State} (h : AtHead cfg workload s) (hat : AtSchedule cfg s s2) :
    ∃ charged s1 admitted, Charge cfg s charged s1 ∧
      (charged ≠ [] → s1.finishedQueue.length ≠ s1.numProcesses) ∧ Admit cfg s1 admitted s2 := by
  obtain ⟨-, s1, finished, hcharged, hmore, hadmitted⟩ := hat
  obtain ⟨charged, t, hok, hcharge⟩ := chargeQuantum_charge h
  obtain ⟨rfl, rfl⟩ := Prod.mk.inj (Except.ok.inj (hok.symm.trans hcharged))
  obtain ⟨admitted, t, hok, hadmits⟩ := admitInput_admit (hcharge.invariant h)
  obtain rfl : t = s2 := Except.ok.inj (hok.symm.trans hadmitted)
  refine ⟨charged, _, admitted, hcharge, fun hne heq => hmore ⟨?_, heq⟩, hadmits⟩
  simpa using hne

/-- What is left of a pass from its scheduling step on. -/
theorem AtSchedule.body {s2 : State} (hat : AtSchedule cfg s s2) :
    cycleBody cfg s = .ofExcept (do
      let s3 ← schedule cfg s2
      return s3.tick cfg) := by
  obtain ⟨h0, s1, finished, hcharged, hmore, hadmitted⟩ := hat
  simp only [cycleBody, if_neg h0, hcharged, if_neg hmore, admitAndSchedule, hadmitted, bind,
    Except.bind]

/-- One pass from a state that keeps the invariant: a step, the `break` after the last process has
finished, or a NULL process at the scheduling step. -/
theorem cycleBody_cases (h : AtHead cfg workload s) :
    (∃ events s', cycleBody cfg s = .next s' ∧ Step cfg (s.entered cfg) events s') ∨
      (∃ events s', cycleBody cfg s = .done s' ∧ s.numCycles ≠ 0 ∧ Charge cfg s events s' ∧
        events ≠ [] ∧ s'.finishedQueue.length = s'.numProcesses) ∨
      (cycleBody cfg s = .fault .nullProcess ∧ ∃ s2, AtSchedule cfg s s2 ∧
        s2.noProcessRunning = false ∧ s2.currentProcess = none) := by
  by_cases h0 : s.numCycles = 0
  · obtain ⟨events, s', hok, hstep⟩ := firstCycle_step h
    left
    refine ⟨events, s', by rw [cycleBody, if_pos h0, hok]; rfl, ?_⟩
    rwa [State.entered_of_eq h0]
  rw [State.entered_of_ne h0]
  obtain ⟨charged, s1, hcharged, hcharge⟩ := chargeQuantum_charge h
  by_cases hend : charged ≠ [] ∧ s1.finishedQueue.length = s1.numProcesses
  · right
    left
    refine ⟨charged, s1, ?_, h0, hcharge, hend⟩
    simp only [cycleBody, if_neg h0, hcharged, decide_eq_true_eq, if_pos hend]
  · have hmore : charged ≠ [] → s1.finishedQueue.length ≠ s1.numProcesses :=
      fun hne heq => hend ⟨hne, heq⟩
    obtain ⟨admitted, s2, hadmitted, hadmits⟩ := admitInput_admit (hcharge.invariant h)
    have hat : AtSchedule cfg s s2 :=
      ⟨h0, s1, _, hcharged, by simpa only [decide_eq_true_eq] using hend, hadmitted⟩
    rw [hat.body]
    rcases schedule_cases (hadmits.invariant (hcharge.invariant h)) with
      ⟨driven, s3, hok, hsched⟩ | ⟨hidle, hcur, herr⟩
    · left
      refine ⟨_, _, ?_, .step hcharge hmore hadmits hsched⟩
      simp only [hok]
      rfl
    · right
      right
      refine ⟨?_, s2, hat, hidle, hcur⟩
      simp only [herr]
      rfl

/-- A later pass that goes on, by its parts, with the state at its scheduling step. -/
theorem cycleBody_next_parts (h : AtHead cfg workload s) (h0 : s.numCycles ≠ 0)
    (hb : cycleBody cfg s = .next s') :
    ∃ charged s1 admitted s2 driven s3, Charge cfg s charged s1 ∧ Admit cfg s1 admitted s2 ∧
      AtSchedule cfg s s2 ∧ Schedule cfg s2 driven s3 ∧ s' = s3.tick cfg := by
  obtain ⟨charged, s1, hcharged, hcharge⟩ := chargeQuantum_charge h
  have hinv1 := hcharge.invariant h
  by_cases hend : decide (charged ≠ []) = true ∧ s1.finishedQueue.length = s1.numProcesses
  · rw [cycleBody, if_neg h0] at hb
    simp only [hcharged, if_pos hend] at hb
    cases hb
  · obtain ⟨admitted, s2, hadmitted, hadmits⟩ := admitInput_admit hinv1
    have hat : AtSchedule cfg s s2 := ⟨h0, s1, _, hcharged, hend, hadmitted⟩
    rw [hat.body] at hb
    rcases schedule_cases (hadmits.invariant hinv1) with ⟨driven, s3, hok, hsched⟩ | ⟨-, -, herr⟩
    · simp only [hok] at hb
      cases hb
      exact ⟨charged, s1, admitted, s2, driven, s3, hcharge, hadmits, hat, hsched, rfl⟩
    · simp only [herr] at hb
      cases hb

theorem AtHead.entered (h : AtHead cfg workload s) : AtHead cfg workload (s.entered cfg) := by
  unfold State.entered
  split
  · exact h.restarted
  · exact h

theorem cycleBody_next (h : AtHead cfg workload s) (hb : cycleBody cfg s = .next s') :
    ∃ events, Step cfg (s.entered cfg) events s' := by
  rcases cycleBody_cases h with ⟨events, t, ht, hstep⟩ | ⟨_, t, ht, _⟩ | ⟨ht, _⟩
  · cases hb.symm.trans ht
    exact ⟨events, hstep⟩
  · cases hb.symm.trans ht
  · cases hb.symm.trans ht

theorem cycleBody_done (h : AtHead cfg workload s) (hb : cycleBody cfg s = .done s') :
    ∃ events, s.numCycles ≠ 0 ∧ Charge cfg s events s' ∧ events ≠ [] ∧
      s'.finishedQueue.length = s'.numProcesses := by
  rcases cycleBody_cases h with ⟨_, t, ht, _⟩ | ⟨events, t, ht, hend⟩ | ⟨ht, _⟩
  · cases hb.symm.trans ht
  · cases hb.symm.trans ht
    exact ⟨events, hend⟩
  · cases hb.symm.trans ht

theorem run_unique (hs : run cfg workload n = .next s) (hs' : run cfg workload n = .next s') :
    s = s' := Outcome.next.inj (hs.symm.trans hs')

theorem run_atHead : ∀ n s, run cfg workload n = .next s → AtHead cfg workload s := by
  refine iterate_invariant (initialState_atHead cfg workload) ?_
  intro n s s' hn h hb
  obtain ⟨events, hstep⟩ := cycleBody_next h hb
  exact hstep.atHead h.entered

/-- What the start has and every step keeps holds at every loop head. -/
theorem run_invariant {I : ℕ → State → Prop} (h0 : I 0 (initialState cfg workload))
    (hstep : ∀ n s events s', run cfg workload n = .next s →
      run cfg workload (n + 1) = .next s' → AtHead cfg workload s → I n s →
      Step cfg (s.entered cfg) events s' → I (n + 1) s') :
    ∀ n s, run cfg workload n = .next s → I n s := by
  refine iterate_invariant h0 ?_
  intro n s s' hn h hb
  have hhead := run_atHead n s hn
  obtain ⟨events, hs⟩ := cycleBody_next hhead hb
  exact hstep n s events s' hn ((iterate_succ_of_next hn).trans hb) hhead h hs

theorem run_passes : ∀ n s, run cfg workload n = .next s → s.passes = n := by
  apply run_invariant
  case h0 => rfl
  case hstep =>
    intro n s events s' _ _ _ h hs
    rw [hs.clock.1, State.passes_entered, h]

/-- `num_cycles` is 0 in every `2 ^ 32`nd pass. -/
theorem State.numCycles_eq_zero (s : State) : s.numCycles = 0 ↔ 2 ^ 32 ∣ s.passes := by
  rw [State.numCycles, ← Int32.toBitVec_inj, Int32.toBitVec_ofNat', ← BitVec.toNat_inj,
    BitVec.toNat_ofNat]
  exact (Nat.dvd_iff_mod_eq_zero ..).symm

theorem run_numCycles (h : run cfg workload n = .next s) : s.numCycles = 0 ↔ 2 ^ 32 ∣ n := by
  rw [s.numCycles_eq_zero, run_passes n s h]

/-- Before pass `2 ^ 32` only the first pass finds `num_cycles` 0, where nothing is lost. -/
theorem run_entered (hn : n < 2 ^ 32) (h : run cfg workload n = .next s) : s.entered cfg = s := by
  cases n with
  | zero =>
    cases h
    exact State.entered_of_eq ((State.numCycles_eq_zero _).mpr (dvd_zero _))
  | succ n =>
    apply State.entered_of_ne
    rw [Ne, run_numCycles h]
    exact Nat.not_dvd_of_pos_of_lt (Nat.succ_pos n) hn

/-- Nothing is current before the first pass. -/
theorem run_current_pos (h : run cfg workload n = .next s) (hcur : s.currentProcess ≠ none) :
    1 ≤ n := by
  cases n with
  | zero =>
    cases h
    exact absurd rfl hcur
  | succ n => exact Nat.succ_pos n

/-- A finished run left the loop after the charge of its last pass. -/
theorem run_done (h : run cfg workload n = .done s') :
    ∃ m s events, m < n ∧ run cfg workload m = .next s ∧ run cfg workload (m + 1) = .done s' ∧
      Charge cfg s events s' ∧ events ≠ [] ∧ s'.finishedQueue.length = s'.numProcesses := by
  obtain ⟨m, s, hmn, hs, hb⟩ := iterate_done_origin h
  obtain ⟨events, -, hend⟩ := cycleBody_done (run_atHead m s hs) hb
  exact ⟨m, s, events, hmn, hs, (iterate_succ_of_next hs).trans hb, hend⟩

/-- The states a run reaches: those at the loop head, and the one it leaves the loop with. -/
theorem run_state_cases (h : (run cfg workload n).state? = some s') :
    run cfg workload n = .next s' ∨
      ∃ m s events, m < n ∧ run cfg workload m = .next s ∧ run cfg workload (m + 1) = .done s' ∧
        Charge cfg s events s' ∧ events ≠ [] ∧
        s'.finishedQueue.length = s'.numProcesses := by
  cases hrun : run cfg workload n with
  | next t =>
    rw [hrun] at h
    cases h
    exact Or.inl rfl
  | done t =>
    rw [hrun] at h
    cases h
    exact Or.inr (run_done hrun)
  | fault e =>
    rw [hrun] at h
    cases h

/-- The invariant holds at the loop head and when the loop is left. -/
theorem run_state_invariant (h : (run cfg workload n).state? = some s) :
    Invariant cfg workload s := by
  rcases run_state_cases h with hrun | ⟨m, t, events, -, ht, -, hcharge, -⟩
  · exact (run_atHead n s hrun).toInvariant
  · exact hcharge.invariant (run_atHead m t ht)

/-- What holds at the start and is kept by each part of a pass holds in every state of the run. -/
theorem run_parts {I : State → Prop} (h0 : I (initialState cfg workload))
    (hrestart : ∀ {s}, I s → I (s.restarted cfg))
    (hcharge : ∀ {s events s'}, AtHead cfg workload s → I s → Charge cfg s events s' → I s')
    (hadmits : ∀ {s events s'}, Invariant cfg workload s → I s → Admit cfg s events s' → I s')
    (hsched : ∀ {s events s'}, Invariant cfg workload s → I s → Schedule cfg s events s' → I s')
    (htick : ∀ {s}, I s → I (s.tick cfg)) (h : (run cfg workload n).state? = some s) : I s := by
  have hnext : ∀ n s, run cfg workload n = .next s → I s := by
    apply run_invariant
    case h0 => exact h0
    case hstep =>
      intro n s events s' _ _ hhead hs hstep
      have hentered : I (s.entered cfg) := by
        unfold State.entered
        split
        · exact hrestart hs
        · exact hs
      cases hstep with
      | step hc _ ha hs' =>
        have hinv := hc.invariant hhead.entered
        exact htick (hsched (ha.invariant hinv)
          (hadmits hinv (hcharge hhead.entered hentered hc) ha) hs')
  rcases run_state_cases h with hrun | ⟨m, t, events, -, ht, -, hc, -⟩
  · exact hnext n s hrun
  · exact hcharge (run_atHead m t ht) (hnext m t ht) hc

end ProcessManager
