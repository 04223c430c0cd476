import ProcessManager.NumCycles

/-! The `state` field of a process against the container it is in. Every transition sets it but
two: a process that RR puts back into the ready queue stays RUNNING, and so does the one that is
dropped when `num_cycles` is 0 again. -/
namespace ProcessManager

open Loop

variable {cfg : Config} {workload : List Record} {s s' s2 : State} {p q : ProcId}
  {events : List Event} {n : ℕ}

/-- The field tells where the process is. -/
structure State.Tells (s : State) (p : ProcId) : Prop where
  idle : (s.procs p).state = .idle ↔ p ∈ s.processes ∨ p ∈ s.inputQueue
  ready : (s.procs p).state = .ready ↔ p ∈ s.readyQueue.items
  running : (s.procs p).state = .running ↔ p ∈ s.running
  finished : (s.procs p).state = .finished ↔ p ∈ s.finishedQueue

/-- At the scheduling step: RR is about to put the running process behind others. -/
def Preempts (cfg : Config) (s2 : State) : Prop :=
  cfg.scheduler = .rr ∧ s2.noProcessRunning = false ∧ s2.currentProcess ≠ none ∧
    s2.readyQueue.items ≠ []

/-- What each container says about the field. -/
structure State.Marked (s : State) : Prop where
  processes : ∀ p ∈ s.processes, (s.procs p).state = .idle
  input : ∀ p ∈ s.inputQueue, (s.procs p).state = .idle
  ready : ∀ p ∈ s.readyQueue.items, (s.procs p).state = .ready
  running : ∀ p ∈ s.running, (s.procs p).state = .running
  finished : ∀ p ∈ s.finishedQueue, (s.procs p).state = .finished

/-- Every process is in some container, so the four values of the field tell them apart. -/
theorem State.Marked.tells (hm : s.Marked) (hall : s.Complete workload)
    (hp : p < workload.length) : s.Tells p := by
  have hmem := hall.mem_iff.mpr (List.mem_range.mpr hp)
  simp only [State.members, List.mem_append] at hmem
  have hprocesses := hm.processes p
  have hinput := hm.input p
  have hready := hm.ready p
  have hrunning := hm.running p
  have hfinished := hm.finished p
  constructor <;> constructor <;> grind

theorem setBlockNode_state {procs : ProcTable} (node : Option NodeId) (q : ProcId) :
    (setBlockNode procs p node q).state = (procs q).state :=
  update_field Process.state (by rfl) q

theorem chargedProcs_state (cfg : Config) (procs : ProcTable) (p q : ProcId) :
    (chargedProcs cfg procs p q).state = (procs q).state :=
  update_field Process.state (by rfl) q

theorem finishedProcs_state (cfg : Config) (simTime : ℕ) (procs : ProcTable) (p q : ProcId) :
    (finishedProcs cfg simTime procs p q).state =
      if q = p then .finished else (procs q).state := by
  by_cases hq : q = p
  · subst hq
    simp [finishedProcs, updateStats]
  · simp [finishedProcs, hq]

theorem dispatchedProcs_state (cfg : Config) (procs : ProcTable) (p q : ProcId) :
    (dispatchedProcs cfg procs p q).state = if q = p then .running else (procs q).state := by
  by_cases hq : q = p
  · subst hq
    simp [dispatchedProcs]
  · simp [dispatchedProcs, hq]

theorem initialState_marked (cfg : Config) (workload : List Record) :
    (initialState cfg workload).Marked where
  processes _ _ := rfl
  input := by simp [initialState]
  ready := by simp [initialState]
  running := by simp [initialState, State.running]
  finished := by simp [initialState]

theorem Charge.state_running (hc : Charge cfg s events s') (hrun : p ∈ s'.running) :
    (s'.procs p).state = (s.procs p).state := by
  cases hc with
  | idle => rfl
  | quantum => exact chargedProcs_state cfg _ _ p
  | finish => simp [State.running] at hrun

theorem Charge.marked (h : AtHead cfg workload s) (hm : s.Marked)
    (hc : Charge cfg s events s') : s'.Marked := by
  cases hc with
  | idle => exact hm
  | @quantum p hcur hleft =>
    constructor
    case processes => exact fun q hq => (chargedProcs_state cfg _ p q).trans (hm.processes q hq)
    case input => exact fun q hq => (chargedProcs_state cfg _ p q).trans (hm.input q hq)
    case ready => exact fun q hq => (chargedProcs_state cfg _ p q).trans (hm.ready q hq)
    case running => exact fun q hq => (chargedProcs_state cfg _ p q).trans (hm.running q hq)
    case finished => exact fun q hq => (chargedProcs_state cfg _ p q).trans (hm.finished q hq)
  | @finish p store hcur hleft hfree =>
    obtain ⟨hprocesses, hinput, hready, -⟩ :=
      h.running_elsewhere (p := p) (by simp [h.running_some hcur])
    have hstate : ∀ q, (store.procs q).state = if q = p then .finished else (s.procs q).state := by
      intro q
      rw [deallocateMemory_procs hfree]
      split
      · exact (setBlockNode_state none q).trans (finishedProcs_state cfg _ _ p q)
      · exact finishedProcs_state cfg _ _ p q
    have hother : ∀ q, q ≠ p → (store.procs q).state = (s.procs q).state := by
      intro q hq
      rw [hstate, if_neg hq]
    constructor
    case processes =>
      intro q hq
      exact (hother q (ne_of_mem_of_not_mem hq hprocesses)).trans (hm.processes q hq)
    case input =>
      intro q hq
      exact (hother q (ne_of_mem_of_not_mem hq hinput)).trans (hm.input q hq)
    case ready =>
      intro q hq
      exact (hother q (ne_of_mem_of_not_mem hq hready)).trans (hm.ready q hq)
    case running =>
      intro q hq
      simp [State.running] at hq
    case finished =>
      intro q hq
      rcases List.mem_append.mp hq with hq | hq
      · by_cases hqp : q = p
        · exact (hstate q).trans (if_pos hqp)
        · exact (hother q hqp).trans (hm.finished q hq)
      · exact (hstate q).trans (if_pos (List.mem_singleton.mp hq))

/-- A pass of `allocate_memory` writes to the processes it takes only. -/
theorem Admit.state (h : Invariant cfg workload s) (ha : Admit cfg s events s') (q : ProcId) :
    (s'.procs q).state =
      if q ∈ s.inputQueue ++ s.arrived ∧ q ∈ s'.readyQueue.items then .ready
      else (s.procs q).state := by
  cases ha with
  | @ofPass pass taken left hpass =>
    obtain ⟨-, hperm, -⟩ := hpass.ready h.ready
    have htaken : q ∈ s.inputQueue ++ s.arrived ∧ q ∈ pass.ready.items ↔ q ∈ taken := by
      constructor
      · rintro ⟨hin, hout⟩
        rcases List.mem_append.mp (hperm.mem_iff.mp hout) with hq | hq
        · exact absurd hq (h.waiting_elsewhere hin).1
        · exact hq
      · intro hq
        exact ⟨hpass.taken_sublist.mem hq,
          hperm.mem_iff.mpr (List.mem_append_right _ hq)⟩
    simp only [State.procs_emit, State.procs_mk, State.emit_readyQueue, htaken]
    by_cases hq : q ∈ taken
    · obtain ⟨b, hb, -, -⟩ := hpass.procs_taken h.waiting_nodup hq
      rw [if_pos hq, hb]
    · rw [if_neg hq, hpass.procs_other hq]
      rfl

theorem Admit.marked (h : Invariant cfg workload s) (hm : s.Marked)
    (ha : Admit cfg s events s') : s'.Marked := by
  have hstate := ha.state h
  have hinv := ha.invariant h
  have hrun := ha.running
  have hfinished := ha.finishedQueue
  -- a process in another container of the new state is not in its ready queue
  have hother : ∀ q, q ∉ s'.readyQueue.items → (s'.procs q).state = (s.procs q).state := by
    intro q hq
    rw [hstate q, if_neg fun hin => hq hin.2]
  have hapart := fun q => hinv.ready_elsewhere (p := q)
  have hwaiting : ∀ q ∈ s.inputQueue ++ s.arrived, (s.procs q).state = .idle := by
    intro q hq
    rcases List.mem_append.mp hq with hq | hq
    · exact hm.input q hq
    · exact hm.processes q ((List.takeWhile_sublist _).mem hq)
  constructor
  case processes =>
    intro q hq
    rw [hother q fun hmem => (hapart q hmem).1 hq]
    have hq' : q ∈ s.unarrived := by
      cases ha
      exact hq
    exact hm.processes q ((List.dropWhile_sublist _).mem hq')
  case input =>
    intro q hq
    rw [hother q fun hmem => (hapart q hmem).2.1 hq]
    apply hwaiting
    cases ha with
    | ofPass hpass => exact hpass.left_sublist.mem hq
  case ready =>
    intro q hq
    rw [hstate q]
    split
    · rfl
    · rename_i hnot
      have hold : q ∈ s.readyQueue.items := by
        cases ha with
        | ofPass hpass =>
          obtain ⟨-, hperm, -⟩ := hpass.ready h.ready
          rcases List.mem_append.mp (hperm.mem_iff.mp hq) with hq' | hq'
          · exact hq'
          · exact absurd ⟨hpass.taken_sublist.mem hq', hq⟩ hnot
      exact hm.ready q hold
  case running =>
    intro q hq
    rw [hother q fun hmem => (hapart q hmem).2.2.1 hq]
    exact hm.running q (hrun ▸ hq)
  case finished =>
    intro q hq
    rw [hother q fun hmem => (hapart q hmem).2.2.2 hq]
    exact hm.finished q (hfinished ▸ hq)

theorem Schedule.marked (h : Invariant cfg workload s) (hm : s.Marked)
    (hno : ¬ Preempts cfg s) (hs : Schedule cfg s events s') : s'.Marked := by
  cases hs with
  | idle hrun hempty =>
    have hnone : State.running { s with currentProcess := none } = [] := by simp [State.running]
    exact ⟨hm.processes, hm.input, hm.ready, by simp [hnone], hm.finished⟩
  | resume => exact ⟨hm.processes, hm.input, hm.ready, hm.running, hm.finished⟩
  | preempt hrr hrun hne =>
    exfalso
    apply hno
    refine ⟨hrr, ?_, ?_, hne⟩
    · cases hflag : s.noProcessRunning
      · rfl
      · simp [State.running, hflag] at hrun
    · intro hnone
      simp [State.running, hnone] at hrun
  | @dispatch p ready hrun hnext =>
    obtain ⟨-, hperm, -⟩ := h.ready.extract_ok hnext
    have hnodup : (p :: ready.items).Nodup := hperm.nodup_iff.mp h.ready_nodup
    have hp : p ∈ s.readyQueue.items := hperm.mem_iff.mpr List.mem_cons_self
    have hstate := dispatchedProcs_state cfg s.procs p
    have hother : ∀ q, q ≠ p → (dispatchedProcs cfg s.procs p q).state = (s.procs q).state := by
      intro q hq
      rw [hstate q, if_neg hq]
    obtain ⟨hprocesses, hinput, -, hfinished⟩ := h.ready_elsewhere hp
    constructor
    case processes =>
      intro q hq
      exact (hother q (ne_of_mem_of_not_mem hq hprocesses)).trans (hm.processes q hq)
    case input =>
      intro q hq
      exact (hother q (ne_of_mem_of_not_mem hq hinput)).trans (hm.input q hq)
    case ready =>
      intro q hq
      have hqp : q ≠ p := by
        rintro rfl
        exact (List.nodup_cons.mp hnodup).1 hq
      exact (hother q hqp).trans (hm.ready q (hperm.mem_iff.mpr (List.mem_cons_of_mem _ hq)))
    case running =>
      intro q hq
      have hqp : q = p := by simpa [State.running] using hq
      exact (hstate q).trans (if_pos hqp)
    case finished =>
      intro q hq
      exact (hother q (ne_of_mem_of_not_mem hq hfinished)).trans (hm.finished q hq)

/-- No pass of the run preempts. -/
def NeverPreempts (cfg : Config) (workload : List Record) : Prop :=
  ∀ n s s2, run cfg workload n = .next s → AtSchedule cfg s s2 → ¬ Preempts cfg s2

theorem State.Marked.restarted (hm : s.Marked) (cfg : Config) : (s.restarted cfg).Marked where
  processes := hm.processes
  input := hm.input
  ready := by simp
  running := by simp
  finished := hm.finished

theorem run_marked_next (hno : NeverPreempts cfg workload) :
    ∀ n s, run cfg workload n = .next s → s.Marked := by
  refine iterate_invariant (initialState_marked cfg workload) ?_
  intro n s s' hn hm hb
  have h := run_atHead n s hn
  have hticked : ∀ {s3 : State}, s3.Marked → (s3.tick cfg).Marked := fun hm =>
    ⟨hm.processes, hm.input, hm.ready, hm.running, hm.finished⟩
  by_cases h0 : s.numCycles = 0
  · -- nothing runs in this pass yet, so it does not preempt
    obtain ⟨admitted, s2, driven, s3, -, hadmits, hsched, hok⟩ := firstCycle_parts h
    rw [cycleBody, if_pos h0, hok] at hb
    cases hb
    have hinv := h.restarted.toInvariant
    refine hticked (hsched.marked (hadmits.invariant hinv)
      (hadmits.marked hinv (hm.restarted cfg)) ?_)
    rintro ⟨-, -, hcur, -⟩
    cases hadmits
    exact hcur rfl
  · obtain ⟨charged, s1, admitted, s2, driven, s3, hcharge, hadmits, hat, hsched, rfl⟩ :=
      cycleBody_next_parts h h0 hb
    have hinv := hcharge.invariant h
    exact hticked (hsched.marked (hadmits.invariant hinv)
      (hadmits.marked hinv (hcharge.marked h hm)) (hno n s s2 hn hat))

theorem run_marked (hno : NeverPreempts cfg workload) (h : (run cfg workload n).state? = some s) :
    s.Marked := by
  rcases run_state_cases h with hrun | ⟨m, t, events, -, ht, -, hcharge, -⟩
  · exact run_marked_next hno n s hrun
  · exact hcharge.marked (run_atHead m t ht) (run_marked_next hno m t ht)

/-- A process that is put back is in the ready queue after the pass, with the field as it was. -/
theorem preempted_stays_running (hn : run cfg workload n = .next s) (hat : AtSchedule cfg s s2)
    (hpre : Preempts cfg s2)
    (hrunning : ∀ p ∈ s.running, (s.procs p).state = .running) :
    ∃ s' p, run cfg workload (n + 1) = .next s' ∧ p < workload.length ∧
      p ∈ s'.readyQueue.items ∧ (s'.procs p).state = .running := by
  have h := run_atHead n s hn
  obtain ⟨hrr, hflag, hsome, hne⟩ := hpre
  obtain ⟨p, hcur⟩ := Option.ne_none_iff_exists'.mp hsome
  obtain ⟨charged, s1, admitted, hcharge, -, hadmits⟩ := hat.parts h
  have hinv1 := hcharge.invariant h
  have hinv2 := hadmits.invariant hinv1
  have hrun2 : s2.running = [p] := by simp [State.running, hflag, hcur]
  have hp2 : p ∈ s2.running := by simp [hrun2]
  obtain ⟨-, -, hnotin, -⟩ := hinv2.running_elsewhere hp2
  have hstate2 : (s2.procs p).state = .running := by
    have hp1 : p ∈ s1.running := hadmits.running ▸ hp2
    have hp : p ∈ s.running := by
      cases hcharge with
      | idle => exact hp1
      | quantum => exact hp1
      | finish => simp [State.running] at hp1
    rw [hadmits.state hinv1 p, if_neg fun hin => hnotin hin.2, hcharge.state_running hp1]
    exact hrunning p hp
  obtain ⟨r, queue, ready, hput, hnext, hok⟩ := preempt_some hcur hflag hinv2.ready hrr
  obtain ⟨others, hready, hrest⟩ := hinv2.ready.preempt_ok hrr hne hput hnext
  have hpr : p ≠ r := by
    rintro rfl
    simp [hready] at hnotin
  have hempty : s2.readyQueue.isEmpty = false := by
    cases hisEmpty : s2.readyQueue.isEmpty
    · rfl
    · exact absurd (hinv2.ready.isEmpty_iff.mp hisEmpty) hne
  have hsched : schedule cfg s2 = preempt cfg s2 := by
    simp [schedule, hflag, hrr, hempty]
  have hbody := hat.body
  rw [hsched, hok] at hbody
  refine ⟨_, p, (iterate_succ_of_next hn).trans hbody, ?_, ?_, ?_⟩
  · apply hinv2.lt_of_running hp2
  · simp only [State.tick_readyQueue, State.emit_readyQueue, State.setProcs_readyQueue, hrest]
    simp
  · exact (dispatchedProcs_state cfg _ r p).trans ((if_neg hpr).trans hstate2)

/-- A process that is dropped is in no place after the pass, with the field as it was. -/
theorem dropped_stays_running (hn : run cfg workload n = .next s) (h0 : s.numCycles = 0)
    (hcur : s.currentProcess ≠ none) (hrunning : ∀ p ∈ s.running, (s.procs p).state = .running) :
    ∃ s' p, run cfg workload (n + 1) = .next s' ∧ p < workload.length ∧ p ∉ s'.running ∧
      (s'.procs p).state = .running := by
  obtain ⟨p, hcur⟩ := Option.ne_none_iff_exists'.mp hcur
  obtain ⟨hp, s', hs', hout, hsame⟩ := run_dropped_current hn h0 hcur
  refine ⟨s', p, hs', hp, fun hin => hout (by simp [State.members, hin]), ?_⟩
  rw [hsame]
  exact hrunning p (by simp [(run_atHead n s hn).running_some hcur])

/-- The field tells where every process is, in every state a run reaches, exactly when no pass of
the run preempts and none drops a running process. -/
theorem state_tells_iff_never_preempts (cfg : Config) (workload : List Record) :
    (∀ n s, (run cfg workload n).state? = some s → ∀ p < workload.length, s.Tells p) ↔
      NeverPreempts cfg workload ∧ ∀ n, Undropped cfg workload n := by
  constructor
  · intro htells
    have hrunning : ∀ n s, run cfg workload n = .next s →
        ∀ p ∈ s.running, (s.procs p).state = .running := by
      intro n s hn p hp
      have hlt := (run_atHead n s hn).lt_of_running hp
      exact (htells n s (by rw [hn]; rfl) p hlt).running.mpr hp
    constructor
    · intro n s s2 hn hat hpre
      obtain ⟨s', p, hs', hlt, hp, hstate⟩ :=
        preempted_stays_running hn hat hpre (hrunning n s hn)
      have hready := (htells (n + 1) s' (by rw [hs']; rfl) p hlt).ready.mpr hp
      rw [hstate] at hready
      cases hready
    · intro m n _ s hn h0
      by_contra hcur
      obtain ⟨s', p, hs', hlt, hp, hstate⟩ := dropped_stays_running hn h0 hcur (hrunning n s hn)
      exact hp ((htells (n + 1) s' (by rw [hs']; rfl) p hlt).running.mp hstate)
  · rintro ⟨hno, hkept⟩ n s hs p hp
    exact (run_marked hno hs).tells (run_complete (hkept n) hs) hp

/-- Two jobs under RR: the second pass puts the first one back, and its field still says that it
runs. -/
theorem preempted_job_marked_running :
    ¬ ∀ n s, (run (sampleConfig .rr .infinite) twoJobs n).state? = some s →
      ∀ p < 2, s.Tells p := by
  intro htells
  have hrun : ∃ s : State, (run (sampleConfig .rr .infinite) twoJobs 2).state? = some s ∧
      s.readyQueue.items = [0] ∧ (s.procs 0).state = .running := ⟨_, rfl, rfl, rfl⟩
  obtain ⟨s, hs, hready, hstate⟩ := hrun
  have hfield := (htells 2 s hs 0 (by decide)).ready.mpr (by simp [hready])
  rw [hstate] at hfield
  cases hfield

end ProcessManager
