import ProcessManager.AllocationPass
import ProcessManager.Cycle

/-! One pass of the loop as a step: the passed quantum is charged, the arrived processes are
admitted, a process is driven. The events of the pass label the step. -/
namespace ProcessManager

open Loop

variable {cfg : Config} {workload : List Record} {s s' : State} {p q : ProcId}
  {events : List Event}

/-- The process that holds the processor. -/
def State.running (s : State) : List ProcId :=
  if s.noProcessRunning then [] else s.currentProcess.toList

def State.arrived (s : State) : List ProcId :=
  s.processes.takeWhile fun p => (s.procs p).arrivalTime ≤ s.simTime

def State.unarrived (s : State) : List ProcId :=
  s.processes.dropWhile fun p => (s.procs p).arrivalTime ≤ s.simTime

def chargedProcs (cfg : Config) (procs : ProcTable) (p : ProcId) : ProcTable :=
  Function.update procs p
    { procs p with serviceTimeLeft := (procs p).serviceTimeLeft - cfg.quantum }

def finishedProcs (cfg : Config) (simTime : ℕ) (procs : ProcTable) (p : ProcId) : ProcTable :=
  Function.update procs p (updateStats cfg.clock
    { procs p with serviceTimeLeft := 0, state := .finished, finishTime := simTime })

def dispatchedProcs (cfg : Config) (procs : ProcTable) (p : ProcId) : ProcTable :=
  Function.update procs p
    { procs p with
      pid := if (procs p).pid = 0 then cfg.fork p else (procs p).pid
      state := .running }

def dispatchEvents (procs : ProcTable) (p : ProcId) : List Event :=
  [if (procs p).pid = 0 then .start p else .cont p, .running p (procs p).serviceTimeLeft]

def finishEvents (s : State) (p : ProcId) : List Event :=
  [.finished p (s.inputQueue.length + s.readyQueue.size), .term p]

inductive Charge (cfg : Config) (s : State) : List Event → State → Prop
  | idle (hcur : s.currentProcess = none) : Charge cfg s [] s
  | quantum {p : ProcId} (hcur : s.currentProcess = some p)
      (hleft : cfg.quantum < (s.procs p).serviceTimeLeft) :
      Charge cfg s [] (s.setProcs (chargedProcs cfg s.procs p))
  | finish {p : ProcId} {store : Store} (hcur : s.currentProcess = some p)
      (hleft : (s.procs p).serviceTimeLeft ≤ cfg.quantum)
      (hfree : deallocateMemory cfg.memStrategy
        { s.store with procs := finishedProcs cfg s.simTime s.procs p } p = .ok store) :
      Charge cfg s (finishEvents s p)
        ({ s with
          store := store
          finishedQueue := s.finishedQueue ++ [p]
          noProcessRunning := true
          currentProcess := if cfg.scheduler = Scheduler.sjf then none else some p }.emit
          (finishEvents s p))

inductive Admit (cfg : Config) (s : State) : List Event → State → Prop
  | ofPass {pass : Pass} {taken left : List ProcId}
      (hpass : Admission cfg.memStrategy ⟨s.store, s.readyQueue, []⟩ (s.inputQueue ++ s.arrived)
        taken left pass) :
      Admit cfg s (s.arrived.map Event.arrive ++ pass.events)
        ({ s with
          processes := s.unarrived
          inputQueue := left
          store := pass.store
          readyQueue := pass.ready }.emit (s.arrived.map Event.arrive ++ pass.events))

inductive Schedule (cfg : Config) (s : State) : List Event → State → Prop
  | idle (hrun : s.running = []) (hempty : s.readyQueue.items = []) :
      Schedule cfg s [] { s with currentProcess := none }
  | dispatch {p : ProcId} {ready : ReadyQueue} (hrun : s.running = [])
      (hnext : s.readyQueue.extract s.procs = .ok (some p, ready)) :
      Schedule cfg s (dispatchEvents s.procs p)
        (({ s with
          readyQueue := ready
          currentProcess := some p
          noProcessRunning := false }.setProcs (dispatchedProcs cfg s.procs p)).emit
          (dispatchEvents s.procs p))
  | resume {p : ProcId} (hrun : s.running = [p])
      (halone : cfg.scheduler = .rr → s.readyQueue.items = []) :
      Schedule cfg s [.cont p] (s.emit [.cont p])
  | preempt {p r : ProcId} {queue ready : ReadyQueue} (hrr : cfg.scheduler = .rr)
      (hrun : s.running = [p]) (hne : s.readyQueue.items ≠ [])
      (hput : s.readyQueue.insert s.procs p = .ok queue)
      (hnext : queue.extract s.procs = .ok (some r, ready)) :
      Schedule cfg s (.insert p s.readyQueue.items :: .stop p :: dispatchEvents s.procs r)
        (({ s with
          readyQueue := ready
          currentProcess := some r
          noProcessRunning := false }.setProcs (dispatchedProcs cfg s.procs r)).emit
          (.insert p s.readyQueue.items :: .stop p :: dispatchEvents s.procs r))

/-- A pass that does not leave the loop. -/
inductive Step (cfg : Config) (s : State) : List Event → State → Prop
  | step {s1 s2 s3 : State} {charged admitted driven : List Event}
      (hcharge : Charge cfg s charged s1)
      (hmore : charged ≠ [] → s1.finishedQueue.length ≠ s1.numProcesses)
      (hadmits : Admit cfg s1 admitted s2) (hsched : Schedule cfg s2 driven s3) :
      Step cfg s (charged ++ admitted ++ driven) (s3.tick cfg)

/-- What a pass with `num_cycles` 0 goes on with: its ready queue is a new one, and whoever was
current is forgotten. -/
@[simps simTime passes noProcessRunning numProcesses processes inputQueue readyQueue
  finishedQueue currentProcess store trace]
def State.restarted (cfg : Config) (s : State) : State :=
  { s with
    noProcessRunning := false
    readyQueue := createReady cfg.scheduler
    currentProcess := none }

@[simp] theorem State.procs_restarted (cfg : Config) (s : State) :
    (s.restarted cfg).procs = s.procs := rfl

@[simp] theorem State.running_restarted (cfg : Config) (s : State) :
    (s.restarted cfg).running = [] := rfl

/-- The state a pass goes on with from the head of the loop. -/
def State.entered (cfg : Config) (s : State) : State :=
  if s.numCycles = 0 then s.restarted cfg else s

theorem State.entered_of_ne (h : s.numCycles ≠ 0) : s.entered cfg = s := if_neg h

theorem State.entered_of_eq (h : s.numCycles = 0) : s.entered cfg = s.restarted cfg := if_pos h

/-- What is no matter of the processor or the ready queue stays. -/
theorem State.entered_field {β : Type*} (field : State → β) (cfg : Config) (s : State)
    (h : field (s.restarted cfg) = field s) : field (s.entered cfg) = field s := by
  unfold State.entered
  split
  · exact h
  · rfl

@[simp] theorem State.passes_entered (cfg : Config) (s : State) :
    (s.entered cfg).passes = s.passes := s.entered_field State.passes cfg rfl

@[simp] theorem State.simTime_entered (cfg : Config) (s : State) :
    (s.entered cfg).simTime = s.simTime := s.entered_field State.simTime cfg rfl

@[simp] theorem State.processes_entered (cfg : Config) (s : State) :
    (s.entered cfg).processes = s.processes := s.entered_field State.processes cfg rfl

@[simp] theorem State.inputQueue_entered (cfg : Config) (s : State) :
    (s.entered cfg).inputQueue = s.inputQueue := s.entered_field State.inputQueue cfg rfl

@[simp] theorem State.finishedQueue_entered (cfg : Config) (s : State) :
    (s.entered cfg).finishedQueue = s.finishedQueue := s.entered_field State.finishedQueue cfg rfl

@[simp] theorem State.store_entered (cfg : Config) (s : State) :
    (s.entered cfg).store = s.store := s.entered_field State.store cfg rfl

@[simp] theorem State.procs_entered (cfg : Config) (s : State) :
    (s.entered cfg).procs = s.procs := s.entered_field State.procs cfg rfl

@[simp] theorem State.trace_entered (cfg : Config) (s : State) :
    (s.entered cfg).trace = s.trace := s.entered_field State.trace cfg rfl

theorem update_sameRecord {procs : ProcTable} {process : Process}
    (h : process.SameRecord (procs p)) (q : ProcId) :
    (Function.update procs p process q).SameRecord (procs q) := by
  by_cases hq : q = p
  · subst hq
    simpa using h
  · simpa [hq] using Process.SameRecord.refl _

/-- Two tables stay related, one read at `σ`, when the same process changes in both. -/
theorem update_related {R : Process → Process → Prop} {procs procs' : ProcTable}
    {process process' : Process} {σ : ProcId → ProcId} (hσ : Function.Injective σ)
    (h : ∀ q, R (procs q) (procs' (σ q))) (hp : R process process') (q : ProcId) :
    R (Function.update procs p process q) (Function.update procs' (σ p) process' (σ q)) := by
  by_cases hq : q = p
  · subst hq
    simpa using hp
  · simpa [hq, hσ.ne hq] using h q

theorem update_field {β : Type*} (field : Process → β) {procs : ProcTable} {process : Process}
    (h : field process = field (procs p)) (q : ProcId) :
    field (Function.update procs p process q) = field (procs q) := by
  by_cases hq : q = p
  · subst hq
    simpa using h
  · simp [hq]

theorem checkDirection_procs {node : NodeId} {st st' : Store} {l : List NodeId}
    (h : checkDirection node st l = .ok st') : st'.procs = st.procs := by
  induction l generalizing st with
  | nil =>
    cases h
    rfl
  | cons curr rest ih =>
    simp only [checkDirection] at h
    split at h
    · cases hu : updateMemory st node curr with
      | error e => simp [hu, bind, Except.bind] at h
      | ok st1 =>
        simp only [hu, bind, Except.bind] at h
        apply (ih h).trans
        simp only [updateMemory] at hu
        split at hu
        · cases hu
        · cases hu
          rfl
    · cases h
      rfl

/-- Deallocation changes nothing in a process but its block. -/
theorem deallocateMemory_procs {strategy : MemStrategy} {st st' : Store}
    (h : deallocateMemory strategy st p = .ok st') : st'.procs =
      if strategy = .bestFit then setBlockNode st.procs p none else st.procs := by
  cases strategy with
  | infinite =>
    cases h
    rfl
  | bestFit =>
    simp only [deallocateMemory] at h
    split at h
    · cases h
    · rename_i node hnode
      simp only [bind, Except.bind] at h
      split at h
      · cases h
      · rename_i st1 h1
        split at h
        · cases h
        · rename_i st2 h2
          cases h
          simp only [checkDirection_procs h2, checkDirection_procs h1]
          rfl

theorem Charge.sameRecord (h : Charge cfg s events s') (q : ProcId) :
    (s'.procs q).SameRecord (s.procs q) := by
  cases h with
  | idle => exact .refl _
  | quantum => exact update_sameRecord (by exact ⟨rfl, rfl, rfl, rfl⟩) q
  | @finish p store hcur hleft hfree =>
    have hretired : (finishedProcs cfg s.simTime s.procs p q).SameRecord (s.procs q) :=
      update_sameRecord (by exact ⟨rfl, rfl, rfl, rfl⟩) q
    simp only [State.procs_emit, State.procs_mk, deallocateMemory_procs hfree]
    split
    · exact (update_sameRecord (by exact ⟨rfl, rfl, rfl, rfl⟩) q).trans hretired
    · exact hretired

/-- The current process loses one quantum, or all it has left; no other process is charged. -/
theorem Charge.timeLeft (h : Charge cfg s events s') (q : ProcId) :
    (s'.procs q).serviceTimeLeft = (s.procs q).serviceTimeLeft -
      if s.currentProcess = some q then cfg.quantum else 0 := by
  cases h with
  | idle hcur => simp [hcur]
  | @quantum p hcur _ =>
    by_cases hq : q = p
    · subst hq
      simp [hcur, chargedProcs]
    · simp [hcur, chargedProcs, hq, Ne.symm hq]
  | @finish p store hcur hleft hfree =>
    have hretired : (store.procs q).serviceTimeLeft =
        (finishedProcs cfg s.simTime s.procs p q).serviceTimeLeft := by
      rw [deallocateMemory_procs hfree]
      split
      · exact update_field Process.serviceTimeLeft (by rfl) q
      · rfl
    simp only [State.procs_emit, State.procs_mk, hretired]
    by_cases hq : q = p
    · subst hq
      simp [hcur, finishedProcs, updateStats, Nat.sub_eq_zero_of_le hleft]
    · simp [hcur, finishedProcs, hq, Ne.symm hq]

theorem Admit.running (h : Admit cfg s events s') : s'.running = s.running := by
  cases h
  rfl

theorem Admit.finishedQueue (h : Admit cfg s events s') : s'.finishedQueue = s.finishedQueue := by
  cases h
  rfl

theorem Admit.sameRecord (h : Admit cfg s events s') (q : ProcId) :
    (s'.procs q).SameRecord (s.procs q) := by
  cases h with
  | ofPass hpass => exact hpass.sameRecord q

theorem Admit.timeLeft (h : Admit cfg s events s') (q : ProcId) :
    (s'.procs q).serviceTimeLeft = (s.procs q).serviceTimeLeft := by
  cases h with
  | ofPass hpass => exact hpass.timeLeft q

theorem dispatchedProcs_timeLeft (cfg : Config) (procs : ProcTable) (p q : ProcId) :
    (dispatchedProcs cfg procs p q).serviceTimeLeft = (procs q).serviceTimeLeft :=
  update_field Process.serviceTimeLeft (by rfl) q

theorem dispatchedProcs_blockNode (cfg : Config) (procs : ProcTable) (p q : ProcId) :
    (dispatchedProcs cfg procs p q).blockNode = (procs q).blockNode :=
  update_field Process.blockNode (by rfl) q

theorem dispatchedProcs_sameRecord (cfg : Config) (procs : ProcTable) (p q : ProcId) :
    (dispatchedProcs cfg procs p q).SameRecord (procs q) :=
  update_sameRecord (by exact ⟨rfl, rfl, rfl, rfl⟩) q

theorem Schedule.sameRecord (h : Schedule cfg s events s') (q : ProcId) :
    (s'.procs q).SameRecord (s.procs q) := by
  cases h with
  | idle | resume => exact .refl _
  | dispatch | preempt => exact dispatchedProcs_sameRecord cfg _ _ q

theorem Schedule.timeLeft (h : Schedule cfg s events s') (q : ProcId) :
    (s'.procs q).serviceTimeLeft = (s.procs q).serviceTimeLeft := by
  cases h with
  | idle | resume => rfl
  | dispatch | preempt => exact dispatchedProcs_timeLeft cfg _ _ q

theorem Schedule.blockNode (h : Schedule cfg s events s') (q : ProcId) :
    (s'.procs q).blockNode = (s.procs q).blockNode := by
  cases h with
  | idle | resume => rfl
  | dispatch | preempt => exact dispatchedProcs_blockNode cfg _ _ q

/-- The only process a pass charges is the current one. -/
theorem Step.timeLeft (h : Step cfg s events s') (q : ProcId) :
    (s'.procs q).serviceTimeLeft = (s.procs q).serviceTimeLeft -
      if s.currentProcess = some q then cfg.quantum else 0 := by
  cases h with
  | step hcharge _ hadmits hsched =>
    rw [State.procs_tick, hsched.timeLeft q, hadmits.timeLeft q, hcharge.timeLeft q]

/-- The entries of one pass. -/
def State.entries (s : State) (events : List Event) : List Entry :=
  events.map fun e => ⟨s.passes, s.simTime, e⟩

theorem Charge.clock (h : Charge cfg s events s') :
    s'.passes = s.passes ∧ s'.simTime = s.simTime ∧ s'.trace = s.trace ++ s.entries events := by
  cases h <;> simp [State.entries]

theorem Admit.clock (h : Admit cfg s events s') :
    s'.passes = s.passes ∧ s'.simTime = s.simTime ∧ s'.trace = s.trace ++ s.entries events := by
  cases h
  simp [State.entries]

theorem Schedule.clock (h : Schedule cfg s events s') :
    s'.passes = s.passes ∧ s'.simTime = s.simTime ∧ s'.trace = s.trace ++ s.entries events := by
  cases h <;> simp [State.entries]

/-- The events of a step are what it adds to the trace. -/
theorem Step.clock (h : Step cfg s events s') :
    s'.passes = s.passes + 1 ∧ s'.simTime = cfg.clock.wrap (s.simTime + cfg.quantum) ∧
      s'.trace = s.trace ++ s.entries events := by
  cases h with
  | step hcharge _ hadmits hsched =>
    obtain ⟨n1, t1, e1⟩ := hcharge.clock
    obtain ⟨n2, t2, e2⟩ := hadmits.clock
    obtain ⟨n3, t3, e3⟩ := hsched.clock
    simp [n1, n2, n3, t1, t2, t3, e1, e2, e3, State.entries]

/-- Everybody who is in one of the five places. -/
def State.members (s : State) : List ProcId :=
  s.processes ++ (s.inputQueue ++ (s.readyQueue.items ++ (s.running ++ s.finishedQueue)))

/-- Nobody is missing. -/
def State.Complete (workload : List Record) (s : State) : Prop :=
  s.members.Perm (List.range workload.length)

/-- What holds between the parts of a pass. -/
structure Invariant (cfg : Config) (workload : List Record) (s : State) : Prop where
  loaded : ∀ p, (s.procs p).SameRecord (loadedProcs workload p)
  timeLeft : ∀ p, (s.procs p).serviceTimeLeft ≤ (s.procs p).serviceTime
  numProcesses : s.numProcesses = workload.length
  ready : s.readyQueue.WellFormed cfg.scheduler s.procs
  conserved : s.members.Subperm (List.range workload.length)
  indexed : cfg.memStrategy = .bestFit → s.store.Indexed
  held : cfg.memStrategy = .bestFit →
    ∀ p, p ∈ s.readyQueue.items ∨ p ∈ s.running → (s.procs p).blockNode ≠ none
  unheld : cfg.memStrategy = .bestFit →
    ∀ p, p ∈ s.processes ∨ p ∈ s.inputQueue ∨ p ∈ s.finishedQueue ∨ workload.length ≤ p →
      (s.procs p).blockNode = none

/-- What holds at the head of the loop. -/
structure AtHead (cfg : Config) (workload : List Record) (s : State) : Prop
    extends Invariant cfg workload s where
  settled : s.noProcessRunning = true → s.currentProcess = none
  busy : s.readyQueue.items ≠ [] → s.currentProcess ≠ none

theorem AtHead.running (h : AtHead cfg workload s) : s.running = s.currentProcess.toList := by
  unfold State.running
  split
  · rename_i hidle
    simp [h.settled hidle]
  · rfl

theorem AtHead.running_some (h : AtHead cfg workload s) (hcur : s.currentProcess = some p) :
    s.running = [p] := by
  simp [h.running, hcur]

theorem Invariant.members_nodup (h : Invariant cfg workload s) : s.members.Nodup := by
  obtain ⟨l, hperm, hsub⟩ := h.conserved
  exact hperm.nodup_iff.mp (List.nodup_range.sublist hsub)

theorem Invariant.lt_of_member (h : Invariant cfg workload s) (hp : p ∈ s.members) :
    p < workload.length := List.mem_range.mp (h.conserved.subset hp)

/-- No process is counted twice over the five containers. -/
theorem Invariant.count_le_one (h : Invariant cfg workload s) (p : ProcId) :
    s.processes.count p + s.inputQueue.count p + s.readyQueue.items.count p +
      s.running.count p + s.finishedQueue.count p ≤ 1 := by
  have hle := List.nodup_iff_count_le_one.mp h.members_nodup p
  simp only [State.members, List.count_append] at hle
  omega

/-- A process that runs is in none of the queues. -/
theorem Invariant.running_elsewhere (h : Invariant cfg workload s) (hp : p ∈ s.running) :
    p ∉ s.processes ∧ p ∉ s.inputQueue ∧ p ∉ s.readyQueue.items ∧ p ∉ s.finishedQueue := by
  have hle := h.count_le_one p
  have hpos := List.count_pos_iff.mpr hp
  refine ⟨?_, ?_, ?_, ?_⟩ <;> intro hmem <;> have hpos' := List.count_pos_iff.mpr hmem <;> omega

/-- A process that is ready is in none of the other containers. -/
theorem Invariant.ready_elsewhere (h : Invariant cfg workload s)
    (hp : p ∈ s.readyQueue.items) :
    p ∉ s.processes ∧ p ∉ s.inputQueue ∧ p ∉ s.running ∧ p ∉ s.finishedQueue := by
  have hle := h.count_le_one p
  have hpos := List.count_pos_iff.mpr hp
  refine ⟨?_, ?_, ?_, ?_⟩ <;> intro hmem <;> have hpos' := List.count_pos_iff.mpr hmem <;> omega

theorem Invariant.ready_nodup (h : Invariant cfg workload s) : s.readyQueue.items.Nodup := by
  apply List.nodup_iff_count_le_one.mpr
  intro p
  have hle := h.count_le_one p
  omega

theorem Invariant.finished_nodup (h : Invariant cfg workload s) : s.finishedQueue.Nodup := by
  apply List.nodup_iff_count_le_one.mpr
  intro p
  have hle := h.count_le_one p
  omega

theorem State.Complete.length_eq (h : s.Complete workload) :
    s.processes.length + s.inputQueue.length + s.readyQueue.items.length + s.running.length +
      s.finishedQueue.length = workload.length := by
  have hlength := List.Perm.length_eq h
  simp only [State.members, List.length_append, List.length_range] at hlength
  omega

/-- When as many have finished as were loaded, everybody has. -/
theorem Invariant.all_finished (h : Invariant cfg workload s)
    (hend : s.finishedQueue.length = s.numProcesses) :
    s.finishedQueue.Perm (List.range workload.length) ∧ s.processes = [] ∧ s.inputQueue = [] ∧
      s.readyQueue.items = [] ∧ s.running = [] := by
  rw [h.numProcesses] at hend
  have hlength := h.conserved.length_le
  simp only [State.members, List.length_append, List.length_range] at hlength
  have hprocesses : s.processes = [] := List.length_eq_zero_iff.mp (by omega)
  have hinput : s.inputQueue = [] := List.length_eq_zero_iff.mp (by omega)
  have hready : s.readyQueue.items = [] := List.length_eq_zero_iff.mp (by omega)
  have hrun : s.running = [] := List.length_eq_zero_iff.mp (by omega)
  refine ⟨?_, hprocesses, hinput, hready, hrun⟩
  have hsub := h.conserved
  simp only [State.members, hprocesses, hinput, hready, hrun, List.nil_append] at hsub
  exact hsub.perm_of_length_le (by rw [List.length_range, hend])

/-- Where nobody is missing, exactly those who are ready or run hold a block. -/
theorem Invariant.allocated (h : Invariant cfg workload s) (hall : s.Complete workload)
    (hb : cfg.memStrategy = .bestFit) (p : ProcId) :
    (s.procs p).blockNode ≠ none ↔ p ∈ s.readyQueue.items ∨ p ∈ s.running := by
  constructor
  · intro hne
    by_contra hnot
    rw [not_or] at hnot
    refine hne (h.unheld hb p ?_)
    by_contra helse
    simp only [not_or, Nat.not_le] at helse
    have hmem := hall.mem_iff.mpr (List.mem_range.mpr helse.2.2.2)
    simp [State.members, helse, hnot] at hmem
  · exact h.held hb p

theorem State.arrived_append_unarrived (s : State) : s.arrived ++ s.unarrived = s.processes :=
  List.takeWhile_append_dropWhile

theorem State.count_processes (s : State) (p : ProcId) :
    s.processes.count p = s.arrived.count p + s.unarrived.count p := by
  rw [← List.count_append, s.arrived_append_unarrived]

theorem Invariant.waiting_nodup (h : Invariant cfg workload s) :
    (s.inputQueue ++ s.arrived).Nodup := by
  apply List.nodup_iff_count_le_one.mpr
  intro p
  have hle := h.count_le_one p
  have hsplit := s.count_processes p
  rw [List.count_append]
  omega

/-- A waiting process is neither ready nor running. -/
theorem Invariant.waiting_elsewhere (h : Invariant cfg workload s)
    (hp : p ∈ s.inputQueue ++ s.arrived) : p ∉ s.readyQueue.items ∧ p ∉ s.running := by
  have hle := h.count_le_one p
  have hsplit := s.count_processes p
  have hpos := List.count_pos_iff.mpr hp
  rw [List.count_append] at hpos
  constructor <;> intro hmem <;> have hpos' := List.count_pos_iff.mpr hmem <;> omega

theorem Invariant.waiting_unallocated (h : Invariant cfg workload s)
    (hb : cfg.memStrategy = .bestFit) (p : ProcId) (hp : p ∈ s.inputQueue ++ s.arrived) :
    (s.procs p).blockNode = none := by
  apply h.unheld hb p
  rcases List.mem_append.mp hp with hmem | hmem
  · exact Or.inr (Or.inl hmem)
  · exact Or.inl ((List.takeWhile_sublist _).mem hmem)

theorem Invariant.lt_of_waiting (h : Invariant cfg workload s)
    (hp : p ∈ s.inputQueue ++ s.arrived) : p < workload.length := by
  apply h.lt_of_member
  rcases List.mem_append.mp hp with hp | hp
  · simp [State.members, hp]
  · simp [State.members, (List.takeWhile_sublist _).mem hp]

theorem Invariant.lt_of_running (h : Invariant cfg workload s) (hp : p ∈ s.running) :
    p < workload.length := h.lt_of_member (by simp [State.members, hp])

theorem Invariant.lt_of_ready (h : Invariant cfg workload s) (hp : p ∈ s.readyQueue.items) :
    p < workload.length := h.lt_of_member (by simp [State.members, hp])

theorem Invariant.timeLeft_lt (h : Invariant cfg workload s) (p : ProcId) :
    (s.procs p).serviceTimeLeft < 2 ^ 32 := by
  apply Nat.lt_of_le_of_lt (h.timeLeft p)
  rw [(h.loaded p).serviceTime]
  exact UInt32.toNat_lt _

theorem deallocateMemory_ok {strategy : MemStrategy} {st : Store}
    (hi : strategy = .bestFit → st.Indexed)
    (hp : strategy = .bestFit → (st.procs p).blockNode ≠ none) :
    ∃ st', deallocateMemory strategy st p = .ok st' := by
  cases strategy with
  | infinite => exact ⟨st, rfl⟩
  | bestFit =>
    obtain ⟨node, hnode⟩ := Option.ne_none_iff_exists'.mp (hp rfl)
    obtain ⟨st', hok, -⟩ := deallocate_release (hi rfl) hnode
    exact ⟨st', hok⟩

theorem finishedProcs_blockNode (cfg : Config) (simTime : ℕ) (procs : ProcTable)
    (p q : ProcId) :
    (finishedProcs cfg simTime procs p q).blockNode = (procs q).blockNode :=
  update_field Process.blockNode (by rfl) q

theorem finishedProcs_memRequirement (cfg : Config) (simTime : ℕ) (procs : ProcTable)
    (p q : ProcId) :
    (finishedProcs cfg simTime procs p q).memRequirement = (procs q).memRequirement :=
  update_field Process.memRequirement (by rfl) q

theorem AtHead.retired_indexed (h : AtHead cfg workload s) (p : ProcId)
    (hb : cfg.memStrategy = .bestFit) :
    ({ s.store with procs := finishedProcs cfg s.simTime s.procs p } : Store).Indexed :=
  (h.indexed hb).congr _ (finishedProcs_blockNode cfg _ _ p)
    (finishedProcs_memRequirement cfg _ _ p)

/-- The process that finishes still holds its block. -/
theorem AtHead.retired_block (h : AtHead cfg workload s) (hcur : s.currentProcess = some p)
    (hb : cfg.memStrategy = .bestFit) :
    (finishedProcs cfg s.simTime s.procs p p).blockNode ≠ none := by
  rw [finishedProcs_blockNode]
  exact h.held hb p (Or.inr (by simp [h.running_some hcur]))

theorem AtHead.release {store : Store} (h : AtHead cfg workload s)
    (hb : cfg.memStrategy = .bestFit) (hcur : s.currentProcess = some p)
    (hfree : deallocateMemory cfg.memStrategy
      { s.store with procs := finishedProcs cfg s.simTime s.procs p } p = .ok store) :
    Release { s.store with procs := finishedProcs cfg s.simTime s.procs p } p store := by
  obtain ⟨node, hnode⟩ := Option.ne_none_iff_exists'.mp (h.retired_block hcur hb)
  rw [hb] at hfree
  obtain ⟨store', hok, hrelease⟩ := deallocate_release (h.retired_indexed p hb) hnode
  obtain rfl : store' = store := Except.ok.inj (hok.symm.trans hfree)
  exact hrelease

/-- Up to the deallocation, `finish_process` is one update of the process. -/
theorem retireProcess_eq (s : State) (p : ProcId) (procRemaining : ℕ) :
    retireProcess cfg (s.setProcs (Function.update s.procs p
        { s.procs p with serviceTimeLeft := 0, state := .finished })) p procRemaining =
      ({ s with finishedQueue := s.finishedQueue ++ [p] }.setProcs
        (finishedProcs cfg s.simTime s.procs p)).emit [.finished p procRemaining, .term p] := by
  simp [retireProcess, setState, finishedProcs, State.setProcs, State.emit]

theorem chargeQuantum_charge (h : AtHead cfg workload s) :
    ∃ events s', chargeQuantum cfg s = .ok (s', decide (events ≠ [])) ∧
      Charge cfg s events s' := by
  cases hcur : s.currentProcess with
  | none =>
    refine ⟨[], s, ?_, .idle hcur⟩
    simp only [chargeQuantum, hcur, updateTime_none]
    rfl
  | some p =>
    by_cases hleft : (s.procs p).serviceTimeLeft ≤ cfg.quantum
    · obtain ⟨store, hfree⟩ := deallocateMemory_ok (h.retired_indexed p) (h.retired_block hcur)
      refine ⟨finishEvents s p, _, ?_, .finish hcur hleft hfree⟩
      simp only [chargeQuantum, hcur, updateTime_some cfg.quantum_int (h.timeLeft_lt p), hleft,
        if_true, finishProcess, State.setProcs_inputQueue, State.setProcs_readyQueue,
        retireProcess_eq, State.emit_store, State.setProcs_store, hfree]
      rfl
    · refine ⟨[], _, ?_, .quantum hcur (by omega)⟩
      simp only [chargeQuantum, hcur, updateTime_some cfg.quantum_int (h.timeLeft_lt p), hleft,
        if_false]
      rfl

theorem admitInput_admit (h : Invariant cfg workload s) :
    ∃ events s', admitInput cfg s = .ok s' ∧ Admit cfg s events s' := by
  obtain ⟨pass, taken, left, hok, hpass⟩ := allocateMemory_spec h.ready h.indexed
    h.waiting_nodup h.waiting_unallocated
  refine ⟨_, _, ?_, .ofPass hpass⟩
  have hupdate : allocateMemory cfg.memStrategy (updateInput s).store (updateInput s).inputQueue
      (updateInput s).readyQueue = .ok (pass, left) := hok
  simp only [admitInput, allocate, hupdate]
  simp [updateInput, State.emit, State.arrived, State.unarrived, bind, Except.bind, pure,
    Except.pure]

theorem runProcess_eq (s : State) (p : ProcId) : runProcess cfg s p =
    ({ s with currentProcess := some p }.setProcs (dispatchedProcs cfg s.procs p)).emit
      (dispatchEvents s.procs p) := by
  by_cases hpid : (s.procs p).pid = 0 <;>
    simp [runProcess, startRealProcess, setState, dispatchedProcs, dispatchEvents, hpid,
      State.setProcs, State.emit]

theorem runNextProcess_empty (h : Invariant cfg workload s) (hempty : s.readyQueue.items = []) :
    runNextProcess cfg s = .ok { s with currentProcess := none } := by
  rw [runNextProcess, if_pos (h.ready.isEmpty_iff.mpr hempty)]
  rfl

theorem runNextProcess_dispatch (h : s.readyQueue.WellFormed cfg.scheduler s.procs)
    (hne : s.readyQueue.items ≠ []) :
    ∃ p ready, s.readyQueue.extract s.procs = .ok (some p, ready) ∧
      runNextProcess cfg s = .ok (runProcess cfg { s with readyQueue := ready } p) := by
  have hempty : s.readyQueue.isEmpty = false := by
    rw [Bool.eq_false_iff]
    intro he
    exact hne (h.isEmpty_iff.mp he)
  obtain ⟨p, ready, hnext, -⟩ := h.extract hempty
  refine ⟨p, ready, hnext, ?_⟩
  simp only [runNextProcess, hempty, Bool.false_eq_true, if_false, hnext]
  rfl

end ProcessManager
