import ProcessManager.Driving
import ProcessManager.Trace
import ProcessManager.Arrivals

/-! SJF does not see the order in which the file lists processes that arrive together. -/
namespace ProcessManager

open Loop

variable {cfg : Config} {workload workload' : List Record} {s s' t t' : State} {p q : ProcId}
  {events events' : List Event} {n : ℕ} {procs procs' : ProcTable} {σ : Equiv.Perm ProcId}
  {fork : ProcId → ℕ+}

/-- The same arguments where `fork` returns other pids. -/
def Config.withFork (cfg : Config) (fork : ProcId → ℕ+) : Config := { cfg with fork := fork }

/-- What the scheduler does to a process that has arrived. -/
def Event.isScheduling : Event → Bool
  | .arrive _ | .insert _ _ | .ready _ _ => false
  | .start _ | .cont _ | .stop _ | .term _ | .running _ _ | .finished _ _ => true

def scheduleOf (trace : List Entry) : List Entry := trace.filter fun e => e.event.isScheduling

/-- The event with its process called as in the other file. -/
def Event.rename (σ : ProcId → ProcId) : Event → Event
  | .arrive p => .arrive (σ p)
  | .insert p ahead => .insert (σ p) (ahead.map σ)
  | .ready p assignedAt => .ready (σ p) assignedAt
  | .start p => .start (σ p)
  | .cont p => .cont (σ p)
  | .stop p => .stop (σ p)
  | .term p => .term (σ p)
  | .running p remainingTime => .running (σ p) remainingTime
  | .finished p procRemaining => .finished (σ p) procRemaining

def Entry.rename (σ : ProcId → ProcId) (e : Entry) : Entry := { e with event := e.event.rename σ }

/-- Both runs have done the same, up to the places of the processes in the files. -/
structure SameSchedule (σ : ProcId → ProcId) (s t : State) : Prop where
  events : scheduleOf t.trace = (scheduleOf s.trace).map (Entry.rename σ)
  finished : t.finishedQueue = s.finishedQueue.map σ
  finishTime : ∀ p, (t.procs (σ p)).finishTime = (s.procs p).finishTime
  turnaroundTime : ∀ p, (t.procs (σ p)).turnaroundTime = (s.procs p).turnaroundTime
  overhead : ∀ p, (t.procs (σ p)).overhead = (s.procs p).overhead
  simTime : t.simTime = s.simTime

/-- Two files with the same lines list each process somewhere. -/
theorem exists_rename (h : workload.Perm workload') :
    ∃ σ : Equiv.Perm ProcId, ∀ p, workload'[σ p]? = workload[p]? := by
  induction h with
  | nil => exact ⟨1, fun _ => rfl⟩
  | @cons r l l' _ ih =>
    obtain ⟨σ, hσ⟩ := ih
    let up : Equiv.Perm ℕ → ℕ → ℕ := fun σ p => p.casesOn 0 fun p => σ p + 1
    refine ⟨⟨up σ, up σ.symm, ?_, ?_⟩, ?_⟩
    · rintro (_ | p) <;> simp [up]
    · rintro (_ | p) <;> simp [up]
    · rintro (_ | p)
      · rfl
      · simpa [up] using hσ p
  | swap r r' l =>
    refine ⟨Equiv.swap 0 1, ?_⟩
    rintro (_ | _ | p)
    · simp
    · simp
    · rw [Equiv.swap_apply_of_ne_of_ne (by simp) (by simp)]
      rfl
  | trans _ _ ih ih' =>
    obtain ⟨σ, hσ⟩ := ih
    obtain ⟨τ, hτ⟩ := ih'
    exact ⟨σ.trans τ, fun p => (hτ (σ p)).trans (hσ p)⟩

/-- The process with the pid of another `fork`. -/
inductive Process.Twin (process : Process) : Process → Prop
  | mk {pid : ℕ} (hpid : pid = 0 ↔ process.pid = 0) : Twin process { process with pid := pid }

/-- The tables of the two runs. -/
def Twins (σ : Equiv.Perm ProcId) (procs procs' : ProcTable) : Prop :=
  ∀ p, (procs p).Twin (procs' (σ p))

theorem Process.Twin.timeLeft {p1 p2 : Process} (h : p1.Twin p2) :
    p2.serviceTimeLeft = p1.serviceTimeLeft := by
  cases h
  rfl

theorem Process.Twin.pid {p1 p2 : Process} (h : p1.Twin p2) : p2.pid = 0 ↔ p1.pid = 0 := by
  cases h with
  | mk hpid => exact hpid

theorem Process.Twin.statistics {p1 p2 : Process} (h : p1.Twin p2) :
    p2.finishTime = p1.finishTime ∧ p2.turnaroundTime = p1.turnaroundTime ∧
      p2.overhead = p1.overhead := by
  cases h
  exact ⟨rfl, rfl, rfl⟩

theorem Process.Twin.withState {p1 p2 : Process} (h : p1.Twin p2) (state : ProcessState) :
    { p1 with state := state }.Twin { p2 with state := state } := by
  cases h with
  | mk hpid => exact (.mk hpid : { p1 with state := state }.Twin _)

/-- What is done to a process in both runs keeps the tables alike. -/
theorem Twins.update (h : Twins σ procs procs') (f f' : Process → Process)
    (hf : ∀ p1 p2, Process.Twin p1 p2 → (f p1).Twin (f' p2)) (p : ProcId) :
    Twins σ (Function.update procs p (f (procs p)))
      (Function.update procs' (σ p) (f' (procs' (σ p)))) := by
  intro q
  exact update_related σ.injective h (hf _ _ (h p)) q

theorem Twins.charged (h : Twins σ procs procs') (p : ProcId) :
    Twins σ (chargedProcs cfg procs p) (chargedProcs (cfg.withFork fork) procs' (σ p)) := by
  let charge (process : Process) : Process :=
    { process with serviceTimeLeft := process.serviceTimeLeft - cfg.quantum }
  apply h.update charge charge
  rintro p1 _ ⟨hpid⟩
  exact (.mk hpid : (charge p1).Twin _)

theorem Twins.finished (h : Twins σ procs procs') (simTime : ℕ) (p : ProcId) :
    Twins σ (finishedProcs cfg simTime procs p)
      (finishedProcs (cfg.withFork fork) simTime procs' (σ p)) := by
  let finish (process : Process) : Process := updateStats cfg.clock
    { process with serviceTimeLeft := 0, state := .finished, finishTime := simTime }
  apply h.update finish finish
  rintro p1 _ ⟨hpid⟩
  exact (.mk hpid : (finish p1).Twin _)

theorem Twins.dispatched (h : Twins σ procs procs') (p : ProcId) :
    Twins σ (dispatchedProcs cfg procs p)
      (dispatchedProcs (cfg.withFork fork) procs' (σ p)) := by
  let dispatch (pid : ℕ) (process : Process) : Process :=
    { process with pid := if process.pid = 0 then pid else process.pid, state := .running }
  apply h.update (dispatch (cfg.fork p)) (dispatch (fork (σ p)))
  rintro p1 _ ⟨hpid⟩
  refine (.mk ?_ : (dispatch (cfg.fork p) p1).Twin _)
  by_cases hzero : p1.pid = 0 <;> simp [dispatch, hpid, hzero]

theorem scheduleOf_append (trace new : List Entry) :
    scheduleOf (trace ++ new) = scheduleOf trace ++ scheduleOf new := List.filter_append trace new

theorem scheduleOf_scheduling (s : State) (h : ∀ e ∈ events, e.isScheduling = true) :
    scheduleOf (s.entries events) = s.entries events := by
  apply List.filter_eq_self.mpr
  intro entry hentry
  obtain ⟨e, he, rfl⟩ := List.mem_map.mp hentry
  exact h e he

theorem scheduleOf_other (s : State) (h : ∀ e ∈ events, e.isScheduling = false) :
    scheduleOf (s.entries events) = [] := by
  apply List.filter_eq_nil_iff.mpr
  intro entry hentry
  obtain ⟨e, he, rfl⟩ := List.mem_map.mp hentry
  simp [h e he]

theorem Charge.scheduling (hc : Charge cfg s events s') : ∀ e ∈ events, e.isScheduling = true := by
  intro e he
  rcases hc.event_cases he with ⟨_, _, rfl, -⟩ | ⟨_, rfl, -⟩ <;> rfl

theorem Admit.not_scheduling (ha : Admit cfg s events s') :
    ∀ e ∈ events, e.isScheduling = false := by
  intro e he
  rcases ha.event_cases he with ⟨_, -, rfl⟩ | ⟨_, _, rfl⟩ | ⟨_, _, rfl⟩ <;> rfl

theorem Schedule.scheduling (hsjf : cfg.scheduler = .sjf) (hs : Schedule cfg s events s') :
    ∀ e ∈ events, e.isScheduling = true := by
  intro e he
  rcases hs.event_cases he with ⟨_, rfl⟩ | ⟨_, rfl⟩ | ⟨_, _, rfl⟩ | ⟨hrr, -⟩
  · rfl
  · rfl
  · rfl
  · simp [hrr] at hsjf

theorem dispatchEvents_rename (h : Twins σ procs procs') (p : ProcId) :
    dispatchEvents procs' (σ p) = (dispatchEvents procs p).map (Event.rename σ) := by
  by_cases hpid : (procs p).pid = 0 <;>
    simp [dispatchEvents, (h p).pid, (h p).timeLeft, hpid, Event.rename]

/-- The states of the two runs: `t` is `s` with every process called `σ p`, its queues in another
order but for that of the finished processes. -/
structure State.Renamed (σ : Equiv.Perm ProcId) (s t : State) : Prop where
  simTime : t.simTime = s.simTime
  passes : t.passes = s.passes
  idle : t.noProcessRunning = s.noProcessRunning
  current : t.currentProcess = s.currentProcess.map σ
  numProcesses : t.numProcesses = s.numProcesses
  processes : t.processes.Perm (s.processes.map σ)
  input : t.inputQueue.Perm (s.inputQueue.map σ)
  ready : t.readyQueue.items.Perm (s.readyQueue.items.map σ)
  finished : t.finishedQueue = s.finishedQueue.map σ
  procs : Twins σ s.procs t.procs
  schedule : scheduleOf t.trace = (scheduleOf s.trace).map (Entry.rename σ)

theorem State.Renamed.running (h : s.Renamed σ t) : t.running = s.running.map σ := by
  rw [State.running, State.running, h.idle, h.current]
  cases s.noProcessRunning <;> cases s.currentProcess <;> rfl

/-- The log of a part of a pass, where it logs the same in both runs. -/
theorem State.Renamed.log (h : s.Renamed σ t) (he : ∀ e ∈ events, e.isScheduling = true)
    (he' : ∀ e ∈ events', e.isScheduling = true) (hevents : events' = events.map (Event.rename σ)) :
    scheduleOf (t.trace ++ t.entries events') =
      (scheduleOf (s.trace ++ s.entries events)).map (Entry.rename σ) := by
  rw [scheduleOf_append, scheduleOf_append, scheduleOf_scheduling t he',
    scheduleOf_scheduling s he, List.map_append, h.schedule, hevents]
  simp [State.entries, Entry.rename, h.passes, h.simTime, Function.comp_def]

theorem State.Renamed.sameSchedule (h : s.Renamed σ t) : SameSchedule σ s t where
  events := h.schedule
  finished := h.finished
  finishTime p := (h.procs p).statistics.1
  turnaroundTime p := (h.procs p).statistics.2.1
  overhead p := (h.procs p).statistics.2.2
  simTime := h.simTime

theorem State.Renamed.finishEvents (h : s.Renamed σ t) (hs : AtHead cfg workload s)
    (ht : AtHead (cfg.withFork fork) workload' t) (p : ProcId) :
    finishEvents t (σ p) = (finishEvents s p).map (Event.rename σ) := by
  have hinput := h.input.length_eq
  have hready := h.ready.length_eq
  rw [List.length_map] at hinput hready
  simp [ProcessManager.finishEvents, Event.rename, hs.ready.size_eq, ht.ready.size_eq, hinput,
    hready]

theorem Charge.renamed (hinf : cfg.memStrategy = .infinite) (hhead : AtHead cfg workload s)
    (hhead' : AtHead (cfg.withFork fork) workload' t) (h : s.Renamed σ t)
    (hs : Charge cfg s events s') (ht : Charge (cfg.withFork fork) t events' t') :
    events' = events.map (Event.rename σ) ∧ s'.Renamed σ t' := by
  have htrace := hs.clock.2.2
  have htrace' := ht.clock.2.2
  have hlog := h.log hs.scheduling ht.scheduling
  have hcurrent := h.current
  cases hs with
  | idle hcur =>
    cases ht with
    | idle => exact ⟨rfl, h⟩
    | quantum hcur' | finish hcur' => simp [hcur, hcur'] at hcurrent
  | @quantum p hcur hleft =>
    cases ht with
    | idle hcur' => simp [hcur, hcur'] at hcurrent
    | @quantum p' hcur' =>
      obtain rfl : p' = σ p := by simpa [hcur, hcur'] using hcurrent
      refine ⟨rfl, ?_⟩
      exact { h with procs := h.procs.charged p }
    | @finish p' store' hcur' hleft' =>
      obtain rfl : p' = σ p := by simpa [hcur, hcur'] using hcurrent
      rw [(h.procs p).timeLeft] at hleft'
      exact absurd hleft' (Nat.not_le.mpr hleft)
  | @finish p store hcur hleft hfree =>
    cases ht with
    | idle hcur' => simp [hcur, hcur'] at hcurrent
    | @quantum p' hcur' hleft' =>
      obtain rfl : p' = σ p := by simpa [hcur, hcur'] using hcurrent
      rw [(h.procs p).timeLeft] at hleft'
      exact absurd hleft (Nat.not_le.mpr hleft')
    | @finish p' store' hcur' hleft' hfree' =>
      obtain rfl : p' = σ p := by simpa [hcur, hcur'] using hcurrent
      have hevents := h.finishEvents hhead hhead' p
      have hstore := deallocateMemory_procs hfree
      have hstore' := deallocateMemory_procs hfree'
      have hkept : (cfg.withFork fork).memStrategy = .infinite := hinf
      rw [if_neg (by simp [hinf])] at hstore
      rw [if_neg (by simp [hkept])] at hstore'
      refine ⟨hevents, ?_⟩
      constructor
      case procs =>
        simp only [State.procs_emit, State.procs_mk, hstore, hstore', h.simTime]
        exact h.procs.finished s.simTime p
      case current =>
        cases hscheduler : cfg.scheduler <;> simp [Config.withFork, hscheduler]
      case finished => simp [h.finished]
      case schedule => exact hlog hevents
      case idle => rfl
      case simTime => exact h.simTime
      case passes => exact h.passes
      case numProcesses => exact h.numProcesses
      case processes => exact h.processes
      case input => exact h.input
      case ready => exact h.ready

theorem Invariant.arrived_filter (h : Invariant cfg workload s)
    (hsorted : s.processes.Pairwise fun a b =>
      (loadedProcs workload a).arrivalTime ≤ (loadedProcs workload b).arrivalTime) :
    s.arrived = s.processes.filter fun p => (loadedProcs workload p).arrivalTime ≤ s.simTime := by
  rw [h.arrived_eq]
  exact Serial.takeWhile_eq_filter hsorted

theorem State.Renamed.arrived (hσ : ∀ p, loadedProcs workload' (σ p) = loadedProcs workload p)
    (hinv : Invariant cfg workload s) (hinv' : Invariant (cfg.withFork fork) workload' t)
    (hsorted : s.processes.Pairwise fun a b =>
      (loadedProcs workload a).arrivalTime ≤ (loadedProcs workload b).arrivalTime)
    (hsorted' : t.processes.Pairwise fun a b =>
      (loadedProcs workload' a).arrivalTime ≤ (loadedProcs workload' b).arrivalTime)
    (h : s.Renamed σ t) :
    t.arrived.Perm (s.arrived.map σ) ∧ t.unarrived.Perm (s.unarrived.map σ) := by
  have hseen : t.arrived.Perm (s.arrived.map σ) := by
    rw [hinv.arrived_filter hsorted, hinv'.arrived_filter hsorted']
    have hfilter := h.processes.filter fun p => (loadedProcs workload' p).arrivalTime ≤ t.simTime
    simpa only [List.filter_map, Function.comp_def, hσ, h.simTime] using hfilter
  refine ⟨hseen, ?_⟩
  have hall : (t.arrived ++ t.unarrived).Perm ((s.arrived ++ s.unarrived).map σ) := by
    rw [t.arrived_append_unarrived, s.arrived_append_unarrived]
    exact h.processes
  rw [List.map_append] at hall
  exact (List.perm_append_left_iff _).mp ((hseen.symm.append_right _).trans hall)

/-- With infinite memory admission only marks the processes as ready. -/
theorem Admission.procs_infinite {pass pass' : Pass} {input taken left : List ProcId}
    (h : Admission .infinite pass input taken left pass') (hnodup : input.Nodup) (q : ProcId) :
    pass'.store.procs q = if q ∈ input then { pass.store.procs q with state := .ready }
      else pass.store.procs q := by
  obtain ⟨rfl, -⟩ := h.infinite
  split
  · rename_i hq
    obtain ⟨b, hb, hsame, -⟩ := h.procs_taken hnodup hq
    rw [hb, hsame rfl]
  · rename_i hq
    exact h.procs_other hq

theorem Admit.renamed (hinf : cfg.memStrategy = .infinite)
    (hinv : Invariant cfg workload s) (hinv' : Invariant (cfg.withFork fork) workload' t)
    (harrived : t.arrived.Perm (s.arrived.map σ))
    (hunarrived : t.unarrived.Perm (s.unarrived.map σ))
    (h : s.Renamed σ t) (hs : Admit cfg s events s')
    (ht : Admit (cfg.withFork fork) t events' t') : s'.Renamed σ t' := by
  have hkept : (cfg.withFork fork).memStrategy = .infinite := hinf
  have hquiet := scheduleOf_other s hs.not_scheduling
  have hquiet' := scheduleOf_other t ht.not_scheduling
  have htrace := hs.clock.2.2
  have htrace' := ht.clock.2.2
  have hinput : (t.inputQueue ++ t.arrived).Perm ((s.inputQueue ++ s.arrived).map σ) := by
    rw [List.map_append]
    exact h.input.append harrived
  cases hs with
  | @ofPass pass taken left hpass =>
    cases ht with
    | @ofPass pass' taken' left' hpass' =>
      rw [hinf] at hpass
      rw [hkept] at hpass'
      obtain ⟨rfl, rfl⟩ := hpass.infinite
      obtain ⟨rfl, rfl⟩ := hpass'.infinite
      obtain ⟨-, hready, -⟩ := hpass.ready hinv.ready
      obtain ⟨-, hready', -⟩ := hpass'.ready hinv'.ready
      constructor
      case procs =>
        intro q
        simp only [State.procs_emit, State.procs_mk]
        rw [hpass.procs_infinite hinv.waiting_nodup, hpass'.procs_infinite hinv'.waiting_nodup]
        have hmem : σ q ∈ t.inputQueue ++ t.arrived ↔ q ∈ s.inputQueue ++ s.arrived := by
          rw [hinput.mem_iff, List.mem_map_of_injective σ.injective]
        simp only [hmem]
        split
        · exact (h.procs q).withState .ready
        · exact h.procs q
      case ready =>
        have hboth : (t.readyQueue.items ++ (t.inputQueue ++ t.arrived)).Perm
            ((s.readyQueue.items ++ (s.inputQueue ++ s.arrived)).map σ) := by
          rw [List.map_append]
          exact h.ready.append hinput
        exact hready'.trans (hboth.trans (hready.map σ).symm)
      case schedule =>
        simp only [htrace, htrace', scheduleOf_append, hquiet, hquiet', List.append_nil]
        exact h.schedule
      case processes => exact hunarrived
      case input => exact .refl _
      case simTime => exact h.simTime
      case passes => exact h.passes
      case idle => exact h.idle
      case current => exact h.current
      case numProcesses => exact h.numProcesses
      case finished => exact h.finished

/-- Two processes that neither precede each other have one name. -/
theorem name_eq_of_compare {p1 p2 : Process} (h : compareProcess p1 p2 ≤ 0)
    (h' : compareProcess p2 p1 ≤ 0) : p1.name = p2.name := by
  have hkey : p1.key = p2.key :=
    le_antisymm ((compareProcess_le_iff p1 p2).mp h) ((compareProcess_le_iff p2 p1).mp h')
  simp only [Process.key, EmbeddingLike.apply_eq_iff_eq, Prod.mk.injEq] at hkey
  exact List.map_injective_iff.mpr (fun a b => UInt8.toNat_inj.mp) hkey.2.2

theorem loaded_name_inj (hnames : (workload.map Record.name).Nodup) (hp : p < workload.length)
    (hq : q < workload.length)
    (h : (loadedProcs workload p).name = (loadedProcs workload q).name) : p = q := by
  rw [loadedProcs_getElem hp, loadedProcs_getElem hq] at h
  have hname : (workload.map Record.name)[p]? = (workload.map Record.name)[q]? := by
    simpa [hp, hq, createProcess] using h
  exact (List.getElem?_inj (by simpa using hp) hnames).mp hname

/-- What comes out of the heap depends on what is in it only: there is one least process. -/
theorem State.Renamed.next {ready ready' : ReadyQueue} (hsjf : cfg.scheduler = .sjf)
    (hσ : ∀ p, loadedProcs workload' (σ p) = loadedProcs workload p)
    (hnames : (workload.map Record.name).Nodup) (hinv : Invariant cfg workload s)
    (hinv' : Invariant (cfg.withFork fork) workload' t) (h : s.Renamed σ t)
    (hnext : s.readyQueue.extract s.procs = .ok (some p, ready))
    (hnext' : t.readyQueue.extract t.procs = .ok (some q, ready')) :
    q = σ p ∧ ready'.items.Perm (ready.items.map σ) := by
  obtain ⟨-, hperm, -, hmin⟩ := hinv.ready.extract_ok hnext
  obtain ⟨-, hperm', -, hmin'⟩ := hinv'.ready.extract_ok hnext'
  have hsame : (q :: ready'.items).Perm ((p :: ready.items).map σ) :=
    hperm'.symm.trans (h.ready.trans (hperm.map σ))
  have hq : q = σ p := by
    obtain ⟨r, hr, rfl⟩ := List.mem_map.mp (hsame.mem_iff.mp List.mem_cons_self)
    by_contra hne
    have hrest : r ∈ ready.items := by
      rcases List.mem_cons.mp hr with rfl | hr
      · exact absurd rfl hne
      · exact hr
    have hrest' : σ p ∈ ready'.items := by
      have hmem : σ p ∈ σ r :: ready'.items :=
        hsame.mem_iff.mpr (List.mem_map_of_mem List.mem_cons_self)
      rcases List.mem_cons.mp hmem with heq | hmem
      · exact absurd heq.symm hne
      · exact hmem
    have hle := hmin hsjf r hrest
    have hle' := hmin' hsjf (σ p) hrest'
    rw [compareBy, compareProcess_congr (hinv.loaded p) (hinv.loaded r)] at hle
    rw [compareBy, compareProcess_congr (hinv'.loaded (σ r)) (hinv'.loaded (σ p)), hσ, hσ] at hle'
    have hplt : p < workload.length := hinv.lt_of_ready (hperm.mem_iff.mpr List.mem_cons_self)
    have hrlt : r < workload.length := hinv.lt_of_ready (hperm.mem_iff.mpr hr)
    have hpr := loaded_name_inj hnames hplt hrlt (name_eq_of_compare hle hle')
    exact hne (congrArg σ hpr.symm)
  subst hq
  rw [List.map_cons] at hsame
  exact ⟨rfl, hsame.cons_inv⟩

theorem Schedule.renamed (hsjf : cfg.scheduler = .sjf)
    (hσ : ∀ p, loadedProcs workload' (σ p) = loadedProcs workload p)
    (hnames : (workload.map Record.name).Nodup) (hinv : Invariant cfg workload s)
    (hinv' : Invariant (cfg.withFork fork) workload' t) (h : s.Renamed σ t)
    (hs : Schedule cfg s events s') (ht : Schedule (cfg.withFork fork) t events' t') :
    s'.Renamed σ t' := by
  have hsjf' : (cfg.withFork fork).scheduler = .sjf := hsjf
  have hlog := h.log (hs.scheduling hsjf) (ht.scheduling hsjf')
  have hrunning := h.running
  have hitems := h.ready
  cases hs with
  | idle hrun hempty =>
    cases ht with
    | idle => exact { h with current := rfl }
    | dispatch _ hnext' =>
      obtain ⟨-, hperm, -⟩ := hinv'.ready.extract_ok hnext'
      have hnone := hperm.symm.trans hitems
      simp [hempty] at hnone
    | resume hrun' => simp [hrun, hrun'] at hrunning
    | preempt hrr => simp [hsjf'] at hrr
  | @dispatch p ready hrun hnext =>
    cases ht with
    | idle _ hempty' =>
      obtain ⟨-, hperm, -⟩ := hinv.ready.extract_ok hnext
      rw [hempty'] at hitems
      have hnone := hitems.trans (hperm.map σ)
      simp at hnone
    | @dispatch q ready' hrun' hnext' =>
      obtain ⟨rfl, hready⟩ := h.next hsjf hσ hnames hinv hinv' hnext hnext'
      have hevents := dispatchEvents_rename h.procs p
      constructor
      case current => rfl
      case idle => rfl
      case ready => exact hready
      case procs => exact h.procs.dispatched p
      case schedule => exact hlog hevents
      case simTime => exact h.simTime
      case passes => exact h.passes
      case numProcesses => exact h.numProcesses
      case processes => exact h.processes
      case input => exact h.input
      case finished => exact h.finished
    | resume hrun' => simp [hrun, hrun'] at hrunning
    | preempt hrr => simp [hsjf'] at hrr
  | @resume p hrun _ =>
    cases ht with
    | idle hrun' | dispatch hrun' => simp [hrun, hrun'] at hrunning
    | @resume q hrun' _ =>
      obtain rfl : q = σ p := by simpa [hrun, hrun'] using hrunning
      exact { h with schedule := hlog rfl }
    | preempt hrr => simp [hsjf'] at hrr
  | preempt hrr => simp [hsjf] at hrr

theorem Step.renamed (hsjf : cfg.scheduler = .sjf) (hinf : cfg.memStrategy = .infinite)
    (hσ : ∀ p, loadedProcs workload' (σ p) = loadedProcs workload p)
    (hnames : (workload.map Record.name).Nodup) (hhead : AtHead cfg workload s)
    (hhead' : AtHead (cfg.withFork fork) workload' t)
    (hsorted : s.processes.Pairwise fun a b =>
      (loadedProcs workload a).arrivalTime ≤ (loadedProcs workload b).arrivalTime)
    (hsorted' : t.processes.Pairwise fun a b =>
      (loadedProcs workload' a).arrivalTime ≤ (loadedProcs workload' b).arrivalTime)
    (h : s.Renamed σ t) (hs : Step cfg s events s')
    (ht : Step (cfg.withFork fork) t events' t') : s'.Renamed σ t' := by
  cases hs with
  | @step s1 s2 s3 _ _ _ hcharge _ hadmits hsched =>
    cases ht with
    | @step t1 t2 t3 _ _ _ hcharge' _ hadmits' hsched' =>
      obtain ⟨-, h1⟩ := hcharge.renamed hinf hhead hhead' h hcharge'
      have hinv1 := hcharge.invariant hhead
      have hinv1' := hcharge'.invariant hhead'
      rw [← hcharge.processes] at hsorted
      rw [← hcharge'.processes] at hsorted'
      obtain ⟨harrived, hunarrived⟩ := h1.arrived hσ hinv1 hinv1' hsorted hsorted'
      have h2 := hadmits.renamed hinf hinv1 hinv1' harrived hunarrived h1 hadmits'
      have h3 := hsched.renamed hsjf hσ hnames (hadmits.invariant hinv1)
        (hadmits'.invariant hinv1') h2 hsched'
      have htime : (t3.tick (cfg.withFork fork)).simTime = (s3.tick cfg).simTime := by
        simp [Config.withFork, h3.simTime]
      have hcycles : (t3.tick (cfg.withFork fork)).passes = (s3.tick cfg).passes := by
        simp [h3.passes]
      exact { h3 with simTime := htime, passes := hcycles }

theorem loaded_rename (hσ : ∀ p, workload'[σ p]? = workload[p]?) (p : ProcId) :
    loadedProcs workload' (σ p) = loadedProcs workload p := by
  simp [loadedProcs, List.getD_eq_getElem?_getD, hσ]

theorem initialState_renamed (hσ : ∀ p, workload'[σ p]? = workload[p]?)
    (hperm : workload.Perm workload') :
    (initialState cfg workload).Renamed σ (initialState (cfg.withFork fork) workload') := by
  have hmem : ∀ p, σ p < workload'.length ↔ p < workload.length := by
    intro p
    have hnone : workload'.length ≤ σ p ↔ workload.length ≤ p := by
      rw [← List.getElem?_eq_none_iff, ← List.getElem?_eq_none_iff, hσ]
    exact lt_iff_lt_of_le_iff_le hnone
  constructor
  case processes =>
    apply (List.perm_ext_iff_of_nodup List.nodup_range
      (List.nodup_range.map σ.injective)).mpr
    intro a
    have ha := hmem (σ.symm a)
    rw [Equiv.apply_symm_apply] at ha
    rw [List.mem_range, ha, List.mem_map]
    constructor
    · intro hlt
      exact ⟨σ.symm a, List.mem_range.mpr hlt, σ.apply_symm_apply a⟩
    · rintro ⟨p, hp, rfl⟩
      simpa using hp
  case procs =>
    intro p
    have hloaded := loaded_rename hσ p
    change (loadedProcs workload p).Twin (loadedProcs workload' (σ p))
    rw [hloaded]
    exact .mk Iff.rfl
  case numProcesses => exact hperm.length_eq.symm
  case ready => simp [initialState]
  case simTime => rfl
  case passes => rfl
  case idle => rfl
  case current => rfl
  case input => exact .refl _
  case finished => rfl
  case schedule => rfl

theorem State.Renamed.numCycles (h : s.Renamed σ t) : t.numCycles = s.numCycles := by
  rw [State.numCycles, State.numCycles, h.passes]

theorem State.Renamed.agree (h : s.Renamed σ t) : t.Agree ↔ s.Agree := by
  rw [State.Agree, State.Agree, h.idle, h.current, Ne, Option.map_eq_none_iff]

/-- A pass with `num_cycles` 0 forgets the same processes in both runs. -/
theorem State.Renamed.entered (h : s.Renamed σ t) (cfg : Config) :
    (s.entered cfg).Renamed σ (t.entered (cfg.withFork fork)) := by
  by_cases h0 : s.numCycles = 0
  · rw [State.entered_of_eq h0, State.entered_of_eq (h.numCycles.trans h0)]
    exact { h with idle := rfl, current := rfl, ready := by simp }
  · rwa [State.entered_of_ne h0, State.entered_of_ne (h.numCycles.trans_ne h0)]

/-- Either both runs go on, or both leave the loop, or both drive NULL. -/
theorem cycleBody_renamed (hsjf : cfg.scheduler = .sjf) (hinf : cfg.memStrategy = .infinite)
    (hσ : ∀ p, loadedProcs workload' (σ p) = loadedProcs workload p)
    (hnames : (workload.map Record.name).Nodup) (horder : ArrivalOrder workload)
    (horder' : ArrivalOrder workload') (hn : run cfg workload n = .next s)
    (hn' : run (cfg.withFork fork) workload' n = .next t) (h : s.Renamed σ t) :
    Outcome.Rel (State.Renamed σ) (cycleBody cfg s) (cycleBody (cfg.withFork fork) t) := by
  have hhead := run_atHead n s hn
  have hhead' := run_atHead n t hn'
  apply cycleBody_related hhead hhead' h.numCycles h.agree
  case hcharge =>
    intro events events' s' t' hcharge hcharge'
    obtain ⟨rfl, hsim⟩ := hcharge.renamed hinf hhead hhead' h hcharge'
    refine ⟨by simp, ?_, hsim⟩
    rw [hsim.finished, List.length_map, hsim.numProcesses]
  case hstep =>
    intro events events' s' t' hstep hstep'
    have hsorted := run_sorted horder n s hn
    have hsorted' := run_sorted horder' n t hn'
    rw [← State.processes_entered cfg s] at hsorted
    rw [← State.processes_entered (cfg.withFork fork) t] at hsorted'
    exact hstep.renamed hsjf hinf hσ hnames hhead.entered hhead'.entered hsorted hsorted'
      (h.entered cfg) hstep'

/-- With distinct names, two files that list the same processes in order of arrival have one SJF
schedule: each pass dispatches, continues and finishes the same processes at the same times, and
they end with the same statistics. -/
theorem file_order_irrelevant (cfg : Config) (fork : ProcId → ℕ+)
    (workload workload' : List Record) (hsjf : cfg.scheduler = .sjf)
    (hinf : cfg.memStrategy = .infinite) (horder : ArrivalOrder workload)
    (horder' : ArrivalOrder workload') (hperm : workload.Perm workload')
    (hnames : (workload.map Record.name).Nodup) :
    ∃ σ : Equiv.Perm ProcId, (∀ p, workload'[σ p]? = workload[p]?) ∧
      ∀ n, Outcome.Rel (SameSchedule σ) (run cfg workload n)
        (run (cfg.withFork fork) workload' n) := by
  obtain ⟨σ, hσ⟩ := exists_rename hperm
  refine ⟨σ, hσ, ?_⟩
  have hrenamed : ∀ n, Outcome.Rel (State.Renamed σ) (run cfg workload n)
      (run (cfg.withFork fork) workload' n) := by
    apply iterate_rel (initialState_renamed hσ hperm)
    intro n s t hn hn' h
    exact cycleBody_renamed hsjf hinf (loaded_rename hσ) hnames horder horder' hn hn' h
  exact fun n => (hrenamed n).mono fun s t h => h.sameSchedule

/-- Two jobs that arrive together, listed in either order. -/
theorem file_order_irrelevant_twoJobs : ∃ σ : Equiv.Perm ProcId,
    ∀ n, Outcome.Rel (SameSchedule σ) (run (sampleConfig .sjf .infinite) twoJobs n)
      (run (sampleConfig .sjf .infinite) twoJobs.reverse n) := by
  obtain ⟨σ, -, h⟩ := file_order_irrelevant (sampleConfig .sjf .infinite) (fun _ => 1)
    twoJobs twoJobs.reverse rfl rfl (by simp [ArrivalOrder, twoJobs])
    (by simp [ArrivalOrder, twoJobs]) twoJobs.reverse_perm.symm (by simp [twoJobs])
  exact ⟨σ, h⟩

end ProcessManager
