import ProcessManager.Driving
import ProcessManager.MemoryRoom
import ProcessManager.Trace

/-! With room for all processes, a best-fit run takes the course of the run with infinite memory. -/
namespace ProcessManager

open Loop

variable {cfg : Config} {workload : List Record} {s s' t t' : State} {p q : ProcId}
  {events events' : List Event} {n : ℕ} {first : Record} {rest : List Record}
  {input taken taken' left left' : List ProcId} {pass pass' other other' : Pass}
  {procs procs' : ProcTable} {strategy : MemStrategy}

/-- The same arguments with another `-m` option. -/
def Config.withMemory (cfg : Config) (strategy : MemStrategy) : Config :=
  { cfg with memStrategy := strategy }

def Event.isReady : Event → Bool
  | .ready _ _ => true
  | _ => false

/-- The READY line is printed under best-fit only. -/
def withoutReady (trace : List Entry) : List Entry := trace.filter fun e => !e.event.isReady

/-- The process, but for the block it holds. -/
inductive Process.Alike (p : Process) : Process → Prop
  | mk (node : Option NodeId) : Alike p { p with blockNode := node }

/-- The state of a best-fit run with that of an infinite one: but for memory, and the lines printed
about it, they are the same. -/
inductive State.Similar (s : State) : State → Prop
  | mk {store : Store} {trace : List Entry} (hprocs : ∀ p, (s.procs p).Alike (store.procs p))
      (htrace : trace = withoutReady s.trace) :
      Similar s { s with store := store, trace := trace }

theorem Process.Alike.refl (p : Process) : p.Alike p := .mk p.blockNode

theorem Process.Alike.sameRecord {p1 p2 : Process} (h : p1.Alike p2) : p2.SameRecord p1 := by
  cases h
  exact ⟨rfl, rfl, rfl, rfl⟩

theorem Process.Alike.timeLeft {p1 p2 : Process} (h : p1.Alike p2) :
    p2.serviceTimeLeft = p1.serviceTimeLeft := by
  cases h
  rfl

theorem Process.Alike.pid {p1 p2 : Process} (h : p1.Alike p2) : p2.pid = p1.pid := by
  cases h
  rfl

theorem Process.Alike.withBlock {p1 p2 : Process} (h : p1.Alike p2) (node : Option NodeId) :
    { p1 with blockNode := node }.Alike p2 := by
  cases h with
  | mk other => exact .mk (p := { p1 with blockNode := node }) other

/-- What is done to a process in both runs, without a look at its block, keeps them alike. -/
theorem alike_update (f : Process → Process) (h : ∀ q, (procs q).Alike (procs' q))
    (hf : ∀ p1 p2, Process.Alike p1 p2 → (f p1).Alike (f p2)) (p q : ProcId) :
    (Function.update procs p (f (procs p)) q).Alike
      (Function.update procs' p (f (procs' p)) q) :=
  update_related Function.injective_id h (hf _ _ (h p)) q

theorem alike_setBlockNode (h : ∀ q, (procs q).Alike (procs' q)) (p : ProcId)
    (node : Option NodeId) (q : ProcId) : (setBlockNode procs p node q).Alike (procs' q) := by
  by_cases hq : q = p
  · subst hq
    simpa [setBlockNode] using (h q).withBlock node
  · simpa [setBlockNode, hq] using h q

theorem chargedProcs_alike (h : ∀ q, (procs q).Alike (procs' q)) (p q : ProcId) :
    (chargedProcs cfg procs p q).Alike (chargedProcs cfg procs' p q) := by
  apply alike_update (fun process =>
    { process with serviceTimeLeft := process.serviceTimeLeft - cfg.quantum }) h
  rintro _ _ ⟨node⟩
  exact .mk node

theorem finishedProcs_alike (h : ∀ q, (procs q).Alike (procs' q)) (simTime : ℕ) (p q : ProcId) :
    (finishedProcs cfg simTime procs p q).Alike (finishedProcs cfg simTime procs' p q) := by
  apply alike_update (fun process => updateStats cfg.clock
    { process with serviceTimeLeft := 0, state := .finished, finishTime := simTime }) h
  rintro _ _ ⟨node⟩
  exact .mk node

theorem dispatchedProcs_alike (h : ∀ q, (procs q).Alike (procs' q)) (p q : ProcId) :
    (dispatchedProcs cfg procs p q).Alike (dispatchedProcs cfg procs' p q) := by
  apply alike_update (fun process =>
    { process with
      pid := if process.pid = 0 then cfg.fork p else process.pid
      state := .running }) h
  rintro _ _ ⟨node⟩
  exact .mk node

theorem setState_alike (h : ∀ q, (procs q).Alike (procs' q)) (p : ProcId) (state : ProcessState)
    (q : ProcId) : (setState procs p state q).Alike (setState procs' p state q) := by
  apply alike_update (fun process => { process with state := state }) h
  rintro _ _ ⟨node⟩
  exact .mk node

theorem dispatchEvents_alike (h : ∀ q, (procs q).Alike (procs' q)) (p : ProcId) :
    dispatchEvents procs' p = dispatchEvents procs p := by
  simp only [dispatchEvents, (h p).pid, (h p).timeLeft]

theorem compareBy_alike (h : ∀ q, (procs q).Alike (procs' q)) :
    compareBy procs' = compareBy procs :=
  compareBy_congr fun q => (h q).sameRecord

/-- The queue operations see no difference. -/
theorem ReadyQueue.insert_alike (h : ∀ q, (procs q).Alike (procs' q)) (ready : ReadyQueue) :
    ready.insert procs' p = ready.insert procs p := by
  cases ready with
  | heap heap => rw [ReadyQueue.insert, ReadyQueue.insert, compareBy_alike h]
  | list list => rfl

theorem ReadyQueue.extract_alike (h : ∀ q, (procs q).Alike (procs' q)) (ready : ReadyQueue) :
    ready.extract procs' = ready.extract procs := by
  cases ready with
  | heap heap => rw [ReadyQueue.extract, ReadyQueue.extract, compareBy_alike h]
  | list list => rfl

theorem withoutReady_append (trace new : List Entry) :
    withoutReady (trace ++ new) = withoutReady trace ++ withoutReady new :=
  List.filter_append trace new

theorem withoutReady_entries (s : State) (events : List Event) :
    withoutReady (s.entries events) = s.entries (events.filter fun e => !e.isReady) := by
  simp [withoutReady, State.entries, List.filter_map, Function.comp_def]

/-- Only `process_ready` prints the line. -/
theorem withoutReady_other (s : State) (h : ∀ e ∈ events, e.isReady = false) :
    withoutReady (s.entries events) = s.entries events := by
  rw [withoutReady_entries, List.filter_eq_self.mpr fun e he => by simp [h e he]]

/-- Both runs log what is no READY line. -/
theorem similar_trace {trace : List Entry} (htrace : trace = withoutReady s.trace)
    (h : ∀ e ∈ events, e.isReady = false) :
    trace ++ s.entries events = withoutReady (s.trace ++ s.entries events) := by
  rw [withoutReady_append, withoutReady_other s h, htrace]

theorem finish_not_ready (s : State) (p : ProcId) : ∀ e ∈ finishEvents s p, e.isReady = false := by
  simp [finishEvents, Event.isReady]

theorem Schedule.not_ready (hs : Schedule cfg s events s') : ∀ e ∈ events, e.isReady = false := by
  intro e he
  rcases hs.event_cases he with ⟨_, rfl⟩ | ⟨_, rfl⟩ | ⟨_, _, rfl⟩ | ⟨_, ⟨_, _, rfl⟩ | ⟨_, rfl⟩⟩ <;>
    rfl

theorem Charge.similar (h : s.Similar t) (hs : Charge (cfg.withMemory .bestFit) s events s')
    (ht : Charge (cfg.withMemory .infinite) t events' t') : events' = events ∧ s'.Similar t' := by
  cases h with
  | @mk store trace hprocs htrace =>
    cases hs with
    | idle hcur =>
      cases ht with
      | idle => exact ⟨rfl, .mk hprocs htrace⟩
      | quantum hcur' | finish hcur' => simp [hcur] at hcur'
    | @quantum p hcur hleft =>
      cases ht with
      | idle hcur' => simp [hcur] at hcur'
      | quantum hcur' =>
        cases hcur.symm.trans hcur'
        exact ⟨rfl, .mk (chargedProcs_alike hprocs p) htrace⟩
      | finish hcur' hleft' =>
        cases hcur.symm.trans hcur'
        have hover : (s.procs p).serviceTimeLeft ≤ cfg.quantum :=
          (hprocs p).timeLeft.symm.trans_le hleft'
        exact absurd hover (Nat.not_le.mpr hleft)
    | @finish p used hcur hleft hfree =>
      cases ht with
      | idle hcur' => simp [hcur] at hcur'
      | quantum hcur' hleft' =>
        cases hcur.symm.trans hcur'
        have hmore : cfg.quantum < (s.procs p).serviceTimeLeft :=
          hleft'.trans_eq (hprocs p).timeLeft
        exact absurd hleft (Nat.not_le.mpr hmore)
      | finish hcur' _ hfree' =>
        cases hcur.symm.trans hcur'
        refine ⟨rfl, .mk (fun q => ?_) ?_⟩
        · have hfreed : used.procs = setBlockNode (finishedProcs cfg s.simTime s.procs p) p none :=
            deallocateMemory_procs hfree
          have hkept := deallocateMemory_procs hfree'
          simp only [State.procs_emit, State.procs_mk, hfreed]
          rw [hkept]
          exact alike_setBlockNode (finishedProcs_alike hprocs s.simTime p) p none q
        · exact similar_trace htrace (finish_not_ready s p)

/-- Two passes side by side. -/
structure Pass.Similar (pass other : Pass) : Prop where
  procs : ∀ q, (pass.store.procs q).Alike (other.store.procs q)
  ready : other.ready = pass.ready
  events : other.events = pass.events.filter fun e => !e.isReady

/-- A best-fit pass that leaves nobody behind takes the processes in the order in which the plain
loop does. -/
theorem Admission.similar (h : Admission .bestFit pass input taken left pass')
    (h' : Admission .infinite other input taken' left' other') (hleft : left = [])
    (hsim : pass.Similar other) : left' = [] ∧ pass'.Similar other' := by
  induction h generalizing other taken' with
  | nil =>
    cases h'
    exact ⟨rfl, hsim⟩
  | skip => simp at hleft
  | @take pass pass' p rest taken left st ready line htake hins _ ih =>
    cases h' with
    | skip hs => cases hs
    | @take _ _ _ _ _ _ st' ready' line' htake' hins' hrest' =>
      apply ih hrest' hleft
      cases htake'
      cases htake with
      | bestFit hplace =>
        have hprocs := setState_alike (alike_setBlockNode hsim.procs p (some pass.store.nextNode))
          p .ready
        rw [← hplace.procs] at hprocs
        refine ⟨hprocs, ?_, ?_⟩
        · rw [ReadyQueue.insert_alike hprocs, hsim.ready] at hins'
          exact Except.ok.inj (hins'.symm.trans hins)
        · simp [Pass.take, hsim.events, hsim.ready, Event.isReady]

theorem State.Similar.arrived (h : s.Similar t) :
    t.arrived = s.arrived ∧ t.unarrived = s.unarrived := by
  cases h with
  | @mk store trace hprocs htrace =>
    have harrived : (fun p => decide ((store.procs p).arrivalTime ≤ s.simTime)) =
        fun p => decide ((s.procs p).arrivalTime ≤ s.simTime) := by
      funext p
      rw [(hprocs p).sameRecord.arrivalTime]
    exact ⟨congrArg (List.takeWhile · s.processes) harrived,
      congrArg (List.dropWhile · s.processes) harrived⟩

theorem Admit.similar (h : s.Similar t) (hs : Admit (cfg.withMemory .bestFit) s events s')
    (ht : Admit (cfg.withMemory .infinite) t events' t') (hleft : s'.inputQueue = []) :
    s'.Similar t' := by
  obtain ⟨harrived, hunarrived⟩ := h.arrived
  cases hs with
  | @ofPass pass taken left hpass =>
    cases ht with
    | @ofPass other taken' left' hpass' =>
      rw [harrived, hunarrived]
      rw [harrived] at hpass'
      cases h with
      | @mk store trace hprocs htrace =>
        obtain ⟨rfl, hsim⟩ := hpass.similar hpass' hleft ⟨hprocs, rfl, rfl⟩
        obtain rfl : left = [] := hleft
        have hevents : s.arrived.map Event.arrive ++ other.events =
            (s.arrived.map Event.arrive ++ pass.events).filter fun e => !e.isReady := by
          rw [List.filter_append, hsim.events]
          congr 1
          simp [List.filter_map, Function.comp_def, Event.isReady]
        rw [hevents, hsim.ready]
        refine .mk hsim.procs ?_
        rw [htrace]
        exact (congrArg _ (withoutReady_entries s _).symm).trans (withoutReady_append _ _).symm

theorem Schedule.similar (hready : s.readyQueue.WellFormed cfg.scheduler s.procs)
    (h : s.Similar t) (hs : Schedule (cfg.withMemory .bestFit) s events s')
    (ht : Schedule (cfg.withMemory .infinite) t events' t') : s'.Similar t' := by
  have hquiet := hs.not_ready
  cases h with
  | @mk store trace hprocs htrace =>
    cases hs with
    | idle hrun hempty =>
      cases ht with
      | idle => exact .mk hprocs htrace
      | dispatch _ hnext =>
        rw [State.procs_mk, ReadyQueue.extract_alike hprocs] at hnext
        obtain ⟨-, hperm, -⟩ := hready.extract_ok hnext
        simp [hempty] at hperm
      | resume hrun' | preempt _ hrun' => cases hrun.symm.trans hrun'
    | @dispatch p ready hrun hnext =>
      cases ht with
      | idle _ hempty =>
        obtain ⟨-, hperm, -⟩ := hready.extract_ok hnext
        have hnil : s.readyQueue.items = [] := hempty
        simp [hnil] at hperm
      | dispatch _ hnext' =>
        rw [State.procs_mk, ReadyQueue.extract_alike hprocs] at hnext'
        cases hnext.symm.trans hnext'
        have hlog : trace ++ s.entries (dispatchEvents store.procs p) =
            withoutReady (s.trace ++ s.entries (dispatchEvents s.procs p)) := by
          rw [dispatchEvents_alike hprocs]
          exact similar_trace htrace hquiet
        exact .mk (dispatchedProcs_alike hprocs p) hlog
      | resume hrun' | preempt _ hrun' => cases hrun.symm.trans hrun'
    | @resume p hrun halone =>
      cases ht with
      | idle hrun' | dispatch hrun' => cases hrun.symm.trans hrun'
      | resume hrun' =>
        cases hrun.symm.trans hrun'
        exact .mk hprocs (similar_trace htrace hquiet)
      | preempt hrr _ hne => exact absurd (halone hrr) hne
    | @preempt p r queue ready hrr hrun hne hput hnext =>
      cases ht with
      | idle hrun' | dispatch hrun' => cases hrun.symm.trans hrun'
      | resume _ halone => exact absurd (halone hrr) hne
      | preempt _ hrun' _ hput' hnext' =>
        cases hrun.symm.trans hrun'
        rw [State.procs_mk, ReadyQueue.insert_alike hprocs] at hput'
        cases hput.symm.trans hput'
        rw [State.procs_mk, ReadyQueue.extract_alike hprocs] at hnext'
        cases hnext.symm.trans hnext'
        have hlog : trace ++ s.entries (.insert p s.readyQueue.items :: .stop p ::
              dispatchEvents store.procs r) = withoutReady (s.trace ++ s.entries
                (.insert p s.readyQueue.items :: .stop p :: dispatchEvents s.procs r)) := by
          rw [dispatchEvents_alike hprocs]
          exact similar_trace htrace hquiet
        exact .mk (dispatchedProcs_alike hprocs r) hlog

theorem Step.similar (hhead : AtHead (cfg.withMemory .bestFit) workload s)
    (hpos : Positive workload) (htiled : s.store.Tiled) (hroomy : s.Roomy) (h : s.Similar t)
    (hs : Step (cfg.withMemory .bestFit) s events s')
    (ht : Step (cfg.withMemory .infinite) t events' t') : s'.Similar t' := by
  cases hs with
  | @step s1 s2 s3 _ _ _ hcharge _ hadmits hsched =>
    cases ht with
    | step hcharge' _ hadmits' hsched' =>
      obtain ⟨-, h1⟩ := hcharge.similar h hcharge'
      have hinv := hcharge.invariant hhead
      have hdrained := hadmits.roomy hinv hpos rfl (hcharge.roomy hhead rfl htiled hroomy)
      have h2 := hadmits.similar h1 hadmits' hdrained.drained
      have h3 := hsched.similar (hadmits.invariant hinv).ready h2 hsched'
      cases h3 with
      | mk hprocs htrace => exact .mk hprocs htrace

theorem initialState_similar (cfg : Config) (workload : List Record) :
    (initialState (cfg.withMemory .bestFit) workload).Similar
      (initialState (cfg.withMemory .infinite) workload) :=
  .mk (s := initialState (cfg.withMemory .bestFit) workload) (fun _ => .refl _) rfl

theorem State.Similar.numCycles (h : s.Similar t) : t.numCycles = s.numCycles := by
  cases h
  rfl

theorem State.Similar.agree (h : s.Similar t) : t.Agree ↔ s.Agree := by
  cases h
  exact Iff.rfl

/-- A pass with `num_cycles` 0 forgets the same processes in both runs. -/
theorem State.Similar.entered (h : s.Similar t) (cfg : Config) :
    (s.entered (cfg.withMemory .bestFit)).Similar (t.entered (cfg.withMemory .infinite)) := by
  by_cases h0 : s.numCycles = 0
  · rw [State.entered_of_eq h0, State.entered_of_eq (h.numCycles.trans h0)]
    cases h with
    | mk hprocs htrace =>
      exact .mk (s := s.restarted (cfg.withMemory .bestFit)) hprocs htrace
  · rwa [State.entered_of_ne h0, State.entered_of_ne (h.numCycles.trans_ne h0)]

/-- Either both runs go on, or both leave the loop, or both drive NULL. -/
theorem cycleBody_similar (hpos : Positive workload)
    (hsum : (workload.map Record.memRequirement).sum ≤ memCapacity)
    (hn : run (cfg.withMemory .bestFit) workload n = .next s)
    (hn' : run (cfg.withMemory .infinite) workload n = .next t) (h : s.Similar t) :
    Outcome.Rel State.Similar (cycleBody (cfg.withMemory .bestFit) s)
      (cycleBody (cfg.withMemory .infinite) t) := by
  have hhead := run_atHead n s hn
  apply cycleBody_related hhead (run_atHead n t hn') h.numCycles h.agree
  case hcharge =>
    intro events events' s' t' hcharge hcharge'
    obtain ⟨rfl, hsim⟩ := hcharge.similar h hcharge'
    cases hsim with
    | mk hprocs htrace => exact ⟨Iff.rfl, Iff.rfl, .mk hprocs htrace⟩
  case hstep =>
    intro events events' s' t' hstep hstep'
    have htiled := run_tiled hpos rfl n s hn
    rw [← State.store_entered (cfg.withMemory .bestFit) s] at htiled
    exact hstep.similar hhead.entered hpos htiled
      ((run_roomy hpos rfl hsum n s hn).entered (cfg.withMemory .bestFit)) (h.entered cfg) hstep'

/-- When the requirements of all processes together fit into the capacity, the best-fit run and the
infinite run stay in step: in every pass the infinite run has logged what the best-fit run has,
READY lines apart, and no pass goes wrong before `num_cycles` is 0 again. -/
theorem room_for_all (cfg : Config) (first : Record) (rest : List Record)
    (harrival : first.arrivalTime = 0) (hpos : Positive (first :: rest))
    (hsum : ((first :: rest).map Record.memRequirement).sum ≤ 2048) (n : ℕ) :
    (∀ e, run (cfg.withMemory .bestFit) (first :: rest) n = .fault e → 2 ^ 32 < n) ∧
    Outcome.Rel State.Similar (run (cfg.withMemory .bestFit) (first :: rest) n)
      (run (cfg.withMemory .infinite) (first :: rest) n) := by
  have hfits : (loadedProcs (first :: rest) 0).memRequirement ≤ memCapacity := by
    have hrest : 0 ≤ (rest.map Record.memRequirement).sum := by
      apply List.sum_nonneg
      intro m hm
      obtain ⟨r, hr, rfl⟩ := List.mem_map.mp hm
      have := hpos r (List.mem_cons_of_mem _ hr)
      omega
    rw [List.map_cons, List.sum_cons] at hsum
    change first.memRequirement ≤ 2048
    omega
  have hstarts : Starts (cfg.withMemory .bestFit) (first :: rest) :=
    starts_of_arrived (first_arrived harrival) fun _ => hfits
  constructor
  · intro e hfault
    by_contra hle
    exact run_never_faults hstarts (by omega) e hfault
  · apply iterate_rel (initialState_similar cfg (first :: rest))
    intro m s t hm hm' h
    exact cycleBody_similar hpos hsum hm hm' h

theorem room_for_all_twoJobs :
    Outcome.Rel State.Similar (run (sampleConfig .rr .bestFit) twoJobs 3)
      (run (sampleConfig .rr .infinite) twoJobs 3) :=
  (room_for_all (sampleConfig .rr .bestFit) ⟨0, [65], 3, 8⟩ [⟨0, [66], 2, 16⟩] rfl
    (by simp [Positive]) (by simp) 3).2

end ProcessManager
