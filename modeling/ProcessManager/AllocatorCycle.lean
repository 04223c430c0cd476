import ProcessManager.AllocatorRuns
import ProcessManager.CycleInvariant

/-! The loop of `main.c` with its memory on the heap of nodes and blocks: what it asks of the
allocator is legal in every run, so that no run goes wrong there. -/
namespace ProcessManager.Raw

open DoublyLinked Fallible Loop

variable {malloc : World → Option Addr} {cfg : Config} {workload : List Record} {s s' : State}
  {m m' m₁ m₂ m₃ : Managed} {requests requests' : List Request} {events : List Event}
  {procs : ProcTable} {n : ℕ}

/-- From `m` on the requests are legal, and they lead to `m'`. -/
structure Performs (m : Managed) (requests : List Request) (m' : Managed) : Prop where
  legal : LegalRun m requests
  result : applyRequests m requests = .ok m'

theorem performs_nil (m : Managed) : Performs m [] m := ⟨trivial, rfl⟩

theorem performs_cons {request : Request} (hlegal : request.Legal m₁)
    (happly : request.apply m₁ = .ok m₂) (h : Performs m₂ requests m₃) :
    Performs m₁ (request :: requests) m₃ := by
  refine ⟨⟨hlegal, fun m hm => ?_⟩, ?_⟩
  · obtain rfl := Except.ok.inj (happly.symm.trans hm)
    exact h.legal
  · rw [applyRequests, happly]
    exact h.result

theorem Performs.append (h : Performs m₁ requests m₂) (h' : Performs m₂ requests' m₃) :
    Performs m₁ (requests ++ requests') m₃ := by
  induction requests generalizing m₁ with
  | nil =>
    obtain rfl := Except.ok.inj h.result
    exact h'
  | cons request rest ih =>
    obtain ⟨m, happly, hrest⟩ := ok_of_bind h.result
    exact performs_cons h.legal.1 happly (ih ⟨h.legal.2 m happly, hrest⟩)

/-- Writes that leave the blocks and the requirements alone. -/
theorem performs_write (hblock : ∀ p, (procs p).blockNode = (m.store.procs p).blockNode)
    (hmem : ∀ p, (procs p).memRequirement = (m.store.procs p).memRequirement) :
    Performs m [.write procs] { m with store := { m.store with procs := procs } } := by
  refine performs_cons hmem ?_ (performs_nil _)
  have hkeep : keepBlocks procs m.store.procs = procs := by
    funext p
    rw [keepBlocks, ← hblock p]
  rw [Request.apply, hkeep]

theorem performs_arrivals {ps : List ProcId} (hnd : (m.input ++ ps).Nodup)
    (hun : ∀ p ∈ ps, (m.store.procs p).blockNode = none) :
    Performs m (ps.map .arrive) { m with input := m.input ++ ps } := by
  induction ps generalizing m with
  | nil =>
    rw [List.append_nil]
    exact performs_nil m
  | cons p rest ih =>
    have hp : p ∉ m.input := fun hin => (List.nodup_append.mp hnd).2.2 p hin p (by simp) rfl
    have hnd' : (m.input ++ [p] ++ rest).Nodup := by simpa using hnd
    have hrest : Performs { m with input := m.input ++ [p] } (rest.map .arrive)
        { m with input := m.input ++ [p] ++ rest } :=
      ih hnd' fun q hq => hun q (List.mem_cons_of_mem p hq)
    rw [List.append_assoc, List.singleton_append] at hrest
    exact performs_cons ⟨hp, hun p (by simp)⟩ rfl hrest

/-- The memory of a state, with the READY lines that were printed. -/
def managed (s : State) : Managed :=
  ⟨s.store, s.inputQueue, (s.trace.map Entry.event).filterMap readyLine⟩

theorem managed_emit (s : State) (events : List Event) : managed (s.emit events) =
    { managed s with readyLines := (managed s).readyLines ++ events.filterMap readyLine } := by
  simp [managed, State.emit, Function.comp_def]

/-- Events that are no READY lines. -/
theorem managed_emit_of_none {events : List Event} (s : State)
    (h : events.filterMap readyLine = []) :
    managed (s.emit events) = managed s := by
  rw [managed_emit, h, List.append_nil]

/-- The event of a request, where it has one. -/
def Request.event : Request → Option Event
  | .arrive p => some (.arrive p)
  | .release p => some (.term p)
  | _ => none

def IsRequest : Event → Bool
  | .arrive _ => true
  | .term _ => true
  | _ => false

/-- The requests lead from one state to the next, and they are those of the events. -/
def Asks (s : State) (requests : List Request) (events : List Event) (s' : State) : Prop :=
  Performs (managed s) requests (managed s') ∧
    requests.filterMap Request.event = events.filter IsRequest

theorem charge_asks (h : AtHead cfg workload s) (hb : cfg.memStrategy = .bestFit)
    (hc : Charge cfg s events s') : ∃ requests, Asks s requests events s' := by
  cases hc with
  | idle => exact ⟨[], performs_nil _, rfl⟩
  | @quantum p hcur hleft =>
    exact ⟨_, performs_write (m := managed s) (update_field Process.blockNode (by rfl))
      (update_field Process.memRequirement (by rfl)), rfl⟩
  | @finish p store hcur hleft hfree =>
    rw [hb] at hfree
    have hwrite : Performs (managed s) [.write (finishedProcs cfg s.simTime s.procs p)] _ :=
      performs_write (finishedProcs_blockNode cfg _ _ p) (finishedProcs_memRequirement cfg _ _ p)
    have hrelease : Performs
        { managed s with store := { s.store with procs := finishedProcs cfg s.simTime s.procs p } }
        [.release p] { managed s with store := store } := by
      refine performs_cons (h.retired_block hcur hb) ?_ (performs_nil _)
      simp only [Request.apply, hfree]
      rfl
    refine ⟨[.write (finishedProcs cfg s.simTime s.procs p), .release p], ?_, rfl⟩
    rw [managed_emit_of_none _ rfl]
    exact hwrite.append hrelease

/-- `update_input` and `allocate_memory`, by what they leave. -/
theorem admitInput_eq (hb : cfg.memStrategy = .bestFit) (h : admitInput cfg s = .ok s') :
    ∃ pass left, ProcessManager.allocateMemory .bestFit s.store (s.inputQueue ++ s.arrived)
        s.readyQueue = .ok (pass, left) ∧
      s' = { s with
        processes := s.unarrived
        inputQueue := left
        store := pass.store
        readyQueue := pass.ready }.emit (s.arrived.map Event.arrive ++ pass.events) := by
  obtain ⟨⟨pass, left⟩, hrun, heq⟩ := ok_of_bind (show (ProcessManager.allocateMemory
    cfg.memStrategy (updateInput s).store (updateInput s).inputQueue (updateInput s).readyQueue >>=
    fun r => _) = Except.ok s' from h)
  rw [hb] at hrun
  refine ⟨pass, left, hrun, ?_⟩
  obtain rfl := Except.ok.inj heq
  simp [updateInput, State.emit, State.arrived, State.unarrived]

theorem admit_asks (h : Invariant cfg workload s) (hb : cfg.memStrategy = .bestFit)
    (ha : admitInput cfg s = .ok s') : ∃ requests events, Asks s requests events s' ∧
      s'.trace = s.trace ++ s.entries events := by
  obtain ⟨pass, left, hrun, rfl⟩ := admitInput_eq hb ha
  obtain ⟨taken, hadmission⟩ := allocateMemory_admission (fun _ => h.indexed hb) h.waiting_nodup
    (fun _ => h.waiting_unallocated hb) hrun
  obtain ⟨new, hevents, hkind⟩ := hadmission.events
  have hnone : pass.events.filter IsRequest = [] := by
    refine List.filter_eq_nil_iff.mpr fun e he => ?_
    rw [hevents, List.nil_append] at he
    rcases hkind e he with ⟨q, ahead, rfl⟩ | ⟨q, a, rfl⟩ <;> simp [IsRequest]
  have harrive : Performs (managed s) (s.arrived.map .arrive) _ := performs_arrivals
    (show ((managed s).input ++ s.arrived).Nodup from h.waiting_nodup)
    fun p hp => h.waiting_unallocated hb p (List.mem_append_right _ hp)
  refine ⟨s.arrived.map .arrive ++ [.allocate s.readyQueue], _, ⟨harrive.append ?_, ?_⟩, rfl⟩
  · refine performs_cons ⟨cfg.scheduler, h.ready⟩ ?_ (performs_nil _)
    have hlines : (s.arrived.map Event.arrive ++ pass.events).filterMap readyLine =
        pass.events.filterMap readyLine := by
      have hnil : s.arrived.filterMap (readyLine ∘ Event.arrive) = [] :=
        List.filterMap_eq_nil_iff.mpr fun p _ => rfl
      rw [List.filterMap_append, List.filterMap_map, hnil, List.nil_append]
    rw [managed_emit, hlines]
    change (ProcessManager.allocateMemory .bestFit s.store (s.inputQueue ++ s.arrived) s.readyQueue
      >>= _) = _
    rw [hrun]
    rfl
  · rw [List.filterMap_append, List.filterMap_map, List.filter_append, hnone, List.filter_map]
    simp [Request.event, IsRequest, Function.comp_def]

/-- Driving a process prints no READY line and asks nothing of the allocator. -/
theorem dispatchEvents_quiet (procs : ProcTable) (p : ProcId) :
    (dispatchEvents procs p).filterMap readyLine = [] ∧
      (dispatchEvents procs p).filter IsRequest = [] := by
  unfold dispatchEvents
  split <;> exact ⟨rfl, rfl⟩

theorem dispatch_asks (s : State) (p : ProcId) (ready : ReadyQueue)
    (hlines : events.filterMap readyLine = []) (hquiet : events.filter IsRequest = []) :
    Asks s [.write (dispatchedProcs cfg s.procs p)] events
      (({ s with
          readyQueue := ready
          currentProcess := some p
          noProcessRunning := false }.setProcs (dispatchedProcs cfg s.procs p)).emit events) := by
  refine ⟨?_, by rw [hquiet]; rfl⟩
  rw [managed_emit_of_none _ hlines]
  exact performs_write (m := managed s) (dispatchedProcs_blockNode cfg s.procs p)
    fun q => (dispatchedProcs_sameRecord cfg s.procs p q).memRequirement

theorem schedule_asks (hs : Schedule cfg s events s') : ∃ requests, Asks s requests events s' := by
  cases hs with
  | idle => exact ⟨[], performs_nil _, rfl⟩
  | @dispatch p ready hrun hnext =>
    obtain ⟨hlines, hquiet⟩ := dispatchEvents_quiet s.procs p
    exact ⟨_, dispatch_asks s p ready hlines hquiet⟩
  | resume =>
    refine ⟨[], ?_, rfl⟩
    rw [managed_emit_of_none _ rfl]
    exact performs_nil _
  | @preempt p r queue ready =>
    obtain ⟨hlines, hquiet⟩ := dispatchEvents_quiet s.procs r
    exact ⟨_, dispatch_asks s r ready hlines hquiet⟩

/-- The parts of any pass that goes on, with the call of `allocate_memory` it makes. -/
theorem pass_parts (h : AtHead cfg workload s) (hbody : cycleBody cfg s = .next s') :
    ∃ charged s1 s2 driven s3, Charge cfg (s.entered cfg) charged s1 ∧
      admitInput cfg s1 = .ok s2 ∧ Schedule cfg s2 driven s3 ∧ s' = s3.tick cfg := by
  by_cases h0 : s.numCycles = 0
  · obtain ⟨-, s2, driven, s3, hadmit, -, hsched, hok⟩ := firstCycle_parts h
    rw [cycleBody, if_pos h0, hok] at hbody
    cases hbody
    rw [State.entered_of_eq h0]
    exact ⟨[], s.restarted cfg, s2, driven, s3, .idle rfl, hadmit, hsched, rfl⟩
  · obtain ⟨-, -, -, s2, driven, s3, -, -, hat, hsched, heq⟩ := cycleBody_next_parts h h0 hbody
    obtain ⟨-, s1, finished, hcharged, -, hadmit⟩ := hat
    obtain ⟨charged, t, hok, hcharge⟩ := chargeQuantum_charge h
    obtain ⟨rfl, -⟩ := Prod.mk.inj (Except.ok.inj (hok.symm.trans hcharged))
    rw [State.entered_of_ne h0]
    exact ⟨charged, t, s2, driven, s3, hcharge, hadmit, hsched, heq⟩

/-- The requests that led to a state, as its trace has them. -/
def AskedFor (workload : List Record) (requests : List Request) (s : State) : Prop :=
  Performs (startManaged (loadedProcs workload)) requests (managed s) ∧
    requests.filterMap Request.event = (s.trace.map Entry.event).filter IsRequest

theorem AskedFor.step (h : AskedFor workload requests s) (ha : Asks s requests' events s')
    (htrace : s'.trace = s.trace ++ s.entries events) :
    AskedFor workload (requests ++ requests') s' := by
  refine ⟨h.1.append ha.1, ?_⟩
  have hentries : (s.entries events).map Entry.event = events := by
    simp [State.entries, Function.comp_def]
  rw [List.filterMap_append, h.2, ha.2, htrace, List.map_append, List.filter_append, hentries]

/-- A process that is dropped keeps its block, and nothing is asked for. -/
theorem AskedFor.entered (h : AskedFor workload requests s) (cfg : Config) :
    AskedFor workload requests (s.entered cfg) := by
  unfold State.entered
  split
  · exact h
  · exact h

theorem AskedFor.pass (h : AtHead cfg workload s) (hb : cfg.memStrategy = .bestFit)
    (hbody : cycleBody cfg s = .next s') (hs : AskedFor workload requests s) :
    ∃ requests, AskedFor workload requests s' := by
  obtain ⟨charged, s1, s2, driven, s3, hcharge, hadmit, hsched, rfl⟩ := pass_parts h hbody
  obtain ⟨asked1, h1⟩ := charge_asks h.entered hb hcharge
  obtain ⟨asked2, admitted, h2, htrace⟩ := admit_asks (hcharge.invariant h.entered) hb hadmit
  obtain ⟨asked3, h3⟩ := schedule_asks hsched
  have hlast := (hs.entered cfg).step h1 hcharge.clock.2.2
  exact ⟨_, (hlast.step h2 htrace).step h3 hsched.clock.2.2⟩

theorem run_askedFor (hb : cfg.memStrategy = .bestFit) (h : (run cfg workload n).state? = some s) :
    ∃ requests, AskedFor workload requests s := by
  have hnext : ∀ n s, run cfg workload n = .next s → ∃ requests, AskedFor workload requests s := by
    refine iterate_invariant ⟨[], performs_nil _, rfl⟩ ?_
    rintro n s s' hn ⟨requests, hs⟩ hbody
    exact hs.pass (run_atHead n s hn) hb hbody
  rcases run_state_cases h with hrun | ⟨m, t, events, -, ht, -, hcharge, -⟩
  · exact hnext n s hrun
  · obtain ⟨requests, hs⟩ := hnext m t ht
    obtain ⟨asked, ha⟩ := charge_asks (run_atHead m t ht) hb hcharge
    exact ⟨_, hs.step ha hcharge.clock.2.2⟩

/-- Every best-fit run asks only for what is legal, so that on the heap, with any `malloc`, it goes
wrong nowhere: in every state its lists, blocks and READY lines are those of the run, and the frees
at the end leave nothing behind. -/
theorem run_on_heap (hfresh : Fresh malloc) (hb : cfg.memStrategy = .bestFit)
    (h : (run cfg workload n).state? = some s) :
    ∃ requests, requests.filterMap Request.event = (s.trace.map Entry.event).filter IsRequest ∧
      Meets (OutOfMemory malloc) (serve malloc requests) (blankWorld (loadedProcs workload))
        fun _ w => Carries w (managed s) ∧
          ∃ w', freeLists w = .ok ((), w') ∧ (∀ a, w'.heap a = none) ∧ ∀ a, w'.blocks a = none := by
  obtain ⟨requests, hperforms, hevents⟩ := run_askedFor hb h
  have hnone : ∀ p, (loadedProcs workload p).blockNode = none := fun p => rfl
  obtain ⟨m, hresult, -, hmeets⟩ := serve_carried hfresh hnone hperforms.legal
  obtain rfl := Except.ok.inj (hresult.symm.trans hperforms.result)
  refine ⟨requests, hevents, hmeets.mono fun _ w hw => ⟨hw, ?_⟩⟩
  obtain ⟨N, hnames, -⟩ := hw
  exact freeLists_names hnames

theorem run_on_heap_twoJobs : ∃ s requests,
    (run (sampleConfig .sjf .bestFit) twoJobs 2).state? = some s ∧ s.finishedQueue = [1] ∧
      requests.filterMap Request.event = (s.trace.map Entry.event).filter IsRequest ∧
      Meets (OutOfMemory lowestFree) (serve lowestFree requests) (blankWorld (loadedProcs twoJobs))
        fun _ w => Carries w (managed s) := by
  have hrun : (run (sampleConfig .sjf .bestFit) twoJobs 2).state?.map (·.finishedQueue) =
      some [1] := by decide +kernel
  obtain ⟨s, hs, hfinished⟩ := Option.map_eq_some_iff.mp hrun
  obtain ⟨requests, hevents, hmeets⟩ := run_on_heap lowestFree_fresh rfl hs
  exact ⟨s, requests, hs, hfinished, hevents, hmeets.mono fun _ _ h => h.1⟩

end ProcessManager.Raw
