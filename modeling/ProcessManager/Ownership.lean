import ProcessManager.BestFit
import ProcessManager.Makespan
import ProcessManager.Trace

/-! Under best-fit a process owns a block exactly while it is ready or running, as long as no pass
drops it. -/
namespace ProcessManager

open Loop Tiling

variable {cfg : Config} {workload : List Record} {s s' : State} {p q : ProcId}
  {events : List Event} {n : ℕ} {st : Store} {node : NodeId} {input taken left : List ProcId}
  {pass pass' : Pass}

/-- The process has a block, and it is a PROCESS node of memory. -/
def Store.Owns (st : Store) (p : ProcId) : Prop :=
  ∃ node, (st.procs p).blockNode = some node ∧ node ∈ st.memory ∧ st.typeOf node = .process

theorem Store.Indexed.owns_iff (hi : st.Indexed) :
    st.Owns p ↔ (st.procs p).blockNode ≠ none := by
  constructor
  · rintro ⟨node, hnode, -⟩ hnone
    simp [hnode] at hnone
  · intro hne
    obtain ⟨node, hnode⟩ := Option.ne_none_iff_exists'.mp hne
    exact ⟨node, hnode, (hi.owned node).mp ⟨p, hnode⟩⟩

/-- A pass leaves the blocks of the processes it does not look at. -/
theorem Admission.keeps_owner (h : Admission .bestFit pass input taken left pass')
    (hi : pass.store.Indexed) (hnd : input.Nodup)
    (hun : ∀ p ∈ input, (pass.store.procs p).blockNode = none) (hq : q ∉ input)
    (hn : (pass.store.procs q).blockNode = some node) :
    (pass'.store.procs q).blockNode = some node ∧
      pass'.store.block node = pass.store.block node := by
  induction h with
  | nil => exact ⟨hn, rfl⟩
  | skip _ _ _ ih =>
    simp only [List.mem_cons, not_or] at hq
    exact ih hi (List.nodup_cons.mp hnd).2 (fun r hr => hun r (List.mem_cons_of_mem _ hr)) hq.2 hn
  | @take pass pass' p rest taken left st ready line htake _ _ ih =>
    simp only [List.mem_cons, not_or] at hq
    cases htake with
    | @bestFit _ _ _ L R hole hplace =>
      obtain ⟨howner, -, hblock⟩ := hplace.keeps_owner hi hq.1 hn
      have hn' : ((pass.take p st ready
          [.ready p (pass.store.block hole).startAddress]).store.procs q).blockNode = some node :=
        (setState_blockNode _ q).trans howner
      obtain ⟨howner, hsame⟩ := ih (take_indexed hplace hi (hun p (by simp)))
        (List.nodup_cons.mp hnd).2 (take_waiting hplace hnd hun) hq.2 hn'
      exact ⟨howner, hsame.trans hblock⟩

/-- The block of a process starts where its READY line says. -/
def Store.StartsAt (st : Store) (p : ProcId) (address : ℤ) : Prop :=
  ∃ node, (st.procs p).blockNode = some node ∧ (st.block node).startAddress = address

theorem Admission.starts_at (h : Admission .bestFit pass input taken left pass')
    (hi : pass.store.Indexed) (hnd : input.Nodup)
    (hun : ∀ p ∈ input, (pass.store.procs p).blockNode = none) {address : ℤ}
    (he : .ready q address ∈ pass'.events) :
    .ready q address ∈ pass.events ∨ pass'.store.StartsAt q address := by
  induction h with
  | nil => exact Or.inl he
  | skip _ _ _ ih =>
    exact ih hi (List.nodup_cons.mp hnd).2 (fun r hr => hun r (List.mem_cons_of_mem _ hr)) he
  | @take pass pass' p rest taken left st ready line htake _ hrest ih =>
    cases htake with
    | @bestFit _ _ _ L R hole hplace =>
      have hindexed : (pass.take p st ready
          [.ready p (pass.store.block hole).startAddress]).store.Indexed :=
        take_indexed hplace hi (hun p (by simp))
      have hnd' := (List.nodup_cons.mp hnd).2
      rcases ih hindexed hnd' (take_waiting hplace hnd hun) he with hold | hnew
      · simp only [Pass.take, List.mem_append, List.mem_cons, List.not_mem_nil, reduceCtorEq,
          false_or, or_false, Event.ready.injEq] at hold
        rcases hold with hold | ⟨rfl, rfl⟩
        · exact Or.inl hold
        · right
          obtain ⟨hblock, hstart⟩ := hplace.startAddress
          have hn : ((pass.take q st ready
              [.ready q (pass.store.block hole).startAddress]).store.procs q).blockNode =
              some pass.store.nextNode := (setState_blockNode _ q).trans hblock
          obtain ⟨howner, hsame⟩ := hrest.keeps_owner hindexed hnd' (take_waiting hplace hnd hun)
            (List.nodup_cons.mp hnd).1 hn
          exact ⟨pass.store.nextNode, howner, (congrArg Block.startAddress hsame).trans hstart⟩
      · exact Or.inr hnew

theorem Schedule.startsAt {address : ℤ} (hs : Schedule cfg s events s')
    (h : s.store.StartsAt p address) : s'.store.StartsAt p address := by
  obtain ⟨node, hnode, hstart⟩ := h
  refine ⟨node, (hs.blockNode p).trans hnode, ?_⟩
  cases hs <;> exact hstart

theorem Step.startsAt {address : ℤ} (hb : cfg.memStrategy = .bestFit) (h : AtHead cfg workload s)
    (hs : Step cfg s events s') (he : .ready p address ∈ events) :
    s'.store.StartsAt p address := by
  cases hs with
  | @step s1 s2 s3 charged admitted driven hcharge _ hadmits hsched =>
    have hinv := hcharge.invariant h
    have hadmitted : .ready p address ∈ admitted := mem_admitted hcharge hsched he rfl
    have hstarts : s2.store.StartsAt p address := by
      cases hadmits with
      | @ofPass pass taken left hpass =>
        have hline : .ready p address ∈ pass.events := by
          rcases List.mem_append.mp hadmitted with hmem | hmem
          · simp at hmem
          · exact hmem
        rw [hb] at hpass
        rcases hpass.starts_at (hinv.indexed hb) hinv.waiting_nodup (hinv.waiting_unallocated hb)
          hline with hnil | hat
        · simp at hnil
        · exact hat
    exact hsched.startsAt hstarts

/-- The call of `deallocate_memory` that goes with a termination: the process owns a block, and the
call succeeds. -/
def Freed (cfg : Config) (s : State) (p : ProcId) : Prop :=
  ∃ store, deallocateMemory cfg.memStrategy
      { s.store with procs := finishedProcs cfg s.simTime s.procs p } p = .ok store ∧
    ({ s.store with procs := finishedProcs cfg s.simTime s.procs p } : Store).Owns p ∧
    ¬ store.Owns p

theorem Charge.freed (hb : cfg.memStrategy = .bestFit) (h : AtHead cfg workload s)
    (hc : Charge cfg s events s') (he : .term p ∈ events) : Freed cfg s p := by
  cases hc with
  | idle => simp at he
  | quantum => simp at he
  | @finish q store hcur _ hfree =>
    obtain rfl : p = q := by simpa [finishEvents] using he
    refine ⟨store, hfree, ?_, ?_⟩
    · rw [(h.retired_indexed p hb).owns_iff]
      exact h.retired_block hcur hb
    · rintro ⟨node, hnode, -⟩
      rw [deallocateMemory_procs hfree, if_pos hb, setBlockNode_blockNode, if_pos rfl] at hnode
      cases hnode

theorem FromPass.freed {entry : Entry} (hb : cfg.memStrategy = .bestFit)
    (h : FromPass cfg workload n entry) (he : entry.event = .term p) :
    ∃ t, run cfg workload entry.cycle = .next t ∧ Freed cfg t p := by
  obtain ⟨-, t, events, t', ht, hperforms, hmem, -⟩ := h
  have hhead := run_atHead _ t ht
  rw [he] at hmem
  refine ⟨t, ht, ?_⟩
  rcases hperforms with ⟨-, hstep⟩ | ⟨-, hcharge⟩
  · cases hstep with
    | step hcharge _ hadmits hsched =>
      have hcharged := mem_charged hadmits hsched hmem rfl
      rw [hcharge.entered_of_mem hcharged] at hcharge
      exact hcharge.freed hb hhead hcharged
  · exact hcharge.freed hb hhead hmem

/-- When the loop is left, nobody holds a block, so memory is one hole again. -/
theorem run_done_memory (hb : cfg.memStrategy = .bestFit) (hpos : Positive workload)
    (h : run cfg workload n = .done s) :
    ∃ node, s.store.memory = [node] ∧ s.store.holes = [node] ∧
      s.store.block node = ⟨.hole, 0, 2048⟩ := by
  obtain ⟨m, t, events, -, ht, -, hcharge, -, hend⟩ := run_done h
  have hhead := run_atHead m t ht
  have hinv := hcharge.invariant hhead
  have htiled := hcharge.tiled hhead hb (run_tiled hpos hb m t ht)
  obtain ⟨hall, -⟩ := hinv.all_finished hend
  have hfree : ∀ p, (s.store.procs p).blockNode = none := by
    intro p
    apply hinv.unheld hb p
    rw [hall.mem_iff, List.mem_range]
    omega
  obtain ⟨node, hmemory, hholes, hsize⟩ := Store.single_hole (hinv.indexed hb) htiled hfree
  refine ⟨node, hmemory, hholes, ?_⟩
  have htype : s.store.typeOf node = .hole :=
    ((hinv.indexed hb).mem_holes.mp (by simp [hholes])).2
  have hstart : s.store.startOf node = 0 := by
    rw [Store.Tiled, hmemory] at htiled
    exact htiled.1
  change Block.mk (s.store.typeOf node) (s.store.startOf node) (s.store.getSize node) = _
  rw [htype, hstart, hsize]
  rfl

/-- Memory is held exactly by those who are live. -/
structure State.HeldWhileLive (s : State) : Prop where
  owns : ∀ p, s.store.Owns p ↔ p ∈ s.readyQueue.items ∨ p ∈ s.running
  blockNode : ∀ p, (s.procs p).blockNode ≠ none ↔ p ∈ s.readyQueue.items ∨ p ∈ s.running

theorem Invariant.heldWhileLive (h : Invariant cfg workload s) (hall : s.Complete workload)
    (hb : cfg.memStrategy = .bestFit) : s.HeldWhileLive where
  owns p := (h.indexed hb).owns_iff.trans (h.allocated hall hb p)
  blockNode := h.allocated hall hb

/-- A process that is dropped keeps its block. -/
theorem run_keeps_block (hb : cfg.memStrategy = .bestFit) (hs : run cfg workload n = .next s)
    (h0 : s.numCycles = 0) (hcur : s.currentProcess = some p) :
    ∃ s', (run cfg workload (n + 1)).state? = some s' ∧ ¬ s'.HeldWhileLive := by
  have hhead := run_atHead n s hs
  obtain ⟨-, s', hs', hout, hsame⟩ := run_dropped_current hs h0 hcur
  refine ⟨s', by rw [hs']; rfl, fun hheld => hout ?_⟩
  have hblock : (s'.procs p).blockNode ≠ none := by
    rw [hsame]
    exact hhead.held hb p (Or.inr (by simp [hhead.running_some hcur]))
  rcases (hheld.blockNode p).mp hblock with hp | hp <;> simp [State.members, hp]

theorem heldWhileLive_iff_undropped (hb : cfg.memStrategy = .bestFit) :
    (∀ m ≤ n, ∀ s, (run cfg workload m).state? = some s → s.HeldWhileLive) ↔
      Undropped cfg workload n := by
  constructor
  · intro hall m hm s hs h0
    by_contra hne
    obtain ⟨p, hcur⟩ := Option.ne_none_iff_exists'.mp hne
    obtain ⟨s', hs', hnot⟩ := run_keeps_block hb hs h0 hcur
    exact hnot (hall (m + 1) hm s' hs')
  · intro hno m hm s hs
    exact (run_state_invariant hs).heldWhileLive (run_complete (hno.mono hm) hs) hb

/-- No call of the allocator fails. -/
theorem run_fault_nullProcess {e : Fault} (h : run cfg workload n = .fault e) :
    e = .nullProcess := by
  obtain ⟨m, s, -, hs, hb⟩ := iterate_fault_origin h
  exact ((cycleBody_fault (run_atHead m s hs)).mp hb).1

/-- In the states that `n` passes of a best-fit run reach, a process owns a block if and only if it
is ready or running, exactly when none of these passes finds `num_cycles` 0 with a process running.
In every run the terminated processes are the finished ones, once each, and each owned the block
that was freed then; every READY line shows where the block starts; no call of the allocator fails;
and memory is one hole again when the loop is left. -/
theorem memory_held_while_live (cfg : Config) (first : Record) (rest : List Record)
    (hb : cfg.memStrategy = .bestFit) (hfirst : first.arrivalTime = 0)
    (hreq : ∀ r ∈ first :: rest, 1 ≤ r.memRequirement ∧ r.memRequirement ≤ 2048) :
    (∀ n, (∀ m ≤ n, ∀ s, (run cfg (first :: rest) m).state? = some s → s.HeldWhileLive) ↔
      Undropped cfg (first :: rest) n) ∧
    (∀ n s, (run cfg (first :: rest) n).state? = some s →
      terminated s.trace = s.finishedQueue ∧ s.finishedQueue.Nodup ∧
      (∀ entry ∈ s.trace, ∀ p, entry.event = .term p →
        ∃ t, run cfg (first :: rest) entry.cycle = .next t ∧ Freed cfg t p) ∧
      ∀ entry ∈ s.trace, ∀ p address, entry.event = .ready p address →
        ∃ t, run cfg (first :: rest) (entry.cycle + 1) = .next t ∧ t.store.Owns p ∧
          t.store.StartsAt p address) ∧
    (∀ n s, run cfg (first :: rest) n = .done s →
      s.finishedQueue.Perm (List.range (first :: rest).length) ∧
      ∃ node, s.store.memory = [node] ∧ s.store.holes = [node] ∧
        s.store.block node = ⟨.hole, 0, 2048⟩) ∧
    ∀ n e, run cfg (first :: rest) n = .fault e → e = .nullProcess ∧ 2 ^ 32 + 1 < n := by
  have hstarts : Starts cfg (first :: rest) := starts_of_arrived (first_arrived hfirst) fun _ => by
    simpa [loadedProcs, createProcess, memCapacity] using (hreq first (by simp)).2
  refine ⟨fun n => heldWhileLive_iff_undropped hb, ?_, ?_, ?_⟩
  · intro n s hs
    have hinv := run_state_invariant hs
    refine ⟨run_terminated hs, hinv.finished_nodup, ?_, ?_⟩
    · intro entry hentry p he
      exact (run_fromPass hs hentry).freed hb he
    · intro entry hentry p address he
      obtain ⟨t, events, t', ht, ht', hstep, hmem, -⟩ :=
        (run_fromPass hs hentry).step (by simp [he]) (by simp [he])
      have hat := hstep.startsAt hb (run_atHead _ t ht).entered (he ▸ hmem)
      have hindexed := (run_atHead _ t' ht').indexed hb
      refine ⟨t', ht', ?_, hat⟩
      obtain ⟨node, hnode, -⟩ := hat
      exact ⟨node, hnode, (hindexed.owned node).mp ⟨p, hnode⟩⟩
  · intro n s hs
    exact ⟨(run_done_finished hs).1, run_done_memory hb (fun r hr => (hreq r hr).1) hs⟩
  · intro n e hn
    refine ⟨run_fault_nullProcess hn, ?_⟩
    by_contra hle
    exact run_never_faults hstarts (not_lt.mp hle) e hn

/-- Two jobs in memory under RR: after three passes the one that runs owns a block, the one that
has finished owns none. -/
theorem memory_held_while_live_twoJobs : ∃ s : State,
    (run (sampleConfig .rr .bestFit) twoJobs 3).state? = some s ∧ s.store.Owns 0 ∧
      ¬ s.store.Owns 1 := by
  have hrun : ∃ s : State, (run (sampleConfig .rr .bestFit) twoJobs 3).state? = some s ∧
      s.readyQueue.items = [] ∧ s.running = [0] := ⟨_, rfl, rfl, rfl⟩
  obtain ⟨s, hs, hready, hrunning⟩ := hrun
  have hheld := ((memory_held_while_live (sampleConfig .rr .bestFit) ⟨0, [65], 3, 8⟩
    [⟨0, [66], 2, 16⟩] rfl rfl (by simp)).1 3).mpr (undropped_of_le (by omega)) 3 le_rfl s hs
  refine ⟨s, hs, (hheld.owns 0).mpr (by simp [hrunning]), fun h => ?_⟩
  have hlive := (hheld.owns 1).mp h
  simp [hready, hrunning] at hlive

/-- The job that runs when `num_cycles` is 0 again keeps its block, though it is neither ready nor
running after the pass. -/
theorem late_job_keeps_block : ¬ ∀ n s,
    (run (unitConfig .sjf .bestFit .uint32) lateJobs n).state? = some s → s.HeldWhileLive := by
  intro hall
  obtain ⟨s, hs, h0, hcur⟩ := lateJobs_running .bestFit .uint32
  obtain ⟨s', hs', hnot⟩ := run_keeps_block rfl hs h0 hcur
  exact hnot (hall (2 ^ 32 + 1) s' hs')

end ProcessManager
