import ProcessManager.Arrivals
import ProcessManager.CycleMemory

/-! The hole at the top of memory. As long as it has room for all that still wait, no process is
passed over, whatever holes the frees leave below it. -/
namespace ProcessManager

open Loop Tiling

variable {cfg : Config} {workload : List Record} {s s' : State} {p : ProcId}
  {events : List Event} {n node : NodeId} {st st' : Store} {L R L' R' : List NodeId} {bytes : ℤ}

/-- The highest block is a hole of at least `bytes` bytes, unless no room is asked for. -/
def Store.Room (st : Store) (bytes : ℤ) : Prop :=
  0 < bytes → ∃ L node, st.memory = L ++ [node] ∧ st.typeOf node = .hole ∧ bytes ≤ st.getSize node

theorem Store.Room.last (h : st.Room bytes) (hpos : 0 < bytes) (hm : st.memory = L ++ [node]) :
    st.typeOf node = .hole ∧ bytes ≤ st.getSize node := by
  obtain ⟨A, top, hA, htop⟩ := h hpos
  obtain ⟨-, heq⟩ := List.append_inj' (hA.symm.trans hm) rfl
  obtain rfl : top = node := by simpa using heq
  exact htop

/-- Only the blocks and their order matter. -/
theorem Store.Room.congr (h : st.Room bytes) (hm : st'.memory = st.memory)
    (hb : st'.block = st.block) : st'.Room bytes := by
  intro hpos
  obtain ⟨A, top, hA, htype, hsize⟩ := h hpos
  refine ⟨A, top, hm.trans hA, ?_, ?_⟩
  · rwa [Store.typeOf, hb]
  · rwa [Store.getSize, hb]

theorem initialiseMemory_room (procs : ProcTable) (h : bytes ≤ memCapacity) :
    (initialiseMemory procs).Room bytes :=
  fun _ => ⟨[], 0, rfl, rfl, h⟩

/-- The process takes at most its own share: from the low end of the top hole, or from another
hole. -/
theorem Placement.room (h : Placement st p L node R st') (hi : st.Indexed)
    (hroom : st.Room ((st.procs p).memRequirement + bytes))
    (hreq : 0 ≤ (st.procs p).memRequirement) : st'.Room bytes := by
  intro hpos
  have htotal : 0 < (st.procs p).memRequirement + bytes := by omega
  rcases List.eq_nil_or_concat R with rfl | ⟨R, top, rfl⟩
  · obtain ⟨-, hsize⟩ := hroom.last htotal h.memory
    rcases h.lists with ⟨heq, _⟩ | ⟨-, hm, -⟩
    · omega
    · refine ⟨L ++ [st.nextNode], node, by simp [hm], ?_, ?_⟩
      · rw [Store.typeOf, h.block_rest hi]
      · have hrest : st'.getSize node = st.getSize node - (st.procs p).memRequirement := by
          rw [Store.getSize, h.block_rest hi]
          rfl
        omega
  · rw [List.concat_eq_append] at h
    have hm : st.memory = (L ++ node :: R) ++ [top] := by simp [h.memory]
    obtain ⟨htype, hsize⟩ := hroom.last htotal hm
    have hsame : st'.block top = st.block top := h.block_side hi (Or.inr (by simp))
    have hlast : ∃ A, st'.memory = A ++ [top] := by
      rcases h.lists with ⟨-, hm', -⟩ | ⟨-, hm', -⟩
      · exact ⟨L ++ st.nextNode :: R, by simp [hm']⟩
      · exact ⟨L ++ st.nextNode :: node :: R, by simp [hm']⟩
    obtain ⟨A, hA⟩ := hlast
    refine ⟨A, top, hA, ?_, ?_⟩
    · rwa [Store.typeOf, hsame]
    · have hkept : st'.getSize top = st.getSize top := congrArg Block.size hsame
      omega

/-- A process for which there is room is never skipped. -/
theorem Store.Room.fits (h : st.Room bytes) (hi : st.Indexed) (hpos : 0 < bytes) :
    ∃ hole ∈ st.holes, bytes ≤ st.getSize hole := by
  obtain ⟨A, top, hA, htype, hsize⟩ := h hpos
  exact ⟨top, hi.mem_holes.mpr ⟨by simp [hA], htype⟩, hsize⟩

def requirements (procs : ProcTable) (l : List ProcId) : ℤ :=
  (l.map fun p => (procs p).memRequirement).sum

@[simp] theorem requirements_nil (procs : ProcTable) : requirements procs [] = 0 := rfl

@[simp] theorem requirements_cons (procs : ProcTable) (p : ProcId) (l : List ProcId) :
    requirements procs (p :: l) = (procs p).memRequirement + requirements procs l := by
  simp [requirements]

theorem requirements_append (procs : ProcTable) (l l' : List ProcId) :
    requirements procs (l ++ l') = requirements procs l + requirements procs l' := by
  simp [requirements]

theorem requirements_congr {procs procs' : ProcTable}
    (h : ∀ p, (procs' p).memRequirement = (procs p).memRequirement) (l : List ProcId) :
    requirements procs' l = requirements procs l := by
  simp [requirements, h]

theorem requirements_nonneg {procs : ProcTable} {l : List ProcId}
    (h : ∀ p ∈ l, 1 ≤ (procs p).memRequirement) : 0 ≤ requirements procs l := by
  induction l with
  | nil => exact le_rfl
  | cons p l ih =>
    have hp := h p (by simp)
    have hl := ih fun q hq => h q (List.mem_cons_of_mem _ hq)
    rw [requirements_cons]
    omega

/-- With room for the whole input queue and for `bytes` bytes beyond it, a pass empties the queue
and leaves the room. -/
theorem Admission.all_taken {input taken left : List ProcId} {pass pass' : Pass}
    (h : Admission .bestFit pass input taken left pass') (hi : pass.store.Indexed)
    (hnd : input.Nodup) (hun : ∀ p ∈ input, (pass.store.procs p).blockNode = none)
    (hreq : ∀ p ∈ input, 1 ≤ (pass.store.procs p).memRequirement) (hrest : 0 ≤ bytes)
    (hroom : pass.store.Room (requirements pass.store.procs input + bytes)) :
    left = [] ∧ pass'.store.Room bytes := by
  induction h with
  | nil =>
    rw [requirements_nil, zero_add] at hroom
    exact ⟨rfl, hroom⟩
  | @skip pass _ p rest _ _ _ hsmall _ _ =>
    -- the top hole is in the index and large enough
    have hp := hreq p (by simp)
    have hothers := requirements_nonneg fun q hq => hreq q (List.mem_cons_of_mem p hq)
    rw [requirements_cons] at hroom
    obtain ⟨hole, hmem, hsize⟩ := hroom.fits hi (by omega)
    have hlt := hsmall hole hmem
    omega
  | @take pass pass' p rest taken left st ready line htake _ _ ih =>
    cases htake with
    | bestFit hplace =>
      have hafter : st.Room (requirements pass.store.procs rest + bytes) := by
        apply hplace.room hi
        · rwa [requirements_cons, add_assoc] at hroom
        · have := hreq p (by simp)
          omega
      apply ih (take_indexed hplace hi (hun p (by simp))) (List.nodup_cons.mp hnd).2
        (take_waiting hplace hnd hun)
      · intro q hq
        rw [take_memRequirement hplace]
        exact hreq q (List.mem_cons_of_mem _ hq)
      · rw [requirements_congr (take_memRequirement hplace)]
        exact hafter.congr rfl rfl

theorem Merge.right_last {A : List NodeId} {top : NodeId}
    (h : Merge st node L R st' L' (A ++ [top])) : ∃ B, R = B ++ [top] := by
  cases h with
  | keep => exact ⟨A, rfl⟩
  | @absorb adj _ _ hb =>
    cases hb with
    | right => exact ⟨adj :: A, rfl⟩
    | left => exact ⟨A, rfl⟩

/-- The freed block only grows, and so does the top hole when it is taken over. -/
theorem Merge.room (h : Merge st node L R st' L' R') (hf : st.Freeing L node R)
    (hf' : st'.Freeing L' node R') (ht : st.Tiled) (hroom : st.Room bytes) : st'.Room bytes := by
  intro hpos
  obtain ⟨-, hnR⟩ := hf'.notMem
  have hgrown : R' = [] → bytes ≤ st'.getSize node := by
    rintro rfl
    cases h with
    | keep => exact (hroom.last hpos hf.memory).2
    | @absorb adj _ _ hb hadj =>
      have hsize : (st.absorb node adj).getSize node = st.getSize node + st.getSize adj := by
        simp [Store.getSize, Store.absorb]
      cases hb with
      | right =>
        have hm : st.memory = (L ++ [node]) ++ [adj] := by simp [hf.memory]
        have htop := (hroom.last hpos hm).2
        have hown : 1 ≤ st.getSize node := Tiles.size_pos ht (by simp [hf.memory])
        omega
      | left =>
        have htop := (hroom.last hpos hf.memory).2
        have hother : 1 ≤ st.getSize adj := Tiles.size_pos ht (by simp [hf.memory])
        omega
  rcases List.eq_nil_or_concat R' with rfl | ⟨A, top, rfl⟩
  · exact ⟨L', node, hf'.memory, hf'.type_node, hgrown rfl⟩
  · rw [List.concat_eq_append] at *
    have hne : top ≠ node := by
      rintro rfl
      simp at hnR
    obtain ⟨B, rfl⟩ := h.right_last
    have hB : st.memory = (L ++ node :: B) ++ [top] := by simp [hf.memory]
    obtain ⟨htype, hsize⟩ := hroom.last hpos hB
    refine ⟨L' ++ node :: A, top, by simp [hf'.memory], ?_, ?_⟩
    · rwa [h.typeOf]
    · rwa [Store.getSize, h.block_other hne]

theorem Release.room (h : Release st p st') (ht : st.Tiled) (hroom : st.Room bytes) :
    st'.Room bytes := by
  obtain @⟨node, L, R, R1, L1, st1, st2, _, start, h1, middle, h2, stop, _, _, rfl⟩ := h
  have hmarked := ht.setHole node
  have hkept : (st.setHole node).Room bytes := by
    intro hpos
    obtain ⟨A, top, hA, htype, hsize⟩ := hroom hpos
    refine ⟨A, top, hA, ?_, by rwa [Store.setHole_getSize]⟩
    by_cases hn : top = node
    · rw [hn]
      exact start.type_node
    · rwa [Store.typeOf, Store.setHole_block_other hn]
  have hmiddle := h1.room start middle hmarked hkept
  have hstop := h2.room middle stop (h1.tiled start middle hmarked) hmiddle
  exact hstop.congr rfl rfl

/-- Nobody waits for memory, and there is room for all that are still to come. -/
structure State.Roomy (s : State) : Prop where
  drained : s.inputQueue = []
  room : s.store.Room (requirements s.procs s.processes)

theorem initialState_roomy (hsum : (workload.map Record.memRequirement).sum ≤ memCapacity) :
    (initialState cfg workload).Roomy := by
  refine ⟨rfl, initialiseMemory_room _ ?_⟩
  have hrange : requirements (loadedProcs workload) (List.range workload.length) =
      (workload.map Record.memRequirement).sum := by
    conv_rhs => rw [← map_range_getD workload ⟨0, [], 0, 0⟩, List.map_map]
    rfl
  exact hrange.trans_le hsum

theorem Charge.roomy (h : AtHead cfg workload s) (hc : Charge cfg s events s')
    (hb : cfg.memStrategy = .bestFit) (ht : s.store.Tiled) (hr : s.Roomy) : s'.Roomy := by
  have hsame : ∀ l, requirements s'.procs l = requirements s.procs l :=
    requirements_congr fun q => (hc.sameRecord q).memRequirement
  cases hc with
  | idle => exact hr
  | quantum =>
    refine ⟨hr.drained, ?_⟩
    rw [hsame]
    exact hr.room
  | finish hcur _ hfree =>
    have hrelease := h.release hb hcur hfree
    refine ⟨hr.drained, ?_⟩
    rw [hsame]
    exact hrelease.room ht (hr.room.congr rfl rfl)

theorem Invariant.unarrived_positive (h : Invariant cfg workload s) (hpos : Positive workload)
    (hp : p ∈ s.unarrived) : 1 ≤ (s.procs p).memRequirement := by
  have hlt : p < workload.length :=
    h.lt_of_member (by simp [State.members, (List.dropWhile_sublist _).mem hp])
  rw [h.memRequirement hlt]
  exact hpos _ (List.getElem_mem hlt)

theorem Admit.roomy (h : Invariant cfg workload s) (hpos : Positive workload)
    (ha : Admit cfg s events s') (hb : cfg.memStrategy = .bestFit) (hr : s.Roomy) : s'.Roomy := by
  have hsame : ∀ l, requirements s'.procs l = requirements s.procs l :=
    requirements_congr fun q => (ha.sameRecord q).memRequirement
  cases ha with
  | @ofPass pass taken left hpass =>
    rw [hb] at hpass
    have hroom : s.store.Room (requirements s.procs (s.inputQueue ++ s.arrived) +
        requirements s.procs s.unarrived) := by
      rw [hr.drained, List.nil_append, ← requirements_append, s.arrived_append_unarrived]
      exact hr.room
    obtain ⟨hleft, hafter⟩ := hpass.all_taken (h.indexed hb) h.waiting_nodup
      (h.waiting_unallocated hb) (fun _ hq => h.waiting_positive hpos hq)
      (requirements_nonneg fun _ hq => h.unarrived_positive hpos hq) hroom
    refine ⟨hleft, ?_⟩
    rw [hsame]
    exact hafter

theorem Schedule.roomy (hs : Schedule cfg s events s') (hr : s.Roomy) : s'.Roomy := by
  have hsame : ∀ l, requirements s'.procs l = requirements s.procs l :=
    requirements_congr fun q => (hs.sameRecord q).memRequirement
  refine ⟨?_, ?_⟩
  · cases hs <;> exact hr.drained
  · rw [hsame]
    cases hs <;> exact hr.room.congr rfl rfl

theorem State.Roomy.entered (hr : s.Roomy) (cfg : Config) : (s.entered cfg).Roomy := by
  refine ⟨?_, ?_⟩
  · rw [State.inputQueue_entered, hr.drained]
  · rw [State.store_entered, State.procs_entered, State.processes_entered]
    exact hr.room

theorem run_roomy (hpos : Positive workload) (hb : cfg.memStrategy = .bestFit)
    (hsum : (workload.map Record.memRequirement).sum ≤ memCapacity) :
    ∀ n s, run cfg workload n = .next s → s.Roomy := by
  apply run_invariant
  case h0 => exact initialState_roomy hsum
  case hstep =>
    intro n s events s' hn _ h hr hs
    cases hs with
    | @step s1 s2 s3 _ _ _ hcharge _ hadmits hsched =>
      have htiled := run_tiled hpos hb n s hn
      rw [← State.store_entered cfg s] at htiled
      have hcharged := hcharge.roomy h.entered hb htiled (hr.entered cfg)
      have hsettled := hsched.roomy (hadmits.roomy (hcharge.invariant h.entered) hpos hb hcharged)
      exact ⟨hsettled.drained, hsettled.room⟩

end ProcessManager
