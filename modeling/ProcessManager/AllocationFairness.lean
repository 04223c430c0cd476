import ProcessManager.BestFit

/-! A best-fit pass over the input queue takes all it can, in order, and a second pass right after
it finds nothing more to do. -/
namespace ProcessManager

variable {scheduler : Scheduler} {st st' : Store} {p q : ProcId} {node n : NodeId}
  {L R : List NodeId} {input taken left : List ProcId} {pass pass' : Pass} {ready : ReadyQueue}

/-- The processes that entered the ready queue, in order. -/
def insertions (events : List Event) : List ProcId :=
  events.filterMap fun
    | .insert p _ => some p
    | _ => none

theorem insertions_append (l r : List Event) :
    insertions (l ++ r) = insertions l ++ insertions r := List.filterMap_append

/-- The log of a pass names the taken processes in the order of their insertion. -/
theorem Admission.insertions {strategy : MemStrategy}
    (h : Admission strategy pass input taken left pass') :
    insertions pass'.events = insertions pass.events ++ taken := by
  induction h with
  | nil => simp
  | skip _ _ _ ih => exact ih
  | take htake _ _ ih =>
    rw [ih, Pass.take, insertions_append, List.append_assoc]
    cases htake <;> rfl

/-- Every hole after a placement is part of one that was there before. -/
theorem Placement.hole_le (h : Placement st p L node R st') (hi : st.Indexed)
    (hreq : 1 ≤ (st.procs p).memRequirement) (hn : n ∈ st'.holes) :
    ∃ m ∈ st.holes, st'.getSize n ≤ st.getSize m := by
  have hold : n ∈ st.holes.erase node → ∃ m ∈ st.holes, st'.getSize n ≤ st.getSize m :=
    fun hmem => ⟨n, List.mem_of_mem_erase hmem, (h.sizeOf_hole hi hmem).le⟩
  rcases h.lists with ⟨-, -, hh⟩ | ⟨-, -, hh⟩
  · exact hold (hh ▸ hn)
  · rw [hh, (insertNodeSorted_perm _ _).mem_iff] at hn
    rcases List.mem_cons.mp hn with rfl | hmem
    · refine ⟨n, h.node_hole, ?_⟩
      have hsize : st'.getSize n = st.getSize n - (st.procs p).memRequirement := by
        simp [Store.getSize, h.block_rest hi]
      omega
    · exact hold hmem

theorem Admission.hole_le (h : Admission .bestFit pass input taken left pass')
    (hi : pass.store.Indexed) (hnd : input.Nodup)
    (hun : ∀ p ∈ input, (pass.store.procs p).blockNode = none)
    (hreq : ∀ p ∈ input, 1 ≤ (pass.store.procs p).memRequirement) (hn : n ∈ pass'.store.holes) :
    ∃ m ∈ pass.store.holes, pass'.store.getSize n ≤ pass.store.getSize m := by
  induction h with
  | nil => exact ⟨n, hn, le_refl _⟩
  | skip _ _ _ ih =>
    exact ih hi (List.nodup_cons.mp hnd).2 (fun q hq => hun q (List.mem_cons_of_mem _ hq))
      (fun q hq => hreq q (List.mem_cons_of_mem _ hq)) hn
  | @take pass pass' p rest taken left st ready line htake _ _ ih =>
    cases htake with
    | bestFit hplace =>
      obtain ⟨m, hm, hle⟩ := ih (take_indexed hplace hi (hun p (by simp)))
        (List.nodup_cons.mp hnd).2 (take_waiting hplace hnd hun)
        (fun q hq => by
          rw [take_memRequirement hplace]
          exact hreq q (List.mem_cons_of_mem _ hq)) hn
      obtain ⟨m', hm', hle'⟩ := hplace.hole_le hi (hreq p (by simp)) hm
      exact ⟨m', hm', hle.trans hle'⟩

/-- A process that was passed over does not fit at the end either. -/
theorem Admission.left_too_large (h : Admission .bestFit pass input taken left pass')
    (hi : pass.store.Indexed) (hnd : input.Nodup)
    (hun : ∀ p ∈ input, (pass.store.procs p).blockNode = none)
    (hreq : ∀ p ∈ input, 1 ≤ (pass.store.procs p).memRequirement) (hp : p ∈ left)
    (hn : n ∈ pass'.store.holes) :
    pass'.store.getSize n < (pass'.store.procs p).memRequirement := by
  induction h with
  | nil => simp at hp
  | @skip pass pass' q rest taken left hs hsmall hrest ih =>
    have hnd' := (List.nodup_cons.mp hnd).2
    have hun' : ∀ r ∈ rest, (pass.store.procs r).blockNode = none :=
      fun r hr => hun r (List.mem_cons_of_mem _ hr)
    have hreq' : ∀ r ∈ rest, 1 ≤ (pass.store.procs r).memRequirement :=
      fun r hr => hreq r (List.mem_cons_of_mem _ hr)
    rcases List.mem_cons.mp hp with rfl | hp
    · obtain ⟨m, hm, hle⟩ := hrest.hole_le hi hnd' hun' hreq' hn
      have hsize := hsmall m hm
      have hsame := (hrest.sameRecord p).memRequirement
      omega
    · exact ih hi hnd' hun' hreq' hp hn
  | @take pass pass' q rest taken left st ready line htake _ _ ih =>
    cases htake with
    | bestFit hplace =>
      exact ih (take_indexed hplace hi (hun q (by simp))) (List.nodup_cons.mp hnd).2
        (take_waiting hplace hnd hun)
        (fun r hr => by
          rw [take_memRequirement hplace]
          exact hreq r (List.mem_cons_of_mem _ hr)) hp hn

theorem bestFit_none (h : ∀ n ∈ st.holes, st.getSize n < (st.procs p).memRequirement) :
    bestFit st p = (st, false) := by
  have hfind : st.holes.find? (fun node => (st.procs p).memRequirement ≤ st.getSize node) =
      none := by
    apply List.find?_eq_none.mpr
    intro n hn
    simpa using h n hn
  simp only [bestFit, hfind]

theorem fitInput_none
    (h : ∀ p ∈ input, ∀ n ∈ pass.store.holes,
      pass.store.getSize n < (pass.store.procs p).memRequirement) :
    fitInput pass input = .ok (pass, input) := by
  induction input with
  | nil => rfl
  | cons p rest ih =>
    have hrest := ih fun q hq => h q (List.mem_cons_of_mem _ hq)
    simp only [fitInput, bestFit_none (h p (by simp)), hrest]
    rfl

/-- A first and a third process of 8 bytes, and a second one that asks for all there is. -/
def largeSecond : ProcTable := fun p => createProcess ⟨0, [80], 1, if p = 1 then 2048 else 8⟩

/-- One best-fit pass of `allocate_memory`: the processes that leave the input queue enter the
ready queue, both in input order; no hole is large enough for one that stays; and a second pass
changes nothing. -/
theorem allocation_pass_fair (h : MemReachable st)
    (hready : ready.WellFormed scheduler st.procs) (hnd : input.Nodup)
    (hun : ∀ p ∈ input, (st.procs p).blockNode = none)
    (hreq : ∀ p ∈ input, 1 ≤ (st.procs p).memRequirement) :
    ∃ pass taken left, allocateMemory .bestFit st input ready = .ok (pass, left) ∧
      input.Perm (taken ++ left) ∧ taken.Sublist input ∧ left.Sublist input ∧
      insertions pass.events = taken ∧
      pass.ready.items.Perm (ready.items ++ taken) ∧
      (scheduler = .rr → pass.ready.items = ready.items ++ taken) ∧
      (∀ p ∈ left, ∀ n, pass.store.IsHole n →
        pass.store.getSize n < (pass.store.procs p).memRequirement) ∧
      allocateMemory .bestFit pass.store left pass.ready =
        .ok (⟨pass.store, pass.ready, []⟩, left) := by
  have hi := (reachable_indexed_tiled h).1
  have hspec : ∃ pass taken left, allocateMemory .bestFit st input ready = .ok (pass, left) ∧
      Admission .bestFit ⟨st, ready, []⟩ input taken left pass :=
    allocateMemory_spec hready (fun _ => hi) hnd fun _ => hun
  obtain ⟨pass, taken, left, hok, hadm⟩ := hspec
  have hlarge : ∀ p ∈ left, ∀ n ∈ pass.store.holes,
      pass.store.getSize n < (pass.store.procs p).memRequirement :=
    fun p hp n hn => hadm.left_too_large hi hnd hun hreq hp hn
  have hi' : pass.store.Indexed := hadm.indexed hi hnd hun
  obtain ⟨-, hperm, hlist⟩ := hadm.ready hready
  refine ⟨pass, taken, left, hok, hadm.perm, hadm.taken_sublist, hadm.left_sublist, ?_, hperm,
    hlist, ?_, fitInput_none hlarge⟩
  · simpa [insertions] using hadm.insertions
  · intro p hp n hn
    exact hlarge p hp n (hi'.mem_holes.mpr hn)

theorem allocation_pass_fair_largeSecond : ∃ pass taken left,
    allocateMemory .bestFit (initialiseMemory largeSecond) [0, 1, 2] (.list []) =
      .ok (pass, left) ∧ [0, 1, 2].Perm (taken ++ left) ∧ insertions pass.events = taken := by
  have hready : (ReadyQueue.list []).WellFormed .rr (initialiseMemory largeSecond).procs := rfl
  obtain ⟨pass, taken, left, hok, hperm, -, -, hins, -⟩ :=
    allocation_pass_fair (.init fun _ => rfl) hready (by decide : [0, 1, 2].Nodup)
      (by decide) (by decide)
  exact ⟨pass, taken, left, hok, hperm, hins⟩

end ProcessManager
