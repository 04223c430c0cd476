import ProcessManager.MemoryMap

/-! `best_fit` finds room whenever there is some, and takes the tightest hole. -/
namespace ProcessManager

open Tiling

variable {st st' : Store} {p q : ProcId} {node n : NodeId} {L R : List NodeId}

/-- A free part of memory. -/
def Store.IsHole (st : Store) (node : NodeId) : Prop :=
  node ∈ st.memory ∧ st.typeOf node = .hole

/-- The address belongs to no allocated block. -/
def Store.Free (st : Store) (address : ℤ) : Prop :=
  ∀ n ∈ st.memory, st.typeOf n = .process →
    ¬ (st.startOf n ≤ address ∧ address < st.startOf n + st.getSize n)

/-- `size` consecutive addresses of the capacity that belong to no allocated block. -/
def Store.HasRun (st : Store) (size : ℤ) : Prop :=
  ∃ start, 0 ≤ start ∧ start + size ≤ 2048 ∧
    ∀ address, start ≤ address → address < start + size → st.Free address

theorem Store.Indexed.apart_holes (h : st.Indexed) :
    st.memory.IsChain fun a b => ¬ (st.typeOf a = .hole ∧ st.typeOf b = .hole) := by
  have hapart := h.apart
  rwa [Apart, Store.types, List.isChain_map] at hapart

/-- A hole has room for what is not larger than it. -/
theorem Store.Indexed.hasRun_of_hole (hi : st.Indexed) (ht : st.Tiled) (hn : n ∈ st.holes)
    {size : ℤ} (hsize : size ≤ st.getSize n) : st.HasRun size := by
  obtain ⟨hmem, htype⟩ := hi.mem_holes.mp hn
  obtain ⟨hlow, hhigh⟩ := Tiles.bounds ht hmem
  refine ⟨st.startOf n, hlow, ?_, ?_⟩
  · simp only [memCapacity] at hhigh
    omega
  · intro address hfrom hto m hm hprocess hin
    have hmn : n ≠ m := by
      rintro rfl
      simp [htype] at hprocess
    have hdisjoint := Tiles.disjoint ht hmem hm hmn
    omega

/-- Free addresses that follow each other lie in one hole: two holes are never neighbours. -/
theorem Store.Indexed.hole_of_hasRun (hi : st.Indexed) (ht : st.Tiled) {size : ℤ}
    (hsize : 1 ≤ size) (hrun : st.HasRun size) : ∃ n ∈ st.holes, size ≤ st.getSize n := by
  obtain ⟨start, hlow, hhigh, hfree⟩ := hrun
  have hkind : ∀ n ∈ st.memory, st.startOf n < start + size →
      start < st.startOf n + st.getSize n → st.typeOf n = .hole := by
    intro n hn hfrom hto
    by_contra hne
    have hprocess : st.typeOf n = .process := by
      cases htype : st.typeOf n
      · rfl
      · exact absurd htype hne
    have hpos := Tiles.size_pos ht hn
    exact hfree (max start (st.startOf n)) (le_max_left _ _) (by omega) n hn hprocess
      ⟨le_max_right _ _, by omega⟩
  obtain ⟨n, hn, htype, hfrom, hto⟩ := Tiles.run_in_one ht hi.apart_holes hlow hsize hhigh hkind
  exact ⟨n, hi.mem_holes.mpr ⟨hn, htype⟩, by omega⟩

theorem Placement.mem_of_side (h : Placement st p L node R st') (hn : n ∈ L ∨ n ∈ R) :
    n ∈ st'.memory := by
  rcases h.lists with ⟨-, hm, -⟩ | ⟨-, hm, -⟩
  · simp only [hm, List.mem_append, List.mem_cons]
    tauto
  · simp only [hm, List.mem_append, List.mem_cons]
    tauto

/-- Every node but the hole that was used keeps its place and its block. -/
theorem Placement.keeps (h : Placement st p L node R st') (hi : st.Indexed)
    (hn : n ∈ st.memory) (hne : n ≠ node) : n ∈ st'.memory ∧ st'.block n = st.block n := by
  have hside : n ∈ L ∨ n ∈ R := by
    have hm := h.memory ▸ hn
    simpa [hne] using hm
  exact ⟨h.mem_of_side hside, h.block_side hi hside⟩

theorem Placement.keeps_process (h : Placement st p L node R st') (hi : st.Indexed)
    (hn : n ∈ st.memory) (htype : st.typeOf n = .process) :
    n ∈ st'.memory ∧ st'.block n = st.block n := by
  apply h.keeps hi hn
  rintro rfl
  simp [h.node_type hi] at htype

/-- The block of another process stays its block. -/
theorem Placement.keeps_owner (h : Placement st p L node R st') (hi : st.Indexed) (hq : q ≠ p)
    (hn : (st.procs q).blockNode = some n) :
    (st'.procs q).blockNode = some n ∧ n ∈ st'.memory ∧ st'.block n = st.block n := by
  obtain ⟨hmem, htype⟩ := (hi.owned n).mp ⟨q, hn⟩
  refine ⟨?_, h.keeps_process hi hmem htype⟩
  rw [h.blockNode, if_neg hq, hn]

theorem Placement.keeps_hole (h : Placement st p L node R st') (hi : st.Indexed)
    (hn : n ∈ st.holes) (hne : n ≠ node) :
    st'.IsHole n ∧ n ∈ st'.holes ∧ st'.block n = st.block n := by
  obtain ⟨hmem, htype⟩ := hi.mem_holes.mp hn
  obtain ⟨hmem', hblock⟩ := h.keeps hi hmem hne
  have htype' : st'.typeOf n = .hole := by
    rw [Store.typeOf, hblock]
    exact htype
  refine ⟨⟨hmem', htype'⟩, ?_, hblock⟩
  have herase : n ∈ st.holes.erase node := (List.mem_erase_of_ne hne).mpr hn
  rcases h.lists with ⟨-, -, hh⟩ | ⟨-, -, hh⟩
  · exact hh ▸ herase
  · rw [hh]
    exact (insertNodeSorted_perm _ _).mem_iff.mpr (List.mem_cons_of_mem _ herase)

/-- The new node is a PROCESS node at the low end of the hole. -/
theorem Placement.new_node (h : Placement st p L node R st') :
    (st'.procs p).blockNode = some st.nextNode ∧ st.nextNode ∈ st'.memory ∧
      st'.block st.nextNode = ⟨.process, st.startOf node, (st.procs p).memRequirement⟩ := by
  refine ⟨?_, ?_, h.block_new⟩
  · rw [h.blockNode, if_pos rfl]
  · rcases h.lists with ⟨-, hm, -⟩ | ⟨-, hm, -⟩ <;> simp [hm]

/-- What `best_fit` does when it returns 1: the block `own` of the process is the low end of a
tightest hole, and all other blocks stay. -/
structure FitsTightest (st : Store) (p : ProcId) (st' : Store) (hole own : NodeId) : Prop where
  is_hole : st.IsHole hole
  large : (st.procs p).memRequirement ≤ st.getSize hole
  tightest : ∀ n, st.IsHole n → (st.procs p).memRequirement ≤ st.getSize n →
    st.getSize hole ≤ st.getSize n
  owner : (st'.procs p).blockNode = some own
  own_memory : own ∈ st'.memory
  own_block : st'.block own = ⟨.process, st.startOf hole, (st.procs p).memRequirement⟩
  others : ∀ q n, q ≠ p → (st.procs q).blockNode = some n →
    (st'.procs q).blockNode = some n ∧ n ∈ st'.memory ∧ st'.block n = st.block n
  processes : ∀ n ∈ st.memory, st.typeOf n = .process →
    n ∈ st'.memory ∧ st'.block n = st.block n
  holes : ∀ n, st.IsHole n → n ≠ hole →
    st'.IsHole n ∧ n ∈ st'.holes ∧ st'.block n = st.block n

theorem Placement.fitsTightest (h : Placement st p L node R st') (hi : st.Indexed) :
    FitsTightest st p st' node st.nextNode := by
  obtain ⟨hown, hmem, hblock⟩ := h.new_node
  constructor
  case is_hole => exact hi.mem_holes.mp h.node_hole
  case large => exact h.fits
  case tightest => exact fun n hn hfits => h.tightest n (hi.mem_holes.mpr hn) hfits
  case owner => exact hown
  case own_memory => exact hmem
  case own_block => exact hblock
  case others => exact fun q n hq hn => h.keeps_owner hi hq hn
  case processes => exact fun n hn htype => h.keeps_process hi hn htype
  case holes => exact fun n hn hne => h.keeps_hole hi (hi.mem_holes.mpr hn) hne

/-- `best_fit` is complete and tightest: it returns 1 exactly when enough consecutive addresses
are free, it then uses a smallest hole that is large enough, and otherwise it changes nothing. -/
theorem bestFit_complete_tightest (h : MemReachable st) (p : ProcId)
    (hreq : 1 ≤ (st.procs p).memRequirement) :
    ((bestFit st p).2 = true ↔ st.HasRun (st.procs p).memRequirement) ∧
    ((bestFit st p).2 = true → ∃ hole own, FitsTightest st p (bestFit st p).1 hole own) ∧
    ((bestFit st p).2 = false → (bestFit st p).1 = st) := by
  obtain ⟨hi, ht⟩ := reachable_indexed_tiled h
  rcases hfit : bestFit st p with ⟨st', _ | _⟩
  · obtain ⟨rfl, hsmall⟩ := bestFit_fail hfit
    refine ⟨⟨nofun, fun hrun => ?_⟩, nofun, fun _ => rfl⟩
    obtain ⟨n, hn, hlarge⟩ := hi.hole_of_hasRun ht hreq hrun
    have hlt := hsmall n hn
    omega
  · obtain ⟨L, node, R, hplace⟩ := bestFit_placement hi hfit
    exact ⟨⟨fun _ => hi.hasRun_of_hole ht hplace.node_hole hplace.fits, fun _ => rfl⟩,
      fun _ => ⟨node, st.nextNode, hplace.fitsTightest hi⟩, nofun⟩

/-- Requirements of 16, 8, 8, 8 and 6. -/
def fiveProcesses : ProcTable := fun p => createProcess ⟨0, [], 1, [16, 8, 8, 8].getD p 6⟩

/-- The fifth process finds holes of 16, 8 and 2008 between the blocks of two others, and takes the
one of 8. -/
theorem bestFit_complete_tightest_fiveProcesses : ∃ st : Store,
    st.memory.map st.block =
      [⟨.hole, 0, 16⟩, ⟨.process, 16, 8⟩, ⟨.hole, 24, 8⟩, ⟨.process, 32, 8⟩, ⟨.hole, 40, 2008⟩] ∧
    ((bestFit st 4).2 = true ↔ st.HasRun 6) ∧
    ∃ hole own, FitsTightest st 4 (bestFit st 4).1 hole own ∧ st.getSize hole ≤ 8 := by
  have h0 : MemReachable (initialiseMemory fiveProcesses) := .init fun _ => rfl
  have h1 := h0.allocate (by decide) (by decide) (by decide)
    (rfl : allocateMemory .bestFit _ [0, 1, 2, 3] (.list []) = .ok _)
  have h2 := h1.deallocate (by decide) (rfl : deallocateMemory .bestFit _ 0 = .ok _)
  have h3 := h2.deallocate (by decide) (rfl : deallocateMemory .bestFit _ 2 = .ok _)
  have h := bestFit_complete_tightest h3 4 (by decide)
  obtain ⟨hole, own, hfit⟩ := h.2.1 rfl
  exact ⟨_, by decide, h.1, hole, own, hfit, hfit.tightest 3 ⟨by decide, by decide⟩ (by decide)⟩

end ProcessManager
