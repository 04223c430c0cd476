import ProcessManager.AllocationPass
import ProcessManager.Library.Tiling

/-! The blocks of `memory` tile the capacity in every run of the best-fit allocator. -/
namespace ProcessManager

open Tiling

variable {st st' : Store} {p : ProcId} {node n : NodeId} {L R L' R' : List NodeId}

def Store.startOf (st : Store) (node : NodeId) : ℤ := (st.block node).startAddress

/-- The blocks in list order cover `[0, 2048)`, none of them empty. -/
def Store.Tiled (st : Store) : Prop := Tiles st.startOf st.getSize 0 memCapacity st.memory

/-- Any mix of best-fit passes and deallocations from the start: each pass over distinct processes
without a block that ask for at least one byte, each deallocation of a process with a block. -/
inductive MemReachable : Store → Prop
  | init {procs : ProcTable} (h : ∀ p, (procs p).blockNode = none) :
      MemReachable (initialiseMemory procs)
  | allocate {st : Store} {input left : List ProcId} {ready : ReadyQueue} {pass : Pass}
      (h : MemReachable st) (hnd : input.Nodup)
      (hun : ∀ p ∈ input, (st.procs p).blockNode = none)
      (hreq : ∀ p ∈ input, 1 ≤ (st.procs p).memRequirement)
      (hrun : allocateMemory .bestFit st input ready = .ok (pass, left)) :
      MemReachable pass.store
  | deallocate {st st' : Store} {p : ProcId} (h : MemReachable st)
      (hp : (st.procs p).blockNode ≠ none)
      (hrun : deallocateMemory .bestFit st p = .ok st') : MemReachable st'

theorem initialiseMemory_tiled (procs : ProcTable) : (initialiseMemory procs).Tiled := by
  simp [Store.Tiled, initialiseMemory, Store.startOf, Store.getSize, memCapacity]

theorem Placement.tiled (h : Placement st p L node R st') (hi : st.Indexed)
    (hreq : 1 ≤ (st.procs p).memRequirement) (ht : st.Tiled) : st'.Tiled := by
  rw [Store.Tiled, h.memory, tiles_split] at ht
  obtain ⟨hl, hsize, hr⟩ := ht
  have hl' : Tiles st'.startOf st'.getSize 0 (st.startOf node) L :=
    hl.congr fun n hn => by simp [Store.startOf, Store.getSize, h.block_side hi (Or.inl hn)]
  have hr' : Tiles st'.startOf st'.getSize (st.startOf node + st.getSize node) memCapacity R :=
    hr.congr fun n hn => by simp [Store.startOf, Store.getSize, h.block_side hi (Or.inr hn)]
  have hstart : st'.startOf st.nextNode = st.startOf node := by
    simp [Store.startOf, h.block_new]
  have hnew : st'.getSize st.nextNode = (st.procs p).memRequirement := by
    simp [Store.getSize, h.block_new]
  rcases h.lists with ⟨heq, hm, _⟩ | ⟨hne, hm, _⟩
  · rw [Store.Tiled, hm, tiles_split, hstart, hnew, ← heq]
    exact ⟨hl', hsize, hr'⟩
  · have hrest : st'.startOf node = st.startOf node + (st.procs p).memRequirement := by
      simp [Store.startOf, h.block_rest hi]
    have hleft : st'.getSize node = st.getSize node - (st.procs p).memRequirement := by
      simp [Store.getSize, h.block_rest hi]
    have hfits := h.fits
    rw [Store.Tiled, hm, tiles_split, tiles_cons, hstart, hnew, hrest, hleft]
    refine ⟨hl', hreq, rfl, by omega, ?_⟩
    rwa [add_assoc, add_sub_cancel]

/-- Taking over a neighbour keeps the ends: the merged block starts at the lower of the two. -/
theorem Merge.tiled (h : Merge st node L R st' L' R') (hf : st.Freeing L node R)
    (hf' : st'.Freeing L' node R') (ht : st.Tiled) : st'.Tiled := by
  obtain ⟨hnL, hnR⟩ := hf'.notMem
  have hother : ∀ n ∈ L' ++ R', st'.startOf n = st.startOf n ∧ st'.getSize n = st.getSize n := by
    intro n hn
    have hne : n ≠ node := by
      rintro rfl
      rcases List.mem_append.mp hn with hn | hn
      · exact hnL hn
      · exact hnR hn
    simp [Store.startOf, Store.getSize, h.block_other hne]
  rw [Store.Tiled, hf.memory] at ht
  rw [Store.Tiled, hf'.memory]
  cases h with
  | keep => exact ht
  | absorb hb hadj =>
    rename_i adj
    have hsize : (st.absorb node adj).getSize node = st.getSize node + st.getSize adj := by
      simp [Store.getSize, Store.absorb]
    have hstart : (st.absorb node adj).startOf node =
        if st.startOf adj < st.startOf node then st.startOf adj else st.startOf node := by
      simp only [Store.startOf, Store.absorb, Function.update_self]
      rfl
    cases hb with
    | right =>
      obtain ⟨hl, hs, hsa, hpa, hr⟩ := tiles_split.mp ht
      rw [tiles_split, hstart, if_neg (by omega), hsize]
      refine ⟨hl.congr fun n hn => hother n (by simp [hn]), by omega, ?_⟩
      rw [← add_assoc]
      exact hr.congr fun n hn => hother n (by simp [hn])
    | left =>
      rw [List.append_assoc, List.singleton_append] at ht
      obtain ⟨hl, hpa, hs, hp, hr⟩ := tiles_split.mp ht
      rw [tiles_split, hstart, if_pos (by omega), hsize]
      refine ⟨hl.congr fun n hn => hother n (by simp [hn]), by omega, ?_⟩
      rw [add_comm (st.getSize node), ← add_assoc]
      exact hr.congr fun n hn => hother n (by simp [hn])

theorem Store.Tiled.setHole (ht : st.Tiled) (node : NodeId) : (st.setHole node).Tiled := by
  refine Tiles.congr ht fun n _ => ⟨?_, Store.setHole_getSize⟩
  by_cases hn : n = node
  · subst hn
    simp [Store.startOf, Store.setHole]
  · simp [Store.startOf, Store.setHole_block_other hn]

theorem Release.tiled (h : Release st p st') (ht : st.Tiled) : st'.Tiled := by
  obtain @⟨node, _, _, _, _, _, _, _, start, h1, middle, h2, stop, _, _, rfl⟩ := h
  exact h2.tiled middle stop (h1.tiled start middle (ht.setHole node))

/-- A pass keeps what every placement keeps. -/
theorem Admission.tiled {input taken left : List ProcId} {pass pass' : Pass}
    (h : Admission .bestFit pass input taken left pass') (hi : pass.store.Indexed)
    (hnd : input.Nodup) (hun : ∀ p ∈ input, (pass.store.procs p).blockNode = none)
    (hreq : ∀ p ∈ input, 1 ≤ (pass.store.procs p).memRequirement) (ht : pass.store.Tiled) :
    pass'.store.Indexed ∧ pass'.store.Tiled := by
  induction h with
  | nil => exact ⟨hi, ht⟩
  | skip _ _ _ ih =>
    exact ih hi (List.nodup_cons.mp hnd).2 (fun q hq => hun q (List.mem_cons_of_mem _ hq))
      (fun q hq => hreq q (List.mem_cons_of_mem _ hq)) ht
  | @take pass pass' p rest taken left st ready line htake _ _ ih =>
    cases htake with
    | bestFit hplace =>
      refine ih (take_indexed hplace hi (hun p (by simp))) (List.nodup_cons.mp hnd).2
        (take_waiting hplace hnd hun) (fun q hq => ?_) (hplace.tiled hi (hreq p (by simp)) ht)
      rw [take_memRequirement hplace]
      exact hreq q (List.mem_cons_of_mem _ hq)

theorem reachable_indexed_tiled (h : MemReachable st) : st.Indexed ∧ st.Tiled := by
  induction h with
  | init h => exact ⟨initialiseMemory_indexed h, initialiseMemory_tiled _⟩
  | allocate _ hnd hun hreq hrun ih =>
    obtain ⟨taken, hadm⟩ := allocateMemory_admission (fun _ => ih.1) hnd (fun _ => hun) hrun
    exact hadm.tiled ih.1 hnd hun hreq ih.2
  | deallocate _ hp hrun ih =>
    obtain ⟨node, hnode⟩ := Option.ne_none_iff_exists'.mp hp
    obtain ⟨st', hok, hrel⟩ := deallocate_release ih.1 hnode
    obtain rfl : st' = _ := Except.ok.inj (hok.symm.trans hrun)
    exact ⟨hrel.indexed ih.1, hrel.tiled ih.2⟩

/-- Two processes that both hold memory hold disjoint ranges inside the capacity. -/
theorem ranges_disjoint {q : ProcId} {m : NodeId} (hi : st.Indexed) (ht : st.Tiled)
    (hp : (st.procs p).blockNode = some n) (hq : (st.procs q).blockNode = some m) (hpq : p ≠ q) :
    st.startOf n + st.getSize n ≤ st.startOf m ∨ st.startOf m + st.getSize m ≤ st.startOf n := by
  have hnm : n ≠ m := by
    rintro rfl
    exact hpq (hi.owner_unique p q n hp hq)
  exact Tiles.disjoint ht ((hi.owned n).mp ⟨p, hp⟩).1 ((hi.owned m).mp ⟨q, hq⟩).1 hnm

/-- No two neighbours in list order are both holes. -/
theorem Store.Indexed.not_both_holes (h : st.Indexed) {a b : NodeId}
    (hm : st.memory = L ++ a :: b :: R) : ¬ (st.typeOf a = .hole ∧ st.typeOf b = .hole) := by
  have hap := h.apart
  rw [Store.types, hm, List.map_append, List.map_cons, List.map_cons] at hap
  have htail := (List.isChain_append.mp hap).2.1
  exact (List.isChain_cons_cons.mp htail).1

/-- Two processes of 8 and 16 bytes. -/
def twoProcesses : ProcTable := fun p => createProcess ⟨0, [80], 1, if p = 0 then 8 else 16⟩

/-- The first process is allocated, freed, and both are allocated in the other order. -/
theorem twoProcesses_reachable : ∃ st, MemReachable st ∧
    st.memory.map st.block =
      [⟨.process, 0, 16⟩, ⟨.process, 16, 8⟩, ⟨.hole, 24, 2024⟩] := by
  have h0 : MemReachable (initialiseMemory twoProcesses) := .init fun _ => rfl
  have h1 := h0.allocate (by decide) (by decide) (by decide)
    (rfl : allocateMemory .bestFit _ [0] (.list []) = .ok _)
  have h2 := h1.deallocate (p := 0) (by decide) rfl
  have h3 := h2.allocate (by decide) (by decide) (by decide)
    (rfl : allocateMemory .bestFit _ [1, 0] (.list []) = .ok _)
  exact ⟨_, h3, by decide⟩

/-- The memory map of every reachable state: a tiling of the capacity whose PROCESS nodes are, one
to one, the blocks of the allocated processes. -/
theorem memory_map_safe (h : MemReachable st) :
    Tiles st.startOf st.getSize 0 2048 st.memory ∧
    (∀ p n, (st.procs p).blockNode = some n → n ∈ st.memory ∧ st.typeOf n = .process ∧
      st.getSize n = (st.procs p).memRequirement) ∧
    (∀ n ∈ st.memory, st.typeOf n = .process → ∃! p, (st.procs p).blockNode = some n) ∧
    (∀ p q n m, (st.procs p).blockNode = some n → (st.procs q).blockNode = some m → p ≠ q →
      n ≠ m ∧ (st.startOf n + st.getSize n ≤ st.startOf m ∨
        st.startOf m + st.getSize m ≤ st.startOf n)) ∧
    (∀ p n, (st.procs p).blockNode = some n →
      0 ≤ st.startOf n ∧ st.startOf n + st.getSize n ≤ 2048) := by
  obtain ⟨hi, ht⟩ := reachable_indexed_tiled h
  refine ⟨ht, ?_, ?_, ?_, ?_⟩
  · intro p n hp
    obtain ⟨hm, hty⟩ := (hi.owned n).mp ⟨p, hp⟩
    exact ⟨hm, hty, hi.owner_size p n hp⟩
  · intro n hm hty
    obtain ⟨p, hp⟩ := (hi.owned n).mpr ⟨hm, hty⟩
    exact ⟨p, hp, fun q hq => hi.owner_unique q p n hq hp⟩
  · intro p q n m hp hq hpq
    refine ⟨?_, ranges_disjoint hi ht hp hq hpq⟩
    rintro rfl
    exact hpq (hi.owner_unique p q n hp hq)
  · intro p n hp
    exact Tiles.bounds ht ((hi.owned n).mp ⟨p, hp⟩).1

theorem memory_map_safe_twoProcesses : ∃ st : Store,
    st.memory.map st.block =
      [⟨.process, 0, 16⟩, ⟨.process, 16, 8⟩, ⟨.hole, 24, 2024⟩] ∧
    Tiles st.startOf st.getSize 0 2048 st.memory := by
  obtain ⟨st, h, hmap⟩ := twoProcesses_reachable
  exact ⟨st, hmap, (memory_map_safe h).1⟩

/-- The index of every reachable state: the HOLE nodes once each in order of size, no two of them
neighbours in memory, and every deallocation finds in it the holes it merges. -/
theorem holes_index_exact (h : MemReachable st) :
    st.holes.Nodup ∧
    (∀ n, n ∈ st.holes ↔ n ∈ st.memory ∧ st.typeOf n = .hole) ∧
    st.holes.Pairwise (fun a b => st.getSize a ≤ st.getSize b) ∧
    (∀ L a b R, st.memory = L ++ a :: b :: R →
      ¬ (st.typeOf a = .hole ∧ st.typeOf b = .hole)) ∧
    (∀ p, (st.procs p).blockNode ≠ none →
      ∃ st', deallocateMemory .bestFit st p = .ok st') := by
  obtain ⟨hi, -⟩ := reachable_indexed_tiled h
  refine ⟨hi.holes_nodup, fun n => hi.mem_holes, hi.sorted,
    fun L a b R hm => hi.not_both_holes hm, fun p hp => ?_⟩
  obtain ⟨node, hnode⟩ := Option.ne_none_iff_exists'.mp hp
  obtain ⟨st', hok, -⟩ := deallocate_release hi hnode
  exact ⟨st', hok⟩

theorem holes_index_exact_twoProcesses : ∃ st : Store,
    st.memory.map st.block =
      [⟨.process, 0, 16⟩, ⟨.process, 16, 8⟩, ⟨.hole, 24, 2024⟩] ∧
    (∀ n, n ∈ st.holes ↔ n ∈ st.memory ∧ st.typeOf n = .hole) := by
  obtain ⟨st, h, hmap⟩ := twoProcesses_reachable
  exact ⟨st, hmap, (holes_index_exact h).2.1⟩

end ProcessManager
