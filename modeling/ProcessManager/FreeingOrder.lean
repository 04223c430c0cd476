import ProcessManager.BestFit

/-! What is free in memory is the gaps between the blocks in use, so the order in which processes
are freed does not show. -/
namespace ProcessManager

open Tiling

variable {st st' : Store} {p q : ProcId} {node n : NodeId} {freed freed' : List ProcId}

/-- The blocks of `memory` in list order. -/
def Store.layout (st : Store) : List Block := st.memory.map st.block

/-- The addresses of the block of a process. -/
def Store.rangeOf (st : Store) (p : ProcId) : Option (ℤ × ℤ) :=
  (st.procs p).blockNode.map fun n => (st.startOf n, st.getSize n)

def Store.ownedRanges (st : Store) : Set (ℤ × ℤ) := {r | ∃ p, st.rangeOf p = some r}

/-- The address is in the block of a process. -/
def Store.Owned (st : Store) (address : ℤ) : Prop :=
  ∃ r ∈ st.ownedRanges, r.1 ≤ address ∧ address < r.1 + r.2

/-- The state that `initialise_memory` makes, whatever the address of its one node. -/
def Store.Reset (st : Store) : Prop :=
  (∃ node, st.memory = [node] ∧ st.holes = [node] ∧ st.block node = ⟨.hole, 0, 2048⟩) ∧
    ∀ p, (st.procs p).blockNode = none

/-- The calls of `deallocate_memory` for the processes of a list, in order. -/
def deallocateEach (st : Store) : List ProcId → Except Fault Store
  | [] => .ok st
  | p :: rest => do
    let st ← deallocateMemory .bestFit st p
    deallocateEach st rest

theorem Store.mem_ownedRanges {r : ℤ × ℤ} : r ∈ st.ownedRanges ↔
    ∃ p n, (st.procs p).blockNode = some n ∧ (st.startOf n, st.getSize n) = r := by
  simp [Store.ownedRanges, Store.rangeOf]

/-- The PROCESS nodes are the ranges that processes own. -/
theorem Store.Indexed.used_iff (hi : st.Indexed) (start size : ℤ) :
    (∃ n ∈ st.memory, ¬ st.typeOf n = .hole ∧ st.startOf n = start ∧ st.getSize n = size) ↔
      (start, size) ∈ st.ownedRanges := by
  rw [Store.mem_ownedRanges]
  constructor
  · rintro ⟨n, hn, htype, rfl, rfl⟩
    have hprocess : st.typeOf n = .process := by
      cases h : st.typeOf n
      · rfl
      · exact absurd h htype
    obtain ⟨p, hp⟩ := (hi.owned n).mpr ⟨hn, hprocess⟩
    exact ⟨p, n, hp, rfl⟩
  · rintro ⟨p, n, hp, heq⟩
    obtain ⟨hn, htype⟩ := (hi.owned n).mp ⟨p, hp⟩
    obtain ⟨hstart, hsize⟩ := Prod.mk.inj heq
    exact ⟨n, hn, by simp [htype], hstart, hsize⟩

theorem Store.Indexed.used_owned (hi : st.Indexed) :
    Used st.startOf st.getSize (st.typeOf · = .hole) st.memory = st.Owned := by
  funext address
  apply propext
  constructor
  · rintro ⟨n, hn, htype, hlow, hhigh⟩
    exact ⟨_, (hi.used_iff _ _).mp ⟨n, hn, htype, rfl, rfl⟩, hlow, hhigh⟩
  · rintro ⟨⟨start, size⟩, hr, hlow, hhigh⟩
    obtain ⟨n, hn, htype, rfl, rfl⟩ := (hi.used_iff _ _).mpr hr
    exact ⟨n, hn, htype, hlow, hhigh⟩

/-- The holes are the gaps between the blocks in use. -/
theorem Store.Indexed.hole_iff_gap (hi : st.Indexed) (ht : st.Tiled) (start size : ℤ) :
    (∃ n, st.IsHole n ∧ st.startOf n = start ∧ st.getSize n = size) ↔
      Gap st.Owned 0 2048 start size := by
  rw [← hi.used_owned]
  constructor
  · rintro ⟨n, ⟨hn, htype⟩, rfl, rfl⟩
    exact Tiles.gap_of_free ht hi.apart_holes hn htype
  · intro hgap
    obtain ⟨n, hn, htype, hstart, hsize⟩ := Tiles.free_of_gap ht hi.apart_holes hgap
    exact ⟨n, ⟨hn, htype⟩, hstart, hsize⟩

theorem block_eq {b b' : Block} (hstart : b.startAddress = b'.startAddress)
    (hsize : b.size = b'.size) (htype : b.type = .hole ↔ b'.type = .hole) : b = b' := by
  obtain ⟨type, start, size⟩ := b
  obtain ⟨type', start', size'⟩ := b'
  cases type <;> cases type' <;> simp_all

/-- The blocks of memory are determined by those in use. -/
theorem layout_eq (hi : st.Indexed) (ht : st.Tiled) (hi' : st'.Indexed) (ht' : st'.Tiled)
    (hranges : st.ownedRanges = st'.ownedRanges) : st.layout = st'.layout := by
  have hall := Tiles.unique ht ht' hi.apart_holes hi'.apart_holes fun start size => by
    rw [hi.used_iff, hi'.used_iff, hranges]
  rw [Store.layout, Store.layout, ← List.forall₂_eq_eq_eq, List.forall₂_map_left_iff,
    List.forall₂_map_right_iff]
  exact hall.imp fun n m ⟨hstart, hsize, htype⟩ => block_eq hstart hsize htype

/-- So are the sizes in the index. -/
theorem Store.Indexed.hole_sizes (hi : st.Indexed) : (st.holes.map st.getSize).Perm
    ((st.layout.filter (·.type = .hole)).map Block.size) := by
  have hmap : (st.layout.filter (·.type = .hole)).map Block.size =
      (st.memory.filter (st.typeOf · = .hole)).map st.getSize := by
    rw [Store.layout, List.filter_map, List.map_map]
    rfl
  rw [hmap]
  exact hi.holes_perm.map _

/-- The other processes keep their blocks. -/
theorem Release.rangeOf (h : Release st p st') (hi : st.Indexed) (q : ProcId) :
    st'.rangeOf q = if q = p then none else st.rangeOf q := by
  have hnode : (st'.procs q).blockNode = if q = p then none else (st.procs q).blockNode := by
    rw [h.procs, setBlockNode_blockNode]
  rw [Store.rangeOf, hnode]
  split
  · rfl
  · rename_i hqp
    cases hq : (st.procs q).blockNode with
    | none => simp [Store.rangeOf, hq]
    | some n =>
      obtain @⟨node, _, _, _, _, _, st2, own, _, h1, _, h2, _, _, _, rfl⟩ := h
      have hn : n ≠ node := by
        rintro rfl
        exact hqp (hi.owner_unique q p n hq own)
      have hblock : (st2.reindex node p).block n = st.block n :=
        (h2.block_other hn).trans ((h1.block_other hn).trans (Store.setHole_block_other hn))
      simp [Store.rangeOf, Store.startOf, Store.getSize, hq, hblock]

theorem deallocateEach_spec (h : MemReachable st) (hnd : freed.Nodup)
    (hall : ∀ p ∈ freed, (st.procs p).blockNode ≠ none) :
    ∃ st', deallocateEach st freed = .ok st' ∧ MemReachable st' ∧
      ∀ q, st'.rangeOf q = if q ∈ freed then none else st.rangeOf q := by
  induction freed generalizing st with
  | nil => exact ⟨st, rfl, h, by simp⟩
  | cons p rest ih =>
    obtain ⟨hp, hrest⟩ := List.nodup_cons.mp hnd
    obtain ⟨hi, -⟩ := reachable_indexed_tiled h
    obtain ⟨node, hnode⟩ := Option.ne_none_iff_exists'.mp (hall p (by simp))
    obtain ⟨st1, hok, hrel⟩ := deallocate_release hi hnode
    have hall1 : ∀ q ∈ rest, (st1.procs q).blockNode ≠ none := by
      intro q hq
      have hqp : q ≠ p := fun he => hp (he ▸ hq)
      rw [hrel.procs, setBlockNode_blockNode, if_neg hqp]
      exact hall q (List.mem_cons_of_mem _ hq)
    obtain ⟨st', hok', hreach, hranges⟩ := ih (h.deallocate (hall p (by simp)) hok) hrest hall1
    refine ⟨st', ?_, hreach, fun q => ?_⟩
    · rw [deallocateEach, hok]
      exact hok'
    · rw [hranges q, hrel.rangeOf hi]
      by_cases hqr : q ∈ rest
      · simp [hqr]
      · simp [hqr]

/-- With nothing owned, memory is one hole again. -/
theorem MemReachable.reset (h : MemReachable st) (hnone : ∀ p, (st.procs p).blockNode = none) :
    st.Reset := by
  obtain ⟨hi, ht⟩ := reachable_indexed_tiled h
  have hstart : MemReachable (initialiseMemory st.procs) := .init hnone
  obtain ⟨hi0, ht0⟩ := reachable_indexed_tiled hstart
  have hranges : st.ownedRanges = (initialiseMemory st.procs).ownedRanges := by
    ext r
    simp [Store.ownedRanges, Store.rangeOf, initialiseMemory, hnone]
  have hlayout := layout_eq hi ht hi0 ht0 hranges
  obtain ⟨node, hmemory, hblock⟩ := List.map_eq_singleton_iff.mp hlayout
  have htype : st.typeOf node = .hole := congrArg Block.type hblock
  have hholes := hi.holes_perm
  rw [hmemory, List.filter_cons_of_pos (by simp [htype])] at hholes
  exact ⟨⟨node, hmemory, List.perm_singleton.mp hholes, hblock⟩, hnone⟩

/-- Freeing is confluent: the blocks of memory are determined by the ranges in use, its holes are
the gaps between them, so any order of freeing leads to the same blocks and the same sizes in the
index, and freeing everybody to the state at the start. -/
theorem freeing_confluent (h : MemReachable st) :
    (∀ st', MemReachable st' → st'.ownedRanges = st.ownedRanges → st'.layout = st.layout) ∧
    (∀ start size, (∃ n, st.IsHole n ∧ st.startOf n = start ∧ st.getSize n = size) ↔
      Gap st.Owned 0 2048 start size) ∧
    ∀ freed freed' : List ProcId, freed.Perm freed' → freed.Nodup →
      (∀ p ∈ freed, (st.procs p).blockNode ≠ none) →
      ∃ st1 st2, deallocateEach st freed = .ok st1 ∧ deallocateEach st freed' = .ok st2 ∧
        st1.layout = st2.layout ∧
        (st1.holes.map st1.getSize).Perm (st2.holes.map st2.getSize) ∧
        ((∀ p, (st.procs p).blockNode ≠ none → p ∈ freed) → st1.Reset) := by
  obtain ⟨hi, ht⟩ := reachable_indexed_tiled h
  refine ⟨fun st' h' hranges => ?_, hi.hole_iff_gap ht, ?_⟩
  · obtain ⟨hi', ht'⟩ := reachable_indexed_tiled h'
    exact layout_eq hi' ht' hi ht hranges
  · intro freed freed' hperm hnd hall
    obtain ⟨st1, hok1, hreach1, hranges1⟩ := deallocateEach_spec h hnd hall
    obtain ⟨st2, hok2, hreach2, hranges2⟩ := deallocateEach_spec h (hperm.nodup_iff.mp hnd)
      fun p hp => hall p (hperm.mem_iff.mpr hp)
    obtain ⟨hi1, ht1⟩ := reachable_indexed_tiled hreach1
    obtain ⟨hi2, ht2⟩ := reachable_indexed_tiled hreach2
    have hsame : st1.ownedRanges = st2.ownedRanges := by
      simp only [Store.ownedRanges, hranges1, hranges2, hperm.mem_iff]
    have hlayout := layout_eq hi1 ht1 hi2 ht2 hsame
    refine ⟨st1, st2, hok1, hok2, hlayout, ?_, fun hevery => ?_⟩
    · have hsizes := hi1.hole_sizes
      rw [hlayout] at hsizes
      exact hsizes.trans hi2.hole_sizes.symm
    · apply hreach1.reset
      intro p
      have hrange : st1.rangeOf p = none := by
        rw [hranges1]
        split
        · rfl
        · rename_i hp
          have hnone : (st.procs p).blockNode = none := by
            by_contra hsome
            exact hp (hevery p hsome)
          simp [Store.rangeOf, hnone]
      simpa [Store.rangeOf] using hrange

/-- Both of two processes are freed, in either order. -/
theorem freeing_confluent_twoProcesses : ∃ st st1 st2 : Store,
    st.layout = [⟨.process, 0, 8⟩, ⟨.process, 8, 16⟩, ⟨.hole, 24, 2024⟩] ∧
    deallocateEach st [0, 1] = .ok st1 ∧ deallocateEach st [1, 0] = .ok st2 ∧
    st1.layout = st2.layout := by
  have h0 : MemReachable (initialiseMemory twoProcesses) := .init fun _ => rfl
  have h1 := h0.allocate (by decide) (by decide) (by decide)
    (rfl : allocateMemory .bestFit _ [0, 1] (.list []) = .ok _)
  obtain ⟨st1, st2, hok1, hok2, hlayout, -⟩ :=
    (freeing_confluent h1).2.2 [0, 1] [1, 0] (.swap 1 0 []) (by decide) (by decide)
  exact ⟨_, st1, st2, by decide, hok1, hok2, hlayout⟩

end ProcessManager
