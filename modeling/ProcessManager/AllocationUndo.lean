import ProcessManager.FreeingOrder

/-! Freeing a block right after it was allocated restores memory and the index as they were. -/
namespace ProcessManager

variable {st st' st'' st1 st2 : Store} {p : ProcId} {node own adj n : NodeId}
  {L R A B L' R' : List NodeId}

/-- The holes of the index, in its order. -/
def Store.holeLayout (st : Store) : List (ℤ × ℤ) :=
  st.holes.map fun n => (st.startOf n, st.getSize n)

/-- The node `own` stands where `node` stood, with the same block, but is not in the index yet. -/
structure Replaced (st : Store) (L : List NodeId) (node : NodeId) (R A B : List NodeId)
    (own : NodeId) (st1 : Store) : Prop where
  memory : st1.memory = L ++ own :: R
  holes : st1.holes = A ++ B
  block_own : st1.block own = st.block node
  block_side : ∀ n, n ∈ L ∨ n ∈ R → st1.block n = st.block n

/-- A hole of the index is none of the others. -/
theorem Store.Indexed.hole_apart (hi : st.Indexed) (hholes : st.holes = A ++ node :: B) :
    node ∉ A ++ B := by
  have hnodup := hi.holes_nodup
  rw [hholes] at hnodup
  exact (List.nodup_cons.mp (List.nodup_middle.mp hnodup)).1

/-- The other holes are what and where they were. -/
theorem Replaced.block_hole (h : Replaced st L node R A B own st1) (hi : st.Indexed)
    (hmemory : st.memory = L ++ node :: R) (hholes : st.holes = A ++ node :: B)
    (hn : n ∈ A ++ B) : st1.block n = st.block n := by
  have hne : n ≠ node := by
    rintro rfl
    exact hi.hole_apart hholes hn
  have hmem : n ∈ st.holes := by
    rw [hholes]
    simp only [List.mem_append, List.mem_cons] at hn ⊢
    tauto
  have hin := (hi.mem_holes.mp hmem).1
  rw [hmemory] at hin
  exact h.block_side n (by simpa [hne] using hin)

/-- The sorted insertion puts `own` where the hole was. -/
theorem Replaced.index (h : Replaced st L node R A B own st1) (hi : st.Indexed)
    (hmemory : st.memory = L ++ node :: R) (hholes : st.holes = A ++ node :: B)
    (hsmall : ∀ n ∈ A, st.getSize n < st.getSize node) :
    insertNodeSorted compareInts st1.getSize own st1.holes = A ++ own :: B := by
  have hsize : ∀ n ∈ A ++ B, st1.getSize n = st.getSize n := fun n hn =>
    congrArg Block.size (h.block_hole hi hmemory hholes hn)
  have hown : st1.getSize own = st.getSize node := congrArg Block.size h.block_own
  have hlarge : ∀ n ∈ B, st.getSize node ≤ st.getSize n := by
    have hsorted := hi.sorted
    rw [hholes] at hsorted
    exact (List.pairwise_cons.mp (List.pairwise_append.mp hsorted).2.1).1
  rw [h.holes]
  apply insertNodeSorted_between
  · intro n hn
    rw [hsize n (by simp [hn]), hown]
    exact hsmall n hn
  · intro n hn
    rw [hsize n (by simp [hn]), hown]
    exact hlarge n hn

/-- Then it goes back into the index where the hole was. -/
theorem Replaced.reindex (h : Replaced st L node R A B own st1) (hi : st.Indexed)
    (hmemory : st.memory = L ++ node :: R) (hholes : st.holes = A ++ node :: B)
    (hsmall : ∀ n ∈ A, st.getSize n < st.getSize node) (p : ProcId) :
    (st1.reindex own p).layout = st.layout ∧
      (st1.reindex own p).holeLayout = st.holeLayout := by
  constructor
  · have hL : L.map st1.block = L.map st.block :=
      List.map_congr_left fun n hn => h.block_side n (Or.inl hn)
    have hR : R.map st1.block = R.map st.block :=
      List.map_congr_left fun n hn => h.block_side n (Or.inr hn)
    change st1.memory.map st1.block = st.memory.map st.block
    rw [h.memory, hmemory, List.map_append, List.map_cons, hL, hR, h.block_own, List.map_append,
      List.map_cons]
  · let range (b : Block) : ℤ × ℤ := (b.startAddress, b.size)
    have hside : ∀ n ∈ A ++ B, range (st1.block n) = range (st.block n) := fun n hn =>
      congrArg range (h.block_hole hi hmemory hholes hn)
    have hA : A.map (fun n => range (st1.block n)) = A.map fun n => range (st.block n) :=
      List.map_congr_left fun n hn => hside n (by simp [hn])
    have hB : B.map (fun n => range (st1.block n)) = B.map fun n => range (st.block n) :=
      List.map_congr_left fun n hn => hside n (by simp [hn])
    change (insertNodeSorted compareInts st1.getSize own st1.holes).map
      (fun n => range (st1.block n)) = st.holes.map fun n => range (st.block n)
    rw [h.index hi hmemory hholes hsmall, hholes, List.map_append, List.map_cons, hA, hB,
      h.block_own, List.map_append, List.map_cons]

theorem Beside.sides (h : Beside adj L R L' R') :
    L' = L ∧ R = adj :: R' ∨ L = L' ++ [adj] ∧ R' = R := by
  cases h with
  | right => exact Or.inl ⟨rfl, rfl⟩
  | left => exact Or.inr ⟨rfl, rfl⟩

/-- A block with no hole behind it takes nothing over there. -/
theorem Merge.keep_right (h : Merge st node L R st' L R')
    (hR : (R.map st.typeOf).head? ≠ some .hole) : st' = st ∧ R' = R := by
  cases h with
  | keep => exact ⟨rfl, rfl⟩
  | absorb hb ht =>
    rcases hb.sides with ⟨-, rfl⟩ | ⟨hL, -⟩
    · simp [ht] at hR
    · simp at hL

theorem Merge.keep_left (h : Merge st node L R st' L' R)
    (hL : (L.map st.typeOf).getLast? ≠ some .hole) : st' = st ∧ L' = L := by
  cases h with
  | keep => exact ⟨rfl, rfl⟩
  | absorb hb ht =>
    rcases hb.sides with ⟨-, hR⟩ | ⟨rfl, -⟩
    · simp at hR
    · simp [ht] at hL

/-- A hole behind the block does not stay there. -/
theorem Merge.absorb_right (h : Merge st node L (adj :: R) st' L R')
    (ht : st.typeOf adj = .hole) (hend : (R'.map st'.typeOf).head? ≠ some .hole) :
    st' = st.absorb node adj ∧ R' = R := by
  cases h with
  | keep => simp [ht] at hend
  | absorb hb ht' =>
    rcases hb.sides with ⟨-, heq⟩ | ⟨hL, -⟩
    · obtain ⟨rfl, rfl⟩ := List.cons.inj heq
      exact ⟨rfl, rfl⟩
    · simp at hL

theorem Placement.setHole_own (h : Placement st p L node R st') :
    (st'.setHole st.nextNode).block st.nextNode =
      ⟨.hole, (st.block node).startAddress, (st.procs p).memRequirement⟩ := by
  simp [Store.setHole, h.block_new]

theorem Placement.setHole_side (h : Placement st p L node R st') (hi : st.Indexed)
    (hn : n ∈ L ∨ n ∈ R) : (st'.setHole st.nextNode).block n = st.block n := by
  have hne : n ≠ st.nextNode := h.ne_next hi (by simp; tauto)
  rw [Store.setHole_block_other hne, h.block_side hi hn]

/-- The hole that was used had no hole beside it, so its neighbours are not taken over. -/
theorem Placement.sides_apart (h : Placement st p L node R st') (hi : st.Indexed) :
    (L.map (st'.setHole st.nextNode).typeOf).getLast? ≠ some .hole ∧
      (R.map (st'.setHole st.nextNode).typeOf).head? ≠ some .hole := by
  have hapart := hi.apart
  rw [Store.types, h.memory, List.map_append, List.map_cons, h.node_type hi, apart_hole] at hapart
  have hL : L.map (st'.setHole st.nextNode).typeOf = L.map st.typeOf :=
    List.map_congr_left fun n hn => congrArg Block.type (h.setHole_side hi (Or.inl hn))
  have hR : R.map (st'.setHole st.nextNode).typeOf = R.map st.typeOf :=
    List.map_congr_left fun n hn => congrArg Block.type (h.setHole_side hi (Or.inr hn))
  rw [hL, hR]
  exact ⟨hapart.2.2.1, hapart.2.2.2⟩

theorem Store.Freeing.sides_unique (h : st.Freeing L node R) (h' : st.Freeing L' node R') :
    L' = L ∧ R' = R := by
  have heq : L' ++ node :: R' = L ++ node :: R := h'.memory.symm.trans h.memory
  have hL : L' = L := by
    rw [← nodesBefore_append (R := R') h'.notMem.1, heq, nodesBefore_append h.notMem.1]
  have hR : R' = R := by
    rw [← nodesAfter_append (R := R') h'.notMem.1, heq, nodesAfter_append h.notMem.1]
  exact ⟨hL, hR⟩

/-- The deallocation brings the block of the hole together again under the new node. -/
theorem Placement.replaced (h : Placement st p L node R st') (hi : st.Indexed)
    (hreq : 1 ≤ (st.procs p).memRequirement) (hholes : st.holes = A ++ node :: B)
    (hrel : Release st' p st'') :
    ∃ st1, Replaced st L node R A B st.nextNode st1 ∧ st'' = st1.reindex st.nextNode p := by
  obtain ⟨own, start, right, middle, left, stop, -, right_end, rfl⟩ := hrel
  rename_i new L0 R0 R1 L1 st1 st2
  obtain rfl : st.nextNode = new := by simpa [h.blockNode] using own
  refine ⟨st2, ?_, rfl⟩
  obtain ⟨hleft, hright⟩ := h.sides_apart hi
  have htype : st'.typeOf st.nextNode = .process := by rw [Store.typeOf, h.block_new]
  have herase : st.holes.erase node = A ++ B := by
    rw [hholes]
    exact deleteNode_append fun hA => hi.hole_apart hholes (List.mem_append_left _ hA)
  rcases h.lists with ⟨hsize, hmemory, hindex⟩ | ⟨hsize, hmemory, hindex⟩
  · -- a perfect fit: neither side has anything to take over
    obtain ⟨rfl, rfl⟩ := ((h.listed hi).freeing hmemory htype).sides_unique start
    obtain ⟨rfl, rfl⟩ := right.keep_right hright
    obtain ⟨rfl, rfl⟩ := left.keep_left hleft
    refine ⟨stop.memory, ?_, ?_, fun n hn => h.setHole_side hi hn⟩
    · exact hindex.trans herase
    · rw [h.setHole_own, ← hsize, ← h.node_type hi]
      rfl
  · -- the rest of the hole stands behind the block and is taken over
    obtain ⟨rfl, rfl⟩ := ((h.listed hi).freeing hmemory htype).sides_unique start
    have hne : node ≠ st.nextNode := h.ne_next hi (by simp)
    have hrest : (st'.setHole st.nextNode).block node =
        ⟨.hole, (st.block node).startAddress + (st.procs p).memRequirement,
          (st.block node).size - (st.procs p).memRequirement⟩ := by
      rw [Store.setHole_block_other hne, h.block_rest hi]
    have hend : (R1.map st1.typeOf).head? ≠ some .hole := by
      rwa [show st2.typeOf = st1.typeOf from funext fun _ => left.typeOf] at right_end
    obtain ⟨rfl, rfl⟩ := right.absorb_right (congrArg Block.type hrest) hend
    have hleft' : (L0.map ((st'.setHole st.nextNode).absorb st.nextNode node).typeOf).getLast? ≠
        some .hole := by
      rwa [show ((st'.setHole st.nextNode).absorb st.nextNode node).typeOf =
        (st'.setHole st.nextNode).typeOf from funext fun _ => Store.absorb_typeOf]
    obtain ⟨rfl, rfl⟩ := left.keep_left hleft'
    refine ⟨stop.memory, ?_, ?_, ?_⟩
    · change st'.holes.erase node = A ++ B
      rw [hindex, insertNodeSorted_erase, herase]
    · have hstart : ¬ (st.block node).startAddress + (st.procs p).memRequirement <
          (st.block node).startAddress := by omega
      have hblock : ((st'.setHole st.nextNode).absorb st.nextNode node).block st.nextNode =
          ⟨.hole, (st.block node).startAddress,
            (st.procs p).memRequirement +
              ((st.block node).size - (st.procs p).memRequirement)⟩ := by
        simp [Store.absorb, h.setHole_own, hrest, hstart]
      rw [hblock, add_sub_cancel, ← h.node_type hi]
      rfl
    · intro n hn
      rw [Store.absorb_block_other (h.ne_next hi (by simp; tauto)), h.setHole_side hi hn]

/-- Freeing a process right after `best_fit` found room for it undoes the allocation: the blocks of
memory and the holes of the index are the ones before, in the same order. -/
theorem deallocate_undoes_bestFit (h : MemReachable st)
    (hreq : 1 ≤ (st.procs p).memRequirement) (hrun : bestFit st p = (st', true)) :
    ∃ st'', deallocateMemory .bestFit st' p = .ok st'' ∧ st''.layout = st.layout ∧
      st''.holeLayout = st.holeLayout := by
  obtain ⟨hi, -⟩ := reachable_indexed_tiled h
  obtain ⟨L, node, R, A, B, hplace, hholes, hsmall⟩ := bestFit_first hi hrun
  have htype : st'.typeOf st.nextNode = .process := by rw [Store.typeOf, hplace.block_new]
  have hfree : ∃ R', (st'.setHole st.nextNode).Freeing L st.nextNode R' := by
    rcases hplace.lists with ⟨-, hmemory, -⟩ | ⟨-, hmemory, -⟩
    · exact ⟨R, (hplace.listed hi).freeing hmemory htype⟩
    · exact ⟨node :: R, (hplace.listed hi).freeing hmemory htype⟩
  obtain ⟨R', hfree⟩ := hfree
  obtain ⟨st'', hok, hrel⟩ := hfree.release (p := p) (by simp [hplace.blockNode])
  obtain ⟨st1, hreplaced, rfl⟩ := hplace.replaced hi hreq hholes hrel
  exact ⟨_, hok, hreplaced.reindex hi hplace.memory hholes
    (fun n hn => (hsmall n hn).trans_le hplace.fits) p⟩

/-- The second of two processes is placed behind the first and freed again. -/
theorem deallocate_undoes_bestFit_twoProcesses : ∃ st st' st'' : Store,
    st.layout = [⟨.process, 0, 8⟩, ⟨.hole, 8, 2040⟩] ∧
    st'.layout = [⟨.process, 0, 8⟩, ⟨.process, 8, 16⟩, ⟨.hole, 24, 2024⟩] ∧
    deallocateMemory .bestFit st' 1 = .ok st'' ∧ st''.layout = st.layout ∧
    st''.holeLayout = [(8, 2040)] := by
  have h0 : MemReachable (initialiseMemory twoProcesses) := .init fun _ => rfl
  have h1 := h0.allocate (by decide) (by decide) (by decide)
    (rfl : allocateMemory .bestFit _ [0] (.list []) = .ok _)
  obtain ⟨st'', hok, hlayout, hholes⟩ :=
    deallocate_undoes_bestFit (p := 1) h1 (by decide) rfl
  exact ⟨_, _, st'', by decide, by decide, hok, hlayout, hholes.trans (by decide)⟩

end ProcessManager
