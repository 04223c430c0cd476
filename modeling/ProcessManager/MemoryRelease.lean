import ProcessManager.MemoryInvariant

/-! Deallocation: the freed block takes over the holes beside it and goes back into the index. -/
namespace ProcessManager

variable {st st' st1 st2 : Store} {p : ProcId} {node adj n : NodeId}
  {L R L' R' L1 R1 L2 R2 : List NodeId}

/-- A store in the middle of `deallocate_memory`: `node` is already a hole, but not yet in the
index, and may stand beside other holes. -/
structure Store.Freeing (st : Store) (L : List NodeId) (node : NodeId) (R : List NodeId) :
    Prop where
  memory : st.memory = L ++ node :: R
  nodup : (L ++ node :: R).Nodup
  fresh : ∀ n ∈ L ++ node :: R, n < st.nextNode
  type_node : st.typeOf node = .hole
  holes_perm : st.holes.Perm
    (L.filter (st.typeOf · = .hole) ++ R.filter (st.typeOf · = .hole))
  sorted : st.holes.Pairwise (st.getSize · ≤ st.getSize ·)
  left : Apart (L.map st.typeOf)
  right : Apart (R.map st.typeOf)

/-- The block takes over a hole beside it: `update_memory` when its search succeeds. -/
def Store.absorb (st : Store) (node adj : NodeId) : Store where
  procs := st.procs
  block := Function.update st.block node
    { st.block node with
      startAddress := if (st.block adj).startAddress < (st.block node).startAddress then
        (st.block adj).startAddress else (st.block node).startAddress
      size := (st.block node).size + (st.block adj).size }
  memory := st.memory.erase adj
  holes := st.holes.erase adj
  nextNode := st.nextNode

/-- `adj` is the nearest node on one of the two sides. -/
inductive Beside (adj : NodeId) : List NodeId → List NodeId → List NodeId → List NodeId → Prop
  | right (L R : List NodeId) : Beside adj L (adj :: R) L R
  | left (L R : List NodeId) : Beside adj (L ++ [adj]) R L R

/-- What one call of `check_direction` does: nothing, or one hole is taken over. -/
inductive Merge (st : Store) (node : NodeId) (L R : List NodeId) :
    Store → List NodeId → List NodeId → Prop
  | keep : Merge st node L R st L R
  | absorb {adj : NodeId} {L' R' : List NodeId} (hb : Beside adj L R L' R')
      (ht : st.typeOf adj = .hole) : Merge st node L R (st.absorb node adj) L' R'

theorem updateMemory_of_mem (h : adj ∈ st.holes) :
    updateMemory st node adj = .ok (st.absorb node adj) := by
  simp only [updateMemory, deleteNodeByData_of_mem h]
  rfl

theorem Store.absorb_block_other (hn : n ≠ node) : (st.absorb node adj).block n = st.block n :=
  Function.update_of_ne hn _ _

theorem Store.absorb_typeOf : (st.absorb node adj).typeOf n = st.typeOf n := by
  by_cases hn : n = node
  · subst hn
    simp [Store.typeOf, Store.absorb]
  · rw [Store.typeOf, Store.absorb_block_other hn, Store.typeOf]

theorem Beside.perm (h : Beside adj L R L' R') : (L ++ R).Perm (adj :: (L' ++ R')) := by
  cases h with
  | right => exact List.perm_middle
  | left =>
    rw [List.append_assoc]
    exact List.perm_middle

theorem Store.Freeing.notMem (h : st.Freeing L node R) : node ∉ L ∧ node ∉ R := by
  have := List.nodup_middle.mp h.nodup
  simpa [not_or] using (List.nodup_cons.mp this).1

theorem Store.Freeing.mem_holes (h : st.Freeing L node R) :
    n ∈ st.holes ↔ (n ∈ L ∨ n ∈ R) ∧ st.typeOf n = .hole := by
  rw [h.holes_perm.mem_iff]
  simp only [List.mem_append, List.mem_filter, decide_eq_true_eq]
  tauto

/-- Taking over a neighbouring hole keeps everything but the place of the block. -/
theorem Store.Freeing.absorb (h : st.Freeing L node R) (hb : Beside adj L R L' R')
    (ht : st.typeOf adj = .hole) : (st.absorb node adj).Freeing L' node R' := by
  obtain ⟨hnL, hnR⟩ := h.notMem
  have hadj : adj ≠ node := by
    rintro rfl
    cases hb <;> simp at hnL hnR
  have hmem : (L ++ node :: R).erase adj = L' ++ node :: R' := by
    have hnd := h.nodup
    cases hb with
    | right =>
      have hL : adj ∉ L := fun hm => (List.nodup_append.mp hnd).2.2 adj hm adj (by simp) rfl
      rw [List.erase_append_right _ hL, List.erase_cons_tail (by simpa using Ne.symm hadj),
        List.erase_cons_head]
    | left =>
      rw [List.append_assoc] at hnd ⊢
      have hL : adj ∉ L' := fun hm => (List.nodup_append.mp hnd).2.2 adj hm adj (by simp) rfl
      rw [List.erase_append_right _ hL]
      simp
  have hsub : (L' ++ node :: R').Sublist (L ++ node :: R) := hmem ▸ List.erase_sublist
  have hsize : ∀ n ∈ st.holes, (st.absorb node adj).getSize n = st.getSize n := by
    intro n hn
    have hne : n ≠ node := by
      rintro rfl
      rcases (h.mem_holes.mp hn).1 with hn | hn
      · exact hnL hn
      · exact hnR hn
    rw [Store.getSize, Store.absorb_block_other hne, Store.getSize]
  have htypes : (st.absorb node adj).typeOf = st.typeOf := funext fun _ => Store.absorb_typeOf
  constructor
  case memory => exact (congrArg (·.erase adj) h.memory).trans hmem
  case nodup => exact h.nodup.sublist hsub
  case fresh => exact fun n hn => h.fresh n (hsub.mem hn)
  case type_node => rw [htypes, h.type_node]
  case holes_perm =>
    rw [htypes, ← List.filter_append]
    have hfilter := hb.perm.filter (st.typeOf · = .hole)
    rw [List.filter_cons_of_pos (by simp [ht]), List.filter_append] at hfilter
    have := (h.holes_perm.trans hfilter).erase adj
    rwa [List.erase_cons_head] at this
  case sorted =>
    refine (h.sorted.sublist List.erase_sublist).imp_of_mem fun ha hb' hab => ?_
    rwa [hsize _ (List.mem_of_mem_erase ha), hsize _ (List.mem_of_mem_erase hb')]
  case left =>
    rw [htypes]
    cases hb with
    | right => exact h.left
    | left =>
      have := h.left
      rw [List.map_append] at this
      exact (List.isChain_append.mp this).1
  case right =>
    rw [htypes]
    cases hb with
    | right => exact (apart_cons.mp h.right).2
    | left => exact h.right

theorem checkDirection_stop {l : List NodeId} (h : (l.map st.typeOf).head? ≠ some .hole) :
    checkDirection node st l = .ok st := by
  cases l with
  | nil => rfl
  | cons x l =>
    have hx : (st.block x).type ≠ .hole := by simpa [Store.typeOf] using h
    rw [checkDirection, if_neg hx]

/-- Along a side without neighbouring holes at most one hole is taken over. -/
theorem checkDirection_cons {l : List NodeId} (hadj : adj ∈ st.holes)
    (ht : st.typeOf adj = .hole) (hl : (l.map st.typeOf).head? ≠ some .hole) :
    checkDirection node st (adj :: l) = .ok (st.absorb node adj) := by
  have hstop : ((l.map (st.absorb node adj).typeOf).head?) ≠ some .hole := by
    rwa [show (st.absorb node adj).typeOf = st.typeOf from funext fun _ => Store.absorb_typeOf]
  rw [checkDirection, if_pos (show (st.block adj).type = .hole from ht),
    updateMemory_of_mem hadj]
  exact checkDirection_stop hstop

theorem Store.Freeing.checkRight (h : st.Freeing L node R) :
    ∃ st' R', checkDirection node st R = .ok st' ∧ Merge st node L R st' L R' ∧
      st'.Freeing L node R' ∧ (R'.map st'.typeOf).head? ≠ some .hole := by
  cases R with
  | nil => exact ⟨st, [], rfl, .keep, h, by simp⟩
  | cons r R =>
    by_cases hr : st.typeOf r = .hole
    · have hnext : (R.map st.typeOf).head? ≠ some .hole := by
        have := (apart_cons.mp h.right).1
        intro hh
        exact this _ hh ⟨hr, rfl⟩
      have hmerge := h.absorb (.right L R) hr
      refine ⟨_, R, checkDirection_cons (h.mem_holes.mpr ⟨by simp, hr⟩) hr hnext,
        .absorb (.right L R) hr, hmerge, ?_⟩
      rwa [show (st.absorb node r).typeOf = st.typeOf from funext fun _ => Store.absorb_typeOf]
    · exact ⟨st, r :: R, checkDirection_stop (by simpa using hr), .keep, h, by simpa using hr⟩

theorem Store.Freeing.checkLeft (h : st.Freeing L node R) :
    ∃ st' L', checkDirection node st L.reverse = .ok st' ∧ Merge st node L R st' L' R ∧
      st'.Freeing L' node R ∧ (L'.map st'.typeOf).getLast? ≠ some .hole ∧
      (R.map st'.typeOf) = R.map st.typeOf := by
  rcases List.eq_nil_or_concat L with rfl | ⟨L, l, rfl⟩
  · exact ⟨st, [], rfl, .keep, h, by simp, rfl⟩
  · rw [List.concat_eq_append] at h ⊢
    rw [List.reverse_append, List.reverse_singleton, List.singleton_append]
    by_cases hl : st.typeOf l = .hole
    · have hnext : (L.map st.typeOf).getLast? ≠ some .hole := by
        have := h.left
        rw [List.map_append, List.map_singleton, hl, apart_hole] at this
        exact this.2.2.1
      have htypes : (st.absorb node l).typeOf = st.typeOf := funext fun _ => Store.absorb_typeOf
      refine ⟨_, L, checkDirection_cons (h.mem_holes.mpr ⟨by simp, hl⟩) hl ?_,
        .absorb (.left L R) hl, h.absorb (.left L R) hl, by rwa [htypes], by rw [htypes]⟩
      rwa [List.map_reverse, List.head?_reverse]
    · exact ⟨st, L ++ [l], checkDirection_stop (by simpa using hl), .keep, h,
        by simpa using hl, rfl⟩

/-- The freed block as a hole, before any merge. -/
def Store.setHole (st : Store) (node : NodeId) : Store :=
  { st with block := Function.update st.block node { st.block node with type := .hole } }

/-- The end of `deallocate_memory`: the block enters the index and leaves its process. -/
def Store.reindex (st : Store) (node : NodeId) (p : ProcId) : Store :=
  { st with
    holes := insertNodeSorted compareInts st.getSize node st.holes
    procs := setBlockNode st.procs p none }

/-- The course of one deallocation: the right side is merged, then the left. -/
inductive Release (st : Store) (p : ProcId) (st' : Store) : Prop
  | mk {node : NodeId} {L R R1 L1 : List NodeId} {st1 st2 : Store}
      (own : (st.procs p).blockNode = some node)
      (start : (st.setHole node).Freeing L node R)
      (right : Merge (st.setHole node) node L R st1 L R1)
      (middle : st1.Freeing L node R1)
      (left : Merge st1 node L R1 st2 L1 R1)
      (stop : st2.Freeing L1 node R1)
      (left_end : (L1.map st2.typeOf).getLast? ≠ some .hole)
      (right_end : (R1.map st2.typeOf).head? ≠ some .hole)
      (result : st' = st2.reindex node p)

theorem Store.setHole_block_other (hn : n ≠ node) : (st.setHole node).block n = st.block n :=
  Function.update_of_ne hn _ _

theorem Store.setHole_getSize : (st.setHole node).getSize n = st.getSize n := by
  by_cases hn : n = node
  · subst hn
    simp [Store.getSize, Store.setHole]
  · rw [Store.getSize, Store.setHole_block_other hn, Store.getSize]

/-- The store in which a PROCESS node is about to be freed. -/
theorem Store.Listed.freeing (hi : st.Listed) (hLR : st.memory = L ++ node :: R)
    (ht : st.typeOf node = .process) : (st.setHole node).Freeing L node R := by
  have hnd := hi.nodup
  rw [hLR] at hnd
  have hnot : node ∉ L ∧ node ∉ R := by
    have := List.nodup_middle.mp hnd
    simpa [not_or] using (List.nodup_cons.mp this).1
  have htype : ∀ n, n ≠ node → (st.setHole node).typeOf n = st.typeOf n := fun n hn => by
    rw [Store.typeOf, Store.setHole_block_other hn, Store.typeOf]
  have hL : ∀ n ∈ L, (st.setHole node).typeOf n = st.typeOf n :=
    fun n hn => htype n fun he => hnot.1 (he ▸ hn)
  have hR : ∀ n ∈ R, (st.setHole node).typeOf n = st.typeOf n :=
    fun n hn => htype n fun he => hnot.2 (he ▸ hn)
  have hapart := hi.apart
  rw [Store.types, hLR, List.map_append, List.map_cons, ht, apart_process] at hapart
  refine ⟨hLR, hnd, fun n hn => hi.fresh n (hLR ▸ hn), ?_, ?_, ?_, ?_, ?_⟩
  · simp [Store.typeOf, Store.setHole]
  · have hperm := hi.holes_perm
    rw [hLR, List.filter_append, List.filter_cons_of_neg (by simp [ht])] at hperm
    rwa [List.filter_congr fun n hn => by rw [hL n hn],
      List.filter_congr (l := R) fun n hn => by rw [hR n hn]]
  · refine hi.sorted.imp fun hab => ?_
    rwa [Store.setHole_getSize, Store.setHole_getSize]
  · rw [List.map_congr_left hL]
    exact hapart.1
  · rw [List.map_congr_left hR]
    exact hapart.2

/-- The store of a process about to be freed. -/
theorem Store.Indexed.freeing (hi : st.Indexed) (hp : (st.procs p).blockNode = some node) :
    ∃ L R, st.memory = L ++ node :: R ∧ (st.setHole node).Freeing L node R := by
  obtain ⟨hm, ht⟩ := (hi.owned node).mp ⟨p, hp⟩
  obtain ⟨L, R, hLR⟩ := List.append_of_mem hm
  exact ⟨L, R, hLR, hi.listed.freeing hLR ht⟩

/-- The call from the freed block on: it never faults, and takes its course. -/
theorem Store.Freeing.release (hp : (st.procs p).blockNode = some node)
    (hfree : (st.setHole node).Freeing L node R) :
    ∃ st', deallocateMemory .bestFit st p = .ok st' ∧ Release st p st' := by
  obtain ⟨hnL, -⟩ := hfree.notMem
  obtain ⟨st1, R1, hright, hmerge1, hfree1, hend⟩ := hfree.checkRight
  obtain ⟨st2, L1, hleft, hmerge2, hfree2, hend2, htypes⟩ := hfree1.checkLeft
  refine ⟨st2.reindex node p, ?_,
    .mk hp hfree hmerge1 hfree1 hmerge2 hfree2 hend2 (by rwa [htypes]) rfl⟩
  have hafter : nodesAfter (st.setHole node).memory node = R := by
    rw [hfree.memory, nodesAfter_append hnL]
  have hbefore : nodesBefore st1.memory node = L := by
    rw [hfree1.memory, nodesBefore_append hnL]
  have hcall : deallocateMemory .bestFit st p =
      (checkDirection node (st.setHole node) (nodesAfter (st.setHole node).memory node) >>=
        fun s => checkDirection node s (nodesBefore s.memory node).reverse >>=
          fun s => .ok (s.reindex node p)) := by
    simp only [deallocateMemory, hp]
    rfl
  rw [hcall, hafter, hright]
  change (checkDirection node st1 (nodesBefore st1.memory node).reverse >>= _) = _
  rw [hbefore, hleft]
  rfl

/-- Deallocating an allocated process never faults. -/
theorem deallocate_release (hi : st.Indexed) (hp : (st.procs p).blockNode = some node) :
    ∃ st', deallocateMemory .bestFit st p = .ok st' ∧ Release st p st' := by
  obtain ⟨L, R, -, hfree⟩ := hi.freeing hp
  exact hfree.release hp

theorem Merge.procs (h : Merge st node L R st' L' R') : st'.procs = st.procs := by
  cases h <;> rfl

theorem Merge.block_other (h : Merge st node L R st' L' R') (hn : n ≠ node) :
    st'.block n = st.block n := by
  cases h with
  | keep => rfl
  | absorb hb ht => exact Store.absorb_block_other hn

theorem Merge.typeOf (h : Merge st node L R st' L' R') : st'.typeOf n = st.typeOf n := by
  cases h with
  | keep => rfl
  | absorb hb ht => exact Store.absorb_typeOf

/-- Only holes leave the two sides. -/
theorem Merge.process_iff (h : Merge st node L R st' L' R') (ht : st.typeOf n = .process) :
    n ∈ L' ∨ n ∈ R' ↔ n ∈ L ∨ n ∈ R := by
  cases h with
  | keep => rfl
  | absorb hb hadj =>
    rename_i adj
    have hne : n ≠ adj := by
      rintro rfl
      simp [hadj] at ht
    simpa [hne] using (hb.perm.mem_iff (a := n)).symm

theorem setBlockNode_blockNode {procs : ProcTable} (b : Option NodeId) (q : ProcId) :
    (setBlockNode procs p b q).blockNode = if q = p then b else (procs q).blockNode := by
  by_cases hq : q = p
  · subst hq
    simp [setBlockNode]
  · simp [setBlockNode, hq]

theorem setBlockNode_memRequirement {procs : ProcTable} (b : Option NodeId) (q : ProcId) :
    (setBlockNode procs p b q).memRequirement = (procs q).memRequirement := by
  by_cases hq : q = p
  · subst hq
    simp [setBlockNode]
  · simp [setBlockNode, hq]

theorem Release.procs (h : Release st p st') : st'.procs = setBlockNode st.procs p none := by
  obtain ⟨_, _, h1, _, h2, _, _, _, rfl⟩ := h
  rw [Store.reindex, h2.procs, h1.procs]
  rfl

theorem Release.indexed (h : Release st p st') (hi : st.Indexed) : st'.Indexed := by
  have hprocs := h.procs
  obtain ⟨own, start, h1, middle, h2, stop, hl, hr, rfl⟩ := h
  rename_i node L R R1 L1 st1 st2
  have hmemory : st.memory = L ++ node :: R := start.memory
  -- the PROCESS nodes left are those of the other processes
  have hkeep : ∀ n, n ∈ st2.memory ∧ st2.typeOf n = .process ↔
      n ≠ node ∧ n ∈ st.memory ∧ st.typeOf n = .process := by
    intro n
    by_cases hn : n = node
    · subst hn
      simp [stop.type_node]
    · have htype : (st.setHole node).typeOf n = st.typeOf n := by
        rw [Store.typeOf, Store.setHole_block_other hn, Store.typeOf]
      rw [h2.typeOf, h1.typeOf, htype, stop.memory, hmemory]
      by_cases ht : st.typeOf n = .process
      · have e1 := h1.process_iff (htype.trans ht)
        have e2 := h2.process_iff (h1.typeOf.trans (htype.trans ht))
        simpa [hn, ht] using e2.trans e1
      · simp [ht]
  constructor
  case nodup => exact stop.memory ▸ stop.nodup
  case fresh =>
    intro n hn
    exact stop.fresh n (stop.memory ▸ hn)
  case holes_perm =>
    change (insertNodeSorted compareInts st2.getSize node st2.holes).Perm
      (st2.memory.filter (st2.typeOf · = .hole))
    rw [stop.memory, List.filter_append, List.filter_cons_of_pos (by simp [stop.type_node])]
    exact (insertNodeSorted_perm _ _).trans
      ((stop.holes_perm.cons node).trans List.perm_middle.symm)
  case sorted => exact insertNodeSorted_sorted stop.sorted
  case apart =>
    change Apart (st2.memory.map st2.typeOf)
    rw [stop.memory, List.map_append, List.map_cons, stop.type_node, apart_hole]
    exact ⟨stop.left, stop.right, hl, hr⟩
  case owned =>
    intro n
    change (∃ q, ((st2.reindex node p).procs q).blockNode = some n) ↔
      n ∈ st2.memory ∧ st2.typeOf n = .process
    rw [hkeep, ← hi.owned n, hprocs]
    simp only [setBlockNode_blockNode]
    constructor
    · rintro ⟨q, hq⟩
      split at hq
      · cases hq
      · rename_i hqp
        exact ⟨fun he => hqp (hi.owner_unique q p node (he ▸ hq) own), q, hq⟩
    · rintro ⟨hne, q, hq⟩
      refine ⟨q, ?_⟩
      rw [if_neg]
      · exact hq
      · rintro rfl
        exact hne (Option.some.inj (hq.symm.trans own))
  case owner_unique =>
    intro q q' n hq hq'
    rw [hprocs, setBlockNode_blockNode] at hq hq'
    split at hq <;> split at hq' <;> simp_all
    exact hi.owner_unique q q' n hq hq'
  case owner_size =>
    intro q n hq
    rw [hprocs, setBlockNode_blockNode] at hq
    rw [hprocs, setBlockNode_memRequirement]
    split at hq
    · cases hq
    · rename_i hqp
      have hn : n ≠ node := by
        rintro rfl
        exact hqp (hi.owner_unique q p _ hq own)
      change (st2.block n).size = _
      rw [h2.block_other hn, h1.block_other hn, Store.setHole_block_other hn]
      exact hi.owner_size q n hq

end ProcessManager
