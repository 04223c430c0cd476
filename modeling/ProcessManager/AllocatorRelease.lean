import ProcessManager.AllocatorRefinement

/-! Deallocation on the heap of nodes and blocks. -/
namespace ProcessManager.Raw

open DoublyLinked Fallible Pointer

variable {malloc : World → Option Addr} {w : World} {st st' : Store} {N : Naming} {p : ProcId}
  {n node adj : NodeId} {L R l : List NodeId} {getDir : Node Addr → Option Addr} {rounds : ℕ}

/-- `update_memory`: the adjacent node, its block and its entry in the index are freed. -/
theorem updateMemory_names (h : Names N w st []) (hnd : st.memory.Nodup) (hnode : node ∈ st.memory)
    (hadj : adj ∈ st.memory) (hholes : st.holes.Nodup) (hsub : ∀ n ∈ st.holes, n ∈ st.memory)
    (hin : adj ∈ st.holes) :
    ∃ w', updateMemory (N.node node) (N.node adj) w = .ok ((), w') ∧
      Names N w' (st.absorb node adj) [] ∧ w'.readyLines = w.readyLines := by
  obtain ⟨next, prev, hread⟩ := h.node_of_mem hadj
  obtain ⟨next', prev', hmain⟩ := h.node_of_mem hnode
  obtain ⟨hset, h1⟩ := h.setBlock hnode { st.block node with
    startAddress := if (st.block adj).startAddress < (st.block node).startAddress then
      (st.block adj).startAddress else (st.block node).startAddress
    size := (st.block node).size + (st.block adj).size }
  obtain ⟨L, R, hm⟩ := List.append_of_mem hadj
  obtain ⟨A, B, hh⟩ := List.append_of_mem hin
  have hA : ∀ n ∈ A, n ∈ st.memory ∧ n ≠ adj := by
    intro n hn
    refine ⟨hsub n (by rw [hh]; simp [hn]), ?_⟩
    rintro rfl
    rw [hh] at hholes
    exact (List.nodup_append.mp hholes).2.2 n hn n (by simp) rfl
  obtain ⟨w2, hdelete, h2, hlines⟩ := h1.absorbNode hm hh hA
  have hmemory : st.memory.erase adj = L ++ R := by
    rw [hm] at hnd ⊢
    exact deleteNode_append fun hL => (List.nodup_append.mp hnd).2.2 adj hL adj (by simp) rfl
  have hindex : st.holes.erase adj = A ++ B := by
    rw [hh]
    exact deleteNode_append fun hin => (hA adj hin).2 rfl
  refine ⟨w2, ?_, ?_, hlines⟩
  · rw [updateMemory, bind_of_ok (getNode_run hread), bind_of_ok (getBlock_run (h.blocks adj hadj)),
      bind_of_ok (getNode_run hmain), bind_of_ok (getBlock_run (h.blocks node hnode)),
      bind_of_ok hset]
    exact hdelete
  · rw [Store.absorb, hmemory, hindex]
    exact h2

/-- The loop of `check_direction` stops in front of a process. -/
theorem mergeHoles_stop (h : Names N w st []) (hn : n ∈ st.memory) (ht : st.typeOf n ≠ .hole)
    (main : Addr) : mergeHoles getDir main (rounds + 1) (N.node n) w = .ok ((), w) := by
  obtain ⟨next, prev, hread⟩ := h.node_of_mem hn
  rw [mergeHoles, bind_of_ok (getNode_run hread), bind_of_ok (getBlock_run (h.blocks n hn))]
  exact congrFun (if_neg ht) w

/-- The links in one direction from a node lead along `l`. -/
structure Leads (getDir : Node Addr → Option Addr) (N : Naming) (w : World) (node : NodeId)
    (l : List NodeId) : Prop where
  start : ∃ nd, w.heap (N.node node) = some nd ∧ getDir nd = l.head?.map N.node
  step : ∀ x rest, l = x :: rest → ∃ nd, w.heap (N.node x) = some nd ∧ nd.data = N.block x ∧
    getDir nd = rest.head?.map N.node

theorem Names.leads_next (h : Names N w st []) (hm : st.memory = L ++ node :: R) :
    Leads Node.next N w node R := by
  refine ⟨⟨_, h.nodeAt hm, rfl⟩, ?_⟩
  rintro x rest rfl
  have hx : st.memory = (L ++ [node]) ++ x :: rest := by rw [hm]; simp
  exact ⟨_, h.nodeAt hx, rfl, rfl⟩

theorem Names.leads_prev (h : Names N w st []) (hm : st.memory = L ++ node :: R) :
    Leads Node.prev N w node L.reverse := by
  refine ⟨⟨_, h.nodeAt hm, by rw [List.head?_reverse]⟩, fun x rest hrest => ?_⟩
  have hL : L = rest.reverse ++ [x] := by
    rw [← List.reverse_reverse L, hrest, List.reverse_cons]
  have hx : st.memory = rest.reverse ++ x :: node :: R := by rw [hm, hL]; simp
  refine ⟨_, h.nodeAt hx, rfl, ?_⟩
  simp only [List.getLast?_reverse]

/-- `check_direction` on one side, as along the sequence of its nodes. -/
theorem checkSide_names (h : Names N w st []) (hleads : Leads getDir N w node l)
    (hnd : st.memory.Nodup) (hnode : node ∈ st.memory) (hholes : st.holes.Nodup)
    (hsub : ∀ n ∈ st.holes, n ∈ st.memory) (hl : ∀ x ∈ l, x ∈ st.memory)
    (hin : ∀ x ∈ l, st.typeOf x = .hole → x ∈ st.holes) (hapart : Apart (l.map st.typeOf)) :
    ∃ w' st', checkSide getDir (N.node node) w = .ok ((), w') ∧
      ProcessManager.checkDirection node st l = .ok st' ∧ Names N w' st' [] ∧
      w'.readyLines = w.readyLines := by
  obtain ⟨nd, hread, hdir⟩ := hleads.start
  cases l with
  | nil =>
    refine ⟨w, st, ?_, rfl, h, rfl⟩
    rw [checkSide, bind_of_ok (getNode_run hread), hdir]
    rfl
  | cons x rest =>
    obtain ⟨ndx, hreadx, hdata, hdirx⟩ := hleads.step x rest rfl
    have hx := hl x (by simp)
    have hcall : checkSide getDir (N.node node) w = mergeHoles getDir (N.node node)
        ((w.lists .memory).numItems.toNat + 1) (N.node x) w := by
      rw [checkSide, bind_of_ok (getNode_run hread), hdir, List.head?_cons, Option.map_some,
        if_pos (by simp), checkDirection, bind_of_ok getList_run, bind_of_ok (getNode_run hread),
        hdir]
      rfl
    rw [hcall]
    by_cases ht : st.typeOf x = .hole
    · obtain ⟨w', hupdate, h', hlines⟩ :=
        updateMemory_names h hnd hnode hx hholes hsub (hin x (by simp) ht)
      have hhead : (rest.map st.typeOf).head? ≠ some .hole := fun hh =>
        (apart_cons.mp hapart).1 _ hh ⟨ht, rfl⟩
      refine ⟨w', st.absorb node x, ?_, checkDirection_cons (hin x (by simp) ht) ht hhead, h',
        hlines⟩
      have hblock : w.blocks ndx.data = some (st.block x) := by rw [hdata, h.blocks x hx]
      rw [mergeHoles, bind_of_ok (getNode_run hreadx), bind_of_ok (getBlock_run hblock),
        if_pos (show (st.block x).type = .hole from ht), bind_of_ok hupdate, hdirx]
      cases rest with
      | nil => rfl
      | cons y rest =>
        -- the node behind is a process, and the loop ends there
        have hy : st.typeOf y ≠ .hole := by simpa using hhead
        have hyx : y ≠ x := by
          rintro rfl
          exact hy ht
        have hleft : y ∈ (st.absorb node x).memory :=
          (List.mem_erase_of_ne hyx).mpr (hl y (by simp))
        have hcount : (w.lists .memory).numItems.toNat = st.memory.length := by
          rw [h.owned.rounds, Naming.seqs, List.length_map]
        obtain ⟨k, hk⟩ := Nat.exists_eq_succ_of_ne_zero (List.length_pos_of_mem hx).ne'
        rw [hcount, hk]
        exact mergeHoles_stop h' hleft (by rwa [Store.absorb_typeOf]) _
    · exact ⟨w, st, mergeHoles_stop h hx ht _, checkDirection_stop (by simpa using ht), h, rfl⟩

/-- What the two searches need of a store whose freed node is between `L` and `R`. -/
theorem freeing_sides (hf : st.Freeing L node R) : st.memory.Nodup ∧ node ∈ st.memory ∧
    st.holes.Nodup ∧ (∀ n ∈ st.holes, n ∈ st.memory ∧ n ≠ node) ∧
    ∀ x, x ∈ L ∨ x ∈ R → x ∈ st.memory ∧ (st.typeOf x = .hole → x ∈ st.holes) := by
  obtain ⟨hnL, hnR⟩ := hf.notMem
  have hmem : ∀ x, x ∈ L ∨ x ∈ R → x ∈ st.memory := by
    intro x hx
    rw [hf.memory]
    rcases hx with hx | hx <;> simp [hx]
  have hnd : (L ++ R).Nodup := hf.nodup.sublist (by simp)
  refine ⟨hf.memory ▸ hf.nodup, by simp [hf.memory], ?_, fun n hn => ?_, fun x hx => ?_⟩
  · rw [hf.holes_perm.nodup_iff, ← List.filter_append]
    exact hnd.filter _
  · obtain ⟨hside, -⟩ := hf.mem_holes.mp hn
    refine ⟨hmem n hside, ?_⟩
    rintro rfl
    exact hside.elim hnL hnR
  · exact ⟨hmem x hx, fun ht => hf.mem_holes.mpr ⟨hx, ht⟩⟩

theorem deallocate_of_sides {st1 st2 : Store} {R1 : List NodeId}
    (hp : (st.procs p).blockNode = some node) (hf : (st.setHole node).Freeing L node R)
    (hright : ProcessManager.checkDirection node (st.setHole node) R = .ok st1)
    (hf1 : st1.Freeing L node R1)
    (hleft : ProcessManager.checkDirection node st1 L.reverse = .ok st2) :
    ProcessManager.deallocateMemory .bestFit st p = .ok (st2.reindex node p) := by
  obtain ⟨hnL, -⟩ := hf.notMem
  have hafter : nodesAfter (st.setHole node).memory node = R := by
    rw [hf.memory, nodesAfter_append hnL]
  have hbefore : nodesBefore st1.memory node = L := by
    rw [hf1.memory, nodesBefore_append hnL]
  have hcall : ProcessManager.deallocateMemory .bestFit st p =
      (ProcessManager.checkDirection node (st.setHole node)
        (nodesAfter (st.setHole node).memory node) >>= fun s =>
          ProcessManager.checkDirection node s (nodesBefore s.memory node).reverse >>=
            fun s => .ok (s.reindex node p)) := by
    simp only [ProcessManager.deallocateMemory, hp]
    rfl
  rw [hcall, hafter, hright]
  change (ProcessManager.checkDirection node st1 (nodesBefore st1.memory node).reverse >>= _) = _
  rw [hbefore, hleft]
  rfl

/-- The whole call: both sides, the index, and the process. -/
theorem deallocateMemory_names (hfresh : Fresh malloc) (h : Names N w st []) (hi : st.Indexed)
    (hp : (st.procs p).blockNode = some node) :
    Meets (OutOfMemory malloc) (deallocateMemory malloc p) w fun _ w' => ∃ st' N',
      ProcessManager.deallocateMemory .bestFit st p = .ok st' ∧ Names N' w' st' [] ∧
      N'.input = N.input ∧ w'.readyLines = w.readyLines := by
  obtain ⟨L, R, hm, hf⟩ := hi.freeing hp
  have hnode : node ∈ st.memory := by simp [hm]
  have hget : (get : Prog World) w = .ok (w, w) := rfl
  have hproc : (w.procs p).blockNode = some (N.node node) := by rw [h.procs p, hp]; rfl
  obtain ⟨hset, h1⟩ := h.setBlock hnode { st.block node with type := .hole }
  change Names N _ (st.setHole node) [] at h1
  -- the right side
  obtain ⟨hnd, hin, hindex, hsub, hside⟩ := freeing_sides hf
  obtain ⟨w2, st1, hcheck, hright, h2, hlines2⟩ := checkSide_names h1 (h1.leads_next hf.memory) hnd
    hin hindex (fun n hn => (hsub n hn).1) (fun x hx => (hside x (Or.inr hx)).1)
    (fun x hx => (hside x (Or.inr hx)).2) hf.right
  obtain ⟨st1', R1, hright', -, hf1, -⟩ := hf.checkRight
  obtain rfl := Except.ok.inj (hright'.symm.trans hright)
  -- the left side
  obtain ⟨hnd, hin, hindex, hsub, hside⟩ := freeing_sides hf1
  have hleftApart : Apart (L.reverse.map st1'.typeOf) := by
    rw [List.map_reverse]
    exact List.isChain_reverse.mpr (hf1.left.imp fun _ _ h hne => h hne.symm)
  obtain ⟨w3, st2, hcheck', hleft, h3, hlines3⟩ := checkSide_names h2 (h2.leads_prev hf1.memory) hnd
    hin hindex (fun n hn => (hsub n hn).1)
    (fun x hx => (hside x (Or.inl (List.mem_reverse.mp hx))).1)
    (fun x hx => (hside x (Or.inl (List.mem_reverse.mp hx))).2) hleftApart
  obtain ⟨st2', L1, hleft', -, hf2, -⟩ := hf1.checkLeft
  obtain rfl := Except.ok.inj (hleft'.symm.trans hleft)
  obtain ⟨-, hin, -, hsub, -⟩ := freeing_sides hf2
  rw [deallocateMemory, meets_bind hget, hproc]
  simp only []
  rw [meets_bind (getNode_run (h.nodeAt hm)), meets_bind (getBlock_run (h.blocks node hnode)),
    meets_bind hset, meets_bind hcheck, meets_bind hcheck']
  refine (h3.insertHole hfresh hin hsub).bind fun _ w4 hw4 => ?_
  obtain ⟨hole, h4, hlines4⟩ := hw4
  refine (meets_ok rfl).mpr ⟨_, { N with hole := hole }, deallocate_of_sides hp hf hright hf1 hleft,
    h4.setBlockNode p none, rfl, hlines4.trans (hlines3.trans hlines2)⟩

end ProcessManager.Raw
