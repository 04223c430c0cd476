import ProcessManager.MemoryAllocation

/-! What `memory`, `holes` and the processes' blocks have to do with each other, for any memory
requirements, and that allocation and deallocation keep it. -/
namespace ProcessManager

/-- No two neighbours are both holes. -/
def Apart (types : List BlockType) : Prop :=
  types.IsChain fun a b => ¬ (a = .hole ∧ b = .hole)

def Store.typeOf (st : Store) (node : NodeId) : BlockType := (st.block node).type

def Store.types (st : Store) : List BlockType := st.memory.map st.typeOf

/-- The index lists the HOLE nodes once each, smallest first; the PROCESS nodes are the blocks of
the allocated processes, one each and of the size it asked for. -/
structure Store.Indexed (st : Store) : Prop where
  nodup : st.memory.Nodup
  fresh : ∀ n ∈ st.memory, n < st.nextNode
  holes_perm : st.holes.Perm (st.memory.filter (st.typeOf · = .hole))
  sorted : st.holes.Pairwise (st.getSize · ≤ st.getSize ·)
  apart : Apart st.types
  owned : ∀ n, (∃ p, (st.procs p).blockNode = some n) ↔ n ∈ st.memory ∧ st.typeOf n = .process
  owner_unique : ∀ p p' n, (st.procs p).blockNode = some n → (st.procs p').blockNode = some n →
    p = p'
  owner_size : ∀ p n, (st.procs p).blockNode = some n →
    st.getSize n = (st.procs p).memRequirement

/-- The part of it that is about the two lists, whoever owns the blocks. -/
structure Store.Listed (st : Store) : Prop where
  nodup : st.memory.Nodup
  fresh : ∀ n ∈ st.memory, n < st.nextNode
  holes_perm : st.holes.Perm (st.memory.filter (st.typeOf · = .hole))
  sorted : st.holes.Pairwise (st.getSize · ≤ st.getSize ·)
  apart : Apart st.types

theorem Store.Indexed.listed {st : Store} (h : st.Indexed) : st.Listed :=
  ⟨h.nodup, h.fresh, h.holes_perm, h.sorted, h.apart⟩

variable {st st' : Store} {p : ProcId} {node adj n : NodeId} {L R L' R' : List NodeId}

@[simp] theorem apart_nil : Apart [] := List.IsChain.nil

theorem apart_cons {a : BlockType} {l : List BlockType} :
    Apart (a :: l) ↔ (∀ b ∈ l.head?, ¬ (a = .hole ∧ b = .hole)) ∧ Apart l := by
  rw [Apart, List.isChain_cons]
  rfl

/-- A PROCESS block keeps its two sides apart by itself. -/
theorem apart_process {l r : List BlockType} :
    Apart (l ++ .process :: r) ↔ Apart l ∧ Apart r := by
  rw [Apart, List.isChain_append, ← Apart, ← Apart, apart_cons]
  simp

theorem apart_hole {l r : List BlockType} : Apart (l ++ .hole :: r) ↔
    Apart l ∧ Apart r ∧ l.getLast? ≠ some .hole ∧ r.head? ≠ some .hole := by
  rw [Apart, List.isChain_append, ← Apart, ← Apart, apart_cons]
  constructor
  · rintro ⟨hl, ⟨hh, hr⟩, hlast⟩
    exact ⟨hl, hr, fun h => hlast _ h _ rfl ⟨rfl, rfl⟩, fun h => hh _ h ⟨rfl, rfl⟩⟩
  · rintro ⟨hl, hr, hlast, hhead⟩
    refine ⟨hl, ⟨fun b hb hbh => hhead ?_, hr⟩, fun a ha b hb hab => hlast ?_⟩
    · rw [Option.mem_def.mp hb, hbh.2]
    · rw [Option.mem_def.mp ha, hab.1]

theorem initialiseMemory_indexed {procs : ProcTable} (h : ∀ p, (procs p).blockNode = none) :
    (initialiseMemory procs).Indexed where
  nodup := by simp [initialiseMemory]
  fresh := by simp [initialiseMemory]
  holes_perm := by simp [initialiseMemory, Store.typeOf]
  sorted := by simp [initialiseMemory]
  apart := by simp [Store.types, initialiseMemory, apart_cons]
  owned := by simp [initialiseMemory, Store.typeOf, h]
  owner_unique := by simp [initialiseMemory, h]
  owner_size := by simp [initialiseMemory, h]

theorem Store.Indexed.mem_holes (h : st.Indexed) :
    n ∈ st.holes ↔ n ∈ st.memory ∧ st.typeOf n = .hole := by
  simp [h.holes_perm.mem_iff]

theorem Store.Indexed.holes_nodup (h : st.Indexed) : st.holes.Nodup :=
  h.holes_perm.nodup_iff.mpr (h.nodup.filter _)

/-- Changing what the invariant does not read keeps it. -/
theorem Store.Indexed.congr (h : st.Indexed) (procs : ProcTable)
    (hb : ∀ p, (procs p).blockNode = (st.procs p).blockNode)
    (hm : ∀ p, (procs p).memRequirement = (st.procs p).memRequirement) :
    { st with procs := procs : Store }.Indexed where
  nodup := h.nodup
  fresh := h.fresh
  holes_perm := h.holes_perm
  sorted := h.sorted
  apart := h.apart
  owned n := (exists_congr fun p => by rw [hb p]).trans (h.owned n)
  owner_unique p p' n hp hp' := h.owner_unique p p' n (hb p ▸ hp) (hb p' ▸ hp')
  owner_size p n hn := (h.owner_size p n (hb p ▸ hn)).trans (hm p).symm

/-- What a successful `best_fit` leaves: the block of the process is a new node at the low end of
a tightest hole `node`, whose own node stays behind it unless the fit was perfect. -/
structure Placement (st : Store) (p : ProcId) (L : List NodeId) (node : NodeId)
    (R : List NodeId) (st' : Store) : Prop where
  memory : st.memory = L ++ node :: R
  node_hole : node ∈ st.holes
  fits : (st.procs p).memRequirement ≤ st.getSize node
  tightest : ∀ h ∈ st.holes, (st.procs p).memRequirement ≤ st.getSize h →
    st.getSize node ≤ st.getSize h
  procs : st'.procs = setBlockNode st.procs p (some st.nextNode)
  nextNode : st'.nextNode = st.nextNode + 1
  block : st'.block = Function.update
    (Function.update st.block node ⟨.hole,
      (st.block node).startAddress + (st.procs p).memRequirement,
      (st.block node).size - (st.procs p).memRequirement⟩)
    st.nextNode ⟨.process, (st.block node).startAddress, (st.procs p).memRequirement⟩
  lists : (st.getSize node = (st.procs p).memRequirement ∧
      st'.memory = L ++ st.nextNode :: R ∧ st'.holes = st.holes.erase node) ∨
    (st.getSize node ≠ (st.procs p).memRequirement ∧
      st'.memory = L ++ st.nextNode :: node :: R ∧
      st'.holes = insertNodeSorted compareInts st'.getSize node (st.holes.erase node))

theorem bestFit_fail (h : bestFit st p = (st', false)) :
    st' = st ∧ ∀ n ∈ st.holes, st.getSize n < (st.procs p).memRequirement := by
  unfold bestFit at h
  split at h
  · rename_i hnone
    refine ⟨(Prod.mk.inj h).1.symm, fun n hn => ?_⟩
    simpa using List.find?_eq_none.mp hnone n hn
  · simp at h

/-- The hole is the first of the index that is large enough. -/
theorem bestFit_first (hi : st.Indexed) (h : bestFit st p = (st', true)) :
    ∃ L node R A B, Placement st p L node R st' ∧ st.holes = A ++ node :: B ∧
      ∀ n ∈ A, st.getSize n < (st.procs p).memRequirement := by
  unfold bestFit at h
  split at h
  · simp at h
  rename_i node hfind
  obtain ⟨hfits, A, B, hholes, hA⟩ := List.find?_eq_some_iff_append.mp hfind
  simp only [decide_eq_true_eq] at hfits
  have hsmall : ∀ n ∈ A, st.getSize n < (st.procs p).memRequirement := by simpa using hA
  have hmem : node ∈ st.holes := by simp [hholes]
  obtain ⟨hnode, htype⟩ := hi.mem_holes.mp hmem
  obtain ⟨L, R, hLR⟩ := List.append_of_mem hnode
  have hnd := hi.nodup
  rw [hLR] at hnd
  have hnL : node ∉ L := fun hL =>
    (List.nodup_append.mp hnd).2.2 node hL node (by simp) rfl
  have hndLR : (L ++ R).Nodup := hnd.sublist (by simp)
  have hsorted := hi.sorted
  rw [hholes] at hsorted
  have htight : ∀ h ∈ st.holes, (st.procs p).memRequirement ≤ st.getSize h →
      st.getSize node ≤ st.getSize h := by
    intro m hm hfit
    rw [hholes] at hm
    rcases List.mem_append.mp hm with hm | hm
    · exact absurd hfit (hsmall m hm).not_ge
    · rcases List.mem_cons.mp hm with rfl | hm
      · exact le_refl _
      · exact (List.pairwise_cons.mp (List.pairwise_append.mp hsorted).2.1).1 m hm
  simp only [split, hLR, getPrev_append hnL, getNext_append hnL, deleteNode_append hnL] at h
  have hsize : st.getSize node = (st.block node).size := rfl
  by_cases hz : (st.block node).size - (st.procs p).memRequirement = 0
  · simp only [hz, if_true] at h
    obtain rfl := (Prod.mk.inj h).1
    have heq : st.getSize node = (st.procs p).memRequirement := by omega
    exact ⟨L, node, R, A, B, ⟨hLR, hmem, hfits, htight, rfl, rfl, by simp only [hz],
      Or.inl ⟨heq, insertNode_between hndLR, rfl⟩⟩, hholes, hsmall⟩
  · simp only [hz, if_false] at h
    obtain rfl := (Prod.mk.inj h).1
    have hne : st.getSize node ≠ (st.procs p).memRequirement := by omega
    refine ⟨L, node, R, A, B, ⟨hLR, hmem, hfits, htight, rfl, rfl, rfl,
      Or.inr ⟨hne, insertNode_between hnd, ?_⟩⟩, hholes, hsmall⟩
    -- the new node is in neither list yet, so its block does not move the hole
    apply insertNodeSorted_congr
    intro x hx
    have hx' : x ∈ st.memory := by
      rcases List.mem_cons.mp hx with rfl | hx
      · exact hnode
      · exact (hi.mem_holes.mp (List.mem_of_mem_erase hx)).1
    simp [Store.getSize, Function.update_of_ne (hi.fresh x hx').ne]

theorem bestFit_placement (hi : st.Indexed) (h : bestFit st p = (st', true)) :
    ∃ L node R, Placement st p L node R st' := by
  obtain ⟨L, node, R, _, _, hplace, -⟩ := bestFit_first hi h
  exact ⟨L, node, R, hplace⟩

theorem Placement.node_type (h : Placement st p L node R st') (hi : st.Indexed) :
    st.typeOf node = .hole := (hi.mem_holes.mp h.node_hole).2

theorem Placement.nodup (h : Placement st p L node R st') (hi : st.Indexed) :
    (L ++ node :: R).Nodup := h.memory ▸ hi.nodup

/-- Away from the hole and the new node every block is untouched. -/
theorem Placement.block_other (h : Placement st p L node R st') (hn : n ≠ node)
    (hf : n ≠ st.nextNode) : st'.block n = st.block n := by
  rw [h.block, Function.update_of_ne hf, Function.update_of_ne hn]

theorem Placement.block_new (h : Placement st p L node R st') :
    st'.block st.nextNode =
      ⟨.process, (st.block node).startAddress, (st.procs p).memRequirement⟩ := by
  rw [h.block, Function.update_self]

theorem Placement.ne_next (h : Placement st p L node R st') (hi : st.Indexed)
    (hn : n ∈ L ++ node :: R) : n ≠ st.nextNode := by
  exact (hi.fresh n (h.memory ▸ hn)).ne

theorem Placement.block_rest (h : Placement st p L node R st') (hi : st.Indexed) :
    st'.block node = ⟨.hole, (st.block node).startAddress + (st.procs p).memRequirement,
      (st.block node).size - (st.procs p).memRequirement⟩ := by
  rw [h.block, Function.update_of_ne (h.ne_next hi (by simp)), Function.update_self]

/-- The blocks on the two sides of the hole are untouched. -/
theorem Placement.block_side (h : Placement st p L node R st') (hi : st.Indexed)
    (hn : n ∈ L ∨ n ∈ R) : st'.block n = st.block n := by
  have hnd := h.nodup hi
  have hne : n ≠ node := by
    rintro rfl
    have := List.nodup_middle.mp hnd
    simp only [List.nodup_cons, List.mem_append] at this
    exact this.1 hn
  exact h.block_other hne (h.ne_next hi (by simp; tauto))

theorem Placement.typeOf_side (h : Placement st p L node R st') (hi : st.Indexed)
    (hn : n ∈ L ∨ n ∈ R) : st'.typeOf n = st.typeOf n := by
  rw [Store.typeOf, h.block_side hi hn, Store.typeOf]

theorem Placement.sizeOf_hole (h : Placement st p L node R st') (hi : st.Indexed)
    (hn : n ∈ st.holes.erase node) : st'.getSize n = st.getSize n := by
  obtain ⟨hne, hmem⟩ := hi.holes_nodup.mem_erase_iff.mp hn
  have hm := h.memory ▸ (hi.mem_holes.mp hmem).1
  have hside : n ∈ L ∨ n ∈ R := by simpa [hne] using hm
  rw [Store.getSize, h.block_side hi hside, Store.getSize]

/-- The blocks of the other processes stay what and where they are. -/
theorem Placement.blockNode (h : Placement st p L node R st') (q : ProcId) :
    (st'.procs q).blockNode = if q = p then some st.nextNode else (st.procs q).blockNode := by
  rw [h.procs, setBlockNode]
  by_cases hq : q = p
  · subst hq
    simp
  · simp [hq]

theorem Placement.memRequirement (h : Placement st p L node R st') (q : ProcId) :
    (st'.procs q).memRequirement = (st.procs q).memRequirement := by
  rw [h.procs, setBlockNode]
  by_cases hq : q = p
  · subst hq
    simp
  · simp [hq]

theorem Placement.types_side (h : Placement st p L node R st') (hi : st.Indexed) :
    L.map st'.typeOf = L.map st.typeOf ∧ R.map st'.typeOf = R.map st.typeOf :=
  ⟨List.map_congr_left fun _ hn => h.typeOf_side hi (Or.inl hn),
    List.map_congr_left fun _ hn => h.typeOf_side hi (Or.inr hn)⟩

theorem Placement.filter_side (h : Placement st p L node R st') (hi : st.Indexed) :
    L.filter (st'.typeOf · = .hole) = L.filter (st.typeOf · = .hole) ∧
      R.filter (st'.typeOf · = .hole) = R.filter (st.typeOf · = .hole) :=
  ⟨List.filter_congr fun _ hn => by rw [h.typeOf_side hi (Or.inl hn)],
    List.filter_congr fun _ hn => by rw [h.typeOf_side hi (Or.inr hn)]⟩

/-- Without the hole that was used, the index lists the holes of the two sides. -/
theorem Placement.erase_perm (h : Placement st p L node R st') (hi : st.Indexed) :
    (st.holes.erase node).Perm
      (L.filter (st.typeOf · = .hole) ++ R.filter (st.typeOf · = .hole)) := by
  have hperm := hi.holes_perm
  rw [h.memory, List.filter_append, List.filter_cons_of_pos (by simp [h.node_type hi])] at hperm
  have := (hperm.trans List.perm_middle).erase node
  rwa [List.erase_cons_head] at this

theorem Placement.mem_memory (h : Placement st p L node R st') (hi : st.Indexed) :
    n ∈ st'.memory ∧ st'.typeOf n = .process ↔
      n = st.nextNode ∨ n ∈ st.memory ∧ st.typeOf n = .process := by
  have hnew : st'.typeOf st.nextNode = .process := by rw [Store.typeOf, h.block_new]
  have hrest : st'.typeOf node = .hole := by rw [Store.typeOf, h.block_rest hi]
  have hside : n ∈ L ∨ n ∈ R → st'.typeOf n = st.typeOf n := h.typeOf_side hi
  have hnode := h.node_type hi
  by_cases hnn : n = st.nextNode
  · subst hnn
    rcases h.lists with ⟨_, hm, _⟩ | ⟨_, hm, _⟩ <;> simp [hm, hnew]
  · by_cases hne : n = node
    · subst hne
      simp [hnode, hrest, hnn]
    · by_cases hn : n ∈ L ∨ n ∈ R
      · rcases h.lists with ⟨_, hm, _⟩ | ⟨_, hm, _⟩ <;>
          simp [hm, h.memory, hnn, hne, hside hn]
      · simp only [not_or] at hn
        rcases h.lists with ⟨_, hm, _⟩ | ⟨_, hm, _⟩ <;> simp [hm, h.memory, hnn, hne, hn]

/-- The lists stay in order, also when the process has a block already. -/
theorem Placement.listed (h : Placement st p L node R st') (hi : st.Indexed) : st'.Listed := by
  have hnd := h.nodup hi
  obtain ⟨hLt, hRt⟩ := h.types_side hi
  obtain ⟨hLf, hRf⟩ := h.filter_side hi
  have herase := h.erase_perm hi
  have hnew : st'.typeOf st.nextNode = .process := by rw [Store.typeOf, h.block_new]
  have hrest : st'.typeOf node = .hole := by rw [Store.typeOf, h.block_rest hi]
  have hnext : st.nextNode ∉ L ++ node :: R := fun hm => h.ne_next hi hm rfl
  have hfresh : ∀ n ∈ L ++ node :: R, n < st'.nextNode := by
    intro n hn
    rw [h.nextNode]
    exact Nat.lt_succ_of_lt (hi.fresh n (h.memory ▸ hn))
  have hapart := hi.apart
  rw [Store.types, h.memory, List.map_append, List.map_cons, h.node_type hi, apart_hole] at hapart
  have hsorted : (st.holes.erase node).Pairwise (st'.getSize · ≤ st'.getSize ·) := by
    refine (hi.sorted.sublist List.erase_sublist).imp_of_mem fun ha hb hab => ?_
    rwa [h.sizeOf_hole hi ha, h.sizeOf_hole hi hb]
  constructor
  case nodup =>
    rcases h.lists with ⟨_, hm, _⟩ | ⟨_, hm, _⟩
    · rw [hm, List.nodup_middle, List.nodup_cons]
      exact ⟨fun hn => hnext (by simp at hn ⊢; tauto), hnd.sublist (by simp)⟩
    · rw [hm, List.nodup_middle, List.nodup_cons]
      exact ⟨hnext, hnd⟩
  case fresh =>
    have hlast : st.nextNode < st'.nextNode := by
      rw [h.nextNode]
      exact Nat.lt_succ_self _
    rcases h.lists with ⟨_, hm, _⟩ | ⟨_, hm, _⟩
    all_goals
      intro n hn
      rw [hm] at hn
      by_cases hnn : n = st.nextNode
      · exact hnn ▸ hlast
      · exact hfresh n (by simp [hnn] at hn ⊢; tauto)
  case holes_perm =>
    rcases h.lists with ⟨_, hm, hh⟩ | ⟨_, hm, hh⟩
    · rw [hm, hh, List.filter_append, List.filter_cons_of_neg (by simp [hnew]), hLf, hRf]
      exact herase
    · rw [hm, hh, List.filter_append, List.filter_cons_of_neg (by simp [hnew]),
        List.filter_cons_of_pos (by simp [hrest]), hLf, hRf]
      exact (insertNodeSorted_perm _ _).trans ((herase.cons node).trans List.perm_middle.symm)
  case sorted =>
    rcases h.lists with ⟨_, _, hh⟩ | ⟨_, _, hh⟩
    · rwa [hh]
    · rw [hh]
      exact insertNodeSorted_sorted hsorted
  case apart =>
    rcases h.lists with ⟨_, hm, _⟩ | ⟨_, hm, _⟩
    · rw [Store.types, hm, List.map_append, List.map_cons, hnew, hLt, hRt, apart_process]
      exact ⟨hapart.1, hapart.2.1⟩
    · rw [Store.types, hm, List.map_append, List.map_cons, List.map_cons, hnew, hrest, hLt, hRt,
        apart_process, apart_cons]
      exact ⟨hapart.1, fun b hb hbh => hapart.2.2.2 (by rw [Option.mem_def.mp hb, hbh.2]),
        hapart.2.1⟩

theorem Placement.indexed (h : Placement st p L node R st') (hi : st.Indexed)
    (hp : (st.procs p).blockNode = none) : st'.Indexed := by
  obtain ⟨hnodup, hfresh, hholes, hsorted, hapart⟩ := h.listed hi
  refine ⟨hnodup, hfresh, hholes, hsorted, hapart, ?owned, ?owner_unique, ?owner_size⟩
  case owned =>
    intro n
    rw [h.mem_memory hi, ← hi.owned n]
    constructor
    · rintro ⟨q, hq⟩
      rw [h.blockNode] at hq
      split at hq
      · exact Or.inl (Option.some.inj hq).symm
      · exact Or.inr ⟨q, hq⟩
    · rintro (rfl | ⟨q, hq⟩)
      · exact ⟨p, by simp [h.blockNode]⟩
      · refine ⟨q, ?_⟩
        rw [h.blockNode, if_neg]
        · exact hq
        · rintro rfl
          simp [hp] at hq
  case owner_unique =>
    -- a node in use is not the one just made
    have hold : ∀ q n, (st.procs q).blockNode = some n → n ≠ st.nextNode :=
      fun q n hq => (hi.fresh n ((hi.owned n).mp ⟨q, hq⟩).1).ne
    intro q q' n hq hq'
    rw [h.blockNode] at hq hq'
    split at hq <;> split at hq'
    · simp_all
    · exact absurd (Option.some.inj hq).symm (hold q' n hq')
    · exact absurd (Option.some.inj hq').symm (hold q n hq)
    · exact hi.owner_unique q q' n hq hq'
  case owner_size =>
    intro q n hq
    rw [h.memRequirement]
    rw [h.blockNode] at hq
    split at hq
    · rename_i hqp
      rw [← Option.some.inj hq, hqp, Store.getSize, h.block_new]
    · obtain ⟨hm, ht⟩ := (hi.owned n).mp ⟨q, hq⟩
      rw [h.memory] at hm
      have hside : n ∈ L ∨ n ∈ R := by
        have : n ≠ node := by
          rintro rfl
          simp [h.node_type hi] at ht
        simpa [this] using hm
      rw [Store.getSize, h.block_side hi hside]
      exact hi.owner_size q n hq

end ProcessManager
