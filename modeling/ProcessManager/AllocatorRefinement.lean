import ProcessManager.PointerOwnership
import ProcessManager.AllocationPass

/-! The allocator on its heap of nodes and blocks does what it does on sequences of nodes that are
never used again: whatever `malloc` returns, the nodes only have other names. -/
namespace ProcessManager.Raw

open DoublyLinked Fallible Pointer

/-- Where the nodes of a store are on the heap: the memory node, its block, and the node of the index
that holds it; and the nodes of the input queue. -/
structure Naming where
  node : NodeId → Addr
  block : NodeId → Addr
  hole : NodeId → Addr
  input : List (Addr × Addr)

variable {malloc : World → Option Addr} {w w' : World} {st st' : Store} {N : Naming}
  {p : ProcId} {n node adj : NodeId} {L R l : List NodeId} {a : Addr} {spare : List (Addr × Block)}

def Naming.inMemory (N : Naming) (n : NodeId) : Addr × Addr := (N.node n, N.block n)

def Naming.inHoles (N : Naming) (n : NodeId) : Addr × Addr := (N.hole n, N.node n)

/-- The lists of a store under their names. -/
def Naming.seqs (N : Naming) (st : Store) : ListName → List (Addr × Addr)
  | .input => N.input
  | .memory => st.memory.map N.inMemory
  | .holes => st.holes.map N.inHoles

/-- The world is the store under these names: its nodes are those of the lists and no others, and its
blocks are those of the memory nodes and the `spare` ones, which are in no node yet. -/
structure Names (N : Naming) (w : World) (st : Store) (spare : List (Addr × Block)) : Prop where
  owned : Owned w (N.seqs st) []
  blocks : ∀ n ∈ st.memory, w.blocks (N.block n) = some (st.block n)
  spares : ∀ e ∈ spare, w.blocks e.1 = some e.2
  distinct : (spare.map Prod.fst ++ st.memory.map N.block).Nodup
  live : ∀ a, w.blocks a ≠ none ↔ a ∈ spare.map Prod.fst ∨ a ∈ st.memory.map N.block
  procs : ∀ p, w.procs p =
    { st.procs p with blockNode := (st.procs p).blockNode.map N.node }

theorem Names.seqs_memory (hm : st.memory = L ++ node :: R) :
    N.seqs st .memory = L.map N.inMemory ++ N.inMemory node :: R.map N.inMemory := by
  rw [Naming.seqs, hm, List.map_append, List.map_cons]

theorem last_map_inMemory (N : Naming) (L : List NodeId) :
    last none (L.map N.inMemory) = L.getLast?.map N.node := by
  rw [← getLast?_addresses, addresses, List.map_map, List.getLast?_map]
  rfl

theorem first_map_inMemory (N : Naming) (R : List NodeId) :
    first (R.map N.inMemory) none = R.head?.map N.node := by
  rw [← head?_addresses, addresses, List.map_map, List.head?_map]
  rfl

theorem Names.nodeAt (h : Names N w st spare) (hm : st.memory = L ++ node :: R) :
    w.heap (N.node node) = some ⟨N.block node, R.head?.map N.node, L.getLast?.map N.node⟩ := by
  rw [← first_map_inMemory, ← last_map_inMemory]
  exact h.owned.nodeAt (Names.seqs_memory hm)

theorem Names.node_of_mem (h : Names N w st spare) (hn : n ∈ st.memory) :
    ∃ next prev, w.heap (N.node n) = some ⟨N.block n, next, prev⟩ := by
  obtain ⟨L, R, hm⟩ := List.append_of_mem hn
  exact ⟨_, _, h.nodeAt hm⟩

theorem Names.size_run (h : Names N w st spare) (hn : n ∈ st.memory) :
    getSize (N.node n) w = .ok (st.getSize n, w) := by
  obtain ⟨next, prev, hnode⟩ := h.node_of_mem hn
  exact getSize_run hnode (h.blocks n hn)

/-- The nodes of `memory` have different addresses, and so have their blocks. -/
theorem Names.node_nodup (h : Names N w st spare) : (st.memory.map N.node).Nodup := by
  have hnd := (h.owned.separate.linked .memory).nodup
  rw [Naming.seqs, addresses, List.map_map] at hnd
  exact hnd

theorem Names.node_ne (h : Names N w st spare) {m : NodeId} (hn : n ∈ st.memory)
    (hm : m ∈ st.memory) (hne : n ≠ m) : N.node n ≠ N.node m := fun heq =>
  hne (List.inj_on_of_nodup_map h.node_nodup hn hm heq)

theorem Names.block_ne (h : Names N w st spare) {m : NodeId} (hn : n ∈ st.memory)
    (hm : m ∈ st.memory) (hne : n ≠ m) : N.block n ≠ N.block m := fun heq =>
  hne (List.inj_on_of_nodup_map (List.nodup_append.mp h.distinct).2.1 hn hm heq)

theorem Names.spare_ne (h : Names N w st spare) (hn : n ∈ st.memory)
    (ha : a ∈ spare.map Prod.fst) : N.block n ≠ a := fun heq =>
  (List.nodup_append.mp h.distinct).2.2 a ha _ (List.mem_map_of_mem hn) heq.symm

theorem Names.requirement (h : Names N w st spare) (p : ProcId) :
    getMemRequirement p w = .ok ((st.procs p).memRequirement, w) := by
  rw [getMemRequirement, h.procs p]

/-- What `get_size` reads, where it can read. -/
def sizeAt (w : World) (a : Addr) : ℤ :=
  ((getSize a w).toOption.map Prod.fst).getD 0

theorem sizeAt_eq {size : ℤ} (h : getSize a w = .ok (size, w)) : sizeAt w a = size := by
  simp [sizeAt, h, Except.toOption]

/-- Sorted insertion only looks at the values. -/
theorem insertNodeSorted_map {α β : Type*} {key : α → ℤ} {key' : β → ℤ} (g : α → β) (x : α)
    {l : List α} (h : ∀ y ∈ x :: l, key' (g y) = key y) :
    ProcessManager.insertNodeSorted compareInts key' (g x) (l.map g) =
      (ProcessManager.insertNodeSorted compareInts key x l).map g := by
  induction l with
  | nil => rfl
  | cons y l ih =>
    have hrest := ih fun z hz => h z (by simp at hz ⊢; tauto)
    rw [List.map_cons, ProcessManager.insertNodeSorted, ProcessManager.insertNodeSorted, hrest,
      h y (by simp), h x (by simp)]
    split <;> rfl

/-- Changes of the world that leave the heap and the blocks alone. -/
theorem Names.congr (h : Names N w st spare) {procs : ProcTable} {lines : List (ProcId × ℤ)}
    {procs' : ProcTable}
    (hprocs : ∀ p, procs p = { procs' p with blockNode := (procs' p).blockNode.map N.node }) :
    Names N { w with procs := procs, readyLines := lines } { st with procs := procs' } spare :=
  ⟨h.owned.congr rfl, h.blocks, h.spares, h.distinct, h.live, hprocs⟩

/-- `create_block`: one spare block more. -/
theorem Names.createBlock (h : Names N w st []) (hfresh : Fresh malloc) (type : BlockType)
    (start size : ℤ) :
    Meets (OutOfMemory malloc) (createBlock malloc type start size) w fun new w' =>
      Names N w' st [(new, ⟨type, start, size⟩)] ∧ w'.readyLines = w.readyLines := by
  refine (meets_createBlock hfresh type start size).mono fun new w' hw' => ?_
  obtain ⟨-, hnew, rfl⟩ := hw'
  have hnot : new ∉ st.memory.map N.block := fun hmem => (h.live new).mpr (Or.inr hmem) hnew
  refine ⟨⟨h.owned.congr rfl, fun n hn => ?_, fun e he => ?_, ?_, fun a => ?_, h.procs⟩, rfl⟩
  · have hne : N.block n ≠ new := ne_of_mem_of_not_mem (List.mem_map_of_mem hn) hnot
    exact (Function.update_of_ne hne _ _).trans (h.blocks n hn)
  · obtain rfl := List.mem_singleton.mp he
    exact Function.update_self _ _ _
  · exact List.nodup_cons.mpr ⟨hnot, h.distinct⟩
  · have hlive := h.live a
    change Function.update w.blocks new _ a ≠ none ↔ _
    by_cases ha : a = new
    · subst ha
      simp
    · rw [Function.update_of_ne ha, hlive]
      simp [ha]

/-- A store with one block overwritten. -/
def withBlock (st : Store) (n : NodeId) (block : Block) : Store :=
  { st with block := Function.update st.block n block }

/-- A memory node's block is overwritten. -/
theorem Names.setBlock (h : Names N w st spare) (hn : n ∈ st.memory) (block : Block) :
    setBlock (N.block n) block w =
        .ok ((), { w with blocks := Function.update w.blocks (N.block n) (some block) }) ∧
      Names N { w with blocks := Function.update w.blocks (N.block n) (some block) }
        (withBlock st n block) spare := by
  refine ⟨setBlock_run (h.blocks n hn) block, h.owned.congr rfl, fun m hm => ?_, fun e he => ?_,
    h.distinct, fun a => ?_, h.procs⟩
  · change Function.update w.blocks (N.block n) (some block) (N.block m) =
      some (Function.update st.block n block m)
    by_cases hne : m = n
    · subst hne
      rw [Function.update_self, Function.update_self]
    · rw [Function.update_of_ne (h.block_ne hm hn hne), Function.update_of_ne hne, h.blocks m hm]
  · have hne := h.spare_ne hn (List.mem_map_of_mem he)
    exact (Function.update_of_ne hne.symm _ _).trans (h.spares e he)
  · change Function.update w.blocks (N.block n) (some block) a ≠ none ↔
      a ∈ spare.map Prod.fst ∨ a ∈ st.memory.map N.block
    by_cases ha : a = N.block n
    · subst ha
      exact ⟨fun _ => Or.inr (List.mem_map_of_mem hn), fun _ => by simp⟩
    · rw [Function.update_of_ne ha, h.live a]

/-- The blocks when one memory node less is left. -/
theorem Names.without (h : Names N w st spare) (hm : st.memory = L ++ node :: R)
    {holes : List NodeId}
    (howned : Owned w' (N.seqs { st with memory := L ++ R, holes := holes }) [])
    (hblocks : w'.blocks = Function.update w.blocks (N.block node) none)
    (hprocs : w'.procs = w.procs) :
    Names N w' { st with memory := L ++ R, holes := holes } spare := by
  have hperm : (st.memory.map N.block).Perm (N.block node :: (L ++ R).map N.block) := by
    rw [hm, ← List.map_cons]
    exact List.perm_middle.map _
  have hdistinct : (N.block node :: (spare.map Prod.fst ++ (L ++ R).map N.block)).Nodup :=
    ((hperm.append_left _).trans List.perm_middle).nodup_iff.mp h.distinct
  obtain ⟨hnot, hnodup⟩ := List.nodup_cons.mp hdistinct
  rw [List.mem_append, not_or] at hnot
  refine ⟨howned, fun n hn => ?_, fun e he => ?_, hnodup, fun a => ?_,
    fun p => (congrFun hprocs p).trans (h.procs p)⟩
  · have hne : N.block n ≠ N.block node := ne_of_mem_of_not_mem (List.mem_map_of_mem hn) hnot.2
    rw [hblocks, Function.update_of_ne hne]
    refine h.blocks n ?_
    rw [hm]
    exact List.perm_middle.mem_iff.mpr (List.mem_cons_of_mem node hn)
  · have hne : e.1 ≠ N.block node := ne_of_mem_of_not_mem (List.mem_map_of_mem he) hnot.1
    rw [hblocks, Function.update_of_ne hne, h.spares e he]
  · rw [hblocks]
    by_cases ha : a = N.block node
    · subst ha
      simp only [Function.update_self, ne_eq, not_true_eq_false, false_iff, not_or]
      exact hnot
    · rw [Function.update_of_ne ha, h.live a, hperm.mem_iff, List.mem_cons]
      simp [ha]

theorem Naming.seqs_setMemory (N : Naming) (st : Store) (memory : List NodeId) :
    Function.update (N.seqs st) .memory (memory.map N.inMemory) =
      N.seqs { st with memory := memory } := by
  funext i
  cases i <;> rfl

theorem Naming.seqs_setHoles (N : Naming) (st : Store) (holes : List NodeId) :
    Function.update (N.seqs st) .holes (holes.map N.inHoles) =
      N.seqs { st with holes := holes } := by
  funext i
  cases i <;> rfl

/-- `delete_node` and `free_node` of a memory node, between which its `next` link is still read. -/
theorem Names.removeNode (h : Names N w st spare) (hm : st.memory = L ++ node :: R) :
    ∃ w', (do
        deleteNode .memory (N.node node)
        let next := (← getNode (N.node node)).next
        freeNode (N.node node)
        return next : Prog (Option Addr)) w = .ok (R.head?.map N.node, w') ∧
      Names N w' { st with memory := L ++ R } spare ∧ w'.readyLines = w.readyLines := by
  have hmem : node ∈ st.memory := by simp [hm]
  obtain ⟨heap, list, hdelete, howned, hkeep⟩ := h.owned.deleteNode (Names.seqs_memory hm)
  have hnode := (hkeep (N.node node) List.mem_cons_self).trans (h.nodeAt hm)
  obtain ⟨hfree, howned⟩ := howned.freeNode hnode (h.blocks node hmem)
  rw [← List.map_append, Naming.seqs_setMemory] at howned
  exact ⟨_, (bind_of_ok hdelete).trans ((bind_of_ok (getNode_run hnode)).trans (bind_of_ok hfree)),
    h.without hm howned rfl rfl, rfl⟩

/-- `delete_node` of a memory node, and `delete_node_by_data` of it in the index. -/
theorem Names.absorbNode {A B : List NodeId} (h : Names N w st spare)
    (hm : st.memory = L ++ node :: R) (hh : st.holes = A ++ node :: B)
    (hA : ∀ n ∈ A, n ∈ st.memory ∧ n ≠ node) :
    ∃ w', (do
        deleteNode .memory (N.node node)
        deleteNodeByData .holes (N.node node) : Prog Unit) w = .ok ((), w') ∧
      Names N w' { st with memory := L ++ R, holes := A ++ B } spare ∧
        w'.readyLines = w.readyLines := by
  have hmem : node ∈ st.memory := by simp [hm]
  obtain ⟨heap, list, hdelete, howned, hkeep⟩ := h.owned.deleteNode (Names.seqs_memory hm)
  have hnode := (hkeep (N.node node) List.mem_cons_self).trans (h.nodeAt hm)
  rw [← List.map_append, Naming.seqs_setMemory] at howned
  have hholes : N.seqs { st with memory := L ++ R } .holes =
      A.map N.inHoles ++ N.inHoles node :: B.map N.inHoles := by
    rw [Naming.seqs, hh, List.map_append, List.map_cons]
  have hfirst : N.node node ∉ (A.map N.inHoles).map Prod.snd := by
    rw [List.map_map]
    intro hin
    obtain ⟨n, hn, heq⟩ := List.mem_map.mp hin
    exact h.node_ne (hA n hn).1 hmem (hA n hn).2 heq
  obtain ⟨heap', list', hdata, howned⟩ :=
    howned.deleteNodeByData hholes hfirst hnode (h.blocks node hmem)
  rw [← List.map_append, Naming.seqs_setHoles] at howned
  exact ⟨_, (bind_of_ok hdelete).trans hdata, h.without hm howned rfl rfl, rfl⟩

/-- `delete_node` of an entry of the index, whose data is still read before `free`. -/
theorem Names.removeHole {A B : List NodeId} (h : Names N w st spare)
    (hh : st.holes = A ++ node :: B) :
    ∃ w1 w2 next prev, deleteNode .holes (N.hole node) w = .ok ((), w1) ∧
      w1.heap (N.hole node) = some ⟨N.node node, next, prev⟩ ∧
      freeAt (N.hole node) w1 = .ok ((), w2) ∧
      Names N w2 { st with holes := A ++ B } spare ∧ w2.readyLines = w.readyLines := by
  have hholes : N.seqs st .holes = A.map N.inHoles ++ N.inHoles node :: B.map N.inHoles := by
    rw [Naming.seqs, hh, List.map_append, List.map_cons]
  obtain ⟨heap, list, hdelete, howned, hkeep⟩ := h.owned.deleteNode hholes
  obtain ⟨hfree, howned⟩ := howned.free
  rw [← List.map_append, Naming.seqs_setHoles] at howned
  exact ⟨_, _, _, _, hdelete,
    (hkeep (N.hole node) List.mem_cons_self).trans (h.owned.nodeAt hholes),
    hfree, ⟨howned, h.blocks, h.spares, h.distinct, h.live, h.procs⟩, rfl⟩

/-- `insert_node_sorted` of a memory node into the index. -/
theorem Names.insertHole (h : Names N w st spare) (hfresh : Fresh malloc) (hn : node ∈ st.memory)
    (hholes : ∀ n ∈ st.holes, n ∈ st.memory ∧ n ≠ node) :
    Meets (OutOfMemory malloc) (insertNodeSorted malloc .holes (N.node node)) w fun _ w' =>
      ∃ hole, Names { N with hole := hole } w' { st with
          holes := ProcessManager.insertNodeSorted compareInts st.getSize node st.holes } spare ∧
        w'.readyLines = w.readyLines := by
  have hsize : ∀ n ∈ st.memory, getSize (N.node n) w = .ok (sizeAt w (N.node n), w) := by
    intro n hn
    rw [sizeAt_eq (h.size_run hn)]
    exact h.size_run hn
  refine (h.owned.insertNodeSorted (sizeAt w) hfresh (hsize node hn) fun e he => ?_).mono
    fun _ w' hw' => ?_
  · obtain ⟨n, hn, rfl⟩ := List.mem_map.mp he
    exact hsize n (hholes n hn).1
  · obtain ⟨new, heap, list, rfl, -, -, howned⟩ := hw'
    refine ⟨Function.update N.hole node new, ?_, rfl⟩
    set N' : Naming := { N with hole := Function.update N.hole node new }
    have hself : N'.inHoles node = (new, N.node node) := Prod.ext (Function.update_self _ _ _) rfl
    have hold : N.seqs st .holes = st.holes.map N'.inHoles :=
      List.map_congr_left fun n hn =>
        (Prod.ext (Function.update_of_ne (hholes n hn).2 _ _) rfl :
          N'.inHoles n = N.inHoles n).symm
    have hseqs : ∀ holes : List NodeId, Function.update (N.seqs st) .holes (holes.map N'.inHoles) =
        N'.seqs { st with holes := holes } := by
      intro holes
      funext i
      cases i <;> rfl
    rw [hold, ← hself, insertNodeSorted_map, hseqs] at howned
    · exact ⟨howned, h.blocks, h.spares, h.distinct, h.live, h.procs⟩
    · intro n hn'
      rcases List.mem_cons.mp hn' with rfl | hn'
      · exact sizeAt_eq (h.size_run hn)
      · exact sizeAt_eq (h.size_run (hholes n hn').1)

/-- `insert_node`: the spare block goes into a node `new` that the store does not use yet. -/
theorem Names.insertNode {block : Block} (h : Names N w st [(a, block)]) (new : NodeId)
    (hfresh : Fresh malloc) (hm : st.memory = L ++ R)
    (hmemory : ∀ n ∈ st.memory, n ≠ new) (hholes : ∀ n ∈ st.holes, n ≠ new)
    (hown : ∀ q n, (st.procs q).blockNode = some n → n ≠ new) :
    Meets (OutOfMemory malloc)
      (insertNode malloc .memory a (L.getLast?.map N.node) (R.head?.map N.node)) w fun newNode w' =>
        ∃ N', N'.node new = newNode ∧ N'.input = N.input ∧
        Names N' w' { st with
          memory := L ++ new :: R
          block := Function.update st.block new block } [] ∧ w'.readyLines = w.readyLines := by
  have hseqs : N.seqs st .memory = L.map N.inMemory ++ R.map N.inMemory := by
    rw [Naming.seqs, hm, List.map_append]
  have hinsert := h.owned.insertNode hfresh hseqs a
  rw [last_map_inMemory, first_map_inMemory] at hinsert
  refine hinsert.mono fun newNode w' hw' => ?_
  obtain ⟨heap, list, rfl, -, howned⟩ := hw'
  set N' : Naming := { N with
    node := Function.update N.node new newNode
    block := Function.update N.block new a }
  have hself : N'.inMemory new = (newNode, a) :=
    Prod.ext (Function.update_self _ _ _) (Function.update_self _ _ _)
  have hother : ∀ n, n ≠ new → N'.node n = N.node n ∧ N'.block n = N.block n := fun n hn =>
    ⟨Function.update_of_ne hn _ _, Function.update_of_ne hn _ _⟩
  have hsides : ∀ l : List NodeId, (∀ n ∈ l, n ≠ new) →
      l.map N'.inMemory = l.map N.inMemory := fun l hl =>
    List.map_congr_left fun n hn => Prod.ext (hother n (hl n hn)).1 (hother n (hl n hn)).2
  have hL : L.map N'.inMemory = L.map N.inMemory :=
    hsides L fun n hn => hmemory n (by rw [hm]; exact List.mem_append_left R hn)
  have hR : R.map N'.inMemory = R.map N.inMemory :=
    hsides R fun n hn => hmemory n (by rw [hm]; exact List.mem_append_right L hn)
  have hindex : st.holes.map N'.inHoles = st.holes.map N.inHoles :=
    List.map_congr_left fun n hn => Prod.ext rfl (hother n (hholes n hn)).1
  have hnew : Function.update (N.seqs st) .memory
      (L.map N.inMemory ++ (newNode, a) :: R.map N.inMemory) = N'.seqs { st with
        memory := L ++ new :: R
        block := Function.update st.block new block } := by
    funext i
    cases i with
    | input => rfl
    | memory =>
      change L.map N.inMemory ++ (newNode, a) :: R.map N.inMemory =
        (L ++ new :: R).map N'.inMemory
      rw [List.map_append, List.map_cons, hL, hR, hself]
    | holes => exact hindex.symm
  rw [hnew] at howned
  have hperm : ((L ++ new :: R).map N'.block).Perm (a :: st.memory.map N.block) := by
    have hmap : st.memory.map N'.block = st.memory.map N.block :=
      List.map_congr_left fun n hn => (hother n (hmemory n hn)).2
    have hhead : N'.block new = a := Function.update_self _ _ _
    rw [← hmap, ← hhead, ← List.map_cons, hm]
    exact List.perm_middle.map _
  refine ⟨N', Function.update_self _ _ _, rfl,
    ⟨howned, fun n hn => ?_, by simp, hperm.nodup_iff.mpr h.distinct, fun b => ?_, fun q => ?_⟩, rfl⟩
  · change w.blocks (Function.update N.block new a n) =
      some (Function.update st.block new block n)
    rcases List.mem_cons.mp (List.perm_middle.mem_iff.mp hn) with rfl | hn
    · rw [Function.update_self, Function.update_self, h.spares (a, block) (by simp)]
    · rw [← hm] at hn
      rw [Function.update_of_ne (hmemory n hn), Function.update_of_ne (hmemory n hn), h.blocks n hn]
  · change w.blocks b ≠ none ↔ b ∈ [] ∨ b ∈ (L ++ new :: R).map N'.block
    rw [hperm.mem_iff, h.live b]
    simp
  · change w.procs q = { st.procs q with blockNode := (st.procs q).blockNode.map N'.node }
    rw [h.procs q]
    cases hb : (st.procs q).blockNode with
    | none => rfl
    | some n => rw [Option.map_some, Option.map_some, (hother n (hown q n hb)).1]

theorem Names.setBlockNode (h : Names N w st spare) (p : ProcId) (node : Option NodeId) :
    Names N { w with procs := ProcessManager.setBlockNode w.procs p (node.map N.node) }
      { st with procs := ProcessManager.setBlockNode st.procs p node } spare := by
  refine h.congr fun q => ?_
  rw [ProcessManager.setBlockNode, ProcessManager.setBlockNode]
  by_cases hq : q = p
  · subst hq
    simp [h.procs]
  · rw [Function.update_of_ne hq, Function.update_of_ne hq, h.procs q]

/-- `split` when the process fills the hole. -/
theorem split_exact (hm : st.memory = L ++ node :: R) (hnd : st.memory.Nodup)
    (hz : (st.block node).size - (st.procs p).memRequirement = 0) :
    ProcessManager.split st p node =
      { procs := ProcessManager.setBlockNode st.procs p (some st.nextNode)
        block := Function.update (Function.update st.block node
          ⟨.hole, (st.block node).startAddress + (st.procs p).memRequirement,
            (st.block node).size - (st.procs p).memRequirement⟩) st.nextNode
          ⟨.process, (st.block node).startAddress, (st.procs p).memRequirement⟩
        memory := L ++ st.nextNode :: R
        holes := st.holes
        nextNode := st.nextNode + 1 } := by
  rw [hm] at hnd
  have hnL : node ∉ L := fun hL => (List.nodup_append.mp hnd).2.2 node hL node (by simp) rfl
  have hndLR : (L ++ R).Nodup := hnd.sublist (by simp)
  simp only [ProcessManager.split, hm, getPrev_append hnL, getNext_append hnL,
    deleteNode_append hnL, hz, if_true, insertNode_between hndLR]

/-- `split` when a hole is left. -/
theorem split_rest (hm : st.memory = L ++ node :: R) (hnd : st.memory.Nodup)
    (hz : (st.block node).size - (st.procs p).memRequirement ≠ 0) :
    ProcessManager.split st p node =
      { procs := ProcessManager.setBlockNode st.procs p (some st.nextNode)
        block := Function.update (Function.update st.block node
          ⟨.hole, (st.block node).startAddress + (st.procs p).memRequirement,
            (st.block node).size - (st.procs p).memRequirement⟩) st.nextNode
          ⟨.process, (st.block node).startAddress, (st.procs p).memRequirement⟩
        memory := L ++ st.nextNode :: node :: R
        holes := ProcessManager.insertNodeSorted compareInts (withBlock st node
          ⟨.hole, (st.block node).startAddress + (st.procs p).memRequirement,
            (st.block node).size - (st.procs p).memRequirement⟩).getSize node st.holes
        nextNode := st.nextNode + 1 } := by
  rw [hm] at hnd
  have hnL : node ∉ L := fun hL => (List.nodup_append.mp hnd).2.2 node hL node (by simp) rfl
  have hput : ProcessManager.insertNode (L ++ node :: R) st.nextNode L.getLast? (some node) =
      L ++ st.nextNode :: node :: R := insertNode_between hnd
  simp only [ProcessManager.split, hm, getPrev_append hnL, hz, if_false, hput]
  rfl

/-- `split` on a hole that is out of the index. -/
theorem split_names (hfresh : Fresh malloc) (h : Names N w st []) (hm : st.memory = L ++ node :: R)
    (hnd : st.memory.Nodup) (hlt : ∀ n ∈ st.memory, n < st.nextNode)
    (hown : ∀ q n, (st.procs q).blockNode = some n → n ∈ st.memory)
    (hholes : ∀ n ∈ st.holes, n ∈ st.memory ∧ n ≠ node) :
    Meets (OutOfMemory malloc) (split malloc p (N.node node)) w fun _ w' =>
      ∃ N', Names N' w' (ProcessManager.split st p node) [] ∧ N'.input = N.input ∧
        w'.readyLines = w.readyLines := by
  have hmem : node ∈ st.memory := by simp [hm]
  have hnext : ∀ n ∈ st.memory, n ≠ st.nextNode := fun n hn => (hlt n hn).ne
  rw [split, meets_bind (getNode_run (h.nodeAt hm)), meets_bind (getBlock_run (h.blocks node hmem)),
    meets_bind (h.requirement p)]
  refine (h.createBlock hfresh _ _ _).bind fun newBlock w1 ⟨h1, hlines1⟩ => ?_
  obtain ⟨hset, h2⟩ := h1.setBlock hmem ⟨.hole,
    (st.block node).startAddress + (st.procs p).memRequirement,
    (st.block node).size - (st.procs p).memRequirement⟩
  rw [meets_bind hset, meets_bind (getNode_run (h2.nodeAt hm)), placeRest]
  by_cases hz : (st.block node).size - (st.procs p).memRequirement = 0
  · rw [if_pos hz, split_exact hm hnd hz]
    obtain ⟨w3, hremove, h3, hlines3⟩ := h2.removeNode hm
    have hsub : ∀ n ∈ L ++ R, n ∈ st.memory := by
      intro n hn
      rw [hm]
      exact List.perm_middle.mem_iff.mpr (List.mem_cons_of_mem node hn)
    rw [meets_bind hremove]
    refine (h3.insertNode st.nextNode hfresh rfl (fun n hn => hnext n (hsub n hn))
      (fun n hn => hnext n (hholes n hn).1) fun q n hq => hnext n (hown q n hq)).bind
      fun newNode w4 hw4 => ?_
    obtain ⟨N', rfl, hinput, h4, hlines4⟩ := hw4
    have h5 := h4.setBlockNode p (some st.nextNode)
    refine (meets_ok rfl).mpr ⟨N', ⟨h5.owned, h5.blocks, h5.spares, h5.distinct, h5.live, h5.procs⟩,
      hinput, hlines4.trans (hlines3.trans hlines1)⟩
  · rw [if_neg hz, split_rest hm hnd hz, bind_assoc]
    refine (h2.insertHole hfresh hmem hholes).bind fun _ w3 hw3 => ?_
    obtain ⟨hole, h3, hlines3⟩ := hw3
    have hindex : ∀ n ∈ ProcessManager.insertNodeSorted compareInts (withBlock st node
        ⟨.hole, (st.block node).startAddress + (st.procs p).memRequirement,
          (st.block node).size - (st.procs p).memRequirement⟩).getSize node st.holes,
        n ≠ st.nextNode := by
      intro n hn
      rcases List.mem_cons.mp ((insertNodeSorted_perm _ _).mem_iff.mp hn) with rfl | hn
      · exact hnext n hmem
      · exact hnext n (hholes n hn).1
    rw [pure_bind]
    refine (h3.insertNode st.nextNode hfresh hm hnext hindex
      fun q n hq => hnext n (hown q n hq)).bind fun newNode w4 hw4 => ?_
    obtain ⟨N', rfl, hinput, h4, hlines4⟩ := hw4
    have h5 := h4.setBlockNode p (some st.nextNode)
    refine (meets_ok rfl).mpr ⟨N', ⟨h5.owned, h5.blocks, h5.spares, h5.distinct, h5.live, h5.procs⟩,
      hinput, hlines4.trans (hlines3.trans hlines1)⟩

/-- `best_fit` finds the hole that the search along the sequence finds. -/
theorem findHole_names (h : Names N w st spare) (hholes : ∀ n ∈ st.holes, n ∈ st.memory)
    (need : ℤ) :
    findHole need ((w.lists .holes).numItems.toNat + 1) (w.lists .holes).head w =
      .ok ((st.holes.find? fun n => need ≤ st.getSize n).map N.hole, w) := by
  have hlinked := h.owned.separate.linked .holes
  have hsize : ∀ e ∈ N.seqs st .holes, getSize e.2 w = .ok (sizeAt w e.2, w) := by
    intro e he
    obtain ⟨n, hn, rfl⟩ := List.mem_map.mp he
    have hrun := h.size_run (hholes n hn)
    exact hrun.trans (by rw [← sizeAt_eq hrun]; rfl)
  have hrun := findHole_run need hlinked.segment hsize
    (show _ < (w.lists .holes).numItems.toNat + 1 by rw [h.owned.rounds]; omega)
  have hfind : (st.holes.find? fun n => need ≤ sizeAt w (N.node n)) =
      st.holes.find? fun n => need ≤ st.getSize n :=
    List.find?_congr fun n hn => by rw [sizeAt_eq (h.size_run (hholes n hn))]
  rw [hlinked.head, hrun, Naming.seqs, List.find?_map, Option.map_map]
  exact congrArg (fun found => Except.ok (found.map N.hole, w)) hfind

theorem bestFit_names (hfresh : Fresh malloc) (h : Names N w st []) (hi : st.Indexed) (p : ProcId) :
    Meets (OutOfMemory malloc) (bestFit malloc p) w fun isSpace w' =>
      isSpace = (ProcessManager.bestFit st p).2 ∧ ∃ N',
        Names N' w' (ProcessManager.bestFit st p).1 [] ∧ N'.input = N.input ∧
        w'.readyLines = w.readyLines := by
  have hholes : ∀ n ∈ st.holes, n ∈ st.memory := fun n hn => (hi.mem_holes.mp hn).1
  rw [bestFit, ProcessManager.bestFit, meets_bind getList_run, meets_bind (h.requirement p),
    meets_bind (findHole_names h hholes _)]
  cases hfind : st.holes.find? fun n => (st.procs p).memRequirement ≤ st.getSize n with
  | none => exact meets_pure.mpr ⟨rfl, N, h, rfl, rfl⟩
  | some node =>
    obtain ⟨A, B, hh⟩ := List.append_of_mem (List.mem_of_find?_eq_some hfind)
    have hmem := hholes node (List.mem_of_find?_eq_some hfind)
    obtain ⟨L, R, hm⟩ := List.append_of_mem hmem
    have hnotA : node ∉ A := fun hA => by
      have hnd := hi.holes_nodup
      rw [hh] at hnd
      exact (List.nodup_append.mp hnd).2.2 node hA node (by simp) rfl
    obtain ⟨w1, w2, next, prev, hdelete, hnode, hfree, h2, hlines⟩ := h.removeHole hh
    have hleft : ProcessManager.deleteNode st.holes node = A ++ B := by
      rw [hh, deleteNode_append hnotA]
    have hrest : ∀ n ∈ A ++ B, n ∈ st.memory ∧ n ≠ node := by
      intro n hn
      have hnd := hi.holes_nodup
      rw [hh] at hnd
      refine ⟨hholes n ?_,
        ne_of_mem_of_not_mem hn (List.nodup_cons.mp (List.nodup_middle.mp hnd)).1⟩
      rw [hh]
      exact List.perm_middle.mem_iff.mpr (List.mem_cons_of_mem node hn)
    simp only [Option.map_some, hleft]
    rw [meets_bind hdelete, meets_bind (getNode_run hnode), meets_bind hfree]
    refine (split_names hfresh h2 hm hi.nodup hi.fresh
      (fun q n hq => ((hi.owned n).mp ⟨q, hq⟩).1) hrest).bind fun _ w3 hw3 => ?_
    obtain ⟨N', h3, hinput, hlines3⟩ := hw3
    exact meets_pure.mpr ⟨rfl, N', h3, hinput, hlines3.trans hlines⟩

end ProcessManager.Raw
