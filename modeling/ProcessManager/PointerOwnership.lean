import ProcessManager.PointerWorld

/-! Every node on the heap belongs to one list, or is on its way to `free`; and what the list
operations do to that. -/
namespace ProcessManager.Raw

open DoublyLinked Fallible Pointer

variable {malloc : World → Option Addr} {w : World} {seqs : ListName → List (Addr × Addr)}
  {loose : List Addr} {i : ListName} {L R entries : List (Addr × Addr)} {e : Addr × Addr}
  {a data new : Addr} {before : Option Addr} {heap heap' : Heap Addr} {list list' : Header}
  {node : Node Addr} {block : Block} {val : Addr → ℤ} {α : Type} {f : Addr → Prog α}
  {post : α → World → Prop}

/-- The only way a run may stop before its end: `malloc` does return NULL somewhere. -/
def OutOfMemory (malloc : World → Option Addr) (crash : Crash) : Prop :=
  crash = .assertion ∧ ∃ w, malloc w = none

theorem getNode_run (h : w.heap a = some node) : getNode a w = .ok (node, w) := by
  simp [getNode, h]

theorem getBlock_run (h : w.blocks a = some block) : getBlock a w = .ok (block, w) := by
  simp [getBlock, h]

theorem setBlock_run (h : w.blocks a = some block) (new : Block) :
    setBlock a new w = .ok ((), { w with blocks := Function.update w.blocks a (some new) }) :=
  bind_of_ok (getBlock_run h)

theorem freeAt_run (h : w.heap a = some node) :
    freeAt a w = .ok ((), { w with heap := Function.update w.heap a none }) :=
  bind_of_ok (getNode_run h)

theorem freeBlock_run (h : w.blocks a = some block) :
    freeBlock a w = .ok ((), { w with blocks := Function.update w.blocks a none }) :=
  bind_of_ok (getBlock_run h)

theorem getSize_run (hnode : w.heap a = some node) (hblock : w.blocks node.data = some block) :
    getSize a w = .ok (block.size, w) :=
  (bind_of_ok (getNode_run hnode)).trans (bind_of_ok (getBlock_run hblock))

theorem onList_run {call : Heap Addr → Header → Option (Heap Addr × Header)}
    (h : call w.heap (w.lists i) = some (heap, list)) : onList i call w =
      .ok ((), { w with heap := heap, lists := Function.update w.lists i list }) := by
  simp [onList, h]

/-- What holds whichever object `malloc` finds, holds. -/
theorem meets_newObject (hfresh : Fresh malloc)
    (h : ∀ new, w.heap new = none → w.blocks new = none →
      Meets (OutOfMemory malloc) (f new) w post) :
    Meets (OutOfMemory malloc) (newObject malloc >>= f) w post := by
  cases hnew : malloc w with
  | none =>
    have hstop : newObject malloc w = .error .assertion := by simp [newObject, hnew]
    exact (meets_error (bind_of_error hstop)).mpr ⟨rfl, w, hnew⟩
  | some new =>
    have hrun : newObject malloc w = .ok (new, w) := by simp [newObject, hnew]
    obtain ⟨hheap, hblocks⟩ := hfresh w new hnew
    exact (meets_bind hrun).mpr (h new hheap hblocks)

theorem setNext_live {pointer value : Option Addr} (h : heap.setNext pointer value = some heap') :
    heap' a = none ↔ heap a = none := by
  obtain ⟨b, -, hb⟩ := Option.bind_eq_some_iff.mp h
  obtain ⟨node, hnode, rfl⟩ := Option.map_eq_some_iff.mp hb
  by_cases ha : a = b
  · subst ha
    simp [hnode]
  · rw [Heap.store_of_ne ha]

theorem setPrev_live {pointer value : Option Addr} (h : heap.setPrev pointer value = some heap') :
    heap' a = none ↔ heap a = none := by
  obtain ⟨b, -, hb⟩ := Option.bind_eq_some_iff.mp h
  obtain ⟨node, hnode, rfl⟩ := Option.map_eq_some_iff.mp hb
  by_cases ha : a = b
  · subst ha
    simp [hnode]
  · rw [Heap.store_of_ne ha]

theorem linkNext_live {pointer value : Option Addr} (h : heap.linkNext pointer value = some heap') :
    heap' a = none ↔ heap a = none := by
  unfold Heap.linkNext at h
  split at h
  · rw [Option.some.inj h]
  · exact setNext_live h

theorem linkPrev_live {pointer value : Option Addr} (h : heap.linkPrev pointer value = some heap') :
    heap' a = none ↔ heap a = none := by
  unfold Heap.linkPrev at h
  split at h
  · rw [Option.some.inj h]
  · exact setPrev_live h

theorem createNode_live {next prev : Option Addr} :
    createNode heap new data next prev a = none ↔ a ≠ new ∧ heap a = none := by
  by_cases ha : a = new
  · subst ha
    simp [createNode]
  · simp [createNode, Heap.store_of_ne ha, ha]

theorem enqueue_live {ok : Bool}
    (h : Pointer.enqueue heap list new (some data) = some (heap', list', ok)) :
    heap' a = none ↔ a ≠ new ∧ heap a = none := by
  simp only [Pointer.enqueue] at h
  split at h
  · cases h
    exact createNode_live
  · obtain ⟨heap1, hnext, heq⟩ := Option.map_eq_some_iff.mp h
    cases heq
    rw [setNext_live hnext, createNode_live]

theorem insertNode_live {prev next : Option Addr}
    (h : Pointer.insertNode heap list new data prev next = some (heap', list')) :
    heap' a = none ↔ a ≠ new ∧ heap a = none := by
  obtain ⟨heap1, hnext, hrest⟩ := Option.bind_eq_some_iff.mp h
  obtain ⟨heap2, hprev, heq⟩ := Option.map_eq_some_iff.mp hrest
  cases heq
  rw [linkPrev_live hprev, linkNext_live hnext, createNode_live]

theorem linkSorted_live {prev curr : Option Addr}
    (h : linkSorted heap list new data prev curr = some (heap', list')) :
    heap' a = none ↔ a ≠ new ∧ heap a = none := by
  simp only [linkSorted] at h
  split at h
  · cases h
    exact createNode_live
  · split at h
    · obtain ⟨heap1, hprev, heq⟩ := Option.map_eq_some_iff.mp h
      cases heq
      rw [setPrev_live hprev, createNode_live]
    · obtain ⟨heap1, hnext, heq⟩ := Option.map_eq_some_iff.mp h
      cases heq
      rw [setNext_live hnext, createNode_live]
    · obtain ⟨heap1, hnext, hrest⟩ := Option.bind_eq_some_iff.mp h
      obtain ⟨heap2, hprev, heq⟩ := Option.map_eq_some_iff.mp hrest
      cases heq
      rw [setPrev_live hprev, setNext_live hnext, createNode_live]

/-- The lists are linked as their sequences, and every node is in one of them or is `loose`: taken
out of its list and not freed yet. -/
structure Owned (w : World) (seqs : ListName → List (Addr × Addr)) (loose : List Addr) : Prop where
  separate : Separate w.toMemory seqs
  nodup : loose.Nodup
  apart : ∀ a ∈ loose, ∀ i, a ∉ addresses (seqs i)
  live : ∀ a, w.heap a ≠ none ↔ a ∈ loose ∨ ∃ i, a ∈ addresses (seqs i)

/-- A member of a list, with its links. -/
theorem Owned.nodeAt (h : Owned w seqs loose) (hi : seqs i = L ++ e :: R) :
    w.heap e.1 = some ⟨e.2, first R none, last none L⟩ := by
  have hseg := (h.separate.linked i).segment
  rw [hi] at hseg
  exact (segment_append.mp hseg).2.1

/-- Only the heap and the headers matter. -/
theorem Owned.congr (h : Owned w seqs loose) {w' : World} (hmem : w'.toMemory = w.toMemory) :
    Owned w' seqs loose := by
  have hheap : w'.heap = w.heap := congrArg Memory.heap hmem
  exact ⟨hmem ▸ h.separate, h.nodup, h.apart, fun a => by rw [hheap, h.live]⟩

theorem mem_update {s : List (Addr × Addr)} :
    (∃ j, a ∈ addresses (Function.update seqs i s j)) ↔
      a ∈ addresses s ∨ ∃ j ≠ i, a ∈ addresses (seqs j) := by
  constructor
  · rintro ⟨j, hj⟩
    by_cases hji : j = i
    · subst hji
      rw [Function.update_self] at hj
      exact Or.inl hj
    · rw [Function.update_of_ne hji] at hj
      exact Or.inr ⟨j, hji, hj⟩
  · rintro (ha | ⟨j, hji, ha⟩)
    · exact ⟨i, by rwa [Function.update_self]⟩
    · exact ⟨j, by rwa [Function.update_of_ne hji]⟩

theorem mem_some_list : (∃ j, a ∈ addresses (seqs j)) ↔
    a ∈ addresses (seqs i) ∨ ∃ j ≠ i, a ∈ addresses (seqs j) := by
  have hupdate : (∃ j, a ∈ addresses (Function.update seqs i (seqs i) j)) ↔ _ := mem_update
  rwa [Function.update_eq_self] at hupdate

/-- Freeing a node that is in no list any more. -/
theorem Owned.free (h : Owned w seqs (a :: loose)) :
    freeAt a w = .ok ((), { w with heap := Function.update w.heap a none }) ∧
      Owned { w with heap := Function.update w.heap a none } seqs loose := by
  obtain ⟨hnot, hnodup⟩ := List.nodup_cons.mp h.nodup
  have hapart := h.apart a List.mem_cons_self
  obtain ⟨node, hnode⟩ := Option.ne_none_iff_exists'.mp ((h.live a).mpr (Or.inl List.mem_cons_self))
  refine ⟨freeAt_run hnode, ⟨fun i => ?_, h.separate.disjoint⟩, hnodup,
    fun b hb => h.apart b (List.mem_cons_of_mem a hb), fun b => ?_⟩
  · exact (h.separate.linked i).congr fun b hb =>
      Function.update_of_ne (ne_of_mem_of_not_mem hb (hapart i)) _ _
  · change Function.update w.heap a none b ≠ none ↔ _
    by_cases hb : b = a
    · subst hb
      simp [hnot, hapart]
    · rw [Function.update_of_ne hb, h.live b, List.mem_cons]
      simp [hb]

/-- `delete_node` on a member, which is then loose, with what it held and its links as they were. -/
theorem Owned.deleteNode (h : Owned w seqs loose) (hi : seqs i = L ++ e :: R) :
    ∃ heap list, Raw.deleteNode i e.1 w =
        .ok ((), { w with heap := heap, lists := Function.update w.lists i list }) ∧
      Owned { w with heap := heap, lists := Function.update w.lists i list }
        (Function.update seqs i (L ++ R)) (e.1 :: loose) ∧
      ∀ a ∈ e.1 :: loose, heap a = w.heap a := by
  have hlinked := h.separate.linked i
  rw [hi] at hlinked
  obtain ⟨heap, list, hok, hlinked', hframe⟩ := deleteNode_linked hlinked
  obtain ⟨hnot, -⟩ := nodup_middle.mp hlinked.nodup
  have hmem : e.1 ∈ addresses (seqs i) := hi ▸ mem_addresses_middle.mpr (Or.inl rfl)
  have hsep : Separate ⟨heap, Function.update w.lists i list⟩
      (Function.update seqs i (L ++ R)) := by
    have hstep : Separate _ (Function.update seqs i ((Call.deleteNode e.1).spec compareInts
        (fun _ => (0 : ℤ)) (seqs i))) := h.separate.step hmem hok
    have hnotL : e.1 ∉ addresses L := fun hL => hnot (by simp [hL])
    rwa [Call.spec, hi, eraseP_append hnotL] at hstep
  have hothers : ∀ j ≠ i, e.1 ∉ addresses (seqs j) := fun j hj =>
    h.separate.disjoint i j hj.symm e.1 hmem
  have hfree : ∀ a ∈ e.1 :: loose, a ∉ addresses (L ++ R) := by
    intro a ha
    rcases List.mem_cons.mp ha with rfl | ha
    · exact hnot
    · exact fun hmem => h.apart a ha i (hi ▸ mem_addresses_middle.mpr (Or.inr hmem))
  refine ⟨heap, list, onList_run hok, ⟨hsep, ?_, ?_, ?_⟩, fun a ha => hframe a (hfree a ha)⟩
  · exact List.nodup_cons.mpr ⟨fun hloose => h.apart e.1 hloose i hmem, h.nodup⟩
  · intro a ha j hj
    rcases mem_update.mp ⟨j, hj⟩ with hj' | ⟨k, hk, hk'⟩
    · exact hfree a ha hj'
    · rcases List.mem_cons.mp ha with rfl | ha
      · exact hothers k hk hk'
      · exact h.apart a ha k hk'
  · intro a
    change heap a ≠ none ↔ _
    rw [mem_update, List.mem_cons]
    by_cases ha : a ∈ addresses (L ++ R)
    · exact ⟨fun _ => Or.inr (Or.inl ha), fun _ => hlinked'.segment.allocated ha⟩
    · have hlive := h.live a
      rw [mem_some_list (i := i), hi, mem_addresses_middle] at hlive
      rw [hframe a ha, hlive]
      tauto

/-- A call that puts one new node into a list. -/
theorem Owned.grow (val : Addr → ℤ) (c : Call Addr) (h : Owned w seqs loose)
    (legal : c.Legal w.heap (seqs i))
    (run : c.apply compareInts val w.heap (w.lists i) = some (heap, list))
    (hlive : ∀ a, heap a = none ↔ a ≠ new ∧ w.heap a = none) (hnew : w.heap new = none)
    (hmem : ∀ a, a ∈ addresses (c.spec compareInts val (seqs i)) ↔
      a = new ∨ a ∈ addresses (seqs i)) :
    Owned { w with heap := heap, lists := Function.update w.lists i list }
      (Function.update seqs i (c.spec compareInts val (seqs i))) loose := by
  refine ⟨h.separate.step legal run, h.nodup, ?_, ?_⟩
  · intro a ha j hj
    rcases mem_update.mp ⟨j, hj⟩ with hj' | ⟨k, -, hk'⟩
    · rcases (hmem a).mp hj' with rfl | hold
      · exact (h.live a).mpr (Or.inl ha) hnew
      · exact h.apart a ha i hold
    · exact h.apart a ha k hk'
  · intro a
    have hold := h.live a
    rw [mem_some_list (i := i)] at hold
    rw [mem_update, hmem, Ne, hlive, not_and_or, not_not, ← Ne, hold]
    tauto

/-- `create_block`. -/
theorem meets_createBlock (hfresh : Fresh malloc) (type : BlockType) (start size : ℤ) :
    Meets (OutOfMemory malloc) (createBlock malloc type start size) w fun new w' =>
      w.heap new = none ∧ w.blocks new = none ∧
        w' = { w with blocks := Function.update w.blocks new (some ⟨type, start, size⟩) } :=
  meets_newObject hfresh fun _ hheap hblocks => (meets_ok rfl).mpr ⟨hheap, hblocks, rfl⟩

/-- `enqueue` puts one node more behind a list. -/
theorem Owned.enqueue (h : Owned w seqs loose) (hfresh : Fresh malloc) (i : ListName)
    (data : Addr) :
    Meets (OutOfMemory malloc) (enqueue malloc i (some data)) w fun _ w' =>
      ∃ new heap list, w' = { w with heap := heap, lists := Function.update w.lists i list } ∧
        w.heap new = none ∧
        Owned w' (Function.update seqs i (seqs i ++ [(new, data)])) loose := by
  refine meets_newObject hfresh fun new hnew _ => ?_
  obtain ⟨heap, list, hok, -, -⟩ := enqueue_linked (h.separate.linked i) hnew data
  have hcall : (Pointer.enqueue w.heap (w.lists i) new (some data)).map
      (fun r => (r.1, r.2.1)) = some (heap, list) := by rw [hok]; rfl
  have hrun : onList i (fun heap list => (Pointer.enqueue heap list new (some data)).map
      fun r => (r.1, r.2.1)) w = _ := onList_run hcall
  refine (meets_bind hrun).mpr (meets_pure.mpr ⟨new, heap, list, rfl, hnew, ?_⟩)
  refine h.grow (fun _ => 0) (.enqueue new (some data)) hnew hcall
    (fun a => enqueue_live hok) hnew fun a => ?_
  simp [Call.spec, or_comm]

/-- `insert_node` puts one node more between two neighbours. -/
theorem Owned.insertNode (h : Owned w seqs loose) (hfresh : Fresh malloc) (hi : seqs i = L ++ R)
    (data : Addr) :
    Meets (OutOfMemory malloc) (insertNode malloc i data (last none L) (first R none)) w fun new w' =>
      ∃ heap list, w' = { w with heap := heap, lists := Function.update w.lists i list } ∧
        w.heap new = none ∧
        Owned w' (Function.update seqs i (L ++ (new, data) :: R)) loose := by
  refine meets_newObject hfresh fun new hnew _ => ?_
  have hlinked := h.separate.linked i
  rw [hi] at hlinked
  obtain ⟨heap, list, hok, -, -⟩ := insertNode_linked hlinked hnew data
  have hspec : (Call.insertNode new data (last none L) (first R none)).spec compareInts
      (fun _ => (0 : ℤ)) (L ++ R) = L ++ (new, data) :: R :=
    spec_insertNode hlinked.nodup new data (first R none)
  have hgrow := h.grow (fun _ => 0) (.insertNode new data (last none L) (first R none))
    ⟨hnew, L, R, hi, rfl, rfl⟩ hok (fun a => insertNode_live hok) hnew
  rw [hi, hspec] at hgrow
  have hrun : onList i (fun heap list => Pointer.insertNode heap list new data (last none L)
      (first R none)) w = _ := onList_run hok
  exact (meets_bind hrun).mpr (meets_pure.mpr
    ⟨heap, list, rfl, hnew, hgrow fun a => mem_addresses_middle⟩)

theorem Owned.perm (h : Owned w seqs loose) {loose' : List Addr} (hperm : loose.Perm loose') :
    Owned w seqs loose' :=
  ⟨h.separate, hperm.nodup_iff.mp h.nodup, fun a ha => h.apart a (hperm.mem_iff.mpr ha),
    fun a => by rw [h.live, hperm.mem_iff]⟩

theorem findPlace_run (value : ℤ) {rounds : ℕ} (h : Segment w.heap before entries none)
    (hsize : ∀ e ∈ entries, getSize e.2 w = .ok (val e.2, w)) (hrounds : entries.length < rounds) :
    findPlace value rounds before (first entries none) w =
      .ok ((last before (entries.takeWhile (Before compareInts val value)),
        first (entries.dropWhile (Before compareInts val value)) none), w) := by
  induction entries generalizing before rounds with
  | nil =>
    obtain ⟨rounds, rfl⟩ := Nat.exists_eq_add_of_lt hrounds
    rfl
  | cons e rest ih =>
    obtain ⟨hnode, hrest⟩ := h
    obtain ⟨rounds, rfl⟩ := Nat.exists_eq_add_of_le' hrounds
    rw [first_cons, Nat.add_succ, findPlace, bind_of_ok (getNode_run hnode),
      bind_of_ok (hsize e List.mem_cons_self)]
    by_cases hlt : compareInts (val e.2) value < 0
    · rw [if_pos hlt, ih hrest (fun e he => hsize e (List.mem_cons_of_mem _ he))
        (by simp only [List.length_cons]; omega)]
      simp [Before, hlt]
    · rw [if_neg hlt]
      simp [Before, hlt]
      rfl

/-- The search finds the first node with the data. -/
theorem findData_run {rounds : ℕ} (h : Segment w.heap before (L ++ e :: R) none)
    (hL : e.2 ∉ L.map Prod.snd) (hrounds : L.length < rounds) :
    findData e.2 rounds (first (L ++ e :: R) none) w = .ok (e.1, w) := by
  induction L generalizing before rounds with
  | nil =>
    obtain ⟨hnode, -⟩ := h
    obtain ⟨rounds, rfl⟩ := Nat.exists_eq_add_of_lt hrounds
    rw [List.nil_append, first_cons, findData, bind_of_ok (getNode_run hnode)]
    simp
    rfl
  | cons d L ih =>
    obtain ⟨hnode, hrest⟩ := h
    obtain ⟨rounds, rfl⟩ := Nat.exists_eq_add_of_le' hrounds
    rw [List.map_cons, List.mem_cons, not_or] at hL
    rw [List.cons_append, first_cons, Nat.add_succ, findData, bind_of_ok (getNode_run hnode),
      if_pos (Ne.symm hL.1)]
    exact ih hrest hL.2 (by simp only [List.length_cons]; omega)

/-- The search for a hole stops at the first that is large enough, or at NULL. -/
theorem findHole_run (need : ℤ) {rounds : ℕ} (h : Segment w.heap before entries none)
    (hsize : ∀ e ∈ entries, getSize e.2 w = .ok (val e.2, w)) (hrounds : entries.length < rounds) :
    findHole need rounds (first entries none) w =
      .ok ((entries.find? fun e => need ≤ val e.2).map Prod.fst, w) := by
  induction entries generalizing before rounds with
  | nil =>
    obtain ⟨rounds, rfl⟩ := Nat.exists_eq_add_of_lt hrounds
    rfl
  | cons e rest ih =>
    obtain ⟨hnode, hrest⟩ := h
    obtain ⟨rounds, rfl⟩ := Nat.exists_eq_add_of_le' hrounds
    rw [first_cons, Nat.add_succ, findHole, bind_of_ok (getNode_run hnode),
      bind_of_ok (hsize e List.mem_cons_self)]
    by_cases hle : need ≤ val e.2
    · rw [if_pos (show val e.2 ≥ need from hle)]
      simp [hle]
      rfl
    · rw [if_neg (show ¬ val e.2 ≥ need from hle), ih hrest
        (fun e he => hsize e (List.mem_cons_of_mem _ he)) (by simp only [List.length_cons]; omega)]
      simp [hle]

theorem getList_run : getList i w = .ok (w.lists i, w) := rfl

theorem Owned.rounds (h : Owned w seqs loose) :
    (w.lists i).numItems.toNat = (seqs i).length := by
  rw [(h.separate.linked i).numItems]
  exact Int.toNat_natCast _

/-- `insert_node_sorted` puts one node more into a list, at the place for the value of its data. -/
theorem Owned.insertNodeSorted (val : Addr → ℤ) (h : Owned w seqs loose) (hfresh : Fresh malloc)
    (hdata : getSize data w = .ok (val data, w))
    (hsize : ∀ e ∈ seqs i, getSize e.2 w = .ok (val e.2, w)) :
    Meets (OutOfMemory malloc) (insertNodeSorted malloc i data) w fun _ w' =>
      ∃ new heap list, w' = { w with heap := heap, lists := Function.update w.lists i list } ∧
        w.heap new = none ∧ w.blocks new = none ∧
        Owned w' (Function.update seqs i (ProcessManager.insertNodeSorted compareInts
          (fun e => val e.2) (new, data) (seqs i))) loose := by
  have hlinked := h.separate.linked i
  have hplace := findPlace_segment compareInts val (val data) hlinked.segment
    (show (seqs i).length < (w.lists i).numItems.toNat + 1 by rw [h.rounds]; omega)
  have hrun := findPlace_run (val data) hlinked.segment hsize
    (show (seqs i).length < (w.lists i).numItems.toNat + 1 by rw [h.rounds]; omega)
  rw [← hlinked.head] at hplace hrun
  rw [Raw.insertNodeSorted, meets_bind getList_run, meets_bind hdata, meets_bind hrun]
  refine meets_newObject hfresh fun new hnew hblock => ?_
  obtain ⟨heap, list, hok, -, -⟩ := insertNodeSorted_linked compareInts val hlinked hnew data
  have hlink := hok
  rw [Pointer.insertNodeSorted, hplace, Option.bind_some] at hlink
  refine (meets_ok (onList_run hlink)).mpr ⟨new, heap, list, rfl, hnew, hblock, ?_⟩
  refine h.grow val (.insertNodeSorted new data) hnew hok (fun a => linkSorted_live hlink) hnew
    fun a => ?_
  have hperm : (ProcessManager.insertNodeSorted compareInts (fun e => val e.2) (new, data)
      (seqs i)).Perm ((new, data) :: seqs i) := insertNodeSorted_perm _ _
  rw [Call.spec, addresses, (hperm.map Prod.fst).mem_iff, List.map_cons, List.mem_cons, addresses]

/-- `free_node` on a node that is in no list any more frees the node and its block. -/
theorem Owned.freeNode (h : Owned w seqs (a :: loose)) (hnode : w.heap a = some node)
    (hblock : w.blocks node.data = some block) :
    Raw.freeNode a w = .ok ((), { w with
        heap := Function.update w.heap a none
        blocks := Function.update w.blocks node.data none }) ∧
      Owned { w with
        heap := Function.update w.heap a none
        blocks := Function.update w.blocks node.data none } seqs loose := by
  obtain ⟨-, howned⟩ := h.free
  refine ⟨?_, howned.congr rfl⟩
  rw [Raw.freeNode, bind_of_ok (getNode_run hnode), bind_of_ok (freeBlock_run hblock)]
  exact freeAt_run hnode

/-- `delete_node_by_data` on a node that is in no list but as the data of an entry: the entry, the
node and its block are freed. -/
theorem Owned.deleteNodeByData (h : Owned w seqs (e.2 :: loose)) (hi : seqs i = L ++ e :: R)
    (hL : e.2 ∉ L.map Prod.snd) (hnode : w.heap e.2 = some node)
    (hblock : w.blocks node.data = some block) :
    ∃ heap list, Raw.deleteNodeByData i e.2 w = .ok ((), { w with
        heap := heap
        lists := Function.update w.lists i list
        blocks := Function.update w.blocks node.data none }) ∧
      Owned { w with
        heap := heap
        lists := Function.update w.lists i list
        blocks := Function.update w.blocks node.data none }
        (Function.update seqs i (L ++ R)) loose := by
  have hlinked := h.separate.linked i
  have hseg := hlinked.segment
  have hlength := h.rounds (i := i)
  rw [hi] at hseg hlength
  rw [List.length_append] at hlength
  have hfind := findData_run hseg hL
    (show L.length < (w.lists i).numItems.toNat + 1 by omega)
  rw [← hi, ← hlinked.head] at hfind
  obtain ⟨heap, list, hdelete, howned, hkeep⟩ := h.deleteNode hi
  have hentry := (hkeep e.1 List.mem_cons_self).trans (h.nodeAt hi)
  obtain ⟨hfree, howned⟩ := (howned.perm (List.Perm.swap _ _ _)).freeNode
    ((hkeep e.2 (by simp)).trans hnode) hblock
  obtain ⟨hlast, howned⟩ := howned.free
  refine ⟨_, list, ?_, howned⟩
  rw [Raw.deleteNodeByData, bind_of_ok getList_run, bind_of_ok hfind, bind_of_ok hdelete,
    bind_of_ok (getNode_run hentry), bind_of_ok hfree]
  exact hlast

end ProcessManager.Raw
