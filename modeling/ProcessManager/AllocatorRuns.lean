import ProcessManager.AllocatorRelease
import ProcessManager.Cycle

/-! Any requests of `main.c` in any order on the heap of nodes and blocks: they do what they do on
the sequences, follow no wild pointer, and free every node and block exactly once. -/
namespace ProcessManager.Raw

open DoublyLinked Fallible Pointer

variable {malloc : World → Option Addr} {w : World} {st : Store} {N : Naming} {p : ProcId}
  {node : NodeId} {e : Addr × Addr} {done rest : List (Addr × Addr)} {procs : ProcTable}
  {pass pass' : Pass} {left : List ProcId} {before : List (ProcId × ℤ)} {rounds : ℕ}

def Naming.setInput (N : Naming) (input : List (Addr × Addr)) : Naming := { N with input := input }

theorem Naming.seqs_setInput (N : Naming) (st : Store) (input : List (Addr × Addr)) :
    Function.update (N.seqs st) .input input = (N.setInput input).seqs st := by
  funext i
  cases i <;> rfl

/-- A change of the input queue alone. -/
theorem Names.setInput {heap : Heap Addr} {list : Header} {input : List (Addr × Addr)}
    (h : Names N w st [])
    (howned : Owned { w with heap := heap, lists := Function.update w.lists .input list }
      (Function.update (N.seqs st) .input input) []) :
    Names (N.setInput input)
      { w with heap := heap, lists := Function.update w.lists .input list } st [] := by
  rw [Naming.seqs_setInput] at howned
  exact ⟨howned, h.blocks, h.spares, h.distinct, h.live, h.procs⟩

/-- `enqueue` of a process that has arrived. -/
theorem Names.enqueueInput (h : Names N w st []) (hfresh : Fresh malloc) (p : ProcId) :
    Meets (OutOfMemory malloc) (enqueue malloc .input (some p)) w fun _ w' => ∃ new,
      Names (N.setInput (N.input ++ [(new, p)])) w' st [] ∧ w'.readyLines = w.readyLines := by
  refine (h.owned.enqueue hfresh .input p).mono fun _ w' hw' => ?_
  obtain ⟨new, heap, list, rfl, -, howned⟩ := hw'
  exact ⟨new, h.setInput howned, rfl⟩

/-- `delete_node` and `free` of a process that was taken, between which its `next` link is read. -/
theorem Names.removeInput (h : Names N w st []) (hin : N.input = done ++ e :: rest) :
    ∃ w1 w2 next prev, deleteNode .input e.1 w = .ok ((), w1) ∧
      w1.heap e.1 = some ⟨e.2, next, prev⟩ ∧ next = first rest none ∧
      freeAt e.1 w1 = .ok ((), w2) ∧
      Names (N.setInput (done ++ rest)) w2 st [] ∧ w2.readyLines = w.readyLines := by
  obtain ⟨heap, list, hdelete, howned, hkeep⟩ := h.owned.deleteNode (i := .input) hin
  obtain ⟨hfree, howned⟩ := howned.free
  exact ⟨_, _, _, _, hdelete,
    (hkeep e.1 List.mem_cons_self).trans (h.owned.nodeAt (i := .input) hin), rfl, hfree,
    h.setInput howned, rfl⟩

/-- What the READY line of an event says. -/
def readyLine : Event → Option (ProcId × ℤ)
  | .ready p assignedAt => some (p, assignedAt)
  | _ => none

/-- `process_ready` of a process that has its block. -/
theorem Names.processReady (h : Names N w st []) (hp : (st.procs p).blockNode = some node)
    (hnode : node ∈ st.memory) :
    ∃ w', processReady p w = .ok ((), w') ∧
      Names N w' { st with procs := setState st.procs p .ready } [] ∧
      w'.readyLines = w.readyLines ++ [(p, (st.block node).startAddress)] := by
  obtain ⟨next, prev, hread⟩ := h.node_of_mem hnode
  have hpointer : (setState w.procs p .ready p).blockNode = some (N.node node) := by
    rw [setState_blockNode, h.procs p, hp]
    rfl
  have hstate : ∀ q, setState w.procs p .ready q = { setState st.procs p .ready q with
      blockNode := (setState st.procs p .ready q).blockNode.map N.node } := by
    intro q
    rw [setState, setState]
    by_cases hq : q = p
    · subst hq
      simp [h.procs]
    · rw [Function.update_of_ne hq, Function.update_of_ne hq, h.procs q]
  set w1 : World := { w with procs := setState w.procs p .ready }
  have hget : (get : Prog World) w1 = .ok (w1, w1) := rfl
  have hread1 : getNode (N.node node) w1 = _ := getNode_run hread
  have hblock1 : getBlock (N.block node) w1 = _ := getBlock_run (h.blocks node hnode)
  refine ⟨{ w1 with readyLines := w.readyLines ++ [(p, (st.block node).startAddress)] }, ?_,
    h.congr hstate, rfl⟩
  rw [Raw.processReady, bind_of_ok (show modify (m := Prog) _ w = .ok ((), w1) from rfl),
    bind_of_ok hget, hpointer]
  simp only []
  rw [bind_of_ok hread1, bind_of_ok hblock1]
  rfl

/-- The loop of `allocate_memory` from a node of the input queue on. -/
theorem fitInput_names (done : List (Addr × Addr)) (hfresh : Fresh malloc)
    (h : Names N w pass.store []) (hin : N.input = done ++ rest) (hrounds : rest.length ≤ rounds)
    (hi : pass.store.Indexed)
    (hnd : (rest.map Prod.snd).Nodup)
    (hun : ∀ q ∈ rest.map Prod.snd, (pass.store.procs q).blockNode = none)
    (hlines : w.readyLines = before ++ pass.events.filterMap readyLine)
    (hrun : ProcessManager.fitInput pass (rest.map Prod.snd) = .ok (pass', left)) :
    Meets (OutOfMemory malloc) (fitInput malloc rounds (first rest none)) w fun _ w' => ∃ N',
      Names N' w' pass'.store [] ∧ N'.input.map Prod.snd = done.map Prod.snd ++ left ∧
      w'.readyLines = before ++ pass'.events.filterMap readyLine := by
  induction rest generalizing N w pass left done rounds with
  | nil =>
    cases hrun
    rw [first, fitInput]
    exact meets_pure.mpr ⟨N, h, by simp [hin], hlines⟩
  | cons e rest ih =>
    obtain ⟨rounds, rfl⟩ := Nat.exists_eq_succ_of_ne_zero (by simp at hrounds; omega : rounds ≠ 0)
    have hrounds' : rest.length ≤ rounds := by simpa using hrounds
    have hnode := h.owned.nodeAt (i := .input) hin
    rw [first, fitInput, meets_bind (getNode_run hnode)]
    refine (bestFit_names hfresh h hi e.2).bind fun isSpace w1 hw1 => ?_
    obtain ⟨rfl, N1, h1, hinput1, hlines1⟩ := hw1
    rw [hin] at hinput1
    rw [List.map_cons, ProcessManager.fitInput] at hrun
    rcases hfit : ProcessManager.bestFit pass.store e.2 with ⟨st, _ | _⟩
    · obtain ⟨rfl, -⟩ := bestFit_fail hfit
      simp only [hfit] at hrun h1
      obtain ⟨⟨pass1, left1⟩, hrun1, hrun⟩ := ok_of_bind hrun
      cases hrun
      have hnode1 := h1.owned.nodeAt (i := .input) hinput1
      simp only [Bool.false_eq_true, if_false]
      rw [meets_bind (getNode_run hnode1)]
      have hin1 : N1.input = (done ++ [e]) ++ rest := by rw [hinput1]; simp
      refine (ih _ h1 hin1 hrounds' hi (List.nodup_cons.mp hnd).2
        (fun q hq => hun q (List.mem_cons_of_mem _ hq)) (hlines1.trans hlines) hrun1).mono ?_
      rintro _ w' ⟨N', h', hinput', hlines'⟩
      exact ⟨N', h', by rw [hinput']; simp, hlines'⟩
    · obtain ⟨L, node, R, hplace⟩ := bestFit_placement hi hfit
      obtain ⟨hblock, hstart⟩ := hplace.startAddress
      simp only [hfit] at hrun h1
      obtain ⟨pass1, hready, hrun⟩ := ok_of_bind hrun
      obtain ⟨ready, hins, rfl⟩ := processReady_bestFit hready hblock
      have hindexed : (pass.take e.2 st ready
          [.ready e.2 (pass.store.block node).startAddress]).store.Indexed :=
        take_indexed hplace hi (hun e.2 (by simp))
      have hmem : pass.store.nextNode ∈ st.memory := by
        rcases hplace.lists with ⟨-, hm, -⟩ | ⟨-, hm, -⟩ <;> simp [hm]
      obtain ⟨w2, hready', h2, hlines2⟩ := h1.processReady hblock hmem
      obtain ⟨w3, w4, next, prev, hdelete, hread, rfl, hfree, h4, hlines4⟩ :=
        h2.removeInput hinput1
      simp only [if_true]
      rw [meets_bind hready', meets_bind hdelete, meets_bind (getNode_run hread),
        meets_bind hfree]
      rw [hstart] at hrun hlines2
      have hlines' : w4.readyLines = before ++ (pass.take e.2 st ready
          [.ready e.2 (pass.store.block node).startAddress]).events.filterMap readyLine := by
        rw [hlines4, hlines2, hlines1, hlines, Pass.take, List.filterMap_append, List.append_assoc]
        rfl
      exact ih _ h4 rfl hrounds' hindexed (List.nodup_cons.mp hnd).2 (take_waiting hplace hnd hun)
        hlines' hrun

/-- A whole call, whatever the ready queue. -/
theorem allocateMemory_names {ready : ReadyQueue} (hfresh : Fresh malloc)
    (h : Names N w st []) (hi : st.Indexed) (hnd : (N.input.map Prod.snd).Nodup)
    (hun : ∀ q ∈ N.input.map Prod.snd, (st.procs q).blockNode = none)
    (hrun : ProcessManager.allocateMemory .bestFit st (N.input.map Prod.snd) ready =
      .ok (pass, left)) :
    Meets (OutOfMemory malloc) (allocateMemory malloc) w fun _ w' => ∃ N',
      Names N' w' pass.store [] ∧ N'.input.map Prod.snd = left ∧
      w'.readyLines = w.readyLines ++ pass.events.filterMap readyLine := by
  have hlinked := h.owned.separate.linked .input
  have hrounds : (w.lists .input).numItems.toNat = N.input.length := h.owned.rounds
  rw [allocateMemory, meets_bind getList_run, hlinked.head, hrounds]
  have hlines : w.readyLines = w.readyLines ++
      (⟨st, ready, []⟩ : Pass).events.filterMap readyLine := (List.append_nil _).symm
  exact (fitInput_names [] hfresh h rfl le_rfl hi hnd hun hlines hrun).mono
    fun _ _ hw' => hw'

/-- Before `initialise_memory`: three empty lists and no object. -/
def blankWorld (procs : ProcTable) : World where
  heap _ := none
  lists _ := createEmptyList
  blocks _ := none
  procs := procs
  readyLines := []

theorem blankWorld_owned (procs : ProcTable) : Owned (blankWorld procs) (fun _ => []) [] where
  separate := ⟨fun _ => createEmptyList_linked _, by simp⟩
  nodup := List.nodup_nil
  apart := by simp
  live := by simp [blankWorld]

theorem map_blockNode_of_none {process : Process} {name : NodeId → Addr}
    (h : process.blockNode = none) :
    { process with blockNode := process.blockNode.map name } = process := by
  cases process
  cases h
  rfl

theorem initialiseMemory_names (hfresh : Fresh malloc) (hnone : ∀ p, (procs p).blockNode = none) :
    Meets (OutOfMemory malloc) (initialiseMemory malloc) (blankWorld procs) fun _ w => ∃ N,
      Names N w (ProcessManager.initialiseMemory procs) [] ∧ N.input = [] ∧ w.readyLines = [] := by
  refine (meets_createBlock hfresh .hole 0 memCapacity).bind fun block w1 hw1 => ?_
  obtain ⟨-, -, rfl⟩ := hw1
  have h1 : Owned { blankWorld procs with
      blocks := Function.update (blankWorld procs).blocks block (some ⟨.hole, 0, memCapacity⟩) }
      (fun _ => []) [] := (blankWorld_owned procs).congr rfl
  refine (h1.enqueue hfresh .memory block).bind fun _ w2 hw2 => ?_
  obtain ⟨node, heap, list, rfl, -, h2⟩ := hw2
  have hhead := (h2.separate.linked .memory).head
  rw [Function.update_self] at hhead
  rw [meets_bind getList_run, hhead]
  refine (h2.enqueue hfresh .holes node).bind fun _ w3 hw3 => ?_
  obtain ⟨hole, heap', list', rfl, -, h3⟩ := hw3
  refine meets_pure.mpr ⟨⟨fun _ => node, fun _ => block, fun _ => hole, []⟩,
    ⟨?_, ?_, by simp, ?_, ?_, ?_⟩, rfl, rfl⟩
  · convert h3 using 1
    funext i
    cases i <;> rfl
  · intro n _
    exact Function.update_self _ _ _
  · simp [ProcessManager.initialiseMemory]
  · intro a
    change Function.update (fun _ => none) block (some _) a ≠ none ↔ _
    by_cases ha : a = block
    · subst ha
      simp [ProcessManager.initialiseMemory]
    · rw [Function.update_of_ne ha]
      simp [ProcessManager.initialiseMemory, ha]
  · exact fun p => (map_blockNode_of_none (hnone p)).symm

/-- What `main.c` asks of the allocator, with the ready queue it passes, and its own writes to the
processes in between. -/
inductive Request
  | arrive (p : ProcId)
  | allocate (ready : ReadyQueue)
  | release (p : ProcId)
  | write (procs : ProcTable)

/-- The processes of `procs` with the blocks of `old`. -/
def keepBlocks (procs old : ProcTable) : ProcTable := fun p =>
  { procs p with blockNode := (old p).blockNode }

def Request.run (malloc : World → Option Addr) : Request → Prog Unit
  | .arrive p => do
    let _ ← enqueue malloc .input (some p)
  | .allocate _ => allocateMemory malloc
  | .release p => deallocateMemory malloc p
  | .write procs => modify fun w => { w with procs := keepBlocks procs w.procs }

def runRequests (malloc : World → Option Addr) : List Request → Prog Unit
  | [] => return
  | request :: rest => do
    request.run malloc
    runRequests malloc rest

/-- What the requests work on, on sequences. -/
structure Managed where
  store : Store
  input : List ProcId
  readyLines : List (ProcId × ℤ)

def Request.apply : Request → Managed → Except Fault Managed
  | .arrive p, m => .ok { m with input := m.input ++ [p] }
  | .allocate ready, m => do
    let (pass, left) ← ProcessManager.allocateMemory .bestFit m.store m.input ready
    return ⟨pass.store, left, m.readyLines ++ pass.events.filterMap readyLine⟩
  | .release p, m => do
    let store ← ProcessManager.deallocateMemory .bestFit m.store p
    return { m with store := store }
  | .write procs, m =>
    .ok { m with store := { m.store with procs := keepBlocks procs m.store.procs } }

def applyRequests : Managed → List Request → Except Fault Managed
  | m, [] => .ok m
  | m, request :: rest => do
    let m ← request.apply m
    applyRequests m rest

/-- A process arrives once and is released only while it has a block; and nothing else changes its
memory requirement. The requirements are meant to be `int` values whose difference from the size of
a hole is one too, as it is for those of at least 1: a requirement of `-2 ^ 31` takes the
subtraction of `split` out of the range. -/
def Request.Legal : Request → Managed → Prop
  | .arrive p, m => p ∉ m.input ∧ (m.store.procs p).blockNode = none
  | .allocate ready, m => ∃ scheduler, ready.WellFormed scheduler m.store.procs
  | .release p, m => (m.store.procs p).blockNode ≠ none
  | .write procs, m => ∀ p, (procs p).memRequirement = (m.store.procs p).memRequirement

/-- Every request is legal when it is made. -/
def LegalRun : Managed → List Request → Prop
  | _, [] => True
  | m, request :: rest => request.Legal m ∧ ∀ m', request.apply m = .ok m' → LegalRun m' rest

/-- What legal requests keep. -/
structure Managed.Sound (m : Managed) : Prop where
  indexed : m.store.Indexed
  waiting : m.input.Nodup
  unallocated : ∀ p ∈ m.input, (m.store.procs p).blockNode = none

/-- The world is `m` under some names. -/
def Carries (w : World) (m : Managed) : Prop :=
  ∃ N, Names N w m.store [] ∧ N.input.map Prod.snd = m.input ∧ w.readyLines = m.readyLines

variable {m m' : Managed} {request : Request} {requests : List Request}

theorem unallocated_left {strategy : MemStrategy} {input taken left : List ProcId}
    (h : Admission strategy pass input taken left pass') (hnd : input.Nodup)
    (hun : ∀ p ∈ input, (pass.store.procs p).blockNode = none) :
    ∀ p ∈ left, (pass'.store.procs p).blockNode = none := by
  intro p hp
  have hapart := (List.nodup_append.mp (h.perm.nodup_iff.mp hnd)).2.2
  rw [h.procs_other fun htaken => hapart p htaken p hp rfl]
  exact hun p (h.left_sublist.subset hp)

/-- The request is served on sequences, and on the heap with the same result unless `malloc`
returns NULL. -/
def Request.Served (malloc : World → Option Addr) (m : Managed) (request : Request) : Prop :=
  ∃ m', request.apply m = .ok m' ∧ m'.Sound ∧
    ∀ w, Carries w m → Meets (OutOfMemory malloc) (request.run malloc) w fun _ w' => Carries w' m'

theorem arrive_served (hfresh : Fresh malloc) (hs : m.Sound) (hp : p ∉ m.input)
    (hblock : (m.store.procs p).blockNode = none) : (Request.arrive p).Served malloc m := by
  refine ⟨_, rfl, ⟨hs.indexed, ?_, fun q hq => ?_⟩, ?_⟩
  · exact (List.perm_append_singleton p m.input).nodup_iff.mpr
      (List.nodup_cons.mpr ⟨hp, hs.waiting⟩)
  · rcases List.mem_append.mp hq with hq | hq
    · exact hs.unallocated q hq
    · rwa [List.mem_singleton.mp hq]
  · rintro w ⟨N, hnames, hinput, hlines⟩
    refine (hnames.enqueueInput hfresh p).bind fun _ w' ⟨new, h', hlines'⟩ => ?_
    exact meets_pure.mpr ⟨_, h', by simp [Naming.setInput, hinput], hlines'.trans hlines⟩

theorem allocate_served {ready : ReadyQueue} {scheduler : Scheduler} (hfresh : Fresh malloc)
    (hs : m.Sound) (hw : ready.WellFormed scheduler m.store.procs) :
    (Request.allocate ready).Served malloc m := by
  obtain ⟨pass, taken, left, hrun, hadmission⟩ : ∃ pass taken left,
      ProcessManager.allocateMemory .bestFit m.store m.input ready = .ok (pass, left) ∧
        Admission .bestFit ⟨m.store, ready, []⟩ m.input taken left pass :=
    allocateMemory_spec hw (fun _ => hs.indexed) hs.waiting fun _ => hs.unallocated
  refine ⟨⟨pass.store, left, m.readyLines ++ pass.events.filterMap readyLine⟩, ?_, ⟨?_, ?_, ?_⟩, ?_⟩
  · simp only [Request.apply, hrun]
    rfl
  · exact hadmission.indexed hs.indexed hs.waiting hs.unallocated
  · exact hs.waiting.sublist hadmission.left_sublist
  · exact unallocated_left hadmission hs.waiting hs.unallocated
  · rintro w ⟨N, hnames, hinput, hlines⟩
    refine (allocateMemory_names hfresh hnames hs.indexed (hinput ▸ hs.waiting)
      (hinput ▸ hs.unallocated) (by rwa [hinput])).mono fun _ w' hw' => ?_
    obtain ⟨N', h', hinput', hlines'⟩ := hw'
    exact ⟨N', h', hinput', by rw [hlines', hlines]⟩

theorem release_served (hfresh : Fresh malloc) (hs : m.Sound)
    (hp : (m.store.procs p).blockNode ≠ none) : (Request.release p).Served malloc m := by
  obtain ⟨node, hnode⟩ := Option.ne_none_iff_exists'.mp hp
  obtain ⟨st', hrun, hrelease⟩ := deallocate_release hs.indexed hnode
  refine ⟨{ m with store := st' }, ?_,
    ⟨hrelease.indexed hs.indexed, hs.waiting, fun q hq => ?_⟩, ?_⟩
  · simp only [Request.apply, hrun]
    rfl
  · have hqp : q ≠ p := by
      rintro rfl
      exact hp (hs.unallocated q hq)
    change (st'.procs q).blockNode = none
    rw [hrelease.procs, ProcessManager.setBlockNode, Function.update_of_ne hqp]
    exact hs.unallocated q hq
  · rintro w ⟨N, hnames, hinput, hlines⟩
    refine (deallocateMemory_names hfresh hnames hs.indexed hnode).mono fun _ w' hw' => ?_
    obtain ⟨st'', N', hrun', h', hinput', hlines'⟩ := hw'
    obtain rfl := Except.ok.inj (hrun.symm.trans hrun')
    exact ⟨N', h', by rw [hinput', hinput], hlines'.trans hlines⟩

theorem write_served (hs : m.Sound)
    (hmem : ∀ p, (procs p).memRequirement = (m.store.procs p).memRequirement) :
    (Request.write procs).Served malloc m := by
  refine ⟨_, rfl, ⟨hs.indexed.congr _ (fun p => rfl) hmem, hs.waiting, hs.unallocated⟩, ?_⟩
  rintro w ⟨N, hnames, hinput, hlines⟩
  have hrun : (Request.write procs).run malloc w =
    .ok ((), { w with procs := keepBlocks procs w.procs }) := rfl
  refine (meets_ok hrun).mpr ⟨N, hnames.congr fun p => ?_, hinput, hlines⟩
  rw [keepBlocks, hnames.procs p]
  rfl

theorem Request.served (hfresh : Fresh malloc) (hs : m.Sound) (hlegal : request.Legal m) :
    request.Served malloc m := by
  cases request with
  | arrive p => exact arrive_served hfresh hs hlegal.1 hlegal.2
  | allocate ready =>
    obtain ⟨scheduler, hw⟩ := hlegal
    exact allocate_served hfresh hs hw
  | release p => exact release_served hfresh hs hlegal
  | write procs => exact write_served hs hlegal

/-- From one request to a run of them. -/
theorem runRequests_served (hfresh : Fresh malloc) (hs : m.Sound) (hlegal : LegalRun m requests) :
    ∃ m', applyRequests m requests = .ok m' ∧ m'.Sound ∧
      ∀ w, Carries w m → Meets (OutOfMemory malloc) (runRequests malloc requests) w fun _ w' =>
        Carries w' m' := by
  induction requests generalizing m with
  | nil => exact ⟨m, rfl, hs, fun w h => meets_pure.mpr h⟩
  | cons request rest ih =>
    obtain ⟨hrequest, hrest⟩ := hlegal
    obtain ⟨m1, happly, hs1, hmeets⟩ := Request.served hfresh hs hrequest
    obtain ⟨m', hrun, hs', hmeets'⟩ := ih hs1 (hrest m1 happly)
    refine ⟨m', ?_, hs', fun w h => (hmeets w h).bind fun _ w1 h1 => hmeets' w1 h1⟩
    rw [applyRequests, happly]
    exact hrun

/-- The lists and processes at the start of `cycle`. -/
def startManaged (procs : ProcTable) : Managed :=
  ⟨ProcessManager.initialiseMemory procs, [], []⟩

/-- `initialise_memory` and then the requests. -/
def serve (malloc : World → Option Addr) (requests : List Request) : Prog Unit := do
  initialiseMemory malloc
  runRequests malloc requests

theorem serve_carried (hfresh : Fresh malloc) (hnone : ∀ p, (procs p).blockNode = none)
    (hlegal : LegalRun (startManaged procs) requests) :
    ∃ m, applyRequests (startManaged procs) requests = .ok m ∧ m.Sound ∧
      Meets (OutOfMemory malloc) (serve malloc requests) (blankWorld procs) fun _ w =>
        Carries w m := by
  have hs : (startManaged procs).Sound := ⟨initialiseMemory_indexed hnone, by simp [startManaged],
    by simp [startManaged]⟩
  obtain ⟨m, hrun, hs', hmeets⟩ := runRequests_served hfresh hs hlegal
  refine ⟨m, hrun, hs', (initialiseMemory_names hfresh hnone).bind fun _ w hw => ?_⟩
  obtain ⟨N, h, hinput, hlines⟩ := hw
  exact hmeets w ⟨N, h, by rw [hinput]; rfl, hlines⟩

/-- A heap or a set of blocks without these addresses. -/
def cleared {β : Type} (dead : List Addr) (objects : Addr → Option β) : Addr → Option β := fun a =>
  if a ∈ dead then none else objects a

@[simp] theorem cleared_nil {β : Type} (objects : Addr → Option β) :
    cleared [] objects = objects := by
  funext a
  simp [cleared]

theorem cleared_cons {β : Type} (a : Addr) (dead : List Addr) (objects : Addr → Option β) :
    cleared dead (Function.update objects a none) = cleared (a :: dead) objects := by
  funext b
  by_cases hb : b = a
  · subst hb
    simp [cleared]
  · simp [cleared, hb]

theorem cleared_append {β : Type} (dead dead' : List Addr) (objects : Addr → Option β) :
    cleared dead' (cleared dead objects) = cleared (dead ++ dead') objects := by
  funext a
  by_cases ha : a ∈ dead <;> simp [cleared, ha]

/-- `free_list` on the nodes of a list, whose data are freed as `freeData` does. -/
theorem freeFrom_run {freeData : Addr → Prog Unit} {owned : Addr → List Addr}
    {entries : List (Addr × Addr)} {first' : Option Addr}
    (hfree : ∀ data w, (∀ a ∈ owned data, w.blocks a ≠ none) →
      freeData data w = .ok ((), { w with blocks := cleared (owned data) w.blocks }))
    (hseg : Segment w.heap first' entries none) (hnd : (addresses entries).Nodup)
    (hlive : ∀ a ∈ entries.flatMap fun e => owned e.2, w.blocks a ≠ none)
    (hnd' : (entries.flatMap fun e => owned e.2).Nodup) (hrounds : entries.length ≤ rounds) :
    freeFrom freeData rounds (first entries none) w = .ok ((), { w with
      heap := cleared (addresses entries) w.heap
      blocks := cleared (entries.flatMap fun e => owned e.2) w.blocks }) := by
  induction entries generalizing w first' rounds with
  | nil => cases rounds <;> simp [freeFrom] <;> rfl
  | cons e rest ih =>
    obtain ⟨rounds, rfl⟩ := Nat.exists_eq_add_of_le' hrounds
    obtain ⟨hnode, hrest⟩ := hseg
    obtain ⟨hnot, hndrest⟩ := List.nodup_cons.mp hnd
    rw [List.flatMap_cons] at hlive hnd' ⊢
    obtain ⟨-, hndrest', hapart⟩ := List.nodup_append.mp hnd'
    have hdata := hfree e.2 w fun a ha => hlive a (List.mem_append_left _ ha)
    set w1 : World := { w with blocks := cleared (owned e.2) w.blocks }
    have hfreeAt : freeAt e.1 w1 = .ok ((), { w1 with heap := Function.update w1.heap e.1 none }) :=
      freeAt_run hnode
    set w2 : World := { w1 with heap := Function.update w1.heap e.1 none }
    have hseg2 : Segment w2.heap (some e.1) rest none := hrest.congr fun a ha =>
      Function.update_of_ne (ne_of_mem_of_not_mem ha hnot) _ _
    have hlive2 : ∀ a ∈ rest.flatMap fun e => owned e.2, w2.blocks a ≠ none := by
      intro a ha
      have hfree : a ∉ owned e.2 := fun hin => hapart a hin a ha rfl
      change cleared (owned e.2) w.blocks a ≠ none
      rw [cleared, if_neg hfree]
      exact hlive a (List.mem_append_right _ ha)
    rw [first_cons]
    change freeFrom freeData (rounds + rest.length + 1) (some e.1) w = _
    rw [freeFrom, bind_of_ok (getNode_run hnode), bind_of_ok hdata, bind_of_ok hfreeAt,
      ih hseg2 hndrest hlive2 hndrest' (Nat.le_add_left _ _), ← cleared_append, addresses_cons,
      ← cleared_cons]

/-- The calls of `free_list` at the end of `cycle`, on the lists of the allocator. The processes are
not objects of this heap. -/
def freeLists : Prog Unit := do
  freeList .input fun _ => return
  freeList .memory freeBlock
  freeList .holes fun _ => return

/-- `free_list` on a list that is still as it was, whatever was freed before. -/
theorem freeList_run {i : ListName} {freeData : Addr → Prog Unit}
    {seqs : ListName → List (Addr × Addr)} {loose : List Addr} {w0 : World}
    (owned : Addr → List Addr)
    (h : Owned w0 seqs loose) (hlist : w.lists = w0.lists)
    (hheap : ∀ a ∈ addresses (seqs i), w.heap a = w0.heap a)
    (hfree : ∀ data w, (∀ a ∈ owned data, w.blocks a ≠ none) →
      freeData data w = .ok ((), { w with blocks := cleared (owned data) w.blocks }))
    (hlive : ∀ a ∈ (seqs i).flatMap fun e => owned e.2, w.blocks a ≠ none)
    (hnd : ((seqs i).flatMap fun e => owned e.2).Nodup) :
    freeList i freeData w = .ok ((), { w with
      heap := cleared (addresses (seqs i)) w.heap
      blocks := cleared ((seqs i).flatMap fun e => owned e.2) w.blocks }) := by
  have hlinked := h.separate.linked i
  have hheader : w.lists i = w0.lists i := congrFun hlist i
  rw [freeList, bind_of_ok getList_run, hheader, hlinked.head, h.rounds]
  exact freeFrom_run hfree (hlinked.segment.congr hheap) hlinked.nodup hlive hnd le_rfl

theorem blank_run (w : World) :
    (pure () : Prog Unit) w = .ok ((), { w with blocks := cleared [] w.blocks }) := by
  rw [cleared_nil]
  rfl

theorem freeBlock_cleared (data : Addr) (w : World) (h : ∀ a ∈ [data], w.blocks a ≠ none) :
    freeBlock data w = .ok ((), { w with blocks := cleared [data] w.blocks }) := by
  obtain ⟨block, hblock⟩ := Option.ne_none_iff_exists'.mp (h data (by simp))
  rw [freeBlock_run hblock, ← cleared_cons, cleared_nil]

theorem mem_addresses_cleared {seqs : ListName → List (Addr × Addr)} {i j : ListName} {a : Addr}
    {heap : Heap Addr} (hdisjoint : ∀ a ∈ addresses (seqs i), a ∉ addresses (seqs j))
    (ha : a ∈ addresses (seqs i)) : cleared (addresses (seqs j)) heap a = heap a :=
  if_neg (hdisjoint a ha)

/-- At the end every node and every block is freed, once. -/
theorem freeLists_names (h : Names N w st []) :
    ∃ w', freeLists w = .ok ((), w') ∧ (∀ a, w'.heap a = none) ∧ ∀ a, w'.blocks a = none := by
  have hdisjoint := h.owned.separate.disjoint
  have hnone : ∀ l : List (Addr × Addr), (l.flatMap fun _ => ([] : List Addr)) = [] := by simp
  have hblocks : ((N.seqs st .memory).flatMap fun e => [e.2]) = st.memory.map N.block := by
    rw [← List.map_eq_flatMap, Naming.seqs, List.map_map]
    rfl
  -- the input queue, with none of its data
  obtain ⟨w1, h1, hlists1, hheap1, hblocks1⟩ : ∃ w1, freeList .input (fun _ => return) w =
      .ok ((), w1) ∧ w1.lists = w.lists ∧
      w1.heap = cleared (addresses (N.seqs st .input)) w.heap ∧ w1.blocks = w.blocks := by
    refine ⟨_, freeList_run (fun _ => []) h.owned rfl (fun _ _ => rfl) (fun _ w _ => blank_run w)
      (by simp) ((hnone _).symm ▸ List.nodup_nil), rfl, rfl, ?_⟩
    rw [hnone, cleared_nil]
  -- the memory list, with its blocks
  obtain ⟨w2, h2, hlists2, hheap2, hblocks2⟩ : ∃ w2, freeList .memory freeBlock w1 =
      .ok ((), w2) ∧ w2.lists = w.lists ∧
      w2.heap = cleared (addresses (N.seqs st .memory)) w1.heap ∧
      w2.blocks = cleared (st.memory.map N.block) w.blocks := by
    refine ⟨_, freeList_run (fun data => [data]) h.owned hlists1 (fun a ha => ?_)
      freeBlock_cleared ?_ ?_, hlists1, rfl, ?_⟩
    · rw [hheap1, mem_addresses_cleared (hdisjoint _ _ (by simp)) ha]
    · rw [hblocks, hblocks1]
      exact fun a ha => (h.live a).mpr (Or.inr ha)
    · rw [hblocks]
      exact h.distinct
    · rw [hblocks, hblocks1]
  -- the index, whose data are already free
  obtain ⟨w3, h3, hheap3, hblocks3⟩ : ∃ w3, freeList .holes (fun _ => return) w2 =
      .ok ((), w3) ∧ w3.heap = cleared (addresses (N.seqs st .holes)) w2.heap ∧
      w3.blocks = w2.blocks := by
    refine ⟨_, freeList_run (fun _ => []) h.owned hlists2 (fun a ha => ?_)
      (fun _ w _ => blank_run w) (by simp) ((hnone _).symm ▸ List.nodup_nil), rfl, ?_⟩
    · rw [hheap2, mem_addresses_cleared (hdisjoint _ _ (by simp)) ha, hheap1,
        mem_addresses_cleared (hdisjoint _ _ (by simp)) ha]
    · rw [hnone, cleared_nil]
  refine ⟨w3, ?_, fun a => ?_, fun a => ?_⟩
  · rw [freeLists, bind_of_ok h1, bind_of_ok h2]
    exact h3
  · rw [hheap3, hheap2, hheap1, cleared_append, cleared_append, cleared]
    split
    · rfl
    · rename_i hout
      simp only [List.mem_append, not_or] at hout
      by_contra hne
      obtain ⟨i, hi⟩ := ((h.owned.live a).mp hne).resolve_left List.not_mem_nil
      cases i with
      | input => exact hout.1 hi
      | memory => exact hout.2.1 hi
      | holes => exact hout.2.2 hi
  · rw [hblocks3, hblocks2, cleared]
    split
    · rfl
    · rename_i hout
      by_contra hne
      exact hout (((h.live a).mp hne).resolve_left List.not_mem_nil)

/-- Any legal requests in any order, with any `malloc`: no pointer is followed to no object, nothing
is freed twice and no loop runs past its list; and unless `malloc` returns NULL, the lists, the
blocks, the processes and the READY lines are those of the sequences. -/
theorem allocator_refines (hfresh : Fresh malloc) (hnone : ∀ p, (procs p).blockNode = none)
    (hlegal : LegalRun (startManaged procs) requests) :
    ∃ m, applyRequests (startManaged procs) requests = .ok m ∧ m.Sound ∧
      Meets (OutOfMemory malloc) (serve malloc requests) (blankWorld procs) fun _ w =>
        Carries w m :=
  serve_carried hfresh hnone hlegal

/-- The lowest of 64 addresses with nothing there, so that freed ones are used again. -/
def lowestFree (w : World) : Option Addr :=
  (List.range 64).find? fun a => (w.heap a).isNone && (w.blocks a).isNone

theorem lowestFree_fresh : Fresh lowestFree := by
  intro w a ha
  have hfree := List.find?_some ha
  rwa [Bool.and_eq_true, Option.isNone_iff_eq_none, Option.isNone_iff_eq_none] at hfree

/-- Two processes arrive and get their memory, and the first one ends. -/
def someRequests : List Request :=
  [.arrive 0, .arrive 1, .allocate (.list []), .release 0, .allocate (.list [])]

theorem someRequests_legal : LegalRun (startManaged (loadedProcs twoJobs)) someRequests := by
  refine ⟨⟨by simp [startManaged], rfl⟩, fun m1 h1 => ?_⟩
  obtain rfl := Except.ok.inj h1
  refine ⟨⟨by simp [startManaged], rfl⟩, fun m2 h2 => ?_⟩
  obtain rfl := Except.ok.inj h2
  refine ⟨⟨.rr, rfl⟩, fun m3 h3 => ⟨?_, fun m4 _ => ⟨⟨.rr, rfl⟩, fun _ _ => trivial⟩⟩⟩
  have hblock := congrArg (Except.map fun m => (m.store.procs 0).blockNode) h3
  have hgiven : Except.ok (some 1) = Except.map (fun m => (m.store.procs 0).blockNode) (.ok m3) :=
    Eq.trans (by rfl) hblock
  exact fun hnone => by simp [Except.map, hnone] at hgiven

theorem allocator_refines_twoJobs : ∃ r m,
    serve lowestFree someRequests (blankWorld (loadedProcs twoJobs)) = .ok r ∧
      applyRequests (startManaged (loadedProcs twoJobs)) someRequests = .ok m ∧ Carries r.2 m := by
  obtain ⟨m, h⟩ := allocator_refines lowestFree_fresh (fun _ => rfl) someRequests_legal
  obtain ⟨r, hserve, hcarries⟩ := Meets.exists_ok h.2.2 (by decide +kernel)
  exact ⟨r, m, hserve, h.1, hcarries⟩

/-- After any legal requests, the frees at the end of `cycle` leave no node and no block behind. -/
theorem allocator_frees_all (hfresh : Fresh malloc) (hnone : ∀ p, (procs p).blockNode = none)
    (hlegal : LegalRun (startManaged procs) requests) :
    Meets (OutOfMemory malloc) (do serve malloc requests; freeLists) (blankWorld procs) fun _ w =>
      (∀ a, w.heap a = none) ∧ ∀ a, w.blocks a = none := by
  obtain ⟨m, -, -, hmeets⟩ := serve_carried hfresh hnone hlegal
  refine hmeets.bind fun _ w hw => ?_
  obtain ⟨N, h, -, -⟩ := hw
  obtain ⟨w', hrun, hheap, hblocks⟩ := freeLists_names h
  exact (meets_ok hrun).mpr ⟨hheap, hblocks⟩

theorem allocator_frees_all_twoJobs : ∃ r, (do serve lowestFree someRequests; freeLists : Prog Unit)
    (blankWorld (loadedProcs twoJobs)) = .ok r ∧ (∀ a, r.2.heap a = none) ∧
      ∀ a, r.2.blocks a = none :=
  Meets.exists_ok (allocator_frees_all lowestFree_fresh (fun _ => rfl) someRequests_legal)
    (by decide +kernel)

end ProcessManager.Raw
