import ProcessManager.ReadyQueue

/-! `memory_allocation.c`. A memory node is its address; `memory` and `holes` are the two lists
of node addresses, and a node's block is read and written through its address. -/
namespace ProcessManager

/-- `enum block_type`. -/
inductive BlockType
  | process
  | hole
  deriving DecidableEq, Repr

/-- `struct block`. The two numbers are `int` values; requirements of at least 1 keep them between 0
and the capacity. -/
structure Block where
  type : BlockType
  startAddress : ℤ
  size : ℤ
  deriving DecidableEq, Repr

/-- The two values of the `-m` option. -/
inductive MemStrategy
  | infinite
  | bestFit
  deriving DecidableEq, Repr

def memCapacity : ℤ := 2048

/-- Everything the allocator reads and writes. `nextNode` is the address of the next `malloc`,
so addresses are never handed out twice. -/
structure Store where
  procs : ProcTable
  block : NodeId → Block
  memory : List NodeId
  holes : List NodeId
  nextNode : NodeId

/-- What a run does and prints. The first two stand for calls that print nothing. -/
inductive Event
  /-- `update_input` moves a process to the input queue. -/
  | arrive (p : ProcId)
  /-- A process enters the ready queue, which holds `ahead` at that moment. -/
  | insert (p : ProcId) (ahead : List ProcId)
  /-- The READY line. -/
  | ready (p : ProcId) (assignedAt : ℤ)
  /-- `start_real_process`. -/
  | start (p : ProcId)
  /-- `continue_process`. -/
  | cont (p : ProcId)
  /-- `suspend_process`. -/
  | stop (p : ProcId)
  /-- The signal that ends the real process, in `finish_process`. -/
  | term (p : ProcId)
  /-- The RUNNING line. -/
  | running (p : ProcId) (remainingTime : ℕ)
  /-- The FINISHED line. -/
  | finished (p : ProcId) (procRemaining : ℕ)
  deriving DecidableEq, Repr

/-- `get_size` through a node. -/
def Store.getSize (st : Store) (node : NodeId) : ℤ := (st.block node).size

/-- `set_block_node`. -/
def setBlockNode (procs : ProcTable) (p : ProcId) (node : Option NodeId) : ProcTable :=
  Function.update procs p { procs p with blockNode := node }

/-- `set_state`. -/
def setState (procs : ProcTable) (p : ProcId) (state : ProcessState) : ProcTable :=
  Function.update procs p { procs p with state := state }

/-- `initialise_memory`: one hole of the whole capacity, in both lists. -/
def initialiseMemory (procs : ProcTable) : Store where
  procs := procs
  block := fun _ => ⟨.hole, 0, memCapacity⟩
  memory := [0]
  holes := [0]
  nextNode := 1

/-- `split`: the process takes the low end of the hole. The hole's node keeps the rest and goes
back into the index, or is freed when nothing is left. -/
def split (st : Store) (p : ProcId) (node : NodeId) : Store :=
  let oldBlock := st.block node
  let newSize := (st.procs p).memRequirement
  let newBlock : Block := ⟨.process, oldBlock.startAddress, newSize⟩
  let rest : Block := ⟨.hole, oldBlock.startAddress + newSize, oldBlock.size - newSize⟩
  let newNode := st.nextNode
  let prevNode := getPrev st.memory node
  let st := { st with block := Function.update st.block node rest }
  let st :=
    if rest.size = 0 then
      { st with
        memory := insertNode (deleteNode st.memory node) newNode prevNode
          (getNext st.memory node) }
    else
      { st with
        holes := insertNodeSorted compareInts st.getSize node st.holes
        memory := insertNode st.memory newNode prevNode (some node) }
  { st with
    block := Function.update st.block newNode newBlock
    nextNode := newNode + 1
    procs := setBlockNode st.procs p (some newNode) }

/-- `best_fit`: the first hole of the index that is large enough is taken out of it and split. -/
def bestFit (st : Store) (p : ProcId) : Store × Bool :=
  match st.holes.find? fun node => (st.procs p).memRequirement ≤ st.getSize node with
  | none => (st, false)
  | some node => (split { st with holes := deleteNode st.holes node } p node, true)

/-- What one pass of `allocate_memory` works on, with the events it has caused so far. -/
structure Pass where
  store : Store
  ready : ReadyQueue
  events : List Event

/-- `process_ready`. -/
def processReady (strategy : MemStrategy) (pass : Pass) (p : ProcId) : Except Fault Pass := do
  let procs := setState pass.store.procs p .ready
  let ready ← pass.ready.insert procs p
  let pass : Pass := ⟨{ pass.store with procs := procs }, ready,
    pass.events ++ [.insert p pass.ready.items]⟩
  match strategy with
  | .infinite => return pass
  | .bestFit =>
    match (procs p).blockNode with
    | none => .error .nullBlock
    | some node =>
      return { pass with
        events := pass.events ++ [.ready p (pass.store.block node).startAddress] }

/-- The `infinite` branch of `allocate_memory`: the input queue is drained. -/
def drainInput (pass : Pass) : List ProcId → Except Fault Pass
  | [] => return pass
  | p :: rest => do
    let pass ← processReady .infinite pass p
    drainInput pass rest

/-- The `best-fit` branch of `allocate_memory`: each process that fits is deleted from the input
queue; the result is what stays in it. -/
def fitInput (pass : Pass) : List ProcId → Except Fault (Pass × List ProcId)
  | [] => return (pass, [])
  | p :: rest =>
    match bestFit pass.store p with
    | (store, true) => do
      let pass ← processReady .bestFit { pass with store := store } p
      fitInput pass rest
    | (store, false) => do
      let (pass, input) ← fitInput { pass with store := store } rest
      return (pass, p :: input)

/-- `allocate_memory`: the input queue that is left, with the rest of what changed. -/
def allocateMemory (strategy : MemStrategy) (store : Store) (input : List ProcId)
    (ready : ReadyQueue) : Except Fault (Pass × List ProcId) :=
  match strategy with
  | .infinite => do
    let pass ← drainInput ⟨store, ready, []⟩ input
    return (pass, [])
  | .bestFit => fitInput ⟨store, ready, []⟩ input

/-- `update_memory`: the main block takes over the adjacent hole, whose node leaves both lists. -/
def updateMemory (st : Store) (mainNode adjNode : NodeId) : Except Fault Store :=
  let adjBlock := st.block adjNode
  let mainBlock := st.block mainNode
  let start :=
    if adjBlock.startAddress < mainBlock.startAddress then adjBlock.startAddress
    else mainBlock.startAddress
  let merged := { mainBlock with startAddress := start, size := mainBlock.size + adjBlock.size }
  match deleteNodeByData st.holes adjNode with
  | none => .error .searchPastEnd
  | some holes =>
    .ok { st with
      block := Function.update st.block mainNode merged
      memory := deleteNode st.memory adjNode
      holes := holes }

/-- `check_direction` along the nodes that `get_dir` leads to: the next one is fetched before its
predecessor is unlinked, so the walk is along the list as it was. -/
def checkDirection (mainNode : NodeId) (st : Store) : List NodeId → Except Fault Store
  | [] => .ok st
  | curr :: rest =>
    if (st.block curr).type = .hole then do
      let st ← updateMemory st mainNode curr
      checkDirection mainNode st rest
    else .ok st

/-- `deallocate_memory`. The strategy `infinite` is neither of the names it tests for. -/
def deallocateMemory (strategy : MemStrategy) (st : Store) (p : ProcId) : Except Fault Store :=
  match strategy with
  | .infinite => .ok st
  | .bestFit =>
    match (st.procs p).blockNode with
    | none => .error .nullBlock
    | some node => do
      let freed := { st.block node with type := .hole }
      let st := { st with block := Function.update st.block node freed }
      let st ← checkDirection node st (nodesAfter st.memory node)
      let st ← checkDirection node st (nodesBefore st.memory node).reverse
      return { st with
        holes := insertNodeSorted compareInts st.getSize node st.holes
        procs := setBlockNode st.procs p none }

end ProcessManager
