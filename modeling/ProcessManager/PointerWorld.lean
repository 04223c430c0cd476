import ProcessManager.ListRefinement
import ProcessManager.MemoryAllocation
import ProcessManager.Library.Fallible

/-! What `memory_allocation.c` reads and writes, at the level of its pointers: the nodes of all its
lists on one heap, and the blocks the memory nodes point to. -/
namespace ProcessManager.Raw

open DoublyLinked Fallible Pointer

/-- The lists of `allocate_memory`. A node of `memory` holds the address of a block, a node of
`holes` the address of a memory node, and a node of `input` a process. -/
inductive ListName
  | input
  | memory
  | holes
  deriving DecidableEq

/-- Why a run stops: a pointer that leads to no object was followed or freed, a loop went on for more
rounds than its list has items, or `malloc` returned NULL and the assertion behind it failed. -/
inductive Crash
  | wild
  | endless
  | assertion
  deriving DecidableEq

/-- The block node of a process is an address. `readyLines` lists the processes passed to
`insert`, with the `assigned_at` of their READY lines. -/
structure World extends Memory ListName Addr where
  blocks : Addr → Option Block
  procs : ProcTable
  readyLines : List (ProcId × ℤ)

abbrev Prog := StateT World (Except Crash)

def getNode (a : Addr) : Prog (Node Addr) := fun w =>
  match w.heap a with
  | some node => .ok (node, w)
  | none => .error .wild

def getBlock (a : Addr) : Prog Block := fun w =>
  match w.blocks a with
  | some block => .ok (block, w)
  | none => .error .wild

def setBlock (a : Addr) (block : Block) : Prog Unit := do
  let _ ← getBlock a
  modify fun w => { w with blocks := Function.update w.blocks a (some block) }

/-- `free` of a node. -/
def freeAt (a : Addr) : Prog Unit := do
  let _ ← getNode a
  modify fun w => { w with heap := Function.update w.heap a none }

/-- `free` of a block. -/
def freeBlock (a : Addr) : Prog Unit := do
  let _ ← getBlock a
  modify fun w => { w with blocks := Function.update w.blocks a none }

/-- `malloc` and the assertion on its result. -/
def newObject (malloc : World → Option Addr) : Prog Addr := fun w =>
  match malloc w with
  | some a => .ok (a, w)
  | none => .error .assertion

/-- `malloc` returns NULL or an address at which there is no object. -/
def Fresh (malloc : World → Option Addr) : Prop :=
  ∀ w a, malloc w = some a → w.heap a = none ∧ w.blocks a = none

/-- A list operation on the heap and the header. -/
def onList (i : ListName) (call : Heap Addr → Header → Option (Heap Addr × Header)) :
    Prog Unit := fun w =>
  match call w.heap (w.lists i) with
  | some (heap, list) =>
    .ok ((), { w with heap := heap, lists := Function.update w.lists i list })
  | none => .error .wild

def getList (i : ListName) : Prog Header := fun w => .ok (w.lists i, w)

/-- `delete_node`. -/
def deleteNode (i : ListName) (node : Addr) : Prog Unit :=
  onList i fun heap list => Pointer.deleteNode heap list (some node)

/-- `insert_node`. -/
def insertNode (malloc : World → Option Addr) (i : ListName) (data : Addr)
    (prev next : Option Addr) : Prog Addr := do
  let new ← newObject malloc
  onList i fun heap list => Pointer.insertNode heap list new data prev next
  return new

/-- `enqueue`, which refuses NULL. -/
def enqueue (malloc : World → Option Addr) (i : ListName) : Option Addr → Prog Bool
  | none => return false
  | some data => do
    let new ← newObject malloc
    onList i fun heap list =>
      (Pointer.enqueue heap list new (some data)).map fun (heap, list, _) => (heap, list)
    return true

/-- `get_size(get_data(node))`. -/
def getSize (node : Addr) : Prog ℤ := do
  let block ← getBlock (← getNode node).data
  return block.size

/-- The loop of `insert_node_sorted` with `get_size`. -/
def findPlace (value : ℤ) : ℕ → Option Addr → Option Addr → Prog (Option Addr × Option Addr)
  | 0, _, _ => throw .endless
  | _ + 1, prev, none => return (prev, none)
  | rounds + 1, prev, some curr => do
    let node ← getNode curr
    if compareInts (← getSize node.data) value < 0 then
      findPlace value rounds (some curr) node.next
    else return (prev, some curr)

/-- What `insert_node_sorted` writes once the place is found. -/
def linkSorted (heap : Heap Addr) (list : Header) (new data : Addr) (prev curr : Option Addr) :
    Option (Heap Addr × Header) :=
  let heap := createNode heap new data curr prev
  let numItems := list.numItems + 1
  if list.numItems = 0 then some (heap, ⟨some new, some new, numItems⟩)
  else
    match prev, curr with
    | none, curr =>
      (heap.setPrev curr (some new)).map fun heap =>
        (heap, { list with head := some new, numItems := numItems })
    | some prev, none =>
      (heap.setNext (some prev) (some new)).map fun heap =>
        (heap, { list with tail := some new, numItems := numItems })
    | some prev, some curr =>
      (heap.setNext (some prev) (some new)).bind fun heap =>
        (heap.setPrev (some curr) (some new)).map fun heap =>
          (heap, { list with numItems := numItems })

/-- `insert_node_sorted` by `compare_ints` and `get_size`. -/
def insertNodeSorted (malloc : World → Option Addr) (i : ListName) (blockNode : Addr) :
    Prog Unit := do
  let list ← getList i
  let value ← getSize blockNode
  let (prev, curr) ← findPlace value (list.numItems.toNat + 1) none list.head
  let new ← newObject malloc
  onList i fun heap list => linkSorted heap list new blockNode prev curr

/-- `free_node` with `free`, on a node that holds a block. -/
def freeNode (node : Addr) : Prog Unit := do
  freeBlock (← getNode node).data
  freeAt node

/-- The loop of `delete_node_by_data`, which has no end test. -/
def findData (data : Addr) : ℕ → Option Addr → Prog Addr
  | 0, _ => throw .endless
  | _ + 1, none => throw .wild
  | rounds + 1, some curr => do
    let node ← getNode curr
    if node.data ≠ data then findData data rounds node.next else return curr

/-- `delete_node_by_data` with `free`. -/
def deleteNodeByData (i : ListName) (data : Addr) : Prog Unit := do
  let list ← getList i
  let curr ← findData data (list.numItems.toNat + 1) list.head
  deleteNode i curr
  freeNode (← getNode curr).data
  freeAt curr

/-- The loop of `free_list`. -/
def freeFrom (freeData : Addr → Prog Unit) : ℕ → Option Addr → Prog Unit
  | _, none => return
  | 0, some _ => throw .endless
  | rounds + 1, some prev => do
    let node ← getNode prev
    freeData node.data
    freeAt prev
    freeFrom freeData rounds node.next

/-- `free_list`. -/
def freeList (i : ListName) (freeData : Addr → Prog Unit) : Prog Unit := do
  let list ← getList i
  freeFrom freeData list.numItems.toNat list.head

/-- `create_block`. -/
def createBlock (malloc : World → Option Addr) (type : BlockType) (start size : ℤ) :
    Prog Addr := do
  let block ← newObject malloc
  modify fun w => { w with blocks := Function.update w.blocks block (some ⟨type, start, size⟩) }
  return block

/-- `initialise_memory`. -/
def initialiseMemory (malloc : World → Option Addr) : Prog Unit := do
  let initHole ← createBlock malloc .hole 0 memCapacity
  let _ ← enqueue malloc .memory (some initHole)
  let _ ← enqueue malloc .holes (← getList .memory).head

/-- `get_value(process, MEMORY_REQUIREMENT)`. -/
def getMemRequirement (p : ProcId) : Prog ℤ := fun w => .ok ((w.procs p).memRequirement, w)

/-- `set_block_node`. -/
def setBlockNode (p : ProcId) (node : Option Addr) : Prog Unit :=
  modify fun w => { w with procs := ProcessManager.setBlockNode w.procs p node }

/-- The branches of `split`: the node of a hole with nothing left is freed, else it goes back into
the index. The result is the node in front of which the process goes. -/
def placeRest (malloc : World → Option Addr) (node : Addr) (size : ℤ) : Prog (Option Addr) :=
  if size = 0 then do
    deleteNode .memory node
    let next := (← getNode node).next
    freeNode node
    return next
  else do
    insertNodeSorted malloc .holes node
    return some node

/-- `split`. -/
def split (malloc : World → Option Addr) (p : ProcId) (node : Addr) : Prog Unit := do
  let oldBlock := (← getNode node).data
  let old ← getBlock oldBlock
  let newSize ← getMemRequirement p
  let newBlock ← createBlock malloc .process old.startAddress newSize
  setBlock oldBlock ⟨.hole, old.startAddress + newSize, old.size - newSize⟩
  let prevNode := (← getNode node).prev
  let next ← placeRest malloc node (old.size - newSize)
  let newNode ← insertNode malloc .memory newBlock prevNode next
  setBlockNode p (some newNode)

/-- The loop of `best_fit`: the first hole that is large enough. -/
def findHole (need : ℤ) : ℕ → Option Addr → Prog (Option Addr)
  | 0, _ => throw .endless
  | _ + 1, none => return none
  | rounds + 1, some curr => do
    let node ← getNode curr
    if (← getSize node.data) ≥ need then return some curr
    else findHole need rounds node.next

/-- `best_fit`. -/
def bestFit (malloc : World → Option Addr) (p : ProcId) : Prog Bool := do
  let holes ← getList .holes
  let need ← getMemRequirement p
  match ← findHole need (holes.numItems.toNat + 1) holes.head with
  | none => return false
  | some bestFit => do
    deleteNode .holes bestFit
    let memNode := (← getNode bestFit).data
    freeAt bestFit
    split malloc p memNode
    return true

/-- `process_ready` with the strategy `best-fit`. -/
def processReady (p : ProcId) : Prog Unit := do
  modify fun w => { w with procs := setState w.procs p .ready }
  match ((← get).procs p).blockNode with
  | none => throw .wild
  | some node => do
    let block ← getBlock (← getNode node).data
    modify fun w => { w with readyLines := w.readyLines ++ [(p, block.startAddress)] }

/-- The loop of `allocate_memory` with the strategy `best-fit`. -/
def fitInput (malloc : World → Option Addr) : ℕ → Option Addr → Prog Unit
  | _, none => return
  | 0, some _ => throw .endless
  | rounds + 1, some curr => do
    let process := (← getNode curr).data
    let isSpace ← bestFit malloc process
    if isSpace then do
      processReady process
      deleteNode .input curr
    let next := (← getNode curr).next
    if isSpace then freeAt curr
    fitInput malloc rounds next

/-- `allocate_memory` with the strategy `best-fit`. -/
def allocateMemory (malloc : World → Option Addr) : Prog Unit := do
  let input ← getList .input
  fitInput malloc input.numItems.toNat input.head

/-- `update_memory`. -/
def updateMemory (mainNode adjNode : Addr) : Prog Unit := do
  let adjBlock ← getBlock (← getNode adjNode).data
  let main := (← getNode mainNode).data
  let mainBlock ← getBlock main
  let start :=
    if adjBlock.startAddress < mainBlock.startAddress then adjBlock.startAddress
    else mainBlock.startAddress
  setBlock main { mainBlock with startAddress := start, size := mainBlock.size + adjBlock.size }
  deleteNode .memory adjNode
  deleteNodeByData .holes adjNode

/-- The loop of `check_direction`. -/
def mergeHoles (getDir : Node Addr → Option Addr) (blockNode : Addr) : ℕ → Addr → Prog Unit
  | 0, _ => throw .endless
  | rounds + 1, curr => do
    let node ← getNode curr
    let block ← getBlock node.data
    if block.type = .hole then do
      updateMemory blockNode curr
      match getDir node with
      | none => return
      | some next => mergeHoles getDir blockNode rounds next
    else return

/-- `check_direction`. -/
def checkDirection (getDir : Node Addr → Option Addr) (blockNode : Addr) : Prog Unit := do
  let memory ← getList .memory
  match getDir (← getNode blockNode) with
  | none => throw .wild
  | some curr => mergeHoles getDir blockNode (memory.numItems.toNat + 1) curr

/-- One of the two sides in `deallocate_memory`, where there is a node. -/
def checkSide (getDir : Node Addr → Option Addr) (blockNode : Addr) : Prog Unit := do
  if getDir (← getNode blockNode) ≠ none then checkDirection getDir blockNode

/-- `deallocate_memory` with the strategy `best-fit`. -/
def deallocateMemory (malloc : World → Option Addr) (p : ProcId) : Prog Unit := do
  match ((← get).procs p).blockNode with
  | none => throw .wild
  | some blockNode => do
    let data := (← getNode blockNode).data
    setBlock data { ← getBlock data with type := .hole }
    checkSide Node.next blockNode
    checkSide Node.prev blockNode
    insertNodeSorted malloc .holes blockNode
    setBlockNode p none

end ProcessManager.Raw
