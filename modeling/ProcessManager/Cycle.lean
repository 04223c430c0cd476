import ProcessManager.MemoryAllocation
import ProcessManager.Library.Loop

/-! The simulation loop of `main.c`. One pass of the `for` loop of `cycle` is `cycleBody`; a
process is driven through its pointer, so driving NULL is a fault. -/
namespace ProcessManager

open Loop

/-- The arguments of a run, with what it takes from its surroundings: the clock `sim_time` is
counted with and the positive pid each `fork` returns. -/
structure Config where
  scheduler : Scheduler
  memStrategy : MemStrategy
  quantum : ℕ
  quantum_pos : 1 ≤ quantum
  quantum_int : quantum < 2 ^ 31
  clock : Clock
  fork : ProcId → ℕ+

/-- An event with the pass of the loop and the simulated time it belongs to. -/
structure Entry where
  cycle : ℕ
  simTime : ℕ
  event : Event
  deriving DecidableEq, Repr

/-- The variables of `cycle`, with what its lists and processes hold and what happened so far. The
trace counts the passes, which the `int` of the loop does only up to its range. -/
structure State where
  simTime : ℕ
  passes : ℕ
  noProcessRunning : Bool
  numProcesses : ℕ
  processes : List ProcId
  inputQueue : List ProcId
  readyQueue : ReadyQueue
  finishedQueue : List ProcId
  currentProcess : Option ProcId
  store : Store
  trace : List Entry

/-- The processes as `load_processes` leaves them. -/
def loadedProcs (workload : List Record) : ProcTable := fun p =>
  createProcess (workload.getD p ⟨0, [], 0, 0⟩)

/-- `num_cycles`: an `int`, so that it is 0 again after every `2 ^ 32` passes. -/
def State.numCycles (s : State) : Int32 := Int32.ofNat s.passes

/-- The variables before the loop. The ready queue and `no_process_running` get their first value
in the first pass. -/
def initialState (cfg : Config) (workload : List Record) : State where
  simTime := 0
  passes := 0
  noProcessRunning := false
  numProcesses := workload.length
  processes := List.range workload.length
  inputQueue := []
  readyQueue := createReady cfg.scheduler
  finishedQueue := []
  currentProcess := none
  store := initialiseMemory (loadedProcs workload)
  trace := []

def State.procs (s : State) : ProcTable := s.store.procs

@[simp] theorem State.store_procs (s : State) : s.store.procs = s.procs := rfl

@[simps simTime passes noProcessRunning numProcesses processes inputQueue readyQueue
  finishedQueue currentProcess trace]
def State.setProcs (s : State) (procs : ProcTable) : State :=
  { s with store := { s.store with procs := procs } }

@[simp] theorem State.setProcs_store (s : State) (procs : ProcTable) :
    (s.setProcs procs).store = { s.store with procs := procs } := rfl

@[simp] theorem State.procs_setProcs (s : State) (procs : ProcTable) :
    (s.setProcs procs).procs = procs := rfl

@[simps]
def State.emit (s : State) (events : List Event) : State :=
  { s with trace := s.trace ++ events.map fun e => ⟨s.passes, s.simTime, e⟩ }

@[simp] theorem State.procs_emit (s : State) (events : List Event) :
    (s.emit events).procs = s.procs := rfl

@[simp] theorem State.procs_mk (simTime passes : ℕ) (noProcessRunning : Bool)
    (numProcesses : ℕ) (processes inputQueue : List ProcId) (readyQueue : ReadyQueue)
    (finishedQueue : List ProcId) (currentProcess : Option ProcId) (store : Store)
    (trace : List Entry) :
    (State.mk simTime passes noProcessRunning numProcesses processes inputQueue readyQueue
      finishedQueue currentProcess store trace).procs = store.procs := rfl

/-- `update_input`: the processes at the head of the list that have arrived by now. -/
def updateInput (s : State) : State :=
  let arrived p : Bool := (s.procs p).arrivalTime ≤ s.simTime
  { s with
    processes := s.processes.dropWhile arrived
    inputQueue := s.inputQueue ++ s.processes.takeWhile arrived }.emit
      ((s.processes.takeWhile arrived).map .arrive)

/-- The call of `allocate_memory`. -/
def allocate (cfg : Config) (s : State) : Except Fault State := do
  let (pass, input) ← allocateMemory cfg.memStrategy s.store s.inputQueue s.readyQueue
  return { s with
    store := pass.store, inputQueue := input, readyQueue := pass.ready }.emit pass.events

/-- `update_input` and then `allocate_memory`. -/
def admitInput (cfg : Config) (s : State) : Except Fault State := allocate cfg (updateInput s)

/-- `continue_process`. -/
def continueProcess (s : State) : Option ProcId → Except Fault State
  | none => .error .nullProcess
  | some p => .ok (s.emit [.cont p])

/-- `suspend_process`. -/
def suspendProcess (s : State) : Option ProcId → Except Fault State
  | none => .error .nullProcess
  | some p => .ok (s.emit [.stop p])

/-- `start_real_process`: the pid the parent gets from `fork` is stored. -/
def startRealProcess (cfg : Config) (s : State) (p : ProcId) : State :=
  (s.emit [.start p]).setProcs
    (Function.update s.procs p { s.procs p with pid := cfg.fork p })

/-- The rest of `run_next_process` for the process it extracted: a first dispatch starts the real
process, a later one continues it. -/
def runProcess (cfg : Config) (s : State) (p : ProcId) : State :=
  let s := if (s.procs p).pid = 0 then startRealProcess cfg s p else s.emit [.cont p]
  let s := s.setProcs (setState s.procs p .running)
  { s with currentProcess := some p }.emit [.running p (s.procs p).serviceTimeLeft]

/-- `run_next_process`, with the assignment of its result to `current_process`. -/
def runNextProcess (cfg : Config) (s : State) : Except Fault State :=
  if s.readyQueue.isEmpty then return { s with currentProcess := none }
  else do
    let (extracted, ready) ← s.readyQueue.extract s.procs
    match extracted with
    | none => .error .nullProcess
    | some p => return runProcess cfg { s with readyQueue := ready } p

/-- `finish_process` up to the deallocation. -/
def retireProcess (cfg : Config) (s : State) (p : ProcId) (procRemaining : ℕ) : State :=
  let s := s.setProcs (setState s.procs p .finished)
  let s := { s with finishedQueue := s.finishedQueue ++ [p] }.emit
    [.finished p procRemaining, .term p]
  let process := { s.procs p with finishTime := s.simTime }
  s.setProcs (Function.update s.procs p (updateStats cfg.clock process))

/-- `finish_process`. -/
def finishProcess (cfg : Config) (s : State) (p : ProcId) (procRemaining : ℕ) :
    Except Fault State := do
  let s := retireProcess cfg s p procRemaining
  let store ← deallocateMemory cfg.memStrategy s.store p
  return { s with store := store }

/-- The last statement of a pass, with the counter of the loop. -/
@[simps]
def State.tick (cfg : Config) (s : State) : State :=
  { s with
    simTime := cfg.clock.wrap (s.simTime + cfg.quantum), passes := s.passes + 1 }

@[simp] theorem State.procs_tick (cfg : Config) (s : State) : (s.tick cfg).procs = s.procs := rfl

/-- The pass with `num_cycles == 0`, the same for both schedulers up to the kind of queue. -/
def firstCycle (cfg : Config) (s : State) : Except Fault State := do
  let s := updateInput s
  let s := { s with readyQueue := createReady cfg.scheduler }
  let s ← allocate cfg s
  let s ← runNextProcess cfg s
  return { s with noProcessRunning := false }.tick cfg

/-- The quantum that has passed is charged to the current process, which may finish by it. Only
SJF resets `current_process` then. -/
def chargeQuantum (cfg : Config) (s : State) : Except Fault (State × Bool) :=
  match updateTime cfg.quantum s.procs s.currentProcess, s.currentProcess with
  | (procs, true), some p => do
    let s := s.setProcs procs
    let s ← finishProcess cfg s p (s.inputQueue.length + s.readyQueue.size)
    return ({ s with
      noProcessRunning := true
      currentProcess := if cfg.scheduler = .sjf then none else s.currentProcess }, true)
  | (procs, _), _ => return (s.setProcs procs, false)

/-- RR with a running process and others ready: the process is put back and the next one runs. -/
def preempt (cfg : Config) (s : State) : Except Fault State := do
  let s ← match s.currentProcess with
    | none => .ok s
    | some p => do
      let ready ← s.readyQueue.insert s.procs p
      .ok ({ s with readyQueue := ready }.emit [.insert p s.readyQueue.items])
  let s ← suspendProcess s s.currentProcess
  runNextProcess cfg s

/-- The scheduling step. -/
def schedule (cfg : Config) (s : State) : Except Fault State :=
  if s.noProcessRunning then
    if s.readyQueue.isEmpty then return { s with currentProcess := none }
    else do
      let s ← runNextProcess cfg s
      return { s with noProcessRunning := false }
  else
    match cfg.scheduler with
    | .sjf => continueProcess s s.currentProcess
    | .rr =>
      if s.readyQueue.isEmpty then continueProcess s s.currentProcess
      else preempt cfg s

/-- What a pass does after the quantum is charged. -/
def admitAndSchedule (cfg : Config) (s : State) : Except Fault State := do
  let s ← admitInput cfg s
  let s ← schedule cfg s
  return s.tick cfg

/-- One pass of the loop. -/
def cycleBody (cfg : Config) (s : State) : Outcome State Fault :=
  if s.numCycles = 0 then .ofExcept (firstCycle cfg s)
  else
    match chargeQuantum cfg s with
    | .error e => .fault e
    | .ok (s, finished) =>
      if finished ∧ s.finishedQueue.length = s.numProcesses then .done s
      else .ofExcept (admitAndSchedule cfg s)

/-- The run of `cycle` on a loaded list, after `n` passes. -/
def run (cfg : Config) (workload : List Record) (n : ℕ) : Outcome State Fault :=
  iterate (cycleBody cfg) (initialState cfg workload) n

/-- Quantum 2, with the pid 1 for every real process. -/
def sampleConfig (scheduler : Scheduler) (memStrategy : MemStrategy) : Config where
  scheduler := scheduler
  memStrategy := memStrategy
  quantum := 2
  quantum_pos := by decide
  quantum_int := by decide
  clock := .uint32
  fork _ := 1

/-- Two jobs of 3 and 2 units that arrive together. -/
def twoJobs : List Record := [⟨0, [65], 3, 8⟩, ⟨0, [66], 2, 16⟩]

end ProcessManager
