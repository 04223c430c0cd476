import ProcessManager.Makespan
import ProcessManager.NumCycles

/-! Which runs leave the loop. -/
namespace ProcessManager

open Loop

variable {cfg : Config} {workload : List Record} {s s' : State} {p : ProcId}
  {events : List Event} {n : ℕ}

end ProcessManager
