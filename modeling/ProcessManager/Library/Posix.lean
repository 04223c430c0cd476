import Mathlib

/-! Job-control signals as POSIX has them: masks, generation, delivery, and the stop a parent waits
for. -/
namespace Posix

inductive Signal
  | sigint
  | sigterm
  | sigtstp
  | sigcont
  | sigstop
  deriving DecidableEq, Repr

/-- The signals that stop a process by default. -/
def stopSignals : Finset Signal := {.sigtstp, .sigstop}

/-- What the kernel keeps of the signals of one process. `unreported` is a stop that no `waitpid`
has returned yet. -/
structure Signals where
  blocked : Finset Signal
  pending : Finset Signal
  stopped : Bool
  unreported : Bool
  deriving DecidableEq

/-- After `fork` and `execv` nothing is blocked or pending. -/
def Signals.fresh : Signals := ⟨∅, ∅, false, false⟩

/-- `sigprocmask` with `SIG_BLOCK`. -/
def Signals.block (k : Signals) (signals : Finset Signal) : Signals :=
  { k with blocked := k.blocked ∪ signals }

/-- `sigprocmask` with `SIG_UNBLOCK`. -/
def Signals.unblock (k : Signals) (signals : Finset Signal) : Signals :=
  { k with blocked := k.blocked \ signals }

/-- The signal becomes pending. SIGCONT resumes even where it is blocked; it and the stop signals
discard one another. -/
def Signals.generate (k : Signals) (sig : Signal) : Signals :=
  if sig = .sigcont then
    { k with
      pending := insert sig (k.pending \ stopSignals), stopped := false, unreported := false }
  else if sig ∈ stopSignals then
    { k with pending := insert sig (k.pending.erase .sigcont) }
  else { k with pending := insert sig k.pending }

def Signals.stop (k : Signals) : Signals := { k with stopped := true, unreported := true }

/-- A pending signal that is not blocked takes its default action, which may end the process. -/
def Signals.deliver (k : Signals) (sig : Signal) : Option (Signals × Bool) :=
  if sig ∈ k.pending ∧ sig ∉ k.blocked then
    let taken := { k with pending := k.pending.erase sig }
    match sig with
    | .sigtstp | .sigstop => some (taken.stop, false)
    | .sigcont => some (taken, false)
    | .sigint | .sigterm => some (taken, true)
  else none

/-- `raise(SIGSTOP)`, which cannot be blocked and has been delivered when the call returns. -/
def Signals.raiseStop (k : Signals) : Signals :=
  { k with pending := k.pending.erase .sigcont }.stop

/-- A read from a `signalfd` takes a pending signal of its mask. -/
def Signals.dequeue (k : Signals) (mask : Finset Signal) (sig : Signal) : Option Signals :=
  if sig ∈ k.pending ∧ sig ∈ mask then some { k with pending := k.pending.erase sig } else none

/-- A `waitpid` with `WUNTRACED` returns a stop once, and blocks without one. -/
def Signals.waitStopped (k : Signals) : Option Signals :=
  if k.stopped ∧ k.unreported then some { k with unreported := false } else none

variable {k k' : Signals} {sig : Signal} {mask : Finset Signal}

/-- Without an unblocked pending signal nothing is delivered. -/
theorem Signals.deliver_none (h : k.pending ⊆ k.blocked) : k.deliver sig = none := by
  have hblocked : ¬ (sig ∈ k.pending ∧ sig ∉ k.blocked) := fun hsig => hsig.2 (h hsig.1)
  rw [deliver, if_neg hblocked]

theorem Signals.dequeue_some (h : k.dequeue mask sig = some k') :
    sig ∈ k.pending ∧ sig ∈ mask ∧ k' = { k with pending := k.pending.erase sig } := by
  simp only [dequeue] at h
  split at h
  · rename_i hsig
    exact ⟨hsig.1, hsig.2, (Option.some.inj h).symm⟩
  · cases h

/-- A signal is delivered once. -/
theorem Signals.deliver_pending {ends : Bool} (h : k.deliver sig = some (k', ends)) :
    sig ∈ k.pending ∧ k'.pending = k.pending.erase sig := by
  simp only [deliver] at h
  split at h
  · rename_i hsig
    refine ⟨hsig.1, ?_⟩
    cases sig <;> cases h <;> rfl
  · cases h

/-- Of one signal no more than one is pending. -/
theorem Signals.generate_card (k : Signals) (sig : Signal) :
    (k.generate sig).pending.card ≤ k.pending.card + 1 := by
  simp only [generate]
  split_ifs
  · exact (Finset.card_insert_le _ _).trans
      (Nat.succ_le_succ (Finset.card_le_card Finset.sdiff_subset))
  · exact (Finset.card_insert_le _ _).trans
      (Nat.succ_le_succ (Finset.card_le_card (Finset.erase_subset _ _)))
  · exact Finset.card_insert_le _ _

theorem Signals.waitStopped_pending (h : k.waitStopped = some k') : k'.pending = k.pending := by
  simp only [waitStopped] at h
  split at h
  · cases h
    rfl
  · cases h

end Posix
