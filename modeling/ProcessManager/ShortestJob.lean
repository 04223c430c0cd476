import ProcessManager.Arrivals
import ProcessManager.NumCycles
import ProcessManager.Trace

/-! SJF: a dispatched process is the shortest there is, and it runs to its end. -/
namespace ProcessManager

open Loop

variable {cfg : Config} {workload : List Record} {s s' : State} {p q : ProcId}
  {events : List Event} {n k : ℕ}

/-- `p` comes before `q` in the order of service time, arrival time and name. -/
def Precedes (workload : List Record) (p q : ProcId) : Prop :=
  compareProcess (loadedProcs workload p) (loadedProcs workload q) < 0

/-- The process that is dispatched comes out of the ready queue, and nothing left there precedes
it. -/
structure Dispatched (workload : List Record) (s' : State) (p : ProcId) : Prop where
  current : s'.currentProcess = some p
  fresh : (s'.procs p).serviceTimeLeft = (s'.procs p).serviceTime
  first : ∀ q ∈ s'.readyQueue.items, ¬ Precedes workload q p

theorem Schedule.dispatched {remaining : ℕ} (hsjf : cfg.scheduler = .sjf)
    (h : Invariant cfg workload s) (hfresh : ∀ q ∈ s.readyQueue.items,
      (s.procs q).serviceTimeLeft = (s.procs q).serviceTime)
    (hs : Schedule cfg s events s') (he : .running p remaining ∈ events) :
    Dispatched workload s' p := by
  cases hs with
  | idle => simp at he
  | resume => simp at he
  | preempt hrr => simp [hrr] at hsjf
  | @dispatch q ready hrun hnext =>
    obtain ⟨-, hperm, -, hmin⟩ := h.ready.extract_ok hnext
    obtain rfl : p = q := by
      rcases dispatchEvents_cases he with heq | heq | heq <;> cases heq
      rfl
    have hmem : p ∈ s.readyQueue.items := hperm.mem_iff.mpr List.mem_cons_self
    constructor
    case current => rfl
    case fresh =>
      simp only [State.procs_emit, State.procs_setProcs]
      rw [dispatchedProcs_timeLeft, (dispatchedProcs_sameRecord cfg _ p p).serviceTime]
      exact hfresh p hmem
    case first =>
      intro r hr
      have hle := hmin hsjf r hr
      rw [compareBy, compareProcess_congr (h.loaded p) (h.loaded r), compareProcess_neg] at hle
      unfold Precedes
      omega

theorem Step.dispatched {remaining : ℕ} (hsjf : cfg.scheduler = .sjf)
    (h : AtHead cfg workload s) (hf : Fresh cfg s) (hs : Step cfg s events s')
    (he : .running p remaining ∈ events) : Dispatched workload s' p := by
  cases hs with
  | @step s1 s2 s3 charged admitted driven hcharge _ hadmits hsched =>
    have hinv1 := hcharge.invariant h
    have hinv2 := hadmits.invariant hinv1
    have hfresh2 : ∀ q ∈ s2.readyQueue.items,
        (s2.procs q).serviceTimeLeft = (s2.procs q).serviceTime := by
      intro q hq
      have hwaits := hadmits.waits hinv1 (Or.inr (Or.inr ⟨hsjf, hq⟩))
      rw [hadmits.timeLeft q, (hadmits.sameRecord q).serviceTime]
      exact hcharge.fresh h hf q hwaits
    have hdriven : .running p remaining ∈ driven := mem_driven hcharge hadmits he rfl
    obtain ⟨hcurrent, hfresh, hfirst⟩ := hsched.dispatched hsjf hinv2 hfresh2 hdriven
    exact ⟨hcurrent, hfresh, hfirst⟩

end ProcessManager
