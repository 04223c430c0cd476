import ProcessManager.Makespan
import ProcessManager.FinishTimes

/-! When the 32-bit clock counts exactly: as long as the last process finishes within its range. -/
namespace ProcessManager

open Loop

variable {cfg : Config} {workload : List Record} {s s' : State} {p : ProcId}
  {events : List Event} {n : ℕ}

/-- The run ends, and all its times are those of an unbounded clock. -/
structure ExactTimes (cfg : Config) (workload : List Record) : Prop where
  ends : ∃ n s, run cfg workload n = .done s
  time : ∀ n s, run cfg workload n = .next s → s.simTime = cfg.quantum * n
  admitted : ∀ n s, run cfg workload n = .done s → ∀ p < workload.length, ∀ cycle time,
    ⟨cycle, time, .arrive p⟩ ∈ s.trace ↔
      IsLeast {m | (loadedProcs workload p).arrivalTime ≤ cfg.quantum * m} cycle ∧
        time = cfg.quantum * cycle
  turnaround : ∀ n s, run cfg workload n = .done s → ∀ p < workload.length, ∃ cycle r : ℕ,
    ⟨cycle, cfg.quantum * cycle, .finished p r⟩ ∈ s.trace ∧
      ((s.procs p).turnaroundTime : ℤ) =
        ((cfg.quantum * cycle : ℕ) : ℤ) - (loadedProcs workload p).arrivalTime
  ending : ∀ n t s, run cfg workload n = .next t → run cfg workload (n + 1) = .done s →
    s.simTime = cfg.quantum * n ∧
      ∃ p r, s.finishedQueue.getLast? = some p ∧
        ⟨n, cfg.quantum * n, .finished p r⟩ ∈ s.trace

theorem toUInt32_lt (x : ℤ) : toUInt32 x < 2 ^ 32 := by
  unfold toUInt32
  omega

theorem run_time_lt (hclock : cfg.clock = .uint32) :
    ∀ n s, run cfg workload n = .next s → s.simTime < 2 ^ 32 := by
  apply run_invariant
  case h0 => simp [initialState]
  case hstep =>
    intro n s events s' _ _ _ _ hs
    rw [hs.clock.2.1, hclock]
    exact toUInt32_lt _

theorem isLeast_release {cycle : ℕ} :
    IsLeast {m | (loadedProcs workload p).arrivalTime ≤ cfg.quantum * m} cycle ↔
      cycle = releaseOf cfg.quantum workload p := by
  have hrelease : ∀ m, releaseOf cfg.quantum workload p ≤ m ↔
      (loadedProcs workload p).arrivalTime ≤ cfg.quantum * m :=
    fun m => releaseOf_le cfg.quantum_pos
  constructor
  · rintro ⟨hmem, hleast⟩
    exact le_antisymm (hleast ((hrelease _).mp le_rfl)) ((hrelease cycle).mpr hmem)
  · rintro rfl
    exact ⟨(hrelease _).mp le_rfl, fun m hm => (hrelease m).mpr hm⟩

/-- What the exact clock gives at every loop head. -/
def OnTime (cfg : Config) (workload : List Record) : Prop :=
  ∀ n s, run cfg workload n = .next s → s.simTime = cfg.quantum * n ∧ Paced cfg workload n s

theorem OnTime.arrive_iff (h : OnTime cfg workload) (hdone : run cfg workload n = .done s)
    (hp : p < workload.length) (cycle time : ℕ) : ⟨cycle, time, .arrive p⟩ ∈ s.trace ↔
      IsLeast {m | (loadedProcs workload p).arrivalTime ≤ cfg.quantum * m} cycle ∧
        time = cfg.quantum * cycle := by
  have hstate : (run cfg workload n).state? = some s := by rw [hdone]; rfl
  have hlogged : ∀ {cycle time : ℕ}, ⟨cycle, time, .arrive p⟩ ∈ s.trace →
      cycle = releaseOf cfg.quantum workload p ∧ time = cfg.quantum * cycle := by
    intro cycle time hentry
    obtain ⟨t, ht, htime, hmem, harrival⟩ := (run_fromPass hstate hentry).arrive rfl
    obtain ⟨hexact, hpaced⟩ := h cycle t ht
    rw [hexact] at htime harrival
    have hle : releaseOf cfg.quantum workload p ≤ cycle :=
      (releaseOf_le cfg.quantum_pos).mpr harrival
    exact ⟨le_antisymm (hpaced.late p hmem) hle, htime⟩
  rw [isLeast_release]
  constructor
  · exact hlogged
  · rintro ⟨rfl, rfl⟩
    have hprocesses := (run_done_finished hdone).2.1
    rcases run_arrived hstate hp with hmem | ⟨cycle, time, hentry⟩
    · simp [hprocesses] at hmem
    · obtain ⟨rfl, rfl⟩ := hlogged hentry
      exact hentry

/-- A finished process arrived before it finished. -/
theorem arrived_before_finished (h : OnTime cfg workload)
    (hstate : (run cfg workload n).state? = some s) {cycle time r : ℕ}
    (hentry : ⟨cycle, time, .finished p r⟩ ∈ s.trace) :
    time = cfg.quantum * cycle ∧
      (loadedProcs workload p).arrivalTime ≤ cfg.quantum * cycle := by
  obtain ⟨-, t, events, t', ht, hperforms, he, htime⟩ := run_fromPass hstate hentry
  have hhead := run_atHead cycle t ht
  obtain ⟨hexact, -⟩ := h cycle t ht
  refine ⟨htime.trans hexact, ?_⟩
  have hcur : t.currentProcess = some p := (hperforms.finished hhead he).1
  have hrunning : p ∈ t.running := by simp [hhead.running_some hcur]
  obtain ⟨hprocesses, -⟩ := hhead.running_elsewhere hrunning
  have hlt : p < workload.length := hhead.lt_of_running hrunning
  rcases run_arrived_next cycle t ht p hlt with hmem | ⟨earlier, time', harrive⟩
  · exact absurd hmem hprocesses
  · have hstate' : (run cfg workload cycle).state? = some t := by rw [ht]; rfl
    have hfrom := run_fromPass hstate' harrive
    obtain ⟨u, hu, -, -, harrival⟩ := hfrom.arrive rfl
    have hearlier : earlier < cycle := hfrom.1
    rw [(h earlier u hu).1] at harrival
    exact harrival.trans (Nat.mul_le_mul_left _ hearlier.le)

/-- The last line of the trace is that of the process that finishes last. -/
theorem run_last_finished {t : State} (ht : run cfg workload n = .next t)
    (hdone : run cfg workload (n + 1) = .done s) : s.simTime = t.simTime ∧
      ∃ p r, s.finishedQueue.getLast? = some p ∧ ⟨n, t.simTime, .finished p r⟩ ∈ s.trace := by
  have hb : cycleBody cfg t = .done s := (iterate_succ_of_next ht).symm.trans hdone
  obtain ⟨events, -, hcharge, hne, -⟩ := cycleBody_done (run_atHead n t ht) hb
  have hcycle := run_passes n t ht
  refine ⟨hcharge.clock.2.1, ?_⟩
  cases hcharge with
  | idle => exact absurd rfl hne
  | quantum => exact absurd rfl hne
  | @finish p store hcur _ _ =>
    refine ⟨p, t.inputQueue.length + t.readyQueue.size, by simp, ?_⟩
    rw [← hcycle]
    exact List.mem_append_right _ (by simp [finishEvents])

theorem OnTime.exact (h : OnTime cfg workload) (hclock : cfg.clock = .uint32)
    (hends : ∃ n s, run cfg workload n = .done s) : ExactTimes cfg workload := by
  constructor
  case ends => exact hends
  case time => exact fun n s hs => (h n s hs).1
  case admitted => exact fun n s hs p hp cycle time => h.arrive_iff hs hp cycle time
  case turnaround =>
    intro n s hs p hp
    have hstate : (run cfg workload n).state? = some s := by rw [hs]; rfl
    have hinv := run_state_invariant hstate
    have hmem := (run_done_finished hs).1.mem_iff.mpr (List.mem_range.mpr hp)
    obtain ⟨cycle, r, hentry, hturnaround⟩ := run_recorded hstate hmem
    obtain ⟨htime, harrival⟩ := arrived_before_finished h hstate hentry
    refine ⟨cycle, r, htime ▸ hentry, ?_⟩
    obtain ⟨-, t, _, _, ht, -, -, hfinish⟩ := run_fromPass hstate hentry
    have hlt : (s.procs p).finishTime < 2 ^ 32 := by
      rw [show (s.procs p).finishTime = t.simTime from hfinish]
      exact run_time_lt hclock cycle t ht
    rw [hturnaround, hclock, (hinv.loaded p).arrivalTime, htime] at *
    rw [Clock.wrap, toUInt32_sub hlt harrival]
    omega
  case ending =>
    intro n t s ht hdone
    obtain ⟨htime, p, r, hp, hentry⟩ := run_last_finished ht hdone
    rw [(h n t ht).1] at htime hentry
    exact ⟨htime, p, r, hp, hentry⟩

/-- The clock would have wrapped before `num_cycles`. -/
theorem ExactTimes.counted (h : ExactTimes cfg workload) (hclock : cfg.clock = .uint32)
    (hn : run cfg workload n = .next s) : n < 2 ^ 32 := by
  have hlt := run_time_lt hclock n s hn
  rw [h.time n s hn] at hlt
  exact (Nat.le_mul_of_pos_left n cfg.quantum_pos).trans_lt hlt

end ProcessManager
