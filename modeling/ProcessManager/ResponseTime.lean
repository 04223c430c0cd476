import ProcessManager.RoundRobin
import ProcessManager.ShortestJob
import ProcessManager.Makespan
import ProcessManager.Library.Service

/-! How long a process that is ready can be kept waiting by the others, under either scheduler and
whatever arrives in the meantime, as long as no pass finds `num_cycles` 0 again. -/
namespace ProcessManager

open Loop

variable {cfg : Config} {workload : List Record} {s s' : State} {p q d : ProcId}
  {events : List Event} {n : ℕ}

/-- The quanta a process still takes; none when it has finished. -/
def State.quantaLeft (quantum : ℕ) (s : State) (p : ProcId) : ℕ :=
  if p ∈ s.finishedQueue then 0 else s.need quantum p

/-- The process has its memory and has not finished. -/
def State.Held (s : State) (p : ProcId) : Prop :=
  p ∈ s.readyQueue.items ∨ p ∈ s.running

theorem quantaLeft_congr {quantum : ℕ} (hfinished : s'.finishedQueue = s.finishedQueue)
    (htime : ∀ q, (s'.procs q).serviceTimeLeft = (s.procs q).serviceTimeLeft) :
    s'.quantaLeft quantum = s.quantaLeft quantum := by
  funext q
  rw [State.quantaLeft, State.quantaLeft, hfinished, State.need, State.need, htime q]

theorem quantaLeft_unfinished {quantum : ℕ} (h : p ∉ s.finishedQueue) :
    s.quantaLeft quantum p = s.need quantum p := if_neg h

/-- The current process takes a quantum less, and nobody else does. -/
theorem Charge.quantaLeft (h : AtHead cfg workload s) (hc : Charge cfg s events s')
    (hcur : s.currentProcess = some d) : s'.quantaLeft cfg.quantum =
      Function.update (s.quantaLeft cfg.quantum) d (s.quantaLeft cfg.quantum d - 1) := by
  have hunfinished := h.current_unfinished hcur
  have hneed : s'.need cfg.quantum d =
      quantaNeeded cfg.quantum ((s.procs d).serviceTimeLeft - cfg.quantum) := by
    rw [State.need, hc.timeLeft d, if_pos hcur]
  have hother : ∀ q, q ≠ d → s'.need cfg.quantum q = s.need cfg.quantum q := fun q hq =>
    hc.need_other (by rw [hcur]; exact fun he => hq (Option.some.inj he).symm)
  funext q
  by_cases hq : q = d
  · subst hq
    rw [Function.update_self, quantaLeft_unfinished hunfinished, State.need]
    cases hc with
    | idle hnone => simp [hnone] at hcur
    | @quantum r hsome hleft =>
      obtain rfl : r = q := Option.some.inj (hsome.symm.trans hcur)
      have hstill : r ∉ (s.setProcs (chargedProcs cfg s.procs r)).finishedQueue := hunfinished
      rw [quantaLeft_unfinished hstill, hneed, ← quantaNeeded_sub cfg.quantum_pos hleft]
      omega
    | @finish r store hsome hleft =>
      obtain rfl : r = q := Option.some.inj (hsome.symm.trans hcur)
      rw [quantaNeeded_last cfg.quantum_pos hleft]
      exact if_pos (by simp)
  · rw [Function.update_of_ne hq, State.quantaLeft, State.quantaLeft, hother q hq]
    cases hc with
    | idle hnone => simp [hnone] at hcur
    | quantum => rfl
    | @finish r store hsome hleft =>
      obtain rfl : r = d := Option.some.inj (hsome.symm.trans hcur)
      simp [hq]

theorem Step.quantaLeft (h : AtHead cfg workload s) (hs : Step cfg s events s')
    (hcur : s.currentProcess = some d) : s'.quantaLeft cfg.quantum =
      Function.update (s.quantaLeft cfg.quantum) d (s.quantaLeft cfg.quantum d - 1) := by
  cases hs with
  | @step s1 s2 s3 charged admitted driven hcharge _ hadmits hsched =>
    have hinv := hadmits.invariant (hcharge.invariant h)
    rw [← hcharge.quantaLeft h hcur, ← quantaLeft_congr hadmits.finishedQueue hadmits.timeLeft]
    exact quantaLeft_congr (hsched.queues hinv).2.2.1 hsched.timeLeft

theorem Charge.held (h : AtHead cfg workload s) (hc : Charge cfg s events s') (hp : s.Held p) :
    s'.Held p ∨ p ∈ s'.finishedQueue := by
  cases hc with
  | idle => exact Or.inl hp
  | quantum => exact Or.inl hp
  | @finish r store hsome hleft hfree =>
    rcases hp with hp | hp
    · exact Or.inl (Or.inl hp)
    · rw [h.running_some hsome, List.mem_singleton] at hp
      exact Or.inr (by simp [hp])

theorem Admit.ready_subset (h : Invariant cfg workload s) (ha : Admit cfg s events s')
    (hp : p ∈ s.readyQueue.items) : p ∈ s'.readyQueue.items := by
  cases ha with
  | ofPass hpass => exact (hpass.ready h.ready).2.1.mem_iff.mpr (List.mem_append_left _ hp)

/-- Who is held stays so until it finishes. -/
theorem Step.held (h : AtHead cfg workload s) (hs : Step cfg s events s') (hp : s.Held p) :
    s'.Held p ∨ p ∈ s'.finishedQueue := by
  cases hs with
  | @step s1 s2 s3 charged admitted driven hcharge _ hadmits hsched =>
    have hinv1 := hcharge.invariant h
    obtain ⟨-, -, hfinished, hperm⟩ := hsched.queues (hadmits.invariant hinv1)
    rcases hcharge.held h hp with hp | hp
    · have hp2 : s2.Held p := by
        rcases hp with hp | hp
        · exact Or.inl (hadmits.ready_subset hinv1 hp)
        · exact Or.inr (hadmits.running ▸ hp)
      exact Or.inl (List.mem_append.mp (hperm.mem_iff.mpr (List.mem_append.mpr hp2)))
    · right
      change p ∈ s3.finishedQueue
      rwa [hfinished, hadmits.finishedQueue]

/-- Where somebody is held, somebody is current. -/
theorem AtHead.held_current (h : AtHead cfg workload s) (hp : s.Held p) :
    ∃ d, s.currentProcess = some d := by
  rcases hp with hp | hp
  · exact Option.ne_none_iff_exists'.mp (h.busy (List.ne_nil_of_mem hp))
  · rw [h.running] at hp
    exact ⟨p, Option.mem_toList.mp hp⟩

theorem AtHead.held_lt (h : AtHead cfg workload s) (hp : s.Held p) : p < workload.length := by
  rcases hp with hp | hp
  · exact h.lt_of_ready hp
  · exact h.lt_of_running hp

theorem AtHead.held_needy (h : AtHead cfg workload s) (hp : s.Held p) :
    1 ≤ s.quantaLeft cfg.quantum p := by
  have hunfinished : p ∉ s.finishedQueue := by
    rcases hp with hp | hp
    · exact (h.ready_elsewhere hp).2.2.2
    · exact (h.running_elsewhere hp).2.2.2
  rw [quantaLeft_unfinished hunfinished]
  exact one_le_quantaNeeded _ _

/-- A pass with somebody current goes on or leaves the loop. -/
theorem run_pass_current (hn : run cfg workload n = .next s) (h0 : s.numCycles ≠ 0)
    (hcur : s.currentProcess = some d) :
    (∃ events s', run cfg workload (n + 1) = .next s' ∧ Step cfg s events s') ∨
      ∃ s', run cfg workload (n + 1) = .done s' := by
  have hhead := run_atHead n s hn
  have hrun : run cfg workload (n + 1) = cycleBody cfg s := iterate_succ_of_next hn
  rcases cycleBody_cases hhead with ⟨events, s', hb, hstep⟩ | ⟨events, s', hb, -⟩ | ⟨hb, -⟩
  · rw [State.entered_of_ne h0] at hstep
    exact Or.inl ⟨events, s', hrun.trans hb, hstep⟩
  · exact Or.inr ⟨s', hrun.trans hb⟩
  · obtain ⟨-, -, hnot⟩ := (cycleBody_fault hhead).mp hb
    exact absurd (fun _ => by simp [hcur]) hnot

/-- What has a bound that every pass lowers finishes within it. -/
theorem finishes_within (delay : State → ℕ)
    (hpos : ∀ n s, run cfg workload n = .next s → s.Held p → 1 ≤ delay s)
    (hstep : ∀ n s events s', run cfg workload n = .next s → Step cfg s events s' → s.Held p →
      s'.Held p → delay s' + 1 ≤ delay s)
    (hn : run cfg workload n = .next s) (hp : s.Held p)
    (hcount : ∀ k, n ≤ k → k < n + delay s → ¬ 2 ^ 32 ∣ k) :
    ∃ m ≤ delay s, ∃ s', (run cfg workload (n + m)).state? = some s' ∧ p ∈ s'.finishedQueue := by
  induction hd : delay s using Nat.strong_induction_on generalizing n s with
  | _ bound ih =>
    have hone := hpos n s hn hp
    have hhead := run_atHead n s hn
    have h0 : s.numCycles ≠ 0 := (run_numCycles hn).not.mpr (hcount n le_rfl (by omega))
    obtain ⟨d, hcur⟩ := hhead.held_current hp
    rcases run_pass_current hn h0 hcur with ⟨events, s', hs', hpass⟩ | ⟨s', hs'⟩
    · rcases hpass.held hhead hp with hheld | hfinished
      · have hless := hstep n s events s' hn hpass hp hheld
        obtain ⟨m, hm, t, ht, hfinished⟩ := ih (delay s') (by omega) hs' hheld
          (fun k hle hlt => hcount k (by omega) (by omega)) rfl
        exact ⟨m + 1, by omega, t, by rwa [Nat.add_right_comm] at ht, hfinished⟩
      · exact ⟨1, by omega, s', congrArg Outcome.state? hs', hfinished⟩
    · refine ⟨1, by omega, s', congrArg Outcome.state? hs', ?_⟩
      exact (run_done_finished hs').1.mem_iff.mpr (List.mem_range.mpr (hhead.held_lt hp))

/-- The current process with those that are ready behind it. -/
def State.line (quantum : ℕ) (s : State) : Rotation.Line ProcId :=
  ⟨s.running ++ s.readyQueue.items, s.quantaLeft quantum⟩

theorem AtHead.line_proper (h : AtHead cfg workload s) : (s.line cfg.quantum).Proper := by
  constructor
  case nodup =>
    rw [State.line, h.running]
    cases hcur : s.currentProcess with
    | none => exact h.ready_nodup
    | some d =>
      obtain ⟨-, -, hnot, -⟩ := h.running_elsewhere (p := d) (by simp [h.running_some hcur])
      exact List.nodup_cons.mpr ⟨hnot, h.ready_nodup⟩
  case needy => exact fun j hj => h.held_needy (List.mem_append.mp hj).symm

/-- What is left of the current process when the quantum is charged. -/
theorem Charge.last_iff (h : AtHead cfg workload s) (hc : Charge cfg s events s')
    (hcur : s.currentProcess = some d) :
    (s.quantaLeft cfg.quantum d ≤ 1 ∧ s'.running = []) ∨
      (2 ≤ s.quantaLeft cfg.quantum d ∧ s'.running = [d]) := by
  rw [quantaLeft_unfinished (h.current_unfinished hcur), State.need]
  cases hc with
  | idle hnone => simp [hnone] at hcur
  | @quantum r hsome hleft =>
    obtain rfl : r = d := Option.some.inj (hsome.symm.trans hcur)
    have hone := one_le_quantaNeeded cfg.quantum ((s.procs r).serviceTimeLeft - cfg.quantum)
    rw [← quantaNeeded_sub cfg.quantum_pos hleft]
    exact Or.inr ⟨by omega, h.running_some hsome⟩
  | @finish r store hsome hleft =>
    obtain rfl : r = d := Option.some.inj (hsome.symm.trans hcur)
    exact Or.inl ⟨(quantaNeeded_last cfg.quantum_pos hleft).le, by simp [State.running]⟩

theorem Schedule.line (hrr : cfg.scheduler = .rr) (h : Invariant cfg workload s)
    (hs : Schedule cfg s events s') :
    s'.running ++ s'.readyQueue.items = s.readyQueue.items ++ s.running := by
  cases hs with
  | idle hrun hempty =>
    rw [hrun, hempty]
    simp [State.running]
  | @dispatch p ready hrun hnext =>
    obtain ⟨-, -, hhead, -⟩ := h.ready.extract_ok hnext
    rw [hrun, hhead hrr, List.append_nil]
    rfl
  | @resume p hrun halone =>
    change s.running ++ s.readyQueue.items = _
    rw [halone hrr, List.append_nil, List.nil_append]
  | @preempt p r queue ready _ hrun hne hput hnext =>
    obtain ⟨hwf, -, hlist⟩ := h.ready.insert_ok hput
    obtain ⟨-, -, hhead, -⟩ := hwf.extract_ok hnext
    rw [hrun, ← hlist hrr, hhead hrr]
    rfl

/-- A pass of RR is a turn of the line. -/
theorem Step.turn (hrr : cfg.scheduler = .rr) (h : AtHead cfg workload s)
    (hs : Step cfg s events s') (hcur : s.currentProcess = some d) :
    Rotation.Turn (s.line cfg.quantum) (s'.line cfg.quantum) := by
  have hleft := hs.quantaLeft h hcur
  cases hs with
  | @step s1 s2 s3 charged admitted driven hcharge _ hadmits hsched =>
    have hinv1 := hcharge.invariant h
    obtain ⟨⟨joined, hjoined⟩, -⟩ := hadmits.inserted hrr hinv1
    rw [hcharge.readyQueue] at hjoined
    refine ⟨d, s.readyQueue.items, joined, ?_, hleft, ?_⟩
    · rw [State.line, h.running_some hcur]
      rfl
    · change s3.running ++ s3.readyQueue.items = _
      rw [hsched.line hrr (hadmits.invariant hinv1), ← hjoined, hadmits.running, List.append_assoc]
      rcases hcharge.last_iff h hcur with ⟨hlast, hrun⟩ | ⟨hmore, hrun⟩
      · rw [hrun, if_pos (show (s.line cfg.quantum).left d ≤ 1 from hlast)]
      · rw [hrun, if_neg (show ¬ (s.line cfg.quantum).left d ≤ 1 from Nat.not_le.mpr hmore)]

/-- The other processes. -/
def othersOf (workload : List Record) (p : ProcId) : Finset ProcId :=
  (Finset.range workload.length).erase p

theorem held_iff_line : s.Held p ↔ p ∈ (s.line cfg.quantum).members := by
  rw [State.Held, State.line, List.mem_append, or_comm]

theorem sum_min_self {workload : List Record} (hp : p < workload.length) (left : ProcId → ℕ) :
    left p + ∑ q ∈ othersOf workload p, min (left q) (left p) =
      ∑ q ∈ Finset.range workload.length, min (left q) (left p) := by
  rw [othersOf, ← Finset.add_sum_erase _ _ (Finset.mem_range.mpr hp), min_self]

/-- Its own quanta and, of every other process, no more than that many. -/
def State.rrDelay (quantum : ℕ) (workload : List Record) (s : State) (p : ProcId) : ℕ :=
  ∑ q ∈ Finset.range workload.length, min (s.quantaLeft quantum q) (s.quantaLeft quantum p)

/-- An RR process that has its memory finishes within its own quanta and, of every other process, no
more than that many, if none of these passes finds `num_cycles` 0. -/
theorem rr_finishes_within (hrr : cfg.scheduler = .rr) (hn : run cfg workload n = .next s)
    (hp : s.Held p)
    (hcount : ∀ k, n ≤ k → k < n + s.rrDelay cfg.quantum workload p → ¬ 2 ^ 32 ∣ k) :
    ∃ m ≤ s.rrDelay cfg.quantum workload p,
      ∃ s', (run cfg workload (n + m)).state? = some s' ∧ p ∈ s'.finishedQueue := by
  have hpos : ∀ n s, run cfg workload n = .next s → s.Held p →
      1 ≤ (s.line cfg.quantum).delay (othersOf workload p) p := by
    intro n s hn hp
    have hneedy := (run_atHead n s hn).line_proper.needy p (held_iff_line.mp hp)
    exact hneedy.trans (Nat.le_add_right _ _)
  have hstep : ∀ n s events s', run cfg workload n = .next s → Step cfg s events s' → s.Held p →
      s'.Held p → (s'.line cfg.quantum).delay (othersOf workload p) p + 1 ≤
        (s.line cfg.quantum).delay (othersOf workload p) p := by
    intro n s events s' hn hpass hp _
    have hhead := run_atHead n s hn
    obtain ⟨d, hcur⟩ := hhead.held_current hp
    refine (hpass.turn hrr hhead hcur).delay hhead.line_proper (held_iff_line.mp hp)
      (fun j hj hjp => ?_) (by simp [othersOf])
    have hlt := hhead.held_lt (held_iff_line.mpr hj)
    simp [othersOf, hjp, hlt]
  have hle : (s.line cfg.quantum).delay (othersOf workload p) p ≤
      s.rrDelay cfg.quantum workload p := by
    rw [State.rrDelay, ← sum_min_self ((run_atHead n s hn).held_lt hp)]
    exact (s.line cfg.quantum).delay_le _ p
  obtain ⟨m, hm, hfinishes⟩ := finishes_within _ hpos hstep hn hp
    fun k hnk hlt => hcount k hnk (by omega)
  exact ⟨m, hm.trans hle, hfinishes⟩

theorem rr_finishes_within_twoJobs :
    ∃ m ≤ 2, ∃ s, (run (sampleConfig .rr .infinite) twoJobs (1 + m)).state? = some s ∧
      1 ∈ s.finishedQueue := by
  have hrun : ∃ s : State, run (sampleConfig .rr .infinite) twoJobs 1 = .next s ∧
      s.readyQueue.items = [1] ∧ s.quantaLeft 2 0 = 2 ∧ s.quantaLeft 2 1 = 1 :=
    ⟨_, rfl, by decide⟩
  obtain ⟨s, hs, hready, h0, h1⟩ := hrun
  have hdelay : s.rrDelay 2 twoJobs 1 = 2 := by
    simp [State.rrDelay, twoJobs, Finset.sum_range_succ, h0, h1]
  have hcount : ∀ k, 1 ≤ k → k < 1 + s.rrDelay 2 twoJobs 1 → ¬ 2 ^ 32 ∣ k := by
    rw [hdelay]
    intro k hle hlt
    exact Nat.not_dvd_of_pos_of_lt hle (by omega)
  obtain ⟨m, hm, hfinishes⟩ := rr_finishes_within rfl hs (p := 1) (Or.inl (by simp [hready])) hcount
  exact ⟨m, hm.trans hdelay.le, hfinishes⟩

instance (workload : List Record) : DecidableRel (Precedes workload) := fun p q =>
  inferInstanceAs (Decidable (compareProcess (loadedProcs workload p) (loadedProcs workload q) < 0))

/-- The current process and those that are ready. -/
def State.desk (quantum : ℕ) (s : State) : Precedence.Desk ProcId :=
  ⟨s.currentProcess, s.readyQueue.items, s.quantaLeft quantum⟩

/-- A pass of SJF after which somebody is current is a turn of the desk. -/
theorem Step.serve (hsjf : cfg.scheduler = .sjf) (h : AtHead cfg workload s)
    (hs : Step cfg s events s') {r : ProcId} (hcur : s.currentProcess = some r)
    (hcur' : s'.currentProcess = some d) :
    Precedence.Turn (Precedes workload) (s.desk cfg.quantum) (s'.desk cfg.quantum) := by
  have hleft := hs.quantaLeft h hcur
  have hone := h.held_needy (p := r) (Or.inr (by simp [h.running_some hcur]))
  cases hs with
  | @step s1 s2 s3 charged admitted driven hcharge _ hadmits hsched =>
    have hinv1 := hcharge.invariant h
    have hinv2 := hadmits.invariant hinv1
    rcases hcharge.last_iff h hcur with ⟨hlast, hrun⟩ | ⟨hmore, hrun⟩
    · rw [← hadmits.running] at hrun
      refine .next hcur (le_antisymm hlast hone) hcur' (fun j hj hjd => ?_) hleft
      cases hsched with
      | idle => cases hcur'
      | resume hsome => simp [hrun] at hsome
      | preempt hrr => simp [hrr] at hsjf
      | @dispatch q ready _ hnext =>
        obtain rfl : q = d := Option.some.inj hcur'
        obtain ⟨-, hperm, -, hmin⟩ := hinv2.ready.extract_ok hnext
        have hready : j ∈ s2.readyQueue.items :=
          hadmits.ready_subset hinv1 (hcharge.readyQueue ▸ hj)
        have hle := hmin hsjf j ((List.mem_cons.mp (hperm.mem_iff.mp hready)).resolve_left hjd)
        rw [compareBy, compareProcess_congr (hinv2.loaded q) (hinv2.loaded j),
          compareProcess_neg] at hle
        unfold Precedes
        omega
    · rw [← hadmits.running] at hrun
      refine .goOn hcur hmore ?_ hleft
      cases hsched with
      | idle hnone => simp [hrun] at hnone
      | dispatch hnone => simp [hrun] at hnone
      | preempt hrr => simp [hrr] at hsjf
      | resume =>
        change s2.currentProcess = some r
        unfold State.running at hrun
        split at hrun
        · cases hrun
        · exact Option.toList_eq_singleton_iff.mp hrun

end ProcessManager
