import ProcessManager.Conservation
import ProcessManager.CycleMemory

/-! Every process is charged exactly the quanta it was current for, and finishes with the one that
covers the rest of its service time. -/
namespace ProcessManager

open Loop

variable {cfg : Config} {workload : List Record} {s s' : State} {p q : ProcId}
  {events : List Event} {n m : ℕ}

/-- The quanta a service time takes: at least one, and the last one may be partial. -/
def quantaNeeded (quantum service : ℕ) : ℕ := max 1 (service ⌈/⌉ quantum)

/-- The passes before `n` that began with the process as `current_process`. -/
def quantaGiven (cfg : Config) (workload : List Record) (p : ProcId) : ℕ → ℕ
  | 0 => 0
  | n + 1 => quantaGiven cfg workload p n +
    match run cfg workload n with
    | .next s => if s.currentProcess = some p then 1 else 0
    | _ => 0

theorem quantaNeeded_le {quantum service : ℕ} (hq : 1 ≤ quantum) (hm : 1 ≤ m) :
    quantaNeeded quantum service ≤ m ↔ service ≤ quantum * m := by
  rw [quantaNeeded, max_le_iff, ceilDiv_le_iff_le_mul hq]
  exact and_iff_right hm

theorem quantaGiven_succ (h : run cfg workload n = .next s) :
    quantaGiven cfg workload p (n + 1) =
      quantaGiven cfg workload p n + if s.currentProcess = some p then 1 else 0 := by
  simp [quantaGiven, h]

/-- Nobody is charged after the loop is left. -/
theorem quantaGiven_done (hmn : m ≤ n) (h : run cfg workload m = .done s) :
    quantaGiven cfg workload p n = quantaGiven cfg workload p m := by
  induction n, hmn using Nat.le_induction with
  | base => rfl
  | succ n hmn ih =>
    have hdone : run cfg workload n = .done s := iterate_done_of_le hmn h
    simp [quantaGiven, hdone, ih]

/-- What `m` quanta leave of a process, and whether it has finished by them. -/
structure Accounted (cfg : Config) (s : State) (p : ProcId) (m : ℕ) : Prop where
  timeLeft : (s.procs p).serviceTimeLeft = (s.procs p).serviceTime - cfg.quantum * m
  finished : p ∈ s.finishedQueue → m = quantaNeeded cfg.quantum (s.procs p).serviceTime
  unfinished : p ∉ s.finishedQueue → m < quantaNeeded cfg.quantum (s.procs p).serviceTime

theorem Accounted.congr (h : Accounted cfg s p m)
    (htime : (s'.procs p).serviceTimeLeft = (s.procs p).serviceTimeLeft)
    (hservice : (s'.procs p).serviceTime = (s.procs p).serviceTime)
    (hfinished : s'.finishedQueue = s.finishedQueue) : Accounted cfg s' p m := by
  constructor
  case timeLeft => rw [htime, hservice, h.timeLeft]
  case finished =>
    rw [hfinished, hservice]
    exact h.finished
  case unfinished =>
    rw [hfinished, hservice]
    exact h.unfinished

/-- A process that runs has not finished. -/
theorem AtHead.current_unfinished (h : AtHead cfg workload s) (hcur : s.currentProcess = some p) :
    p ∉ s.finishedQueue := by
  have hrun := h.running_elsewhere (p := p) (by simp [h.running_some hcur])
  exact hrun.2.2.2

theorem Charge.accounted (h : AtHead cfg workload s) (ha : Accounted cfg s p m)
    (hc : Charge cfg s events s') :
    Accounted cfg s' p (m + if s.currentProcess = some p then 1 else 0) := by
  have hq := cfg.quantum_pos
  have htime := hc.timeLeft p
  have hservice := (hc.sameRecord p).serviceTime
  have hleft := ha.timeLeft
  by_cases hcur : s.currentProcess = some p
  · rw [if_pos hcur] at htime
    simp only [hcur, if_true]
    have hmul : cfg.quantum * (m + 1) = cfg.quantum * m + cfg.quantum := by ring
    have hneed : quantaNeeded cfg.quantum (s.procs p).serviceTime ≤ m + 1 ↔
        (s.procs p).serviceTime ≤ cfg.quantum * (m + 1) := quantaNeeded_le hq (Nat.succ_pos m)
    have hunfinished := h.current_unfinished hcur
    have hlt := ha.unfinished hunfinished
    cases hc with
    | idle hnone => simp [hnone] at hcur
    | quantum hsome hmore =>
      obtain rfl := Option.some.inj (hsome.symm.trans hcur)
      refine ⟨?_, fun hmem => absurd hmem hunfinished, fun _ => ?_⟩
      · rw [htime, hservice, hleft]
        omega
      · rw [hservice]
        by_contra hge
        have := hneed.mp (by omega)
        omega
    | finish hsome hlast =>
      obtain rfl := Option.some.inj (hsome.symm.trans hcur)
      refine ⟨?_, fun _ => ?_, fun hnot => absurd ?_ hnot⟩
      · rw [htime, hservice, hleft]
        omega
      · rw [hservice]
        have := hneed.mpr (by omega)
        omega
      · simp
  · rw [if_neg hcur] at htime
    simp only [hcur, if_false]
    cases hc with
    | idle => exact ha
    | quantum => exact ha.congr htime hservice rfl
    | finish hsome =>
      have hne : p ≠ _ := fun he => hcur (he ▸ hsome)
      constructor
      case timeLeft => rw [htime, hservice, hleft, Nat.sub_zero, Nat.add_zero]
      case finished =>
        intro hmem
        rw [hservice]
        exact ha.finished (by simpa [hne] using hmem)
      case unfinished =>
        intro hnot
        rw [hservice]
        exact ha.unfinished (by simpa [hne] using hnot)

theorem Step.accounted (h : AtHead cfg workload s) (ha : Accounted cfg s p m)
    (hs : Step cfg s events s') :
    Accounted cfg s' p (m + if s.currentProcess = some p then 1 else 0) := by
  cases hs with
  | @step s1 s2 s3 charged admitted driven hcharge _ hadmits hsched =>
    have hinv := hadmits.invariant (hcharge.invariant h)
    have hcharged := hcharge.accounted h ha
    have hready := hcharged.congr (hadmits.timeLeft p) (hadmits.sameRecord p).serviceTime
      hadmits.finishedQueue
    exact hready.congr (hsched.timeLeft p) (hsched.sameRecord p).serviceTime
      (hsched.queues hinv).2.2.1

theorem run_accounted_next (p : ProcId) (hno : Undropped cfg workload m) :
    ∀ n s, run cfg workload n = .next s → n ≤ m →
      Accounted cfg s p (quantaGiven cfg workload p n) := by
  apply run_invariant
  case h0 =>
    refine fun _ => ⟨rfl, by simp [initialState], fun _ => ?_⟩
    exact Nat.lt_of_lt_of_le Nat.one_pos (le_max_left 1 _)
  case hstep =>
    intro n s events s' hn _ h ha hs hlt
    have hentered : Accounted cfg (s.entered cfg) p (quantaGiven cfg workload p n) :=
      (ha (Nat.le_of_succ_le hlt)).congr (by simp) (by simp) (by simp)
    rw [quantaGiven_succ hn, ← State.entered_currentProcess (hno n hlt s hn)]
    exact hs.accounted h.entered hentered

theorem run_accounted (p : ProcId) (hno : Undropped cfg workload n)
    (h : run cfg workload n = .next s) : Accounted cfg s p (quantaGiven cfg workload p n) :=
  run_accounted_next p hno n s h le_rfl

/-- A process that cannot have been dispatched yet: SJF never puts one back. -/
def Waits (cfg : Config) (s : State) (p : ProcId) : Prop :=
  p ∈ s.processes ∨ p ∈ s.inputQueue ∨ (cfg.scheduler = .sjf ∧ p ∈ s.readyQueue.items)

/-- Such a process has its whole service time left. -/
def Fresh (cfg : Config) (s : State) : Prop :=
  ∀ p, Waits cfg s p → (s.procs p).serviceTimeLeft = (s.procs p).serviceTime

theorem AtHead.waits_not_current (h : AtHead cfg workload s) (hp : Waits cfg s p) :
    s.currentProcess ≠ some p := by
  intro hcur
  obtain ⟨hprocesses, hinput, hready, -⟩ :=
    h.running_elsewhere (p := p) (by simp [h.running_some hcur])
  rcases hp with hmem | hmem | ⟨-, hmem⟩
  · exact hprocesses hmem
  · exact hinput hmem
  · exact hready hmem

theorem Charge.waits (hc : Charge cfg s events s') : Waits cfg s' p ↔ Waits cfg s p := by
  cases hc <;> rfl

theorem Charge.fresh (h : AtHead cfg workload s) (hf : Fresh cfg s)
    (hc : Charge cfg s events s') : Fresh cfg s' := by
  intro p hp
  have hwaits := hc.waits.mp hp
  rw [hc.timeLeft p, if_neg (h.waits_not_current hwaits), (hc.sameRecord p).serviceTime]
  exact hf p hwaits

theorem Admit.waits (h : Invariant cfg workload s) (ha : Admit cfg s events s')
    (hp : Waits cfg s' p) : Waits cfg s p := by
  have hprocesses (hmem : p ∈ s.arrived ∨ p ∈ s.unarrived) : p ∈ s.processes := by
    rw [← s.arrived_append_unarrived]
    exact List.mem_append.mpr hmem
  cases ha with
  | @ofPass pass taken left hpass =>
    have hinput : p ∈ s.inputQueue ++ s.arrived → Waits cfg s p := by
      intro hmem
      rcases List.mem_append.mp hmem with hmem | hmem
      · exact Or.inr (Or.inl hmem)
      · exact Or.inl (hprocesses (Or.inl hmem))
    rcases hp with hp | hp | ⟨hsjf, hp⟩
    · exact Or.inl (hprocesses (Or.inr hp))
    · exact hinput (hpass.left_sublist.mem hp)
    · obtain ⟨-, hperm, -⟩ := hpass.ready h.ready
      rcases List.mem_append.mp (hperm.mem_iff.mp hp) with hp | hp
      · exact Or.inr (Or.inr ⟨hsjf, hp⟩)
      · exact hinput (hpass.taken_sublist.mem hp)

theorem Schedule.waits (h : Invariant cfg workload s) (hs : Schedule cfg s events s')
    (hp : Waits cfg s' p) : Waits cfg s p := by
  cases hs with
  | idle => exact hp
  | resume => exact hp
  | dispatch _ hnext =>
    obtain ⟨-, hperm, -⟩ := h.ready.extract_ok hnext
    rcases hp with hp | hp | ⟨hsjf, hp⟩
    · exact Or.inl hp
    · exact Or.inr (Or.inl hp)
    · exact Or.inr (Or.inr ⟨hsjf, hperm.mem_iff.mpr (List.mem_cons_of_mem _ hp)⟩)
  | preempt hrr =>
    rcases hp with hp | hp | ⟨hsjf, -⟩
    · exact Or.inl hp
    · exact Or.inr (Or.inl hp)
    · simp [hrr] at hsjf

theorem Step.fresh (h : AtHead cfg workload s) (hf : Fresh cfg s) (hs : Step cfg s events s') :
    Fresh cfg s' := by
  cases hs with
  | @step s1 s2 s3 charged admitted driven hcharge _ hadmits hsched =>
    have hinv1 := hcharge.invariant h
    have hfresh1 := hcharge.fresh h hf
    intro p hp
    have hwaits2 := hsched.waits (hadmits.invariant hinv1) hp
    have hwaits1 := hadmits.waits hinv1 hwaits2
    simp only [State.procs_tick]
    rw [hsched.timeLeft p, hadmits.timeLeft p, hfresh1 p hwaits1,
      (hsched.sameRecord p).serviceTime, (hadmits.sameRecord p).serviceTime]

theorem Fresh.entered (hf : Fresh cfg s) : Fresh cfg (s.entered cfg) := by
  unfold State.entered
  split
  · rintro p (hp | hp | ⟨-, hp⟩)
    · exact hf p (Or.inl hp)
    · exact hf p (Or.inr (Or.inl hp))
    · simp at hp
  · exact hf

theorem run_fresh : ∀ n s, run cfg workload n = .next s → Fresh cfg s := by
  apply run_invariant
  case h0 => exact fun _ _ => rfl
  case hstep =>
    intro n s events s' _ _ h hf hs
    exact hs.fresh h.entered hf.entered

/-- The time that `m` quanta leave of a record's service time, that the process has finished exactly
by its last one, and that its unsigned remainder never wraps. -/
structure State.Accounts (cfg : Config) (s : State) (p : ProcId) (r : Record) (m : ℕ) : Prop where
  timeLeft : (s.procs p).serviceTimeLeft = r.serviceTime.toNat - cfg.quantum * m
  finished : p ∈ s.finishedQueue ↔ m = quantaNeeded cfg.quantum r.serviceTime.toNat
  unwrapped : toUInt32 cfg.quantum < (s.procs p).serviceTimeLeft →
    (toUInt32 ((s.procs p).serviceTimeLeft - cfg.quantum) : ℤ) =
      (s.procs p).serviceTimeLeft - cfg.quantum

theorem Invariant.serviceTime (h : Invariant cfg workload s) (hp : p < workload.length) :
    (s.procs p).serviceTime = workload[p].serviceTime.toNat := by
  rw [(h.loaded p).serviceTime, loadedProcs_getElem hp]
  rfl

theorem Accounted.accounts (ha : Accounted cfg s p m) (h : Invariant cfg workload s)
    (hp : p < workload.length) : s.Accounts cfg p workload[p] m := by
  have hservice := h.serviceTime hp
  constructor
  case timeLeft => rw [← hservice, ha.timeLeft]
  case finished =>
    rw [← hservice]
    refine ⟨ha.finished, fun heq => ?_⟩
    by_contra hnot
    have hless := ha.unfinished hnot
    omega
  case unwrapped =>
    intro hlt
    have hquantum : toUInt32 cfg.quantum = cfg.quantum := by
      apply toUInt32_natCast
      have hint := cfg.quantum_int
      omega
    rw [hquantum] at hlt
    rw [toUInt32_sub (h.timeLeft_lt p) hlt.le]
    omega

theorem run_accounts (hno : Undropped cfg workload n) (h : (run cfg workload n).state? = some s)
    (hp : p < workload.length) :
    s.Accounts cfg p workload[p] (quantaGiven cfg workload p n) := by
  rcases run_state_cases h with hrun | ⟨m, t, events, hmn, ht, hdone, hcharge, -⟩
  · exact (run_accounted p hno hrun).accounts (run_atHead n s hrun).toInvariant hp
  · have hhead := run_atHead m t ht
    rw [quantaGiven_done hmn hdone, quantaGiven_succ ht]
    exact (hcharge.accounted hhead (run_accounted p (hno.mono hmn.le) ht)).accounts
      (hcharge.invariant hhead) hp

/-- The quantum of a process that is dropped is never charged. -/
theorem run_uncharged (hno : Undropped cfg workload n) (hs : run cfg workload n = .next s)
    (h0 : s.numCycles = 0) (hcur : s.currentProcess = some p) :
    ∃ (hp : p < workload.length) (s' : State), (run cfg workload (n + 1)).state? = some s' ∧
      ¬ s'.Accounts cfg p workload[p] (quantaGiven cfg workload p (n + 1)) := by
  obtain ⟨hp, s', hs', hout, hsame⟩ := run_dropped_current hs h0 hcur
  refine ⟨hp, s', by rw [hs']; rfl, fun haccounts => ?_⟩
  have hhead := run_atHead n s hs
  have haccount := run_accounted p hno hs
  have hservice := hhead.toInvariant.serviceTime hp
  have hlt := haccount.unfinished (hhead.current_unfinished hcur)
  have hleft := haccounts.timeLeft
  rw [hsame, haccount.timeLeft, hservice, quantaGiven_succ hs, if_pos hcur, Nat.mul_succ] at hleft
  have hnever : quantaGiven cfg workload p n + 1 ≠
      quantaNeeded cfg.quantum workload[p].serviceTime.toNat := by
    intro heq
    rw [quantaGiven_succ hs, if_pos hcur] at haccounts
    exact hout (by simp [State.members, haccounts.finished.mpr heq])
  rw [hservice] at hlt
  have hpos := cfg.quantum_pos
  -- all the service time is covered already, so that the quantum before was the last one
  have hcovered : workload[p].serviceTime.toNat ≤ cfg.quantum * quantaGiven cfg workload p n := by
    omega
  rcases Nat.eq_zero_or_pos (quantaGiven cfg workload p n) with hzero | hgiven
  · have hone : quantaNeeded cfg.quantum workload[p].serviceTime.toNat ≤ 1 := by
      rw [quantaNeeded_le hpos le_rfl]
      rw [hzero] at hcovered
      omega
    omega
  · exact absurd ((quantaNeeded_le hpos hgiven).mpr hcovered) (not_le.mpr hlt)

/-- In what the first `n` passes reach, the time left of every process, when it has finished and
its unsigned remainder are right exactly when none of these passes finds `num_cycles` 0 with a
process running. -/
theorem service_time_accounted (cfg : Config) (workload : List Record) (n : ℕ) :
    (∀ m ≤ n, ∀ s, (run cfg workload m).state? = some s → ∀ p (hp : p < workload.length),
      (s.procs p).serviceTimeLeft =
        workload[p].serviceTime.toNat - cfg.quantum * quantaGiven cfg workload p m ∧
      (p ∈ s.finishedQueue ↔ quantaGiven cfg workload p m =
        quantaNeeded cfg.quantum workload[p].serviceTime.toNat) ∧
      (toUInt32 cfg.quantum < (s.procs p).serviceTimeLeft →
        (toUInt32 ((s.procs p).serviceTimeLeft - cfg.quantum) : ℤ) =
          (s.procs p).serviceTimeLeft - cfg.quantum)) ↔
      Undropped cfg workload n := by
  constructor
  · intro hall
    induction n with
    | zero => exact undropped_of_le (Nat.zero_le _)
    | succ n ih =>
      have hno := ih fun m hm => hall m (Nat.le_succ_of_le hm)
      refine undropped_succ.mpr ⟨hno, fun s hs h0 => ?_⟩
      by_contra hne
      obtain ⟨p, hcur⟩ := Option.ne_none_iff_exists'.mp hne
      obtain ⟨hp, s', hs', hnot⟩ := run_uncharged hno hs h0 hcur
      obtain ⟨htime, hfinished, hwrap⟩ := hall (n + 1) le_rfl s' hs' p hp
      exact hnot ⟨htime, hfinished, hwrap⟩
  · intro hno m hm s hs p hp
    have haccounts := run_accounts (hno.mono hm) hs hp
    exact ⟨haccounts.timeLeft, haccounts.finished, haccounts.unwrapped⟩

/-- After three passes the first of two jobs has been given one of the two quanta it needs. -/
theorem service_time_accounted_twoJobs : ∃ s : State,
    (run (sampleConfig .rr .infinite) twoJobs 3).state? = some s ∧
    (s.procs 0).serviceTimeLeft =
      3 - 2 * quantaGiven (sampleConfig .rr .infinite) twoJobs 0 3 := by
  have hrun : ∃ s : State, (run (sampleConfig .rr .infinite) twoJobs 3).state? = some s := ⟨_, rfl⟩
  obtain ⟨s, hs⟩ := hrun
  have haccounts := (service_time_accounted (sampleConfig .rr .infinite) twoJobs 3).mpr
    (undropped_of_le (by omega)) 3 le_rfl s hs 0 (by decide)
  exact ⟨s, hs, haccounts.1⟩

/-- The job that runs when `num_cycles` is 0 again is not charged for its quantum. -/
theorem late_job_uncharged : ¬ ∀ n s,
    (run (unitConfig .sjf .infinite .uint32) lateJobs n).state? = some s →
      ∀ p (hp : p < lateJobs.length), s.Accounts (unitConfig .sjf .infinite .uint32) p lateJobs[p]
        (quantaGiven (unitConfig .sjf .infinite .uint32) lateJobs p n) := by
  intro hall
  obtain ⟨s, hs, h0, hcur⟩ := lateJobs_running .infinite .uint32
  obtain ⟨hp, s', hs', hnot⟩ := run_uncharged (undropped_of_le le_rfl) hs h0 hcur
  exact hnot (hall _ s' hs' 1 hp)

end ProcessManager
