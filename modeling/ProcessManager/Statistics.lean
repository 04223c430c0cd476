import ProcessManager.ExactTimes
import ProcessManager.ShortestFirst

/-! The statistics: nobody finishes before his quanta fit in, and what `print_statistics` makes of
the turnaround times and overheads. -/
namespace ProcessManager

open Loop Rounding

/-- `enum value`. -/
inductive ValueField
  | arrivalTime
  | serviceTime
  | serviceTimeLeft
  | memoryRequirement
  | finishTime
  | turnaroundTime
  | overhead
  | pid
  deriving DecidableEq, Repr

/-- `get_value`: a `double`, `none` when it is infinite or not a number. -/
def getValue (process : Process) : ValueField → Option ℚ
  | .arrivalTime => toDouble process.arrivalTime
  | .serviceTime => toDouble process.serviceTime
  | .serviceTimeLeft => toDouble process.serviceTimeLeft
  | .memoryRequirement => toDouble process.memRequirement
  | .finishTime => toDouble process.finishTime
  | .turnaroundTime => toDouble process.turnaroundTime
  | .overhead => process.overhead
  | .pid => toDouble process.pid

/-- `mean`: the quotient of an empty list is not a number. -/
def Statistics.mean (list : List Process) (field : ValueField) : Option ℚ := do
  let sum ← list.foldlM (fun sum process => do binary64.round (sum + (← getValue process field))) 0
  binary64.div sum (← toDouble list.length)

/-- `max`: an empty list has no head to read. -/
def Statistics.max (list : List Process) (field : ValueField) : Option ℚ := do
  let first ← getValue (← list.head?) field
  list.foldlM (fun max process => do
    let value ← getValue process field
    return if value > max then value else max) first

/-- `round`: halves go away from zero. -/
def roundAway (x : ℚ) : ℤ := if 0 ≤ x then ⌊x + 1 / 2⌋ else -⌊-x + 1 / 2⌋

/-- `round(x * 100) / 100`. -/
def hundredths (x : ℚ) : Option ℚ := do
  let scaled ← binary64.round (x * 100)
  binary64.div (roundAway scaled) 100

/-- What `print_statistics` prints: `%u` of the two `int` values, the average where it is defined,
and the hundredths that `%.2lf` shows of the overheads. -/
structure Statistics where
  avgTurnaround : Option ℕ
  maxOverhead : ℤ
  avgOverhead : ℤ
  makespan : ℕ

/-- `print_statistics`. -/
def printStatistics (finished : List Process) (makespan : ℕ) : Option Statistics := do
  let turnaround ← Statistics.mean finished .turnaroundTime
  let avgOverhead ← hundredths (← Statistics.mean finished .overhead)
  let maxOverhead ← hundredths (← Statistics.max finished .overhead)
  return {
    avgTurnaround := (toInt ⌈turnaround⌉).map toUInt32
    maxOverhead := roundEven (maxOverhead * 100)
    avgOverhead := roundEven (avgOverhead * 100)
    makespan := toUInt32 makespan }

variable {cfg : Config} {workload : List Record} {s s' t : State} {p q : ProcId}
  {events : List Event} {m n : ℕ} {field : ValueField} {list : List Process} {values : List ℚ}
  {x low high : ℚ}

/-- A loop over the values of a field, when all of them are numbers. -/
theorem foldlM_getValue {f : ℚ → ℚ → Option ℚ} (h : list.map (getValue · field) = values.map some)
    (a : ℚ) : list.foldlM (fun a process => (getValue process field).bind (f a)) a =
      values.foldlM f a := by
  induction list generalizing values a with
  | nil =>
    obtain rfl : values = [] := by simpa using h.symm
    rfl
  | cons process list ih =>
    obtain ⟨value, values, rfl⟩ : ∃ v vs, values = v :: vs := by
      cases values with
      | nil => simp at h
      | cons v vs => exact ⟨v, vs, rfl⟩
    obtain ⟨hvalue, hrest⟩ := List.cons.inj h
    simp only [List.foldlM_cons, hvalue, Option.bind_some]
    exact congrArg (Option.bind (f a value)) (funext fun b => ih hrest b)

/-- The largest `double` is far away. -/
theorem lt_largest (h : x ≤ 2 ^ 100) : x < 2 ^ binary64.maxExp := by
  have hpower : (2 : ℚ) ^ (100 : ℤ) < 2 ^ binary64.maxExp :=
    zpow_lt_zpow_right₀ one_lt_two (by decide)
  exact h.trans_lt (by exact_mod_cast hpower)

/-- The integers up to `2 ^ 53` are doubles. -/
theorem toDouble_natCast (h : n ≤ 2 ^ 53) : toDouble n = some (n : ℚ) := by
  have hexact : binary64.nearest n = n := nearest_natCast (by decide) h
  have hle : (n : ℚ) ≤ 2 ^ 53 := by exact_mod_cast h
  rw [toDouble, Int.cast_natCast, round_eq_some (Nat.cast_nonneg n), hexact]
  rw [hexact]
  exact lt_largest (hle.trans (by norm_num))

/-- The larger of two, as the loop of `max` computes it. -/
theorem foldl_larger_ge (values : List ℚ) (a : ℚ) :
    a ≤ values.foldl (fun max value => if value > max then value else max) a ∧
      ∀ v ∈ values, v ≤ values.foldl (fun max value => if value > max then value else max) a := by
  induction values generalizing a with
  | nil => simp
  | cons value values ih =>
    obtain ⟨hstart, hall⟩ := ih (if value > a then value else a)
    have hboth : a ≤ (if value > a then value else a) ∧
        value ≤ (if value > a then value else a) := by
      split_ifs with hlt
      · exact ⟨hlt.le, le_rfl⟩
      · exact ⟨le_rfl, not_lt.mp hlt⟩
    rw [List.foldl_cons]
    refine ⟨hboth.1.trans hstart, fun v hv => ?_⟩
    rcases List.mem_cons.mp hv with rfl | hv
    · exact hboth.2.trans hstart
    · exact hall v hv

theorem foldl_larger_mem (values : List ℚ) (a : ℚ) :
    values.foldl (fun max value => if value > max then value else max) a ∈ a :: values := by
  induction values generalizing a with
  | nil => simp
  | cons value values ih =>
    rw [List.foldl_cons]
    have hmem := ih (if value > a then value else a)
    split_ifs at hmem ⊢ with hlt
    · exact List.mem_cons_of_mem _ hmem
    · simp only [List.mem_cons] at hmem ⊢
      tauto

/-- `max` is a largest value. -/
theorem max_isGreatest (h : list.map (getValue · field) = values.map some) (hne : list ≠ []) :
    ∃ max, Statistics.max list field = some max ∧ IsGreatest {v | v ∈ values} max := by
  obtain ⟨head, tail, rfl⟩ := List.exists_cons_of_ne_nil hne
  obtain ⟨value, values, rfl⟩ : ∃ v vs, values = v :: vs := by
    cases values with
    | nil => simp at h
    | cons v vs => exact ⟨v, vs, rfl⟩
  have hvalue : getValue head field = some value := (List.cons.inj h).1
  refine ⟨_, ?_, ?_, fun v hv => (foldl_larger_ge (value :: values) value).2 v hv⟩
  · simp only [Statistics.max, List.head?_cons, Option.bind_eq_bind, Option.bind_some, hvalue]
    exact (foldlM_getValue h value).trans List.foldlM_pure
  · have hmem := foldl_larger_mem (value :: values) value
    simpa using hmem

theorem growth_le (hlarge : high ≤ 2 ^ 33) (hn : n ≤ 2 ^ 32) :
    high * (1 + binary64.unit) ^ n ≤ 2 ^ 34 := by
  have hgrowth : (1 + binary64.unit) ^ n ≤ 2 := growth_le_two (by simp only [binary64]; omega)
  have hnonneg : 0 ≤ (1 + binary64.unit) ^ n := pow_nonneg (by linarith [unit_nonneg binary64]) n
  calc high * (1 + binary64.unit) ^ n ≤ 2 ^ 33 * 2 := by gcongr
    _ = 2 ^ 34 := by norm_num

/-- The mean of values that are no less than 1 is no less than 1; it is no more than the largest, up
to one rounding error for each value and one for the quotient. -/
theorem mean_bounded (h : list.map (getValue · field) = values.map some) (hne : list ≠ [])
    (hcount : list.length < 2 ^ 32) (hlow : ∀ v ∈ values, 1 ≤ v) (hhigh : ∀ v ∈ values, v ≤ high)
    (hlarge : high ≤ 2 ^ 33) : ∃ mean, Statistics.mean list field = some mean ∧ 1 ≤ mean ∧
      mean ≤ high * (1 + binary64.unit) ^ (list.length + 1) := by
  have hlength : values.length = list.length := by simpa using (congrArg List.length h).symm
  have hnone : values ≠ [] := List.ne_nil_of_length_pos (hlength ▸ List.length_pos_of_ne_nil hne)
  obtain ⟨v, hv⟩ := List.exists_mem_of_ne_nil _ hnone
  have hpos : 0 ≤ high := zero_le_one.trans ((hlow v hv).trans (hhigh v hv))
  have hunit := unit_nonneg binary64
  have hroom : values.length * high * (1 + binary64.unit) ^ values.length <
      2 ^ binary64.maxExp := by
    have hcast : (values.length : ℚ) ≤ 2 ^ 32 := by exact_mod_cast hlength.trans_le hcount.le
    apply lt_largest
    calc values.length * high * (1 + binary64.unit) ^ values.length
        = values.length * (high * (1 + binary64.unit) ^ values.length) := by ring
      _ ≤ 2 ^ 32 * 2 ^ 34 := by
        gcongr
        exact growth_le hlarge (by omega)
      _ ≤ 2 ^ 100 := by norm_num
  obtain ⟨sum, hsum, hge, hle⟩ := sum_bounded binary64_minExp hlow hhigh
    (by simp only [binary64]; omega) hroom
  have hsize : (0 : ℚ) < list.length := by exact_mod_cast List.length_pos_of_ne_nil hne
  rw [hlength] at hge hle
  have hone : 1 ≤ sum / list.length := by rwa [le_div_iff₀ hsize, one_mul]
  have htop : sum / list.length ≤ high * (1 + binary64.unit) ^ list.length := by
    rw [div_le_iff₀ hsize]
    calc sum ≤ list.length * high * (1 + binary64.unit) ^ list.length := hle
      _ = high * (1 + binary64.unit) ^ list.length * list.length := by ring
  have hgrown : (1 + binary64.unit) * (sum / list.length) ≤
      high * (1 + binary64.unit) ^ (list.length + 1) := by
    calc (1 + binary64.unit) * (sum / list.length)
        ≤ (1 + binary64.unit) * (high * (1 + binary64.unit) ^ list.length) := by gcongr
      _ = high * (1 + binary64.unit) ^ (list.length + 1) := by ring
  obtain ⟨hround, hmean, hbound⟩ := round_some binary64_minExp hone
    (lt_largest (hgrown.trans ((growth_le hlarge (by omega)).trans (by norm_num))))
  refine ⟨_, ?_, hmean, hbound.trans hgrown⟩
  have hfold : list.foldlM (fun sum process =>
      (getValue process field).bind fun value => binary64.round (sum + value)) 0 = some sum :=
    (foldlM_getValue h 0).trans hsum
  have hsize' : toDouble list.length = some (list.length : ℚ) := toDouble_natCast (by omega)
  simp only [Statistics.mean, Option.bind_eq_bind, hfold, hsize', Option.bind_some,
    Format.div, if_neg hsize.ne', hround]

/-- What is at least 1 is shown as no less. -/
theorem hundredths_ge (hlow : 1 ≤ x) (hhigh : x ≤ 2 ^ 34) :
    ∃ y, hundredths x = some y ∧ 100 ≤ roundEven (y * 100) := by
  have hunit : 1 + binary64.unit ≤ 2 := by norm_num [binary64, Format.unit]
  have hpos : (0 : ℚ) ≤ 1 + binary64.unit := by linarith [unit_nonneg binary64]
  have hscaled : (1 + binary64.unit) * (x * 100) ≤ 2 ^ 42 := by
    calc (1 + binary64.unit) * (x * 100) ≤ 2 * (2 ^ 34 * 100) := by gcongr
      _ ≤ 2 ^ 42 := by norm_num
  have hscaled_ge : 1 ≤ x * 100 := by linarith
  obtain ⟨hround, -, hle⟩ := round_some binary64_minExp hscaled_ge
    (lt_largest (hscaled.trans (by norm_num)))
  have hcent : 100 ≤ binary64.nearest (x * 100) := by
    have hexact : binary64.nearest (100 : ℕ) = (100 : ℕ) := nearest_natCast (by decide) (by decide)
    have hmono : binary64.nearest (100 : ℕ) ≤ binary64.nearest (x * 100) :=
      nearest_mono (by norm_num) (by push_cast; linarith)
    rw [hexact] at hmono
    exact_mod_cast hmono
  generalize hz : binary64.nearest (x * 100) = z at hround hle hcent
  have haway : roundAway z = ⌊z + 1 / 2⌋ := if_pos (by linarith)
  have hwhole : 100 ≤ roundAway z := by
    rw [haway, Int.le_floor]
    push_cast
    linarith
  have hwhole' : (100 : ℚ) ≤ roundAway z := by exact_mod_cast hwhole
  have hsmall : (roundAway z : ℚ) ≤ z + 1 / 2 := by
    rw [haway]
    exact Int.floor_le _
  have hdivided : (1 + binary64.unit) * (roundAway z / 100) ≤ 2 ^ 42 := by
    calc (1 + binary64.unit) * (roundAway z / 100) ≤ 2 * ((2 ^ 42 + 1 / 2) / 100) := by
          gcongr
          linarith
      _ ≤ 2 ^ 42 := by norm_num
  have hdivided_ge : 1 ≤ (roundAway z : ℚ) / 100 := by linarith
  obtain ⟨hquotient, hone, -⟩ := round_some binary64_minExp hdivided_ge
    (lt_largest (hdivided.trans (by norm_num)))
  refine ⟨binary64.nearest (roundAway z / 100), ?_, ?_⟩
  · simp only [hundredths, Option.bind_eq_bind, hround, Option.bind_some, Format.div, hquotient]
    norm_num
  · have hmono := roundEven_mono (x := ((100 : ℤ) : ℚ))
      (y := binary64.nearest (roundAway z / 100) * 100) (by push_cast; linarith)
    rwa [roundEven_intCast] at hmono

/-- At the head before pass `n`: a process on the list has been charged nothing, and one that has
arrived had a pass before its first quantum. -/
structure QuantaFit (cfg : Config) (workload : List Record) (p : ProcId) (n : ℕ) (s : State) :
    Prop where
  waiting : p ∈ s.processes → quantaGiven cfg workload p n = 0
  arrived : p ∉ s.processes → (loadedProcs workload p).arrivalTime +
    cfg.quantum * (quantaGiven cfg workload p n + 1) ≤ cfg.quantum * n

/-- Who is on the list does not run. -/
theorem AtHead.not_current_of_processes (h : AtHead cfg workload s) (hp : p ∈ s.processes) :
    s.currentProcess ≠ some p := by
  intro hcur
  obtain ⟨hnot, -⟩ := h.running_elsewhere (p := p) (by simp [h.running_some hcur])
  exact hnot hp

/-- Who leaves the list in a pass has arrived by its time. -/
theorem Step.arrival_le (h : AtHead cfg workload s) (hs : Step cfg s events s')
    (hp : p ∈ s.processes) (hp' : p ∉ s'.processes) :
    (loadedProcs workload p).arrivalTime ≤ s.simTime := by
  rw [hs.processes h] at hp'
  rw [← List.takeWhile_append_dropWhile
    (p := fun p => decide ((loadedProcs workload p).arrivalTime ≤ s.simTime))
    (l := s.processes)] at hp
  rcases List.mem_append.mp hp with hp | hp
  · simpa using List.mem_takeWhile_imp hp
  · exact absurd hp hp'

theorem Step.quantaFit (hn : run cfg workload n = .next s) (h : AtHead cfg workload s)
    (htime : s.simTime = cfg.quantum * n) (hq : QuantaFit cfg workload p n s)
    (hs : Step cfg s events s') : QuantaFit cfg workload p (n + 1) s' := by
  have hmul : cfg.quantum * (n + 1) = cfg.quantum * n + cfg.quantum := by ring
  by_cases hp : p ∈ s.processes
  · have hgiven : quantaGiven cfg workload p (n + 1) = 0 := by
      rw [quantaGiven_succ hn, hq.waiting hp, if_neg (h.not_current_of_processes hp)]
    refine ⟨fun _ => hgiven, fun hp' => ?_⟩
    have hle := hs.arrival_le h hp hp'
    rw [hgiven, hmul]
    omega
  · constructor
    · intro hp'
      rw [hs.processes h] at hp'
      exact absurd ((List.dropWhile_sublist _).mem hp') hp
    · intro _
      have hle := hq.arrived hp
      have hgiven : quantaGiven cfg workload p (n + 1) ≤ quantaGiven cfg workload p n + 1 := by
        rw [quantaGiven_succ hn]
        split_ifs <;> omega
      have hquanta : cfg.quantum * (quantaGiven cfg workload p (n + 1) + 1) ≤
          cfg.quantum * (quantaGiven cfg workload p n + 1) + cfg.quantum := by
        calc cfg.quantum * (quantaGiven cfg workload p (n + 1) + 1)
            ≤ cfg.quantum * (quantaGiven cfg workload p n + 1 + 1) := by gcongr
          _ = cfg.quantum * (quantaGiven cfg workload p n + 1) + cfg.quantum := by ring
      omega

theorem OnTime.quantaFit (htime : OnTime cfg workload)
    (hcount : makespan cfg.quantum workload < 2 ^ 32) (hp : p < workload.length) :
    ∀ n s, run cfg workload n = .next s → QuantaFit cfg workload p n s := by
  apply run_invariant
  case h0 => exact ⟨fun _ => rfl, fun hnot => absurd (List.mem_range.mpr hp) hnot⟩
  case hstep =>
    intro n s events s' hn _ h hq hs
    obtain ⟨hexact, hpaced⟩ := htime n s hn
    rw [run_entered (hpaced.bound.trans_lt hcount) hn] at hs
    exact hs.quantaFit hn h hexact hq

/-- In the pass that finishes a process it has been given all it needs. -/
theorem FinishedIn.quantaGiven_eq (hm : m ≤ 2 ^ 32) (h : FinishedIn cfg workload s p m t) :
    quantaGiven cfg workload p m + 1 =
      quantaNeeded cfg.quantum (loadedProcs workload p).serviceTime := by
  have hhead := run_atHead m t h.head
  obtain ⟨charged, t1, hcharge, hfinished, -⟩ := h.charge
  have haccount := hcharge.accounted hhead (run_accounted p (undropped_of_le hm) h.head)
  have hall := haccount.finished (by simp [hfinished])
  rwa [if_pos h.current, ((hcharge.invariant hhead).loaded p).serviceTime] at hall

/-- Its finish time leaves room for them after its arrival. -/
theorem FinishedIn.finishTime_ge (htime : OnTime cfg workload)
    (hcount : makespan cfg.quantum workload < 2 ^ 32) (hp : p < workload.length)
    (h : FinishedIn cfg workload s p m t) :
    (s.procs p).finishTime = cfg.quantum * m ∧ (loadedProcs workload p).arrivalTime +
      cfg.quantum * quantaNeeded cfg.quantum (loadedProcs workload p).serviceTime ≤
        (s.procs p).finishTime := by
  have hexact : (s.procs p).finishTime = cfg.quantum * m := h.time.trans (htime m t h.head).1
  have hnot : p ∉ t.processes := fun hmem =>
    (run_atHead m t h.head).not_current_of_processes hmem h.current
  have hm : m ≤ 2 ^ 32 := ((htime m t h.head).2.bound.trans_lt hcount).le
  have hfit := (htime.quantaFit hcount hp m t h.head).arrived hnot
  rw [h.quantaGiven_eq hm, ← hexact] at hfit
  exact ⟨hexact, hfit⟩

/-- What `update_stats` computes: a turnaround time that did not wrap and covers the service time,
and the `double` next to a quotient of at least 1, which is no less than 1 either. -/
structure Figures (quantum : ℕ) (process : Process) : Prop where
  finishTime_ge : process.arrivalTime + quantum * (process.serviceTime ⌈/⌉ quantum) ≤
    process.finishTime
  turnaround_eq : process.turnaroundTime = process.finishTime - process.arrivalTime
  turnaround_ge : process.serviceTime ≤ process.turnaroundTime
  quotient_ge : 1 ≤ (process.turnaroundTime : ℚ) / process.serviceTime
  overhead : ∃ overhead, process.overhead = some overhead ∧
    overhead = binary64.nearest (process.turnaroundTime / process.serviceTime) ∧
    1 ≤ overhead ∧ overhead ≤ 2 ^ 33

/-- The division of `update_stats`. -/
theorem overhead_ge {turnaround service : ℕ} (hservice : 1 ≤ service)
    (hge : service ≤ turnaround) (hlt : turnaround < 2 ^ 32) : ∃ overhead,
      (do binary64.div (← toDouble turnaround) (← toDouble service)) = some overhead ∧
      overhead = binary64.nearest (turnaround / service) ∧ 1 ≤ overhead ∧ overhead ≤ 2 ^ 33 := by
  have hpos : (0 : ℚ) < service := by exact_mod_cast hservice
  have hcast : (turnaround : ℚ) ≤ 2 ^ 32 := by exact_mod_cast hlt.le
  have hone : 1 ≤ (turnaround : ℚ) / service := by
    rw [le_div_iff₀ hpos, one_mul]
    exact_mod_cast hge
  have hunit : 1 + binary64.unit ≤ 2 := by norm_num [binary64, Format.unit]
  have hhigh : (1 + binary64.unit) * (turnaround / service) ≤ 2 ^ 33 := by
    have hquotient : (turnaround : ℚ) / service ≤ 2 ^ 32 := by
      rw [div_le_iff₀ hpos]
      exact hcast.trans (le_mul_of_one_le_right (by norm_num) (by exact_mod_cast hservice))
    calc (1 + binary64.unit) * (turnaround / service) ≤ 2 * 2 ^ 32 := by gcongr
      _ = 2 ^ 33 := by norm_num
  obtain ⟨hround, hlow, hle⟩ := round_some binary64_minExp hone
    (lt_largest (hhigh.trans (by norm_num)))
  refine ⟨_, ?_, rfl, hlow, hle.trans hhigh⟩
  simp only [toDouble_natCast (show turnaround ≤ 2 ^ 53 by omega),
    toDouble_natCast (show service ≤ 2 ^ 53 by omega), Option.bind_eq_bind, Option.bind_some,
    Format.div, if_neg hpos.ne', hround]

theorem Invariant.lt_of_finished (h : Invariant cfg workload s) (hp : p ∈ s.finishedQueue) :
    p < workload.length := h.lt_of_member (by simp [State.members, hp])

theorem run_figures (htime : OnTime cfg workload)
    (hwrap : cfg.quantum * makespan cfg.quantum workload < 2 ^ 32)
    (hservice : ∀ r ∈ workload, 1 ≤ r.serviceTime)
    (h : (run cfg workload n).state? = some s) (hp : p ∈ s.finishedQueue) :
    Figures cfg.quantum (s.procs p) := by
  have hinv := run_state_invariant h
  have hlt := hinv.lt_of_finished hp
  have hcount := (noWrap_of_time hwrap).1
  obtain ⟨m, t, hfinished⟩ := run_finishedIn h hp
  obtain ⟨hexact, hge⟩ := hfinished.finishTime_ge htime hcount hlt
  have hloaded := hinv.loaded p
  rw [← hloaded.arrivalTime, ← hloaded.serviceTime] at hge
  have hceil : (s.procs p).serviceTime ⌈/⌉ cfg.quantum ≤
      quantaNeeded cfg.quantum (s.procs p).serviceTime := le_max_right _ _
  have hcover : (s.procs p).serviceTime ≤
      cfg.quantum * ((s.procs p).serviceTime ⌈/⌉ cfg.quantum) :=
    (ceilDiv_le_iff_le_mul cfg.quantum_pos).mp le_rfl
  have hroom := Nat.mul_le_mul_left cfg.quantum hceil
  have hbound : cfg.quantum * m ≤ cfg.quantum * makespan cfg.quantum workload :=
    Nat.mul_le_mul_left _ (htime m t hfinished.head).2.bound
  have hstats := run_settled h hp
  have hturnaround : (s.procs p).turnaroundTime =
      (s.procs p).finishTime - (s.procs p).arrivalTime := by
    have hcast : ((s.procs p).finishTime : ℤ) - (s.procs p).arrivalTime =
        (((s.procs p).finishTime - (s.procs p).arrivalTime : ℕ) : ℤ) := by omega
    have hwrapped : cfg.clock.wrap (((s.procs p).finishTime - (s.procs p).arrivalTime : ℕ) : ℤ) =
        (s.procs p).finishTime - (s.procs p).arrivalTime :=
      Clock.wrap_natCast fun _ => by omega
    rw [← hwrapped, ← hcast]
    exact (congrArg Process.turnaroundTime hstats).symm
  have hpos : 1 ≤ (s.procs p).serviceTime := by
    rw [hloaded.serviceTime, loadedProcs_getElem hlt]
    exact UInt32.le_iff_toNat_le.mp (hservice _ (List.getElem_mem hlt))
  have hturnaround_ge : (s.procs p).serviceTime ≤ (s.procs p).turnaroundTime := by omega
  obtain ⟨overhead, hdiv, hoverhead⟩ := overhead_ge hpos hturnaround_ge (by omega)
  refine ⟨by omega, hturnaround, hturnaround_ge, ?_, overhead, ?_, hoverhead⟩
  · rw [le_div_iff₀ (by exact_mod_cast hpos), one_mul]
    exact_mod_cast hturnaround_ge
  · have hstored := congrArg Process.overhead hstats
    have hwrapped := congrArg Process.turnaroundTime hstats
    simp only [updateStats] at hstored hwrapped
    rw [hwrapped, hdiv] at hstored
    exact hstored.symm

/-- The loop is left at the largest finish time. -/
theorem OnTime.simTime_isGreatest (htime : OnTime cfg workload)
    (h : run cfg workload n = .done s) :
    IsGreatest {time | ∃ p ∈ s.finishedQueue, (s.procs p).finishTime = time} s.simTime := by
  obtain ⟨m, t, events, -, ht, hdone, hcharge, hne, -⟩ := run_done h
  have hstate : (run cfg workload n).state? = some s := by rw [h]; rfl
  obtain ⟨hexact, -⟩ := htime m t ht
  have hend : s.simTime = cfg.quantum * m := hcharge.clock.2.1.trans hexact
  constructor
  · obtain ⟨p, hp, hnot⟩ : ∃ p ∈ s.finishedQueue, p ∉ t.finishedQueue := by
      have hhead := run_atHead m t ht
      cases hcharge with
      | idle => exact absurd rfl hne
      | quantum => exact absurd rfl hne
      | finish hcur => exact ⟨_, by simp, hhead.current_unfinished hcur⟩
    exact ⟨p, hp, (hcharge.settles hp hnot).1.trans hcharge.clock.2.1.symm⟩
  · rintro time ⟨p, hp, rfl⟩
    obtain ⟨k, u, hfinished⟩ := run_finishedIn hstate hp
    have hkm : k ≤ m := by
      by_contra hlt
      have hstill : run cfg workload k = .done s := iterate_done_of_le (by omega) hdone
      rw [hfinished.head] at hstill
      cases hstill
    rw [hfinished.time, (htime k u hfinished.head).1, hend]
    exact Nat.mul_le_mul_left _ hkm

/-- The values of a field of the finished processes, when all of them are numbers. -/
theorem values_some (field : ValueField) (low high : ℚ) (h : ∀ p ∈ s.finishedQueue, ∃ value,
    getValue (s.procs p) field = some value ∧ low ≤ value ∧ value ≤ high) :
    ∃ values : List ℚ, (s.finishedQueue.map s.procs).map (getValue · field) = values.map some ∧
      ∀ v ∈ values, low ≤ v ∧ v ≤ high := by
  generalize s.finishedQueue = finished at h
  induction finished with
  | nil => exact ⟨[], rfl, by simp⟩
  | cons p finished ih =>
    obtain ⟨values, hvalues, hall⟩ := ih fun q hq => h q (List.mem_cons_of_mem _ hq)
    obtain ⟨value, hsome, hbounds⟩ := h p List.mem_cons_self
    refine ⟨value :: values, ?_, by simpa using ⟨hbounds, hall⟩⟩
    rw [List.map_cons, List.map_cons, List.map_cons, ← hvalues]
    exact congrArg (· :: _) hsome

theorem Figures.turnaround_some {quantum : ℕ} {process : Process} (h : Figures quantum process)
    (hlt : process.finishTime < 2 ^ 32) : ∃ value,
      getValue process .turnaroundTime = some value ∧ 1 ≤ value ∧ value ≤ 2 ^ 33 := by
  have hsmall : process.turnaroundTime < 2 ^ 32 := by
    rw [h.turnaround_eq]
    exact (Nat.sub_le _ _).trans_lt hlt
  have hpos : 1 ≤ process.turnaroundTime := by
    by_contra hzero
    have hquotient := h.quotient_ge
    obtain hnone : process.turnaroundTime = 0 := by omega
    norm_num [hnone] at hquotient
  refine ⟨process.turnaroundTime, toDouble_natCast (by omega), by exact_mod_cast hpos, ?_⟩
  exact_mod_cast (by omega : process.turnaroundTime ≤ 2 ^ 33)

/-- What is printed of figures that are no less than 1. -/
theorem printStatistics_ge {finished : List Process} {makespan : ℕ} {turnaround mean max : ℚ}
    (hturnaround : Statistics.mean finished .turnaroundTime = some turnaround)
    (hmean : Statistics.mean finished .overhead = some mean)
    (hmax : Statistics.max finished .overhead = some max) (hmean1 : 1 ≤ mean)
    (hmean2 : mean ≤ 2 ^ 34) (hmax1 : 1 ≤ max) (hmax2 : max ≤ 2 ^ 34) (hlt : makespan < 2 ^ 32) :
    ∃ statistics, printStatistics finished makespan = some statistics ∧
      statistics.makespan = makespan ∧ 100 ≤ statistics.avgOverhead ∧
      100 ≤ statistics.maxOverhead := by
  obtain ⟨avg, havg, havg_ge⟩ := hundredths_ge hmean1 hmean2
  obtain ⟨largest, hlargest, hlargest_ge⟩ := hundredths_ge hmax1 hmax2
  refine ⟨⟨(toInt ⌈turnaround⌉).map toUInt32, roundEven (largest * 100), roundEven (avg * 100),
    toUInt32 makespan⟩, ?_, toUInt32_natCast hlt, havg_ge, hlargest_ge⟩
  simp only [printStatistics, Option.bind_eq_bind, hturnaround, hmean, hmax, Option.bind_some,
    havg, hlargest]
  rfl

/-- Every process takes a quantum of the makespan. -/
theorem length_le_makespan (quantum : ℕ) (workload : List Record) :
    workload.length ≤ makespan quantum workload := by
  have hfold : ∀ (records : List Record) (n : ℕ), n + records.length ≤
      records.foldl (fun n r => max n (r.arrivalTime.toNat ⌈/⌉ quantum) +
        quantaNeeded quantum r.serviceTime.toNat) n := by
    intro records
    induction records with
    | nil => simp
    | cons r records ih =>
      intro n
      have hrest := ih (max n (r.arrivalTime.toNat ⌈/⌉ quantum) +
        quantaNeeded quantum r.serviceTime.toNat)
      have hone := one_le_quantaNeeded quantum r.serviceTime.toNat
      have hmax := le_max_left n (r.arrivalTime.toNat ⌈/⌉ quantum)
      rw [List.foldl_cons, List.length_cons]
      omega
  have hall := hfold workload 0
  rwa [Nat.zero_add] at hall

/-- Whatever the scheduler, the strategy and the quantum: a process finishes no earlier than its
quanta fit in after its arrival, so its turnaround time does not wrap and its overhead is at least
1; and the statistics are those of a list that is not empty, with the largest finish time as the
makespan, a mean overhead of at least 1, and one that is above the maximum by rounding errors at
most. -/
theorem statistics_bounded (cfg : Config) (workload : List Record) (hne : workload ≠ [])
    (horder : ArrivalOrder workload) (hservice : ∀ r ∈ workload, 1 ≤ r.serviceTime)
    (hreq : ∀ r ∈ workload, 1 ≤ r.memRequirement ∧ r.memRequirement ≤ 2048)
    (hwrap : cfg.quantum * makespan cfg.quantum workload < 2 ^ 32) :
    (∀ n s p, (run cfg workload n).state? = some s → p ∈ s.finishedQueue →
      Figures cfg.quantum (s.procs p)) ∧
    ∀ n s, run cfg workload n = .done s →
      s.finishedQueue ≠ [] ∧
      IsGreatest {time | ∃ p ∈ s.finishedQueue, (s.procs p).finishTime = time} s.simTime ∧
      (∃ mean max, Statistics.mean (s.finishedQueue.map s.procs) .overhead = some mean ∧
        Statistics.max (s.finishedQueue.map s.procs) .overhead = some max ∧
        1 ≤ mean ∧ mean ≤ max * (1 + 2 ^ (-53 : ℤ)) ^ (workload.length + 1)) ∧
      ∃ statistics, printStatistics (s.finishedQueue.map s.procs) s.simTime = some statistics ∧
        statistics.makespan = s.simTime ∧ 100 ≤ statistics.avgOverhead ∧
        100 ≤ statistics.maxOverhead := by
  have hcounted := noWrap_of_time hwrap
  have hpos : cfg.memStrategy = .bestFit → Positive workload := fun _ r hr => (hreq r hr).1
  have hfits : cfg.memStrategy = .bestFit → ∀ r ∈ workload, r.memRequirement ≤ memCapacity :=
    fun _ r hr => (hreq r hr).2
  have htime : OnTime cfg workload := run_paced hne horder hpos hfits hcounted
  have hfigures : ∀ n s p, (run cfg workload n).state? = some s → p ∈ s.finishedQueue →
      Figures cfg.quantum (s.procs p) :=
    fun n s p hs hp => run_figures htime hwrap hservice hs hp
  refine ⟨hfigures, fun n s hs => ?_⟩
  have hstate : (run cfg workload n).state? = some s := by rw [hs]; rfl
  have hlength : s.finishedQueue.length = workload.length := by
    simpa using (run_done_finished hs).1.length_eq
  have hnonempty : s.finishedQueue ≠ [] := by
    rw [← List.length_pos_iff, hlength, List.length_pos_iff]
    exact hne
  have hlist : s.finishedQueue.map s.procs ≠ [] := by simpa using hnonempty
  have hcount : (s.finishedQueue.map s.procs).length < 2 ^ 32 := by
    rw [List.length_map, hlength]
    exact (length_le_makespan cfg.quantum workload).trans_lt hcounted.1
  obtain ⟨overheads, hoverheads, hbounds⟩ := values_some .overhead 1 (2 ^ 33) fun p hp => by
    obtain ⟨overhead, hsome, -, hbounds⟩ := (hfigures n s p hstate hp).overhead
    exact ⟨overhead, hsome, hbounds⟩
  obtain ⟨max, hmax, hmem, hlargest⟩ := max_isGreatest hoverheads hlist
  obtain ⟨mean, hmean, hone, hle⟩ := mean_bounded hoverheads hlist hcount
    (fun v hv => (hbounds v hv).1) hlargest (hbounds max hmem).2
  have hend := htime.simTime_isGreatest hs
  have hlt : s.simTime < 2 ^ 32 := by
    rw [run_done_time hne horder hpos hfits hcounted hs]
    exact hwrap
  have hunit : binary64.unit = 2 ^ (-53 : ℤ) := rfl
  obtain ⟨turnarounds, hturnarounds, hranges⟩ := values_some .turnaroundTime 1 (2 ^ 33)
    fun p hp => (hfigures n s p hstate hp).turnaround_some ((hend.2 ⟨p, hp, rfl⟩).trans_lt hlt)
  obtain ⟨turnaround, hturnaround, -⟩ := mean_bounded hturnarounds hlist hcount
    (fun v hv => (hranges v hv).1) (fun v hv => (hranges v hv).2) le_rfl
  have hprinted := printStatistics_ge hturnaround hmean hmax hone
    (hle.trans (growth_le (hbounds max hmem).2 (by omega))) (hbounds max hmem).1
    ((hbounds max hmem).2.trans (by norm_num)) hlt
  rw [List.length_map, hlength, hunit] at hle
  exact ⟨hnonempty, hend, ⟨mean, max, hmean, hmax, hone, hle⟩, hprinted⟩

/-- Under RR the job of 3 units finishes last, at time 6. -/
theorem statistics_bounded_twoJobs : ∃ s : State,
    (run (sampleConfig .rr .bestFit) twoJobs 4) = .done s ∧ Figures 2 (s.procs 0) ∧
    IsGreatest {time | ∃ p ∈ s.finishedQueue, (s.procs p).finishTime = time} 6 := by
  obtain ⟨hfigures, hend⟩ := statistics_bounded (sampleConfig .rr .bestFit) twoJobs
    (by simp [twoJobs]) (by simp [twoJobs, ArrivalOrder]) (by simp [twoJobs]) (by simp [twoJobs])
    (by decide)
  have hrun : ∃ s : State, run (sampleConfig .rr .bestFit) twoJobs 4 = .done s ∧
      0 ∈ s.finishedQueue ∧ s.simTime = 6 := ⟨_, rfl, by decide, rfl⟩
  obtain ⟨s, hs, hmem, htime⟩ := hrun
  refine ⟨s, hs, hfigures 4 s 0 (by rw [hs]; rfl) hmem, ?_⟩
  rw [← htime]
  exact (hend 4 s hs).2.1

/-- Three jobs of 5 units, each alone in its quantum of 8. -/
def spacedJobs : List Record := [⟨0, [65], 5, 1⟩, ⟨8, [66], 5, 1⟩, ⟨16, [67], 5, 1⟩]

def spacedConfig : Config :=
  { sampleConfig .sjf .infinite with
    quantum := 8
    quantum_pos := by decide
    quantum_int := by decide }

/-- The three overheads are the `double` next to 8 / 5; their sum is rounded up, and the mean comes
out above all of them. -/
theorem spaced_jobs_mean_above_max : ∃ s mean max, run spacedConfig spacedJobs 4 = .done s ∧
    Statistics.mean (s.finishedQueue.map s.procs) .overhead = some mean ∧
    Statistics.max (s.finishedQueue.map s.procs) .overhead = some max ∧ max < mean := by
  obtain ⟨s, hs⟩ : ∃ s, run spacedConfig spacedJobs 4 = .done s :=
    run_reaches_done (by simp [spacedJobs]) (by simp [spacedJobs, ArrivalOrder])
      (fun h => by cases h) (fun h => by cases h) (noWrap_of_time (by decide))
      (starts_of_arrived (first_arrived rfl) fun h => by cases h)
  have hchecked : (run spacedConfig spacedJobs 4).state?.all (fun s =>
      Statistics.mean (s.finishedQueue.map s.procs) .overhead =
          some (7205759403792795 / 4503599627370496) ∧
        Statistics.max (s.finishedQueue.map s.procs) .overhead =
          some (3602879701896397 / 2251799813685248)) = true := by
    decide +kernel
  obtain ⟨hmean, hmax⟩ := of_decide_eq_true (by simpa [hs, Outcome.state?] using hchecked)
  exact ⟨s, _, _, hs, hmean, hmax, by norm_num⟩

end ProcessManager
