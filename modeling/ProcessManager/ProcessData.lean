import ProcessManager.Library.Rounding

/-! The process record and the functions of `process_data.c` that the simulation calls. -/
namespace ProcessManager

open Rounding

/-- `enum state`. -/
inductive ProcessState
  | idle
  | ready
  | running
  | finished
  deriving DecidableEq, Repr

/-- The address of a `node_t` of the memory list. -/
abbrev NodeId := ℕ

/-- A `process_t *`; processes are numbered in file order. -/
abbrev ProcId := ℕ

/-- The four values of one input line. `name` holds the bytes before the terminator;
`memRequirement` is an `int`, no less than `-2 ^ 31` and less than `2 ^ 31`. -/
structure Record where
  arrivalTime : UInt32
  name : List UInt8
  serviceTime : UInt32
  memRequirement : ℤ
  deriving DecidableEq, Repr

/-- `struct process`. The `uint32_t` fields are naturals below `2 ^ 32`; `overhead` is the value of
the `double`, `none` where that is infinite or not a number. -/
structure Process where
  arrivalTime : ℕ
  serviceTime : ℕ
  serviceTimeLeft : ℕ
  finishTime : ℕ
  turnaroundTime : ℕ
  memRequirement : ℤ
  overhead : Option ℚ
  name : List UInt8
  state : ProcessState
  blockNode : Option NodeId
  pid : ℕ
  deriving DecidableEq, Repr

/-- What a `process_t *` points to. -/
abbrev ProcTable := ProcId → Process

/-- The process `read_process` makes of one line. The statistics are not set before
`finish_process` writes them. -/
def createProcess (r : Record) : Process where
  arrivalTime := r.arrivalTime.toNat
  serviceTime := r.serviceTime.toNat
  serviceTimeLeft := r.serviceTime.toNat
  finishTime := 0
  turnaroundTime := 0
  memRequirement := r.memRequirement
  overhead := none
  name := r.name
  state := .idle
  blockNode := none
  pid := 0

/-- The conversion of an integer to `uint32_t`. -/
def toUInt32 (x : ℤ) : ℕ := (x % 2 ^ 32).toNat

/-- The result of an `int` operation or conversion, undefined outside its range. -/
def toInt (x : ℤ) : Option ℤ := if -2 ^ 31 ≤ x ∧ x < 2 ^ 31 then some x else none

/-- How simulated time is counted: in the `uint32_t` of the source, or without a bound. -/
inductive Clock
  | uint32
  | exact
  deriving DecidableEq, Repr

def Clock.wrap : Clock → ℤ → ℕ
  | .uint32, x => toUInt32 x
  | .exact, x => x.toNat

/-- The conversion of an integer to `double`. -/
def toDouble (x : ℤ) : Option ℚ := binary64.round x

/-- `update_stats`. -/
def updateStats (clock : Clock) (process : Process) : Process :=
  let turnaround := clock.wrap (process.finishTime - process.arrivalTime)
  { process with
    turnaroundTime := turnaround
    overhead := do binary64.div (← toDouble turnaround) (← toDouble process.serviceTime) }

/-- `update_time`: the comparison and the subtraction are unsigned. A NULL process never
finishes. -/
def updateTime (quantum : ℤ) (procs : ProcTable) : Option ProcId → ProcTable × Bool
  | none => (procs, false)
  | some p =>
    let process := procs p
    if process.serviceTimeLeft ≤ toUInt32 quantum then
      (Function.update procs p { process with serviceTimeLeft := 0, state := .finished }, true)
    else
      (Function.update procs p
        { process with serviceTimeLeft := toUInt32 (process.serviceTimeLeft - quantum) }, false)

/-- `strcmp`, as its sign: bytes compare unsigned and the terminator comes before every byte. -/
def strcmp : List UInt8 → List UInt8 → ℤ
  | [], [] => 0
  | [], _ :: _ => -1
  | _ :: _, [] => 1
  | a :: as, b :: bs => if a < b then -1 else if b < a then 1 else strcmp as bs

/-- `compare_process`. -/
def compareProcess (p1 p2 : Process) : ℤ :=
  if p1.serviceTime < p2.serviceTime then -1
  else if p1.serviceTime > p2.serviceTime then 1
  else if p1.arrivalTime < p2.arrivalTime then -1
  else if p1.arrivalTime > p2.arrivalTime then 1
  else strcmp p1.name p2.name

theorem toInt_natCast {n : ℕ} (h : n < 2 ^ 31) : toInt (n : ℤ) = some (n : ℤ) :=
  if_pos (by omega)

theorem toUInt32_natCast {n : ℕ} (h : n < 2 ^ 32) : toUInt32 (n : ℤ) = n := by
  unfold toUInt32
  omega

theorem toUInt32_sub {m n : ℕ} (h : m < 2 ^ 32) (hn : n ≤ m) :
    toUInt32 ((m : ℤ) - n) = m - n := by
  unfold toUInt32
  omega

/-- Without a wrap the clock counts exactly. -/
theorem Clock.wrap_natCast {clock : Clock} {n : ℕ} (h : clock = .uint32 → n < 2 ^ 32) :
    clock.wrap n = n := by
  cases clock with
  | uint32 => exact toUInt32_natCast (h rfl)
  | exact => rfl

theorem strcmp_neg (a b : List UInt8) : strcmp b a = -strcmp a b := by
  induction a generalizing b with
  | nil => cases b <;> simp [strcmp]
  | cons x xs ih =>
    cases b with
    | nil => simp [strcmp]
    | cons y ys =>
      rcases lt_trichotomy x.toNat y.toNat with h | h | h
      · simp [strcmp, UInt8.lt_iff_toNat_lt, h, Nat.not_lt_of_gt h]
      · simp [strcmp, UInt8.lt_iff_toNat_lt, h, ih ys]
      · simp [strcmp, UInt8.lt_iff_toNat_lt, h, Nat.not_lt_of_gt h]

/-- `strcmp` orders names as their byte values are ordered lexicographically. -/
theorem strcmp_neg_iff (a b : List UInt8) :
    strcmp a b < 0 ↔ a.map UInt8.toNat < b.map UInt8.toNat := by
  induction a generalizing b with
  | nil => cases b <;> simp [strcmp]
  | cons x xs ih =>
    cases b with
    | nil => simp [strcmp]
    | cons y ys =>
      rcases lt_trichotomy x.toNat y.toNat with h | h | h
      · simp [strcmp, UInt8.lt_iff_toNat_lt, h, List.cons_lt_cons_iff]
      · simp [strcmp, UInt8.lt_iff_toNat_lt, h, ih ys]
      · simp [strcmp, UInt8.lt_iff_toNat_lt, h, List.cons_lt_cons_iff, Nat.not_lt_of_gt h,
          Nat.ne_of_gt h]

/-- The three keys of `compare_process`, most significant first. -/
def Process.key (p : Process) : ℕ ×ₗ ℕ ×ₗ List ℕ :=
  toLex (p.serviceTime, toLex (p.arrivalTime, p.name.map UInt8.toNat))

theorem compareProcess_neg (p1 p2 : Process) : compareProcess p2 p1 = -compareProcess p1 p2 := by
  unfold compareProcess
  rw [strcmp_neg p1.name p2.name]
  split_ifs <;> omega

theorem compareProcess_neg_iff (p1 p2 : Process) : compareProcess p1 p2 < 0 ↔ p1.key < p2.key := by
  simp only [compareProcess, Process.key, Prod.Lex.toLex_lt_toLex]
  rw [← strcmp_neg_iff]
  split_ifs <;> omega

/-- `compare_process` is positive exactly on pairs out of order. -/
theorem compareProcess_le_iff (p1 p2 : Process) :
    compareProcess p1 p2 ≤ 0 ↔ p1.key ≤ p2.key := by
  rw [← not_lt, ← not_lt, ← compareProcess_neg_iff, compareProcess_neg p1 p2]
  omega

/-- Two states of one process: what it was loaded with is never written again. -/
structure Process.SameRecord (p1 p2 : Process) : Prop where
  arrivalTime : p1.arrivalTime = p2.arrivalTime
  serviceTime : p1.serviceTime = p2.serviceTime
  memRequirement : p1.memRequirement = p2.memRequirement
  name : p1.name = p2.name

theorem Process.SameRecord.refl (p : Process) : p.SameRecord p := ⟨rfl, rfl, rfl, rfl⟩

theorem Process.SameRecord.trans {p1 p2 p3 : Process} (h : p1.SameRecord p2)
    (h' : p2.SameRecord p3) : p1.SameRecord p3 :=
  ⟨h.1.trans h'.1, h.2.trans h'.2, h.3.trans h'.3, h.4.trans h'.4⟩

theorem compareProcess_congr {p1 p2 p1' p2' : Process} (h1 : p1'.SameRecord p1)
    (h2 : p2'.SameRecord p2) : compareProcess p1' p2' = compareProcess p1 p2 := by
  simp only [compareProcess, h1.arrivalTime, h1.serviceTime, h1.name, h2.arrivalTime,
    h2.serviceTime, h2.name]

@[simp] theorem updateTime_none (quantum : ℤ) (procs : ProcTable) :
    updateTime quantum procs none = (procs, false) := rfl

/-- With a positive `int` quantum and a `uint32_t` remainder no conversion changes a value. -/
theorem updateTime_some {q : ℕ} (hq : q < 2 ^ 31) {procs : ProcTable} {p : ProcId}
    (hp : (procs p).serviceTimeLeft < 2 ^ 32) :
    updateTime q procs (some p) =
      if (procs p).serviceTimeLeft ≤ q then
        (Function.update procs p { procs p with serviceTimeLeft := 0, state := .finished }, true)
      else
        (Function.update procs p
          { procs p with serviceTimeLeft := (procs p).serviceTimeLeft - q }, false) := by
  have hcast : toUInt32 (q : ℤ) = q := toUInt32_natCast (by omega)
  simp only [updateTime, hcast]
  split_ifs with h
  · rfl
  · rw [toUInt32_sub hp (by omega)]

end ProcessManager
