import ProcessManager.Signals
import ProcessManager.Library.Posix

/-! The manager and one real process as two parties: the manager's side of `start_real_process`,
`continue_process`, `suspend_process` and `finish_process`, and `process.c`, with a pipe each way. -/
namespace ProcessManager

open Posix

/-- `time_bytes[i]` of `send_bytes` on a little-endian host. -/
def timeByte (time : UInt32) (i : ℕ) : UInt8 := (time >>> (8 * UInt32.ofNat i)).toUInt8

/-- The bytes `send_bytes` writes, in order. -/
def timeBytes (time : UInt32) : List UInt8 :=
  [timeByte time 3, timeByte time 2, timeByte time 1, timeByte time 0]

/-- The time `read_store_dword` prints for the four bytes it has read. -/
def dword (buf : List UInt8) : UInt32 :=
  (buf.getD 0 0).toUInt32 <<< 24 ||| (buf.getD 1 0).toUInt32 <<< 16 |||
    (buf.getD 2 0).toUInt32 <<< 8 ||| (buf.getD 3 0).toUInt32

/-- `Op` of `process.c`. -/
def Operation.code : Operation → UInt8
  | .start => 0
  | .stop => 1
  | .cont => 2
  | .term => 3

/-- The signal the manager sends after the bytes; START has none. -/
def Operation.signal : Operation → Option Signal
  | .start => none
  | .stop => some .sigtstp
  | .cont => some .sigcont
  | .term => some .sigterm

/-- What the process is to hash, and where it goes on. -/
structure HashContent where
  content : List UInt8
  destIndex : ℕ
  deriving DecidableEq

/-- `store`, with the place `i` of the first byte. -/
def storeFrom (i : ℕ) : List UInt8 → HashContent → HashContent
  | [], h => h
  | b :: buf, h =>
    let destIndex := (h.destIndex + i) % (128 - 9)
    storeFrom (i + 1) buf ⟨h.content.modify destIndex (· ^^^ b), destIndex⟩

/-- `store_process_name`, on the cleared content. -/
def storeProcessName (name : List UInt8) : HashContent :=
  storeFrom 0 name ⟨List.replicate 128 0, 0⟩

/-- What the options and the check of `argc` come to: the process goes on with its name, prints how
it is used and exits, or exits because the arguments are more or less than one name. -/
inductive CommandLine
  | named (processName : List UInt8)
  | usage
  | arguments
  deriving DecidableEq

def hyphen : UInt8 := 45

/-- The letters of `help`. -/
def helpOption : List UInt8 := [104, 101, 108, 112]

/-- The command line with the one argument the manager passes, a name. `getopt_long` takes it for
options if it begins with a hyphen and goes on; a long option may be cut short, and of short ones
each letter is an option. -/
def commandLine (arg : List UInt8) : CommandLine :=
  match arg with
  | first :: second :: rest =>
    if first ≠ hyphen then .named arg
    else if second = hyphen then
      if rest ≠ [] ∧ rest <+: helpOption then .usage else .arguments
    else if helpOption.headD 0 ∈ second :: rest then .usage else .arguments
  | _ => .named arg

/-- A name that the process takes for its name. -/
structure ProcessName where
  bytes : List UInt8
  named : commandLine bytes = .named bytes

theorem commandLine_named_iff {arg : List UInt8} :
    commandLine arg = .named arg ↔ arg.head? = some hyphen → arg = [hyphen] := by
  match arg with
  | [] => simp [commandLine]
  | [first] => simp [commandLine]
  | first :: second :: rest =>
    by_cases hfirst : first = hyphen
    · subst hfirst
      simp only [commandLine, ne_eq, not_true_eq_false, if_false, List.head?_cons, forall_const,
        List.cons.injEq, reduceCtorEq, and_false, iff_false]
      split_ifs <;> simp
    · simp [commandLine, hfirst]

/-- Where `process.c` is. The bytes read so far are those after `buf[0]`, which holds the
operation. -/
inductive ProcessPc
  | setup
  | reading (op : Operation) (buf : List UInt8)
  | checking (op : Operation) (buf : List UInt8)
  | echoing (op : Operation) (buf : List UInt8)
  | storing (op : Operation) (buf : List UInt8)
  | waiting
  | handling (sig : Signal)
  | suspending
  | hashing
  | exited
  | leftoverBytes
  | killed
  deriving DecidableEq

/-- `decoded` lists the operations and times read so far. -/
structure RealProcess where
  pc : ProcessPc
  signals : Signals
  hash : HashContent
  decoded : List (Operation × UInt32)
  deriving DecidableEq

/-- The signals blocked at the start and read through `signalfd`. -/
def signalMask : Finset Signal := {.sigint, .sigterm, .sigtstp, .sigcont}

/-- The process after `fork`, `execv` and its command line. -/
def RealProcess.forked (name : List UInt8) : RealProcess :=
  ⟨.setup, .fresh, storeProcessName name, []⟩

def RealProcess.goto (p : RealProcess) (pc : ProcessPc) : RealProcess := { p with pc := pc }

/-- A statement that waits for nothing, with what is in stdin: the process after it and what it
writes to stdout. `sha256Hash` makes the hexadecimal string of the hash. -/
def RealProcess.proceed (sha256Hash : List UInt8 → List UInt8) (p : RealProcess)
    (stdin : List UInt8) : Option (RealProcess × List UInt8) :=
  match p.pc with
  | .setup => some ({ p with signals := p.signals.block signalMask, pc := .reading .start [] }, [])
  | .checking op buf =>
    if stdin ≠ [] then some (p.goto .leftoverBytes, [])
    else if op = .cont ∨ op = .start then some (p.goto (.echoing op buf), [])
    else some (p.goto (.storing op buf), [])
  | .echoing op buf => some (p.goto (.storing op buf), [buf.getD 3 0])
  | .storing op buf =>
    let p := { p with hash := storeFrom 0 (op.code :: buf) p.hash }
    match op with
    | .stop => some (p.goto .suspending, [])
    | .term => some (p.goto .hashing, [])
    | .start | .cont => some (p.goto .waiting, [])
  | .handling .sigint | .handling .sigterm =>
    some ({ p with
      signals := p.signals.unblock {.sigint, .sigterm}, pc := .reading .term [] }, [])
  | .handling .sigtstp =>
    some ({ p with signals := p.signals.unblock {.sigtstp}, pc := .reading .stop [] }, [])
  | .handling .sigcont =>
    some ({ p with signals := p.signals.block {.sigtstp}, pc := .reading .cont [] }, [])
  | .handling .sigstop => some (p.goto .waiting, [])
  | .suspending => some ({ p with signals := p.signals.raiseStop, pc := .waiting }, [])
  | .hashing => some (p.goto .exited, sha256Hash (p.hash.content.take (128 - 9)) ++ [10])
  | .reading .. | .waiting | .exited | .leftoverBytes | .killed => none

/-- A `read` of `read_store_dword` that returns `n` of the bytes in stdin, with what it leaves. -/
def RealProcess.read (p : RealProcess) (stdin : List UInt8) (n : ℕ) :
    Option (RealProcess × List UInt8) :=
  match p.pc with
  | .reading op buf =>
    if 1 ≤ n ∧ n ≤ 4 - buf.length ∧ n ≤ stdin.length then
      let buf := buf ++ stdin.take n
      if buf.length < 4 then some (p.goto (.reading op buf), stdin.drop n)
      else some ({ p with
        pc := .checking op buf, decoded := p.decoded ++ [(op, dword buf)] }, stdin.drop n)
    else none
  | _ => none

/-- The `read` of the loop from the `signalfd`. -/
def RealProcess.dequeue (p : RealProcess) (sig : Signal) : Option RealProcess :=
  match p.pc with
  | .waiting => (p.signals.dequeue signalMask sig).map fun signals =>
    { p with signals := signals, pc := .handling sig }
  | _ => none

/-- The kernel delivers an unblocked signal. -/
def RealProcess.deliver (p : RealProcess) (sig : Signal) : Option RealProcess :=
  (p.signals.deliver sig).map fun (signals, ends) =>
    { p with signals := signals, pc := if ends then .killed else p.pc }

/-- Whether the process can still take steps or signals. -/
def RealProcess.alive (p : RealProcess) : Bool :=
  p.pc ≠ .exited ∧ p.pc ≠ .leftoverBytes ∧ p.pc ≠ .killed

/-- `kill`: the signal is generated, unless the process has exited. -/
def RealProcess.kill (p : RealProcess) (sig : Signal) : RealProcess :=
  if p.alive then { p with signals := p.signals.generate sig } else p

/-- Where the manager is. In `sending` the next byte is `time_bytes[i]`. -/
inductive ManagerPc
  | idle
  | sending (op : Operation) (time : UInt32) (i : ℕ)
  | signalling (op : Operation) (sig : Signal) (time : UInt32)
  | verifying (testByte : UInt8)
  | suspending
  | readingHash
  | failed
  deriving DecidableEq

/-- `todo` and `issued` list the operations to come and those begun; `verified` lists the bytes
`read_and_verify` has read, each with the byte it was compared with. -/
structure Manager where
  name : List UInt8
  pc : ManagerPc
  todo : List (Operation × UInt32)
  issued : List (Operation × UInt32)
  verified : List (UInt8 × UInt8)
  sha256 : List UInt8
  deriving DecidableEq

/-- The parties and the bytes in the two pipes. There is no process before `fork`. -/
structure System where
  manager : Manager
  process : Option RealProcess
  stdin : List UInt8
  stdout : List UInt8
  deriving DecidableEq

def System.init (name : List UInt8) (ops : List (Operation × UInt32)) : System where
  manager := ⟨name, .idle, ops, [], [], []⟩
  process := none
  stdin := []
  stdout := []

def System.goto (s : System) (pc : ManagerPc) : System :=
  { s with manager := { s.manager with pc := pc } }

/-- What the manager waits for after the signal, or after the bytes of START. `continue_process`
keeps the byte in an `int8_t`. -/
def awaiting (op : Operation) (time : UInt32) : ManagerPc :=
  match op with
  | .start => .verifying (timeByte time 0)
  | .cont => .verifying (timeByte time 0).toInt8.toUInt8
  | .stop => .suspending
  | .term => .readingHash

/-- The next operation begins. START makes new pipes and forks. -/
def System.issue (s : System) : Option System :=
  match s.manager.todo with
  | [] => none
  | (op, time) :: todo =>
    let s := { s with manager := { s.manager with
      todo := todo, issued := s.manager.issued ++ [(op, time)], pc := .sending op time 3 } }
    if op = .start then
      some { s with process := some (.forked s.manager.name), stdin := [], stdout := [] }
    else some s

/-- The next step of the manager; `none` while it waits. -/
def System.manage (s : System) : Option System :=
  match s.manager.pc with
  | .idle => s.issue
  | .sending op time i =>
    let s := { s with stdin := s.stdin ++ [timeByte time i] }
    match i, op.signal with
    | i + 1, _ => some (s.goto (.sending op time i))
    | 0, some sig => some (s.goto (.signalling op sig time))
    | 0, none => some (s.goto (awaiting op time))
  | .signalling op sig time => s.process.map fun p =>
    { s with process := some (p.kill sig) }.goto (awaiting op time)
  | .verifying testByte =>
    match s.stdout with
    | [] => none
    | b :: rest => some { s with
        stdout := rest
        manager := { s.manager with
          verified := s.manager.verified ++ [(b, testByte)]
          pc := if b = testByte then .idle else .failed } }
  | .suspending => s.process.bind fun p => p.signals.waitStopped.map fun signals =>
    { s with process := some { p with signals := signals } }.goto .idle
  | .readingHash =>
    if s.stdout = [] then none
    else some { s with
      stdout := s.stdout.drop 64
      manager := { s.manager with sha256 := s.stdout.take 64, pc := .idle } }
  | .failed => none

/-- Which party takes the next step, with what the kernel chooses in it. -/
inductive Action
  | manage
  | proceed
  | read (n : ℕ)
  | dequeue (sig : Signal)
  | deliver (sig : Signal)
  deriving DecidableEq

/-- A step of the process, unless it is stopped. -/
def RealProcess.act (sha256Hash : List UInt8 → List UInt8) (p : RealProcess) (stdin : List UInt8) :
    Action → Option (RealProcess × List UInt8 × List UInt8)
  | .manage => none
  | .proceed => (p.proceed sha256Hash stdin).map fun (p, written) => (p, stdin, written)
  | .read n => (p.read stdin n).map fun (p, rest) => (p, rest, [])
  | .dequeue sig => (p.dequeue sig).map fun p => (p, stdin, [])
  | .deliver sig => (p.deliver sig).map fun p => (p, stdin, [])

/-- One step of the system; `none` when the party cannot take it. -/
def System.step (sha256Hash : List UInt8 → List UInt8) (s : System) (action : Action) :
    Option System :=
  if action = .manage then s.manage
  else s.process.bind fun p =>
    if p.signals.stopped ∨ ¬ p.alive then none
    else (p.act sha256Hash s.stdin action).map fun (p, rest, written) =>
      { s with process := some p, stdin := rest, stdout := s.stdout ++ written }

/-- The states of all interleavings. -/
inductive System.Reachable (sha256Hash : List UInt8 → List UInt8) (name : List UInt8)
    (ops : List (Operation × UInt32)) : System → Prop
  | init : Reachable sha256Hash name ops (.init name ops)
  | step {s s' : System} {action : Action} (h : Reachable sha256Hash name ops s)
      (hstep : s.step sha256Hash action = some s') : Reachable sha256Hash name ops s'

/-- One interleaving. -/
def System.run (sha256Hash : List UInt8 → List UInt8) (s : System) : List Action → Option System
  | [] => some s
  | action :: actions => (s.step sha256Hash action).bind fun s' => s'.run sha256Hash actions

theorem System.Reachable.run {sha256Hash : List UInt8 → List UInt8} {name : List UInt8}
    {ops : List (Operation × UInt32)} {s s' : System} {actions : List Action}
    (h : System.Reachable sha256Hash name ops s) (hrun : s.run sha256Hash actions = some s') :
    System.Reachable sha256Hash name ops s' := by
  induction actions generalizing s with
  | nil =>
    cases hrun
    exact h
  | cons action actions ih =>
    obtain ⟨t, hstep, hrest⟩ := Option.bind_eq_some_iff.mp hrun
    exact ih (h.step hstep) hrest

end ProcessManager
