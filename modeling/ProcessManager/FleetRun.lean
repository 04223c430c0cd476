import ProcessManager.SignalDiscipline
import ProcessManager.Fleet
import ProcessManager.HashRefinement

/-! The simulation and the real processes together: what a run of `cycle` issues, every interleaving
of the real processes carries out. -/
namespace ProcessManager

open Posix Machines

variable {sha256Hash : List UInt8 → List UInt8} {cfg : Config} {workload : List Record} {s : State}
  {p : ProcId} {n : ℕ} {trace : List Entry} {f : Fleet} {actions : List FleetAction}

/-- The operations of a trace in order, each with its process and the time `send_bytes` sends. -/
def timedOperations (trace : List Entry) : List (ProcId × Operation × UInt32) :=
  trace.filterMap fun entry =>
    entry.event.operation?.map fun x => (x.1, x.2, UInt32.ofNat entry.simTime)

/-- The operations on one process with their times, as the process decodes them. -/
def historyOf (p : ProcId) (trace : List Entry) : List (Operation × UInt32) :=
  (operationsOn p trace).map fun x => (x.1, UInt32.ofNat x.2)

theorem wordOf_timedOperations (p : ProcId) (trace : List Entry) :
    wordOf p (timedOperations trace) = historyOf p trace := by
  induction trace with
  | nil => rfl
  | cons entry trace ih =>
    have hleft : timedOperations (entry :: trace) =
        timedOperations [entry] ++ timedOperations trace :=
      List.filterMap_append (l := [entry])
    have hright : historyOf p (entry :: trace) = historyOf p [entry] ++ historyOf p trace := by
      have happend := operationsOn_append p [entry] trace
      rw [List.singleton_append] at happend
      rw [historyOf, happend, List.map_append]
      rfl
    have hentry : wordOf p (timedOperations [entry]) = historyOf p [entry] := by
      cases hop : entry.event.operation? with
      | none => simp [timedOperations, historyOf, operationsOn, wordOf, hop]
      | some x =>
        by_cases hp : x.1 = p <;>
          simp [timedOperations, historyOf, operationsOn, wordOf, hop, hp]
    rw [hleft, hright, wordOf_append, hentry, ih]

theorem historyOf_fst (p : ProcId) (trace : List Entry) :
    (historyOf p trace).map Prod.fst = (operationsOn p trace).map Prod.fst := by
  simp [historyOf, Function.comp_def]

/-- Whoever is finished was sent TERM last. -/
theorem history_term (hno : Undropped cfg workload n)
    (h : (run cfg workload n).state? = some s) (hp : p ∈ s.finishedQueue) :
    ∃ prior time, historyOf p s.trace = prior ++ [(.term, time)] := by
  have hruns := (run_obeyed hno h).runs.after p
  rw [← operationsOn_fst, ← historyOf_fst] at hruns
  have hphase : s.phaseOf p = .ended := by simp [State.phaseOf, hp]
  rw [hphase] at hruns
  rcases List.eq_nil_or_concat (historyOf p s.trace) with hnil | ⟨prior, ⟨op, time⟩, hconcat⟩
  · rw [hnil] at hruns
    cases hruns
  · rw [List.concat_eq_append] at hconcat
    rw [hconcat, List.map_append, after_append] at hruns
    obtain ⟨phase, -, hlast⟩ := Option.bind_eq_some_iff.mp hruns
    have hop : op = .term := by cases phase <;> cases op <;> simp [Phase.next] at hlast ⊢
    exact ⟨prior, time, by rw [hconcat, hop]⟩

/-- The command lines of the real processes take their names. -/
def Named (workload : List Record) : Prop := ∀ r ∈ workload, commandLine r.name = .named r.name

instance (workload : List Record) : Decidable (Named workload) :=
  inferInstanceAs (Decidable (∀ r ∈ workload, commandLine r.name = .named r.name))

theorem Named.loaded (h : Named workload) (p : ProcId) :
    commandLine (loadedProcs workload p).name = .named (loadedProcs workload p).name := by
  by_cases hp : p < workload.length
  · rw [loadedProcs_getElem hp]
    exact h _ (List.getElem_mem hp)
  · rw [loadedProcs, List.getD_eq_default _ _ (Nat.le_of_not_lt hp)]
    rfl

/-- The real processes of a workload, each with its name, before the operations of a trace. -/
def fleetOf (hnamed : Named workload) (trace : List Entry) : Fleet :=
  Fleet.init (fun p => ⟨(loadedProcs workload p).name, hnamed.loaded p⟩) (timedOperations trace)

/-- The call of `sha256_hash` on the first `128 - 9` bytes of the content. -/
def hashContent (content : List UInt8) : List UInt8 := ProcessManager.sha256Hash content (128 - 9)

theorem storeFrom_length (i : ℕ) (buf : List UInt8) (h : HashContent) :
    (storeFrom i buf h).content.length = h.content.length := by
  induction buf generalizing i h with
  | nil => rfl
  | cons b buf ih =>
    rw [storeFrom, ih]
    exact List.length_modify _ _ _

theorem contentOf_length (name : List UInt8) (ops : List (Operation × UInt32)) :
    (contentOf name ops).content.length = 128 := by
  induction ops using List.reverseRecOn with
  | nil => exact storeFrom_length 0 name _
  | append_singleton ops x ih =>
    rw [contentOf_concat, storeFrom_length]
    exact ih

/-- The string in front of the newline is the digest of the first 119 bytes of the content. -/
theorem hashLine_digest (name : List UInt8) (ops : List (Operation × UInt32)) :
    ((hashLine hashContent name ops).take 64).length = 64 ∧
    ∀ i < 8, Sha256.readHex ((((hashLine hashContent name ops).take 64).drop (8 * i)).take 8) =
      some ((Sha256.digest ((contentOf name ops).content.take 119)).toList.getD i 0).toNat := by
  set buf := (contentOf name ops).content.take 119 with hbuf
  have hlength : buf.length = 119 := by
    rw [hbuf, List.length_take, contentOf_length]
    rfl
  have hline : (hashLine hashContent name ops).take 64 =
      uint32ArrayToHexString ((Sha256.digest buf).toList.map UInt32.ofBitVec) := by
    have hwords := sha256Hash_words buf 119 (by rw [hlength]; rfl)
    have hall : (UInt64.toNat 119) = buf.length := by rw [hlength]; rfl
    rw [hall, List.take_length] at hwords
    rw [← hwords]
    refine List.take_left' ?_
    exact (congrArg List.length hwords).trans (hexString_length _)
  rw [hline]
  exact ⟨hexString_length _, fun i hi => readHex_hexString _ hi⟩

/-- Whatever `cycle` has done in a run that drops nobody, in every interleaving of the manager with
the real processes no check fails, and when nothing more can happen every process has decoded its
operations and times, and for each finished one the manager holds, in 64 hexadecimal digits, the
SHA-256 digest of the 119 bytes into which `store` has folded its name and the bytes of these. -/
theorem run_carried_out (hnamed : Named workload) (hno : Undropped cfg workload n)
    (hs : (run cfg workload n).state? = some s)
    (hrun : (fleetOf hnamed s.trace).run hashContent actions = some f) :
    (∀ p, (f.part p).manager.pc ≠ .failed ∧
      ∀ q, (f.part p).process = some q → q.pc ≠ .leftoverBytes) ∧
    (∃ more f', f.run hashContent more = some f' ∧
      ∀ action, Coordinator.step (dealings hashContent) f' action = none) ∧
    ((∀ action, Coordinator.step (dealings hashContent) f action = none) →
      (∀ p q, (f.part p).process = some q → q.decoded = historyOf p s.trace) ∧
      ∀ p ∈ s.finishedQueue, (∃ q, (f.part p).process = some q ∧ q.pc = .exited) ∧
        (f.part p).manager.sha256.length = 64 ∧
        ∀ i < 8, Sha256.readHex (((f.part p).manager.sha256.drop (8 * i)).take 8) =
          some ((Sha256.digest ((contentOf (loadedProcs workload p).name
            (historyOf p s.trace)).content.take 119)).toList.getD i 0).toNat) := by
  have hplan : ∀ p, ∃ w ∈ discipline, (wordOf p (timedOperations s.trace)).map Prod.fst <+: w := by
    intro p
    rw [wordOf_timedOperations, historyOf_fst]
    exact ((run_obeyed hno hs).moment List.prefix_rfl).1 p
  refine ⟨Fleet.safe hplan hrun, Fleet.carries_on hrun, fun hstuck => ?_⟩
  obtain ⟨-, -, hparts⟩ := Fleet.ends hplan hrun hstuck
  refine ⟨fun p q hq => ((hparts p).2.2 q hq).trans (wordOf_timedOperations p _), fun p hp => ?_⟩
  obtain ⟨prior, time, hterm⟩ := history_term hno hs hp
  obtain ⟨hidle, hall, -⟩ := hparts p
  have hissued : (f.part p).manager.issued = historyOf p s.trace :=
    hall.trans (wordOf_timedOperations p _)
  obtain ⟨hsha, q, hq, hexited, -⟩ := handshake_hash hashContent _ _ (hplan p) _
    (Fleet.part_reachable hrun p) hidle prior time (hissued.trans hterm)
  rw [hissued] at hsha
  rw [hsha]
  exact ⟨⟨q, hq, hexited⟩, hashLine_digest _ _⟩

theorem twoJobs_named : Named twoJobs := by decide

/-- Process 1 has ended when the manager starts process 0. -/
theorem run_carried_out_twoJobs : ∃ (s : State) (f : Fleet),
    (run (sampleConfig .sjf .infinite) twoJobs 2).state? = some s ∧ s.finishedQueue = [1] ∧
      (fleetOf twoJobs_named s.trace).run hashContent startTerm = some f ∧
      ∃ more f', f.run hashContent more = some f' ∧
        ∀ action, Coordinator.step (dealings hashContent) f' action = none := by
  have hrun : (run (sampleConfig .sjf .infinite) twoJobs 2).state?.map
      (fun s => (s.finishedQueue, timedOperations s.trace)) = some ([1], threeOperations) := by
    decide +kernel
  obtain ⟨s, hs, hends⟩ := Option.map_eq_some_iff.mp hrun
  obtain ⟨hfinished, htimed⟩ := Prod.mk.inj hends
  have hfleet : ∃ f, (fleetOf twoJobs_named s.trace).run hashContent startTerm = some f := by
    rw [fleetOf, htimed]
    exact Option.isSome_iff_exists.mp (by decide +kernel)
  obtain ⟨f, hf⟩ := hfleet
  exact ⟨s, f, hs, hfinished, hf,
    (run_carried_out twoJobs_named (undropped_of_le (by omega)) hs hf).2.1⟩

end ProcessManager
