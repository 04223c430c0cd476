import ProcessManager.Handshake

/-! The handshake under any interleaving: every byte verified is right, no byte is left over, and the
process decodes what the manager issued. -/
namespace ProcessManager

open Posix Machines

variable {sha256Hash : List UInt8 → List UInt8} {p p' : RealProcess} {s s' : System}
  {op : Operation} {sig : Signal} {time : UInt32} {phase : Phase} {action : Action}
  {prior ops : List (Operation × UInt32)} {stdin rest written sent name : List UInt8}

/-- The bytes read make the time that was sent. -/
theorem dword_timeBytes (time : UInt32) : dword (timeBytes time) = time := by
  apply UInt32.eq_of_toBitVec_eq
  apply BitVec.eq_of_getLsbD_eq
  intro i hi
  simp [dword, timeBytes, timeByte, hi, -UInt32.toUInt32_toUInt8]
  rcases (by omega : i < 8 ∨ 8 ≤ i ∧ i < 16 ∨ 16 ≤ i ∧ i < 24 ∨ 24 ≤ i) with h | h | h | h <;> grind

/-- The process has served all operations; the next signal finds it in its loop, or stopped. -/
inductive AtRest (p : RealProcess) : Phase → Prop
  | storing {op : Operation} {buf : List UInt8} (hop : op = .start ∨ op = .cont)
      (hpc : p.pc = .storing op buf) (hsignals : p.signals = ⟨signalMask, ∅, false, false⟩) :
      AtRest p .running
  | waiting (hpc : p.pc = .waiting) (hsignals : p.signals = ⟨signalMask, ∅, false, false⟩) :
      AtRest p .running
  | suspended (hpc : p.pc = .waiting)
      (hsignals : p.signals = ⟨signalMask \ {.sigtstp}, ∅, true, false⟩) : AtRest p .stopped

/-- What is blocked while the operation is served. -/
def maskIn : Operation → Finset Signal
  | .start | .cont => signalMask
  | .stop => signalMask \ {.sigtstp}
  | .term => signalMask \ {.sigint, .sigterm}

/-- The process has not read all bytes of the operation; `sent` are those written so far. -/
inductive Receiving (op : Operation) (sent : List UInt8) (p : RealProcess) (stdin : List UInt8) :
    Prop
  | setup (hop : op = .start) (hpc : p.pc = .setup) (hsignals : p.signals = .fresh)
      (hbytes : stdin = sent)
  | reading {buf : List UInt8} (hpc : p.pc = .reading op buf) (hlength : buf.length < 4)
      (hsignals : p.signals = ⟨maskIn op, ∅, false, false⟩) (hbytes : buf ++ stdin = sent)

/-- The process serves an operation whose bytes have all been written, and whose signal has been
sent. The lists are what is in stdin and in stdout. -/
inductive Serving (op : Operation) (time : UInt32) (prior : List (Operation × UInt32))
    (p : RealProcess) : List UInt8 → List UInt8 → Prop
  | signalled {blocked : Finset Signal} {sig : Signal} (hsig : op.signal = some sig)
      (hpc : p.pc = .waiting ∨ ∃ op' buf, (op' = .start ∨ op' = .cont) ∧ p.pc = .storing op' buf)
      (hblocked : blocked = signalMask ∨ op = .cont ∧ blocked = signalMask \ {.sigtstp})
      (hsignals : p.signals = ⟨blocked, {sig}, false, false⟩) (hdecoded : p.decoded = prior) :
      Serving op time prior p (timeBytes time) []
  | handling {blocked : Finset Signal} {sig : Signal} (hsig : op.signal = some sig)
      (hpc : p.pc = .handling sig)
      (hblocked : blocked = signalMask ∨ op = .cont ∧ blocked = signalMask \ {.sigtstp})
      (hsignals : p.signals = ⟨blocked, ∅, false, false⟩) (hdecoded : p.decoded = prior) :
      Serving op time prior p (timeBytes time) []
  | receiving {stdin : List UInt8} (hreceiving : Receiving op (timeBytes time) p stdin)
      (hdecoded : p.decoded = prior) : Serving op time prior p stdin []
  | checking (hpc : p.pc = .checking op (timeBytes time))
      (hsignals : p.signals = ⟨maskIn op, ∅, false, false⟩)
      (hdecoded : p.decoded = prior ++ [(op, time)]) : Serving op time prior p [] []
  | echoing (hop : op = .cont ∨ op = .start) (hpc : p.pc = .echoing op (timeBytes time))
      (hsignals : p.signals = ⟨signalMask, ∅, false, false⟩)
      (hdecoded : p.decoded = prior ++ [(op, time)]) : Serving op time prior p [] []
  | echoed (hop : op = .cont ∨ op = .start) (hrest : AtRest p .running)
      (hdecoded : p.decoded = prior ++ [(op, time)]) :
      Serving op time prior p [] [timeByte time 0]
  | storing (hop : op = .stop ∨ op = .term) (hpc : p.pc = .storing op (timeBytes time))
      (hsignals : p.signals = ⟨maskIn op, ∅, false, false⟩)
      (hdecoded : p.decoded = prior ++ [(op, time)]) : Serving op time prior p [] []
  | suspending (hop : op = .stop) (hpc : p.pc = .suspending)
      (hsignals : p.signals = ⟨signalMask \ {.sigtstp}, ∅, false, false⟩)
      (hdecoded : p.decoded = prior ++ [(op, time)]) : Serving op time prior p [] []
  | suspended (hop : op = .stop) (hpc : p.pc = .waiting)
      (hsignals : p.signals = ⟨signalMask \ {.sigtstp}, ∅, true, true⟩)
      (hdecoded : p.decoded = prior ++ [(op, time)]) : Serving op time prior p [] []
  | hashing (hop : op = .term) (hpc : p.pc = .hashing)
      (hsignals : p.signals = ⟨maskIn op, ∅, false, false⟩)
      (hdecoded : p.decoded = prior ++ [(op, time)]) : Serving op time prior p [] []
  | exited {stdout : List UInt8} (hop : op = .term) (hpc : p.pc = .exited)
      (hdecoded : p.decoded = prior ++ [(op, time)]) : Serving op time prior p [] stdout

theorem RealProcess.act_deliver (h : p.signals.pending ⊆ p.signals.blocked) :
    p.act sha256Hash stdin (.deliver sig) = none := by
  simp [act, deliver, Signals.deliver_none h]

/-- Between its reads the process takes its next statement. -/
theorem RealProcess.act_proceed (hquiet : p.signals.pending ⊆ p.signals.blocked)
    (hreading : ∀ op buf, p.pc ≠ .reading op buf) (hwaiting : p.pc ≠ .waiting)
    (ha : p.act sha256Hash stdin action = some (p', rest, written)) :
    p.proceed sha256Hash stdin = some (p', written) ∧ rest = stdin := by
  cases action with
  | manage => cases ha
  | proceed =>
    obtain ⟨⟨q, out⟩, hproceed, heq⟩ := Option.map_eq_some_iff.mp ha
    cases heq
    exact ⟨hproceed, rfl⟩
  | read n =>
    have hnone : p.read stdin n = none := by
      unfold RealProcess.read
      split
      · rename_i hpc
        exact absurd hpc (hreading _ _)
      · rfl
    simp [act, hnone] at ha
  | dequeue sig =>
    have hnone : p.dequeue sig = none := by
      unfold RealProcess.dequeue
      split
      · rename_i hpc
        exact absurd hpc hwaiting
      · rfl
    simp [act, hnone] at ha
  | deliver sig =>
    rw [act_deliver hquiet] at ha
    cases ha

theorem RealProcess.act_read {buf : List UInt8} (hquiet : p.signals.pending ⊆ p.signals.blocked)
    (hpc : p.pc = .reading op buf)
    (ha : p.act sha256Hash stdin action = some (p', rest, written)) :
    ∃ n, p.read stdin n = some (p', rest) ∧ written = [] := by
  cases action with
  | manage => cases ha
  | proceed => simp [act, proceed, hpc] at ha
  | read n =>
    obtain ⟨⟨q, left⟩, hread, heq⟩ := Option.map_eq_some_iff.mp ha
    cases heq
    exact ⟨n, hread, rfl⟩
  | dequeue sig => simp [act, dequeue, hpc] at ha
  | deliver sig =>
    rw [act_deliver hquiet] at ha
    cases ha

theorem RealProcess.act_dequeue (hquiet : p.signals.pending ⊆ p.signals.blocked)
    (hpc : p.pc = .waiting) (ha : p.act sha256Hash stdin action = some (p', rest, written)) :
    ∃ sig ∈ p.signals.pending, rest = stdin ∧ written = [] ∧ p' = { p with
      signals := { p.signals with pending := p.signals.pending.erase sig }
      pc := .handling sig } := by
  cases action with
  | manage => cases ha
  | proceed => simp [act, proceed, hpc] at ha
  | read n => simp [act, read, hpc] at ha
  | dequeue sig =>
    simp only [act, dequeue, hpc, Option.map_map, Option.map_eq_some_iff] at ha
    obtain ⟨signals, hsignals, heq⟩ := ha
    obtain ⟨hmem, -, rfl⟩ := Signals.dequeue_some hsignals
    cases heq
    exact ⟨sig, hmem, rfl, rfl, rfl⟩
  | deliver sig =>
    rw [act_deliver hquiet] at ha
    cases ha

/-- At rest the process only goes back to its loop. -/
theorem AtRest.act (h : AtRest p phase) (hstopped : p.signals.stopped = false)
    (ha : p.act sha256Hash stdin action = some (p', rest, written)) :
    AtRest p' phase ∧ p'.decoded = p.decoded ∧ rest = stdin ∧ written = [] := by
  cases h with
  | storing hop hpc hsignals =>
    obtain ⟨hproceed, hrest⟩ := RealProcess.act_proceed (by simp [hsignals]) (by simp [hpc])
      (by simp [hpc]) ha
    rcases hop with rfl | rfl <;>
      simp only [RealProcess.proceed, hpc, RealProcess.goto, Option.some.injEq,
        Prod.mk.injEq] at hproceed <;>
      obtain ⟨rfl, rfl⟩ := hproceed <;>
      exact ⟨.waiting rfl hsignals, rfl, hrest, rfl⟩
  | waiting hpc hsignals =>
    obtain ⟨sig, hmem, -⟩ := RealProcess.act_dequeue (by simp [hsignals]) hpc ha
    simp [hsignals] at hmem
  | suspended hpc hsignals => simp [hsignals] at hstopped

/-- A read takes some bytes from stdin, and after the fourth the time is decoded. -/
theorem Receiving.act (h : Receiving op sent p stdin)
    (ha : p.act sha256Hash stdin action = some (p', rest, written)) : written = [] ∧
      (Receiving op sent p' rest ∧ p'.decoded = p.decoded ∨
        ∃ buf, buf.length = 4 ∧ buf ++ rest = sent ∧ p'.pc = .checking op buf ∧
          p'.signals = p.signals ∧ p.signals = ⟨maskIn op, ∅, false, false⟩ ∧
          p'.decoded = p.decoded ++ [(op, dword buf)]) := by
  cases h with
  | setup hop hpc hsignals hbytes =>
    obtain ⟨hproceed, hrest⟩ := RealProcess.act_proceed (by simp [hsignals, Signals.fresh])
      (by simp [hpc]) (by simp [hpc]) ha
    simp only [RealProcess.proceed, hpc, Option.some.injEq, Prod.mk.injEq] at hproceed
    obtain ⟨rfl, rfl⟩ := hproceed
    subst hop hrest hbytes
    refine ⟨rfl, Or.inl ⟨.reading rfl (by simp) ?_ rfl, rfl⟩⟩
    simp [hsignals, Signals.fresh, Signals.block, maskIn]
  | @reading buf hpc hlength hsignals hbytes =>
    obtain ⟨n, hread, hwritten⟩ := RealProcess.act_read (by simp [hsignals]) hpc ha
    refine ⟨hwritten, ?_⟩
    simp only [RealProcess.read, hpc] at hread
    split at hread
    · rename_i hn
      have hsent : (buf ++ stdin.take n) ++ stdin.drop n = sent := by
        rw [List.append_assoc, List.take_append_drop, hbytes]
      split at hread
      · rename_i hmore
        cases hread
        exact Or.inl ⟨.reading rfl hmore hsignals hsent, rfl⟩
      · rename_i hfull
        cases hread
        have hlength : (buf ++ stdin.take n).length = 4 := by
          rw [List.length_append, List.length_take] at hfull ⊢
          omega
        exact Or.inr ⟨_, hlength, hsent, rfl, rfl, hsignals, rfl⟩
    · cases hread

/-- The signal of an operation is blocked when it is sent. -/
theorem signal_blocked {blocked : Finset Signal} (hsig : op.signal = some sig)
    (hblocked : blocked = signalMask ∨ op = .cont ∧ blocked = signalMask \ {.sigtstp}) :
    {sig} ⊆ blocked := by
  rcases hblocked with rfl | ⟨rfl, rfl⟩
  · cases op <;> cases hsig <;> decide
  · cases hsig
    decide

/-- The handler of a signal sets the mask and goes to read. -/
theorem RealProcess.proceed_handling {blocked : Finset Signal} (hsig : op.signal = some sig)
    (hpc : p.pc = .handling sig)
    (hblocked : blocked = signalMask ∨ op = .cont ∧ blocked = signalMask \ {.sigtstp})
    (hsignals : p.signals = ⟨blocked, ∅, false, false⟩) :
    p.proceed sha256Hash stdin =
      some ({ p with signals := ⟨maskIn op, ∅, false, false⟩, pc := .reading op [] }, []) := by
  have hall : signalMask ∪ {.sigtstp} = signalMask := by decide
  have hagain : signalMask \ {.sigtstp} ∪ {.sigtstp} = signalMask := by decide
  rcases hblocked with rfl | ⟨rfl, rfl⟩
  · cases op <;> cases hsig <;>
      simp [proceed, hpc, hsignals, Signals.block, Signals.unblock, maskIn, hall]
  · cases hsig
    simp [proceed, hpc, hsignals, Signals.block, maskIn, hagain]

theorem timeBytes_length (time : UInt32) : (timeBytes time).length = 4 := rfl

theorem Serving.act (h : Serving op time prior p stdin written)
    (hstopped : p.signals.stopped = false) (halive : p.alive)
    {out : List UInt8} (ha : p.act sha256Hash stdin action = some (p', rest, out)) :
    Serving op time prior p' rest (written ++ out) := by
  cases h with
  | @signalled blocked sig hsig hpc hblocked hsignals hdecoded =>
    have hquiet : p.signals.pending ⊆ p.signals.blocked := by
      rw [hsignals]
      exact signal_blocked hsig hblocked
    rcases hpc with hpc | ⟨op', buf, hop, hpc⟩
    · obtain ⟨sig', hmem, rfl, rfl, rfl⟩ := RealProcess.act_dequeue hquiet hpc ha
      rw [hsignals, Finset.mem_singleton] at hmem
      subst hmem
      exact .handling hsig rfl hblocked (by simp [hsignals]) hdecoded
    · obtain ⟨hproceed, rfl⟩ := RealProcess.act_proceed hquiet (by simp [hpc]) (by simp [hpc]) ha
      rcases hop with rfl | rfl <;>
        simp only [RealProcess.proceed, hpc, RealProcess.goto, Option.some.injEq,
          Prod.mk.injEq] at hproceed <;>
        obtain ⟨rfl, rfl⟩ := hproceed <;>
        exact .signalled hsig (Or.inl rfl) hblocked hsignals hdecoded
  | handling hsig hpc hblocked hsignals hdecoded =>
    obtain ⟨hproceed, rfl⟩ := RealProcess.act_proceed (by simp [hsignals]) (by simp [hpc])
      (by simp [hpc]) ha
    rw [RealProcess.proceed_handling hsig hpc hblocked hsignals] at hproceed
    cases hproceed
    exact .receiving (.reading rfl (by simp) rfl rfl) hdecoded
  | receiving hreceiving hdecoded =>
    obtain ⟨rfl, h | ⟨buf, hlength, hbytes, hpc, hsame, hsignals, hread⟩⟩ := hreceiving.act ha
    · exact .receiving h.1 (h.2.trans hdecoded)
    · obtain ⟨rfl, rfl⟩ : buf = timeBytes time ∧ rest = [] :=
        List.append_inj (by simpa using hbytes) (hlength.trans (timeBytes_length time).symm)
      rw [dword_timeBytes, hdecoded] at hread
      exact .checking hpc (hsame.trans hsignals) hread
  | checking hpc hsignals hdecoded =>
    obtain ⟨hproceed, rfl⟩ := RealProcess.act_proceed (by simp [hsignals]) (by simp [hpc])
      (by simp [hpc]) ha
    simp only [RealProcess.proceed, hpc, ne_eq, not_true_eq_false, if_false] at hproceed
    split at hproceed
    · rename_i hop
      cases hproceed
      have hmask : maskIn op = signalMask := by rcases hop with rfl | rfl <;> rfl
      exact .echoing hop rfl (hmask ▸ hsignals) hdecoded
    · rename_i hop
      cases hproceed
      exact .storing (by cases op <;> simp at hop ⊢) rfl hsignals hdecoded
  | echoing hop hpc hsignals hdecoded =>
    obtain ⟨hproceed, rfl⟩ := RealProcess.act_proceed (by simp [hsignals]) (by simp [hpc])
      (by simp [hpc]) ha
    simp only [RealProcess.proceed, hpc] at hproceed
    cases hproceed
    exact .echoed hop (.storing hop.symm rfl hsignals) hdecoded
  | echoed hop hrest hdecoded =>
    obtain ⟨hrest', hsame, rfl, rfl⟩ := hrest.act hstopped ha
    exact .echoed hop hrest' (hsame.trans hdecoded)
  | storing hop hpc hsignals hdecoded =>
    obtain ⟨hproceed, rfl⟩ := RealProcess.act_proceed (by simp [hsignals]) (by simp [hpc])
      (by simp [hpc]) ha
    rcases hop with rfl | rfl
    · simp only [RealProcess.proceed, hpc] at hproceed
      cases hproceed
      exact .suspending rfl rfl hsignals hdecoded
    · simp only [RealProcess.proceed, hpc] at hproceed
      cases hproceed
      exact .hashing rfl rfl hsignals hdecoded
  | suspending hop hpc hsignals hdecoded =>
    obtain ⟨hproceed, rfl⟩ := RealProcess.act_proceed (by simp [hsignals]) (by simp [hpc])
      (by simp [hpc]) ha
    simp only [RealProcess.proceed, hpc] at hproceed
    cases hproceed
    exact .suspended hop rfl (by rw [hsignals]; rfl) hdecoded
  | suspended hop hpc hsignals hdecoded => simp [hsignals] at hstopped
  | hashing hop hpc hsignals hdecoded =>
    obtain ⟨hproceed, rfl⟩ := RealProcess.act_proceed (by simp [hsignals]) (by simp [hpc])
      (by simp [hpc]) ha
    simp only [RealProcess.proceed, hpc] at hproceed
    cases hproceed
    exact .exited hop rfl hdecoded
  | exited hop hpc hdecoded => simp [RealProcess.alive, hpc] at halive

/-- The phase an operation leads to. -/
def Operation.leadsTo : Operation → Phase
  | .start | .cont => .running
  | .stop => .stopped
  | .term => .ended

theorem Phase.next_some {phase' : Phase} (h : phase.next op = some phase') :
    phase' = op.leadsTo := by
  cases phase <;> cases op <;> simp [Phase.next] at h <;> exact h.symm

/-- The phase the operations lead to, if each is allowed where it stands. -/
def phaseAfter (ops : List (Operation × UInt32)) : Option Phase :=
  after Phase.next .fresh (ops.map Prod.fst)

theorem phaseAfter_append : phaseAfter (prior ++ ops) =
    (phaseAfter prior).bind fun phase => after Phase.next phase (ops.map Prod.fst) := by
  rw [phaseAfter, List.map_append, after_append]
  rfl

/-- Where the parties can be together. -/
inductive Joint (s : System) : Prop
  | unborn (hpc : s.manager.pc = .idle) (hprocess : s.process = none)
      (hissued : s.manager.issued = [])
  | settled {p : RealProcess} {phase : Phase} (hpc : s.manager.pc = .idle)
      (hprocess : s.process = some p) (hphase : phaseAfter s.manager.issued = some phase)
      (hrest : AtRest p phase) (hdecoded : p.decoded = s.manager.issued) (hstdin : s.stdin = [])
      (hstdout : s.stdout = [])
  | starting {p : RealProcess} {time : UInt32} {i : ℕ} (hpc : s.manager.pc = .sending .start time i)
      (hprocess : s.process = some p) (hissued : s.manager.issued = [(.start, time)])
      (hi : i < 4) (hreceiving : Receiving .start ((timeBytes time).take (3 - i)) p s.stdin)
      (hdecoded : p.decoded = []) (hstdout : s.stdout = [])
  | sending {p : RealProcess} {prior : List (Operation × UInt32)} {phase : Phase} {op : Operation}
      {sig : Signal} {time : UInt32} {i : ℕ} (hpc : s.manager.pc = .sending op time i)
      (hprocess : s.process = some p) (hissued : s.manager.issued = prior ++ [(op, time)])
      (hsig : op.signal = some sig) (hphase : phaseAfter prior = some phase)
      (hrest : AtRest p phase) (hdecoded : p.decoded = prior) (hi : i < 4)
      (hstdin : s.stdin = (timeBytes time).take (3 - i)) (hstdout : s.stdout = [])
  | signalling {p : RealProcess} {prior : List (Operation × UInt32)} {phase : Phase}
      {op : Operation} {sig : Signal} {time : UInt32}
      (hpc : s.manager.pc = .signalling op sig time)
      (hprocess : s.process = some p) (hissued : s.manager.issued = prior ++ [(op, time)])
      (hsig : op.signal = some sig) (hphase : phaseAfter prior = some phase)
      (hrest : AtRest p phase) (hdecoded : p.decoded = prior)
      (hstdin : s.stdin = timeBytes time) (hstdout : s.stdout = [])
  | serving {p : RealProcess} {prior : List (Operation × UInt32)} {op : Operation} {time : UInt32}
      (hpc : s.manager.pc = awaiting op time) (hprocess : s.process = some p)
      (hissued : s.manager.issued = prior ++ [(op, time)])
      (hserving : Serving op time prior p s.stdin s.stdout)
  | ended {p : RealProcess} (hpc : s.manager.pc = .idle) (hprocess : s.process = some p)
      (hphase : phaseAfter s.manager.issued = some .ended) (hexited : p.pc = .exited)
      (hdecoded : p.decoded = s.manager.issued)

/-- What every interleaving keeps: the manager goes through `ops`, and its checks succeed. -/
structure Synchronised (ops : List (Operation × UInt32)) (s : System) : Prop where
  plan : s.manager.issued ++ s.manager.todo = ops
  verified : ∀ e ∈ s.manager.verified, e.1 = e.2
  joint : Joint s

/-- The next operation is allowed where it stands. -/
theorem next_of_plan {todo : List (Operation × UInt32)}
    (hplan : (phaseAfter (prior ++ (op, time) :: todo)).isSome)
    (hphase : phaseAfter prior = some phase) : phase.next op = some op.leadsTo := by
  rw [phaseAfter_append, hphase] at hplan
  cases hnext : phase.next op with
  | none => simp [hnext] at hplan
  | some phase' => rw [Phase.next_some hnext]

theorem phaseAfter_of_append (h : (phaseAfter (prior ++ ops)).isSome) :
    (phaseAfter prior).isSome := by
  rw [phaseAfter, List.map_append] at h
  exact after_prefix (List.prefix_append _ _) h

theorem phaseAfter_concat (hphase : phaseAfter prior = some phase)
    (hnext : phase.next op = some op.leadsTo) :
    phaseAfter (prior ++ [(op, time)]) = some op.leadsTo := by
  simp [phaseAfter_append, hphase, hnext]

/-- A signal that finds the process at rest begins the operation. -/
theorem AtRest.kill (h : AtRest p phase) (time : UInt32) (hsig : op.signal = some sig)
    (hnext : phase.next op = some op.leadsTo) :
    Serving op time p.decoded (p.kill sig) (timeBytes time) [] := by
  have hkill : ∀ {blocked : Finset Signal} {stopped : Bool},
      p.signals = ⟨blocked, ∅, stopped, false⟩ → (stopped = true → op = .cont) → p.alive →
      p.kill sig = { p with signals := ⟨blocked, {sig}, false, false⟩ } := by
    intro blocked stopped hsignals hcont halive
    rw [RealProcess.kill, if_pos halive, hsignals]
    cases stopped with
    | false => cases op <;> cases hsig <;> simp [Signals.generate, stopSignals]
    | true =>
      obtain rfl := hcont rfl
      cases hsig
      simp [Signals.generate]
  cases h with
  | storing hop hpc hsignals =>
    rw [hkill hsignals (by simp) (by simp [RealProcess.alive, hpc])]
    exact .signalled hsig (Or.inr ⟨_, _, hop, hpc⟩) (Or.inl rfl) rfl rfl
  | waiting hpc hsignals =>
    rw [hkill hsignals (by simp) (by simp [RealProcess.alive, hpc])]
    exact .signalled hsig (Or.inl hpc) (Or.inl rfl) rfl rfl
  | suspended hpc hsignals =>
    have hcont : op = .cont := by cases op <;> simp [Phase.next] at hnext ⊢
    rw [hkill hsignals (fun _ => hcont) (by simp [RealProcess.alive, hpc])]
    exact .signalled hsig (Or.inl hpc) (Or.inr ⟨hcont, rfl⟩) rfl rfl

/-- The bytes still to be written make up the rest of the four. -/
theorem take_timeBytes_concat (time : UInt32) {i : ℕ} (hi : i < 4) :
    (timeBytes time).take (3 - i) ++ [timeByte time i] = (timeBytes time).take (4 - i) := by
  interval_cases i <;> rfl

theorem Receiving.write {b : UInt8} (h : Receiving op sent p stdin) :
    Receiving op (sent ++ [b]) p (stdin ++ [b]) := by
  cases h with
  | setup hop hpc hsignals hbytes => exact .setup hop hpc hsignals (by rw [hbytes])
  | reading hpc hlength hsignals hbytes =>
    exact .reading hpc hlength hsignals (by rw [← hbytes, List.append_assoc])

theorem awaiting_ne_idle : awaiting op time ≠ .idle := by cases op <;> simp [awaiting]

/-- The manager begins an operation with nobody forked, or with the process at rest. -/
theorem Synchronised.issue (hplan : (phaseAfter ops).isSome) (h : Synchronised ops s)
    (hpc : s.manager.pc = .idle) (hm : s.issue = some s') : Synchronised ops s' := by
  cases htodo : s.manager.todo with
  | nil => simp [System.issue, htodo] at hm
  | cons next todo =>
    obtain ⟨op, time⟩ := next
    have hops := h.plan
    rw [htodo] at hops
    have hissued : s.manager.issued ++ [(op, time)] ++ todo = ops := by
      rw [← hops, List.append_assoc, List.singleton_append]
    rw [← hops] at hplan
    simp only [System.issue, htodo] at hm
    cases h.joint with
    | unborn _ hprocess hnone =>
      have hstart : op = .start := by
        rw [hnone] at hplan
        have hnext : Phase.fresh.next op = some op.leadsTo := next_of_plan hplan rfl
        cases op <;> simp [Phase.next] at hnext ⊢
      subst hstart
      rw [if_pos rfl] at hm
      cases hm
      refine ⟨hissued, h.verified, ?_⟩
      exact .starting rfl rfl (by simp [hnone]) (by decide)
        (.setup rfl rfl rfl rfl) rfl rfl
    | settled _ hprocess hphase hrest hdecoded hstdin hstdout =>
      have hnext := next_of_plan hplan hphase
      obtain ⟨sig, hsig⟩ : ∃ sig, op.signal = some sig := by
        cases op with
        | start => cases hrest <;> simp [Phase.next] at hnext
        | cont | stop | term => exact ⟨_, rfl⟩
      have hne : op ≠ .start := by
        rintro rfl
        cases hsig
      rw [if_neg hne] at hm
      cases hm
      exact ⟨hissued, h.verified, .sending rfl hprocess rfl hsig hphase hrest hdecoded (by decide)
        hstdin hstdout⟩
    | ended _ _ hphase =>
      have hnext := next_of_plan hplan hphase
      cases op <;> simp [Phase.next] at hnext
    | starting hpc' | sending hpc' | signalling hpc' => simp [hpc'] at hpc
    | serving hpc' => exact absurd (hpc'.symm.trans hpc) awaiting_ne_idle

/-- The process answers START and CONT when it is back at rest, and TERM when it ends. -/
theorem Serving.answered (h : Serving op time prior p stdin written) (hne : written ≠ []) :
    stdin = [] ∧ p.decoded = prior ++ [(op, time)] ∧
      ((op = .cont ∨ op = .start) ∧ AtRest p .running ∧ written = [timeByte time 0] ∨
        op = .term ∧ p.pc = .exited) := by
  cases h with
  | echoed hop hrest hdecoded => exact ⟨rfl, hdecoded, Or.inl ⟨hop, hrest, rfl⟩⟩
  | exited hop hpc hdecoded => exact ⟨rfl, hdecoded, Or.inr ⟨hop, hpc⟩⟩
  | _ => exact absurd rfl hne

/-- A process that serves STOP is stopped only after it has read the bytes. -/
theorem Serving.stopped (h : Serving .stop time prior p stdin written)
    (hstopped : p.signals.stopped = true) : stdin = [] ∧ written = [] ∧
      p.decoded = prior ++ [(.stop, time)] ∧ p.pc = .waiting ∧
      p.signals = ⟨signalMask \ {.sigtstp}, ∅, true, true⟩ := by
  cases h with
  | suspended _ hpc hsignals hdecoded => exact ⟨rfl, rfl, hdecoded, hpc, hsignals⟩
  | signalled _ _ _ hsignals => simp [hsignals] at hstopped
  | handling _ _ _ hsignals => simp [hsignals] at hstopped
  | checking _ hsignals => simp [hsignals] at hstopped
  | storing _ _ hsignals => simp [hsignals] at hstopped
  | suspending _ _ hsignals => simp [hsignals] at hstopped
  | receiving hreceiving =>
    cases hreceiving with
    | setup hop => cases hop
    | reading _ _ hsignals => simp [hsignals] at hstopped
  | echoing hop | echoed hop => simp at hop
  | hashing hop | exited hop => simp at hop

/-- What the manager waits for comes only when the process is back at rest or has ended. -/
theorem Synchronised.complete (hplan : (phaseAfter ops).isSome) (h : Synchronised ops s)
    (hpc : s.manager.pc = awaiting op time) (hprocess : s.process = some p)
    (hissued : s.manager.issued = prior ++ [(op, time)])
    (hserving : Serving op time prior p s.stdin s.stdout) (hm : s.manage = some s') :
    Synchronised ops s' := by
  have hphase : phaseAfter s.manager.issued = some op.leadsTo := by
    rw [← h.plan, hissued, List.append_assoc] at hplan
    obtain ⟨phase, hprior⟩ := Option.isSome_iff_exists.mp (phaseAfter_of_append hplan)
    rw [hissued]
    exact phaseAfter_concat hprior (next_of_plan hplan hprior)
  have hverified : ∀ testByte, s.manager.pc = .verifying testByte → testByte = timeByte time 0 →
      op = .cont ∨ op = .start → Synchronised ops s' := by
    intro testByte hverifying hbyte hop
    simp only [System.manage, hverifying] at hm
    cases hout : s.stdout with
    | nil => simp [hout] at hm
    | cons b rest =>
      obtain ⟨hstdin, hdecoded, ⟨-, hrest, hwritten⟩ | ⟨hterm, -⟩⟩ :=
        hserving.answered (by simp [hout])
      · obtain ⟨rfl, rfl⟩ := List.cons.inj (hout.symm.trans hwritten)
        simp only [hout, hbyte, if_true] at hm
        cases hm
        refine ⟨h.plan, ?_, .settled rfl hprocess hphase ?_ (hdecoded.trans hissued.symm)
          hstdin rfl⟩
        · intro e he
          rcases List.mem_append.mp he with he | he
          · exact h.verified e he
          · rw [List.mem_singleton.mp he]
        · rcases hop with rfl | rfl <;> exact hrest
      · rcases hop with rfl | rfl <;> cases hterm
  cases op with
  | start => exact hverified _ hpc rfl (Or.inr rfl)
  | cont => exact hverified _ hpc (UInt8.toUInt8_toInt8 _) (Or.inl rfl)
  | stop =>
    simp only [System.manage, hpc, awaiting, hprocess, Option.bind_some, Signals.waitStopped] at hm
    split at hm
    · rename_i hstop
      cases hm
      obtain ⟨hstdin, hstdout, hdecoded, hwaiting, hsignals⟩ := hserving.stopped hstop.1
      exact ⟨h.plan, h.verified, .settled rfl rfl hphase
        (.suspended hwaiting (by simp [hsignals])) (hdecoded.trans hissued.symm) hstdin hstdout⟩
    · cases hm
  | term =>
    simp only [System.manage, hpc, awaiting] at hm
    split at hm
    · cases hm
    · rename_i hne
      cases hm
      obtain ⟨-, hdecoded, ⟨hop, -⟩ | ⟨-, hexited⟩⟩ := hserving.answered hne
      · simp at hop
      · exact ⟨h.plan, h.verified, .ended rfl hprocess hphase hexited
          (hdecoded.trans hissued.symm)⟩

theorem Synchronised.manage (hplan : (phaseAfter ops).isSome) (h : Synchronised ops s)
    (hm : s.manage = some s') : Synchronised ops s' := by
  have hplan' := hplan
  rw [← h.plan] at hplan'
  cases h.joint with
  | unborn hpc | settled hpc | ended hpc =>
    exact h.issue hplan hpc (by simpa only [System.manage, hpc] using hm)
  | @starting p time i hpc hprocess hissued hi hreceiving hdecoded hstdout =>
    have hwritten := hreceiving.write (b := timeByte time i)
    rw [take_timeBytes_concat time hi] at hwritten
    simp only [System.manage, hpc] at hm
    cases i with
    | zero =>
      cases hm
      have hserving : Serving .start time [] p (s.stdin ++ [timeByte time 0]) s.stdout := by
        rw [hstdout]
        exact .receiving hwritten hdecoded
      have hfirst : s.manager.issued = [] ++ [(.start, time)] := hissued
      exact ⟨h.plan, h.verified, .serving rfl hprocess hfirst hserving⟩
    | succ i =>
      cases hm
      refine ⟨h.plan, h.verified, .starting rfl hprocess hissued (by omega) ?_ hdecoded hstdout⟩
      rwa [show 3 - i = 4 - (i + 1) by omega]
  | @sending p prior phase op sig time i hpc hprocess hissued hsig hphase hrest hdecoded hi hstdin
      hstdout =>
    have hwritten := take_timeBytes_concat time hi
    rw [← hstdin] at hwritten
    simp only [System.manage, hpc, hsig] at hm
    cases i with
    | zero =>
      cases hm
      exact ⟨h.plan, h.verified, .signalling rfl hprocess hissued hsig hphase hrest hdecoded
        hwritten hstdout⟩
    | succ i =>
      cases hm
      refine ⟨h.plan, h.verified, .sending rfl hprocess hissued hsig hphase hrest hdecoded
        (by omega) ?_ hstdout⟩
      rwa [show 3 - i = 4 - (i + 1) by omega]
  | @signalling p prior phase op sig time hpc hprocess hissued hsig hphase hrest hdecoded hstdin
      hstdout =>
    simp only [System.manage, hpc, hprocess, Option.map_some, Option.some.injEq] at hm
    subst hm
    rw [hissued, List.append_assoc] at hplan'
    have hserving := hrest.kill time hsig (next_of_plan hplan' hphase)
    rw [hdecoded, ← hstdin, ← hstdout] at hserving
    exact ⟨h.plan, h.verified, .serving rfl rfl hissued hserving⟩
  | serving hpc hprocess hissued hserving => exact h.complete hplan hpc hprocess hissued hserving hm

/-- A step of the process keeps the parties together. -/
theorem Joint.act (h : Joint s) (hprocess : s.process = some p)
    (hstopped : p.signals.stopped = false) (halive : p.alive)
    (ha : p.act sha256Hash s.stdin action = some (p', rest, written)) :
    Joint { s with process := some p', stdin := rest, stdout := s.stdout ++ written } := by
  cases h with
  | unborn _ hnone => simp [hnone] at hprocess
  | settled hpc hsame hphase hrest hdecoded hstdin hstdout =>
    obtain rfl := Option.some.inj (hsame.symm.trans hprocess)
    obtain ⟨hrest', hdecoded', rfl, rfl⟩ := hrest.act hstopped ha
    exact .settled hpc rfl hphase hrest' (hdecoded'.trans hdecoded) hstdin (by simp [hstdout])
  | starting hpc hsame hissued hi hreceiving hdecoded hstdout =>
    obtain rfl := Option.some.inj (hsame.symm.trans hprocess)
    obtain ⟨rfl, ⟨hreceiving', hdecoded'⟩ | ⟨buf, hlength, hbytes, -⟩⟩ := hreceiving.act ha
    · exact .starting hpc rfl hissued hi hreceiving' (hdecoded'.trans hdecoded) (by simp [hstdout])
    · -- Before the last byte is written the process cannot have read four.
      have hcount := congrArg List.length hbytes
      rw [List.length_append, List.length_take, timeBytes_length] at hcount
      omega
  | sending hpc hsame hissued hsig hphase hrest hdecoded hi hstdin hstdout =>
    obtain rfl := Option.some.inj (hsame.symm.trans hprocess)
    obtain ⟨hrest', hdecoded', rfl, rfl⟩ := hrest.act hstopped ha
    exact .sending hpc rfl hissued hsig hphase hrest' (hdecoded'.trans hdecoded) hi hstdin
      (by simp [hstdout])
  | signalling hpc hsame hissued hsig hphase hrest hdecoded hstdin hstdout =>
    obtain rfl := Option.some.inj (hsame.symm.trans hprocess)
    obtain ⟨hrest', hdecoded', rfl, rfl⟩ := hrest.act hstopped ha
    exact .signalling hpc rfl hissued hsig hphase hrest' (hdecoded'.trans hdecoded) hstdin
      (by simp [hstdout])
  | serving hpc hsame hissued hserving =>
    obtain rfl := Option.some.inj (hsame.symm.trans hprocess)
    exact .serving hpc rfl hissued (hserving.act hstopped halive ha)
  | ended _ hsame _ hexited =>
    obtain rfl := Option.some.inj (hsame.symm.trans hprocess)
    simp [RealProcess.alive, hexited] at halive

theorem Synchronised.step (hplan : (phaseAfter ops).isSome) (h : Synchronised ops s)
    (hstep : s.step sha256Hash action = some s') : Synchronised ops s' := by
  simp only [System.step] at hstep
  split at hstep
  · exact h.manage hplan hstep
  · obtain ⟨p, hprocess, hact⟩ := Option.bind_eq_some_iff.mp hstep
    split at hact
    · cases hact
    · rename_i hruns
      push Not at hruns
      obtain ⟨⟨p', rest, written⟩, ha, heq⟩ := Option.map_eq_some_iff.mp hact
      cases heq
      exact ⟨h.plan, h.verified, h.joint.act hprocess (by simpa using hruns.1) hruns.2 ha⟩

theorem reachable_synchronised (hplan : (phaseAfter ops).isSome)
    (h : System.Reachable sha256Hash name ops s) : Synchronised ops s := by
  induction h with
  | init => exact ⟨rfl, by simp [System.init], .unborn rfl rfl rfl⟩
  | step _ hstep ih => exact ih.step hplan hstep

theorem AtRest.no_leftover (h : AtRest p phase) : p.pc ≠ .leftoverBytes := by
  cases h with
  | storing _ hpc => simp [hpc]
  | waiting hpc => simp [hpc]
  | suspended hpc => simp [hpc]

theorem Receiving.no_leftover (h : Receiving op sent p stdin) : p.pc ≠ .leftoverBytes := by
  cases h with
  | setup _ hpc => simp [hpc]
  | reading hpc => simp [hpc]

theorem Serving.no_leftover (h : Serving op time prior p stdin written) :
    p.pc ≠ .leftoverBytes := by
  cases h with
  | signalled _ hpc => rcases hpc with hpc | ⟨_, _, -, hpc⟩ <;> simp [hpc]
  | receiving hreceiving => exact hreceiving.no_leftover
  | echoed _ hrest => exact hrest.no_leftover
  | handling _ hpc | checking hpc | echoing _ hpc => simp [hpc]
  | storing _ hpc | suspending _ hpc | suspended _ hpc => simp [hpc]
  | hashing _ hpc | exited _ hpc => simp [hpc]

theorem Serving.decoded (h : Serving op time prior p stdin written) :
    p.decoded <+: prior ++ [(op, time)] := by
  have hbefore : p.decoded = prior → p.decoded <+: prior ++ [(op, time)] :=
    fun h => h ▸ List.prefix_append _ _
  cases h with
  | signalled _ _ _ _ hdecoded | handling _ _ _ _ hdecoded | receiving _ hdecoded =>
    exact hbefore hdecoded
  | echoed _ _ hdecoded | exited _ _ hdecoded => exact hdecoded ▸ List.prefix_rfl
  | checking _ _ hdecoded => exact hdecoded ▸ List.prefix_rfl
  | echoing _ _ _ hdecoded | storing _ _ _ hdecoded => exact hdecoded ▸ List.prefix_rfl
  | suspending _ _ _ hdecoded | suspended _ _ _ hdecoded => exact hdecoded ▸ List.prefix_rfl
  | hashing _ _ _ hdecoded => exact hdecoded ▸ List.prefix_rfl

/-- The process has not seen a byte too many, and has decoded what was issued, in order. -/
theorem Joint.process_safe (h : Joint s) (hprocess : s.process = some p) :
    p.pc ≠ .leftoverBytes ∧ p.decoded <+: s.manager.issued := by
  cases h with
  | unborn _ hnone => simp [hnone] at hprocess
  | settled _ hsame _ hrest hdecoded =>
    obtain rfl := Option.some.inj (hsame.symm.trans hprocess)
    exact ⟨hrest.no_leftover, hdecoded ▸ List.prefix_rfl⟩
  | starting _ hsame hissued _ hreceiving hdecoded =>
    obtain rfl := Option.some.inj (hsame.symm.trans hprocess)
    exact ⟨hreceiving.no_leftover, hdecoded ▸ List.nil_prefix⟩
  | sending _ hsame hissued _ _ hrest hdecoded =>
    obtain rfl := Option.some.inj (hsame.symm.trans hprocess)
    exact ⟨hrest.no_leftover, hdecoded ▸ hissued ▸ List.prefix_append _ _⟩
  | signalling _ hsame hissued _ _ hrest hdecoded =>
    obtain rfl := Option.some.inj (hsame.symm.trans hprocess)
    exact ⟨hrest.no_leftover, hdecoded ▸ hissued ▸ List.prefix_append _ _⟩
  | serving _ hsame hissued hserving =>
    obtain rfl := Option.some.inj (hsame.symm.trans hprocess)
    exact ⟨hserving.no_leftover, hissued ▸ hserving.decoded⟩
  | ended _ hsame _ hexited hdecoded =>
    obtain rfl := Option.some.inj (hsame.symm.trans hprocess)
    exact ⟨by simp [hexited], hdecoded ▸ List.prefix_rfl⟩

/-- In every interleaving, for operations that begin a word of the discipline: `read_and_verify`
reads the byte `send_bytes` returned, the check for leftover bytes never fires, and the process
decodes operations and times in the order they were issued. -/
theorem handshake_safe (sha256Hash : List UInt8 → List UInt8) (name : List UInt8)
    (ops : List (Operation × UInt32)) (hops : ∃ w ∈ discipline, ops.map Prod.fst <+: w)
    (s : System) (h : System.Reachable sha256Hash name ops s) :
    (s.manager.pc ≠ .failed ∧ ∀ e ∈ s.manager.verified, e.1 = e.2) ∧
    s.manager.issued <+: ops ∧
    ∀ p, s.process = some p → p.pc ≠ .leftoverBytes ∧ p.decoded <+: s.manager.issued := by
  have hsync := reachable_synchronised (prefix_discipline_iff.mp hops) h
  refine ⟨⟨?_, hsync.verified⟩, ⟨_, hsync.plan⟩, fun p => hsync.joint.process_safe⟩
  cases hsync.joint with
  | unborn hpc | settled hpc | starting hpc | sending hpc | signalling hpc | ended hpc => simp [hpc]
  | @serving _ _ op _ hpc =>
    rw [hpc]
    cases op <;> simp [awaiting]

/-- START, STOP and CONT, with the bytes of STOP read in two pieces. -/
def startStopCont : List Action :=
  [.manage, .proceed, .manage, .manage, .read 1, .manage, .manage, .read 3, .proceed, .proceed,
    .manage, .manage, .manage, .proceed, .manage, .manage, .manage, .manage, .dequeue .sigtstp,
    .proceed, .read 1, .read 3, .proceed, .proceed, .proceed, .manage, .manage, .manage, .manage,
    .manage, .manage, .manage, .dequeue .sigcont, .proceed, .read 4, .proceed, .proceed, .manage]

theorem handshake_safe_startStopCont : ∃ s p,
    (System.init [80] [(.start, 258), (.stop, 260), (.cont, 262)]).run id startStopCont = some s ∧
      s.process = some p ∧ s.manager.verified = [(2, 2), (6, 6)] ∧
      p.decoded <+: s.manager.issued := by
  have hrun : ∃ s p, (System.init [80] [(.start, 258), (.stop, 260), (.cont, 262)]).run id
      startStopCont = some s ∧ s.process = some p ∧ s.manager.verified = [(2, 2), (6, 6)] :=
    ⟨_, _, rfl, rfl, rfl⟩
  obtain ⟨s, p, hrun, hprocess, hverified⟩ := hrun
  have hsafe := handshake_safe id [80] [(.start, 258), (.stop, 260), (.cont, 262)]
    (prefix_discipline_iff.mpr rfl) s (System.Reachable.init.run hrun)
  exact ⟨s, p, hrun, hprocess, hverified, (hsafe.2.2 p hprocess).2⟩

end ProcessManager
