import ProcessManager.HandshakeHash
import ProcessManager.Library.Progress

/-! The handshake comes to its end: no interleaving goes on for ever, and none is stuck before the
manager is through with its operations. -/
namespace ProcessManager

open Posix Machines Progress

variable {sha256Hash : List UInt8 → List UInt8} {p p' : RealProcess} {s s' : System}
  {op : Operation} {time : UInt32} {action : Action} {prior ops : List (Operation × UInt32)}
  {stdin stdout rest written name sent : List UInt8} {phase : Phase}

/-- The steps a process may still take before it waits or has exited. -/
def ProcessPc.work : ProcessPc → ℕ
  | .setup => 9
  | .reading _ buf => 4 - buf.length + 4
  | .checking _ _ => 4
  | .echoing _ _ => 3
  | .storing _ _ => 2
  | .suspending | .hashing => 1
  | .handling _ => 9
  | .waiting | .exited | .leftoverBytes | .killed => 0

/-- A pending signal is read and handled like the first one. -/
def RealProcess.work (p : RealProcess) : ℕ := p.pc.work + 10 * p.signals.pending.card

/-- A signal costs the manager one step, and the process its ten. -/
def ManagerPc.work : ManagerPc → ℕ
  | .sending _ _ i => i + 13
  | .signalling _ _ _ => 12
  | .verifying _ | .suspending | .readingHash => 1
  | .idle | .failed => 0

def System.work (s : System) : ℕ :=
  26 * s.manager.todo.length + s.manager.pc.work + (s.process.map RealProcess.work).getD 0

theorem RealProcess.proceed_work (h : p.proceed sha256Hash stdin = some (p', written)) :
    p'.work < p.work := by
  cases hpc : p.pc with
  | checking op buf =>
    simp only [RealProcess.proceed, hpc] at h
    split at h
    · cases h
      simp [work, hpc, ProcessPc.work, goto]
    · split at h <;> cases h <;> simp [work, hpc, ProcessPc.work, goto]
  | storing op buf =>
    simp only [RealProcess.proceed, hpc] at h
    cases op <;> cases h <;> simp [work, hpc, ProcessPc.work, goto]
  | handling sig =>
    simp only [RealProcess.proceed, hpc] at h
    cases sig <;> cases h <;>
      simp [work, hpc, ProcessPc.work, goto, Signals.block, Signals.unblock]
  | setup =>
    simp only [RealProcess.proceed, hpc] at h
    cases h
    simp [work, hpc, ProcessPc.work, Signals.block]
  | suspending =>
    simp only [RealProcess.proceed, hpc] at h
    cases h
    have hcard := Finset.card_erase_le (s := p.signals.pending) (a := .sigcont)
    simp only [work, hpc, ProcessPc.work, Signals.raiseStop, Signals.stop]
    omega
  | echoing | hashing =>
    simp only [RealProcess.proceed, hpc] at h
    cases h
    simp [work, hpc, ProcessPc.work, goto]
  | reading | waiting | exited | leftoverBytes | killed => simp [RealProcess.proceed, hpc] at h

theorem RealProcess.read_work {n : ℕ} (h : p.read stdin n = some (p', rest)) :
    p'.work < p.work := by
  cases hpc : p.pc with
  | reading op buf =>
    simp only [RealProcess.read, hpc] at h
    split at h
    · rename_i hn
      have hlength : (buf ++ stdin.take n).length = buf.length + n := by
        rw [List.length_append, List.length_take, min_eq_left hn.2.2]
      split at h
      · cases h
        simp only [work, hpc, ProcessPc.work, goto, hlength]
        omega
      · cases h
        simp only [work, hpc, ProcessPc.work]
        omega
    · cases h
  | _ => simp [RealProcess.read, hpc] at h

/-- A signal that is taken is no longer pending. -/
theorem pending_erase {k : Signals} {sig : Signal} (h : sig ∈ k.pending) :
    (k.pending.erase sig).card + 1 = k.pending.card := Finset.card_erase_add_one h

theorem RealProcess.act_work (h : p.act sha256Hash stdin action = some (p', rest, written)) :
    p'.work < p.work := by
  cases action with
  | manage => cases h
  | proceed =>
    obtain ⟨⟨q, out⟩, hproceed, heq⟩ := Option.map_eq_some_iff.mp h
    cases heq
    exact proceed_work hproceed
  | read n =>
    obtain ⟨⟨q, left⟩, hread, heq⟩ := Option.map_eq_some_iff.mp h
    cases heq
    exact read_work hread
  | dequeue sig =>
    obtain ⟨q, hdequeue, heq⟩ := Option.map_eq_some_iff.mp h
    cases heq
    cases hpc : p.pc with
    | waiting =>
      simp only [RealProcess.dequeue, hpc, Option.map_eq_some_iff] at hdequeue
      obtain ⟨signals, hsignals, rfl⟩ := hdequeue
      obtain ⟨hmem, -, rfl⟩ := Signals.dequeue_some hsignals
      have hcard := pending_erase hmem
      simp only [work, hpc, ProcessPc.work]
      omega
    | _ => simp [RealProcess.dequeue, hpc] at hdequeue
  | deliver sig =>
    obtain ⟨q, hdeliver, heq⟩ := Option.map_eq_some_iff.mp h
    cases heq
    obtain ⟨⟨signals, ends⟩, hsignals, rfl⟩ := Option.map_eq_some_iff.mp hdeliver
    obtain ⟨hmem, hpending⟩ := Signals.deliver_pending hsignals
    have hcard := pending_erase hmem
    have hpc : (if ends = true then ProcessPc.killed else p.pc).work ≤ p.pc.work := by
      cases ends with
      | true => exact Nat.zero_le _
      | false => exact le_rfl
    simp only [work, hpending]
    omega

theorem RealProcess.kill_work (p : RealProcess) (sig : Signal) :
    (p.kill sig).work ≤ p.work + 10 := by
  have hcard := p.signals.generate_card sig
  unfold RealProcess.kill
  split
  · simp only [work]
    omega
  · omega

theorem awaiting_work (op : Operation) (time : UInt32) : (awaiting op time).work = 1 := by
  cases op <;> rfl

theorem System.manage_work (h : s.manage = some s') : s'.work < s.work := by
  cases hpc : s.manager.pc with
  | idle =>
    simp only [System.manage, hpc] at h
    cases htodo : s.manager.todo with
    | nil => simp [System.issue, htodo] at h
    | cons next todo =>
      obtain ⟨op, time⟩ := next
      simp only [System.issue, htodo] at h
      split at h
      · cases h
        simp only [work, htodo, hpc, ManagerPc.work, List.length_cons, Option.map_some,
          Option.getD_some, RealProcess.work, RealProcess.forked, ProcessPc.work, Signals.fresh,
          Finset.card_empty]
        omega
      · cases h
        simp only [work, htodo, hpc, ManagerPc.work, List.length_cons]
        omega
  | sending op time i =>
    have hawaiting := awaiting_work op time
    have hsending : ∀ j, (ManagerPc.sending op time j).work = j + 13 := fun _ => rfl
    have hsignalling : ∀ sig, (ManagerPc.signalling op sig time).work = 12 := fun _ => rfl
    simp only [System.manage, hpc] at h
    split at h <;> cases h
    · simp only [work, goto, hpc, hsending]
      omega
    · simp only [work, goto, hpc, hsending, hsignalling]
      omega
    · simp only [work, goto, hpc, hsending]
      omega
  | signalling op sig time =>
    simp only [System.manage, hpc] at h
    obtain ⟨q, hq, heq⟩ := Option.map_eq_some_iff.mp h
    cases heq
    have hkill := q.kill_work sig
    have hawaiting := awaiting_work op time
    have hsignalling : (ManagerPc.signalling op sig time).work = 12 := rfl
    simp only [work, goto, hpc, hq, hsignalling, Option.map_some, Option.getD_some]
    omega
  | verifying testByte =>
    simp only [System.manage, hpc] at h
    cases hout : s.stdout with
    | nil => simp [hout] at h
    | cons b left =>
      simp only [hout] at h
      cases h
      have hend : (if b = testByte then ManagerPc.idle else .failed).work = 0 := by
        split <;> rfl
      have hbefore : s.manager.pc.work = 1 := by rw [hpc]; rfl
      simp only [work, hbefore, hend]
      omega
  | suspending =>
    simp only [System.manage, hpc] at h
    obtain ⟨q, hq, hwait⟩ := Option.bind_eq_some_iff.mp h
    obtain ⟨signals, hsignals, heq⟩ := Option.map_eq_some_iff.mp hwait
    cases heq
    simp only [work, goto, hpc, hq, ManagerPc.work, Option.map_some, Option.getD_some,
      RealProcess.work, Signals.waitStopped_pending hsignals]
    omega
  | readingHash =>
    simp only [System.manage, hpc] at h
    split at h
    · cases h
    · cases h
      simp only [work, hpc, ManagerPc.work]
      omega
  | failed => simp [System.manage, hpc] at h

/-- Every step of either party leaves less to do. -/
theorem System.step_work (sha256Hash : List UInt8 → List UInt8) :
    Decreases (System.step sha256Hash) (fun _ => True) System.work := by
  intro s action s' _ hstep
  refine ⟨trivial, ?_⟩
  simp only [System.step] at hstep
  split at hstep
  · exact manage_work hstep
  · obtain ⟨p, hprocess, hact⟩ := Option.bind_eq_some_iff.mp hstep
    split at hact
    · cases hact
    · obtain ⟨⟨p', rest, written⟩, ha, heq⟩ := Option.map_eq_some_iff.mp hact
      cases heq
      have hless := RealProcess.act_work ha
      simp only [work, hprocess, Option.map_some, Option.getD_some]
      omega

theorem stuck_manage (h : Stuck (System.step sha256Hash) s) : s.manage = none := by
  simpa [System.step] using h .manage

theorem stuck_act (h : Stuck (System.step sha256Hash) s) (hprocess : s.process = some p)
    (hstopped : p.signals.stopped = false) (halive : p.alive) (haction : action ≠ .manage) :
    p.act sha256Hash s.stdin action = none := by
  have hnone := h action
  rw [System.step, if_neg haction, hprocess, Option.bind_some] at hnone
  simpa [hstopped, halive] using hnone

/-- While bytes are missing they are in the pipe. -/
theorem Receiving.moves (h : Receiving op (timeBytes time) p stdin) :
    p.signals.stopped = false ∧ p.alive ∧
      ∃ action, action ≠ .manage ∧ p.act sha256Hash stdin action ≠ none := by
  cases h with
  | setup _ hpc hsignals =>
    refine ⟨by simp [hsignals, Signals.fresh], by simp [RealProcess.alive, hpc], .proceed,
      by simp, ?_⟩
    simp [RealProcess.act, RealProcess.proceed, hpc]
  | @reading buf hpc hlength hsignals hbytes =>
    refine ⟨by simp [hsignals], by simp [RealProcess.alive, hpc], .read 1, by simp, ?_⟩
    have hstdin : 1 ≤ stdin.length := by
      have hcount := congrArg List.length hbytes
      rw [List.length_append, timeBytes_length] at hcount
      omega
    have hroom : 1 ≤ 4 - buf.length := by omega
    simp only [RealProcess.act, RealProcess.read, hpc, le_refl, hroom, hstdin, and_self, if_true]
    split <;> simp

/-- A process that serves an operation can go on, or the manager can. -/
theorem Serving.moves (sha256Hash : List UInt8 → List UInt8)
    (h : Serving op time prior p stdin stdout)
    (hexited : p.pc = .exited → stdout ≠ []) :
    (p.signals.stopped = false ∧ p.alive ∧
      ∃ action, action ≠ .manage ∧ p.act sha256Hash stdin action ≠ none) ∨
    (op = .cont ∨ op = .start) ∧ stdout ≠ [] ∨
    op = .stop ∧ p.signals.waitStopped ≠ none ∨ op = .term ∧ stdout ≠ [] := by
  have hproceeds : ∀ {blocked : Finset Signal} {pending : Finset Signal},
      p.signals = ⟨blocked, pending, false, false⟩ → p.alive →
      p.proceed sha256Hash stdin ≠ none → p.signals.stopped = false ∧ p.alive ∧
        ∃ action, action ≠ .manage ∧ p.act sha256Hash stdin action ≠ none := by
    intro blocked pending hsignals halive hsome
    refine ⟨by simp [hsignals], halive, .proceed, by simp, ?_⟩
    simpa [RealProcess.act] using hsome
  cases h with
  | @signalled _ sig hsig hpc _ hsignals =>
    left
    rcases hpc with hpc | ⟨op', buf, -, hpc⟩
    · refine ⟨by simp [hsignals], by simp [RealProcess.alive, hpc], .dequeue sig, by simp, ?_⟩
      have hmask : sig ∈ signalMask := by cases op <;> cases hsig <;> decide
      simp [RealProcess.act, RealProcess.dequeue, hpc, hsignals, Signals.dequeue, hmask]
    · apply hproceeds hsignals (by simp [RealProcess.alive, hpc])
      cases op' <;> simp [RealProcess.proceed, hpc]
  | @handling _ sig hsig hpc _ hsignals =>
    left
    apply hproceeds hsignals (by simp [RealProcess.alive, hpc])
    cases sig <;> simp [RealProcess.proceed, hpc]
  | receiving hreceiving => exact Or.inl hreceiving.moves
  | checking hpc hsignals =>
    left
    apply hproceeds hsignals (by simp [RealProcess.alive, hpc])
    simp only [RealProcess.proceed, hpc]
    split_ifs <;> simp
  | echoing _ hpc hsignals =>
    left
    apply hproceeds hsignals (by simp [RealProcess.alive, hpc])
    simp [RealProcess.proceed, hpc]
  | echoed hop => exact Or.inr (Or.inl ⟨hop, by simp⟩)
  | storing _ hpc hsignals =>
    left
    apply hproceeds hsignals (by simp [RealProcess.alive, hpc])
    cases op <;> simp [RealProcess.proceed, hpc]
  | suspending _ hpc hsignals | hashing _ hpc hsignals =>
    left
    apply hproceeds hsignals (by simp [RealProcess.alive, hpc])
    simp [RealProcess.proceed, hpc]
  | suspended hop _ hsignals =>
    right; right; left
    exact ⟨hop, by simp [Signals.waitStopped, hsignals]⟩
  | exited hop hpc => exact Or.inr (Or.inr (Or.inr ⟨hop, hexited hpc⟩))

/-- When nothing can happen, the manager has gone through all operations. -/
theorem Synchronised.stuck (h : Synchronised ops s)
    (hhashed : s.Hashed sha256Hash name) (hstuck : Stuck (System.step sha256Hash) s) :
    s.manager.pc = .idle ∧ s.manager.todo = [] := by
  have hmanage := stuck_manage hstuck
  have hidle : s.manager.pc = .idle → s.manager.todo = [] := by
    intro hpc
    simp only [System.manage, hpc, System.issue] at hmanage
    split at hmanage
    · assumption
    · split at hmanage <;> cases hmanage
  cases h.joint with
  | unborn hpc | settled hpc | ended hpc => exact ⟨hpc, hidle hpc⟩
  | starting hpc | sending hpc =>
    simp only [System.manage, hpc] at hmanage
    split at hmanage <;> cases hmanage
  | signalling hpc hprocess => simp [System.manage, hpc, hprocess] at hmanage
  | @serving p prior op time hpc hprocess hissued hserving =>
    have hexited : p.pc = .exited → s.stdout ≠ [] := by
      intro hexited
      rcases (hhashed.2 p hprocess).2 hexited with ⟨-, hline⟩ | ⟨hidle', -⟩
      · rw [hline, hashLine]
        simp
      · exact absurd (hpc.symm.trans hidle') awaiting_ne_idle
    rcases hserving.moves sha256Hash hexited with
      ⟨hstopped, halive, action, haction, hsome⟩ | ⟨hop, hout⟩ | ⟨rfl, hwait⟩ | ⟨rfl, hout⟩
    · exact absurd (stuck_act hstuck hprocess hstopped halive haction) hsome
    · obtain ⟨b, left, hcons⟩ := List.exists_cons_of_ne_nil hout
      rcases hop with rfl | rfl <;> simp [System.manage, hpc, awaiting, hcons] at hmanage
    · simp only [System.manage, hpc, awaiting, hprocess, Option.bind_some,
        Option.map_eq_none_iff] at hmanage
      exact absurd hmanage hwait
    · simp [System.manage, hpc, awaiting, hout] at hmanage

/-- When nothing can happen the manager is through with all operations, and so is the process. -/
theorem Synchronised.ends (h : Synchronised ops s) (hhashed : s.Hashed sha256Hash name)
    (hstuck : ∀ action, s.step sha256Hash action = none) :
    s.manager.pc = .idle ∧ s.manager.issued = ops ∧
      ∀ p, s.process = some p → p.decoded = ops := by
  obtain ⟨hpc, htodo⟩ := h.stuck hhashed hstuck
  have hissued : s.manager.issued = ops := by
    have hops := h.plan
    rwa [htodo, List.append_nil] at hops
  refine ⟨hpc, hissued, fun p hprocess => ?_⟩
  rw [← hissued]
  exact h.joint.decoded_idle hpc hprocess

end ProcessManager
