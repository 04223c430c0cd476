import ProcessManager.HandshakeSafety

/-! What a real process hashes: its name and the operations it was sent, however the parties take
turns. -/
namespace ProcessManager

open Posix Machines

variable {sha256Hash : List UInt8 → List UInt8} {p p' : RealProcess} {s s' : System}
  {op : Operation} {time : UInt32} {action : Action} {ops : List (Operation × UInt32)}
  {stdin rest written buf name : List UInt8}

/-- The content after the name and the operations of a list. -/
def contentOf (name : List UInt8) (ops : List (Operation × UInt32)) : HashContent :=
  ops.foldl (fun h x => storeFrom 0 (x.1.code :: timeBytes x.2) h) (storeProcessName name)

/-- What `process.c` writes to stdout before it exits: the hash and a newline. -/
def hashLine (sha256Hash : List UInt8 → List UInt8) (name : List UInt8)
    (ops : List (Operation × UInt32)) : List UInt8 :=
  sha256Hash ((contentOf name ops).content.take (128 - 9)) ++ [10]

theorem contentOf_concat (name : List UInt8) (ops : List (Operation × UInt32)) (op : Operation)
    (time : UInt32) : contentOf name (ops ++ [(op, time)]) =
      storeFrom 0 (op.code :: timeBytes time) (contentOf name ops) := by
  rw [contentOf, List.foldl_append]
  rfl

/-- The four bytes are those of the time they make. -/
theorem timeBytes_dword (h : buf.length = 4) : timeBytes (dword buf) = buf := by
  match buf, h with
  | [a, b, c, d], _ =>
    have hbyte : ∀ i, i < 4 → timeByte (dword [a, b, c, d]) i = [d, c, b, a].getD i 0 := by
      intro i hi
      apply UInt8.eq_of_toBitVec_eq
      apply BitVec.eq_of_getLsbD_eq
      intro j hj
      interval_cases i <;>
        simp [dword, timeByte, hj, -UInt32.toUInt32_toUInt8] <;> grind
    simp [timeBytes, hbyte]

/-- What has been stored at each place of `process.c`: all that was decoded, but for the operation
whose bytes are still in `buf`. Nothing is hashed after an error exit. -/
def RealProcess.Stored (name : List UInt8) (p : RealProcess) : Prop :=
  match p.pc with
  | .reading _ buf => buf.length < 4 ∧ p.hash = contentOf name p.decoded
  | .checking op buf | .echoing op buf | .storing op buf => buf.length = 4 ∧
    ∃ prior, p.decoded = prior ++ [(op, dword buf)] ∧ p.hash = contentOf name prior
  | .leftoverBytes | .killed => True
  | _ => p.hash = contentOf name p.decoded

theorem RealProcess.Stored.proceed (h : p.Stored name)
    (hp : p.proceed sha256Hash stdin = some (p', written)) : p'.Stored name := by
  cases hpc : p.pc with
  | setup =>
    simp only [Stored, hpc] at h
    simp only [RealProcess.proceed, hpc] at hp
    cases hp
    exact ⟨by simp, h⟩
  | checking op buf =>
    simp only [Stored, hpc] at h
    simp only [RealProcess.proceed, hpc] at hp
    split at hp
    · cases hp
      trivial
    · split at hp <;> cases hp <;> exact h
  | echoing op buf =>
    simp only [Stored, hpc] at h
    simp only [RealProcess.proceed, hpc] at hp
    cases hp
    exact h
  | storing op buf =>
    simp only [Stored, hpc] at h
    obtain ⟨hlength, prior, hdecoded, hhash⟩ := h
    have hstored : storeFrom 0 (op.code :: buf) p.hash = contentOf name p.decoded := by
      rw [hdecoded, contentOf_concat, timeBytes_dword hlength, hhash]
    simp only [RealProcess.proceed, hpc, hstored] at hp
    cases op <;> cases hp <;> exact rfl
  | handling sig =>
    simp only [Stored, hpc] at h
    simp only [RealProcess.proceed, hpc] at hp
    cases sig with
    | sigstop =>
      cases hp
      exact h
    | _ =>
      cases hp
      exact ⟨by simp, h⟩
  | suspending | hashing =>
    simp only [Stored, hpc] at h
    simp only [RealProcess.proceed, hpc] at hp
    cases hp
    exact h
  | reading | waiting | exited | leftoverBytes | killed =>
    simp [RealProcess.proceed, hpc] at hp

theorem RealProcess.Stored.read {n : ℕ} (h : p.Stored name)
    (hr : p.read stdin n = some (p', rest)) : p'.Stored name := by
  cases hpc : p.pc with
  | reading op buf =>
    simp only [Stored, hpc] at h
    simp only [RealProcess.read, hpc] at hr
    split at hr
    · rename_i hn
      split at hr
      · rename_i hmore
        cases hr
        exact ⟨hmore, h.2⟩
      · rename_i hfull
        cases hr
        refine ⟨?_, p.decoded, rfl, h.2⟩
        rw [List.length_append, List.length_take] at hfull ⊢
        omega
    · cases hr
  | _ => simp [RealProcess.read, hpc] at hr

/-- Whatever the process does next, and whatever signals it has, it hashes what it has decoded. -/
theorem RealProcess.Stored.act (h : p.Stored name)
    (ha : p.act sha256Hash stdin action = some (p', rest, written)) : p'.Stored name := by
  cases action with
  | manage => cases ha
  | proceed =>
    obtain ⟨⟨q, out⟩, hproceed, heq⟩ := Option.map_eq_some_iff.mp ha
    cases heq
    exact h.proceed hproceed
  | read n =>
    obtain ⟨⟨q, left⟩, hread, heq⟩ := Option.map_eq_some_iff.mp ha
    cases heq
    exact h.read hread
  | dequeue sig =>
    obtain ⟨q, hdequeue, heq⟩ := Option.map_eq_some_iff.mp ha
    cases heq
    cases hpc : p.pc with
    | waiting =>
      simp only [Stored, hpc] at h
      simp only [RealProcess.dequeue, hpc, Option.map_eq_some_iff] at hdequeue
      obtain ⟨signals, -, rfl⟩ := hdequeue
      exact h
    | _ => simp [RealProcess.dequeue, hpc] at hdequeue
  | deliver sig =>
    obtain ⟨q, hdeliver, heq⟩ := Option.map_eq_some_iff.mp ha
    cases heq
    obtain ⟨⟨signals, ends⟩, -, rfl⟩ := Option.map_eq_some_iff.mp hdeliver
    cases ends with
    | true => trivial
    | false => exact h

/-- The process stores what it decodes, and the manager waits for its hash, or has read it, once it
has exited. -/
def System.Hashed (sha256Hash : List UInt8 → List UInt8) (name : List UInt8) (s : System) : Prop :=
  s.manager.name = name ∧ ∀ p, s.process = some p → p.Stored name ∧
    (p.pc = .exited →
      s.manager.pc = .readingHash ∧ s.stdout = hashLine sha256Hash name p.decoded ∨
      s.manager.pc = .idle ∧ s.manager.sha256 = (hashLine sha256Hash name p.decoded).take 64)

/-- The process exits only after TERM, when the manager reads the hash and stdout is empty. -/
theorem Joint.hashing (h : Joint s) (hprocess : s.process = some p) (hpc : p.pc = .hashing) :
    s.manager.pc = .readingHash ∧ s.stdout = [] := by
  have hrest : ∀ {phase}, ¬ AtRest p phase := by
    intro phase hrest
    cases hrest with
    | storing _ hother | waiting hother | suspended hother => simp [hother] at hpc
  have hreceiving : ∀ {op sent stdin}, ¬ Receiving op sent p stdin := by
    intro op sent stdin hreceiving
    cases hreceiving with
    | setup _ hother | reading hother => simp [hother] at hpc
  cases h with
  | unborn _ hnone => simp [hnone] at hprocess
  | settled _ hsame _ hrest' =>
    obtain rfl := Option.some.inj (hsame.symm.trans hprocess)
    exact absurd hrest' hrest
  | starting _ hsame _ _ hreceiving' =>
    obtain rfl := Option.some.inj (hsame.symm.trans hprocess)
    exact absurd hreceiving' hreceiving
  | sending _ hsame _ _ _ hrest' =>
    obtain rfl := Option.some.inj (hsame.symm.trans hprocess)
    exact absurd hrest' hrest
  | signalling _ hsame _ _ _ hrest' =>
    obtain rfl := Option.some.inj (hsame.symm.trans hprocess)
    exact absurd hrest' hrest
  | ended _ hsame _ hexited =>
    obtain rfl := Option.some.inj (hsame.symm.trans hprocess)
    simp [hexited] at hpc
  | @serving q prior op time hawaiting hsame _ hserving =>
    obtain rfl := Option.some.inj (hsame.symm.trans hprocess)
    generalize hin : s.stdin = stdin, hout : s.stdout = stdout at hserving
    cases hserving with
    | hashing hop => exact ⟨by rw [hawaiting, hop]; rfl, rfl⟩
    | receiving hreceiving' => exact absurd hreceiving' hreceiving
    | echoed _ hrest' => exact absurd hrest' hrest
    | signalled _ hother => rcases hother with hother | ⟨_, _, -, hother⟩ <;> simp [hother] at hpc
    | handling _ hother | checking hother | echoing _ hother => simp [hother] at hpc
    | storing _ hother | suspending _ hother | suspended _ hother => simp [hother] at hpc
    | exited _ hother => simp [hother] at hpc

/-- The only way out is to write the hash. -/
theorem RealProcess.act_exited (halive : p.alive)
    (ha : p.act sha256Hash stdin action = some (p', rest, written)) (hexited : p'.pc = .exited) :
    p.pc = .hashing ∧ p'.decoded = p.decoded ∧
      written = sha256Hash (p.hash.content.take (128 - 9)) ++ [10] := by
  have hne : p.pc ≠ .exited := by
    intro hpc
    simp [RealProcess.alive, hpc] at halive
  cases action with
  | manage => cases ha
  | proceed =>
    obtain ⟨⟨q, out⟩, hproceed, heq⟩ := Option.map_eq_some_iff.mp ha
    cases heq
    cases hpc : p.pc with
    | hashing =>
      simp only [RealProcess.proceed, hpc] at hproceed
      cases hproceed
      exact ⟨rfl, rfl, rfl⟩
    | checking op buf =>
      simp only [RealProcess.proceed, hpc] at hproceed
      split at hproceed
      · cases hproceed
        cases hexited
      · split at hproceed <;> cases hproceed <;> cases hexited
    | storing op buf =>
      simp only [RealProcess.proceed, hpc] at hproceed
      cases op <;> cases hproceed <;> cases hexited
    | handling sig =>
      simp only [RealProcess.proceed, hpc] at hproceed
      cases sig <;> cases hproceed <;> cases hexited
    | setup | echoing | suspending =>
      simp only [RealProcess.proceed, hpc] at hproceed
      cases hproceed
      cases hexited
    | reading | waiting | exited | leftoverBytes | killed =>
      simp [RealProcess.proceed, hpc] at hproceed
  | read n =>
    obtain ⟨⟨q, left⟩, hread, heq⟩ := Option.map_eq_some_iff.mp ha
    cases heq
    cases hpc : p.pc with
    | reading op buf =>
      simp only [RealProcess.read, hpc] at hread
      split at hread
      · split at hread <;> cases hread <;> cases hexited
      · cases hread
    | _ => simp [RealProcess.read, hpc] at hread
  | dequeue sig =>
    obtain ⟨q, hdequeue, heq⟩ := Option.map_eq_some_iff.mp ha
    cases heq
    cases hpc : p.pc with
    | waiting =>
      simp only [RealProcess.dequeue, hpc, Option.map_eq_some_iff] at hdequeue
      obtain ⟨signals, -, rfl⟩ := hdequeue
      cases hexited
    | _ => simp [RealProcess.dequeue, hpc] at hdequeue
  | deliver sig =>
    obtain ⟨q, hdeliver, heq⟩ := Option.map_eq_some_iff.mp ha
    cases heq
    obtain ⟨⟨signals, ends⟩, -, rfl⟩ := Option.map_eq_some_iff.mp hdeliver
    cases ends with
    | true => cases hexited
    | false => exact absurd hexited hne

theorem System.Hashed.act (h : s.Hashed sha256Hash name) (hjoint : Joint s)
    (hprocess : s.process = some p) (halive : p.alive)
    (ha : p.act sha256Hash s.stdin action = some (p', rest, written)) :
    ({ s with process := some p', stdin := rest, stdout := s.stdout ++ written } :
      System).Hashed sha256Hash name := by
  obtain ⟨hname, hall⟩ := h
  obtain ⟨hstored, -⟩ := hall p hprocess
  refine ⟨hname, ?_⟩
  rintro q ⟨⟩
  refine ⟨hstored.act ha, fun hexited => Or.inl ?_⟩
  obtain ⟨hpc, hdecoded, hwritten⟩ := RealProcess.act_exited halive ha hexited
  obtain ⟨hreading, hstdout⟩ := hjoint.hashing hprocess hpc
  simp only [RealProcess.Stored, hpc] at hstored
  refine ⟨hreading, ?_⟩
  rw [hstdout, hwritten, hdecoded, hashLine, hstored]
  rfl

theorem RealProcess.kill_pc (p : RealProcess) (sig : Signal) : (p.kill sig).pc = p.pc := by
  unfold RealProcess.kill
  split <;> rfl

theorem RealProcess.Stored.kill (h : p.Stored name) (sig : Signal) : (p.kill sig).Stored name := by
  unfold RealProcess.kill
  split
  · exact h
  · exact h

/-- No operation is issued to a process that has exited. -/
theorem Synchronised.issue_alive (hplan : (phaseAfter ops).isSome) (h : Synchronised ops s)
    (hissue : s.issue = some s') (hprocess : s.process = some p) (hpc : s.manager.pc = .idle) :
    p.pc ≠ .exited := by
  intro hexited
  cases htodo : s.manager.todo with
  | nil => simp [System.issue, htodo] at hissue
  | cons next todo =>
    obtain ⟨op, time⟩ := next
    have hops := h.plan
    rw [htodo] at hops
    rw [← hops] at hplan
    cases h.joint with
    | unborn _ hnone => simp [hnone] at hprocess
    | settled _ hsame _ hrest =>
      obtain rfl := Option.some.inj (hsame.symm.trans hprocess)
      cases hrest with
      | storing _ hother | waiting hother | suspended hother => simp [hother] at hexited
    | ended _ _ hphase =>
      have hnext := next_of_plan hplan hphase
      cases op <;> simp [Phase.next] at hnext
    | starting hother | sending hother | signalling hother => simp [hother] at hpc
    | serving hother => exact absurd (hother.symm.trans hpc) awaiting_ne_idle

theorem System.Hashed.manage (hplan : (phaseAfter ops).isSome) (hsync : Synchronised ops s)
    (h : s.Hashed sha256Hash name) (hm : s.manage = some s') : s'.Hashed sha256Hash name := by
  obtain ⟨hname, hall⟩ := h
  cases hpc : s.manager.pc with
  | idle =>
    simp only [System.manage, hpc] at hm
    have halive := fun p hp => hsync.issue_alive (p := p) hplan hm hp hpc
    cases htodo : s.manager.todo with
    | nil => simp [System.issue, htodo] at hm
    | cons next todo =>
      obtain ⟨op, time⟩ := next
      simp only [System.issue, htodo] at hm
      split at hm
      · cases hm
        refine ⟨hname, ?_⟩
        rintro q ⟨⟩
        rw [hname]
        exact ⟨rfl, by simp [RealProcess.forked]⟩
      · cases hm
        exact ⟨hname, fun q hq => ⟨(hall q hq).1, fun hexited => absurd hexited (halive q hq)⟩⟩
  | sending op time i =>
    have halive : ∀ q, s.process = some q → q.pc ≠ .exited := by
      intro q hq hexited
      rcases (hall q hq).2 hexited with ⟨hother, -⟩ | ⟨hother, -⟩ <;> simp [hother] at hpc
    simp only [System.manage, hpc] at hm
    split at hm <;> cases hm <;>
      exact ⟨hname, fun q hq => ⟨(hall q hq).1, fun hexited => absurd hexited (halive q hq)⟩⟩
  | signalling op sig time =>
    simp only [System.manage, hpc] at hm
    obtain ⟨q, hq, heq⟩ := Option.map_eq_some_iff.mp hm
    cases heq
    refine ⟨hname, ?_⟩
    rintro r ⟨⟩
    refine ⟨(hall q hq).1.kill sig, fun hexited => ?_⟩
    rw [RealProcess.kill_pc] at hexited
    rcases (hall q hq).2 hexited with ⟨hother, -⟩ | ⟨hother, -⟩ <;> simp [hother] at hpc
  | verifying testByte =>
    simp only [System.manage, hpc] at hm
    cases hout : s.stdout with
    | nil => simp [hout] at hm
    | cons b left =>
      simp only [hout] at hm
      cases hm
      refine ⟨hname, fun q hq => ⟨(hall q hq).1, fun hexited => ?_⟩⟩
      rcases (hall q hq).2 hexited with ⟨hother, -⟩ | ⟨hother, -⟩ <;> simp [hother] at hpc
  | suspending =>
    simp only [System.manage, hpc] at hm
    obtain ⟨q, hq, hwait⟩ := Option.bind_eq_some_iff.mp hm
    obtain ⟨signals, -, heq⟩ := Option.map_eq_some_iff.mp hwait
    cases heq
    refine ⟨hname, ?_⟩
    rintro r ⟨⟩
    refine ⟨(hall q hq).1, fun hexited => ?_⟩
    rcases (hall q hq).2 hexited with ⟨hother, -⟩ | ⟨hother, -⟩ <;> simp [hother] at hpc
  | readingHash =>
    simp only [System.manage, hpc] at hm
    split at hm
    · cases hm
    · cases hm
      refine ⟨hname, fun q hq => ⟨(hall q hq).1, fun hexited => Or.inr ⟨rfl, ?_⟩⟩⟩
      rcases (hall q hq).2 hexited with ⟨-, hline⟩ | ⟨hother, -⟩
      · exact congrArg (List.take 64) hline
      · simp [hother] at hpc
  | failed => simp [System.manage, hpc] at hm

theorem reachable_hashed (hplan : (phaseAfter ops).isSome)
    (h : System.Reachable sha256Hash name ops s) : s.Hashed sha256Hash name := by
  induction h with
  | init => exact ⟨rfl, by simp [System.init]⟩
  | @step s s' action hreach hstep ih =>
    have hsync := reachable_synchronised hplan hreach
    simp only [System.step] at hstep
    split at hstep
    · exact ih.manage hplan hsync hstep
    · obtain ⟨p, hprocess, hact⟩ := Option.bind_eq_some_iff.mp hstep
      split at hact
      · cases hact
      · rename_i hruns
        push Not at hruns
        obtain ⟨⟨p', rest, written⟩, ha, heq⟩ := Option.map_eq_some_iff.mp hact
        cases heq
        exact ih.act hsync.joint hprocess hruns.2 ha

/-- Between two operations the process has decoded all that were issued. -/
theorem Joint.decoded_idle (h : Joint s) (hpc : s.manager.pc = .idle)
    (hprocess : s.process = some p) : p.decoded = s.manager.issued := by
  cases h with
  | unborn _ hnone => simp [hnone] at hprocess
  | settled _ hsame _ _ hdecoded | ended _ hsame _ _ hdecoded =>
    obtain rfl := Option.some.inj (hsame.symm.trans hprocess)
    exact hdecoded
  | starting hother | sending hother | signalling hother => simp [hother] at hpc
  | serving hother => exact absurd (hother.symm.trans hpc) awaiting_ne_idle

/-- `read_and_verify` reads the byte `send_bytes` returned. -/
theorem Joint.not_failed (h : Joint s) : s.manager.pc ≠ .failed := by
  cases h with
  | unborn hpc | settled hpc | starting hpc | sending hpc | signalling hpc | ended hpc => simp [hpc]
  | @serving _ _ op _ hpc =>
    rw [hpc]
    cases op <;> simp [awaiting]

/-- In every interleaving: once the manager is done with TERM the process has exited, and the 64
bytes the manager has read are the beginning of the hash of the name and of the operations issued,
with their times and in their order. -/
theorem handshake_hash (sha256Hash : List UInt8 → List UInt8) (name : List UInt8)
    (ops : List (Operation × UInt32)) (hops : ∃ w ∈ discipline, ops.map Prod.fst <+: w)
    (s : System) (h : System.Reachable sha256Hash name ops s) (hpc : s.manager.pc = .idle)
    (prior : List (Operation × UInt32)) (time : UInt32)
    (hissued : s.manager.issued = prior ++ [(.term, time)]) :
    s.manager.sha256 = (hashLine sha256Hash name s.manager.issued).take 64 ∧
    ∃ p, s.process = some p ∧ p.pc = .exited ∧ p.hash = contentOf name s.manager.issued := by
  have hplan : (phaseAfter ops).isSome := prefix_discipline_iff.mp hops
  have hsync := reachable_synchronised hplan h
  have hall := (reachable_hashed hplan h).2
  have hprior : (phaseAfter (prior ++ (.term, time) :: s.manager.todo)).isSome := by
    rw [← hsync.plan, hissued, List.append_assoc] at hplan
    exact hplan
  obtain ⟨phase, hphase⟩ := Option.isSome_iff_exists.mp (phaseAfter_of_append hprior)
  have hended : phaseAfter s.manager.issued = some .ended := by
    rw [hissued]
    exact phaseAfter_concat hphase (next_of_plan hprior hphase)
  cases hsync.joint with
  | unborn _ _ hnone => simp [hnone] at hissued
  | settled _ _ hsettled hrest =>
    obtain rfl := Option.some.inj (hsettled.symm.trans hended)
    cases hrest
  | @ended p _ hprocess _ hexited hdecoded =>
    obtain ⟨hstored, hread⟩ := hall p hprocess
    simp only [RealProcess.Stored, hexited, hdecoded] at hstored
    rcases hread hexited with ⟨hother, -⟩ | ⟨-, hsha⟩
    · simp [hother] at hpc
    · exact ⟨hsha.trans (by rw [hdecoded]), p, hprocess, hexited, hstored⟩
  | starting hother | sending hother | signalling hother => simp [hother] at hpc
  | serving hother => exact absurd (hother.symm.trans hpc) awaiting_ne_idle

end ProcessManager
