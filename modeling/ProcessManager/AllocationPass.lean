import ProcessManager.MemoryRelease

/-! One pass of `allocate_memory` over the input queue, process by process. -/
namespace ProcessManager

variable {strategy : MemStrategy} {scheduler : Scheduler} {st st' : Store} {p q : ProcId}
  {input taken left : List ProcId} {pass pass' : Pass}

/-- One process is given its memory; the last argument is the line printed about it. -/
inductive Takes : MemStrategy → Store → ProcId → Store → List Event → Prop
  | infinite (st : Store) (p : ProcId) : Takes .infinite st p st []
  | bestFit {st st' : Store} {p : ProcId} {L R : List NodeId} {node : NodeId}
      (h : Placement st p L node R st') :
      Takes .bestFit st p st' [.ready p (st.block node).startAddress]

/-- The pass after a process was taken into the ready queue. -/
def Pass.take (pass : Pass) (p : ProcId) (st : Store) (ready : ReadyQueue)
    (line : List Event) : Pass where
  store := { st with procs := setState st.procs p .ready }
  ready := ready
  events := pass.events ++ (.insert p pass.ready.items :: line)

/-- A whole pass over `input`: the processes of `taken` enter the ready queue in turn; those of
`left` stay, each because no hole was large enough when it was tried. -/
inductive Admission (strategy : MemStrategy) :
    Pass → List ProcId → List ProcId → List ProcId → Pass → Prop
  | nil (pass : Pass) : Admission strategy pass [] [] [] pass
  | skip {pass pass' : Pass} {p : ProcId} {rest taken left : List ProcId}
      (hs : strategy = .bestFit)
      (hsmall : ∀ h ∈ pass.store.holes,
        pass.store.getSize h < (pass.store.procs p).memRequirement)
      (hrest : Admission strategy pass rest taken left pass') :
      Admission strategy pass (p :: rest) taken (p :: left) pass'
  | take {pass pass' : Pass} {p : ProcId} {rest taken left : List ProcId} {st : Store}
      {ready : ReadyQueue} {line : List Event}
      (htake : Takes strategy pass.store p st line)
      (hready : pass.ready.insert (setState st.procs p .ready) p = .ok ready)
      (hrest : Admission strategy (pass.take p st ready line) rest taken left pass') :
      Admission strategy pass (p :: rest) (p :: taken) left pass'

theorem setState_blockNode {procs : ProcTable} (state : ProcessState) (q : ProcId) :
    (setState procs p state q).blockNode = (procs q).blockNode := by
  by_cases hq : q = p
  · subst hq
    simp [setState]
  · simp [setState, hq]

theorem setState_memRequirement {procs : ProcTable} (state : ProcessState) (q : ProcId) :
    (setState procs p state q).memRequirement = (procs q).memRequirement := by
  by_cases hq : q = p
  · subst hq
    simp [setState]
  · simp [setState, hq]

theorem Store.Indexed.setState (h : st.Indexed) (p : ProcId) (state : ProcessState) :
    { st with procs := setState st.procs p state : Store }.Indexed :=
  h.congr _ (setState_blockNode state) (setState_memRequirement state)

/-- In a best-fit pass the processes that are still waiting have no block yet. -/
theorem take_blockNode {L R : List NodeId} {node : NodeId} {ready : ReadyQueue}
    {line : List Event} (h : Placement pass.store p L node R st') :
    ((pass.take p st' ready line).store.procs q).blockNode =
      if q = p then some pass.store.nextNode else (pass.store.procs q).blockNode := by
  rw [Pass.take, setState_blockNode, h.blockNode]

theorem take_indexed {L R : List NodeId} {node : NodeId} {ready : ReadyQueue}
    {line : List Event} (h : Placement pass.store p L node R st') (hi : pass.store.Indexed)
    (hp : (pass.store.procs p).blockNode = none) :
    (pass.take p st' ready line).store.Indexed :=
  (h.indexed hi hp).setState p .ready

/-- The processes behind the one that was taken wait on as before. -/
theorem take_waiting {L R : List NodeId} {node : NodeId} {rest : List ProcId} {ready : ReadyQueue}
    {line : List Event} (h : Placement pass.store p L node R st') (hnd : (p :: rest).Nodup)
    (hun : ∀ q ∈ p :: rest, (pass.store.procs q).blockNode = none) :
    ∀ q ∈ rest, ((pass.take p st' ready line).store.procs q).blockNode = none := by
  intro q hq
  have hqp : q ≠ p := by
    rintro rfl
    exact (List.nodup_cons.mp hnd).1 hq
  rw [take_blockNode h, if_neg hqp]
  exact hun q (List.mem_cons_of_mem _ hq)

theorem take_memRequirement {L R : List NodeId} {node : NodeId} {ready : ReadyQueue}
    {line : List Event} (h : Placement pass.store p L node R st') (q : ProcId) :
    ((pass.take p st' ready line).store.procs q).memRequirement =
      (pass.store.procs q).memRequirement := by
  rw [Pass.take, setState_memRequirement, h.memRequirement]

theorem processReady_infinite (h : processReady .infinite pass p = .ok pass') :
    ∃ ready, pass.ready.insert (setState pass.store.procs p .ready) p = .ok ready ∧
      pass' = pass.take p pass.store ready [] := by
  unfold processReady at h
  cases hins : pass.ready.insert (setState pass.store.procs p .ready) p with
  | error e => simp [hins, bind, Except.bind] at h
  | ok ready =>
    simp only [hins, bind, Except.bind, pure, Except.pure, Except.ok.injEq] at h
    exact ⟨ready, rfl, h.symm⟩

theorem processReady_bestFit {node : NodeId} (h : processReady .bestFit pass p = .ok pass')
    (hp : (pass.store.procs p).blockNode = some node) :
    ∃ ready, pass.ready.insert (setState pass.store.procs p .ready) p = .ok ready ∧
      pass' = pass.take p pass.store ready
        [.ready p (pass.store.block node).startAddress] := by
  unfold processReady at h
  cases hins : pass.ready.insert (setState pass.store.procs p .ready) p with
  | error e => simp [hins, bind, Except.bind] at h
  | ok ready =>
    simp only [hins, bind, Except.bind, pure, Except.pure, setState_blockNode, hp,
      Except.ok.injEq] at h
    exact ⟨ready, rfl, by rw [← h]; simp [Pass.take]⟩

theorem drainInput_admission (h : drainInput pass input = .ok pass') :
    Admission .infinite pass input input [] pass' := by
  induction input generalizing pass with
  | nil =>
    cases h
    exact .nil _
  | cons p rest ih =>
    rw [drainInput] at h
    cases hready : processReady .infinite pass p with
    | error e => simp [hready, bind, Except.bind] at h
    | ok pass1 =>
      simp only [hready, bind, Except.bind] at h
      obtain ⟨ready, hins, rfl⟩ := processReady_infinite hready
      exact .take (.infinite _ _) hins (ih h)

/-- The block a process has just been given starts where its hole started. -/
theorem Placement.startAddress {L R : List NodeId} {node : NodeId}
    (h : Placement st p L node R st') :
    (st'.procs p).blockNode = some st.nextNode ∧
      (st'.block st.nextNode).startAddress = (st.block node).startAddress := by
  rw [h.blockNode, if_pos rfl, h.block_new]
  exact ⟨rfl, rfl⟩

theorem fitInput_admission (hi : pass.store.Indexed) (hnd : input.Nodup)
    (hun : ∀ p ∈ input, (pass.store.procs p).blockNode = none)
    (h : fitInput pass input = .ok (pass', left)) :
    ∃ taken, Admission .bestFit pass input taken left pass' := by
  induction input generalizing pass left with
  | nil =>
    cases h
    exact ⟨[], .nil _⟩
  | cons p rest ih =>
    have hrest := (List.nodup_cons.mp hnd).2
    rw [fitInput] at h
    rcases hfit : bestFit pass.store p with ⟨st, _ | _⟩
    · obtain ⟨rfl, hsmall⟩ := bestFit_fail hfit
      simp only [hfit] at h
      cases hin : fitInput { pass with store := pass.store } rest with
      | error e => simp [hin, bind, Except.bind] at h
      | ok r =>
        simp only [hin, bind, Except.bind, pure, Except.pure, Except.ok.injEq,
          Prod.mk.injEq] at h
        obtain ⟨rfl, rfl⟩ := h
        obtain ⟨taken, hadm⟩ := ih hi hrest (fun q hq => hun q (List.mem_cons_of_mem _ hq)) hin
        exact ⟨taken, .skip rfl hsmall hadm⟩
    · obtain ⟨L, node, R, hplace⟩ := bestFit_placement hi hfit
      obtain ⟨hblock, hstart⟩ := hplace.startAddress
      simp only [hfit] at h
      cases hready : processReady .bestFit { pass with store := st } p with
      | error e => simp [hready, bind, Except.bind] at h
      | ok pass1 =>
        simp only [hready, bind, Except.bind] at h
        obtain ⟨ready, hins, rfl⟩ := processReady_bestFit hready hblock
        rw [hstart] at h
        have hindexed : (Pass.take pass p st ready
            [.ready p (pass.store.block node).startAddress]).store.Indexed :=
          take_indexed hplace hi (hun p (by simp))
        obtain ⟨taken, hadm⟩ := ih hindexed hrest (take_waiting hplace hnd hun) h
        exact ⟨p :: taken, .take (.bestFit hplace) hins hadm⟩

/-- Every completed call of `allocate_memory` is an admission. -/
theorem allocateMemory_admission {ready : ReadyQueue}
    (hi : strategy = .bestFit → st.Indexed) (hnd : input.Nodup)
    (hun : strategy = .bestFit → ∀ p ∈ input, (st.procs p).blockNode = none)
    (h : allocateMemory strategy st input ready = .ok (pass', left)) :
    ∃ taken, Admission strategy ⟨st, ready, []⟩ input taken left pass' := by
  cases strategy with
  | infinite =>
    simp only [allocateMemory] at h
    cases hd : drainInput ⟨st, ready, []⟩ input with
    | error e => simp [hd, bind, Except.bind] at h
    | ok pass1 =>
      simp only [hd, bind, Except.bind, pure, Except.pure, Except.ok.injEq, Prod.mk.injEq] at h
      obtain ⟨rfl, rfl⟩ := h
      exact ⟨input, drainInput_admission hd⟩
  | bestFit => exact fitInput_admission (hi rfl) hnd (hun rfl) h

theorem Admission.perm (h : Admission strategy pass input taken left pass') :
    input.Perm (taken ++ left) := by
  induction h with
  | nil => exact .refl _
  | skip _ _ _ ih => exact (ih.cons _).trans List.perm_middle.symm
  | take _ _ _ ih => exact ih.cons _

theorem Admission.taken_sublist (h : Admission strategy pass input taken left pass') :
    taken.Sublist input := by
  induction h with
  | nil => exact .slnil
  | skip _ _ _ ih => exact ih.cons _
  | take _ _ _ ih => exact ih.cons_cons _

theorem Admission.left_sublist (h : Admission strategy pass input taken left pass') :
    left.Sublist input := by
  induction h with
  | nil => exact .slnil
  | skip _ _ _ ih => exact ih.cons_cons _
  | take _ _ _ ih => exact ih.cons _

/-- With infinite memory nothing stays in the input queue. -/
theorem Admission.infinite (h : Admission .infinite pass input taken left pass') :
    taken = input ∧ left = [] := by
  induction h with
  | nil => exact ⟨rfl, rfl⟩
  | skip hs => cases hs
  | take _ _ _ ih => exact ⟨congrArg _ ih.1, ih.2⟩

/-- The process becomes ready and, under best-fit, gets a block. -/
theorem take_procs {line : List Event} (ready : ReadyQueue)
    (h : Takes strategy pass.store p st line) (q : ProcId) :
    ∃ b, (pass.take p st ready line).store.procs q =
        (if q = p then { pass.store.procs q with state := .ready, blockNode := b }
          else pass.store.procs q) ∧
      (strategy = .infinite → b = (pass.store.procs q).blockNode) ∧
      (strategy = .bestFit → b ≠ none) := by
  cases h with
  | infinite =>
    refine ⟨_, ?_, fun _ => rfl, by simp⟩
    by_cases hq : q = p
    · subst hq
      simp [Pass.take, setState]
    · simp [Pass.take, setState, hq]
  | bestFit h =>
    refine ⟨some pass.store.nextNode, ?_, by simp, by simp⟩
    by_cases hq : q = p
    · subst hq
      simp [Pass.take, setState, h.procs, setBlockNode]
    · simp [Pass.take, setState, h.procs, setBlockNode, hq]

theorem take_sameRecord {line : List Event} (ready : ReadyQueue)
    (h : Takes strategy pass.store p st line) (q : ProcId) :
    ((pass.take p st ready line).store.procs q).SameRecord (pass.store.procs q) := by
  obtain ⟨b, hb, -, -⟩ := take_procs ready h q
  rw [hb]
  split
  · exact ⟨rfl, rfl, rfl, rfl⟩
  · exact .refl _

theorem Admission.procs_other (h : Admission strategy pass input taken left pass')
    (hq : q ∉ taken) : pass'.store.procs q = pass.store.procs q := by
  induction h with
  | nil => rfl
  | skip _ _ _ ih => exact ih hq
  | @take pass _ p _ _ _ _ ready _ htake _ _ ih =>
    simp only [List.mem_cons, not_or] at hq
    obtain ⟨b, hb, -, -⟩ := take_procs ready htake q
    rw [ih hq.2, hb, if_neg hq.1]

theorem Admission.procs_taken (h : Admission strategy pass input taken left pass')
    (hnd : input.Nodup) (hq : q ∈ taken) :
    ∃ b, pass'.store.procs q = { pass.store.procs q with state := .ready, blockNode := b } ∧
      (strategy = .infinite → b = (pass.store.procs q).blockNode) ∧
      (strategy = .bestFit → b ≠ none) := by
  induction h with
  | nil => simp at hq
  | skip _ _ _ ih => exact ih (List.nodup_cons.mp hnd).2 hq
  | @take pass _ p rest taken _ _ ready _ htake _ hrest ih =>
    obtain ⟨hp, hnd'⟩ := List.nodup_cons.mp hnd
    obtain ⟨b, hb, hinf, hbest⟩ := take_procs ready htake q
    by_cases hqp : q = p
    · have hnot : q ∉ taken := fun hm => hp (hqp ▸ hrest.taken_sublist.mem hm)
      exact ⟨b, by rw [hrest.procs_other hnot, hb, if_pos hqp], hinf, hbest⟩
    · rw [if_neg hqp] at hb
      have hmem : q ∈ taken := by simpa [hqp] using hq
      simpa only [hb] using ih hnd' hmem

theorem Admission.sameRecord (h : Admission strategy pass input taken left pass') (q : ProcId) :
    (pass'.store.procs q).SameRecord (pass.store.procs q) := by
  induction h with
  | nil => exact .refl _
  | skip _ _ _ ih => exact ih
  | take htake _ _ ih => exact ih.trans (take_sameRecord _ htake q)

/-- Memory is given without charging anybody. -/
theorem Admission.timeLeft (h : Admission strategy pass input taken left pass') (q : ProcId) :
    (pass'.store.procs q).serviceTimeLeft = (pass.store.procs q).serviceTimeLeft := by
  induction h with
  | nil => rfl
  | skip _ _ _ ih => exact ih
  | @take pass _ p _ _ _ _ ready _ htake _ _ ih =>
    obtain ⟨b, hb, -, -⟩ := take_procs ready htake q
    rw [ih, hb]
    split <;> rfl

/-- The taken processes enter the ready queue; in a list, behind it and in input order. -/
theorem Admission.ready (h : Admission strategy pass input taken left pass')
    (hw : pass.ready.WellFormed scheduler pass.store.procs) :
    pass'.ready.WellFormed scheduler pass'.store.procs ∧
      pass'.ready.items.Perm (pass.ready.items ++ taken) ∧
      (scheduler = .rr → pass'.ready.items = pass.ready.items ++ taken) := by
  induction h with
  | nil => exact ⟨hw, by simp, by simp⟩
  | skip _ _ _ ih => exact ih hw
  | @take pass _ p _ taken _ st ready line htake hins _ ih =>
    have hw' := hw.congr (take_sameRecord ready htake)
    obtain ⟨ready', hins', hwr, hperm, hlist⟩ := hw'.insert p
    obtain rfl : ready' = ready := Except.ok.inj (hins'.symm.trans hins)
    obtain ⟨hwf, hperm', hlist'⟩ := ih hwr
    refine ⟨hwf, hperm'.trans ?_, fun hs => ?_⟩
    · exact (hperm.append_right taken).trans List.perm_middle.symm
    · rw [hlist' hs]
      change ready'.items ++ taken = _
      rw [hlist hs, List.append_assoc]
      rfl

theorem Admission.indexed (h : Admission .bestFit pass input taken left pass')
    (hi : pass.store.Indexed) (hnd : input.Nodup)
    (hun : ∀ p ∈ input, (pass.store.procs p).blockNode = none) : pass'.store.Indexed := by
  induction h with
  | nil => exact hi
  | skip _ _ _ ih =>
    exact ih hi (List.nodup_cons.mp hnd).2 fun q hq => hun q (List.mem_cons_of_mem _ hq)
  | @take pass pass' p rest taken left st ready line htake _ _ ih =>
    cases htake with
    | bestFit hplace =>
      exact ih (take_indexed hplace hi (hun p (by simp))) (List.nodup_cons.mp hnd).2
        (take_waiting hplace hnd hun)

/-- A pass causes no other events than these two. -/
theorem Admission.events (h : Admission strategy pass input taken left pass') :
    ∃ new, pass'.events = pass.events ++ new ∧
      ∀ e ∈ new, (∃ q ahead, e = .insert q ahead) ∨ ∃ q a, e = .ready q a := by
  induction h with
  | nil => exact ⟨[], by simp, by simp⟩
  | skip _ _ _ ih => exact ih
  | @take pass _ p _ _ _ _ _ line htake _ _ ih =>
    obtain ⟨new, hnew, hall⟩ := ih
    have hline : ∀ e ∈ line, ∃ q a, e = Event.ready q a := by
      cases htake <;> simp
    refine ⟨(.insert p pass.ready.items :: line) ++ new, ?_, fun e he => ?_⟩
    · rw [hnew, Pass.take, List.append_assoc]
    · simp only [List.cons_append, List.mem_cons, List.mem_append] at he
      rcases he with rfl | he | he
      · exact Or.inl ⟨_, _, rfl⟩
      · exact Or.inr (hline e he)
      · exact hall e he

/-- In a list, each insertion of a pass leaves the process behind those that were ahead. -/
theorem Admission.insert_prefix (h : Admission strategy pass input taken left pass')
    (hw : pass.ready.WellFormed .rr pass.store.procs) {ahead : List ProcId}
    (he : .insert p ahead ∈ pass'.events) :
    .insert p ahead ∈ pass.events ∨ ahead ++ [p] <+: pass'.ready.items := by
  induction h with
  | nil => exact Or.inl he
  | skip _ _ _ ih => exact ih hw he
  | @take pass pass' q _ taken _ st ready line htake hins hrest ih =>
    have hw' := hw.congr (take_sameRecord ready htake)
    obtain ⟨hwr, -, hlist⟩ := hw'.insert_ok hins
    rcases ih hwr he with hold | hnew
    · simp only [Pass.take, List.mem_append, List.mem_cons] at hold
      rcases hold with hold | heq | hline
      · exact Or.inl hold
      · obtain ⟨rfl, rfl⟩ := Event.insert.inj heq
        right
        obtain ⟨-, -, hready⟩ := hrest.ready hwr
        rw [hready rfl, ← hlist rfl]
        exact List.prefix_append _ _
      · cases htake <;> simp at hline
    · exact Or.inr hnew

theorem drainInput_ok (hw : pass.ready.WellFormed scheduler pass.store.procs) :
    ∃ pass', drainInput pass input = .ok pass' := by
  induction input generalizing pass with
  | nil => exact ⟨pass, rfl⟩
  | cons p rest ih =>
    have htake : Takes .infinite pass.store p pass.store [] := .infinite _ _
    have hw' := hw.congr (take_sameRecord pass.ready htake)
    obtain ⟨ready, hins, hwr, -, -⟩ := hw'.insert p
    have hready : processReady .infinite pass p =
        .ok (pass.take p pass.store ready []) := by
      change pass.ready.insert (setState pass.store.procs p .ready) p = _ at hins
      simp only [processReady, hins]
      rfl
    obtain ⟨pass', hok⟩ := @ih (pass.take p pass.store ready []) hwr
    exact ⟨pass', by rw [drainInput, hready]; exact hok⟩

theorem fitInput_ok (hw : pass.ready.WellFormed scheduler pass.store.procs)
    (hi : pass.store.Indexed) (hnd : input.Nodup)
    (hun : ∀ p ∈ input, (pass.store.procs p).blockNode = none) :
    ∃ pass' left, fitInput pass input = .ok (pass', left) := by
  induction input generalizing pass with
  | nil => exact ⟨pass, [], rfl⟩
  | cons p rest ih =>
    have hrest := (List.nodup_cons.mp hnd).2
    rcases hfit : bestFit pass.store p with ⟨st, _ | _⟩
    · obtain ⟨rfl, -⟩ := bestFit_fail hfit
      obtain ⟨pass', left, hok⟩ :=
        ih hw hi hrest fun q hq => hun q (List.mem_cons_of_mem _ hq)
      refine ⟨pass', p :: left, ?_⟩
      rw [fitInput, hfit]
      simp only [hok]
      rfl
    · obtain ⟨L, node, R, hplace⟩ := bestFit_placement hi hfit
      obtain ⟨hblock, hstart⟩ := hplace.startAddress
      let line : List Event := [.ready p (pass.store.block node).startAddress]
      have htake : Takes .bestFit pass.store p st line := .bestFit hplace
      have hw' := hw.congr (take_sameRecord pass.ready htake)
      obtain ⟨ready, hins, hwr, -, -⟩ := hw'.insert p
      have hready : processReady .bestFit { pass with store := st } p =
          .ok (pass.take p st ready line) := by
        change pass.ready.insert (setState st.procs p .ready) p = _ at hins
        simp only [processReady, hins, bind, Except.bind, setState_blockNode, hblock, pure,
          Except.pure, hstart, Pass.take, line, List.append_assoc, List.cons_append,
          List.nil_append]
      obtain ⟨pass', left, hok⟩ := @ih (pass.take p st ready line) hwr
        (take_indexed hplace hi (hun p (by simp))) hrest (take_waiting hplace hnd hun)
      refine ⟨pass', left, ?_⟩
      rw [fitInput, hfit]
      simp only [hready]
      exact hok

/-- `allocate_memory` runs to its end and is an admission. -/
theorem allocateMemory_spec {ready : ReadyQueue} (hw : ready.WellFormed scheduler st.procs)
    (hi : strategy = .bestFit → st.Indexed) (hnd : input.Nodup)
    (hun : strategy = .bestFit → ∀ p ∈ input, (st.procs p).blockNode = none) :
    ∃ pass taken left, allocateMemory strategy st input ready = .ok (pass, left) ∧
      Admission strategy ⟨st, ready, []⟩ input taken left pass := by
  have hok : ∃ pass left, allocateMemory strategy st input ready = .ok (pass, left) := by
    cases strategy with
    | infinite =>
      have hrun : ∃ pass, drainInput ⟨st, ready, []⟩ input = .ok pass := drainInput_ok hw
      obtain ⟨pass, hd⟩ := hrun
      exact ⟨pass, [], by simp only [allocateMemory, hd]; rfl⟩
    | bestFit =>
      have hw' : (Pass.mk st ready []).ready.WellFormed scheduler st.procs := hw
      exact fitInput_ok hw' (hi rfl) hnd (hun rfl)
  obtain ⟨pass, left, hok⟩ := hok
  obtain ⟨taken, hadm⟩ := allocateMemory_admission hi hnd hun hok
  exact ⟨pass, taken, left, hok, hadm⟩

end ProcessManager
