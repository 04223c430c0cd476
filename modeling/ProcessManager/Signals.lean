import ProcessManager.Library.Machines

/-! The operations the manager issues to a real process, and the words it may issue. -/
namespace ProcessManager

open Machines Computability

/-- START by `start_real_process`, CONT by `continue_process`, STOP by `suspend_process` and TERM
by `finish_process`. -/
inductive Operation
  | start
  | cont
  | stop
  | term
  deriving DecidableEq, Repr

/-- What a real process has come to by the operations on it. -/
inductive Phase
  | fresh
  | running
  | stopped
  | ended
  deriving DecidableEq, Repr

def Phase.next : Phase → Operation → Option Phase
  | .fresh, .start => some .running
  | .running, .cont => some .running
  | .running, .stop => some .stopped
  | .running, .term => some .ended
  | .stopped, .cont => some .running
  | _, _ => none

/-- `(CONT | STOP CONT)*`. -/
def rounds : Language Operation := ({[.cont]} + {[.stop, .cont]})∗

/-- `START (CONT | STOP CONT)* TERM`. -/
def discipline : Language Operation := {[.start]} * (rounds * {[.term]})

theorem cont_rounds {l : List Operation} (h : l ∈ rounds * {[.term]}) :
    .cont :: l ∈ rounds * {[.term]} := by
  obtain ⟨a, ⟨parts, rfl, hparts⟩, b, hb, rfl⟩ := Language.mem_mul.mp h
  refine Language.mem_mul.mpr ⟨.cont :: parts.flatten, ⟨[.cont] :: parts, by simp, ?_⟩, b, hb, rfl⟩
  intro part hpart
  rcases List.mem_cons.mp hpart with rfl | hpart
  · exact Or.inl rfl
  · exact hparts part hpart

theorem stop_cont_rounds {l : List Operation} (h : l ∈ rounds * {[.term]}) :
    .stop :: .cont :: l ∈ rounds * {[.term]} := by
  obtain ⟨a, ⟨parts, rfl, hparts⟩, b, hb, rfl⟩ := Language.mem_mul.mp h
  refine Language.mem_mul.mpr ⟨.stop :: .cont :: parts.flatten,
    ⟨[.stop, .cont] :: parts, by simp, ?_⟩, b, hb, rfl⟩
  intro part hpart
  rcases List.mem_cons.mp hpart with rfl | hpart
  · exact Or.inr rfl
  · exact hparts part hpart

theorem term_rounds : [Operation.term] ∈ rounds * {[.term]} :=
  Language.mem_mul.mpr ⟨[], Language.nil_mem_kstar _, [.term], rfl, rfl⟩

/-- What may follow while the process runs, and while it is stopped, can be completed. -/
theorem completed {ops : List Operation} :
    ((after Phase.next .running ops).isSome → ∃ w ∈ rounds * {[.term]}, ops <+: w) ∧
    ((after Phase.next .stopped ops).isSome →
      ∃ w ∈ rounds * {[Operation.term]}, ops <+: .cont :: w) := by
  induction ops with
  | nil =>
    exact ⟨fun _ => ⟨[.term], term_rounds, List.nil_prefix⟩,
      fun _ => ⟨[.term], term_rounds, List.nil_prefix⟩⟩
  | cons op ops ih =>
    constructor
    · intro h
      cases op with
      | start => simp [Phase.next] at h
      | cont =>
        obtain ⟨w, hw, hprefix⟩ := ih.1 (by simpa [Phase.next] using h)
        exact ⟨_, cont_rounds hw, (List.prefix_cons_inj _).mpr hprefix⟩
      | stop =>
        obtain ⟨w, hw, hprefix⟩ := ih.2 (by simpa [Phase.next] using h)
        exact ⟨_, stop_cont_rounds hw, (List.prefix_cons_inj _).mpr hprefix⟩
      | term =>
        refine ⟨[.term], term_rounds, ?_⟩
        cases ops with
        | nil => exact List.prefix_refl _
        | cons op' ops => cases op' <;> simp [Phase.next] at h
    · intro h
      cases op with
      | start => simp [Phase.next] at h
      | stop => simp [Phase.next] at h
      | term => simp [Phase.next] at h
      | cont =>
        obtain ⟨w, hw, hprefix⟩ := ih.1 (by simpa [Phase.next] using h)
        exact ⟨w, hw, (List.prefix_cons_inj _).mpr hprefix⟩

theorem after_flatten {parts : List (List Operation)}
    (h : ∀ part ∈ parts, part = [.cont] ∨ part = [.stop, .cont]) :
    after Phase.next .running (parts.flatten ++ [.term]) = some .ended := by
  induction parts with
  | nil => rfl
  | cons part parts ih =>
    have hrest := ih fun other hother => h other (List.mem_cons_of_mem _ hother)
    rcases h part (by simp) with rfl | rfl
    · simpa [Phase.next] using hrest
    · simpa [Phase.next] using hrest

theorem after_rounds {w : List Operation} (h : w ∈ rounds * {[.term]}) :
    after Phase.next .running w = some .ended := by
  obtain ⟨a, ⟨parts, rfl, hparts⟩, b, hb, rfl⟩ := Language.mem_mul.mp h
  obtain rfl : b = [.term] := hb
  exact after_flatten hparts

/-- A sequence of operations is the beginning of such a word exactly when each operation is allowed
in the phase the ones before it lead to. -/
theorem prefix_discipline_iff {ops : List Operation} :
    (∃ w ∈ discipline, ops <+: w) ↔ (after Phase.next .fresh ops).isSome := by
  constructor
  · rintro ⟨w, hw, hprefix⟩
    obtain ⟨a, ha, b, hb, rfl⟩ := Language.mem_mul.mp hw
    obtain rfl : a = [.start] := ha
    apply after_prefix hprefix
    simp [Phase.next, after_rounds hb]
  · intro h
    cases ops with
    | nil =>
      exact ⟨.start :: [.term], Language.mem_mul.mpr ⟨_, rfl, _, term_rounds, rfl⟩,
        List.nil_prefix⟩
    | cons op ops =>
      cases op with
      | cont => simp [Phase.next] at h
      | stop => simp [Phase.next] at h
      | term => simp [Phase.next] at h
      | start =>
        obtain ⟨w, hw, hprefix⟩ := (@completed ops).1 (by simpa [Phase.next] using h)
        exact ⟨.start :: w, Language.mem_mul.mpr ⟨_, rfl, _, hw, rfl⟩,
          (List.prefix_cons_inj _).mpr hprefix⟩

/-- A process runs when the last operation on it was START or CONT. -/
theorem after_running_iff {ops : List Operation} (h : (after Phase.next .fresh ops).isSome) :
    after Phase.next .fresh ops = some .running ↔
      ops.getLast? = some .start ∨ ops.getLast? = some .cont := by
  rcases List.eq_nil_or_concat ops with rfl | ⟨init, op, rfl⟩
  · simp
  · rw [List.concat_eq_append, after_append] at h ⊢
    rw [List.getLast?_append]
    cases hphase : after Phase.next .fresh init with
    | none => simp [hphase] at h
    | some f => cases f <;> cases op <;> simp [hphase, Phase.next] at h ⊢

end ProcessManager
