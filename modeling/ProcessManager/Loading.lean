import ProcessManager.ProcessData
import ProcessManager.LinkedList
import ProcessManager.Library.Loop
import ProcessManager.Library.Scan

/-! `load_processes` over the bytes of the input file: which files it loads as they are meant. -/
namespace ProcessManager

open Loop Scan

/-- `MAX_NAME_LEN`, the size of the array `name` in `read_process`. -/
def maxNameLen : ℕ := 8

/-- What ends a call of `read_process`: `%s` writes past the end of `name`. -/
inductive LoadFault
  | nameOverflow
  deriving DecidableEq, Repr

/-- The format of `read_process`. -/
def recordFormat : List Directive :=
  [.conv .unsigned, .space, .conv .word, .space, .conv .unsigned, .space, .conv .signed]

/-- The local variables of `read_process` after `fscanf`: one that was not stored keeps its initial
value, and a name ends at its first NUL. -/
def storedRecord (values : List Value) : Record where
  arrivalTime := (values[0]?.bind Value.asUnsigned).getD 0
  name := ((values[1]?.bind Value.asWord).getD []).takeWhile (· ≠ 0)
  serviceTime := (values[2]?.bind Value.asUnsigned).getD 0
  memRequirement := (values[3]?.bind Value.asSigned).getD 0

/-- The bytes that `%s` writes into `name`, the terminator included. -/
def nameBytes (values : List Value) : ℕ :=
  match values[1]?.bind Value.asWord with
  | none => 0
  | some bytes => bytes.length + 1

/-- `read_process`: the process, or NULL at `EOF`, and the rest of the file. -/
def readProcess (file : List UInt8) : Except LoadFault (Option Process × List UInt8) :=
  let scanned := scanf recordFormat file
  if maxNameLen < nameBytes scanned.values then .error .nameOverflow
  else if scanned.count ≠ none then
    .ok (some (createProcess (storedRecord scanned.values)), scanned.rest)
  else .ok (none, scanned.rest)

/-- `load_processes` between two calls of `read_process`. -/
structure Loading where
  processes : List Process
  rest : List UInt8
  deriving DecidableEq, Repr

/-- One round of the loop of `load_processes`, whose condition is what `enqueue` returns. -/
def loadBody (s : Loading) : Outcome Loading LoadFault :=
  match readProcess s.rest with
  | .error e => .fault e
  | .ok (process, rest) =>
    match enqueue s.processes process with
    | (processes, true) => .next ⟨processes, rest⟩
    | (processes, false) => .done ⟨processes, rest⟩

/-- The first `n` rounds of `load_processes`. -/
def loadProcesses (file : List UInt8) (n : ℕ) : Outcome Loading LoadFault :=
  iterate loadBody ⟨[], file⟩ n

/-- Loading returns, every process it returns comes from a complete record, and no name is stored
past the end of `name`. -/
structure Robust (file : List UInt8) : Prop where
  returns : ∃ n s, loadProcesses file n = .done s
  complete : ∀ n s, loadProcesses file n = .done s → ∀ i process, s.processes[i]? = some process →
    ∃ t, loadProcesses file i = .next t ∧ (scanf recordFormat t.rest).count = some 4 ∧
      process = createProcess (storedRecord (scanf recordFormat t.rest).values)
  fits : ∀ n t, loadProcesses file n = .next t →
    nameBytes (scanf recordFormat t.rest).values ≤ maxNameLen

/-- A file of complete records with names of 1 to 7 bytes, and white space at its end. A numeral
ends before a byte that is not a digit, so the gap behind it may be empty. -/
inductive RecordFile : List UInt8 → Prop
  | blank {tail : List UInt8} (h : Blank tail) : RecordFile tail
  | record {gap₁ arrival gap₂ name gap₃ service gap₄ memory rest : List UInt8}
      {arrivalTime serviceTime memRequirement : Bool × ℕ}
      (hgap₁ : Blank gap₁) (harrival : Numeral arrival arrivalTime) (hend₁ : NoDigit (gap₂ ++ name))
      (hgap₂ : Blank gap₂) (hname : Word name) (hlength : name.length ≤ 7)
      (hgap₃ : Blank gap₃) (hsep : gap₃ ≠ [])
      (hservice : Numeral service serviceTime) (hend₂ : NoDigit (gap₄ ++ memory))
      (hgap₄ : Blank gap₄) (hmemory : Numeral memory memRequirement) (hend₃ : NoDigit rest)
      (hrest : RecordFile rest) :
      RecordFile (gap₁ ++ (arrival ++ (gap₂ ++ (name ++ (gap₃ ++ (service ++ (gap₄ ++
        (memory ++ rest))))))))

variable {file text rest : List UInt8} {processes : List Process} {values : List Value}
  {s t u : Loading} {n : ℕ}

/-- The conversions of the format, without the white space between them. -/
def recordFields : List Conversion := [.unsigned, .word, .unsigned, .signed]

theorem scanf_recordFormat (text : List UInt8) :
    scanf recordFormat text = scanf (recordFields.map .conv) text := by
  simp only [recordFormat, recordFields, List.map_cons, List.map_nil, scanf, convert_skipSpace]

theorem count_recordFormat :
    (scanf recordFormat text).count = none ↔ Blank text := by
  rw [scanf_recordFormat]
  exact count_eq_none_iff

theorem count_eq_four_iff : (scanf recordFormat text).count = some 4 ↔
    Fields recordFields text (scanf recordFormat text).values (scanf recordFormat text).rest := by
  rw [fields_iff, scanf_recordFormat, Scanned.count]
  split_ifs with h
  · rw [h.1]
    simp [recordFields]
  · simp [recordFields]

/-- A round of the loop goes on with the process of one call, stops at `EOF`, where `enqueue`
refuses NULL, or writes past the end of `name`. -/
theorem loadBody_next_iff : loadBody s = .next t ↔
    nameBytes (scanf recordFormat s.rest).values ≤ maxNameLen ∧ ¬ Blank s.rest ∧
      t = ⟨s.processes ++ [createProcess (storedRecord (scanf recordFormat s.rest).values)],
        (scanf recordFormat s.rest).rest⟩ := by
  rw [← count_recordFormat, loadBody, readProcess]
  split_ifs with hname hcount
  · simp [hname]
  · simp [Nat.not_lt.mp hname, hcount, enqueue, eq_comm]
  · simp [not_ne_iff.mp hcount, enqueue]

theorem loadBody_done_iff : loadBody s = .done t ↔
    nameBytes (scanf recordFormat s.rest).values ≤ maxNameLen ∧ Blank s.rest ∧
      t = ⟨s.processes, (scanf recordFormat s.rest).rest⟩ := by
  rw [← count_recordFormat, loadBody, readProcess]
  split_ifs with hname hcount
  · simp [hname]
  · simp [hcount, enqueue]
  · simp [Nat.not_lt.mp hname, not_ne_iff.mp hcount, enqueue, eq_comm]

theorem loadBody_blank (processes : List Process) (h : Blank text) :
    ∃ rest, loadBody ⟨processes, text⟩ = .done ⟨processes, rest⟩ := by
  have hvalues : (scanf recordFormat text).values = [] := by
    have hcount := count_recordFormat.mpr h
    rw [Scanned.count] at hcount
    split at hcount
    · rename_i hnil
      exact hnil.1
    · cases hcount
  exact ⟨_, loadBody_done_iff.mpr ⟨by simp [hvalues, nameBytes], h, rfl⟩⟩

theorem not_blank_of_fields (h : Fields recordFields text values rest) : ¬ Blank text := by
  obtain ⟨rfl, hlength, -⟩ := fields_iff.mp h
  rw [← count_recordFormat, scanf_recordFormat, Scanned.count]
  have hne : (scanf (recordFields.map .conv) text).values ≠ [] := by
    intro hnil
    rw [hnil] at hlength
    simp [recordFields] at hlength
  simp [hne]

theorem loadBody_fields (h : Fields recordFields text values rest)
    (hname : nameBytes values ≤ maxNameLen) : loadBody ⟨processes, text⟩ =
      .next ⟨processes ++ [createProcess (storedRecord values)], rest⟩ := by
  have hblank := not_blank_of_fields h
  obtain ⟨rfl, -, rfl⟩ := fields_iff.mp h
  rw [← scanf_recordFormat] at hname ⊢
  exact loadBody_next_iff.mpr ⟨hname, hblank, rfl⟩

/-- Four fields with a short name are one record of the file. -/
theorem recordFile_of_fields (h : Fields recordFields text values rest)
    (hname : nameBytes values ≤ maxNameLen) (hrest : RecordFile rest) : RecordFile text := by
  cases h with
  | cons hgap₁ hfield₁ h =>
  cases h with
  | cons hgap₂ hfield₂ h =>
  cases h with
  | cons hgap₃ hfield₃ h =>
  cases h with
  | cons hgap₄ hfield₄ h =>
  cases h
  cases hfield₁ with
  | unsigned harrival hend₁ =>
  cases hfield₂ with
  | word hword hstop =>
  cases hfield₃ with
  | unsigned hservice hend₂ =>
  cases hfield₄ with
  | signed hmemory hend₃ =>
  refine .record hgap₁ harrival ?_ hgap₂ hword ?_ hgap₃ ?_ hservice ?_ hgap₄ hmemory hend₃ hrest
  · exact (noDigit_append hword.1).mp hend₁
  · simp only [nameBytes, maxNameLen, List.getElem?_cons_succ, List.getElem?_cons_zero,
      Option.bind_some, Value.asWord] at hname
    omega
  · rintro rfl
    -- a numeral does not end a word
    obtain ⟨b, tail, hb⟩ := List.exists_cons_of_ne_nil hservice.ne_nil
    rw [hb] at hservice hstop
    exact hservice.head_not_space [] b rfl (hstop b rfl)
  · exact (noDigit_append hmemory.ne_nil).mp hend₂

/-- The same files, each record by the fields that are read. -/
inductive FieldFile : List UInt8 → Prop
  | blank {tail : List UInt8} (h : Blank tail) : FieldFile tail
  | record {text rest : List UInt8} {values : List Value}
      (h : Fields recordFields text values rest) (hname : nameBytes values ≤ maxNameLen)
      (hrest : FieldFile rest) : FieldFile text

theorem recordFile_iff_fieldFile : RecordFile text ↔ FieldFile text := by
  constructor
  · intro h
    induction h with
    | blank h => exact .blank h
    | record hgap₁ harrival hend₁ hgap₂ hname hlength hgap₃ hsep hservice hend₂ hgap₄ hmemory
        hend₃ hrest ih =>
      refine .record (.cons hgap₁ (.unsigned harrival ?_) (.cons hgap₂ (.word hname ?_)
        (.cons hgap₃ (.unsigned hservice ?_) (.cons hgap₄ (.signed hmemory hend₃) .nil)))) ?_ ih
      · exact (noDigit_append hname.1).mpr hend₁
      · exact spaceOrEnd_of_blank hgap₃ hsep
      · exact (noDigit_append hmemory.ne_nil).mpr hend₂
      · exact Nat.succ_le_succ hlength
  · intro h
    induction h with
    | blank h => exact .blank h
    | record h hname _ ih => exact recordFile_of_fields h hname ih

/-- After `n` calls there are `n` processes, each from the call with its number. -/
structure Loaded (file : List UInt8) (n : ℕ) (t : Loading) : Prop where
  length : t.processes.length = n
  origin : ∀ i process, t.processes[i]? = some process → ∃ u, loadProcesses file i = .next u ∧
    process = createProcess (storedRecord (scanf recordFormat u.rest).values)

theorem load_loaded : ∀ n t, loadProcesses file n = .next t → Loaded file n t := by
  apply iterate_invariant
  · exact ⟨rfl, by simp⟩
  · rintro n t u hn ⟨hlength, hall⟩ hbody
    obtain ⟨-, -, rfl⟩ := loadBody_next_iff.mp hbody
    refine ⟨by simp [hlength], fun i process hi => ?_⟩
    rcases Nat.lt_or_ge i n with hin | hin
    · rw [List.getElem?_append_left (by omega)] at hi
      exact hall i process hi
    · rw [List.getElem?_append_right (by omega), List.getElem?_singleton] at hi
      split at hi
      · obtain rfl : i = n := by omega
        exact ⟨t, hn, (Option.some.inj hi).symm⟩
      · cases hi

/-- A robust load has met a record file: its calls are looked at from the last to the first. -/
theorem Robust.fieldFile (h : Robust file) : FieldFile file := by
  obtain ⟨N, s, hdone⟩ := h.returns
  obtain ⟨m, t, -, ht, hbody⟩ := iterate_done_origin hdone
  obtain ⟨-, hblank, hs⟩ := loadBody_done_iff.mp hbody
  have hlength : s.processes.length = m := by rw [hs, (load_loaded _ _ ht).length]
  have hback : ∀ k ≤ m, ∀ u, loadProcesses file (m - k) = .next u → FieldFile u.rest := by
    intro k
    induction k with
    | zero =>
      intro _ u hu
      obtain rfl := Outcome.next.inj (ht.symm.trans hu)
      exact .blank hblank
    | succ k ih =>
      intro hk u hu
      obtain ⟨v, hv⟩ := iterate_next_of_le (m := m - k) (by omega) ht
      have hstep : loadBody u = .next v := by
        rw [← iterate_succ_of_next hu, show m - (k + 1) + 1 = m - k by omega]
        exact hv
      obtain ⟨hname, -, rfl⟩ := loadBody_next_iff.mp hstep
      have hi : m - (k + 1) < s.processes.length := by omega
      obtain ⟨u', hu', hcount, -⟩ := h.complete N s hdone _ _ (List.getElem?_eq_getElem hi)
      obtain rfl := Outcome.next.inj (hu'.symm.trans hu)
      exact .record (count_eq_four_iff.mp hcount) hname (ih (by omega) _ hv)
  exact hback m le_rfl ⟨[], file⟩ (by rw [Nat.sub_self]; rfl)

/-- On a record file the loop gets to the end. -/
theorem FieldFile.returns (h : FieldFile text) (processes : List Process) :
    ∃ n s, iterate loadBody ⟨processes, text⟩ n = .done s := by
  induction h generalizing processes with
  | blank h =>
    obtain ⟨rest, hbody⟩ := loadBody_blank processes h
    exact ⟨1, _, (iterate_succ_of_next iterate_zero).trans hbody⟩
  | record h hname _ ih =>
    obtain ⟨n, s, hs⟩ := ih _
    refine ⟨n + 1, s, ?_⟩
    rw [iterate_succ_head, loadBody_fields h hname]
    exact hs

/-- And every call meets a record, or the end. -/
theorem FieldFile.head (h : FieldFile file) :
    ∀ n t, loadProcesses file n = .next t → FieldFile t.rest := by
  refine iterate_invariant (I := fun _ (t : Loading) => FieldFile t.rest) h ?_
  intro n t u _ ht hbody
  cases ht with
  | blank hblank =>
    obtain ⟨rest, hdone⟩ := loadBody_blank t.processes hblank
    exact absurd (hdone.symm.trans hbody) (by simp)
  | record hfields hname hrest =>
    obtain rfl := Outcome.next.inj ((loadBody_fields hfields hname).symm.trans hbody)
    exact hrest

theorem FieldFile.robust (h : FieldFile file) : Robust file where
  returns := h.returns []
  complete n s hdone i process hi := by
    obtain ⟨m, t, -, ht, hbody⟩ := iterate_done_origin hdone
    obtain ⟨-, -, rfl⟩ := loadBody_done_iff.mp hbody
    obtain ⟨u, hu, rfl⟩ := (load_loaded _ _ ht).origin i process hi
    refine ⟨u, hu, ?_, rfl⟩
    have hlt : i < m := by
      rw [← (load_loaded _ _ ht).length]
      exact (List.getElem?_eq_some_iff.mp hi).1
    obtain ⟨v, hv⟩ := iterate_next_of_le (m := i + 1) hlt ht
    rw [iterate_succ_of_next hu] at hv
    obtain ⟨-, hblank, -⟩ := loadBody_next_iff.mp hv
    cases h.head i u hu with
    | blank h => exact absurd h hblank
    | record hfields _ _ =>
      obtain ⟨rfl, -, rfl⟩ := fields_iff.mp hfields
      rw [← scanf_recordFormat] at hfields
      exact count_eq_four_iff.mpr hfields
  fits n t ht := by
    cases h.head n t ht with
    | blank hblank =>
      obtain ⟨rest, hdone⟩ := loadBody_blank t.processes hblank
      exact (loadBody_done_iff.mp hdone).1
    | record hfields hname _ =>
      obtain ⟨rfl, -, -⟩ := fields_iff.mp hfields
      rwa [← scanf_recordFormat] at hname

/-- Loading is robust exactly on the files of complete records with short names. -/
theorem robust_iff_recordFile (file : List UInt8) : Robust file ↔ RecordFile file := by
  rw [recordFile_iff_fieldFile]
  exact ⟨Robust.fieldFile, FieldFile.robust⟩

/-- A name of 8 bytes writes its terminator past the end of `name`, and a token that is no number
is met again by every call. -/
theorem load_not_robust :
    ¬ Robust ("0 COMP2304 20 1\n".toList.map fun c => c.toNat.toUInt8) ∧
      ¬ Robust ("x".toList.map fun c => c.toNat.toUInt8) := by
  constructor
  · intro h
    have hfits := h.fits 0 _ rfl
    revert hfits
    decide
  · intro h
    obtain ⟨n, s, hdone⟩ := h.returns
    have hloop : ∀ n, ∃ processes, loadProcesses [120] n = .next ⟨processes, [120]⟩ := by
      intro n
      induction n with
      | zero => exact ⟨[], rfl⟩
      | succ n ih =>
        obtain ⟨processes, hn⟩ := ih
        exact ⟨_, iterate_succ_of_next hn⟩
    obtain ⟨processes, hn⟩ := hloop n
    exact absurd (hdone.symm.trans hn) (by simp)

end ProcessManager
