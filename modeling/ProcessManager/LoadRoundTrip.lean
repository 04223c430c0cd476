import ProcessManager.Loading

/-! Loading undoes writing: a file printed from records is read back as their processes. -/
namespace ProcessManager

open Loop Scan

/-- A record that a line of the file can hold, and the spaces of its gaps beyond the first. -/
structure Line where
  record : Record
  name_pos : 1 ≤ record.name.length
  name_le : record.name.length ≤ 7
  name_bytes : ∀ b ∈ record.name, ¬ isSpace b ∧ b ≠ 0
  memory_nonneg : 0 ≤ record.memRequirement
  memory_int : record.memRequirement < 2 ^ 31
  afterArrival : ℕ
  afterName : ℕ
  afterService : ℕ

def spaces (extra : ℕ) : List UInt8 := List.replicate (extra + 1) 32

def Line.print (line : Line) : List UInt8 :=
  decimal line.record.arrivalTime.toNat ++ (spaces line.afterArrival ++ (line.record.name ++
    (spaces line.afterName ++ (decimal line.record.serviceTime.toNat ++
      (spaces line.afterService ++ decimal line.record.memRequirement.toNat)))))

/-- One record a line, and what follows the last of them. -/
def printFile (tail : List UInt8) : List Line → List UInt8
  | [] => tail
  | [line] => line.print ++ tail
  | line :: next :: lines => line.print ++ 10 :: printFile tail (next :: lines)

variable {gap rest tail : List UInt8} {line : Line} {lines : List Line}

theorem spaces_blank (extra : ℕ) : Blank (spaces extra) := by
  intro b hb
  rw [List.eq_of_mem_replicate hb]
  decide

theorem spaces_ne_nil (extra : ℕ) : spaces extra ≠ [] := by simp [spaces]

/-- The values that a call of `read_process` finds in a line. -/
def Line.values (line : Line) : List Value :=
  [.unsigned line.record.arrivalTime, .word line.record.name, .unsigned line.record.serviceTime,
    .signed line.record.memRequirement]

theorem unsigned_field (value : UInt32) (h : NoDigit rest) :
    Field .unsigned (decimal value.toNat) (.unsigned value) rest := by
  have hfield := Field.unsigned (decimal_numeral value.toNat) h
  rwa [unsignedValue_of_lt (by have := value.toNat_lt; omega), UInt32.ofNat_toNat] at hfield

theorem signed_field {value : ℤ} (hpos : 0 ≤ value) (hint : value < 2 ^ 31) (h : NoDigit rest) :
    Field .signed (decimal value.toNat) (.signed value) rest := by
  have hfield := Field.signed (decimal_numeral value.toNat) h
  rwa [signedValue_of_lt (by omega), Int.toNat_of_nonneg hpos] at hfield

theorem Line.fields (line : Line) (hgap : Blank gap) (hrest : NoDigit rest) :
    Fields recordFields (gap ++ (line.print ++ rest)) line.values rest := by
  have hword : Word line.record.name := by
    refine ⟨fun h => ?_, fun b hb => (line.name_bytes b hb).1⟩
    have := line.name_pos
    simp [h] at this
  simp only [Line.print, List.append_assoc]
  exact .cons hgap (unsigned_field _ (noDigit_of_blank (spaces_blank _) (spaces_ne_nil _)))
    (.cons (spaces_blank _)
      (.word hword (spaceOrEnd_of_blank (spaces_blank _) (spaces_ne_nil _)))
      (.cons (spaces_blank _)
        (unsigned_field _ (noDigit_of_blank (spaces_blank _) (spaces_ne_nil _)))
        (.cons (spaces_blank _) (signed_field line.memory_nonneg line.memory_int hrest) .nil)))

theorem Line.nameBytes_le (line : Line) : nameBytes line.values ≤ maxNameLen :=
  Nat.succ_le_succ line.name_le

/-- No value is lost in the local variables of `read_process`. -/
theorem Line.storedRecord (line : Line) : storedRecord line.values = line.record := by
  have hname : line.record.name.takeWhile (· ≠ 0) = line.record.name := by
    rw [List.takeWhile_eq_self_iff]
    intro b hb
    simpa using (line.name_bytes b hb).2
  change (⟨_, line.record.name.takeWhile (· ≠ 0), _, _⟩ : Record) = line.record
  rw [hname]
  rfl

/-- One call reads one line. -/
theorem loadBody_line (line : Line) (processes : List Process) (hgap : Blank gap)
    (hrest : NoDigit rest) : loadBody ⟨processes, gap ++ (line.print ++ rest)⟩ =
      .next ⟨processes ++ [createProcess line.record], rest⟩ := by
  rw [loadBody_fields (line.fields hgap hrest) line.nameBytes_le, line.storedRecord]

theorem load_lines (htail : Blank tail) (lines : List Line) (gap : List UInt8)
    (hgap : Blank gap) (processes : List Process) :
    ∃ n s, iterate loadBody ⟨processes, gap ++ printFile tail lines⟩ n = .done s ∧
      s.processes = processes ++ lines.map fun line => createProcess line.record := by
  have hend : ∀ text processes, Blank text → ∃ s, iterate loadBody ⟨processes, text⟩ 1 = .done s ∧
      s.processes = processes := by
    intro text processes h
    obtain ⟨rest, hbody⟩ := loadBody_blank processes h
    exact ⟨_, (iterate_succ_of_next iterate_zero).trans hbody, rfl⟩
  induction lines generalizing gap processes with
  | nil =>
    obtain ⟨s, hs, hprocesses⟩ := hend (gap ++ tail) processes fun b hb =>
      (List.mem_append.mp hb).elim (hgap b) (htail b)
    exact ⟨1, s, hs, by simp [hprocesses]⟩
  | cons line lines ih =>
    cases lines with
    | nil =>
      have hstop : NoDigit tail := fun b hb =>
        not_isDigit_of_isSpace (htail b (List.mem_of_mem_head? hb))
      obtain ⟨s, hs, hprocesses⟩ := hend tail (processes ++ [createProcess line.record]) htail
      refine ⟨2, s, ?_, by simp [hprocesses]⟩
      rw [iterate_succ_head, printFile, loadBody_line line processes hgap hstop]
      exact hs
    | cons next lines =>
      have hnewline : Blank [10] := by simp [Blank, isSpace]
      obtain ⟨n, s, hs, hprocesses⟩ := ih _ hnewline (processes ++ [createProcess line.record])
      refine ⟨n + 1, s, ?_, by simp [hprocesses]⟩
      have hstop : NoDigit (10 :: printFile tail (next :: lines)) :=
        noDigit_of_blank hnewline (by simp)
      rw [iterate_succ_head, printFile, loadBody_line line processes hgap hstop]
      exact hs

/-- Loading a printed file gives one process for each record, in order, with its four values and
nothing done yet. White space after the last record changes nothing. -/
theorem load_print (lines : List Line) (htail : Blank tail) :
    ∃ n s, loadProcesses (printFile tail lines) n = .done s ∧
      List.Forall₂ (fun (line : Line) (process : Process) =>
        process.arrivalTime = line.record.arrivalTime.toNat ∧
        process.name = line.record.name ∧
        process.serviceTime = line.record.serviceTime.toNat ∧
        process.memRequirement = line.record.memRequirement ∧
        process.serviceTimeLeft = process.serviceTime ∧
        process.state = .idle ∧ process.pid = 0 ∧ process.blockNode = none) lines s.processes := by
  obtain ⟨n, s, hs, hprocesses⟩ := load_lines htail lines [] (by simp [Blank]) []
  refine ⟨n, s, hs, ?_⟩
  rw [hprocesses, List.nil_append, List.forall₂_map_right_iff, List.forall₂_same]
  intro line _
  exact ⟨rfl, rfl, rfl, rfl, rfl, rfl, rfl, rfl⟩

/-- Two lines, the second with a name of digits and a wider gap, and a blank line after them. -/
theorem load_print_twoLines : ∃ (lines : List Line) (n : ℕ) (s : Loading),
    printFile [10, 32, 10] lines =
      "0 P4 30 16\n4294967295  7 1 0\n \n".toList.map (fun c => c.toNat.toUInt8) ∧
    loadProcesses (printFile [10, 32, 10] lines) n = .done s ∧ s.processes.length = 2 := by
  let first : Line := ⟨⟨0, [80, 52], 30, 16⟩, by simp, by simp, by simp [isSpace], by simp,
    by simp, 0, 0, 0⟩
  let second : Line := ⟨⟨4294967295, [55], 1, 0⟩, by simp, by simp, by simp [isSpace], by simp,
    by simp, 1, 0, 0⟩
  have htail : Blank [10, 32, 10] := by simp [Blank, isSpace]
  obtain ⟨n, s, hs, hall⟩ := load_print [first, second] htail
  exact ⟨[first, second], n, s, by decide, hs, hall.length_eq.symm⟩

end ProcessManager
