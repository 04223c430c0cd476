import Mathlib

/-! Formatted input of the C library over a list of bytes: the conversions `%u`, `%s` and `%d` of
`fscanf` in the "C" locale, and decimal output. -/
namespace Scan

/-- `isspace`: blank, and tab to carriage return. -/
def isSpace (b : UInt8) : Bool := b = 32 || (9 ≤ b && b ≤ 13)

def isDigit (b : UInt8) : Bool := 48 ≤ b && b ≤ 57

/-- White space only, or nothing. -/
def Blank (text : List UInt8) : Prop := ∀ b ∈ text, isSpace b

/-- The white-space directive; `%u`, `%s` and `%d` begin with it too. -/
def skipSpace (text : List UInt8) : List UInt8 := text.dropWhile isSpace

/-- How a conversion ends: with a value, at a byte that does not match, or at the end of the
input before anything but white space was read. -/
inductive Result (α : Type*)
  | converted (value : α) (rest : List UInt8)
  | mismatch (rest : List UInt8)
  | atEnd
  deriving DecidableEq, Repr

/-- The value of decimal digits, first digit first. -/
def digitsValue (digits : List UInt8) : ℕ :=
  digits.foldl (fun value b => 10 * value + (b.toNat - 48)) 0

/-- An optional sign is consumed even when no digit follows it. -/
def splitSign : List UInt8 → Bool × List UInt8
  | [] => (false, [])
  | b :: text =>
    if b = 43 then (false, text) else if b = 45 then (true, text) else (false, b :: text)

/-- A sign and a magnitude in base 10. -/
def scanInteger (text : List UInt8) : Result (Bool × ℕ) :=
  if skipSpace text = [] then .atEnd
  else
    let (negative, body) := splitSign (skipSpace text)
    let digits := body.takeWhile isDigit
    if digits = [] then .mismatch body
    else .converted (negative, digitsValue digits) (body.dropWhile isDigit)

/-- `%s`: a run of bytes that are not white space. -/
def scanWord (text : List UInt8) : Result (List UInt8) :=
  if skipSpace text = [] then .atEnd
  else
    .converted ((skipSpace text).takeWhile (!isSpace ·)) ((skipSpace text).dropWhile (!isSpace ·))

/-- `strtoul` with a 64-bit result: out of range is the largest value, a sign negates. -/
def strtoul : Bool × ℕ → ℕ
  | (negative, n) =>
    if 2 ^ 64 ≤ n then 2 ^ 64 - 1 else if negative then (2 ^ 64 - n) % 2 ^ 64 else n

/-- `strtol` with a 64-bit result: out of range is the nearest value. -/
def strtol : Bool × ℕ → ℤ
  | (negative, n) => if negative then max (-2 ^ 63) (-n) else min (2 ^ 63 - 1) n

/-- `%u`, `%s` and `%d`. -/
inductive Conversion
  | unsigned
  | word
  | signed
  deriving DecidableEq, Repr

/-- What a conversion stores. -/
inductive Value
  | unsigned (value : UInt32)
  | word (bytes : List UInt8)
  | signed (value : ℤ)
  deriving DecidableEq, Repr

def Value.asUnsigned : Value → Option UInt32
  | .unsigned value => some value
  | _ => none

def Value.asWord : Value → Option (List UInt8)
  | .word bytes => some bytes
  | _ => none

def Value.asSigned : Value → Option ℤ
  | .signed value => some value
  | _ => none

def Result.map {α β : Type*} (f : α → β) :
    Result α → Result β
  | .converted value rest => .converted (f value) rest
  | .mismatch rest => .mismatch rest
  | .atEnd => .atEnd

/-- What is stored for an integer: the low 32 bits. -/
def unsignedValue (number : Bool × ℕ) : Value := .unsigned (UInt32.ofNat (strtoul number))

def signedValue (number : Bool × ℕ) : Value := .signed ((strtol number).bmod (2 ^ 32))

def convert : Conversion → List UInt8 → Result Value
  | .unsigned, text => (scanInteger text).map unsignedValue
  | .word, text => (scanWord text).map .word
  | .signed, text => (scanInteger text).map signedValue

/-- A part of a format. -/
inductive Directive
  | space
  | conv (c : Conversion)
  deriving DecidableEq, Repr

/-- Why `fscanf` stopped. -/
inductive Ending
  | complete
  | mismatch
  | atEnd
  deriving DecidableEq, Repr

structure Scanned where
  values : List Value
  ending : Ending
  rest : List UInt8
  deriving DecidableEq, Repr

/-- `fscanf`: directive by directive, up to the first conversion that fails. -/
def scanf : List Directive → List UInt8 → Scanned
  | [], text => ⟨[], .complete, text⟩
  | .space :: format, text => scanf format (skipSpace text)
  | .conv c :: format, text =>
    match convert c text with
    | .converted value rest =>
      let scanned := scanf format rest
      { scanned with values := value :: scanned.values }
    | .mismatch rest => ⟨[], .mismatch, rest⟩
    | .atEnd => ⟨[], .atEnd, []⟩

/-- What `fscanf` returns: the number of values stored, or `none` for `EOF`, when the input ends
before the first of them. -/
def Scanned.count (scanned : Scanned) : Option ℕ :=
  if scanned.values = [] ∧ scanned.ending = .atEnd then none else some scanned.values.length

/-- How `printf` writes an unsigned number. -/
def decimal (n : ℕ) : List UInt8 :=
  if n = 0 then [48] else ((Nat.digits 10 n).map fun d => UInt8.ofNat (48 + d)).reverse

def Digits (text : List UInt8) : Prop := text ≠ [] ∧ ∀ b ∈ text, isDigit b

/-- A decimal numeral and the number it stands for. -/
inductive Numeral : List UInt8 → Bool × ℕ → Prop
  | plain {digits : List UInt8} (h : Digits digits) : Numeral digits (false, digitsValue digits)
  | plus {digits : List UInt8} (h : Digits digits) :
      Numeral (43 :: digits) (false, digitsValue digits)
  | minus {digits : List UInt8} (h : Digits digits) :
      Numeral (45 :: digits) (true, digitsValue digits)

def Word (text : List UInt8) : Prop := text ≠ [] ∧ ∀ b ∈ text, ¬ isSpace b

/-- A numeral in front of `rest` ends where it does. -/
def NoDigit (rest : List UInt8) : Prop := ∀ b ∈ rest.head?, ¬ isDigit b

def SpaceOrEnd (rest : List UInt8) : Prop := ∀ b ∈ rest.head?, isSpace b

/-- The field of a conversion, in front of `rest`. -/
inductive Field : Conversion → List UInt8 → Value → List UInt8 → Prop
  | unsigned {field rest : List UInt8} {number : Bool × ℕ} (h : Numeral field number)
      (stop : NoDigit rest) : Field .unsigned field (unsignedValue number) rest
  | word {field rest : List UInt8} (h : Word field) (stop : SpaceOrEnd rest) :
      Field .word field (.word field) rest
  | signed {field rest : List UInt8} {number : Bool × ℕ} (h : Numeral field number)
      (stop : NoDigit rest) : Field .signed field (signedValue number) rest

/-- The fields of a list of conversions, each behind any white space. -/
inductive Fields : List Conversion → List UInt8 → List Value → List UInt8 → Prop
  | nil {text : List UInt8} : Fields [] text [] text
  | cons {c : Conversion} {cs : List Conversion} {gap field rest last : List UInt8} {value : Value}
      {values : List Value} (hgap : Blank gap) (hfield : Field c field value rest)
      (hrest : Fields cs rest values last) :
      Fields (c :: cs) (gap ++ (field ++ rest)) (value :: values) last

variable {α : Type*} {text run rest gap field : List UInt8} {c : Conversion}
  {cs : List Conversion} {format : List Directive} {number : Bool × ℕ} {value : Value}
  {values : List Value}

/-- A longest run and what follows it. -/
theorem run_iff {p : α → Bool} {l run rest : List α} :
    l.takeWhile p = run ∧ l.dropWhile p = rest ↔
      l = run ++ rest ∧ (∀ a ∈ run, p a) ∧ ∀ a ∈ rest.head?, ¬ p a := by
  constructor
  · rintro ⟨rfl, rfl⟩
    refine ⟨List.takeWhile_append_dropWhile.symm, fun a ha => List.mem_takeWhile_imp ha, ?_⟩
    intro a ha
    have h := List.head?_dropWhile_not p l
    rw [Option.mem_def.mp ha] at h
    simpa using h
  · rintro ⟨rfl, hrun, hstop⟩
    rw [List.takeWhile_append_of_pos hrun, List.dropWhile_append_of_pos hrun]
    cases rest with
    | nil => simp
    | cons a rest => simp [show ¬ p a from hstop a rfl]

theorem skipSpace_append (hgap : Blank gap) : skipSpace (gap ++ text) = skipSpace text :=
  List.dropWhile_append_of_pos hgap

theorem skipSpace_of_head (h : ∀ b ∈ text.head?, ¬ isSpace b) : skipSpace text = text :=
  (run_iff.mpr ⟨(List.nil_append text).symm, by simp, h⟩).2

theorem skipSpace_eq_nil : skipSpace text = [] ↔ Blank text := List.dropWhile_eq_nil_iff

theorem skipSpace_split (text : List UInt8) : ∃ gap, text = gap ++ skipSpace text ∧ Blank gap ∧
    ∀ b ∈ (skipSpace text).head?, ¬ isSpace b :=
  ⟨_, run_iff.mp ⟨rfl, rfl⟩⟩

@[simp] theorem skipSpace_skipSpace (text : List UInt8) :
    skipSpace (skipSpace text) = skipSpace text := by
  obtain ⟨_, -, -, h⟩ := skipSpace_split text
  exact skipSpace_of_head h

theorem not_isSpace_of_isDigit {b : UInt8} (h : isDigit b) : ¬ isSpace b := by
  simp only [isDigit, isSpace, UInt8.le_iff_toNat_le, ← UInt8.toNat_inj, Bool.and_eq_true,
    Bool.or_eq_true, decide_eq_true_eq, UInt8.toNat_ofNat] at h ⊢
  omega

theorem not_isDigit_of_isSpace {b : UInt8} (h : isSpace b) : ¬ isDigit b :=
  fun hd => not_isSpace_of_isDigit hd h

theorem digits_scan (h : Digits field) (stop : NoDigit rest) :
    (field ++ rest).takeWhile isDigit = field ∧ (field ++ rest).dropWhile isDigit = rest :=
  run_iff.mpr ⟨rfl, h.2, stop⟩

theorem splitSign_digits (h : Digits field) :
    splitSign (field ++ rest) = (false, field ++ rest) := by
  obtain ⟨hne, hall⟩ := h
  obtain ⟨b, field, rfl⟩ := List.exists_cons_of_ne_nil hne
  have hb : isDigit b := hall b (by simp)
  have hplus : b ≠ 43 := by
    rintro rfl
    simp [isDigit] at hb
  have hminus : b ≠ 45 := by
    rintro rfl
    simp [isDigit] at hb
  simp [splitSign, hplus, hminus]

theorem Numeral.ne_nil (h : Numeral field number) : field ≠ [] := by
  cases h with
  | plain h => exact h.1
  | plus h => simp
  | minus h => simp

theorem Numeral.head_not_space (h : Numeral field number) (rest : List UInt8) :
    ∀ b ∈ (field ++ rest).head?, ¬ isSpace b := by
  intro b hb
  cases h with
  | plain h =>
    obtain ⟨hne, hall⟩ := h
    obtain ⟨d, field, rfl⟩ := List.exists_cons_of_ne_nil hne
    obtain rfl : d = b := by simpa using hb
    exact not_isSpace_of_isDigit (hall d (by simp))
  | plus h =>
    obtain rfl : 43 = b := by simpa using hb
    decide
  | minus h =>
    obtain rfl : 45 = b := by simpa using hb
    decide

/-- Whether a digit comes next is seen from the next field. -/
theorem noDigit_append (hne : field ≠ []) :
    NoDigit (gap ++ (field ++ rest)) ↔ NoDigit (gap ++ field) := by
  rw [NoDigit, NoDigit, ← List.append_assoc, List.head?_append_of_ne_nil _ (by simp [hne])]

/-- Neither a numeral goes on, nor a word, where white space begins. -/
theorem noDigit_of_blank (h : Blank gap) (hne : gap ≠ []) : NoDigit (gap ++ rest) := by
  obtain ⟨b, gap, rfl⟩ := List.exists_cons_of_ne_nil hne
  intro x hx
  obtain rfl : b = x := by simpa using hx
  exact not_isDigit_of_isSpace (h b (by simp))

theorem spaceOrEnd_of_blank (h : Blank gap) (hne : gap ≠ []) : SpaceOrEnd (gap ++ rest) := by
  obtain ⟨b, gap, rfl⟩ := List.exists_cons_of_ne_nil hne
  intro x hx
  obtain rfl : b = x := by simpa using hx
  exact h b (by simp)

/-- A numeral is read as its number. -/
theorem scanInteger_of_numeral (hgap : Blank gap) (h : Numeral field number)
    (stop : NoDigit rest) : scanInteger (gap ++ (field ++ rest)) = .converted number rest := by
  have hskip : skipSpace (gap ++ (field ++ rest)) = field ++ rest := by
    rw [skipSpace_append hgap, skipSpace_of_head (h.head_not_space rest)]
  have hne : field ++ rest ≠ [] := by simp [h.ne_nil]
  rw [scanInteger, hskip, if_neg hne]
  cases h with
  | plain h =>
    obtain ⟨htake, hdrop⟩ := digits_scan h stop
    simp [splitSign_digits h, htake, hdrop, h.1]
  | plus h =>
    obtain ⟨htake, hdrop⟩ := digits_scan h stop
    simp [splitSign, htake, hdrop, h.1]
  | minus h =>
    obtain ⟨htake, hdrop⟩ := digits_scan h stop
    simp [splitSign, htake, hdrop, h.1]

/-- What is split off is a sign or nothing. -/
theorem splitSign_numeral {body : List UInt8} {negative : Bool}
    (h : splitSign text = (negative, body)) (hdigits : body.takeWhile isDigit ≠ []) :
    ∃ field, text = field ++ body.dropWhile isDigit ∧
      Numeral field (negative, digitsValue (body.takeWhile isDigit)) := by
  obtain ⟨hsplit, hall, -⟩ := (run_iff (p := isDigit) (l := body)).mp ⟨rfl, rfl⟩
  have hrun : Digits (body.takeWhile isDigit) := ⟨hdigits, hall⟩
  cases text with
  | nil =>
    obtain ⟨rfl, rfl⟩ := Prod.mk.inj h
    simp at hdigits
  | cons b text =>
    rw [splitSign] at h
    split at h
    · rename_i hb
      obtain ⟨rfl, rfl⟩ := Prod.mk.inj h
      exact ⟨43 :: _, by rw [hb, List.cons_append, ← hsplit], .plus hrun⟩
    · split at h
      · rename_i hb
        obtain ⟨rfl, rfl⟩ := Prod.mk.inj h
        exact ⟨45 :: _, by rw [hb, List.cons_append, ← hsplit], .minus hrun⟩
      · obtain ⟨rfl, rfl⟩ := Prod.mk.inj h
        exact ⟨_, hsplit, .plain hrun⟩

/-- Only numerals are read. -/
theorem scanInteger_iff : scanInteger text = .converted number rest ↔
    ∃ gap field, text = gap ++ (field ++ rest) ∧ Blank gap ∧ Numeral field number ∧
      NoDigit rest := by
  constructor
  · intro h
    rw [scanInteger] at h
    split at h
    · cases h
    generalize hsign : splitSign (skipSpace text) = signed at h
    obtain ⟨negative, body⟩ := signed
    dsimp only at h
    split at h
    · cases h
    · rename_i hdigits
      obtain ⟨hnumber, hrest⟩ := Result.converted.inj h
      obtain ⟨gap, htext, hgap, -⟩ := skipSpace_split text
      obtain ⟨field, hfield, hnumeral⟩ := splitSign_numeral hsign hdigits
      obtain ⟨-, -, hstop⟩ := (run_iff (p := isDigit) (l := body)).mp ⟨rfl, hrest⟩
      subst hnumber hrest
      exact ⟨gap, field, by rw [← hfield, ← htext], hgap, hnumeral, hstop⟩
  · rintro ⟨gap, field, rfl, hgap, h, stop⟩
    exact scanInteger_of_numeral hgap h stop

theorem scanWord_iff {word : List UInt8} : scanWord text = .converted word rest ↔
    ∃ gap, text = gap ++ (word ++ rest) ∧ Blank gap ∧ Word word ∧ SpaceOrEnd rest := by
  constructor
  · intro h
    rw [scanWord] at h
    split at h
    · cases h
    · rename_i hne
      obtain ⟨hword, hrest⟩ := Result.converted.inj h
      obtain ⟨gap, htext, hgap, hhead⟩ := skipSpace_split text
      obtain ⟨hsplit, hall, hstop⟩ := run_iff.mp ⟨hword, hrest⟩
      refine ⟨gap, by rw [← hsplit, ← htext], hgap, ⟨?_, by simpa using hall⟩, ?_⟩
      · rintro rfl
        rw [List.nil_append] at hsplit
        obtain ⟨b, tail, htail⟩ := List.exists_cons_of_ne_nil hne
        exact hhead b (by simp [htail]) (by simpa using hstop b (by simp [← hsplit, htail]))
      · intro b hb
        simpa using hstop b hb
  · rintro ⟨gap, rfl, hgap, ⟨hne, hall⟩, stop⟩
    obtain ⟨b, tail, rfl⟩ := List.exists_cons_of_ne_nil hne
    have hskip : skipSpace (gap ++ (b :: tail ++ rest)) = b :: tail ++ rest := by
      rw [skipSpace_append hgap]
      exact skipSpace_of_head fun a ha => hall a (by simp_all)
    obtain ⟨htake, hdrop⟩ := (run_iff (p := (!isSpace ·)) (l := b :: tail ++ rest)).mpr
      ⟨rfl, by simpa using hall, by simpa [SpaceOrEnd] using stop⟩
    rw [scanWord, hskip, if_neg (by simp), htake, hdrop]

theorem Result.map_eq_converted {β γ : Type*} {f : β → γ} {r : Result β} {v : γ} :
    r.map f = .converted v rest ↔ ∃ u, r = .converted u rest ∧ f u = v := by
  cases r <;> simp [Result.map, and_comm]

theorem Result.map_eq_atEnd {β γ : Type*} {f : β → γ} {r : Result β} :
    r.map f = .atEnd ↔ r = .atEnd := by
  cases r <;> simp [Result.map]

/-- A conversion reads the fields of its kind, and nothing else. -/
theorem convert_iff : convert c text = .converted value rest ↔
    ∃ gap field, text = gap ++ (field ++ rest) ∧ Blank gap ∧ Field c field value rest := by
  cases c with
  | unsigned =>
    rw [convert, Result.map_eq_converted]
    constructor
    · rintro ⟨number, h, rfl⟩
      obtain ⟨gap, field, htext, hgap, hnumeral, hstop⟩ := scanInteger_iff.mp h
      exact ⟨gap, field, htext, hgap, .unsigned hnumeral hstop⟩
    · rintro ⟨gap, field, htext, hgap, hfield⟩
      cases hfield with
      | unsigned h stop => exact ⟨_, scanInteger_iff.mpr ⟨gap, field, htext, hgap, h, stop⟩, rfl⟩
  | word =>
    rw [convert, Result.map_eq_converted]
    constructor
    · rintro ⟨word, h, rfl⟩
      obtain ⟨gap, htext, hgap, hword, hstop⟩ := scanWord_iff.mp h
      exact ⟨gap, word, htext, hgap, .word hword hstop⟩
    · rintro ⟨gap, field, htext, hgap, hfield⟩
      cases hfield with
      | word h stop => exact ⟨field, scanWord_iff.mpr ⟨gap, htext, hgap, h, stop⟩, rfl⟩
  | signed =>
    rw [convert, Result.map_eq_converted]
    constructor
    · rintro ⟨number, h, rfl⟩
      obtain ⟨gap, field, htext, hgap, hnumeral, hstop⟩ := scanInteger_iff.mp h
      exact ⟨gap, field, htext, hgap, .signed hnumeral hstop⟩
    · rintro ⟨gap, field, htext, hgap, hfield⟩
      cases hfield with
      | signed h stop => exact ⟨_, scanInteger_iff.mpr ⟨gap, field, htext, hgap, h, stop⟩, rfl⟩

/-- The input ends before a conversion exactly when only white space is left. -/
theorem convert_atEnd_iff : convert c text = .atEnd ↔ Blank text := by
  have hinteger : scanInteger text = .atEnd ↔ Blank text := by
    rw [← skipSpace_eq_nil, scanInteger]
    split_ifs with h
    · simp [h]
    · simp only [h, iff_false]
      split_ifs <;> simp
  cases c with
  | unsigned => rw [convert, Result.map_eq_atEnd, hinteger]
  | signed => rw [convert, Result.map_eq_atEnd, hinteger]
  | word =>
    rw [convert, Result.map_eq_atEnd, ← skipSpace_eq_nil, scanWord]
    split_ifs with h
    · simp [h]
    · simp [h]

theorem convert_skipSpace (c : Conversion) (text : List UInt8) :
    convert c (skipSpace text) = convert c text := by
  cases c <;> simp [convert, scanInteger, scanWord]

/-- All values are stored exactly when the fields stand at the front of the text. -/
theorem fields_iff : Fields cs text values rest ↔
    (scanf (cs.map .conv) text).values = values ∧ values.length = cs.length ∧
      (scanf (cs.map .conv) text).rest = rest := by
  induction cs generalizing text values with
  | nil =>
    constructor
    · intro h
      cases h
      exact ⟨rfl, rfl, rfl⟩
    · rintro ⟨rfl, -, rfl⟩
      exact .nil
  | cons c cs ih =>
    rw [List.map_cons, scanf]
    constructor
    · intro h
      cases h with
      | cons hgap hfield hrest =>
        obtain ⟨hvalues, hlength, hlast⟩ := ih.mp hrest
        rw [convert_iff.mpr ⟨_, _, rfl, hgap, hfield⟩]
        exact ⟨congrArg _ hvalues, by simp [hlength], hlast⟩
    · cases hc : convert c text with
      | converted value mid =>
        rintro ⟨rfl, hlength, hlast⟩
        obtain ⟨gap, field, rfl, hgap, hfield⟩ := convert_iff.mp hc
        exact .cons hgap hfield (ih.mpr ⟨rfl, by simpa using hlength, hlast⟩)
      | mismatch mid =>
        rintro ⟨rfl, hlength, -⟩
        simp at hlength
      | atEnd =>
        rintro ⟨rfl, hlength, -⟩
        simp at hlength

theorem count_eq_none_iff : (scanf (.conv c :: format) text).count = none ↔ Blank text := by
  rw [← convert_atEnd_iff (c := c), scanf]
  cases convert c text <;> simp [Scanned.count]

theorem digitsValue_reverse {digits : List ℕ} (h : ∀ d ∈ digits, d < 10) :
    digitsValue (digits.map fun d => UInt8.ofNat (48 + d)).reverse = Nat.ofDigits 10 digits := by
  rw [digitsValue, List.foldl_reverse]
  induction digits with
  | nil => rfl
  | cons d digits ih =>
    have hd : d < 10 := h d (by simp)
    have hbyte : (UInt8.ofNat (48 + d)).toNat - 48 = d := by
      simp only [UInt8.toNat_ofNat']
      omega
    rw [List.map_cons, List.foldr_cons, ih fun e he => h e (List.mem_cons_of_mem _ he),
      Nat.ofDigits_cons, hbyte, add_comm]

/-- Reading undoes writing. -/
theorem digitsValue_decimal (n : ℕ) : digitsValue (decimal n) = n := by
  rw [decimal]
  split_ifs with h
  · subst h
    rfl
  · rw [digitsValue_reverse fun d hd => Nat.digits_lt_base (by decide) hd, Nat.ofDigits_digits]

theorem decimal_digits (n : ℕ) : Digits (decimal n) := by
  rw [decimal]
  split_ifs with h
  · exact ⟨by simp, by simp [isDigit]⟩
  · refine ⟨by simpa using Nat.digits_ne_nil_iff_ne_zero.mpr h, fun b hb => ?_⟩
    simp only [List.mem_reverse, List.mem_map] at hb
    obtain ⟨d, hd, rfl⟩ := hb
    have hlt : d < 10 := Nat.digits_lt_base (by decide) hd
    simp only [isDigit, UInt8.le_iff_toNat_le, UInt8.toNat_ofNat', UInt8.toNat_ofNat,
      Bool.and_eq_true, decide_eq_true_eq]
    omega

/-- A number that was written is read back where no digit follows. -/
theorem decimal_numeral (n : ℕ) : Numeral (decimal n) (false, n) := by
  have h := Numeral.plain (decimal_digits n)
  rwa [digitsValue_decimal] at h

theorem unsignedValue_of_lt {n : ℕ} (h : n < 2 ^ 64) :
    unsignedValue (false, n) = .unsigned (UInt32.ofNat n) := by
  rw [unsignedValue, strtoul, if_neg (by omega)]
  rfl

theorem signedValue_of_lt {n : ℕ} (h : n < 2 ^ 31) : signedValue (false, n) = .signed n := by
  have hmin : min (2 ^ 63 - 1 : ℤ) n = n := by omega
  simp only [signedValue, strtol, Bool.false_eq_true, if_false, hmin]
  rw [Int.bmod_eq_of_le (by omega) (by omega)]

end Scan
