import Mathlib

/-! Numbers of a limited precision: the result of an operation is the exact one, rounded to the
nearest number of the format, ties to even. -/
namespace Rounding

/-- The nearest integer, of two the even one. -/
def roundEven (x : ℚ) : ℤ :=
  if Int.fract x < 1 / 2 then ⌊x⌋
  else if 1 / 2 < Int.fract x then ⌊x⌋ + 1
  else if Even ⌊x⌋ then ⌊x⌋ else ⌊x⌋ + 1

/-- The numbers `m * 2 ^ e` with `|m| < 2 ^ precision` and `minExp ≤ e`, below `2 ^ maxExp`. -/
structure Format where
  precision : ℕ
  minExp : ℤ
  maxExp : ℤ
  precision_pos : 1 ≤ precision

/-- The exponent of the last place of a number. -/
def Format.lastPlace (fmt : Format) (x : ℚ) : ℤ :=
  max (Int.log 2 |x| + 1 - fmt.precision) fmt.minExp

/-- The nearest number, if there were no largest one. -/
def Format.nearest (fmt : Format) (x : ℚ) : ℚ :=
  roundEven (x / 2 ^ fmt.lastPlace x) * 2 ^ fmt.lastPlace x

/-- `none` is a number that is infinite, or not a number. -/
def Format.round (fmt : Format) (x : ℚ) : Option ℚ :=
  if |fmt.nearest x| < 2 ^ fmt.maxExp then some (fmt.nearest x) else none

/-- A quotient by 0 is infinite, or not a number. -/
def Format.div (fmt : Format) (x y : ℚ) : Option ℚ := if y = 0 then none else fmt.round (x / y)

/-- The terms added one by one, from the left. -/
def Format.sum (fmt : Format) (terms : List ℚ) : Option ℚ :=
  terms.foldlM (fun sum term => fmt.round (sum + term)) 0

/-- The largest relative error of a rounding. -/
def Format.unit (fmt : Format) : ℚ := 2 ^ (-(fmt.precision : ℤ))

/-- A `double`. -/
def binary64 : Format := ⟨53, -1074, 1024, by decide⟩

/-- 1 is not among its smallest numbers. -/
theorem binary64_minExp : binary64.minExp + binary64.precision ≤ 1 := by
  decide

variable {fmt : Format} {x y high : ℚ} {n k : ℕ} {e : ℤ} {terms : List ℚ}

theorem unit_nonneg (fmt : Format) : 0 ≤ fmt.unit := by
  unfold Format.unit
  positivity

theorem roundEven_le (x : ℚ) : (roundEven x : ℚ) ≤ x + 1 / 2 := by
  have hsplit := Int.floor_add_fract x
  have hfract := Int.fract_nonneg x
  unfold roundEven
  split_ifs <;> push_cast <;> linarith

theorem le_roundEven (x : ℚ) : x - 1 / 2 ≤ roundEven x := by
  have hsplit := Int.floor_add_fract x
  have hfract := Int.fract_lt_one x
  unfold roundEven
  split_ifs <;> push_cast <;> linarith

theorem roundEven_intCast (m : ℤ) : roundEven m = m := by
  have hfract : Int.fract (m : ℚ) = 0 := Int.fract_intCast m
  rw [roundEven, hfract, if_pos (by norm_num), Int.floor_intCast]

theorem roundEven_mono (h : x ≤ y) : roundEven x ≤ roundEven y := by
  rcases (Int.floor_le_floor h).lt_or_eq with hlt | heq
  · have hbelow : roundEven x ≤ ⌊x⌋ + 1 := by
      unfold roundEven
      split_ifs <;> omega
    have habove : ⌊y⌋ ≤ roundEven y := by
      unfold roundEven
      split_ifs <;> omega
    omega
  · have hfract : Int.fract x ≤ Int.fract y := by
      rw [Int.fract, Int.fract, heq]
      linarith
    unfold roundEven
    rw [heq]
    split_ifs <;> first | omega | (exfalso; linarith)

theorem nearest_zero : fmt.nearest 0 = 0 := by
  have hzero : roundEven 0 = 0 := roundEven_intCast 0
  simp [Format.nearest, hzero]

/-- A multiple of its last place is in the format. -/
theorem nearest_of_multiple {m : ℤ} (hplace : fmt.lastPlace (m * 2 ^ e) ≤ e) :
    fmt.nearest (m * 2 ^ e) = m * 2 ^ e := by
  set place := fmt.lastPlace (m * 2 ^ e)
  obtain ⟨i, hi⟩ := Int.eq_ofNat_of_zero_le (sub_nonneg.mpr hplace)
  have hsum : e = place + i := by omega
  have hquotient : (m * 2 ^ e : ℚ) / 2 ^ place = ((m * 2 ^ i : ℤ) : ℚ) := by
    rw [hsum, zpow_add₀ two_ne_zero, zpow_natCast]
    push_cast
    field_simp
  rw [Format.nearest, hquotient, roundEven_intCast, ← hquotient]
  exact div_mul_cancel₀ _ (zpow_ne_zero _ two_ne_zero)

theorem lastPlace_le (hlt : |x| < 2 ^ (e + fmt.precision)) (hx : x ≠ 0) (hmin : fmt.minExp ≤ e) :
    fmt.lastPlace x ≤ e := by
  have hlog : Int.log 2 |x| < e + fmt.precision :=
    (Int.lt_zpow_iff_log_lt one_lt_two (abs_pos.mpr hx)).mp (by exact_mod_cast hlt)
  exact max_le (by omega) hmin

/-- The natural numbers up to `2 ^ precision` are in the format. -/
theorem nearest_natCast (hmin : fmt.minExp ≤ 0) (hn : n ≤ 2 ^ fmt.precision) :
    fmt.nearest n = n := by
  have hone : (n : ℚ) = (n : ℤ) * 2 ^ (0 : ℤ) := by simp
  rcases hn.lt_or_eq with hlt | rfl
  · rcases Nat.eq_zero_or_pos n with rfl | hpos
    · exact_mod_cast nearest_zero
    · rw [hone]
      apply nearest_of_multiple
      rw [← hone]
      refine lastPlace_le ?_ (by positivity) hmin
      rw [Nat.abs_cast, zero_add, zpow_natCast]
      exact_mod_cast hlt
  · have hpower : ((2 ^ fmt.precision : ℕ) : ℚ) = (1 : ℤ) * 2 ^ (fmt.precision : ℤ) := by simp
    rw [hpower]
    apply nearest_of_multiple
    refine lastPlace_le ?_ (by simp) (hmin.trans (Int.natCast_nonneg _))
    rw [Int.cast_one, one_mul, abs_of_pos (by positivity)]
    have hpos := fmt.precision_pos
    exact zpow_lt_zpow_right₀ one_lt_two (by omega)

theorem nearest_nonneg (hx : 0 ≤ x) : 0 ≤ fmt.nearest x := by
  have hzero : roundEven 0 = 0 := roundEven_intCast 0
  have hround : 0 ≤ roundEven (x / 2 ^ fmt.lastPlace x) := by
    rw [← hzero]
    exact roundEven_mono (by positivity)
  have hcast : (0 : ℚ) ≤ roundEven (x / 2 ^ fmt.lastPlace x) := by exact_mod_cast hround
  exact mul_nonneg hcast (by positivity)

theorem lt_lastPlace (x : ℚ) : |x| < 2 ^ (fmt.lastPlace x + fmt.precision) := by
  have hlog : |x| < (2 : ℕ) ^ (Int.log 2 |x| + 1) := Int.lt_zpow_succ_log_self one_lt_two |x|
  refine (by exact_mod_cast hlog : |x| < 2 ^ (Int.log 2 |x| + 1)).trans_le ?_
  apply zpow_le_zpow_right₀ one_le_two
  have hle : Int.log 2 |x| + 1 - fmt.precision ≤ fmt.lastPlace x := le_max_left _ _
  omega

/-- The last place of a number that is not among the smallest. -/
theorem lastPlace_eq (h : fmt.minExp < fmt.lastPlace x) :
    fmt.lastPlace x = Int.log 2 |x| + 1 - fmt.precision := by
  unfold Format.lastPlace at h ⊢
  omega

theorem nearest_le_of_lt (hx : 0 ≤ x) : fmt.nearest x ≤ 2 ^ (fmt.lastPlace x + fmt.precision) := by
  have hlt : |x| < 2 ^ (fmt.lastPlace x + fmt.precision) := lt_lastPlace x
  rw [abs_of_nonneg hx] at hlt
  have hquotient : x / 2 ^ fmt.lastPlace x ≤ ((2 ^ fmt.precision : ℤ) : ℚ) := by
    rw [div_le_iff₀ (by positivity)]
    push_cast
    rw [← zpow_natCast, ← zpow_add₀ two_ne_zero, add_comm]
    exact hlt.le
  have hround := roundEven_mono hquotient
  rw [roundEven_intCast] at hround
  have hcast : (roundEven (x / 2 ^ fmt.lastPlace x) : ℚ) ≤ 2 ^ fmt.precision := by
    exact_mod_cast hround
  rw [zpow_add₀ two_ne_zero, mul_comm, zpow_natCast]
  exact mul_le_mul_of_nonneg_right hcast (by positivity)

theorem le_nearest_of_le (hx : 2 ^ (fmt.lastPlace x + fmt.precision - 1) ≤ x) :
    2 ^ (fmt.lastPlace x + fmt.precision - 1) ≤ fmt.nearest x := by
  obtain ⟨i, hi⟩ := Nat.exists_eq_add_of_le' fmt.precision_pos
  have hsplit : (2 : ℚ) ^ (fmt.lastPlace x + fmt.precision - 1) = 2 ^ i * 2 ^ fmt.lastPlace x := by
    rw [hi, ← zpow_natCast, ← zpow_add₀ two_ne_zero]
    congr 1
    push_cast
    ring
  rw [hsplit] at hx ⊢
  have hquotient : ((2 ^ i : ℤ) : ℚ) ≤ x / 2 ^ fmt.lastPlace x := by
    rw [le_div_iff₀ (by positivity)]
    exact_mod_cast hx
  have hround := roundEven_mono hquotient
  rw [roundEven_intCast] at hround
  have hcast : (2 : ℚ) ^ i ≤ roundEven (x / 2 ^ fmt.lastPlace x) := by exact_mod_cast hround
  exact mul_le_mul_of_nonneg_right hcast (by positivity)

/-- Rounding keeps the order. -/
theorem nearest_mono (hx : 0 ≤ x) (hxy : x ≤ y) : fmt.nearest x ≤ fmt.nearest y := by
  rcases hx.eq_or_lt with rfl | hpos
  · rw [nearest_zero]
    exact nearest_nonneg hxy
  have hy := hpos.trans_le hxy
  have hlogs : fmt.lastPlace x ≤ fmt.lastPlace y := by
    have hlog : Int.log 2 |x| ≤ Int.log 2 |y| := by
      rw [abs_of_pos hpos, abs_of_pos hy]
      exact Int.log_mono_right hpos hxy
    unfold Format.lastPlace
    omega
  rcases hlogs.eq_or_lt with hsame | hless
  · have hround : roundEven (x / 2 ^ fmt.lastPlace x) ≤ roundEven (y / 2 ^ fmt.lastPlace y) := by
      rw [hsame]
      exact roundEven_mono (by gcongr)
    have hcast : (roundEven (x / 2 ^ fmt.lastPlace x) : ℚ) ≤
        roundEven (y / 2 ^ fmt.lastPlace y) := by exact_mod_cast hround
    rw [Format.nearest, Format.nearest, hsame] at *
    exact mul_le_mul_of_nonneg_right hcast (by positivity)
  -- a power of 2 lies between the two
  · have hmin : fmt.minExp ≤ fmt.lastPlace x := le_max_right _ _
    have hplace := lastPlace_eq (hmin.trans_lt hless)
    have hpower : (2 : ℚ) ^ (fmt.lastPlace y + fmt.precision - 1) ≤ y := by
      rw [hplace, abs_of_pos hy]
      have hlog := Int.zpow_log_le_self one_lt_two hy
      have hexp : Int.log 2 y + 1 - fmt.precision + fmt.precision - 1 = Int.log 2 y := by ring
      rw [hexp]
      exact_mod_cast hlog
    calc fmt.nearest x ≤ 2 ^ (fmt.lastPlace x + fmt.precision) := nearest_le_of_lt hx
      _ ≤ 2 ^ (fmt.lastPlace y + fmt.precision - 1) := by
        apply zpow_le_zpow_right₀ one_le_two
        omega
      _ ≤ fmt.nearest y := le_nearest_of_le hpower

/-- Of a number that is not too small, rounding changes no more than this part. -/
theorem nearest_error (hx : 2 ^ (fmt.minExp + fmt.precision - 1) ≤ x) :
    |fmt.nearest x - x| ≤ fmt.unit * x := by
  have hpos : 0 < x := (by positivity : (0 : ℚ) < _).trans_le hx
  have hlog : fmt.minExp + fmt.precision - 1 ≤ Int.log 2 x :=
    (Int.zpow_le_iff_le_log one_lt_two hpos).mp (by exact_mod_cast hx)
  have hplace : fmt.lastPlace x = Int.log 2 x + 1 - fmt.precision := by
    rw [Format.lastPlace, abs_of_pos hpos]
    omega
  have hpower : (2 : ℚ) ^ Int.log 2 x ≤ x := by
    exact_mod_cast Int.zpow_log_le_self one_lt_two hpos
  have hlast : (2 : ℚ) ^ fmt.lastPlace x = 2 * (fmt.unit * 2 ^ Int.log 2 x) := by
    rw [hplace, Format.unit, sub_eq_add_neg, zpow_add₀ two_ne_zero, zpow_add₀ two_ne_zero]
    ring
  set place := (2 : ℚ) ^ fmt.lastPlace x with hset
  have hplace_pos : 0 < place := by positivity
  have hexact : x / place * place = x := div_mul_cancel₀ _ hplace_pos.ne'
  have hlow := mul_le_mul_of_nonneg_right (le_roundEven (x / place)) hplace_pos.le
  have hhigh := mul_le_mul_of_nonneg_right (roundEven_le (x / place)) hplace_pos.le
  rw [sub_mul, hexact] at hlow
  rw [add_mul, hexact] at hhigh
  have hunit := unit_nonneg fmt
  have hhalf : 1 / 2 * place ≤ fmt.unit * x := by
    rw [hlast]
    nlinarith [mul_le_mul_of_nonneg_left hpower hunit]
  rw [abs_le, Format.nearest, ← hset]
  constructor <;> linarith

theorem nearest_le_mul (hx : 2 ^ (fmt.minExp + fmt.precision - 1) ≤ x) :
    fmt.nearest x ≤ (1 + fmt.unit) * x := by
  have herror := (abs_le.mp (nearest_error hx)).2
  linarith

theorem round_eq_some (hx : 0 ≤ x) (hlt : fmt.nearest x < 2 ^ fmt.maxExp) :
    fmt.round x = some (fmt.nearest x) := by
  rw [Format.round, abs_of_nonneg (nearest_nonneg hx), if_pos hlt]

/-- With room above it, a number of at least 1 stays one when it is rounded. -/
theorem round_some (hmin : fmt.minExp + fmt.precision ≤ 1) (hlow : 1 ≤ x)
    (hhigh : (1 + fmt.unit) * x < 2 ^ fmt.maxExp) :
    fmt.round x = some (fmt.nearest x) ∧ 1 ≤ fmt.nearest x ∧
      fmt.nearest x ≤ (1 + fmt.unit) * x := by
  have hprecision := fmt.precision_pos
  have hone : (1 : ℕ) ≤ 2 ^ fmt.precision := Nat.one_le_two_pow
  have hnormal : (2 : ℚ) ^ (fmt.minExp + fmt.precision - 1) ≤ x :=
    (zpow_le_one_of_nonpos₀ one_le_two (by omega)).trans hlow
  have hle := nearest_le_mul hnormal
  refine ⟨round_eq_some (zero_le_one.trans hlow) (hle.trans_lt hhigh), ?_, hle⟩
  have hmono : fmt.nearest 1 ≤ fmt.nearest x := nearest_mono zero_le_one hlow
  have hexact : fmt.nearest (1 : ℕ) = (1 : ℕ) := nearest_natCast (by omega) hone
  rw [Nat.cast_one] at hexact
  rwa [hexact] at hmono

/-- The errors of that many roundings add up to no more than a factor of 2. -/
theorem growth_le_two (hk : 2 * k ≤ 2 ^ fmt.precision) : (1 + fmt.unit) ^ k ≤ 2 := by
  have hunit := unit_nonneg fmt
  have hpower : (2 : ℚ) ^ fmt.precision * fmt.unit = 1 := by
    rw [Format.unit, zpow_neg, zpow_natCast]
    exact mul_inv_cancel₀ (by positivity)
  have hcast : (2 * k : ℚ) ≤ 2 ^ fmt.precision := by exact_mod_cast hk
  have hhalf : k * fmt.unit ≤ 1 / 2 := by nlinarith
  have hsmall : fmt.unit ≤ 1 := by
    have hone : (1 : ℚ) ≤ 2 ^ fmt.precision := one_le_pow₀ one_le_two
    nlinarith
  have hbernoulli := one_add_mul_le_pow (a := -fmt.unit) (by linarith) k
  have hproduct : (1 + fmt.unit) ^ k * (1 + -fmt.unit) ^ k ≤ 1 := by
    rw [← mul_pow]
    exact pow_le_one₀ (by nlinarith) (by nlinarith)
  have hgrown : (0 : ℚ) ≤ (1 + fmt.unit) ^ k := by positivity
  nlinarith

/-- What a sum of `k` terms between 1 and `high` has come to. -/
def Bounded (fmt : Format) (high : ℚ) (k : ℕ) (sum : ℚ) : Prop :=
  k ≤ sum ∧ sum ≤ k * high * (1 + fmt.unit) ^ k

theorem Bounded.next (h : Bounded fmt high k x) (hmin : fmt.minExp + fmt.precision ≤ 1)
    (hlow : 1 ≤ y) (hhigh : y ≤ high) (hcount : k + 1 ≤ 2 ^ fmt.precision)
    (hroom : (k + 1 : ℕ) * high * (1 + fmt.unit) ^ (k + 1) < 2 ^ fmt.maxExp) :
    fmt.round (x + y) = some (fmt.nearest (x + y)) ∧
      Bounded fmt high (k + 1) (fmt.nearest (x + y)) := by
  obtain ⟨hkx, hxk⟩ := h
  have hunit := unit_nonneg fmt
  have hprecision := fmt.precision_pos
  have hkx' : ((k + 1 : ℕ) : ℚ) ≤ x + y := by
    push_cast
    linarith
  have hone : 1 ≤ x + y := by
    have hk : (0 : ℚ) ≤ k := Nat.cast_nonneg k
    linarith
  have hpower : (1 : ℚ) ≤ (1 + fmt.unit) ^ k := one_le_pow₀ (by linarith)
  have hterm : y ≤ high * (1 + fmt.unit) ^ k :=
    hhigh.trans (le_mul_of_one_le_right (by linarith) hpower)
  have hgrown : (1 + fmt.unit) * (x + y) ≤ (k + 1 : ℕ) * high * (1 + fmt.unit) ^ (k + 1) := by
    calc (1 + fmt.unit) * (x + y)
        ≤ (1 + fmt.unit) * (k * high * (1 + fmt.unit) ^ k + high * (1 + fmt.unit) ^ k) := by gcongr
      _ = (k + 1 : ℕ) * high * (1 + fmt.unit) ^ (k + 1) := by
        push_cast
        ring
  obtain ⟨hround, -, hle⟩ := round_some hmin hone (hgrown.trans_lt hroom)
  refine ⟨hround, ?_, hle.trans hgrown⟩
  have hmono : fmt.nearest (k + 1 : ℕ) ≤ fmt.nearest (x + y) :=
    nearest_mono (Nat.cast_nonneg (k + 1)) hkx'
  rwa [nearest_natCast (by omega) hcount] at hmono

/-- A sum of terms between 1 and `high` is no less than their number, and no more than `high` for
each, up to one rounding error for each. -/
theorem sum_bounded (hmin : fmt.minExp + fmt.precision ≤ 1) (hlow : ∀ term ∈ terms, 1 ≤ term)
    (hhigh : ∀ term ∈ terms, term ≤ high) (hcount : terms.length ≤ 2 ^ fmt.precision)
    (hroom : terms.length * high * (1 + fmt.unit) ^ terms.length < 2 ^ fmt.maxExp) :
    ∃ sum, fmt.sum terms = some sum ∧ Bounded fmt high terms.length sum := by
  have hunit := unit_nonneg fmt
  -- by induction on the terms still to be added, after `k` of them
  have hfold : ∀ (rest : List ℚ) (k : ℕ) (sum : ℚ), k + rest.length = terms.length →
      (∀ term ∈ rest, term ∈ terms) → Bounded fmt high k sum →
      ∃ total, rest.foldlM (fun sum term => fmt.round (sum + term)) sum = some total ∧
        Bounded fmt high terms.length total := by
    intro rest
    induction rest with
    | nil =>
      intro k sum hk _ hsum
      exact ⟨sum, rfl, by simpa [← hk] using hsum⟩
    | cons term rest ih =>
      intro k sum hk hmem hsum
      rw [List.length_cons] at hk
      have hterm := hmem term List.mem_cons_self
      have hpos : 0 ≤ high := zero_le_one.trans ((hlow term hterm).trans (hhigh term hterm))
      have hle : k + 1 ≤ terms.length := by omega
      have hroom' : (k + 1 : ℕ) * high * (1 + fmt.unit) ^ (k + 1) < 2 ^ fmt.maxExp := by
        refine lt_of_le_of_lt ?_ hroom
        have hcast : ((k + 1 : ℕ) : ℚ) ≤ terms.length := by exact_mod_cast hle
        gcongr
        linarith
      obtain ⟨hround, hnext⟩ := hsum.next hmin (hlow term hterm) (hhigh term hterm)
        (hle.trans hcount) hroom'
      obtain ⟨total, htotal, hbounded⟩ := ih (k + 1) _ (by omega)
        (fun t ht => hmem t (List.mem_cons_of_mem _ ht)) hnext
      exact ⟨total, by simp [hround, htotal], hbounded⟩
  exact hfold terms 0 0 (Nat.zero_add _) (fun _ h => h) (by simp [Bounded])

end Rounding
