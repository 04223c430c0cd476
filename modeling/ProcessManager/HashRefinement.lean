import ProcessManager.ProcessHash

/-! `sha256_hash` computes the digest of the standard. -/
namespace ProcessManager

variable {messageBlock : List UInt8} {hash w : List UInt32} {v : Working} {t : ℕ}

/-- The eight words of a hash array. -/
def wordsOf (hash : List UInt32) : Sha256.Words :=
  ⟨(hash.getD 0 0).toBitVec, (hash.getD 1 0).toBitVec, (hash.getD 2 0).toBitVec,
    (hash.getD 3 0).toBitVec, (hash.getD 4 0).toBitVec, (hash.getD 5 0).toBitVec,
    (hash.getD 6 0).toBitVec, (hash.getD 7 0).toBitVec⟩

def Working.words (v : Working) : Sha256.Words :=
  ⟨v.a.toBitVec, v.b.toBitVec, v.c.toBitVec, v.d.toBitVec, v.e.toBitVec, v.f.toBitVec,
    v.g.toBitVec, v.h.toBitVec⟩

theorem sha256Rotr_toBitVec (bits word : UInt32) (hpos : 0 < bits.toNat)
    (hlt : bits.toNat < 32) :
    (sha256Rotr bits word).toBitVec = word.toBitVec.rotateRight bits.toNat := by
  rw [sha256Rotr, UInt32.toBitVec_or, UInt32.toBitVec_shiftRight, UInt32.toBitVec_shiftLeft,
    BitVec.rotateRight_def, BitVec.ushiftRight_eq', BitVec.shiftLeft_eq']
  congr 2
  simp [BitVec.toNat_umod]
  omega

theorem sha256Bsig0_toBitVec (x : UInt32) :
    (sha256Bsig0 x).toBitVec = Sha256.bigSigma0 x.toBitVec := by
  simp only [sha256Bsig0, UInt32.toBitVec_xor, Sha256.bigSigma0]
  rw [sha256Rotr_toBitVec 2 x (by decide) (by decide),
    sha256Rotr_toBitVec 13 x (by decide) (by decide),
    sha256Rotr_toBitVec 22 x (by decide) (by decide)]
  rfl

theorem sha256Bsig1_toBitVec (x : UInt32) :
    (sha256Bsig1 x).toBitVec = Sha256.bigSigma1 x.toBitVec := by
  simp only [sha256Bsig1, UInt32.toBitVec_xor, Sha256.bigSigma1]
  rw [sha256Rotr_toBitVec 6 x (by decide) (by decide),
    sha256Rotr_toBitVec 11 x (by decide) (by decide),
    sha256Rotr_toBitVec 25 x (by decide) (by decide)]
  rfl

theorem sha256Ssig0_toBitVec (x : UInt32) :
    (sha256Ssig0 x).toBitVec = Sha256.smallSigma0 x.toBitVec := by
  simp only [sha256Ssig0, UInt32.toBitVec_xor, Sha256.smallSigma0]
  rw [sha256Rotr_toBitVec 7 x (by decide) (by decide),
    sha256Rotr_toBitVec 18 x (by decide) (by decide)]
  rfl

theorem sha256Ssig1_toBitVec (x : UInt32) :
    (sha256Ssig1 x).toBitVec = Sha256.smallSigma1 x.toBitVec := by
  simp only [sha256Ssig1, UInt32.toBitVec_xor, Sha256.smallSigma1]
  rw [sha256Rotr_toBitVec 17 x (by decide) (by decide),
    sha256Rotr_toBitVec 19 x (by decide) (by decide)]
  rfl

/-- Bytes shifted into place are bytes put side by side. -/
theorem bigEndian_toBitVec (b₀ b₁ b₂ b₃ : UInt8) :
    (b₀.toUInt32 <<< 24 ||| b₁.toUInt32 <<< 16 ||| b₂.toUInt32 <<< 8 ||| b₃.toUInt32).toBitVec =
      b₀.toBitVec ++ b₁.toBitVec ++ b₂.toBitVec ++ b₃.toBitVec := by
  rw [← BitVec.setWidth_eq (b₀.toBitVec ++ b₁.toBitVec ++ b₂.toBitVec ++ b₃.toBitVec),
    BitVec.setWidth_append_append_append_eq_shiftLeft_setWidth_or]
  rfl

theorem schedule_lt (h : t < 16) :
    Sha256.schedule messageBlock t = Sha256.wordAt messageBlock t := by
  rw [Sha256.schedule, if_pos h]

theorem schedule_ge (h : ¬ t < 16) : Sha256.schedule messageBlock t =
    Sha256.smallSigma1 (Sha256.schedule messageBlock (t - 2)) +
      Sha256.schedule messageBlock (t - 7) +
      Sha256.smallSigma0 (Sha256.schedule messageBlock (t - 15)) +
      Sha256.schedule messageBlock (t - 16) := by
  rw [Sha256.schedule, if_neg h]

/-- What the loop over `t` has filled in before `n`. -/
theorem scheduleWord_loop (messageBlock : List UInt8) (n : ℕ) :
    ((List.range n).foldl (fun w t => w ++ [scheduleWord messageBlock w t]) []).length = n ∧
    ∀ t < n, (((List.range n).foldl (fun w t => w ++ [scheduleWord messageBlock w t]) []).getD t
      0).toBitVec = Sha256.schedule messageBlock t := by
  induction n with
  | zero => exact ⟨rfl, fun t h => absurd h (Nat.not_lt_zero t)⟩
  | succ n ih =>
    rw [List.range_succ, List.foldl_append]
    simp only [List.foldl_cons, List.foldl_nil]
    generalize (List.range n).foldl (fun w t => w ++ [scheduleWord messageBlock w t]) [] = w at ih ⊢
    obtain ⟨hlength, hwords⟩ := ih
    refine ⟨by rw [List.length_append, hlength]; rfl, fun t ht => ?_⟩
    rcases Nat.lt_succ_iff_lt_or_eq.mp ht with hlt | rfl
    · rw [List.getD_append _ _ _ _ (by omega)]
      exact hwords t hlt
    · rw [List.getD_append_right _ _ _ _ (by omega), hlength, Nat.sub_self, List.getD_cons_zero,
        scheduleWord]
      split
      case isTrue hfirst =>
        rw [schedule_lt hfirst, bigEndian_toBitVec, Sha256.wordAt]
      case isFalse hlater =>
        rw [schedule_ge hlater, ← hwords (t - 2) (by omega), ← hwords (t - 7) (by omega),
          ← hwords (t - 15) (by omega), ← hwords (t - 16) (by omega)]
        simp only [UInt32.toBitVec_add, sha256Ssig0_toBitVec, sha256Ssig1_toBitVec]

theorem sha256K_toBitVec (t : ℕ) :
    (sha256K.getD t 0).toBitVec = Sha256.roundConstants.getD t 0 := by
  have hmap : Sha256.roundConstants = sha256K.map UInt32.toBitVec := rfl
  rw [hmap, List.getD_eq_getElem?_getD, List.getD_eq_getElem?_getD, List.getElem?_map]
  cases sha256K[t]? <;> rfl

theorem hashRound_words {word : BitVec 32} (h : (w.getD t 0).toBitVec = word) :
    (hashRound w v t).words =
      Sha256.round v.words (Sha256.roundConstants.getD t 0) word := by
  simp only [hashRound, Working.words, Sha256.round, UInt32.toBitVec_add, sha256Bsig0_toBitVec,
    sha256Bsig1_toBitVec, sha256K_toBitVec, h]
  rfl

theorem hashRound_loop {n : ℕ}
    (h : ∀ t < n, (w.getD t 0).toBitVec = Sha256.schedule messageBlock t) :
    ((List.range n).foldl (hashRound w) v).words = Sha256.rounds messageBlock v.words n := by
  induction n with
  | zero => rfl
  | succ n ih =>
    rw [Sha256.rounds, List.range_succ, List.foldl_append, List.foldl_append, ← Sha256.rounds,
      ← ih fun t ht => h t (Nat.lt_succ_of_lt ht)]
    exact hashRound_words (h n (Nat.lt_succ_self n))

/-- `sha256_process` is the compression function. -/
theorem sha256Process_wordsOf (messageBlock : List UInt8) (hash : List UInt32) :
    wordsOf (sha256Process messageBlock hash) = Sha256.compress (wordsOf hash) messageBlock := by
  have hrounds := hashRound_loop (v := ⟨hash.getD 0 0, hash.getD 1 0, hash.getD 2 0,
    hash.getD 3 0, hash.getD 4 0, hash.getD 5 0, hash.getD 6 0, hash.getD 7 0⟩)
    (scheduleWord_loop messageBlock 64).2
  have hrest : Sha256.rounds messageBlock (wordsOf hash) 64 = _ := hrounds.symm
  rw [Sha256.compress, hrest]
  rfl

theorem wordsOf_sha256Init : wordsOf sha256Init = Sha256.initial := rfl

theorem sha256Process_loop (block : ℕ → List UInt8) (hash : List UInt32) (n : ℕ) :
    wordsOf ((List.range n).foldl (fun hash i => sha256Process (block i) hash) hash) =
      ((List.range n).map block).foldl Sha256.compress (wordsOf hash) := by
  induction n with
  | zero => rfl
  | succ n ih =>
    rw [List.range_succ, List.map_append, List.foldl_append, List.foldl_append, ← ih]
    exact sha256Process_wordsOf (block n) _

/-- A byte of the length in bits, which the shift brings down. -/
theorem lengthByte_eq (nbyte : UInt64) {i : ℕ} (hi : i < 8) :
    lengthByte nbyte (UInt64.ofNat (8 * (i + 1))) =
      UInt8.ofNat (8 * nbyte.toNat / 256 ^ (7 - i)) := by
  apply UInt8.toNat_inj.mp
  have hshift : (64 - UInt64.ofNat (8 * (i + 1))).toNat % 64 = 8 * (7 - i) := by
    have hfull : (64 : UInt64).toNat = 64 := rfl
    have hof : (UInt64.ofNat (8 * (i + 1))).toNat = 8 * (i + 1) := by
      rw [UInt64.toNat_ofNat', Nat.mod_eq_of_lt (by omega)]
    have hle : UInt64.ofNat (8 * (i + 1)) ≤ 64 := by
      rw [UInt64.le_iff_toNat_le, hof, hfull]
      omega
    rw [UInt64.toNat_sub_of_le _ _ hle, hof, hfull]
    omega
  have hpow : 2 ^ (8 * (7 - i)) = 256 ^ (7 - i) := Nat.pow_mul 2 8 (7 - i)
  have hwrap : (nbyte.toNat * 8) % 2 ^ 64 / 256 ^ (7 - i) % 256 =
      8 * nbyte.toNat / 256 ^ (7 - i) % 256 := by
    have hsplit : 2 ^ 64 = 256 ^ (7 - i) * 256 ^ (i + 1) := by
      rw [← Nat.pow_add]
      have hsum : 7 - i + (i + 1) = 8 := by omega
      rw [hsum]
      rfl
    rw [hsplit, Nat.mod_mul_right_div_self, Nat.mod_mod_of_dvd, Nat.mul_comm]
    exact Dvd.intro_left (256 ^ i) rfl
  have hmask : (0xFF : UInt64).toNat = 2 ^ 8 - 1 := rfl
  simp only [lengthByte, UInt64.toNat_toUInt8, UInt64.toNat_and, UInt64.toNat_shiftRight,
    UInt64.toNat_mul, UInt8.toNat_ofNat', hshift, Nat.shiftRight_eq_div_pow, hpow, hmask,
    Nat.and_two_pow_sub_one_eq_mod]
  rw [Nat.mod_mod]
  exact hwrap

/-- The eight bytes of the length behind the first 56 of the last block. -/
theorem setLength_eq {lastBlock : List UInt8} (h : lastBlock.length = 64) (b : ℕ → UInt8) :
    ((((((((lastBlock.set 56 (b 0)).set 57 (b 1)).set 58 (b 2)).set 59 (b 3)).set 60 (b 4)).set 61
      (b 5)).set 62 (b 6)).set 63 (b 7)) = lastBlock.take 56 ++ (List.range 8).map b := by
  have hhead : (lastBlock.take 56).length = 56 := by rw [List.length_take]; omega
  have htail : (lastBlock.drop 56).length = 8 := by rw [List.length_drop]; omega
  rw [← List.take_append_drop 56 lastBlock]
  generalize lastBlock.take 56 = head at *
  generalize lastBlock.drop 56 = tail at *
  match tail, htail with
  | [_, _, _, _, _, _, _, _], _ =>
    simp [hhead]
    rfl

theorem setLengthBytes_eq {lastBlock : List UInt8} (h : lastBlock.length = 64) (nbyte : UInt64) :
    ((((((((lastBlock.set 56 (lengthByte nbyte 8)).set 57 (lengthByte nbyte 16)).set 58
      (lengthByte nbyte 24)).set 59 (lengthByte nbyte 32)).set 60 (lengthByte nbyte 40)).set 61
      (lengthByte nbyte 48)).set 62 (lengthByte nbyte 56)).set 63 (lengthByte nbyte 64)) =
      lastBlock.take 56 ++ Sha256.bytes64 (8 * nbyte.toNat) := by
  have hbytes : Sha256.bytes64 (8 * nbyte.toNat) =
      (List.range 8).map fun i => lengthByte nbyte (UInt64.ofNat (8 * (i + 1))) := by
    rw [Sha256.bytes64]
    exact List.map_congr_left fun i hi => (lengthByte_eq nbyte (List.mem_range.mp hi)).symm
  rw [hbytes]
  exact setLength_eq h fun i => lengthByte nbyte (UInt64.ofNat (8 * (i + 1)))

/-- The last block or two: what is left of the message, padded. -/
theorem sha256ProcessFinal_wordsOf (nbyte : UInt64) (rest : List UInt8) (hash : List UInt32)
    (hrest : rest.length < 64) (hmod : nbyte.toNat % 64 = rest.length) :
    wordsOf (sha256ProcessFinal nbyte rest.length (rest ++ List.replicate (64 - rest.length) 0)
      hash) =
      (Sha256.blocks (rest ++ 128 :: (List.replicate (Sha256.zeros nbyte.toNat) 0 ++
        Sha256.bytes64 (8 * nbyte.toNat)))).foldl Sha256.compress (wordsOf hash) := by
  have hset : (rest ++ List.replicate (64 - rest.length) 0).set rest.length ((1 : UInt8) <<< 7) =
      rest ++ 128 :: List.replicate (63 - rest.length) 0 := by
    have hone : 64 - rest.length = 63 - rest.length + 1 := by omega
    rw [List.set_append_right _ _ le_rfl, Nat.sub_self, hone, List.replicate_succ,
      List.set_cons_zero]
    rfl
  have hlength : (rest ++ 128 :: List.replicate (63 - rest.length) 0).length = 64 := by
    rw [List.length_append, List.length_cons, List.length_replicate]
    omega
  simp only [sha256ProcessFinal, hset]
  by_cases hlong : rest.length > 64 - 8 - 1
  · -- the length does not fit behind the bit: it goes into a block of its own
    have hzeros : Sha256.zeros nbyte.toNat = 63 - rest.length + 56 := by
      rw [Sha256.zeros, hmod]
      omega
    have hsplit : rest ++ 128 :: (List.replicate (Sha256.zeros nbyte.toNat) 0 ++
        Sha256.bytes64 (8 * nbyte.toNat)) = (rest ++ 128 :: List.replicate (63 - rest.length) 0) ++
          (List.replicate 56 0 ++ Sha256.bytes64 (8 * nbyte.toNat)) := by
      rw [hzeros, List.replicate_add, List.append_assoc, List.append_assoc, List.cons_append]
    have hzero : (List.replicate 64 (0 : UInt8)).take 56 = List.replicate 56 0 := rfl
    simp only [if_pos hlong]
    rw [setLengthBytes_eq (List.length_replicate), hzero, sha256Process_wordsOf,
      sha256Process_wordsOf, hsplit, Sha256.blocks_append (by rw [hlength]),
      Sha256.blocks_one hlength, Sha256.blocks_one]
    · rfl
    · rw [List.length_append, List.length_replicate, Sha256.bytes64_length]
  · have hzeros : Sha256.zeros nbyte.toNat = 55 - rest.length := by
      rw [Sha256.zeros, hmod]
      omega
    have htake : (rest ++ 128 :: List.replicate (63 - rest.length) 0).take 56 =
        rest ++ 128 :: List.replicate (55 - rest.length) 0 := by
      have hfill : 56 - rest.length = 55 - rest.length + 1 := by omega
      rw [List.take_append, List.take_of_length_le (by omega), hfill, List.take_succ_cons,
        List.take_replicate, Nat.min_eq_left (by omega)]
    simp only [if_neg hlong]
    rw [setLengthBytes_eq hlength, htake, sha256Process_wordsOf, hzeros, Sha256.blocks_one,
      List.append_assoc, List.cons_append]
    · rfl
    · simp only [List.length_append, List.length_cons, List.length_replicate,
        Sha256.bytes64_length]
      omega

/-- The blocks `sha256_process` is called on directly are the whole blocks of the message. -/
theorem blocks_take (buf : List UInt8) {n : ℕ} (h : 64 * n ≤ buf.length) :
    Sha256.blocks (buf.take (64 * n)) =
      (List.range n).map fun i => (buf.drop (i * 64)).take 64 := by
  have hlength : (buf.take (64 * n)).length / 64 = n := by
    rw [List.length_take, Nat.min_eq_left h]
    omega
  rw [Sha256.blocks, hlength]
  apply List.map_congr_left
  intro i hi
  have hi' : i < n := List.mem_range.mp hi
  rw [List.drop_take, List.take_take, Nat.min_eq_left (by omega), Nat.mul_comm]

theorem sha256Final_toList (nbyte : UInt64) (leftoverBytes : ℕ) (lastBlock : List UInt8)
    (hash : List UInt32) :
    (wordsOf (sha256ProcessFinal nbyte leftoverBytes lastBlock hash)).toList.map
      UInt32.ofBitVec = sha256ProcessFinal nbyte leftoverBytes lastBlock hash := by
  rw [sha256ProcessFinal]
  rfl

/-- The words `sha256_hash` prints are the digest of the first `nbyte` bytes. -/
theorem sha256Hash_words (buf : List UInt8) (nbyte : UInt64) (h : nbyte.toNat ≤ buf.length) :
    sha256Hash buf nbyte = uint32ArrayToHexString
      ((Sha256.digest (buf.take nbyte.toNat)).toList.map UInt32.ofBitVec) := by
  set n := nbyte.toNat with hn
  have hleftover : (nbyte % 64).toNat = n % 64 := UInt64.toNat_mod _ _
  have hquotient : (nbyte / 64).toNat = n / 64 := UInt64.toNat_div _ _
  have hmessage : (buf.take n).length = n := by rw [List.length_take, Nat.min_eq_left h]
  set rest := (buf.drop (64 * (n / 64))).take (n % 64) with hrest
  have hrestLength : rest.length = n % 64 := by
    rw [hrest, List.length_take, List.length_drop]
    omega
  have hparts : buf.take n = buf.take (64 * (n / 64)) ++ rest := by
    rw [hrest, ← List.take_add, Nat.div_add_mod]
  have hwhole : (if n % 64 = 0 then (if n % 64 = 0 then nbyte / 64 else nbyte / 64 + 1)
      else (if n % 64 = 0 then nbyte / 64 else nbyte / 64 + 1) - 1).toNat = n / 64 := by
    split <;> simp [hquotient]
  have hlast : (if n % 64 ≠ 0 then (buf.drop (n / 64 * 64)).take (n % 64) ++
      (List.replicate 64 (0 : UInt8)).drop (n % 64) else List.replicate 64 0) =
      rest ++ List.replicate (64 - rest.length) 0 := by
    rw [List.drop_replicate, hrestLength, Nat.mul_comm (n / 64)]
    split
    case isTrue => rfl
    case isFalse hnone =>
      rw [not_not] at hnone
      rw [hrest, hnone, List.take_zero, List.nil_append]
  have hpad : Sha256.pad (buf.take n) = buf.take (64 * (n / 64)) ++ (rest ++ 128 ::
      (List.replicate (Sha256.zeros n) 0 ++ Sha256.bytes64 (8 * n))) := by
    rw [Sha256.pad, hmessage, hparts, List.append_assoc]
  have hdvd : 64 ∣ (buf.take (64 * (n / 64))).length := by
    rw [List.length_take, Nat.min_eq_left (by omega)]
    exact Nat.dvd_mul_right 64 (n / 64)
  have hfinal := sha256ProcessFinal_wordsOf nbyte rest ((List.range (n / 64)).foldl
    (fun hash i => sha256Process ((buf.drop (i * 64)).take 64) hash) sha256Init) (by omega)
    hrestLength.symm
  rw [sha256Process_loop, wordsOf_sha256Init] at hfinal
  simp only [sha256Hash]
  rw [hleftover, hwhole, hlast, ← sha256Final_toList, ← hrestLength, hfinal, Sha256.digest, hpad,
    Sha256.blocks_append hdvd, List.foldl_append, blocks_take buf (by omega)]

theorem hexValue_hexDigit {n : ℕ} (h : n < 16) : Sha256.hexValue (hexDigit n) = some n := by
  interval_cases n <;> rfl

theorem readHex_concat (digits : List UInt8) (c : UInt8) {n d : ℕ}
    (h : Sha256.readHex digits = some n) (hd : Sha256.hexValue c = some d) :
    Sha256.readHex (digits ++ [c]) = some (16 * n + d) := by
  rw [Sha256.readHex] at h
  rw [Sha256.readHex, List.foldl_append, h]
  simp [hd]

/-- The digits of a word down to the one for `16 ^ k` give the word without its lower digits. -/
theorem readHex_hexWord_take (word : UInt32) {k : ℕ} (hk : k ≤ 8) :
    Sha256.readHex ((hexWord word).take k) = some (word.toNat / 16 ^ (8 - k)) := by
  induction k with
  | zero =>
    have hlt : word.toNat < 16 ^ 8 := word.toNat_lt
    rw [List.take_zero, Nat.sub_zero, Nat.div_eq_of_lt hlt]
    rfl
  | succ k ih =>
    have hstep : word.toNat / 16 ^ (8 - (k + 1)) =
        16 * (word.toNat / 16 ^ (8 - k)) + word.toNat / 16 ^ (7 - k) % 16 := by
      have hpow : 16 ^ (8 - k) = 16 ^ (7 - k) * 16 := by
        rw [← Nat.pow_succ]
        congr 1
        omega
      have hexp : 8 - (k + 1) = 7 - k := by omega
      rw [hexp, hpow, ← Nat.div_div_eq_div_mul]
      exact (Nat.div_add_mod _ 16).symm
    have hdigit : (hexWord word).take (k + 1) =
        (hexWord word).take k ++ [hexDigit (word.toNat / 16 ^ (7 - k) % 16)] := by
      rw [List.take_add_one]
      simp [hexWord, List.getElem?_range (show k < 8 by omega)]
    rw [hdigit, hstep]
    exact readHex_concat _ _ (ih (by omega)) (hexValue_hexDigit (Nat.mod_lt _ (by decide)))

theorem hexWord_length (word : UInt32) : (hexWord word).length = 8 := rfl

theorem readHex_hexWord (word : UInt32) :
    Sha256.readHex (hexWord word) = some word.toNat := by
  have h := readHex_hexWord_take word (le_refl 8)
  rwa [← hexWord_length word, List.take_length, hexWord_length, Nat.sub_self, Nat.pow_zero,
    Nat.div_one] at h

theorem hexString_length (words : List UInt32) :
    (uint32ArrayToHexString words).length = 8 * words.length := by
  induction words with
  | nil => rfl
  | cons word words ih =>
    rw [uint32ArrayToHexString, List.flatMap_cons, List.length_append, ← uint32ArrayToHexString,
      ih, hexWord_length, List.length_cons]
    omega

theorem hexString_word (words : List UInt32) {i : ℕ} (hi : i < words.length) :
    ((uint32ArrayToHexString words).drop (8 * i)).take 8 = hexWord (words.getD i 0) := by
  induction words generalizing i with
  | nil => exact absurd hi (Nat.not_lt_zero i)
  | cons word words ih =>
    rw [uint32ArrayToHexString, List.flatMap_cons, ← uint32ArrayToHexString]
    cases i with
    | zero => exact List.take_left' (hexWord_length word)
    | succ i =>
      have hskip : 8 * (i + 1) = (hexWord word).length + 8 * i := by
        rw [hexWord_length]
        omega
      rw [hskip, List.drop_length_add_append, List.getD_cons_succ]
      exact ih (Nat.lt_of_succ_lt_succ hi)

/-- Each eight digits, read as a hexadecimal number, give one word. -/
theorem readHex_hexString (words : List (BitVec 32)) {i : ℕ} (hi : i < words.length) :
    Sha256.readHex (((uint32ArrayToHexString (words.map UInt32.ofBitVec)).drop (8 * i)).take 8) =
      some (words.getD i 0).toNat := by
  rw [hexString_word _ (by rwa [List.length_map]), readHex_hexWord]
  exact congrArg (fun word => some word.toNat)
    (List.getD_map (f := UInt32.ofBitVec) (d := 0) (n := i) words)

/-- `sha256_hash` writes 64 digits, and these are the SHA-256 digest of the first `nbyte` bytes: each
eight of them, read as a hexadecimal number, give one of its words. -/
theorem sha256Hash_digest (buf : List UInt8) (nbyte : UInt64) (h : nbyte.toNat ≤ buf.length) :
    (sha256Hash buf nbyte).length = 64 ∧
    ∀ i < 8, Sha256.readHex (((sha256Hash buf nbyte).drop (8 * i)).take 8) =
      some ((Sha256.digest (buf.take nbyte.toNat)).toList.getD i 0).toNat := by
  rw [sha256Hash_words buf nbyte h]
  exact ⟨hexString_length _, fun i hi => readHex_hexString _ hi⟩

/-- The first word for the three bytes of "abc". -/
theorem sha256Hash_digest_abc :
    ((Sha256.digest [97, 98, 99]).toList.getD 0 0).toNat = 0xba7816bf := by
  have hword := (sha256Hash_digest [97, 98, 99] 3 (by decide)).2 0 (by decide)
  have hrun : Sha256.readHex (((sha256Hash [97, 98, 99] 3).drop (8 * 0)).take 8) =
      some 0xba7816bf := by decide +kernel
  exact (Option.some.inj (hrun.symm.trans hword)).symm

end ProcessManager
