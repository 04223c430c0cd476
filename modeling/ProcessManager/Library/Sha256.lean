import Mathlib

/-! SHA-256 over a list of bytes, as the standard defines it: padding, message schedule, rounds, and
the chain of blocks. -/
namespace Sha256

/-- Eight words: a hash value, or the working variables. -/
structure Words where
  a : BitVec 32
  b : BitVec 32
  c : BitVec 32
  d : BitVec 32
  e : BitVec 32
  f : BitVec 32
  g : BitVec 32
  h : BitVec 32
  deriving DecidableEq

def ch (x y z : BitVec 32) : BitVec 32 := (x &&& y) ^^^ (~~~x &&& z)

def maj (x y z : BitVec 32) : BitVec 32 := (x &&& y) ^^^ (x &&& z) ^^^ (y &&& z)

def bigSigma0 (x : BitVec 32) : BitVec 32 :=
  x.rotateRight 2 ^^^ x.rotateRight 13 ^^^ x.rotateRight 22

def bigSigma1 (x : BitVec 32) : BitVec 32 :=
  x.rotateRight 6 ^^^ x.rotateRight 11 ^^^ x.rotateRight 25

def smallSigma0 (x : BitVec 32) : BitVec 32 := x.rotateRight 7 ^^^ x.rotateRight 18 ^^^ x >>> 3

def smallSigma1 (x : BitVec 32) : BitVec 32 := x.rotateRight 17 ^^^ x.rotateRight 19 ^^^ x >>> 10

/-- The 64 constants of the rounds. -/
def roundConstants : List (BitVec 32) :=
  [0x428a2f98, 0x71374491, 0xb5c0fbcf, 0xe9b5dba5, 0x3956c25b, 0x59f111f1, 0x923f82a4, 0xab1c5ed5,
    0xd807aa98, 0x12835b01, 0x243185be, 0x550c7dc3, 0x72be5d74, 0x80deb1fe, 0x9bdc06a7, 0xc19bf174,
    0xe49b69c1, 0xefbe4786, 0x0fc19dc6, 0x240ca1cc, 0x2de92c6f, 0x4a7484aa, 0x5cb0a9dc, 0x76f988da,
    0x983e5152, 0xa831c66d, 0xb00327c8, 0xbf597fc7, 0xc6e00bf3, 0xd5a79147, 0x06ca6351, 0x14292967,
    0x27b70a85, 0x2e1b2138, 0x4d2c6dfc, 0x53380d13, 0x650a7354, 0x766a0abb, 0x81c2c92e, 0x92722c85,
    0xa2bfe8a1, 0xa81a664b, 0xc24b8b70, 0xc76c51a3, 0xd192e819, 0xd6990624, 0xf40e3585, 0x106aa070,
    0x19a4c116, 0x1e376c08, 0x2748774c, 0x34b0bcb5, 0x391c0cb3, 0x4ed8aa4a, 0x5b9cca4f, 0x682e6ff3,
    0x748f82ee, 0x78a5636f, 0x84c87814, 0x8cc70208, 0x90befffa, 0xa4506ceb, 0xbef9a3f7, 0xc67178f2]

def initial : Words where
  a := 0x6a09e667
  b := 0xbb67ae85
  c := 0x3c6ef372
  d := 0xa54ff53a
  e := 0x510e527f
  f := 0x9b05688c
  g := 0x1f83d9ab
  h := 0x5be0cd19

/-- The word at byte `4 * t` of a block, most significant byte first. -/
def wordAt (block : List UInt8) (t : ℕ) : BitVec 32 :=
  (block.getD (4 * t) 0).toBitVec ++ (block.getD (4 * t + 1) 0).toBitVec ++
    (block.getD (4 * t + 2) 0).toBitVec ++ (block.getD (4 * t + 3) 0).toBitVec

/-- The message schedule of a block. -/
def schedule (block : List UInt8) (t : ℕ) : BitVec 32 :=
  if t < 16 then wordAt block t
  else smallSigma1 (schedule block (t - 2)) + schedule block (t - 7) +
    smallSigma0 (schedule block (t - 15)) + schedule block (t - 16)
  termination_by t

/-- One round, with its constant and its word of the schedule. -/
def round (v : Words) (k w : BitVec 32) : Words :=
  let t1 := v.h + bigSigma1 v.e + ch v.e v.f v.g + k + w
  let t2 := bigSigma0 v.a + maj v.a v.b v.c
  ⟨t1 + t2, v.a, v.b, v.c, v.d + t1, v.e, v.f, v.g⟩

/-- The working variables after `t` rounds. -/
def rounds (block : List UInt8) (v : Words) (t : ℕ) : Words :=
  (List.range t).foldl (fun v t => round v (roundConstants.getD t 0) (schedule block t)) v

def Words.add (v w : Words) : Words :=
  ⟨v.a + w.a, v.b + w.b, v.c + w.c, v.d + w.d, v.e + w.e, v.f + w.f, v.g + w.g, v.h + w.h⟩

/-- The hash value after one more block. -/
def compress (hash : Words) (block : List UInt8) : Words := hash.add (rounds block hash 64)

/-- The bytes of a 64-bit number, most significant first. -/
def bytes64 (n : ℕ) : List UInt8 := (List.range 8).map fun i => UInt8.ofNat (n / 256 ^ (7 - i))

/-- How many zeros fill the last block, behind the byte with the one bit. -/
def zeros (length : ℕ) : ℕ := (119 - length % 64) % 64

/-- The message, a one bit, zeros, and the length of the message in bits. -/
def pad (message : List UInt8) : List UInt8 :=
  message ++ 128 :: (List.replicate (zeros message.length) 0 ++ bytes64 (8 * message.length))

/-- The blocks of 64 bytes. -/
def blocks (bytes : List UInt8) : List (List UInt8) :=
  (List.range (bytes.length / 64)).map fun i => (bytes.drop (64 * i)).take 64

def digest (message : List UInt8) : Words := (blocks (pad message)).foldl compress initial

def Words.toList (v : Words) : List (BitVec 32) := [v.a, v.b, v.c, v.d, v.e, v.f, v.g, v.h]

/-- The value of a lower-case hexadecimal digit. -/
def hexValue (c : UInt8) : Option ℕ :=
  if 48 ≤ c ∧ c ≤ 57 then some (c.toNat - 48)
  else if 97 ≤ c ∧ c ≤ 102 then some (c.toNat - 87) else none

/-- The value of a string of such digits. -/
def readHex (digits : List UInt8) : Option ℕ :=
  digits.foldl (fun n c => n.bind fun n => (hexValue c).map fun d => 16 * n + d) (some 0)

variable {message bytes left right : List UInt8}

theorem bytes64_length (n : ℕ) : (bytes64 n).length = 8 := rfl

/-- Whole blocks in front are blocks of their own. -/
theorem blocks_append (h : 64 ∣ left.length) (right : List UInt8) :
    blocks (left ++ right) = blocks left ++ blocks right := by
  obtain ⟨n, hn⟩ := h
  have hcount : (left ++ right).length / 64 = n + right.length / 64 := by
    rw [List.length_append, hn]
    omega
  have hleft : left.length / 64 = n := by omega
  rw [blocks, hcount, List.range_add, List.map_append, blocks, hleft, blocks]
  congr 1
  · apply List.map_congr_left
    intro i hi
    have hi' : i < n := List.mem_range.mp hi
    rw [List.drop_append_of_le_length (by omega), List.take_append_of_le_length]
    rw [List.length_drop]
    omega
  · rw [List.map_map]
    apply List.map_congr_left
    intro i _
    have hdrop : 64 * (n + i) = left.length + 64 * i := by omega
    rw [Function.comp_apply, hdrop, List.drop_length_add_append]

theorem blocks_one (h : bytes.length = 64) : blocks bytes = [bytes] := by
  simp [blocks, h]

end Sha256
