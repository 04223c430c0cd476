import ProcessManager.Library.Sha256
import ProcessManager.HandshakeHash

/-! `sha256_hash` of `process.c`. -/
namespace ProcessManager

def shaCh (x y z : UInt32) : UInt32 := (x &&& y) ^^^ (~~~x &&& z)

def shaMaj (x y z : UInt32) : UInt32 := (x &&& y) ^^^ (x &&& z) ^^^ (y &&& z)

def sha256Shr (bits word : UInt32) : UInt32 := word >>> bits

def sha256Rotr (bits word : UInt32) : UInt32 := (word >>> bits) ||| (word <<< (32 - bits))

def sha256Bsig0 (word : UInt32) : UInt32 :=
  sha256Rotr 2 word ^^^ sha256Rotr 13 word ^^^ sha256Rotr 22 word

def sha256Bsig1 (word : UInt32) : UInt32 :=
  sha256Rotr 6 word ^^^ sha256Rotr 11 word ^^^ sha256Rotr 25 word

def sha256Ssig0 (word : UInt32) : UInt32 :=
  sha256Rotr 7 word ^^^ sha256Rotr 18 word ^^^ sha256Shr 3 word

def sha256Ssig1 (word : UInt32) : UInt32 :=
  sha256Rotr 17 word ^^^ sha256Rotr 19 word ^^^ sha256Shr 10 word

/-- `SHA256_H0`. -/
def sha256H0 : List UInt32 :=
  [0x6A09E667, 0xBB67AE85, 0x3C6EF372, 0xA54FF53A, 0x510E527F, 0x9B05688C, 0x1F83D9AB, 0x5BE0CD19]

/-- The array `K`. -/
def sha256K : List UInt32 :=
  [0x428a2f98, 0x71374491, 0xb5c0fbcf, 0xe9b5dba5, 0x3956c25b, 0x59f111f1, 0x923f82a4, 0xab1c5ed5,
    0xd807aa98, 0x12835b01, 0x243185be, 0x550c7dc3, 0x72be5d74, 0x80deb1fe, 0x9bdc06a7, 0xc19bf174,
    0xe49b69c1, 0xefbe4786, 0x0fc19dc6, 0x240ca1cc, 0x2de92c6f, 0x4a7484aa, 0x5cb0a9dc, 0x76f988da,
    0x983e5152, 0xa831c66d, 0xb00327c8, 0xbf597fc7, 0xc6e00bf3, 0xd5a79147, 0x06ca6351, 0x14292967,
    0x27b70a85, 0x2e1b2138, 0x4d2c6dfc, 0x53380d13, 0x650a7354, 0x766a0abb, 0x81c2c92e, 0x92722c85,
    0xa2bfe8a1, 0xa81a664b, 0xc24b8b70, 0xc76c51a3, 0xd192e819, 0xd6990624, 0xf40e3585, 0x106aa070,
    0x19a4c116, 0x1e376c08, 0x2748774c, 0x34b0bcb5, 0x391c0cb3, 0x4ed8aa4a, 0x5b9cca4f, 0x682e6ff3,
    0x748f82ee, 0x78a5636f, 0x84c87814, 0x8cc70208, 0x90befffa, 0xa4506ceb, 0xbef9a3f7, 0xc67178f2]

/-- `sha256_init`. -/
def sha256Init : List UInt32 := sha256H0

/-- `w[t]` of `sha256_process`, from the block and the words before it. -/
def scheduleWord (messageBlock : List UInt8) (w : List UInt32) (t : ℕ) : UInt32 :=
  if t < 16 then
    (messageBlock.getD (4 * t) 0).toUInt32 <<< 24 |||
      (messageBlock.getD (4 * t + 1) 0).toUInt32 <<< 16 |||
      (messageBlock.getD (4 * t + 2) 0).toUInt32 <<< 8 |||
      (messageBlock.getD (4 * t + 3) 0).toUInt32
  else
    sha256Ssig1 (w.getD (t - 2) 0) + w.getD (t - 7) 0 + sha256Ssig0 (w.getD (t - 15) 0) +
      w.getD (t - 16) 0

/-- The working variables of `sha256_process`. -/
structure Working where
  a : UInt32
  b : UInt32
  c : UInt32
  d : UInt32
  e : UInt32
  f : UInt32
  g : UInt32
  h : UInt32
  deriving DecidableEq

/-- One round of the main computation. -/
def hashRound (w : List UInt32) (v : Working) (t : ℕ) : Working :=
  let t1 := v.h + sha256Bsig1 v.e + shaCh v.e v.f v.g + sha256K.getD t 0 + w.getD t 0
  let t2 := sha256Bsig0 v.a + shaMaj v.a v.b v.c
  let h := v.g
  let g := v.f
  let f := v.e
  let e := v.d + t1
  let d := v.c
  let c := v.b
  let b := v.a
  let a := t1 + t2
  ⟨a, b, c, d, e, f, g, h⟩

/-- `sha256_process` on the 64 bytes of a block. -/
def sha256Process (messageBlock : List UInt8) (hash : List UInt32) : List UInt32 :=
  let w := (List.range 64).foldl (fun w t => w ++ [scheduleWord messageBlock w t]) []
  let v : Working := ⟨hash.getD 0 0, hash.getD 1 0, hash.getD 2 0, hash.getD 3 0, hash.getD 4 0,
    hash.getD 5 0, hash.getD 6 0, hash.getD 7 0⟩
  let v := (List.range 64).foldl (hashRound w) v
  [hash.getD 0 0 + v.a, hash.getD 1 0 + v.b, hash.getD 2 0 + v.c, hash.getD 3 0 + v.d,
    hash.getD 4 0 + v.e, hash.getD 5 0 + v.f, hash.getD 6 0 + v.g, hash.getD 7 0 + v.h]

/-- `nbyte * 8 >> (64 - shift) & 0xFF`. -/
def lengthByte (nbyte : UInt64) (shift : UInt64) : UInt8 :=
  ((nbyte * 8) >>> (64 - shift) &&& 0xFF).toUInt8

/-- `sha256_process_final`. -/
def sha256ProcessFinal (nbyte : UInt64) (leftoverBytes : ℕ) (lastBlock : List UInt8)
    (hash : List UInt32) : List UInt32 :=
  let lastBlock := lastBlock.set leftoverBytes ((1 : UInt8) <<< 7)
  let (lastBlock, hash) :=
    if leftoverBytes > 64 - 8 - 1 then (List.replicate 64 0, sha256Process lastBlock hash)
    else (lastBlock, hash)
  let lastBlock := lastBlock.set 56 (lengthByte nbyte 8)
  let lastBlock := lastBlock.set 57 (lengthByte nbyte 16)
  let lastBlock := lastBlock.set 58 (lengthByte nbyte 24)
  let lastBlock := lastBlock.set 59 (lengthByte nbyte 32)
  let lastBlock := lastBlock.set 60 (lengthByte nbyte 40)
  let lastBlock := lastBlock.set 61 (lengthByte nbyte 48)
  let lastBlock := lastBlock.set 62 (lengthByte nbyte 56)
  let lastBlock := lastBlock.set 63 (lengthByte nbyte 64)
  sha256Process lastBlock hash

/-- A digit of `%x`. -/
def hexDigit (n : ℕ) : UInt8 := if n < 10 then UInt8.ofNat (48 + n) else UInt8.ofNat (87 + n)

/-- `%08x`. -/
def hexWord (word : UInt32) : List UInt8 :=
  (List.range 8).map fun i => hexDigit (word.toNat / 16 ^ (7 - i) % 16)

/-- `uint32_array_to_hex_string`, without the terminator. -/
def uint32ArrayToHexString (words : List UInt32) : List UInt8 := words.flatMap hexWord

/-- `sha256_hash` of the first `nbyte` bytes of `buf`, as its hexadecimal string. -/
def sha256Hash (buf : List UInt8) (nbyte : UInt64) : List UInt8 :=
  let leftoverBytes := (nbyte % 64).toNat
  let numBlocks := if leftoverBytes = 0 then nbyte / 64 else nbyte / 64 + 1
  let whole := (if leftoverBytes = 0 then numBlocks else numBlocks - 1).toNat
  let hash := (List.range whole).foldl
    (fun hash i => sha256Process ((buf.drop (i * 64)).take 64) hash) sha256Init
  let lastBlock : List UInt8 := List.replicate 64 0
  let lastBlock :=
    if leftoverBytes ≠ 0 then
      (buf.drop (whole * 64)).take leftoverBytes ++ lastBlock.drop leftoverBytes
    else lastBlock
  uint32ArrayToHexString (sha256ProcessFinal nbyte leftoverBytes lastBlock hash)

end ProcessManager
