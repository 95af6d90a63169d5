import Nsmt.Lib.Bytes

/-!
# SHA-256

The hash function, written so that the kernel can evaluate it. Results about
the program take the hash as a parameter; this is the one it runs with, and
concrete runs are computed with it.
-/

namespace Nsmt.Lib.Sha256

def roundConstants : List UInt32 :=
  [0x428a2f98, 0x71374491, 0xb5c0fbcf, 0xe9b5dba5, 0x3956c25b, 0x59f111f1, 0x923f82a4, 0xab1c5ed5,
   0xd807aa98, 0x12835b01, 0x243185be, 0x550c7dc3, 0x72be5d74, 0x80deb1fe, 0x9bdc06a7, 0xc19bf174,
   0xe49b69c1, 0xefbe4786, 0x0fc19dc6, 0x240ca1cc, 0x2de92c6f, 0x4a7484aa, 0x5cb0a9dc, 0x76f988da,
   0x983e5152, 0xa831c66d, 0xb00327c8, 0xbf597fc7, 0xc6e00bf3, 0xd5a79147, 0x06ca6351, 0x14292967,
   0x27b70a85, 0x2e1b2138, 0x4d2c6dfc, 0x53380d13, 0x650a7354, 0x766a0abb, 0x81c2c92e, 0x92722c85,
   0xa2bfe8a1, 0xa81a664b, 0xc24b8b70, 0xc76c51a3, 0xd192e819, 0xd6990624, 0xf40e3585, 0x106aa070,
   0x19a4c116, 0x1e376c08, 0x2748774c, 0x34b0bcb5, 0x391c0cb3, 0x4ed8aa4a, 0x5b9cca4f, 0x682e6ff3,
   0x748f82ee, 0x78a5636f, 0x84c87814, 0x8cc70208, 0x90befffa, 0xa4506ceb, 0xbef9a3f7, 0xc67178f2]

structure State where
  a : UInt32
  b : UInt32
  c : UInt32
  d : UInt32
  e : UInt32
  f : UInt32
  g : UInt32
  h : UInt32

def State.initial : State where
  a := 0x6a09e667
  b := 0xbb67ae85
  c := 0x3c6ef372
  d := 0xa54ff53a
  e := 0x510e527f
  f := 0x9b05688c
  g := 0x1f83d9ab
  h := 0x5be0cd19

def State.add (s t : State) : State :=
  ⟨s.a + t.a, s.b + t.b, s.c + t.c, s.d + t.d, s.e + t.e, s.f + t.f, s.g + t.g, s.h + t.h⟩

def rotateRight (x n : UInt32) : UInt32 := (x >>> n) ||| (x <<< (32 - n))

/-- One round, from a round constant and a word of the schedule. -/
def round (s : State) (kw : UInt32 × UInt32) : State :=
  let sum1 := rotateRight s.e 6 ^^^ rotateRight s.e 11 ^^^ rotateRight s.e 25
  let choose := (s.e &&& s.f) ^^^ (~~~s.e &&& s.g)
  let t1 := s.h + sum1 + choose + kw.1 + kw.2
  let sum0 := rotateRight s.a 2 ^^^ rotateRight s.a 13 ^^^ rotateRight s.a 22
  let majority := (s.a &&& s.b) ^^^ (s.a &&& s.c) ^^^ (s.b &&& s.c)
  ⟨t1 + (sum0 + majority), s.a, s.b, s.c, s.d + t1, s.e, s.f, s.g⟩

/-- The message schedule, from a window of sixteen words. -/
def schedule : Nat → List UInt32 → List UInt32
  | n + 1, w0 :: rest =>
    let w1 := rest[0]?.getD 0
    let w14 := rest[13]?.getD 0
    let sigma0 := rotateRight w1 7 ^^^ rotateRight w1 18 ^^^ (w1 >>> 3)
    let sigma1 := rotateRight w14 17 ^^^ rotateRight w14 19 ^^^ (w14 >>> 10)
    w0 :: schedule n (rest ++ [w0 + sigma0 + rest[8]?.getD 0 + sigma1])
  | _, window => window

/-- The first `n` big-endian words of a byte string. -/
def words : Nat → Bytes → List UInt32
  | 0, _ => []
  | n + 1, bytes => UInt32.ofNat (ofLe (bytes.take 4).reverse) :: words n (bytes.drop 4)

def compress (s : State) (block : Bytes) : State :=
  s.add ((List.zip roundConstants (schedule 48 (words 16 block))).foldl round s)

def compressAll : Nat → State → Bytes → State
  | 0, s, _ => s
  | n + 1, s, bytes => compressAll n (compress s (bytes.take 64)) (bytes.drop 64)

def pad (msg : Bytes) : Bytes :=
  msg ++ [0x80] ++ List.replicate ((119 - msg.length % 64) % 64) 0 ++ (le 8 (8 * msg.length)).reverse

def bigEndian (x : UInt32) : Bytes := (le 4 x.toNat).reverse

def hash (msg : Bytes) : Bytes :=
  let s := compressAll ((pad msg).length / 64) .initial (pad msg)
  [s.a, s.b, s.c, s.d, s.e, s.f, s.g, s.h].flatMap bigEndian

theorem length_hash (msg : Bytes) : (hash msg).length = 32 := by
  simp [hash, bigEndian]

end Nsmt.Lib.Sha256
