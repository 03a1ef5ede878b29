import CytahSpeed.ByteString

/-!
# SHA-256

An executable rendering of FIPS 180-4 on natural-number words. Everything that is proved about
the program holds for an arbitrary digest function; this one is what concrete runs evaluate, so
that a witness or a counterexample is about the digests the program really computes.
-/

namespace Sha256
open ByteString

def roundConstants : List ℕ :=
  [0x428a2f98, 0x71374491, 0xb5c0fbcf, 0xe9b5dba5, 0x3956c25b, 0x59f111f1, 0x923f82a4, 0xab1c5ed5,
   0xd807aa98, 0x12835b01, 0x243185be, 0x550c7dc3, 0x72be5d74, 0x80deb1fe, 0x9bdc06a7, 0xc19bf174,
   0xe49b69c1, 0xefbe4786, 0x0fc19dc6, 0x240ca1cc, 0x2de92c6f, 0x4a7484aa, 0x5cb0a9dc, 0x76f988da,
   0x983e5152, 0xa831c66d, 0xb00327c8, 0xbf597fc7, 0xc6e00bf3, 0xd5a79147, 0x06ca6351, 0x14292967,
   0x27b70a85, 0x2e1b2138, 0x4d2c6dfc, 0x53380d13, 0x650a7354, 0x766a0abb, 0x81c2c92e, 0x92722c85,
   0xa2bfe8a1, 0xa81a664b, 0xc24b8b70, 0xc76c51a3, 0xd192e819, 0xd6990624, 0xf40e3585, 0x106aa070,
   0x19a4c116, 0x1e376c08, 0x2748774c, 0x34b0bcb5, 0x391c0cb3, 0x4ed8aa4a, 0x5b9cca4f, 0x682e6ff3,
   0x748f82ee, 0x78a5636f, 0x84c87814, 0x8cc70208, 0x90befffa, 0xa4506ceb, 0xbef9a3f7, 0xc67178f2]

structure Chain where
  a : ℕ
  b : ℕ
  c : ℕ
  d : ℕ
  e : ℕ
  f : ℕ
  g : ℕ
  h : ℕ

def initial : Chain :=
  ⟨0x6a09e667, 0xbb67ae85, 0x3c6ef372, 0xa54ff53a, 0x510e527f, 0x9b05688c, 0x1f83d9ab, 0x5be0cd19⟩

def add32 (x y : ℕ) : ℕ := (x + y) % 4294967296

def rotr (k x : ℕ) : ℕ := (x >>> k) ||| ((x <<< (32 - k)) % 4294967296)

def bigSigma0 (x : ℕ) : ℕ := rotr 2 x ^^^ rotr 13 x ^^^ rotr 22 x

def bigSigma1 (x : ℕ) : ℕ := rotr 6 x ^^^ rotr 11 x ^^^ rotr 25 x

def smallSigma0 (x : ℕ) : ℕ := rotr 7 x ^^^ rotr 18 x ^^^ (x >>> 3)

def smallSigma1 (x : ℕ) : ℕ := rotr 17 x ^^^ rotr 19 x ^^^ (x >>> 10)

def choose (x y z : ℕ) : ℕ := (x &&& y) ^^^ ((4294967295 ^^^ x) &&& z)

def majority (x y z : ℕ) : ℕ := (x &&& y) ^^^ (x &&& z) ^^^ (y &&& z)

def round (s : Chain) (k w : ℕ) : Chain :=
  let t₁ := (s.h + bigSigma1 s.e + choose s.e s.f s.g + k + w) % 4294967296
  let t₂ := (bigSigma0 s.a + majority s.a s.b s.c) % 4294967296
  ⟨add32 t₁ t₂, s.a, s.b, s.c, add32 s.d t₁, s.e, s.f, s.g⟩

/-- The rounds over a sliding window of sixteen schedule words: the head is the word of this
round and the word sixteen rounds ahead is appended. -/
def rounds : List ℕ → List ℕ → Chain → Chain
  | k :: ks, w :: ws, s =>
    let ahead := (smallSigma1 ((ws.drop 13).headD 0) + (ws.drop 8).headD 0 +
      smallSigma0 (ws.headD 0) + w) % 4294967296
    rounds ks (ws ++ [ahead]) (round s k w)
  | _, _, s => s

def compress (s : Chain) (block : List ℕ) : Chain :=
  let r := rounds roundConstants block s
  ⟨add32 s.a r.a, add32 s.b r.b, add32 s.c r.c, add32 s.d r.d,
    add32 s.e r.e, add32 s.f r.f, add32 s.g r.g, add32 s.h r.h⟩

def absorb : ℕ → Chain → List ℕ → Chain
  | 0, s, _ => s
  | k + 1, s, ws => absorb k (compress s (ws.take 16)) (ws.drop 16)

def beBytes : ℕ → ℕ → List UInt8
  | 0, _ => []
  | k + 1, n => beBytes k (n / 256) ++ [UInt8.ofNat n]

@[simp] theorem length_beBytes (k n : ℕ) : (beBytes k n).length = k := by
  induction k generalizing n with
  | zero => rfl
  | succ k ih => simp [beBytes, ih]

/-- The message, a set bit, zeros up to the last eight bytes of a block, and the bit length. -/
def pad (m : List UInt8) : List UInt8 :=
  m ++ 0x80 :: List.replicate ((119 - m.length % 64) % 64) 0 ++ beBytes 8 (8 * m.length)

def toWords : List UInt8 → List ℕ
  | b₀ :: b₁ :: b₂ :: b₃ :: rest =>
    (((b₀.toNat * 256 + b₁.toNat) * 256 + b₂.toNat) * 256 + b₃.toNat) :: toWords rest
  | _ => []

def Chain.digest (s : Chain) : Bytes 32 :=
  ⟨[s.a, s.b, s.c, s.d, s.e, s.f, s.g, s.h].flatMap (beBytes 4), by simp⟩

def hash (m : List UInt8) : Bytes 32 :=
  let ws := toWords (pad m)
  (absorb (ws.length / 16) initial ws).digest

set_option maxRecDepth 20000 in
example : (hash [0x61, 0x62, 0x63]).toList.take 4 = [0xba, 0x78, 0x16, 0xbf] := by decide +kernel

end Sha256
