import CytahSpeed.ByteString

/-!
# Keccak-256

An executable rendering of the Keccak sponge with a rate of 136 bytes and the padding of the
original submission, on natural-number lanes. As with SHA-256, what is proved holds for an
arbitrary digest function, and this one is what concrete runs evaluate.
-/

namespace Keccak
open ByteString

def roundConstants : List ℕ :=
  [0x0000000000000001, 0x0000000000008082, 0x800000000000808a, 0x8000000080008000,
   0x000000000000808b, 0x0000000080000001, 0x8000000080008081, 0x8000000000008009,
   0x000000000000008a, 0x0000000000000088, 0x0000000080008009, 0x000000008000000a,
   0x000000008000808b, 0x800000000000008b, 0x8000000000008089, 0x8000000000008003,
   0x8000000000008002, 0x8000000000000080, 0x000000000000800a, 0x800000008000000a,
   0x8000000080008081, 0x8000000000008080, 0x0000000080000001, 0x8000000080008008]

/-- The rotation of the lane at `x + 5 * y`. -/
def offsets : List ℕ :=
  [0, 1, 62, 28, 27, 36, 44, 6, 55, 20, 3, 10, 43, 25, 39, 41, 45, 15, 21, 8, 18, 2, 61, 56, 14]

def rotl (k x : ℕ) : ℕ := ((x <<< k) % 18446744073709551616) ||| (x >>> (64 - k))

def lane (a : List ℕ) (x y : ℕ) : ℕ := a.getD (x % 5 + 5 * (y % 5)) 0

def build (f : ℕ → ℕ → ℕ) : List ℕ := (List.range 25).map fun i => f (i % 5) (i / 5)

def theta (a : List ℕ) : List ℕ :=
  let parity := (List.range 5).map fun x =>
    lane a x 0 ^^^ lane a x 1 ^^^ lane a x 2 ^^^ lane a x 3 ^^^ lane a x 4
  build fun x y =>
    lane a x y ^^^ parity.getD ((x + 4) % 5) 0 ^^^ rotl 1 (parity.getD ((x + 1) % 5) 0)

def rhoPi (a : List ℕ) : List ℕ :=
  build fun x y => rotl (lane offsets (x + 3 * y) x) (lane a (x + 3 * y) x)

def chi (a : List ℕ) : List ℕ :=
  build fun x y =>
    lane a x y ^^^ ((18446744073709551615 ^^^ lane a (x + 1) y) &&& lane a (x + 2) y)

def iota (constant : ℕ) : List ℕ → List ℕ
  | [] => []
  | l :: ls => (l ^^^ constant) :: ls

def permute (a : List ℕ) : List ℕ :=
  roundConstants.foldl (fun a constant => iota constant (chi (rhoPi (theta a)))) a

/-- The message, a set bit, zeros, and a set bit at the end of a block of 136 bytes. -/
def pad (m : List UInt8) : List UInt8 :=
  let zeros := 135 - m.length % 136
  if zeros = 0 then m ++ [0x81] else m ++ 0x01 :: List.replicate (zeros - 1) 0 ++ [0x80]

def toLanes : List UInt8 → List ℕ
  | b₀ :: b₁ :: b₂ :: b₃ :: b₄ :: b₅ :: b₆ :: b₇ :: rest =>
    [b₇, b₆, b₅, b₄, b₃, b₂, b₁, b₀].foldl (fun n b => 256 * n + b.toNat) 0 :: toLanes rest
  | _ => []

def absorb : ℕ → List ℕ → List ℕ → List ℕ
  | 0, a, _ => a
  | k + 1, a, ls =>
    absorb k (permute (List.zipWith (· ^^^ ·) a (ls.take 17 ++ List.replicate 8 0))) (ls.drop 17)

def digest (a : List ℕ) : Bytes 32 :=
  ⟨leBytes 8 (lane a 0 0) ++ leBytes 8 (lane a 1 0) ++ leBytes 8 (lane a 2 0) ++
    leBytes 8 (lane a 3 0), by simp⟩

def hash (m : List UInt8) : Bytes 32 :=
  let ls := toLanes (pad m)
  digest (absorb (ls.length / 17) (List.replicate 25 0) ls)

set_option maxRecDepth 20000 in
example : (hash []).toList.take 4 = [0xc5, 0xd2, 0x46, 0x01] := by decide +kernel

end Keccak
