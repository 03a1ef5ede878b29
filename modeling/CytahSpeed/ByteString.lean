import Mathlib.Data.List.Lex
import Mathlib.Data.Vector.Basic
import Mathlib.Order.Lattice

/-!
# Fixed-length byte strings and little-endian words

`Bytes n` is the array type `[u8; n]`, ordered lexicographically byte by byte as slices are.
`leBytes k` is the `k`-byte little-endian encoding of a natural number; it is injective on the
numbers that fit. Concatenations of pieces of fixed length can be cut in one way only, which is
what a hash preimage relies on.
-/

namespace ByteString

/-- `[u8; n]`. -/
abbrev Bytes (n : ℕ) := List.Vector UInt8 n

namespace Bytes

variable {n : ℕ}

def zero (n : ℕ) : Bytes n := List.Vector.replicate n 0

/-- The array filled with one byte, as in `[b; n]`. -/
def fill (n : ℕ) (b : UInt8) : Bytes n := List.Vector.replicate n b

@[simp] theorem length_toList (b : Bytes n) : b.toList.length = n := List.Vector.toList_length b

theorem map_toNat_injective :
    Function.Injective (fun b : Bytes n => b.toList.map UInt8.toNat) := by
  intro a b hab
  apply List.Vector.toList_injective
  exact List.map_injective_iff.mpr (fun x y hxy => UInt8.toNat_inj.mp hxy) hab

/-- Slices of bytes compare lexicographically. -/
instance : LinearOrder (Bytes n) :=
  { PartialOrder.lift (fun b : Bytes n => b.toList.map UInt8.toNat) map_toNat_injective with
    le_total := fun a b => le_total (a.toList.map UInt8.toNat) (b.toList.map UInt8.toNat)
    toDecidableLE := fun a b =>
      inferInstanceAs (Decidable (a.toList.map UInt8.toNat ≤ b.toList.map UInt8.toNat))
    toDecidableLT := fun a b =>
      inferInstanceAs (Decidable (a.toList.map UInt8.toNat < b.toList.map UInt8.toNat))
    toDecidableEq := inferInstanceAs (DecidableEq (List.Vector UInt8 n)) }

/-- The sub-slice `b[i..i + k]`. -/
def slice (b : Bytes n) (i k : ℕ) (h : i + k ≤ n) : Bytes k :=
  ⟨(b.toList.drop i).take k, by simp; omega⟩

end Bytes

@[reducible] def lexOrder : LinearOrder (List UInt8) :=
  { PartialOrder.lift (List.map UInt8.toNat)
      (List.map_injective_iff.mpr fun _ _ hxy => UInt8.toNat_inj.mp hxy) with
    le_total := fun a b => le_total (a.map UInt8.toNat) (b.map UInt8.toNat)
    toDecidableLE := fun a b =>
      inferInstanceAs (Decidable (a.map UInt8.toNat ≤ b.map UInt8.toNat))
    toDecidableLT := fun a b =>
      inferInstanceAs (Decidable (a.map UInt8.toNat < b.map UInt8.toNat))
    toDecidableEq := inferInstanceAs (DecidableEq (List UInt8))
    toOrd :=
      ⟨fun a b => if a.map UInt8.toNat < b.map UInt8.toNat then .lt else if a = b then .eq else .gt⟩
    compare_eq_compareOfLessAndEq := fun _ _ => rfl }

def hexDigits : List Char :=
  ['0', '1', '2', '3', '4', '5', '6', '7', '8', '9', 'a', 'b', 'c', 'd', 'e', 'f']

/-- Lower-case hexadecimal text, two digits a byte. -/
def hexEncode (l : List UInt8) : String :=
  String.ofList (l.flatMap fun b =>
    [hexDigits.getD (b.toNat / 16) '0', hexDigits.getD (b.toNat % 16) '0'])

theorem getD_hexDigits_inj : ∀ m < 16, ∀ n < 16,
    hexDigits.getD m '0' = hexDigits.getD n '0' → m = n := by
  decide

theorem hexEncode_injective : Function.Injective hexEncode := by
  intro l l' h
  have hl := String.ofList_inj.mp h
  clear h
  induction l generalizing l' with
  | nil =>
    cases l' with
    | nil => rfl
    | cons b l' => simp at hl
  | cons a l ih =>
    cases l' with
    | nil => simp at hl
    | cons b l' =>
      rw [List.flatMap_cons, List.flatMap_cons] at hl
      obtain ⟨hdigits, htail⟩ := List.append_inj hl rfl
      simp only [List.cons.injEq, and_true] at hdigits
      have ha := a.toNat_lt
      have hb := b.toNat_lt
      have hhigh := getD_hexDigits_inj _ (by omega) _ (by omega) hdigits.1
      have hlow := getD_hexDigits_inj _ (by omega) _ (by omega) hdigits.2
      rw [ih htail, UInt8.toNat_inj.mp (by omega : a.toNat = b.toNat)]

/-- Little-endian encoding in `k` bytes, as `to_le_bytes` of a `k`-byte integer. -/
def leBytes : ℕ → ℕ → List UInt8
  | 0, _ => []
  | k + 1, n => UInt8.ofNat n :: leBytes k (n / 256)

@[simp] theorem length_leBytes (k n : ℕ) : (leBytes k n).length = k := by
  induction k generalizing n with
  | zero => rfl
  | succ k ih => simp [leBytes, ih]

theorem leBytes_injOn (k m n : ℕ) (hm : m < 256 ^ k) (hn : n < 256 ^ k)
    (h : leBytes k m = leBytes k n) : m = n := by
  induction k generalizing m n with
  | zero => simp only [pow_zero, Nat.lt_one_iff] at hm hn; omega
  | succ k ih =>
    simp only [leBytes, List.cons.injEq] at h
    have hlow : m % 256 = n % 256 := by
      have h8 := congrArg UInt8.toNat h.1
      simpa using h8
    have hhigh : m / 256 = n / 256 := by
      apply ih _ _ _ _ h.2
      · exact Nat.div_lt_of_lt_mul (by rwa [pow_succ, mul_comm] at hm)
      · exact Nat.div_lt_of_lt_mul (by rwa [pow_succ, mul_comm] at hn)
    omega

def le64 (x : UInt64) : List UInt8 := leBytes 8 x.toNat

def le32 (x : UInt32) : List UInt8 := leBytes 4 x.toNat

@[simp] theorem length_le64 (x : UInt64) : (le64 x).length = 8 := length_leBytes 8 _

@[simp] theorem length_le32 (x : UInt32) : (le32 x).length = 4 := length_leBytes 4 _

theorem le64_injective : Function.Injective le64 := by
  intro x y hxy
  apply UInt64.toNat_inj.mp
  exact leBytes_injOn 8 _ _ x.toNat_lt y.toNat_lt hxy

theorem le32_injective : Function.Injective le32 := by
  intro x y hxy
  apply UInt32.toNat_inj.mp
  exact leBytes_injOn 4 _ _ x.toNat_lt y.toNat_lt hxy

theorem flatMap_toList_injective {n : ℕ} (hn : 0 < n) :
    Function.Injective (fun l : List (Bytes n) => l.flatMap List.Vector.toList) := by
  intro l
  induction l with
  | nil =>
    intro l' h
    cases l' with
    | nil => rfl
    | cons b bs =>
      have hlen := congrArg List.length h
      simp at hlen
      omega
  | cons a as ih =>
    intro l' h
    cases l' with
    | nil =>
      have hlen := congrArg List.length h
      simp at hlen
      omega
    | cons b bs =>
      simp only [List.flatMap_cons] at h
      obtain ⟨hab, hrest⟩ := List.append_inj h (by simp)
      rw [List.Vector.toList_injective hab, ih hrest]

end ByteString
