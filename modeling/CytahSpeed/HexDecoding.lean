import CytahSpeed.ByteString

/-!
# Decoding hexadecimal text

`hexDecode` reads two digits a byte, in either case, from the UTF-8 bytes of a text; the length is
checked first and the first byte that is no digit is reported with its position. It undoes
`hexEncode`.
-/

namespace ByteString

inductive FromHexError
  | invalidHexCharacter (c : UInt8) (index : ℕ)
  | oddLength
  deriving DecidableEq

def digitValue (c : UInt8) : Option ℕ :=
  if 65 ≤ c ∧ c ≤ 70 then some (c.toNat - 55)
  else if 97 ≤ c ∧ c ≤ 102 then some (c.toNat - 87)
  else if 48 ≤ c ∧ c ≤ 57 then some (c.toNat - 48)
  else none

def hexValue (c : UInt8) (index : ℕ) : Except FromHexError ℕ :=
  match digitValue c with
  | some n => .ok n
  | none => .error (.invalidHexCharacter c index)

/-- Two digits a byte, from the given position on. -/
def decodePairs : ℕ → List UInt8 → Except FromHexError (List UInt8)
  | index, high :: low :: rest => do
    let high ← hexValue high index
    let low ← hexValue low (index + 1)
    let rest ← decodePairs (index + 2) rest
    return UInt8.ofNat (16 * high + low) :: rest
  | _, _ => return []

def utf8Bytes (s : String) : List UInt8 := s.toUTF8.data.toList

def hexDecode (s : String) : Except FromHexError (List UInt8) :=
  if (utf8Bytes s).length % 2 ≠ 0 then .error .oddLength else decodePairs 0 (utf8Bytes s)

theorem utf8Bytes_ofList (l : List Char) :
    utf8Bytes (String.ofList l) = l.flatMap String.utf8EncodeChar := by
  rw [utf8Bytes, String.toUTF8_eq_toByteArray, String.toByteArray_ofList, List.utf8Encode,
    List.data_toByteArray]

def digitCode (n : ℕ) : UInt8 := if n < 10 then UInt8.ofNat (48 + n) else UInt8.ofNat (87 + n)

theorem utf8EncodeChar_digit : ∀ n < 16,
    String.utf8EncodeChar (hexDigits.getD n '0') = [digitCode n] := by
  decide

theorem digitValue_digitCode : ∀ n < 16, digitValue (digitCode n) = some n := by
  decide

theorem hexValue_digitCode (index : ℕ) {n : ℕ} (h : n < 16) :
    hexValue (digitCode n) index = .ok n := by
  simp only [hexValue, digitValue_digitCode n h]

theorem utf8Bytes_hexEncode (l : List UInt8) :
    utf8Bytes (hexEncode l) =
      l.flatMap fun b => [digitCode (b.toNat / 16), digitCode (b.toNat % 16)] := by
  rw [hexEncode, utf8Bytes_ofList, List.flatMap_assoc]
  apply List.flatMap_congr
  intro b _
  have hb := b.toNat_lt
  rw [List.flatMap_cons, List.flatMap_singleton, utf8EncodeChar_digit _ (by omega),
    utf8EncodeChar_digit _ (by omega)]
  rfl

theorem decodePairs_digitCodes (l : List UInt8) (index : ℕ) :
    decodePairs index (l.flatMap fun b =>
      [digitCode (b.toNat / 16), digitCode (b.toNat % 16)]) = .ok l := by
  induction l generalizing index with
  | nil => rfl
  | cons b l ih =>
    have hb := b.toNat_lt
    have hbyte : UInt8.ofNat (16 * (b.toNat / 16) + b.toNat % 16) = b := by
      rw [Nat.div_add_mod, UInt8.ofNat_toNat]
    rw [List.flatMap_cons, List.cons_append, List.cons_append, List.nil_append, decodePairs,
      hexValue_digitCode index (by omega), hexValue_digitCode (index + 1) (by omega)]
    simp only [ih, bind, Except.bind, pure, Except.pure, hbyte]

theorem hexDecode_hexEncode (l : List UInt8) : hexDecode (hexEncode l) = .ok l := by
  have heven : (utf8Bytes (hexEncode l)).length % 2 = 0 := by
    rw [utf8Bytes_hexEncode, List.length_flatMap]
    simp
  rw [hexDecode, if_neg (by omega), utf8Bytes_hexEncode, decodePairs_digitCodes]

end ByteString
