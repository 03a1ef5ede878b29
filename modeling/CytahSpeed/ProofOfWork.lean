import CytahSpeed.Block
import Mathlib.Data.List.GetD

/-!
# The proof-of-work target

A hash is read as one string of bits, the most significant bit of its first byte first. The test of
`meets_difficulty`, whole bytes and then a mask on the next one, asks for that many zeros at its
beginning.
-/

namespace CytahSpeed
open ByteString

/-- The bits of the bytes, the most significant bit of each byte first. -/
def bitAt (l : List UInt8) (i : ℕ) : Bool := (l.getD (i / 8) 0).toBitVec.getMsbD (i % 8)

section Bits
variable {l : List UInt8} {b : UInt8}

theorem eq_zero_iff_bits : b = 0 ↔ ∀ j < 8, b.toBitVec.getMsbD j = false := by
  constructor
  · rintro rfl j -
    exact BitVec.getMsbD_zero
  · intro h
    apply UInt8.toBitVec_inj.mp
    apply BitVec.eq_of_getMsbD_eq
    intro j hj
    rw [h j hj]
    exact BitVec.getMsbD_zero.symm

theorem and_mask_eq_zero_iff {k : UInt8} (hk : k.toNat < 8) :
    b &&& (0xFF <<< k) = 0 ↔ ∀ j < 8 - k.toNat, b.toBitVec.getMsbD j = false := by
  have hmask : ∀ j < 8, (b &&& (0xFF <<< k)).toBitVec.getMsbD j =
      (b.toBitVec.getMsbD j && decide (j < 8 - k.toNat)) := by
    intro j hj
    have hshift : (k.toBitVec % 8).toNat = k.toNat := Nat.mod_eq_of_lt hk
    have hones : (0xFF : UInt8).toBitVec = BitVec.allOnes 8 := rfl
    rw [UInt8.toBitVec_and, UInt8.toBitVec_shiftLeft, BitVec.getMsbD_and, BitVec.shiftLeft_eq',
      hshift, BitVec.getMsbD_shiftLeft, hones, BitVec.getMsbD_allOnes]
    congr 2
    simp only [eq_iff_iff]
    omega
  rw [eq_zero_iff_bits]
  constructor
  · intro h j hj
    have hbit := h j (by omega)
    rwa [hmask j (by omega), decide_eq_true hj, Bool.and_true] at hbit
  · intro h j hj
    rw [hmask j hj]
    by_cases hlow : j < 8 - k.toNat
    · rw [h j hlow, Bool.false_and]
    · rw [decide_eq_false hlow, Bool.and_false]

theorem forall_bitAt_iff {bytes bits : ℕ} (hbytes : bytes ≤ l.length) (hbits : bits < 8) :
    (∀ i < 8 * bytes + bits, bitAt l i = false) ↔
      (∀ b ∈ l.take bytes, b = 0) ∧
        ∀ j < bits, (l.getD bytes 0).toBitVec.getMsbD j = false := by
  constructor
  · intro h
    constructor
    · intro b hb
      obtain ⟨q, hq, rfl⟩ := List.mem_iff_getElem.mp hb
      rw [List.length_take, lt_min_iff] at hq
      rw [List.getElem_take, eq_zero_iff_bits]
      intro j hj
      have hbit := h (8 * q + j) (by omega)
      have hdiv : (8 * q + j) / 8 = q := by omega
      have hmod : (8 * q + j) % 8 = j := by omega
      rwa [bitAt, hdiv, hmod, List.getD_eq_getElem _ _ hq.2] at hbit
    · intro j hj
      have hbit := h (8 * bytes + j) (by omega)
      have hdiv : (8 * bytes + j) / 8 = bytes := by omega
      have hmod : (8 * bytes + j) % 8 = j := by omega
      rwa [bitAt, hdiv, hmod] at hbit
  · rintro ⟨hzero, hrest⟩ i hi
    rw [bitAt]
    by_cases hq : i / 8 < bytes
    · have hlen : i / 8 < l.length := hq.trans_le hbytes
      have hmem : l[i / 8] ∈ l.take bytes :=
        List.mem_iff_getElem.mpr ⟨i / 8, by rw [List.length_take]; omega, List.getElem_take⟩
      rw [List.getD_eq_getElem _ _ hlen, hzero _ hmem]
      exact BitVec.getMsbD_zero
    · have heq : i / 8 = bytes := by omega
      rw [heq]
      exact hrest _ (by omega)

end Bits

namespace Mining

def StaysInRange (difficulty : UInt32) : Prop :=
  (difficulty % 8).toUInt8 > 0 → (difficulty % 8).toUInt8 ≤ 8 ∧
    (8 - (difficulty % 8).toUInt8).toNat < 8 ∧ (difficulty / 8).toNat < 32

variable {hash : BlockHash} {difficulty : UInt32}

theorem toNat_remBits (difficulty : UInt32) :
    (difficulty % 8).toUInt8.toNat = difficulty.toNat % 8 := by
  rw [UInt32.toNat_toUInt8, UInt32.toNat_mod]
  change difficulty.toNat % 8 % 256 = _
  omega

theorem toNat_zeroBytes (difficulty : UInt32) :
    (difficulty / 8).toNat = difficulty.toNat / 8 := by
  rw [UInt32.toNat_div]
  rfl

theorem remBits_pos_iff (difficulty : UInt32) :
    (difficulty % 8).toUInt8 > 0 ↔ 0 < difficulty.toNat % 8 := by
  rw [gt_iff_lt, UInt8.lt_iff_toNat_lt, toNat_remBits]
  exact Iff.rfl

theorem remBits_le (difficulty : UInt32) : (difficulty % 8).toUInt8 ≤ 8 := by
  rw [UInt8.le_iff_toNat_le, toNat_remBits]
  change _ ≤ 8
  omega

theorem toNat_shift (difficulty : UInt32) :
    (8 - (difficulty % 8).toUInt8).toNat = 8 - difficulty.toNat % 8 := by
  rw [UInt8.toNat_sub_of_le _ _ (remBits_le difficulty), toNat_remBits]
  rfl

theorem staysInRange (h : difficulty.toNat ≤ 256) : StaysInRange difficulty := by
  intro hpos
  rw [remBits_pos_iff] at hpos
  refine ⟨remBits_le difficulty, ?_, ?_⟩
  · rw [toNat_shift]
    omega
  · rw [toNat_zeroBytes]
    omega

theorem meetsDifficulty_iff_parts (h : difficulty.toNat ≤ 256) :
    meetsDifficulty hash difficulty = true ↔
      (∀ b ∈ hash.toList.take (difficulty.toNat / 8), b = 0) ∧
        ∀ j < difficulty.toNat % 8,
          (hash.toList.getD (difficulty.toNat / 8) 0).toBitVec.getMsbD j = false := by
  by_cases hzero : difficulty = 0
  · rw [hzero]
    refine iff_of_true rfl ⟨fun b hb => ?_, fun j hj => ?_⟩
    · cases hb
    · exact absurd hj (Nat.not_lt_zero j)
  · unfold meetsDifficulty
    rw [if_neg hzero]
    dsimp only
    rw [toNat_zeroBytes]
    by_cases hany : (hash.toList.take (difficulty.toNat / 8)).any (· ≠ 0) = true
    · rw [if_pos hany]
      obtain ⟨b, hb, hne⟩ := List.any_eq_true.mp hany
      exact iff_of_false Bool.false_ne_true fun hall => of_decide_eq_true hne (hall.1 b hb)
    · rw [if_neg hany]
      have hall : ∀ b ∈ hash.toList.take (difficulty.toNat / 8), b = 0 := by
        intro b hb
        by_contra hne
        exact hany (List.any_eq_true.mpr ⟨b, hb, decide_eq_true hne⟩)
      rw [and_iff_right hall]
      by_cases hrem : (difficulty % 8).toUInt8 > 0
      · have hshift := (staysInRange h hrem).2.1
        have hlt : difficulty.toNat / 8 < hash.toList.length := by
          have hbyte := (staysInRange h hrem).2.2
          rw [toNat_zeroBytes] at hbyte
          rwa [List.Vector.toList_length]
        have hbits : 8 - (8 - difficulty.toNat % 8) = difficulty.toNat % 8 := by omega
        rw [if_pos hrem, List.getElem?_eq_getElem hlt, List.getD_eq_getElem _ _ hlt]
        dsimp only
        rw [decide_eq_true_iff, and_mask_eq_zero_iff hshift, toNat_shift, hbits]
      · rw [if_neg hrem]
        rw [remBits_pos_iff] at hrem
        refine iff_of_true rfl fun j hj => ?_
        omega

/-- The test asks for zeros in the first bits of the hash, within their range, and a smaller
difficulty asks for less. -/
theorem meetsDifficulty_iff_bits (hash : BlockHash) (difficulty : UInt32)
    (h : difficulty.toNat ≤ 256) :
    (meetsDifficulty hash difficulty = true ↔
        ∀ i < difficulty.toNat, bitAt hash.toList i = false) ∧
      StaysInRange difficulty ∧
      ∀ easier ≤ difficulty, meetsDifficulty hash difficulty = true →
        meetsDifficulty hash easier = true := by
  have hbits : ∀ d : UInt32, d.toNat ≤ 256 →
      (meetsDifficulty hash d = true ↔ ∀ i < d.toNat, bitAt hash.toList i = false) := by
    intro d hd
    have hlen : d.toNat / 8 ≤ hash.toList.length := by
      rw [List.Vector.toList_length]
      omega
    rw [meetsDifficulty_iff_parts hd, ← forall_bitAt_iff hlen (Nat.mod_lt _ (by decide)),
      Nat.div_add_mod]
  refine ⟨hbits difficulty h, staysInRange h, ?_⟩
  intro easier heasier hmeets
  have hle := UInt32.le_iff_toNat_le.mp heasier
  rw [hbits easier (hle.trans h)]
  intro i hi
  exact (hbits difficulty h).mp hmeets i (hi.trans_le hle)

def samplePow : BlockHash := ⟨0 :: 8 :: List.replicate 30 255, rfl⟩

theorem meetsDifficulty_iff_bits_sample : (12 : UInt32).toNat ≤ 256 ∧
    (meetsDifficulty samplePow 12 = true ↔ ∀ i < (12 : UInt32).toNat,
        bitAt samplePow.toList i = false) ∧
      StaysInRange 12 ∧
      (∀ easier ≤ 12, meetsDifficulty samplePow 12 = true →
        meetsDifficulty samplePow easier = true) ∧
      meetsDifficulty samplePow 12 = true ∧ meetsDifficulty samplePow 13 = false := by
  obtain ⟨hiff, hrange, hanti⟩ := meetsDifficulty_iff_bits samplePow 12 (by decide)
  exact ⟨by decide, hiff, hrange, hanti, by decide, by decide⟩

end Mining
end CytahSpeed
