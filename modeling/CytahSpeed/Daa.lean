import CytahSpeed.MachineInt
import CytahSpeed.TopologicalOrder
import Mathlib.Data.Rat.Floor
import Mathlib.Tactic.FieldSimp
import Mathlib.Tactic.Ring

/-!
# Difficulty adjustment

The next difficulty is the last one times the ratio of the measured to the expected timespan of the
last 263 blocks, rounded and clamped. A difficulty is a number of leading zero bits, so slow blocks
make the next one harder: two timespans are answered in the right order only where rounding hides
the difference. The measured timespan adds up the gaps that go forward in time, each clamped to
four seconds, and ignores those that go back, so it exceeds the time that has passed exactly when
what goes back outweighs what the clamp takes off.
-/

namespace CytahSpeed.Daa
open MachineInt

def daaWindow : ℕ := 263
def targetBlockTime : UInt64 := 1
def minAdjustRatio : ℚ := 1 / 4
def maxAdjustRatio : ℚ := 4
def maxGap : UInt64 := targetBlockTime * 4

/-- Rounding to the nearest integer, half away from zero. -/
def roundAway (x : ℚ) : ℤ := if 0 ≤ x then ⌊x + 1 / 2⌋ else -⌊-x + 1 / 2⌋

def sumGaps (actual prevTs : UInt64) : List Block → UInt64
  | [] => actual
  | blk :: rest =>
    let ts := blk.header.timestamp
    let delta := if prevTs < ts then ts - prevTs else 0
    sumGaps (satAdd actual (min delta maxGap)) ts rest

def timespan : List Block → UInt64
  | [] => 0
  | first :: rest => sumGaps 0 first.header.timestamp rest

def clampRatio (ratio : ℚ) : ℚ :=
  if ratio < minAdjustRatio then minAdjustRatio
  else if maxAdjustRatio < ratio then maxAdjustRatio
  else ratio

def lastDifficulty (blocks : List Block) : UInt32 :=
  (blocks.getLast?.map (·.header.difficulty)).getD 1

def window (blocks : List Block) : List Block := blocks.drop (blocks.length - daaWindow)

/-- Floating-point numbers are read as rationals. -/
def calculateNextDifficulty (blocks : List Block) : UInt32 :=
  if blocks.length < daaWindow then lastDifficulty blocks
  else
    let recent := window blocks
    let actual := timespan recent
    let expected := UInt64.ofNat daaWindow * targetBlockTime
    let ratio := clampRatio (actual.toNat / expected.toNat)
    let next := roundAway ((lastDifficulty recent).toNat * ratio)
    let next := if next < 1 then 1 else next
    let next := if 2 ^ 32 - 1 < next then 2 ^ 32 - 1 else next
    UInt32.ofNat next.toNat

def measured (blocks : List Block) : ℕ := (timespan (window blocks)).toNat

def times (blocks : List Block) : List ℕ := (window blocks).map (·.header.timestamp.toNat)

section Gaps

def overGaps (f : ℕ → ℕ → ℕ) : List ℕ → ℕ
  | a :: b :: l => f a b + overGaps f (b :: l)
  | _ => 0

/-- The seconds that go forward, up to four from one block to the next. -/
def clamped : List ℕ → ℕ := overGaps fun a b => min (b - a) 4

/-- The seconds that the clamp takes off. -/
def excess : List ℕ → ℕ := overGaps fun a b => b - a - 4

/-- The seconds that go back. -/
def falls : List ℕ → ℕ := overGaps fun a b => a - b

theorem clamped_le (l : List ℕ) : clamped l ≤ 4 * (l.length - 1) := by
  induction l with
  | nil => exact Nat.zero_le _
  | cons a l ih =>
    cases l with
    | nil => exact Nat.zero_le _
    | cons b l =>
      unfold clamped at ih ⊢
      rw [overGaps]
      simp only [List.length_cons] at ih ⊢
      omega

theorem clamped_add_excess (a : ℕ) (l : List ℕ) :
    a + clamped (a :: l) + excess (a :: l) = (a :: l).getLast (by simp) + falls (a :: l) := by
  induction l generalizing a with
  | nil => rfl
  | cons b l ih =>
    have hrest := ih b
    unfold clamped excess falls at hrest ⊢
    rw [overGaps, overGaps, overGaps, List.getLast_cons (by simp)]
    omega

def latest (l : List ℕ) : ℕ := l.foldr max 0

def earliest (l : List ℕ) : ℕ := l.foldr min (l.headD 0)

theorem le_latest {l : List ℕ} {a : ℕ} (h : a ∈ l) : a ≤ latest l := by
  induction l with
  | nil => cases h
  | cons b l ih =>
    rcases List.mem_cons.mp h with rfl | h
    · exact le_max_left _ _
    · exact (ih h).trans (le_max_right _ _)

theorem foldr_min_le (start : ℕ) {l : List ℕ} {a : ℕ} (h : a ∈ l) : l.foldr min start ≤ a := by
  induction l with
  | nil => cases h
  | cons b l ih =>
    rcases List.mem_cons.mp h with rfl | h
    · exact min_le_left _ _
    · exact (min_le_right _ _).trans (ih h)

theorem earliest_le {l : List ℕ} {a : ℕ} (h : a ∈ l) : earliest l ≤ a := foldr_min_le _ h

end Gaps

theorem toNat_gap (prevTs ts : UInt64) :
    (min (if prevTs < ts then ts - prevTs else 0) maxGap).toNat =
      min (ts.toNat - prevTs.toNat) 4 := by
  rw [MachineInt.toNat_min]
  change min _ 4 = _
  by_cases h : prevTs < ts
  · have hle : prevTs ≤ ts := UInt64.le_of_lt h
    rw [if_pos h, UInt64.toNat_sub_of_le _ _ hle]
  · rw [if_neg h]
    rw [UInt64.lt_iff_toNat_lt] at h
    have hzero : ts.toNat - prevTs.toNat = 0 := by omega
    rw [hzero]
    rfl

theorem toNat_sumGaps (actual prevTs : UInt64) (blocks : List Block)
    (h : actual.toNat + 4 * blocks.length ≤ u64Max) :
    (sumGaps actual prevTs blocks).toNat =
      actual.toNat + clamped (prevTs.toNat :: blocks.map (·.header.timestamp.toNat)) := by
  induction blocks generalizing actual prevTs with
  | nil => rfl
  | cons blk rest ih =>
    have hgap := toNat_gap prevTs blk.header.timestamp
    have hsum := toNat_satAdd actual
      (min (if prevTs < blk.header.timestamp then blk.header.timestamp - prevTs else 0) maxGap)
    rw [hgap] at hsum
    rw [List.length_cons] at h
    have hstep := ih (satAdd actual (min (if prevTs < blk.header.timestamp then
      blk.header.timestamp - prevTs else 0) maxGap)) blk.header.timestamp (by omega)
    rw [sumGaps, hstep, hsum, List.map_cons, clamped, overGaps]
    omega

theorem length_window_le (blocks : List Block) : (window blocks).length ≤ daaWindow := by
  rw [window, List.length_drop]
  omega

theorem length_times {blocks : List Block} (h : daaWindow ≤ blocks.length) :
    (times blocks).length = daaWindow := by
  rw [times, List.length_map, window, List.length_drop]
  omega

theorem lastDifficulty_window {blocks : List Block} (h : daaWindow ≤ blocks.length) :
    lastDifficulty (window blocks) = lastDifficulty blocks := by
  have hlt : blocks.length - daaWindow < blocks.length := by
    simp only [daaWindow] at h ⊢
    omega
  rw [lastDifficulty, window, List.getLast?_drop, if_neg (Nat.not_le_of_lt hlt), lastDifficulty]

theorem measured_eq (blocks : List Block) : measured blocks = clamped (times blocks) := by
  have hlen := length_window_le blocks
  unfold measured times
  cases hw : window blocks with
  | nil => rfl
  | cons first rest =>
    rw [hw, List.length_cons] at hlen
    have hfits : (0 : UInt64).toNat + 4 * rest.length ≤ u64Max := by
      simp only [daaWindow, u64Max, UInt64.toNat_zero] at hlen ⊢
      omega
    rw [timespan, toNat_sumGaps _ _ _ hfits, List.map_cons]
    exact Nat.zero_add _

theorem measured_le (blocks : List Block) : measured blocks ≤ 4 * (daaWindow - 1) := by
  have hlen := length_window_le blocks
  have hle := clamped_le (times blocks)
  have htimes : (times blocks).length = (window blocks).length := List.length_map _
  rw [measured_eq]
  omega

/-- The clamped ratio in parts of 1052. -/
def parts (actual : ℕ) : ℕ := max 263 (4 * actual)

theorem clampRatio_eq {actual : ℕ} (h : actual ≤ 4 * (daaWindow - 1)) :
    clampRatio (actual / 263) = (parts actual : ℚ) / 1052 := by
  simp only [daaWindow] at h
  have hcast : ((actual : ℚ) / 263 < 1 / 4) ↔ 4 * actual < 263 := by
    rw [div_lt_iff₀ (by norm_num), ← Nat.cast_lt (α := ℚ)]
    push_cast
    constructor
    · intro hlt
      linarith
    · intro hlt
      linarith
  have hupper : ¬ (4 : ℚ) < (actual : ℚ) / 263 := by
    rw [not_lt, div_le_iff₀ (by norm_num)]
    have hle : (actual : ℚ) ≤ (4 * (263 - 1) : ℕ) := Nat.cast_le.mpr h
    push_cast at hle
    linarith
  by_cases hlow : 4 * actual < 263
  · have hparts : parts actual = 263 := max_eq_left hlow.le
    rw [clampRatio, minAdjustRatio, if_pos (hcast.mpr hlow), hparts]
    norm_num
  · have hparts : parts actual = 4 * actual := max_eq_right (Nat.le_of_not_lt hlow)
    rw [clampRatio, minAdjustRatio, if_neg (mt hcast.mp hlow), maxAdjustRatio, if_neg hupper,
      hparts]
    push_cast
    ring

theorem roundAway_div (n : ℕ) : roundAway ((n : ℚ) / 1052) = ((2 * n + 1052) / 2104 : ℕ) := by
  have hnonneg : (0 : ℚ) ≤ (n : ℚ) / 1052 := by positivity
  have hsum : (n : ℚ) / 1052 + 1 / 2 = ((2 * n + 1052 : ℕ) : ℚ) / (2104 : ℕ) := by
    push_cast
    ring
  rw [roundAway, if_pos hnonneg, hsum, Rat.floor_natCast_div_natCast, Int.natCast_div]

def answer (difficulty actual : ℕ) : ℕ :=
  min (2 ^ 32 - 1) (max 1 ((2 * (difficulty * parts actual) + 1052) / 2104))

theorem toNat_calculateNextDifficulty {blocks : List Block} (h : daaWindow ≤ blocks.length) :
    (calculateNextDifficulty blocks).toNat =
      answer (lastDifficulty blocks).toNat (measured blocks) := by
  have hratio : (((lastDifficulty (window blocks)).toNat : ℚ) *
      clampRatio ((timespan (window blocks)).toNat /
        ((UInt64.ofNat daaWindow * targetBlockTime).toNat : ℚ))) =
      (((lastDifficulty blocks).toNat * parts (measured blocks) : ℕ) : ℚ) / 1052 := by
    have hexpected : ((UInt64.ofNat daaWindow * targetBlockTime).toNat : ℚ) = 263 := by
      have hnat : (UInt64.ofNat daaWindow * targetBlockTime).toNat = 263 := by decide
      rw [hnat]
      norm_num
    rw [hexpected, lastDifficulty_window h]
    change _ * clampRatio ((measured blocks : ℚ) / 263) = _
    rw [clampRatio_eq (measured_le blocks)]
    push_cast
    ring
  rw [calculateNextDifficulty, if_neg (Nat.not_lt_of_le h)]
  dsimp only
  rw [hratio, roundAway_div]
  unfold answer
  generalize (2 * ((lastDifficulty blocks).toNat * parts (measured blocks)) + 1052) / 2104 = n
  split_ifs <;> rw [UInt32.toNat_ofNat'] <;> omega

/-- The answers to two pairs of blocks and the time they took: slower is not answered with harder,
nor faster with easier. -/
structure RightDirection (blocks blocks' : List Block) : Prop where
  antitone : daaWindow ≤ blocks.length → daaWindow ≤ blocks'.length →
    lastDifficulty blocks = lastDifficulty blocks' → measured blocks' < measured blocks →
      (calculateNextDifficulty blocks).toNat ≤ (calculateNextDifficulty blocks').toNat
  slower : daaWindow ≤ blocks.length → daaWindow < measured blocks →
    (calculateNextDifficulty blocks).toNat ≤ (lastDifficulty blocks).toNat
  faster : daaWindow ≤ blocks.length → measured blocks < daaWindow →
    (lastDifficulty blocks).toNat ≤ (calculateNextDifficulty blocks).toNat

/-- No half integer between one and the greatest difficulty lies between the two products of the
difficulty with the ratios, the greater product included. -/
def SameStep (difficulty actual actual' : ℕ) : Prop :=
  ∀ m, 1 ≤ m → m < 2 ^ 32 - 1 → ¬ (2 * (difficulty * parts actual') < (2 * m + 1) * 1052 ∧
    (2 * m + 1) * 1052 ≤ 2 * (difficulty * parts actual))

/-- Rounding and the ends of the range hide every difference. -/
structure HiddenByRounding (blocks blocks' : List Block) : Prop where
  pair : daaWindow ≤ blocks.length → daaWindow ≤ blocks'.length →
    lastDifficulty blocks = lastDifficulty blocks' → measured blocks' < measured blocks →
      SameStep (lastDifficulty blocks).toNat (measured blocks) (measured blocks')
  slow : daaWindow ≤ blocks.length → daaWindow < measured blocks →
    (lastDifficulty blocks).toNat = 2 ^ 32 - 1 ∨ 1 ≤ (lastDifficulty blocks).toNat ∧
      2 * ((lastDifficulty blocks).toNat * (measured blocks - daaWindow)) < 263
  fast : daaWindow ≤ blocks.length → measured blocks < daaWindow →
    (lastDifficulty blocks).toNat ≤ 1 ∨
      2 * ((lastDifficulty blocks).toNat * (daaWindow - measured blocks)) ≤ 263

theorem answer_le_answer_iff (difficulty actual actual' : ℕ) :
    answer difficulty actual ≤ answer difficulty actual' ↔ SameStep difficulty actual actual' := by
  unfold answer SameStep
  generalize 2 * (difficulty * parts actual) = x
  generalize 2 * (difficulty * parts actual') = x'
  constructor
  · intro hle m hone hmax ⟨hbelow, habove⟩
    have hlow : (x' + 1052) / 2104 ≤ m := by omega
    have hhigh : m + 1 ≤ (x + 1052) / 2104 := by omega
    omega
  · intro h
    by_contra hlt
    have hstep := h (min (2 ^ 32 - 1) (max 1 ((x' + 1052) / 2104))) (by omega) (by omega)
    omega

theorem parts_of_slow {actual : ℕ} (h : daaWindow < actual) : parts actual = 4 * actual := by
  simp only [daaWindow] at h
  unfold parts
  omega

theorem answer_le_iff_of_slow {difficulty actual : ℕ} (h : daaWindow < actual)
    (hmax : difficulty ≤ 2 ^ 32 - 1) : answer difficulty actual ≤ difficulty ↔
      difficulty = 2 ^ 32 - 1 ∨ 1 ≤ difficulty ∧ 2 * (difficulty * (actual - daaWindow)) < 263 := by
  have hsplit : difficulty * parts actual =
      1052 * difficulty + 4 * (difficulty * (actual - daaWindow)) := by
    obtain ⟨more, rfl⟩ := Nat.exists_eq_add_of_lt h
    rw [parts_of_slow h]
    have hmore : daaWindow + more + 1 - daaWindow = more + 1 := by omega
    rw [hmore, daaWindow]
    ring
  unfold answer
  rw [hsplit]
  generalize difficulty * (actual - daaWindow) = y
  omega

theorem le_answer_iff_of_fast {difficulty actual : ℕ} (h : actual < daaWindow)
    (hmax : difficulty ≤ 2 ^ 32 - 1) : difficulty ≤ answer difficulty actual ↔
      difficulty ≤ 1 ∨ 2 * (difficulty * (daaWindow - actual)) ≤ 263 := by
  obtain ⟨less, hless⟩ := Nat.exists_eq_add_of_lt h
  have hdiff : daaWindow - actual = less + 1 := by omega
  rw [hdiff]
  simp only [daaWindow] at hless
  by_cases hlow : 4 * actual < 263
  · -- the ratio is a quarter, and only a difficulty of one is not lowered
    have hparts : parts actual = 263 := max_eq_left hlow.le
    have hfar : difficulty * 198 ≤ difficulty * (less + 1) := by
      apply Nat.mul_le_mul_left
      omega
    unfold answer
    rw [hparts]
    omega
  · have hparts : parts actual = 4 * actual := max_eq_right (Nat.le_of_not_lt hlow)
    have hsplit : difficulty * parts actual + 4 * (difficulty * (less + 1)) =
        1052 * difficulty := by
      have hsum : 4 * actual + 4 * (less + 1) = 1052 := by omega
      calc difficulty * parts actual + 4 * (difficulty * (less + 1))
          = difficulty * (4 * actual + 4 * (less + 1)) := by rw [hparts]; ring
        _ = 1052 * difficulty := by rw [hsum, Nat.mul_comm]
    unfold answer
    generalize difficulty * (less + 1) = y at hsplit ⊢
    generalize difficulty * parts actual = x at hsplit ⊢
    omega

/-- The difficulty answers the time that was taken in the right direction exactly where rounding
and the ends of the range hide that it answers in the wrong one. -/
theorem rightDirection_iff (blocks blocks' : List Block) :
    RightDirection blocks blocks' ↔ HiddenByRounding blocks blocks' := by
  have hmax : (lastDifficulty blocks).toNat ≤ 2 ^ 32 - 1 := by
    have hlt := (lastDifficulty blocks).toNat_lt
    omega
  have hpair : ∀ (hlong : daaWindow ≤ blocks.length) (hlong' : daaWindow ≤ blocks'.length)
      (hsame : lastDifficulty blocks = lastDifficulty blocks'),
      (calculateNextDifficulty blocks).toNat ≤ (calculateNextDifficulty blocks').toNat ↔
        SameStep (lastDifficulty blocks).toNat (measured blocks) (measured blocks') := by
    intro hlong hlong' hsame
    rw [toNat_calculateNextDifficulty hlong, toNat_calculateNextDifficulty hlong', ← hsame]
    exact answer_le_answer_iff _ _ _
  constructor
  · intro h
    constructor
    · intro hlong hlong' hsame hlt
      exact (hpair hlong hlong' hsame).mp (h.antitone hlong hlong' hsame hlt)
    · intro hlong hslow
      have hle := h.slower hlong hslow
      rw [toNat_calculateNextDifficulty hlong] at hle
      exact (answer_le_iff_of_slow hslow hmax).mp hle
    · intro hlong hfast
      have hle := h.faster hlong hfast
      rw [toNat_calculateNextDifficulty hlong] at hle
      exact (le_answer_iff_of_fast hfast hmax).mp hle
  · intro h
    constructor
    · intro hlong hlong' hsame hlt
      exact (hpair hlong hlong' hsame).mpr (h.pair hlong hlong' hsame hlt)
    · intro hlong hslow
      rw [toNat_calculateNextDifficulty hlong]
      exact (answer_le_iff_of_slow hslow hmax).mpr (h.slow hlong hslow)
    · intro hlong hfast
      rw [toNat_calculateNextDifficulty hlong]
      exact (le_answer_iff_of_fast hfast hmax).mpr (h.fast hlong hfast)

section Sample

def timedBlock (timestamp : ℕ) : Block where
  hash := ByteString.Bytes.zero 32
  header :=
    { parentHashes := [], timestamp := UInt64.ofNat timestamp, nonce := 0, difficulty := 8,
      baseFee := 0, stateRoot := ByteString.Bytes.zero 32, version := 1, blueScore := 0,
      selectedParent := none, chainHeight := 0, topoIndex := 0 }
  transactions := []
  producer := ByteString.Bytes.zero 20
  reward := 0
  height := 0

def timedBlocks (time : ℕ → ℕ) : List Block :=
  (List.range daaWindow).map fun i => timedBlock (time i)

/-- Blocks four seconds apart are answered with thirty-two bits, blocks at one moment with two. -/
theorem slow_blocks_answered_harder :
    measured (timedBlocks (4 * ·)) = 1048 ∧
      calculateNextDifficulty (timedBlocks (4 * ·)) = 32 ∧
      measured (timedBlocks fun _ => 0) = 0 ∧
      calculateNextDifficulty (timedBlocks fun _ => 0) = 2 ∧
      ¬ ∀ blocks blocks', RightDirection blocks blocks' := by
  have hslow : measured (timedBlocks (4 * ·)) = 1048 ∧
      calculateNextDifficulty (timedBlocks (4 * ·)) = 32 := by decide +kernel
  have hfast : measured (timedBlocks fun _ => 0) = 0 ∧
      calculateNextDifficulty (timedBlocks fun _ => 0) = 2 := by decide +kernel
  refine ⟨hslow.1, hslow.2, hfast.1, hfast.2, ?_⟩
  intro h
  have hle := (h (timedBlocks (4 * ·)) (timedBlocks fun _ => 0)).antitone (by decide +kernel)
    (by decide +kernel) (by decide +kernel) (by rw [hslow.1, hfast.1]; decide)
  rw [hslow.2, hfast.2] at hle
  exact absurd hle (by decide)

end Sample

/-- The measured timespan is no longer than the time between two blocks of the window. -/
def TimespanWithin (blocks : List Block) : Prop :=
  daaWindow ≤ blocks.length → measured blocks ≤ latest (times blocks) - earliest (times blocks)

/-- What goes back between neighbours is made up for by what the clamp takes off, and by how far the
window reaches before its first and behind its last timestamp. -/
def FallsCovered (blocks : List Block) : Prop :=
  daaWindow ≤ blocks.length → falls (times blocks) ≤ excess (times blocks) +
    ((times blocks).headD 0 - earliest (times blocks)) +
    (latest (times blocks) - (times blocks).getLastD 0)

theorem timespanWithin_iff (blocks : List Block) : TimespanWithin blocks ↔ FallsCovered blocks := by
  apply imp_congr_right
  intro hlong
  rw [measured_eq]
  have hlen := length_times hlong
  cases htimes : times blocks with
  | nil =>
    rw [htimes] at hlen
    cases hlen
  | cons a l =>
    have hgaps := clamped_add_excess a l
    have hfirst : earliest (a :: l) ≤ a := earliest_le List.mem_cons_self
    have hlast := le_latest (List.getLast_mem (List.cons_ne_nil a l))
    have hrange : a ≤ latest (a :: l) := le_latest List.mem_cons_self
    have hend : (a :: l).getLastD 0 = (a :: l).getLast (by simp) := by
      rw [List.getLastD_eq_getLast?, List.getLast?_eq_getLast_of_ne_nil (by simp), Option.getD_some]
    rw [hend, List.headD_cons]
    omega

/-- Timestamps that go back and forth by four seconds are measured as 524 seconds. -/
theorem alternating_timestamps_inflate :
    measured (timedBlocks fun i => 4 * (i % 2)) = 524 ∧
      latest (times (timedBlocks fun i => 4 * (i % 2))) = 4 ∧
      ¬ ∀ blocks, TimespanWithin blocks := by
  have hmeasured : measured (timedBlocks fun i => 4 * (i % 2)) = 524 ∧
      latest (times (timedBlocks fun i => 4 * (i % 2))) = 4 := by decide +kernel
  refine ⟨hmeasured.1, hmeasured.2, ?_⟩
  intro h
  have hle := h (timedBlocks fun i => 4 * (i % 2)) (by decide +kernel)
  rw [hmeasured.1, hmeasured.2] at hle
  omega

end CytahSpeed.Daa
