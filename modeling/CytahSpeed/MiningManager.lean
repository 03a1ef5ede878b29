import CytahSpeed.MachineInt
import CytahSpeed.StepRun
import Mathlib.Data.List.Chain

/-!
# Mining statistics

`MiningManager` records the timestamps of blocks in two sliding windows: one from which the
difficulty is adjusted, one for the statistics. The functions are on a build with checked
arithmetic: `none` is the panic of a subtraction that goes below zero or of a product that leaves
the range of a `u64`. The statistics subtract every timestamp from the one before it, the check for
oscillation every timestamp from the one behind it.
-/

namespace CytahSpeed
open MachineInt StepRun

structure DaaConfig where
  targetBlockInterval : UInt64
  adjustmentWindow : UInt64
  minDifficulty : UInt32
  maxDifficulty : UInt32
  deriving DecidableEq

/-- The floating-point steps of an adjustment: the scaled difficulty for a current one, an actual
and an expected time, and whether a difficulty is a meaningful change of another. -/
structure Scaling where
  newDifficulty : UInt32 → UInt64 → UInt64 → UInt32
  isMeaningful : UInt32 → UInt32 → Bool

def checkedSub (a b : UInt64) : Option UInt64 := if b ≤ a then some (a - b) else none

def checkedMul (a b : UInt64) : Option UInt64 :=
  if a.toNat * b.toNat < 2 ^ 64 then some (a * b) else none

def withPrevious {α : Type*} (l : List α) : List (α × α) := (l.drop 1).zip l

structure DifficultyState where
  currentDifficulty : UInt32
  timestamps : List UInt64
  lastAdjustment : UInt64
  config : DaaConfig
  deriving DecidableEq

namespace DifficultyState

/-- `now` is the clock. -/
def new (now : UInt64) (config : DaaConfig) : DifficultyState := ⟨1, [], now, config⟩

variable (f : Scaling) (s : DifficultyState)

def retarget (now actualTime expectedTime : UInt64) : DifficultyState :=
  let newDifficulty := f.newDifficulty s.currentDifficulty actualTime expectedTime
  let clamped := min (max newDifficulty s.config.minDifficulty) s.config.maxDifficulty
  if f.isMeaningful clamped s.currentDifficulty then
    { s with currentDifficulty := clamped, lastAdjustment := now }
  else s

def adjustDifficulty (now : UInt64) : Option DifficultyState :=
  if s.timestamps.length < 2 then some s
  else do
    let timeElapsed ← checkedSub now s.lastAdjustment
    if timeElapsed = 0 then some s
    else do
      let gaps ← checkedSub s.config.adjustmentWindow 1
      let expectedTime ← checkedMul s.config.targetBlockInterval gaps
      let actualTime ← checkedSub (s.timestamps.getLastD 0) (s.timestamps.headD 0)
      some (if actualTime = 0 then s else s.retarget f now actualTime expectedTime)

def pushed (timestamp : UInt64) : List UInt64 :=
  let timestamps := s.timestamps ++ [timestamp]
  timestamps.drop (timestamps.length - s.config.adjustmentWindow.toNat)

def addBlock (now timestamp : UInt64) : Option DifficultyState :=
  let s := { s with timestamps := s.pushed timestamp }
  if s.config.adjustmentWindow.toNat ≤ s.timestamps.length then s.adjustDifficulty f now
  else some s

def intervals : Option (List UInt64) :=
  (withPrevious s.timestamps).mapM fun p => checkedSub p.1 p.2

def detectOscillation : Option Bool :=
  if s.timestamps.length < s.config.adjustmentWindow.toNat then some false
  else do
    let intervals ← s.intervals
    match intervals.min?, intervals.max? with
    | some least, some greatest => do
      let bound ← checkedMul least 10
      some (bound < greatest)
    | _, _ => some false

end DifficultyState

structure MiningStats where
  blocksMined : UInt64
  lastBlockTime : UInt64
  averageBlockTime : UInt64 × ℕ
  deriving DecidableEq

structure MiningManager where
  difficultyState : DifficultyState
  recentBlocks : List (UInt64 × UInt32)
  stats : MiningStats
  deriving DecidableEq

namespace MiningManager

def new (now : UInt64) (config : DaaConfig) : MiningManager :=
  ⟨.new now config, [], ⟨0, 0, (0, 0)⟩⟩

def maxRecent : ℕ := 1000

def pushRecent (recent : List (UInt64 × UInt32)) (entry : UInt64 × UInt32) :
    List (UInt64 × UInt32) :=
  let recent := recent ++ [entry]
  recent.drop (recent.length - maxRecent)

/-- The total time over the recent blocks: each timestamp is taken from the one before it. -/
def totalTime (recent : List (UInt64 × UInt32)) : Option UInt64 :=
  ((withPrevious recent).mapM fun p => checkedSub p.2.1 p.1.1).map fun diffs =>
    diffs.foldl (· + ·) 0

variable (f : Scaling) (m : MiningManager)

/-- The second half of `record_block`. -/
def recordStats (difficultyState : DifficultyState) (timestamp : UInt64) :
    Option MiningManager :=
  let recent := pushRecent m.recentBlocks (timestamp, difficultyState.currentDifficulty)
  let stats := { m.stats with blocksMined := m.stats.blocksMined + 1, lastBlockTime := timestamp }
  if 2 ≤ recent.length then do
    let total ← totalTime recent
    some ⟨difficultyState, recent, { stats with averageBlockTime := (total, recent.length - 1) }⟩
  else some ⟨difficultyState, recent, stats⟩

def recordBlock (now timestamp : UInt64) : Option MiningManager := do
  let difficultyState ← m.difficultyState.addBlock f now timestamp
  m.recordStats difficultyState timestamp

/-- Timestamps come in through the manager, or straight into the difficulty state. -/
inductive Call
  | recordBlock (now timestamp : UInt64)
  | addBlock (now timestamp : UInt64)

def exec : Call → Option MiningManager
  | .recordBlock now timestamp => m.recordBlock f now timestamp
  | .addBlock now timestamp => (m.difficultyState.addBlock f now timestamp).map fun s =>
      { m with difficultyState := s }

def step (m : MiningManager) (c : Call) : MiningManager := (m.exec f c).getD m

end MiningManager

theorem checkedSub_eq_some_iff {a b c : UInt64} : checkedSub a b = some c ↔ b ≤ a ∧ a - b = c := by
  unfold checkedSub
  split_ifs with h
  · simp [h]
  · simp [h]

theorem checkedSub_of_le {a b : UInt64} (h : b ≤ a) : checkedSub a b = some (a - b) := if_pos h

theorem checkedSub_of_not_le {a b : UInt64} (h : ¬ b ≤ a) : checkedSub a b = none := if_neg h

theorem sub_eq_zero_iff {a b : UInt64} (h : b ≤ a) : a - b = 0 ↔ ¬ b < a := by
  rw [← UInt64.toNat_inj, UInt64.toNat_sub_of_le _ _ h, UInt64.lt_iff_toNat_lt]
  change _ = 0 ↔ _
  omega

theorem checkedMul_eq_some_iff {a b c : UInt64} :
    checkedMul a b = some c ↔ a.toNat * b.toNat < 2 ^ 64 ∧ a * b = c := by
  unfold checkedMul
  split_ifs with h
  · simp only [Option.some.injEq, h, true_and]
  · exact iff_of_false (by simp) (fun hprod => h hprod.1)

theorem exists_mapM_iff {α β : Type*} (f : α → Option β) (l : List α) :
    (∃ r, l.mapM f = some r) ↔ ∀ x ∈ l, ∃ y, f x = some y := by
  induction l with
  | nil => simp
  | cons x l ih =>
    rw [List.mapM_cons, List.forall_mem_cons, ← ih]
    cases hx : f x with
    | none => simp
    | some y =>
      cases hl : l.mapM f with
      | none => simp
      | some r => simp

theorem mapM_eq_map {α β : Type*} {f : α → Option β} {g : α → β} {l : List α}
    (h : ∀ x ∈ l, f x = some (g x)) : l.mapM f = some (l.map g) := by
  induction l with
  | nil => rfl
  | cons x l ih =>
    rw [List.forall_mem_cons] at h
    rw [List.mapM_cons, h.1, ih h.2]
    rfl

theorem forall_withPrevious_iff {α : Type*} {R : α → α → Prop} (l : List α) :
    (∀ p ∈ withPrevious l, R p.2 p.1) ↔ l.IsChain R := by
  induction l with
  | nil => simp [withPrevious]
  | cons a l ih =>
    cases l with
    | nil => simp [withPrevious]
    | cons b l =>
      have hcons : withPrevious (a :: b :: l) = (b, a) :: withPrevious (b :: l) := rfl
      rw [hcons, List.forall_mem_cons, ih, List.isChain_cons_cons]

namespace DifficultyState

variable {f : Scaling} {s : DifficultyState} {now timestamp : UInt64}

structure AdjustmentFits (s : DifficultyState) : Prop where
  gaps : 1 ≤ s.config.adjustmentWindow
  product : s.config.targetBlockInterval.toNat * (s.config.adjustmentWindow - 1).toNat < 2 ^ 64
  span : s.timestamps.headD 0 ≤ s.timestamps.getLastD 0

theorem exists_adjustDifficulty_iff : (∃ s', s.adjustDifficulty f now = some s') ↔
    (2 ≤ s.timestamps.length →
      s.lastAdjustment ≤ now ∧ (s.lastAdjustment < now → s.AdjustmentFits)) := by
  unfold adjustDifficulty
  by_cases hlen : s.timestamps.length < 2
  · have hshort : ¬ 2 ≤ s.timestamps.length := by omega
    rw [if_pos hlen]
    exact iff_of_true ⟨s, rfl⟩ (fun h => absurd h hshort)
  rw [if_neg hlen, forall_prop_of_true (by omega : 2 ≤ s.timestamps.length)]
  by_cases hclock : s.lastAdjustment ≤ now
  · rw [and_iff_right hclock, checkedSub_of_le hclock]
    by_cases hzero : now - s.lastAdjustment = 0
    · have hsame := (sub_eq_zero_iff hclock).mp hzero
      simp [hzero, hsame]
    · have hlater := not_not.mp (mt (sub_eq_zero_iff hclock).mpr hzero)
      rw [forall_prop_of_true hlater]
      simp only [Option.bind_eq_bind, Option.bind_some, if_neg hzero, Option.bind_eq_some_iff,
        checkedSub_eq_some_iff, checkedMul_eq_some_iff]
      constructor
      · rintro ⟨s', gaps, ⟨hgaps, rfl⟩, expected, ⟨hproduct, -⟩, actual, ⟨hspan, -⟩, -⟩
        exact ⟨hgaps, hproduct, hspan⟩
      · intro h
        exact ⟨_, _, ⟨h.gaps, rfl⟩, _, ⟨h.product, rfl⟩, _, ⟨h.span, rfl⟩, rfl⟩
  · rw [checkedSub_of_not_le hclock]
    refine iff_of_false ?_ (fun h => hclock h.1)
    rintro ⟨s', hs'⟩
    cases hs'

theorem adjustDifficulty_keeps {s' : DifficultyState} (h : s.adjustDifficulty f now = some s') :
    s'.timestamps = s.timestamps ∧ s'.config = s.config := by
  have hretarget : ∀ actual expected, (s.retarget f now actual expected).timestamps =
      s.timestamps ∧ (s.retarget f now actual expected).config = s.config := by
    intro actual expected
    unfold retarget
    dsimp only
    split_ifs <;> exact ⟨rfl, rfl⟩
  unfold adjustDifficulty at h
  split_ifs at h with hlen
  · cases h
    exact ⟨rfl, rfl⟩
  · obtain ⟨elapsed, -, h⟩ := Option.bind_eq_some_iff.mp h
    split_ifs at h with hzero
    · cases h
      exact ⟨rfl, rfl⟩
    · obtain ⟨gaps, -, h⟩ := Option.bind_eq_some_iff.mp h
      obtain ⟨expected, -, h⟩ := Option.bind_eq_some_iff.mp h
      obtain ⟨actual, -, h⟩ := Option.bind_eq_some_iff.mp h
      cases h
      split_ifs
      · exact ⟨rfl, rfl⟩
      · exact hretarget actual expected

theorem exists_intervals_iff :
    (∃ is, s.intervals = some is) ↔ s.timestamps.IsChain (· ≤ ·) := by
  rw [intervals, exists_mapM_iff, ← forall_withPrevious_iff]
  apply forall_congr'
  intro p
  apply imp_congr_right
  intro hp
  constructor
  · rintro ⟨c, hc⟩
    exact (checkedSub_eq_some_iff.mp hc).1
  · intro hle
    exact ⟨_, checkedSub_of_le hle⟩

theorem intervals_eq (h : s.timestamps.IsChain (· ≤ ·)) :
    s.intervals = some ((withPrevious s.timestamps).map fun p => p.1 - p.2) := by
  rw [← forall_withPrevious_iff] at h
  exact mapM_eq_map fun p hp => checkedSub_of_le (h p hp)

/-- One of the intervals, if there are any, can be multiplied by ten. -/
def HasShortInterval (timestamps : List UInt64) : Prop :=
  withPrevious timestamps ≠ [] → ∃ p ∈ withPrevious timestamps, (p.1 - p.2).toNat * 10 < 2 ^ 64

theorem exists_comparison_iff (is : List UInt64) : (∃ b, (match is.min?, is.max? with
      | some least, some greatest => (do
        let bound ← checkedMul least 10
        some (decide (bound < greatest)))
      | _, _ => some false) = some b) ↔
    (is ≠ [] → ∃ i ∈ is, i.toNat * 10 < 2 ^ 64) := by
  by_cases hnil : is = []
  · subst hnil
    simp
  rw [forall_prop_of_true hnil]
  obtain ⟨least, hleast⟩ := Option.isSome_iff_exists.mp (List.isSome_min?_of_ne_nil hnil)
  obtain ⟨greatest, hgreatest⟩ := Option.isSome_iff_exists.mp (List.isSome_max?_of_ne_nil hnil)
  obtain ⟨hmem, hle⟩ := List.min?_eq_some_iff.mp hleast
  have hten : (10 : UInt64).toNat = 10 := rfl
  rw [hleast, hgreatest]
  dsimp only
  constructor
  · rintro ⟨b, hb⟩
    obtain ⟨bound, hbound, -⟩ := Option.bind_eq_some_iff.mp hb
    have hfits := (checkedMul_eq_some_iff.mp hbound).1
    rw [hten] at hfits
    exact ⟨least, hmem, hfits⟩
  · rintro ⟨i, hi, hfits⟩
    have hleast := UInt64.le_iff_toNat_le.mp (hle i hi)
    refine ⟨_, Option.bind_eq_some_iff.mpr ⟨least * 10, checkedMul_eq_some_iff.mpr ⟨?_, rfl⟩, rfl⟩⟩
    rw [hten]
    omega

theorem exists_detectOscillation_iff : (∃ b, s.detectOscillation = some b) ↔
    (s.config.adjustmentWindow.toNat ≤ s.timestamps.length →
      s.timestamps.IsChain (· ≤ ·) ∧ HasShortInterval s.timestamps) := by
  unfold detectOscillation
  by_cases hlen : s.timestamps.length < s.config.adjustmentWindow.toNat
  · rw [if_pos hlen]
    exact iff_of_true ⟨false, rfl⟩ (fun h => absurd hlen (Nat.not_lt_of_le h))
  rw [if_neg hlen, forall_prop_of_true (Nat.le_of_not_lt hlen)]
  by_cases hchain : s.timestamps.IsChain (· ≤ ·)
  · rw [and_iff_right hchain, intervals_eq hchain]
    refine (exists_comparison_iff _).trans ?_
    simp only [HasShortInterval, ne_eq, List.map_eq_nil_iff, List.mem_map]
    apply imp_congr_right
    intro hne
    constructor
    · rintro ⟨i, ⟨p, hp, rfl⟩, hfits⟩
      exact ⟨p, hp, hfits⟩
    · rintro ⟨p, hp, hfits⟩
      exact ⟨_, ⟨p, hp, rfl⟩, hfits⟩
  · refine iff_of_false ?_ (fun h => hchain h.1)
    rintro ⟨b, hb⟩
    obtain ⟨is, his, -⟩ := Option.bind_eq_some_iff.mp hb
    exact hchain (exists_intervals_iff.mp ⟨is, his⟩)

/-- What the difficulty state needs of a timestamp and the clock when the window is full: the
timestamps in it never decrease, the clock has not gone back behind the last adjustment, and the two
products are in range. -/
structure WindowFits (s : DifficultyState) (now timestamp : UInt64) : Prop where
  ordered : (s.pushed timestamp).IsChain (· ≤ ·)
  clock : 2 ≤ (s.pushed timestamp).length → s.lastAdjustment ≤ now
  product : 2 ≤ (s.pushed timestamp).length → s.lastAdjustment < now →
    s.config.targetBlockInterval.toNat * (s.config.adjustmentWindow.toNat - 1) < 2 ^ 64
  short : HasShortInterval (s.pushed timestamp)

theorem length_pushed_le : (s.pushed timestamp).length ≤ s.config.adjustmentWindow.toNat := by
  rw [pushed, List.length_drop]
  omega

theorem headD_le_getLastD {l : List UInt64} (h : l.IsChain (· ≤ ·)) : l.headD 0 ≤ l.getLastD 0 := by
  induction l with
  | nil => exact UInt64.le_refl 0
  | cons a l ih =>
    cases l with
    | nil => exact UInt64.le_refl a
    | cons b l =>
      obtain ⟨hab, hrest⟩ := List.isChain_cons_cons.mp h
      exact UInt64.le_trans hab (ih hrest)

/-- In an ordered window of two or more timestamps only the product can go wrong. -/
theorem adjustmentFits_iff (hlen : 2 ≤ s.timestamps.length)
    (hwindow : s.timestamps.length ≤ s.config.adjustmentWindow.toNat)
    (hchain : s.timestamps.IsChain (· ≤ ·)) : s.AdjustmentFits ↔
      s.config.targetBlockInterval.toNat * (s.config.adjustmentWindow.toNat - 1) < 2 ^ 64 := by
  have hone : 1 ≤ s.config.adjustmentWindow := by
    rw [UInt64.le_iff_toNat_le]
    change 1 ≤ _
    omega
  have hgaps : (s.config.adjustmentWindow - 1).toNat = s.config.adjustmentWindow.toNat - 1 :=
    UInt64.toNat_sub_of_le _ _ hone
  rw [← hgaps]
  exact ⟨fun h => h.product, fun h => ⟨hone, h, headD_le_getLastD hchain⟩⟩

theorem adjustDifficulty_safe_iff : (∃ s', s.adjustDifficulty f now = some s' ∧
      ∃ b, s'.detectOscillation = some b) ↔
    (∃ s', s.adjustDifficulty f now = some s') ∧ ∃ b, s.detectOscillation = some b := by
  have hsame : ∀ s', s.adjustDifficulty f now = some s' →
      ((∃ b, s'.detectOscillation = some b) ↔ ∃ b, s.detectOscillation = some b) := by
    intro s' h
    obtain ⟨htimestamps, hconfig⟩ := adjustDifficulty_keeps h
    rw [exists_detectOscillation_iff, exists_detectOscillation_iff, htimestamps, hconfig]
  constructor
  · rintro ⟨s', h, hdetect⟩
    exact ⟨⟨s', h⟩, (hsame s' h).mp hdetect⟩
  · rintro ⟨⟨s', h⟩, hdetect⟩
    exact ⟨s', h, (hsame s' h).mpr hdetect⟩

theorem addBlock_safe_iff : (∃ s', s.addBlock f now timestamp = some s' ∧
      ∃ b, s'.detectOscillation = some b) ↔
    (s.config.adjustmentWindow.toNat ≤ (s.pushed timestamp).length →
      s.WindowFits now timestamp) := by
  unfold addBlock
  dsimp only
  by_cases hfull : s.config.adjustmentWindow.toNat ≤ (s.pushed timestamp).length
  · rw [if_pos hfull, forall_prop_of_true hfull, adjustDifficulty_safe_iff,
      exists_detectOscillation_iff, exists_adjustDifficulty_iff]
    dsimp only
    rw [forall_prop_of_true hfull]
    have hfits : (s.pushed timestamp).IsChain (· ≤ ·) → 2 ≤ (s.pushed timestamp).length →
        (AdjustmentFits { s with timestamps := s.pushed timestamp } ↔
          s.config.targetBlockInterval.toNat * (s.config.adjustmentWindow.toNat - 1) < 2 ^ 64) :=
      fun hchain hlen => adjustmentFits_iff hlen length_pushed_le hchain
    constructor
    · rintro ⟨hadjust, hchain, hshort⟩
      exact ⟨hchain, fun hlen => (hadjust hlen).1,
        fun hlen hlater => (hfits hchain hlen).mp ((hadjust hlen).2 hlater), hshort⟩
    · intro h
      refine ⟨fun hlen => ⟨h.clock hlen, fun hlater => ?_⟩, h.ordered, h.short⟩
      exact (hfits h.ordered hlen).mpr (h.product hlen hlater)
  · rw [if_neg hfull]
    refine iff_of_true ⟨_, rfl, ?_⟩ (fun h => absurd h hfull)
    exact exists_detectOscillation_iff.mpr fun h => absurd h hfull

end DifficultyState

namespace MiningManager

variable {f : Scaling} {m : MiningManager} {recent : List (UInt64 × UInt32)}

theorem exists_totalTime_iff (recent : List (UInt64 × UInt32)) :
    (∃ total, totalTime recent = some total) ↔ recent.IsChain fun a b => b.1 ≤ a.1 := by
  have hmap : (∃ total, totalTime recent = some total) ↔
      ∃ r, ((withPrevious recent).mapM fun p => checkedSub p.2.1 p.1.1) = some r := by
    unfold totalTime
    cases (withPrevious recent).mapM fun p => checkedSub p.2.1 p.1.1 with
    | none => simp
    | some r => simp
  rw [hmap, exists_mapM_iff, ← forall_withPrevious_iff]
  apply forall_congr'
  intro p
  apply imp_congr_right
  intro hp
  constructor
  · rintro ⟨c, hc⟩
    exact (checkedSub_eq_some_iff.mp hc).1
  · intro hle
    exact ⟨_, checkedSub_of_le hle⟩

theorem totalTime_of_both (hdown : recent.IsChain fun a b => b.1 ≤ a.1)
    (hup : recent.IsChain fun a b => a.1 ≤ b.1) : totalTime recent = some 0 ∧
      (recent.getLastD (0, 0)).1 = (recent.headD (0, 0)).1 := by
  have hsame : ∀ p ∈ withPrevious recent, p.1.1 = p.2.1 := by
    rw [← forall_withPrevious_iff] at hdown hup
    intro p hp
    exact UInt64.le_antisymm (hdown p hp) (hup p hp)
  constructor
  · have hzero : ∀ p ∈ withPrevious recent, checkedSub p.2.1 p.1.1 = some 0 := by
      intro p hp
      rw [hsame p hp, checkedSub_of_le (UInt64.le_refl _), UInt64.sub_self]
    have hsum : ∀ l : List ((UInt64 × UInt32) × UInt64 × UInt32),
        (l.map fun _ => (0 : UInt64)).foldl (· + ·) 0 = 0 := by
      intro l
      induction l with
      | nil => rfl
      | cons p l ih => exact ih
    rw [totalTime, mapM_eq_map hzero, Option.map_some, hsum]
  · clear hdown hup
    induction recent with
    | nil => rfl
    | cons a l ih =>
      cases l with
      | nil => rfl
      | cons b l =>
        have hcons : withPrevious (a :: b :: l) = (b, a) :: withPrevious (b :: l) := rfl
        rw [hcons, List.forall_mem_cons] at hsame
        exact (ih hsame.2).trans hsame.1

def TotalRight (m : MiningManager) : Prop :=
  2 ≤ m.recentBlocks.length → m.recentBlocks.IsChain (fun a b => a.1 ≤ b.1) →
    m.stats.averageBlockTime.1.toNat =
      (m.recentBlocks.getLastD (0, 0)).1.toNat - (m.recentBlocks.headD (0, 0)).1.toNat

/-- The call under- and overflows nothing, nor does a check for oscillation after it, and the total
time is right. -/
def Safe (f : Scaling) (m : MiningManager) (c : Call) : Prop :=
  ∃ m', m.exec f c = some m' ∧ (∃ b, m'.difficultyState.detectOscillation = some b) ∧ m'.TotalRight

/-- The difficulty state has a full window that fits, or one that is not full. -/
def WindowReady (m : MiningManager) (now timestamp : UInt64) : Prop :=
  m.difficultyState.config.adjustmentWindow.toNat ≤ (m.difficultyState.pushed timestamp).length →
    m.difficultyState.WindowFits now timestamp

def Quiet (m : MiningManager) : Call → Prop
  | .recordBlock now timestamp => m.WindowReady now timestamp ∧
      ∀ e, m.recentBlocks.getLast? = some e → timestamp ≤ e.1
  | .addBlock now timestamp => m.WindowReady now timestamp

structure Steady (m : MiningManager) : Prop where
  down : m.recentBlocks.IsChain fun a b => b.1 ≤ a.1
  total : m.TotalRight

theorem isChain_pushRecent_iff (h : recent.IsChain fun a b => b.1 ≤ a.1) (e : UInt64 × UInt32) :
    (pushRecent recent e).IsChain (fun a b => b.1 ≤ a.1) ↔
      ∀ last, recent.getLast? = some last → e.1 ≤ last.1 := by
  have hlen : (recent ++ [e]).length = recent.length + 1 := by simp
  have hpush : pushRecent recent e = recent.drop (recent.length + 1 - maxRecent) ++ [e] := by
    rw [pushRecent, hlen, List.drop_append_of_le_length (by simp only [maxRecent]; omega)]
  have hlast : (recent.drop (recent.length + 1 - maxRecent)).getLast? = recent.getLast? := by
    rw [List.getLast?_drop]
    by_cases hnil : recent.length = 0
    · rw [List.length_eq_zero_iff.mp hnil]
      rfl
    · rw [if_neg (by simp only [maxRecent]; omega)]
  rw [hpush, List.isChain_append, hlast]
  constructor
  · rintro ⟨-, -, hle⟩ last hlast
    exact hle last hlast e rfl
  · intro hle
    refine ⟨h.drop _, List.isChain_singleton e, ?_⟩
    intro last hlast e' he'
    cases he'
    exact hle last hlast

variable {s : DifficultyState} {timestamp : UInt64} {m' : MiningManager}

theorem recordStats_keeps (h : m.recordStats s timestamp = some m') : m'.difficultyState = s ∧
    m'.recentBlocks = pushRecent m.recentBlocks (timestamp, s.currentDifficulty) := by
  unfold recordStats at h
  dsimp only at h
  split_ifs at h with hlen
  · obtain ⟨total, -, h⟩ := Option.bind_eq_some_iff.mp h
    obtain rfl := Option.some.inj h
    dsimp only
    exact ⟨rfl, rfl⟩
  · obtain rfl := Option.some.inj h
    dsimp only
    exact ⟨rfl, rfl⟩

theorem isChain_of_length_lt {R : UInt64 × UInt32 → UInt64 × UInt32 → Prop}
    (h : ¬ 2 ≤ recent.length) : recent.IsChain R := by
  cases recent with
  | nil => exact List.isChain_nil
  | cons a l =>
    cases l with
    | nil => exact List.isChain_singleton a
    | cons b l =>
      rw [List.length_cons, List.length_cons] at h
      omega

theorem recordStats_iff (hm : m.Steady) (s : DifficultyState) (timestamp : UInt64) :
    (∃ m', m.recordStats s timestamp = some m' ∧ m'.TotalRight) ↔
      ∀ e, m.recentBlocks.getLast? = some e → timestamp ≤ e.1 := by
  rw [← isChain_pushRecent_iff hm.down (timestamp, s.currentDifficulty)]
  unfold recordStats
  dsimp only
  by_cases hlen : 2 ≤ (pushRecent m.recentBlocks (timestamp, s.currentDifficulty)).length
  · rw [if_pos hlen, ← exists_totalTime_iff]
    constructor
    · rintro ⟨m', h, -⟩
      obtain ⟨total, htotal, -⟩ := Option.bind_eq_some_iff.mp h
      exact ⟨total, htotal⟩
    · rintro ⟨total, htotal⟩
      refine ⟨_, Option.bind_eq_some_iff.mpr ⟨total, htotal, rfl⟩, ?_⟩
      intro _ hup
      dsimp only at hup ⊢
      have hdown := (exists_totalTime_iff _).mp ⟨total, htotal⟩
      obtain ⟨hzero, hends⟩ := totalTime_of_both hdown hup
      rw [hzero] at htotal
      obtain rfl := Option.some.inj htotal
      rw [hends, Nat.sub_self, UInt64.toNat_zero]
  · rw [if_neg hlen]
    refine iff_of_true ⟨_, rfl, ?_⟩ (isChain_of_length_lt hlen)
    intro hlong
    dsimp only at hlong
    exact absurd hlong hlen

theorem recordBlock_safe_iff (hm : m.Steady) (now timestamp : UInt64) :
    Safe f m (.recordBlock now timestamp) ↔ m.Quiet (.recordBlock now timestamp) := by
  rw [Quiet, WindowReady, ← DifficultyState.addBlock_safe_iff (f := f)]
  constructor
  · rintro ⟨m', hexec, hdetect, htotal⟩
    obtain ⟨s', hadd, hstats⟩ := Option.bind_eq_some_iff.mp hexec
    rw [(recordStats_keeps hstats).1] at hdetect
    exact ⟨⟨s', hadd, hdetect⟩, (recordStats_iff hm s' timestamp).mp ⟨m', hstats, htotal⟩⟩
  · rintro ⟨⟨s', hadd, hdetect⟩, hlast⟩
    obtain ⟨m', hstats, htotal⟩ := (recordStats_iff hm s' timestamp).mpr hlast
    refine ⟨m', Option.bind_eq_some_iff.mpr ⟨s', hadd, hstats⟩, ?_, htotal⟩
    rw [(recordStats_keeps hstats).1]
    exact hdetect

theorem safe_iff (hm : m.Steady) (c : Call) : Safe f m c ↔ m.Quiet c := by
  cases c with
  | recordBlock now timestamp => exact recordBlock_safe_iff hm now timestamp
  | addBlock now timestamp =>
    rw [Quiet, WindowReady, ← DifficultyState.addBlock_safe_iff (f := f)]
    constructor
    · rintro ⟨m', hexec, hdetect, -⟩
      obtain ⟨s', hadd, rfl⟩ := Option.map_eq_some_iff.mp hexec
      exact ⟨s', hadd, hdetect⟩
    · rintro ⟨s', hadd, hdetect⟩
      exact ⟨_, Option.map_eq_some_iff.mpr ⟨s', hadd, rfl⟩, hdetect, hm.total⟩

theorem Steady.step (hm : m.Steady) {c : Call} (h : Safe f m c) :
    (MiningManager.step f m c).Steady := by
  obtain ⟨m', hexec, -, htotal⟩ := h
  rw [MiningManager.step, hexec, Option.getD_some]
  refine ⟨?_, htotal⟩
  cases c with
  | recordBlock now timestamp =>
    obtain ⟨s', -, hstats⟩ := Option.bind_eq_some_iff.mp hexec
    rw [(recordStats_keeps hstats).2, isChain_pushRecent_iff hm.down]
    exact (recordStats_iff hm s' timestamp).mp ⟨m', hstats, htotal⟩
  | addBlock now timestamp =>
    obtain ⟨s', -, rfl⟩ := Option.map_eq_some_iff.mp hexec
    exact hm.down

theorem steady_new (now : UInt64) (config : DaaConfig) : (new now config).Steady := by
  refine ⟨List.isChain_nil, ?_⟩
  intro hlen
  exact absurd hlen (by simp [new])

/-- Along a run the arithmetic is safe exactly as long as every call is quiet. -/
theorem mining_safe_iff (f : Scaling) (start : UInt64) (config : DaaConfig) (calls : List Call) :
    Along (step f) (Safe f) (new start config) calls ↔
      Along (step f) Quiet (new start config) calls :=
  along_iff_of_invariant (steady_new start config) (fun _ _ hm h => hm.step h)
    (fun _ c hm => safe_iff hm c) calls

/-- Two blocks a second apart, in a window that is not full yet. -/
theorem second_block_panics :
    ¬ ∀ f start config calls, Along (step f) (Safe f) (new start config) calls := by
  intro h
  have hrun := h ⟨fun difficulty _ _ => difficulty, fun _ _ => false⟩ 0 ⟨30, 144, 1, 1000⟩
    [.recordBlock 1000 1000, .recordBlock 1001 1001]
  obtain ⟨m', hexec, -⟩ := hrun.2.1
  have hpanic : (exec ⟨fun difficulty _ _ => difficulty, fun _ _ => false⟩
      (step ⟨fun difficulty _ _ => difficulty, fun _ _ => false⟩ (new 0 ⟨30, 144, 1, 1000⟩)
        (.recordBlock 1000 1000)) (.recordBlock 1001 1001)) = none := by decide
  rw [hpanic] at hexec
  cases hexec

end MiningManager
end CytahSpeed
