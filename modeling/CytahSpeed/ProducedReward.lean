import CytahSpeed.CoinbaseExecution
import CytahSpeed.ProducerAnnotation
import Mathlib.Algebra.Order.Floor.Semifield
import Mathlib.Analysis.Complex.Exponential
import Mathlib.Data.Rat.Floor

/-!
# Three computations of one reward

The reward formula in exact arithmetic, and the three places that apply it: the producer for the
coinbase, the constructor of a block for its reward field, and the node before it executes the
block. The constructor takes a chain without height, timestamps or emission; the producer leaves the
coinbase out of the count; the node reads the DAG after the insertion. `RewardFits` says when one of
the other two comes to the field.
-/

namespace CytahSpeed
open ByteString FiniteMap MachineInt StateManager

namespace Mining

/-- `x as u64`: truncated, with what is negative sent to zero. -/
def asU64 {K : Type*} [Semiring K] [PartialOrder K] [FloorSemiring K] (x : K) : UInt64 :=
  UInt64.ofNat (min ⌊x⌋₊ u64Max)

def ctsEmissionDecayFactor : ℚ := 1 / 1000000

/-- The fields of `RewardConfig::default`, blocks per minute and multipliers. -/
def targetBlocksPerMinute : ℚ := 2

def maxMultiplier : ℚ := 2

def minMultiplier : ℚ := 1 / 2

noncomputable def calculateBaseReward (chainHeight : UInt64) : UInt64 :=
  let decay := Real.exp (-(ctsEmissionDecayFactor : ℝ) * chainHeight.toNat)
  max (asU64 ((ctsInitialReward : ℝ) * decay)) (UInt64.ofNat ctsMinimumReward)

/-- Timestamps come oldest first. -/
def calculateActivityMultiplier (timestamps : List UInt64) : ℚ :=
  if timestamps.length < 2 then 1
  else
    let timeWindow := satSub (timestamps.getLastD 0) (timestamps.headD 0)
    if timeWindow = 0 then maxMultiplier
    else
      let actualRate := (timestamps.length : ℚ) / ((timeWindow.toNat : ℚ) / 60)
      min (max (targetBlocksPerMinute / actualRate) minMultiplier) maxMultiplier

def txFactor (txCount : ℕ) : ℚ := 1 / (1 + (txCount : ℚ) / 1000)

/-- The reward formula up to its truncation; what follows is `calculateExpectedBlockReward`. -/
noncomputable def scaledReward : RewardScale := fun chainHeight timestamps txCount =>
  asU64 (((calculateBaseReward chainHeight).toNat : ℚ) * calculateActivityMultiplier timestamps *
    txFactor txCount)

/-- A thousand times the reward before the transaction factor. -/
noncomputable def pace (chainHeight : UInt64) (timestamps : List UInt64) : ℚ :=
  1000 * (calculateBaseReward chainHeight).toNat * calculateActivityMultiplier timestamps

/-- The pace over a thousand and the count lies between the reward and the next, unless the least
reward or the remaining supply decides. -/
def RewardFits (emittedSupply chainHeight : UInt64) (timestamps : List UInt64)
    (txCount reward : ℕ) : Prop :=
  let remainingSupply := ctsMiningSupply - emittedSupply.toNat
  (reward = ctsMinimumReward ∨ (reward * (1000 + txCount) : ℚ) ≤ pace chainHeight timestamps) ∧
    reward ≤ remainingSupply ∧
    (pace chainHeight timestamps < (reward + 1) * (1000 + txCount) ∨ remainingSupply = reward)

def fieldReward (txCount : ℕ) : ℕ :=
  max (ctsInitialReward * 1000 / (1000 + txCount)) ctsMinimumReward

theorem toNat_calculateReward (txCount : ℕ) :
    (calculateReward txCount).toNat = fieldReward txCount := by
  have hle : ctsInitialReward * 1000 / (1000 + txCount) ≤ ctsInitialReward :=
    Nat.div_le_of_le_mul (by rw [Nat.mul_comm]; exact Nat.mul_le_mul_right _ (by omega))
  have hinitial : max ctsInitialReward ctsMinimumReward ≤ ctsMiningSupply := by decide
  have hmax : ctsMiningSupply ≤ u64Max := by decide
  unfold calculateReward fieldReward
  rw [toNat_ofNat_of_le (by omega), min_eq_left (by omega)]

theorem fieldReward_pos (txCount : ℕ) : fieldReward txCount ≠ 0 := by
  have hmin : ctsMinimumReward = 1 := rfl
  unfold fieldReward
  omega

theorem calculateBaseReward_zero : calculateBaseReward 0 = UInt64.ofNat ctsInitialReward := by
  have hword : asU64 (ctsInitialReward : ℝ) = UInt64.ofNat ctsInitialReward := by
    have hle : ctsInitialReward ≤ u64Max := by decide
    rw [asU64, Nat.floor_natCast, min_eq_left hle]
  unfold calculateBaseReward
  simp only [UInt64.toNat_zero, Nat.cast_zero, mul_zero, Real.exp_zero, mul_one, hword]
  decide

theorem calculateBaseReward_lt {chainHeight : UInt64} (hpos : 0 < chainHeight) :
    (calculateBaseReward chainHeight).toNat < ctsInitialReward := by
  have hmin : (UInt64.ofNat ctsMinimumReward).toNat = ctsMinimumReward := rfl
  have hlt : ctsMinimumReward < ctsInitialReward := by decide
  have hheight : (0 : ℝ) < chainHeight.toNat := by exact_mod_cast UInt64.lt_iff_toNat_lt.mp hpos
  have hdecay : Real.exp (-(ctsEmissionDecayFactor : ℝ) * chainHeight.toNat) < 1 := by
    apply Real.exp_lt_one_iff.mpr
    have hfactor : (0 : ℝ) < (ctsEmissionDecayFactor : ℝ) := by norm_num [ctsEmissionDecayFactor]
    exact mul_neg_of_neg_of_pos (neg_neg_of_pos hfactor) hheight
  have hfloor : ⌊(ctsInitialReward : ℝ) *
      Real.exp (-(ctsEmissionDecayFactor : ℝ) * chainHeight.toNat)⌋₊ < ctsInitialReward := by
    rw [Nat.floor_lt' (by decide)]
    exact mul_lt_of_lt_one_right (by norm_num [ctsInitialReward]) hdecay
  unfold calculateBaseReward
  dsimp only
  rw [UInt64.toNat_max, hmin, asU64, toNat_ofNat_of_le (min_le_right _ _)]
  omega

theorem txFactor_eq (txCount : ℕ) : txFactor txCount = 1000 / ((1000 + txCount : ℕ) : ℚ) := by
  have hpos : (1000 + txCount : ℚ) ≠ 0 := by positivity
  unfold txFactor
  push_cast
  field_simp

theorem calculateReward_eq_scaledReward (txCount : ℕ) :
    calculateReward txCount = calculateExpectedBlockReward 0 (scaledReward 0 [] txCount) := by
  have hword : (UInt64.ofNat ctsInitialReward).toNat = ctsInitialReward := rfl
  have hmultiplier : calculateActivityMultiplier [] = 1 := if_pos (by decide)
  have hle : ctsInitialReward * 1000 / (1000 + txCount) ≤ u64Max :=
    (Nat.div_le_self _ _).trans (by decide)
  have hscaled : scaledReward 0 [] txCount =
      UInt64.ofNat (ctsInitialReward * 1000 / (1000 + txCount)) := by
    unfold scaledReward asU64
    have hcast : (ctsInitialReward : ℚ) * 1000 = ((ctsInitialReward * 1000 : ℕ) : ℚ) := by
      push_cast
      rfl
    rw [calculateBaseReward_zero, hword, hmultiplier, txFactor_eq, mul_one, ← mul_div_assoc, hcast,
      Nat.floor_div_eq_div, min_eq_left hle]
  rw [calculateReward_eq, hscaled]

theorem toNat_calculateExpectedBlockReward (emittedSupply : UInt64) (x : ℚ) :
    (calculateExpectedBlockReward emittedSupply (asU64 x)).toNat =
      min (max ⌊x⌋₊ ctsMinimumReward) (ctsMiningSupply - emittedSupply.toNat) := by
  have hmin : (UInt64.ofNat ctsMinimumReward).toNat = ctsMinimumReward := rfl
  have hsupply : (UInt64.ofNat ctsMiningSupply).toNat = ctsMiningSupply := rfl
  have hmax : ctsMiningSupply ≤ u64Max := by decide
  have hremaining : (satSub (UInt64.ofNat ctsMiningSupply) emittedSupply).toNat =
      ctsMiningSupply - emittedSupply.toNat := by rw [toNat_satSub, hsupply]
  have hreward : (max (asU64 x) (UInt64.ofNat ctsMinimumReward)).toNat =
      max (min ⌊x⌋₊ u64Max) ctsMinimumReward := by
    rw [UInt64.toNat_max, hmin, asU64, toNat_ofNat_of_le (min_le_right _ _)]
  unfold calculateExpectedBlockReward
  simp only [← UInt64.toNat_inj, gt_iff_lt, UInt64.lt_iff_toNat_lt]
  split_ifs with hzero hover
  · rw [hremaining, UInt64.toNat_zero] at hzero
    rw [hzero, UInt64.toNat_zero, Nat.min_zero]
  · rw [hremaining, hreward] at hover
    rw [hremaining]
    omega
  · rw [hremaining, hreward] at hover
    rw [hreward]
    omega

theorem calculateExpectedBlockReward_eq_iff (emittedSupply chainHeight : UInt64)
    (timestamps : List UInt64) (txCount : ℕ) {reward : ℕ} (hpos : reward ≠ 0) :
    (calculateExpectedBlockReward emittedSupply
        (scaledReward chainHeight timestamps txCount)).toNat = reward ↔
      RewardFits emittedSupply chainHeight timestamps txCount reward := by
  have hcount : (0 : ℚ) < 1000 + txCount := by positivity
  have hx : ((calculateBaseReward chainHeight).toNat : ℚ) *
      calculateActivityMultiplier timestamps * txFactor txCount =
        pace chainHeight timestamps / (1000 + txCount) := by
    rw [txFactor_eq, pace]
    push_cast
    ring
  have hle : reward ≤ ⌊pace chainHeight timestamps / (1000 + txCount)⌋₊ ↔
      (reward * (1000 + txCount) : ℚ) ≤ pace chainHeight timestamps := by
    rw [Nat.le_floor_iff' hpos, le_div_iff₀ hcount]
  have hlt : ⌊pace chainHeight timestamps / (1000 + txCount)⌋₊ < reward + 1 ↔
      pace chainHeight timestamps < (reward + 1) * (1000 + txCount) := by
    rw [Nat.floor_lt' (Nat.succ_ne_zero reward), div_lt_iff₀ hcount]
    push_cast
    rfl
  have hmin : ctsMinimumReward = 1 := rfl
  rw [scaledReward, toNat_calculateExpectedBlockReward, hx]
  unfold RewardFits
  simp only
  rw [← hle, ← hlt]
  omega

end Mining

/-- The amount of the first transaction, where that is a transfer. -/
def Block.coinbaseAmount (b : Block) : Option UInt64 :=
  b.transactions.head?.bind fun tx =>
    match tx.payload with
    | .transfer _ amount => some amount
    | _ => none

structure Insertion where
  engine : GhostdagEngine
  env : CallEnv
  tips : SetOrder BlockHash

namespace Insertion

variable (c : Crypto) (i : Insertion) (dag : BlockDag)

/-- The block is annotated on the DAG, and the result is inserted. -/
def Inserts (block annotated : Block) : Prop :=
  ((i.engine.attachDag dag).annotateBlock c dag block).1 = .ok annotated ∧
    (dag.insertBlock c i.env annotated).1 = .ok ()

def after (annotated : Block) : BlockDag := (dag.insertBlock c i.env annotated).2

variable {c i dag} {block annotated : Block}

theorem Inserts.keeps (h : i.Inserts c dag block annotated) :
    annotated.transactions = block.transactions ∧ annotated.reward = block.reward := by
  obtain ⟨selectedParent, blueScore, chainHeight, rfl⟩ := GhostdagEngine.annotateBlock_ok h.1
  exact ⟨rfl, rfl⟩

end Insertion

namespace BlockProducer

open Mining

section Agreement
variable (c : Crypto) (env : ProducerEnv) (p : BlockProducer) (mempool : TxDagMempool)
  (dag : BlockDag) (state : StateManager) (difficulty : UInt32) (baseFee : UInt64)

def RewardsAgree : Prop :=
  ∀ block, (p.createBlock c scaledReward env mempool dag state difficulty baseFee).1 = .ok block →
    block.coinbaseAmount = some block.reward ∧
      ∀ (i : Insertion) annotated, i.Inserts c dag block annotated →
        expectedReward scaledReward (i.after c dag annotated) state i.tips
          annotated.transactions.length = annotated.reward

/-- The reward of a DAG fits the field of a block with one transaction more than selected. -/
def FieldFits (dag : BlockDag) (tips : SetOrder BlockHash) (selected txCount : ℕ) : Prop :=
  RewardFits state.getEmittedSupply (dag.tipHeight tips)
    (dag.getRecentTimestamps tips BlockDag.activityWindowSize) txCount (fieldReward (selected + 1))

variable {c env p mempool dag state difficulty baseFee} {block : Block}

theorem expectedReward_eq_iff (tips : SetOrder BlockHash) (selected txCount : ℕ) :
    expectedReward scaledReward dag state tips txCount = calculateReward (selected + 1) ↔
      FieldFits state dag tips selected txCount := by
  rw [← UInt64.toNat_inj, toNat_calculateReward, expectedReward]
  exact calculateExpectedBlockReward_eq_iff _ _ _ _ (fieldReward_pos _)

theorem createBlock_fields
    (h : (p.createBlock c scaledReward env mempool dag state difficulty baseFee).1 = .ok block) :
    block.transactions.length = (p.selectTransactions env mempool baseFee).length + 1 ∧
      block.reward = calculateReward ((p.selectTransactions env mempool baseFee).length + 1) ∧
      block.coinbaseAmount = some (expectedReward scaledReward dag state env.tips
        (p.selectTransactions env mempool baseFee).length) := by
  rw [(createBlock_ok h).1]
  exact ⟨rfl, rfl, rfl⟩

/-- The three rewards of every returned block agree exactly if its field fits the DAG without the
coinbase among the transactions, and the DAG after the insertion with it. -/
theorem rewardsAgree_iff (c : Crypto) (env : ProducerEnv) (p : BlockProducer)
    (mempool : TxDagMempool) (dag : BlockDag) (state : StateManager) (difficulty : UInt32)
    (baseFee : UInt64) :
    RewardsAgree c env p mempool dag state difficulty baseFee ↔
      ∀ block, (p.createBlock c scaledReward env mempool dag state difficulty baseFee).1 =
          .ok block →
        let selected := (p.selectTransactions env mempool baseFee).length
        FieldFits state dag env.tips selected selected ∧
          ∀ (i : Insertion) annotated, i.Inserts c dag block annotated →
            FieldFits state (i.after c dag annotated) i.tips selected (selected + 1) := by
  unfold RewardsAgree
  apply forall_congr'
  intro block
  apply imp_congr_right
  intro hblock
  obtain ⟨hlength, hreward, hcoinbase⟩ := createBlock_fields hblock
  apply and_congr
  · rw [hcoinbase, hreward, Option.some_inj]
    exact expectedReward_eq_iff _ _ _
  · apply forall₂_congr
    intro i annotated
    apply imp_congr_right
    intro hinserts
    obtain ⟨htransactions, hkept⟩ := hinserts.keeps
    rw [htransactions, hkept, hlength, hreward]
    exact expectedReward_eq_iff _ _ _

end Agreement

section Sample
open ParallelExecutor

def sampleGenesisDag : BlockDag := (BlockDag.empty.createGenesisBlock .hashOnly ⟨1000, none⟩ 1000).2

def sampleEmpty : Block :=
  .new .hashOnly (SetOrder.sorted.iter sampleGenesisDag.getTips) 1000
    [coinbaseTx sampleMiner 100] 0 0 0 sampleMiner (Bytes.zero 32)

/-- On the genesis block the coinbase of an empty block is the full reward, and the field is not. -/
theorem sampleEmpty_rewards_differ :
    (expectedReward scaledReward sampleGenesisDag (.new .hashOnly .sorted) .sorted 0 = 100 ∧
      calculateReward 1 = 99) ∧
      ¬ RewardsAgree .hashOnly sampleProducerEnv sampleProducer (.new 10 1) sampleGenesisDag
        (.new .hashOnly .sorted) 0 0 := by
  have hdag : sampleGenesisDag.tipHeight .sorted = 0 ∧
      sampleGenesisDag.getRecentTimestamps .sorted BlockDag.activityWindowSize = [1000] ∧
      (StateManager.new .hashOnly .sorted).getEmittedSupply = 0 := by decide +kernel
  have hselected : sampleProducer.selectTransactions sampleProducerEnv (.new 10 1) 0 = [] := by
    decide +kernel
  have hfull : expectedReward scaledReward sampleGenesisDag (.new .hashOnly .sorted) .sorted 0 =
      100 := by
    rw [expectedReward, hdag.1, hdag.2.1, hdag.2.2]
    exact (calculateReward_eq_scaledReward 0).symm.trans (by decide)
  have hcreated : (sampleProducer.createBlock .hashOnly (fun _ _ _ => 100) sampleProducerEnv
      (.new 10 1) sampleGenesisDag (.new .hashOnly .sorted) 0 0).1 =
        .ok sampleEmpty := by
    unfold sampleEmpty sampleGenesisDag
    rw [Crypto.hashOnly_eq_strict]
    decide +kernel
  have hconstant : expectedReward (fun _ _ _ => 100) sampleGenesisDag (.new .hashOnly .sorted)
      .sorted 0 = 100 := by decide +kernel
  have hdiffer : sampleEmpty.coinbaseAmount ≠ some sampleEmpty.reward := by decide +kernel
  refine ⟨⟨hfull, by decide⟩, ?_⟩
  intro h
  apply hdiffer
  refine (h sampleEmpty ?_).1
  rw [createBlock_congr, hcreated]
  rw [hselected]
  exact hfull.trans hconstant.symm

end Sample

end BlockProducer

end CytahSpeed
