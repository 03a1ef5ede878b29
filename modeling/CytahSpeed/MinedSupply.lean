import CytahSpeed.MineBlock
import CytahSpeed.StepRun

/-!
# The mined supply

The mining supply is enforced twice: the reward is cut to what is left when the candidate is made,
and `add_emitted_supply` cuts what it adds. As long as nobody else writes the emission account in
between, the second cut never bites, so the counter is what it was and the coinbase amounts of the
mined blocks, to the last token.
-/

namespace CytahSpeed
open ByteString FiniteMap MachineInt StateManager

structure MineCall where
  scale : RewardScale
  producer : BlockProducer
  mempool : TxDagMempool
  dag : BlockDag
  env : MineEnv
  difficulty : UInt32
  baseFee : UInt64

inductive SupplyEvent
  | mine (call : MineCall)
  | write (state : StateManager)

namespace MineCall

variable (c : Crypto) (call : MineCall) (s : StateManager)

def run : Except String Block × BlockProducer × StateManager :=
  call.producer.mineBlock c call.scale call.mempool call.dag s call.env call.difficulty call.baseFee

def mined : Option UInt64 :=
  match (call.run c s).1 with
  | .ok block => some block.minedReward
  | .error _ => none

end MineCall

namespace SupplyEvent

variable (c : Crypto) (s : StateManager)

def step (s : StateManager) : SupplyEvent → StateManager
  | mine call => (call.run c s).2.2
  | write state => state

def mined (s : StateManager) : SupplyEvent → Option UInt64
  | mine call => call.mined c s
  | write _ => none

def KeepsEmission (s : StateManager) : SupplyEvent → Prop
  | mine _ => True
  | write state => state.getEmittedSupply = s.getEmittedSupply

def minedAmounts : StateManager → List SupplyEvent → List ℕ
  | _, [] => []
  | s, e :: es => ((e.mined c s).map UInt64.toNat).toList ++ minedAmounts (e.step c s) es

end SupplyEvent

namespace Mining

theorem calculateExpectedBlockReward_le (emittedSupply scaled : UInt64) :
    (calculateExpectedBlockReward emittedSupply scaled).toNat ≤
      ctsMiningSupply - emittedSupply.toNat := by
  have hword : (UInt64.ofNat ctsMiningSupply).toNat = ctsMiningSupply := rfl
  have hrest := toNat_satSub (UInt64.ofNat ctsMiningSupply) emittedSupply
  rw [hword] at hrest
  unfold calculateExpectedBlockReward
  simp only
  split_ifs with hzero hover
  · exact Nat.zero_le _
  · exact hrest.le
  · rw [gt_iff_lt, UInt64.lt_iff_toNat_lt, hrest] at hover
    omega

end Mining

variable {c : Crypto}

theorem StateManager.toNat_getEmittedSupply_addEmittedSupply_of_le
    (order : IterOrder Address Account) (s : StateManager) {amount : UInt64}
    (h : amount.toNat ≤ Mining.ctsMiningSupply - s.getEmittedSupply.toNat) :
    (s.addEmittedSupply c order amount).getEmittedSupply.toNat =
      s.getEmittedSupply.toNat + amount.toNat := by
  by_cases hcap : s.getEmittedSupply.toNat ≤ Mining.ctsMiningSupply
  · rw [toNat_getEmittedSupply_addEmittedSupply c order s amount hcap]
    omega
  · have hnone : amount = 0 := UInt64.toNat_inj.mp (by rw [UInt64.toNat_zero]; omega)
    rw [hnone, addEmittedSupply, if_pos rfl]
    rfl

theorem BlockProducer.minedReward_createBlock {scale : RewardScale} {env : ProducerEnv}
    {p : BlockProducer} {mempool : TxDagMempool} {dag : BlockDag} {state : StateManager}
    {difficulty : UInt32} {baseFee : UInt64} {base : Block}
    (h : (p.createBlock c scale env mempool dag state difficulty baseFee).1 = .ok base) :
    base.minedReward = expectedReward scale dag state env.tips
      (p.selectTransactions env mempool baseFee).length := by
  rw [Block.minedReward, transactions_createBlock h]
  rfl

namespace SupplyEvent

/-- A step of a run mines nothing and leaves the counter, or adds the coinbase of the block it
mines, which is no more than what is left. -/
theorem step_cases {s : StateManager} {e : SupplyEvent} (h : e.KeepsEmission s) :
    (e.mined c s = none ∧ (e.step c s).getEmittedSupply = s.getEmittedSupply) ∨
      ∃ amount, e.mined c s = some amount ∧
        amount.toNat ≤ Mining.ctsMiningSupply - s.getEmittedSupply.toNat ∧
        (e.step c s).getEmittedSupply.toNat = s.getEmittedSupply.toNat + amount.toNat := by
  cases e with
  | write state => exact Or.inl ⟨rfl, h⟩
  | mine call =>
    rcases BlockProducer.mineBlock_cases c call.scale call.producer call.mempool call.dag s call.env
      call.difficulty call.baseFee with
      ⟨e, he, hstate⟩ | ⟨base, nonce, hcreate, -, -, hok, hstate⟩
    · refine Or.inl ⟨?_, ?_⟩
      · rw [mined, MineCall.mined, MineCall.run, he]
      · rw [step, MineCall.run, hstate]
    · have hle : base.minedReward.toNat ≤
          Mining.ctsMiningSupply - s.getEmittedSupply.toNat := by
        rw [BlockProducer.minedReward_createBlock hcreate]
        exact Mining.calculateExpectedBlockReward_le _ _
      refine Or.inr ⟨base.minedReward, ?_, hle, ?_⟩
      · rw [mined, MineCall.mined, MineCall.run, hok]
        rfl
      · rw [step, MineCall.run, hstate, toNat_getEmittedSupply_addEmittedSupply_of_le _ _ hle]

/-- Over any run of `mine_block` calls, failed ones included, on one state manager whose emission
account nobody else changes, the counter grows by the coinbase amounts of the mined blocks, and it
stays within the mining supply if it started so. -/
theorem minedSupply_exact (c : Crypto) (s : StateManager) (events : List SupplyEvent)
    (hkeeps : StepRun.Along (step c) KeepsEmission s events) :
    (events.foldl (step c) s).getEmittedSupply.toNat =
        s.getEmittedSupply.toNat + (minedAmounts c s events).sum ∧
      (s.getEmittedSupply.toNat ≤ Mining.ctsMiningSupply →
        (events.foldl (step c) s).getEmittedSupply.toNat ≤ Mining.ctsMiningSupply) := by
  induction events generalizing s with
  | nil => exact ⟨rfl, id⟩
  | cons e events ih =>
    obtain ⟨hstep, hrest⟩ := hkeeps
    obtain ⟨hsum, hcap⟩ := ih (e.step c s) hrest
    rw [List.foldl_cons, minedAmounts, List.sum_append]
    rcases step_cases (c := c) hstep with ⟨hnone, hsame⟩ | ⟨amount, hsome, hle, hadd⟩
    · rw [hsame] at hsum hcap
      rw [hnone]
      exact ⟨by simpa using hsum, hcap⟩
    · rw [hadd] at hsum hcap
      rw [hsome]
      refine ⟨?_, fun hstart => hcap (by omega)⟩
      rw [hsum, Option.map_some, Option.toList_some, List.sum_singleton, Nat.add_assoc]

section Sample
open BlockProducer

def sampleMining : List SupplyEvent :=
  [0, 0, 8, 0].map fun difficulty => .mine
    ⟨sampleFactor, sampleAt 0, .new 10 1, .empty, sampleMineEnv .least, difficulty, 0⟩

def sampleNearlyMined : StateManager :=
  (StateManager.new .hashOnly .sorted).addEmittedSupply .hashOnly .sorted
    (UInt64.ofNat (Mining.ctsMiningSupply - 150))

theorem sampleMining_evaluated :
    minedAmounts .hashOnly sampleNearlyMined sampleMining = [100, 50, 0] ∧
      sampleNearlyMined.getEmittedSupply.toNat = Mining.ctsMiningSupply - 150 := by
  unfold sampleNearlyMined sampleMining
  rw [Crypto.hashOnly_eq_strict]
  decide +kernel

theorem minedSupply_exact_sample :
    (sampleMining.foldl (step .hashOnly) sampleNearlyMined).getEmittedSupply.toNat =
      Mining.ctsMiningSupply := by
  obtain ⟨hamounts, hstart⟩ := sampleMining_evaluated
  have hexact := (minedSupply_exact .hashOnly sampleNearlyMined sampleMining
    ⟨trivial, trivial, trivial, trivial, trivial⟩).1
  rw [hexact, hamounts, hstart]
  rfl

end Sample

end SupplyEvent

end CytahSpeed
