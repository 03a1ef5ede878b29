import CytahSpeed.BlockDag
import CytahSpeed.Mempool
import CytahSpeed.NodeRuntime

/-!
# The block producer

A candidate block takes the ready transactions of the pool, in the order of their priority fees,
behind a coinbase transfer that pays the reward to the producer. The coinbase is an ordinary
transfer from a fixed address with a fixed nonce.
-/

namespace CytahSpeed
open ByteString FiniteMap MachineInt StateManager

namespace BlockDag

/-- The window of `RewardConfig::default`. -/
def activityWindowSize : ℕ := 144

variable (d : BlockDag) (tips : SetOrder BlockHash)

def getTipBlocks : List Block := (tips.iter d.getTips).filterMap d.getBlock

/-- Timestamps along the selected parents, newest first. -/
def walkTimestamps : ℕ → Block → List UInt64
  | 0, _ => []
  | max + 1, current =>
    current.header.timestamp ::
      match current.header.selectedParent with
      | none => []
      | some parentHash =>
        match d.getBlock parentHash with
        | none => []
        | some parent => walkTimestamps max parent

/-- The walk starts from the first tip of the iteration. -/
def getRecentTimestamps (max : ℕ) : List UInt64 :=
  match (d.getTipBlocks tips).head? with
  | none => []
  | some tip => (d.walkTimestamps max tip).reverse

def tipHeight : UInt64 :=
  (d.getTipBlocks tips).foldl (fun height b => max height b.header.chainHeight) 0

end BlockDag

/-- What a call finds around it: the orders in which the pool and the tips are iterated, and the
clock at the block's timestamp and at its validation. -/
structure ProducerEnv where
  pool : IterOrder TxId MempoolTransaction
  tips : SetOrder BlockHash
  now : UInt64
  validated : ℕ

/-- The product of base reward, activity multiplier and transaction factor, truncated, from the
chain height, the recent timestamps and the number of transactions. -/
abbrev RewardScale := UInt64 → List UInt64 → ℕ → UInt64

structure BlockProducer where
  producerId : Address
  nonce : UInt64
  minTransactions : ℕ
  maxTransactions : ℕ

namespace BlockProducer

variable (c : Crypto) (scale : RewardScale) (env : ProducerEnv) (p : BlockProducer)
  (mempool : TxDagMempool) (dag : BlockDag) (state : StateManager)

/-- The sort key of a pooled transaction: the greater the priority fee, the smaller. -/
def feeKey (baseFee : UInt64) (mt : MempoolTransaction) : UInt64 :=
  UInt64.ofNat u64Max - satSub mt.transaction.gasPrice baseFee

/-- The ready transactions, cut to the maximum and then sorted by fee. -/
def selectTransactions (baseFee : UInt64) : List Transaction :=
  (((mempool.getReadyTransactions env.pool).take p.maxTransactions).insertionSort
    (fun a b => feeKey baseFee a ≤ feeKey baseFee b)).map (·.transaction)

def expectedReward (tips : SetOrder BlockHash) (txCount : ℕ) : UInt64 :=
  Mining.calculateExpectedBlockReward state.getEmittedSupply
    (scale (dag.tipHeight tips) (dag.getRecentTimestamps tips BlockDag.activityWindowSize) txCount)

def coinbaseSender : Address := Bytes.zero 20

def coinbaseTx (producerId : Address) (reward : UInt64) : Transaction :=
  .newTransfer coinbaseSender producerId reward 0 0 0

/-- The reward is computed without the coinbase among the transactions. -/
def blockTransactions (baseFee : UInt64) : List Transaction :=
  let transactions := p.selectTransactions env mempool baseFee
  coinbaseTx p.producerId
    (expectedReward scale dag state env.tips transactions.length) :: transactions

def createBlock (difficulty : UInt32) (baseFee : UInt64) : Except String Block × BlockProducer :=
  let ready := (mempool.getReadyTransactions env.pool).length
  if ready < p.minTransactions ∧ ready > 0 ∧ mempool.size > p.minTransactions then
    (.error ("Not enough ready transactions: " ++ toString ready ++ " < " ++
      toString p.minTransactions), p)
  else
    let block := Block.new c (env.tips.iter dag.getTips) env.now
      (p.blockTransactions scale env mempool dag state baseFee) p.nonce difficulty baseFee
      p.producerId (Bytes.zero 32)
    match block.validateBasic c env.validated with
    | .error e => (.error e, { p with nonce := p.nonce + 1 })
    | .ok _ => (.ok block, { p with nonce := p.nonce + 1 })

section Create
variable {c scale env p mempool dag state} {difficulty : UInt32} {baseFee : UInt64} {block : Block}

theorem createBlock_ok
    (h : (p.createBlock c scale env mempool dag state difficulty baseFee).1 = .ok block) :
    block = .new c (env.tips.iter dag.getTips) env.now
        (p.blockTransactions scale env mempool dag state baseFee) p.nonce difficulty baseFee
        p.producerId (Bytes.zero 32) ∧
      block.validateBasic c env.validated = .ok () := by
  simp only [createBlock] at h
  split_ifs at h
  split at h
  · cases h
  · rename_i hvalid
    cases h
    exact ⟨rfl, hvalid⟩

theorem transactions_createBlock
    (h : (p.createBlock c scale env mempool dag state difficulty baseFee).1 = .ok block) :
    block.transactions = p.blockTransactions scale env mempool dag state baseFee := by
  rw [(createBlock_ok h).1]
  rfl

/-- The scale matters through the reward of the coinbase only. -/
theorem createBlock_congr {scale scale' : RewardScale}
    (h : expectedReward scale dag state env.tips (p.selectTransactions env mempool baseFee).length =
      expectedReward scale' dag state env.tips (p.selectTransactions env mempool baseFee).length) :
    p.createBlock c scale env mempool dag state difficulty baseFee =
      p.createBlock c scale' env mempool dag state difficulty baseFee := by
  simp only [createBlock, blockTransactions, h]

end Create

end BlockProducer

end CytahSpeed
