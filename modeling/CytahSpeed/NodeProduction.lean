import CytahSpeed.ProducedReward
import CytahSpeed.ReplayProtection

/-!
# Block production by a node

The node inserts a block that it has built, takes the block's transactions out of the pool, and only
then checks the reward and executes. A pooled transaction of an inserted block is kept from being
lost only by being executed in that same call.
-/

namespace CytahSpeed
open ByteString FiniteMap MachineInt StateManager TransactionExecutor

structure ProducingNode extends NodeRuntime where
  blockdag : BlockDag
  ghostdag : GhostdagEngine
  mempool : TxDagMempool
  blockProducer : BlockProducer
  miningEnabled : Bool

/-- What a call of `produce_block` finds around it: the difficulty and the base fee for the DAG, the
surroundings of the producer and of the insertion, and the orders in which the tips and the accounts
are iterated on execution. -/
structure ProduceCall where
  difficulty : UInt32
  baseFee : UInt64
  producer : ProducerEnv
  insertion : CallEnv
  tips : SetOrder BlockHash
  accounts : IterOrder Address Account

namespace ProducingNode

variable (c : Crypto) (scale : RewardScale) (call : ProduceCall) (n : ProducingNode)

def insertProduced : Except String (Option Block) × ProducingNode :=
  if n.miningEnabled = false then (.ok none, n)
  else if n.mempool.size = 0 then (.ok none, n)
  else
    let mempool := n.mempool.setBaseFee call.baseFee
    match n.blockProducer.createBlock c scale call.producer mempool n.blockdag n.stateManager
      call.difficulty call.baseFee with
    | (.error _, blockProducer) => (.ok none, { n with mempool, blockProducer })
    | (.ok created, blockProducer) =>
      match (n.ghostdag.attachDag n.blockdag).annotateBlock c n.blockdag created with
      | (.error e, ghostdag) => (.error e, { n with mempool, blockProducer, ghostdag })
      | (.ok block, ghostdag) =>
        match n.blockdag.insertBlock c call.insertion block with
        | (.error e, blockdag) =>
          (.error e, { n with mempool, blockProducer, ghostdag, blockdag })
        | (.ok _, blockdag) =>
          (.ok (some block),
            { n with mempool, blockProducer, ghostdag := ghostdag.attachDag blockdag, blockdag })

def removeTransactions (mempool : TxDagMempool) (txs : List Transaction) : TxDagMempool :=
  txs.foldl (fun mempool tx => (mempool.removeTransaction (tx.hash c)).2) mempool

def scaledFor (block : Block) : UInt64 :=
  scale (n.blockdag.tipHeight call.tips)
    (n.blockdag.getRecentTimestamps call.tips BlockDag.activityWindowSize) block.transactions.length

def produceBlock : Except String Unit × ProducingNode :=
  match n.insertProduced c scale call with
  | (.error e, n') => (.error e, n')
  | (.ok none, n') => (.ok (), n')
  | (.ok (some block), n') =>
    let mempool := removeTransactions c n'.mempool block.transactions
    let executed := n'.toNodeRuntime.executeBlock c call.accounts (n'.scaledFor scale call block)
      block
    (executed.1, { n' with toNodeRuntime := executed.2, mempool })

def rewardExpected (block : Block) : UInt64 :=
  BlockProducer.expectedReward scale n.blockdag n.stateManager call.tips block.transactions.length

def executedBy : List TxId :=
  match n.insertProduced c scale call with
  | (.ok (some block), n') =>
    if n'.rewardExpected scale call block = block.reward then
      executedHashes c n.executor [(call.accounts, block)]
    else []
  | _ => []

/-- What was pooled before a call is pooled afterwards, or was executed by it. -/
def NothingLost : Prop :=
  ∀ id ∈ n.mempool.transactions,
    id ∈ (n.produceBlock c scale call).2.mempool.transactions ∨ id ∈ n.executedBy c scale call

def candidates : List Transaction :=
  n.blockProducer.blockTransactions scale call.producer n.mempool n.blockdag n.stateManager
    call.baseFee

/-- Up to each transaction that is pooled, the executor accepts everything in turn. -/
def PooledAccepted : Prop :=
  ∀ pre tx post, n.candidates scale call = pre ++ tx :: post →
    tx.hash c ∈ n.mempool.transactions →
      StepRun.Along (step c) (fun e a => e.Accepts c a.2) n.executor.contractExecutor
        ((pre ++ [tx]).map fun tx => (call.accounts, tx))

section Call
variable {c scale call n} {block : Block} {n' : ProducingNode}

theorem insertProduced_keeps (c : Crypto) (scale : RewardScale) (call : ProduceCall)
    (n : ProducingNode) :
    (n.insertProduced c scale call).2.mempool.transactions = n.mempool.transactions ∧
      (n.insertProduced c scale call).2.toNodeRuntime = n.toNodeRuntime := by
  unfold insertProduced
  split_ifs
  · exact ⟨rfl, rfl⟩
  · exact ⟨rfl, rfl⟩
  · dsimp only
    split
    · exact ⟨rfl, rfl⟩
    · split
      · exact ⟨rfl, rfl⟩
      · split <;> exact ⟨rfl, rfl⟩

structure Inserted (c : Crypto) (scale : RewardScale) (call : ProduceCall) (n : ProducingNode)
    (block : Block) (n' : ProducingNode) : Prop where
  transactions : block.transactions = n.candidates scale call
  reward : block.reward = Mining.calculateReward (n.candidates scale call).length
  distinct : ((n.candidates scale call).map (·.hash c)).Nodup
  runtime : n'.toNodeRuntime = n.toNodeRuntime

theorem insertProduced_some (h : n.insertProduced c scale call = (.ok (some block), n')) :
    Inserted c scale call n block n' := by
  unfold insertProduced at h
  split_ifs at h
  · cases h
  · cases h
  · dsimp only at h
    split at h
    · cases h
    · rename_i created producer hcreate
      split at h
      · cases h
      · rename_i annotated ghostdag hannotate
        split at h
        · cases h
        · rename_i blockdag hinsert
          cases h
          obtain ⟨hcreated, hvalid⟩ := BlockProducer.createBlock_ok (congrArg Prod.fst hcreate)
          obtain ⟨-, -, hreward, hcard, -⟩ := Block.validateBasic_ok_iff.mp hvalid
          obtain ⟨parent, blue, height, rfl⟩ :=
            GhostdagEngine.annotateBlock_ok (congrArg Prod.fst hannotate)
          have htxs : created.transactions = n.candidates scale call := by
            rw [hcreated]
            rfl
          rw [htxs] at hreward hcard
          refine ⟨htxs, hreward, ?_, rfl⟩
          rw [← List.length_map (·.hash c)] at hcard
          exact Multiset.coe_nodup.mp (Multiset.toFinset_card_eq_card_iff_nodup.mp hcard)

theorem mem_removeTransactions (mempool : TxDagMempool) (txs : List Transaction) (id : TxId) :
    id ∈ (removeTransactions c mempool txs).transactions ↔
      id ∉ txs.map (·.hash c) ∧ id ∈ mempool.transactions := by
  induction txs generalizing mempool with
  | nil => simp [removeTransactions]
  | cons tx txs ih =>
    have hrest : removeTransactions c mempool (tx :: txs) =
        removeTransactions c (mempool.removeTransaction (tx.hash c)).2 txs := rfl
    rw [hrest, ih, TxDagMempool.mem_removeTransaction, List.map_cons, List.mem_cons, not_or]
    tauto

theorem lt_executedTransactions_iff (order : IterOrder Address Account) (e : ContractExecutor)
    (executed : ℕ) (fees : UInt64) (pre : List Transaction) (tx : Transaction)
    (post : List Transaction) :
    executed + pre.length <
        (executeLoop c order e executed fees (pre ++ tx :: post)).1.executedTransactions ↔
      StepRun.Along (step c) (fun e a => e.Accepts c a.2) e
        ((pre ++ [tx]).map fun tx => (order, tx)) := by
  induction pre generalizing e executed fees with
  | nil =>
    rw [List.nil_append, List.nil_append, List.map_singleton, StepRun.Along, StepRun.Along,
      and_true, ← ContractExecutor.executeTransaction_ok_iff c order e tx, executeLoop]
    rcases e.executeTransaction c order tx with ⟨err | used, e'⟩
    · simp
    · obtain ⟨n, hcount, -⟩ := record_attempted (c := c) order e' [] (executed + 1)
        (satAdd fees (satMul used tx.gasPrice)) post
      simp only [hcount, List.length_nil, Except.ok.injEq, exists_eq', iff_true]
      omega
  | cons first pre ih =>
    have hstep : step c e (order, first) = (e.executeTransaction c order first).2 := rfl
    rw [List.cons_append, List.cons_append, List.map_cons, StepRun.Along, hstep,
      ← ContractExecutor.executeTransaction_ok_iff c order e first, executeLoop]
    rcases e.executeTransaction c order first with ⟨err | used, e'⟩
    · simp
    · simp only [Except.ok.injEq, exists_eq', true_and]
      rw [← ih e' (executed + 1) (satAdd fees (satMul used first.gasPrice)), List.length_cons,
        Nat.add_right_comm, Nat.add_assoc]

theorem mem_map_take_iff {α β : Type*} (f : α → β) {pre post : List α} {x : α}
    (h : ((pre ++ x :: post).map f).Nodup) (k : ℕ) :
    f x ∈ ((pre ++ x :: post).take k).map f ↔ pre.length < k := by
  rw [List.map_append, List.map_cons] at h
  have hfresh : f x ∉ pre.map f := by
    intro hmem
    exact (List.nodup_append.mp h).2.2 _ hmem _ List.mem_cons_self rfl
  rw [List.take_append]
  constructor
  · intro hmem
    by_contra hle
    rw [Nat.sub_eq_zero_of_le (Nat.not_lt.mp hle), List.take_zero, List.append_nil] at hmem
    exact hfresh (((List.take_sublist k pre).map f).subset hmem)
  · intro hlt
    obtain ⟨m, hm⟩ : ∃ m, k - pre.length = m + 1 := ⟨k - pre.length - 1, by omega⟩
    rw [hm, List.take_succ_cons, List.map_append, List.map_cons]
    exact List.mem_append_right _ List.mem_cons_self

theorem mem_produceBlock (c : Crypto) (scale : RewardScale) (call : ProduceCall)
    (n : ProducingNode) (id : TxId) :
    id ∈ (n.produceBlock c scale call).2.mempool.transactions ↔
      id ∈ n.mempool.transactions ∧
        ∀ block n', n.insertProduced c scale call = (.ok (some block), n') →
          id ∉ (n.candidates scale call).map (·.hash c) := by
  have hpool := (insertProduced_keeps c scale call n).1
  unfold produceBlock
  cases h : n.insertProduced c scale call with
  | mk r n' =>
    simp only [h] at hpool
    rcases r with e | _ | block
    · simp [← hpool]
    · simp [← hpool]
    · have hinserted := insertProduced_some h
      simp only [mem_removeTransactions, hpool, hinserted.transactions]
      constructor
      · rintro ⟨hnot, hmem⟩
        exact ⟨hmem, fun _ _ _ => hnot⟩
      · rintro ⟨hmem, hnot⟩
        exact ⟨hnot block n' rfl, hmem⟩

/-- A transaction of an inserted block is executed exactly if the reward is the expected one and the
executor accepts everything up to the transaction. -/
theorem mem_executedBy_iff (h : n.insertProduced c scale call = (.ok (some block), n'))
    {pre post : List Transaction} {tx : Transaction}
    (htxs : n.candidates scale call = pre ++ tx :: post) :
    tx.hash c ∈ n.executedBy c scale call ↔
      n'.rewardExpected scale call block = block.reward ∧
        StepRun.Along (step c) (fun e a => e.Accepts c a.2) n.executor.contractExecutor
          ((pre ++ [tx]).map fun tx => (call.accounts, tx)) := by
  have hinserted := insertProduced_some h
  have hdistinct := hinserted.distinct
  have hcount := lt_executedTransactions_iff (c := c) call.accounts n.executor.contractExecutor 0 0
    pre tx post
  rw [htxs] at hdistinct
  rw [Nat.zero_add] at hcount
  unfold executedBy
  simp only [h]
  by_cases hreward : n'.rewardExpected scale call block = block.reward
  · rw [if_pos hreward, executedHashes, executedHashes, List.append_nil, ← hcount,
      and_iff_right hreward, hinserted.transactions, htxs, mem_map_take_iff _ hdistinct,
      TransactionExecutor.executeBlock, hinserted.transactions, htxs]
  · rw [if_neg hreward]
    simp [hreward]

/-- A pooled candidate of an inserted block is out of the pool, so it must have been executed. -/
theorem NothingLost.executed (hnothing : n.NothingLost c scale call)
    (h : n.insertProduced c scale call = (.ok (some block), n')) {tx : Transaction}
    (htx : tx ∈ n.candidates scale call) (hmem : tx.hash c ∈ n.mempool.transactions) :
    tx.hash c ∈ n.executedBy c scale call := by
  rcases hnothing _ hmem with hkept | hexecuted
  · rw [mem_produceBlock] at hkept
    exact absurd (List.mem_map_of_mem htx) (hkept.2 block n' h)
  · exact hexecuted

/-- Production loses nothing exactly if every inserted block with a pooled transaction bears the
reward that is expected of it on the new DAG, and its pooled transactions are executed. -/
theorem nothingLost_iff (c : Crypto) (scale : RewardScale) (call : ProduceCall)
    (n : ProducingNode) :
    n.NothingLost c scale call ↔
      ∀ block n', n.insertProduced c scale call = (.ok (some block), n') →
        (∃ tx ∈ n.candidates scale call, tx.hash c ∈ n.mempool.transactions) →
          BlockProducer.expectedReward scale n'.blockdag n.stateManager call.tips
              (n.candidates scale call).length =
            Mining.calculateReward (n.candidates scale call).length ∧
          n.PooledAccepted c scale call := by
  have hexpected : ∀ {block n'}, Inserted c scale call n block n' →
      (n'.rewardExpected scale call block = block.reward ↔
        BlockProducer.expectedReward scale n'.blockdag n.stateManager call.tips
          (n.candidates scale call).length =
        Mining.calculateReward (n.candidates scale call).length) := by
    intro block n' hinserted
    rw [rewardExpected, hinserted.transactions, hinserted.reward, hinserted.runtime]
  constructor
  · intro hnothing block n' h hpooled
    constructor
    · obtain ⟨tx, htx, hmem⟩ := hpooled
      obtain ⟨pre, post, htxs⟩ := List.append_of_mem htx
      rw [← hexpected (insertProduced_some h)]
      exact ((mem_executedBy_iff h htxs).mp (hnothing.executed h htx hmem)).1
    · intro pre tx post htxs hmem
      have htx : tx ∈ n.candidates scale call := by
        rw [htxs]
        exact List.mem_append_right _ List.mem_cons_self
      exact ((mem_executedBy_iff h htxs).mp (hnothing.executed h htx hmem)).2
  · intro hcondition id hmem
    by_cases hkept : id ∈ (n.produceBlock c scale call).2.mempool.transactions
    · exact Or.inl hkept
    · right
      rw [mem_produceBlock] at hkept
      push Not at hkept
      obtain ⟨block, n', h, hcandidate⟩ := hkept hmem
      obtain ⟨tx, htx, rfl⟩ := List.mem_map.mp hcandidate
      obtain ⟨pre, post, htxs⟩ := List.append_of_mem htx
      obtain ⟨hreward, haccepted⟩ := hcondition block n' h ⟨tx, htx, hmem⟩
      rw [mem_executedBy_iff h htxs, hexpected (insertProduced_some h)]
      exact ⟨hreward, haccepted pre tx post htxs hmem⟩

theorem insertProduced_congr {scale' : RewardScale}
    (h : BlockProducer.expectedReward scale n.blockdag n.stateManager call.producer.tips
        (n.blockProducer.selectTransactions call.producer n.mempool call.baseFee).length =
      BlockProducer.expectedReward scale' n.blockdag n.stateManager call.producer.tips
        (n.blockProducer.selectTransactions call.producer n.mempool call.baseFee).length) :
    n.insertProduced c scale call = n.insertProduced c scale' call := by
  have hcreate : n.blockProducer.createBlock c scale call.producer
      (n.mempool.setBaseFee call.baseFee) n.blockdag n.stateManager call.difficulty call.baseFee =
        n.blockProducer.createBlock c scale' call.producer (n.mempool.setBaseFee call.baseFee)
          n.blockdag n.stateManager call.difficulty call.baseFee :=
    BlockProducer.createBlock_congr h
  unfold insertProduced
  dsimp only
  rw [hcreate]

end Call

section Sample
open BlockProducer Mining ParallelExecutor

def sampleMiningNode : ProducingNode where
  stateManager := (fundedExecutor ⟨∅⟩).contractExecutor.stateManager
  executor := fundedExecutor ⟨∅⟩
  blockdag := sampleGenesisDag
  ghostdag := .new 2
  mempool := samplePool
  blockProducer := sampleProducer
  miningEnabled := true

def sampleProduction : ProduceCall := ⟨0, 0, ⟨.sorted, .sorted, 1060, 1060⟩, ⟨1060, none⟩, .sorted,
  .sorted⟩

def insertedFacts (r : Except String (Option Block) × ProducingNode) :
    Option (UInt64 × ℕ × UInt64 × List UInt64) :=
  match r with
  | (.ok (some block), n') => some (block.reward, block.transactions.length,
      n'.blockdag.tipHeight sampleProduction.tips,
      n'.blockdag.getRecentTimestamps sampleProduction.tips BlockDag.activityWindowSize)
  | _ => none

theorem sampleReward_ne :
    calculateExpectedBlockReward 0 (scaledReward 1 [1000, 1060] 2) ≠ 99 := by
  intro h
  have hfits := (calculateExpectedBlockReward_eq_iff 0 1 [1000, 1060] 2 (by decide)).mp
    (congrArg UInt64.toNat h)
  have hbase : (calculateBaseReward 1).toNat ≤ 99 :=
    Nat.le_of_lt_succ (calculateBaseReward_lt (by decide))
  have hmultiplier : calculateActivityMultiplier [1000, 1060] = 1 := by decide +kernel
  rcases hfits.1 with hone | hpace
  · exact absurd hone (by decide)
  · have hword : (99 : UInt64).toNat = 99 := rfl
    have hcast : ((calculateBaseReward 1).toNat : ℚ) ≤ 99 := by exact_mod_cast hbase
    rw [pace, hmultiplier, hword] at hpace
    push_cast at hpace
    linarith

theorem sampleMiningNode_selected :
    sampleMiningNode.blockProducer.selectTransactions sampleProduction.producer
      sampleMiningNode.mempool sampleProduction.baseFee = [sampleAside] := by
  decide +kernel

theorem sampleMiningNode_emitted : sampleMiningNode.stateManager.getEmittedSupply = 0 := by
  decide +kernel

theorem sampleMiningNode_insertProduced :
    sampleMiningNode.insertProduced .hashOnly scaledReward sampleProduction =
      sampleMiningNode.insertProduced .hashOnly (fun _ _ _ => 99) sampleProduction := by
  have hdag : sampleMiningNode.blockdag.tipHeight sampleProduction.producer.tips = 0 ∧
      sampleMiningNode.blockdag.getRecentTimestamps sampleProduction.producer.tips
        BlockDag.activityWindowSize = [1000] := by decide +kernel
  have hfirst : calculateExpectedBlockReward 0 (scaledReward 0 [1000] 1) =
      calculateExpectedBlockReward 0 99 :=
    (calculateReward_eq_scaledReward 1).symm.trans (by decide)
  apply insertProduced_congr
  rw [sampleMiningNode_selected]
  unfold expectedReward
  rw [hdag.1, hdag.2, sampleMiningNode_emitted]
  exact hfirst

theorem sampleMiningNode_inserts : ∃ block n',
    sampleMiningNode.insertProduced .hashOnly scaledReward sampleProduction =
        (.ok (some block), n') ∧
      insertedFacts (.ok (some block), n') = some (99, 2, 1, [1000, 1060]) := by
  have hfacts : insertedFacts (sampleMiningNode.insertProduced .hashOnly (fun _ _ _ => 99)
      sampleProduction) = some (99, 2, 1, [1000, 1060]) := by
    unfold sampleMiningNode sampleGenesisDag samplePool fundedExecutor
    rw [Crypto.hashOnly_eq_strict]
    decide +kernel
  rw [← sampleMiningNode_insertProduced] at hfacts
  generalize sampleMiningNode.insertProduced .hashOnly scaledReward sampleProduction = r at hfacts
  obtain ⟨e | _ | block, n'⟩ := r
  · cases hfacts
  · cases hfacts
  · exact ⟨block, n', rfl, hfacts⟩

/-- The executor accepts the transfer. But the reward is computed before the block is in the DAG
and again with it, the two differ, and the transfer is gone. -/
theorem sampleProduction_loses_transfer :
    sampleMiningNode.executor.contractExecutor.Accepts .hashOnly sampleAside ∧
      ¬ sampleMiningNode.NothingLost .hashOnly scaledReward sampleProduction := by
  have hsucceeds : succeeds .hashOnly sampleMiningNode.executor.contractExecutor
      (.sorted, sampleAside) = true := by decide +kernel
  have hpool : sampleAside.hash .hashOnly ∈ sampleMiningNode.mempool.transactions := by
    decide +kernel
  have htx : sampleAside ∈ sampleMiningNode.candidates scaledReward sampleProduction := by
    unfold candidates blockTransactions
    rw [sampleMiningNode_selected]
    exact List.mem_cons_of_mem _ List.mem_cons_self
  refine ⟨succeeds_iff.mp hsucceeds, ?_⟩
  intro hnothing
  obtain ⟨block, n', h, hfacts⟩ := sampleMiningNode_inserts
  simp only [insertedFacts, Option.some.injEq, Prod.mk.injEq] at hfacts
  obtain ⟨hreward, hlength, hheight, htimestamps⟩ := hfacts
  obtain ⟨pre, post, htxs⟩ := List.append_of_mem htx
  have hexpected := ((mem_executedBy_iff h htxs).mp (hnothing.executed h htx hpool)).1
  rw [rewardExpected, expectedReward, (insertProduced_some h).runtime, sampleMiningNode_emitted,
    hheight, htimestamps, hlength, hreward] at hexpected
  exact sampleReward_ne hexpected

end Sample

end ProducingNode

end CytahSpeed
