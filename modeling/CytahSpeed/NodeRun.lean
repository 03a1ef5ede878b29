import CytahSpeed.Flow
import CytahSpeed.GhostdagOrdering
import CytahSpeed.NodeProduction
import CytahSpeed.SharedStore

/-!
# Runs of a node

A node starts on the blocks of its database. Its loop produces blocks and checks finality, its
interfaces add transactions and switch mining, and blocks may be inserted through the handle of the
DAG. The DAG of a run is that of the insertions made along it.
-/

namespace CytahSpeed
open ByteString FiniteMap

def TxDagMempool.validateTransaction (c : Crypto) (tx : Transaction) : Except String Unit :=
  match tx.validateBasic c with
  | .error e => .error e
  | .ok _ =>
    if Transaction.zeroAmount tx.payload then .error "Transaction amount must be > 0"
    else if tx.gasLimit = 0 then .error "Gas limit must be > 0"
    else .ok ()

def ProducingNode.attempted (c : Crypto) (scale : RewardScale) (call : ProduceCall)
    (n : ProducingNode) : Option Block :=
  if n.miningEnabled = false then none
  else if n.mempool.size = 0 then none
  else
    match (n.blockProducer.createBlock c scale call.producer (n.mempool.setBaseFee call.baseFee)
      n.blockdag n.stateManager call.difficulty call.baseFee).1 with
    | .error _ => none
    | .ok created =>
      match ((n.ghostdag.attachDag n.blockdag).annotateBlock c n.blockdag created).1 with
      | .error _ => none
      | .ok block => some block

structure RunningNode extends ProducingNode where
  finalityEngine : FinalityEngine

structure RunningNode.Config where
  nodeId : Address
  confirmationDepth : ℕ
  mempoolSize : ℕ
  blocks : BlockStore
  registry : ContractRegistry
  storage : ContractStorage
  runtime : WasmRuntime
  accounts : IterOrder Address Account

namespace RunningNode

/-- What changes a node, each with what the call meets. -/
inductive Event
  | initializeNode (accounts : IterOrder Address Account) (env : CallEnv) (timestamp : UInt64)
  | addTransaction (env : PoolEnv) (tx : Transaction)
  | produceBlock (call : ProduceCall)
  | insertBlock (env : CallEnv) (block : Block)
  | checkFinality (turns : ℕ)
  | setMining (enabled : Bool)

variable (c : Crypto) (scale : RewardScale) (margin : UInt64 → UInt64) (n : RunningNode)

def new (config : Config) : RunningNode where
  toNodeRuntime :=
    .newWithConfigAndDb c config.accounts config.registry config.storage config.runtime
  blockdag := .openStore config.blocks
  ghostdag := .new 2
  mempool := .new config.mempoolSize TxDagMempool.defaultMinGasPrice
  blockProducer := ⟨config.nodeId, 0, 0, 100⟩
  miningEnabled := false
  finalityEngine := .new config.confirmationDepth

def initializeNode (accounts : IterOrder Address Account) (env : CallEnv) (timestamp : UInt64) :
    RunningNode :=
  { n with
    toNodeRuntime := n.toNodeRuntime.initializeNode c accounts
    blockdag :=
      if n.blockdag.blockCount = 0 then (n.blockdag.createGenesisBlock c env timestamp).2
      else n.blockdag }

/-- The pool reads the balances of the node's state manager. -/
def poolEnv (env : PoolEnv) : PoolEnv := { env with state := n.stateManager }

def addTransaction (env : PoolEnv) (tx : Transaction) : Except String Unit × RunningNode :=
  match TxDagMempool.validateTransaction c tx with
  | .error e => (.error e, n)
  | .ok _ =>
    match n.mempool.addTransaction c (n.poolEnv env) tx [] none with
    | (result, mempool) => (result, { n with mempool })

/-- `check_finality`, its ordering watched for a number of turns; an ordering that fails is passed
over. -/
def checkFinality (turns : ℕ) : Option (Except String Unit × RunningNode) :=
  if n.blockdag.store.getAllBlocks.isEmpty then some (.ok (), n)
  else
    let ghostdag := n.ghostdag.attachDag n.blockdag
    match ghostdag.generateOrdering turns with
    | none => none
    | some (.error _) => some (.ok (), { n with ghostdag })
    | some (.ok _) =>
      match n.finalityEngine.computeFinality n.blockdag margin with
      | (result, finalityEngine) => some (result, { n with ghostdag, finalityEngine })

/-- A check that has not returned leaves the node as it is. -/
def step (n : RunningNode) : Event → RunningNode
  | .initializeNode accounts env timestamp => n.initializeNode c accounts env timestamp
  | .addTransaction env tx => (n.addTransaction c env tx).2
  | .produceBlock call => { n with toProducingNode := (n.produceBlock c scale call).2 }
  | .insertBlock env block => { n with blockdag := (n.blockdag.insertBlock c env block).2 }
  | .checkFinality turns => ((n.checkFinality margin turns).map Prod.snd).getD n
  | .setMining enabled => { n with miningEnabled := enabled }

def run (events : List Event) : RunningNode := events.foldl (step c scale margin) n

def dagCalls (n : RunningNode) : Event → List Call
  | .initializeNode _ env timestamp =>
    if n.blockdag.blockCount = 0 then [.createGenesisBlock timestamp env] else []
  | .produceBlock call =>
    (n.attempted c scale call).toList.map (Call.insertBlock call.insertion)
  | .insertBlock env block => [.insertBlock env block]
  | _ => []

def dagRun (events : List Event) : List Call :=
  Flow.along (step c scale margin) (dagCalls c scale) n events

section Steps
variable {c scale margin n}

theorem blockdag_insertProduced (c : Crypto) (scale : RewardScale) (call : ProduceCall)
    (n : ProducingNode) : (n.insertProduced c scale call).2.blockdag =
      match n.attempted c scale call with
      | none => n.blockdag
      | some block => (n.blockdag.insertBlock c call.insertion block).2 := by
  unfold ProducingNode.insertProduced ProducingNode.attempted
  split_ifs
  · rfl
  · rfl
  · dsimp only
    rcases n.blockProducer.createBlock c scale call.producer (n.mempool.setBaseFee call.baseFee)
      n.blockdag n.stateManager call.difficulty call.baseFee with ⟨e | created, blockProducer⟩
    · rfl
    · dsimp only
      rcases (n.ghostdag.attachDag n.blockdag).annotateBlock c n.blockdag created with
        ⟨e | block, ghostdag⟩
      · rfl
      · dsimp only
        rcases n.blockdag.insertBlock c call.insertion block with ⟨e | u, blockdag⟩
        · rfl
        · rfl

theorem blockdag_produceBlock (c : Crypto) (scale : RewardScale) (call : ProduceCall)
    (n : ProducingNode) :
    (n.produceBlock c scale call).2.blockdag = (n.insertProduced c scale call).2.blockdag := by
  unfold ProducingNode.produceBlock
  rcases n.insertProduced c scale call with ⟨e | _ | block, n'⟩
  · rfl
  · rfl
  · rfl

theorem checkFinality_keeps {turns : ℕ} {r : Except String Unit × RunningNode}
    (h : n.checkFinality margin turns = some r) :
    r.2.blockdag = n.blockdag ∧ r.2.mempool = n.mempool := by
  unfold checkFinality at h
  split_ifs at h
  · cases h
    exact ⟨rfl, rfl⟩
  · dsimp only at h
    split at h
    · cases h
    · cases h
      exact ⟨rfl, rfl⟩
    · cases h
      exact ⟨rfl, rfl⟩

theorem blockdag_step (n : RunningNode) (e : Event) :
    (step c scale margin n e).blockdag = BlockDag.runFrom c n.blockdag (dagCalls c scale n e) := by
  cases e with
  | initializeNode accounts env timestamp =>
    change (if _ then _ else _) = BlockDag.runFrom c n.blockdag (if _ then _ else _)
    split_ifs
    · rfl
    · rfl
  | addTransaction env tx =>
    change (n.addTransaction c env tx).2.blockdag = n.blockdag
    unfold addTransaction
    split
    · rfl
    · rfl
  | produceBlock call =>
    change (n.produceBlock c scale call).2.blockdag = _
    rw [blockdag_produceBlock, blockdag_insertProduced, dagCalls]
    cases n.attempted c scale call with
    | none => rfl
    | some block => rfl
  | insertBlock env block => rfl
  | checkFinality turns =>
    change (((n.checkFinality margin turns).map Prod.snd).getD n).blockdag = n.blockdag
    cases h : n.checkFinality margin turns with
    | none => rfl
    | some r => exact (checkFinality_keeps h).1
  | setMining enabled => rfl

theorem blockdag_run (n : RunningNode) (events : List Event) :
    (n.run c scale margin events).blockdag =
      BlockDag.runFrom c n.blockdag (n.dagRun c scale margin events) :=
  Flow.proj_foldl (fun n : RunningNode => n.blockdag) (BlockDag.exec c) blockdag_step n events

end Steps

end RunningNode

end CytahSpeed
