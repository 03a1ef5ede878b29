import CytahSpeed.GreedyColoring
import CytahSpeed.MachineInt
import CytahSpeed.StateManager

/-!
# The parallel executor

Transactions are scheduled in batches by a greedy colouring of their conflict graph. The
transactions of a batch run on overlays over the state before the batch, and the overlays of the
successful ones are merged in the order of the transaction hashes. `executeSequential` is the
reference: one transaction at a time, in block order.
-/

namespace CytahSpeed
open ByteString FiniteMap MachineInt

namespace ParallelExecutor

/-- A key in the global state; the empty storage key stands for all of a contract's storage. -/
inductive StateKey
  | account (address : Address)
  | contractStorage (address : Address) (key : List UInt8)
  | contractRegistry (address : Address)
  deriving DecidableEq

structure TxAccessSet where
  reads : Finset StateKey
  writes : Finset StateKey

structure TransactionReceipt where
  txHash : TxId
  success : Bool
  gasUsed : UInt64
  error : Option String
  deriving DecidableEq

section Schedule
variable (c : Crypto)

/-- The address a contract is deployed at: the first bytes of the digest of its code. -/
def deployAddress (wasmCode : List UInt8) : Address :=
  (c.sha256 wasmCode).slice 0 20 (by decide)

def analyzeAccess (tx : Transaction) : TxAccessSet :=
  match tx.payload with
  | .transfer toAddr _ =>
    { reads := {.account tx.fromAddr, .account toAddr}
      writes := {.account tx.fromAddr, .account toAddr} }
  | .contractDeploy wasmCode _ =>
    let address := deployAddress c wasmCode
    { reads := {.account tx.fromAddr}
      writes := {.account tx.fromAddr, .account address, .contractStorage address [],
        .contractRegistry address} }
  | .contractCall address _ _ =>
    { reads := {.account tx.fromAddr, .account address, .contractStorage address [],
        .contractRegistry address}
      writes := {.account tx.fromAddr, .account address, .contractStorage address []} }

def transactionsConflict (a b : TxAccessSet) : Bool :=
  if ¬ Disjoint a.writes b.writes then true
  else if ¬ Disjoint a.writes b.reads then true
  else if ¬ Disjoint a.reads b.writes then true
  else false

def orderedPairs {α : Type*} : List α → List (α × α)
  | [] => []
  | x :: xs => xs.map (x, ·) ++ orderedPairs xs

def addEdge (edges : Map TxId (Finset TxId)) (a b : TxId) : Map TxId (Finset TxId) :=
  edges.insert a (insert b ((edges.lookup a).getD ∅))

def buildConflictGraph (txs : List Transaction) : Map TxId (Finset TxId) :=
  (orderedPairs txs).foldl
    (fun edges p =>
      if transactionsConflict (analyzeAccess c p.1) (analyzeAccess c p.2) then
        addEdge (addEdge edges (p.1.hash c) (p.2.hash c)) (p.2.hash c) (p.1.hash c)
      else edges)
    ∅

def indexMap (txs : List Transaction) : Map TxId ℕ :=
  txs.zipIdx.foldl (fun m e => m.insert (e.1.hash c) e.2) ∅

def forbiddenColors (graph : Map TxId (Finset TxId)) (index : Map TxId ℕ) (colors : List ℕ)
    (id : TxId) : Finset ℕ :=
  ((graph.lookup id).getD ∅).biUnion fun nid =>
    match index.lookup nid with
    | some pos => {colors.getD pos 0}
    | none => ∅

def assignColors (txs : List Transaction) : List ℕ :=
  (List.range txs.length).foldl
    (fun colors i =>
      match txs[i]? with
      | some tx =>
        colors.set i (GreedyColoring.mex
          (forbiddenColors (buildConflictGraph c txs) (indexMap c txs) colors (tx.hash c)))
      | none => colors)
    (List.replicate txs.length 0)

def batchesMap (colors : List ℕ) (txs : List Transaction) : Map ℕ (List Transaction) :=
  collect (colors.zip txs)

def earliestIndex (index : Map TxId ℕ) (batch : List Transaction) : ℕ :=
  (batch.map fun tx => (index.lookup (tx.hash c)).getD u64Max).min?.getD u64Max

/-- `schedule_parallel_batches`, where the map of batches is iterated in the given order. -/
def scheduleParallelBatches (order : IterOrder ℕ (List Transaction)) (txs : List Transaction) :
    List (List Transaction) :=
  ((order.iter (batchesMap (assignColors c txs) txs)).map Prod.snd).insertionSort
    fun a b => earliestIndex c (indexMap c txs) a ≤ earliestIndex c (indexMap c txs) b

end Schedule

/-- Modified accounts, modified storage and new contracts of one transaction. -/
structure Overlay where
  modifiedAccounts : Map Address Account
  modifiedStorage : Map (List UInt8) (List UInt8)
  registryUpdates : List (Address × List UInt8)

namespace Overlay

def new : Overlay := ⟨∅, ∅, []⟩

def readAccount (o : Overlay) (address : Address) (base : StateManager) : Account :=
  match o.modifiedAccounts.lookup address with
  | some a => a
  | none => (base.getAccount address).getD ⟨0, 0⟩

def writeAccount (o : Overlay) (address : Address) (account : Account) : Overlay :=
  { o with modifiedAccounts := o.modifiedAccounts.insert address account }

/-- What a contract reads: the overlay's entries, else those of the base. -/
def visibleStorage (o : Overlay) (base : ContractStorage) : Map (List UInt8) (List UInt8) :=
  o.modifiedStorage ∪ base.entries

def writeStorage (o : Overlay) (writes : Map (List UInt8) (List UInt8)) : Overlay :=
  { o with modifiedStorage := writes ∪ o.modifiedStorage }

end Overlay

structure Ledger where
  state : StateManager
  registry : ContractRegistry
  storage : ContractStorage

section Execute
variable (c : Crypto) (wasm : Wasm) (tx : Transaction)

def failure (error : String) : TransactionReceipt := ⟨tx.hash c, false, 0, some error⟩

def success (gasUsed : UInt64) : TransactionReceipt := ⟨tx.hash c, true, gasUsed, none⟩

def chargeFee (acc : Account) (used : UInt64) : Except String Account :=
  let fee := satMul used tx.gasPrice
  if acc.balance < fee then .error "Insufficient balance for fee"
  else .ok { acc with balance := satSub acc.balance fee }

def executeTransfer (overlay : Overlay) (base : Ledger) (sender : Account) (toAddr : Address)
    (amount : UInt64) : TransactionReceipt × Overlay :=
  let total := satAdd amount (satMul tx.gasLimit tx.gasPrice)
  if sender.balance < total then (failure c tx "Insufficient balance for transfer", overlay)
  else
    let sender : Account := ⟨satSub sender.balance amount, sender.nonce + 1⟩
    let overlay := overlay.writeAccount tx.fromAddr sender
    let receiver := overlay.readAccount toAddr base.state
    let overlay := overlay.writeAccount toAddr
      { receiver with balance := satAdd receiver.balance amount }
    match chargeFee tx sender tx.gasLimit with
    | .error e => (failure c tx e, overlay)
    | .ok sender => (success c tx tx.gasLimit, overlay.writeAccount tx.fromAddr sender)

def executeDeploy (overlay : Overlay) (base : Ledger) (sender : Account) (wasmCode : List UInt8) :
    TransactionReceipt × Overlay :=
  let address := deployAddress c wasmCode
  match wasm.run wasmCode address tx.fromAddr tx.gasLimit .init
      (overlay.visibleStorage base.storage) with
  | .error e => (failure c tx ("WASM instantiate error: " ++ e), overlay)
  | .ok outcome =>
    let overlay := overlay.writeStorage outcome.writes
    match chargeFee tx sender outcome.used with
    | .error e => (failure c tx e, overlay)
    | .ok sender =>
      let overlay := overlay.writeAccount tx.fromAddr { sender with nonce := sender.nonce + 1 }
      match outcome.result with
      | .error _ => (failure c tx "contract init failed", overlay)
      | .ok _ =>
        let overlay :=
          { overlay with registryUpdates := overlay.registryUpdates ++ [(address, wasmCode)] }
        (success c tx outcome.used, overlay.writeAccount address ⟨0, 0⟩)

def executeCall (overlay : Overlay) (base : Ledger) (sender : Account) (address : Address)
    (method : String) : TransactionReceipt × Overlay :=
  match base.registry.getContract address with
  | none => (failure c tx "Contract not found", overlay)
  | some contract =>
    match wasm.run contract.bytecode address tx.fromAddr tx.gasLimit (.call method)
        (overlay.visibleStorage base.storage) with
    | .error e => (failure c tx ("WASM instantiate error: " ++ e), overlay)
    | .ok outcome =>
      let overlay := overlay.writeStorage outcome.writes
      match chargeFee tx sender outcome.used with
      | .error e => (failure c tx e, overlay)
      | .ok sender =>
        let overlay := overlay.writeAccount tx.fromAddr { sender with nonce := sender.nonce + 1 }
        match outcome.result with
        | .error e => (failure c tx ("Contract call failed: " ++ e), overlay)
        | .ok _ => (success c tx outcome.used, overlay)

def executeTransaction (overlay : Overlay) (base : Ledger) : TransactionReceipt × Overlay :=
  match tx.validateBasic c with
  | .error e => (failure c tx e, overlay)
  | .ok _ =>
    let sender := overlay.readAccount tx.fromAddr base.state
    if sender.nonce ≠ tx.nonce then
      (failure c tx ("Invalid nonce: expected " ++ toString sender.nonce ++ " got " ++
        toString tx.nonce), overlay)
    else
      match tx.payload with
      | .transfer toAddr amount => executeTransfer c tx overlay base sender toAddr amount
      | .contractDeploy wasmCode _ => executeDeploy c wasm tx overlay base sender wasmCode
      | .contractCall address method _ => executeCall c wasm tx overlay base sender address method

end Execute

section Block
variable (c : Crypto) (wasm : Wasm) (leafOrder : IterOrder Address Account)

def mergeOverlay (overlay : Overlay) (ledger : Ledger) : Ledger :=
  let stateTree := (sortedEntries overlay.modifiedAccounts).foldl
    (fun t e => t.updateAccount c leafOrder e.1 e.2) ledger.state.stateTree
  let storage := (@sortedEntries _ _ lexOrder overlay.modifiedStorage).foldl
    (fun s e => s.write e.1 e.2) ledger.storage
  let updates := overlay.registryUpdates.insertionSort fun a b => a.1 ≤ b.1
  let registry := updates.foldl (fun r e => (r.registerContract e.1 e.2).2) ledger.registry
  ⟨⟨stateTree, stateTree.calculateRoot⟩, registry, storage⟩

/-- A transaction on its own overlay over the ledger. -/
def executeAlone (tx : Transaction) (base : Ledger) : TransactionReceipt × Overlay :=
  executeTransaction c wasm tx Overlay.new base

def mergeIfSuccessful (result : TransactionReceipt × Overlay) (ledger : Ledger) : Ledger :=
  if result.1.success then mergeOverlay c leafOrder result.2 ledger else ledger

/-- One batch: all transactions read the same ledger; results are merged in hash order. -/
def executeBatch (batch : List Transaction) (base : Ledger) : List TransactionReceipt × Ledger :=
  let results := batch.map fun tx => (tx.hash c, executeAlone c wasm tx base)
  let sorted := results.insertionSort fun a b => a.1 ≤ b.1
  sorted.foldl
    (fun acc r => (acc.1 ++ [r.2.1], mergeIfSuccessful c leafOrder r.2 acc.2)) ([], base)

def executeBlockTransactionsParallel (batchOrder : IterOrder ℕ (List Transaction))
    (txs : List Transaction) (ledger : Ledger) : List TransactionReceipt × Ledger :=
  (scheduleParallelBatches c batchOrder txs).foldl
    (fun acc batch =>
      let r := executeBatch c wasm leafOrder batch acc.2
      (acc.1 ++ r.1, r.2))
    ([], ledger)

def executeSequential (txs : List Transaction) (ledger : Ledger) :
    List TransactionReceipt × Ledger :=
  txs.foldl
    (fun acc tx =>
      let r := executeAlone c wasm tx acc.2
      (acc.1 ++ [r.1], mergeIfSuccessful c leafOrder r acc.2))
    ([], ledger)

end Block

end ParallelExecutor

end CytahSpeed
