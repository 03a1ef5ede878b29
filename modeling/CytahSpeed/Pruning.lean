import CytahSpeed.BlockCache
import CytahSpeed.StateSnapshot
import CytahSpeed.Tokenomics

/-!
# The rolling window pruner

The pruner remembers in one metadata entry how far it has pruned and when it last took a snapshot of
the state. A call takes a snapshot when one is due, then deletes the blocks between the height up to
which it has pruned and the lower end of the window, and moves that height only if there were any.
-/

namespace CytahSpeed
open ByteString FiniteMap MachineInt

/-- The number of accounts with a balance. -/
def StateManager.getActiveAccountCount (order : IterOrder Address Account) (s : StateManager) :
    UInt64 :=
  (order.iter s.stateTree.leaves).foldl
    (fun count e => if 0 < e.2.balance then count + 1 else count) 0

namespace Pruning

structure StateSnapshot where
  height : UInt64
  timestamp : UInt64
  stateRoot : Hash
  totalSupply : UInt64
  activeAccounts : UInt64
  deriving DecidableEq

structure PruningMetadata where
  lastPrunedHeight : UInt64
  totalBlocksPruned : UInt64
  totalSizePruned : UInt64
  lastSnapshotHeight : UInt64
  snapshotCount : UInt32
  deriving DecidableEq

def PruningMetadata.initial : PruningMetadata := ⟨0, 0, 0, 0, 0⟩

/-- The height in ten digits at least. -/
def snapshotKey (height : UInt64) : String :=
  "snapshot_" ++ "".pushn '0' (10 - (toString height).length) ++ toString height

/-- What a call meets: the clock, the orders of iteration, and the error of each database operation
that fails. The metadata entry is read up to three times and written up to twice. -/
structure PruneEnv where
  now : UInt64
  accounts : IterOrder Address Account
  cache : IterOrder BlockHash Block
  checkRead : Option String
  snapshotRead : Option String
  pruneRead : Option String
  snapshotWrite : Option String
  snapshotSave : Option String
  pruneSave : Option String
  scanError : Option String
  metadataError : BlockHash → Option String
  sizeUnread : BlockHash → Bool
  deleteError : BlockHash → Option String

def PruneEnv.reliable (now : UInt64) : PruneEnv where
  now := now
  accounts := .sorted
  cache := .sorted
  checkRead := none
  snapshotRead := none
  pruneRead := none
  snapshotWrite := none
  snapshotSave := none
  pruneSave := none
  scanError := none
  metadataError _ := none
  sizeUnread _ := false
  deleteError _ := none

def stateSnapshot (env : PruneEnv) (height : UInt64) (state : StateManager) : StateSnapshot :=
  ⟨height, env.now, state.getStateRoot, state.getTotalSupply env.accounts,
    state.getActiveAccountCount env.accounts⟩

end Pruning

open Pruning

namespace CachedBlockStore

variable (s : CachedBlockStore)

def getAllBlockHashes (scanError : Option String) : Except String (List BlockHash) :=
  match scanError with
  | some e => .error ("Iterator error: " ++ e)
  | none => .ok s.getAllHashes

def getBlockMetadata (readError : Option String) (hash : BlockHash) :
    Except String (Option BlockMetadata) :=
  match readError with
  | some e => .error ("Database error: " ++ e)
  | none => .ok (s.db.metadata.lookup (metadataKey hash))

/-- The block of a hash, if its metadata has a height in the range. -/
def getBlockInRange (order : IterOrder BlockHash Block) (startHeight endHeight : UInt64)
    (metadata : Option BlockMetadata) (hash : BlockHash) : Option Block × CachedBlockStore :=
  match metadata with
  | some metadata =>
    if startHeight ≤ metadata.height ∧ metadata.height ≤ endHeight then s.getBlock order hash
    else (none, s)
  | none => (none, s)

def collectRange (env : PruneEnv) (startHeight endHeight : UInt64) :
    CachedBlockStore → List BlockHash → Except String (List Block) × CachedBlockStore
  | s, [] => (.ok [], s)
  | s, hash :: hashes =>
    match s.getBlockMetadata (env.metadataError hash) hash with
    | .error e => (.error e, s)
    | .ok metadata =>
      match s.getBlockInRange env.cache startHeight endHeight metadata hash with
      | (found, s) =>
        match collectRange env startHeight endHeight s hashes with
        | (.error e, s) => (.error e, s)
        | (.ok blocks, s) => (.ok (found.toList ++ blocks), s)

def getBlocksByHeightRange (env : PruneEnv) (startHeight endHeight : UInt64) :
    Except String (List Block) × CachedBlockStore :=
  match s.getAllBlockHashes env.scanError with
  | .error e => (.error e, s)
  | .ok hashes =>
    match collectRange env startHeight endHeight s hashes with
    | (.error e, s) => (.error e, s)
    | (.ok blocks, s) => (.ok (blocks.insertionSort fun a b => a.height ≤ b.height), s)

def deleteAll (c : Crypto) (env : PruneEnv) :
    CachedBlockStore → List Block → Except String Unit × CachedBlockStore
  | s, [] => (.ok (), s)
  | s, block :: blocks =>
    match s.deleteBlock c ⟨env.cache, env.deleteError block.hash⟩ block.hash with
    | (.error e, s) => (.error e, s)
    | (.ok _, s) => deleteAll c env s blocks

/-- The bytes of the blocks whose metadata can be read. -/
def sizeOf (size : Block → UInt64) (env : PruneEnv) (blocks : List Block) : UInt64 :=
  blocks.foldl (fun total block =>
    if env.sizeUnread block.hash || (s.db.metadata.lookup (metadataKey block.hash)).isNone then
      total
    else total + size block) 0

end CachedBlockStore

structure RollingWindowPruner where
  blockStore : CachedBlockStore
  snapshots : Map String Pruning.StateSnapshot
  saved : Option PruningMetadata
  windowSize : UInt64
  snapshotInterval : UInt64
  pruningThreshold : UInt64

namespace RollingWindowPruner

def new (windowSize snapshotInterval pruningThreshold : UInt64) : RollingWindowPruner :=
  ⟨.empty, ∅, none, windowSize, snapshotInterval, pruningThreshold⟩

variable (c : Crypto) (size : Block → UInt64) (p : RollingWindowPruner)

def shouldPrune (currentHeight : UInt64) : Bool := p.pruningThreshold ≤ currentHeight

def metadata : PruningMetadata := p.saved.getD .initial

def getMetadata (readError : Option String) : Except String PruningMetadata :=
  match readError with
  | some e => .error ("Database error: " ++ e)
  | none => .ok p.metadata

def saveMetadata (writeError : Option String) (metadata : PruningMetadata) :
    Except String Unit × RollingWindowPruner :=
  match writeError with
  | some e => (.error ("Failed to save metadata: " ++ e), p)
  | none => (.ok (), { p with saved := some metadata })

def takeStateSnapshot (env : PruneEnv) (height : UInt64) (state : StateManager) :
    Except String Unit × RollingWindowPruner :=
  match env.snapshotWrite with
  | some e => (.error ("Failed to save snapshot: " ++ e), p)
  | none =>
    let p := { p with
      snapshots := p.snapshots.insert (snapshotKey height) (stateSnapshot env height state) }
    match p.getMetadata env.snapshotRead with
    | .error e => (.error e, p)
    | .ok metadata =>
      p.saveMetadata env.snapshotSave
        { metadata with
          lastSnapshotHeight := height
          snapshotCount := metadata.snapshotCount + 1 }

/-- The subtraction wraps around where the height is below that of the last snapshot. -/
def takeSnapshotIfNeeded (env : PruneEnv) (currentHeight : UInt64) (state : StateManager) :
    Except String Unit × RollingWindowPruner :=
  match p.getMetadata env.checkRead with
  | .error e => (.error e, p)
  | .ok metadata =>
    if p.snapshotInterval ≤ currentHeight - metadata.lastSnapshotHeight then
      p.takeStateSnapshot env currentHeight state
    else (.ok (), p)

def pruneUpTo (currentHeight : UInt64) : UInt64 :=
  if p.windowSize < currentHeight then satSub currentHeight p.windowSize else 0

/-- The deletion of the blocks that were found, and the update of the metadata. -/
def pruneBlocks (env : PruneEnv) (metadata : PruningMetadata) (pruneUpTo : UInt64)
    (blocksToPrune : List Block) : Except String UInt64 × RollingWindowPruner :=
  let totalSizePruned := p.blockStore.sizeOf size env blocksToPrune
  match CachedBlockStore.deleteAll c env p.blockStore blocksToPrune with
  | (.error e, s) => (.error e, { p with blockStore := s })
  | (.ok _, s) =>
    let p := { p with blockStore := s }
    match p.saveMetadata env.pruneSave
      { metadata with
        lastPrunedHeight := pruneUpTo
        totalBlocksPruned := metadata.totalBlocksPruned + UInt64.ofNat blocksToPrune.length
        totalSizePruned := metadata.totalSizePruned + totalSizePruned } with
    | (.error e, p) => (.error e, p)
    | (.ok _, p) => (.ok (UInt64.ofNat blocksToPrune.length), p)

/-- What `maybe_prune` does after the snapshot. -/
def pruneBelow (env : PruneEnv) (currentHeight : UInt64) :
    Except String UInt64 × RollingWindowPruner :=
  match p.getMetadata env.pruneRead with
  | .error e => (.error e, p)
  | .ok metadata =>
    let pruneUpTo := p.pruneUpTo currentHeight
    if pruneUpTo ≤ metadata.lastPrunedHeight then (.ok 0, p)
    else
      match p.blockStore.getBlocksByHeightRange env (metadata.lastPrunedHeight + 1) pruneUpTo with
      | (.error e, s) => (.error e, { p with blockStore := s })
      | (.ok blocksToPrune, s) =>
        let p := { p with blockStore := s }
        if blocksToPrune.isEmpty then (.ok 0, p)
        else p.pruneBlocks c size env metadata pruneUpTo blocksToPrune

def maybePrune (env : PruneEnv) (currentHeight : UInt64) (state : StateManager) :
    Except String UInt64 × RollingWindowPruner :=
  if p.shouldPrune currentHeight then
    match p.takeSnapshotIfNeeded env currentHeight state with
    | (.error e, p) => (.error e, p)
    | (.ok _, p) => p.pruneBelow c size env currentHeight
  else (.ok 0, p)

end RollingWindowPruner

end CytahSpeed
