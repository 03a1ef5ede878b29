import CytahSpeed.BlockCache
import CytahSpeed.EncodedMap
import CytahSpeed.HexDecoding
import CytahSpeed.Serde
import Mathlib.Algebra.Order.BigOperators.Group.List
import Mathlib.Algebra.Order.Ring.Nat

/-!
# The block store on bytes

The column families hold bytes: a block is stored under the 32 bytes of its hash, its metadata under
the text of `metadataKey`, each transaction under its own hash, and reads decode what they find.
A node that is stopped and started again keeps these bytes and loses the cache. `Represents` relates
the bytes to the maps of the cached store. If the serialisation reads back what it wrote, every call
and every restart keeps it, whatever fails on the way; a deletion whose read fails leaves the
block's transactions behind.
-/

namespace CytahSpeed
open ByteString FiniteMap

/-- What is stored about a block. -/
structure StoredMetadata where
  height : UInt64
  timestamp : UInt64
  transactionCount : ℕ
  sizeBytes : ℕ
  deriving DecidableEq

/-- The serialisation of the three kinds of values. -/
structure BlockSerde where
  block : Serde Block
  transaction : Serde Transaction
  metadata : Serde StoredMetadata

def metadataBytes (hash : BlockHash) : List UInt8 := utf8Bytes (metadataKey hash)

theorem metadataBytes_injective : Function.Injective metadataBytes := by
  intro h h' heq
  apply metadataKey_injective
  apply String.toByteArray_inj.mp
  apply ByteArray.ext
  exact Array.toList_inj.mp heq

namespace BlockSerde

variable (serde : BlockSerde)

def metadataOf (block : Block) : StoredMetadata :=
  ⟨block.height, block.header.timestamp, block.transactions.length,
    (serde.block.bytes block).length⟩

/-- The transactions of a block under their hashes, up to the first that is refused. -/
def encodeTransactions (c : Crypto) :
    List Transaction → Except String (List (List UInt8 × List UInt8))
  | [] => .ok []
  | tx :: txs =>
    match serde.transaction.serialize tx, encodeTransactions c txs with
    | .error e, _ => .error e
    | .ok _, .error e => .error e
    | .ok data, .ok rest => .ok (((tx.hash c).toList, data) :: rest)

/-- All that is stored about the block has an encoding. -/
structure Writes (b : Block) : Prop where
  block : serde.block.Writes b
  metadata : serde.metadata.Writes (serde.metadataOf b)
  transactions : ∀ tx ∈ b.transactions, serde.transaction.Writes tx

instance (b : Block) : Decidable (serde.Writes b) :=
  decidable_of_iff (serde.block.Writes b ∧ serde.metadata.Writes (serde.metadataOf b) ∧
    ∀ tx ∈ b.transactions, serde.transaction.Writes tx)
    ⟨fun h => ⟨h.1, h.2.1, h.2.2⟩, fun h => ⟨h.block, h.metadata, h.transactions⟩⟩

end BlockSerde

structure RawDatabase where
  blocks : Map (List UInt8) (List UInt8)
  transactions : Map (List UInt8) (List UInt8)
  metadata : Map (List UInt8) (List UInt8)

def RawDatabase.insertBlock (db : RawDatabase) (hash : BlockHash)
    (blockData metadataData : List UInt8) (txData : List (List UInt8 × List UInt8)) :
    RawDatabase :=
  ⟨db.blocks.insert hash.toList blockData,
    txData.foldl (fun txs e => txs.insert e.1 e.2) db.transactions,
    db.metadata.insert (metadataBytes hash) metadataData⟩

/-- The batch of a deletion, with the transactions of the block that was read. -/
def RawDatabase.deleteBlock (db : RawDatabase) (hash : BlockHash) (txHashes : List TxId) :
    RawDatabase :=
  ⟨db.blocks.erase hash.toList,
    txHashes.foldl (fun txs h => txs.erase h.toList) db.transactions,
    db.metadata.erase (metadataBytes hash)⟩

structure RawBlockStore where
  db : RawDatabase
  cache : BoundedCache BlockHash Block

structure StorageStats where
  blockCount : ℕ
  totalSizeBytes : ℕ
  cacheSize : ℕ
  deriving DecidableEq

structure RawStoreEnv extends StoreEnv where
  readError : Option String

namespace RawBlockStore

def newWithPath (db : RawDatabase) : RawBlockStore := ⟨db, .empty 100⟩

variable (c : Crypto) (serde : BlockSerde) (s : RawBlockStore)

def addToCache (order : IterOrder BlockHash Block) (hash : BlockHash) (block : Block) :
    RawBlockStore :=
  { s with cache := s.cache.add order hash block }

def removeFromCache (hash : BlockHash) : RawBlockStore :=
  { s with cache := s.cache.remove hash }

def insertBlock (env : StoreEnv) (block : Block) : Except String Unit × RawBlockStore :=
  match serde.block.serialize block with
  | .error e => (.error ("Failed to serialize block: " ++ e), s)
  | .ok blockData =>
    match serde.metadata.serialize (serde.metadataOf block) with
    | .error e => (.error ("Failed to serialize metadata: " ++ e), s)
    | .ok metadataData =>
      match serde.encodeTransactions c block.transactions with
      | .error e => (.error ("Failed to serialize transaction: " ++ e), s)
      | .ok txData =>
        match env.writeError with
        | some e => (.error ("Failed to write block: " ++ e), s)
        | none =>
          (.ok (), addToCache ⟨s.db.insertBlock block.hash blockData metadataData txData, s.cache⟩
            env.order block.hash block)

/-- A read that fails is a miss. -/
def getBlock (readError : Option String) (order : IterOrder BlockHash Block) (hash : BlockHash) :
    Option Block × RawBlockStore :=
  match s.cache.entries.lookup hash with
  | some block => (some block, s)
  | none =>
    match readError, s.db.blocks.lookup hash.toList with
    | none, some data =>
      match serde.block.deserialize data with
      | .ok block => (some block, s.addToCache order hash block)
      | .error _ => (none, s)
    | _, _ => (none, s)

def blockExists (readError : Option String) (hash : BlockHash) : Bool :=
  if hash ∈ s.cache.entries then true
  else
    match readError with
    | none => hash.toList ∈ s.db.blocks
    | some _ => false

def getBlockMetadata (readError : Option String) (hash : BlockHash) :
    Except String (Option StoredMetadata) :=
  match readError with
  | some e => .error ("Database error: " ++ e)
  | none =>
    match s.db.metadata.lookup (metadataBytes hash) with
    | some data =>
      match serde.metadata.deserialize data with
      | .ok metadata => .ok (some metadata)
      | .error e => .error ("Failed to deserialize metadata: " ++ e)
    | none => .ok none

/-- Keys of another length are passed over. -/
def getAllBlockHashes (scanError : Option String) : Except String (List BlockHash) :=
  match scanError with
  | some e => .error ("Iterator error: " ++ e)
  | none => .ok ((@sortedKeys _ _ lexOrder s.db.blocks).filterMap fun key =>
      if h : key.length = 32 then some ⟨key, h⟩ else none)

def getAllHashes (scanError : Option String) : List BlockHash :=
  match s.getAllBlockHashes scanError with
  | .ok hashes => hashes
  | .error _ => []

def getStats (scanError : Option String) : Except String StorageStats :=
  match scanError with
  | some e => .error ("Iterator error: " ++ e)
  | none =>
    let entries := @sortedEntries _ _ lexOrder s.db.blocks
    .ok ⟨entries.length, (entries.map fun e => e.2.length).sum, s.cache.size⟩

/-- The batch is built while the block is still stored, and applied last. -/
def deleteBlock (env : RawStoreEnv) (hash : BlockHash) : Except String Unit × RawBlockStore :=
  let s := s.removeFromCache hash
  match s.getBlock serde env.readError env.order hash with
  | (found, s) =>
    let txHashes := match found with
      | some block => block.transactions.map (Transaction.hash c)
      | none => []
    match env.writeError with
    | some e => (.error ("Failed to delete block: " ++ e), s)
    | none => (.ok (), { s with db := s.db.deleteBlock hash txHashes })

def deleteBlocks (env : BlockHash → RawStoreEnv) (s : RawBlockStore) (hashes : List BlockHash) :
    RawBlockStore :=
  hashes.foldl (fun s hash => (s.deleteBlock c serde (env hash) hash).2) s

def clear (scanError : Option String) (env : BlockHash → RawStoreEnv) : RawBlockStore :=
  let s := deleteBlocks c serde env s (s.getAllHashes scanError)
  { s with cache := s.cache.clear }

end RawBlockStore

/-- What happens to a store: a call, or the end of the process and a start on the same path. -/
inductive StoreEvent
  | insertBlock (env : StoreEnv) (block : Block)
  | deleteBlock (env : RawStoreEnv) (hash : BlockHash)
  | getBlock (readError : Option String) (order : IterOrder BlockHash Block) (hash : BlockHash)
  | clear (scanError : Option String) (env : BlockHash → RawStoreEnv)
  | restart

def RawBlockStore.step (c : Crypto) (serde : BlockSerde) (s : RawBlockStore) :
    StoreEvent → RawBlockStore
  | .insertBlock env block => (s.insertBlock c serde env block).2
  | .deleteBlock env hash => (s.deleteBlock c serde env hash).2
  | .getBlock readError order hash => (s.getBlock serde readError order hash).2
  | .clear scanError env => s.clear c serde scanError env
  | .restart => .newWithPath s.db

namespace CachedBlockStore

variable (c : Crypto) (serde : BlockSerde) (s : CachedBlockStore)

/-- A deletion that cannot read the block does not know its transactions. -/
def deleteUnread (writeError : Option String) (hash : BlockHash) : CachedBlockStore :=
  match writeError with
  | some _ => s.removeFromCache hash
  | none => { s.removeFromCache hash with db := s.db.deleteBlock hash [] }

def deleteWith (env : RawStoreEnv) (hash : BlockHash) : CachedBlockStore :=
  match env.readError with
  | none => (s.deleteBlock c env.toStoreEnv hash).2
  | some _ => s.deleteUnread env.writeError hash

def step (s : CachedBlockStore) : StoreEvent → CachedBlockStore
  | .insertBlock env block => if serde.Writes block then (s.insertBlock c env block).2 else s
  | .deleteBlock env hash => s.deleteWith c env hash
  | .getBlock none order hash => (s.getBlock order hash).2
  | .getBlock (some _) _ _ => s
  | .clear none env =>
    let s := s.getAllHashes.foldl (fun s hash => s.deleteWith c (env hash) hash) s
    { s with cache := s.cache.clear }
  | .clear (some _) _ => { s with cache := s.cache.clear }
  | .restart => ⟨s.db, .empty 100⟩

end CachedBlockStore

namespace BlockSerde

variable {c : Crypto} {serde : BlockSerde}

theorem encodeTransactions_cases (c : Crypto) (serde : BlockSerde) (txs : List Transaction) :
    ((∀ tx ∈ txs, serde.transaction.Writes tx) ∧ serde.encodeTransactions c txs =
        .ok (txs.map fun tx => ((tx.hash c).toList, serde.transaction.bytes tx))) ∨
      ((¬ ∀ tx ∈ txs, serde.transaction.Writes tx) ∧
        ∃ e, serde.encodeTransactions c txs = .error e) := by
  induction txs with
  | nil => exact Or.inl ⟨by simp, rfl⟩
  | cons tx txs ih =>
    unfold encodeTransactions
    simp only [List.forall_mem_cons]
    cases hdata : serde.transaction.serialize tx with
    | error e => exact Or.inr ⟨fun h => Serde.not_writes_of_error hdata h.1, e, rfl⟩
    | ok data =>
      rcases ih with ⟨hall, hrest⟩ | ⟨hnot, e, he⟩
      · rw [hrest, List.map_cons, Serde.bytes_eq hdata]
        exact Or.inl ⟨⟨Serde.writes_of_ok hdata, hall⟩, rfl⟩
      · rw [he]
        exact Or.inr ⟨fun h => hnot h.2, e, rfl⟩

end BlockSerde

namespace RawBlockStore

theorem toList_injective : Function.Injective (List.Vector.toList : Bytes 32 → List UInt8) :=
  List.Vector.toList_injective

/-- The bytes hold the encodings of the blocks, of what is stored about them and of the
transactions, and the caches are equal. -/
structure Represents (serde : BlockSerde) (s : RawBlockStore) (t : CachedBlockStore) : Prop where
  cache : s.cache = t.cache
  blocks : Stores List.Vector.toList serde.block.bytes t.db.blocks s.db.blocks
  transactions : Stores List.Vector.toList serde.transaction.bytes t.db.transactions
    s.db.transactions
  metadata : Stores metadataBytes (fun b => serde.metadata.bytes (serde.metadataOf b)) t.db.blocks
    s.db.metadata
  written : ∀ hash b, t.db.blocks.lookup hash = some b → serde.Writes b

section Represents
variable {c : Crypto} {serde : BlockSerde} {s : RawBlockStore} {t : CachedBlockStore}

theorem insertBlock_cases (c : Crypto) (serde : BlockSerde) (s : RawBlockStore) (env : StoreEnv)
    (b : Block) :
    (serde.Writes b ∧ (s.insertBlock c serde env b).2 = match env.writeError with
      | some _ => s
      | none => addToCache ⟨s.db.insertBlock b.hash (serde.block.bytes b)
          (serde.metadata.bytes (serde.metadataOf b))
          (b.transactions.map fun tx => ((tx.hash c).toList, serde.transaction.bytes tx)),
          s.cache⟩ env.order b.hash b) ∨
      (¬ serde.Writes b ∧ (s.insertBlock c serde env b).2 = s) := by
  unfold insertBlock
  cases hblock : serde.block.serialize b with
  | error e => exact Or.inr ⟨fun h => Serde.not_writes_of_error hblock h.block, rfl⟩
  | ok blockData =>
    dsimp only
    cases hmetadata : serde.metadata.serialize (serde.metadataOf b) with
    | error e => exact Or.inr ⟨fun h => Serde.not_writes_of_error hmetadata h.metadata, rfl⟩
    | ok metadataData =>
      dsimp only
      rcases serde.encodeTransactions_cases c b.transactions with ⟨hall, htxs⟩ | ⟨hnot, e, he⟩
      · left
        refine ⟨⟨Serde.writes_of_ok hblock, Serde.writes_of_ok hmetadata, hall⟩, ?_⟩
        rw [htxs, Serde.bytes_eq hblock, Serde.bytes_eq hmetadata]
        cases env.writeError <;> rfl
      · rw [he]
        exact Or.inr ⟨fun h => hnot h.transactions, rfl⟩

theorem represents_empty : (newWithPath ⟨∅, ∅, ∅⟩).Represents serde .empty :=
  ⟨rfl, .empty, .empty, .empty, nofun⟩

theorem Represents.restart (h : s.Represents serde t) :
    (newWithPath s.db).Represents serde ⟨t.db, .empty 100⟩ :=
  ⟨rfl, h.blocks, h.transactions, h.metadata, h.written⟩

theorem Represents.addToCache (h : s.Represents serde t) (order : IterOrder BlockHash Block)
    (hash : BlockHash) (block : Block) :
    (s.addToCache order hash block).Represents serde (t.addToCache order hash block) :=
  ⟨congrArg (·.add order hash block) h.cache, h.blocks, h.transactions, h.metadata, h.written⟩

theorem Represents.removeFromCache (h : s.Represents serde t) (hash : BlockHash) :
    (s.removeFromCache hash).Represents serde (t.removeFromCache hash) :=
  ⟨congrArg (·.remove hash) h.cache, h.blocks, h.transactions, h.metadata, h.written⟩

theorem Represents.clearCache (h : s.Represents serde t) :
    Represents serde { s with cache := s.cache.clear } { t with cache := t.cache.clear } :=
  ⟨congrArg BoundedCache.clear h.cache, h.blocks, h.transactions, h.metadata, h.written⟩

theorem Represents.getBlock (h : s.Represents serde t) (hround : serde.block.RoundTrips)
    (order : IterOrder BlockHash Block) (hash : BlockHash) :
    (s.getBlock serde none order hash).1 = (t.getBlock order hash).1 ∧
      (s.getBlock serde none order hash).2.Represents serde (t.getBlock order hash).2 := by
  unfold RawBlockStore.getBlock CachedBlockStore.getBlock
  rw [h.cache, h.blocks.get]
  cases t.cache.entries.lookup hash with
  | some block => exact ⟨rfl, h⟩
  | none =>
    cases hstored : t.db.blocks.lookup hash with
    | none => exact ⟨rfl, h⟩
    | some b =>
      dsimp only [Option.map_some]
      rw [hround.deserialize_bytes (h.written hash b hstored).block]
      exact ⟨rfl, h.addToCache order hash b⟩

theorem getBlock_of_readError (serde : BlockSerde) (s : RawBlockStore) (e : String)
    (order : IterOrder BlockHash Block) (hash : BlockHash) :
    s.getBlock serde (some e) order hash = (s.cache.entries.lookup hash, s) := by
  unfold RawBlockStore.getBlock
  cases s.cache.entries.lookup hash <;> rfl

theorem Represents.insertBlock (h : s.Represents serde t) (env : StoreEnv) (b : Block) :
    (s.insertBlock c serde env b).2.Represents serde
      (if serde.Writes b then (t.insertBlock c env b).2 else t) := by
  rcases insertBlock_cases c serde s env b with ⟨hwrites, he⟩ | ⟨hnot, he⟩
  · rw [he, if_pos hwrites]
    unfold CachedBlockStore.insertBlock
    cases env.writeError with
    | some e => exact h
    | none =>
      apply Represents.addToCache
      have htxs := h.transactions.foldl_insert toList_injective (Transaction.hash c) id
        b.transactions
      refine ⟨h.cache, h.blocks.insert toList_injective b.hash b, ?_,
        h.metadata.insert metadataBytes_injective b.hash b, ?_⟩
      · rw [RawDatabase.insertBlock, List.foldl_map]
        exact htxs
      · intro hash b' hb'
        change (t.db.blocks.insert b.hash b).lookup hash = some b' at hb'
        rw [lookup_insert_eq_ite] at hb'
        split_ifs at hb' with hhash
        · rwa [← Option.some.inj hb']
        · exact h.written hash b' hb'
  · rw [he, if_neg hnot]
    exact h

theorem Represents.deleteBatch (h : s.Represents serde t) (hash : BlockHash)
    (txHashes : List TxId) :
    Represents serde { s with db := s.db.deleteBlock hash txHashes }
      { t with db := t.db.deleteBlock hash txHashes } := by
  refine ⟨h.cache, h.blocks.erase toList_injective hash,
    h.transactions.foldl_erase toList_injective txHashes,
    h.metadata.erase metadataBytes_injective hash, ?_⟩
  intro hash' b hb
  change (t.db.blocks.erase hash).lookup hash' = some b at hb
  rw [lookup_erase_eq_ite] at hb
  split_ifs at hb
  exact h.written hash' b hb

theorem Represents.deleteBlock (h : s.Represents serde t) (hround : serde.block.RoundTrips)
    (env : RawStoreEnv) (hash : BlockHash) :
    (s.deleteBlock c serde env hash).2.Represents serde (t.deleteWith c env hash) := by
  unfold RawBlockStore.deleteBlock CachedBlockStore.deleteWith
  cases hread : env.readError with
  | none =>
    obtain ⟨hfound, hrest⟩ := (h.removeFromCache hash).getBlock hround env.order hash
    unfold CachedBlockStore.deleteBlock
    dsimp only
    rw [hfound]
    cases env.writeError with
    | some e => exact hrest
    | none => exact hrest.deleteBatch hash _
  | some e =>
    have hgone : (s.removeFromCache hash).cache.entries.lookup hash = none := by
      change (s.cache.remove hash).entries.lookup hash = none
      rw [BoundedCache.lookup_remove, if_pos rfl]
    dsimp only
    rw [getBlock_of_readError, hgone]
    unfold CachedBlockStore.deleteUnread
    cases env.writeError with
    | some e => exact h.removeFromCache hash
    | none => exact (h.removeFromCache hash).deleteBatch hash []

theorem Represents.deleteBlocks (h : s.Represents serde t) (hround : serde.block.RoundTrips)
    (env : BlockHash → RawStoreEnv) (hashes : List BlockHash) :
    (RawBlockStore.deleteBlocks c serde env s hashes).Represents serde
      (hashes.foldl (fun t hash => t.deleteWith c (env hash) hash) t) := by
  induction hashes generalizing s t with
  | nil => exact h
  | cons hash hashes ih => exact ih (h.deleteBlock hround (env hash) hash)

theorem le_toList_iff (a b : Bytes 32) : lexOrder.le a.toList b.toList ↔ a ≤ b := Iff.rfl

theorem Represents.sortedEntries_eq (h : s.Represents serde t) :
    @sortedEntries _ _ lexOrder s.db.blocks =
      (sortedEntries t.db.blocks).map fun e => (e.1.toList, serde.block.bytes e.2) :=
  h.blocks.sortedEntries_eq le_toList_iff

theorem Represents.getAllHashes (h : s.Represents serde t) :
    s.getAllHashes none = t.getAllHashes := by
  change (@sortedKeys _ _ lexOrder s.db.blocks).filterMap _ = _
  rw [h.blocks.sortedKeys_eq le_toList_iff, List.filterMap_map]
  have hkeep : (sortedKeys t.db.blocks).filterMap ((fun key : List UInt8 =>
      if h : key.length = 32 then some (⟨key, h⟩ : Bytes 32) else none) ∘ List.Vector.toList) =
        (sortedKeys t.db.blocks).filterMap some := by
    apply List.filterMap_congr
    intro hash _
    exact dif_pos (Bytes.length_toList hash)
  exact hkeep.trans (List.filterMap_some ..)

theorem Represents.step (h : s.Represents serde t) (hround : serde.block.RoundTrips)
    (e : StoreEvent) : (s.step c serde e).Represents serde (t.step c serde e) := by
  cases e with
  | insertBlock env b => exact h.insertBlock env b
  | deleteBlock env hash => exact h.deleteBlock hround env hash
  | getBlock readError order hash =>
    cases readError with
    | none => exact (h.getBlock hround order hash).2
    | some e =>
      change (s.getBlock serde (some e) order hash).2.Represents serde t
      rw [getBlock_of_readError]
      exact h
  | clear scanError env =>
    cases scanError with
    | none =>
      have hlast := h.deleteBlocks (c := c) hround env t.getAllHashes
      rw [← h.getAllHashes] at hlast
      change Represents serde _ (CachedBlockStore.step c serde t (.clear none env))
      unfold CachedBlockStore.step
      rw [← h.getAllHashes]
      exact hlast.clearCache
    | some e => exact h.clearCache
  | restart => exact h.restart

theorem Represents.run (h : s.Represents serde t) (hround : serde.block.RoundTrips)
    (events : List StoreEvent) :
    (events.foldl (RawBlockStore.step c serde) s).Represents serde
      (events.foldl (CachedBlockStore.step c serde) t) := by
  induction events generalizing s t with
  | nil => exact h
  | cons e events ih => exact ih (h.step hround e)

/-- Every read of the bytes is the read of the maps; one that fails finds what is cached. -/
structure Answers (serde : BlockSerde) (s : RawBlockStore) (t : CachedBlockStore) : Prop where
  getBlock : ∀ order hash, (s.getBlock serde none order hash).1 = (t.getBlock order hash).1
  blockExists : ∀ hash, s.blockExists none hash = t.blockExists hash
  missed : ∀ e order hash,
    s.getBlock serde (some e) order hash = (t.cache.entries.lookup hash, s) ∧
      s.blockExists (some e) hash = decide (hash ∈ t.cache.entries)
  getAllHashes : s.getAllHashes none = t.getAllHashes
  getBlockMetadata : ∀ hash, s.getBlockMetadata serde none hash =
    .ok ((t.db.blocks.lookup hash).map serde.metadataOf)
  getStats : s.getStats none = .ok ⟨t.db.blocks.keys.card,
    ((sortedEntries t.db.blocks).map fun e => (serde.block.bytes e.2).length).sum, t.cache.size⟩

theorem Represents.answers (h : s.Represents serde t) (hblock : serde.block.RoundTrips)
    (hmetadata : serde.metadata.RoundTrips) : s.Answers serde t := by
  constructor
  case getBlock => exact fun order hash => (h.getBlock hblock order hash).1
  case blockExists =>
    intro hash
    unfold RawBlockStore.blockExists CachedBlockStore.blockExists
    rw [h.cache]
    by_cases hcached : hash ∈ t.cache.entries
    · simp [hcached]
    · simp [hcached, h.blocks.mem_iff hash]
  case missed =>
    intro e order hash
    rw [getBlock_of_readError, h.cache]
    refine ⟨rfl, ?_⟩
    unfold RawBlockStore.blockExists
    rw [h.cache]
    by_cases hcached : hash ∈ t.cache.entries <;> simp [hcached]
  case getAllHashes => exact h.getAllHashes
  case getBlockMetadata =>
    intro hash
    unfold RawBlockStore.getBlockMetadata
    dsimp only
    rw [h.metadata.get]
    cases hstored : t.db.blocks.lookup hash with
    | none => rfl
    | some b =>
      dsimp only [Option.map_some]
      rw [hmetadata.deserialize_bytes (h.written hash b hstored).metadata]
  case getStats =>
    have hlength := (enumerates_sortedEntries t.db.blocks).length_eq
    unfold RawBlockStore.getStats
    dsimp only
    rw [h.sortedEntries_eq, List.length_map, hlength, List.map_map, h.cache]
    rfl

/-- Over every run of calls and restarts, whatever fails on the way, the store on bytes reads as the
store on maps does, what it keeps about a block is what the block says, and its size is that of the
encoded blocks. After a further restart it serves exactly the blocks that are stored. -/
theorem bytes_refine_maps (c : Crypto) (serde : BlockSerde) (hblock : serde.block.RoundTrips)
    (hmetadata : serde.metadata.RoundTrips) (events : List StoreEvent) :
    let s := events.foldl (step c serde) (newWithPath ⟨∅, ∅, ∅⟩)
    let t := events.foldl (CachedBlockStore.step c serde) .empty
    s.Answers serde t ∧ (∀ order hash, ((newWithPath s.db).getBlock serde none order hash).1 =
      t.db.blocks.lookup hash) := by
  intro s t
  have h : s.Represents serde t := represents_empty.run hblock events
  refine ⟨h.answers hblock hmetadata, ?_⟩
  intro order hash
  rw [(h.restart.getBlock hblock order hash).1, CachedBlockStore.getBlock_fst]
  exact Option.none_or

end Represents

section Sample
open CachedBlockStore

def sampleBlockBytes : List UInt8 :=
  sampleStored.hash.toList ++ le64 0 ++ le64 1000 ++ le64 0 ++ [0, 0, 0, 0] ++ le64 0 ++
    List.replicate 32 0 ++ [1, 0, 0, 0] ++ le64 0 ++ [0] ++ le64 0 ++ le64 0 ++ le64 0 ++
    sampleStored.producer.toList ++ le64 sampleStored.reward ++ le64 0

def sampleMetadata : StoredMetadata := ⟨0, 1000, 0, sampleBlockBytes.length⟩

def sampleSerde : BlockSerde :=
  ⟨.knowing [(sampleStored, sampleBlockBytes)], .knowing [],
    .knowing [(sampleMetadata, le64 0 ++ le64 1000 ++ le64 0 ++
      le64 (UInt64.ofNat sampleBlockBytes.length))]⟩

def sampleRestart : List StoreEvent :=
  [.insertBlock sampleStoreEnv sampleStored,
    .deleteBlock ⟨⟨.sorted, some "No space left on device"⟩, none⟩ sampleStored.hash, .restart]

set_option maxRecDepth 20000 in
theorem bytes_refine_maps_sample :
    ((newWithPath (sampleRestart.foldl (step .hashOnly sampleSerde)
      (newWithPath ⟨∅, ∅, ∅⟩)).db).getBlock sampleSerde none .sorted sampleStored.hash).1 =
        some sampleStored := by
  have hblock : sampleSerde.block.RoundTrips := Serde.roundTrips_knowing (List.nodup_singleton _)
  have hmetadata : sampleSerde.metadata.RoundTrips :=
    Serde.roundTrips_knowing (List.nodup_singleton _)
  rw [(bytes_refine_maps .hashOnly sampleSerde hblock hmetadata sampleRestart).2]
  decide +kernel

end Sample

end RawBlockStore

end CytahSpeed
