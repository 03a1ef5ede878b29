import CytahSpeed.BlockStore
import CytahSpeed.BoundedCache
import CytahSpeed.StepRun

/-!
# The block store with its cache

The database has three column families, which a batch writes together: blocks, the transactions of
all blocks under their hashes, and one metadata entry a block. In front of the blocks stands a cache
that reads fill as well as writes. A deletion takes the block out of the cache first and then reads
it, to know its transactions; the read puts it back.
-/

namespace CytahSpeed
open ByteString FiniteMap

structure BlockMetadata where
  height : UInt64
  timestamp : UInt64
  transactionCount : ℕ
  deriving DecidableEq

structure BlockDatabase where
  blocks : Map BlockHash Block
  transactions : Map TxId Transaction
  metadata : Map String BlockMetadata

def metadataKey (hash : BlockHash) : String := "meta_" ++ hexEncode hash.toList

theorem metadataKey_injective : Function.Injective metadataKey := by
  intro h h' heq
  exact Subtype.ext (hexEncode_injective ((String.append_right_inj "meta_").mp heq))

def BlockDatabase.insertBlock (c : Crypto) (db : BlockDatabase) (block : Block) : BlockDatabase :=
  ⟨db.blocks.insert block.hash block,
    block.transactions.foldl (fun txs tx => txs.insert (tx.hash c) tx) db.transactions,
    db.metadata.insert (metadataKey block.hash)
      ⟨block.height, block.header.timestamp, block.transactions.length⟩⟩

/-- The batch of a deletion, with the transactions of the block that was read. -/
def BlockDatabase.deleteBlock (db : BlockDatabase) (hash : BlockHash) (txHashes : List TxId) :
    BlockDatabase :=
  ⟨db.blocks.erase hash, txHashes.foldl (fun txs h => txs.erase h) db.transactions,
    db.metadata.erase (metadataKey hash)⟩

structure CachedBlockStore where
  db : BlockDatabase
  cache : BoundedCache BlockHash Block

/-- What a call meets: the order in which the cache is iterated, and the error of the database
write, if it fails. -/
structure StoreEnv where
  order : IterOrder BlockHash Block
  writeError : Option String

namespace CachedBlockStore

def empty : CachedBlockStore := ⟨⟨∅, ∅, ∅⟩, .empty 100⟩

variable (c : Crypto) (s : CachedBlockStore)

def addToCache (order : IterOrder BlockHash Block) (hash : BlockHash) (block : Block) :
    CachedBlockStore :=
  { s with cache := s.cache.add order hash block }

def removeFromCache (hash : BlockHash) : CachedBlockStore :=
  { s with cache := s.cache.remove hash }

def insertBlock (env : StoreEnv) (block : Block) : Except String Unit × CachedBlockStore :=
  match env.writeError with
  | some e => (.error ("Failed to write block: " ++ e), s)
  | none =>
    (.ok (), addToCache { s with db := s.db.insertBlock c block } env.order block.hash block)

def getBlock (order : IterOrder BlockHash Block) (hash : BlockHash) :
    Option Block × CachedBlockStore :=
  match s.cache.entries.lookup hash with
  | some block => (some block, s)
  | none =>
    match s.db.blocks.lookup hash with
    | some block => (some block, s.addToCache order hash block)
    | none => (none, s)

def blockExists (hash : BlockHash) : Bool := hash ∈ s.cache.entries || hash ∈ s.db.blocks

/-- The batch is built while the block is still stored, and applied last. -/
def deleteBlock (env : StoreEnv) (hash : BlockHash) : Except String Unit × CachedBlockStore :=
  let s := s.removeFromCache hash
  match s.getBlock env.order hash with
  | (found, s) =>
    let txHashes := match found with
      | some block => block.transactions.map (Transaction.hash c)
      | none => []
    match env.writeError with
    | some e => (.error ("Failed to delete block: " ++ e), s)
    | none => (.ok (), { s with db := s.db.deleteBlock hash txHashes })

def getAllHashes : List BlockHash := sortedKeys s.db.blocks

def getBlocks (order : IterOrder BlockHash Block) :
    CachedBlockStore → List BlockHash → List Block × CachedBlockStore
  | s, [] => ([], s)
  | s, hash :: hashes =>
    match s.getBlock order hash with
    | (found, s) =>
      match getBlocks order s hashes with
      | (blocks, s) => (found.toList ++ blocks, s)

def getAllBlocks (order : IterOrder BlockHash Block) : List Block × CachedBlockStore :=
  getBlocks order s s.getAllHashes

def deleteBlocks (env : BlockHash → StoreEnv) (s : CachedBlockStore) (hashes : List BlockHash) :
    CachedBlockStore :=
  hashes.foldl (fun s hash => (s.deleteBlock c (env hash) hash).2) s

def clear (env : BlockHash → StoreEnv) : CachedBlockStore :=
  let s := deleteBlocks c env s s.getAllHashes
  { s with cache := s.cache.clear }

/-- The calls that write the database. -/
inductive WriteCall
  | insertBlock (env : StoreEnv) (block : Block)
  | deleteBlock (env : StoreEnv) (hash : BlockHash)

inductive StoreCall
  | write (call : WriteCall)
  | getBlock (order : IterOrder BlockHash Block) (hash : BlockHash)
  | blockExists (hash : BlockHash)
  | clear (env : BlockHash → StoreEnv)

def execWrite (s : CachedBlockStore) : WriteCall → CachedBlockStore
  | .insertBlock env block => (s.insertBlock c env block).2
  | .deleteBlock env hash => (s.deleteBlock c env hash).2

def exec (s : CachedBlockStore) : StoreCall → CachedBlockStore
  | .write call => s.execWrite c call
  | .getBlock order hash => (s.getBlock order hash).2
  | .blockExists _ => s
  | .clear env => s.clear c env

/-- The blocks alone, without the cache and the two other families. -/
def toBlockStore : BlockStore := ⟨s.db.blocks⟩

def storedTxHashes (hash : BlockHash) : List TxId :=
  match s.db.blocks.lookup hash with
  | some block => block.transactions.map (Transaction.hash c)
  | none => []

/-- The store after the read of a deletion: the block was taken out of the cache and put back. -/
def reread (order : IterOrder BlockHash Block) (hash : BlockHash) : CachedBlockStore :=
  match s.db.blocks.lookup hash with
  | some block => (s.removeFromCache hash).addToCache order hash block
  | none => s.removeFromCache hash

/-- Reads are reads of the database. -/
structure Transparent : Prop where
  getBlock : ∀ order hash, (s.getBlock order hash).1 = s.db.blocks.lookup hash
  blockExists : ∀ hash, s.blockExists hash = true ↔ hash ∈ s.db.blocks

def KeepsCache : StoreCall → Prop
  | .write (.deleteBlock env hash) => env.writeError = none → hash ∉ s.db.blocks
  | _ => True

section Cache
variable {c s} {order : IterOrder BlockHash Block} {env : StoreEnv} {hash : BlockHash}

theorem getBlock_fst (s : CachedBlockStore) (order : IterOrder BlockHash Block)
    (hash : BlockHash) :
    (s.getBlock order hash).1 = (s.cache.entries.lookup hash).or (s.db.blocks.lookup hash) := by
  unfold getBlock
  cases s.cache.entries.lookup hash with
  | some block => rfl
  | none => cases s.db.blocks.lookup hash <;> rfl

theorem db_getBlock (s : CachedBlockStore) (order : IterOrder BlockHash Block)
    (hash : BlockHash) : (s.getBlock order hash).2.db = s.db := by
  unfold getBlock
  cases s.cache.entries.lookup hash with
  | some block => rfl
  | none => cases s.db.blocks.lookup hash <;> rfl

theorem transparent_iff (s : CachedBlockStore) :
    s.Transparent ↔ s.cache.Coherent s.db.blocks := by
  constructor
  · intro h hash block hblock
    rw [← h.getBlock .sorted hash, getBlock_fst, hblock]
    rfl
  · intro h
    constructor
    · intro order hash
      rw [getBlock_fst, h.or_lookup]
    · intro hash
      rw [blockExists, Bool.or_eq_true, decide_eq_true_eq, decide_eq_true_eq]
      refine ⟨?_, Or.inr⟩
      rintro (hcached | hstored)
      · obtain ⟨block, hblock⟩ := Finmap.mem_iff.mp hcached
        exact Finmap.mem_iff.mpr ⟨block, h hash block hblock⟩
      · exact hstored

theorem coherent_getBlock (hs : s.cache.Coherent s.db.blocks) :
    (s.getBlock order hash).2.cache.Coherent s.db.blocks := by
  unfold getBlock
  cases s.cache.entries.lookup hash with
  | some block => exact hs
  | none =>
    cases hstored : s.db.blocks.lookup hash with
    | some block => exact hs.add hstored
    | none => exact hs

theorem coherent_insertBlock (hs : s.cache.Coherent s.db.blocks) (block : Block) :
    (s.insertBlock c env block).2.cache.Coherent (s.insertBlock c env block).2.db.blocks := by
  unfold insertBlock
  cases env.writeError with
  | some e => exact hs
  | none => exact hs.insert block.hash block

/-- The read of a deletion finds what the database holds, and copies it. -/
theorem getBlock_removeFromCache (s : CachedBlockStore) (order : IterOrder BlockHash Block)
    (hash : BlockHash) : (s.removeFromCache hash).getBlock order hash =
      (s.db.blocks.lookup hash, s.reread order hash) := by
  have hgone : (s.removeFromCache hash).cache.entries.lookup hash = none := by
    change (s.cache.remove hash).entries.lookup hash = none
    rw [BoundedCache.lookup_remove, if_pos rfl]
  simp only [getBlock, hgone]
  change (match s.db.blocks.lookup hash with | some _ => _ | none => _) = _
  unfold reread
  cases s.db.blocks.lookup hash <;> rfl

theorem db_reread (s : CachedBlockStore) (order : IterOrder BlockHash Block)
    (hash : BlockHash) : (s.reread order hash).db = s.db := by
  unfold reread
  cases s.db.blocks.lookup hash <;> rfl

theorem coherent_reread (hs : s.cache.Coherent s.db.blocks) :
    (s.reread order hash).cache.Coherent s.db.blocks := by
  unfold reread
  cases hstored : s.db.blocks.lookup hash with
  | some block => exact (hs.remove hash).add hstored
  | none => exact hs.remove hash

theorem lookup_reread (s : CachedBlockStore) (order : IterOrder BlockHash Block)
    (hash : BlockHash) :
    (s.reread order hash).cache.entries.lookup hash = s.db.blocks.lookup hash := by
  unfold reread
  cases s.db.blocks.lookup hash with
  | some block => exact BoundedCache.lookup_add_self order _ hash block
  | none =>
    change (s.cache.remove hash).entries.lookup hash = none
    rw [BoundedCache.lookup_remove, if_pos rfl]

theorem deleteBlock_eq (c : Crypto) (s : CachedBlockStore) (env : StoreEnv) (hash : BlockHash) :
    s.deleteBlock c env hash = match env.writeError with
      | some e => (.error ("Failed to delete block: " ++ e), s.reread env.order hash)
      | none =>
        (.ok (), ⟨s.db.deleteBlock hash (s.storedTxHashes c hash),
          (s.reread env.order hash).cache⟩) := by
  simp only [deleteBlock, getBlock_removeFromCache, db_reread]
  rfl

/-- A block that is deleted stays in the cache. -/
theorem coherent_deleteBlock_iff (hs : s.cache.Coherent s.db.blocks) :
    (s.deleteBlock c env hash).2.cache.Coherent (s.deleteBlock c env hash).2.db.blocks ↔
      (env.writeError = none → hash ∉ s.db.blocks) := by
  rw [deleteBlock_eq]
  cases env.writeError with
  | some e =>
    simp only [reduceCtorEq, false_implies, iff_true]
    rw [db_reread]
    exact coherent_reread hs
  | none =>
    simp only [forall_const]
    have hread : (s.reread env.order hash).cache.Coherent s.db.blocks := coherent_reread hs
    have herase := hread.erase_iff hash
    rw [lookup_reread, Finmap.lookup_eq_none] at herase
    exact herase

theorem coherent_exec_iff (c : Crypto) (hs : s.cache.Coherent s.db.blocks) (call : StoreCall) :
    (s.exec c call).cache.Coherent (s.exec c call).db.blocks ↔ s.KeepsCache call := by
  cases call with
  | write call =>
    cases call with
    | insertBlock env block => exact iff_of_true (coherent_insertBlock hs block) trivial
    | deleteBlock env hash => exact coherent_deleteBlock_iff hs
  | getBlock order hash =>
    refine iff_of_true ?_ trivial
    change (s.getBlock order hash).2.cache.Coherent (s.getBlock order hash).2.db.blocks
    rw [db_getBlock]
    exact coherent_getBlock hs
  | blockExists hash => exact iff_of_true hs trivial
  | clear env => exact iff_of_true (BoundedCache.coherent_empty _ _) trivial

theorem getBlocks_of_coherent (s : CachedBlockStore) (order : IterOrder BlockHash Block)
    (hashes : List BlockHash) (hs : s.cache.Coherent s.db.blocks) :
    (getBlocks order s hashes).1 = hashes.filterMap s.toBlockStore.getBlock := by
  induction hashes generalizing s with
  | nil => rfl
  | cons hash hashes ih =>
    have hread : (s.getBlock order hash).2.cache.Coherent (s.getBlock order hash).2.db.blocks := by
      rw [db_getBlock]
      exact coherent_getBlock hs
    have hrest := ih (s.getBlock order hash).2 hread
    have hsame : (s.getBlock order hash).2.toBlockStore = s.toBlockStore := by
      rw [toBlockStore, db_getBlock]
      rfl
    have hfound : (s.getBlock order hash).1 = s.toBlockStore.getBlock hash := by
      rw [getBlock_fst, hs.or_lookup]
      rfl
    change (s.getBlock order hash).1.toList ++
      (getBlocks order (s.getBlock order hash).2 hashes).1 = _
    rw [hrest, hsame, hfound]
    cases hb : s.toBlockStore.getBlock hash with
    | none => rw [List.filterMap_cons_none hb]; rfl
    | some b => rw [List.filterMap_cons_some hb]; rfl

/-- A transparent store answers as the blocks alone do. -/
theorem Transparent.refines (hs : s.Transparent) (order : IterOrder BlockHash Block) :
    (∀ hash, (s.getBlock order hash).1 = s.toBlockStore.getBlock hash) ∧
      (∀ hash, s.blockExists hash = s.toBlockStore.blockExists hash) ∧
        s.getAllHashes = s.toBlockStore.getAllHashes ∧
          (s.getAllBlocks order).1 = s.toBlockStore.getAllBlocks := by
  refine ⟨hs.getBlock order, ?_, rfl, getBlocks_of_coherent s order _ ((transparent_iff s).mp hs)⟩
  intro hash
  rw [Bool.eq_iff_iff, hs.blockExists hash]
  exact decide_eq_true_iff.symm

theorem insertBlock_refines (c : Crypto) (s : CachedBlockStore) (env : StoreEnv)
    (block : Block) :
    (s.insertBlock c env block).1 = (s.toBlockStore.insertBlock env.writeError block).1 ∧
      (s.insertBlock c env block).2.toBlockStore =
        (s.toBlockStore.insertBlock env.writeError block).2 := by
  unfold insertBlock BlockStore.insertBlock
  cases env.writeError <;> exact ⟨rfl, rfl⟩

/-- In every run from an empty store, reads are reads of the database after every call exactly if
no call deletes a block that is stored. -/
theorem transparent_iff_no_deletion (c : Crypto) (calls : List StoreCall) :
    StepRun.Along (exec c) (fun s call => (s.exec c call).Transparent) empty calls ↔
      StepRun.Along (exec c) KeepsCache empty calls := by
  have hempty : empty.cache.Coherent empty.db.blocks := BoundedCache.coherent_empty 100 ∅
  simp only [transparent_iff]
  exact StepRun.along_iff_of_invariant
    (I := fun s : CachedBlockStore => s.cache.Coherent s.db.blocks) hempty (fun _ _ _ he => he)
    (fun _ call hs => coherent_exec_iff c hs call) calls

end Cache

section Limit
variable {c : Crypto} {s : CachedBlockStore} {order : IterOrder BlockHash Block} {env : StoreEnv}
  {hash : BlockHash} {limit : ℕ}

theorem within_getBlock (h : s.cache.Within limit) (hlimit : 0 < limit) :
    (s.getBlock order hash).2.cache.Within limit := by
  unfold getBlock
  cases s.cache.entries.lookup hash with
  | some block => exact h
  | none =>
    cases s.db.blocks.lookup hash with
    | some block => exact h.add hlimit hash block
    | none => exact h

theorem within_insertBlock (h : s.cache.Within limit) (hlimit : 0 < limit) (block : Block) :
    (s.insertBlock c env block).2.cache.Within limit := by
  unfold insertBlock
  cases env.writeError with
  | some e => exact h
  | none => exact h.add hlimit block.hash block

theorem within_deleteBlock (h : s.cache.Within limit) (hlimit : 0 < limit) :
    (s.deleteBlock c env hash).2.cache.Within limit := by
  have hread : ((s.removeFromCache hash).getBlock env.order hash).2.cache.Within limit :=
    within_getBlock (h.remove hash) hlimit
  rw [getBlock_removeFromCache] at hread
  rw [deleteBlock_eq]
  cases env.writeError <;> exact hread

theorem within_deleteBlocks (env : BlockHash → StoreEnv) (hashes : List BlockHash)
    (h : s.cache.Within limit) (hlimit : 0 < limit) :
    (deleteBlocks c env s hashes).cache.Within limit := by
  induction hashes generalizing s with
  | nil => exact h
  | cons hash hashes ih => exact ih (within_deleteBlock h hlimit)

theorem within_exec (c : Crypto) (h : s.cache.Within limit) (hlimit : 0 < limit)
    (call : StoreCall) : (s.exec c call).cache.Within limit := by
  cases call with
  | write call =>
    cases call with
    | insertBlock env block => exact within_insertBlock h hlimit block
    | deleteBlock env hash => exact within_deleteBlock h hlimit
  | getBlock order hash => exact within_getBlock h hlimit
  | blockExists hash => exact h
  | clear env =>
    have hlast := within_deleteBlocks (c := c) env s.getAllHashes h hlimit
    change (BoundedCache.empty (deleteBlocks c env s s.getAllHashes).cache.limit).Within limit
    rw [hlast.1]
    exact BoundedCache.within_empty limit

/-- In every run from an empty store the cache holds a hundred blocks at most, whatever the calls
and the order in which it is iterated. -/
theorem size_cache_le (c : Crypto) (calls : List StoreCall) :
    (calls.foldl (exec c) empty).cache.size ≤ 100 := by
  have hrun : ∀ s : CachedBlockStore, s.cache.Within 100 →
      (calls.foldl (exec c) s).cache.Within 100 := by
    induction calls with
    | nil => exact fun s h => h
    | cons call calls ih => exact fun s h => ih _ (within_exec c h (by decide) call)
  exact (hrun empty (BoundedCache.within_empty 100)).2

end Limit

section Sample

def sampleStored : Block := .new .hashOnly [] 1000 [] 0 0 0 (Bytes.fill 20 7) (Bytes.zero 32)

def sampleStoreEnv : StoreEnv := ⟨.sorted, none⟩

def sampleDeletion : List StoreCall :=
  [.write (.insertBlock sampleStoreEnv sampleStored),
    .write (.deleteBlock sampleStoreEnv sampleStored.hash)]

set_option maxRecDepth 20000 in
/-- The database holds nothing and the block is still served. -/
theorem sampleDeletion_serves_block :
    ((sampleDeletion.foldl (exec .hashOnly) empty).db.blocks.lookup sampleStored.hash = none ∧
      ((sampleDeletion.foldl (exec .hashOnly) empty).getBlock .sorted sampleStored.hash).1 =
        some sampleStored ∧
      (sampleDeletion.foldl (exec .hashOnly) empty).blockExists sampleStored.hash = true) ∧
      ¬ StepRun.Along (exec .hashOnly) (fun s call => (s.exec .hashOnly call).Transparent) empty
        sampleDeletion := by
  have hgone : (sampleDeletion.foldl (exec .hashOnly) empty).db.blocks.lookup
      sampleStored.hash = none := by decide +kernel
  have hserved : ((sampleDeletion.foldl (exec .hashOnly) empty).getBlock .sorted
      sampleStored.hash).1 = some sampleStored := by decide +kernel
  refine ⟨⟨hgone, hserved, by decide +kernel⟩, ?_⟩
  intro h
  have hlast : (sampleDeletion.foldl (exec .hashOnly) empty).Transparent := h.2.1
  rw [hlast.getBlock, hgone] at hserved
  cases hserved

end Sample

end CachedBlockStore

end CytahSpeed
