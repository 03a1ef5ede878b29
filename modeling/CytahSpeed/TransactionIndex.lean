import CytahSpeed.BlockCache
import CytahSpeed.Serialisability

/-!
# The transaction index

Every stored block writes its transactions under their hashes, and a deletion erases the entries of
the block it deletes. An entry that two blocks share belongs to both: it is erased with the first of
them, and a block that replaces another one of the same hash leaves the entries of the old one.
-/

namespace CytahSpeed
open ByteString FiniteMap

namespace BlockDatabase

/-- The transactions and the metadata are those of the stored blocks. -/
structure Indexed (c : Crypto) (db : BlockDatabase) : Prop where
  transactions : ∀ t, t ∈ db.transactions ↔
    ∃ hash block, db.blocks.lookup hash = some block ∧ t ∈ block.transactions.map (·.hash c)
  metadata : ∀ key, key ∈ db.metadata ↔ ∃ hash, hash ∈ db.blocks ∧ key = metadataKey hash

def HeldElsewhere (c : Crypto) (db : BlockDatabase) (hash : BlockHash) (t : TxId) : Prop :=
  ∃ h block, h ≠ hash ∧ db.blocks.lookup h = some block ∧ t ∈ block.transactions.map (·.hash c)

/-- What a call must meet to keep the index: a block that is replaced leaves no transaction behind,
a block that is deleted shares none. -/
def KeepsIndex (c : Crypto) (db : BlockDatabase) : CachedBlockStore.WriteCall → Prop
  | .insertBlock env block => env.writeError = none →
    ∀ old, db.blocks.lookup block.hash = some old → ∀ t ∈ old.transactions.map (·.hash c),
      t ∈ block.transactions.map (·.hash c) ∨ db.HeldElsewhere c block.hash t
  | .deleteBlock env hash => env.writeError = none →
    ∀ old, db.blocks.lookup hash = some old → ∀ t ∈ old.transactions.map (·.hash c),
      ¬ db.HeldElsewhere c hash t

section Index
variable {c : Crypto} {db : BlockDatabase}

theorem mem_foldl_insert (c : Crypto) (l : List Transaction) (m : Map TxId Transaction)
    (t : TxId) : t ∈ l.foldl (fun txs tx => txs.insert (tx.hash c) tx) m ↔
      t ∈ l.map (·.hash c) ∨ t ∈ m := by
  induction l generalizing m with
  | nil => simp
  | cons tx l ih =>
    rw [List.foldl_cons, ih, Finmap.mem_insert, List.map_cons, List.mem_cons]
    tauto

theorem mem_foldl_erase (l : List TxId) (m : Map TxId Transaction) (t : TxId) :
    t ∈ l.foldl (fun txs h => txs.erase h) m ↔ t ∉ l ∧ t ∈ m := by
  induction l generalizing m with
  | nil => simp
  | cons h l ih =>
    rw [List.foldl_cons, ih, Finmap.mem_erase, List.mem_cons]
    tauto

theorem Indexed.metadata_insertBlock (hdb : db.Indexed c) (block : Block) (key : String) :
    key ∈ (db.insertBlock c block).metadata ↔
      ∃ hash, hash ∈ (db.insertBlock c block).blocks ∧ key = metadataKey hash := by
  change key ∈ db.metadata.insert _ _ ↔ ∃ hash, hash ∈ db.blocks.insert _ _ ∧ _
  simp only [Finmap.mem_insert, hdb.metadata]
  constructor
  · rintro (rfl | ⟨k, hk, rfl⟩)
    · exact ⟨block.hash, Or.inl rfl, rfl⟩
    · exact ⟨k, Or.inr hk, rfl⟩
  · rintro ⟨k, rfl | hk, rfl⟩
    · exact Or.inl rfl
    · exact Or.inr ⟨k, hk, rfl⟩

theorem Indexed.metadata_deleteBlock (hdb : db.Indexed c) (hash : BlockHash)
    (txHashes : List TxId) (key : String) :
    key ∈ (db.deleteBlock hash txHashes).metadata ↔
      ∃ k, k ∈ (db.deleteBlock hash txHashes).blocks ∧ key = metadataKey k := by
  change key ∈ db.metadata.erase _ ↔ ∃ k, k ∈ db.blocks.erase hash ∧ _
  simp only [Finmap.mem_erase, hdb.metadata]
  constructor
  · rintro ⟨hne, k, hk, rfl⟩
    exact ⟨k, ⟨fun heq => hne (congrArg metadataKey heq), hk⟩, rfl⟩
  · rintro ⟨k, ⟨hne, hk⟩, rfl⟩
    exact ⟨fun heq => hne (metadataKey_injective heq), k, hk, rfl⟩

theorem indexed_insertBlock_iff (hdb : db.Indexed c) (block : Block) :
    (db.insertBlock c block).Indexed c ↔
      ∀ old, db.blocks.lookup block.hash = some old → ∀ t ∈ old.transactions.map (·.hash c),
        t ∈ block.transactions.map (·.hash c) ∨ db.HeldElsewhere c block.hash t := by
  have hlookup : ∀ h, (db.insertBlock c block).blocks.lookup h =
      if h = block.hash then some block else db.blocks.lookup h :=
    fun h => lookup_insert_eq_ite db.blocks block.hash h block
  have htxs : ∀ t, t ∈ (db.insertBlock c block).transactions ↔
      t ∈ block.transactions.map (·.hash c) ∨ t ∈ db.transactions :=
    mem_foldl_insert c block.transactions db.transactions
  constructor
  · intro h old hold t ht
    have hentry := (htxs t).mpr (Or.inr ((hdb.transactions t).mpr ⟨_, old, hold, ht⟩))
    obtain ⟨k, b, hb, htb⟩ := (h.transactions t).mp hentry
    rw [hlookup] at hb
    by_cases hk : k = block.hash
    · rw [if_pos hk] at hb
      cases hb
      exact Or.inl htb
    · rw [if_neg hk] at hb
      exact Or.inr ⟨k, b, hk, hb, htb⟩
  · intro h
    refine ⟨?_, hdb.metadata_insertBlock block⟩
    intro t
    rw [htxs, hdb.transactions]
    constructor
    · rintro (ht | ⟨k, b, hb, ht⟩)
      · exact ⟨block.hash, block, by rw [hlookup, if_pos rfl], ht⟩
      · by_cases hk : k = block.hash
        · subst hk
          rcases h b hb t ht with hnew | ⟨k, b, hk, hb, ht⟩
          · exact ⟨block.hash, block, by rw [hlookup, if_pos rfl], hnew⟩
          · exact ⟨k, b, by rw [hlookup, if_neg hk, hb], ht⟩
        · exact ⟨k, b, by rw [hlookup, if_neg hk, hb], ht⟩
    · rintro ⟨k, b, hb, ht⟩
      rw [hlookup] at hb
      by_cases hk : k = block.hash
      · rw [if_pos hk] at hb
        cases hb
        exact Or.inl ht
      · rw [if_neg hk] at hb
        exact Or.inr ⟨k, b, hb, ht⟩

theorem indexed_deleteBlock_iff (hdb : db.Indexed c) {hash : BlockHash} {txHashes : List TxId}
    (hstored : ∀ t, t ∈ txHashes ↔ ∃ old, db.blocks.lookup hash = some old ∧
      t ∈ old.transactions.map (·.hash c)) :
    (db.deleteBlock hash txHashes).Indexed c ↔ ∀ t ∈ txHashes, ¬ db.HeldElsewhere c hash t := by
  have hlookup : ∀ h, (db.deleteBlock hash txHashes).blocks.lookup h =
      if h = hash then none else db.blocks.lookup h :=
    fun h => lookup_erase_eq_ite db.blocks hash h
  have htxs : ∀ t, t ∈ (db.deleteBlock hash txHashes).transactions ↔
      t ∉ txHashes ∧ t ∈ db.transactions :=
    mem_foldl_erase txHashes db.transactions
  constructor
  · rintro h t ht ⟨k, b, hk, hb, htb⟩
    have hentry := (h.transactions t).mpr ⟨k, b, by rw [hlookup, if_neg hk, hb], htb⟩
    exact ((htxs t).mp hentry).1 ht
  · intro h
    refine ⟨?_, hdb.metadata_deleteBlock hash txHashes⟩
    intro t
    rw [htxs, hdb.transactions]
    constructor
    · rintro ⟨hnot, k, b, hb, ht⟩
      refine ⟨k, b, ?_, ht⟩
      rw [hlookup, if_neg, hb]
      rintro rfl
      exact hnot ((hstored t).mpr ⟨b, hb, ht⟩)
    · rintro ⟨k, b, hb, ht⟩
      rw [hlookup] at hb
      by_cases hk : k = hash
      · rw [if_pos hk] at hb
        cases hb
      · rw [if_neg hk] at hb
        exact ⟨fun hold => h t hold ⟨k, b, hk, hb, ht⟩, k, b, hb, ht⟩

end Index

end BlockDatabase

namespace CachedBlockStore
open BlockDatabase ParallelExecutor

theorem mem_storedTxHashes (c : Crypto) (s : CachedBlockStore) (hash : BlockHash) (t : TxId) :
    t ∈ s.storedTxHashes c hash ↔ ∃ old, s.db.blocks.lookup hash = some old ∧
      t ∈ old.transactions.map (·.hash c) := by
  unfold storedTxHashes
  cases s.db.blocks.lookup hash <;> simp

/-- A write keeps the index exactly if no transaction that it drops is needed by another block. -/
theorem indexed_execWrite_iff {c : Crypto} {s : CachedBlockStore} (hs : s.db.Indexed c)
    (call : WriteCall) : (s.execWrite c call).db.Indexed c ↔ s.db.KeepsIndex c call := by
  cases call with
  | insertBlock env block =>
    simp only [execWrite, insertBlock, KeepsIndex]
    cases env.writeError with
    | some e => exact iff_of_true hs (fun h => by cases h)
    | none =>
      simp only [forall_const]
      exact indexed_insertBlock_iff hs block
  | deleteBlock env hash =>
    simp only [execWrite, deleteBlock_eq, KeepsIndex]
    cases env.writeError with
    | some e =>
      simp only [reduceCtorEq, false_implies, iff_true, db_reread]
      exact hs
    | none =>
      simp only [forall_const]
      rw [indexed_deleteBlock_iff hs (mem_storedTxHashes c s hash)]
      constructor
      · exact fun h old hold t ht => h t ((mem_storedTxHashes c s hash t).mpr ⟨old, hold, ht⟩)
      · intro h t ht
        obtain ⟨old, hold, ht⟩ := (mem_storedTxHashes c s hash t).mp ht
        exact h old hold t ht

theorem indexed_empty (c : Crypto) : empty.db.Indexed c := by
  constructor
  · intro t
    refine iff_of_false Finmap.notMem_empty ?_
    rintro ⟨hash, block, hblock, -⟩
    cases hblock
  · intro key
    refine iff_of_false Finmap.notMem_empty ?_
    rintro ⟨hash, hhash, -⟩
    exact Finmap.notMem_empty hhash

/-- In every run of insertions and deletions from an empty store, the transactions and the metadata
are those of the stored blocks after every call exactly if no block that is deleted shares a
transaction with another stored block and no block that is replaced has one that is lost. -/
theorem index_follows_blocks_iff (c : Crypto) (calls : List WriteCall) :
    StepRun.Along (execWrite c) (fun s call => (s.execWrite c call).db.Indexed c) empty calls ↔
      StepRun.Along (execWrite c) (fun s call => s.db.KeepsIndex c call) empty calls := by
  exact StepRun.along_iff_of_invariant (I := fun s : CachedBlockStore => s.db.Indexed c)
    (indexed_empty c) (fun _ _ _ he => he) (fun _ call hs => indexed_execWrite_iff hs call) calls

section Sample

def sampleTwins : Block × Block :=
  (.new .hashOnly [] 1000 [sampleAside] 0 0 0 (Bytes.fill 20 7) (Bytes.zero 32),
    .new .hashOnly [] 1001 [sampleAside] 0 0 0 (Bytes.fill 20 8) (Bytes.zero 32))

def sampleShared : List WriteCall :=
  [.insertBlock sampleStoreEnv sampleTwins.1, .insertBlock sampleStoreEnv sampleTwins.2,
    .deleteBlock sampleStoreEnv sampleTwins.1.hash]

set_option maxRecDepth 20000 in
/-- The other block is stored, and its transaction has no entry. -/
theorem sampleShared_loses_entry :
    ((sampleShared.foldl (execWrite .hashOnly) empty).db.blocks.lookup sampleTwins.2.hash =
        some sampleTwins.2 ∧
      sampleTwins.2.transactions = [sampleAside] ∧
      sampleAside.hash .hashOnly ∉
        (sampleShared.foldl (execWrite .hashOnly) empty).db.transactions) ∧
      ¬ StepRun.Along (execWrite .hashOnly)
        (fun s call => (s.execWrite .hashOnly call).db.Indexed .hashOnly) empty sampleShared := by
  have hstored : (sampleShared.foldl (execWrite .hashOnly) empty).db.blocks.lookup
      sampleTwins.2.hash = some sampleTwins.2 := by decide +kernel
  have hlost : sampleAside.hash .hashOnly ∉
      (sampleShared.foldl (execWrite .hashOnly) empty).db.transactions := by decide +kernel
  refine ⟨⟨hstored, rfl, hlost⟩, ?_⟩
  intro h
  have hlast : (sampleShared.foldl (execWrite .hashOnly) empty).db.Indexed .hashOnly := h.2.2.1
  exact hlost ((hlast.transactions _).mpr
    ⟨_, sampleTwins.2, hstored, List.mem_singleton.mpr rfl⟩)

end Sample

end CachedBlockStore

end CytahSpeed
