import CytahSpeed.BlockCache
import CytahSpeed.Mempool
import CytahSpeed.StateReplay

/-!
# Rollback

`rollback_blocks` deletes the listed blocks, returns their transactions to the mempool and then
rebuilds the state from what is left. A deletion may fail after others went through, and the rebuild
starts from an empty tree, so that either outcome leaves traces.
-/

namespace CytahSpeed
open ByteString FiniteMap StateManager

/-- What the deletion of one block meets: the store's part, and the pool's for each of the
transactions that are returned. -/
structure RollbackEnv where
  store : StoreEnv
  pool : ℕ → PoolEnv

structure RollbackOutcome where
  result : Except String (Option Block)
  store : CachedBlockStore
  state : StateManager
  mempool : TxDagMempool

namespace CachedBlockStore

variable (c : Crypto) (order : IterOrder Address Account) (read : IterOrder BlockHash Block)

def returnTransactions (env : ℕ → PoolEnv) (mempool : TxDagMempool) (txs : List Transaction) :
    TxDagMempool :=
  txs.zipIdx.foldl (fun m e => (m.addTransaction c (env e.2) e.1 [] none).2) mempool

/-- Blocks in the order of their heights; of equal heights in the order they were read. -/
def sortByHeight (blocks : List Block) : List Block :=
  blocks.insertionSort fun a b => a.height ≤ b.height

def rebuildState (store : CachedBlockStore) (mempool : TxDagMempool)
    (lastRemoved : Option Block) : RollbackOutcome :=
  match store.getAllBlocks read with
  | (remainingBlocks, store) =>
    match rebuildFromBlocks c order (sortByHeight remainingBlocks) with
    | (.error e, state) => ⟨.error e, store, state, mempool⟩
    | (.ok _, state) => ⟨.ok lastRemoved, store, state, mempool⟩

def rollbackFrom (state : StateManager) : CachedBlockStore → TxDagMempool → Option Block →
    List (BlockHash × RollbackEnv) → RollbackOutcome
  | store, mempool, lastRemoved, [] => rebuildState c order read store mempool lastRemoved
  | store, mempool, lastRemoved, (hash, env) :: rest =>
    match store.getBlock env.store.order hash with
    | (none, store) => rollbackFrom state store mempool lastRemoved rest
    | (some block, store) =>
      match store.deleteBlock c env.store hash with
      | (.error e, store) => ⟨.error e, store, state, mempool⟩
      | (.ok _, store) =>
        rollbackFrom state store (returnTransactions c env.pool mempool block.transactions)
          (some block) rest

def rollbackBlocks (store : CachedBlockStore) (state : StateManager) (mempool : TxDagMempool)
    (hashes : List (BlockHash × RollbackEnv)) : RollbackOutcome :=
  rollbackFrom c order read state store mempool none hashes

/-- A rollback that fails changes nothing. One that succeeds removes the listed blocks and no
others, and leaves the state that the remaining blocks make of the genesis state. -/
structure RollbackAtomic (store : CachedBlockStore) (state : StateManager)
    (mempool : TxDagMempool) (hashes : List (BlockHash × RollbackEnv)) (out : RollbackOutcome) :
    Prop where
  unchanged : ∀ e, out.result = .error e →
    out.store.db.blocks = store.db.blocks ∧ out.state = state ∧ out.mempool = mempool
  removed : ∀ last, out.result = .ok last →
    ∀ hash ∈ hashes.map Prod.fst, hash ∉ out.store.db.blocks
  kept : ∀ last, out.result = .ok last → ∀ hash ∉ hashes.map Prod.fst,
    out.store.db.blocks.lookup hash = store.db.blocks.lookup hash
  rebuilt : ∀ last, out.result = .ok last → out.state = (applyTransactions c order
    (genesis c order) ((sortByHeight out.store.toBlockStore.getAllBlocks).flatMap
      Block.transactions)).2

/-- The rollback never deletes a stored block and ends in an error: the write of the first deletion
of a stored block fails, or one of a block that is cached alone; or the rebuild fails, on a state
that was empty before. The transactions of blocks that are cached alone are returned to the pool,
which must be what it was at the end. -/
def Harmless (state : StateManager) (pool : TxDagMempool) : CachedBlockStore → TxDagMempool →
    List (BlockHash × RollbackEnv) → Prop
  | store, mempool, [] => mempool = pool ∧ state = ofTree .new ∧
    ∃ b ∈ (store.getAllBlocks read).1, ∃ tx ∈ b.transactions, isTransfer tx = true
  | store, mempool, (hash, env) :: rest =>
    if hash ∈ store.db.blocks then env.store.writeError ≠ none ∧ mempool = pool
    else
      match store.cache.entries.lookup hash with
      | none => Harmless state pool store mempool rest
      | some block =>
        match env.store.writeError with
        | some _ => mempool = pool
        | none =>
          Harmless state pool (store.deleteBlock c env.store hash).2
            (returnTransactions c env.pool mempool block.transactions) rest

structure FailsCleanly (blocks : Map BlockHash Block) (state : StateManager)
    (pool : TxDagMempool) (out : RollbackOutcome) : Prop where
  fails : ∃ e, out.result = .error e
  blocks : out.store.db.blocks = blocks
  state : out.state = state
  mempool : out.mempool = pool

section Atomic
variable {c order read} {state : StateManager} {pool : TxDagMempool}

theorem getBlock_of_notMem {s : CachedBlockStore} {hash : BlockHash}
    (h : hash ∉ s.db.blocks) (o : IterOrder BlockHash Block) :
    s.getBlock o hash = (s.cache.entries.lookup hash, s) := by
  unfold getBlock
  rw [Finmap.lookup_eq_none.mpr h]
  cases s.cache.entries.lookup hash <;> rfl

theorem getBlock_of_mem {s : CachedBlockStore} {hash : BlockHash} (h : hash ∈ s.db.blocks)
    (o : IterOrder BlockHash Block) : ∃ block, (s.getBlock o hash).1 = some block := by
  obtain ⟨b, hb⟩ := Finmap.mem_iff.mp h
  rw [getBlock_fst, hb]
  cases s.cache.entries.lookup hash with
  | none => exact ⟨b, rfl⟩
  | some block => exact ⟨block, rfl⟩

theorem blocks_deleteBlock (c : Crypto) (s : CachedBlockStore) (env : StoreEnv)
    (hash : BlockHash) : (s.deleteBlock c env hash).2.db.blocks =
      if env.writeError = none then s.db.blocks.erase hash else s.db.blocks := by
  rw [deleteBlock_eq]
  cases env.writeError with
  | none => rfl
  | some e =>
    simp only [reduceCtorEq, if_false]
    rw [db_reread]

theorem deleteBlock_of_error (s : CachedBlockStore) {env : StoreEnv} (hash : BlockHash)
    {e : String} (h : env.writeError = some e) : s.deleteBlock c env hash =
      (.error ("Failed to delete block: " ++ e), s.reread env.order hash) := by
  rw [deleteBlock_eq, h]

theorem deleteBlock_of_none (c : Crypto) (s : CachedBlockStore) {env : StoreEnv}
    (hash : BlockHash) (h : env.writeError = none) : s.deleteBlock c env hash =
      (.ok (), ⟨s.db.deleteBlock hash (s.storedTxHashes c hash),
        (s.reread env.order hash).cache⟩) := by
  rw [deleteBlock_eq, h]

theorem db_getBlocks (s : CachedBlockStore) (o : IterOrder BlockHash Block)
    (hashes : List BlockHash) : (getBlocks o s hashes).2.db = s.db := by
  induction hashes generalizing s with
  | nil => rfl
  | cons hash hashes ih => exact (ih (s.getBlock o hash).2).trans (db_getBlock s o hash)

theorem mem_sortByHeight (blocks : List Block) (b : Block) :
    b ∈ sortByHeight blocks ↔ b ∈ blocks :=
  List.mem_insertionSort _

theorem rebuildState_spec (c : Crypto) (order : IterOrder Address Account)
    (read : IterOrder BlockHash Block) (s : CachedBlockStore) (mempool : TxDagMempool)
    (last : Option Block) :
    (rebuildState c order read s mempool last).store.db = s.db ∧
      (rebuildState c order read s mempool last).state = ofTree .new ∧
        (rebuildState c order read s mempool last).mempool = mempool ∧
          ((∃ e, (rebuildState c order read s mempool last).result = .error e) ↔
            ∃ b ∈ (s.getAllBlocks read).1, ∃ tx ∈ b.transactions, isTransfer tx = true) := by
  have hdb : (s.getAllBlocks read).2.db = s.db := db_getBlocks s read _
  have hstate := rebuildFromBlocks_snd c order (sortByHeight (s.getAllBlocks read).1)
  have hok := rebuildFromBlocks_ok_iff c order (sortByHeight (s.getAllBlocks read).1)
  simp only [mem_sortByHeight] at hok
  unfold rebuildState
  rcases hblocks : s.getAllBlocks read with ⟨blocks, s'⟩
  rw [hblocks] at hdb hstate hok
  rcases hrebuilt : rebuildFromBlocks c order (sortByHeight blocks) with ⟨e | u, state'⟩
  · rw [hrebuilt] at hstate hok
    simp only [hrebuilt]
    refine ⟨hdb, hstate, trivial, iff_of_true ⟨e, rfl⟩ ?_⟩
    by_contra hnot
    have hno : ∀ b ∈ blocks, ∀ tx ∈ b.transactions, isTransfer tx = false := by
      intro b hb tx htx
      by_contra htransfer
      exact hnot ⟨b, hb, tx, htx, Bool.eq_true_of_not_eq_false htransfer⟩
    cases hok.mpr hno
  · rw [hrebuilt] at hstate hok
    simp only [hrebuilt]
    refine ⟨hdb, hstate, trivial, iff_of_false (by rintro ⟨e, h⟩; cases h) ?_⟩
    rintro ⟨b, hb, tx, htx, htransfer⟩
    rw [hok.mp rfl b hb tx htx] at htransfer
    cases htransfer

theorem notMem_rollbackFrom (hashes : List (BlockHash × RollbackEnv)) (s : CachedBlockStore)
    (mempool : TxDagMempool) (last : Option Block) {hash : BlockHash} (h : hash ∉ s.db.blocks) :
    hash ∉ (rollbackFrom c order read state s mempool last hashes).store.db.blocks := by
  induction hashes generalizing s mempool last with
  | nil =>
    rw [rollbackFrom, (rebuildState_spec c order read s mempool last).1]
    exact h
  | cons e rest ih =>
    have hread : hash ∉ (s.getBlock e.2.store.order e.1).2.db.blocks := by
      rwa [db_getBlock]
    rw [rollbackFrom]
    rcases hfound : s.getBlock e.2.store.order e.1 with ⟨_ | block, s'⟩
    · rw [hfound] at hread
      exact ih s' mempool last hread
    · rw [hfound] at hread
      have hdeleted : hash ∉ (s'.deleteBlock c e.2.store e.1).2.db.blocks := by
        rw [blocks_deleteBlock]
        split_ifs
        · exact fun hmem => hread (Finmap.mem_erase.mp hmem).2
        · exact hread
      rcases hdel : s'.deleteBlock c e.2.store e.1 with ⟨_ | _, s''⟩
      · rw [hdel] at hdeleted
        simpa only [hdel] using hdeleted
      · rw [hdel] at hdeleted
        simpa only [hdel] using ih s'' _ _ hdeleted

theorem state_rollbackFrom_of_ok (hashes : List (BlockHash × RollbackEnv)) (s : CachedBlockStore)
    (mempool : TxDagMempool) (last : Option Block) {removed : Option Block}
    (h : (rollbackFrom c order read state s mempool last hashes).result = .ok removed) :
    (rollbackFrom c order read state s mempool last hashes).state = ofTree .new := by
  induction hashes generalizing s mempool last with
  | nil => exact (rebuildState_spec c order read s mempool last).2.1
  | cons e rest ih =>
    rw [rollbackFrom] at h ⊢
    rcases hfound : s.getBlock e.2.store.order e.1 with ⟨_ | block, s'⟩
    · simp only [hfound] at h ⊢
      exact ih s' mempool last h
    · simp only [hfound] at h ⊢
      rcases hdel : s'.deleteBlock c e.2.store e.1 with ⟨_ | _, s''⟩
      · simp only [hdel] at h
        cases h
      · simp only [hdel] at h ⊢
        exact ih s'' _ _ h

theorem blocks_deleteBlock_of_notMem (c : Crypto) {s : CachedBlockStore} {hash : BlockHash}
    (env : StoreEnv) (h : hash ∉ s.db.blocks) :
    (s.deleteBlock c env hash).2.db.blocks = s.db.blocks := by
  rw [blocks_deleteBlock]
  split_ifs
  · apply Finmap.ext_lookup
    intro k
    rw [lookup_erase_eq_ite]
    by_cases hk : k = hash
    · rw [if_pos hk, hk, Finmap.lookup_eq_none.mpr h]
    · rw [if_neg hk]
  · rfl

/-- At a stored block the rollback fails cleanly exactly if it fails right there. -/
theorem failsCleanly_cons_of_mem (order : IterOrder Address Account) {s : CachedBlockStore}
    {mempool : TxDagMempool} (last : Option Block) {hash : BlockHash} (env : RollbackEnv)
    (rest : List (BlockHash × RollbackEnv)) (hmem : hash ∈ s.db.blocks) :
    FailsCleanly s.db.blocks state pool
        (rollbackFrom c order read state s mempool last ((hash, env) :: rest)) ↔
      env.store.writeError ≠ none ∧ mempool = pool := by
  obtain ⟨block, hblock⟩ := getBlock_of_mem hmem env.store.order
  have hdb := db_getBlock s env.store.order hash
  rw [rollbackFrom]
  rcases hfound : s.getBlock env.store.order hash with ⟨found, s'⟩
  rw [hfound] at hblock hdb
  cases hblock
  simp only
  cases hwrite : env.store.writeError with
  | some err =>
    rw [deleteBlock_of_error s' hash hwrite]
    constructor
    · exact fun h => ⟨nofun, h.mempool⟩
    · exact fun h => ⟨⟨_, rfl⟩, by rw [db_reread, hdb], rfl, h.2⟩
  | none =>
    -- the block is gone for good, and the pool does not matter any more
    have hgone : hash ∉ (s'.deleteBlock c env.store hash).2.db.blocks := by
      rw [blocks_deleteBlock, if_pos hwrite]
      exact Finmap.notMem_erase_self
    rw [deleteBlock_of_none c s' hash hwrite] at hgone ⊢
    refine iff_of_false ?_ (fun h => h.1 rfl)
    intro h
    rw [← h.blocks] at hmem
    exact notMem_rollbackFrom rest _ _ _ hgone hmem

theorem failsCleanly_iff (order : IterOrder Address Account)
    (hashes : List (BlockHash × RollbackEnv)) (s : CachedBlockStore)
    (mempool : TxDagMempool) (last : Option Block) {blocks : Map BlockHash Block}
    (hs : s.db.blocks = blocks) :
    FailsCleanly blocks state pool (rollbackFrom c order read state s mempool last hashes) ↔
      Harmless c read state pool s mempool hashes := by
  induction hashes generalizing s mempool last with
  | nil =>
    obtain ⟨hdb, hstate, hmempool, herror⟩ := rebuildState_spec c order read s mempool last
    rw [rollbackFrom, Harmless, ← herror]
    constructor
    · intro h
      exact ⟨hmempool.symm.trans h.mempool, h.state.symm.trans hstate, h.fails⟩
    · rintro ⟨hpool, hempty, hfails⟩
      exact ⟨hfails, by rw [hdb, hs], hstate.trans hempty.symm, hmempool.trans hpool⟩
  | cons e rest ih =>
    obtain ⟨hash, env⟩ := e
    rw [Harmless]
    by_cases hmem : hash ∈ s.db.blocks
    · rw [if_pos hmem, ← hs]
      exact failsCleanly_cons_of_mem order last env rest hmem
    · rw [if_neg hmem, rollbackFrom, getBlock_of_notMem hmem]
      cases hcached : s.cache.entries.lookup hash with
      | none => exact ih s mempool last hs
      | some block =>
        simp only
        cases hwrite : env.store.writeError with
        | some err =>
          rw [deleteBlock_of_error s hash hwrite]
          constructor
          · exact fun h => h.mempool
          · exact fun h => ⟨⟨_, rfl⟩, by rw [db_reread, hs], rfl, h⟩
        | none =>
          have hsame := (blocks_deleteBlock_of_notMem c env.store hmem).trans hs
          have hok : (s.deleteBlock c env.store hash).1 = .ok () := by
            rw [deleteBlock_of_none c s hash hwrite]
          rcases hdel : s.deleteBlock c env.store hash with ⟨_ | _, s''⟩
          · rw [hdel] at hok
            cases hok
          · rw [hdel] at hsame
            exact ih s'' _ _ hsame

/-- A rollback is atomic exactly if it is harmless: one that succeeds never is. -/
theorem rollbackAtomic_iff (c : Crypto) (order : IterOrder Address Account)
    (read : IterOrder BlockHash Block) (store : CachedBlockStore) (state : StateManager)
    (mempool : TxDagMempool) (hashes : List (BlockHash × RollbackEnv)) :
    RollbackAtomic c order store state mempool hashes
        (rollbackBlocks c order read store state mempool hashes) ↔
      Harmless c read state mempool store mempool hashes := by
  rw [← failsCleanly_iff order hashes store mempool none rfl]
  constructor
  · intro h
    cases hresult : (rollbackBlocks c order read store state mempool hashes).result with
    | error e =>
      obtain ⟨hblocks, hstate, hmempool⟩ := h.unchanged e hresult
      exact ⟨⟨e, hresult⟩, hblocks, hstate, hmempool⟩
    | ok last =>
      have hempty := state_rollbackFrom_of_ok hashes store mempool none hresult
      exact absurd ((h.rebuilt last hresult).symm.trans hempty)
        (applyTransactions_genesis_ne c order _)
  · intro h
    obtain ⟨e, herror⟩ := h.fails
    have hnot : ∀ last,
        (rollbackBlocks c order read store state mempool hashes).result ≠ .ok last := by
      intro last hok
      rw [rollbackBlocks, herror] at hok
      cases hok
    exact ⟨fun _ _ => ⟨h.blocks, h.state, h.mempool⟩, fun last hok => absurd hok (hnot last),
      fun last hok => absurd hok (hnot last), fun last hok => absurd hok (hnot last)⟩

end Atomic

section Sample

/-- A store with a block that holds a transfer and an empty one. -/
def sampleStoreWithSpend : CachedBlockStore :=
  ((empty.insertBlock .hashOnly sampleStoreEnv sampleSpend).2.insertBlock .hashOnly sampleStoreEnv
    sampleStored).2

def sampleHashes : List (BlockHash × RollbackEnv) :=
  [(sampleStored.hash, ⟨sampleStoreEnv, fun _ => TxDagMempool.sampleEnv⟩)]

def sampleRollback : RollbackOutcome :=
  rollbackBlocks .hashOnly .sorted .sorted sampleStoreWithSpend (genesis .hashOnly .sorted)
    (.new 10 1) sampleHashes

set_option maxRecDepth 20000 in
/-- The rebuild fails on the block that stays: the other block and the state are gone. -/
theorem sampleRollback_loses_state :
    (sampleRollback.result = .error "Insufficient balance for amount and fee" ∧
      sampleStored.hash ∈ sampleStoreWithSpend.db.blocks ∧
      sampleStored.hash ∉ sampleRollback.store.db.blocks ∧
      (accountOrNew (genesis .hashOnly .sorted).stateTree genesisWallet).balance = 100000000 ∧
      (accountOrNew sampleRollback.state.stateTree genesisWallet).balance = 0) ∧
      ¬ RollbackAtomic .hashOnly .sorted sampleStoreWithSpend (genesis .hashOnly .sorted)
        (.new 10 1) sampleHashes sampleRollback := by
  have hfails : sampleRollback.result = .error "Insufficient balance for amount and fee" := by
    decide +kernel
  have hstored : sampleStored.hash ∈ sampleStoreWithSpend.db.blocks := by decide +kernel
  have hdeleted : sampleStored.hash ∉ sampleRollback.store.db.blocks := by decide +kernel
  refine ⟨⟨hfails, hstored, hdeleted, by decide +kernel, by decide +kernel⟩, ?_⟩
  intro h
  rw [(h.unchanged _ hfails).1] at hdeleted
  exact hdeleted hstored

end Sample

end CachedBlockStore

end CytahSpeed
