import CytahSpeed.CountedCache
import CytahSpeed.Rollback

/-!
# The counter of the block cache

The store keeps the number of cached blocks in a counter of its own, which insertions, evictions,
deletions and `clear` update. Here the store is modelled with that counter as it is kept, so that it
could drift, underflow or keep the eviction from ending, and a read may fail. In no run does any of
this happen.
-/

namespace CytahSpeed
open ByteString FiniteMap StateManager

structure CountedBlockStore where
  db : BlockDatabase
  cache : CountedCache BlockHash Block

/-- What a read meets: the order in which the cache is iterated, and whether the database fails to
return the block. -/
structure ReadEnv where
  order : IterOrder BlockHash Block
  unread : Bool

structure DeleteEnv where
  read : ReadEnv
  writeError : Option String

/-- What a rollback meets at one of its hashes. -/
structure RollbackTurn where
  read : ReadEnv
  delete : DeleteEnv
  pool : ℕ → PoolEnv

structure RebuildEnv where
  accounts : IterOrder Address Account
  scanFails : Bool
  read : BlockHash → ReadEnv

structure CountedOutcome where
  result : Except String (Option Block)
  store : CountedBlockStore
  state : StateManager
  mempool : TxDagMempool

namespace CountedBlockStore

def newWithPath (db : BlockDatabase) : CountedBlockStore := ⟨db, .empty 100⟩

variable (c : Crypto) (s : CountedBlockStore)

/-- The store around a cache operation that may fail. -/
def withCache (cache : Option (CountedCache BlockHash Block)) : Option CountedBlockStore :=
  cache.map fun cache => { s with cache }

def addToCache (order : IterOrder BlockHash Block) (hash : BlockHash) (block : Block) :
    Option CountedBlockStore :=
  s.withCache (s.cache.add order hash block)

def removeFromCache (hash : BlockHash) : Option CountedBlockStore :=
  s.withCache (s.cache.remove hash)

def insertBlock (env : StoreEnv) (block : Block) :
    Option (Except String Unit × CountedBlockStore) :=
  match env.writeError with
  | some e => some (.error ("Failed to write block: " ++ e), s)
  | none =>
    match addToCache { s with db := s.db.insertBlock c block } env.order block.hash block with
    | some s => some (.ok (), s)
    | none => none

def getBlock (env : ReadEnv) (hash : BlockHash) : Option (Option Block × CountedBlockStore) :=
  match s.cache.entries.lookup hash with
  | some block => some (some block, s)
  | none =>
    match if env.unread then none else s.db.blocks.lookup hash with
    | some block =>
      match s.addToCache env.order hash block with
      | some s => some (some block, s)
      | none => none
    | none => some (none, s)

def deleteBlock (env : DeleteEnv) (hash : BlockHash) :
    Option (Except String Unit × CountedBlockStore) :=
  match s.removeFromCache hash with
  | none => none
  | some s =>
    match s.getBlock env.read hash with
    | none => none
    | some (found, s) =>
      let txHashes := match found with
        | some block => block.transactions.map (Transaction.hash c)
        | none => []
      match env.writeError with
      | some e => some (.error ("Failed to delete block: " ++ e), s)
      | none => some (.ok (), { s with db := s.db.deleteBlock hash txHashes })

/-- The hashes in the database; none if the scan of the database fails. -/
def getAllHashes (scanFails : Bool) : List BlockHash :=
  if scanFails then [] else sortedKeys s.db.blocks

def getBlocks (env : BlockHash → ReadEnv) :
    CountedBlockStore → List BlockHash → Option (List Block × CountedBlockStore)
  | s, [] => some ([], s)
  | s, hash :: hashes =>
    match s.getBlock (env hash) hash with
    | none => none
    | some (found, s) =>
      match getBlocks env s hashes with
      | none => none
      | some (blocks, s) => some (found.toList ++ blocks, s)

def getAllBlocks (scanFails : Bool) (env : BlockHash → ReadEnv) :
    Option (List Block × CountedBlockStore) :=
  getBlocks env s (s.getAllHashes scanFails)

def deleteBlocks (env : BlockHash → DeleteEnv) :
    CountedBlockStore → List BlockHash → Option CountedBlockStore
  | s, [] => some s
  | s, hash :: hashes =>
    match s.deleteBlock c (env hash) hash with
    | none => none
    | some (_, s) => deleteBlocks env s hashes

def clear (scanFails : Bool) (env : BlockHash → DeleteEnv) : Option CountedBlockStore :=
  match deleteBlocks c env s (s.getAllHashes scanFails) with
  | none => none
  | some s => some { s with cache := s.cache.clear }

def rebuildState (env : RebuildEnv) (store : CountedBlockStore) (mempool : TxDagMempool)
    (lastRemoved : Option Block) : Option CountedOutcome :=
  match store.getAllBlocks env.scanFails env.read with
  | none => none
  | some (remainingBlocks, store) =>
    match rebuildFromBlocks c env.accounts (CachedBlockStore.sortByHeight remainingBlocks) with
    | (.error e, state) => some ⟨.error e, store, state, mempool⟩
    | (.ok _, state) => some ⟨.ok lastRemoved, store, state, mempool⟩

def rollbackFrom (env : RebuildEnv) (state : StateManager) : CountedBlockStore →
    TxDagMempool → Option Block → List (BlockHash × RollbackTurn) → Option CountedOutcome
  | store, mempool, lastRemoved, [] => rebuildState c env store mempool lastRemoved
  | store, mempool, lastRemoved, (hash, turn) :: rest =>
    match store.getBlock turn.read hash with
    | none => none
    | some (none, store) => rollbackFrom env state store mempool lastRemoved rest
    | some (some block, store) =>
      match store.deleteBlock c turn.delete hash with
      | none => none
      | some (.error e, store) => some ⟨.error e, store, state, mempool⟩
      | some (.ok _, store) =>
        rollbackFrom env state store
          (CachedBlockStore.returnTransactions c turn.pool mempool block.transactions)
          (some block) rest

def rollbackBlocks (env : RebuildEnv) (state : StateManager) (mempool : TxDagMempool)
    (hashes : List (BlockHash × RollbackTurn)) : Option CountedOutcome :=
  rollbackFrom c env state s mempool none hashes

inductive CountedCall
  | insertBlock (env : StoreEnv) (block : Block)
  | getBlock (env : ReadEnv) (hash : BlockHash)
  | deleteBlock (env : DeleteEnv) (hash : BlockHash)
  | rollbackBlocks (env : RebuildEnv) (state : StateManager) (mempool : TxDagMempool)
      (hashes : List (BlockHash × RollbackTurn))
  | clear (scanFails : Bool) (env : BlockHash → DeleteEnv)

def exec : CountedCall → Option CountedBlockStore
  | .insertBlock env block => (s.insertBlock c env block).map Prod.snd
  | .getBlock env hash => (s.getBlock env hash).map Prod.snd
  | .deleteBlock env hash => (s.deleteBlock c env hash).map Prod.snd
  | .rollbackBlocks env state mempool hashes =>
    (s.rollbackBlocks c env state mempool hashes).map CountedOutcome.store
  | .clear scanFails env => s.clear c scanFails env

def run : CountedBlockStore → List CountedCall → Option CountedBlockStore
  | s, [] => some s
  | s, call :: calls =>
    match s.exec c call with
    | some s => run s calls
    | none => none

/-- The counter is the number of cached blocks and within the limit, and the loop that evicts
entries ends, in whatever order it takes them, with the counter right and below the limit. -/
structure Bookkept (s : CountedBlockStore) : Prop where
  counted : s.cache.size = s.cache.entries.keys.card
  limited : s.cache.size ≤ s.cache.limit
  evicts : ∀ order, ∃ cache, s.cache.evict order (s.cache.entries.keys.card + 1) = some cache ∧
    cache.size = cache.entries.keys.card ∧ cache.size < s.cache.limit

/-- The counter is right, and the cache keeps to the limit. -/
def Counted (limit : ℕ) (s : CountedBlockStore) : Prop :=
  ∃ b, s.cache = .ofBounded b ∧ b.Within limit

def Keeps {α : Type} (limit : ℕ) (o : Option (α × CountedBlockStore)) : Prop :=
  ∃ r s, o = some (r, s) ∧ Counted limit s

section Counter
variable {c : Crypto} {s : CountedBlockStore} {limit : ℕ}

theorem run_cons {s' : CountedBlockStore} {call : CountedCall} (h : s.exec c call = some s')
    (calls : List CountedCall) : run c s (call :: calls) = run c s' calls := by
  simp only [run, h]

theorem Counted.removeFromCache (h : Counted limit s) (hash : BlockHash) :
    ∃ s', s.removeFromCache hash = some s' ∧ Counted limit s' := by
  obtain ⟨b, hb, hwithin⟩ := h
  have hremove : s.cache.remove hash = some (.ofBounded (b.remove hash)) := by
    rw [hb, CountedCache.remove_ofBounded]
  rw [CountedBlockStore.removeFromCache, withCache, hremove]
  exact ⟨_, rfl, b.remove hash, rfl, hwithin.remove hash⟩

variable (hlimit : 0 < limit)
include hlimit

theorem Counted.addToCache (h : Counted limit s) (order : IterOrder BlockHash Block)
    (hash : BlockHash) (block : Block) :
    ∃ s', s.addToCache order hash block = some s' ∧ Counted limit s' := by
  obtain ⟨b, hb, hwithin⟩ := h
  have hadd : s.cache.add order hash block = some (.ofBounded (b.add order hash block)) := by
    rw [hb, CountedCache.add_ofBounded]
  rw [CountedBlockStore.addToCache, withCache, hadd]
  exact ⟨_, rfl, b.add order hash block, rfl, hwithin.add hlimit hash block⟩

theorem Counted.insertBlock (h : Counted limit s) (env : StoreEnv) (block : Block) :
    Keeps limit (s.insertBlock c env block) := by
  unfold CountedBlockStore.insertBlock
  cases env.writeError with
  | some e => exact ⟨_, s, rfl, h⟩
  | none =>
    have hwritten : Counted limit { s with db := s.db.insertBlock c block } := h
    obtain ⟨s', hadd, hs'⟩ := hwritten.addToCache hlimit env.order block.hash block
    simp only [hadd]
    exact ⟨_, s', rfl, hs'⟩

theorem Counted.getBlock (h : Counted limit s) (env : ReadEnv) (hash : BlockHash) :
    Keeps limit (s.getBlock env hash) := by
  unfold CountedBlockStore.getBlock
  cases s.cache.entries.lookup hash with
  | some block => exact ⟨_, s, rfl, h⟩
  | none =>
    cases (if env.unread then none else s.db.blocks.lookup hash) with
    | none => exact ⟨_, s, rfl, h⟩
    | some block =>
      obtain ⟨s', hadd, hs'⟩ := h.addToCache hlimit env.order hash block
      simp only [hadd]
      exact ⟨_, s', rfl, hs'⟩

theorem Counted.deleteBlock (h : Counted limit s) (env : DeleteEnv) (hash : BlockHash) :
    Keeps limit (s.deleteBlock c env hash) := by
  obtain ⟨s₁, hremove, h₁⟩ := h.removeFromCache hash
  obtain ⟨found, s₂, hread, h₂⟩ := h₁.getBlock hlimit env.read hash
  unfold CountedBlockStore.deleteBlock
  simp only [hremove, hread]
  cases env.writeError with
  | some e => exact ⟨_, s₂, rfl, h₂⟩
  | none => exact ⟨_, _, rfl, h₂⟩

theorem Counted.getBlocks (h : Counted limit s) (env : BlockHash → ReadEnv)
    (hashes : List BlockHash) : Keeps limit (getBlocks env s hashes) := by
  induction hashes generalizing s with
  | nil => exact ⟨_, s, rfl, h⟩
  | cons hash hashes ih =>
    obtain ⟨found, s₁, hread, h₁⟩ := h.getBlock hlimit (env hash) hash
    obtain ⟨blocks, s₂, hrest, h₂⟩ := ih h₁
    unfold CountedBlockStore.getBlocks
    simp only [hread, hrest]
    exact ⟨_, s₂, rfl, h₂⟩

theorem Counted.deleteBlocks (h : Counted limit s) (env : BlockHash → DeleteEnv)
    (hashes : List BlockHash) :
    ∃ s', deleteBlocks c env s hashes = some s' ∧ Counted limit s' := by
  induction hashes generalizing s with
  | nil => exact ⟨s, rfl, h⟩
  | cons hash hashes ih =>
    obtain ⟨r, s₁, hdelete, h₁⟩ := h.deleteBlock (c := c) hlimit (env hash) hash
    unfold CountedBlockStore.deleteBlocks
    simp only [hdelete]
    exact ih h₁

theorem Counted.clear (h : Counted limit s) (scanFails : Bool) (env : BlockHash → DeleteEnv) :
    ∃ s', s.clear c scanFails env = some s' ∧ Counted limit s' := by
  obtain ⟨s₁, hdelete, b, hb, hwithin⟩ :=
    h.deleteBlocks (c := c) hlimit env (s.getAllHashes scanFails)
  unfold CountedBlockStore.clear
  simp only [hdelete]
  refine ⟨_, rfl, b.clear, by rw [hb, CountedCache.clear_ofBounded], ?_⟩
  rw [BoundedCache.clear, hwithin.1]
  exact BoundedCache.within_empty limit

theorem Counted.rollbackFrom (h : Counted limit s) (env : RebuildEnv) (state : StateManager)
    (mempool : TxDagMempool) (lastRemoved : Option Block)
    (hashes : List (BlockHash × RollbackTurn)) :
    ∃ out, rollbackFrom c env state s mempool lastRemoved hashes = some out ∧
      Counted limit out.store := by
  induction hashes generalizing s mempool lastRemoved with
  | nil =>
    obtain ⟨blocks, s₁, hread, h₁⟩ := h.getBlocks hlimit env.read (s.getAllHashes env.scanFails)
    unfold CountedBlockStore.rollbackFrom rebuildState getAllBlocks
    simp only [hread]
    split <;> exact ⟨_, rfl, h₁⟩
  | cons entry rest ih =>
    obtain ⟨hash, turn⟩ := entry
    obtain ⟨found, s₁, hread, h₁⟩ := h.getBlock hlimit turn.read hash
    unfold CountedBlockStore.rollbackFrom
    cases found with
    | none =>
      simp only [hread]
      exact ih h₁ mempool lastRemoved
    | some block =>
      obtain ⟨r, s₂, hdelete, h₂⟩ := h₁.deleteBlock (c := c) hlimit turn.delete hash
      cases r with
      | error e =>
        -- a deletion that fails ends the rollback
        simp only [hread, hdelete]
        exact ⟨_, rfl, h₂⟩
      | ok u =>
        simp only [hread, hdelete]
        exact ih h₂ _ _

theorem Counted.exec (h : Counted limit s) (call : CountedCall) :
    ∃ s', s.exec c call = some s' ∧ Counted limit s' := by
  have hsnd : ∀ {α : Type} {o : Option (α × CountedBlockStore)}, Keeps limit o →
      ∃ s', o.map Prod.snd = some s' ∧ Counted limit s' := by
    intro α o ⟨r, s', ho, hs'⟩
    exact ⟨s', by rw [ho]; rfl, hs'⟩
  cases call with
  | insertBlock env block => exact hsnd (h.insertBlock hlimit env block)
  | getBlock env hash => exact hsnd (h.getBlock hlimit env hash)
  | deleteBlock env hash => exact hsnd (h.deleteBlock hlimit env hash)
  | clear scanFails env => exact h.clear hlimit scanFails env
  | rollbackBlocks env state mempool hashes =>
    obtain ⟨out, hout, hstore⟩ := h.rollbackFrom (c := c) hlimit env state mempool none hashes
    refine ⟨out.store, ?_, hstore⟩
    change (CountedBlockStore.rollbackFrom c env state s mempool none hashes).map _ = _
    rw [hout]
    rfl

theorem Counted.run (h : Counted limit s) (calls : List CountedCall) :
    ∃ s', run c s calls = some s' ∧ Counted limit s' := by
  induction calls generalizing s with
  | nil => exact ⟨s, rfl, h⟩
  | cons call calls ih =>
    obtain ⟨s₁, hexec, h₁⟩ := h.exec (c := c) hlimit call
    rw [run_cons hexec]
    exact ih h₁

theorem Counted.bookkept (h : Counted limit s) : Bookkept s := by
  obtain ⟨b, hb, hwithin⟩ := h
  refine ⟨?_, ?_, ?_⟩
  · exact CountedCache.exists_ofBounded_iff.mp ⟨b, hb⟩
  · rw [hb]
    exact hwithin.2.trans hwithin.1.ge
  · intro order
    have hevict := CountedCache.evict_ofBounded order b.size b le_rfl
    have hdone := BoundedCache.evict_done order b.size b le_rfl
    have hcard : (CountedCache.ofBounded b).entries.keys.card = b.size := b.size_eq.symm
    rw [hb, hcard]
    refine ⟨_, hevict, BoundedCache.size_eq _, ?_⟩
    change (BoundedCache.evict order b.size b).size < b.limit
    rw [hwithin.1] at hdone ⊢
    omega

end Counter

/-! ### The store whose counter is right by construction -/

section Agreement

def ofCached (s : CachedBlockStore) : CountedBlockStore := ⟨s.db, .ofBounded s.cache⟩

def ofRollback (out : RollbackOutcome) : CountedOutcome :=
  ⟨out.result, ofCached out.store, out.state, out.mempool⟩

def deleteEnv (env : StoreEnv) : DeleteEnv := ⟨⟨env.order, false⟩, env.writeError⟩

/-- The calls of the store without its counter, when the database can be read; a call that reads
the cache only is left out. -/
def countedCall : CachedBlockStore.StoreCall → Option CountedCall
  | .write (.insertBlock env block) => some (.insertBlock env block)
  | .write (.deleteBlock env hash) => some (.deleteBlock (deleteEnv env) hash)
  | .getBlock order hash => some (.getBlock ⟨order, false⟩ hash)
  | .blockExists _ => none
  | .clear env => some (.clear false fun hash => deleteEnv (env hash))

variable (c : Crypto) (s : CachedBlockStore)

theorem addToCache_ofCached (order : IterOrder BlockHash Block) (hash : BlockHash)
    (block : Block) :
    (ofCached s).addToCache order hash block = some (ofCached (s.addToCache order hash block)) := by
  have hadd := CountedCache.add_ofBounded order s.cache hash block
  rw [addToCache, withCache, ofCached, hadd]
  rfl

theorem removeFromCache_ofCached (hash : BlockHash) :
    (ofCached s).removeFromCache hash = some (ofCached (s.removeFromCache hash)) := by
  rw [removeFromCache, withCache, ofCached, CountedCache.remove_ofBounded]
  rfl

theorem insertBlock_ofCached (env : StoreEnv) (block : Block) :
    (ofCached s).insertBlock c env block =
      some (Prod.map id ofCached (s.insertBlock c env block)) := by
  unfold insertBlock CachedBlockStore.insertBlock
  cases env.writeError with
  | some e => rfl
  | none =>
    have hadd := addToCache_ofCached { s with db := s.db.insertBlock c block } env.order
      block.hash block
    unfold ofCached at hadd ⊢
    simp only [hadd]
    rfl

theorem getBlock_ofCached (order : IterOrder BlockHash Block) (hash : BlockHash) :
    (ofCached s).getBlock ⟨order, false⟩ hash =
      some (Prod.map id ofCached (s.getBlock order hash)) := by
  have hcache : (ofCached s).cache.entries.lookup hash = s.cache.entries.lookup hash := rfl
  have hdb : (ofCached s).db.blocks.lookup hash = s.db.blocks.lookup hash := rfl
  unfold getBlock CachedBlockStore.getBlock
  rw [hcache, hdb]
  cases s.cache.entries.lookup hash with
  | some block => rfl
  | none =>
    cases s.db.blocks.lookup hash with
    | none => rfl
    | some block =>
      simp only [addToCache_ofCached]
      rfl

theorem deleteBlock_ofCached (env : StoreEnv) (hash : BlockHash) :
    (ofCached s).deleteBlock c (deleteEnv env) hash =
      some (Prod.map id ofCached (s.deleteBlock c env hash)) := by
  unfold deleteBlock CachedBlockStore.deleteBlock deleteEnv
  simp only [removeFromCache_ofCached, getBlock_ofCached, Prod.map]
  cases env.writeError <;> rfl

theorem deleteBlocks_ofCached (env : BlockHash → StoreEnv) (hashes : List BlockHash) :
    deleteBlocks c (fun hash => deleteEnv (env hash)) (ofCached s) hashes =
      some (ofCached (CachedBlockStore.deleteBlocks c env s hashes)) := by
  induction hashes generalizing s with
  | nil => rfl
  | cons hash hashes ih =>
    unfold deleteBlocks
    simp only [deleteBlock_ofCached, Prod.map]
    exact ih _

theorem exec_ofCached {call : CachedBlockStore.StoreCall} {counted : CountedCall}
    (hcall : countedCall call = some counted) :
    (ofCached s).exec c counted = some (ofCached (s.exec c call)) := by
  cases call with
  | blockExists hash => cases hcall
  | getBlock order hash =>
    cases hcall
    simp only [exec, getBlock_ofCached]
    rfl
  | clear env =>
    cases hcall
    have hdelete := deleteBlocks_ofCached c s env s.getAllHashes
    have hhashes : (ofCached s).getAllHashes false = s.getAllHashes := rfl
    simp only [exec, clear, hhashes, hdelete]
    rfl
  | write call =>
    cases call with
    | insertBlock env block =>
      cases hcall
      simp only [exec, insertBlock_ofCached]
      rfl
    | deleteBlock env hash =>
      cases hcall
      simp only [exec, deleteBlock_ofCached]
      rfl

theorem exec_eq_of_countedCall {call : CachedBlockStore.StoreCall}
    (hcall : countedCall call = none) : s.exec c call = s := by
  cases call with
  | blockExists hash => rfl
  | getBlock order hash => cases hcall
  | clear env => cases hcall
  | write call => cases call <;> cases hcall

/-- While the database can be read, the store with its counter does what the store does whose
counter is right by construction. -/
theorem run_ofCached (calls : List CachedBlockStore.StoreCall) :
    run c (ofCached s) (calls.filterMap countedCall) =
      some (ofCached (calls.foldl (CachedBlockStore.exec c) s)) := by
  induction calls generalizing s with
  | nil => rfl
  | cons call calls ih =>
    rw [List.filterMap_cons, List.foldl_cons, ← ih]
    cases hcall : countedCall call with
    | none => rw [exec_eq_of_countedCall c s hcall]
    | some counted => exact run_cons (exec_ofCached c s hcall) _

theorem getBlocks_ofCached (order : IterOrder BlockHash Block) (hashes : List BlockHash) :
    getBlocks (fun _ => ⟨order, false⟩) (ofCached s) hashes =
      some (Prod.map id ofCached (CachedBlockStore.getBlocks order s hashes)) := by
  induction hashes generalizing s with
  | nil => rfl
  | cons hash hashes ih =>
    unfold getBlocks CachedBlockStore.getBlocks
    simp only [getBlock_ofCached, Prod.map, id, ih]

theorem rollbackFrom_ofCached (order : IterOrder Address Account)
    (read : IterOrder BlockHash Block) (state : StateManager) (mempool : TxDagMempool)
    (lastRemoved : Option Block) (hashes : List (BlockHash × RollbackEnv)) :
    rollbackFrom c ⟨order, false, fun _ => ⟨read, false⟩⟩ state (ofCached s) mempool lastRemoved
        (hashes.map fun e => (e.1, ⟨⟨e.2.store.order, false⟩, deleteEnv e.2.store, e.2.pool⟩)) =
      some (ofRollback
        (CachedBlockStore.rollbackFrom c order read state s mempool lastRemoved hashes)) := by
  induction hashes generalizing s mempool lastRemoved with
  | nil =>
    have hread := getBlocks_ofCached s read s.getAllHashes
    have hhashes : (ofCached s).getAllHashes false = s.getAllHashes := rfl
    unfold CachedBlockStore.rollbackFrom CachedBlockStore.rebuildState
      CachedBlockStore.getAllBlocks
    simp only [List.map_nil, rollbackFrom, rebuildState, getAllBlocks, hhashes, hread, Prod.map, id]
    cases rebuildFromBlocks c order (CachedBlockStore.sortByHeight
        (CachedBlockStore.getBlocks read s s.getAllHashes).1) with
    | mk result state => cases result <;> rfl
  | cons entry rest ih =>
    obtain ⟨hash, env⟩ := entry
    rw [List.map_cons]
    unfold rollbackFrom CachedBlockStore.rollbackFrom
    simp only [getBlock_ofCached, Prod.map, id]
    cases hread : s.getBlock env.store.order hash with
    | mk found s₁ =>
      cases found with
      | none => exact ih s₁ mempool lastRemoved
      | some block =>
        simp only [deleteBlock_ofCached, Prod.map, id]
        cases hdelete : s₁.deleteBlock c env.store hash with
        | mk result s₂ =>
          cases result with
          | error e => rfl
          | ok u => exact ih s₂ _ _

end Agreement

theorem counted_newWithPath (db : BlockDatabase) : Counted 100 (newWithPath db) :=
  ⟨.empty 100, rfl, BoundedCache.within_empty 100⟩

/-- In every run of a store that was opened the counter goes on and keeps its books, whatever the
calls, the failures of the database and the blocks that are evicted. -/
theorem cacheCounter_bookkept (c : Crypto) (db : BlockDatabase) (calls : List CountedCall) :
    ∃ s, run c (newWithPath db) calls = some s ∧ s.cache.limit = 100 ∧ s.Bookkept := by
  obtain ⟨s, hrun, hs⟩ := (counted_newWithPath db).run (c := c) (by decide) calls
  refine ⟨s, hrun, ?_, hs.bookkept (by decide)⟩
  obtain ⟨b, hb, hwithin⟩ := hs
  rw [hb]
  exact hwithin.1

end CountedBlockStore

end CytahSpeed
