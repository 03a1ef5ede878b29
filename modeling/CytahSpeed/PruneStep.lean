import CytahSpeed.Pruning

/-!
# What one call of the pruner does

Every stored block is filed: under its own hash, with metadata of its height, and with no other
block in the cache under that hash. So the blocks found by the range scan are the stored blocks of
the range, and a deletion takes out exactly those.
-/

namespace CytahSpeed
open ByteString FiniteMap MachineInt Pruning

namespace CachedBlockStore

structure Filed (s : CachedBlockStore) : Prop where
  hash : ∀ hash block, s.db.blocks.lookup hash = some block → block.hash = hash
  metadata : ∀ hash block, s.db.blocks.lookup hash = some block →
    ∃ m, s.db.metadata.lookup (metadataKey hash) = some m ∧ m.height = block.height
  cached : ∀ hash block b, s.db.blocks.lookup hash = some block →
    s.cache.entries.lookup hash = some b → b = block

variable {c : Crypto} {s : CachedBlockStore} {order : IterOrder BlockHash Block} {env : StoreEnv}
  {hash : BlockHash}

theorem filed_empty : empty.Filed := by
  refine ⟨?_, ?_, ?_⟩
  · intro hash block h
    cases h
  · intro hash block h
    cases h
  · intro hash block b h
    cases h

theorem lookup_insertBlock (h : env.writeError = none) (s : CachedBlockStore) (block : Block)
    (hash : BlockHash) : (s.insertBlock c env block).2.db.blocks.lookup hash =
      if hash = block.hash then some block else s.db.blocks.lookup hash := by
  unfold insertBlock
  rw [h]
  exact lookup_insert_eq_ite s.db.blocks block.hash hash block

theorem insertBlock_of_error {e : String} (h : env.writeError = some e) (block : Block) :
    s.insertBlock c env block = (.error ("Failed to write block: " ++ e), s) := by
  unfold insertBlock
  rw [h]

theorem Filed.insertBlock (hs : s.Filed) (block : Block) : (s.insertBlock c env block).2.Filed := by
  cases he : env.writeError with
  | some e =>
    rw [insertBlock_of_error he]
    exact hs
  | none =>
    have hlookup := lookup_insertBlock (c := c) he s block
    refine ⟨?_, ?_, ?_⟩
    · intro hash b hb
      rw [hlookup] at hb
      by_cases hkey : hash = block.hash
      · rw [if_pos hkey] at hb
        cases hb
        exact hkey.symm
      · rw [if_neg hkey] at hb
        exact hs.hash hash b hb
    · intro hash b hb
      rw [hlookup] at hb
      unfold CachedBlockStore.insertBlock
      simp only [he]
      change ∃ m, (s.db.metadata.insert (metadataKey block.hash) _).lookup _ = some m ∧ _
      rw [lookup_insert_eq_ite]
      by_cases hkey : hash = block.hash
      · rw [if_pos hkey] at hb
        cases hb
        rw [if_pos (by rw [hkey])]
        exact ⟨_, rfl, rfl⟩
      · rw [if_neg hkey] at hb
        rw [if_neg (fun h => hkey (metadataKey_injective h))]
        exact hs.metadata hash b hb
    · intro hash b b' hb hb'
      rw [hlookup] at hb
      unfold CachedBlockStore.insertBlock at hb'
      simp only [he] at hb'
      by_cases hkey : hash = block.hash
      · subst hkey
        rw [if_pos rfl] at hb
        have hself := BoundedCache.lookup_add_self env.order s.cache block.hash block
        exact Option.some.inj (hb'.symm.trans (hself.trans hb))
      · rw [if_neg hkey] at hb
        exact hs.cached hash b b' hb (BoundedCache.lookup_of_add hkey hb')

theorem Filed.addToCache (hs : s.Filed) {block : Block} (h : s.db.blocks.lookup hash = some block) :
    (s.addToCache order hash block).Filed := by
  refine ⟨hs.hash, hs.metadata, ?_⟩
  intro k b b' hb hb'
  by_cases hk : k = hash
  · subst hk
    have hself := BoundedCache.lookup_add_self order s.cache k block
    rw [Option.some.inj (hb'.symm.trans hself)]
    exact Option.some.inj (h.symm.trans hb)
  · exact hs.cached k b b' hb (BoundedCache.lookup_of_add hk hb')

theorem Filed.removeFromCache (hs : s.Filed) (hash : BlockHash) :
    (s.removeFromCache hash).Filed := by
  refine ⟨hs.hash, hs.metadata, ?_⟩
  intro k b b' hb hb'
  change (s.cache.remove hash).entries.lookup k = some b' at hb'
  rw [BoundedCache.lookup_remove] at hb'
  by_cases hk : k = hash
  · rw [if_pos hk] at hb'
    cases hb'
  · rw [if_neg hk] at hb'
    exact hs.cached k b b' hb hb'

theorem Filed.getBlock (hs : s.Filed) (order : IterOrder BlockHash Block) (hash : BlockHash) :
    (s.getBlock order hash).2.Filed := by
  unfold CachedBlockStore.getBlock
  cases s.cache.entries.lookup hash with
  | some block => exact hs
  | none =>
    cases hstored : s.db.blocks.lookup hash with
    | some block => exact hs.addToCache hstored
    | none => exact hs

theorem Filed.getBlock_fst (hs : s.Filed) {block : Block}
    (h : s.db.blocks.lookup hash = some block) : (s.getBlock order hash).1 = some block := by
  rw [CachedBlockStore.getBlock_fst, h]
  cases hc : s.cache.entries.lookup hash with
  | some b => rw [hs.cached hash block b h hc, Option.some_or]
  | none => rfl

theorem Filed.reread (hs : s.Filed) (order : IterOrder BlockHash Block) (hash : BlockHash) :
    (s.reread order hash).Filed := by
  unfold CachedBlockStore.reread
  cases hstored : s.db.blocks.lookup hash with
  | some block => exact (hs.removeFromCache hash).addToCache hstored
  | none => exact hs.removeFromCache hash

theorem Filed.deleteBlock (hs : s.Filed) (env : StoreEnv) (hash : BlockHash) :
    (s.deleteBlock c env hash).2.Filed := by
  have hread := hs.reread env.order hash
  rw [deleteBlock_eq]
  cases env.writeError with
  | some e => exact hread
  | none =>
    have hold : ∀ k block, (s.db.blocks.erase hash).lookup k = some block →
        k ≠ hash ∧ (s.reread env.order hash).db.blocks.lookup k = some block := by
      intro k block hb
      rw [lookup_erase_eq_ite] at hb
      split_ifs at hb with hk
      rw [db_reread]
      exact ⟨hk, hb⟩
    refine ⟨fun k block hb => hread.hash k block (hold k block hb).2, ?_,
      fun k block b hb hb' => hread.cached k block b (hold k block hb).2 hb'⟩
    intro k block hb
    obtain ⟨hk, hb⟩ := hold k block hb
    change ∃ m, (s.db.metadata.erase (metadataKey hash)).lookup _ = some m ∧ _
    rw [lookup_erase_eq_ite, if_neg (fun h => hk (metadataKey_injective h))]
    rw [db_reread] at hb
    exact hs.metadata k block hb

theorem lookup_deleteBlock (c : Crypto) (s : CachedBlockStore) (env : StoreEnv)
    (hash k : BlockHash) :
    (s.deleteBlock c env hash).2.db.blocks.lookup k =
      if env.writeError = none ∧ k = hash then none else s.db.blocks.lookup k := by
  rw [deleteBlock_eq]
  cases env.writeError with
  | some e =>
    rw [if_neg (fun h => by cases h.1)]
    rw [db_reread]
  | none =>
    change (s.db.blocks.erase hash).lookup k = _
    rw [lookup_erase_eq_ite]
    simp only [true_and]

section Range
variable {env : PruneEnv} {startHeight endHeight : UInt64}

theorem getBlockInRange_snd (hs : s.Filed) (metadata : Option BlockMetadata) :
    (s.getBlockInRange order startHeight endHeight metadata hash).2.Filed ∧
      (s.getBlockInRange order startHeight endHeight metadata hash).2.db = s.db := by
  unfold getBlockInRange
  cases metadata with
  | none => exact ⟨hs, rfl⟩
  | some metadata =>
    dsimp only
    split_ifs
    · exact ⟨hs.getBlock order hash, db_getBlock s order hash⟩
    · exact ⟨hs, rfl⟩

theorem getBlockInRange_fst (hs : s.Filed) {block : Block}
    (h : s.db.blocks.lookup hash = some block) :
    (s.getBlockInRange order startHeight endHeight (s.db.metadata.lookup (metadataKey hash))
      hash).1 = if startHeight ≤ block.height ∧ block.height ≤ endHeight then some block
        else none := by
  obtain ⟨m, hm, hheight⟩ := hs.metadata hash block h
  rw [hm, getBlockInRange, hheight]
  split_ifs
  · exact hs.getBlock_fst h
  · rfl

def inRange (s : CachedBlockStore) (startHeight endHeight : UInt64) (hashes : List BlockHash) :
    List Block :=
  (hashes.filterMap s.db.blocks.lookup).filter fun b =>
    startHeight ≤ b.height ∧ b.height ≤ endHeight

theorem inRange_cons {block : Block} (h : s.db.blocks.lookup hash = some block)
    (hashes : List BlockHash) : s.inRange startHeight endHeight (hash :: hashes) =
      (if startHeight ≤ block.height ∧ block.height ≤ endHeight then some block else none).toList ++
        s.inRange startHeight endHeight hashes := by
  rw [inRange, List.filterMap_cons, h]
  dsimp only
  by_cases hin : startHeight ≤ block.height ∧ block.height ≤ endHeight
  · rw [if_pos hin, List.filter_cons_of_pos (by simpa using hin)]
    rfl
  · rw [if_neg hin, List.filter_cons_of_neg (by simpa using hin)]
    rfl

theorem collectRange_spec (hs : s.Filed) (env : PruneEnv) (startHeight endHeight : UInt64)
    (hashes : List BlockHash) (hstored : ∀ hash ∈ hashes, hash ∈ s.db.blocks) :
    (collectRange env startHeight endHeight s hashes).2.Filed ∧
      (collectRange env startHeight endHeight s hashes).2.db = s.db ∧
      ∀ blocks, (collectRange env startHeight endHeight s hashes).1 = .ok blocks →
        blocks = s.inRange startHeight endHeight hashes := by
  induction hashes generalizing s with
  | nil => exact ⟨hs, rfl, fun blocks h => (Except.ok.inj h).symm⟩
  | cons hash hashes ih =>
    obtain ⟨block, hblock⟩ := Finmap.mem_iff.mp (hstored hash List.mem_cons_self)
    unfold collectRange getBlockMetadata
    cases env.metadataError hash with
    | some e => exact ⟨hs, rfl, fun blocks h => by cases h⟩
    | none =>
      dsimp only
      set read := s.getBlockInRange env.cache startHeight endHeight
        (s.db.metadata.lookup (metadataKey hash)) hash with hread
      have hfst : read.1 = _ := getBlockInRange_fst hs hblock
      obtain ⟨hfiled, hdb⟩ : read.2.Filed ∧ read.2.db = s.db := getBlockInRange_snd hs _
      have hrest := ih hfiled (by
        rw [hdb]
        exact fun k hk => hstored k (List.mem_cons_of_mem _ hk))
      obtain ⟨hfiled', hdb', hfound⟩ := hrest
      rw [hdb] at hdb'
      cases hcollect : collectRange env startHeight endHeight read.2 hashes with
      | mk result s' =>
        rw [hcollect] at hfiled' hdb' hfound
        cases result with
        | error e => exact ⟨hfiled', hdb', fun blocks h => by cases h⟩
        | ok rest =>
          refine ⟨hfiled', hdb', ?_⟩
          intro blocks hblocks
          rw [← Except.ok.inj hblocks, hfound rest rfl, hfst, inRange_cons hblock, inRange, inRange,
            hdb]

theorem mem_inRange {block : Block} (hs : s.Filed) :
    block ∈ s.inRange startHeight endHeight s.getAllHashes ↔
      s.db.blocks.lookup block.hash = some block ∧ startHeight ≤ block.height ∧
        block.height ≤ endHeight := by
  simp only [inRange, List.mem_filter, List.mem_filterMap, decide_eq_true_eq]
  apply and_congr_left
  intro _
  constructor
  · rintro ⟨hash, -, h⟩
    rw [hs.hash hash block h]
    exact h
  · intro h
    exact ⟨block.hash, (mem_sortedKeys _ _).mpr (Finmap.mem_iff.mpr ⟨block, h⟩), h⟩

theorem map_hash_inRange_sublist (hs : s.Filed) (hashes : List BlockHash) :
    ((s.inRange startHeight endHeight hashes).map Block.hash).Sublist hashes := by
  refine ((List.filter_sublist).map _).trans ?_
  induction hashes with
  | nil => exact List.Sublist.slnil
  | cons hash hashes ih =>
    rw [List.filterMap_cons]
    cases h : s.db.blocks.lookup hash with
    | none => exact ih.cons hash
    | some block =>
      dsimp only
      rw [List.map_cons, hs.hash hash block h]
      exact ih.cons_cons hash

structure Finds (s : CachedBlockStore) (startHeight endHeight : UInt64) (blocks : List Block) :
    Prop where
  mem_iff : ∀ block, block ∈ blocks ↔ s.db.blocks.lookup block.hash = some block ∧
    startHeight ≤ block.height ∧ block.height ≤ endHeight
  nodup : (blocks.map Block.hash).Nodup

theorem getBlocksByHeightRange_spec (hs : s.Filed) (env : PruneEnv)
    (startHeight endHeight : UInt64) :
    (s.getBlocksByHeightRange env startHeight endHeight).2.Filed ∧
      (s.getBlocksByHeightRange env startHeight endHeight).2.db = s.db ∧
      ∀ blocks, (s.getBlocksByHeightRange env startHeight endHeight).1 = .ok blocks →
        s.Finds startHeight endHeight blocks := by
  unfold getBlocksByHeightRange getAllBlockHashes
  cases env.scanError with
  | some e => exact ⟨hs, rfl, fun blocks h => by cases h⟩
  | none =>
    dsimp only
    obtain ⟨hfiled, hdb, hfound⟩ := collectRange_spec hs env startHeight endHeight
      s.getAllHashes fun k hk => (mem_sortedKeys _ _).mp hk
    cases hcollect : collectRange env startHeight endHeight s s.getAllHashes with
    | mk result s' =>
      rw [hcollect] at hfiled hdb hfound
      cases result with
      | error e => exact ⟨hfiled, hdb, fun blocks h => by cases h⟩
      | ok found =>
        refine ⟨hfiled, hdb, ?_⟩
        intro blocks hblocks
        have hperm : blocks.Perm found := by
          rw [← Except.ok.inj hblocks]
          exact List.perm_insertionSort _ _
        rw [hfound found rfl] at hperm
        refine ⟨fun block => hperm.mem_iff.trans (mem_inRange hs), ?_⟩
        rw [(hperm.map Block.hash).nodup_iff]
        exact (nodup_sortedKeys _).sublist (map_hash_inRange_sublist hs _)

end Range

/-- The entries of some hashes are gone and the others as before. -/
structure Drops (s s' : CachedBlockStore) (gone : List BlockHash) : Prop where
  none_of_mem : ∀ hash ∈ gone, s'.db.blocks.lookup hash = none
  lookup_of_notMem : ∀ hash, hash ∉ gone →
    s'.db.blocks.lookup hash = s.db.blocks.lookup hash

theorem Drops.lookup_of_lookup {s' : CachedBlockStore} {gone : List BlockHash} {block : Block}
    (h : s.Drops s' gone) (hb : s'.db.blocks.lookup hash = some block) :
    s.db.blocks.lookup hash = some block := by
  by_cases hmem : hash ∈ gone
  · rw [h.none_of_mem hash hmem] at hb
    cases hb
  · rw [← h.lookup_of_notMem hash hmem]
    exact hb

theorem Drops.mem_of_lookup {s' : CachedBlockStore} {gone : List BlockHash} {block : Block}
    (h : s.Drops s' gone) (hb : s.db.blocks.lookup hash = some block)
    (hnone : s'.db.blocks.lookup hash = none) : hash ∈ gone := by
  by_contra hmem
  rw [h.lookup_of_notMem hash hmem, hb] at hnone
  cases hnone

/-- A prefix of the hashes is dropped, and all of them if no deletion fails. -/
theorem deleteAll_spec (hs : s.Filed) (env : PruneEnv) (blocks : List Block) :
    (deleteAll c env s blocks).2.Filed ∧ ∃ gone, gone <+: blocks.map Block.hash ∧
      s.Drops (deleteAll c env s blocks).2 gone ∧
      ((deleteAll c env s blocks).1 = .ok () → gone = blocks.map Block.hash) := by
  induction blocks generalizing s with
  | nil => exact ⟨hs, [], List.prefix_rfl, ⟨fun _ h => absurd h List.not_mem_nil, fun _ _ => rfl⟩,
      fun _ => rfl⟩
  | cons block blocks ih =>
    have hfiled := hs.deleteBlock (c := c) ⟨env.cache, env.deleteError block.hash⟩ block.hash
    have hlookup := lookup_deleteBlock c s ⟨env.cache, env.deleteError block.hash⟩ block.hash
    have hresult := deleteBlock_eq c s ⟨env.cache, env.deleteError block.hash⟩ block.hash
    rw [deleteAll]
    cases hdelete : s.deleteBlock c ⟨env.cache, env.deleteError block.hash⟩ block.hash with
    | mk result s' =>
      rw [hdelete] at hfiled hlookup hresult
      dsimp only at hfiled hlookup hresult ⊢
      cases herror : env.deleteError block.hash with
      | some e =>
        rw [herror] at hresult hlookup
        cases hresult
        refine ⟨hfiled, [], List.nil_prefix, ⟨fun _ h => absurd h List.not_mem_nil, ?_⟩,
          fun h => by cases h⟩
        intro hash _
        rw [hlookup, if_neg (fun h => by cases h.1)]
      | none =>
        rw [herror] at hresult hlookup
        obtain ⟨hfiled', gone, hpre, hdrops, hall⟩ := ih hfiled
        cases hresult
        refine ⟨hfiled', block.hash :: gone, ?_, ⟨?_, ?_⟩, fun h => by rw [hall h]; rfl⟩
        · rw [List.map_cons]
          exact (List.cons_prefix_cons).mpr ⟨rfl, hpre⟩
        · intro hash hmem
          by_cases hgone : hash ∈ gone
          · exact hdrops.none_of_mem hash hgone
          · have hk : hash = block.hash := (List.mem_cons.mp hmem).resolve_right hgone
            rw [hdrops.lookup_of_notMem hash hgone, hlookup hash, if_pos ⟨rfl, hk⟩]
        · intro hash hmem
          rw [List.mem_cons, not_or] at hmem
          obtain ⟨hk, hgone⟩ := hmem
          rw [hdrops.lookup_of_notMem hash hgone, hlookup hash, if_neg (fun h => hk h.2)]

end CachedBlockStore

namespace RollingWindowPruner

def stored (p : RollingWindowPruner) : Map BlockHash Block := p.blockStore.db.blocks

def mark (p : RollingWindowPruner) : UInt64 := p.metadata.lastPrunedHeight

structure SameConfig (p p' : RollingWindowPruner) : Prop where
  windowSize : p'.windowSize = p.windowSize
  snapshotInterval : p'.snapshotInterval = p.snapshotInterval
  pruningThreshold : p'.pruningThreshold = p.pruningThreshold

structure SameSnapshot (p p' : RollingWindowPruner) : Prop where
  snapshots : p'.snapshots = p.snapshots
  lastSnapshotHeight : p'.metadata.lastSnapshotHeight = p.metadata.lastSnapshotHeight
  snapshotCount : p'.metadata.snapshotCount = p.metadata.snapshotCount

/-- What is stored, and the account of what was pruned, are those of another pruner. -/
structure SameAccount (p p' : RollingWindowPruner) : Prop where
  stored : p'.stored = p.stored
  mark : p'.mark = p.mark
  totalBlocksPruned : p'.metadata.totalBlocksPruned = p.metadata.totalBlocksPruned

/-- The number of the blocks of one pruner that another no longer has. -/
def removedCount (p p' : RollingWindowPruner) : UInt64 :=
  UInt64.ofNat (p.stored.keys \ p'.stored.keys).card

/-- What the pruning of the blocks between the mark and a target may do. -/
structure Prunes (p : RollingWindowPruner) (target : UInt64)
    (r : Except String UInt64 × RollingWindowPruner) : Prop where
  filed : r.2.blockStore.Filed
  kept : ∀ hash block, r.2.stored.lookup hash = some block → p.stored.lookup hash = some block
  removed : ∀ hash block, p.stored.lookup hash = some block → r.2.stored.lookup hash = none →
    p.mark < block.height ∧ block.height ≤ target
  moved : r.2.mark = p.mark ∨ p.mark < target ∧ r.2.mark = target ∧ ∃ n, r.1 = .ok n
  cleared : ∀ n, r.1 = .ok n → ∀ hash block, r.2.stored.lookup hash = some block →
    ¬ (p.mark < block.height ∧ block.height ≤ target)
  counted : ∀ n, r.1 = .ok n → n = p.removedCount r.2 ∧
    r.2.metadata.totalBlocksPruned = p.metadata.totalBlocksPruned + n

variable {c : Crypto} {size : Block → UInt64} {p : RollingWindowPruner} {env : PruneEnv}
  {height : UInt64} {state : StateManager}

theorem toNat_pruneUpTo (p : RollingWindowPruner) (height : UInt64) :
    (p.pruneUpTo height).toNat = height.toNat - p.windowSize.toNat := by
  unfold pruneUpTo
  by_cases h : p.windowSize < height
  · rw [if_pos h, toNat_satSub]
  · rw [if_neg h]
    have hle : height.toNat ≤ p.windowSize.toNat := UInt64.le_iff_toNat_le.mp (UInt64.not_lt.mp h)
    change 0 = _
    omega

theorem SameConfig.refl (p : RollingWindowPruner) : p.SameConfig p := ⟨rfl, rfl, rfl⟩

theorem SameConfig.trans {p' p'' : RollingWindowPruner} (h : p.SameConfig p')
    (h' : p'.SameConfig p'') : p.SameConfig p'' where
  windowSize := h'.windowSize.trans h.windowSize
  snapshotInterval := h'.snapshotInterval.trans h.snapshotInterval
  pruningThreshold := h'.pruningThreshold.trans h.pruningThreshold

theorem SameConfig.pruneUpTo {p' : RollingWindowPruner} (h : p.SameConfig p') (height : UInt64) :
    p'.pruneUpTo height = p.pruneUpTo height := by
  rw [RollingWindowPruner.pruneUpTo, h.windowSize]
  rfl

theorem SameSnapshot.refl (p : RollingWindowPruner) : p.SameSnapshot p := ⟨rfl, rfl, rfl⟩

theorem SameAccount.refl (p : RollingWindowPruner) : p.SameAccount p := ⟨rfl, rfl, rfl⟩

theorem SameAccount.prunes {target : UInt64} {p' : RollingWindowPruner}
    {result : Except String UInt64} (h : p.SameAccount p') (hfiled : p'.blockStore.Filed)
    (hok : ∀ n, result = .ok n → n = 0 ∧ ∀ hash block, p.stored.lookup hash = some block →
      ¬ (p.mark < block.height ∧ block.height ≤ target)) :
    p.Prunes target (result, p') where
  filed := hfiled
  kept hash block hb := by rwa [← h.stored]
  removed hash block hb hnone := by
    rw [h.stored, hb] at hnone
    cases hnone
  moved := Or.inl h.mark
  cleared n hn hash block hb := (hok n hn).2 hash block (by rwa [← h.stored])
  counted n hn := by
    obtain rfl := (hok n hn).1
    refine ⟨?_, h.totalBlocksPruned.trans (UInt64.add_zero _).symm⟩
    rw [removedCount, h.stored, Finset.sdiff_self, Finset.card_empty]
    rfl

theorem SameAccount.prunes_after {target : UInt64} {p' : RollingWindowPruner}
    {r : Except String UInt64 × RollingWindowPruner} (hsame : p.SameAccount p')
    (h : p'.Prunes target r) : p.Prunes target r := by
  obtain ⟨hstored, hmark, htotal⟩ := hsame
  refine ⟨h.filed, ?_, ?_, ?_, ?_, ?_⟩
  · rw [← hstored]
    exact h.kept
  · rw [← hstored, ← hmark]
    exact h.removed
  · rw [← hmark]
    exact h.moved
  · rw [← hmark]
    exact h.cleared
  · rw [removedCount, ← hstored, ← htotal]
    exact h.counted

theorem mark_succ_le {m target h : UInt64} (hm : m < target) : m + 1 ≤ h ↔ m < h := by
  have hlt := UInt64.lt_iff_toNat_lt.mp hm
  have hbound := target.toNat_lt
  have hsucc : (m + 1).toNat = m.toNat + 1 := toNat_add_of_lt (by
    change m.toNat + 1 < _
    omega)
  rw [UInt64.le_iff_toNat_le, UInt64.lt_iff_toNat_lt, hsucc]
  exact Iff.rfl

theorem card_removed {s s' : CachedBlockStore} {blocks : List Block}
    (hstored : ∀ block ∈ blocks, s.db.blocks.lookup block.hash = some block)
    (hnodup : (blocks.map Block.hash).Nodup) (hdrops : s.Drops s' (blocks.map Block.hash)) :
    (s.db.blocks.keys \ s'.db.blocks.keys).card = blocks.length := by
  have hkeys : s.db.blocks.keys \ s'.db.blocks.keys = (blocks.map Block.hash).toFinset := by
    ext hash
    rw [Finset.mem_sdiff, Finmap.mem_keys, Finmap.mem_keys, List.mem_toFinset,
      ← Finmap.lookup_eq_none (s := s'.db.blocks)]
    by_cases hmem : hash ∈ blocks.map Block.hash
    · obtain ⟨block, hblock, rfl⟩ := List.mem_map.mp hmem
      rw [hdrops.none_of_mem _ hmem]
      exact iff_of_true ⟨Finmap.mem_iff.mpr ⟨block, hstored block hblock⟩, rfl⟩ hmem
    · rw [hdrops.lookup_of_notMem hash hmem]
      refine iff_of_false ?_ hmem
      rintro ⟨hin, hnone⟩
      exact Finmap.lookup_eq_none.mp hnone hin
  rw [hkeys, List.toFinset_card_of_nodup hnodup, List.length_map]

theorem pruneBlocks_prunes (hp : p.blockStore.Filed) {target : UInt64} (htarget : p.mark < target)
    {blocks : List Block} (hfinds : p.blockStore.Finds (p.mark + 1) target blocks) :
    p.Prunes target (p.pruneBlocks c size env p.metadata target blocks) := by
  obtain ⟨hfiled, gone, hpre, hdrops, hall⟩ :=
    CachedBlockStore.deleteAll_spec (c := c) hp env blocks
  have hgone : ∀ hash ∈ gone, ∃ block, p.stored.lookup hash = some block ∧
      p.mark < block.height ∧ block.height ≤ target := by
    intro hash hhash
    obtain ⟨block, hblock, rfl⟩ := List.mem_map.mp (hpre.subset hhash)
    obtain ⟨hstored, hstart, hend⟩ := (hfinds.mem_iff block).mp hblock
    exact ⟨block, hstored, (mark_succ_le htarget).mp hstart, hend⟩
  unfold pruneBlocks
  dsimp only
  cases hdelete : CachedBlockStore.deleteAll c env p.blockStore blocks with
  | mk result s =>
    rw [hdelete] at hfiled hdrops hall
    -- what the deletions did holds whether or not the metadata is saved
    have hkept : ∀ hash block, s.db.blocks.lookup hash = some block →
        p.stored.lookup hash = some block := fun _ _ h => hdrops.lookup_of_lookup h
    have hremoved : ∀ hash block, p.stored.lookup hash = some block →
        s.db.blocks.lookup hash = none → p.mark < block.height ∧ block.height ≤ target := by
      intro hash block h hnone
      obtain ⟨block', h', hrange⟩ := hgone hash (hdrops.mem_of_lookup h hnone)
      rw [Option.some.inj (h.symm.trans h')]
      exact hrange
    cases result with
    | error e =>
      exact ⟨hfiled, hkept, hremoved, Or.inl rfl, fun n h => (by cases h), fun n h => by cases h⟩
    | ok u =>
      obtain rfl := hall rfl
      dsimp only
      unfold saveMetadata
      cases env.pruneSave with
      | some e =>
        exact ⟨hfiled, hkept, hremoved, Or.inl rfl, fun n h => (by cases h),
          fun n h => by cases h⟩
      | none =>
        refine ⟨hfiled, hkept, hremoved, Or.inr ⟨htarget, rfl, _, rfl⟩, ?_, ?_⟩
        · rintro n - hash block h ⟨hmark, hle⟩
          have hstored := hkept hash block h
          have hhash := hp.hash hash block hstored
          have hmem : block ∈ blocks := (hfinds.mem_iff block).mpr
            ⟨by rw [hhash]; exact hstored, (mark_succ_le htarget).mpr hmark, hle⟩
          have hnone := hdrops.none_of_mem hash (List.mem_map.mpr ⟨block, hmem, hhash⟩)
          exact absurd (h.symm.trans hnone) (by simp)
        · intro n hn
          cases hn
          refine ⟨?_, rfl⟩
          rw [removedCount]
          refine congrArg UInt64.ofNat (card_removed ?_ hfinds.nodup hdrops).symm
          exact fun block hblock => ((hfinds.mem_iff block).mp hblock).1

theorem pruneBlocks_cases (c : Crypto) (size : Block → UInt64) (p : RollingWindowPruner)
    (env : PruneEnv) (metadata : PruningMetadata) (target : UInt64) (blocks : List Block) : ∃ s,
    (∃ e, p.pruneBlocks c size env metadata target blocks =
      (.error e, { p with blockStore := s })) ∨
      p.pruneBlocks c size env metadata target blocks = (.ok (UInt64.ofNat blocks.length),
        { p with
          blockStore := s
          saved := some { metadata with
            lastPrunedHeight := target
            totalBlocksPruned := metadata.totalBlocksPruned + UInt64.ofNat blocks.length
            totalSizePruned :=
              metadata.totalSizePruned + p.blockStore.sizeOf size env blocks } }) := by
  unfold pruneBlocks
  dsimp only
  rcases CachedBlockStore.deleteAll c env p.blockStore blocks with ⟨result, s⟩
  refine ⟨s, ?_⟩
  cases result with
  | error e => exact Or.inl ⟨e, rfl⟩
  | ok u =>
    dsimp only
    unfold saveMetadata
    cases env.pruneSave with
    | some e => exact Or.inl ⟨_, rfl⟩
    | none => exact Or.inr rfl

/-- The ways in which the pruning below the window ends. -/
theorem pruneBelow_cases (c : Crypto) (size : Block → UInt64) (p : RollingWindowPruner)
    (env : PruneEnv) (height : UInt64) :
    (∃ e, p.pruneBelow c size env height = (.error e, p)) ∨
      (p.pruneUpTo height ≤ p.mark ∧ p.pruneBelow c size env height = (.ok 0, p)) ∨
      p.mark < p.pruneUpTo height ∧ ∃ result s,
        p.blockStore.getBlocksByHeightRange env (p.mark + 1) (p.pruneUpTo height) = (result, s) ∧
          ((∃ e, result = .error e ∧
              p.pruneBelow c size env height = (.error e, { p with blockStore := s })) ∨
            (result = .ok [] ∧
              p.pruneBelow c size env height = (.ok 0, { p with blockStore := s })) ∨
            ∃ blocks, result = .ok blocks ∧ blocks ≠ [] ∧ p.pruneBelow c size env height =
              ({ p with blockStore := s } : RollingWindowPruner).pruneBlocks c size env p.metadata
                (p.pruneUpTo height) blocks) := by
  unfold pruneBelow getMetadata
  cases env.pruneRead with
  | some e => exact Or.inl ⟨_, rfl⟩
  | none =>
    dsimp only
    by_cases htarget : p.pruneUpTo height ≤ p.metadata.lastPrunedHeight
    · rw [if_pos htarget]
      exact Or.inr (Or.inl ⟨htarget, rfl⟩)
    · rw [if_neg htarget]
      refine Or.inr (Or.inr ⟨UInt64.not_le.mp htarget, ?_⟩)
      rcases hrange : p.blockStore.getBlocksByHeightRange env (p.metadata.lastPrunedHeight + 1)
        (p.pruneUpTo height) with ⟨result, s⟩
      refine ⟨result, s, hrange, ?_⟩
      cases result with
      | error e => exact Or.inl ⟨e, rfl, rfl⟩
      | ok blocks =>
        cases blocks with
        | nil => exact Or.inr (Or.inl ⟨rfl, rfl⟩)
        | cons block blocks => exact Or.inr (Or.inr ⟨_, rfl, List.cons_ne_nil _ _, rfl⟩)

theorem pruneBelow_prunes (hp : p.blockStore.Filed) :
    p.Prunes (p.pruneUpTo height) (p.pruneBelow c size env height) := by
  rcases p.pruneBelow_cases c size env height with ⟨e, hend⟩ | ⟨htarget, hend⟩ |
    ⟨hlt, result, s, hrange, hends⟩
  · rw [hend]
    exact (SameAccount.refl p).prunes hp (fun n h => by cases h)
  · rw [hend]
    refine (SameAccount.refl p).prunes hp ?_
    intro n hn
    refine ⟨(Except.ok.inj hn).symm, ?_⟩
    rintro hash block - ⟨hmark, hle⟩
    exact absurd (UInt64.lt_of_lt_of_le hmark (UInt64.le_trans hle htarget)) (UInt64.lt_irrefl _)
  · obtain ⟨hfiled, hdb, hfinds⟩ := CachedBlockStore.getBlocksByHeightRange_spec hp env
      (p.mark + 1) (p.pruneUpTo height)
    rw [hrange] at hfiled hdb hfinds
    have hsame : p.SameAccount { p with blockStore := s } :=
      ⟨congrArg BlockDatabase.blocks hdb, rfl, rfl⟩
    rcases hends with ⟨e, rfl, hend⟩ | ⟨rfl, hend⟩ | ⟨blocks, rfl, -, hend⟩
    · rw [hend]
      exact hsame.prunes hfiled (fun n h => by cases h)
    · rw [hend]
      refine hsame.prunes hfiled ?_
      intro n hn
      refine ⟨(Except.ok.inj hn).symm, ?_⟩
      rintro hash block h ⟨hmark, hle⟩
      have hmem : block ∈ [] := ((hfinds [] rfl).mem_iff block).mpr
        ⟨by rw [hp.hash hash block h]; exact h, (mark_succ_le hlt).mpr hmark, hle⟩
      cases hmem
    · rw [hend]
      have hlt' : ({ p with blockStore := s } : RollingWindowPruner).mark < p.pruneUpTo height :=
        hlt
      have hfinds := hfinds blocks rfl
      refine hsame.prunes_after (pruneBlocks_prunes hfiled hlt' ⟨?_, hfinds.nodup⟩)
      dsimp only at hdb ⊢
      rw [hdb]
      exact hfinds.mem_iff

theorem pruneBelow_keeps (c : Crypto) (size : Block → UInt64) (p : RollingWindowPruner)
    (env : PruneEnv) (height : UInt64) : p.SameConfig (p.pruneBelow c size env height).2 ∧
      p.SameSnapshot (p.pruneBelow c size env height).2 := by
  rcases p.pruneBelow_cases c size env height with ⟨e, hend⟩ | ⟨-, hend⟩ |
    ⟨-, result, s, -, ⟨e, -, hend⟩ | ⟨-, hend⟩ | ⟨blocks, -, -, hend⟩⟩
  all_goals rw [hend]
  · exact ⟨.refl p, .refl p⟩
  · exact ⟨.refl p, .refl p⟩
  · exact ⟨⟨rfl, rfl, rfl⟩, ⟨rfl, rfl, rfl⟩⟩
  · exact ⟨⟨rfl, rfl, rfl⟩, ⟨rfl, rfl, rfl⟩⟩
  · obtain ⟨s', ⟨e, hblocks⟩ | hblocks⟩ := pruneBlocks_cases c size { p with blockStore := s } env
      p.metadata (p.pruneUpTo height) blocks
    all_goals rw [hblocks]
    · exact ⟨⟨rfl, rfl, rfl⟩, ⟨rfl, rfl, rfl⟩⟩
    · exact ⟨⟨rfl, rfl, rfl⟩, ⟨rfl, rfl, rfl⟩⟩

/-- A snapshot is due by the test of the code. -/
def SnapshotDue (p : RollingWindowPruner) (height : UInt64) : Prop :=
  p.snapshotInterval ≤ height - p.metadata.lastSnapshotHeight

def notedSnapshot (p : RollingWindowPruner) (height : UInt64) : PruningMetadata :=
  { p.metadata with
    lastSnapshotHeight := height
    snapshotCount := p.metadata.snapshotCount + 1 }

theorem takeStateSnapshot_cases (p : RollingWindowPruner) (env : PruneEnv) (height : UInt64)
    (state : StateManager) :
    (∃ e, (p.takeStateSnapshot env height state).1 = .error e) ∧
        (p.takeStateSnapshot env height state).2.metadata = p.metadata ∨
      (p.takeStateSnapshot env height state).2.snapshots =
          p.snapshots.insert (snapshotKey height) (stateSnapshot env height state) ∧
        (p.takeStateSnapshot env height state).2.metadata = p.notedSnapshot height := by
  unfold takeStateSnapshot
  cases env.snapshotWrite with
  | some e => exact Or.inl ⟨⟨_, rfl⟩, rfl⟩
  | none =>
    dsimp only
    unfold getMetadata
    cases env.snapshotRead with
    | some e => exact Or.inl ⟨⟨_, rfl⟩, rfl⟩
    | none =>
      dsimp only
      unfold saveMetadata
      cases env.snapshotSave with
      | some e => exact Or.inl ⟨⟨_, rfl⟩, rfl⟩
      | none => exact Or.inr ⟨rfl, rfl⟩

theorem takeSnapshotIfNeeded_cases (p : RollingWindowPruner) (env : PruneEnv) (height : UInt64)
    (state : StateManager) :
    (p.takeSnapshotIfNeeded env height state).2 = p ∧
        ((p.takeSnapshotIfNeeded env height state).1 = .ok () →
          env.checkRead = none ∧ ¬ p.SnapshotDue height) ∨
      (env.checkRead = none ∧ p.SnapshotDue height) ∧
        ((∃ e, (p.takeSnapshotIfNeeded env height state).1 = .error e) ∧
            (p.takeSnapshotIfNeeded env height state).2.metadata = p.metadata ∨
          (p.takeSnapshotIfNeeded env height state).2.snapshots =
              p.snapshots.insert (snapshotKey height) (stateSnapshot env height state) ∧
            (p.takeSnapshotIfNeeded env height state).2.metadata = p.notedSnapshot height) := by
  unfold takeSnapshotIfNeeded getMetadata
  cases env.checkRead with
  | some e => exact Or.inl ⟨rfl, fun h => by cases h⟩
  | none =>
    dsimp only
    by_cases hdue : p.SnapshotDue height
    · have hif : p.snapshotInterval ≤ height - p.metadata.lastSnapshotHeight := hdue
      rw [if_pos hif]
      exact Or.inr ⟨⟨rfl, hdue⟩, p.takeStateSnapshot_cases env height state⟩
    · have hif : ¬ p.snapshotInterval ≤ height - p.metadata.lastSnapshotHeight := hdue
      rw [if_neg hif]
      exact Or.inl ⟨rfl, fun _ => ⟨rfl, hdue⟩⟩

theorem takeSnapshotIfNeeded_keeps (p : RollingWindowPruner) (env : PruneEnv) (height : UInt64)
    (state : StateManager) :
    (p.takeSnapshotIfNeeded env height state).2.blockStore = p.blockStore ∧
      p.SameConfig (p.takeSnapshotIfNeeded env height state).2 := by
  unfold takeSnapshotIfNeeded getMetadata
  cases env.checkRead with
  | some e => exact ⟨rfl, .refl p⟩
  | none =>
    dsimp only
    split_ifs
    · unfold takeStateSnapshot
      cases env.snapshotWrite with
      | some e => exact ⟨rfl, .refl p⟩
      | none =>
        dsimp only
        unfold getMetadata
        cases env.snapshotRead with
        | some e => exact ⟨rfl, ⟨rfl, rfl, rfl⟩⟩
        | none =>
          dsimp only
          unfold saveMetadata
          cases env.snapshotSave <;> exact ⟨rfl, ⟨rfl, rfl, rfl⟩⟩
    · exact ⟨rfl, .refl p⟩

theorem sameAccount_takeSnapshotIfNeeded (p : RollingWindowPruner) (env : PruneEnv)
    (height : UInt64) (state : StateManager) :
    p.SameAccount (p.takeSnapshotIfNeeded env height state).2 := by
  have hstored : (p.takeSnapshotIfNeeded env height state).2.stored = p.stored := by
    rw [stored, (p.takeSnapshotIfNeeded_keeps env height state).1]
    rfl
  rcases p.takeSnapshotIfNeeded_cases env height state with
    ⟨hsame, -⟩ | ⟨-, ⟨-, hsame⟩ | ⟨-, htaken⟩⟩
  · rw [hsame]
    exact .refl p
  · refine ⟨hstored, ?_, by rw [hsame]⟩
    rw [mark, hsame]
    rfl
  · refine ⟨hstored, ?_, by rw [htaken]; rfl⟩
    rw [mark, htaken]
    rfl

theorem maybePrune_of_not_shouldPrune (h : p.shouldPrune height = false) :
    p.maybePrune c size env height state = (.ok 0, p) := by
  rw [maybePrune, h]
  rfl

/-- From the threshold on, the pruning follows the snapshot, unless that fails. -/
theorem maybePrune_cases (c : Crypto) (size : Block → UInt64) (p : RollingWindowPruner)
    (env : PruneEnv) (state : StateManager) (h : p.shouldPrune height = true) :
    ∃ result p', p.takeSnapshotIfNeeded env height state = (result, p') ∧
      ((∃ e, result = .error e ∧ p.maybePrune c size env height state = (.error e, p')) ∨
        result = .ok () ∧ p.maybePrune c size env height state =
          p'.pruneBelow c size env height) := by
  rw [maybePrune, if_pos h]
  rcases p.takeSnapshotIfNeeded env height state with ⟨result, p'⟩
  refine ⟨result, p', rfl, ?_⟩
  cases result with
  | error e => exact Or.inl ⟨e, rfl, rfl⟩
  | ok u => exact Or.inr ⟨rfl, rfl⟩

/-- From the threshold on, a call prunes up to the window. -/
theorem maybePrune_prunes (hp : p.blockStore.Filed) (h : p.shouldPrune height = true) :
    p.Prunes (p.pruneUpTo height) (p.maybePrune c size env height state) := by
  have hsame := p.sameAccount_takeSnapshotIfNeeded env height state
  obtain ⟨hstore, hconfig⟩ := p.takeSnapshotIfNeeded_keeps env height state
  obtain ⟨result, p', hsnap, hends⟩ := p.maybePrune_cases c size env state h
  rw [hsnap] at hsame hstore hconfig
  have hfiled : p'.blockStore.Filed := by
    rw [hstore]
    exact hp
  rcases hends with ⟨e, -, hend⟩ | ⟨-, hend⟩
  · rw [hend]
    exact hsame.prunes hfiled (fun n h => by cases h)
  · rw [hend, ← hconfig.pruneUpTo]
    exact hsame.prunes_after (pruneBelow_prunes hfiled)

end RollingWindowPruner

end CytahSpeed
