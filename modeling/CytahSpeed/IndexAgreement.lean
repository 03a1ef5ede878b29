import CytahSpeed.DagRun

/-!
# The index agrees with the store

`Indexes` says what the tips and the child lists must be, given the stored blocks: it fixes the
tips, and every child list up to its order. The batch construction yields such an index from any
store keyed by block hash, and the incremental update keeps one, because a new block has no
children yet and is not its own parent.
-/

namespace CytahSpeed
open ByteString FiniteMap

namespace DagIndex

/-- The index describes the blocks of the store. A child occurs once for every entry of the
parent in its parent list, and no list is kept for a hash without children. -/
structure Indexes (idx : DagIndex) (store : BlockStore) : Prop where
  tips : ∀ h, h ∈ idx.tips ↔ (∃ s, store.getBlock h = some s) ∧ ∀ k, h ∉ store.parentsOf k
  children : ∀ p k, (idx.getChildren p).count k = (store.parentsOf k).count p
  entries : ∀ p, idx.parentToChildren.lookup p ≠ some []

theorem Indexes.agree {idx idx' : DagIndex} {store : BlockStore} (h : idx.Indexes store)
    (h' : idx'.Indexes store) :
    idx.tips = idx'.tips ∧
      ∀ p, Option.Rel List.Perm (idx.parentToChildren.lookup p)
        (idx'.parentToChildren.lookup p) := by
  constructor
  · ext hash
    rw [h.tips, h'.tips]
  · intro p
    have hperm : (idx.getChildren p).Perm (idx'.getChildren p) := by
      rw [List.perm_iff_count]
      intro k
      rw [h.children, h'.children]
    have hne := h.entries p
    have hne' := h'.entries p
    simp only [getChildren] at hperm
    cases hl : idx.parentToChildren.lookup p with
    | none =>
      cases hl' : idx'.parentToChildren.lookup p with
      | none => exact Option.Rel.none
      | some l' =>
        rw [hl, hl'] at hperm
        have hnil : l' = [] := List.nil_perm.mp hperm
        rw [hl', hnil] at hne'
        exact absurd rfl hne'
    | some l =>
      cases hl' : idx'.parentToChildren.lookup p with
      | none =>
        rw [hl, hl'] at hperm
        have hnil : l = [] := List.perm_nil.mp hperm
        rw [hl, hnil] at hne
        exact absurd rfl hne
      | some l' =>
        rw [hl, hl'] at hperm
        exact Option.Rel.some hperm

theorem lookup_pushChildren_ne (idx : DagIndex) (b : Block)
    (h : ∀ p, idx.parentToChildren.lookup p ≠ some []) (p : BlockHash) :
    (idx.pushChildren b).parentToChildren.lookup p ≠ some [] := by
  unfold pushChildren
  induction b.header.parentHashes generalizing idx with
  | nil => exact h p
  | cons q parents ih =>
    apply ih
    intro r
    simp only [pushChild, lookup_insert_eq_ite]
    by_cases hr : r = q
    · simp [hr]
    · simpa [hr] using h r

section Build
variable (store : BlockStore)

theorem getChildren_foldl_pushChildren (blocks : List Block) (idx : DagIndex) (p : BlockHash) :
    (blocks.foldl pushChildren idx).getChildren p = idx.getChildren p ++
      blocks.flatMap (fun b => List.replicate (b.header.parentHashes.count p) b.hash) := by
  induction blocks generalizing idx with
  | nil => simp
  | cons b blocks ih => simp [ih, getChildren_pushChildren]

theorem lookup_foldl_pushChildren_ne (blocks : List Block) (idx : DagIndex)
    (h : ∀ p, idx.parentToChildren.lookup p ≠ some []) (p : BlockHash) :
    (blocks.foldl pushChildren idx).parentToChildren.lookup p ≠ some [] := by
  induction blocks generalizing idx with
  | nil => exact h p
  | cons b blocks ih => exact ih _ (lookup_pushChildren_ne idx b h)

theorem mem_foldl_foldl_erase (blocks : List Block) (tips : Finset BlockHash) (h : BlockHash) :
    h ∈ blocks.foldl (fun tips b => b.header.parentHashes.foldl Finset.erase tips) tips ↔
      h ∈ tips ∧ ∀ b ∈ blocks, h ∉ b.header.parentHashes := by
  induction blocks generalizing tips with
  | nil => simp
  | cons b blocks ih =>
    rw [List.foldl_cons, ih, mem_foldl_erase, List.forall_mem_cons, and_assoc]

variable {store} (hkey : ∀ h s, store.getBlock h = some s → s.hash = h)
include hkey

/-- Over distinct hashes, a child is pushed when its own block is visited and then only. -/
theorem count_flatMap_replicate (l : List BlockHash) (hl : l.Nodup) (p k : BlockHash) :
    ((l.filterMap store.getBlock).flatMap
      (fun b => List.replicate (b.header.parentHashes.count p) b.hash)).count k =
      if k ∈ l then (store.parentsOf k).count p else 0 := by
  induction l with
  | nil => simp
  | cons h l ih =>
    obtain ⟨hnot, hl⟩ := List.nodup_cons.mp hl
    cases hs : store.getBlock h with
    | none =>
      rw [List.filterMap_cons_none hs, ih hl]
      by_cases hk : k = h
      · subst hk
        simp [hnot, BlockStore.parentsOf, hs]
      · simp [hk]
    | some s =>
      rw [List.filterMap_cons_some hs, List.flatMap_cons, List.count_append, ih hl, hkey h s hs,
        List.count_replicate]
      by_cases hk : k = h
      · subst hk
        simp [hnot, store.parentsOf_eq hs]
      · simp [hk, Ne.symm hk]

theorem indexes_buildFromStore : (buildFromStore store).Indexes store := by
  refine ⟨?_, ?_, ?_⟩
  · intro h
    have hmem : h ∈ (buildFromStore store).tips ↔
        h ∈ (store.getAllBlocks.map (·.hash)).toFinset ∧
          ∀ b ∈ store.getAllBlocks, h ∉ b.header.parentHashes := mem_foldl_foldl_erase _ _ h
    rw [hmem, List.mem_toFinset, List.mem_map]
    apply and_congr
    · constructor
      · intro hb
        obtain ⟨b, hb, rfl⟩ := hb
        obtain ⟨k, hk⟩ := (store.mem_getAllBlocks b).mp hb
        exact ⟨b, by rw [hkey k b hk]; exact hk⟩
      · intro hs
        obtain ⟨s, hs⟩ := hs
        exact ⟨s, (store.mem_getAllBlocks s).mpr ⟨h, hs⟩, hkey h s hs⟩
    · rw [store.childless_iff]
      constructor
      · intro hall k s hs
        exact hall s ((store.mem_getAllBlocks s).mpr ⟨k, hs⟩)
      · intro hall b hb
        obtain ⟨k, hs⟩ := (store.mem_getAllBlocks b).mp hb
        exact hall k b hs
  · intro p k
    have hchildren : (buildFromStore store).getChildren p = store.getAllBlocks.flatMap
        (fun b => List.replicate (b.header.parentHashes.count p) b.hash) :=
      getChildren_foldl_pushChildren store.getAllBlocks empty p
    have hnodup : store.getAllHashes.Nodup := nodup_sortedKeys store.blocks
    rw [hchildren, BlockStore.getAllBlocks, count_flatMap_replicate hkey _ hnodup]
    by_cases hk : k ∈ store.getAllHashes
    · rw [if_pos hk]
    · rw [if_neg hk]
      have hnone : store.getBlock k = none := by
        rw [store.mem_getAllHashes] at hk
        exact Option.eq_none_iff_forall_ne_some.mpr fun s hs => hk ⟨s, hs⟩
      simp [BlockStore.parentsOf, hnone]
  · exact lookup_foldl_pushChildren_ne store.getAllBlocks empty (fun p => by simp [empty])

end Build

end DagIndex

namespace BlockDag

variable {c : Crypto} {d : BlockDag}

theorem parentsOf_commit (a : Block) (h : BlockHash) :
    (d.commit a).store.parentsOf h =
      if h = a.hash then a.header.parentHashes else d.store.parentsOf h := by
  have hb : (d.commit a).store.getBlock h = if h = a.hash then some a else d.store.getBlock h :=
    getBlock_commit a h
  rw [BlockStore.parentsOf, hb]
  by_cases hh : h = a.hash
  · rw [if_pos hh, if_pos hh]
  · rw [if_neg hh, if_neg hh]
    rfl

theorem parentsOf_eq_nil {h : BlockHash} (hs : d.getBlock h = none) :
    d.store.parentsOf h = [] := by
  rw [getBlock] at hs
  simp [BlockStore.parentsOf, hs]

theorem stored_commit_iff {a : Block} (h : BlockHash) :
    (∃ s, (d.commit a).store.getBlock h = some s) ↔
      h = a.hash ∨ ∃ s, d.store.getBlock h = some s := by
  have hb := getBlock_commit (d := d) a h
  rw [getBlock] at hb
  rw [hb]
  by_cases hh : h = a.hash
  · simp [hh]
  · simp [hh, getBlock]

theorem childless_commit_iff {a : Block} (hfree : d.getBlock a.hash = none) (h : BlockHash) :
    (∀ k, h ∉ (d.commit a).store.parentsOf k) ↔
      h ∉ a.header.parentHashes ∧ ∀ k, h ∉ d.store.parentsOf k := by
  constructor
  · intro hall
    have hself := hall a.hash
    rw [parentsOf_commit, if_pos rfl] at hself
    refine ⟨hself, fun k => ?_⟩
    have hk := hall k
    rw [parentsOf_commit] at hk
    by_cases he : k = a.hash
    · rw [he, parentsOf_eq_nil hfree]
      exact List.not_mem_nil
    · rwa [if_neg he] at hk
  · intro hall k
    rw [parentsOf_commit]
    by_cases hk : k = a.hash
    · rw [if_pos hk]
      exact hall.1
    · rw [if_neg hk]
      exact hall.2 k

/-- A free hash is nobody's parent, so the incremental update keeps the index exact. -/
theorem indexes_commit (wf : WellFormed c d) (hidx : d.index.Indexes d.store) {a : Block}
    (hfree : d.getBlock a.hash = none)
    (hparents : ∀ p ∈ a.header.parentHashes, ∃ q, d.getBlock p = some q) :
    (d.commit a).index.Indexes (d.commit a).store := by
  have hself : a.hash ∉ a.header.parentHashes := by
    intro hp
    obtain ⟨q, hq⟩ := hparents a.hash hp
    rw [hfree] at hq
    cases hq
  have hchildless : ∀ k, a.hash ∉ d.store.parentsOf k := by
    intro k hk
    obtain ⟨-, q, -, -, hq, -⟩ := wf.parentsOf hk
    rw [hfree] at hq
    cases hq
  refine ⟨?_, ?_, DagIndex.lookup_pushChildren_ne _ a hidx.entries⟩
  · intro h
    have htips : h ∈ (d.commit a).index.tips ↔
        (h = a.hash ∨ h ∈ d.index.tips) ∧ h ∉ a.header.parentHashes :=
      DagIndex.mem_tips_updateTipsAfterInsert d.index a h
    rw [htips, hidx.tips, stored_commit_iff, childless_commit_iff hfree]
    by_cases hh : h = a.hash
    · subst hh
      simp [hself, hchildless]
    · simp only [hh, false_or]
      exact ⟨fun hall => ⟨hall.1.1, hall.2, hall.1.2⟩, fun hall => ⟨⟨hall.1, hall.2.2⟩, hall.2.1⟩⟩
  · intro p k
    have hchildren : (d.commit a).index.getChildren p = d.index.getChildren p ++
        List.replicate (a.header.parentHashes.count p) a.hash :=
      DagIndex.getChildren_updateTipsAfterInsert d.index a p
    rw [hchildren, List.count_append, hidx.children, List.count_replicate, parentsOf_commit]
    by_cases hk : k = a.hash
    · subst hk
      simp [parentsOf_eq_nil hfree]
    · simp [hk, Ne.symm hk]

theorem indexes_empty : empty.index.Indexes empty.store := by
  have hnil : ∀ h, empty.store.parentsOf h = [] :=
    fun h => parentsOf_eq_nil (Finmap.lookup_empty h)
  have hnone : ∀ h, empty.store.getBlock h = none := fun h => Finmap.lookup_empty h
  refine ⟨?_, ?_, ?_⟩
  · intro h
    rw [hnone h]
    simp [empty, DagIndex.empty]
  · intro p k
    rw [hnil]
    rfl
  · intro p
    simp [empty, DagIndex.empty]

theorem Sound.indexes {calls : List Call} (h : Sound c calls) :
    (run c calls).index.Indexes (run c calls).store := by
  refine h.invariant (Q := fun d => d.index.Indexes d.store) ?_ ?_ indexes_empty
  · intro env d b last acc hidx
    exact indexes_commit last.tracked.wellFormed hidx last.free acc.parents
  · intro _ d htr _
    exact DagIndex.indexes_buildFromStore fun h s hs => (htr.wellFormed.hash h s hs).1

/-- After any sound run the tips are the stored blocks that no stored block names as a parent,
child lists count parent entries, and both agree with the batch construction. -/
theorem run_index_agrees (c : Crypto) (calls : List Call) (h : Sound c calls) :
    (∀ hash, hash ∈ (run c calls).getTips ↔
      (∃ s, (run c calls).getBlock hash = some s) ∧
        ∀ k s, (run c calls).getBlock k = some s → hash ∉ s.header.parentHashes) ∧
    (∀ p k, ((run c calls).getChildren p).count k = ((run c calls).store.parentsOf k).count p) ∧
    (run c calls).index.tips = (DagIndex.buildFromStore (run c calls).store).tips ∧
    ∀ p, Option.Rel List.Perm ((run c calls).index.parentToChildren.lookup p)
      ((DagIndex.buildFromStore (run c calls).store).parentToChildren.lookup p) := by
  have hidx := h.indexes
  refine ⟨?_, hidx.children, hidx.agree (DagIndex.indexes_buildFromStore fun hash s hs =>
    (h.wellFormed.hash hash s hs).1)⟩
  intro hash
  exact (hidx.tips hash).trans (and_congr_right fun _ => BlockStore.childless_iff _ hash)

set_option maxRecDepth 20000 in
theorem run_index_agrees_sample :
    sampleRoot ∉ (run .hashOnly sampleCalls).getTips ∧
      ((run .hashOnly sampleCalls).getChildren sampleRoot).length = 1 ∧
      (run .hashOnly sampleCalls).index.tips =
        (DagIndex.buildFromStore (run .hashOnly sampleCalls).store).tips := by
  obtain ⟨htips, hchildren⟩ := sampleCalls_index
  obtain ⟨-, -, -, hne⟩ := sampleCalls_lineage
  refine ⟨?_, ?_, (run_index_agrees .hashOnly sampleCalls sampleCalls_evaluated.1).2.2.1⟩
  · rw [htips, Finset.mem_singleton]
    exact hne.symm
  · rw [hchildren, List.length_singleton]

end BlockDag

end CytahSpeed
