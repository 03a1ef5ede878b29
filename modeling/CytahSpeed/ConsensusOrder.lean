import CytahSpeed.KahnPrecedence
import CytahSpeed.ProducerAnnotation
import CytahSpeed.Replay
import CytahSpeed.TopologicalOrder

/-!
# The order of the blocks

`get_topological_order` on a build with checked arithmetic returns the same list: no in-degree
counter goes below zero and the loop runs no more than one turn for each stored block. The list
is fixed by the stored blocks and the child lists, and these depend on how the index was made:
a block that arrives is appended to the child lists of its parents, a rebuilt index lists children
in the order of their hashes. `SiblingsAligned` is the exact condition under which two indexes of
one store yield one order.
-/

namespace CytahSpeed
open ByteString FiniteMap

/-- `get_topological_order` with checked counters, watched for the given number of turns. -/
def DagIndex.topologicalOrderChecked (idx : DagIndex) (store : BlockStore) (turns : ℕ) :
    Except KahnOrder.Fault (List BlockHash) :=
  let start := inDegrees store.getAllBlocks
  KahnOrder.loopChecked idx.getChildren turns start.1 start.2 []

namespace BlockDag

def topologicalOrderChecked (d : BlockDag) (turns : ℕ) :
    Except KahnOrder.Fault (List BlockHash) :=
  d.index.topologicalOrderChecked d.store turns

variable {c : Crypto} {d e : BlockDag}

/-- One turn for each stored block is enough, and all counters stay above zero. -/
theorem Intact.topologicalOrderChecked_eq (h : Intact c d) {turns : ℕ}
    (hturns : d.blockCount ≤ turns) :
    d.topologicalOrderChecked turns = .ok d.getTopologicalOrder := by
  have hcard : h.graph.nodes.card ≤ turns := by
    rw [h.card_nodes]
    exact hturns
  have hroots : (DagIndex.inDegrees d.store.getAllBlocks).2 = roots d := by
    rw [DagIndex.inDegrees_eq]
    rfl
  have hchecked := KahnOrder.Graph.loopChecked_eq turns _ (by simpa using hcard)
    h.counts_inDegrees h.inv_roots
  rw [topologicalOrderChecked, DagIndex.topologicalOrderChecked, hroots, h.getTopologicalOrder_eq,
    ← KahnOrder.Graph.fifo_eq_of_le (by simp) hcard h.inv_roots]
  exact hchecked

/-- After any sound run the order lists every stored block once, behind all its parents; the loop
ends within one turn for each block, and no counter goes below zero. -/
theorem run_topologicalOrder (c : Crypto) (calls : List Call) (h : Sound c calls) :
    (∀ hash, (run c calls).getTopologicalOrder.count hash =
      if (run c calls).store.blockExists hash then 1 else 0) ∧
    (∀ hash s, (run c calls).getBlock hash = some s → ∀ p ∈ s.header.parentHashes,
      p ∈ (run c calls).getTopologicalOrder ∧
        (run c calls).getTopologicalOrder.idxOf p <
          (run c calls).getTopologicalOrder.idxOf hash) ∧
    ∀ turns, (run c calls).blockCount ≤ turns →
      (run c calls).topologicalOrderChecked turns = .ok (run c calls).getTopologicalOrder := by
  have hint := h.intact
  refine ⟨?_, ?_, fun turns hturns => hint.topologicalOrderChecked_eq hturns⟩
  · intro hash
    have hstored : hash ∈ (run c calls).getTopologicalOrder ↔
        (run c calls).store.blockExists hash = true := by
      rw [hint.mem_order, BlockStore.blockExists_eq_true]
      rfl
    by_cases hmem : hash ∈ (run c calls).getTopologicalOrder
    · rw [List.count_eq_one_of_mem hint.nodup_order hmem, if_pos (hstored.mp hmem)]
    · rw [List.count_eq_zero_of_not_mem hmem, if_neg (mt hstored.mpr hmem)]
  · intro hash s hs p hp
    have hpar : p ∈ (run c calls).store.parentsOf hash := by
      rw [(run c calls).store.parentsOf_eq hs]
      exact hp
    obtain ⟨-, q, -, -, hq, -⟩ := hint.wellFormed.parentsOf hpar
    exact ⟨(hint.mem_order p).mpr ⟨q, hq⟩, hint.idxOf_parent_lt hpar⟩

/-- A block that names its parent twice is counted twice and still listed once. -/
def sampleTwice : List Call :=
  [.createGenesisBlock 1000 sampleEnv,
    .insertBlock sampleEnv (Block.new .hashOnly [sampleRoot, sampleRoot] 1001 [] 0 0 0
      (Bytes.zero 20) (Bytes.zero 32))]

set_option maxRecDepth 20000 in
theorem sampleTwice_sound :
    Sound .hashOnly sampleTwice ∧ (run .hashOnly sampleTwice).blockCount = 2 ∧
      ((run .hashOnly sampleTwice).getChildren sampleRoot).length = 2 := by
  unfold sampleTwice sampleRoot
  rw [Crypto.hashOnly_eq_strict]
  decide +kernel

theorem run_topologicalOrder_sample :
    ((run .hashOnly sampleTwice).getChildren sampleRoot).length = 2 ∧
      (run .hashOnly sampleTwice).topologicalOrderChecked 2 =
        .ok (run .hashOnly sampleTwice).getTopologicalOrder := by
  obtain ⟨hsound, hcount, hchildren⟩ := sampleTwice_sound
  exact ⟨hchildren,
    (run_topologicalOrder .hashOnly sampleTwice hsound).2.2 2 (Nat.le_of_eq hcount)⟩

/-- The parent of a block behind which its other parents are ordered. -/
def LatestParent (d : BlockDag) (p a : BlockHash) : Prop :=
  KahnOrder.Latest (Intact.roots d) d.store.parentsOf d.getChildren p a

/-- Blocks with the same latest parent stand in the same order in the two child lists of it. -/
def SiblingsAligned (d e : BlockDag) : Prop :=
  ∀ p a b, d.LatestParent p a → d.LatestParent p b →
    (KahnOrder.EntersBefore (d.getChildren p) a b ↔ KahnOrder.EntersBefore (e.getChildren p) a b)

def SameOrder (d e : BlockDag) : Prop :=
  e.getTopologicalOrder = d.getTopologicalOrder ∧ e.getOrdering = d.getOrdering

theorem sameOrder_iff : SameOrder d e ↔ e.getTopologicalOrder = d.getTopologicalOrder :=
  ⟨fun h => h.1, fun h => ⟨h, h⟩⟩

theorem Intact.sameOrder_iff_siblingsAligned (h : Intact c d) (h' : Intact c e)
    (hstore : e.store = d.store) : SameOrder d e ↔ SiblingsAligned d e := by
  have hroots : roots e = roots d := by
    rw [roots, roots, hstore]
  have hstart : ∀ k, k ∈ roots d ↔ k ∈ h.graph.nodes ∧ h.graph.parents k = [] := by
    intro k
    have hmem := h.inv_roots.mem k
    simp only [List.nil_append, KahnOrder.Graph.Ready, List.not_mem_nil, imp_false] at hmem
    rw [hmem, List.eq_nil_iff_forall_not_mem]
  have hnodup : (roots d).Nodup := by simpa using h.inv_roots.nodup
  rw [sameOrder_iff, h.getTopologicalOrder_eq, h'.getTopologicalOrder_eq, hroots]
  exact KahnOrder.Graph.fifo_eq_iff (G := h.graph) (H := h'.graph) hstart hnodup
    (congrArg (fun s : BlockStore => s.blocks.keys) hstore) (congrArg BlockStore.parentsOf hstore)

theorem store_eq_of_getBlock_eq (h : ∀ hash, e.getBlock hash = d.getBlock hash) :
    e.store = d.store :=
  congrArg BlockStore.mk (Finmap.ext_lookup h)

theorem getBlock_rebuildIndex (d : BlockDag) (hash : BlockHash) :
    d.rebuildIndex.getBlock hash = d.getBlock hash := rfl

theorem Sound.rebuilt {calls : List Call} (h : Sound c calls) :
    Intact c (run c calls).rebuildIndex :=
  ⟨h.wellFormed.withIndex _,
    DagIndex.indexes_buildFromStore fun hash s hs => (h.wellFormed.hash hash s hs).1⟩

/-- The order survives a rebuilt index, and is that of another DAG with the same blocks, exactly
if the child lists are aligned. -/
theorem sameOrder_iff_aligned (c : Crypto) (calls : List Call) (h : Sound c calls) :
    (SameOrder (run c calls) (run c calls).rebuildIndex ↔
      SiblingsAligned (run c calls) (run c calls).rebuildIndex) ∧
    ∀ calls', Sound c calls' →
      (∀ hash, (run c calls').getBlock hash = (run c calls).getBlock hash) →
      (SameOrder (run c calls) (run c calls') ↔
        SiblingsAligned (run c calls) (run c calls')) := by
  refine ⟨h.intact.sameOrder_iff_siblingsAligned h.rebuilt rfl, fun calls' h' hsame => ?_⟩
  exact h.intact.sameOrder_iff_siblingsAligned h'.intact (store_eq_of_getBlock_eq hsame)

set_option maxRecDepth 20000 in
theorem sampleFork_reordered :
    (run .hashOnly sampleFork).getTopologicalOrder = [sampleRoot, sampleTips.1, sampleTips.2] ∧
      (run .hashOnly sampleFork).rebuildIndex.getTopologicalOrder =
        [sampleRoot, sampleTips.2, sampleTips.1] := by
  unfold sampleFork sampleChild sampleRoot
  rw [Crypto.hashOnly_eq_strict]
  decide +kernel

theorem sampleTips_ne : sampleTips.1 ≠ sampleTips.2 := by decide +kernel

theorem not_sameOrder_sample :
    ¬ SameOrder (run .hashOnly sampleFork) (run .hashOnly sampleFork).rebuildIndex := by
  obtain ⟨horder, hrebuilt⟩ := sampleFork_reordered
  intro hsame
  have htips := hsame.1
  rw [horder, hrebuilt] at htips
  exact sampleTips_ne (List.cons.inj (List.cons.inj htips).2).1.symm

theorem sameOrder_iff_aligned_sample :
    ¬ SiblingsAligned (run .hashOnly sampleFork) (run .hashOnly sampleFork).rebuildIndex := by
  rw [← (sameOrder_iff_aligned .hashOnly sampleFork sampleFork_evaluated.1).1]
  exact not_sameOrder_sample

/-- Two children of the genesis block change places when the index is rebuilt, and two DAGs that
hold the same three blocks list them in different orders. -/
theorem rebuildIndex_reorders :
    Sound .hashOnly sampleFork ∧ Sound .hashOnly (sampleFork ++ [.rebuildIndex]) ∧
      (∀ hash, (run .hashOnly (sampleFork ++ [.rebuildIndex])).getBlock hash =
        (run .hashOnly sampleFork).getBlock hash) ∧
      (run .hashOnly sampleFork).rebuildIndex.getTopologicalOrder ≠
        (run .hashOnly sampleFork).getTopologicalOrder ∧
      (run .hashOnly (sampleFork ++ [.rebuildIndex])).getTopologicalOrder ≠
        (run .hashOnly sampleFork).getTopologicalOrder := by
  have hsound := sampleFork_evaluated.1
  have hrun : run .hashOnly (sampleFork ++ [.rebuildIndex]) =
      (run .hashOnly sampleFork).rebuildIndex := run_append _ _
  have hne := mt sameOrder_iff.mpr not_sameOrder_sample
  refine ⟨hsound, hsound.append_rebuildIndex, fun hash => ?_, hne, ?_⟩
  · rw [hrun, getBlock_rebuildIndex]
  · rw [hrun]
    exact hne

def topoRank (d : BlockDag) (hash : BlockHash) : ℕ :=
  ((d.getBlock hash).map (·.header.topoIndex.toNat)).getD 0

section Entries
variable {blocks : List Block} {p a b : BlockHash}

/-- The entries of one parent's child list, pushed block by block. -/
def childEntries (blocks : List Block) (p : BlockHash) : List BlockHash :=
  blocks.flatMap fun s => List.replicate (s.header.parentHashes.count p) s.hash

theorem mem_childEntries {x : BlockHash} :
    x ∈ childEntries blocks p ↔ ∃ s ∈ blocks, p ∈ s.header.parentHashes ∧ s.hash = x := by
  rw [childEntries, List.mem_flatMap]
  refine exists_congr fun s => and_congr_right fun _ => ?_
  rw [List.mem_replicate, ← Nat.pos_iff_ne_zero, List.count_pos_iff, eq_comm (a := x)]

theorem pairwise_childEntries {β : Type*} [LinearOrder β] {f : BlockHash → β}
    (h : blocks.Pairwise fun s t => f s.hash ≤ f t.hash) :
    (childEntries blocks p).Pairwise fun a b => f a ≤ f b := by
  refine List.pairwise_flatMap.mpr ⟨fun s _ => ?_, h.imp fun hle x hx y hy => ?_⟩
  · exact List.pairwise_replicate.mpr (Or.inr le_rfl)
  · rw [(List.mem_replicate.mp hx).2, (List.mem_replicate.mp hy).2]
    exact hle

theorem Grown.getChildren_eq (h : Grown c blocks d) (p : BlockHash) :
    d.getChildren p = childEntries blocks p := by
  induction h with
  | empty => rfl
  | @commit blocks d env b hgrown acc hfits hfree ih =>
    rw [childEntries, List.flatMap_append, List.flatMap_singleton]
    exact (DagIndex.getChildren_updateTipsAfterInsert _ _ p).trans (congrArg (· ++ _) ih)

theorem getChildren_rebuildIndex (d : BlockDag) (p : BlockHash) :
    d.rebuildIndex.getChildren p = childEntries d.store.getAllBlocks p :=
  DagIndex.getChildren_foldl_pushChildren d.store.getAllBlocks .empty p

theorem Intact.mem_getChildren (h : Intact c d) (ha : p ∈ d.store.parentsOf a) :
    a ∈ d.getChildren p := (h.graph.mem_children_iff p a).mpr ha

/-- An index that was never rebuilt lists children in the order of their arrival. -/
theorem Grown.entersBefore_iff (h : Grown c blocks d) (hint : Intact c d)
    (ha : p ∈ d.store.parentsOf a) (hb : p ∈ d.store.parentsOf b) :
    KahnOrder.EntersBefore (d.getChildren p) a b ↔ d.topoRank a < d.topoRank b := by
  have hrank : ∀ s ∈ blocks, d.topoRank s.hash = s.header.topoIndex.toNat := by
    intro s hs
    simp [topoRank, (h.mem_iff s).mp hs]
  have hsorted : (d.getChildren p).Pairwise fun a b => d.topoRank a ≤ d.topoRank b := by
    rw [h.getChildren_eq]
    refine pairwise_childEntries (h.pairwise.imp_of_mem fun hs ht hlt => ?_)
    rw [hrank _ hs, hrank _ ht]
    exact Nat.le_of_lt hlt
  refine KahnOrder.entersBefore_iff_of_sorted hsorted ?_ (hint.mem_getChildren ha)
    (hint.mem_getChildren hb)
  intro x hx y hy he
  rw [h.getChildren_eq, mem_childEntries] at hx hy
  obtain ⟨s, hs, -, rfl⟩ := hx
  obtain ⟨t, ht, -, rfl⟩ := hy
  rw [hrank s hs, hrank t ht] at he
  exact h.wellFormed.topo_inj _ s _ t ((h.mem_iff s).mp hs) ((h.mem_iff t).mp ht)
    (UInt64.toNat_inj.mp he)

/-- A rebuilt index lists children in the order of their hashes. -/
theorem Intact.entersBefore_rebuildIndex_iff (h : Intact c d.rebuildIndex)
    (ha : p ∈ d.store.parentsOf a) (hb : p ∈ d.store.parentsOf b) :
    KahnOrder.EntersBefore (d.rebuildIndex.getChildren p) a b ↔ a < b := by
  have hhashes : (d.store.getAllBlocks.map (·.hash)).Pairwise (· ≤ ·) := by
    have hkey : ∀ k s, d.store.getBlock k = some s → s.hash = k := h.hash_eq
    rw [BlockStore.map_hash_getAllBlocks hkey]
    exact pairwise_sortedKeys d.store.blocks
  have hsorted : (d.rebuildIndex.getChildren p).Pairwise (· ≤ ·) := by
    rw [getChildren_rebuildIndex]
    exact pairwise_childEntries (f := id) (List.pairwise_map.mp hhashes)
  exact KahnOrder.entersBefore_iff_of_sorted (f := id) hsorted (fun _ _ _ _ he => he)
    (h.mem_getChildren ha) (h.mem_getChildren hb)

end Entries

theorem sameOrder_rebuildIndex_iff (c : Crypto) (calls : List Call) (h : Sound c calls)
    (hins : Call.rebuildIndex ∉ calls) :
    SameOrder (run c calls) (run c calls).rebuildIndex ↔
      ∀ p a b, (run c calls).LatestParent p a → (run c calls).LatestParent p b →
        ((run c calls).topoRank a < (run c calls).topoRank b ↔ a < b) := by
  obtain ⟨blocks, hgrown⟩ := h.exists_grown hins
  rw [h.intact.sameOrder_iff_siblingsAligned h.rebuilt rfl]
  refine forall₅_congr fun p a b ha hb => ?_
  rw [hgrown.entersBefore_iff h.intact ha.1 hb.1, h.rebuilt.entersBefore_rebuildIndex_iff ha.1 hb.1]

theorem Grown.eq_foldl {blocks : List Block} (h : Grown c blocks d) :
    d = blocks.foldl BlockDag.commit BlockDag.empty := by
  induction h with
  | empty => rfl
  | commit _ _ _ _ ih => rw [List.foldl_append, ← ih, List.foldl_cons, List.foldl_nil]

theorem run_eq_of_getBlock_eq (c : Crypto) (calls calls' : List Call) (h : Sound c calls)
    (h' : Sound c calls') (hins : Call.rebuildIndex ∉ calls) (hins' : Call.rebuildIndex ∉ calls')
    (hsame : ∀ hash, (run c calls').getBlock hash = (run c calls).getBlock hash) :
    run c calls' = run c calls := by
  obtain ⟨blocks, hgrown⟩ := h.exists_grown hins
  obtain ⟨blocks', hgrown'⟩ := h'.exists_grown hins'
  have hblocks : blocks' = blocks := by
    rw [← hgrown.byTopoIndex_eq, ← hgrown'.byTopoIndex_eq, byTopoIndex, byTopoIndex,
      store_eq_of_getBlock_eq hsame]
  rw [hgrown.eq_foldl, hgrown'.eq_foldl, hblocks]

end BlockDag

end CytahSpeed
