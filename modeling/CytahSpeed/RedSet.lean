import CytahSpeed.BlueSet

/-!
# The two colours

The red set is what the blue set leaves of the DAG. A block is blue when it has at most `k`
ancestors outside the past of the reference, and an ancestor has no more of them than the block
itself: the blue blocks are closed under ancestors and the red ones under descendants, although the
loop colours each block by itself.
-/

namespace CytahSpeed
open ByteString FiniteMap

namespace BlueSet

variable (blueSet : BlueSet) (dag : BlockDag)

def buildRedSet (referenceHash : BlockHash) : Finset BlockHash :=
  (DagTraversal.getAllBlocks dag).toFinset \ blueSet.buildBlueSet dag referenceHash

def countBlueBlocks (referenceHash : BlockHash) : ℕ :=
  (blueSet.buildBlueSet dag referenceHash).card

def countRedBlocks (referenceHash : BlockHash) : ℕ :=
  (blueSet.buildRedSet dag referenceHash).card

/-- In ascending order of the hashes. -/
def getBlueBlocks (referenceHash : BlockHash) : List BlockHash :=
  (blueSet.buildBlueSet dag referenceHash).sort (· ≤ ·)

def getRedBlocks (referenceHash : BlockHash) : List BlockHash :=
  (blueSet.buildRedSet dag referenceHash).sort (· ≤ ·)

def areAllAncestorsBlue (blockHash referenceHash : BlockHash) : Bool :=
  decide (DagTraversal.getAncestors dag blockHash ⊆ blueSet.buildBlueSet dag referenceHash)

variable {c : Crypto} {blueSet dag} {a b r : BlockHash}

theorem sdiff_pastCone_eq_empty (hb : b ∈ dag.pastCone r) :
    dag.getAncestors b \ dag.pastCone r = ∅ := by
  rw [Finset.sdiff_eq_empty_iff_subset]
  intro x hx
  rcases Finset.mem_insert.mp hb with rfl | hb
  · exact Finset.mem_insert_of_mem hx
  · exact Finset.mem_insert_of_mem (BlockDag.getAncestors_subset_of_mem hb hx)

theorem mem_buildBlueSet_iff_card (h : BlockDag.Intact c dag) {s : Block}
    (hb : dag.getBlock b = some s) : b ∈ blueSet.buildBlueSet dag r ↔
      (dag.getAncestors b \ dag.pastCone r).card ≤ blueSet.k := by
  rw [mem_buildBlueSet_iff h hb]
  refine ⟨?_, Or.inr⟩
  rintro (hcone | hcard)
  · rw [sdiff_pastCone_eq_empty hcone]
    exact Nat.zero_le _
  · exact hcard

theorem blue_of_ancestor (h : BlockDag.Intact c dag) (ha : a ∈ dag.getAncestors b)
    (hb : b ∈ blueSet.buildBlueSet dag r) : a ∈ blueSet.buildBlueSet dag r := by
  obtain ⟨s, q, hs, hq, -⟩ := h.wellFormed.ancestor ha
  rw [mem_buildBlueSet_iff_card h hs] at hb
  rw [mem_buildBlueSet_iff_card h hq]
  have hsub : dag.getAncestors a \ dag.pastCone r ⊆ dag.getAncestors b \ dag.pastCone r :=
    Finset.sdiff_subset_sdiff (BlockDag.getAncestors_subset_of_mem ha) subset_rfl
  exact (Finset.card_le_card hsub).trans hb

theorem buildBlueSet_subset (blueSet : BlueSet) (h : BlockDag.Intact c dag) {q : Block}
    (hr : dag.getBlock r = some q) :
    blueSet.buildBlueSet dag r ⊆ (DagTraversal.getAllBlocks dag).toFinset := by
  intro b hb
  rw [List.mem_toFinset]
  rcases mem_buildBlueSet.mp hb with rfl | ⟨hall, -⟩
  · exact (h.mem_order b).mpr ⟨q, hr⟩
  · exact hall

theorem nodup_blue_append_red (blueSet : BlueSet) (dag : BlockDag) (r : BlockHash) :
    (blueSet.getBlueBlocks dag r ++ blueSet.getRedBlocks dag r).Nodup := by
  refine List.nodup_append'.mpr ⟨Finset.sort_nodup _ _, Finset.sort_nodup _ _, ?_⟩
  intro b hblue hred
  rw [getBlueBlocks, Finset.mem_sort] at hblue
  rw [getRedBlocks, Finset.mem_sort, buildRedSet, Finset.mem_sdiff] at hred
  exact hred.2 hblue

/-- What the two colours are, as seen from a stored block. -/
structure Partition (blueSet : BlueSet) (dag : BlockDag) (r : BlockHash) : Prop where
  stored : ∀ b, (∃ s, dag.getBlock b = some s) ↔
    b ∈ blueSet.buildBlueSet dag r ∨ b ∈ blueSet.buildRedSet dag r
  disjoint : Disjoint (blueSet.buildBlueSet dag r) (blueSet.buildRedSet dag r)
  listed : (blueSet.getBlueBlocks dag r ++ blueSet.getRedBlocks dag r).Perm
    (DagTraversal.getAllBlocks dag)
  count : blueSet.countBlueBlocks dag r + blueSet.countRedBlocks dag r = dag.blockCount
  reference : r ∈ blueSet.buildBlueSet dag r
  ancestors : ∀ b ∈ blueSet.buildBlueSet dag r, blueSet.areAllAncestorsBlue dag b r = true
  descendants : ∀ a ∈ blueSet.buildRedSet dag r, ∀ b ∈ dag.getDescendants a,
    b ∈ blueSet.buildRedSet dag r

theorem toFinset_getAllBlocks (h : BlockDag.Intact c dag) :
    (DagTraversal.getAllBlocks dag).toFinset = dag.store.blocks.keys := by
  ext b
  rw [List.mem_toFinset, Finmap.mem_keys, Finmap.mem_iff]
  exact h.mem_order b

theorem partition_of_intact (blueSet : BlueSet) (h : BlockDag.Intact c dag) {q : Block}
    (hr : dag.getBlock r = some q) : blueSet.Partition dag r := by
  have hsub := buildBlueSet_subset blueSet h hr
  constructor
  case stored =>
    intro b
    have hall : b ∈ (DagTraversal.getAllBlocks dag).toFinset ↔ ∃ s, dag.getBlock b = some s := by
      rw [List.mem_toFinset]
      exact h.mem_order b
    rw [buildRedSet, ← Finset.mem_union, Finset.union_sdiff_of_subset hsub, hall]
  case disjoint => exact Finset.disjoint_sdiff
  case listed =>
    refine (List.perm_ext_iff_of_nodup (nodup_blue_append_red blueSet dag r) h.nodup_order).mpr ?_
    intro b
    rw [List.mem_append, getBlueBlocks, getRedBlocks, Finset.mem_sort, Finset.mem_sort,
      buildRedSet, ← Finset.mem_union, Finset.union_sdiff_of_subset hsub, List.mem_toFinset]
    rfl
  case count =>
    have hcard := Finset.card_sdiff_add_card_eq_card hsub
    rw [toFinset_getAllBlocks h, ← dag.store.blockCount_eq_card] at hcard
    rw [add_comm]
    unfold countRedBlocks countBlueBlocks buildRedSet
    rw [toFinset_getAllBlocks h]
    exact hcard
  case reference => exact mem_buildBlueSet.mpr (Or.inl rfl)
  case ancestors =>
    intro b hb
    apply decide_eq_true
    intro a ha
    rw [DagTraversal.getAncestors_eq h.wellFormed] at ha
    exact blue_of_ancestor h ha hb
  case descendants =>
    intro a ha b hb
    have hab := h.mem_getDescendants_iff.mp hb
    obtain ⟨s, q, hs, -⟩ := h.wellFormed.ancestor hab
    rw [buildRedSet, Finset.mem_sdiff] at ha ⊢
    refine ⟨List.mem_toFinset.mpr ((h.mem_order b).mpr ⟨s, hs⟩), ?_⟩
    exact fun hblue => ha.2 (blue_of_ancestor h hab hblue)

/-- After any sound run and as seen from any stored block, each stored block has one of the two
colours, all ancestors of a blue block are blue and all descendants of a red one are red. -/
theorem run_partition (c : Crypto) (calls : List Call) (h : BlockDag.Sound c calls)
    (blueSet : BlueSet) (r : BlockHash) (q : Block)
    (hr : (BlockDag.run c calls).getBlock r = some q) :
    blueSet.Partition (BlockDag.run c calls) r :=
  partition_of_intact blueSet h.intact hr

section Sample
open BlockDag

set_option maxRecDepth 20000 in
theorem sampleShortcut_coloured :
    (run .hashOnly sampleShortcut).blockCount = 3 ∧
      ((run .hashOnly sampleShortcut).getBlock sampleRoot).isSome = true ∧
      sampleLeaf ∈ (BlueSet.mk 0).buildBlueSet (run .hashOnly sampleShortcut) sampleRoot ∧
      sampleShortcutTop ∈ (BlueSet.mk 0).buildRedSet (run .hashOnly sampleShortcut) sampleRoot := by
  unfold sampleShortcut sampleShortcutTop sampleLeaf sampleCalls sampleChild sampleRoot
  rw [Crypto.hashOnly_eq_strict]
  decide +kernel

attribute [local irreducible] BlockDag.getAncestors buildBlueSet buildRedSet run sampleLeaf
  countBlueBlocks countRedBlocks

/-- Seen from the genesis block, the third block has an ancestor outside the past and is red, and
the second one is blue. -/
theorem run_partition_sample :
    (sampleShortcutTop ∈ (BlueSet.mk 0).buildRedSet (run .hashOnly sampleShortcut) sampleRoot ∧
        sampleShortcutTop ∉
          (BlueSet.mk 0).buildBlueSet (run .hashOnly sampleShortcut) sampleRoot) ∧
      (BlueSet.mk 0).areAllAncestorsBlue (run .hashOnly sampleShortcut) sampleLeaf sampleRoot =
        true ∧
      (BlueSet.mk 0).countBlueBlocks (run .hashOnly sampleShortcut) sampleRoot +
        (BlueSet.mk 0).countRedBlocks (run .hashOnly sampleShortcut) sampleRoot = 3 := by
  obtain ⟨hcount, hroot, hblue, hred⟩ := sampleShortcut_coloured
  obtain ⟨s, hs⟩ := Option.isSome_iff_exists.mp hroot
  have hpart := run_partition .hashOnly sampleShortcut sampleShortcut_evaluated.1 (BlueSet.mk 0)
    sampleRoot s hs
  exact ⟨⟨hred, fun h => Finset.disjoint_left.mp hpart.disjoint h hred⟩,
    hpart.ancestors sampleLeaf hblue, hpart.count.trans hcount⟩

end Sample

end BlueSet

end CytahSpeed
