import CytahSpeed.DagPaths
import CytahSpeed.MultiSearch

/-!
# Queries over the DAG

What is reachable from a set of hashes is their past cones, unknown hashes counting as their own.
The coparents of a block are the other blocks with a parent in common. The blocks at one depth are
unrelated, and every block above the first depth has a parent one below.
-/

namespace CytahSpeed
open FiniteMap

namespace DagIndex

/-- The loop takes hashes off a queue that may hold a hash more than once. -/
def getReachableBlocks (hashes : List BlockHash) (store : BlockStore) : Finset BlockHash :=
  Worklist.drain store.parentsOf
    (Worklist.pending store.parentsOf store.getAllHashes.toFinset ∅ hashes) hashes ∅

def getCoparents (idx : DagIndex) (hash : BlockHash) (store : BlockStore) : Finset BlockHash :=
  match store.getBlock hash with
  | some block => ((block.header.parentHashes.flatMap idx.getChildren).filter (· ≠ hash)).toFinset
  | none => ∅

end DagIndex

namespace BlockDag

variable (d : BlockDag)

def getCoparents (hash : BlockHash) : Finset BlockHash := d.index.getCoparents hash d.store

end BlockDag

namespace DagTraversal

variable (d : BlockDag)

def getBlocksAtDepth (depth : ℕ) : List BlockHash :=
  d.getTopologicalOrder.filter fun hash => d.getBlockDepth hash = some depth

end DagTraversal

namespace BlockDag

variable {c : Crypto} {d : BlockDag}

theorem mem_getReachableBlocks (hashes : List BlockHash) (x : BlockHash) :
    x ∈ DagIndex.getReachableBlocks hashes d.store ↔ ∃ h ∈ hashes, x ∈ d.pastCone h := by
  have hnodes : ∀ h, h ∉ d.store.getAllHashes.toFinset → d.store.parentsOf h = [] := by
    intro h hh
    rw [List.mem_toFinset, d.store.mem_getAllHashes, not_exists] at hh
    exact parentsOf_eq_nil (Option.eq_none_iff_forall_ne_some.mpr hh)
  rw [DagIndex.getReachableBlocks, Worklist.mem_drain_iff hnodes]
  simp only [mem_pastCone_iff_reflTransGen]

theorem Intact.mem_getCoparents (h : Intact c d) {hash k : BlockHash} :
    k ∈ d.getCoparents hash ↔
      k ≠ hash ∧ ∃ p, p ∈ d.store.parentsOf hash ∧ p ∈ d.store.parentsOf k := by
  have hchildren : ∀ p, k ∈ d.index.getChildren p ↔ p ∈ d.store.parentsOf k := fun p =>
    h.graph.mem_children_iff p k
  rw [getCoparents, DagIndex.getCoparents, BlockStore.parentsOf]
  cases d.store.getBlock hash with
  | none => simp
  | some block =>
    simp only [List.mem_toFinset, List.mem_filter, List.mem_flatMap, hchildren, ne_eq,
      decide_not, Bool.not_eq_true', decide_eq_false_iff_not]
    exact and_comm

theorem Intact.mem_getBlocksAtDepth (h : Intact c d) {n : ℕ} {x : BlockHash} :
    x ∈ DagTraversal.getBlocksAtDepth d n ↔
      (∃ s, d.getBlock x = some s) ∧ d.heightRank x = n := by
  rw [DagTraversal.getBlocksAtDepth, List.mem_filter, h.mem_order, decide_eq_true_iff]
  refine and_congr_right ?_
  rintro ⟨s, hs⟩
  rw [h.wellFormed.getBlockDepth_eq hs, Option.some.injEq, heightRank, heightAt_eq hs]

structure Layered (d : BlockDag) (layer : ℕ → List BlockHash) : Prop where
  nodup : ∀ n, (layer n).Nodup
  covers : ∀ x s, d.getBlock x = some s → ∃! n, x ∈ layer n
  stored : ∀ n, ∀ x ∈ layer n, ∃ s, d.getBlock x = some s
  unrelated : ∀ n, ∀ x ∈ layer n, ∀ y ∈ layer n, x ∉ d.getAncestors y
  parents : ∀ n, ∀ x ∈ layer n, ∀ p ∈ d.store.parentsOf x, ∃ m < n, p ∈ layer m
  below : ∀ n, ∀ x ∈ layer (n + 1), ∃ p ∈ d.store.parentsOf x, p ∈ layer n

theorem Intact.layered (h : Intact c d) : d.Layered (DagTraversal.getBlocksAtDepth d) where
  nodup n := h.nodup_order.filter _
  covers x s hs := by
    refine ⟨d.heightRank x, h.mem_getBlocksAtDepth.mpr ⟨⟨s, hs⟩, rfl⟩, ?_⟩
    intro n hn
    exact (h.mem_getBlocksAtDepth.mp hn).2.symm
  stored n x hx := (h.mem_getBlocksAtDepth.mp hx).1
  unrelated n x hx y hy hxy := by
    have hlt := h.wellFormed.heightRank_lt_of_mem hxy
    rw [(h.mem_getBlocksAtDepth.mp hx).2, (h.mem_getBlocksAtDepth.mp hy).2] at hlt
    exact lt_irrefl _ hlt
  parents n x hx p hp := by
    obtain ⟨-, q, -, -, hq, -⟩ := h.wellFormed.parentsOf hp
    have hlt := h.wellFormed.height_parent_lt hp
    rw [(h.mem_getBlocksAtDepth.mp hx).2] at hlt
    exact ⟨d.heightRank p, hlt, h.mem_getBlocksAtDepth.mpr ⟨⟨q, hq⟩, rfl⟩⟩
  below n x hx := by
    obtain ⟨p, hp, hrank⟩ := h.wellFormed.exists_parent (h.mem_getBlocksAtDepth.mp hx).2
    obtain ⟨-, q, -, -, hq, -⟩ := h.wellFormed.parentsOf hp
    exact ⟨p, hp, h.mem_getBlocksAtDepth.mpr ⟨⟨q, hq⟩, hrank⟩⟩

/-- After any sound run: what is reachable are the past cones, and the coparents share a parent. -/
theorem run_neighbours (c : Crypto) (calls : List Call) (h : Sound c calls) :
    (∀ hashes x, x ∈ DagIndex.getReachableBlocks hashes (run c calls).store ↔
        ∃ a ∈ hashes, x ∈ (run c calls).pastCone a) ∧
      ∀ a b, b ∈ (run c calls).getCoparents a ↔
        b ≠ a ∧ ∃ p, p ∈ (run c calls).store.parentsOf a ∧ p ∈ (run c calls).store.parentsOf b :=
  ⟨fun hashes x => mem_getReachableBlocks hashes x, fun _ _ => h.intact.mem_getCoparents⟩

/-- After any sound run the depths cut the DAG into layers of unrelated blocks. -/
theorem run_layered (c : Crypto) (calls : List Call) (h : Sound c calls) :
    (run c calls).Layered (DagTraversal.getBlocksAtDepth (run c calls)) := h.intact.layered

section Sample

attribute [local irreducible] getAncestors run sampleLeaf sampleRoot sampleThird sampleFourth

/-- From one of the two blocks on the child the genesis block is reached, and the other one is its
coparent. -/
theorem run_neighbours_sample :
    sampleRoot ∈ DagIndex.getReachableBlocks [sampleThird] (run .hashOnly sampleTwins).store ∧
      sampleFourth ∈ (run .hashOnly sampleTwins).getCoparents sampleThird ∧
      sampleThird ∉ (run .hashOnly sampleTwins).getCoparents sampleThird := by
  obtain ⟨hsound, ⟨hthird, hfourth⟩, ⟨hpast, -⟩, -, hne⟩ := sampleTwins_evaluated
  obtain ⟨s, hs, hparents⟩ := Option.map_eq_some_iff.mp hthird
  obtain ⟨q, hq, hparents'⟩ := Option.map_eq_some_iff.mp hfourth
  obtain ⟨hreach, hcoparents⟩ := run_neighbours .hashOnly sampleTwins hsound
  refine ⟨(hreach _ _).mpr ⟨sampleThird, List.mem_singleton_self _, ?_⟩,
    (hcoparents _ _).mpr ⟨hne.symm, sampleLeaf, ?_, ?_⟩,
    fun h => ((hcoparents _ _).mp h).1 rfl⟩
  · rw [pastCone, hpast]
    exact Finset.mem_insert_of_mem (Finset.mem_insert_self _ _)
  · rw [BlockStore.parentsOf_eq _ hs, hparents]
    exact List.mem_singleton_self _
  · rw [BlockStore.parentsOf_eq _ hq, hparents']
    exact List.mem_singleton_self _

theorem run_layered_sample :
    (run .hashOnly sampleTwins).Layered
      (DagTraversal.getBlocksAtDepth (run .hashOnly sampleTwins)) :=
  run_layered .hashOnly sampleTwins sampleTwins_evaluated.1

end Sample

end BlockDag

end CytahSpeed
