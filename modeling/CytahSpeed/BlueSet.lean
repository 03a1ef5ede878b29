import CytahSpeed.Ancestry
import CytahSpeed.BlueScore

/-!
# Blue sets

`build_blue_set` colours every block of the DAG by the number of its ancestors outside the
reference's past; `is_blue` first asks whether the block is in that past at all, since a blue block
"must be ancestor or equal to reference". Inside the past the two agree. Outside it the first
still calls a block blue if it has at most `k` ancestors out there: a child of the reference has
none.
-/

namespace CytahSpeed
open ByteString FiniteMap

structure BlueSet where
  k : ℕ

namespace BlueSet

variable (blueSet : BlueSet) (dag : BlockDag)

/-- The reference block and, among all others, those with a small enough anticone. -/
def buildBlueSet (referenceHash : BlockHash) : Finset BlockHash :=
  (DagTraversal.getAllBlocks dag).foldl
    (fun blue blockHash =>
      if blockHash = referenceHash then blue
      else if (DagTraversal.getAnticone dag blockHash referenceHash).card ≤ blueSet.k then
        insert blockHash blue
      else blue)
    {referenceHash}

/-- "Block must be ancestor or equal to reference to be blue." -/
def isBlue (blockHash referenceHash : BlockHash) : Bool :=
  if blockHash ≠ referenceHash ∧ ¬ DagTraversal.isAncestor dag blockHash referenceHash then false
  else decide ((DagTraversal.getAnticone dag blockHash referenceHash).card ≤ blueSet.k)

variable {c : Crypto} {blueSet dag} {b r : BlockHash}

theorem mem_buildBlueSet : b ∈ blueSet.buildBlueSet dag r ↔
    b = r ∨ (b ∈ DagTraversal.getAllBlocks dag ∧
      (DagTraversal.getAnticone dag b r).card ≤ blueSet.k) := by
  have hfold : ∀ (l : List BlockHash) (blue : Finset BlockHash),
      b ∈ l.foldl (fun blue x => if x = r then blue
        else if (DagTraversal.getAnticone dag x r).card ≤ blueSet.k then insert x blue
        else blue) blue ↔
      b ∈ blue ∨ (b ∈ l ∧ b ≠ r ∧ (DagTraversal.getAnticone dag b r).card ≤ blueSet.k) := by
    intro l
    induction l with
    | nil => simp
    | cons x l ih =>
      intro blue
      rw [List.foldl_cons, ih, List.mem_cons]
      by_cases hb : b = x
      · subst hb
        by_cases hr : b = r <;>
          by_cases hk : (DagTraversal.getAnticone dag b r).card ≤ blueSet.k <;> simp [hr, hk]
      · split_ifs <;> simp [hb]
  rw [buildBlueSet, hfold, Finset.mem_singleton]
  tauto

theorem getAnticone_eq (wf : BlockDag.WellFormed c dag) (b r : BlockHash) :
    DagTraversal.getAnticone dag b r = dag.getAncestors b \ dag.pastCone r := by
  rw [DagTraversal.getAnticone, DagTraversal.getAncestors_eq wf, DagTraversal.getAncestors_eq wf,
    Finset.sdiff_eq_filter]
  rfl

theorem isBlue_iff (wf : BlockDag.WellFormed c dag) :
    blueSet.isBlue dag b r = true ↔ b ∈ dag.pastCone r := by
  have hmem : ¬ (b ≠ r ∧ ¬ DagTraversal.isAncestor dag b r = true) ↔ b ∈ dag.pastCone r := by
    rw [DagTraversal.isAncestor, BlockDag.isAncestor_eq_true_iff, BlockDag.pastCone,
      Finset.mem_insert]
    tauto
  rw [isBlue]
  by_cases hb : b ∈ dag.pastCone r
  · have hempty : DagTraversal.getAnticone dag b r = ∅ :=
      DagTraversal.getAnticone_eq_empty wf (Finset.mem_insert.mp hb)
    rw [if_neg (hmem.mpr hb), hempty]
    simp [hb]
  · rw [if_pos (not_not.mp (mt hmem.mp hb))]
    simp [hb]

theorem mem_buildBlueSet_iff (h : BlockDag.Intact c dag) {s : Block}
    (hb : dag.getBlock b = some s) :
    b ∈ blueSet.buildBlueSet dag r ↔
      b ∈ dag.pastCone r ∨ (dag.getAncestors b \ dag.pastCone r).card ≤ blueSet.k := by
  have hall : b ∈ DagTraversal.getAllBlocks dag := (h.mem_order b).mpr ⟨s, hb⟩
  rw [mem_buildBlueSet, getAnticone_eq h.wellFormed]
  constructor
  · rintro (rfl | ⟨-, hcard⟩)
    · exact Or.inl (Finset.mem_insert_self _ _)
    · exact Or.inr hcard
  · rintro (hcone | hcard)
    · have hempty := DagTraversal.getAnticone_eq_empty h.wellFormed (Finset.mem_insert.mp hcone)
      rw [getAnticone_eq h.wellFormed] at hempty
      exact Or.inr ⟨hall, by simp [hempty]⟩
    · exact Or.inr ⟨hall, hcard⟩

/-- After any sound run, set and test agree on a stored block exactly if it is the reference or in
its past, or has more than `k` ancestors outside of it. -/
theorem buildBlueSet_agrees_iff (c : Crypto) (calls : List Call) (h : BlockDag.Sound c calls)
    (k : ℕ) (b r : BlockHash) (s : Block) (hb : (BlockDag.run c calls).getBlock b = some s) :
    (b ∈ (BlueSet.mk k).buildBlueSet (BlockDag.run c calls) r ↔
        (BlueSet.mk k).isBlue (BlockDag.run c calls) b r = true) ↔
      b ∈ (BlockDag.run c calls).pastCone r ∨
        k < ((BlockDag.run c calls).getAncestors b \ (BlockDag.run c calls).pastCone r).card := by
  rw [mem_buildBlueSet_iff h.intact hb, isBlue_iff h.wellFormed]
  by_cases hcone : b ∈ (BlockDag.run c calls).pastCone r
  · simp only [hcone, true_or]
  · simp only [hcone, false_or, iff_false, not_le]

section Sample
open BlockDag

attribute [local irreducible] BlockDag.getAncestors buildBlueSet isBlue

/-- The genesis block is blue as seen from its child, by set and by test. -/
theorem buildBlueSet_agrees_sample :
    sampleRoot ∈ (BlueSet.mk 2).buildBlueSet (run .hashOnly sampleCalls) sampleLeaf ↔
      (BlueSet.mk 2).isBlue (run .hashOnly sampleCalls) sampleRoot sampleLeaf = true := by
  obtain ⟨⟨s, hs⟩, -⟩ := sampleCalls_stored
  have hiff := buildBlueSet_agrees_iff .hashOnly sampleCalls sampleCalls_evaluated.1 2 sampleRoot
    sampleLeaf s hs
  obtain ⟨-, hleaf, -⟩ := sampleCalls_lineage
  refine hiff.mpr (Or.inl (Finset.mem_insert_of_mem ?_))
  rw [hleaf]
  exact Finset.mem_singleton_self _

/-- As seen from the genesis block its child is in the set, for any `k`, and fails the test. -/
theorem buildBlueSet_holds_child :
    Sound .hashOnly sampleCalls ∧
      (∃ s, (run .hashOnly sampleCalls).getBlock sampleLeaf = some s) ∧
      (∃ s, (run .hashOnly sampleCalls).getBlock sampleRoot = some s) ∧
      ∀ k, sampleLeaf ∈ (BlueSet.mk k).buildBlueSet (run .hashOnly sampleCalls) sampleRoot ∧
        ¬ (BlueSet.mk k).isBlue (run .hashOnly sampleCalls) sampleLeaf sampleRoot = true := by
  obtain ⟨hroot, ⟨s, hs⟩, -⟩ := sampleCalls_stored
  obtain ⟨hempty, hleaf, -, hne⟩ := sampleCalls_lineage
  have hint := sampleCalls_evaluated.1.intact
  have hcone : (run .hashOnly sampleCalls).pastCone sampleRoot = {sampleRoot} := by
    rw [pastCone, hempty, insert_empty_eq]
  refine ⟨sampleCalls_evaluated.1, ⟨s, hs⟩, hroot, fun k => ⟨?_, ?_⟩⟩
  · refine (mem_buildBlueSet_iff hint hs).mpr (Or.inr ?_)
    rw [hleaf, hcone, sdiff_self]
    exact Nat.zero_le k
  · rw [isBlue_iff hint.wellFormed, hcone, Finset.mem_singleton]
    exact hne

end Sample

end BlueSet

end CytahSpeed
