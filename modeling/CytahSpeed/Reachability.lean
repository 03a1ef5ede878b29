import CytahSpeed.Finality

/-!
# What the reachability index answers

`can_reach` compares heights and positions and keeps its answers in the interval tree. The order
is sorted by height, so on stored blocks the answer is the order of positions, which is total. It
is the ancestor relation exactly when no two stored blocks are parallel.
-/

namespace CytahSpeed
open ByteString FiniteMap MachineInt

namespace IntervalTree

theorem findNode_buildBalancedTree (fuel : ℕ) (nodes : List IntervalNode) (hash : BlockHash)
    (cache : Map BlockHash Bool)
    (h : (buildBalancedTree fuel nodes).findNode hash = some cache) : cache = ∅ := by
  induction fuel generalizing nodes with
  | zero => cases h
  | succ fuel ih =>
    rw [buildBalancedTree] at h
    dsimp only at h
    split at h
    · cases h
    · rename_i middle _
      rw [findNode] at h
      by_cases hm : middle.blockHash = hash
      · rw [if_pos hm] at h
        exact (Option.some.inj h).symm
      · rw [if_neg hm] at h
        rcases Option.or_eq_some_iff.mp h with hl | ⟨-, hr⟩
        · exact ih _ hl
        · exact ih _ hr

theorem findNode_setCache (source : BlockHash) (cache : Map BlockHash Bool) (tree : IntervalTree)
    (hash : BlockHash) :
    (tree.setCache source cache).findNode hash =
      if hash = source then (tree.findNode source).map (fun _ => cache)
      else tree.findNode hash := by
  induction tree with
  | nil => simp [setCache, findNode]
  | node n own left right ihl ihr =>
    by_cases hn : n.blockHash = source
    · rw [setCache, if_pos hn]
      by_cases hh : hash = source
      · simp [findNode, hn, hh]
      · have hne : n.blockHash ≠ hash := fun he => hh (he.symm.trans hn)
        simp [findNode, hh, hne]
    · rw [setCache, if_neg hn]
      by_cases hleft : (left.findNode source).isSome = true
      · rw [if_pos hleft]
        obtain ⟨found, hfound⟩ := Option.isSome_iff_exists.mp hleft
        by_cases hh : hash = source
        · subst hh
          simp [findNode, hn, ihl, hfound]
        · simp [findNode, ihl, hh]
      · rw [if_neg hleft]
        have hnone : left.findNode source = none := by simpa using hleft
        by_cases hh : hash = source
        · subst hh
          simp [findNode, hn, ihr, hnone]
        · simp [findNode, ihr, hh]

end IntervalTree

namespace FinalityEngine

variable {c : Crypto} {d : BlockDag} {e : FinalityEngine} {margin : UInt64 → UInt64}

/-- The tree is built and every cached answer is the one that would be computed. -/
def Answers (e : FinalityEngine) : Prop :=
  ∃ tree, e.intervalTree = some tree ∧
    ∀ source cache target answer, tree.findNode source = some cache →
      cache.lookup target = some answer → e.computeReachability source target = .ok answer

def afterQueries (e : FinalityEngine) (queries : List (BlockHash × BlockHash)) : FinalityEngine :=
  queries.foldl (fun e q => (e.canReach q.1 q.2).2) e

@[simp] theorem afterQueries_nil (e : FinalityEngine) : e.afterQueries [] = e := rfl

theorem Answers.canReach (h : e.Answers) (source target : BlockHash) :
    (e.canReach source target).1 = e.computeReachability source target ∧
      (e.canReach source target).2.Answers ∧
      (e.canReach source target).2.blockHeights = e.blockHeights ∧
      (e.canReach source target).2.blockScores = e.blockScores := by
  obtain ⟨tree, htree, hcache⟩ := h
  simp only [FinalityEngine.canReach, htree]
  cases hfound : (tree.findNode source).bind (·.lookup target) with
  | some cached =>
    obtain ⟨cache, hnode, hlook⟩ := Option.bind_eq_some_iff.mp hfound
    exact ⟨(hcache source cache target cached hnode hlook).symm, ⟨tree, htree, hcache⟩, rfl, rfl⟩
  | none =>
    cases hr : e.computeReachability source target with
    | error err => exact ⟨rfl, ⟨tree, htree, hcache⟩, rfl, rfl⟩
    | ok answer =>
      cases hnode : tree.findNode source with
      | none =>
        simp only [cacheReachability, hnode]
        exact ⟨trivial, ⟨tree, htree, hcache⟩, trivial, trivial⟩
      | some cache =>
        simp only [cacheReachability, hnode]
        refine ⟨trivial, ⟨_, rfl, ?_⟩, trivial, trivial⟩
        intro source' cache' target' answer' hnode' hlook'
        change e.computeReachability source' target' = .ok answer'
        rw [IntervalTree.findNode_setCache] at hnode'
        by_cases hs : source' = source
        · rw [if_pos hs, hnode, Option.map_some] at hnode'
          rw [← Option.some.inj hnode'] at hlook'
          by_cases hlarge : (cache.insert target answer).keys.card > e.maxCacheSize / 100
          · rw [if_pos hlarge] at hlook'
            simp at hlook'
          · rw [if_neg hlarge, lookup_insert_eq_ite] at hlook'
            by_cases ht : target' = target
            · rw [if_pos ht] at hlook'
              rw [hs, ht, hr, Option.some.inj hlook']
            · rw [if_neg ht] at hlook'
              exact hcache _ cache _ _ (hs ▸ hnode) hlook'
        · rw [if_neg hs] at hnode'
          exact hcache _ _ _ _ hnode' hlook'

theorem Answers.afterQueries (h : e.Answers) (hrec : e.Records d)
    (queries : List (BlockHash × BlockHash)) :
    (e.afterQueries queries).Answers ∧ (e.afterQueries queries).Records d := by
  induction queries generalizing e with
  | nil => exact ⟨h, hrec⟩
  | cons q queries ih =>
    obtain ⟨-, hans, hh, hs⟩ := h.canReach q.1 q.2
    exact ih hans ⟨by rw [hh]; exact hrec.heights, by rw [hs]; exact hrec.scores⟩

theorem answers_computeFinality (hok : (e.computeFinality d margin).1 = .ok ()) :
    (e.computeFinality d margin).2.Answers := by
  rcases computeFinality_cases e d margin with
    ⟨err, he, -⟩ | ⟨acc, e', -, -, hc, -, -, -, -, -, ht⟩
  · rw [hok] at he
    cases he
  · rw [hc]
    refine ⟨_, ht, ?_⟩
    intro source cache target answer hnode hlook
    rw [IntervalTree.findNode_buildBalancedTree _ _ _ _ hnode] at hlook
    simp at hlook

theorem Records.computeReachability_eq (hrec : e.Records d) (h : BlockDag.Intact c d)
    (hfits : d.blockCount < 2 ^ 64) {a b : BlockHash} {s s' : Block}
    (ha : d.getBlock a = some s) (hb : d.getBlock b = some s') :
    e.computeReachability a b =
      .ok (decide (d.getTopologicalOrder.idxOf a ≤ d.getTopologicalOrder.idxOf b)) := by
  have hsa := (hrec.scores a _).mpr ⟨⟨s, ha⟩, rfl⟩
  have hsb := (hrec.scores b _).mpr ⟨⟨s', hb⟩, rfl⟩
  simp only [computeReachability, hrec.heights a s ha, hrec.heights b s' hb, hsa, hsb]
  congr 1
  rw [← Bool.decide_and, decide_eq_decide, UInt64.le_iff_toNat_le, UInt64.le_iff_toNat_le,
    toNat_position h hfits ⟨s, ha⟩, toNat_position h hfits ⟨s', hb⟩]
  refine and_iff_right_of_imp fun hle => ?_
  have hrank := h.heightRank_le ⟨s, ha⟩ ⟨s', hb⟩ hle
  rwa [BlockDag.heightRank, BlockDag.heightRank, BlockDag.heightAt_eq ha,
    BlockDag.heightAt_eq hb] at hrank

/-- A query about stored blocks says whether the first is listed no later than the second. -/
theorem canReach_iff (h : BlockDag.Intact c d) (hfits : d.blockCount < 2 ^ 64)
    (hok : (e.computeFinality d margin).1 = .ok ()) (queries : List (BlockHash × BlockHash))
    {a b : BlockHash} {s s' : Block} (ha : d.getBlock a = some s) (hb : d.getBlock b = some s') :
    (((e.computeFinality d margin).2.afterQueries queries).canReach a b).1 = .ok true ↔
      d.getTopologicalOrder.idxOf a ≤ d.getTopologicalOrder.idxOf b := by
  obtain ⟨hans, hrec⟩ := (answers_computeFinality hok).afterQueries
    (computeFinality_ok h hfits hok).1 queries
  rw [(hans.canReach a b).1, hrec.computeReachability_eq h hfits ha hb]
  simp

/-- After a computation on a reachable DAG and any queries, `can_reach` is the reflexive ancestor
relation on the stored blocks exactly when no two of them are parallel. -/
theorem canReach_exact_iff (c : Crypto) (calls : List Call) (h : BlockDag.Sound c calls)
    (e : FinalityEngine) (margin : UInt64 → UInt64)
    (hok : (e.computeFinality (BlockDag.run c calls) margin).1 = .ok ())
    (queries : List (BlockHash × BlockHash)) :
    (∀ a b s s', (BlockDag.run c calls).getBlock a = some s →
      (BlockDag.run c calls).getBlock b = some s' →
      ((((e.computeFinality (BlockDag.run c calls) margin).2.afterQueries queries).canReach
        a b).1 = .ok true ↔ a = b ∨ a ∈ (BlockDag.run c calls).getAncestors b)) ↔
    ∀ a b s s', (BlockDag.run c calls).getBlock a = some s →
      (BlockDag.run c calls).getBlock b = some s' → ¬ (BlockDag.run c calls).Parallel a b := by
  have hint := h.intact
  have hreach := @canReach_iff c (BlockDag.run c calls) e margin hint h.fits hok queries
  generalize BlockDag.run c calls = d at *
  constructor
  · rintro hexact a b s s' ha hb ⟨hne, hab, hba⟩
    -- the two positions are comparable either way, and the blocks are not
    rcases le_total (d.getTopologicalOrder.idxOf a) (d.getTopologicalOrder.idxOf b) with hle | hle
    · rcases (hexact a b s s' ha hb).mp ((hreach ha hb).mpr hle) with he | hanc
      · exact hne he
      · exact hab hanc
    · rcases (hexact b a s' s hb ha).mp ((hreach hb ha).mpr hle) with he | hanc
      · exact hne he.symm
      · exact hba hanc
  · intro hchain a b s s' ha hb
    rw [hreach ha hb]
    constructor
    · intro hle
      by_contra hnot
      rw [not_or] at hnot
      apply hchain a b s s' ha hb
      refine ⟨hnot.1, hnot.2, fun hanc => ?_⟩
      have := hint.idxOf_ancestor_lt hanc
      omega
    · rintro (rfl | hanc)
      · exact le_rfl
      · exact (hint.idxOf_ancestor_lt hanc).le

section Sample
open BlockDag

set_option maxRecDepth 20000 in
theorem sampleCalls_chain :
    ((newWithK 2 1).computeFinality (run .hashOnly sampleCalls) tenth).1 = .ok () ∧
      ((run .hashOnly sampleCalls).getBlock sampleRoot).isSome = true ∧
      ((run .hashOnly sampleCalls).getBlock sampleTips.1).isSome = true ∧
      ((run .hashOnly sampleCalls).getTopologicalOrder.all fun a =>
        (run .hashOnly sampleCalls).getTopologicalOrder.all fun b =>
          ¬ (run .hashOnly sampleCalls).Parallel a b) = true := by
  unfold sampleCalls sampleChild sampleRoot
  rw [Crypto.hashOnly_eq_strict]
  decide +kernel

attribute [local irreducible] BlockDag.getAncestors

/-- Genesis does not descend from its child, and is not said to, also after two queries. -/
theorem canReach_exact_chain :
    ((((newWithK 2 1).computeFinality (run .hashOnly sampleCalls) tenth).2.afterQueries
      [(sampleRoot, sampleTips.1), (sampleTips.1, sampleRoot)]).canReach
        sampleTips.1 sampleRoot).1 = .ok true ↔
      sampleTips.1 = sampleRoot ∨
        sampleTips.1 ∈ (run .hashOnly sampleCalls).getAncestors sampleRoot := by
  obtain ⟨hok, hroot, hchild, hchain⟩ := sampleCalls_chain
  have hsound := sampleCalls_evaluated.1
  obtain ⟨s, hs⟩ := Option.isSome_iff_exists.mp hchild
  obtain ⟨s', hs'⟩ := Option.isSome_iff_exists.mp hroot
  refine (canReach_exact_iff .hashOnly sampleCalls hsound (newWithK 2 1) tenth hok
    [(sampleRoot, sampleTips.1), (sampleTips.1, sampleRoot)]).mpr ?_ sampleTips.1 sampleRoot s s'
    hs hs'
  intro a b s s' ha hb
  have hrow := List.all_eq_true.mp hchain a ((hsound.intact.mem_order a).mpr ⟨s, ha⟩)
  simpa using List.all_eq_true.mp hrow b ((hsound.intact.mem_order b).mpr ⟨s', hb⟩)

/-- Of two parallel children the one listed first is said to reach the other. -/
theorem canReach_parallel :
    Sound .hashOnly sampleFork ∧
      ((newWithK 2 1).computeFinality (run .hashOnly sampleFork) tenth).1 = .ok () ∧
      (((newWithK 2 1).computeFinality (run .hashOnly sampleFork) tenth).2.canReach
        sampleTips.1 sampleTips.2).1 = .ok true ∧
      sampleTips.1 ≠ sampleTips.2 ∧
      sampleTips.1 ∉ (run .hashOnly sampleFork).getAncestors sampleTips.2 := by
  obtain ⟨hok, -, horder, hlt⟩ := sampleFork_finality
  obtain ⟨hsound, -, -, -, -, hdesc⟩ := sampleFork_evaluated
  have hmem : sampleTips.1 ∈ (run .hashOnly sampleFork).getTopologicalOrder := by simp [horder]
  have hmem' : sampleTips.2 ∈ (run .hashOnly sampleFork).getTopologicalOrder := by simp [horder]
  obtain ⟨s, hs⟩ := (hsound.intact.mem_order _).mp hmem
  obtain ⟨s', hs'⟩ := (hsound.intact.mem_order _).mp hmem'
  have hnot : sampleTips.1 ∉ (run .hashOnly sampleFork).getAncestors sampleTips.2 := by
    have hhash := (BlockStore.mem_getAllHashes _ sampleTips.2).mpr ⟨s', hs'⟩
    simpa using List.all_eq_true.mp hdesc sampleTips.2 hhash
  have hreach := (canReach_iff hsound.intact hsound.fits hok [] hs hs').mpr hlt.le
  rw [afterQueries_nil] at hreach
  exact ⟨hsound, hok, hreach, by decide, hnot⟩

end Sample

end FinalityEngine

end CytahSpeed
