import CytahSpeed.TopologicalOrder
import Mathlib.Order.Bounds.Defs

/-!
# Ancestors, descendants and depth

Descendants are searched over the child lists of the index, ancestors over the parent lists of the
store, and each search exists twice: in the index, and in the traversal with its own set of visited
blocks. On an intact DAG all four compute the strict closure of the parent relation, from one end
or the other. The depth of a block is the length of the longest path up to the block without
parents.
-/

namespace CytahSpeed
open ByteString FiniteMap MachineInt

namespace DagIndex

variable (idx : DagIndex)

def childHashes : Finset BlockHash :=
  idx.parentToChildren.keys.biUnion fun p => (idx.getChildren p).toFinset

/-- All children recursively; the store is not consulted. -/
def getAllDescendants (hash : BlockHash) : Finset BlockHash :=
  Worklist.search idx.getChildren (idx.childHashes.card + 1) [hash] ∅

theorem mem_childHashes {p k : BlockHash} (hk : k ∈ idx.getChildren p) : k ∈ idx.childHashes := by
  have hp : p ∈ idx.parentToChildren.keys := by
    by_contra hn
    rw [Finmap.mem_keys] at hn
    rw [getChildren, Finmap.lookup_eq_none.mpr hn] at hk
    cases hk
  exact Finset.mem_biUnion.mpr ⟨p, hp, List.mem_toFinset.mpr hk⟩

theorem mem_getAllDescendants (hash k : BlockHash) :
    k ∈ idx.getAllDescendants hash ↔
      Relation.TransGen (Worklist.Step idx.getChildren) hash k :=
  Worklist.mem_search idx.getChildren idx.childHashes (fun _ _ hk => idx.mem_childHashes hk) hash k

end DagIndex

namespace BlockDag

variable (d : BlockDag)

def getDescendants (hash : BlockHash) : Finset BlockHash := d.index.getAllDescendants hash

def isAncestor (ancestorHash blockHash : BlockHash) : Bool :=
  DagIndex.isAncestor ancestorHash blockHash d.store

/-- A path of `n` steps from a block to a parent. -/
inductive ParentPath : ℕ → BlockHash → BlockHash → Prop
  | nil (h : BlockHash) : ParentPath 0 h h
  | cons {n : ℕ} {h p a : BlockHash} {s : Block} :
      d.getBlock h = some s → p ∈ s.header.parentHashes → ParentPath n p a →
      ParentPath (n + 1) h a

end BlockDag

namespace DagTraversal

variable (d : BlockDag)

/-- Descendants found by a search that keeps its own set of visited blocks. -/
def getDescendants (hash : BlockHash) : Finset BlockHash :=
  Worklist.searchOnce d.getChildren hash (d.index.childHashes.card + 1) [hash] ∅ ∅

def getParents (hash : BlockHash) : List BlockHash :=
  match d.getBlock hash with
  | some block => block.header.parentHashes
  | none => []

def getAllBlocks : List BlockHash := d.getTopologicalOrder

def isAncestor (ancestor block : BlockHash) : Bool := d.isAncestor ancestor block

end DagTraversal

namespace BlockDag

variable {c : Crypto} {d : BlockDag}

theorem mem_parentsOf_iff {h p : BlockHash} :
    p ∈ d.store.parentsOf h ↔ ∃ s, d.getBlock h = some s ∧ p ∈ s.header.parentHashes := by
  constructor
  · intro hp
    cases hs : d.getBlock h with
    | none =>
      rw [parentsOf_eq_nil hs] at hp
      cases hp
    | some s =>
      rw [d.store.parentsOf_eq hs] at hp
      exact ⟨s, rfl, hp⟩
  · rintro ⟨s, hs, hp⟩
    rw [d.store.parentsOf_eq hs]
    exact hp

theorem mem_getAncestors_iff_path {h a : BlockHash} :
    a ∈ d.getAncestors h ↔ ∃ n, 0 < n ∧ d.ParentPath n h a := by
  rw [getAncestors, DagIndex.mem_getAllAncestors]
  constructor
  · intro ht
    induction ht using Relation.TransGen.head_induction_on with
    | single hstep =>
      obtain ⟨s, hs, hp⟩ := mem_parentsOf_iff.mp hstep
      exact ⟨1, Nat.one_pos, .cons hs hp (.nil a)⟩
    | head hstep _ ih =>
      obtain ⟨s, hs, hp⟩ := mem_parentsOf_iff.mp hstep
      obtain ⟨n, -, hpath⟩ := ih
      exact ⟨n + 1, Nat.succ_pos n, .cons hs hp hpath⟩
  · rintro ⟨n, hn, hpath⟩
    induction hpath with
    | nil h => omega
    | @cons n h p a s hs hp hpath ih =>
      have hstep : Worklist.Step d.store.parentsOf h p := mem_parentsOf_iff.mpr ⟨s, hs, hp⟩
      cases n with
      | zero =>
        cases hpath
        exact .single hstep
      | succ n => exact .head hstep (ih (Nat.succ_pos n))

theorem Intact.mem_getDescendants_iff (h : Intact c d) {a b : BlockHash} :
    b ∈ d.getDescendants a ↔ a ∈ d.getAncestors b := by
  have hswap : Worklist.Step d.index.getChildren = Function.swap (Worklist.Step
      d.store.parentsOf) := by
    ext p k
    exact h.graph.mem_children_iff p k
  rw [getDescendants, DagIndex.mem_getAllDescendants, hswap, Relation.transGen_swap, getAncestors,
    DagIndex.mem_getAllAncestors]

theorem isAncestor_eq_true_iff {a b : BlockHash} :
    d.isAncestor a b = true ↔ a ∈ d.getAncestors b := decide_eq_true_iff

end BlockDag

/-- Without cycles the search from a block never meets it again. -/
theorem DagTraversal.getDescendants_eq {c : Crypto} {d : BlockDag} (h : BlockDag.Intact c d)
    (a : BlockHash) : DagTraversal.getDescendants d a = d.getDescendants a := by
  ext x
  rw [DagTraversal.getDescendants, BlockDag.getDescendants, DagIndex.mem_getAllDescendants]
  refine Worklist.mem_searchOnce d.getChildren d.index.childHashes
    (fun _ _ hk => d.index.mem_childHashes hk) a (fun hself => ?_) x
  have hdesc : a ∈ d.getDescendants a := (DagIndex.mem_getAllDescendants _ _ _).mpr hself
  exact h.wellFormed.notMem_getAncestors_self a (h.mem_getDescendants_iff.mp hdesc)

namespace BlockDag

variable {c : Crypto} {d : BlockDag}

/-- After any sound run the ancestors of a block are the ends of the nonempty parent paths from it,
descendants are the same relation read from the other end, both kinds of search agree, and no
block is its own ancestor. -/
theorem run_ancestry (c : Crypto) (calls : List Call) (h : Sound c calls) (a b : BlockHash) :
    (a ∈ (run c calls).getAncestors b ↔ ∃ n, 0 < n ∧ (run c calls).ParentPath n b a) ∧
    (a ∈ (run c calls).getAncestors b ↔ b ∈ (run c calls).getDescendants a) ∧
    (a ∈ (run c calls).getAncestors b ↔ (run c calls).isAncestor a b = true) ∧
    DagTraversal.getAncestors (run c calls) b = (run c calls).getAncestors b ∧
    DagTraversal.getDescendants (run c calls) a = (run c calls).getDescendants a ∧
    a ∉ (run c calls).getAncestors a := by
  have hint := h.intact
  exact ⟨mem_getAncestors_iff_path, hint.mem_getDescendants_iff.symm, isAncestor_eq_true_iff.symm,
    DagTraversal.getAncestors_eq hint.wellFormed b, DagTraversal.getDescendants_eq hint a,
    hint.wellFormed.notMem_getAncestors_self a⟩

section Sample

/-- The genesis block, a child, and a block that names first the genesis block and then the child
as its parents. -/
def sampleShortcut : List Call :=
  sampleCalls ++ [.insertBlock sampleEnv (Block.new .hashOnly [sampleRoot, sampleLeaf] 1002 [] 0 0 0
    (Bytes.zero 20) (Bytes.zero 32))]

def sampleShortcutTop : BlockHash :=
  ((run .hashOnly sampleCalls).annotate .hashOnly (Block.new .hashOnly [sampleRoot, sampleLeaf]
    1002 [] 0 0 0 (Bytes.zero 20) (Bytes.zero 32))).hash

set_option maxRecDepth 20000 in
theorem sampleShortcut_evaluated :
    Sound .hashOnly sampleShortcut ∧
      ((run .hashOnly sampleShortcut).getBlock sampleShortcutTop).map (·.header.parentHashes) =
        some [sampleRoot, sampleLeaf] ∧
      (run .hashOnly sampleShortcut).getAncestors sampleShortcutTop = {sampleRoot, sampleLeaf} ∧
      (run .hashOnly sampleShortcut).getBlockDepth sampleShortcutTop = some 2 := by
  unfold sampleShortcut sampleShortcutTop sampleLeaf sampleCalls sampleChild sampleRoot
  rw [Crypto.hashOnly_eq_strict]
  decide +kernel

theorem exists_sampleShortcutTop :
    ∃ s, (run .hashOnly sampleShortcut).getBlock sampleShortcutTop = some s ∧
      s.header.parentHashes = [sampleRoot, sampleLeaf] :=
  Option.map_eq_some_iff.mp sampleShortcut_evaluated.2.1

attribute [local irreducible] getAncestors getDescendants

/-- Both other blocks are above the third one, which is reached from the first directly and by way
of the second. -/
theorem run_ancestry_sample :
    (sampleShortcutTop ∈ (run .hashOnly sampleShortcut).getDescendants sampleRoot ∧
        sampleShortcutTop ∈ (run .hashOnly sampleShortcut).getDescendants sampleLeaf) ∧
      (∃ n, 0 < n ∧ (run .hashOnly sampleShortcut).ParentPath n sampleShortcutTop sampleLeaf) ∧
      sampleShortcutTop ∉ (run .hashOnly sampleShortcut).getAncestors sampleShortcutTop := by
  obtain ⟨hsound, -, hancestors, -⟩ := sampleShortcut_evaluated
  obtain ⟨-, hroot, -⟩ := run_ancestry .hashOnly sampleShortcut hsound sampleRoot sampleShortcutTop
  obtain ⟨hpath, hleaf, -, -, -, -⟩ :=
    run_ancestry .hashOnly sampleShortcut hsound sampleLeaf sampleShortcutTop
  obtain ⟨-, -, -, -, -, hself⟩ :=
    run_ancestry .hashOnly sampleShortcut hsound sampleShortcutTop sampleShortcutTop
  rw [hancestors] at hroot hleaf hpath
  have hmem : sampleLeaf ∈ ({sampleRoot, sampleLeaf} : Finset BlockHash) :=
    Finset.mem_insert_of_mem (Finset.mem_singleton_self _)
  exact ⟨⟨hroot.mp (Finset.mem_insert_self _ _), hleaf.mp hmem⟩, hpath.mp hmem, hself⟩

end Sample

theorem ParentPath.add_heightRank_le (wf : WellFormed c d) {n : ℕ} {h a : BlockHash}
    (hpath : d.ParentPath n h a) : n + d.heightRank a ≤ d.heightRank h := by
  induction hpath with
  | nil h => exact Nat.le_of_eq (Nat.zero_add _)
  | @cons n h p a s hs hp hpath ih =>
    have hlt := wf.height_parent_lt (mem_parentsOf_iff.mpr ⟨s, hs, hp⟩)
    omega

def IsRoot (d : BlockDag) (g : BlockHash) : Prop :=
  ∃ s, d.getBlock g = some s ∧ s.header.parentHashes = []

theorem WellFormed.exists_path (wf : WellFormed c d) {n : ℕ} {h : BlockHash} {s : Block}
    (hs : d.getBlock h = some s) (hn : d.heightRank h = n) :
    ∃ g, d.ParentPath n h g ∧ d.IsRoot g := by
  induction n generalizing h s with
  | zero =>
    refine ⟨h, .nil h, s, hs, ?_⟩
    rw [List.eq_nil_iff_forall_not_mem]
    intro p hp
    have hlt := wf.height_parent_lt (mem_parentsOf_iff.mpr ⟨s, hs, hp⟩)
    omega
  | succ n ih =>
    obtain ⟨p, hp, hpn⟩ := wf.exists_parent hn
    obtain ⟨s', q, hs', hmem, hq, -⟩ := wf.parentsOf hp
    obtain ⟨g, hpath, hg⟩ := ih hq hpn
    exact ⟨g, .cons hs' hmem hpath, hg⟩

theorem WellFormed.isGreatest_heightRank (wf : WellFormed c d) {h : BlockHash} {s : Block}
    (hs : d.getBlock h = some s) :
    IsGreatest {n | ∃ g, d.ParentPath n h g ∧ d.IsRoot g} (d.heightRank h) := by
  refine ⟨wf.exists_path hs rfl, ?_⟩
  rintro n ⟨g, hpath, -⟩
  have hle := hpath.add_heightRank_le wf
  omega

/-- After any sound run the loop of `get_block_depth` ends, and the depth of a stored block is the
length of the longest parent path up to the genesis block, its chain height and its height. -/
theorem run_depth_longest (c : Crypto) (calls : List Call) (h : Sound c calls) (hash : BlockHash)
    (s : Block) (hs : (run c calls).getBlock hash = some s) :
    ∃ depth, (run c calls).getBlockDepth hash = some depth ∧
      IsGreatest {n | ∃ g, (run c calls).ParentPath n hash g ∧ (run c calls).IsRoot g} depth ∧
      s.header.chainHeight.toNat = depth ∧
      (run c calls).getBlockHeight hash = some s.header.chainHeight := by
  have wf := h.wellFormed
  have hrank : (run c calls).heightRank hash = s.height.toNat := by rw [heightRank, heightAt_eq hs]
  have hchain := (wf.placed hash s hs).chainHeight
  refine ⟨s.height.toNat, wf.getBlockDepth_eq hs, ?_, by rw [hchain], ?_⟩
  · rw [← hrank]
    exact wf.isGreatest_heightRank hs
  · rw [wf.getBlockHeight_eq hs, hchain]

/-- One path to the genesis block has one step and another has two. -/
theorem run_depth_longest_sample :
    (run .hashOnly sampleShortcut).ParentPath 1 sampleShortcutTop sampleRoot ∧
      (run .hashOnly sampleShortcut).getBlockDepth sampleShortcutTop = some 2 ∧
      IsGreatest {n | ∃ g, (run .hashOnly sampleShortcut).ParentPath n sampleShortcutTop g ∧
        (run .hashOnly sampleShortcut).IsRoot g} 2 := by
  obtain ⟨hsound, -, -, htwo⟩ := sampleShortcut_evaluated
  obtain ⟨s, hs, hparents⟩ := exists_sampleShortcutTop
  obtain ⟨depth, hdepth, hgreatest, -⟩ :=
    run_depth_longest .hashOnly sampleShortcut hsound sampleShortcutTop s hs
  obtain rfl := Option.some.inj (htwo.symm.trans hdepth)
  refine ⟨.cons hs ?_ (.nil sampleRoot), hdepth, hgreatest⟩
  rw [hparents]
  exact List.mem_cons_self

end BlockDag

end CytahSpeed
