import CytahSpeed.CommonAncestor
import CytahSpeed.Selection
import CytahSpeed.ShortestPath

/-!
# Paths and common ancestors

`get_path` searches from a block up to an ancestor and returns the blocks in between, the lower end
first. `get_common_ancestors` intersects pasts. `get_furthest_common_ancestor` takes a deepest block
of the intersection of two strict pasts, and falls back to `find_lca` where that is empty.
-/

namespace CytahSpeed
open ByteString FiniteMap

namespace DagTraversal

variable (d : BlockDag)

/-- Fuel for the start and every block that is named as a parent is enough. -/
def getPath (fromHash toHash : BlockHash) : Option (List BlockHash) :=
  ShortestPath.find (getParents d) fromHash ((insert toHash d.store.references).card + 1)
    (.start toHash)

/-- The last entry of greatest depth, as `max_by_key` finds it. -/
def maxByDepth (entries : List (BlockHash × ℕ)) : Option BlockHash :=
  ((entries.foldl (fun best e => if best.2 ≤ e.2 then (some e, e.2) else best)
    ((none : Option (BlockHash × ℕ)), 0)).1).map Prod.fst

/-- The outer `none` stands for a depth whose loop does not end. -/
def getFurthestCommonAncestor (order : SetOrder BlockHash) (hash1 hash2 : BlockHash) :
    Option (Option BlockHash) :=
  let common := getAncestors d hash1 ∩ getAncestors d hash2
  if common = ∅ then some (d.findLca hash1 hash2)
  else
    ((order.iter common).mapM fun h => (d.getBlockDepth h).map fun depth => (h, depth)).map
      maxByDepth

variable {d}

theorem parentPath_of_isPath {a b : BlockHash} {path : List BlockHash}
    (h : ShortestPath.IsPath (getParents d) a b path) : d.ParentPath (path.length - 1) a b :=
  BlockDag.parentPath_of_mem_level h.mem_level

theorem exists_isPath {n : ℕ} {a b : BlockHash} (h : d.ParentPath n a b) :
    ∃ path, ShortestPath.IsPath (getParents d) a b path ∧ path.length = n + 1 := by
  induction h with
  | nil a => exact ⟨[a], ⟨rfl, rfl, List.isChain_singleton a⟩, rfl⟩
  | @cons n a p b s hs hp _ ih =>
    obtain ⟨path, hpath, hlength⟩ := ih
    have hstep : p ∈ getParents d a := BlockDag.mem_parentsOf_iff.mpr ⟨s, hs, hp⟩
    cases path with
    | nil => cases hpath.head
    | cons q path =>
      have hq := hpath.head
      rw [List.head?_cons] at hq
      obtain rfl := Option.some.inj hq
      refine ⟨a :: q :: path, ⟨rfl, ?_, ?_⟩, by rw [List.length_cons, hlength]⟩
      · rw [List.getLast?_cons_cons]
        exact hpath.last
      · exact List.isChain_cons_cons.mpr ⟨hstep, hpath.chain⟩

theorem mem_pastCone_iff_path {a b : BlockHash} :
    a ∈ d.pastCone b ↔ ∃ n, d.ParentPath n b a := by
  rw [BlockDag.pastCone, Finset.mem_insert, BlockDag.mem_getAncestors_iff_path]
  constructor
  · rintro (rfl | ⟨n, -, hpath⟩)
    · exact ⟨0, .nil a⟩
    · exact ⟨n, hpath⟩
  · rintro ⟨n, hpath⟩
    cases n with
    | zero =>
      cases hpath
      exact Or.inl rfl
    | succ n => exact Or.inr ⟨n + 1, Nat.succ_pos n, hpath⟩

theorem isShortest_getPath (d : BlockDag) (a b : BlockHash) :
    ShortestPath.IsShortest (getParents d) b a (getPath d a b) :=
  ShortestPath.isShortest_find_start d.store.references
    (fun h p hp => d.store.mem_references_of_mem_parentsOf h p hp) b a

/-- On any DAG a path is returned exactly from a block to itself or up to an ancestor. It starts at
the lower end, each block is followed by one of its parents, and no parent path between the two
blocks is shorter. -/
theorem getPath_shortest (d : BlockDag) (a b : BlockHash) :
    ((getPath d a b).isSome = true ↔ a ∈ d.pastCone b) ∧
      ∀ path, getPath d a b = some path →
        path.head? = some b ∧ path.getLast? = some a ∧
          path.IsChain (fun h p => p ∈ getParents d h) ∧
            IsLeast {n | d.ParentPath n b a} (path.length - 1) := by
  have hshortest := isShortest_getPath d a b
  rw [mem_pastCone_iff_path]
  cases hpath : getPath d a b with
  | none =>
    rw [hpath] at hshortest
    refine ⟨⟨nofun, ?_⟩, nofun⟩
    rintro ⟨n, hn⟩
    obtain ⟨path, hisPath, -⟩ := exists_isPath hn
    exact absurd hisPath (hshortest path)
  | some path =>
    rw [hpath] at hshortest
    obtain ⟨hisPath, hleast⟩ := hshortest
    refine ⟨iff_of_true rfl ⟨_, parentPath_of_isPath hisPath⟩, ?_⟩
    rintro path' heq
    obtain rfl := Option.some.inj heq
    refine ⟨hisPath.head, hisPath.last, hisPath.chain, parentPath_of_isPath hisPath, ?_⟩
    intro n hn
    obtain ⟨other, hother, hlength⟩ := exists_isPath hn
    have hle := hleast other hother
    omega

theorem exists_maxByDepth (entries : List (BlockHash × ℕ)) (hne : entries ≠ []) :
    ∃ e ∈ entries, maxByDepth entries = some e.1 ∧ ∀ e' ∈ entries, e'.2 ≤ e.2 := by
  obtain ⟨e, hmax, hfold⟩ :=
    Selection.foldl_isLastMax (Prod.snd : BlockHash × ℕ → ℕ) id 0 rfl entries hne
  refine ⟨e, hmax.mem, ?_, fun e' => hmax.le⟩
  simp only [id_eq] at hfold
  rw [maxByDepth, hfold]
  rfl

end DagTraversal

namespace BlockDag

variable {c : Crypto} {d : BlockDag}

theorem WellFormed.mapM_getBlockDepth (wf : WellFormed c d) (l : List BlockHash)
    (hl : ∀ h ∈ l, ∃ s, d.getBlock h = some s) :
    (l.mapM fun h => (d.getBlockDepth h).map fun depth => (h, depth)) =
      some (l.map fun h => (h, d.heightRank h)) := by
  induction l with
  | nil => rfl
  | cons h l ih =>
    obtain ⟨s, hs⟩ := hl h List.mem_cons_self
    have hrank : d.heightRank h = s.height.toNat := by rw [heightRank, heightAt_eq hs]
    rw [List.mapM_cons, ih fun h' hh' => hl h' (List.mem_cons_of_mem h hh'),
      wf.getBlockDepth_eq hs, List.map_cons, hrank]
    rfl

theorem WellFormed.heightRank_lt_of_mem (wf : WellFormed c d) {h a : BlockHash}
    (ha : a ∈ d.getAncestors h) : d.heightRank a < d.heightRank h := by
  obtain ⟨n, hn, hpath⟩ := mem_getAncestors_iff_path.mp ha
  have hle := hpath.add_heightRank_le wf
  omega

theorem CommonAncestor.exists_strict {a b x : BlockHash} (h : d.CommonAncestor a b x)
    (ha : d.getAncestors a ≠ ∅) (hb : d.getAncestors b ≠ ∅) :
    ∃ y, y ∈ d.getAncestors a ∧ y ∈ d.getAncestors b := by
  obtain ⟨hxa, hxb⟩ := h
  rw [pastCone, Finset.mem_insert] at hxa hxb
  rcases hxa with rfl | hxa
  · obtain ⟨y, hy⟩ := Finset.nonempty_iff_ne_empty.mpr ha
    rcases hxb with rfl | hxb
    · exact ⟨y, hy, hy⟩
    · exact ⟨y, hy, getAncestors_subset_of_mem hxb hy⟩
  · rcases hxb with rfl | hxb
    · obtain ⟨y, hy⟩ := Finset.nonempty_iff_ne_empty.mpr hb
      exact ⟨y, getAncestors_subset_of_mem hxa hy, hy⟩
    · exact ⟨x, hxa, hxb⟩

theorem CommonAncestor.eq_of_root {a b x : BlockHash} (h : d.CommonAncestor a b x)
    (ha : d.getAncestors a = ∅) : x = a := by
  have hx := h.1
  rwa [pastCone, ha, insert_empty_eq, Finset.mem_singleton] at hx

/-- What `get_furthest_common_ancestor` returns for two stored blocks. -/
structure FurthestSpec (d : BlockDag) (a b x : BlockHash) : Prop where
  common : d.CommonAncestor a b x
  left : d.getAncestors a = ∅ → x = a
  right : d.getAncestors b = ∅ → x = b
  strict : d.getAncestors a ≠ ∅ → d.getAncestors b ≠ ∅ →
    x ∈ d.getAncestors a ∧ x ∈ d.getAncestors b ∧
      ∀ y, y ∈ d.getAncestors a → y ∈ d.getAncestors b →
        x ∉ d.getAncestors y ∧ d.heightRank y ≤ d.heightRank x

theorem WellFormed.furthestSpec (wf : WellFormed c d) (order : SetOrder BlockHash)
    {a b : BlockHash} {s q : Block} (ha : d.getBlock a = some s) (hb : d.getBlock b = some q) :
    ∃ x, DagTraversal.getFurthestCommonAncestor d order a b = some (some x) ∧
      d.FurthestSpec a b x := by
  unfold DagTraversal.getFurthestCommonAncestor
  dsimp only
  rw [DagTraversal.getAncestors_eq wf, DagTraversal.getAncestors_eq wf]
  by_cases hempty : d.getAncestors a ∩ d.getAncestors b = ∅
  · rw [if_pos hempty]
    obtain ⟨x, hfind, hcommon, -⟩ := wf.findLca_spec ha hb
    refine ⟨x, congrArg some hfind, hcommon, hcommon.eq_of_root, hcommon.symm.eq_of_root, ?_⟩
    intro hna hnb
    obtain ⟨y, hya, hyb⟩ := hcommon.exists_strict hna hnb
    exact absurd (Finset.mem_inter.mpr ⟨hya, hyb⟩) (hempty ▸ Finset.notMem_empty y)
  · rw [if_neg hempty]
    have hiter : ∀ h, h ∈ order.iter (d.getAncestors a ∩ d.getAncestors b) ↔
        h ∈ d.getAncestors a ∧ h ∈ d.getAncestors b := by
      intro h
      rw [← Multiset.mem_coe, order.coe_iter, Finset.mem_val, Finset.mem_inter]
    have hstored : ∀ h ∈ order.iter (d.getAncestors a ∩ d.getAncestors b),
        ∃ s, d.getBlock h = some s := by
      intro h hh
      obtain ⟨-, r, -, hr, -⟩ := wf.ancestor ((hiter h).mp hh).1
      exact ⟨r, hr⟩
    rw [wf.mapM_getBlockDepth _ hstored, Option.map_some]
    obtain ⟨y, hy⟩ := Finset.nonempty_iff_ne_empty.mpr hempty
    have hne : (order.iter (d.getAncestors a ∩ d.getAncestors b)).map
        (fun h => (h, d.heightRank h)) ≠ [] :=
      List.ne_nil_of_mem (List.mem_map_of_mem ((hiter y).mpr (Finset.mem_inter.mp hy)))
    obtain ⟨e, he, hmax, hle⟩ := DagTraversal.exists_maxByDepth _ hne
    obtain ⟨x, hx, rfl⟩ := List.mem_map.mp he
    obtain ⟨hxa, hxb⟩ := (hiter x).mp hx
    refine ⟨x, congrArg some hmax,
      ⟨Finset.mem_insert_of_mem hxa, Finset.mem_insert_of_mem hxb⟩, ?_, ?_, ?_⟩
    · intro hroot
      rw [hroot] at hxa
      cases hxa
    · intro hroot
      rw [hroot] at hxb
      cases hxb
    · intro _ _
      refine ⟨hxa, hxb, ?_⟩
      intro y hya hyb
      have hrank : d.heightRank y ≤ d.heightRank x :=
        hle _ (List.mem_map_of_mem ((hiter y).mpr ⟨hya, hyb⟩))
      refine ⟨fun hxy => ?_, hrank⟩
      have hlt := wf.heightRank_lt_of_mem hxy
      omega

/-- After any sound run and for any iteration order, two stored blocks have a furthest common
ancestor. A block without parents is its own; of two others it is above both, and no block above
both is deeper or has it for an ancestor. -/
theorem run_furthestCommonAncestor (c : Crypto) (calls : List Call) (h : Sound c calls)
    (order : SetOrder BlockHash) (a b : BlockHash) (s q : Block)
    (ha : (run c calls).getBlock a = some s) (hb : (run c calls).getBlock b = some q) :
    ∃ x, DagTraversal.getFurthestCommonAncestor (run c calls) order a b = some (some x) ∧
      (run c calls).FurthestSpec a b x :=
  h.wellFormed.furthestSpec order ha hb

section Sample

/-- The genesis block, a child, and two blocks on the child. -/
def sampleTwins : List Call :=
  sampleCalls ++ [1002, 1003].map fun timestamp => .insertBlock sampleEnv
    (Block.new .hashOnly [sampleLeaf] timestamp [] 0 0 0 (Bytes.zero 20) (Bytes.zero 32))

def sampleTwin (calls : List Call) (timestamp : UInt64) : BlockHash :=
  ((run .hashOnly calls).annotate .hashOnly (Block.new .hashOnly [sampleLeaf] timestamp [] 0 0 0
    (Bytes.zero 20) (Bytes.zero 32))).hash

def sampleThird : BlockHash := sampleTwin sampleCalls 1002

def sampleFourth : BlockHash := sampleTwin (sampleTwins.take 3) 1003

set_option maxRecDepth 20000 in
theorem sampleTwins_evaluated :
    Sound .hashOnly sampleTwins ∧
      (((run .hashOnly sampleTwins).getBlock sampleThird).map (·.header.parentHashes) =
          some [sampleLeaf] ∧
        ((run .hashOnly sampleTwins).getBlock sampleFourth).map (·.header.parentHashes) =
          some [sampleLeaf]) ∧
      ((run .hashOnly sampleTwins).getAncestors sampleThird = {sampleRoot, sampleLeaf} ∧
        (run .hashOnly sampleTwins).getAncestors sampleFourth = {sampleRoot, sampleLeaf}) ∧
      (run .hashOnly sampleTwins).heightRank sampleRoot <
        (run .hashOnly sampleTwins).heightRank sampleLeaf ∧
      sampleThird ≠ sampleFourth := by
  unfold sampleThird sampleFourth sampleTwin sampleTwins sampleLeaf sampleCalls sampleChild
    sampleRoot
  rw [Crypto.hashOnly_eq_strict]
  decide +kernel

attribute [local irreducible] getAncestors run sampleLeaf sampleRoot sampleThird sampleFourth

/-- Of the two blocks above both the deeper one is found. -/
theorem run_furthestCommonAncestor_sample :
    ∃ x, DagTraversal.getFurthestCommonAncestor (run .hashOnly sampleTwins) .sorted sampleThird
      sampleFourth = some (some x) ∧ x = sampleLeaf := by
  obtain ⟨hsound, ⟨hthird, hfourth⟩, ⟨hpast, hpast'⟩, hlt, -⟩ := sampleTwins_evaluated
  obtain ⟨s, hs, -⟩ := Option.map_eq_some_iff.mp hthird
  obtain ⟨q, hq, -⟩ := Option.map_eq_some_iff.mp hfourth
  obtain ⟨x, hfind, hspec⟩ := run_furthestCommonAncestor .hashOnly sampleTwins hsound .sorted
    sampleThird sampleFourth s q hs hq
  refine ⟨x, hfind, ?_⟩
  have hstrict := hspec.strict
  rw [hpast, hpast'] at hstrict
  have hne : ({sampleRoot, sampleLeaf} : Finset BlockHash) ≠ ∅ := Finset.insert_ne_empty _ _
  have hleaf : sampleLeaf ∈ ({sampleRoot, sampleLeaf} : Finset BlockHash) :=
    Finset.mem_insert_of_mem (Finset.mem_singleton_self _)
  obtain ⟨hx, -, hdeepest⟩ := hstrict hne hne
  obtain ⟨-, hle⟩ := hdeepest sampleLeaf hleaf hleaf
  rcases Finset.mem_insert.mp hx with hroot | hx
  · rw [hroot] at hle
    exact absurd hlt (Nat.not_lt.mpr hle)
  · exact Finset.mem_singleton.mp hx

end Sample

end BlockDag

end CytahSpeed
