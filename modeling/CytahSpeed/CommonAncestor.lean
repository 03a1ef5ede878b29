import CytahSpeed.Ancestry
import CytahSpeed.BlueScore
import CytahSpeed.LevelOrder

/-!
# Common ancestors

`find_lca` walks up from its second block, level by level, and returns the first block it meets
that is the first block or an ancestor of it. On a DAG grown by insertions there always is one.
A block names its parents in any order and may name an ancestor of a parent as another parent, so
the common ancestor that is met first need not be a lowest one; `LowestMetFirst` is the exact
condition on the two blocks.
-/

namespace CytahSpeed
open ByteString FiniteMap

/-- Fuel for the start and every parent entry of the store is enough. -/
def DagIndex.findLca (hash1 hash2 : BlockHash) (store : BlockStore) : Option BlockHash :=
  let ancestors1 := getAllAncestors hash1 store
  LevelOrder.search store.parentsOf (fun x => decide (x ∈ ancestors1) || decide (hash1 = x))
    ((store.getAllHashes.flatMap store.parentsOf).length + 1) [hash2] ∅

namespace BlockDag

variable (d : BlockDag)

def findLca (hash1 hash2 : BlockHash) : Option BlockHash := DagIndex.findLca hash1 hash2 d.store

/-- The block, then its parents, then theirs, in the order of the parent lists. -/
def levelOrder (hash : BlockHash) : List BlockHash :=
  LevelOrder.listing d.store.parentsOf hash d.blockCount

/-- An ancestor of each of two blocks, or one of them. -/
def CommonAncestor (a b x : BlockHash) : Prop := x ∈ d.pastCone a ∧ x ∈ d.pastCone b

/-- A common ancestor none of whose proper descendants is one. -/
def LowestCommonAncestor (a b x : BlockHash) : Prop :=
  d.CommonAncestor a b x ∧ ∀ y, d.CommonAncestor a b y → x ∉ d.getAncestors y

def FindsLowest (a b : BlockHash) : Prop :=
  ∃ x, d.findLca a b = some x ∧ d.LowestCommonAncestor a b x

/-- Walking up from `b`, a common ancestor that lies above another one is never the first that is
met. -/
def LowestMetFirst (a b : BlockHash) : Prop :=
  ∀ x y, d.CommonAncestor a b x → d.CommonAncestor a b y → x ∈ d.getAncestors y →
    ∃ z, d.CommonAncestor a b z ∧ (d.levelOrder b).idxOf z < (d.levelOrder b).idxOf x

variable {c : Crypto} {d}

theorem ParentPath.snoc {n : ℕ} {h a p : BlockHash} {s : Block} (hpath : d.ParentPath n h a)
    (hs : d.getBlock a = some s) (hp : p ∈ s.header.parentHashes) : d.ParentPath (n + 1) h p := by
  induction hpath with
  | nil h => exact .cons hs hp (.nil p)
  | cons hs' hp' _ ih => exact .cons hs' hp' (ih hs)

theorem parentPath_of_mem_level {n : ℕ} {h x : BlockHash}
    (hx : x ∈ LevelOrder.level d.store.parentsOf h n) : d.ParentPath n h x := by
  induction n generalizing x with
  | zero =>
    obtain rfl := List.mem_singleton.mp hx
    exact .nil _
  | succ n ih =>
    obtain ⟨y, hy, hxy⟩ := List.mem_flatMap.mp hx
    obtain ⟨s, hs, hp⟩ := mem_parentsOf_iff.mp hxy
    exact (ih hy).snoc hs hp

theorem WellFormed.level_eq_nil (wf : WellFormed c d) {h : BlockHash} {s : Block}
    (hs : d.getBlock h = some s) : LevelOrder.level d.store.parentsOf h d.blockCount = [] := by
  rw [List.eq_nil_iff_forall_not_mem]
  intro x hx
  have hle := (parentPath_of_mem_level hx).add_heightRank_le wf
  have hlt := heightRank_lt wf hs
  omega

theorem mem_pastCone_iff_reflTransGen {h x : BlockHash} : x ∈ d.pastCone h ↔
    Relation.ReflTransGen (Worklist.Step d.store.parentsOf) h x := by
  rw [pastCone, Finset.mem_insert, getAncestors, DagIndex.mem_getAllAncestors,
    Relation.reflTransGen_iff_eq_or_transGen]

theorem WellFormed.mem_levelOrder (wf : WellFormed c d) {h x : BlockHash} {s : Block}
    (hs : d.getBlock h = some s) : x ∈ d.levelOrder h ↔ x ∈ d.pastCone h := by
  rw [levelOrder, LevelOrder.mem_listing_iff (wf.level_eq_nil hs), mem_pastCone_iff_reflTransGen]
  rfl

theorem WellFormed.findLca_eq (wf : WellFormed c d) (a : BlockHash) {b : BlockHash} {s : Block}
    (hs : d.getBlock b = some s) :
    d.findLca a b = (d.levelOrder b).find? fun x => x ∈ d.pastCone a := by
  have hwanted : (fun x => decide (x ∈ DagIndex.getAllAncestors a d.store) || decide (a = x)) =
      fun x => decide (x ∈ d.pastCone a) := by
    funext x
    rw [← Bool.decide_or, decide_eq_decide, pastCone, Finset.mem_insert, or_comm,
      eq_comm (a := a)]
    rfl
  have hnodes : ∀ x, x ∉ d.store.getAllHashes → d.store.parentsOf x = [] := by
    intro x hx
    rw [d.store.mem_getAllHashes, not_exists] at hx
    exact parentsOf_eq_nil (Option.eq_none_iff_forall_ne_some.mpr hx)
  rw [findLca, DagIndex.findLca, hwanted,
    LevelOrder.search_eq_find?_listing hnodes (wf.level_eq_nil hs) le_rfl]
  rfl

theorem idxOf_le_of_find? {l : List BlockHash} {p : BlockHash → Bool} {x y : BlockHash}
    (hx : l.find? p = some x) (hy : p y = true) : l.idxOf x ≤ l.idxOf y := by
  obtain ⟨hpx, before, after, rfl, hbefore⟩ := List.find?_eq_some_iff_append.mp hx
  have hnot : ∀ z, p z = true → z ∉ before := by
    intro z hz hmem
    have hfalse := hbefore z hmem
    simp [hz] at hfalse
  rw [List.idxOf_append_of_notMem (hnot x hpx), List.idxOf_append_of_notMem (hnot y hy),
    List.idxOf_cons_self]
  exact Nat.add_le_add_left (Nat.zero_le _) _

theorem WellFormed.exists_commonAncestor (wf : WellFormed c d) {a b : BlockHash} {s q : Block}
    (ha : d.getBlock a = some s) (hb : d.getBlock b = some q) :
    ∃ x, d.CommonAncestor a b x := by
  have hcone : ∀ {h g : BlockHash} {n : ℕ}, d.ParentPath n h g → g ∈ d.pastCone h := by
    intro h g n hpath
    cases n with
    | zero =>
      cases hpath
      exact Finset.mem_insert_self _ _
    | succ n =>
      exact Finset.mem_insert_of_mem
        (mem_getAncestors_iff_path.mpr ⟨n + 1, Nat.succ_pos n, hpath⟩)
  obtain ⟨g, hpath, r, hr, hnil⟩ := wf.exists_path ha rfl
  obtain ⟨g', hpath', r', hr', hnil'⟩ := wf.exists_path hb rfl
  have htopo := ((wf.placed g r hr).root.mp hnil).trans ((wf.placed g' r' hr').root.mp hnil').symm
  obtain rfl := wf.topo_inj g r g' r' hr hr' (UInt64.toNat_inj.mp htopo)
  exact ⟨g, hcone hpath, hcone hpath'⟩

theorem WellFormed.findLca_spec (wf : WellFormed c d) {a b : BlockHash} {s q : Block}
    (ha : d.getBlock a = some s) (hb : d.getBlock b = some q) :
    ∃ x, d.findLca a b = some x ∧ d.CommonAncestor a b x ∧
      ∀ y, d.CommonAncestor a b y → (d.levelOrder b).idxOf x ≤ (d.levelOrder b).idxOf y := by
  rw [wf.findLca_eq a hb]
  cases hfind : (d.levelOrder b).find? fun x => decide (x ∈ d.pastCone a) with
  | none =>
    obtain ⟨g, hga, hgb⟩ := wf.exists_commonAncestor ha hb
    have hnot := List.find?_eq_none.mp hfind g ((wf.mem_levelOrder hb).mpr hgb)
    exact absurd (decide_eq_true hga) hnot
  | some x =>
    have hx : x ∈ d.pastCone a := by simpa using List.find?_some hfind
    refine ⟨x, rfl, ⟨hx, (wf.mem_levelOrder hb).mp (List.mem_of_find?_eq_some hfind)⟩, ?_⟩
    intro y hy
    exact idxOf_le_of_find? hfind (decide_eq_true hy.1)

theorem WellFormed.findsLowest_iff (wf : WellFormed c d) {a b : BlockHash} {s q : Block}
    (ha : d.getBlock a = some s) (hb : d.getBlock b = some q) :
    d.FindsLowest a b ↔ d.LowestMetFirst a b := by
  obtain ⟨x, hfind, hcommon, hfirst⟩ := wf.findLca_spec ha hb
  constructor
  · rintro ⟨x', hfind', hlowest⟩ y z hy hz hyz
    obtain rfl := Option.some.inj (hfind.symm.trans hfind')
    have hne : x ≠ y := by
      rintro rfl
      exact hlowest.2 z hz hyz
    have hmem : x ∈ d.levelOrder b := (wf.mem_levelOrder hb).mpr hcommon.2
    exact ⟨x, hcommon, lt_of_le_of_ne (hfirst y hy) (mt (List.idxOf_inj hmem).mp hne)⟩
  · intro hmet
    refine ⟨x, hfind, hcommon, fun y hy hxy => ?_⟩
    obtain ⟨z, hz, hlt⟩ := hmet x y hcommon hy hxy
    have hle := hfirst z hz
    omega

/-- After any sound run both calls return a lowest common ancestor exactly if, from either block,
a common ancestor above another one is never the first that is met. -/
theorem findLca_lowest_iff (c : Crypto) (calls : List Call) (h : Sound c calls)
    (a b : BlockHash) (s q : Block) (ha : (run c calls).getBlock a = some s)
    (hb : (run c calls).getBlock b = some q) :
    ((run c calls).FindsLowest a b ∧ (run c calls).FindsLowest b a) ↔
      ((run c calls).LowestMetFirst a b ∧ (run c calls).LowestMetFirst b a) :=
  and_congr (h.wellFormed.findsLowest_iff ha hb) (h.wellFormed.findsLowest_iff hb ha)

theorem CommonAncestor.symm {a b x : BlockHash} (h : d.CommonAncestor a b x) :
    d.CommonAncestor b a x := ⟨h.2, h.1⟩

theorem lowestMetFirst_of_root {a b : BlockHash} (ha : d.getAncestors a = ∅) :
    d.LowestMetFirst a b ∧ d.LowestMetFirst b a := by
  have heq : ∀ x, d.CommonAncestor a b x → x = a := by
    intro x hx
    have hcone := hx.1
    rwa [pastCone, ha, insert_empty_eq, Finset.mem_singleton] at hcone
  have hnone : ∀ x y, d.CommonAncestor a b y → x ∉ d.getAncestors y := by
    intro x y hy
    rw [heq y hy, ha]
    exact Finset.notMem_empty x
  exact ⟨fun x y _ hy hxy => absurd hxy (hnone x y hy),
    fun x y _ hy hxy => absurd hxy (hnone x y hy.symm)⟩

theorem findLca_lowest_sample :
    (run .hashOnly sampleCalls).FindsLowest sampleRoot sampleLeaf ∧
      (run .hashOnly sampleCalls).FindsLowest sampleLeaf sampleRoot := by
  obtain ⟨⟨s, hs⟩, ⟨q, hq⟩, -⟩ := sampleCalls_stored
  obtain ⟨hroot, -⟩ := sampleCalls_lineage
  exact (findLca_lowest_iff .hashOnly sampleCalls sampleCalls_evaluated.1 sampleRoot sampleLeaf s q
    hs hq).mpr (lowestMetFirst_of_root hroot)

theorem not_findsLowest_of_isAncestor {a b x : BlockHash} (hfind : d.findLca a b = some x)
    (hx : d.isAncestor x a = true) (hab : d.isAncestor a b = true) : ¬ d.FindsLowest a b := by
  rintro ⟨x', hfind', -, hlowest⟩
  obtain rfl := Option.some.inj (hfind.symm.trans hfind')
  rw [isAncestor_eq_true_iff] at hx hab
  exact hlowest a ⟨Finset.mem_insert_self _ _, Finset.mem_insert_of_mem hab⟩ hx

section Sample

set_option maxRecDepth 20000 in
theorem sampleShortcut_found :
    Sound .hashOnly sampleShortcut ∧
      ((run .hashOnly sampleShortcut).getBlock sampleLeaf).isSome = true ∧
      ((run .hashOnly sampleShortcut).getBlock sampleShortcutTop).isSome = true ∧
      (run .hashOnly sampleShortcut).findLca sampleLeaf sampleShortcutTop = some sampleRoot ∧
      (run .hashOnly sampleShortcut).isAncestor sampleRoot sampleLeaf = true ∧
      (run .hashOnly sampleShortcut).isAncestor sampleLeaf sampleShortcutTop = true := by
  unfold sampleShortcut sampleShortcutTop sampleLeaf sampleCalls sampleChild sampleRoot
  rw [Crypto.hashOnly_eq_strict]
  decide +kernel

/-- The child is an ancestor of the third block and of itself, but the genesis block, its own
parent, is what is found. -/
theorem findLca_above_lowest :
    Sound .hashOnly sampleShortcut ∧
      (∃ s, (run .hashOnly sampleShortcut).getBlock sampleLeaf = some s) ∧
      (∃ s, (run .hashOnly sampleShortcut).getBlock sampleShortcutTop = some s) ∧
      ¬ (run .hashOnly sampleShortcut).FindsLowest sampleLeaf sampleShortcutTop := by
  obtain ⟨hsound, hleaf, htop, hfind, hroot, hanc⟩ := sampleShortcut_found
  exact ⟨hsound, Option.isSome_iff_exists.mp hleaf, Option.isSome_iff_exists.mp htop,
    not_findsLowest_of_isAncestor hfind hroot hanc⟩

end Sample

end BlockDag

end CytahSpeed
