import CytahSpeed.MedianSplit
import CytahSpeed.TreeContents
import Mathlib.Data.Nat.Log

/-!
# The depth of the interval tree

The tree is the repeated split of the heights at their middle. The middle node is one of its
height, and all others of that height go to the right with what is higher, so the depth depends on
how the blocks share their heights.
-/

namespace CytahSpeed
open ByteString MedianSplit

namespace IntervalTree

def depth : IntervalTree → ℕ
  | .nil => 0
  | .node _ _ left right => max left.depth right.depth + 1

/-- How many calls of `findNode` on a node are open at once. -/
def searchDepth (target : BlockHash) : IntervalTree → ℕ
  | .nil => 0
  | .node n _ left right =>
    if n.blockHash = target then 1
    else if (left.findNode target).isSome then left.searchDepth target + 1
    else max (left.searchDepth target) (right.searchDepth target) + 1

/-- The calls of `buildBalancedTree`, one inside the other for each level of its result, and those
of `findNode` stay logarithmic. -/
def Balanced (nodes : List IntervalNode) : Prop :=
  (buildBalancedTree nodes.length nodes).depth ≤ Nat.clog 2 (nodes.length + 1) ∧
    ∀ target, (buildBalancedTree nodes.length nodes).searchDepth target ≤
      Nat.clog 2 (nodes.length + 1)

/-- The heights of the blocks, each as often as blocks share it. -/
def heights (nodes : List IntervalNode) : Multiset ℕ := nodes.map (·.height.toNat)

variable {nodes others : List IntervalNode} {root : IntervalNode} {target : BlockHash} {levels : ℕ}

theorem searchDepth_le_depth (t : IntervalTree) : t.searchDepth target ≤ t.depth := by
  induction t with
  | nil => exact le_rfl
  | node n cache left right ihl ihr =>
    rw [searchDepth, depth]
    split_ifs
    · exact Nat.le_add_left 1 _
    · exact Nat.succ_le_succ (ihl.trans (le_max_left _ _))
    · exact Nat.succ_le_succ (max_le_max ihl ihr)

theorem card_heights (nodes : List IntervalNode) : (heights nodes).card = nodes.length := by
  rw [heights, Multiset.coe_card, List.length_map]

theorem heights_perm {others : List IntervalNode} (h : others.Perm nodes) :
    heights others = heights nodes :=
  Multiset.coe_eq_coe.mpr (h.map _)

theorem coe_sortByHeight (nodes : List IntervalNode) :
    ((sortByHeight nodes).map (·.height.toNat) : Multiset ℕ) = heights nodes :=
  heights_perm (List.perm_insertionSort _ _)

theorem pairwise_sortByHeight (nodes : List IntervalNode) :
    ((sortByHeight nodes).map (·.height.toNat)).Pairwise (· ≤ ·) := by
  rw [sortByHeight, List.map_insertionSort (fun a b => a.height ≤ b.height) (· ≤ ·) _ nodes
    fun a _ b _ => UInt64.le_iff_toNat_le]
  exact List.pairwise_insertionSort _ _

theorem isMiddle_root
    (h : (sortByHeight nodes)[(sortByHeight nodes).length / 2]? = some root) :
    IsMiddle root.height.toNat (heights nodes) := by
  rw [← coe_sortByHeight]
  apply isMiddle_of_sorted (pairwise_sortByHeight nodes)
  rw [List.length_map, List.getElem?_map, h, Option.map_some]

theorem heights_of_perm (h : (root :: others).Perm nodes) :
    heights nodes = root.height.toNat ::ₘ heights others := by
  rw [← heights_perm h]
  rfl

theorem heights_filter_lt (h : UInt64) (nodes : List IntervalNode) :
    heights (nodes.filter (·.height < h)) = (heights nodes).filter (· < h.toNat) := by
  rw [heights, heights, Multiset.filter_coe, List.filter_map]
  congr 2

theorem heights_filter_not_lt (h : UInt64) (nodes : List IntervalNode) :
    heights (nodes.filter (¬ ·.height < h)) = (heights nodes).filter (h.toNat ≤ ·) := by
  have hsame : nodes.filter (¬ ·.height < h) = nodes.filter (h.toNat ≤ ·.height.toNat) := by
    apply List.filter_congr
    intro n _
    exact decide_eq_decide.mpr (UInt64.not_lt.trans UInt64.le_iff_toNat_le)
  rw [hsame, heights, heights, Multiset.filter_coe, List.filter_map]
  rfl

theorem heights_left (h : (root :: others).Perm nodes) :
    heights (others.filter (·.height < root.height)) =
      below root.height.toNat (heights nodes) := by
  have hcons : (heights nodes).filter (· < root.height.toNat) =
      (heights others).filter (· < root.height.toNat) := by
    rw [heights_of_perm h]
    exact Multiset.filter_cons_of_neg _ (lt_irrefl _)
  rw [heights_filter_lt, below, hcons]

theorem heights_right (h : (root :: others).Perm nodes) :
    heights (others.filter (¬ ·.height < root.height)) =
      rest root.height.toNat (heights nodes) := by
  have hcons : (heights nodes).filter (root.height.toNat ≤ ·) =
      root.height.toNat ::ₘ (heights others).filter (root.height.toNat ≤ ·) := by
    rw [heights_of_perm h]
    exact Multiset.filter_cons_of_pos _ le_rfl
  rw [heights_filter_not_lt, rest, hcons, Multiset.erase_cons_head]

theorem depth_buildBalancedTree_le_iff {fuel : ℕ} (h : nodes.length ≤ fuel) :
    (buildBalancedTree fuel nodes).depth ≤ levels ↔ Fits levels (heights nodes) := by
  induction levels generalizing fuel nodes with
  | zero =>
    by_cases hne : nodes = []
    · rw [hne, buildBalancedTree_nil]
      exact iff_of_true le_rfl rfl
    · cases fuel with
      | zero => exact absurd (List.eq_nil_of_length_eq_zero (Nat.le_zero.mp h)) hne
      | succ fuel =>
        obtain ⟨root, others, -, -, hbuild⟩ := exists_root hne
        rw [hbuild, depth, Fits, ← Multiset.card_eq_zero, card_heights, List.length_eq_zero_iff]
        exact iff_of_false (Nat.not_succ_le_zero _) hne
  | succ levels ih =>
    by_cases hne : nodes = []
    · rw [hne, buildBalancedTree_nil]
      exact iff_of_true (Nat.zero_le _) (fits_zero _)
    · cases fuel with
      | zero => exact absurd (List.eq_nil_of_length_eq_zero (Nat.le_zero.mp h)) hne
      | succ fuel =>
        obtain ⟨root, others, hroot, hperm, hbuild⟩ := exists_root hne
        have hmiddle := isMiddle_root hroot
        have hfits : Fits (levels + 1) (heights nodes) ↔
            Fits levels (heights (others.filter (·.height < root.height))) ∧
              Fits levels (heights (others.filter (¬ ·.height < root.height))) := by
          rw [heights_left hperm, heights_right hperm]
          constructor
          · exact fun hfits => hfits _ hmiddle
          · intro hfits m hm
            rwa [hmiddle.unique hm]
        rw [hbuild, depth, hfits, ← ih (length_side_le hperm h _), ← ih (length_side_le hperm h _)]
        exact Nat.succ_le_succ_iff.trans max_le_iff

/-- The tree is balanced exactly if at every split the heights that are not below the middle one
have room in the levels that are left. -/
theorem buildBalancedTree_balanced_iff (nodes : List IntervalNode) :
    Balanced nodes ↔ HasRoom (Nat.clog 2 (nodes.length + 1)) (heights nodes) := by
  have hcard : (heights nodes).card < 2 ^ Nat.clog 2 (nodes.length + 1) := by
    rw [card_heights]
    exact Nat.le_pow_clog Nat.one_lt_two _
  rw [← fits_iff_hasRoom hcard, ← depth_buildBalancedTree_le_iff le_rfl]
  constructor
  · exact fun h => h.1
  · exact fun h => ⟨h, fun target => (searchDepth_le_depth _).trans h⟩

theorem heights_eq (nodes : List IntervalNode) :
    heights nodes = ((nodes.map (·.height)).map UInt64.toNat : List ℕ) := by
  rw [heights, List.map_map]
  rfl

/-- Blocks of different heights leave room at every split. -/
theorem hasRoom_of_nodup_heights (h : (nodes.map (·.height)).Nodup) :
    HasRoom (Nat.clog 2 (nodes.length + 1)) (heights nodes) := by
  apply hasRoom_of_nodup
  · rw [heights_eq, Multiset.coe_nodup]
    exact h.map fun a b => UInt64.toNat_inj.mp
  · rw [card_heights]
    exact Nat.le_pow_clog Nat.one_lt_two _

theorem count_height_le_depth (nodes : List IntervalNode) (height : UInt64) :
    (nodes.map (·.height)).count height ≤ (buildBalancedTree nodes.length nodes).depth := by
  have hfits : Fits (buildBalancedTree nodes.length nodes).depth (heights nodes) :=
    (depth_buildBalancedTree_le_iff le_rfl).mp le_rfl
  have hcount := hfits.count_le height.toNat
  rwa [heights_eq, Multiset.coe_count,
    List.count_map_of_injective _ _ fun a b => UInt64.toNat_inj.mp] at hcount

/-- Three blocks of one height are a tree of three levels. -/
theorem shared_height_unbalanced : ¬ ∀ nodes, nodes ≠ [] → Balanced nodes := by
  intro h
  have hbalanced := (h [⟨Bytes.fill 32 1, 5, 0⟩, ⟨Bytes.fill 32 2, 5, 1⟩, ⟨Bytes.fill 32 3, 5, 2⟩]
    (List.cons_ne_nil _ _)).1
  have hdepth := (count_height_le_depth [⟨Bytes.fill 32 1, 5, 0⟩, ⟨Bytes.fill 32 2, 5, 1⟩,
    ⟨Bytes.fill 32 3, 5, 2⟩] 5).trans hbalanced
  exact absurd hdepth (by decide)

end IntervalTree
end CytahSpeed
