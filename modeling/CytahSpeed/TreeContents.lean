import CytahSpeed.FinalityEngine

/-!
# What the interval tree holds

The tree is built by recursion on lists that the removal of the middle node and the partition leave
shorter and in disorder. It holds every node of the list once, lower ones on the left of a node, and
with distinct hashes the search finds each of them.
-/

namespace CytahSpeed.IntervalTree

/-- The nodes of the tree, each before its subtrees. -/
def nodes : IntervalTree → List IntervalNode
  | .nil => []
  | .node n _ left right => n :: (left.nodes ++ right.nodes)

/-- `find_node` with what it refers to, the subtrees included. -/
def findRef (target : BlockHash) : IntervalTree → Option IntervalTree
  | .nil => none
  | .node n cache left right =>
    if n.blockHash = target then some (.node n cache left right)
    else (left.findRef target).or (right.findRef target)

def sortByHeight (nodes : List IntervalNode) : List IntervalNode :=
  nodes.insertionSort (fun a b => a.height ≤ b.height)

/-- On the left of every node are lower ones, on the right none. -/
def Ordered : IntervalTree → Prop
  | .nil => True
  | .node n _ left right => (∀ m ∈ left.nodes, m.height < n.height) ∧
      (∀ m ∈ right.nodes, n.height ≤ m.height) ∧ left.Ordered ∧ right.Ordered

/-- The tree holds the nodes of the list and no others, in order, and the search finds them. -/
structure HoldsExactly (l : List IntervalNode) (t : IntervalTree) : Prop where
  contents : t.nodes.Perm l
  ordered : t.Ordered
  found : ∀ n ∈ l, ∃ cache left right, t.findRef n.blockHash = some (.node n cache left right)
  notFound : ∀ hash ∉ l.map (·.blockHash), t.findRef hash = none

variable {l others : List IntervalNode} {root : IntervalNode} {target : BlockHash} {fuel : ℕ}

theorem swapRemove_last {α : Type*} (before : List α) (a : α) :
    swapRemove before.length (before ++ [a]) = before := by
  rw [swapRemove, List.getLast?_concat]
  dsimp only
  rw [List.set_append_right _ _ le_rfl, Nat.sub_self, List.set_cons_zero, List.dropLast_concat]

theorem swapRemove_inner {α : Type*} (before after : List α) (a last : α) :
    swapRemove before.length (before ++ a :: (after ++ [last])) = before ++ last :: after := by
  have hlast : (before ++ a :: (after ++ [last])).getLast? = some last := by
    rw [← List.cons_append, ← List.append_assoc, List.getLast?_concat]
  have hset : (before ++ a :: (after ++ [last])).set before.length last =
      (before ++ last :: after) ++ [last] := by
    rw [List.set_append_right _ _ le_rfl, Nat.sub_self, List.set_cons_zero, List.append_assoc,
      List.cons_append]
  rw [swapRemove, hlast]
  dsimp only
  rw [hset, List.dropLast_concat]

theorem perm_swapRemove {α : Type*} {l : List α} {i : ℕ} {a : α} (h : l[i]? = some a) :
    (a :: swapRemove i l).Perm l := by
  obtain ⟨before, after, rfl, rfl⟩ : ∃ before after, l = before ++ a :: after ∧
      i = before.length := by
    obtain ⟨hi, rfl⟩ := List.getElem?_eq_some_iff.mp h
    refine ⟨l.take i, l.drop (i + 1), ?_, (List.length_take_of_le hi.le).symm⟩
    rw [← List.drop_eq_getElem_cons hi, List.take_append_drop]
  rcases List.eq_nil_or_concat' after with rfl | ⟨after, last, rfl⟩
  · rw [swapRemove_last]
    exact (List.perm_append_singleton a before).symm
  · rw [swapRemove_inner]
    refine List.Perm.trans ?_ List.perm_middle.symm
    refine List.Perm.cons a (List.perm_middle.trans ?_)
    rw [← List.append_assoc]
    exact (List.perm_append_singleton last (before ++ after)).symm

theorem findRef_of_notMem {t : IntervalTree} (h : target ∉ t.nodes.map (·.blockHash)) :
    t.findRef target = none := by
  induction t with
  | nil => rfl
  | node n cache left right ihl ihr =>
    rw [nodes, List.map_cons, List.map_append, List.mem_cons, List.mem_append] at h
    push Not at h
    rw [findRef, if_neg (Ne.symm h.1), ihl h.2.1, ihr h.2.2, Option.or_none]

theorem findRef_of_mem {t : IntervalTree} (hn : (t.nodes.map (·.blockHash)).Nodup)
    {n : IntervalNode} (h : n ∈ t.nodes) :
    ∃ cache left right, t.findRef n.blockHash = some (.node n cache left right) := by
  induction t with
  | nil => cases h
  | node m cache left right ihl ihr =>
    rw [nodes, List.map_cons, List.map_append, List.nodup_cons, List.nodup_append] at hn
    obtain ⟨hroot, hleft, hright, hdisjoint⟩ := hn
    rw [findRef]
    rcases List.mem_cons.mp h with rfl | h
    · exact ⟨cache, left, right, if_pos rfl⟩
    · have hne : m.blockHash ≠ n.blockHash := by
        intro heq
        rw [heq, ← List.map_append] at hroot
        exact hroot (List.mem_map_of_mem h)
      rw [if_neg hne]
      rcases List.mem_append.mp h with h | h
      · obtain ⟨cache', left', right', hfound⟩ := ihl hleft h
        exact ⟨cache', left', right', by rw [hfound, Option.some_or]⟩
      · have hnone : left.findRef n.blockHash = none := by
          apply findRef_of_notMem
          intro hmem
          exact hdisjoint _ hmem _ (List.mem_map_of_mem h) rfl
        rw [hnone, Option.none_or]
        exact ihr hright h

theorem buildBalancedTree_nil (fuel : ℕ) : buildBalancedTree fuel [] = .nil := by
  cases fuel <;> rfl

/-- A list that is not empty has a node at its middle, which becomes the root over the partition of
the others. -/
theorem exists_root (hne : l ≠ []) :
    ∃ root others, (sortByHeight l)[(sortByHeight l).length / 2]? = some root ∧
      (root :: others).Perm l ∧
      ∀ fuel, buildBalancedTree (fuel + 1) l =
        .node root ∅ (buildBalancedTree fuel (others.filter (·.height < root.height)))
          (buildBalancedTree fuel (others.filter (¬ ·.height < root.height))) := by
  have hlen : (sortByHeight l).length = l.length := List.length_insertionSort _ _
  have hpos : 0 < l.length := List.length_pos_iff.mpr hne
  obtain ⟨root, hroot⟩ : ∃ root, (sortByHeight l)[(sortByHeight l).length / 2]? = some root :=
    ⟨_, List.getElem?_eq_getElem (by omega)⟩
  refine ⟨root, _, hroot, (perm_swapRemove hroot).trans (List.perm_insertionSort _ _), ?_⟩
  intro fuel
  rw [buildBalancedTree]
  dsimp only
  rw [← sortByHeight, hroot]

theorem length_side_le (hperm : (root :: others).Perm l) (h : l.length ≤ fuel + 1)
    (p : IntervalNode → Bool) : (others.filter p).length ≤ fuel := by
  have hlen := hperm.length_eq
  rw [List.length_cons] at hlen
  exact (List.length_filter_le _ _).trans (by omega)

/-- The recursion ends: fuel for every node of the list is enough, more changes nothing. -/
theorem buildBalancedTree_of_le {fuel' : ℕ} (h : l.length ≤ fuel) (h' : l.length ≤ fuel') :
    buildBalancedTree fuel l = buildBalancedTree fuel' l := by
  induction fuel generalizing fuel' l with
  | zero =>
    rw [List.eq_nil_of_length_eq_zero (Nat.le_zero.mp h), buildBalancedTree_nil,
      buildBalancedTree_nil]
  | succ fuel ih =>
    by_cases hne : l = []
    · rw [hne, buildBalancedTree_nil, buildBalancedTree_nil]
    · obtain ⟨root, others, -, hperm, hbuild⟩ := exists_root hne
      cases fuel' with
      | zero => exact absurd (List.eq_nil_of_length_eq_zero (Nat.le_zero.mp h')) hne
      | succ fuel' =>
        rw [hbuild, hbuild, ih (length_side_le hperm h _) (length_side_le hperm h' _),
          ih (length_side_le hperm h _) (length_side_le hperm h' _)]

theorem nodes_buildBalancedTree (h : l.length ≤ fuel) :
    (buildBalancedTree fuel l).nodes.Perm l := by
  induction fuel generalizing l with
  | zero =>
    rw [List.eq_nil_of_length_eq_zero (Nat.le_zero.mp h)]
    exact List.Perm.nil
  | succ fuel ih =>
    by_cases hne : l = []
    · rw [hne, buildBalancedTree_nil]
      exact List.Perm.nil
    · obtain ⟨root, others, -, hperm, hbuild⟩ := exists_root hne
      have hleft := ih (length_side_le hperm h (·.height < root.height))
      have hright := ih (length_side_le hperm h (¬ ·.height < root.height))
      rw [hbuild, nodes]
      have hsides : (others.filter (·.height < root.height) ++
          others.filter (¬ ·.height < root.height)).Perm others := by
        simp only [decide_not]
        exact List.filter_append_perm _ others
      exact (List.Perm.cons root ((hleft.append hright).trans hsides)).trans hperm

theorem ordered_buildBalancedTree (h : l.length ≤ fuel) : (buildBalancedTree fuel l).Ordered := by
  induction fuel generalizing l with
  | zero => exact trivial
  | succ fuel ih =>
    by_cases hne : l = []
    · rw [hne, buildBalancedTree_nil]
      exact trivial
    · obtain ⟨root, others, -, hperm, hbuild⟩ := exists_root hne
      have hleft := length_side_le hperm h (·.height < root.height)
      have hright := length_side_le hperm h (¬ ·.height < root.height)
      rw [hbuild]
      refine ⟨?_, ?_, ih hleft, ih hright⟩
      · intro m hm
        have hmem := (nodes_buildBalancedTree hleft).mem_iff.mp hm
        exact of_decide_eq_true (List.mem_filter.mp hmem).2
      · intro m hm
        have hmem := (nodes_buildBalancedTree hright).mem_iff.mp hm
        exact UInt64.not_lt.mp (of_decide_eq_true (List.mem_filter.mp hmem).2)

/-- The recursion ends with a tree that holds exactly the nodes of the list. -/
theorem buildBalancedTree_holds (l : List IntervalNode) (hn : (l.map (·.blockHash)).Nodup) :
    (∀ fuel, l.length ≤ fuel → buildBalancedTree fuel l = buildBalancedTree l.length l) ∧
      HoldsExactly l (buildBalancedTree l.length l) := by
  have hcontents : (buildBalancedTree l.length l).nodes.Perm l := nodes_buildBalancedTree le_rfl
  have hhashes := hcontents.map (·.blockHash)
  refine ⟨fun fuel h => buildBalancedTree_of_le h le_rfl, hcontents,
    ordered_buildBalancedTree le_rfl, ?_, ?_⟩
  · intro n hmem
    exact findRef_of_mem (hhashes.nodup_iff.mpr hn) (hcontents.mem_iff.mpr hmem)
  · intro hash hnot
    exact findRef_of_notMem fun hmem => hnot (hhashes.mem_iff.mp hmem)

def sampleNodes : List IntervalNode :=
  [⟨ByteString.Bytes.fill 32 1, 7, 2⟩, ⟨ByteString.Bytes.fill 32 2, 5, 0⟩,
    ⟨ByteString.Bytes.fill 32 3, 5, 1⟩]

theorem buildBalancedTree_holds_sample : (sampleNodes.map (·.blockHash)).Nodup ∧
    (∀ fuel, 3 ≤ fuel → buildBalancedTree fuel sampleNodes = buildBalancedTree 3 sampleNodes) ∧
      HoldsExactly sampleNodes (buildBalancedTree 3 sampleNodes) := by
  have hn : (sampleNodes.map (·.blockHash)).Nodup := by decide
  exact ⟨hn, buildBalancedTree_holds sampleNodes hn⟩

end CytahSpeed.IntervalTree
