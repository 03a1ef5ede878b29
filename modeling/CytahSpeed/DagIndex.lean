import CytahSpeed.BlockStore
import CytahSpeed.Worklist

/-!
# The DAG index

Child lists and tips kept beside the block store, the batch construction of both from the store,
and the traversals over parents that the index offers. The traversals are loops over a queue:
`getAllAncestors` has fuel for every hash that occurs as a parent, which is always enough, and
`getBlockDepth` returns `none` when the levels do not run out within the number of stored blocks.
-/

namespace CytahSpeed
open ByteString FiniteMap

structure DagIndex where
  parentToChildren : Map BlockHash (List BlockHash)
  tips : Finset BlockHash

namespace DagIndex

variable (idx : DagIndex)

def empty : DagIndex := ⟨∅, ∅⟩

def getChildren (hash : BlockHash) : List BlockHash :=
  (idx.parentToChildren.lookup hash).getD []

/-- `entry(parent).or_insert_with(Vec::new).push(child)`. -/
def pushChild (child parent : BlockHash) : DagIndex :=
  { idx with
    parentToChildren := idx.parentToChildren.insert parent (idx.getChildren parent ++ [child]) }

def pushChildren (block : Block) : DagIndex :=
  block.header.parentHashes.foldl (fun i p => i.pushChild block.hash p) idx

def buildFromStore (store : BlockStore) : DagIndex :=
  let blocks := store.getAllBlocks
  let index := blocks.foldl pushChildren empty
  let potentialTips := (blocks.map (·.hash)).toFinset
  let tips := blocks.foldl (fun tips b => b.header.parentHashes.foldl Finset.erase tips)
    potentialTips
  { index with tips }

def updateTipsAfterInsert (newBlock : Block) : DagIndex :=
  let tips := newBlock.header.parentHashes.foldl Finset.erase (insert newBlock.hash idx.tips)
  pushChildren { idx with tips } newBlock

/-- All ancestors of a block; the index itself is not consulted. -/
def getAllAncestors (hash : BlockHash) (store : BlockStore) : Finset BlockHash :=
  Worklist.search store.parentsOf (store.references.card + 1) [hash] ∅

def isAncestor (ancestorHash blockHash : BlockHash) (store : BlockStore) : Bool :=
  ancestorHash ∈ getAllAncestors blockHash store

/-- The parents of one level, each once. -/
def nextLevel (store : BlockStore) (current : List BlockHash) : List BlockHash :=
  (current.flatMap store.parentsOf).foldl (fun next p => if p ∈ next then next else next ++ [p]) []

def depthLoop (store : BlockStore) : ℕ → List BlockHash → ℕ → Option ℕ
  | 0, _, _ => none
  | fuel + 1, current, depth =>
    if current = [] then some depth
    else if nextLevel store current = [] then some depth
    else depthLoop store fuel (nextLevel store current) (depth + 1)

/-- The number of levels above a block, counted until a level has no parents. -/
def getBlockDepth (hash : BlockHash) (store : BlockStore) : Option ℕ :=
  depthLoop store (store.blockCount + 1) [hash] 0

@[simp] theorem getChildren_pushChild (child parent p : BlockHash) :
    (idx.pushChild child parent).getChildren p =
      if p = parent then idx.getChildren p ++ [child] else idx.getChildren p := by
  by_cases h : p = parent
  · subst h
    simp [pushChild, getChildren]
  · simp [pushChild, getChildren, h, Finmap.lookup_insert_of_ne _ h]

@[simp] theorem tips_pushChild (child parent : BlockHash) :
    (idx.pushChild child parent).tips = idx.tips := rfl

theorem foldl_pushChild (child : BlockHash) (parents : List BlockHash) (p : BlockHash) :
    (parents.foldl (fun i q => i.pushChild child q) idx).getChildren p =
      idx.getChildren p ++ List.replicate (parents.count p) child ∧
    (parents.foldl (fun i q => i.pushChild child q) idx).tips = idx.tips := by
  induction parents generalizing idx with
  | nil => simp
  | cons q parents ih =>
    obtain ⟨hc, ht⟩ := ih (idx.pushChild child q)
    rw [List.foldl_cons, hc, ht, getChildren_pushChild, tips_pushChild]
    by_cases h : p = q
    · subst h
      simp [List.replicate_succ]
    · simp [h, Ne.symm h]

theorem getChildren_pushChildren (block : Block) (p : BlockHash) :
    (idx.pushChildren block).getChildren p =
      idx.getChildren p ++ List.replicate (block.header.parentHashes.count p) block.hash :=
  (foldl_pushChild idx block.hash block.header.parentHashes p).1

theorem tips_pushChildren (block : Block) : (idx.pushChildren block).tips = idx.tips :=
  (foldl_pushChild idx block.hash block.header.parentHashes (Bytes.zero 32)).2

theorem mem_foldl_erase (l : List BlockHash) (s : Finset BlockHash) (h : BlockHash) :
    h ∈ l.foldl Finset.erase s ↔ h ∈ s ∧ h ∉ l := by
  induction l generalizing s with
  | nil => simp
  | cons p l ih =>
    rw [List.foldl_cons, ih, Finset.mem_erase, List.mem_cons, not_or]
    tauto

theorem getChildren_updateTipsAfterInsert (b : Block) (p : BlockHash) :
    (idx.updateTipsAfterInsert b).getChildren p =
      idx.getChildren p ++ List.replicate (b.header.parentHashes.count p) b.hash := by
  rw [updateTipsAfterInsert, getChildren_pushChildren]
  rfl

theorem mem_tips_updateTipsAfterInsert (b : Block) (h : BlockHash) :
    h ∈ (idx.updateTipsAfterInsert b).tips ↔
      (h = b.hash ∨ h ∈ idx.tips) ∧ h ∉ b.header.parentHashes := by
  rw [updateTipsAfterInsert, tips_pushChildren, mem_foldl_erase, Finset.mem_insert]

theorem mem_getAllAncestors (hash a : BlockHash) (store : BlockStore) :
    a ∈ getAllAncestors hash store ↔
      Relation.TransGen (Worklist.Step store.parentsOf) hash a :=
  Worklist.mem_search store.parentsOf store.references store.mem_references_of_mem_parentsOf hash a

theorem mem_nextLevel (store : BlockStore) (current : List BlockHash) (p : BlockHash) :
    p ∈ nextLevel store current ↔ ∃ h ∈ current, p ∈ store.parentsOf h := by
  have hfold : ∀ (l next : List BlockHash),
      p ∈ l.foldl (fun next q => if q ∈ next then next else next ++ [q]) next ↔
        p ∈ next ∨ p ∈ l := by
    intro l
    induction l with
    | nil => simp
    | cons q l ih =>
      intro next
      rw [List.foldl_cons, ih]
      by_cases hq : q ∈ next
      · rw [if_pos hq, List.mem_cons]
        constructor
        · rintro (h | h)
          · exact Or.inl h
          · exact Or.inr (Or.inr h)
        · rintro (h | rfl | h)
          · exact Or.inl h
          · exact Or.inl hq
          · exact Or.inr h
      · rw [if_neg hq, List.mem_append, List.mem_singleton, List.mem_cons, or_assoc]
  rw [nextLevel, hfold]
  simp

end DagIndex

end CytahSpeed
