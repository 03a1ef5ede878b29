import CytahSpeed.FiniteMap
import CytahSpeed.LevelTree
import CytahSpeed.Transaction
import Mathlib.Data.List.Permutation

/-!
# The state tree

Accounts are kept in a hash map and hashed to a root by joining the leaves in the order in which
the map is iterated. Every update rebuilds the tree, so the root depends on the accounts and on
the order of the last iteration. A map of two or more accounts has iterations with different
roots.
-/

namespace CytahSpeed
open ByteString FiniteMap

structure Account where
  balance : UInt64
  nonce : UInt64
  deriving DecidableEq

def Account.hash (c : Crypto) (a : Account) : Hash := c.sha256 (le64 a.balance ++ le64 a.nonce)

inductive MerkleNode
  | leaf (hash : Hash) (key : Address) (value : Account)
  | internal (hash : Hash) (left right : MerkleNode)

namespace MerkleNode

variable (c : Crypto)

def hash : MerkleNode → Hash
  | leaf hash _ _ => hash
  | internal hash _ _ => hash

def leafPreimage (key : Address) (value : Account) : List UInt8 :=
  key.toList ++ (value.hash c).toList

def newLeaf (key : Address) (value : Account) : MerkleNode :=
  leaf (c.sha256 (leafPreimage c key value)) key value

def joinHash (left right : Hash) : Hash := c.sha256 (left.toList ++ right.toList)

def newInternal (left right : MerkleNode) : MerkleNode :=
  internal (joinHash c left.hash right.hash) left right

end MerkleNode

structure SparseMerkleTree where
  root : Option MerkleNode
  leaves : Map Address Account

namespace SparseMerkleTree

variable (c : Crypto) (order : IterOrder Address Account) (t : SparseMerkleTree)

def new : SparseMerkleTree := ⟨none, ∅⟩

def getAccount (address : Address) : Option Account := t.leaves.lookup address

/-- `rebuild_tree`, where the leaves are iterated in the given order. -/
def rebuildTree : SparseMerkleTree :=
  if t.leaves.keys = ∅ then { t with root := none }
  else
    let nodes := (order.iter t.leaves).map fun e => MerkleNode.newLeaf c e.1 e.2
    { t with root := LevelTree.root (MerkleNode.newInternal c) nodes }

def updateAccount (address : Address) (account : Account) : SparseMerkleTree :=
  rebuildTree c order { t with leaves := t.leaves.insert address account }

def calculateRoot : Hash :=
  match t.root with
  | some root => root.hash
  | none => Bytes.zero 32

/-- Trees that calls of `update_account` can build, each call with its own order of iteration. -/
inductive Built : SparseMerkleTree → Prop
  | new : Built new
  | update (t : SparseMerkleTree) (order : IterOrder Address Account) (address : Address)
      (account : Account) : Built t → Built (t.updateAccount c order address account)

def rootOf (l : List (Address × Account)) : Option MerkleNode :=
  LevelTree.root (MerkleNode.newInternal c) (l.map fun e => MerkleNode.newLeaf c e.1 e.2)

def leafHashes (l : List (Address × Account)) : List Hash :=
  l.map fun e => c.sha256 (MerkleNode.leafPreimage c e.1 e.2)

def treeHashed (l : List (Address × Account)) : List (List UInt8) :=
  l.map (fun e => MerkleNode.leafPreimage c e.1 e.2) ++
    (LevelTree.joined (MerkleNode.joinHash c) (leafHashes c l).length (leafHashes c l)).map
      fun p => p.1.toList ++ p.2.toList

variable {c order t}

@[simp] theorem leaves_updateAccount (address : Address) (account : Account) :
    (t.updateAccount c order address account).leaves = t.leaves.insert address account := by
  unfold updateAccount rebuildTree
  split <;> rfl

theorem root_updateAccount (address : Address) (account : Account) :
    (t.updateAccount c order address account).root =
      rootOf c (order.iter (t.leaves.insert address account)) := by
  have hne : (t.leaves.insert address account).keys ≠ ∅ := by
    rw [keys_insert]
    exact Finset.insert_ne_empty _ _
  simp only [updateAccount, rebuildTree, if_neg hne, rootOf]

theorem Built.root_eq (h : Built c t) : ∃ l, Enumerates l t.leaves ∧ t.root = rootOf c l := by
  cases h with
  | new => exact ⟨[], ⟨by simp, by simp [SparseMerkleTree.new]⟩, rfl⟩
  | update t order address account _ =>
    refine ⟨order.iter (t.leaves.insert address account), ?_, root_updateAccount _ _⟩
    rw [leaves_updateAccount]
    exact order.enumerates _

theorem exists_built_lookup (c : Crypto) (l : List (Address × Account)) :
    ∃ t, Built c t ∧ ∀ k, t.leaves.lookup k = (l.find? (·.1 = k)).map Prod.snd := by
  induction l with
  | nil => exact ⟨new, Built.new, fun k => by simp [new]⟩
  | cons e l ih =>
    obtain ⟨t, ht, hlookup⟩ := ih
    refine ⟨_, Built.update t IterOrder.sorted e.1 e.2 ht, ?_⟩
    intro k
    rw [leaves_updateAccount, lookup_insert_eq_ite, hlookup, List.find?_cons]
    by_cases hk : k = e.1
    · simp [hk]
    · simp [hk, Ne.symm hk]

theorem find?_of_enumerates {l : List (Address × Account)} {m : Map Address Account}
    (h : Enumerates l m) (k : Address) : (l.find? (·.1 = k)).map Prod.snd = m.lookup k := by
  cases hf : l.find? (·.1 = k) with
  | some e =>
    have hk : e.1 = k := by simpa using List.find?_some hf
    have he := (h.2 e).mp (List.mem_of_find?_eq_some hf)
    rw [Option.map_some, ← he, hk]
  | none =>
    cases hl : m.lookup k with
    | none => rfl
    | some v =>
      have hmem := (h.2 (k, v)).mpr hl
      have hno := List.find?_eq_none.mp hf (k, v) hmem
      simp at hno

theorem exists_built (c : Crypto) {l : List (Address × Account)} {m : Map Address Account}
    (h : Enumerates l m) (hne : l ≠ []) :
    ∃ t, Built c t ∧ t.leaves = m ∧ t.root = rootOf c l := by
  obtain ⟨t, ht, hlookup⟩ := exists_built_lookup c l
  have hleaves : t.leaves = m := by
    apply Finmap.ext_lookup
    intro k
    rw [hlookup, find?_of_enumerates h]
  obtain ⟨e, he⟩ := List.exists_mem_of_ne_nil l hne
  -- writing an entry back leaves the map as it is and rebuilds the tree
  have hsame : m.insert e.1 e.2 = m := by
    apply Finmap.ext_lookup
    intro k
    rw [lookup_insert_eq_ite]
    by_cases hk : k = e.1
    · rw [if_pos hk, hk, (h.2 e).mp he]
    · rw [if_neg hk]
  refine ⟨_, Built.update t (IterOrder.sorted.withList m l h) e.1 e.2 ht, ?_, ?_⟩
  · rw [leaves_updateAccount, hleaves, hsame]
  · rw [root_updateAccount, hleaves, hsame]
    simp [IterOrder.withList]

theorem calculateRoot_eq {l : List (Address × Account)} (h : t.root = rootOf c l) :
    t.calculateRoot = (LevelTree.root (MerkleNode.joinHash c) (leafHashes c l)).getD
      (Bytes.zero 32) := by
  have hmap : (rootOf c l).map MerkleNode.hash =
      LevelTree.root (MerkleNode.joinHash c) (leafHashes c l) := by
    have hhash : ∀ left right, (MerkleNode.newInternal c left right).hash =
        MerkleNode.joinHash c left.hash right.hash := fun _ _ => rfl
    have hroot := LevelTree.map_root hhash (l.map fun e => MerkleNode.newLeaf c e.1 e.2)
    rw [List.map_map] at hroot
    exact hroot
  rw [← hmap, calculateRoot, h]
  cases rootOf c l <;> rfl

section Collisions
variable {P : Set (List UInt8)} (hinj : Set.InjOn c.sha256 P)
include hinj

theorem joinHash_injOn :
    Set.InjOn (Function.uncurry (MerkleNode.joinHash c)) {p | p.1.toList ++ p.2.toList ∈ P} := by
  intro p hp q hq he
  have hcat : p.1.toList ++ p.2.toList = q.1.toList ++ q.2.toList := hinj hp hq he
  obtain ⟨hleft, hright⟩ := List.append_inj hcat (by simp)
  exact Prod.ext (List.Vector.toList_injective hleft) (List.Vector.toList_injective hright)

theorem keys_eq_of_root_eq (l l' : List (Address × Account)) (hlen : l.length = l'.length)
    (hl : ∀ x ∈ treeHashed c l, x ∈ P) (hl' : ∀ x ∈ treeHashed c l', x ∈ P)
    (h : LevelTree.root (MerkleNode.joinHash c) (leafHashes c l) =
      LevelTree.root (MerkleNode.joinHash c) (leafHashes c l')) :
    l.map Prod.fst = l'.map Prod.fst := by
  have hjoined : ∀ l, (∀ x ∈ treeHashed c l, x ∈ P) →
      ∀ p ∈ LevelTree.joined (MerkleNode.joinHash c) (leafHashes c l).length (leafHashes c l),
        p ∈ {p : Hash × Hash | p.1.toList ++ p.2.toList ∈ P} := by
    intro l hl p hp
    exact hl _ (List.mem_append_right _ (List.mem_map.mpr ⟨p, hp, rfl⟩))
  have hleaves := LevelTree.root_injective (joinHash_injOn hinj) (leafHashes c l)
    (leafHashes c l') (by simp [leafHashes, hlen]) (hjoined l hl) (hjoined l' hl') h
  -- equal leaf hashes have equal preimages, which begin with the keys
  apply List.ext_getElem (by simp [hlen])
  intro i hi hi'
  have hi₁ : i < l.length := by simpa using hi
  have hi₂ : i < l'.length := by simpa using hi'
  have hhash : c.sha256 (MerkleNode.leafPreimage c l[i].1 l[i].2) =
      c.sha256 (MerkleNode.leafPreimage c l'[i].1 l'[i].2) := by
    have hget : (leafHashes c l)[i]? = (leafHashes c l')[i]? := by rw [hleaves]
    simpa [leafHashes, hi₁, hi₂] using hget
  have hmem : ∀ (l : List (Address × Account)) (hi : i < l.length),
      MerkleNode.leafPreimage c l[i].1 l[i].2 ∈ treeHashed c l := by
    intro l hi
    exact List.mem_append_left _ (List.mem_map.mpr ⟨l[i], List.getElem_mem hi, rfl⟩)
  have hpre := hinj (hl _ (hmem l hi₁)) (hl' _ (hmem l' hi₂)) hhash
  obtain ⟨hkey, -⟩ := List.append_inj hpre (by simp)
  simpa using List.Vector.toList_injective hkey

end Collisions

/-- Exchanging the first two entries of an iteration changes the root. -/
theorem exists_roots_ne {m : Map Address Account} {e e' : Address × Account}
    {rest : List (Address × Account)} (hen : Enumerates (e :: e' :: rest) m)
    (hinj : Set.InjOn c.sha256 {x | ∃ l, Enumerates l m ∧ x ∈ treeHashed c l}) :
    ∃ t t' : SparseMerkleTree, Built c t ∧ Built c t' ∧ t.leaves = m ∧ t'.leaves = m ∧
      t.calculateRoot ≠ t'.calculateRoot := by
  have hen' : Enumerates (e' :: e :: rest) m := hen.of_perm (List.Perm.swap e' e rest)
  obtain ⟨t, ht, htm, htr⟩ := exists_built c hen (List.cons_ne_nil _ _)
  obtain ⟨t', ht', htm', htr'⟩ := exists_built c hen' (List.cons_ne_nil _ _)
  refine ⟨t, t', ht, ht', htm, htm', ?_⟩
  intro hroot
  rw [calculateRoot_eq htr, calculateRoot_eq htr'] at hroot
  obtain ⟨r, hr⟩ := LevelTree.exists_root (MerkleNode.joinHash c)
    (leafHashes c (e :: e' :: rest)) (by simp [leafHashes])
  obtain ⟨r', hr'⟩ := LevelTree.exists_root (MerkleNode.joinHash c)
    (leafHashes c (e' :: e :: rest)) (by simp [leafHashes])
  rw [hr, hr', Option.getD_some, Option.getD_some] at hroot
  have hkeys := keys_eq_of_root_eq hinj (e :: e' :: rest) (e' :: e :: rest) rfl
    (fun x hx => ⟨_, hen, hx⟩) (fun x hx => ⟨_, hen', hx⟩) (by rw [hr, hr', hroot])
  have hnodup := hen.1
  simp only [List.map_cons, List.cons.injEq] at hkeys
  simp [hkeys.1] at hnodup

/-- The root is a function of the account map exactly for maps of at most one account. -/
theorem calculateRoot_determined_iff (c : Crypto) (m : Map Address Account)
    (hinj : Set.InjOn c.sha256 {x | ∃ l, Enumerates l m ∧ x ∈ treeHashed c l}) :
    (∀ t t' : SparseMerkleTree, Built c t → Built c t' → t.leaves = m → t'.leaves = m →
      t.calculateRoot = t'.calculateRoot) ↔ m.keys.card ≤ 1 := by
  constructor
  · intro hall
    by_contra hcard
    have hlen := (enumerates_sortedEntries m).length_eq
    have hen := enumerates_sortedEntries m
    generalize sortedEntries m = l at hlen hen
    match l with
    | [] => simp at hlen; omega
    | [e] => simp at hlen; omega
    | e :: e' :: rest =>
      obtain ⟨t, t', ht, ht', htm, htm', hne⟩ := exists_roots_ne hen hinj
      exact hne (hall t t' ht ht' htm htm')
  · intro hcard t t' ht ht' htm htm'
    obtain ⟨l, hl, hr⟩ := ht.root_eq
    obtain ⟨l', hl', hr'⟩ := ht'.root_eq
    rw [htm] at hl
    rw [htm'] at hl'
    have hperm := hl.perm hl'
    have hlen := hl.length_eq
    have hsame : l = l' := by
      match l with
      | [] => exact (List.nil_perm.mp hperm).symm
      | [e] => exact List.singleton_perm.mp hperm
      | _ :: _ :: _ => simp at hlen; omega
    rw [calculateRoot_eq hr, calculateRoot_eq hr', hsame]

section Sample

def sampleEntries : List (Address × Account) :=
  [(Bytes.fill 20 1, ⟨0, 0⟩), (Bytes.fill 20 255, ⟨0, 0⟩)]

def sampleTree (order : IterOrder Address Account) : SparseMerkleTree :=
  sampleEntries.foldl (fun t e => t.updateAccount .hashOnly order e.1 e.2) new

def sampleHashed : List (List UInt8) :=
  treeHashed .hashOnly sampleEntries ++ treeHashed .hashOnly sampleEntries.reverse

set_option maxRecDepth 20000 in
theorem sampleHashed_distinct :
    ∀ x ∈ sampleHashed, ∀ y ∈ sampleHashed, Sha256.hash x = Sha256.hash y → x = y := by
  decide +kernel

theorem enumerates_sampleEntries :
    Enumerates sampleEntries (sampleTree IterOrder.sorted).leaves := by
  have hlen : (IterOrder.sorted.iter (sampleTree IterOrder.sorted).leaves) = sampleEntries := by
    decide +kernel
  rw [← hlen]
  exact IterOrder.sorted.enumerates _

theorem calculateRoot_determined_sample :
    ¬ ∀ t t' : SparseMerkleTree, Built .hashOnly t → Built .hashOnly t' →
      t.leaves = (sampleTree IterOrder.sorted).leaves →
      t'.leaves = (sampleTree IterOrder.sorted).leaves →
      t.calculateRoot = t'.calculateRoot := by
  have hen := enumerates_sampleEntries
  have horders : ∀ l, Enumerates l (sampleTree IterOrder.sorted).leaves →
      l = sampleEntries ∨ l = sampleEntries.reverse := by
    intro l hl
    have hmem := List.mem_permutations.mpr (hl.perm hen)
    simpa [sampleEntries, List.permutations] using hmem
  have hinj : Set.InjOn Crypto.hashOnly.sha256
      {x | ∃ l, Enumerates l (sampleTree IterOrder.sorted).leaves ∧
        x ∈ treeHashed .hashOnly l} := by
    have hsub : ∀ x, (∃ l, Enumerates l (sampleTree IterOrder.sorted).leaves ∧
        x ∈ treeHashed .hashOnly l) → x ∈ sampleHashed := by
      intro x hx
      obtain ⟨l, hl, hx⟩ := hx
      rcases horders l hl with rfl | rfl
      · exact List.mem_append_left _ hx
      · exact List.mem_append_right _ hx
    intro x hx y hy
    exact sampleHashed_distinct x (hsub x hx) y (hsub y hy)
  intro hall
  have hcard := (calculateRoot_determined_iff .hashOnly _ hinj).mp hall
  rw [← hen.length_eq] at hcard
  exact absurd hcard (by decide)

theorem built_sampleTree (order : IterOrder Address Account) :
    Built .hashOnly (sampleTree order) := by
  simp only [sampleTree, sampleEntries, List.foldl_cons, List.foldl_nil]
  exact Built.update _ _ _ _ (Built.update _ _ _ _ Built.new)

set_option maxRecDepth 20000 in
/-- Two trees built by the same two updates, iterated in opposite orders, hold the same accounts
and have different roots. -/
theorem sampleTree_roots_differ :
    Built .hashOnly (sampleTree IterOrder.sorted) ∧
      Built .hashOnly (sampleTree IterOrder.sorted.reverse) ∧
      (sampleTree IterOrder.sorted).leaves = (sampleTree IterOrder.sorted.reverse).leaves ∧
      (sampleTree IterOrder.sorted).calculateRoot ≠
        (sampleTree IterOrder.sorted.reverse).calculateRoot := by
  refine ⟨built_sampleTree _, built_sampleTree _, ?_⟩
  decide +kernel

end Sample

end SparseMerkleTree

end CytahSpeed
