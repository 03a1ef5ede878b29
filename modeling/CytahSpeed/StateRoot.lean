import CytahSpeed.HashBinding
import CytahSpeed.StateTree

/-!
# What a state root covers

The root of a state tree determines the whole tree, and with it the accounts, as far as no two
strings hashed for the two trees collide. A leaf cannot pass for an inner node: its preimage is 52
bytes long and that of an inner node 64. Trees of different shapes are told apart on the way down,
so neither the number of accounts nor the order of the leaves has to be known.
-/

namespace CytahSpeed
open ByteString FiniteMap

def Account.preimage (a : Account) : List UInt8 := le64 a.balance ++ le64 a.nonce

theorem Account.preimage_injective : Function.Injective Account.preimage := by
  intro a a' h
  obtain ⟨hbalance, hnonce⟩ := List.append_inj h (by simp)
  cases a
  cases a'
  simp_all [le64_injective.eq_iff]

namespace MerkleNode

variable (c : Crypto)

def hashed : MerkleNode → List (List UInt8)
  | leaf _ key value => [value.preimage, leafPreimage c key value]
  | internal _ left right =>
    (left.hash.toList ++ right.hash.toList) :: (hashed left ++ hashed right)

def entries : MerkleNode → List (Address × Account)
  | leaf _ key value => [(key, value)]
  | internal _ left right => entries left ++ entries right

/-- Nodes made by `new_leaf` and `new_internal` only. -/
inductive WellHashed : MerkleNode → Prop
  | leaf (key : Address) (value : Account) : WellHashed (newLeaf c key value)
  | internal {left right : MerkleNode} :
    WellHashed left → WellHashed right → WellHashed (newInternal c left right)

variable {c}

theorem leafPreimage_inj {key key' : Address} {value value' : Account}
    (hcol : ¬ c.Collide value.preimage value'.preimage)
    (h : leafPreimage c key value = leafPreimage c key' value') : key = key' ∧ value = value' := by
  obtain ⟨hkey, hvalue⟩ := List.append_inj h (by simp)
  refine ⟨List.Vector.toList_injective hkey, ?_⟩
  by_contra hne
  exact hcol ⟨Account.preimage_injective.ne hne, List.Vector.toList_injective hvalue⟩

theorem length_leafPreimage (key : Address) (value : Account) :
    (leafPreimage c key value).length = 52 := by
  simp [leafPreimage]

/-- Nodes with one hash are equal, unless a string hashed for one of them collides with a string
hashed for the other. -/
theorem WellHashed.eq_of_hash_eq {n n' : MerkleNode} (hn : WellHashed c n)
    (hn' : WellHashed c n') (hcol : ∀ x ∈ n.hashed c, ∀ y ∈ n'.hashed c, ¬ c.Collide x y)
    (h : n.hash = n'.hash) : n = n' := by
  induction hn generalizing n' with
  | leaf key value =>
    simp only [newLeaf, hashed, List.forall_mem_cons] at hcol
    cases hn' with
    | leaf key' value' =>
      simp only [newLeaf, hashed, List.forall_mem_cons] at hcol
      have hpre : leafPreimage c key value = leafPreimage c key' value' := by
        by_contra hne
        exact hcol.2.1.2.1 ⟨hne, h⟩
      obtain ⟨rfl, rfl⟩ := leafPreimage_inj hcol.1.1 hpre
      rfl
    | @internal left right hleft hright =>
      simp only [newInternal, hashed, List.forall_mem_cons] at hcol
      refine absurd ⟨fun hpre => ?_, h⟩ hcol.2.1.1
      have hlen := congrArg List.length hpre
      simp [length_leafPreimage] at hlen
  | @internal left right hleft hright ihleft ihright =>
    simp only [newInternal, hashed, List.forall_mem_cons, List.forall_mem_append] at hcol
    cases hn' with
    | leaf key' value' =>
      simp only [newLeaf, hashed, List.forall_mem_cons] at hcol
      refine absurd ⟨fun hpre => ?_, h⟩ hcol.1.2.1
      have hlen := congrArg List.length hpre
      simp [length_leafPreimage] at hlen
    | @internal left' right' hleft' hright' =>
      simp only [newInternal, hashed, List.forall_mem_cons, List.forall_mem_append] at hcol
      have hpre : left.hash.toList ++ right.hash.toList =
          left'.hash.toList ++ right'.hash.toList := by
        by_contra hne
        exact hcol.1.1 ⟨hne, h⟩
      obtain ⟨hl, hr⟩ := List.append_inj hpre (by simp)
      rw [ihleft hleft' (fun x hx => (hcol.2.1 x hx).2.1) (List.Vector.toList_injective hl),
        ihright hright' (fun x hx => (hcol.2.2 x hx).2.2) (List.Vector.toList_injective hr)]

end MerkleNode

namespace SparseMerkleTree

variable {c : Crypto} {t t' : SparseMerkleTree}

variable (c) in
def hashed (t : SparseMerkleTree) : List (List UInt8) :=
  match t.root with
  | some root => root.hashed c
  | none => []

theorem wellHashed_of_rootOf {l : List (Address × Account)} {root : MerkleNode}
    (h : rootOf c l = some root) : root.WellHashed c := by
  apply LevelTree.root_closed (fun _ _ => MerkleNode.WellHashed.internal) _ h
  intro n hn
  obtain ⟨e, -, rfl⟩ := List.mem_map.mp hn
  exact MerkleNode.WellHashed.leaf e.1 e.2

theorem entries_of_rootOf {l : List (Address × Account)} {root : MerkleNode}
    (h : rootOf c l = some root) : root.entries = l := by
  have hjoin : ∀ left right, (MerkleNode.newInternal c left right).entries =
      left.entries ++ right.entries := fun _ _ => rfl
  rw [LevelTree.flatMap_root hjoin h, List.flatMap_map]
  simp [MerkleNode.newLeaf, MerkleNode.entries]

theorem Built.exists_root (h : Built c t) (hne : t.leaves ≠ ∅) :
    ∃ root, t.root = some root ∧ root.WellHashed c ∧ Enumerates root.entries t.leaves := by
  obtain ⟨l, hl, hroot⟩ := h.root_eq
  have hnil : l ≠ [] := by
    rintro rfl
    refine hne (Finmap.ext_lookup fun k => ?_)
    rw [← find?_of_enumerates hl k]
    simp
  obtain ⟨root, hr⟩ := LevelTree.exists_root (MerkleNode.newInternal c)
    (l.map fun e => MerkleNode.newLeaf c e.1 e.2) (by simpa using hnil)
  refine ⟨root, by rw [hroot, rootOf, hr], wellHashed_of_rootOf hr, ?_⟩
  rw [entries_of_rootOf hr]
  exact hl

/-- Trees with one root hold the same accounts, unless a string hashed for one of them collides
with a string hashed for the other. -/
theorem calculateRoot_binds (c : Crypto) (t t' : SparseMerkleTree) (ht : Built c t)
    (ht' : Built c t') (hne : t.leaves ≠ ∅) (hne' : t'.leaves ≠ ∅)
    (h : t.calculateRoot = t'.calculateRoot) :
    (∃ x ∈ t.hashed c, ∃ y ∈ t'.hashed c, c.Collide x y) ∨ t.leaves = t'.leaves := by
  obtain ⟨root, hroot, hhashed, hentries⟩ := ht.exists_root hne
  obtain ⟨root', hroot', hhashed', hentries'⟩ := ht'.exists_root hne'
  simp only [calculateRoot, hroot, hroot'] at h
  simp only [hashed, hroot, hroot']
  by_cases hcol : ∃ x ∈ root.hashed c, ∃ y ∈ root'.hashed c, c.Collide x y
  · exact Or.inl hcol
  · right
    have heq : root = root' := by
      apply hhashed.eq_of_hash_eq hhashed' _ h
      intro x hx y hy hxy
      exact hcol ⟨x, hx, y, hy, hxy⟩
    subst heq
    refine Finmap.ext_lookup fun k => ?_
    rw [← find?_of_enumerates hentries k, ← find?_of_enumerates hentries' k]

section Sample

/-- Three accounts: the first two share an inner node, the third is promoted. -/
def sampleThree : List (Address × Account) :=
  [(Bytes.fill 20 1, ⟨7, 0⟩), (Bytes.fill 20 2, ⟨8, 1⟩), (Bytes.fill 20 3, ⟨9, 2⟩)]

def sampleUpdates (entries : List (Address × Account)) : SparseMerkleTree :=
  entries.foldl (fun t e => t.updateAccount .hashOnly IterOrder.sorted e.1 e.2) new

def sampleOnce : SparseMerkleTree := sampleUpdates sampleThree

/-- The same accounts in another order, one of them written over an older value. -/
def sampleTwice : SparseMerkleTree :=
  sampleUpdates ((Bytes.fill 20 2, ⟨5, 0⟩) :: sampleThree.reverse)

theorem built_sampleUpdates (entries : List (Address × Account)) :
    Built .hashOnly (sampleUpdates entries) := by
  induction entries using List.reverseRecOn with
  | nil => exact .new
  | append_singleton entries e ih =>
    unfold sampleUpdates
    rw [List.foldl_append]
    exact .update _ _ _ _ ih

set_option maxRecDepth 20000 in
theorem sampleUpdates_evaluated :
    IterOrder.sorted.iter sampleOnce.leaves = sampleThree ∧
      (sampleOnce.leaves ≠ ∅ ∧ sampleTwice.leaves ≠ ∅) ∧
      sampleOnce.calculateRoot = sampleTwice.calculateRoot ∧
      ∀ x ∈ sampleOnce.hashed .hashOnly, ∀ y ∈ sampleTwice.hashed .hashOnly,
        Crypto.hashOnly.sha256 x = Crypto.hashOnly.sha256 y → x = y := by
  unfold sampleOnce sampleTwice sampleUpdates
  rw [Crypto.hashOnly_eq_strict]
  decide +kernel

theorem calculateRoot_binds_sample :
    sampleOnce.leaves = sampleTwice.leaves ∧
      IterOrder.sorted.iter sampleTwice.leaves = sampleThree := by
  obtain ⟨hiter, ⟨hne, hne'⟩, hroot, hdistinct⟩ := sampleUpdates_evaluated
  have hleaves : sampleOnce.leaves = sampleTwice.leaves := by
    refine (calculateRoot_binds .hashOnly sampleOnce sampleTwice (built_sampleUpdates _)
      (built_sampleUpdates _) hne hne' hroot).resolve_left ?_
    rintro ⟨x, hx, y, hy, hxy, hdigest⟩
    exact hxy (hdistinct x hx y hy hdigest)
  exact ⟨hleaves, hleaves ▸ hiter⟩

end Sample

end SparseMerkleTree

end CytahSpeed
