import CytahSpeed.Block
import CytahSpeed.FiniteMap

/-!
# The block store

The `blocks` column family of the store: a finite map from block hashes to blocks whose iterator
visits the keys in ascending order. A write may be refused by the database, in which case the
batch leaves no trace. The in-memory cache in front of the column family holds copies of its
entries and no call of the DAG layer deletes a block, so lookups are those of the column family.
-/

namespace CytahSpeed
open ByteString FiniteMap

structure BlockStore where
  blocks : Map BlockHash Block

namespace BlockStore

variable (s : BlockStore)

def empty : BlockStore := ⟨∅⟩

/-- `insert_block`; `writeError` is the error of the database write, if it fails. -/
def insertBlock (writeError : Option String) (block : Block) : Except String Unit × BlockStore :=
  match writeError with
  | some e => (.error ("Failed to write block: " ++ e), s)
  | none => (.ok (), ⟨s.blocks.insert block.hash block⟩)

def getBlock (hash : BlockHash) : Option Block := s.blocks.lookup hash

def blockExists (hash : BlockHash) : Bool := hash ∈ s.blocks

def getAllHashes : List BlockHash := sortedKeys s.blocks

def getAllBlocks : List Block := s.getAllHashes.filterMap s.getBlock

def blockCount : ℕ := s.getAllHashes.length

def references : Finset BlockHash :=
  (s.getAllBlocks.flatMap (·.header.parentHashes)).toFinset

/-- The parents of a stored block; none for a hash that is not stored. -/
def parentsOf (hash : BlockHash) : List BlockHash :=
  match s.getBlock hash with
  | some block => block.header.parentHashes
  | none => []

theorem blockCount_eq_card : s.blockCount = s.blocks.keys.card := length_sortedKeys s.blocks

@[simp] theorem blockExists_eq_true (hash : BlockHash) :
    s.blockExists hash = true ↔ ∃ b, s.getBlock hash = some b := by
  simp only [blockExists, getBlock, decide_eq_true_eq, Finmap.mem_iff]

@[simp] theorem mem_getAllHashes (hash : BlockHash) :
    hash ∈ s.getAllHashes ↔ ∃ b, s.getBlock hash = some b := by
  rw [getAllHashes, mem_sortedKeys, Finmap.mem_iff]
  rfl

theorem mem_getAllBlocks (b : Block) :
    b ∈ s.getAllBlocks ↔ ∃ hash, s.getBlock hash = some b := by
  rw [getAllBlocks, List.mem_filterMap]
  constructor
  · rintro ⟨hash, -, h⟩
    exact ⟨hash, h⟩
  · rintro ⟨hash, h⟩
    exact ⟨hash, (s.mem_getAllHashes hash).mpr ⟨b, h⟩, h⟩

theorem blockCount_eq_zero_iff : s.blockCount = 0 ↔ ∀ hash, s.getBlock hash = none := by
  rw [blockCount, List.length_eq_zero_iff, List.eq_nil_iff_forall_not_mem]
  apply forall_congr'
  intro hash
  rw [mem_getAllHashes]
  cases s.getBlock hash <;> simp

theorem parentsOf_eq {hash : BlockHash} {b : Block} (h : s.getBlock hash = some b) :
    s.parentsOf hash = b.header.parentHashes := by
  simp only [parentsOf, h]

theorem childless_iff (hash : BlockHash) :
    (∀ k, hash ∉ s.parentsOf k) ↔
      ∀ k b, s.getBlock k = some b → hash ∉ b.header.parentHashes := by
  constructor
  · intro hall k b hb
    have hk := hall k
    rwa [s.parentsOf_eq hb] at hk
  · intro hall k hk
    cases hb : s.getBlock k with
    | none => simp [parentsOf, hb] at hk
    | some b =>
      rw [s.parentsOf_eq hb] at hk
      exact hall k b hb hk

theorem mem_references_of_mem_parentsOf (hash p : BlockHash) (hp : p ∈ s.parentsOf hash) :
    p ∈ s.references := by
  cases h : s.getBlock hash with
  | none => simp [parentsOf, h] at hp
  | some b =>
    rw [s.parentsOf_eq h] at hp
    rw [references, List.mem_toFinset, List.mem_flatMap]
    exact ⟨b, (s.mem_getAllBlocks b).mpr ⟨hash, h⟩, hp⟩

end BlockStore

end CytahSpeed
