import CytahSpeed.ProducerAnnotation
import CytahSpeed.TopologicalOrder

/-!
# Validation of a whole DAG

`validate` recomputes every hash, looks up every parent and then checks the genesis block: in a
DAG with more than one tip no stored block may name it as a parent. Meant to find a genesis block
that is still marked as a tip, the last check never asks whether it is marked, so a DAG that
forked is refused. `validate_ok_iff` says what passes, for any store.
-/

namespace CytahSpeed
open ByteString FiniteMap

/-- The first stored block whose hash is not the recomputed one is an error. -/
def BlockStore.verifyIntegrity (c : Crypto) (s : BlockStore) : Except String Unit :=
  match s.getAllBlocks.find? (fun block => block.hash ≠ block.calculateHash c) with
  | some block =>
    .error ("Block hash mismatch detected: stored=" ++ hexEncode block.hash.toList ++
      " computed=" ++ hexEncode (block.calculateHash c).toList)
  | none => .ok ()

namespace BlockDag

variable (c : Crypto) (d : BlockDag)

def parentEntries : List (BlockHash × BlockHash) :=
  d.store.getAllBlocks.flatMap fun block => block.header.parentHashes.map fun p => (block.hash, p)

def rootReferenced (block : Block) : Bool :=
  block.header.parentHashes.isEmpty && decide (d.getTips.card > 1) &&
    d.store.getAllBlocks.any fun b => b.header.parentHashes.contains block.hash

def validate : Except String Unit :=
  match d.store.verifyIntegrity c with
  | .error e => .error e
  | .ok _ =>
    match d.parentEntries.find? (fun entry => ! d.store.blockExists entry.2) with
    | some entry =>
      .error ("Block " ++ hexEncode entry.1.toList ++ " references non-existent parent " ++
        hexEncode entry.2.toList)
    | none =>
      if d.store.getAllHashes.length ≠ d.store.getAllHashes.toFinset.card then
        .error "Duplicate block hashes detected"
      else if d.store.getAllBlocks.isEmpty then
        .error "DAG must have at least one block (genesis)"
      else if d.store.getAllBlocks.any d.rootReferenced then
        .error "Genesis block is referenced but still marked as tip"
      else .ok ()

/-- A stored block with a wrong hash or a missing parent. -/
def Flawed : Prop :=
  ∃ h s, d.getBlock h = some s ∧
    (s.hash ≠ s.calculateHash c ∨ ∃ p ∈ s.header.parentHashes, d.getBlock p = none)

variable {c} {d}

theorem verifyIntegrity_ok_iff : d.store.verifyIntegrity c = .ok () ↔
    ∀ h s, d.getBlock h = some s → s.hash = s.calculateHash c := by
  rw [BlockStore.verifyIntegrity]
  cases hfind : d.store.getAllBlocks.find? fun block => decide (block.hash ≠ block.calculateHash c)
    with
  | none =>
    refine iff_of_true rfl fun h s hs => ?_
    have hok := List.find?_eq_none.mp hfind s ((d.store.mem_getAllBlocks s).mpr ⟨h, hs⟩)
    simpa using hok
  | some s =>
    obtain ⟨h, hs⟩ := (d.store.mem_getAllBlocks s).mp (List.mem_of_find?_eq_some hfind)
    have hne := List.find?_some hfind
    refine iff_of_false (fun he => by cases he) fun hall => ?_
    simp [hall h s hs] at hne

theorem find?_parentEntries_eq_none_iff :
    d.parentEntries.find? (fun entry => ! d.store.blockExists entry.2) = none ↔
      ∀ h s, d.getBlock h = some s → ∀ p ∈ s.header.parentHashes, ∃ q, d.getBlock p = some q := by
  rw [List.find?_eq_none]
  constructor
  · intro hall h s hs p hp
    have hmem : (s.hash, p) ∈ d.parentEntries := by
      refine List.mem_flatMap.mpr ⟨s, (d.store.mem_getAllBlocks s).mpr ⟨h, hs⟩, ?_⟩
      exact List.mem_map.mpr ⟨p, hp, rfl⟩
    have hexists := hall _ hmem
    rw [Bool.not_eq_true', Bool.not_eq_false] at hexists
    exact (d.store.blockExists_eq_true p).mp hexists
  · intro hall entry hentry
    obtain ⟨s, hs, hmap⟩ := List.mem_flatMap.mp hentry
    obtain ⟨h, hs⟩ := (d.store.mem_getAllBlocks s).mp hs
    obtain ⟨p, hp, rfl⟩ := List.mem_map.mp hmap
    rw [Bool.not_eq_true', Bool.not_eq_false]
    exact (d.store.blockExists_eq_true p).mpr (hall h s hs p hp)

theorem rootReferenced_iff (s : Block) : d.rootReferenced s = true ↔
    s.header.parentHashes = [] ∧ 1 < d.getTips.card ∧
      ∃ h b, d.getBlock h = some b ∧ s.hash ∈ b.header.parentHashes := by
  simp only [rootReferenced, Bool.and_eq_true, List.isEmpty_iff, decide_eq_true_eq,
    List.any_eq_true, BlockStore.mem_getAllBlocks, and_assoc, gt_iff_lt, List.contains_iff_mem]
  refine and_congr_right fun _ => and_congr_right fun _ => ?_
  constructor
  · rintro ⟨b, ⟨h, hb⟩, hmem⟩
    exact ⟨h, b, hb, hmem⟩
  · rintro ⟨h, b, hb, hmem⟩
    exact ⟨b, ⟨h, hb⟩, hmem⟩

theorem not_flawed_iff : ¬ d.Flawed c ↔
    (∀ h s, d.getBlock h = some s → s.hash = s.calculateHash c) ∧
      ∀ h s, d.getBlock h = some s → ∀ p ∈ s.header.parentHashes, ∃ q, d.getBlock p = some q := by
  simp only [Flawed, not_exists, not_and, not_or, not_not, ← Option.ne_none_iff_exists']
  exact ⟨fun h => ⟨fun k s hs => (h k s hs).1, fun k s hs => (h k s hs).2⟩,
    fun h k s hs => ⟨h.1 k s hs, h.2 k s hs⟩⟩

theorem getAllBlocks_isEmpty_iff : d.store.getAllBlocks.isEmpty = true ↔ d.blockCount = 0 := by
  rw [List.isEmpty_iff, List.eq_nil_iff_forall_not_mem, blockCount,
    BlockStore.blockCount_eq_zero_iff]
  constructor
  · intro hnone h
    rw [Option.eq_none_iff_forall_ne_some]
    exact fun s hs => hnone s ((d.store.mem_getAllBlocks s).mpr ⟨h, hs⟩)
  · intro hnone s hs
    obtain ⟨h, hs⟩ := (d.store.mem_getAllBlocks s).mp hs
    rw [hnone h] at hs
    cases hs

/-- Some block without parents is named as a parent while there are several tips. -/
def ForkedRoot (d : BlockDag) : Prop :=
  1 < d.getTips.card ∧ ∃ h s k b, d.getBlock h = some s ∧ s.header.parentHashes = [] ∧
    d.getBlock k = some b ∧ s.hash ∈ b.header.parentHashes

theorem any_rootReferenced_iff :
    d.store.getAllBlocks.any d.rootReferenced = true ↔ d.ForkedRoot := by
  simp only [List.any_eq_true, rootReferenced_iff, BlockStore.mem_getAllBlocks]
  constructor
  · rintro ⟨s, ⟨h, hs⟩, hnil, hcard, k, b, hb, hmem⟩
    exact ⟨hcard, h, s, k, b, hs, hnil, hb, hmem⟩
  · rintro ⟨hcard, h, s, k, b, hs, hnil, hb, hmem⟩
    exact ⟨s, ⟨h, hs⟩, hnil, hcard, k, b, hb, hmem⟩

theorem validate_ok_iff : d.validate c = .ok () ↔
    ¬ d.Flawed c ∧ d.blockCount ≠ 0 ∧ ¬ d.ForkedRoot := by
  have hnodup : d.store.getAllHashes.length = d.store.getAllHashes.toFinset.card :=
    (List.toFinset_card_of_nodup (nodup_sortedKeys d.store.blocks)).symm
  rw [not_flawed_iff, ← verifyIntegrity_ok_iff, ← find?_parentEntries_eq_none_iff,
    ← any_rootReferenced_iff, ne_eq, ← getAllBlocks_isEmpty_iff, validate]
  cases d.store.verifyIntegrity c with
  | error e => simp
  | ok u =>
    cases d.parentEntries.find? fun entry => ! d.store.blockExists entry.2 with
    | some entry => simp
    | none =>
      cases d.store.getAllBlocks.isEmpty <;> cases d.store.getAllBlocks.any d.rootReferenced <;>
        simp [hnodup]

theorem validate_of_forkedRoot (hflawed : ¬ d.Flawed c) (hcount : d.blockCount ≠ 0)
    (hforked : d.ForkedRoot) :
    d.validate c = .error "Genesis block is referenced but still marked as tip" := by
  have hnodup : d.store.getAllHashes.length = d.store.getAllHashes.toFinset.card :=
    (List.toFinset_card_of_nodup (nodup_sortedKeys d.store.blocks)).symm
  obtain ⟨hverified, hparents⟩ := not_flawed_iff.mp hflawed
  have hempty : d.store.getAllBlocks.isEmpty = false :=
    Bool.eq_false_iff.mpr (mt getAllBlocks_isEmpty_iff.mp hcount)
  simp [validate, verifyIntegrity_ok_iff.mpr hverified,
    find?_parentEntries_eq_none_iff.mpr hparents, hnodup, hempty,
    any_rootReferenced_iff.mpr hforked]

theorem validate_error_of_flawed (h : d.Flawed c) : ∃ e, d.validate c = .error e := by
  cases hv : d.validate c with
  | error e => exact ⟨e, rfl⟩
  | ok u => exact absurd h (validate_ok_iff.mp hv).1

namespace Intact

variable (h : Intact c d)
include h

theorem not_flawed : ¬ d.Flawed c := by
  rw [not_flawed_iff]
  refine ⟨fun k s hs => (h.wellFormed.hash k s hs).2, fun k s hs p hp => ?_⟩
  obtain ⟨q, hq, -⟩ := (h.wellFormed.placed k s hs).parent p hp
  exact ⟨q, hq⟩

/-- Of two tips one is not the genesis block, so the genesis block has a child. -/
theorem forkedRoot_iff : d.ForkedRoot ↔ 1 < d.getTips.card := by
  refine ⟨And.left, fun hcard => ⟨hcard, ?_⟩⟩
  have hsub : d.getTips ⊆ d.store.blocks.keys := by
    intro t ht
    obtain ⟨s, hs⟩ := ((h.indexes.tips t).mp ht).1
    exact (Finmap.mem_keys).mpr (Finmap.mem_iff.mpr ⟨s, hs⟩)
  have hcount : d.blockCount = d.store.blocks.keys.card := BlockStore.blockCount_eq_card d.store
  have hle := Finset.card_le_card hsub
  obtain ⟨k, b, hb, hone⟩ := h.wellFormed.topo_surj 1 (by omega)
  have hne : b.header.parentHashes ≠ [] := by
    intro hnil
    have hzero := (h.wellFormed.placed k b hb).root.mp hnil
    omega
  obtain ⟨p, hp⟩ := List.exists_mem_of_ne_nil _ hne
  obtain ⟨q, hq, hlt⟩ := (h.wellFormed.placed k b hb).parent p hp
  refine ⟨p, q, k, b, hq, (h.wellFormed.placed p q hq).root.mpr (by omega), hb, ?_⟩
  rw [(h.wellFormed.hash p q hq).1]
  exact hp

end Intact

/-- The DAG after a sound run that stored something passes validation, and flawed stores never do,
exactly if it has no more than one tip. -/
theorem validate_correct_iff (c : Crypto) (calls : List Call) (h : Sound c calls)
    (hne : (run c calls).blockCount ≠ 0) :
    ((run c calls).validate c = .ok () ∧
        ∀ d : BlockDag, d.Flawed c → ∃ e, d.validate c = .error e) ↔
      (run c calls).getTips.card ≤ 1 := by
  have hint := h.intact
  rw [validate_ok_iff, hint.forkedRoot_iff, Nat.not_lt]
  exact ⟨fun hall => hall.1.2.2,
    fun hcard => ⟨⟨hint.not_flawed, hne, hcard⟩, fun d => validate_error_of_flawed⟩⟩

theorem validate_correct_sample : (run .hashOnly sampleCalls).validate .hashOnly = .ok () := by
  obtain ⟨hsound, hcount, -⟩ := sampleCalls_evaluated
  refine ((validate_correct_iff .hashOnly sampleCalls hsound (by omega)).mpr ?_).1
  rw [sampleCalls_index.1, Finset.card_singleton]

/-- Two children of the genesis block make the whole DAG invalid. -/
theorem validate_refuses_fork :
    Sound .hashOnly sampleFork ∧ (run .hashOnly sampleFork).blockCount ≠ 0 ∧
      (run .hashOnly sampleFork).validate .hashOnly =
        .error "Genesis block is referenced but still marked as tip" := by
  obtain ⟨hsound, hcount, ⟨-, hcard⟩, -⟩ := sampleFork_evaluated
  have hne : (run .hashOnly sampleFork).blockCount ≠ 0 := by omega
  have hforked : (run .hashOnly sampleFork).ForkedRoot :=
    hsound.intact.forkedRoot_iff.mpr (by omega)
  exact ⟨hsound, hne, validate_of_forkedRoot hsound.intact.not_flawed hne hforked⟩

end BlockDag

end CytahSpeed
