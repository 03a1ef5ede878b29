import CytahSpeed.DagRun
import CytahSpeed.SyncManager

/-!
# The answer to a DAG request

A peer answers with the blocks of its DAG. The handler skips the blocks that fail their own checks
and inserts the others one after another, but `insert_block` also reports a block that is already
stored as an error, and the first error ends the handling. So a response is taken in completely
exactly when nothing new follows a block that the DAG refuses.
-/

namespace CytahSpeed
open ByteString FiniteMap StepRun BlockDag

namespace Received

variable (c : Crypto) (r : Received)

/-- The block passes `validate_basic` when the handler calls it. -/
def Valid : Prop := r.block.validateBasic c r.now = .ok ()

instance : Decidable (r.Valid c) := inferInstanceAs (Decidable (_ = _))

end Received

namespace SyncManager

variable (c : Crypto)

def insertReceived : BlockDag → List Received → Except String Unit × BlockDag
  | dag, [] => (.ok (), dag)
  | dag, r :: rest =>
    if r.Valid c then
      match dag.insertBlock c r.env r.block with
      | (.ok _, dag) => insertReceived dag rest
      | (.error e, dag) => (.error e, dag)
    else insertReceived dag rest

def handleDagResponse (s : SyncManager) (blocks : List Received) :
    Except String Unit × SyncManager :=
  let r := insertReceived c s.dag blocks
  (r.1, { s with dag := r.2 })

/-- The handler comes to the block, and `insert_block` takes it. -/
def Inserts (s : SyncManager) (blocks : List Received) (b : Block) : Prop :=
  ∃ pre r post, blocks = pre ++ r :: post ∧ r.Valid c ∧ r.block = b ∧
    (s.handleDagResponse c pre).1 = .ok () ∧
    ((s.handleDagResponse c pre).2.dag.insertBlock c r.env b).1 = .ok ()

def ToleratesOverlap (s : SyncManager) (blocks : List Received) : Prop :=
  ∀ r ∈ blocks, r.Valid c → s.dag.getBlock r.block.hash = none → Inserts c s blocks r.block

def offer (dag : BlockDag) (r : Received) : BlockDag :=
  if r.Valid c then (dag.insertBlock c r.env r.block).2 else dag

def Takes (dag : BlockDag) (r : Received) : Prop :=
  r.Valid c → Accepts c r.env dag r.block

variable {c} {dag : BlockDag} {blocks : List Received}

theorem insertReceived_of_takes (h : Along (offer c) (Takes c) dag blocks)
    (rest : List Received) :
    insertReceived c dag (blocks ++ rest) =
      insertReceived c (blocks.foldl (offer c) dag) rest := by
  induction blocks generalizing dag with
  | nil => rfl
  | cons r blocks ih =>
    rw [List.cons_append, insertReceived, List.foldl_cons, ← ih h.2]
    by_cases hvalid : r.Valid c
    · rw [if_pos hvalid, offer, if_pos hvalid, insertBlock_of_accepts (h.1 hvalid)]
    · rw [if_neg hvalid, offer, if_neg hvalid]

theorem insertReceived_of_refused {r : Received} (hvalid : r.Valid c)
    (h : ¬ Accepts c r.env dag r.block) (rest : List Received) :
    (insertReceived c dag (r :: rest)).1 ≠ .ok () := by
  rcases insertBlock_cases c r.env dag r.block with ⟨hacc, -⟩ | ⟨-, e, he⟩
  · exact absurd hacc h
  · rw [insertReceived, if_pos hvalid, he]
    simp

theorem insertReceived_ok_iff :
    (insertReceived c dag blocks).1 = .ok () ↔ Along (offer c) (Takes c) dag blocks := by
  constructor
  · intro hok
    rcases @along_or_fails _ _ (offer c) (Takes c) dag blocks with
      hall | ⟨pre, r, post, rfl, hpre, hfail⟩
    · exact hall
    · rw [Takes, Classical.not_imp] at hfail
      rw [insertReceived_of_takes hpre] at hok
      exact absurd hok (insertReceived_of_refused hfail.1 hfail.2 post)
  · intro h
    have hend := insertReceived_of_takes h []
    rw [List.append_nil] at hend
    rw [hend]
    rfl

theorem inserts_iff {s : SyncManager} {b : Block} :
    Inserts c s blocks b ↔ ∃ pre r post, blocks = pre ++ r :: post ∧ r.Valid c ∧ r.block = b ∧
      Along (offer c) (Takes c) s.dag (pre ++ [r]) := by
  constructor
  · rintro ⟨pre, r, post, hsplit, hvalid, rfl, hpre, hinsert⟩
    have htaken := insertReceived_ok_iff.mp hpre
    refine ⟨pre, r, post, hsplit, hvalid, rfl, (along_append _ _ _).mpr ⟨htaken, ?_, trivial⟩⟩
    intro _
    have hend := insertReceived_of_takes htaken []
    rw [List.append_nil] at hend
    rw [handleDagResponse, hend] at hinsert
    exact insertBlock_ok_iff.mp hinsert
  · rintro ⟨pre, r, post, hsplit, hvalid, rfl, h⟩
    obtain ⟨htaken, hr, -⟩ := (along_append _ _ _).mp h
    refine ⟨pre, r, post, hsplit, hvalid, rfl, insertReceived_ok_iff.mpr htaken, ?_⟩
    have hend := insertReceived_of_takes htaken []
    rw [List.append_nil] at hend
    rw [handleDagResponse, hend]
    exact insertBlock_ok_iff.mpr (hr hvalid)

theorem inserts_of_mem {s : SyncManager} {pre post : List Received} {r : Received}
    (h : Along (offer c) (Takes c) s.dag pre) (hr : r ∈ pre) (hvalid : r.Valid c) :
    Inserts c s (pre ++ post) r.block := by
  obtain ⟨before, after, rfl⟩ := List.append_of_mem hr
  rw [inserts_iff]
  refine ⟨before, r, after ++ post, by simp, hvalid, rfl, ?_⟩
  have hsplit : before ++ r :: after = (before ++ [r]) ++ after := by simp
  rw [hsplit] at h
  exact ((along_append _ _ _).mp h).1

/-- A response is taken in completely exactly when it consists of blocks that the DAG takes one
after another, and then of blocks it held from the start or that repeat an earlier one. -/
theorem toleratesOverlap_iff (c : Crypto) (s : SyncManager) (blocks : List Received) :
    ToleratesOverlap c s blocks ↔ ∃ pre post, blocks = pre ++ post ∧
      Along (offer c) (Takes c) s.dag pre ∧
      ∀ r ∈ post, r.Valid c → s.dag.getBlock r.block.hash ≠ none ∨
        ∃ r' ∈ pre, r'.Valid c ∧ r'.block = r.block := by
  constructor
  · intro h
    rcases @along_or_fails _ _ (offer c) (Takes c) s.dag blocks with
      hall | ⟨pre, f, post, rfl, hpre, hfail⟩
    · exact ⟨blocks, [], (List.append_nil _).symm, hall, by simp⟩
    · refine ⟨pre, f :: post, rfl, hpre, ?_⟩
      intro r hr hvalid
      by_cases hheld : s.dag.getBlock r.block.hash = none
      · right
        -- the place where `r` is inserted lies before the first refusal
        obtain ⟨before, r', after, hsplit, hvalid', hsame, htaken⟩ :=
          inserts_iff.mp (h r (List.mem_append_right _ hr) hvalid hheld)
        exact ⟨r', mem_of_along_of_fails hsplit hfail htaken, hvalid', hsame⟩
      · exact Or.inl hheld
  · rintro ⟨pre, post, rfl, hpre, hpost⟩ r hr hvalid hnew
    rcases List.mem_append.mp hr with hr | hr
    · exact inserts_of_mem hpre hr hvalid
    · rcases hpost r hr hvalid with hheld | ⟨r', hr', hvalid', hsame⟩
      · exact absurd hnew hheld
      · rw [← hsame]
        exact inserts_of_mem hpre hr' hvalid'

section Sample

def sampleHolder : SyncManager :=
  ⟨run .hashOnly [.createGenesisBlock 1000 sampleEnv], .new 10, ∅⟩

def sampleKnown : Received :=
  ⟨1001, ⟨1001, none⟩, empty.annotate .hashOnly (genesisBlock .hashOnly 1000)⟩

def sampleNew : Received :=
  ⟨1001, ⟨1001, none⟩, sampleHolder.dag.annotate .hashOnly (sampleChild 1001)⟩

set_option maxRecDepth 20000 in
theorem sampleNew_fresh :
    sampleNew.Valid .hashOnly ∧ sampleHolder.dag.getBlock sampleNew.block.hash = none ∧
      (sampleHolder.dag.insertBlock .hashOnly sampleNew.env sampleNew.block).1 = .ok () ∧
      (sampleHolder.handleDagResponse .hashOnly [sampleKnown]).1 ≠ .ok () ∧
      sampleKnown.block ≠ sampleNew.block := by
  unfold sampleNew sampleHolder sampleKnown sampleChild sampleRoot
  rw [Crypto.hashOnly_eq_strict]
  decide +kernel

/-- The child would be accepted, but the genesis block before it ends the handling. -/
theorem toleratesOverlap_sample :
    (sampleHolder.dag.insertBlock .hashOnly sampleNew.env sampleNew.block).1 = .ok () ∧
      ¬ ToleratesOverlap .hashOnly sampleHolder [sampleKnown, sampleNew] := by
  obtain ⟨hvalid, hnew, hok, hends, hne⟩ := sampleNew_fresh
  refine ⟨hok, ?_⟩
  intro h
  obtain ⟨pre, r, post, hsplit, -, hsame, hpre, -⟩ := h sampleNew (by simp) hvalid hnew
  match pre with
  | [] =>
    obtain ⟨rfl, -⟩ := List.cons.inj hsplit
    exact hne hsame
  | [g] =>
    obtain ⟨rfl, -⟩ := List.cons.inj hsplit
    exact hends hpre
  | _ :: _ :: _ => simp at hsplit

end Sample

end SyncManager

end CytahSpeed
