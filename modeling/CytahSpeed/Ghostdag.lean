import CytahSpeed.AppendOnly

/-!
# The GHOSTDAG engine's annotation

The engine scores a block by the blue blocks of its past, with a cache of scores, and annotates a
new block before it is inserted. The anticone it computes for a block of the past is empty, so
every block of the past is blue for every `k` and the score is the size of the past plus one.
-/

namespace CytahSpeed
open ByteString FiniteMap MachineInt Selection

namespace DagTraversal

variable (d : BlockDag)

/-- Ancestors found by a search that keeps its own set of visited blocks. -/
def getAncestors (hash : BlockHash) : Finset BlockHash :=
  Worklist.searchOnce d.store.parentsOf hash (d.store.references.card + 1) [hash] ∅ ∅

/-- The ancestors of the block that are neither the reference nor its ancestors. -/
def getAnticone (blockHash referenceHash : BlockHash) : Finset BlockHash :=
  (getAncestors d blockHash).filter (· ∉ insert referenceHash (getAncestors d referenceHash))

end DagTraversal

structure GhostdagEngine where
  k : ℕ
  dag : Option BlockDag
  blueScoreCache : Map BlockHash UInt64

namespace GhostdagEngine

variable (c : Crypto) (e : GhostdagEngine) (dag : BlockDag)

def new (k : ℕ) : GhostdagEngine := ⟨k, none, ∅⟩

def attachDag : GhostdagEngine := { e with dag := some dag, blueScoreCache := ∅ }

/-- The blue blocks among a block and its ancestors. -/
def blueCount (hash : BlockHash) : UInt64 :=
  let self := if (DagTraversal.getAnticone dag hash hash).card ≤ e.k then 1 else 0
  let ancestors := (DagTraversal.getAncestors dag hash).filter
    fun a => (DagTraversal.getAnticone dag a hash).card ≤ e.k
  UInt64.ofNat (self + ancestors.card)

def calculateBlueScore (hash : BlockHash) : Except String UInt64 × GhostdagEngine :=
  match e.dag with
  | none => (.error "DAG not attached", e)
  | some dag =>
    match e.blueScoreCache.lookup hash with
    | some cached => (.ok cached, e)
    | none =>
      let score := e.blueCount dag hash
      (.ok score, { e with blueScoreCache := e.blueScoreCache.insert hash score })

def getBlueScore (hash : BlockHash) : Except String UInt64 × GhostdagEngine :=
  match e.blueScoreCache.lookup hash with
  | some cached => (.ok cached, e)
  | none => e.calculateBlueScore hash

/-- `get_blue_score(hash).unwrap_or(0)`. -/
def blueScoreOr0 (hash : BlockHash) : UInt64 × GhostdagEngine :=
  match e.getBlueScore hash with
  | (.ok score, e') => (score, e')
  | (.error _, e') => (0, e')

/-- The loop over the remaining candidates, with the best parent and its score so far. -/
def selectLoop : List BlockHash → BlockHash × UInt64 → GhostdagEngine → BlockHash × GhostdagEngine
  | [], best, e => (best.1, e)
  | parent :: rest, best, e =>
    let s := e.blueScoreOr0 parent
    selectLoop rest
      (if s.1 > best.2 ∨ (s.1 = best.2 ∧ parent < best.1) then (parent, s.1) else best) s.2

def selectParentFromParents (parents : List BlockHash) :
    Except String BlockHash × GhostdagEngine :=
  match parents with
  | [] => (.error "No parent candidates provided", e)
  | first :: rest =>
    let s := e.blueScoreOr0 first
    let r := selectLoop rest (first, s.1) s.2
    (.ok r.1, r.2)

def maxScoreLoop : List BlockHash → UInt64 → GhostdagEngine → UInt64 × GhostdagEngine
  | [], best, e => (best, e)
  | parent :: rest, best, e =>
    let s := e.blueScoreOr0 parent
    maxScoreLoop rest (max best s.1) s.2

def calculateBlueScoreForNewBlock (block : Block) : Except String UInt64 × GhostdagEngine :=
  let r := maxScoreLoop block.header.parentHashes 0 e
  (.ok (satAdd r.1 1), r.2)

/-- `annotate_block`: the annotated block, or the error that left it as it was. -/
def annotateBlock (block : Block) : Except String Block × GhostdagEngine :=
  let selected : Except String (Option BlockHash) × GhostdagEngine :=
    if block.header.parentHashes.isEmpty then (.ok none, e)
    else
      match e.selectParentFromParents block.header.parentHashes with
      | (.error err, e') => (.error err, e')
      | (.ok parent, e') => (.ok (some parent), e')
  match selected with
  | (.error err, e') => (.error err, e')
  | (.ok selectedParent, e') =>
    let chainHeight :=
      match selectedParent with
      | some parent => satAdd ((dag.getBlockHeight parent).getD 0) 1
      | none => 0
    match e'.calculateBlueScoreForNewBlock block with
    | (.error err, e'') => (.error err, e'')
    | (.ok blueScore, e'') =>
      (.ok (block.setConsensusMetadata c selectedParent blueScore chainHeight
        (UInt64.ofNat dag.blockCount)), e'')

end GhostdagEngine

namespace BlockDag

variable {c : Crypto} {d : BlockDag}

def pastSize (d : BlockDag) (h : BlockHash) : ℕ := (d.getAncestors h).card

theorem getAncestors_subset_of_mem {h a : BlockHash} (ha : a ∈ d.getAncestors h) :
    d.getAncestors a ⊆ d.getAncestors h := by
  intro x hx
  have hha := (DagIndex.mem_getAllAncestors h a d.store).mp ha
  have hax := (DagIndex.mem_getAllAncestors a x d.store).mp hx
  exact (DagIndex.mem_getAllAncestors h x d.store).mpr (hha.trans hax)

theorem WellFormed.pastSize_lt (wf : WellFormed c d) {h : BlockHash} {s : Block}
    (hs : d.getBlock h = some s) : d.pastSize h < d.blockCount := by
  have hsub : insert h (d.getAncestors h) ⊆ d.store.blocks.keys := by
    intro x hx
    rw [Finmap.mem_keys, Finmap.mem_iff]
    rcases Finset.mem_insert.mp hx with rfl | hx
    · exact ⟨s, hs⟩
    · obtain ⟨-, q, -, hq, -⟩ := wf.ancestor hx
      exact ⟨q, hq⟩
  have hle := Finset.card_le_card hsub
  rw [Finset.card_insert_of_notMem (wf.notMem_getAncestors_self h)] at hle
  have hcount : d.blockCount = d.store.blocks.keys.card := BlockStore.blockCount_eq_card d.store
  rw [hcount]
  exact hle

theorem WellFormed.pastSize_of_not_stored (wf : WellFormed c d) {h : BlockHash}
    (hs : d.getBlock h = none) : d.pastSize h = 0 := by
  rw [pastSize, Finset.card_eq_zero, Finset.eq_empty_iff_forall_notMem]
  intro x hx
  obtain ⟨s, -, hs', -⟩ := wf.ancestor hx
  rw [hs] at hs'
  cases hs'

theorem WellFormed.getBlockHeight_eq (wf : WellFormed c d) {h : BlockHash} {s : Block}
    (hs : d.getBlock h = some s) : d.getBlockHeight h = some s.height := by
  have hch := (wf.placed h s hs).chainHeight
  simp only [getBlockHeight, hs, hch, wf.getBlockDepth_eq hs, Option.map_some]
  by_cases hpos : s.height > 0
  · rw [if_pos hpos, if_pos hpos]
  · have hzero : s.height = 0 := by
      apply UInt64.toNat_inj.mp
      rw [gt_iff_lt, UInt64.lt_iff_toNat_lt] at hpos
      exact Nat.eq_zero_of_not_pos hpos
    simp [hzero]

end BlockDag

namespace DagTraversal

variable {c : Crypto} {d : BlockDag}

theorem getAncestors_eq (wf : BlockDag.WellFormed c d) (h : BlockHash) :
    getAncestors d h = d.getAncestors h := by
  ext x
  rw [getAncestors, BlockDag.getAncestors, DagIndex.mem_getAllAncestors]
  refine Worklist.mem_searchOnce _ _ d.store.mem_references_of_mem_parentsOf h (fun hself => ?_) x
  exact wf.notMem_getAncestors_self h ((DagIndex.mem_getAllAncestors _ _ _).mpr hself)

theorem getAnticone_eq_empty (wf : BlockDag.WellFormed c d) {a h : BlockHash}
    (ha : a = h ∨ a ∈ d.getAncestors h) : getAnticone d a h = ∅ := by
  rw [getAnticone, getAncestors_eq wf, getAncestors_eq wf, Finset.filter_eq_empty_iff]
  intro x hx
  rw [not_not]
  apply Finset.mem_insert_of_mem
  rcases ha with rfl | ha
  · exact hx
  · exact BlockDag.getAncestors_subset_of_mem ha hx

end DagTraversal

namespace GhostdagEngine

variable {c : Crypto} {e : GhostdagEngine} {d : BlockDag}

def scoreAt (d : BlockDag) (h : BlockHash) : UInt64 := UInt64.ofNat (1 + d.pastSize h)

theorem blueCount_eq (wf : BlockDag.WellFormed c d) (e : GhostdagEngine) (h : BlockHash) :
    e.blueCount d h = scoreAt d h := by
  have hself : DagTraversal.getAnticone d h h = ∅ :=
    DagTraversal.getAnticone_eq_empty wf (Or.inl rfl)
  have hall : (DagTraversal.getAncestors d h).filter
      (fun a => (DagTraversal.getAnticone d a h).card ≤ e.k) = d.getAncestors h := by
    rw [DagTraversal.getAncestors_eq wf, Finset.filter_eq_self]
    intro a ha
    rw [DagTraversal.getAnticone_eq_empty wf (Or.inr ha), Finset.card_empty]
    exact Nat.zero_le _
  simp only [blueCount, hself, hall, Finset.card_empty, Nat.zero_le, if_true, scoreAt,
    BlockDag.pastSize]

theorem toNat_scoreAt (wf : BlockDag.WellFormed c d) (hc : d.blockCount < 2 ^ 64)
    (h : BlockHash) : (scoreAt d h).toNat = 1 + d.pastSize h := by
  apply toNat_ofNat_of_le
  cases hs : d.getBlock h with
  | none =>
    rw [wf.pastSize_of_not_stored hs]
    simp [u64Max]
  | some s =>
    have hlt := wf.pastSize_lt hs
    simp only [u64Max]
    omega

/-- The engine is attached to the DAG and its cache holds nothing but scores of it. -/
structure Coherent (e : GhostdagEngine) (d : BlockDag) : Prop where
  dag : e.dag = some d
  cache : ∀ h s, e.blueScoreCache.lookup h = some s → s = scoreAt d h

theorem coherent_attachDag (e : GhostdagEngine) (d : BlockDag) : Coherent (e.attachDag d) d := by
  refine ⟨rfl, ?_⟩
  intro h s hs
  simp [attachDag] at hs

theorem Coherent.blueScoreOr0 (h : Coherent e d) (wf : BlockDag.WellFormed c d)
    (hash : BlockHash) :
    (e.blueScoreOr0 hash).1 = scoreAt d hash ∧ Coherent (e.blueScoreOr0 hash).2 d := by
  cases hl : e.blueScoreCache.lookup hash with
  | some s =>
    have hs := h.cache hash s hl
    simp only [GhostdagEngine.blueScoreOr0, getBlueScore, hl]
    exact ⟨hs, h⟩
  | none =>
    simp only [GhostdagEngine.blueScoreOr0, getBlueScore, calculateBlueScore, hl, h.dag]
    refine ⟨blueCount_eq wf e hash, rfl, ?_⟩
    intro k s hs
    rw [lookup_insert_eq_ite] at hs
    by_cases hk : k = hash
    · rw [if_pos hk] at hs
      rw [← Option.some.inj hs, blueCount_eq wf, hk]
    · rw [if_neg hk] at hs
      exact h.cache k s hs

/-- Where every query for a candidate returns its score and keeps `P`, the loop compares the pasts
of the candidates and, among equals, their hashes. -/
theorem selectLoop_eq (wf : BlockDag.WellFormed c d) (hc : d.blockCount < 2 ^ 64)
    {P : GhostdagEngine → Prop} (rest : List BlockHash)
    (hscores : ∀ e, P e → ∀ a ∈ rest, (e.blueScoreOr0 a).1 = scoreAt d a ∧ P (e.blueScoreOr0 a).2)
    (best : BlockHash) (h : P e) :
    (selectLoop rest (best, scoreAt d best) e).1 = rest.foldl (fun best a =>
        if d.pastSize best < d.pastSize a ∨ (d.pastSize a = d.pastSize best ∧ a < best) then a
        else best) best ∧
      P (selectLoop rest (best, scoreAt d best) e).2 := by
  induction rest generalizing best e with
  | nil => exact ⟨rfl, h⟩
  | cons a rest ih =>
    obtain ⟨hscore, hnext⟩ := hscores e h a List.mem_cons_self
    have hscores' := fun e he x hx => hscores e he x (List.mem_cons_of_mem a hx)
    have hcond : (scoreAt d a > scoreAt d best ∨ (scoreAt d a = scoreAt d best ∧ a < best)) ↔
        (d.pastSize best < d.pastSize a ∨ (d.pastSize a = d.pastSize best ∧ a < best)) := by
      rw [gt_iff_lt, UInt64.lt_iff_toNat_lt, ← UInt64.toNat_inj, toNat_scoreAt wf hc,
        toNat_scoreAt wf hc]
      simp only [Nat.add_lt_add_iff_left, Nat.add_left_cancel_iff]
    rw [GhostdagEngine.selectLoop, List.foldl_cons]
    simp only [hscore, hcond]
    by_cases hb : d.pastSize best < d.pastSize a ∨ (d.pastSize a = d.pastSize best ∧ a < best)
    · rw [if_pos hb, if_pos hb]
      exact ih hscores' a hnext
    · rw [if_neg hb, if_neg hb]
      exact ih hscores' best hnext

theorem selectParentFromParents_isBest (wf : BlockDag.WellFormed c d) (hc : d.blockCount < 2 ^ 64)
    {P : GhostdagEngine → Prop} {parents : List BlockHash} (hne : parents ≠ [])
    (hscores : ∀ e, P e → ∀ a ∈ parents,
      (e.blueScoreOr0 a).1 = scoreAt d a ∧ P (e.blueScoreOr0 a).2) (h : P e) :
    ∃ p e', e.selectParentFromParents parents = (.ok p, e') ∧ IsBest d.pastSize parents p ∧
      P e' := by
  cases parents with
  | nil => exact absurd rfl hne
  | cons first rest =>
    obtain ⟨hscore, hnext⟩ := hscores e h first List.mem_cons_self
    obtain ⟨hbest, hlast⟩ := selectLoop_eq wf hc rest
      (fun e he x hx => hscores e he x (List.mem_cons_of_mem first hx)) first hnext
    refine ⟨_, _, rfl, ?_, ?_⟩
    · simp only [hscore, hbest]
      exact foldl_isBest d.pastSize first rest
    · simp only [hscore]
      exact hlast

theorem Coherent.selectParentFromParents (h : Coherent e d) (wf : BlockDag.WellFormed c d)
    (hc : d.blockCount < 2 ^ 64) {parents : List BlockHash} (hne : parents ≠ []) :
    ∃ p e', e.selectParentFromParents parents = (.ok p, e') ∧ IsBest d.pastSize parents p ∧
      Coherent e' d :=
  selectParentFromParents_isBest (P := fun e => Coherent e d) wf hc hne
    (fun _ h a _ => h.blueScoreOr0 wf a) h

theorem Coherent.maxScoreLoop (wf : BlockDag.WellFormed c d) (rest : List BlockHash)
    (best : UInt64) (h : Coherent e d) :
    (maxScoreLoop rest best e).1 = rest.foldl (fun best a => max best (scoreAt d a)) best ∧
      Coherent (maxScoreLoop rest best e).2 d := by
  induction rest generalizing best e with
  | nil => exact ⟨rfl, h⟩
  | cons a rest ih =>
    obtain ⟨hscore, hcoh⟩ := h.blueScoreOr0 wf a
    rw [GhostdagEngine.maxScoreLoop, List.foldl_cons]
    simp only [hscore]
    exact ih _ hcoh

end GhostdagEngine

end CytahSpeed
