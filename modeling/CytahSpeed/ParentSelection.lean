import CytahSpeed.Ancestry
import CytahSpeed.BlueScore

/-!
# Parent selection

Three loops choose one parent of a block. `select_parent` and `select_parent_from_parents` of the
GHOSTDAG engine agree whatever was asked before: the parent with the highest score, and among
those the least hash. The finality engine takes the first parent with the highest score, and
insertion has stored the last one of greatest height, so all three choices coincide only for some
parent lists.
-/

namespace CytahSpeed
open ByteString FiniteMap MachineInt Selection

namespace GhostdagEngine

/-- "Sort by score (descending), then by hash (ascending) for determinism." -/
def ScoredBefore (a b : BlockHash × UInt64) : Prop := b.2 < a.2 ∨ (b.2 = a.2 ∧ a.1 ≤ b.1)

instance : DecidableRel ScoredBefore := fun _ _ => inferInstanceAs (Decidable (_ ∨ _))

theorem scoredBefore_iff {a b : BlockHash × UInt64} : ScoredBefore a b ↔
    b.2.toNat < a.2.toNat ∨ (b.2.toNat = a.2.toNat ∧ a.1 ≤ b.1) := by
  rw [ScoredBefore, UInt64.lt_iff_toNat_lt, UInt64.toNat_inj]

instance : Std.Total ScoredBefore where
  total a b := by
    rw [scoredBefore_iff, scoredBefore_iff]
    rcases Nat.lt_trichotomy a.2.toNat b.2.toNat with h | h | h
    · exact Or.inr (Or.inl h)
    · exact (le_total a.1 b.1).imp (fun hle => Or.inr ⟨h.symm, hle⟩) fun hle => Or.inr ⟨h, hle⟩
    · exact Or.inl (Or.inl h)

instance : IsTrans (BlockHash × UInt64) ScoredBefore where
  trans a b c hab hbc := by
    rw [scoredBefore_iff] at *
    rcases hab with hab | ⟨hab, hle⟩
    · exact Or.inl (by omega)
    · rcases hbc with hbc | ⟨hbc, hle'⟩
      · exact Or.inl (by omega)
      · exact Or.inr ⟨by omega, hle.trans hle'⟩

instance : Std.Antisymm ScoredBefore where
  antisymm a b hab hba := by
    rw [scoredBefore_iff] at hab hba
    rcases hab with hab | ⟨hab, hle⟩
    · omega
    · rcases hba with hba | ⟨hba, hle'⟩
      · omega
      · exact Prod.ext (le_antisymm hle hle') (UInt64.toNat_inj.mp hba)

def scoreParents : List BlockHash → List (BlockHash × UInt64) → GhostdagEngine →
    Except String (List (BlockHash × UInt64)) × GhostdagEngine
  | [], parentScores, e => (.ok parentScores, e)
  | parent :: rest, parentScores, e =>
    match e.calculateBlueScore parent with
    | (.error err, e') => (.error err, e')
    | (.ok score, e') => scoreParents rest (parentScores ++ [(parent, score)]) e'

/-- "Returns parent with highest blue score, ties broken by hash ordering." -/
def selectParent (e : GhostdagEngine) (blockHash : BlockHash) :
    Except String BlockHash × GhostdagEngine :=
  match e.dag with
  | none => (.error "DAG not attached", e)
  | some dag =>
    match DagTraversal.getParents dag blockHash with
    | [] => (.error "Block has no parents", e)
    | [parent] => (.ok parent, e)
    | parents =>
      match scoreParents parents [] e with
      | (.error err, e') => (.error err, e')
      | (.ok parentScores, e') =>
        match parentScores.insertionSort ScoredBefore with
        | best :: _ => (.ok best.1, e')
        -- an access out of bounds, which needs a block without parents
        | [] => (.error "index out of bounds: the len is 0 but the index is 0", e')

/-- The parent has the highest score that the engine gives to any of them, and the least hash
among those of that score. -/
def Selects (e : GhostdagEngine) (parents : List BlockHash) (p : BlockHash) : Prop :=
  p ∈ parents ∧ ∃ top, (e.getBlueScore p).1 = .ok top ∧ ∀ q ∈ parents, ∃ score,
    (e.getBlueScore q).1 = .ok score ∧ (score < top ∨ (score = top ∧ p ≤ q))

section Follows
variable {c : Crypto} {d : BlockDag} {e : GhostdagEngine} {parents : List BlockHash}

theorem Follows.blueScoreOr0 (h : e.Follows d) (wf : BlockDag.WellFormed c d) {hash : BlockHash}
    {s : Block} (hs : d.getBlock hash = some s) :
    (e.blueScoreOr0 hash).1 = scoreAt d hash ∧ (e.blueScoreOr0 hash).2.Follows d := by
  obtain ⟨hscore, hnext⟩ := h.getBlueScore wf hs
  rw [GhostdagEngine.blueScoreOr0]
  cases hr : e.getBlueScore hash with
  | mk result e' =>
    rw [hr] at hscore hnext
    subst hscore
    exact ⟨rfl, hnext⟩

theorem calculateBlueScore_eq {dag : BlockDag} (hdag : e.dag = some dag) (hash : BlockHash) :
    e.calculateBlueScore hash = e.getBlueScore hash := by
  rw [getBlueScore]
  cases hl : e.blueScoreCache.lookup hash with
  | some score => simp only [calculateBlueScore, hdag, hl]
  | none => rfl

theorem Follows.scoreParents (h : e.Follows d) (wf : BlockDag.WellFormed c d)
    (hstored : ∀ p ∈ parents, ∃ q, d.getBlock p = some q)
    (parentScores : List (BlockHash × UInt64)) :
    ∃ e', scoreParents parents parentScores e =
      (.ok (parentScores ++ parents.map fun p => (p, scoreAt d p)), e') := by
  induction parents generalizing e parentScores with
  | nil => exact ⟨e, by simp [GhostdagEngine.scoreParents]⟩
  | cons parent rest ih =>
    obtain ⟨q, hq⟩ := hstored parent List.mem_cons_self
    obtain ⟨hscore, hnext⟩ := h.getBlueScore wf hq
    obtain ⟨index, hdag⟩ := h.dag
    rw [GhostdagEngine.scoreParents, calculateBlueScore_eq hdag]
    cases hr : e.getBlueScore parent with
    | mk result e' =>
      rw [hr] at hscore hnext
      subst hscore
      obtain ⟨e'', hrest⟩ := ih hnext (fun p hp => hstored p (List.mem_cons_of_mem parent hp))
        (parentScores ++ [(parent, scoreAt d parent)])
      exact ⟨e'', by simp [hrest]⟩

theorem isBest_of_sorted (wf : BlockDag.WellFormed c d) (hc : d.blockCount < 2 ^ 64)
    {best : BlockHash × UInt64} (hmem : best ∈ parents.map fun p => (p, scoreAt d p))
    (hfirst : ∀ y ∈ parents.map fun p => (p, scoreAt d p), ScoredBefore best y) :
    IsBest d.pastSize parents best.1 := by
  obtain ⟨p, hp, rfl⟩ := List.mem_map.mp hmem
  refine ⟨hp, fun q hq => ?_⟩
  change d.pastSize q < d.pastSize p ∨ (d.pastSize q = d.pastSize p ∧ p ≤ q)
  have hbefore := scoredBefore_iff.mp (hfirst _ (List.mem_map_of_mem hq))
  simp only [toNat_scoreAt wf hc] at hbefore
  rcases hbefore with hlt | ⟨heq, hle⟩
  · exact Or.inl (by omega)
  · exact Or.inr ⟨by omega, hle⟩

theorem Follows.selectParent (h : e.Follows d) (wf : BlockDag.WellFormed c d)
    (hc : d.blockCount < 2 ^ 64) {hash : BlockHash} {b : Block} (hb : d.getBlock hash = some b)
    (hne : b.header.parentHashes ≠ []) :
    ∃ p, (e.selectParent hash).1 = .ok p ∧ IsBest d.pastSize b.header.parentHashes p := by
  obtain ⟨index, hdag⟩ := h.dag
  have hparents : DagTraversal.getParents ⟨d.store, index⟩ hash = b.header.parentHashes :=
    d.store.parentsOf_eq hb
  have hstored := fun p hp => ((wf.placed hash b hb).parent p hp).imp fun _ hq => hq.1
  simp only [GhostdagEngine.selectParent, hdag, hparents]
  generalize b.header.parentHashes = parents at hne hstored
  match parents with
  | [] => exact absurd rfl hne
  | [parent] =>
    refine ⟨parent, rfl, List.mem_singleton_self parent, fun y hy => Or.inr ?_⟩
    obtain rfl := List.mem_singleton.mp hy
    exact ⟨rfl, le_rfl⟩
  | first :: second :: rest =>
    obtain ⟨e', hscored⟩ := h.scoreParents wf hstored []
    rw [List.nil_append] at hscored
    obtain ⟨best, others, hsort, hmem, hfirst⟩ :=
      exists_insertionSort_eq_cons ScoredBefore
        (l := (first :: second :: rest).map fun p => (p, scoreAt d p)) (by simp)
    refine ⟨best.1, ?_, isBest_of_sorted wf hc hmem hfirst⟩
    dsimp only
    rw [hscored]
    dsimp only
    rw [hsort]

theorem Follows.selectParentFromParents (h : e.Follows d) (wf : BlockDag.WellFormed c d)
    (hc : d.blockCount < 2 ^ 64) (hne : parents ≠ [])
    (hstored : ∀ p ∈ parents, ∃ q, d.getBlock p = some q) :
    ∃ p, (e.selectParentFromParents parents).1 = .ok p ∧ IsBest d.pastSize parents p := by
  obtain ⟨p, e', hsel, hbest, -⟩ := selectParentFromParents_isBest (P := fun e => e.Follows d) wf hc
    hne (fun e he a ha => (hstored a ha).elim fun q hq => he.blueScoreOr0 wf hq) h
  exact ⟨p, by rw [hsel], hbest⟩

theorem Follows.selects (h : e.Follows d) (wf : BlockDag.WellFormed c d)
    (hc : d.blockCount < 2 ^ 64) (hstored : ∀ p ∈ parents, ∃ q, d.getBlock p = some q)
    {p : BlockHash} (hbest : IsBest d.pastSize parents p) : e.Selects parents p := by
  have hscore : ∀ q ∈ parents, (e.getBlueScore q).1 = .ok (scoreAt d q) := by
    intro q hq
    obtain ⟨s, hs⟩ := hstored q hq
    exact (h.getBlueScore wf hs).1
  refine ⟨hbest.1, scoreAt d p, hscore p hbest.1, fun q hq => ⟨scoreAt d q, hscore q hq, ?_⟩⟩
  rw [UInt64.lt_iff_toNat_lt, ← UInt64.toNat_inj, toNat_scoreAt wf hc, toNat_scoreAt wf hc]
  rcases hbest.2 q hq with hlt | ⟨heq, hle⟩
  · exact Or.inl (by omega)
  · exact Or.inr ⟨by omega, hle⟩

end Follows

end GhostdagEngine

namespace FinalityEngine

variable {c : Crypto} {d : BlockDag} {e : FinalityEngine}

theorem BlueCached.bestParentLoop (h : e.BlueCached d) (wf : BlockDag.WellFormed c d)
    {parents : List BlockHash} (hstored : ∀ p ∈ parents, ∃ q, d.getBlock p = some q)
    (best : Option BlockHash × UInt64) :
    (bestParentLoop d parents best e).1 = .ok (parents.foldl (fun best a =>
      if best.2.toNat < (GhostdagEngine.scoreAt d a).toNat then
        (some a, GhostdagEngine.scoreAt d a)
      else best) best) := by
  induction parents generalizing e best with
  | nil => rfl
  | cons parent rest ih =>
    obtain ⟨q, hq⟩ := hstored parent List.mem_cons_self
    obtain ⟨hnext, hscore⟩ := h.getBlueScore wf parent
    have hscore := hscore q hq
    rw [FinalityEngine.bestParentLoop]
    cases hr : e.getBlueScore d parent with
    | mk result e' =>
      rw [hr] at hnext hscore
      subst hscore
      refine (ih hnext (fun p hp => hstored p (List.mem_cons_of_mem parent hp)) _).trans ?_
      simp only [List.foldl_cons, gt_iff_lt, UInt64.lt_iff_toNat_lt]

theorem BlueCached.computeSingleVsp (h : e.BlueCached d) (wf : BlockDag.WellFormed c d)
    (hc : d.blockCount < 2 ^ 64) {hash : BlockHash} {b : Block} (hb : d.getBlock hash = some b)
    (hne : b.header.parentHashes ≠ []) :
    ∃ vsp, (e.computeSingleVsp d hash).1 = .ok vsp ∧
      IsFirstMax d.pastSize b.header.parentHashes vsp.blockHash := by
  have hparents : d.getBlockParents hash = some b.header.parentHashes := by
    rw [BlockDag.getBlockParents, hb, Option.map_some]
  have hstored := fun p hp => ((wf.placed hash b hb).parent p hp).imp fun _ hq => hq.1
  simp only [FinalityEngine.computeSingleVsp, hparents]
  generalize b.header.parentHashes = parents at hne hstored
  cases parents with
  | nil => exact absurd rfl hne
  | cons first rest =>
    have hpos : ∀ x ∈ first :: rest,
        UInt64.toNat 0 < (GhostdagEngine.scoreAt d x).toNat := by
      intro x _
      rw [GhostdagEngine.toNat_scoreAt wf hc, Nat.add_comm]
      exact Nat.succ_pos _
    obtain ⟨p, hp, hfold⟩ := foldl_isFirstMax (GhostdagEngine.scoreAt d) UInt64.toNat 0
      (first :: rest) hne hpos
    have hloop := h.bestParentLoop wf hstored (none, 0)
    rw [hfold] at hloop
    obtain ⟨q, hq⟩ := hstored p hp.mem
    cases hr : FinalityEngine.bestParentLoop d (first :: rest) (none, 0) e with
    | mk result e' =>
      rw [hr] at hloop
      subst hloop
      refine ⟨⟨p, q.height, (e'.blockScores.lookup p).getD 0, GhostdagEngine.scoreAt d p⟩, ?_, ?_⟩
      · dsimp only
        rw [hr]
        simp only [Option.getD_some, wf.getBlockHeight_eq hq]
      · simp only [GhostdagEngine.toNat_scoreAt wf hc] at hp
        obtain ⟨before, after, hsplit, hbefore, hafter⟩ := hp
        exact ⟨before, after, hsplit, fun y hy => Nat.lt_of_add_lt_add_left (hbefore y hy),
          fun y hy => Nat.le_of_add_le_add_left (hafter y hy)⟩

end FinalityEngine

/-- Some parent is the first with the largest past, the least hash among all with the largest past,
and the last one of greatest height. -/
def BlockDag.ChoicesCoincide (d : BlockDag) (parents : List BlockHash) : Prop :=
  ∃ p, IsFirstMax d.pastSize parents p ∧ IsBest d.pastSize parents p ∧
    IsLastMax d.heightRank parents p

namespace ScoreState

variable {c : Crypto}

/-- Finality engine, GHOSTDAG engine and stored header name the same parent. -/
def FollowSameParent (s : ScoreState) (hash : BlockHash) : Prop :=
  ∃ p b vsp, s.dag.getBlock hash = some b ∧ b.header.selectedParent = some p ∧
    (s.finality.computeSingleVsp s.dag hash).1 = .ok vsp ∧ vsp.blockHash = p ∧
    (s.ghostdag.selectParent hash).1 = .ok p

/-- After any history of scores asked for stored blocks while the DAG grew, both selections of the
GHOSTDAG engine return the parent with the highest score and the least hash among equals; so they
do for any list of the same parents and with empty caches. -/
theorem selectParent_canonical (c : Crypto) (before : List Call) (calls : List ScoreCall)
    (k confirmationDepth : ℕ) (k' : UInt64)
    (hsound : BlockDag.Sound c (before ++ dagCalls calls))
    (hq : (start (BlockDag.run c before) k confirmationDepth k').QueriesStored c calls) :
    ∀ s, s = (start (BlockDag.run c before) k confirmationDepth k').run c calls →
      ∀ hash b, s.dag.getBlock hash = some b → b.header.parentHashes ≠ [] →
        ∃ p, s.ghostdag.Selects b.header.parentHashes p ∧
          (s.ghostdag.selectParent hash).1 = .ok p ∧
          (∀ parents : List BlockHash, (∀ x, x ∈ parents ↔ x ∈ b.header.parentHashes) →
            (s.ghostdag.selectParentFromParents parents).1 = .ok p ∧
            (s.emptied.ghostdag.selectParentFromParents parents).1 = .ok p) ∧
          ∀ hash' b', s.dag.getBlock hash' = some b' →
            (∀ x, x ∈ b'.header.parentHashes ↔ x ∈ b.header.parentHashes) →
            (s.ghostdag.selectParent hash').1 = .ok p ∧
            (s.emptied.ghostdag.selectParent hash').1 = .ok p := by
  intro s hs hash b hb hne
  obtain ⟨hfresh, wf, hfits⟩ := fresh_run_start hsound hq hs
  have hempty := (fresh_emptied s).ghostdag
  have hstored : ∀ p ∈ b.header.parentHashes, ∃ q, s.dag.getBlock p = some q :=
    fun p hp => ((wf.placed hash b hb).parent p hp).imp fun _ hq => hq.1
  obtain ⟨p, hsel, hbest⟩ := hfresh.ghostdag.selectParent wf hfits hb hne
  have hne' : ∀ {parents : List BlockHash}, (∀ x, x ∈ parents ↔ x ∈ b.header.parentHashes) →
      parents ≠ [] := by
    rintro parents hmem rfl
    exact List.not_mem_nil ((hmem p).mpr hbest.1)
  refine ⟨p, hfresh.ghostdag.selects wf hfits hstored hbest, hsel, ?_, ?_⟩
  · intro parents hmem
    have hstored' := fun x hx => hstored x ((hmem x).mp hx)
    have hcanon := hbest.of_mem_iff hmem
    obtain ⟨q, hq, hbest'⟩ :=
      hfresh.ghostdag.selectParentFromParents wf hfits (hne' hmem) hstored'
    obtain ⟨r, hr, hbest''⟩ := hempty.selectParentFromParents wf hfits (hne' hmem) hstored'
    rw [hq, hr, hbest'.unique hcanon, hbest''.unique hcanon]
    exact ⟨rfl, rfl⟩
  · intro hash' b' hb' hmem
    have hcanon := hbest.of_mem_iff hmem
    obtain ⟨q, hq, hbest'⟩ := hfresh.ghostdag.selectParent wf hfits hb' (hne' hmem)
    obtain ⟨r, hr, hbest''⟩ := hempty.selectParent wf hfits hb' (hne' hmem)
    rw [hq, hr, hbest'.unique hcanon, hbest''.unique hcanon]
    exact ⟨rfl, rfl⟩

/-- After any such history the three choices of a parent agree on a block exactly if they coincide
on its parent list. -/
theorem followSameParent_iff (c : Crypto) (before : List Call) (calls : List ScoreCall)
    (k confirmationDepth : ℕ) (k' : UInt64)
    (hsound : BlockDag.Sound c (before ++ dagCalls calls))
    (hq : (start (BlockDag.run c before) k confirmationDepth k').QueriesStored c calls) :
    ∀ s, s = (start (BlockDag.run c before) k confirmationDepth k').run c calls →
      ∀ hash b, s.dag.getBlock hash = some b → b.header.parentHashes ≠ [] →
        (s.FollowSameParent hash ↔ s.dag.ChoicesCoincide b.header.parentHashes) := by
  intro s hs hash b hb hne
  obtain ⟨hfresh, wf, hfits⟩ := fresh_run_start hsound hq hs
  obtain ⟨vsp, hvsp, hfirst⟩ := hfresh.finality.computeSingleVsp wf hfits hb hne
  obtain ⟨p, hsel, hbest⟩ := hfresh.ghostdag.selectParent wf hfits hb hne
  obtain ⟨q, hlast, hheader, -⟩ := (wf.placed hash b hb).height_child hne
  constructor
  · rintro ⟨x, b', vsp', hb', hheader', hvsp', rfl, hsel'⟩
    obtain rfl := Option.some.inj (hb'.symm.trans hb)
    obtain rfl := Except.ok.inj (hvsp'.symm.trans hvsp)
    obtain rfl := Except.ok.inj (hsel.symm.trans hsel')
    obtain rfl := Option.some.inj (hheader.symm.trans hheader')
    exact ⟨_, hfirst, hbest, hlast⟩
  · rintro ⟨x, hfirst', hbest', hlast'⟩
    obtain rfl := hlast'.unique hlast
    exact ⟨_, b, vsp, hb, hheader, hvsp, hfirst.unique hfirst', hbest.unique hbest' ▸ hsel⟩

section Sample
open BlockDag

attribute [local irreducible] BlockDag.run BlockDag.getBlock BlockDag.pastSize

def sampleAsked : List ScoreCall :=
  [.ghostdagScore GhostdagEngine.sampleTop, .finalityScore GhostdagEngine.sampleTop]

def sampleMerged : ScoreState :=
  (start (BlockDag.run .hashOnly GhostdagEngine.sampleDiamond) 2 2 1).run .hashOnly sampleAsked

theorem dagCalls_sampleAsked : dagCalls sampleAsked = [] := rfl

theorem dag_sampleMerged :
    sampleMerged.dag = BlockDag.run .hashOnly GhostdagEngine.sampleDiamond := by
  rw [sampleMerged, dag_run_of_dagCalls_eq_nil _ dagCalls_sampleAsked, dag_start]

theorem sampleAsked_stored :
    Sound .hashOnly (GhostdagEngine.sampleDiamond ++ dagCalls sampleAsked) ∧
      (start (BlockDag.run .hashOnly GhostdagEngine.sampleDiamond) 2 2 1).QueriesStored .hashOnly
        sampleAsked := by
  obtain ⟨hsound, hstored, -⟩ := GhostdagEngine.sampleDiamond_evaluated
  refine ⟨?_, hstored, hstored, trivial⟩
  rwa [dagCalls_sampleAsked, List.append_nil]

theorem exists_sampleTop : ∃ b, sampleMerged.dag.getBlock GhostdagEngine.sampleTop = some b ∧
    b.header.parentHashes = [sampleTips.2, sampleTips.1] ∧
    b.header.selectedParent = some sampleTips.1 := by
  obtain ⟨-, -, -, -, -, hparents, hselected, -⟩ := GhostdagEngine.sampleDiamond_evaluated
  obtain ⟨b, hb, htips⟩ := Option.map_eq_some_iff.mp hparents
  rw [hb, Option.map_some, Option.some.injEq] at hselected
  exact ⟨b, by rw [dag_sampleMerged, hb], htips, hselected⟩

/-- With its parents listed the other way round, the merge block has the same parent selected. -/
theorem selectParent_canonical_sample :
    ∃ p, (sampleMerged.ghostdag.selectParent GhostdagEngine.sampleTop).1 = .ok p ∧
      (sampleMerged.ghostdag.selectParentFromParents [sampleTips.1, sampleTips.2]).1 = .ok p := by
  obtain ⟨hsound, hq⟩ := sampleAsked_stored
  obtain ⟨b, hb, hparents, -⟩ := exists_sampleTop
  obtain ⟨p, -, hsel, hmem, -⟩ := selectParent_canonical .hashOnly GhostdagEngine.sampleDiamond
    sampleAsked 2 2 1 hsound hq sampleMerged rfl GhostdagEngine.sampleTop b hb (by simp [hparents])
  exact ⟨p, hsel, (hmem _ fun x => by simp [hparents, or_comm]).1⟩

theorem choicesCoincide_singleton (d : BlockDag) (p : BlockHash) : d.ChoicesCoincide [p] :=
  ⟨p, ⟨[], [], rfl, by simp, by simp⟩, ⟨List.mem_singleton_self p, by simp⟩,
    [], [], rfl, by simp, by simp⟩

/-- For a block with a single parent all three agree. -/
theorem followSameParent_sample : sampleMerged.FollowSameParent sampleTips.1 := by
  obtain ⟨hsound, hq⟩ := sampleAsked_stored
  obtain ⟨-, -, -, -, -, -, -, hparents, -⟩ := GhostdagEngine.sampleDiamond_evaluated
  obtain ⟨b, hb, hroot⟩ := Option.map_eq_some_iff.mp hparents
  rw [← dag_sampleMerged] at hb
  refine (followSameParent_iff .hashOnly GhostdagEngine.sampleDiamond sampleAsked 2 2 1 hsound hq
    sampleMerged rfl sampleTips.1 b hb (by simp [hroot])).mpr ?_
  rw [hroot]
  exact choicesCoincide_singleton _ _

/-- The header of the merge block names the parent listed last, the GHOSTDAG engine the one with
the smaller hash. -/
theorem sampleMerged_diverges :
    Sound .hashOnly (GhostdagEngine.sampleDiamond ++ dagCalls sampleAsked) ∧
      (start (BlockDag.run .hashOnly GhostdagEngine.sampleDiamond) 2 2 1).QueriesStored .hashOnly
        sampleAsked ∧
      sampleMerged =
        (start (BlockDag.run .hashOnly GhostdagEngine.sampleDiamond) 2 2 1).run .hashOnly
          sampleAsked ∧
      (∃ b, sampleMerged.dag.getBlock GhostdagEngine.sampleTop = some b ∧
        b.header.parentHashes ≠ []) ∧
      (sampleMerged.ghostdag.selectParent GhostdagEngine.sampleTop).1 = .ok sampleTips.2 ∧
      ¬ sampleMerged.FollowSameParent GhostdagEngine.sampleTop := by
  obtain ⟨hsound, hq⟩ := sampleAsked_stored
  obtain ⟨b, hb, hparents, hheader⟩ := exists_sampleTop
  obtain ⟨-, -, -, -, -, -, -, -, hpast, hpast'⟩ := GhostdagEngine.sampleDiamond_evaluated
  obtain ⟨hfresh, wf, hfits⟩ := fresh_run_start hsound hq (s := sampleMerged) rfl
  obtain ⟨p, hsel, hbest⟩ := hfresh.ghostdag.selectParent wf hfits hb (by simp [hparents])
  have hlt : sampleTips.2 < sampleTips.1 := by decide
  have hsmaller : IsBest sampleMerged.dag.pastSize b.header.parentHashes sampleTips.2 := by
    rw [hparents, dag_sampleMerged]
    refine ⟨List.mem_cons_self, fun y hy => Or.inr ?_⟩
    rcases List.mem_pair.mp hy with rfl | rfl
    · exact ⟨rfl, le_rfl⟩
    · exact ⟨hpast.trans hpast'.symm, hlt.le⟩
  obtain rfl := hbest.unique hsmaller
  refine ⟨hsound, hq, rfl, ⟨b, hb, by simp [hparents]⟩, hsel, ?_⟩
  rintro ⟨q, b', vsp, hb', hheader', -, -, hsel'⟩
  obtain rfl := Option.some.inj (hb'.symm.trans hb)
  obtain rfl := Option.some.inj (hheader'.symm.trans hheader)
  exact hlt.ne (Except.ok.inj (hsel.symm.trans hsel'))

end Sample

end ScoreState

end CytahSpeed
