import CytahSpeed.FinalityEngine
import CytahSpeed.ProducerAnnotation
import CytahSpeed.StepRun

/-!
# Blue scores

Both engines score a block by the size of its past plus one: the GHOSTDAG engine because the
anticones it computes inside a past are empty for every `k`, the finality engine by definition.
The GHOSTDAG score counts the blocks with few parallel blocks only if every block has few. The
past of a stored block never changes, so neither cache goes stale while the DAG grows, as long as
scores are asked for stored blocks. The clone of a DAG that the GHOSTDAG engine keeps shares the
block store with the DAG it was cloned from.
-/

namespace CytahSpeed
open ByteString FiniteMap MachineInt

namespace BlockDag

variable (d : BlockDag)

/-- A block and its past. -/
def pastCone (hash : BlockHash) : Finset BlockHash := insert hash (d.getAncestors hash)

def parallelIn (hash x : BlockHash) : Finset BlockHash :=
  (d.pastCone hash).filter fun y => d.Parallel x y

/-- The number of blocks of the cone with at most `k` parallel blocks in it. -/
def clusterSize (k : ℕ) (hash : BlockHash) : ℕ :=
  ((d.pastCone hash).filter fun x => (d.parallelIn hash x).card ≤ k).card

variable {c : Crypto} {d}

theorem WellFormed.card_pastCone (wf : WellFormed c d) (hash : BlockHash) :
    (d.pastCone hash).card = 1 + d.pastSize hash := by
  rw [pastCone, Finset.card_insert_of_notMem (wf.notMem_getAncestors_self hash), Nat.add_comm]
  rfl

theorem clusterSize_eq_card_iff (k : ℕ) (hash : BlockHash) :
    d.clusterSize k hash = (d.pastCone hash).card ↔
      ∀ x ∈ d.pastCone hash, (d.parallelIn hash x).card ≤ k := by
  rw [clusterSize, Finset.card_filter_eq_iff]

end BlockDag

namespace GhostdagEngine

variable {c : Crypto} {d : BlockDag} {e : GhostdagEngine}

/-- The engine attached to a DAG scores a stored block by its cluster exactly when every block of
its past and itself has at most `k` parallel blocks there. -/
theorem calculateBlueScore_eq_clusterSize_iff (c : Crypto) (calls : List Call)
    (h : BlockDag.Sound c calls) (k : ℕ) (hash : BlockHash) (s : Block)
    (hs : (BlockDag.run c calls).getBlock hash = some s) :
    (((new k).attachDag (BlockDag.run c calls)).calculateBlueScore hash).1 =
        .ok (UInt64.ofNat ((BlockDag.run c calls).clusterSize k hash)) ↔
      ∀ x ∈ (BlockDag.run c calls).pastCone hash,
        ((BlockDag.run c calls).parallelIn hash x).card ≤ k := by
  have wf := h.wellFormed
  have hfits := h.fits
  generalize BlockDag.run c calls = d at *
  have hscore : (((new k).attachDag d).calculateBlueScore hash).1 = .ok (scoreAt d hash) := by
    simp only [calculateBlueScore, attachDag, Finmap.lookup_empty]
    rw [blueCount_eq wf]
  have hcone := wf.card_pastCone hash
  have hle : d.clusterSize k hash ≤ (d.pastCone hash).card := Finset.card_filter_le _ _
  have hlt := wf.pastSize_lt hs
  have hsize : (UInt64.ofNat (d.clusterSize k hash)).toNat = d.clusterSize k hash :=
    toNat_ofNat_of_le (by simp only [u64Max]; omega)
  rw [hscore, Except.ok.injEq, ← UInt64.toNat_inj, toNat_scoreAt wf hfits, hsize, ← hcone, eq_comm,
    BlockDag.clusterSize_eq_card_iff]

section Sample
open BlockDag

def sampleDiamond : List Call := sampleFork ++ [.insertBlock sampleEnv sampleMerge]

def sampleTop : BlockHash := ((run .hashOnly sampleFork).annotate .hashOnly sampleMerge).hash

set_option maxRecDepth 20000 in
theorem sampleDiamond_evaluated :
    Sound .hashOnly sampleDiamond ∧
      ((run .hashOnly sampleDiamond).getBlock sampleTop).isSome = true ∧
      (run .hashOnly sampleDiamond).clusterSize 1 sampleTop =
        ((run .hashOnly sampleDiamond).pastCone sampleTop).card ∧
      (run .hashOnly sampleDiamond).clusterSize 0 sampleTop = 2 ∧
      (((new 0).attachDag (run .hashOnly sampleDiamond)).calculateBlueScore sampleTop).1 =
        .ok 4 ∧
      ((run .hashOnly sampleDiamond).getBlock sampleTop).map (·.header.parentHashes) =
        some [sampleTips.2, sampleTips.1] ∧
      ((run .hashOnly sampleDiamond).getBlock sampleTop).map (·.header.selectedParent) =
        some (some sampleTips.1) ∧
      ((run .hashOnly sampleDiamond).getBlock sampleTips.1).map (·.header.parentHashes) =
        some [sampleRoot] ∧
      (run .hashOnly sampleDiamond).pastSize sampleTips.1 = 1 ∧
      (run .hashOnly sampleDiamond).pastSize sampleTips.2 = 1 := by
  unfold sampleDiamond sampleTop sampleFork sampleMerge sampleChild sampleRoot
  rw [Crypto.hashOnly_eq_strict]
  decide +kernel

theorem calculateBlueScore_eq_clusterSize_sample :
    (((new 1).attachDag (run .hashOnly sampleDiamond)).calculateBlueScore sampleTop).1 =
      .ok (UInt64.ofNat ((run .hashOnly sampleDiamond).clusterSize 1 sampleTop)) := by
  obtain ⟨hsound, hstored, hcluster, -⟩ := sampleDiamond_evaluated
  obtain ⟨s, hs⟩ := Option.isSome_iff_exists.mp hstored
  exact (calculateBlueScore_eq_clusterSize_iff .hashOnly sampleDiamond hsound 1 sampleTop s hs).mpr
    ((clusterSize_eq_card_iff 1 sampleTop).mp hcluster)

/-- With `k = 0` the two parallel children are counted as blue. -/
theorem calculateBlueScore_parallel_counted :
    Sound .hashOnly sampleDiamond ∧
      (∃ s, (run .hashOnly sampleDiamond).getBlock sampleTop = some s) ∧
      (((new 0).attachDag (run .hashOnly sampleDiamond)).calculateBlueScore sampleTop).1 =
        .ok 4 ∧
      (((new 0).attachDag (run .hashOnly sampleDiamond)).calculateBlueScore sampleTop).1 ≠
        .ok (UInt64.ofNat ((run .hashOnly sampleDiamond).clusterSize 0 sampleTop)) := by
  obtain ⟨hsound, hstored, -, hsize, hscore, -⟩ := sampleDiamond_evaluated
  refine ⟨hsound, Option.isSome_iff_exists.mp hstored, hscore, ?_⟩
  rw [hscore, hsize]
  exact fun he => by cases Except.ok.inj he

end Sample

/-- A clone shares its block store with the DAG it was cloned from. -/
def shareStore (e : GhostdagEngine) (store : BlockStore) : GhostdagEngine :=
  { e with dag := e.dag.map fun d => { d with store } }

/-- The engine reads the store of the DAG, and has cached the scores of stored blocks only. -/
structure Follows (e : GhostdagEngine) (d : BlockDag) : Prop where
  dag : ∃ index, e.dag = some ⟨d.store, index⟩
  cache : ∀ hash score, e.blueScoreCache.lookup hash = some score →
    (∃ s, d.getBlock hash = some s) ∧ score = scoreAt d hash

theorem follows_attachDag (e : GhostdagEngine) (d : BlockDag) : (e.attachDag d).Follows d := by
  refine ⟨⟨d.index, rfl⟩, ?_⟩
  intro hash score hl
  simp [attachDag] at hl

theorem Follows.getBlueScore (h : e.Follows d) (wf : BlockDag.WellFormed c d) {hash : BlockHash}
    {s : Block} (hs : d.getBlock hash = some s) :
    (e.getBlueScore hash).1 = .ok (scoreAt d hash) ∧ (e.getBlueScore hash).2.Follows d := by
  obtain ⟨index, hdag⟩ := h.dag
  cases hl : e.blueScoreCache.lookup hash with
  | some score =>
    simp only [GhostdagEngine.getBlueScore, hl]
    exact ⟨by rw [(h.cache hash score hl).2], h⟩
  | none =>
    have hcount : e.blueCount ⟨d.store, index⟩ hash = scoreAt d hash :=
      blueCount_eq (wf.withIndex index) e hash
    simp only [GhostdagEngine.getBlueScore, calculateBlueScore, hl, hdag, hcount]
    refine ⟨trivial, ⟨index, rfl⟩, ?_⟩
    intro k score hk
    rw [lookup_insert_eq_ite] at hk
    by_cases he : k = hash
    · rw [if_pos he] at hk
      rw [he, ← Option.some.inj hk]
      exact ⟨⟨s, hs⟩, rfl⟩
    · rw [if_neg he] at hk
      exact h.cache k score hk

section Commit
variable {a : Block} (wf : BlockDag.WellFormed c d) (hfree : d.getBlock a.hash = none)
include wf hfree

theorem scoreAt_commit {hash : BlockHash} {s : Block} (hs : d.getBlock hash = some s) :
    scoreAt (d.commit a) hash = scoreAt d hash := by
  rw [scoreAt, scoreAt, BlockDag.pastSize, BlockDag.pastSize, wf.getAncestors_commit hfree hs]

theorem cached_commit {cache : Map BlockHash UInt64}
    (h : ∀ hash score, cache.lookup hash = some score →
      (∃ s, d.getBlock hash = some s) ∧ score = scoreAt d hash) (hash : BlockHash)
    (score : UInt64) (hl : cache.lookup hash = some score) :
    (∃ s, (d.commit a).getBlock hash = some s) ∧ score = scoreAt (d.commit a) hash := by
  obtain ⟨⟨s, hs⟩, hscore⟩ := h hash score hl
  exact ⟨⟨s, BlockDag.getBlock_commit_of_some hfree hs⟩, by
    rw [hscore, scoreAt_commit wf hfree hs]⟩

theorem Follows.commit (h : e.Follows d) :
    (e.shareStore (d.commit a).store).Follows (d.commit a) := by
  obtain ⟨index, hdag⟩ := h.dag
  exact ⟨⟨index, by rw [shareStore, hdag]; rfl⟩, cached_commit wf hfree h.cache⟩

end Commit

end GhostdagEngine

inductive ScoreCall
  | insertBlock (env : CallEnv) (b : Block)
  | attachDag
  | ghostdagScore (hash : BlockHash)
  | finalityScore (hash : BlockHash)

structure ScoreState where
  dag : BlockDag
  ghostdag : GhostdagEngine
  finality : FinalityEngine

namespace ScoreState

variable (c : Crypto)

/-- Two new engines beside a DAG, the first attached to it. -/
def start (dag : BlockDag) (k confirmationDepth : ℕ) (k' : UInt64) : ScoreState :=
  ⟨dag, (GhostdagEngine.new k).attachDag dag, .newWithK confirmationDepth k'⟩

def exec (s : ScoreState) : ScoreCall → ScoreState
  | .insertBlock env b =>
    let dag := (s.dag.insertBlock c env b).2
    { s with dag, ghostdag := s.ghostdag.shareStore dag.store }
  | .attachDag => { s with ghostdag := s.ghostdag.attachDag s.dag }
  | .ghostdagScore hash => { s with ghostdag := (s.ghostdag.getBlueScore hash).2 }
  | .finalityScore hash => { s with finality := (s.finality.getBlueScore s.dag hash).2 }

def run (s : ScoreState) (calls : List ScoreCall) : ScoreState := calls.foldl (exec c) s

def QueriesStored (s : ScoreState) : List ScoreCall → Prop
  | [] => True
  | .ghostdagScore hash :: calls =>
    (s.dag.getBlock hash).isSome = true ∧ QueriesStored (s.exec c (.ghostdagScore hash)) calls
  | .finalityScore hash :: calls =>
    (s.dag.getBlock hash).isSome = true ∧ QueriesStored (s.exec c (.finalityScore hash)) calls
  | .insertBlock env b :: calls => QueriesStored (s.exec c (.insertBlock env b)) calls
  | .attachDag :: calls => QueriesStored (s.exec c .attachDag) calls

instance decidableQueriesStored (s : ScoreState) (calls : List ScoreCall) :
    Decidable (s.QueriesStored c calls) :=
  match calls with
  | [] => isTrue trivial
  | .ghostdagScore hash :: calls =>
    have := decidableQueriesStored (s.exec c (.ghostdagScore hash)) calls
    inferInstanceAs (Decidable (_ ∧ _))
  | .finalityScore hash :: calls =>
    have := decidableQueriesStored (s.exec c (.finalityScore hash)) calls
    inferInstanceAs (Decidable (_ ∧ _))
  | .insertBlock env b :: calls => decidableQueriesStored (s.exec c (.insertBlock env b)) calls
  | .attachDag :: calls => decidableQueriesStored (s.exec c .attachDag) calls

def dagCalls (calls : List ScoreCall) : List Call :=
  calls.filterMap fun
    | .insertBlock env b => some (.insertBlock env b)
    | _ => none

/-- The same DAG with both caches emptied and the GHOSTDAG engine attached again. -/
def emptied (s : ScoreState) : ScoreState :=
  ⟨s.dag, s.ghostdag.attachDag s.dag, { s.finality with blueScores := ∅ }⟩

structure Fresh (s : ScoreState) : Prop where
  ghostdag : s.ghostdag.Follows s.dag
  finality : s.finality.BlueCached s.dag

variable {c}

theorem fresh_emptied (s : ScoreState) : s.emptied.Fresh := by
  refine ⟨GhostdagEngine.follows_attachDag _ _, ?_⟩
  intro hash score hl
  simp [emptied] at hl

theorem fresh_start (dag : BlockDag) (k confirmationDepth : ℕ) (k' : UInt64) :
    (start dag k confirmationDepth k').Fresh :=
  fresh_emptied (start dag k confirmationDepth k')

theorem Fresh.getBlueScore {s : ScoreState} (h : s.Fresh) (wf : BlockDag.WellFormed c s.dag)
    {hash : BlockHash} {b : Block} (hb : s.dag.getBlock hash = some b) :
    (s.ghostdag.getBlueScore hash).1 = .ok (GhostdagEngine.scoreAt s.dag hash) ∧
      (s.finality.getBlueScore s.dag hash).1 = .ok (GhostdagEngine.scoreAt s.dag hash) :=
  ⟨(h.ghostdag.getBlueScore wf hb).1, (h.finality.getBlueScore wf hash).2 b hb⟩

theorem dag_run (s : ScoreState) (calls : List ScoreCall) :
    (s.run c calls).dag = BlockDag.runFrom c s.dag (dagCalls calls) := by
  refine StepRun.proj_foldl dag _ (BlockDag.exec c) (fun s call => ?_) s calls
  cases call with
  | insertBlock env b => rfl
  | attachDag => rfl
  | ghostdagScore hash => rfl
  | finalityScore hash => rfl

theorem dag_run_of_dagCalls_eq_nil (s : ScoreState) {calls : List ScoreCall}
    (h : dagCalls calls = []) : (s.run c calls).dag = s.dag := by
  rw [dag_run, h]
  rfl

theorem dag_start (dag : BlockDag) (k confirmationDepth : ℕ) (k' : UInt64) :
    (start dag k confirmationDepth k').dag = dag := rfl

theorem Fresh.insertBlock {P : Set (List UInt8)} (hinj : Set.InjOn c.sha256 P) {s : ScoreState}
    (h : s.Fresh) (htr : BlockDag.Tracked c P s.dag) (env : CallEnv) (b : Block)
    (hP : ∀ x ∈ s.dag.insertHashed c env b, x ∈ P)
    (hfits : (s.exec c (.insertBlock env b)).dag.blockCount < 2 ^ 64) :
    (s.exec c (.insertBlock env b)).Fresh ∧
      BlockDag.Tracked c P (s.exec c (.insertBlock env b)).dag := by
  change (s.dag.insertBlock c env b).2.blockCount < 2 ^ 64 at hfits
  simp only [exec]
  rcases BlockDag.insertBlock_cases c env s.dag b with ⟨acc, he⟩ | ⟨-, err, he⟩
  · rw [he] at hfits ⊢
    rw [BlockDag.insertHashed_of_accepts acc] at hP
    change (s.dag.commit (s.dag.annotate c b)).blockCount < 2 ^ 64 at hfits
    have last := htr.lastInsert hinj (hP _ (by simp)) (hP _ (by simp)) hfits
    have wf := htr.wellFormed
    exact ⟨⟨h.ghostdag.commit wf last.free, GhostdagEngine.cached_commit wf last.free h.finality⟩,
      last.commit acc⟩
  · rw [he]
    obtain ⟨index, hdag⟩ := h.ghostdag.dag
    exact ⟨⟨⟨⟨index, by rw [GhostdagEngine.shareStore, hdag]; rfl⟩, h.ghostdag.cache⟩,
      h.finality⟩, htr⟩

theorem Fresh.run {P : Set (List UInt8)} (hinj : Set.InjOn c.sha256 P) (calls : List ScoreCall)
    {s : ScoreState} (h : s.Fresh) (htr : BlockDag.Tracked c P s.dag)
    (hP : ∀ x ∈ BlockDag.runHashedFrom c s.dag (dagCalls calls), x ∈ P)
    (hfits : (s.run c calls).dag.blockCount < 2 ^ 64) (hq : s.QueriesStored c calls) :
    (s.run c calls).Fresh ∧ BlockDag.Tracked c P (s.run c calls).dag := by
  induction calls generalizing s with
  | nil => exact ⟨h, htr⟩
  | cons call calls ih =>
    cases call with
    | insertBlock env b =>
      have hnext : (s.exec c (.insertBlock env b)).dag.blockCount < 2 ^ 64 := by
        refine lt_of_le_of_lt ?_ hfits
        change _ ≤ ((s.exec c (.insertBlock env b)).run c calls).dag.blockCount
        rw [dag_run]
        exact BlockDag.blockCount_le_runFrom _ _
      obtain ⟨h', htr'⟩ := h.insertBlock hinj htr env b
        (fun x hx => hP x (List.mem_append_left _ hx)) hnext
      exact ih h' htr' (fun x hx => hP x (List.mem_append_right _ hx)) hfits hq
    | attachDag =>
      exact ih ⟨GhostdagEngine.follows_attachDag _ _, h.finality⟩ htr hP hfits hq
    | ghostdagScore hash =>
      obtain ⟨b, hb⟩ := Option.isSome_iff_exists.mp hq.1
      exact ih ⟨(h.ghostdag.getBlueScore htr.wellFormed hb).2, h.finality⟩ htr hP hfits hq.2
    | finalityScore hash =>
      exact ih ⟨h.ghostdag, (h.finality.getBlueScore htr.wellFormed hash).1⟩ htr hP hfits hq.2

theorem fresh_run_start {before : List Call} {calls : List ScoreCall} {k confirmationDepth : ℕ}
    {k' : UInt64} (hsound : BlockDag.Sound c (before ++ dagCalls calls))
    (hq : (start (BlockDag.run c before) k confirmationDepth k').QueriesStored c calls)
    {s : ScoreState} (hs : s = (start (BlockDag.run c before) k confirmationDepth k').run c calls) :
    s.Fresh ∧ BlockDag.WellFormed c s.dag ∧ s.dag.blockCount < 2 ^ 64 := by
  have hdag : s.dag = BlockDag.run c (before ++ dagCalls calls) := by
    rw [hs]
    exact (dag_run _ _).trans (BlockDag.run_append before _).symm
  have hfits : s.dag.blockCount < 2 ^ 64 := by
    rw [hdag]
    exact hsound.fits
  obtain ⟨hfresh, htr⟩ := (fresh_start (BlockDag.run c before) k confirmationDepth k').run
    hsound.injOn calls hsound.tracked_left (BlockDag.mem_runHashed_right _ _) (hs ▸ hfits) hq
  rw [← hs] at hfresh htr
  exact ⟨hfresh, htr.wellFormed, hfits⟩

/-- After any history of scores asked for stored blocks while the DAG grew, the two engines agree
on every stored block, and what their caches hold is what they would compute on the DAG as it is
now, with their caches emptied. -/
theorem blueScores_agree (c : Crypto) (before : List Call) (calls : List ScoreCall)
    (k confirmationDepth : ℕ) (k' : UInt64)
    (hsound : BlockDag.Sound c (before ++ dagCalls calls))
    (hq : (start (BlockDag.run c before) k confirmationDepth k').QueriesStored c calls) :
    ∀ s, s = (start (BlockDag.run c before) k confirmationDepth k').run c calls →
      (∀ hash b, s.dag.getBlock hash = some b →
        (s.ghostdag.getBlueScore hash).1 = (s.finality.getBlueScore s.dag hash).1 ∧
        (s.ghostdag.getBlueScore hash).1 = (s.emptied.ghostdag.getBlueScore hash).1 ∧
        (s.finality.getBlueScore s.dag hash).1 =
          (s.emptied.finality.getBlueScore s.dag hash).1) ∧
      (∀ hash score, s.ghostdag.blueScoreCache.lookup hash = some score →
        (s.emptied.ghostdag.getBlueScore hash).1 = .ok score) ∧
      ∀ hash score, s.finality.blueScores.lookup hash = some score →
        (s.emptied.finality.getBlueScore s.dag hash).1 = .ok score := by
  rintro s hs
  obtain ⟨hfresh, wf, -⟩ := fresh_run_start hsound hq hs
  have hscore := fun hash b (hb : s.dag.getBlock hash = some b) => hfresh.getBlueScore wf hb
  have hscore' : ∀ hash b, s.dag.getBlock hash = some b →
      (s.emptied.ghostdag.getBlueScore hash).1 = .ok (GhostdagEngine.scoreAt s.dag hash) ∧
        (s.emptied.finality.getBlueScore s.dag hash).1 =
          .ok (GhostdagEngine.scoreAt s.dag hash) :=
    fun hash b hb => (fresh_emptied s).getBlueScore wf hb
  refine ⟨?_, ?_, ?_⟩
  · intro hash b hb
    obtain ⟨hghost, hfinal⟩ := hscore hash b hb
    obtain ⟨hghost', hfinal'⟩ := hscore' hash b hb
    rw [hghost, hfinal, hghost', hfinal']
    exact ⟨rfl, rfl, rfl⟩
  · intro hash score hl
    obtain ⟨⟨b, hb⟩, rfl⟩ := hfresh.ghostdag.cache hash score hl
    exact (hscore' hash b hb).1
  · intro hash score hl
    obtain ⟨⟨b, hb⟩, rfl⟩ := hfresh.finality hash score hl
    exact (hscore' hash b hb).2

section Sample
open BlockDag

def sampleHistory : List ScoreCall :=
  [.ghostdagScore sampleRoot, .finalityScore sampleRoot,
    .insertBlock sampleEnv (sampleChild 1001), .ghostdagScore sampleTips.1,
    .insertBlock sampleEnv (sampleChild 1002), .finalityScore sampleRoot]

set_option maxRecDepth 20000 in
theorem sampleHistory_asked :
    (start (BlockDag.run .hashOnly [.createGenesisBlock 1000 sampleEnv]) 1 2 1).QueriesStored
        .hashOnly sampleHistory ∧
      (((start (BlockDag.run .hashOnly [.createGenesisBlock 1000 sampleEnv]) 1 2 1).run .hashOnly
        sampleHistory).dag.getBlock sampleTips.1).isSome = true := by
  unfold sampleHistory sampleChild sampleRoot
  rw [Crypto.hashOnly_eq_strict]
  decide +kernel

theorem blueScores_agree_sample :
    ∃ s, s = (start (BlockDag.run .hashOnly [.createGenesisBlock 1000 sampleEnv]) 1 2 1).run
        .hashOnly sampleHistory ∧
      (s.ghostdag.getBlueScore sampleTips.1).1 =
        (s.finality.getBlueScore s.dag sampleTips.1).1 := by
  obtain ⟨hq, hstored⟩ := sampleHistory_asked
  obtain ⟨b, hb⟩ := Option.isSome_iff_exists.mp hstored
  exact ⟨_, rfl, ((blueScores_agree .hashOnly [.createGenesisBlock 1000 sampleEnv] sampleHistory
    1 2 1 sampleFork_evaluated.1 hq _ rfl).1 sampleTips.1 b hb).1⟩

end Sample

end ScoreState

end CytahSpeed
