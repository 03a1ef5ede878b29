import CytahSpeed.DagRun
import CytahSpeed.PrunedWindow

/-!
# Requests to prune

A successful call of the pruner empties its store above the mark and below the window, and if there
was anything to delete, lower heights delete nothing from then on. The node calls the pruner after
every block that it executes and, on request, with a height of two hundred thousand and a window.
But the store that it gives to the pruner is not that of its DAG and nothing is ever inserted into
it: whatever the node prunes, no block is deleted.
-/

namespace CytahSpeed
open ByteString FiniteMap MachineInt Pruning

namespace RollingWindowPruner

variable (c : Crypto) (size : Block → UInt64) (p : RollingWindowPruner)

/-- The call leaves every stored block where it is. -/
def KeepsBlocks : PruneCall → Prop
  | .insertBlock _ _ => True
  | .maybePrune env height state => (p.maybePrune c size env height state).2.stored = p.stored

def AtMost (limit : UInt64) : PruneCall → Prop
  | .insertBlock _ _ => True
  | .maybePrune _ height _ => height ≤ limit

variable {c size p} {env : PruneEnv} {height : UInt64} {state : StateManager}

theorem mark_pruneBelow {n : UInt64} (hok : (p.pruneBelow c size env height).1 = .ok n)
    (hn : n ≠ 0) : (p.pruneBelow c size env height).2.mark = p.pruneUpTo height := by
  rcases p.pruneBelow_cases c size env height with ⟨e, hend⟩ | ⟨-, hend⟩ |
    ⟨-, result, s, -, ⟨e, -, hend⟩ | ⟨-, hend⟩ | ⟨blocks, -, -, hend⟩⟩
  all_goals rw [hend] at hok
  · cases hok
  · exact absurd (Except.ok.inj hok).symm hn
  · cases hok
  · exact absurd (Except.ok.inj hok).symm hn
  · rw [hend]
    obtain ⟨s', ⟨e, hblocks⟩ | hblocks⟩ := pruneBlocks_cases c size { p with blockStore := s } env
      p.metadata (p.pruneUpTo height) blocks
    · rw [hblocks] at hok
      cases hok
    · rw [hblocks]
      rfl

theorem mark_maybePrune {n : UInt64} (hok : (p.maybePrune c size env height state).1 = .ok n)
    (hn : n ≠ 0) : (p.maybePrune c size env height state).2.mark = p.pruneUpTo height := by
  cases h : p.shouldPrune height with
  | false =>
    rw [maybePrune_of_not_shouldPrune h] at hok
    exact absurd (Except.ok.inj hok).symm hn
  | true =>
    obtain ⟨-, hconfig⟩ := p.takeSnapshotIfNeeded_keeps env height state
    obtain ⟨result, p', hsnap, ⟨e, -, hend⟩ | ⟨-, hend⟩⟩ :=
      p.maybePrune_cases c size env state h
    · rw [hend] at hok
      cases hok
    · rw [hsnap] at hconfig
      rw [hend] at hok ⊢
      rw [← hconfig.pruneUpTo]
      exact mark_pruneBelow hok hn

/-- A call whose window ends at the mark or below it deletes nothing and leaves the mark. -/
theorem maybePrune_idle (hp : p.blockStore.Filed) (c : Crypto) (size : Block → UInt64)
    (env : PruneEnv) (state : StateManager)
    (h : height.toNat ≤ p.mark.toNat + p.windowSize.toNat) :
    (p.maybePrune c size env height state).2.stored = p.stored ∧
      (p.maybePrune c size env height state).2.mark = p.mark := by
  cases hshould : p.shouldPrune height with
  | false =>
    rw [maybePrune_of_not_shouldPrune hshould]
    exact ⟨rfl, rfl⟩
  | true =>
    have hprunes : p.Prunes (p.pruneUpTo height) (p.maybePrune c size env height state) :=
      maybePrune_prunes hp hshould
    have htarget : (p.pruneUpTo height).toNat ≤ p.mark.toNat := by
      rw [toNat_pruneUpTo]
      omega
    have hnot : ¬ p.mark < p.pruneUpTo height := by
      rw [UInt64.lt_iff_toNat_lt]
      omega
    constructor
    · apply Finmap.ext_lookup
      intro hash
      cases hb : p.stored.lookup hash with
      | none =>
        cases hb' : (p.maybePrune c size env height state).2.stored.lookup hash with
        | none => rfl
        | some block => exact absurd (hb.symm.trans (hprunes.kept hash block hb')) nofun
      | some block =>
        cases hb' : (p.maybePrune c size env height state).2.stored.lookup hash with
        | none =>
          obtain ⟨hmark, hle⟩ := hprunes.removed hash block hb hb'
          exact absurd (UInt64.lt_of_lt_of_le hmark hle) hnot
        | some block' => rw [← hb, hprunes.kept hash block' hb']
    · rcases hprunes.moved with hsame | ⟨hlt, -⟩
      · exact hsame
      · exact absurd hlt hnot

theorem keepsBlocks_along (hp : p.blockStore.Filed) {limit : UInt64}
    (hlimit : limit.toNat ≤ p.mark.toNat + p.windowSize.toNat) (calls : List PruneCall)
    (hcalls : ∀ call ∈ calls, AtMost limit call) :
    StepRun.Along (step c size) (KeepsBlocks c size) p calls := by
  induction calls generalizing p with
  | nil => trivial
  | cons call calls ih =>
    obtain ⟨hcall, hrest⟩ := List.forall_mem_cons.mp hcalls
    have hfiled : (p.step c size call).blockStore.Filed := filed_step hp call
    have hconfig : p.SameConfig (p.step c size call) := sameConfig_step call
    cases call with
    | insertBlock env block => exact ⟨trivial, ih hfiled hlimit hrest⟩
    | maybePrune env height state =>
      have hheight := UInt64.le_iff_toNat_le.mp hcall
      obtain ⟨hstored, hmark⟩ := maybePrune_idle hp c size env state (hheight.trans hlimit)
      refine ⟨hstored, ih hfiled ?_ hrest⟩
      rw [hconfig.windowSize]
      change _ ≤ (p.maybePrune c size env height state).2.mark.toNat + _
      rw [hmark]
      exact hlimit

section Sample

/-- Genesis and the blocks of the heights one to three, under a window of two. -/
def sampleShort : List PruneCall :=
  [sampleInsert 0 1, sampleInsert 1 2, sampleInsert 2 3, sampleInsert 3 4]

end Sample

/-- Nothing is in the store and nothing has been pruned. -/
structure Idle (p : RollingWindowPruner) : Prop where
  filed : p.blockStore.Filed
  stored : p.stored = ∅
  lastPrunedHeight : p.metadata.lastPrunedHeight = 0
  totalBlocksPruned : p.metadata.totalBlocksPruned = 0
  totalSizePruned : p.metadata.totalSizePruned = 0

theorem idle_new (windowSize snapshotInterval pruningThreshold : UInt64) :
    (new windowSize snapshotInterval pruningThreshold).Idle :=
  ⟨CachedBlockStore.filed_empty, rfl, rfl, rfl, rfl⟩

theorem Idle.takeSnapshotIfNeeded (h : p.Idle) (env : PruneEnv) (height : UInt64)
    (state : StateManager) : (p.takeSnapshotIfNeeded env height state).2.Idle := by
  obtain ⟨hstore, -⟩ := p.takeSnapshotIfNeeded_keeps env height state
  have hfiled := h.filed
  have hstored := h.stored
  rw [← hstore] at hfiled
  rw [RollingWindowPruner.stored, ← hstore] at hstored
  rcases p.takeSnapshotIfNeeded_cases env height state with
    ⟨hsame, -⟩ | ⟨-, ⟨-, hsame⟩ | ⟨-, htaken⟩⟩
  · rw [hsame]
    exact h
  · refine ⟨hfiled, hstored, ?_, ?_, ?_⟩
    all_goals rw [hsame]
    · exact h.lastPrunedHeight
    · exact h.totalBlocksPruned
    · exact h.totalSizePruned
  · refine ⟨hfiled, hstored, ?_, ?_, ?_⟩
    all_goals rw [htaken]
    · exact h.lastPrunedHeight
    · exact h.totalBlocksPruned
    · exact h.totalSizePruned

/-- In an empty store the scan finds nothing, and the call ends before the deletions. -/
theorem Idle.pruneBelow (h : p.Idle) (c : Crypto) (size : Block → UInt64) (env : PruneEnv)
    (height : UInt64) : (p.pruneBelow c size env height).2.Idle := by
  rcases p.pruneBelow_cases c size env height with ⟨e, hend⟩ | ⟨-, hend⟩ |
    ⟨-, result, s, hrange, hends⟩
  · rw [hend]
    exact h
  · rw [hend]
    exact h
  · obtain ⟨hfiled, hdb, hfinds⟩ := CachedBlockStore.getBlocksByHeightRange_spec h.filed env
      (p.mark + 1) (p.pruneUpTo height)
    rw [hrange] at hfiled hdb hfinds
    have hidle : ({ p with blockStore := s } : RollingWindowPruner).Idle :=
      ⟨hfiled, (congrArg BlockDatabase.blocks hdb).trans h.stored, h.lastPrunedHeight,
        h.totalBlocksPruned, h.totalSizePruned⟩
    rcases hends with ⟨e, -, hend⟩ | ⟨-, hend⟩ | ⟨blocks, hblocks, hne, hend⟩
    · rw [hend]
      exact hidle
    · rw [hend]
      exact hidle
    · obtain ⟨block, hblock⟩ := List.exists_mem_of_ne_nil blocks hne
      have hb := (((hfinds blocks hblocks).mem_iff block).mp hblock).1
      change p.stored.lookup block.hash = some block at hb
      rw [h.stored] at hb
      cases hb

theorem Idle.maybePrune (h : p.Idle) (c : Crypto) (size : Block → UInt64) (env : PruneEnv)
    (height : UInt64) (state : StateManager) : (p.maybePrune c size env height state).2.Idle := by
  cases hshould : p.shouldPrune height with
  | false =>
    rw [maybePrune_of_not_shouldPrune hshould]
    exact h
  | true =>
    have hsnap := h.takeSnapshotIfNeeded env height state
    obtain ⟨result, p', htaken, ⟨e, -, hend⟩ | ⟨-, hend⟩⟩ :=
      p.maybePrune_cases c size env state hshould
    all_goals
      rw [htaken] at hsnap
      rw [hend]
    · exact hsnap
    · exact hsnap.pruneBelow c size env height

end RollingWindowPruner

/-- The DAG of the node, over its own block store, and the pruner, over another one. -/
structure PruningNode where
  dag : BlockDag
  pruner : Option RollingWindowPruner

namespace PruningNode

variable (c : Crypto) (size : Block → UInt64) (n : PruningNode)

def new : PruningNode := ⟨.empty, some (.new 100000 1000 1000)⟩

/-- The end of a successful `execute_block`. -/
def snapshotAndPrune (env : PruneEnv) (state : StateManager) : PruningNode :=
  { n with pruner := n.pruner.map fun p =>
      (p.maybePrune c size env (UInt64.ofNat n.dag.blockCount) state).2 }

/-- The answer is the window, whatever the pruner answers. -/
def pruneStorage (env : PruneEnv) (window : UInt64) (state : StateManager) :
    Except String UInt64 × PruningNode :=
  match n.pruner with
  | none => (.error "Pruning not configured", n)
  | some p =>
    (.ok window, { n with pruner := some (p.maybePrune c size env (200000 + window) state).2 })

/-- An operation on the DAG, the pruning after an executed block, or a request. -/
inductive Event
  | dag (call : Call)
  | executed (env : PruneEnv) (state : StateManager)
  | pruneStorage (env : PruneEnv) (window : UInt64) (state : StateManager)

def step : Event → PruningNode
  | .dag call => { n with dag := n.dag.exec c call }
  | .executed env state => n.snapshotAndPrune c size env state
  | .pruneStorage env window state => (n.pruneStorage c size env window state).2

def run (events : List Event) : PruningNode := events.foldl (step c size) n

def Event.dagCall : Event → Option Call
  | .dag call => some call
  | _ => none

variable {c size n}

theorem dag_step (event : Event) :
    (n.step c size event).dag = event.dagCall.elim n.dag (n.dag.exec c) := by
  cases event with
  | dag call => rfl
  | executed env state => rfl
  | pruneStorage env window state =>
    change (n.pruneStorage c size env window state).2.dag = n.dag
    unfold pruneStorage
    cases n.pruner <;> rfl

theorem dag_run (events : List Event) :
    (n.run c size events).dag = BlockDag.runFrom c n.dag (events.filterMap Event.dagCall) := by
  induction events generalizing n with
  | nil => rfl
  | cons event events ih =>
    refine ih.trans ?_
    rw [dag_step, List.filterMap_cons]
    cases event.dagCall <;> rfl

theorem idle_step {p : RollingWindowPruner} (hp : n.pruner = some p) (h : p.Idle) (event : Event) :
    ∃ p', (n.step c size event).pruner = some p' ∧ p'.Idle := by
  cases event with
  | dag call => exact ⟨p, hp, h⟩
  | executed env state =>
    refine ⟨_, congrArg (Option.map _) hp, ?_⟩
    exact h.maybePrune c size env _ state
  | pruneStorage env window state =>
    refine ⟨(p.maybePrune c size env (200000 + window) state).2, ?_,
      h.maybePrune c size env _ state⟩
    change (n.pruneStorage c size env window state).2.pruner = _
    unfold pruneStorage
    rw [hp]

theorem idle_run {p : RollingWindowPruner} (hp : n.pruner = some p) (h : p.Idle)
    (events : List Event) : ∃ p', (n.run c size events).pruner = some p' ∧ p'.Idle := by
  induction events generalizing n p with
  | nil => exact ⟨p, hp, h⟩
  | cons event events ih =>
    obtain ⟨p', hp', h'⟩ : ∃ p', (n.step c size event).pruner = some p' ∧ p'.Idle :=
      idle_step hp h event
    exact ih hp' h'

/-- Whenever and with whatever window the node prunes, its DAG is what the operations on the DAG
make of it, nothing counts as pruned and the next height to prune from is still the first, while
every request answers its window. -/
theorem pruning_deletes_nothing (c : Crypto) (size : Block → UInt64) (events : List Event) :
    let n := new.run c size events
    n.dag = BlockDag.run c (events.filterMap Event.dagCall) ∧
      (∃ p, n.pruner = some p ∧ p.stored = ∅ ∧ p.metadata.lastPrunedHeight = 0 ∧
        p.metadata.totalBlocksPruned = 0 ∧ p.metadata.totalSizePruned = 0) ∧
      ∀ env window state, (n.pruneStorage c size env window state).1 = .ok window := by
  intro n
  obtain ⟨p, hp, h⟩ : ∃ p, n.pruner = some p ∧ p.Idle :=
    idle_run rfl (RollingWindowPruner.idle_new 100000 1000 1000) events
  refine ⟨dag_run events, ⟨p, hp, h.stored, h.lastPrunedHeight, h.totalBlocksPruned,
    h.totalSizePruned⟩, ?_⟩
  intro env window state
  unfold pruneStorage
  rw [hp]

end PruningNode

end CytahSpeed
