import CytahSpeed.PrunedWindow

/-!
# When snapshots are taken

The node calls the pruner with two kinds of heights: the number of blocks of the DAG, and, on a
request to prune, two hundred thousand and a window. The pruner notes the height of its last
snapshot and subtracts it from the next one. After a request the heights of the DAG lie below it:
the subtraction wraps around, and a snapshot is taken.
-/

namespace CytahSpeed
open ByteString FiniteMap MachineInt Pruning

/-- The pruner's calls at the heights that the node gives it, among insertions into the pruner's own
store. The node itself inserts nothing there. -/
inductive NodePrune
  | insertBlock (env : StoreEnv) (block : Block)
  | executeBlock (env : PruneEnv) (blockCount : ℕ) (state : StateManager)
  | pruneStorage (env : PruneEnv) (window : UInt64) (state : StateManager)

def NodePrune.call : NodePrune → PruneCall
  | .insertBlock env block => .insertBlock env block
  | .executeBlock env blockCount state => .maybePrune env (UInt64.ofNat blockCount) state
  | .pruneStorage env window state => .maybePrune env (200000 + window) state

namespace RollingWindowPruner

variable (c : Crypto) (size : Block → UInt64) (p : RollingWindowPruner)

def HasAdvanced (height : UInt64) : Prop :=
  p.metadata.lastSnapshotHeight.toNat + p.snapshotInterval.toNat ≤ height.toNat

structure Taken (env : PruneEnv) (height : UInt64) (state : StateManager)
    (p' : RollingWindowPruner) : Prop where
  snapshots : p'.snapshots = p.snapshots.insert (snapshotKey height)
    (stateSnapshot env height state)
  lastSnapshotHeight : p'.metadata.lastSnapshotHeight = height
  snapshotCount : p'.metadata.snapshotCount = p.metadata.snapshotCount + 1

structure SnapshotsExactly (env : PruneEnv) (height : UInt64) (state : StateManager) : Prop where
  no_underflow : p.shouldPrune height = true → env.checkRead = none →
    p.metadata.lastSnapshotHeight ≤ height
  taken : p.HasAdvanced height → ∀ n, (p.maybePrune c size env height state).1 = .ok n →
    p.Taken env height state (p.maybePrune c size env height state).2
  not_taken : ¬ p.HasAdvanced height → p.SameSnapshot (p.maybePrune c size env height state).2

/-- From the threshold on, the height is not below that of the last snapshot, unless the metadata
cannot be read; below the threshold it has not advanced. -/
structure Forward (env : PruneEnv) (height : UInt64) : Prop where
  reached : p.pruningThreshold ≤ height → env.checkRead = none →
    p.metadata.lastSnapshotHeight ≤ height
  below : height < p.pruningThreshold → ¬ p.HasAdvanced height

def KeepsSchedule : PruneCall → Prop
  | .insertBlock _ _ => True
  | .maybePrune env height state => p.SnapshotsExactly c size env height state

def GoesForward : PruneCall → Prop
  | .insertBlock _ _ => True
  | .maybePrune env height _ => p.Forward env height

variable {c size p} {env : PruneEnv} {height : UInt64} {state : StateManager}

theorem snapshotDue_iff (h : p.metadata.lastSnapshotHeight ≤ height) :
    p.SnapshotDue height ↔ p.HasAdvanced height := by
  have hle := UInt64.le_iff_toNat_le.mp h
  rw [SnapshotDue, HasAdvanced, UInt64.le_iff_toNat_le, UInt64.toNat_sub_of_le _ _ h]
  omega

/-- Where the interval reaches the threshold, as in the node, a height below the threshold has not
advanced. -/
theorem forward_iff_of_le (h : p.pruningThreshold ≤ p.snapshotInterval) :
    p.Forward env height ↔ (p.pruningThreshold ≤ height → env.checkRead = none →
      p.metadata.lastSnapshotHeight ≤ height) := by
  refine ⟨fun hforward => hforward.reached, fun hreached => ⟨hreached, ?_⟩⟩
  intro hlt hadvanced
  have hbelow := UInt64.lt_iff_toNat_lt.mp (UInt64.lt_of_lt_of_le hlt h)
  unfold HasAdvanced at hadvanced
  omega

theorem not_taken_of_sameSnapshot {p' : RollingWindowPruner} (h : p.SameSnapshot p') :
    ¬ p.Taken env height state p' := by
  intro htaken
  have hcount : p.metadata.snapshotCount + 1 = p.metadata.snapshotCount :=
    htaken.snapshotCount.symm.trans h.snapshotCount
  have := congrArg UInt32.toNat hcount
  rw [UInt32.toNat_add] at this
  have hlt := p.metadata.snapshotCount.toNat_lt
  change (_ + 1) % 2 ^ 32 = _ at this
  omega

theorem sameSnapshot_maybePrune (h : p.shouldPrune height = true) :
    (p.takeSnapshotIfNeeded env height state).2.SameSnapshot
        (p.maybePrune c size env height state).2 ∧
      ∀ n, (p.maybePrune c size env height state).1 = .ok n →
        (p.takeSnapshotIfNeeded env height state).1 = .ok () := by
  obtain ⟨result, p', hsnap, ⟨e, rfl, hend⟩ | ⟨rfl, hend⟩⟩ :=
    p.maybePrune_cases c size env state h
  all_goals rw [hsnap, hend]
  · exact ⟨.refl p', fun n hn => by cases hn⟩
  · exact ⟨(pruneBelow_keeps c size p' env height).2, fun _ _ => rfl⟩

theorem snapshotsExactly_of_reached (h : p.shouldPrune height = true)
    (hreached : env.checkRead = none → p.metadata.lastSnapshotHeight ≤ height) :
    p.SnapshotsExactly c size env height state := by
  obtain ⟨hsame, hok⟩ : (p.takeSnapshotIfNeeded env height state).2.SameSnapshot
      (p.maybePrune c size env height state).2 ∧ _ := sameSnapshot_maybePrune h
  rcases p.takeSnapshotIfNeeded_cases env height state with
    ⟨hstay, hnotdue⟩ | ⟨⟨hread, hdue⟩, hrest⟩
  · rw [hstay] at hsame
    refine ⟨fun _ => hreached, ?_, fun _ => hsame⟩
    intro hadvanced n hn
    obtain ⟨hread, hdue⟩ := hnotdue (hok n hn)
    exact absurd ((snapshotDue_iff (hreached hread)).mpr hadvanced) hdue
  · have hadvanced := (snapshotDue_iff (hreached hread)).mp hdue
    refine ⟨fun _ => hreached, ?_, fun hnot => absurd hadvanced hnot⟩
    intro _ n hn
    rcases hrest with ⟨⟨e, he⟩, -⟩ | ⟨hsnapshots, hnoted⟩
    · rw [hok n hn] at he
      cases he
    · refine ⟨hsame.snapshots.trans hsnapshots, ?_, ?_⟩
      · rw [hsame.lastSnapshotHeight, hnoted]
        rfl
      · rw [hsame.snapshotCount, hnoted]
        rfl

theorem snapshotsExactly_iff :
    p.SnapshotsExactly c size env height state ↔ p.Forward env height := by
  cases h : p.shouldPrune height with
  | false =>
    have hcall : p.maybePrune c size env height state = (.ok 0, p) :=
      maybePrune_of_not_shouldPrune h
    have hlt : height < p.pruningThreshold := UInt64.not_le.mp (of_decide_eq_false h)
    constructor
    · intro hexact
      refine ⟨fun hle => absurd hle (UInt64.not_le.mpr hlt), ?_⟩
      intro _ hadvanced
      have htaken := hexact.taken hadvanced 0 (by rw [hcall])
      rw [hcall] at htaken
      exact not_taken_of_sameSnapshot (.refl p) htaken
    · intro hforward
      have hnot := hforward.below hlt
      refine ⟨fun htrue => absurd (h.symm.trans htrue) Bool.false_ne_true,
        fun hadvanced => absurd hadvanced hnot, fun _ => ?_⟩
      rw [hcall]
      exact .refl p
  | true =>
    have hle : p.pruningThreshold ≤ height := of_decide_eq_true h
    constructor
    · intro hexact
      exact ⟨fun _ hread => hexact.no_underflow h hread,
        fun hlt => absurd hle (UInt64.not_le.mpr hlt)⟩
    · intro hforward
      exact snapshotsExactly_of_reached h (hforward.reached hle)

/-- In a run of calls of the node every call keeps the schedule exactly when every height goes
forward. -/
theorem pruneRun_schedule_iff (c : Crypto) (size : Block → UInt64) (p : RollingWindowPruner)
    (calls : List NodePrune) :
    StepRun.Along (step c size) (KeepsSchedule c size) p (calls.map NodePrune.call) ↔
      StepRun.Along (step c size) GoesForward p (calls.map NodePrune.call) := by
  refine StepRun.along_congr ?_ p _
  intro p call
  cases call with
  | insertBlock env block => exact Iff.rfl
  | maybePrune env height state => exact snapshotsExactly_iff

section Sample

def sampleNodeCalls : List NodePrune :=
  [.pruneStorage (.reliable 0) 100000 sampleState, .executeBlock (.reliable 0) 1500 sampleState]

/-- The last snapshot is noted at height 300000. The subtraction of the next call underflows, and
the call takes a snapshot at height 1500. -/
theorem sampleNodeCalls_underflow :
    (nodePruner.step .hashOnly sampleSize
        (NodePrune.call (.pruneStorage (.reliable 0) 100000 sampleState))).metadata =
      ⟨0, 0, 0, 300000, 1⟩ ∧
    ((sampleNodeCalls.map NodePrune.call).foldl (step .hashOnly sampleSize) nodePruner).metadata =
      ⟨0, 0, 0, 1500, 2⟩ ∧
    ¬ StepRun.Along (step .hashOnly sampleSize) (KeepsSchedule .hashOnly sampleSize) nodePruner
      (sampleNodeCalls.map NodePrune.call) := by
  have hfirst : (nodePruner.step .hashOnly sampleSize
      (NodePrune.call (.pruneStorage (.reliable 0) 100000 sampleState))).metadata =
        ⟨0, 0, 0, 300000, 1⟩ := by decide +kernel
  refine ⟨hfirst, by decide +kernel, ?_⟩
  rintro ⟨-, hexact, -⟩
  have hle := SnapshotsExactly.no_underflow hexact (by decide +kernel) rfl
  rw [hfirst] at hle
  exact absurd hle (by decide)

end Sample

end RollingWindowPruner

end CytahSpeed
