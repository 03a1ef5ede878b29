import CytahSpeed.PruneStep
import CytahSpeed.StepRun
import CytahSpeed.Watermark
import Mathlib.Data.UInt

/-!
# The window over whole runs

Blocks are inserted and pruned in any order. What a call removes lies above the mark and below the
window, so genesis and the window stay, and the metadata adds up what was removed. But a block that
comes when the mark has passed its height is out of reach of every later call.
-/

namespace CytahSpeed
open ByteString FiniteMap MachineInt Pruning

inductive PruneCall
  | insertBlock (env : StoreEnv) (block : Block)
  | maybePrune (env : PruneEnv) (height : UInt64) (state : StateManager)

def PruneCall.inserts : PruneCall → Option (BlockHash × Block)
  | .insertBlock env block => if env.writeError = none then some (block.hash, block) else none
  | .maybePrune _ _ _ => none

namespace RollingWindowPruner

variable (c : Crypto) (size : Block → UInt64) (p : RollingWindowPruner)

def insertBlock (env : StoreEnv) (block : Block) : Except String Unit × RollingWindowPruner :=
  match p.blockStore.insertBlock c env block with
  | (result, s) => (result, { p with blockStore := s })

def step : PruneCall → RollingWindowPruner
  | .insertBlock env block => (p.insertBlock c env block).2
  | .maybePrune env height state => (p.maybePrune c size env height state).2

def Succeeds : PruneCall → Prop
  | .insertBlock env block => (p.insertBlock c env block).1 = .ok ()
  | .maybePrune env height state => ∃ n, (p.maybePrune c size env height state).1 = .ok n

def returned : PruneCall → List UInt64
  | .insertBlock _ _ => []
  | .maybePrune env height state => (p.maybePrune c size env height state).1.toOption.toList

def returnedCounts : RollingWindowPruner → List PruneCall → List UInt64
  | _, [] => []
  | p, call :: calls => p.returned c size call ++ returnedCounts (p.step c size call) calls

structure PrunesSafely (windowSize pruningThreshold : UInt64) (p : RollingWindowPruner)
    (env : PruneEnv) (height : UInt64) (state : StateManager) : Prop where
  kept : ∀ hash block,
    (p.maybePrune c size env height state).2.stored.lookup hash = some block →
      p.stored.lookup hash = some block
  removed : ∀ hash block, p.stored.lookup hash = some block →
    (p.maybePrune c size env height state).2.stored.lookup hash = none →
      pruningThreshold ≤ height ∧ 1 ≤ block.height.toNat ∧
        block.height.toNat + windowSize.toNat ≤ height.toNat
  counted : ∀ n, (p.maybePrune c size env height state).1 = .ok n →
    n = p.removedCount (p.maybePrune c size env height state).2

/-- Every block up to the target that is the last one inserted under its hash came while the mark
was below its height. -/
def ArriveInTime (calls : List PruneCall) (target : ℕ) : Prop :=
  ∀ before env block after, calls = before ++ .insertBlock env block :: after →
    env.writeError = none →
    (∀ env' block', .insertBlock env' block' ∈ after → env'.writeError = none →
      block'.hash ≠ block.hash) →
    1 ≤ block.height.toNat → block.height.toNat ≤ target →
      (before.foldl (step c size) p).mark < block.height

section Run
variable {c size p} {env : PruneEnv} {height : UInt64} {state : StateManager}

theorem lookup_step_of_inserts {call : PruneCall} {hash : BlockHash} {block : Block}
    (h : call.inserts = some (hash, block)) (k : BlockHash) :
    (p.step c size call).stored.lookup k = if k = hash then some block else p.stored.lookup k := by
  cases call with
  | maybePrune env height state => cases h
  | insertBlock env b =>
    unfold PruneCall.inserts at h
    dsimp only at h
    split_ifs at h with hwrite
    cases h
    exact CachedBlockStore.lookup_insertBlock hwrite p.blockStore block k

theorem filed_step (hp : p.blockStore.Filed) (call : PruneCall) :
    (p.step c size call).blockStore.Filed := by
  cases call with
  | insertBlock env block => exact hp.insertBlock block
  | maybePrune env height state =>
    unfold step
    dsimp only
    cases h : p.shouldPrune height with
    | true => exact (maybePrune_prunes hp h).filed
    | false =>
      rw [maybePrune_of_not_shouldPrune h]
      exact hp

theorem filed_run (hp : p.blockStore.Filed) (calls : List PruneCall) :
    (calls.foldl (step c size) p).blockStore.Filed := by
  induction calls generalizing p with
  | nil => exact hp
  | cons call calls ih => exact ih (filed_step hp call)

theorem sameConfig_maybePrune (c : Crypto) (size : Block → UInt64) (p : RollingWindowPruner)
    (env : PruneEnv) (height : UInt64) (state : StateManager) :
    p.SameConfig (p.maybePrune c size env height state).2 := by
  cases h : p.shouldPrune height with
  | false =>
    rw [maybePrune_of_not_shouldPrune h]
    exact .refl p
  | true =>
    obtain ⟨-, hconfig⟩ := p.takeSnapshotIfNeeded_keeps env height state
    obtain ⟨result, p', hsnap, hends⟩ := p.maybePrune_cases c size env state h
    rw [hsnap] at hconfig
    rcases hends with ⟨e, -, hend⟩ | ⟨-, hend⟩
    · rw [hend]
      exact hconfig
    · rw [hend]
      obtain ⟨hbelow, -⟩ := pruneBelow_keeps c size p' env height
      exact hconfig.trans hbelow

theorem sameConfig_step (call : PruneCall) : p.SameConfig (p.step c size call) := by
  cases call with
  | insertBlock env block => exact ⟨rfl, rfl, rfl⟩
  | maybePrune env height state => exact sameConfig_maybePrune c size p env height state

theorem sameConfig_run (calls : List PruneCall) :
    p.SameConfig (calls.foldl (step c size) p) := by
  induction calls generalizing p with
  | nil => exact .refl p
  | cons call calls ih => exact (sameConfig_step call).trans ih

theorem prunesSafely (hp : p.blockStore.Filed) (env : PruneEnv) (height : UInt64)
    (state : StateManager) : PrunesSafely c size p.windowSize p.pruningThreshold p env height
      state := by
  cases h : p.shouldPrune height with
  | false =>
    refine ⟨?_, ?_, ?_⟩
    · rw [maybePrune_of_not_shouldPrune h]
      exact fun _ _ hb => hb
    · rw [maybePrune_of_not_shouldPrune h]
      intro hash block hb hnone
      exact absurd (hb.symm.trans hnone) (by simp)
    · rw [maybePrune_of_not_shouldPrune h]
      intro n hn
      rw [← Except.ok.inj hn, removedCount, Finset.sdiff_self, Finset.card_empty]
      rfl
  | true =>
    have hprunes : p.Prunes (p.pruneUpTo height) (p.maybePrune c size env height state) :=
      maybePrune_prunes hp h
    refine ⟨hprunes.kept, ?_, fun n hn => (hprunes.counted n hn).1⟩
    intro hash block hblock hnone
    obtain ⟨hmark, hle⟩ := hprunes.removed hash block hblock hnone
    have hpos := UInt64.lt_iff_toNat_lt.mp hmark
    have htarget := UInt64.le_iff_toNat_le.mp hle
    rw [toNat_pruneUpTo] at htarget
    exact ⟨of_decide_eq_true h, by omega, by omega⟩

theorem totalBlocksPruned_step (hp : p.blockStore.Filed) {call : PruneCall}
    (hok : p.Succeeds c size call) : (p.step c size call).metadata.totalBlocksPruned =
      p.metadata.totalBlocksPruned + (p.returned c size call).sum := by
  cases call with
  | insertBlock env block => exact (UInt64.add_zero _).symm
  | maybePrune env height state =>
    obtain ⟨n, hn⟩ := hok
    have hreturned : (p.returned c size (.maybePrune env height state)).sum = n := by
      unfold returned
      dsimp only
      rw [hn]
      exact UInt64.add_zero n
    rw [hreturned]
    cases h : p.shouldPrune height with
    | false =>
      rw [maybePrune_of_not_shouldPrune h] at hn
      cases hn
      unfold step
      dsimp only
      rw [maybePrune_of_not_shouldPrune h]
      exact (UInt64.add_zero _).symm
    | true => exact ((maybePrune_prunes hp h).counted n hn).2

theorem totalBlocksPruned_run (hp : p.blockStore.Filed) (calls : List PruneCall)
    (hok : StepRun.Along (step c size) (Succeeds c size) p calls) :
    (calls.foldl (step c size) p).metadata.totalBlocksPruned =
      p.metadata.totalBlocksPruned + (returnedCounts c size p calls).sum := by
  induction calls generalizing p with
  | nil => exact (UInt64.add_zero _).symm
  | cons call calls ih =>
    rw [List.foldl_cons, ih (filed_step hp call) hok.2, totalBlocksPruned_step hp hok.1,
      returnedCounts, List.sum_append, UInt64.add_assoc]

/-- The watermark of the store is the height up to which it has been pruned. -/
def retention (c : Crypto) (size : Block → UInt64) :
    Watermark.System RollingWindowPruner PruneCall BlockHash Block where
  step := step c size
  inserts := PruneCall.inserts
  entries p hash := p.stored.lookup hash
  mark p := p.mark.toNat
  height block := block.height.toNat
  Inv p := p.blockStore.Filed
  inv_step _ call hp := filed_step hp call
  entries_insert _ _ _ _ _ h := lookup_step_of_inserts h
  mark_insert p call k v _ h := by
    cases call with
    | insertBlock env block => rfl
    | maybePrune env height state => cases h
  retires p call hp h := by
    cases call with
    | insertBlock env block =>
      unfold PruneCall.inserts at h
      dsimp only at h
      cases hwrite : env.writeError with
      | none =>
        rw [hwrite] at h
        cases h
      | some e =>
        have hsame : p.step c size (.insertBlock env block) = p := by
          unfold step insertBlock
          dsimp only
          rw [CachedBlockStore.insertBlock_of_error hwrite]
        rw [hsame]
        exact .refl _ _ _
    | maybePrune env height state =>
      unfold step
      dsimp only
      cases hshould : p.shouldPrune height with
      | false =>
        rw [maybePrune_of_not_shouldPrune hshould]
        exact .refl _ _ _
      | true =>
        have hprunes : p.Prunes (p.pruneUpTo height) (p.maybePrune c size env height state) :=
          maybePrune_prunes hp hshould
        refine ⟨hprunes.kept, fun k v hv hnone =>
          UInt64.lt_iff_toNat_lt.mp (hprunes.removed k v hv hnone).1, ?_⟩
        rcases hprunes.moved with hsame | ⟨hlt, hmark, n, hn⟩
        · exact Or.inl (congrArg UInt64.toNat hsame)
        · rw [hmark]
          refine Or.inr ⟨UInt64.lt_iff_toNat_lt.mp hlt, ?_⟩
          rintro k v hv ⟨habove, hle⟩
          exact hprunes.cleared n hn k v hv
            ⟨UInt64.lt_iff_toNat_lt.mpr habove, UInt64.le_iff_toNat_le.mpr hle⟩

theorem inserts_eq_some {call : PruneCall} {hash : BlockHash} {block : Block}
    (h : call.inserts = some (hash, block)) : ∃ env : StoreEnv, env.writeError = none ∧
      call = .insertBlock env block ∧ hash = block.hash := by
  cases call with
  | maybePrune env height state => cases h
  | insertBlock env b =>
    unfold PruneCall.inserts at h
    dsimp only at h
    split_ifs at h with hwrite
    cases h
    exact ⟨env, hwrite, rfl, rfl⟩

theorem inserts_of_ok {env : StoreEnv} (h : env.writeError = none) (block : Block) :
    (PruneCall.insertBlock env block).inserts = some (block.hash, block) := if_pos h

theorem arriveInTime_iff (p : RollingWindowPruner) (calls : List PruneCall) (target : ℕ) :
    p.ArriveInTime c size calls target ↔
      ∀ before k v, (retention c size).PutLast calls before k v → 1 ≤ v.height.toNat →
        v.height.toNat ≤ target →
          ((retention c size).run p before).mark.toNat < v.height.toNat := by
  constructor
  · rintro h before k block ⟨call, after, hsplit, hins, hlast⟩ hpos hle
    obtain ⟨env, hwrite, rfl, rfl⟩ := inserts_eq_some hins
    refine UInt64.lt_iff_toNat_lt.mp (h before env block after hsplit hwrite ?_ hpos hle)
    intro env' block' hmem hwrite' hhash
    refine hlast _ hmem block' ?_
    rw [← hhash]
    exact inserts_of_ok hwrite' block'
  · intro h before env block after hsplit hwrite hlast hpos hle
    refine UInt64.lt_iff_toNat_lt.mpr (h before block.hash block
      ⟨_, after, hsplit, inserts_of_ok hwrite block, ?_⟩ hpos hle)
    intro call hmem block' hins
    obtain ⟨env', hwrite', rfl, hhash⟩ := inserts_eq_some hins
    exact hlast env' block' hmem hwrite' hhash.symm

theorem cleared_of_ok (hp : p.blockStore.Filed) (hthreshold : p.pruningThreshold ≤ height)
    {n : UInt64} (hok : (p.maybePrune c size env height state).1 = .ok n) :
    ∀ hash block, (p.maybePrune c size env height state).2.stored.lookup hash = some block →
      ¬ (p.mark.toNat < block.height.toNat ∧
        block.height.toNat ≤ height.toNat - p.windowSize.toNat) := by
  have hprunes : p.Prunes (p.pruneUpTo height) (p.maybePrune c size env height state) :=
    maybePrune_prunes hp (decide_eq_true hthreshold)
  rintro hash block hblock ⟨hmark, hle⟩
  rw [← toNat_pruneUpTo] at hle
  exact hprunes.cleared n hok hash block hblock
    ⟨UInt64.lt_iff_toNat_lt.mpr hmark, UInt64.le_iff_toNat_le.mpr hle⟩

end Run

section Accounts
variable (c : Crypto) (size : Block → UInt64)
  (windowSize snapshotInterval pruningThreshold : UInt64)

/-- In every run of successful calls, each call that prunes removes blocks between genesis and the
window only and returns their number, and the metadata holds the sum of the numbers returned. -/
theorem pruneRun_accounted (calls : List PruneCall)
    (hok : StepRun.Along (step c size) (Succeeds c size)
      (new windowSize snapshotInterval pruningThreshold) calls) :
    (∀ before env height state after,
      calls = before ++ .maybePrune env height state :: after →
        PrunesSafely c size windowSize pruningThreshold
          (before.foldl (step c size) (new windowSize snapshotInterval pruningThreshold))
          env height state) ∧
      (calls.foldl (step c size)
          (new windowSize snapshotInterval pruningThreshold)).metadata.totalBlocksPruned =
        (returnedCounts c size (new windowSize snapshotInterval pruningThreshold) calls).sum := by
  have hnew : (new windowSize snapshotInterval pruningThreshold).blockStore.Filed :=
    CachedBlockStore.filed_empty
  constructor
  · intro before env height state after _
    set p := before.foldl (step c size) (new windowSize snapshotInterval pruningThreshold)
    have hfiled : p.blockStore.Filed := filed_run hnew before
    have hconfig : (new windowSize snapshotInterval pruningThreshold).SameConfig p :=
      sameConfig_run before
    have hsafe : PrunesSafely c size p.windowSize p.pruningThreshold p env height state :=
      prunesSafely hfiled env height state
    rw [hconfig.windowSize, hconfig.pruningThreshold] at hsafe
    exact hsafe
  · rw [totalBlocksPruned_run hnew calls hok]
    exact UInt64.zero_add _

/-- After a successful call from the threshold on, the database is empty between genesis and the
window exactly when every block there came while the mark was below its height. -/
theorem pruneRun_cleared_iff (calls : List PruneCall) (env : PruneEnv) (height : UInt64)
    (state : StateManager) (n : UInt64) (hthreshold : pruningThreshold ≤ height)
    (hwindow : windowSize < height)
    (hok : ((calls.foldl (step c size)
      (new windowSize snapshotInterval pruningThreshold)).maybePrune c size env height state).1 =
        .ok n) :
    (∀ hash block, ((calls.foldl (step c size)
        (new windowSize snapshotInterval pruningThreshold)).maybePrune c size env height
          state).2.stored.lookup hash = some block →
        ¬ (1 ≤ block.height.toNat ∧ block.height.toNat + windowSize.toNat ≤ height.toNat)) ↔
      ArriveInTime c size (new windowSize snapshotInterval pruningThreshold) calls
        (height.toNat - windowSize.toNat) := by
  have hnew : (new windowSize snapshotInterval pruningThreshold).blockStore.Filed :=
    CachedBlockStore.filed_empty
  have hconfig : (new windowSize snapshotInterval pruningThreshold).SameConfig
      (calls.foldl (step c size) (new windowSize snapshotInterval pruningThreshold)) :=
    sameConfig_run calls
  have hlt := UInt64.lt_iff_toNat_lt.mp hwindow
  have hcleared := cleared_of_ok (filed_run hnew calls) (by rwa [hconfig.pruningThreshold]) hok
  rw [hconfig.windowSize] at hcleared
  have hrun : (retention c size).run (new windowSize snapshotInterval pruningThreshold)
      (calls ++ [.maybePrune env height state]) = ((calls.foldl (step c size)
        (new windowSize snapshotInterval pruningThreshold)).maybePrune c size env height state).2 :=
    Watermark.System.run_concat calls _
  have hinv : (retention c size).Inv (new windowSize snapshotInterval pruningThreshold) := hnew
  have hclear : ∀ k v, (retention c size).entries ((retention c size).run
      (new windowSize snapshotInterval pruningThreshold)
        (calls ++ [.maybePrune env height state])) k = some v →
      ¬ ((retention c size).mark ((retention c size).run
          (new windowSize snapshotInterval pruningThreshold) calls) < (retention c size).height v ∧
        (retention c size).height v ≤ height.toNat - windowSize.toNat) := by
    rw [hrun]
    exact hcleared
  have hiff := Watermark.System.cleared_iff hinv (fun _ => rfl) calls rfl hclear
  rw [hrun] at hiff
  rw [arriveInTime_iff]
  refine Iff.trans ?_ hiff
  -- a height is within reach exactly if adding the window does not pass the call's height
  refine forall_congr' fun hash => forall_congr' fun block => imp_congr_right fun _ => ?_
  refine not_congr (and_congr_right fun _ => ?_)
  change _ ↔ block.height.toNat ≤ height.toNat - windowSize.toNat
  omega

end Accounts

section Sample

def sampleSize : Block → UInt64 := fun _ => 300

def sampleState : StateManager := ⟨⟨none, ∅⟩, Bytes.zero 32⟩

def sampleBlock (height : UInt64) (tag : UInt8) : Block :=
  ⟨Bytes.fill 32 tag, ⟨[], 1000, 0, 0, 0, Bytes.zero 32, 1, 0, none, 0, 0⟩, [], Bytes.fill 20 7, 50,
    height⟩

def sampleInsert (height : UInt64) (tag : UInt8) : PruneCall :=
  .insertBlock ⟨.sorted, none⟩ (sampleBlock height tag)

def samplePrune (height : UInt64) : PruneCall :=
  .maybePrune (.reliable 0) height sampleState

def sampleCalls : List PruneCall := [sampleInsert 0 1, sampleInsert 1 2, samplePrune 100010]

def nodePruner : RollingWindowPruner := new 100000 1000 1000

theorem sampleCalls_succeed :
    StepRun.Along (step .hashOnly sampleSize) (Succeeds .hashOnly sampleSize) nodePruner
      sampleCalls :=
  ⟨rfl, rfl, ⟨1, by decide +kernel⟩, trivial⟩

/-- One block is pruned and counted. -/
theorem pruneRun_accounted_sample :
    PrunesSafely .hashOnly sampleSize 100000 1000
        ((sampleCalls.take 2).foldl (step .hashOnly sampleSize) nodePruner) (.reliable 0) 100010
        sampleState ∧
      (sampleCalls.foldl (step .hashOnly sampleSize) nodePruner).metadata.totalBlocksPruned =
        1 := by
  obtain ⟨hsafe, htotal⟩ := pruneRun_accounted .hashOnly sampleSize 100000 1000 1000 sampleCalls
    sampleCalls_succeed
  refine ⟨hsafe (sampleCalls.take 2) (.reliable 0) 100010 _ [] rfl, htotal.trans ?_⟩
  decide +kernel

/-- The block of height one came in time, so nothing is left below the window. -/
theorem pruneRun_cleared_sample :
    (∀ hash block, (((sampleCalls.take 2).foldl (step .hashOnly sampleSize)
        nodePruner).maybePrune .hashOnly sampleSize (.reliable 0) 100010
          sampleState).2.stored.lookup hash = some block →
        ¬ (1 ≤ block.height.toNat ∧ block.height.toNat + (100000 : UInt64).toNat ≤
          (100010 : UInt64).toNat)) ↔
      ArriveInTime .hashOnly sampleSize nodePruner (sampleCalls.take 2)
        ((100010 : UInt64).toNat - (100000 : UInt64).toNat) :=
  pruneRun_cleared_iff .hashOnly sampleSize 100000 1000 1000 (sampleCalls.take 2) (.reliable 0)
    100010 sampleState 1 (by decide) (by decide) (by decide +kernel)

/-- A block of height two comes when the mark is at ten. -/
def lateCall : Except String UInt64 × RollingWindowPruner :=
  ((sampleCalls ++ [sampleInsert 2 3]).foldl (step .hashOnly sampleSize) nodePruner).maybePrune
    .hashOnly sampleSize (.reliable 0) 100011 sampleState

/-- The next call succeeds and leaves it. -/
theorem late_block_stays :
    lateCall.1 = .ok 0 ∧
      lateCall.2.stored.lookup (Bytes.fill 32 3) = some (sampleBlock 2 3) ∧
      1 ≤ (sampleBlock 2 3).height.toNat ∧
      (sampleBlock 2 3).height.toNat + (100000 : UInt64).toNat ≤ (100011 : UInt64).toNat :=
  ⟨by decide +kernel, by decide +kernel, by decide, by decide⟩

end Sample

end RollingWindowPruner

end CytahSpeed
