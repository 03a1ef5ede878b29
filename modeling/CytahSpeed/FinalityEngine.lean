import CytahSpeed.TopologicalOrder

/-!
# The finality engine

`compute_finality` rebuilds the interval tree, the heights and the scores from the topological
order, recomputes the virtual selected parents and replaces the finalised blocks; a block's score
is its position in the order. Blue scores, virtual selected parents, anticones and reachability
answers are cached. The engine's fields sit behind locks, so a call that fails keeps what it
wrote before. The double-precision safety margin is a parameter of the threshold.
-/

namespace CytahSpeed
open ByteString FiniteMap MachineInt

namespace BlockDag

variable (d : BlockDag)

def getAllBlockHashes : List BlockHash := d.store.getAllHashes

def getBlockParents (hash : BlockHash) : Option (List BlockHash) :=
  (d.getBlock hash).map (·.header.parentHashes)

/-- All ancestors and the block itself, for a stored block. -/
def getBlueSet (hash : BlockHash) : Option (Finset BlockHash) :=
  if d.store.blockExists hash then some (insert hash (d.getAncestors hash)) else none

end BlockDag

/-- A block hash as `{:?}` prints it. -/
def debugHash (hash : BlockHash) : String :=
  "[" ++ ", ".intercalate (hash.toList.map toString) ++ "]"

structure IntervalNode where
  blockHash : BlockHash
  height : UInt64
  score : UInt64
  deriving DecidableEq

inductive IntervalTree
  | nil
  | node (node : IntervalNode) (reachabilityCache : Map BlockHash Bool) (left right : IntervalTree)

namespace IntervalTree

/-- Remove the element at `i` and put the last one in its place. -/
def swapRemove {α : Type*} (i : ℕ) (l : List α) : List α :=
  match l.getLast? with
  | some last => (l.set i last).dropLast
  | none => []

/-- The middle node by height at the root, lower nodes on the left. Every call removes a node, so
fuel for each of them is enough. -/
def buildBalancedTree : ℕ → List IntervalNode → IntervalTree
  | 0, _ => .nil
  | fuel + 1, nodes =>
    let sorted := nodes.insertionSort (fun a b => a.height ≤ b.height)
    match sorted[sorted.length / 2]? with
    | none => .nil
    | some middle =>
      let others := swapRemove (sorted.length / 2) sorted
      .node middle ∅ (buildBalancedTree fuel (others.filter (·.height < middle.height)))
        (buildBalancedTree fuel (others.filter (¬ ·.height < middle.height)))

/-- The cache of the first node for the block, in preorder. -/
def findNode (target : BlockHash) : IntervalTree → Option (Map BlockHash Bool)
  | .nil => none
  | .node n cache left right =>
    if n.blockHash = target then some cache
    else (left.findNode target).or (right.findNode target)

def setCache (target : BlockHash) (cache' : Map BlockHash Bool) : IntervalTree → IntervalTree
  | .nil => .nil
  | .node n cache left right =>
    if n.blockHash = target then .node n cache' left right
    else if (left.findNode target).isSome then .node n cache (left.setCache target cache') right
    else .node n cache left (right.setCache target cache')

end IntervalTree

structure AnticoneEntry where
  anticone : Finset BlockHash
  computedAt : ℕ
  size : ℕ

structure VirtualSelectedParent where
  blockHash : BlockHash
  height : UInt64
  score : UInt64
  blueScore : UInt64
  deriving DecidableEq

structure FinalityEngine where
  confirmationDepth : ℕ
  k : UInt64
  intervalTree : Option IntervalTree
  anticoneCache : Map BlockHash AnticoneEntry
  vspCache : Map BlockHash VirtualSelectedParent
  finalizedBlocks : Map UInt64 (Finset BlockHash)
  blockHeights : Map BlockHash UInt64
  blockScores : Map BlockHash UInt64
  blueScores : Map BlockHash UInt64
  maxCacheSize : ℕ

namespace FinalityEngine

def newWithK (confirmationDepth : ℕ) (k : UInt64) : FinalityEngine :=
  ⟨confirmationDepth, k, none, ∅, ∅, ∅, ∅, ∅, ∅, 10000⟩

def new (confirmationDepth : ℕ) : FinalityEngine := newWithK confirmationDepth 8

variable (e : FinalityEngine) (dag : BlockDag)

structure Collected where
  nodes : List IntervalNode
  heights : Map BlockHash UInt64
  scores : Map BlockHash UInt64

def collect : ℕ → List BlockHash → Collected → Except String Collected
  | _, [], acc => .ok acc
  | index, hash :: rest, acc =>
    match dag.getBlockHeight hash with
    | none => .error ("Block height not found for " ++ debugHash hash)
    | some height =>
      let score := UInt64.ofNat index
      collect (index + 1) rest
        ⟨acc.nodes ++ [⟨hash, height, score⟩], acc.heights.insert hash height,
          acc.scores.insert hash score⟩

def buildIntervalTree (ordering : List BlockHash) : Except String Unit × FinalityEngine :=
  if ordering.isEmpty then (.ok (), e)
  else
    match collect dag 0 ordering ⟨[], ∅, ∅⟩ with
    | .error err => (.error err, e)
    | .ok acc =>
      (.ok (),
        { e with
          intervalTree := some (IntervalTree.buildBalancedTree acc.nodes.length acc.nodes)
          blockHeights := acc.heights
          blockScores := acc.scores })

def getBlueScore (hash : BlockHash) : Except String UInt64 × FinalityEngine :=
  match e.blueScores.lookup hash with
  | some score => (.ok score, e)
  | none =>
    match dag.getBlueSet hash with
    | none => (.error ("Blue set not found for block " ++ debugHash hash), e)
    | some blueSet =>
      let score := UInt64.ofNat blueSet.card
      (.ok score, { e with blueScores := e.blueScores.insert hash score })

/-- The loop over the parents: the first one of greatest blue score, if any score is positive. -/
def bestParentLoop :
    List BlockHash → Option BlockHash × UInt64 → FinalityEngine →
      Except String (Option BlockHash × UInt64) × FinalityEngine
  | [], best, e => (.ok best, e)
  | parent :: rest, best, e =>
    match e.getBlueScore dag parent with
    | (.error err, e') => (.error err, e')
    | (.ok score, e') =>
      bestParentLoop rest (if score > best.2 then (some parent, score) else best) e'

def computeSingleVsp (hash : BlockHash) : Except String VirtualSelectedParent × FinalityEngine :=
  match dag.getBlockParents hash with
  | none => (.error ("Parents not found for block " ++ debugHash hash), e)
  | some [] => (.ok ⟨hash, 0, 0, 0⟩, e)
  | some (first :: rest) =>
    match bestParentLoop dag (first :: rest) (none, 0) e with
    | (.error err, e') => (.error err, e')
    | (.ok best, e') =>
      let selectedParent := best.1.getD first
      match dag.getBlockHeight selectedParent with
      | none => (.error "Selected parent height not found", e')
      | some height =>
        (.ok ⟨selectedParent, height, (e'.blockScores.lookup selectedParent).getD 0, best.2⟩, e')

def vspLoop :
    List BlockHash → Map BlockHash VirtualSelectedParent → FinalityEngine →
      Except String (Map BlockHash VirtualSelectedParent) × FinalityEngine
  | [], vspCache, e => (.ok vspCache, e)
  | hash :: rest, vspCache, e =>
    match e.computeSingleVsp dag hash with
    | (.error err, e') => (.error err, e')
    | (.ok vsp, e') => vspLoop rest (vspCache.insert hash vsp) e'

def computeVirtualSelectedParents : Except String Unit × FinalityEngine :=
  match vspLoop dag dag.getAllBlockHashes ∅ e with
  | (.error err, e') => (.error err, e')
  | (.ok vspCache, e') => (.ok (), { e' with vspCache })

/-- `margin` is the safety margin for a head score: `(head_score as f64 * 0.1) as u64`. -/
def calculateFinalityThreshold (margin : UInt64 → UInt64) (headScore : UInt64) : UInt64 :=
  satSub (satSub headScore e.k) (margin headScore)

/-- One block of the loop over the scores, which visits them in no particular order: a block at or
below the threshold joins the set of its height. -/
def finalize (threshold : UInt64) (finalized : Map UInt64 (Finset BlockHash))
    (entry : BlockHash × UInt64) : Map UInt64 (Finset BlockHash) :=
  if entry.2 ≤ threshold then
    let height := (e.blockHeights.lookup entry.1).getD 0
    finalized.insert height (insert entry.1 ((finalized.lookup height).getD ∅))
  else finalized

def headScore : UInt64 := (sortedEntries e.blockScores).foldl (fun best x => max best x.2) 0

def calculateScoreBasedFinality (margin : UInt64 → UInt64) : Except String Unit × FinalityEngine :=
  let threshold := e.calculateFinalityThreshold margin e.headScore
  (.ok (),
    { e with finalizedBlocks := (sortedEntries e.blockScores).foldl (e.finalize threshold) ∅ })

def computeFinality (margin : UInt64 → UInt64) : Except String Unit × FinalityEngine :=
  let ordering := dag.getOrdering
  if ordering.isEmpty then (.error "Empty DAG ordering", e)
  else
    match e.buildIntervalTree dag ordering with
    | (.error err, e') => (.error err, e')
    | (.ok _, e') =>
      match e'.computeVirtualSelectedParents dag with
      | (.error err, e'') => (.error err, e'')
      | (.ok _, e'') => e''.calculateScoreBasedFinality margin

def isFinalized (hash : BlockHash) : Bool :=
  decide (∃ height ∈ e.finalizedBlocks.keys,
    hash ∈ (e.finalizedBlocks.lookup height).getD ∅)

/-- "Basic reachability: from must come before to in both height and score." -/
def computeReachability (source target : BlockHash) : Except String Bool :=
  match e.blockHeights.lookup source with
  | none => .error "From block height not found"
  | some fromHeight =>
    match e.blockHeights.lookup target with
    | none => .error "To block height not found"
    | some toHeight =>
      match e.blockScores.lookup source with
      | none => .error "From block score not found"
      | some fromScore =>
        match e.blockScores.lookup target with
        | none => .error "To block score not found"
        | some toScore => .ok (decide (fromHeight ≤ toHeight) && decide (fromScore ≤ toScore))

/-- Keep an answer in the node of the source, and empty a cache that has grown too large. -/
def cacheReachability (source target : BlockHash) (answer : Bool) (tree : IntervalTree) :
    FinalityEngine :=
  match tree.findNode source with
  | none => e
  | some cache =>
    let cache' := cache.insert target answer
    let kept := if cache'.keys.card > e.maxCacheSize / 100 then ∅ else cache'
    { e with intervalTree := some (tree.setCache source kept) }

def canReach (source target : BlockHash) : Except String Bool × FinalityEngine :=
  match e.intervalTree with
  | none => (.error "Interval tree not built", e)
  | some tree =>
    match (tree.findNode source).bind (·.lookup target) with
    | some cached => (.ok cached, e)
    | none =>
      match e.computeReachability source target with
      | .error err => (.error err, e)
      | .ok answer => (.ok answer, e.cacheReachability source target answer tree)

def anticoneLoop (hash : BlockHash) (blockHeight : UInt64) :
    List BlockHash → Finset BlockHash → FinalityEngine →
      Except String (Finset BlockHash) × FinalityEngine
  | [], anticone, e => (.ok anticone, e)
  | other :: rest, anticone, e =>
    if other = hash then anticoneLoop hash blockHeight rest anticone e
    else if (e.blockHeights.lookup other).getD 0 ≥ blockHeight then
      match e.canReach hash other with
      | (.error err, e') => (.error err, e')
      | (.ok true, e') => anticoneLoop hash blockHeight rest anticone e'
      | (.ok false, e') => anticoneLoop hash blockHeight rest (insert other anticone) e'
    else anticoneLoop hash blockHeight rest anticone e

def computeAnticone (hash : BlockHash) : Except String (Finset BlockHash) × FinalityEngine :=
  match e.blockHeights.lookup hash with
  | none => (.error "Block height not found", e)
  | some blockHeight => anticoneLoop hash blockHeight dag.getAllBlockHashes ∅ e

/-- Drop the oldest tenth of a cache that is over its limit. -/
def limitAnticoneCache (order : IterOrder BlockHash AnticoneEntry)
    (cache : Map BlockHash AnticoneEntry) : Map BlockHash AnticoneEntry :=
  if cache.keys.card > e.maxCacheSize then
    let oldest := (order.iter cache).insertionSort fun a b => a.2.computedAt ≤ b.2.computedAt
    (oldest.take (cache.keys.card / 10)).foldl (fun cache x => cache.erase x.1) cache
  else cache

/-- `get_anticone` at the system time `now`, in seconds. -/
def getAnticone (order : IterOrder BlockHash AnticoneEntry) (now : ℕ) (hash : BlockHash) :
    Except String (Finset BlockHash) × FinalityEngine :=
  match e.anticoneCache.lookup hash with
  | some entry => (.ok entry.anticone, e)
  | none =>
    match e.computeAnticone dag hash with
    | (.error err, e') => (.error err, e')
    | (.ok anticone, e') =>
      let cache := e'.anticoneCache.insert hash ⟨anticone, now, anticone.card⟩
      (.ok anticone, { e' with anticoneCache := e'.limitAnticoneCache order cache })

section BlueScores
variable {c : Crypto} {e dag}

theorem getBlueSet_eq {hash : BlockHash} {s : Block} (hs : dag.getBlock hash = some s) :
    dag.getBlueSet hash = some (insert hash (dag.getAncestors hash)) :=
  if_pos ((dag.store.blockExists_eq_true hash).mpr ⟨s, hs⟩)

/-- Blue scores are cached for stored blocks only, and are those of the DAG. -/
def BlueCached (e : FinalityEngine) (dag : BlockDag) : Prop :=
  ∀ h score, e.blueScores.lookup h = some score →
    (∃ s, dag.getBlock h = some s) ∧ score = GhostdagEngine.scoreAt dag h

theorem getBlueScore_frame (e : FinalityEngine) (dag : BlockDag) (hash : BlockHash) :
    ∃ blueScores, (e.getBlueScore dag hash).2 = { e with blueScores } := by
  unfold getBlueScore
  split
  · exact ⟨_, rfl⟩
  · split
    · exact ⟨_, rfl⟩
    · exact ⟨_, rfl⟩

theorem BlueCached.getBlueScore (h : e.BlueCached dag) (wf : BlockDag.WellFormed c dag)
    (hash : BlockHash) :
    (e.getBlueScore dag hash).2.BlueCached dag ∧
      ∀ s, dag.getBlock hash = some s →
        (e.getBlueScore dag hash).1 = .ok (GhostdagEngine.scoreAt dag hash) := by
  cases hl : e.blueScores.lookup hash with
  | some score =>
    simp only [FinalityEngine.getBlueScore, hl]
    exact ⟨h, fun s _ => by rw [(h hash score hl).2]⟩
  | none =>
    simp only [FinalityEngine.getBlueScore, hl]
    cases hs : dag.getBlock hash with
    | none =>
      have hnone : dag.getBlueSet hash = none := by
        refine if_neg fun hex => ?_
        obtain ⟨s, hs'⟩ := (dag.store.blockExists_eq_true hash).mp hex
        rw [BlockDag.getBlock, hs'] at hs
        cases hs
      rw [hnone]
      exact ⟨h, fun s hs => by cases hs⟩
    | some s =>
      have hscore : UInt64.ofNat (insert hash (dag.getAncestors hash)).card =
          GhostdagEngine.scoreAt dag hash := by
        rw [Finset.card_insert_of_notMem (wf.notMem_getAncestors_self hash), Nat.add_comm]
        rfl
      rw [getBlueSet_eq hs]
      refine ⟨?_, fun _ _ => by simp only [hscore]⟩
      intro k score hk
      simp only [hscore, lookup_insert_eq_ite] at hk
      by_cases he : k = hash
      · rw [if_pos he] at hk
        rw [he, ← Option.some.inj hk]
        exact ⟨⟨s, hs⟩, rfl⟩
      · rw [if_neg he] at hk
        exact h k score hk

end BlueScores

section Frame

theorem bestParentLoop_frame (parents : List BlockHash) (best : Option BlockHash × UInt64)
    (e : FinalityEngine) :
    ∃ blueScores, (bestParentLoop dag parents best e).2 = { e with blueScores } := by
  induction parents generalizing best e with
  | nil => exact ⟨_, rfl⟩
  | cons parent rest ih =>
    obtain ⟨blueScores, hq⟩ := getBlueScore_frame e dag parent
    rw [bestParentLoop]
    cases hr : e.getBlueScore dag parent with
    | mk result e' =>
      rw [hr] at hq
      subst hq
      cases result with
      | error err => exact ⟨_, rfl⟩
      | ok score => exact ih _ _

theorem computeSingleVsp_frame (hash : BlockHash) :
    ∃ blueScores, (e.computeSingleVsp dag hash).2 = { e with blueScores } := by
  unfold computeSingleVsp
  split
  · exact ⟨_, rfl⟩
  · exact ⟨_, rfl⟩
  · rename_i first rest _
    obtain ⟨blueScores, hq⟩ := bestParentLoop_frame dag (first :: rest) (none, 0) e
    cases hr : bestParentLoop dag (first :: rest) (none, 0) e with
    | mk result e' =>
      rw [hr] at hq
      subst hq
      cases result with
      | error err => exact ⟨_, rfl⟩
      | ok best =>
        simp only
        split
        · exact ⟨_, rfl⟩
        · exact ⟨_, rfl⟩

theorem vspLoop_frame (hashes : List BlockHash) (vspCache : Map BlockHash VirtualSelectedParent)
    (e : FinalityEngine) :
    ∃ blueScores, (vspLoop dag hashes vspCache e).2 = { e with blueScores } := by
  induction hashes generalizing vspCache e with
  | nil => exact ⟨_, rfl⟩
  | cons hash rest ih =>
    obtain ⟨blueScores, hq⟩ := computeSingleVsp_frame e dag hash
    rw [vspLoop]
    cases hr : e.computeSingleVsp dag hash with
    | mk result e' =>
      rw [hr] at hq
      subst hq
      cases result with
      | error err => exact ⟨_, rfl⟩
      | ok vsp => exact ih _ _

/-- Virtual selected parents touch nothing that finality or reachability is computed from. -/
theorem computeVirtualSelectedParents_frame :
    ∃ blueScores vspCache,
      (e.computeVirtualSelectedParents dag).2 = { e with blueScores, vspCache } := by
  obtain ⟨blueScores, hq⟩ := vspLoop_frame dag dag.getAllBlockHashes ∅ e
  unfold computeVirtualSelectedParents
  cases hr : vspLoop dag dag.getAllBlockHashes ∅ e with
  | mk result e' =>
    rw [hr] at hq
    subst hq
    cases result with
    | error err => exact ⟨_, _, rfl⟩
    | ok vspCache => exact ⟨_, _, rfl⟩

end Frame

section Collect
variable {dag}

theorem collect_ok {ordering : List BlockHash} (hn : ordering.Nodup) {index : ℕ}
    {acc acc' : Collected} (h : collect dag index ordering acc = .ok acc') (hash : BlockHash) :
    acc'.heights.lookup hash =
        (if hash ∈ ordering then dag.getBlockHeight hash else acc.heights.lookup hash) ∧
      acc'.scores.lookup hash =
        if hash ∈ ordering then some (UInt64.ofNat (index + ordering.idxOf hash))
        else acc.scores.lookup hash := by
  induction ordering generalizing index acc with
  | nil =>
    obtain rfl : acc = acc' := Except.ok.inj h
    simp
  | cons first rest ih =>
    obtain ⟨hfirst, hn⟩ := List.nodup_cons.mp hn
    rw [collect] at h
    cases hh : dag.getBlockHeight first with
    | none =>
      rw [hh] at h
      cases h
    | some height =>
      rw [hh] at h
      obtain ⟨h₁, h₂⟩ := ih hn h
      rw [h₁, h₂]
      by_cases he : hash = first
      · subst he
        simp [hfirst, hh]
      · simp only [List.mem_cons, he, false_or, lookup_insert_eq_ite, if_false,
          List.idxOf_cons_ne rest (Ne.symm he)]
        by_cases hmem : hash ∈ rest
        · simp only [hmem, if_true, true_and]
          congr 2
          omega
        · simp [hmem]

end Collect

section Finalised
variable {e dag} {margin : UInt64 → UInt64}

theorem mem_foldl_finalize (threshold : UInt64) (entries : List (BlockHash × UInt64))
    (m : Map UInt64 (Finset BlockHash)) (hash : BlockHash) :
    (∃ height, hash ∈ ((entries.foldl (e.finalize threshold) m).lookup height).getD ∅) ↔
      (∃ height, hash ∈ (m.lookup height).getD ∅) ∨
        ∃ entry ∈ entries, entry.1 = hash ∧ entry.2 ≤ threshold := by
  induction entries generalizing m with
  | nil => simp
  | cons entry rest ih =>
    rw [List.foldl_cons, ih, List.exists_mem_cons_iff, ← or_assoc]
    refine or_congr_left ?_
    unfold finalize
    by_cases hle : entry.2 ≤ threshold
    · rw [if_pos hle]
      simp only [lookup_insert_eq_ite, hle, and_true]
      generalize (e.blockHeights.lookup entry.1).getD 0 = own
      constructor
      · rintro ⟨height, hmem⟩
        by_cases hh : height = own
        · rw [if_pos hh, Option.getD_some, Finset.mem_insert] at hmem
          rcases hmem with hmem | hmem
          · exact Or.inr hmem.symm
          · exact Or.inl ⟨own, hmem⟩
        · rw [if_neg hh] at hmem
          exact Or.inl ⟨height, hmem⟩
      · rintro (⟨height, hmem⟩ | he)
        · refine ⟨height, ?_⟩
          by_cases hh : height = own
          · rw [if_pos hh, Option.getD_some, Finset.mem_insert, ← hh]
            exact Or.inr hmem
          · rwa [if_neg hh]
        · refine ⟨own, ?_⟩
          rw [if_pos rfl, Option.getD_some, he]
          exact Finset.mem_insert_self _ _
    · rw [if_neg hle]
      simp [hle]

theorem isFinalized_iff (e : FinalityEngine) (hash : BlockHash) :
    e.isFinalized hash = true ↔ ∃ height, hash ∈ (e.finalizedBlocks.lookup height).getD ∅ := by
  rw [isFinalized, decide_eq_true_eq]
  constructor
  · rintro ⟨height, -, hmem⟩
    exact ⟨height, hmem⟩
  · rintro ⟨height, hmem⟩
    refine ⟨height, ?_, hmem⟩
    rw [Finmap.mem_keys, Finmap.mem_iff]
    cases hl : e.finalizedBlocks.lookup height with
    | none => simp [hl] at hmem
    | some set => exact ⟨set, rfl⟩

theorem isFinalized_calculate (e : FinalityEngine) (margin : UInt64 → UInt64) (hash : BlockHash) :
    (e.calculateScoreBasedFinality margin).2.isFinalized hash = true ↔
      ∃ score, e.blockScores.lookup hash = some score ∧
        score ≤ e.calculateFinalityThreshold margin e.headScore := by
  rw [isFinalized_iff]
  refine (mem_foldl_finalize _ _ _ _).trans ?_
  simp only [Finmap.lookup_empty, Option.getD_none, Finset.notMem_empty, exists_false, false_or]
  constructor
  · rintro ⟨entry, hmem, rfl, hle⟩
    exact ⟨entry.2, ((enumerates_sortedEntries e.blockScores).2 entry).mp hmem, hle⟩
  · rintro ⟨score, hl, hle⟩
    exact ⟨(hash, score), ((enumerates_sortedEntries e.blockScores).2 _).mpr hl, rfl, hle⟩

/-- What `compute_finality` can do: fail and leave the finalised blocks as they were, or record the
heights and positions of the ordering, rebuild the tree and finalise by them. -/
theorem computeFinality_cases (e : FinalityEngine) (dag : BlockDag) (margin : UInt64 → UInt64) :
    (∃ err, (e.computeFinality dag margin).1 = .error err ∧
      (e.computeFinality dag margin).2.finalizedBlocks = e.finalizedBlocks ∧
      (e.computeFinality dag margin).2.k = e.k) ∨
    ∃ (acc : Collected) (e' : FinalityEngine),
      collect dag 0 dag.getOrdering ⟨[], ∅, ∅⟩ = .ok acc ∧ dag.getOrdering ≠ [] ∧
      e.computeFinality dag margin = e'.calculateScoreBasedFinality margin ∧
      e'.blockHeights = acc.heights ∧ e'.blockScores = acc.scores ∧ e'.k = e.k ∧
      e'.maxCacheSize = e.maxCacheSize ∧ e'.anticoneCache = e.anticoneCache ∧
      e'.intervalTree = some (IntervalTree.buildBalancedTree acc.nodes.length acc.nodes) := by
  unfold computeFinality
  by_cases hempty : dag.getOrdering = []
  · exact Or.inl ⟨"Empty DAG ordering", by simp [hempty]⟩
  · have hne : dag.getOrdering.isEmpty = false := by simpa using hempty
    simp only [hne, Bool.false_eq_true, if_false, buildIntervalTree]
    cases hacc : collect dag 0 dag.getOrdering ⟨[], ∅, ∅⟩ with
    | error err => exact Or.inl ⟨err, rfl, rfl, rfl⟩
    | ok acc =>
      simp only
      generalize htree : ({ e with
        intervalTree := some (IntervalTree.buildBalancedTree acc.nodes.length acc.nodes)
        blockHeights := acc.heights
        blockScores := acc.scores } : FinalityEngine) = built
      obtain ⟨blueScores, vspCache, hq⟩ := computeVirtualSelectedParents_frame built dag
      cases hr : built.computeVirtualSelectedParents dag with
      | mk result e' =>
        rw [hr] at hq
        subst hq htree
        cases result with
        | error err => exact Or.inl ⟨err, rfl, rfl, rfl⟩
        | ok u => exact Or.inr ⟨acc, _, rfl, hempty, rfl, rfl, rfl, rfl, rfl, rfl, rfl⟩

end Finalised

end FinalityEngine

end CytahSpeed
