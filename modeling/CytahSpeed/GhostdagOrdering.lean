import CytahSpeed.ConsensusOrder
import CytahSpeed.LayeredOrder
import CytahSpeed.ParentSelection

/-!
# The GHOSTDAG ordering

`generate_ordering` starts with the blocks without parents and appends, round after round, the
blocks whose parents are all listed, by score and then by hash. `validate_ordering` walks over a
list once and asks for the first position of every parent; it accepts exactly the permutations of
the stored blocks with parents first. The ordering is one of them and is determined by the store:
neither the index nor what the engine has cached enters it.
-/

namespace CytahSpeed
open ByteString FiniteMap MachineInt LayeredOrder

namespace GhostdagEngine

variable (e : GhostdagEngine) (dag : BlockDag)

def calculateBlueScoreImmutable (hash : BlockHash) : Except String UInt64 :=
  match e.blueScoreCache.lookup hash with
  | some cachedScore => .ok cachedScore
  | none => .ok (e.blueCount dag hash)

/-- "First, collect all blocks and calculate their scores." -/
def scoreBlocks : List BlockHash → Map BlockHash UInt64 → Except String (Map BlockHash UInt64)
  | [], blockScores => .ok blockScores
  | blockHash :: rest, blockScores =>
    match e.calculateBlueScoreImmutable dag blockHash with
    | .error err => .error err
    | .ok score => scoreBlocks rest (blockScores.insert blockHash score)

/-- `unwrap_or(false)` for a hash that is not stored. -/
def isGenesis (hash : BlockHash) : Bool :=
  ((dag.getBlock hash).map (·.header.parentHashes.isEmpty)).getD false

/-- "Sort by blue score (descending), then hash (ascending)." -/
def sortScored (score : BlockHash → UInt64) (blocks : List BlockHash) : List BlockHash :=
  ((blocks.map fun b => (b, score b)).insertionSort ScoredBefore).map Prod.fst

/-- The ordering after at most `turns` turns of the outer loop, `none` if it needs more. -/
def generateOrdering (turns : ℕ) : Option (Except String (List BlockHash)) :=
  match e.dag with
  | none => some (.error "DAG not attached")
  | some dag =>
    let allBlocks := DagTraversal.getAllBlocks dag
    match e.scoreBlocks dag allBlocks ∅ with
    | .error err => some (.error err)
    | .ok blockScores =>
      if allBlocks.isEmpty then some (.ok [])
      else
        let genesisBlocks := (allBlocks.filter (isGenesis dag)).insertionSort (· ≤ ·)
        (rounds (DagTraversal.getParents dag) allBlocks
          (sortScored fun block => (blockScores.lookup block).getD 0) turns genesisBlocks
          genesisBlocks.toFinset).map .ok

/-- The first position of every parent in the whole ordering must be below the child's. -/
def checkParents (ordering : List BlockHash) (index : ℕ) (blockHash : BlockHash) :
    List BlockHash → Except String Unit
  | [] => .ok ()
  | parent :: rest =>
    match ordering.findIdx? (· = parent) with
    | none => .error ("Parent " ++ hexEncode parent.toList ++ " of block " ++
        hexEncode blockHash.toList ++ " not in ordering")
    | some parentPos =>
      if parentPos ≥ index then
        .error ("Parent " ++ hexEncode parent.toList ++ " appears after child " ++
          hexEncode blockHash.toList ++ " in ordering")
      else checkParents ordering index blockHash rest

def validateLoop (ordering : List BlockHash) :
    ℕ → List BlockHash → Finset BlockHash → Except String (Finset BlockHash)
  | _, [], seen => .ok seen
  | index, blockHash :: rest, seen =>
    if ¬ (dag.getBlock blockHash).isSome then
      .error ("Block " ++ hexEncode blockHash.toList ++ " not found in DAG")
    else if blockHash ∈ seen then
      .error ("Duplicate block " ++ hexEncode blockHash.toList ++ " at position " ++ toString index)
    else
      match checkParents ordering index blockHash (DagTraversal.getParents dag blockHash) with
      | .error err => .error err
      | .ok _ => validateLoop ordering (index + 1) rest (insert blockHash seen)

def validateOrdering (ordering : List BlockHash) : Except String Unit :=
  match e.dag with
  | none => .error "DAG not attached"
  | some dag =>
    match validateLoop dag ordering 0 ordering ∅ with
    | .error err => .error err
    | .ok seen =>
      if seen.card ≠ dag.blockCount then
        .error ("Ordering has " ++ toString seen.card ++ " blocks but DAG has " ++
          toString dag.blockCount ++ " blocks")
      else .ok ()

section Validate
variable {dag} {before rest : List BlockHash}

theorem findIdx?_lt_iff (before rest : List BlockHash) (p : BlockHash) :
    (∃ pos, (before ++ rest).findIdx? (· = p) = some pos ∧ pos < before.length) ↔ p ∈ before := by
  constructor
  · rintro ⟨pos, hpos, hlt⟩
    obtain ⟨hlen, hp, -⟩ := List.findIdx?_eq_some_iff_getElem.mp hpos
    rw [decide_eq_true_eq, List.getElem_append_left hlt] at hp
    exact hp ▸ List.getElem_mem hlt
  · intro hp
    have hsome : (before.findIdx? (· = p)).isSome = true := by
      rw [List.findIdx?_isSome, List.any_eq_true]
      exact ⟨p, hp, decide_eq_true rfl⟩
    obtain ⟨pos, hpos⟩ := Option.isSome_iff_exists.mp hsome
    refine ⟨pos, ?_, (List.findIdx?_eq_some_iff_getElem.mp hpos).1⟩
    rw [List.findIdx?_append, hpos]
    rfl

theorem checkParents_ok_iff (before rest : List BlockHash) (h : BlockHash)
    (parents : List BlockHash) :
    checkParents (before ++ rest) before.length h parents = .ok () ↔ ∀ p ∈ parents, p ∈ before := by
  induction parents with
  | nil => simp [checkParents]
  | cons parent parents ih =>
    rw [checkParents, List.forall_mem_cons, ← findIdx?_lt_iff before rest parent, ← ih]
    cases hpos : (before ++ rest).findIdx? (· = parent) with
    | none => simp
    | some pos =>
      by_cases hlt : pos < before.length
      · simp [hlt, Nat.not_le_of_lt hlt]
      · simp [hlt, Nat.le_of_not_lt hlt]

theorem validateLoop_ok_iff (hnodup : before.Nodup)
    (hfirst : ParentsFirst dag.store.parentsOf before) {seen : Finset BlockHash} :
    validateLoop dag (before ++ rest) before.length rest before.toFinset = .ok seen ↔
      (∀ x ∈ rest, ∃ s, dag.getBlock x = some s) ∧ (before ++ rest).Nodup ∧
        ParentsFirst dag.store.parentsOf (before ++ rest) ∧ (before ++ rest).toFinset = seen := by
  induction rest generalizing before with
  | nil =>
    rw [validateLoop, List.append_nil, Except.ok.injEq]
    exact ⟨fun heq => ⟨by simp, hnodup, hfirst, heq⟩, fun hall => hall.2.2.2⟩
  | cons h rest ih =>
    have hset : insert h before.toFinset = (before ++ [h]).toFinset := by
      ext x
      simp
    rw [validateLoop, List.append_cons, List.forall_mem_cons]
    cases hs : dag.getBlock h with
    | none => simp
    | some s =>
      by_cases hseen : h ∈ before
      · have hdup : ¬ (before ++ [h] ++ rest).Nodup := fun hn =>
          List.disjoint_of_nodup_append hn.of_append_left hseen (List.mem_singleton_self h)
        exact iff_of_false (by simp [hseen]) fun hvalid => hdup hvalid.2.1
      · have hsnoc : (before ++ [h]).Nodup := by
          rw [List.nodup_append_comm, List.singleton_append, List.nodup_cons]
          exact ⟨hseen, hnodup⟩
        have hcheck := checkParents_ok_iff before (h :: rest) h (DagTraversal.getParents dag h)
        rw [List.append_cons] at hcheck
        cases hc : checkParents (before ++ [h] ++ rest) before.length h
            (DagTraversal.getParents dag h) with
        | error err =>
          have hnot : ¬ ParentsFirst dag.store.parentsOf (before ++ [h] ++ rest) := by
            intro hp
            rw [← List.append_cons] at hp
            have hok := hcheck.mpr (hp before h rest rfl)
            rw [hc] at hok
            cases hok
          exact iff_of_false (by simp [hseen]) fun hvalid => hnot hvalid.2.2.1
        | ok u =>
          have hparents := hcheck.mp hc
          have hih := ih hsnoc (hfirst.append fun x hx p hp => by
            obtain rfl := List.mem_singleton.mp hx
            exact hparents p hp)
          rw [List.length_append, List.length_singleton] at hih
          simp only [Option.isSome_some, not_true_eq_false, if_false, List.mem_toFinset, hseen]
          rw [hset, hih]
          simp

theorem validateOrdering_ok_iff_of_dag (e : GhostdagEngine) (d : BlockDag) (hdag : e.dag = some d)
    (ordering : List BlockHash) :
    e.validateOrdering ordering = .ok () ↔
      ordering.Perm d.store.getAllHashes ∧ ParentsFirst d.store.parentsOf ordering := by
  have hloop := @validateLoop_ok_iff d [] ordering List.nodup_nil parentsFirst_nil
  simp only [List.nil_append, List.length_nil, List.toFinset_nil] at hloop
  have hall : d.store.getAllHashes.Nodup := nodup_sortedKeys d.store.blocks
  simp only [validateOrdering, hdag]
  cases hr : validateLoop d ordering 0 ordering ∅ with
  | error err =>
    refine iff_of_false (fun he => by cases he) ?_
    rintro ⟨hperm, hfirst⟩
    have hok := hloop.mpr ⟨fun x hx => (d.store.mem_getAllHashes x).mp (hperm.mem_iff.mp hx),
      hperm.nodup_iff.mpr hall, hfirst, rfl⟩
    rw [hr] at hok
    cases hok
  | ok seen =>
    obtain ⟨hstored, hnodup, hfirst, rfl⟩ := hloop.mp hr
    have hcard := List.toFinset_card_of_nodup hnodup
    have hsub : ordering ⊆ d.store.getAllHashes := fun x hx =>
      (d.store.mem_getAllHashes x).mpr (hstored x hx)
    have hcount : d.blockCount = d.store.getAllHashes.length := rfl
    simp only [hcard, hcount]
    by_cases hlen : ordering.length = d.store.getAllHashes.length
    · have hperm := (List.subperm_of_subset hnodup hsub).perm_of_length_le (Nat.le_of_eq hlen.symm)
      simp [hlen, hperm, hfirst]
    · have hnot : ¬ ordering.Perm d.store.getAllHashes := fun hperm => hlen hperm.length_eq
      simp [hlen, hnot]

end Validate

section Generate
variable {c : Crypto} {e : GhostdagEngine} {d : BlockDag}

theorem sortScored_perm (score : BlockHash → UInt64) (blocks : List BlockHash) :
    (sortScored score blocks).Perm blocks := by
  have hperm := (List.perm_insertionSort ScoredBefore (blocks.map fun b => (b, score b))).map
    Prod.fst
  rw [List.map_map] at hperm
  simpa [sortScored, Function.comp_def] using hperm

/-- Equal scores are told apart by the hashes, so the given order of the blocks is lost. -/
theorem sortScored_congr (score : BlockHash → UInt64) {blocks blocks' : List BlockHash}
    (h : blocks.Perm blocks') : sortScored score blocks = sortScored score blocks' := by
  have hperm := (List.perm_insertionSort ScoredBefore (blocks.map fun b => (b, score b))).trans
    ((h.map _).trans (List.perm_insertionSort ScoredBefore _).symm)
  rw [sortScored, sortScored, hperm.eq_of_pairwise' (List.pairwise_insertionSort _ _)
    (List.pairwise_insertionSort _ _)]

theorem Coherent.scoreBlocks (h : Coherent e d) (wf : BlockDag.WellFormed c d)
    (blocks : List BlockHash) (blockScores : Map BlockHash UInt64) :
    ∃ scores, e.scoreBlocks d blocks blockScores = .ok scores ∧
      ∀ x, scores.lookup x = if x ∈ blocks then some (scoreAt d x) else blockScores.lookup x := by
  induction blocks generalizing blockScores with
  | nil => exact ⟨blockScores, rfl, fun x => by simp⟩
  | cons block rest ih =>
    have hscore : e.calculateBlueScoreImmutable d block = .ok (scoreAt d block) := by
      rw [calculateBlueScoreImmutable]
      cases hl : e.blueScoreCache.lookup block with
      | some score => rw [h.cache block score hl]
      | none => rw [← blueCount_eq wf e block]
    obtain ⟨scores, hscores, hlookup⟩ := ih (blockScores.insert block (scoreAt d block))
    refine ⟨scores, by rw [GhostdagEngine.scoreBlocks, hscore]; exact hscores, fun x => ?_⟩
    rw [hlookup, lookup_insert_eq_ite]
    by_cases hx : x = block
    · simp [hx]
    · simp [hx]

def storedRoots (d : BlockDag) : List BlockHash :=
  (d.store.getAllHashes.filter (isGenesis d)).insertionSort (· ≤ ·)

/-- The rounds over the stored blocks in the order of their hashes, each scored by its past. -/
def storedRounds (d : BlockDag) (turns : ℕ) : Option (List BlockHash) :=
  rounds d.store.parentsOf d.store.getAllHashes
    (sortScored fun block => if d.store.blockExists block then scoreAt d block else 0) turns
    (storedRoots d) (storedRoots d).toFinset

theorem mem_storedRoots {x : BlockHash} :
    x ∈ storedRoots d ↔ ∃ s, d.getBlock x = some s ∧ s.header.parentHashes = [] := by
  rw [storedRoots, List.mem_insertionSort, List.mem_filter, d.store.mem_getAllHashes, isGenesis]
  constructor
  · rintro ⟨⟨s, hs⟩, hroot⟩
    have hs' : d.getBlock x = some s := hs
    rw [hs', Option.map_some, Option.getD_some, List.isEmpty_iff] at hroot
    exact ⟨s, hs, hroot⟩
  · rintro ⟨s, hs, hnil⟩
    refine ⟨⟨s, hs⟩, ?_⟩
    rw [hs, Option.map_some, Option.getD_some, hnil, List.isEmpty_nil]

theorem stage_storedRoots (d : BlockDag) : Stage d.store.parentsOf d.store.getAllHashes
    (storedRoots d) (storedRoots d).toFinset := by
  have hperm := List.perm_insertionSort (· ≤ ·) (d.store.getAllHashes.filter (isGenesis d))
  refine ⟨?_, ?_, ?_, rfl⟩
  · exact hperm.nodup_iff.mpr ((nodup_sortedKeys d.store.blocks).filter _)
  · exact fun x hx => List.mem_of_mem_filter (hperm.mem_iff.mp hx)
  · rw [← List.nil_append (storedRoots d)]
    refine parentsFirst_nil.append fun x hx p hp => ?_
    obtain ⟨s, hs, hnil⟩ := mem_storedRoots.mp hx
    rw [d.store.parentsOf_eq hs, hnil] at hp
    exact hp

theorem storedRounds_complete (wf : BlockDag.WellFormed c d) :
    ∃ ordering, ordering.Perm d.store.getAllHashes ∧ ParentsFirst d.store.parentsOf ordering ∧
      ∀ turns, d.blockCount < turns → storedRounds d turns = some ordering := by
  have hrank : ∀ x ∈ d.store.getAllHashes, ∀ p ∈ d.store.parentsOf x,
      p ∈ d.store.getAllHashes ∧ d.heightRank p < d.heightRank x := by
    intro x _ p hp
    obtain ⟨s, q, -, -, hq, -⟩ := wf.parentsOf hp
    exact ⟨(d.store.mem_getAllHashes p).mpr ⟨q, hq⟩, wf.height_parent_lt hp⟩
  exact rounds_complete hrank (nodup_sortedKeys d.store.blocks) (sortScored_perm _)
    d.blockCount (stage_storedRoots d) (Nat.le_add_left _ _)

/-- Neither the index nor the cache enters the ordering. -/
theorem Coherent.generateOrdering_eq (h : Coherent e d) (hint : BlockDag.Intact c d) {turns : ℕ}
    (hturns : turns ≠ 0) : e.generateOrdering turns = (storedRounds d turns).map .ok := by
  have hperm : (DagTraversal.getAllBlocks d).Perm d.store.getAllHashes := by
    refine (List.perm_ext_iff_of_nodup hint.nodup_order (nodup_sortedKeys d.store.blocks)).mpr ?_
    intro x
    exact (hint.mem_order x).trans (d.store.mem_getAllHashes x).symm
  obtain ⟨scores, hscores, hlookup⟩ := h.scoreBlocks hint.wellFormed (DagTraversal.getAllBlocks d) ∅
  have hscore : (fun block => (scores.lookup block).getD 0) =
      fun block => if d.store.blockExists block then scoreAt d block else 0 := by
    funext x
    have hmem : x ∈ DagTraversal.getAllBlocks d ↔ d.store.blockExists x = true :=
      (hint.mem_order x).trans (d.store.blockExists_eq_true x).symm
    rw [hlookup]
    by_cases hx : x ∈ DagTraversal.getAllBlocks d
    · rw [if_pos hx, if_pos (hmem.mp hx), Option.getD_some]
    · rw [if_neg hx, if_neg (mt hmem.mpr hx), Finmap.lookup_empty, Option.getD_none]
  have hroots : ((DagTraversal.getAllBlocks d).filter (isGenesis d)).insertionSort (· ≤ ·) =
      storedRoots d :=
    List.Perm.eq_of_pairwise' (List.pairwise_insertionSort _ _) (List.pairwise_insertionSort _ _)
      ((List.perm_insertionSort _ _).trans
        ((hperm.filter _).trans (List.perm_insertionSort _ _).symm))
  simp only [generateOrdering, h.dag, hscores]
  by_cases hempty : (DagTraversal.getAllBlocks d).isEmpty = true
  · have hnone : d.store.getAllHashes = [] :=
      (List.isEmpty_iff.mp hempty ▸ hperm).symm.eq_nil
    obtain ⟨t, rfl⟩ := Nat.exists_eq_succ_of_ne_zero hturns
    rw [if_pos hempty, storedRounds, storedRoots, hnone]
    rfl
  · rw [if_neg hempty, hroots, hscore, storedRounds,
      rounds_congr hperm fun l l' hl => sortScored_congr _ hl]
    rfl

def queried (e : GhostdagEngine) (hashes : List BlockHash) : GhostdagEngine :=
  hashes.foldl (fun e hash => (e.getBlueScore hash).2) e

theorem Coherent.queried (h : Coherent e d) (wf : BlockDag.WellFormed c d)
    (hashes : List BlockHash) : Coherent (e.queried hashes) d := by
  induction hashes generalizing e with
  | nil => exact h
  | cons hash rest ih =>
    have hnext := (h.blueScoreOr0 wf hash).2
    rw [GhostdagEngine.blueScoreOr0] at hnext
    refine ih (e := (e.getBlueScore hash).2) ?_
    cases hr : e.getBlueScore hash with
    | mk result e' =>
      rw [hr] at hnext
      cases result with
      | ok score => exact hnext
      | error err => exact hnext

theorem dag_queried (e : GhostdagEngine) (hashes : List BlockHash) :
    (e.queried hashes).dag = e.dag := by
  induction hashes generalizing e with
  | nil => rfl
  | cons hash rest ih =>
    refine (ih (e.getBlueScore hash).2).trans ?_
    unfold getBlueScore calculateBlueScore
    split
    · rfl
    · split
      · rfl
      · split <;> rfl

theorem storedRounds_eq_of_store {d' : BlockDag} (h : d'.store = d.store) :
    storedRounds d' = storedRounds d := by
  obtain ⟨store, index⟩ := d
  obtain ⟨store', index'⟩ := d'
  cases h
  rfl

/-- For the DAG of any sound run there is one ordering of its blocks, parents first, which any
engine attached to the DAG generates and accepts: with any `k`, with any scores cached, and with
the index of any run that stores the same blocks, rebuilt or not. -/
theorem generateOrdering_canonical (c : Crypto) (calls : List Call)
    (h : BlockDag.Sound c calls) :
    ∃ ordering, ordering.Perm (BlockDag.run c calls).store.getAllHashes ∧
      ParentsFirst (BlockDag.run c calls).store.parentsOf ordering ∧
      ∀ calls', BlockDag.Sound c calls' →
        (∀ hash, (BlockDag.run c calls').getBlock hash = (BlockDag.run c calls).getBlock hash) →
        ∀ d, (d = BlockDag.run c calls' ∨ d = (BlockDag.run c calls').rebuildIndex) →
        ∀ (e : GhostdagEngine) (hashes : List BlockHash) (turns : ℕ),
          (BlockDag.run c calls).blockCount < turns →
          ((e.attachDag d).queried hashes).generateOrdering turns = some (.ok ordering) ∧
            ((e.attachDag d).queried hashes).validateOrdering ordering = .ok () := by
  obtain ⟨ordering, hperm, hfirst, hrounds⟩ := storedRounds_complete h.wellFormed
  refine ⟨ordering, hperm, hfirst, fun calls' h' hsame d hd e hashes turns hturns => ?_⟩
  have hstore : d.store = (BlockDag.run c calls).store := by
    have heq := BlockDag.store_eq_of_getBlock_eq hsame
    rcases hd with rfl | rfl
    · exact heq
    · exact heq
  have hint : BlockDag.Intact c d := by
    rcases hd with rfl | rfl
    · exact h'.intact
    · exact h'.rebuilt
  have hcoh := (coherent_attachDag e d).queried hint.wellFormed hashes
  constructor
  · rw [hcoh.generateOrdering_eq hint (Nat.ne_of_gt (Nat.zero_lt_of_lt hturns)),
      storedRounds_eq_of_store hstore, hrounds turns hturns]
    rfl
  · rw [validateOrdering_ok_iff_of_dag _ d hcoh.dag, hstore]
    exact ⟨hperm, hfirst⟩

/-- The same ordering with nothing cached, and with a score cached and the index rebuilt. -/
theorem generateOrdering_canonical_sample : ∃ turns ordering,
    ((new 2).attachDag (BlockDag.run .hashOnly sampleDiamond)).generateOrdering turns =
        some (.ok ordering) ∧
      (((new 0).attachDag (BlockDag.run .hashOnly sampleDiamond).rebuildIndex).queried
        [sampleTop]).generateOrdering turns = some (.ok ordering) := by
  have hsound := sampleDiamond_evaluated.1
  obtain ⟨ordering, -, -, hordering⟩ := generateOrdering_canonical .hashOnly sampleDiamond hsound
  have hsame := hordering sampleDiamond hsound fun _ => rfl
  exact ⟨_, ordering, (hsame _ (Or.inl rfl) (new 2) [] _ (Nat.lt_succ_self _)).1,
    (hsame _ (Or.inr rfl) (new 0) [sampleTop] _ (Nat.lt_succ_self _)).1⟩

/-- An engine attached to the DAG of any run accepts a list exactly if it is a permutation of the
stored blocks in which every block comes after all of its parents. -/
theorem validateOrdering_ok_iff (c : Crypto) (calls : List Call) (e : GhostdagEngine)
    (hashes ordering : List BlockHash) :
    ((e.attachDag (BlockDag.run c calls)).queried hashes).validateOrdering ordering = .ok () ↔
      ordering.Perm (BlockDag.run c calls).store.getAllHashes ∧
        ∀ before hash after, ordering = before ++ hash :: after →
          ∀ p ∈ DagTraversal.getParents (BlockDag.run c calls) hash, p ∈ before :=
  validateOrdering_ok_iff_of_dag _ (BlockDag.run c calls) (dag_queried _ hashes) ordering

end Generate

end GhostdagEngine

end CytahSpeed
