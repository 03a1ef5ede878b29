import CytahSpeed.DagIndex

/-!
# The block DAG engine

`insert_block` validates a submitted block, checks that it is new and that its parents are
stored, rewrites its consensus metadata from the local DAG, rehashes it, and stores the result.
A call is given the system time it reads and the outcome of its database write. `insertBlock_cases`
says once what a call can do; everything later is derived from it.
-/

namespace CytahSpeed
open ByteString FiniteMap MachineInt

/-- What one call reads from outside: the clock, and whether the database write fails. -/
structure CallEnv where
  now : ℕ
  writeError : Option String

structure BlockDag where
  store : BlockStore
  index : DagIndex

namespace BlockDag

variable (c : Crypto) (env : CallEnv) (d : BlockDag) (b : Block)

def empty : BlockDag := ⟨.empty, .empty⟩

def getBlock (hash : BlockHash) : Option Block := d.store.getBlock hash

def getTips : Finset BlockHash := d.index.tips

def getChildren (hash : BlockHash) : List BlockHash := d.index.getChildren hash

def blockCount : ℕ := d.store.blockCount

def getAncestors (hash : BlockHash) : Finset BlockHash := DagIndex.getAllAncestors hash d.store

def getBlockDepth (hash : BlockHash) : Option ℕ := DagIndex.getBlockDepth hash d.store

/-- Chain height or height if one is set, else the depth. -/
def getBlockHeight (hash : BlockHash) : Option UInt64 :=
  match d.getBlock hash with
  | none => none
  | some block =>
    let stored := if block.header.chainHeight > 0 then block.header.chainHeight
      else if block.height > 0 then block.height
      else 0
    if stored > 0 then some stored else (d.getBlockDepth hash).map UInt64.ofNat

/-- The loop over the parents: the last one of greatest height, and that height. -/
def bestParent (parents : List BlockHash) : Option BlockHash × UInt64 :=
  parents.foldl
    (fun best p =>
      match d.getBlock p with
      | some parent => if parent.height ≥ best.2 then (some p, parent.height) else best
      | none => best)
    (none, 0)

def computeBlueScore : UInt64 :=
  satAdd
    (b.header.parentHashes.foldl
      (fun score p =>
        match d.getBlock p with
        | some parent => max score parent.header.blueScore
        | none => score)
      0)
    1

/-- Step 5 of `insert_block`: metadata from the local DAG, and the new hash. -/
def annotate : Block :=
  let best := if b.header.parentHashes.isEmpty then (none, 0)
    else ((d.bestParent b.header.parentHashes).1,
      satAdd (d.bestParent b.header.parentHashes).2 1)
  b.setConsensusMetadata c best.1 (d.computeBlueScore b) best.2 (UInt64.ofNat d.blockCount)

/-- Step 3 of `insert_block`. -/
def checkReferences : Except String Unit :=
  if b.header.parentHashes.isEmpty then
    if d.blockCount > 0 then .error "Non-genesis block cannot have zero parents" else .ok ()
  else
    match b.header.parentHashes.find? (fun p => ! d.store.blockExists p) with
    | some p => .error ("Parent block " ++ hexEncode p.toList ++ " does not exist")
    | none => .ok ()

def insertBlock : Except String Unit × BlockDag :=
  match b.validateBasic c env.now with
  | .error e => (.error e, d)
  | .ok _ =>
    if d.store.blockExists b.hash then
      (.error ("Block " ++ hexEncode b.hash.toList ++ " already exists in DAG"), d)
    else
      match d.checkReferences b with
      | .error e => (.error e, d)
      | .ok _ =>
        if d.store.getAllBlocks.any (·.hash = b.hash) then (.error "Duplicate block detected", d)
        else
          let annotated := d.annotate c b
          match d.store.insertBlock env.writeError annotated with
          | (.error e, store) => (.error e, { d with store })
          | (.ok _, store) => (.ok (), ⟨store, d.index.updateTipsAfterInsert annotated⟩)

/-- `insert_blocks`: stops at the first failure. Each insertion reads the clock again. -/
def insertBlocks : ℕ → BlockDag → List (CallEnv × Block) → Except String ℕ × BlockDag
  | inserted, d, [] => (.ok inserted, d)
  | inserted, d, (env, b) :: rest =>
    match d.insertBlock c env b with
    | (.ok _, d') => insertBlocks (inserted + 1) d' rest
    | (.error e, d') =>
      (.error ("Failed to insert block " ++ toString inserted ++ ": " ++ e ++
        ". Successfully inserted " ++ toString inserted ++ " blocks"), d')

def genesisBlock (timestamp : UInt64) : Block :=
  Block.new c [] timestamp
    [Transaction.newTransfer (Bytes.zero 20) (Bytes.zero 20)
      (UInt64.ofNat Mining.ctsGenesisAllocation) 0 0 0]
    0 0 0 (Bytes.zero 20) (Bytes.zero 32)

def createGenesisBlock (timestamp : UInt64) : Block × BlockDag :=
  (genesisBlock c timestamp, (d.insertBlock c env (genesisBlock c timestamp)).2)

def withGenesis (genesis : Block) : Except String BlockDag :=
  if genesis.isGenesis then
    match empty.insertBlock c env genesis with
    | (.ok _, d) => .ok d
    | (.error e, _) => .error e
  else .error "Block must be genesis block (no parents)"

def rebuildIndex : BlockDag := { d with index := .buildFromStore d.store }

def commit (a : Block) : BlockDag :=
  ⟨⟨d.store.blocks.insert a.hash a⟩, d.index.updateTipsAfterInsert a⟩

/-- The checks of `insert_block`, and a database write that succeeds. -/
structure Accepts : Prop where
  valid : b.validateBasic c env.now = .ok ()
  fresh : d.getBlock b.hash = none
  parents : ∀ p ∈ b.header.parentHashes, ∃ q, d.getBlock p = some q
  root : b.header.parentHashes = [] → d.blockCount = 0
  notStored : ∀ h s, d.getBlock h = some s → s.hash ≠ b.hash
  written : env.writeError = none

variable {c env d b}

theorem checkReferences_ok_iff :
    d.checkReferences b = .ok () ↔
      (∀ p ∈ b.header.parentHashes, ∃ q, d.getBlock p = some q) ∧
      (b.header.parentHashes = [] → d.blockCount = 0) := by
  unfold checkReferences
  cases hp : b.header.parentHashes with
  | nil =>
    by_cases hc : d.blockCount > 0
    · simp [hc, Nat.ne_of_gt hc]
    · simp [Nat.eq_zero_of_not_pos hc]
  | cons q ps =>
    rw [← hp]
    simp only [hp, List.isEmpty_cons, Bool.false_eq_true, if_false, reduceCtorEq, false_implies,
      and_true]
    cases hf : (q :: ps).find? (fun p => ! d.store.blockExists p) with
    | none =>
      simp only [true_iff]
      intro p hm
      have hn := List.find?_eq_none.mp hf p hm
      simp only [Bool.not_eq_eq_eq_not, Bool.not_true, Bool.not_eq_false] at hn
      exact (d.store.blockExists_eq_true p).mp hn
    | some p =>
      simp only [reduceCtorEq, false_iff]
      intro hall
      have hm := List.mem_of_find?_eq_some hf
      have hx := List.find?_some hf
      rw [(d.store.blockExists_eq_true p).mpr (hall p hm)] at hx
      simp at hx

/-- Either every check passes and the annotated block is committed, or the call returns an error
and changes nothing. -/
theorem insertBlock_cases (c : Crypto) (env : CallEnv) (d : BlockDag) (b : Block) :
    (Accepts c env d b ∧ d.insertBlock c env b = (.ok (), d.commit (d.annotate c b))) ∨
      (¬ Accepts c env d b ∧ ∃ e, d.insertBlock c env b = (.error e, d)) := by
  unfold insertBlock
  cases hv : b.validateBasic c env.now with
  | error e =>
    refine Or.inr ⟨fun h => ?_, e, rfl⟩
    rw [h.valid] at hv
    cases hv
  | ok u =>
    simp only
    by_cases hex : d.store.blockExists b.hash = true
    · rw [if_pos hex]
      refine Or.inr ⟨fun h => ?_, _, rfl⟩
      obtain ⟨s, hs⟩ := (d.store.blockExists_eq_true b.hash).mp hex
      have hf := h.fresh
      rw [getBlock, hs] at hf
      cases hf
    · rw [if_neg hex]
      cases hr : d.checkReferences b with
      | error e =>
        refine Or.inr ⟨fun h => ?_, e, rfl⟩
        rw [checkReferences_ok_iff.mpr ⟨h.parents, h.root⟩] at hr
        cases hr
      | ok w =>
        obtain ⟨hpar, hroot⟩ := checkReferences_ok_iff.mp hr
        by_cases hdup : d.store.getAllBlocks.any (·.hash = b.hash) = true
        · simp only [hdup, if_true]
          refine Or.inr ⟨fun h => ?_, _, rfl⟩
          obtain ⟨s, hs, heq⟩ := List.any_eq_true.mp hdup
          obtain ⟨hash, hh⟩ := (d.store.mem_getAllBlocks s).mp hs
          exact h.notStored hash s hh (by simpa using heq)
        · simp only [hdup, BlockStore.insertBlock]
          cases hw : env.writeError with
          | some e =>
            refine Or.inr ⟨fun h => ?_, _, rfl⟩
            rw [h.written] at hw
            cases hw
          | none =>
            refine Or.inl ⟨⟨hv, ?_, hpar, hroot, ?_, hw⟩, rfl⟩
            · by_contra hne
              obtain ⟨s, hs⟩ := Option.ne_none_iff_exists'.mp hne
              exact hex ((d.store.blockExists_eq_true b.hash).mpr ⟨s, hs⟩)
            · intro hash s hs heq
              apply hdup
              rw [List.any_eq_true]
              exact ⟨s, (d.store.mem_getAllBlocks s).mpr ⟨hash, hs⟩, by simpa using heq⟩

theorem insertBlock_of_accepts (h : Accepts c env d b) :
    d.insertBlock c env b = (.ok (), d.commit (d.annotate c b)) := by
  rcases insertBlock_cases c env d b with ⟨-, he⟩ | ⟨hn, -⟩
  · exact he
  · exact absurd h hn

theorem insertBlock_ok_iff : (d.insertBlock c env b).1 = .ok () ↔ Accepts c env d b := by
  rcases insertBlock_cases c env d b with ⟨ha, he⟩ | ⟨hn, e, he⟩
  · simp [he, ha]
  · simp [he, hn]

theorem insertBlock_state_of_not_ok (h : (d.insertBlock c env b).1 ≠ .ok ()) :
    (d.insertBlock c env b).2 = d := by
  rcases insertBlock_cases c env d b with ⟨-, he⟩ | ⟨-, e, he⟩
  · simp [he] at h
  · rw [he]

theorem getBlock_commit (a : Block) (h : BlockHash) :
    (d.commit a).getBlock h = if h = a.hash then some a else d.getBlock h :=
  lookup_insert_eq_ite d.store.blocks a.hash h a

theorem getBlock_commit_eq_some {a : Block} {h : BlockHash} {s : Block}
    (hs : (d.commit a).getBlock h = some s) : (h = a.hash ∧ s = a) ∨ d.getBlock h = some s := by
  rw [getBlock_commit] at hs
  by_cases hh : h = a.hash
  · rw [if_pos hh] at hs
    exact Or.inl ⟨hh, (Option.some.inj hs).symm⟩
  · rw [if_neg hh] at hs
    exact Or.inr hs

theorem getBlock_commit_of_some {a : Block} (ha : d.getBlock a.hash = none) {h : BlockHash}
    {s : Block} (hs : d.getBlock h = some s) : (d.commit a).getBlock h = some s := by
  have hne : h ≠ a.hash := by
    intro he
    rw [he, ha] at hs
    cases hs
  rw [getBlock_commit, if_neg hne, hs]

@[simp] theorem getBlock_commit_self (a : Block) : (d.commit a).getBlock a.hash = some a := by
  rw [getBlock_commit, if_pos rfl]

theorem blockCount_ne_zero {h : BlockHash} {s : Block} (hs : d.getBlock h = some s) :
    d.blockCount ≠ 0 := by
  intro hzero
  have hnone : d.getBlock h = none := (BlockStore.blockCount_eq_zero_iff d.store).mp hzero h
  rw [hnone] at hs
  cases hs

theorem blockCount_commit {a : Block} (h : d.getBlock a.hash = none) :
    (d.commit a).blockCount = d.blockCount + 1 := by
  unfold blockCount
  rw [BlockStore.blockCount_eq_card, BlockStore.blockCount_eq_card]
  exact card_keys_insert_of_notMem _ _ _ (Finmap.lookup_eq_none.mp h)

theorem blockCount_le_commit (d : BlockDag) (a : Block) :
    d.blockCount ≤ (d.commit a).blockCount := by
  unfold blockCount
  rw [BlockStore.blockCount_eq_card, BlockStore.blockCount_eq_card]
  apply Finset.card_le_card
  change d.store.blocks.keys ⊆ (d.store.blocks.insert a.hash a).keys
  rw [keys_insert]
  exact Finset.subset_insert _ _

end BlockDag

end CytahSpeed
