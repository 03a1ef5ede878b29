import CytahSpeed.DagInvariant

/-!
# Runs of a block DAG

A run is a list of calls on an empty DAG, successful or not. `runHashed` lists the block preimages
that a run feeds to SHA-256: that of every submitted block and that of every annotated one. A run
is `Sound` when no two of them collide and its blocks can be counted by a machine word; every
sound run ends in a well-formed DAG.
-/

namespace CytahSpeed
open ByteString MachineInt Selection

/-- The calls that change a DAG, each with what it reads from outside. -/
inductive Call
  | insertBlock (env : CallEnv) (b : Block)
  | insertBlocks (batch : List (CallEnv × Block))
  | createGenesisBlock (timestamp : UInt64) (env : CallEnv)
  | rebuildIndex

namespace BlockDag

variable (c : Crypto)

def exec (d : BlockDag) : Call → BlockDag
  | .insertBlock env b => (d.insertBlock c env b).2
  | .insertBlocks batch => (insertBlocks c 0 d batch).2
  | .createGenesisBlock timestamp env => (d.createGenesisBlock c env timestamp).2
  | .rebuildIndex => d.rebuildIndex

def runFrom (d : BlockDag) (calls : List Call) : BlockDag := calls.foldl (exec c) d

def run (calls : List Call) : BlockDag := runFrom c empty calls

def insertHashed (env : CallEnv) (d : BlockDag) (b : Block) : List (List UInt8) :=
  match (d.insertBlock c env b).1 with
  | .ok _ => [b.preimage c, (d.annotate c b).preimage c]
  | .error _ => [b.preimage c]

def batchHashed : BlockDag → List (CallEnv × Block) → List (List UInt8)
  | _, [] => []
  | d, (env, b) :: rest =>
    d.insertHashed c env b ++
      match d.insertBlock c env b with
      | (.ok _, d') => batchHashed d' rest
      | (.error _, _) => []

def execHashed (d : BlockDag) : Call → List (List UInt8)
  | .insertBlock env b => d.insertHashed c env b
  | .insertBlocks batch => batchHashed c d batch
  | .createGenesisBlock timestamp env => d.insertHashed c env (genesisBlock c timestamp)
  | .rebuildIndex => []

def runHashedFrom : BlockDag → List Call → List (List UInt8)
  | _, [] => []
  | d, call :: calls => d.execHashed c call ++ runHashedFrom (d.exec c call) calls

def runHashed (calls : List Call) : List (List UInt8) := runHashedFrom c empty calls

/-- No two preimages hashed in the run collide, and the block count is a machine word. -/
structure Sound (calls : List Call) : Prop where
  injOn : Set.InjOn c.sha256 {x | x ∈ runHashed c calls}
  fits : (run c calls).blockCount < 2 ^ 64

instance (calls : List Call) : Decidable (Sound c calls) :=
  decidable_of_iff
    ((∀ x ∈ runHashed c calls, ∀ y ∈ runHashed c calls, c.sha256 x = c.sha256 y → x = y) ∧
      (run c calls).blockCount < 2 ^ 64)
    ⟨fun h => ⟨fun _ hx _ hy => h.1 _ hx _ hy, h.2⟩,
      fun h => ⟨fun _ hx _ hy => h.injOn hx hy, h.fits⟩⟩

variable {c}

theorem runFrom_append (d : BlockDag) (xs ys : List Call) :
    runFrom c d (xs ++ ys) = runFrom c (runFrom c d xs) ys := List.foldl_append

theorem run_append (xs ys : List Call) : run c (xs ++ ys) = runFrom c (run c xs) ys :=
  runFrom_append empty xs ys

theorem run_append_insertBlock (calls : List Call) (env : CallEnv) (b : Block) :
    run c (calls ++ [.insertBlock env b]) = ((run c calls).insertBlock c env b).2 :=
  runFrom_append empty calls [.insertBlock env b]

theorem runHashedFrom_append (d : BlockDag) (xs ys : List Call) :
    runHashedFrom c d (xs ++ ys) = runHashedFrom c d xs ++ runHashedFrom c (runFrom c d xs) ys := by
  induction xs generalizing d with
  | nil => rfl
  | cons x xs ih =>
    rw [List.cons_append, runHashedFrom, ih, ← List.append_assoc]
    rfl

theorem runHashed_append (xs ys : List Call) :
    runHashed c (xs ++ ys) = runHashed c xs ++ runHashedFrom c (run c xs) ys :=
  runHashedFrom_append empty xs ys

theorem insertHashed_of_accepts {env : CallEnv} {d : BlockDag} {b : Block}
    (h : Accepts c env d b) :
    d.insertHashed c env b = [b.preimage c, (d.annotate c b).preimage c] := by
  rw [insertHashed, insertBlock_of_accepts h]

section Invariant
variable {P : Set (List UInt8)} {I : BlockDag → Prop}
  (hcommit : ∀ env d b, I d → Accepts c env d b → b.preimage c ∈ P →
    (d.annotate c b).preimage c ∈ P → I (d.commit (d.annotate c b)))
include hcommit

theorem insertBlock_invariant (env : CallEnv) (d : BlockDag) (b : Block)
    (hP : ∀ x ∈ d.insertHashed c env b, x ∈ P) (hI : I d) : I (d.insertBlock c env b).2 := by
  rcases insertBlock_cases c env d b with ⟨ha, he⟩ | ⟨-, e, he⟩
  · rw [insertHashed_of_accepts ha] at hP
    rw [he]
    exact hcommit env d b hI ha (hP _ (by simp)) (hP _ (by simp))
  · rw [he]
    exact hI

theorem insertBlocks_invariant (batch : List (CallEnv × Block)) (n : ℕ) (d : BlockDag)
    (hP : ∀ x ∈ batchHashed c d batch, x ∈ P) (hI : I d) : I (insertBlocks c n d batch).2 := by
  induction batch generalizing n d with
  | nil => exact hI
  | cons head rest ih =>
    obtain ⟨env, b⟩ := head
    rw [batchHashed] at hP
    have hnext : I (d.insertBlock c env b).2 :=
      insertBlock_invariant hcommit env d b
        (fun x hx => hP x (List.mem_append_left _ hx)) hI
    rw [insertBlocks]
    cases hr : d.insertBlock c env b with
    | mk result d' =>
      rw [hr] at hnext
      simp only [hr, List.mem_append] at hP
      cases result with
      | error e => exact hnext
      | ok u => exact ih (n + 1) d' (fun x hx => hP x (Or.inr hx)) hnext

/-- Invariants of runs: what every accepted block preserves, and every rebuilt index if the run
rebuilds it, holds after any list of calls. -/
theorem run_invariant (calls : List Call)
    (hrebuild : Call.rebuildIndex ∈ calls → ∀ d, I d → I d.rebuildIndex) (d : BlockDag)
    (hP : ∀ x ∈ runHashedFrom c d calls, x ∈ P) (hI : I d) : I (runFrom c d calls) := by
  induction calls generalizing d with
  | nil => exact hI
  | cons call calls ih =>
    rw [runHashedFrom] at hP
    have hfirst : ∀ x ∈ d.execHashed c call, x ∈ P :=
      fun x hx => hP x (List.mem_append_left _ hx)
    apply ih (fun hmem => hrebuild (List.mem_cons_of_mem _ hmem)) (d.exec c call)
      (fun x hx => hP x (List.mem_append_right _ hx))
    cases call with
    | insertBlock env b => exact insertBlock_invariant hcommit env d b hfirst hI
    | insertBlocks batch => exact insertBlocks_invariant hcommit batch 0 d hfirst hI
    | createGenesisBlock timestamp env =>
      exact insertBlock_invariant hcommit env d (genesisBlock c timestamp) hfirst hI
    | rebuildIndex => exact hrebuild List.mem_cons_self d hI

end Invariant

/-- A well-formed DAG whose stored blocks were all hashed in the run. -/
structure Tracked (c : Crypto) (P : Set (List UInt8)) (d : BlockDag) : Prop where
  wellFormed : WellFormed c d
  hashed : ∀ h s, d.getBlock h = some s → s.preimage c ∈ P

section Tracked
variable {P : Set (List UInt8)} {env : CallEnv} {d : BlockDag} {b : Block}

theorem tracked_empty : Tracked c P empty := by
  refine ⟨wellFormed_empty c, ?_⟩
  intro h s hs
  have hnone : empty.getBlock h = none := Finmap.lookup_empty h
  rw [hnone] at hs
  cases hs

theorem WellFormed.withIndex (wf : WellFormed c d) (index : DagIndex) :
    WellFormed c ⟨d.store, index⟩ := by
  obtain ⟨h₁, h₂, h₃, h₄, h₅⟩ := wf
  refine ⟨h₁, ?_, h₃, h₄, h₅⟩
  intro hash s hs
  obtain ⟨g₁, g₂, g₃, g₄, g₅, g₆, g₇⟩ := h₂ hash s hs
  exact ⟨g₁, g₂, g₃, g₄, g₅, g₆, g₇⟩

theorem Tracked.rebuildIndex (h : Tracked c P d) : Tracked c P d.rebuildIndex :=
  ⟨h.wellFormed.withIndex _, h.hashed⟩

theorem Tracked.getBlock_calculateHash (h : Tracked c P d) (hinj : Set.InjOn c.sha256 P)
    {a : Block} (hP : a.preimage c ∈ P) (htopo : a.header.topoIndex.toNat = d.blockCount) :
    d.getBlock (a.calculateHash c) = none :=
  h.wellFormed.getBlock_calculateHash htopo
    (fun hash s hs he => hinj (h.hashed hash s hs) hP he)

theorem Tracked.getBlock_annotate (h : Tracked c P d) (hinj : Set.InjOn c.sha256 P)
    (hP : (d.annotate c b).preimage c ∈ P) (hc : d.blockCount < 2 ^ 64) :
    d.getBlock (d.annotate c b).hash = none :=
  h.getBlock_calculateHash (a := d.annotate c b) hinj hP (topoIndex_annotate hc)

theorem Tracked.blockCount_commit (h : Tracked c P d) (hinj : Set.InjOn c.sha256 P)
    (hP : (d.annotate c b).preimage c ∈ P)
    (hc : (d.commit (d.annotate c b)).blockCount < 2 ^ 64) :
    (d.commit (d.annotate c b)).blockCount = d.blockCount + 1 := by
  have hle := blockCount_le_commit d (d.annotate c b)
  exact BlockDag.blockCount_commit (h.getBlock_annotate hinj hP (by omega))

theorem Tracked.commit (h : Tracked c P d) (acc : Accepts c env d b)
    (hinj : Set.InjOn c.sha256 P) (hP : (d.annotate c b).preimage c ∈ P)
    (hc : (d.commit (d.annotate c b)).blockCount < 2 ^ 64) :
    Tracked c P (d.commit (d.annotate c b)) := by
  have hcount := h.blockCount_commit hinj hP hc
  have hfree := h.getBlock_annotate hinj hP (by omega)
  refine ⟨h.wellFormed.commit acc (by omega) hfree, ?_⟩
  intro hash s hs
  rcases getBlock_commit_eq_some hs with ⟨-, rfl⟩ | hs
  · exact hP
  · exact h.hashed hash s hs

end Tracked

/-- What a sound run says about its last call, an accepted insertion. -/
structure LastInsert (c : Crypto) (P : Set (List UInt8)) (d : BlockDag) (b : Block) : Prop where
  injOn : Set.InjOn c.sha256 P
  tracked : Tracked c P d
  raw : b.preimage c ∈ P
  annotated : (d.annotate c b).preimage c ∈ P
  fits : d.blockCount + 1 < 2 ^ 64
  free : d.getBlock (d.annotate c b).hash = none

section LastInsert
variable {P : Set (List UInt8)} {env : CallEnv} {d : BlockDag} {b : Block}

theorem Tracked.lastInsert (h : Tracked c P d) (hinj : Set.InjOn c.sha256 P)
    (hraw : b.preimage c ∈ P) (hann : (d.annotate c b).preimage c ∈ P)
    (hc : (d.commit (d.annotate c b)).blockCount < 2 ^ 64) : LastInsert c P d b := by
  have hcount := h.blockCount_commit hinj hann hc
  have hfree := h.getBlock_annotate hinj hann (by omega)
  exact ⟨hinj, h, hraw, hann, by omega, hfree⟩

theorem LastInsert.commit (h : LastInsert c P d b) (acc : Accepts c env d b) :
    Tracked c P (d.commit (d.annotate c b)) := by
  have hcount := blockCount_commit h.free
  have hfits := h.fits
  exact h.tracked.commit acc h.injOn h.annotated (by omega)

end LastInsert

theorem tracked_runFrom {P : Set (List UInt8)} (hinj : Set.InjOn c.sha256 P) (d : BlockDag)
    (calls : List Call) (hd : d.blockCount < 2 ^ 64 → Tracked c P d)
    (hP : ∀ x ∈ runHashedFrom c d calls, x ∈ P) (hc : (runFrom c d calls).blockCount < 2 ^ 64) :
    Tracked c P (runFrom c d calls) := by
  refine run_invariant (P := P) (I := fun d => d.blockCount < 2 ^ 64 → Tracked c P d)
    ?_ calls ?_ d hP hd hc
  · intro env d b hI acc _ hpre hlt
    have hle := blockCount_le_commit d (d.annotate c b)
    exact (hI (by omega)).commit acc hinj hpre hlt
  · intro _ d hI hlt
    exact (hI hlt).rebuildIndex

theorem Sound.tracked {calls : List Call} (h : Sound c calls) :
    Tracked c {x | x ∈ runHashed c calls} (run c calls) :=
  tracked_runFrom h.injOn empty calls (fun _ => tracked_empty) (fun _ hx => hx) h.fits

theorem Sound.wellFormed {calls : List Call} (h : Sound c calls) : WellFormed c (run c calls) :=
  h.tracked.wellFormed

theorem blockCount_le_runFrom (d : BlockDag) (calls : List Call) :
    d.blockCount ≤ (runFrom c d calls).blockCount := by
  refine run_invariant (P := Set.univ) (I := fun d' => d.blockCount ≤ d'.blockCount)
    ?_ calls ?_ d (fun _ _ => trivial) le_rfl
  · intro env d' b hle _ _ _
    exact hle.trans (blockCount_le_commit d' (d'.annotate c b))
  · exact fun _ d' hle => hle

theorem mem_runHashed_left (xs ys : List Call) :
    ∀ x ∈ runHashed c xs, x ∈ {x | x ∈ runHashed c (xs ++ ys)} := by
  intro x hx
  change x ∈ runHashed c (xs ++ ys)
  rw [runHashed_append]
  exact List.mem_append_left _ hx

theorem mem_runHashed_right (xs ys : List Call) :
    ∀ x ∈ runHashedFrom c (run c xs) ys, x ∈ {x | x ∈ runHashed c (xs ++ ys)} := by
  intro x hx
  change x ∈ runHashed c (xs ++ ys)
  rw [runHashed_append]
  exact List.mem_append_right _ hx

section Split
variable {xs ys : List Call} (h : Sound c (xs ++ ys))
include h

theorem Sound.fits_right : (runFrom c (run c xs) ys).blockCount < 2 ^ 64 := by
  rw [← run_append]
  exact h.fits

theorem Sound.append_left : Sound c xs := by
  constructor
  · exact h.injOn.mono (mem_runHashed_left xs ys)
  · exact (blockCount_le_runFrom (run c xs) ys).trans_lt h.fits_right

theorem Sound.tracked_left : Tracked c {x | x ∈ runHashed c (xs ++ ys)} (run c xs) :=
  tracked_runFrom h.injOn empty xs (fun _ => tracked_empty) (mem_runHashed_left xs ys)
    h.append_left.fits

end Split

/-- Invariants of sound runs: what an accepted block preserves on a tracked DAG, and a rebuilt
index if the run rebuilds it, holds after any list of calls. -/
theorem tracked_invariant {P : Set (List UInt8)} (hinj : Set.InjOn c.sha256 P)
    {Q : BlockDag → Prop}
    (hcommit : ∀ env d b, LastInsert c P d b → Accepts c env d b → Q d →
      Q (d.commit (d.annotate c b)))
    (calls : List Call)
    (hrebuild : Call.rebuildIndex ∈ calls → ∀ d, Tracked c P d → Q d → Q d.rebuildIndex)
    {d : BlockDag} (htr : Tracked c P d) (hQ : Q d) (hP : ∀ x ∈ runHashedFrom c d calls, x ∈ P)
    (hc : (runFrom c d calls).blockCount < 2 ^ 64) : Q (runFrom c d calls) := by
  have hinv : (runFrom c d calls).blockCount < 2 ^ 64 →
      Tracked c P (runFrom c d calls) ∧ Q (runFrom c d calls) := by
    refine run_invariant (P := P) (I := fun d => d.blockCount < 2 ^ 64 → Tracked c P d ∧ Q d)
      ?_ calls ?_ d hP (fun _ => ⟨htr, hQ⟩)
    · intro env d b hI acc hraw hpre hlt
      have hle := blockCount_le_commit d (d.annotate c b)
      obtain ⟨htr, hQ⟩ := hI (by omega)
      have last := htr.lastInsert hinj hraw hpre hlt
      exact ⟨last.commit acc, hcommit env d b last acc hQ⟩
    · intro hmem d hI hlt
      obtain ⟨htr, hQ⟩ := hI hlt
      exact ⟨htr.rebuildIndex, hrebuild hmem d htr hQ⟩
  exact (hinv hc).2

theorem Sound.invariant {calls : List Call} (h : Sound c calls) {Q : BlockDag → Prop}
    (hcommit : ∀ env d b, LastInsert c {x | x ∈ runHashed c calls} d b → Accepts c env d b →
      Q d → Q (d.commit (d.annotate c b)))
    (hrebuild : Call.rebuildIndex ∈ calls →
      ∀ d, Tracked c {x | x ∈ runHashed c calls} d → Q d → Q d.rebuildIndex)
    (hempty : Q empty) : Q (run c calls) :=
  tracked_invariant h.injOn hcommit calls hrebuild tracked_empty hempty (fun _ hx => hx) h.fits

theorem Sound.append_rebuildIndex {calls : List Call} (h : Sound c calls) :
    Sound c (calls ++ [.rebuildIndex]) := by
  have hhashed : runHashed c (calls ++ [.rebuildIndex]) = runHashed c calls := by
    rw [runHashed_append]
    exact List.append_nil _
  have hrun : run c (calls ++ [.rebuildIndex]) = (run c calls).rebuildIndex := run_append _ _
  refine ⟨?_, ?_⟩
  · rw [hhashed]
    exact h.injOn
  · rw [hrun]
    exact h.fits

theorem runHashed_append_insertBlock (calls : List Call) (env : CallEnv) (b : Block) :
    runHashed c (calls ++ [.insertBlock env b]) =
      runHashed c calls ++ (run c calls).insertHashed c env b :=
  (runHashedFrom_append empty calls _).trans (congrArg _ (List.append_nil _))

theorem raw_mem_insertHashed (d : BlockDag) (env : CallEnv) (b : Block) :
    b.preimage c ∈ d.insertHashed c env b := by
  unfold insertHashed
  split <;> simp

theorem raw_mem_runHashed (calls : List Call) (env : CallEnv) (b : Block) :
    b.preimage c ∈ {x | x ∈ runHashed c (calls ++ [.insertBlock env b])} := by
  change b.preimage c ∈ runHashed c (calls ++ [.insertBlock env b])
  rw [runHashed_append_insertBlock]
  exact List.mem_append_right _ (raw_mem_insertHashed _ _ _)

section Last
variable {calls : List Call} {env : CallEnv} {b : Block}
  (h : Sound c (calls ++ [.insertBlock env b]))
include h

theorem Sound.lastInsert (acc : Accepts c env (run c calls) b) :
    LastInsert c {x | x ∈ runHashed c (calls ++ [.insertBlock env b])} (run c calls) b := by
  have htr := h.tracked_left
  have hann : ((run c calls).annotate c b).preimage c ∈
      {x | x ∈ runHashed c (calls ++ [.insertBlock env b])} := by
    change _ ∈ runHashed c (calls ++ [.insertBlock env b])
    rw [runHashed_append_insertBlock, insertHashed_of_accepts acc]
    simp
  have hfits := h.fits
  rw [run_append_insertBlock, insertBlock_of_accepts acc] at hfits
  exact htr.lastInsert h.injOn (raw_mem_runHashed calls env b) hann hfits

end Last

/-- The shape of the DAG after any sound run. -/
theorem run_wellFormed (c : Crypto) (calls : List Call) (h : Sound c calls) :
    -- parents are stored, and earlier than their children
    (∀ hash s, (run c calls).getBlock hash = some s → ∀ p ∈ s.header.parentHashes,
      ∃ q, (run c calls).getBlock p = some q ∧
        q.header.topoIndex.toNat < s.header.topoIndex.toNat) ∧
    (∀ hash, hash ∉ (run c calls).getAncestors hash) ∧
    -- the positions are `0 .. n - 1`, each once
    (∀ hash s, (run c calls).getBlock hash = some s →
      s.header.topoIndex.toNat < (run c calls).blockCount) ∧
    (∀ i < (run c calls).blockCount,
      ∃! hash, ∃ s, (run c calls).getBlock hash = some s ∧ s.header.topoIndex.toNat = i) ∧
    -- one block without parents
    (0 < (run c calls).blockCount →
      ∃! hash, ∃ s, (run c calls).getBlock hash = some s ∧ s.header.parentHashes = []) ∧
    -- heights, selected parents and blue scores
    (∀ hash s, (run c calls).getBlock hash = some s → s.header.parentHashes ≠ [] →
      s.header.chainHeight = s.height ∧
      ∃ p ∈ s.header.parentHashes, s.header.selectedParent = some p ∧
        s.height.toNat = 1 + (run c calls).heightRank p ∧
        ∀ q ∈ s.header.parentHashes, (run c calls).heightRank q ≤ (run c calls).heightRank p) ∧
    (∀ hash s, (run c calls).getBlock hash = some s →
      s.header.blueScore.toNat = s.height.toNat + 1) := by
  have wf := h.wellFormed
  refine ⟨fun hash s hs => (wf.placed hash s hs).parent, wf.notMem_getAncestors_self, wf.topo_lt,
    fun i hi => wf.existsUnique_topo hi, ?_, ?_,
    fun hash s hs => (wf.placed hash s hs).blueScore⟩
  · intro hpos
    obtain ⟨hash, ⟨s, hs, ht⟩, huniq⟩ := wf.existsUnique_topo hpos
    refine ⟨hash, ⟨s, hs, (wf.placed hash s hs).root.mpr ht⟩, ?_⟩
    rintro hash' ⟨s', hs', hroot⟩
    exact huniq hash' ⟨s', hs', (wf.placed hash' s' hs').root.mp hroot⟩
  · intro hash s hs hne
    obtain ⟨p, hmax, hsel, hh⟩ := (wf.placed hash s hs).height_child hne
    exact ⟨(wf.placed hash s hs).chainHeight, p, hmax.mem, hsel, by omega, fun q hq => hmax.le hq⟩

section Sample

def sampleEnv : CallEnv := ⟨1000, none⟩

def sampleRoot : BlockHash := (empty.annotate .hashOnly (genesisBlock .hashOnly 1000)).hash

def sampleChild (timestamp : UInt64) : Block :=
  Block.new .hashOnly [sampleRoot] timestamp [] 0 0 0 (Bytes.zero 20) (Bytes.zero 32)

def sampleCalls : List Call :=
  [.createGenesisBlock 1000 sampleEnv, .insertBlock sampleEnv (sampleChild 1001)]

def sampleLeaf : BlockHash :=
  ((run .hashOnly [.createGenesisBlock 1000 sampleEnv]).annotate .hashOnly (sampleChild 1001)).hash

set_option maxRecDepth 20000 in
theorem sampleCalls_evaluated :
    Sound .hashOnly sampleCalls ∧ (run .hashOnly sampleCalls).blockCount = 2 ∧
      ((run .hashOnly [.createGenesisBlock 1000 sampleEnv]).insertBlock .hashOnly sampleEnv
        (sampleChild 1001)).1 = .ok () ∧
      (((run .hashOnly sampleCalls).getBlock sampleRoot).isSome = true ∧
        ((run .hashOnly sampleCalls).getBlock sampleLeaf).isSome = true ∧
        ∀ s ∈ (run .hashOnly sampleCalls).store.getAllBlocks,
          s.validateBasic .hashOnly sampleEnv.now = .ok ()) ∧
      ((run .hashOnly sampleCalls).getTips = {sampleLeaf} ∧
        (run .hashOnly sampleCalls).getChildren sampleRoot = [sampleLeaf]) ∧
      (run .hashOnly sampleCalls).getAncestors sampleRoot = ∅ ∧
      (run .hashOnly sampleCalls).getAncestors sampleLeaf = {sampleRoot} ∧
      (run .hashOnly sampleCalls).getBlockDepth sampleLeaf = some 1 ∧
      sampleLeaf ≠ sampleRoot := by
  unfold sampleLeaf sampleCalls sampleChild sampleRoot
  rw [Crypto.hashOnly_eq_strict]
  decide +kernel

theorem sampleCalls_stored :
    (∃ s, (run .hashOnly sampleCalls).getBlock sampleRoot = some s) ∧
      (∃ s, (run .hashOnly sampleCalls).getBlock sampleLeaf = some s) ∧
      ∀ s ∈ (run .hashOnly sampleCalls).store.getAllBlocks,
        s.validateBasic .hashOnly sampleEnv.now = .ok () := by
  obtain ⟨-, -, -, ⟨hroot, hleaf, hvalid⟩, -⟩ := sampleCalls_evaluated
  exact ⟨Option.isSome_iff_exists.mp hroot, Option.isSome_iff_exists.mp hleaf, hvalid⟩

theorem sampleCalls_index :
    (run .hashOnly sampleCalls).getTips = {sampleLeaf} ∧
      (run .hashOnly sampleCalls).getChildren sampleRoot = [sampleLeaf] :=
  sampleCalls_evaluated.2.2.2.2.1

theorem sampleCalls_lineage :
    (run .hashOnly sampleCalls).getAncestors sampleRoot = ∅ ∧
      (run .hashOnly sampleCalls).getAncestors sampleLeaf = {sampleRoot} ∧
      (run .hashOnly sampleCalls).getBlockDepth sampleLeaf = some 1 ∧
      sampleLeaf ≠ sampleRoot := sampleCalls_evaluated.2.2.2.2.2

end Sample

theorem run_wellFormed_sample :
    (run .hashOnly sampleCalls).blockCount = 2 ∧
      ∃! hash, ∃ s, (run .hashOnly sampleCalls).getBlock hash = some s ∧
        s.header.parentHashes = [] := by
  obtain ⟨hsound, hcount, -⟩ := sampleCalls_evaluated
  refine ⟨hcount, ?_⟩
  exact (run_wellFormed .hashOnly sampleCalls hsound).2.2.2.2.1 (by omega)

end BlockDag

end CytahSpeed
