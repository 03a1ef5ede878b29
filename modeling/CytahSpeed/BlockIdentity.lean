import CytahSpeed.AppendOnly

/-!
# Identity of a block across insertion

`insert_block` checks a block under the hash it arrives with and stores it under the hash it has
after its metadata was rewritten. The two hashes are equal exactly when the block carries the
metadata that the local DAG computes, and whatever depends on the announced hash (looking the
block up, extending it, refusing it a second time, its proof of work) depends on that.
-/

namespace CytahSpeed
open ByteString

namespace BlockDag

variable {c : Crypto} {P : Set (List UInt8)} {env : CallEnv} {d : BlockDag} {b : Block}

theorem preimage_annotate_of_carries (wf : WellFormed c d)
    (hp : ∀ p ∈ b.header.parentHashes, ∃ q, d.getBlock p = some q)
    (hc : d.blockCount + 1 < 2 ^ 64) (h : d.CarriesMetadata b) :
    (d.annotate c b).preimage c = b.preimage c := by
  have hmeta := (sameMetadata_annotate_iff wf hp hc).mpr h
  exact (sameContent_annotate.preimage_eq_iff.mpr hmeta).symm

theorem LastInsert.hash_annotate_iff (last : LastInsert c P d b) (acc : Accepts c env d b) :
    (d.annotate c b).hash = b.hash ↔ d.CarriesMetadata b := by
  have hvalid := (Block.validateBasic_ok_iff.mp acc.valid).1
  constructor
  · intro he
    rw [hvalid] at he
    have hpre := last.injOn last.annotated last.raw he
    apply (sameMetadata_annotate_iff last.tracked.wellFormed acc.parents last.fits).mp
    exact sameContent_annotate.preimage_eq_iff.mp hpre.symm
  · intro h
    have hpre := preimage_annotate_of_carries last.tracked.wellFormed acc.parents last.fits h
    rw [hvalid, hash_annotate, Block.calculateHash, Block.calculateHash, hpre]

/-- The block is found under its announced hash with its content, and a valid new block that
names this hash, next to other stored parents, is accepted. -/
structure KeepsIdentity (c : Crypto) (d : BlockDag) (b : Block) : Prop where
  stored : ∃ s, d.getBlock b.hash = some s ∧ s.header.parentHashes = b.header.parentHashes ∧
    s.transactions = b.transactions ∧ s.producer = b.producer
  extend : ∀ env child, b.hash ∈ child.header.parentHashes →
    (∀ p ∈ child.header.parentHashes, p ≠ b.hash → ∃ q, d.getBlock p = some q) →
    child.validateBasic c env.now = .ok () → d.getBlock child.hash = none →
    env.writeError = none → (d.insertBlock c env child).1 = .ok ()

theorem accepts_child (wf : WellFormed c d) {child : Block} {h : BlockHash} {s : Block}
    (hs : d.getBlock h = some s) (hmem : h ∈ child.header.parentHashes)
    (hp : ∀ p ∈ child.header.parentHashes, p ≠ h → ∃ q, d.getBlock p = some q)
    (hvalid : child.validateBasic c env.now = .ok ()) (hfresh : d.getBlock child.hash = none)
    (hwrite : env.writeError = none) : Accepts c env d child := by
  refine ⟨hvalid, hfresh, ?_, ?_, ?_, hwrite⟩
  · intro p hpm
    by_cases he : p = h
    · exact ⟨s, by rw [he, hs]⟩
    · exact hp p hpm he
  · intro hnil
    rw [hnil] at hmem
    cases hmem
  · intro k t ht he
    have hkey := (wf.hash k t ht).1
    rw [← he, hkey, ht] at hfresh
    cases hfresh

/-- An accepted block keeps its identity exactly when it arrives with the metadata that the local
DAG gives it. -/
theorem insertBlock_keepsIdentity_iff (c : Crypto) (calls : List Call) (env : CallEnv) (b : Block)
    (h : Sound c (calls ++ [.insertBlock env b]))
    (hok : ((run c calls).insertBlock c env b).1 = .ok ()) :
    KeepsIdentity c ((run c calls).insertBlock c env b).2 b ↔
      (run c calls).CarriesMetadata b := by
  have acc := insertBlock_ok_iff.mp hok
  have last := h.lastInsert acc
  rw [← last.hash_annotate_iff acc, insertBlock_of_accepts acc]
  constructor
  · intro hkeep
    obtain ⟨s, hs, -⟩ := hkeep.stored
    rcases getBlock_commit_eq_some hs with ⟨he, -⟩ | hs
    · exact he.symm
    · rw [acc.fresh] at hs
      cases hs
  · intro he
    have hs := getBlock_commit_self (d := run c calls) ((run c calls).annotate c b)
    rw [he] at hs
    refine ⟨⟨_, hs, rfl, rfl, rfl⟩, ?_⟩
    intro env' child hmem hp hvalid hfresh hwrite
    have wf' := last.tracked.wellFormed.commit acc last.fits last.free
    exact insertBlock_ok_iff.mpr (accepts_child wf' hs hmem hp hvalid hfresh hwrite)

def sampleAnnotatedGenesis : Block := empty.annotate .hashOnly (genesisBlock .hashOnly 1000)

set_option maxRecDepth 20000 in
theorem sampleAnnotatedGenesis_accepted :
    Sound .hashOnly ([] ++ [.insertBlock sampleEnv sampleAnnotatedGenesis]) ∧
      ((run .hashOnly []).insertBlock .hashOnly sampleEnv sampleAnnotatedGenesis).1 = .ok () ∧
      sampleAnnotatedGenesis.header.topoIndex.toNat = (run .hashOnly []).blockCount ∧
      sampleAnnotatedGenesis.header.chainHeight = 0 ∧
      sampleAnnotatedGenesis.header.blueScore = 1 ∧
      sampleAnnotatedGenesis.header.selectedParent.getD (Bytes.zero 32) = Bytes.zero 32 := by
  unfold sampleAnnotatedGenesis
  rw [Crypto.hashOnly_eq_strict]
  decide +kernel

theorem insertBlock_keepsIdentity_annotatedGenesis :
    KeepsIdentity .hashOnly
      ((run .hashOnly []).insertBlock .hashOnly sampleEnv sampleAnnotatedGenesis).2
      sampleAnnotatedGenesis := by
  obtain ⟨hsound, hok, htopo, hheight, hblue, hsel⟩ := sampleAnnotatedGenesis_accepted
  refine (insertBlock_keepsIdentity_iff .hashOnly [] sampleEnv sampleAnnotatedGenesis hsound
    hok).mpr ⟨htopo, fun _ => ⟨hheight, hblue, hsel⟩, fun hne => absurd rfl hne⟩

set_option maxRecDepth 20000 in
theorem genesisBlock_rehashed :
    Sound .hashOnly ([] ++ [.insertBlock sampleEnv (genesisBlock .hashOnly 1000)]) ∧
      ((run .hashOnly []).insertBlock .hashOnly sampleEnv (genesisBlock .hashOnly 1000)).1 =
        .ok () ∧
      ((run .hashOnly []).insertBlock .hashOnly sampleEnv (genesisBlock .hashOnly 1000)).2.getBlock
        (genesisBlock .hashOnly 1000).hash = none ∧
      (((run .hashOnly []).insertBlock .hashOnly sampleEnv
        (genesisBlock .hashOnly 1000)).2.insertBlock .hashOnly sampleEnv
          (Block.new .hashOnly [(genesisBlock .hashOnly 1000).hash] 1001 [] 0 0 0 (Bytes.zero 20)
            (Bytes.zero 32))).1 ≠ .ok () := by
  rw [Crypto.hashOnly_eq_strict]
  decide +kernel

/-- The genesis block of `create_genesis_block` is accepted, is not found under its hash, and a
child that names this hash is refused. -/
theorem genesisBlock_loses_identity :
    Sound .hashOnly ([] ++ [.insertBlock sampleEnv (genesisBlock .hashOnly 1000)]) ∧
      ((run .hashOnly []).insertBlock .hashOnly sampleEnv (genesisBlock .hashOnly 1000)).1 =
        .ok () ∧
      (((run .hashOnly []).insertBlock .hashOnly sampleEnv
        (genesisBlock .hashOnly 1000)).2.insertBlock .hashOnly sampleEnv
          (Block.new .hashOnly [(genesisBlock .hashOnly 1000).hash] 1001 [] 0 0 0 (Bytes.zero 20)
            (Bytes.zero 32))).1 ≠ .ok () ∧
      ¬ KeepsIdentity .hashOnly
        ((run .hashOnly []).insertBlock .hashOnly sampleEnv (genesisBlock .hashOnly 1000)).2
        (genesisBlock .hashOnly 1000) := by
  obtain ⟨hsound, hok, hnone, hchild⟩ := genesisBlock_rehashed
  refine ⟨hsound, hok, hchild, ?_⟩
  intro hkeep
  obtain ⟨s, hs, -⟩ := hkeep.stored
  rw [hnone] at hs
  cases hs

section Readmission

def insertions (subs : List (CallEnv × Block)) : List Call :=
  subs.map fun e => .insertBlock e.1 e.2

theorem runFrom_insertBlock_append (d : BlockDag) (env : CallEnv) (b : Block)
    (further : List Call) :
    runFrom c d (.insertBlock env b :: further) = runFrom c (d.insertBlock c env b).2 further := rfl

theorem getBlock_runFrom_ne_none {h : BlockHash} (hs : d.getBlock h ≠ none)
    (calls : List Call) : (runFrom c d calls).getBlock h ≠ none := by
  refine run_invariant (P := Set.univ) (I := fun d' => d'.getBlock h ≠ none)
    ?_ calls ?_ d (fun _ _ => trivial) hs
  · intro env d' b' hI _ _ _
    rw [getBlock_commit]
    by_cases he : h = (d'.annotate c b').hash
    · rw [if_pos he]
      exact Option.some_ne_none _
    · rw [if_neg he]
      exact hI
  · exact fun _ d' hI => hI

theorem insertBlock_refused (h : ¬ Accepts c env d b) :
    (∃ e, (d.insertBlock c env b).1 = .error e) ∧
      (d.insertBlock c env b).2.blockCount = d.blockCount := by
  rcases insertBlock_cases c env d b with ⟨acc, -⟩ | ⟨-, e, he⟩
  · exact absurd acc h
  · rw [he]
    exact ⟨⟨e, rfl⟩, rfl⟩

theorem Accepts.again (acc : Accepts c env d b) (hfree : d.getBlock (d.annotate c b).hash = none)
    (hne : (d.annotate c b).hash ≠ b.hash) (hpar : b.header.parentHashes ≠ []) :
    Accepts c env (d.commit (d.annotate c b)) b := by
  refine ⟨acc.valid, ?_, ?_, fun hnil => absurd hnil hpar, ?_, acc.written⟩
  · rw [getBlock_commit, if_neg hne.symm, acc.fresh]
  · intro p hp
    obtain ⟨q, hq⟩ := acc.parents p hp
    exact ⟨q, getBlock_commit_of_some hfree hq⟩
  · intro h s hs
    rcases getBlock_commit_eq_some hs with ⟨-, rfl⟩ | hs
    · exact hne
    · exact acc.notStored h s hs

/-- An accepted block is refused ever after exactly when it is a genesis block or arrived with the
metadata that the local DAG gives it. -/
theorem insertBlock_refused_again_iff (c : Crypto) (calls : List Call) (env : CallEnv) (b : Block)
    (h : Sound c (calls ++ [.insertBlock env b]))
    (hok : ((run c calls).insertBlock c env b).1 = .ok ()) :
    (∀ (further : List (CallEnv × Block)) (env' : CallEnv),
      (∃ e, ((run c (calls ++ .insertBlock env b :: insertions further)).insertBlock c env' b).1 =
        .error e) ∧
      ((run c (calls ++ .insertBlock env b :: insertions further)).insertBlock c env'
        b).2.blockCount = (run c (calls ++ .insertBlock env b :: insertions further)).blockCount) ↔
      b.header.parentHashes = [] ∨ (run c calls).CarriesMetadata b := by
  have acc := insertBlock_ok_iff.mp hok
  have last := h.lastInsert acc
  have hrun : ∀ further, run c (calls ++ .insertBlock env b :: further) =
      runFrom c ((run c calls).commit ((run c calls).annotate c b)) further := by
    intro further
    rw [run, runFrom_append, runFrom_insertBlock_append]
    exact congrArg (fun r => runFrom c r.2 further) (insertBlock_of_accepts acc)
  have hiff := last.hash_annotate_iff acc
  constructor
  · intro hall
    by_contra hnot
    push Not at hnot
    have hne : ((run c calls).annotate c b).hash ≠ b.hash := fun he => hnot.2 (hiff.mp he)
    obtain ⟨⟨e, he⟩, -⟩ := hall [] env
    have hagain := insertBlock_ok_iff.mpr (acc.again last.free hne hnot.1)
    rw [hrun] at he
    exact absurd (hagain.symm.trans he) (fun hc => by cases hc)
  · intro hcond further env'
    rw [hrun]
    apply insertBlock_refused
    intro acc'
    rcases hcond with hnil | hcarry
    · have hzero := acc'.root hnil
      have hle := blockCount_le_runFrom (c := c)
        ((run c calls).commit ((run c calls).annotate c b)) (insertions further)
      rw [blockCount_commit last.free] at hle
      omega
    · have hs := getBlock_commit_self (d := run c calls) ((run c calls).annotate c b)
      rw [hiff.mpr hcarry] at hs
      have hkept := getBlock_runFrom_ne_none (c := c) (h := b.hash) (by rw [hs]; simp)
        (insertions further)
      exact hkept acc'.fresh

theorem insertBlock_refused_again_genesis :
    (∃ e, ((run .hashOnly ([] ++ .insertBlock sampleEnv (genesisBlock .hashOnly 1000) ::
      insertions [(sampleEnv, sampleChild 1001)])).insertBlock .hashOnly sampleEnv
        (genesisBlock .hashOnly 1000)).1 = .error e) :=
  ((insertBlock_refused_again_iff .hashOnly [] sampleEnv (genesisBlock .hashOnly 1000)
    genesisBlock_rehashed.1 genesisBlock_rehashed.2.1).mpr (Or.inl rfl)
      [(sampleEnv, sampleChild 1001)] sampleEnv).1

set_option maxRecDepth 20000 in
/-- The same child block is accepted twice and the DAG holds it under two hashes. -/
theorem sampleChild_admitted_twice :
    Sound .hashOnly sampleCalls ∧
      ((run .hashOnly [.createGenesisBlock 1000 sampleEnv]).insertBlock .hashOnly sampleEnv
        (sampleChild 1001)).1 = .ok () ∧
      ((run .hashOnly sampleCalls).insertBlock .hashOnly sampleEnv (sampleChild 1001)).1 =
        .ok () ∧
      (run .hashOnly sampleCalls).blockCount = 2 ∧
      ((run .hashOnly sampleCalls).insertBlock .hashOnly sampleEnv
        (sampleChild 1001)).2.blockCount = 3 := by
  unfold sampleCalls sampleChild sampleRoot
  rw [Crypto.hashOnly_eq_strict]
  decide +kernel

end Readmission

section ProofOfWork

/-- Every block that is accepted with a positive difficulty carries its metadata. -/
def MinedInPlace (c : Crypto) : BlockDag → List (CallEnv × Block) → Prop
  | _, [] => True
  | d, (env, b) :: rest =>
    ((d.insertBlock c env b).1 = .ok () → b.header.difficulty > 0 → d.CarriesMetadata b) ∧
      MinedInPlace c (d.insertBlock c env b).2 rest

/-- The hash and proof-of-work checks of `validate_basic` hold for every stored block. -/
def ProvesWork (c : Crypto) (d : BlockDag) : Prop :=
  ∀ h s, d.getBlock h = some s → s.hash = s.calculateHash c ∧
    (s.header.difficulty > 0 → Mining.meetsDifficulty s.hash s.header.difficulty = true)

theorem ProvesWork.commit (hw : ProvesWork c d) (wf : WellFormed c d) (acc : Accepts c env d b)
    (hc : d.blockCount + 1 < 2 ^ 64)
    (hcarry : b.header.difficulty > 0 → d.CarriesMetadata b) :
    ProvesWork c (d.commit (d.annotate c b)) := by
  intro h s hs
  rcases getBlock_commit_eq_some hs with ⟨-, rfl⟩ | hs
  · refine ⟨rfl, ?_⟩
    intro hd
    obtain ⟨hhash, hpow, -⟩ := Block.validateBasic_ok_iff.mp acc.valid
    have hpre := preimage_annotate_of_carries wf acc.parents hc (hcarry hd)
    have he : (d.annotate c b).hash = b.hash := by
      rw [hhash, hash_annotate, Block.calculateHash, Block.calculateHash, hpre]
    rw [he]
    exact hpow hd
  · exact hw h s hs

theorem minedInPlace_append (d : BlockDag) (xs ys : List (CallEnv × Block)) :
    MinedInPlace c d (xs ++ ys) ↔
      MinedInPlace c d xs ∧ MinedInPlace c (runFrom c d (insertions xs)) ys := by
  induction xs generalizing d with
  | nil => simp [MinedInPlace, insertions, runFrom]
  | cons sub xs ih =>
    obtain ⟨env, b⟩ := sub
    rw [List.cons_append, MinedInPlace, MinedInPlace, ih, and_assoc]
    rfl

/-- One more call keeps the invariant; the induction is on the last call of the run. -/
theorem provesWork_run (subs : List (CallEnv × Block)) (h : Sound c (insertions subs))
    (hm : MinedInPlace c empty subs) : ProvesWork c (run c (insertions subs)) := by
  induction subs using List.reverseRecOn with
  | nil =>
    intro hash s hs
    have hnone : empty.getBlock hash = none := Finmap.lookup_empty hash
    have hs' : empty.getBlock hash = some s := hs
    rw [hnone] at hs'
    cases hs'
  | append_singleton xs sub ih =>
    obtain ⟨env, b⟩ := sub
    have hcalls : insertions (xs ++ [(env, b)]) = insertions xs ++ [.insertBlock env b] :=
      List.map_append
    rw [hcalls] at h ⊢
    obtain ⟨hxs, hlast⟩ := (minedInPlace_append empty xs [(env, b)]).mp hm
    have hprev := ih h.append_left hxs
    rw [run_append_insertBlock]
    rcases insertBlock_cases c env (run c (insertions xs)) b with
      ⟨acc, he⟩ | ⟨-, e, he⟩
    · have last := h.lastInsert acc
      rw [he]
      exact hprev.commit last.tracked.wellFormed acc last.fits
        (hlast.1 (insertBlock_ok_iff.mpr acc))
    · rw [he]
      exact hprev

/-- In every run of `insert_block` calls whose mined blocks carry their metadata, every stored
block passes its own hash and proof-of-work checks. -/
theorem run_provesWork (c : Crypto) (subs : List (CallEnv × Block)) (h : Sound c (insertions subs))
    (hm : MinedInPlace c empty subs) (hash : BlockHash) (s : Block)
    (hs : (run c (insertions subs)).getBlock hash = some s) :
    s.hash = s.calculateHash c ∧
      (s.header.difficulty > 0 → Mining.meetsDifficulty s.hash s.header.difficulty = true) := by
  exact provesWork_run subs h hm hash s hs

def sampleMined (nonce : UInt64) : Block :=
  Block.new .hashOnly [] 1000 [] nonce 8 0 (Bytes.zero 20) (Bytes.zero 32)

def sampleMinedInPlace : Block := empty.annotate .hashOnly (sampleMined 454)

set_option maxRecDepth 20000 in
theorem sampleMinedInPlace_accepted :
    Sound .hashOnly (insertions [(sampleEnv, sampleMinedInPlace)]) ∧
      (run .hashOnly (insertions [(sampleEnv, sampleMinedInPlace)])).getBlock
        sampleMinedInPlace.hash = some sampleMinedInPlace ∧
      sampleMinedInPlace.header.difficulty > 0 ∧
      sampleMinedInPlace.header.topoIndex.toNat = empty.blockCount ∧
      sampleMinedInPlace.header.chainHeight = 0 ∧ sampleMinedInPlace.header.blueScore = 1 ∧
      sampleMinedInPlace.header.selectedParent.getD (Bytes.zero 32) = Bytes.zero 32 := by
  unfold sampleMinedInPlace sampleMined
  rw [Crypto.hashOnly_eq_strict]
  decide +kernel

theorem run_provesWork_minedInPlace :
    sampleMinedInPlace.header.difficulty > 0 ∧
      Mining.meetsDifficulty sampleMinedInPlace.hash
        sampleMinedInPlace.header.difficulty = true := by
  obtain ⟨hsound, hstored, hd, htopo, hheight, hblue, hsel⟩ := sampleMinedInPlace_accepted
  have hcarry : empty.CarriesMetadata sampleMinedInPlace :=
    ⟨htopo, fun _ => ⟨hheight, hblue, hsel⟩, fun hne => absurd rfl hne⟩
  refine ⟨hd, (run_provesWork .hashOnly [(sampleEnv, sampleMinedInPlace)] hsound
    ⟨fun _ _ => hcarry, trivial⟩ sampleMinedInPlace.hash sampleMinedInPlace hstored).2 hd⟩

set_option maxRecDepth 20000 in
/-- A block mined as `Block::new` makes it is accepted, and the block stored for it does not meet
its own difficulty. -/
theorem sampleMined_loses_work :
    Sound .hashOnly (insertions [(sampleEnv, sampleMined 379)]) ∧
      ((run .hashOnly []).insertBlock .hashOnly sampleEnv (sampleMined 379)).1 = .ok () ∧
      (run .hashOnly (insertions [(sampleEnv, sampleMined 379)])).getBlock
        (empty.annotate .hashOnly (sampleMined 379)).hash =
          some (empty.annotate .hashOnly (sampleMined 379)) ∧
      (empty.annotate .hashOnly (sampleMined 379)).header.difficulty > 0 ∧
      Mining.meetsDifficulty (empty.annotate .hashOnly (sampleMined 379)).hash
        (empty.annotate .hashOnly (sampleMined 379)).header.difficulty = false := by
  unfold sampleMined
  rw [Crypto.hashOnly_eq_strict]
  decide +kernel

end ProofOfWork

end BlockDag

end CytahSpeed
