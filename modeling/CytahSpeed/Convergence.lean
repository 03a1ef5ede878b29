import CytahSpeed.BlockIdentity

/-!
# Convergence of two nodes

Two nodes start from one genesis block and accept the blocks of one family, each in its own
order. A stored hash covers the position at which the block arrived, so the nodes agree exactly
when at every position they accepted blocks of the same content. One direction is a simulation
between the two runs; the other reads the content back from the stored hashes.
-/

namespace CytahSpeed
open ByteString FiniteMap

namespace BlockDag

variable {c : Crypto}

def AllAccepted (c : Crypto) : BlockDag → List (CallEnv × Block) → Prop
  | _, [] => True
  | d, (env, b) :: rest =>
    (d.insertBlock c env b).1 = .ok () ∧ AllAccepted c (d.insertBlock c env b).2 rest

instance decidableAllAccepted : ∀ (d : BlockDag) (subs : List (CallEnv × Block)),
    Decidable (AllAccepted c d subs)
  | _, [] => isTrue trivial
  | d, (env, b) :: rest =>
    haveI := decidableAllAccepted (d.insertBlock c env b).2 rest
    inferInstanceAs (Decidable ((d.insertBlock c env b).1 = .ok () ∧ _))

/-- The same set of stored hashes and the same tips. -/
def Converged (d e : BlockDag) : Prop :=
  d.store.getAllHashes.toFinset = e.store.getAllHashes.toFinset ∧ d.getTips = e.getTips

instance (d e : BlockDag) : Decidable (Converged d e) :=
  inferInstanceAs (Decidable (_ ∧ _))

theorem withGenesis_ok_iff {env : CallEnv} {g : Block} {d : BlockDag} :
    withGenesis c env g = .ok d ↔
      g.isGenesis = true ∧ Accepts c env empty g ∧ d = empty.commit (empty.annotate c g) := by
  unfold withGenesis
  by_cases hg : g.isGenesis = true
  · rw [if_pos hg]
    rcases insertBlock_cases c env empty g with ⟨acc, he⟩ | ⟨hn, e, he⟩
    · simp only [he, hg, acc, true_and, Except.ok.injEq]
      exact eq_comm
    · simp [he, hn]
  · rw [if_neg hg]
    simp [hg]

section Simulation

/-- Stored blocks that no annotation can tell apart. -/
structure SameStored (s t : Block) : Prop where
  hash : s.hash = t.hash
  header : s.header = t.header
  height : s.height = t.height

structure Agree (d e : BlockDag) : Prop where
  blocks : ∀ h, Option.Rel SameStored (d.getBlock h) (e.getBlock h)
  tips : d.getTips = e.getTips

variable {d e : BlockDag} {b b' : Block}

theorem agree_refl (d : BlockDag) : Agree d d := by
  refine ⟨?_, rfl⟩
  intro h
  cases d.getBlock h with
  | none => exact Option.Rel.none
  | some s => exact Option.Rel.some ⟨rfl, rfl, rfl⟩

theorem Agree.stored_iff (h : Agree d e) (hash : BlockHash) :
    (∃ s, d.getBlock hash = some s) ↔ ∃ t, e.getBlock hash = some t := by
  have hrel := h.blocks hash
  cases hd : d.getBlock hash with
  | none =>
    rw [hd] at hrel
    cases he : e.getBlock hash with
    | none => simp
    | some t => rw [he] at hrel; cases hrel
  | some s =>
    rw [hd] at hrel
    cases he : e.getBlock hash with
    | none => rw [he] at hrel; cases hrel
    | some t => simp

theorem Agree.converged (h : Agree d e) : Converged d e := by
  refine ⟨?_, h.tips⟩
  ext hash
  rw [List.mem_toFinset, List.mem_toFinset, BlockStore.mem_getAllHashes,
    BlockStore.mem_getAllHashes]
  exact h.stored_iff hash

theorem blockCount_congr
    (h : ∀ hash, (∃ s, d.getBlock hash = some s) ↔ ∃ t, e.getBlock hash = some t) :
    d.blockCount = e.blockCount := by
  unfold blockCount
  rw [BlockStore.blockCount_eq_card, BlockStore.blockCount_eq_card]
  congr 1
  ext hash
  rw [Finmap.mem_keys, Finmap.mem_keys, Finmap.mem_iff, Finmap.mem_iff]
  exact h hash

theorem Agree.blockCount_eq (h : Agree d e) : d.blockCount = e.blockCount :=
  blockCount_congr h.stored_iff

theorem Agree.getBlock_cases (h : Agree d e) (p : BlockHash) :
    (d.getBlock p = none ∧ e.getBlock p = none) ∨
      ∃ s t, d.getBlock p = some s ∧ e.getBlock p = some t ∧ SameStored s t := by
  have hrel := h.blocks p
  revert hrel
  generalize d.getBlock p = x
  generalize e.getBlock p = y
  intro hrel
  cases hrel with
  | none => exact Or.inl ⟨rfl, rfl⟩
  | some hst => exact Or.inr ⟨_, _, rfl, rfl, hst⟩

theorem Agree.bestParent_eq (h : Agree d e) (parents : List BlockHash) :
    d.bestParent parents = e.bestParent parents := by
  unfold bestParent
  apply List.foldl_ext
  intro best p _
  rcases h.getBlock_cases p with ⟨hd, he⟩ | ⟨s, t, hd, he, hst⟩
  · simp only [hd, he]
  · simp only [hd, he, hst.height]

theorem Agree.computeBlueScore_eq (h : Agree d e)
    (hp : b.header.parentHashes = b'.header.parentHashes) :
    d.computeBlueScore b = e.computeBlueScore b' := by
  unfold computeBlueScore
  rw [hp]
  congr 1
  apply List.foldl_ext
  intro score p _
  rcases h.getBlock_cases p with ⟨hd, he⟩ | ⟨s, t, hd, he, hst⟩
  · simp only [hd, he]
  · simp only [hd, he, hst.header]

theorem sameStored_setConsensusMetadata (h : Block.SameContent c b b')
    (sp : Option BlockHash) (bs ch ti : UInt64) :
    SameStored (b.setConsensusMetadata c sp bs ch ti) (b'.setConsensusMetadata c sp bs ch ti) := by
  have hheader : (b.setConsensusMetadata c sp bs ch ti).header =
      (b'.setConsensusMetadata c sp bs ch ti).header := by
    simp only [Block.header_setConsensusMetadata, h.parentHashes, h.timestamp, h.nonce,
      h.difficulty, h.baseFee, h.stateRoot, h.version]
  refine ⟨?_, hheader, rfl⟩
  simp only [Block.hash_setConsensusMetadata, Block.calculateHash, Block.preimage,
    Block.hashedLinks, Block.hashedFields, hheader, Block.transactions_setConsensusMetadata,
    Block.producer_setConsensusMetadata, h.transactions, h.producer]

theorem Agree.annotate (h : Agree d e) (hb : Block.SameContent c b b') :
    SameStored (d.annotate c b) (e.annotate c b') := by
  simp only [BlockDag.annotate, h.bestParent_eq, h.computeBlueScore_eq hb.parentHashes,
    h.blockCount_eq, hb.parentHashes]
  exact sameStored_setConsensusMetadata hb _ _ _ _

theorem Agree.commit (h : Agree d e) {s t : Block} (hst : SameStored s t) :
    Agree (d.commit s) (e.commit t) := by
  constructor
  · intro hash
    rw [getBlock_commit, getBlock_commit, hst.hash]
    by_cases hh : hash = t.hash
    · rw [if_pos hh, if_pos hh]
      exact Option.Rel.some hst
    · rw [if_neg hh, if_neg hh]
      exact h.blocks hash
  · ext hash
    have htips : hash ∈ d.index.tips ↔ hash ∈ e.index.tips := by
      have ht := h.tips
      simp only [getTips] at ht
      rw [ht]
    change hash ∈ (d.index.updateTipsAfterInsert s).tips ↔
      hash ∈ (e.index.updateTipsAfterInsert t).tips
    rw [DagIndex.mem_tips_updateTipsAfterInsert, DagIndex.mem_tips_updateTipsAfterInsert, hst.hash,
      hst.header, htips]

/-- Nodes that accept blocks of the same content at every position stay in agreement. -/
theorem Agree.runFrom {xs ys : List (CallEnv × Block)}
    (hcontent : List.Forall₂ (fun x y => Block.SameContent c x.2 y.2) xs ys) (h : Agree d e)
    (hx : AllAccepted c d xs) (hy : AllAccepted c e ys) :
    Agree (runFrom c d (insertions xs)) (runFrom c e (insertions ys)) := by
  induction hcontent generalizing d e with
  | nil => exact h
  | @cons x y xs ys hxy _ ih =>
    obtain ⟨env, b⟩ := x
    obtain ⟨env', b'⟩ := y
    obtain ⟨hok, hx⟩ := hx
    obtain ⟨hok', hy⟩ := hy
    have hd := insertBlock_of_accepts (insertBlock_ok_iff.mp hok)
    have he := insertBlock_of_accepts (insertBlock_ok_iff.mp hok')
    rw [hd] at hx
    rw [he] at hy
    have hnext := ih (h.commit (h.annotate hxy)) hx hy
    simp only [insertions, List.map_cons, runFrom_insertBlock_append, hd, he]
    exact hnext

end Simulation

section Positions
variable {P : Set (List UInt8)} {d : BlockDag}

theorem Tracked.getBlock_runFrom (htr : Tracked c P d) (hinj : Set.InjOn c.sha256 P)
    (calls : List Call) (hP : ∀ x ∈ runHashedFrom c d calls, x ∈ P)
    (hc : (runFrom c d calls).blockCount < 2 ^ 64) {h : BlockHash} {s : Block}
    (hs : d.getBlock h = some s) : (runFrom c d calls).getBlock h = some s := by
  refine tracked_invariant hinj (Q := fun d' => d'.getBlock h = some s) ?_ calls ?_ htr hs hP hc
  · intro env d' b last acc hs'
    exact getBlock_commit_of_some last.free hs'
  · exact fun _ d' _ hs' => hs'

theorem AllAccepted.stored_at (hinj : Set.InjOn c.sha256 P) (subs : List (CallEnv × Block))
    (htr : Tracked c P d) (hP : ∀ x ∈ runHashedFrom c d (insertions subs), x ∈ P)
    (hc : (runFrom c d (insertions subs)).blockCount < 2 ^ 64) (hall : AllAccepted c d subs)
    (i : ℕ) (hi : i < subs.length) :
    ∃ s, (runFrom c d (insertions subs)).getBlock s.hash = some s ∧
      Block.SameContent c subs[i].2 s ∧ s.header.topoIndex.toNat = d.blockCount + i := by
  induction subs generalizing d i with
  | nil => exact absurd hi (Nat.not_lt_zero i)
  | cons sub subs ih =>
    obtain ⟨env, b⟩ := sub
    obtain ⟨hok, hall⟩ := hall
    have acc := insertBlock_ok_iff.mp hok
    have hd := insertBlock_of_accepts acc
    have hrun : runFrom c d (insertions ((env, b) :: subs)) =
        runFrom c (d.commit (d.annotate c b)) (insertions subs) :=
      congrArg (fun r => runFrom c r.2 (insertions subs)) hd
    have hhashed : runHashedFrom c d (insertions ((env, b) :: subs)) =
        [b.preimage c, (d.annotate c b).preimage c] ++
          runHashedFrom c (d.commit (d.annotate c b)) (insertions subs) := by
      change d.insertHashed c env b ++ runHashedFrom c (d.insertBlock c env b).2 _ = _
      rw [insertHashed_of_accepts acc, hd]
      rfl
    have hpre : (d.annotate c b).preimage c ∈ P := hP _ (by rw [hhashed]; simp)
    have hP' : ∀ x ∈ runHashedFrom c (d.commit (d.annotate c b)) (insertions subs), x ∈ P :=
      fun x hx => hP x (by rw [hhashed]; exact List.mem_append_right _ hx)
    rw [hrun] at hc ⊢
    rw [hd] at hall
    have hmono := blockCount_le_runFrom (c := c) (d.commit (d.annotate c b)) (insertions subs)
    have hlt : (d.commit (d.annotate c b)).blockCount < 2 ^ 64 := by omega
    have hcount := htr.blockCount_commit hinj hpre hlt
    have htr' := htr.commit acc hinj hpre hlt
    cases i with
    | zero =>
      refine ⟨d.annotate c b, ?_, sameContent_annotate, ?_⟩
      · exact htr'.getBlock_runFrom hinj _ hP' hc (getBlock_commit_self _)
      · exact topoIndex_annotate (by omega)
    | succ i =>
      obtain ⟨s, hs, hcontent, htopo⟩ := ih htr' hP' hc hall i (by simpa using hi)
      exact ⟨s, hs, hcontent, by omega⟩

end Positions

theorem append_cut {α : Type*} {A : α → Prop} {l₁ l₂ r₁ r₂ : List α} (h₁ : ∀ x ∈ l₁, A x)
    (h₂ : ∀ x ∈ l₂, A x) (g₁ : ∀ x ∈ r₁, ¬ A x) (g₂ : ∀ x ∈ r₂, ¬ A x)
    (h : l₁ ++ r₁ = l₂ ++ r₂) : l₁ = l₂ ∧ r₁ = r₂ := by
  rcases List.append_eq_append_iff.mp h with ⟨t, hl, hr⟩ | ⟨t, hl, hr⟩
  · cases t with
    | nil => simp_all
    | cons x t => exact absurd (h₂ x (by simp [hl])) (g₁ x (by simp [hr]))
  · cases t with
    | nil => simp_all
    | cons x t => exact absurd (h₁ x (by simp [hl])) (g₂ x (by simp [hr]))

/-- Blocks with one preimage have the same content, if no transaction of theirs is hashed to the
hash of a block that could be a parent. -/
theorem sameContent_of_preimage_eq {A : BlockHash → Prop} {s t : Block}
    (hs : ∀ p ∈ s.header.parentHashes, A p) (ht : ∀ p ∈ t.header.parentHashes, A p)
    (hs' : ∀ h ∈ s.transactions.map (·.hash c), ¬ A h)
    (ht' : ∀ h ∈ t.transactions.map (·.hash c), ¬ A h)
    (h : s.preimage c = t.preimage c) : Block.SameContent c s t := by
  obtain ⟨hlinks, hfields⟩ := Block.preimage_eq_iff.mp h
  obtain ⟨⟨h₁, h₂, h₃, h₄, h₅, h₆, h₇⟩, -⟩ := Block.hashedFields_eq_iff.mp hfields
  obtain ⟨hp, htx⟩ := append_cut hs ht hs' ht' hlinks
  exact ⟨hp, htx, h₁, h₂, h₃, h₄, h₅, h₆, h₇⟩

section Nodes
variable {P : Set (List UInt8)} {env env' : CallEnv} {g : Block} {d : BlockDag}
  {xs ys : List (CallEnv × Block)}

theorem tracked_withGenesis (hg : withGenesis c env g = .ok d) (hinj : Set.InjOn c.sha256 P)
    (hP : ∀ x ∈ runHashed c (insertions ((env, g) :: xs)), x ∈ P)
    (hc : (runFrom c d (insertions xs)).blockCount < 2 ^ 64) :
    Tracked c P d ∧ ∀ x ∈ runHashedFrom c d (insertions xs), x ∈ P := by
  obtain ⟨-, acc, rfl⟩ := withGenesis_ok_iff.mp hg
  have hhashed : runHashed c (insertions ((env, g) :: xs)) =
      [g.preimage c, (empty.annotate c g).preimage c] ++
        runHashedFrom c (empty.commit (empty.annotate c g)) (insertions xs) := by
    change empty.insertHashed c env g ++ runHashedFrom c (empty.insertBlock c env g).2 _ = _
    rw [insertHashed_of_accepts acc, insertBlock_of_accepts acc]
    rfl
  have hle := blockCount_le_runFrom (c := c) (empty.commit (empty.annotate c g)) (insertions xs)
  constructor
  · exact tracked_empty.commit acc hinj (hP _ (by rw [hhashed]; simp)) (by omega)
  · intro x hx
    exact hP x (by rw [hhashed]; exact List.mem_append_right _ hx)

theorem Converged.stored_iff {d e : BlockDag} (h : Converged d e) (hash : BlockHash) :
    (∃ s, d.getBlock hash = some s) ↔ ∃ t, e.getBlock hash = some t := by
  have hmem : hash ∈ d.store.getAllHashes.toFinset ↔ hash ∈ e.store.getAllHashes.toFinset := by
    rw [h.1]
  rwa [List.mem_toFinset, List.mem_toFinset, BlockStore.mem_getAllHashes,
    BlockStore.mem_getAllHashes] at hmem

theorem preimage_eq_of_stored (hinj : Set.InjOn c.sha256 P) {d e : BlockDag}
    (hd : Tracked c P d) (he : Tracked c P e) {h : BlockHash} {s t : Block}
    (hs : d.getBlock h = some s) (ht : e.getBlock h = some t) : s.preimage c = t.preimage c := by
  apply hinj (hd.hashed h s hs) (he.hashed h t ht)
  obtain ⟨hks, hcs⟩ := hd.wellFormed.hash h s hs
  obtain ⟨hkt, hct⟩ := he.wellFormed.hash h t ht
  calc c.sha256 (s.preimage c) = s.hash := hcs.symm
    _ = h := hks
    _ = t.hash := hkt.symm
    _ = c.sha256 (t.preimage c) := hct

theorem Converged.preimage_eq (hinj : Set.InjOn c.sha256 P) {d e : BlockDag}
    (hconv : Converged d e) (hd : Tracked c P d) (he : Tracked c P e) {s t : Block}
    (hs : d.getBlock s.hash = some s) (ht : e.getBlock t.hash = some t)
    (htopo : s.header.topoIndex.toNat = t.header.topoIndex.toNat) :
    s.preimage c = t.preimage c := by
  -- the hash of `s` is stored by the other node, at the position of `t`
  obtain ⟨t', ht'⟩ := (hconv.stored_iff s.hash).mp ⟨s, hs⟩
  have hpre := preimage_eq_of_stored hinj hd he hs ht'
  have htopo' : t'.header.topoIndex = t.header.topoIndex := by
    have hsame := Block.topoIndex_eq_of_preimage_eq hpre
    exact UInt64.toNat_inj.mp (by rw [← hsame, htopo])
  have hkey := he.wellFormed.topo_inj s.hash t' t.hash t ht' ht htopo'
  rw [hkey, ht] at ht'
  rw [hpre, Option.some.inj ht']

theorem Converged.sameContent (hinj : Set.InjOn c.sha256 P) (htr : Tracked c P d)
    (hPx : ∀ x ∈ runHashedFrom c d (insertions xs), x ∈ P)
    (hPy : ∀ x ∈ runHashedFrom c d (insertions ys), x ∈ P)
    (hcx : (runFrom c d (insertions xs)).blockCount < 2 ^ 64)
    (hcy : (runFrom c d (insertions ys)).blockCount < 2 ^ 64)
    (hfamily : (xs.map Prod.snd).Perm (ys.map Prod.snd)) (hx : AllAccepted c d xs)
    (hy : AllAccepted c d ys)
    (htx : ∀ b ∈ xs.map Prod.snd, ∀ tx ∈ b.transactions,
      (runFrom c d (insertions xs)).getBlock (tx.hash c) = none)
    (hconv : Converged (runFrom c d (insertions xs)) (runFrom c d (insertions ys))) :
    List.Forall₂ (fun x y => Block.SameContent c x.2 y.2) xs ys := by
  have hlen : xs.length = ys.length := by simpa using hfamily.length_eq
  have hfx := tracked_runFrom hinj d (insertions xs) (fun _ => htr) hPx hcx
  have hfy := tracked_runFrom hinj d (insertions ys) (fun _ => htr) hPy hcy
  rw [List.forall₂_iff_get]
  refine ⟨hlen, ?_⟩
  intro i hi hi'
  obtain ⟨s, hs, hcs, hts⟩ := hx.stored_at hinj xs htr hPx hcx i hi
  obtain ⟨t, ht, hct, htt⟩ := hy.stored_at hinj ys htr hPy hcy i hi'
  have hpre := hconv.preimage_eq hinj hfx hfy hs ht (hts.trans htt.symm)
  -- transactions are not hashed to stored hashes, so parents and transactions come apart
  have hfree : ∀ b ∈ xs.map Prod.snd, ∀ h ∈ b.transactions.map (·.hash c),
      ¬ ∃ q, (runFrom c d (insertions xs)).getBlock h = some q := by
    intro b hb h hm hq
    obtain ⟨tx, hmem, rfl⟩ := List.mem_map.mp hm
    obtain ⟨q, hq⟩ := hq
    rw [htx b hb tx hmem] at hq
    cases hq
  have hxi : (xs.get ⟨i, hi⟩).2 ∈ xs.map Prod.snd := List.mem_map_of_mem (List.get_mem xs _)
  have hyi : (ys.get ⟨i, hi'⟩).2 ∈ xs.map Prod.snd :=
    hfamily.mem_iff.mpr (List.mem_map_of_mem (List.get_mem ys _))
  have hst : Block.SameContent c s t := by
    refine sameContent_of_preimage_eq
      (A := fun h => ∃ q, (runFrom c d (insertions xs)).getBlock h = some q) ?_ ?_ ?_ ?_ hpre
    · intro p hp
      obtain ⟨q, hq, -⟩ := (hfx.wellFormed.placed s.hash s hs).parent p hp
      exact ⟨q, hq⟩
    · intro p hp
      obtain ⟨q, hq, -⟩ := (hfy.wellFormed.placed t.hash t ht).parent p hp
      exact (hconv.stored_iff p).mpr ⟨q, hq⟩
    · rw [← hcs.transactions]
      exact hfree _ hxi
    · rw [← hct.transactions]
      exact hfree _ hyi
  exact (hcs.trans hst).trans hct.symm

/-- Two nodes that accept one family of blocks, each in its own order, converge if they accept
blocks of the same content at every position, and, short of a collision, in no other case. -/
theorem nodes_converged_iff (c : Crypto) (g : Block) (env env' : CallEnv) (d d' : BlockDag)
    (xs ys : List (CallEnv × Block)) (hg : withGenesis c env g = .ok d)
    (hg' : withGenesis c env' g = .ok d')
    (hfamily : (xs.map Prod.snd).Perm (ys.map Prod.snd)) (hx : AllAccepted c d xs)
    (hy : AllAccepted c d' ys) :
    (List.Forall₂ (fun x y => Block.SameContent c x.2 y.2) xs ys →
      Converged (runFrom c d (insertions xs)) (runFrom c d' (insertions ys))) ∧
    (Set.InjOn c.sha256 {x | x ∈ runHashed c (insertions ((env, g) :: xs)) ∨
        x ∈ runHashed c (insertions ((env', g) :: ys))} →
      (runFrom c d (insertions xs)).blockCount < 2 ^ 64 →
      (∀ b ∈ xs.map Prod.snd, ∀ tx ∈ b.transactions,
        (runFrom c d (insertions xs)).getBlock (tx.hash c) = none) →
      Converged (runFrom c d (insertions xs)) (runFrom c d' (insertions ys)) →
      List.Forall₂ (fun x y => Block.SameContent c x.2 y.2) xs ys) := by
  obtain ⟨-, -, hd⟩ := withGenesis_ok_iff.mp hg
  obtain ⟨-, -, hd'⟩ := withGenesis_ok_iff.mp hg'
  obtain rfl : d = d' := hd.trans hd'.symm
  constructor
  · intro hcontent
    exact ((agree_refl d).runFrom hcontent hx hy).converged
  · intro hinj hcx htx hconv
    have hcy : (runFrom c d (insertions ys)).blockCount < 2 ^ 64 := by
      have hcount := blockCount_congr fun h => hconv.stored_iff h
      omega
    obtain ⟨htr, hPx⟩ := tracked_withGenesis hg hinj (fun x hx => Or.inl hx) hcx
    obtain ⟨-, hPy⟩ := tracked_withGenesis hg' hinj (fun x hx => Or.inr hx) hcy
    exact hconv.sameContent hinj htr hPx hPy hcx hcy hfamily hx hy htx

def sampleStart : BlockDag := empty.commit (empty.annotate .hashOnly (genesisBlock .hashOnly 1000))

def sampleSiblings : List (CallEnv × Block) :=
  [(sampleEnv, sampleChild 1001), (sampleEnv, sampleChild 1002)]

theorem withGenesis_sample :
    withGenesis .hashOnly sampleEnv (genesisBlock .hashOnly 1000) = .ok sampleStart :=
  withGenesis_ok_iff.mpr ⟨rfl, insertBlock_ok_iff.mp genesisBlock_rehashed.2.1, rfl⟩

def sampleHashed : List (List UInt8) :=
  runHashed .hashOnly (insertions ((sampleEnv, genesisBlock .hashOnly 1000) :: sampleSiblings)) ++
    runHashed .hashOnly
      (insertions ((sampleEnv, genesisBlock .hashOnly 1000) :: sampleSiblings.reverse))

set_option maxRecDepth 20000 in
theorem sampleSiblings_accepted :
    AllAccepted .hashOnly sampleStart sampleSiblings ∧
      AllAccepted .hashOnly sampleStart sampleSiblings.reverse ∧
      (runFrom .hashOnly sampleStart (insertions sampleSiblings)).store.getAllHashes.toFinset ≠
        (runFrom .hashOnly sampleStart
          (insertions sampleSiblings.reverse)).store.getAllHashes.toFinset ∧
      (runFrom .hashOnly sampleStart (insertions sampleSiblings)).getTips ≠
        (runFrom .hashOnly sampleStart (insertions sampleSiblings.reverse)).getTips ∧
      (runFrom .hashOnly sampleStart (insertions sampleSiblings)).blockCount < 2 ^ 64 ∧
      ∀ x ∈ sampleHashed, ∀ y ∈ sampleHashed, Sha256.hash x = Sha256.hash y → x = y := by
  unfold sampleStart sampleHashed sampleSiblings sampleChild sampleRoot
  rw [Crypto.hashOnly_eq_strict, ← Sha256.Strict.hash_eq]
  decide +kernel

/-- In one order the two nodes converge; with the siblings exchanged they do not. -/
theorem nodes_converged_iff_siblings :
    Converged (runFrom .hashOnly sampleStart (insertions sampleSiblings))
        (runFrom .hashOnly sampleStart (insertions sampleSiblings)) ∧
      ¬ Converged (runFrom .hashOnly sampleStart (insertions sampleSiblings))
        (runFrom .hashOnly sampleStart (insertions sampleSiblings.reverse)) := by
  obtain ⟨hx, hy, -, -, hcount, hinj⟩ := sampleSiblings_accepted
  constructor
  · refine (nodes_converged_iff .hashOnly (genesisBlock .hashOnly 1000) sampleEnv sampleEnv
      sampleStart sampleStart sampleSiblings sampleSiblings withGenesis_sample withGenesis_sample
      (List.Perm.refl _) hx hx).1 ?_
    exact List.forall₂_same.mpr fun x _ => ⟨rfl, rfl, rfl, rfl, rfl, rfl, rfl, rfl, rfl⟩
  · intro hconv
    have hcontent := (nodes_converged_iff .hashOnly (genesisBlock .hashOnly 1000) sampleEnv
      sampleEnv sampleStart sampleStart sampleSiblings sampleSiblings.reverse withGenesis_sample
      withGenesis_sample ((List.reverse_perm sampleSiblings).symm.map Prod.snd) hx hy).2
      (fun x hx y hy => hinj x (List.mem_append.mpr hx) y (List.mem_append.mpr hy))
      hcount (by simp [sampleSiblings, sampleChild, Block.new]) hconv
    have hfirst : (1001 : UInt64) = 1002 := (List.forall₂_cons.mp hcontent).1.timestamp
    exact absurd hfirst (by decide)

/-- Two siblings of the genesis block, accepted in both orders, leave different hashes and tips. -/
theorem nodes_diverge_on_siblings :
    withGenesis .hashOnly sampleEnv (genesisBlock .hashOnly 1000) = .ok sampleStart ∧
      (sampleSiblings.map Prod.snd).Perm (sampleSiblings.reverse.map Prod.snd) ∧
      AllAccepted .hashOnly sampleStart sampleSiblings ∧
      AllAccepted .hashOnly sampleStart sampleSiblings.reverse ∧
      (runFrom .hashOnly sampleStart (insertions sampleSiblings)).store.getAllHashes.toFinset ≠
        (runFrom .hashOnly sampleStart
          (insertions sampleSiblings.reverse)).store.getAllHashes.toFinset ∧
      (runFrom .hashOnly sampleStart (insertions sampleSiblings)).getTips ≠
        (runFrom .hashOnly sampleStart (insertions sampleSiblings.reverse)).getTips := by
  obtain ⟨hx, hy, hhashes, htips, -, -⟩ := sampleSiblings_accepted
  exact ⟨withGenesis_sample, (List.reverse_perm sampleSiblings).symm.map Prod.snd, hx, hy, hhashes,
    htips⟩

end Nodes

end BlockDag

end CytahSpeed
