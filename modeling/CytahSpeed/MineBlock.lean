import CytahSpeed.BlockProducer
import CytahSpeed.Emission

/-!
# Mining

`mine_block` takes a candidate from `create_block` and searches a nonce for it. The candidate has
passed `validate_basic` already, proof of work included, under the nonce that the producer counts
up; so above difficulty zero there is nothing left to search for, or no search at all. A block that
is mined adds its coinbase to the emission counter.
-/

namespace CytahSpeed
open ByteString FiniteMap MachineInt StateManager

/-- What the program uses of the `rayon` crate: `find_any` over `0 .. u64::MAX` gives some number
that passes the test, and nothing only if none does. -/
structure NonceSearch where
  findAny : (UInt64 → Bool) → Option UInt64
  found : ∀ test n, findAny test = some n → n.toNat < u64Max ∧ test n = true
  exhausted : ∀ test, findAny test = none → ∀ n : UInt64, n.toNat < u64Max → test n = false

namespace NonceSearch

def scan (test : UInt64 → Bool) : ℕ → UInt64 → Option UInt64
  | 0, _ => none
  | turns + 1, n => if test n then some n else scan test turns (n + 1)

theorem scan_spec (test : UInt64 → Bool) (turns : ℕ) (n : UInt64)
    (h : n.toNat + turns ≤ u64Max) :
    match scan test turns n with
    | some m => m.toNat < n.toNat + turns ∧ test m = true
    | none => ∀ m : UInt64, n ≤ m → m.toNat < n.toNat + turns → test m = false := by
  induction turns generalizing n with
  | zero =>
    intro m hle hlt
    rw [UInt64.le_iff_toNat_le] at hle
    omega
  | succ turns ih =>
    rw [scan]
    by_cases htest : test n = true
    · rw [if_pos htest]
      exact ⟨by omega, htest⟩
    · have hmax : u64Max = 2 ^ 64 - 1 := rfl
      have hsucc : (n + 1).toNat = n.toNat + 1 := by
        rw [UInt64.toNat_add, UInt64.toNat_one, Nat.mod_eq_of_lt (by omega)]
      have hrest := ih (n + 1) (by omega)
      rw [if_neg htest]
      cases hscan : scan test turns (n + 1) with
      | some m =>
        rw [hscan] at hrest
        exact ⟨by omega, hrest.2⟩
      | none =>
        rw [hscan] at hrest
        intro m hle hlt
        by_cases heq : n = m
        · rw [← heq]
          exact eq_false_of_ne_true htest
        · refine hrest m ?_ (by omega)
          have hne : n.toNat ≠ m.toNat := fun hnat => heq (UInt64.toNat_inj.mp hnat)
          rw [UInt64.le_iff_toNat_le] at hle ⊢
          omega

def least : NonceSearch where
  findAny test := scan test u64Max 0
  found test n h := by
    have hspec := scan_spec test u64Max 0 (by simp)
    rw [h] at hspec
    exact ⟨by simpa using hspec.1, hspec.2⟩
  exhausted test h n hn := by
    have hspec := scan_spec test u64Max 0 (by simp)
    rw [h] at hspec
    exact hspec n (UInt64.zero_le) (by simpa using hn)

end NonceSearch

namespace Block

variable (c : Crypto) (b : Block)

def withNonce (nonce : UInt64) : Block := { b with header := { b.header with nonce } }

def rehash : Block := { b with hash := b.calculateHash c }

def minedReward : UInt64 :=
  match b.transactions.head? with
  | some coinbase =>
    match coinbase.payload with
    | .transfer _ amount => amount
    | _ => 0
  | none => 0

def DistinctTransactions : Prop :=
  (b.transactions.map (·.hash c)).toFinset.card = b.transactions.length

end Block

structure MineEnv extends ProducerEnv where
  search : NonceSearch
  accounts : IterOrder Address Account
  revalidated : ℕ

namespace BlockProducer

variable (c : Crypto) (scale : RewardScale) (env : ProducerEnv) (p : BlockProducer)
  (mempool : TxDagMempool) (dag : BlockDag) (state : StateManager)

def Waits : Prop :=
  (mempool.getReadyTransactions env.pool).length < p.minTransactions ∧
    (mempool.getReadyTransactions env.pool).length > 0 ∧ mempool.size > p.minTransactions

instance : Decidable (p.Waits env mempool) := by
  unfold Waits
  infer_instance

/-- The candidate under the nonce that the producer counts up. -/
def template (difficulty : UInt32) (baseFee : UInt64) : Block :=
  Block.new c (env.tips.iter dag.getTips) env.now
    (p.blockTransactions scale env mempool dag state baseFee) p.nonce difficulty baseFee
    p.producerId (Bytes.zero 32)

def meets (base : Block) (nonce : UInt64) : Bool :=
  Mining.meetsDifficulty ((base.withNonce nonce).calculateHash c) base.header.difficulty

def mineBlock (env : MineEnv) (difficulty : UInt32) (baseFee : UInt64) :
    Except String Block × BlockProducer × StateManager :=
  match p.createBlock c scale env.toProducerEnv mempool dag state difficulty baseFee with
  | (.error e, p) => (.error e, p, state)
  | (.ok base, p) =>
    match env.search.findAny (meets c base) with
    | none => (.error "unable to find valid nonce", p, state)
    | some nonce =>
      let base := (base.withNonce nonce).rehash c
      match base.validateBasic c env.revalidated with
      | .error e => (.error e, p, state)
      | .ok _ => (.ok base, p, state.addEmittedSupply c env.accounts base.minedReward)

section Create
variable {c scale env p mempool dag state} {difficulty : UInt32} {baseFee : UInt64} {block : Block}

theorem createBlock_ok_iff :
    (p.createBlock c scale env mempool dag state difficulty baseFee).1 = .ok block ↔
      ¬ p.Waits env mempool ∧
        block = p.template c scale env mempool dag state difficulty baseFee ∧
        block.validateBasic c env.validated = .ok () := by
  constructor
  · intro h
    refine ⟨?_, createBlock_ok h⟩
    intro hwaits
    unfold Waits at hwaits
    rw [createBlock, if_pos hwaits] at h
    cases h
  · rintro ⟨hwaits, rfl, hvalid⟩
    unfold Waits at hwaits
    unfold template at hvalid ⊢
    simp only [createBlock]
    rw [if_neg hwaits, hvalid]

theorem validateBasic_template_iff {now : ℕ} :
    (p.template c scale env mempool dag state difficulty baseFee).validateBasic c now = .ok () ↔
      (difficulty > 0 → Mining.meetsDifficulty
          (p.template c scale env mempool dag state difficulty baseFee).hash difficulty) ∧
        (p.template c scale env mempool dag state difficulty baseFee).DistinctTransactions c ∧
        env.now.toNat ≤ now + 3600 := by
  rw [Block.validateBasic_ok_iff]
  constructor
  · rintro ⟨-, hwork, -, hdistinct, hclock⟩
    exact ⟨hwork, hdistinct, hclock⟩
  · rintro ⟨hwork, hdistinct, hclock⟩
    exact ⟨rfl, hwork, rfl, hdistinct, hclock⟩

theorem createBlock_of_template {e : String} (hwaits : ¬ p.Waits env mempool)
    (h : (p.template c scale env mempool dag state difficulty baseFee).validateBasic c
      env.validated = .error e) :
    p.createBlock c scale env mempool dag state difficulty baseFee =
      (.error e, { p with nonce := p.nonce + 1 }) := by
  unfold Waits at hwaits
  unfold template at h
  simp only [createBlock]
  rw [if_neg hwaits, h]

end Create

section Mine
variable {c scale p mempool dag state} {env : MineEnv} {difficulty : UInt32} {baseFee : UInt64}
  {block : Block}

/-- A call fails and leaves the state, or it returns a candidate under the nonce that was found,
validated once more, and adds its coinbase to the counter. -/
theorem mineBlock_cases (c : Crypto) (scale : RewardScale) (p : BlockProducer)
    (mempool : TxDagMempool) (dag : BlockDag) (state : StateManager) (env : MineEnv)
    (difficulty : UInt32) (baseFee : UInt64) :
    (∃ e, (p.mineBlock c scale mempool dag state env difficulty baseFee).1 = .error e ∧
        (p.mineBlock c scale mempool dag state env difficulty baseFee).2.2 = state) ∨
      ∃ base nonce,
        (p.createBlock c scale env.toProducerEnv mempool dag state difficulty baseFee).1 =
            .ok base ∧
          env.search.findAny (meets c base) = some nonce ∧
          ((base.withNonce nonce).rehash c).validateBasic c env.revalidated = .ok () ∧
          (p.mineBlock c scale mempool dag state env difficulty baseFee).1 =
            .ok ((base.withNonce nonce).rehash c) ∧
          (p.mineBlock c scale mempool dag state env difficulty baseFee).2.2 =
            state.addEmittedSupply c env.accounts base.minedReward := by
  unfold mineBlock
  rcases p.createBlock c scale env.toProducerEnv mempool dag state difficulty baseFee with
    ⟨e | base, p'⟩
  · exact Or.inl ⟨e, rfl, rfl⟩
  · dsimp only
    cases hsearch : env.search.findAny (meets c base) with
    | none => exact Or.inl ⟨_, rfl, rfl⟩
    | some nonce =>
      dsimp only
      cases hvalid : ((base.withNonce nonce).rehash c).validateBasic c env.revalidated with
      | error e => exact Or.inl ⟨e, rfl, rfl⟩
      | ok _ => exact Or.inr ⟨base, nonce, rfl, hsearch, hvalid, rfl, rfl⟩

theorem mineBlock_of_createBlock {base : Block}
    (hcreate : (p.createBlock c scale env.toProducerEnv mempool dag state difficulty
      baseFee).1 = .ok base)
    (hnonce : ∃ n : UInt64, n.toNat < u64Max ∧ meets c base n = true)
    (hclock : base.header.timestamp.toNat ≤ env.revalidated + 3600) :
    ∃ nonce, meets c base nonce = true ∧
      (p.mineBlock c scale mempool dag state env difficulty baseFee).1 =
        .ok ((base.withNonce nonce).rehash c) ∧
      ((base.withNonce nonce).rehash c).validateBasic c env.revalidated = .ok () := by
  obtain ⟨-, hvalid⟩ := createBlock_ok hcreate
  obtain ⟨-, -, hreward, hdistinct, -⟩ := Block.validateBasic_ok_iff.mp hvalid
  cases hsearch : env.search.findAny (meets c base) with
  | none =>
    obtain ⟨n, hn, htest⟩ := hnonce
    have hfalse := env.search.exhausted _ hsearch n hn
    exact absurd (htest.symm.trans hfalse) (by decide)
  | some nonce =>
    have htest := (env.search.found _ nonce hsearch).2
    have hagain : ((base.withNonce nonce).rehash c).validateBasic c env.revalidated = .ok () :=
      Block.validateBasic_ok_iff.mpr ⟨rfl, fun _ => htest, hreward, hdistinct, hclock⟩
    refine ⟨nonce, htest, ?_, hagain⟩
    have hpair : p.createBlock c scale env.toProducerEnv mempool dag state difficulty baseFee =
        (.ok base, (p.createBlock c scale env.toProducerEnv mempool dag state difficulty
          baseFee).2) := Prod.ext hcreate rfl
    unfold mineBlock
    rw [hpair]
    simp only [hsearch, hagain]

theorem error_mineBlock_of_template {e : String} (hwaits : ¬ p.Waits env.toProducerEnv mempool)
    (h : (p.template c scale env.toProducerEnv mempool dag state difficulty baseFee).validateBasic c
      env.validated = .error e) :
    (p.mineBlock c scale mempool dag state env difficulty baseFee).1 = .error e := by
  unfold mineBlock
  rw [createBlock_of_template hwaits h]

/-- Where some nonce gives the template a hash that meets the difficulty, `mine_block` returns a
valid block exactly when the producer does not wait, the template meets the difficulty under the
producer's own nonce or there is none to meet, its transactions differ, and the clock does not fall
back by more than an hour. -/
theorem mineBlock_succeeds_iff (c : Crypto) (scale : RewardScale) (p : BlockProducer)
    (mempool : TxDagMempool) (dag : BlockDag) (state : StateManager) (env : MineEnv)
    (difficulty : UInt32) (baseFee : UInt64)
    (hnonce : ∃ n : UInt64, n.toNat < u64Max ∧
      meets c (p.template c scale env.toProducerEnv mempool dag state difficulty baseFee) n) :
    (∃ block, (p.mineBlock c scale mempool dag state env difficulty baseFee).1 = .ok block ∧
        block.validateBasic c env.revalidated = .ok () ∧
        Mining.meetsDifficulty block.hash difficulty = true) ↔
      ¬ p.Waits env.toProducerEnv mempool ∧
        (difficulty = 0 ∨ Mining.meetsDifficulty (p.template c scale env.toProducerEnv mempool dag
          state difficulty baseFee).hash difficulty = true) ∧
        (p.template c scale env.toProducerEnv mempool dag state difficulty
          baseFee).DistinctTransactions c ∧
        env.now.toNat ≤ env.validated + 3600 ∧ env.now.toNat ≤ env.revalidated + 3600 := by
  constructor
  · rintro ⟨block, hmine, hvalid, -⟩
    rcases mineBlock_cases c scale p mempool dag state env difficulty baseFee with
      ⟨e, he, -⟩ | ⟨base, nonce, hcreate, -, -, hok, -⟩
    · exact absurd (he.symm.trans hmine) (by simp)
    obtain rfl := Except.ok.inj (hok.symm.trans hmine)
    obtain ⟨hwaits, rfl, hbase⟩ := createBlock_ok_iff.mp hcreate
    obtain ⟨hwork, hdistinct, hclock⟩ := validateBasic_template_iff.mp hbase
    refine ⟨hwaits, ?_, hdistinct, hclock, (Block.validateBasic_ok_iff.mp hvalid).2.2.2.2⟩
    by_cases hzero : difficulty = 0
    · exact Or.inl hzero
    · exact Or.inr (hwork (UInt32.pos_iff_ne_zero.mpr hzero))
  · rintro ⟨hwaits, hwork, hdistinct, hclock, hclock'⟩
    have hbase := validateBasic_template_iff.mpr ⟨fun hpos => hwork.resolve_left
      (UInt32.pos_iff_ne_zero.mp hpos), hdistinct, hclock⟩
    have hcreate := createBlock_ok_iff.mpr ⟨hwaits, rfl, hbase⟩
    obtain ⟨nonce, htest, hmine, hvalid⟩ := mineBlock_of_createBlock hcreate hnonce hclock'
    exact ⟨_, hmine, hvalid, htest⟩

end Mine

section Sample

def sampleAt (nonce : UInt64) : BlockProducer := ⟨Bytes.fill 20 1, nonce, 0, 10⟩

def sampleMineEnv (search : NonceSearch) : MineEnv :=
  ⟨⟨.sorted, .sorted, 1000, 1000⟩, search, .sorted, 1000⟩

def sampleFactor : RewardScale := fun _ _ _ => 100

def sampleTemplate (nonce : UInt64) : Block :=
  (sampleAt nonce).template .hashOnly sampleFactor (sampleMineEnv .least).toProducerEnv (.new 10 1)
    .empty (.new .hashOnly .sorted) 8 0

set_option maxRecDepth 20000 in
theorem sampleTemplate_evaluated :
    meets .hashOnly (sampleTemplate 0) 581 = true ∧
      meets .hashOnly (sampleTemplate 581) 581 = true ∧
      Mining.meetsDifficulty (sampleTemplate 0).hash 8 = false ∧
      Mining.meetsDifficulty (sampleTemplate 581).hash 8 = true ∧
      ((sampleTemplate 581).transactions.map (·.hash .hashOnly)).toFinset.card =
        (sampleTemplate 581).transactions.length := by
  unfold sampleTemplate
  rw [Crypto.hashOnly_eq_strict]
  decide +kernel

theorem mineBlock_succeeds_sample :
    ∃ block, ((sampleAt 581).mineBlock .hashOnly sampleFactor (.new 10 1) .empty
        (.new .hashOnly .sorted) (sampleMineEnv .least) 8 0).1 = .ok block ∧
      block.validateBasic .hashOnly 1000 = .ok () ∧
      Mining.meetsDifficulty block.hash 8 = true := by
  obtain ⟨-, hnonce, -, hwork, hdistinct⟩ := sampleTemplate_evaluated
  have hwaits : ¬ (sampleAt 581).Waits (sampleMineEnv .least).toProducerEnv (.new 10 1) := by
    decide
  exact (mineBlock_succeeds_iff .hashOnly sampleFactor (sampleAt 581) (.new 10 1) .empty
    (.new .hashOnly .sorted) (sampleMineEnv .least) 8 0 ⟨581, by decide, hnonce⟩).mpr
      ⟨hwaits, Or.inr hwork, hdistinct, by decide, by decide⟩

/-- At nonce zero the template misses the difficulty that nonce 581 would meet, and the call fails
before any search. -/
theorem sampleAt_zero_not_mined :
    meets .hashOnly (sampleTemplate 0) 581 = true ∧
      ((sampleAt 0).mineBlock .hashOnly sampleFactor (.new 10 1) .empty (.new .hashOnly .sorted)
        (sampleMineEnv .least) 8 0).1 = .error "Block does not satisfy PoW difficulty" := by
  obtain ⟨hnonce, -, hwork, -⟩ := sampleTemplate_evaluated
  refine ⟨hnonce, ?_⟩
  have hinvalid : (sampleTemplate 0).validateBasic .hashOnly 1000 =
      .error "Block does not satisfy PoW difficulty" := by
    unfold Block.validateBasic
    rw [if_neg (fun h => h rfl),
      if_pos ⟨by decide, fun h => absurd (hwork.symm.trans h) (by decide)⟩]
  exact error_mineBlock_of_template (by decide) hinvalid

end Sample

end BlockProducer

end CytahSpeed
