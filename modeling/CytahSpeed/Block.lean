import CytahSpeed.MachineInt
import CytahSpeed.Transaction
import Mathlib.Data.Finset.Card

/-!
# Blocks and their proof-of-work check

The block type, the byte string that `calculate_hash` feeds to SHA-256, and `validate_basic`.
Equal preimages agree in every fixed-length field: those fields stand at the end of the string,
so their positions do not depend on how many parents and transactions precede them.
-/

namespace CytahSpeed
open ByteString

namespace Mining

def ctsMaxSupply : ℕ := 600000000

def ctsGenesisAllocation : ℕ := 100000000

def ctsMiningSupply : ℕ := ctsMaxSupply - ctsGenesisAllocation

def ctsInitialReward : ℕ := 100

def ctsMinimumReward : ℕ := 1

/-- `calculate_expected_block_reward` at no emission, no progress and no timestamps: the initial
reward times `1 / (1 + n / 1000)`, truncated. The double-precision product truncates to the same
integer for every count. -/
def calculateReward (txCount : ℕ) : UInt64 :=
  UInt64.ofNat (min (max (ctsInitialReward * 1000 / (1000 + txCount)) ctsMinimumReward)
    ctsMiningSupply)

/-- Leading zero bits of the hash; a difficulty of zero asks for nothing. -/
def meetsDifficulty (hash : BlockHash) (difficulty : UInt32) : Bool :=
  if difficulty = 0 then true
  else
    let zeroBytes := (difficulty / 8).toNat
    if (hash.toList.take zeroBytes).any (· ≠ 0) then false
    else
      let remBits := (difficulty % 8).toUInt8
      if remBits > 0 then
        let mask : UInt8 := 0xFF <<< (8 - remBits)
        match hash.toList[zeroBytes]? with
        | none => false
        | some b => b &&& mask = 0
      else true

end Mining

structure BlockHeader where
  parentHashes : List BlockHash
  timestamp : UInt64
  nonce : UInt64
  difficulty : UInt32
  baseFee : UInt64
  stateRoot : Hash
  version : UInt32
  blueScore : UInt64
  selectedParent : Option BlockHash
  chainHeight : UInt64
  topoIndex : UInt64
  deriving DecidableEq

structure Block where
  hash : BlockHash
  header : BlockHeader
  transactions : List Transaction
  producer : Address
  reward : UInt64
  height : UInt64
  deriving DecidableEq

namespace Block

variable (c : Crypto) (b : Block)

def hashedLinks : List Hash := b.header.parentHashes ++ b.transactions.map (·.hash c)

/-- The fixed-length fields fed after the links. An absent selected parent is fed as zeros. -/
def hashedFields : List (List UInt8) :=
  [le64 b.header.timestamp, le64 b.header.nonce, le32 b.header.difficulty, le64 b.header.baseFee,
    b.header.stateRoot.toList, le32 b.header.version, le64 b.header.blueScore,
    le64 b.header.chainHeight, le64 b.header.topoIndex,
    (b.header.selectedParent.getD (Bytes.zero 32)).toList, b.producer.toList]

def preimage : List UInt8 :=
  (b.hashedLinks c).flatMap List.Vector.toList ++ b.hashedFields.flatten

def calculateHash : BlockHash := c.sha256 (b.preimage c)

def new (parentHashes : List BlockHash) (timestamp : UInt64) (transactions : List Transaction)
    (nonce : UInt64) (difficulty : UInt32) (baseFee : UInt64) (producer : Address)
    (stateRoot : Hash) : Block :=
  let header : BlockHeader :=
    { parentHashes, timestamp, nonce, difficulty, baseFee, stateRoot, version := 1,
      blueScore := 0, selectedParent := none, chainHeight := 0, topoIndex := 0 }
  let block : Block :=
    { hash := Bytes.zero 32, header, transactions, producer,
      reward := Mining.calculateReward transactions.length, height := 0 }
  { block with hash := block.calculateHash c }

/-- `validate_basic` at the system time `now`, in seconds. -/
def validateBasic (now : ℕ) : Except String Unit :=
  if b.hash ≠ b.calculateHash c then .error "Block hash mismatch"
  else if b.header.difficulty > 0 ∧ ¬ Mining.meetsDifficulty b.hash b.header.difficulty then
    .error "Block does not satisfy PoW difficulty"
  else if b.reward ≠ Mining.calculateReward b.transactions.length then
    .error ("Unexpected block reward: " ++ toString b.reward ++ " vs " ++
      toString (Mining.calculateReward b.transactions.length))
  else if (b.transactions.map (·.hash c)).toFinset.card ≠ b.transactions.length then
    .error "Duplicate transactions found"
  else if b.header.timestamp.toNat > now + 3600 then
    .error "Block timestamp too far in future"
  else .ok ()

def setConsensusMetadata (selectedParent : Option BlockHash)
    (blueScore chainHeight topoIndex : UInt64) : Block :=
  let block : Block :=
    { b with
      header := { b.header with selectedParent, blueScore, chainHeight, topoIndex }
      height := chainHeight }
  { block with hash := block.calculateHash c }

def isGenesis : Bool := b.header.parentHashes.isEmpty

/-- The fields of a block that its hash covers and `set_consensus_metadata` does not rewrite. -/
structure SameContent (b b' : Block) : Prop where
  parentHashes : b.header.parentHashes = b'.header.parentHashes
  transactions : b.transactions.map (·.hash c) = b'.transactions.map (·.hash c)
  timestamp : b.header.timestamp = b'.header.timestamp
  nonce : b.header.nonce = b'.header.nonce
  difficulty : b.header.difficulty = b'.header.difficulty
  baseFee : b.header.baseFee = b'.header.baseFee
  stateRoot : b.header.stateRoot = b'.header.stateRoot
  version : b.header.version = b'.header.version
  producer : b.producer = b'.producer

/-- Equality of the four rewritten fields as the hash sees them. -/
structure SameMetadata (b b' : Block) : Prop where
  blueScore : b.header.blueScore = b'.header.blueScore
  chainHeight : b.header.chainHeight = b'.header.chainHeight
  topoIndex : b.header.topoIndex = b'.header.topoIndex
  selectedParent : b.header.selectedParent.getD (Bytes.zero 32) =
    b'.header.selectedParent.getD (Bytes.zero 32)

variable {c} {b} {b' : Block}

theorem length_flatten_hashedFields (b : Block) : b.hashedFields.flatten.length = 140 := by
  simp [hashedFields]

theorem preimage_eq_iff :
    b.preimage c = b'.preimage c ↔
      b.hashedLinks c = b'.hashedLinks c ∧ b.hashedFields = b'.hashedFields := by
  constructor
  · intro h
    obtain ⟨hlinks, hfields⟩ := List.append_inj' h
      ((length_flatten_hashedFields b).trans (length_flatten_hashedFields b').symm)
    refine ⟨flatMap_toList_injective (by decide) hlinks, ?_⟩
    exact List.eq_iff_flatten_eq.mpr ⟨hfields, by simp [hashedFields]⟩
  · rintro ⟨hlinks, hfields⟩
    simp only [preimage, hlinks, hfields]

theorem hashedFields_eq_iff :
    b.hashedFields = b'.hashedFields ↔
      (b.header.timestamp = b'.header.timestamp ∧ b.header.nonce = b'.header.nonce ∧
        b.header.difficulty = b'.header.difficulty ∧ b.header.baseFee = b'.header.baseFee ∧
        b.header.stateRoot = b'.header.stateRoot ∧ b.header.version = b'.header.version ∧
        b.producer = b'.producer) ∧ SameMetadata b b' := by
  constructor
  · intro h
    simp only [hashedFields, List.cons.injEq, le64_injective.eq_iff, le32_injective.eq_iff,
      List.Vector.toList_injective.eq_iff] at h
    obtain ⟨ht, hn, hd, hf, hr, hv, hb, hc, hi, hs, hp, -⟩ := h
    exact ⟨⟨ht, hn, hd, hf, hr, hv, hp⟩, ⟨hb, hc, hi, hs⟩⟩
  · rintro ⟨⟨ht, hn, hd, hf, hr, hv, hp⟩, ⟨hb, hc, hi, hs⟩⟩
    simp only [hashedFields, ht, hn, hd, hf, hr, hv, hp, hb, hc, hi, hs]

theorem SameContent.preimage_eq_iff (h : SameContent c b b') :
    b.preimage c = b'.preimage c ↔ SameMetadata b b' := by
  rw [Block.preimage_eq_iff, hashedFields_eq_iff]
  constructor
  · exact fun hh => hh.2.2
  · intro hm
    refine ⟨?_, ⟨h.timestamp, h.nonce, h.difficulty, h.baseFee, h.stateRoot, h.version,
      h.producer⟩, hm⟩
    rw [hashedLinks, hashedLinks, h.parentHashes, h.transactions]

theorem SameContent.symm (h : SameContent c b b') : SameContent c b' b :=
  ⟨h.parentHashes.symm, h.transactions.symm, h.timestamp.symm, h.nonce.symm, h.difficulty.symm,
    h.baseFee.symm, h.stateRoot.symm, h.version.symm, h.producer.symm⟩

theorem SameContent.trans {b'' : Block} (h : SameContent c b b') (h' : SameContent c b' b'') :
    SameContent c b b'' :=
  ⟨h.parentHashes.trans h'.parentHashes, h.transactions.trans h'.transactions,
    h.timestamp.trans h'.timestamp, h.nonce.trans h'.nonce, h.difficulty.trans h'.difficulty,
    h.baseFee.trans h'.baseFee, h.stateRoot.trans h'.stateRoot, h.version.trans h'.version,
    h.producer.trans h'.producer⟩

theorem topoIndex_eq_of_preimage_eq (h : b.preimage c = b'.preimage c) :
    b.header.topoIndex = b'.header.topoIndex :=
  (hashedFields_eq_iff.mp (Block.preimage_eq_iff.mp h).2).2.topoIndex

section Metadata
variable (c b) (sp : Option BlockHash) (bs ch ti : UInt64)

@[simp] theorem hash_setConsensusMetadata :
    (b.setConsensusMetadata c sp bs ch ti).hash =
      (b.setConsensusMetadata c sp bs ch ti).calculateHash c := rfl

@[simp] theorem header_setConsensusMetadata :
    (b.setConsensusMetadata c sp bs ch ti).header =
      { b.header with
        selectedParent := sp, blueScore := bs, chainHeight := ch, topoIndex := ti } := rfl

@[simp] theorem transactions_setConsensusMetadata :
    (b.setConsensusMetadata c sp bs ch ti).transactions = b.transactions := rfl

@[simp] theorem producer_setConsensusMetadata :
    (b.setConsensusMetadata c sp bs ch ti).producer = b.producer := rfl

theorem sameContent_setConsensusMetadata :
    SameContent c b (b.setConsensusMetadata c sp bs ch ti) :=
  ⟨rfl, rfl, rfl, rfl, rfl, rfl, rfl, rfl, rfl⟩

end Metadata

theorem validateBasic_ok_iff {now : ℕ} :
    b.validateBasic c now = .ok () ↔
      b.hash = b.calculateHash c ∧
      (b.header.difficulty > 0 → Mining.meetsDifficulty b.hash b.header.difficulty) ∧
      b.reward = Mining.calculateReward b.transactions.length ∧
      (b.transactions.map (·.hash c)).toFinset.card = b.transactions.length ∧
      b.header.timestamp.toNat ≤ now + 3600 := by
  unfold validateBasic
  split_ifs with h₁ h₂ h₃ h₄ h₅
  · simp [h₁]
  · simp only [false_iff]
    exact fun h => h₂.2 (h.2.1 h₂.1)
  · simp [h₃]
  · simp [h₄]
  · simp only [false_iff]
    exact fun h => absurd h.2.2.2.2 (not_le_of_gt h₅)
  · simp only [ne_eq, not_not, not_and, gt_iff_lt, not_lt] at h₁ h₂ h₃ h₄ h₅
    simp only [true_iff]
    exact ⟨h₁, h₂, h₃, h₄, h₅⟩

end Block

end CytahSpeed
