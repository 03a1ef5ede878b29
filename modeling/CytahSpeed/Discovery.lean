import CytahSpeed.MachineInt
import CytahSpeed.PeerManager

/-!
# Reputation in peer discovery

A score lives in the peer table, and two sets list the peers it bans and the peers it trusts.
`update_peer_reputation` refreshes both sets, the two calls that record a connection write only
the score. Along a run the sets agree with the scores exactly when no recorded connection takes a
score over the line at 500 or at −500 and no delta leaves the range of an `i32`.
-/

namespace CytahSpeed
open ByteString FiniteMap StepRun

structure ReputationScore where
  value : Int32
  deriving DecidableEq

namespace ReputationScore

def maxScore : Int32 := 1000
def minScore : Int32 := -1000
def defaultScore : Int32 := 0

def default : ReputationScore := ⟨defaultScore⟩

variable (s : ReputationScore)

/-- Sums and differences wrap around. -/
def increase (amount : Int32) : ReputationScore := ⟨min (s.value + amount) maxScore⟩

def decrease (amount : Int32) : ReputationScore := ⟨max (s.value - amount) minScore⟩

def isBanned : Bool := s.value ≤ -500

def isTrusted : Bool := 500 ≤ s.value

def increaseOverflows (amount : Int32) : Bool :=
  BitVec.saddOverflow s.value.toBitVec amount.toBitVec

def decreaseOverflows (amount : Int32) : Bool :=
  BitVec.ssubOverflow s.value.toBitVec amount.toBitVec

def score : ℤ := s.value.toInt

def InRange : Prop := -1000 ≤ s.score ∧ s.score ≤ 1000

variable {s} {amount : Int32}

theorem inRange_default : default.InRange := by
  unfold InRange
  decide

theorem increaseOverflows_eq_false : s.increaseOverflows amount = false ↔
    -2 ^ 31 ≤ s.score + amount.toInt ∧ s.score + amount.toInt < 2 ^ 31 := by
  simp only [increaseOverflows, BitVec.saddOverflow, score, Int32.toInt, Bool.or_eq_false_iff,
    decide_eq_false_iff_not]
  omega

theorem decreaseOverflows_eq_false : s.decreaseOverflows amount = false ↔
    -2 ^ 31 ≤ s.score - amount.toInt ∧ s.score - amount.toInt < 2 ^ 31 := by
  simp only [decreaseOverflows, BitVec.ssubOverflow, score, Int32.toInt, Bool.or_eq_false_iff,
    decide_eq_false_iff_not]
  omega

theorem score_increase (h : s.increaseOverflows amount = false) :
    (s.increase amount).score = min (s.score + amount.toInt) 1000 := by
  rw [increaseOverflows_eq_false] at h
  have hsum : (s.value + amount).toInt = s.score + amount.toInt := by
    rw [Int32.toInt_add]
    change (s.score + amount.toInt).bmod (2 ^ 32) = _
    exact Int.bmod_eq_of_le (by omega) (by omega)
  change (min (s.value + amount) maxScore).toInt = _
  rw [MachineInt.toInt_min, hsum]
  rfl

theorem score_decrease (h : s.decreaseOverflows amount = false) :
    (s.decrease amount).score = max (s.score - amount.toInt) (-1000) := by
  rw [decreaseOverflows_eq_false] at h
  have hdiff : (s.value - amount).toInt = s.score - amount.toInt := by
    rw [Int32.toInt_sub]
    change (s.score - amount.toInt).bmod (2 ^ 32) = _
    exact Int.bmod_eq_of_le (by omega) (by omega)
  change (max (s.value - amount) minScore).toInt = _
  rw [MachineInt.toInt_max, hdiff]
  rfl

theorem isBanned_iff : s.isBanned = true ↔ s.score ≤ -500 := by
  rw [isBanned, decide_eq_true_iff, Int32.le_iff_toInt_le]
  rfl

theorem isTrusted_iff : s.isTrusted = true ↔ 500 ≤ s.score := by
  rw [isTrusted, decide_eq_true_iff, Int32.le_iff_toInt_le]
  rfl

theorem increase_ten (h : s.InRange) : s.increaseOverflows 10 = false ∧
    (s.increase 10).score = min (s.score + 10) 1000 := by
  have hten : (10 : Int32).toInt = 10 := by decide
  have hfits : s.increaseOverflows 10 = false := by
    rw [increaseOverflows_eq_false, hten]
    unfold InRange at h
    omega
  have hscore := score_increase hfits
  rw [hten] at hscore
  exact ⟨hfits, hscore⟩

theorem decrease_five (h : s.InRange) : s.decreaseOverflows 5 = false ∧
    (s.decrease 5).score = max (s.score - 5) (-1000) := by
  have hfive : (5 : Int32).toInt = 5 := by decide
  have hfits : s.decreaseOverflows 5 = false := by
    rw [decreaseOverflows_eq_false, hfive]
    unfold InRange at h
    omega
  have hscore := score_decrease hfits
  rw [hfive] at hscore
  exact ⟨hfits, hscore⟩

end ReputationScore

structure PeerData where
  peerId : PeerId
  addresses : List String
  reputation : ReputationScore
  lastSeen : ℕ
  connected : Bool
  connectionAttempts : UInt32
  successfulConnections : UInt32
  firstDiscovered : ℕ
  deriving DecidableEq

namespace PeerData

def new (now : ℕ) (peerId : PeerId) (address : String) : PeerData where
  peerId := peerId
  addresses := [address]
  reputation := .default
  lastSeen := now
  connected := false
  connectionAttempts := 0
  successfulConnections := 0
  firstDiscovered := now

variable (data : PeerData)

def recordConnectionAttempt (success : Bool) : PeerData :=
  let data := { data with connectionAttempts := data.connectionAttempts + 1 }
  if success then
    { data with
      successfulConnections := data.successfulConnections + 1
      reputation := data.reputation.increase 10 }
  else { data with reputation := data.reputation.decrease 5 }

end PeerData

structure DiscoveryManager where
  peers : Map PeerId PeerData
  trustedPeers : Finset PeerId
  bannedPeers : Finset PeerId

namespace DiscoveryManager

def new : DiscoveryManager := ⟨∅, ∅, ∅⟩

variable (m : DiscoveryManager)

/-- The address of a new peer is pushed twice. -/
def addPeer (now : ℕ) (id : PeerId) (address : String) : DiscoveryManager :=
  let data := (m.peers.lookup id).getD (PeerData.new now id address)
  { m with peers := m.peers.insert id { data with addresses := data.addresses ++ [address] } }

def adjust (reputation : ReputationScore) (delta : Int32) : ReputationScore :=
  if 0 < delta then reputation.increase delta else reputation.decrease (-delta)

def updatePeerReputation (id : PeerId) (delta : Int32) : DiscoveryManager :=
  match m.peers.lookup id with
  | some data =>
    let reputation := adjust data.reputation delta
    { peers := m.peers.insert id { data with reputation }
      trustedPeers :=
        if reputation.isTrusted then insert id m.trustedPeers else m.trustedPeers.erase id
      bannedPeers :=
        if reputation.isBanned then insert id m.bannedPeers else m.bannedPeers.erase id }
  | none => m

def recordConnectionSuccess (now : ℕ) (id : PeerId) : DiscoveryManager :=
  match m.peers.lookup id with
  | some data =>
    let data := data.recordConnectionAttempt true
    { m with peers := m.peers.insert id { data with connected := true, lastSeen := now } }
  | none => m

def recordConnectionFailure (id : PeerId) : DiscoveryManager :=
  match m.peers.lookup id with
  | some data => { m with peers := m.peers.insert id (data.recordConnectionAttempt false) }
  | none => m

def getTrustedPeers (order : SetOrder PeerId) : List PeerId := order.iter m.trustedPeers

def getPeerReputation (id : PeerId) : ReputationScore :=
  ((m.peers.lookup id).map (·.reputation)).getD .default

def isPeerBanned (id : PeerId) : Bool := id ∈ m.bannedPeers

/-- Seven days in nanoseconds. -/
def staleAge : ℕ := 7 * 24 * 3600 * 1000000000

def shouldKeep (now : ℕ) (data : PeerData) : Bool :=
  now < data.firstDiscovered + staleAge || 0 < data.successfulConnections ||
    data.reputation.isTrusted

def isStale (now : ℕ) (id : PeerId) : Bool :=
  (m.peers.lookup id).any fun data => ! shouldKeep now data

def cleanupStalePeers (now : ℕ) (order : IterOrder PeerId PeerData) : DiscoveryManager where
  peers := retain (fun _ data => if shouldKeep now data then some data else none) order m.peers
  trustedPeers := m.trustedPeers.filter fun id => ! m.isStale now id
  bannedPeers := m.bannedPeers.filter fun id => ! m.isStale now id

inductive Call
  | addPeer (now : ℕ) (id : PeerId) (address : String)
  | updatePeerReputation (id : PeerId) (delta : Int32)
  | recordConnectionSuccess (now : ℕ) (id : PeerId)
  | recordConnectionFailure (id : PeerId)
  | cleanupStalePeers (now : ℕ) (order : IterOrder PeerId PeerData)

def exec : Call → DiscoveryManager
  | .addPeer now id address => m.addPeer now id address
  | .updatePeerReputation id delta => m.updatePeerReputation id delta
  | .recordConnectionSuccess now id => m.recordConnectionSuccess now id
  | .recordConnectionFailure id => m.recordConnectionFailure id
  | .cleanupStalePeers now order => m.cleanupStalePeers now order

/-- An operation on the score of the peer leaves the range of an `i32`. -/
def Overflows (m : DiscoveryManager) : Call → Prop
  | .updatePeerReputation id delta => ∃ data, m.peers.lookup id = some data ∧
      if 0 < delta then data.reputation.increaseOverflows delta
      else BitVec.negOverflow delta.toBitVec || data.reputation.decreaseOverflows (-delta)
  | .recordConnectionSuccess _ id => ∃ data, m.peers.lookup id = some data ∧
      data.reputation.increaseOverflows 10
  | .recordConnectionFailure id => ∃ data, m.peers.lookup id = some data ∧
      data.reputation.decreaseOverflows 5
  | _ => False

/-- The scores are in range, and each set lists the peers that their score puts there. -/
structure Consistent : Prop where
  range : ∀ id, (m.getPeerReputation id).InRange
  banned : ∀ id, m.isPeerBanned id = (m.getPeerReputation id).isBanned
  trusted : ∀ order id, id ∈ m.getTrustedPeers order ↔ (m.getPeerReputation id).isTrusted

/-- A recorded success takes this score over a line. -/
def CrossesUp (s : ℤ) : Prop := (490 ≤ s ∧ s < 500) ∨ (-510 < s ∧ s ≤ -500)

/-- A recorded failure takes this score over a line. -/
def CrossesDown (s : ℤ) : Prop := (500 ≤ s ∧ s < 505) ∨ (-500 < s ∧ s ≤ -495)

/-- The delta has a negative, and the score has room for it. -/
def DeltaFits (s delta : ℤ) : Prop :=
  -2 ^ 31 < delta ∧ -2 ^ 31 ≤ s + delta ∧ s + delta < 2 ^ 31

def KeepsSides (m : DiscoveryManager) : Call → Prop
  | .updatePeerReputation id delta =>
    id ∈ m.peers → DeltaFits (m.getPeerReputation id).score delta.toInt
  | .recordConnectionSuccess _ id => id ∈ m.peers → ¬ CrossesUp (m.getPeerReputation id).score
  | .recordConnectionFailure id => id ∈ m.peers → ¬ CrossesDown (m.getPeerReputation id).score
  | _ => True

variable {m} {id : PeerId} {data : PeerData}

theorem getPeerReputation_of_lookup (h : m.peers.lookup id = some data) :
    m.getPeerReputation id = data.reputation := by
  rw [getPeerReputation, h, Option.map_some, Option.getD_some]

theorem getPeerReputation_of_none (h : m.peers.lookup id = none) :
    m.getPeerReputation id = .default := by
  rw [getPeerReputation, h, Option.map_none, Option.getD_none]

theorem getPeerReputation_insert (trusted banned : Finset PeerId) (k : PeerId) :
    (mk (m.peers.insert id data) trusted banned).getPeerReputation k =
      if k = id then data.reputation else m.getPeerReputation k := by
  unfold getPeerReputation
  rw [lookup_insert_eq_ite]
  by_cases hk : k = id
  · rw [if_pos hk, if_pos hk, Option.map_some, Option.getD_some]
  · rw [if_neg hk, if_neg hk]

theorem mem_getTrustedPeers (order : SetOrder PeerId) :
    id ∈ m.getTrustedPeers order ↔ id ∈ m.trustedPeers := by
  rw [getTrustedPeers, ← Multiset.mem_coe, order.coe_iter, Finset.mem_val]

theorem consistent_iff : m.Consistent ↔ ∀ id, (m.getPeerReputation id).InRange ∧
    (id ∈ m.bannedPeers ↔ (m.getPeerReputation id).isBanned) ∧
    (id ∈ m.trustedPeers ↔ (m.getPeerReputation id).isTrusted) := by
  have hmem : ∀ id, m.isPeerBanned id = (m.getPeerReputation id).isBanned ↔
      (id ∈ m.bannedPeers ↔ (m.getPeerReputation id).isBanned) := by
    intro id
    rw [Bool.eq_iff_iff, isPeerBanned, decide_eq_true_iff]
  constructor
  · intro h id
    exact ⟨h.range id, (hmem id).mp (h.banned id),
      (mem_getTrustedPeers (@SetOrder.sorted PeerId lexOrder)).symm.trans (h.trusted _ id)⟩
  · intro h
    exact ⟨fun id => (h id).1, fun id => (hmem id).mpr (h id).2.1,
      fun order id => (mem_getTrustedPeers order).trans (h id).2.2⟩

theorem consistent_write_iff (hm : m.Consistent) (h : m.peers.lookup id = some data)
    (data' : PeerData) :
    (mk (m.peers.insert id data') m.trustedPeers m.bannedPeers).Consistent ↔
      data'.reputation.InRange ∧ (data.reputation.isBanned ↔ data'.reputation.isBanned) ∧
        (data.reputation.isTrusted ↔ data'.reputation.isTrusted) := by
  rw [consistent_iff] at hm ⊢
  have hid := hm id
  rw [getPeerReputation_of_lookup h] at hid
  constructor
  · intro hafter
    have hafter := hafter id
    rw [getPeerReputation_insert, if_pos rfl] at hafter
    exact ⟨hafter.1, hid.2.1.symm.trans hafter.2.1, hid.2.2.symm.trans hafter.2.2⟩
  · intro hsides k
    rw [getPeerReputation_insert]
    by_cases hk : k = id
    · subst hk
      rw [if_pos rfl]
      exact ⟨hsides.1, hid.2.1.trans hsides.2.1, hid.2.2.trans hsides.2.2⟩
    · rw [if_neg hk]
      exact hm k

theorem success_iff (hm : m.Consistent) (now : ℕ) :
    ¬ m.Overflows (.recordConnectionSuccess now id) ∧
        (m.recordConnectionSuccess now id).Consistent ↔
      m.KeepsSides (.recordConnectionSuccess now id) := by
  cases h : m.peers.lookup id with
  | none =>
    have hmem : id ∉ m.peers := Finmap.lookup_eq_none.mp h
    simp [Overflows, recordConnectionSuccess, KeepsSides, h, hm, hmem]
  | some data =>
    have hmem : id ∈ m.peers := Finmap.mem_iff.mpr ⟨data, h⟩
    have hrange := hm.range id
    rw [getPeerReputation_of_lookup h] at hrange
    obtain ⟨hfits, hscore⟩ := ReputationScore.increase_ten hrange
    have hover : ¬ m.Overflows (.recordConnectionSuccess now id) := by
      simp [Overflows, h, hfits]
    rw [and_iff_right hover, recordConnectionSuccess, h]
    dsimp only
    rw [consistent_write_iff hm h]
    simp only [PeerData.recordConnectionAttempt, if_true, ReputationScore.isBanned_iff,
      ReputationScore.isTrusted_iff, ReputationScore.InRange, KeepsSides, hmem, forall_true_left,
      getPeerReputation_of_lookup h, CrossesUp, hscore]
    unfold ReputationScore.InRange at hrange
    omega

theorem failure_iff (hm : m.Consistent) :
    ¬ m.Overflows (.recordConnectionFailure id) ∧ (m.recordConnectionFailure id).Consistent ↔
      m.KeepsSides (.recordConnectionFailure id) := by
  cases h : m.peers.lookup id with
  | none =>
    have hmem : id ∉ m.peers := Finmap.lookup_eq_none.mp h
    simp [Overflows, recordConnectionFailure, KeepsSides, h, hm, hmem]
  | some data =>
    have hmem : id ∈ m.peers := Finmap.mem_iff.mpr ⟨data, h⟩
    have hrange := hm.range id
    rw [getPeerReputation_of_lookup h] at hrange
    obtain ⟨hfits, hscore⟩ := ReputationScore.decrease_five hrange
    have hover : ¬ m.Overflows (.recordConnectionFailure id) := by
      simp [Overflows, h, hfits]
    rw [and_iff_right hover, recordConnectionFailure, h]
    dsimp only
    rw [consistent_write_iff hm h]
    simp only [PeerData.recordConnectionAttempt, Bool.false_eq_true, if_false,
      ReputationScore.isBanned_iff, ReputationScore.isTrusted_iff, ReputationScore.InRange,
      KeepsSides, hmem, forall_true_left, getPeerReputation_of_lookup h, CrossesDown, hscore]
    unfold ReputationScore.InRange at hrange
    omega

theorem consistent_update (hm : m.Consistent) (h : m.peers.lookup id = some data) {delta : Int32}
    (hrange : (adjust data.reputation delta).InRange) :
    (m.updatePeerReputation id delta).Consistent := by
  rw [consistent_iff] at hm ⊢
  intro k
  rw [updatePeerReputation, h]
  dsimp only
  rw [getPeerReputation_insert]
  by_cases hk : k = id
  · subst hk
    rw [if_pos rfl]
    refine ⟨hrange, ?_, ?_⟩
    · cases (adjust data.reputation delta).isBanned <;> simp
    · cases (adjust data.reputation delta).isTrusted <;> simp
  · rw [if_neg hk]
    refine ⟨(hm k).1, ?_, ?_⟩
    · rw [← (hm k).2.1]
      cases (adjust data.reputation delta).isBanned <;> simp [hk]
    · rw [← (hm k).2.2]
      cases (adjust data.reputation delta).isTrusted <;> simp [hk]

theorem negOverflow_iff (delta : Int32) :
    BitVec.negOverflow delta.toBitVec = true ↔ delta.toInt = -2 ^ 31 := by
  rw [BitVec.negOverflow, beq_iff_eq]
  rfl

theorem toInt_neg_of_lt {delta : Int32} (h : -2 ^ 31 < delta.toInt) :
    (-delta).toInt = -delta.toInt := by
  have hlt := delta.toInt_lt
  rw [Int32.toInt_neg]
  exact Int.bmod_eq_of_le (by omega) (by omega)

theorem overflows_update_iff (h : m.peers.lookup id = some data) (delta : Int32)
    (hrange : data.reputation.InRange) :
    ¬ m.Overflows (.updatePeerReputation id delta) ↔
      DeltaFits data.reputation.score delta.toInt := by
  have hge := delta.le_toInt
  have hpos : 0 < delta ↔ 0 < delta.toInt := Int32.lt_iff_toInt_lt
  obtain ⟨hlow, hhigh⟩ := hrange
  unfold Overflows DeltaFits
  simp only [h, Option.some.injEq, exists_eq_left']
  by_cases hdelta : 0 < delta
  · rw [if_pos hdelta, Bool.not_eq_true, ReputationScore.increaseOverflows_eq_false]
    rw [hpos] at hdelta
    omega
  · rw [if_neg hdelta, Bool.or_eq_true, not_or, negOverflow_iff]
    rw [hpos] at hdelta
    constructor
    · intro ⟨hneg, hover⟩
      have hlt : -2 ^ 31 < delta.toInt := by omega
      rw [Bool.not_eq_true, ReputationScore.decreaseOverflows_eq_false,
        toInt_neg_of_lt hlt] at hover
      omega
    · intro hfits
      refine ⟨by omega, ?_⟩
      rw [Bool.not_eq_true, ReputationScore.decreaseOverflows_eq_false,
        toInt_neg_of_lt hfits.1]
      omega

theorem inRange_adjust {s : ReputationScore} (hs : s.InRange) {delta : Int32}
    (h : DeltaFits s.score delta.toInt) : (adjust s delta).InRange := by
  have hpos : 0 < delta ↔ 0 < delta.toInt := Int32.lt_iff_toInt_lt
  unfold DeltaFits at h
  unfold ReputationScore.InRange at hs ⊢
  by_cases hdelta : 0 < delta
  · rw [adjust, if_pos hdelta,
      ReputationScore.score_increase (ReputationScore.increaseOverflows_eq_false.mpr h.2)]
    rw [hpos] at hdelta
    omega
  · have hneg := toInt_neg_of_lt h.1
    have hfits : s.decreaseOverflows (-delta) = false := by
      rw [ReputationScore.decreaseOverflows_eq_false, hneg]
      omega
    rw [adjust, if_neg hdelta, ReputationScore.score_decrease hfits, hneg]
    rw [hpos] at hdelta
    omega

theorem update_iff (hm : m.Consistent) (delta : Int32) :
    ¬ m.Overflows (.updatePeerReputation id delta) ∧
        (m.updatePeerReputation id delta).Consistent ↔
      m.KeepsSides (.updatePeerReputation id delta) := by
  cases h : m.peers.lookup id with
  | none =>
    have hmem : id ∉ m.peers := Finmap.lookup_eq_none.mp h
    simp [Overflows, updatePeerReputation, KeepsSides, h, hm, hmem]
  | some data =>
    have hmem : id ∈ m.peers := Finmap.mem_iff.mpr ⟨data, h⟩
    have hrange := hm.range id
    rw [getPeerReputation_of_lookup h] at hrange
    rw [overflows_update_iff h delta hrange, KeepsSides, getPeerReputation_of_lookup h,
      forall_prop_of_true hmem]
    exact and_iff_left_of_imp fun hfits => consistent_update hm h (inRange_adjust hrange hfits)

theorem consistent_addPeer (hm : m.Consistent) (now : ℕ) (address : String) :
    (m.addPeer now id address).Consistent := by
  rw [consistent_iff] at hm ⊢
  intro k
  have hsame : (m.addPeer now id address).getPeerReputation k = m.getPeerReputation k := by
    rw [addPeer, getPeerReputation_insert]
    by_cases hk : k = id
    · rw [if_pos hk, hk]
      cases h : m.peers.lookup id with
      | none => rw [getPeerReputation_of_none h]; rfl
      | some data => rw [getPeerReputation_of_lookup h]; rfl
    · rw [if_neg hk]
  rw [hsame]
  exact hm k

theorem lookup_cleanup (m : DiscoveryManager) (now : ℕ) (order : IterOrder PeerId PeerData)
    (k : PeerId) :
    (m.cleanupStalePeers now order).peers.lookup k =
      (m.peers.lookup k).filter (shouldKeep now) := by
  rw [cleanupStalePeers, lookup_retain]
  cases m.peers.lookup k with
  | none => rfl
  | some data => rw [Option.bind_some, Option.filter_some]

theorem mem_bannedPeers_cleanup (now : ℕ) (order : IterOrder PeerId PeerData) :
    id ∈ (m.cleanupStalePeers now order).bannedPeers ↔
      id ∈ m.bannedPeers ∧ m.isStale now id = false := by
  rw [cleanupStalePeers, Finset.mem_filter, Bool.not_eq_true']

theorem mem_trustedPeers_cleanup (now : ℕ) (order : IterOrder PeerId PeerData) :
    id ∈ (m.cleanupStalePeers now order).trustedPeers ↔
      id ∈ m.trustedPeers ∧ m.isStale now id = false := by
  rw [cleanupStalePeers, Finset.mem_filter, Bool.not_eq_true']

theorem consistent_cleanup (hm : m.Consistent) (now : ℕ) (order : IterOrder PeerId PeerData) :
    (m.cleanupStalePeers now order).Consistent := by
  rw [consistent_iff] at hm ⊢
  intro k
  have hk := hm k
  have hlookup := lookup_cleanup m now order k
  rw [mem_bannedPeers_cleanup, mem_trustedPeers_cleanup, isStale]
  cases h : m.peers.lookup k with
  | none =>
    rw [h, Option.filter_none] at hlookup
    rw [getPeerReputation_of_none h] at hk
    rw [getPeerReputation_of_none hlookup, Option.any_none, and_iff_left rfl, and_iff_left rfl]
    exact hk
  | some data =>
    rw [h, Option.filter_some] at hlookup
    rw [Option.any_some]
    by_cases hkeep : shouldKeep now data = true
    · rw [if_pos hkeep] at hlookup
      rw [getPeerReputation_of_lookup h] at hk
      rw [getPeerReputation_of_lookup hlookup, hkeep, Bool.not_true, and_iff_left rfl,
        and_iff_left rfl]
      exact hk
    · rw [if_neg hkeep] at hlookup
      rw [Bool.not_eq_true] at hkeep
      rw [getPeerReputation_of_none hlookup, hkeep]
      have hsides : ReputationScore.default.isBanned = false ∧
          ReputationScore.default.isTrusted = false := by decide
      rw [hsides.1, hsides.2]
      simp [ReputationScore.inRange_default]

theorem consistent_new : new.Consistent := by
  rw [consistent_iff]
  intro id
  have hnew : new.getPeerReputation id = .default := getPeerReputation_of_none rfl
  rw [hnew]
  simp only [new, Finset.notMem_empty, false_iff]
  exact ⟨ReputationScore.inRange_default, by decide, by decide⟩

/-- A call from a consistent state overflows nothing and keeps the state consistent. -/
theorem exec_iff (hm : m.Consistent) (c : Call) :
    ¬ m.Overflows c ∧ (m.exec c).Consistent ↔ m.KeepsSides c := by
  cases c with
  | addPeer now id address =>
    exact iff_of_true ⟨not_false, consistent_addPeer hm now address⟩ trivial
  | updatePeerReputation id delta => exact update_iff hm delta
  | recordConnectionSuccess now id => exact success_iff hm now
  | recordConnectionFailure id => exact failure_iff hm
  | cleanupStalePeers now order =>
    exact iff_of_true ⟨not_false, consistent_cleanup hm now order⟩ trivial

/-- Along a run scores and sets agree exactly as long as every call keeps to its side. -/
theorem reputation_agrees_iff (calls : List Call) :
    Along exec (fun m c => ¬ m.Overflows c ∧ (m.exec c).Consistent) new calls ↔
      Along exec KeepsSides new calls :=
  along_iff_of_invariant consistent_new (fun _ _ _ h => h.2) (fun _ c hm => exec_iff hm c) calls

/-- A peer at 490 that connects once more is trusted by its score and not listed. -/
theorem trusted_not_listed :
    ¬ ∀ calls, Along exec (fun m c => ¬ m.Overflows c ∧ (m.exec c).Consistent) new calls := by
  intro h
  have hrun := (h [.addPeer 0 [1] "peer", .updatePeerReputation [1] 490,
    .recordConnectionSuccess 1 [1]]).2.2.1.2.trusted (@SetOrder.sorted PeerId lexOrder) [1]
  rw [mem_getTrustedPeers] at hrun
  revert hrun
  decide

end DiscoveryManager
end CytahSpeed
