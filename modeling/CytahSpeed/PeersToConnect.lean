import CytahSpeed.Discovery

/-!
# The peers to connect to

A peer is worth a connection when it is not banned, not connected, was seen in the last hour and
more than a tenth of its connections succeeded. A success is recorded together with the flag of the
connection, and no call takes the flag back. So a peer with a success is connected, one without has
a rate of zero, and no peer is ever worth a connection.
-/

namespace CytahSpeed
open FiniteMap

namespace PeerData

variable (data : PeerData)

/-- The rate exceeds a tenth. Quotients of words that differ from a tenth are not rounded to it. -/
def successRateExceedsTenth : Bool :=
  data.connectionAttempts ≠ 0 &&
    data.connectionAttempts.toNat < 10 * data.successfulConnections.toNat

/-- An hour in nanoseconds. -/
def recently : ℕ := 3600 * 1000000000

def shouldConnect (now : ℕ) : Bool :=
  !data.reputation.isBanned && data.successRateExceedsTenth &&
    now - data.lastSeen < recently

end PeerData

namespace DiscoveryManager

variable (m : DiscoveryManager)

def maxPeers : ℕ := 100

def getPeersToConnect (now : ℕ) (order : IterOrder PeerId PeerData) : List PeerId :=
  (((order.iter m.peers).filter fun e =>
    !m.isPeerBanned e.1 && !e.2.connected && e.2.shouldConnect now).take maxPeers).map Prod.fst

/-- A peer that is not connected has no successes. -/
def SuccessesConnected : Prop :=
  ∀ id data, m.peers.lookup id = some data → data.connected = false →
    data.successfulConnections = 0

variable {m}

theorem successesConnected_insert (hm : m.SuccessesConnected) (trusted banned : Finset PeerId)
    (id : PeerId) {data : PeerData}
    (h : data.connected = false → data.successfulConnections = 0) :
    (DiscoveryManager.mk (m.peers.insert id data) trusted banned).SuccessesConnected := by
  intro k data' hlookup hconnected
  dsimp only at hlookup
  rw [lookup_insert_eq_ite] at hlookup
  split_ifs at hlookup
  · obtain rfl := Option.some.inj hlookup
    exact h hconnected
  · exact hm k data' hlookup hconnected

theorem successesConnected_exec (hm : m.SuccessesConnected) (call : Call) :
    (m.exec call).SuccessesConnected := by
  cases call with
  | addPeer now id address =>
    apply successesConnected_insert hm
    cases h : m.peers.lookup id with
    | none => exact fun _ => rfl
    | some data => exact hm id data h
  | updatePeerReputation id delta =>
    simp only [exec, updatePeerReputation]
    cases h : m.peers.lookup id with
    | none => exact hm
    | some data => exact successesConnected_insert hm _ _ id (hm id data h)
  | recordConnectionSuccess now id =>
    simp only [exec, recordConnectionSuccess]
    cases h : m.peers.lookup id with
    | none => exact hm
    | some data =>
      apply successesConnected_insert hm
      intro hconnected
      exact absurd hconnected (by simp)
  | recordConnectionFailure id =>
    simp only [exec, recordConnectionFailure]
    cases h : m.peers.lookup id with
    | none => exact hm
    | some data => exact successesConnected_insert hm _ _ id (hm id data h)
  | cleanupStalePeers now order =>
    intro id data hlookup
    rw [exec, lookup_cleanup] at hlookup
    exact hm id data (Option.filter_eq_some_iff.mp hlookup).1

theorem successesConnected_run (calls : List Call) (hm : m.SuccessesConnected) :
    (calls.foldl exec m).SuccessesConnected := by
  induction calls generalizing m with
  | nil => exact hm
  | cons call calls ih => exact ih (successesConnected_exec hm call)

/-- After every run of calls, at every time and in every order of the table, the manager proposes
no peer. -/
theorem never_proposes_peer (calls : List Call) (now : ℕ) (order : IterOrder PeerId PeerData) :
    (calls.foldl exec new).getPeersToConnect now order = [] := by
  have hnew : new.SuccessesConnected := fun id data h => by cases h
  have hrun := successesConnected_run calls hnew
  have hnone : ∀ e ∈ order.iter (calls.foldl exec new).peers,
      ¬ (!(calls.foldl exec new).isPeerBanned e.1 && !e.2.connected &&
        e.2.shouldConnect now) = true := by
    intro e he hworth
    simp only [Bool.and_eq_true, Bool.not_eq_true', PeerData.shouldConnect,
      PeerData.successRateExceedsTenth, decide_eq_true_eq] at hworth
    have hzero := hrun e.1 e.2 (((order.enumerates _).2 e).mp he) hworth.1.2
    rw [hzero] at hworth
    exact absurd hworth.2.1.2.2 (by simp)
  rw [getPeersToConnect, List.filter_eq_nil_iff.mpr hnone]
  rfl

end DiscoveryManager

end CytahSpeed
