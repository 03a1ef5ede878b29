import CytahSpeed.ByteString
import CytahSpeed.FiniteMap
import CytahSpeed.StepRun

/-!
# The peer manager

The peer table and the ban list are two maps. A penalty that takes a score to zero disconnects
the peer and bans it for a day, and `add_peer` refuses a peer whose ban runs. The two other calls
that set the connected flag, `update_peer_status` and `reconnect_peers`, do not read the ban list:
along a run the bans hold exactly when neither of them reaches a banned peer.
-/

namespace CytahSpeed
open ByteString FiniteMap StepRun

/-- The bytes of the peer's multihash. -/
abbrev PeerId := List UInt8

structure PeerInfo where
  peerId : PeerId
  address : String
  lastSeen : ℕ
  isConnected : Bool
  dagHeight : UInt64
  score : Int32
  deriving DecidableEq

/-- The peer table, where every entry carries its own key, and the ban list with the second at
which each ban ends. -/
structure PeerManager where
  peers : Map PeerId PeerInfo
  bans : Map PeerId ℕ
  maxPeers : ℕ
  keyed : ∀ id info, peers.lookup id = some info → info.peerId = id

namespace PeerManager

def new (maxPeers : ℕ) : PeerManager := ⟨∅, ∅, maxPeers, by simp⟩

variable (m : PeerManager)

def insertPeer (info : PeerInfo) : PeerManager :=
  { m with
    peers := m.peers.insert info.peerId info
    keyed := by
      intro id info' h
      rw [lookup_insert_eq_ite] at h
      split_ifs at h with hid
      · rw [← Option.some.inj h, hid]
      · exact m.keyed id info' h }

/-- A write through `get_mut`; a peer that is not listed is left out. -/
def modify (id : PeerId) (f : PeerInfo → PeerInfo) : PeerManager :=
  match m.peers.lookup id with
  | some info => m.insertPeer (f info)
  | none => m

/-- `none` is a call that never returns. The read guard of the ban list lives to the end of the
`if let`, so removing a ban that is over waits for this call's own guard. -/
def addPeer (now : ℕ) (id : PeerId) (address : String) :
    Option (Except String Unit × PeerManager) :=
  if m.maxPeers ≤ m.peers.keys.card then some (.error "Maximum peers reached", m)
  else
    match m.bans.lookup id with
    | some exp =>
      if now < exp then some (.error "Peer is temporarily banned", m) else none
    | none =>
      match m.peers.lookup id with
      | some existing =>
        if existing.isConnected then some (.error "Peer already exists", m)
        else some (.ok (), m.insertPeer { existing with
          address, lastSeen := now, isConnected := true, dagHeight := 0, score := 100 })
      | none => some (.ok (), m.insertPeer ⟨id, address, now, false, 0, 100⟩)

def removePeer (id : PeerId) : PeerManager :=
  { m with
    peers := m.peers.erase id
    keyed := by
      intro id' info h
      rw [lookup_erase_eq_ite] at h
      split_ifs at h
      exact m.keyed id' info h }

def updatePeerStatus (now : ℕ) (id : PeerId) (connected : Bool) : PeerManager :=
  m.modify id fun peer => { peer with isConnected := connected, lastSeen := now }

def updatePeerHeight (id : PeerId) (height : UInt64) : PeerManager :=
  m.modify id fun peer => { peer with dagHeight := height }

def getConnectedPeers (order : IterOrder PeerId PeerInfo) : List PeerId :=
  (((order.iter m.peers).map Prod.snd).filter (·.isConnected)).map (·.peerId)

/-- The sort is stable, with the highest DAG first. -/
def getSyncPeers (order : IterOrder PeerId PeerInfo) (count : ℕ) : List PeerId :=
  (((((order.iter m.peers).map Prod.snd).filter (·.isConnected)).insertionSort
    fun a b => b.dagHeight ≤ a.dagHeight).take count).map (·.peerId)

def reconnectPeers (now : ℕ) (order : IterOrder PeerId PeerInfo) : PeerManager :=
  let disconnected :=
    (((order.iter m.peers).map Prod.snd).filter (! ·.isConnected)).map (·.peerId)
  disconnected.foldl (fun m id => m.updatePeerStatus now id true) m

def banSeconds : ℕ := 24 * 3600

/-- Scores wrap around. -/
def penalizePeer (now : ℕ) (id : PeerId) (points : Int32) : PeerManager :=
  match m.peers.lookup id with
  | some peer =>
    let score := peer.score - points
    if score ≤ 0 then
      { m.insertPeer { peer with score, isConnected := false } with
        bans := m.bans.insert id (now + banSeconds) }
    else m.insertPeer { peer with score }
  | none => m

def rewardPeer (id : PeerId) (points : Int32) : PeerManager :=
  m.modify id fun peer => { peer with score := min (peer.score + points) 100 }

/-- The calls that write the two maps; `reconnect_peers` iterates the table in some order. -/
inductive Call
  | addPeer (id : PeerId) (address : String)
  | removePeer (id : PeerId)
  | updatePeerStatus (id : PeerId) (connected : Bool)
  | updatePeerHeight (id : PeerId) (height : UInt64)
  | penalizePeer (id : PeerId) (points : Int32)
  | rewardPeer (id : PeerId) (points : Int32)
  | reconnectPeers (order : IterOrder PeerId PeerInfo)

def exec (now : ℕ) : Call → Option PeerManager
  | .addPeer id address => (m.addPeer now id address).map Prod.snd
  | .removePeer id => some (m.removePeer id)
  | .updatePeerStatus id connected => some (m.updatePeerStatus now id connected)
  | .updatePeerHeight id height => some (m.updatePeerHeight id height)
  | .penalizePeer id points => some (m.penalizePeer now id points)
  | .rewardPeer id points => some (m.rewardPeer id points)
  | .reconnectPeers order => some (m.reconnectPeers now order)

def Connected (id : PeerId) : Prop := ∃ info, m.peers.lookup id = some info ∧ info.isConnected

def Banned (now : ℕ) (id : PeerId) : Prop := ∃ exp, m.bans.lookup id = some exp ∧ now < exp

/-- No peer whose ban runs is given out for sync or gossip. -/
def BansHold (now : ℕ) : Prop :=
  ∀ id, m.Banned now id → ∀ order, id ∉ m.getConnectedPeers order ∧
    ∀ count, id ∉ m.getSyncPeers order count

variable {m} {now : ℕ} {id : PeerId}

theorem mem_peers_iter (order : IterOrder PeerId PeerInfo) (info : PeerInfo) :
    info ∈ (order.iter m.peers).map Prod.snd ↔ m.peers.lookup info.peerId = some info := by
  rw [List.mem_map]
  constructor
  · rintro ⟨e, he, rfl⟩
    have hlookup := ((order.enumerates m.peers).2 e).mp he
    rw [m.keyed _ _ hlookup, hlookup]
  · intro h
    exact ⟨(info.peerId, info), ((order.enumerates m.peers).2 _).mpr h, rfl⟩

@[simp] theorem mem_getConnectedPeers (order : IterOrder PeerId PeerInfo) :
    id ∈ m.getConnectedPeers order ↔ m.Connected id := by
  rw [getConnectedPeers, List.mem_map]
  constructor
  · rintro ⟨info, hinfo, rfl⟩
    obtain ⟨hmem, hconn⟩ := List.mem_filter.mp hinfo
    exact ⟨info, (mem_peers_iter order info).mp hmem, hconn⟩
  · rintro ⟨info, hlookup, hconn⟩
    have hid := m.keyed id info hlookup
    subst hid
    exact ⟨info, List.mem_filter.mpr ⟨(mem_peers_iter order info).mpr hlookup, hconn⟩, rfl⟩

theorem nodup_getConnectedPeers (order : IterOrder PeerId PeerInfo) :
    (m.getConnectedPeers order).Nodup := by
  have hkeys : (order.iter m.peers).map Prod.fst =
      ((order.iter m.peers).map Prod.snd).map (·.peerId) := by
    rw [List.map_map]
    apply List.map_congr_left
    intro e he
    exact (m.keyed _ _ (((order.enumerates m.peers).2 e).mp he)).symm
  have hnodup := (order.enumerates m.peers).1
  rw [hkeys] at hnodup
  exact hnodup.sublist (List.filter_sublist.map _)

theorem perm_getConnectedPeers (order order' : IterOrder PeerId PeerInfo) :
    (m.getConnectedPeers order).Perm (m.getConnectedPeers order') := by
  have hiter := (order.enumerates m.peers).perm (order'.enumerates m.peers)
  exact ((hiter.map Prod.snd).filter _).map _

theorem connected_of_mem_getSyncPeers {order : IterOrder PeerId PeerInfo} {count : ℕ}
    (h : id ∈ m.getSyncPeers order count) : m.Connected id := by
  rw [← mem_getConnectedPeers order]
  obtain ⟨info, hinfo, rfl⟩ := List.mem_map.mp h
  have hsorted := List.mem_of_mem_take hinfo
  exact List.mem_map.mpr ⟨info, (List.mem_insertionSort _).mp hsorted, rfl⟩

/-- The table in ascending order of the peers' bytes. -/
def byPeerId : IterOrder PeerId PeerInfo := @IterOrder.sorted PeerId PeerInfo lexOrder

theorem bansHold_iff : m.BansHold now ↔ ∀ id, m.Banned now id → ¬ m.Connected id := by
  constructor
  · intro h id hban hconn
    exact (h id hban byPeerId).1 ((mem_getConnectedPeers byPeerId).mpr hconn)
  · intro h id hban order
    refine ⟨fun hmem => h id hban ((mem_getConnectedPeers order).mp hmem), ?_⟩
    intro count hmem
    exact h id hban (connected_of_mem_getSyncPeers hmem)

theorem lookup_insertPeer (info : PeerInfo) (k : PeerId) :
    (m.insertPeer info).peers.lookup k = if k = info.peerId then some info
      else m.peers.lookup k :=
  lookup_insert_eq_ite _ _ _ _

theorem lookup_modify (f : PeerInfo → PeerInfo) (hf : ∀ info, (f info).peerId = info.peerId)
    (k : PeerId) : (m.modify id f).peers.lookup k =
      (m.peers.lookup k).map fun info => if k = id then f info else info := by
  unfold modify
  cases hid : m.peers.lookup id with
  | none =>
    by_cases hk : k = id
    · rw [hk, hid]
      rfl
    · simp [hk]
  | some info =>
    have hkey := m.keyed id info hid
    change (m.insertPeer (f info)).peers.lookup k = _
    rw [lookup_insertPeer, hf, hkey]
    by_cases hk : k = id
    · rw [if_pos hk, hk, hid]
      simp
    · simp [hk]

@[simp] theorem bans_modify (f : PeerInfo → PeerInfo) : (m.modify id f).bans = m.bans := by
  unfold modify
  cases m.peers.lookup id <;> rfl

theorem lookup_updatePeerStatus (connected : Bool) (k : PeerId) :
    (m.updatePeerStatus now id connected).peers.lookup k = (m.peers.lookup k).map fun info =>
      if k = id then { info with isConnected := connected, lastSeen := now } else info :=
  lookup_modify (fun info : PeerInfo => { info with isConnected := connected, lastSeen := now })
    (fun _ => rfl) k

theorem lookup_foldl_updatePeerStatus (ids : List PeerId) (m : PeerManager) (k : PeerId) :
    (ids.foldl (fun m id => m.updatePeerStatus now id true) m).peers.lookup k =
      (m.peers.lookup k).map fun info =>
        if k ∈ ids then { info with isConnected := true, lastSeen := now } else info := by
  induction ids generalizing m with
  | nil => simp
  | cons id ids ih =>
    rw [List.foldl_cons, ih, lookup_updatePeerStatus, Option.map_map]
    congr 1
    funext info
    by_cases hm : k ∈ ids
    · by_cases hk : k = id <;> simp [hm, hk]
    · by_cases hk : k = id <;> simp [hm, hk]

theorem bans_foldl_updatePeerStatus (ids : List PeerId) (m : PeerManager) :
    (ids.foldl (fun m id => m.updatePeerStatus now id true) m).bans = m.bans := by
  induction ids generalizing m with
  | nil => rfl
  | cons id ids ih =>
    rw [List.foldl_cons, ih]
    exact bans_modify _

theorem connected_reconnectPeers (order : IterOrder PeerId PeerInfo) :
    (m.reconnectPeers now order).Connected id ↔ id ∈ m.peers := by
  unfold Connected reconnectPeers
  rw [lookup_foldl_updatePeerStatus, Finmap.mem_iff]
  cases hid : m.peers.lookup id with
  | none => simp
  | some info =>
    have hkey := m.keyed id info hid
    have hmem : info.isConnected = false →
        id ∈ (((order.iter m.peers).map Prod.snd).filter (! ·.isConnected)).map (·.peerId) := by
      intro hconn
      refine List.mem_map.mpr ⟨info, List.mem_filter.mpr ⟨?_, by simp [hconn]⟩, hkey⟩
      rw [mem_peers_iter, hkey, hid]
    cases hconn : info.isConnected with
    | false => simp [hmem hconn]
    | true =>
      simp only [Option.map_some, Option.some.injEq, exists_eq_left', exists_eq']
      split_ifs <;> simp [hconn]

/-- The calls that set the connected flag of a listed peer without reading the ban list. -/
def Call.Marks (m : PeerManager) (id : PeerId) : Call → Prop
  | .updatePeerStatus id' connected => id' = id ∧ connected = true ∧ id ∈ m.peers
  | .reconnectPeers _ => id ∈ m.peers
  | _ => False

theorem connected_insertPeer (info : PeerInfo) :
    (m.insertPeer info).Connected id ↔
      if id = info.peerId then info.isConnected = true else m.Connected id := by
  unfold Connected
  rw [lookup_insertPeer]
  by_cases hid : id = info.peerId <;> simp [hid]

theorem connected_modify {f : PeerInfo → PeerInfo} (hf : ∀ info, (f info).peerId = info.peerId)
    (hconn : ∀ info, (f info).isConnected = info.isConnected) (id' : PeerId) :
    (m.modify id' f).Connected id ↔ m.Connected id := by
  unfold Connected
  rw [lookup_modify f hf]
  cases m.peers.lookup id with
  | none => simp
  | some info =>
    simp only [Option.map_some, Option.some.injEq, exists_eq_left']
    split_ifs <;> simp [hconn]

theorem connected_updatePeerStatus (id' : PeerId) (connected : Bool) :
    (m.updatePeerStatus now id' connected).Connected id ↔
      if id = id' then connected = true ∧ id ∈ m.peers else m.Connected id := by
  unfold Connected
  rw [lookup_updatePeerStatus, Finmap.mem_iff]
  cases m.peers.lookup id with
  | none => simp
  | some info => by_cases hid : id = id' <;> simp [hid]

theorem connected_removePeer (id' : PeerId) (h : (m.removePeer id').Connected id) :
    m.Connected id := by
  obtain ⟨info, hinfo, hconn⟩ := h
  change (m.peers.erase id').lookup id = some info at hinfo
  rw [lookup_erase_eq_ite] at hinfo
  split_ifs at hinfo
  exact ⟨info, hinfo, hconn⟩

theorem addPeer_cases {address : String} {r : Except String Unit × PeerManager}
    (h : m.addPeer now id address = some r) :
    r.2 = m ∨ m.bans.lookup id = none ∧ ∃ info, info.peerId = id ∧ r.2 = m.insertPeer info := by
  unfold addPeer at h
  split_ifs at h with hfull
  · left
    rw [← Option.some.inj h]
  · cases hban : m.bans.lookup id with
    | some exp =>
      simp only [hban] at h
      split_ifs at h
      left
      rw [← Option.some.inj h]
    | none =>
      simp only [hban] at h
      cases hpeer : m.peers.lookup id with
      | none =>
        simp only [hpeer] at h
        exact Or.inr ⟨rfl, _, rfl, by rw [← Option.some.inj h]⟩
      | some existing =>
        simp only [hpeer] at h
        split_ifs at h
        · left
          rw [← Option.some.inj h]
        · refine Or.inr ⟨rfl, _, ?_, (congrArg Prod.snd (Option.some.inj h)).symm⟩
          exact m.keyed id existing hpeer

theorem penalizePeer_cases (points : Int32) :
    m.penalizePeer now id points = m ∨
      (∃ peer score, m.peers.lookup id = some peer ∧
        m.penalizePeer now id points = m.insertPeer { peer with score }) ∨
      ∃ peer score, m.peers.lookup id = some peer ∧ m.penalizePeer now id points =
        { m.insertPeer { peer with score, isConnected := false } with
          bans := m.bans.insert id (now + banSeconds) } := by
  unfold penalizePeer
  cases hpeer : m.peers.lookup id with
  | none => exact Or.inl rfl
  | some peer =>
    right
    by_cases hscore : peer.score - points ≤ 0
    · exact Or.inr ⟨peer, peer.score - points, rfl, by simp only [if_pos hscore]⟩
    · exact Or.inl ⟨peer, peer.score - points, rfl, by simp only [if_neg hscore]⟩

theorem banned_connected_addPeer {id' : PeerId} {address : String}
    {r : Except String Unit × PeerManager} (h : m.addPeer now id' address = some r)
    (hban : r.2.Banned now id) (hconn : r.2.Connected id) :
    m.Banned now id ∧ m.Connected id := by
  rcases addPeer_cases h with hsame | ⟨hnone, info, rfl, hins⟩
  · rw [hsame] at hban hconn
    exact ⟨hban, hconn⟩
  · rw [hins] at hban hconn
    obtain ⟨exp, hexp, hlt⟩ := hban
    change m.bans.lookup id = some exp at hexp
    have hid : id ≠ info.peerId := by
      rintro rfl
      rw [hnone] at hexp
      cases hexp
    rw [connected_insertPeer, if_neg hid] at hconn
    exact ⟨⟨exp, hexp, hlt⟩, hconn⟩

theorem banned_connected_penalizePeer {id' : PeerId} {points : Int32}
    (hban : (m.penalizePeer now id' points).Banned now id)
    (hconn : (m.penalizePeer now id' points).Connected id) :
    m.Banned now id ∧ m.Connected id := by
  rcases @penalizePeer_cases m now id' points with
    hsame | ⟨peer, score, hpeer, hkeep⟩ | ⟨peer, score, hpeer, hcut⟩
  · rw [hsame] at hban hconn
    exact ⟨hban, hconn⟩
  · rw [hkeep] at hban hconn
    refine ⟨hban, ?_⟩
    rw [connected_insertPeer] at hconn
    split_ifs at hconn with hid
    · exact ⟨peer, by rw [hid, m.keyed id' peer hpeer, hpeer], hconn⟩
    · exact hconn
  · rw [hcut] at hban hconn
    have hkey := m.keyed id' peer hpeer
    change (m.insertPeer _).Connected id at hconn
    rw [connected_insertPeer] at hconn
    split_ifs at hconn with hid
    refine ⟨?_, hconn⟩
    obtain ⟨exp, hexp, hlt⟩ := hban
    change (m.bans.insert id' _).lookup id = some exp at hexp
    rw [lookup_insert_eq_ite, if_neg (by rw [← hkey]; exact hid)] at hexp
    exact ⟨exp, hexp, hlt⟩

theorem banned_connected_exec {call : Call} {m' : PeerManager} (h : m.exec now call = some m')
    (hban : m'.Banned now id) (hconn : m'.Connected id) :
    m.Banned now id ∧ (m.Connected id ∨ call.Marks m id) := by
  cases call with
  | addPeer id' address =>
    obtain ⟨r, hr, rfl⟩ := Option.map_eq_some_iff.mp h
    obtain ⟨hban, hconn⟩ := banned_connected_addPeer hr hban hconn
    exact ⟨hban, Or.inl hconn⟩
  | removePeer id' =>
    obtain rfl := Option.some.inj h
    exact ⟨hban, Or.inl (connected_removePeer id' hconn)⟩
  | updatePeerStatus id' connected =>
    obtain rfl := Option.some.inj h
    rw [connected_updatePeerStatus] at hconn
    refine ⟨by simpa [Banned, updatePeerStatus] using hban, ?_⟩
    split_ifs at hconn with hid
    · exact Or.inr ⟨hid.symm, hconn⟩
    · exact Or.inl hconn
  | updatePeerHeight id' height =>
    obtain rfl := Option.some.inj h
    refine ⟨by simpa [Banned, updatePeerHeight] using hban, Or.inl ?_⟩
    unfold updatePeerHeight at hconn
    rwa [connected_modify (by simp) (by simp)] at hconn
  | penalizePeer id' points =>
    obtain rfl := Option.some.inj h
    obtain ⟨hban, hconn⟩ := banned_connected_penalizePeer hban hconn
    exact ⟨hban, Or.inl hconn⟩
  | rewardPeer id' points =>
    obtain rfl := Option.some.inj h
    refine ⟨by simpa [Banned, rewardPeer] using hban, Or.inl ?_⟩
    unfold rewardPeer at hconn
    rwa [connected_modify (by simp) (by simp)] at hconn
  | reconnectPeers order =>
    obtain rfl := Option.some.inj h
    refine ⟨?_, Or.inr ((connected_reconnectPeers order).mp hconn)⟩
    simpa [Banned, reconnectPeers, bans_foldl_updatePeerStatus] using hban

theorem Call.Marks.exec {call : Call} (h : call.Marks m id) (now : ℕ) :
    ∃ m', m.exec now call = some m' ∧ m'.Connected id ∧ m'.bans = m.bans := by
  cases call with
  | updatePeerStatus id' connected =>
    obtain ⟨rfl, rfl, hmem⟩ := h
    refine ⟨_, rfl, ?_, bans_modify _⟩
    rw [connected_updatePeerStatus, if_pos rfl]
    exact ⟨rfl, hmem⟩
  | reconnectPeers order =>
    exact ⟨_, rfl, (connected_reconnectPeers order).mpr h, bans_foldl_updatePeerStatus _ _⟩
  | addPeer | removePeer | updatePeerHeight | penalizePeer | rewardPeer => exact h.elim

/-- Before the call at this second, it would not set the flag of a peer whose ban runs. -/
def Call.Respects (now : ℕ) (m : PeerManager) (call : Call) : Prop :=
  ∀ id, call.Marks m id → ¬ m.Banned now id

/-- A clock, and the manager unless a call is blocked for ever with the table locked. Each event
comes some seconds after the one before it. -/
abbrev Timed := ℕ × Option PeerManager

def step (s : Timed) (e : ℕ × Call) : Timed :=
  (s.1 + e.1, s.2.bind fun m => m.exec (s.1 + e.1) e.2)

/-- From now on the bans hold until the next call. -/
def Timed.BansHold (s : Timed) : Prop :=
  ∀ m, s.2 = some m → ∀ later, s.1 ≤ later → m.BansHold later

theorem bansHold_exec_iff {call : Call} (h : m.BansHold now) :
    (∀ m', m.exec now call = some m' → m'.BansHold now) ↔ call.Respects now m := by
  rw [bansHold_iff] at h
  constructor
  · intro hall id hmarks hban
    obtain ⟨m', hm', hconn, hbans⟩ := hmarks.exec now
    refine bansHold_iff.mp (hall m' hm') id ?_ hconn
    rw [Banned, hbans]
    exact hban
  · intro hresp m' hm'
    rw [bansHold_iff]
    intro id hban hconn
    obtain ⟨hbefore, hconn | hmarks⟩ := banned_connected_exec hm' hban hconn
    · exact h id hbefore hconn
    · exact hresp id hmarks hbefore

theorem BansHold.mono {later : ℕ} (h : m.BansHold now) (hle : now ≤ later) :
    m.BansHold later := by
  rintro id ⟨exp, hexp, hlt⟩
  exact h id ⟨exp, hexp, hle.trans_lt hlt⟩

theorem Timed.bansHold_iff (s : Timed) :
    s.BansHold ↔ ∀ m, s.2 = some m → m.BansHold s.1 := by
  constructor
  · intro h m hm
    exact h m hm s.1 le_rfl
  · intro h m hm later hlater
    exact (h m hm).mono hlater

theorem bansHold_step_iff {s : Timed} (hs : s.BansHold) (e : ℕ × Call) :
    (step s e).BansHold ↔ ∀ m, s.2 = some m → e.2.Respects (s.1 + e.1) m := by
  obtain ⟨now, manager⟩ := s
  rw [Timed.bansHold_iff]
  cases manager with
  | none => simp [step]
  | some m =>
    have hm : m.BansHold (now + e.1) := hs m rfl _ (Nat.le_add_right _ _)
    simp [step, ← bansHold_exec_iff hm]

/-- Along a run from a new manager no banned peer is given out, exactly when no call sets the
flag of a peer whose ban runs. -/
theorem bans_hold_along_iff (start maxPeers : ℕ) (es : List (ℕ × Call)) :
    Along step (fun s e => (step s e).BansHold) (start, some (new maxPeers)) es ↔
      Along step (fun s e => ∀ m, s.2 = some m → e.2.Respects (s.1 + e.1) m)
        (start, some (new maxPeers)) es := by
  apply along_iff_of_invariant (I := Timed.BansHold)
  · rintro m hm later - id ⟨exp, hexp, -⟩
    obtain rfl := Option.some.inj hm
    simp [new] at hexp
  · intro s e _ h
    exact h
  · intro s e hs
    exact bansHold_step_iff hs e

section Sample

def samplePeer : PeerId := [1]

def sampleCalls : List (ℕ × Call) :=
  [(0, .addPeer samplePeer "addr"), (0, .penalizePeer samplePeer 100),
    (1, .updatePeerStatus samplePeer true)]

/-- The peer is connected again with a day of its ban left. -/
theorem bans_hold_sample :
    ¬ Along step (fun s e => (step s e).BansHold) (0, some (new 10)) sampleCalls := by
  intro h
  have hlast := (along_iff _ _).mp h _ _ [] (List.dropLast_append_getLast? _ rfl).symm
  have hstate : ∃ m, (sampleCalls.foldl step (0, some (new 10))).2 = some m ∧
      m.bans.lookup samplePeer = some 86400 ∧
      (m.peers.lookup samplePeer).map (·.isConnected) = some true := by
    refine ⟨_, rfl, ?_⟩
    decide
  obtain ⟨m, hm, hban, hconn⟩ := hstate
  obtain ⟨info, hinfo, hflag⟩ := Option.map_eq_some_iff.mp hconn
  exact bansHold_iff.mp (hlast m hm 1 le_rfl) samplePeer ⟨86400, hban, by decide⟩
    ⟨info, hinfo, hflag⟩

end Sample

end PeerManager

end CytahSpeed
