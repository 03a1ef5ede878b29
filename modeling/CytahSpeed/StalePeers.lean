import CytahSpeed.PeerManager

/-!
# The clean-up of the peer table

Every five minutes a task drops the peers that were last seen more than ten minutes ago. Being seen
is an event of the connection: adding a peer, reporting its status, reconnecting it. Blocks,
heights, rewards and penalties do not count, so a connection that stays open and works is forgotten
all the same, and nothing is gossiped to the peer or asked of it from then on.
-/

namespace CytahSpeed
open ByteString FiniteMap StepRun

namespace PeerManager

variable (m : PeerManager)

def staleThreshold : ℕ := 600

/-- Seconds since the peer was seen; a clock behind the entry wraps around. -/
def isStale (now : ℕ) (peer : PeerInfo) : Bool :=
  now < peer.lastSeen || staleThreshold < now - peer.lastSeen

/-- One turn of the loop of `cleanup_stale_peers`. -/
def cleanupStalePeers (now : ℕ) (order : IterOrder PeerId PeerInfo) : PeerManager :=
  { m with
    peers := retain (fun _ peer => if isStale now peer then none else some peer) order m.peers
    keyed := by
      intro id info h
      rw [lookup_retain, Option.bind_eq_some_iff] at h
      obtain ⟨info', hinfo', hsome⟩ := h
      split_ifs at hsome
      obtain rfl := Option.some.inj hsome
      exact m.keyed id info' hinfo' }

inductive Turn
  | call (c : Call)
  | cleanupStalePeers (order : IterOrder PeerId PeerInfo)

def turn (now : ℕ) : Turn → Option PeerManager
  | .call c => m.exec now c
  | .cleanupStalePeers order => some (m.cleanupStalePeers now order)

def turnStep (s : Timed) (e : ℕ × Turn) : Timed :=
  (s.1 + e.1, s.2.bind fun m => m.turn (s.1 + e.1) e.2)

def Call.Touches (id : PeerId) : Call → Prop
  | .addPeer id' _ | .updatePeerStatus id' _ => id' = id
  | .reconnectPeers _ => True
  | _ => False

def Turn.Touches (id : PeerId) : Turn → Prop
  | .call c => c.Touches id
  | .cleanupStalePeers _ => False

/-- Before this turn at the given second, it would take a peer off the table that was last seen at
the other second. -/
def Turn.Drops (now seen : ℕ) (id : PeerId) : Turn → Prop
  | .call (.removePeer id') => id' = id
  | .call _ => False
  | .cleanupStalePeers _ => staleThreshold < now - seen

def seenAt (id : PeerId) : Option ℕ := (m.peers.lookup id).map (·.lastSeen)

variable {m} {m' : PeerManager} {now : ℕ} {id : PeerId}

theorem mem_peers_iff_seenAt : id ∈ m.peers ↔ (m.seenAt id).isSome := by
  rw [Finmap.mem_iff, seenAt, Option.isSome_map, Option.isSome_iff_exists]

theorem seenAt_insertPeer (info : PeerInfo) :
    (m.insertPeer info).seenAt id =
      if id = info.peerId then some info.lastSeen else m.seenAt id := by
  unfold seenAt
  rw [lookup_insertPeer]
  split_ifs <;> rfl

theorem seenAt_modify {f : PeerInfo → PeerInfo} (hf : ∀ info, (f info).peerId = info.peerId)
    (hseen : ∀ info, (f info).lastSeen = info.lastSeen) (id' : PeerId) :
    (m.modify id' f).seenAt id = m.seenAt id := by
  unfold seenAt
  rw [lookup_modify f hf, Option.map_map]
  congr 1
  funext info
  change (if id = id' then f info else info).lastSeen = info.lastSeen
  split_ifs
  · exact hseen info
  · rfl

theorem seenAt_updatePeerHeight (id' : PeerId) (height : UInt64) :
    (m.updatePeerHeight id' height).seenAt id = m.seenAt id :=
  @seenAt_modify m id (fun peer => { peer with dagHeight := height }) (fun _ => rfl)
    (fun _ => rfl) id'

theorem seenAt_rewardPeer (id' : PeerId) (points : Int32) :
    (m.rewardPeer id' points).seenAt id = m.seenAt id :=
  @seenAt_modify m id (fun peer => { peer with score := min (peer.score + points) 100 })
    (fun _ => rfl) (fun _ => rfl) id'

theorem seenAt_removePeer (id' : PeerId) :
    (m.removePeer id').seenAt id = if id = id' then none else m.seenAt id := by
  change ((m.peers.erase id').lookup id).map _ = _
  rw [lookup_erase_eq_ite]
  split_ifs <;> rfl

theorem seenAt_updatePeerStatus (id' : PeerId) (connected : Bool) :
    (m.updatePeerStatus now id' connected).seenAt id = m.seenAt id ∨
      id' = id ∧ (m.updatePeerStatus now id' connected).seenAt id = some now := by
  unfold seenAt
  rw [lookup_updatePeerStatus]
  cases m.peers.lookup id with
  | none => exact Or.inl rfl
  | some info =>
    by_cases hid : id = id'
    · exact Or.inr ⟨hid.symm, by simp [hid]⟩
    · exact Or.inl (by simp [hid])

theorem seenAt_reconnectPeers (order : IterOrder PeerId PeerInfo) :
    (m.reconnectPeers now order).seenAt id = m.seenAt id ∨
      (m.reconnectPeers now order).seenAt id = some now := by
  unfold seenAt reconnectPeers
  rw [lookup_foldl_updatePeerStatus]
  cases m.peers.lookup id with
  | none => exact Or.inl rfl
  | some info =>
    simp only [Option.map_some]
    split_ifs
    · exact Or.inr rfl
    · exact Or.inl rfl

theorem seenAt_addPeer {id' : PeerId} {address : String} {r : Except String Unit × PeerManager}
    (h : m.addPeer now id' address = some r) :
    r.2.seenAt id = m.seenAt id ∨ id' = id ∧ r.2.seenAt id = some now := by
  unfold addPeer at h
  split_ifs at h with hfull
  · exact Or.inl (by rw [← Option.some.inj h])
  · cases hban : m.bans.lookup id' with
    | some exp =>
      simp only [hban] at h
      split_ifs at h
      exact Or.inl (by rw [← Option.some.inj h])
    | none =>
      have hinsert : ∀ info : PeerInfo, info.peerId = id' → info.lastSeen = now →
          r.2 = m.insertPeer info →
          r.2.seenAt id = m.seenAt id ∨ id' = id ∧ r.2.seenAt id = some now := by
        rintro info hid hnow hr
        rw [hr, seenAt_insertPeer, hid, hnow]
        by_cases heq : id = id'
        · exact Or.inr ⟨heq.symm, if_pos heq⟩
        · exact Or.inl (if_neg heq)
      simp only [hban] at h
      cases hpeer : m.peers.lookup id' with
      | none =>
        simp only [hpeer] at h
        obtain rfl := Option.some.inj h
        exact hinsert _ rfl rfl rfl
      | some existing =>
        simp only [hpeer] at h
        split_ifs at h
        · exact Or.inl (by rw [← Option.some.inj h])
        · obtain rfl := Option.some.inj h
          exact hinsert { existing with
            address, lastSeen := now, isConnected := true, dagHeight := 0, score := 100 }
            (m.keyed id' existing hpeer) rfl rfl

theorem seenAt_penalizePeer (id' : PeerId) (points : Int32) :
    (m.penalizePeer now id' points).seenAt id = m.seenAt id := by
  have hinsert : ∀ peer info : PeerInfo, m.peers.lookup id' = some peer →
      info.peerId = peer.peerId → info.lastSeen = peer.lastSeen →
      (m.insertPeer info).seenAt id = m.seenAt id := by
    intro peer info hpeer hid hseen
    rw [seenAt_insertPeer, hid, m.keyed id' peer hpeer, hseen]
    split_ifs with heq
    · rw [heq, seenAt, hpeer, Option.map_some]
    · rfl
  rcases @penalizePeer_cases m now id' points with
    hsame | ⟨peer, score, hpeer, hkeep⟩ | ⟨peer, score, hpeer, hcut⟩
  · rw [hsame]
  · rw [hkeep]
    exact hinsert peer _ hpeer rfl rfl
  · rw [hcut]
    exact hinsert peer { peer with score, isConnected := false } hpeer rfl rfl

theorem seenAt_cleanupStalePeers (order : IterOrder PeerId PeerInfo)
    (hclock : ∀ seen ∈ m.seenAt id, seen ≤ now) :
    (m.cleanupStalePeers now order).seenAt id =
      (m.seenAt id).filter fun seen => now - seen ≤ staleThreshold := by
  change ((retain _ order m.peers).lookup id).map _ = _
  rw [lookup_retain]
  unfold seenAt at hclock ⊢
  cases hid : m.peers.lookup id with
  | none => rfl
  | some info =>
    have hle : info.lastSeen ≤ now := hclock info.lastSeen (by rw [hid]; rfl)
    have hfresh : ¬ now < info.lastSeen := by omega
    simp only [Option.bind_some, Option.map_some, isStale, hfresh, decide_false, Bool.false_or,
      decide_eq_true_eq, Option.filter_some]
    by_cases hstale : staleThreshold < now - info.lastSeen
    · rw [if_pos hstale, if_neg (Nat.not_le_of_lt hstale)]
      rfl
    · rw [if_neg hstale, if_pos (Nat.le_of_not_lt hstale)]
      rfl

theorem seenAt_turn {t : Turn} (h : m.turn now t = some m')
    (hclock : ∀ seen ∈ m.seenAt id, seen ≤ now) :
    t.Touches id ∧ m'.seenAt id = some now ∨
      m'.seenAt id = m.seenAt id ∧ (∀ seen ∈ m.seenAt id, ¬ t.Drops now seen id) ∨
      m'.seenAt id = none ∧ ∀ seen ∈ m.seenAt id, t.Drops now seen id := by
  cases t with
  | cleanupStalePeers order =>
    obtain rfl := Option.some.inj h
    right
    rw [seenAt_cleanupStalePeers order hclock]
    cases hseen : m.seenAt id with
    | none => exact Or.inl ⟨rfl, by simp⟩
    | some seen =>
      rw [Option.filter_some]
      by_cases hstale : now - seen ≤ staleThreshold
      · rw [if_pos (by simpa using hstale)]
        refine Or.inl ⟨rfl, ?_⟩
        rintro seen' ⟨⟩
        exact Nat.not_lt_of_le hstale
      · rw [if_neg (by simpa using hstale)]
        refine Or.inr ⟨rfl, ?_⟩
        rintro seen' ⟨⟩
        exact Nat.lt_of_not_le hstale
  | call c =>
    cases c with
    | addPeer id' address =>
      obtain ⟨r, hr, rfl⟩ := Option.map_eq_some_iff.mp h
      rcases @seenAt_addPeer m now id _ _ _ hr with hsame | ⟨hid, hnow⟩
      · exact Or.inr (Or.inl ⟨hsame, fun _ _ => not_false⟩)
      · exact Or.inl ⟨hid, hnow⟩
    | removePeer id' =>
      obtain rfl := Option.some.inj h
      right
      rw [seenAt_removePeer]
      by_cases hid : id = id'
      · exact Or.inr ⟨if_pos hid, fun _ _ => hid.symm⟩
      · exact Or.inl ⟨if_neg hid, fun _ _ heq => hid heq.symm⟩
    | updatePeerStatus id' connected =>
      obtain rfl := Option.some.inj h
      rcases @seenAt_updatePeerStatus m now id id' connected with hsame | ⟨hid, hnow⟩
      · exact Or.inr (Or.inl ⟨hsame, fun _ _ => not_false⟩)
      · exact Or.inl ⟨hid, hnow⟩
    | updatePeerHeight id' height =>
      obtain rfl := Option.some.inj h
      exact Or.inr (Or.inl ⟨seenAt_updatePeerHeight id' height, fun _ _ => not_false⟩)
    | penalizePeer id' points =>
      obtain rfl := Option.some.inj h
      exact Or.inr (Or.inl ⟨seenAt_penalizePeer id' points, fun _ _ => not_false⟩)
    | rewardPeer id' points =>
      obtain rfl := Option.some.inj h
      exact Or.inr (Or.inl ⟨seenAt_rewardPeer id' points, fun _ _ => not_false⟩)
    | reconnectPeers order =>
      obtain rfl := Option.some.inj h
      rcases @seenAt_reconnectPeers m now id order with hsame | hnow
      · exact Or.inr (Or.inl ⟨hsame, fun _ _ => not_false⟩)
      · exact Or.inl ⟨trivial, hnow⟩

section Run
variable {start maxPeers : ℕ}

def clock (start : ℕ) (es : List (ℕ × Turn)) : ℕ := es.foldl (fun now e => now + e.1) start

def turns (start maxPeers : ℕ) (es : List (ℕ × Turn)) : Timed :=
  es.foldl turnStep (start, some (new maxPeers))

theorem fst_foldl_turnStep (s : Timed) (es : List (ℕ × Turn)) :
    (es.foldl turnStep s).1 = clock s.1 es := by
  induction es generalizing s with
  | nil => rfl
  | cons e es ih => exact ih (turnStep s e)

theorem clock_append (es es' : List (ℕ × Turn)) :
    clock start (es ++ es') = clock (clock start es) es' :=
  List.foldl_append

theorem le_clock (now : ℕ) (es : List (ℕ × Turn)) : now ≤ clock now es := by
  induction es generalizing now with
  | nil => exact le_rfl
  | cons e es ih => exact (Nat.le_add_right now e.1).trans (ih (now + e.1))

theorem clock_le_append (start : ℕ) (es es' : List (ℕ × Turn)) :
    clock start es ≤ clock start (es ++ es') := by
  rw [clock_append]
  exact le_clock _ es'

theorem turns_concat {es : List (ℕ × Turn)} {e : ℕ × Turn}
    (h : (turns start maxPeers (es ++ [e])).2 = some m') :
    ∃ m, (turns start maxPeers es).2 = some m ∧
      m.turn (clock start (es ++ [e])) e.2 = some m' := by
  rw [turns, List.foldl_append] at h
  obtain ⟨m, hm, hturn⟩ := Option.bind_eq_some_iff.mp h
  refine ⟨m, hm, ?_⟩
  rw [fst_foldl_turnStep] at hturn
  rw [clock_append]
  exact hturn

theorem touched_of_seenAt {es : List (ℕ × Turn)} (hm : (turns start maxPeers es).2 = some m)
    {seen : ℕ} (hseen : m.seenAt id = some seen) :
    ∃ pre e post, es = pre ++ e :: post ∧ e.2.Touches id ∧ clock start (pre ++ [e]) = seen := by
  induction es using List.reverseRecOn generalizing m seen with
  | nil =>
    obtain rfl := Option.some.inj hm
    cases hseen
  | append_singleton es e ih =>
    obtain ⟨m₀, hm₀, hturn⟩ := turns_concat hm
    have hclock : ∀ seen ∈ m₀.seenAt id, seen ≤ clock start (es ++ [e]) := by
      intro seen' hseen'
      obtain ⟨pre, e', post, rfl, -, rfl⟩ := ih hm₀ hseen'
      have hle := clock_le_append start (pre ++ [e']) (post ++ [e])
      simpa using hle
    rcases seenAt_turn hturn hclock with ⟨htouch, hnow⟩ | ⟨hsame, -⟩ | ⟨hnone, -⟩
    · refine ⟨es, e, [], rfl, htouch, ?_⟩
      rw [hseen] at hnow
      exact (Option.some.inj hnow).symm
    · rw [hsame] at hseen
      obtain ⟨pre, e', post, hes, htouch, hpre⟩ := ih hm₀ hseen
      exact ⟨pre, e', post ++ [e], by rw [hes]; simp, htouch, hpre⟩
    · rw [hnone] at hseen
      cases hseen

theorem seenAt_le_clock {es : List (ℕ × Turn)} (hm : (turns start maxPeers es).2 = some m)
    (seen : ℕ) (hseen : seen ∈ m.seenAt id) : seen ≤ clock start es := by
  obtain ⟨pre, e, post, rfl, -, rfl⟩ := touched_of_seenAt hm hseen
  have hle := clock_le_append start (pre ++ [e]) post
  rwa [List.append_assoc] at hle

theorem foldl_turnStep_none {s : Timed} (hs : s.2 = none) (es : List (ℕ × Turn)) :
    (es.foldl turnStep s).2 = none := by
  induction es generalizing s with
  | nil => exact hs
  | cons e es ih =>
    apply ih
    rw [turnStep, hs, Option.bind_none]

theorem exists_turn {s : Timed} {e : ℕ × Turn} {es : List (ℕ × Turn)} (hs : s.2 = some m)
    (hm' : ((e :: es).foldl turnStep s).2 = some m') :
    ∃ m₁, m.turn (s.1 + e.1) e.2 = some m₁ ∧ (turnStep s e).2 = some m₁ := by
  cases hturn : (turnStep s e).2 with
  | none =>
    rw [List.foldl_cons, foldl_turnStep_none hturn] at hm'
    cases hm'
  | some m₁ =>
    refine ⟨m₁, ?_, rfl⟩
    rwa [turnStep, hs, Option.bind_some] at hturn

theorem not_listed_foldl {es : List (ℕ × Turn)} {s : Timed} (hs : s.2 = some m)
    (hm' : (es.foldl turnStep s).2 = some m') (hquiet : ∀ e ∈ es, ¬ e.2.Touches id)
    (hnone : m.seenAt id = none) : m'.seenAt id = none := by
  induction es generalizing s m with
  | nil =>
    obtain rfl := Option.some.inj (hs.symm.trans hm')
    exact hnone
  | cons e es ih =>
    obtain ⟨m₁, hturn, hstep⟩ := exists_turn hs hm'
    apply ih hstep hm' fun e' he' => hquiet e' (List.mem_cons_of_mem e he')
    have hnow : ∀ seen ∈ m.seenAt id, seen ≤ s.1 + e.1 := by simp [hnone]
    rcases seenAt_turn hturn hnow with ⟨htouch, -⟩ | ⟨hsame, -⟩ | ⟨hgone, -⟩
    · exact absurd htouch (hquiet e List.mem_cons_self)
    · rw [hsame, hnone]
    · exact hgone

/-- Turns that do not touch a peer leave it listed, with the time it was last seen, until the first
of them that drops it. -/
theorem seenAt_foldl_iff {es : List (ℕ × Turn)} {s : Timed} (hs : s.2 = some m)
    (hm' : (es.foldl turnStep s).2 = some m') (hquiet : ∀ e ∈ es, ¬ e.2.Touches id) {seen : ℕ}
    (hseen : m.seenAt id = some seen) (hclock : seen ≤ s.1) :
    (m'.seenAt id).isSome ↔
      Along turnStep (fun s e => ¬ e.2.Drops (s.1 + e.1) seen id) s es := by
  induction es generalizing s m with
  | nil =>
    obtain rfl := Option.some.inj (hs.symm.trans hm')
    simp [hseen, Along]
  | cons e es ih =>
    obtain ⟨m₁, hturn, hstep⟩ := exists_turn hs hm'
    have hrest := fun e' he' => hquiet e' (List.mem_cons_of_mem e he')
    have hmem : seen ∈ m.seenAt id := hseen
    have hlater : seen ≤ s.1 + e.1 := hclock.trans (Nat.le_add_right _ _)
    have hnow : ∀ seen' ∈ m.seenAt id, seen' ≤ s.1 + e.1 := by
      intro seen' hseen'
      rwa [Option.mem_unique hseen' hmem]
    rcases seenAt_turn hturn hnow with ⟨htouch, -⟩ | ⟨hsame, hkeep⟩ | ⟨hgone, hdrop⟩
    · exact absurd htouch (hquiet e List.mem_cons_self)
    · rw [Along, and_iff_right (hkeep seen hmem)]
      exact ih hstep hm' hrest (hsame.trans hseen) hlater
    · have hnone := not_listed_foldl hstep hm' hrest hgone
      rw [hnone, Along, and_iff_not_or_not]
      simp [hdrop seen hmem]

/-- As long as no call touches a peer, it stays on the table exactly until it is removed or a
clean-up comes more than ten minutes after it was last seen. -/
theorem quiet_peer_listed_iff (start maxPeers : ℕ) (before quiet : List (ℕ × Turn)) {id : PeerId}
    {m m' : PeerManager} {info : PeerInfo} (hm : (turns start maxPeers before).2 = some m)
    (hinfo : m.peers.lookup id = some info) (hquiet : ∀ e ∈ quiet, ¬ e.2.Touches id)
    (hm' : (turns start maxPeers (before ++ quiet)).2 = some m') :
    id ∈ m'.peers ↔ Along turnStep (fun s e => ¬ e.2.Drops (s.1 + e.1) info.lastSeen id)
      (turns start maxPeers before) quiet := by
  have hseen : m.seenAt id = some info.lastSeen := by rw [seenAt, hinfo, Option.map_some]
  have hclock : info.lastSeen ≤ (turns start maxPeers before).1 := by
    rw [turns, fst_foldl_turnStep]
    exact seenAt_le_clock hm _ hseen
  rw [turns, List.foldl_append] at hm'
  rw [mem_peers_iff_seenAt]
  exact seenAt_foldl_iff hm hm' hquiet hseen hclock

theorem cleanup_le_seenAt {before after : List (ℕ × Turn)} {gap : ℕ}
    {order : IterOrder PeerId PeerInfo}
    (hm : (turns start maxPeers (before ++ (gap, .cleanupStalePeers order) :: after)).2 = some m)
    {seen : ℕ} (hseen : m.seenAt id = some seen) :
    clock start (before ++ [(gap, .cleanupStalePeers order)]) ≤ seen + staleThreshold := by
  induction after using List.reverseRecOn generalizing m seen with
  | nil =>
    obtain ⟨m₀, hm₀, hturn⟩ := turns_concat hm
    have hclock : ∀ seen ∈ m₀.seenAt id, seen ≤
        clock start (before ++ [(gap, .cleanupStalePeers order)]) := by
      intro seen' hseen'
      exact (seenAt_le_clock hm₀ seen' hseen').trans (clock_le_append start before _)
    rcases seenAt_turn hturn hclock with ⟨htouch, -⟩ | ⟨hsame, hkeep⟩ | ⟨hnone, -⟩
    · exact htouch.elim
    · rw [hsame] at hseen
      have hfresh : ¬ staleThreshold < _ - seen := hkeep seen hseen
      omega
    · rw [hnone] at hseen
      cases hseen
  | append_singleton after e ih =>
    rw [← List.cons_append, ← List.append_assoc] at hm
    obtain ⟨m₀, hm₀, hturn⟩ := turns_concat hm
    have hclock : ∀ seen ∈ m₀.seenAt id, seen ≤ clock start
        (before ++ (gap, .cleanupStalePeers order) :: after ++ [e]) := by
      intro seen' hseen'
      exact (seenAt_le_clock hm₀ seen' hseen').trans (clock_le_append start _ _)
    rcases seenAt_turn hturn hclock with ⟨-, hnow⟩ | ⟨hsame, -⟩ | ⟨hnone, -⟩
    · rw [hseen] at hnow
      obtain rfl := Option.some.inj hnow
      have hle := clock_le_append start (before ++ [(gap, .cleanupStalePeers order)])
        (after ++ [e])
      simp only [List.append_assoc, List.cons_append, List.nil_append] at hle ⊢
      omega
    · rw [hsame] at hseen
      exact ih hm₀ hseen
    · rw [hnone] at hseen
      cases hseen

/-- After a clean-up, whatever comes next, every peer on the table was added, reported on or
reconnected in the ten minutes before the clean-up or since. -/
theorem listed_recently_touched (start maxPeers : ℕ) (before after : List (ℕ × Turn)) (gap : ℕ)
    (order : IterOrder PeerId PeerInfo) {m : PeerManager}
    (hm : (turns start maxPeers (before ++ (gap, .cleanupStalePeers order) :: after)).2 = some m)
    {id : PeerId} (hid : id ∈ m.peers) :
    ∃ pre e post, before ++ (gap, .cleanupStalePeers order) :: after = pre ++ e :: post ∧
      e.2.Touches id ∧
      clock start (before ++ [(gap, .cleanupStalePeers order)]) ≤
        clock start (pre ++ [e]) + staleThreshold := by
  rw [mem_peers_iff_seenAt, Option.isSome_iff_exists] at hid
  obtain ⟨seen, hseen⟩ := hid
  obtain ⟨pre, e, post, hsplit, htouch, hpre⟩ := touched_of_seenAt hm hseen
  refine ⟨pre, e, post, hsplit, htouch, ?_⟩
  rw [hpre]
  exact cleanup_le_seenAt hm hseen

end Run

section Sample

def sampleBefore : List (ℕ × Turn) :=
  [(0, .call (.addPeer samplePeer "addr")), (1, .call (.updatePeerStatus samplePeer true))]

def sampleQuiet : List (ℕ × Turn) :=
  [(299, .cleanupStalePeers byPeerId), (290, .call (.updatePeerHeight samplePeer 7)),
    (30, .cleanupStalePeers byPeerId)]

theorem quiet_peer_listed_iff_sample :
    ∃ m', (turns 0 10 (sampleBefore ++ sampleQuiet)).2 = some m' ∧ samplePeer ∉ m'.peers := by
  have hinfo : ∃ m, (turns 0 10 sampleBefore).2 = some m ∧
      m.peers.lookup samplePeer = some ⟨samplePeer, "addr", 1, true, 0, 100⟩ := by
    refine ⟨_, rfl, ?_⟩
    decide
  obtain ⟨m, hm, hinfo⟩ := hinfo
  have hquiet : ∀ e ∈ sampleQuiet, ¬ e.2.Touches samplePeer := by
    simp [sampleQuiet, Turn.Touches, Call.Touches]
  refine ⟨_, rfl, ?_⟩
  rw [quiet_peer_listed_iff 0 10 sampleBefore sampleQuiet hm hinfo hquiet rfl]
  intro h
  -- the second clean-up, 619 seconds after the status was reported
  have hstale : staleThreshold < 620 - 1 := by decide
  exact h.2.2.1 hstale

theorem listed_recently_touched_sample : ∃ pre e post,
    sampleBefore ++ (299, .cleanupStalePeers byPeerId) :: [] = pre ++ e :: post ∧
      e.2.Touches samplePeer ∧
      clock 0 (sampleBefore ++ [(299, .cleanupStalePeers byPeerId)]) ≤
        clock 0 (pre ++ [e]) + staleThreshold := by
  have hlisted : ∃ m, (turns 0 10 (sampleBefore ++ (299, .cleanupStalePeers byPeerId) :: [])).2 =
      some m ∧ samplePeer ∈ m.peers := by
    refine ⟨_, rfl, ?_⟩
    decide +kernel
  obtain ⟨m, hm, hid⟩ := hlisted
  exact listed_recently_touched 0 10 sampleBefore [] 299 byPeerId hm hid

end Sample

end PeerManager

end CytahSpeed
