import CytahSpeed.Block
import CytahSpeed.Flooding
import CytahSpeed.PeerManager

/-!
# Gossip

A node forwards a block or a transaction to all its connected peers the first time it meets the
hash, whether it broadcasts it itself or receives it. The network is an abstract flooding: it
keeps the two sets of seen hashes apart and takes messages of other kinds as seen.
-/

namespace CytahSpeed
open ByteString FiniteMap

inductive NetworkMessage
  | newBlock (block : Block)
  | newTransaction (tx : Transaction)
  | requestBlock (hash : BlockHash)
  | requestDag
  | dagResponse (blocks : List Block)
  | getHeaders (fromHash : BlockHash) (max : ℕ)
  | headers (headers : List (BlockHash × BlockHeader))
  | getBlocks (hashes : List BlockHash)
  | blocks (blocks : List Block)
  | requestState
  | stateSnapshot (data : List UInt8)
  deriving DecidableEq

inductive GossipKind
  | block
  | transaction
  deriving DecidableEq

/-- The hash under which a message is gossiped. -/
def NetworkMessage.gossipKey (c : Crypto) : NetworkMessage → Option (GossipKind × Hash)
  | newBlock block => some (.block, block.hash)
  | newTransaction tx => some (.transaction, tx.hash c)
  | _ => none

structure GossipProtocol where
  peerManager : PeerManager
  seenBlocks : Finset BlockHash
  seenTransactions : Finset TxId

namespace GossipProtocol

def new (peerManager : PeerManager) : GossipProtocol := ⟨peerManager, ∅, ∅⟩

variable (c : Crypto) (g : GossipProtocol) (order : IterOrder PeerId PeerInfo)

def seen : GossipKind → Finset Hash
  | .block => g.seenBlocks
  | .transaction => g.seenTransactions

def markSeen (hash : Hash) : GossipKind → GossipProtocol
  | .block => { g with seenBlocks := insert hash g.seenBlocks }
  | .transaction => { g with seenTransactions := insert hash g.seenTransactions }

def broadcastMessage : List PeerId := g.peerManager.getConnectedPeers order

/-- A hash that is not seen yet is marked before the round of sends; a seen one gets no round. -/
def relay (kind : GossipKind) (hash : Hash) : Option (List PeerId) × GossipProtocol :=
  if hash ∈ g.seen kind then (none, g)
  else
    let g := g.markSeen hash kind
    (some (g.broadcastMessage order), g)

def broadcastBlock (block : Block) : Option (List PeerId) × GossipProtocol :=
  g.relay order .block block.hash

def broadcastTransaction (transaction : Transaction) : Option (List PeerId) × GossipProtocol :=
  g.relay order .transaction (transaction.hash c)

def handleGossipMessage : NetworkMessage → Option (List PeerId) × GossipProtocol
  | .newBlock block => g.relay order .block block.hash
  | .newTransaction tx => g.relay order .transaction (tx.hash c)
  | _ => (none, g)

end GossipProtocol

/-- The sends of one call of `broadcast_message`. -/
structure Round where
  node : PeerId
  message : NetworkMessage
  receivers : List PeerId

structure GossipNet where
  node : PeerId → GossipProtocol
  flight : Multiset (PeerId × NetworkMessage)
  rounds : List Round
  lost : Multiset (PeerId × NetworkMessage)

namespace GossipNet

/-- The outcome of a call at a node: the sends that the channel accepts are in flight. -/
def emit (s : GossipNet) (n : PeerId) (message : NetworkMessage) (accepts : PeerId → Bool)
    (result : Option (List PeerId) × GossipProtocol) : GossipNet :=
  let s := { s with node := Function.update s.node n result.2 }
  match result.1 with
  | none => s
  | some receivers =>
    { s with
      flight := s.flight + ((receivers.filter (accepts ·)).map (·, message) : List _)
      rounds := ⟨n, message, receivers⟩ :: s.rounds
      lost := s.lost + ((receivers.filter (! accepts ·)).map (·, message) : List _) }

/-- A call at a node, with the order in which its peers are iterated and the channel's answers, or
what the network does to a message in flight. -/
inductive Event
  | broadcastBlock (n : PeerId) (order : IterOrder PeerId PeerInfo) (accepts : PeerId → Bool)
      (block : Block)
  | broadcastTransaction (n : PeerId) (order : IterOrder PeerId PeerInfo)
      (accepts : PeerId → Bool) (transaction : Transaction)
  | deliver (n : PeerId) (order : IterOrder PeerId PeerInfo) (accepts : PeerId → Bool)
      (message : NetworkMessage)
  | duplicate (n : PeerId) (message : NetworkMessage)
  | lose (n : PeerId) (message : NetworkMessage)

/-- Events at a node that is not part of the network, or of a message that is not in flight, do
not occur. -/
def step (c : Crypto) (nodes : Finset PeerId) (s : GossipNet) : Event → GossipNet
  | .broadcastBlock n order accepts block =>
    if n ∈ nodes then
      s.emit n (.newBlock block) accepts ((s.node n).broadcastBlock order block)
    else s
  | .broadcastTransaction n order accepts transaction =>
    if n ∈ nodes then
      s.emit n (.newTransaction transaction) accepts
        ((s.node n).broadcastTransaction c order transaction)
    else s
  | .deliver n order accepts message =>
    if n ∈ nodes ∧ (n, message) ∈ s.flight then
      { s with flight := s.flight.erase (n, message) }.emit n message accepts
        ((s.node n).handleGossipMessage c order message)
    else s
  | .duplicate n message =>
    if (n, message) ∈ s.flight then { s with flight := (n, message) ::ₘ s.flight } else s
  | .lose n message =>
    if (n, message) ∈ s.flight then
      { s with
        flight := s.flight.erase (n, message)
        lost := (n, message) ::ₘ s.lost }
    else s

def start (managers : PeerId → PeerManager) : GossipNet :=
  ⟨fun n => .new (managers n), 0, [], 0⟩

variable {c : Crypto} {nodes : Finset PeerId} {managers : PeerId → PeerManager} {s : GossipNet}

def peersOf (managers : PeerId → PeerManager) (n : PeerId) : Finset PeerId :=
  ⟨(managers n).getConnectedPeers PeerManager.byPeerId, PeerManager.nodup_getConnectedPeers _⟩

/-- The peer tables are as at the start, and every round reaches the connected peers once. -/
structure Follows (managers : PeerId → PeerManager) (s : GossipNet) : Prop where
  manager : ∀ n, (s.node n).peerManager = managers n
  receivers : ∀ r ∈ s.rounds, (r.receivers : Multiset PeerId) = (peersOf managers r.node).val

/-- The abstract flooding of a network. A message that is not gossiped counts as seen. -/
def toFlooding (s : GossipNet) :
    Flooding.State PeerId NetworkMessage (Option (GossipKind × Hash)) where
  seen n := {k | ∀ kind hash, k = some (kind, hash) → hash ∈ (s.node n).seen kind}
  flight := s.flight
  rounds := s.rounds.map fun r => (r.node, r.message)
  lost := s.lost

theorem seen_markSeen (g : GossipProtocol) (hash : Hash) (kind kind' : GossipKind) :
    (g.markSeen hash kind).seen kind' =
      if kind' = kind then insert hash (g.seen kind') else g.seen kind' := by
  cases kind <;> cases kind' <;> rfl

theorem toFlooding_start : (start managers).toFlooding = Flooding.State.start {none} := by
  have hseen : ∀ k : Option (GossipKind × Hash),
      (∀ kind hash, k = some (kind, hash) → hash ∈ (GossipProtocol.new (managers [])).seen kind) ↔
        k = none := by
    intro k
    cases k with
    | none => simp
    | some k =>
      obtain ⟨kind, hash⟩ := k
      cases kind <;> simp [GossipProtocol.new, GossipProtocol.seen]
  unfold toFlooding start Flooding.State.start
  congr 1
  funext n
  ext k
  exact hseen k

theorem toFlooding_emit {n : PeerId} {message : NetworkMessage} {kind : GossipKind} {hash : Hash}
    (hkey : message.gossipKey c = some (kind, hash)) (accepts : PeerId → Bool)
    (receivers : List PeerId) :
    (s.emit n message accepts (some receivers, (s.node n).markSeen hash kind)).toFlooding =
      s.toFlooding.relay (NetworkMessage.gossipKey c) n message (receivers.filter (accepts ·))
        (receivers.filter (! accepts ·)) := by
  unfold toFlooding emit Flooding.State.relay
  congr 1
  · funext n'
    by_cases hn : n' = n
    · subst hn
      simp only [Function.update_self, hkey, seen_markSeen]
      ext k
      rw [Set.mem_insert_iff]
      constructor
      · intro h
        by_cases hk : k = some (kind, hash)
        · exact Or.inl hk
        · right
          rintro kind' hash' rfl
          have hmem := h kind' hash' rfl
          split_ifs at hmem with hkind
          · rcases Finset.mem_insert.mp hmem with rfl | hmem
            · exact absurd (by rw [hkind]) hk
            · exact hmem
          · exact hmem
      · rintro (rfl | h) kind' hash' heq
        · obtain ⟨rfl, rfl⟩ := Prod.mk.inj (Option.some.inj heq)
          rw [if_pos rfl]
          exact Finset.mem_insert_self _ _
        · have hmem := h kind' hash' heq
          split_ifs
          · exact Finset.mem_insert_of_mem hmem
          · exact hmem
    · simp only [Function.update_of_ne hn]

theorem Follows.sends (h : s.Follows managers) (n : PeerId) (order : IterOrder PeerId PeerInfo)
    (accepts : PeerId → Bool) :
    let receivers := (s.node n).broadcastMessage order
    (receivers : Multiset PeerId) = (peersOf managers n).val ∧
      ((receivers.filter (accepts ·) : Multiset PeerId) +
        (receivers.filter (! accepts ·) : Multiset PeerId)) = (peersOf managers n).val := by
  have hall : ((s.node n).broadcastMessage order : Multiset PeerId) =
      (peersOf managers n).val := by
    rw [GossipProtocol.broadcastMessage, h.manager n]
    exact Multiset.coe_eq_coe.mpr (PeerManager.perm_getConnectedPeers order _)
  refine ⟨hall, ?_⟩
  rw [Multiset.coe_add, ← hall]
  exact Multiset.coe_eq_coe.mpr (List.filter_append_perm _ _)

theorem emit_none (n : PeerId) (message : NetworkMessage) (accepts : PeerId → Bool) :
    s.emit n message accepts (none, s.node n) = s := by
  unfold emit
  rw [Function.update_eq_self]

theorem mem_toFlooding_seen {n : PeerId} {kind : GossipKind} {hash : Hash} :
    some (kind, hash) ∈ s.toFlooding.seen n ↔ hash ∈ (s.node n).seen kind := by
  constructor
  · intro h
    exact h kind hash rfl
  · intro h kind' hash' heq
    obtain ⟨rfl, rfl⟩ := Prod.mk.inj (Option.some.inj heq)
    exact h

theorem Follows.relay (h : s.Follows managers) {n : PeerId} {message : NetworkMessage}
    {kind : GossipKind} {hash : Hash} (hkey : message.gossipKey c = some (kind, hash))
    (order : IterOrder PeerId PeerInfo) (accepts : PeerId → Bool) :
    let s' := s.emit n message accepts ((s.node n).relay order kind hash)
    s'.Follows managers ∧
      (s' = s ∧ message.gossipKey c ∈ s.toFlooding.seen n ∨
        message.gossipKey c ∉ s.toFlooding.seen n ∧
          ∃ accepted refused, accepted + refused = (peersOf managers n).val ∧
            s'.toFlooding = s.toFlooding.relay (NetworkMessage.gossipKey c) n message
              accepted refused) := by
  rw [hkey, mem_toFlooding_seen]
  unfold GossipProtocol.relay
  by_cases hseen : hash ∈ (s.node n).seen kind
  · rw [if_pos hseen, emit_none]
    exact ⟨h, Or.inl ⟨rfl, hseen⟩⟩
  · rw [if_neg hseen]
    have hmanager : ((s.node n).markSeen hash kind).peerManager = (s.node n).peerManager := by
      cases kind <;> rfl
    have hsends : ((s.node n).markSeen hash kind).broadcastMessage order =
        (s.node n).broadcastMessage order := by
      rw [GossipProtocol.broadcastMessage, hmanager]
      rfl
    simp only [hsends]
    obtain ⟨hall, hsplit⟩ := h.sends n order accepts
    refine ⟨⟨?_, ?_⟩, Or.inr ⟨hseen, _, _, hsplit, toFlooding_emit hkey accepts _⟩⟩
    · intro n'
      change (Function.update s.node n _ n').peerManager = managers n'
      by_cases hn : n' = n
      · rw [hn, Function.update_self, hmanager, h.manager]
      · rw [Function.update_of_ne hn, h.manager]
    · intro r hr
      rcases List.mem_cons.mp hr with rfl | hr
      · exact hall
      · exact h.receivers r hr

theorem Follows.originate (h : s.Follows managers) {n : PeerId} (hn : n ∈ nodes)
    {message : NetworkMessage} {kind : GossipKind} {hash : Hash}
    (hkey : message.gossipKey c = some (kind, hash)) (order : IterOrder PeerId PeerInfo)
    (accepts : PeerId → Bool) :
    let s' := s.emit n message accepts ((s.node n).relay order kind hash)
    s'.Follows managers ∧ Flooding.Step (NetworkMessage.gossipKey c) (peersOf managers) nodes
      s.toFlooding s'.toFlooding := by
  obtain ⟨hfollows, ⟨hsame, -⟩ | ⟨hnew, accepted, refused, hsends, hround⟩⟩ :=
    h.relay hkey order accepts
  · refine ⟨hfollows, ?_⟩
    simp only [hsame]
    exact .idle
  · refine ⟨hfollows, ?_⟩
    simp only [hround]
    exact .originate n message accepted refused hn hnew hsends

theorem Follows.deliver (h : s.Follows managers) {n : PeerId} (hn : n ∈ nodes)
    {message : NetworkMessage} (hflight : (n, message) ∈ s.flight)
    (order : IterOrder PeerId PeerInfo) (accepts : PeerId → Bool) :
    let s' := { s with flight := s.flight.erase (n, message) }.emit n message accepts
      ((s.node n).handleGossipMessage c order message)
    s'.Follows managers ∧ Flooding.Step (NetworkMessage.gossipKey c) (peersOf managers) nodes
      s.toFlooding s'.toFlooding := by
  let taken := { s with flight := s.flight.erase (n, message) }
  have htaken : taken.Follows managers := ⟨h.manager, h.receivers⟩
  cases hkey : message.gossipKey c with
  | none =>
    have hother : (s.node n).handleGossipMessage c order message = (none, taken.node n) := by
      cases message <;> first | rfl | cases hkey
    have hsame : taken.emit n message accepts (none, taken.node n) = taken := emit_none _ _ _
    rw [hother]
    change (taken.emit n message accepts (none, taken.node n)).Follows managers ∧ _
    rw [hsame]
    refine ⟨htaken, .discard n message ?_⟩
    rw [hkey]
    rintro kind hash ⟨⟩
  | some key =>
    obtain ⟨kind, hash⟩ := key
    have hcall : (s.node n).handleGossipMessage c order message =
        (taken.node n).relay order kind hash := by
      cases message <;> first | cases hkey; rfl | cases hkey
    rw [hcall]
    obtain ⟨hfollows, ⟨hsame, hseen⟩ | ⟨hnew, accepted, refused, hsends, hround⟩⟩ :=
      htaken.relay hkey order accepts
    all_goals
      refine ⟨hfollows, ?_⟩
      change Flooding.Step _ _ _ _
        (taken.emit n message accepts ((taken.node n).relay order kind hash)).toFlooding
    · rw [hsame]
      exact .discard n message hseen
    · rw [hround]
      exact .forward n message accepted refused hn hflight hnew hsends

variable (c nodes) in
/-- Every event of the network is a step of the flooding. -/
theorem Follows.step (h : s.Follows managers) (e : Event) :
    (GossipNet.step c nodes s e).Follows managers ∧
      Flooding.Step (NetworkMessage.gossipKey c) (peersOf managers) nodes s.toFlooding
        (GossipNet.step c nodes s e).toFlooding := by
  cases e with
  | broadcastBlock n order accepts block =>
    simp only [GossipNet.step]
    split_ifs with hn
    · exact @Follows.originate c nodes managers s h n hn (.newBlock block) _ _ rfl order accepts
    · exact ⟨h, .idle⟩
  | broadcastTransaction n order accepts transaction =>
    simp only [GossipNet.step]
    split_ifs with hn
    · exact @Follows.originate c nodes managers s h n hn (.newTransaction transaction) _ _ rfl order
        accepts
    · exact ⟨h, .idle⟩
  | deliver n order accepts message =>
    simp only [GossipNet.step]
    split_ifs with hn
    · exact h.deliver hn.1 hn.2 order accepts
    · exact ⟨h, .idle⟩
  | duplicate n message =>
    simp only [GossipNet.step]
    split_ifs with hflight
    · exact ⟨⟨h.manager, h.receivers⟩, .duplicate n message hflight⟩
    · exact ⟨h, .idle⟩
  | lose n message =>
    simp only [GossipNet.step]
    split_ifs
    · exact ⟨⟨h.manager, h.receivers⟩, .lose n message⟩
    · exact ⟨h, .idle⟩

variable (c nodes) in
theorem Follows.run (h : s.Follows managers) (es : List Event) :
    (es.foldl (GossipNet.step c nodes) s).Follows managers ∧
      Relation.ReflTransGen (Flooding.Step (NetworkMessage.gossipKey c) (peersOf managers) nodes)
        s.toFlooding (es.foldl (GossipNet.step c nodes) s).toFlooding := by
  induction es generalizing s with
  | nil => exact ⟨h, .refl⟩
  | cons e es ih =>
    obtain ⟨hfollows, hstep⟩ := h.step c nodes e
    exact ⟨(ih hfollows).1, .head hstep (ih hfollows).2⟩

theorem follows_start (managers : PeerId → PeerManager) : (start managers).Follows managers :=
  ⟨fun _ => rfl, by simp [start]⟩

/-- Under every run a node makes one round a hash at most, each round sends once to every connected
peer, and the sends for a hash are at most the sum of the degrees. Where no message with the hash
is in flight and none was refused or lost, the hash has reached every peer of a node that has seen
it. -/
theorem gossip_exactly_once (c : Crypto) (nodes : Finset PeerId)
    (managers : PeerId → PeerManager) (es : List Event) (kind : GossipKind) (hash : Hash) :
    let s := es.foldl (step c nodes) (start managers)
    let key := NetworkMessage.gossipKey c
    (∀ n, (s.rounds.filter fun r => r.node = n ∧ key r.message = some (kind, hash)).length ≤ 1) ∧
      (∀ r ∈ s.rounds, r.receivers.Nodup ∧
        ∀ p, p ∈ r.receivers ↔ (managers r.node).Connected p) ∧
      ((s.rounds.filter fun r => key r.message = some (kind, hash)).map
        (·.receivers.length)).sum ≤ ∑ n ∈ nodes, (peersOf managers n).card ∧
      ((∀ x ∈ s.flight, key x.2 ≠ some (kind, hash)) →
        (∀ x ∈ s.lost, key x.2 ≠ some (kind, hash)) →
        ∀ n p, hash ∈ (s.node n).seen kind → (managers n).Connected p →
          hash ∈ (s.node p).seen kind) := by
  intro s key
  obtain ⟨hfollows, hrun⟩ : s.Follows managers ∧ _ :=
    (follows_start managers).run c nodes es
  rw [toFlooding_start] at hrun
  have hinv := Flooding.Reachable.inv hrun
  refine ⟨?_, ?_, ?_, ?_⟩
  · intro n
    have hone := hinv.rounds_le_one n (some (kind, hash))
    simpa [toFlooding, List.filter_map, Function.comp_def] using hone
  · intro r hr
    have hall := hfollows.receivers r hr
    refine ⟨?_, ?_⟩
    · rw [← Multiset.coe_nodup, hall]
      exact (peersOf managers r.node).nodup
    · intro p
      rw [← Multiset.mem_coe, hall]
      exact PeerManager.mem_getConnectedPeers _
  · have hsends := hinv.sends_le (some (kind, hash))
    refine le_trans (le_of_eq ?_) hsends
    rw [toFlooding, List.filter_map, List.map_map]
    congr 1
    apply List.map_congr_left
    intro r hr
    have hall := hfollows.receivers r (List.mem_filter.mp hr).1
    exact congrArg Multiset.card hall
  · intro hflight hlost n p hn hp
    have hpeer : p ∈ peersOf managers n := (PeerManager.mem_getConnectedPeers _).mpr hp
    rw [← mem_toFlooding_seen] at hn ⊢
    exact hinv.closed hflight hlost (by simp) hn hpeer

section Sample

def sampleManager (p : PeerId) : PeerManager :=
  (PeerManager.new 10).insertPeer ⟨p, "addr", 0, true, 0, 100⟩

def sampleManagers (n : PeerId) : PeerManager := sampleManager (if n = [1] then [2] else [1])

def sampleBlock : Block where
  hash := Bytes.fill 32 7
  header :=
    { parentHashes := [], timestamp := 0, nonce := 0, difficulty := 0, baseFee := 0,
      stateRoot := Bytes.zero 32, version := 1, blueScore := 0, selectedParent := none,
      chainHeight := 0, topoIndex := 0 }
  transactions := []
  producer := Bytes.zero 20
  reward := 100
  height := 0

def sampleTransfer : Transaction :=
  .newTransfer (Bytes.fill 20 1) (Bytes.fill 20 2) 100 0 21000 1

/-- Two nodes that know each other: a block goes from the first to the second and back, and a
transaction from the second to the first and back. -/
def sampleEvents : List Event :=
  [.broadcastBlock [1] PeerManager.byPeerId (fun _ => true) sampleBlock,
    .deliver [2] PeerManager.byPeerId (fun _ => true) (.newBlock sampleBlock),
    .deliver [1] PeerManager.byPeerId (fun _ => true) (.newBlock sampleBlock),
    .broadcastTransaction [2] PeerManager.byPeerId (fun _ => true) sampleTransfer,
    .deliver [1] PeerManager.byPeerId (fun _ => true) (.newTransaction sampleTransfer),
    .deliver [2] PeerManager.byPeerId (fun _ => true) (.newTransaction sampleTransfer)]

def sampleNet : GossipNet := sampleEvents.foldl (step .hashOnly {[1], [2]}) (start sampleManagers)

set_option maxRecDepth 20000 in
theorem sampleNet_evaluated :
    (sampleNet.flight = 0 ∧ sampleNet.lost = 0) ∧
      (sampleBlock.hash ∈ (sampleNet.node [1]).seen .block ∧
        sampleTransfer.hash .hashOnly ∈ (sampleNet.node [2]).seen .transaction) ∧
      sampleNet.rounds.map (fun r => (r.node, r.receivers)) =
        [([1], [[2]]), ([2], [[1]]), ([2], [[1]]), ([1], [[2]])] := by
  unfold sampleNet
  rw [Crypto.hashOnly_eq_strict]
  decide +kernel

set_option maxRecDepth 20000 in
theorem gossip_exactly_once_sample :
    sampleNet.rounds.map (fun r => (r.node, r.receivers)) =
        [([1], [[2]]), ([2], [[1]]), ([2], [[1]]), ([1], [[2]])] ∧
      sampleBlock.hash ∈ (sampleNet.node [2]).seen .block ∧
      sampleTransfer.hash .hashOnly ∈ (sampleNet.node [1]).seen .transaction := by
  obtain ⟨⟨hflight, hlost⟩, ⟨hblock, htransfer⟩, hrounds⟩ := sampleNet_evaluated
  have hflight' : ∀ key, ∀ x ∈ sampleNet.flight, x.2.gossipKey .hashOnly ≠ some key := by
    rw [hflight]
    exact fun _ x hx => absurd hx (Multiset.notMem_zero x)
  have hlost' : ∀ key, ∀ x ∈ sampleNet.lost, x.2.gossipKey .hashOnly ≠ some key := by
    rw [hlost]
    exact fun _ x hx => absurd hx (Multiset.notMem_zero x)
  have hfirst : (sampleManagers [1]).Connected [2] :=
    ⟨⟨[2], "addr", 0, true, 0, 100⟩, by decide, rfl⟩
  have hsecond : (sampleManagers [2]).Connected [1] :=
    ⟨⟨[1], "addr", 0, true, 0, 100⟩, by decide, rfl⟩
  obtain ⟨-, -, -, hclosed⟩ := gossip_exactly_once .hashOnly {[1], [2]} sampleManagers sampleEvents
    .block sampleBlock.hash
  obtain ⟨-, -, -, hclosed'⟩ := gossip_exactly_once .hashOnly {[1], [2]} sampleManagers
    sampleEvents .transaction (sampleTransfer.hash .hashOnly)
  exact ⟨hrounds, hclosed (hflight' _) (hlost' _) [1] [2] hblock hfirst,
    hclosed' (hflight' _) (hlost' _) [2] [1] htransfer hsecond⟩

end Sample

end GossipNet

end CytahSpeed
