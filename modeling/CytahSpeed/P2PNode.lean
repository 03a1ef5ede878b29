import CytahSpeed.DagSync
import CytahSpeed.HeaderPaging

/-!
# The node on the network

Gossip and synchronisation share one peer table, and the synchronisation writes the DAG that the
rest of the node uses. Whatever they send is published on one topic, so every node may receive it,
late, again or never. Nobody answers a request for a block or for a DAG, and the two requests that
would be answered are sent by nobody: on a network of such nodes no block comes in except through
gossip, which does not insert it, and a hash that was once missing is pending for ever.
-/

namespace CytahSpeed
open ByteString FiniteMap

structure P2PNode where
  peerManager : PeerManager
  seenBlocks : Finset BlockHash
  seenTransactions : Finset TxId
  dag : BlockDag
  pendingRequests : Finset BlockHash

/-- What a call meets: the order in which peers are iterated, the sends that the channel takes, the
state as `bincode` serialises it, and clock and database for every block of a response. -/
structure Surroundings where
  order : IterOrder PeerId PeerInfo
  accepts : PeerId → NetworkMessage → Bool
  snapshot : Except String (List UInt8)
  arrival : ℕ → ℕ × CallEnv

namespace P2PNode

variable (c : Crypto) (n : P2PNode) (around : Surroundings)

def gossip : GossipProtocol := ⟨n.peerManager, n.seenBlocks, n.seenTransactions⟩

def syncManager : SyncManager := ⟨n.dag, n.peerManager, n.pendingRequests⟩

def withGossip (g : GossipProtocol) : P2PNode :=
  { n with seenBlocks := g.seenBlocks, seenTransactions := g.seenTransactions }

def withSync (s : SyncManager) : P2PNode :=
  { n with dag := s.dag, pendingRequests := s.pendingRequests }

def accepted (sends : List (PeerId × NetworkMessage)) : List (PeerId × NetworkMessage) :=
  sends.filter fun m => around.accepts m.1 m.2

def gossiped (message : NetworkMessage) (result : Option (List PeerId) × GossipProtocol) :
    P2PNode × List (PeerId × NetworkMessage) :=
  (n.withGossip result.2, accepted around ((result.1.getD []).map (·, message)))

/-- The block requests that were sent; marking a hash as pending sends nothing. -/
def requests (effects : List Effect) : List (PeerId × NetworkMessage) :=
  effects.filterMap fun
    | .sent peer hash => some (peer, .requestBlock hash)
    | .marked _ => none

def received (blocks : List Block) : List Received :=
  blocks.zipIdx.map fun e => ⟨(around.arrival e.2).1, (around.arrival e.2).2, e.1⟩

def handleSyncMessage (peer : PeerId) (message : NetworkMessage) :
    P2PNode × List (PeerId × NetworkMessage) :=
  let r := n.syncManager.handleMessage around.order
    (fun hash p => around.accepts p (.requestBlock hash)) around.snapshot peer message
  (n.withSync r.2.1, requests r.2.2.1 ++ accepted around r.2.2.2.toList)

/-- A request for a block is only logged, one for the DAG inserts an empty response, and of a
snapshot only the root is compared. -/
def handleNetworkMessage (peer : PeerId) (message : NetworkMessage) :
    P2PNode × List (PeerId × NetworkMessage) :=
  match message with
  | .newBlock _ | .newTransaction _ =>
    n.gossiped around message (n.gossip.handleGossipMessage c around.order message)
  | .requestBlock _ => (n, [])
  | .requestDag => (n.withSync (n.syncManager.handleDagResponse c []).2, [])
  | .dagResponse blocks =>
    (n.withSync (n.syncManager.handleDagResponse c (received around blocks)).2, [])
  | .getHeaders _ _ | .getBlocks _ | .requestState => n.handleSyncMessage around peer message
  | .headers headers =>
    let r := n.syncManager.handleHeaders around.order
      (fun hash p => around.accepts p (.requestBlock hash)) headers
    (n.withSync r.2.1, requests r.2.2)
  | .blocks blocks =>
    (n.withSync ((received around blocks).foldl (fun s r => (s.handleBlockResponse c (some r)).2)
      n.syncManager), [])
  | .stateSnapshot _ => (n, [])

/-- The first of the sync peers is asked for its DAG. -/
def startSync : List (PeerId × NetworkMessage) :=
  accepted around ((n.peerManager.getSyncPeers around.order 1).head?.toList.map (·, .requestDag))

/-- Three sync peers are asked for headers. The set of missing hashes that is returned is never
filled. -/
def detectMissingBlocks : List BlockHash × List (PeerId × NetworkMessage) :=
  ([], accepted around ((n.peerManager.getSyncPeers around.order 3).map
    (·, .getHeaders (Bytes.zero 32) 1000)))

def isSynced : Bool := n.pendingRequests = ∅

/-- One turn of the loop of `periodic_sync_check`. -/
def periodicSyncCheck : P2PNode × List (PeerId × NetworkMessage) :=
  if n.isSynced then
    let (missing, sends) := n.detectMissingBlocks around
    if missing.isEmpty then (n, sends)
    else
      let r := n.syncManager.requestMissingBlocks around.order
        (fun hash p => around.accepts p (.requestBlock hash)) missing
      (n.withSync r.2.1, sends ++ requests r.2.2)
  else (n, [])

def broadcastBlock (block : Block) : P2PNode × List (PeerId × NetworkMessage) :=
  n.gossiped around (.newBlock block) (n.gossip.broadcastBlock around.order block)

def broadcastTransaction (transaction : Transaction) : P2PNode × List (PeerId × NetworkMessage) :=
  n.gossiped around (.newTransaction transaction)
    (n.gossip.broadcastTransaction c around.order transaction)

end P2PNode

/-- The nodes, and everything published so far with its publisher. -/
structure P2PNet where
  node : PeerId → P2PNode
  published : List (PeerId × NetworkMessage)

namespace P2PNet

/-- The calls of a node's tasks, a message that arrives, and what the swarm and the rest of the
node do to the peer table and the DAG. -/
inductive Event
  | startSync (id : PeerId) (around : Surroundings)
  | periodicSyncCheck (id : PeerId) (around : Surroundings)
  | broadcastBlock (id : PeerId) (around : Surroundings) (block : Block)
  | broadcastTransaction (id : PeerId) (around : Surroundings) (transaction : Transaction)
  | deliver (id : PeerId) (around : Surroundings) (source : PeerId) (message : NetworkMessage)
  | cleanupSeen (id : PeerId)
  | peersChange (id : PeerId) (peerManager : PeerManager)
  | dagChange (id : PeerId) (dag : BlockDag)

/-- The node after a call, and its sends on the topic; the receiver of a send is not kept. -/
def publish (s : P2PNet) (id : PeerId) (r : P2PNode × List (PeerId × NetworkMessage)) : P2PNet :=
  ⟨Function.update s.node id r.1, s.published ++ r.2.map fun m => (id, m.2)⟩

/-- Only a message that was published arrives. -/
def step (c : Crypto) (s : P2PNet) : Event → P2PNet
  | .startSync id around => s.publish id (s.node id, (s.node id).startSync around)
  | .periodicSyncCheck id around => s.publish id ((s.node id).periodicSyncCheck around)
  | .broadcastBlock id around block => s.publish id ((s.node id).broadcastBlock around block)
  | .broadcastTransaction id around transaction =>
    s.publish id ((s.node id).broadcastTransaction c around transaction)
  | .deliver id around source message =>
    if (source, message) ∈ s.published then
      s.publish id ((s.node id).handleNetworkMessage c around source message)
    else s
  | .cleanupSeen id =>
    s.publish id ({ s.node id with seenBlocks := ∅, seenTransactions := ∅ }, [])
  | .peersChange id peerManager => s.publish id ({ s.node id with peerManager }, [])
  | .dagChange id dag => s.publish id ({ s.node id with dag }, [])

def run (c : Crypto) (s : P2PNet) (es : List Event) : P2PNet := es.foldl (step c) s

end P2PNet

/-- The messages that bring blocks or a state, and the requests that would be answered with them. -/
def NetworkMessage.Serves : NetworkMessage → Prop
  | .dagResponse _ | .getBlocks _ | .blocks _ | .requestState | .stateSnapshot _ => True
  | _ => False

namespace P2PNode

/-- A call leaves the DAG, forgets no pending hash and sends nothing that serves. -/
structure Keeps (n : P2PNode) (r : P2PNode × List (PeerId × NetworkMessage)) : Prop where
  dag : r.1.dag = n.dag
  pending : n.pendingRequests ⊆ r.1.pendingRequests
  sends : ∀ m ∈ r.2, ¬ m.2.Serves

section Calls
variable {c : Crypto} {n : P2PNode} {around : Surroundings}

theorem keeps_sends {sends : List (PeerId × NetworkMessage)} (h : ∀ m ∈ sends, ¬ m.2.Serves) :
    Keeps n (n, sends) :=
  ⟨rfl, Finset.Subset.refl _, h⟩

theorem mem_accepted {sends : List (PeerId × NetworkMessage)} {m : PeerId × NetworkMessage}
    (h : m ∈ accepted around sends) : m ∈ sends :=
  (List.mem_filter.mp h).1

theorem serves_of_mem_requests {effects : List Effect} {m : PeerId × NetworkMessage}
    (h : m ∈ requests effects) : ¬ m.2.Serves := by
  obtain ⟨e, -, he⟩ := List.mem_filterMap.mp h
  cases e with
  | marked hash => cases he
  | sent peer hash =>
    cases he
    exact not_false

theorem keeps_gossiped (message : NetworkMessage) (h : ¬ message.Serves)
    (result : Option (List PeerId) × GossipProtocol) :
    Keeps n (n.gossiped around message result) := by
  refine ⟨rfl, Finset.Subset.refl _, ?_⟩
  intro m hm
  obtain ⟨p, -, rfl⟩ := List.mem_map.mp (mem_accepted hm)
  exact h

theorem keeps_requestMissingBlocks (accepts : BlockHash → PeerId → Bool)
    (hashes : List BlockHash) (sends : List (PeerId × NetworkMessage))
    (h : ∀ m ∈ sends, ¬ m.2.Serves) :
    Keeps n (n.withSync (n.syncManager.requestMissingBlocks around.order accepts hashes).2.1,
      sends ++ requests (n.syncManager.requestMissingBlocks around.order accepts hashes).2.2) := by
  refine ⟨rfl, SyncManager.subset_requestLoop _ _ _, ?_⟩
  intro m hm
  rcases List.mem_append.mp hm with hm | hm
  · exact h m hm
  · exact serves_of_mem_requests hm

theorem keeps_handleHeaders (accepts : BlockHash → PeerId → Bool)
    (headers : List (BlockHash × BlockHeader)) :
    Keeps n (n.withSync (n.syncManager.handleHeaders around.order accepts headers).2.1,
      requests (n.syncManager.handleHeaders around.order accepts headers).2.2) := by
  unfold SyncManager.handleHeaders
  dsimp only
  split
  · exact keeps_sends fun m hm => serves_of_mem_requests hm
  · exact keeps_requestMissingBlocks accepts _ [] (by simp)

theorem keeps_handleNetworkMessage {message : NetworkMessage} (h : ¬ message.Serves)
    (peer : PeerId) : Keeps n (n.handleNetworkMessage c around peer message) := by
  cases message with
  | newBlock block => exact keeps_gossiped _ h _
  | newTransaction tx => exact keeps_gossiped _ h _
  | requestBlock hash => exact keeps_sends (by simp)
  | requestDag => exact ⟨rfl, Finset.Subset.refl _, by simp [handleNetworkMessage]⟩
  | dagResponse blocks => exact absurd trivial h
  | getHeaders fromHash max =>
    refine ⟨rfl, Finset.Subset.refl _, ?_⟩
    intro m hm
    have hreply := List.mem_singleton.mp (mem_accepted hm)
    rw [hreply]
    exact not_false
  | headers headers => exact keeps_handleHeaders _ headers
  | getBlocks hashes => exact absurd trivial h
  | blocks blocks => exact absurd trivial h
  | requestState => exact absurd trivial h
  | stateSnapshot data => exact absurd trivial h

theorem keeps_startSync (n : P2PNode) (around : Surroundings) :
    Keeps n (n, n.startSync around) := by
  apply keeps_sends
  intro m hm
  obtain ⟨p, -, rfl⟩ := List.mem_map.mp (mem_accepted hm)
  exact not_false

theorem keeps_periodicSyncCheck (n : P2PNode) (around : Surroundings) :
    Keeps n (n.periodicSyncCheck around) := by
  unfold periodicSyncCheck detectMissingBlocks
  split
  · apply keeps_sends
    intro m hm
    obtain ⟨p, -, rfl⟩ := List.mem_map.mp (mem_accepted hm)
    exact not_false
  · exact keeps_sends (by simp)

end Calls

end P2PNode

namespace P2PNet

/-- The DAGs that the rest of a node has put in place, in the order of the events. -/
def ownDags (id : PeerId) (es : List Event) : List BlockDag :=
  es.filterMap fun
    | .dagChange id' dag => if id' = id then some dag else none
    | _ => none

section Step
variable {c : Crypto} {s : P2PNet}

def Quiet (s : P2PNet) : Prop := ∀ m ∈ s.published, ¬ m.2.Serves

theorem quiet_publish {id : PeerId} {r : P2PNode × List (PeerId × NetworkMessage)} (h : s.Quiet)
    (hr : ∀ m ∈ r.2, ¬ m.2.Serves) : (s.publish id r).Quiet := by
  intro m hm
  rcases List.mem_append.mp hm with hm | hm
  · exact h m hm
  · obtain ⟨sent, hsent, rfl⟩ := List.mem_map.mp hm
    exact hr sent hsent

/-- What one event does to one node: a DAG of its own, or none but the old one; and no pending
hash is forgotten. -/
structure NodeStep (s s' : P2PNet) (e : Event) (id : PeerId) : Prop where
  dag : (s'.node id).dag = (ownDags id [e]).getLast?.getD (s.node id).dag
  pending : (s.node id).pendingRequests ⊆ (s'.node id).pendingRequests

theorem nodeStep_publish {e : Event} {id : PeerId} {r : P2PNode × List (PeerId × NetworkMessage)}
    (h : (s.node id).Keeps r) (hown : ∀ id', ownDags id' [e] = []) (id' : PeerId) :
    NodeStep s (s.publish id r) e id' := by
  have hnode : (s.publish id r).node id' = if id' = id then r.1 else s.node id' :=
    Function.update_apply _ _ _ _
  constructor
  · rw [hown, hnode]
    by_cases hid : id' = id
    · rw [if_pos hid, h.dag, hid]
      rfl
    · rw [if_neg hid]
      rfl
  · rw [hnode]
    by_cases hid : id' = id
    · rw [if_pos hid, hid]
      exact h.pending
    · rw [if_neg hid]

/-- On a quiet network every event keeps the network quiet, and every node as `NodeStep` says. -/
theorem step_spec (h : s.Quiet) (e : Event) :
    (step c s e).Quiet ∧ ∀ id, NodeStep s (step c s e) e id := by
  have hkeeps : ∀ {id r}, (s.node id).Keeps r → (∀ id', ownDags id' [e] = []) →
      (s.publish id r).Quiet ∧ ∀ id', NodeStep s (s.publish id r) e id' :=
    fun hk hown => ⟨quiet_publish h hk.sends, nodeStep_publish hk hown⟩
  cases e with
  | startSync id around => exact hkeeps (P2PNode.keeps_startSync _ around) fun _ => rfl
  | periodicSyncCheck id around =>
    exact hkeeps (P2PNode.keeps_periodicSyncCheck _ around) fun _ => rfl
  | broadcastBlock id around block =>
    exact hkeeps (P2PNode.keeps_gossiped (.newBlock block) not_false _) fun _ => rfl
  | broadcastTransaction id around transaction =>
    exact hkeeps (P2PNode.keeps_gossiped (.newTransaction transaction) not_false _) fun _ => rfl
  | deliver id around source message =>
    dsimp only [step]
    by_cases hmem : (source, message) ∈ s.published
    · rw [if_pos hmem]
      exact hkeeps (P2PNode.keeps_handleNetworkMessage (h _ hmem) source) fun _ => rfl
    · rw [if_neg hmem]
      exact ⟨h, fun id' => ⟨rfl, Finset.Subset.refl _⟩⟩
  | cleanupSeen id => exact hkeeps ⟨rfl, Finset.Subset.refl _, by simp⟩ fun _ => rfl
  | peersChange id peerManager => exact hkeeps ⟨rfl, Finset.Subset.refl _, by simp⟩ fun _ => rfl
  | dagChange id dag =>
    refine ⟨quiet_publish h (by simp), ?_⟩
    intro id'
    have hnode : (step c s (.dagChange id dag)).node id' =
        if id' = id then { s.node id with dag } else s.node id' := Function.update_apply _ _ _ _
    have hown : ownDags id' [.dagChange id dag] = if id = id' then [dag] else [] := by
      unfold ownDags
      by_cases hid : id = id' <;> simp [hid]
    by_cases hid : id' = id
    · constructor
      · rw [hnode, if_pos hid, hown, if_pos hid.symm]
        rfl
      · rw [hnode, if_pos hid, hid]
    · constructor
      · rw [hnode, if_neg hid, hown, if_neg (Ne.symm hid)]
        rfl
      · rw [hnode, if_neg hid]

theorem ownDags_cons (id : PeerId) (e : Event) (es : List Event) :
    ownDags id (e :: es) = ownDags id [e] ++ ownDags id es :=
  List.filterMap_append (l := [e])

theorem getLast?_append_getD {α : Type*} (l l' : List α) (a : α) :
    (l ++ l').getLast?.getD a = l'.getLast?.getD (l.getLast?.getD a) := by
  rw [List.getLast?_append]
  cases l'.getLast? <;> rfl

theorem run_spec (h : s.Quiet) (es : List Event) :
    (run c s es).Quiet ∧ ∀ id,
      ((run c s es).node id).dag = (ownDags id es).getLast?.getD (s.node id).dag ∧
        (s.node id).pendingRequests ⊆ ((run c s es).node id).pendingRequests := by
  induction es generalizing s with
  | nil => exact ⟨h, fun id => ⟨rfl, Finset.Subset.refl _⟩⟩
  | cons e es ih =>
    obtain ⟨hquiet, hstep⟩ := step_spec (c := c) h e
    obtain ⟨hend, hnodes⟩ := ih hquiet
    refine ⟨hend, ?_⟩
    intro id
    obtain ⟨hdag, hpending⟩ := hnodes id
    constructor
    · rw [ownDags_cons, getLast?_append_getD, ← (hstep id).dag]
      exact hdag
    · exact (hstep id).pending.trans hpending

end Step

/-- However the calls and deliveries interleave on a network where nothing was sent before: no
block, DAG or state is ever served, every node has the DAG that its own node put there last, and a
hash that was pending at some time stays pending, so that the node never counts as synced again. -/
theorem network_serves_nothing (c : Crypto) (s : P2PNet) (hstart : s.published = [])
    (es : List Event) :
    (∀ m ∈ (run c s es).published, ¬ m.2.Serves) ∧
      (∀ id, ((run c s es).node id).dag = (ownDags id es).getLast?.getD (s.node id).dag) ∧
      ∀ pre post, es = pre ++ post → ∀ id, ((run c s pre).node id).isSynced = false →
        ((run c s es).node id).isSynced = false := by
  have hquiet : s.Quiet := by simp [Quiet, hstart]
  obtain ⟨hend, hnodes⟩ := run_spec (c := c) hquiet es
  refine ⟨hend, fun id => (hnodes id).1, ?_⟩
  rintro pre post rfl id hpending
  have hlater := ((run_spec (c := c) (run_spec (c := c) hquiet pre).1 post).2 id).2
  unfold P2PNode.isSynced at hpending ⊢
  rw [decide_eq_false_iff_not] at hpending ⊢
  intro hempty
  unfold run at hempty hlater
  rw [List.foldl_append] at hempty
  rw [hempty, Finset.subset_empty] at hlater
  exact hpending hlater

section Sample

def sampleSurroundings : Surroundings :=
  ⟨PeerManager.byPeerId, fun _ _ => true, .ok [], fun _ => (1000, ⟨1000, none⟩)⟩

def sampleNet : P2PNet where
  node id := ⟨GossipNet.sampleManagers id, ∅, ∅,
    if id = [1] then BlockDag.empty.commit GossipNet.sampleBlock else .empty, ∅⟩
  published := []

def sampleAsked : List Event :=
  [.periodicSyncCheck [2] sampleSurroundings,
    .deliver [1] sampleSurroundings [2] (.getHeaders (Bytes.zero 32) 1000),
    .deliver [2] sampleSurroundings [1]
      (.headers [(GossipNet.sampleBlock.hash, GossipNet.sampleBlock.header)])]

/-- It asks for the block, and every later check finds it waiting. -/
theorem network_serves_nothing_sample :
    let later := sampleAsked ++ [.deliver [1] sampleSurroundings [2]
      (.requestBlock GossipNet.sampleBlock.hash), .periodicSyncCheck [2] sampleSurroundings]
    ([2], .requestBlock GossipNet.sampleBlock.hash) ∈
        (run .hashOnly sampleNet later).published ∧
      ((run .hashOnly sampleNet later).node [2]).dag = .empty ∧
      ((run .hashOnly sampleNet later).node [2]).isSynced = false := by
  intro later
  obtain ⟨-, hdag, hpending⟩ := network_serves_nothing .hashOnly sampleNet rfl later
  have hasked : ([2], .requestBlock GossipNet.sampleBlock.hash) ∈
      (run .hashOnly sampleNet later).published := by decide +kernel
  refine ⟨hasked, hdag [2], ?_⟩
  exact hpending sampleAsked _ rfl [2] (by decide +kernel)

end Sample

end P2PNet

end CytahSpeed
