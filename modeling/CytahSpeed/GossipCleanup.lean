import CytahSpeed.Forgetting
import CytahSpeed.Gossip

/-!
# The clean-up of gossip

Beside the gossip a task empties both sets of seen hashes every five minutes, whatever the age of
the hashes in them. What the sets are for, that a hash is sent once, then holds between two
clean-ups of a node only, and a message that is still under way after one starts a flooding anew.
-/

namespace CytahSpeed
open ByteString FiniteMap

/-- One turn of the loop of `cleanup_seen_messages`. -/
def GossipProtocol.cleanupSeenMessages (g : GossipProtocol) : GossipProtocol :=
  { g with seenBlocks := ∅, seenTransactions := ∅ }

namespace GossipNet

inductive Turn
  | call (e : Event)
  | cleanup (n : PeerId)

def Turn.cleaned : Turn → Option PeerId
  | .call _ => none
  | .cleanup n => some n

def turn (c : Crypto) (nodes : Finset PeerId) (s : GossipNet) : Turn → GossipNet
  | .call e => s.step c nodes e
  | .cleanup n => { s with node := Function.update s.node n (s.node n).cleanupSeenMessages }

def turns (c : Crypto) (nodes : Finset PeerId) (s : GossipNet) (ts : List Turn) : GossipNet :=
  ts.foldl (turn c nodes) s

def cleanups (ts : List Turn) (n : PeerId) : ℕ :=
  Flooding.forgotten (ts.map Turn.cleaned) n

def made (c : Crypto) (s : GossipNet) (n : PeerId) (kind : GossipKind) (hash : Hash) : ℕ :=
  (s.rounds.filter fun r => r.node = n ∧ r.message.gossipKey c = some (kind, hash)).length

def sent (c : Crypto) (s : GossipNet) (kind : GossipKind) (hash : Hash) : ℕ :=
  ((s.rounds.filter fun r => r.message.gossipKey c = some (kind, hash)).map
    (·.receivers.length)).sum

variable {c : Crypto} {nodes : Finset PeerId} {managers : PeerId → PeerManager} {s : GossipNet}

theorem toFlooding_cleanup (n : PeerId) :
    (s.turn c nodes (.cleanup n)).toFlooding = s.toFlooding.forget {none} n := by
  unfold toFlooding turn Flooding.State.forget
  congr 1
  funext n'
  by_cases hn : n' = n
  · subst hn
    rw [Function.update_self]
    ext k
    cases k with
    | none => simp
    | some k =>
      obtain ⟨kind, hash⟩ := k
      cases kind <;> simp [GossipProtocol.cleanupSeenMessages, GossipProtocol.seen]
  · simp only [Function.update_of_ne hn]

variable (c nodes) in
theorem Follows.cleanup (h : s.Follows managers) (n : PeerId) :
    (s.turn c nodes (.cleanup n)).Follows managers where
  manager := by
    intro n'
    change (Function.update s.node n _ n').peerManager = managers n'
    by_cases hn : n' = n
    · rw [hn, Function.update_self]
      exact h.manager n
    · rw [Function.update_of_ne hn, h.manager]
  receivers := h.receivers

variable (c nodes) in
theorem Follows.turns (h : s.Follows managers) (ts : List Turn) :
    (s.turns c nodes ts).Follows managers ∧
      Flooding.Run (NetworkMessage.gossipKey c) (peersOf managers) nodes {none} s.toFlooding
        (ts.map Turn.cleaned) (s.turns c nodes ts).toFlooding := by
  induction ts generalizing s with
  | nil => exact ⟨h, .nil _⟩
  | cons t ts ih =>
    cases t with
    | call e =>
      obtain ⟨hfollows, hstep⟩ := h.step c nodes e
      exact ⟨(ih hfollows).1, .flood hstep (ih hfollows).2⟩
    | cleanup n =>
      have hfollows := h.cleanup c nodes n
      have hrun := (ih hfollows).2
      rw [toFlooding_cleanup] at hrun
      exact ⟨(ih hfollows).1, .forget n hrun⟩

theorem made_toFlooding (s : GossipNet) (n : PeerId) (kind : GossipKind) (hash : Hash) :
    s.toFlooding.made (NetworkMessage.gossipKey c) n (some (kind, hash)) =
      s.made c n kind hash := by
  simp [Flooding.State.made, made, toFlooding, List.filter_map, Function.comp_def]

theorem Follows.sent_toFlooding (h : s.Follows managers) (kind : GossipKind) (hash : Hash) :
    ((s.toFlooding.rounds.filter fun r => NetworkMessage.gossipKey c r.2 = some (kind, hash)).map
      fun r => (peersOf managers r.1).card).sum = s.sent c kind hash := by
  rw [toFlooding, sent, List.filter_map, List.map_map]
  congr 1
  apply List.map_congr_left
  intro r hr
  have hall := h.receivers r (List.mem_filter.mp hr).1
  exact (congrArg Multiset.card hall).symm

theorem made_pos_iff (s : GossipNet) (n : PeerId) (kind : GossipKind) (hash : Hash) :
    0 < s.made c n kind hash ↔ ∃ r ∈ s.toFlooding.rounds, r.1 = n ∧
      NetworkMessage.gossipKey c r.2 = some (kind, hash) := by
  rw [← made_toFlooding, Flooding.State.made, List.length_pos_iff_exists_mem]
  simp only [List.mem_filter, decide_eq_true_eq]

/-- In any stretch of any run a node sends a hash to its peers at most once more than it is cleaned
up. Where no message with the hash is under way and none was refused or lost, every node to which a
path of peers leads from a sender has sent it. -/
theorem gossip_between_cleanups (c : Crypto) (nodes : Finset PeerId)
    (managers : PeerId → PeerManager) (before after : List Turn) (kind : GossipKind)
    (hash : Hash) :
    let s := (start managers).turns c nodes before
    let s' := s.turns c nodes after
    (∀ n, s'.made c n kind hash ≤ s.made c n kind hash + cleanups after n + 1) ∧
      s'.sent c kind hash ≤
        s.sent c kind hash + ∑ n ∈ nodes, (cleanups after n + 1) * (peersOf managers n).card ∧
      ((∀ x ∈ s'.flight, x.2.gossipKey c ≠ some (kind, hash)) →
        (∀ x ∈ s'.lost, x.2.gossipKey c ≠ some (kind, hash)) →
        ∀ n p, 0 < s'.made c n kind hash →
          Relation.ReflTransGen (fun a b => (managers a).Connected b) n p →
          0 < s'.made c p kind hash) := by
  intro s s'
  obtain ⟨hfollows, hbefore⟩ := (follows_start managers).turns c nodes before
  obtain ⟨hfollows', hafter⟩ := hfollows.turns c nodes after
  rw [toFlooding_start] at hbefore
  have hspread := hbefore.spread Flooding.spread_start
  refine ⟨?_, ?_, ?_⟩
  · intro n
    have hmade := hafter.made_le n (some (kind, hash))
    rw [made_toFlooding, made_toFlooding] at hmade
    exact hmade
  · have hsent := hafter.sends_le hspread (some (kind, hash))
    rw [hfollows.sent_toFlooding, hfollows'.sent_toFlooding] at hsent
    exact hsent
  · intro hflight hlost n p hn hpath
    induction hpath with
    | refl => exact hn
    | @tail a b _ hpeer ih =>
      rw [made_pos_iff] at ih ⊢
      have hmem : b ∈ peersOf managers a := (PeerManager.mem_getConnectedPeers _).mpr hpeer
      exact (hafter.spread hspread).closed hflight hlost ih hmem

section Circle

def meetAgain (n : PeerId) (order : IterOrder PeerId PeerInfo) (message : NetworkMessage) :
    List Turn :=
  [.cleanup n, .call (.deliver n order (fun _ => true) message)]

/-- Two nodes in turn meet a message again. -/
def circle (n p : PeerId) (order : IterOrder PeerId PeerInfo) (message : NetworkMessage) :
    ℕ → List Turn
  | 0 => []
  | k + 1 => meetAgain n order message ++ meetAgain p order message ++ circle n p order message k

variable {message : NetworkMessage} {kind : GossipKind} {hash : Hash}

theorem cleanups_circle (n p : PeerId) (order : IterOrder PeerId PeerInfo) (k : ℕ) (hne : n ≠ p) :
    cleanups (circle n p order message k) n = k := by
  induction k with
  | zero => rfl
  | succ k ih =>
    rw [cleanups, Flooding.forgotten] at ih
    simp [cleanups, Flooding.forgotten, circle, meetAgain, Turn.cleaned, ih, hne.symm]

theorem not_mem_seen_cleaned (g : GossipProtocol) (kind : GossipKind) (hash : Hash) :
    hash ∉ g.cleanupSeenMessages.seen kind := by
  cases kind <;> exact Finset.notMem_empty hash

theorem Follows.deliver_cleaned (h : s.Follows managers) {n : PeerId} (hn : n ∈ nodes)
    (hkey : message.gossipKey c = some (kind, hash)) (hflight : (n, message) ∈ s.flight)
    (order : IterOrder PeerId PeerInfo) :
    let s' := s.turns c nodes (meetAgain n order message)
    s'.Follows managers ∧ (∃ receivers, s'.rounds = ⟨n, message, receivers⟩ :: s.rounds) ∧
      ∀ p, (managers n).Connected p → (p, message) ∈ s'.flight := by
  intro s'
  have hfollows : s'.Follows managers := (h.turns c nodes _).1
  let t := s.turn c nodes (.cleanup n)
  have ht : t.Follows managers := h.cleanup c nodes n
  have hnode : t.node n = (s.node n).cleanupSeenMessages := Function.update_self _ _ _
  have hcall : (t.node n).handleGossipMessage c order message =
      (t.node n).relay order kind hash := by
    cases message <;> first | cases hkey; rfl | cases hkey
  have hrelay : (t.node n).relay order kind hash =
      (some ((t.node n).broadcastMessage order), (t.node n).markSeen hash kind) := by
    rw [GossipProtocol.relay, if_neg (hnode ▸ not_mem_seen_cleaned _ kind hash)]
    cases kind <;> rfl
  have hs' : s' = { t with flight := t.flight.erase (n, message) }.emit n message (fun _ => true)
      (some ((t.node n).broadcastMessage order), (t.node n).markSeen hash kind) := by
    change t.step c nodes (.deliver n order (fun _ => true) message) = _
    rw [GossipNet.step, if_pos ⟨hn, hflight⟩, hcall, hrelay]
  refine ⟨hfollows, ⟨(t.node n).broadcastMessage order, ?_⟩, ?_⟩
  · rw [hs']
    rfl
  · intro p hp
    have hmem : p ∈ (t.node n).broadcastMessage order := by
      rw [GossipProtocol.broadcastMessage, ht.manager n]
      exact (PeerManager.mem_getConnectedPeers order).mpr hp
    rw [hs']
    apply Multiset.mem_add.mpr
    right
    exact Multiset.mem_coe.mpr (List.mem_map.mpr ⟨p, List.mem_filter.mpr ⟨hmem, rfl⟩, rfl⟩)

theorem Follows.once_around (h : s.Follows managers) {n p : PeerId} (hn : n ∈ nodes)
    (hp : p ∈ nodes) (hne : n ≠ p) (hnp : (managers n).Connected p)
    (hpn : (managers p).Connected n)
    (hkey : message.gossipKey c = some (kind, hash)) (hflight : (n, message) ∈ s.flight)
    (order : IterOrder PeerId PeerInfo) :
    let s' := s.turns c nodes (meetAgain n order message ++ meetAgain p order message)
    s'.Follows managers ∧ s'.made c n kind hash = s.made c n kind hash + 1 ∧
      s'.made c p kind hash = s.made c p kind hash + 1 ∧ (n, message) ∈ s'.flight := by
  intro s'
  obtain ⟨hfirst, ⟨receivers, hrounds⟩, hsent⟩ := h.deliver_cleaned hn hkey hflight order
  obtain ⟨hsecond, ⟨receivers', hrounds'⟩, hsent'⟩ :=
    hfirst.deliver_cleaned hp hkey (hsent p hnp) order
  have hall : s'.rounds = ⟨p, message, receivers'⟩ :: ⟨n, message, receivers⟩ :: s.rounds := by
    rw [← hrounds, ← hrounds']
    rfl
  refine ⟨hsecond, ?_, ?_, hsent' n hpn⟩
  · rw [made, hall, made]
    simp [hkey, hne.symm]
  · rw [made, hall, made]
    simp [hkey, hne]

/-- A message that is on its way to a node with a mutual peer can be kept going by clean-ups alone:
each of the two nodes sends it on as often as it is cleaned up, and it is still on its way. -/
theorem message_never_dies (c : Crypto) (nodes : Finset PeerId) (managers : PeerId → PeerManager)
    (before : List Turn) {n p : PeerId} (hn : n ∈ nodes) (hp : p ∈ nodes) (hne : n ≠ p)
    (hnp : (managers n).Connected p) (hpn : (managers p).Connected n) {message : NetworkMessage}
    {kind : GossipKind} {hash : Hash} (hkey : message.gossipKey c = some (kind, hash))
    (hflight : (n, message) ∈ ((start managers).turns c nodes before).flight)
    (order : IterOrder PeerId PeerInfo) (k : ℕ) :
    let s := (start managers).turns c nodes before
    let s' := s.turns c nodes (circle n p order message k)
    cleanups (circle n p order message k) n = k ∧
      s'.made c n kind hash = s.made c n kind hash + k ∧
      s'.made c p kind hash = s.made c p kind hash + k ∧ (n, message) ∈ s'.flight := by
  refine ⟨cleanups_circle n p order k hne, ?_⟩
  have hfollows := ((follows_start managers).turns c nodes before).1
  generalize (start managers).turns c nodes before = s at hflight hfollows
  induction k generalizing s with
  | zero => exact ⟨rfl, rfl, hflight⟩
  | succ k ih =>
    obtain ⟨hagain, hmade, hmade', hback⟩ :=
      hfollows.once_around hn hp hne hnp hpn hkey hflight order
    obtain ⟨hrest, hrest', hflight'⟩ := ih _ hback hagain
    rw [turns, circle, List.foldl_append]
    refine ⟨?_, ?_, hflight'⟩
    · rw [hmade] at hrest
      exact hrest.trans (by omega)
    · rw [hmade'] at hrest'
      exact hrest'.trans (by omega)

end Circle

section Sample

def sampleTurns : List Turn :=
  [.call (.broadcastBlock [1] PeerManager.byPeerId (fun _ => true) sampleBlock)]

/-- Two nodes send the one block a thousand times. -/
theorem message_never_dies_sample :
    ((((start sampleManagers).turns .hashOnly {[1], [2]} sampleTurns).turns .hashOnly {[1], [2]}
      (circle [2] [1] PeerManager.byPeerId (.newBlock sampleBlock) 1000)).made .hashOnly [2] .block
        sampleBlock.hash) = 1000 := by
  have hflight : (([2], .newBlock sampleBlock) : PeerId × NetworkMessage) ∈
      ((start sampleManagers).turns .hashOnly {[1], [2]} sampleTurns).flight := by decide +kernel
  have hmade : ((start sampleManagers).turns .hashOnly {[1], [2]} sampleTurns).made .hashOnly [2]
      .block sampleBlock.hash = 0 := by decide +kernel
  obtain ⟨-, hcount, -⟩ := message_never_dies .hashOnly {[1], [2]} sampleManagers sampleTurns
    (n := [2]) (p := [1]) (by decide) (by decide) (by decide)
    ⟨⟨[1], "addr", 0, true, 0, 100⟩, by decide, rfl⟩
    ⟨⟨[2], "addr", 0, true, 0, 100⟩, by decide, rfl⟩ rfl hflight PeerManager.byPeerId 1000
  rw [hcount, hmade]

end Sample

end GossipNet

end CytahSpeed
