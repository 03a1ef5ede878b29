import CytahSpeed.BlockDag
import CytahSpeed.Gossip
import Mathlib.Data.List.TakeWhile

/-!
# Block requests

A missing block is marked as pending and then asked of up to three sync peers; a pending hash is
skipped by every later call. The mark is set before the sends and stays when there is no peer or
when the channel refuses the first send, so such a hash is never asked for again until somebody
sends the block unasked.
-/

namespace CytahSpeed
open ByteString FiniteMap StepRun

structure SyncManager where
  dag : BlockDag
  peerManager : PeerManager
  pendingRequests : Finset BlockHash

/-- A block with what its handling reads from outside: the clock at the first validation, and the
clock and database of the insertion. -/
structure Received where
  now : ℕ
  env : CallEnv
  block : Block

/-- What a call does to a hash: it marks it as pending, or the channel takes a `RequestBlock`. -/
inductive Effect
  | marked (hash : BlockHash)
  | sent (peer : PeerId) (hash : BlockHash)
  deriving DecidableEq

namespace SyncManager

def sendRequests (accepts : PeerId → Bool) (hash : BlockHash) :
    List PeerId → Except String Unit × List Effect
  | [] => (.ok (), [])
  | peer :: peers =>
    if accepts peer then
      let r := sendRequests accepts hash peers
      (r.1, .sent peer hash :: r.2)
    else (.error "Failed to send block request: channel closed", [])

/-- The loop over the hashes: the pending hashes at its end, and what it did in order. -/
def requestLoop (peers : List PeerId) (accepts : BlockHash → PeerId → Bool) :
    Finset BlockHash → List BlockHash → Except String Unit × Finset BlockHash × List Effect
  | pending, [] => (.ok (), pending, [])
  | pending, hash :: hashes =>
    if hash ∈ pending then requestLoop peers accepts pending hashes
    else
      match sendRequests (accepts hash) hash peers with
      | (.error e, effects) => (.error e, insert hash pending, .marked hash :: effects)
      | (.ok _, effects) =>
        let r := requestLoop peers accepts (insert hash pending) hashes
        (r.1, r.2.1, .marked hash :: effects ++ r.2.2)

variable (c : Crypto) (s : SyncManager)

def requestMissingBlocks (order : IterOrder PeerId PeerInfo) (accepts : BlockHash → PeerId → Bool)
    (hashes : List BlockHash) : Except String Unit × SyncManager × List Effect :=
  let syncPeers := s.peerManager.getSyncPeers order 3
  let r := requestLoop syncPeers accepts s.pendingRequests hashes
  (r.1, { s with pendingRequests := r.2.1 }, r.2.2)

def missing (headers : List (BlockHash × BlockHeader)) : List BlockHash :=
  (headers.filter fun h => (s.dag.getBlock h.1).isNone).map Prod.fst

def handleHeaders (order : IterOrder PeerId PeerInfo) (accepts : BlockHash → PeerId → Bool)
    (headers : List (BlockHash × BlockHeader)) : Except String Unit × SyncManager × List Effect :=
  let missing := s.missing headers
  if missing.isEmpty then (.ok (), s, []) else s.requestMissingBlocks order accepts missing

def handleBlockResponse (response : Option Received) : Except String Unit × SyncManager :=
  match response with
  | none => (.ok (), s)
  | some r =>
    let s := { s with pendingRequests := s.pendingRequests.erase r.block.hash }
    match r.block.validateBasic c r.now with
    | .error _ => (.ok (), s)
    | .ok _ =>
      let inserted := s.dag.insertBlock c r.env r.block
      (inserted.1, { s with dag := inserted.2 })

/-- The three calls, and what the rest of the node does to the peer table and the DAG meanwhile. -/
inductive Event
  | requestMissingBlocks (order : IterOrder PeerId PeerInfo)
      (accepts : BlockHash → PeerId → Bool) (hashes : List BlockHash)
  | handleHeaders (order : IterOrder PeerId PeerInfo) (accepts : BlockHash → PeerId → Bool)
      (headers : List (BlockHash × BlockHeader))
  | handleBlockResponse (response : Option Received)
  | peersChange (peerManager : PeerManager)
  | dagChange (dag : BlockDag)

/-- The manager, and everything its calls did so far, newest first. -/
abbrev Logged := SyncManager × List Effect

def step (s : Logged) : Event → Logged
  | .requestMissingBlocks order accepts hashes =>
    let r := s.1.requestMissingBlocks order accepts hashes
    (r.2.1, r.2.2.reverse ++ s.2)
  | .handleHeaders order accepts headers =>
    let r := s.1.handleHeaders order accepts headers
    (r.2.1, r.2.2.reverse ++ s.2)
  | .handleBlockResponse response => ((s.1.handleBlockResponse c response).2, s.2)
  | .peersChange peerManager => ({ s.1 with peerManager }, s.2)
  | .dagChange dag => ({ s.1 with dag }, s.2)

def Asked (hash : BlockHash) : List Effect → Prop
  | [] => False
  | .sent _ h :: older => h = hash ∨ Asked hash older
  | .marked h :: older => h ≠ hash ∧ Asked hash older

/-- Every pending hash was asked of a peer since it was marked; so a hash that was never asked of
anyone is asked of every sync peer when a batch of headers shows it missing and the channel takes
the sends. -/
structure Logged.NoneLost (s : Logged) : Prop where
  asked : ∀ hash ∈ s.1.pendingRequests, Asked hash s.2
  again : ∀ hash, (∀ p, Effect.sent p hash ∉ s.2) → ∀ order accepts headers,
    hash ∈ s.1.missing headers → (∀ h p, accepts h p = true) →
      ∀ p ∈ s.1.peerManager.getSyncPeers order 3,
        Effect.sent p hash ∈ (s.1.handleHeaders order accepts headers).2.2

/-- Whenever the loop comes to a hash that is not pending, there is a sync peer, and the channel
takes the send to the first one. -/
def AsksFirst (peers : List PeerId) (accepts : BlockHash → PeerId → Bool)
    (pending : Finset BlockHash) (hashes : List BlockHash) : Prop :=
  ∀ pre hash post, hashes = pre ++ hash :: post → hash ∉ pending → hash ∉ pre →
    (∀ h ∈ pre, h ∉ pending → ∀ p ∈ peers, accepts h p = true) →
      ∃ p, peers.head? = some p ∧ accepts hash p = true

def Event.AsksFirst (s : SyncManager) : Event → Prop
  | .requestMissingBlocks order accepts hashes =>
    SyncManager.AsksFirst (s.peerManager.getSyncPeers order 3) accepts s.pendingRequests hashes
  | .handleHeaders order accepts headers =>
    SyncManager.AsksFirst (s.peerManager.getSyncPeers order 3) accepts s.pendingRequests
      (s.missing headers)
  | _ => True

variable {c s} {peers : List PeerId} {pending : Finset BlockHash} {hash : BlockHash}

theorem sendRequests_spec (accepts : PeerId → Bool) (hash : BlockHash) (peers : List PeerId) :
    (sendRequests accepts hash peers).2 =
        (peers.takeWhile accepts).map (Effect.sent · hash) ∧
      ((sendRequests accepts hash peers).1 = .ok () ↔ ∀ p ∈ peers, accepts p = true) := by
  induction peers with
  | nil => simp [sendRequests]
  | cons p peers ih =>
    by_cases hp : accepts p = true
    · simp [sendRequests, hp, ih]
    · simp [sendRequests, hp]

theorem asked_sent_append (sends : List PeerId) (h : BlockHash) (log : List Effect) :
    Asked hash ((sends.map (Effect.sent · h)).reverse ++ log) ↔
      (sends ≠ [] ∧ h = hash) ∨ Asked hash log := by
  induction sends generalizing log with
  | nil => simp
  | cons p sends ih =>
    rw [List.map_cons, List.reverse_cons, List.append_assoc, ih]
    simp only [List.singleton_append, Asked]
    by_cases hh : h = hash <;> simp [hh]

theorem exists_sent_of_asked {log : List Effect} (h : Asked hash log) :
    ∃ p, Effect.sent p hash ∈ log := by
  induction log with
  | nil => exact h.elim
  | cons e older ih =>
    cases e with
    | sent p h' =>
      rcases h with rfl | h
      · exact ⟨p, List.mem_cons_self⟩
      · obtain ⟨q, hq⟩ := ih h
        exact ⟨q, List.mem_cons_of_mem _ hq⟩
    | marked h' =>
      obtain ⟨q, hq⟩ := ih h.2
      exact ⟨q, List.mem_cons_of_mem _ hq⟩

theorem sent_mem_requestLoop {accepts : BlockHash → PeerId → Bool}
    (hall : ∀ h p, accepts h p = true) {hashes : List BlockHash} (hmem : hash ∈ hashes)
    (hnot : hash ∉ pending) {p : PeerId} (hp : p ∈ peers) :
    Effect.sent p hash ∈ (requestLoop peers accepts pending hashes).2.2 := by
  induction hashes generalizing pending with
  | nil => cases hmem
  | cons h hashes ih =>
    unfold requestLoop
    by_cases hpend : h ∈ pending
    · rw [if_pos hpend]
      have hne : hash ≠ h := fun heq => hnot (heq ▸ hpend)
      exact ih ((List.mem_cons.mp hmem).resolve_left hne) hnot
    · rw [if_neg hpend]
      obtain ⟨heffects, hok⟩ := sendRequests_spec (accepts h) h peers
      have hsent := hok.mpr (fun q _ => hall h q)
      have htake : peers.takeWhile (accepts h) = peers :=
        List.takeWhile_eq_self_iff.mpr (fun q _ => hall h q)
      rw [htake] at heffects
      generalize sendRequests (accepts h) h peers = r at heffects hsent
      obtain ⟨result, effects⟩ := r
      obtain rfl : result = .ok () := hsent
      simp only at heffects ⊢
      rw [heffects]
      by_cases hne : hash = h
      · subst hne
        exact List.mem_append_left _ (List.mem_cons_of_mem _ (List.mem_map.mpr ⟨p, hp, rfl⟩))
      · refine List.mem_append_right _ (ih ((List.mem_cons.mp hmem).resolve_left hne) ?_)
        rw [Finset.mem_insert, not_or]
        exact ⟨hne, hnot⟩

theorem asksFirst_nil {accepts : BlockHash → PeerId → Bool} :
    AsksFirst peers accepts pending [] := by
  intro pre hash post h
  simp at h

theorem asksFirst_cons_of_mem {accepts : BlockHash → PeerId → Bool} {h : BlockHash}
    {hashes : List BlockHash} (hpend : h ∈ pending) :
    AsksFirst peers accepts pending (h :: hashes) ↔ AsksFirst peers accepts pending hashes := by
  constructor
  · rintro hall pre hash post rfl hnot hpre hbefore
    have hne : hash ≠ h := fun heq => hnot (heq ▸ hpend)
    refine hall (h :: pre) hash post rfl hnot (by simp [hne, hpre]) ?_
    intro g hg hgnot
    rcases List.mem_cons.mp hg with rfl | hg
    · exact absurd hpend hgnot
    · exact hbefore g hg hgnot
  · rintro hall pre hash post heq hnot hpre hbefore
    cases pre with
    | nil =>
      obtain ⟨rfl, -⟩ := List.cons.inj heq
      exact absurd hpend hnot
    | cons g pre =>
      obtain ⟨rfl, rfl⟩ := List.cons.inj heq
      exact hall pre hash post rfl hnot (fun hm => hpre (List.mem_cons_of_mem _ hm))
        (fun g hg => hbefore g (List.mem_cons_of_mem _ hg))

theorem asksFirst_cons_of_notMem {accepts : BlockHash → PeerId → Bool} {h : BlockHash}
    {hashes : List BlockHash} (hpend : h ∉ pending) :
    AsksFirst peers accepts pending (h :: hashes) ↔
      (∃ p, peers.head? = some p ∧ accepts h p = true) ∧
        ((∀ p ∈ peers, accepts h p = true) →
          AsksFirst peers accepts (insert h pending) hashes) := by
  constructor
  · intro hall
    refine ⟨hall [] h hashes rfl hpend (by simp) (by simp), ?_⟩
    rintro htaken pre hash post rfl hnot hpre hbefore
    rw [Finset.mem_insert, not_or] at hnot
    refine hall (h :: pre) hash post rfl hnot.2 (by simp [hnot.1, hpre]) ?_
    intro g hg hgnot
    by_cases hgh : g = h
    · rw [hgh]
      exact htaken
    · refine hbefore g ((List.mem_cons.mp hg).resolve_left hgh) ?_
      rw [Finset.mem_insert, not_or]
      exact ⟨hgh, hgnot⟩
  · rintro ⟨hfirst, hrest⟩ pre hash post heq hnot hpre hbefore
    cases pre with
    | nil =>
      obtain ⟨rfl, -⟩ := List.cons.inj heq
      exact hfirst
    | cons g pre =>
      obtain ⟨rfl, rfl⟩ := List.cons.inj heq
      have htaken := hbefore h List.mem_cons_self hpend
      refine hrest htaken pre hash post rfl ?_ (fun hm => hpre (List.mem_cons_of_mem _ hm)) ?_
      · rw [Finset.mem_insert, not_or]
        exact ⟨fun heq => hpre (heq ▸ List.mem_cons_self), hnot⟩
      · intro g hg hgnot
        rw [Finset.mem_insert, not_or] at hgnot
        exact hbefore g (List.mem_cons_of_mem _ hg) hgnot.2

theorem subset_requestLoop (accepts : BlockHash → PeerId → Bool) (hashes : List BlockHash)
    (pending : Finset BlockHash) :
    pending ⊆ (requestLoop peers accepts pending hashes).2.1 := by
  induction hashes generalizing pending with
  | nil => exact Finset.Subset.refl _
  | cons h hashes ih =>
    unfold requestLoop
    by_cases hpend : h ∈ pending
    · rw [if_pos hpend]
      exact ih pending
    · rw [if_neg hpend]
      cases sendRequests (accepts h) h peers with
      | mk result effects =>
        cases result with
        | error e => exact Finset.subset_insert _ _
        | ok _ => exact (Finset.subset_insert _ _).trans (ih _)

theorem asked_mark_append (sends : List PeerId) (h : BlockHash) (log : List Effect) :
    Asked hash ((.marked h :: sends.map (Effect.sent · h)).reverse ++ log) ↔
      if hash = h then sends ≠ [] else Asked hash log := by
  rw [List.reverse_cons, List.append_assoc, List.singleton_append, asked_sent_append, Asked]
  by_cases hh : hash = h
  · simp [hh]
  · simp [hh, Ne.symm hh]

theorem asked_requestLoop_of_mem {accepts : BlockHash → PeerId → Bool} {hashes : List BlockHash}
    (hpend : hash ∈ pending) (log : List Effect) :
    Asked hash ((requestLoop peers accepts pending hashes).2.2.reverse ++ log) ↔
      Asked hash log := by
  induction hashes generalizing pending log with
  | nil => rfl
  | cons h hashes ih =>
    unfold requestLoop
    by_cases hh : h ∈ pending
    · rw [if_pos hh]
      exact ih hpend log
    · rw [if_neg hh]
      have hne : hash ≠ h := fun heq => hh (heq ▸ hpend)
      obtain ⟨heffects, -⟩ := sendRequests_spec (accepts h) h peers
      generalize sendRequests (accepts h) h peers = r at heffects
      obtain ⟨result, effects⟩ := r
      simp only at heffects
      subst heffects
      cases result with
      | error e => rw [asked_mark_append, if_neg hne]
      | ok _ =>
        simp only [List.reverse_append, List.append_assoc]
        rw [ih (Finset.mem_insert_of_mem hpend), asked_mark_append, if_neg hne]

theorem head?_accepted_iff (accepts : PeerId → Bool) (peers : List PeerId) :
    (∃ p, peers.head? = some p ∧ accepts p = true) ↔ peers.takeWhile accepts ≠ [] := by
  cases peers with
  | nil => simp
  | cons p peers => by_cases hp : accepts p = true <;> simp [hp]

/-- After the loop every pending hash was asked of somebody, exactly when every new hash it came to
had its first send taken. -/
theorem requestLoop_asked_iff {accepts : BlockHash → PeerId → Bool} {hashes : List BlockHash}
    {log : List Effect} (hlog : ∀ hash ∈ pending, Asked hash log) :
    (∀ hash ∈ (requestLoop peers accepts pending hashes).2.1,
        Asked hash ((requestLoop peers accepts pending hashes).2.2.reverse ++ log)) ↔
      AsksFirst peers accepts pending hashes := by
  induction hashes generalizing pending log with
  | nil => exact iff_of_true hlog asksFirst_nil
  | cons h hashes ih =>
    by_cases hpend : h ∈ pending
    · rw [asksFirst_cons_of_mem hpend, ← ih hlog, requestLoop, if_pos hpend]
    · rw [asksFirst_cons_of_notMem hpend, head?_accepted_iff, requestLoop, if_neg hpend]
      obtain ⟨heffects, hok⟩ := sendRequests_spec (accepts h) h peers
      generalize sendRequests (accepts h) h peers = r at heffects hok
      obtain ⟨result, effects⟩ := r
      simp only at heffects hok
      subst heffects
      cases result with
      | error e =>
        have hrefused : ¬ ∀ p ∈ peers, accepts h p = true := by
          intro hall
          cases hok.mpr hall
        simp only [asked_mark_append]
        constructor
        · intro hall
          have hself := hall h (Finset.mem_insert_self _ _)
          rw [if_pos rfl] at hself
          exact ⟨hself, fun htaken => absurd htaken hrefused⟩
        · rintro ⟨htaken, -⟩ hash hmem
          split_ifs with hh
          · exact htaken
          · exact hlog hash ((Finset.mem_insert.mp hmem).resolve_left hh)
      | ok _ =>
        have htaken : ∀ p ∈ peers, accepts h p = true := hok.mp rfl
        simp only [List.reverse_append, List.append_assoc]
        by_cases hsends : peers.takeWhile (accepts h) = []
        · -- no peer at all: the mark of `h` stays without a send
          refine iff_of_false ?_ (fun hall => hall.1 hsends)
          intro hall
          have hmem : h ∈ (requestLoop peers accepts (insert h pending) hashes).2.1 :=
            subset_requestLoop accepts hashes _ (Finset.mem_insert_self h pending)
          have hself := hall h hmem
          rw [asked_requestLoop_of_mem (Finset.mem_insert_self _ _), asked_mark_append,
            if_pos rfl] at hself
          exact hself hsends
        · rw [ih]
          · exact ⟨fun hrest => ⟨hsends, fun _ => hrest⟩, fun hall => hall.2 htaken⟩
          · intro hash hmem
            rw [asked_mark_append]
            split_ifs with hh
            · exact hsends
            · exact hlog hash ((Finset.mem_insert.mp hmem).resolve_left hh)

theorem Logged.NoneLost.of_asked {s : Logged}
    (h : ∀ hash ∈ s.1.pendingRequests, Asked hash s.2) : s.NoneLost where
  asked := h
  again := by
    intro hash hnever order accepts headers hmissing hall p hp
    have hnot : hash ∉ s.1.pendingRequests := by
      intro hpend
      obtain ⟨q, hq⟩ := exists_sent_of_asked (h hash hpend)
      exact hnever q hq
    have hnonempty : (s.1.missing headers).isEmpty = false := by
      rw [List.isEmpty_eq_false_iff]
      exact List.ne_nil_of_mem hmissing
    simp only [handleHeaders, hnonempty, Bool.false_eq_true, if_false, requestMissingBlocks]
    exact sent_mem_requestLoop hall hmissing hnot hp

theorem noneLost_step_iff {s : Logged} (hs : s.NoneLost) (e : Event) :
    (step c s e).NoneLost ↔ e.AsksFirst s.1 := by
  have hiff : ∀ t : Logged, t.NoneLost ↔ ∀ hash ∈ t.1.pendingRequests, Asked hash t.2 :=
    fun t => ⟨fun h => h.asked, fun h => .of_asked h⟩
  cases e with
  | requestMissingBlocks order accepts hashes =>
    rw [hiff]
    exact requestLoop_asked_iff hs.asked
  | handleHeaders order accepts headers =>
    by_cases hempty : (s.1.missing headers).isEmpty = true
    · have hnil := List.isEmpty_iff.mp hempty
      have hsame : step c s (.handleHeaders order accepts headers) = s := by
        simp only [step, handleHeaders, hempty, if_true, List.reverse_nil, List.nil_append]
      rw [hsame, Event.AsksFirst, hnil]
      exact iff_of_true hs asksFirst_nil
    · have hcall : step c s (.handleHeaders order accepts headers) =
          step c s (.requestMissingBlocks order accepts (s.1.missing headers)) := by
        simp only [step, handleHeaders, if_neg hempty]
      rw [hcall, hiff]
      exact requestLoop_asked_iff hs.asked
  | handleBlockResponse response =>
    refine iff_of_true (.of_asked ?_) trivial
    intro hash hmem
    cases response with
    | none => exact hs.asked hash hmem
    | some r =>
      apply hs.asked
      simp only [step, handleBlockResponse] at hmem
      cases hvalid : r.block.validateBasic c r.now with
      | error e =>
        rw [hvalid] at hmem
        exact Finset.mem_of_mem_erase hmem
      | ok _ =>
        rw [hvalid] at hmem
        exact Finset.mem_of_mem_erase hmem
  | peersChange peerManager => exact iff_of_true (.of_asked hs.asked) trivial
  | dagChange dag => exact iff_of_true (.of_asked hs.asked) trivial

/-- Along a run no block request is lost, exactly when each call that marks a hash finds a sync peer
and a channel that takes the send to it. -/
theorem none_lost_along_iff (c : Crypto) (dag : BlockDag) (peerManager : PeerManager)
    (es : List Event) :
    Along (step c) (fun s e => (step c s e).NoneLost) (⟨dag, peerManager, ∅⟩, []) es ↔
      Along (step c) (fun s e => e.AsksFirst s.1) (⟨dag, peerManager, ∅⟩, []) es := by
  apply along_iff_of_invariant (I := fun s : Logged => s.NoneLost)
  · exact .of_asked (by simp)
  · intro s e _ h
    exact h
  · intro s e hs
    exact noneLost_step_iff hs e

section Sample

def sampleRequest : List Event :=
  [.requestMissingBlocks PeerManager.byPeerId (fun _ _ => true) [Bytes.fill 32 7]]

/-- The hash is pending and was asked of nobody. -/
theorem none_lost_sample :
    ¬ Along (step .hashOnly) (fun s e => (step .hashOnly s e).NoneLost)
      (⟨BlockDag.empty, .new 10, ∅⟩, []) sampleRequest := by
  intro h
  have hpend : Bytes.fill 32 7 ∈ (sampleRequest.foldl (step .hashOnly)
      (⟨BlockDag.empty, .new 10, ∅⟩, [])).1.pendingRequests := by decide +kernel
  have hlog : (sampleRequest.foldl (step .hashOnly)
      (⟨BlockDag.empty, .new 10, ∅⟩, [])).2 = [.marked (Bytes.fill 32 7)] := by decide +kernel
  have hasked := h.1.asked _ hpend
  change Asked _ (sampleRequest.foldl (step .hashOnly) _).2 at hasked
  rw [hlog] at hasked
  exact hasked.2

end Sample

end SyncManager

end CytahSpeed
