import CytahSpeed.DagRun
import CytahSpeed.Paging
import CytahSpeed.SyncManager
import CytahSpeed.TopologicalOrder

/-!
# Header paging

A request for headers names the last hash that its sender has, or 32 zero bytes, and a limit. The
answer is found by one pass over the topological order: a flag goes up behind the named hash, and
the pass ends when the limit is reached. The limit is tested after each push, so an answer that is
cut short is full.
-/

namespace CytahSpeed
open ByteString FiniteMap BlockDag

namespace SyncManager

def headersLoop (d : BlockDag) (fromHash : BlockHash) (max : ℕ) :
    Bool → List (BlockHash × BlockHeader) → List BlockHash → List (BlockHash × BlockHeader)
  | _, headers, [] => headers
  | false, headers, hash :: order => headersLoop d fromHash max (hash = fromHash) headers order
  | true, headers, hash :: order =>
    match d.getBlock hash with
    | none => headersLoop d fromHash max true headers order
    | some b =>
      let headers := headers ++ [(hash, b.header)]
      if max ≤ headers.length then headers else headersLoop d fromHash max true headers order

def headersFrom (d : BlockDag) (max : ℕ) (fromHash : BlockHash) : List (BlockHash × BlockHeader) :=
  headersLoop d fromHash max (fromHash = Bytes.zero 32) [] d.getTopologicalOrder

/-- A message leads to a reply, to requests for blocks, or to nothing. `snapshot` is the state as
`bincode` serialises it. -/
def handleMessage (s : SyncManager) (order : IterOrder PeerId PeerInfo)
    (accepts : BlockHash → PeerId → Bool) (snapshot : Except String (List UInt8)) (peer : PeerId) :
    NetworkMessage →
      Except String Unit × SyncManager × List Effect × Option (PeerId × NetworkMessage)
  | .getHeaders fromHash max =>
    (.ok (), s, [], some (peer, .headers (headersFrom s.dag max fromHash)))
  | .headers headers =>
    let r := s.handleHeaders order accepts headers
    (r.1, r.2.1, r.2.2, none)
  | .getBlocks hashes => (.ok (), s, [], some (peer, .blocks (hashes.filterMap s.dag.getBlock)))
  | .requestState =>
    match snapshot with
    | .error e => (.error e, s, [], none)
    | .ok data => (.ok (), s, [], some (peer, .stateSnapshot data))
  | _ => (.ok (), s, [], none)

def replyHeaders (s : SyncManager) (order : IterOrder PeerId PeerInfo)
    (accepts : BlockHash → PeerId → Bool) (snapshot : Except String (List UInt8)) (peer : PeerId)
    (max : ℕ) (fromHash : BlockHash) : List (BlockHash × BlockHeader) :=
  match (s.handleMessage order accepts snapshot peer (.getHeaders fromHash max)).2.2.2 with
  | some (_, .headers headers) => headers
  | _ => []

def entry (d : BlockDag) (hash : BlockHash) : Option (BlockHash × BlockHeader) :=
  (d.getBlock hash).map fun b => (hash, b.header)

variable {d : BlockDag} {fromHash : BlockHash} {max : ℕ}

theorem replyHeaders_eq (s : SyncManager) (order : IterOrder PeerId PeerInfo)
    (accepts : BlockHash → PeerId → Bool) (snapshot : Except String (List UInt8)) (peer : PeerId) :
    s.replyHeaders order accepts snapshot peer max = headersFrom s.dag max := rfl

theorem headersLoop_true (headers : List (BlockHash × BlockHeader)) (hlt : headers.length < max)
    (order : List BlockHash) :
    headersLoop d fromHash max true headers order =
      headers ++ (order.filterMap (entry d)).take (max - headers.length) := by
  induction order generalizing headers with
  | nil => simp [headersLoop]
  | cons hash order ih =>
    cases hb : d.getBlock hash with
    | none =>
      have hentry : entry d hash = none := by rw [entry, hb]; rfl
      simp only [headersLoop, hb]
      rw [ih headers hlt, List.filterMap_cons_none hentry]
    | some b =>
      have hentry : entry d hash = some (hash, b.header) := by rw [entry, hb]; rfl
      have hlen : (headers ++ [(hash, b.header)]).length = headers.length + 1 := by simp
      obtain ⟨n, hn⟩ : ∃ n, max - headers.length = n + 1 := ⟨max - headers.length - 1, by omega⟩
      simp only [headersLoop, hb]
      rw [List.filterMap_cons_some hentry, hn, List.take_succ_cons]
      by_cases hfull : max ≤ (headers ++ [(hash, b.header)]).length
      · have hzero : n = 0 := by omega
        rw [if_pos hfull, hzero, List.take_zero]
      · have hrest : max - (headers ++ [(hash, b.header)]).length = n := by omega
        rw [if_neg hfull, ih _ (by omega), hrest, List.append_assoc, List.singleton_append]

theorem headersLoop_false (hmax : 1 ≤ max) (order : List BlockHash) :
    headersLoop d fromHash max false [] order =
      ((Paging.after id fromHash order).filterMap (entry d)).take max := by
  induction order with
  | nil => simp [headersLoop, Paging.after]
  | cons hash order ih =>
    by_cases h : hash = fromHash
    · simp only [headersLoop, h, decide_true]
      rw [headersLoop_true [] hmax, Paging.after, id, if_pos rfl]
      rfl
    · simp only [headersLoop, h, decide_false]
      rw [ih, Paging.after, id, if_neg h]

theorem filterMap_entry_after {order : List BlockHash}
    (h : ∀ hash ∈ order, ∃ b, d.getBlock hash = some b) (k : BlockHash) :
    (Paging.after id k order).filterMap (entry d) =
      Paging.after Prod.fst k (order.filterMap (entry d)) := by
  induction order with
  | nil => rfl
  | cons hash order ih =>
    obtain ⟨b, hb⟩ := h hash List.mem_cons_self
    have hentry : entry d hash = some (hash, b.header) := by rw [entry, hb]; rfl
    rw [List.filterMap_cons_some hentry, Paging.after, Paging.after, id]
    by_cases hk : hash = k
    · rw [if_pos hk, if_pos hk]
    · rw [if_neg hk, if_neg hk, ih fun x hx => h x (List.mem_cons_of_mem _ hx)]

theorem map_fst_filterMap_entry {order : List BlockHash}
    (h : ∀ hash ∈ order, ∃ b, d.getBlock hash = some b) :
    (order.filterMap (entry d)).map Prod.fst = order := by
  induction order with
  | nil => rfl
  | cons hash order ih =>
    obtain ⟨b, hb⟩ := h hash List.mem_cons_self
    have hentry : entry d hash = some (hash, b.header) := by rw [entry, hb]; rfl
    rw [List.filterMap_cons_some hentry, List.map_cons,
      ih fun x hx => h x (List.mem_cons_of_mem _ hx)]

theorem mem_filterMap_entry {order : List BlockHash} {e : BlockHash × BlockHeader}
    (he : e ∈ order.filterMap (entry d)) : ∃ b, d.getBlock e.1 = some b ∧ e.2 = b.header := by
  obtain ⟨hash, -, hentry⟩ := List.mem_filterMap.mp he
  obtain ⟨b, hb, rfl⟩ := Option.map_eq_some_iff.mp hentry
  exact ⟨b, hb, rfl⟩

/-- Over any sound run, a peer that asks again and again from the last hash it received ends with
the whole topological order, each block once and with its stored header. No page is longer than the
limit, and a page behind which another one brings something is as long as the limit. -/
theorem headerPages_enumerate (c : Crypto) (calls : List Call) (h : Sound c calls)
    (hzero : (run c calls).getBlock (Bytes.zero 32) = none) (s : SyncManager)
    (hs : s.dag = run c calls) (order : IterOrder PeerId PeerInfo)
    (accepts : BlockHash → PeerId → Bool) (snapshot : Except String (List UInt8)) (peer : PeerId)
    (max : ℕ) (hmax : 1 ≤ max) :
    ∃ pages : List (List (BlockHash × BlockHeader)),
      (∀ fuel, (run c calls).blockCount < fuel →
        Paging.readPages Prod.fst (s.replyHeaders order accepts snapshot peer max) fuel
          (Bytes.zero 32) = some pages) ∧
      pages.getLast? = some [] ∧
      pages.flatten.map Prod.fst = (run c calls).getTopologicalOrder ∧
      (∀ e ∈ pages.flatten, ∃ b, (run c calls).getBlock e.1 = some b ∧ e.2 = b.header) ∧
      (pages.flatten.map Prod.fst).Nodup ∧
      (∀ hash, hash ∈ pages.flatten.map Prod.fst ↔ ∃ b, (run c calls).getBlock hash = some b) ∧
      (∀ p ∈ pages, p.length ≤ max) ∧
      ∀ pre p q post, pages = pre ++ p :: q :: post → q ≠ [] → p.length = max := by
  rw [replyHeaders_eq, hs]
  have hint := h.intact
  have hstored : ∀ hash ∈ (run c calls).getTopologicalOrder,
      ∃ b, (run c calls).getBlock hash = some b := fun hash hmem => (hint.mem_order hash).mp hmem
  have hkeys := map_fst_filterMap_entry hstored
  have hask : ∀ e ∈ (run c calls).getTopologicalOrder.filterMap (entry (run c calls)),
      headersFrom (run c calls) max e.1 = (Paging.after Prod.fst e.1
        ((run c calls).getTopologicalOrder.filterMap (entry (run c calls)))).take max := by
    intro e he
    obtain ⟨b, hb, -⟩ := mem_filterMap_entry he
    have hne : e.1 ≠ Bytes.zero 32 := by
      intro heq
      rw [heq, hzero] at hb
      cases hb
    rw [headersFrom, decide_eq_false hne, headersLoop_false hmax, filterMap_entry_after hstored]
  have hfirst : headersFrom (run c calls) max (Bytes.zero 32) =
      ((run c calls).getTopologicalOrder.filterMap (entry (run c calls))).take max := by
    rw [headersFrom, decide_eq_true rfl, headersLoop_true [] hmax]
    rfl
  have hcount : ((run c calls).getTopologicalOrder.filterMap (entry (run c calls))).length =
      (run c calls).blockCount := by
    rw [← hint.length_order]
    conv_rhs => rw [← hkeys]
    rw [List.length_map]
  obtain ⟨pages, hread, hpaged⟩ := Paging.readPages_of_serves hmax
    (by rw [hkeys]; exact hint.nodup_order) hask (List.nil_append _).symm hfirst
  rw [hcount] at hread
  refine ⟨pages, hread, hpaged.ends, ?_, ?_, ?_, ?_, hpaged.length_le, hpaged.full⟩
  · rw [hpaged.flatten, hkeys]
  · intro e he
    rw [hpaged.flatten] at he
    exact mem_filterMap_entry he
  · rw [hpaged.flatten, hkeys]
    exact hint.nodup_order
  · intro hash
    rw [hpaged.flatten, hkeys]
    exact hint.mem_order hash

set_option maxRecDepth 20000 in
theorem sampleCalls_zero_free :
    (run .hashOnly sampleCalls).getBlock (Bytes.zero 32) = none := by
  unfold sampleCalls sampleChild sampleRoot
  rw [Crypto.hashOnly_eq_strict]
  decide +kernel

def sampleServer : SyncManager := ⟨run .hashOnly sampleCalls, .new 10, ∅⟩

/-- Two blocks, asked for one at a time. -/
theorem headerPages_enumerate_sample :
    ∃ pages, Paging.readPages Prod.fst
        (sampleServer.replyHeaders PeerManager.byPeerId (fun _ _ => true) (.ok []) [1] 1) 3
          (Bytes.zero 32) = some pages ∧
      pages.flatten.map Prod.fst = (run .hashOnly sampleCalls).getTopologicalOrder := by
  obtain ⟨hsound, hcount, -⟩ := sampleCalls_evaluated
  have hserver : sampleServer.dag = run .hashOnly sampleCalls := by
    unfold sampleServer
    dsimp only
  obtain ⟨pages, hread, -, horder, -⟩ :=
    headerPages_enumerate .hashOnly sampleCalls hsound sampleCalls_zero_free sampleServer hserver
      PeerManager.byPeerId (fun _ _ => true) (.ok []) [1] 1 (by decide)
  exact ⟨pages, hread 3 (by omega), horder⟩

end SyncManager

end CytahSpeed
