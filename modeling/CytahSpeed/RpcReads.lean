import CytahSpeed.IndexAgreement
import CytahSpeed.RpcServer

/-!
# What the RPC server answers

The requests that read, over a DAG that has grown from the empty one. `AnswersReads` says each reply
in terms of what the node has: the account of the address that the text names, the stored block or
the transaction of the hash, the childless blocks and the numbers of blocks and of pending
transactions. It holds after every run of requests and of changes that the node makes.
-/

namespace CytahSpeed
open ByteString FiniteMap

namespace RpcServer

/-- "cyt" and the digits of the bytes, in either case. -/
def NamesAddress (text : String) (address : Address) : Prop :=
  ∃ digits, text = "cyt" ++ digits ∧ hexDecode digits = .ok address.toList

def NamesHash (text : String) (hash : Bytes 32) : Prop := hexDecode text = .ok hash.toList

def RpcState.Childless (s : RpcState) (b : Block) : Prop :=
  ∀ child ∈ s.dag.store.getAllBlocks, b.hash ∉ child.header.parentHashes

/-- The counts in the replies are those of `blocks` and of `pending`, the hashes of the stored
blocks and of the transactions in the mempool. -/
structure AnswersReads (c : Crypto) (s : RpcState) (blocks : Finset BlockHash)
    (pending : Finset TxId) : Prop where
  stored : ∀ h, h ∈ blocks ↔ ∃ b ∈ s.dag.store.getAllBlocks, b.hash = h
  pooled : ∀ h, h ∈ pending ↔ ∃ t, s.mempool.getTransaction h = some t
  balance : ∀ text address, NamesAddress text address →
    (∀ account, s.stateManager.getAccount address = some account →
      getBalance s text = .balance text account.balance account.nonce) ∧
    (s.stateManager.getAccount address = none → getBalance s text = .failed .notFound)
  block : ∀ text hash, NamesHash text hash → ∃ found, getBlock s text = .block text found ∧
    ∀ b, found = some b ↔ b ∈ s.dag.store.getAllBlocks ∧ b.hash = hash
  transaction : ∀ text hash, NamesHash text hash →
    ∃ found, getTransaction c s text = .transaction text found ∧
      (∀ tx, found = some tx → tx.hash c = hash ∧ s.Holds tx) ∧
      (found = none → ∀ tx, s.Holds tx → tx.hash c ≠ hash)
  noAddress : ∀ text, (∀ address, ¬ NamesAddress text address) →
    getBalance s text = .failed .badRequest
  noHash : ∀ text, (∀ hash, ¬ NamesHash text hash) →
    getBlock s text = .failed .badRequest ∧ getTransaction c s text = .failed .badRequest
  dag : ∀ env, ∃ tips, getDagInfo s env = .dag tips blocks.card tips.length ∧ tips.Nodup ∧
    ∀ text, text ∈ tips ↔
      ∃ b ∈ s.dag.store.getAllBlocks, s.Childless b ∧ text = hexEncode b.hash.toList
  node : getNodeInfo s =
    .nodeInfo "unknown" (s.connectedPeers.getD []) pending.card blocks.card

section Parse

theorem decodeBytes_eq_ok_iff {n : ℕ} {text : String} {b : Bytes n} :
    decodeBytes n text = .ok b ↔ hexDecode text = .ok b.toList := by
  unfold decodeBytes
  cases hdata : hexDecode text with
  | error e => simp only [reduceCtorEq]
  | ok data =>
    dsimp only
    split_ifs with hlength
    · constructor
      · intro h
        rw [← Except.ok.inj h]
        exact rfl
      · intro h
        exact congrArg Except.ok (Subtype.ext (Except.ok.inj h))
    · simp only [Except.ok.injEq, false_iff]
      intro h
      exact hlength (h ▸ Bytes.length_toList b)

theorem decodeBytes_cases (n : ℕ) (text : String) :
    (∃ b, decodeBytes n text = .ok b) ∨ decodeBytes n text = .error .badRequest := by
  unfold decodeBytes
  cases hexDecode text with
  | error e => exact Or.inr rfl
  | ok data =>
    dsimp only
    split_ifs
    · exact Or.inl ⟨_, rfl⟩
    · exact Or.inr rfl

theorem afterPrefix_eq_some_iff {text digits : String} :
    afterPrefix text = some digits ↔ text = "cyt" ++ digits := by
  have happend : ("cyt" ++ digits).toList = 'c' :: 'y' :: 't' :: digits.toList := by
    rw [String.toList_append]
    rfl
  rw [← String.toList_inj, happend]
  unfold afterPrefix
  split
  · rename_i rest hrest
    rw [hrest, Option.some.injEq, ← String.toList_inj, String.toList_ofList]
    simp only [List.cons.injEq, true_and]
  · rename_i hnot
    simp only [reduceCtorEq, false_iff]
    exact hnot digits.toList

theorem parseAddress_eq_ok_iff {text : String} {address : Address} :
    parseAddress text = .ok address ↔ NamesAddress text address := by
  unfold parseAddress NamesAddress
  simp only [← afterPrefix_eq_some_iff]
  cases afterPrefix text with
  | none => simp only [reduceCtorEq, false_and, exists_false]
  | some digits =>
    simp only [Option.some.injEq, exists_eq_left']
    exact decodeBytes_eq_ok_iff

theorem parseAddress_eq_badRequest {text : String} (h : ∀ address, ¬ NamesAddress text address) :
    parseAddress text = .error .badRequest := by
  cases hparsed : parseAddress text with
  | error status => rw [error_parseAddress hparsed]
  | ok address => exact absurd (parseAddress_eq_ok_iff.mp hparsed) (h address)

theorem parseHash_eq_ok_iff {text : String} {hash : Bytes 32} :
    parseHash text = .ok hash ↔ NamesHash text hash := decodeBytes_eq_ok_iff

theorem parseHash_eq_badRequest {text : String} (h : ∀ hash, ¬ NamesHash text hash) :
    parseHash text = .error .badRequest := by
  rcases decodeBytes_cases 32 text with ⟨hash, hok⟩ | herror
  · exact absurd (parseHash_eq_ok_iff.mp hok) (h hash)
  · exact herror

end Parse

section Reads
variable {c : Crypto} {s : RpcState}

theorem getBalance_of_names {text : String} {address : Address} (h : NamesAddress text address) :
    (∀ account, s.stateManager.getAccount address = some account →
      getBalance s text = .balance text account.balance account.nonce) ∧
    (s.stateManager.getAccount address = none → getBalance s text = .failed .notFound) := by
  have hparsed := parseAddress_eq_ok_iff.mpr h
  constructor
  · intro account haccount
    simp only [getBalance, hparsed, haccount]
  · intro hnone
    simp only [getBalance, hparsed, hnone]

/-- Blocks stand under their own hashes, so the one that is found is the one that was asked for. -/
theorem getBlock_of_names (hkey : ∀ h b, s.dag.getBlock h = some b → b.hash = h) {text : String}
    {hash : Bytes 32} (h : NamesHash text hash) :
    ∃ found, getBlock s text = .block text found ∧
      ∀ b, found = some b ↔ b ∈ s.dag.store.getAllBlocks ∧ b.hash = hash := by
  refine ⟨s.dag.getBlock hash, ?_, ?_⟩
  · simp only [getBlock, parseHash_eq_ok_iff.mpr h]
  · intro b
    rw [BlockStore.mem_getAllBlocks]
    constructor
    · intro hb
      exact ⟨⟨hash, hb⟩, hkey hash b hb⟩
    · intro hstored
      obtain ⟨⟨k, hk⟩, hhash⟩ := hstored
      rw [← hhash, hkey k b hk]
      exact hk

theorem getTransaction_of_names (hkeyed : s.mempool.Keyed c) {text : String} {hash : Bytes 32}
    (h : NamesHash text hash) :
    ∃ found, getTransaction c s text = .transaction text found ∧
      (∀ tx, found = some tx → tx.hash c = hash ∧ s.Holds tx) ∧
      (found = none → ∀ tx, s.Holds tx → tx.hash c ≠ hash) := by
  refine ⟨findTransaction c s hash, ?_, ?_, ?_⟩
  · simp only [getTransaction, parseHash_eq_ok_iff.mpr h]
  · intro tx hfound
    unfold findTransaction at hfound
    cases hpool : s.mempool.getTransaction hash with
    | some t =>
      rw [hpool] at hfound
      obtain rfl := Option.some.inj hfound
      exact ⟨hkeyed hash t hpool, Or.inl ⟨hash, t, hpool, rfl⟩⟩
    | none =>
      rw [hpool] at hfound
      dsimp only at hfound
      obtain ⟨b, hb, htx⟩ := List.mem_flatMap.mp (List.mem_of_find?_eq_some hfound)
      exact ⟨by simpa using List.find?_some hfound, Or.inr ⟨b, hb, htx⟩⟩
  · intro hfound tx hholds hhash
    unfold findTransaction at hfound
    cases hpool : s.mempool.getTransaction hash with
    | some t =>
      rw [hpool] at hfound
      cases hfound
    | none =>
      rw [hpool] at hfound
      dsimp only at hfound
      rcases hholds with ⟨k, t, ht, rfl⟩ | ⟨b, hb, htx⟩
      · rw [← hhash, hkeyed k t ht, ht] at hpool
        cases hpool
      · have hnot := List.find?_eq_none.mp hfound tx (List.mem_flatMap.mpr ⟨b, hb, htx⟩)
        exact hnot (decide_eq_true hhash)

theorem length_getAllBlocks (store : BlockStore) :
    store.getAllBlocks.length = store.blocks.keys.card := by
  have hall : ∀ h ∈ store.getAllHashes, (store.getBlock h).isSome = true := by
    intro h hh
    exact Option.isSome_iff_exists.mpr ((store.mem_getAllHashes h).mp hh)
  rw [← store.blockCount_eq_card, BlockStore.blockCount, BlockStore.getAllBlocks,
    List.length_filterMap_eq_countP]
  exact List.countP_eq_length.mpr hall

theorem mem_tips_iff (hindex : s.dag.index.Indexes s.dag.store)
    (hkey : ∀ h b, s.dag.getBlock h = some b → b.hash = h) (h : BlockHash) :
    h ∈ s.dag.getTips ↔ ∃ b ∈ s.dag.store.getAllBlocks, s.Childless b ∧ b.hash = h := by
  refine (hindex.tips h).trans ?_
  rw [BlockStore.childless_iff]
  constructor
  · intro htip
    obtain ⟨⟨b, hb⟩, hchildless⟩ := htip
    obtain rfl := hkey h b hb
    refine ⟨b, (s.dag.store.mem_getAllBlocks b).mpr ⟨_, hb⟩, ?_, rfl⟩
    intro child hchild
    obtain ⟨k, hk⟩ := (s.dag.store.mem_getAllBlocks child).mp hchild
    exact hchildless k child hk
  · intro hblock
    obtain ⟨b, hb, hchildless, rfl⟩ := hblock
    obtain ⟨k, hk⟩ := (s.dag.store.mem_getAllBlocks b).mp hb
    obtain rfl := hkey k b hk
    exact ⟨⟨b, hk⟩, fun k' child hchild =>
      hchildless child ((s.dag.store.mem_getAllBlocks child).mpr ⟨k', hchild⟩)⟩

theorem getDagInfo_tips (hindex : s.dag.index.Indexes s.dag.store)
    (hkey : ∀ h b, s.dag.getBlock h = some b → b.hash = h) (env : RpcEnv) :
    ∃ tips, getDagInfo s env = .dag tips s.dag.store.blocks.keys.card tips.length ∧ tips.Nodup ∧
      ∀ text, text ∈ tips ↔
        ∃ b ∈ s.dag.store.getAllBlocks, s.Childless b ∧ text = hexEncode b.hash.toList := by
  refine ⟨(env.tips.iter s.dag.getTips).map fun h => hexEncode h.toList, ?_, ?_, ?_⟩
  · rw [← length_getAllBlocks]
    exact rfl
  · apply List.Nodup.map
    · intro h h' heq
      exact List.Vector.toList_injective (hexEncode_injective heq)
    · rw [← Multiset.coe_nodup, env.tips.coe_iter]
      exact s.dag.getTips.nodup
  · intro text
    rw [List.mem_map]
    constructor
    · intro htext
      obtain ⟨h, hh, rfl⟩ := htext
      rw [← Multiset.mem_coe, env.tips.coe_iter, Finset.mem_val] at hh
      obtain ⟨b, hb, hchildless, rfl⟩ := (mem_tips_iff hindex hkey h).mp hh
      exact ⟨b, hb, hchildless, rfl⟩
    · intro hblock
      obtain ⟨b, hb, hchildless, rfl⟩ := hblock
      refine ⟨b.hash, ?_, rfl⟩
      rw [← Multiset.mem_coe, env.tips.coe_iter, Finset.mem_val]
      exact (mem_tips_iff hindex hkey b.hash).mpr ⟨b, hb, hchildless, rfl⟩

theorem mem_keys_iff_stored (hkey : ∀ h b, s.dag.getBlock h = some b → b.hash = h) (h : BlockHash) :
    h ∈ s.dag.store.blocks.keys ↔ ∃ b ∈ s.dag.store.getAllBlocks, b.hash = h := by
  rw [Finmap.mem_keys, Finmap.mem_iff]
  constructor
  · intro hstored
    obtain ⟨b, hb⟩ := hstored
    exact ⟨b, (s.dag.store.mem_getAllBlocks b).mpr ⟨h, hb⟩, hkey h b hb⟩
  · intro hblock
    obtain ⟨b, hb, rfl⟩ := hblock
    obtain ⟨k, hk⟩ := (s.dag.store.mem_getAllBlocks b).mp hb
    obtain rfl := hkey k b hk
    exact ⟨b, hk⟩

theorem answersReads_of (hindex : s.dag.index.Indexes s.dag.store)
    (hkey : ∀ h b, s.dag.getBlock h = some b → b.hash = h) (hkeyed : s.mempool.Keyed c) :
    AnswersReads c s s.dag.store.blocks.keys s.mempool.transactions.keys where
  stored := mem_keys_iff_stored hkey
  pooled h := by
    rw [Finmap.mem_keys, Finmap.mem_iff]
    exact Iff.rfl
  balance _ _ := getBalance_of_names
  block _ _ := getBlock_of_names hkey
  transaction _ _ := getTransaction_of_names hkeyed
  noAddress text h := by simp only [getBalance, parseAddress_eq_badRequest h]
  noHash text h := by
    have hparsed := parseHash_eq_badRequest h
    constructor
    · simp only [getBlock, hparsed]
    · simp only [getTransaction, hparsed]
  dag := getDagInfo_tips hindex hkey
  node := by
    rw [← s.dag.store.blockCount_eq_card]
    exact rfl

end Reads

section Run
variable {c : Crypto}

def Event.dagCall : Event → Option Call
  | .dag call => some call
  | _ => none

/-- No request touches the DAG: what became of it is the run of the node's own calls. -/
theorem dag_run (s : RpcState) (events : List Event) :
    (run c s events).dag = BlockDag.runFrom c s.dag (events.filterMap Event.dagCall) := by
  induction events generalizing s with
  | nil => rfl
  | cons e events ih =>
    refine (ih (step c s e)).trans ?_
    cases e with
    | request env r =>
      change BlockDag.runFrom c (serve c s env r).2.dag _ = _
      rw [(served_serve s env r).dag]
      exact rfl
    | mempool call => exact rfl
    | dag call => exact rfl
    | state stateManager => exact rfl

/-- After any run of requests and of changes by the node, every further request is served as
`Served` says and those that read are answered from what the node has. -/
theorem requests_served (c : Crypto) (maxSize : ℕ) (minGasPrice : UInt64)
    (stateManager : StateManager) (peers : Option (List String)) (events : List Event)
    (h : BlockDag.Sound c (events.filterMap Event.dagCall)) :
    let s := run c ⟨.empty, .new maxSize minGasPrice, stateManager, peers⟩ events
    (∀ env r, Served c s r (serve c s env r).1 (serve c s env r).2) ∧
      ∃ blocks pending, AnswersReads c s blocks pending := by
  intro s
  have hdag : s.dag = BlockDag.run c (events.filterMap Event.dagCall) := dag_run _ events
  refine ⟨served_serve s, _, _, answersReads_of ?_ ?_ (keyed_run (keyed_new _ _) events)⟩
  · rw [hdag]
    exact h.indexes
  · intro hash b hb
    rw [hdag] at hb
    exact (h.wellFormed.hash hash b hb).1

end Run

section Sample
open ParallelExecutor

def sampleNode : RpcState :=
  run sampleCrypto ⟨.empty, .new 10 1, sampleLedger.state, none⟩ (BlockDag.sampleCalls.map .dag)

def sampleRpcEnv : RpcEnv := ⟨TxDagMempool.sampleEnv, .sorted, fun _ => []⟩

set_option maxRecDepth 20000 in
theorem sampleNode_evaluated :
    BlockDag.Sound sampleCrypto BlockDag.sampleCalls ∧
      (BlockDag.run sampleCrypto BlockDag.sampleCalls).blockCount = 2 ∧
      (BlockDag.run sampleCrypto BlockDag.sampleCalls).getTips = {BlockDag.sampleLeaf} := by
  unfold BlockDag.sampleLeaf BlockDag.sampleCalls BlockDag.sampleChild BlockDag.sampleRoot
    sampleCrypto cryptoKnowing Crypto.withSignatures
  rw [Crypto.hashOnly_eq_strict]
  decide +kernel

set_option maxRecDepth 20000 in
theorem sampleAside_admitted :
    sampleAside.validateBasic sampleCrypto = .ok () ∧
      ((TxDagMempool.new 10 1).addTransaction sampleCrypto TxDagMempool.sampleEnv sampleAside []
        none).1 = .ok () := by
  decide +kernel

theorem sampleAside_submitted :
    (serve sampleCrypto sampleNode sampleRpcEnv (.sendTransaction sampleAside)).1 = .submitted := by
  obtain ⟨hvalid, hok⟩ := sampleAside_admitted
  change (sendTransaction sampleCrypto sampleNode sampleRpcEnv sampleAside).1 = .submitted
  rcases hadd : (TxDagMempool.new 10 1).addTransaction sampleCrypto TxDagMempool.sampleEnv
    sampleAside [] none with ⟨result, m⟩
  rw [hadd] at hok
  obtain rfl : result = .ok () := hok
  have hmempool : sampleNode.mempool = .new 10 1 := rfl
  have hpool : sampleRpcEnv.pool = TxDagMempool.sampleEnv := rfl
  have hsubmit : submit sampleCrypto sampleNode sampleRpcEnv sampleAside =
      (.ok (), { sampleNode with mempool := m }) := by
    unfold submit
    rw [hmempool, hpool, hadd]
  unfold sendTransaction
  rw [hvalid]
  dsimp only
  rw [hsubmit]

theorem namesHash_hexEncode (h : Bytes 32) : NamesHash (hexEncode h.toList) h :=
  hexDecode_hexEncode h.toList

theorem getDagInfo_singleton {s : RpcState} {leaf : BlockHash} (h : s.dag.getTips = {leaf}) :
    getDagInfo s sampleRpcEnv =
      .dag [hexEncode leaf.toList] s.dag.store.getAllBlocks.length 1 := by
  have hiter : sampleRpcEnv.tips.iter {leaf} = [leaf] := Finset.sort_singleton _ _
  unfold getDagInfo
  rw [h, hiter]
  exact rfl

/-- A genesis block with one child: the child is the only tip, both blocks are counted, a
transaction that is sent is found again, and a contract call is refused. -/
theorem requests_served_sample :
    (∃ tips, getDagInfo sampleNode sampleRpcEnv = .dag tips 2 1 ∧
      hexEncode BlockDag.sampleLeaf.toList ∈ tips) ∧
    (∃ b, getBlock sampleNode (hexEncode BlockDag.sampleLeaf.toList) =
      .block (hexEncode BlockDag.sampleLeaf.toList) (some b) ∧ b.hash = BlockDag.sampleLeaf) ∧
    getTransaction sampleCrypto
      (serve sampleCrypto sampleNode sampleRpcEnv (.sendTransaction sampleAside)).2
      (hexEncode (sampleAside.hash sampleCrypto).toList) =
        .transaction (hexEncode (sampleAside.hash sampleCrypto).toList) (some sampleAside) ∧
    ∀ request, (serve sampleCrypto sampleNode sampleRpcEnv (.callContract request)).1 =
        .failed .badRequest ∨
      (serve sampleCrypto sampleNode sampleRpcEnv (.callContract request)).1 =
        .failed .internalServerError := by
  obtain ⟨hsound, hcount, htips⟩ := sampleNode_evaluated
  obtain ⟨hserved, blocks, pending, hreads⟩ := requests_served sampleCrypto 10 1
    sampleLedger.state none (BlockDag.sampleCalls.map .dag) hsound
  change ∀ env r, Served sampleCrypto sampleNode r _ _ at hserved
  change AnswersReads sampleCrypto sampleNode blocks pending at hreads
  have hdag : sampleNode.dag = BlockDag.run sampleCrypto BlockDag.sampleCalls := dag_run _ _
  have hcard : blocks.card = 2 := by
    have hnode : getNodeInfo sampleNode =
        .nodeInfo "unknown" [] sampleNode.mempool.txCount sampleNode.dag.blockCount := rfl
    rw [hreads.node, hdag, hcount] at hnode
    injection hnode
  obtain ⟨tips, hinfo, -, hmem⟩ := hreads.dag sampleRpcEnv
  have hlist : tips = [hexEncode BlockDag.sampleLeaf.toList] :=
    (Reply.dag.inj (hinfo.symm.trans (getDagInfo_singleton (hdag.symm ▸ htips)))).1
  subst hlist
  rw [hcard] at hinfo
  refine ⟨⟨_, hinfo, List.mem_singleton_self _⟩, ?_, ?_, fun request => ?_⟩
  · obtain ⟨b, hb, -, htext⟩ := (hmem _).mp (List.mem_singleton_self _)
    have hhash : BlockDag.sampleLeaf = b.hash :=
      List.Vector.toList_injective (hexEncode_injective htext)
    obtain ⟨found, hreply, hfound⟩ := hreads.block _ _ (namesHash_hexEncode BlockDag.sampleLeaf)
    obtain rfl := (hfound b).mpr ⟨hb, hhash.symm⟩
    exact ⟨b, hreply, hhash.symm⟩
  · obtain ⟨tx, htx, hfound⟩ :=
      (hserved sampleRpcEnv (.sendTransaction sampleAside)).submitted sampleAside_submitted
    obtain rfl := Request.sendTransaction.inj htx
    exact hfound
  · exact ((hserved sampleRpcEnv (.callContract request)).contract rfl).1

end Sample

end RpcServer

end CytahSpeed
