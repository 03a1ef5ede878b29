import CytahSpeed.DagRun
import CytahSpeed.HexDecoding
import CytahSpeed.Mempool

/-!
# The RPC server

The handlers read the node's DAG, mempool and state and write the mempool alone. A transaction that
is sent is validated first. A contract is deployed or called by a transaction that the server makes
up itself, from the named sender and without a signature, which no mempool takes. A transaction is
looked up by its hash in the mempool and then in the stored blocks.
-/

namespace CytahSpeed
open ByteString FiniteMap

namespace TxDagMempool

variable (m : TxDagMempool)

def getTransaction (hash : TxId) : Option MempoolTransaction := m.transactions.lookup hash

def txCount : ℕ := m.size

def Keyed (c : Crypto) (m : TxDagMempool) : Prop :=
  ∀ h t, m.transactions.lookup h = some t → t.transaction.hash c = h

end TxDagMempool

namespace RpcServer

inductive StatusCode
  | badRequest
  | notFound
  | internalServerError
  deriving DecidableEq

structure DeployContractRequest where
  sender : String
  nonce : UInt64
  wasmCode : String
  initArgs : Option String

structure CallContractRequest where
  sender : String
  nonce : UInt64
  contractAddress : String
  method : String
  args : Option String

inductive Request
  | sendTransaction (transaction : Transaction)
  | getBalance (address : String)
  | getBlock (hash : String)
  | getTransaction (hash : String)
  | getDagInfo
  | getNodeInfo
  | deployContract (request : DeployContractRequest)
  | callContract (request : CallContractRequest)

def Request.isContract : Request → Bool
  | deployContract _ => true
  | callContract _ => true
  | _ => false

/-- The answers, each with what its response holds. -/
inductive Reply
  | failed (status : StatusCode)
  | submitted
  | balance (address : String) (balance nonce : UInt64)
  | block (hash : String) (block : Option Block)
  | transaction (hash : String) (transaction : Option Transaction)
  | dag (tips : List String) (totalBlocks tipsCount : ℕ)
  | nodeInfo (peerId : String) (connectedPeers : List String) (mempoolSize dagHeight : ℕ)
  | deployed (contractAddress txHash : String)
  | called (status : String) (result : Option String)

structure RpcState where
  dag : BlockDag
  mempool : TxDagMempool
  stateManager : StateManager
  connectedPeers : Option (List String)

structure RpcEnv where
  pool : PoolEnv
  tips : SetOrder BlockHash
  toJson : Transaction → List UInt8

def afterPrefix (s : String) : Option String :=
  match s.toList with
  | 'c' :: 'y' :: 't' :: rest => some (String.ofList rest)
  | _ => none

def decodeBytes (n : ℕ) (text : String) : Except StatusCode (Bytes n) :=
  match hexDecode text with
  | .error _ => .error .badRequest
  | .ok data => if h : data.length = n then .ok ⟨data, h⟩ else .error .badRequest

/-- The inline parsers of `get_balance` and `call_contract` are this one again. -/
def parseAddress (text : String) : Except StatusCode Address :=
  match afterPrefix text with
  | none => .error .badRequest
  | some digits => decodeBytes 20 digits

def parseHash (text : String) : Except StatusCode (Bytes 32) := decodeBytes 32 text

/-- Arguments that are no hexadecimal text count as none. -/
def decodeArgs : Option String → List UInt8
  | some text =>
    match hexDecode text with
    | .ok data => data
    | .error _ => []
  | none => []

variable (c : Crypto) (s : RpcState) (env : RpcEnv)

/-- The handlers pass no parents and no source. -/
def submit (tx : Transaction) : Except String Unit × RpcState :=
  match s.mempool.addTransaction c env.pool tx [] none with
  | (result, mempool) => (result, { s with mempool })

def sendTransaction (tx : Transaction) : Reply × RpcState :=
  match tx.validateBasic c with
  | .error _ => (.failed .badRequest, s)
  | .ok _ =>
    match submit c s env tx with
    | (.error _, s) => (.failed .internalServerError, s)
    | (.ok _, s) => (.submitted, s)

def getBalance (text : String) : Reply :=
  match parseAddress text with
  | .error status => .failed status
  | .ok address =>
    match s.stateManager.getAccount address with
    | some account => .balance text account.balance account.nonce
    | none => .failed .notFound

def getBlock (text : String) : Reply :=
  match parseHash text with
  | .error status => .failed status
  | .ok hash => .block text (s.dag.getBlock hash)

/-- The mempool first, then the blocks in the order of their hashes. -/
def findTransaction (hash : TxId) : Option Transaction :=
  match s.mempool.getTransaction hash with
  | some mempoolTx => some mempoolTx.transaction
  | none => (s.dag.store.getAllBlocks.flatMap (·.transactions)).find? fun tx => tx.hash c = hash

def getTransaction (text : String) : Reply :=
  match parseHash text with
  | .error status => .failed status
  | .ok hash => .transaction text (findTransaction c s hash)

def getDagInfo : Reply :=
  let tips := (env.tips.iter s.dag.getTips).map fun h => hexEncode h.toList
  .dag tips s.dag.store.getAllBlocks.length tips.length

def getNodeInfo : Reply :=
  .nodeInfo "unknown" (s.connectedPeers.getD []) s.mempool.txCount s.dag.blockCount

theorem digestHead_le : 0 + 20 ≤ 32 := by decide

/-- The address of the answer is taken from the digest of the JSON text. -/
def deployContract (request : DeployContractRequest) : Reply × RpcState :=
  match hexDecode request.wasmCode, parseAddress request.sender with
  | .error _, _ => (.failed .badRequest, s)
  | .ok _, .error status => (.failed status, s)
  | .ok wasmCode, .ok sender =>
    let tx : Transaction := ⟨sender, .contractDeploy wasmCode (decodeArgs request.initArgs),
      request.nonce, 1000000, 1, .empty⟩
    match submit c s env tx with
    | (.error _, s) => (.failed .internalServerError, s)
    | (.ok _, s) =>
      let txHash := c.sha256 (env.toJson tx)
      (.deployed ("cyt" ++ hexEncode (txHash.slice 0 20 digestHead_le).toList)
        (hexEncode txHash.toList), s)

def callContract (request : CallContractRequest) : Reply × RpcState :=
  match parseAddress request.contractAddress, parseAddress request.sender with
  | .error status, _ => (.failed status, s)
  | .ok _, .error status => (.failed status, s)
  | .ok contractAddress, .ok sender =>
    let tx : Transaction := ⟨sender,
      .contractCall contractAddress request.method (decodeArgs request.args), request.nonce,
      1000000, 1, .empty⟩
    match submit c s env tx with
    | (.error _, s) => (.failed .internalServerError, s)
    | (.ok _, s) => (.called "success" none, s)

def serve : Request → Reply × RpcState
  | .sendTransaction tx => sendTransaction c s env tx
  | .getBalance text => (getBalance s text, s)
  | .getBlock text => (getBlock s text, s)
  | .getTransaction text => (getTransaction c s text, s)
  | .getDagInfo => (getDagInfo s env, s)
  | .getNodeInfo => (getNodeInfo s, s)
  | .deployContract request => deployContract c s env request
  | .callContract request => callContract c s env request

inductive Event
  | request (env : RpcEnv) (r : Request)
  | mempool (call : TxDagMempool.PoolCall)
  | dag (call : Call)
  | state (stateManager : StateManager)

def step (s : RpcState) : Event → RpcState
  | .request env r => (serve c s env r).2
  | .mempool call => { s with mempool := s.mempool.exec c call }
  | .dag call => { s with dag := s.dag.exec c call }
  | .state stateManager => { s with stateManager }

def run (s : RpcState) (events : List Event) : RpcState := events.foldl (step c) s

def RpcState.Holds (s : RpcState) (tx : Transaction) : Prop :=
  (∃ h t, s.mempool.getTransaction h = some t ∧ t.transaction = tx) ∨
    ∃ b ∈ s.dag.store.getAllBlocks, tx ∈ b.transactions

/-- What a request does: it reads the DAG and the state and leaves them, a transaction enters the
mempool only if it was sent and is valid, and can then be looked up. A request to deploy or call a
contract fails, and costs the mempool at most entries that pay nothing. -/
structure Served (c : Crypto) (s : RpcState) (r : Request) (reply : Reply) (s' : RpcState) :
    Prop where
  dag : s'.dag = s.dag
  stateManager : s'.stateManager = s.stateManager
  entered : ∀ h t, s'.mempool.getTransaction h = some t → s.mempool.getTransaction h = some t ∨
    (reply = .submitted ∧ r = .sendTransaction t.transaction ∧ t.transaction.hash c = h ∧
      t.transaction.validateBasic c = .ok ())
  submitted : reply = .submitted → ∃ tx, r = .sendTransaction tx ∧
    getTransaction c s' (hexEncode (tx.hash c).toList) =
      .transaction (hexEncode (tx.hash c).toList) (some tx)
  contract : r.isContract = true →
    (reply = .failed .badRequest ∨ reply = .failed .internalServerError) ∧
      ∀ h t, s.mempool.getTransaction h = some t → s'.mempool.getTransaction h = some t ∨
        t.transaction.gasPrice = 0

section Serve
variable {c : Crypto} {s : RpcState} {env : RpcEnv}

theorem parseHash_hexEncode (h : Bytes 32) : parseHash (hexEncode h.toList) = .ok h := by
  unfold parseHash decodeBytes
  rw [hexDecode_hexEncode]
  exact dif_pos (Bytes.length_toList h)

theorem submit_dag (s : RpcState) (env : RpcEnv) (tx : Transaction) :
    (submit c s env tx).2.dag = s.dag ∧ (submit c s env tx).2.stateManager = s.stateManager :=
  ⟨rfl, rfl⟩

theorem getTransaction_submit (s : RpcState) (env : RpcEnv) (tx : Transaction) :
    ((submit c s env tx).1 = .ok () ∧ tx.signature.data ≠ [] ∧
        (∃ t, (submit c s env tx).2.mempool.getTransaction (tx.hash c) = some t ∧
          t.transaction = tx) ∧
        ∀ h t, h ≠ tx.hash c → (submit c s env tx).2.mempool.getTransaction h = some t →
          s.mempool.getTransaction h = some t) ∨
      ((∃ e, (submit c s env tx).1 = .error e) ∧
        (∀ h t, (submit c s env tx).2.mempool.getTransaction h = some t →
          s.mempool.getTransaction h = some t) ∧
        ∀ h t, s.mempool.getTransaction h = some t →
          (submit c s env tx).2.mempool.getTransaction h = some t ∨
            t.transaction.gasPrice < tx.gasPrice) := by
  unfold submit TxDagMempool.getTransaction
  rcases TxDagMempool.addTransaction_cases c s.mempool env.pool tx [] none with
    ⟨haccepts, rates, hadd⟩ | ⟨-, e, rates, hadd⟩
  · obtain ⟨t, ht, -, -, hlookup⟩ := TxDagMempool.lookup_addToPool c
      (s.mempool.withoutEntry (s.mempool.evicted env.pool tx none)) tx [] env.pool.now
    rw [hadd]
    refine Or.inl ⟨rfl, haccepts.signed, ⟨t, ?_, ht⟩, ?_⟩
    · exact (hlookup (tx.hash c)).trans (if_pos rfl)
    · intro h t' hne ht'
      have hold := (hlookup h).symm.trans ht'
      rw [if_neg hne, TxDagMempool.lookup_withoutEntry] at hold
      split_ifs at hold
      exact hold
  · rw [hadd]
    refine Or.inr ⟨⟨e, rfl⟩, ?_, ?_⟩
    · intro h t ht
      have hold := (TxDagMempool.lookup_withoutEntry s.mempool _ h).symm.trans ht
      split_ifs at hold
      exact hold
    · intro h t ht
      by_cases hgone : some h = s.mempool.evicted env.pool tx none
      · obtain ⟨-, low, hlow, hprice⟩ := TxDagMempool.evicted_spec hgone.symm
        obtain rfl := Option.some.inj (hlow.1.symm.trans ht)
        exact Or.inr hprice
      · refine Or.inl ?_
        change ((s.mempool.withoutEntry _).transactions.lookup h) = some t
        rw [TxDagMempool.lookup_withoutEntry, if_neg hgone]
        exact ht

theorem submit_unsigned (s : RpcState) (env : RpcEnv) {tx : Transaction}
    (htx : tx.signature.data = []) :
    (∃ e, (submit c s env tx).1 = .error e) ∧
      (∀ h t, (submit c s env tx).2.mempool.getTransaction h = some t →
        s.mempool.getTransaction h = some t) ∧
      ∀ h t, s.mempool.getTransaction h = some t →
        (submit c s env tx).2.mempool.getTransaction h = some t ∨
          t.transaction.gasPrice < tx.gasPrice := by
  rcases getTransaction_submit (c := c) s env tx with ⟨-, hsigned, -⟩ | hrefused
  · exact absurd htx hsigned
  · exact hrefused

theorem served_read {r : Request} {reply : Reply} (hreply : reply ≠ .submitted)
    (hr : r.isContract = false) : Served c s r reply s := by
  refine ⟨rfl, rfl, fun _ _ => Or.inl, fun h => absurd h hreply, ?_⟩
  intro h
  rw [hr] at h
  cases h

theorem served_badRequest (r : Request) : Served c s r (.failed .badRequest) s :=
  ⟨rfl, rfl, fun _ _ => Or.inl, nofun, fun _ => ⟨Or.inl rfl, fun _ _ => Or.inl⟩⟩

theorem served_sendTransaction (tx : Transaction) :
    Served c s (.sendTransaction tx) (sendTransaction c s env tx).1
      (sendTransaction c s env tx).2 := by
  unfold sendTransaction
  cases hvalid : tx.validateBasic c with
  | error e => exact served_read nofun rfl
  | ok u =>
    rcases getTransaction_submit (c := c) s env tx with
      ⟨hok, -, ⟨t, ht, htx⟩, hkept⟩ | ⟨⟨e, herror⟩, hkept, -⟩
    · rcases hsubmit : submit c s env tx with ⟨result, s'⟩
      rw [hsubmit] at hok ht hkept
      obtain rfl : result = .ok () := hok
      obtain ⟨hdag, hstate⟩ := submit_dag (c := c) s env tx
      rw [hsubmit] at hdag hstate
      refine ⟨hdag, hstate, ?_, ?_, ?_⟩
      · intro h t' ht'
        by_cases hh : h = tx.hash c
        · subst hh
          obtain rfl := Option.some.inj (ht.symm.trans ht')
          exact Or.inr ⟨rfl, by rw [htx], by rw [htx], by rw [htx]; exact hvalid⟩
        · exact Or.inl (hkept h t' hh ht')
      · intro _
        refine ⟨tx, rfl, ?_⟩
        unfold getTransaction
        rw [parseHash_hexEncode]
        dsimp only
        unfold findTransaction
        rw [ht]
        dsimp only
        rw [htx]
      · exact nofun
    · rcases hsubmit : submit c s env tx with ⟨result, s'⟩
      rw [hsubmit] at herror hkept
      obtain rfl : result = .error e := herror
      obtain ⟨hdag, hstate⟩ := submit_dag (c := c) s env tx
      rw [hsubmit] at hdag hstate
      refine ⟨hdag, hstate, fun h t ht => Or.inl (hkept h t ht), nofun, nofun⟩

theorem gasPrice_eq_zero {price : UInt64} (h : price < 1) : price = 0 := by
  have hlt := UInt64.lt_iff_toNat_lt.mp h
  apply UInt64.toNat_inj.mp
  change price.toNat < 1 at hlt
  exact Nat.lt_one_iff.mp hlt

/-- Both contract handlers come down to a transaction that is not signed and offers a price of
one. -/
theorem served_unsigned (s : RpcState) (env : RpcEnv) (r : Request) (sender : Address)
    (payload : TxPayload) (nonce : UInt64) :
    ∃ e, (submit c s env ⟨sender, payload, nonce, 1000000, 1, .empty⟩).1 = .error e ∧
      Served c s r (.failed .internalServerError)
        (submit c s env ⟨sender, payload, nonce, 1000000, 1, .empty⟩).2 := by
  obtain ⟨⟨e, herror⟩, hkept, hlost⟩ := submit_unsigned (c := c) s env
    (show (Transaction.mk sender payload nonce 1000000 1 .empty).signature.data = [] from rfl)
  refine ⟨e, herror, rfl, rfl, fun h t ht => Or.inl (hkept h t ht), nofun,
    fun _ => ⟨Or.inr rfl, ?_⟩⟩
  intro h t ht
  rcases hlost h t ht with hsame | hless
  · exact Or.inl hsame
  · exact Or.inr (gasPrice_eq_zero hless)

theorem error_parseAddress {text : String} {status : StatusCode}
    (h : parseAddress text = .error status) : status = .badRequest := by
  unfold parseAddress decodeBytes at h
  cases hdigits : afterPrefix text with
  | none =>
    rw [hdigits] at h
    exact (Except.error.inj h).symm
  | some digits =>
    rw [hdigits] at h
    dsimp only at h
    cases hdata : hexDecode digits with
    | error e =>
      rw [hdata] at h
      exact (Except.error.inj h).symm
    | ok data =>
      rw [hdata] at h
      dsimp only at h
      split_ifs at h
      exact (Except.error.inj h).symm

theorem served_deployContract (request : DeployContractRequest) :
    Served c s (.deployContract request) (deployContract c s env request).1
      (deployContract c s env request).2 := by
  unfold deployContract
  cases hexDecode request.wasmCode with
  | error e => exact served_badRequest _
  | ok wasmCode =>
    cases hsender : parseAddress request.sender with
    | error status =>
      obtain rfl := error_parseAddress hsender
      exact served_badRequest _
    | ok sender =>
      dsimp only
      obtain ⟨e, herror, hserved⟩ := served_unsigned (c := c) s env (.deployContract request) sender
        (.contractDeploy wasmCode (decodeArgs request.initArgs)) request.nonce
      rcases hsubmit : submit c s env _ with ⟨result, s'⟩
      rw [hsubmit] at hserved herror
      obtain rfl : result = .error e := herror
      exact hserved

theorem served_callContract (request : CallContractRequest) :
    Served c s (.callContract request) (callContract c s env request).1
      (callContract c s env request).2 := by
  unfold callContract
  cases haddress : parseAddress request.contractAddress with
  | error status =>
    obtain rfl := error_parseAddress haddress
    exact served_badRequest _
  | ok address =>
    cases hsender : parseAddress request.sender with
    | error status =>
      obtain rfl := error_parseAddress hsender
      exact served_badRequest _
    | ok sender =>
      dsimp only
      obtain ⟨e, herror, hserved⟩ := served_unsigned (c := c) s env (.callContract request) sender
        (.contractCall address request.method (decodeArgs request.args)) request.nonce
      rcases hsubmit : submit c s env _ with ⟨result, s'⟩
      rw [hsubmit] at hserved herror
      obtain rfl : result = .error e := herror
      exact hserved

theorem served_serve (s : RpcState) (env : RpcEnv) (r : Request) :
    Served c s r (serve c s env r).1 (serve c s env r).2 := by
  cases r with
  | sendTransaction tx => exact served_sendTransaction tx
  | getBalance text =>
    apply served_read _ rfl
    change getBalance s text ≠ .submitted
    unfold getBalance
    split
    · nofun
    · split <;> nofun
  | getBlock text =>
    apply served_read _ rfl
    change getBlock s text ≠ .submitted
    unfold getBlock
    split <;> nofun
  | getTransaction text =>
    apply served_read _ rfl
    change getTransaction c s text ≠ .submitted
    unfold getTransaction
    split <;> nofun
  | getDagInfo => exact served_read nofun rfl
  | getNodeInfo => exact served_read nofun rfl
  | deployContract request => exact served_deployContract request
  | callContract request => exact served_callContract request

end Serve

section Run
variable {c : Crypto} {s : RpcState} {m : TxDagMempool}

theorem keyed_new (maxSize : ℕ) (minGasPrice : UInt64) :
    (TxDagMempool.new maxSize minGasPrice).Keyed c := nofun

theorem keyed_exec (h : m.Keyed c) (call : TxDagMempool.PoolCall) : (m.exec c call).Keyed c := by
  cases call with
  | addTransaction env tx parents source =>
    intro k t hk
    change (m.addTransaction c env tx parents source).2.transactions.lookup k = some t at hk
    have hgone : ∀ t, (m.withoutEntry (m.evicted env tx source)).transactions.lookup k = some t →
        t.transaction.hash c = k := by
      intro t ht
      rw [TxDagMempool.lookup_withoutEntry] at ht
      split_ifs at ht
      exact h k t ht
    rcases TxDagMempool.addTransaction_cases c m env tx parents source with
      ⟨-, rates, hadd⟩ | ⟨-, e, rates, hadd⟩
    · obtain ⟨t', ht', -, -, hlookup⟩ := TxDagMempool.lookup_addToPool c
        (m.withoutEntry (m.evicted env tx source)) tx parents env.now
      rw [hadd] at hk
      have heq := (hlookup k).symm.trans hk
      split_ifs at heq with hkey
      · rw [← Option.some.inj heq, ht', hkey]
      · exact hgone t heq
    · rw [hadd] at hk
      exact hgone t hk
  | removeTransaction txHash =>
    intro k t hk
    change (m.removeTransaction txHash).2.transactions.lookup k = some t at hk
    cases hfound : m.transactions.lookup txHash with
    | none =>
      rw [TxDagMempool.removeTransaction_of_none hfound] at hk
      exact h k t hk
    | some removed =>
      rw [TxDagMempool.removeTransaction_of_some hfound] at hk
      change (m.transactions.erase txHash).lookup k = some t at hk
      rw [lookup_erase_eq_ite] at hk
      split_ifs at hk
      exact h k t hk
  | setBaseFee fee => exact h
  | clear => exact nofun

theorem keyed_step (h : s.mempool.Keyed c) (e : Event) : (step c s e).mempool.Keyed c := by
  cases e with
  | request env r =>
    intro k t hk
    rcases (served_serve (c := c) s env r).entered k t hk with hold | ⟨-, -, hkey, -⟩
    · exact h k t hold
    · exact hkey
  | mempool call => exact keyed_exec h call
  | dag call => exact h
  | state stateManager => exact h

theorem keyed_run (h : s.mempool.Keyed c) (events : List Event) :
    (run c s events).mempool.Keyed c := by
  induction events generalizing s with
  | nil => exact h
  | cons e events ih => exact ih (keyed_step h e)

end Run

end RpcServer

end CytahSpeed
