import CytahSpeed.FiniteMap
import CytahSpeed.Transaction

/-!
# The mobile wallet

The three calls that submit a transaction share their steps: they write the account nonce that the
client reports into the nonce cache, read it back, build and sign a transaction with it, send it,
and write the next nonce into the cache. The next call overwrites that entry before it reads it.
So the nonces of a run are the reports at its successful calls, and they increase exactly when
those reports do.
-/

namespace CytahSpeed
open ByteString FiniteMap

inductive SdkError
  | networkError (text : String)
  | rpcError (text : String)
  | cryptoError (text : String)
  | transactionError (text : String)
  | serializationError (text : String)
  deriving DecidableEq

structure TransactionBuilder where
  fromAddr : Option Address
  payload : Option TxPayload
  nonce : Option UInt64
  gasLimit : Option UInt64
  gasPrice : Option UInt64
  deriving DecidableEq

namespace TransactionBuilder

def new : TransactionBuilder := ⟨none, none, none, none, none⟩

variable (b : TransactionBuilder)

def build : Except SdkError Transaction :=
  match b.fromAddr, b.payload with
  | none, _ => .error (.transactionError "Missing from address")
  | some _, none => .error (.transactionError "Missing payload")
  | some fromAddr, some payload =>
    .ok ⟨fromAddr, payload, b.nonce.getD 0, b.gasLimit.getD 21000, b.gasPrice.getD 1, .empty⟩

/-- `sign` is the wallet's signature of the transaction's hash, or its refusal. -/
def buildAndSign (sign : Transaction → Except SdkError Signature) : Except SdkError Transaction :=
  match b.build with
  | .error e => .error e
  | .ok tx =>
    match sign tx with
    | .error e => .error e
    | .ok signature => .ok { tx with signature }

end TransactionBuilder

/-- What a call meets: the account nonce that `client.get_balance` returns, the wallet's signature,
and the answer of `client.send_transaction`. -/
structure ClientEnv where
  report : Except SdkError UInt64
  sign : Transaction → Except SdkError Signature
  send : Transaction → Except SdkError Unit

structure MobileWallet where
  address : Address
  nonceCache : Map Address UInt64

namespace MobileWallet

variable (w : MobileWallet)

def getNextNonce (address : Address) : UInt64 := (w.nonceCache.lookup address).getD 0

def updateNonce (address : Address) (nonce : UInt64) : MobileWallet :=
  { w with nonceCache := w.nonceCache.insert address nonce }

def syncNonce (report : Except SdkError UInt64) : Except SdkError Unit × MobileWallet :=
  match report with
  | .error e => (.error e, w)
  | .ok nonce => (.ok (), w.updateNonce w.address nonce)

def clearNonceCache : MobileWallet := { w with nonceCache := ∅ }

/-- The steps that the submitting calls share, with the transaction they submit. -/
def submit (env : ClientEnv) (payload : TxPayload) (gasLimit gasPrice : UInt64) :
    Except SdkError Transaction × MobileWallet :=
  match w.syncNonce env.report with
  | (.error e, w) => (.error e, w)
  | (.ok _, w) =>
    let nonce := w.getNextNonce w.address
    let builder : TransactionBuilder := { TransactionBuilder.new with
      fromAddr := some w.address, payload := some payload, nonce := some nonce
      gasLimit := some gasLimit, gasPrice := some gasPrice }
    match builder.buildAndSign env.sign with
    | .error e => (.error e, w)
    | .ok tx =>
      match env.send tx with
      | .error e => (.error e, w)
      | .ok _ => (.ok tx, w.updateNonce w.address (nonce + 1))

def sendTokens (env : ClientEnv) (toAddr : Address) (amount gasPrice : UInt64) :
    Except SdkError Transaction × MobileWallet :=
  w.submit env (.transfer toAddr amount) 21000 gasPrice

def callContract (env : ClientEnv) (contractAddress : Address) (method : String)
    (args : List UInt8) (gasLimit gasPrice : UInt64) : Except SdkError Transaction × MobileWallet :=
  w.submit env (.contractCall contractAddress method args) gasLimit gasPrice

def deployContract (env : ClientEnv) (wasmCode initArgs : List UInt8)
    (gasLimit gasPrice : UInt64) : Except SdkError Transaction × MobileWallet :=
  w.submit env (.contractDeploy wasmCode initArgs) gasLimit gasPrice

inductive Call
  | sendTokens (env : ClientEnv) (toAddr : Address) (amount gasPrice : UInt64)
  | callContract (env : ClientEnv) (contractAddress : Address) (method : String)
      (args : List UInt8) (gasLimit gasPrice : UInt64)
  | deployContract (env : ClientEnv) (wasmCode initArgs : List UInt8)
      (gasLimit gasPrice : UInt64)
  | syncNonce (report : Except SdkError UInt64)
  | clearNonceCache

def record (txs : List Transaction) :
    Except SdkError Transaction × MobileWallet → MobileWallet × List Transaction
  | (.ok tx, w) => (w, txs ++ [tx])
  | (.error _, w) => (w, txs)

def step (s : MobileWallet × List Transaction) : Call → MobileWallet × List Transaction
  | .sendTokens env toAddr amount gasPrice =>
    record s.2 (s.1.sendTokens env toAddr amount gasPrice)
  | .callContract env contractAddress method args gasLimit gasPrice =>
    record s.2 (s.1.callContract env contractAddress method args gasLimit gasPrice)
  | .deployContract env wasmCode initArgs gasLimit gasPrice =>
    record s.2 (s.1.deployContract env wasmCode initArgs gasLimit gasPrice)
  | .syncNonce report => ((s.1.syncNonce report).2, s.2)
  | .clearNonceCache => (s.1.clearNonceCache, s.2)

end MobileWallet

/-- The report that reaches a successful submission: the signature of the transaction with that
nonce is made, and the node takes it. -/
def ClientEnv.reported (env : ClientEnv) (address : Address) (payload : TxPayload)
    (gasLimit gasPrice : UInt64) : Option UInt64 :=
  match env.report with
  | .error _ => none
  | .ok nonce =>
    let tx : Transaction := ⟨address, payload, nonce, gasLimit, gasPrice, .empty⟩
    match env.sign tx with
    | .error _ => none
    | .ok signature =>
      match env.send { tx with signature } with
      | .error _ => none
      | .ok _ => some nonce

namespace MobileWallet

def Call.reported (address : Address) : Call → Option UInt64
  | .sendTokens env toAddr amount gasPrice =>
    env.reported address (.transfer toAddr amount) 21000 gasPrice
  | .callContract env contractAddress method args gasLimit gasPrice =>
    env.reported address (.contractCall contractAddress method args) gasLimit gasPrice
  | .deployContract env wasmCode initArgs gasLimit gasPrice =>
    env.reported address (.contractDeploy wasmCode initArgs) gasLimit gasPrice
  | .syncNonce _ => none
  | .clearNonceCache => none

variable {w : MobileWallet}

theorem getNextNonce_updateNonce (address : Address) (nonce : UInt64) :
    (w.updateNonce address nonce).getNextNonce address = nonce := by
  simp [updateNonce, getNextNonce]

theorem submit_eq {env : ClientEnv} {nonce : UInt64} (hreport : env.report = .ok nonce)
    (payload : TxPayload) (gasLimit gasPrice : UInt64) :
    w.submit env payload gasLimit gasPrice =
      let synced := w.updateNonce w.address nonce
      let tx : Transaction := ⟨w.address, payload, nonce, gasLimit, gasPrice, .empty⟩
      match env.sign tx with
      | .error e => (.error e, synced)
      | .ok signature =>
        match env.send { tx with signature } with
        | .error e => (.error e, synced)
        | .ok _ => (.ok { tx with signature }, synced.updateNonce w.address (nonce + 1)) := by
  have haddress : (w.updateNonce w.address nonce).address = w.address := rfl
  simp only [submit, syncNonce, hreport, haddress, getNextNonce_updateNonce,
    TransactionBuilder.buildAndSign, TransactionBuilder.build, Option.getD_some]
  cases env.sign ⟨w.address, payload, nonce, gasLimit, gasPrice, .empty⟩ <;> rfl

theorem record_submit (txs : List Transaction) (env : ClientEnv) (payload : TxPayload)
    (gasLimit gasPrice : UInt64) :
    (record txs (w.submit env payload gasLimit gasPrice)).1.address = w.address ∧
      (record txs (w.submit env payload gasLimit gasPrice)).2.map (·.nonce) =
        txs.map (·.nonce) ++ (env.reported w.address payload gasLimit gasPrice).toList := by
  cases hreport : env.report with
  | error e => simp [submit, syncNonce, ClientEnv.reported, record, hreport]
  | ok nonce =>
    simp only [submit_eq hreport, ClientEnv.reported, hreport]
    cases env.sign ⟨w.address, payload, nonce, gasLimit, gasPrice, .empty⟩ with
    | error e => exact ⟨rfl, by simp [record]⟩
    | ok signature =>
      simp only
      cases env.send ⟨w.address, payload, nonce, gasLimit, gasPrice, signature⟩ with
      | error e => exact ⟨rfl, by simp [record]⟩
      | ok _ => exact ⟨rfl, by simp [record]⟩

theorem step_spec (txs : List Transaction) (call : Call) :
    (step (w, txs) call).1.address = w.address ∧
      (step (w, txs) call).2.map (·.nonce) =
        txs.map (·.nonce) ++ (call.reported w.address).toList := by
  cases call with
  | sendTokens env toAddr amount gasPrice => exact record_submit txs env _ _ _
  | callContract env contractAddress method args gasLimit gasPrice =>
    exact record_submit txs env _ _ _
  | deployContract env wasmCode initArgs gasLimit gasPrice => exact record_submit txs env _ _ _
  | syncNonce report => cases report <;> exact ⟨rfl, (List.append_nil _).symm⟩
  | clearNonceCache => exact ⟨rfl, (List.append_nil _).symm⟩

/-- The nonces of a run are the reports at its successful calls, whatever the cache holds. -/
theorem nonces_run (w : MobileWallet) (txs : List Transaction) (calls : List Call) :
    (calls.foldl step (w, txs)).2.map (·.nonce) =
      txs.map (·.nonce) ++ calls.filterMap (Call.reported w.address) := by
  induction calls generalizing w txs with
  | nil => simp
  | cons call calls ih =>
    obtain ⟨haddress, hnonces⟩ := step_spec (w := w) txs call
    rw [List.foldl_cons, ← Prod.eta (step (w, txs) call), ih, haddress, hnonces,
      List.filterMap_cons]
    cases call.reported w.address <;> simp

/-- The transactions of a run have pairwise distinct, increasing nonces exactly when every report
at a successful call is above the reports at the successful calls before it. -/
theorem nonces_increasing_iff (w : MobileWallet) (calls : List Call) :
    (((calls.foldl step (w, [])).2.map (·.nonce)).Nodup ∧
        ((calls.foldl step (w, [])).2.map (·.nonce)).Pairwise (· < ·)) ↔
      (calls.filterMap (Call.reported w.address)).Pairwise (· < ·) := by
  rw [nonces_run w [] calls, List.map_nil, List.nil_append]
  constructor
  · intro h
    exact h.2
  · intro h
    exact ⟨h.imp fun hlt => UInt64.ne_of_lt hlt, h⟩

section Sample

def sampleEnv : ClientEnv :=
  ⟨.ok 5, fun _ => .ok ⟨.secp256k1, List.replicate 65 0⟩, fun _ => .ok ()⟩

def sampleCalls : List Call :=
  [.sendTokens sampleEnv (Bytes.fill 20 2) 100 1, .sendTokens sampleEnv (Bytes.fill 20 3) 100 1]

/-- Two transfers while the first is not confirmed carry one nonce. -/
theorem nonces_increasing_sample :
    ¬ ((sampleCalls.foldl step (⟨Bytes.fill 20 1, ∅⟩, [])).2.map (·.nonce)).Nodup := by
  decide

end Sample

end MobileWallet

end CytahSpeed
