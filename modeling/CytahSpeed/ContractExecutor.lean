import CytahSpeed.TransferLaw
import CytahSpeed.WasmEngine

/-!
# The contract executor

One transaction on the state, the registry and the store. A contract runs on the store itself, the
gas it used is paid afterwards, and a deployed contract is registered last: whatever stops the
transaction, the writes made until then stay. Everything that can happen to a contract transaction
is said once, in `executeTransaction_contract`.
-/

namespace CytahSpeed
open ByteString FiniteMap MachineInt ParallelExecutor StateManager

structure ContractExecutor where
  stateManager : StateManager
  registry : ContractRegistry
  storage : ContractStorage
  runtime : WasmRuntime

/-- Nothing is set up for a new contract yet. -/
def ContractStorage.initializeContract (_storage : ContractStorage) (_address : Address) :
    Except String Unit := .ok ()

namespace ContractExecutor

def new (engine : WasmEngine) (stateManager : StateManager) (registry : ContractRegistry)
    (storage : ContractStorage) : ContractExecutor :=
  ⟨stateManager, registry, storage, .new engine⟩

variable (c : Crypto) (order : IterOrder Address Account) (e : ContractExecutor)
  (tx : Transaction)

/-- A contract runs on the store itself. -/
def runtimeState (contractAddress : Address) : RuntimeState ContractStorage :=
  .new contractAddress tx.fromAddr tx.gasLimit e.storage

def deployContract (wasmCode : List UInt8) : Except String UInt64 × ContractExecutor :=
  let address := deployAddress c wasmCode
  match e.runtime.instantiateContract wasmCode (e.runtimeState tx address) tx.gasLimit with
  | (.error err, st) =>
    (.error ("WASM instantiate error: " ++ e.runtime.describe err),
      ⟨e.stateManager, e.registry, st.storage, e.runtime⟩)
  | (.ok wasm, st) =>
    let (result, st) := WasmRuntime.callInit wasm st
    let used := st.gasMeter.used
    let fee := satMul used tx.gasPrice
    match e.stateManager.deductFee c order tx.fromAddr fee with
    | (.error err, state) => (.error err, ⟨state, e.registry, st.storage, e.runtime⟩)
    | (.ok _, state) =>
      match result with
      | .error _ => (.error "contract init failed", ⟨state, e.registry, st.storage, e.runtime⟩)
      | .ok _ =>
        match e.registry.registerContract address wasmCode with
        | (.error err, registry) => (.error err, ⟨state, registry, st.storage, e.runtime⟩)
        | (.ok _, registry) =>
          match st.storage.initializeContract address with
          | .error err => (.error err, ⟨state, registry, st.storage, e.runtime⟩)
          | .ok _ => (.ok used, ⟨state, registry, st.storage, e.runtime⟩)

def callContract (contractAddress : Address) (method : String) :
    Except String UInt64 × ContractExecutor :=
  match e.registry.getContract contractAddress with
  | none => (.error "Contract not found", e)
  | some contract =>
    match e.runtime.instantiateContract contract.bytecode (e.runtimeState tx contractAddress)
        tx.gasLimit with
    | (.error err, st) =>
      (.error ("WASM instantiate error: " ++ e.runtime.describe err),
        ⟨e.stateManager, e.registry, st.storage, e.runtime⟩)
    | (.ok wasm, st) =>
      let (result, st) := WasmRuntime.callFunction wasm method st
      let used := st.gasMeter.used
      let fee := satMul used tx.gasPrice
      match e.stateManager.deductFee c order tx.fromAddr fee with
      | (.error err, state) => (.error err, ⟨state, e.registry, st.storage, e.runtime⟩)
      | (.ok _, state) =>
        match result with
        | .error err => (.error ("Contract call failed: " ++ e.runtime.describe err),
            ⟨state, e.registry, st.storage, e.runtime⟩)
        | .ok _ => (.ok used, ⟨state, e.registry, st.storage, e.runtime⟩)

/-- The gas a transaction used, or its error. -/
def executeTransaction : Except String UInt64 × ContractExecutor :=
  match tx.payload with
  | .transfer _ _ =>
    match e.stateManager.applyTransaction c order tx with
    | (.error err, state) => (.error err, ⟨state, e.registry, e.storage, e.runtime⟩)
    | (.ok _, state) => (.ok tx.gasLimit, ⟨state, e.registry, e.storage, e.runtime⟩)
  | .contractDeploy wasmCode _ => e.deployContract c order tx wasmCode
  | .contractCall contractAddress method _ => e.callContract c order tx contractAddress method

def contractRun : Option (List UInt8 × WasmEntry × Address) :=
  match tx.payload with
  | .transfer _ _ => none
  | .contractDeploy wasmCode _ => some (wasmCode, .init, deployAddress c wasmCode)
  | .contractCall contractAddress method _ =>
    (e.registry.getContract contractAddress).map fun contract =>
      (contract.bytecode, .call method, contractAddress)

/-- How the run ends: an error of instantiation, or the result of the call. -/
def runEnd : Option (Except WasmError (Except WasmError Unit) × RuntimeState ContractStorage) :=
  (e.contractRun c tx).map fun r =>
    e.runtime.execute r.1 r.2.1 tx.gasLimit (e.runtimeState tx r.2.2)

def contractWrites : List (List UInt8 × List UInt8) :=
  match e.contractRun c tx with
  | none => []
  | some r => e.runtime.writes r.1 r.2.1 tx.gasLimit (e.runtimeState tx r.2.2)

def contractFee : Option UInt64 :=
  match e.runEnd c tx with
  | some (.ok _, st) => some (satMul st.gasMeter.used tx.gasPrice)
  | _ => none

def registered : ContractRegistry :=
  match tx.payload with
  | .contractDeploy wasmCode _ =>
    (e.registry.registerContract (deployAddress c wasmCode) wasmCode).2
  | _ => e.registry

def AddressFree : Prop :=
  ∀ wasmCode initArgs, tx.payload = .contractDeploy wasmCode initArgs →
    e.registry.getContract (deployAddress c wasmCode) = none

def RunOk : Prop := ∃ st, e.runEnd c tx = some (.ok (.ok ()), st)

def Payable (fee : UInt64) : Prop :=
  fee = 0 ∨ fee ≤ (accountOrNew e.stateManager.stateTree tx.fromAddr).balance

def ChargesFee : Prop := ∃ fee, e.contractFee c tx = some fee ∧ fee ≠ 0 ∧ e.Payable tx fee

def Accepts : Prop :=
  match tx.payload with
  | .transfer _ amount =>
    e.stateManager.Transferable tx.fromAddr amount tx.nonce (satMul tx.gasLimit tx.gasPrice)
  | _ => e.RunOk c tx ∧ e.AddressFree c tx ∧ ∃ fee, e.contractFee c tx = some fee ∧ e.Payable tx fee

/-- The last steps of both kinds of contract transactions: the fee is deducted, then the rest is
attempted. -/
def settle (st : RuntimeState ContractStorage) (rest : Except String Unit)
    (registry : ContractRegistry) : Except String UInt64 × ContractExecutor :=
  match e.stateManager.deductFee c order tx.fromAddr (satMul st.gasMeter.used tx.gasPrice) with
  | (.error err, state) => (.error err, ⟨state, e.registry, st.storage, e.runtime⟩)
  | (.ok _, state) =>
    match rest with
    | .error err => (.error err, ⟨state, e.registry, st.storage, e.runtime⟩)
    | .ok _ => (.ok st.gasMeter.used, ⟨state, registry, st.storage, e.runtime⟩)

section Spec
variable {c order e tx}

theorem deductFee_cases (c : Crypto) (order : IterOrder Address Account) (e : ContractExecutor)
    (tx : Transaction) (fee : UInt64) :
    (e.Payable tx fee ∧ (e.stateManager.deductFee c order tx.fromAddr fee).1 = .ok ()) ∨
      (¬ e.Payable tx fee ∧ ∃ err,
        e.stateManager.deductFee c order tx.fromAddr fee = (.error err, e.stateManager)) := by
  simp only [deductFee, Payable]
  split_ifs with hzero hless
  · exact Or.inl ⟨Or.inl hzero, rfl⟩
  · exact Or.inr ⟨not_or.mpr ⟨hzero, UInt64.not_le.mpr hless⟩, _, rfl⟩
  · exact Or.inl ⟨Or.inr (UInt64.not_lt.mp hless), rfl⟩

/-- What a contract transaction does. It is refused before its fee is known, cannot pay its fee,
fails after it has paid, or goes through; the store takes its writes in every case. -/
structure ContractOutcome (c : Crypto) (order : IterOrder Address Account) (e : ContractExecutor)
    (tx : Transaction) (r : Except String UInt64 × ContractExecutor) : Prop where
  runtime : r.2.runtime = e.runtime
  storage : r.2.storage =
    (e.contractWrites c tx).foldl (fun s w => Storage.write s w.1 w.2) e.storage
  cases :
    (e.contractFee c tx = none ∧ (∃ err, r.1 = .error err) ∧
      r.2.stateManager = e.stateManager ∧ r.2.registry = e.registry) ∨
    (∃ fee, e.contractFee c tx = some fee ∧ ¬ e.Payable tx fee ∧ (∃ err, r.1 = .error err) ∧
      r.2.stateManager = e.stateManager ∧ r.2.registry = e.registry) ∨
    (∃ fee, e.contractFee c tx = some fee ∧ e.Payable tx fee ∧
      ¬ (e.RunOk c tx ∧ e.AddressFree c tx) ∧ (∃ err, r.1 = .error err) ∧
      r.2.stateManager = (e.stateManager.deductFee c order tx.fromAddr fee).2 ∧
      r.2.registry = e.registry) ∨
    (∃ used, e.contractFee c tx = some (satMul used tx.gasPrice) ∧
      e.Payable tx (satMul used tx.gasPrice) ∧ (e.RunOk c tx ∧ e.AddressFree c tx) ∧
      r.1 = .ok used ∧
      r.2.stateManager =
        (e.stateManager.deductFee c order tx.fromAddr (satMul used tx.gasPrice)).2 ∧
      r.2.registry = e.registered c tx)

theorem settle_outcome {result : Except WasmError Unit} {st : RuntimeState ContractStorage}
    (hend : e.runEnd c tx = some (.ok result, st))
    (hstorage : st.storage =
      (e.contractWrites c tx).foldl (fun s w => Storage.write s w.1 w.2) e.storage)
    {rest : Except String Unit} {registry : ContractRegistry}
    (hrest : rest = .ok () ↔ result = .ok () ∧ e.AddressFree c tx)
    (hregistry : rest = .ok () → registry = e.registered c tx) :
    ContractOutcome c order e tx (e.settle c order tx st rest registry) := by
  have hfee : e.contractFee c tx = some (satMul st.gasMeter.used tx.gasPrice) := by
    rw [contractFee, hend]
  unfold settle
  rcases deductFee_cases c order e tx (satMul st.gasMeter.used tx.gasPrice) with
    ⟨hpay, hok⟩ | ⟨hnot, err, herr⟩
  · cases hd : e.stateManager.deductFee c order tx.fromAddr
      (satMul st.gasMeter.used tx.gasPrice) with
    | mk d state =>
      rw [hd] at hok
      simp only at hok
      subst hok
      have hstate : state = (e.stateManager.deductFee c order tx.fromAddr
        (satMul st.gasMeter.used tx.gasPrice)).2 := by rw [hd]
      cases rest with
      | error err =>
        have hnot : ¬ (e.RunOk c tx ∧ e.AddressFree c tx) := by
          rintro ⟨⟨st', hrun⟩, hfree⟩
          rw [hend] at hrun
          cases hrest.mpr ⟨by cases hrun; rfl, hfree⟩
        exact ⟨rfl, hstorage,
          Or.inr (Or.inr (Or.inl ⟨_, hfee, hpay, hnot, ⟨err, rfl⟩, hstate, rfl⟩))⟩
      | ok u =>
        obtain ⟨hresult, hfree⟩ := hrest.mp rfl
        have hrun : e.RunOk c tx := ⟨st, by rw [hend, hresult]⟩
        exact ⟨rfl, hstorage,
          Or.inr (Or.inr (Or.inr ⟨_, hfee, hpay, ⟨hrun, hfree⟩, rfl, hstate, hregistry rfl⟩))⟩
  · rw [herr]
    exact ⟨rfl, hstorage, Or.inr (Or.inl ⟨_, hfee, hnot, ⟨err, rfl⟩, rfl, rfl⟩)⟩

theorem instantiate_error_outcome {err : WasmError} {st : RuntimeState ContractStorage}
    (hend : e.runEnd c tx = some (.error err, st))
    (hstorage : st.storage =
      (e.contractWrites c tx).foldl (fun s w => Storage.write s w.1 w.2) e.storage)
    (message : String) :
    ContractOutcome c order e tx
      (.error message, ⟨e.stateManager, e.registry, st.storage, e.runtime⟩) := by
  refine ⟨rfl, hstorage, Or.inl ⟨?_, ⟨_, rfl⟩, rfl, rfl⟩⟩
  rw [contractFee, hend]

theorem storage_runEnd {r : Except WasmError (Except WasmError Unit)}
    {st : RuntimeState ContractStorage} (hend : e.runEnd c tx = some (r, st)) :
    st.storage =
      (e.contractWrites c tx).foldl (fun s w => Storage.write s w.1 w.2) e.storage := by
  unfold runEnd at hend
  obtain ⟨run, hrun, hexec⟩ := Option.map_eq_some_iff.mp hend
  have hstore := storage_execute e.runtime run.1 run.2.1 tx.gasLimit (e.runtimeState tx run.2.2)
  rw [hexec] at hstore
  rw [contractWrites, hrun]
  exact hstore

theorem registerContract_ok_iff (r : ContractRegistry) (address : Address)
    (bytecode : List UInt8) :
    (r.registerContract address bytecode).1 = .ok () ↔ r.getContract address = none := by
  unfold ContractRegistry.registerContract
  cases r.getContract address <;> simp

theorem deployContract_eq {wasmCode : List UInt8} {wasm : WasmInstance}
    {st st' : RuntimeState ContractStorage} {result : Except WasmError Unit}
    (hi : e.runtime.instantiateContract wasmCode
      (e.runtimeState tx (deployAddress c wasmCode)) tx.gasLimit = (.ok wasm, st))
    (hc : WasmRuntime.callInit wasm st = (result, st')) :
    e.deployContract c order tx wasmCode = e.settle c order tx st'
      (match result with
        | .error _ => .error "contract init failed"
        | .ok _ => (e.registry.registerContract (deployAddress c wasmCode) wasmCode).1)
      (match result with
        | .error _ => e.registry
        | .ok _ => (e.registry.registerContract (deployAddress c wasmCode) wasmCode).2) := by
  unfold deployContract settle
  simp only [hi, hc]
  cases e.stateManager.deductFee c order tx.fromAddr
    (satMul st'.gasMeter.used tx.gasPrice) with
  | mk d state =>
    cases d with
    | error err => rfl
    | ok u =>
      cases result with
      | error err => rfl
      | ok u =>
        unfold ContractRegistry.registerContract
        cases e.registry.getContract (deployAddress c wasmCode) <;> rfl

theorem callContract_eq {address : Address} {method : String} {contract : ContractInfo}
    {wasm : WasmInstance} {st st' : RuntimeState ContractStorage} {result : Except WasmError Unit}
    (hget : e.registry.getContract address = some contract)
    (hi : e.runtime.instantiateContract contract.bytecode (e.runtimeState tx address) tx.gasLimit =
      (.ok wasm, st))
    (hc : WasmRuntime.callFunction wasm method st = (result, st')) :
    e.callContract c order tx address method = e.settle c order tx st'
      (match result with
        | .error err => .error ("Contract call failed: " ++ e.runtime.describe err)
        | .ok _ => .ok ())
      e.registry := by
  unfold callContract settle
  simp only [hget, hi, hc]
  cases e.stateManager.deductFee c order tx.fromAddr
    (satMul st'.gasMeter.used tx.gasPrice) with
  | mk d state =>
    cases d with
    | error err => rfl
    | ok u => cases result <;> rfl

theorem deployContract_outcome {wasmCode initArgs : List UInt8}
    (hp : tx.payload = .contractDeploy wasmCode initArgs) :
    ContractOutcome c order e tx (e.deployContract c order tx wasmCode) := by
  have hend : e.runEnd c tx = some (e.runtime.execute wasmCode .init tx.gasLimit
      (e.runtimeState tx (deployAddress c wasmCode))) := by
    rw [runEnd, contractRun, hp]
    rfl
  unfold WasmRuntime.execute at hend
  cases hi : e.runtime.instantiateContract wasmCode
      (e.runtimeState tx (deployAddress c wasmCode)) tx.gasLimit with
  | mk r st =>
    rw [hi] at hend
    cases r with
    | error err =>
      have heq : e.deployContract c order tx wasmCode =
          (.error ("WASM instantiate error: " ++ e.runtime.describe err),
            ⟨e.stateManager, e.registry, st.storage, e.runtime⟩) := by
        unfold deployContract
        simp only [hi]
      rw [heq]
      exact instantiate_error_outcome hend (storage_runEnd hend) _
    | ok wasm =>
      cases hc : WasmRuntime.callInit wasm st with
      | mk result st' =>
        have hcalled : e.runEnd c tx = some (.ok result, st') := by
          rw [hend]
          change some (Except.ok (WasmRuntime.callInit wasm st).1,
            (WasmRuntime.callInit wasm st).2) = _
          rw [hc]
        rw [deployContract_eq hi hc]
        have hfree : (e.registry.registerContract (deployAddress c wasmCode) wasmCode).1 = .ok () ↔
            e.AddressFree c tx := by
          rw [registerContract_ok_iff]
          constructor
          · intro hnone code args hcode
            rw [hp] at hcode
            cases hcode
            exact hnone
          · exact fun h => h wasmCode initArgs hp
        apply settle_outcome hcalled (storage_runEnd hcalled)
        · cases result with
          | error err => simp
          | ok u => simp [hfree]
        · intro hok
          unfold registered
          rw [hp]
          cases result with
          | error err => cases hok
          | ok u => rfl

theorem callContract_notFound_outcome {address : Address} {method : String} {args : List UInt8}
    (hp : tx.payload = .contractCall address method args)
    (hget : e.registry.getContract address = none) :
    ContractOutcome c order e tx (e.callContract c order tx address method) := by
  have hrun : e.contractRun c tx = none := by
    unfold contractRun
    rw [hp]
    simp only [hget, Option.map_none]
  have heq : e.callContract c order tx address method = (.error "Contract not found", e) := by
    unfold callContract
    simp only [hget]
  rw [heq]
  refine ⟨rfl, ?_, Or.inl ⟨?_, ⟨_, rfl⟩, rfl, rfl⟩⟩
  · rw [contractWrites, hrun]
    rfl
  · rw [contractFee, runEnd, hrun]
    rfl

theorem callContract_outcome {address : Address} {method : String} {args : List UInt8}
    (hp : tx.payload = .contractCall address method args) :
    ContractOutcome c order e tx (e.callContract c order tx address method) := by
  have hfree : e.AddressFree c tx := by
    intro code args hcode
    rw [hp] at hcode
    cases hcode
  have hregistered : e.registered c tx = e.registry := by
    unfold registered
    rw [hp]
  cases hget : e.registry.getContract address with
  | none => exact callContract_notFound_outcome hp hget
  | some contract =>
    have hend : e.runEnd c tx = some (e.runtime.execute contract.bytecode (.call method)
        tx.gasLimit (e.runtimeState tx address)) := by
      unfold runEnd contractRun
      rw [hp]
      simp only [hget, Option.map_some]
    unfold WasmRuntime.execute at hend
    cases hi : e.runtime.instantiateContract contract.bytecode (e.runtimeState tx address)
        tx.gasLimit with
    | mk r st =>
      rw [hi] at hend
      cases r with
      | error err =>
        have heq : e.callContract c order tx address method =
            (.error ("WASM instantiate error: " ++ e.runtime.describe err),
              ⟨e.stateManager, e.registry, st.storage, e.runtime⟩) := by
          unfold callContract
          simp only [hget, hi]
        rw [heq]
        exact instantiate_error_outcome hend (storage_runEnd hend) _
      | ok wasm =>
        cases hc : WasmRuntime.callFunction wasm method st with
        | mk result st' =>
          have hcalled : e.runEnd c tx = some (.ok result, st') := by
            rw [hend]
            change some (Except.ok (WasmRuntime.callFunction wasm method st).1,
              (WasmRuntime.callFunction wasm method st).2) = _
            rw [hc]
          rw [callContract_eq hget hi hc]
          apply settle_outcome hcalled (storage_runEnd hcalled)
          · cases result with
            | error err => simp
            | ok u => simp [hfree]
          · exact fun _ => hregistered.symm

theorem transfer_or_contract (tx : Transaction) :
    (∃ toAddr amount, tx.payload = .transfer toAddr amount) ∨
      ∀ toAddr amount, tx.payload ≠ .transfer toAddr amount := by
  cases tx.payload with
  | transfer toAddr amount => exact Or.inl ⟨toAddr, amount, rfl⟩
  | contractDeploy wasmCode initArgs => exact Or.inr nofun
  | contractCall address method args => exact Or.inr nofun

/-- Everything that can happen to a contract transaction. -/
theorem executeTransaction_contract (c : Crypto) (order : IterOrder Address Account)
    (e : ContractExecutor) {tx : Transaction}
    (h : ∀ toAddr amount, tx.payload ≠ .transfer toAddr amount) :
    ContractOutcome c order e tx (e.executeTransaction c order tx) := by
  unfold executeTransaction
  cases hp : tx.payload with
  | transfer toAddr amount => exact absurd hp (h toAddr amount)
  | contractDeploy wasmCode initArgs => exact deployContract_outcome hp
  | contractCall address method args => exact callContract_outcome hp

/-- A transfer goes through if it passes the checks, and is refused without a trace if not. -/
theorem executeTransaction_transfer (c : Crypto) (order : IterOrder Address Account)
    (e : ContractExecutor) {tx : Transaction} {toAddr : Address} {amount : UInt64}
    (hp : tx.payload = .transfer toAddr amount) :
    (e.stateManager.Transferable tx.fromAddr amount tx.nonce (satMul tx.gasLimit tx.gasPrice) ∧
      e.executeTransaction c order tx = (.ok tx.gasLimit,
        ⟨(e.stateManager.applyTransfer c order tx.fromAddr toAddr amount tx.nonce
          (satMul tx.gasLimit tx.gasPrice)).2, e.registry, e.storage, e.runtime⟩)) ∨
      (¬ e.stateManager.Transferable tx.fromAddr amount tx.nonce
          (satMul tx.gasLimit tx.gasPrice) ∧
        ∃ err, e.executeTransaction c order tx = (.error err, e)) := by
  unfold executeTransaction applyTransaction
  rw [hp]
  simp only
  rcases applyTransfer_cases c order e.stateManager tx.fromAddr toAddr amount tx.nonce
    (satMul tx.gasLimit tx.gasPrice) with ⟨t, htr, -, he⟩ | ⟨hnot, err, he⟩
  · rw [he]
    exact Or.inl ⟨htr, rfl⟩
  · rw [he]
    exact Or.inr ⟨hnot, err, rfl⟩

theorem ContractOutcome.stateManager {r : Except String UInt64 × ContractExecutor}
    (h : ContractOutcome c order e tx r) :
    (∃ fee, e.contractFee c tx = some fee ∧ e.Payable tx fee ∧
      r.2.stateManager = (e.stateManager.deductFee c order tx.fromAddr fee).2) ∨
      ((∀ fee, e.contractFee c tx = some fee → ¬ e.Payable tx fee) ∧
        r.2.stateManager = e.stateManager) := by
  rcases h.cases with ⟨hfee, -, hs, -⟩ | ⟨fee, hfee, hnot, -, hs, -⟩ |
    ⟨fee, hfee, hpay, -, -, hs, -⟩ | ⟨used, hfee, hpay, -, -, hs, -⟩
  · refine Or.inr ⟨?_, hs⟩
    intro fee hsome
    rw [hfee] at hsome
    cases hsome
  · refine Or.inr ⟨?_, hs⟩
    intro fee' hsome
    rw [hfee] at hsome
    cases hsome
    exact hnot
  · exact Or.inl ⟨fee, hfee, hpay, hs⟩
  · exact Or.inl ⟨_, hfee, hpay, hs⟩

theorem ContractOutcome.of_ok {r : Except String UInt64 × ContractExecutor}
    (h : ContractOutcome c order e tx r) {used : UInt64} (hok : r.1 = .ok used) :
    e.Payable tx (satMul used tx.gasPrice) ∧
      r.2.stateManager =
        (e.stateManager.deductFee c order tx.fromAddr (satMul used tx.gasPrice)).2 ∧
      r.2.registry = e.registered c tx := by
  rcases h.cases with ⟨-, ⟨err, he⟩, -⟩ | ⟨-, -, -, ⟨err, he⟩, -⟩ |
    ⟨-, -, -, -, ⟨err, he⟩, -⟩ | ⟨used', -, hpay, -, hok', hs, hr⟩
  · rw [he] at hok
    cases hok
  · rw [he] at hok
    cases hok
  · rw [he] at hok
    cases hok
  · rw [hok'] at hok
    cases hok
    exact ⟨hpay, hs, hr⟩

theorem accepts_transfer {toAddr : Address} {amount : UInt64}
    (hp : tx.payload = .transfer toAddr amount) :
    e.Accepts c tx ↔ e.stateManager.Transferable tx.fromAddr amount tx.nonce
      (satMul tx.gasLimit tx.gasPrice) := by
  unfold Accepts
  rw [hp]

theorem accepts_contract (hcontract : ∀ toAddr amount, tx.payload ≠ .transfer toAddr amount) :
    e.Accepts c tx ↔ e.RunOk c tx ∧ e.AddressFree c tx ∧
      ∃ fee, e.contractFee c tx = some fee ∧ e.Payable tx fee := by
  unfold Accepts
  cases hp : tx.payload with
  | transfer toAddr amount => exact absurd hp (hcontract toAddr amount)
  | contractDeploy wasmCode initArgs => exact Iff.rfl
  | contractCall address method args => exact Iff.rfl

theorem Accepts.addressFree (haccepts : e.Accepts c tx) {wasmCode initArgs : List UInt8}
    (hp : tx.payload = .contractDeploy wasmCode initArgs) :
    e.registry.getContract (deployAddress c wasmCode) = none := by
  unfold Accepts at haccepts
  rw [hp] at haccepts
  exact haccepts.2.1 wasmCode initArgs hp

theorem executeTransaction_ok_iff (c : Crypto) (order : IterOrder Address Account)
    (e : ContractExecutor) (tx : Transaction) :
    (∃ used, (e.executeTransaction c order tx).1 = .ok used) ↔ e.Accepts c tx := by
  rcases transfer_or_contract tx with ⟨toAddr, amount, hp⟩ | hcontract
  · rw [accepts_transfer hp]
    rcases executeTransaction_transfer c order e hp with ⟨htr, he⟩ | ⟨hnot, err, he⟩
    · rw [he]
      exact iff_of_true ⟨_, rfl⟩ htr
    · rw [he]
      exact iff_of_false (by rintro ⟨_, ⟨⟩⟩) hnot
  · rw [accepts_contract hcontract]
    rcases (executeTransaction_contract c order e hcontract).cases with
      ⟨hfee, ⟨err, he⟩, -⟩ | ⟨fee, hfee, hnot, ⟨err, he⟩, -⟩ |
      ⟨fee, hfee, hpay, hnot, ⟨err, he⟩, -⟩ | ⟨used, hfee, hpay, hrun, he, -⟩
    · rw [he, hfee]
      exact iff_of_false (by rintro ⟨_, ⟨⟩⟩) (by rintro ⟨-, -, _, ⟨⟩, -⟩)
    · rw [he, hfee]
      exact iff_of_false (by rintro ⟨_, ⟨⟩⟩) (by rintro ⟨-, -, _, ⟨⟩, hpay⟩; exact hnot hpay)
    · rw [he]
      exact iff_of_false (by rintro ⟨_, ⟨⟩⟩) fun h => hnot ⟨h.1, h.2.1⟩
    · rw [he]
      exact iff_of_true ⟨_, rfl⟩ ⟨hrun.1, hrun.2, _, hfee, hpay⟩

/-- On the runtime as it is set up, a call is accepted if the contract answers under the name, there
is gas for one unit, and the sender holds its price. -/
theorem accepts_call_iff {engine : WasmEngine} (hfuel : engine.StopsWithoutFuel)
    (hruntime : e.runtime = .new engine) {address : Address} {method : String}
    {args : List UInt8} (hp : tx.payload = .contractCall address method args) :
    e.Accepts c tx ↔
      (∃ contract, e.registry.getContract address = some contract ∧
        engine.Answers contract.bytecode method) ∧
      tx.gasLimit ≠ 0 ∧
        tx.gasPrice ≤ (accountOrNew e.stateManager.stateTree tx.fromAddr).balance := by
  have hrunEnd : e.runEnd c tx = (e.registry.getContract address).map fun contract =>
      (WasmRuntime.new engine).execute contract.bytecode (.call method) tx.gasLimit
        (e.runtimeState tx address) := by
    unfold runEnd contractRun
    rw [hp, hruntime]
    dsimp only
    rw [Option.map_map]
    rfl
  have hpayable : e.Payable tx tx.gasPrice ↔
      tx.gasPrice ≤ (accountOrNew e.stateManager.stateTree tx.fromAddr).balance := by
    unfold Payable
    refine or_iff_right_of_imp ?_
    intro hzero
    rw [hzero]
    exact UInt64.zero_le
  rw [accepts_contract fun _ _ h => by rw [hp] at h; cases h]
  unfold RunOk contractFee
  rw [hrunEnd]
  constructor
  · rintro ⟨⟨st, hst⟩, -, fee, hfee, hpay⟩
    obtain ⟨contract, hget, hexec⟩ := Option.map_eq_some_iff.mp hst
    obtain ⟨hanswers, hgas, hmeter⟩ :=
      (WasmRuntime.execute_new_call_iff hfuel contract.bytecode method tx.gasLimit _ st).mp hexec
    rw [hst, hmeter] at hfee
    rw [← Option.some.inj hfee, one_satMul] at hpay
    exact ⟨⟨contract, hget, hanswers⟩, hgas, hpayable.mp hpay⟩
  · rintro ⟨⟨contract, hget, hanswers⟩, hgas, hpay⟩
    have hexec := (WasmRuntime.execute_new_call_iff hfuel contract.bytecode method tx.gasLimit
      (e.runtimeState tx address) _).mpr ⟨hanswers, hgas, rfl⟩
    rw [hget, Option.map_some, hexec]
    refine ⟨⟨_, rfl⟩, ?_, tx.gasPrice, ?_, hpayable.mpr hpay⟩
    · intro code args' hcode
      rw [hp] at hcode
      cases hcode
    · simp only [one_satMul]

theorem foldl_write_eq_iff (store : ContractStorage) (writes : List (List UInt8 × List UInt8)) :
    writes.foldl (fun s w => Storage.write s w.1 w.2) store = store ↔
      ∀ key value, lastWritten writes key = some value → Storage.read store key = some value := by
  have hread := read_foldl_write store writes
  constructor
  · intro h key value hlast
    rw [← h, hread, hlast, Option.some_or]
  · intro h
    cases hs : writes.foldl (fun s w => Storage.write s w.1 w.2) store with
    | mk entries =>
      rw [hs] at hread
      have hentries : entries = store.entries := by
        apply Finmap.ext_lookup
        intro key
        have hkey : entries.lookup key =
          (lastWritten writes key).or (store.entries.lookup key) := hread key
        rw [hkey]
        cases hlast : lastWritten writes key with
        | none => rw [Option.none_or]
        | some value =>
          rw [Option.some_or]
          exact (h key value hlast).symm
      rw [hentries]

end Spec

/-- Storage and registry are as before, and the state but for the fee. -/
structure WithoutContractEffect (c : Crypto) (order : IterOrder Address Account)
    (e : ContractExecutor) (tx : Transaction) : Prop where
  storage : (e.executeTransaction c order tx).2.storage = e.storage
  registry : (e.executeTransaction c order tx).2.registry = e.registry
  onlyFee : (e.executeTransaction c order tx).2.stateManager = e.stateManager ∨
    ∃ fee, e.contractFee c tx = some fee ∧
      e.stateManager.deductFee c order tx.fromAddr fee =
        (.ok (), (e.executeTransaction c order tx).2.stateManager)

/-- A contract transaction that fails has no effect but the fee exactly if what it wrote before it
failed left every key with the value it had. -/
theorem failed_withoutContractEffect_iff (c : Crypto) (order : IterOrder Address Account)
    (e : ContractExecutor) (tx : Transaction) (err : String)
    (hcontract : ∀ toAddr amount, tx.payload ≠ .transfer toAddr amount)
    (herr : (e.executeTransaction c order tx).1 = .error err) :
    e.WithoutContractEffect c order tx ↔
      ∀ key value, lastWritten (e.contractWrites c tx) key = some value →
        Storage.read e.storage key = some value := by
  have hout := executeTransaction_contract c order e hcontract
  rw [← foldl_write_eq_iff, ← hout.storage]
  constructor
  · exact fun h => h.storage
  · intro hstorage
    rcases hout.cases with ⟨-, -, hs, hr⟩ | ⟨fee, -, -, -, hs, hr⟩ |
      ⟨fee, hfee, hpay, -, -, hs, hr⟩ | ⟨used, -, -, -, hok, -⟩
    · exact ⟨hstorage, hr, Or.inl hs⟩
    · exact ⟨hstorage, hr, Or.inl hs⟩
    · refine ⟨hstorage, hr, Or.inr ⟨fee, hfee, ?_⟩⟩
      rcases deductFee_cases c order e tx fee with ⟨-, hok⟩ | ⟨hnot, -⟩
      · exact Prod.ext hok hs.symm
      · exact absurd hpay hnot
    · rw [hok] at herr
      cases herr

/-- On the runtime as it is set up, no transaction writes to the store. -/
theorem contractWrites_new (c : Crypto) {engine : WasmEngine} (hfuel : engine.StopsWithoutFuel)
    (stateManager : StateManager) (registry : ContractRegistry) (storage : ContractStorage)
    (tx : Transaction) : (new engine stateManager registry storage).contractWrites c tx = [] := by
  unfold contractWrites
  cases (new engine stateManager registry storage).contractRun c tx with
  | none => rfl
  | some r => exact WasmRuntime.writes_new hfuel r.1 r.2.1 tx.gasLimit _

section Sample

def sampleExecutor : ContractExecutor := new sampleEngine (.new .hashOnly .sorted) ⟨∅⟩ ⟨∅⟩

/-- A deployment whose `init` would write and trap, with gas for five writes at no price. -/
def sampleDeploy : Transaction :=
  ⟨genesisWallet, .contractDeploy writerModule [], 0, 100, 0, .empty⟩

end Sample

end ContractExecutor

end CytahSpeed
