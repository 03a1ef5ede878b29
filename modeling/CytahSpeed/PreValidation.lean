import CytahSpeed.Block
import CytahSpeed.MachineInt
import CytahSpeed.StepRun

/-!
# Validation before the state is read

The validator collects what is wrong with a transaction by itself: its form, the length of its
signature, its gas, the addresses on the black list and the hashes that are known. A block is
rejected for every error of a transaction and for every hash that comes a second time. The size
that is compared with the limit is that of the record, which does not depend on what it points to.
-/

namespace CytahSpeed
open ByteString

inductive ValidationError
  | invalidFormat (text : String)
  | invalidSignature
  | insufficientBalance
  | invalidNonce
  | gasLimitExceeded
  | invalidGasPrice
  | duplicateTransaction
  | blacklistedAddress
  deriving DecidableEq

/-- The text of `{:?}`; no message holds a character that is escaped. -/
def ValidationError.debug : ValidationError → String
  | invalidFormat text => "InvalidFormat(\"" ++ text ++ "\")"
  | invalidSignature => "InvalidSignature"
  | insufficientBalance => "InsufficientBalance"
  | invalidNonce => "InvalidNonce"
  | gasLimitExceeded => "GasLimitExceeded"
  | invalidGasPrice => "InvalidGasPrice"
  | duplicateTransaction => "DuplicateTransaction"
  | blacklistedAddress => "BlacklistedAddress"

structure PreValidationResult where
  isValid : Bool
  errors : List ValidationError
  isValid_eq : isValid = errors.isEmpty

def PreValidationResult.ofErrors (errors : List ValidationError) : PreValidationResult :=
  ⟨errors.isEmpty, errors, rfl⟩

structure TransactionPreValidator where
  maxGasLimit : UInt64
  minGasPrice : UInt64
  maxTxSize : ℕ
  blacklistedAddresses : Finset Address
  knownTxHashes : Finset TxId

namespace TransactionPreValidator

def new (maxGasLimit minGasPrice : UInt64) (maxTxSize : ℕ) : TransactionPreValidator :=
  ⟨maxGasLimit, minGasPrice, maxTxSize, ∅, ∅⟩

-- `recordSize` is what `size_of_val` gives for every transaction
variable (c : Crypto) (recordSize : ℕ) (v : TransactionPreValidator) (tx : Transaction)

def amount : UInt64 :=
  match tx.payload with
  | .transfer _ amount => amount
  | .contractDeploy _ _ => 0
  | .contractCall _ _ _ => 0

def isTransfer : Bool :=
  match tx.payload with
  | .transfer _ _ => true
  | _ => false

/-- The checks of the payload at the end of `validate_format`. -/
def validatePayload : Except ValidationError Unit :=
  match tx.payload with
  | .transfer toAddr _ =>
    if toAddr = Bytes.zero 20 then .error (.invalidFormat "To address cannot be zero")
    else if tx.fromAddr = toAddr then
      .error (.invalidFormat "From and to addresses cannot be the same")
    else .ok ()
  | .contractDeploy wasmCode _ =>
    if wasmCode.isEmpty then .error (.invalidFormat "Contract deploy must include WASM code")
    else .ok ()
  | .contractCall contractAddress method _ =>
    if contractAddress = Bytes.zero 20 then
      .error (.invalidFormat "Contract address cannot be zero")
    else if method.isEmpty then .error (.invalidFormat "Contract method cannot be empty")
    else .ok ()

def validateFormat : Except ValidationError Unit :=
  if v.maxTxSize < recordSize then
    .error (.invalidFormat ("Transaction size " ++ toString recordSize ++ " exceeds maximum " ++
      toString v.maxTxSize))
  else if amount tx = 0 ∧ isTransfer tx = true then
    .error (.invalidFormat "Transfer transaction amount cannot be zero")
  else if tx.gasLimit = 0 then .error (.invalidFormat "Gas limit cannot be zero")
  else if tx.fromAddr = Bytes.zero 20 then
    .error (.invalidFormat "From address cannot be zero")
  else validatePayload tx

def validateSignature : Except ValidationError Unit :=
  if tx.signature.data.length ≠ 65 then .error .invalidSignature else .ok ()

/-- The product wraps around where the minimum is large. -/
def validateGas : Except ValidationError Unit :=
  if v.maxGasLimit < tx.gasLimit then .error .gasLimitExceeded
  else if tx.gasPrice < v.minGasPrice then .error .invalidGasPrice
  else if v.minGasPrice * 1000 < tx.gasPrice then .error .invalidGasPrice
  else .ok ()

def validateAddresses : Except ValidationError Unit :=
  if tx.fromAddr ∈ v.blacklistedAddresses then .error .blacklistedAddress
  else
    match tx.payload with
    | .transfer toAddr _ =>
      if toAddr ∈ v.blacklistedAddresses then .error .blacklistedAddress else .ok ()
    | .contractCall contractAddress _ _ =>
      if contractAddress ∈ v.blacklistedAddresses then .error .blacklistedAddress else .ok ()
    | .contractDeploy _ _ => .ok ()

def checkDuplicate : Except ValidationError Unit :=
  if tx.hash c ∈ v.knownTxHashes then .error .duplicateTransaction else .ok ()

def errorOf : Except ValidationError Unit → List ValidationError
  | .error e => [e]
  | .ok _ => []

def preValidateTransaction : PreValidationResult :=
  .ofErrors (errorOf (v.validateFormat recordSize tx) ++ errorOf (validateSignature tx) ++
    errorOf (v.validateGas tx) ++ errorOf (v.validateAddresses tx) ++
    errorOf (v.checkDuplicate c tx))

def blockErrors : ℕ → Finset TxId → List Transaction → List ValidationError
  | _, _, [] => []
  | idx, seen, tx :: txs =>
    (v.preValidateTransaction c recordSize tx).errors.map (fun error =>
        .invalidFormat ("Transaction " ++ toString idx ++ ": " ++ error.debug)) ++
      (if tx.hash c ∈ seen then
        [.invalidFormat ("Duplicate transaction in block at index " ++ toString idx)]
      else []) ++
      blockErrors (idx + 1) (insert (tx.hash c) seen) txs

def validateBlockTransactions (block : Block) : PreValidationResult :=
  .ofErrors (v.blockErrors c recordSize 0 ∅ block.transactions)

inductive Call
  | addKnownTransaction (txHash : TxId)
  | removeKnownTransaction (txHash : TxId)
  | clearKnownTransactions
  | blacklistAddress (address : Address)
  | unblacklistAddress (address : Address)

def exec : Call → TransactionPreValidator
  | .addKnownTransaction txHash => { v with knownTxHashes := insert txHash v.knownTxHashes }
  | .removeKnownTransaction txHash => { v with knownTxHashes := v.knownTxHashes.erase txHash }
  | .clearKnownTransactions => { v with knownTxHashes := ∅ }
  | .blacklistAddress address =>
    { v with blacklistedAddresses := insert address v.blacklistedAddresses }
  | .unblacklistAddress address =>
    { v with blacklistedAddresses := v.blacklistedAddresses.erase address }

def WellFormed : Prop :=
  tx.signature.data.length = 65 ∧ tx.gasLimit ≠ 0 ∧ tx.fromAddr ≠ Bytes.zero 20 ∧
    match tx.payload with
    | .transfer toAddr amount => amount ≠ 0 ∧ toAddr ≠ Bytes.zero 20 ∧ tx.fromAddr ≠ toAddr
    | .contractDeploy wasmCode _ => wasmCode ≠ []
    | .contractCall contractAddress method _ => contractAddress ≠ Bytes.zero 20 ∧ method ≠ ""

def GasWithin (maxGasLimit minGasPrice : UInt64) : Prop :=
  tx.gasLimit ≤ maxGasLimit ∧ minGasPrice ≤ tx.gasPrice ∧ tx.gasPrice ≤ minGasPrice * 1000

def parties : List Address :=
  tx.fromAddr ::
    match tx.payload with
    | .transfer toAddr _ => [toAddr]
    | .contractCall contractAddress _ _ => [contractAddress]
    | .contractDeploy _ _ => []

/-- The last call about the address put it on the black list. -/
def Blacklisted (calls : List Call) (address : Address) : Prop :=
  StepRun.Stands (· = .blacklistAddress address) (· = .unblacklistAddress address) calls

/-- The last call about the hash made it known. -/
def Known (calls : List Call) (txHash : TxId) : Prop :=
  StepRun.Stands (· = .addKnownTransaction txHash)
    (fun call => call = .removeKnownTransaction txHash ∨ call = .clearKnownTransactions) calls

variable {c recordSize v tx}

theorem errorOf_eq_nil_iff {r : Except ValidationError Unit} : errorOf r = [] ↔ r = .ok () := by
  cases r with
  | error e => simp [errorOf]
  | ok u => simp [errorOf]

theorem isValid_ofErrors (errors : List ValidationError) :
    (PreValidationResult.ofErrors errors).isValid = true ↔ errors = [] := List.isEmpty_iff

theorem ite_error_eq_ok_iff {p : Prop} [Decidable p] {e : ValidationError}
    {r : Except ValidationError Unit} :
    (if p then .error e else r) = .ok () ↔ ¬ p ∧ r = .ok () := by
  by_cases hp : p <;> simp [hp]

theorem wellFormed_iff : v.validateFormat recordSize tx = .ok () ∧ validateSignature tx = .ok () ↔
    recordSize ≤ v.maxTxSize ∧ WellFormed tx := by
  simp only [validateFormat, validateSignature, ite_error_eq_ok_iff, WellFormed, Nat.not_lt,
    not_not, and_true]
  cases h : tx.payload with
  | transfer toAddr amount =>
    simp only [validatePayload, TransactionPreValidator.amount, isTransfer, h,
      ite_error_eq_ok_iff, and_true]
    tauto
  | contractDeploy wasmCode initArgs =>
    simp only [validatePayload, TransactionPreValidator.amount, isTransfer, h,
      ite_error_eq_ok_iff, and_true, List.isEmpty_iff, Bool.false_eq_true, and_false,
      not_false_iff, true_and]
    tauto
  | contractCall contractAddress method args =>
    simp only [validatePayload, TransactionPreValidator.amount, isTransfer, h,
      ite_error_eq_ok_iff, and_true, String.isEmpty_iff, Bool.false_eq_true, and_false,
      not_false_iff, true_and]
    tauto

theorem validateGas_eq_ok_iff :
    v.validateGas tx = .ok () ↔ GasWithin tx v.maxGasLimit v.minGasPrice := by
  simp only [validateGas, ite_error_eq_ok_iff, GasWithin, UInt64.not_lt, and_true]

theorem validateAddresses_eq_ok_iff :
    v.validateAddresses tx = .ok () ↔ ∀ a ∈ parties tx, a ∉ v.blacklistedAddresses := by
  simp only [validateAddresses, parties, List.forall_mem_cons, ite_error_eq_ok_iff]
  cases tx.payload with
  | transfer toAddr amount => simp
  | contractDeploy wasmCode initArgs => simp
  | contractCall contractAddress method args => simp

theorem checkDuplicate_eq_ok_iff :
    v.checkDuplicate c tx = .ok () ↔ tx.hash c ∉ v.knownTxHashes := by
  simp only [checkDuplicate, ite_error_eq_ok_iff, and_true]

theorem errors_eq_nil_iff : (v.preValidateTransaction c recordSize tx).errors = [] ↔
    recordSize ≤ v.maxTxSize ∧ WellFormed tx ∧ GasWithin tx v.maxGasLimit v.minGasPrice ∧
      (∀ a ∈ parties tx, a ∉ v.blacklistedAddresses) ∧ tx.hash c ∉ v.knownTxHashes := by
  simp only [preValidateTransaction, PreValidationResult.ofErrors, List.append_eq_nil_iff,
    errorOf_eq_nil_iff, wellFormed_iff, validateGas_eq_ok_iff, validateAddresses_eq_ok_iff,
    checkDuplicate_eq_ok_iff, and_assoc]

theorem blockErrors_eq_nil_iff (idx : ℕ) (seen : Finset TxId) (txs : List Transaction) :
    v.blockErrors c recordSize idx seen txs = [] ↔
      (∀ tx ∈ txs, (v.preValidateTransaction c recordSize tx).errors = []) ∧
        (txs.map (Transaction.hash c)).Nodup ∧ ∀ tx ∈ txs, tx.hash c ∉ seen := by
  induction txs generalizing idx seen with
  | nil => simp [blockErrors]
  | cons tx txs ih =>
    have hdup : (if tx.hash c ∈ seen then [ValidationError.invalidFormat
        ("Duplicate transaction in block at index " ++ toString idx)] else []) = [] ↔
          tx.hash c ∉ seen := by
      by_cases hseen : tx.hash c ∈ seen <;> simp [hseen]
    rw [blockErrors, List.append_eq_nil_iff, List.append_eq_nil_iff, List.map_eq_nil_iff, hdup, ih,
      List.map_cons, List.nodup_cons, List.forall_mem_cons, List.forall_mem_cons, List.mem_map]
    simp only [Finset.mem_insert, not_or, forall_and, not_exists, not_and]
    tauto

theorem mem_blacklistedAddresses_run (calls : List Call) (address : Address)
    (h : v.blacklistedAddresses = ∅) :
    address ∈ (calls.foldl exec v).blacklistedAddresses ↔ Blacklisted calls address := by
  have hstep : ∀ (v : TransactionPreValidator) (call : Call),
      address ∈ (v.exec call).blacklistedAddresses ↔ call = .blacklistAddress address ∨
        address ∈ v.blacklistedAddresses ∧ ¬ call = .unblacklistAddress address := by
    intro v call
    cases call with
    | blacklistAddress a => simp [exec, eq_comm]
    | unblacklistAddress a => simp [exec, eq_comm, and_comm]
    | _ => simp [exec]
  have hrun := StepRun.holds_foldl_iff (F := fun v => address ∈ v.blacklistedAddresses) hstep v
    calls
  rw [h] at hrun
  exact hrun.trans (by simp [Blacklisted])

theorem mem_knownTxHashes_run (calls : List Call) (txHash : TxId) (h : v.knownTxHashes = ∅) :
    txHash ∈ (calls.foldl exec v).knownTxHashes ↔ Known calls txHash := by
  have hstep : ∀ (v : TransactionPreValidator) (call : Call),
      txHash ∈ (v.exec call).knownTxHashes ↔ call = .addKnownTransaction txHash ∨
        txHash ∈ v.knownTxHashes ∧
          ¬ (call = .removeKnownTransaction txHash ∨ call = .clearKnownTransactions) := by
    intro v call
    cases call with
    | addKnownTransaction a => simp [exec, eq_comm]
    | removeKnownTransaction a => simp [exec, eq_comm, and_comm]
    | _ => simp [exec]
  have hrun := StepRun.holds_foldl_iff (F := fun v => txHash ∈ v.knownTxHashes) hstep v calls
  rw [h] at hrun
  exact hrun.trans (by simp [Known])

theorem bounds_run (calls : List Call) (v : TransactionPreValidator) :
    (calls.foldl exec v).maxGasLimit = v.maxGasLimit ∧
      (calls.foldl exec v).minGasPrice = v.minGasPrice ∧
        (calls.foldl exec v).maxTxSize = v.maxTxSize := by
  induction calls generalizing v with
  | nil => exact ⟨rfl, rfl, rfl⟩
  | cons call calls ih =>
    have hstep : (v.exec call).maxGasLimit = v.maxGasLimit ∧
        (v.exec call).minGasPrice = v.minGasPrice ∧ (v.exec call).maxTxSize = v.maxTxSize := by
      cases call <;> exact ⟨rfl, rfl, rfl⟩
    rw [List.foldl_cons, (ih _).1, (ih _).2.1, (ih _).2.2]
    exact hstep

/-- After any calls a block is accepted exactly if its hashes differ and every transaction is well
formed, keeps the bounds on gas, has no party whose last call put it on the black list and no hash
whose last call made it known. How long the code and the arguments are is not asked. -/
theorem block_accepted_iff (c : Crypto) (recordSize : ℕ) (maxGasLimit minGasPrice : UInt64)
    (maxTxSize : ℕ) (calls : List Call) (block : Block) :
    ((calls.foldl exec (new maxGasLimit minGasPrice maxTxSize)).validateBlockTransactions c
        recordSize block).isValid = true ↔
      (block.transactions.map (Transaction.hash c)).Nodup ∧
        ∀ tx ∈ block.transactions, recordSize ≤ maxTxSize ∧ WellFormed tx ∧
          GasWithin tx maxGasLimit minGasPrice ∧ (∀ a ∈ parties tx, ¬ Blacklisted calls a) ∧
            ¬ Known calls (tx.hash c) := by
  obtain ⟨hgas, hprice, hsize⟩ := bounds_run calls (new maxGasLimit minGasPrice maxTxSize)
  have hblack := fun a => mem_blacklistedAddresses_run
    (v := new maxGasLimit minGasPrice maxTxSize) calls a rfl
  have hknown := fun h => mem_knownTxHashes_run
    (v := new maxGasLimit minGasPrice maxTxSize) calls h rfl
  rw [validateBlockTransactions, isValid_ofErrors, blockErrors_eq_nil_iff]
  simp only [errors_eq_nil_iff, hgas, hprice, hsize, hblack, hknown, Finset.notMem_empty,
    not_false_iff, implies_true, and_true]
  exact and_comm

end TransactionPreValidator

end CytahSpeed
