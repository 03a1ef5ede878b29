import CytahSpeed.Sha256Strict

/-!
# Transactions

The transaction type, the byte string its hash covers, and `validate_basic` with its signature
check. SHA-256 and the recovery of a secp256k1 public key come from outside the repository and
are the fields of `Crypto`.
-/

namespace CytahSpeed
open ByteString

abbrev Address := Bytes 20

abbrev Hash := Bytes 32

abbrev BlockHash := Hash

abbrev TxId := Hash

/-- What the program uses of the `sha2` and `secp256k1` crates. The two error fields are the
refusals of `RecoveryId::from_i32` and `RecoverableSignature::from_compact`; a recovered public
key is given in its compressed serialisation. -/
structure Crypto where
  sha256 : List UInt8 → Hash
  recoveryIdError : UInt8 → Option String
  compactError : List UInt8 → Option String
  recoverEcdsa : Hash → List UInt8 → UInt8 → Except String (Bytes 33)

/-- The hash of FIPS 180-4, with a recovery that knows the listed signatures only. -/
def Crypto.withSignatures (known : List ((Hash × List UInt8 × UInt8) × Bytes 33)) : Crypto where
  sha256 := Sha256.hash
  recoveryIdError i := if i.toNat ≤ 3 then none else some "invalid recovery ID"
  compactError _ := none
  recoverEcdsa message compact recoveryId :=
    match known.find? (·.1 = (message, compact, recoveryId)) with
    | some entry => .ok entry.2
    | none => .error "signature failed verification"

/-- No signature is known; enough for calls that only hash. -/
def Crypto.hashOnly : Crypto := .withSignatures []

def Crypto.hashStrict : Crypto := { Crypto.hashOnly with sha256 := Sha256.Strict.hash }

theorem Crypto.hashOnly_eq_strict : Crypto.hashOnly = Crypto.hashStrict := by
  rw [Crypto.hashStrict, Sha256.Strict.hash_eq]
  rfl

inductive CryptoAlgorithm
  | secp256k1
  | schnorr
  | postQuantum
  deriving DecidableEq

structure Signature where
  algorithm : CryptoAlgorithm
  data : List UInt8
  deriving DecidableEq

def Signature.empty : Signature := ⟨.secp256k1, []⟩

inductive TxPayload
  | transfer (toAddr : Address) (amount : UInt64)
  | contractDeploy (wasmCode initArgs : List UInt8)
  | contractCall (contractAddress : Address) (method : String) (args : List UInt8)
  deriving DecidableEq

structure Transaction where
  fromAddr : Address
  payload : TxPayload
  nonce : UInt64
  gasLimit : UInt64
  gasPrice : UInt64
  signature : Signature
  deriving DecidableEq

namespace Transaction

def newTransfer (fromAddr toAddr : Address) (amount nonce gasLimit gasPrice : UInt64) :
    Transaction :=
  ⟨fromAddr, .transfer toAddr amount, nonce, gasLimit, gasPrice, .empty⟩

variable (c : Crypto) (tx : Transaction)

/-- The payload's part of the hashed bytes; code and arguments enter through their digests. -/
def payloadBytes : TxPayload → List UInt8
  | .transfer toAddr amount => 0 :: toAddr.toList ++ le64 amount
  | .contractDeploy wasmCode initArgs =>
    1 :: (c.sha256 wasmCode).toList ++ (c.sha256 initArgs).toList
  | .contractCall contractAddress method args =>
    2 :: contractAddress.toList ++ method.toUTF8.toList ++ (c.sha256 args).toList

def preimage : List UInt8 :=
  tx.fromAddr.toList ++ payloadBytes c tx.payload ++ le64 tx.nonce ++ le64 tx.gasLimit ++
    le64 tx.gasPrice

def hash : TxId := c.sha256 (tx.preimage c)

def verifySignature : Except String (Bytes 33) :=
  if tx.signature.algorithm ≠ .secp256k1 then
    .error "Unsupported signature algorithm"
  else if tx.signature.data.length ≠ 65 then
    .error "Invalid signature length"
  else
    let recoveryId := tx.signature.data.getD 64 0
    let compact := tx.signature.data.take 64
    match c.recoveryIdError recoveryId, c.compactError compact,
        c.recoverEcdsa (tx.hash c) compact recoveryId with
    | some e, _, _ => .error ("Invalid recovery id: " ++ e)
    | none, some e, _ => .error ("Invalid signature: " ++ e)
    | none, none, .error e => .error ("Signature recovery failed: " ++ e)
    | none, none, .ok pubkey => .ok pubkey

/-- The account address of a public key: the last twenty bytes of the digest of its serialisation
without the compression byte. -/
def addressOfKey (pubkey : Bytes 33) : Address :=
  (c.sha256 (pubkey.slice 1 32 (by decide)).toList).slice 12 20 (by decide)

def zeroAmount : TxPayload → Bool
  | .transfer _ amount => amount = 0
  | _ => false

def validateBasic : Except String Unit :=
  if tx.gasLimit = 0 then .error "Gas limit must be greater than 0"
  else if tx.gasPrice = 0 then .error "Gas price must be greater than 0"
  else if zeroAmount tx.payload then
    .error "Amount must be greater than 0"
  else
    match tx.verifySignature c with
    | .error e => .error e
    | .ok pubkey =>
      if addressOfKey c pubkey ≠ tx.fromAddr then .error "Signature does not match from address"
      else .ok ()

section Preimage
variable {c} {tx} {tx' : Transaction}

/-- Equal preimages agree in sender, payload bytes and nonce, which stand at fixed distances from
the ends. -/
theorem preimage_inj (h : tx.preimage c = tx'.preimage c) :
    tx.fromAddr = tx'.fromAddr ∧ payloadBytes c tx.payload = payloadBytes c tx'.payload ∧
      tx.nonce = tx'.nonce := by
  unfold preimage at h
  obtain ⟨h, -⟩ := List.append_inj' h (by simp)
  obtain ⟨h, -⟩ := List.append_inj' h (by simp)
  obtain ⟨h, hnonce⟩ := List.append_inj' h (by simp)
  obtain ⟨hfrom, hpayload⟩ := List.append_inj h (by simp)
  exact ⟨List.Vector.toList_injective hfrom, hpayload, le64_injective hnonce⟩

theorem payloadBytes_transfer {payload : TxPayload} {toAddr : Address} {amount : UInt64}
    (h : payloadBytes c payload = payloadBytes c (.transfer toAddr amount)) :
    ∃ toAddr amount, payload = .transfer toAddr amount := by
  cases payload with
  | transfer toAddr amount => exact ⟨toAddr, amount, rfl⟩
  | contractDeploy wasmCode initArgs => simp [payloadBytes] at h
  | contractCall contractAddress method args => simp [payloadBytes] at h

theorem payloadBytes_contractDeploy {payload : TxPayload} {wasmCode initArgs : List UInt8}
    (h : payloadBytes c payload = payloadBytes c (.contractDeploy wasmCode initArgs)) :
    ∃ wasmCode' initArgs', payload = .contractDeploy wasmCode' initArgs' ∧
      c.sha256 wasmCode' = c.sha256 wasmCode := by
  cases payload with
  | transfer toAddr amount => simp [payloadBytes] at h
  | contractCall contractAddress method args => simp [payloadBytes] at h
  | contractDeploy wasmCode' initArgs' =>
    refine ⟨wasmCode', initArgs', rfl, ?_⟩
    simp only [payloadBytes, List.cons_append, List.cons.injEq, true_and] at h
    exact List.Vector.toList_injective (List.append_inj h (by simp)).1

end Preimage

end Transaction

end CytahSpeed
