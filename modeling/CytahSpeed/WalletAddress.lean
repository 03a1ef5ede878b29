import CytahSpeed.BatchVerification
import CytahSpeed.HexDecoding
import CytahSpeed.Keccak

/-!
# Addresses of keys

A wallet prints the first twenty bytes of the SHA-256 digest of its whole compressed key, the CLI
reads them back as the sender of its transfers, `validate_basic` takes the last twenty bytes of
the digest of the key without its first byte, and the batch verifier those of a Keccak-256 digest.
A transfer made by the CLI therefore passes the two checks exactly if these digests agree.
-/

namespace CytahSpeed
open ByteString

/-- A private key as the program uses it: the public key in its compressed serialisation, and the
recoverable signatures it makes, sixty-four compact bytes and a recovery id each. -/
structure SecretKey where
  publicKey : Bytes 33
  signEcdsaRecoverable : Hash → Bytes 64 × UInt8

/-- The signature of this message is well formed and recovers the key it was made with. -/
structure SecretKey.Recovers (c : BatchCrypto) (key : SecretKey) (message : Hash) : Prop where
  recoveryId : c.recoveryIdError (key.signEcdsaRecoverable message).2 = none
  signature : c.signatureError (key.signEcdsaRecoverable message).1.toList = none
  compact : c.compactError (key.signEcdsaRecoverable message).1.toList = none
  recover : c.recoverEcdsa message (key.signEcdsaRecoverable message).1.toList
    (key.signEcdsaRecoverable message).2 = .ok key.publicKey

namespace Transaction

def sign (c : Crypto) (tx : Transaction) (privateKey : SecretKey) : Transaction :=
  let sig := privateKey.signEcdsaRecoverable (tx.hash c)
  { tx with signature := ⟨.secp256k1, sig.1.toList ++ [sig.2]⟩ }

theorem hash_sign (c : Crypto) (tx : Transaction) (privateKey : SecretKey) :
    (tx.sign c privateKey).hash c = tx.hash c := rfl

section Sign
variable {c : BatchCrypto} {tx : Transaction} {key : SecretKey}

theorem length_signature_sign : (tx.sign c.toCrypto key).signature.data.length = 65 := by
  simp [sign]

theorem take_signature_sign : (tx.sign c.toCrypto key).signature.data.take 64 =
    (key.signEcdsaRecoverable (tx.hash c.toCrypto)).1.toList := by
  rw [sign, List.take_append_of_le_length (by simp), List.take_of_length_le (by simp)]

theorem getD_signature_sign : (tx.sign c.toCrypto key).signature.data.getD 64 0 =
    (key.signEcdsaRecoverable (tx.hash c.toCrypto)).2 := by
  rw [sign, List.getD_eq_getElem?_getD, List.getElem?_append_right (by simp)]
  simp

theorem verifySignature_sign (h : key.Recovers c (tx.hash c.toCrypto)) :
    (tx.sign c.toCrypto key).verifySignature c.toCrypto = .ok key.publicKey := by
  rw [verifySignature, if_neg (by simp [sign]), if_neg (by rw [length_signature_sign]; simp)]
  simp only [take_signature_sign, getD_signature_sign, hash_sign, h.recoveryId, h.compact,
    h.recover]

theorem recoverPublicKeyFromTx_sign (h : key.Recovers c (tx.hash c.toCrypto)) :
    BatchSignatureVerifier.recoverPublicKeyFromTx c (tx.sign c.toCrypto key)
      (tx.hash c.toCrypto) = .ok key.publicKey := by
  rw [BatchSignatureVerifier.recoverPublicKeyFromTx,
    if_neg (by rw [length_signature_sign]; simp)]
  simp only [take_signature_sign, getD_signature_sign, h.recoveryId, h.signature, h.compact,
    h.recover]

end Sign

end Transaction

structure Wallet where
  privateKey : SecretKey
  publicKey : Bytes 33
  address : String

namespace Wallet

variable (c : Crypto)

theorem digestHead_le : 0 + 20 ≤ 32 := by decide

/-- "Convert public key to address format: cyt + hash(public_key)". -/
def publicKeyToAddress (publicKey : Bytes 33) : String :=
  "cyt" ++ hexEncode ((c.sha256 publicKey.toList).slice 0 20 digestHead_le).toList

def fromPrivateKey (privateKey : SecretKey) : Wallet :=
  ⟨privateKey, privateKey.publicKey, publicKeyToAddress c privateKey.publicKey⟩

end Wallet

namespace InteractiveCli

/-- Errors are texts, or those of `hex::decode` passed on. -/
inductive AddressError
  | text (message : String)
  | hex (error : FromHexError)
  deriving DecidableEq

def afterPrefix (s : String) : Option String :=
  match s.toList with
  | 'c' :: 'y' :: 't' :: rest => some (String.ofList rest)
  | _ => none

def decodeAddress (noPrefix wrongLength : String) (s : String) : Except AddressError Address :=
  match afterPrefix s with
  | none => .error (.text noPrefix)
  | some digits =>
    match hexDecode digits with
    | .error e => .error (.hex e)
    | .ok data => if h : data.length = 20 then .ok ⟨data, h⟩ else .error (.text wrongLength)

def addressFromWallet (wallet : Wallet) : Except AddressError Address :=
  decodeAddress "Invalid wallet address" "Invalid wallet address length" wallet.address

def parseAddress (input : String) : Except AddressError Address :=
  decodeAddress "Address must start with 'cyt'" "Invalid address length" input

/-- The transfer that `transfer_cts` signs and submits; `getNonce` is the node's answer, or zero
without a node. -/
def transferCts (c : Crypto) (wallet : Wallet) (recipient : String) (amount : UInt64)
    (getNonce : Address → UInt64) : Except AddressError Transaction := do
  let fromAddr ← addressFromWallet wallet
  let toAddr ← parseAddress recipient
  return (Transaction.newTransfer fromAddr toAddr amount (getNonce fromAddr) 21000 1).sign c
    wallet.privateKey

theorem decodeAddress_hexEncode (noPrefix wrongLength : String) (a : Address) :
    decodeAddress noPrefix wrongLength ("cyt" ++ hexEncode a.toList) = .ok a := by
  have hprefix : afterPrefix ("cyt" ++ hexEncode a.toList) = some (hexEncode a.toList) := by
    rw [afterPrefix, String.toList_append]
    simp
  rw [decodeAddress, hprefix]
  simp only [hexDecode_hexEncode, dif_pos a.length_toList]
  rfl

section Transfer
variable {c : BatchCrypto} {key : SecretKey} {recipient : String} {amount : UInt64}
  {getNonce : Address → UInt64} {tx : Transaction}

theorem addressFromWallet_fromPrivateKey (c : Crypto) (key : SecretKey) :
    addressFromWallet (Wallet.fromPrivateKey c key) =
      .ok ((c.sha256 key.publicKey.toList).slice 0 20 (by decide)) :=
  decodeAddress_hexEncode _ _ _

theorem transferCts_ok
    (h : transferCts c.toCrypto (Wallet.fromPrivateKey c.toCrypto key) recipient amount getNonce =
      .ok tx) :
    ∃ toAddr nonce, tx = (Transaction.newTransfer
      ((c.sha256 key.publicKey.toList).slice 0 20 (by decide)) toAddr amount nonce 21000 1).sign
        c.toCrypto key := by
  rw [transferCts, addressFromWallet_fromPrivateKey] at h
  cases hto : parseAddress recipient with
  | error e =>
    rw [hto] at h
    cases h
  | ok toAddr =>
    rw [hto] at h
    exact ⟨toAddr, _, (Except.ok.inj h).symm⟩

variable (htx : transferCts c.toCrypto (Wallet.fromPrivateKey c.toCrypto key) recipient amount
    getNonce = .ok tx)
  (hrec : key.Recovers c (tx.hash c.toCrypto))
include htx hrec

theorem validateBasic_transferCts_iff (hamount : amount ≠ 0) :
    tx.validateBasic c.toCrypto = .ok () ↔
      Transaction.addressOfKey c.toCrypto key.publicKey =
        (c.sha256 key.publicKey.toList).slice 0 20 (by decide) := by
  obtain ⟨toAddr, nonce, rfl⟩ := transferCts_ok htx
  rw [Transaction.hash_sign] at hrec
  have hzero : Transaction.zeroAmount (.transfer toAddr amount) = false := by
    simp [Transaction.zeroAmount, hamount]
  rw [Transaction.validateBasic, Transaction.verifySignature_sign hrec]
  by_cases haddr : Transaction.addressOfKey c.toCrypto key.publicKey =
      (c.sha256 key.publicKey.toList).slice 0 20 (by decide)
  · simp [Transaction.sign, Transaction.newTransfer, hzero, haddr]
  · simp [Transaction.sign, Transaction.newTransfer, hzero, haddr]

theorem verifyTransaction_transferCts_iff {v : BatchSignatureVerifier}
    (hsize : 0 < v.maxBatchSize) (elapsed : UInt64) :
    BatchSignatureVerifier.verifyTransaction c v elapsed tx = some (.ok true) ↔
      BatchSignatureVerifier.publicKeyToAddress c key.publicKey =
        (c.sha256 key.publicKey.toList).slice 0 20 (by decide) := by
  obtain ⟨toAddr, nonce, rfl⟩ := transferCts_ok htx
  rw [Transaction.hash_sign] at hrec
  rw [BatchSignatureVerifier.verifyTransaction_ok_iff hsize, BatchSignatureVerifier.Verifies,
    Transaction.hash_sign, Transaction.recoverPublicKeyFromTx_sign hrec]
  constructor
  · rintro ⟨pubkey, hkey, haddr⟩
    obtain rfl := Except.ok.inj hkey
    exact haddr
  · exact fun haddr => ⟨_, rfl, haddr⟩

end Transfer

/-- The three addresses of a key are one, and every transfer the CLI makes with it passes. -/
structure OneAddress (c : BatchCrypto) (key : SecretKey) : Prop where
  validated : addressFromWallet (Wallet.fromPrivateKey c.toCrypto key) =
    .ok (Transaction.addressOfKey c.toCrypto key.publicKey)
  batched : addressFromWallet (Wallet.fromPrivateKey c.toCrypto key) =
    .ok (BatchSignatureVerifier.publicKeyToAddress c key.publicKey)
  accepted : ∀ recipient amount getNonce tx, amount ≠ 0 →
    transferCts c.toCrypto (Wallet.fromPrivateKey c.toCrypto key) recipient amount getNonce =
      .ok tx →
    key.Recovers c (tx.hash c.toCrypto) →
      tx.validateBasic c.toCrypto = .ok () ∧
        ∀ v : BatchSignatureVerifier, 0 < v.maxBatchSize → ∀ elapsed,
          BatchSignatureVerifier.verifyTransaction c v elapsed tx = some (.ok true)

/-- The head of the digest of the whole key is the tail of both digests of the key without its
first byte. -/
def DigestsAgree (c : BatchCrypto) (publicKey : Bytes 33) : Prop :=
  (c.sha256 publicKey.toList).toList.take 20 =
      (c.sha256 (publicKey.toList.drop 1)).toList.drop 12 ∧
    (c.sha256 publicKey.toList).toList.take 20 =
      (c.keccak256 (publicKey.toList.drop 1)).toList.drop 12

theorem digestsAgree_iff {c : BatchCrypto} {publicKey : Bytes 33} :
    DigestsAgree c publicKey ↔
      Transaction.addressOfKey c.toCrypto publicKey =
          (c.sha256 publicKey.toList).slice 0 20 (by decide) ∧
        BatchSignatureVerifier.publicKeyToAddress c publicKey =
          (c.sha256 publicKey.toList).slice 0 20 (by decide) := by
  have hkey : (publicKey.slice 1 32 (by decide)).toList = publicKey.toList.drop 1 :=
    List.take_of_length_le (by simp)
  have htail : ∀ h k : Hash, h.slice 12 20 (by decide) = k.slice 0 20 (by decide) ↔
      k.toList.take 20 = h.toList.drop 12 := by
    intro h k
    have hdrop : (h.slice 12 20 (by decide)).toList = h.toList.drop 12 :=
      List.take_of_length_le (by simp)
    rw [← List.Vector.toList_injective.eq_iff, hdrop, eq_comm]
    rfl
  rw [Transaction.addressOfKey, BatchSignatureVerifier.publicKeyToAddress, hkey, htail, htail]
  rfl

/-- A key has one address exactly if its digests agree. -/
theorem oneAddress_iff (c : BatchCrypto) (key : SecretKey) :
    OneAddress c key ↔ DigestsAgree c key.publicKey := by
  rw [digestsAgree_iff]
  constructor
  · rintro ⟨hvalid, hbatch, -⟩
    rw [addressFromWallet_fromPrivateKey] at hvalid hbatch
    exact ⟨(Except.ok.inj hvalid).symm, (Except.ok.inj hbatch).symm⟩
  · rintro ⟨hvalid, hbatch⟩
    refine ⟨?_, ?_, ?_⟩
    · rw [addressFromWallet_fromPrivateKey, hvalid]
    · rw [addressFromWallet_fromPrivateKey, hbatch]
    · intro recipient amount getNonce tx hamount htx hrec
      refine ⟨(validateBasic_transferCts_iff htx hrec hamount).mpr hvalid, ?_⟩
      intro v hsize elapsed
      exact (verifyTransaction_transferCts_iff htx hrec hsize elapsed).mpr hbatch

section Sample

/-- The compressed public key of the private key whose thirty-two bytes are all one. -/
def samplePublicKey : Bytes 33 :=
  ⟨[0x03, 0x1b, 0x84, 0xc5, 0x56, 0x7b, 0x12, 0x64, 0x40, 0x99, 0x5d, 0x3e, 0xd5, 0xaa, 0xba,
    0x05, 0x65, 0xd7, 0x1e, 0x18, 0x34, 0x60, 0x48, 0x19, 0xff, 0x9c, 0x17, 0xf5, 0xe9, 0xd5,
    0xdd, 0x07, 0x8f], rfl⟩

def sampleKey : SecretKey :=
  ⟨samplePublicKey, fun _ =>
    (⟨[0x3b, 0x44, 0x13, 0xbb, 0x83, 0xed, 0x38, 0x1d, 0xd8, 0x52, 0x3f, 0xe8, 0x0f, 0xd7, 0xd8,
      0xb5, 0x1e, 0x8c, 0x9d, 0x42, 0x63, 0x4d, 0x96, 0x78, 0x83, 0x07, 0x3d, 0x69, 0x7e, 0x23,
      0xfc, 0x2e, 0x62, 0x43, 0x06, 0xb5, 0x70, 0x09, 0xe9, 0x70, 0xc6, 0x09, 0xb3, 0xbc, 0xb8,
      0xc3, 0xc8, 0x4e, 0x30, 0x88, 0x76, 0x5f, 0xf4, 0x71, 0xb3, 0x54, 0x0f, 0x1a, 0x0a, 0x1f,
      0xc8, 0x3e, 0x27, 0x09], rfl⟩, 1)⟩

def samplePrinted : Address :=
  ⟨[0xf1, 0xd1, 0x20, 0x12, 0x40, 0x6b, 0x87, 0xaf, 0xb2, 0x7f, 0x6d, 0xd1, 0x6a, 0xc0, 0xa7,
    0x6f, 0xcd, 0xaa, 0x55, 0xed], rfl⟩

def sampleTransfer : Transaction :=
  (Transaction.newTransfer samplePrinted (Bytes.fill 20 2) 100 0 21000 1).sign .hashOnly sampleKey

/-- SHA-256, Keccak-256, and a recovery that knows the signature of this transfer. -/
def sampleCrypto : BatchCrypto where
  toCrypto := .withSignatures
    [((sampleTransfer.hash .hashOnly, sampleTransfer.signature.data.take 64, 1), samplePublicKey)]
  keccak256 := Keccak.hash
  signatureError _ := none

set_option maxRecDepth 20000 in
theorem sampleKey_addresses :
    (Sha256.hash samplePublicKey.toList).slice 0 20 (by decide) = samplePrinted ∧
      Transaction.addressOfKey sampleCrypto.toCrypto samplePublicKey ≠ samplePrinted ∧
      BatchSignatureVerifier.publicKeyToAddress sampleCrypto samplePublicKey ≠ samplePrinted ∧
      BatchSignatureVerifier.publicKeyToAddress sampleCrypto samplePublicKey ≠
        Transaction.addressOfKey sampleCrypto.toCrypto samplePublicKey := by
  decide +kernel

theorem sampleKey_recovers :
    sampleKey.Recovers sampleCrypto (sampleTransfer.hash sampleCrypto.toCrypto) := by
  refine ⟨by decide, rfl, rfl, ?_⟩
  have hhash : sampleTransfer.hash sampleCrypto.toCrypto = sampleTransfer.hash .hashOnly := rfl
  have hcompact : sampleTransfer.signature.data.take 64 =
      (sampleKey.signEcdsaRecoverable (sampleTransfer.hash .hashOnly)).1.toList := rfl
  rw [hhash, ← hcompact]
  simp [sampleCrypto, Crypto.withSignatures, sampleKey]

/-- The wallet's transfer is signed with its own key and refused by both checks. -/
theorem sampleTransfer_refused :
    ¬ OneAddress sampleCrypto sampleKey ∧
      transferCts sampleCrypto.toCrypto (Wallet.fromPrivateKey sampleCrypto.toCrypto sampleKey)
          ("cyt" ++ hexEncode (Bytes.fill 20 2).toList) 100 (fun _ => 0) = .ok sampleTransfer ∧
      sampleKey.Recovers sampleCrypto (sampleTransfer.hash sampleCrypto.toCrypto) ∧
      sampleTransfer.validateBasic sampleCrypto.toCrypto ≠ .ok () ∧
      BatchSignatureVerifier.verifyTransaction sampleCrypto ⟨10⟩ 0 sampleTransfer ≠
        some (.ok true) ∧
      BatchSignatureVerifier.publicKeyToAddress sampleCrypto samplePublicKey ≠
        Transaction.addressOfKey sampleCrypto.toCrypto samplePublicKey := by
  obtain ⟨hprinted, hvalid, hbatch, hne⟩ := sampleKey_addresses
  have hwallet : addressFromWallet (Wallet.fromPrivateKey sampleCrypto.toCrypto sampleKey) =
      .ok samplePrinted := by
    rw [addressFromWallet_fromPrivateKey]
    exact congrArg _ hprinted
  have htx : transferCts sampleCrypto.toCrypto
      (Wallet.fromPrivateKey sampleCrypto.toCrypto sampleKey)
      ("cyt" ++ hexEncode (Bytes.fill 20 2).toList) 100 (fun _ => 0) = .ok sampleTransfer := by
    rw [transferCts, hwallet, parseAddress, decodeAddress_hexEncode]
    rfl
  refine ⟨?_, htx, sampleKey_recovers, ?_, ?_, hne⟩
  · intro hone
    have hsame := hone.validated
    rw [hwallet] at hsame
    exact hvalid (Except.ok.inj hsame).symm
  · rw [Ne, validateBasic_transferCts_iff htx sampleKey_recovers (by decide)]
    exact fun he => hvalid (he.trans hprinted)
  · rw [Ne, verifyTransaction_transferCts_iff htx sampleKey_recovers (by decide)]
    exact fun he => hbatch (he.trans hprinted)

end Sample

end InteractiveCli

end CytahSpeed
