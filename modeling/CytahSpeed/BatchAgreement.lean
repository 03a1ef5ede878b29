import CytahSpeed.BatchVerification
import CytahSpeed.Keccak

/-!
# Batches against single transactions

`failed_signatures` is meant to list the transactions of a batch that fail on their own. The batch
stops with an error at the first one instead, derives addresses with another digest than
`validate_basic`, and counts whatever is left as valid. The two ways agree on the batches without a
failure on either side, and on no others.
-/

namespace CytahSpeed.BatchSignatureVerifier
open ByteString

/-- The signature and the address check of `validate_basic`. -/
def passesAlone (c : Crypto) (tx : Transaction) : Bool :=
  match tx.verifySignature c with
  | .ok pubkey => Transaction.addressOfKey c pubkey = tx.fromAddr
  | .error _ => false

def failedAlone (c : Crypto) (transactions : List Transaction) : List ℕ :=
  (transactions.zipIdx.filter fun e => ! passesAlone c e.1).map Prod.snd

/-- The batch reports what checking one by one finds. -/
def AgreesOneByOne (c : BatchCrypto) (v : BatchSignatureVerifier) (elapsed : UInt64)
    (transactions : List Transaction) : Prop :=
  ∃ r, verifyTransactionBatch c v elapsed transactions = some (.ok r) ∧
    r.failedSignatures = failedAlone c.toCrypto transactions ∧
    r.invalidCount = r.failedSignatures.length ∧
    r.validCount + r.invalidCount = transactions.length

/-- The signature recovers a key whose addresses by either digest are the sender's. -/
def PassesBoth (c : BatchCrypto) (tx : Transaction) : Prop :=
  c.signatureError (tx.signature.data.take 64) = none ∧
    ∃ pubkey, tx.verifySignature c.toCrypto = .ok pubkey ∧
      Transaction.addressOfKey c.toCrypto pubkey = tx.fromAddr ∧
      publicKeyToAddress c pubkey = tx.fromAddr

variable {c : BatchCrypto} {v : BatchSignatureVerifier} {elapsed : UInt64} {tx : Transaction}
  {transactions : List Transaction}

theorem passesAlone_iff : passesAlone c.toCrypto tx = true ↔
    ∃ pubkey, tx.verifySignature c.toCrypto = .ok pubkey ∧
      Transaction.addressOfKey c.toCrypto pubkey = tx.fromAddr := by
  unfold passesAlone
  cases tx.verifySignature c.toCrypto with
  | error e => simp
  | ok pubkey => simp

theorem verifySignature_ok {pubkey : Bytes 33} (h : tx.verifySignature c.toCrypto = .ok pubkey) :
    tx.signature.data.length = 65 ∧ c.recoveryIdError (tx.signature.data.getD 64 0) = none ∧
      c.compactError (tx.signature.data.take 64) = none ∧
      c.recoverEcdsa (tx.hash c.toCrypto) (tx.signature.data.take 64)
        (tx.signature.data.getD 64 0) = .ok pubkey := by
  unfold Transaction.verifySignature at h
  split_ifs at h with halg hlen
  · dsimp only at h
    split at h
    · cases h
    · cases h
    · cases h
    · next key hid hcompact hrecover =>
      obtain rfl := Except.ok.inj h
      exact ⟨not_not.mp hlen, hid, hcompact, hrecover⟩

/-- The batch recovers the same key, unless `Signature::from_compact` refuses the bytes. -/
theorem recoverPublicKeyFromTx_ok_iff {pubkey : Bytes 33}
    (h : tx.verifySignature c.toCrypto = .ok pubkey) {key : Bytes 33} :
    recoverPublicKeyFromTx c tx (tx.hash c.toCrypto) = .ok key ↔
      c.signatureError (tx.signature.data.take 64) = none ∧ key = pubkey := by
  obtain ⟨hlen, hid, hcompact, hrecover⟩ := verifySignature_ok h
  rw [recoverPublicKeyFromTx, if_neg (not_not.mpr hlen)]
  simp only [hid, hcompact, hrecover]
  cases c.signatureError (tx.signature.data.take 64) with
  | none => simp [eq_comm]
  | some e => simp

theorem passesBoth_iff : PassesBoth c tx ↔ passesAlone c.toCrypto tx = true ∧ Verifies c tx := by
  rw [passesAlone_iff, PassesBoth, Verifies]
  constructor
  · rintro ⟨hsig, pubkey, hkey, hsha, hkeccak⟩
    exact ⟨⟨pubkey, hkey, hsha⟩, pubkey, (recoverPublicKeyFromTx_ok_iff hkey).mpr ⟨hsig, rfl⟩,
      hkeccak⟩
  · rintro ⟨⟨pubkey, hkey, hsha⟩, key, hrecover, hkeccak⟩
    obtain ⟨hsig, rfl⟩ := (recoverPublicKeyFromTx_ok_iff hkey).mp hrecover
    exact ⟨hsig, key, hkey, hsha, hkeccak⟩

theorem failedAlone_eq_nil_iff {c : Crypto} :
    failedAlone c transactions = [] ↔ ∀ tx ∈ transactions, passesAlone c tx = true := by
  rw [failedAlone, List.map_eq_nil_iff, List.filter_eq_nil_iff]
  constructor
  · intro h tx htx
    obtain ⟨i, hi, rfl⟩ := List.getElem_of_mem htx
    have hmem : (transactions[i], i) ∈ transactions.zipIdx :=
      List.mk_mem_zipIdx_iff_getElem?.mpr (List.getElem?_eq_getElem hi)
    simpa using h _ hmem
  · intro h e he
    simpa using h e.1 (List.fst_mem_of_mem_zipIdx he)

/-- A batch agrees with checking one by one exactly if every transaction passes by both digests,
whatever the size of the chunks. -/
theorem agreesOneByOne_iff (c : BatchCrypto) (v : BatchSignatureVerifier) (elapsed : UInt64)
    (transactions : List Transaction) (hsize : 0 < v.maxBatchSize) :
    AgreesOneByOne c v elapsed transactions ↔ ∀ tx ∈ transactions, PassesBoth c tx := by
  constructor
  · rintro ⟨r, hbatch, hfailed, -, -⟩
    have hverifies : ∀ tx ∈ transactions, Verifies c tx := by
      intro tx htx
      by_contra hnot
      have hfails : ∃ e, verifyTransactionBatch c v elapsed transactions = some (.error e) :=
        verifyTransactionBatch_of_not_verifies htx hnot
      obtain ⟨e, he⟩ := hfails
      rw [hbatch] at he
      cases he
    rw [verifyTransactionBatch_of_verifies hsize hverifies] at hbatch
    cases hbatch
    have halone := failedAlone_eq_nil_iff.mp hfailed.symm
    exact fun tx htx => passesBoth_iff.mpr ⟨halone tx htx, hverifies tx htx⟩
  · intro h
    have hverifies : ∀ tx ∈ transactions, Verifies c tx :=
      fun tx htx => (passesBoth_iff.mp (h tx htx)).2
    have halone : failedAlone c.toCrypto transactions = [] :=
      failedAlone_eq_nil_iff.mpr fun tx htx => (passesBoth_iff.mp (h tx htx)).1
    refine ⟨_, verifyTransactionBatch_of_verifies hsize hverifies, ?_, rfl, rfl⟩
    rw [halone]

/-- The two digests, with a recovery that knows no signature. -/
def digestsOnly : BatchCrypto := ⟨.hashOnly, Keccak.hash, fun _ => none⟩

def unsignedTransfer : Transaction := .newTransfer (Bytes.fill 20 1) (Bytes.fill 20 2) 100 0 21000 1

theorem agreesOneByOne_unsigned_iff : 0 < (10 : ℕ) ∧
    (AgreesOneByOne digestsOnly ⟨10⟩ 0 [unsignedTransfer] ↔
      ∀ tx ∈ [unsignedTransfer], PassesBoth digestsOnly tx) :=
  ⟨by decide, agreesOneByOne_iff digestsOnly ⟨10⟩ 0 [unsignedTransfer] (by decide)⟩

/-- The batch with the unsigned transfer alone fails, where one by one its index is reported. -/
theorem unsignedTransfer_fails_batch :
    verifyTransactionBatch digestsOnly ⟨10⟩ 0 [unsignedTransfer] =
        some (.error "Transaction 0: Invalid signature length") ∧
      failedAlone digestsOnly.toCrypto [unsignedTransfer] = [0] ∧
      ¬ ∀ v elapsed transactions, 0 < v.maxBatchSize →
        AgreesOneByOne digestsOnly v elapsed transactions := by
  have hbatch : verifyTransactionBatch digestsOnly ⟨10⟩ 0 [unsignedTransfer] =
      some (.error "Transaction 0: Invalid signature length") := by rfl
  refine ⟨hbatch, by rfl, ?_⟩
  intro h
  obtain ⟨r, hr, -⟩ := h ⟨10⟩ 0 [unsignedTransfer] (by decide)
  rw [hbatch] at hr
  cases hr

end CytahSpeed.BatchSignatureVerifier
