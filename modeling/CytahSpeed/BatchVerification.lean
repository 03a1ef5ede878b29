import CytahSpeed.Transaction
import Mathlib.Algebra.GroupWithZero.Nat

/-!
# Batch verification of signatures

`BatchSignatureVerifier` recovers the key of every transaction, compares an address derived with
Keccak-256 to the sender, and splits what it has recovered into chunks that are counted as valid.
One transaction that fails in the first pass fails the whole batch. The statistics the verifier
keeps are left out.
-/

namespace CytahSpeed
open ByteString

/-- What the verifier uses beside the parts of `Crypto`: the digest of the `sha3` crate and the
refusals of `Signature::from_compact`. -/
structure BatchCrypto extends Crypto where
  keccak256 : List UInt8 → Hash
  signatureError : List UInt8 → Option String

structure VerificationResult where
  validCount : ℕ
  invalidCount : ℕ
  failedSignatures : List ℕ
  totalTimeMs : UInt64
  deriving DecidableEq

structure ChunkResult where
  valid : ℕ
  invalid : ℕ
  failedIndices : List ℕ

structure BatchSignatureVerifier where
  maxBatchSize : ℕ

/-- The chunks of a list; there are no more than its elements. -/
def chunksOf {α : Type*} (size : ℕ) : ℕ → List α → List (List α)
  | 0, _ => []
  | _ + 1, [] => []
  | fuel + 1, l => l.take size :: chunksOf size fuel (l.drop size)

theorem sum_length_chunksOf {α : Type*} {size : ℕ} (hsize : 0 < size) (fuel : ℕ) (l : List α)
    (hfuel : l.length ≤ fuel) : ((chunksOf size fuel l).map List.length).sum = l.length := by
  induction fuel generalizing l with
  | zero => simp [chunksOf, List.length_eq_zero_iff.mp (Nat.le_zero.mp hfuel)]
  | succ fuel ih =>
    cases l with
    | nil => rfl
    | cons a l =>
      have hdrop : ((a :: l).drop size).length ≤ fuel := by
        rw [List.length_drop]
        rw [List.length_cons] at hfuel ⊢
        omega
      rw [chunksOf, List.map_cons, List.sum_cons, ih _ hdrop, List.length_take, List.length_drop]
      · omega
      · simp

namespace BatchSignatureVerifier

variable (c : BatchCrypto)

def recoverPublicKeyFromTx (tx : Transaction) (message : Hash) : Except String (Bytes 33) :=
  if tx.signature.data.length ≠ 65 then .error "Invalid signature length"
  else
    let recoveryId := tx.signature.data.getD 64 0
    let sigBytes := tx.signature.data.take 64
    match c.recoveryIdError recoveryId, c.signatureError sigBytes, c.compactError sigBytes,
        c.recoverEcdsa message sigBytes recoveryId with
    | some e, _, _, _ => .error ("Invalid recovery ID: " ++ e)
    | none, some e, _, _ => .error ("Invalid signature: " ++ e)
    | none, none, some e, _ => .error ("Invalid recoverable signature: " ++ e)
    | none, none, none, .error e => .error ("Public key recovery failed: " ++ e)
    | none, none, none, .ok pubkey => .ok pubkey

theorem keyTail_le : 1 + 32 ≤ 33 := by decide

theorem digestTail_le : 12 + 20 ≤ 32 := by decide

/-- The last twenty bytes of the digest of the serialisation without its first byte. -/
def publicKeyToAddress (pubkey : Bytes 33) : Address :=
  (c.keccak256 (pubkey.slice 1 32 keyTail_le).toList).slice 12 20 digestTail_le

def verificationData (idx : ℕ) (tx : Transaction) : Except String (ℕ × Hash × Bytes 33) :=
  match recoverPublicKeyFromTx c tx (tx.hash c.toCrypto) with
  | .error e => .error ("Transaction " ++ toString idx ++ ": " ++ e)
  | .ok pubkey =>
    if publicKeyToAddress c pubkey ≠ tx.fromAddr then
      .error ("Transaction " ++ toString idx ++ ": signature does not match from address")
    else .ok (idx, tx.hash c.toCrypto, pubkey)

/-- "Since we already recovered and verified the public keys in the preparation phase, this is
just a formality." -/
def verifyBatchChunk (batch : List (ℕ × Hash × Bytes 33)) : Except String ChunkResult :=
  .ok ⟨batch.length, 0, []⟩

def addChunk (r : VerificationResult) : Except String ChunkResult →
    Except String VerificationResult
  | .ok k => .ok { r with
      validCount := r.validCount + k.valid
      invalidCount := r.invalidCount + k.invalid
      failedSignatures := r.failedSignatures ++ k.failedIndices }
  | .error e => .error ("Batch verification failed: " ++ e)

variable (v : BatchSignatureVerifier) (elapsed : UInt64)

/-- `none` is the panic of `chunks` on a size of zero; `elapsed` is the measured time. -/
def verifyTransactionBatch (transactions : List Transaction) :
    Option (Except String VerificationResult) :=
  if transactions.isEmpty then some (.ok ⟨0, 0, [], 0⟩)
  else
    match transactions.zipIdx.mapM fun e => verificationData c e.2 e.1 with
    | .error e => some (.error e)
    | .ok data =>
      if v.maxBatchSize = 0 then none
      else
        some ((chunksOf v.maxBatchSize data.length data).foldlM
          (fun r batch => addChunk r (verifyBatchChunk batch)) ⟨0, 0, [], elapsed⟩)

def verifyTransaction (tx : Transaction) : Option (Except String Bool) :=
  (verifyTransactionBatch c v elapsed [tx]).map fun result =>
    result.map fun r => r.invalidCount = 0

variable {c} {v} {elapsed}

theorem verificationData_ok_iff {idx : ℕ} {tx : Transaction} {data : ℕ × Hash × Bytes 33} :
    verificationData c idx tx = .ok data ↔
      ∃ pubkey, recoverPublicKeyFromTx c tx (tx.hash c.toCrypto) = .ok pubkey ∧
        publicKeyToAddress c pubkey = tx.fromAddr ∧
        data = (idx, tx.hash c.toCrypto, pubkey) := by
  unfold verificationData
  cases hr : recoverPublicKeyFromTx c tx (tx.hash c.toCrypto) with
  | error e => simp
  | ok pubkey =>
    by_cases ha : publicKeyToAddress c pubkey = tx.fromAddr
    · simp [ha, eq_comm]
    · simp [ha]

theorem foldlM_addChunk (batches : List (List (ℕ × Hash × Bytes 33))) (r : VerificationResult) :
    batches.foldlM (fun r batch => addChunk r (verifyBatchChunk batch)) r =
      .ok { r with validCount := r.validCount + (batches.map List.length).sum } := by
  induction batches generalizing r with
  | nil => simp [pure, Except.pure]
  | cons batch batches ih =>
    rw [List.foldlM_cons]
    refine (ih _).trans ?_
    simp only [List.map_cons, List.sum_cons, List.append_nil, Nat.add_zero, Nat.add_assoc]

theorem mapM_ok {α β : Type*} {f : α → Except String β} {l : List α}
    (h : ∀ x ∈ l, ∃ y, f x = .ok y) : ∃ r, l.mapM f = .ok r ∧ r.length = l.length := by
  induction l with
  | nil => exact ⟨[], rfl, rfl⟩
  | cons x l ih =>
    obtain ⟨y, hy⟩ := h x List.mem_cons_self
    obtain ⟨r, hr, hlen⟩ := ih fun z hz => h z (List.mem_cons_of_mem _ hz)
    refine ⟨y :: r, ?_, by rw [List.length_cons, List.length_cons, hlen]⟩
    rw [List.mapM_cons, hy, hr]
    rfl

theorem mapM_error {α β : Type*} {f : α → Except String β} {l : List α} {x : α} (hx : x ∈ l)
    (h : ∀ y, f x ≠ .ok y) : ∃ e, l.mapM f = .error e := by
  induction l with
  | nil => cases hx
  | cons a l ih =>
    rw [List.mapM_cons]
    cases ha : f a with
    | error e => exact ⟨e, rfl⟩
    | ok y =>
      rcases List.mem_cons.mp hx with rfl | hx
      · exact absurd ha (h y)
      · obtain ⟨e, he⟩ := ih hx
        exact ⟨e, by rw [he]; rfl⟩

variable (c) in
def Verifies (tx : Transaction) : Prop :=
  ∃ pubkey, recoverPublicKeyFromTx c tx (tx.hash c.toCrypto) = .ok pubkey ∧
    publicKeyToAddress c pubkey = tx.fromAddr

section Batch
variable {transactions : List Transaction}

theorem verifyTransactionBatch_of_verifies (hsize : 0 < v.maxBatchSize)
    (h : ∀ tx ∈ transactions, Verifies c tx) :
    verifyTransactionBatch c v elapsed transactions =
      some (.ok ⟨transactions.length, 0, [],
        if transactions.isEmpty then 0 else elapsed⟩) := by
  by_cases hnil : transactions.isEmpty = true
  · rw [verifyTransactionBatch, if_pos hnil, if_pos hnil, List.isEmpty_iff.mp hnil]
    rfl
  · have hdata : ∀ e ∈ transactions.zipIdx, ∃ data, verificationData c e.2 e.1 = .ok data := by
      intro e he
      obtain ⟨pubkey, hr, ha⟩ := h e.1 (List.fst_mem_of_mem_zipIdx he)
      exact ⟨_, verificationData_ok_iff.mpr ⟨pubkey, hr, ha, rfl⟩⟩
    obtain ⟨data, hmap, hlen⟩ := mapM_ok hdata
    rw [List.length_zipIdx] at hlen
    rw [verifyTransactionBatch, if_neg hnil, if_neg hnil, hmap]
    simp only [if_neg (Nat.ne_of_gt hsize), foldlM_addChunk, Nat.zero_add]
    rw [sum_length_chunksOf hsize _ _ le_rfl, hlen]

theorem verifyTransactionBatch_of_not_verifies {tx : Transaction} (htx : tx ∈ transactions)
    (h : ¬ Verifies c tx) :
    ∃ e, verifyTransactionBatch c v elapsed transactions = some (.error e) := by
  obtain ⟨i, hi, hget⟩ := List.getElem_of_mem htx
  have hmem : (tx, i) ∈ transactions.zipIdx :=
    List.mem_zipIdx_iff_getElem?.mpr (List.getElem?_eq_some_iff.mpr ⟨hi, hget⟩)
  have hfail : ∀ data, verificationData c i tx ≠ .ok data := by
    intro data hok
    obtain ⟨pubkey, hr, ha, -⟩ := verificationData_ok_iff.mp hok
    exact h ⟨pubkey, hr, ha⟩
  obtain ⟨e, he⟩ :=
    mapM_error (f := fun e : Transaction × ℕ => verificationData c e.2 e.1) hmem hfail
  have hne : ¬ transactions.isEmpty = true := by
    rw [List.isEmpty_iff]
    exact List.ne_nil_of_mem htx
  exact ⟨e, by rw [verifyTransactionBatch, if_neg hne, he]⟩

end Batch

theorem verifyTransaction_ok_iff (hsize : 0 < v.maxBatchSize) {tx : Transaction} :
    verifyTransaction c v elapsed tx = some (.ok true) ↔ Verifies c tx := by
  by_cases h : Verifies c tx
  · rw [verifyTransaction, verifyTransactionBatch_of_verifies hsize
      (fun tx' htx' => by rwa [List.mem_singleton.mp htx'])]
    exact iff_of_true rfl h
  · obtain ⟨e, he⟩ := verifyTransactionBatch_of_not_verifies
      (List.mem_singleton_self tx) h
    rw [verifyTransaction, he]
    refine iff_of_false ?_ h
    simp [Except.map]

end BatchSignatureVerifier

end CytahSpeed
