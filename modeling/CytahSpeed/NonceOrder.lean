import CytahSpeed.TransactionChoice

/-!
# The nonces of one sender

A sender's transactions only execute in the order of their nonces, and a block is given up at the
first that does not. `create_block` sorts by fee alone, behind a coinbase that uses nonce zero of
its sender. So the nonces of a sender are in order for certain only where the fees happen to say the
same and nothing is cut.
-/

namespace CytahSpeed
open ByteString FiniteMap MachineInt StateManager

namespace BlockProducer

/-- Every block that is returned has the transactions of each sender at increasing nonces, and with
a transaction all ready ones of its sender at smaller nonces. -/
structure RespectsNonces (c : Crypto) (p : BlockProducer) (mempool : TxDagMempool)
    (baseFee : UInt64) : Prop where
  increasing : ∀ call block, p.Returns c mempool baseFee call block →
    block.transactions.Pairwise fun a b => a.fromAddr = b.fromAddr → a.nonce < b.nonce
  closed : ∀ call block, p.Returns c mempool baseFee call block →
    ∀ tx ∈ block.transactions, ∀ mt ∈ mempool.readyTransactions,
      mt.transaction.fromAddr = tx.fromAddr → mt.transaction.nonce < tx.nonce →
        mt.transaction ∈ block.transactions

/-- No ready transaction takes the nonce of the coinbase. No two of one sender have one nonce,
unless a block takes one transaction only; of two with different nonces the earlier pays more, and
nothing is cut. -/
structure FeesFollowNonces (p : BlockProducer) (mempool : TxDagMempool) (baseFee : UInt64) :
    Prop where
  coinbase : ∀ a ∈ mempool.readyTransactions, a.transaction.fromAddr = coinbaseSender →
    a.transaction.nonce ≠ 0
  repeated : ∀ a ∈ mempool.readyTransactions, ∀ b ∈ mempool.readyTransactions, a ≠ b →
    a.transaction.fromAddr = b.transaction.fromAddr → a.transaction.nonce = b.transaction.nonce →
      p.maxTransactions = 1
  fees : ∀ a ∈ mempool.readyTransactions, ∀ b ∈ mempool.readyTransactions,
    a.transaction.fromAddr = b.transaction.fromAddr → a.transaction.nonce < b.transaction.nonce →
      mempool.readyTransactions.length ≤ p.maxTransactions ∧
        priorityFee baseFee b.transaction < priorityFee baseFee a.transaction

def Repeats (a b : MempoolTransaction) : Prop :=
  a.transaction.fromAddr = b.transaction.fromAddr ∧ a.transaction.nonce = b.transaction.nonce

def Precedes (a b : MempoolTransaction) : Prop :=
  a.transaction.fromAddr = b.transaction.fromAddr ∧ a.transaction.nonce < b.transaction.nonce

variable {c : Crypto} {p : BlockProducer} {mempool : TxDagMempool} {baseFee : UInt64}

theorem increasing_iff (a b : MempoolTransaction) :
    (a.transaction.fromAddr = b.transaction.fromAddr →
        a.transaction.nonce < b.transaction.nonce) ↔ ¬ Repeats a b ∧ ¬ Precedes b a := by
  unfold Repeats Precedes
  simp only [UInt64.lt_iff_toNat_lt, ← UInt64.toNat_inj]
  constructor
  · intro h
    refine ⟨fun hrep => ?_, fun hpre => ?_⟩
    · have := h hrep.1
      omega
    · have := h hpre.1.symm
      omega
  · intro h hsender
    by_contra hle
    by_cases heq : a.transaction.nonce.toNat = b.transaction.nonce.toNat
    · exact h.1 ⟨hsender, heq⟩
    · exact h.2 ⟨hsender.symm, by omega⟩

theorem increasing_cons_iff (producerId : Address) (reward : UInt64) (l : List MempoolTransaction) :
    (coinbaseTx producerId reward :: l.map (·.transaction)).Pairwise
        (fun a b => a.fromAddr = b.fromAddr → a.nonce < b.nonce) ↔
      (∀ a ∈ l, a.transaction.fromAddr = coinbaseSender → a.transaction.nonce ≠ 0) ∧
        l.Pairwise (fun a b => ¬ Repeats a b) ∧ l.Pairwise fun a b => ¬ Precedes b a := by
  rw [List.pairwise_cons, List.pairwise_map, ← List.pairwise_and_iff, List.forall_mem_map]
  refine and_congr ?_ ?_
  · refine forall₂_congr fun a _ => ?_
    rw [eq_comm, ← UInt64.pos_iff_ne_zero]
    rfl
  · simp only [increasing_iff]

section Orders
variable (hpool : mempool.Pooled c p.producerId) (hgate : ¬ p.Gated mempool)
  (h : RespectsNonces c p mempool baseFee)
include hpool hgate h

theorem RespectsNonces.chosen {l : List MempoolTransaction}
    (hl : l.Perm mempool.readyTransactions) :
    (∀ a ∈ CutSort.cutSort (feeKey baseFee) p.maxTransactions l,
        a.transaction.fromAddr = coinbaseSender → a.transaction.nonce ≠ 0) ∧
      (CutSort.cutSort (feeKey baseFee) p.maxTransactions l).Pairwise (fun a b => ¬ Repeats a b) ∧
      (CutSort.cutSort (feeKey baseFee) p.maxTransactions l).Pairwise
        fun a b => ¬ Precedes b a := by
  obtain ⟨call, block, reward, hreturns, htxs⟩ := exists_returns baseFee hpool hgate hl
  have hincreasing := h.increasing call block hreturns
  rw [htxs] at hincreasing
  exact (increasing_cons_iff _ _ _).mp hincreasing

theorem RespectsNonces.mem_chosen {l : List MempoolTransaction}
    (hl : l.Perm mempool.readyTransactions)
    (hcoinbase : ∀ a ∈ mempool.readyTransactions,
      a.transaction.fromAddr = coinbaseSender → a.transaction.nonce ≠ 0)
    {a b : MempoolTransaction} (hb : b ∈ CutSort.cutSort (feeKey baseFee) p.maxTransactions l)
    (ha : a ∈ mempool.readyTransactions) (hab : Precedes a b) :
    a ∈ CutSort.cutSort (feeKey baseFee) p.maxTransactions l := by
  obtain ⟨call, block, reward, hreturns, htxs⟩ := exists_returns baseFee hpool hgate hl
  have hclosed := h.closed call block hreturns
  rw [htxs] at hclosed
  have hmem := hclosed _ (List.mem_cons_of_mem _ (List.mem_map_of_mem hb)) a ha hab.1 hab.2
  rcases List.mem_cons.mp hmem with heq | hmem
  · exact absurd (congrArg Transaction.nonce heq)
      (hcoinbase a ha (congrArg Transaction.fromAddr heq))
  · obtain ⟨a', ha', heq⟩ := List.mem_map.mp hmem
    have hready := hl.mem_iff.mp (List.mem_of_mem_take (CutSort.mem_cutSort.mp ha'))
    rwa [hpool.eq_of_transaction hready ha heq] at ha'

end Orders

/-- The nonces of a sender are in order in every block of the producer exactly when it waits, takes
no transactions, or the fees follow the nonces. -/
theorem respectsNonces_iff (c : Crypto) (p : BlockProducer) (mempool : TxDagMempool)
    (baseFee : UInt64) (hpool : mempool.Pooled c p.producerId) :
    RespectsNonces c p mempool baseFee ↔
      p.Gated mempool ∨ p.maxTransactions = 0 ∨ FeesFollowNonces p mempool baseFee := by
  have hnodup : mempool.readyTransactions.Nodup := hpool.nodup _
  have hirr : ∀ a, ¬ Precedes a a := fun a h => absurd h.2 (UInt64.lt_irrefl _)
  have hsymm : ∀ a b, Repeats a b → Repeats b a := fun a b h => ⟨h.1.symm, h.2.symm⟩
  have hfee : ∀ a b : MempoolTransaction, ¬ feeKey baseFee b ≤ feeKey baseFee a ↔
      priorityFee baseFee b.transaction < priorityFee baseFee a.transaction := by
    intro a b
    rw [feeKey_le_iff, UInt64.not_le]
  constructor
  · intro h
    by_cases hgate : p.Gated mempool
    · exact Or.inl hgate
    by_cases hmax : p.maxTransactions = 0
    · exact Or.inr (Or.inl hmax)
    have hcoinbase := (CutSort.forall_mem_cutSort_iff.mp
      fun l hl => (h.chosen hpool hgate hl).1).resolve_left hmax
    have hrepeated := ((CutSort.pairwise_cutSort_iff hsymm hnodup).mp
      fun l hl => (h.chosen hpool hgate hl).2.1).resolve_left hmax
    have hfees := ((CutSort.respects_iff hirr hnodup).mp fun l hl =>
      ⟨(h.chosen hpool hgate hl).2.2,
        fun b hb a ha hab => h.mem_chosen hpool hgate hl hcoinbase hb ha hab⟩).resolve_left hmax
    refine Or.inr (Or.inr ⟨hcoinbase, ?_, ?_⟩)
    · intro a ha b hb hne hsender hnonce
      exact hrepeated a ha b hb hne ⟨hsender, hnonce⟩
    · intro a ha b hb hsender hnonce
      obtain ⟨hlen, hkey⟩ := hfees a ha b hb ⟨hsender, hnonce⟩
      exact ⟨hlen, (hfee a b).mp hkey⟩
  · intro h
    have hchosen : ∀ l, l.Perm mempool.readyTransactions → ¬ p.Gated mempool →
        ((∀ a ∈ CutSort.cutSort (feeKey baseFee) p.maxTransactions l,
            a.transaction.fromAddr = coinbaseSender → a.transaction.nonce ≠ 0) ∧
          (CutSort.cutSort (feeKey baseFee) p.maxTransactions l).Pairwise
            (fun a b => ¬ Repeats a b) ∧
          (CutSort.cutSort (feeKey baseFee) p.maxTransactions l).Pairwise
            (fun a b => ¬ Precedes b a)) ∧
        ∀ b ∈ CutSort.cutSort (feeKey baseFee) p.maxTransactions l,
          ∀ a ∈ mempool.readyTransactions, Precedes a b →
            a ∈ CutSort.cutSort (feeKey baseFee) p.maxTransactions l := by
      intro l hl hgate
      have hcases := h.resolve_left hgate
      have hrespects := (CutSort.respects_iff hirr hnodup).mpr
        (hcases.imp_right fun hf a ha b hb hab => ⟨(hf.fees a ha b hb hab.1 hab.2).1,
          (hfee a b).mpr (hf.fees a ha b hb hab.1 hab.2).2⟩) l hl
      refine ⟨⟨?_, ?_, hrespects.1⟩, hrespects.2⟩
      · exact CutSort.forall_mem_cutSort_iff.mpr (hcases.imp_right fun hf => hf.coinbase) l hl
      · exact (CutSort.pairwise_cutSort_iff hsymm hnodup).mpr
          (hcases.imp_right fun hf a ha b hb hne hab => hf.repeated a ha b hb hne hab.1 hab.2) l hl
    refine ⟨?_, ?_⟩
    · intro call block hreturns
      obtain ⟨hgate, l, reward, hl, htxs⟩ := transactions_of_returns hreturns
      rw [htxs]
      exact (increasing_cons_iff _ _ _).mpr (hchosen l hl hgate).1
    · intro call block hreturns tx htx mt hmt hsender hnonce
      obtain ⟨hgate, l, reward, hl, htxs⟩ := transactions_of_returns hreturns
      rw [htxs] at htx ⊢
      rcases List.mem_cons.mp htx with rfl | htx
      · exact absurd hnonce (UInt64.not_lt.mpr (UInt64.zero_le))
      · obtain ⟨b, hb, rfl⟩ := List.mem_map.mp htx
        exact List.mem_cons_of_mem _ (List.mem_map_of_mem
          ((hchosen l hl hgate).2 b hb mt hmt ⟨hsender, hnonce⟩))

section Sample

/-- The transfer at nonce zero pays three, the one at nonce one pays two. -/
theorem respectsNonces_sampleOffers :
    RespectsNonces .hashOnly (sampleChooser 10) (sampleOffers 3 2) 0 := by
  obtain ⟨⟨-, hready⟩, hapart, -, -⟩ := sampleOffers_evaluated
  have hmem : ∀ a ∈ (sampleOffers 3 2).readyTransactions,
      a.transaction = sampleOffer 1 2 ∨ a.transaction = sampleOffer 0 3 := by
    intro a ha
    have htx : a.transaction ∈ (sampleOffers 3 2).readyTransactions.map (·.transaction) :=
      List.mem_map_of_mem ha
    rw [hready] at htx
    simpa using htx
  have hpool := pooled_sampleOffers (hapart (sampleOffer 0 3) (by simp))
    (hapart (sampleOffer 1 2) (by simp))
  have hlen : (sampleOffers 3 2).readyTransactions.length ≤ 10 := by
    have hmap := congrArg List.length hready
    rw [List.length_map] at hmap
    rw [hmap]
    decide
  refine (respectsNonces_iff .hashOnly (sampleChooser 10) (sampleOffers 3 2) 0 hpool).mpr
    (Or.inr (Or.inr ⟨?_, ?_, ?_⟩))
  · intro a ha hzero
    rcases hmem a ha with h | h <;> rw [h] at hzero <;> exact absurd hzero (by decide)
  · intro a ha b hb hne _ hnonce
    refine absurd (hpool.eq_of_transaction ha hb ?_) hne
    rcases hmem a ha with h | h <;> rcases hmem b hb with h' | h' <;> rw [h, h'] at hnonce ⊢
    · exact absurd hnonce (by decide)
    · exact absurd hnonce (by decide)
  · intro a ha b hb _ hnonce
    refine ⟨hlen, ?_⟩
    rcases hmem a ha with h | h <;> rcases hmem b hb with h' | h' <;> rw [h, h'] at hnonce ⊢ <;>
      first | decide | exact absurd hnonce (by decide)

/-- Two transfers at one price: the one with the later nonce comes first. -/
theorem sampleOffers_reversed :
    (∃ block, (sampleChooser 10).Returns .hashOnly (sampleOffers 2 2) 0 sampleCreate block ∧
        block.transactions = [sampleCoinbase, sampleOffer 1 2, sampleOffer 0 2]) ∧
      ¬ RespectsNonces .hashOnly (sampleChooser 10) (sampleOffers 2 2) 0 := by
  obtain ⟨-, -, -, hcreate⟩ := sampleOffers_evaluated
  obtain ⟨block, hreturns, htxs⟩ := returns_of_toOption hcreate
  refine ⟨⟨block, hreturns, htxs⟩, ?_⟩
  intro h
  have hincreasing := h.increasing sampleCreate block hreturns
  rw [htxs] at hincreasing
  exact absurd ((List.pairwise_cons.mp (List.pairwise_cons.mp hincreasing).2).1 _
    (List.mem_singleton_self _) rfl) (by decide)

end Sample

end BlockProducer

end CytahSpeed
