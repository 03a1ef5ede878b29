import CytahSpeed.CutSort
import CytahSpeed.MineBlock

/-!
# The choice of transactions

The pool gives its ready transactions in the order of a hash map, and `create_block` cuts them to
the maximum before it sorts them by fee. Every order may come, so a block takes the best-paying
transactions for certain only where nothing is cut or all of them pay the same.
-/

namespace CytahSpeed
open ByteString FiniteMap MachineInt StateManager

namespace TxDagMempool

variable (c : Crypto) (m : TxDagMempool)

def readyTransactions : List MempoolTransaction := m.getReadyTransactions .sorted

/-- Every entry is stored under the hash of its transaction, and none of them has the hash of a
coinbase of the producer, for some reward of a new chain. -/
structure Pooled (producerId : Address) : Prop where
  keyed : ∀ id mt, m.transactions.lookup id = some mt → mt.transaction.hash c = id
  apart : ∃ scaled, ∀ id mt, m.transactions.lookup id = some mt → mt.transaction.hash c ≠
    (BlockProducer.coinbaseTx producerId
      (Mining.calculateExpectedBlockReward 0 scaled)).hash c

variable {c m} {producerId : Address} {order : IterOrder TxId MempoolTransaction}

theorem getReadyTransactions_eq (m : TxDagMempool) (order : IterOrder TxId MempoolTransaction) :
    m.getReadyTransactions order =
      ((order.iter m.transactions).filter (·.2.isReady)).map Prod.snd := by
  rw [getReadyTransactions, List.filter_map]
  rfl

theorem perm_getReadyTransactions (m : TxDagMempool) (order : IterOrder TxId MempoolTransaction) :
    (m.getReadyTransactions order).Perm m.readyTransactions :=
  (((order.enumerates m.transactions).perm (IterOrder.sorted.enumerates _)).map Prod.snd).filter _

theorem exists_order {l : List MempoolTransaction} (h : l.Perm m.readyTransactions) :
    ∃ order, m.getReadyTransactions order = l := by
  let entries := IterOrder.sorted.iter m.transactions
  have hl : l.Perm ((entries.filter (·.2.isReady)).map Prod.snd) := by
    rw [← getReadyTransactions_eq]
    exact h
  obtain ⟨ready, rfl, hready⟩ : ∃ ready : List (TxId × MempoolTransaction),
      l = ready.map Prod.snd ∧ ready.Perm (entries.filter (·.2.isReady)) := by
    have hcomp := List.eq_map_comp_perm (α := TxId × MempoolTransaction) Prod.snd
    exact (congrFun (congrFun hcomp l) _).mpr hl
  have hperm : entries.Perm (ready ++ entries.filter (fun e => !e.2.isReady)) :=
    (List.filter_append_perm (·.2.isReady) entries).symm.trans (hready.symm.append_right _)
  refine ⟨IterOrder.sorted.withList m.transactions _
    ((IterOrder.sorted.enumerates m.transactions).of_perm hperm), ?_⟩
  have hkept : ready.filter (·.2.isReady) = ready := by
    rw [List.filter_eq_self]
    intro e he
    exact (List.mem_filter.mp (hready.mem_iff.mp he)).2
  have hdropped : (entries.filter fun e => !e.2.isReady).filter (·.2.isReady) = [] := by
    rw [List.filter_eq_nil_iff]
    intro e he
    simpa using (List.mem_filter.mp he).2
  rw [getReadyTransactions_eq, IterOrder.withList]
  simp only [if_true, List.filter_append, hkept, hdropped, List.append_nil]

theorem exists_lookup_of_mem {mt : MempoolTransaction} (h : mt ∈ m.getReadyTransactions order) :
    ∃ id, m.transactions.lookup id = some mt := by
  obtain ⟨e, he, rfl⟩ := List.mem_map.mp (List.mem_of_mem_filter h)
  exact ⟨e.1, ((order.enumerates m.transactions).2 e).mp he⟩

section Pooled
variable (h : m.Pooled c producerId)
include h

theorem Pooled.nodup_hash (order : IterOrder TxId MempoolTransaction) :
    ((m.getReadyTransactions order).map (·.transaction.hash c)).Nodup := by
  have hkeys : ((order.iter m.transactions).filter (·.2.isReady)).map (·.2.transaction.hash c) =
      ((order.iter m.transactions).filter (·.2.isReady)).map Prod.fst := by
    apply List.map_congr_left
    intro e he
    exact h.keyed e.1 e.2 (((order.enumerates _).2 e).mp (List.mem_of_mem_filter he))
  rw [getReadyTransactions_eq, List.map_map]
  change (((order.iter m.transactions).filter (·.2.isReady)).map
    (·.2.transaction.hash c)).Nodup
  rw [hkeys]
  exact (order.enumerates m.transactions).1.sublist (List.filter_sublist.map Prod.fst)

theorem Pooled.nodup (order : IterOrder TxId MempoolTransaction) :
    (m.getReadyTransactions order).Nodup := (h.nodup_hash order).of_map _

theorem Pooled.eq_of_transaction {a b : MempoolTransaction} (ha : a ∈ m.getReadyTransactions order)
    (hb : b ∈ m.getReadyTransactions order) (hab : a.transaction = b.transaction) : a = b := by
  obtain ⟨i, hi⟩ := exists_lookup_of_mem ha
  obtain ⟨j, hj⟩ := exists_lookup_of_mem hb
  have hij : i = j := by rw [← h.keyed i a hi, ← h.keyed j b hj, hab]
  rw [hij, hj] at hi
  exact (Option.some.inj hi).symm

end Pooled

/-- Every entry is stored under the hash of its transaction, which has the property. -/
def Stores (c : Crypto) (P : Transaction → Prop) (m : TxDagMempool) : Prop :=
  ∀ id mt, m.transactions.lookup id = some mt → mt.transaction.hash c = id ∧ P mt.transaction

theorem Stores.withoutEntry {P : Transaction → Prop} (h : m.Stores c P) (gone : Option TxId) :
    (m.withoutEntry gone).Stores c P := by
  intro id mt hmt
  rw [lookup_withoutEntry] at hmt
  split_ifs at hmt
  exact h id mt hmt

theorem Stores.addToPool {P : Transaction → Prop} (h : m.Stores c P) {tx : Transaction} (htx : P tx)
    (parents : List TxId) (now : UInt64) : (m.addToPool c tx parents now).Stores c P := by
  obtain ⟨t, rfl, -, -, hlookup⟩ := lookup_addToPool c m tx parents now
  intro id mt hmt
  rw [hlookup] at hmt
  by_cases hid : id = t.transaction.hash c
  · rw [if_pos hid] at hmt
    obtain rfl := Option.some.inj hmt
    exact ⟨hid.symm, htx⟩
  · rw [if_neg hid] at hmt
    exact h id mt hmt

theorem Stores.exec {P : Transaction → Prop} (h : m.Stores c P) (call : PoolCall)
    (hcall : ∀ env tx parents source, call = .addTransaction env tx parents source →
      m.minGasPrice ≤ tx.gasPrice → P tx) : (m.exec c call).Stores c P := by
  cases call with
  | addTransaction env tx parents source =>
    change ((m.addTransaction c env tx parents source).2).Stores c P
    rcases addTransaction_cases c m env tx parents source with
      ⟨haccepts, rates, hadd⟩ | ⟨-, e, rates, hadd⟩
    · have hprice : m.minGasPrice ≤ tx.gasPrice := by
        have hmax := UInt64.le_iff_toNat_le.mp haccepts.priced
        rw [UInt64.toNat_max] at hmax
        exact UInt64.le_iff_toNat_le.mpr ((le_max_right _ _).trans hmax)
      rw [hadd]
      exact (h.withoutEntry _).addToPool (hcall _ _ _ _ rfl hprice) parents env.now
    · rw [hadd]
      exact h.withoutEntry _
  | removeTransaction txHash =>
    intro id mt hmt
    refine h id mt ?_
    change (m.removeTransaction txHash).2.transactions.lookup id = some mt at hmt
    cases ht : m.transactions.lookup txHash with
    | none => rwa [removeTransaction_of_none ht] at hmt
    | some t =>
      rw [removeTransaction_of_some ht] at hmt
      simp only [lookup_erase_eq_ite] at hmt
      split_ifs at hmt
      exact hmt
  | setBaseFee fee => exact h
  | clear =>
    intro id mt hmt
    cases hmt

theorem minGasPrice_exec (c : Crypto) (m : TxDagMempool) (call : PoolCall) :
    (m.exec c call).minGasPrice = m.minGasPrice := by
  cases call with
  | addTransaction env tx parents source =>
    change (m.addTransaction c env tx parents source).2.minGasPrice = m.minGasPrice
    rcases addTransaction_cases c m env tx parents source with
      ⟨-, rates, hadd⟩ | ⟨-, e, rates, hadd⟩
    · rw [hadd, withoutEntry_eq]
      rfl
    · rw [hadd, withoutEntry_eq]
  | removeTransaction txHash =>
    change (m.removeTransaction txHash).2.minGasPrice = m.minGasPrice
    unfold removeTransaction
    cases m.transactions.lookup txHash <;> rfl
  | setBaseFee fee => rfl
  | clear => rfl

theorem stores_foldl {P : Transaction → Prop} (h : m.Stores c P) (calls : List PoolCall)
    (hcalls : ∀ env tx parents source, .addTransaction env tx parents source ∈ calls →
      m.minGasPrice ≤ tx.gasPrice → P tx) : (calls.foldl (exec c) m).Stores c P := by
  induction calls generalizing m with
  | nil => exact h
  | cons call calls ih =>
    refine ih (h.exec call ?_) ?_
    · rintro env tx parents source rfl
      exact hcalls env tx parents source List.mem_cons_self
    · intro env tx parents source hmem
      rw [minGasPrice_exec]
      exact hcalls env tx parents source (List.mem_cons_of_mem call hmem)

/-- A pool that asks for a gas price, as the calls leave it, holds no coinbase, unless a submitted
transaction collides with one. -/
theorem pooled_run (c : Crypto) (producerId : Address) (maxSize : ℕ) {minGasPrice : UInt64}
    (hmin : 0 < minGasPrice) (calls : List PoolCall)
    (hcollides : ∀ env tx parents source, .addTransaction env tx parents source ∈ calls →
      ∀ coinbase, coinbase = BlockProducer.coinbaseTx producerId
        (Mining.calculateExpectedBlockReward 0 0) → tx.hash c = coinbase.hash c →
          tx.preimage c = coinbase.preimage c) :
    (calls.foldl (exec c) (new maxSize minGasPrice)).Pooled c producerId := by
  have hstores := stores_foldl (c := c) (m := new maxSize minGasPrice)
    (P := fun tx => tx.hash c ≠ (BlockProducer.coinbaseTx producerId
      (Mining.calculateExpectedBlockReward 0 0)).hash c) (fun id mt hmt => by cases hmt) calls (by
    intro env tx parents source hmem hprice hhash
    have hpre := hcollides env tx parents source hmem _ rfl hhash
    have hzero := le64_injective (List.append_inj' hpre (by simp)).2
    rw [hzero] at hprice
    exact absurd (UInt64.le_iff_toNat_le.mp hprice)
      (Nat.not_le.mpr (UInt64.lt_iff_toNat_lt.mp hmin)))
  exact ⟨fun id mt hmt => (hstores id mt hmt).1, 0, fun id mt hmt => (hstores id mt hmt).2⟩

end TxDagMempool

structure CreateCall where
  scale : RewardScale
  env : ProducerEnv
  dag : BlockDag
  state : StateManager
  difficulty : UInt32

namespace BlockProducer

variable (c : Crypto) (p : BlockProducer) (mempool : TxDagMempool) (baseFee : UInt64)

def Returns (call : CreateCall) (block : Block) : Prop :=
  (p.createBlock c call.scale call.env mempool call.dag call.state call.difficulty baseFee).1 =
    .ok block

def Gated : Prop :=
  mempool.readyTransactions.length < p.minTransactions ∧
    mempool.readyTransactions.length > 0 ∧ mempool.size > p.minTransactions

instance : Decidable (p.Gated mempool) := by
  unfold Gated
  infer_instance

def priorityFee (tx : Transaction) : UInt64 := satSub tx.gasPrice baseFee

variable {c p mempool baseFee} {call : CreateCall} {block : Block}

theorem waits_iff (env : ProducerEnv) : p.Waits env mempool ↔ p.Gated mempool := by
  unfold Waits Gated
  rw [(mempool.perm_getReadyTransactions env.pool).length_eq]

theorem feeKey_le_iff (a b : MempoolTransaction) : feeKey baseFee a ≤ feeKey baseFee b ↔
    priorityFee baseFee b.transaction ≤ priorityFee baseFee a.transaction := by
  have hword : (UInt64.ofNat u64Max).toNat = u64Max := rfl
  have hkey : ∀ mt : MempoolTransaction, (feeKey baseFee mt).toNat =
      u64Max - (priorityFee baseFee mt.transaction).toNat := by
    intro mt
    have hle := toNat_le_u64Max (priorityFee baseFee mt.transaction)
    rw [feeKey, priorityFee, UInt64.toNat_sub_of_le _ _ (UInt64.le_iff_toNat_le.mpr hle), hword]
  have ha := toNat_le_u64Max (priorityFee baseFee a.transaction)
  have hb := toNat_le_u64Max (priorityFee baseFee b.transaction)
  rw [UInt64.le_iff_toNat_le, UInt64.le_iff_toNat_le, hkey, hkey]
  omega

theorem selectTransactions_eq (env : ProducerEnv) : p.selectTransactions env mempool baseFee =
    (CutSort.cutSort (feeKey baseFee) p.maxTransactions
      (mempool.getReadyTransactions env.pool)).map (·.transaction) := rfl

theorem transactions_of_returns (h : p.Returns c mempool baseFee call block) :
    ¬ p.Gated mempool ∧ ∃ l reward, l.Perm mempool.readyTransactions ∧
      block.transactions = coinbaseTx p.producerId reward ::
        (CutSort.cutSort (feeKey baseFee) p.maxTransactions l).map (·.transaction) := by
  refine ⟨fun hgate => (createBlock_ok_iff.mp h).1 ((waits_iff call.env).mpr hgate), ?_⟩
  exact ⟨_, _, mempool.perm_getReadyTransactions call.env.pool, transactions_createBlock h⟩

theorem exists_returns (baseFee : UInt64) (hpool : mempool.Pooled c p.producerId)
    (hgate : ¬ p.Gated mempool) {l : List MempoolTransaction}
    (hl : l.Perm mempool.readyTransactions) :
    ∃ call block reward, p.Returns c mempool baseFee call block ∧
      block.transactions = coinbaseTx p.producerId reward ::
        (CutSort.cutSort (feeKey baseFee) p.maxTransactions l).map (·.transaction) := by
  obtain ⟨order, rfl⟩ := TxDagMempool.exists_order hl
  obtain ⟨scaled, hapart⟩ := hpool.apart
  let call : CreateCall :=
    ⟨fun _ _ _ => scaled, ⟨order, .sorted, 0, 0⟩, .empty, ⟨⟨none, ∅⟩, Bytes.zero 32⟩, 0⟩
  have hchosen : ((CutSort.cutSort (feeKey baseFee) p.maxTransactions
      (mempool.getReadyTransactions order)).map (·.transaction.hash c)).Nodup :=
    ((CutSort.perm_cutSort _).map _).nodup_iff.mpr
      ((hpool.nodup_hash order).sublist ((List.take_sublist _ _).map _))
  have hdistinct : (p.template c call.scale call.env mempool call.dag call.state 0
      baseFee).DistinctTransactions c := by
    refine (List.toFinset_card_of_nodup ?_).trans (List.length_map _)
    change ((p.blockTransactions call.scale call.env mempool call.dag call.state baseFee).map
      (·.hash c)).Nodup
    rw [blockTransactions, selectTransactions_eq, List.map_cons, List.map_map, List.nodup_cons]
    refine ⟨?_, hchosen⟩
    intro hmem
    obtain ⟨mt, hmt, heq⟩ := List.mem_map.mp hmem
    have hready := List.mem_of_mem_take (CutSort.mem_cutSort.mp hmt)
    obtain ⟨id, hid⟩ := TxDagMempool.exists_lookup_of_mem hready
    exact hapart id mt hid heq
  have hreturns : p.Returns c mempool baseFee call
      (p.template c call.scale call.env mempool call.dag call.state 0 baseFee) :=
    createBlock_ok_iff.mpr ⟨mt (waits_iff call.env).mp hgate, rfl,
      validateBasic_template_iff.mpr ⟨fun h => absurd h (by decide), hdistinct, Nat.zero_le _⟩⟩
  exact ⟨call, _, _, hreturns, rfl⟩

/-- Every block takes, in the order of their fees, ready transactions of which none left out pays
more, and the fees that are taken do not depend on the order of the pool. -/
structure TakesBest (c : Crypto) (p : BlockProducer) (mempool : TxDagMempool)
    (baseFee : UInt64) : Prop where
  best : ∀ call block, p.Returns c mempool baseFee call block →
    ∃ coinbase included left, block.transactions = coinbase :: included ∧
      (included ++ left).Perm (mempool.readyTransactions.map (·.transaction)) ∧
      (∀ x ∈ left, ∀ y ∈ included, priorityFee baseFee x ≤ priorityFee baseFee y) ∧
      included.Pairwise fun x y => priorityFee baseFee y ≤ priorityFee baseFee x
  sameFees : ∀ call call' block block', p.Returns c mempool baseFee call block →
    p.Returns c mempool baseFee call' block' →
      block.transactions.tail.map (priorityFee baseFee) =
        block'.transactions.tail.map (priorityFee baseFee)

theorem feeKey_eq_iff (a b : MempoolTransaction) : feeKey baseFee a = feeKey baseFee b ↔
    priorityFee baseFee a.transaction = priorityFee baseFee b.transaction := by
  constructor
  · intro h
    exact UInt64.le_antisymm ((feeKey_le_iff b a).mp (UInt64.le_of_eq h.symm))
      ((feeKey_le_iff a b).mp (UInt64.le_of_eq h))
  · intro h
    exact UInt64.le_antisymm ((feeKey_le_iff a b).mpr (UInt64.le_of_eq h.symm))
      ((feeKey_le_iff b a).mpr (UInt64.le_of_eq h))

/-- A block takes the best-paying transactions, whatever the order of the pool, exactly when the
producer waits, takes none, takes all of them, or all of them pay the same. -/
theorem takesBest_iff (c : Crypto) (p : BlockProducer) (mempool : TxDagMempool) (baseFee : UInt64)
    (hpool : mempool.Pooled c p.producerId) :
    TakesBest c p mempool baseFee ↔
      p.Gated mempool ∨ p.maxTransactions = 0 ∨
        mempool.readyTransactions.length ≤ p.maxTransactions ∨
        ∀ a ∈ mempool.readyTransactions, ∀ b ∈ mempool.readyTransactions,
          priorityFee baseFee a.transaction = priorityFee baseFee b.transaction := by
  simp only [← feeKey_eq_iff]
  constructor
  · intro h
    by_cases hgate : p.Gated mempool
    · exact Or.inl hgate
    refine Or.inr (CutSort.takesLeast_iff.mp ?_)
    intro l hl x hx y hy
    obtain ⟨call, block, reward, hreturns, htxs⟩ := exists_returns baseFee hpool hgate hl
    obtain ⟨coinbase, included, left, hsplit, hperm, hbest, -⟩ := h.best call block hreturns
    obtain ⟨-, rfl⟩ := List.cons.inj (htxs.symm.trans hsplit)
    have hleft : left.Perm ((l.drop p.maxTransactions).map (·.transaction)) := by
      have hall : (((l.take p.maxTransactions).map (·.transaction)) ++
          (l.drop p.maxTransactions).map (·.transaction)).Perm
            (mempool.readyTransactions.map (·.transaction)) := by
        rw [← List.map_append, List.take_append_drop]
        exact hl.map _
      have hcut : (CutSort.cutSort (feeKey baseFee) p.maxTransactions l).Perm
          (l.take p.maxTransactions) := CutSort.perm_cutSort l
      have hsame := hperm.trans (hall.symm.trans ((hcut.map _).symm.append_right _))
      exact (List.perm_append_left_iff _).mp hsame
    rw [feeKey_le_iff]
    exact hbest _ (hleft.mem_iff.mpr (List.mem_map_of_mem hx)) _ (List.mem_map_of_mem hy)
  · intro h
    refine ⟨?_, ?_⟩
    · intro call block hreturns
      obtain ⟨hgate, l, reward, hl, htxs⟩ := transactions_of_returns hreturns
      have hleast : ∀ x ∈ l.drop p.maxTransactions, ∀ y ∈ CutSort.cutSort (feeKey baseFee)
          p.maxTransactions l, feeKey baseFee y ≤ feeKey baseFee x :=
        CutSort.takesLeast_iff.mpr (h.resolve_left hgate) l hl
      refine ⟨_, _, (l.drop p.maxTransactions).map (·.transaction), htxs, ?_, ?_, ?_⟩
      · rw [← List.map_append]
        refine List.Perm.map _ ((List.Perm.append_right _ (CutSort.perm_cutSort l)).trans ?_)
        rw [List.take_append_drop]
        exact hl
      · intro x hx y hy
        obtain ⟨a, ha, rfl⟩ := List.mem_map.mp hx
        obtain ⟨b, hb, rfl⟩ := List.mem_map.mp hy
        exact (feeKey_le_iff b a).mp (hleast a ha b hb)
      · rw [List.pairwise_map]
        refine (CutSort.sorted_cutSort l).imp ?_
        intro a b hab
        exact (feeKey_le_iff a b).mp hab
    · intro call call' block block' hreturns hreturns'
      obtain ⟨hgate, l, reward, hl, htxs⟩ := transactions_of_returns hreturns
      obtain ⟨-, l', reward', hl', htxs'⟩ := transactions_of_returns hreturns'
      have hkeys := CutSort.map_key_cutSort_eq (h.resolve_left hgate) hl hl'
      have hfee : ∀ mt : MempoolTransaction, priorityFee baseFee mt.transaction =
          UInt64.ofNat u64Max - feeKey baseFee mt := by
        intro mt
        rw [feeKey, priorityFee]
        grind
      rw [htxs, htxs', List.tail_cons, List.tail_cons, List.map_map, List.map_map]
      have hmap := congrArg (List.map fun k : UInt64 => UInt64.ofNat u64Max - k) hkeys
      rw [List.map_map, List.map_map] at hmap
      simpa only [Function.comp_def, hfee] using hmap

section Sample
open ParallelExecutor TxDagMempool

def sampleOffer (nonce gasPrice : UInt64) : Transaction :=
  { Transaction.newTransfer sampleSenders.1 (Bytes.fill 20 11) 100 nonce 21000 gasPrice with
    signature := ⟨.secp256k1, [1]⟩ }

def sampleCall (nonce gasPrice : UInt64) : PoolCall :=
  .addTransaction ⟨sampleLedger.state, .sorted, 0, 0⟩ (sampleOffer nonce gasPrice) [] none

/-- A pool of two transfers, at nonce zero and one, with these gas prices. -/
def sampleOffers (first second : UInt64) : TxDagMempool :=
  [sampleCall 0 first, sampleCall 1 second].foldl (exec .hashOnly) (new 10 1)

def sampleChooser (maxTransactions : ℕ) : BlockProducer := ⟨Bytes.fill 20 1, 0, 0, maxTransactions⟩

def sampleCreate : CreateCall :=
  ⟨fun _ _ _ => 1, ⟨.sorted, .sorted, 0, 0⟩, .empty, ⟨⟨none, ∅⟩, Bytes.zero 32⟩, 0⟩

def sampleCoinbase : Transaction :=
  coinbaseTx (Bytes.fill 20 1) (Mining.calculateExpectedBlockReward 0 0)

set_option maxRecDepth 20000 in
theorem sampleOffers_evaluated :
    ((sampleOffers 1 5).readyTransactions.map (·.transaction) =
        [sampleOffer 0 1, sampleOffer 1 5] ∧
      (sampleOffers 3 2).readyTransactions.map (·.transaction) =
        [sampleOffer 1 2, sampleOffer 0 3]) ∧
      (∀ offer ∈ [sampleOffer 0 1, sampleOffer 1 5, sampleOffer 0 3, sampleOffer 1 2],
        offer.hash .hashOnly ≠ sampleCoinbase.hash .hashOnly) ∧
      ((sampleChooser 1).createBlock .hashOnly sampleCreate.scale sampleCreate.env
        (sampleOffers 1 5) sampleCreate.dag sampleCreate.state 0 0).1.toOption.map
          (·.transactions) =
          some [sampleCoinbase, sampleOffer 0 1] ∧
      ((sampleChooser 10).createBlock .hashOnly sampleCreate.scale sampleCreate.env
        (sampleOffers 2 2) sampleCreate.dag sampleCreate.state 0 0).1.toOption.map
          (·.transactions) =
          some [sampleCoinbase, sampleOffer 1 2, sampleOffer 0 2] := by
  unfold sampleOffers
  rw [Crypto.hashOnly_eq_strict]
  decide +kernel

theorem returns_of_toOption {txs : List Transaction}
    (h : (p.createBlock c call.scale call.env mempool call.dag call.state call.difficulty
      baseFee).1.toOption.map (·.transactions) = some txs) :
    ∃ block, p.Returns c mempool baseFee call block ∧ block.transactions = txs := by
  obtain ⟨block, hblock, rfl⟩ := Option.map_eq_some_iff.mp h
  refine ⟨block, ?_, rfl⟩
  unfold Returns
  cases hres : (p.createBlock c call.scale call.env mempool call.dag call.state call.difficulty
    baseFee).1 with
  | error e =>
    rw [hres] at hblock
    cases hblock
  | ok b =>
    rw [hres] at hblock
    rw [Option.some.inj hblock]

theorem pooled_sampleOffers {first second : UInt64}
    (hfirst : (sampleOffer 0 first).hash .hashOnly ≠ sampleCoinbase.hash .hashOnly)
    (hsecond : (sampleOffer 1 second).hash .hashOnly ≠ sampleCoinbase.hash .hashOnly) :
    (sampleOffers first second).Pooled .hashOnly (Bytes.fill 20 1) := by
  refine pooled_run .hashOnly (Bytes.fill 20 1) 10 (by decide) _ ?_
  rintro env tx parents source hmem coinbase rfl hhash
  rcases List.mem_cons.mp hmem with h | h
  · cases h
    exact absurd hhash hfirst
  · cases List.mem_singleton.mp h
    exact absurd hhash hsecond

theorem takesBest_sampleOffers :
    TakesBest .hashOnly (sampleChooser 10) (sampleOffers 1 5) 0 := by
  obtain ⟨⟨hready, -⟩, hapart, -, -⟩ := sampleOffers_evaluated
  refine (takesBest_iff .hashOnly (sampleChooser 10) (sampleOffers 1 5) 0
    (pooled_sampleOffers (hapart _ (by simp)) (hapart _ (by simp)))).mpr
      (Or.inr (Or.inr (Or.inl ?_)))
  have hlen := congrArg List.length hready
  rw [List.length_map] at hlen
  rw [hlen]
  decide

/-- The only transaction of the block pays one, and one that pays five is left out. -/
theorem sampleOffers_misses_best :
    (∃ block, (sampleChooser 1).Returns .hashOnly (sampleOffers 1 5) 0 sampleCreate block ∧
        block.transactions = [sampleCoinbase, sampleOffer 0 1]) ∧
      ¬ TakesBest .hashOnly (sampleChooser 1) (sampleOffers 1 5) 0 := by
  obtain ⟨⟨hready, -⟩, -, hcreate, -⟩ := sampleOffers_evaluated
  obtain ⟨block, hreturns, htxs⟩ := returns_of_toOption hcreate
  refine ⟨⟨block, hreturns, htxs⟩, ?_⟩
  intro h
  obtain ⟨coinbase, included, left, hsplit, hperm, hbest, -⟩ := h.best sampleCreate block hreturns
  obtain ⟨-, rfl⟩ := List.cons.inj (htxs.symm.trans hsplit)
  rw [hready] at hperm
  have hmem : sampleOffer 1 5 ∈ left := by
    have hall := hperm.mem_iff.mpr (List.mem_cons_of_mem (sampleOffer 0 1)
      (List.mem_singleton_self (sampleOffer 1 5)))
    refine (List.mem_append.mp hall).resolve_left ?_
    intro heq
    exact absurd (List.mem_singleton.mp heq) (by decide)
  exact absurd (hbest _ hmem _ (List.mem_singleton_self _)) (by decide)

end Sample

end BlockProducer

end CytahSpeed
