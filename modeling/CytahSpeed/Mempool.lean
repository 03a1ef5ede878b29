import CytahSpeed.Serialisability
import Mathlib.Data.List.MinMax

/-!
# The mempool

Pooled transactions with the hashes of the transactions they depend on. Three maps describe the
pool: the entries themselves, the children that name a hash as a dependency, and the hashes that
each sender has pending. A full pool gives up its cheapest entry before the newcomer is checked.
-/

namespace CytahSpeed
open ByteString FiniteMap

def StateManager.getBalance (s : StateManager) (address : Address) : UInt64 :=
  ((s.stateTree.getAccount address).map Account.balance).getD 0

structure MempoolTransaction where
  transaction : Transaction
  parentTxHashes : List TxId
  timestamp : UInt64
  isReady : Bool
  deriving DecidableEq

def MempoolTransaction.new (transaction : Transaction) (parentTxHashes : List TxId)
    (timestamp : UInt64) : MempoolTransaction :=
  ⟨transaction, parentTxHashes, timestamp, parentTxHashes.isEmpty⟩

structure TxDagMempool where
  transactions : Map TxId MempoolTransaction
  parentChildMap : Map TxId (Finset TxId)
  pendingBySender : Map Address (List TxId)
  maxSize : ℕ
  currentBaseFee : UInt64
  rateLimits : Map String (ℕ × UInt64)
  minGasPrice : UInt64

/-- What a call that adds a transaction meets: the shared state, the order in which the pool is
iterated, and the clock at the rate limit and at the admission. -/
structure PoolEnv where
  state : StateManager
  order : IterOrder TxId MempoolTransaction
  window : UInt64
  now : UInt64

namespace TxDagMempool

def rateLimitWindowSecs : UInt64 := 60

def maxTxPerSource : ℕ := 100

def defaultMinGasPrice : UInt64 := 1

def new (maxSize : ℕ) (minGasPrice : UInt64) : TxDagMempool :=
  ⟨∅, ∅, ∅, maxSize, minGasPrice, ∅, minGasPrice⟩

variable (c : Crypto) (m : TxDagMempool)

def size : ℕ := m.transactions.keys.card

/-- The count of a source and the start of its window; a window that is over starts again. -/
def rateEntry (source : String) (now : UInt64) : ℕ × UInt64 :=
  let entry := (m.rateLimits.lookup source).getD (0, now)
  if entry.2 + rateLimitWindowSecs ≤ now then (0, now) else entry

def limitRate (source : Option String) (now : UInt64) : Except String Unit × TxDagMempool :=
  match source with
  | none => (.ok (), m)
  | some src =>
    let entry := m.rateEntry src now
    if maxTxPerSource ≤ entry.1 then
      (.error "Rate limit exceeded for source",
        { m with rateLimits := m.rateLimits.insert src entry })
    else (.ok (), { m with rateLimits := m.rateLimits.insert src (entry.1 + 1, entry.2) })

/-- `min_by_key` on the gas price: the first of the cheapest entries. -/
def cheapest (order : IterOrder TxId MempoolTransaction) : Option (TxId × MempoolTransaction) :=
  (order.iter m.transactions).argmin (·.2.transaction.gasPrice.toNat)

/-- A full pool drops its cheapest entry for a transaction that pays more. Only the entry goes,
the two other maps keep what they say about it. -/
def makeRoom (order : IterOrder TxId MempoolTransaction) (tx : Transaction) :
    Except String Unit × TxDagMempool :=
  if m.maxSize ≤ m.size then
    match m.cheapest order with
    | some low =>
      if low.2.transaction.gasPrice < tx.gasPrice then
        (.ok (), { m with transactions := m.transactions.erase low.1 })
      else (.error "Mempool is full", m)
    | none => (.error "Mempool is full", m)
  else (.ok (), m)

/-- The checks that follow the eviction. -/
def checkAdmission (state : StateManager) (tx : Transaction) : Except String Unit :=
  let threshold := max m.currentBaseFee m.minGasPrice
  if tx.signature.data = [] then
    .error "Transaction must be signed before adding to mempool"
  else if tx.gasPrice < threshold then
    .error ("Gas price " ++ toString tx.gasPrice ++ " below minimum " ++ toString threshold)
  else if state.getBalance tx.fromAddr = 0 then .error "Sender account has zero balance"
  else if tx.hash c ∈ m.transactions then .error "Transaction already in mempool"
  else .ok ()

def addToPool (tx : Transaction) (parentTxHashes : List TxId) (now : UInt64) : TxDagMempool :=
  let txHash := tx.hash c
  let isReady := parentTxHashes.isEmpty || parentTxHashes.all (· ∉ m.transactions)
  let mempoolTx := MempoolTransaction.new tx parentTxHashes now
  { m with
    transactions := m.transactions.insert txHash { mempoolTx with isReady }
    parentChildMap := parentTxHashes.foldl
      (fun children p => children.insert p (insert txHash ((children.lookup p).getD ∅)))
      m.parentChildMap
    pendingBySender := m.pendingBySender.insert tx.fromAddr
      ((m.pendingBySender.lookup tx.fromAddr).getD [] ++ [txHash]) }

def addTransaction (env : PoolEnv) (tx : Transaction) (parentTxHashes : List TxId)
    (source : Option String) : Except String Unit × TxDagMempool :=
  match m.limitRate source env.window with
  | (.error e, m) => (.error e, m)
  | (.ok _, m) =>
    match m.makeRoom env.order tx with
    | (.error e, m) => (.error e, m)
    | (.ok _, m) =>
      match m.checkAdmission c env.state tx with
      | .error e => (.error e, m)
      | .ok _ => (.ok (), m.addToPool c tx parentTxHashes env.now)

def getReadyTransactions (order : IterOrder TxId MempoolTransaction) : List MempoolTransaction :=
  ((order.iter m.transactions).map Prod.snd).filter (·.isReady)

/-- A child's flag, computed anew from the pool. -/
def refreshChild (txs : Map TxId MempoolTransaction) (childHash : TxId) :
    Map TxId MempoolTransaction :=
  match txs.lookup childHash with
  | none => txs
  | some child =>
    txs.insert childHash { child with isReady := child.parentTxHashes.all (· ∉ txs) }

/-- The children are looked up after their entry was removed. They would be visited in the order
of the set; a refresh keeps the keys of the pool, so that the order does not matter. -/
def removeTransaction (txHash : TxId) : Option MempoolTransaction × TxDagMempool :=
  match m.transactions.lookup txHash with
  | none => (none, m)
  | some removed =>
    let txs := m.transactions.erase txHash
    let parentChild := m.parentChildMap.erase txHash
    let txs := match parentChild.lookup txHash with
      | none => txs
      | some children => (children.sort (· ≤ ·)).foldl refreshChild txs
    let pending := match m.pendingBySender.lookup removed.transaction.fromAddr with
      | none => m.pendingBySender
      | some pendingList =>
        m.pendingBySender.insert removed.transaction.fromAddr (pendingList.filter (· ≠ txHash))
    (some removed,
      { m with transactions := txs, parentChildMap := parentChild, pendingBySender := pending })

def setBaseFee (fee : UInt64) : TxDagMempool := { m with currentBaseFee := fee }

def clear : TxDagMempool :=
  { m with transactions := ∅, parentChildMap := ∅, pendingBySender := ∅ }

def getSenderPending (address : Address) : List TxId :=
  (m.pendingBySender.lookup address).getD []

def getChildren (txHash : TxId) : Finset TxId := (m.parentChildMap.lookup txHash).getD ∅

inductive PoolCall
  | addTransaction (env : PoolEnv) (tx : Transaction) (parentTxHashes : List TxId)
      (source : Option String)
  | removeTransaction (txHash : TxId)
  | setBaseFee (fee : UInt64)
  | clear

def exec (m : TxDagMempool) : PoolCall → TxDagMempool
  | .addTransaction env tx parentTxHashes source =>
    (m.addTransaction c env tx parentTxHashes source).2
  | .removeTransaction txHash => (m.removeTransaction txHash).2
  | .setBaseFee fee => m.setBaseFee fee
  | .clear => m.clear

def outbid (order : IterOrder TxId MempoolTransaction) (tx : Transaction) : Option TxId :=
  if m.maxSize ≤ m.size then
    match m.cheapest order with
    | some low => if low.2.transaction.gasPrice < tx.gasPrice then some low.1 else none
    | none => none
  else none

def IsCheapest (h : TxId) (t : MempoolTransaction) : Prop :=
  m.transactions.lookup h = some t ∧ ∀ h' t', m.transactions.lookup h' = some t' →
    t.transaction.gasPrice ≤ t'.transaction.gasPrice

def evicted (env : PoolEnv) (tx : Transaction) (source : Option String) : Option TxId :=
  match (m.limitRate source env.window).1 with
  | .error _ => none
  | .ok _ => m.outbid env.order tx

def withoutEntry (txHash : Option TxId) : TxDagMempool :=
  match txHash with
  | none => m
  | some h => { m with transactions := m.transactions.erase h }

/-- The checks of `add_transaction`, the pool read as the eviction leaves it. -/
structure Accepts (env : PoolEnv) (tx : Transaction) (source : Option String) : Prop where
  withinLimit : ∀ src, source = some src → (m.rateEntry src env.window).1 < maxTxPerSource
  room : m.size < m.maxSize ∨ ∃ h, m.evicted env tx source = some h
  signed : tx.signature.data ≠ []
  priced : max m.currentBaseFee m.minGasPrice ≤ tx.gasPrice
  funded : env.state.getBalance tx.fromAddr ≠ 0
  fresh : tx.hash c ∉ (m.withoutEntry (m.evicted env tx source)).transactions

section Outcomes
variable {c m} {env : PoolEnv} {tx : Transaction} {source : Option String}

theorem withoutEntry_eq (m : TxDagMempool) (gone : Option TxId) : m.withoutEntry gone =
    { m with transactions := (m.withoutEntry gone).transactions } := by
  cases gone <;> rfl

theorem lookup_withoutEntry (m : TxDagMempool) (gone : Option TxId) (h : TxId) :
    (m.withoutEntry gone).transactions.lookup h =
      if some h = gone then none else m.transactions.lookup h := by
  cases gone with
  | none => rfl
  | some g =>
    change (m.transactions.erase g).lookup h = _
    rw [lookup_erase_eq_ite]
    simp only [Option.some.injEq]

theorem mem_withoutEntry (m : TxDagMempool) (gone : Option TxId) (h : TxId) :
    h ∈ (m.withoutEntry gone).transactions ↔ some h ≠ gone ∧ h ∈ m.transactions := by
  rw [Finmap.mem_iff, Finmap.mem_iff, lookup_withoutEntry]
  by_cases hg : some h = gone <;> simp [hg]

theorem lookup_addToPool (c : Crypto) (m : TxDagMempool) (tx : Transaction)
    (parents : List TxId) (now : UInt64) : ∃ t : MempoolTransaction,
      t.transaction = tx ∧ t.parentTxHashes = parents ∧
        (t.isReady = true ↔ ∀ p ∈ parents, p ∉ m.transactions) ∧
          ∀ h, (m.addToPool c tx parents now).transactions.lookup h =
            if h = tx.hash c then some t else m.transactions.lookup h := by
  refine ⟨_, rfl, rfl, ?_, fun h => lookup_insert_eq_ite m.transactions _ h _⟩
  cases parents with
  | nil => simp
  | cons p parents => simp

theorem limitRate_cases (m : TxDagMempool) (source : Option String) (now : UInt64) :
    ((∀ src, source = some src → (m.rateEntry src now).1 < maxTxPerSource) ∧
        ∃ rates, m.limitRate source now = (.ok (), { m with rateLimits := rates })) ∨
      (¬ (∀ src, source = some src → (m.rateEntry src now).1 < maxTxPerSource) ∧
        ∃ e rates, m.limitRate source now = (.error e, { m with rateLimits := rates })) := by
  cases source with
  | none => exact Or.inl ⟨fun src h => (by cases h), m.rateLimits, rfl⟩
  | some src =>
    by_cases hfull : maxTxPerSource ≤ (m.rateEntry src now).1
    · exact Or.inr ⟨fun h => absurd (h src rfl) (Nat.not_lt.mpr hfull), _, _, if_pos hfull⟩
    · refine Or.inl ⟨?_, _, if_neg hfull⟩
      rintro src' h
      cases h
      exact Nat.lt_of_not_le hfull

theorem outbid_spec {h : TxId} {order : IterOrder TxId MempoolTransaction}
    (he : m.outbid order tx = some h) :
    m.maxSize ≤ m.size ∧ ∃ low, m.IsCheapest h low ∧
      low.transaction.gasPrice < tx.gasPrice := by
  unfold outbid at he
  split_ifs at he with hfull
  refine ⟨hfull, ?_⟩
  cases hlow : m.cheapest order with
  | none =>
    rw [hlow] at he
    cases he
  | some low =>
    simp only [hlow] at he
    split_ifs at he with hprice
    cases he
    have hentries := (order.enumerates m.transactions).2
    refine ⟨low.2, ⟨(hentries low).mp (List.argmin_mem hlow), ?_⟩, hprice⟩
    intro h' t' ht'
    have hle := List.le_of_mem_argmin ((hentries (h', t')).mpr ht') hlow
    exact UInt64.le_iff_toNat_le.mpr hle

theorem evicted_spec {h : TxId} (he : m.evicted env tx source = some h) :
    m.maxSize ≤ m.size ∧ ∃ low, m.IsCheapest h low ∧
      low.transaction.gasPrice < tx.gasPrice := by
  unfold evicted at he
  split at he
  · cases he
  · exact outbid_spec he

theorem mem_of_evicted {h : TxId} (he : m.evicted env tx source = some h) :
    h ∈ m.transactions := by
  obtain ⟨-, low, hlow, -⟩ := evicted_spec he
  exact Finmap.mem_iff.mpr ⟨low, hlow.1⟩

theorem makeRoom_cases (m : TxDagMempool) (rates : Map String (ℕ × UInt64))
    (order : IterOrder TxId MempoolTransaction) (tx : Transaction) :
    ((m.size < m.maxSize ∨ ∃ h, m.outbid order tx = some h) ∧
        makeRoom { m with rateLimits := rates } order tx =
          (.ok (), { m.withoutEntry (m.outbid order tx) with rateLimits := rates })) ∨
      (¬ (m.size < m.maxSize ∨ ∃ h, m.outbid order tx = some h) ∧ m.outbid order tx = none ∧
        ∃ e, makeRoom { m with rateLimits := rates } order tx =
          (.error e, { m with rateLimits := rates })) := by
  simp only [makeRoom, outbid, size, cheapest]
  by_cases hfull : m.maxSize ≤ m.transactions.keys.card
  · simp only [hfull, if_true]
    cases hlow : (order.iter m.transactions).argmin (·.2.transaction.gasPrice.toNat) with
    | none => exact Or.inr (by simp [hfull])
    | some low =>
      by_cases hprice : low.2.transaction.gasPrice < tx.gasPrice
      · exact Or.inl (by simp [hprice, withoutEntry])
      · exact Or.inr (by simp [hprice, hfull])
  · simp only [hfull, if_false]
    exact Or.inl ⟨Or.inl (Nat.lt_of_not_le hfull), rfl⟩

theorem checkAdmission_ok_iff (state : StateManager) (rates : Map String (ℕ × UInt64))
    (gone : Option TxId) :
    checkAdmission c { m.withoutEntry gone with rateLimits := rates } state tx = .ok () ↔
      tx.signature.data ≠ [] ∧ max m.currentBaseFee m.minGasPrice ≤ tx.gasPrice ∧
        state.getBalance tx.fromAddr ≠ 0 ∧ tx.hash c ∉ (m.withoutEntry gone).transactions := by
  rw [withoutEntry_eq m gone]
  simp only [checkAdmission]
  split_ifs with hsigned hprice hbalance hpooled
  · simp [hsigned]
  · simp [UInt64.not_le.mpr hprice]
  · simp [hbalance]
  · simp [hpooled]
  · simp [hsigned, UInt64.not_lt.mp hprice, hbalance, hpooled]

/-- A call is accepted by the pool that the eviction leaves, or refused after the same eviction. -/
theorem addTransaction_cases (c : Crypto) (m : TxDagMempool) (env : PoolEnv) (tx : Transaction)
    (parents : List TxId) (source : Option String) :
    (m.Accepts c env tx source ∧ ∃ rates, m.addTransaction c env tx parents source =
        (.ok (), { (m.withoutEntry (m.evicted env tx source)).addToPool c tx parents env.now with
          rateLimits := rates })) ∨
      (¬ m.Accepts c env tx source ∧ ∃ e rates, m.addTransaction c env tx parents source =
        (.error e, { m.withoutEntry (m.evicted env tx source) with rateLimits := rates })) := by
  rcases limitRate_cases m source env.window with ⟨hlimit, rates, hrate⟩ | ⟨hlimit, e, rates, hrate⟩
  · have hevicted : m.evicted env tx source = m.outbid env.order tx := by
      rw [evicted, hrate]
    rcases makeRoom_cases m rates env.order tx with ⟨hroom, hmake⟩ | ⟨hroom, hnone, e, hmake⟩
    · rw [← hevicted] at hroom hmake
      rw [addTransaction, hrate]
      simp only [hmake]
      cases hcheck : checkAdmission c _ env.state tx with
      | ok u =>
        obtain ⟨hsigned, hpriced, hfunded, hfresh⟩ :=
          (checkAdmission_ok_iff env.state rates _).mp hcheck
        exact Or.inl ⟨⟨hlimit, hroom, hsigned, hpriced, hfunded, hfresh⟩, rates, rfl⟩
      | error e =>
        refine Or.inr ⟨?_, e, rates, rfl⟩
        intro h
        have hok := (checkAdmission_ok_iff env.state rates _).mpr
          ⟨h.signed, h.priced, h.funded, h.fresh⟩
        rw [hcheck] at hok
        cases hok
    · refine Or.inr ⟨fun h => hroom (hevicted ▸ h.room), e, rates, ?_⟩
      rw [addTransaction, hrate, hevicted, hnone]
      simp only [hmake]
      rfl
  · refine Or.inr ⟨fun h => hlimit h.withinLimit, e, rates, ?_⟩
    have hevicted : m.evicted env tx source = none := by
      rw [evicted, hrate]
    rw [addTransaction, hrate, hevicted]
    rfl

/-- The flags are never refreshed: the entry that lists the children is gone by then. -/
theorem removeTransaction_of_some {h : TxId} {t : MempoolTransaction}
    (ht : m.transactions.lookup h = some t) :
    (m.removeTransaction h).2 = { m with
      transactions := m.transactions.erase h
      parentChildMap := m.parentChildMap.erase h
      pendingBySender := match m.pendingBySender.lookup t.transaction.fromAddr with
        | none => m.pendingBySender
        | some pendingList =>
          m.pendingBySender.insert t.transaction.fromAddr (pendingList.filter (· ≠ h)) } := by
  simp only [removeTransaction, ht, Finmap.lookup_erase]

theorem removeTransaction_of_none {h : TxId} (ht : m.transactions.lookup h = none) :
    m.removeTransaction h = (none, m) := by
  simp only [removeTransaction, ht]

theorem mem_removeTransaction (m : TxDagMempool) (h h' : TxId) :
    h' ∈ (m.removeTransaction h).2.transactions ↔ h' ≠ h ∧ h' ∈ m.transactions := by
  cases ht : m.transactions.lookup h with
  | none =>
    rw [removeTransaction_of_none ht]
    refine ⟨fun hmem => ⟨?_, hmem⟩, And.right⟩
    rintro rfl
    exact Finmap.lookup_eq_none.mp ht hmem
  | some t =>
    rw [removeTransaction_of_some ht]
    exact Finmap.mem_erase

/-- The pooled entries are the same after a refusal. -/
def RefusalLeavesPool (c : Crypto) (m : TxDagMempool) (env : PoolEnv) (tx : Transaction)
    (parents : List TxId) (source : Option String) : Prop :=
  ∀ e, (m.addTransaction c env tx parents source).1 = .error e →
    (m.addTransaction c env tx parents source).2.transactions = m.transactions

/-- A refusal leaves the pool alone exactly if no entry was evicted before it. -/
theorem refusalLeavesPool_iff (c : Crypto) (m : TxDagMempool) (env : PoolEnv) (tx : Transaction)
    (parents : List TxId) (source : Option String) :
    m.RefusalLeavesPool c env tx parents source ↔
      m.evicted env tx source = none ∨ m.Accepts c env tx source := by
  unfold RefusalLeavesPool
  rcases addTransaction_cases c m env tx parents source with
    ⟨haccepts, rates, hadd⟩ | ⟨hnot, e, rates, hadd⟩
  · rw [hadd]
    exact iff_of_true (fun e h => by cases h) (Or.inr haccepts)
  · rw [hadd]
    simp only [hnot, or_false, Except.error.injEq, forall_eq']
    cases hevicted : m.evicted env tx source with
    | none => exact iff_of_true rfl rfl
    | some h =>
      simp only [reduceCtorEq, iff_false]
      intro heq
      have hmem : h ∈ m.transactions.erase h := by
        change m.transactions.erase h = m.transactions at heq
        rw [heq]
        exact mem_of_evicted hevicted
      exact Finmap.notMem_erase_self hmem

end Outcomes

section Sample
open ParallelExecutor

def sampleFull : TxDagMempool := (new 1 1).addToPool .hashOnly sampleAside [] 0

def sampleBid : Transaction :=
  .newTransfer sampleSenders.1 (Bytes.fill 20 11) 100 0 21000 2

def sampleEnv : PoolEnv := ⟨sampleLedger.state, .sorted, 0, 0⟩

set_option maxRecDepth 20000 in
/-- The unsigned transfer empties the pool and is refused. -/
theorem sampleBid_empties_pool :
    (sampleFull.size = 1 ∧
      (sampleFull.addTransaction .hashOnly sampleEnv sampleBid [] none).1 =
        .error "Transaction must be signed before adding to mempool" ∧
      (sampleFull.addTransaction .hashOnly sampleEnv sampleBid [] none).2.size = 0) ∧
      ¬ sampleFull.RefusalLeavesPool .hashOnly sampleEnv sampleBid [] none := by
  have hbefore : sampleFull.size = 1 := by decide +kernel
  have herror : (sampleFull.addTransaction .hashOnly sampleEnv sampleBid [] none).1 =
      .error "Transaction must be signed before adding to mempool" := by decide +kernel
  have hafter : (sampleFull.addTransaction .hashOnly sampleEnv sampleBid [] none).2.size = 0 := by
    decide +kernel
  refine ⟨⟨hbefore, herror, hafter⟩, ?_⟩
  intro h
  have hsize := congrArg (fun txs => txs.keys.card) (h _ herror)
  exact absurd (hafter.symm.trans (hsize.trans hbefore)) (by decide)

end Sample

end TxDagMempool

end CytahSpeed
