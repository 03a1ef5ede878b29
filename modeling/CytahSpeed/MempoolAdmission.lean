import CytahSpeed.Mempool

/-!
# The admission law of the mempool

A pool below its capacity takes a transaction and keeps the others. A pool at its capacity gives
up one of its cheapest transactions, which pays less than the newcomer. Refusals never add an
entry, so no run of calls goes beyond the capacity.
-/

namespace CytahSpeed
open FiniteMap

namespace TxDagMempool

structure Admitted (c : Crypto) (m m' : TxDagMempool) (tx : Transaction) (parents : List TxId)
    (entry : MempoolTransaction) (gone : Option TxId) : Prop where
  transaction : entry.transaction = tx
  parentTxHashes : entry.parentTxHashes = parents
  fresh : tx.hash c ∈ m.transactions → gone = some (tx.hash c)
  lookup : ∀ h, m'.transactions.lookup h =
    if h = tx.hash c then some entry else if some h = gone then none else m.transactions.lookup h
  evicts_iff : gone.isSome ↔ m.size = m.maxSize
  evicted : ∀ h, gone = some h → ∃ low, m.IsCheapest h low ∧
    low.transaction.gasPrice < tx.gasPrice

section Law
variable {c : Crypto} {m : TxDagMempool} {env : PoolEnv} {tx : Transaction}
  {source : Option String} {h : TxId}

theorem admitted_of_accepts (hsize : m.size ≤ m.maxSize) (ha : m.Accepts c env tx source)
    (parents : List TxId) (rates : Map String (ℕ × UInt64)) :
    ∃ entry, Admitted c m
      { (m.withoutEntry (m.evicted env tx source)).addToPool c tx parents env.now with
        rateLimits := rates } tx parents entry (m.evicted env tx source) := by
  obtain ⟨entry, htx, hparents, -, hlookup⟩ :=
    lookup_addToPool c (m.withoutEntry (m.evicted env tx source)) tx parents env.now
  refine ⟨entry, htx, hparents, ?_, ?_, ?_, fun h he => (evicted_spec he).2⟩
  · intro hmem
    by_contra hne
    exact ha.fresh ((mem_withoutEntry _ _ _).mpr ⟨Ne.symm hne, hmem⟩)
  · intro h
    rw [hlookup, lookup_withoutEntry]
  · constructor
    · intro hsome
      obtain ⟨h, he⟩ := Option.isSome_iff_exists.mp hsome
      exact Nat.le_antisymm hsize (evicted_spec he).1
    · intro hfull
      rcases ha.room with hroom | ⟨h, he⟩
      · exact absurd hfull (Nat.ne_of_lt hroom)
      · rw [he]
        rfl

theorem size_withoutEntry_le (m : TxDagMempool) (gone : Option TxId) :
    (m.withoutEntry gone).size ≤ m.size := by
  apply Finset.card_le_card
  intro h hmem
  exact Finmap.mem_keys.mpr ((mem_withoutEntry m gone h).mp (Finmap.mem_keys.mp hmem)).2

theorem size_of_accepts (hsize : m.size ≤ m.maxSize) (ha : m.Accepts c env tx source)
    (parents : List TxId) : ((m.withoutEntry (m.evicted env tx source)).addToPool c tx parents
      env.now).size ≤ m.maxSize := by
  have hadd : ((m.withoutEntry (m.evicted env tx source)).addToPool c tx parents env.now).size ≤
      (m.withoutEntry (m.evicted env tx source)).size + 1 := by
    unfold size addToPool
    rw [keys_insert]
    exact Finset.card_insert_le _ _
  rcases ha.room with hroom | ⟨h, he⟩
  · have hle := size_withoutEntry_le m (m.evicted env tx source)
    omega
  · have hmem := mem_of_evicted he
    have hpos : 0 < m.size := Finset.card_pos.mpr ⟨h, Finmap.mem_keys.mpr hmem⟩
    have hless : (m.withoutEntry (m.evicted env tx source)).size = m.size - 1 := by
      rw [he]
      exact card_keys_erase hmem
    omega

theorem maxSize_withoutEntry (m : TxDagMempool) (gone : Option TxId) :
    (m.withoutEntry gone).maxSize = m.maxSize := by
  cases gone <;> rfl

theorem maxSize_removeTransaction (m : TxDagMempool) (h : TxId) :
    (m.removeTransaction h).2.maxSize = m.maxSize := by
  cases ht : m.transactions.lookup h with
  | none => rw [removeTransaction_of_none ht]
  | some t => rw [removeTransaction_of_some ht]

theorem size_exec_le (c : Crypto) (call : PoolCall) (hsize : m.size ≤ m.maxSize) :
    (m.exec c call).maxSize = m.maxSize ∧ (m.exec c call).size ≤ m.maxSize := by
  cases call with
  | addTransaction env tx parents source =>
    change (m.addTransaction c env tx parents source).2.maxSize = _ ∧
      (m.addTransaction c env tx parents source).2.size ≤ _
    rcases addTransaction_cases c m env tx parents source with
      ⟨ha, rates, hadd⟩ | ⟨-, e, rates, hadd⟩
    · rw [hadd]
      exact ⟨maxSize_withoutEntry m _, size_of_accepts hsize ha parents⟩
    · rw [hadd]
      exact ⟨maxSize_withoutEntry m _, (size_withoutEntry_le m _).trans hsize⟩
  | removeTransaction h =>
    refine ⟨maxSize_removeTransaction m h, le_trans (Finset.card_le_card ?_) hsize⟩
    intro h' hmem
    exact Finmap.mem_keys.mpr ((mem_removeTransaction m h h').mp (Finmap.mem_keys.mp hmem)).2
  | setBaseFee fee => exact ⟨rfl, hsize⟩
  | clear => exact ⟨rfl, Nat.zero_le _⟩

theorem size_run_le (c : Crypto) (calls : List PoolCall) (hsize : m.size ≤ m.maxSize) :
    (calls.foldl (exec c) m).size ≤ m.maxSize := by
  induction calls generalizing m with
  | nil => exact hsize
  | cons call calls ih =>
    obtain ⟨hmax, hle⟩ := size_exec_le c call hsize
    rw [List.foldl_cons, ← hmax]
    exact ih (hle.trans_eq hmax.symm)

end Law

/-- The admission law, for every pool within its capacity, and the bound on every run. -/
theorem addTransaction_admits (c : Crypto) :
    (∀ (m : TxDagMempool) (env : PoolEnv) (tx : Transaction) (parents : List TxId)
      (source : Option String), m.size ≤ m.maxSize →
        (m.addTransaction c env tx parents source).1 = .ok () →
          ∃ entry gone, Admitted c m (m.addTransaction c env tx parents source).2 tx parents
            entry gone) ∧
    ∀ (maxSize : ℕ) (minGasPrice : UInt64) (calls : List PoolCall),
      (calls.foldl (exec c) (new maxSize minGasPrice)).size ≤ maxSize := by
  constructor
  · intro m env tx parents source hsize hok
    rcases addTransaction_cases c m env tx parents source with
      ⟨ha, rates, hadd⟩ | ⟨-, e, rates, hadd⟩
    · rw [hadd]
      obtain ⟨entry, hadmitted⟩ := admitted_of_accepts hsize ha parents rates
      exact ⟨entry, _, hadmitted⟩
    · rw [hadd] at hok
      cases hok
  · intro maxSize minGasPrice calls
    exact size_run_le (m := new maxSize minGasPrice) c calls (Nat.zero_le _)

section Sample
open ParallelExecutor

def sampleOutbid : Transaction := signedWith sampleBid [1]

set_option maxRecDepth 20000 in
theorem addTransaction_admits_sample : ∃ entry gone, Admitted .hashOnly sampleFull
    (sampleFull.addTransaction .hashOnly sampleEnv sampleOutbid [] none).2 sampleOutbid [] entry
      gone :=
  (addTransaction_admits .hashOnly).1 sampleFull sampleEnv sampleOutbid [] none
    (by decide +kernel) (by decide +kernel)

end Sample

end TxDagMempool

end CytahSpeed
