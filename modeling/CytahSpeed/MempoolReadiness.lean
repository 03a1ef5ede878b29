import CytahSpeed.Mempool
import CytahSpeed.StepRun

/-!
# Readiness

A pooled transaction is meant to be ready when none of its parents is pooled. The flag is set once,
when the transaction enters the pool, and no later call changes it: it stays right as long as every
call leaves the waiting transactions waiting and the idle ones idle.
-/

namespace CytahSpeed
open ByteString FiniteMap

namespace TxDagMempool

def Waits (txs : Map TxId MempoolTransaction) (parents : List TxId) : Prop :=
  ∃ p ∈ parents, p ∈ txs

structure Readiness (m : TxDagMempool) : Prop where
  flags : ∀ h t, m.transactions.lookup h = some t →
    (t.isReady = true ↔ ∀ p ∈ t.parentTxHashes, p ∉ m.transactions)
  ready : ∀ order t, t ∈ m.getReadyTransactions order ↔
    ∃ h, m.transactions.lookup h = some t ∧ ∀ p ∈ t.parentTxHashes, p ∉ m.transactions

/-- A transaction that goes and one that comes change no other's waiting: a child of the one that
goes has another parent in the pool or waits for the one that comes, and a child of the one that
comes has a parent in the pool already. -/
structure Undisturbed (txs : Map TxId MempoolTransaction) (gone came : Option TxId) : Prop where
  waiting : ∀ h t, txs.lookup h = some t → some h ≠ gone → ∀ p ∈ t.parentTxHashes, some p = gone →
    ∃ q ∈ t.parentTxHashes, (q ≠ p ∧ q ∈ txs) ∨ some q = came
  idle : ∀ h t, txs.lookup h = some t → some h ≠ gone → ∀ p ∈ t.parentTxHashes, some p = came →
    Waits txs t.parentTxHashes

/-- What a call must meet to keep the flags right. An admitted transaction that names itself as a
parent has another one in the pool. -/
def KeepsReadiness (c : Crypto) (m : TxDagMempool) : PoolCall → Prop
  | .addTransaction env tx parents source =>
    (¬ m.Accepts c env tx source →
      Undisturbed m.transactions (m.evicted env tx source) none) ∧
    (m.Accepts c env tx source →
      Undisturbed m.transactions (m.evicted env tx source) (some (tx.hash c)) ∧
        (tx.hash c ∈ parents →
          Waits (m.withoutEntry (m.evicted env tx source)).transactions parents))
  | .removeTransaction h => h ∈ m.transactions → Undisturbed m.transactions (some h) none
  | .setBaseFee _ => True
  | .clear => True

section Flags
variable {c : Crypto} {m : TxDagMempool} {txs : Map TxId MempoolTransaction}

theorem not_waits (txs : Map TxId MempoolTransaction) (parents : List TxId) :
    ¬ Waits txs parents ↔ ∀ p ∈ parents, p ∉ txs := by
  simp [Waits]

theorem readiness_iff (m : TxDagMempool) : m.Readiness ↔
    ∀ h t, m.transactions.lookup h = some t →
      (t.isReady = true ↔ ¬ Waits m.transactions t.parentTxHashes) := by
  simp only [not_waits]
  constructor
  · exact fun h => h.flags
  · intro h
    refine ⟨h, ?_⟩
    intro order t
    have hiter := (order.enumerates m.transactions).2
    simp only [getReadyTransactions, List.mem_filter, List.mem_map]
    constructor
    · rintro ⟨⟨e, he, rfl⟩, hready⟩
      have hlookup := (hiter e).mp he
      exact ⟨e.1, hlookup, (h e.1 e.2 hlookup).mp hready⟩
    · rintro ⟨k, hlookup, hparents⟩
      exact ⟨⟨(k, t), (hiter (k, t)).mpr hlookup, rfl⟩, (h k t hlookup).mpr hparents⟩

theorem undisturbed_iff {gone came : Option TxId} (hgone : ∀ g, gone = some g → g ∈ txs) :
    Undisturbed txs gone came ↔ ∀ h t, txs.lookup h = some t → some h ≠ gone →
      (Waits txs t.parentTxHashes ↔
        ∃ q ∈ t.parentTxHashes, (some q ≠ gone ∧ q ∈ txs) ∨ some q = came) := by
  constructor
  · intro h k t ht hk
    constructor
    · rintro ⟨p, hp, hpool⟩
      by_cases hpg : some p = gone
      · obtain ⟨q, hq, hqp | hqc⟩ := h.waiting k t ht hk p hp hpg
        · refine ⟨q, hq, Or.inl ⟨?_, hqp.2⟩⟩
          rw [← hpg]
          exact fun he => hqp.1 (Option.some.inj he)
        · exact ⟨q, hq, Or.inr hqc⟩
      · exact ⟨p, hp, Or.inl ⟨hpg, hpool⟩⟩
    · rintro ⟨q, hq, ⟨-, hpool⟩ | hqc⟩
      · exact ⟨q, hq, hpool⟩
      · exact h.idle k t ht hk q hq hqc
  · intro h
    constructor
    · intro k t ht hk p hp hpg
      obtain ⟨q, hq, ⟨hqg, hpool⟩ | hqc⟩ := (h k t ht hk).mp ⟨p, hp, hgone p hpg.symm⟩
      · refine ⟨q, hq, Or.inl ⟨?_, hpool⟩⟩
        rintro rfl
        exact hqg hpg
      · exact ⟨q, hq, Or.inr hqc⟩
    · intro k t ht hk p hp hpc
      exact (h k t ht hk).mpr ⟨p, hp, Or.inr hpc⟩

theorem waits_withoutEntry (m : TxDagMempool) (gone : Option TxId) (parents : List TxId) :
    Waits (m.withoutEntry gone).transactions parents ↔
      ∃ q ∈ parents, some q ≠ gone ∧ q ∈ m.transactions := by
  simp only [Waits, mem_withoutEntry]

theorem readiness_withoutEntry {m' : TxDagMempool} (hm : m.Readiness) {gone : Option TxId}
    (hgone : ∀ g, gone = some g → g ∈ m.transactions)
    (hm' : m'.transactions = (m.withoutEntry gone).transactions) :
    m'.Readiness ↔ Undisturbed m.transactions gone none := by
  rw [readiness_iff] at hm ⊢
  rw [undisturbed_iff hgone, hm']
  simp only [waits_withoutEntry, lookup_withoutEntry, reduceCtorEq, or_false]
  constructor
  · intro h k t ht hk
    have hflag := h k t (by rw [if_neg hk, ht])
    exact not_iff_not.mp ((hm k t ht).symm.trans hflag)
  · intro h k t ht
    by_cases hk : some k = gone
    · rw [if_pos hk] at ht
      cases ht
    · rw [if_neg hk] at ht
      exact (hm k t ht).trans (not_congr (h k t ht hk))

theorem waits_addToPool (c : Crypto) (m : TxDagMempool) (tx : Transaction)
    (parents : List TxId) (now : UInt64) (ps : List TxId) :
    Waits (m.addToPool c tx parents now).transactions ps ↔
      ∃ q ∈ ps, q ∈ m.transactions ∨ q = tx.hash c := by
  unfold Waits addToPool
  simp only [Finmap.mem_insert, or_comm]

theorem readiness_addToPool {m' : TxDagMempool} (hm : m.Readiness) {gone : Option TxId}
    {tx : Transaction} {parents : List TxId} (now : UInt64)
    (hgone : ∀ g, gone = some g → g ∈ m.transactions)
    (hfresh : tx.hash c ∉ (m.withoutEntry gone).transactions)
    (hm' : m'.transactions = ((m.withoutEntry gone).addToPool c tx parents now).transactions) :
    m'.Readiness ↔ Undisturbed m.transactions gone (some (tx.hash c)) ∧
      (tx.hash c ∈ parents → Waits (m.withoutEntry gone).transactions parents) := by
  obtain ⟨new, -, hparents, hready, hlookup⟩ :=
    lookup_addToPool c (m.withoutEntry gone) tx parents now
  rw [← not_waits] at hready
  -- the transactions that stay are found under other hashes than the new one
  have hstays : ∀ h t, m.transactions.lookup h = some t → some h ≠ gone → h ≠ tx.hash c := by
    rintro h t ht hg rfl
    exact hfresh ((mem_withoutEntry m gone _).mpr ⟨hg, Finmap.mem_iff.mpr ⟨t, ht⟩⟩)
  rw [readiness_iff] at hm ⊢
  rw [undisturbed_iff hgone, hm']
  simp only [hlookup, waits_addToPool, lookup_withoutEntry, mem_withoutEntry, Option.some.injEq]
  constructor
  · intro h
    constructor
    · intro k t ht hk
      have hflag := h k t (by rw [if_neg (hstays k t ht hk), if_neg hk, ht])
      exact not_iff_not.mp ((hm k t ht).symm.trans hflag)
    · intro hself
      have hflag := h (tx.hash c) new (if_pos rfl)
      rw [hready, hparents, not_iff_not] at hflag
      exact hflag.mpr ⟨_, hself, Or.inr rfl⟩
  · rintro ⟨h, hself⟩ k t ht
    by_cases hk : k = tx.hash c
    · rw [if_pos hk] at ht
      cases ht
      rw [hready, hparents, not_iff_not]
      constructor
      · rintro ⟨q, hq, hpool⟩
        exact ⟨q, hq, Or.inl ((mem_withoutEntry m gone q).mp hpool)⟩
      · rintro ⟨q, hq, hpool | rfl⟩
        · exact ⟨q, hq, (mem_withoutEntry m gone q).mpr hpool⟩
        · exact hself hq
    · rw [if_neg hk] at ht
      by_cases hg : some k = gone
      · rw [if_pos hg] at ht
        cases ht
      · rw [if_neg hg] at ht
        exact (hm k t ht).trans (not_congr (h k t ht hg))

theorem readiness_new (maxSize : ℕ) (minGasPrice : UInt64) :
    (new maxSize minGasPrice).Readiness := by
  rw [readiness_iff]
  intro h t ht
  cases ht

theorem readiness_congr {m' : TxDagMempool} (h : m'.transactions = m.transactions) :
    m'.Readiness ↔ m.Readiness := by
  rw [readiness_iff, readiness_iff, h]

theorem readiness_exec (c : Crypto) (hm : m.Readiness) (call : PoolCall) :
    (m.exec c call).Readiness ↔ m.KeepsReadiness c call := by
  cases call with
  | addTransaction env tx parents source =>
    have hgone : ∀ g, m.evicted env tx source = some g → g ∈ m.transactions :=
      fun g hg => mem_of_evicted hg
    unfold exec KeepsReadiness
    rcases addTransaction_cases c m env tx parents source with
      ⟨haccepts, rates, hadd⟩ | ⟨hnot, e, rates, hadd⟩
    · simp only [hadd, haccepts, not_true_eq_false, false_implies, true_and, forall_const]
      exact readiness_addToPool hm env.now hgone haccepts.fresh rfl
    · simp only [hadd, hnot, not_false_eq_true, false_implies, and_true, forall_const]
      exact readiness_withoutEntry hm hgone rfl
  | removeTransaction h =>
    change (m.removeTransaction h).2.Readiness ↔
      (h ∈ m.transactions → Undisturbed m.transactions (some h) none)
    cases ht : m.transactions.lookup h with
    | none =>
      rw [removeTransaction_of_none ht]
      exact iff_of_true hm (fun hmem => absurd hmem (Finmap.lookup_eq_none.mp ht))
    | some t =>
      have hmem : h ∈ m.transactions := Finmap.mem_iff.mpr ⟨t, ht⟩
      rw [removeTransaction_of_some ht]
      simp only [hmem, forall_const]
      refine readiness_withoutEntry hm ?_ rfl
      rintro g hg
      cases hg
      exact hmem
  | setBaseFee fee =>
    have hpool : (m.exec c (.setBaseFee fee)).transactions = m.transactions := rfl
    exact iff_of_true ((readiness_congr hpool).mpr hm) trivial
  | clear =>
    have hpool : (m.exec c .clear).transactions = (new 0 0).transactions := rfl
    exact iff_of_true ((readiness_congr hpool).mpr (readiness_new 0 0)) trivial

/-- In every run from an empty pool, the flags are right after every call exactly if every call
disturbs no transaction that stays in the pool at its turn. -/
theorem readiness_iff_undisturbed (c : Crypto) (maxSize : ℕ) (minGasPrice : UInt64)
    (calls : List PoolCall) :
    StepRun.Along (exec c) (fun m call => (m.exec c call).Readiness)
        (new maxSize minGasPrice) calls ↔
      StepRun.Along (exec c) (KeepsReadiness c) (new maxSize minGasPrice) calls := by
  exact StepRun.along_iff_of_invariant (I := Readiness) (readiness_new maxSize minGasPrice)
    (fun _ _ _ he => he) (fun _ call hm => readiness_exec c hm call) calls

end Flags

section Sample
open ParallelExecutor

/-- A transfer, the next one of the same sender that names it as its parent, and the removal of the
first. -/
def sampleOrphan : List PoolCall :=
  [.addTransaction sampleEnv sampleFirst [] none,
    .addTransaction sampleEnv sampleSecond [sampleFirst.hash .hashOnly] none,
    .removeTransaction (sampleFirst.hash .hashOnly)]

set_option maxRecDepth 20000 in
/-- The second transfer is alone in the pool and stays unready. -/
theorem sampleOrphan_stays_unready :
    ((sampleOrphan.foldl (exec .hashOnly) (new 10 1)).transactions.lookup
        (sampleSecond.hash .hashOnly) = some
          ⟨sampleSecond, [sampleFirst.hash .hashOnly], 0, false⟩ ∧
      (sampleOrphan.foldl (exec .hashOnly) (new 10 1)).size = 1 ∧
      (sampleOrphan.foldl (exec .hashOnly) (new 10 1)).getReadyTransactions .sorted = []) ∧
      ¬ StepRun.Along (exec .hashOnly) (fun m call => (m.exec .hashOnly call).Readiness) (new 10 1)
        sampleOrphan := by
  have hchild : (sampleOrphan.foldl (exec .hashOnly) (new 10 1)).transactions.lookup
      (sampleSecond.hash .hashOnly) = some
        ⟨sampleSecond, [sampleFirst.hash .hashOnly], 0, false⟩ := by decide +kernel
  have hparent : sampleFirst.hash .hashOnly ∉
      (sampleOrphan.foldl (exec .hashOnly) (new 10 1)).transactions := by decide +kernel
  refine ⟨⟨hchild, by decide +kernel, by decide +kernel⟩, ?_⟩
  intro h
  have hlast : (sampleOrphan.foldl (exec .hashOnly) (new 10 1)).Readiness := h.2.2.1
  have hflag := (hlast.flags _ _ hchild).mpr
  simp only [List.mem_singleton, forall_eq] at hflag
  exact absurd (hflag hparent) (by decide)

end Sample

end TxDagMempool

end CytahSpeed
