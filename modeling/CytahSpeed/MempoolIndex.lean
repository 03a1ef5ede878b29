import CytahSpeed.MempoolReadiness

/-!
# The indices of the mempool

The pending list of a sender and the children of a hash repeat what the entries say. An insertion
and a removal write all three maps, an eviction writes the entries alone, and a removal forgets the
children of the hash but leaves it among the children of its own parents.
-/

namespace CytahSpeed
open ByteString FiniteMap

namespace TxDagMempool

/-- The pending lists and the children are those of the pooled transactions. -/
structure Indexed (m : TxDagMempool) : Prop where
  pending : ∀ a h, h ∈ m.getSenderPending a ↔
    ∃ t, m.transactions.lookup h = some t ∧ t.transaction.fromAddr = a
  nodup : ∀ a, (m.getSenderPending a).Nodup
  children : ∀ p h, h ∈ m.getChildren p ↔
    ∃ t, m.transactions.lookup h = some t ∧ p ∈ t.parentTxHashes

/-- What a call must meet to keep the indices: nothing is evicted, and a transaction that is removed
has no parent and no child but itself. -/
def KeepsIndex (m : TxDagMempool) : PoolCall → Prop
  | .addTransaction env tx _ source => m.evicted env tx source = none
  | .removeTransaction h => ∀ t, m.transactions.lookup h = some t →
    (∀ p ∈ t.parentTxHashes, p = h) ∧
      ∀ k t', m.transactions.lookup k = some t' → h ∈ t'.parentTxHashes → k = h
  | .setBaseFee _ => True
  | .clear => True

section Index
variable {c : Crypto} {m : TxDagMempool}

theorem indexed_new (maxSize : ℕ) (minGasPrice : UInt64) : (new maxSize minGasPrice).Indexed := by
  constructor
  · intro a h
    refine iff_of_false (by simp [getSenderPending, new]) ?_
    rintro ⟨t, ht, -⟩
    cases ht
  · intro a
    exact List.nodup_nil
  · intro p h
    refine iff_of_false (by simp [getChildren, new]) ?_
    rintro ⟨t, ht, -⟩
    cases ht

theorem getSenderPending_addToPool (c : Crypto) (m : TxDagMempool) (tx : Transaction)
    (parents : List TxId) (now : UInt64) (a : Address) :
    (m.addToPool c tx parents now).getSenderPending a =
      if a = tx.fromAddr then m.getSenderPending a ++ [tx.hash c] else m.getSenderPending a := by
  change ((m.pendingBySender.insert _ _).lookup a).getD [] = _
  rw [lookup_insert_eq_ite]
  by_cases ha : a = tx.fromAddr
  · rw [if_pos ha, if_pos ha, ha]
    rfl
  · rw [if_neg ha, if_neg ha]
    rfl

theorem mem_foldl_children (children : Map TxId (Finset TxId)) (parents : List TxId)
    (txHash p h : TxId) :
    h ∈ ((parents.foldl (fun children p =>
        children.insert p (insert txHash ((children.lookup p).getD ∅))) children).lookup p).getD ∅ ↔
      (p ∈ parents ∧ h = txHash) ∨ h ∈ (children.lookup p).getD ∅ := by
  induction parents generalizing children with
  | nil => simp
  | cons q parents ih =>
    rw [List.foldl_cons, ih, lookup_insert_eq_ite]
    by_cases hp : p = q
    · subst hp
      rw [if_pos rfl, Option.getD_some, Finset.mem_insert]
      simp only [List.mem_cons, true_or, true_and]
      tauto
    · rw [if_neg hp]
      simp only [List.mem_cons, hp, false_or]

theorem mem_getChildren_addToPool (c : Crypto) (m : TxDagMempool) (tx : Transaction)
    (parents : List TxId) (now : UInt64) (p h : TxId) :
    h ∈ (m.addToPool c tx parents now).getChildren p ↔
      (p ∈ parents ∧ h = tx.hash c) ∨ h ∈ m.getChildren p :=
  mem_foldl_children m.parentChildMap parents (tx.hash c) p h

theorem getSenderPending_removeTransaction {h : TxId} {t : MempoolTransaction}
    (ht : m.transactions.lookup h = some t) (a : Address) :
    (m.removeTransaction h).2.getSenderPending a =
      if a = t.transaction.fromAddr then (m.getSenderPending a).filter (· ≠ h)
      else m.getSenderPending a := by
  rw [removeTransaction_of_some ht]
  unfold getSenderPending
  cases hp : m.pendingBySender.lookup t.transaction.fromAddr with
  | none =>
    by_cases ha : a = t.transaction.fromAddr
    · subst ha
      simp [hp]
    · simp [ha]
  | some pendingList =>
    simp only [lookup_insert_eq_ite]
    by_cases ha : a = t.transaction.fromAddr
    · subst ha
      simp [hp]
    · simp [ha]

theorem getChildren_removeTransaction {h : TxId} {t : MempoolTransaction}
    (ht : m.transactions.lookup h = some t) (p : TxId) :
    (m.removeTransaction h).2.getChildren p = if p = h then ∅ else m.getChildren p := by
  rw [removeTransaction_of_some ht]
  simp only [getChildren, lookup_erase_eq_ite]
  by_cases hp : p = h <;> simp [hp]

theorem lookup_removeTransaction {h : TxId} {t : MempoolTransaction}
    (ht : m.transactions.lookup h = some t) (k : TxId) :
    (m.removeTransaction h).2.transactions.lookup k =
      if k = h then none else m.transactions.lookup k := by
  rw [removeTransaction_of_some ht]
  exact lookup_erase_eq_ite m.transactions h k

theorem Indexed.pending_removeTransaction (hm : m.Indexed) {h : TxId} {t : MempoolTransaction}
    (ht : m.transactions.lookup h = some t) (a : Address) (k : TxId) :
    k ∈ (m.removeTransaction h).2.getSenderPending a ↔
      ∃ t', (m.removeTransaction h).2.transactions.lookup k = some t' ∧
        t'.transaction.fromAddr = a := by
  rw [getSenderPending_removeTransaction ht, lookup_removeTransaction ht]
  by_cases hk : k = h
  · subst hk
    rw [if_pos rfl]
    refine iff_of_false ?_ (by rintro ⟨_, hnone, -⟩; cases hnone)
    by_cases ha : a = t.transaction.fromAddr
    · simp [ha]
    · rw [if_neg ha, hm.pending a k]
      rintro ⟨t', ht', rfl⟩
      rw [ht] at ht'
      cases ht'
      exact ha rfl
  · rw [if_neg hk, ← hm.pending a k]
    by_cases ha : a = t.transaction.fromAddr <;> simp [ha, hk]

theorem Indexed.nodup_removeTransaction (hm : m.Indexed) {h : TxId} {t : MempoolTransaction}
    (ht : m.transactions.lookup h = some t) (a : Address) :
    ((m.removeTransaction h).2.getSenderPending a).Nodup := by
  rw [getSenderPending_removeTransaction ht]
  by_cases ha : a = t.transaction.fromAddr
  · rw [if_pos ha]
    exact (hm.nodup a).filter _
  · rw [if_neg ha]
    exact hm.nodup a

theorem Indexed.children_removeTransaction (hm : m.Indexed) {h : TxId} {t : MempoolTransaction}
    (ht : m.transactions.lookup h = some t) (hparents : ∀ p ∈ t.parentTxHashes, p = h)
    (hno : ∀ k t', m.transactions.lookup k = some t' → h ∈ t'.parentTxHashes → k = h)
    (p k : TxId) :
    k ∈ (m.removeTransaction h).2.getChildren p ↔
      ∃ t', (m.removeTransaction h).2.transactions.lookup k = some t' ∧ p ∈ t'.parentTxHashes := by
  rw [getChildren_removeTransaction ht, lookup_removeTransaction ht]
  by_cases hp : p = h
  · subst hp
    rw [if_pos rfl]
    refine iff_of_false (Finset.notMem_empty k) ?_
    rintro ⟨t', ht', hp⟩
    by_cases hk : k = p
    · rw [if_pos hk] at ht'
      cases ht'
    · rw [if_neg hk] at ht'
      exact hk (hno k t' ht' hp)
  · rw [if_neg hp, hm.children p k]
    by_cases hk : k = h
    · subst hk
      rw [if_pos rfl]
      refine iff_of_false ?_ (by rintro ⟨_, hnone, -⟩; cases hnone)
      rintro ⟨t', ht', hmem⟩
      rw [ht] at ht'
      cases ht'
      exact hp (hparents p hmem)
    · rw [if_neg hk]

/-- A removal keeps the indices exactly if nothing else refers to what it removes. -/
theorem indexed_removeTransaction (hm : m.Indexed) {h : TxId} {t : MempoolTransaction}
    (ht : m.transactions.lookup h = some t) :
    (m.removeTransaction h).2.Indexed ↔ (∀ p ∈ t.parentTxHashes, p = h) ∧
      ∀ k t', m.transactions.lookup k = some t' → h ∈ t'.parentTxHashes → k = h := by
  constructor
  · intro h'
    constructor
    · intro p hp
      by_contra hne
      have hmem := (hm.children p h).mpr ⟨t, ht, hp⟩
      have hstale := h'.children p h
      rw [getChildren_removeTransaction ht, if_neg hne, lookup_removeTransaction ht, if_pos rfl]
        at hstale
      obtain ⟨_, hnone, -⟩ := hstale.mp hmem
      cases hnone
    · intro k t' ht' hp
      by_contra hne
      have hforgotten := h'.children h k
      rw [getChildren_removeTransaction ht, if_pos rfl, lookup_removeTransaction ht, if_neg hne]
        at hforgotten
      exact absurd (hforgotten.mpr ⟨t', ht', hp⟩) (Finset.notMem_empty k)
  · rintro ⟨hparents, hno⟩
    exact ⟨hm.pending_removeTransaction ht, hm.nodup_removeTransaction ht,
      hm.children_removeTransaction ht hparents hno⟩

theorem not_indexed_withoutEntry (hm : m.Indexed) {g : TxId} (hg : g ∈ m.transactions) :
    ¬ (m.withoutEntry (some g)).Indexed := by
  intro h
  obtain ⟨t, ht⟩ := Finmap.mem_iff.mp hg
  have hstale := h.pending t.transaction.fromAddr g
  rw [lookup_withoutEntry, if_pos rfl] at hstale
  obtain ⟨_, hnone, -⟩ := hstale.mp ((hm.pending _ _).mpr ⟨t, ht, rfl⟩)
  cases hnone

theorem indexed_addToPool (hm : m.Indexed) {tx : Transaction} {parents : List TxId} {now : UInt64}
    (hfresh : tx.hash c ∉ m.transactions) : (m.addToPool c tx parents now).Indexed := by
  obtain ⟨new, htx, hparents, -, hlookup⟩ := lookup_addToPool c m tx parents now
  have hsender := getSenderPending_addToPool c m tx parents now
  have hchildren := mem_getChildren_addToPool c m tx parents now
  have habsent : ∀ t, m.transactions.lookup (tx.hash c) ≠ some t := by
    intro t ht
    exact hfresh (Finmap.mem_iff.mpr ⟨t, ht⟩)
  have hunlisted : ∀ a, tx.hash c ∉ m.getSenderPending a := by
    intro a ha
    obtain ⟨t, ht, -⟩ := (hm.pending a _).mp ha
    exact habsent t ht
  constructor
  · intro a h
    rw [hsender, hlookup]
    by_cases hh : h = tx.hash c
    · subst hh
      by_cases ha : a = tx.fromAddr
      · simp [ha, htx]
      · simp [ha, hunlisted, htx, Ne.symm ha]
    · rw [if_neg hh, ← hm.pending a h]
      by_cases ha : a = tx.fromAddr <;> simp [ha, hh]
  · intro a
    rw [hsender]
    by_cases ha : a = tx.fromAddr
    · rw [if_pos ha, List.nodup_append]
      refine ⟨hm.nodup a, List.nodup_singleton _, ?_⟩
      rintro h hh h' hh' rfl
      rw [List.mem_singleton.mp hh'] at hh
      exact hunlisted a hh
    · rw [if_neg ha]
      exact hm.nodup a
  · intro p h
    rw [hchildren, hlookup, hm.children p h]
    by_cases hh : h = tx.hash c
    · subst hh
      simp [habsent, hparents]
    · simp [hh]

/-- After an eviction the newcomer does not repair the pending list: it lists the evicted hash
still, or twice if it is the newcomer's. -/
theorem not_indexed_addToPool (hm : m.Indexed) {g : TxId} (hg : g ∈ m.transactions)
    (tx : Transaction) (parents : List TxId) (now : UInt64) :
    ¬ ((m.withoutEntry (some g)).addToPool c tx parents now).Indexed := by
  intro h
  obtain ⟨t, ht⟩ := Finmap.mem_iff.mp hg
  obtain ⟨new, htx, -, -, hlookup⟩ := lookup_addToPool c (m.withoutEntry (some g)) tx parents now
  have hlisted : g ∈ m.getSenderPending t.transaction.fromAddr := (hm.pending _ _).mpr ⟨t, ht, rfl⟩
  have hsender := getSenderPending_addToPool c (m.withoutEntry (some g)) tx parents now
    t.transaction.fromAddr
  change _ = if _ then m.getSenderPending _ ++ _ else m.getSenderPending _ at hsender
  have hmem : g ∈ ((m.withoutEntry (some g)).addToPool c tx parents now).getSenderPending
      t.transaction.fromAddr := by
    rw [hsender]
    by_cases hfrom : t.transaction.fromAddr = tx.fromAddr
    · rw [if_pos hfrom]
      exact List.mem_append_left _ hlisted
    · rwa [if_neg hfrom]
  obtain ⟨t', ht', hfrom⟩ := (h.pending _ _).mp hmem
  rw [hlookup, lookup_withoutEntry, if_pos rfl] at ht'
  by_cases hself : g = tx.hash c
  · rw [if_pos hself] at ht'
    cases ht'
    have hnodup := h.nodup t.transaction.fromAddr
    rw [hsender, if_pos (hfrom.symm.trans (congrArg Transaction.fromAddr htx)),
      List.nodup_append] at hnodup
    exact hnodup.2.2 g hlisted (tx.hash c) (List.mem_singleton.mpr rfl) hself
  · rw [if_neg hself] at ht'
    cases ht'

theorem indexed_with_rateLimits (m : TxDagMempool) (rates : Map String (ℕ × UInt64)) :
    Indexed { m with rateLimits := rates } ↔ m.Indexed :=
  ⟨fun h => ⟨h.pending, h.nodup, h.children⟩, fun h => ⟨h.pending, h.nodup, h.children⟩⟩

theorem indexed_exec (c : Crypto) (hm : m.Indexed) (call : PoolCall) :
    (m.exec c call).Indexed ↔ m.KeepsIndex call := by
  cases call with
  | addTransaction env tx parents source =>
    change (m.addTransaction c env tx parents source).2.Indexed ↔ m.evicted env tx source = none
    rcases addTransaction_cases c m env tx parents source with
      ⟨haccepts, rates, hadd⟩ | ⟨-, e, rates, hadd⟩
    · rw [hadd]
      refine (indexed_with_rateLimits _ rates).trans ?_
      cases hevicted : m.evicted env tx source with
      | none =>
        have hfresh := haccepts.fresh
        rw [hevicted] at hfresh
        exact iff_of_true (indexed_addToPool hm hfresh) rfl
      | some g =>
        exact iff_of_false (not_indexed_addToPool hm (mem_of_evicted hevicted) tx parents env.now)
          (by simp)
    · rw [hadd]
      refine (indexed_with_rateLimits _ rates).trans ?_
      cases hevicted : m.evicted env tx source with
      | none => exact iff_of_true hm rfl
      | some g =>
        exact iff_of_false (not_indexed_withoutEntry hm (mem_of_evicted hevicted)) (by simp)
  | removeTransaction h =>
    change (m.removeTransaction h).2.Indexed ↔ ∀ t, m.transactions.lookup h = some t → _
    cases ht : m.transactions.lookup h with
    | none =>
      rw [removeTransaction_of_none ht]
      exact iff_of_true hm (fun t h' => by cases h')
    | some t =>
      rw [indexed_removeTransaction hm ht]
      simp only [Option.some.injEq, forall_eq']
  | setBaseFee fee => exact iff_of_true ⟨hm.pending, hm.nodup, hm.children⟩ trivial
  | clear =>
    have h := indexed_new 0 0
    exact iff_of_true ⟨h.pending, h.nodup, h.children⟩ trivial

/-- In every run from an empty pool, the indices describe the pool after every call exactly if no
call evicts a transaction and every transaction that is removed is related to no other. -/
theorem indexed_iff_unrelated (c : Crypto) (maxSize : ℕ) (minGasPrice : UInt64)
    (calls : List PoolCall) :
    StepRun.Along (exec c) (fun m call => (m.exec c call).Indexed) (new maxSize minGasPrice)
        calls ↔
      StepRun.Along (exec c) KeepsIndex (new maxSize minGasPrice) calls := by
  exact StepRun.along_iff_of_invariant (I := Indexed) (indexed_new maxSize minGasPrice)
    (fun _ _ _ he => he) (fun _ call hm => indexed_exec c hm call) calls

end Index

section Sample
open ParallelExecutor

/-- A transfer, the next one of the same sender that names it as its parent, and the removal of the
second. -/
def sampleStale : List PoolCall :=
  [.addTransaction sampleEnv sampleFirst [] none,
    .addTransaction sampleEnv sampleSecond [sampleFirst.hash .hashOnly] none,
    .removeTransaction (sampleSecond.hash .hashOnly)]

set_option maxRecDepth 20000 in
/-- The second transfer is gone and still the child of the first. -/
theorem sampleStale_keeps_child :
    (sampleSecond.hash .hashOnly ∉
        (sampleStale.foldl (exec .hashOnly) (new 10 1)).transactions ∧
      sampleSecond.hash .hashOnly ∈
        (sampleStale.foldl (exec .hashOnly) (new 10 1)).getChildren
          (sampleFirst.hash .hashOnly)) ∧
      ¬ StepRun.Along (exec .hashOnly) (fun m call => (m.exec .hashOnly call).Indexed) (new 10 1)
        sampleStale := by
  have hgone : sampleSecond.hash .hashOnly ∉
      (sampleStale.foldl (exec .hashOnly) (new 10 1)).transactions := by decide +kernel
  have hchild : sampleSecond.hash .hashOnly ∈
      (sampleStale.foldl (exec .hashOnly) (new 10 1)).getChildren
        (sampleFirst.hash .hashOnly) := by decide +kernel
  refine ⟨⟨hgone, hchild⟩, ?_⟩
  intro h
  have hlast : (sampleStale.foldl (exec .hashOnly) (new 10 1)).Indexed := h.2.2.1
  obtain ⟨t, ht, -⟩ := (hlast.children _ _).mp hchild
  exact hgone (Finmap.mem_iff.mpr ⟨t, ht⟩)

end Sample

end TxDagMempool

end CytahSpeed
