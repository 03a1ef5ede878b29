import CytahSpeed.Serialisability

/-!
# Batches and the order of the receipts

The schedule puts every transaction in one batch, and no two transactions of a batch conflict.
The receipts come batch after batch, and inside a batch in the order of the hashes, so they stand
in the order of the block only for a block that is arranged like that already: transactions with a
later conflict first, by the level of the conflict graph, and ascending hashes in between.
-/

namespace CytahSpeed
open FiniteMap TraceOrder GreedyColoring

namespace ParallelExecutor

section Schedule

/-- Every transaction is in one batch, a batch has no conflicts, and keeps the block's order. -/
structure SoundSchedule (c : Crypto) (txs : List Transaction)
    (batches : List (List Transaction)) : Prop where
  all : batches.flatten.Perm txs
  unique : ∀ t ∈ txs, ∃! b, b ∈ batches ∧ t ∈ b
  conflictFree : ∀ b ∈ batches, ∀ t ∈ b, ∀ u ∈ b, t ≠ u →
    transactionsConflict (analyzeAccess c t) (analyzeAccess c u) = false
  inOrder : ∀ b ∈ batches, b.Sublist txs

/-- The batches of a block without equal hashes are a sound schedule. -/
theorem scheduleParallelBatches_sound (c : Crypto) (order : IterOrder ℕ (List Transaction))
    (txs : List Transaction) (hd : DistinctHashes c txs) :
    SoundSchedule c txs (scheduleParallelBatches c order txs) := by
  constructor
  · exact flatten_scheduleParallelBatches hd
  · intro t ht
    obtain ⟨i, hi⟩ := List.mem_iff_getElem?.mp ht
    refine ⟨_, (mem_batch_iff order hd hi).mpr rfl, ?_⟩
    intro b hb
    exact (mem_batch_iff order hd hi).mp hb
  · intro b hb t ht u hu hne
    have hsymm : Std.Symm fun t u : Transaction => ¬ conflicts c t u :=
      ⟨fun t u h hconf => h (conflicts_symm hconf)⟩
    have hconf := (batch_pairwise hd hb).forall ht hu hne
    exact Bool.eq_false_iff.mpr hconf
  · intro b hb
    obtain ⟨x, -, rfl⟩ := mem_scheduleParallelBatches.mp hb
    exact colorClass_sublist hd x

theorem scheduleParallelBatches_sound_sample : SoundSchedule sampleCrypto sampleBlock
    (scheduleParallelBatches sampleCrypto .sorted sampleBlock) :=
  scheduleParallelBatches_sound sampleCrypto .sorted sampleBlock sampleBlock_runs.1

end Schedule

section Receipts
variable (c : Crypto) (wasm : Wasm) (leafOrder : IterOrder Address Account)
  (batchOrder : IterOrder ℕ (List Transaction)) (txs : List Transaction)

/-- The order in which the results are merged and the receipts collected. -/
def mergeOrder : List Transaction :=
  ((scheduleParallelBatches c batchOrder txs).map (sortByHash c)).flatten

theorem map_txHash_executeBatch (batch : List Transaction) (base : Ledger) :
    (executeBatch c wasm leafOrder batch base).1.map (·.txHash) =
      (sortByHash c batch).map (Transaction.hash c) := by
  rw [congrArg Prod.fst (executeBatch_eq_runBatch c wasm leafOrder batch base), runBatch_fst,
    List.map_map]
  apply List.map_congr_left
  intro tx _
  exact txHash_executeAlone tx base

theorem map_txHash_foldl (batches : List (List Transaction)) (receipts : List TransactionReceipt)
    (base : Ledger) :
    (batches.foldl (fun acc batch =>
        let r := executeBatch c wasm leafOrder batch acc.2
        (acc.1 ++ r.1, r.2)) (receipts, base)).1.map (·.txHash) =
      receipts.map (·.txHash) ++
        ((batches.map (sortByHash c)).flatten.map (Transaction.hash c)) := by
  induction batches generalizing receipts base with
  | nil => simp
  | cons batch batches ih =>
    dsimp only at ih ⊢
    rw [List.foldl_cons, ih, List.map_append, map_txHash_executeBatch, List.map_cons,
      List.flatten_cons, List.map_append, List.append_assoc]

theorem map_txHash_executeParallel (ledger : Ledger) :
    (executeBlockTransactionsParallel c wasm leafOrder batchOrder txs ledger).1.map (·.txHash) =
      (mergeOrder c batchOrder txs).map (Transaction.hash c) :=
  map_txHash_foldl c wasm leafOrder _ [] ledger

def HashLe (i j : ℕ) : Prop :=
  ∀ t u, txs[i]? = some t → txs[j]? = some u → t.hash c ≤ u.hash c

def BlockArranged : Prop :=
  Arranged (fun i j => adjacent c txs i j) txs.length (HashLe c txs)

variable {c txs}

theorem sorted_sortByHash (batch : List Transaction) :
    (sortByHash c batch).Pairwise fun t u => t.hash c ≤ u.hash c := by
  have : Std.Total fun t u : Transaction => t.hash c ≤ u.hash c := ⟨fun t u => le_total _ _⟩
  have : IsTrans Transaction fun t u => t.hash c ≤ u.hash c := ⟨fun t u v => le_trans⟩
  exact List.pairwise_insertionSort _ _

theorem perm_mergeOrder (hd : DistinctHashes c txs) : (mergeOrder c batchOrder txs).Perm txs :=
  (perm_flatten_sorted _).trans (flatten_scheduleParallelBatches hd)

variable {i j : ℕ} {t u : Transaction}

theorem mergeOrder_of_hash_lt (hd : DistinctHashes c txs) (ht : txs[i]? = some t)
    (hu : txs[j]? = some u) (hcolor : colorAt c txs i = colorAt c txs j)
    (hlt : t.hash c < u.hash c) : [t, u].Sublist (mergeOrder c batchOrder txs) := by
  obtain ⟨hb, htb⟩ := (mem_batch_iff batchOrder hd ht).mpr rfl
  obtain ⟨-, hub⟩ := (mem_batch_iff batchOrder hd hu).mpr rfl
  rw [← hcolor] at hub
  have hsub := pair_sublist_of_lt (sorted_sortByHash _)
    ((perm_sortByHash c _).mem_iff.mpr htb) ((perm_sortByHash c _).mem_iff.mpr hub) hlt
  exact hsub.trans (List.sublist_flatten_of_mem (List.mem_map_of_mem hb))

/-- Two transactions are merged in block order exactly if their batches, or their hashes in one
batch, are in that order. -/
theorem mergeOrder_pair_iff (hd : DistinctHashes c txs) (hij : i < j) (ht : txs[i]? = some t)
    (hu : txs[j]? = some u) : [t, u].Sublist (mergeOrder c batchOrder txs) ↔
      (colorAt c txs i = colorAt c txs j → HashLe c txs i j) ∧
        (colorAt c txs i ≠ colorAt c txs j →
          Before txs.length (colorAt c txs) (colorAt c txs i) (colorAt c txs j)) := by
  have hnodup : (mergeOrder c batchOrder txs).Nodup :=
    (perm_mergeOrder batchOrder hd).nodup_iff.mpr (List.Nodup.of_map _ hd)
  have hne : t.hash c ≠ u.hash c := by
    intro he
    have := position_unique hd ht hu he
    omega
  have hle : HashLe c txs i j ↔ t.hash c < u.hash c := by
    constructor
    · exact fun h => lt_of_le_of_ne (h t u ht hu) hne
    · intro hlt t' u' ht' hu'
      rw [← Option.some.inj (ht.symm.trans ht'), ← Option.some.inj (hu.symm.trans hu')]
      exact le_of_lt hlt
  by_cases hcolor : colorAt c txs i = colorAt c txs j
  · simp only [hcolor, forall_const, ne_eq, not_true_eq_false, false_imp_iff, and_true, hle]
    constructor
    · intro hsub
      by_contra hlt
      exact pair_sublist_asymm hnodup hsub (mergeOrder_of_hash_lt batchOrder hd hu ht hcolor.symm
        (lt_of_le_of_ne (not_lt.mp hlt) hne.symm))
    · exact mergeOrder_of_hash_lt batchOrder hd ht hu hcolor
  · simp only [hcolor, false_imp_iff, ne_eq, not_false_eq_true, forall_const, true_and]
    rw [← runsBefore_iff_before batchOrder hd ht hu hcolor]
    constructor
    · intro hsub
      obtain ⟨hb, htb⟩ := (mem_batch_iff batchOrder hd ht).mpr rfl
      obtain ⟨hb', hub⟩ := (mem_batch_iff batchOrder hd hu).mpr rfl
      have hbatch : colorClass c txs (colorAt c txs i) ≠ colorClass c txs (colorAt c txs j) := by
        intro he
        rw [← he] at hub
        obtain ⟨k, hk, hki⟩ := (mem_colorClass hd).mp hub
        exact hcolor (hki.symm.trans (by rw [position_unique hd hk hu rfl]))
      rcases pair_sublist_or hb hb' hbatch with h | h
      · exact ⟨_, _, h, htb, hub⟩
      · exact (pair_sublist_asymm hnodup hsub (mem_batches_order ⟨_, _, h, hub, htb⟩)).elim
    · exact mem_batches_order

theorem mergeOrder_eq_iff (hd : DistinctHashes c txs) :
    mergeOrder c batchOrder txs = txs ↔ BlockArranged c txs := by
  have hcolor := colorAt_eq hd
  unfold BlockArranged
  rw [← inOrder_iff_arranged adjacent_symm not_adjacent_self hcolor]
  constructor
  · intro h i j hij hj
    have ht : txs[i]? = some txs[i] := List.getElem?_eq_getElem (by omega)
    have hu : txs[j]? = some txs[j] := List.getElem?_eq_getElem hj
    rw [← mergeOrder_pair_iff batchOrder hd hij ht hu, h]
    exact pair_sublist_iff.mpr ⟨i, j, hij, ht, hu⟩
  · intro h
    symm
    apply eq_of_pair_sublists (perm_mergeOrder batchOrder hd).symm (List.Nodup.of_map _ hd)
    intro t u hsub
    obtain ⟨i, j, hij, ht, hu⟩ := pair_sublist_iff.mp hsub
    exact (mergeOrder_pair_iff batchOrder hd hij ht hu).mpr
      (h i j hij (List.getElem?_eq_some_iff.mp hu).1)

theorem map_hash_mergeOrder_iff (hd : DistinctHashes c txs) :
    (mergeOrder c batchOrder txs).map (Transaction.hash c) = txs.map (Transaction.hash c) ↔
      mergeOrder c batchOrder txs = txs := by
  constructor
  · intro h
    have hp := perm_mergeOrder batchOrder hd
    apply List.ext_getElem hp.length_eq
    intro i hi hi'
    have hget : ((mergeOrder c batchOrder txs).map (Transaction.hash c))[i]? =
        (txs.map (Transaction.hash c))[i]? := by rw [h]
    have hhash : (mergeOrder c batchOrder txs)[i].hash c = txs[i].hash c := by
      simpa [hi, hi'] using hget
    exact List.inj_on_of_nodup_map hd (hp.mem_iff.mp (List.getElem_mem hi)) (List.getElem_mem hi')
      hhash
  · intro h
    rw [h]

end Receipts

/-- There is one receipt for every transaction, in the order of the block, exactly if the block is
arranged. -/
theorem receipts_follow_block_iff (c : Crypto) (wasm : Wasm)
    (leafOrder : IterOrder Address Account) (batchOrder : IterOrder ℕ (List Transaction))
    (txs : List Transaction) (ledger : Ledger) (hd : DistinctHashes c txs) :
    (executeBlockTransactionsParallel c wasm leafOrder batchOrder txs ledger).1.map (·.txHash) =
        txs.map (Transaction.hash c) ↔ BlockArranged c txs := by
  rw [map_txHash_executeParallel, map_hash_mergeOrder_iff batchOrder hd,
    mergeOrder_eq_iff batchOrder hd]

section Sample

set_option maxRecDepth 20000 in
/-- Of two transfers without a conflict, the one of the lower hash stands first. -/
theorem receipts_follow_block_sample :
    (executeBlockTransactionsParallel sampleCrypto sampleWasm .sorted .sorted
      [sampleAside, sampleFirst] sampleLedger).1.map (·.txHash) =
        [sampleAside, sampleFirst].map (Transaction.hash sampleCrypto) := by
  have hsub : [sampleAside, sampleFirst].Sublist sampleBlock :=
    (List.sublist_append_left [sampleAside, sampleFirst] [sampleSecond])
  apply (receipts_follow_block_iff sampleCrypto sampleWasm .sorted .sorted
    [sampleAside, sampleFirst] sampleLedger (sampleBlock_runs.1.sublist (hsub.map _))).mpr
  have hfinal : ∀ j, 0 < j → ¬ HasLater (fun i j => adjacent sampleCrypto
      [sampleAside, sampleFirst] i j) 2 j := by
    rintro j hj ⟨k, hjk, hk, -⟩
    omega
  refine ⟨levelled_of_le_two _ le_rfl, ?_, ?_, ?_⟩
  · exact fun i j hij _ hlater => absurd hlater (hfinal j (by omega))
  · exact fun i j hij _ _ hlater => absurd hlater (hfinal j (by omega))
  · intro i j hij hj _ _ t u ht hu
    obtain ⟨rfl, rfl⟩ : i = 0 ∧ j = 1 := by
      change j < 2 at hj
      omega
    obtain rfl := Option.some.inj ht
    obtain rfl := Option.some.inj hu
    decide +kernel

set_option maxRecDepth 20000 in
/-- Listed the other way round, the two transfers get each other's place. -/
theorem sampleSwapped_receipts :
    DistinctHashes sampleCrypto [sampleFirst, sampleAside] ∧
      (executeBlockTransactionsParallel sampleCrypto sampleWasm .sorted .sorted
        [sampleFirst, sampleAside] sampleLedger).1.map (·.txHash) ≠
          [sampleFirst, sampleAside].map (Transaction.hash sampleCrypto) := by
  rw [map_txHash_executeParallel]
  decide +kernel

end Sample

end ParallelExecutor

end CytahSpeed
