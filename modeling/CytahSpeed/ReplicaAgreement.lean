import CytahSpeed.ReceiptOrder

/-!
# Nodes that execute the same blocks

Every node iterates its map of batches and its map of accounts in an order of its own. Batches of
a block without equal hashes have different earliest positions, so that sorting them undoes the
order in which they came out of the map; what is left of the orders is the shape of the account
tree. Nodes that start from the same contents and execute the same blocks give the same receipts
and have the same contents again.
-/

namespace CytahSpeed
open ByteString FiniteMap

namespace ParallelExecutor

/-- A block as one node executes it, with the orders in which its maps are iterated. -/
structure Execution where
  txs : List Transaction
  batchOrder : IterOrder ℕ (List Transaction)
  leafOrder : IterOrder Address Account

def executeBlocks (c : Crypto) (wasm : Wasm) :
    List Execution → Ledger → List (List TransactionReceipt) × Ledger
  | [], ledger => ([], ledger)
  | e :: es, ledger =>
    let r := executeBlockTransactionsParallel c wasm e.leafOrder e.batchOrder e.txs ledger
    let rest := executeBlocks c wasm es r.2
    (r.1 :: rest.1, rest.2)

section Schedule
variable {c : Crypto} {txs : List Transaction} {order : IterOrder ℕ (List Transaction)}

theorem eq_of_earliestIndex_eq (hd : DistinctHashes c txs) {a b : List Transaction}
    (ha : a ∈ scheduleParallelBatches c order txs) (hb : b ∈ scheduleParallelBatches c order txs)
    (h : earliestIndex c (indexMap c txs) a = earliestIndex c (indexMap c txs) b) : a = b := by
  have hclass : ∀ {b}, b ∈ scheduleParallelBatches c order txs →
      ∃ i < txs.length, b = colorClass c txs (colorAt c txs i) := by
    intro b hb
    obtain ⟨x, hne, rfl⟩ := mem_scheduleParallelBatches.mp hb
    obtain ⟨t, ht⟩ := List.exists_mem_of_ne_nil _ hne
    obtain ⟨i, hi, rfl⟩ := (mem_colorClass hd).mp ht
    exact ⟨i, (List.getElem?_eq_some_iff.mp hi).1, rfl⟩
  obtain ⟨i, hi, rfl⟩ := hclass ha
  obtain ⟨j, hj, rfl⟩ := hclass hb
  obtain ⟨k, -, hki, hkey, -⟩ := earliestIndex_colorClass hd hi
  obtain ⟨k', -, hkj, hkey', -⟩ := earliestIndex_colorClass hd hj
  have hkk : k = k' := hkey.symm.trans (h.trans hkey')
  rw [← hki, ← hkj, hkk]

theorem scheduleParallelBatches_eq (hd : DistinctHashes c txs)
    (order order' : IterOrder ℕ (List Transaction)) :
    scheduleParallelBatches c order txs = scheduleParallelBatches c order' txs := by
  have hperm : (scheduleParallelBatches c order txs).Perm
      (scheduleParallelBatches c order' txs) := by
    unfold scheduleParallelBatches
    apply (List.perm_insertionSort _ _).trans
    apply List.Perm.trans _ (List.perm_insertionSort _ _).symm
    exact ((order.enumerates _).perm (order'.enumerates _)).map Prod.snd
  apply List.Perm.eq_of_pairwise _ sorted_scheduleParallelBatches sorted_scheduleParallelBatches
    hperm
  intro a b ha hb hab hba
  exact eq_of_earliestIndex_eq hd ha (hperm.mem_iff.mpr hb) (Nat.le_antisymm hab hba)

end Schedule

section Agreement
variable {c : Crypto} {wasm : Wasm} {ledger ledger' : Ledger}

theorem executeBatch_agrees (leafOrder leafOrder' : IterOrder Address Account)
    (batch : List Transaction) (h : ledger.contents = ledger'.contents) :
    (executeBatch c wasm leafOrder batch ledger).1 =
        (executeBatch c wasm leafOrder' batch ledger').1 ∧
      (executeBatch c wasm leafOrder batch ledger).2.contents =
        (executeBatch c wasm leafOrder' batch ledger').2.contents := by
  have hrun := executeBatch_eq_runBatch c wasm leafOrder batch ledger
  have hrun' := executeBatch_eq_runBatch c wasm leafOrder' batch ledger'
  rw [← h, ← hrun] at hrun'
  exact ⟨(congrArg Prod.fst hrun').symm, (congrArg Prod.snd hrun').symm⟩

theorem executeBatches_agrees (leafOrder leafOrder' : IterOrder Address Account)
    (batches : List (List Transaction)) (receipts : List TransactionReceipt)
    (h : ledger.contents = ledger'.contents) :
    let node := batches.foldl (fun acc batch =>
      let r := executeBatch c wasm leafOrder batch acc.2
      (acc.1 ++ r.1, r.2)) (receipts, ledger)
    let node' := batches.foldl (fun acc batch =>
      let r := executeBatch c wasm leafOrder' batch acc.2
      (acc.1 ++ r.1, r.2)) (receipts, ledger')
    node.1 = node'.1 ∧ node.2.contents = node'.2.contents := by
  induction batches generalizing receipts ledger ledger' with
  | nil => exact ⟨rfl, h⟩
  | cons batch batches ih =>
    obtain ⟨hreceipts, hcontents⟩ := executeBatch_agrees leafOrder leafOrder' batch h
    have hnext := ih (receipts ++ (executeBatch c wasm leafOrder batch ledger).1) hcontents
    dsimp only at hnext ⊢
    rw [List.foldl_cons, List.foldl_cons]
    rw [hreceipts] at hnext ⊢
    exact hnext

theorem executeParallel_agrees_of_contents (wasm : Wasm) {txs : List Transaction}
    (hd : DistinctHashes c txs) (leafOrder leafOrder' : IterOrder Address Account)
    (batchOrder batchOrder' : IterOrder ℕ (List Transaction))
    (h : ledger.contents = ledger'.contents) :
    (executeBlockTransactionsParallel c wasm leafOrder batchOrder txs ledger).1 =
        (executeBlockTransactionsParallel c wasm leafOrder' batchOrder' txs ledger').1 ∧
      (executeBlockTransactionsParallel c wasm leafOrder batchOrder txs ledger).2.contents =
        (executeBlockTransactionsParallel c wasm leafOrder' batchOrder' txs
          ledger').2.contents := by
  unfold executeBlockTransactionsParallel
  rw [scheduleParallelBatches_eq hd batchOrder' batchOrder]
  exact executeBatches_agrees leafOrder leafOrder' _ [] h

end Agreement

/-- Two nodes that agree on accounts, contracts and storage and execute the same blocks, each in
the orders of its own maps, give the same receipts for every block and agree afterwards. -/
theorem replicas_agree (c : Crypto) (wasm : Wasm) (es es' : List Execution)
    (ledger ledger' : Ledger) (hblocks : es.map Execution.txs = es'.map Execution.txs)
    (hdistinct : ∀ e ∈ es, DistinctHashes c e.txs) (h : ledger.contents = ledger'.contents) :
    (executeBlocks c wasm es ledger).1 = (executeBlocks c wasm es' ledger').1 ∧
      (executeBlocks c wasm es ledger).2.contents =
        (executeBlocks c wasm es' ledger').2.contents := by
  induction es generalizing es' ledger ledger' with
  | nil =>
    obtain rfl := List.map_eq_nil_iff.mp hblocks.symm
    exact ⟨rfl, h⟩
  | cons e es ih =>
    obtain ⟨e', es', rfl, htxs, hrest⟩ := List.map_eq_cons_iff.mp hblocks.symm
    obtain ⟨hd, hdistinct⟩ := List.forall_mem_cons.mp hdistinct
    have hstep := executeParallel_agrees_of_contents wasm hd e.leafOrder e'.leafOrder
      e.batchOrder e'.batchOrder h
    rw [← htxs] at hstep
    obtain ⟨hreceipts, hcontents⟩ := ih es' _ _ hrest.symm hdistinct hstep.2
    simp only [executeBlocks, ← htxs]
    exact ⟨by rw [hstep.1, hreceipts], hcontents⟩

/-- The same block twice, on a node that iterates in ascending order and on one that does not. -/
theorem replicas_agree_sample :
    let ascending : Execution := ⟨sampleBlock, .sorted, .sorted⟩
    let descending : Execution := ⟨sampleBlock, .reverse .sorted, .reverse .sorted⟩
    (executeBlocks sampleCrypto sampleWasm [ascending, ascending] sampleLedger).1 =
        (executeBlocks sampleCrypto sampleWasm [descending, descending] sampleLedger).1 ∧
      (executeBlocks sampleCrypto sampleWasm [ascending, ascending] sampleLedger).2.contents =
        (executeBlocks sampleCrypto sampleWasm [descending, descending]
          sampleLedger).2.contents := by
  intro ascending descending
  have hdistinct : ∀ e ∈ [ascending, ascending], DistinctHashes sampleCrypto e.txs := by
    intro e he
    simp only [List.mem_cons, List.not_mem_nil, or_false, or_self] at he
    rw [he]
    exact sampleBlock_runs.1
  exact replicas_agree sampleCrypto sampleWasm [ascending, ascending] [descending, descending]
    sampleLedger sampleLedger rfl hdistinct rfl

end ParallelExecutor

end CytahSpeed
