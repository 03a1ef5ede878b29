import CytahSpeed.ReceiptOrder

/-!
# Transfers without conflicts

Transfers that conflict with none of each other may all read the state before the batch. Their
overlays can be merged in any order, and every order of executing them one after the other leaves
the same accounts and gives each of them the same receipt.
-/

namespace CytahSpeed
open ByteString FiniteMap TraceOrder

namespace ParallelExecutor

section Apart
variable (c : Crypto) (wasm : Wasm) (leafOrder : IterOrder Address Account)

/-- Each transaction on its own overlay over the base; the overlays of the successful ones are
merged in the order of the list. -/
def executeApart (txs : List Transaction) (base : Ledger) : List TransactionReceipt × Ledger :=
  (txs.map fun tx => (tx.hash c, executeAlone c wasm tx base)).foldl
    (fun acc r => (acc.1 ++ [r.2.1], mergeIfSuccessful c leafOrder r.2 acc.2)) ([], base)

theorem executeApart_eq_runBatch (txs : List Transaction) (base : Ledger) :
    ((executeApart c wasm leafOrder txs base).1,
      (executeApart c wasm leafOrder txs base).2.contents) =
        runBatch (fun tx s => executeAlone c wasm tx (Contents.ledger s)) applyResult
          base.contents txs base.contents :=
  mergeAll_foldl c wasm leafOrder txs base [] base

variable {c wasm leafOrder} {txs l : List Transaction} {ledger : Ledger}

theorem conflicts_self (tx : Transaction) : conflicts c tx tx := by
  rw [conflicts_iff, Finset.not_disjoint_iff]
  exact ⟨tx.fromAddr, by simp [touched], by simp [touched]⟩

theorem nodup_of_conflictFree (hpair : txs.Pairwise fun t u => ¬ conflicts c t u) : txs.Nodup := by
  apply hpair.imp
  rintro t u hconf rfl
  exact hconf (conflicts_self t)

theorem pairwise_of_perm (hpair : txs.Pairwise fun t u => ¬ conflicts c t u) (hl : l.Perm txs) :
    l.Pairwise fun t u => ¬ conflicts c t u :=
  (hl.pairwise_iff fun h hconf => h (conflicts_symm hconf)).mpr hpair

variable {keys : Address → Set (List UInt8)} (hkeys : KeepsApart c wasm txs ledger keys)
  (hpair : txs.Pairwise fun t u => ¬ conflicts c t u) (hl : l.Perm txs)
include hkeys hpair hl

theorem runBatch_eq_runContents :
    runBatch (fun tx s => executeAlone c wasm tx (Contents.ledger s)) applyResult
        ledger.contents l ledger.contents = runContents c wasm l ledger.contents :=
  runBatch_eq_run hkeys.independence l ledger.contents known_contents
    (fun _ h => hl.mem_iff.mp h) (pairwise_of_perm hpair hl)

theorem runContents_receipts :
    (runContents c wasm l ledger.contents).1 =
      l.map fun tx => (executeAlone c wasm tx ledger).1 := by
  rw [← runBatch_eq_runContents hkeys hpair hl, runBatch_fst]
  apply List.map_congr_left
  intro tx _
  exact congrArg Prod.fst (executeAlone_contents c wasm tx ledger).symm

theorem runContents_contents :
    (runContents c wasm l ledger.contents).2 = (runContents c wasm txs ledger.contents).2 := by
  have hpairl := pairwise_of_perm hpair hl
  apply (run_eq_of_sameOrder hkeys.independence l txs ledger.contents known_contents
    (fun _ h => hl.mem_iff.mp h) hl (nodup_of_conflictFree hpairl) _).1
  intro t u hconf hsub
  exact absurd (List.pairwise_iff_forall_sublist.mp hpairl hsub) hconf

end Apart

/-- Transfers without a conflict, merged in any order, leave the accounts, storage and contracts of
an execution one after the other in any order, and each gets the receipt it gets on the ledger
before them. -/
theorem independent_transfers_commute (c : Crypto) (wasm : Wasm)
    (leafOrder leafOrder' : IterOrder Address Account) (ledger : Ledger)
    (txs l l' : List Transaction)
    (htransfers : ∀ tx ∈ txs, ∃ toAddr amount, tx.payload = .transfer toAddr amount)
    (hpair : txs.Pairwise fun t u =>
      transactionsConflict (analyzeAccess c t) (analyzeAccess c u) = false)
    (hl : l.Perm txs) (hl' : l'.Perm txs) :
    let apart := executeApart c wasm leafOrder l ledger
    let sequential := executeSequential c wasm leafOrder' l' ledger
    apart.2.contents = sequential.2.contents ∧
      apart.1 = l.map (fun tx => (executeAlone c wasm tx ledger).1) ∧
      sequential.1 = l'.map (fun tx => (executeAlone c wasm tx ledger).1) := by
  have hfree : txs.Pairwise fun t u => ¬ conflicts c t u := hpair.imp fun h => by
    rw [conflicts, h]
    exact Bool.false_ne_true
  have hstorage : SeparateStorage c wasm txs ledger := separateStorage_of_transfers htransfers
  obtain ⟨keys, hkeys⟩ := hstorage
  have hapart := executeApart_eq_runBatch c wasm leafOrder l ledger
  rw [runBatch_eq_runContents hkeys hfree hl] at hapart
  obtain ⟨hreceipts, hcontents⟩ := Prod.ext_iff.mp hapart
  obtain ⟨hreceipts', hcontents'⟩ :=
    Prod.ext_iff.mp (executeSequential_eq_run c wasm leafOrder' l' ledger)
  refine ⟨?_, ?_, ?_⟩
  · rw [runContents_contents hkeys hfree hl] at hcontents
    rw [runContents_contents hkeys hfree hl'] at hcontents'
    exact hcontents.trans hcontents'.symm
  · exact hreceipts.trans (runContents_receipts hkeys hfree hl)
  · exact hreceipts'.trans (runContents_receipts hkeys hfree hl')

section Sample

set_option maxRecDepth 20000 in
theorem independent_transfers_sample :
    let apart := executeApart sampleCrypto sampleWasm .sorted [sampleFirst, sampleAside]
      sampleLedger
    let sequential := executeSequential sampleCrypto sampleWasm .sorted
      [sampleAside, sampleFirst] sampleLedger
    apart.2.contents = sequential.2.contents ∧
      apart.1 = [sampleFirst, sampleAside].map
        (fun tx => (executeAlone sampleCrypto sampleWasm tx sampleLedger).1) ∧
      sequential.1 = [sampleAside, sampleFirst].map
        (fun tx => (executeAlone sampleCrypto sampleWasm tx sampleLedger).1) := by
  apply independent_transfers_commute sampleCrypto sampleWasm .sorted .sorted sampleLedger
    [sampleAside, sampleFirst]
  · intro tx htx
    simp only [List.mem_cons, List.not_mem_nil, or_false] at htx
    rcases htx with rfl | rfl <;> exact ⟨_, _, rfl⟩
  · rw [List.pairwise_pair]
    decide +kernel
  · exact List.Perm.swap _ _ _
  · exact List.Perm.refl _

end Sample

end ParallelExecutor

end CytahSpeed
