import CytahSpeed.ContractFunds
import CytahSpeed.ReplicaAgreement

/-!
# The balances under parallel execution

The transactions of a batch touch different accounts, so each takes its fee out of the balances as
if it ran alone on the ledger that the merges before it have left. No block brings a balance into
being. More than the fees is lost by a transfer to oneself and by a deployment at an address that
holds a balance; blocks without the two lose the fees and nothing else.
-/

namespace CytahSpeed
open ByteString FiniteMap MachineInt StateManager TraceOrder

namespace ParallelExecutor

/-- At least the fee is gone, and if nothing is thrown away and nothing saturates, no more. -/
structure Takes (fee : ℕ) (plain : Prop) (before after : ℕ) : Prop where
  atLeast : after + fee ≤ before
  atMost : plain → before < u64Max → before ≤ after + fee

theorem Takes.nothing (plain : Prop) (n : ℕ) : Takes 0 plain n n :=
  ⟨le_rfl, fun _ _ => le_rfl⟩

theorem Takes.trans {fee fee' m n k : ℕ} {plain plain' : Prop} (h : Takes fee plain m n)
    (h' : Takes fee' plain' n k) : Takes (fee + fee') (plain ∧ plain') m k := by
  have hle := h.atLeast
  have hle' := h'.atLeast
  constructor
  · omega
  · intro hplain hm
    have hge := h.atMost hplain.1 hm
    have hge' := h'.atMost hplain.2 (by omega)
    omega

theorem Takes.mono {fee m n : ℕ} {plain plain' : Prop} (h : Takes fee plain m n)
    (hplain : plain' → plain) : Takes fee plain' m n :=
  ⟨h.atLeast, fun hp => h.atMost (hplain hp)⟩

def balances (accounts : Map Address Account) : ℕ :=
  weight (fun _ account => account.balance.toNat) accounts

/-- The fee that a transaction with this receipt has paid. -/
def chargedFee (tx : Transaction) (r : TransactionReceipt) : ℕ :=
  if r.success then (satMul r.gasUsed tx.gasPrice).toNat else 0

def blockFees (c : Crypto) (txs : List Transaction) (receipts : List TransactionReceipt) : ℕ :=
  (txs.map fun tx => (receiptOf receipts (tx.hash c)).elim 0 (chargedFee tx)).sum

def chainFees (c : Crypto) (es : List Execution) (receipts : List (List TransactionReceipt)) : ℕ :=
  (List.zipWith (fun e r => blockFees c e.txs r) es receipts).sum

/-- The transaction throws no balance away: it is no transfer to its sender and no deployment. -/
def KeepsFunds (tx : Transaction) : Prop :=
  match tx.payload with
  | .transfer toAddr _ => toAddr ≠ tx.fromAddr
  | .contractDeploy _ _ => False
  | .contractCall _ _ _ => True

instance : DecidablePred KeepsFunds
  | ⟨fromAddr, .transfer toAddr _, _, _, _, _⟩ => inferInstanceAs (Decidable (toAddr ≠ fromAddr))
  | ⟨_, .contractDeploy _ _, _, _, _, _⟩ => inferInstanceAs (Decidable False)
  | ⟨_, .contractCall _ _ _, _, _, _, _⟩ => inferInstanceAs (Decidable True)

section Transaction
variable {c : Crypto} {wasm : Wasm} {tx : Transaction} {base : Ledger}
  {accounts : Map Address Account}

theorem executeAlone_transfer_of_success {toAddr : Address} {amount : UInt64}
    (hp : tx.payload = .transfer toAddr amount)
    (hok : (executeAlone c wasm tx base).1.success = true) :
    amount.toNat + (satMul tx.gasLimit tx.gasPrice).toNat ≤
        (accountOrNew base.state.stateTree tx.fromAddr).balance.toNat ∧
      executeAlone c wasm tx base =
        (success c tx tx.gasLimit, transferOverlay base.state tx toAddr amount) := by
  have heq := executeAlone_eq_of_success hok
  rw [hp] at heq
  rw [heq] at hok
  simp only [executeTransfer] at heq hok
  by_cases hless : (accountOrNew base.state.stateTree tx.fromAddr).balance <
      satAdd amount (satMul tx.gasLimit tx.gasPrice)
  · rw [if_pos hless] at hok
    cases hok
  · rw [if_neg hless] at heq hok
    rcases chargeFee_cases tx
      ⟨satSub (accountOrNew base.state.stateTree tx.fromAddr).balance amount,
        (accountOrNew base.state.stateTree tx.fromAddr).nonce + 1⟩ tx.gasLimit with
      ⟨e, hcharge⟩ | ⟨hfee, hcharge⟩
    · rw [hcharge] at hok
      cases hok
    · rw [hcharge] at heq
      refine ⟨?_, heq⟩
      have hamount := toNat_le_u64Max amount
      have hbalance := toNat_le_u64Max (accountOrNew base.state.stateTree tx.fromAddr).balance
      rw [UInt64.lt_iff_toNat_lt, toNat_satAdd] at hless
      rw [UInt64.le_iff_toNat_le, toNat_satSub] at hfee
      omega

/-- The accounts hold what the ledger holds, as far as the transaction touches them. -/
def SeenAlike (c : Crypto) (base : Ledger) (tx : Transaction) (accounts : Map Address Account) :
    Prop :=
  ∀ a ∈ touched c tx, accounts.lookup a = base.state.stateTree.leaves.lookup a

theorem weightAt_of_seenAlike (h : SeenAlike c base tx accounts) {a : Address}
    (ha : a ∈ touched c tx) : weightAt (fun _ account => account.balance.toNat) accounts a =
      (accountOrNew base.state.stateTree a).balance.toNat := by
  rw [weightAt, h a ha]
  exact weightAt_balance base.state.stateTree a

theorem balances_insert (accounts : Map Address Account) (a : Address) (account : Account) :
    balances (accounts.insert a account) +
        weightAt (fun _ account => account.balance.toNat) accounts a =
      balances accounts + account.balance.toNat :=
  weight_insert _ accounts a account

theorem takes_transfer {toAddr : Address} {amount : UInt64}
    (hp : tx.payload = .transfer toAddr amount) (h : SeenAlike c base tx accounts)
    (hcovered : amount.toNat + (satMul tx.gasLimit tx.gasPrice).toNat ≤
      (accountOrNew base.state.stateTree tx.fromAddr).balance.toNat) :
    Takes (satMul tx.gasLimit tx.gasPrice).toNat (toAddr ≠ tx.fromAddr) (balances accounts)
      (balances ((transferOverlay base.state tx toAddr amount).modifiedAccounts ∪ accounts)) := by
  have hto : toAddr ∈ touched c tx := counterparty_mem_touched (by rw [counterparty, hp])
  have hsender := weightAt_of_seenAlike h from_mem_touched
  have hreceiver := weightAt_of_seenAlike h hto
  have hmax := toNat_le_u64Max (accountOrNew base.state.stateTree tx.fromAddr).balance
  have hread : (Overlay.new.writeAccount tx.fromAddr
      ⟨satSub (accountOrNew base.state.stateTree tx.fromAddr).balance amount,
        (accountOrNew base.state.stateTree tx.fromAddr).nonce + 1⟩).readAccount toAddr base.state =
      if toAddr = tx.fromAddr then
        ⟨satSub (accountOrNew base.state.stateTree tx.fromAddr).balance amount,
          (accountOrNew base.state.stateTree tx.fromAddr).nonce + 1⟩
      else accountOrNew base.state.stateTree toAddr := readAccount_writeAccount _ _ _ _ _
  simp only [transferOverlay, hread]
  simp only [Overlay.writeAccount]
  rw [← Finmap.insert_union, ← Finmap.insert_union, ← Finmap.insert_union]
  have hunion : Overlay.new.modifiedAccounts ∪ accounts = accounts := Finmap.empty_union
  rw [hunion]
  generalize accountOrNew base.state.stateTree tx.fromAddr = sender at *
  generalize accountOrNew base.state.stateTree toAddr = receiver at *
  -- the three writes, one after the other
  have hpaid := balances_insert accounts tx.fromAddr
    ⟨satSub sender.balance amount, sender.nonce + 1⟩
  rw [hsender, toNat_satSub] at hpaid
  generalize hone : accounts.insert tx.fromAddr ⟨satSub sender.balance amount, sender.nonce + 1⟩ =
    one at hpaid ⊢
  by_cases hself : toAddr = tx.fromAddr
  · simp only [if_pos hself]
    rw [hself]
    have hat : weightAt (fun _ account => account.balance.toNat) one tx.fromAddr =
        sender.balance.toNat - amount.toNat := by
      rw [← hone, weightAt_insert, if_pos rfl, toNat_satSub]
    have htwo := balances_insert one tx.fromAddr
      ⟨satAdd (satSub sender.balance amount) amount, sender.nonce + 1⟩
    have hthree := balances_insert (one.insert tx.fromAddr
        ⟨satAdd (satSub sender.balance amount) amount, sender.nonce + 1⟩) tx.fromAddr
      ⟨satSub (satSub sender.balance amount) (satMul tx.gasLimit tx.gasPrice), sender.nonce + 1⟩
    rw [hat] at htwo
    rw [weightAt_insert, if_pos rfl] at hthree
    simp only [toNat_satAdd, toNat_satSub] at htwo hthree
    exact ⟨by omega, fun hne => absurd rfl hne⟩
  · simp only [if_neg hself]
    have hat : weightAt (fun _ account => account.balance.toNat) one toAddr =
        receiver.balance.toNat := by
      rw [← hone, weightAt_insert, if_neg hself, hreceiver]
    have hle := weightAt_le (fun _ account => account.balance.toNat) one toAddr
    have htwo := balances_insert one toAddr
      ⟨satAdd receiver.balance amount, receiver.nonce⟩
    have hthree := balances_insert (one.insert toAddr
        ⟨satAdd receiver.balance amount, receiver.nonce⟩) tx.fromAddr
      ⟨satSub (satSub sender.balance amount) (satMul tx.gasLimit tx.gasPrice), sender.nonce + 1⟩
    rw [hat] at htwo hle
    rw [weightAt_insert, if_neg (Ne.symm hself), ← hone, weightAt_insert, if_pos rfl] at hthree
    rw [hone] at hthree
    simp only [toNat_satAdd, toNat_satSub] at htwo hthree
    change receiver.balance.toNat ≤ balances one at hle
    constructor
    · omega
    · intro _ hfits
      omega

theorem takes_charged {used : UInt64} (h : SeenAlike c base tx accounts)
    (hcovered : satMul used tx.gasPrice ≤ (accountOrNew base.state.stateTree tx.fromAddr).balance) :
    Takes (satMul used tx.gasPrice).toNat True (balances accounts)
      (balances (accounts.insert tx.fromAddr (chargedSender base tx used))) := by
  have hsender := weightAt_of_seenAlike h from_mem_touched
  have hpaid := balances_insert accounts tx.fromAddr (chargedSender base tx used)
  have hle := UInt64.le_iff_toNat_le.mp hcovered
  rw [hsender] at hpaid
  simp only [chargedSender, toNat_satSub] at hpaid ⊢
  exact ⟨by omega, fun _ _ => by omega⟩

theorem takes_deploy {used : UInt64} {address : Address} (h : SeenAlike c base tx accounts)
    (hcovered : satMul used tx.gasPrice ≤ (accountOrNew base.state.stateTree tx.fromAddr).balance) :
    Takes (satMul used tx.gasPrice).toNat False (balances accounts)
      (balances ((accounts.insert tx.fromAddr (chargedSender base tx used)).insert address
        ⟨0, 0⟩)) := by
  have hpaid := (takes_charged h hcovered).atLeast
  have hempty := balances_insert (accounts.insert tx.fromAddr (chargedSender base tx used)) address
    ⟨0, 0⟩
  rw [UInt64.toNat_zero] at hempty
  exact ⟨by omega, False.elim⟩

/-- What a transaction takes out of the balances when its result is merged, though other accounts
have changed since it was executed. -/
theorem takes_applyResult (wasm : Wasm) {s : Contents} (h : SeenAlike c base tx s.accounts) :
    Takes (chargedFee tx (executeAlone c wasm tx base).1) (KeepsFunds tx) (balances s.accounts)
      (balances (applyResult (executeAlone c wasm tx base) s).accounts) := by
  by_cases hok : (executeAlone c wasm tx base).1.success = true
  · unfold applyResult chargedFee KeepsFunds
    rw [if_pos hok, if_pos hok]
    cases hp : tx.payload with
    | transfer toAddr amount =>
      obtain ⟨hcovered, heq⟩ := executeAlone_transfer_of_success hp hok
      rw [heq]
      exact takes_transfer hp h hcovered
    | contractDeploy wasmCode initArgs =>
      obtain ⟨used, hs⟩ := succeeds_deploy hp hok
      simp only [hs.receipt, hs.accounts]
      rw [← Finmap.insert_union, ← Finmap.insert_union, Finmap.empty_union]
      exact takes_deploy h hs.covered
    | contractCall address method args =>
      obtain ⟨used, hs⟩ := succeeds_call hp hok
      simp only [hs.receipt, hs.accounts]
      rw [← Finmap.insert_union, Finmap.empty_union]
      exact takes_charged h hs.covered
  · unfold applyResult chargedFee
    rw [if_neg hok, if_neg hok]
    exact Takes.nothing _ _

end Transaction

section Batch
variable {c : Crypto} {wasm : Wasm} {base : Ledger}

theorem runsWithinKeys_univ (c : Crypto) (wasm : Wasm) (tx : Transaction) (s : Contents) :
    RunsWithinKeys c (fun _ => Set.univ) tx wasm s := by
  have hwithin : ∀ code address, wasm.RunsWithin code address Set.univ := by
    intro code address caller gasLimit entry storage
    refine ⟨?_, fun _ _ k _ => Set.mem_univ k⟩
    intro storage' hsame
    rw [Finmap.ext_lookup fun k => hsame k (Set.mem_univ k)]
  unfold RunsWithinKeys
  cases tx.payload with
  | transfer toAddr amount => exact trivial
  | contractDeploy wasmCode initArgs => exact hwithin _ _
  | contractCall address method args => exact fun info _ => hwithin _ _

theorem lookup_applyResult_of_notMem {tx : Transaction} {s : Contents} {a : Address}
    (ha : a ∉ touched c tx) :
    (applyResult (executeAlone c wasm tx base) s).accounts.lookup a = s.accounts.lookup a := by
  have hwithin := executeAlone_within (runsWithinKeys_univ c wasm tx base.contents)
  rw [← executeAlone_contents] at hwithin
  unfold applyResult
  split
  · have hnot : a ∉ (executeAlone c wasm tx base).2.modifiedAccounts :=
      fun h => ha (hwithin.accounts a h)
    rw [lookup_union, Finmap.lookup_eq_none.mpr hnot, Option.none_or]
  · rfl

theorem takes_runBatch (wasm : Wasm) (batch : List Transaction) (s : Contents)
    (hpair : batch.Pairwise fun t u => ¬ conflicts c t u)
    (hseen : ∀ tx ∈ batch, SeenAlike c base tx s.accounts) :
    Takes (batch.map fun tx => chargedFee tx (executeAlone c wasm tx base).1).sum
      (∀ tx ∈ batch, KeepsFunds tx) (balances s.accounts)
      (balances (runBatch (fun tx s => executeAlone c wasm tx (Contents.ledger s)) applyResult
        base.contents batch s).2.accounts) := by
  induction batch generalizing s with
  | nil => exact Takes.nothing _ _
  | cons tx batch ih =>
    obtain ⟨hfirst, hpair⟩ := List.pairwise_cons.mp hpair
    obtain ⟨htx, hseen⟩ := List.forall_mem_cons.mp hseen
    have hrest := ih (applyResult (executeAlone c wasm tx base) s) hpair (by
      intro u hu a ha
      have hapart : Disjoint (touched c tx) (touched c u) := by
        by_contra hd
        exact hfirst u hu (conflicts_iff.mpr hd)
      rw [lookup_applyResult_of_notMem (Finset.disjoint_right.mp hapart ha)]
      exact hseen u hu a ha)
    rw [List.map_cons, List.sum_cons, runBatch, ← executeAlone_contents]
    exact ((takes_applyResult wasm htx).trans hrest).mono List.forall_mem_cons.mp

theorem takes_executeBatch (wasm : Wasm) (base : Ledger) (leafOrder : IterOrder Address Account)
    {batch : List Transaction} (hpair : batch.Pairwise fun t u => ¬ conflicts c t u) :
    Takes (List.zipWith chargedFee (sortByHash c batch)
        (executeBatch c wasm leafOrder batch base).1).sum
      (∀ tx ∈ batch, KeepsFunds tx) (balanceSum base.state.stateTree)
      (balanceSum (executeBatch c wasm leafOrder batch base).2.state.stateTree) := by
  have hperm := perm_sortByHash c batch
  have hsorted : (sortByHash c batch).Pairwise fun t u => ¬ conflicts c t u :=
    (hperm.pairwise_iff fun h hconf => h (conflicts_symm hconf)).mpr hpair
  have hrun := executeBatch_eq_runBatch c wasm leafOrder batch base
  have hreceipts := (congrArg Prod.fst hrun).trans (runBatch_fst _ _ _)
  have haccounts := congrArg (fun r => r.2.accounts) hrun
  have htakes := takes_runBatch wasm (sortByHash c batch) base.contents hsorted
    fun _ _ _ _ => rfl
  rw [← haccounts] at htakes
  have hfees : List.zipWith chargedFee (sortByHash c batch)
      (executeBatch c wasm leafOrder batch base).1 =
        (sortByHash c batch).map fun tx => chargedFee tx (executeAlone c wasm tx base).1 := by
    simp only at hreceipts
    rw [hreceipts, List.zipWith_map_right, List.zipWith_self]
    rfl
  rw [hfees]
  exact htakes.mono fun h tx htx => h tx (hperm.mem_iff.mp htx)

theorem takes_executeBatches (wasm : Wasm) (leafOrder : IterOrder Address Account)
    (batches : List (List Transaction))
    (hpair : ∀ b ∈ batches, b.Pairwise fun t u => ¬ conflicts c t u)
    (merged : List Transaction) (receipts : List TransactionReceipt)
    (hlength : merged.length = receipts.length) (base : Ledger) :
    let r := batches.foldl (fun acc batch =>
      let r := executeBatch c wasm leafOrder batch acc.2
      (acc.1 ++ r.1, r.2)) (receipts, base)
    ∃ fees, Takes fees (∀ b ∈ batches, ∀ tx ∈ b, KeepsFunds tx) (balanceSum base.state.stateTree)
        (balanceSum r.2.state.stateTree) ∧
      (List.zipWith chargedFee (merged ++ (batches.map (sortByHash c)).flatten) r.1).sum =
        (List.zipWith chargedFee merged receipts).sum + fees := by
  induction batches generalizing merged receipts base with
  | nil => exact ⟨0, Takes.nothing _ _, by simp⟩
  | cons batch batches ih =>
    obtain ⟨hbatch, hpair⟩ := List.forall_mem_cons.mp hpair
    have hhashes := congrArg List.length (map_txHash_executeBatch c wasm leafOrder batch base)
    rw [List.length_map, List.length_map] at hhashes
    obtain ⟨fees, htakes, hsum⟩ := ih hpair (merged ++ sortByHash c batch)
      (receipts ++ (executeBatch c wasm leafOrder batch base).1)
      (by rw [List.length_append, List.length_append, hlength, hhashes])
      (executeBatch c wasm leafOrder batch base).2
    have hfirst := takes_executeBatch wasm base leafOrder hbatch
    refine ⟨_, (hfirst.trans htakes).mono List.forall_mem_cons.mp, ?_⟩
    dsimp only at hsum ⊢
    rw [List.foldl_cons, List.map_cons, List.flatten_cons, ← List.append_assoc, hsum,
      List.zipWith_append hlength, List.sum_append, Nat.add_assoc]

theorem zipWith_chargedFee {txs : List Transaction} {receipts : List TransactionReceipt}
    (hd : DistinctHashes c txs) (h : receipts.map (·.txHash) = txs.map (Transaction.hash c)) :
    (List.zipWith chargedFee txs receipts).sum = blockFees c txs receipts := by
  have hnodup : (receipts.map (·.txHash)).Nodup := h ▸ hd
  have hlength := congrArg List.length h
  rw [List.length_map, List.length_map] at hlength
  unfold blockFees
  congr 1
  apply List.ext_getElem
  · rw [List.length_zipWith, List.length_map, hlength, min_self]
  · intro i hi hi'
    rw [List.length_map] at hi'
    have hhash : receipts[i].txHash = txs[i].hash c := by
      have hget : (receipts.map (·.txHash))[i]? = (txs.map (Transaction.hash c))[i]? := by rw [h]
      simpa [hi', hlength] using hget
    have hfound : receiptOf receipts (txs[i].hash c) = some receipts[i] :=
      (receiptOf_eq_some_iff hnodup).mpr ⟨List.getElem_mem _, hhash⟩
    rw [List.getElem_zipWith, List.getElem_map, hfound, Option.elim_some]

theorem takes_executeParallel (wasm : Wasm) (base : Ledger) {txs : List Transaction}
    (hd : DistinctHashes c txs) (leafOrder : IterOrder Address Account)
    (batchOrder : IterOrder ℕ (List Transaction)) :
    let r := executeBlockTransactionsParallel c wasm leafOrder batchOrder txs base
    Takes (blockFees c txs r.1) (∀ tx ∈ txs, KeepsFunds tx) (balanceSum base.state.stateTree)
      (balanceSum r.2.state.stateTree) := by
  intro r
  have hperm := perm_mergeOrder batchOrder hd
  have hmerged : DistinctHashes c (mergeOrder c batchOrder txs) := (hperm.map _).nodup_iff.mpr hd
  obtain ⟨fees, htakes, hsum⟩ := takes_executeBatches wasm leafOrder
    (scheduleParallelBatches c batchOrder txs) (fun b hb => batch_pairwise hd hb) [] [] rfl base
  have hfees : blockFees c txs r.1 = fees := by
    have hblock : blockFees c (mergeOrder c batchOrder txs) r.1 = blockFees c txs r.1 :=
      (hperm.map _).sum_eq
    rw [← hblock, ← zipWith_chargedFee hmerged
      (map_txHash_executeParallel c wasm leafOrder batchOrder txs base)]
    rw [List.nil_append, List.zipWith_nil_left, List.sum_nil, Nat.zero_add] at hsum
    exact hsum
  rw [hfees]
  apply htakes.mono
  intro h b hb tx htx
  exact h tx ((flatten_scheduleParallelBatches hd).subset (List.mem_flatten.mpr ⟨b, hb, htx⟩))

theorem takes_executeBlocks (wasm : Wasm) (es : List Execution) (ledger : Ledger)
    (hdistinct : ∀ e ∈ es, DistinctHashes c e.txs) :
    Takes (chainFees c es (executeBlocks c wasm es ledger).1)
      (∀ e ∈ es, ∀ tx ∈ e.txs, KeepsFunds tx) (balanceSum ledger.state.stateTree)
      (balanceSum (executeBlocks c wasm es ledger).2.state.stateTree) := by
  induction es generalizing ledger with
  | nil => exact Takes.nothing _ _
  | cons e es ih =>
    obtain ⟨hd, hdistinct⟩ := List.forall_mem_cons.mp hdistinct
    have hblock := takes_executeParallel wasm ledger hd e.leafOrder
      e.batchOrder
    have hrest := ih (executeBlockTransactionsParallel c wasm e.leafOrder e.batchOrder e.txs
      ledger).2 hdistinct
    exact (hblock.trans hrest).mono List.forall_mem_cons.mp

end Batch

end ParallelExecutor

end CytahSpeed
