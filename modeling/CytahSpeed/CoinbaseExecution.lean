import CytahSpeed.BlockProducer

/-!
# Executing a produced block

The coinbase of a produced block is executed like any transfer: its sender must hold the reward and
must never have sent a transaction. If it goes through, the rest of the block runs as without it,
but for the accounts of the coinbase: the sender has the reward less and its nonce is one ahead, the
producer has the reward more.
-/

namespace CytahSpeed
open ByteString FiniteMap MachineInt StateManager TransactionExecutor

namespace BlockProducer

def besideCoinbase (reward : UInt64) (producer address : Address) (account : Account) : Account :=
  ⟨account.balance - (if address = coinbaseSender then reward else 0) +
      (if address = producer then reward else 0),
    account.nonce + if address = coinbaseSender then 1 else 0⟩

/-- The sender could pay for the transaction if the coinbase had been executed before. -/
def AffordsBeside (c : Crypto) (reward : UInt64) (producer : Address) (e : ContractExecutor)
    (a : Attempt) : Prop :=
  let account := besideCoinbase reward producer a.2.fromAddr
    (accountOrNew e.stateManager.stateTree a.2.fromAddr)
  match a.2.payload with
  | .transfer _ amount => account.nonce = a.2.nonce ∧
      satAdd amount (satMul a.2.gasLimit a.2.gasPrice) ≤ account.balance
  | _ => ∀ fee, e.contractFee c a.2 = some fee → fee = 0 ∨ fee ≤ account.balance

structure Beside (reward : UInt64) (producer : Address) (e e' : ContractExecutor) : Prop where
  account : ∀ a, accountOrNew e'.stateManager.stateTree a =
    besideCoinbase reward producer a (accountOrNew e.stateManager.stateTree a)
  registry : e'.registry = e.registry
  storage : e'.storage = e.storage
  runtime : e'.runtime = e.runtime

def accountAfter (tx : Transaction) (cost : UInt64) (address : Address) (account : Account) :
    Account :=
  match tx.payload with
  | .transfer toAddr amount =>
    let account := if address = tx.fromAddr then ⟨account.balance - cost, account.nonce + 1⟩
      else account
    if address = toAddr then ⟨account.balance + amount, account.nonce⟩ else account
  | _ => if address = tx.fromAddr then ⟨account.balance - cost, account.nonce⟩ else account

section Step
variable {c : Crypto} {reward : UInt64} {producer : Address} {e e' : ContractExecutor}
  {order : IterOrder Address Account} {tx : Transaction}

theorem accountAfter_besideCoinbase (tx : Transaction) (cost reward : UInt64)
    (producer address : Address) (account : Account) :
    accountAfter tx cost address (besideCoinbase reward producer address account) =
      besideCoinbase reward producer address (accountAfter tx cost address account) := by
  unfold accountAfter besideCoinbase
  cases tx.payload with
  | transfer toAddr amount =>
    by_cases hfrom : address = tx.fromAddr <;> by_cases hto : address = toAddr <;>
      simp only [hfrom, hto, if_true, if_false, Account.mk.injEq] <;> grind
  | contractDeploy wasmCode initArgs =>
    simp only
    grind
  | contractCall contractAddress method args =>
    simp only
    grind

/-- What an accepted transaction takes from its sender. -/
def transactionCost (c : Crypto) (e : ContractExecutor) (tx : Transaction) : UInt64 :=
  match tx.payload with
  | .transfer _ amount => satAdd amount (satMul tx.gasLimit tx.gasPrice)
  | _ => (e.contractFee c tx).getD 0

theorem step_of_accepts_contract (order : IterOrder Address Account)
    (hcontract : ∀ toAddr amount, tx.payload ≠ .transfer toAddr amount) (h : e.Accepts c tx) :
    ∃ fee, e.contractFee c tx = some fee ∧ e.Payable tx fee ∧
      (step c e (order, tx)).stateManager =
        (e.stateManager.deductFee c order tx.fromAddr fee).2 ∧
      (step c e (order, tx)).registry = e.registered c tx := by
  have hout := ContractExecutor.executeTransaction_contract c order e hcontract
  obtain ⟨used, hok⟩ := (ContractExecutor.executeTransaction_ok_iff c order e tx).mpr h
  obtain ⟨-, -, hr⟩ := hout.of_ok hok
  obtain ⟨-, -, fee, hfee, hpay⟩ := (ContractExecutor.accepts_contract hcontract).mp h
  rcases hout.stateManager with ⟨fee', hfee', hpay', hs⟩ | ⟨hunpaid, -⟩
  · exact ⟨fee', hfee', hpay', hs, hr⟩
  · exact absurd hpay (hunpaid fee hfee)

theorem account_step (order : IterOrder Address Account) (h : e.Accepts c tx)
    (address : Address) : accountOrNew (step c e (order, tx)).stateManager.stateTree address =
      accountAfter tx (transactionCost c e tx) address
        (accountOrNew e.stateManager.stateTree address) := by
  rcases ContractExecutor.transfer_or_contract tx with ⟨toAddr, amount, hp⟩ | hcontract
  · rw [ContractExecutor.accepts_transfer hp] at h
    rcases ContractExecutor.executeTransaction_transfer c order e hp with ⟨-, he⟩ | ⟨hnot, -⟩
    · unfold step accountAfter transactionCost
      simp only [he, hp]
      exact accountOrNew_applyTransfer h address
    · exact absurd h hnot
  · obtain ⟨fee, hfee, hpay, hs, -⟩ := step_of_accepts_contract order hcontract h
    rw [hs, accountOrNew_deductFee order hpay]
    unfold accountAfter transactionCost
    cases hp : tx.payload with
    | transfer toAddr amount => exact absurd hp (hcontract toAddr amount)
    | contractDeploy wasmCode initArgs => simp only [hfee, Option.getD_some, balanceAt, nonceAt]
    | contractCall contractAddress method args =>
      simp only [hfee, Option.getD_some, balanceAt, nonceAt]

theorem step_transfer_rest (c : Crypto) (e : ContractExecutor) (order : IterOrder Address Account)
    {toAddr : Address} {amount : UInt64} (hp : tx.payload = .transfer toAddr amount) :
    (step c e (order, tx)).registry = e.registry ∧ (step c e (order, tx)).storage = e.storage ∧
      (step c e (order, tx)).runtime = e.runtime := by
  unfold step
  rcases ContractExecutor.executeTransaction_transfer c order e hp with ⟨-, he⟩ | ⟨-, err, he⟩ <;>
    rw [he] <;> exact ⟨rfl, rfl, rfl⟩

theorem Beside.eq (h : Beside reward producer e e') :
    e' = ⟨e'.stateManager, e.registry, e.storage, e.runtime⟩ := by
  rw [← h.registry, ← h.storage, ← h.runtime]

theorem Beside.contractFee (h : Beside reward producer e e') (tx : Transaction) :
    e'.contractFee c tx = e.contractFee c tx := by
  rw [h.eq]
  rfl

/-- A transaction that is accepted without the coinbase is accepted after it if its sender can
still pay. -/
theorem Beside.accepts_iff (h : Beside reward producer e e')
    (order : IterOrder Address Account) (haccepts : e.Accepts c tx) :
    e'.Accepts c tx ↔ AffordsBeside c reward producer e (order, tx) := by
  rcases ContractExecutor.transfer_or_contract tx with ⟨toAddr, amount, hp⟩ | hcontract
  · rw [ContractExecutor.accepts_transfer hp] at haccepts ⊢
    unfold AffordsBeside
    simp only [hp, ← h.account]
    exact ⟨fun ht => ⟨ht.next, ht.covered⟩, fun ht => ⟨haccepts.positive, ht.1, ht.2⟩⟩
  · have hrun : e'.RunOk c tx ↔ e.RunOk c tx := by
      rw [h.eq]
      exact Iff.rfl
    have hfree : e'.AddressFree c tx ↔ e.AddressFree c tx := by
      rw [h.eq]
      exact Iff.rfl
    rw [ContractExecutor.accepts_contract hcontract] at haccepts ⊢
    rw [hrun, hfree, h.contractFee]
    obtain ⟨hrun, hfree, fee, hfee, -⟩ := haccepts
    have haffords : AffordsBeside c reward producer e (order, tx) ↔
        ∀ fee, e.contractFee c tx = some fee → e'.Payable tx fee := by
      unfold AffordsBeside ContractExecutor.Payable
      simp only [← h.account]
    rw [haffords, hfee]
    constructor
    · rintro ⟨-, -, fee', hfee', hpay⟩ fee'' hfee''
      cases hfee'
      cases hfee''
      exact hpay
    · exact fun hpay => ⟨hrun, hfree, fee, rfl, hpay fee rfl⟩

theorem Beside.advance (h : Beside reward producer e e') (order : IterOrder Address Account)
    (haccepts : e.Accepts c tx) (haccepts' : e'.Accepts c tx) :
    Beside reward producer (step c e (order, tx))
      (step c e' (order, tx)) := by
  have hcost : transactionCost c e' tx = transactionCost c e tx := by
    unfold transactionCost
    rw [h.contractFee]
  have haccount : ∀ a,
      accountOrNew (step c e' (order, tx)).stateManager.stateTree a =
        besideCoinbase reward producer a
          (accountOrNew (step c e (order, tx)).stateManager.stateTree a) := by
    intro a
    rw [account_step order haccepts', account_step order haccepts, hcost, h.account,
      accountAfter_besideCoinbase]
  rcases ContractExecutor.transfer_or_contract tx with ⟨toAddr, amount, hp⟩ | hcontract
  · obtain ⟨hr, hs, ht⟩ := step_transfer_rest c e order hp
    obtain ⟨hr', hs', ht'⟩ := step_transfer_rest c e' order hp
    exact ⟨haccount, hr'.trans (h.registry.trans hr.symm), hs'.trans (h.storage.trans hs.symm),
      ht'.trans (h.runtime.trans ht.symm)⟩
  · have hout := ContractExecutor.executeTransaction_contract c order e hcontract
    have hout' := ContractExecutor.executeTransaction_contract c order e' hcontract
    obtain ⟨-, -, -, -, hr⟩ := step_of_accepts_contract order hcontract haccepts
    obtain ⟨-, -, -, -, hr'⟩ := step_of_accepts_contract order hcontract haccepts'
    refine ⟨haccount, ?_, ?_, hout'.runtime.trans (h.runtime.trans hout.runtime.symm)⟩
    · rw [hr, hr', h.eq]
      rfl
    · refine hout'.storage.trans (Eq.trans ?_ hout.storage.symm)
      rw [h.eq]
      rfl

theorem transactionCost_coinbase (c : Crypto) (e : ContractExecutor) (producer : Address)
    (reward : UInt64) : transactionCost c e (coinbaseTx producer reward) = reward := by
  have hfee : satMul 0 0 = 0 := by decide
  have hbound := reward.toNat_lt
  change satAdd reward (satMul 0 0) = reward
  rw [hfee]
  apply UInt64.toNat_inj.mp
  rw [toNat_satAdd, UInt64.toNat_zero, Nat.add_zero]
  exact Nat.min_eq_left (Nat.le_of_lt_succ hbound)

theorem beside_coinbase (order : IterOrder Address Account)
    (h : e.Accepts c (coinbaseTx producer reward)) :
    Beside reward producer e (step c e (order, coinbaseTx producer reward)) := by
  have hp : (coinbaseTx producer reward).payload = .transfer producer reward := rfl
  obtain ⟨hr, hs, ht⟩ := step_transfer_rest c e order hp
  refine ⟨?_, hr, hs, ht⟩
  intro a
  rw [account_step order h, transactionCost_coinbase]
  obtain ⟨balance, nonce⟩ := accountOrNew e.stateManager.stateTree a
  simp only [accountAfter, besideCoinbase, coinbaseTx, Transaction.newTransfer]
  by_cases hsender : a = coinbaseSender <;> by_cases hproducer : a = producer <;>
    simp only [hsender, hproducer, if_true, if_false, Account.mk.injEq] <;> grind

theorem accepts_coinbase_iff : e.Accepts c (coinbaseTx producer reward) ↔
    e.stateManager.Transferable coinbaseSender reward 0 0 :=
  ContractExecutor.accepts_transfer rfl

end Step

def AppliesInOrder (c : Crypto) (order : IterOrder Address Account) (e : ContractExecutor)
    (txs : List Transaction) : Prop :=
  (executeLoop c order e 0 0 txs).1.success = true

section Loop
variable {c : Crypto} {order : IterOrder Address Account} {reward : UInt64} {producer : Address}

theorem success_executeLoop (e : ContractExecutor) (txs : List Transaction) (n n' : ℕ)
    (fees fees' : UInt64) : (executeLoop c order e n fees txs).1.success =
      (executeLoop c order e n' fees' txs).1.success := by
  induction txs generalizing e n n' fees fees' with
  | nil => rfl
  | cons tx txs ih =>
    unfold executeLoop
    rcases e.executeTransaction c order tx with ⟨err | used, e'⟩
    · rfl
    · exact ih e' _ _ _ _

theorem appliesInOrder_cons (e : ContractExecutor) (tx : Transaction) (txs : List Transaction) :
    AppliesInOrder c order e (tx :: txs) ↔
      e.Accepts c tx ∧ AppliesInOrder c order (step c e (order, tx)) txs := by
  rw [← ContractExecutor.executeTransaction_ok_iff c order e tx]
  rw [AppliesInOrder, executeLoop, AppliesInOrder, step]
  rcases e.executeTransaction c order tx with ⟨err | used, e'⟩
  · simp
  · simp only [Except.ok.injEq, exists_eq', true_and]
    rw [success_executeLoop e' txs _ 0 _ 0]

theorem Beside.applies_iff (txs : List Transaction) {e e' : ContractExecutor}
    (h : Beside reward producer e e') (happlies : AppliesInOrder c order e txs) :
    AppliesInOrder c order e' txs ↔
      StepRun.Along (step c) (AffordsBeside c reward producer) e
        (txs.map fun tx => (order, tx)) := by
  induction txs generalizing e e' with
  | nil => exact iff_of_true rfl trivial
  | cons tx txs ih =>
    rw [appliesInOrder_cons] at happlies ⊢
    rw [List.map_cons, StepRun.Along, h.accepts_iff order happlies.1]
    apply and_congr_right
    intro haffords
    have haccepts' := (h.accepts_iff order happlies.1).mpr haffords
    exact ih (h.advance order happlies.1 haccepts') happlies.2

end Loop

/-- Every block that is returned is executed, if the transactions behind its coinbase apply in their
order to the state that the producer and the executor share. -/
def ProducedBlockExecutes (c : Crypto) (scale : RewardScale) (env : ProducerEnv)
    (order : IterOrder Address Account) (p : BlockProducer) (mempool : TxDagMempool)
    (dag : BlockDag) (ex : TransactionExecutor) (difficulty : UInt32) (baseFee : UInt64) : Prop :=
  ∀ block, (p.createBlock c scale env mempool dag ex.contractExecutor.stateManager difficulty
      baseFee).1 = .ok block →
    AppliesInOrder c order ex.contractExecutor (p.selectTransactions env mempool baseFee) →
      (ex.executeBlock c order block).1.success = true

/-- A produced block is executed exactly if the sender of the coinbase holds the reward and has not
sent anything, and the senders of the other transactions can pay beside it. -/
theorem producedBlockExecutes_iff (c : Crypto) (scale : RewardScale) (env : ProducerEnv)
    (order : IterOrder Address Account) (p : BlockProducer) (mempool : TxDagMempool)
    (dag : BlockDag) (ex : TransactionExecutor) (difficulty : UInt32) (baseFee : UInt64) :
    ProducedBlockExecutes c scale env order p mempool dag ex difficulty baseFee ↔
      ∀ block, (p.createBlock c scale env mempool dag ex.contractExecutor.stateManager difficulty
          baseFee).1 = .ok block →
        AppliesInOrder c order ex.contractExecutor (p.selectTransactions env mempool baseFee) →
          let reward := expectedReward scale dag ex.contractExecutor.stateManager env.tips
            (p.selectTransactions env mempool baseFee).length
          ex.contractExecutor.stateManager.Transferable coinbaseSender reward 0 0 ∧
            StepRun.Along (step c) (AffordsBeside c reward p.producerId) ex.contractExecutor
              ((p.selectTransactions env mempool baseFee).map fun tx => (order, tx)) := by
  unfold ProducedBlockExecutes
  apply forall_congr'
  intro block
  apply imp_congr_right
  intro hblock
  apply imp_congr_right
  intro happlies
  have hloop : (ex.executeBlock c order block).1.success = true ↔
      AppliesInOrder c order ex.contractExecutor
        (p.blockTransactions scale env mempool dag ex.contractExecutor.stateManager baseFee) := by
    rw [← transactions_createBlock hblock]
    exact Iff.rfl
  rw [hloop, blockTransactions, appliesInOrder_cons, accepts_coinbase_iff]
  apply and_congr_right
  intro hcoinbase
  exact (beside_coinbase order (accepts_coinbase_iff.mpr hcoinbase)).applies_iff _ happlies

section Sample
open ParallelExecutor

def samplePool : TxDagMempool := (TxDagMempool.new 10 1).addToPool .hashOnly sampleAside [] 0

def sampleProducer : BlockProducer := ⟨sampleMiner, 0, 0, 10⟩

def sampleProducerEnv : ProducerEnv := ⟨.sorted, .sorted, 1000, 1000⟩

def sampleScale : RewardScale := fun _ _ _ => 99

def sampleProduced : Block :=
  .new .hashOnly [] 1000 [coinbaseTx sampleMiner 99, sampleAside] 0 0 0 sampleMiner (Bytes.zero 32)

set_option maxRecDepth 20000 in
/-- The transfer applies, and the block with it fails at its coinbase. -/
theorem sampleProduced_fails :
    (AppliesInOrder .hashOnly .sorted (fundedExecutor ⟨∅⟩).contractExecutor
        [sampleAside] ∧
      (sampleProducer.createBlock .hashOnly sampleScale sampleProducerEnv samplePool .empty
        (fundedExecutor ⟨∅⟩).contractExecutor.stateManager 0 0).1 =
          .ok sampleProduced ∧
      ((fundedExecutor ⟨∅⟩).executeBlock .hashOnly .sorted sampleProduced).1.success =
        false) ∧
      ¬ ProducedBlockExecutes .hashOnly sampleScale sampleProducerEnv .sorted sampleProducer
        samplePool .empty (fundedExecutor ⟨∅⟩) 0 0 := by
  have happlies : AppliesInOrder .hashOnly .sorted
      (fundedExecutor ⟨∅⟩).contractExecutor [sampleAside] := by
    unfold AppliesInOrder
    decide +kernel
  have hcreated : (sampleProducer.createBlock .hashOnly sampleScale sampleProducerEnv samplePool
      .empty (fundedExecutor ⟨∅⟩).contractExecutor.stateManager 0 0).1 =
        .ok sampleProduced := by decide +kernel
  have hselected : sampleProducer.selectTransactions sampleProducerEnv samplePool 0 =
      [sampleAside] := by decide +kernel
  have hfails : ((fundedExecutor ⟨∅⟩).executeBlock .hashOnly .sorted
      sampleProduced).1.success = false := by decide +kernel
  refine ⟨⟨happlies, hcreated, hfails⟩, ?_⟩
  intro h
  rw [← hselected] at happlies
  have hsucceeds := h sampleProduced hcreated happlies
  rw [hfails] at hsucceeds
  cases hsucceeds

end Sample

end BlockProducer

end CytahSpeed
