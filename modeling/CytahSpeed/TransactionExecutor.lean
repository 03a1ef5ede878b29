import CytahSpeed.ContractExecutor
import CytahSpeed.StepRun

/-!
# The transaction executor

A block is executed one transaction after the other, up to the first that fails; what was executed
until then stays. The transactions attempted, with the failing one, are a run of the contract
executor, and what a block does is read off that run: the fees it collects, who pays without
having signed, and when a failed block leaves no trace.
-/

namespace CytahSpeed
open ByteString FiniteMap MachineInt ParallelExecutor StateManager

structure ExecutionResult where
  newStateRoot : Hash
  executedTransactions : ℕ
  success : Bool
  totalFees : UInt64
  deriving DecidableEq

structure TransactionExecutor where
  contractExecutor : ContractExecutor

namespace TransactionExecutor

variable (c : Crypto) (order : IterOrder Address Account)

/-- The loop of `execute_block`, with the transactions executed and the fees so far. -/
def executeLoop (e : ContractExecutor) (executed : ℕ) (totalFees : UInt64) :
    List Transaction → ExecutionResult × ContractExecutor
  | [] => (⟨e.stateManager.currentStateRoot, executed, true, totalFees⟩, e)
  | tx :: txs =>
    match e.executeTransaction c order tx with
    | (.ok used, e') =>
      executeLoop e' (executed + 1) (satAdd totalFees (satMul used tx.gasPrice)) txs
    | (.error _, e') => (⟨e'.stateManager.currentStateRoot, executed, false, totalFees⟩, e')

def executeBlock (ex : TransactionExecutor) (block : Block) :
    ExecutionResult × TransactionExecutor :=
  let r := executeLoop c order ex.contractExecutor 0 0 block.transactions
  (r.1, ⟨r.2⟩)

/-- A transaction, with the order in which accounts are iterated meanwhile. -/
abbrev Attempt := IterOrder Address Account × Transaction

def step (e : ContractExecutor) (a : Attempt) : ContractExecutor :=
  (e.executeTransaction c a.1 a.2).2

/-- The transactions that are attempted: all up to the first that fails, and that one. -/
def attempted (e : ContractExecutor) : List Transaction → List Attempt
  | [] => []
  | tx :: txs =>
    match e.executeTransaction c order tx with
    | (.ok _, e') => (order, tx) :: attempted e' txs
    | (.error _, _) => [(order, tx)]

section Loop
variable {c order} {e : ContractExecutor}

theorem executeLoop_eq_foldl (executed : ℕ) (totalFees : UInt64) (txs : List Transaction) :
    (executeLoop c order e executed totalFees txs).2 =
      (attempted c order e txs).foldl (step c) e := by
  induction txs generalizing e executed totalFees with
  | nil => rfl
  | cons tx txs ih =>
    unfold executeLoop attempted
    cases h : e.executeTransaction c order tx with
    | mk r e' =>
      have hstep : step c e (order, tx) = e' := congrArg Prod.snd h
      cases r with
      | ok used =>
        simp only [List.foldl_cons, hstep]
        exact ih _ _
      | error err => simp only [List.foldl_cons, List.foldl_nil, hstep]

theorem attempted_singleton (c : Crypto) (order : IterOrder Address Account)
    (e : ContractExecutor) (tx : Transaction) : attempted c order e [tx] = [(order, tx)] := by
  unfold attempted
  split <;> rfl

theorem attempted_sublist (c : Crypto) (order : IterOrder Address Account) (e : ContractExecutor)
    (txs : List Transaction) :
    ((attempted c order e txs).map Prod.snd).Sublist txs := by
  induction txs generalizing e with
  | nil => exact List.Sublist.refl _
  | cons tx txs ih =>
    unfold attempted
    cases h : e.executeTransaction c order tx with
    | mk r e' =>
      cases r with
      | ok used => exact (ih e').cons_cons tx
      | error err => exact (List.nil_sublist txs).cons_cons tx

theorem step_of_refused {a : Attempt} {toAddr : Address} {amount : UInt64}
    (hp : a.2.payload = .transfer toAddr amount) (hrefused : ¬ e.Accepts c a.2) :
    step c e a = e := by
  rw [ContractExecutor.accepts_transfer hp] at hrefused
  unfold step
  rcases ContractExecutor.executeTransaction_transfer c a.1 e hp with ⟨htr, -⟩ | ⟨-, err, he⟩
  · exact absurd htr hrefused
  · rw [he]

end Loop

section Fees
variable (e : ContractExecutor)

theorem balanceSum_deductFee {tx : Transaction} {fee : UInt64} (hpay : e.Payable tx fee) :
    balanceSum (e.stateManager.deductFee c order tx.fromAddr fee).2.stateTree + fee.toNat =
      balanceSum e.stateManager.stateTree := by
  simp only [deductFee]
  split_ifs with hzero hless
  · rw [hzero]
    rfl
  · rcases hpay with h | h
    · exact absurd h hzero
    · exact absurd hless (UInt64.not_lt.mpr h)
  · exact balanceSum_withdraw c order _ (UInt64.not_lt.mp hless)

theorem balanceSum_step {tx : Transaction} {used : UInt64}
    (hsum : balanceSum e.stateManager.stateTree < u64Max)
    (hok : (e.executeTransaction c order tx).1 = .ok used) :
    balanceSum (step c e (order, tx)).stateManager.stateTree + (satMul used tx.gasPrice).toNat =
      balanceSum e.stateManager.stateTree := by
  unfold step
  rcases ContractExecutor.transfer_or_contract tx with ⟨toAddr, amount, hp⟩ | hcontract
  · rcases ContractExecutor.executeTransaction_transfer c order e hp with
      ⟨htr, he⟩ | ⟨-, err, he⟩
    · rw [he] at hok ⊢
      cases hok
      rcases applyTransfer_cases c order e.stateManager tx.fromAddr toAddr amount tx.nonce
        (satMul tx.gasLimit tx.gasPrice) with ⟨t, -, ht, ha⟩ | ⟨hnot, -⟩
      · rw [ha]
        exact htr.balanceSum_add_fee hsum ht toAddr
      · exact absurd htr hnot
    · rw [he] at hok
      cases hok
  · obtain ⟨hpay, hs, -⟩ :=
      (ContractExecutor.executeTransaction_contract c order e hcontract).of_ok hok
    rw [hs]
    exact balanceSum_deductFee c order e hpay

theorem executeLoop_conserves (executed : ℕ) (totalFees : UInt64) (txs : List Transaction)
    (hsum : balanceSum e.stateManager.stateTree + totalFees.toNat < u64Max)
    (hsuccess : (executeLoop c order e executed totalFees txs).1.success = true) :
    (executeLoop c order e executed totalFees txs).1.executedTransactions =
        executed + txs.length ∧
      balanceSum (executeLoop c order e executed totalFees txs).2.stateManager.stateTree +
        (executeLoop c order e executed totalFees txs).1.totalFees.toNat =
          balanceSum e.stateManager.stateTree + totalFees.toNat := by
  induction txs generalizing e executed totalFees with
  | nil => exact ⟨rfl, rfl⟩
  | cons tx txs ih =>
    unfold executeLoop at hsuccess ⊢
    cases h : e.executeTransaction c order tx with
    | mk r e' =>
      rw [h] at hsuccess
      cases r with
      | error err => cases hsuccess
      | ok used =>
        have hstep : balanceSum e'.stateManager.stateTree + (satMul used tx.gasPrice).toNat =
            balanceSum e.stateManager.stateTree := by
          have hok : (e.executeTransaction c order tx).1 = .ok used := by rw [h]
          have hb := balanceSum_step c order e (by omega) hok
          unfold step at hb
          rwa [h] at hb
        have hfees : (satAdd totalFees (satMul used tx.gasPrice)).toNat =
            totalFees.toNat + (satMul used tx.gasPrice).toNat := by
          rw [toNat_satAdd]
          omega
        obtain ⟨hcount, hbalances⟩ := ih e' _ _ (by omega) hsuccess
        simp only at hcount hbalances ⊢
        rw [hcount, hbalances, List.length_cons]
        omega

theorem balanceSum_creditAccount {s : StateManager} {toAddr : Address} {amount : UInt64}
    (hfits : balanceSum s.stateTree + amount.toNat < 2 ^ 64)
    (hok : (s.creditAccount c order toAddr amount).1 = .ok ()) :
    balanceSum (s.creditAccount c order toAddr amount).2.stateTree =
      balanceSum s.stateTree + amount.toNat := by
  have hbal := balance_le_balanceSum s.stateTree toAddr
  simp only [creditAccount] at hok ⊢
  split_ifs at hok ⊢ with hzero hexceeds
  · rw [hzero]
    rfl
  · exact balanceSum_deposit c order _ (by omega)

end Fees

/-- A block that succeeds executes all its transactions and takes exactly its fees out of the sum
of balances; credited to the producer they restore it. -/
theorem executeBlock_conserves (c : Crypto) (order : IterOrder Address Account)
    (ex : TransactionExecutor) (block : Block)
    (hsum : balanceSum ex.contractExecutor.stateManager.stateTree < u64Max)
    (hsuccess : (ex.executeBlock c order block).1.success = true) :
    (ex.executeBlock c order block).1.executedTransactions = block.transactions.length ∧
      balanceSum (ex.executeBlock c order block).2.contractExecutor.stateManager.stateTree +
        (ex.executeBlock c order block).1.totalFees.toNat =
          balanceSum ex.contractExecutor.stateManager.stateTree ∧
      ∀ (creditOrder : IterOrder Address Account) (producer : Address),
        ((ex.executeBlock c order block).2.contractExecutor.stateManager.creditAccount c
          creditOrder producer (ex.executeBlock c order block).1.totalFees).1 = .ok () →
        balanceSum ((ex.executeBlock c order block).2.contractExecutor.stateManager.creditAccount
          c creditOrder producer (ex.executeBlock c order block).1.totalFees).2.stateTree =
            balanceSum ex.contractExecutor.stateManager.stateTree := by
  obtain ⟨hcount, hbalances⟩ := executeLoop_conserves c order ex.contractExecutor 0 0
    block.transactions (by simpa using hsum) hsuccess
  rw [Nat.zero_add] at hcount
  rw [UInt64.toNat_zero, Nat.add_zero] at hbalances
  refine ⟨hcount, hbalances, ?_⟩
  intro creditOrder producer hok
  have hword : u64Max < 2 ^ 64 := by decide
  have hfits : balanceSum (ex.executeBlock c order block).2.contractExecutor.stateManager.stateTree
      + (ex.executeBlock c order block).1.totalFees.toNat < 2 ^ 64 := by
    change balanceSum (executeLoop c order ex.contractExecutor 0 0
      block.transactions).2.stateManager.stateTree + (executeLoop c order ex.contractExecutor 0 0
        block.transactions).1.totalFees.toNat < 2 ^ 64
    omega
  rw [balanceSum_creditAccount c creditOrder hfits hok]
  exact hbalances

section Sample

def fundedExecutor (registry : ContractRegistry) : TransactionExecutor :=
  ⟨.new sampleEngine (fundedLedger .hashOnly registry).state registry ⟨∅⟩⟩

/-- A contract that answers `run` with the block height. -/
def heightRegistry : ContractRegistry :=
  ((ContractRegistry.mk ∅).registerContract (Bytes.fill 20 21) heightModule).2

def sampleBlockOf (transactions : List Transaction) : Block :=
  .new .hashOnly [] 1000 transactions 0 0 0 sampleMiner (Bytes.zero 32)

theorem transactions_sampleBlockOf (transactions : List Transaction) :
    (sampleBlockOf transactions).transactions = transactions := rfl

def sampleRegistration : Transaction :=
  ⟨sampleSenders.1, .contractDeploy heightModule [], 0, 21000, 1, .empty⟩

/-- Three transfers, a deployment that uses no gas, and a call that uses one unit. -/
def sampleMixed : Block := sampleBlockOf (sampleBlock ++ [sampleRegistration, sampleCallA])

def sampleMixedRun : ExecutionResult × TransactionExecutor :=
  (fundedExecutor heightRegistry).executeBlock .hashOnly .sorted sampleMixed

set_option maxRecDepth 20000 in
theorem executeBlock_conserves_sample :
    sampleMixedRun.1.executedTransactions = 5 ∧ sampleMixedRun.1.totalFees = 63001 ∧
      sampleMixedRun.2.contractExecutor.registry.getContract
        (deployAddress .hashOnly heightModule) ≠ none ∧
      balanceSum sampleMixedRun.2.contractExecutor.stateManager.stateTree + 63001 =
        balanceSum (fundedExecutor heightRegistry).contractExecutor.stateManager.stateTree ∧
      balanceSum (sampleMixedRun.2.contractExecutor.stateManager.creditAccount .hashOnly .sorted
          sampleMiner sampleMixedRun.1.totalFees).2.stateTree =
        balanceSum (fundedExecutor heightRegistry).contractExecutor.stateManager.stateTree := by
  have hfees : sampleMixedRun.1.totalFees = 63001 := by decide +kernel
  obtain ⟨hcount, hbalances, hcredit⟩ := executeBlock_conserves .hashOnly .sorted
    (fundedExecutor heightRegistry) sampleMixed (by decide +kernel) (by decide +kernel)
  have hcredited : (sampleMixedRun.2.contractExecutor.stateManager.creditAccount .hashOnly .sorted
      sampleMiner sampleMixedRun.1.totalFees).1 = .ok () := by decide +kernel
  change _ + sampleMixedRun.1.totalFees.toNat = _ at hbalances
  rw [hfees] at hbalances
  exact ⟨hcount, hfees, by decide +kernel, hbalances, hcredit .sorted sampleMiner hcredited⟩

end Sample

/-- A step does not lower the balance of the transaction's sender, nor raise the nonce. -/
def SparesSender (e : ContractExecutor) (a : Attempt) : Prop :=
  (accountOrNew e.stateManager.stateTree a.2.fromAddr).balance ≤
      (accountOrNew (step c e a).stateManager.stateTree a.2.fromAddr).balance ∧
    (accountOrNew (step c e a).stateManager.stateTree a.2.fromAddr).nonce ≤
      (accountOrNew e.stateManager.stateTree a.2.fromAddr).nonce

/-- The checks of the ledger let the transaction take something: a transfer that passes them, save
one to oneself that costs nothing and wraps the nonce, or a contract transaction that is charged. -/
def Spends (e : ContractExecutor) (tx : Transaction) : Prop :=
  match tx.payload with
  | .transfer toAddr amount =>
    e.stateManager.Transferable tx.fromAddr amount tx.nonce (satMul tx.gasLimit tx.gasPrice) ∧
      ¬ (tx.fromAddr = toAddr ∧ satAdd amount (satMul tx.gasLimit tx.gasPrice) = amount ∧
        tx.nonce.toNat = u64Max)
  | _ => e.ChargesFee c tx

section Spending
variable {c} {e : ContractExecutor} {a : Attempt}

theorem sparesSender_of_eq
    (h : (step c e a).stateManager = e.stateManager) : SparesSender c e a := by
  unfold SparesSender
  rw [h]
  exact ⟨UInt64.le_refl _, UInt64.le_refl _⟩

theorem add_one_le_iff (n : UInt64) : n + 1 ≤ n ↔ n.toNat = u64Max := by
  have hmax := toNat_le_u64Max n
  have hword : u64Max + 1 = 2 ^ 64 := by decide
  rw [UInt64.le_iff_toNat_le, UInt64.toNat_add, UInt64.toNat_one]
  by_cases h : n.toNat = u64Max
  · rw [h, hword]
    simp
  · rw [Nat.mod_eq_of_lt (by omega)]
    omega

theorem sparesSender_transfer_iff {toAddr : Address} {amount : UInt64}
    (hp : a.2.payload = .transfer toAddr amount)
    (htr : e.stateManager.Transferable a.2.fromAddr amount a.2.nonce
      (satMul a.2.gasLimit a.2.gasPrice)) :
    SparesSender c e a ↔ a.2.fromAddr = toAddr ∧
      satAdd amount (satMul a.2.gasLimit a.2.gasPrice) = amount ∧ a.2.nonce.toNat = u64Max := by
  have hstate : (step c e a).stateManager = (e.stateManager.applyTransfer c a.1 a.2.fromAddr toAddr
      amount a.2.nonce (satMul a.2.gasLimit a.2.gasPrice)).2 := by
    unfold step
    rcases ContractExecutor.executeTransaction_transfer c a.1 e hp with ⟨-, he⟩ | ⟨hnot, -⟩
    · rw [he]
    · exact absurd htr hnot
  have hcovered := UInt64.le_iff_toNat_le.mp htr.covered
  have hsub := UInt64.toNat_sub_of_le _ _ htr.covered
  have hcost : amount.toNat ≤ (satAdd amount (satMul a.2.gasLimit a.2.gasPrice)).toNat := by
    have hmax := toNat_le_u64Max amount
    rw [toNat_satAdd]
    omega
  have hpos : 0 < amount.toNat := UInt64.pos_iff_ne_zero.mpr htr.positive
  unfold SparesSender
  rw [hstate, accountOrNew_applyTransfer htr]
  simp only [if_true]
  by_cases hself : a.2.fromAddr = toAddr
  · rw [if_pos hself]
    have hadd : ((accountOrNew e.stateManager.stateTree a.2.fromAddr).balance -
        satAdd amount (satMul a.2.gasLimit a.2.gasPrice) + amount).toNat =
        (accountOrNew e.stateManager.stateTree a.2.fromAddr).balance.toNat -
          (satAdd amount (satMul a.2.gasLimit a.2.gasPrice)).toNat + amount.toNat := by
      have hmax :=
        toNat_le_u64Max (accountOrNew e.stateManager.stateTree a.2.fromAddr).balance
      have hword : u64Max < 2 ^ 64 := by decide
      rw [toNat_add_of_lt (by omega), hsub]
    rw [UInt64.le_iff_toNat_le, hadd, add_one_le_iff, htr.next, ← UInt64.toNat_inj,
      and_iff_right hself]
    apply and_congr_left'
    omega
  · rw [if_neg hself]
    simp only [hself, false_and, iff_false, not_and_or]
    left
    rw [UInt64.le_iff_toNat_le, hsub]
    omega

theorem sparesSender_contract_iff
    (hcontract : ∀ toAddr amount, a.2.payload ≠ .transfer toAddr amount) :
    SparesSender c e a ↔ ¬ e.ChargesFee c a.2 := by
  rcases (ContractExecutor.executeTransaction_contract c a.1 e hcontract).stateManager with
    ⟨fee, hfee, hpay, hs⟩ | ⟨hnot, hs⟩
  · have hcharges : e.ChargesFee c a.2 ↔ fee ≠ 0 := by
      constructor
      · rintro ⟨fee', hfee', hne, -⟩
        rw [hfee] at hfee'
        cases hfee'
        exact hne
      · exact fun hne => ⟨fee, hfee, hne, hpay⟩
    have hstate : (step c e a).stateManager =
      (e.stateManager.deductFee c a.1 a.2.fromAddr fee).2 := hs
    rw [hcharges, not_not]
    constructor
    · intro h
      by_contra hne
      have hle : fee ≤ (accountOrNew e.stateManager.stateTree a.2.fromAddr).balance :=
        hpay.resolve_left hne
      have hbalance := h.1
      rw [hstate] at hbalance
      simp only [deductFee, if_neg hne, if_neg (UInt64.not_lt.mpr hle), ofTree,
        accountOrNew_updateAccount, if_true] at hbalance
      rw [UInt64.le_iff_toNat_le, UInt64.toNat_sub_of_le _ _ hle] at hbalance
      have hpos : 0 < fee.toNat := UInt64.pos_iff_ne_zero.mpr hne
      have hnat := UInt64.le_iff_toNat_le.mp hle
      omega
    · rintro rfl
      apply sparesSender_of_eq
      rw [hstate]
      simp only [deductFee, if_true]
  · refine iff_of_true (sparesSender_of_eq hs) ?_
    rintro ⟨fee, hfee, -, hpay⟩
    exact hnot fee hfee hpay

/-- A step spares the sender exactly if the ledger's checks take nothing. -/
theorem sparesSender_iff : SparesSender c e a ↔ ¬ Spends c e a.2 := by
  unfold Spends
  cases hp : a.2.payload with
  | contractDeploy wasmCode initArgs =>
    exact sparesSender_contract_iff fun _ _ h => by rw [hp] at h; cases h
  | contractCall address method args =>
    exact sparesSender_contract_iff fun _ _ h => by rw [hp] at h; cases h
  | transfer toAddr amount =>
    simp only
    by_cases htr : e.stateManager.Transferable a.2.fromAddr amount a.2.nonce
        (satMul a.2.gasLimit a.2.gasPrice)
    · rw [sparesSender_transfer_iff hp htr]
      simp [htr]
    · have hrefused : ¬ e.Accepts c a.2 := mt (ContractExecutor.accepts_transfer hp).mp htr
      refine iff_of_true (sparesSender_of_eq ?_) fun h => htr h.1
      rw [step_of_refused hp hrefused]

end Spending

/-- No attempted transaction that fails `validate_basic` takes anything from its sender. -/
def NoUnauthorisedSpending (ex : TransactionExecutor) (block : Block) : Prop :=
  StepRun.Along (step c) (fun e a => a.2.validateBasic c ≠ .ok () → SparesSender c e a)
    ex.contractExecutor (attempted c order ex.contractExecutor block.transactions)

/-- A block is executed by attempting its transactions in turn, and spends nothing without authority
exactly if, at its turn, the ledger's own checks stop every transaction that fails
`validate_basic`. -/
theorem noUnauthorisedSpending_iff (ex : TransactionExecutor) (block : Block) :
    (ex.executeBlock c order block).2.contractExecutor =
        (attempted c order ex.contractExecutor block.transactions).foldl (step c)
          ex.contractExecutor ∧
      (NoUnauthorisedSpending c order ex block ↔
        StepRun.Along (step c) (fun e a => a.2.validateBasic c ≠ .ok () → ¬ Spends c e a.2)
          ex.contractExecutor (attempted c order ex.contractExecutor block.transactions)) := by
  refine ⟨executeLoop_eq_foldl 0 0 block.transactions, ?_⟩
  apply StepRun.along_congr
  intro e a
  rw [sparesSender_iff]

section Sample

def sampleUnsigned : Transaction :=
  .newTransfer sampleSenders.1 (Bytes.fill 20 11) 100 0 21000 1

set_option maxRecDepth 20000 in
/-- The block is accepted, the transfer is not, and its sender pays. -/
theorem sampleUnsigned_spends :
    (sampleBlockOf [sampleUnsigned]).validateBasic .hashOnly 1000 = .ok () ∧
      sampleUnsigned.validateBasic .hashOnly ≠ .ok () ∧
      ¬ NoUnauthorisedSpending .hashOnly .sorted (fundedExecutor ⟨∅⟩)
        (sampleBlockOf [sampleUnsigned]) := by
  have hinvalid : sampleUnsigned.validateBasic .hashOnly ≠ .ok () := by decide +kernel
  have hpaid : (accountOrNew (step .hashOnly (fundedExecutor ⟨∅⟩).contractExecutor
      (.sorted, sampleUnsigned)).stateManager.stateTree sampleSenders.1).balance < 1000000 := by
    decide +kernel
  refine ⟨by decide +kernel, hinvalid, ?_⟩
  intro h
  unfold NoUnauthorisedSpending at h
  rw [transactions_sampleBlockOf, attempted_singleton] at h
  have hle : 1000000 ≤ _ := (h.1 hinvalid).1
  exact UInt64.not_lt.mpr hle hpaid

end Sample

end TransactionExecutor

end CytahSpeed
