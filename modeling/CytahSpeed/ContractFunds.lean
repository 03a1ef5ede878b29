import CytahSpeed.TransferLaw

/-!
# The funds that a contract transaction moves

A successful call charges its sender and writes no other account. A successful deployment also
writes the account at the contract's address, which it takes for a new one: whatever the account
held is gone. The sender itself may be at that address.
-/

namespace CytahSpeed
open FiniteMap MachineInt StateManager

namespace ParallelExecutor

section Funds
variable (c : Crypto) (wasm : Wasm) (leafOrder : IterOrder Address Account) (ledger : Ledger)
  (tx : Transaction)

def outcomeGas : Except String WasmOutcome → ℕ
  | .ok outcome => outcome.used.toNat
  | .error _ => 0

/-- The gas that the engine meters for the transaction's contract on this ledger. -/
def meteredGas : ℕ :=
  let storage := Overlay.new.visibleStorage ledger.storage
  match tx.payload with
  | .transfer _ _ => tx.gasLimit.toNat
  | .contractDeploy wasmCode _ =>
    outcomeGas (wasm.run wasmCode (deployAddress c wasmCode) tx.fromAddr tx.gasLimit .init storage)
  | .contractCall address method _ =>
    match ledger.registry.getContract address with
    | none => 0
    | some contract =>
      outcomeGas (wasm.run contract.bytecode address tx.fromAddr tx.gasLimit (.call method) storage)

/-- After the merge the balances have lost the receipt's gas at the transaction's price, and only
the sender has another balance or nonce. -/
structure MovesOwnFundsOnly : Prop where
  balances :
    let r := executeAlone c wasm tx ledger
    balanceSum (mergeOverlay c leafOrder r.2 ledger).state.stateTree +
      r.1.gasUsed.toNat * tx.gasPrice.toNat = balanceSum ledger.state.stateTree
  others : ∀ a, a ≠ tx.fromAddr →
    accountOrNew (mergeOverlay c leafOrder (executeAlone c wasm tx ledger).2
      ledger).state.stateTree a = accountOrNew ledger.state.stateTree a

/-- The fee is a machine word, and the account at a new contract's address is empty. A contract
deployed at its sender's address leaves nothing of the sender's balance, which must be the fee. -/
def FundsApart : Prop :=
  let fee := meteredGas c wasm ledger tx * tx.gasPrice.toNat
  match tx.payload with
  | .transfer _ _ => False
  | .contractDeploy wasmCode _ =>
    if deployAddress c wasmCode = tx.fromAddr then
      (accountOrNew ledger.state.stateTree tx.fromAddr).balance.toNat = fee
    else fee ≤ u64Max ∧ accountOrNew ledger.state.stateTree (deployAddress c wasmCode) = ⟨0, 0⟩
  | .contractCall _ _ _ => fee ≤ u64Max

end Funds

section Outcomes
variable {c : Crypto} {wasm : Wasm} {ledger : Ledger} {tx : Transaction}

def chargedSender (ledger : Ledger) (tx : Transaction) (used : UInt64) : Account :=
  let sender := accountOrNew ledger.state.stateTree tx.fromAddr
  ⟨satSub sender.balance (satMul used tx.gasPrice), sender.nonce + 1⟩

/-- What a successful run leaves: the gas that was metered, a sender that can pay for it, and the
accounts written. -/
structure Succeeds (c : Crypto) (wasm : Wasm) (ledger : Ledger) (tx : Transaction)
    (used : UInt64) (written : Map Address Account) : Prop where
  gas : meteredGas c wasm ledger tx = used.toNat
  covered : satMul used tx.gasPrice ≤ (accountOrNew ledger.state.stateTree tx.fromAddr).balance
  receipt : (executeAlone c wasm tx ledger).1.gasUsed = used
  accounts : (executeAlone c wasm tx ledger).2.modifiedAccounts = written

theorem chargeFee_cases (tx : Transaction) (acc : Account) (used : UInt64) :
    (∃ e, chargeFee tx acc used = .error e) ∨ (satMul used tx.gasPrice ≤ acc.balance ∧
      chargeFee tx acc used =
        .ok { acc with balance := satSub acc.balance (satMul used tx.gasPrice) }) := by
  unfold chargeFee
  by_cases h : acc.balance < satMul used tx.gasPrice
  · exact Or.inl ⟨_, if_pos h⟩
  · exact Or.inr ⟨UInt64.not_lt.mp h, if_neg h⟩

theorem executeAlone_eq_of_success (hok : (executeAlone c wasm tx ledger).1.success = true) :
    executeAlone c wasm tx ledger =
      match tx.payload with
      | .transfer toAddr amount => executeTransfer c tx Overlay.new ledger
          (accountOrNew ledger.state.stateTree tx.fromAddr) toAddr amount
      | .contractDeploy wasmCode _ => executeDeploy c wasm tx Overlay.new ledger
          (accountOrNew ledger.state.stateTree tx.fromAddr) wasmCode
      | .contractCall address method _ => executeCall c wasm tx Overlay.new ledger
          (accountOrNew ledger.state.stateTree tx.fromAddr) address method := by
  unfold executeAlone executeTransaction at hok ⊢
  cases hvalid : tx.validateBasic c with
  | error e =>
    rw [hvalid] at hok
    cases hok
  | ok u =>
    rw [hvalid] at hok
    by_cases hnonce : (Overlay.new.readAccount tx.fromAddr ledger.state).nonce ≠ tx.nonce
    · rw [if_pos hnonce] at hok
      cases hok
    · rw [if_neg hnonce]
      rfl

theorem succeeds_deploy {wasmCode initArgs : List UInt8}
    (hp : tx.payload = .contractDeploy wasmCode initArgs)
    (hok : (executeAlone c wasm tx ledger).1.success = true) :
    ∃ used, Succeeds c wasm ledger tx used
      ((Finmap.insert tx.fromAddr (chargedSender ledger tx used) ∅).insert
        (deployAddress c wasmCode) ⟨0, 0⟩) := by
  have heq := executeAlone_eq_of_success hok
  rw [hp] at heq
  have hsuccess := hok
  simp only [heq, executeDeploy] at hsuccess
  split at hsuccess
  · cases hsuccess
  · rename_i outcome hrun
    rcases chargeFee_cases tx (accountOrNew ledger.state.stateTree tx.fromAddr)
      outcome.used with ⟨e, hcharge⟩ | ⟨hcovered, hcharge⟩
    · rw [hcharge] at hsuccess
      cases hsuccess
    · cases hresult : outcome.result with
      | error e =>
        simp only [hcharge, hresult] at hsuccess
        cases hsuccess
      | ok u =>
        refine ⟨outcome.used, ?_, hcovered, ?_, ?_⟩
        · rw [meteredGas, hp]
          simp only [hrun, outcomeGas]
        · rw [heq]
          simp only [executeDeploy, hrun, hcharge, hresult]
          rfl
        · rw [heq]
          simp only [executeDeploy, hrun, hcharge, hresult]
          rfl

theorem succeeds_call {address : Address} {method : String} {args : List UInt8}
    (hp : tx.payload = .contractCall address method args)
    (hok : (executeAlone c wasm tx ledger).1.success = true) :
    ∃ used, Succeeds c wasm ledger tx used
      (Finmap.insert tx.fromAddr (chargedSender ledger tx used) ∅) := by
  have heq := executeAlone_eq_of_success hok
  rw [hp] at heq
  have hsuccess := hok
  simp only [heq, executeCall] at hsuccess
  cases hcontract : ledger.registry.getContract address with
  | none =>
    simp only [hcontract] at hsuccess
    cases hsuccess
  | some contract =>
    simp only [hcontract] at hsuccess
    split at hsuccess
    · cases hsuccess
    · rename_i outcome hrun
      rcases chargeFee_cases tx (accountOrNew ledger.state.stateTree tx.fromAddr)
        outcome.used with ⟨e, hcharge⟩ | ⟨hcovered, hcharge⟩
      · rw [hcharge] at hsuccess
        cases hsuccess
      · cases hresult : outcome.result with
        | error e =>
          simp only [hcharge, hresult] at hsuccess
          cases hsuccess
        | ok u =>
          refine ⟨outcome.used, ?_, hcovered, ?_, ?_⟩
          · rw [meteredGas, hp]
            simp only [hcontract, hrun, outcomeGas]
          · rw [heq]
            simp only [executeCall, hcontract, hrun, hcharge, hresult]
            rfl
          · rw [heq]
            simp only [executeCall, hcontract, hrun, hcharge, hresult]
            rfl

end Outcomes

section Sums
variable {t t' : SparseMerkleTree} {a : Address} {account : Account}

theorem accountOrNew_of_leaves (h : t'.leaves = t.leaves.insert a account) (b : Address) :
    accountOrNew t' b = if b = a then account else accountOrNew t b := by
  rw [accountOrNew, SparseMerkleTree.getAccount, h, lookup_insert_eq_ite]
  by_cases hb : b = a
  · rw [if_pos hb, if_pos hb, Option.getD_some]
  · rw [if_neg hb, if_neg hb]
    rfl

theorem balanceSum_of_leaves (h : t'.leaves = t.leaves.insert a account) :
    balanceSum t' + (accountOrNew t a).balance.toNat = balanceSum t + account.balance.toNat := by
  rw [balanceSum, h, ← weightAt_balance]
  exact weight_insert _ t.leaves a account

end Sums

section Law
variable {c : Crypto} {wasm : Wasm} {leafOrder : IterOrder Address Account} {ledger : Ledger}
  {tx : Transaction} {used : UInt64}

theorem balanceSum_charged
    (hcovered : satMul used tx.gasPrice ≤ (accountOrNew ledger.state.stateTree tx.fromAddr).balance)
    {t : SparseMerkleTree} (ht : t.leaves = ledger.state.stateTree.leaves.insert tx.fromAddr
      (chargedSender ledger tx used)) :
    balanceSum t + min (used.toNat * tx.gasPrice.toNat) u64Max =
      balanceSum ledger.state.stateTree := by
  have hsum := balanceSum_of_leaves ht
  have hle := UInt64.le_iff_toNat_le.mp hcovered
  simp only [chargedSender, toNat_satSub, toNat_satMul] at hsum hle
  omega

theorem movesOwnFundsOnly_call_iff (hs : Succeeds c wasm ledger tx used
      (Finmap.insert tx.fromAddr (chargedSender ledger tx used) ∅)) :
    MovesOwnFundsOnly c wasm leafOrder ledger tx ↔
      meteredGas c wasm ledger tx * tx.gasPrice.toNat ≤ u64Max := by
  have hleaves := leaves_mergeOverlay c leafOrder (executeAlone c wasm tx ledger).2 ledger
  rw [hs.accounts, ← Finmap.insert_union, Finmap.empty_union] at hleaves
  have hsum := balanceSum_charged hs.covered hleaves
  rw [hs.gas]
  constructor
  · intro h
    have hbalances := h.balances
    simp only [hs.receipt] at hbalances
    omega
  · intro hfits
    constructor
    · simp only [hs.receipt]
      omega
    · intro a ha
      rw [accountOrNew_of_leaves hleaves, if_neg ha]

section Deployment
variable (leafOrder) {address : Address} (hs : Succeeds c wasm ledger tx used
  ((Finmap.insert tx.fromAddr (chargedSender ledger tx used) ∅).insert address ⟨0, 0⟩))
include hs

theorem deployed_eq_insert :
    ∃ paid : SparseMerkleTree,
      paid.leaves = ledger.state.stateTree.leaves.insert tx.fromAddr
        (chargedSender ledger tx used) ∧
      (mergeOverlay c leafOrder (executeAlone c wasm tx ledger).2
        ledger).state.stateTree.leaves = paid.leaves.insert address ⟨0, 0⟩ := by
  refine ⟨⟨none, ledger.state.stateTree.leaves.insert tx.fromAddr
    (chargedSender ledger tx used)⟩, rfl, ?_⟩
  rw [leaves_mergeOverlay, hs.accounts, ← Finmap.insert_union, ← Finmap.insert_union,
    Finmap.empty_union]

theorem accountOrNew_deployed (a : Address) :
    accountOrNew (mergeOverlay c leafOrder (executeAlone c wasm tx ledger).2
      ledger).state.stateTree a =
      if a = address then ⟨0, 0⟩
      else if a = tx.fromAddr then chargedSender ledger tx used
      else accountOrNew ledger.state.stateTree a := by
  obtain ⟨paid, hpaid, hmerged⟩ := deployed_eq_insert leafOrder hs
  rw [accountOrNew_of_leaves hmerged, accountOrNew_of_leaves hpaid]

theorem balanceSum_deployed :
    balanceSum (mergeOverlay c leafOrder (executeAlone c wasm tx ledger).2
        ledger).state.stateTree +
      (if address = tx.fromAddr then chargedSender ledger tx used
        else accountOrNew ledger.state.stateTree address).balance.toNat +
      min (used.toNat * tx.gasPrice.toNat) u64Max = balanceSum ledger.state.stateTree := by
  obtain ⟨paid, hpaid, hmerged⟩ := deployed_eq_insert leafOrder hs
  have hsum := balanceSum_of_leaves hmerged
  rw [accountOrNew_of_leaves hpaid, UInt64.toNat_zero] at hsum
  have hcharged := balanceSum_charged hs.covered hpaid
  omega

theorem movesOwnFundsOnly_deploy_self_iff (haddress : address = tx.fromAddr) :
    MovesOwnFundsOnly c wasm leafOrder ledger tx ↔
      (accountOrNew ledger.state.stateTree tx.fromAddr).balance.toNat =
        meteredGas c wasm ledger tx * tx.gasPrice.toNat := by
  have hsum := balanceSum_deployed leafOrder hs
  have hle := UInt64.le_iff_toNat_le.mp hs.covered
  have hbal := balance_le_balanceSum ledger.state.stateTree tx.fromAddr
  rw [if_pos haddress] at hsum
  simp only [chargedSender, toNat_satSub, toNat_satMul] at hsum hle
  rw [hs.gas]
  constructor
  · intro h
    have hbalances := h.balances
    simp only [hs.receipt] at hbalances
    omega
  · intro hfee
    constructor
    · simp only [hs.receipt]
      omega
    · intro a ha
      rw [accountOrNew_deployed leafOrder hs, if_neg (haddress ▸ ha), if_neg ha]

theorem movesOwnFundsOnly_deploy_iff (haddress : address ≠ tx.fromAddr) :
    MovesOwnFundsOnly c wasm leafOrder ledger tx ↔
      meteredGas c wasm ledger tx * tx.gasPrice.toNat ≤ u64Max ∧
        accountOrNew ledger.state.stateTree address = ⟨0, 0⟩ := by
  have hsum := balanceSum_deployed leafOrder hs
  rw [if_neg haddress] at hsum
  rw [hs.gas]
  constructor
  · intro h
    have hempty := h.others address haddress
    rw [accountOrNew_deployed leafOrder hs, if_pos rfl] at hempty
    have hbalances := h.balances
    rw [← hempty] at hsum
    simp only [hs.receipt, UInt64.toNat_zero] at hbalances hsum
    exact ⟨by omega, hempty.symm⟩
  · rintro ⟨hfits, hempty⟩
    rw [hempty] at hsum
    simp only [UInt64.toNat_zero] at hsum
    constructor
    · simp only [hs.receipt]
      omega
    · intro a ha
      rw [accountOrNew_deployed leafOrder hs, if_neg ha]
      by_cases hat : a = address
      · rw [if_pos hat, hat, hempty]
      · rw [if_neg hat]

end Deployment

end Law

/-- A successful contract transaction moves its sender's funds only exactly if the account at the
contract's address has none. -/
theorem movesOwnFundsOnly_iff (c : Crypto) (wasm : Wasm) (leafOrder : IterOrder Address Account)
    (ledger : Ledger) (tx : Transaction)
    (hcontract : ∀ toAddr amount, tx.payload ≠ .transfer toAddr amount)
    (hok : (executeAlone c wasm tx ledger).1.success = true) :
    MovesOwnFundsOnly c wasm leafOrder ledger tx ↔ FundsApart c wasm ledger tx := by
  unfold FundsApart
  cases hp : tx.payload with
  | transfer toAddr amount => exact absurd hp (hcontract toAddr amount)
  | contractDeploy wasmCode initArgs =>
    obtain ⟨used, hs⟩ := succeeds_deploy hp hok
    change _ ↔ if deployAddress c wasmCode = tx.fromAddr then _ else _
    by_cases haddress : deployAddress c wasmCode = tx.fromAddr
    · rw [if_pos haddress]
      exact movesOwnFundsOnly_deploy_self_iff leafOrder hs haddress
    · rw [if_neg haddress]
      exact movesOwnFundsOnly_deploy_iff leafOrder hs haddress
  | contractCall address method args =>
    obtain ⟨used, hs⟩ := succeeds_call hp hok
    exact movesOwnFundsOnly_call_iff hs

section Sample

def emptyModule : List UInt8 := [0, 97, 115, 109, 1, 0, 0, 0]

def emptyModuleWasm : Wasm :=
  ⟨fun bytecode _ _ _ entry _ =>
    if bytecode ≠ emptyModule then .error "unexpected end-of-file"
    else match entry with
      | .init => .ok ⟨.ok (), 0, ∅⟩
      | .call method => .ok ⟨.error ("function " ++ method ++ " not found"), 0, ∅⟩⟩

def sampleDeployment : Transaction :=
  signedWith ⟨sampleSenders.1, .contractDeploy emptyModule [], 0, 21000, 1, .empty⟩
    [66, 234, 31, 35, 157, 140, 112, 144, 124, 131, 233, 218, 164, 167, 160, 229, 129, 218, 184,
    89, 1, 156, 141, 141, 68, 69, 8, 124, 78, 205, 211, 254, 68, 149, 86, 194, 108, 146, 241,
    253, 4, 7, 231, 128, 235, 119, 100, 17, 165, 232, 99, 0, 93, 206, 65, 23, 79, 180, 83, 8, 8,
    48, 118, 139, 1]

def sampleContract : Address :=
  ⟨[147, 164, 75, 187, 150, 199, 81, 33, 142, 76, 0, 212, 121, 228, 193, 67, 88, 18, 42, 56], rfl⟩

def endowedLedger (balance : UInt64) : Ledger :=
  let c := cryptoKnowing [sampleDeployment]
  let tree := (fundedLedger c ⟨∅⟩).state.stateTree.updateAccount c .sorted sampleContract
    ⟨balance, 0⟩
  ⟨⟨tree, tree.calculateRoot⟩, ⟨∅⟩, ⟨∅⟩⟩

theorem accountOrNew_endowedLedger (balance : UInt64) :
    accountOrNew (endowedLedger balance).state.stateTree sampleContract = ⟨balance, 0⟩ := by
  change accountOrNew (SparseMerkleTree.updateAccount _ _ _ _ _) _ = _
  rw [accountOrNew_updateAccount, if_pos rfl]

theorem deployAddress_emptyModule :
    deployAddress (cryptoKnowing [sampleDeployment]) emptyModule = sampleContract := by
  decide +kernel

set_option maxRecDepth 20000 in
/-- A deployment at an address without funds. -/
theorem movesOwnFundsOnly_sample : MovesOwnFundsOnly (cryptoKnowing [sampleDeployment])
    emptyModuleWasm .sorted (endowedLedger 0) sampleDeployment := by
  apply (movesOwnFundsOnly_iff (cryptoKnowing [sampleDeployment]) emptyModuleWasm .sorted
    (endowedLedger 0) sampleDeployment nofun (by decide +kernel)).mpr
  have hgas : meteredGas (cryptoKnowing [sampleDeployment]) emptyModuleWasm (endowedLedger 0)
      sampleDeployment = 0 := rfl
  have hp : sampleDeployment.payload = .contractDeploy emptyModule [] := rfl
  have hne : sampleContract ≠ sampleDeployment.fromAddr := by decide
  simp only [FundsApart, hp, deployAddress_emptyModule, hgas, if_neg hne]
  exact ⟨by simp, accountOrNew_endowedLedger 0⟩

set_option maxRecDepth 20000 in
/-- The five hundred units at the contract's address are lost. -/
theorem sampleDeployment_takes_funds :
    (executeAlone (cryptoKnowing [sampleDeployment]) emptyModuleWasm sampleDeployment
        (endowedLedger 500)).1.success = true ∧
      accountOrNew (mergeOverlay (cryptoKnowing [sampleDeployment]) .sorted
        (executeAlone (cryptoKnowing [sampleDeployment]) emptyModuleWasm sampleDeployment
          (endowedLedger 500)).2 (endowedLedger 500)).state.stateTree sampleContract = ⟨0, 0⟩ ∧
      ¬ MovesOwnFundsOnly (cryptoKnowing [sampleDeployment]) emptyModuleWasm .sorted
        (endowedLedger 500) sampleDeployment := by
  have hsuccess : (executeAlone (cryptoKnowing [sampleDeployment]) emptyModuleWasm
      sampleDeployment (endowedLedger 500)).1.success = true := by decide +kernel
  have hempty : accountOrNew (mergeOverlay (cryptoKnowing [sampleDeployment]) .sorted
      (executeAlone (cryptoKnowing [sampleDeployment]) emptyModuleWasm sampleDeployment
        (endowedLedger 500)).2 (endowedLedger 500)).state.stateTree sampleContract = ⟨0, 0⟩ := by
    decide +kernel
  refine ⟨hsuccess, hempty, ?_⟩
  intro h
  have hsame := h.others sampleContract (by decide)
  rw [hempty, accountOrNew_endowedLedger] at hsame
  cases hsame

end Sample

end ParallelExecutor

end CytahSpeed
