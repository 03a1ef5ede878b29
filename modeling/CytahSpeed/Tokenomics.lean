import CytahSpeed.Block
import CytahSpeed.MapSum
import CytahSpeed.StateManager

/-!
# The supply cap

The operations of the state manager that move balances. `credit_account` mints up to the cap and
the other operations do not check it: `initialize_tokenomics` allocates to the genesis wallet
whenever it finds it empty, and a transfer out of the emission account brings a balance into
circulation that the supply did not count. A run whose allocations and transfers of this kind pass
the check of `credit_account` stays within the cap.

Balances are added and subtracted as in a release build, modulo `2 ^ 64`.
-/

namespace CytahSpeed
open ByteString FiniteMap MachineInt

namespace StateManager

variable (c : Crypto) (order : IterOrder Address Account) (s : StateManager)

def ofTree (stateTree : SparseMerkleTree) : StateManager := ⟨stateTree, stateTree.calculateRoot⟩

/-- `get_account(..).cloned().unwrap_or(Account::new(0, 0))`. -/
def accountOrNew (stateTree : SparseMerkleTree) (address : Address) : Account :=
  (stateTree.getAccount address).getD ⟨0, 0⟩

def ensureAccount (stateTree : SparseMerkleTree) (address : Address) : SparseMerkleTree :=
  match stateTree.getAccount address with
  | none => stateTree.updateAccount c order address ⟨0, 0⟩
  | some _ => stateTree

def initializeTokenomics : StateManager :=
  let stateTree := ensureAccount c order s.stateTree genesisWallet
  let genesisAccount := accountOrNew stateTree genesisWallet
  let stateTree := if genesisAccount.balance = 0
    then stateTree.updateAccount c order genesisWallet ⟨100000000, genesisAccount.nonce⟩
    else stateTree
  ofTree (ensureAccount c order stateTree emissionStateAccount)

def addEmittedSupply (amount : UInt64) : StateManager :=
  if amount = 0 then s
  else
    let acc := accountOrNew s.stateTree emissionStateAccount
    let remaining := satSub (UInt64.ofNat Mining.ctsMiningSupply) acc.balance
    if remaining = 0 then s
    else
      let balance := satAdd acc.balance (min amount remaining)
      ofTree (s.stateTree.updateAccount c order emissionStateAccount { acc with balance })

/-- The sum of all balances but that of the emission account. -/
def getTotalSupply : UInt64 :=
  (order.iter s.stateTree.leaves).foldl
    (fun total e => if e.1 = emissionStateAccount then total else satAdd total e.2.balance) 0

def applyTransfer (fromAddr toAddr : Address) (amount nonce fee : UInt64) :
    Except String Unit × StateManager :=
  let sender := accountOrNew s.stateTree fromAddr
  let totalCost := satAdd amount fee
  if amount = 0 then (.error "Amount must be greater than 0", s)
  else if sender.nonce ≠ nonce then
    (.error ("Invalid nonce: expected " ++ toString sender.nonce ++ ", got " ++ toString nonce), s)
  else if sender.balance < totalCost then (.error "Insufficient balance for amount and fee", s)
  else
    let stateTree := s.stateTree.updateAccount c order fromAddr
      ⟨sender.balance - totalCost, sender.nonce + 1⟩
    let receiver := accountOrNew stateTree toAddr
    (.ok (), ofTree (stateTree.updateAccount c order toAddr
      ⟨receiver.balance + amount, receiver.nonce⟩))

/-- Transfers are charged the whole gas limit; contract transactions are left to the executor. -/
def applyTransaction (tx : Transaction) : Except String Unit × StateManager :=
  let fee := satMul tx.gasLimit tx.gasPrice
  match tx.payload with
  | .transfer toAddr amount => s.applyTransfer c order tx.fromAddr toAddr amount tx.nonce fee
  | _ => (.ok (), s)

def deductFee (fromAddr : Address) (fee : UInt64) : Except String Unit × StateManager :=
  let account := accountOrNew s.stateTree fromAddr
  if fee = 0 then (.ok (), s)
  else if account.balance < fee then (.error "Insufficient balance for fee", s)
  else
    (.ok (), ofTree (s.stateTree.updateAccount c order fromAddr
      ⟨account.balance - fee, account.nonce⟩))

def exceedsCap (amount : UInt64) : Bool :=
  satAdd (s.getTotalSupply order) amount > UInt64.ofNat Mining.ctsMaxSupply

def creditAccount (toAddr : Address) (amount : UInt64) : Except String Unit × StateManager :=
  let account := accountOrNew s.stateTree toAddr
  if amount = 0 then (.ok (), s)
  else if s.exceedsCap order amount then (.error "Cannot mint beyond maximum supply", s)
  else
    (.ok (), ofTree (s.stateTree.updateAccount c order toAddr
      ⟨account.balance + amount, account.nonce⟩))

structure Transferable (fromAddr : Address) (amount nonce fee : UInt64) : Prop where
  positive : amount ≠ 0
  next : (accountOrNew s.stateTree fromAddr).nonce = nonce
  covered : satAdd amount fee ≤ (accountOrNew s.stateTree fromAddr).balance

instance (fromAddr : Address) (amount nonce fee : UInt64) :
    Decidable (s.Transferable fromAddr amount nonce fee) :=
  decidable_of_iff (amount ≠ 0 ∧ (accountOrNew s.stateTree fromAddr).nonce = nonce ∧
      satAdd amount fee ≤ (accountOrNew s.stateTree fromAddr).balance)
    ⟨fun h => ⟨h.1, h.2.1, h.2.2⟩, fun h => ⟨h.positive, h.next, h.covered⟩⟩

def held (address : Address) (account : Account) : ℕ :=
  if address = emissionStateAccount then 0 else account.balance.toNat

/-- The supply as a sum that does not saturate. -/
def circulating (stateTree : SparseMerkleTree) : ℕ := weight held stateTree.leaves

section Supply
variable {c order s} {t : SparseMerkleTree} {a : Address}

theorem held_emission (account : Account) : held emissionStateAccount account = 0 := if_pos rfl

theorem held_of_ne (ha : a ≠ emissionStateAccount) (account : Account) :
    held a account = account.balance.toNat := if_neg ha

theorem weightAt_held (t : SparseMerkleTree) (a : Address) :
    weightAt held t.leaves a = held a (accountOrNew t a) := by
  rw [accountOrNew, SparseMerkleTree.getAccount]
  cases hl : t.leaves.lookup a with
  | none => simp [weightAt, hl, held]
  | some account =>
    rw [weightAt_of_lookup hl]
    rfl

theorem accountOrNew_updateAccount (account : Account) (a' : Address) :
    accountOrNew (t.updateAccount c order a account) a' =
      if a' = a then account else accountOrNew t a' := by
  rw [accountOrNew, SparseMerkleTree.getAccount, SparseMerkleTree.leaves_updateAccount,
    lookup_insert_eq_ite]
  by_cases h : a' = a
  · rw [if_pos h, if_pos h, Option.getD_some]
  · rw [if_neg h, if_neg h]
    rfl

theorem circulating_updateAccount (c : Crypto) (order : IterOrder Address Account)
    (t : SparseMerkleTree) (a : Address) (account : Account) :
    circulating (t.updateAccount c order a account) + held a (accountOrNew t a) =
      circulating t + held a account := by
  rw [circulating, SparseMerkleTree.leaves_updateAccount, ← weightAt_held]
  exact weight_insert held t.leaves a account

theorem balance_le_circulating (ha : a ≠ emissionStateAccount) :
    (accountOrNew t a).balance.toNat ≤ circulating t := by
  rw [← held_of_ne ha, ← weightAt_held]
  exact weightAt_le held t.leaves a

theorem circulating_emission (c : Crypto) (order : IterOrder Address Account)
    (t : SparseMerkleTree) (account : Account) :
    circulating (t.updateAccount c order emissionStateAccount account) = circulating t := by
  have h := circulating_updateAccount c order t emissionStateAccount account
  rwa [held_emission, held_emission] at h

theorem circulating_withdraw (c : Crypto) (order : IterOrder Address Account)
    (ha : a ≠ emissionStateAccount) (nonce : UInt64) {cost : UInt64}
    (hcost : cost ≤ (accountOrNew t a).balance) :
    circulating (t.updateAccount c order a ⟨(accountOrNew t a).balance - cost, nonce⟩) +
      cost.toNat = circulating t := by
  have h := circulating_updateAccount c order t a
    ⟨(accountOrNew t a).balance - cost, nonce⟩
  rw [held_of_ne ha, held_of_ne ha] at h
  have hsub := UInt64.toNat_sub_of_le _ _ hcost
  have hle := UInt64.le_iff_toNat_le.mp hcost
  simp only [hsub] at h
  omega

theorem circulating_deposit (c : Crypto) (order : IterOrder Address Account)
    (ha : a ≠ emissionStateAccount) {amount : UInt64}
    (hfits : (accountOrNew t a).balance.toNat + amount.toNat < 2 ^ 64) :
    circulating (t.updateAccount c order a
      ⟨(accountOrNew t a).balance + amount, (accountOrNew t a).nonce⟩) =
      circulating t + amount.toNat := by
  have h := circulating_updateAccount c order t a
    ⟨(accountOrNew t a).balance + amount, (accountOrNew t a).nonce⟩
  rw [held_of_ne ha, held_of_ne ha] at h
  have hadd := toNat_add_of_lt hfits
  simp only [hadd] at h
  omega

theorem accountOrNew_ensureAccount (t : SparseMerkleTree) (a a' : Address) :
    accountOrNew (ensureAccount c order t a) a' = accountOrNew t a' := by
  unfold ensureAccount
  cases ht : t.getAccount a with
  | some account => rfl
  | none =>
    simp only
    rw [accountOrNew_updateAccount]
    by_cases h : a' = a
    · rw [if_pos h, h, accountOrNew, ht]
      rfl
    · rw [if_neg h]

theorem circulating_ensureAccount (t : SparseMerkleTree) (a : Address) :
    circulating (ensureAccount c order t a) = circulating t := by
  unfold ensureAccount
  cases ht : t.getAccount a with
  | some account => rfl
  | none =>
    have h := circulating_updateAccount c order t a ⟨0, 0⟩
    have hnew : accountOrNew t a = ⟨0, 0⟩ := by
      rw [accountOrNew, ht]
      rfl
    rw [hnew] at h
    simp only
    omega

theorem toNat_foldl_satAdd (l : List (Address × Account)) (total : UInt64) :
    (l.foldl (fun total e => if e.1 = emissionStateAccount then total
      else satAdd total e.2.balance) total).toNat =
      min (total.toNat + (l.map fun e => held e.1 e.2).sum) u64Max := by
  induction l generalizing total with
  | nil => simpa using toNat_le_u64Max total
  | cons e l ih =>
    rw [List.foldl_cons, ih, List.map_cons, List.sum_cons]
    by_cases he : e.1 = emissionStateAccount
    · rw [if_pos he, he, held_emission, Nat.zero_add]
    · rw [if_neg he, held_of_ne he, toNat_satAdd]
      omega

/-- In whatever order the accounts are visited, the supply is the same. -/
theorem toNat_getTotalSupply (order : IterOrder Address Account) (s : StateManager) :
    (s.getTotalSupply order).toNat = min (circulating s.stateTree) u64Max := by
  rw [getTotalSupply, toNat_foldl_satAdd, (order.enumerates _).sum_eq]
  simp [circulating]

theorem exceedsCap_eq_false (amount : UInt64) :
    s.exceedsCap order amount = false ↔
      circulating s.stateTree + amount.toNat ≤ Mining.ctsMaxSupply := by
  have hcap : (UInt64.ofNat Mining.ctsMaxSupply).toNat = Mining.ctsMaxSupply := rfl
  have hmax : Mining.ctsMaxSupply < u64Max := by decide
  rw [exceedsCap, decide_eq_false_iff_not, gt_iff_lt, UInt64.lt_iff_toNat_lt, toNat_satAdd,
    toNat_getTotalSupply, hcap]
  omega

theorem circulating_initializeTokenomics (c : Crypto) (order : IterOrder Address Account)
    (s : StateManager) :
    circulating (s.initializeTokenomics c order).stateTree = circulating s.stateTree +
      if (accountOrNew s.stateTree genesisWallet).balance = 0 then 100000000 else 0 := by
  have hne : genesisWallet ≠ emissionStateAccount := by decide
  simp only [initializeTokenomics, ofTree, circulating_ensureAccount, accountOrNew_ensureAccount]
  by_cases hzero : (accountOrNew s.stateTree genesisWallet).balance = 0
  · have h := circulating_updateAccount c order
      (ensureAccount c order s.stateTree genesisWallet) genesisWallet
      ⟨100000000, (accountOrNew s.stateTree genesisWallet).nonce⟩
    rw [held_of_ne hne, held_of_ne hne, accountOrNew_ensureAccount, hzero,
      circulating_ensureAccount] at h
    rw [if_pos hzero, if_pos hzero]
    exact h
  · rw [if_neg hzero, if_neg hzero, circulating_ensureAccount]
    rfl

theorem circulating_addEmittedSupply (c : Crypto) (order : IterOrder Address Account)
    (s : StateManager) (amount : UInt64) :
    circulating (s.addEmittedSupply c order amount).stateTree = circulating s.stateTree := by
  unfold addEmittedSupply
  split_ifs
  · rfl
  · simp only
    split_ifs
    · rfl
    · exact circulating_emission c order _ _

theorem circulating_deductFee_le (c : Crypto) (order : IterOrder Address Account)
    (s : StateManager) (fromAddr : Address) (fee : UInt64) :
    circulating (s.deductFee c order fromAddr fee).2.stateTree ≤ circulating s.stateTree := by
  simp only [deductFee]
  split_ifs with hzero hless
  · exact le_rfl
  · exact le_rfl
  · by_cases hem : fromAddr = emissionStateAccount
    · rw [hem]
      exact (circulating_emission c order _ _).le
    · have h := circulating_withdraw c order hem (accountOrNew s.stateTree fromAddr).nonce
        (UInt64.not_lt.mp hless)
      simp only [ofTree]
      omega

theorem circulating_creditAccount_le (c : Crypto) (order : IterOrder Address Account)
    (s : StateManager) (toAddr : Address) (amount : UInt64)
    (hcap : circulating s.stateTree ≤ Mining.ctsMaxSupply) :
    circulating (s.creditAccount c order toAddr amount).2.stateTree ≤ Mining.ctsMaxSupply := by
  simp only [creditAccount]
  split_ifs with hzero hexceeds
  · exact hcap
  · exact hcap
  · by_cases hem : toAddr = emissionStateAccount
    · rw [hem]
      exact (circulating_emission c order _ _).trans_le hcap
    · have hle := (exceedsCap_eq_false amount).mp (Bool.not_eq_true _ ▸ hexceeds)
      have hmax : Mining.ctsMaxSupply < 2 ^ 64 := by decide
      have hbal := balance_le_circulating (t := s.stateTree) hem
      have hfits : (accountOrNew s.stateTree toAddr).balance.toNat + amount.toNat < 2 ^ 64 := by
        omega
      exact (circulating_deposit c order hem hfits).trans_le hle

/-- A transfer that passes its checks is a withdrawal and a deposit, and any other is refused. -/
theorem applyTransfer_cases (c : Crypto) (order : IterOrder Address Account) (s : StateManager)
    (fromAddr toAddr : Address) (amount nonce fee : UInt64) :
    (∃ t, s.Transferable fromAddr amount nonce fee ∧
      t = s.stateTree.updateAccount c order fromAddr
        ⟨(accountOrNew s.stateTree fromAddr).balance - satAdd amount fee,
          (accountOrNew s.stateTree fromAddr).nonce + 1⟩ ∧
      s.applyTransfer c order fromAddr toAddr amount nonce fee =
        (.ok (), ofTree (t.updateAccount c order toAddr
          ⟨(accountOrNew t toAddr).balance + amount, (accountOrNew t toAddr).nonce⟩))) ∨
      (¬ s.Transferable fromAddr amount nonce fee ∧
        ∃ e, s.applyTransfer c order fromAddr toAddr amount nonce fee = (.error e, s)) := by
  simp only [applyTransfer]
  split_ifs with hzero hnonce hless
  · exact Or.inr ⟨fun h => h.positive hzero, _, rfl⟩
  · exact Or.inr ⟨fun h => hnonce h.next, _, rfl⟩
  · exact Or.inr ⟨fun h => absurd hless (UInt64.not_lt.mpr h.covered), _, rfl⟩
  · exact Or.inl ⟨_, ⟨hzero, not_not.mp hnonce, UInt64.not_lt.mp hless⟩, rfl, rfl⟩

section Transfer
variable {fromAddr toAddr : Address} {amount nonce fee : UInt64}

theorem accountOrNew_applyTransfer (h : s.Transferable fromAddr amount nonce fee)
    (address : Address) :
    accountOrNew (s.applyTransfer c order fromAddr toAddr amount nonce fee).2.stateTree address =
      let account := if address = fromAddr
        then ⟨(accountOrNew s.stateTree address).balance - satAdd amount fee,
          (accountOrNew s.stateTree address).nonce + 1⟩
        else accountOrNew s.stateTree address
      if address = toAddr then ⟨account.balance + amount, account.nonce⟩ else account := by
  rcases applyTransfer_cases c order s fromAddr toAddr amount nonce fee with
    ⟨t, -, ht, he⟩ | ⟨hnot, -⟩
  · have hpaid : ∀ a, accountOrNew t a = if a = fromAddr
        then ⟨(accountOrNew s.stateTree a).balance - satAdd amount fee,
          (accountOrNew s.stateTree a).nonce + 1⟩
        else accountOrNew s.stateTree a := by
      intro a
      rw [ht, accountOrNew_updateAccount]
      by_cases ha : a = fromAddr
      · rw [if_pos ha, if_pos ha, ha]
      · rw [if_neg ha, if_neg ha]
    rw [he]
    simp only [ofTree]
    rw [accountOrNew_updateAccount, hpaid]
    by_cases hto : address = toAddr
    · rw [if_pos hto, if_pos hto, ← hto]
    · rw [if_neg hto, if_neg hto, hpaid]
  · exact absurd h hnot

theorem circulating_applyTransfer_le (hcap : circulating s.stateTree ≤ Mining.ctsMaxSupply)
    (hfrom : fromAddr ≠ emissionStateAccount) :
    circulating (s.applyTransfer c order fromAddr toAddr amount nonce fee).2.stateTree ≤
      circulating s.stateTree := by
  rcases applyTransfer_cases c order s fromAddr toAddr amount nonce fee with
    ⟨t, htr, ht, he⟩ | ⟨-, e, he⟩
  · rw [he]
    have hout := circulating_withdraw c order hfrom
      ((accountOrNew s.stateTree fromAddr).nonce + 1) htr.covered
    rw [← ht, toNat_satAdd] at hout
    -- the sender holds less than a machine word, so the cost did not saturate
    have hmax : Mining.ctsMaxSupply < u64Max := by decide
    have hword : u64Max < 2 ^ 64 := by decide
    change circulating (t.updateAccount c order toAddr _) ≤ _
    by_cases hem : toAddr = emissionStateAccount
    · rw [hem, circulating_emission]
      omega
    · have hbal := balance_le_circulating (t := t) hem
      rw [circulating_deposit c order hem (by omega)]
      omega
  · rw [he]

theorem circulating_applyTransfer_emission
    (htr : s.Transferable emissionStateAccount amount nonce fee)
    (hto : toAddr ≠ emissionStateAccount)
    (hfits : (accountOrNew s.stateTree toAddr).balance.toNat + amount.toNat < 2 ^ 64) :
    circulating (s.applyTransfer c order emissionStateAccount toAddr amount nonce fee).2.stateTree =
      circulating s.stateTree + amount.toNat := by
  rcases applyTransfer_cases c order s emissionStateAccount toAddr amount nonce fee with
    ⟨t, -, ht, he⟩ | ⟨hnot, -⟩
  · rw [he]
    have hout : circulating t = circulating s.stateTree := by
      rw [ht, circulating_emission]
    have hsame : accountOrNew t toAddr = accountOrNew s.stateTree toAddr := by
      rw [ht, accountOrNew_updateAccount, if_neg hto]
    change circulating (t.updateAccount c order toAddr _) = _
    rw [circulating_deposit c order hto (by rw [hsame]; exact hfits), hout]
  · exact absurd htr hnot

theorem circulating_applyTransfer_emission_le
    (hcap : circulating s.stateTree ≤ Mining.ctsMaxSupply)
    (hwithin : s.Transferable emissionStateAccount amount nonce fee →
      toAddr ≠ emissionStateAccount → s.exceedsCap order amount = false) :
    circulating (s.applyTransfer c order emissionStateAccount toAddr amount nonce fee).2.stateTree ≤
      Mining.ctsMaxSupply := by
  rcases applyTransfer_cases c order s emissionStateAccount toAddr amount nonce fee with
    ⟨t, htr, ht, he⟩ | ⟨-, e, he⟩
  · by_cases hto : toAddr = emissionStateAccount
    · rw [he, hto]
      change circulating (t.updateAccount c order emissionStateAccount _) ≤ _
      rw [circulating_emission, ht, circulating_emission]
      exact hcap
    · have hle := (exceedsCap_eq_false amount).mp (hwithin htr hto)
      have hbal := balance_le_circulating (t := s.stateTree) hto
      have hmax : Mining.ctsMaxSupply < 2 ^ 64 := by decide
      rw [circulating_applyTransfer_emission htr hto (by omega)]
      exact hle
  · rw [he]
    exact hcap

end Transfer

end Supply

inductive SupplyCall
  | initializeTokenomics
  | applyTransaction (tx : Transaction)
  | deductFee (fromAddr : Address) (fee : UInt64)
  | creditAccount (toAddr : Address) (amount : UInt64)
  | addEmittedSupply (amount : UInt64)

def exec : SupplyCall → StateManager
  | .initializeTokenomics => s.initializeTokenomics c order
  | .applyTransaction tx => (s.applyTransaction c order tx).2
  | .deductFee fromAddr fee => (s.deductFee c order fromAddr fee).2
  | .creditAccount toAddr amount => (s.creditAccount c order toAddr amount).2
  | .addEmittedSupply amount => s.addEmittedSupply c order amount

/-- An allocation to an empty genesis wallet, and a transfer out of the emission account to any
other, pass the check of `credit_account`. Nothing is asked of the other calls. -/
def WithinCap : SupplyCall → Prop
  | .initializeTokenomics =>
    (accountOrNew s.stateTree genesisWallet).balance = 0 → s.exceedsCap order 100000000 = false
  | .applyTransaction tx =>
    match tx.payload with
    | .transfer toAddr amount =>
      s.Transferable tx.fromAddr amount tx.nonce (satMul tx.gasLimit tx.gasPrice) →
        tx.fromAddr = emissionStateAccount → toAddr ≠ emissionStateAccount →
          s.exceedsCap order amount = false
    | _ => True
  | _ => True

def run (s : StateManager) (calls : List (IterOrder Address Account × SupplyCall)) :
    StateManager := calls.foldl (fun s e => s.exec c e.1 e.2) s

def RunWithinCap (s : StateManager) : List (IterOrder Address Account × SupplyCall) → Prop
  | [] => True
  | e :: calls => s.WithinCap e.1 e.2 ∧ RunWithinCap (s.exec c e.1 e.2) calls

variable {c order s}

theorem circulating_exec_le {call : SupplyCall}
    (hcap : circulating s.stateTree ≤ Mining.ctsMaxSupply) (hwithin : s.WithinCap order call) :
    circulating (s.exec c order call).stateTree ≤ Mining.ctsMaxSupply := by
  cases call with
  | initializeTokenomics =>
    rw [exec, circulating_initializeTokenomics]
    by_cases hzero : (accountOrNew s.stateTree genesisWallet).balance = 0
    · rw [if_pos hzero]
      exact (exceedsCap_eq_false _).mp (hwithin hzero)
    · rwa [if_neg hzero]
  | applyTransaction tx =>
    simp only [exec, applyTransaction]
    simp only [WithinCap] at hwithin
    cases hp : tx.payload with
    | contractDeploy wasmCode initArgs => exact hcap
    | contractCall contractAddress method args => exact hcap
    | transfer toAddr amount =>
      simp only [hp] at hwithin ⊢
      by_cases hfrom : tx.fromAddr = emissionStateAccount
      · rw [hfrom] at hwithin ⊢
        exact circulating_applyTransfer_emission_le hcap fun htr => hwithin htr rfl
      · exact (circulating_applyTransfer_le hcap hfrom).trans hcap
  | deductFee fromAddr fee => exact (circulating_deductFee_le c order s fromAddr fee).trans hcap
  | creditAccount toAddr amount => exact circulating_creditAccount_le c order s toAddr amount hcap
  | addEmittedSupply amount => exact (circulating_addEmittedSupply c order s amount).trans_le hcap

/-- A call that is not within the cap takes the supply over it, unless a balance overflows. -/
theorem lt_circulating_exec {call : SupplyCall} (hnot : ¬ s.WithinCap order call)
    (hfits : ∀ tx toAddr amount, call = .applyTransaction tx →
      tx.payload = .transfer toAddr amount →
      (accountOrNew s.stateTree toAddr).balance.toNat + amount.toNat < 2 ^ 64) :
    Mining.ctsMaxSupply < circulating (s.exec c order call).stateTree := by
  cases call with
  | initializeTokenomics =>
    simp only [WithinCap, Classical.not_imp, exceedsCap_eq_false, not_le] at hnot
    rw [exec, circulating_initializeTokenomics, if_pos hnot.1]
    exact hnot.2
  | applyTransaction tx =>
    simp only [exec, applyTransaction]
    simp only [WithinCap] at hnot
    cases hp : tx.payload with
    | contractDeploy wasmCode initArgs => simp [hp] at hnot
    | contractCall contractAddress method args => simp [hp] at hnot
    | transfer toAddr amount =>
      simp only [hp, Classical.not_imp, exceedsCap_eq_false, not_le] at hnot ⊢
      obtain ⟨htr, hfrom, hto, hover⟩ := hnot
      rw [hfrom] at htr ⊢
      rwa [circulating_applyTransfer_emission htr hto (hfits tx toAddr amount rfl hp)]
  | deductFee fromAddr fee => exact absurd trivial hnot
  | creditAccount toAddr amount => exact absurd trivial hnot
  | addEmittedSupply amount => exact absurd trivial hnot

theorem circulating_run_le (calls : List (IterOrder Address Account × SupplyCall))
    (hcap : circulating s.stateTree ≤ Mining.ctsMaxSupply) (hwithin : s.RunWithinCap c calls) :
    circulating (s.run c calls).stateTree ≤ Mining.ctsMaxSupply := by
  induction calls generalizing s with
  | nil => exact hcap
  | cons e calls ih => exact ih (circulating_exec_le hcap hwithin.1) hwithin.2

theorem circulating_new (c : Crypto) (order : IterOrder Address Account) :
    circulating (new c order).stateTree = 0 := by
  have hne : genesisWallet ≠ emissionStateAccount := by decide
  have h := circulating_updateAccount c order .new genesisWallet ⟨0, 0⟩
  have hnone : accountOrNew .new genesisWallet = ⟨0, 0⟩ := rfl
  have hzero : circulating .new = 0 := rfl
  rw [hnone, hzero] at h
  change circulating (SparseMerkleTree.updateAccount c order _ emissionStateAccount _) = 0
  rw [circulating_emission]
  omega

/-- In every run from the initial state whose calls are within the cap at their turn, whatever the
order in which accounts are iterated, the supply is at most the cap. -/
theorem totalSupply_le_cap (c : Crypto) (first : IterOrder Address Account)
    (calls : List (IterOrder Address Account × SupplyCall))
    (hwithin : (new c first).RunWithinCap c calls) (order : IterOrder Address Account) :
    ((new c first).run c calls).getTotalSupply order ≤ UInt64.ofNat Mining.ctsMaxSupply := by
  have hle := circulating_run_le calls (by rw [circulating_new]; exact Nat.zero_le _) hwithin
  have hcap : (UInt64.ofNat Mining.ctsMaxSupply).toNat = Mining.ctsMaxSupply := rfl
  rw [UInt64.le_iff_toNat_le, toNat_getTotalSupply, hcap]
  exact (min_le_left _ _).trans hle

section Sample

def sampleMiner : Address := Bytes.fill 20 7

/-- The genesis wallet is filled, an account is credited and receives all that the wallet holds,
and the node is started again. -/
def sampleRestart (credit : UInt64) : List (IterOrder Address Account × SupplyCall) :=
  [(.sorted, .initializeTokenomics), (.sorted, .creditAccount sampleMiner credit),
    (.sorted, .applyTransaction (.newTransfer genesisWallet sampleMiner 100000000 0 0 0)),
    (.sorted, .initializeTokenomics)]

/-- With 400M credited the second allocation is within the cap. -/
theorem totalSupply_le_cap_sample :
    ((new .hashOnly .sorted).run .hashOnly (sampleRestart 400000000)).getTotalSupply .sorted ≤
      UInt64.ofNat Mining.ctsMaxSupply := by
  apply totalSupply_le_cap .hashOnly .sorted (sampleRestart 400000000)
  refine ⟨fun _ => by decide +kernel, trivial, ?_, fun _ => by decide +kernel, trivial⟩
  exact fun _ hfrom => absurd hfrom (by decide)

/-- With 500M credited the supply is at the cap before the second allocation. -/
theorem totalSupply_over_cap :
    ((new .hashOnly .sorted).run .hashOnly (sampleRestart 500000000)).getTotalSupply .sorted =
        700000000 ∧
      ¬ ((new .hashOnly .sorted).run .hashOnly (sampleRestart 500000000)).getTotalSupply .sorted ≤
        UInt64.ofNat Mining.ctsMaxSupply := by
  decide +kernel

end Sample

end StateManager

end CytahSpeed
