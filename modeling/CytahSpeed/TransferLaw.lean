import CytahSpeed.Serialisability
import CytahSpeed.Tokenomics

/-!
# The law of a transfer

Below a sum of balances that fits in a machine word nothing saturates and nothing overflows: a
transfer that goes through takes its amount and its fee from the sender, gives the amount to the
receiver, and burns the fee. The parallel executor makes the same transfer on an overlay, except
that it writes the sender again after the receiver: a transfer to oneself loses its amount there.
-/

namespace CytahSpeed
open ByteString FiniteMap MachineInt

namespace StateManager

def balanceSum (stateTree : SparseMerkleTree) : ℕ :=
  weight (fun _ account => account.balance.toNat) stateTree.leaves

/-- What a transfer that goes through does, in natural numbers. -/
structure TransferEffect (s s' : StateManager) (tx : Transaction) (toAddr : Address)
    (amount : UInt64) : Prop where
  fits : amount.toNat + tx.gasLimit.toNat * tx.gasPrice.toNat < 2 ^ 64
  balances : balanceSum s'.stateTree + tx.gasLimit.toNat * tx.gasPrice.toNat =
    balanceSum s.stateTree
  nonce : (accountOrNew s.stateTree tx.fromAddr).nonce = tx.nonce
  nextNonce : (accountOrNew s'.stateTree tx.fromAddr).nonce.toNat = tx.nonce.toNat + 1
  sender : tx.fromAddr ≠ toAddr →
    (accountOrNew s'.stateTree tx.fromAddr).balance.toNat + amount.toNat +
      tx.gasLimit.toNat * tx.gasPrice.toNat = (accountOrNew s.stateTree tx.fromAddr).balance.toNat
  receiver : tx.fromAddr ≠ toAddr →
    (accountOrNew s'.stateTree toAddr).balance.toNat =
      (accountOrNew s.stateTree toAddr).balance.toNat + amount.toNat ∧
      (accountOrNew s'.stateTree toAddr).nonce = (accountOrNew s.stateTree toAddr).nonce
  self : tx.fromAddr = toAddr →
    (accountOrNew s'.stateTree toAddr).balance.toNat + tx.gasLimit.toNat * tx.gasPrice.toNat =
      (accountOrNew s.stateTree toAddr).balance.toNat
  others : ∀ a, a ≠ tx.fromAddr → a ≠ toAddr → s'.getAccount a = s.getAccount a

section Law
variable {c : Crypto} {order : IterOrder Address Account} {s : StateManager}
  {t : SparseMerkleTree} {a : Address}

theorem weightAt_balance (t : SparseMerkleTree) (a : Address) :
    weightAt (fun _ account => account.balance.toNat) t.leaves a =
      (accountOrNew t a).balance.toNat := by
  rw [accountOrNew, SparseMerkleTree.getAccount]
  cases hl : t.leaves.lookup a with
  | none => simp [weightAt, hl]
  | some account =>
    rw [weightAt_of_lookup hl]
    rfl

theorem balanceSum_updateAccount (c : Crypto) (order : IterOrder Address Account)
    (t : SparseMerkleTree) (a : Address) (account : Account) :
    balanceSum (t.updateAccount c order a account) + (accountOrNew t a).balance.toNat =
      balanceSum t + account.balance.toNat := by
  rw [balanceSum, SparseMerkleTree.leaves_updateAccount, ← weightAt_balance]
  exact weight_insert _ t.leaves a account

theorem balance_le_balanceSum (t : SparseMerkleTree) (a : Address) :
    (accountOrNew t a).balance.toNat ≤ balanceSum t := by
  rw [← weightAt_balance]
  exact weightAt_le _ t.leaves a

theorem balanceSum_withdraw (c : Crypto) (order : IterOrder Address Account) (nonce : UInt64)
    {cost : UInt64} (hcost : cost ≤ (accountOrNew t a).balance) :
    balanceSum (t.updateAccount c order a ⟨(accountOrNew t a).balance - cost, nonce⟩) +
      cost.toNat = balanceSum t := by
  have h := balanceSum_updateAccount c order t a ⟨(accountOrNew t a).balance - cost, nonce⟩
  have hsub := UInt64.toNat_sub_of_le _ _ hcost
  have hle := UInt64.le_iff_toNat_le.mp hcost
  simp only [hsub] at h
  omega

theorem balanceSum_deposit (c : Crypto) (order : IterOrder Address Account) (nonce : UInt64)
    {amount : UInt64} (hfits : (accountOrNew t a).balance.toNat + amount.toNat < 2 ^ 64) :
    balanceSum (t.updateAccount c order a ⟨(accountOrNew t a).balance + amount, nonce⟩) =
      balanceSum t + amount.toNat := by
  have h := balanceSum_updateAccount c order t a ⟨(accountOrNew t a).balance + amount, nonce⟩
  have hadd := toNat_add_of_lt hfits
  simp only [hadd] at h
  omega

theorem Transferable.toNat_satAdd_eq {fromAddr : Address} {amount nonce fee : UInt64}
    (h : s.Transferable fromAddr amount nonce fee) (hsum : balanceSum s.stateTree < u64Max) :
    (satAdd amount fee).toNat = amount.toNat + fee.toNat ∧ amount.toNat + fee.toNat < u64Max := by
  have hbal := balance_le_balanceSum s.stateTree fromAddr
  have hcovered := UInt64.le_iff_toNat_le.mp h.covered
  rw [toNat_satAdd] at hcovered ⊢
  omega

theorem Transferable.satSub_satSub_eq {fromAddr : Address} {amount nonce fee : UInt64}
    (h : s.Transferable fromAddr amount nonce fee) (hsum : balanceSum s.stateTree < u64Max) :
    satSub (satSub (accountOrNew s.stateTree fromAddr).balance amount) fee =
      (accountOrNew s.stateTree fromAddr).balance - satAdd amount fee := by
  obtain ⟨hcost, -⟩ := h.toNat_satAdd_eq hsum
  have hcovered := UInt64.le_iff_toNat_le.mp h.covered
  have hsub := UInt64.toNat_sub_of_le _ _ h.covered
  apply UInt64.toNat_inj.mp
  rw [hsub, toNat_satSub, toNat_satSub]
  omega

theorem satAdd_eq_add {x y : UInt64} (h : (x + y).toNat = x.toNat + y.toNat) :
    satAdd x y = x + y := by
  have hmax := toNat_le_u64Max (x + y)
  apply UInt64.toNat_inj.mp
  rw [h, toNat_satAdd]
  omega

theorem Transferable.receiver_fits {fromAddr : Address} {amount nonce fee : UInt64}
    (h : s.Transferable fromAddr amount nonce fee) (hsum : balanceSum s.stateTree < u64Max)
    (ht : t = s.stateTree.updateAccount c order fromAddr
      ⟨(accountOrNew s.stateTree fromAddr).balance - satAdd amount fee,
        (accountOrNew s.stateTree fromAddr).nonce + 1⟩) (toAddr : Address) :
    (accountOrNew t toAddr).balance.toNat + amount.toNat < 2 ^ 64 := by
  have hcost := (h.toNat_satAdd_eq hsum).1
  have hout := balanceSum_withdraw c order ((accountOrNew s.stateTree fromAddr).nonce + 1)
    h.covered
  have hbal := balance_le_balanceSum t toAddr
  have hword : u64Max < 2 ^ 64 := by decide
  rw [← ht] at hout
  omega

theorem Transferable.balanceSum_add_fee {fromAddr : Address} {amount nonce fee : UInt64}
    (h : s.Transferable fromAddr amount nonce fee) (hsum : balanceSum s.stateTree < u64Max)
    (ht : t = s.stateTree.updateAccount c order fromAddr
      ⟨(accountOrNew s.stateTree fromAddr).balance - satAdd amount fee,
        (accountOrNew s.stateTree fromAddr).nonce + 1⟩) (toAddr : Address) :
    balanceSum (t.updateAccount c order toAddr
      ⟨(accountOrNew t toAddr).balance + amount, (accountOrNew t toAddr).nonce⟩) + fee.toNat =
      balanceSum s.stateTree := by
  have hcost := (h.toNat_satAdd_eq hsum).1
  have hout := balanceSum_withdraw c order ((accountOrNew s.stateTree fromAddr).nonce + 1)
    h.covered
  have hin := balanceSum_deposit c order (accountOrNew t toAddr).nonce
    (h.receiver_fits hsum ht toAddr)
  rw [← ht] at hout
  omega

theorem transferEffect {tx : Transaction} {toAddr : Address} {amount : UInt64}
    (hsum : balanceSum s.stateTree < u64Max)
    (hnonce : (accountOrNew s.stateTree tx.fromAddr).nonce.toNat < u64Max)
    (htr : s.Transferable tx.fromAddr amount tx.nonce (satMul tx.gasLimit tx.gasPrice))
    (ht : t = s.stateTree.updateAccount c order tx.fromAddr
      ⟨(accountOrNew s.stateTree tx.fromAddr).balance -
        satAdd amount (satMul tx.gasLimit tx.gasPrice),
        (accountOrNew s.stateTree tx.fromAddr).nonce + 1⟩) :
    TransferEffect s (ofTree (t.updateAccount c order toAddr
      ⟨(accountOrNew t toAddr).balance + amount, (accountOrNew t toAddr).nonce⟩)) tx toAddr
      amount := by
  obtain ⟨hcost, hlt⟩ := htr.toNat_satAdd_eq hsum
  have hfee : (satMul tx.gasLimit tx.gasPrice).toNat =
      tx.gasLimit.toNat * tx.gasPrice.toNat := by
    have hsat := toNat_satMul tx.gasLimit tx.gasPrice
    omega
  have hword : u64Max < 2 ^ 64 := by decide
  have hfits := htr.receiver_fits hsum ht toAddr
  have hnext : ((accountOrNew s.stateTree tx.fromAddr).nonce + 1).toNat = tx.nonce.toNat + 1 := by
    rw [htr.next] at hnonce ⊢
    rw [UInt64.toNat_add, UInt64.toNat_one, Nat.mod_eq_of_lt (by omega)]
  have hcovered := UInt64.le_iff_toNat_le.mp htr.covered
  have hsub := UInt64.toNat_sub_of_le _ _ htr.covered
  have hadd := toNat_add_of_lt hfits
  refine ⟨by omega, ?_, htr.next, ?_, ?_, ?_, ?_, ?_⟩
  · rw [← hfee]
    exact htr.balanceSum_add_fee hsum ht toAddr
  · change (accountOrNew (t.updateAccount c order toAddr _) tx.fromAddr).nonce.toNat = _
    rw [accountOrNew_updateAccount]
    by_cases h : tx.fromAddr = toAddr
    · rw [if_pos h, ht, ← h, accountOrNew_updateAccount, if_pos rfl]
      exact hnext
    · rw [if_neg h, ht, accountOrNew_updateAccount, if_pos rfl]
      exact hnext
  · intro h
    change (accountOrNew (t.updateAccount c order toAddr _) tx.fromAddr).balance.toNat + _ + _ = _
    rw [accountOrNew_updateAccount, if_neg h, ht, accountOrNew_updateAccount, if_pos rfl, hsub]
    omega
  · intro h
    have hsame : accountOrNew t toAddr = accountOrNew s.stateTree toAddr := by
      rw [ht, accountOrNew_updateAccount, if_neg (Ne.symm h)]
    change (accountOrNew (t.updateAccount c order toAddr _) toAddr).balance.toNat = _ ∧
      (accountOrNew (t.updateAccount c order toAddr _) toAddr).nonce = _
    rw [accountOrNew_updateAccount, if_pos rfl, ← hsame]
    exact ⟨hadd, rfl⟩
  · intro h
    change (accountOrNew (t.updateAccount c order toAddr _) toAddr).balance.toNat + _ = _
    rw [accountOrNew_updateAccount, if_pos rfl]
    change ((accountOrNew t toAddr).balance + amount).toNat + _ = _
    rw [hadd, ht, ← h, accountOrNew_updateAccount, if_pos rfl, hsub]
    omega
  · intro a hfrom hto
    change (t.updateAccount c order toAddr _).leaves.lookup a = s.stateTree.leaves.lookup a
    rw [SparseMerkleTree.leaves_updateAccount, lookup_insert_eq_ite, if_neg hto, ht,
      SparseMerkleTree.leaves_updateAccount, lookup_insert_eq_ite, if_neg hfrom]

end Law

/-- A transfer has its effect or, refused, leaves the state as it is. -/
theorem applyTransaction_transfer_law (c : Crypto) (order : IterOrder Address Account)
    (s : StateManager) (tx : Transaction) (toAddr : Address) (amount : UInt64)
    (hp : tx.payload = .transfer toAddr amount) (hsum : balanceSum s.stateTree < u64Max)
    (hnonce : (accountOrNew s.stateTree tx.fromAddr).nonce.toNat < u64Max) :
    ((s.applyTransaction c order tx).1 = .ok () →
      TransferEffect s (s.applyTransaction c order tx).2 tx toAddr amount) ∧
    ∀ e, (s.applyTransaction c order tx).1 = .error e → (s.applyTransaction c order tx).2 = s := by
  have happly : s.applyTransaction c order tx = s.applyTransfer c order tx.fromAddr toAddr amount
      tx.nonce (satMul tx.gasLimit tx.gasPrice) := by
    rw [applyTransaction, hp]
  rw [happly]
  rcases applyTransfer_cases c order s tx.fromAddr toAddr amount tx.nonce
    (satMul tx.gasLimit tx.gasPrice) with ⟨t, htr, ht, he⟩ | ⟨-, e, he⟩
  · rw [he]
    refine ⟨fun _ => transferEffect hsum hnonce htr ht, ?_⟩
    intro e herr
    cases herr
  · rw [he]
    refine ⟨?_, fun _ _ => rfl⟩
    intro hok
    cases hok

section Sample
open ParallelExecutor

theorem balanceSum_sampleLedger :
    balanceSum sampleLedger.state.stateTree < u64Max := by decide +kernel

set_option maxRecDepth 20000 in
/-- The transfer goes through and has its effect. -/
theorem applyTransaction_transfer_sample :
    TransferEffect sampleLedger.state
      (sampleLedger.state.applyTransaction sampleCrypto .sorted sampleAside).2 sampleAside
      (Bytes.fill 20 11) 100 := by
  apply (applyTransaction_transfer_law sampleCrypto .sorted sampleLedger.state sampleAside
    (Bytes.fill 20 11) 100 rfl balanceSum_sampleLedger (by decide +kernel)).1
  decide +kernel

end Sample

end StateManager

namespace ParallelExecutor
open StateManager

section Transfer
variable {c : Crypto} {wasm : Wasm} {leafOrder order : IterOrder Address Account} {ledger : Ledger}
  {tx : Transaction} {toAddr : Address} {amount : UInt64}

theorem readAccount_new (address : Address) (base : StateManager) :
    Overlay.new.readAccount address base = accountOrNew base.stateTree address := rfl

theorem readAccount_writeAccount (o : Overlay) (address a : Address) (account : Account)
    (base : StateManager) :
    (o.writeAccount address account).readAccount a base =
      if a = address then account else o.readAccount a base := by
  unfold Overlay.readAccount Overlay.writeAccount
  simp only [lookup_insert_eq_ite]
  by_cases h : a = address
  · rw [if_pos h, if_pos h]
  · rw [if_neg h, if_neg h]

/-- The three writes of a transfer on an empty overlay: the sender without the amount, the
receiver, and the sender without the fee. -/
def transferOverlay (base : StateManager) (tx : Transaction) (toAddr : Address)
    (amount : UInt64) : Overlay :=
  let sender := accountOrNew base.stateTree tx.fromAddr
  let paid : Account := ⟨satSub sender.balance amount, sender.nonce + 1⟩
  let overlay := Overlay.new.writeAccount tx.fromAddr paid
  let receiver := overlay.readAccount toAddr base
  (overlay.writeAccount toAddr ⟨satAdd receiver.balance amount, receiver.nonce⟩).writeAccount
    tx.fromAddr ⟨satSub paid.balance (satMul tx.gasLimit tx.gasPrice), paid.nonce⟩

theorem executeAlone_of_transfer (hp : tx.payload = .transfer toAddr amount)
    (hvalid : tx.validateBasic c = .ok ()) :
    executeAlone c wasm tx ledger =
      if (accountOrNew ledger.state.stateTree tx.fromAddr).nonce ≠ tx.nonce then
        (failure c tx ("Invalid nonce: expected " ++
          toString (accountOrNew ledger.state.stateTree tx.fromAddr).nonce ++ " got " ++
          toString tx.nonce), Overlay.new)
      else executeTransfer c tx Overlay.new ledger
        (accountOrNew ledger.state.stateTree tx.fromAddr) toAddr amount := by
  unfold executeAlone executeTransaction
  rw [hvalid, hp]
  rfl

/-- The checks of the parallel executor are those of `apply_transfer`. -/
theorem executeAlone_transfer_cases (wasm : Wasm) (hp : tx.payload = .transfer toAddr amount)
    (hvalid : tx.validateBasic c = .ok ()) (hsum : balanceSum ledger.state.stateTree < u64Max) :
    (ledger.state.Transferable tx.fromAddr amount tx.nonce (satMul tx.gasLimit tx.gasPrice) ∧
      executeAlone c wasm tx ledger =
        (success c tx tx.gasLimit, transferOverlay ledger.state tx toAddr amount)) ∨
      (¬ ledger.state.Transferable tx.fromAddr amount tx.nonce (satMul tx.gasLimit tx.gasPrice) ∧
        (executeAlone c wasm tx ledger).1.success = false) := by
  have hamount : amount ≠ 0 := by
    rintro rfl
    unfold Transaction.validateBasic at hvalid
    rw [hp] at hvalid
    split_ifs at hvalid with h₁ h₂ h₃
    exact h₃ rfl
  rw [executeAlone_of_transfer hp hvalid]
  by_cases hnonce : (accountOrNew ledger.state.stateTree tx.fromAddr).nonce = tx.nonce
  · rw [if_neg (not_not.mpr hnonce)]
    by_cases hless : (accountOrNew ledger.state.stateTree tx.fromAddr).balance <
        satAdd amount (satMul tx.gasLimit tx.gasPrice)
    · right
      refine ⟨fun h => absurd hless (UInt64.not_lt.mpr h.covered), ?_⟩
      simp only [executeTransfer, if_pos hless]
      rfl
    · left
      have htr : ledger.state.Transferable tx.fromAddr amount tx.nonce
          (satMul tx.gasLimit tx.gasPrice) := ⟨hamount, hnonce, UInt64.not_lt.mp hless⟩
      refine ⟨htr, ?_⟩
      obtain ⟨hcost, hlt⟩ := htr.toNat_satAdd_eq hsum
      have hcovered := UInt64.le_iff_toNat_le.mp htr.covered
      -- what is left after the amount covers the fee
      have hfee : ¬ satSub (accountOrNew ledger.state.stateTree tx.fromAddr).balance amount <
          satMul tx.gasLimit tx.gasPrice := by
        rw [UInt64.lt_iff_toNat_lt, toNat_satSub]
        omega
      simp only [executeTransfer, if_neg hless, chargeFee, if_neg hfee]
      rfl
  · rw [if_pos hnonce]
    exact Or.inr ⟨fun h => hnonce h.next, rfl⟩

theorem lookup_transferOverlay (base : StateManager) (a : Address) :
    (transferOverlay base tx toAddr amount).modifiedAccounts.lookup a =
      if a = tx.fromAddr then some ⟨satSub (satSub (accountOrNew base.stateTree tx.fromAddr).balance
          amount) (satMul tx.gasLimit tx.gasPrice),
        (accountOrNew base.stateTree tx.fromAddr).nonce + 1⟩
      else if a = toAddr then some ⟨satAdd (accountOrNew base.stateTree toAddr).balance amount,
        (accountOrNew base.stateTree toAddr).nonce⟩
      else none := by
  simp only [transferOverlay, Overlay.writeAccount]
  rw [lookup_insert_eq_ite]
  by_cases hfrom : a = tx.fromAddr
  · rw [if_pos hfrom, if_pos hfrom]
  · rw [if_neg hfrom, if_neg hfrom, lookup_insert_eq_ite]
    by_cases hto : a = toAddr
    · have hne : toAddr ≠ tx.fromAddr := hto ▸ hfrom
      rw [if_pos hto, if_pos hto]
      change some (Account.mk (satAdd ((Overlay.new.writeAccount tx.fromAddr _).readAccount toAddr
        base).balance amount) ((Overlay.new.writeAccount tx.fromAddr _).readAccount toAddr
        base).nonce) = _
      rw [readAccount_writeAccount, if_neg hne, readAccount_new]
    · rw [if_neg hto, if_neg hto, lookup_insert_eq_ite, if_neg hfrom]
      exact Finmap.lookup_empty a

/-- The account of the sender after both executors, which differ by the amount of a transfer to
oneself. -/
theorem leaves_agree_iff {t : SparseMerkleTree} (toAddr : Address)
    (htr : ledger.state.Transferable tx.fromAddr amount tx.nonce
      (satMul tx.gasLimit tx.gasPrice))
    (hsum : balanceSum ledger.state.stateTree < u64Max)
    (ht : t = ledger.state.stateTree.updateAccount c order tx.fromAddr
      ⟨(accountOrNew ledger.state.stateTree tx.fromAddr).balance -
        satAdd amount (satMul tx.gasLimit tx.gasPrice),
        (accountOrNew ledger.state.stateTree tx.fromAddr).nonce + 1⟩) :
    (transferOverlay ledger.state tx toAddr amount).modifiedAccounts ∪
        ledger.state.stateTree.leaves =
      (t.updateAccount c order toAddr
        ⟨(accountOrNew t toAddr).balance + amount, (accountOrNew t toAddr).nonce⟩).leaves ↔
      tx.fromAddr ≠ toAddr := by
  obtain ⟨hcost, hlt⟩ := htr.toNat_satAdd_eq hsum
  have hcovered := UInt64.le_iff_toNat_le.mp htr.covered
  have hsub := UInt64.toNat_sub_of_le _ _ htr.covered
  have hadd := toNat_add_of_lt (htr.receiver_fits hsum ht toAddr)
  have hpos : 0 < amount.toNat := UInt64.pos_iff_ne_zero.mpr htr.positive
  have hsender := htr.satSub_satSub_eq hsum
  constructor
  · intro h hself
    have hat := congrArg (Finmap.lookup tx.fromAddr) h
    rw [lookup_union, lookup_transferOverlay, if_pos rfl, Option.some_or,
      SparseMerkleTree.leaves_updateAccount, lookup_insert_eq_ite, if_pos hself,
      Option.some_inj, Account.mk.injEq, hsender] at hat
    have hnat := congrArg UInt64.toNat hat.1
    rw [hadd, ht, ← hself, accountOrNew_updateAccount, if_pos rfl] at hnat
    simp only at hnat
    omega
  · intro hne
    have hsame : accountOrNew t toAddr = accountOrNew ledger.state.stateTree toAddr := by
      rw [ht, accountOrNew_updateAccount, if_neg (Ne.symm hne)]
    rw [hsame] at hadd
    have hreceiver := satAdd_eq_add hadd
    apply Finmap.ext_lookup
    intro a
    rw [lookup_union, lookup_transferOverlay, SparseMerkleTree.leaves_updateAccount,
      lookup_insert_eq_ite, hsame, ht, SparseMerkleTree.leaves_updateAccount,
      lookup_insert_eq_ite, hsender, hreceiver]
    by_cases hfrom : a = tx.fromAddr
    · rw [if_pos hfrom, if_neg (hfrom ▸ hne), if_pos hfrom, Option.some_or]
    · rw [if_neg hfrom, if_neg hfrom]
      by_cases hto : a = toAddr
      · rw [if_pos hto, if_pos hto, Option.some_or]
      · rw [if_neg hto, if_neg hto, Option.none_or]

end Transfer

/-- Both executors accept or refuse the transaction, and leave the same accounts. -/
def TransferExecutorsAgree (c : Crypto) (wasm : Wasm) (leafOrder order : IterOrder Address Account)
    (ledger : Ledger) (tx : Transaction) : Prop :=
  ((executeAlone c wasm tx ledger).1.success = true ↔
      (ledger.state.applyTransaction c order tx).1 = .ok ()) ∧
    (mergeIfSuccessful c leafOrder (executeAlone c wasm tx ledger) ledger).state.stateTree.leaves =
      (ledger.state.applyTransaction c order tx).2.stateTree.leaves

/-- The executors agree on a transfer exactly if it is not to oneself, or is refused. -/
theorem transferExecutors_agree_iff (c : Crypto) (wasm : Wasm)
    (leafOrder order : IterOrder Address Account) (ledger : Ledger) (tx : Transaction)
    (toAddr : Address) (amount : UInt64) (hp : tx.payload = .transfer toAddr amount)
    (hvalid : tx.validateBasic c = .ok ())
    (hsum : balanceSum ledger.state.stateTree < u64Max) :
    TransferExecutorsAgree c wasm leafOrder order ledger tx ↔
      tx.fromAddr ≠ toAddr ∨ ¬ ledger.state.Transferable tx.fromAddr amount tx.nonce
        (satMul tx.gasLimit tx.gasPrice) := by
  have happly : ledger.state.applyTransaction c order tx = ledger.state.applyTransfer c order
      tx.fromAddr toAddr amount tx.nonce (satMul tx.gasLimit tx.gasPrice) := by
    rw [applyTransaction, hp]
  have hmerge := congrArg Contents.accounts
    (contents_mergeIfSuccessful c leafOrder (executeAlone c wasm tx ledger) ledger)
  change (mergeIfSuccessful c leafOrder (executeAlone c wasm tx ledger)
    ledger).state.stateTree.leaves = _ at hmerge
  unfold TransferExecutorsAgree
  rw [hmerge, happly]
  rcases applyTransfer_cases c order ledger.state tx.fromAddr toAddr amount tx.nonce
    (satMul tx.gasLimit tx.gasPrice) with ⟨t, htr, ht, he⟩ | ⟨hnot, e, he⟩
  · rcases executeAlone_transfer_cases wasm hp hvalid hsum with ⟨-, hpar⟩ | ⟨hnot, -⟩
    · rw [he, hpar]
      simp only [htr, not_true_eq_false, or_false]
      rw [← leaves_agree_iff toAddr htr hsum ht]
      exact and_iff_right (iff_of_true rfl trivial)
    · exact absurd htr hnot
  · rcases executeAlone_transfer_cases wasm hp hvalid hsum with ⟨htr, -⟩ | ⟨-, hpar⟩
    · exact absurd htr hnot
    · rw [he]
      refine iff_of_true ⟨?_, ?_⟩ (Or.inr hnot)
      · simp [hpar]
      · simp [applyResult, hpar, Ledger.contents]

section Sample

set_option maxRecDepth 20000 in
/-- The executors agree on a transfer to another account. -/
theorem transferExecutors_agree_sample :
    TransferExecutorsAgree sampleCrypto sampleWasm .sorted .sorted sampleLedger sampleAside := by
  apply (transferExecutors_agree_iff sampleCrypto sampleWasm .sorted .sorted sampleLedger
    sampleAside (Bytes.fill 20 11) 100 rfl (by decide +kernel)
    balanceSum_sampleLedger).mpr
  exact Or.inl (by decide)

def sampleToSelf : Transaction :=
  signedWith (.newTransfer sampleSenders.1 sampleSenders.1 100 0 21000 1)
    [89, 57, 62, 115, 155, 79, 169, 128, 136, 168, 158, 87, 177, 80, 38, 13, 238, 198, 62, 215,
    146, 194, 243, 135, 11, 148, 101, 62, 154, 155, 45, 221, 29, 193, 71, 36, 94, 151, 205, 242,
    242, 174, 156, 96, 159, 96, 35, 70, 76, 24, 200, 142, 203, 206, 70, 30, 206, 79, 185, 162, 9,
    22, 85, 28, 1]

set_option maxRecDepth 20000 in
/-- A hundred units sent to oneself are lost on the overlay. -/
theorem sampleToSelf_loses_amount :
    sampleToSelf.validateBasic (cryptoKnowing [sampleToSelf]) = .ok () ∧
      balanceSum (fundedLedger (cryptoKnowing [sampleToSelf]) ⟨∅⟩).state.stateTree < u64Max ∧
      ¬ TransferExecutorsAgree (cryptoKnowing [sampleToSelf]) sampleWasm .sorted .sorted
        (fundedLedger (cryptoKnowing [sampleToSelf]) ⟨∅⟩) sampleToSelf := by
  have hruns : (mergeIfSuccessful (cryptoKnowing [sampleToSelf]) .sorted
      (executeAlone (cryptoKnowing [sampleToSelf]) sampleWasm sampleToSelf
        (fundedLedger (cryptoKnowing [sampleToSelf]) ⟨∅⟩))
      (fundedLedger (cryptoKnowing [sampleToSelf]) ⟨∅⟩)).state.stateTree.leaves.lookup
        sampleSenders.1 = some ⟨978900, 1⟩ ∧
      ((fundedLedger (cryptoKnowing [sampleToSelf]) ⟨∅⟩).state.applyTransaction
        (cryptoKnowing [sampleToSelf]) .sorted sampleToSelf).2.stateTree.leaves.lookup
        sampleSenders.1 = some ⟨979000, 1⟩ := by decide +kernel
  refine ⟨by decide +kernel, by decide +kernel, ?_⟩
  intro h
  have hat := congrArg (Finmap.lookup sampleSenders.1) h.2
  rw [hruns.1, hruns.2] at hat
  exact absurd hat (by decide)

end Sample

end ParallelExecutor

end CytahSpeed
