import CytahSpeed.StepRun
import CytahSpeed.Tokenomics

/-!
# The emission counter

The counter of emitted supply is the balance of an account at a fixed address, in the tree that
every other operation writes. Only `add_emitted_supply` means to change it; a transfer, a fee or a
credit that names the address changes it as well, and a rebuild starts from an empty tree. A run
without such calls keeps the counter to what `add_emitted_supply` added, within the mining supply.
-/

namespace CytahSpeed
open ByteString FiniteMap MachineInt

namespace StateManager

variable (c : Crypto) (order : IterOrder Address Account) (s : StateManager)

def getEmittedSupply : UInt64 :=
  ((s.stateTree.getAccount emissionStateAccount).map Account.balance).getD 0

/-- Transactions have changed the state already when a block is applied. -/
def applyBlock (_transactions : List Transaction) : Except String Unit × StateManager := (.ok (), s)

/-- Transactions one after the other, up to the first that is refused. -/
def applyTransactions (s : StateManager) :
    List Transaction → Except String Unit × StateManager
  | [] => (.ok (), s)
  | tx :: txs =>
    match s.applyTransaction c order tx with
    | (.error e, s') => (.error e, s')
    | (.ok _, s') => applyTransactions s' txs

/-- `rebuild_from_blocks`: the transactions are replayed on an empty tree. -/
def rebuildFromBlocks (blocks : List Block) : Except String Unit × StateManager :=
  applyTransactions c order (ofTree .new) (blocks.flatMap Block.transactions)

inductive StateCall
  | supply (call : SupplyCall)
  | applyBlock (transactions : List Transaction)
  | rebuildFromBlocks (blocks : List Block)

def StateCall.isAddEmittedSupply : StateCall → Bool
  | .supply (.addEmittedSupply _) => true
  | _ => false

def execCall : StateCall → StateManager
  | .supply call => s.exec c order call
  | .applyBlock transactions => (s.applyBlock transactions).2
  | .rebuildFromBlocks blocks => (rebuildFromBlocks c order blocks).2

/-- The counter changes in `add_emitted_supply` only, does not fall and stays within the mining
supply. -/
structure CounterStep (call : StateCall) : Prop where
  onlyInAdd : call.isAddEmittedSupply = false →
    (s.execCall c order call).getEmittedSupply = s.getEmittedSupply
  monotone : s.getEmittedSupply ≤ (s.execCall c order call).getEmittedSupply
  capped : (s.execCall c order call).getEmittedSupply ≤ UInt64.ofNat Mining.ctsMiningSupply

/-- A transfer that goes through does not name the emission account, or returns to it what it
takes; a fee taken from it or a credit to it is zero or refused; the tree is rebuilt before
anything was emitted. -/
def KeepsCounter : StateCall → Prop
  | .supply (.applyTransaction tx) =>
    match tx.payload with
    | .transfer toAddr amount =>
      s.Transferable tx.fromAddr amount tx.nonce (satMul tx.gasLimit tx.gasPrice) →
        (tx.fromAddr ≠ emissionStateAccount ∧ toAddr ≠ emissionStateAccount) ∨
          (tx.fromAddr = emissionStateAccount ∧ toAddr = emissionStateAccount ∧
            satAdd amount (satMul tx.gasLimit tx.gasPrice) = amount)
    | _ => True
  | .supply (.deductFee fromAddr fee) =>
    fromAddr = emissionStateAccount →
      fee = 0 ∨ (accountOrNew s.stateTree emissionStateAccount).balance < fee
  | .supply (.creditAccount toAddr amount) =>
    toAddr = emissionStateAccount → amount = 0 ∨ s.exceedsCap order amount = true
  | .rebuildFromBlocks _ => s.getEmittedSupply = 0
  | _ => True

section Counter
variable {c order s} {t : SparseMerkleTree}

theorem getEmittedSupply_eq (s : StateManager) :
    s.getEmittedSupply = (accountOrNew s.stateTree emissionStateAccount).balance := by
  unfold getEmittedSupply accountOrNew
  cases s.stateTree.getAccount emissionStateAccount <;> rfl

theorem getEmittedSupply_updateAccount (a : Address) (account : Account) :
    (ofTree (t.updateAccount c order a account)).getEmittedSupply =
      if emissionStateAccount = a then account.balance else (ofTree t).getEmittedSupply := by
  rw [getEmittedSupply_eq, getEmittedSupply_eq, ofTree, accountOrNew_updateAccount]
  by_cases h : emissionStateAccount = a
  · rw [if_pos h, if_pos h]
  · rw [if_neg h, if_neg h]
    rfl

theorem getEmittedSupply_initializeTokenomics (c : Crypto) (order : IterOrder Address Account)
    (s : StateManager) :
    (s.initializeTokenomics c order).getEmittedSupply = s.getEmittedSupply := by
  have hne : emissionStateAccount ≠ genesisWallet := by decide
  rw [getEmittedSupply_eq, getEmittedSupply_eq]
  simp only [initializeTokenomics, ofTree, accountOrNew_ensureAccount]
  by_cases hzero : (accountOrNew s.stateTree genesisWallet).balance = 0
  · rw [if_pos hzero, accountOrNew_updateAccount, if_neg hne, accountOrNew_ensureAccount]
  · rw [if_neg hzero, accountOrNew_ensureAccount]

theorem toNat_getEmittedSupply_addEmittedSupply (c : Crypto) (order : IterOrder Address Account)
    (s : StateManager) (amount : UInt64)
    (hcap : s.getEmittedSupply.toNat ≤ Mining.ctsMiningSupply) :
    (s.addEmittedSupply c order amount).getEmittedSupply.toNat =
      min (s.getEmittedSupply.toNat + amount.toNat) Mining.ctsMiningSupply := by
  have hword : (UInt64.ofNat Mining.ctsMiningSupply).toNat = Mining.ctsMiningSupply := rfl
  have hmax : Mining.ctsMiningSupply < u64Max := by decide
  rw [getEmittedSupply_eq] at hcap
  unfold addEmittedSupply
  by_cases hzero : amount = 0
  · rw [if_pos hzero, hzero, getEmittedSupply_eq]
    simp [hcap]
  · rw [if_neg hzero]
    simp only
    by_cases hrest : satSub (UInt64.ofNat Mining.ctsMiningSupply)
        (accountOrNew s.stateTree emissionStateAccount).balance = 0
    · have hsub := congrArg UInt64.toNat hrest
      rw [toNat_satSub, hword, UInt64.toNat_zero] at hsub
      rw [if_pos hrest, getEmittedSupply_eq]
      omega
    · rw [if_neg hrest, getEmittedSupply_updateAccount, if_pos rfl, getEmittedSupply_eq,
        toNat_satAdd, UInt64.toNat_min, toNat_satSub, hword]
      omega

theorem getEmittedSupply_applyTransfer {fromAddr toAddr : Address} {amount nonce fee : UInt64}
    (h : s.Transferable fromAddr amount nonce fee) :
    (s.applyTransfer c order fromAddr toAddr amount nonce fee).2.getEmittedSupply =
      (if fromAddr = emissionStateAccount then s.getEmittedSupply - satAdd amount fee
        else s.getEmittedSupply) + if toAddr = emissionStateAccount then amount else 0 := by
  rw [getEmittedSupply_eq, accountOrNew_applyTransfer h, getEmittedSupply_eq]
  by_cases hfrom : fromAddr = emissionStateAccount
  · by_cases hto : toAddr = emissionStateAccount
    · simp [hfrom, hto]
    · simp [hfrom, hto, Ne.symm hto]
  · by_cases hto : toAddr = emissionStateAccount
    · simp [hto, hfrom, Ne.symm hfrom]
    · simp [hto, hfrom, Ne.symm hfrom, Ne.symm hto]

theorem Transferable.satAdd_ne_zero {fromAddr : Address} {amount nonce fee : UInt64}
    (h : s.Transferable fromAddr amount nonce fee) : satAdd amount fee ≠ 0 := by
  intro hzero
  have hnat := congrArg UInt64.toNat hzero
  have hpos : 0 < amount.toNat := UInt64.pos_iff_ne_zero.mpr h.positive
  have hmax : 0 < u64Max := by decide
  rw [toNat_satAdd, UInt64.toNat_zero] at hnat
  omega

theorem getEmittedSupply_applyTransfer_eq_iff (fromAddr toAddr : Address)
    (amount nonce fee : UInt64) :
    (s.applyTransfer c order fromAddr toAddr amount nonce fee).2.getEmittedSupply =
        s.getEmittedSupply ↔
      (s.Transferable fromAddr amount nonce fee →
        (fromAddr ≠ emissionStateAccount ∧ toAddr ≠ emissionStateAccount) ∨
          (fromAddr = emissionStateAccount ∧ toAddr = emissionStateAccount ∧
            satAdd amount fee = amount)) := by
  by_cases htr : s.Transferable fromAddr amount nonce fee
  · have hamount := htr.positive
    have hcost := htr.satAdd_ne_zero
    rw [getEmittedSupply_applyTransfer htr]
    simp only [htr, forall_const]
    by_cases hfrom : fromAddr = emissionStateAccount
    · by_cases hto : toAddr = emissionStateAccount
      · simp only [hfrom, hto, if_true, ne_eq, not_true_eq_false, true_and, false_and, false_or]
        grind
      · simp only [hfrom, hto, if_true, if_false, ne_eq, not_true_eq_false, false_and, and_false,
          or_false, iff_false]
        grind
    · by_cases hto : toAddr = emissionStateAccount
      · simp only [hfrom, hto, if_true, if_false, ne_eq, not_true_eq_false, false_and, and_false,
          or_false, iff_false]
        grind
      · simp [hfrom, hto]
  · rcases applyTransfer_cases c order s fromAddr toAddr amount nonce fee with
      ⟨t, h, -⟩ | ⟨-, e, he⟩
    · exact absurd h htr
    · rw [he]
      simp only [true_iff]
      exact fun h => absurd h htr

theorem getEmittedSupply_deductFee_eq_iff (fromAddr : Address) (fee : UInt64) :
    (s.deductFee c order fromAddr fee).2.getEmittedSupply = s.getEmittedSupply ↔
      (fromAddr = emissionStateAccount →
        fee = 0 ∨ (accountOrNew s.stateTree emissionStateAccount).balance < fee) := by
  simp only [deductFee]
  split_ifs with hzero hless
  · simp [hzero]
  · simp only [true_iff]
    rintro rfl
    exact Or.inr hless
  · rw [getEmittedSupply_updateAccount]
    by_cases hfrom : fromAddr = emissionStateAccount
    · rw [if_pos hfrom.symm, getEmittedSupply_eq]
      rw [hfrom] at hless ⊢
      simp only [hzero, hless, forall_const, or_self, iff_false]
      grind
    · rw [if_neg (Ne.symm hfrom)]
      simp only [hfrom, false_implies, iff_true]
      rfl

theorem getEmittedSupply_creditAccount_eq_iff (toAddr : Address) (amount : UInt64) :
    (s.creditAccount c order toAddr amount).2.getEmittedSupply = s.getEmittedSupply ↔
      (toAddr = emissionStateAccount → amount = 0 ∨ s.exceedsCap order amount = true) := by
  simp only [creditAccount]
  split_ifs with hzero hexceeds
  · simp [hzero]
  · simp [hexceeds]
  · rw [getEmittedSupply_updateAccount]
    by_cases hto : toAddr = emissionStateAccount
    · rw [if_pos hto.symm, getEmittedSupply_eq, hto]
      simp only [hzero, hexceeds, forall_const, or_self, iff_false, Bool.false_eq_true]
      grind
    · rw [if_neg (Ne.symm hto)]
      simp only [hto, false_implies, iff_true]
      rfl

theorem not_transferable_new (fromAddr : Address) (amount nonce fee : UInt64) :
    ¬ (ofTree .new).Transferable fromAddr amount nonce fee := by
  intro h
  have hcovered : satAdd amount fee ≤ 0 := h.covered
  exact h.satAdd_ne_zero (UInt64.le_zero_iff.mp hcovered)

theorem applyTransactions_new (txs : List Transaction) :
    (applyTransactions c order (ofTree .new) txs).2 = ofTree .new := by
  induction txs with
  | nil => rfl
  | cons tx txs ih =>
    unfold applyTransactions applyTransaction
    cases tx.payload with
    | contractDeploy wasmCode initArgs => exact ih
    | contractCall contractAddress method args => exact ih
    | transfer toAddr amount =>
      rcases applyTransfer_cases c order (ofTree .new) tx.fromAddr toAddr amount tx.nonce
        (satMul tx.gasLimit tx.gasPrice) with ⟨_, htr, -, -⟩ | ⟨-, e, he⟩
      · exact absurd htr (not_transferable_new _ _ _ _)
      · simp only [he]

theorem getEmittedSupply_rebuildFromBlocks (blocks : List Block) :
    (rebuildFromBlocks c order blocks).2.getEmittedSupply = 0 := by
  rw [rebuildFromBlocks, applyTransactions_new]
  rfl

theorem getEmittedSupply_execCall_eq_iff {call : StateCall}
    (hcall : call.isAddEmittedSupply = false) :
    (s.execCall c order call).getEmittedSupply = s.getEmittedSupply ↔
      s.KeepsCounter order call := by
  cases call with
  | applyBlock transactions => exact iff_of_true rfl trivial
  | rebuildFromBlocks blocks =>
    rw [execCall, getEmittedSupply_rebuildFromBlocks]
    exact eq_comm
  | supply call =>
    cases call with
    | initializeTokenomics =>
      exact iff_of_true (getEmittedSupply_initializeTokenomics c order s) trivial
    | deductFee fromAddr fee => exact getEmittedSupply_deductFee_eq_iff fromAddr fee
    | creditAccount toAddr amount => exact getEmittedSupply_creditAccount_eq_iff toAddr amount
    | addEmittedSupply amount => cases hcall
    | applyTransaction tx =>
      simp only [execCall, exec, applyTransaction, KeepsCounter]
      cases tx.payload with
      | contractDeploy wasmCode initArgs => exact iff_of_true rfl trivial
      | contractCall contractAddress method args => exact iff_of_true rfl trivial
      | transfer toAddr amount => exact getEmittedSupply_applyTransfer_eq_iff _ _ _ _ _

theorem counterStep_iff {call : StateCall}
    (hcap : s.getEmittedSupply.toNat ≤ Mining.ctsMiningSupply) :
    s.CounterStep c order call ↔ s.KeepsCounter order call := by
  have hword : (UInt64.ofNat Mining.ctsMiningSupply).toNat = Mining.ctsMiningSupply := rfl
  cases hcall : call.isAddEmittedSupply with
  | false =>
    rw [← getEmittedSupply_execCall_eq_iff (c := c) hcall]
    constructor
    · exact fun h => h.onlyInAdd hcall
    · intro h
      refine ⟨fun _ => h, UInt64.le_iff_toNat_le.mpr (congrArg UInt64.toNat h).ge, ?_⟩
      rwa [h, UInt64.le_iff_toNat_le, hword]
  | true =>
    obtain ⟨amount, rfl⟩ : ∃ amount, call = .supply (.addEmittedSupply amount) := by
      unfold StateCall.isAddEmittedSupply at hcall
      split at hcall
      · exact ⟨_, rfl⟩
      · cases hcall
    have hadd := toNat_getEmittedSupply_addEmittedSupply c order s amount hcap
    refine iff_of_true ⟨fun h => (by rw [h] at hcall; cases hcall), ?_, ?_⟩ trivial
    · rw [UInt64.le_iff_toNat_le]
      change _ ≤ (s.addEmittedSupply c order amount).getEmittedSupply.toNat
      omega
    · rw [UInt64.le_iff_toNat_le, hword]
      change (s.addEmittedSupply c order amount).getEmittedSupply.toNat ≤ _
      omega

end Counter

def stepCall (s : StateManager) (e : IterOrder Address Account × StateCall) : StateManager :=
  s.execCall c e.1 e.2

/-- In every run from the initial state, every step keeps the counter to `add_emitted_supply` and
the mining supply exactly if every call of the run keeps the counter at its turn. -/
theorem counter_tamperProof_iff (c : Crypto) (first : IterOrder Address Account)
    (calls : List (IterOrder Address Account × StateCall)) :
    StepRun.Along (stepCall c) (fun s e => s.CounterStep c e.1 e.2) (new c first) calls ↔
      StepRun.Along (stepCall c) (fun s e => s.KeepsCounter e.1 e.2) (new c first) calls := by
  have hword : (UInt64.ofNat Mining.ctsMiningSupply).toNat = Mining.ctsMiningSupply := rfl
  have hcapped : ∀ (s : StateManager) (e : IterOrder Address Account × StateCall),
      s.CounterStep c e.1 e.2 →
        (stepCall c s e).getEmittedSupply.toNat ≤ Mining.ctsMiningSupply := by
    intro s e h
    rw [← hword]
    exact UInt64.le_iff_toNat_le.mp h.capped
  have hnew : (new c first).getEmittedSupply.toNat ≤ Mining.ctsMiningSupply := by
    change (ofTree (SparseMerkleTree.updateAccount c first _ _ _)).getEmittedSupply.toNat ≤ _
    rw [getEmittedSupply_updateAccount, if_pos rfl]
    exact Nat.zero_le _
  exact StepRun.along_iff_of_invariant
    (I := fun s : StateManager => s.getEmittedSupply.toNat ≤ Mining.ctsMiningSupply) hnew
    (fun s e _ he => hcapped s e he) (fun _ _ hs => counterStep_iff hs) _

def sampleTampering : List (IterOrder Address Account × StateCall) :=
  [(.sorted, .supply (.creditAccount sampleMiner 1000)),
    (.sorted, .supply (.applyTransaction
      (.newTransfer sampleMiner emissionStateAccount 5 0 0 0)))]

/-- The transfer changes the counter, which no `add_emitted_supply` has touched. -/
theorem transfer_changes_counter :
    ((new .hashOnly .sorted).getEmittedSupply = 0 ∧
      (sampleTampering.foldl (stepCall .hashOnly) (new .hashOnly .sorted)).getEmittedSupply = 5) ∧
      ¬ StepRun.Along (stepCall .hashOnly) (fun s e => s.CounterStep .hashOnly e.1 e.2)
        (new .hashOnly .sorted) sampleTampering := by
  have hruns : (sampleTampering.foldl (stepCall .hashOnly)
      (new .hashOnly .sorted)).getEmittedSupply = 5 := by decide +kernel
  refine ⟨⟨by decide +kernel, hruns⟩, ?_⟩
  intro h
  have hfirst := h.1.onlyInAdd rfl
  have hsecond := h.2.1.onlyInAdd rfl
  have hzero : (new .hashOnly .sorted).getEmittedSupply = 0 := by decide +kernel
  have hfive := hruns.symm.trans (hsecond.trans (hfirst.trans hzero))
  exact absurd hfive (by decide)

end StateManager

end CytahSpeed
