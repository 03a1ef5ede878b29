import CytahSpeed.Emission
import CytahSpeed.ParallelExecutor
import CytahSpeed.StateRoot

/-!
# The stored root

The root of the account tree is stored beside the tree, and a write to the tree leaves it behind.
Every call that changes the state manager stores the root of the tree again after its last write,
also where it is refused on the way or stops within a block, so the stored root is that of the
tree at all times, and the tree that of the accounts.
-/

namespace CytahSpeed
open ByteString FiniteMap

namespace SparseMerkleTree

inductive Written (c : Crypto) (t : SparseMerkleTree) : SparseMerkleTree → Prop
  | refl : Written c t t
  | write (t' : SparseMerkleTree) (order : IterOrder Address Account) (address : Address)
      (account : Account) : Written c t t' → Written c t (t'.updateAccount c order address account)

variable {c : Crypto} {t t' t'' : SparseMerkleTree}

theorem Written.trans (h : Written c t t') (h' : Written c t' t'') : Written c t t'' := by
  induction h' with
  | refl => exact h
  | write t'' order address account _ ih => exact Written.write _ order address account ih

theorem Written.one (c : Crypto) (t : SparseMerkleTree) (order : IterOrder Address Account)
    (address : Address) (account : Account) :
    Written c t (t.updateAccount c order address account) :=
  Written.write _ order address account Written.refl

theorem Written.foldl (t : SparseMerkleTree) (order : IterOrder Address Account)
    (l : List (Address × Account)) :
    Written c t (l.foldl (fun t e => t.updateAccount c order e.1 e.2) t) := by
  induction l generalizing t with
  | nil => exact Written.refl
  | cons e l ih => exact (Written.one c t order e.1 e.2).trans (ih _)

theorem Built.written (ht : Built c t) (h : Written c t t') : Built c t' := by
  induction h with
  | refl => exact ht
  | write t' order address account _ ih => exact Built.update _ order address account ih

end SparseMerkleTree

namespace StateManager
open SparseMerkleTree

/-- How a call ends: without a write, or with the root of the tree it has written, which may be a
new one. -/
inductive Settled (c : Crypto) (s : StateManager) : StateManager → Prop
  | unchanged : Settled c s s
  | rehashed {t : SparseMerkleTree} : Written c s.stateTree t → Settled c s (ofTree t)
  | rebuilt {t : SparseMerkleTree} : Written c .new t → Settled c s (ofTree t)

/-- The stored root is the root of the tree, and the tree is a Merkle tree over the accounts, each
of which is a leaf once. Without accounts there is no root node. -/
structure Current (c : Crypto) (s : StateManager) : Prop where
  stored : s.currentStateRoot = s.stateTree.calculateRoot
  empty : s.stateTree.leaves = ∅ → s.stateTree.root = none
  merkle : s.stateTree.leaves ≠ ∅ → ∃ root, s.stateTree.root = some root ∧
    root.WellHashed c ∧ Enumerates root.entries s.stateTree.leaves

def Rooted (c : Crypto) (s : StateManager) : Prop := ∃ t, Built c t ∧ s = ofTree t

variable {c : Crypto} {order : IterOrder Address Account} {s s' s'' : StateManager}

theorem Settled.trans (h : Settled c s s') (h' : Settled c s' s'') : Settled c s s'' := by
  cases h' with
  | unchanged => exact h
  | rebuilt hw' => exact Settled.rebuilt hw'
  | rehashed hw' =>
    cases h with
    | unchanged => exact Settled.rehashed hw'
    | rehashed hw => exact Settled.rehashed (hw.trans hw')
    | rebuilt hw => exact Settled.rebuilt (hw.trans hw')

section Calls
variable (c order s)

theorem written_ensureAccount (t : SparseMerkleTree) (address : Address) :
    Written c t (ensureAccount c order t address) := by
  unfold ensureAccount
  cases t.getAccount address with
  | some account => exact Written.refl
  | none => exact Written.one c t order address ⟨0, 0⟩

theorem settled_initializeTokenomics : Settled c s (s.initializeTokenomics c order) := by
  have hfirst := written_ensureAccount c order s.stateTree genesisWallet
  unfold initializeTokenomics
  simp only
  split_ifs with hzero
  · have hfilled := Written.one c (ensureAccount c order s.stateTree genesisWallet) order
      genesisWallet ⟨100000000, (accountOrNew (ensureAccount c order s.stateTree genesisWallet)
        genesisWallet).nonce⟩
    exact Settled.rehashed ((hfirst.trans hfilled).trans (written_ensureAccount c order _ _))
  · exact Settled.rehashed (hfirst.trans (written_ensureAccount c order _ _))

theorem settled_addEmittedSupply (amount : UInt64) :
    Settled c s (s.addEmittedSupply c order amount) := by
  unfold addEmittedSupply
  simp only
  split_ifs
  · exact Settled.unchanged
  · exact Settled.unchanged
  · exact Settled.rehashed (Written.one c _ order _ _)

theorem settled_applyTransfer (fromAddr toAddr : Address) (amount nonce fee : UInt64) :
    Settled c s (s.applyTransfer c order fromAddr toAddr amount nonce fee).2 := by
  rcases applyTransfer_cases c order s fromAddr toAddr amount nonce fee with
    ⟨t, -, ht, hpaid⟩ | ⟨-, e, hrefused⟩
  · -- the sender is written, then the receiver, then the root
    have hsender : Written c s.stateTree t := by
      rw [ht]
      exact Written.one c _ order _ _
    rw [hpaid]
    exact Settled.rehashed (hsender.trans (Written.one c t order _ _))
  · rw [hrefused]
    exact Settled.unchanged

theorem settled_applyTransaction (tx : Transaction) :
    Settled c s (s.applyTransaction c order tx).2 := by
  unfold applyTransaction
  cases tx.payload with
  | transfer toAddr amount => exact settled_applyTransfer c order s _ _ _ _ _
  | contractDeploy wasmCode initArgs => exact Settled.unchanged
  | contractCall contractAddress method args => exact Settled.unchanged

theorem settled_deductFee (fromAddr : Address) (fee : UInt64) :
    Settled c s (s.deductFee c order fromAddr fee).2 := by
  unfold deductFee
  simp only
  split_ifs
  · exact Settled.unchanged
  · exact Settled.unchanged
  · exact Settled.rehashed (Written.one c _ order _ _)

theorem settled_creditAccount (toAddr : Address) (amount : UInt64) :
    Settled c s (s.creditAccount c order toAddr amount).2 := by
  unfold creditAccount
  simp only
  split_ifs
  · exact Settled.unchanged
  · exact Settled.unchanged
  · exact Settled.rehashed (Written.one c _ order _ _)

theorem settled_applyTransactions (txs : List Transaction) :
    Settled c s (applyTransactions c order s txs).2 := by
  induction txs generalizing s with
  | nil => exact Settled.unchanged
  | cons tx txs ih =>
    have hfirst := settled_applyTransaction c order s tx
    unfold applyTransactions
    cases hr : s.applyTransaction c order tx with
    | mk result s' =>
      rw [hr] at hfirst
      cases result with
      | error e => exact hfirst
      | ok u => exact hfirst.trans (ih s')

theorem settled_rebuildFromBlocks (blocks : List Block) :
    Settled c s (rebuildFromBlocks c order blocks).2 := by
  have hreset : Settled c s (ofTree .new) := Settled.rebuilt Written.refl
  exact hreset.trans (settled_applyTransactions c order (ofTree .new) _)

theorem settled_execCall (call : StateCall) : Settled c s (s.execCall c order call) := by
  cases call with
  | applyBlock transactions => exact Settled.unchanged
  | rebuildFromBlocks blocks => exact settled_rebuildFromBlocks c order s blocks
  | supply call =>
    cases call with
    | initializeTokenomics => exact settled_initializeTokenomics c order s
    | applyTransaction tx => exact settled_applyTransaction c order s tx
    | deductFee fromAddr fee => exact settled_deductFee c order s fromAddr fee
    | creditAccount toAddr amount => exact settled_creditAccount c order s toAddr amount
    | addEmittedSupply amount => exact settled_addEmittedSupply c order s amount

theorem rooted_new : Rooted c (new c order) :=
  ⟨_, Built.update _ order emissionStateAccount ⟨0, 0⟩
    (Built.update _ order genesisWallet ⟨0, 0⟩ Built.new), rfl⟩

end Calls

theorem Rooted.settled (h : Rooted c s) (hs : Settled c s s') : Rooted c s' := by
  obtain ⟨t, ht, rfl⟩ := h
  cases hs with
  | unchanged => exact ⟨t, ht, rfl⟩
  | rehashed hw => exact ⟨_, ht.written hw, rfl⟩
  | rebuilt hw => exact ⟨_, Built.new.written hw, rfl⟩

theorem Rooted.current (h : Rooted c s) : Current c s := by
  obtain ⟨t, ht, rfl⟩ := h
  refine ⟨rfl, ?_, ht.exists_root⟩
  intro hempty
  obtain ⟨l, hl, hroot⟩ := ht.root_eq
  have hlen : l.length = 0 := by
    rw [hl.length_eq]
    change t.leaves = ∅ at hempty
    rw [hempty]
    rfl
  rw [List.length_eq_zero_iff] at hlen
  change t.root = none
  rw [hroot, hlen]
  rfl

end StateManager

namespace ParallelExecutor
open StateManager

/-- What changes the state manager: its own calls, and the merge of an overlay. -/
inductive LedgerCall
  | state (call : StateCall)
  | mergeOverlay (overlay : Overlay)

namespace Ledger
variable (c : Crypto) (order : IterOrder Address Account)

def exec (ledger : Ledger) : LedgerCall → Ledger
  | .state call => { ledger with state := ledger.state.execCall c order call }
  | .mergeOverlay overlay => ParallelExecutor.mergeOverlay c order overlay ledger

def run (ledger : Ledger) (calls : List (IterOrder Address Account × LedgerCall)) : Ledger :=
  calls.foldl (fun ledger e => ledger.exec c e.1 e.2) ledger

theorem settled_exec (ledger : Ledger) (call : LedgerCall) :
    Settled c ledger.state (ledger.exec c order call).state := by
  cases call with
  | state call => exact settled_execCall c order ledger.state call
  | mergeOverlay overlay => exact Settled.rehashed (SparseMerkleTree.Written.foldl _ order _)

theorem rooted_run (ledger : Ledger) (hrooted : Rooted c ledger.state)
    (calls : List (IterOrder Address Account × LedgerCall)) :
    Rooted c (ledger.run c calls).state := by
  induction calls generalizing ledger with
  | nil => exact hrooted
  | cons e calls ih => exact ih _ (hrooted.settled (settled_exec c e.1 ledger e.2))

/-- From the initial state, whatever is called and in whatever orders the accounts are iterated,
the stored root is current. -/
theorem storedRoot_current (c : Crypto) (first : IterOrder Address Account)
    (registry : ContractRegistry) (storage : ContractStorage)
    (calls : List (IterOrder Address Account × LedgerCall)) :
    Current c (run c ⟨new c first, registry, storage⟩ calls).state :=
  (rooted_run c _ (rooted_new c first) calls).current

end Ledger

end ParallelExecutor

end CytahSpeed
