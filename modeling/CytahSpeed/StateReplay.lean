import CytahSpeed.Emission

/-!
# Replay

A chain runs on the state that `initialize_tokenomics` prepares; `rebuild_from_blocks` replays it on
an empty tree, where nothing can be paid. The first transfer of the history stops the replay, and
the state that was to be rebuilt is gone by then.
-/

namespace CytahSpeed
open ByteString FiniteMap

namespace StateManager

def genesis (c : Crypto) (order : IterOrder Address Account) : StateManager :=
  (new c order).initializeTokenomics c order

def isTransfer (tx : Transaction) : Bool :=
  match tx.payload with
  | .transfer _ _ => true
  | _ => false

/-- A history that applies to the genesis state is replayed with the same balances and nonces, and a
replay that fails leaves the state as it was. -/
structure ReplaysExecution (c : Crypto) (order : IterOrder Address Account) (s : StateManager)
    (blocks : List Block) : Prop where
  replayed : (applyTransactions c order (genesis c order) (blocks.flatMap Block.transactions)).1 =
    .ok () → (rebuildFromBlocks c order blocks).1 = .ok () ∧
      ∀ a, accountOrNew (rebuildFromBlocks c order blocks).2.stateTree a =
        accountOrNew (applyTransactions c order (genesis c order)
          (blocks.flatMap Block.transactions)).2.stateTree a
  unchanged : ∀ e, (rebuildFromBlocks c order blocks).1 = .error e →
    (rebuildFromBlocks c order blocks).2 = s

variable {c : Crypto} {order : IterOrder Address Account}

theorem applyTransactions_of_no_transfer (c : Crypto) (order : IterOrder Address Account)
    (s : StateManager) (txs : List Transaction) (h : ∀ tx ∈ txs, isTransfer tx = false) :
    applyTransactions c order s txs = (.ok (), s) := by
  induction txs with
  | nil => rfl
  | cons tx txs ih =>
    have htx := h tx (List.mem_cons_self)
    have happly : s.applyTransaction c order tx = (.ok (), s) := by
      unfold isTransfer at htx
      unfold applyTransaction
      cases hp : tx.payload with
      | transfer toAddr amount =>
        rw [hp] at htx
        cases htx
      | contractDeploy wasmCode initArgs => rfl
      | contractCall contractAddress method args => rfl
    rw [applyTransactions, happly]
    exact ih fun tx' htx' => h tx' (List.mem_cons_of_mem tx htx')

theorem applyTransactions_new_ok_iff (c : Crypto) (order : IterOrder Address Account)
    (txs : List Transaction) :
    (applyTransactions c order (ofTree .new) txs).1 = .ok () ↔
      ∀ tx ∈ txs, isTransfer tx = false := by
  constructor
  · induction txs with
    | nil => exact fun _ tx htx => absurd htx List.not_mem_nil
    | cons tx txs ih =>
      intro h
      unfold applyTransactions applyTransaction at h
      cases hp : tx.payload with
      | transfer toAddr amount =>
        rw [hp] at h
        rcases applyTransfer_cases c order (ofTree .new) tx.fromAddr toAddr amount tx.nonce
          (MachineInt.satMul tx.gasLimit tx.gasPrice) with ⟨_, htr, -, -⟩ | ⟨-, e, he⟩
        · exact absurd htr (not_transferable_new _ _ _ _)
        · simp only [he] at h
          cases h
      | contractDeploy wasmCode initArgs =>
        rw [hp] at h
        rw [List.forall_mem_cons]
        exact ⟨by rw [isTransfer, hp], ih h⟩
      | contractCall contractAddress method args =>
        rw [hp] at h
        rw [List.forall_mem_cons]
        exact ⟨by rw [isTransfer, hp], ih h⟩
  · intro h
    rw [applyTransactions_of_no_transfer c order _ txs h]

theorem rebuildFromBlocks_ok_iff (c : Crypto) (order : IterOrder Address Account)
    (blocks : List Block) : (rebuildFromBlocks c order blocks).1 = .ok () ↔
      ∀ b ∈ blocks, ∀ tx ∈ b.transactions, isTransfer tx = false := by
  rw [rebuildFromBlocks, applyTransactions_new_ok_iff]
  simp only [List.mem_flatMap]
  constructor
  · intro h b hb tx htx
    exact h tx ⟨b, hb, htx⟩
  · rintro h tx ⟨b, hb, htx⟩
    exact h b hb tx htx

theorem rebuildFromBlocks_snd (c : Crypto) (order : IterOrder Address Account)
    (blocks : List Block) : (rebuildFromBlocks c order blocks).2 = ofTree .new :=
  applyTransactions_new _

theorem accountOrNew_genesis (c : Crypto) (order : IterOrder Address Account) :
    accountOrNew (genesis c order).stateTree genesisWallet = ⟨100000000, 0⟩ := by
  have hne : genesisWallet ≠ emissionStateAccount := by decide
  have hnew : accountOrNew (StateManager.new c order).stateTree genesisWallet = ⟨0, 0⟩ := by
    rw [StateManager.new, accountOrNew_updateAccount, if_neg hne, accountOrNew_updateAccount,
      if_pos rfl]
  simp only [genesis, initializeTokenomics, ofTree, accountOrNew_ensureAccount, hnew, if_true,
    accountOrNew_updateAccount]

theorem genesis_ne_new (c : Crypto) (order : IterOrder Address Account) :
    accountOrNew (ofTree .new).stateTree genesisWallet ≠
      accountOrNew (genesis c order).stateTree genesisWallet := by
  rw [accountOrNew_genesis]
  decide

/-- A replay does what it should only where it has nothing to do: the history does not apply to the
genesis state, and the state to be rebuilt is the empty one already. -/
theorem replaysExecution_iff (c : Crypto) (order : IterOrder Address Account) (s : StateManager)
    (blocks : List Block) : ReplaysExecution c order s blocks ↔
      (applyTransactions c order (genesis c order) (blocks.flatMap Block.transactions)).1 ≠
        .ok () ∧ s = ofTree .new := by
  constructor
  · intro h
    have hnot : (applyTransactions c order (genesis c order)
        (blocks.flatMap Block.transactions)).1 ≠ .ok () := by
      intro hok
      obtain ⟨hrebuilt, haccounts⟩ := h.replayed hok
      have hno := (applyTransactions_new_ok_iff c order _).mp hrebuilt
      have hwallet := haccounts genesisWallet
      rw [rebuildFromBlocks_snd, applyTransactions_of_no_transfer c order _ _ hno] at hwallet
      exact genesis_ne_new c order hwallet
    refine ⟨hnot, ?_⟩
    cases hrebuilt : (rebuildFromBlocks c order blocks).1 with
    | error e => rw [← h.unchanged e hrebuilt, rebuildFromBlocks_snd]
    | ok u =>
      have hno := (applyTransactions_new_ok_iff c order _).mp hrebuilt
      rw [applyTransactions_of_no_transfer c order _ _ hno] at hnot
      exact absurd rfl hnot
  · rintro ⟨hnot, rfl⟩
    exact ⟨fun hok => absurd hok hnot, fun e _ => rebuildFromBlocks_snd c order blocks⟩

theorem getAccount_updateAccount_ne_none {t : SparseMerkleTree} {a : Address}
    (h : t.getAccount a ≠ none) (b : Address) (account : Account) :
    (t.updateAccount c order b account).getAccount a ≠ none := by
  rw [SparseMerkleTree.getAccount, SparseMerkleTree.leaves_updateAccount, lookup_insert_eq_ite]
  split_ifs
  · exact Option.some_ne_none _
  · exact h

theorem getAccount_applyTransactions_ne_none (txs : List Transaction) (s : StateManager)
    {a : Address} (h : s.stateTree.getAccount a ≠ none) :
    (applyTransactions c order s txs).2.stateTree.getAccount a ≠ none := by
  induction txs generalizing s with
  | nil => exact h
  | cons tx txs ih =>
    have hstep : (s.applyTransaction c order tx).2.stateTree.getAccount a ≠ none := by
      unfold applyTransaction
      cases tx.payload with
      | transfer toAddr amount =>
        rcases applyTransfer_cases c order s tx.fromAddr toAddr amount tx.nonce
          (MachineInt.satMul tx.gasLimit tx.gasPrice) with ⟨t, -, ht, he⟩ | ⟨-, e, he⟩
        · simp only [he, ht]
          exact getAccount_updateAccount_ne_none (getAccount_updateAccount_ne_none h _ _) _ _
        · simp only [he]
          exact h
      | contractDeploy wasmCode initArgs => exact h
      | contractCall contractAddress method args => exact h
    rw [applyTransactions]
    rcases happly : s.applyTransaction c order tx with ⟨_ | _, s'⟩
    · rw [happly] at hstep
      exact hstep
    · rw [happly] at hstep
      exact ih s' hstep

theorem applyTransactions_genesis_ne (c : Crypto) (order : IterOrder Address Account)
    (txs : List Transaction) :
    (applyTransactions c order (genesis c order) txs).2 ≠ ofTree .new := by
  intro h
  refine getAccount_applyTransactions_ne_none txs (genesis c order) ?_ (a := genesisWallet)
    (by rw [h]; rfl)
  intro hnone
  have hwallet := accountOrNew_genesis c order
  rw [accountOrNew, hnone] at hwallet
  cases hwallet

section Sample

def sampleSpend : Block :=
  .new .hashOnly [] 1000 [.newTransfer genesisWallet sampleMiner 5 0 0 0] 0 0 0 sampleMiner
    (Bytes.zero 32)

/-- The payment applies to the genesis state, and the replay refuses it and forgets the state. -/
theorem sampleSpend_not_replayed :
    ((applyTransactions .hashOnly .sorted (genesis .hashOnly .sorted)
        ([sampleSpend].flatMap Block.transactions)).1 = .ok () ∧
      (rebuildFromBlocks .hashOnly .sorted [sampleSpend]).1 =
        .error "Insufficient balance for amount and fee" ∧
      (accountOrNew (rebuildFromBlocks .hashOnly .sorted [sampleSpend]).2.stateTree
        genesisWallet).balance = 0) ∧
      ¬ ReplaysExecution .hashOnly .sorted (genesis .hashOnly .sorted) [sampleSpend] := by
  have happlied : (applyTransactions .hashOnly .sorted (genesis .hashOnly .sorted)
      ([sampleSpend].flatMap Block.transactions)).1 = .ok () := by decide +kernel
  have hrefused : (rebuildFromBlocks .hashOnly .sorted [sampleSpend]).1 =
      .error "Insufficient balance for amount and fee" := by decide +kernel
  refine ⟨⟨happlied, hrefused, by decide +kernel⟩, ?_⟩
  intro h
  have hrebuilt := (h.replayed happlied).1
  rw [hrefused] at hrebuilt
  cases hrebuilt

end Sample

end StateManager

end CytahSpeed
