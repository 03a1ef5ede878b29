import CytahSpeed.ConflictSchedule
import CytahSpeed.TraceOrder

/-!
# What a transaction reads and changes

The contents of a ledger are its accounts, contracts and storage; the tree over the accounts is
left out, since its root depends on the iteration of the leaves. Executing a transaction depends
on the cells of its footprint only, and changes only those: the accounts it touches, the entry of
its contract in the registry, and the storage keys of that contract.

Storage keys carry no contract, so a contract may use any of them. `RunsWithin` says that a code
keeps to a set of keys; the results here are for codes that do.
-/

namespace CytahSpeed
open ByteString FiniteMap MachineInt

def Wasm.RunsWithin (wasm : Wasm) (code : List UInt8) (address : Address)
    (keys : Set (List UInt8)) : Prop :=
  ∀ caller gasLimit entry storage,
    (∀ storage', (∀ k ∈ keys, storage.lookup k = storage'.lookup k) →
      wasm.run code address caller gasLimit entry storage =
        wasm.run code address caller gasLimit entry storage') ∧
    ∀ outcome, wasm.run code address caller gasLimit entry storage = .ok outcome →
      ∀ k ∈ outcome.writes, k ∈ keys

namespace ParallelExecutor

section Contents

@[ext] structure Contents where
  accounts : Map Address Account
  contracts : Map Address ContractInfo
  storage : Map (List UInt8) (List UInt8)

def Ledger.contents (l : Ledger) : Contents :=
  ⟨l.state.stateTree.leaves, l.registry.contracts, l.storage.entries⟩

def Contents.ledger (s : Contents) : Ledger :=
  ⟨⟨⟨none, s.accounts⟩, Bytes.zero 32⟩, ⟨s.contracts⟩, ⟨s.storage⟩⟩

inductive Cell
  | account (address : Address)
  | contract (address : Address)
  | storage (key : List UInt8)

abbrev Cell.Value : Cell → Type
  | .account _ => Option Account
  | .contract _ => Option ContractInfo
  | .storage _ => Option (List UInt8)

def Contents.get : (k : Cell) → Contents → k.Value
  | .account address, s => s.accounts.lookup address
  | .contract address, s => s.contracts.lookup address
  | .storage key, s => s.storage.lookup key

theorem Contents.ext_get {s s' : Contents} (h : ∀ k, s.get k = s'.get k) : s = s' := by
  apply Contents.ext
  · exact Finmap.ext_lookup fun a => h (.account a)
  · exact Finmap.ext_lookup fun a => h (.contract a)
  · exact Finmap.ext_lookup fun k => h (.storage k)

theorem executeAlone_contents (c : Crypto) (wasm : Wasm) (tx : Transaction) (base : Ledger) :
    executeAlone c wasm tx base = executeAlone c wasm tx base.contents.ledger := rfl

def registerAll (updates : List (Address × List UInt8)) (r : ContractRegistry) :
    ContractRegistry :=
  updates.foldl (fun r e => (r.registerContract e.1 e.2).2) r

/-- `mergeIfSuccessful` on the contents. -/
def applyResult (r : TransactionReceipt × Overlay) (s : Contents) : Contents :=
  if r.1.success then
    { accounts := r.2.modifiedAccounts ∪ s.accounts
      contracts := (registerAll (r.2.registryUpdates.insertionSort fun a b => a.1 ≤ b.1)
        ⟨s.contracts⟩).contracts
      storage := r.2.modifiedStorage ∪ s.storage }
  else s

theorem leaves_foldl_updateAccount (c : Crypto) (leafOrder : IterOrder Address Account)
    (l : List (Address × Account)) (t : SparseMerkleTree) :
    (l.foldl (fun t e => t.updateAccount c leafOrder e.1 e.2) t).leaves =
      l.foldl (fun m e => m.insert e.1 e.2) t.leaves := by
  induction l generalizing t with
  | nil => rfl
  | cons e l ih => rw [List.foldl_cons, ih, SparseMerkleTree.leaves_updateAccount, List.foldl_cons]

theorem entries_foldl_write (l : List (List UInt8 × List UInt8)) (s : ContractStorage) :
    (l.foldl (fun s e => s.write e.1 e.2) s).entries =
      l.foldl (fun m e => m.insert e.1 e.2) s.entries := by
  induction l generalizing s with
  | nil => rfl
  | cons e l ih =>
    rw [List.foldl_cons, ih, List.foldl_cons]
    rfl

theorem entries_mergeOverlay (c : Crypto) (leafOrder : IterOrder Address Account) (o : Overlay)
    (ledger : Ledger) :
    (mergeOverlay c leafOrder o ledger).storage.entries =
      o.modifiedStorage ∪ ledger.storage.entries := by
  change ContractStorage.entries
    (List.foldl _ _ (@sortedEntries _ _ lexOrder o.modifiedStorage)) = _
  rw [entries_foldl_write]
  exact (@enumerates_sortedEntries _ _ lexOrder _).foldl_insert _

theorem leaves_mergeOverlay (c : Crypto) (leafOrder : IterOrder Address Account) (o : Overlay)
    (ledger : Ledger) :
    (mergeOverlay c leafOrder o ledger).state.stateTree.leaves =
      o.modifiedAccounts ∪ ledger.state.stateTree.leaves := by
  change SparseMerkleTree.leaves (List.foldl _ _ (sortedEntries o.modifiedAccounts)) = _
  rw [leaves_foldl_updateAccount]
  exact (enumerates_sortedEntries _).foldl_insert _

theorem contents_mergeIfSuccessful (c : Crypto) (leafOrder : IterOrder Address Account)
    (r : TransactionReceipt × Overlay) (ledger : Ledger) :
    (mergeIfSuccessful c leafOrder r ledger).contents = applyResult r ledger.contents := by
  unfold mergeIfSuccessful applyResult
  by_cases hs : r.1.success
  · rw [if_pos hs, if_pos hs]
    apply Contents.ext
    · exact leaves_mergeOverlay c leafOrder r.2 ledger
    · rfl
    · exact entries_mergeOverlay c leafOrder r.2 ledger
  · rw [if_neg hs, if_neg hs]

theorem getContract_registerAll (updates : List (Address × List UInt8)) (r : ContractRegistry)
    (a : Address) :
    (registerAll updates r).getContract a = (r.getContract a).or
      ((updates.find? (·.1 = a)).map fun e => ⟨e.1, e.2, []⟩) := by
  induction updates generalizing r with
  | nil => simp [registerAll]
  | cons e updates ih =>
    have hstep : registerAll (e :: updates) r =
        registerAll updates (r.registerContract e.1 e.2).2 := rfl
    rw [hstep, ih, ContractRegistry.getContract_registerContract, List.find?_cons]
    by_cases ha : a = e.1
    · subst ha
      simp
    · simp [ha, Ne.symm ha]

theorem get_applyResult_congr (r : TransactionReceipt × Overlay) (s s' : Contents) (k : Cell)
    (h : s.get k = s'.get k) : (applyResult r s).get k = (applyResult r s').get k := by
  unfold applyResult
  by_cases hs : r.1.success
  · rw [if_pos hs, if_pos hs]
    cases k with
    | account a =>
      simp only [Contents.get] at h ⊢
      rw [lookup_union, lookup_union, h]
    | contract a =>
      simp only [Contents.get] at h ⊢
      change ContractRegistry.getContract _ a = ContractRegistry.getContract _ a
      rw [getContract_registerAll, getContract_registerAll]
      simp only [ContractRegistry.getContract, h]
    | storage key =>
      simp only [Contents.get] at h ⊢
      rw [lookup_union, lookup_union, h]
  · rw [if_neg hs, if_neg hs]
    exact h

end Contents

section Footprint
variable (c : Crypto) (keys : Address → Set (List UInt8)) (tx : Transaction)

def contractOf : Option Address :=
  match tx.payload with
  | .transfer _ _ => none
  | .contractDeploy wasmCode _ => some (deployAddress c wasmCode)
  | .contractCall address _ _ => some address

def storageKeys : Set (List UInt8) := {k | ∃ a, contractOf c tx = some a ∧ k ∈ keys a}

def Cell.TouchedBy : Cell → Prop
  | .account address => address ∈ touched c tx
  | .contract address => contractOf c tx = some address
  | .storage key => key ∈ storageKeys c keys tx

def footprint : Set Cell := {k | k.TouchedBy c keys tx}

def RunsWithinKeys (wasm : Wasm) (s : Contents) : Prop :=
  match tx.payload with
  | .transfer _ _ => True
  | .contractDeploy wasmCode _ =>
    wasm.RunsWithin wasmCode (deployAddress c wasmCode) (keys (deployAddress c wasmCode))
  | .contractCall address _ _ =>
    ∀ info, s.contracts.lookup address = some info →
      wasm.RunsWithin info.bytecode address (keys address)

/-- The overlay writes inside the footprint, and registers what the transaction deploys. -/
structure WritesWithin (o : Overlay) : Prop where
  accounts : ∀ a ∈ o.modifiedAccounts, a ∈ touched c tx
  storage : ∀ k ∈ o.modifiedStorage, k ∈ storageKeys c keys tx
  registry : ∀ e ∈ o.registryUpdates,
    ∃ args, tx.payload = .contractDeploy e.2 args ∧ e.1 = deployAddress c e.2

variable {c keys tx}

theorem mem_touched_of_contractOf {a : Address} (h : contractOf c tx = some a) :
    a ∈ touched c tx := by
  unfold contractOf at h
  unfold touched counterparty
  cases hp : tx.payload <;> simp_all

theorem disjoint_footprint {t u : Transaction} (hkeys : ∀ a b, a ≠ b → Disjoint (keys a) (keys b))
    (h : ¬ conflicts c t u) : Disjoint (footprint c keys t) (footprint c keys u) := by
  rw [conflicts_iff, not_not] at h
  have hne : ∀ {a b}, contractOf c t = some a → contractOf c u = some b → a ≠ b := by
    intro a b ha hb hab
    rw [← hab] at hb
    exact Finset.disjoint_left.mp h (mem_touched_of_contractOf ha) (mem_touched_of_contractOf hb)
  rw [Set.disjoint_left]
  intro k ht hu
  cases k with
  | account a => exact Finset.disjoint_left.mp h ht hu
  | contract a => exact hne ht hu rfl
  | storage key =>
    obtain ⟨a, ha, hka⟩ := ht
    obtain ⟨b, hb, hkb⟩ := hu
    exact Set.disjoint_left.mp (hkeys a b (hne ha hb)) hka hkb

namespace WritesWithin

theorem new : WritesWithin c keys tx Overlay.new :=
  ⟨fun a h => absurd h (Finmap.notMem_empty), fun k h => absurd h (Finmap.notMem_empty), by
    simp [Overlay.new]⟩

theorem writeAccount {o : Overlay} (h : WritesWithin c keys tx o) {a : Address} (acc : Account)
    (ha : a ∈ touched c tx) : WritesWithin c keys tx (o.writeAccount a acc) := by
  refine ⟨?_, h.storage, h.registry⟩
  intro b hb
  rcases Finmap.mem_insert.mp hb with rfl | hb
  · exact ha
  · exact h.accounts b hb

theorem writeStorage {o : Overlay} (h : WritesWithin c keys tx o)
    {writes : Map (List UInt8) (List UInt8)} (hw : ∀ k ∈ writes, k ∈ storageKeys c keys tx) :
    WritesWithin c keys tx (o.writeStorage writes) := by
  refine ⟨h.accounts, ?_, h.registry⟩
  intro k hk
  rcases Finmap.mem_union.mp hk with hk | hk
  · exact hw k hk
  · exact h.storage k hk

end WritesWithin

variable {wasm : Wasm}

theorem from_mem_touched : tx.fromAddr ∈ touched c tx := Finset.mem_insert_self _ _

theorem counterparty_mem_touched {a : Address} (h : counterparty c tx = a) : a ∈ touched c tx := by
  rw [← h, touched]
  simp

theorem executeTransfer_within {o : Overlay} (h : WritesWithin c keys tx o) (base : Ledger)
    (sender : Account) {toAddr : Address} {amount : UInt64}
    (hp : tx.payload = .transfer toAddr amount) :
    WritesWithin c keys tx (executeTransfer c tx o base sender toAddr amount).2 := by
  have hto : toAddr ∈ touched c tx := counterparty_mem_touched (by rw [counterparty, hp])
  unfold executeTransfer
  dsimp only
  split
  · exact h
  · have hpaid := fun acc acc' =>
      (h.writeAccount acc from_mem_touched).writeAccount (a := toAddr) acc' hto
    split
    · exact hpaid _ _
    · exact (hpaid _ _).writeAccount _ from_mem_touched

theorem executeDeploy_within {o : Overlay} (h : WritesWithin c keys tx o) (base : Ledger)
    (sender : Account) {wasmCode args : List UInt8}
    (hp : tx.payload = .contractDeploy wasmCode args)
    (hruns : wasm.RunsWithin wasmCode (deployAddress c wasmCode)
      (keys (deployAddress c wasmCode))) :
    WritesWithin c keys tx (executeDeploy c wasm tx o base sender wasmCode).2 := by
  have haddress : deployAddress c wasmCode ∈ touched c tx :=
    counterparty_mem_touched (by rw [counterparty, hp])
  unfold executeDeploy
  dsimp only
  split
  case h_1 => exact h
  case h_2 outcome hrun =>
    have hstored := h.writeStorage fun k hk =>
      (⟨_, by rw [contractOf, hp], (hruns _ _ _ _).2 outcome hrun k hk⟩ : k ∈ storageKeys c keys tx)
    split
    case h_1 => exact hstored
    case h_2 =>
      have hcharged := fun acc => hstored.writeAccount acc from_mem_touched
      split
      case h_1 => exact hcharged _
      case h_2 =>
        apply WritesWithin.writeAccount _ _ haddress
        refine ⟨(hcharged _).accounts, hstored.storage, ?_⟩
        intro e he
        rcases List.mem_append.mp he with he | he
        · exact h.registry e he
        · rw [List.mem_singleton.mp he]
          exact ⟨args, hp, rfl⟩

theorem executeCall_within {o : Overlay} (h : WritesWithin c keys tx o) (base : Ledger)
    (sender : Account) {address : Address} {method : String} {args : List UInt8}
    (hp : tx.payload = .contractCall address method args)
    (hruns : ∀ info, base.registry.getContract address = some info →
      wasm.RunsWithin info.bytecode address (keys address)) :
    WritesWithin c keys tx (executeCall c wasm tx o base sender address method).2 := by
  unfold executeCall
  split
  case h_1 => exact h
  case h_2 contract hcontract =>
    split
    case h_1 => exact h
    case h_2 outcome hrun =>
      have hstored := h.writeStorage fun k hk =>
        (⟨_, by rw [contractOf, hp], (hruns contract hcontract _ _ _ _).2 outcome hrun k hk⟩ :
          k ∈ storageKeys c keys tx)
      dsimp only
      split
      case h_1 => exact hstored
      case h_2 =>
        split <;> exact hstored.writeAccount _ from_mem_touched

/-- A transaction writes inside its footprint. -/
theorem executeAlone_within {s : Contents} (hruns : RunsWithinKeys c keys tx wasm s) :
    WritesWithin c keys tx (executeAlone c wasm tx s.ledger).2 := by
  unfold executeAlone executeTransaction
  unfold RunsWithinKeys at hruns
  split
  · exact WritesWithin.new
  · dsimp only
    split
    · exact WritesWithin.new
    · cases hp : tx.payload with
      | transfer toAddr amount => exact executeTransfer_within .new _ _ hp
      | contractDeploy wasmCode args =>
        rw [hp] at hruns
        exact executeDeploy_within .new _ _ hp hruns
      | contractCall address method args =>
        rw [hp] at hruns
        exact executeCall_within .new _ _ hp hruns

theorem get_applyResult_of_notMem {s : Contents} (hruns : RunsWithinKeys c keys tx wasm s)
    {k : Cell} (hk : k ∉ footprint c keys tx) :
    (applyResult (executeAlone c wasm tx s.ledger) s).get k = s.get k := by
  have hw := executeAlone_within hruns
  unfold applyResult
  split
  · cases k with
    | account a =>
      have ha : a ∉ (executeAlone c wasm tx s.ledger).2.modifiedAccounts :=
        fun h => hk (hw.accounts a h)
      simp only [Contents.get]
      rw [lookup_union, Finmap.lookup_eq_none.mpr ha, Option.none_or]
    | contract a =>
      change ContractRegistry.getContract _ a = _
      rw [getContract_registerAll]
      have hnone : ((executeAlone c wasm tx s.ledger).2.registryUpdates.insertionSort
          fun a b => a.1 ≤ b.1).find? (·.1 = a) = none := by
        rw [List.find?_eq_none]
        intro e he hea
        obtain ⟨args, hp, haddress⟩ := hw.registry e ((List.mem_insertionSort _).mp he)
        apply hk
        change contractOf c tx = some a
        rw [contractOf, hp]
        exact congrArg some (haddress.symm.trans (by simpa using hea))
      rw [hnone, Option.map_none, Option.or_none]
      rfl
    | storage key =>
      have hkey : key ∉ (executeAlone c wasm tx s.ledger).2.modifiedStorage :=
        fun h => hk (hw.storage key h)
      simp only [Contents.get]
      rw [lookup_union, Finmap.lookup_eq_none.mpr hkey, Option.none_or]
  · rfl

theorem readAccount_congr {o : Overlay} {a : Address} {base base' : StateManager}
    (h : base.getAccount a = base'.getAccount a) :
    o.readAccount a base = o.readAccount a base' := by
  unfold Overlay.readAccount
  rw [h]

theorem run_visibleStorage_congr {code : List UInt8} {address : Address}
    (hruns : wasm.RunsWithin code address (keys address)) {o : Overlay}
    {storage storage' : ContractStorage}
    (h : ∀ k ∈ keys address, storage.entries.lookup k = storage'.entries.lookup k)
    (caller : Address) (gasLimit : UInt64) (entry : WasmEntry) :
    wasm.run code address caller gasLimit entry (o.visibleStorage storage) =
      wasm.run code address caller gasLimit entry (o.visibleStorage storage') := by
  apply (hruns _ _ _ _).1
  intro k hk
  unfold Overlay.visibleStorage
  rw [lookup_union, lookup_union, h k hk]

theorem executeCall_congr {base base' : Ledger} {address : Address}
    (hregistry : base.registry.getContract address = base'.registry.getContract address)
    (hruns : ∀ info, base.registry.getContract address = some info →
      wasm.RunsWithin info.bytecode address (keys address))
    (hstorage : ∀ k ∈ keys address,
      base.storage.entries.lookup k = base'.storage.entries.lookup k)
    (o : Overlay) (sender : Account) (method : String) :
    executeCall c wasm tx o base sender address method =
      executeCall c wasm tx o base' sender address method := by
  unfold executeCall
  rw [← hregistry]
  cases hinfo : base.registry.getContract address with
  | none => rfl
  | some info => simp only [run_visibleStorage_congr (hruns info hinfo) hstorage]

theorem executeAlone_congr {s s' : Contents} (hruns : RunsWithinKeys c keys tx wasm s)
    (h : ∀ k ∈ footprint c keys tx, s.get k = s'.get k) :
    executeAlone c wasm tx s.ledger = executeAlone c wasm tx s'.ledger := by
  have haccount : ∀ a ∈ touched c tx,
      s.ledger.state.getAccount a = s'.ledger.state.getAccount a := fun a ha => h (.account a) ha
  have hstorage : ∀ a, contractOf c tx = some a → ∀ k ∈ keys a,
      s.ledger.storage.entries.lookup k = s'.ledger.storage.entries.lookup k :=
    fun a ha k hk => h (.storage k) ⟨a, ha, hk⟩
  unfold executeAlone executeTransaction
  unfold RunsWithinKeys at hruns
  rw [readAccount_congr (haccount _ from_mem_touched)]
  cases hp : tx.payload with
  | transfer toAddr amount =>
    have hto : toAddr ∈ touched c tx := counterparty_mem_touched (by rw [counterparty, hp])
    simp only [executeTransfer, readAccount_congr (haccount _ hto)]
  | contractDeploy wasmCode args =>
    rw [hp] at hruns
    have hcontract : contractOf c tx = some (deployAddress c wasmCode) := by rw [contractOf, hp]
    simp only [executeDeploy, run_visibleStorage_congr hruns (hstorage _ hcontract)]
  | contractCall address method args =>
    rw [hp] at hruns
    have hcontract : contractOf c tx = some address := by rw [contractOf, hp]
    have hregistry : s.ledger.registry.getContract address =
        s'.ledger.registry.getContract address := h (.contract address) hcontract
    simp only [executeCall_congr hregistry hruns (hstorage _ hcontract)]

end Footprint

end ParallelExecutor

end CytahSpeed
