import CytahSpeed.HostFunctions
import CytahSpeed.TransactionFrame

/-!
# Isolation of contract storage

The host functions pass the raw key on to the store, and no key carries a contract: what is written
in the name of one contract is read in the name of any other. Any sequence of host calls for one
contract is invisible to the others exactly if every key that it writes is left with the value it
had, whether the calls go to the store or to an overlay that is merged.
-/

namespace CytahSpeed
open ByteString FiniteMap MachineInt ParallelExecutor

def storageAfterRun {α : Type} (store : ContractStorage) (address caller : Address)
    (gasLimit : UInt64) (p : HostProgram α) : ContractStorage :=
  (p.run HostCall.host (.new address caller gasLimit store)).2.storage

def overlayAfterRun {α : Type} (store : ContractStorage) (address caller : Address)
    (gasLimit : UInt64) (p : HostProgram α) : Overlay :=
  ⟨∅, (p.run HostCall.host (.new address caller gasLimit
    (ContractStorageOverlay.new store))).2.storage.takeModified, []⟩

/-- Whatever host calls are made for the contract at `address`, on the store or on an overlay, they
are answered the same. -/
def Indistinguishable (address : Address) (store store' : ContractStorage) : Prop :=
  ∀ (α : Type) (q : HostProgram α) (caller : Address) (gasLimit : UInt64),
    (q.run HostCall.host (.new address caller gasLimit store')).1 =
        (q.run HostCall.host (.new address caller gasLimit store)).1 ∧
      (q.run HostCall.host (.new address caller gasLimit (ContractStorageOverlay.new store'))).1 =
        (q.run HostCall.host (.new address caller gasLimit (ContractStorageOverlay.new store))).1

/-- The host calls for contract `a` are invisible to those for contract `b`, on both paths. -/
structure StorageIsolated (c : Crypto) (leafOrder : IterOrder Address Account) (ledger : Ledger)
    (a b caller : Address) (gasLimit : UInt64) {α : Type} (p : HostProgram α) : Prop where
  executor : Indistinguishable b ledger.storage
    (storageAfterRun ledger.storage a caller gasLimit p)
  overlay : Indistinguishable b ledger.storage
    (mergeOverlay c leafOrder (overlayAfterRun ledger.storage a caller gasLimit p) ledger).storage

section Isolation
variable {store store' : ContractStorage} {α : Type}

def readKey (key : List UInt8) (memoryLen : ℕ) : HostProgram (List UInt8) :=
  .call (.storageRead (some key) 0 memoryLen) .pure

theorem run_readKey (address : Address) (key : List UInt8) (memoryLen : ℕ)
    (hlen : ((Storage.read store key).getD []).length ≤ memoryLen) :
    ((readKey key memoryLen).run HostCall.host (.new address address 10 store)).1 =
      .ok ((Storage.read store key).getD []) := by
  have hcharge : GasMeter.charge (.new 10) 10 = .ok ⟨10, 10⟩ := rfl
  have hread : HostCall.host (.storageRead (some key) 0 memoryLen)
      (.new address address 10 store) =
        (.ok ((Storage.read store key).getD []), ⟨address, address, 0, 0, store, ⟨10, 10⟩⟩) := by
    simp only [HostCall.host, RuntimeState.storageRead, RuntimeState.charged, RuntimeState.new,
      hcharge]
    exact if_neg (by omega)
  unfold readKey CallProgram.run
  rw [hread]
  rfl

/-- A key that holds other bytes is told apart by reading it. -/
theorem indistinguishable_iff (address : Address) :
    Indistinguishable address store store' ↔ ∀ key,
      (Storage.read store' key).getD [] = (Storage.read store key).getD [] := by
  constructor
  · intro h key
    have hrun := (h (List UInt8) (readKey key (((Storage.read store key).getD []).length +
      ((Storage.read store' key).getD []).length)) address 10).1
    rw [run_readKey address key _ (Nat.le_add_left _ _),
      run_readKey address key _ (Nat.le_add_right _ _)] at hrun
    exact Except.ok.inj hrun
  · intro h α q caller gasLimit
    have hview : SameView (.new address caller gasLimit store')
        (.new address caller gasLimit store) := ⟨rfl, rfl, rfl, rfl, h⟩
    have hoverlay : SameView
        (.new address caller gasLimit (ContractStorageOverlay.new store'))
        (.new address caller gasLimit (ContractStorageOverlay.new store)) :=
      ⟨rfl, rfl, rfl, rfl, h⟩
    exact ⟨(hview.run q).1, (hoverlay.run q).1⟩

theorem read_storageAfterRun (a caller : Address) (gasLimit : UInt64) (p : HostProgram α)
    (key : List UInt8) :
    Storage.read (storageAfterRun store a caller gasLimit p) key =
      (lastWritten (p.writes (.new a caller gasLimit store)) key).or (Storage.read store key) := by
  rw [storageAfterRun, storage_run, read_foldl_write]
  rfl

theorem lookup_modifiedStorage (a caller : Address) (gasLimit : UInt64) (p : HostProgram α)
    (key : List UInt8) :
    (overlayAfterRun store a caller gasLimit p).modifiedStorage.lookup key =
      lastWritten (p.writes (.new a caller gasLimit store)) key := by
  have hview : SameView (.new a caller gasLimit (ContractStorageOverlay.new store))
      (.new a caller gasLimit store) := ⟨rfl, rfl, rfl, rfl, fun _ => rfl⟩
  have hmodified : ∀ writes : List (List UInt8 × List UInt8),
      (writes.foldl (fun o e => Storage.write o e.1 e.2)
        (ContractStorageOverlay.new store)).modified.lookup key = lastWritten writes key := by
    intro writes
    induction writes using List.reverseRecOn with
    | nil => exact Finmap.lookup_empty key
    | append_singleton writes e ih =>
      rw [List.foldl_append, lastWritten_concat, ← ih]
      exact lookup_insert_eq_ite _ _ _ _
  rw [← (hview.run p).2.2, ← hmodified]
  exact congrArg (fun o : ContractStorageOverlay => o.modified.lookup key) (storage_run p _)

theorem read_mergeOverlay (c : Crypto) (leafOrder : IterOrder Address Account) (ledger : Ledger)
    (a caller : Address) (gasLimit : UInt64) (p : HostProgram α) (key : List UInt8) :
    Storage.read (mergeOverlay c leafOrder (overlayAfterRun ledger.storage a caller gasLimit p)
      ledger).storage key =
      (lastWritten (p.writes (.new a caller gasLimit ledger.storage)) key).or
        (Storage.read ledger.storage key) := by
  change (ContractStorage.entries _).lookup key = _
  rw [entries_mergeOverlay, lookup_union, lookup_modifiedStorage]
  rfl

theorem getD_or_eq_iff (last old : Option (List UInt8)) :
    (last.or old).getD [] = old.getD [] ↔ ∀ value, last = some value → old.getD [] = value := by
  cases last with
  | none => simp
  | some value => simp [eq_comm]

end Isolation

/-- The host calls for one contract are invisible to another exactly if every key is last written
with the value it had; an absent key counts as empty. -/
theorem storageIsolated_iff (c : Crypto) (leafOrder : IterOrder Address Account) (ledger : Ledger)
    (a b caller : Address) (gasLimit : UInt64) {α : Type} (p : HostProgram α) :
    StorageIsolated c leafOrder ledger a b caller gasLimit p ↔
      ∀ key value,
        lastWritten (p.writes (.new a caller gasLimit ledger.storage)) key = some value →
          (Storage.read ledger.storage key).getD [] = value := by
  have hiff : ∀ key, (((lastWritten (p.writes (.new a caller gasLimit ledger.storage)) key).or
      (Storage.read ledger.storage key)).getD [] = (Storage.read ledger.storage key).getD [] ↔
      ∀ value, lastWritten (p.writes (.new a caller gasLimit ledger.storage)) key = some value →
        (Storage.read ledger.storage key).getD [] = value) := fun key => getD_or_eq_iff _ _
  constructor
  · intro h key
    have hexecutor := (indistinguishable_iff b).mp h.executor key
    rw [read_storageAfterRun] at hexecutor
    exact (hiff key).mp hexecutor
  · intro h
    refine ⟨(indistinguishable_iff b).mpr fun key => ?_,
      (indistinguishable_iff b).mpr fun key => ?_⟩
    · rw [read_storageAfterRun]
      exact (hiff key).mpr (h key)
    · rw [read_mergeOverlay]
      exact (hiff key).mpr (h key)

section Sample

def sampleWriter : HostProgram Unit :=
  .call (.storageWrite (some [0]) (some [1])) .pure

def emptyLedger : Ledger := ⟨.new .hashOnly .sorted, ⟨∅⟩, ⟨∅⟩⟩

/-- A write for one contract is read for the other. -/
theorem sampleWriter_not_isolated : (Bytes.fill 20 21 : Address) ≠ Bytes.fill 20 22 ∧
    ((RuntimeState.new (Bytes.fill 20 21) (Bytes.fill 20 7) 100 emptyLedger.storage).storageWrite
      (some [0]) (some [1])).1 = .ok () ∧
    ((RuntimeState.new (Bytes.fill 20 22) (Bytes.fill 20 7) 100
      (storageAfterRun emptyLedger.storage (Bytes.fill 20 21) (Bytes.fill 20 7) 100
        sampleWriter)).storageRead (some [0]) 0 64).1 = .ok [1] ∧
    ((RuntimeState.new (Bytes.fill 20 22) (Bytes.fill 20 7) 100 emptyLedger.storage).storageRead
      (some [0]) 0 64).1 = .ok [] ∧
    ¬ StorageIsolated .hashOnly .sorted emptyLedger (Bytes.fill 20 21) (Bytes.fill 20 22)
      (Bytes.fill 20 7) 100 sampleWriter := by
  refine ⟨by decide, by decide, by decide, by decide, ?_⟩
  intro h
  have hread := (indistinguishable_iff _).mp h.executor [0]
  exact absurd hread (by decide)

end Sample

end CytahSpeed
