import CytahSpeed.StateTree

/-!
# The state manager

The account tree with the root that was last computed from it. Contracts live beside it, in a
registry of bytecode and one key-value store that all contracts share.
-/

namespace CytahSpeed
open ByteString FiniteMap

structure StateManager where
  stateTree : SparseMerkleTree
  currentStateRoot : Hash

namespace StateManager

def genesisWallet : Address := Bytes.fill 20 1

def emissionStateAccount : Address := Bytes.fill 20 255

def new (c : Crypto) (order : IterOrder Address Account) : StateManager :=
  let stateTree := (SparseMerkleTree.new.updateAccount c order genesisWallet ⟨0, 0⟩).updateAccount
    c order emissionStateAccount ⟨0, 0⟩
  ⟨stateTree, stateTree.calculateRoot⟩

def getAccount (s : StateManager) (address : Address) : Option Account :=
  s.stateTree.getAccount address

end StateManager

structure ContractInfo where
  address : Address
  bytecode : List UInt8
  metadata : List UInt8
  deriving DecidableEq

/-- The registry's database; writes to it succeed. -/
structure ContractRegistry where
  contracts : Map Address ContractInfo

namespace ContractRegistry

def getContract (r : ContractRegistry) (address : Address) : Option ContractInfo :=
  r.contracts.lookup address

def registerContract (r : ContractRegistry) (address : Address) (bytecode : List UInt8) :
    Except String Unit × ContractRegistry :=
  match r.getContract address with
  | some _ => (.error "contract already exists", r)
  | none => (.ok (), ⟨r.contracts.insert address ⟨address, bytecode, []⟩⟩)

theorem getContract_registerContract (r : ContractRegistry) (address : Address)
    (bytecode : List UInt8) (a : Address) :
    (r.registerContract address bytecode).2.getContract a =
      if a = address then (r.getContract address).or (some ⟨address, bytecode, []⟩)
      else r.getContract a := by
  unfold registerContract
  cases hr : r.getContract address with
  | some info =>
    by_cases ha : a = address
    · rw [if_pos ha, ha, hr]
      rfl
    · rw [if_neg ha]
  | none =>
    change Finmap.lookup a (Finmap.insert address _ r.contracts) = _
    rw [lookup_insert_eq_ite]
    rfl

end ContractRegistry

/-- The contract store's database: raw keys, without the contract that uses them. -/
structure ContractStorage where
  entries : Map (List UInt8) (List UInt8)

def ContractStorage.write (s : ContractStorage) (key value : List UInt8) : ContractStorage :=
  ⟨s.entries.insert key value⟩

/-- The function of a contract that is run. -/
inductive WasmEntry
  | init
  | call (method : String)
  deriving DecidableEq

/-- The end of a run: the function's result, the gas its host calls charged, and the keys it
wrote. -/
structure WasmOutcome where
  result : Except String Unit
  used : UInt64
  writes : Map (List UInt8) (List UInt8)

/-- The WebAssembly runtime: bytecode, contract, caller, gas limit, function and the visible
storage determine the outcome, or the error of instantiation. A missing `init` is no error. -/
structure Wasm where
  run : List UInt8 → Address → Address → UInt64 → WasmEntry → Map (List UInt8) (List UInt8) →
    Except String WasmOutcome

end CytahSpeed
