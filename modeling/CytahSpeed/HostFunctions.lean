import CytahSpeed.CallProgram
import CytahSpeed.MachineInt
import CytahSpeed.ParallelExecutor

/-!
# Host functions of contracts

A contract runs as a program of calls to the host: it reads and writes storage, and asks for its
caller and for the block. Every call charges the gas meter first and ends the run if the gas does
not suffice or an argument lies outside the contract's memory. The storage is either the store
itself, which is written at once, or an overlay over it. The address of the contract is part of
the runtime state, and no host function looks at it.
-/

namespace CytahSpeed
open ByteString FiniteMap MachineInt

structure GasMeter where
  limit : UInt64
  used : UInt64
  deriving DecidableEq

namespace GasMeter

def new (limit : UInt64) : GasMeter := ⟨limit, 0⟩

def charge (m : GasMeter) (amount : UInt64) : Except String GasMeter :=
  if m.used + amount > m.limit then .error "Out of gas"
  else .ok ⟨m.limit, m.used + amount⟩

end GasMeter

/-- What host functions use of a store. -/
class Storage (σ : Type) where
  read : σ → List UInt8 → Option (List UInt8)
  write : σ → List UInt8 → List UInt8 → σ

instance : Storage ContractStorage := ⟨fun s key => s.entries.lookup key, ContractStorage.write⟩

/-- Writes are kept beside the store. -/
structure ContractStorageOverlay where
  base : ContractStorage
  modified : Map (List UInt8) (List UInt8)

namespace ContractStorageOverlay

def new (base : ContractStorage) : ContractStorageOverlay := ⟨base, ∅⟩

instance : Storage ContractStorageOverlay where
  read o key :=
    match o.modified.lookup key with
    | some v => some v
    | none => Storage.read o.base key
  write o key value := ⟨o.base, o.modified.insert key value⟩

def takeModified (o : ContractStorageOverlay) : Map (List UInt8) (List UInt8) := o.modified

end ContractStorageOverlay

/-- The end of a run by the host or by the contract itself. -/
inductive WasmError
  | memoryOutOfBounds
  | other (message : String)
  deriving DecidableEq

structure RuntimeState (σ : Type) where
  contractAddress : Address
  caller : Address
  blockHeight : UInt64
  timestamp : UInt64
  storage : σ
  gasMeter : GasMeter

namespace RuntimeState

variable {σ : Type}

/-- As both executors set it up: height and timestamp are zero. -/
def new (contractAddress caller : Address) (gasLimit : UInt64) (storage : σ) : RuntimeState σ :=
  ⟨contractAddress, caller, 0, 0, storage, .new gasLimit⟩

variable [Storage σ] (st : RuntimeState σ)

/-- The gas is charged before anything else; out of gas is reported as a memory fault. -/
def charged {α : Type} (amount : UInt64)
    (body : RuntimeState σ → Except WasmError α × RuntimeState σ) :
    Except WasmError α × RuntimeState σ :=
  match st.gasMeter.charge amount with
  | .error _ => (.error .memoryOutOfBounds, st)
  | .ok gasMeter =>
    body ⟨st.contractAddress, st.caller, st.blockHeight, st.timestamp, st.storage, gasMeter⟩

/-- A key outside the memory is `none`; an absent value is read as the empty one. -/
def storageRead (key : Option (List UInt8)) (out memoryLen : ℕ) :
    Except WasmError (List UInt8) × RuntimeState σ :=
  st.charged 10 fun st =>
    match key with
    | none => (.error .memoryOutOfBounds, st)
    | some key =>
      let bytes := (Storage.read st.storage key).getD []
      if out + bytes.length > memoryLen then (.error .memoryOutOfBounds, st)
      else (.ok bytes, st)

def storageWrite (key value : Option (List UInt8)) : Except WasmError Unit × RuntimeState σ :=
  st.charged 20 fun st =>
    match key, value with
    | some key, some value =>
      (.ok (), ⟨st.contractAddress, st.caller, st.blockHeight, st.timestamp,
        Storage.write st.storage key value, st.gasMeter⟩)
    | _, _ => (.error .memoryOutOfBounds, st)

def getCaller (ptr memoryLen : ℕ) : Except WasmError Address × RuntimeState σ :=
  st.charged 1 fun st =>
    if ptr + 20 > memoryLen then (.error .memoryOutOfBounds, st) else (.ok st.caller, st)

def getBlockHeight : Except WasmError UInt64 × RuntimeState σ :=
  st.charged 1 fun st => (.ok st.blockHeight, st)

def getTimestamp : Except WasmError UInt64 × RuntimeState σ :=
  st.charged 1 fun st => (.ok st.timestamp, st)

end RuntimeState

/-- A call to the host, with the slices of memory that its pointers select. -/
inductive HostCall
  | storageRead (key : Option (List UInt8)) (out memoryLen : ℕ)
  | storageWrite (key value : Option (List UInt8))
  | getCaller (ptr memoryLen : ℕ)
  | getBlockHeight
  | getTimestamp

namespace HostCall

abbrev Answer : HostCall → Type
  | storageRead _ _ _ => List UInt8
  | storageWrite _ _ => Unit
  | getCaller _ _ => Address
  | getBlockHeight => UInt64
  | getTimestamp => UInt64

def host {σ : Type} [Storage σ] : CallProgram.Handler HostCall Answer WasmError (RuntimeState σ)
  | storageRead key out memoryLen, st => st.storageRead key out memoryLen
  | storageWrite key value, st => st.storageWrite key value
  | getCaller ptr memoryLen, st => st.getCaller ptr memoryLen
  | getBlockHeight, st => st.getBlockHeight
  | getTimestamp, st => st.getTimestamp

def written : HostCall → Option (List UInt8 × List UInt8)
  | storageWrite (some key) (some value) => some (key, value)
  | _ => none

end HostCall

/-- A function of a contract, as the calls it makes. -/
abbrev HostProgram (α : Type) := CallProgram HostCall HostCall.Answer WasmError α

namespace HostProgram

variable {σ : Type} [Storage σ] {α : Type}

/-- What the program writes to storage when it is run, in order. -/
def writes (p : HostProgram α) (st : RuntimeState σ) : List (List UInt8 × List UInt8) :=
  (p.accepted HostCall.host st).filterMap HostCall.written

end HostProgram

/-- The exported functions of an instance. -/
abbrev WasmInstance := WasmEntry → Option (HostProgram Unit)

/-- What a runtime makes of a bytecode: it is refused, or its start function runs and leaves an
instance. The one that the program builds, with its fuel and its limiter, is `WasmRuntime.new`. -/
structure WasmRuntime where
  load : List UInt8 → Except WasmError (HostProgram WasmInstance)
  describe : WasmError → String

namespace WasmRuntime

variable {σ : Type} [Storage σ] (runtime : WasmRuntime)

def instantiateContract (bytecode : List UInt8) (st : RuntimeState σ) (gasLimit : UInt64) :
    Except WasmError WasmInstance × RuntimeState σ :=
  let st : RuntimeState σ := ⟨st.contractAddress, st.caller, st.blockHeight, st.timestamp,
    st.storage, .new gasLimit⟩
  match runtime.load bytecode with
  | .error e => (.error e, st)
  | .ok start => start.run HostCall.host st

def callFunction (wasm : WasmInstance) (name : String) (st : RuntimeState σ) :
    Except WasmError Unit × RuntimeState σ :=
  match wasm (.call name) with
  | none => (.error (.other ("function " ++ name ++ " not found")), st)
  | some p => p.run HostCall.host st

/-- `init` is called if the instance exports it. -/
def callInit (wasm : WasmInstance) (st : RuntimeState σ) :
    Except WasmError Unit × RuntimeState σ :=
  match wasm .init with
  | none => (.ok (), st)
  | some p => p.run HostCall.host st

/-- The function of an instance that a transaction runs. -/
def callEntry (wasm : WasmInstance) : WasmEntry → RuntimeState σ →
    Except WasmError Unit × RuntimeState σ
  | .init, st => callInit wasm st
  | .call name, st => callFunction wasm name st

/-- Instantiation, and the call that follows it. -/
def execute (bytecode : List UInt8) (entry : WasmEntry) (gasLimit : UInt64) (st : RuntimeState σ) :
    Except WasmError (Except WasmError Unit) × RuntimeState σ :=
  match runtime.instantiateContract bytecode st gasLimit with
  | (.error e, st) => (.error e, st)
  | (.ok wasm, st) => (.ok (callEntry wasm entry st).1, (callEntry wasm entry st).2)

def entryWrites (wasm : WasmInstance) (entry : WasmEntry) (st : RuntimeState σ) :
    List (List UInt8 × List UInt8) :=
  match wasm entry with
  | none => []
  | some p => p.writes st

def writes (bytecode : List UInt8) (entry : WasmEntry) (gasLimit : UInt64) (st : RuntimeState σ) :
    List (List UInt8 × List UInt8) :=
  let st : RuntimeState σ := ⟨st.contractAddress, st.caller, st.blockHeight, st.timestamp,
    st.storage, .new gasLimit⟩
  match runtime.load bytecode with
  | .error _ => []
  | .ok start =>
    start.writes st ++
      match start.run HostCall.host st with
      | (.error _, _) => []
      | (.ok wasm, st) => entryWrites wasm entry st

end WasmRuntime

class LawfulStorage (σ : Type) [Storage σ] : Prop where
  read_write : ∀ (s : σ) (key value key' : List UInt8),
    Storage.read (Storage.write s key value) key' =
      if key' = key then some value else Storage.read s key'

instance : LawfulStorage ContractStorage :=
  ⟨fun s key value key' => lookup_insert_eq_ite s.entries key key' value⟩

instance : LawfulStorage ContractStorageOverlay where
  read_write o key value key' := by
    change (match (o.modified.insert key value).lookup key' with
      | some v => some v
      | none => Storage.read o.base key') = _
    rw [lookup_insert_eq_ite]
    by_cases h : key' = key
    · rw [if_pos h, if_pos h]
    · rw [if_neg h, if_neg h]
      rfl

def lastWritten (writes : List (List UInt8 × List UInt8)) (key : List UInt8) :
    Option (List UInt8) :=
  (writes.reverse.find? (·.1 = key)).map Prod.snd

theorem lastWritten_concat (writes : List (List UInt8 × List UInt8))
    (e : List UInt8 × List UInt8) (key : List UInt8) :
    lastWritten (writes ++ [e]) key = if key = e.1 then some e.2 else lastWritten writes key := by
  rw [lastWritten, List.reverse_append, List.reverse_singleton, List.singleton_append,
    List.find?_cons]
  by_cases h : key = e.1
  · simp [h]
  · simp only [Ne.symm h, decide_false, if_neg h]
    rfl

theorem charged_cases {σ α : Type} (st : RuntimeState σ) (amount : UInt64)
    (body : RuntimeState σ → Except WasmError α × RuntimeState σ) :
    (∃ gasMeter, st.charged amount body = body ⟨st.contractAddress, st.caller, st.blockHeight,
      st.timestamp, st.storage, gasMeter⟩) ∨
      st.charged amount body = (.error .memoryOutOfBounds, st) := by
  unfold RuntimeState.charged
  cases st.gasMeter.charge amount with
  | error e => exact Or.inr rfl
  | ok gasMeter => exact Or.inl ⟨gasMeter, rfl⟩

section Lawful
variable {σ : Type} [Storage σ]

theorem read_foldl_write [LawfulStorage σ] (s : σ) (writes : List (List UInt8 × List UInt8))
    (key : List UInt8) :
    Storage.read (writes.foldl (fun s e => Storage.write s e.1 e.2) s) key =
      (lastWritten writes key).or (Storage.read s key) := by
  induction writes using List.reverseRecOn with
  | nil => rfl
  | append_singleton writes e ih =>
    rw [List.foldl_append, List.foldl_cons, List.foldl_nil, LawfulStorage.read_write, ih,
      lastWritten_concat]
    by_cases h : key = e.1
    · rw [if_pos h, if_pos h, Option.some_or]
    · rw [if_neg h, if_neg h]

theorem storage_host (k : HostCall) (st : RuntimeState σ) :
    (HostCall.host k st).2.storage = match (HostCall.host k st).1, k.written with
      | .ok _, some e => Storage.write st.storage e.1 e.2
      | _, _ => st.storage := by
  cases k with
  | storageRead key out memoryLen =>
    simp only [HostCall.host, RuntimeState.storageRead]
    rcases charged_cases st 10 _ with ⟨gasMeter, hb⟩ | hb
    · rw [hb]
      cases key with
      | none => rfl
      | some key =>
        simp only
        split_ifs <;> rfl
    · rw [hb]
  | storageWrite key value =>
    simp only [HostCall.host, RuntimeState.storageWrite]
    rcases charged_cases st 20 _ with ⟨gasMeter, hb⟩ | hb
    · rw [hb]
      cases key <;> cases value <;> rfl
    · rw [hb]
  | getCaller ptr memoryLen =>
    simp only [HostCall.host, RuntimeState.getCaller]
    rcases charged_cases st 1 _ with ⟨gasMeter, hb⟩ | hb
    · rw [hb]
      simp only
      split_ifs <;> rfl
    · rw [hb]
  | getBlockHeight =>
    simp only [HostCall.host, RuntimeState.getBlockHeight]
    rcases charged_cases st 1 _ with ⟨gasMeter, hb⟩ | hb
    · rw [hb]
      rfl
    · rw [hb]
  | getTimestamp =>
    simp only [HostCall.host, RuntimeState.getTimestamp]
    rcases charged_cases st 1 _ with ⟨gasMeter, hb⟩ | hb
    · rw [hb]
      rfl
    · rw [hb]

theorem storage_run {α : Type} (p : HostProgram α) (st : RuntimeState σ) :
    (p.run HostCall.host st).2.storage =
      (p.writes st).foldl (fun s e => Storage.write s e.1 e.2) st.storage := by
  rw [HostProgram.writes, List.foldl_filterMap]
  apply CallProgram.run_foldl (π := RuntimeState.storage)
  · intro k st r hr
    rw [storage_host, hr]
    cases k.written <;> rfl
  · intro k st e he
    rw [storage_host, he]

theorem storage_callEntry (wasm : WasmInstance) (entry : WasmEntry) (st : RuntimeState σ) :
    (WasmRuntime.callEntry wasm entry st).2.storage =
      (WasmRuntime.entryWrites wasm entry st).foldl (fun s e => Storage.write s e.1 e.2)
        st.storage := by
  unfold WasmRuntime.entryWrites
  cases entry with
  | init =>
    change (WasmRuntime.callInit wasm st).2.storage = _
    unfold WasmRuntime.callInit
    cases wasm .init with
    | none => rfl
    | some p => exact storage_run p st
  | call name =>
    change (WasmRuntime.callFunction wasm name st).2.storage = _
    unfold WasmRuntime.callFunction
    cases wasm (.call name) with
    | none => rfl
    | some p => exact storage_run p st

theorem storage_execute (runtime : WasmRuntime) (bytecode : List UInt8) (entry : WasmEntry)
    (gasLimit : UInt64) (st : RuntimeState σ) :
    (runtime.execute bytecode entry gasLimit st).2.storage =
      (runtime.writes bytecode entry gasLimit st).foldl (fun s e => Storage.write s e.1 e.2)
        st.storage := by
  unfold WasmRuntime.execute WasmRuntime.instantiateContract WasmRuntime.writes
  cases runtime.load bytecode with
  | error e => rfl
  | ok start =>
    have hstart := storage_run start (⟨st.contractAddress, st.caller, st.blockHeight, st.timestamp,
      st.storage, .new gasLimit⟩ : RuntimeState σ)
    simp only
    rw [List.foldl_append, ← hstart]
    cases hrun : start.run HostCall.host (⟨st.contractAddress, st.caller, st.blockHeight,
        st.timestamp, st.storage, .new gasLimit⟩ : RuntimeState σ) with
    | mk r st' =>
      cases r with
      | error e => rfl
      | ok wasm => exact storage_callEntry wasm entry st'

end Lawful

/-- Two runtime states that no host call tells apart; the contract's address is not compared. -/
structure SameView {σ τ : Type} [Storage σ] [Storage τ] (st : RuntimeState σ)
    (st' : RuntimeState τ) : Prop where
  caller : st.caller = st'.caller
  blockHeight : st.blockHeight = st'.blockHeight
  timestamp : st.timestamp = st'.timestamp
  gasMeter : st.gasMeter = st'.gasMeter
  reads : ∀ key, (Storage.read st.storage key).getD [] = (Storage.read st'.storage key).getD []

section View
variable {σ τ : Type} [Storage σ] [Storage τ] {st : RuntimeState σ} {st' : RuntimeState τ}

theorem SameView.charged (h : SameView st st') {α : Type} (amount : UInt64)
    {body : RuntimeState σ → Except WasmError α × RuntimeState σ}
    {body' : RuntimeState τ → Except WasmError α × RuntimeState τ}
    (hbody : ∀ st st', SameView st st' → (body st).1 = (body' st').1 ∧
      SameView (body st).2 (body' st').2) :
    (st.charged amount body).1 = (st'.charged amount body').1 ∧
      SameView (st.charged amount body).2 (st'.charged amount body').2 := by
  unfold RuntimeState.charged
  rw [← h.gasMeter]
  cases st.gasMeter.charge amount with
  | error e => exact ⟨rfl, h⟩
  | ok gasMeter =>
    exact hbody _ _ ⟨h.caller, h.blockHeight, h.timestamp, rfl, h.reads⟩

theorem host_sameView [LawfulStorage σ] [LawfulStorage τ] (k : HostCall) (st : RuntimeState σ)
    (st' : RuntimeState τ) (h : SameView st st') :
    (HostCall.host k st).1 = (HostCall.host k st').1 ∧
      SameView (HostCall.host k st).2 (HostCall.host k st').2 := by
  cases k with
  | storageRead key out memoryLen =>
    apply h.charged
    intro st st' h
    cases key with
    | none => exact ⟨rfl, h⟩
    | some key =>
      simp only [h.reads key]
      split_ifs
      · exact ⟨rfl, h⟩
      · exact ⟨rfl, h⟩
  | storageWrite key value =>
    apply h.charged
    intro st st' h
    cases key with
    | none => exact ⟨rfl, h⟩
    | some key =>
      cases value with
      | none => exact ⟨rfl, h⟩
      | some value =>
        refine ⟨rfl, h.caller, h.blockHeight, h.timestamp, h.gasMeter, ?_⟩
        intro key'
        simp only [LawfulStorage.read_write]
        by_cases hk : key' = key
        · rw [if_pos hk, if_pos hk]
        · rw [if_neg hk, if_neg hk, h.reads]
  | getCaller ptr memoryLen =>
    apply h.charged
    intro st st' h
    split_ifs
    · exact ⟨rfl, h⟩
    · exact ⟨congrArg Except.ok h.caller, h⟩
  | getBlockHeight =>
    exact h.charged _ fun st st' h => ⟨congrArg Except.ok h.blockHeight, h⟩
  | getTimestamp =>
    exact h.charged _ fun st st' h => ⟨congrArg Except.ok h.timestamp, h⟩

/-- A program runs alike on states that no host call tells apart. -/
theorem SameView.run [LawfulStorage σ] [LawfulStorage τ] (h : SameView st st') {α : Type}
    (p : HostProgram α) :
    (p.run HostCall.host st).1 = (p.run HostCall.host st').1 ∧
      SameView (p.run HostCall.host st).2 (p.run HostCall.host st').2 ∧
      p.writes st = p.writes st' := by
  obtain ⟨hout, hview, hacc⟩ := CallProgram.run_simulation host_sameView p h
  exact ⟨hout, hview, congrArg (List.filterMap HostCall.written) hacc⟩

end View

end CytahSpeed
