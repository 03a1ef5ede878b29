import CytahSpeed.HostFunctions

/-!
# The engine as the runtime sets it up

`WasmRuntime::new` lets the engine meter fuel, and nothing ever adds fuel to a store. The limiter
of a store compares a size in bytes with sixteen, a number of pages. So a function of a module
traps where it is entered, a module with a page of memory is not instantiated, and all that a
contract can still do is to export a host function that takes no argument. What the engine reads in
a bytecode, and how it runs a function on some fuel, are parameters.
-/

namespace CytahSpeed

/-- The functions that the linker offers to modules. -/
inductive HostFunction
  | storageRead
  | storageWrite
  | getCaller
  | getBlockHeight
  | getTimestamp
  deriving DecidableEq

/-- What a host function does when it is given no argument; three of them take some. -/
def HostFunction.nullary : HostFunction → Option HostCall
  | storageRead => none
  | storageWrite => none
  | getCaller => none
  | getBlockHeight => some .getBlockHeight
  | getTimestamp => some .getTimestamp

/-- An exported function: one of the module, or a host function that it hands on. -/
inductive WasmFunc
  | own (params results : ℕ) (body : HostProgram Unit)
  | host (f : HostFunction)

/-- Every host function returns one number. -/
def WasmFunc.results : WasmFunc → ℕ
  | own _ results _ => results
  | host _ => 1

/-- The memories are given by their initial numbers of pages. -/
structure WasmModule where
  memories : List ℕ
  start : Option (HostProgram Unit)
  getFunc : String → Option WasmFunc

/-- What the program uses of the engine. -/
structure WasmEngine where
  moduleNew : List UInt8 → Except WasmError WasmModule
  link : WasmModule → Except WasmError Unit
  enter : (fuel : ℕ) → HostProgram Unit → HostProgram Unit
  overLimit : WasmError
  mismatch : WasmError
  describe : WasmError → String

structure MemoryLimiter where
  maxPages : UInt32

/-- The desired size is in bytes. -/
def MemoryLimiter.memoryGrowing (limiter : MemoryLimiter) (desired : ℕ) : Bool :=
  desired ≤ limiter.maxPages.toNat

def memoryLimiter : MemoryLimiter := ⟨16⟩

def pageSize : ℕ := 65536

/-- `consume_fuel` is set, and no store is given any. -/
def storeFuel : ℕ := 0

namespace WasmEngine

variable (engine : WasmEngine)

/-- A call without arguments, with room for a number of results. -/
def funcCall (results : ℕ) (f : WasmFunc) : HostProgram Unit :=
  if f.results ≠ results then .fail engine.mismatch
  else
    match f with
    | .own params _ body =>
      if params ≠ 0 then .fail engine.mismatch else engine.enter storeFuel body
    | .host f =>
      match f.nullary with
      | none => .fail engine.mismatch
      | some k => .call k fun _ => .pure ()

/-- `init` is called with no room for a result, any other function with as much as it needs. -/
def instanceOf (m : WasmModule) : WasmInstance
  | .init => (m.getFunc "init").map (engine.funcCall 0)
  | .call name => (m.getFunc name).map fun f => engine.funcCall f.results f

/-- The start function runs before the instance is there. -/
def startModule (m : WasmModule) : HostProgram WasmInstance :=
  match m.start with
  | none => .pure (engine.instanceOf m)
  | some body => (engine.enter storeFuel body).bind fun _ => .pure (engine.instanceOf m)

/-- A function that is entered without fuel traps before its first instruction. -/
def StopsWithoutFuel : Prop := ∀ body, ∃ e, engine.enter 0 body = .fail e

structure Starts (bytecode : List UInt8) (m : WasmModule) : Prop where
  read : engine.moduleNew bytecode = .ok m
  linked : engine.link m = .ok ()
  noPage : ∀ pages ∈ m.memories, pages = 0
  noStart : m.start = none

def Answers (bytecode : List UInt8) (name : String) : Prop :=
  ∃ m f k, engine.Starts bytecode m ∧ m.getFunc name = some (.host f) ∧ f.nullary = some k

end WasmEngine

/-- The runtime of both executors. -/
def WasmRuntime.new (engine : WasmEngine) : WasmRuntime where
  load bytecode :=
    match engine.moduleNew bytecode with
    | .error e => .error e
    | .ok m =>
      match engine.link m with
      | .error e => .error e
      | .ok _ =>
        if m.memories.all fun pages => memoryLimiter.memoryGrowing (pages * pageSize) then
          .ok (engine.startModule m)
        else .error engine.overLimit
  describe := engine.describe

theorem memoryGrowing_iff (pages : ℕ) :
    memoryLimiter.memoryGrowing (pages * pageSize) = true ↔ pages = 0 := by
  rw [MemoryLimiter.memoryGrowing, decide_eq_true_iff]
  change pages * 65536 ≤ 16 ↔ _
  omega

namespace WasmRuntime

variable {engine : WasmEngine} {σ : Type} [Storage σ]

/-- A bytecode is refused, traps in its start function, or starts without a call to the host. -/
theorem load_new (hfuel : engine.StopsWithoutFuel) (bytecode : List UInt8) :
    (∃ e, (new engine).load bytecode = .error e) ∨
      (∃ e, (new engine).load bytecode = .ok (.fail e)) ∨
      ∃ m, engine.Starts bytecode m ∧
        (new engine).load bytecode = .ok (.pure (engine.instanceOf m)) := by
  unfold new
  dsimp only
  cases hread : engine.moduleNew bytecode with
  | error e => exact Or.inl ⟨e, rfl⟩
  | ok m =>
    dsimp only
    cases hlink : engine.link m with
    | error e => exact Or.inl ⟨e, rfl⟩
    | ok u =>
      dsimp only
      split_ifs with hall
      · right
        unfold WasmEngine.startModule
        cases hstart : m.start with
        | none =>
          refine Or.inr ⟨m, ⟨hread, hlink, ?_, hstart⟩, rfl⟩
          intro pages hpages
          exact (memoryGrowing_iff pages).mp (List.all_eq_true.mp hall pages hpages)
        | some body =>
          obtain ⟨e, he⟩ := hfuel body
          refine Or.inl ⟨e, ?_⟩
          dsimp only
          rw [storeFuel, he]
          rfl
      · exact Or.inl ⟨_, rfl⟩

theorem load_new_of_starts {bytecode : List UInt8} {m : WasmModule}
    (h : engine.Starts bytecode m) :
    (new engine).load bytecode = .ok (.pure (engine.instanceOf m)) := by
  have hall : m.memories.all (fun pages => memoryLimiter.memoryGrowing (pages * pageSize)) = true :=
    List.all_eq_true.mpr fun pages hpages => (memoryGrowing_iff pages).mpr (h.noPage pages hpages)
  simp only [new, h.read, h.linked, hall, if_true, WasmEngine.startModule, h.noStart]

theorem funcCall_cases (hfuel : engine.StopsWithoutFuel) (results : ℕ) (f : WasmFunc) :
    (∃ e, engine.funcCall results f = .fail e) ∨
      ∃ g k, f = .host g ∧ results = 1 ∧ g.nullary = some k ∧
        engine.funcCall results f = .call k fun _ => .pure () := by
  unfold WasmEngine.funcCall
  split_ifs with hresults
  · exact Or.inl ⟨_, rfl⟩
  · cases f with
    | own params n body =>
      dsimp only
      split_ifs
      · exact Or.inl ⟨_, rfl⟩
      · exact Or.inl (hfuel body)
    | host g =>
      dsimp only
      cases hk : g.nullary with
      | none => exact Or.inl ⟨_, rfl⟩
      | some k => exact Or.inr ⟨g, k, rfl, (not_not.mp hresults).symm, hk, rfl⟩

theorem written_nullary {f : HostFunction} {k : HostCall} (h : f.nullary = some k) :
    k.written = none := by
  cases f <;> cases h <;> rfl

/-- Nothing is written, whatever the contract and the function. -/
theorem writes_new (hfuel : engine.StopsWithoutFuel) (bytecode : List UInt8) (entry : WasmEntry)
    (gasLimit : UInt64) (st : RuntimeState σ) :
    (new engine).writes bytecode entry gasLimit st = [] := by
  have hfunc : ∀ results f (st : RuntimeState σ),
      (engine.funcCall results f).writes st = [] := by
    intro results f st
    rcases funcCall_cases hfuel results f with ⟨e, he⟩ | ⟨g, k, -, -, hk, he⟩
    · rw [he]
      rfl
    · rw [he, HostProgram.writes, CallProgram.accepted]
      cases HostCall.host k st with
      | mk r st' =>
        cases r with
        | error e => rfl
        | ok answer => simp [CallProgram.accepted, written_nullary hk]
  unfold writes
  dsimp only
  rcases load_new hfuel bytecode with ⟨e, he⟩ | ⟨e, he⟩ | ⟨m, -, hm⟩
  · rw [he]
  · rw [he]
    rfl
  · rw [hm]
    change entryWrites (engine.instanceOf m) entry _ = []
    unfold entryWrites WasmEngine.instanceOf
    cases entry with
    | init =>
      dsimp only
      cases m.getFunc "init" with
      | none => rfl
      | some f => exact hfunc 0 f _
    | call name =>
      dsimp only
      cases m.getFunc name with
      | none => rfl
      | some f => exact hfunc f.results f _

theorem run_nullary {f : HostFunction} {k : HostCall} (h : f.nullary = some k)
    (st : RuntimeState σ) :
    (CallProgram.call k fun _ => .pure () : HostProgram Unit).run HostCall.host st =
      match st.gasMeter.charge 1 with
      | .error _ => (.error .memoryOutOfBounds, st)
      | .ok gasMeter => (.ok (), ⟨st.contractAddress, st.caller, st.blockHeight, st.timestamp,
          st.storage, gasMeter⟩) := by
  rw [CallProgram.run]
  cases f <;> cases h
  all_goals
    simp only [HostCall.host, RuntimeState.getBlockHeight, RuntimeState.getTimestamp,
      RuntimeState.charged]
    cases st.gasMeter.charge 1 <;> rfl

theorem charge_one (gasLimit : UInt64) (h : gasLimit ≠ 0) :
    (GasMeter.new gasLimit).charge 1 = .ok ⟨gasLimit, 1⟩ := by
  have hle : ¬ (0 + 1 : UInt64) > gasLimit := by
    rw [UInt64.zero_add, gt_iff_lt, UInt64.lt_iff_toNat_lt, UInt64.toNat_one]
    have hpos : 0 < gasLimit.toNat := UInt64.pos_iff_ne_zero.mpr h
    omega
  exact if_neg hle

theorem charge_one_zero : (GasMeter.new 0).charge 1 = .error "Out of gas" := by decide

theorem execute_new_call_iff (hfuel : engine.StopsWithoutFuel) (bytecode : List UInt8)
    (name : String) (gasLimit : UInt64) (st st' : RuntimeState σ) :
    (new engine).execute bytecode (.call name) gasLimit st = (.ok (.ok ()), st') ↔
      engine.Answers bytecode name ∧ gasLimit ≠ 0 ∧
        st' = ⟨st.contractAddress, st.caller, st.blockHeight, st.timestamp, st.storage,
          ⟨gasLimit, 1⟩⟩ := by
  unfold execute instantiateContract
  constructor
  · intro h
    rcases load_new hfuel bytecode with ⟨e, he⟩ | ⟨e, he⟩ | ⟨m, hm, hload⟩
    · rw [he] at h
      cases h
    · rw [he] at h
      cases h
    · rw [hload] at h
      simp only [CallProgram.run, callEntry, callFunction, WasmEngine.instanceOf] at h
      cases hf : m.getFunc name with
      | none =>
        simp only [hf, Option.map_none] at h
        cases h
      | some f =>
        simp only [hf, Option.map_some] at h
        rcases funcCall_cases hfuel f.results f with ⟨e, he⟩ | ⟨g, k, rfl, -, hk, he⟩
        · rw [he] at h
          cases h
        · rw [he, run_nullary hk] at h
          by_cases hgas : gasLimit = 0
          · rw [hgas, charge_one_zero] at h
            cases h
          · rw [charge_one gasLimit hgas] at h
            simp only [Prod.mk.injEq, true_and] at h
            exact ⟨⟨m, g, k, hm, hf, hk⟩, hgas, h.symm⟩
  · rintro ⟨⟨m, f, k, hm, hf, hk⟩, hgas, rfl⟩
    have hcall : engine.funcCall 1 (.host f) = .call k fun _ => .pure () := by
      simp only [WasmEngine.funcCall, WasmFunc.results, hk]
      rfl
    rw [load_new_of_starts hm]
    simp only [CallProgram.run, callEntry, callFunction, WasmEngine.instanceOf, hf,
      Option.map_some, WasmFunc.results, hcall, run_nullary hk, charge_one gasLimit hgas]

end WasmRuntime

section Sample

/-- `(import "env" "get_block_height")`, exported again as `run`. -/
def heightModule : List UInt8 :=
  [0, 97, 115, 109, 1, 0, 0, 0, 1, 5, 1, 96, 0, 1, 126, 2, 24, 1, 3, 101, 110, 118, 16, 103, 101,
    116, 95, 98, 108, 111, 99, 107, 95, 104, 101, 105, 103, 104, 116, 0, 0, 7, 7, 1, 3, 114, 117,
    110, 0, 0]

/-- An empty memory, and an `init` that writes the empty key and traps. -/
def writerModule : List UInt8 :=
  [0, 97, 115, 109, 1, 0, 0, 0, 1, 12, 2, 96, 4, 127, 127, 127, 127, 1, 127, 96, 0, 0, 2, 21, 1, 3,
    101, 110, 118, 13, 115, 116, 111, 114, 97, 103, 101, 95, 119, 114, 105, 116, 101, 0, 0, 3, 2, 1,
    1, 5, 3, 1, 0, 0, 7, 17, 2, 6, 109, 101, 109, 111, 114, 121, 2, 0, 4, 105, 110, 105, 116, 0, 1,
    10, 16, 1, 14, 0, 65, 0, 65, 0, 65, 0, 65, 0, 16, 0, 26, 0, 11]

def writingThenTrapping : HostProgram Unit :=
  .call (.storageWrite (some []) (some [])) fun _ => .fail (.other "unreachable")

/-- An engine that knows the two modules. -/
def sampleEngine : WasmEngine where
  moduleNew bytecode :=
    if bytecode = heightModule then
      .ok ⟨[], none, fun name => if name = "run" then some (.host .getBlockHeight) else none⟩
    else if bytecode = writerModule then
      .ok ⟨[0], none, fun name =>
        if name = "init" then some (.own 0 0 writingThenTrapping) else none⟩
    else .error (.other "failed to parse WebAssembly module")
  link _ := .ok ()
  enter fuel body := if fuel = 0 then .fail (.other "all fuel consumed by WebAssembly") else body
  overLimit := .other "memory minimum size exceeds memory limits"
  mismatch := .other "expected 0 arguments"
  describe
    | .memoryOutOfBounds => "out of bounds memory access"
    | .other message => message

theorem sampleEngine_stopsWithoutFuel : sampleEngine.StopsWithoutFuel := fun _ => ⟨_, rfl⟩

end Sample

end CytahSpeed
