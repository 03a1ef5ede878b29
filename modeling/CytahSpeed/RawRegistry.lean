import CytahSpeed.EncodedMap
import CytahSpeed.HexDecoding
import CytahSpeed.Serde
import CytahSpeed.StateManager

/-!
# The contract registry on bytes

A contract is stored under `contract:` and its address. Reads decode what they find, and a read that
fails counts as a miss: a registration that meets one overwrites the contract that is there. A
listing seeks to `cont` and keeps the keys that begin with `contract:`. If the serialisation reads
back what it wrote, the bytes represent one finite map of contracts over every run.
-/

namespace CytahSpeed
open ByteString FiniteMap

structure RawRegistry where
  db : Map (List UInt8) (List UInt8)

structure RegistryEnv where
  readError : Option String
  writeError : Option String

def registryPrefix : List UInt8 := utf8Bytes "contract:"

def makeRegistryKey (address : Address) : List UInt8 := registryPrefix ++ address.toList

theorem makeRegistryKey_injective : Function.Injective makeRegistryKey := by
  intro a b h
  exact List.Vector.toList_injective (List.append_cancel_left h)

theorem append_le_append_left_iff (l x y : List ℕ) : l ++ x ≤ l ++ y ↔ x ≤ y := by
  have hlex : List.Lex (· < ·) (l ++ y) (l ++ x) ↔ List.Lex (· < ·) y x := by
    induction l with
    | nil => exact Iff.rfl
    | cons n l ih => rw [List.cons_append, List.cons_append, List.lex_cons_iff, ih]
  rw [← not_lt, ← not_lt]
  exact not_congr hlex

theorem le_makeRegistryKey_iff (a b : Address) :
    lexOrder.le (makeRegistryKey a) (makeRegistryKey b) ↔ a ≤ b := by
  change (makeRegistryKey a).map UInt8.toNat ≤ (makeRegistryKey b).map UInt8.toNat ↔ _
  rw [makeRegistryKey, makeRegistryKey, List.map_append, List.map_append, append_le_append_left_iff]
  exact Iff.rfl

theorem cont_le_makeRegistryKey (a : Address) :
    lexOrder.le (utf8Bytes "cont") (makeRegistryKey a) := by
  have hsplit : registryPrefix = utf8Bytes "cont" ++ utf8Bytes "ract:" := by decide
  change (utf8Bytes "cont").map UInt8.toNat ≤ (makeRegistryKey a).map UInt8.toNat
  rw [makeRegistryKey, hsplit, List.append_assoc, List.map_append,
    ← List.append_nil ((utf8Bytes "cont").map UInt8.toNat), List.append_assoc,
    append_le_append_left_iff, List.nil_append]
  exact not_lt.mp nofun

namespace RawRegistry

variable (serde : Serde ContractInfo) (r : RawRegistry)

def dbGet (readError : Option String) (address : Address) : Except String (Option (List UInt8)) :=
  match readError with
  | some e => .error e
  | none => .ok (r.db.lookup (makeRegistryKey address))

/-- `unwritten` and `failure` are the texts in front of the errors of the encoder and of the
database. -/
def dbPut (writeError : Option String) (unwritten failure : String) (address : Address)
    (info : ContractInfo) : Except String Unit × RawRegistry :=
  match serde.serialize info with
  | .error e => (.error (unwritten ++ e), r)
  | .ok data =>
    match writeError with
    | some e => (.error (failure ++ e), r)
    | none => (.ok (), ⟨r.db.insert (makeRegistryKey address) data⟩)

def getContract (readError : Option String) (address : Address) : Option ContractInfo :=
  match r.dbGet readError address with
  | .ok (some data) =>
    match serde.deserialize data with
    | .ok info => some info
    | .error _ => none
  | .ok none => none
  | .error _ => none

def registerContract (env : RegistryEnv) (address : Address) (bytecode : List UInt8) :
    Except String Unit × RawRegistry :=
  match r.getContract serde env.readError address with
  | some _ => (.error "contract already exists", r)
  | none =>
    r.dbPut serde env.writeError "Failed to serialize contract info: "
      "Failed to write contract to DB: " address ⟨address, bytecode, []⟩

def addMetadata (env : RegistryEnv) (address : Address) (metadata : List UInt8) :
    Except String Unit × RawRegistry :=
  match r.dbGet env.readError address with
  | .error e => (.error ("Failed to read from DB: " ++ e), r)
  | .ok none => (.error "contract not found", r)
  | .ok (some data) =>
    match serde.deserialize data with
    | .error e => (.error ("Failed to deserialize contract info: " ++ e), r)
    | .ok info =>
      r.dbPut serde env.writeError "Failed to serialize updated contract info: "
        "Failed to update contract in DB: " address { info with metadata }

def deleteContract (env : RegistryEnv) (address : Address) : Except String Unit × RawRegistry :=
  match env.writeError with
  | some e => (.error ("Failed to delete contract from DB: " ++ e), r)
  | none => (.ok (), ⟨r.db.erase (makeRegistryKey address)⟩)

/-- Entries that cannot be decoded are passed over. -/
def listAllContracts (scanError : Option String) : Except String (List ContractInfo) :=
  match scanError with
  | some e => .error ("RocksDB iterator error: " ++ e)
  | none =>
    .ok (((@sortedEntries _ _ lexOrder r.db).filter fun e =>
      decide (lexOrder.le (utf8Bytes "cont") e.1) && registryPrefix.isPrefixOf e.1).filterMap
        fun e => (serde.deserialize e.2).toOption)

def contractExists (readError : Option String) (address : Address) : Bool :=
  match r.dbGet readError address with
  | .ok data => data.isSome
  | .error _ => false

def contractCount (scanError : Option String) : Except String ℕ :=
  (r.listAllContracts serde scanError).map List.length

end RawRegistry

inductive RegistryCall
  | registerContract (env : RegistryEnv) (address : Address) (bytecode : List UInt8)
  | addMetadata (env : RegistryEnv) (address : Address) (metadata : List UInt8)
  | deleteContract (env : RegistryEnv) (address : Address)

namespace RegistryCall

/-- The call can take the contract of an address away: a deletion, or a registration that cannot
read what is there. -/
def Replaces (a : Address) : RegistryCall → Prop
  | registerContract env address _ =>
    address = a ∧ env.readError ≠ none ∧ env.writeError = none
  | addMetadata _ _ _ => False
  | deleteContract env address => address = a ∧ env.writeError = none

/-- The metadata of the contract at `a` after a call that adds some, and can write it. -/
def metadataAfter (serde : Serde ContractInfo) (a : Address) (bytecode metadata : List UInt8) :
    RegistryCall → List UInt8
  | addMetadata env address added =>
    if address = a ∧ env.readError = none ∧ env.writeError = none ∧
      serde.Writes ⟨a, bytecode, added⟩ then added
    else metadata
  | _ => metadata

end RegistryCall

def RawRegistry.exec (serde : Serde ContractInfo) (r : RawRegistry) :
    RegistryCall → Except String Unit × RawRegistry
  | .registerContract env address bytecode => r.registerContract serde env address bytecode
  | .addMetadata env address metadata => r.addMetadata serde env address metadata
  | .deleteContract env address => r.deleteContract env address

def putContract (serde : Serde ContractInfo) (contracts : Map Address ContractInfo)
    (writeError : Option String) (unwritten failure : String) (address : Address)
    (info : ContractInfo) : Except String Unit × Map Address ContractInfo :=
  match serde.serialize info, writeError with
  | .error e, _ => (.error (unwritten ++ e), contracts)
  | .ok _, some e => (.error (failure ++ e), contracts)
  | .ok _, none => (.ok (), contracts.insert address info)

/-- What a call does to the contracts: the map alone, with nothing encoded. -/
def RegistryCall.apply (serde : Serde ContractInfo) (contracts : Map Address ContractInfo) :
    RegistryCall → Except String Unit × Map Address ContractInfo
  | .registerContract env address bytecode =>
    if env.readError = none ∧ address ∈ contracts then
      (.error "contract already exists", contracts)
    else
      putContract serde contracts env.writeError "Failed to serialize contract info: "
        "Failed to write contract to DB: " address ⟨address, bytecode, []⟩
  | .addMetadata env address metadata =>
    match env.readError, contracts.lookup address with
    | some e, _ => (.error ("Failed to read from DB: " ++ e), contracts)
    | none, none => (.error "contract not found", contracts)
    | none, some info =>
      putContract serde contracts env.writeError "Failed to serialize updated contract info: "
        "Failed to update contract in DB: " address { info with metadata }
  | .deleteContract env address =>
    match env.writeError with
    | some e => (.error ("Failed to delete contract from DB: " ++ e), contracts)
    | none => (.ok (), contracts.erase address)

namespace RawRegistry

/-- The database holds the encodings of the contracts, each under its own address. -/
structure Represents (serde : Serde ContractInfo) (r : RawRegistry)
    (contracts : Map Address ContractInfo) : Prop where
  stores : Stores makeRegistryKey serde.bytes contracts r.db
  address : ∀ a info, contracts.lookup a = some info → info.address = a
  written : ∀ a info, contracts.lookup a = some info → serde.Writes info

variable {serde : Serde ContractInfo} {r : RawRegistry} {contracts : Map Address ContractInfo}

theorem represents_empty : Represents serde ⟨∅⟩ ∅ := ⟨.empty, nofun, nofun⟩

theorem Represents.getContract (h : r.Represents serde contracts) (hround : serde.RoundTrips)
    (a : Address) : r.getContract serde none a = contracts.lookup a := by
  unfold RawRegistry.getContract dbGet
  dsimp only
  rw [h.stores.get]
  cases ha : contracts.lookup a with
  | none => rfl
  | some info =>
    dsimp only [Option.map_some]
    rw [hround.deserialize_bytes (h.written a info ha)]

theorem Represents.insert (h : r.Represents serde contracts) {a : Address} {info : ContractInfo}
    (ha : info.address = a) (hinfo : serde.Writes info) :
    Represents serde ⟨r.db.insert (makeRegistryKey a) (serde.bytes info)⟩
      (contracts.insert a info) := by
  refine ⟨h.stores.insert makeRegistryKey_injective a info, ?_, ?_⟩
  · intro b other hb
    rw [lookup_insert_eq_ite] at hb
    split_ifs at hb with hba
    · rw [← Option.some.inj hb, ha, hba]
    · exact h.address b other hb
  · intro b other hb
    rw [lookup_insert_eq_ite] at hb
    split_ifs at hb with hba
    · rwa [← Option.some.inj hb]
    · exact h.written b other hb

theorem Represents.erase (h : r.Represents serde contracts) (a : Address) :
    Represents serde ⟨r.db.erase (makeRegistryKey a)⟩ (contracts.erase a) := by
  refine ⟨h.stores.erase makeRegistryKey_injective a, ?_, ?_⟩
  · intro b other hb
    rw [lookup_erase_eq_ite] at hb
    split_ifs at hb
    exact h.address b other hb
  · intro b other hb
    rw [lookup_erase_eq_ite] at hb
    split_ifs at hb
    exact h.written b other hb

theorem Represents.dbPut (h : r.Represents serde contracts) (writeError : Option String)
    (unwritten failure : String) (a : Address) (info : ContractInfo) (ha : info.address = a) :
    (r.dbPut serde writeError unwritten failure a info).1 =
        (putContract serde contracts writeError unwritten failure a info).1 ∧
      (r.dbPut serde writeError unwritten failure a info).2.Represents serde
        (putContract serde contracts writeError unwritten failure a info).2 := by
  unfold RawRegistry.dbPut putContract
  cases hdata : serde.serialize info with
  | error e => exact ⟨rfl, h⟩
  | ok data =>
    cases writeError with
    | some e => exact ⟨rfl, h⟩
    | none =>
      have hinsert := h.insert ha (Serde.writes_of_ok hdata)
      rw [Serde.bytes_eq hdata] at hinsert
      exact ⟨rfl, hinsert⟩

theorem Represents.registerContract (h : r.Represents serde contracts) (hround : serde.RoundTrips)
    (env : RegistryEnv) (a : Address) (bytecode : List UInt8) :
    (r.registerContract serde env a bytecode).1 =
        ((RegistryCall.registerContract env a bytecode).apply serde contracts).1 ∧
      (r.registerContract serde env a bytecode).2.Represents serde
        ((RegistryCall.registerContract env a bytecode).apply serde contracts).2 := by
  have hput := h.dbPut env.writeError "Failed to serialize contract info: "
    "Failed to write contract to DB: " a ⟨a, bytecode, []⟩ rfl
  unfold RawRegistry.registerContract RegistryCall.apply
  dsimp only
  cases hread : env.readError with
  | some e =>
    have hmiss : r.getContract serde (some e) a = none := rfl
    rw [hmiss, if_neg (by simp)]
    exact hput
  | none =>
    rw [h.getContract hround]
    cases hfound : contracts.lookup a with
    | some info =>
      rw [if_pos ⟨rfl, Finmap.mem_of_lookup_eq_some hfound⟩]
      exact ⟨rfl, h⟩
    | none =>
      rw [if_neg (by simp [Finmap.lookup_eq_none.mp hfound])]
      exact hput

theorem Represents.addMetadata (h : r.Represents serde contracts) (hround : serde.RoundTrips)
    (env : RegistryEnv) (a : Address) (metadata : List UInt8) :
    (r.addMetadata serde env a metadata).1 =
        ((RegistryCall.addMetadata env a metadata).apply serde contracts).1 ∧
      (r.addMetadata serde env a metadata).2.Represents serde
        ((RegistryCall.addMetadata env a metadata).apply serde contracts).2 := by
  unfold RawRegistry.addMetadata RawRegistry.dbGet RegistryCall.apply
  dsimp only
  cases hread : env.readError with
  | some e => exact ⟨rfl, h⟩
  | none =>
    dsimp only
    rw [h.stores.get]
    cases hfound : contracts.lookup a with
    | none => exact ⟨rfl, h⟩
    | some info =>
      dsimp only [Option.map_some]
      rw [hround.deserialize_bytes (h.written a info hfound)]
      exact h.dbPut env.writeError _ _ a { info with metadata } (h.address a info hfound)

/-- Every call gives the result that it gives on the map, and keeps the representation. -/
theorem Represents.exec (h : r.Represents serde contracts) (hround : serde.RoundTrips)
    (call : RegistryCall) :
    (r.exec serde call).1 = (call.apply serde contracts).1 ∧
      (r.exec serde call).2.Represents serde (call.apply serde contracts).2 := by
  cases call with
  | registerContract env a bytecode => exact h.registerContract hround env a bytecode
  | addMetadata env a metadata => exact h.addMetadata hround env a metadata
  | deleteContract env a =>
    change (r.deleteContract env a).1 = _ ∧ _
    unfold RawRegistry.exec RawRegistry.deleteContract RegistryCall.apply
    dsimp only
    cases hw : env.writeError with
    | some e => exact ⟨rfl, h⟩
    | none => exact ⟨rfl, h.erase a⟩

def run (serde : Serde ContractInfo) (r : RawRegistry) (calls : List RegistryCall) : RawRegistry :=
  calls.foldl (fun r call => (r.exec serde call).2) r

def runMap (serde : Serde ContractInfo) (contracts : Map Address ContractInfo)
    (calls : List RegistryCall) : Map Address ContractInfo :=
  calls.foldl (fun contracts call => (call.apply serde contracts).2) contracts

theorem Represents.run (h : r.Represents serde contracts) (hround : serde.RoundTrips)
    (calls : List RegistryCall) :
    (r.run serde calls).Represents serde (runMap serde contracts calls) := by
  induction calls generalizing r contracts with
  | nil => exact h
  | cons call calls ih => exact ih (h.exec hround call).2

theorem Represents.listed (h : r.Represents serde contracts) {e : List UInt8 × List UInt8}
    (he : e ∈ @sortedEntries _ _ lexOrder r.db) :
    (decide (lexOrder.le (utf8Bytes "cont") e.1) && registryPrefix.isPrefixOf e.1) = true := by
  rw [h.stores.sortedEntries_eq le_makeRegistryKey_iff] at he
  obtain ⟨⟨a, info⟩, -, rfl⟩ := List.mem_map.mp he
  rw [Bool.and_eq_true, decide_eq_true_eq, List.isPrefixOf_iff_prefix]
  exact ⟨cont_le_makeRegistryKey a, List.prefix_append registryPrefix _⟩

theorem Represents.listAllContracts (h : r.Represents serde contracts)
    (hround : serde.RoundTrips) :
    r.listAllContracts serde none = .ok ((sortedEntries contracts).map Prod.snd) := by
  unfold RawRegistry.listAllContracts
  dsimp only
  rw [List.filter_eq_self.mpr fun e he => h.listed he,
    h.stores.sortedEntries_eq le_makeRegistryKey_iff, List.filterMap_map]
  have hdecode : ∀ e ∈ sortedEntries contracts,
      (serde.deserialize (serde.bytes e.2)).toOption = some e.2 := by
    intro e he
    have hwritten := h.written e.1 e.2 (((enumerates_sortedEntries contracts).2 e).mp he)
    rw [hround.deserialize_bytes hwritten]
    rfl
  simp only [Function.comp_def]
  rw [List.filterMap_congr hdecode, List.filterMap_eq_map']

/-- What the reads return. A read that fails is a miss. -/
structure Answers (serde : Serde ContractInfo) (r : RawRegistry)
    (contracts : Map Address ContractInfo) : Prop where
  getContract : ∀ a, r.getContract serde none a = contracts.lookup a
  contractExists : ∀ a, r.contractExists none a = decide (a ∈ contracts)
  missed : ∀ e a, r.getContract serde (some e) a = none ∧ r.contractExists (some e) a = false
  listAllContracts : r.listAllContracts serde none = .ok ((sortedEntries contracts).map Prod.snd)
  contractCount : r.contractCount serde none = .ok contracts.keys.card
  address : ∀ a info, r.getContract serde none a = some info → info.address = a

theorem Represents.answers (h : r.Represents serde contracts) (hround : serde.RoundTrips) :
    r.Answers serde contracts := by
  constructor
  case getContract => exact h.getContract hround
  case contractExists =>
    intro a
    unfold RawRegistry.contractExists dbGet
    dsimp only
    rw [h.stores.get, Option.isSome_map, Bool.eq_iff_iff, Finmap.lookup_isSome, decide_eq_true_iff]
  case missed => exact fun e a => ⟨rfl, rfl⟩
  case listAllContracts => exact h.listAllContracts hround
  case contractCount =>
    unfold RawRegistry.contractCount
    rw [h.listAllContracts hround]
    change Except.ok _ = _
    rw [List.length_map, (enumerates_sortedEntries contracts).length_eq]
  case address =>
    intro a info ha
    rw [h.getContract hround] at ha
    exact h.address a info ha

/-- Over every run of calls, whatever fails on the way, the bytes answer as the map of contracts
does: the listing holds each contract once, in the order of the addresses, and each contract is
found under its own address. -/
theorem bytes_refine_contracts (serde : Serde ContractInfo) (hround : serde.RoundTrips)
    (calls : List RegistryCall) :
    (run serde ⟨∅⟩ calls).Answers serde (runMap serde ∅ calls) ∧
      ∀ call, ((run serde ⟨∅⟩ calls).exec serde call).1 =
        (call.apply serde (runMap serde ∅ calls)).1 := by
  have h := represents_empty.run hround calls
  exact ⟨h.answers hround, fun call => (h.exec hround call).1⟩

theorem lookup_putContract (writeError : Option String) (unwritten failure : String)
    (a b : Address) (info : ContractInfo) :
    (putContract serde contracts writeError unwritten failure b info).2.lookup a =
      if a = b ∧ writeError = none ∧ serde.Writes info then some info
      else contracts.lookup a := by
  unfold putContract
  cases hdata : serde.serialize info with
  | error e => rw [if_neg fun h => Serde.not_writes_of_error hdata h.2.2]
  | ok data =>
    cases writeError with
    | some e => simp
    | none => simp [Serde.writes_of_ok hdata, lookup_insert_eq_ite]

theorem lookup_apply_addMetadata {a : Address} {bytecode metadata : List UInt8}
    (ha : contracts.lookup a = some ⟨a, bytecode, metadata⟩) (env : RegistryEnv) (b : Address)
    (added : List UInt8) :
    ((RegistryCall.addMetadata env b added).apply serde contracts).2.lookup a = some ⟨a, bytecode,
      (RegistryCall.addMetadata env b added).metadataAfter serde a bytecode metadata⟩ := by
  unfold RegistryCall.apply RegistryCall.metadataAfter
  dsimp only
  cases hread : env.readError with
  | some e =>
    rw [if_neg (by simp)]
    exact ha
  | none =>
    by_cases hb : b = a
    · subst hb
      rw [ha]
      dsimp only
      rw [lookup_putContract, ha]
      simp only [true_and]
      split_ifs <;> rfl
    · rw [if_neg fun h => hb h.1]
      cases contracts.lookup b with
      | none => exact ha
      | some other =>
        dsimp only
        rw [lookup_putContract, if_neg fun h => hb h.1.symm]
        exact ha

theorem lookup_apply {a : Address} {bytecode metadata : List UInt8}
    (ha : contracts.lookup a = some ⟨a, bytecode, metadata⟩) {call : RegistryCall}
    (hcall : ¬ call.Replaces a) :
    (call.apply serde contracts).2.lookup a =
      some ⟨a, bytecode, call.metadataAfter serde a bytecode metadata⟩ := by
  cases call with
  | registerContract env b code =>
    unfold RegistryCall.apply
    dsimp only
    by_cases htaken : env.readError = none ∧ b ∈ contracts
    · rw [if_pos htaken]
      exact ha
    · rw [if_neg htaken, lookup_putContract, if_neg]
      · exact ha
      · rintro ⟨rfl, hw, -⟩
        apply hcall
        refine ⟨rfl, fun hread => ?_, hw⟩
        exact htaken ⟨hread, Finmap.mem_of_lookup_eq_some ha⟩
  | addMetadata env b added => exact lookup_apply_addMetadata ha env b added
  | deleteContract env b =>
    unfold RegistryCall.apply
    dsimp only
    cases hw : env.writeError with
    | some e => exact ha
    | none =>
      have hne : a ≠ b := by
        rintro rfl
        exact hcall ⟨rfl, hw⟩
      dsimp only
      rw [lookup_erase_eq_ite, if_neg hne]
      exact ha

theorem lookup_runMap {a : Address} {bytecode metadata : List UInt8} (calls : List RegistryCall)
    (ha : contracts.lookup a = some ⟨a, bytecode, metadata⟩)
    (hkeep : ∀ call ∈ calls, ¬ call.Replaces a) :
    (runMap serde contracts calls).lookup a = some ⟨a, bytecode,
      calls.foldl (RegistryCall.metadataAfter serde a bytecode) metadata⟩ := by
  induction calls generalizing contracts metadata with
  | nil => exact ha
  | cons call calls ih =>
    apply ih (lookup_apply ha (hkeep call List.mem_cons_self))
    exact fun other hother => hkeep other (List.mem_cons_of_mem call hother)

theorem lookup_apply_registerContract {env : RegistryEnv} {a : Address} {bytecode : List UInt8}
    (hok : ((RegistryCall.registerContract env a bytecode).apply serde contracts).1 = .ok ()) :
    ((RegistryCall.registerContract env a bytecode).apply serde contracts).2.lookup a =
      some ⟨a, bytecode, []⟩ := by
  unfold RegistryCall.apply at hok ⊢
  dsimp only at hok ⊢
  by_cases htaken : env.readError = none ∧ a ∈ contracts
  · rw [if_pos htaken] at hok
    cases hok
  · rw [if_neg htaken] at hok ⊢
    unfold putContract at hok ⊢
    cases hdata : serde.serialize ⟨a, bytecode, []⟩ with
    | error e =>
      rw [hdata] at hok
      cases hok
    | ok data =>
      cases hw : env.writeError with
      | some e =>
        rw [hdata, hw] at hok
        cases hok
      | none => exact Finmap.lookup_insert contracts

/-- What is registered stays: after a registration that succeeded, and for as long as no call
deletes the address or registers it anew without being able to read it, the registry returns the
registered code with the metadata that was added last. -/
theorem registered_kept (serde : Serde ContractInfo) (hround : serde.RoundTrips)
    (pre post : List RegistryCall) (env : RegistryEnv) (a : Address) (bytecode : List UInt8)
    (hok : ((run serde ⟨∅⟩ pre).registerContract serde env a bytecode).1 = .ok ())
    (hkeep : ∀ call ∈ post, ¬ call.Replaces a) :
    (run serde ⟨∅⟩ (pre ++ .registerContract env a bytecode :: post)).getContract serde none a =
      some ⟨a, bytecode, post.foldl (RegistryCall.metadataAfter serde a bytecode) []⟩ := by
  have hpre := represents_empty.run hround pre
  rw [(represents_empty.run hround _).getContract hround]
  have hok' := hok
  change ((run serde ⟨∅⟩ pre).exec serde (.registerContract env a bytecode)).1 = _ at hok'
  rw [(hpre.exec hround _).1] at hok'
  have hafter := @lookup_runMap serde _ _ _ _ post (lookup_apply_registerContract hok') hkeep
  rw [runMap, List.foldl_append]
  exact hafter

section Sample

def sampleRegistryEnv : RegistryEnv := ⟨none, none⟩

def sampleAddress : Address := Bytes.fill 20 3

def sampleContractBytes (metadata : List UInt8) : List UInt8 :=
  sampleAddress.toList ++ le64 2 ++ [0, 97] ++ le64 (UInt64.ofNat metadata.length) ++ metadata

def sampleSerde : Serde ContractInfo :=
  .knowing [(⟨sampleAddress, [0, 97], []⟩, sampleContractBytes []),
    (⟨sampleAddress, [0, 97], [7]⟩, sampleContractBytes [7])]

theorem sampleSerde_roundTrips : sampleSerde.RoundTrips :=
  Serde.roundTrips_knowing (by decide)

def sampleRegistration : List RegistryCall :=
  [.registerContract sampleRegistryEnv sampleAddress [0, 97],
    .addMetadata sampleRegistryEnv sampleAddress [7]]

theorem bytes_refine_contracts_sample :
    (run sampleSerde ⟨∅⟩ sampleRegistration).Answers sampleSerde
      (runMap sampleSerde ∅ sampleRegistration) :=
  (bytes_refine_contracts sampleSerde sampleSerde_roundTrips sampleRegistration).1

theorem registered_kept_sample :
    (run sampleSerde ⟨∅⟩ sampleRegistration).getContract sampleSerde none sampleAddress =
      some ⟨sampleAddress, [0, 97], [7]⟩ :=
  registered_kept sampleSerde sampleSerde_roundTrips []
    [.addMetadata sampleRegistryEnv sampleAddress [7]] sampleRegistryEnv sampleAddress [0, 97]
    (by decide) (by
      intro call hcall
      rw [List.mem_singleton.mp hcall]
      exact id)

end Sample

end RawRegistry

end CytahSpeed
