import CytahSpeed.StateManager

/-!
# State snapshots

A snapshot is a serialised state manager with a root beside it. `validate` compares that root with
the root field of the manager it decodes; it does not look at the decoded tree or its accounts. So
the accounts of a validated snapshot are bound to its root exactly where the bytes decode to a
manager whose own root field is a root of its own accounts.
-/

namespace CytahSpeed
open ByteString FiniteMap

/-- What the program uses of the `bincode` crate, with its errors as texts. -/
structure Bincode where
  serialize : StateManager → Except String (List UInt8)
  deserialize : List UInt8 → Except String StateManager

/-- A decoder that knows the listed encodings only. -/
def Bincode.knowing (known : List (List UInt8 × StateManager)) : Bincode where
  serialize _ := .error "the encoding is not known"
  deserialize data :=
    match known.find? (·.1 = data) with
    | some entry => .ok entry.2
    | none => .error "unexpected end of file"

def StateManager.getStateRoot (s : StateManager) : Hash := s.currentStateRoot

structure StateSnapshot where
  stateRoot : Hash
  blockHeight : UInt64
  blockHash : BlockHash
  stateData : List UInt8
  deriving DecidableEq

namespace StateSnapshot

variable (codec : Bincode)

def fromStateManager (state : StateManager) (blockHeight : UInt64) (blockHash : BlockHash) :
    Except String StateSnapshot :=
  match codec.serialize state with
  | .error e => .error ("Failed to serialize state: " ++ e)
  | .ok stateData => .ok ⟨state.getStateRoot, blockHeight, blockHash, stateData⟩

variable (snapshot : StateSnapshot)

def restoreToStateManager : Except String StateManager :=
  match codec.deserialize snapshot.stateData with
  | .error e => .error ("Failed to deserialize state: " ++ e)
  | .ok state => .ok state

def validate : Except String Unit :=
  match snapshot.restoreToStateManager codec with
  | .error e => .error e
  | .ok state =>
    if state.getStateRoot ≠ snapshot.stateRoot then
      .error "State root mismatch after deserialization"
    else .ok ()

end StateSnapshot

structure StateSyncManager where
  state : StateManager
  lastSyncedRoot : Hash
  syncInProgress : Bool

namespace StateSyncManager

def new (state : StateManager) : StateSyncManager := ⟨state, state.getStateRoot, false⟩

variable (m : StateSyncManager)

/-- The channel takes the request, or refuses it with an error. -/
def requestStateSync (sendError : Option String) : Except String Unit × StateSyncManager :=
  if m.syncInProgress then (.error "State sync already in progress", m)
  else
    let m := { m with syncInProgress := true }
    match sendError with
    | some e => (.error ("Failed to send state request: " ++ e), m)
    | none => (.ok (), m)

def handleStateSnapshot (codec : Bincode) (snapshot : StateSnapshot) :
    Except String Unit × StateSyncManager :=
  match snapshot.validate codec with
  | .error e => (.error e, m)
  | .ok _ =>
    if snapshot.stateRoot = m.state.getStateRoot then (.ok (), { m with syncInProgress := false })
    else
      match snapshot.restoreToStateManager codec with
      | .error e => (.error e, m)
      | .ok state => (.ok (), ⟨state, snapshot.stateRoot, false⟩)

end StateSyncManager

namespace SparseMerkleTree

variable {c : Crypto} {t : SparseMerkleTree}

theorem root_rebuildTree (order : IterOrder Address Account) :
    (t.rebuildTree c order).root = rootOf c (order.iter t.leaves) := by
  unfold rebuildTree
  split_ifs with hempty
  · have hlen := (order.enumerates t.leaves).length_eq
    rw [hempty, Finset.card_empty, List.length_eq_zero_iff] at hlen
    rw [hlen]
    rfl
  · rfl

end SparseMerkleTree

namespace StateManager

variable (c : Crypto) (s : StateManager)

/-- The root field is the root over the accounts, in some order of the leaves. -/
def Coherent : Prop :=
  ∃ order, (s.stateTree.rebuildTree c order).calculateRoot = s.currentStateRoot

variable {c}

theorem coherent_of_built {t : SparseMerkleTree} (h : SparseMerkleTree.Built c t) :
    (StateManager.mk t t.calculateRoot).Coherent c := by
  obtain ⟨l, hl, hroot⟩ := h.root_eq
  refine ⟨IterOrder.sorted.withList t.leaves l hl, ?_⟩
  have hsame : (t.rebuildTree c (IterOrder.sorted.withList t.leaves l hl)).root = t.root := by
    rw [SparseMerkleTree.root_rebuildTree, hroot]
    simp [IterOrder.withList]
  simp only [SparseMerkleTree.calculateRoot, hsame]

end StateManager

namespace StateSnapshot

variable {c : Crypto} {codec : Bincode} {snapshot : StateSnapshot}

def Authentic (c : Crypto) (codec : Bincode) (snapshot : StateSnapshot) : Prop :=
  ∃ state order, snapshot.restoreToStateManager codec = .ok state ∧
    (state.stateTree.rebuildTree c order).calculateRoot = snapshot.stateRoot

theorem restoreToStateManager_eq_ok_iff {state : StateManager} :
    snapshot.restoreToStateManager codec = .ok state ↔
      codec.deserialize snapshot.stateData = .ok state := by
  unfold restoreToStateManager
  cases codec.deserialize snapshot.stateData <;> simp

theorem validate_eq_ok_iff : snapshot.validate codec = .ok () ↔
    ∃ state, codec.deserialize snapshot.stateData = .ok state ∧
      state.currentStateRoot = snapshot.stateRoot := by
  unfold validate restoreToStateManager
  cases codec.deserialize snapshot.stateData with
  | error e => simp
  | ok state =>
    simp only [Except.ok.injEq, exists_eq_left', StateManager.getStateRoot]
    by_cases hroot : state.currentStateRoot = snapshot.stateRoot <;> simp [hroot]

theorem validate_fromStateManager {state : StateManager} {blockHeight : UInt64}
    {blockHash : BlockHash}
    (hround : ∀ data, codec.serialize state = .ok data → codec.deserialize data = .ok state)
    (h : fromStateManager codec state blockHeight blockHash = .ok snapshot) :
    snapshot.validate codec = .ok () ∧ snapshot.restoreToStateManager codec = .ok state := by
  rw [fromStateManager] at h
  cases hs : codec.serialize state with
  | error e =>
    rw [hs] at h
    cases h
  | ok data =>
    rw [hs] at h
    obtain rfl := Except.ok.inj h
    have hdata := hround data hs
    exact ⟨validate_eq_ok_iff.mpr ⟨state, hdata, rfl⟩,
      restoreToStateManager_eq_ok_iff.mpr hdata⟩

/-- All validated snapshots with given bytes are authentic exactly when the manager that the bytes
decode to is coherent. -/
theorem validated_authentic_iff (c : Crypto) (codec : Bincode) (data : List UInt8) :
    (∀ snapshot : StateSnapshot, snapshot.stateData = data → snapshot.validate codec = .ok () →
        snapshot.Authentic c codec) ↔
      ∀ state, codec.deserialize data = .ok state → state.Coherent c := by
  constructor
  · intro h state hstate
    let snapshot : StateSnapshot := ⟨state.currentStateRoot, 0, Bytes.zero 32, data⟩
    have hvalid : snapshot.validate codec = .ok () :=
      validate_eq_ok_iff.mpr ⟨state, hstate, rfl⟩
    obtain ⟨state', order, hrestore, hroot⟩ := h snapshot rfl hvalid
    rw [restoreToStateManager_eq_ok_iff, hstate] at hrestore
    obtain rfl := Except.ok.inj hrestore
    exact ⟨order, hroot⟩
  · rintro h snapshot rfl hvalid
    obtain ⟨state, hstate, hfield⟩ := validate_eq_ok_iff.mp hvalid
    obtain ⟨order, hroot⟩ := h state hstate
    exact ⟨state, order, restoreToStateManager_eq_ok_iff.mpr hstate, hroot.trans hfield⟩

section Sample

def sampleAddress : Address := Bytes.fill 20 9

def sampleManager (balance : UInt64) : StateManager where
  stateTree := ⟨none, (∅ : Map Address Account).insert sampleAddress ⟨balance, 0⟩⟩
  currentStateRoot := (MerkleNode.newLeaf .hashOnly sampleAddress ⟨1, 0⟩).hash

def sampleData (balance : UInt64) : List UInt8 :=
  [0] ++ le64 1 ++ sampleAddress.toList ++ le64 balance ++ le64 0 ++
    (sampleManager balance).currentStateRoot.toList

def sampleCodec : Bincode :=
  .knowing [(sampleData 1, sampleManager 1), (sampleData 1000, sampleManager 1000)]

def sampleSnapshot (balance : UInt64) : StateSnapshot :=
  ⟨(sampleManager 1).currentStateRoot, 100, Bytes.zero 32, sampleData balance⟩

theorem iter_singleton (order : IterOrder Address Account) (account : Account) :
    order.iter ((∅ : Map Address Account).insert sampleAddress account) =
      [(sampleAddress, account)] := by
  have hmem : ∀ e, e ∈ order.iter ((∅ : Map Address Account).insert sampleAddress account) ↔
      e = (sampleAddress, account) := by
    intro e
    rw [(order.enumerates _).2, lookup_insert_eq_ite]
    obtain ⟨k, v⟩ := e
    by_cases hk : k = sampleAddress <;> simp [hk, eq_comm]
  have hlen := (order.enumerates ((∅ : Map Address Account).insert sampleAddress account)).length_eq
  rw [keys_insert] at hlen
  obtain ⟨e, he⟩ := List.length_eq_one_iff.mp (hlen.trans (by simp))
  rw [he, (hmem e).mp (by rw [he]; exact List.mem_singleton_self e)]

theorem deserialize_sampleData :
    sampleCodec.deserialize (sampleData 1) = .ok (sampleManager 1) ∧
      sampleCodec.deserialize (sampleData 1000) = .ok (sampleManager 1000) := by
  have hne : sampleData 1 ≠ sampleData 1000 := by decide +kernel
  simp [sampleCodec, Bincode.knowing, hne]

theorem calculateRoot_sampleManager (order : IterOrder Address Account) (balance : UInt64) :
    ((sampleManager balance).stateTree.rebuildTree .hashOnly order).calculateRoot =
      (MerkleNode.newLeaf .hashOnly sampleAddress ⟨balance, 0⟩).hash := by
  have hroot := SparseMerkleTree.root_rebuildTree (c := .hashOnly)
    (t := (sampleManager balance).stateTree) order
  have hiter : order.iter (sampleManager balance).stateTree.leaves =
      [(sampleAddress, ⟨balance, 0⟩)] := iter_singleton order _
  rw [hiter] at hroot
  simp only [SparseMerkleTree.calculateRoot, hroot]
  rfl

set_option maxRecDepth 20000 in
/-- A snapshot with a thousand tokens in place of one validates under the same root. -/
theorem validated_authentic_sample :
    (sampleSnapshot 1000).stateRoot = (sampleSnapshot 1).stateRoot ∧
      (sampleSnapshot 1).validate sampleCodec = .ok () ∧
      (sampleSnapshot 1000).validate sampleCodec = .ok () ∧
      ¬ (sampleSnapshot 1000).Authentic .hashOnly sampleCodec := by
  obtain ⟨hhonest, hforged⟩ := deserialize_sampleData
  refine ⟨rfl, validate_eq_ok_iff.mpr ⟨_, hhonest, rfl⟩,
    validate_eq_ok_iff.mpr ⟨_, hforged, rfl⟩, ?_⟩
  rintro ⟨state, order, hrestore, hroot⟩
  rw [restoreToStateManager_eq_ok_iff] at hrestore
  obtain rfl := Except.ok.inj (hforged.symm.trans hrestore)
  rw [calculateRoot_sampleManager] at hroot
  have hne : (MerkleNode.newLeaf .hashOnly sampleAddress ⟨1000, 0⟩).hash ≠
      (MerkleNode.newLeaf .hashOnly sampleAddress ⟨1, 0⟩).hash := by decide +kernel
  exact hne hroot

end Sample

end StateSnapshot

end CytahSpeed
