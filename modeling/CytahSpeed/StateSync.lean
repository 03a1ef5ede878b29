import CytahSpeed.StateSnapshot
import CytahSpeed.StepRun

/-!
# State sync

A request raises the flag and then sends; a snapshot that answers it lowers the flag. A send that
fails leaves the flag up, and so does a snapshot that does not validate. While the flag is up every
request is refused, and only a valid snapshot lowers it. The state is replaced by what a valid
snapshot decodes to and by nothing else, and the synced root stays the root field of the state.
-/

namespace CytahSpeed
open ByteString

inductive SyncCall
  | request (sendError : Option String)
  | handle (snapshot : StateSnapshot)

namespace StateSyncManager

variable (codec : Bincode) (m : StateSyncManager)

def isSyncing : Bool := m.syncInProgress

def call : SyncCall → Except String Unit × StateSyncManager
  | .request sendError => m.requestStateSync sendError
  | .handle snapshot => m.handleStateSnapshot codec snapshot

def step (call : SyncCall) : StateSyncManager := (m.call codec call).2

def ongoing : String := "State sync already in progress"

/-- No sync is under way after an error of another kind or after a snapshot has been handled, and
an error changes neither the state nor the synced root. -/
structure Restores (call : SyncCall) : Prop where
  error : ∀ e, (m.call codec call).1 = .error e → e ≠ ongoing →
    (m.step codec call).isSyncing = false
  handled : ∀ snapshot, call = .handle snapshot → (m.call codec call).1 = .ok () →
    (m.step codec call).isSyncing = false
  unchanged : ∀ e, (m.call codec call).1 = .error e →
    (m.step codec call).state = m.state ∧ (m.step codec call).lastSyncedRoot = m.lastSyncedRoot

/-- A request is sent, or is refused; a snapshot is valid, or comes while no sync is under way. -/
def KeepsIdle : SyncCall → Prop
  | .request sendError => sendError = none ∨ m.syncInProgress = true
  | .handle snapshot => snapshot.validate codec = .ok () ∨ m.syncInProgress = false

variable {codec m}

theorem requestStateSync_of_syncing (h : m.syncInProgress = true) (sendError : Option String) :
    m.requestStateSync sendError = (.error ongoing, m) := if_pos h

theorem requestStateSync_of_idle (h : m.syncInProgress = false) (sendError : Option String) :
    m.requestStateSync sendError =
      ((sendError.elim (.ok ()) fun e => .error ("Failed to send state request: " ++ e)),
        { m with syncInProgress := true }) := by
  rw [requestStateSync, if_neg (by rw [h]; exact Bool.false_ne_true)]
  cases sendError <;> rfl

theorem handleStateSnapshot_of_error {snapshot : StateSnapshot} {e : String}
    (h : snapshot.validate codec = .error e) :
    m.handleStateSnapshot codec snapshot = (.error e, m) := by
  rw [handleStateSnapshot, h]

theorem handleStateSnapshot_of_ok {snapshot : StateSnapshot}
    (h : snapshot.validate codec = .ok ()) :
    (m.handleStateSnapshot codec snapshot).1 = .ok () ∧
      (m.handleStateSnapshot codec snapshot).2.syncInProgress = false := by
  obtain ⟨state, hstate, -⟩ := StateSnapshot.validate_eq_ok_iff.mp h
  have hrestore : snapshot.restoreToStateManager codec = .ok state :=
    StateSnapshot.restoreToStateManager_eq_ok_iff.mpr hstate
  rw [handleStateSnapshot, h]
  by_cases hroot : snapshot.stateRoot = m.state.getStateRoot
  · simp only [if_pos hroot, and_self]
  · simp only [if_neg hroot, hrestore, and_self]

theorem validate_cases (codec : Bincode) (snapshot : StateSnapshot) :
    snapshot.validate codec = .ok () ∨ ∃ e, snapshot.validate codec = .error e := by
  cases h : snapshot.validate codec with
  | ok u => exact Or.inl rfl
  | error e => exact Or.inr ⟨e, rfl⟩

theorem sendError_ne_ongoing (e : String) : "Failed to send state request: " ++ e ≠ ongoing := by
  intro h
  have := congrArg String.toList h
  simp [ongoing] at this

theorem validate_error_ne_ongoing {snapshot : StateSnapshot} {e : String}
    (h : snapshot.validate codec = .error e) : e ≠ ongoing := by
  unfold StateSnapshot.validate StateSnapshot.restoreToStateManager at h
  cases hd : codec.deserialize snapshot.stateData with
  | error d =>
    rw [hd] at h
    obtain rfl := Except.error.inj h
    intro heq
    have := congrArg String.toList heq
    simp [ongoing] at this
  | ok state =>
    simp only [hd] at h
    split_ifs at h
    obtain rfl := Except.error.inj h
    decide

theorem unchanged_of_request (sendError : Option String) :
    (m.step codec (.request sendError)).state = m.state ∧
      (m.step codec (.request sendError)).lastSyncedRoot = m.lastSyncedRoot := by
  cases hflag : m.syncInProgress with
  | true => simp only [step, StateSyncManager.call, requestStateSync_of_syncing hflag, and_self]
  | false => simp only [step, StateSyncManager.call, requestStateSync_of_idle hflag, and_self]

theorem unchanged_of_error {call : SyncCall} {e : String} (h : (m.call codec call).1 = .error e) :
    (m.step codec call).state = m.state ∧
      (m.step codec call).lastSyncedRoot = m.lastSyncedRoot := by
  cases call with
  | request sendError => exact unchanged_of_request sendError
  | handle snapshot =>
    rcases validate_cases codec snapshot with hok | ⟨e', he'⟩
    · exact absurd (h.symm.trans (handleStateSnapshot_of_ok hok).1) (by simp)
    · simp only [step, StateSyncManager.call, handleStateSnapshot_of_error he', and_self]

theorem restores_request_iff (sendError : Option String) :
    m.Restores codec (.request sendError) ↔ m.KeepsIdle codec (.request sendError) := by
  cases hflag : m.syncInProgress with
  | true =>
    refine iff_of_true ⟨?_, ?_, fun e h => unchanged_of_error h⟩ (Or.inr hflag)
    · intro e he hne
      rw [StateSyncManager.call, requestStateSync_of_syncing hflag] at he
      exact absurd (Except.error.inj he).symm hne
    · rintro snapshot ⟨⟩
  | false =>
    have hcall : m.call codec (.request sendError) = _ := requestStateSync_of_idle hflag sendError
    cases sendError with
    | none =>
      refine iff_of_true ⟨?_, ?_, fun e h => unchanged_of_error h⟩ (Or.inl rfl)
      · intro e he
        rw [hcall] at he
        cases he
      · rintro snapshot ⟨⟩
    | some e =>
      refine iff_of_false ?_ ?_
      · intro h
        have hdown := h.error _ (by rw [hcall]; rfl) (sendError_ne_ongoing e)
        rw [step, hcall] at hdown
        cases hdown
      · rintro (h | h)
        · cases h
        · exact absurd (hflag.symm.trans h) Bool.false_ne_true

theorem restores_handle_iff (snapshot : StateSnapshot) :
    m.Restores codec (.handle snapshot) ↔ m.KeepsIdle codec (.handle snapshot) := by
  rcases validate_cases codec snapshot with hok | ⟨e, he⟩
  · have hcall := handleStateSnapshot_of_ok (m := m) hok
    exact iff_of_true ⟨fun _ _ _ => hcall.2, fun _ _ _ => hcall.2,
      fun e h => unchanged_of_error h⟩ (Or.inl hok)
  · have hcall : m.call codec (.handle snapshot) = _ := handleStateSnapshot_of_error he
    cases hflag : m.syncInProgress with
    | true =>
      refine iff_of_false ?_ ?_
      · intro h
        have hdown := h.error e (by rw [hcall]) (validate_error_ne_ongoing he)
        rw [step, hcall] at hdown
        exact absurd (hflag.symm.trans hdown) (by decide)
      · rintro (h | h)
        · rw [he] at h
          cases h
        · exact absurd (hflag.symm.trans h) (by decide)
    | false =>
      refine iff_of_true ⟨?_, ?_, fun e h => unchanged_of_error h⟩ (Or.inr hflag)
      · intro _ _ _
        rw [step, hcall]
        exact hflag
      · intro _ _ _
        rw [step, hcall]
        exact hflag

theorem restores_iff (call : SyncCall) : m.Restores codec call ↔ m.KeepsIdle codec call := by
  cases call with
  | request sendError => exact restores_request_iff sendError
  | handle snapshot => exact restores_handle_iff snapshot

/-- While a sync is under way and no valid snapshot comes, every request is refused. -/
theorem refused_of_syncing (h : m.syncInProgress = true) (calls : List SyncCall)
    (hcalls : ∀ snapshot, .handle snapshot ∈ calls → snapshot.validate codec ≠ .ok ())
    (sendError : Option String) :
    ((calls.foldl (step codec) m).requestStateSync sendError).1 = .error ongoing := by
  induction calls generalizing m with
  | nil =>
    rw [List.foldl_nil, requestStateSync_of_syncing h]
  | cons call calls ih =>
    refine ih ?_ (fun snapshot hs => hcalls snapshot (List.mem_cons_of_mem _ hs))
    cases call with
    | request e =>
      rw [step, StateSyncManager.call, requestStateSync_of_syncing h]
      exact h
    | handle snapshot =>
      rcases validate_cases codec snapshot with hok | ⟨e, he⟩
      · exact absurd hok (hcalls snapshot List.mem_cons_self)
      · rw [step, StateSyncManager.call, handleStateSnapshot_of_error he]
        exact h

/-- Every call of a run restores the flag and leaves no trace of an error exactly when no send fails
outside an ongoing sync and no invalid snapshot comes during one. -/
theorem syncRun_restores_iff (codec : Bincode) (m : StateSyncManager) (calls : List SyncCall) :
    StepRun.Along (step codec) (Restores codec) m calls ↔
      StepRun.Along (step codec) (KeepsIdle codec) m calls :=
  StepRun.along_congr (fun _ call => restores_iff call) m calls

section Transfer
variable {s : StateManager} {snapshot : StateSnapshot}

structure Synced (codec : Bincode) (first : StateManager) (handled : List StateSnapshot)
    (m : StateSyncManager) : Prop where
  root : m.lastSyncedRoot = m.state.getStateRoot
  source : m.state = first ∨ ∃ snapshot ∈ handled, snapshot.validate codec = .ok () ∧
    snapshot.restoreToStateManager codec = .ok m.state

def snapshots : List SyncCall → List StateSnapshot
  | [] => []
  | .request _ :: calls => snapshots calls
  | .handle snapshot :: calls => snapshot :: snapshots calls

theorem Synced.step {first : StateManager} {handled : List StateSnapshot}
    (h : Synced codec first handled m) (call : SyncCall)
    (hcall : ∀ snapshot, call = .handle snapshot → snapshot ∈ handled) :
    Synced codec first handled (m.step codec call) := by
  cases call with
  | request sendError =>
    obtain ⟨hstate, hroot⟩ := @unchanged_of_request codec m sendError
    constructor
    · rw [hroot, hstate]
      exact h.root
    · rw [hstate]
      exact h.source
  | handle snapshot =>
    rcases validate_cases codec snapshot with hok | ⟨e, he⟩
    · obtain ⟨state, hstate, hroot⟩ := StateSnapshot.validate_eq_ok_iff.mp hok
      have hrestore := StateSnapshot.restoreToStateManager_eq_ok_iff.mpr hstate
      simp only [StateSyncManager.step, StateSyncManager.call, handleStateSnapshot, hok, hrestore]
      split_ifs
      · exact ⟨h.root, h.source⟩
      · exact ⟨hroot.symm, Or.inr ⟨snapshot, hcall snapshot rfl, hok, hrestore⟩⟩
    · simp only [StateSyncManager.step, StateSyncManager.call, handleStateSnapshot_of_error he]
      exact h

theorem Synced.run {first : StateManager} {handled : List StateSnapshot}
    (h : Synced codec first handled m) (calls : List SyncCall)
    (hcalls : ∀ snapshot ∈ snapshots calls, snapshot ∈ handled) :
    Synced codec first handled (calls.foldl (StateSyncManager.step codec) m) := by
  induction calls generalizing m with
  | nil => exact h
  | cons call calls ih =>
    cases call with
    | request sendError => exact ih (h.step _ (by rintro _ ⟨⟩)) hcalls
    | handle snapshot =>
      rw [snapshots, List.forall_mem_cons] at hcalls
      refine ih (h.step _ ?_) hcalls.2
      rintro _ ⟨⟩
      exact hcalls.1

theorem handleStateSnapshot_of_made {blockHeight : UInt64} {blockHash : BlockHash}
    (hround : ∀ data, codec.serialize s = .ok data → codec.deserialize data = .ok s)
    (hmade : StateSnapshot.fromStateManager codec s blockHeight blockHash = .ok snapshot)
    (m : StateSyncManager) : m.handleStateSnapshot codec snapshot =
      (.ok (), if s.getStateRoot = m.state.getStateRoot then { m with syncInProgress := false }
        else ⟨s, s.getStateRoot, false⟩) := by
  obtain ⟨hvalid, hrestore⟩ := StateSnapshot.validate_fromStateManager hround hmade
  have hroot : snapshot.stateRoot = s.getStateRoot := by
    unfold StateSnapshot.fromStateManager at hmade
    cases hdata : codec.serialize s with
    | error e =>
      rw [hdata] at hmade
      cases hmade
    | ok data =>
      rw [hdata] at hmade
      rw [← Except.ok.inj hmade]
  rw [handleStateSnapshot, hvalid, hroot]
  by_cases hsame : s.getStateRoot = m.state.getStateRoot
  · simp only [if_pos hsame]
  · simp only [if_neg hsame, hrestore]

/-- Through any run of requests and snapshots, made or forged, a manager keeps its first state or
has taken one over from a snapshot that validated, and its synced root is the root of its state;
then a snapshot that any node has made is handled without an error and brings that node's state. -/
theorem syncRun_transfers (codec : Bincode) (first s : StateManager) (calls : List SyncCall)
    (blockHeight : UInt64) (blockHash : BlockHash) (snapshot : StateSnapshot)
    (hround : ∀ data, codec.serialize s = .ok data → codec.deserialize data = .ok s)
    (hmade : StateSnapshot.fromStateManager codec s blockHeight blockHash = .ok snapshot) :
    let m := calls.foldl (step codec) (new first)
    m.Synced codec first (snapshots calls) ∧ m.handleStateSnapshot codec snapshot =
      (.ok (), if s.getStateRoot = m.state.getStateRoot then { m with syncInProgress := false }
        else ⟨s, s.getStateRoot, false⟩) := by
  intro m
  have hfirst : Synced codec first (snapshots calls) (new first) := ⟨rfl, Or.inl rfl⟩
  exact ⟨hfirst.run calls fun _ h => h, handleStateSnapshot_of_made hround hmade m⟩

end Transfer

section Sample

/-- The codec knows no encoding, so no snapshot validates. -/
def sampleState : StateManager := ⟨⟨none, ∅⟩, Bytes.zero 32⟩

def sampleInvalid : StateSnapshot := ⟨Bytes.fill 32 7, 5, Bytes.fill 32 9, [1, 2, 3]⟩

/-- A send that fails, and an invalid answer to a request that was sent: the flag stays up, and
later requests are refused for as long as no valid snapshot comes. -/
theorem syncRun_wedged :
    ¬ StepRun.Along (step (.knowing [])) (Restores (.knowing [])) (new sampleState)
        [.request (some "channel closed")] ∧
      ¬ StepRun.Along (step (.knowing [])) (Restores (.knowing [])) (new sampleState)
        [.request none, .handle sampleInvalid] ∧
      ∀ sends : List (Option String), ∀ sendError,
        (((sends.map SyncCall.request).foldl (step (.knowing []))
          ((new sampleState).step (.knowing [])
            (.request (some "channel closed")))).requestStateSync sendError).1 =
          .error ongoing := by
  refine ⟨?_, ?_, ?_⟩
  · intro h
    exact absurd ((restores_iff _).mp h.1) (by rintro (h | h) <;> cases h)
  · intro h
    rcases (restores_iff _).mp h.2.1 with hvalid | hidle
    · cases hvalid
    · cases hidle
  · intro sends sendError
    refine refused_of_syncing rfl _ ?_ sendError
    intro snapshot hmem
    obtain ⟨e, -, he⟩ := List.mem_map.mp hmem
    cases he

def sampleBincode : Bincode where
  serialize _ := .ok (StateSnapshot.sampleData 1)
  deserialize data :=
    if data = StateSnapshot.sampleData 1 then .ok (StateSnapshot.sampleManager 1)
    else .error "unexpected end of file"

def sampleMade : StateSnapshot :=
  ⟨(StateSnapshot.sampleManager 1).getStateRoot, 100, Bytes.zero 32, StateSnapshot.sampleData 1⟩

theorem deserialize_sampleBincode (data : List UInt8)
    (h : sampleBincode.serialize (StateSnapshot.sampleManager 1) = .ok data) :
    sampleBincode.deserialize data = .ok (StateSnapshot.sampleManager 1) := by
  obtain rfl := Except.ok.inj h
  simp only [sampleBincode, if_true]

/-- After a request and an invalid answer, the snapshot of another node is taken over. -/
theorem syncRun_transfers_sample :
    (([SyncCall.request none, .handle sampleInvalid].foldl (step sampleBincode)
      (new sampleState)).handleStateSnapshot sampleBincode sampleMade) =
        (.ok (), ⟨StateSnapshot.sampleManager 1, sampleMade.stateRoot, false⟩) := by
  obtain ⟨-, htaken⟩ := syncRun_transfers sampleBincode sampleState
    (StateSnapshot.sampleManager 1) [.request none, .handle sampleInvalid] 100 (Bytes.zero 32)
    sampleMade deserialize_sampleBincode rfl
  rw [htaken, if_neg]
  · rfl
  · decide +kernel

end Sample

end StateSyncManager

end CytahSpeed
