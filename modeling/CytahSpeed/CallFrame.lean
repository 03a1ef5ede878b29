import CytahSpeed.DosProtection

/-!
# What a call writes

Every call but the clean-up writes the record of one address, or nothing. It starts from the record
that it finds: only a request writes the request log, and only recorded traffic the counters.
-/

namespace CytahSpeed.DosProtection
open FiniteMap

def Call.address : Call → Option IpAddr
  | .checkConnectionAllowed ip => some ip
  | .checkRequestAllowed ip => some ip
  | .recordBandwidth ip _ _ => some ip
  | .removeConnection ip => some ip
  | .unbanIp ip => some ip
  | .cleanup _ => none

theorem Call.exists_address {call : Call} (h : ∀ order, call ≠ .cleanup order) :
    ∃ ip, call.address = some ip := by
  cases call with
  | cleanup order => exact absurd rfl (h order)
  | _ => exact ⟨_, rfl⟩

/-- What a call keeps of the record it finds: only a request writes the log, and only recorded
traffic the counters. -/
structure Call.Keeps (call : Call) (ip : IpAddr) (s s' : PeerState) : Prop where
  log : call ≠ .checkRequestAllowed ip → s'.requestTimes = s.requestTimes
  traffic : (∀ sent received, call ≠ .recordBandwidth ip sent received) →
    s'.bytesSent = s.bytesSent ∧ s'.bytesReceived = s.bytesReceived

/-- A call is put down in the record of its address, or does nothing. -/
def Call.WritesOne (call : Call) (d d' : DosProtection) (now : ℕ) (ip : IpAddr) : Prop :=
  d' = d ∨ ∃ s' stats, d' = d.put ip s' stats ∧ call.Keeps ip (d.entry ip now) s'

variable {d : DosProtection} {now late : ℕ} {ip : IpAddr}

theorem Call.Keeps.of_eq {call : Call} {s s' : PeerState}
    (hlog : s'.requestTimes = s.requestTimes) (hsent : s'.bytesSent = s.bytesSent)
    (hreceived : s'.bytesReceived = s.bytesReceived) : call.Keeps ip s s' :=
  ⟨fun _ => hlog, fun _ => ⟨hsent, hreceived⟩⟩

theorem Call.WritesOne.put {call : Call} {s' : PeerState} (h : call.Keeps ip (d.entry ip now) s')
    (stats : DosStats) : call.WritesOne d (d.put ip s' stats) now ip :=
  Or.inr ⟨s', stats, rfl, h⟩

theorem Call.WritesOne.handleViolation {call : Call} {s' : PeerState}
    (h : call.Keeps ip (d.entry ip now) s') :
    call.WritesOne d (d.handleViolation late ip s') now ip := by
  obtain ⟨bannedUntil, stats, heq⟩ := handleViolation_eq d late ip s'
  exact Or.inr ⟨_, stats, heq, ⟨h.log, h.traffic⟩⟩

theorem writesOne_checkConnections {call : Call} {s : PeerState}
    (h : call.Keeps ip (d.entry ip now) s) :
    call.WritesOne d (d.checkConnections now late ip s).2 now ip := by
  unfold checkConnections
  split_ifs
  · exact Call.WritesOne.handleViolation h
  · apply Call.WritesOne.put
    exact ⟨h.log, h.traffic⟩

theorem writesOne_checkConnectionAllowed (ip : IpAddr) :
    (Call.checkConnectionAllowed ip).WritesOne d
      (d.checkConnectionAllowed now late ip).2 now ip := by
  cases hban : (d.entry ip now).bannedUntil with
  | none =>
    simp only [checkConnectionAllowed, hban]
    exact writesOne_checkConnections (Call.Keeps.of_eq rfl rfl rfl)
  | some banUntil =>
    simp only [checkConnectionAllowed, hban]
    split_ifs
    · exact Call.WritesOne.put (Call.Keeps.of_eq rfl rfl rfl) _
    · exact writesOne_checkConnections (Call.Keeps.of_eq rfl rfl rfl)

theorem writesOne_checkRate {s : PeerState}
    (h : (Call.checkRequestAllowed ip).Keeps ip (d.entry ip now) s) :
    (Call.checkRequestAllowed ip).WritesOne d (d.checkRate now late ip s).2 now ip := by
  simp only [checkRate]
  split_ifs
  · apply Call.WritesOne.handleViolation
    exact ⟨fun hne => absurd rfl hne, h.traffic⟩
  · apply Call.WritesOne.put
    exact ⟨fun hne => absurd rfl hne, h.traffic⟩

theorem writesOne_checkRequestAllowed (ip : IpAddr) :
    (Call.checkRequestAllowed ip).WritesOne d (d.checkRequestAllowed now late ip).2 now ip := by
  cases hban : (d.entry ip now).bannedUntil with
  | none =>
    simp only [checkRequestAllowed, hban]
    exact writesOne_checkRate (Call.Keeps.of_eq rfl rfl rfl)
  | some banUntil =>
    simp only [checkRequestAllowed, hban]
    split_ifs
    · exact Call.WritesOne.put (Call.Keeps.of_eq rfl rfl rfl) _
    · exact writesOne_checkRate (Call.Keeps.of_eq rfl rfl rfl)

theorem writesOne_recordBandwidth (ip : IpAddr) (sent received : UInt64) :
    (Call.recordBandwidth ip sent received).WritesOne d
      (d.recordBandwidth now late ip sent received) now ip := by
  simp only [recordBandwidth]
  split_ifs
  · apply Call.WritesOne.handleViolation
    exact ⟨fun _ => rfl, fun hne => absurd rfl (hne sent received)⟩
  · apply Call.WritesOne.put
    exact ⟨fun _ => rfl, fun hne => absurd rfl (hne sent received)⟩

theorem entry_of_lookup {s : PeerState} (h : d.peerStates.lookup ip = some s) :
    d.entry ip now = s := by
  rw [entry, h, Option.getD_some]

theorem writesOne_removeConnection (ip : IpAddr) :
    (Call.removeConnection ip).WritesOne d (d.removeConnection ip) now ip := by
  unfold removeConnection
  cases h : d.peerStates.lookup ip with
  | none => exact Or.inl rfl
  | some s =>
    dsimp only
    split_ifs
    · refine Call.WritesOne.put ?_ _
      rw [entry_of_lookup h]
      exact Call.Keeps.of_eq rfl rfl rfl
    · exact Or.inl rfl

theorem writesOne_unbanIp (ip : IpAddr) :
    (Call.unbanIp ip).WritesOne d (d.unbanIp ip) now ip := by
  unfold unbanIp
  cases h : d.peerStates.lookup ip with
  | none => exact Or.inl rfl
  | some s =>
    refine Call.WritesOne.put ?_ _
    rw [entry_of_lookup h]
    exact Call.Keeps.of_eq rfl rfl rfl

theorem writesOne_exec {call : Call} (h : call.address = some ip) :
    call.WritesOne d (d.exec now late call) now ip := by
  cases call with
  | cleanup order => cases h
  | checkConnectionAllowed ip' =>
    cases h
    exact writesOne_checkConnectionAllowed ip
  | checkRequestAllowed ip' =>
    cases h
    exact writesOne_checkRequestAllowed ip
  | recordBandwidth ip' sent received =>
    cases h
    exact writesOne_recordBandwidth ip sent received
  | removeConnection ip' =>
    cases h
    exact writesOne_removeConnection ip
  | unbanIp ip' =>
    cases h
    exact writesOne_unbanIp ip

theorem config_run (s : Timed) (es : List Event) :
    (es.foldl DosProtection.step s).2.config = s.2.config := by
  induction es generalizing s with
  | nil => rfl
  | cons e es ih =>
    rw [List.foldl_cons, ih]
    exact config_exec _

end CytahSpeed.DosProtection
