import CytahSpeed.ByteString
import CytahSpeed.FiniteMap
import CytahSpeed.StepRun

/-!
# Protection against denial of service

One record an address holds its connections, its recent requests, its traffic, its violations and
its ban. A clean-up task drops the records that were idle for two intervals and, when too many
addresses are tracked, the idlest ones. A ban does not count as activity and is dropped with its
record: along a run bans last exactly when no clean-up reaches a record whose ban runs.
-/

namespace CytahSpeed
open ByteString FiniteMap StepRun

inductive IpAddr
  | v4 (octets : Bytes 4)
  | v6 (octets : Bytes 16)
  deriving DecidableEq

namespace IpAddr

/-- The octets behind the number of their family. -/
def key : IpAddr → List UInt8
  | v4 octets => 4 :: octets.toList
  | v6 octets => 6 :: octets.toList

theorem key_injective : Function.Injective key := by
  intro a b h
  cases a <;> cases b <;> simp only [key, List.cons.injEq] at h
  · rw [List.Vector.toList_injective h.2]
  · exact absurd h.1 (by decide)
  · exact absurd h.1 (by decide)
  · rw [List.Vector.toList_injective h.2]

instance : LinearOrder IpAddr :=
  { @PartialOrder.lift IpAddr (List UInt8) lexOrder.toPartialOrder key key_injective with
    le_total := fun a b => lexOrder.le_total a.key b.key
    toDecidableLE := fun a b => lexOrder.toDecidableLE a.key b.key
    toDecidableLT := fun a b => lexOrder.toDecidableLT a.key b.key
    toDecidableEq := inferInstanceAs (DecidableEq IpAddr) }

end IpAddr

/-- Nanoseconds in a second; an `Instant` is a number of nanoseconds on a clock that never goes
back. -/
def nanos : ℕ := 1000000000

structure DosProtectionConfig where
  maxConnectionsPerIp : UInt32
  maxRequestsPerSecond : UInt32
  maxBandwidthPerSecond : UInt64
  banDurationSeconds : UInt64
  cleanupIntervalSeconds : UInt64
  maxTrackedIps : ℕ
  deriving DecidableEq

namespace DosProtectionConfig

def default : DosProtectionConfig where
  maxConnectionsPerIp := 10
  maxRequestsPerSecond := 100
  maxBandwidthPerSecond := 10 * 1024 * 1024
  banDurationSeconds := 3600
  cleanupIntervalSeconds := 300
  maxTrackedIps := 10000

variable (config : DosProtectionConfig)

def banDuration : ℕ := config.banDurationSeconds.toNat * nanos

/-- The age over which the clean-up drops a record; the product wraps around. -/
def maxAge : ℕ := (config.cleanupIntervalSeconds * 2).toNat * nanos

end DosProtectionConfig

structure PeerState where
  connections : UInt32
  requestTimes : List ℕ
  bytesSent : UInt64
  bytesReceived : UInt64
  lastActivity : ℕ
  bannedUntil : Option ℕ
  violations : UInt32
  deriving DecidableEq

def PeerState.fresh (now : ℕ) : PeerState := ⟨0, [], 0, 0, now, none, 0⟩

structure DosStats where
  trackedIps : ℕ
  totalViolations : UInt64
  bansIssued : UInt64
  blockedConnections : UInt64
  blockedRequests : UInt64
  deriving DecidableEq

inductive DosError
  | banned (remainingSeconds : ℕ)
  | connectionLimitExceeded
  | rateLimitExceeded
  deriving DecidableEq

structure DosProtection where
  config : DosProtectionConfig
  peerStates : Map IpAddr PeerState
  stats : DosStats

namespace DosProtection

def new (config : DosProtectionConfig) : DosProtection := ⟨config, ∅, ⟨0, 0, 0, 0, 0⟩⟩

variable (d : DosProtection)

/-- `entry(ip).or_insert_with(..)`. -/
def entry (ip : IpAddr) (now : ℕ) : PeerState :=
  (d.peerStates.lookup ip).getD (PeerState.fresh now)

def put (ip : IpAddr) (state : PeerState) (stats : DosStats) : DosProtection :=
  { d with peerStates := d.peerStates.insert ip state, stats }

/-- The third violation bans the address; the clock is read again for it. -/
def handleViolation (late : ℕ) (ip : IpAddr) (state : PeerState) : DosProtection :=
  let state := { state with violations := state.violations + 1 }
  let stats := { d.stats with totalViolations := d.stats.totalViolations + 1 }
  if 3 ≤ state.violations then
    d.put ip { state with bannedUntil := some (late + d.config.banDuration) }
      { stats with bansIssued := stats.bansIssued + 1 }
  else d.put ip state stats

/-- The connection limit, for an address without a ban. -/
def checkConnections (now late : ℕ) (ip : IpAddr) (state : PeerState) :
    Except DosError Unit × DosProtection :=
  if d.config.maxConnectionsPerIp ≤ state.connections then
    (.error .connectionLimitExceeded, d.handleViolation late ip state)
  else (.ok (), d.put ip
    { state with connections := state.connections + 1, lastActivity := now } d.stats)

def checkConnectionAllowed (now late : ℕ) (ip : IpAddr) :
    Except DosError Unit × DosProtection :=
  let state := d.entry ip now
  match state.bannedUntil with
  | some banUntil =>
    if now < banUntil then
      (.error (.banned ((banUntil - now) / nanos)), d.put ip state
        { d.stats with blockedConnections := d.stats.blockedConnections + 1 })
    else d.checkConnections now late ip { state with bannedUntil := none, violations := 0 }
  | none => d.checkConnections now late ip state

/-- The request rate, for an address whose ban does not run. -/
def checkRate (now late : ℕ) (ip : IpAddr) (state : PeerState) :
    Except DosError Unit × DosProtection :=
  let state := { state with
    requestTimes := state.requestTimes.filter fun time => now - time < nanos }
  if d.config.maxRequestsPerSecond.toNat ≤ state.requestTimes.length then
    (.error .rateLimitExceeded, d.handleViolation late ip state)
  else (.ok (), d.put ip
    { state with requestTimes := state.requestTimes ++ [now], lastActivity := now } d.stats)

/-- A ban that is over stays in the record. -/
def checkRequestAllowed (now late : ℕ) (ip : IpAddr) : Except DosError Unit × DosProtection :=
  let state := d.entry ip now
  match state.bannedUntil with
  | some banUntil =>
    if now < banUntil then
      (.error (.banned ((banUntil - now) / nanos)), d.put ip state
        { d.stats with blockedRequests := d.stats.blockedRequests + 1 })
    else d.checkRate now late ip state
  | none => d.checkRate now late ip state

/-- The counters wrap around. -/
def recordBandwidth (now late : ℕ) (ip : IpAddr) (bytesSent bytesReceived : UInt64) :
    DosProtection :=
  let state := d.entry ip now
  let state := { state with
    bytesSent := state.bytesSent + bytesSent
    bytesReceived := state.bytesReceived + bytesReceived
    lastActivity := now }
  if d.config.maxBandwidthPerSecond < state.bytesSent + state.bytesReceived then
    d.handleViolation late ip state
  else d.put ip state d.stats

def removeConnection (ip : IpAddr) : DosProtection :=
  match d.peerStates.lookup ip with
  | some state =>
    if 0 < state.connections then
      d.put ip { state with connections := state.connections - 1 } d.stats
    else d
  | none => d

def unbanIp (ip : IpAddr) : DosProtection :=
  match d.peerStates.lookup ip with
  | some state => d.put ip { state with bannedUntil := none, violations := 0 } d.stats
  | none => d

def isBanned (now : ℕ) (ip : IpAddr) : Bool :=
  match d.peerStates.lookup ip with
  | some state =>
    match state.bannedUntil with
    | some banUntil => now < banUntil
    | none => false
  | none => false

def refresh (config : DosProtectionConfig) (now : ℕ) (state : PeerState) : Option PeerState :=
  let age := now - state.lastActivity
  if config.maxAge < age then none
  else if nanos < age then some { state with bytesSent := 0, bytesReceived := 0 }
  else some state

def retained (now : ℕ) (order : IterOrder IpAddr PeerState) : Map IpAddr PeerState :=
  retain (fun _ state => refresh d.config now state) order d.peerStates

/-- The addresses over the limit, idlest first; the sort is stable. -/
def overflow (now : ℕ) (order : IterOrder IpAddr PeerState) : List IpAddr :=
  let states := d.retained now order
  let entries := (order.iter states).map fun e => (e.1, e.2.lastActivity)
  ((entries.insertionSort fun a b => a.2 ≤ b.2).take
    (states.keys.card - d.config.maxTrackedIps)).map Prod.fst

/-- A tick of the clean-up task. With an interval of zero the task panics before its first tick. -/
def cleanup (now : ℕ) (order : IterOrder IpAddr PeerState) : DosProtection :=
  if d.config.cleanupIntervalSeconds = 0 then d
  else
    let states := (d.overflow now order).foldl (fun states ip => states.erase ip)
      (d.retained now order)
    { d with peerStates := states, stats := { d.stats with trackedIps := states.keys.card } }

inductive Call
  | checkConnectionAllowed (ip : IpAddr)
  | checkRequestAllowed (ip : IpAddr)
  | recordBandwidth (ip : IpAddr) (bytesSent bytesReceived : UInt64)
  | removeConnection (ip : IpAddr)
  | unbanIp (ip : IpAddr)
  | cleanup (order : IterOrder IpAddr PeerState)

def exec (now late : ℕ) : Call → DosProtection
  | .checkConnectionAllowed ip => (d.checkConnectionAllowed now late ip).2
  | .checkRequestAllowed ip => (d.checkRequestAllowed now late ip).2
  | .recordBandwidth ip sent received => d.recordBandwidth now late ip sent received
  | .removeConnection ip => d.removeConnection ip
  | .unbanIp ip => d.unbanIp ip
  | .cleanup order => d.cleanup now order

def bannedUntil (ip : IpAddr) : Option ℕ := (d.peerStates.lookup ip).bind (·.bannedUntil)

/-- The clean-up at this moment removes the record: it is too old, or over the limit. -/
def Drops (now : ℕ) (order : IterOrder IpAddr PeerState) (ip : IpAddr) : Prop :=
  d.config.cleanupIntervalSeconds ≠ 0 ∧
    ((∃ state, d.peerStates.lookup ip = some state ∧
        d.config.maxAge < now - state.lastActivity) ∨ ip ∈ d.overflow now order)

variable {d} {now late : ℕ} {ip : IpAddr}

@[simp] theorem bannedUntil_put (ip' : IpAddr) (state : PeerState) (stats : DosStats) :
    (d.put ip' state stats).bannedUntil ip =
      if ip = ip' then state.bannedUntil else d.bannedUntil ip := by
  unfold bannedUntil put
  rw [lookup_insert_eq_ite]
  split_ifs <;> rfl

@[simp] theorem bannedUntil_entry : (d.entry ip now).bannedUntil = d.bannedUntil ip := by
  unfold entry bannedUntil
  cases d.peerStates.lookup ip <;> rfl

theorem handleViolation_eq (d : DosProtection) (late : ℕ) (ip : IpAddr) (state : PeerState) :
    ∃ bannedUntil stats, d.handleViolation late ip state =
      d.put ip { state with violations := state.violations + 1, bannedUntil } stats := by
  by_cases hban : 3 ≤ state.violations + 1
  · exact ⟨_, _, by simp only [handleViolation, if_pos hban]; rfl⟩
  · exact ⟨_, _, by simp only [handleViolation, if_neg hban]; rfl⟩

theorem bannedUntil_handleViolation (ip' : IpAddr) (state : PeerState) :
    (d.handleViolation late ip' state).bannedUntil ip =
      if ip = ip' then
        if 3 ≤ state.violations + 1 then some (late + d.config.banDuration)
        else state.bannedUntil
      else d.bannedUntil ip := by
  by_cases hban : 3 ≤ state.violations + 1
  · simp only [handleViolation, if_pos hban, bannedUntil_put]
  · simp only [handleViolation, if_neg hban, bannedUntil_put]

theorem lookup_cleanup (order : IterOrder IpAddr PeerState)
    (h : d.config.cleanupIntervalSeconds ≠ 0) :
    (d.cleanup now order).peerStates.lookup ip = if ip ∈ d.overflow now order then none
      else (d.peerStates.lookup ip).bind (refresh d.config now) := by
  simp only [cleanup, if_neg h]
  have herase := lookup_foldl_erase id (d.overflow now order) (d.retained now order) ip
  rw [List.map_id] at herase
  rw [retained, lookup_retain] at herase
  exact herase

theorem bannedUntil_refresh {config : DosProtectionConfig} {state : PeerState}
    (h : ¬ config.maxAge < now - state.lastActivity) :
    ∃ state', refresh config now state = some state' ∧
      state'.bannedUntil = state.bannedUntil := by
  simp only [refresh, if_neg h]
  split_ifs
  · exact ⟨_, rfl, rfl⟩
  · exact ⟨_, rfl, rfl⟩

theorem bannedUntil_cleanup (order : IterOrder IpAddr PeerState) :
    d.Drops now order ip ∧ (d.cleanup now order).bannedUntil ip = none ∨
      (d.cleanup now order).bannedUntil ip = d.bannedUntil ip := by
  by_cases hzero : d.config.cleanupIntervalSeconds = 0
  · right
    simp only [cleanup, if_pos hzero]
  · unfold bannedUntil
    rw [lookup_cleanup order hzero]
    by_cases hover : ip ∈ d.overflow now order
    · exact Or.inl ⟨⟨hzero, Or.inr hover⟩, by rw [if_pos hover]; rfl⟩
    · rw [if_neg hover]
      cases hstate : d.peerStates.lookup ip with
      | none => exact Or.inr rfl
      | some state =>
        rw [Option.bind_some]
        by_cases hage : d.config.maxAge < now - state.lastActivity
        · refine Or.inl ⟨⟨hzero, Or.inl ⟨state, hstate, hage⟩⟩, ?_⟩
          simp [refresh, hage]
        · obtain ⟨state', hrefresh, hsame⟩ := bannedUntil_refresh hage
          rw [hrefresh]
          exact Or.inr hsame

theorem bannedUntil_checkConnections (ip' : IpAddr) (state : PeerState) :
    let d' := (d.checkConnections now late ip' state).2
    d'.bannedUntil ip = (if ip = ip' then state.bannedUntil else d.bannedUntil ip) ∨
      d'.bannedUntil ip = some (late + d.config.banDuration) := by
  unfold checkConnections
  split_ifs with hlimit
  all_goals simp only [bannedUntil_handleViolation, bannedUntil_put]
  all_goals split_ifs <;> simp

theorem bannedUntil_checkRate (ip' : IpAddr) (state : PeerState) :
    let d' := (d.checkRate now late ip' state).2
    d'.bannedUntil ip = (if ip = ip' then state.bannedUntil else d.bannedUntil ip) ∨
      d'.bannedUntil ip = some (late + d.config.banDuration) := by
  unfold checkRate
  simp only
  split_ifs with hlimit
  all_goals simp only [bannedUntil_handleViolation, bannedUntil_put]
  all_goals split_ifs <;> simp

theorem bannedUntil_checkConnectionAllowed (ip' : IpAddr) :
    let d' := (d.checkConnectionAllowed now late ip').2
    d'.bannedUntil ip = d.bannedUntil ip ∨
      d'.bannedUntil ip = some (late + d.config.banDuration) ∨
      d'.bannedUntil ip = none ∧ ∀ u, d.bannedUntil ip = some u → u ≤ now := by
  have hentry : (d.entry ip' now).bannedUntil = d.bannedUntil ip' := bannedUntil_entry
  unfold checkConnectionAllowed
  cases hban : d.bannedUntil ip' with
  | none =>
    simp only [hentry, hban]
    rcases bannedUntil_checkConnections (d := d) ip' (d.entry ip' now) with h | h
    · refine Or.inl (h.trans ?_)
      split_ifs with hip
      · rw [hip, hentry]
      · rfl
    · exact Or.inr (Or.inl h)
  | some banUntil =>
    simp only [hentry, hban]
    by_cases hrun : now < banUntil
    · left
      rw [if_pos hrun, bannedUntil_put]
      split_ifs with hip
      · rw [hip, hentry]
      · rfl
    · rw [if_neg hrun]
      rcases bannedUntil_checkConnections (d := d) ip' { d.entry ip' now with
        bannedUntil := none, violations := 0 } with h | h
      · by_cases hip : ip = ip'
        · rw [if_pos hip] at h
          refine Or.inr (Or.inr ⟨h, ?_⟩)
          intro u hu
          rw [hip, hban] at hu
          rw [← Option.some.inj hu]
          exact not_lt.mp hrun
        · rw [if_neg hip] at h
          exact Or.inl h
      · exact Or.inr (Or.inl h)

theorem bannedUntil_checkRequestAllowed (ip' : IpAddr) :
    let d' := (d.checkRequestAllowed now late ip').2
    d'.bannedUntil ip = d.bannedUntil ip ∨
      d'.bannedUntil ip = some (late + d.config.banDuration) := by
  have hentry : (d.entry ip' now).bannedUntil = d.bannedUntil ip' := bannedUntil_entry
  have hrate : (d.checkRate now late ip' (d.entry ip' now)).2.bannedUntil ip =
        d.bannedUntil ip ∨
      (d.checkRate now late ip' (d.entry ip' now)).2.bannedUntil ip =
        some (late + d.config.banDuration) := by
    rcases bannedUntil_checkRate (d := d) ip' (d.entry ip' now) with h | h
    · refine Or.inl (h.trans ?_)
      split_ifs with hip
      · rw [hip, hentry]
      · rfl
    · exact Or.inr h
  unfold checkRequestAllowed
  cases hban : d.bannedUntil ip' with
  | none => simpa only [hentry, hban] using hrate
  | some banUntil =>
    simp only [hentry, hban]
    by_cases hrun : now < banUntil
    · left
      rw [if_pos hrun, bannedUntil_put]
      split_ifs with hip
      · rw [hip, hentry]
      · rfl
    · rw [if_neg hrun]
      exact hrate

theorem bannedUntil_recordBandwidth (ip' : IpAddr) (sent received : UInt64) :
    (d.recordBandwidth now late ip' sent received).bannedUntil ip = d.bannedUntil ip ∨
      (d.recordBandwidth now late ip' sent received).bannedUntil ip =
        some (late + d.config.banDuration) := by
  have hentry : (d.entry ip' now).bannedUntil = d.bannedUntil ip' := bannedUntil_entry
  simp only [recordBandwidth]
  by_cases hip : ip = ip'
  · subst hip
    split_ifs
    · rw [bannedUntil_handleViolation, if_pos rfl]
      split_ifs
      · exact Or.inr rfl
      · exact Or.inl hentry
    · rw [bannedUntil_put, if_pos rfl]
      exact Or.inl hentry
  · left
    split_ifs
    · rw [bannedUntil_handleViolation, if_neg hip]
    · rw [bannedUntil_put, if_neg hip]

theorem bannedUntil_removeConnection (ip' : IpAddr) :
    (d.removeConnection ip').bannedUntil ip = d.bannedUntil ip := by
  unfold removeConnection
  cases hstate : d.peerStates.lookup ip' with
  | none => rfl
  | some state =>
    simp only
    split_ifs with hopen
    · rw [bannedUntil_put]
      split_ifs with hip
      · rw [hip, bannedUntil, hstate, Option.bind_some]
      · rfl
    · rfl

theorem bannedUntil_unbanIp (ip' : IpAddr) :
    (d.unbanIp ip').bannedUntil ip = if ip = ip' then none else d.bannedUntil ip := by
  unfold unbanIp
  cases hstate : d.peerStates.lookup ip' with
  | none =>
    simp only
    split_ifs with hip
    · rw [hip, bannedUntil, hstate, Option.bind_none]
    · rfl
  | some state => simp only [bannedUntil_put]

/-- What a call can do to the ban of an address: nothing, a new ban from the violation on, or the
end of the ban, which is over, is lifted, or is dropped with its record. -/
theorem bannedUntil_exec (call : Call) :
    (d.exec now late call).bannedUntil ip = d.bannedUntil ip ∨
      (d.exec now late call).bannedUntil ip = some (late + d.config.banDuration) ∨
      (d.exec now late call).bannedUntil ip = none ∧
        ∀ u, d.bannedUntil ip = some u → u ≤ now ∨ call = .unbanIp ip ∨
          ∃ order, call = .cleanup order ∧ d.Drops now order ip := by
  cases call with
  | checkConnectionAllowed ip' =>
    rcases bannedUntil_checkConnectionAllowed (d := d) ip' with h | h | ⟨h, hover⟩
    · exact Or.inl h
    · exact Or.inr (Or.inl h)
    · exact Or.inr (Or.inr ⟨h, fun u hu => Or.inl (hover u hu)⟩)
  | checkRequestAllowed ip' =>
    rcases bannedUntil_checkRequestAllowed (d := d) ip' with h | h
    · exact Or.inl h
    · exact Or.inr (Or.inl h)
  | recordBandwidth ip' sent received =>
    rcases bannedUntil_recordBandwidth (d := d) ip' sent received with h | h
    · exact Or.inl h
    · exact Or.inr (Or.inl h)
  | removeConnection ip' => exact Or.inl (bannedUntil_removeConnection ip')
  | unbanIp ip' =>
    have h := @bannedUntil_unbanIp d ip ip'
    by_cases hip : ip = ip'
    · rw [if_pos hip] at h
      exact Or.inr (Or.inr ⟨h, fun u _ => Or.inr (Or.inl (by rw [hip]))⟩)
    · rw [if_neg hip] at h
      exact Or.inl h
  | cleanup order =>
    rcases @bannedUntil_cleanup d now ip order with ⟨hdrop, h⟩ | h
    · exact Or.inr (Or.inr ⟨h, fun u _ => Or.inr (Or.inr ⟨order, rfl, hdrop⟩)⟩)
    · exact Or.inl h

theorem config_exec (call : Call) : (d.exec now late call).config = d.config := by
  have hviolation : ∀ d : DosProtection, ∀ ip state,
      (d.handleViolation late ip state).config = d.config := by
    intro d ip state
    by_cases hban : 3 ≤ state.violations + 1
    · simp only [handleViolation, if_pos hban, put]
    · simp only [handleViolation, if_neg hban, put]
  cases call with
  | checkConnectionAllowed ip =>
    simp only [exec, checkConnectionAllowed, checkConnections]
    split <;> split_ifs <;> first | rfl | exact hviolation _ _ _
  | checkRequestAllowed ip =>
    simp only [exec, checkRequestAllowed, checkRate]
    split <;> split_ifs <;> first | rfl | exact hviolation _ _ _
  | recordBandwidth ip sent received =>
    simp only [exec, recordBandwidth]
    split_ifs
    · exact hviolation _ _ _
    · rfl
  | removeConnection ip =>
    simp only [exec, removeConnection]
    split
    · split_ifs <;> rfl
    · rfl
  | unbanIp ip =>
    simp only [exec, unbanIp]
    split <;> rfl
  | cleanup order =>
    simp only [exec, cleanup]
    split_ifs <;> rfl

theorem refused_of_bannedUntil {u : ℕ} (h : d.bannedUntil ip = some u) (hrun : now < u) :
    d.isBanned now ip = true ∧
      (∃ r, (d.checkConnectionAllowed now late ip).1 = .error (.banned r)) ∧
      ∃ r, (d.checkRequestAllowed now late ip).1 = .error (.banned r) := by
  have hentry : (d.entry ip now).bannedUntil = some u := bannedUntil_entry.trans h
  obtain ⟨state, hstate, hban⟩ := Option.bind_eq_some_iff.mp h
  refine ⟨?_, ⟨(u - now) / nanos, ?_⟩, ⟨(u - now) / nanos, ?_⟩⟩
  · simp [isBanned, hstate, hban, hrun]
  · simp only [checkConnectionAllowed, hentry, if_pos hrun]
  · simp only [checkRequestAllowed, hentry, if_pos hrun]

theorem isBanned_eq_true_iff :
    d.isBanned now ip = true ↔ ∃ u, d.bannedUntil ip = some u ∧ now < u := by
  unfold isBanned bannedUntil
  cases d.peerStates.lookup ip with
  | none => simp
  | some state => cases hban : state.bannedUntil <;> simp [hban]

/-- A call that begins `delay` nanoseconds after the end of the one before it and lasts `lag`
nanoseconds; a violation reads the clock at its end. -/
structure Event where
  delay : ℕ
  lag : ℕ
  call : Call

/-- The clock when the last call ended, and the records. -/
abbrev Timed := ℕ × DosProtection

def step (s : Timed) (e : Event) : Timed :=
  (s.1 + e.delay + e.lag, s.2.exec (s.1 + e.delay) (s.1 + e.delay + e.lag) e.call)

/-- Until the next call the address is refused at every moment before `u`. -/
def Refuses (s : Timed) (ip : IpAddr) (u : ℕ) : Prop :=
  ∀ now late, s.1 ≤ now → now < u → s.2.isBanned now ip = true ∧
    (∃ r, (s.2.checkConnectionAllowed now late ip).1 = .error (.banned r)) ∧
    ∃ r, (s.2.checkRequestAllowed now late ip).1 = .error (.banned r)

/-- Every ban of the run lasts for its full term, unless it is lifted by hand. -/
def FullTerm (s : Timed) (es : List Event) : Prop :=
  ∀ pre mid post, es = pre ++ mid ++ post → ∀ ip u,
    (pre.foldl step s).2.bannedUntil ip = some u → (∀ e ∈ mid, e.call ≠ .unbanIp ip) →
      Refuses ((pre ++ mid).foldl step s) ip u

/-- The event is no clean-up that drops a record whose ban runs. -/
def KeepsBans (s : Timed) (e : Event) : Prop :=
  ∀ order, e.call = .cleanup order → ∀ ip u, s.2.bannedUntil ip = some u →
    s.1 + e.delay + e.lag < u → ¬ s.2.Drops (s.1 + e.delay) order ip

/-- No record holds a ban that ends later than a ban issued now would. -/
def Timed.Bounded (s : Timed) : Prop :=
  ∀ ip u, s.2.bannedUntil ip = some u → u ≤ s.1 + s.2.config.banDuration

theorem Timed.Bounded.step {s : Timed} (h : s.Bounded) (e : Event) :
    (DosProtection.step s e).Bounded := by
  intro ip u hu
  have hconfig : (DosProtection.step s e).2.config = s.2.config := config_exec _
  have hclock : (DosProtection.step s e).1 = s.1 + e.delay + e.lag := rfl
  rw [hconfig, hclock]
  rcases bannedUntil_exec (d := s.2) e.call with hsame | hnew | ⟨hnone, -⟩
  · have hold := h ip u (hsame.symm.trans hu)
    omega
  · have heq := Option.some.inj (hu.symm.trans hnew)
    omega
  · cases hu.symm.trans hnone

theorem Timed.Bounded.run {s : Timed} (h : s.Bounded) (es : List Event) :
    (es.foldl DosProtection.step s).Bounded := by
  induction es generalizing s with
  | nil => exact h
  | cons e es ih => exact ih (h.step e)

def Timed.Holds (ip : IpAddr) (u : ℕ) (s : Timed) : Prop :=
  u ≤ s.1 ∨ ∃ u', s.2.bannedUntil ip = some u' ∧ u ≤ u'

theorem Timed.Holds.step {s : Timed} {u : ℕ} (h : s.Holds ip u)
    (hu : u ≤ s.1 + s.2.config.banDuration) {e : Event} (hkeep : KeepsBans s e)
    (hlift : e.call ≠ .unbanIp ip) : (DosProtection.step s e).Holds ip u := by
  have hclock : (DosProtection.step s e).1 = s.1 + e.delay + e.lag := rfl
  rcases h with hover | ⟨u', hu', hle⟩
  · exact Or.inl (by omega)
  rcases bannedUntil_exec (d := s.2) e.call with hsame | hnew | ⟨-, hend⟩
  · exact Or.inr ⟨u', hsame.trans hu', hle⟩
  · exact Or.inr ⟨_, hnew, by omega⟩
  · rcases hend u' hu' with hpast | hunban | ⟨order, horder, hdrop⟩
    · exact Or.inl (by omega)
    · exact absurd hunban hlift
    · by_cases hrun : s.1 + e.delay + e.lag < u'
      · exact absurd hdrop (hkeep order horder ip u' hu' hrun)
      · exact Or.inl (by omega)

theorem Timed.Holds.run {s : Timed} {u : ℕ} {es : List Event} (h : s.Holds ip u)
    (hu : u ≤ s.1 + s.2.config.banDuration) (hkeep : Along DosProtection.step KeepsBans s es)
    (hlift : ∀ e ∈ es, e.call ≠ .unbanIp ip) : (es.foldl DosProtection.step s).Holds ip u := by
  induction es generalizing s with
  | nil => exact h
  | cons e es ih =>
    have hconfig : (DosProtection.step s e).2.config = s.2.config := config_exec _
    have hclock : (DosProtection.step s e).1 = s.1 + e.delay + e.lag := rfl
    have hstep := h.step hu hkeep.1 (hlift e List.mem_cons_self)
    refine ih hstep ?_ hkeep.2 (fun e' he' => hlift e' (List.mem_cons_of_mem _ he'))
    rw [hconfig, hclock]
    omega

theorem Timed.Holds.refuses {s : Timed} {u : ℕ} (h : s.Holds ip u) : Refuses s ip u := by
  intro now late hnow hrun
  rcases h with hover | ⟨u', hu', hle⟩
  · omega
  · exact refused_of_bannedUntil hu' (hrun.trans_le hle)

theorem bannedUntil_cleanup_of_drops {order : IterOrder IpAddr PeerState}
    (h : d.Drops now order ip) : (d.cleanup now order).bannedUntil ip = none := by
  unfold bannedUntil
  rw [lookup_cleanup order h.1]
  rcases h.2 with ⟨state, hstate, hage⟩ | hover
  · split_ifs
    · rfl
    · rw [hstate, Option.bind_some, refresh, if_pos hage]
      rfl
  · rw [if_pos hover]
    rfl

/-- Bans last for their full term along a run from new records exactly when no clean-up drops a
record whose ban runs. -/
theorem fullTerm_iff (start : ℕ) (config : DosProtectionConfig) (es : List Event) :
    FullTerm (start, new config) es ↔ Along step KeepsBans (start, new config) es := by
  constructor
  · intro h
    rw [along_iff]
    rintro pre e post hes order horder ip u hu hrun hdrop
    have hsplit : es = pre ++ [e] ++ post := by rw [hes, List.append_assoc]; rfl
    have hrefuse := h pre [e] post hsplit ip u hu (by simp [horder])
    rw [List.foldl_append] at hrefuse
    obtain ⟨hbanned, -⟩ := hrefuse _ 0 le_rfl hrun
    obtain ⟨u', hu', -⟩ := isBanned_eq_true_iff.mp hbanned
    have hnone := bannedUntil_cleanup_of_drops hdrop
    rw [List.foldl_cons, List.foldl_nil, step, horder] at hu'
    cases hu'.symm.trans hnone
  · rintro h pre mid post rfl ip u hu hlift
    have hnew : Timed.Bounded (start, new config) := by
      intro ip u hu
      simp [bannedUntil, new] at hu
    have hmid := ((along_append _ _ _).mp ((along_append _ _ _).mp h).1).2
    rw [List.foldl_append]
    have hholds : (pre.foldl step (start, new config)).Holds ip u := Or.inr ⟨u, hu, le_rfl⟩
    exact (hholds.run (hnew.run pre ip u hu) hmid hlift).refuses

section Sample

def sampleIp : IpAddr := .v4 ⟨[127, 0, 0, 1], rfl⟩

/-- Three reports of more than ten megabytes ban the address for an hour. The task ticks every
five minutes. -/
def sampleEvents : List Event :=
  List.replicate 3 ⟨0, 0, .recordBandwidth sampleIp 10485761 0⟩ ++
    List.replicate 3 ⟨300 * nanos, 0, .cleanup IterOrder.sorted⟩

/-- Under the default configuration the ban is gone after a quarter of its term. -/
theorem fullTerm_sample : ¬ FullTerm (0, new .default) sampleEvents := by
  intro h
  obtain ⟨hbanned, -⟩ := h (sampleEvents.take 3) (sampleEvents.drop 3) []
    (by rw [List.take_append_drop, List.append_nil]) sampleIp (3600 * nanos) (by decide +kernel)
    (by simp [sampleEvents]) (900 * nanos) 0 (by decide +kernel) (by decide)
  revert hbanned
  decide +kernel

end Sample

end DosProtection

end CytahSpeed
