import CytahSpeed.CallFrame
import CytahSpeed.MachineInt
import Mathlib.Algebra.GroupWithZero.Nat

/-!
# Bandwidth accounting

The counters of a record are meant for one second and only ever cleared by the clean-up, for an
address that has been idle for over a second at that moment. Between two clearings they add up. So
along a run an address is charged with a violation exactly when the traffic of a stretch without a
clearing is over the limit, however many seconds the stretch has.
-/

namespace CytahSpeed.DosProtection
open FiniteMap StepRun

/-- The clean-up at this moment drops the record of the address or clears its counters. -/
def Clears (d : DosProtection) (now : ℕ) (order : IterOrder IpAddr PeerState) (ip : IpAddr) :
    Prop :=
  d.Drops now order ip ∨ d.config.cleanupIntervalSeconds ≠ 0 ∧
    ∃ state, d.peerStates.lookup ip = some state ∧ nanos < now - state.lastActivity

def LeavesCounters (ip : IpAddr) (s : Timed) (e : Event) : Prop :=
  ∀ order, e.call = .cleanup order → ¬ s.2.Clears (s.1 + e.delay) order ip

def Event.bytes (ip : IpAddr) (e : Event) : ℕ :=
  match e.call with
  | .recordBandwidth ip' sent received => if ip' = ip then sent.toNat + received.toNat else 0
  | _ => 0

def traffic (ip : IpAddr) (es : List Event) : ℕ := (es.map (Event.bytes ip)).sum

def counted (d : DosProtection) (ip : IpAddr) : ℕ :=
  ((d.peerStates.lookup ip).map fun s => s.bytesSent.toNat + s.bytesReceived.toNat).getD 0

/-- None of the three sums of `record_bandwidth` overflows. -/
def SumsFit (state : PeerState) (sent received : UInt64) : Prop :=
  state.bytesSent.toNat + sent.toNat < 2 ^ 64 ∧
    state.bytesReceived.toNat + received.toNat < 2 ^ 64 ∧
    (state.bytesSent + sent).toNat + (state.bytesReceived + received).toNat < 2 ^ 64

/-- Recording traffic of the address overflows nothing and counts no violation. -/
def Spares (ip : IpAddr) (s : Timed) (e : Event) : Prop :=
  ∀ sent received, e.call = .recordBandwidth ip sent received →
    SumsFit (s.2.entry ip (s.1 + e.delay)) sent received ∧
      ((step s e).2.entry ip (s.1 + e.delay)).violations =
        (s.2.entry ip (s.1 + e.delay)).violations

/-- No stretch of the run without a clearing carries more traffic than the limit. -/
def CarriesWithin (ip : IpAddr) (s : Timed) (es : List Event) : Prop :=
  ∀ pre mid post, es = pre ++ mid ++ post →
    Along step (LeavesCounters ip) (pre.foldl step s) mid →
      traffic ip mid ≤ s.2.config.maxBandwidthPerSecond.toNat

theorem traffic_cons (ip : IpAddr) (e : Event) (es : List Event) :
    traffic ip (e :: es) = e.bytes ip + traffic ip es := by
  rw [traffic, List.map_cons, List.sum_cons, traffic]

theorem traffic_concat (ip : IpAddr) (es : List Event) (e : Event) :
    traffic ip (es ++ [e]) = traffic ip es + e.bytes ip := by
  rw [traffic, List.map_append, List.sum_append, List.map_singleton, List.sum_singleton, traffic]

variable {d : DosProtection} {now late : ℕ} {ip : IpAddr}

theorem counted_eq_entry (d : DosProtection) (ip : IpAddr) (now : ℕ) : d.counted ip =
    (d.entry ip now).bytesSent.toNat + (d.entry ip now).bytesReceived.toNat := by
  unfold counted entry
  cases d.peerStates.lookup ip <;> rfl

theorem counted_put (ip' : IpAddr) (state : PeerState) (stats : DosStats) :
    (d.put ip' state stats).counted ip =
      if ip = ip' then state.bytesSent.toNat + state.bytesReceived.toNat else d.counted ip := by
  unfold counted put
  rw [lookup_insert_eq_ite]
  split_ifs <;> rfl

theorem entry_put (state : PeerState) (stats : DosStats) :
    (d.put ip state stats).entry ip now = state := by
  unfold entry put
  rw [lookup_insert_eq_ite, if_pos rfl, Option.getD_some]

theorem counted_exec {call : Call} (hclean : ∀ order, call ≠ .cleanup order)
    (hrecord : ∀ sent received, call ≠ .recordBandwidth ip sent received) :
    (d.exec now late call).counted ip = d.counted ip := by
  obtain ⟨ip', hip'⟩ := Call.exists_address hclean
  rcases writesOne_exec (d := d) hip' with heq | ⟨s', stats, heq, hkeeps⟩
  · rw [heq]
  · rw [heq, counted_put]
    by_cases hip : ip = ip'
    · subst hip
      obtain ⟨hsent, hreceived⟩ := hkeeps.traffic hrecord
      rw [if_pos rfl, hsent, hreceived, counted_eq_entry d ip now]
    · rw [if_neg hip]

theorem counted_cleanup_of_clears {order : IterOrder IpAddr PeerState}
    (h : d.Clears now order ip) : (d.cleanup now order).counted ip = 0 := by
  have hzero : d.config.cleanupIntervalSeconds ≠ 0 := by
    rcases h with h | h
    · exact h.1
    · exact h.1
  rw [counted, lookup_cleanup order hzero]
  by_cases hover : ip ∈ d.overflow now order
  · rw [if_pos hover, Option.map_none, Option.getD_none]
  · rw [if_neg hover]
    rcases h with ⟨-, hage | hdrop⟩ | ⟨-, hidle⟩
    · obtain ⟨state, hstate, hage⟩ := hage
      rw [hstate, Option.bind_some, refresh, if_pos hage]
      rfl
    · exact absurd hdrop hover
    · obtain ⟨state, hstate, hidle⟩ := hidle
      rw [hstate, Option.bind_some, refresh]
      split_ifs <;> rfl

theorem counted_cleanup_of_not_clears {order : IterOrder IpAddr PeerState}
    (h : ¬ d.Clears now order ip) : (d.cleanup now order).counted ip = d.counted ip := by
  by_cases hzero : d.config.cleanupIntervalSeconds = 0
  · rw [cleanup, if_pos hzero]
  · have hdrop : ¬ d.Drops now order ip := fun hdrop => h (Or.inl hdrop)
    have hidle : ∀ state, d.peerStates.lookup ip = some state →
        ¬ nanos < now - state.lastActivity :=
      fun state hstate hidle => h (Or.inr ⟨hzero, state, hstate, hidle⟩)
    have hover : ip ∉ d.overflow now order := fun hover => hdrop ⟨hzero, Or.inr hover⟩
    rw [counted, lookup_cleanup order hzero, if_neg hover, counted]
    cases hstate : d.peerStates.lookup ip with
    | none => rfl
    | some state =>
      have hage : ¬ d.config.maxAge < now - state.lastActivity :=
        fun hage => hdrop ⟨hzero, Or.inl ⟨state, hstate, hage⟩⟩
      rw [Option.bind_some, refresh, if_neg hage, if_neg (hidle state hstate)]

theorem sumsFit_of_le {state : PeerState} {sent received limit : UInt64}
    (h : state.bytesSent.toNat + state.bytesReceived.toNat + (sent.toNat + received.toNat) ≤
      limit.toNat) : SumsFit state sent received := by
  have hlimit := limit.toNat_lt
  have hsent : (state.bytesSent + sent).toNat = state.bytesSent.toNat + sent.toNat :=
    MachineInt.toNat_add_of_lt (by omega)
  have hreceived : (state.bytesReceived + received).toNat =
      state.bytesReceived.toNat + received.toNat := MachineInt.toNat_add_of_lt (by omega)
  refine ⟨by omega, by omega, by omega⟩

theorem toNat_total {state : PeerState} {sent received : UInt64}
    (h : SumsFit state sent received) :
    (state.bytesSent + sent + (state.bytesReceived + received)).toNat =
      state.bytesSent.toNat + state.bytesReceived.toNat + (sent.toNat + received.toNat) := by
  rw [MachineInt.toNat_add_of_lt h.2.2, MachineInt.toNat_add_of_lt h.1,
    MachineInt.toNat_add_of_lt h.2.1]
  omega

theorem violations_handleViolation (state : PeerState) :
    ((d.handleViolation late ip state).entry ip now).violations = state.violations + 1 := by
  obtain ⟨bannedUntil, stats, heq⟩ := handleViolation_eq d late ip state
  rw [heq, entry_put]

/-- The record with the traffic added, before the limit is checked. -/
def charge (state : PeerState) (now : ℕ) (sent received : UInt64) : PeerState :=
  { state with
    bytesSent := state.bytesSent + sent
    bytesReceived := state.bytesReceived + received
    lastActivity := now }

theorem recordBandwidth_of_over {sent received : UInt64} (h : d.config.maxBandwidthPerSecond <
      (d.entry ip now).bytesSent + sent + ((d.entry ip now).bytesReceived + received)) :
    d.recordBandwidth now late ip sent received =
      d.handleViolation late ip (charge (d.entry ip now) now sent received) := if_pos h

theorem recordBandwidth_of_not_over {sent received : UInt64}
    (h : ¬ d.config.maxBandwidthPerSecond <
      (d.entry ip now).bytesSent + sent + ((d.entry ip now).bytesReceived + received)) :
    d.recordBandwidth now late ip sent received =
      d.put ip (charge (d.entry ip now) now sent received) d.stats := if_neg h

theorem recordBandwidth_spares_iff (d : DosProtection) (now late : ℕ) (ip : IpAddr)
    (sent received : UInt64) :
    (SumsFit (d.entry ip now) sent received ∧
        ((d.recordBandwidth now late ip sent received).entry ip now).violations =
          (d.entry ip now).violations) ↔
      d.counted ip + (sent.toNat + received.toNat) ≤ d.config.maxBandwidthPerSecond.toNat := by
  rw [counted_eq_entry d ip now]
  constructor
  · intro ⟨hfit, hsame⟩
    rw [← toNat_total hfit, ← UInt64.le_iff_toNat_le, ← UInt64.not_lt]
    intro hover
    rw [recordBandwidth_of_over hover, violations_handleViolation] at hsame
    -- the count may wrap around, and still moves
    have hmoved := congrArg UInt32.toNat hsame
    have hlt := (d.entry ip now).violations.toNat_lt
    rw [UInt32.toNat_add] at hmoved
    change ((d.entry ip now).violations.toNat + 1) % 2 ^ 32 = _ at hmoved
    omega
  · intro hroom
    have hfit := sumsFit_of_le hroom
    rw [← toNat_total hfit, ← UInt64.le_iff_toNat_le, ← UInt64.not_lt] at hroom
    rw [recordBandwidth_of_not_over hroom, entry_put]
    exact ⟨hfit, rfl⟩

theorem counted_recordBandwidth {sent received : UInt64}
    (h : d.counted ip + (sent.toNat + received.toNat) ≤ d.config.maxBandwidthPerSecond.toNat) :
    (d.recordBandwidth now late ip sent received).counted ip =
      d.counted ip + (sent.toNat + received.toNat) := by
  rw [counted_eq_entry d ip now] at h ⊢
  have hfit := sumsFit_of_le h
  rw [← toNat_total hfit, ← UInt64.le_iff_toNat_le, ← UInt64.not_lt] at h
  rw [recordBandwidth_of_not_over h, counted_put, if_pos rfl, charge]
  dsimp only
  rw [MachineInt.toNat_add_of_lt hfit.1, MachineInt.toNat_add_of_lt hfit.2.1]
  omega

theorem bytes_record (delay lag : ℕ) (ip : IpAddr) (sent received : UInt64) :
    Event.bytes ip ⟨delay, lag, .recordBandwidth ip sent received⟩ =
      sent.toNat + received.toNat := if_pos rfl

theorem spares_iff {s : Timed} {e : Event} : Spares ip s e ↔
    (∀ sent received, e.call = .recordBandwidth ip sent received →
      s.2.counted ip + e.bytes ip ≤ s.2.config.maxBandwidthPerSecond.toNat) := by
  obtain ⟨delay, lag, call⟩ := e
  apply forall_congr'
  intro sent
  apply forall_congr'
  intro received
  apply imp_congr_right
  rintro rfl
  rw [bytes_record]
  exact recordBandwidth_spares_iff s.2 (s.1 + delay) (s.1 + delay + lag) ip sent received

theorem bytes_of_ne {e : Event} (h : ∀ sent received, e.call ≠ .recordBandwidth ip sent received) :
    e.bytes ip = 0 := by
  obtain ⟨delay, lag, call⟩ := e
  cases call with
  | recordBandwidth ip' sent received =>
    have hip : ip' ≠ ip := fun hip => h sent received (by rw [hip])
    exact if_neg hip
  | _ => rfl

theorem counted_step {s : Timed} {e : Event} (hleaves : LeavesCounters ip s e)
    (hspares : Spares ip s e) : (step s e).2.counted ip = s.2.counted ip + e.bytes ip := by
  obtain ⟨delay, lag, call⟩ := e
  by_cases hclean : ∃ order, call = .cleanup order
  · obtain ⟨order, rfl⟩ := hclean
    exact counted_cleanup_of_not_clears (hleaves order rfl)
  · by_cases hrecord : ∃ sent received, call = .recordBandwidth ip sent received
    · obtain ⟨sent, received, rfl⟩ := hrecord
      have hroom := spares_iff.mp hspares sent received rfl
      rw [bytes_record] at hroom ⊢
      exact counted_recordBandwidth hroom
    · have hother : ∀ sent received, call ≠ .recordBandwidth ip sent received :=
        fun sent received h => hrecord ⟨sent, received, h⟩
      rw [bytes_of_ne hother, Nat.add_zero]
      exact counted_exec (fun order h => hclean ⟨order, h⟩) hother

theorem counted_run {s : Timed} {es : List Event} (hleaves : Along step (LeavesCounters ip) s es)
    (hspares : Along step (Spares ip) s es) :
    (es.foldl step s).2.counted ip = s.2.counted ip + traffic ip es := by
  induction es generalizing s with
  | nil => rfl
  | cons e es ih =>
    rw [List.foldl_cons, ih hleaves.2 hspares.2, counted_step hleaves.1 hspares.1, traffic_cons]
    omega

theorem step_cleanup {s : Timed} {e : Event} {order : IterOrder IpAddr PeerState}
    (h : e.call = .cleanup order) : (step s e).2 = s.2.cleanup (s.1 + e.delay) order := by
  unfold step
  rw [h]
  rfl

theorem counted_step_of_clears {s : Timed} {e : Event} (h : ¬ LeavesCounters ip s e) :
    (step s e).2.counted ip = 0 := by
  unfold LeavesCounters at h
  push Not at h
  obtain ⟨order, horder, hclears⟩ := h
  rw [step_cleanup horder]
  exact counted_cleanup_of_clears hclears

theorem counted_le {s : Timed} {es : List Event} (h : Along step (Spares ip) s es)
    (hs : s.2.counted ip ≤ s.2.config.maxBandwidthPerSecond.toNat) :
    (es.foldl step s).2.counted ip ≤ s.2.config.maxBandwidthPerSecond.toNat := by
  induction es generalizing s with
  | nil => exact hs
  | cons e es ih =>
    have hconfig : (step s e).2.config = s.2.config := config_exec _
    have hstep : (step s e).2.counted ip ≤ s.2.config.maxBandwidthPerSecond.toNat := by
      by_cases hleaves : LeavesCounters ip s e
      · rw [counted_step hleaves h.1]
        by_cases hrecord : ∃ sent received, e.call = .recordBandwidth ip sent received
        · obtain ⟨sent, received, hcall⟩ := hrecord
          exact spares_iff.mp h.1 sent received hcall
        · rw [bytes_of_ne fun sent received hcall => hrecord ⟨sent, received, hcall⟩]
          exact hs
      · rw [counted_step_of_clears hleaves]
        exact Nat.zero_le _
    have hrest := ih h.2 (by rw [hconfig]; exact hstep)
    rw [hconfig] at hrest
    exact hrest

theorem exists_counted_eq (config : DosProtectionConfig) (start : ℕ) {es : List Event}
    (h : Along step (Spares ip) (start, new config) es) :
    ∃ pre mid, es = pre ++ mid ∧
      Along step (LeavesCounters ip) (pre.foldl step (start, new config)) mid ∧
      (es.foldl step (start, new config)).2.counted ip = traffic ip mid := by
  induction es using List.reverseRecOn with
  | nil => exact ⟨[], [], rfl, trivial, rfl⟩
  | append_singleton es e ih =>
    obtain ⟨hspares, hlast, -⟩ := (along_append _ es [e]).mp h
    obtain ⟨pre, mid, rfl, hleaves, hcounted⟩ := ih hspares
    by_cases hclears : LeavesCounters ip ((pre ++ mid).foldl step (start, new config)) e
    · refine ⟨pre, mid ++ [e], List.append_assoc _ _ _, ?_, ?_⟩
      · rw [along_append, ← List.foldl_append]
        exact ⟨hleaves, hclears, trivial⟩
      · rw [List.foldl_append, List.foldl_cons, List.foldl_nil, counted_step hclears hlast,
          hcounted, traffic_concat]
    · refine ⟨pre ++ mid ++ [e], [], (List.append_nil _).symm, trivial, ?_⟩
      rw [List.foldl_append, List.foldl_cons, List.foldl_nil]
      exact counted_step_of_clears hclears

/-- An address is spared along a run exactly when no stretch without a clearing carries more than
the limit. -/
theorem bandwidth_spared_iff (config : DosProtectionConfig) (start : ℕ) (ip : IpAddr)
    (es : List Event) : Along step (Spares ip) (start, new config) es ↔
      CarriesWithin ip (start, new config) es := by
  constructor
  · rintro h pre mid post rfl hleaves
    have hmid := ((along_append _ (pre ++ mid) post).mp h).1
    obtain ⟨hpre, hmid'⟩ := (along_append _ pre mid).mp hmid
    have hle := counted_le hmid (Nat.zero_le _)
    rw [List.foldl_append, counted_run hleaves hmid'] at hle
    exact (Nat.le_add_left _ _).trans hle
  · intro h
    have hcases : Along step (Spares ip) (start, new config) es ∨ _ :=
      along_or_fails (start, new config) es
    rcases hcases with hall | ⟨pre, e, post, rfl, hpre, hfail⟩
    · exact hall
    · -- the counters that overflow hold the traffic of one stretch
      obtain ⟨first, mid, rfl, hleaves, hcounted⟩ := exists_counted_eq config start hpre
      rw [spares_iff] at hfail
      push Not at hfail
      obtain ⟨sent, received, hcall, hover⟩ := hfail
      have hrecord : LeavesCounters ip ((first ++ mid).foldl step (start, new config)) e := by
        intro order horder
        rw [hcall] at horder
        cases horder
      have hstretch := h first (mid ++ [e]) post (by simp) (by
        rw [along_append, ← List.foldl_append]
        exact ⟨hleaves, hrecord, trivial⟩)
      rw [traffic_concat] at hstretch
      rw [hcounted, config_run] at hover
      exact absurd hstretch (Nat.not_le_of_lt hover)

def stamped : ℕ → List Event → List (ℕ × Event)
  | _, [] => []
  | clock, e :: es => (clock + e.delay, e) :: stamped (clock + e.delay + e.lag) es

/-- The traffic of the address is within the limit in every second. -/
def Honest (config : DosProtectionConfig) (start : ℕ) (ip : IpAddr) (es : List Event) : Prop :=
  ∀ t, traffic ip (((stamped start es).filter fun x => t ≤ x.1 ∧ x.1 < t + nanos).map Prod.snd) ≤
    config.maxBandwidthPerSecond.toNat

def steadyPeer : IpAddr := .v4 ⟨[10, 0, 0, 1], rfl⟩

def steadyTraffic : List Event :=
  [⟨0, 0, .recordBandwidth steadyPeer 6000000 0⟩,
    ⟨5 * nanos, 0, .recordBandwidth steadyPeer 0 6000000⟩]

theorem honest_steadyTraffic : Honest DosProtectionConfig.default 0 steadyPeer steadyTraffic := by
  intro t
  simp only [stamped, steadyTraffic, List.filter_cons, List.filter_nil]
  by_cases hfirst : t = 0
  · subst hfirst
    decide
  · -- the first event is before the second that starts at `t`
    rw [if_neg (by simp; omega)]
    split_ifs <;> decide

theorem honest_peer_charged :
    ¬ ∀ config start ip es, Honest config start ip es →
      Along step (Spares ip) (start, new config) es := by
  intro h
  have hspared := h DosProtectionConfig.default 0 steadyPeer steadyTraffic honest_steadyTraffic
  have hsame := (hspared.2.1 0 6000000 rfl).2
  revert hsame
  decide

end CytahSpeed.DosProtection
