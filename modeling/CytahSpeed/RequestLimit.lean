import CytahSpeed.CallFrame
import CytahSpeed.SlidingWindow

/-!
# The request limit of an address

The request log of a record is a sliding window: it is pruned when a request is checked, and no
other call touches it. Without a clean-up the log never loses a request of the last second, so the
limit holds for every second of every run.
-/

namespace CytahSpeed.DosProtection
open FiniteMap SlidingWindow StepRun

/-- The log of the requests granted to an address. -/
def requestTimes (d : DosProtection) (ip : IpAddr) : List ℕ :=
  ((d.peerStates.lookup ip).map (·.requestTimes)).getD []

def allows (ip : IpAddr) (s : Timed) (e : Event) : Bool :=
  match e.call with
  | .checkRequestAllowed ip' =>
    ip' = ip && (s.2.checkRequestAllowed (s.1 + e.delay) (s.1 + e.delay + e.lag) ip').1.isOk
  | _ => false

def allowedTimes (ip : IpAddr) : Timed → List Event → List ℕ
  | _, [] => []
  | s, e :: es =>
    if allows ip s e then (s.1 + e.delay) :: allowedTimes ip (step s e) es
    else allowedTimes ip (step s e) es

variable {d : DosProtection} {now late : ℕ} {ip : IpAddr}

@[simp] theorem requestTimes_put (ip' : IpAddr) (state : PeerState) (stats : DosStats) :
    (d.put ip' state stats).requestTimes ip =
      if ip = ip' then state.requestTimes else d.requestTimes ip := by
  unfold requestTimes put
  rw [lookup_insert_eq_ite]
  split_ifs <;> rfl

theorem requestTimes_handleViolation (ip' : IpAddr) (state : PeerState) :
    (d.handleViolation late ip' state).requestTimes ip =
      if ip = ip' then state.requestTimes else d.requestTimes ip := by
  obtain ⟨bannedUntil, stats, heq⟩ := handleViolation_eq d late ip' state
  rw [heq, requestTimes_put]

@[simp] theorem requestTimes_entry : (d.entry ip now).requestTimes = d.requestTimes ip := by
  unfold entry requestTimes
  cases d.peerStates.lookup ip <;> rfl

theorem requestTimes_exec {call : Call} (hclean : ∀ order, call ≠ .cleanup order)
    (hrequest : call ≠ .checkRequestAllowed ip) :
    (d.exec now late call).requestTimes ip = d.requestTimes ip := by
  obtain ⟨ip', hip'⟩ := Call.exists_address hclean
  rcases writesOne_exec (d := d) hip' with heq | ⟨s', stats, heq, hkeeps⟩
  · rw [heq]
  · rw [heq, requestTimes_put]
    by_cases hip : ip = ip'
    · subst hip
      rw [if_pos rfl, hkeeps.log hrequest, requestTimes_entry]
    · rw [if_neg hip]

theorem checkRate_cases (d : DosProtection) (now late : ℕ) (ip : IpAddr) (state : PeerState) :
    (d.checkRate now late ip state).1 = .error .rateLimitExceeded ∧
        (d.checkRate now late ip state).2.requestTimes ip = recent nanos now state.requestTimes ∨
      (d.checkRate now late ip state).1 = .ok () ∧
        (recent nanos now state.requestTimes).length < d.config.maxRequestsPerSecond.toNat ∧
        (d.checkRate now late ip state).2.requestTimes ip =
          recent nanos now state.requestTimes ++ [now] := by
  by_cases hfull : d.config.maxRequestsPerSecond.toNat ≤
      (recent nanos now state.requestTimes).length
  · left
    have heq : d.checkRate now late ip state = (.error .rateLimitExceeded, d.handleViolation late
        ip { state with requestTimes := recent nanos now state.requestTimes }) := if_pos hfull
    rw [heq]
    exact ⟨rfl, by rw [requestTimes_handleViolation, if_pos rfl]⟩
  · right
    have heq : d.checkRate now late ip state = (.ok (), d.put ip { state with
        requestTimes := recent nanos now state.requestTimes ++ [now], lastActivity := now }
          d.stats) := if_neg hfull
    rw [heq]
    exact ⟨rfl, Nat.lt_of_not_le hfull, by rw [requestTimes_put, if_pos rfl]⟩

/-- A request is refused while a ban runs, and leaves the log as it is. Otherwise the rate is
checked. -/
theorem checkRequestAllowed_cases (d : DosProtection) (now late : ℕ) (ip : IpAddr) :
    d.isBanned now ip = true ∧ (d.checkRequestAllowed now late ip).1.isOk = false ∧
        (d.checkRequestAllowed now late ip).2.requestTimes ip = d.requestTimes ip ∨
      d.isBanned now ip = false ∧
        d.checkRequestAllowed now late ip = d.checkRate now late ip (d.entry ip now) := by
  have hentry : (d.entry ip now).bannedUntil = d.bannedUntil ip := bannedUntil_entry
  have hbanned : d.isBanned now ip = true ↔
      ∃ u, (d.entry ip now).bannedUntil = some u ∧ now < u := by
    rw [hentry, isBanned_eq_true_iff]
  cases hban : (d.entry ip now).bannedUntil with
  | none =>
    right
    refine ⟨?_, by simp only [checkRequestAllowed, hban]⟩
    rw [← Bool.not_eq_true, hbanned, hban]
    simp
  | some banUntil =>
    by_cases hrun : now < banUntil
    · left
      refine ⟨hbanned.mpr ⟨banUntil, hban, hrun⟩, ?_, ?_⟩
      · simp only [checkRequestAllowed, hban, if_pos hrun]
        rfl
      · simp only [checkRequestAllowed, hban, if_pos hrun]
        rw [requestTimes_put, if_pos rfl, requestTimes_entry]
    · right
      refine ⟨?_, by simp only [checkRequestAllowed, hban, if_neg hrun]⟩
      rw [← Bool.not_eq_true, hbanned, hban]
      simpa using hrun

/-- The log of the address tracks the requests allowed so far, and they respect the limit. -/
structure Limited (ip : IpAddr) (s : Timed) (granted : List ℕ) : Prop where
  tracks : Tracks nanos s.1 (s.2.requestTimes ip) granted
  within : Within s.2.config.maxRequestsPerSecond.toNat nanos granted

theorem Limited.of_log {s : Timed} {granted log : List ℕ} {e : Event}
    (htracks : Tracks nanos (s.1 + e.delay) log granted)
    (hwithin : Within s.2.config.maxRequestsPerSecond.toNat nanos granted)
    (hlog : (step s e).2.requestTimes ip = log) : Limited ip (step s e) granted := by
  have hconfig : (step s e).2.config = s.2.config := config_exec _
  constructor
  · rw [hlog]
    exact htracks.wait (Nat.le_add_right _ _)
  · rw [hconfig]
    exact hwithin

theorem allows_of_ne {s : Timed} {e : Event} (h : e.call ≠ .checkRequestAllowed ip) :
    allows ip s e = false := by
  obtain ⟨delay, lag, call⟩ := e
  cases call with
  | checkRequestAllowed ip' =>
    have hip : ip' ≠ ip := fun hip => h (by rw [hip])
    simp [allows, hip]
  | _ => rfl

theorem allows_request {s : Timed} {e : Event} (h : e.call = .checkRequestAllowed ip) :
    allows ip s e =
      (s.2.checkRequestAllowed (s.1 + e.delay) (s.1 + e.delay + e.lag) ip).1.isOk := by
  simp only [allows, h, decide_true, Bool.true_and]

theorem Limited.step {s : Timed} {granted : List ℕ} (h : Limited ip s granted) {e : Event}
    (hclean : ∀ order, e.call ≠ .cleanup order) :
    Limited ip (DosProtection.step s e)
      (granted ++ if allows ip s e then [s.1 + e.delay] else []) := by
  have htracks := h.tracks.wait (Nat.le_add_right s.1 e.delay)
  by_cases hrequest : e.call = .checkRequestAllowed ip
  · rw [allows_request hrequest]
    have hstep : (DosProtection.step s e).2 =
        (s.2.checkRequestAllowed (s.1 + e.delay) (s.1 + e.delay + e.lag) ip).2 := by
      unfold DosProtection.step
      rw [hrequest]
      rfl
    rcases checkRequestAllowed_cases s.2 (s.1 + e.delay) (s.1 + e.delay + e.lag) ip with
      ⟨-, hrefused, hlog⟩ | ⟨-, hrate⟩
    · rw [hrefused, if_neg Bool.false_ne_true, List.append_nil]
      exact Limited.of_log htracks h.within (by rw [hstep, hlog])
    · rw [hrate] at hstep ⊢
      rcases checkRate_cases s.2 (s.1 + e.delay) (s.1 + e.delay + e.lag) ip
        (s.2.entry ip (s.1 + e.delay)) with ⟨hres, hlog⟩ | ⟨hres, hroom, hlog⟩
      · rw [requestTimes_entry] at hlog
        have hrefused : (Except.error DosError.rateLimitExceeded :
            Except DosError Unit).isOk = false := rfl
        rw [hres, hrefused, if_neg Bool.false_ne_true, List.append_nil]
        exact Limited.of_log htracks.prune h.within (by rw [hstep, hlog])
      · rw [requestTimes_entry] at hroom hlog
        have hallowed : (Except.ok () : Except DosError Unit).isOk = true := rfl
        rw [hres, hallowed, if_pos rfl]
        exact Limited.of_log htracks.prune.grant (h.within.grant htracks hroom)
          (by rw [hstep, hlog])
  · rw [allows_of_ne hrequest, if_neg Bool.false_ne_true, List.append_nil]
    exact Limited.of_log htracks h.within (requestTimes_exec hclean hrequest)

theorem Limited.run {s : Timed} {granted : List ℕ} (h : Limited ip s granted) {es : List Event}
    (hclean : ∀ e ∈ es, ∀ order, e.call ≠ .cleanup order) :
    Limited ip (es.foldl DosProtection.step s) (granted ++ allowedTimes ip s es) := by
  induction es generalizing s granted with
  | nil =>
    rw [allowedTimes, List.append_nil]
    exact h
  | cons e es ih =>
    have hstep := h.step (hclean e List.mem_cons_self)
    have hrest := ih hstep (fun e' he' => hclean e' (List.mem_cons_of_mem _ he'))
    rw [List.append_assoc] at hrest
    rw [allowedTimes, List.foldl_cons]
    by_cases hallows : allows ip s e = true
    · rw [if_pos hallows] at hrest ⊢
      exact hrest
    · rw [if_neg hallows] at hrest ⊢
      exact hrest

theorem limited_new (config : DosProtectionConfig) (start : ℕ) :
    Limited ip (start, new config) [] :=
  ⟨tracks_nil start, within_nil⟩

theorem not_isBanned_of_allows {s : Timed} {e : Event} (h : allows ip s e = true) :
    s.2.isBanned (s.1 + e.delay) ip = false := by
  by_cases hrequest : e.call = .checkRequestAllowed ip
  · rw [allows_request hrequest] at h
    rcases checkRequestAllowed_cases s.2 (s.1 + e.delay) (s.1 + e.delay + e.lag) ip with
      ⟨-, hrefused, -⟩ | ⟨hbanned, -⟩
    · rw [hrefused] at h
      cases h
    · exact hbanned
  · rw [allows_of_ne hrequest] at h
    cases h

/-- Without a clean-up, every second of a run allows an address at most as many requests as the
limit says, and none while the address is banned. -/
theorem requests_limited (config : DosProtectionConfig) (start : ℕ) (es : List Event)
    (ip : IpAddr) (hclean : ∀ e ∈ es, ∀ order, e.call ≠ .cleanup order) :
    (∀ t, (allowedTimes ip (start, new config) es).countP (fun a => t ≤ a ∧ a < t + nanos) ≤
        config.maxRequestsPerSecond.toNat) ∧
      Along DosProtection.step (fun s e => allows ip s e = true →
        s.2.isBanned (s.1 + e.delay) ip = false) (start, new config) es := by
  constructor
  · have hstart : Limited ip (start, new config) [] := limited_new config start
    have hwithin := (hstart.run hclean).within
    rw [config_run, List.nil_append] at hwithin
    exact hwithin
  · rw [along_iff]
    intro pre e post hes hallows
    exact not_isBanned_of_allows hallows

def oneRequest : DosProtectionConfig :=
  { DosProtectionConfig.default with maxRequestsPerSecond := 1 }

/-- Three requests in a second, the third one exactly a second after the first. -/
def sampleRequests : List Event :=
  [⟨5, 1, .checkRequestAllowed sampleIp⟩, ⟨0, 0, .checkRequestAllowed sampleIp⟩,
    ⟨nanos - 1, 0, .checkRequestAllowed sampleIp⟩]

theorem requests_limited_sample :
    allowedTimes sampleIp (0, new oneRequest) sampleRequests = [5, nanos + 5] ∧
      (∀ t, (allowedTimes sampleIp (0, new oneRequest) sampleRequests).countP
          (fun a => t ≤ a ∧ a < t + nanos) ≤ oneRequest.maxRequestsPerSecond.toNat) ∧
      Along DosProtection.step (fun s e => allows sampleIp s e = true →
        s.2.isBanned (s.1 + e.delay) sampleIp = false) (0, new oneRequest) sampleRequests :=
  ⟨by decide, requests_limited oneRequest 0 sampleRequests sampleIp (by simp [sampleRequests])⟩

end CytahSpeed.DosProtection
