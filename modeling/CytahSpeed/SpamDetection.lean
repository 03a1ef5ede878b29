import CytahSpeed.DosProtection
import CytahSpeed.SlidingWindow
import CytahSpeed.Transaction

/-!
# Detection of spam

One record an address holds the times and the patterns of the transactions it got through, and how
often it was caught in a burst. A refused transaction does not count as activity, and a clean-up
drops the records that were idle for ten minutes. What is dropped is too old for any window, so the
limits hold along every run, clean-ups included; the limit on transactions a second is one a minute.
-/

namespace CytahSpeed
open ByteString FiniteMap StepRun SlidingWindow

/-- What is compared of a transaction. The size of the payload is that of its type, the same for
all transactions. -/
structure TransactionPattern where
  hash : Hash
  amount : UInt64
  gasPrice : UInt64
  timestamp : ℕ
  deriving DecidableEq

/-- Two patterns are too similar where `calculate_similarity`, in floating point, is over the
threshold. -/
structure SpamDetectionConfig where
  maxTpsPerIp : UInt32
  burstWindowSeconds : UInt64
  burstThreshold : UInt32
  tooSimilar : TransactionPattern → TransactionPattern → Bool

/-- The score is a float that only counts. -/
structure IpActivity where
  transactions : List ℕ
  patterns : List TransactionPattern
  burstScore : ℕ
  lastActivity : ℕ
  deriving DecidableEq

structure SpamStats where
  rateLimitBlocks : UInt64
  burstDetections : UInt64
  similarityBlocks : UInt64
  totalChecked : UInt64
  deriving DecidableEq

inductive SpamReason
  | rateLimitExceeded
  | burstDetected
  | similarTransaction
  deriving DecidableEq

inductive SpamResult
  | allowed
  | blocked (reason : SpamReason)
  deriving DecidableEq

theorem SpamResult.blocked_ne_allowed (reason : SpamReason) : blocked reason ≠ allowed := by
  intro h
  cases h

structure SpamDetector where
  config : SpamDetectionConfig
  ipActivity : Map IpAddr IpActivity
  globalPatterns : List TransactionPattern
  stats : SpamStats

def minute : ℕ := 60 * nanos

def SpamDetectionConfig.burstWindow (config : SpamDetectionConfig) : ℕ :=
  config.burstWindowSeconds.toNat * nanos

def Transaction.pattern (c : Crypto) (now : ℕ) (tx : Transaction) : TransactionPattern where
  hash := tx.hash c
  amount := match tx.payload with
    | .transfer _ amount => amount
    | _ => 0
  gasPrice := tx.gasPrice
  timestamp := now

namespace SpamDetector

def new (config : SpamDetectionConfig) : SpamDetector := ⟨config, ∅, [], ⟨0, 0, 0, 0⟩⟩

variable (c : Crypto) (d : SpamDetector)

/-- `entry(ip).or_insert_with(..)`, with the times of the last minute. -/
def entry (now : ℕ) (ip : IpAddr) : IpActivity :=
  let activity := (d.ipActivity.lookup ip).getD ⟨[], [], 0, now⟩
  { activity with transactions := recent minute now activity.transactions }

def put (ip : IpAddr) (activity : IpActivity) (stats : SpamStats) : SpamDetector :=
  { d with ipActivity := d.ipActivity.insert ip activity, stats }

end SpamDetector

def IpActivity.add (activity : IpActivity) (now : ℕ) (pattern : TransactionPattern) :
    IpActivity :=
  let patterns := activity.patterns ++ [pattern]
  { activity with
    transactions := activity.transactions ++ [now]
    patterns := if 100 < patterns.length then patterns.tail else patterns
    lastActivity := now }

/-- At most a hundred patterns, none too similar to an earlier one. -/
structure IpActivity.Distinct (config : SpamDetectionConfig) (activity : IpActivity) : Prop where
  length_le : activity.patterns.length ≤ 100
  pairwise : activity.patterns.Pairwise fun p q => config.tooSimilar q p = false

theorem IpActivity.Distinct.add {config : SpamDetectionConfig} {activity : IpActivity}
    (h : activity.Distinct config) {pattern : TransactionPattern}
    (hfresh : ∀ p ∈ activity.patterns, config.tooSimilar pattern p = false) (now : ℕ) :
    (activity.add now pattern).Distinct config := by
  have hlength := h.length_le
  have hall :
      (activity.patterns ++ [pattern]).Pairwise fun p q => config.tooSimilar q p = false := by
    rw [List.pairwise_append]
    refine ⟨h.pairwise, List.pairwise_singleton _ _, ?_⟩
    intro p hp q hq
    rw [List.mem_singleton.mp hq]
    exact hfresh p hp
  unfold IpActivity.add
  by_cases hfull : 100 < (activity.patterns ++ [pattern]).length
  · simp only [if_pos hfull]
    refine ⟨?_, hall.sublist (List.tail_sublist _)⟩
    simp only [List.length_tail, List.length_append, List.length_singleton]
    omega
  · simp only [if_neg hfull]
    exact ⟨Nat.le_of_not_lt hfull, hall⟩

namespace SpamDetector

variable (c : Crypto) (d : SpamDetector)

def checkPatterns (now : ℕ) (tx : Transaction) (ip : IpAddr) (activity : IpActivity)
    (stats : SpamStats) : SpamResult × SpamDetector :=
  let pattern := tx.pattern c now
  if activity.patterns.any fun p => d.config.tooSimilar pattern p then
    (.blocked .similarTransaction,
      d.put ip activity { stats with similarityBlocks := stats.similarityBlocks + 1 })
  else (.allowed, d.put ip (activity.add now pattern) stats)

/-- In a burst the score grows, and over three it blocks. -/
def checkBurst (now : ℕ) (tx : Transaction) (ip : IpAddr) (activity : IpActivity) :
    SpamResult × SpamDetector :=
  let recentCount := (recent d.config.burstWindow now activity.transactions).length
  if d.config.burstThreshold.toNat ≤ recentCount then
    let activity := { activity with burstScore := activity.burstScore + 1 }
    let stats := { d.stats with burstDetections := d.stats.burstDetections + 1 }
    if 3 < activity.burstScore then (.blocked .burstDetected, d.put ip activity stats)
    else d.checkPatterns c now tx ip activity stats
  else d.checkPatterns c now tx ip activity d.stats

def checkSpam (now : ℕ) (tx : Transaction) (ip : IpAddr) : SpamResult × SpamDetector :=
  let activity := d.entry now ip
  if d.config.maxTpsPerIp.toNat ≤ activity.transactions.length then
    (.blocked .rateLimitExceeded,
      d.put ip activity { d.stats with rateLimitBlocks := d.stats.rateLimitBlocks + 1 })
  else d.checkBurst c now tx ip activity

def resetStats : SpamDetector := { d with stats := ⟨0, 0, 0, 0⟩ }

def idle : ℕ := 600 * nanos

/-- One turn of the loop of `start_cleanup_task`. -/
def cleanup (now : ℕ) (order : IterOrder IpAddr IpActivity) : SpamDetector :=
  { d with
    ipActivity := retain (fun _ activity =>
      if now - activity.lastActivity < idle then some activity else none) order d.ipActivity
    globalPatterns := d.globalPatterns.filter fun pattern =>
      now - pattern.timestamp < 3600 * nanos }

inductive Call
  | checkSpam (tx : Transaction) (ip : IpAddr)
  | resetStats
  | cleanup (order : IterOrder IpAddr IpActivity)

def exec (now : ℕ) : Call → SpamDetector
  | .checkSpam tx ip => (d.checkSpam c now tx ip).2
  | .resetStats => d.resetStats
  | .cleanup order => d.cleanup now order

abbrev Timed := ℕ × SpamDetector

def step (s : Timed) (e : ℕ × Call) : Timed := (s.1 + e.1, s.2.exec c (s.1 + e.1) e.2)

def allows (ip : IpAddr) (s : Timed) (e : ℕ × Call) : Bool :=
  match e.2 with
  | .checkSpam tx ip' => ip' = ip && (s.2.checkSpam c (s.1 + e.1) tx ip').1 = .allowed
  | _ => false

def allowedTimes (ip : IpAddr) : Timed → List (ℕ × Call) → List ℕ
  | _, [] => []
  | s, e :: es =>
    (if allows c ip s e then [s.1 + e.1] else []) ++ allowedTimes ip (step c s e) es

variable {c d} {now : ℕ} {ip : IpAddr}

theorem checkPatterns_cases (c : Crypto) (d : SpamDetector) (now : ℕ) (tx : Transaction)
    (ip : IpAddr) (activity : IpActivity) (stats : SpamStats) :
    let r := d.checkPatterns c now tx ip activity stats
    r.2.config = d.config ∧
      (r.1 ≠ .allowed ∧ r.2.ipActivity = d.ipActivity.insert ip activity ∨
        r.1 = .allowed ∧
          r.2.ipActivity = d.ipActivity.insert ip (activity.add now (tx.pattern c now)) ∧
          ∀ p ∈ activity.patterns, d.config.tooSimilar (tx.pattern c now) p = false) := by
  unfold checkPatterns
  by_cases hany : (activity.patterns.any fun p => d.config.tooSimilar (tx.pattern c now) p) = true
  · rw [if_pos hany]
    exact ⟨rfl, Or.inl ⟨SpamResult.blocked_ne_allowed _, rfl⟩⟩
  · rw [if_neg hany]
    refine ⟨rfl, Or.inr ⟨rfl, rfl, ?_⟩⟩
    simpa using hany

/-- What a call does to the record of its address, by its answer. -/
theorem checkSpam_cases (c : Crypto) (d : SpamDetector) (now : ℕ) (tx : Transaction)
    (ip : IpAddr) :
    let activity := d.entry now ip
    let r := d.checkSpam c now tx ip
    r.2.config = d.config ∧ ∃ score, activity.burstScore ≤ score ∧
      (r.1 ≠ .allowed ∧
          r.2.ipActivity = d.ipActivity.insert ip { activity with burstScore := score } ∨
        r.1 = .allowed ∧
          r.2.ipActivity = d.ipActivity.insert ip
            ({ activity with burstScore := score }.add now (tx.pattern c now)) ∧
          activity.transactions.length < d.config.maxTpsPerIp.toNat ∧
          ((recent d.config.burstWindow now activity.transactions).length <
              d.config.burstThreshold.toNat ∨ score = activity.burstScore + 1 ∧ score ≤ 3) ∧
          ∀ p ∈ activity.patterns, d.config.tooSimilar (tx.pattern c now) p = false) := by
  intro activity r
  by_cases hfull : d.config.maxTpsPerIp.toNat ≤ activity.transactions.length
  · have hr : r = (.blocked .rateLimitExceeded, d.put ip activity
        { d.stats with rateLimitBlocks := d.stats.rateLimitBlocks + 1 }) := if_pos hfull
    rw [hr]
    exact ⟨rfl, activity.burstScore, le_rfl, Or.inl ⟨SpamResult.blocked_ne_allowed _, rfl⟩⟩
  · have hr : r = d.checkBurst c now tx ip activity := if_neg hfull
    rw [hr, checkBurst]
    have hroom := Nat.lt_of_not_le hfull
    by_cases hburst : d.config.burstThreshold.toNat ≤
        (recent d.config.burstWindow now activity.transactions).length
    · simp only [if_pos hburst]
      by_cases hscore : 3 < activity.burstScore + 1
      · rw [if_pos hscore]
        exact ⟨rfl, activity.burstScore + 1, Nat.le_succ _,
          Or.inl ⟨SpamResult.blocked_ne_allowed _, rfl⟩⟩
      · rw [if_neg hscore]
        obtain ⟨hconfig, ⟨hres, hmap⟩ | ⟨hres, hmap, hfresh⟩⟩ := checkPatterns_cases c d now tx ip
          { activity with burstScore := activity.burstScore + 1 }
          { d.stats with burstDetections := d.stats.burstDetections + 1 }
        · exact ⟨hconfig, activity.burstScore + 1, Nat.le_succ _, Or.inl ⟨hres, hmap⟩⟩
        · exact ⟨hconfig, activity.burstScore + 1, Nat.le_succ _, Or.inr ⟨hres, hmap, hroom,
            Or.inr ⟨rfl, Nat.le_of_not_lt hscore⟩, hfresh⟩⟩
    · rw [if_neg hburst]
      obtain ⟨hconfig, ⟨hres, hmap⟩ | ⟨hres, hmap, hfresh⟩⟩ :=
        checkPatterns_cases c d now tx ip activity d.stats
      · exact ⟨hconfig, activity.burstScore, le_rfl, Or.inl ⟨hres, hmap⟩⟩
      · exact ⟨hconfig, activity.burstScore, le_rfl, Or.inr ⟨hres, hmap, hroom,
          Or.inl (Nat.lt_of_not_le hburst), hfresh⟩⟩

/-- The transactions that a record stands for: the last minute of them is in its log, none is after
its last activity, and they keep the limit on bursts as far as the score is used up. -/
structure Fits (config : SpamDetectionConfig) (now : ℕ) (cur : List ℕ) (activity : IpActivity) :
    Prop where
  tracks : Tracks minute now activity.transactions cur
  le_last : ∀ a ∈ cur, a ≤ activity.lastActivity
  burst : Within (config.burstThreshold.toNat + min activity.burstScore 3)
    (min config.burstWindow minute) cur

/-- The transactions let through so far: those for which there is a record, and older ones. -/
structure Limited (ip : IpAddr) (s : Timed) (old cur : List ℕ) : Prop where
  rate : Within s.2.config.maxTpsPerIp.toNat minute (old ++ cur)
  burst : Within (s.2.config.burstThreshold.toNat + 3) (min s.2.config.burstWindow minute) old
  past : ∀ a ∈ old, a + idle ≤ s.1
  apart : ∀ a ∈ old, ∀ b ∈ cur, a + idle ≤ b
  present : (s.2.ipActivity.lookup ip).elim (cur = []) (Fits s.2.config s.1 cur)

theorem Fits.wait {config : SpamDetectionConfig} {cur : List ℕ} {activity : IpActivity}
    (h : Fits config now cur activity) {later : ℕ} (hle : now ≤ later) :
    Fits config later cur activity :=
  ⟨h.tracks.wait hle, h.le_last, h.burst⟩

theorem Limited.entry {s : Timed} {old cur : List ℕ} (h : Limited ip s old cur) {now : ℕ}
    (hle : s.1 ≤ now) : Fits s.2.config now cur (s.2.entry now ip) := by
  have hpresent := h.present
  unfold SpamDetector.entry
  cases hlookup : s.2.ipActivity.lookup ip with
  | none =>
    rw [hlookup] at hpresent
    have hcur : cur = [] := hpresent
    subst hcur
    exact ⟨tracks_nil now, by simp, within_nil⟩
  | some activity =>
    rw [hlookup] at hpresent
    have hfits : Fits s.2.config now cur activity := Fits.wait hpresent hle
    exact ⟨hfits.tracks.prune, hfits.le_last, hfits.burst⟩

theorem Fits.score {config : SpamDetectionConfig} {cur : List ℕ} {activity : IpActivity}
    (h : Fits config now cur activity) {score : ℕ} (hle : activity.burstScore ≤ score) :
    Fits config now cur { activity with burstScore := score } :=
  ⟨h.tracks, h.le_last, h.burst.mono (by simp only; omega)⟩

/-- A transaction let through in a burst uses up a point, and outside there is room. -/
theorem Fits.add {config : SpamDetectionConfig} {cur : List ℕ} {activity : IpActivity}
    (h : Fits config now cur activity) {score : ℕ} (hle : activity.burstScore ≤ score)
    (hpruned : recent minute now activity.transactions = activity.transactions)
    (hburst : (recent config.burstWindow now activity.transactions).length <
      config.burstThreshold.toNat ∨ score = activity.burstScore + 1 ∧ score ≤ 3)
    (pattern : TransactionPattern) :
    Fits config now (cur ++ [now]) ({ activity with burstScore := score }.add now pattern) where
  tracks := h.tracks.grant
  le_last := by
    intro a ha
    rcases List.mem_append.mp ha with ha | ha
    · exact h.tracks.le_now a ha
    · exact le_of_eq (List.mem_singleton.mp ha)
  burst := by
    change Within (_ + min score 3) _ _
    rcases hburst with hroom | ⟨rfl, hscore⟩
    · rw [← hpruned, recent_recent_min] at hroom
      have hnarrow := h.tracks.narrow (min_le_right config.burstWindow minute)
      exact (h.burst.mono (by omega)).grant hnarrow (by omega)
    · exact (h.burst.succ now).mono (by omega)

theorem pruned_entry (d : SpamDetector) (now : ℕ) (ip : IpAddr) :
    recent minute now (d.entry now ip).transactions = (d.entry now ip).transactions :=
  recent_recent le_rfl

theorem minute_le_idle : minute ≤ idle := by decide

theorem Limited.rate_room {s : Timed} {old cur log : List ℕ} (h : Limited ip s old cur) {now : ℕ}
    (hle : s.1 ≤ now) (htracks : Tracks minute now log cur) :
    Tracks minute now log (old ++ cur) := by
  apply htracks.append
  intro a ha
  have hpast := h.past a ha
  have hidle := minute_le_idle
  omega

theorem Limited.wait {s s' : Timed} {old cur : List ℕ} (h : Limited ip s old cur)
    (hle : s.1 ≤ s'.1) (hconfig : s'.2.config = s.2.config)
    (hlookup : s'.2.ipActivity.lookup ip = s.2.ipActivity.lookup ip) : Limited ip s' old cur where
  rate := by
    rw [hconfig]
    exact h.rate
  burst := by
    rw [hconfig]
    exact h.burst
  past a ha := (h.past a ha).trans hle
  apart := h.apart
  present := by
    have hpresent := h.present
    rw [hlookup, hconfig]
    cases hactivity : s.2.ipActivity.lookup ip with
    | none =>
      rw [hactivity] at hpresent
      exact hpresent
    | some activity =>
      rw [hactivity] at hpresent
      exact Fits.wait hpresent hle

theorem Limited.put {s s' : Timed} {old cur cur' : List ℕ} {activity : IpActivity}
    (h : Limited ip s old cur) (hle : s.1 ≤ s'.1) (hconfig : s'.2.config = s.2.config)
    (hmap : s'.2.ipActivity = s.2.ipActivity.insert ip activity)
    (hrate : Within s.2.config.maxTpsPerIp.toNat minute (old ++ cur'))
    (hapart : ∀ b ∈ cur', b ∈ cur ∨ s.1 ≤ b) (hfits : Fits s.2.config s'.1 cur' activity) :
    Limited ip s' old cur' where
  rate := by
    rw [hconfig]
    exact hrate
  burst := by
    rw [hconfig]
    exact h.burst
  past a ha := (h.past a ha).trans hle
  apart a ha b hb := by
    rcases hapart b hb with hb | hb
    · exact h.apart a ha b hb
    · exact (h.past a ha).trans hb
  present := by
    rw [hmap, lookup_insert_eq_ite, if_pos rfl, hconfig]
    exact hfits

theorem Limited.drop {s s' : Timed} {old cur : List ℕ} {activity : IpActivity}
    (h : Limited ip s old cur) (hle : s.1 ≤ s'.1) (hconfig : s'.2.config = s.2.config)
    (hlookup : s.2.ipActivity.lookup ip = some activity)
    (hidle : idle ≤ s'.1 - activity.lastActivity)
    (hgone : s'.2.ipActivity.lookup ip = none) : Limited ip s' (old ++ cur) [] := by
  have hpresent := h.present
  rw [hlookup] at hpresent
  have hfits : Fits s.2.config s.1 cur activity := hpresent
  refine ⟨?_, ?_, ?_, by simp, ?_⟩
  · rw [hconfig, List.append_nil]
    exact h.rate
  · rw [hconfig]
    apply h.burst.append (hfits.burst.mono (by omega))
    intro a ha b hb
    have hapart := h.apart a ha b hb
    have hminute := minute_le_idle
    omega
  · intro a ha
    rcases List.mem_append.mp ha with ha | ha
    · exact (h.past a ha).trans hle
    · have hlast := hfits.le_last a ha
      have hpos : 0 < idle := by decide
      omega
  · rw [hgone]
    rfl

theorem lookup_cleanup (d : SpamDetector) (now : ℕ) (order : IterOrder IpAddr IpActivity)
    (ip : IpAddr) : (d.cleanup now order).ipActivity.lookup ip =
      (d.ipActivity.lookup ip).bind fun activity =>
        if now - activity.lastActivity < idle then some activity else none :=
  lookup_retain _ order d.ipActivity ip

theorem config_step (c : Crypto) (s : Timed) (e : ℕ × Call) :
    (step c s e).2.config = s.2.config := by
  obtain ⟨delay, call⟩ := e
  cases call with
  | checkSpam tx ip => exact (checkSpam_cases c s.2 (s.1 + delay) tx ip).1
  | resetStats => rfl
  | cleanup order => rfl

theorem Limited.check {s : Timed} {old cur : List ℕ} (h : Limited ip s old cur) (c : Crypto)
    (delay : ℕ) (tx : Transaction) :
    Limited ip (step c s (delay, .checkSpam tx ip)) old
      (cur ++ if allows c ip s (delay, .checkSpam tx ip) then [s.1 + delay] else []) := by
  have hle : s.1 ≤ s.1 + delay := Nat.le_add_right _ _
  have hentry := h.entry hle
  have hallows : allows c ip s (delay, .checkSpam tx ip) =
      decide ((s.2.checkSpam c (s.1 + delay) tx ip).1 = .allowed) := by
    simp [allows]
  obtain ⟨hconfig, score, hscore, ⟨hres, hmap⟩ | ⟨hres, hmap, hroom, hburst, -⟩⟩ :=
    checkSpam_cases c s.2 (s.1 + delay) tx ip
  · rw [hallows, decide_eq_false hres, if_neg Bool.false_ne_true, List.append_nil]
    exact h.put hle hconfig hmap h.rate (fun b hb => Or.inl hb) (hentry.score hscore)
  · rw [hallows, decide_eq_true hres, if_pos rfl]
    refine h.put hle hconfig hmap ?_ ?_ (hentry.add hscore (pruned_entry _ _ _) hburst _)
    · have htracks := h.rate_room hle hentry.tracks
      rw [← List.append_assoc]
      apply h.rate.grant htracks
      rwa [pruned_entry]
    · intro b hb
      rcases List.mem_append.mp hb with hb | hb
      · exact Or.inl hb
      · exact Or.inr (List.mem_singleton.mp hb ▸ hle)

theorem Limited.step {s : Timed} {old cur : List ℕ} (h : Limited ip s old cur) (c : Crypto)
    (e : ℕ × Call) : ∃ old' cur', old' ++ cur' =
      old ++ cur ++ (if allows c ip s e then [s.1 + e.1] else []) ∧
        Limited ip (SpamDetector.step c s e) old' cur' := by
  have hle : s.1 ≤ s.1 + e.1 := Nat.le_add_right _ _
  have hconfig := config_step c s e
  obtain ⟨delay, call⟩ := e
  cases call with
  | checkSpam tx ip' =>
    by_cases hip : ip' = ip
    · subst hip
      exact ⟨old, _, (List.append_assoc _ _ _).symm, h.check c delay tx⟩
    · have hnot : allows c ip s (delay, .checkSpam tx ip') = false := by simp [allows, hip]
      refine ⟨old, cur, by simp [hnot], h.wait hle hconfig ?_⟩
      obtain ⟨-, score, -, ⟨-, hmap⟩ | ⟨-, hmap, -⟩⟩ :=
        checkSpam_cases c s.2 (s.1 + delay) tx ip'
      · exact (congrArg (Finmap.lookup ip) hmap).trans (Finmap.lookup_insert_of_ne _ (Ne.symm hip))
      · exact (congrArg (Finmap.lookup ip) hmap).trans (Finmap.lookup_insert_of_ne _ (Ne.symm hip))
  | resetStats => exact ⟨old, cur, by simp [allows], h.wait hle hconfig rfl⟩
  | cleanup order =>
    have hlookup := lookup_cleanup s.2 (s.1 + delay) order ip
    cases hactivity : s.2.ipActivity.lookup ip with
    | none =>
      rw [hactivity] at hlookup
      exact ⟨old, cur, by simp [allows], h.wait hle hconfig (hlookup.trans hactivity.symm)⟩
    | some activity =>
      rw [hactivity, Option.bind_some] at hlookup
      by_cases hfresh : s.1 + delay - activity.lastActivity < idle
      · rw [if_pos hfresh] at hlookup
        exact ⟨old, cur, by simp [allows], h.wait hle hconfig (hlookup.trans hactivity.symm)⟩
      · rw [if_neg hfresh] at hlookup
        exact ⟨old ++ cur, [], by simp [allows],
          h.drop hle hconfig hactivity (Nat.le_of_not_lt hfresh) hlookup⟩

theorem Limited.run {s : Timed} {old cur : List ℕ} (h : Limited ip s old cur) (c : Crypto)
    (es : List (ℕ × Call)) : ∃ old' cur', old' ++ cur' = old ++ cur ++ allowedTimes c ip s es ∧
      Limited ip (es.foldl (SpamDetector.step c) s) old' cur' := by
  induction es generalizing s old cur with
  | nil => exact ⟨old, cur, by simp [allowedTimes], h⟩
  | cons e es ih =>
    obtain ⟨old₁, cur₁, hsplit, hstep⟩ := h.step c e
    obtain ⟨old', cur', hrest, hrun⟩ := ih hstep
    refine ⟨old', cur', ?_, hrun⟩
    rw [hrest, hsplit, allowedTimes, List.append_assoc _ _ (allowedTimes _ _ _ _)]

def Distinct (d : SpamDetector) : Prop :=
  ∀ ip activity, d.ipActivity.lookup ip = some activity → activity.Distinct d.config

theorem Distinct.entry (h : d.Distinct) (now : ℕ) (ip : IpAddr) :
    (d.entry now ip).Distinct d.config := by
  unfold SpamDetector.entry
  cases hlookup : d.ipActivity.lookup ip with
  | none => exact ⟨by simp, by simp⟩
  | some activity => exact ⟨(h ip activity hlookup).length_le, (h ip activity hlookup).pairwise⟩

theorem Distinct.exec (h : d.Distinct) (c : Crypto) (now : ℕ) (call : Call) :
    (d.exec c now call).Distinct := by
  intro ip activity hlookup
  cases call with
  | checkSpam tx ip' =>
    have hentry := h.entry now ip'
    obtain ⟨hconfig, score, -, ⟨-, hmap⟩ | ⟨-, hmap, -, -, hfresh⟩⟩ :=
      checkSpam_cases c d now tx ip'
    all_goals
      change (d.checkSpam c now tx ip').2.ipActivity.lookup ip = some activity at hlookup
      change activity.Distinct (d.checkSpam c now tx ip').2.config
      rw [hmap, lookup_insert_eq_ite] at hlookup
      rw [hconfig]
      split_ifs at hlookup
    · obtain rfl := Option.some.inj hlookup
      exact ⟨hentry.length_le, hentry.pairwise⟩
    · exact h ip activity hlookup
    · obtain rfl := Option.some.inj hlookup
      have hrecord : IpActivity.Distinct d.config { d.entry now ip' with burstScore := score } :=
        ⟨hentry.length_le, hentry.pairwise⟩
      exact hrecord.add hfresh now
    · exact h ip activity hlookup
  | resetStats => exact h ip activity hlookup
  | cleanup order =>
    change (d.cleanup now order).ipActivity.lookup ip = some activity at hlookup
    rw [lookup_cleanup, Option.bind_eq_some_iff] at hlookup
    obtain ⟨activity', hactivity', hkept⟩ := hlookup
    split_ifs at hkept
    obtain rfl := Option.some.inj hkept
    exact h ip activity' hactivity'

theorem limited_new (config : SpamDetectionConfig) (start : ℕ) :
    Limited ip (start, new config) [] [] :=
  ⟨within_nil, within_nil, by simp, by simp, rfl⟩

theorem config_run (c : Crypto) (s : Timed) (es : List (ℕ × Call)) :
    (es.foldl (step c) s).2.config = s.2.config := by
  induction es generalizing s with
  | nil => rfl
  | cons e es ih => exact (ih (step c s e)).trans (config_step c s e)

theorem Distinct.run {s : Timed} (h : s.2.Distinct) (c : Crypto) (es : List (ℕ × Call)) :
    (es.foldl (step c) s).2.Distinct := by
  induction es generalizing s with
  | nil => exact h
  | cons e es ih => exact ih (h.exec c (s.1 + e.1) e.2)

/-- Along every run an address gets at most `max_tps_per_ip` transactions through in a minute, and
at most three over the threshold in a burst window that is no longer than a minute; and the
patterns kept of it are at most a hundred of which none is too similar to an earlier one. -/
theorem spam_limited (c : Crypto) (config : SpamDetectionConfig) (start : ℕ)
    (es : List (ℕ × Call)) (ip : IpAddr) :
    let granted := allowedTimes c ip (start, new config) es
    (∀ t, granted.countP (fun a => t ≤ a ∧ a < t + minute) ≤ config.maxTpsPerIp.toNat) ∧
      (∀ t, granted.countP (fun a => t ≤ a ∧ a < t + min config.burstWindow minute) ≤
        config.burstThreshold.toNat + 3) ∧
      ∀ activity, (es.foldl (step c) (start, new config)).2.ipActivity.lookup ip = some activity →
        activity.patterns.length ≤ 100 ∧
          activity.patterns.Pairwise fun p q => config.tooSimilar q p = false := by
  intro granted
  obtain ⟨old, cur, hsplit, h⟩ :=
    (limited_new config start : Limited ip (start, new config) [] []).run c es
  have hconfig : (es.foldl (step c) (start, new config)).2.config = config := config_run c _ es
  have hgranted : old ++ cur = granted := hsplit
  have hrate := h.rate
  have hold := h.burst
  rw [hconfig] at hrate hold
  rw [hgranted] at hrate
  refine ⟨hrate, ?_, ?_⟩
  · -- a record that is there has its score, and none stands for no transactions
    have hcur : Within (config.burstThreshold.toNat + 3) (min config.burstWindow minute) cur := by
      have hpresent := h.present
      rw [hconfig] at hpresent
      cases hlookup : (es.foldl (step c) (start, new config)).2.ipActivity.lookup ip with
      | none =>
        rw [hlookup] at hpresent
        have hnone : cur = [] := hpresent
        rw [hnone]
        exact within_nil
      | some activity =>
        rw [hlookup] at hpresent
        have hfits : Fits config _ cur activity := hpresent
        exact hfits.burst.mono (by omega)
    have hapart : ∀ a ∈ old, ∀ b ∈ cur, a + min config.burstWindow minute ≤ b := by
      intro a ha b hb
      have hidle := h.apart a ha b hb
      have hminute := minute_le_idle
      omega
    rw [← hgranted]
    exact hold.append hcur hapart
  · intro activity hlookup
    have hnew : (new config).Distinct := by
      intro ip' activity' hlookup'
      cases hlookup'
    have hdistinct := Distinct.run (s := (start, new config)) hnew c es ip activity hlookup
    rw [hconfig] at hdistinct
    exact ⟨hdistinct.length_le, hdistinct.pairwise⟩

end SpamDetector

end CytahSpeed
