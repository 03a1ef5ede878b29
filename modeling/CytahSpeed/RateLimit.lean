import CytahSpeed.FixedWindow
import CytahSpeed.Mempool

/-!
# The rate limit

The pool counts the calls of each source in windows of sixty seconds. A call is counted before
anything else about it is checked, and no other call touches the entry, so that the calls of one
source run a fixed-window limiter of their own.
-/

namespace CytahSpeed
open ByteString FiniteMap

namespace TxDagMempool

/-- The latest time that `chrono::Utc::now` returns, in seconds; the earliest is zero. -/
def utcMax : UInt64 := 8210266876799

def PoolCall.reading : PoolCall → Option UInt64
  | .addTransaction env _ _ (some _) => some env.window
  | _ => none

def PoolCall.readingOf (src : String) : PoolCall → Option UInt64
  | .addTransaction env _ _ source => if source = some src then some env.window else none
  | _ => none

variable (c : Crypto) (src : String)

/-- The calls of a source that get past the check, each with the start of the window it is counted
in and the time of the call. -/
def passes : TxDagMempool → List PoolCall → List (UInt64 × UInt64)
  | _, [] => []
  | m, call :: calls =>
    match call.readingOf src with
    | none => passes (m.exec c call) calls
    | some now =>
      match (m.limitRate (some src) now).1 with
      | .error _ => passes (m.exec c call) calls
      | .ok _ => ((m.rateEntry src now).2, now) :: passes (m.exec c call) calls

def counter (m : TxDagMempool) : FixedWindow.Counter :=
  (m.rateLimits.lookup src).map fun e => (e.1, e.2.toNat)

def ClockRange (m : TxDagMempool) : Prop :=
  ∀ src e, m.rateLimits.lookup src = some e → e.2 ≤ utcMax

variable {c src} {m : TxDagMempool} {now : UInt64}

theorem PoolCall.reading_of_readingOf {call : PoolCall} (h : call.readingOf src = some now) :
    call.reading = some now := by
  cases call with
  | addTransaction env tx parents source =>
    simp only [readingOf] at h
    split_ifs at h with hsource
    rw [hsource]
    exact h
  | removeTransaction h' => cases h
  | setBaseFee fee => cases h
  | clear => cases h

theorem rateLimits_addTransaction (m : TxDagMempool) (env : PoolEnv) (tx : Transaction)
    (parents : List TxId) (source : Option String) :
    (m.addTransaction c env tx parents source).2.rateLimits =
      (m.limitRate source env.window).2.rateLimits := by
  have hroom : ∀ m' : TxDagMempool, (m'.makeRoom env.order tx).2.rateLimits = m'.rateLimits := by
    intro m'
    unfold makeRoom
    split_ifs
    · split
      · split_ifs <;> rfl
      · rfl
    · rfl
  unfold addTransaction
  cases hlimit : m.limitRate source env.window with
  | mk result m₁ =>
    cases result with
    | error e => rfl
    | ok u =>
      have hmade := hroom m₁
      cases hmake : m₁.makeRoom env.order tx with
      | mk made m₂ =>
        rw [hmake] at hmade
        cases made with
        | error e =>
          simp only [hmake]
          exact hmade
        | ok u =>
          simp only [hmake]
          cases m₂.checkAdmission c env.state tx <;> exact hmade

theorem rateLimits_removeTransaction (m : TxDagMempool) (h : TxId) :
    (m.removeTransaction h).2.rateLimits = m.rateLimits := by
  cases ht : m.transactions.lookup h with
  | none => rw [removeTransaction_of_none ht]
  | some t => rw [removeTransaction_of_some ht]

theorem lookup_limitRate (m : TxDagMempool) (source : Option String) (now : UInt64) :
    (m.limitRate source now).2.rateLimits.lookup src =
      if source = some src then
        some (if maxTxPerSource ≤ (m.rateEntry src now).1 then m.rateEntry src now
          else ((m.rateEntry src now).1 + 1, (m.rateEntry src now).2))
      else m.rateLimits.lookup src := by
  cases source with
  | none => rfl
  | some src' =>
    by_cases hsrc : src' = src
    · subst hsrc
      rw [if_pos rfl]
      unfold limitRate
      by_cases hfull : maxTxPerSource ≤ (m.rateEntry src' now).1
      · simp [hfull]
      · simp [hfull]
    · rw [if_neg fun h => hsrc (Option.some.inj h)]
      have hne : src ≠ src' := fun h => hsrc h.symm
      unfold limitRate
      by_cases hfull : maxTxPerSource ≤ (m.rateEntry src' now).1
      · simp [hfull, Finmap.lookup_insert_of_ne _ hne]
      · simp [hfull, Finmap.lookup_insert_of_ne _ hne]

theorem lookup_exec (c : Crypto) (src : String) (m : TxDagMempool) (call : PoolCall) :
    (m.exec c call).rateLimits.lookup src =
      match call.readingOf src with
      | none => m.rateLimits.lookup src
      | some now => some (if maxTxPerSource ≤ (m.rateEntry src now).1 then m.rateEntry src now
          else ((m.rateEntry src now).1 + 1, (m.rateEntry src now).2)) := by
  cases call with
  | addTransaction env tx parents source =>
    change (m.addTransaction c env tx parents source).2.rateLimits.lookup src = _
    rw [rateLimits_addTransaction, lookup_limitRate]
    by_cases hsource : source = some src
    · simp only [PoolCall.readingOf, if_pos hsource]
    · simp only [PoolCall.readingOf, if_neg hsource]
  | removeTransaction h =>
    change (m.removeTransaction h).2.rateLimits.lookup src = _
    rw [rateLimits_removeTransaction]
    rfl
  | setBaseFee fee => rfl
  | clear => rfl

theorem limitRate_some (m : TxDagMempool) (src : String) (now : UInt64) :
    (m.limitRate (some src) now).1 = if maxTxPerSource ≤ (m.rateEntry src now).1
      then .error "Rate limit exceeded for source" else .ok () := by
  unfold limitRate
  by_cases hfull : maxTxPerSource ≤ (m.rateEntry src now).1
  · simp [hfull]
  · simp [hfull]

theorem entry_counter (hm : m.ClockRange) (hnow : now ≤ utcMax) (src : String) :
    FixedWindow.entry rateLimitWindowSecs.toNat (m.counter src) now.toNat =
        ((m.rateEntry src now).1, (m.rateEntry src now).2.toNat) ∧
      (m.rateEntry src now).2 ≤ utcMax := by
  have hadd : ∀ w : UInt64, w ≤ utcMax →
      (w + rateLimitWindowSecs ≤ now ↔ w.toNat + rateLimitWindowSecs.toNat ≤ now.toNat) := by
    intro w hw
    have hbound : w.toNat ≤ 8210266876799 := UInt64.le_iff_toNat_le.mp hw
    have hwidth : rateLimitWindowSecs.toNat = 60 := rfl
    rw [UInt64.le_iff_toNat_le, MachineInt.toNat_add_of_lt (by omega)]
  have hstart : ((m.rateLimits.lookup src).getD (0, now)).2 ≤ utcMax := by
    cases he : m.rateLimits.lookup src with
    | none => exact hnow
    | some e => exact hm src e he
  have hgetD : (m.counter src).getD (0, now.toNat) =
      (((m.rateLimits.lookup src).getD (0, now)).1,
        ((m.rateLimits.lookup src).getD (0, now)).2.toNat) := by
    unfold counter
    cases m.rateLimits.lookup src <;> rfl
  unfold FixedWindow.entry rateEntry
  simp only [hgetD, ← hadd _ hstart]
  split_ifs
  · exact ⟨rfl, hnow⟩
  · exact ⟨rfl, hstart⟩

theorem ClockRange.exec (hm : m.ClockRange) {call : PoolCall}
    (hcall : ∀ now, call.reading = some now → now ≤ utcMax) : (m.exec c call).ClockRange := by
  intro src e he
  rw [lookup_exec] at he
  cases hread : call.readingOf src with
  | none =>
    rw [hread] at he
    exact hm src e he
  | some now =>
    have hnow := hcall now (PoolCall.reading_of_readingOf hread)
    obtain ⟨-, hstart⟩ := entry_counter hm hnow src
    rw [hread] at he
    simp only [Option.some.injEq] at he
    split_ifs at he <;> rw [← he] <;> exact hstart

/-- The calls of a source that pass are the requests that the limiter grants. -/
theorem passes_eq_granted (c : Crypto) (src : String) (m : TxDagMempool) (calls : List PoolCall)
    (hm : m.ClockRange) (hcalls : ∀ now ∈ calls.filterMap PoolCall.reading, now ≤ utcMax) :
    (passes c src m calls).map (fun p => (p.1.toNat, p.2.toNat)) =
      FixedWindow.granted maxTxPerSource rateLimitWindowSecs.toNat (m.counter src)
        ((calls.filterMap (PoolCall.readingOf src)).map UInt64.toNat) := by
  induction calls generalizing m with
  | nil => rfl
  | cons call calls ih =>
    have hcall : ∀ now, call.reading = some now → now ≤ utcMax := fun now h =>
      hcalls now (List.mem_filterMap.mpr ⟨call, List.mem_cons_self, h⟩)
    have hrest := ih (m.exec c call) (hm.exec hcall) fun now h => by
      obtain ⟨call', hmem, hread⟩ := List.mem_filterMap.mp h
      exact hcalls now (List.mem_filterMap.mpr ⟨call', List.mem_cons_of_mem _ hmem, hread⟩)
    have hlookup := lookup_exec c src m call
    cases hread : call.readingOf src with
    | none =>
      rw [hread] at hlookup
      rw [passes, hread, List.filterMap_cons_none hread, hrest, counter, hlookup]
      rfl
    | some now =>
      have hnow := hcall now (PoolCall.reading_of_readingOf hread)
      obtain ⟨hentry, -⟩ := entry_counter hm hnow src
      rw [hread] at hlookup
      rw [passes, hread, List.filterMap_cons_some hread, List.map_cons]
      simp only [limitRate_some]
      by_cases hfull : maxTxPerSource ≤ (m.rateEntry src now).1
      · rw [FixedWindow.granted_cons_of_full (by rw [hentry]; exact hfull),
          FixedWindow.ask_eq_of_full (by rw [hentry]; exact hfull), hentry]
        simp only [if_pos hfull] at hlookup ⊢
        rw [hrest, counter, hlookup]
        rfl
      · rw [FixedWindow.granted_cons (by rw [hentry]; exact hfull),
          FixedWindow.ask_eq (by rw [hentry]; exact hfull), hentry]
        simp only [if_neg hfull] at hlookup ⊢
        rw [List.map_cons, hrest, counter, hlookup]
        rfl

/-- At times that do not decrease, the calls of a source that get past the check number a hundred
at most in a window and two hundred at most in any sixty seconds. No call of another source, and
none without a source, changes the count. -/
theorem rateLimit_bounds (c : Crypto) (maxSize : ℕ) (minGasPrice : UInt64) (calls : List PoolCall)
    (hrange : ∀ now ∈ calls.filterMap PoolCall.reading, now ≤ utcMax)
    (hmono : (calls.filterMap PoolCall.reading).Pairwise (· ≤ ·)) (src : String) :
    (∀ t : ℕ, (passes c src (new maxSize minGasPrice) calls).countP (fun p =>
        t ≤ p.2.toNat ∧ p.2.toNat ≤ t + rateLimitWindowSecs.toNat) ≤ 2 * maxTxPerSource) ∧
      (∀ w, (passes c src (new maxSize minGasPrice) calls).countP (·.1 = w) ≤ maxTxPerSource) ∧
      ∀ (m : TxDagMempool) (env : PoolEnv) (tx : Transaction) (parents : List TxId)
        (source : Option String), source ≠ some src →
          (m.addTransaction c env tx parents source).2.rateLimits.lookup src =
            m.rateLimits.lookup src := by
  have hclock : (new maxSize minGasPrice).ClockRange := by
    intro src e he
    cases he
  have hgranted := passes_eq_granted c src _ calls hclock hrange
  have hvalid : FixedWindow.Valid maxTxPerSource ((new maxSize minGasPrice).counter src)
      ((calls.filterMap (PoolCall.readingOf src)).map UInt64.toNat) := by
    intro e he
    cases he
  have hsorted : ((calls.filterMap (PoolCall.readingOf src)).map UInt64.toNat).Pairwise
      (· ≤ ·) := by
    rw [List.pairwise_filterMap] at hmono
    rw [List.pairwise_map, List.pairwise_filterMap]
    refine hmono.imp ?_
    intro a b hab now ha now' hb
    exact UInt64.le_iff_toNat_le.mp (hab now (PoolCall.reading_of_readingOf ha) now'
      (PoolCall.reading_of_readingOf hb))
  have hwidth : 0 < rateLimitWindowSecs.toNat := by decide
  refine ⟨?_, ?_, ?_⟩
  · intro t
    have hcount := FixedWindow.count_interval_le hwidth hvalid hsorted t
    rw [← hgranted, List.countP_map] at hcount
    exact hcount
  · intro w
    have hcount := FixedWindow.count_granted_le hwidth hvalid hsorted w.toNat
    rw [← hgranted, List.countP_map] at hcount
    refine (List.countP_mono_left ?_).trans hcount
    intro p _ hp
    rw [decide_eq_true_eq] at hp
    simp [hp]
  · intro m env tx parents source hsource
    rw [rateLimits_addTransaction, lookup_limitRate, if_neg hsource]

def sampleSourced : List PoolCall :=
  [(0, "a"), (59, "a"), (59, "b"), (60, "a")].map fun call =>
    .addTransaction ⟨.new .hashOnly .sorted, .sorted, call.1, call.1⟩
      (.newTransfer (Bytes.zero 20) (Bytes.zero 20) 1 0 0 0) [] (some call.2)

theorem readings_sampleSourced :
    sampleSourced.filterMap PoolCall.reading = [0, 59, 59, 60] := rfl

theorem rateLimit_bounds_sourced :
    (passes .hashOnly "a" (new 1 1) sampleSourced = [(0, 0), (0, 59), (60, 60)]) ∧
      ∀ w, (passes .hashOnly "a" (new 1 1) sampleSourced).countP (·.1 = w) ≤ maxTxPerSource := by
  have hrange : ∀ now ∈ sampleSourced.filterMap PoolCall.reading, now ≤ utcMax := by
    rw [readings_sampleSourced]
    intro now hnow
    simp only [List.mem_cons, List.not_mem_nil, or_false] at hnow
    rcases hnow with rfl | rfl | rfl | rfl <;> decide
  have hmono : (sampleSourced.filterMap PoolCall.reading).Pairwise (· ≤ ·) := by
    rw [readings_sampleSourced]
    decide
  exact ⟨by decide +kernel, (rateLimit_bounds .hashOnly 1 1 sampleSourced hrange hmono "a").2.1⟩

end TxDagMempool

end CytahSpeed
