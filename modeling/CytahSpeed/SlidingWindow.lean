import Mathlib.Data.List.Basic
import Mathlib.Order.Lattice
import Mathlib.Tactic.Common

/-!
# Sliding counting windows

A limiter that keeps a log of the times at which it granted a request and forgets an entry once it
is a window old. The log may hold old entries for as long as nobody looks. What it must not lose
are the grants of the last window: then a request that is granted only while the log is shorter
than the limit never puts more grants than the limit into an interval as long as a window, wherever
the interval lies.
-/

namespace SlidingWindow

variable (limit width : ℕ)

def recent (now : ℕ) (log : List ℕ) : List ℕ := log.filter fun a => now - a < width

/-- The log agrees with the grants on the last window, and no grant lies ahead. -/
structure Tracks (now : ℕ) (log granted : List ℕ) : Prop where
  recent_eq : recent width now log = recent width now granted
  le_now : ∀ a ∈ granted, a ≤ now

/-- An interval of a window's width, without its end, holds no more grants than the limit. -/
def Within (granted : List ℕ) : Prop :=
  ∀ t, granted.countP (fun a => t ≤ a ∧ a < t + width) ≤ limit

variable {limit width} {now later : ℕ} {log granted : List ℕ}

theorem tracks_nil (now : ℕ) : Tracks width now [] [] :=
  ⟨rfl, fun a ha => by cases ha⟩

theorem recent_recent (h : now ≤ later) :
    recent width later (recent width now log) = recent width later log := by
  unfold recent
  rw [List.filter_filter]
  apply List.filter_congr
  intro a ha
  rw [Bool.eq_iff_iff, Bool.and_eq_true, decide_eq_true_eq, decide_eq_true_eq]
  omega

theorem Tracks.wait (h : Tracks width now log granted) (hle : now ≤ later) :
    Tracks width later log granted := by
  refine ⟨?_, fun a ha => (h.le_now a ha).trans hle⟩
  rw [← recent_recent hle, h.recent_eq, recent_recent hle]

theorem Tracks.prune (h : Tracks width now log granted) :
    Tracks width now (recent width now log) granted := by
  refine ⟨?_, h.le_now⟩
  rw [recent_recent le_rfl, h.recent_eq]

theorem Tracks.grant (h : Tracks width now log granted) :
    Tracks width now (log ++ [now]) (granted ++ [now]) := by
  constructor
  · have hrecent := h.recent_eq
    unfold recent at hrecent ⊢
    rw [List.filter_append, List.filter_append, hrecent]
  · intro a ha
    rcases List.mem_append.mp ha with ha | ha
    · exact h.le_now a ha
    · exact le_of_eq (List.mem_singleton.mp ha)

theorem within_nil : Within limit width [] := fun _ => Nat.zero_le _

/-- A grant while the log has room keeps every interval within the limit. -/
theorem Within.grant (h : Within limit width granted) (htracks : Tracks width now log granted)
    (hroom : (recent width now log).length < limit) : Within limit width (granted ++ [now]) := by
  intro t
  rw [List.countP_append]
  by_cases hin : t ≤ now ∧ now < t + width
  · -- the grants of an interval around now are the recent ones
    have hcount : granted.countP (fun a => t ≤ a ∧ a < t + width) ≤
        (recent width now granted).length := by
      rw [List.countP_eq_length_filter]
      apply List.Sublist.length_le
      apply List.monotone_filter_right
      intro a ha
      rw [decide_eq_true_eq] at ha ⊢
      omega
    have hone : [now].countP (fun a => t ≤ a ∧ a < t + width) = 1 := by
      rw [List.countP_singleton, if_pos (decide_eq_true hin)]
    rw [← htracks.recent_eq] at hcount
    omega
  · have hnone : [now].countP (fun a => t ≤ a ∧ a < t + width) = 0 := by
      rw [List.countP_singleton, if_neg (by rw [decide_eq_true_eq]; exact hin)]
    have hold := h t
    omega

section Append
variable {old cur : List ℕ}

theorem recent_recent_min (width' : ℕ) (now : ℕ) (log : List ℕ) :
    recent width now (recent width' now log) = recent (min width width') now log := by
  unfold recent
  rw [List.filter_filter]
  apply List.filter_congr
  intro a _
  rw [Bool.eq_iff_iff, Bool.and_eq_true, decide_eq_true_eq, decide_eq_true_eq, decide_eq_true_eq]
  omega

theorem Tracks.narrow {width' : ℕ} (h : Tracks width now log granted) (hle : width' ≤ width) :
    Tracks width' now log granted := by
  refine ⟨?_, h.le_now⟩
  have hmin : min width' width = width' := min_eq_left hle
  rw [← hmin, ← recent_recent_min, h.recent_eq, recent_recent_min]

/-- Grants that a window has passed need not be logged. -/
theorem Tracks.append (h : Tracks width now log cur) (hold : ∀ a ∈ old, a + width ≤ now) :
    Tracks width now log (old ++ cur) := by
  constructor
  · rw [h.recent_eq]
    unfold recent
    have hnone : old.filter (fun a => now - a < width) = [] := by
      rw [List.filter_eq_nil_iff]
      intro a ha
      have hle := hold a ha
      rw [decide_eq_true_eq]
      omega
    rw [List.filter_append, hnone, List.nil_append]
  · intro a ha
    rcases List.mem_append.mp ha with ha | ha
    · have hle := hold a ha
      omega
    · exact h.le_now a ha

theorem Within.append (hold : Within limit width old) (hcur : Within limit width cur)
    (hapart : ∀ a ∈ old, ∀ b ∈ cur, a + width ≤ b) : Within limit width (old ++ cur) := by
  intro t
  rw [List.countP_append]
  by_cases hnone : cur.countP (fun a => t ≤ a ∧ a < t + width) = 0
  · rw [hnone]
    exact hold t
  · obtain ⟨b, hb, hin⟩ := List.countP_pos_iff.mp (Nat.pos_of_ne_zero hnone)
    rw [decide_eq_true_eq] at hin
    have hempty : old.countP (fun a => t ≤ a ∧ a < t + width) = 0 := by
      rw [List.countP_eq_zero]
      intro a ha
      have hle := hapart a ha b hb
      rw [decide_eq_true_eq]
      omega
    rw [hempty, Nat.zero_add]
    exact hcur t

theorem Within.mono {limit' : ℕ} (h : Within limit width cur) (hle : limit ≤ limit') :
    Within limit' width cur :=
  fun t => (h t).trans hle

theorem Within.succ (h : Within limit width cur) (now : ℕ) :
    Within (limit + 1) width (cur ++ [now]) := by
  intro t
  rw [List.countP_append, List.countP_singleton]
  have hle := h t
  split_ifs <;> omega

end Append

end SlidingWindow
