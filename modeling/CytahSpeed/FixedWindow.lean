import Mathlib.Data.List.Basic
import Mathlib.Order.Lattice
import Mathlib.Tactic.Common

/-!
# Fixed counting windows

A limiter that counts what it grants in windows of a fixed width. A window is opened by the first
request that comes when the previous one is over, so windows do not lie on a grid and requests may
be spaced in any way. Each window holds no more grants than the limit, and an interval as long as a
window meets two windows at most.
-/

namespace FixedWindow

/-- The grants in the open window and its start; nothing before the first request. -/
abbrev Counter := Option (ℕ × ℕ)

variable (limit width : ℕ)

/-- The counter that a request finds: a window that is over is opened anew. -/
def entry (s : Counter) (now : ℕ) : ℕ × ℕ :=
  let e := s.getD (0, now)
  if e.2 + width ≤ now then (0, now) else e

def ask (s : Counter) (now : ℕ) : Counter :=
  let e := entry width s now
  if limit ≤ e.1 then some e else some (e.1 + 1, e.2)

def granted : Counter → List ℕ → List (ℕ × ℕ)
  | _, [] => []
  | s, now :: nows =>
    let e := entry width s now
    if limit ≤ e.1 then granted (ask limit width s now) nows
    else (e.2, now) :: granted (ask limit width s now) nows

/-- The count is within the limit, and the window was not opened after any of the requests. -/
def Valid (s : Counter) (nows : List ℕ) : Prop :=
  ∀ e, s = some e → e.1 ≤ limit ∧ ∀ now ∈ nows, e.2 ≤ now

variable {limit width} {s : Counter} {now : ℕ} {nows : List ℕ}

theorem entry_cases (width : ℕ) (s : Counter) (now : ℕ) :
    (∃ n w, s = some (n, w) ∧ now < w + width ∧ entry width s now = (n, w)) ∨
      ((∀ n w, s = some (n, w) → w + width ≤ now) ∧ entry width s now = (0, now)) := by
  cases s with
  | none =>
    refine Or.inr ⟨fun n w h => (by cases h), ?_⟩
    simp only [entry, Option.getD_none]
    split_ifs <;> rfl
  | some e =>
    by_cases hover : e.2 + width ≤ now
    · refine Or.inr ⟨?_, if_pos hover⟩
      rintro n w h
      cases h
      exact hover
    · exact Or.inl ⟨e.1, e.2, rfl, Nat.lt_of_not_le hover, if_neg hover⟩

theorem ask_eq (h : ¬ limit ≤ (entry width s now).1) :
    ask limit width s now = some ((entry width s now).1 + 1, (entry width s now).2) := if_neg h

theorem ask_eq_of_full (h : limit ≤ (entry width s now).1) :
    ask limit width s now = some (entry width s now) := if_pos h

theorem granted_cons (h : ¬ limit ≤ (entry width s now).1) :
    granted limit width s (now :: nows) =
      ((entry width s now).2, now) :: granted limit width (ask limit width s now) nows := by
  rw [granted]
  exact if_neg h

theorem granted_cons_of_full (h : limit ≤ (entry width s now).1) :
    granted limit width s (now :: nows) = granted limit width (ask limit width s now) nows := by
  rw [granted]
  exact if_pos h

theorem entry_spec (width : ℕ) (hs : Valid limit s (now :: nows)) :
    (entry width s now).1 ≤ limit ∧ (entry width s now).2 ≤ now := by
  rcases entry_cases width s now with ⟨n, w, rfl, -, he⟩ | ⟨-, he⟩
  · rw [he]
    exact ⟨(hs _ rfl).1, (hs _ rfl).2 now List.mem_cons_self⟩
  · rw [he]
    exact ⟨Nat.zero_le _, le_rfl⟩

theorem Valid.ask (width : ℕ) (hs : Valid limit s (now :: nows)) (hnow : ∀ t ∈ nows, now ≤ t) :
    Valid limit (ask limit width s now) nows := by
  obtain ⟨hcount, hstart⟩ := entry_spec width hs
  intro e he
  by_cases hfull : limit ≤ (entry width s now).1
  · rw [ask_eq_of_full hfull] at he
    cases he
    exact ⟨hcount, fun t ht => hstart.trans (hnow t ht)⟩
  · rw [ask_eq hfull] at he
    cases he
    exact ⟨Nat.lt_of_not_le hfull, fun t ht => hstart.trans (hnow t ht)⟩

theorem mem_granted (hwidth : 0 < width) (hs : Valid limit s nows)
    (hnows : nows.Pairwise (· ≤ ·)) {g : ℕ × ℕ} (hg : g ∈ granted limit width s nows) :
    g.1 ≤ g.2 ∧ g.2 < g.1 + width := by
  induction nows generalizing s with
  | nil => cases hg
  | cons now nows ih =>
    obtain ⟨hnow, hnows⟩ := List.pairwise_cons.mp hnows
    have hrest := ih (hs.ask width hnow) hnows
    by_cases hfull : limit ≤ (entry width s now).1
    · rw [granted_cons_of_full hfull] at hg
      exact hrest hg
    · rw [granted_cons hfull] at hg
      rcases List.mem_cons.mp hg with rfl | hg
      · refine ⟨(entry_spec width hs).2, ?_⟩
        rcases entry_cases width s now with ⟨n, w, -, hlt, he⟩ | ⟨-, he⟩
        · rw [he]
          exact hlt
        · rw [he]
          exact Nat.lt_add_of_pos_right hwidth
      · exact hrest hg

theorem window_of_mem_granted {n w : ℕ} (hnows : nows.Pairwise (· ≤ ·)) {g : ℕ × ℕ}
    (hg : g ∈ granted limit width (some (n, w)) nows) : g.1 = w ∨ w + width ≤ g.1 := by
  induction nows generalizing n w with
  | nil => cases hg
  | cons now nows ih =>
    obtain ⟨hnow, hnows⟩ := List.pairwise_cons.mp hnows
    have hwindow : ∀ w', (entry width (some (n, w)) now).2 = w' → w' = w ∨ w + width ≤ w' := by
      rintro w' rfl
      rcases entry_cases width (some (n, w)) now with ⟨n', w', hs, -, he⟩ | ⟨hover, he⟩
      · cases hs
        exact Or.inl (by rw [he])
      · exact Or.inr (by rw [he]; exact hover n w rfl)
    have hlater : ∀ m w', w' = w ∨ w + width ≤ w' → g ∈ granted limit width (some (m, w')) nows →
        g.1 = w ∨ w + width ≤ g.1 := by
      rintro m w' hw' hg
      have := ih hnows hg
      omega
    by_cases hfull : limit ≤ (entry width (some (n, w)) now).1
    · rw [granted_cons_of_full hfull, ask_eq_of_full hfull] at hg
      exact hlater _ _ (hwindow _ rfl) hg
    · rw [granted_cons hfull, ask_eq hfull] at hg
      rcases List.mem_cons.mp hg with rfl | hg
      · exact hwindow _ rfl
      · exact hlater _ _ (hwindow _ rfl) hg

theorem pairwise_granted (hnows : nows.Pairwise (· ≤ ·)) :
    (granted limit width s nows).Pairwise fun a b => b.1 = a.1 ∨ a.1 + width ≤ b.1 := by
  induction nows generalizing s with
  | nil => exact List.Pairwise.nil
  | cons now nows ih =>
    obtain ⟨-, hnows⟩ := List.pairwise_cons.mp hnows
    by_cases hfull : limit ≤ (entry width s now).1
    · rw [granted_cons_of_full hfull]
      exact ih hnows
    · rw [granted_cons hfull]
      refine List.pairwise_cons.mpr ⟨?_, ih hnows⟩
      intro g hg
      rw [ask_eq hfull] at hg
      exact window_of_mem_granted hnows hg

theorem count_granted_of_over {n w : ℕ} (hwidth : 0 < width) (hover : w + width ≤ now)
    (hnows : (now :: nows).Pairwise (· ≤ ·)) :
    (granted limit width (some (n, w)) (now :: nows)).countP (·.1 = w) = 0 := by
  have hentry : entry width (some (n, w)) now = (0, now) := if_pos hover
  obtain ⟨-, hnows⟩ := List.pairwise_cons.mp hnows
  have hlater : ∀ m, ∀ g ∈ granted limit width (some (m, now)) nows, ¬ g.1 = w := by
    intro m g hg
    have := window_of_mem_granted hnows hg
    omega
  rw [List.countP_eq_zero]
  intro g hg
  rw [decide_eq_true_eq]
  by_cases hfull : limit ≤ (entry width (some (n, w)) now).1
  · rw [granted_cons_of_full hfull, ask_eq_of_full hfull, hentry] at hg
    exact hlater 0 g hg
  · rw [granted_cons hfull, ask_eq hfull, hentry] at hg
    rcases List.mem_cons.mp hg with rfl | hg
    · change ¬ now = w
      omega
    · exact hlater 1 g hg

theorem count_granted_open {n w : ℕ} (hwidth : 0 < width) (hn : n ≤ limit)
    (hnows : nows.Pairwise (· ≤ ·)) :
    (granted limit width (some (n, w)) nows).countP (·.1 = w) ≤ limit - n := by
  induction nows generalizing n with
  | nil => exact Nat.zero_le _
  | cons now nows ih =>
    by_cases hover : w + width ≤ now
    · rw [count_granted_of_over hwidth hover hnows]
      exact Nat.zero_le _
    · have hentry : entry width (some (n, w)) now = (n, w) := if_neg hover
      obtain ⟨-, hnows⟩ := List.pairwise_cons.mp hnows
      by_cases hfull : limit ≤ (entry width (some (n, w)) now).1
      · rw [granted_cons_of_full hfull, ask_eq_of_full hfull, hentry]
        exact ih hn hnows
      · rw [granted_cons hfull, ask_eq hfull, hentry, List.countP_cons_of_pos (by simp)]
        rw [hentry] at hfull
        have hrest := ih (n := n + 1) (Nat.lt_of_not_le hfull) hnows
        dsimp only at hfull ⊢
        omega

theorem count_granted_le (hwidth : 0 < width) (hs : Valid limit s nows)
    (hnows : nows.Pairwise (· ≤ ·)) (w : ℕ) :
    (granted limit width s nows).countP (·.1 = w) ≤ limit := by
  induction nows generalizing s with
  | nil => exact Nat.zero_le _
  | cons now nows ih =>
    obtain ⟨hnow, hnows⟩ := List.pairwise_cons.mp hnows
    have hrest := ih (hs.ask width hnow) hnows
    by_cases hfull : limit ≤ (entry width s now).1
    · rw [granted_cons_of_full hfull]
      exact hrest
    · rw [granted_cons hfull]
      by_cases hw : (entry width s now).2 = w
      · rw [List.countP_cons_of_pos (by simpa using hw), ask_eq hfull]
        rw [hw]
        have := count_granted_open (w := w) (n := (entry width s now).1 + 1) hwidth
          (Nat.lt_of_not_le hfull) hnows
        omega
      · rw [List.countP_cons_of_neg (by simpa using hw)]
        exact hrest

theorem length_le_of_two_windows {near : List (ℕ × ℕ)} {t : ℕ}
    (hsorted : near.Pairwise fun a b => b.1 = a.1 ∨ a.1 + width ≤ b.1)
    (hin : ∀ g ∈ near, t ≤ g.2 ∧ g.2 ≤ t + width ∧ g.1 ≤ g.2 ∧ g.2 < g.1 + width)
    (hcount : ∀ w, near.countP (·.1 = w) ≤ limit) : near.length ≤ 2 * limit := by
  cases near with
  | nil => exact Nat.zero_le _
  | cons g rest =>
    have hfirst : t < g.1 + width := by
      have := hin g List.mem_cons_self
      omega
    have hother : ((g :: rest).filter (¬ ·.1 = g.1)).length ≤ limit := by
      have hsub : ((g :: rest).filter (¬ ·.1 = g.1)).Sublist (g :: rest) := List.filter_sublist
      have hne : ∀ b ∈ (g :: rest).filter (¬ ·.1 = g.1), g.1 + width ≤ b.1 := by
        intro b hb
        obtain ⟨hb, hw⟩ := List.mem_filter.mp hb
        rw [decide_eq_true_eq] at hw
        rcases List.mem_cons.mp hb with rfl | hb
        · exact absurd rfl hw
        · exact ((List.pairwise_cons.mp hsorted).1 b hb).resolve_left hw
      have hpair := hsorted.sublist hsub
      cases hfar : (g :: rest).filter (¬ ·.1 = g.1) with
      | nil => exact Nat.zero_le _
      | cons g' far =>
        rw [hfar] at hne hsub hpair
        -- a third window would open after the interval
        have hsame : ∀ b ∈ g' :: far, b.1 = g'.1 := by
          intro b hb
          rcases List.mem_cons.mp hb with rfl | hb'
          · rfl
          · have hopen := (List.pairwise_cons.mp hpair).1 b hb'
            have hg' := hne g' List.mem_cons_self
            have hb := hin b (hsub.subset hb)
            omega
        have hall : (g' :: far).countP (·.1 = g'.1) = (g' :: far).length :=
          List.countP_eq_length.mpr fun b hb => decide_eq_true (hsame b hb)
        rw [← hall]
        exact hsub.countP_le.trans (hcount g'.1)
    have hsplit := List.length_eq_countP_add_countP (fun b : ℕ × ℕ => decide (b.1 = g.1))
      (l := g :: rest)
    have hg := hcount g.1
    have hnot : (g :: rest).countP (fun b => decide ¬ decide (b.1 = g.1) = true) =
        ((g :: rest).filter (¬ ·.1 = g.1)).length := by
      rw [List.countP_eq_length_filter]
      simp only [decide_eq_true_eq]
    omega

/-- An interval as long as a window, its ends included, holds twice as many grants at most: those
of the window it starts in and those of the next one. -/
theorem count_interval_le (hwidth : 0 < width) (hs : Valid limit s nows)
    (hnows : nows.Pairwise (· ≤ ·)) (t : ℕ) :
    (granted limit width s nows).countP (fun g => t ≤ g.2 ∧ g.2 ≤ t + width) ≤ 2 * limit := by
  have hmem : ∀ g ∈ granted limit width s nows, g.1 ≤ g.2 ∧ g.2 < g.1 + width :=
    fun g hg => mem_granted hwidth hs hnows hg
  have hpair : (granted limit width s nows).Pairwise fun a b => b.1 = a.1 ∨ a.1 + width ≤ b.1 :=
    pairwise_granted hnows
  have hcount := count_granted_le hwidth hs hnows
  generalize granted limit width s nows = l at hmem hpair hcount
  rw [List.countP_eq_length_filter]
  have hsub : (l.filter fun g => t ≤ g.2 ∧ g.2 ≤ t + width).Sublist l := List.filter_sublist
  have hin : ∀ g ∈ l.filter fun g => t ≤ g.2 ∧ g.2 ≤ t + width,
      t ≤ g.2 ∧ g.2 ≤ t + width ∧ g.1 ≤ g.2 ∧ g.2 < g.1 + width := by
    intro g hg
    obtain ⟨hg, ht⟩ := List.mem_filter.mp hg
    rw [decide_eq_true_eq] at ht
    exact ⟨ht.1, ht.2, hmem g hg⟩
  have hwindow : ∀ w, (l.filter fun g => t ≤ g.2 ∧ g.2 ≤ t + width).countP (·.1 = w) ≤ limit :=
    fun w => hsub.countP_le.trans (hcount w)
  exact length_le_of_two_windows (hpair.sublist hsub) hin hwindow

end FixedWindow
