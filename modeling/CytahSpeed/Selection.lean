import Mathlib.Data.List.Induction
import Mathlib.Data.List.Sort
import Mathlib.Order.Lattice

/-!
# Loops that select an element

A loop that replaces its candidate whenever the next element ranks at least as high ends with the
last element of greatest rank; a loop that replaces it whenever the next element is strictly
better under a total order ends with the best element. `IsLastMax` and `IsBest` describe the two
results without the loop, and each determines its element.
-/

namespace Selection

variable {α β : Type*}

def IsLastMax (rank : α → ℕ) (l : List α) (x : α) : Prop :=
  ∃ before after, l = before ++ x :: after ∧ (∀ y ∈ before, rank y ≤ rank x) ∧
    ∀ y ∈ after, rank y < rank x

namespace IsLastMax

variable {rank : α → ℕ} {l : List α} {x y : α}

theorem mem (h : IsLastMax rank l x) : x ∈ l := by
  obtain ⟨before, after, rfl, -, -⟩ := h
  simp

theorem le (h : IsLastMax rank l x) (hy : y ∈ l) : rank y ≤ rank x := by
  obtain ⟨before, after, rfl, hb, ha⟩ := h
  rcases List.mem_append.mp hy with hy | hy
  · exact hb y hy
  · rcases List.mem_cons.mp hy with rfl | hy
    · exact le_rfl
    · exact (ha y hy).le

theorem congr {rank' : α → ℕ} (h : IsLastMax rank l x) (hr : ∀ y ∈ l, rank y = rank' y) :
    IsLastMax rank' l x := by
  obtain ⟨before, after, rfl, hb, ha⟩ := h
  have hx := hr x (by simp)
  refine ⟨before, after, rfl, ?_, ?_⟩
  · intro y hy
    rw [← hx, ← hr y (by simp [hy])]
    exact hb y hy
  · intro y hy
    rw [← hx, ← hr y (by simp [hy])]
    exact ha y hy

theorem unique (hx : IsLastMax rank l x) (hy : IsLastMax rank l y) : x = y := by
  obtain ⟨bx, ax, hlx, hbx, hax⟩ := hx
  obtain ⟨by', ay, hly, hby, hay⟩ := hy
  rw [hlx, List.append_eq_append_iff] at hly
  -- whichever split comes first, the later element is both at most and above the earlier one
  rcases hly with ⟨t, hb, ha⟩ | ⟨t, hb, ha⟩
  · cases t with
    | nil => exact (List.cons.inj ha).1
    | cons z t =>
      obtain ⟨rfl, hz⟩ := List.cons.inj ha
      have h₁ := hby x (by rw [hb]; simp)
      have h₂ := hax y (by rw [hz]; simp)
      omega
  · cases t with
    | nil => exact (List.cons.inj ha).1.symm
    | cons z t =>
      obtain ⟨rfl, hz⟩ := List.cons.inj ha
      have h₁ := hbx y (by rw [hb]; simp)
      have h₂ := hay x (by rw [hz]; simp)
      omega

end IsLastMax

/-- The loop `if rank best ≤ rank x then best := x` over values of rank at least the start's. -/
theorem foldl_isLastMax (value : α → β) (rank : β → ℕ) (start : β) (hstart : rank start = 0)
    (l : List α) (hl : l ≠ []) :
    ∃ x, IsLastMax (fun a => rank (value a)) l x ∧
      l.foldl (fun best a => if rank best.2 ≤ rank (value a) then (some a, value a) else best)
        ((none : Option α), start) = (some x, value x) := by
  induction l using List.reverseRecOn with
  | nil => exact absurd rfl hl
  | append_singleton l a ih =>
    rw [List.foldl_append]
    by_cases he : l = []
    · subst he
      refine ⟨a, ⟨[], [], rfl, by simp, by simp⟩, ?_⟩
      simp [hstart]
    · obtain ⟨x, hx, hf⟩ := ih he
      rw [hf]
      obtain ⟨before, after, hsplit, hb, ha⟩ := hx
      have hx : IsLastMax (fun a => rank (value a)) l x := ⟨before, after, hsplit, hb, ha⟩
      by_cases hr : rank (value x) ≤ rank (value a)
      · exact ⟨a, ⟨l, [], by simp, fun y hy => (hx.le hy).trans hr, by simp⟩, by simp [hr]⟩
      · refine ⟨x, ⟨before, after ++ [a], by simp [hsplit], hb, ?_⟩, by simp [hr]⟩
        intro y hy
        rcases List.mem_append.mp hy with hy | hy
        · exact ha y hy
        · rw [List.mem_singleton.mp hy]
          exact Nat.lt_of_not_le hr

def IsFirstMax (rank : α → ℕ) (l : List α) (x : α) : Prop :=
  ∃ before after, l = before ++ x :: after ∧ (∀ y ∈ before, rank y < rank x) ∧
    ∀ y ∈ after, rank y ≤ rank x

theorem isFirstMax_iff_reverse {rank : α → ℕ} {l : List α} {x : α} :
    IsFirstMax rank l x ↔ IsLastMax rank l.reverse x := by
  constructor
  · rintro ⟨before, after, rfl, hb, ha⟩
    exact ⟨after.reverse, before.reverse, by simp, by simpa using ha, by simpa using hb⟩
  · rintro ⟨before, after, hl, hb, ha⟩
    refine ⟨after.reverse, before.reverse, ?_, by simpa using ha, by simpa using hb⟩
    rw [← List.reverse_inj, hl]
    simp

namespace IsFirstMax

variable {rank : α → ℕ} {l : List α} {x y : α}

theorem mem (h : IsFirstMax rank l x) : x ∈ l :=
  List.mem_reverse.mp (isFirstMax_iff_reverse.mp h).mem

theorem unique (hx : IsFirstMax rank l x) (hy : IsFirstMax rank l y) : x = y :=
  (isFirstMax_iff_reverse.mp hx).unique (isFirstMax_iff_reverse.mp hy)

end IsFirstMax

/-- The loop `if rank best < rank x then best := x` over values of rank above the start's. -/
theorem foldl_isFirstMax (value : α → β) (rank : β → ℕ) (start : β) (l : List α) (hl : l ≠ [])
    (hpos : ∀ x ∈ l, rank start < rank (value x)) :
    ∃ x, IsFirstMax (fun a => rank (value a)) l x ∧
      l.foldl (fun best a => if rank best.2 < rank (value a) then (some a, value a) else best)
        ((none : Option α), start) = (some x, value x) := by
  induction l using List.reverseRecOn with
  | nil => exact absurd rfl hl
  | append_singleton l a ih =>
    rw [List.foldl_append]
    by_cases he : l = []
    · subst he
      refine ⟨a, ⟨[], [], rfl, by simp, by simp⟩, ?_⟩
      simp [hpos a (by simp)]
    · obtain ⟨x, hx, hf⟩ := ih he fun y hy => hpos y (List.mem_append_left _ hy)
      rw [hf]
      have hle : ∀ y ∈ l, rank (value y) ≤ rank (value x) :=
        fun y hy => (isFirstMax_iff_reverse.mp hx).le (List.mem_reverse.mpr hy)
      by_cases hr : rank (value x) < rank (value a)
      · exact ⟨a, ⟨l, [], by simp, fun y hy => (hle y hy).trans_lt hr, by simp⟩, by simp [hr]⟩
      · obtain ⟨before, after, hsplit, hb, ha⟩ := hx
        refine ⟨x, ⟨before, after ++ [a], by simp [hsplit], hb, ?_⟩, by simp [hr]⟩
        intro y hy
        rcases List.mem_append.mp hy with hy | hy
        · exact ha y hy
        · rw [List.mem_singleton.mp hy]
          exact Nat.le_of_not_lt hr

/-- `x` has the greatest score in `l` and is the least among the elements of that score. -/
def IsBest [LinearOrder α] (score : α → ℕ) (l : List α) (x : α) : Prop :=
  x ∈ l ∧ ∀ y ∈ l, score y < score x ∨ (score y = score x ∧ x ≤ y)

theorem IsBest.unique [LinearOrder α] {score : α → ℕ} {l : List α} {x y : α}
    (hx : IsBest score l x) (hy : IsBest score l y) : x = y := by
  rcases hx.2 y hy.1 with h | ⟨h, hxy⟩
  · rcases hy.2 x hx.1 with h' | ⟨h', -⟩ <;> omega
  · rcases hy.2 x hx.1 with h' | ⟨-, hyx⟩
    · omega
    · exact le_antisymm hxy hyx

theorem IsBest.of_mem_iff [LinearOrder α] {score : α → ℕ} {l l' : List α} {x : α}
    (hx : IsBest score l x) (h : ∀ y, y ∈ l' ↔ y ∈ l) : IsBest score l' x :=
  ⟨(h x).mpr hx.1, fun y hy => hx.2 y ((h y).mp hy)⟩

theorem exists_insertionSort_eq_cons (r : α → α → Prop) [DecidableRel r] [Std.Total r]
    [IsTrans α r] {l : List α} (hl : l ≠ []) :
    ∃ x rest, l.insertionSort r = x :: rest ∧ x ∈ l ∧ ∀ y ∈ l, r x y := by
  have hperm := List.perm_insertionSort r l
  have hsorted := List.pairwise_insertionSort r l
  cases hsort : l.insertionSort r with
  | nil =>
    rw [hsort] at hperm
    exact absurd hperm.symm.eq_nil hl
  | cons x rest =>
    rw [hsort] at hperm hsorted
    refine ⟨x, rest, rfl, hperm.mem_iff.mp List.mem_cons_self, fun y hy => ?_⟩
    rcases List.mem_cons.mp (hperm.mem_iff.mpr hy) with rfl | hmem
    · exact (Std.Total.total y y).elim id id
    · exact List.rel_of_pairwise_cons hsorted hmem

theorem foldl_isBest [LinearOrder α] (score : α → ℕ) (first : α) (l : List α) :
    IsBest score (first :: l)
      (l.foldl (fun best a =>
        if score best < score a ∨ (score a = score best ∧ a < best) then a else best) first) := by
  induction l using List.reverseRecOn with
  | nil => exact ⟨by simp, by simp⟩
  | append_singleton l a ih =>
    rw [List.foldl_append, ← List.cons_append]
    generalize l.foldl (fun best a =>
      if score best < score a ∨ (score a = score best ∧ a < best) then a else best) first = x
        at ih ⊢
    rw [List.foldl_cons, List.foldl_nil]
    by_cases hr : score x < score a ∨ (score a = score x ∧ a < x)
    · rw [if_pos hr]
      refine ⟨by simp, ?_⟩
      intro y hy
      rcases List.mem_append.mp hy with hy | hy
      · rcases ih.2 y hy with h | ⟨h, hxy⟩
        · rcases hr with hr | hr <;> exact Or.inl (by omega)
        · rcases hr with hr | ⟨hs, hax⟩
          · exact Or.inl (by omega)
          · exact Or.inr ⟨by omega, hax.le.trans hxy⟩
      · rw [List.mem_singleton.mp hy]
        exact Or.inr ⟨rfl, le_rfl⟩
    · rw [if_neg hr]
      refine ⟨List.mem_append_left _ ih.1, ?_⟩
      intro y hy
      rcases List.mem_append.mp hy with hy | hy
      · exact ih.2 y hy
      · rw [List.mem_singleton.mp hy]
        push Not at hr
        by_cases hs : score a < score x
        · exact Or.inl hs
        · have he : score a = score x := by have := hr.1; omega
          exact Or.inr ⟨he, hr.2 he⟩

/-- The loop `best := max best x` ends above every value, and at one of them or at the start. -/
theorem foldl_max_rank (value : α → β) (rank : β → ℕ) (join : β → β → β)
    (hjoin : ∀ a b, rank (join a b) = max (rank a) (rank b)) (start : β) (hstart : rank start = 0)
    (l : List α) :
    (∀ x ∈ l, rank (value x) ≤ rank (l.foldl (fun best a => join best (value a)) start)) ∧
      (rank (l.foldl (fun best a => join best (value a)) start) = 0 ∨
        ∃ x ∈ l, rank (l.foldl (fun best a => join best (value a)) start) = rank (value x)) := by
  induction l using List.reverseRecOn with
  | nil => exact ⟨by simp, Or.inl hstart⟩
  | append_singleton l a ih =>
    rw [List.foldl_append]
    simp only [List.foldl_cons, List.foldl_nil, hjoin, List.mem_append, List.mem_singleton]
    generalize l.foldl (fun best a => join best (value a)) start = r at ih ⊢
    constructor
    · rintro x (hx | rfl)
      · exact (ih.1 x hx).trans (le_max_left _ _)
      · exact le_max_right _ _
    · rcases le_total (rank r) (rank (value a)) with h | h
      · exact Or.inr ⟨a, Or.inr rfl, max_eq_right h⟩
      · rw [max_eq_left h]
        rcases ih.2 with h0 | ⟨x, hx, he⟩
        · exact Or.inl h0
        · exact Or.inr ⟨x, Or.inl hx, he⟩

end Selection
