import Mathlib.Algebra.GroupWithZero.Nat
import Mathlib.Data.Multiset.Sort

/-!
# Splitting at the middle element

A finite multiset over a linear order is split at its middle element: one copy of it is taken out,
what is below it goes to one side and the rest, with any further copies, to the other. The lower
sides are never more than halves, so how deep the splits go depends on the upper ones.
-/

namespace MedianSplit

variable {α : Type*} [LinearOrder α] {s : Multiset α} {m : α} {levels : ℕ}

/-- In some sorted order of the elements half of them, rounded down, come before it. -/
def IsMiddle (m : α) (s : Multiset α) : Prop :=
  ∃ before after : Multiset α, s = before + m ::ₘ after ∧ before.card = s.card / 2 ∧
    (∀ a ∈ before, a ≤ m) ∧ ∀ a ∈ after, m ≤ a

def below (m : α) (s : Multiset α) : Multiset α := s.filter (· < m)

/-- What is not below the element, less the element itself. -/
def rest (m : α) (s : Multiset α) : Multiset α := (s.filter (m ≤ ·)).erase m

/-- Splitting again and again uses up the elements within so many levels. -/
def Fits : ℕ → Multiset α → Prop
  | 0, s => s = 0
  | levels + 1, s => ∀ m, IsMiddle m s → Fits levels (below m s) ∧ Fits levels (rest m s)

/-- At every split the elements that are not below the middle one are no more than the levels
that are left have room for, the middle one included. -/
def HasRoom : ℕ → Multiset α → Prop
  | 0, _ => True
  | levels + 1, s => ∀ m, IsMiddle m s →
      (s.filter (m ≤ ·)).card ≤ 2 ^ levels ∧ HasRoom levels (below m s) ∧ HasRoom levels (rest m s)

theorem IsMiddle.mem (h : IsMiddle m s) : m ∈ s := by
  obtain ⟨before, after, rfl, -⟩ := h
  exact Multiset.mem_add.mpr (Or.inr (Multiset.mem_cons_self m after))

theorem isMiddle_of_sorted {l : List α} (hl : l.Pairwise (· ≤ ·))
    (h : l[l.length / 2]? = some m) : IsMiddle m l := by
  obtain ⟨hlt, hget⟩ := List.getElem?_eq_some_iff.mp h
  have hlist : l.take (l.length / 2) ++ m :: l.drop (l.length / 2 + 1) = l := by
    rw [← hget, ← List.drop_eq_getElem_cons hlt, List.take_append_drop]
  rw [← hlist, List.pairwise_append, List.pairwise_cons] at hl
  obtain ⟨-, ⟨hafter, -⟩, hbefore⟩ := hl
  refine ⟨l.take (l.length / 2), l.drop (l.length / 2 + 1), ?_, ?_, ?_, hafter⟩
  · rw [Multiset.cons_coe, Multiset.coe_add, hlist]
  · rw [Multiset.coe_card, Multiset.coe_card, List.length_take, min_eq_left hlt.le]
  · intro a ha
    exact hbefore a ha m List.mem_cons_self

theorem exists_isMiddle (h : s ≠ 0) : ∃ m, IsMiddle m s := by
  have hpos : 0 < s.card := Multiset.card_pos.mpr h
  have hlen : s.sort.length / 2 < s.sort.length := by
    rw [Multiset.length_sort]
    omega
  have hmiddle := isMiddle_of_sorted (Multiset.pairwise_sort s (· ≤ ·))
    (List.getElem?_eq_getElem hlen)
  rw [Multiset.sort_eq] at hmiddle
  exact ⟨_, hmiddle⟩

theorem fits_zero (levels : ℕ) : Fits levels (0 : Multiset α) := by
  cases levels with
  | zero => exact rfl
  | succ levels =>
    intro m hm
    exact absurd hm.mem (Multiset.notMem_zero m)

theorem below_of_halves {before after : Multiset α} (hafter : ∀ a ∈ after, m ≤ a) :
    below m (before + m ::ₘ after) = before.filter (· < m) := by
  have hnone : after.filter (· < m) = 0 := by
    rw [Multiset.filter_eq_nil]
    intro a ha
    exact not_lt.mpr (hafter a ha)
  have hself : (m ::ₘ after).filter (· < m) = after.filter (· < m) :=
    Multiset.filter_cons_of_neg _ (lt_irrefl m)
  rw [below, Multiset.filter_add, hself, hnone, Multiset.add_zero]

theorem card_below_le (h : IsMiddle m s) : (below m s).card ≤ s.card / 2 := by
  obtain ⟨before, after, hs, hcard, -, hafter⟩ := h
  rw [← hcard, hs, below_of_halves hafter]
  exact Multiset.card_le_card (Multiset.filter_le _ _)

theorem IsMiddle.le (h : IsMiddle m s) {m' : α} (h' : IsMiddle m' s) : m' ≤ m := by
  by_contra hlt
  rw [not_le] at hlt
  have hhalf := card_below_le h'
  obtain ⟨before, after, hs, hcard, hbefore, -⟩ := h
  have hlow : before + {m} ≤ below m' s := by
    rw [below, Multiset.le_filter]
    constructor
    · rw [hs, ← Multiset.singleton_add, ← Multiset.add_assoc]
      exact Multiset.le_add_right _ _
    · intro a ha
      rcases Multiset.mem_add.mp ha with ha | ha
      · exact (hbefore a ha).trans_lt hlt
      · rwa [Multiset.mem_singleton.mp ha]
  have hmore := Multiset.card_le_card hlow
  rw [Multiset.card_add, Multiset.card_singleton] at hmore
  omega

theorem IsMiddle.unique (h : IsMiddle m s) {m' : α} (h' : IsMiddle m' s) : m' = m :=
  le_antisymm (h.le h') (h'.le h)

theorem card_below_of_nodup (hn : s.Nodup) (h : IsMiddle m s) :
    (below m s).card = s.card / 2 := by
  obtain ⟨before, after, hs, hcard, hbefore, hafter⟩ := h
  have hnot : m ∉ before := by
    intro hmem
    rw [hs] at hn
    exact (Multiset.disjoint_left.mp (Multiset.nodup_add.mp hn).2.2) hmem
      (Multiset.mem_cons_self m after)
  have hall : before.filter (· < m) = before := by
    rw [Multiset.filter_eq_self]
    intro a ha
    exact lt_of_le_of_ne (hbefore a ha) (fun heq => hnot (heq ▸ ha))
  rw [← hcard, hs, below_of_halves hafter, hall]

theorem card_below_add (m : α) (s : Multiset α) :
    (below m s).card + (s.filter (m ≤ ·)).card = s.card := by
  have hsplit := congrArg Multiset.card (Multiset.filter_add_not (· < m) s)
  simpa only [below, not_lt, Multiset.card_add] using hsplit

theorem card_rest_add_one (h : m ∈ s) : (rest m s).card + 1 = (s.filter (m ≤ ·)).card :=
  Multiset.card_erase_add_one (Multiset.mem_filter.mpr ⟨h, le_rfl⟩)

theorem Fits.card_lt (h : Fits levels s) : s.card < 2 ^ levels := by
  induction levels generalizing s with
  | zero =>
    rw [Fits] at h
    rw [h]
    exact Nat.one_pos
  | succ levels ih =>
    by_cases hs : s = 0
    · rw [hs, Multiset.card_zero]
      exact Nat.two_pow_pos _
    · rw [Nat.pow_succ]
      obtain ⟨m, hm⟩ := exists_isMiddle hs
      obtain ⟨hbelow, hrest⟩ := h m hm
      have hlower := ih hbelow
      have hupper := ih hrest
      have hadd := card_below_add m s
      have herase := card_rest_add_one hm.mem
      omega

/-- The elements fit exactly if there is room behind every split: the lower sides are at most
halves and fit into a level less by themselves. -/
theorem fits_iff_hasRoom (h : s.card < 2 ^ levels) : Fits levels s ↔ HasRoom levels s := by
  induction levels generalizing s with
  | zero =>
    have hs : s = 0 := Multiset.card_eq_zero.mp (Nat.lt_one_iff.mp h)
    exact iff_of_true hs trivial
  | succ levels ih =>
    rw [Nat.pow_succ] at h
    apply forall_congr'
    intro m
    apply forall_congr'
    intro hm
    have hhalf := card_below_le hm
    have herase := card_rest_add_one hm.mem
    have hbelow := ih (s := below m s) (by omega)
    constructor
    · rintro ⟨hlower, hupper⟩
      have hcard := hupper.card_lt
      exact ⟨by omega, hbelow.mp hlower, (ih hcard).mp hupper⟩
    · rintro ⟨hroom, hlower, hupper⟩
      exact ⟨hbelow.mpr hlower, (ih (by omega)).mpr hupper⟩

theorem hasRoom_of_nodup (hn : s.Nodup) (h : s.card < 2 ^ levels) : HasRoom levels s := by
  induction levels generalizing s with
  | zero => exact trivial
  | succ levels ih =>
    intro m hm
    rw [Nat.pow_succ] at h
    have hhalf := card_below_of_nodup hn hm
    have hadd := card_below_add m s
    have herase := card_rest_add_one hm.mem
    refine ⟨by omega, ih (hn.filter _) (by omega), ih ((hn.filter _).erase m) (by omega)⟩

theorem Fits.count_le (h : Fits levels s) (a : α) : s.count a ≤ levels := by
  induction levels generalizing s with
  | zero =>
    rw [Fits] at h
    rw [h, Multiset.count_zero]
  | succ levels ih =>
    by_cases hs : s = 0
    · rw [hs, Multiset.count_zero]
      exact Nat.zero_le _
    · obtain ⟨m, hm⟩ := exists_isMiddle hs
      obtain ⟨hbelow, hrest⟩ := h m hm
      rcases lt_or_ge a m with hlt | hge
      · have hkept : (below m s).count a = s.count a := Multiset.count_filter_of_pos hlt
        have hcount := ih hbelow
        omega
      · have hkept : (s.filter (m ≤ ·)).count a = s.count a := Multiset.count_filter_of_pos hge
        have hcount := ih hrest
        rw [rest] at hcount
        by_cases heq : a = m
        · rw [heq, Multiset.count_erase_self, ← heq] at hcount
          rw [← heq] at hkept
          omega
        · rw [Multiset.count_erase_of_ne heq] at hcount
          omega

end MedianSplit
