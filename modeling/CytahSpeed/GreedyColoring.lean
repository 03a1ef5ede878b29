import Mathlib.Data.Finset.Card
import Mathlib.Data.Finset.Lattice.Fold
import Mathlib.Data.Finset.Range
import Mathlib.Data.List.GetD
import Mathlib.Order.Lattice.Nat

/-!
# Greedy colouring in place

The vertices of a graph on `0 .. n - 1` are coloured in order, each with the least colour that no
neighbour holds, in one array that starts at zero. A vertex that has a later neighbour sees that
neighbour's initial zero, so colour zero goes to the vertices without later neighbours, and the
others are coloured greedily from one. Classes ordered by their first vertex respect the order of
every edge exactly when the graph is `Levelled`.
-/

namespace GreedyColoring

section Mex

/-- The loop `while forbidden.contains(&color) { color += 1 }`. -/
def firstFree (forbidden : Finset ℕ) : ℕ → ℕ → ℕ
  | 0, color => color
  | fuel + 1, color =>
    if color ∈ forbidden then firstFree forbidden fuel (color + 1) else color

def mex (forbidden : Finset ℕ) : ℕ := firstFree forbidden forbidden.card 0

theorem firstFree_spec (forbidden : Finset ℕ) (fuel color : ℕ)
    (hfuel : forbidden.card ≤ fuel + color) (hpassed : ∀ x < color, x ∈ forbidden) :
    firstFree forbidden fuel color ∉ forbidden ∧
      ∀ x < firstFree forbidden fuel color, x ∈ forbidden := by
  induction fuel generalizing color with
  | zero =>
    refine ⟨?_, hpassed⟩
    intro hmem
    have hsub : Finset.range (color + 1) ⊆ forbidden := by
      intro x hx
      have hlt := Finset.mem_range.mp hx
      by_cases hxc : x = color
      · rw [hxc]
        exact hmem
      · exact hpassed x (by omega)
    have hcard := Finset.card_le_card hsub
    rw [Finset.card_range] at hcard
    omega
  | succ fuel ih =>
    rw [firstFree]
    by_cases hmem : color ∈ forbidden
    · rw [if_pos hmem]
      apply ih _ (by omega)
      intro x hx
      by_cases hxc : x = color
      · rw [hxc]
        exact hmem
      · exact hpassed x (by omega)
    · rw [if_neg hmem]
      exact ⟨hmem, hpassed⟩

theorem mex_notMem (forbidden : Finset ℕ) : mex forbidden ∉ forbidden :=
  (firstFree_spec forbidden forbidden.card 0 (by omega) (by simp)).1

theorem mem_of_lt_mex {forbidden : Finset ℕ} {x : ℕ} (h : x < mex forbidden) : x ∈ forbidden :=
  (firstFree_spec forbidden forbidden.card 0 (by omega) (by simp)).2 x h

theorem mex_eq {forbidden : Finset ℕ} {m : ℕ} (hm : m ∉ forbidden)
    (hlt : ∀ x < m, x ∈ forbidden) : mex forbidden = m := by
  rcases Nat.lt_trichotomy (mex forbidden) m with h | h | h
  · exact absurd (hlt _ h) (mex_notMem forbidden)
  · exact h
  · exact absurd (mem_of_lt_mex h) hm

end Mex

section Colours
variable (nbrs : ℕ → Finset ℕ)

def colourStep (colors : List ℕ) (i : ℕ) : List ℕ :=
  colors.set i (mex ((nbrs i).image fun j => colors.getD j 0))

def coloursUpTo (n k : ℕ) : List ℕ := (List.range k).foldl (colourStep nbrs) (List.replicate n 0)

theorem coloursUpTo_succ (n k : ℕ) :
    coloursUpTo nbrs n (k + 1) = colourStep nbrs (coloursUpTo nbrs n k) k := by
  rw [coloursUpTo, List.range_succ, List.foldl_append]
  rfl

theorem length_coloursUpTo (n k : ℕ) : (coloursUpTo nbrs n k).length = n := by
  induction k with
  | zero => simp [coloursUpTo]
  | succ k ih => rw [coloursUpTo_succ, colourStep, List.length_set, ih]

theorem getD_colourStep (colors : List ℕ) (i j : ℕ) (hi : i < colors.length) :
    (colourStep nbrs colors i).getD j 0 =
      if j = i then mex ((nbrs i).image fun j => colors.getD j 0) else colors.getD j 0 := by
  unfold colourStep
  by_cases hj : j = i
  · subst hj
    simp [List.getD_eq_getElem?_getD, hi]
  · rw [if_neg hj]
    simp [List.getD_eq_getElem?_getD, List.getElem?_set_ne (Ne.symm hj)]

/-- Vertices not reached yet hold zero; a coloured vertex saw its earlier neighbours' colours and
zero for the later ones. -/
theorem coloursUpTo_spec (n k : ℕ) (hk : k ≤ n) :
    (∀ j, k ≤ j → (coloursUpTo nbrs n k).getD j 0 = 0) ∧
      ∀ i < k, (coloursUpTo nbrs n k).getD i 0 =
        mex ((nbrs i).image fun j => if j < i then (coloursUpTo nbrs n k).getD j 0 else 0) := by
  induction k with
  | zero =>
    refine ⟨?_, by simp⟩
    intro j _
    simp only [coloursUpTo, List.range_zero, List.foldl_nil, List.getD_eq_getElem?_getD,
      List.getElem?_replicate]
    split <;> rfl
  | succ k ih =>
    obtain ⟨hzero, hdone⟩ := ih (by omega)
    have hlen : k < (coloursUpTo nbrs n k).length := by
      rw [length_coloursUpTo]
      omega
    have hget := fun j => getD_colourStep nbrs (coloursUpTo nbrs n k) k j hlen
    rw [coloursUpTo_succ]
    constructor
    · intro j hj
      rw [hget, if_neg (by omega)]
      exact hzero j (by omega)
    · intro i hi
      -- entries below `k` are not touched by the step at `k`
      have hbelow : ∀ j < k, (colourStep nbrs (coloursUpTo nbrs n k) k).getD j 0 =
          (coloursUpTo nbrs n k).getD j 0 := by
        intro j hj
        rw [hget, if_neg (by omega)]
      by_cases hik : i = k
      · subst hik
        rw [hget, if_pos rfl]
        congr 1
        apply Finset.image_congr
        intro j _
        by_cases hj : j < i
        · simp only [if_pos hj, hbelow j hj]
        · simp only [if_neg hj]
          exact hzero j (by omega)
      · rw [hbelow i (by omega), hdone i (by omega)]
        congr 1
        apply Finset.image_congr
        intro j _
        by_cases hj : j < i
        · simp only [if_pos hj, hbelow j (by omega)]
        · simp only [if_neg hj]

end Colours

section Levels
variable (adj : ℕ → ℕ → Prop) [DecidableRel adj]

def levels : ℕ → List ℕ
  | 0 => []
  | k + 1 =>
    levels k ++ [1 + (Finset.range k).sup fun j => if adj k j then (levels k).getD j 0 else 0]

/-- One more than the greatest level of an earlier neighbour. -/
def level (i : ℕ) : ℕ := (levels adj (i + 1)).getD i 0

theorem length_levels (k : ℕ) : (levels adj k).length = k := by
  induction k with
  | zero => rfl
  | succ k ih => simp [levels, ih]

theorem getD_levels (k j : ℕ) (hj : j < k) : (levels adj k).getD j 0 = level adj j := by
  induction k with
  | zero => omega
  | succ k ih =>
    by_cases hjk : j = k
    · rw [hjk, level]
    · rw [levels, List.getD_append _ _ _ _ (by rw [length_levels]; omega)]
      exact ih (by omega)

theorem level_eq (i : ℕ) :
    level adj i = 1 + (Finset.range i).sup fun j => if adj i j then level adj j else 0 := by
  rw [level, levels, List.getD_append_right _ _ _ _ (by rw [length_levels]), length_levels,
    Nat.sub_self, List.getD_cons_zero]
  congr 1
  apply Finset.sup_congr rfl
  intro j hj
  rw [getD_levels adj i j (Finset.mem_range.mp hj)]

theorem level_pos (i : ℕ) : 0 < level adj i := by
  rw [level_eq]
  omega

theorem level_lt {i j : ℕ} (hji : j < i) (hadj : adj i j) : level adj j < level adj i := by
  rw [level_eq adj i]
  have hle := Finset.le_sup (f := fun j => if adj i j then level adj j else 0)
    (Finset.mem_range.mpr hji)
  simp only [if_pos hadj] at hle
  omega

theorem level_le {i m : ℕ} (h : ∀ j < i, adj i j → level adj j < m) (hm : 0 < m) :
    level adj i ≤ m := by
  rw [level_eq]
  have hsup : ((Finset.range i).sup fun j => if adj i j then level adj j else 0) ≤ m - 1 := by
    apply Finset.sup_le
    intro j hj
    by_cases hadj : adj i j
    · rw [if_pos hadj]
      have := h j (Finset.mem_range.mp hj) hadj
      omega
    · rw [if_neg hadj]
      exact Nat.zero_le _
  omega

def HasLater (n i : ℕ) : Prop := ∃ j, i < j ∧ j < n ∧ adj i j

/-- A vertex with later neighbours has an earlier neighbour on every level below its own, and a
neighbour of a later vertex without later neighbours shares its level with a vertex that precedes
all those without later neighbours. -/
structure Levelled (n : ℕ) : Prop where
  dense : ∀ j < n, HasLater adj n j → ∀ d, 0 < d → d < level adj j →
    ∃ i < j, adj j i ∧ level adj i = d
  early : ∀ i j, i < j → j < n → adj i j → ¬ HasLater adj n j →
    ∃ k < n, level adj k = level adj i ∧ ∀ f < n, ¬ HasLater adj n f → k < f

/-- The vertices with later neighbours come first, by level; vertices of one level, and those
without later neighbours, are related by `rel` in their order. -/
structure Arranged (n : ℕ) (rel : ℕ → ℕ → Prop) : Prop where
  levelled : Levelled adj n
  rising : ∀ i j, i < j → j < n → HasLater adj n j →
    HasLater adj n i ∧ level adj i ≤ level adj j
  within : ∀ i j, i < j → j < n → HasLater adj n i → HasLater adj n j →
    level adj i = level adj j → rel i j
  final : ∀ i j, i < j → j < n → ¬ HasLater adj n i → ¬ HasLater adj n j → rel i j

theorem levelled_of_le_two {n : ℕ} (hn : n ≤ 2) : Levelled adj n := by
  constructor
  · intro j hj hlater d hd hlt
    obtain ⟨k, hjk, hkn, -⟩ := hlater
    obtain rfl : j = 0 := by omega
    rw [level_eq, Finset.range_zero, Finset.sup_empty] at hlt
    change d < 1 + 0 at hlt
    omega
  · intro i j hij hj hadj hfinal
    obtain ⟨rfl, rfl⟩ : i = 0 ∧ j = 1 := by omega
    refine ⟨0, by omega, rfl, ?_⟩
    intro f hf hff
    rw [Nat.pos_iff_ne_zero]
    rintro rfl
    exact hff ⟨1, by omega, hj, hadj⟩

/-- The class of colour `x` begins before every vertex of colour `y`. -/
def Before (n : ℕ) (color : ℕ → ℕ) (x y : ℕ) : Prop :=
  ∃ k < n, color k = x ∧ ∀ m < n, color m = y → k < m

variable {adj} {n : ℕ} {color : ℕ → ℕ} (hsymm : ∀ i j, adj i j → adj j i)
  (hirr : ∀ i, ¬ adj i i)
  (hcolor : ∀ i < n, color i = mex (((Finset.range n).filter (adj i)).image
    fun j => if j < i then color j else 0))

theorem Before.asymm {x y : ℕ} (h : Before n color x y) (h' : Before n color y x) : False := by
  obtain ⟨k, hk, hkx, hall⟩ := h
  obtain ⟨k', hk', hky, hall'⟩ := h'
  have h₁ := hall k' hk' hky
  have h₂ := hall' k hk hkx
  omega

include hcolor

theorem color_pos {i : ℕ} (hi : i < n) (h : HasLater adj n i) : 0 < color i := by
  obtain ⟨j, hij, hjn, hadj⟩ := h
  rw [Nat.pos_iff_ne_zero]
  intro hzero
  have hnot := mex_notMem (((Finset.range n).filter (adj i)).image
    fun j => if j < i then color j else 0)
  rw [← hcolor i hi, hzero] at hnot
  apply hnot
  rw [Finset.mem_image]
  exact ⟨j, Finset.mem_filter.mpr ⟨Finset.mem_range.mpr hjn, hadj⟩, if_neg (by omega)⟩

theorem exists_of_lt_color {i x : ℕ} (hi : i < n) (hx : 0 < x) (hlt : x < color i) :
    ∃ j < i, adj i j ∧ color j = x := by
  rw [hcolor i hi] at hlt
  obtain ⟨j, hj, he⟩ := Finset.mem_image.mp (mem_of_lt_mex hlt)
  by_cases hji : j < i
  · rw [if_pos hji] at he
    exact ⟨j, hji, (Finset.mem_filter.mp hj).2, he⟩
  · rw [if_neg hji] at he
    omega

theorem before_of_lt {x y : ℕ} (hx : 0 < x) (hxy : x < y) (hy : ∃ m < n, color m = y) :
    Before n color x y := by
  classical
  obtain ⟨m, hm, hmy⟩ := hy
  obtain ⟨j, hjm, -, hjx⟩ := exists_of_lt_color hcolor hm hx (by omega)
  have hex : ∃ k, k < n ∧ color k = x := ⟨j, by omega, hjx⟩
  refine ⟨Nat.find hex, (Nat.find_spec hex).1, (Nat.find_spec hex).2, ?_⟩
  intro m' hm' hmy'
  obtain ⟨j', hjm', -, hjx'⟩ := exists_of_lt_color hcolor hm' hx (by omega)
  have hle := Nat.find_min' hex ⟨by omega, hjx'⟩
  omega

include hsymm

theorem color_ne {i j : ℕ} (hij : i < j) (hj : j < n) (hadj : adj i j) : color i ≠ color j := by
  intro he
  have hnot := mex_notMem (((Finset.range n).filter (adj j)).image
    fun k => if k < j then color k else 0)
  rw [← hcolor j hj, ← he] at hnot
  apply hnot
  rw [Finset.mem_image]
  exact ⟨i, Finset.mem_filter.mpr ⟨Finset.mem_range.mpr (by omega), hsymm i j hadj⟩, if_pos hij⟩

theorem color_eq_level_of_dense (hdense : ∀ j < n, HasLater adj n j → ∀ d, 0 < d →
      d < level adj j → ∃ i < j, adj j i ∧ level adj i = d)
    (j : ℕ) (hj : j < n) (hlater : HasLater adj n j) : color j = level adj j := by
  induction j using Nat.strong_induction_on with
  | _ j ih =>
    have hearlier : ∀ i < j, adj j i → color i = level adj i := fun i hij hadj =>
      ih i hij (by omega) ⟨j, hij, hj, hsymm j i hadj⟩
    rw [hcolor j hj]
    apply mex_eq
    · intro hmem
      obtain ⟨i, hi, he⟩ := Finset.mem_image.mp hmem
      obtain ⟨-, hadj⟩ := Finset.mem_filter.mp hi
      have hpos := level_pos adj j
      by_cases hij : i < j
      · rw [if_pos hij, hearlier i hij hadj] at he
        have hlt := level_lt adj hij hadj
        omega
      · rw [if_neg hij] at he
        omega
    · intro x hx
      rw [Finset.mem_image]
      by_cases hx0 : x = 0
      · obtain ⟨k, hjk, hkn, hadj⟩ := hlater
        exact ⟨k, Finset.mem_filter.mpr ⟨Finset.mem_range.mpr hkn, hadj⟩, by
          rw [if_neg (by omega), hx0]⟩
      · obtain ⟨i, hij, hadj, hlevel⟩ := hdense j hj hlater x (by omega) hx
        exact ⟨i, Finset.mem_filter.mpr ⟨Finset.mem_range.mpr (by omega), hadj⟩, by
          rw [if_pos hij, hearlier i hij hadj, hlevel]⟩

theorem color_eq_level_of_ordered
    (hord : ∀ i j, i < j → j < n → adj i j → Before n color (color i) (color j))
    (j : ℕ) (hj : j < n) (hlater : HasLater adj n j) : color j = level adj j := by
  induction j using Nat.strong_induction_on with
  | _ j ih =>
    have hpos := color_pos hcolor hj hlater
    have hearlier : ∀ i < j, adj j i → color i = level adj i ∧ color i < color j := by
      intro i hij hadj
      have hadj' := hsymm j i hadj
      have hilater : HasLater adj n i := ⟨j, hij, hj, hadj'⟩
      refine ⟨ih i hij (by omega) hilater, ?_⟩
      rcases Nat.lt_trichotomy (color i) (color j) with h | h | h
      · exact h
      · exact absurd h (color_ne hsymm hcolor hij hj hadj')
      · exact ((hord i j hij hj hadj').asymm
          (before_of_lt hcolor hpos h ⟨i, by omega, rfl⟩)).elim
    apply Nat.le_antisymm
    · by_contra hgt
      obtain ⟨i, hij, hadj, hi⟩ := exists_of_lt_color hcolor hj (level_pos adj j)
        (Nat.lt_of_not_le hgt)
      have hlt := level_lt adj hij hadj
      have heq := (hearlier i hij hadj).1
      omega
    · apply level_le adj _ hpos
      intro i hij hadj
      obtain ⟨he, hlt⟩ := hearlier i hij hadj
      omega

include hirr

theorem color_eq_zero_iff {i : ℕ} (hi : i < n) : color i = 0 ↔ ¬ HasLater adj n i := by
  constructor
  · intro hzero hlater
    have hpos := color_pos hcolor hi hlater
    omega
  · intro hlater
    rw [hcolor i hi]
    apply mex_eq
    · intro hmem
      obtain ⟨j, hj, he⟩ := Finset.mem_image.mp hmem
      obtain ⟨hjn, hadj⟩ := Finset.mem_filter.mp hj
      have hjn := Finset.mem_range.mp hjn
      rcases Nat.lt_trichotomy j i with hji | rfl | hij
      · rw [if_pos hji] at he
        have hpos := color_pos hcolor hjn ⟨i, hji, hi, hsymm i j hadj⟩
        omega
      · exact hirr j hadj
      · exact hlater ⟨j, hij, hjn, hadj⟩
    · intro x hx
      omega

/-- The classes, in the order of their first vertices, respect every edge exactly when the graph
is levelled. -/
theorem ordered_iff_levelled :
    (∀ i j, i < j → j < n → adj i j → Before n color (color i) (color j)) ↔ Levelled adj n := by
  have hzero := fun {i : ℕ} (hi : i < n) => color_eq_zero_iff hsymm hirr hcolor hi
  constructor
  · intro hord
    have hlevel := color_eq_level_of_ordered hsymm hcolor hord
    constructor
    · intro j hj hlater d hd hlt
      rw [← hlevel j hj hlater] at hlt
      obtain ⟨i, hij, hadj, hi⟩ := exists_of_lt_color hcolor hj hd hlt
      exact ⟨i, hij, hadj, by
        rw [← hi, hlevel i (by omega) ⟨j, hij, hj, hsymm j i hadj⟩]⟩
    · intro i j hij hj hadj hfinal
      obtain ⟨k, hk, hki, hall⟩ := hord i j hij hj hadj
      rw [(hzero hj).mpr hfinal] at hall
      have hfirst : ∀ f < n, ¬ HasLater adj n f → k < f :=
        fun f hf hff => hall f hf ((hzero hf).mpr hff)
      have hklater : HasLater adj n k := by
        by_contra hkf
        exact absurd (hfirst k hk hkf) (lt_irrefl k)
      refine ⟨k, hk, ?_, hfirst⟩
      rw [← hlevel k hk hklater, ← hlevel i (by omega) ⟨j, hij, hj, hadj⟩, hki]
  · intro hlev i j hij hj hadj
    have hlevel := color_eq_level_of_dense hsymm hcolor hlev.dense
    have hilater : HasLater adj n i := ⟨j, hij, hj, hadj⟩
    by_cases hjlater : HasLater adj n j
    · apply before_of_lt hcolor (color_pos hcolor (by omega) hilater) _ ⟨j, hj, rfl⟩
      rw [hlevel i (by omega) hilater, hlevel j hj hjlater]
      exact level_lt adj hij (hsymm i j hadj)
    · obtain ⟨k, hk, hki, hfirst⟩ := hlev.early i j hij hj hadj hjlater
      have hklater : HasLater adj n k := by
        by_contra hkf
        exact absurd (hfirst k hk hkf) (lt_irrefl k)
      refine ⟨k, hk, ?_, ?_⟩
      · rw [hlevel k hk hklater, hki, hlevel i (by omega) hilater]
      · intro m hm hmz
        rw [(hzero hj).mpr hjlater] at hmz
        exact hfirst m hm ((hzero hm).mp hmz)

/-- If all classes stand in order, the vertices without later neighbours come last: else their
class would begin both before and behind a vertex that has one. -/
theorem hasLater_of_lt (h : ∀ i j, i < j → j < n → color i ≠ color j →
    Before n color (color i) (color j)) {i j : ℕ} (hij : i < j) (hj : j < n)
    (hlater : HasLater adj n j) : HasLater adj n i := by
  have hzero := fun {i : ℕ} (hi : i < n) => color_eq_zero_iff hsymm hirr hcolor hi
  have hjpos := color_pos hcolor hj hlater
  by_contra hi
  have hne : color i ≠ color j := by
    rw [(hzero (by omega)).mpr hi]
    omega
  have hlast : ¬ HasLater adj n (n - 1) := by
    rintro ⟨k, hk, hkn, -⟩
    omega
  have hjlast : j ≠ n - 1 := by
    rintro rfl
    exact hlast hlater
  have hcolors : color j ≠ color (n - 1) := by
    rw [(hzero (by omega)).mpr hlast]
    omega
  have hbefore := h j (n - 1) (by omega) (by omega) hcolors
  rw [(hzero (by omega)).mpr hlast, ← (hzero (by omega)).mpr hi] at hbefore
  exact (h i j hij hj hne).asymm hbefore

/-- The classes in the order of their first vertices, each ordered by `rel`, list the vertices in
their own order exactly when the graph is arranged. -/
theorem inOrder_iff_arranged {rel : ℕ → ℕ → Prop} :
    (∀ i j, i < j → j < n → (color i = color j → rel i j) ∧
      (color i ≠ color j → Before n color (color i) (color j))) ↔ Arranged adj n rel := by
  have hzero := fun {i : ℕ} (hi : i < n) => color_eq_zero_iff hsymm hirr hcolor hi
  constructor
  · intro h
    have hord : ∀ i j, i < j → j < n → adj i j → Before n color (color i) (color j) :=
      fun i j hij hj hadj => (h i j hij hj).2 (color_ne hsymm hcolor hij hj hadj)
    have hlevelled := (ordered_iff_levelled hsymm hirr hcolor).mp hord
    have hlevel := color_eq_level_of_dense hsymm hcolor hlevelled.dense
    refine ⟨hlevelled, ?_, ?_, ?_⟩
    · intro i j hij hj hlater
      have hjpos := color_pos hcolor hj hlater
      have hilater := hasLater_of_lt hsymm hirr hcolor
        (fun i j hij hj => (h i j hij hj).2) hij hj hlater
      refine ⟨hilater, ?_⟩
      rw [← hlevel i (by omega) hilater, ← hlevel j hj hlater]
      by_contra hlt
      exact ((h i j hij hj).2 (by omega)).asymm
        (before_of_lt hcolor hjpos (by omega) ⟨i, by omega, rfl⟩)
    · intro i j hij hj hi hjl he
      apply (h i j hij hj).1
      rw [hlevel i (by omega) hi, hlevel j hj hjl, he]
    · intro i j hij hj hi hjl
      apply (h i j hij hj).1
      rw [(hzero (by omega)).mpr hi, (hzero hj).mpr hjl]
  · intro harr i j hij hj
    have hlevel := color_eq_level_of_dense hsymm hcolor harr.levelled.dense
    by_cases hjl : HasLater adj n j
    · obtain ⟨hi, hle⟩ := harr.rising i j hij hj hjl
      rw [hlevel i (by omega) hi, hlevel j hj hjl]
      refine ⟨harr.within i j hij hj hi hjl, fun hne => ?_⟩
      apply before_of_lt hcolor (level_pos adj i) (by omega)
      exact ⟨j, hj, hlevel j hj hjl⟩
    · by_cases hi : HasLater adj n i
      · have hpos := color_pos hcolor (by omega) hi
        rw [(hzero hj).mpr hjl]
        refine ⟨fun he => absurd he (by omega), fun _ => ⟨i, by omega, rfl, ?_⟩⟩
        intro m hm hmz
        by_contra hmi
        have hmne : m ≠ i := by
          rintro rfl
          omega
        exact (hzero hm).mp hmz (harr.rising m i (by omega) (by omega) hi).1
      · rw [(hzero hj).mpr hjl, (hzero (by omega)).mpr hi]
        exact ⟨fun _ => harr.final i j hij hj hi hjl, fun hne => absurd rfl hne⟩

end Levels

end GreedyColoring
