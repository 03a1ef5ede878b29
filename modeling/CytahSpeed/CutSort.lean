import Mathlib.Data.List.Pairwise
import Mathlib.Data.List.Perm.Basic
import Mathlib.Data.List.Sort
import Mathlib.Order.Basic

/-!
# Cutting before sorting

A list is cut to a number of elements and what is left is sorted by a key. Which elements remain is
decided by the order of the list, which the key knows nothing of; so what is said here of every
order of the list says when the cut does no harm.
-/

namespace CutSort

variable {α κ : Type*} [LE κ] [DecidableLE κ] (key : α → κ) (n : ℕ)

def cutSort (l : List α) : List α := (l.take n).insertionSort fun a b => key a ≤ key b

variable {key n} {l : List α} {a b : α}

theorem perm_cutSort (l : List α) : (cutSort key n l).Perm (l.take n) := List.perm_insertionSort _ _

theorem mem_cutSort : a ∈ cutSort key n l ↔ a ∈ l.take n := List.mem_insertionSort _

theorem length_cutSort (l : List α) : (cutSort key n l).length = min n l.length := by
  rw [(perm_cutSort l).length_eq, List.length_take]

theorem cutSort_of_length_le (h : l.length ≤ n) : (cutSort key n l).Perm l := by
  have hperm : (cutSort key n l).Perm (l.take n) := perm_cutSort l
  rwa [List.take_of_length_le h] at hperm

theorem nodup_cutSort (h : l.Nodup) : (cutSort key n l).Nodup :=
  (perm_cutSort l).nodup_iff.mpr (h.sublist (List.take_sublist n l))

theorem exists_perm_pair (ha : a ∈ l) (hb : b ∈ l) (hne : a ≠ b) :
    ∃ rest, (a :: b :: rest).Perm l := by
  obtain ⟨s, t, rfl⟩ := List.mem_iff_append.mp ha
  have hperm : (a :: (s ++ t)).Perm (s ++ a :: t) := List.perm_middle.symm
  have hmem : b ∈ s ++ t := (List.mem_cons.mp (hperm.mem_iff.mpr hb)).resolve_left (Ne.symm hne)
  obtain ⟨s', t', hst⟩ := List.mem_iff_append.mp hmem
  refine ⟨s' ++ t', (List.Perm.cons a ?_).trans hperm⟩
  rw [hst]
  exact List.perm_middle.symm

theorem exists_perm_ends (ha : a ∈ l) (hb : b ∈ l) (hne : a ≠ b) :
    ∃ mid, (a :: (mid ++ [b])).Perm l := by
  obtain ⟨rest, hperm⟩ := exists_perm_pair ha hb hne
  have hswap : (rest ++ [b]).Perm ([b] ++ rest) := List.perm_append_comm
  exact ⟨rest, (List.Perm.cons a hswap).trans hperm⟩

theorem head_mem_cutSort (hn : n ≠ 0) (l : List α) : a ∈ cutSort key n (a :: l) := by
  obtain ⟨m, rfl⟩ := Nat.exists_eq_succ_of_ne_zero hn
  rw [mem_cutSort, List.take_succ_cons]
  exact List.mem_cons_self

theorem forall_mem_cutSort_iff {P : α → Prop} :
    (∀ l', l'.Perm l → ∀ a ∈ cutSort key n l', P a) ↔ n = 0 ∨ ∀ a ∈ l, P a := by
  constructor
  · intro h
    by_cases hn : n = 0
    · exact Or.inl hn
    refine Or.inr fun a ha => ?_
    obtain ⟨s, t, rfl⟩ := List.mem_iff_append.mp ha
    exact h (a :: (s ++ t)) List.perm_middle.symm a (head_mem_cutSort hn _)
  · rintro (rfl | h) l' hl' a ha
    · cases ha
    · exact h a (hl'.mem_iff.mp (List.mem_of_mem_take (mem_cutSort.mp ha)))

theorem pairwise_of_length_le_one {R : α → α → Prop} (h : l.length ≤ 1) : l.Pairwise R := by
  match l with
  | [] => exact List.Pairwise.nil
  | [a] => exact List.pairwise_singleton R a
  | a :: b :: l =>
    simp only [List.length_cons] at h
    omega

theorem pairwise_cutSort_iff {E : α → α → Prop} (hsymm : ∀ a b, E a b → E b a) (hl : l.Nodup) :
    (∀ l', l'.Perm l → (cutSort key n l').Pairwise fun a b => ¬ E a b) ↔
      n = 0 ∨ ∀ a ∈ l, ∀ b ∈ l, a ≠ b → E a b → n = 1 := by
  constructor
  · intro h
    by_cases hn : n = 0
    · exact Or.inl hn
    refine Or.inr fun a ha b hb hne hab => ?_
    by_contra hone
    obtain ⟨m, rfl⟩ : ∃ m, n = m + 2 := ⟨n - 2, by omega⟩
    obtain ⟨rest, hperm⟩ := exists_perm_pair ha hb hne
    have hmem : ∀ x ∈ [a, b], x ∈ cutSort key (m + 2) (a :: b :: rest) := by
      intro x hx
      rw [mem_cutSort, List.take_succ_cons, List.take_succ_cons]
      exact List.mem_append_left (rest.take m) hx
    have : Std.Symm fun a b => ¬ E a b := ⟨fun _ _ hxy hyx => hxy (hsymm _ _ hyx)⟩
    exact (h _ hperm).forall (hmem a (by simp)) (hmem b (by simp)) hne hab
  · rintro h l' hl'
    have hnodup : (cutSort key n l').Nodup := nodup_cutSort (hl'.nodup_iff.mpr hl)
    by_cases hsmall : n ≤ 1
    · have hlen : (cutSort key n l').length ≤ 1 := by
        rw [length_cutSort]
        omega
      exact pairwise_of_length_le_one hlen
    · have hall := h.resolve_left (by omega)
      refine List.Pairwise.imp_of_mem ?_ hnodup
      intro x y hx hy hne hxy
      have hmem : ∀ z ∈ cutSort key n l', z ∈ l := fun z hz =>
        hl'.mem_iff.mp (List.mem_of_mem_take (mem_cutSort.mp hz))
      have hone := hall x (hmem x hx) y (hmem y hy) hne hxy
      omega

section Linear
variable [Std.IsLinearOrder κ]

theorem sorted_cutSort (l : List α) :
    (cutSort key n l).Pairwise fun a b => key a ≤ key b := by
  have : Std.Total fun a b : α => key a ≤ key b := ⟨fun _ _ => Std.le_total⟩
  have : IsTrans α fun a b => key a ≤ key b := ⟨fun _ _ _ => Std.le_trans⟩
  exact List.pairwise_insertionSort _ _

/-- The cut takes the least keys in every order of the list exactly when nothing is cut, nothing is
left, or there is nothing to choose. -/
theorem takesLeast_iff :
    (∀ l', l'.Perm l → ∀ x ∈ l'.drop n, ∀ y ∈ cutSort key n l', key y ≤ key x) ↔
      n = 0 ∨ l.length ≤ n ∨ ∀ x ∈ l, ∀ y ∈ l, key x = key y := by
  constructor
  · intro h
    by_cases hn : n = 0
    · exact Or.inl hn
    by_cases hlen : l.length ≤ n
    · exact Or.inr (Or.inl hlen)
    have hle : ∀ y ∈ l, ∀ x ∈ l, key y ≤ key x := by
      intro y hy x hx
      by_cases hxy : x = y
      · rw [hxy]
        exact Std.le_refl _
      obtain ⟨mid, hperm⟩ := exists_perm_ends hy hx (Ne.symm hxy)
      have hcut := hperm.length_eq
      simp only [List.length_cons, List.length_append, List.length_nil] at hcut
      refine h _ hperm x ?_ y (head_mem_cutSort hn _)
      rw [← List.cons_append,
        List.drop_append_of_le_length (by simp only [List.length_cons]; omega)]
      exact List.mem_append_right _ (List.mem_singleton_self x)
    exact Or.inr (Or.inr fun x hx y hy => Std.le_antisymm (hle x hx y hy) (hle y hy x hx))
  · rintro (rfl | hlen | hsame) l' hl' x hx y hy
    · cases hy
    · rw [List.drop_eq_nil_of_le (hl'.length_eq.trans_le hlen)] at hx
      cases hx
    · rw [hsame y (hl'.mem_iff.mp (List.mem_of_mem_take (mem_cutSort.mp hy))) x
        (hl'.mem_iff.mp (List.mem_of_mem_drop hx))]
      exact Std.le_refl _

theorem map_key_cutSort_eq
    (h : n = 0 ∨ l.length ≤ n ∨ ∀ x ∈ l, ∀ y ∈ l, key x = key y) {l' l'' : List α}
    (hl' : l'.Perm l) (hl'' : l''.Perm l) :
    (cutSort key n l').map key = (cutSort key n l'').map key := by
  rcases h with rfl | hlen | hsame
  · rfl
  · have hsorted : ∀ k : List α, ((cutSort key n k).map key).Pairwise (· ≤ ·) := fun k =>
      List.pairwise_map.mpr (sorted_cutSort k)
    refine List.Perm.eq_of_pairwise' (hsorted l') (hsorted l'') (List.Perm.map key ?_)
    exact ((cutSort_of_length_le (hl'.length_eq.trans_le hlen)).trans (hl'.trans hl''.symm)).trans
      (cutSort_of_length_le (hl''.length_eq.trans_le hlen)).symm
  · have hmem : ∀ k : List α, k.Perm l → ∀ x ∈ cutSort key n k, x ∈ l := fun k hk x hx =>
      hk.mem_iff.mp (List.mem_of_mem_take (mem_cutSort.mp hx))
    refine List.ext_getElem ?_ ?_
    · rw [List.length_map, List.length_map, length_cutSort, length_cutSort, hl'.length_eq,
        hl''.length_eq]
    · intro i hi hi'
      rw [List.getElem_map, List.getElem_map]
      exact hsame _ (hmem l' hl' _ (List.getElem_mem _)) _ (hmem l'' hl'' _ (List.getElem_mem _))

/-- What has to come before something that remains remains, and does come before it, in every order
of the list, exactly when nothing is left, or nothing is cut and the keys say the same. -/
theorem respects_iff {R : α → α → Prop} (hirr : ∀ a, ¬ R a a) (hl : l.Nodup) :
    (∀ l', l'.Perm l → (cutSort key n l').Pairwise (fun a b => ¬ R b a) ∧
        ∀ b ∈ cutSort key n l', ∀ a ∈ l, R a b → a ∈ cutSort key n l') ↔
      n = 0 ∨ ∀ a ∈ l, ∀ b ∈ l, R a b → l.length ≤ n ∧ ¬ key b ≤ key a := by
  constructor
  · intro h
    by_cases hn : n = 0
    · exact Or.inl hn
    refine Or.inr fun a ha b hb hab => ?_
    have hne : a ≠ b := by
      rintro rfl
      exact hirr a hab
    have hlen : l.length ≤ n := by
      by_contra hlong
      obtain ⟨mid, hperm⟩ := exists_perm_ends hb ha (Ne.symm hne)
      have hcut := hperm.length_eq
      simp only [List.length_cons, List.length_append, List.length_nil] at hcut
      have hmem := mem_cutSort.mp ((h _ hperm).2 b (head_mem_cutSort hn _) a ha hab)
      have hnodup := hperm.nodup_iff.mpr hl
      rw [← List.cons_append] at hmem hnodup
      rw [List.take_append_of_le_length (by simp only [List.length_cons]; omega)] at hmem
      exact (List.nodup_append.mp hnodup).2.2 a (List.mem_of_mem_take hmem) a
        (List.mem_singleton_self a) rfl
    refine ⟨hlen, fun hkey => ?_⟩
    obtain ⟨rest, hperm⟩ := exists_perm_pair hb ha (Ne.symm hne)
    have hsub : [b, a].Sublist ((b :: a :: rest).take n) := by
      rw [List.take_of_length_le (hperm.length_eq.trans_le hlen)]
      exact ((List.nil_sublist rest).cons_cons a).cons_cons b
    have hpair := (h _ hperm).1.sublist
      (List.pair_sublist_insertionSort (r := fun a b => key a ≤ key b) hkey hsub)
    exact (List.pairwise_pair.mp hpair) hab
  · rintro (rfl | h) l' hl'
    · exact ⟨List.Pairwise.nil, fun b hb => by cases hb⟩
    have hmem : ∀ x ∈ cutSort key n l', x ∈ l := fun x hx =>
      hl'.mem_iff.mp (List.mem_of_mem_take (mem_cutSort.mp hx))
    refine ⟨?_, ?_⟩
    · refine (sorted_cutSort l').imp_of_mem ?_
      intro x y hx hy hle hyx
      exact (h y (hmem y hy) x (hmem x hx) hyx).2 hle
    · intro b hb a ha hab
      have hlen := (h a ha b (hmem b hb) hab).1
      exact (cutSort_of_length_le (hl'.length_eq.trans_le hlen)).mem_iff.mpr (hl'.mem_iff.mpr ha)

end Linear

end CutSort
