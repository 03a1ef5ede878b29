import Mathlib.Data.Set.Function
import Mathlib.Tactic.Common

/-!
# Trees built level by level

A list is reduced to one element by joining neighbours, level after level; an element left over at
the end of a level moves up as it is. For lists of one length the root determines the list as far
as the join is injective on the pairs that were joined, so a different order of the leaves gives a
different root.
-/

namespace LevelTree

variable {α β : Type*} (join : α → α → α)

def pairUp : List α → List α
  | a :: b :: rest => join a b :: pairUp rest
  | [a] => [a]
  | [] => []

/-- Levels until at most one element is left. -/
def reduce : ℕ → List α → List α
  | 0, l => l
  | fuel + 1, l => if l.length ≤ 1 then l else reduce fuel (pairUp join l)

def root (l : List α) : Option α := (reduce join l.length l).head?

def pairs : List α → List (α × α)
  | a :: b :: rest => (a, b) :: pairs rest
  | _ => []

/-- The pairs joined at all levels. -/
def joined : ℕ → List α → List (α × α)
  | 0, _ => []
  | fuel + 1, l => if l.length ≤ 1 then [] else pairs l ++ joined fuel (pairUp join l)

theorem length_pairUp (l : List α) : (pairUp join l).length = (l.length + 1) / 2 := by
  induction l using pairUp.induct with
  | case1 a b rest ih => simp only [pairUp, List.length_cons, ih]; omega
  | case2 a => simp [pairUp]
  | case3 => simp [pairUp]

/-- The fuel of `root` is enough: one element is left of a list that is not empty. -/
theorem length_reduce (fuel : ℕ) (l : List α) (hl : l ≠ []) (hfuel : l.length ≤ fuel + 1) :
    (reduce join fuel l).length = 1 := by
  induction fuel generalizing l with
  | zero =>
    have hpos := List.length_pos_iff.mpr hl
    rw [reduce]
    omega
  | succ fuel ih =>
    have hpos := List.length_pos_iff.mpr hl
    rw [reduce]
    by_cases hone : l.length ≤ 1
    · rw [if_pos hone]
      omega
    · rw [if_neg hone]
      have hlen := length_pairUp join l
      apply ih
      · exact List.ne_nil_of_length_pos (by omega)
      · omega

theorem exists_root (l : List α) (hl : l ≠ []) : ∃ a, root join l = some a := by
  have hlen := length_reduce join l.length l hl (by omega)
  obtain ⟨a, ha⟩ := List.length_eq_one_iff.mp hlen
  exact ⟨a, by rw [root, ha]; rfl⟩

section Map
variable {join} {join' : β → β → β} {f : α → β} (hf : ∀ a b, f (join a b) = join' (f a) (f b))
include hf

theorem map_pairUp (l : List α) : (pairUp join l).map f = pairUp join' (l.map f) := by
  induction l using pairUp.induct with
  | case1 a b rest ih => simp only [pairUp, List.map_cons, hf, ih]
  | case2 a => rfl
  | case3 => rfl

theorem map_reduce (fuel : ℕ) (l : List α) :
    (reduce join fuel l).map f = reduce join' fuel (l.map f) := by
  induction fuel generalizing l with
  | zero => rfl
  | succ fuel ih =>
    rw [reduce, reduce, List.length_map]
    by_cases hone : l.length ≤ 1
    · rw [if_pos hone, if_pos hone]
    · rw [if_neg hone, if_neg hone, ih, map_pairUp hf]

theorem map_root (l : List α) : (root join l).map f = root join' (l.map f) := by
  rw [root, root, List.length_map, ← map_reduce hf, List.head?_map]

end Map

section Leaves
variable {join} {f : α → List β} (hf : ∀ a b, f (join a b) = f a ++ f b)
include hf

theorem flatMap_pairUp (l : List α) : (pairUp join l).flatMap f = l.flatMap f := by
  induction l using pairUp.induct with
  | case1 a b rest ih => simp only [pairUp, List.flatMap_cons, hf, ih, List.append_assoc]
  | case2 a => rfl
  | case3 => rfl

theorem flatMap_reduce (fuel : ℕ) (l : List α) :
    (reduce join fuel l).flatMap f = l.flatMap f := by
  induction fuel generalizing l with
  | zero => rfl
  | succ fuel ih =>
    rw [reduce]
    by_cases hone : l.length ≤ 1
    · rw [if_pos hone]
    · rw [if_neg hone, ih, flatMap_pairUp hf]

theorem flatMap_root {l : List α} {r : α} (h : root join l = some r) : f r = l.flatMap f := by
  have hl : l ≠ [] := by
    rintro rfl
    simp [root, reduce] at h
  obtain ⟨a, ha⟩ := List.length_eq_one_iff.mp (length_reduce join l.length l hl (by omega))
  rw [root, ha] at h
  rw [← flatMap_reduce hf l.length l, ha, Option.some.inj h]
  simp

end Leaves

section Closed
variable {join} {P : α → Prop} (hP : ∀ a b, P a → P b → P (join a b))
include hP

theorem forall_pairUp {l : List α} (hl : ∀ a ∈ l, P a) : ∀ a ∈ pairUp join l, P a := by
  induction l using pairUp.induct with
  | case1 a b rest ih =>
    simp only [List.forall_mem_cons] at hl
    simp only [pairUp, List.forall_mem_cons]
    exact ⟨hP a b hl.1 hl.2.1, ih hl.2.2⟩
  | case2 a => exact hl
  | case3 => exact hl

theorem forall_reduce (fuel : ℕ) {l : List α} (hl : ∀ a ∈ l, P a) :
    ∀ a ∈ reduce join fuel l, P a := by
  induction fuel generalizing l with
  | zero => exact hl
  | succ fuel ih =>
    rw [reduce]
    by_cases hone : l.length ≤ 1
    · rw [if_pos hone]
      exact hl
    · rw [if_neg hone]
      exact ih (forall_pairUp hP hl)

theorem root_closed {l : List α} {r : α} (hl : ∀ a ∈ l, P a) (h : root join l = some r) : P r :=
  forall_reduce hP l.length hl r (List.mem_of_mem_head? h)

end Closed

section Injective
variable {join} {S : Set (α × α)} (hinj : Set.InjOn (Function.uncurry join) S)
include hinj

theorem pairUp_injective (l l' : List α) (hlen : l.length = l'.length)
    (hl : ∀ p ∈ pairs l, p ∈ S) (hl' : ∀ p ∈ pairs l', p ∈ S)
    (h : pairUp join l = pairUp join l') : l = l' := by
  induction l using pairUp.induct generalizing l' with
  | case1 a b rest ih =>
    match l' with
    | [] => simp at hlen
    | [_] => simp at hlen
    | a' :: b' :: rest' =>
      simp only [pairUp, List.cons.injEq] at h
      have hpair : (a, b) = (a', b') :=
        hinj (hl _ (List.mem_cons_self)) (hl' _ (List.mem_cons_self)) h.1
      have hrest := ih rest' (by simpa using hlen)
        (fun p hp => hl p (List.mem_cons_of_mem _ hp))
        (fun p hp => hl' p (List.mem_cons_of_mem _ hp)) h.2
      rw [(Prod.mk.inj hpair).1, (Prod.mk.inj hpair).2, hrest]
  | case2 a =>
    match l' with
    | [] => simp at hlen
    | [_] => exact h
    | _ :: _ :: _ => simp at hlen
  | case3 =>
    match l' with
    | [] => rfl
    | _ :: _ => simp at hlen

theorem reduce_injective (fuel : ℕ) (l l' : List α) (hlen : l.length = l'.length)
    (hl : ∀ p ∈ joined join fuel l, p ∈ S) (hl' : ∀ p ∈ joined join fuel l', p ∈ S)
    (h : reduce join fuel l = reduce join fuel l') : l = l' := by
  induction fuel generalizing l l' with
  | zero => exact h
  | succ fuel ih =>
    rw [reduce, reduce, ← hlen] at h
    rw [joined] at hl
    rw [joined, ← hlen] at hl'
    by_cases hone : l.length ≤ 1
    · rwa [if_pos hone, if_pos hone] at h
    · rw [if_neg hone] at hl hl'
      rw [if_neg hone, if_neg hone] at h
      apply pairUp_injective hinj l l' hlen
        (fun p hp => hl p (List.mem_append_left _ hp))
        (fun p hp => hl' p (List.mem_append_left _ hp))
      exact ih _ _ (by rw [length_pairUp, length_pairUp, hlen])
        (fun p hp => hl p (List.mem_append_right _ hp))
        (fun p hp => hl' p (List.mem_append_right _ hp)) h

theorem root_injective (l l' : List α) (hlen : l.length = l'.length)
    (hl : ∀ p ∈ joined join l.length l, p ∈ S) (hl' : ∀ p ∈ joined join l'.length l', p ∈ S)
    (h : root join l = root join l') : l = l' := by
  by_cases hnil : l = []
  · subst hnil
    exact (List.length_eq_zero_iff.mp hlen.symm).symm
  · have hnil' : l' ≠ [] := by
      intro he
      rw [he] at hlen
      exact hnil (List.length_eq_zero_iff.mp hlen)
    obtain ⟨a, ha⟩ := List.length_eq_one_iff.mp
      (length_reduce join l.length l hnil (by omega))
    obtain ⟨a', ha'⟩ := List.length_eq_one_iff.mp
      (length_reduce join l'.length l' hnil' (by omega))
    rw [root, root, ha, ha'] at h
    rw [← hlen] at ha' hl'
    apply reduce_injective hinj l.length l l' hlen hl hl'
    rw [ha, ha']
    simpa using h

end Injective

end LevelTree
