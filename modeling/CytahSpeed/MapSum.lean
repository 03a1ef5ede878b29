import CytahSpeed.FiniteMap
import Mathlib.Algebra.BigOperators.Group.Finset.Basic
import Mathlib.Algebra.GroupWithZero.Nat
import Mathlib.Algebra.Order.BigOperators.Group.Finset

/-!
# Sums over a finite map

Every entry of a map has a weight, and the map the sum of them. Writing one entry changes the sum
by the difference of two weights, and the sum is the same in every order of iteration.
-/

namespace FiniteMap

variable {K V : Type*} [DecidableEq K] (f : K → V → ℕ) (m : Map K V)

def weightAt (k : K) : ℕ := (m.lookup k).elim 0 (f k)

def weight : ℕ := ∑ k ∈ m.keys, weightAt f m k

variable {f m}

theorem weightAt_of_lookup {k : K} {v : V} (h : m.lookup k = some v) : weightAt f m k = f k v := by
  rw [weightAt, h, Option.elim_some]

theorem weightAt_of_notMem {k : K} (h : k ∉ m.keys) : weightAt f m k = 0 := by
  rw [Finmap.mem_keys] at h
  rw [weightAt, Finmap.lookup_eq_none.mpr h, Option.elim_none]

theorem weightAt_insert (k k' : K) (v : V) :
    weightAt f (m.insert k v) k' = if k' = k then f k' v else weightAt f m k' := by
  rw [weightAt, lookup_insert_eq_ite]
  by_cases h : k' = k
  · rw [if_pos h, if_pos h, Option.elim_some]
  · rw [if_neg h, if_neg h, weightAt]

theorem weight_eq_sum {s : Finset K} (h : m.keys ⊆ s) : weight f m = ∑ k ∈ s, weightAt f m k := by
  rw [weight]
  exact Finset.sum_subset h fun k _ hk => weightAt_of_notMem hk

variable (f m)

theorem weight_insert (k : K) (v : V) :
    weight f (m.insert k v) + weightAt f m k = weight f m + f k v := by
  have hk : k ∈ insert k m.keys := Finset.mem_insert_self _ _
  rw [weight, keys_insert, weight_eq_sum (Finset.subset_insert k m.keys),
    ← Finset.add_sum_erase _ _ hk, ← Finset.add_sum_erase _ _ hk, weightAt_insert, if_pos rfl]
  have hrest : ∑ x ∈ (insert k m.keys).erase k, weightAt f (m.insert k v) x =
      ∑ x ∈ (insert k m.keys).erase k, weightAt f m x := by
    apply Finset.sum_congr rfl
    intro x hx
    rw [weightAt_insert, if_neg (Finset.ne_of_mem_erase hx)]
  rw [hrest]
  omega

theorem weightAt_le (k : K) : weightAt f m k ≤ weight f m := by
  rw [weight_eq_sum (Finset.subset_insert k m.keys)]
  exact Finset.single_le_sum (fun _ _ => Nat.zero_le _) (Finset.mem_insert_self _ _)

variable {f m}

theorem Enumerates.sum_eq {l : List (K × V)} (h : Enumerates l m) :
    (l.map fun e => f e.1 e.2).sum = weight f m := by
  have hat : l.map (fun e => f e.1 e.2) = (l.map Prod.fst).map (weightAt f m) := by
    rw [List.map_map]
    apply List.map_congr_left
    intro e he
    exact (weightAt_of_lookup ((h.2 e).mp he)).symm
  rw [hat, ← List.sum_toFinset _ h.1, h.toFinset_keys, weight]

end FiniteMap
