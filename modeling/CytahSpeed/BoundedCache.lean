import CytahSpeed.FiniteMap

/-!
# Bounded caches

A cache of limited size in front of a map. An entry that is added pushes out others, in the order
of iteration, as long as the limit is reached; which ones is of no consequence for a cache whose
entries are copies of entries of the map. `Coherent` is that property: reads may then go through the
cache, and it survives every operation that writes the map and the cache alike.
-/

open FiniteMap

structure BoundedCache (K V : Type*) [DecidableEq K] where
  entries : Map K V
  size : ℕ
  limit : ℕ
  size_eq : size = entries.keys.card

namespace BoundedCache
variable {K V : Type*} [DecidableEq K]

def empty (limit : ℕ) : BoundedCache K V := ⟨∅, 0, limit, by simp⟩

def remove (c : BoundedCache K V) (k : K) : BoundedCache K V :=
  if h : k ∈ c.entries then
    { c with
      entries := c.entries.erase k
      size := c.size - 1
      size_eq := by rw [card_keys_erase h, c.size_eq] }
  else c

/-- Entries go until the limit is no longer reached; there are not more of them than `fuel`. -/
def evict (order : IterOrder K V) : ℕ → BoundedCache K V → BoundedCache K V
  | 0, c => c
  | fuel + 1, c =>
    if c.limit ≤ c.size then
      match (order.iter c.entries).head? with
      | some e => evict order fuel (c.remove e.1)
      | none => c
    else c

def add (order : IterOrder K V) (c : BoundedCache K V) (k : K) (v : V) : BoundedCache K V :=
  let c := evict order c.size c
  { c with
    entries := c.entries.insert k v
    size := if k ∈ c.entries then c.size else c.size + 1
    size_eq := by
      rw [keys_insert, Finset.card_insert_eq_ite, c.size_eq]
      simp only [Finmap.mem_keys] }

def clear (c : BoundedCache K V) : BoundedCache K V := empty c.limit

def Coherent (c : BoundedCache K V) (m : Map K V) : Prop :=
  ∀ k v, c.entries.lookup k = some v → m.lookup k = some v

def Within (c : BoundedCache K V) (limit : ℕ) : Prop := c.limit = limit ∧ c.size ≤ limit

variable {c : BoundedCache K V} {m : Map K V} {order : IterOrder K V} {limit : ℕ}

theorem lookup_remove (c : BoundedCache K V) (k k' : K) :
    (c.remove k).entries.lookup k' = if k' = k then none else c.entries.lookup k' := by
  unfold remove
  split_ifs with hk hk' hk'
  · subst hk'
    exact Finmap.lookup_erase k' _
  · exact Finmap.lookup_erase_ne hk'
  · subst hk'
    exact Finmap.lookup_eq_none.mpr hk
  · rfl

theorem lookup_of_evict (fuel : ℕ) (c : BoundedCache K V) {k : K} {v : V}
    (h : (evict order fuel c).entries.lookup k = some v) : c.entries.lookup k = some v := by
  induction fuel generalizing c with
  | zero => exact h
  | succ fuel ih =>
    unfold evict at h
    split_ifs at h
    · split at h
      · have hc := ih _ h
        rw [lookup_remove] at hc
        split_ifs at hc
        exact hc
      · exact h
    · exact h

theorem limit_remove (c : BoundedCache K V) (k : K) : (c.remove k).limit = c.limit := by
  unfold remove
  split_ifs <;> rfl

/-- The loop ends below the limit or with an empty cache. -/
theorem evict_done (order : IterOrder K V) (fuel : ℕ) (c : BoundedCache K V)
    (hfuel : c.size ≤ fuel) :
    (evict order fuel c).size < c.limit ∨ (evict order fuel c).size = 0 := by
  induction fuel generalizing c with
  | zero => exact Or.inr (Nat.le_zero.mp hfuel)
  | succ fuel ih =>
    unfold evict
    by_cases hfull : c.limit ≤ c.size
    · rw [if_pos hfull]
      cases he : (order.iter c.entries).head? with
      | none =>
        have hlen := (order.enumerates c.entries).length_eq
        rw [List.head?_eq_none_iff.mp he, ← c.size_eq] at hlen
        exact Or.inr hlen.symm
      | some e =>
        have hmem : e.1 ∈ c.entries := Finmap.mem_iff.mpr
          ⟨e.2, ((order.enumerates c.entries).2 e).mp (List.mem_of_mem_head? he)⟩
        have hsize : (c.remove e.1).size = c.size - 1 := by
          rw [remove, dif_pos hmem]
        rw [← limit_remove c e.1]
        exact ih _ (by omega)
    · rw [if_neg hfull]
      exact Or.inl (Nat.lt_of_not_le hfull)

theorem limit_evict (fuel : ℕ) (c : BoundedCache K V) : (evict order fuel c).limit = c.limit := by
  induction fuel generalizing c with
  | zero => rfl
  | succ fuel ih =>
    unfold evict
    split_ifs
    · split
      · rw [ih, limit_remove]
      · rfl
    · rfl

theorem within_empty (limit : ℕ) : (empty limit : BoundedCache K V).Within limit :=
  ⟨rfl, Nat.zero_le limit⟩

theorem Within.remove (h : c.Within limit) (k : K) : (c.remove k).Within limit := by
  refine ⟨(limit_remove c k).trans h.1, le_trans ?_ h.2⟩
  unfold BoundedCache.remove
  split_ifs
  · exact Nat.sub_le _ _
  · exact le_rfl

theorem Within.add (h : c.Within limit) (hlimit : 0 < limit) (k : K) (v : V) :
    (c.add order k v).Within limit := by
  have hdone := evict_done order c.size c le_rfl
  rw [h.1] at hdone
  refine ⟨(limit_evict c.size c).trans h.1, ?_⟩
  unfold BoundedCache.add
  simp only
  split_ifs <;> omega

theorem lookup_add_self (order : IterOrder K V) (c : BoundedCache K V) (k : K) (v : V) :
    (c.add order k v).entries.lookup k = some v :=
  Finmap.lookup_insert _

theorem lookup_of_add {k k' : K} {v v' : V} (hk : k' ≠ k)
    (h : (c.add order k v).entries.lookup k' = some v') : c.entries.lookup k' = some v' := by
  change ((evict order c.size c).entries.insert k v).lookup k' = _ at h
  rw [lookup_insert_eq_ite, if_neg hk] at h
  exact lookup_of_evict c.size c h

theorem coherent_empty (limit : ℕ) (m : Map K V) : (empty limit).Coherent m := by
  intro k v h
  cases h

theorem Coherent.remove (h : c.Coherent m) (k : K) : (c.remove k).Coherent m := by
  intro k' v hv
  rw [lookup_remove] at hv
  split_ifs at hv
  exact h k' v hv

theorem Coherent.add (h : c.Coherent m) {k : K} {v : V} (hk : m.lookup k = some v) :
    (c.add order k v).Coherent m := by
  intro k' v' hv
  by_cases hkk : k' = k
  · subst hkk
    rw [lookup_add_self] at hv
    cases hv
    exact hk
  · exact h k' v' (lookup_of_add hkk hv)

theorem Coherent.insert (h : c.Coherent m) (k : K) (v : V) :
    (c.add order k v).Coherent (m.insert k v) := by
  intro k' v' hv
  rw [lookup_insert_eq_ite]
  by_cases hkk : k' = k
  · subst hkk
    rw [if_pos rfl, ← lookup_add_self order c k' v, hv]
  · rw [if_neg hkk]
    exact h k' v' (lookup_of_add hkk hv)

theorem Coherent.erase_iff (h : c.Coherent m) (k : K) :
    c.Coherent (m.erase k) ↔ c.entries.lookup k = none := by
  constructor
  · intro hc
    cases hk : c.entries.lookup k with
    | none => rfl
    | some v =>
      have hv := hc k v hk
      rw [Finmap.lookup_erase] at hv
      cases hv
  · intro hk k' v hv
    rw [lookup_erase_eq_ite, if_neg, h k' v hv]
    rintro rfl
    rw [hk] at hv
    cases hv

theorem Coherent.or_lookup (h : c.Coherent m) (k : K) :
    (c.entries.lookup k).or (m.lookup k) = m.lookup k := by
  cases hk : c.entries.lookup k with
  | none => rfl
  | some v => exact (h k v hk).symm

end BoundedCache
