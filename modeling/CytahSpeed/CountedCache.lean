import CytahSpeed.BoundedCache

/-!
# Counted caches

A cache whose counter is updated beside its entries, with nothing that ties the two together. A
counter that is right is that of a `BoundedCache`, and every operation then does what it does there:
the counter never underflows, and the loop that evicts entries ends, whichever entries it evicts.
-/

open FiniteMap

structure CountedCache (K V : Type*) [DecidableEq K] where
  entries : Map K V
  size : ℕ
  limit : ℕ

namespace CountedCache
variable {K V : Type*} [DecidableEq K]

def empty (limit : ℕ) : CountedCache K V := ⟨∅, 0, limit⟩

/-- An entry goes and the counter falls; a counter at zero underflows. -/
def drop (c : CountedCache K V) (k : K) : Option (CountedCache K V) :=
  if c.size = 0 then none
  else some { c with entries := c.entries.erase k, size := c.size - 1 }

def remove (c : CountedCache K V) (k : K) : Option (CountedCache K V) :=
  if k ∈ c.entries then c.drop k else some c

/-- The loop that evicts, for less than `fuel` turns: there is no result if the counter underflows
or the loop goes on. -/
def evict (order : IterOrder K V) : ℕ → CountedCache K V → Option (CountedCache K V)
  | 0, _ => none
  | fuel + 1, c =>
    if c.limit ≤ c.size then
      match (order.iter c.entries).head? with
      | some e =>
        match c.drop e.1 with
        | some c => evict order fuel c
        | none => none
      | none => some c
    else some c

def add (order : IterOrder K V) (c : CountedCache K V) (k : K) (v : V) :
    Option (CountedCache K V) :=
  match evict order (c.entries.keys.card + 1) c with
  | some c => some { c with
      entries := c.entries.insert k v
      size := if k ∈ c.entries then c.size else c.size + 1 }
  | none => none

def clear (c : CountedCache K V) : CountedCache K V := { c with entries := ∅, size := 0 }

def ofBounded (b : BoundedCache K V) : CountedCache K V := ⟨b.entries, b.size, b.limit⟩

variable {b : BoundedCache K V}

theorem exists_ofBounded_iff {c : CountedCache K V} :
    (∃ b, c = ofBounded b) ↔ c.size = c.entries.keys.card := by
  constructor
  · rintro ⟨b, rfl⟩
    exact b.size_eq
  · intro h
    exact ⟨⟨c.entries, c.size, c.limit, h⟩, rfl⟩

theorem drop_ofBounded {k : K} (hk : k ∈ b.entries) :
    (ofBounded b).drop k = some (ofBounded (b.remove k)) := by
  have hpos : 0 < b.entries.keys.card := Finset.card_pos.mpr ⟨k, Finmap.mem_keys.mpr hk⟩
  have hsize : (ofBounded b).size ≠ 0 := by
    change b.size ≠ 0
    rw [b.size_eq]
    omega
  rw [drop, if_neg hsize, BoundedCache.remove, dif_pos hk]
  rfl

theorem remove_ofBounded (k : K) :
    (ofBounded b).remove k = some (ofBounded (b.remove k)) := by
  unfold remove
  by_cases hk : k ∈ b.entries
  · rw [if_pos (show k ∈ (ofBounded b).entries from hk), drop_ofBounded hk]
  · rw [if_neg (show k ∉ (ofBounded b).entries from hk), BoundedCache.remove, dif_neg hk]

theorem evict_ofBounded (order : IterOrder K V) (fuel : ℕ) (b : BoundedCache K V)
    (hfuel : b.size ≤ fuel) :
    evict order (fuel + 1) (ofBounded b) = some (ofBounded (BoundedCache.evict order fuel b)) := by
  induction fuel generalizing b with
  | zero =>
    have hnone : (order.iter b.entries).head? = none := by
      have hlen := (order.enumerates b.entries).length_eq
      rw [← b.size_eq, Nat.le_zero.mp hfuel] at hlen
      rw [List.length_eq_zero_iff.mp hlen]
      rfl
    unfold evict BoundedCache.evict
    simp only [ofBounded, hnone, ite_self]
  | succ fuel ih =>
    unfold evict BoundedCache.evict
    by_cases hfull : b.limit ≤ b.size
    · rw [if_pos hfull, if_pos (show (ofBounded b).limit ≤ (ofBounded b).size from hfull)]
      have hiter : order.iter (ofBounded b).entries = order.iter b.entries := rfl
      rw [hiter]
      cases he : (order.iter b.entries).head? with
      | none => rfl
      | some e =>
        have hmem : e.1 ∈ b.entries := Finmap.mem_iff.mpr
          ⟨e.2, ((order.enumerates b.entries).2 e).mp (List.mem_of_mem_head? he)⟩
        have hsize : (b.remove e.1).size = b.size - 1 := by
          rw [BoundedCache.remove, dif_pos hmem]
        simp only [drop_ofBounded hmem]
        exact ih (b.remove e.1) (by omega)
    · rw [if_neg hfull, if_neg (show ¬ (ofBounded b).limit ≤ (ofBounded b).size from hfull)]

theorem add_ofBounded (order : IterOrder K V) (b : BoundedCache K V) (k : K) (v : V) :
    (ofBounded b).add order k v = some (ofBounded (b.add order k v)) := by
  have hevict := evict_ofBounded order b.size b le_rfl
  have hcard : (ofBounded b).entries.keys.card = b.size := b.size_eq.symm
  rw [add, hcard, hevict]
  rfl

theorem clear_ofBounded (b : BoundedCache K V) : (ofBounded b).clear = ofBounded b.clear := rfl

end CountedCache
