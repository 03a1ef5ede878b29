import CytahSpeed.ByteString
import CytahSpeed.FiniteMap

/-!
# Maps kept as bytes

A key-value store maps byte strings to byte strings. `Stores` says that it keeps a map of other
keys and values, each key and each value under an encoding of its own; writes and deletions under
injective keys keep this, and an iterator visits the entries in the order of the encoded keys.
-/

namespace ByteString
open FiniteMap

variable {K V : Type} [DecidableEq K]

/-- The entries of `m` under their encodings, and no other key. -/
structure Stores (key : K → List UInt8) (value : V → List UInt8) (m : Map K V)
    (raw : Map (List UInt8) (List UInt8)) : Prop where
  get : ∀ k, raw.lookup (key k) = (m.lookup k).map value
  only : ∀ bytes ∈ raw, ∃ k, key k = bytes

namespace Stores
variable {key : K → List UInt8} {value : V → List UInt8} {m : Map K V}
  {raw : Map (List UInt8) (List UInt8)}

theorem empty : Stores key value (∅ : Map K V) ∅ :=
  ⟨fun _ => rfl, fun _ h => absurd h Finmap.notMem_empty⟩

theorem insert (h : Stores key value m raw) (hkey : Function.Injective key) (k : K) (v : V) :
    Stores key value (m.insert k v) (raw.insert (key k) (value v)) := by
  constructor
  · intro k'
    rw [lookup_insert_eq_ite, lookup_insert_eq_ite, h.get]
    by_cases hk : k' = k
    · rw [if_pos hk, if_pos (congrArg key hk), Option.map_some]
    · rw [if_neg hk, if_neg (hkey.ne hk)]
  · intro bytes hbytes
    rcases Finmap.mem_insert.mp hbytes with rfl | hbytes
    · exact ⟨k, rfl⟩
    · exact h.only bytes hbytes

theorem erase (h : Stores key value m raw) (hkey : Function.Injective key) (k : K) :
    Stores key value (m.erase k) (raw.erase (key k)) := by
  constructor
  · intro k'
    rw [lookup_erase_eq_ite, lookup_erase_eq_ite, h.get]
    by_cases hk : k' = k
    · rw [if_pos hk, if_pos (congrArg key hk), Option.map_none]
    · rw [if_neg hk, if_neg (hkey.ne hk)]
  · intro bytes hbytes
    exact h.only bytes (Finmap.mem_erase.mp hbytes).2

theorem foldl_insert {α : Type} (h : Stores key value m raw) (hkey : Function.Injective key)
    (f : α → K) (g : α → V) (l : List α) :
    Stores key value (l.foldl (fun m a => m.insert (f a) (g a)) m)
      (l.foldl (fun raw a => raw.insert (key (f a)) (value (g a))) raw) := by
  induction l generalizing m raw with
  | nil => exact h
  | cons a l ih => exact ih (h.insert hkey (f a) (g a))

theorem foldl_erase (h : Stores key value m raw) (hkey : Function.Injective key) (l : List K) :
    Stores key value (l.foldl (fun m k => m.erase k) m)
      (l.foldl (fun raw k => raw.erase (key k)) raw) := by
  induction l generalizing m raw with
  | nil => exact h
  | cons k l ih => exact ih (h.erase hkey k)

theorem mem_iff (h : Stores key value m raw) (k : K) : key k ∈ raw ↔ k ∈ m := by
  rw [Finmap.mem_iff, Finmap.mem_iff]
  simp only [h.get, Option.map_eq_some_iff]
  constructor
  · rintro ⟨_, v, hv, -⟩
    exact ⟨v, hv⟩
  · rintro ⟨v, hv⟩
    exact ⟨value v, v, hv, rfl⟩

section Sorted
variable {K V : Type} [LinearOrder K] {key : K → List UInt8} {value : V → List UInt8} {m : Map K V}
  {raw : Map (List UInt8) (List UInt8)}

/-- Where the encoding keeps the order of the keys, the store iterates over them in that order. -/
theorem sortedKeys_eq (h : Stores key value m raw)
    (hkey : ∀ k k', lexOrder.le (key k) (key k') ↔ k ≤ k') :
    @sortedKeys _ _ lexOrder raw = (sortedKeys m).map key := by
  have hinj : Function.Injective key := fun k k' he =>
    le_antisymm ((hkey k k').mp (he ▸ lexOrder.le_refl _))
      ((hkey k' k).mp (he ▸ lexOrder.le_refl _))
  have hperm : (@sortedKeys _ _ lexOrder raw).Perm ((sortedKeys m).map key) := by
    apply (List.perm_ext_iff_of_nodup (@nodup_sortedKeys _ _ lexOrder raw)
      ((nodup_sortedKeys m).map hinj)).mpr
    intro bytes
    rw [@mem_sortedKeys _ _ lexOrder, List.mem_map]
    constructor
    · intro hbytes
      obtain ⟨k, rfl⟩ := h.only bytes hbytes
      exact ⟨k, (mem_sortedKeys m k).mpr ((h.mem_iff k).mp hbytes), rfl⟩
    · rintro ⟨k, hk, rfl⟩
      exact (h.mem_iff k).mpr ((mem_sortedKeys m k).mp hk)
  apply List.Perm.eq_of_pairwise _ (@pairwise_sortedKeys _ _ lexOrder raw) _ hperm
  · intro a b _ _ hab hba
    exact lexOrder.le_antisymm a b hab hba
  · rw [List.pairwise_map]
    exact (pairwise_sortedKeys m).imp fun hle => (hkey _ _).mpr hle

theorem sortedEntries_eq (h : Stores key value m raw)
    (hkey : ∀ k k', lexOrder.le (key k) (key k') ↔ k ≤ k') :
    @sortedEntries _ _ lexOrder raw = (sortedEntries m).map fun e => (key e.1, value e.2) := by
  unfold sortedEntries
  rw [h.sortedKeys_eq hkey, List.filterMap_map, List.map_filterMap]
  apply List.filterMap_congr
  intro k _
  change (raw.lookup (key k)).map _ = _
  rw [h.get, Option.map_map, Option.map_map]
  rfl

end Sorted

end Stores

end ByteString
