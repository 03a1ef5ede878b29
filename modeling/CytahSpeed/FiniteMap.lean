import Mathlib.Data.Finmap
import Mathlib.Data.Finset.Sort
import Mathlib.Data.List.Sort

/-!
# Finite maps with an iteration order

A hash map and an ordered column family are the same finite map; they differ in the order an
iteration visits the entries. `sortedKeys` is the ascending key order of an ordered store. A hash
map promises no order at all: `IterOrder` is an arbitrary choice of a permutation of the entries
for each map, and a result that holds for every `IterOrder` holds whatever order occurs.
-/

namespace FiniteMap

/-- Finite maps from `K` to `V`; equal when every lookup agrees. -/
abbrev Map (K V : Type*) := Finmap (fun _ : K => V)

variable {K V : Type*}

section Sorted
variable [LinearOrder K]

/-- The keys in ascending order, as an iterator over an ordered store yields them. -/
def sortedKeys (m : Map K V) : List K :=
  Quot.liftOn m.keys.val (List.insertionSort (· ≤ ·)) (fun l l' h =>
    List.Perm.eq_of_pairwise' (List.pairwise_insertionSort _ l) (List.pairwise_insertionSort _ l')
      ((List.perm_insertionSort _ l).trans (h.trans (List.perm_insertionSort _ l').symm)))

theorem coe_sortedKeys (m : Map K V) : (sortedKeys m : Multiset K) = m.keys.val := by
  unfold sortedKeys
  induction m.keys.val using Quot.inductionOn with
  | h l => exact Quot.sound (List.perm_insertionSort _ l)

@[simp] theorem mem_sortedKeys (m : Map K V) (k : K) : k ∈ sortedKeys m ↔ k ∈ m := by
  rw [← Multiset.mem_coe, coe_sortedKeys, Finset.mem_val, Finmap.mem_keys]

theorem nodup_sortedKeys (m : Map K V) : (sortedKeys m).Nodup := by
  rw [← Multiset.coe_nodup, coe_sortedKeys]
  exact m.keys.nodup

theorem pairwise_sortedKeys (m : Map K V) : (sortedKeys m).Pairwise (· ≤ ·) := by
  unfold sortedKeys
  induction m.keys.val using Quot.inductionOn with
  | h l => exact List.pairwise_insertionSort _ l

theorem length_sortedKeys (m : Map K V) : (sortedKeys m).length = m.keys.card := by
  rw [← Multiset.coe_card, coe_sortedKeys, Finset.card_val]

end Sorted

variable [DecidableEq K]

theorem lookup_insert_eq_ite (m : Map K V) (k k' : K) (v : V) :
    (m.insert k v).lookup k' = if k' = k then some v else m.lookup k' := by
  by_cases h : k' = k
  · subst h; simp
  · simp [h, Finmap.lookup_insert_of_ne m h]

theorem lookup_erase_eq_ite (m : Map K V) (k k' : K) :
    (m.erase k).lookup k' = if k' = k then none else m.lookup k' := by
  by_cases h : k' = k
  · subst h; simp
  · simp [h, Finmap.lookup_erase_ne h]

theorem lookup_union (m m' : Map K V) (k : K) :
    (m ∪ m').lookup k = (m.lookup k).or (m'.lookup k) := by
  cases hk : m.lookup k with
  | none =>
    rw [Finmap.lookup_union_right (Finmap.lookup_eq_none.mp hk), Option.none_or]
  | some v =>
    rw [Finmap.lookup_union_left (Finmap.mem_iff.mpr ⟨v, hk⟩), hk, Option.some_or]

theorem keys_insert (m : Map K V) (k : K) (v : V) :
    (m.insert k v).keys = insert k m.keys := by
  ext a
  simp [Finmap.mem_keys, Finmap.mem_insert]

theorem card_keys_insert_of_notMem (m : Map K V) (k : K) (v : V) (h : k ∉ m) :
    (m.insert k v).keys.card = m.keys.card + 1 := by
  rw [keys_insert, Finset.card_insert_of_notMem (by rwa [Finmap.mem_keys])]

theorem card_keys_erase {m : Map K V} {k : K} (hk : k ∈ m) :
    (m.erase k).keys.card = m.keys.card - 1 := by
  have hkeys : (m.erase k).keys = m.keys.erase k := by
    ext a
    simp [Finmap.mem_keys]
  rw [hkeys, Finset.card_erase_of_mem (Finmap.mem_keys.mpr hk)]

section Fold
variable {α : Type*} (f : α → K) (g : α → V)

theorem lookup_foldl_insert_of_notMem (l : List α) (m : Map K V) {k : K} (hk : k ∉ l.map f) :
    (l.foldl (fun m e => m.insert (f e) (g e)) m).lookup k = m.lookup k := by
  induction l generalizing m with
  | nil => rfl
  | cons e l ih =>
    rw [List.map_cons, List.mem_cons, not_or] at hk
    rw [List.foldl_cons, ih _ hk.2, lookup_insert_eq_ite, if_neg hk.1]

theorem lookup_foldl_insert_of_mem (l : List α) (m : Map K V) (hl : (l.map f).Nodup) {e : α}
    (he : e ∈ l) : (l.foldl (fun m e => m.insert (f e) (g e)) m).lookup (f e) = some (g e) := by
  induction l generalizing m with
  | nil => cases he
  | cons a l ih =>
    obtain ⟨ha, hl⟩ := List.nodup_cons.mp hl
    rw [List.foldl_cons]
    rcases List.mem_cons.mp he with rfl | he
    · rw [lookup_foldl_insert_of_notMem f g l _ ha, Finmap.lookup_insert]
    · exact ih _ hl he

/-- Entries collected by key, each value pushed behind the ones before it. -/
def collect (l : List (K × V)) : Map K (List V) :=
  l.foldl (fun m e => m.insert e.1 ((m.lookup e.1).getD [] ++ [e.2])) ∅

theorem collect_append_singleton (l : List (K × V)) (e : K × V) :
    collect (l ++ [e]) = (collect l).insert e.1 (((collect l).lookup e.1).getD [] ++ [e.2]) := by
  rw [collect, List.foldl_append]
  rfl

theorem getD_lookup_collect (l : List (K × V)) (k : K) :
    ((collect l).lookup k).getD [] = (l.filter (·.1 = k)).map Prod.snd := by
  induction l using List.reverseRecOn with
  | nil => rfl
  | append_singleton l e ih =>
    rw [collect_append_singleton, lookup_insert_eq_ite, List.filter_append, List.map_append]
    by_cases hk : k = e.1
    · subst hk
      simp [ih]
    · simp [hk, Ne.symm hk, ih]

theorem lookup_collect (l : List (K × V)) (k : K) (b : List V) :
    (collect l).lookup k = some b ↔ b ≠ [] ∧ b = (l.filter (·.1 = k)).map Prod.snd := by
  rw [← getD_lookup_collect]
  have hne : (collect l).lookup k ≠ some [] := by
    induction l using List.reverseRecOn with
    | nil => simp [collect]
    | append_singleton l e ih =>
      rw [collect_append_singleton, lookup_insert_eq_ite]
      by_cases hk : k = e.1
      · simp [hk]
      · rw [if_neg hk]
        exact ih
  constructor
  · intro h
    rw [h]
    refine ⟨?_, rfl⟩
    rintro rfl
    exact hne h
  · intro h
    cases hl : (collect l).lookup k with
    | none =>
      rw [hl] at h
      exact absurd h.2 h.1
    | some b' =>
      rw [hl] at h
      rw [h.2]
      rfl

end Fold

/-- The list holds every entry of the map once. -/
def Enumerates (l : List (K × V)) (m : Map K V) : Prop :=
  (l.map Prod.fst).Nodup ∧ ∀ e, e ∈ l ↔ m.lookup e.1 = some e.2

theorem Enumerates.nodup {l : List (K × V)} {m : Map K V} (h : Enumerates l m) : l.Nodup :=
  List.Nodup.of_map Prod.fst h.1

theorem Enumerates.perm {l l' : List (K × V)} {m : Map K V} (h : Enumerates l m)
    (h' : Enumerates l' m) : l.Perm l' :=
  (List.perm_ext_iff_of_nodup h.nodup h'.nodup).mpr fun e => (h.2 e).trans (h'.2 e).symm

theorem Enumerates.of_perm {l l' : List (K × V)} {m : Map K V} (h : Enumerates l m)
    (hp : l.Perm l') : Enumerates l' m :=
  ⟨(hp.map Prod.fst).nodup_iff.mp h.1, fun e => hp.mem_iff.symm.trans (h.2 e)⟩

theorem Enumerates.toFinset_keys {l : List (K × V)} {m : Map K V} (h : Enumerates l m) :
    (l.map Prod.fst).toFinset = m.keys := by
  ext k
  rw [List.mem_toFinset, List.mem_map, Finmap.mem_keys, Finmap.mem_iff]
  constructor
  · intro he
    obtain ⟨e, he, rfl⟩ := he
    exact ⟨e.2, (h.2 e).mp he⟩
  · intro hv
    obtain ⟨v, hv⟩ := hv
    exact ⟨(k, v), (h.2 (k, v)).mpr hv, rfl⟩

theorem Enumerates.length_eq {l : List (K × V)} {m : Map K V} (h : Enumerates l m) :
    l.length = m.keys.card := by
  rw [← h.toFinset_keys, List.toFinset_card_of_nodup h.1, List.length_map]

theorem Enumerates.foldl_insert {l : List (K × V)} {m : Map K V} (h : Enumerates l m)
    (m' : Map K V) : l.foldl (fun m e => m.insert e.1 e.2) m' = m ∪ m' := by
  apply Finmap.ext_lookup
  intro k
  rw [lookup_union]
  cases hk : m.lookup k with
  | none =>
    rw [Option.none_or]
    apply lookup_foldl_insert_of_notMem Prod.fst Prod.snd
    intro hmem
    obtain ⟨e, he, rfl⟩ := List.mem_map.mp hmem
    rw [(h.2 e).mp he] at hk
    cases hk
  | some v =>
    rw [Option.some_or]
    exact lookup_foldl_insert_of_mem Prod.fst Prod.snd l m' h.1 ((h.2 (k, v)).mpr hk)

/-- An order of iteration for every map with these keys and values. -/
structure IterOrder (K V : Type*) [DecidableEq K] where
  iter : Map K V → List (K × V)
  enumerates : ∀ m, Enumerates (iter m) m

namespace IterOrder

/-- The same entries, last first. -/
def reverse (o : IterOrder K V) : IterOrder K V where
  iter m := (o.iter m).reverse
  enumerates m := (o.enumerates m).of_perm (List.reverse_perm _).symm

def withList [DecidableEq V] (o : IterOrder K V) (m : Map K V) (l : List (K × V))
    (h : Enumerates l m) : IterOrder K V where
  iter m' := if m' = m then l else o.iter m'
  enumerates m' := by
    by_cases hm : m' = m
    · rw [if_pos hm, hm]
      exact h
    · rw [if_neg hm]
      exact o.enumerates m'

end IterOrder

theorem lookup_foldl_erase {α : Type*} (f : α → K) (l : List α) (m : Map K V) (k : K) :
    (l.foldl (fun m x => m.erase (f x)) m).lookup k =
      if k ∈ l.map f then none else m.lookup k := by
  induction l generalizing m with
  | nil => simp
  | cons x l ih =>
    rw [List.foldl_cons, ih, lookup_erase_eq_ite]
    by_cases hk : k = f x <;> simp [hk]

section Retain
variable (f : K → V → Option V)

/-- Every entry visited once and rewritten, or dropped where there is no new value. -/
def retain (o : IterOrder K V) (m : Map K V) : Map K V :=
  (o.iter m).foldl (fun m e =>
    match f e.1 e.2 with
    | some v => m.insert e.1 v
    | none => m.erase e.1) m

theorem lookup_foldl_retain (l : List (K × V)) (m : Map K V) (hl : (l.map Prod.fst).Nodup)
    (hm : ∀ e ∈ l, m.lookup e.1 = some e.2) (k : K) :
    (l.foldl (fun m e =>
      match f e.1 e.2 with
      | some v => m.insert e.1 v
      | none => m.erase e.1) m).lookup k =
      if k ∈ l.map Prod.fst then (m.lookup k).bind (f k) else m.lookup k := by
  induction l generalizing m with
  | nil => simp
  | cons e l ih =>
    obtain ⟨he, hl⟩ := List.nodup_cons.mp hl
    have hstep : ∀ k, (match f e.1 e.2 with
        | some v => m.insert e.1 v
        | none => m.erase e.1).lookup k = if k = e.1 then f e.1 e.2 else m.lookup k := by
      intro k
      cases f e.1 e.2 with
      | some v => exact lookup_insert_eq_ite m e.1 k v
      | none => exact lookup_erase_eq_ite m e.1 k
    rw [List.foldl_cons, ih _ hl]
    · rw [hstep]
      by_cases hk : k = e.1
      · subst hk
        rw [if_neg he, if_pos rfl, if_pos (List.mem_map_of_mem List.mem_cons_self),
          hm e List.mem_cons_self, Option.bind_some]
      · have hmem : k ∈ (e :: l).map Prod.fst ↔ k ∈ l.map Prod.fst := by
          rw [List.map_cons, List.mem_cons]
          exact or_iff_right hk
        simp only [hmem, if_neg hk]
    · intro e' he'
      have hne : e'.1 ≠ e.1 := by
        intro h
        exact he (h ▸ List.mem_map_of_mem he')
      rw [hstep, if_neg hne]
      exact hm e' (List.mem_cons_of_mem _ he')

theorem lookup_retain (o : IterOrder K V) (m : Map K V) (k : K) :
    (retain f o m).lookup k = (m.lookup k).bind (f k) := by
  have hen := o.enumerates m
  rw [retain, lookup_foldl_retain f _ m hen.1 (fun e he => (hen.2 e).mp he)]
  by_cases hk : k ∈ (o.iter m).map Prod.fst
  · rw [if_pos hk]
  · rw [if_neg hk]
    cases hv : m.lookup k with
    | none => rfl
    | some v => exact absurd (List.mem_map.mpr ⟨(k, v), (hen.2 _).mpr hv, rfl⟩) hk

end Retain

/-- An order of iteration for every finite set. -/
structure SetOrder (K : Type*) where
  iter : Finset K → List K
  coe_iter : ∀ s, (iter s : Multiset K) = s.val

/-- The order that visits one element first where it is present. -/
def SetOrder.startingAt {K : Type*} [DecidableEq K] (o : SetOrder K) (k : K) : SetOrder K where
  iter s := if k ∈ s then k :: (o.iter s).erase k else o.iter s
  coe_iter s := by
    by_cases hk : k ∈ s
    · have hmem : k ∈ o.iter s := by
        rw [← Multiset.mem_coe, o.coe_iter, Finset.mem_val]
        exact hk
      rw [if_pos hk, ← o.coe_iter, Multiset.coe_eq_coe]
      exact (List.perm_cons_erase hmem).symm
    · rw [if_neg hk]
      exact o.coe_iter s

def SetOrder.sorted {K : Type*} [LinearOrder K] : SetOrder K :=
  ⟨fun s => s.sort (· ≤ ·), fun s => s.sort_eq (· ≤ ·)⟩

section SortedEntries
variable {K V : Type*} [LinearOrder K]

/-- The entries in ascending order of their keys. -/
def sortedEntries (m : Map K V) : List (K × V) :=
  (sortedKeys m).filterMap fun k => (m.lookup k).map fun v => (k, v)

theorem map_fst_filterMap_sublist (m : Map K V) (ks : List K) :
    ((ks.filterMap fun k => (m.lookup k).map fun v => (k, v)).map Prod.fst).Sublist ks := by
  induction ks with
  | nil => simp
  | cons k ks ih =>
    cases hk : m.lookup k with
    | none =>
      rw [List.filterMap_cons_none (by simp [hk])]
      exact ih.cons k
    | some v =>
      rw [List.filterMap_cons_some (by simp [hk]; rfl)]
      exact ih.cons_cons k

theorem enumerates_sortedEntries (m : Map K V) : Enumerates (sortedEntries m) m := by
  refine ⟨(map_fst_filterMap_sublist m (sortedKeys m)).nodup (nodup_sortedKeys m), ?_⟩
  intro e
  rw [sortedEntries, List.mem_filterMap]
  constructor
  · intro he
    obtain ⟨k, -, hk⟩ := he
    obtain ⟨v, hv, rfl⟩ := Option.map_eq_some_iff.mp hk
    exact hv
  · intro he
    exact ⟨e.1, (mem_sortedKeys m e.1).mpr (Finmap.mem_iff.mpr ⟨e.2, he⟩), by rw [he]; rfl⟩

def IterOrder.sorted : IterOrder K V := ⟨sortedEntries, enumerates_sortedEntries⟩

end SortedEntries

end FiniteMap
