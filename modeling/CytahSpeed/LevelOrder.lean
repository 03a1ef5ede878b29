import Mathlib.Data.Finset.Card
import Mathlib.Data.Finset.Union
import Mathlib.Logic.Relation

/-!
# The first node met by a breadth-first search

A search that takes nodes from a queue, skips those it has visited and appends the successors of
the others meets nodes level by level: first the start, then its successors, then theirs. The
levels are listed here without any set of visited nodes, repetitions included (`listing`), and the
search for a node with some property finds the first one of the listing that has it.
-/

namespace LevelOrder

variable {α : Type*} [DecidableEq α] (succ : α → List α)

/-- The ends of the walks of `n` steps, in the order of the successor lists. -/
def level (start : α) : ℕ → List α
  | 0 => [start]
  | n + 1 => (level start n).flatMap succ

def listing (start : α) (n : ℕ) : List α := (List.range n).flatMap (level succ start)

/-- The search: skip visited nodes, stop at one that is wanted, queue the unvisited successors. -/
def search (wanted : α → Bool) : ℕ → List α → Finset α → Option α
  | 0, _, _ => none
  | _ + 1, [], _ => none
  | fuel + 1, x :: queue, visited =>
    if x ∈ visited then search wanted fuel queue visited
    else if wanted x then some x
    else search wanted fuel (queue ++ (succ x).filter (· ∉ insert x visited)) (insert x visited)

section Listing
omit [DecidableEq α]
variable {succ} {start : α}

theorem listing_append_level (n : ℕ) :
    listing succ start (n + 1) = listing succ start n ++ level succ start n := by
  simp [listing, List.range_succ]

theorem listing_succ (n : ℕ) :
    listing succ start (n + 1) = start :: (listing succ start n).flatMap succ := by
  induction n with
  | zero => rfl
  | succ n ih =>
    have hflat : (listing succ start (n + 1)).flatMap succ =
        (listing succ start n).flatMap succ ++ level succ start (n + 1) := by
      rw [listing_append_level, List.flatMap_append, level]
    rw [listing_append_level, hflat, ih, List.cons_append]

/-- Once a level is empty the listing is complete: it is the start, and behind it the successors
of its own nodes. -/
theorem listing_eq_cons {n : ℕ} (hempty : level succ start n = []) :
    listing succ start n = start :: (listing succ start n).flatMap succ := by
  rw [← listing_succ, listing_append_level, hempty, List.append_nil]

theorem reflTransGen_of_mem_level {n : ℕ} {x : α} (hx : x ∈ level succ start n) :
    Relation.ReflTransGen (fun a b => b ∈ succ a) start x := by
  induction n generalizing x with
  | zero =>
    obtain rfl := List.mem_singleton.mp hx
    exact .refl
  | succ n ih =>
    obtain ⟨y, hy, hxy⟩ := List.mem_flatMap.mp hx
    exact (ih hy).tail hxy

theorem mem_listing_iff {n : ℕ} (hempty : level succ start n = []) {x : α} :
    x ∈ listing succ start n ↔ Relation.ReflTransGen (fun a b => b ∈ succ a) start x := by
  constructor
  · intro hx
    obtain ⟨m, -, hm⟩ := List.mem_flatMap.mp hx
    exact reflTransGen_of_mem_level hm
  · intro hx
    have heq := listing_eq_cons hempty
    induction hx with
    | refl =>
      rw [heq]
      exact List.mem_cons_self
    | tail _ hstep ih =>
      rw [heq]
      exact List.mem_cons_of_mem _ (List.mem_flatMap.mpr ⟨_, ih, hstep⟩)

end Listing

/-- The nodes of a list that are not visited, each at its first occurrence. -/
def fresh : Finset α → List α → List α
  | _, [] => []
  | visited, x :: l => if x ∈ visited then fresh visited l else x :: fresh (insert x visited) l

section Fresh
variable {visited : Finset α} {x : α} {l l' : List α}

theorem mem_fresh : x ∈ fresh visited l ↔ x ∈ l ∧ x ∉ visited := by
  induction l generalizing visited with
  | nil => simp [fresh]
  | cons y l ih =>
    rw [fresh]
    by_cases hy : y ∈ visited
    · rw [if_pos hy, ih, List.mem_cons]
      constructor
      · exact fun h => ⟨Or.inr h.1, h.2⟩
      · rintro ⟨rfl | hx, hn⟩
        · exact absurd hy hn
        · exact ⟨hx, hn⟩
    · rw [if_neg hy, List.mem_cons, ih, List.mem_cons, Finset.mem_insert, not_or]
      constructor
      · rintro (rfl | ⟨hx, -, hn⟩)
        · exact ⟨Or.inl rfl, hy⟩
        · exact ⟨Or.inr hx, hn⟩
      · rintro ⟨rfl | hx, hn⟩
        · exact Or.inl rfl
        · by_cases he : x = y
          · exact Or.inl he
          · exact Or.inr ⟨hx, he, hn⟩

theorem fresh_eq_nil_iff : fresh visited l = [] ↔ ∀ x ∈ l, x ∈ visited := by
  rw [List.eq_nil_iff_forall_not_mem]
  refine forall_congr' fun x => ?_
  rw [mem_fresh, not_and, not_not]

theorem fresh_append : fresh visited (l ++ l') =
    fresh visited l ++ fresh (visited ∪ l.toFinset) l' := by
  induction l generalizing visited with
  | nil => simp [fresh]
  | cons y l ih =>
    rw [List.cons_append, fresh, fresh, List.toFinset_cons, Finset.union_insert]
    by_cases hy : y ∈ visited
    · rw [if_pos hy, if_pos hy, ih, Finset.insert_eq_of_mem (Finset.mem_union_left _ hy)]
    · rw [if_neg hy, if_neg hy, ih, List.cons_append, Finset.insert_union]

theorem fresh_filter {w : Finset α} (hw : w ⊆ visited) :
    fresh visited (l.filter (· ∉ w)) = fresh visited l := by
  induction l generalizing visited with
  | nil => rfl
  | cons y l ih =>
    rw [List.filter_cons]
    by_cases hy : y ∈ w
    · rw [if_neg (by simpa using hy), fresh, if_pos (hw hy), ih hw]
    · rw [if_pos (by simpa using hy), fresh, fresh, ih hw,
        ih (hw.trans (Finset.subset_insert y visited))]

theorem fresh_append_congr {m : List α} (h : fresh visited l = fresh visited l') :
    fresh visited (l ++ m) = fresh visited (l' ++ m) := by
  have hunion : visited ∪ l.toFinset = visited ∪ l'.toFinset := by
    ext x
    have hmem : x ∈ l ∧ x ∉ visited ↔ x ∈ l' ∧ x ∉ visited := by
      rw [← mem_fresh, ← mem_fresh, h]
    simp only [Finset.mem_union, List.mem_toFinset]
    tauto
  rw [fresh_append, fresh_append, h, hunion]

end Fresh

section Search
variable {succ} {wanted : α → Bool}

theorem search_of_fresh_eq_nil (fuel : ℕ) {queue : List α} {visited : Finset α}
    (h : fresh visited queue = []) : search succ wanted fuel queue visited = none := by
  induction fuel generalizing queue with
  | zero => rfl
  | succ fuel ih =>
    cases queue with
    | nil => rfl
    | cons x queue =>
      have hx := fresh_eq_nil_iff.mp h
      rw [search, if_pos (hx x List.mem_cons_self)]
      exact ih (fresh_eq_nil_iff.mpr fun y hy => hx y (List.mem_cons_of_mem _ hy))

theorem search_of_fresh_eq_cons (succ : α → List α) (wanted : α → Bool) {queue : List α}
    {visited : Finset α} {x : α} {l : List α} (h : fresh visited queue = x :: l) :
    ∃ skipped queue', queue.length = skipped + (queue'.length + 1) ∧ x ∉ visited ∧
      fresh (insert x visited) queue' = l ∧
      ∀ fuel, search succ wanted (fuel + skipped) queue visited =
        search succ wanted fuel (x :: queue') visited := by
  induction queue with
  | nil => cases h
  | cons y queue ih =>
    rw [fresh] at h
    by_cases hy : y ∈ visited
    · rw [if_pos hy] at h
      obtain ⟨skipped, queue', hlen, hx, hl, hsearch⟩ := ih h
      refine ⟨skipped + 1, queue', by rw [List.length_cons, hlen]; omega, hx, hl, fun fuel => ?_⟩
      rw [← Nat.add_assoc, search, if_pos hy, hsearch]
    · rw [if_neg hy] at h
      obtain ⟨rfl, rfl⟩ := List.cons.inj h
      exact ⟨0, queue, by simp, hy, rfl, fun fuel => rfl⟩

def pending (succ : α → List α) (nodes : List α) (visited : Finset α) : ℕ :=
  ((nodes.filter (· ∉ visited)).flatMap succ).length

theorem pending_cons (x : α) (nodes : List α) (visited : Finset α) :
    pending succ (x :: nodes) visited =
      (if x ∈ visited then 0 else (succ x).length) + pending succ nodes visited := by
  by_cases hx : x ∈ visited <;> simp [pending, hx]

theorem pending_insert_le (succ : α → List α) (nodes : List α) (visited : Finset α) (x : α) :
    pending succ nodes (insert x visited) ≤ pending succ nodes visited := by
  induction nodes with
  | nil => exact le_rfl
  | cons y nodes ih =>
    rw [pending_cons, pending_cons]
    refine Nat.add_le_add ?_ ih
    by_cases hy : y ∈ visited
    · rw [if_pos (Finset.mem_insert_of_mem hy), if_pos hy]
    · rw [if_neg hy]
      split <;> omega

theorem pending_insert {nodes : List α} {visited : Finset α} {x : α} (hx : x ∉ visited)
    (hnodes : x ∉ nodes → succ x = []) :
    pending succ nodes (insert x visited) + (succ x).length ≤ pending succ nodes visited := by
  induction nodes with
  | nil => simp [hnodes List.not_mem_nil, pending]
  | cons y nodes ih =>
    rw [pending_cons, pending_cons]
    by_cases he : y = x
    · have hle := pending_insert_le succ nodes visited x
      rw [he, if_pos (Finset.mem_insert_self x visited), if_neg hx]
      omega
    · have hle := ih fun hn => hnodes (by simp [Ne.symm he, hn])
      have hmem : y ∈ insert x visited ↔ y ∈ visited := by
        rw [Finset.mem_insert]
        exact or_iff_right he
      simp only [hmem]
      omega

/-- The queue of a search that skips nothing: behind the nodes seen so far stand those that are
pushed and not popped. -/
def Plain (succ : α → List α) (start : α) (seen plain : List α) : Prop :=
  start :: seen.flatMap succ = seen ++ plain

omit [DecidableEq α] in
theorem Plain.pop {start x : α} {seen plain : List α} (h : Plain succ start seen (x :: plain)) :
    Plain succ start (seen ++ [x]) (plain ++ succ x) := by
  rw [Plain, List.flatMap_append, List.flatMap_singleton, ← List.cons_append, h]
  simp

omit [DecidableEq α] in
theorem Plain.mem_succ {start x y : α} {seen plain : List α} (h : Plain succ start seen plain)
    (hx : x ∈ seen) (hy : y ∈ succ x) : y ∈ seen ∨ y ∈ plain := by
  rw [← List.mem_append, ← h]
  exact List.mem_cons_of_mem _ (List.mem_flatMap.mpr ⟨x, hx, hy⟩)

omit [DecidableEq α] in
theorem Plain.mem_of_nil {start x : α} {seen : List α} (h : Plain succ start seen [])
    (hx : Relation.ReflTransGen (fun a b => b ∈ succ a) start x) : x ∈ seen := by
  induction hx with
  | refl =>
    rw [← List.append_nil seen, ← h]
    exact List.mem_cons_self
  | tail _ hstep ih => simpa using h.mem_succ ih hstep

omit [DecidableEq α] in
theorem Plain.head_eq {start x y : α} {seen plain rest : List α}
    (h : Plain succ start seen (y :: plain))
    (hlisting : seen ++ x :: rest = start :: (seen ++ x :: rest).flatMap succ) : x = y := by
  rw [List.flatMap_append, ← List.cons_append, h, List.append_assoc] at hlisting
  exact (List.cons.inj (List.append_cancel_left hlisting)).1

theorem Plain.fresh_append_succ {start x : α} {seen plain : List α}
    (h : Plain succ start seen (x :: plain)) (hx : x ∈ seen) :
    fresh seen.toFinset (plain ++ succ x) = fresh seen.toFinset (x :: plain) := by
  rw [fresh, if_pos (List.mem_toFinset.mpr hx), fresh_append, List.append_right_eq_self,
    fresh_eq_nil_iff]
  intro z hz
  rw [Finset.mem_union, List.mem_toFinset, List.mem_toFinset]
  rcases h.mem_succ hx hz with hz | hz
  · exact Or.inl hz
  · rcases List.mem_cons.mp hz with rfl | hz
    · exact Or.inl hx
    · exact Or.inr hz

theorem fresh_append_filter {visited : Finset α} {queue plain l : List α}
    (h : fresh visited queue = fresh visited plain) :
    fresh visited (queue ++ l.filter (· ∉ visited)) = fresh visited (plain ++ l) := by
  rw [fresh_append, fresh_filter Finset.subset_union_left, ← fresh_append]
  exact fresh_append_congr h

/-- Where the listing goes on with `rest` behind the nodes seen so far, the search finds what is
first in `rest`: its queue holds the same fresh nodes as the plain queue. -/
theorem search_eq_find? {start : α} {nodes : List α} (hnodes : ∀ x, x ∉ nodes → succ x = [])
    (rest seen plain : List α) {queue : List α} {fuel : ℕ}
    (hreach : ∀ x ∈ rest, Relation.ReflTransGen (fun a b => b ∈ succ a) start x)
    (hlisting : seen ++ rest = start :: (seen ++ rest).flatMap succ)
    (hplain : Plain succ start seen plain)
    (hfresh : fresh seen.toFinset queue = fresh seen.toFinset plain)
    (hseen : ∀ x ∈ seen, wanted x = false)
    (hfuel : queue.length + pending succ nodes seen.toFinset ≤ fuel) :
    search succ wanted fuel queue seen.toFinset = rest.find? wanted := by
  induction rest generalizing seen plain queue fuel with
  | nil =>
    have hnil : plain = [] := by
      rw [List.append_nil, hplain] at hlisting
      simpa using hlisting.symm
    rw [hnil, fresh] at hfresh
    exact search_of_fresh_eq_nil fuel hfresh
  | cons x rest ih =>
    cases plain with
    | nil =>
      rw [search_of_fresh_eq_nil fuel hfresh, eq_comm, List.find?_eq_none]
      intro y hy
      simp [hseen y (hplain.mem_of_nil (hreach y hy))]
    | cons y plain =>
      obtain rfl := hplain.head_eq hlisting
      have hreach' := fun z hz => hreach z (List.mem_cons_of_mem x hz)
      rw [List.append_cons] at hlisting
      have hseen' : wanted x = false → ∀ z ∈ seen ++ [x], wanted z = false := fun hx =>
        List.forall_mem_append.mpr ⟨hseen, List.forall_mem_singleton.mpr hx⟩
      by_cases hx : x ∈ seen
      · have hset : (seen ++ [x]).toFinset = seen.toFinset := by
          ext z
          simp only [List.mem_toFinset, List.mem_append, List.mem_singleton]
          exact or_iff_left_of_imp fun he => he ▸ hx
        rw [List.find?_cons_of_neg (by simp [hseen x hx]), ← hset]
        refine ih _ _ hreach' hlisting hplain.pop ?_ (hseen' (hseen x hx)) (by rwa [hset])
        rw [hset, hfresh, hplain.fresh_append_succ hx]
      · rw [fresh, if_neg (by simpa using hx)] at hfresh
        obtain ⟨skipped, queue', hlen, hxs, hfresh', hsearch⟩ :=
          search_of_fresh_eq_cons succ wanted hfresh
        obtain ⟨m, rfl⟩ : ∃ m, fuel = m + 1 + skipped := ⟨fuel - skipped - 1, by omega⟩
        have hset : (seen ++ [x]).toFinset = insert x seen.toFinset := by
          ext z
          simp
        rw [hsearch, search, if_neg hxs]
        by_cases hw : wanted x = true
        · rw [if_pos hw, List.find?_cons_of_pos hw]
        · rw [if_neg hw, List.find?_cons_of_neg hw, ← hset]
          have hpending := pending_insert hxs (hnodes x)
          refine ih _ _ hreach' hlisting hplain.pop ?_
            (hseen' (Bool.eq_false_of_not_eq_true hw)) ?_
          · rw [hset]
            exact fresh_append_filter hfresh'
          · have hle :=
              List.length_filter_le (fun y => decide (y ∉ (seen ++ [x]).toFinset)) (succ x)
            rw [List.length_append, hset] at *
            omega

theorem search_eq_find?_listing {start : α} {nodes : List α}
    (hnodes : ∀ x, x ∉ nodes → succ x = []) {n fuel : ℕ} (hempty : level succ start n = [])
    (hfuel : (nodes.flatMap succ).length + 1 ≤ fuel) :
    search succ wanted fuel [start] ∅ = (listing succ start n).find? wanted := by
  refine search_eq_find? hnodes _ [] [start] (fun x hx => (mem_listing_iff hempty).mp hx)
    (listing_eq_cons hempty) rfl rfl (by simp) ?_
  have hfilter : pending succ nodes ∅ = (nodes.flatMap succ).length := by simp [pending]
  rw [List.toFinset_nil, hfilter, List.length_singleton]
  omega

end Search

end LevelOrder
