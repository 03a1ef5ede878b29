import Mathlib.Data.Finset.Card
import Mathlib.Data.Finset.Union
import Mathlib.Logic.Relation

/-!
# Breadth-first search with a worklist

`search` pops a node from a queue, marks those of its successors that are not marked yet and
appends them to the queue. With enough fuel for the finite set of nodes that occur as successors,
it marks exactly the nodes reached from the start by one or more steps. `searchOnce` is the
variant that also keeps a set of processed nodes and never marks the start.
-/

namespace Worklist

variable {α : Type*} [DecidableEq α] (succ : α → List α)

/-- Mark the new ones among the given nodes, appending each to the queue. -/
def visit : List α → Finset α × List α → Finset α × List α
  | [], s => s
  | x :: xs, s => visit xs (if x ∈ s.1 then s else (insert x s.1, s.2 ++ [x]))

def search : ℕ → List α → Finset α → Finset α
  | 0, _, marked => marked
  | _ + 1, [], marked => marked
  | fuel + 1, x :: queue, marked =>
    search fuel (visit (succ x) (marked, queue)).2 (visit (succ x) (marked, queue)).1

/-- One step from a node to a successor. -/
def Step (a b : α) : Prop := b ∈ succ a

theorem mem_visit_fst (xs : List α) (s : Finset α × List α) (y : α) :
    y ∈ (visit xs s).1 ↔ y ∈ s.1 ∨ y ∈ xs := by
  induction xs generalizing s with
  | nil => simp [visit]
  | cons x xs ih =>
    rw [visit, ih, List.mem_cons]
    by_cases hx : x ∈ s.1
    · rw [if_pos hx]
      constructor
      · rintro (h | h)
        · exact Or.inl h
        · exact Or.inr (Or.inr h)
      · rintro (h | rfl | h)
        · exact Or.inl h
        · exact Or.inl hx
        · exact Or.inr h
    · rw [if_neg hx, Finset.mem_insert]
      tauto

theorem mem_visit_snd (xs : List α) (s : Finset α × List α) (y : α) :
    y ∈ (visit xs s).2 ↔ y ∈ s.2 ∨ (y ∈ xs ∧ y ∉ s.1) := by
  induction xs generalizing s with
  | nil => simp [visit]
  | cons x xs ih =>
    rw [visit, ih, List.mem_cons]
    by_cases hx : x ∈ s.1
    · rw [if_pos hx]
      constructor
      · rintro (h | h)
        · exact Or.inl h
        · exact Or.inr ⟨Or.inr h.1, h.2⟩
      · rintro (h | ⟨rfl | h, hn⟩)
        · exact Or.inl h
        · exact absurd hx hn
        · exact Or.inr ⟨h, hn⟩
    · rw [if_neg hx]
      simp only [List.mem_append, List.mem_singleton, Finset.mem_insert, not_or]
      constructor
      · rintro ((h | rfl) | ⟨h, hne, hn⟩)
        · exact Or.inl h
        · exact Or.inr ⟨Or.inl rfl, hx⟩
        · exact Or.inr ⟨Or.inr h, hn⟩
      · rintro (h | ⟨rfl | h, hn⟩)
        · exact Or.inl (Or.inl h)
        · exact Or.inl (Or.inr rfl)
        · by_cases hyx : y = x
          · exact Or.inl (Or.inr hyx)
          · exact Or.inr ⟨h, hyx, hn⟩

theorem card_visit (xs : List α) (s : Finset α × List α) :
    (visit xs s).2.length + s.1.card = s.2.length + (visit xs s).1.card := by
  induction xs generalizing s with
  | nil => rfl
  | cons x xs ih =>
    rw [visit]
    by_cases hx : x ∈ s.1
    · rw [if_pos hx]
      exact ih s
    · rw [if_neg hx]
      have h := ih (insert x s.1, s.2 ++ [x])
      simp only [List.length_append, List.length_singleton, Finset.card_insert_of_notMem hx] at h
      omega

/-- What holds whenever the queue is read: marks are reached from the start, and a node that was
reached and is no longer queued has all its successors marked. -/
structure Inv (start : α) (queue : List α) (marked : Finset α) : Prop where
  sound : ∀ x ∈ marked, Relation.TransGen (Step succ) start x
  queued : ∀ x ∈ queue, x = start ∨ x ∈ marked
  closed : ∀ x, x = start ∨ x ∈ marked → x ∉ queue → ∀ y ∈ succ x, y ∈ marked

omit [DecidableEq α] in
theorem inv_start (start : α) : Inv succ start [start] ∅ := by
  refine ⟨by simp, by simp, ?_⟩
  rintro x (rfl | hx) hq
  · simp at hq
  · simp at hx

theorem inv_visit {start x : α} {queue : List α} {marked : Finset α}
    (h : Inv succ start (x :: queue) marked) :
    Inv succ start (visit (succ x) (marked, queue)).2 (visit (succ x) (marked, queue)).1 := by
  have hreach : Relation.ReflTransGen (Step succ) start x := by
    rcases h.queued x List.mem_cons_self with rfl | hx
    · exact Relation.ReflTransGen.refl
    · exact (h.sound x hx).to_reflTransGen
  refine ⟨?_, ?_, ?_⟩
  · intro y hy
    rcases (mem_visit_fst _ _ _).mp hy with hy | hy
    · exact h.sound y hy
    · exact Relation.TransGen.tail' hreach hy
  · intro y hy
    rcases (mem_visit_snd _ _ _).mp hy with hy | hy
    · rcases h.queued y (List.mem_cons_of_mem _ hy) with rfl | hm
      · exact Or.inl rfl
      · exact Or.inr ((mem_visit_fst _ _ _).mpr (Or.inl hm))
    · exact Or.inr ((mem_visit_fst _ _ _).mpr (Or.inr hy.1))
  · intro y hy hq z hz
    rw [mem_visit_snd] at hq
    push Not at hq
    rw [mem_visit_fst]
    by_cases hyx : y = x
    · exact Or.inr (hyx ▸ hz)
    · refine Or.inl (h.closed y ?_ (by simp [hyx, hq.1]) z hz)
      rcases hy with rfl | hy
      · exact Or.inl rfl
      · rcases (mem_visit_fst _ _ _).mp hy with hm | hs
        · exact Or.inr hm
        · exact Or.inr (hq.2 hs)

/-- The fuel never runs out while it covers the queue and the successors not marked yet. -/
theorem search_inv (univ : Finset α) (huniv : ∀ x, ∀ y ∈ succ x, y ∈ univ) (fuel : ℕ)
    (start : α) (queue : List α) (marked : Finset α) (hsub : marked ⊆ univ)
    (hfuel : queue.length + (univ.card - marked.card) ≤ fuel) (h : Inv succ start queue marked) :
    Inv succ start [] (search succ fuel queue marked) := by
  induction fuel generalizing queue marked with
  | zero =>
    have hq : queue = [] := List.length_eq_zero_iff.mp (by omega)
    subst hq
    exact h
  | succ fuel ih =>
    cases queue with
    | nil => exact h
    | cons x queue =>
      rw [search]
      have hsub' : (visit (succ x) (marked, queue)).1 ⊆ univ := by
        intro y hy
        rcases (mem_visit_fst _ _ _).mp hy with hy | hy
        · exact hsub hy
        · exact huniv x y hy
      have hcard := card_visit (succ x) (marked, queue)
      have hle := Finset.card_le_card hsub'
      have hle₀ := Finset.card_le_card hsub
      apply ih _ _ hsub' _ (inv_visit succ h)
      simp only [List.length_cons] at hfuel
      simp only at hcard
      omega

omit [DecidableEq α] in
theorem mem_of_inv_nil {start : α} {marked : Finset α} (h : Inv succ start [] marked) (x : α) :
    x ∈ marked ↔ Relation.TransGen (Step succ) start x := by
  refine ⟨h.sound x, ?_⟩
  intro hx
  induction hx with
  | single hs => exact h.closed start (Or.inl rfl) (by simp) _ hs
  | tail _ hs ih => exact h.closed _ (Or.inr ih) (by simp) _ hs

theorem mem_search (univ : Finset α) (huniv : ∀ x, ∀ y ∈ succ x, y ∈ univ) (start x : α) :
    x ∈ search succ (univ.card + 1) [start] ∅ ↔ Relation.TransGen (Step succ) start x :=
  mem_of_inv_nil succ (search_inv succ univ huniv _ start [start] ∅ (by simp) (by simp; omega)
    (inv_start succ start)) x

/-- The search that skips processed nodes and never marks the start. -/
def searchOnce (start : α) : ℕ → List α → Finset α → Finset α → Finset α
  | 0, _, _, marked => marked
  | _ + 1, [], _, marked => marked
  | fuel + 1, x :: queue, visited, marked =>
    if x ∈ visited then searchOnce start fuel queue visited marked
    else
      let s := visit ((succ x).filter (· ≠ start)) (marked, queue)
      searchOnce start fuel s.2 (insert x visited) s.1

theorem nodup_visit_snd (xs : List α) (s : Finset α × List α) (hn : s.2.Nodup)
    (hq : ∀ y ∈ s.2, y ∉ xs ∨ y ∈ s.1) : (visit xs s).2.Nodup := by
  induction xs generalizing s with
  | nil => exact hn
  | cons x xs ih =>
    rw [visit]
    by_cases hx : x ∈ s.1
    · rw [if_pos hx]
      apply ih s hn
      intro y hy
      rcases hq y hy with h | h
      · exact Or.inl (fun hm => h (List.mem_cons_of_mem _ hm))
      · exact Or.inr h
    · rw [if_neg hx]
      have hxq : x ∉ s.2 := by
        intro hm
        rcases hq x hm with h | h
        · exact h List.mem_cons_self
        · exact hx h
      apply ih
      · exact List.nodup_append.mpr ⟨hn, List.nodup_singleton x, by
          intro a ha b hb hab
          rw [List.mem_singleton] at hb
          exact hxq (by rw [← hb, ← hab]; exact ha)⟩
      · intro y hy
        rcases List.mem_append.mp hy with hy | hy
        · rcases hq y hy with h | h
          · exact Or.inl (fun hm => h (List.mem_cons_of_mem _ hm))
          · exact Or.inr (Finset.mem_insert_of_mem h)
        · exact Or.inr (by rw [List.mem_singleton.mp hy]; exact Finset.mem_insert_self _ _)

/-- A node enters the queue when it is marked, hence once: skipping processed nodes changes
nothing, and `searchOnce` is the search that drops the start from every successor list. -/
theorem searchOnce_eq_search (start : α) (fuel : ℕ) (queue : List α) (visited marked : Finset α)
    (hn : queue.Nodup) (hq : ∀ x ∈ queue, x ∉ visited ∧ (x = start ∨ x ∈ marked))
    (hv : ∀ x ∈ visited, x = start ∨ x ∈ marked) :
    searchOnce succ start fuel queue visited marked =
      search (fun x => (succ x).filter (· ≠ start)) fuel queue marked := by
  induction fuel generalizing queue visited marked with
  | zero => rfl
  | succ fuel ih =>
    cases queue with
    | nil => rfl
    | cons x queue =>
      have hx := hq x List.mem_cons_self
      rw [searchOnce, if_neg hx.1, search]
      obtain ⟨hxq, hn'⟩ := List.nodup_cons.mp hn
      have hold : ∀ y, y = start ∨ y ∈ marked →
          y ∉ (succ x).filter (· ≠ start) ∨ y ∈ marked := by
        rintro y (rfl | hy)
        · exact Or.inl (by simp)
        · exact Or.inr hy
      have hmarked : ∀ y, y = start ∨ y ∈ marked →
          y = start ∨ y ∈ (visit ((succ x).filter (· ≠ start)) (marked, queue)).1 := by
        rintro y (h | h)
        · exact Or.inl h
        · exact Or.inr ((mem_visit_fst _ _ _).mpr (Or.inl h))
      apply ih
      · exact nodup_visit_snd _ _ hn'
          (fun y hy => hold y (hq y (List.mem_cons_of_mem _ hy)).2)
      · intro y hy
        rw [Finset.mem_insert, not_or]
        rcases (mem_visit_snd _ _ _).mp hy with hy | ⟨hy, hnm⟩
        · have h := hq y (List.mem_cons_of_mem _ hy)
          exact ⟨⟨fun he => hxq (he ▸ hy), h.1⟩, hmarked y h.2⟩
        · have hne : y ≠ start := by simpa using (List.mem_filter.mp hy).2
          have hnew : ∀ z, z = start ∨ z ∈ marked → y ≠ z := by
            rintro z (rfl | hz) rfl
            · exact hne rfl
            · exact hnm hz
          refine ⟨⟨hnew x hx.2, fun hm => hnew y (hv y hm) rfl⟩, Or.inr ?_⟩
          exact (mem_visit_fst _ _ _).mpr (Or.inr hy)
      · intro y hy
        rcases Finset.mem_insert.mp hy with rfl | hy
        · exact hmarked y hx.2
        · exact hmarked y (hv y hy)

/-- Where the start is not reached from itself, never marking it loses nothing: the two searches
mark the same nodes. -/
theorem mem_searchOnce (univ : Finset α) (huniv : ∀ x, ∀ y ∈ succ x, y ∈ univ) (start : α)
    (hacyclic : ¬ Relation.TransGen (Step succ) start start) (x : α) :
    x ∈ searchOnce succ start (univ.card + 1) [start] ∅ ∅ ↔
      Relation.TransGen (Step succ) start x := by
  have huniv' : ∀ x, ∀ y ∈ (succ x).filter (· ≠ start), y ∈ univ :=
    fun x y hy => huniv x y (List.mem_filter.mp hy).1
  rw [searchOnce_eq_search _ _ _ _ _ _ (List.nodup_singleton start) (by simp) (by simp),
    mem_search _ univ huniv']
  have hkeep : ∀ {a b}, b ∈ succ a → Relation.TransGen (Step succ) start b →
      b ∈ (succ a).filter (· ≠ start) := by
    intro a b hstep hreach
    refine List.mem_filter.mpr ⟨hstep, ?_⟩
    simp only [ne_eq, decide_not, Bool.not_eq_eq_eq_not, Bool.not_true, decide_eq_false_iff_not]
    rintro rfl
    exact hacyclic hreach
  constructor
  · intro hx
    have hsub : Step (fun x => (succ x).filter (· ≠ start)) ≤ Step succ :=
      fun a b hab => (List.mem_filter.mp hab).1
    exact Relation.TransGen.mono hsub start x hx
  · intro hx
    induction hx with
    | single hstep => exact .single (hkeep hstep (.single hstep))
    | tail hprev hstep ih => exact ih.tail (hkeep hstep (hprev.tail hstep))

end Worklist
