import Mathlib.Data.List.Basic

/-!
# Flow through a store

A store takes items in and gives items out as a run goes on, an item perhaps many times. Where
every step balances (what is there and what comes in is what goes out and what is left), so does
every run.
-/

namespace Flow

variable {σ ε α : Type*} (step : σ → ε → σ)

/-- What a run yields, in order, if each of its steps yields a list. -/
def along (f : σ → ε → List α) : σ → List ε → List α
  | _, [] => []
  | s, e :: es => f s e ++ along f (step s e) es

/-- Under an invariant of the steps, every item that is there or comes in goes out or is left. -/
structure Balanced [DecidableEq α] (stock : σ → α → ℕ) (gains losses : σ → ε → List α)
    (I : σ → Prop) : Prop where
  keeps : ∀ s e, I s → I (step s e)
  balance : ∀ s e x, I s →
    stock s x + (gains s e).count x = (losses s e).count x + stock (step s e) x

variable {step} {f g : σ → ε → List α} {stock : σ → α → ℕ} {gains losses : σ → ε → List α}
  {I : σ → Prop}

theorem proj_foldl {τ : Type*} (proj : σ → τ) (own : τ → α → τ)
    (h : ∀ s e, proj (step s e) = (f s e).foldl own (proj s)) (s : σ) (es : List ε) :
    proj (es.foldl step s) = (along step f s es).foldl own (proj s) := by
  induction es generalizing s with
  | nil => rfl
  | cons e es ih => rw [List.foldl_cons, ih, h, along, List.foldl_append]

variable [DecidableEq α]

/-- A list of different items is taken away from those that are there. Behind its first item all of
them are; the first may be. -/
theorem count_taken {P : α → Prop} [DecidablePred P] {first : α} {rest : List α}
    (hnodup : (first :: rest).Nodup) (hrest : ∀ x ∈ rest, P x) (x : α) :
    (if P x then 1 else 0) = rest.count x + ([first].filter P).count x +
      if P x ∧ x ∉ first :: rest then 1 else 0 := by
  obtain ⟨hfirst, hrest'⟩ := List.nodup_cons.mp hnodup
  have hother : first ≠ x → ([first].filter P).count x = 0 := by
    intro hne
    refine List.count_eq_zero.mpr fun hmem => ?_
    exact hne (List.mem_singleton.mp (List.mem_of_mem_filter hmem)).symm
  by_cases hx : x ∈ rest
  · have hne : first ≠ x := fun h => hfirst (h ▸ hx)
    simp [hrest x hx, hx, hother hne, hrest'.count]
  · rw [List.count_eq_zero.mpr hx]
    by_cases heq : first = x
    · subst heq
      by_cases hp : P first
      · simp [hp]
      · simp [hp]
    · simp [hother heq, hx, Ne.symm heq]

theorem count_along_both (s : σ) (es : List ε) (x : α) :
    (along step (fun s e => f s e ++ g s e) s es).count x =
      (along step f s es).count x + (along step g s es).count x := by
  induction es generalizing s with
  | nil => rfl
  | cons e es ih =>
    simp only [along, List.count_append, ih]
    omega

theorem Balanced.invariant (h : Balanced step stock gains losses I) {s : σ} (hs : I s)
    (es : List ε) : I (es.foldl step s) := by
  induction es generalizing s with
  | nil => exact hs
  | cons e es ih => exact ih (h.keeps s e hs)

theorem Balanced.run (h : Balanced step stock gains losses I) {s : σ} (hs : I s) (es : List ε)
    (x : α) : stock s x + (along step gains s es).count x =
      (along step losses s es).count x + stock (es.foldl step s) x := by
  induction es generalizing s with
  | nil => exact Nat.add_comm _ _
  | cons e es ih =>
    have hstep := h.balance s e x hs
    have hrest := ih (h.keeps s e hs)
    simp only [along, List.count_append, List.foldl_cons]
    omega

end Flow
