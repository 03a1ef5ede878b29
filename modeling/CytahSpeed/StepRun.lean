import Mathlib.Logic.Basic

/-!
# Properties along a run

A run feeds a list of inputs to a step function. `Along` says that a relation between state and
input holds at every step of a run. An invariant turns one such relation into another. A component
of the state may have a step function of its own, and then runs on the inputs that concern it.
-/

namespace StepRun

variable {σ ε : Type*} (step : σ → ε → σ)

/-- At every step of the run from `s`, the state and the input are in the relation. -/
def Along (P : σ → ε → Prop) : σ → List ε → Prop
  | _, [] => True
  | s, e :: es => P s e ∧ Along P (step s e) es

variable {step} {P Q : σ → ε → Prop} {I : σ → Prop}

theorem along_append (s : σ) (es es' : List ε) :
    Along step P s (es ++ es') ↔ Along step P s es ∧ Along step P (es.foldl step s) es' := by
  induction es generalizing s with
  | nil => exact (iff_of_eq (true_and _)).symm
  | cons e es ih =>
    rw [List.cons_append, Along, Along, List.foldl_cons, ih, and_assoc]

theorem along_congr (h : ∀ s e, P s e ↔ Q s e) (s : σ) (es : List ε) :
    Along step P s es ↔ Along step Q s es := by
  induction es generalizing s with
  | nil => exact Iff.rfl
  | cons e es ih => exact and_congr (h s e) (ih (step s e))

theorem along_iff (s : σ) (es : List ε) :
    Along step P s es ↔ ∀ pre e post, es = pre ++ e :: post → P (pre.foldl step s) e := by
  constructor
  · rintro h pre e post rfl
    exact ((along_append s pre (e :: post)).mp h).2.1
  · intro h
    induction es generalizing s with
    | nil => exact trivial
    | cons e es ih =>
      refine ⟨h [] e es rfl, ih (step s e) ?_⟩
      intro pre e' post hes
      exact h (e :: pre) e' post (by rw [hes, List.cons_append])

/-- The relation holds along the whole run, or up to a first input where it fails. -/
theorem along_or_fails (s : σ) (es : List ε) :
    Along step P s es ∨ ∃ pre e post, es = pre ++ e :: post ∧ Along step P s pre ∧
      ¬ P (pre.foldl step s) e := by
  induction es generalizing s with
  | nil => exact Or.inl trivial
  | cons e es ih =>
    by_cases hp : P s e
    · rcases ih (step s e) with hall | ⟨pre, e', post, rfl, hpre, hfail⟩
      · exact Or.inl ⟨hp, hall⟩
      · exact Or.inr ⟨e :: pre, e', post, rfl, ⟨hp, hpre⟩, hfail⟩
    · exact Or.inr ⟨[], e, es, rfl, trivial, hp⟩

theorem mem_of_along_of_fails {s : σ} {pre post before after : List ε} {e x : ε}
    (hsplit : pre ++ e :: post = before ++ x :: after) (hfail : ¬ P (pre.foldl step s) e)
    (h : Along step P s (before ++ [x])) : x ∈ pre := by
  have hpre : pre <+: pre ++ e :: post := List.prefix_append _ _
  have hbefore : before ++ [x] <+: pre ++ e :: post := ⟨after, by simp [hsplit]⟩
  have hx : x ∈ before ++ [x] := List.mem_append_right _ (List.mem_singleton_self x)
  rcases List.prefix_or_prefix_of_prefix hbefore hpre with hle | ⟨rest, hrest⟩
  · exact hle.subset hx
  · cases rest with
    | nil =>
      rw [List.append_nil] at hrest
      rwa [hrest]
    | cons g rest =>
      -- the input behind `pre` is the failing one
      have heq : pre ++ e :: post = pre ++ (g :: rest ++ after) := by
        rw [hsplit, ← List.append_assoc, hrest]
        simp
      obtain ⟨rfl, -⟩ := List.cons.inj (List.append_cancel_left heq)
      rw [← hrest] at h
      exact absurd ((along_append s pre (e :: rest)).mp h).2.1 hfail

theorem Along.imp {s : σ} {es : List ε} (h : Along step P s es) (hs : I s)
    (hstep : ∀ s e, I s → P s e → I (step s e)) (himp : ∀ s e, I s → P s e → Q s e) :
    Along step Q s es := by
  induction es generalizing s with
  | nil => exact trivial
  | cons e es ih => exact ⟨himp s e hs h.1, ih h.2 (hstep s e hs h.1)⟩

/-- Under an invariant that the first relation preserves, the two hold along the same runs if they
agree where the invariant holds. -/
theorem along_iff_of_invariant {s : σ} (hs : I s) (hstep : ∀ s e, I s → P s e → I (step s e))
    (hiff : ∀ s e, I s → (P s e ↔ Q s e)) (es : List ε) :
    Along step P s es ↔ Along step Q s es := by
  constructor
  · intro h
    exact h.imp hs hstep (fun s e hs hp => (hiff s e hs).mp hp)
  · intro h
    exact h.imp hs (fun s e hs hq => hstep s e hs ((hiff s e hs).mpr hq))
      (fun s e hs hq => (hiff s e hs).mpr hq)

theorem proj_foldl {τ δ : Type*} (proj : σ → τ) (select : ε → Option δ) (own : τ → δ → τ)
    (h : ∀ s e, proj (step s e) = (select e).elim (proj s) (own (proj s))) (s : σ) (es : List ε) :
    proj (es.foldl step s) = (es.filterMap select).foldl own (proj s) := by
  induction es generalizing s with
  | nil => rfl
  | cons e es ih =>
    rw [List.foldl_cons, ih, h]
    cases hs : select e with
    | none => rw [List.filterMap_cons_none hs, Option.elim_none]
    | some d => rw [List.filterMap_cons_some hs, Option.elim_some, List.foldl_cons]

/-- An input of the run brings a fact about, and none after it ends it. -/
def Stands (adds removes : ε → Prop) (es : List ε) : Prop :=
  ∃ pre e post, es = pre ++ e :: post ∧ adds e ∧ ∀ e' ∈ post, ¬ removes e'

theorem stands_cons {adds removes : ε → Prop} (e : ε) (es : List ε) :
    Stands adds removes (e :: es) ↔
      Stands adds removes es ∨ adds e ∧ ∀ e' ∈ es, ¬ removes e' := by
  constructor
  · rintro ⟨pre, x, post, hes, hadds, hpost⟩
    cases pre with
    | nil =>
      obtain ⟨rfl, rfl⟩ := List.cons.inj hes
      exact Or.inr ⟨hadds, hpost⟩
    | cons y pre => exact Or.inl ⟨pre, x, post, (List.cons.inj hes).2, hadds, hpost⟩
  · rintro (⟨pre, x, post, rfl, hadds, hpost⟩ | ⟨hadds, hpost⟩)
    · exact ⟨e :: pre, x, post, rfl, hadds, hpost⟩
    · exact ⟨[], e, es, rfl, hadds, hpost⟩

/-- After a run a fact holds that some input brought about for the last time, or that held before
and was never ended. -/
theorem holds_foldl_iff {F : σ → Prop} {adds removes : ε → Prop}
    (h : ∀ s e, F (step s e) ↔ adds e ∨ F s ∧ ¬ removes e) (s : σ) (es : List ε) :
    F (es.foldl step s) ↔ Stands adds removes es ∨ F s ∧ ∀ e ∈ es, ¬ removes e := by
  induction es generalizing s with
  | nil =>
    have hnone : ¬ Stands adds removes [] := by
      rintro ⟨pre, x, post, hes, -⟩
      exact absurd hes (by simp)
    simp [hnone]
  | cons e es ih =>
    rw [List.foldl_cons, ih, h, stands_cons, List.forall_mem_cons, or_and_right, or_assoc,
      and_assoc]

end StepRun
