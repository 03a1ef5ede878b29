import Mathlib.Data.List.Basic

/-!
# Programs that make calls

A program returns, fails, or makes a call and goes on with the answer. A handler gives the calls
their meaning on a state and may refuse one, which ends the program. Facts about a handler's
single calls become facts about whole runs: what two handlers keep in step, and what the accepted
calls do to a part of the state.
-/

/-- `κ` are the calls, `ρ k` the answers to the call `k`, `ε` the errors. -/
inductive CallProgram (κ : Type) (ρ : κ → Type) (ε α : Type)
  | pure (a : α)
  | fail (e : ε)
  | call (k : κ) (next : ρ k → CallProgram κ ρ ε α)

namespace CallProgram

variable {κ : Type} {ρ : κ → Type} {ε α : Type} {σ τ : Type*}

def bind {β : Type} : CallProgram κ ρ ε α → (α → CallProgram κ ρ ε β) → CallProgram κ ρ ε β
  | pure a, f => f a
  | fail e, _ => fail e
  | call k next, f => call k fun r => (next r).bind f

abbrev Handler (κ : Type) (ρ : κ → Type) (ε : Type) (σ : Type*) :=
  (k : κ) → σ → Except ε (ρ k) × σ

def run (h : Handler κ ρ ε σ) : CallProgram κ ρ ε α → σ → Except ε α × σ
  | pure a, s => (.ok a, s)
  | fail e, s => (.error e, s)
  | call k next, s =>
    match h k s with
    | (.error e, s') => (.error e, s')
    | (.ok r, s') => (next r).run h s'

def accepted (h : Handler κ ρ ε σ) : CallProgram κ ρ ε α → σ → List κ
  | pure _, _ => []
  | fail _, _ => []
  | call k next, s =>
    match h k s with
    | (.error _, _) => []
    | (.ok r, s') => k :: (next r).accepted h s'

/-- Handlers whose calls agree on related states agree on whole runs. -/
theorem run_simulation {h : Handler κ ρ ε σ} {h' : Handler κ ρ ε τ} {R : σ → τ → Prop}
    (hstep : ∀ k s t, R s t → (h k s).1 = (h' k t).1 ∧ R (h k s).2 (h' k t).2)
    (p : CallProgram κ ρ ε α) {s : σ} {t : τ} (hst : R s t) :
    (p.run h s).1 = (p.run h' t).1 ∧ R (p.run h s).2 (p.run h' t).2 ∧
      p.accepted h s = p.accepted h' t := by
  induction p generalizing s t with
  | pure a => exact ⟨rfl, hst, rfl⟩
  | fail e => exact ⟨rfl, hst, rfl⟩
  | call k next ih =>
    have hnext := hstep k s t hst
    unfold run accepted
    cases hk : h k s with
    | mk r s' =>
      cases hk' : h' k t with
      | mk r' t' =>
        rw [hk, hk'] at hnext
        obtain ⟨hr, hR⟩ := hnext
        simp only at hr hR
        subst hr
        cases r with
        | error e => exact ⟨rfl, hR, rfl⟩
        | ok r =>
          obtain ⟨hout, hrel, hacc⟩ := ih r hR
          exact ⟨hout, hrel, congrArg (k :: ·) hacc⟩

theorem run_foldl {h : Handler κ ρ ε σ} {π : σ → τ} {apply : τ → κ → τ}
    (hok : ∀ k s r, (h k s).1 = .ok r → π (h k s).2 = apply (π s) k)
    (herr : ∀ k s e, (h k s).1 = .error e → π (h k s).2 = π s)
    (p : CallProgram κ ρ ε α) (s : σ) :
    π (p.run h s).2 = (p.accepted h s).foldl apply (π s) := by
  induction p generalizing s with
  | pure a => rfl
  | fail e => rfl
  | call k next ih =>
    unfold run accepted
    cases hk : h k s with
    | mk r s' =>
      cases r with
      | error e =>
        have hs := herr k s e (by rw [hk])
        rw [hk] at hs
        exact hs
      | ok r =>
        have hs := hok k s r (by rw [hk])
        rw [hk] at hs
        simp only [List.foldl_cons]
        rw [ih r s', hs]

end CallProgram
