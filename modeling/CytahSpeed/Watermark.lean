import Mathlib.Data.List.Induction
import Mathlib.Order.Lattice
import Mathlib.Tactic.Common

/-!
# Retiring entries below a watermark

A store keeps entries with heights, and a watermark. Entries may be put in at any time, at any
height. A step that retires entries looks only above the watermark, and moves the watermark up to a
target once it holds nothing up to there. So what is put in below the watermark stays, and what is
put in above it is gone when the watermark has passed it.
-/

namespace Watermark

/-- What a step that puts nothing in may do to the entries and the watermark. -/
structure Retires {K V : Type*} (height : V → ℕ) (entries entries' : K → Option V)
    (mark mark' : ℕ) : Prop where
  kept : ∀ k v, entries' k = some v → entries k = some v
  above : ∀ k v, entries k = some v → entries' k = none → mark < height v
  moved : mark' = mark ∨ mark < mark' ∧ ∀ k v, entries' k = some v →
    ¬ (mark < height v ∧ height v ≤ mark')

theorem Retires.refl {K V : Type*} (height : V → ℕ) (entries : K → Option V) (mark : ℕ) :
    Retires height entries entries mark mark where
  kept _ _ h := h
  above k v h hnone := by
    rw [h] at hnone
    cases hnone
  moved := Or.inl rfl

/-- A system whose steps put an entry in or retire entries, as long as its invariant holds. -/
structure System (σ ε K V : Type*) [DecidableEq K] where
  step : σ → ε → σ
  inserts : ε → Option (K × V)
  entries : σ → K → Option V
  mark : σ → ℕ
  height : V → ℕ
  Inv : σ → Prop
  inv_step : ∀ s e, Inv s → Inv (step s e)
  entries_insert : ∀ s e k v, Inv s → inserts e = some (k, v) →
    ∀ k', entries (step s e) k' = if k' = k then some v else entries s k'
  mark_insert : ∀ s e k v, Inv s → inserts e = some (k, v) → mark (step s e) = mark s
  retires : ∀ s e, Inv s → inserts e = none →
    Retires height (entries s) (entries (step s e)) (mark s) (mark (step s e))

namespace System

variable {σ ε K V : Type*} [DecidableEq K] (sys : System σ ε K V)

def run (s : σ) (es : List ε) : σ := es.foldl sys.step s

def PutLast (es : List ε) (before : List ε) (k : K) (v : V) : Prop :=
  ∃ e later, es = before ++ e :: later ∧ sys.inserts e = some (k, v) ∧
    ∀ e' ∈ later, ∀ w, sys.inserts e' ≠ some (k, w)

variable {sys} {s : σ} {es : List ε} {k : K} {v : V}

theorem run_concat (es : List ε) (e : ε) : sys.run s (es ++ [e]) = sys.step (sys.run s es) e := by
  rw [run, List.foldl_append]
  rfl

theorem inv_run (hs : sys.Inv s) (es : List ε) : sys.Inv (sys.run s es) := by
  induction es using List.reverseRecOn with
  | nil => exact hs
  | append_singleton es e ih =>
    rw [run_concat]
    exact sys.inv_step _ e ih

theorem mark_le_step (hs : sys.Inv s) (e : ε) : sys.mark s ≤ sys.mark (sys.step s e) := by
  cases he : sys.inserts e with
  | some p => rw [sys.mark_insert s e p.1 p.2 hs he]
  | none =>
    rcases (sys.retires s e hs he).moved with hsame | ⟨hlt, -⟩
    · rw [hsame]
    · exact hlt.le

theorem PutLast.concat {before : List ε} (h : sys.PutLast es before k v) {e : ε}
    (he : ∀ w, sys.inserts e ≠ some (k, w)) : sys.PutLast (es ++ [e]) before k v := by
  obtain ⟨e', later, rfl, hins, hlater⟩ := h
  refine ⟨e', later ++ [e], by simp, hins, ?_⟩
  intro x hx w
  rcases List.mem_append.mp hx with hx | hx
  · exact hlater x hx w
  · rw [List.mem_singleton.mp hx]
    exact he w

theorem putLast_concat_self {e : ε} (he : sys.inserts e = some (k, v)) (es : List ε) :
    sys.PutLast (es ++ [e]) es k v :=
  ⟨e, [], rfl, he, fun _ h => by cases h⟩

theorem PutLast.concat_cases {before : List ε} {e : ε} (h : sys.PutLast (es ++ [e]) before k v) :
    (before = es ∧ sys.inserts e = some (k, v)) ∨
      (sys.PutLast es before k v ∧ ∀ w, sys.inserts e ≠ some (k, w)) := by
  obtain ⟨e', later, hsplit, hins, hlater⟩ := h
  rcases List.eq_nil_or_concat later with rfl | ⟨later, x, rfl⟩
  · obtain ⟨rfl, he⟩ := List.append_inj' hsplit rfl
    cases he
    exact Or.inl ⟨rfl, hins⟩
  · rw [List.concat_eq_append, ← List.cons_append, ← List.append_assoc] at hsplit
    obtain ⟨rfl, he⟩ := List.append_inj' hsplit rfl
    cases he
    simp only [List.concat_eq_append, List.mem_append, List.mem_singleton] at hlater
    exact Or.inr ⟨⟨e', later, rfl, hins, fun y hy => hlater y (Or.inl hy)⟩,
      hlater e (Or.inr rfl)⟩

/-- An entry that is there was put in, last of its key; and if that was above the watermark then,
it is above the watermark still. -/
theorem exists_putLast (hs : sys.Inv s) (hempty : ∀ k, sys.entries s k = none) (es : List ε)
    (h : sys.entries (sys.run s es) k = some v) :
    ∃ before, sys.PutLast es before k v ∧
      (sys.mark (sys.run s before) < sys.height v → sys.mark (sys.run s es) < sys.height v) := by
  induction es using List.reverseRecOn with
  | nil => exact absurd (h.symm.trans (hempty k)) (by simp)
  | append_singleton es e ih =>
    have hinv := inv_run hs es
    rw [run_concat] at h ⊢
    cases he : sys.inserts e with
    | some p =>
      obtain ⟨k', v'⟩ := p
      rw [sys.entries_insert _ e k' v' hinv he] at h
      rw [sys.mark_insert _ e k' v' hinv he]
      by_cases hk : k = k'
      · subst hk
        rw [if_pos rfl] at h
        obtain rfl := Option.some.inj h
        exact ⟨es, putLast_concat_self he es, id⟩
      · rw [if_neg hk] at h
        obtain ⟨before, hput, hmark⟩ := ih h
        refine ⟨before, hput.concat ?_, hmark⟩
        intro w hw
        rw [he] at hw
        exact hk (congrArg Prod.fst (Option.some.inj hw)).symm
    | none =>
      have hret := sys.retires _ e hinv he
      obtain ⟨before, hput, hmark⟩ := ih (hret.kept k v h)
      refine ⟨before, hput.concat (fun w hw => by rw [he] at hw; cases hw), ?_⟩
      intro habove
      have hold := hmark habove
      rcases hret.moved with hsame | ⟨-, hcleared⟩
      · rwa [hsame]
      · by_contra hle
        exact hcleared k v h ⟨hold, Nat.le_of_not_lt hle⟩

theorem entries_of_putLast (hs : sys.Inv s) (es : List ε) {before : List ε}
    (hput : sys.PutLast es before k v) (hbelow : sys.height v ≤ sys.mark (sys.run s before)) :
    sys.entries (sys.run s es) k = some v ∧ sys.height v ≤ sys.mark (sys.run s es) := by
  induction es using List.reverseRecOn with
  | nil =>
    obtain ⟨e, later, hsplit, -⟩ := hput
    exact absurd hsplit.symm (by simp)
  | append_singleton es e ih =>
    have hinv := inv_run hs es
    have hmark := mark_le_step hinv e
    rw [run_concat]
    rcases hput.concat_cases with ⟨rfl, he⟩ | ⟨hput, he⟩
    · refine ⟨?_, hbelow.trans hmark⟩
      rw [sys.entries_insert _ e k v hinv he, if_pos rfl]
    · obtain ⟨hentry, hle⟩ := ih hput
      refine ⟨?_, hle.trans hmark⟩
      cases hins : sys.inserts e with
      | some p =>
        obtain ⟨k', v'⟩ := p
        have hne : k ≠ k' := by
          rintro rfl
          exact he v' hins
        rw [sys.entries_insert _ e k' v' hinv hins, if_neg hne]
        exact hentry
      | none =>
        have hret := sys.retires _ e hinv hins
        cases hnext : sys.entries (sys.step (sys.run s es) e) k with
        | none => exact absurd (hret.above k v hentry hnext) (Nat.not_lt.mpr hle)
        | some w => rw [← hentry, hret.kept k w hnext]

/-- After a step that clears what lies above the watermark up to a target, nothing is left between
zero and the target exactly when everything there that was put in last of its key was put in above
the watermark of that time. -/
theorem cleared_iff (hs : sys.Inv s) (hempty : ∀ k, sys.entries s k = none) (es : List ε) {e : ε}
    (he : sys.inserts e = none) {target : ℕ}
    (hclears : ∀ k v, sys.entries (sys.run s (es ++ [e])) k = some v →
      ¬ (sys.mark (sys.run s es) < sys.height v ∧ sys.height v ≤ target)) :
    (∀ k v, sys.entries (sys.run s (es ++ [e])) k = some v →
        ¬ (1 ≤ sys.height v ∧ sys.height v ≤ target)) ↔
      ∀ before k v, sys.PutLast es before k v → 1 ≤ sys.height v → sys.height v ≤ target →
        sys.mark (sys.run s before) < sys.height v := by
  have hnone : ∀ k w, sys.inserts e ≠ some (k, w) := fun k w hw => by
    rw [he] at hw
    cases hw
  constructor
  · intro h before k v hput hpos hle
    by_contra hlt
    exact h k v (entries_of_putLast hs (es ++ [e]) (hput.concat (hnone k))
      (Nat.le_of_not_lt hlt)).1 ⟨hpos, hle⟩
  · rintro h k v hentry ⟨hpos, hle⟩
    have hbefore : sys.entries (sys.run s es) k = some v := by
      rw [run_concat] at hentry
      exact (sys.retires _ e (inv_run hs es) he).kept k v hentry
    obtain ⟨before, hput, hmark⟩ := exists_putLast hs hempty es hbefore
    exact hclears k v hentry ⟨hmark (h before k v hput hpos hle), hle⟩

end System

end Watermark
