import Mathlib.Data.List.Basic
import Mathlib.Data.List.Nodup
import Mathlib.Data.List.Perm.Basic
import Mathlib.Data.Set.BooleanAlgebra
import Mathlib.Data.Set.Disjoint
import Mathlib.Order.CompletePartialOrder
import Mathlib.Tactic.Common

/-!
# Order of independent tasks

A task reads a state and yields an output and an effect, which is then applied to the state. Two
tasks are independent when neither sees the effect of the other and their effects commute. Tasks
that are pairwise independent may all read the state before the batch; and two orders of one list
of tasks that agree on every dependent pair end in the same state with the same outputs.

Independence is asked for the tasks `task` and the states `inv` only. Where a state is a family of
cells and each task has a footprint of cells it reads and changes, tasks with disjoint footprints
are independent.
-/

namespace TraceOrder

variable {τ σ ρ ω : Type*} (exec : τ → σ → ρ × ω) (apply : ρ × ω → σ → σ)

def step (t : τ) (s : σ) : σ := apply (exec t s) s

/-- One task after the other, each reading what the ones before it left. -/
def run : List τ → σ → List ρ × σ
  | [], s => ([], s)
  | t :: rest, s =>
    let r := run rest (step exec apply t s)
    ((exec t s).1 :: r.1, r.2)

/-- All tasks read the state `base`; their effects are applied one after the other. -/
def runBatch (base : σ) : List τ → σ → List ρ × σ
  | [], s => ([], s)
  | t :: rest, s =>
    let r := runBatch base rest (apply (exec t base) s)
    ((exec t base).1 :: r.1, r.2)

/-- What makes a relation one of independence for these tasks, in states of the invariant. -/
structure Independence (task : τ → Prop) (inv : σ → Prop) (indep : τ → τ → Prop) : Prop where
  keep : ∀ t s, task t → inv s → inv (step exec apply t s)
  symm : ∀ t u, indep t u → indep u t
  stable : ∀ t u s, task t → task u → inv s → indep t u →
    exec t (step exec apply u s) = exec t s
  comm : ∀ t u s, task t → task u → inv s → indep t u →
    step exec apply t (step exec apply u s) = step exec apply u (step exec apply t s)

variable {exec apply}

theorem runBatch_fst (base : σ) (l : List τ) (s : σ) :
    (runBatch exec apply base l s).1 = l.map fun t => (exec t base).1 := by
  induction l generalizing s with
  | nil => rfl
  | cons t l ih => rw [runBatch, List.map_cons, ih]

theorem run_append (l l' : List τ) (s : σ) :
    run exec apply (l ++ l') s =
      ((run exec apply l s).1 ++ (run exec apply l' (run exec apply l s).2).1,
        (run exec apply l' (run exec apply l s).2).2) := by
  induction l generalizing s with
  | nil => rfl
  | cons t l ih => simp only [List.cons_append, run, ih]

section Footprint
variable {κ : Type*} {ν : κ → Type*} {task : τ → Prop} {inv : σ → Prop} {indep : τ → τ → Prop}
  (get : (k : κ) → σ → ν k) (foot : τ → Set κ)

/-- Tasks with disjoint footprints are independent, when a task's result depends on its footprint
only, it changes its footprint only, and an effect on a cell depends on that cell only. -/
theorem Independence.of_footprint (hext : ∀ s s', (∀ k, get k s = get k s') → s = s')
    (hkeep : ∀ t s, task t → inv s → inv (step exec apply t s))
    (hsymm : ∀ t u, indep t u → indep u t)
    (hdisjoint : ∀ t u, indep t u → Disjoint (foot t) (foot u))
    (hread : ∀ t s s', task t → inv s → (∀ k ∈ foot t, get k s = get k s') → exec t s = exec t s')
    (hframe : ∀ t s k, task t → inv s → k ∉ foot t → get k (step exec apply t s) = get k s)
    (hlocal : ∀ r s s' k, get k s = get k s' → get k (apply r s) = get k (apply r s')) :
    Independence exec apply task inv indep := by
  have hstable : ∀ t u s, task t → task u → inv s → indep t u →
      exec t (step exec apply u s) = exec t s := by
    intro t u s ht hu hs htu
    symm
    apply hread t _ _ ht hs
    intro k hk
    exact (hframe u s k hu hs (Set.disjoint_left.mp (hdisjoint t u htu) hk)).symm
  -- outside the footprint of `u`, running `u` before or after `t` makes no difference
  have houtside : ∀ t u s, task t → task u → inv s → indep t u → ∀ k ∉ foot u,
      get k (step exec apply t (step exec apply u s)) =
        get k (step exec apply u (step exec apply t s)) := by
    intro t u s ht hu hs htu k hk
    calc get k (step exec apply t (step exec apply u s))
        = get k (apply (exec t s) (step exec apply u s)) := by
          rw [step, hstable t u s ht hu hs htu]
      _ = get k (apply (exec t s) s) := hlocal _ _ _ k (hframe u s k hu hs hk)
      _ = get k (step exec apply u (step exec apply t s)) :=
          (hframe u _ k hu (hkeep t s ht hs) hk).symm
  refine ⟨hkeep, hsymm, hstable, ?_⟩
  intro t u s ht hu hs htu
  apply hext
  intro k
  by_cases hk : k ∈ foot u
  · have hkt : k ∉ foot t := Set.disjoint_right.mp (hdisjoint t u htu) hk
    exact (houtside u t s hu ht hs (hsymm t u htu) k hkt).symm
  · exact houtside t u s ht hu hs htu k hk

end Footprint

section Reorder
variable {task : τ → Prop} {inv : σ → Prop} {indep : τ → τ → Prop}
  (hi : Independence exec apply task inv indep)
include hi

theorem runBatch_eq_run_of_exec_eq (base : σ) (l : List τ) (s : σ) (hs : inv s)
    (htask : ∀ t ∈ l, task t) (hl : l.Pairwise indep)
    (hbase : ∀ t ∈ l, exec t s = exec t base) :
    runBatch exec apply base l s = run exec apply l s := by
  induction l generalizing s with
  | nil => rfl
  | cons t l ih =>
    obtain ⟨ht, hl⟩ := List.pairwise_cons.mp hl
    obtain ⟨htt, htl⟩ := List.forall_mem_cons.mp htask
    have hexec := hbase t List.mem_cons_self
    rw [runBatch, run, ← hexec]
    have hnext : runBatch exec apply base l (step exec apply t s) =
        run exec apply l (step exec apply t s) := by
      apply ih _ (hi.keep t s htt hs) htl hl
      intro u hu
      rw [hi.stable u t s (htl u hu) htt hs (hi.symm t u (ht u hu))]
      exact hbase u (List.mem_cons_of_mem _ hu)
    simp only [step] at hnext ⊢
    rw [hnext]

/-- Pairwise independent tasks may read the state before the batch. -/
theorem runBatch_eq_run (l : List τ) (s : σ) (hs : inv s) (htask : ∀ t ∈ l, task t)
    (hl : l.Pairwise indep) : runBatch exec apply s l s = run exec apply l s :=
  runBatch_eq_run_of_exec_eq hi s l s hs htask hl (fun _ _ => rfl)

theorem run_keep (l : List τ) (s : σ) (hs : inv s) (htask : ∀ t ∈ l, task t) :
    inv (run exec apply l s).2 := by
  induction l generalizing s with
  | nil => exact hs
  | cons t l ih =>
    obtain ⟨ht, htl⟩ := List.forall_mem_cons.mp htask
    exact ih _ (hi.keep t s ht hs) htl

theorem run_move_front (a b : List τ) (t : τ) (s : σ) (hs : inv s) (ht : task t)
    (htask : ∀ u ∈ a, task u) (ha : ∀ u ∈ a, indep u t) :
    (run exec apply (a ++ t :: b) s).2 = (run exec apply (t :: (a ++ b)) s).2 ∧
      (run exec apply (a ++ t :: b) s).1.Perm (run exec apply (t :: (a ++ b)) s).1 := by
  induction a generalizing s with
  | nil => exact ⟨rfl, List.Perm.refl _⟩
  | cons u a ih =>
    obtain ⟨hu, ha⟩ := List.forall_mem_cons.mp ha
    obtain ⟨htu, hta⟩ := List.forall_mem_cons.mp htask
    obtain ⟨hstate, hperm⟩ := ih (step exec apply u s) (hi.keep u s htu hs) hta ha
    have hcomm := hi.comm t u s ht htu hs (hi.symm u t hu)
    have hexec := hi.stable t u s ht htu hs (hi.symm u t hu)
    have hexec' := hi.stable u t s htu ht hs hu
    simp only [List.cons_append, run] at hstate hperm ⊢
    rw [hcomm] at hstate hperm
    rw [hexec] at hperm
    refine ⟨hstate, ?_⟩
    rw [hexec']
    exact (hperm.cons _).trans (List.Perm.swap _ _ _)

/-- Two orders that agree on every dependent pair give the same state and the same outputs. -/
theorem run_eq_of_sameOrder (l l' : List τ) (s : σ) (hs : inv s) (htask : ∀ t ∈ l, task t)
    (hperm : l.Perm l') (hnodup : l.Nodup)
    (horder : ∀ t u, ¬ indep t u → [t, u].Sublist l → [t, u].Sublist l') :
    (run exec apply l s).2 = (run exec apply l' s).2 ∧
      (run exec apply l s).1.Perm (run exec apply l' s).1 := by
  induction l' generalizing l s with
  | nil =>
    rw [List.perm_nil.mp hperm]
    exact ⟨rfl, List.Perm.refl _⟩
  | cons t rest ih =>
    have hnodup' := hperm.nodup_iff.mp hnodup
    obtain ⟨htrest, -⟩ := List.nodup_cons.mp hnodup'
    obtain ⟨a, b, rfl⟩ := List.append_of_mem (hperm.mem_iff.mpr List.mem_cons_self)
    have hfront : (a ++ t :: b).Perm (t :: (a ++ b)) := List.perm_middle
    have hrest : (a ++ b).Perm rest := (hfront.symm.trans hperm).cons_inv
    obtain ⟨htab, hab⟩ := List.nodup_cons.mp (hfront.nodup_iff.mp hnodup)
    obtain ⟨ht, htaskab⟩ :=
      List.forall_mem_cons.mp fun u hu => htask u (hfront.mem_iff.mpr hu)
    -- whatever stands before `t` is independent of it, since `t` comes first in the other order
    have hindep : ∀ u ∈ a, indep u t := by
      intro u hu
      by_contra hdep
      have hsub : [u, t].Sublist (a ++ t :: b) :=
        (List.singleton_sublist.mpr hu).append (List.singleton_sublist.mpr List.mem_cons_self)
      rcases List.sublist_cons_iff.mp (horder u t hdep hsub) with h | ⟨r, hr, h⟩
      · exact htrest (h.subset (by simp))
      · obtain ⟨rfl, -⟩ := List.cons.inj hr
        exact htab (List.mem_append_left _ hu)
    obtain ⟨hstate, hout⟩ := run_move_front hi a b t s hs ht
      (fun u hu => htaskab u (List.mem_append_left _ hu)) hindep
    have hnext := ih (a ++ b) (step exec apply t s) (hi.keep t s ht hs) htaskab hrest hab (by
      intro x y hdep hsub
      have hx : x ≠ t := fun he => htab (he ▸ hsub.subset List.mem_cons_self)
      have hsub' : [x, y].Sublist (a ++ t :: b) :=
        hsub.trans ((List.Sublist.refl a).append (List.sublist_cons_self t b))
      rcases List.sublist_cons_iff.mp (horder x y hdep hsub') with h | ⟨r, hr, -⟩
      · exact h
      · exact absurd (List.cons.inj hr).1 hx)
    constructor
    · rw [hstate]
      exact hnext.1
    · refine hout.trans ?_
      exact hnext.2.cons _

end Reorder

end TraceOrder
