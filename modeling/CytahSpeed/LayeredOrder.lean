import Mathlib.Data.Finset.Card
import Mathlib.Data.List.Perm.Subperm

/-!
# An order in rounds of ready nodes

Each round appends, in some arrangement, all nodes that are not listed yet and whose parents all
are. If parents have lower rank, a round appends something until every node is listed, so the
result is a permutation of the nodes with parents first, and it depends on the list of nodes only
up to permutation when the arrangement does.
-/

namespace LayeredOrder

variable {α : Type*} [DecidableEq α] (parents : α → List α) (nodes : List α)
  (arrange : List α → List α)

def ParentsFirst (l : List α) : Prop :=
  ∀ before x after, l = before ++ x :: after → ∀ p ∈ parents x, p ∈ before

def ready (done : Finset α) : List α :=
  nodes.filter fun x => x ∉ done ∧ ∀ p ∈ parents x, p ∈ done

/-- Rounds until every node is done or no node is ready, or `none` when the turns run out. -/
def rounds : ℕ → List α → Finset α → Option (List α)
  | 0, _, _ => none
  | turns + 1, order, done =>
    if done.card < nodes.length then
      let next := ready parents nodes done
      if next.isEmpty then some order
      else
        let sorted := arrange next
        rounds turns (order ++ sorted) (done ∪ sorted.toFinset)
    else some order

/-- What holds between two rounds. -/
structure Stage (order : List α) (done : Finset α) : Prop where
  nodup : order.Nodup
  subset : order ⊆ nodes
  parentsFirst : ParentsFirst parents order
  done : order.toFinset = done

section Stage
variable {parents nodes arrange} {order : List α} {done : Finset α} {x : α}

theorem mem_ready : x ∈ ready parents nodes done ↔
    x ∈ nodes ∧ x ∉ done ∧ ∀ p ∈ parents x, p ∈ done := by
  rw [ready, List.mem_filter, decide_eq_true_eq]

omit [DecidableEq α] in
theorem parentsFirst_nil : ParentsFirst parents [] := by
  intro before x after h
  simp at h

omit [DecidableEq α] in
theorem ParentsFirst.append {l m : List α} (h : ParentsFirst parents l)
    (hm : ∀ x ∈ m, ∀ p ∈ parents x, p ∈ l) : ParentsFirst parents (l ++ m) := by
  intro before x after hsplit p hp
  rcases List.append_eq_append_iff.mp hsplit with ⟨t, hbefore, hm'⟩ | ⟨t, hl, hafter⟩
  · rw [hbefore]
    exact List.mem_append_left t (hm x (by rw [hm']; simp) p hp)
  · cases t with
    | nil =>
      rw [List.append_nil] at hl
      rw [← hl]
      exact hm x (by rw [← List.nil_append m, ← hafter]; exact List.mem_cons_self) p hp
    | cons y t =>
      obtain ⟨rfl, -⟩ := List.cons.inj hafter
      exact h before x t hl p hp

theorem Stage.card_done (h : Stage parents nodes order done) : done.card = order.length := by
  rw [← h.done, List.toFinset_card_of_nodup h.nodup]

theorem Stage.mem_done (h : Stage parents nodes order done) : x ∈ done ↔ x ∈ order := by
  rw [← h.done, List.mem_toFinset]

theorem Stage.perm (h : Stage parents nodes order done) (hle : nodes.length ≤ done.card) :
    order.Perm nodes :=
  (List.subperm_of_subset h.nodup h.subset).perm_of_length_le (h.card_done ▸ hle)

theorem Stage.append_ready (h : Stage parents nodes order done) (hnodes : nodes.Nodup)
    {sorted : List α} (hsorted : sorted.Perm (ready parents nodes done)) :
    Stage parents nodes (order ++ sorted) (done ∪ sorted.toFinset) := by
  have hmem : ∀ x, x ∈ sorted ↔ x ∈ nodes ∧ x ∉ done ∧ ∀ p ∈ parents x, p ∈ done := by
    intro x
    rw [hsorted.mem_iff, mem_ready]
  refine ⟨?_, ?_, ?_, ?_⟩
  · refine List.nodup_append'.mpr ⟨h.nodup, hsorted.nodup_iff.mpr (hnodes.filter _), ?_⟩
    intro x hx hs
    exact ((hmem x).mp hs).2.1 (h.mem_done.mpr hx)
  · intro x hx
    rcases List.mem_append.mp hx with hx | hx
    · exact h.subset hx
    · exact ((hmem x).mp hx).1
  · exact h.parentsFirst.append fun x hx p hp => h.mem_done.mp (((hmem x).mp hx).2.2 p hp)
  · rw [List.toFinset_append, h.done]

theorem exists_mem_ready {rank : α → ℕ}
    (hrank : ∀ x ∈ nodes, ∀ p ∈ parents x, p ∈ nodes ∧ rank p < rank x) (hx : x ∈ nodes)
    (hdone : x ∉ done) : ∃ y, y ∈ ready parents nodes done := by
  induction hn : rank x using Nat.strong_induction_on generalizing x with
  | _ n ih =>
    by_cases hall : ∀ p ∈ parents x, p ∈ done
    · exact ⟨x, mem_ready.mpr ⟨hx, hdone, hall⟩⟩
    · push Not at hall
      obtain ⟨p, hp, hmissing⟩ := hall
      obtain ⟨hpn, hlt⟩ := hrank x hx p hp
      exact ih (rank p) (hn ▸ hlt) hpn hmissing rfl

/-- Where a rank decreases towards the parents, the rounds list every node, parents first, and
take no more turns than there are nodes left. -/
theorem rounds_complete {rank : α → ℕ}
    (hrank : ∀ x ∈ nodes, ∀ p ∈ parents x, p ∈ nodes ∧ rank p < rank x) (hnodes : nodes.Nodup)
    (harrange : ∀ l, (arrange l).Perm l) (n : ℕ) (h : Stage parents nodes order done)
    (hn : nodes.length ≤ order.length + n) :
    ∃ result, result.Perm nodes ∧ ParentsFirst parents result ∧
      ∀ turns, n < turns → rounds parents nodes arrange turns order done = some result := by
  induction n generalizing order done with
  | zero =>
    have hle : nodes.length ≤ done.card := by
      rw [h.card_done]
      omega
    refine ⟨order, h.perm hle, h.parentsFirst, fun turns hturns => ?_⟩
    obtain ⟨t, rfl⟩ := Nat.exists_eq_succ_of_ne_zero (Nat.ne_of_gt hturns)
    rw [rounds, if_neg (Nat.not_lt.mpr hle)]
  | succ n ih =>
    by_cases hlt : done.card < nodes.length
    · obtain ⟨x, hx, hmissing⟩ : ∃ x ∈ nodes, x ∉ done := by
        by_contra hall
        push Not at hall
        have hsub : nodes.toFinset ⊆ done := fun x hx => hall x (List.mem_toFinset.mp hx)
        have hcard := Finset.card_le_card hsub
        rw [List.toFinset_card_of_nodup hnodes] at hcard
        omega
      obtain ⟨y, hy⟩ := exists_mem_ready hrank hx hmissing
      have hperm := harrange (ready parents nodes done)
      have hpos : 0 < (arrange (ready parents nodes done)).length :=
        List.length_pos_of_mem (hperm.mem_iff.mpr hy)
      have hne : (ready parents nodes done).isEmpty = false :=
        List.isEmpty_eq_false_iff.mpr (List.ne_nil_of_mem hy)
      obtain ⟨result, hresult, hfirst, hrounds⟩ := ih (h.append_ready hnodes hperm) (by
        rw [List.length_append]
        omega)
      refine ⟨result, hresult, hfirst, fun turns hturns => ?_⟩
      obtain ⟨t, rfl⟩ := Nat.exists_eq_succ_of_ne_zero (Nat.ne_of_gt (Nat.zero_lt_of_lt hturns))
      rw [rounds, if_pos hlt]
      simp only [hne, Bool.false_eq_true, if_false]
      exact hrounds t (by omega)
    · refine ⟨order, h.perm (Nat.le_of_not_lt hlt), h.parentsFirst, fun turns hturns => ?_⟩
      obtain ⟨t, rfl⟩ := Nat.exists_eq_succ_of_ne_zero (Nat.ne_of_gt (Nat.zero_lt_of_lt hturns))
      rw [rounds, if_neg hlt]

theorem rounds_congr {nodes' : List α} (hperm : nodes.Perm nodes')
    (harrange : ∀ l l' : List α, l.Perm l' → arrange l = arrange l') (turns : ℕ) :
    rounds parents nodes arrange turns order done =
      rounds parents nodes' arrange turns order done := by
  induction turns generalizing order done with
  | zero => rfl
  | succ turns ih =>
    have hready : (ready parents nodes done).Perm (ready parents nodes' done) := hperm.filter _
    have hempty : (ready parents nodes done).isEmpty = (ready parents nodes' done).isEmpty := by
      rw [Bool.eq_iff_iff, List.isEmpty_iff_length_eq_zero, List.isEmpty_iff_length_eq_zero,
        hready.length_eq]
    rw [rounds, rounds, hperm.length_eq]
    simp only [hempty, harrange _ _ hready, ih]

end Stage

end LayeredOrder
