import CytahSpeed.Worklist
import Mathlib.Algebra.BigOperators.Group.Finset.Basic
import Mathlib.Algebra.GroupWithZero.Nat

/-!
# Search from several nodes

`drain` takes nodes off a queue, skips those it has taken before and appends the successors of the
others. A node is marked when it is taken, so that it may wait in the queue more than once. There is
fuel enough when it covers the queue and the successors of every node that is not marked.
-/

namespace Worklist

variable {α : Type*} [DecidableEq α] (succ : α → List α)

def drain : ℕ → List α → Finset α → Finset α
  | 0, _, marked => marked
  | _ + 1, [], marked => marked
  | fuel + 1, x :: queue, marked =>
    if x ∈ marked then drain fuel queue marked
    else drain fuel (queue ++ (succ x).filter (· ∉ insert x marked)) (insert x marked)

def pending (univ marked : Finset α) (queue : List α) : ℕ :=
  queue.length + ∑ x ∈ univ \ marked, (succ x).length

/-- The result of a search: it holds the start and what was marked, is closed under successors, and
holds nothing that is not reached. -/
structure Drains (queue : List α) (marked result : Finset α) : Prop where
  keeps : ∀ x ∈ marked, x ∈ result
  finds : ∀ x ∈ queue, x ∈ result
  closed : ∀ x ∈ result, ∀ y ∈ succ x, y ∈ result
  reached : ∀ y ∈ result, y ∈ marked ∨ ∃ x ∈ queue, Relation.ReflTransGen (Step succ) x y

variable {succ} {univ marked : Finset α} {queue : List α} {x : α}

theorem pending_skip :
    pending succ univ marked queue + 1 = pending succ univ marked (x :: queue) := by
  simp only [pending, List.length_cons]
  omega

theorem pending_take (hunivs : ∀ x, x ∉ univ → succ x = []) (hx : x ∉ marked) :
    pending succ univ (insert x marked) (queue ++ (succ x).filter (· ∉ insert x marked)) + 1 ≤
      pending succ univ marked (x :: queue) := by
  have hlength := List.length_filter_le (fun y => decide (y ∉ insert x marked)) (succ x)
  have hsum : ∑ y ∈ univ \ insert x marked, (succ y).length + (succ x).length =
      ∑ y ∈ univ \ marked, (succ y).length := by
    rw [Finset.sdiff_insert]
    by_cases hmem : x ∈ univ
    · exact Finset.sum_erase_add _ _ (Finset.mem_sdiff.mpr ⟨hmem, hx⟩)
    · rw [Finset.erase_eq_of_notMem fun h => hmem (Finset.mem_sdiff.mp h).1, hunivs x hmem]
      exact Nat.add_zero _
  simp only [pending, List.length_append, List.length_cons]
  omega

/-- Every successor of a marked node is marked or waits. -/
def Frontier (succ : α → List α) (marked : Finset α) (queue : List α) : Prop :=
  ∀ x ∈ marked, ∀ y ∈ succ x, y ∈ marked ∨ y ∈ queue

omit [DecidableEq α] in
theorem Frontier.skip (h : Frontier succ marked (x :: queue)) (hx : x ∈ marked) :
    Frontier succ marked queue := by
  intro a ha b hb
  rcases h a ha b hb with hb | hb
  · exact Or.inl hb
  · rcases List.mem_cons.mp hb with rfl | hb
    · exact Or.inl hx
    · exact Or.inr hb

theorem Frontier.take (h : Frontier succ marked (x :: queue)) :
    Frontier succ (insert x marked) (queue ++ (succ x).filter (· ∉ insert x marked)) := by
  intro a ha b hb
  by_cases hseen : b ∈ insert x marked
  · exact Or.inl hseen
  · right
    rcases Finset.mem_insert.mp ha with rfl | ha
    · exact List.mem_append_right _ (List.mem_filter.mpr ⟨hb, decide_eq_true hseen⟩)
    · rcases h a ha b hb with hb | hb
      · exact absurd (Finset.mem_insert_of_mem hb) hseen
      · rcases List.mem_cons.mp hb with rfl | hb
        · exact absurd (Finset.mem_insert_self _ _) hseen
        · exact List.mem_append_left _ hb

omit [DecidableEq α] in
theorem Drains.skip {result : Finset α} (h : Drains succ queue marked result) (hx : x ∈ marked) :
    Drains succ (x :: queue) marked result where
  keeps := h.keeps
  finds := List.forall_mem_cons.mpr ⟨h.keeps x hx, h.finds⟩
  closed := h.closed
  reached y hy := by
    rcases h.reached y hy with hy | ⟨a, ha, hay⟩
    · exact Or.inl hy
    · exact Or.inr ⟨a, List.mem_cons_of_mem _ ha, hay⟩

theorem Drains.take {result : Finset α}
    (h : Drains succ (queue ++ (succ x).filter (· ∉ insert x marked)) (insert x marked) result) :
    Drains succ (x :: queue) marked result where
  keeps a ha := h.keeps a (Finset.mem_insert_of_mem ha)
  finds := List.forall_mem_cons.mpr ⟨h.keeps x (Finset.mem_insert_self _ _),
    fun a ha => h.finds a (List.mem_append_left _ ha)⟩
  closed := h.closed
  reached y hy := by
    rcases h.reached y hy with hy | ⟨a, ha, hay⟩
    · rcases Finset.mem_insert.mp hy with rfl | hy
      · exact Or.inr ⟨y, List.mem_cons_self, .refl⟩
      · exact Or.inl hy
    · rcases List.mem_append.mp ha with ha | ha
      · exact Or.inr ⟨a, List.mem_cons_of_mem _ ha, hay⟩
      · have hstep : Step succ x a := (List.mem_filter.mp ha).1
        exact Or.inr ⟨x, List.mem_cons_self, .head hstep hay⟩

theorem drain_drains (hunivs : ∀ x, x ∉ univ → succ x = []) (fuel : ℕ)
    (hfuel : pending succ univ marked queue ≤ fuel) (hfrontier : Frontier succ marked queue) :
    Drains succ queue marked (drain succ fuel queue marked) := by
  have hdone : ∀ marked, Frontier succ marked [] → Drains succ [] marked marked := fun marked h =>
    ⟨fun _ hx => hx, nofun, fun x hx y hy => (h x hx y hy).resolve_right List.not_mem_nil,
      fun _ hy => Or.inl hy⟩
  induction fuel generalizing queue marked with
  | zero =>
    cases queue with
    | nil => exact hdone marked hfrontier
    | cons x queue => simp [pending] at hfuel
  | succ fuel ih =>
    cases queue with
    | nil => exact hdone marked hfrontier
    | cons x queue =>
      rw [drain]
      by_cases hx : x ∈ marked
      · rw [if_pos hx]
        rw [← pending_skip] at hfuel
        exact (ih (Nat.le_of_succ_le_succ hfuel) (hfrontier.skip hx)).skip hx
      · rw [if_neg hx]
        have hcost := (pending_take hunivs hx).trans hfuel
        exact (ih (Nat.le_of_succ_le_succ hcost) hfrontier.take).take

theorem mem_drain_iff (hunivs : ∀ x, x ∉ univ → succ x = []) (starts : List α) (y : α) :
    y ∈ drain succ (pending succ univ ∅ starts) starts ∅ ↔
      ∃ x ∈ starts, Relation.ReflTransGen (Step succ) x y := by
  have hstart : Frontier succ ∅ starts := fun x hx => absurd hx (Finset.notMem_empty x)
  have h := drain_drains hunivs _ le_rfl hstart
  constructor
  · intro hy
    exact (h.reached y hy).resolve_left (Finset.notMem_empty y)
  · rintro ⟨x, hx, hxy⟩
    induction hxy with
    | refl => exact h.finds x hx
    | tail _ hstep ih => exact h.closed _ ih _ hstep

end Worklist
