import CytahSpeed.FiniteMap
import Mathlib.Data.List.Dedup

/-!
# Kahn's order with a first-in first-out queue

`loop` pops a node, lists it, and decrements the counter of every entry of its child list; a node
whose counter reaches zero is appended to the queue. The counters are machine words. On a finite
acyclic graph whose child lists count the parent entries (`Graph`), no counter underflows
(`loopChecked_eq`), and popping a node appends exactly those of its children whose parents are now
all listed, in the order of their last entries (`loop_eq_fifo`). Every node is listed once, after
its parents, and in order of increasing height. Adding a childless node changes nothing but its
own place: it lands behind the nodes whose parents are all listed no later than the last of its
own.
-/

namespace KahnOrder
open FiniteMap

variable {α : Type*} [DecidableEq α]

/-- `count -= 1` on a 64-bit counter. -/
def decrement (n : ℕ) : ℕ := if n = 0 then 2 ^ 64 - 1 else n - 1

def relax (s : Map α ℕ × List α) (k : α) : Map α ℕ × List α :=
  match s.1.lookup k with
  | none => s
  | some n =>
    (s.1.insert k (decrement n), if decrement n = 0 then s.2 ++ [k] else s.2)

def loop (children : α → List α) : ℕ → Map α ℕ → List α → List α → List α
  | 0, _, _, result => result
  | _ + 1, _, [], result => result
  | fuel + 1, degree, x :: queue, result =>
    let s := (children x).foldl relax (degree, queue)
    loop children fuel s.1 s.2 (result ++ [x])

theorem mem_loop (children : α → List α) (fuel : ℕ) (degree : Map α ℕ) (queue result : List α)
    {k : α} (hk : k ∈ loop children fuel degree queue result) :
    k ∈ result ∨ k ∈ queue ∨ ∃ x, k ∈ children x := by
  have hrelax : ∀ (ks : List α) (s : Map α ℕ × List α), ∀ y ∈ (ks.foldl relax s).2,
      y ∈ s.2 ∨ y ∈ ks := by
    intro ks
    induction ks with
    | nil => exact fun s y hy => Or.inl hy
    | cons a ks ih =>
      intro s y hy
      rcases ih _ y hy with hy | hy
      · unfold relax at hy
        split at hy
        · exact Or.inl hy
        · simp only at hy
          split at hy
          · rcases List.mem_append.mp hy with hy | hy
            · exact Or.inl hy
            · exact Or.inr (by rw [List.mem_singleton.mp hy]; exact List.mem_cons_self)
          · exact Or.inl hy
      · exact Or.inr (List.mem_cons_of_mem _ hy)
  induction fuel generalizing degree queue result with
  | zero => exact Or.inl hk
  | succ fuel ih =>
    cases queue with
    | nil => exact Or.inl hk
    | cons x queue =>
      rcases ih _ _ _ hk with hk | hk | hk
      · rcases List.mem_append.mp hk with hk | hk
        · exact Or.inl hk
        · exact Or.inr (Or.inl (by rw [List.mem_singleton.mp hk]; exact List.mem_cons_self))
      · rcases hrelax _ _ k hk with hk | hk
        · exact Or.inr (Or.inl (List.mem_cons_of_mem _ hk))
        · exact Or.inr (Or.inr ⟨x, hk⟩)
      · exact Or.inr (Or.inr hk)

/-- The counters of the nodes cover the entries of a child list, and other counters do not exist. -/
structure Covers (nodes : Finset α) (rest : α → ℕ) (ks : List α) (degree : Map α ℕ) : Prop where
  node : ∀ k ∈ nodes, degree.lookup k = some (rest k + ks.count k)
  other : ∀ k ∉ nodes, degree.lookup k = none

section Covers
variable {nodes : Finset α} {rest : α → ℕ} {ks : List α} {degree : Map α ℕ} {a : α}

theorem Covers.lookup_head (h : Covers nodes rest (a :: ks) degree) (ha : a ∈ nodes) :
    degree.lookup a = some ((rest a + ks.count a) + 1) := by
  rw [h.node a ha, List.count_cons_self, ← Nat.add_assoc]

theorem Covers.relax_of_mem (h : Covers nodes rest (a :: ks) degree) (ha : a ∈ nodes)
    (queue : List α) :
    relax (degree, queue) a = (degree.insert a (rest a + ks.count a),
      if rest a + ks.count a = 0 then queue ++ [a] else queue) := by
  simp only [relax, h.lookup_head ha, decrement, if_neg (Nat.succ_ne_zero _), Nat.add_sub_cancel]

theorem Covers.relax_of_notMem (h : Covers nodes rest (a :: ks) degree) (ha : a ∉ nodes)
    (queue : List α) : relax (degree, queue) a = (degree, queue) := by
  simp only [relax, h.other a ha]

theorem Covers.relax (h : Covers nodes rest (a :: ks) degree) (queue : List α) :
    Covers nodes rest ks (relax (degree, queue) a).1 := by
  by_cases ha : a ∈ nodes
  · rw [h.relax_of_mem ha]
    refine ⟨?_, ?_⟩
    · intro k hk
      rw [lookup_insert_eq_ite]
      by_cases hka : k = a
      · rw [if_pos hka, hka]
      · rw [if_neg hka, h.node k hk, List.count_cons_of_ne (Ne.symm hka)]
    · intro k hk
      have hka : k ≠ a := fun he => hk (he ▸ ha)
      rw [lookup_insert_eq_ite, if_neg hka, h.other k hk]
  · rw [h.relax_of_notMem ha]
    refine ⟨?_, h.other⟩
    intro k hk
    have hka : a ≠ k := fun he => ha (he ▸ hk)
    rw [h.node k hk, List.count_cons_of_ne hka]

theorem Covers.foldl_relax (h : Covers nodes rest ks degree) (queue : List α) :
    Covers nodes rest [] (ks.foldl KahnOrder.relax (degree, queue)).1 := by
  induction ks generalizing degree queue with
  | nil => exact h
  | cons a ks ih => exact ih (h.relax queue) _

theorem Covers.queue_foldl_relax (h : Covers nodes rest ks degree) (queue : List α) :
    (ks.foldl KahnOrder.relax (degree, queue)).2 =
      queue ++ ks.dedup.filter (fun k => k ∈ nodes ∧ rest k = 0) := by
  induction ks generalizing degree queue with
  | nil => simp
  | cons a ks ih =>
    have hrest := ih (h.relax queue) (KahnOrder.relax (degree, queue) a).2
    rw [Prod.mk.eta] at hrest
    rw [List.foldl_cons, hrest]
    by_cases ha : a ∈ nodes
    · rw [h.relax_of_mem ha]
      by_cases hmem : a ∈ ks
      · have hpos := List.count_pos_iff.mpr hmem
        rw [if_neg (by omega), List.dedup_cons_of_mem hmem]
      · rw [List.dedup_cons_of_notMem hmem, List.count_eq_zero_of_not_mem hmem, List.filter_cons]
        by_cases hrest : rest a = 0
        · simp [hrest, ha]
        · simp [hrest]
    · rw [h.relax_of_notMem ha]
      by_cases hmem : a ∈ ks
      · rw [List.dedup_cons_of_mem hmem]
      · rw [List.dedup_cons_of_notMem hmem, List.filter_cons]
        simp [ha]

end Covers

/-- What the loop with checked arithmetic can show instead of a list: a counter that would go
below zero, or a queue that is not empty yet. -/
inductive Fault
  | underflow
  | running
  deriving DecidableEq

/-- One entry of a child list where `count -= 1` is checked. -/
def relaxChecked (s : Map α ℕ × List α) (k : α) : Except Fault (Map α ℕ × List α) :=
  match s.1.lookup k with
  | none => .ok s
  | some 0 => .error .underflow
  | some (n + 1) => .ok (s.1.insert k n, if n = 0 then s.2 ++ [k] else s.2)

/-- `loop` with checked arithmetic, watched for as many turns as there is fuel. -/
def loopChecked (children : α → List α) :
    ℕ → Map α ℕ → List α → List α → Except Fault (List α)
  | _, _, [], result => .ok result
  | 0, _, _ :: _, _ => .error .running
  | fuel + 1, degree, x :: queue, result => do
    let s ← (children x).foldlM relaxChecked (degree, queue)
    loopChecked children fuel s.1 s.2 (result ++ [x])

theorem Covers.relaxChecked_eq {nodes : Finset α} {rest : α → ℕ} {ks : List α} {a : α}
    {degree : Map α ℕ} (h : Covers nodes rest (a :: ks) degree) (queue : List α) :
    relaxChecked (degree, queue) a = .ok (KahnOrder.relax (degree, queue) a) := by
  by_cases ha : a ∈ nodes
  · simp only [relaxChecked, h.lookup_head ha, h.relax_of_mem ha]
  · simp only [relaxChecked, h.other a ha, h.relax_of_notMem ha]

theorem Covers.foldlM_relaxChecked {nodes : Finset α} {rest : α → ℕ} {ks : List α}
    {degree : Map α ℕ} (h : Covers nodes rest ks degree) (queue : List α) :
    ks.foldlM relaxChecked (degree, queue) = .ok (ks.foldl KahnOrder.relax (degree, queue)) := by
  induction ks generalizing degree queue with
  | nil => rfl
  | cons a ks ih =>
    rw [List.foldlM_cons, h.relaxChecked_eq, List.foldl_cons]
    exact ih (h.relax queue) _

/-- A finite acyclic graph given by parent lists and by child lists that count their entries. -/
structure Graph (α : Type*) [DecidableEq α] where
  nodes : Finset α
  parents : α → List α
  children : α → List α
  rank : α → ℕ
  closed : ∀ k, ∀ p ∈ parents k, p ∈ nodes ∧ k ∈ nodes
  count : ∀ p k, (children p).count k = (parents k).count p
  rank_lt : ∀ k, ∀ p ∈ parents k, rank p < rank k

namespace Graph

variable (G : Graph α)

def Ready (done : List α) (k : α) : Prop := k ∈ G.nodes ∧ ∀ p ∈ G.parents k, p ∈ done

instance (done : List α) (k : α) : Decidable (G.Ready done k) := by
  unfold Ready
  infer_instance

def released (x : α) (done : List α) : List α := (G.children x).dedup.filter (G.Ready done ·)

def fifo : ℕ → List α → List α → List α
  | 0, _, result => result
  | _ + 1, [], result => result
  | fuel + 1, x :: queue, result =>
    fifo fuel (queue ++ G.released x (result ++ [x])) (result ++ [x])

theorem mem_children_iff (x k : α) : k ∈ G.children x ↔ x ∈ G.parents k := by
  rw [← List.count_pos_iff, G.count, List.count_pos_iff]

/-- Every counter holds the number of parent entries that are not listed yet. -/
structure Counts (degree : Map α ℕ) (result : List α) : Prop where
  node : ∀ k ∈ G.nodes, degree.lookup k = some ((G.parents k).countP (· ∉ result))
  other : ∀ k ∉ G.nodes, degree.lookup k = none

/-- What holds whenever the queue is read: no node is queued twice, and the nodes listed or queued
are those whose parents are listed. -/
structure Inv (queue result : List α) : Prop where
  nodup : (result ++ queue).Nodup
  mem : ∀ k, k ∈ result ++ queue ↔ G.Ready result k

variable {G} {queue result : List α} {x : α}

theorem countP_notMem_append (hx : x ∉ result) (l : List α) :
    l.countP (· ∉ result) = l.countP (· ∉ result ++ [x]) + l.count x := by
  induction l with
  | nil => rfl
  | cons a l ih =>
    rw [List.countP_cons, List.countP_cons, List.count_cons, ih]
    by_cases ha : a = x
    · subst ha
      simp [hx]
      omega
    · by_cases hr : a ∈ result
      · simp [ha, hr]
      · simp [ha, hr]
        omega

theorem Counts.covers {degree : Map α ℕ} (h : G.Counts degree result) (hx : x ∉ result) :
    Covers G.nodes (fun k => (G.parents k).countP (· ∉ result ++ [x])) (G.children x) degree := by
  refine ⟨?_, h.other⟩
  intro k hk
  rw [h.node k hk, G.count, countP_notMem_append hx]

variable (queue) in
theorem Counts.pop {degree : Map α ℕ} (h : G.Counts degree result) (hx : x ∉ result) :
    G.Counts ((G.children x).foldl relax (degree, queue)).1 (result ++ [x]) ∧
      ((G.children x).foldl relax (degree, queue)).2 =
        queue ++ G.released x (result ++ [x]) := by
  have hdone := (h.covers hx).foldl_relax queue
  refine ⟨⟨hdone.node, hdone.other⟩, ((h.covers hx).queue_foldl_relax queue).trans ?_⟩
  congr 1
  apply List.filter_congr
  intro k _
  simp only [Ready, List.countP_eq_zero, decide_eq_true_eq, not_not]

theorem Inv.notMem_head (h : G.Inv (x :: queue) result) : x ∉ result := by
  intro hx
  have hdisj := List.nodup_append.mp h.nodup
  exact hdisj.2.2 x hx x List.mem_cons_self rfl

theorem Inv.nodup_pop (h : G.Inv (x :: queue) result) : ((result ++ [x]) ++ queue).Nodup := by
  rw [List.append_assoc]
  exact h.nodup

theorem mem_released {done : List α} {k : α} :
    k ∈ G.released x done ↔ x ∈ G.parents k ∧ G.Ready done k := by
  rw [released, List.mem_filter, List.mem_dedup, mem_children_iff, decide_eq_true_eq]

theorem Inv.notMem_of_released (h : G.Inv (x :: queue) result) {k : α}
    (hk : k ∈ G.released x (result ++ [x])) : k ∉ (result ++ [x]) ++ queue := by
  intro hmem
  rw [List.append_assoc] at hmem
  exact h.notMem_head (((h.mem k).mp hmem).2 x (mem_released.mp hk).1)

theorem Inv.pop (h : G.Inv (x :: queue) result) :
    G.Inv (queue ++ G.released x (result ++ [x])) (result ++ [x]) := by
  refine ⟨?_, ?_⟩
  · rw [← List.append_assoc]
    refine List.nodup_append.mpr ⟨h.nodup_pop, ((G.children x).nodup_dedup).filter _, ?_⟩
    intro a ha b hb hab
    exact h.notMem_of_released hb (hab ▸ ha)
  · intro k
    rw [← List.append_assoc, List.mem_append, mem_released]
    constructor
    · rintro (hk | hk)
      · rw [List.append_assoc] at hk
        obtain ⟨hn, hp⟩ := (h.mem k).mp hk
        exact ⟨hn, fun p hpk => List.mem_append_left _ (hp p hpk)⟩
      · exact hk.2
    · intro hk
      by_cases hx : x ∈ G.parents k
      · exact Or.inr ⟨hx, hk⟩
      · refine Or.inl ?_
        rw [List.append_assoc]
        refine (h.mem k).mpr ⟨hk.1, fun p hp => ?_⟩
        rcases List.mem_append.mp (hk.2 p hp) with hp' | hp'
        · exact hp'
        · exact absurd (List.mem_singleton.mp hp' ▸ hp) hx

/-- The counters decide readiness, so they can be dropped. -/
theorem loop_eq_fifo (fuel : ℕ) (degree : Map α ℕ) (hc : G.Counts degree result)
    (h : G.Inv queue result) :
    loop G.children fuel degree queue result = G.fifo fuel queue result := by
  induction fuel generalizing degree queue result with
  | zero => rfl
  | succ fuel ih =>
    cases queue with
    | nil => rfl
    | cons x queue =>
      obtain ⟨hc', hq⟩ := hc.pop queue h.notMem_head
      rw [loop, fifo, ← hq]
      apply ih _ hc'
      rw [hq]
      exact h.pop

theorem Inv.length_le (h : G.Inv queue result) : (result ++ queue).length ≤ G.nodes.card := by
  rw [← List.toFinset_card_of_nodup h.nodup]
  apply Finset.card_le_card
  intro k hk
  exact ((h.mem k).mp (List.mem_toFinset.mp hk)).1

/-- Invariants of the order: with fuel for every node the queue runs empty, and what popping a
node preserves holds at the end. -/
theorem fifo_invariant {J : List α → List α → Prop}
    (hpop : ∀ x queue result, G.Inv (x :: queue) result → J (x :: queue) result →
      J (queue ++ G.released x (result ++ [x])) (result ++ [x]))
    (fuel : ℕ) (hfuel : G.nodes.card ≤ fuel + result.length) (h : G.Inv queue result)
    (hJ : J queue result) :
    G.Inv [] (G.fifo fuel queue result) ∧ J [] (G.fifo fuel queue result) := by
  induction fuel generalizing queue result with
  | zero =>
    have hle := h.length_le
    rw [List.length_append] at hle
    obtain rfl : queue = [] := List.length_eq_zero_iff.mp (by omega)
    exact ⟨h, hJ⟩
  | succ fuel ih =>
    cases queue with
    | nil => exact ⟨h, hJ⟩
    | cons x queue =>
      rw [fifo]
      apply ih _ h.pop (hpop x queue result h hJ)
      rw [List.length_append, List.length_singleton]
      omega

theorem loopChecked_eq (fuel : ℕ) (degree : Map α ℕ) (hfuel : G.nodes.card ≤ fuel + result.length)
    (hc : G.Counts degree result) (h : G.Inv queue result) :
    loopChecked G.children fuel degree queue result = .ok (G.fifo fuel queue result) := by
  induction fuel generalizing degree queue result with
  | zero =>
    have hle := h.length_le
    rw [List.length_append] at hle
    obtain rfl : queue = [] := List.length_eq_zero_iff.mp (by omega)
    rfl
  | succ fuel ih =>
    cases queue with
    | nil => rfl
    | cons x queue =>
      obtain ⟨hc', hq⟩ := hc.pop queue h.notMem_head
      rw [loopChecked, (hc.covers h.notMem_head).foldlM_relaxChecked queue, fifo, ← hq]
      apply ih _ (by rw [List.length_append, List.length_singleton]; omega) hc'
      rw [hq]
      exact h.pop

theorem fifo_eq_of_le {fuel fuel' : ℕ} (hfuel : G.nodes.card ≤ fuel + result.length)
    (hle : fuel ≤ fuel') (h : G.Inv queue result) :
    G.fifo fuel' queue result = G.fifo fuel queue result := by
  induction fuel generalizing fuel' queue result with
  | zero =>
    have hlen := h.length_le
    rw [List.length_append] at hlen
    obtain rfl : queue = [] := List.length_eq_zero_iff.mp (by omega)
    cases fuel' <;> rfl
  | succ fuel ih =>
    obtain ⟨fuel', rfl⟩ := Nat.exists_eq_succ_of_ne_zero (n := fuel') (by omega)
    cases queue with
    | nil => rfl
    | cons x queue =>
      rw [fifo, fifo]
      exact ih (by rw [List.length_append, List.length_singleton]; omega) (by omega) h.pop

/-- When the queue is empty every node is listed: a missing one of least rank would be ready. -/
theorem Inv.mem_of_queue_nil (h : G.Inv [] result) (k : α) : k ∈ result ↔ k ∈ G.nodes := by
  have hmem : ∀ k, k ∈ result ↔ G.Ready result k := by simpa using h.mem
  refine ⟨fun hk => ((hmem k).mp hk).1, fun hk => ?_⟩
  induction hr : G.rank k using Nat.strong_induction_on generalizing k with
  | _ r ih =>
    refine (hmem k).mpr ⟨hk, fun p hp => ?_⟩
    exact ih (G.rank p) (hr ▸ G.rank_lt k p hp) p (G.closed k p hp).1 rfl

theorem inv_start {roots : List α} (hn : roots.Nodup)
    (hroots : ∀ k, k ∈ roots ↔ k ∈ G.nodes ∧ G.parents k = []) : G.Inv roots [] := by
  refine ⟨hn, fun k => ?_⟩
  rw [List.nil_append, hroots, Ready]
  simp only [List.not_mem_nil, List.eq_nil_iff_forall_not_mem]

theorem Inv.pairwise_parents (h : G.Inv (x :: queue) result)
    (hp : (result ++ x :: queue).Pairwise fun a b => b ∉ G.parents a) :
    ((result ++ [x]) ++ (queue ++ G.released x (result ++ [x]))).Pairwise
      fun a b => b ∉ G.parents a := by
  have hready := h.pop.mem
  rw [← List.append_assoc] at hready ⊢
  -- parents of everything listed or queued are listed, and released nodes are not
  have hnew : ∀ a ∈ ((result ++ [x]) ++ queue) ++ G.released x (result ++ [x]),
      ∀ b ∈ G.released x (result ++ [x]), b ∉ G.parents a := by
    intro a ha b hb hab
    exact h.notMem_of_released hb (List.mem_append_left _ (((hready a).mp ha).2 b hab))
  refine List.pairwise_append.mpr ⟨by simpa using hp, ?_, ?_⟩
  · exact List.pairwise_of_forall_mem_list fun a ha b hb => hnew a (List.mem_append_right _ ha) b hb
  · exact fun a ha b hb => hnew a (List.mem_append_left _ ha) b hb

section Height
variable {height : α → ℕ}
  (hroot : ∀ k ∈ G.nodes, G.parents k = [] → height k = 0)
  (hlt : ∀ k, ∀ p ∈ G.parents k, height p < height k)
  (hexists : ∀ k, G.parents k ≠ [] → ∃ p ∈ G.parents k, height k = height p + 1)
include hroot hlt hexists

/-- The queue holds at most two consecutive heights, so appending keeps the heights sorted. -/
theorem Inv.pairwise_height (h : G.Inv (x :: queue) result)
    (hp : (result ++ x :: queue).Pairwise fun a b => height a ≤ height b) :
    ((result ++ [x]) ++ (queue ++ G.released x (result ++ [x]))).Pairwise
      fun a b => height a ≤ height b := by
  have hsorted : ((result ++ [x]) ++ queue).Pairwise fun a b => height a ≤ height b := by
    simpa using hp
  have hlast : ∀ p ∈ result ++ [x], height p ≤ height x := by
    have hpre := (List.pairwise_append.mp hsorted).1
    intro p hmem
    rcases List.mem_append.mp hmem with hmem | hmem
    · exact (List.pairwise_append.mp hpre).2.2 p hmem x (List.mem_singleton_self x)
    · rw [List.mem_singleton.mp hmem]
  have hbound : ∀ k ∈ ((result ++ [x]) ++ queue) ++ G.released x (result ++ [x]),
      height k ≤ height x + 1 := by
    intro k hk
    rw [List.append_assoc] at hk
    obtain ⟨hn, hpar⟩ := (h.pop.mem k).mp hk
    by_cases hnil : G.parents k = []
    · rw [hroot k hn hnil]
      exact Nat.zero_le _
    · obtain ⟨p, hpk, he⟩ := hexists k hnil
      have hle := hlast p (hpar p hpk)
      omega
  have habove : ∀ k ∈ G.released x (result ++ [x]), height x + 1 ≤ height k :=
    fun k hk => hlt k x (mem_released.mp hk).1
  rw [← List.append_assoc]
  refine List.pairwise_append.mpr ⟨hsorted, ?_, ?_⟩
  · apply List.pairwise_of_forall_mem_list
    intro a ha b hb
    exact (hbound a (List.mem_append_right _ ha)).trans (habove b hb)
  · intro a ha b hb
    exact (hbound a (List.mem_append_left _ ha)).trans (habove b hb)

end Height

/-- The second graph has one more node, childless and with parents of its own, whose entries come
last in the child lists. -/
structure ExtendedBy (G G' : Graph α) (a : α) : Prop where
  fresh : a ∉ G.nodes
  nodes : G'.nodes = insert a G.nodes
  parents : ∀ k ≠ a, G'.parents k = G.parents k
  parents_subset : ∀ p ∈ G'.parents a, p ∈ G.nodes
  parents_ne : G'.parents a ≠ []
  children : ∀ p, G'.children p = G.children p ++ List.replicate ((G'.parents a).count p) a

section Extended
variable {G' : Graph α} {a : α}

theorem dedup_append_replicate (l : List α) (ha : a ∉ l) {m : ℕ} (hm : m ≠ 0) :
    (l ++ List.replicate m a).dedup = l.dedup ++ [a] := by
  induction l with
  | nil => rw [List.nil_append, List.replicate_dedup hm, List.dedup_nil, List.nil_append]
  | cons b l ih =>
    rw [List.mem_cons, not_or] at ha
    obtain ⟨hab, hal⟩ := ha
    have hmem : b ∈ l ++ List.replicate m a ↔ b ∈ l := by
      rw [List.mem_append, List.mem_replicate]
      exact ⟨fun h => h.resolve_right fun h => hab h.2.symm, Or.inl⟩
    rw [List.cons_append]
    by_cases hb : b ∈ l
    · rw [List.dedup_cons_of_mem hb, List.dedup_cons_of_mem (hmem.mpr hb), ih hal]
    · rw [List.dedup_cons_of_notMem hb, List.dedup_cons_of_notMem (mt hmem.mp hb), ih hal,
        List.cons_append]

theorem ExtendedBy.released_eq (h : G.ExtendedBy G' a) {x : α} {done done' : List α}
    (hdone : ∀ p ∈ G.nodes, p ∈ done' ↔ p ∈ done) :
    G'.released x done' = G.released x done ++
      if x ∈ G'.parents a ∧ ∀ p ∈ G'.parents a, p ∈ done then [a] else [] := by
  have hna : a ∉ G.children x := by
    intro hmem
    exact h.fresh (G.closed a x ((G.mem_children_iff x a).mp hmem)).2
  have hold : (G.children x).dedup.filter (G'.Ready done' ·) = G.released x done := by
    apply List.filter_congr
    intro k hk
    have hk : x ∈ G.parents k := (G.mem_children_iff x k).mp (List.mem_dedup.mp hk)
    have hne : k ≠ a := fun he => h.fresh (he ▸ (G.closed k x hk).2)
    have hpar : (∀ p ∈ G.parents k, p ∈ done') ↔ ∀ p ∈ G.parents k, p ∈ done :=
      forall₂_congr fun p hp => hdone p (G.closed k p hp).1
    simp only [Ready, h.parents k hne, h.nodes, Finset.mem_insert, hne, false_or, hpar]
  have hnew : G'.Ready done' a ↔ ∀ p ∈ G'.parents a, p ∈ done := by
    rw [Ready, h.nodes]
    simp only [Finset.mem_insert_self, true_and]
    exact forall₂_congr fun p hp => hdone p (h.parents_subset p hp)
  rw [released, h.children x]
  by_cases hx : x ∈ G'.parents a
  · have hpos := List.count_pos_iff.mpr hx
    rw [dedup_append_replicate _ hna (by omega), List.filter_append, hold]
    congr 1
    by_cases hall : ∀ p ∈ G'.parents a, p ∈ done
    · rw [if_pos ⟨hx, hall⟩, List.filter_cons_of_pos (by simpa using hnew.mpr hall),
        List.filter_nil]
    · rw [if_neg fun hboth => hall hboth.2,
        List.filter_cons_of_neg (by simpa using mt hnew.mp hall), List.filter_nil]
  · rw [List.count_eq_zero_of_not_mem hx, List.replicate_zero, List.append_nil, hold,
      if_neg (fun hall => hx hall.1), List.append_nil]

theorem ExtendedBy.released_of_listed (h : G.ExtendedBy G' a)
    (hall : ∀ p ∈ G'.parents a, p ∈ result) (hx : x ∉ result) {done done' : List α}
    (hdone : ∀ p ∈ G.nodes, p ∈ done' ↔ p ∈ done) :
    G'.released x done' = G.released x done := by
  rw [h.released_eq hdone, if_neg (fun hmem => hx (hall x hmem.1)), List.append_nil]

theorem ExtendedBy.fifo_listed (h : G.ExtendedBy G' a) (fuel : ℕ) (queue before after : List α)
    (hinv : G.Inv queue (before ++ after)) (hall : ∀ p ∈ G'.parents a, p ∈ before ++ after) :
    ∃ rest, G.fifo fuel queue (before ++ after) = before ++ rest ∧
      G'.fifo fuel queue (before ++ a :: after) = before ++ a :: rest := by
  induction fuel generalizing queue after with
  | zero => exact ⟨after, rfl, rfl⟩
  | succ fuel ih =>
    cases queue with
    | nil => exact ⟨after, rfl, rfl⟩
    | cons x queue =>
      have hdone : ∀ p ∈ G.nodes,
          p ∈ (before ++ a :: after) ++ [x] ↔ p ∈ (before ++ after) ++ [x] := by
        intro p hp
        have hpa : p ≠ a := fun he => h.fresh (he ▸ hp)
        simp [hpa]
      rw [fifo, fifo, h.released_of_listed hall hinv.notMem_head hdone]
      have hpop := hinv.pop
      rw [List.append_assoc before after [x]] at hpop ⊢
      rw [List.append_assoc before (a :: after) [x], List.cons_append]
      exact ih _ _ hpop fun p hp => by
        rw [← List.append_assoc]
        exact List.mem_append_left _ (hall p hp)

theorem ExtendedBy.children_self (h : G.ExtendedBy G' a) : G'.children a = [] := by
  rw [List.eq_nil_iff_forall_not_mem]
  intro k hk
  have hpar := (G'.mem_children_iff a k).mp hk
  by_cases hka : k = a
  · subst hka
    exact absurd (G'.rank_lt k k hpar) (lt_irrefl _)
  · rw [h.parents k hka] at hpar
    exact h.fresh (G.closed k a hpar).1

/-- While the new node is queued, what stands before it in the queue is listed first. -/
theorem ExtendedBy.fifo_queued (h : G.ExtendedBy G' a) (front : List α) (fuel : ℕ)
    (back result : List α) (hfuel : G.nodes.card ≤ fuel + result.length)
    (hinv : G.Inv (front ++ back) result) (hall : ∀ p ∈ G'.parents a, p ∈ result) :
    ∃ rest, G.fifo fuel (front ++ back) result = (result ++ front) ++ rest ∧
      G'.fifo (fuel + 1) (front ++ a :: back) result = (result ++ front) ++ a :: rest := by
  induction front generalizing fuel back result with
  | nil =>
    have hrel : G'.released a (result ++ [a]) = [] := by
      rw [released, h.children_self, List.dedup_nil, List.filter_nil]
    have hstep : G'.fifo (fuel + 1) (a :: back) result = G'.fifo fuel back (result ++ [a]) := by
      rw [fifo, hrel, List.append_nil]
    have hend := h.fifo_listed fuel back result [] (by simpa using hinv) (by simpa using hall)
    rw [List.append_nil] at hend
    simpa only [List.nil_append, List.append_nil, hstep] using hend
  | cons x front ih =>
    rw [List.cons_append] at hinv
    have hle := hinv.length_le
    rw [List.length_append, List.length_cons] at hle
    obtain ⟨fuel, rfl⟩ := Nat.exists_eq_succ_of_ne_zero (n := fuel) (by omega)
    have hpop := hinv.pop
    rw [List.append_assoc] at hpop
    obtain ⟨rest, h₁, h₂⟩ := ih fuel (back ++ G.released x (result ++ [x])) (result ++ [x])
      (by rw [List.length_append, List.length_singleton]; omega) hpop
      (fun p hp => List.mem_append_left _ (hall p hp))
    refine ⟨rest, ?_, ?_⟩
    · rw [List.cons_append, fifo, List.append_assoc front back, h₁]
      simp only [List.append_assoc, List.singleton_append]
    · rw [List.cons_append, fifo,
        h.released_of_listed hall hinv.notMem_head (fun p _ => Iff.rfl), List.append_assoc front,
        List.cons_append, h₂]
      simp only [List.append_assoc, List.singleton_append]

def Sooner (order : List α) (parents : α → List α) (news : List α) (k : α) : Prop :=
  ∀ q ∈ parents k, ∃ p ∈ news, order.idxOf q ≤ order.idxOf p

instance (order : List α) (parents : α → List α) (news : List α) (k : α) :
    Decidable (Sooner order parents news k) := by
  unfold Sooner
  infer_instance

theorem mem_prefix_iff {done rest news : List α} {p : α} (hp : p ∈ news)
    (hn : ((done ++ [p]) ++ rest).Nodup) (hall : ∀ q ∈ news, q ∈ done ++ [p]) (q : α) :
    q ∈ done ++ [p] ↔ ∃ r ∈ news, ((done ++ [p]) ++ rest).idxOf q ≤
      ((done ++ [p]) ++ rest).idxOf r := by
  have hidx : ((done ++ [p]) ++ rest).idxOf p = done.length := by
    have hpd : p ∉ done := by
      intro hmem
      have hdisj := (List.nodup_append.mp (List.nodup_append.mp hn).1).2.2
      exact hdisj p hmem p (List.mem_singleton_self p) rfl
    rw [List.append_assoc, List.idxOf_append_of_notMem hpd]
    simp
  constructor
  · intro hq
    refine ⟨p, hp, ?_⟩
    rw [hidx, List.idxOf_append_of_mem hq]
    have hlt := List.idxOf_lt_length_of_mem hq
    rw [List.length_append, List.length_singleton] at hlt
    omega
  · rintro ⟨r, hr, hle⟩
    rw [List.idxOf_append_of_mem (hall r hr)] at hle
    have hlt := List.idxOf_lt_length_of_mem (hall r hr)
    by_contra hq
    rw [List.idxOf_append_of_notMem hq] at hle
    omega

/-- Until the last parent of the new node is listed the two orders agree; then it is queued behind
every node that is ready. -/
theorem ExtendedBy.fifo_pending (h : G.ExtendedBy G' a) (fuel : ℕ) (queue result : List α)
    (hfuel : G.nodes.card ≤ fuel + result.length) (hinv : G.Inv queue result)
    (hsome : ∃ p ∈ G'.parents a, p ∉ result) :
    ∃ done p front rest, p ∈ G'.parents a ∧ (∀ q ∈ G'.parents a, q ∈ done ++ [p]) ∧
      (∀ k, k ∈ (done ++ [p]) ++ front ↔ G.Ready (done ++ [p]) k) ∧
      G.fifo fuel queue result = ((done ++ [p]) ++ front) ++ rest ∧
      G'.fifo (fuel + 1) queue result = ((done ++ [p]) ++ front) ++ a :: rest := by
  have hqueue : queue ≠ [] := by
    rintro rfl
    obtain ⟨p, hp, hnot⟩ := hsome
    exact hnot ((hinv.mem_of_queue_nil p).mpr (h.parents_subset p hp))
  obtain ⟨x, queue, rfl⟩ := List.exists_cons_of_ne_nil hqueue
  induction fuel generalizing x queue result with
  | zero =>
    have hle := hinv.length_le
    rw [List.length_append, List.length_cons] at hle
    omega
  | succ fuel ih =>
    have hpop := hinv.pop
    have hfuel' : G.nodes.card ≤ fuel + (result ++ [x]).length := by
      rw [List.length_append, List.length_singleton]
      omega
    have hrel : G'.released x (result ++ [x]) = G.released x (result ++ [x]) ++
        if x ∈ G'.parents a ∧ ∀ p ∈ G'.parents a, p ∈ result ++ [x] then [a] else [] :=
      h.released_eq fun p _ => Iff.rfl
    by_cases hall : ∀ p ∈ G'.parents a, p ∈ result ++ [x]
    · obtain ⟨p, hp, hnot⟩ := hsome
      obtain rfl : p = x := by
        rcases List.mem_append.mp (hall p hp) with hmem | hmem
        · exact absurd hmem hnot
        · exact List.mem_singleton.mp hmem
      rw [if_pos ⟨hp, hall⟩] at hrel
      obtain ⟨rest, h₁, h₂⟩ := h.fifo_queued (queue ++ G.released p (result ++ [p])) fuel []
        (result ++ [p]) hfuel' (by simpa using hpop) hall
      refine ⟨result, p, _, rest, hp, hall, hpop.mem, ?_, ?_⟩
      · rw [fifo, ← h₁, List.append_nil]
      · rw [fifo, hrel, ← List.append_assoc queue, h₂]
    · have hrest : ∃ p ∈ G'.parents a, p ∉ result ++ [x] := by
        simpa only [not_forall, exists_prop] using hall
      rw [if_neg fun hboth => hall hboth.2, List.append_nil] at hrel
      have hqueue' : queue ++ G.released x (result ++ [x]) ≠ [] := by
        intro hnil
        rw [hnil] at hpop
        obtain ⟨p, hp, hnot⟩ := hrest
        exact hnot ((hpop.mem_of_queue_nil p).mpr (h.parents_subset p hp))
      rw [fifo, fifo, hrel]
      obtain ⟨y, ys, hy⟩ := List.exists_cons_of_ne_nil hqueue'
      rw [hy] at hpop hqueue' ⊢
      exact ih (result ++ [x]) hfuel' hrest y ys hpop hqueue'

/-- A childless node added to the graph lands behind the nodes whose parents are all listed no
later than the last of its own parents, and moves no other. -/
theorem ExtendedBy.order_eq (h : G.ExtendedBy G' a) {roots order : List α} (hinv : G.Inv roots [])
    (horder : order = G.fifo G.nodes.card roots []) :
    ∃ rest, order = order.filter (Sooner order G.parents (G'.parents a) ·) ++ rest ∧
      G'.fifo (G.nodes.card + 1) roots [] =
        order.filter (Sooner order G.parents (G'.parents a) ·) ++ a :: rest := by
  have hsome : ∃ p ∈ G'.parents a, p ∉ ([] : List α) := by
    obtain ⟨p, l, hp⟩ := List.exists_cons_of_ne_nil h.parents_ne
    exact ⟨p, by rw [hp]; exact List.mem_cons_self, List.not_mem_nil⟩
  obtain ⟨done, p, front, rest, hp, hall, hready, h₁, h₂⟩ :=
    h.fifo_pending G.nodes.card roots [] (by simp) hinv hsome
  obtain ⟨hfinal, -⟩ := fifo_invariant (J := fun _ _ => True) (fun _ _ _ _ _ => trivial)
    G.nodes.card (by simp) hinv trivial
  rw [← horder] at hfinal h₁
  have hnodup : (((done ++ [p]) ++ front) ++ rest).Nodup := by
    rw [← h₁]
    simpa using hfinal.nodup
  have hlisted : ∀ q, q ∈ done ++ [p] ↔
      ∃ r ∈ G'.parents a, order.idxOf q ≤ order.idxOf r := by
    intro q
    rw [h₁, List.append_assoc]
    exact mem_prefix_iff hp (by rwa [List.append_assoc] at hnodup) hall q
  have hsooner : ∀ k ∈ order,
      k ∈ (done ++ [p]) ++ front ↔ Sooner order G.parents (G'.parents a) k := by
    intro k hk
    rw [hready, Ready]
    have hnode := (hfinal.mem_of_queue_nil k).mp hk
    exact ⟨fun hall q hq => (hlisted q).mp (hall.2 q hq),
      fun hall => ⟨hnode, fun q hq => (hlisted q).mpr (hall q hq)⟩⟩
  have hfilter : order.filter (Sooner order G.parents (G'.parents a) ·) =
      (done ++ [p]) ++ front := by
    have hleft : ((done ++ [p]) ++ front).filter
        (Sooner order G.parents (G'.parents a) ·) = (done ++ [p]) ++ front := by
      rw [List.filter_eq_self]
      intro k hk
      simpa using (hsooner k (by rw [h₁]; exact List.mem_append_left _ hk)).mp hk
    have hright : rest.filter (Sooner order G.parents (G'.parents a) ·) = [] := by
      rw [List.filter_eq_nil_iff]
      intro k hk hso
      have hmem := (hsooner k (by rw [h₁]; exact List.mem_append_right _ hk)).mpr
        (by simpa using hso)
      exact (List.nodup_append.mp hnodup).2.2 k hmem k hk rfl
    conv_lhs => rw [h₁]
    rw [List.filter_append, ← h₁, hleft, hright, List.append_nil]
  exact ⟨rest, by rw [hfilter]; exact h₁, by rw [hfilter]; exact h₂⟩

end Extended

end Graph

end KahnOrder
