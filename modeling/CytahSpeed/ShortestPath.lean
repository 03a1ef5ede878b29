import CytahSpeed.FiniteMap
import CytahSpeed.LevelOrder
import CytahSpeed.Worklist

/-!
# Shortest paths by breadth-first search

A search that marks nodes when it queues them and notes from which node each was reached. It stops
when it takes the target from the queue and follows the notes back to the start. The queue holds
nodes of one distance and behind them nodes of the next, so nodes are marked with their distance,
and the path is a shortest one.
-/

namespace ShortestPath
open FiniteMap

variable {α : Type*} [DecidableEq α]

structure State (α : Type*) [DecidableEq α] where
  queue : List α
  visited : Finset α
  cameFrom : Map α α

namespace State

def start (a : α) : State α := ⟨[a], {a}, ∅⟩

def visit (x : α) (s : State α) (y : α) : State α :=
  if y ∈ s.visited then s
  else ⟨s.queue ++ [y], insert y s.visited, s.cameFrom.insert y x⟩

theorem foldl_visit (x : α) (ys : List α) (s : State α) :
    ∃ new, (ys.foldl (visit x) s).queue = s.queue ++ new ∧
      (∀ y, y ∈ new ↔ y ∈ ys ∧ y ∉ s.visited) ∧
      (ys.foldl (visit x) s).visited = s.visited ∪ new.toFinset ∧ new.Nodup ∧
      (∀ y ∈ new, (ys.foldl (visit x) s).cameFrom.lookup y = some x) ∧
      ∀ y ∉ new, (ys.foldl (visit x) s).cameFrom.lookup y = s.cameFrom.lookup y := by
  induction ys generalizing s with
  | nil => exact ⟨[], by simp⟩
  | cons z ys ih =>
    rw [List.foldl_cons]
    obtain ⟨new, hqueue, hnew, hvisited, hnodup, hfrom, hold⟩ := ih (visit x s z)
    by_cases hz : z ∈ s.visited
    · have hsame : visit x s z = s := if_pos hz
      rw [hsame] at hqueue hnew hvisited hfrom hold ⊢
      refine ⟨new, hqueue, ?_, hvisited, hnodup, hfrom, hold⟩
      intro y
      rw [hnew, List.mem_cons]
      grind
    · have hstep : visit x s z = ⟨s.queue ++ [z], insert z s.visited, s.cameFrom.insert z x⟩ :=
        if_neg hz
      rw [hstep] at hqueue hnew hvisited hfrom hold ⊢
      simp only [Finset.mem_insert] at hnew
      have hzn : z ∉ new := fun h => ((hnew z).mp h).2 (Or.inl rfl)
      refine ⟨z :: new, ?_, ?_, ?_, List.nodup_cons.mpr ⟨hzn, hnodup⟩, ?_, ?_⟩
      · rw [hqueue, List.append_assoc, List.singleton_append]
      · intro y
        rw [List.mem_cons, hnew, List.mem_cons]
        grind
      · rw [hvisited, List.toFinset_cons, Finset.insert_union, Finset.union_insert]
      · intro y hy
        rcases List.mem_cons.mp hy with rfl | hy
        · rw [hold y hzn, Finmap.lookup_insert]
        · exact hfrom y hy
      · intro y hy
        rw [List.mem_cons, not_or] at hy
        rw [hold y hy.2, Finmap.lookup_insert_of_ne _ hy.1]

end State

/-- The notes followed back from a node. -/
def trace (cameFrom : Map α α) : ℕ → α → List α
  | 0, x => [x]
  | fuel + 1, x =>
    match cameFrom.lookup x with
    | none => [x]
    | some y => x :: trace cameFrom fuel y

variable (succ : α → List α)

def find (target : α) : ℕ → State α → Option (List α)
  | 0, _ => none
  | fuel + 1, s =>
    match s.queue with
    | [] => none
    | x :: queue =>
      if x = target then some (trace s.cameFrom s.cameFrom.keys.card x).reverse
      else find target fuel ((succ x).foldl (State.visit x) { s with queue := queue })

structure IsPath (a b : α) (path : List α) : Prop where
  head : path.head? = some a
  last : path.getLast? = some b
  chain : path.IsChain (Worklist.Step succ)

def Distance (a : α) (n : ℕ) (x : α) : Prop :=
  x ∈ LevelOrder.level succ a n ∧ ∀ m < n, x ∉ LevelOrder.level succ a m

section Distance
omit [DecidableEq α]
variable {succ} {a x y : α} {m n : ℕ}

theorem distance_start (a : α) : Distance succ a 0 a := ⟨List.mem_singleton_self a, nofun⟩

theorem Distance.eq (hm : Distance succ a m x) (hn : Distance succ a n x) : m = n := by
  rcases Nat.lt_trichotomy m n with h | h | h
  · exact absurd hm.1 (hn.2 m h)
  · exact h
  · exact absurd hn.1 (hm.2 n h)

theorem mem_level_succ (h : x ∈ LevelOrder.level succ a n) (hy : y ∈ succ x) :
    y ∈ LevelOrder.level succ a (n + 1) :=
  List.mem_flatMap.mpr ⟨x, h, hy⟩

theorem exists_distance (h : x ∈ LevelOrder.level succ a n) : ∃ m ≤ n, Distance succ a m x := by
  induction n using Nat.strong_induction_on with
  | h n ih =>
    by_cases hless : ∃ m < n, x ∈ LevelOrder.level succ a m
    · obtain ⟨m, hm, hx⟩ := hless
      obtain ⟨k, hk, hdist⟩ := ih m hm hx
      exact ⟨k, by omega, hdist⟩
    · push Not at hless
      exact ⟨n, le_rfl, h, hless⟩

theorem Distance.exists_pred (h : Distance succ a (n + 1) x) :
    ∃ y, Distance succ a n y ∧ x ∈ succ y := by
  obtain ⟨y, hy, hx⟩ := List.mem_flatMap.mp h.1
  obtain ⟨m, hm, hdist⟩ := exists_distance hy
  have hle : ¬ m + 1 < n + 1 := fun hlt => h.2 _ hlt (mem_level_succ hdist.1 hx)
  obtain rfl : m = n := by omega
  exact ⟨y, hdist, hx⟩

theorem Distance.exists_of_le (h : Distance succ a n x) (hm : m ≤ n) :
    ∃ y, Distance succ a m y := by
  induction n generalizing x with
  | zero =>
    obtain rfl : m = 0 := by omega
    exact ⟨x, h⟩
  | succ n ih =>
    by_cases hlast : m = n + 1
    · subst hlast
      exact ⟨x, h⟩
    · obtain ⟨y, hy, -⟩ := h.exists_pred
      exact ih hy (by omega)

theorem IsPath.mem_level {b : α} {path : List α} (h : IsPath succ a b path) :
    b ∈ LevelOrder.level succ a (path.length - 1) := by
  induction path using List.reverseRecOn generalizing b with
  | nil => cases h.head
  | append_singleton path c ih =>
    have hlast := h.last
    rw [List.getLast?_concat] at hlast
    obtain rfl := Option.some.inj hlast
    rw [List.length_append, List.length_singleton, Nat.add_sub_cancel]
    rcases List.eq_nil_or_concat path with rfl | ⟨init, d, hpath⟩
    · have hhead := h.head
      rw [List.nil_append, List.head?_cons] at hhead
      rw [Option.some.inj hhead]
      exact List.mem_singleton_self a
    · rw [List.concat_eq_append] at hpath
      have hchain := h.chain
      rw [List.isChain_append] at hchain
      have hstep : c ∈ succ d := hchain.2.2 d (by rw [hpath]; simp) c rfl
      have hinit : IsPath succ a d path := by
        refine ⟨?_, by rw [hpath, List.getLast?_concat], hchain.1⟩
        have hhead := h.head
        rwa [List.head?_append_of_ne_nil _ (by rw [hpath]; simp)] at hhead
      have hlength : path.length = path.length - 1 + 1 := by
        rw [hpath]
        simp
      rw [hlength]
      exact mem_level_succ (ih hinit) hstep

theorem IsPath.snoc {b c : α} {path : List α} (h : IsPath succ a b path) (hc : c ∈ succ b) :
    IsPath succ a c (path ++ [c]) := by
  have hne : path ≠ [] := by
    rintro rfl
    cases h.head
  refine ⟨?_, List.getLast?_concat, ?_⟩
  · rw [List.head?_append_of_ne_nil _ hne]
    exact h.head
  · rw [List.isChain_append]
    refine ⟨h.chain, List.isChain_singleton c, ?_⟩
    intro y hy z hz
    rw [h.last] at hy
    obtain rfl := Option.some.inj hy
    rw [List.head?_cons] at hz
    obtain rfl := Option.some.inj hz
    exact hc

end Distance

section Search
variable {succ} {a target : α} {n : ℕ} {near far : List α} {s : State α}

/-- What holds whenever a node is taken from the queue: `near` holds nodes of distance `n`, `far`
those of the next distance, nearer nodes and these are marked, and a node that is gone from the
queue has its neighbours marked. -/
structure Inv (succ : α → List α) (a : α) (n : ℕ) (near far : List α) (s : State α) : Prop where
  queue_eq : s.queue = near ++ far
  isNear : ∀ x ∈ near, Distance succ a n x
  isFar : ∀ x ∈ far, Distance succ a (n + 1) x
  mem_visited : ∀ x, x ∈ s.visited ↔ (∃ m ≤ n, Distance succ a m x) ∨ x ∈ far
  closed : ∀ m ≤ n, ∀ x, Distance succ a m x → x ∉ near → ∀ y ∈ succ x, y ∈ s.visited
  note : ∀ x ∈ s.visited, (x = a ∧ s.cameFrom.lookup x = none) ∨
    ∃ y m, s.cameFrom.lookup x = some y ∧ x ∈ succ y ∧ m ≤ n ∧ Distance succ a m y ∧
      Distance succ a (m + 1) x

theorem inv_start (a : α) : Inv succ a 0 [a] [] (.start a) := by
  constructor
  case queue_eq => rfl
  case isNear =>
    intro x hx
    rw [List.mem_singleton.mp hx]
    exact distance_start a
  case isFar => exact nofun
  case mem_visited =>
    intro x
    change x ∈ ({a} : Finset α) ↔ _
    rw [Finset.mem_singleton]
    constructor
    · rintro rfl
      exact Or.inl ⟨0, le_rfl, distance_start x⟩
    · rintro (⟨m, hm, hx⟩ | hx)
      · obtain rfl : m = 0 := by omega
        exact List.mem_singleton.mp hx.1
      · cases hx
  case closed =>
    intro m hm x hx hnear
    obtain rfl : m = 0 := by omega
    exact absurd hx.1 hnear
  case note =>
    intro x hx
    exact Or.inl ⟨Finset.mem_singleton.mp hx, rfl⟩

/-- When the nodes of one distance are done, all those of the next are queued. -/
theorem Inv.advance (h : Inv succ a n [] far s) : Inv succ a (n + 1) far [] s := by
  have hvisited : ∀ x, Distance succ a (n + 1) x → x ∈ s.visited := by
    intro x hx
    obtain ⟨y, hy, hxy⟩ := hx.exists_pred
    exact h.closed n le_rfl y hy List.not_mem_nil x hxy
  constructor
  case queue_eq => rw [h.queue_eq, List.nil_append, List.append_nil]
  case isNear => exact h.isFar
  case isFar => exact nofun
  case mem_visited =>
    intro x
    constructor
    · intro hx
      rcases (h.mem_visited x).mp hx with ⟨m, hm, hdist⟩ | hfar
      · exact Or.inl ⟨m, by omega, hdist⟩
      · exact Or.inl ⟨n + 1, le_rfl, h.isFar x hfar⟩
    · rintro (⟨m, hm, hdist⟩ | hx)
      · by_cases hlast : m = n + 1
        · subst hlast
          exact hvisited x hdist
        · exact (h.mem_visited x).mpr (Or.inl ⟨m, by omega, hdist⟩)
      · cases hx
  case closed =>
    intro m hm x hx hnear
    by_cases hlast : m = n + 1
    · subst hlast
      rcases (h.mem_visited x).mp (hvisited x hx) with ⟨k, hk, hdist⟩ | hfar
      · have := hdist.eq hx
        omega
      · exact absurd hfar hnear
    · exact h.closed m (by omega) x hx List.not_mem_nil
  case note =>
    intro x hx
    rcases h.note x hx with hstart | ⟨y, m, hfrom, hxy, hm, hdist⟩
    · exact Or.inl hstart
    · exact Or.inr ⟨y, m, hfrom, hxy, by omega, hdist⟩

theorem Inv.visit {x : α} (h : Inv succ a n (x :: near) far s) :
    ∃ new, Inv succ a n near (far ++ new)
        ((succ x).foldl (State.visit x) { s with queue := near ++ far }) ∧
      ((succ x).foldl (State.visit x) { s with queue := near ++ far }).visited =
        s.visited ∪ new.toFinset ∧ new.Nodup ∧ (∀ y ∈ new, y ∈ succ x ∧ y ∉ s.visited) := by
  obtain ⟨new, hqueue, hnew, hvisited, hnodup, hfrom, hold⟩ :=
    State.foldl_visit x (succ x) { s with queue := near ++ far }
  refine ⟨new, ?_, hvisited, hnodup, fun y => (hnew y).mp⟩
  have hx : Distance succ a n x := h.isNear x List.mem_cons_self
  have hdist : ∀ y ∈ new, Distance succ a (n + 1) y := by
    intro y hy
    obtain ⟨hxy, hnv⟩ := (hnew y).mp hy
    refine ⟨mem_level_succ hx.1 hxy, ?_⟩
    intro m hm hlevel
    obtain ⟨k, hk, hdist⟩ := exists_distance hlevel
    exact hnv ((h.mem_visited y).mpr (Or.inl ⟨k, by omega, hdist⟩))
  constructor
  case queue_eq => rw [hqueue, List.append_assoc]
  case isNear => exact fun y hy => h.isNear y (List.mem_cons_of_mem x hy)
  case isFar =>
    intro y hy
    rcases List.mem_append.mp hy with hy | hy
    · exact h.isFar y hy
    · exact hdist y hy
  case mem_visited =>
    intro y
    rw [hvisited, Finset.mem_union, List.mem_toFinset, List.mem_append, ← or_assoc]
    exact or_congr_left (h.mem_visited y)
  case closed =>
    intro m hm y hy hnear z hz
    rw [hvisited, Finset.mem_union, List.mem_toFinset, hnew]
    by_cases hyx : y = x
    · subst hyx
      by_cases hzv : z ∈ s.visited
      · exact Or.inl hzv
      · exact Or.inr ⟨hz, hzv⟩
    · exact Or.inl (h.closed m hm y hy (by simp [hyx, hnear]) z hz)
  case note =>
    intro y hy
    by_cases hyn : y ∈ new
    · exact Or.inr ⟨x, n, hfrom y hyn, ((hnew y).mp hyn).1, le_rfl, hx, hdist y hyn⟩
    · rw [hvisited, Finset.mem_union, List.mem_toFinset] at hy
      rw [hold y hyn]
      exact h.note y (hy.resolve_right hyn)

theorem Inv.head {x : α} {queue : List α} (h : Inv succ a n near far s)
    (hqueue : s.queue = x :: queue) :
    ∃ n near far, Inv succ a n (x :: near) far s ∧ queue = near ++ far := by
  have heq := h.queue_eq.symm.trans hqueue
  cases near with
  | cons y near =>
    obtain ⟨rfl, rfl⟩ := List.cons.inj heq
    exact ⟨n, near, far, h, rfl⟩
  | nil =>
    cases far with
    | nil => cases heq
    | cons y far =>
      obtain ⟨rfl, rfl⟩ := List.cons.inj heq
      exact ⟨n + 1, far, [], h.advance, (List.append_nil far).symm⟩

theorem Inv.le_card {x : α} (h : Inv succ a n (x :: near) far s) :
    n ≤ s.cameFrom.keys.card := by
  have hnode : ∀ k, ∃ y, k < n → y ∈ s.cameFrom.keys ∧ Distance succ a (k + 1) y := by
    intro k
    by_cases hk : k < n
    · obtain ⟨y, hy⟩ := (h.isNear x List.mem_cons_self).exists_of_le hk
      refine ⟨y, fun _ => ⟨?_, hy⟩⟩
      have hvisited : y ∈ s.visited := (h.mem_visited y).mpr (Or.inl ⟨k + 1, hk, hy⟩)
      rcases h.note y hvisited with ⟨rfl, -⟩ | ⟨z, m, hz, -⟩
      · exact absurd (hy.eq (distance_start y)) (Nat.succ_ne_zero k)
      · exact Finmap.mem_keys.mpr (Finmap.mem_of_lookup_eq_some hz)
    · exact ⟨x, fun hlt => absurd hlt hk⟩
  choose f hf using hnode
  have hinj : Set.InjOn f (Finset.range n) := by
    intro i hi j hj hij
    have hdist := (hf i (Finset.mem_range.mp hi)).2
    rw [hij] at hdist
    exact Nat.succ_injective (hdist.eq (hf j (Finset.mem_range.mp hj)).2)
  have hcard := Finset.card_le_card_of_injOn f
    (fun i hi => (hf i (Finset.mem_range.mp hi)).1) hinj
  rwa [Finset.card_range] at hcard

theorem Inv.trace {m : ℕ} {x : α} (h : Inv succ a n near far s) (fuel : ℕ)
    (hx : Distance succ a m x) (hm : m ≤ n) (hfuel : m ≤ fuel) :
    IsPath succ a x (trace s.cameFrom fuel x).reverse ∧
      (ShortestPath.trace s.cameFrom fuel x).length = m + 1 := by
  induction m generalizing x fuel with
  | zero =>
    obtain rfl := List.mem_singleton.mp hx.1
    have hvisited : x ∈ s.visited := (h.mem_visited x).mpr (Or.inl ⟨0, hm, hx⟩)
    have hone : ShortestPath.trace s.cameFrom fuel x = [x] := by
      rcases h.note x hvisited with ⟨-, hnone⟩ | ⟨y, k, -, -, -, -, hk⟩
      · cases fuel with
        | zero => rfl
        | succ fuel => simp only [ShortestPath.trace, hnone]
      · exact absurd (hk.eq hx) (Nat.succ_ne_zero k)
    rw [hone]
    exact ⟨⟨rfl, rfl, List.isChain_singleton x⟩, rfl⟩
  | succ m ih =>
    have hvisited : x ∈ s.visited := (h.mem_visited x).mpr (Or.inl ⟨m + 1, hm, hx⟩)
    rcases h.note x hvisited with ⟨rfl, -⟩ | ⟨y, k, hy, hxy, -, hdist, hk⟩
    · exact absurd (hx.eq (distance_start x)) (Nat.succ_ne_zero m)
    · obtain rfl : k = m := Nat.succ_injective (hk.eq hx)
      obtain ⟨fuel, rfl⟩ : ∃ f, fuel = f + 1 := ⟨fuel - 1, by omega⟩
      obtain ⟨hpath, hlength⟩ := ih fuel hdist (by omega) (by omega)
      have hcons : ShortestPath.trace s.cameFrom (fuel + 1) x =
          x :: ShortestPath.trace s.cameFrom fuel y := by
        simp only [ShortestPath.trace, hy]
      rw [hcons, List.reverse_cons, List.length_cons, hlength]
      exact ⟨hpath.snoc hxy, rfl⟩

variable (succ) in
/-- A path that no other one is shorter than, or none where there is none. -/
def IsShortest (a b : α) : Option (List α) → Prop
  | some path => IsPath succ a b path ∧ ∀ other, IsPath succ a b other →
      path.length ≤ other.length
  | none => ∀ path, ¬ IsPath succ a b path

theorem Inv.isShortest_trace {x : α} (h : Inv succ a n (x :: near) far s) :
    IsShortest succ a x (some (ShortestPath.trace s.cameFrom s.cameFrom.keys.card x).reverse) := by
  have hx := h.isNear x List.mem_cons_self
  obtain ⟨hpath, hlength⟩ := h.trace _ hx le_rfl h.le_card
  refine ⟨hpath, ?_⟩
  intro other hother
  rw [List.length_reverse, hlength]
  have hle : ¬ other.length - 1 < n := fun hlt => hx.2 _ hlt hother.mem_level
  cases other with
  | nil => cases hother.head
  | cons y other =>
    rw [List.length_cons] at hle ⊢
    omega

theorem Inv.mem_visited_of_mem_level (h : Inv succ a n [] [] s) {k : ℕ} {x : α}
    (hx : x ∈ LevelOrder.level succ a k) : x ∈ s.visited := by
  induction k generalizing x with
  | zero =>
    obtain rfl := List.mem_singleton.mp hx
    exact (h.mem_visited x).mpr (Or.inl ⟨0, Nat.zero_le n, distance_start x⟩)
  | succ k ih =>
    obtain ⟨y, hy, hxy⟩ := List.mem_flatMap.mp hx
    rcases (h.mem_visited y).mp (ih hy) with ⟨m, hm, hdist⟩ | hfar
    · exact h.closed m hm y hdist List.not_mem_nil x hxy
    · cases hfar

/-- The search finds a shortest path, with fuel for the queue and all nodes that are not marked. -/
theorem Inv.isShortest_find (univ : Finset α) (huniv : ∀ x, ∀ y ∈ succ x, y ∈ univ) (fuel : ℕ)
    (h : Inv succ a n near far s) (hsub : s.visited ⊆ univ)
    (hfuel : s.queue.length + (univ.card - s.visited.card) < fuel)
    (htarget : target ∈ s.visited → target ∈ s.queue) :
    IsShortest succ a target (find succ target fuel s) := by
  induction fuel generalizing n near far s with
  | zero => exact absurd hfuel (Nat.not_lt_zero _)
  | succ fuel ih =>
    unfold find
    cases hqueue : s.queue with
    | nil =>
      intro path hpath
      obtain ⟨rfl, rfl⟩ := List.append_eq_nil_iff.mp (h.queue_eq.symm.trans hqueue)
      have hmem := htarget (h.mem_visited_of_mem_level hpath.mem_level)
      rw [hqueue] at hmem
      cases hmem
    | cons x queue =>
      obtain ⟨n, near, far, hx, rfl⟩ := h.head hqueue
      dsimp only
      by_cases hxt : x = target
      · subst hxt
        rw [if_pos rfl]
        exact hx.isShortest_trace
      · rw [if_neg hxt]
        obtain ⟨new, hnext, hvisited, hnodup, hnew⟩ := hx.visit
        have hcard : (s.visited ∪ new.toFinset).card = s.visited.card + new.length := by
          rw [Finset.card_union_of_disjoint, List.toFinset_card_of_nodup hnodup]
          rw [Finset.disjoint_right]
          intro y hy
          exact (hnew y (List.mem_toFinset.mp hy)).2
        have hsub' : s.visited ∪ new.toFinset ⊆ univ := by
          apply Finset.union_subset hsub
          intro y hy
          exact huniv x y (hnew y (List.mem_toFinset.mp hy)).1
        have hle := Finset.card_le_card hsub'
        apply ih hnext
        · rw [hvisited]
          exact hsub'
        · rw [hnext.queue_eq, hvisited, hcard]
          rw [hqueue] at hfuel
          simp only [List.length_cons, List.length_append] at hfuel ⊢
          omega
        · rw [hnext.queue_eq, hvisited, ← List.append_assoc, List.mem_append, Finset.mem_union,
            List.mem_toFinset]
          intro hmem
          rcases hmem with hmem | hmem
          · have hold := htarget hmem
            rw [hqueue] at hold
            exact Or.inl ((List.mem_cons.mp hold).resolve_left (Ne.symm hxt))
          · exact Or.inr hmem

theorem isShortest_find_start (univ : Finset α) (huniv : ∀ x, ∀ y ∈ succ x, y ∈ univ) (a b : α) :
    IsShortest succ a b (find succ b ((insert a univ).card + 1) (.start a)) := by
  apply (inv_start a).isShortest_find (insert a univ)
  · exact fun x y hy => Finset.mem_insert_of_mem (huniv x y hy)
  · exact Finset.singleton_subset_iff.mpr (Finset.mem_insert_self a univ)
  · have hpos : 0 < (insert a univ).card :=
      Finset.card_pos.mpr ⟨a, Finset.mem_insert_self a univ⟩
    change 1 + ((insert a univ).card - ({a} : Finset α).card) < _
    rw [Finset.card_singleton]
    omega
  · intro hb
    exact List.mem_singleton.mpr (Finset.mem_singleton.mp hb)

end Search

end ShortestPath
