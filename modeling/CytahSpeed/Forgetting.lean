import CytahSpeed.Flooding
import Mathlib.Algebra.BigOperators.Ring.Finset

/-!
# Flooding with forgetting

Nodes of a flooding that forget from time to time which keys they have met. Between two losses of
memory a node still makes one round a key, so its rounds are bounded by the times it forgot; and a
key spreads as before, only that a peer it has reached may have forgotten it again.
-/

namespace Flooding

variable {N M K : Type*} {key : M → K} {peers : N → Finset N} {nodes : Finset N} {known : Set K}
  {s s' : State N M K}

/-- A node that has seen a key has made a round for it, and a message of a round has made its peer
one, or it is on its way, or it is lost. -/
structure Spread (key : M → K) (peers : N → Finset N) (nodes : Finset N) (known : Set K)
    (s : State N M K) : Prop where
  inside : ∀ r ∈ s.rounds, r.1 ∈ nodes
  knows : ∀ n k, k ∈ known → k ∈ s.seen n
  recalled : ∀ n k, k ∈ s.seen n → k ∈ known ∨ ∃ r ∈ s.rounds, r.1 = n ∧ key r.2 = k
  spread : ∀ r ∈ s.rounds, ∀ p ∈ peers r.1,
    (∃ r' ∈ s.rounds, r'.1 = p ∧ key r'.2 = key r.2) ∨ (p, r.2) ∈ s.flight ∨ (p, r.2) ∈ s.lost
  unknown : ∀ r ∈ s.rounds, key r.2 ∉ known

theorem spread_start : Spread key peers nodes known (State.start known) where
  inside := by simp [State.start]
  knows := by simp [State.start]
  recalled := by
    intro n k hk
    exact Or.inl hk
  spread := by simp [State.start]
  unknown := by simp [State.start]

theorem Spread.of_flight (h : Spread key peers nodes known s) (hseen : s'.seen = s.seen)
    (hrounds : s'.rounds = s.rounds) (hlost : ∀ x ∈ s.lost, x ∈ s'.lost)
    (hflight : ∀ x ∈ s.flight, key x.2 ∈ s.seen x.1 ∨ x ∈ s'.flight ∨ x ∈ s'.lost) :
    Spread key peers nodes known s' where
  inside := by
    rw [hrounds]
    exact h.inside
  knows := by
    rw [hseen]
    exact h.knows
  recalled := by
    rw [hseen, hrounds]
    exact h.recalled
  spread := by
    rw [hrounds]
    intro r hr p hp
    rcases h.spread r hr p hp with hmade | hf | hl
    · exact Or.inl hmade
    · rcases hflight _ hf with hs | hf | hl
      · exact Or.inl ((h.recalled p _ hs).resolve_left (h.unknown r hr))
      · exact Or.inr (Or.inl hf)
      · exact Or.inr (Or.inr hl)
    · exact Or.inr (Or.inr (hlost _ hl))
  unknown := by
    rw [hrounds]
    exact h.unknown

theorem Spread.closed (h : Spread key peers nodes known s) {k : K}
    (hflight : ∀ x ∈ s.flight, key x.2 ≠ k) (hlost : ∀ x ∈ s.lost, key x.2 ≠ k) {n p : N}
    (hn : ∃ r ∈ s.rounds, r.1 = n ∧ key r.2 = k) (hp : p ∈ peers n) :
    ∃ r ∈ s.rounds, r.1 = p ∧ key r.2 = k := by
  obtain ⟨r, hr, rfl, rfl⟩ := hn
  rcases h.spread r hr p hp with hmade | hf | hl
  · exact hmade
  · exact absurd rfl (hflight (p, r.2) hf)
  · exact absurd rfl (hlost (p, r.2) hl)

variable [DecidableEq N]

/-- A node is left with what every node knows from the start. -/
def State.forget (s : State N M K) (known : Set K) (n : N) : State N M K :=
  { s with seen := Function.update s.seen n known }

theorem Spread.forget (h : Spread key peers nodes known s) (n : N) :
    Spread key peers nodes known (s.forget known n) where
  inside := h.inside
  knows := by
    intro n' k hk
    change k ∈ Function.update s.seen n known n'
    by_cases hn : n' = n
    · rwa [hn, Function.update_self]
    · rw [Function.update_of_ne hn]
      exact h.knows n' k hk
  recalled := by
    intro n' k hk
    change k ∈ Function.update s.seen n known n' at hk
    by_cases hn : n' = n
    · rw [hn, Function.update_self] at hk
      exact Or.inl hk
    · rw [Function.update_of_ne hn] at hk
      exact h.recalled n' k hk
  spread := h.spread
  unknown := h.unknown

theorem Spread.relay (h : Spread key peers nodes known s) {n : N} {m : M}
    {accepted refused : Multiset N} (hn : n ∈ nodes) (hnew : key m ∉ s.seen n)
    (hsends : accepted + refused = (peers n).val) {flight : Multiset (N × M)}
    (hflight : ∀ x ∈ s.flight, x = (n, m) ∨ x ∈ flight) :
    Spread key peers nodes known ({ s with flight }.relay key n m accepted refused) where
  inside := by
    intro r hr
    rcases List.mem_cons.mp hr with rfl | hr
    · exact hn
    · exact h.inside r hr
  knows := by
    intro n' k hk
    change k ∈ Function.update s.seen n (insert (key m) (s.seen n)) n'
    by_cases hn' : n' = n
    · rw [hn', Function.update_self]
      exact Set.mem_insert_of_mem _ (h.knows n k hk)
    · rw [Function.update_of_ne hn']
      exact h.knows n' k hk
  recalled := by
    intro n' k hk
    change k ∈ Function.update s.seen n (insert (key m) (s.seen n)) n' at hk
    change k ∈ known ∨ ∃ r ∈ (n, m) :: s.rounds, r.1 = n' ∧ key r.2 = k
    rw [List.exists_mem_cons_iff]
    by_cases hn' : n' = n
    · rw [hn', Function.update_self] at hk
      rcases Set.mem_insert_iff.mp hk with rfl | hk
      · exact Or.inr (Or.inl ⟨hn'.symm, rfl⟩)
      · rw [hn']
        exact (h.recalled n k hk).imp_right Or.inr
    · rw [Function.update_of_ne hn'] at hk
      exact (h.recalled n' k hk).imp_right Or.inr
  spread := by
    intro r hr p hp
    change (∃ r' ∈ (n, m) :: s.rounds, r'.1 = p ∧ key r'.2 = key r.2) ∨ _
    rw [List.exists_mem_cons_iff]
    rcases List.mem_cons.mp hr with rfl | hr
    · -- the sends of this round
      have hmem : p ∈ accepted + refused := by rwa [hsends]
      rcases Multiset.mem_add.mp hmem with ha | hr
      · exact Or.inr (Or.inl (Multiset.mem_add.mpr (Or.inr (Multiset.mem_map_of_mem _ ha))))
      · exact Or.inr (Or.inr (Multiset.mem_add.mpr (Or.inr (Multiset.mem_map_of_mem _ hr))))
    · rcases h.spread r hr p hp with hmade | hf | hl
      · exact Or.inl (Or.inr hmade)
      · rcases hflight _ hf with heq | hf
        · -- the message that was taken from the flight is the one of this round
          obtain ⟨rfl, hrm⟩ := Prod.mk.inj heq
          exact Or.inl (Or.inl ⟨rfl, by rw [hrm]⟩)
        · exact Or.inr (Or.inl (Multiset.mem_add.mpr (Or.inl hf)))
      · exact Or.inr (Or.inr (Multiset.mem_add.mpr (Or.inl hl)))
  unknown := by
    intro r hr
    rcases List.mem_cons.mp hr with rfl | hr
    · exact fun hk => hnew (h.knows n _ hk)
    · exact h.unknown r hr

def forgotten (forgets : List (Option N)) (n : N) : ℕ := forgets.count (some n)

section Rounds
variable [DecidableEq K]

variable (key) in
def State.made (s : State N M K) (n : N) (k : K) : ℕ :=
  (s.rounds.filter fun r => r.1 = n ∧ key r.2 = k).length

theorem made_of_rounds (h : s'.rounds = s.rounds) (n : N) (k : K) :
    s'.made key n k = s.made key n k := by
  rw [State.made, State.made, h]

theorem made_relay (s : State N M K) (n : N) (m : M) (accepted refused : Multiset N) (n' : N)
    (k : K) :
    (s.relay key n m accepted refused).made key n' k =
      s.made key n' k + if n = n' ∧ key m = k then 1 else 0 := by
  simp only [State.made, State.relay, List.filter_cons, decide_eq_true_eq]
  split_ifs <;> rfl

theorem sends_eq (rounds : List (N × M)) (hinside : ∀ r ∈ rounds, r.1 ∈ nodes) (k : K) :
    ((rounds.filter fun r => key r.2 = k).map fun r => (peers r.1).card).sum =
      ∑ n ∈ nodes, (rounds.filter fun r => r.1 = n ∧ key r.2 = k).length * (peers n).card := by
  induction rounds with
  | nil => simp
  | cons r rounds ih =>
    have hrest := ih fun r' hr' => hinside r' (List.mem_cons_of_mem r hr')
    by_cases hk : key r.2 = k
    · have hsplit : ∀ n, ((r :: rounds).filter fun r => r.1 = n ∧ key r.2 = k).length =
          (if r.1 = n then 1 else 0) +
            (rounds.filter fun r => r.1 = n ∧ key r.2 = k).length := by
        intro n
        by_cases hn : r.1 = n
        · rw [List.filter_cons_of_pos (by simp [hn, hk]), if_pos hn, List.length_cons]
          omega
        · rw [List.filter_cons_of_neg (by simp [hn]), if_neg hn]
          omega
      rw [List.filter_cons_of_pos (by simp [hk]), List.map_cons, List.sum_cons, hrest]
      simp only [hsplit, add_mul, Finset.sum_add_distrib, ite_mul, one_mul, zero_mul]
      rw [Finset.sum_ite_eq, if_pos (hinside r List.mem_cons_self)]
    · rw [List.filter_cons_of_neg (by simp [hk]), hrest]
      apply Finset.sum_congr rfl
      intro n _
      rw [List.filter_cons_of_neg (by simp [hk])]

section Room
variable {n : N} {k : K} {bound : ℕ}

/-- The rounds of a node for a key, with room for one more as long as the node has not seen it. -/
structure Room (key : M → K) (n : N) (k : K) (bound : ℕ) (s : State N M K) : Prop where
  unseen : k ∉ s.seen n → s.made key n k ≤ bound
  made : s.made key n k ≤ bound + 1

theorem room_self (s : State N M K) : Room key n k (s.made key n k) s :=
  ⟨fun _ => le_rfl, by omega⟩

theorem Room.forget_self (h : Room key n k bound s) :
    Room key n k (bound + 1) (s.forget known n) where
  unseen _ := h.made
  made := by
    have hmade := h.made
    change s.made key n k ≤ bound + 1 + 1
    omega

theorem Room.forget_other (h : Room key n k bound s) {n' : N} (hn : n' ≠ n) :
    Room key n k bound (s.forget known n') where
  unseen := by
    intro hk
    change k ∉ Function.update s.seen n' known n at hk
    rw [Function.update_of_ne hn.symm] at hk
    exact h.unseen hk
  made := h.made

end Room

end Rounds

variable [DecidableEq M]

/-- What a step does: it makes no round, and what leaves the flight is seen or lost; or it is a
round for a key that the node has not seen. -/
theorem Step.cases (h : Step key peers nodes s s') :
    (s'.seen = s.seen ∧ s'.rounds = s.rounds ∧ (∀ x ∈ s.lost, x ∈ s'.lost) ∧
      ∀ x ∈ s.flight, key x.2 ∈ s.seen x.1 ∨ x ∈ s'.flight ∨ x ∈ s'.lost) ∨
    ∃ n m accepted refused flight, n ∈ nodes ∧ key m ∉ s.seen n ∧
      accepted + refused = (peers n).val ∧ (∀ x ∈ s.flight, x = (n, m) ∨ x ∈ flight) ∧
        s' = { s with flight }.relay key n m accepted refused := by
  cases h with
  | idle => exact Or.inl ⟨rfl, rfl, fun _ hx => hx, fun _ hx => Or.inr (Or.inl hx)⟩
  | originate n m accepted refused hn hseen hsends =>
    exact Or.inr ⟨n, m, accepted, refused, s.flight, hn, hseen, hsends,
      fun _ hx => Or.inr hx, rfl⟩
  | forward n m accepted refused hn _ hseen hsends =>
    exact Or.inr ⟨n, m, accepted, refused, _, hn, hseen, hsends,
      fun _ hx => mem_take_or n m hx, rfl⟩
  | discard n m hseen =>
    refine Or.inl ⟨rfl, rfl, fun _ hx => hx, ?_⟩
    intro x hx
    rcases mem_take_or n m hx with rfl | hx
    · exact Or.inl hseen
    · exact Or.inr (Or.inl hx)
  | duplicate n m _ =>
    exact Or.inl ⟨rfl, rfl, fun _ hx => hx,
      fun _ hx => Or.inr (Or.inl (Multiset.mem_cons_of_mem hx))⟩
  | lose n m =>
    refine Or.inl ⟨rfl, rfl, fun _ hx => Multiset.mem_cons_of_mem hx, ?_⟩
    intro x hx
    rcases mem_take_or n m hx with rfl | hx
    · exact Or.inr (Or.inr (Multiset.mem_cons_self _ _))
    · exact Or.inr (Or.inl hx)

variable (key peers nodes) in
inductive Run (known : Set K) : State N M K → List (Option N) → State N M K → Prop
  | nil (s : State N M K) : Run known s [] s
  | flood {s t u : State N M K} {forgets : List (Option N)} (hstep : Step key peers nodes s t)
      (hrun : Run known t forgets u) : Run known s (none :: forgets) u
  | forget {s u : State N M K} {forgets : List (Option N)} (n : N)
      (hrun : Run known (s.forget known n) forgets u) : Run known s (some n :: forgets) u

theorem Spread.step (h : Spread key peers nodes known s) (hstep : Step key peers nodes s s') :
    Spread key peers nodes known s' := by
  obtain ⟨hseen, hrounds, hlost, hflight⟩ |
    ⟨n, m, accepted, refused, flight, hn, hnew, hsends, hflight, rfl⟩ := hstep.cases
  · exact h.of_flight hseen hrounds hlost hflight
  · exact h.relay hn hnew hsends hflight

theorem Run.spread {forgets : List (Option N)} (h : Run key peers nodes known s forgets s')
    (hs : Spread key peers nodes known s) : Spread key peers nodes known s' := by
  induction h with
  | nil s => exact hs
  | flood hstep _ ih => exact ih (hs.step hstep)
  | forget n _ ih => exact ih (hs.forget n)

section Counts
variable [DecidableEq K] {n : N} {k : K} {bound : ℕ}

theorem Room.step (h : Room key n k bound s) (hstep : Step key peers nodes s s') :
    Room key n k bound s' := by
  obtain ⟨hseen, hrounds, -, -⟩ | ⟨n', m, accepted, refused, flight, -, hnew, -, -, rfl⟩ :=
    hstep.cases
  · constructor
    · rw [hseen, made_of_rounds hrounds]
      exact h.unseen
    · rw [made_of_rounds hrounds]
      exact h.made
  · have hold : State.made key { s with flight } n k = s.made key n k := made_of_rounds rfl n k
    constructor
    · intro hk
      change k ∉ Function.update s.seen n' (insert (key m) (s.seen n')) n at hk
      rw [made_relay, hold]
      by_cases hn : n = n'
      · subst hn
        rw [Function.update_self, Set.mem_insert_iff, not_or] at hk
        rw [if_neg fun heq => hk.1 heq.2.symm]
        exact h.unseen hk.2
      · rw [Function.update_of_ne hn] at hk
        rw [if_neg fun heq => hn heq.1.symm]
        exact h.unseen hk
    · rw [made_relay, hold]
      split_ifs with heq
      · -- the key was unseen, so there was room
        obtain ⟨rfl, rfl⟩ := heq
        have hroom := h.unseen hnew
        omega
      · have hmade := h.made
        omega

theorem Run.room {forgets : List (Option N)} (h : Run key peers nodes known s forgets s')
    (hroom : Room key n k bound s) : Room key n k (bound + forgotten forgets n) s' := by
  induction h generalizing bound with
  | nil s => exact hroom
  | flood hstep _ ih =>
    rw [forgotten, List.count_cons_of_ne (by simp)]
    exact ih (hroom.step hstep)
  | forget n' _ ih =>
    by_cases hn : n' = n
    · subst hn
      have hrest := ih hroom.forget_self
      rw [forgotten, List.count_cons_self]
      rw [Nat.add_assoc, Nat.add_comm 1] at hrest
      exact hrest
    · rw [forgotten, List.count_cons_of_ne (by simpa using hn)]
      exact ih (hroom.forget_other hn)

/-- In any stretch of a run a node makes one round a key, and one more each time it forgets. -/
theorem Run.made_le {forgets : List (Option N)} (h : Run key peers nodes known s forgets s')
    (n : N) (k : K) : s'.made key n k ≤ s.made key n k + forgotten forgets n + 1 :=
  (h.room (room_self s)).made

theorem Run.sends_le {forgets : List (Option N)} (h : Run key peers nodes known s forgets s')
    (hs : Spread key peers nodes known s) (k : K) :
    ((s'.rounds.filter fun r => key r.2 = k).map fun r => (peers r.1).card).sum ≤
      ((s.rounds.filter fun r => key r.2 = k).map fun r => (peers r.1).card).sum +
        ∑ n ∈ nodes, (forgotten forgets n + 1) * (peers n).card := by
  rw [sends_eq _ hs.inside, sends_eq _ (h.spread hs).inside, ← Finset.sum_add_distrib]
  apply Finset.sum_le_sum
  intro n _
  rw [← Nat.add_mul]
  apply Nat.mul_le_mul_right
  have hmade := h.made_le n k
  simp only [State.made] at hmade
  omega

end Counts

end Flooding
