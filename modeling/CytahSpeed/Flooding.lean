import Mathlib.Algebra.BigOperators.Group.Finset.Basic
import Mathlib.Algebra.GroupWithZero.Nat
import Mathlib.Algebra.Order.BigOperators.Group.Finset
import Mathlib.Data.Multiset.AddSub
import Mathlib.Logic.Relation

/-!
# Flooding

Nodes that forward a message to all their peers the first time they meet its key, over a network
that may delay, reorder, duplicate and lose what is in flight. A node has one round a key, and
where nothing with a key is in flight or lost, the nodes that know the key are closed under the
peer relation.
-/

namespace Flooding

variable {N M K : Type*}

/-- What each node has seen, the messages in flight to a node, the rounds made so far, and the
messages that were refused by the channel or lost on the way. -/
structure State (N M K : Type*) where
  seen : N → Set K
  flight : Multiset (N × M)
  rounds : List (N × M)
  lost : Multiset (N × M)

def State.start (known : Set K) : State N M K := ⟨fun _ => known, 0, [], 0⟩

variable (key : M → K) (peers : N → Finset N) (nodes : Finset N)

/-- A node and a key occur in one round at most, and in one exactly if the node has seen the key;
a message of a round has reached the peer, is on its way to it, or is lost. -/
structure Inv (known : Set K) (s : State N M K) : Prop where
  once : (s.rounds.map fun r => (r.1, key r.2)).Nodup
  inside : ∀ r ∈ s.rounds, r.1 ∈ nodes
  seen_iff : ∀ n k, k ∈ s.seen n ↔ k ∈ known ∨ ∃ r ∈ s.rounds, r.1 = n ∧ key r.2 = k
  spread : ∀ r ∈ s.rounds, ∀ p ∈ peers r.1,
    key r.2 ∈ s.seen p ∨ (p, r.2) ∈ s.flight ∨ (p, r.2) ∈ s.lost

variable {key peers nodes} {known : Set K} {s s' : State N M K}

theorem inv_start : Inv key peers nodes known (State.start known) where
  once := List.nodup_nil
  inside := by simp [State.start]
  seen_iff := by simp [State.start]
  spread := by simp [State.start]

theorem Inv.of_flight (h : Inv key peers nodes known s) (hseen : s'.seen = s.seen)
    (hrounds : s'.rounds = s.rounds) (hlost : ∀ x ∈ s.lost, x ∈ s'.lost)
    (hflight : ∀ x ∈ s.flight, key x.2 ∈ s.seen x.1 ∨ x ∈ s'.flight ∨ x ∈ s'.lost) :
    Inv key peers nodes known s' where
  once := by
    rw [hrounds]
    exact h.once
  inside := by
    rw [hrounds]
    exact h.inside
  seen_iff := by
    rw [hrounds, hseen]
    exact h.seen_iff
  spread := by
    rw [hrounds, hseen]
    intro r hr p hp
    rcases h.spread r hr p hp with hs | hf | hl
    · exact Or.inl hs
    · exact hflight _ hf
    · exact Or.inr (Or.inr (hlost _ hl))

theorem Inv.closed (h : Inv key peers nodes known s) {k : K} (hflight : ∀ x ∈ s.flight, key x.2 ≠ k)
    (hlost : ∀ x ∈ s.lost, key x.2 ≠ k) (hk : k ∉ known) {n p : N} (hn : k ∈ s.seen n)
    (hp : p ∈ peers n) : k ∈ s.seen p := by
  rcases (h.seen_iff n k).mp hn with hknown | ⟨r, hr, rfl, rfl⟩
  · exact absurd hknown hk
  · rcases h.spread r hr p hp with hs | hf | hl
    · exact hs
    · exact absurd rfl (hflight (p, r.2) hf)
    · exact absurd rfl (hlost (p, r.2) hl)

section Counts
variable [DecidableEq N] [DecidableEq K]

theorem Inv.rounds_le_one (h : Inv key peers nodes known s) (n : N) (k : K) :
    (s.rounds.filter fun r => r.1 = n ∧ key r.2 = k).length ≤ 1 := by
  have hcount := List.nodup_iff_count_le_one.mp h.once (n, k)
  rw [List.count, List.countP_map, List.countP_eq_length_filter] at hcount
  convert hcount using 3
  funext r
  rw [Bool.eq_iff_iff]
  simp

theorem Inv.sends_le (h : Inv key peers nodes known s) (k : K) :
    ((s.rounds.filter fun r => key r.2 = k).map fun r => (peers r.1).card).sum ≤
      ∑ n ∈ nodes, (peers n).card := by
  let senders := (s.rounds.filter fun r => key r.2 = k).map Prod.fst
  have hnodup : senders.Nodup := by
    rw [List.Nodup, List.pairwise_map, List.pairwise_filter]
    have honce := h.once
    rw [List.Nodup, List.pairwise_map] at honce
    apply honce.imp
    intro r r' hne hr hr' heq
    simp only [decide_eq_true_eq] at hr hr'
    exact hne (Prod.ext heq (hr.trans hr'.symm))
  have hsub : senders.toFinset ⊆ nodes := by
    intro n hn
    obtain ⟨r, hr, rfl⟩ := List.mem_map.mp (List.mem_toFinset.mp hn)
    exact h.inside r (List.mem_filter.mp hr).1
  calc ((s.rounds.filter fun r => key r.2 = k).map fun r => (peers r.1).card).sum
      = (senders.map fun n => (peers n).card).sum := by rw [List.map_map]; rfl
    _ = ∑ n ∈ senders.toFinset, (peers n).card := (List.sum_toFinset _ hnodup).symm
    _ ≤ ∑ n ∈ nodes, (peers n).card := Finset.sum_le_sum_of_subset hsub

end Counts

section Round
variable [DecidableEq N]

variable (key) in
/-- The round of a node: it marks the key and sends to its peers, some of whom are refused. -/
def State.relay (s : State N M K) (n : N) (m : M) (accepted refused : Multiset N) :
    State N M K where
  seen := Function.update s.seen n (insert (key m) (s.seen n))
  flight := s.flight + accepted.map (·, m)
  rounds := (n, m) :: s.rounds
  lost := s.lost + refused.map (·, m)

/-- A round by a node that has not seen the key. What has left the flight for this round is the
message itself. -/
theorem Inv.relay (h : Inv key peers nodes known s) {n : N} {m : M} {accepted refused : Multiset N}
    (hn : n ∈ nodes) (hnew : key m ∉ s.seen n) (hsends : accepted + refused = (peers n).val)
    {flight : Multiset (N × M)} (hflight : ∀ x ∈ s.flight, x = (n, m) ∨ x ∈ flight) :
    Inv key peers nodes known ({ s with flight }.relay key n m accepted refused) where
  once := by
    refine List.nodup_cons.mpr ⟨?_, h.once⟩
    intro hmem
    obtain ⟨r, hr, heq⟩ := List.mem_map.mp hmem
    obtain ⟨hrn, hrk⟩ := Prod.mk.inj heq
    exact hnew ((h.seen_iff n (key m)).mpr (Or.inr ⟨r, hr, hrn, hrk⟩))
  inside := by
    intro r hr
    rcases List.mem_cons.mp hr with rfl | hr
    · exact hn
    · exact h.inside r hr
  seen_iff := by
    intro n' k
    have hold := h.seen_iff n' k
    change k ∈ Function.update s.seen n (insert (key m) (s.seen n)) n' ↔
      k ∈ known ∨ ∃ r ∈ (n, m) :: s.rounds, r.1 = n' ∧ key r.2 = k
    rw [List.exists_mem_cons_iff]
    by_cases hn' : n' = n
    · subst hn'
      rw [Function.update_self, Set.mem_insert_iff, hold, @eq_comm K k]
      simp only [true_and]
      exact or_left_comm
    · rw [Function.update_of_ne hn', hold]
      simp [Ne.symm hn']
  spread := by
    have hmono : ∀ p k, k ∈ s.seen p →
        k ∈ Function.update s.seen n (insert (key m) (s.seen n)) p := by
      intro p k hk
      by_cases hp : p = n
      · rw [hp, Function.update_self]
        exact Set.mem_insert_of_mem _ (hp ▸ hk)
      · rwa [Function.update_of_ne hp]
    intro r hr p hp
    rcases List.mem_cons.mp hr with rfl | hr
    · -- the sends of this round
      have hmem : p ∈ accepted + refused := by rwa [hsends]
      rcases Multiset.mem_add.mp hmem with ha | hr
      · exact Or.inr (Or.inl (Multiset.mem_add.mpr (Or.inr (Multiset.mem_map_of_mem _ ha))))
      · exact Or.inr (Or.inr (Multiset.mem_add.mpr (Or.inr (Multiset.mem_map_of_mem _ hr))))
    · rcases h.spread r hr p hp with hs | hf | hl
      · exact Or.inl (hmono p _ hs)
      · rcases hflight _ hf with heq | hf
        · obtain ⟨rfl, hrm⟩ := Prod.mk.inj heq
          left
          change key r.2 ∈ Function.update s.seen p _ p
          rw [Function.update_self, hrm]
          exact Set.mem_insert _ _
        · exact Or.inr (Or.inl (Multiset.mem_add.mpr (Or.inl hf)))
      · exact Or.inr (Or.inr (Multiset.mem_add.mpr (Or.inl hl)))

end Round

variable [DecidableEq N] [DecidableEq M]

def State.take (s : State N M K) (n : N) (m : M) : State N M K :=
  { s with flight := s.flight.erase (n, m) }

variable (key peers nodes) in
inductive Step (s : State N M K) : State N M K → Prop
  | idle : Step s s
  | originate (n : N) (m : M) (accepted refused : Multiset N) (hn : n ∈ nodes)
      (hseen : key m ∉ s.seen n) (hsends : accepted + refused = (peers n).val) :
      Step s (s.relay key n m accepted refused)
  | forward (n : N) (m : M) (accepted refused : Multiset N) (hn : n ∈ nodes)
      (hflight : (n, m) ∈ s.flight) (hseen : key m ∉ s.seen n)
      (hsends : accepted + refused = (peers n).val) :
      Step s ((s.take n m).relay key n m accepted refused)
  | discard (n : N) (m : M) (hseen : key m ∈ s.seen n) : Step s (s.take n m)
  | duplicate (n : N) (m : M) (hflight : (n, m) ∈ s.flight) :
      Step s { s with flight := (n, m) ::ₘ s.flight }
  | lose (n : N) (m : M) : Step s { s.take n m with lost := (n, m) ::ₘ s.lost }

theorem mem_take_or (n : N) (m : M) {x : N × M} (hx : x ∈ s.flight) :
    x = (n, m) ∨ x ∈ (s.take n m).flight := by
  by_cases hxm : x = (n, m)
  · exact Or.inl hxm
  · exact Or.inr ((Multiset.mem_erase_of_ne hxm).mpr hx)

theorem Inv.step (h : Inv key peers nodes known s) (hstep : Step key peers nodes s s') :
    Inv key peers nodes known s' := by
  cases hstep with
  | idle => exact h
  | originate n m accepted refused hn hseen hsends =>
    exact h.relay hn hseen hsends (fun _ hx => Or.inr hx)
  | forward n m accepted refused hn _ hseen hsends =>
    exact h.relay hn hseen hsends (fun _ hx => mem_take_or n m hx)
  | discard n m hseen =>
    refine h.of_flight rfl rfl (fun _ hx => hx) ?_
    intro x hx
    rcases mem_take_or n m hx with rfl | hx
    · exact Or.inl hseen
    · exact Or.inr (Or.inl hx)
  | duplicate n m _ =>
    exact h.of_flight rfl rfl (fun _ hx => hx)
      (fun _ hx => Or.inr (Or.inl (Multiset.mem_cons_of_mem hx)))
  | lose n m =>
    refine h.of_flight rfl rfl (fun _ hx => Multiset.mem_cons_of_mem hx) ?_
    intro x hx
    rcases mem_take_or n m hx with rfl | hx
    · exact Or.inr (Or.inr (Multiset.mem_cons_self _ _))
    · exact Or.inr (Or.inl hx)

variable (key peers nodes) in
def Reachable (known : Set K) (s : State N M K) : Prop :=
  Relation.ReflTransGen (Step key peers nodes) (State.start known) s

theorem Reachable.inv (h : Reachable key peers nodes known s) :
    Inv key peers nodes known s := by
  induction h with
  | refl => exact inv_start
  | tail _ hstep ih => exact ih.step hstep

end Flooding
