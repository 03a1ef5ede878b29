import CytahSpeed.KahnOrder

/-!
# Which node comes first in Kahn's order

Kahn's order with a first-in first-out queue is fixed by the child lists. `Earlier` says how,
without running the loop: the starting nodes come first; of two other nodes the one whose latest
parent is earlier comes first, and two nodes with the same latest parent come in the order of its
child list. Two graphs that differ in their child lists have the same order exactly if the lists
place the nodes with the same latest parent alike (`fifo_eq_iff`).
-/

namespace KahnOrder

variable {α : Type*} [DecidableEq α]

/-- The order of two nodes in a list that may repeat them: their last entries decide. -/
def EntersBefore (l : List α) (a b : α) : Prop := l.dedup.idxOf a < l.dedup.idxOf b

instance (l : List α) (a b : α) : Decidable (EntersBefore l a b) := by
  unfold EntersBefore
  infer_instance

inductive Earlier (roots : List α) (parents children : α → List α) : α → α → Prop
  | start {a b : α} (ha : a ∈ roots) (hb : parents b ≠ []) : Earlier roots parents children a b
  | roots {a b : α} (ha : a ∈ roots) (hb : b ∈ roots) (hlt : roots.idxOf a < roots.idxOf b) :
      Earlier roots parents children a b
  | parents {p q a b : α} (hp : p ∈ parents a)
      (hlast : ∀ r ∈ parents a, r ≠ p → Earlier roots parents children r p) (hq : q ∈ parents b)
      (hlast' : ∀ r ∈ parents b, r ≠ q → Earlier roots parents children r q)
      (hpq : Earlier roots parents children p q) : Earlier roots parents children a b
  | siblings {p a b : α} (hp : p ∈ parents a)
      (hlast : ∀ r ∈ parents a, r ≠ p → Earlier roots parents children r p) (hq : p ∈ parents b)
      (hlast' : ∀ r ∈ parents b, r ≠ p → Earlier roots parents children r p)
      (hlt : EntersBefore (children p) a b) : Earlier roots parents children a b

/-- The parent of a node behind which its other parents come. -/
def Latest (roots : List α) (parents children : α → List α) (p a : α) : Prop :=
  p ∈ parents a ∧ ∀ r ∈ parents a, r ≠ p → Earlier roots parents children r p

/-- The child lists place any two nodes with the same latest parent alike. -/
def Aligned (roots : List α) (parents children children' : α → List α) : Prop :=
  ∀ p a b, Latest roots parents children p a → Latest roots parents children p b →
    (EntersBefore (children p) a b ↔ EntersBefore (children' p) a b)

section Earlier
variable {roots : List α} {parents children children' : α → List α} {a b p q : α}

theorem Latest.earlier (hp : Latest roots parents children p a)
    (hq : Latest roots parents children q b) (h : Earlier roots parents children p q) :
    Earlier roots parents children a b := .parents hp.1 hp.2 hq.1 hq.2 h

theorem Latest.earlier_of_entersBefore (hp : Latest roots parents children p a)
    (hq : Latest roots parents children p b) (h : EntersBefore (children p) a b) :
    Earlier roots parents children a b := .siblings hp.1 hp.2 hq.1 hq.2 h

theorem earlier_iff : Earlier roots parents children a b ↔
    (a ∈ roots ∧ parents b ≠ []) ∨ (a ∈ roots ∧ b ∈ roots ∧ roots.idxOf a < roots.idxOf b) ∨
      ∃ p q, Latest roots parents children p a ∧ Latest roots parents children q b ∧
        (Earlier roots parents children p q ∨ p = q ∧ EntersBefore (children p) a b) := by
  constructor
  · intro h
    cases h with
    | start ha hb => exact Or.inl ⟨ha, hb⟩
    | roots ha hb hlt => exact Or.inr (Or.inl ⟨ha, hb, hlt⟩)
    | parents hp hlast hq hlast' hpq =>
      exact Or.inr (Or.inr ⟨_, _, ⟨hp, hlast⟩, ⟨hq, hlast'⟩, Or.inl hpq⟩)
    | siblings hp hlast hq hlast' hlt =>
      exact Or.inr (Or.inr ⟨_, _, ⟨hp, hlast⟩, ⟨hq, hlast'⟩, Or.inr ⟨rfl, hlt⟩⟩)
  · rintro (⟨ha, hb⟩ | ⟨ha, hb, hlt⟩ | ⟨p, q, hp, hq, hpq | ⟨rfl, hlt⟩⟩)
    · exact .start ha hb
    · exact .roots ha hb hlt
    · exact hp.earlier hq hpq
    · exact hp.earlier_of_entersBefore hq hlt

section Rank
variable {rank : α → ℕ} (hrank : ∀ k, ∀ p ∈ parents k, rank p < rank k)
  (hroots : ∀ r ∈ roots, parents r = [])
include hrank hroots

/-- By induction on a bound of the two ranks: below it a node has one latest parent. -/
theorem Earlier.asymm (h : Earlier roots parents children a b) :
    ¬ Earlier roots parents children b a := by
  obtain ⟨n, ha, hb⟩ : ∃ n, rank a < n ∧ rank b < n :=
    ⟨max (rank a) (rank b) + 1, by omega, by omega⟩
  induction n generalizing a b with
  | zero => omega
  | succ n ih =>
    have hone : ∀ {p p' k}, rank k < n + 1 → Latest roots parents children p k →
        Latest roots parents children p' k → p = p' := by
      intro p p' k hk hp hp'
      by_contra hne
      have hlt := hrank k p hp.1
      have hlt' := hrank k p' hp'.1
      exact ih (hp'.2 p hp.1 hne) (by omega) (by omega) (hp.2 p' hp'.1 (Ne.symm hne))
    have hnot : ∀ {k l : α}, k ∈ roots → ¬ Latest roots parents children l k := by
      intro k l hk hl
      have hmem := hl.1
      rw [hroots k hk] at hmem
      cases hmem
    intro h'
    rcases earlier_iff.mp h with ⟨ha', hne⟩ | ⟨ha', hb', hlt⟩ | ⟨p, q, hp, hq, hpq⟩
    · rcases earlier_iff.mp h' with ⟨hb', -⟩ | ⟨hb', -, -⟩ | ⟨_, _, -, hp, -⟩
      · exact hne (hroots b hb')
      · exact hne (hroots b hb')
      · exact hnot ha' hp
    · rcases earlier_iff.mp h' with ⟨-, hne⟩ | ⟨-, -, hlt'⟩ | ⟨_, _, -, hp, -⟩
      · exact hne (hroots a ha')
      · omega
      · exact hnot ha' hp
    · rcases earlier_iff.mp h' with ⟨hb', -⟩ | ⟨hb', -, -⟩ | ⟨q', p', hq', hp', hqp⟩
      · exact hnot hb' hq
      · exact hnot hb' hq
      · obtain rfl := hone ha hp hp'
        obtain rfl := hone hb hq hq'
        have hlt := hrank a p hp.1
        have hlt' := hrank b q hq.1
        rcases hpq with hpq | ⟨rfl, hab⟩
        · rcases hqp with hqp | ⟨rfl, -⟩
          · exact ih hpq (by omega) (by omega) hqp
          · exact ih hpq (by omega) (by omega) hpq
        · rcases hqp with hqp | ⟨-, hba⟩
          · exact ih hqp (by omega) (by omega) hqp
          · exact absurd hba (Nat.lt_asymm hab)

end Rank

theorem Earlier.congr (hal : Aligned roots parents children children')
    (h : Earlier roots parents children a b) : Earlier roots parents children' a b := by
  induction h with
  | start ha hb => exact .start ha hb
  | roots ha hb hlt => exact .roots ha hb hlt
  | parents hp _ hq _ _ ihlast ihlast' ih => exact .parents hp ihlast hq ihlast' ih
  | siblings hp hlast hq hlast' hlt ihlast ihlast' =>
    exact .siblings hp ihlast hq ihlast' ((hal _ _ _ ⟨hp, hlast⟩ ⟨hq, hlast'⟩).mp hlt)

end Earlier

theorem exists_last {R : α → α → Prop} {seen l : List α} (hseen : seen.Pairwise R)
    (hl : ∀ r ∈ l, r ∈ seen) (hne : l ≠ []) : ∃ p ∈ l, ∀ r ∈ l, r ≠ p → R r p := by
  induction seen using List.reverseRecOn with
  | nil =>
    obtain ⟨r, l, rfl⟩ := List.exists_cons_of_ne_nil hne
    exact absurd (hl r List.mem_cons_self) List.not_mem_nil
  | append_singleton seen x ih =>
    obtain ⟨hseen, -, hx⟩ := List.pairwise_append.mp hseen
    by_cases hmem : x ∈ l
    · refine ⟨x, hmem, fun r hr hrx => ?_⟩
      rcases List.mem_append.mp (hl r hr) with hr' | hr'
      · exact hx r hr' x (List.mem_singleton_self x)
      · exact absurd (List.mem_singleton.mp hr') hrx
    · apply ih hseen
      intro r hr
      rcases List.mem_append.mp (hl r hr) with hr' | hr'
      · exact hr'
      · exact absurd (List.mem_singleton.mp hr' ▸ hr) hmem

theorem pairwise_idxOf_lt {l : List α} (hl : l.Nodup) :
    l.Pairwise fun a b => l.idxOf a < l.idxOf b := by
  rw [List.pairwise_iff_getElem]
  intro i j hi hj hij
  rwa [hl.idxOf_getElem, hl.idxOf_getElem]

theorem entersBefore_iff_of_sorted {β : Type*} [LinearOrder β] {f : α → β} {l : List α}
    (hl : l.Pairwise fun a b => f a ≤ f b)
    (hf : ∀ a ∈ l, ∀ b ∈ l, f a = f b → a = b) {a b : α} (ha : a ∈ l) (hb : b ∈ l) :
    EntersBefore l a b ↔ f a < f b := by
  have hsorted : l.dedup.Pairwise fun a b => f a ≤ f b := hl.sublist (List.dedup_sublist l)
  have hlt : ∀ {a b : α}, a ∈ l → b ∈ l → EntersBefore l a b → f a < f b := by
    intro a b ha hb hab
    have hla := List.idxOf_lt_length_of_mem (List.mem_dedup.mpr ha)
    have hlb := List.idxOf_lt_length_of_mem (List.mem_dedup.mpr hb)
    have hle := List.pairwise_iff_getElem.mp hsorted _ _ hla hlb hab
    rw [List.getElem_idxOf, List.getElem_idxOf] at hle
    refine lt_of_le_of_ne hle fun he => ?_
    rw [hf a ha b hb he] at hab
    exact absurd hab (lt_irrefl _)
  refine ⟨hlt ha hb, fun h => ?_⟩
  rcases Nat.lt_trichotomy (l.dedup.idxOf a) (l.dedup.idxOf b) with h' | h' | h'
  · exact h'
  · rw [(List.idxOf_inj (List.mem_dedup.mpr ha)).mp h'] at h
    exact absurd h (lt_irrefl _)
  · exact absurd (hlt hb ha h') (lt_asymm h)

namespace Graph

variable {G H : Graph α} {roots queue result : List α} {x : α}

/-- Popping a node keeps the listed and queued nodes in order: a released node has the popped one
as its latest parent, and the latest parents of the others were listed before. -/
theorem Inv.pairwise_earlier (h : G.Inv (x :: queue) result)
    (hroots : ∀ k ∈ G.nodes, G.parents k = [] → k ∈ roots)
    (hp : (result ++ x :: queue).Pairwise (Earlier roots G.parents G.children)) :
    ((result ++ [x]) ++ (queue ++ G.released x (result ++ [x]))).Pairwise
      (Earlier roots G.parents G.children) := by
  have hsorted : ((result ++ [x]) ++ queue).Pairwise (Earlier roots G.parents G.children) := by
    simpa using hp
  obtain ⟨hdone, -, -⟩ := List.pairwise_append.mp hsorted
  obtain ⟨hresult, -, hx⟩ := List.pairwise_append.mp hdone
  have hlatest : ∀ b ∈ G.released x (result ++ [x]),
      Latest roots G.parents G.children x b := by
    intro b hb
    obtain ⟨hxb, -, hall⟩ := mem_released.mp hb
    refine ⟨hxb, fun r hr hrx => ?_⟩
    rcases List.mem_append.mp (hall r hr) with hr' | hr'
    · exact hx r hr' x (List.mem_singleton_self x)
    · exact absurd (List.mem_singleton.mp hr') hrx
  rw [← List.append_assoc]
  refine List.pairwise_append.mpr ⟨hsorted, ?_, ?_⟩
  · have hlist : (G.released x (result ++ [x])).Pairwise (EntersBefore (G.children x)) :=
      (pairwise_idxOf_lt (List.nodup_dedup _)).sublist List.filter_sublist
    exact hlist.imp_of_mem fun ha hb hlt =>
      (hlatest _ ha).earlier_of_entersBefore (hlatest _ hb) hlt
  · intro a ha b hb
    rw [List.append_assoc] at ha
    obtain ⟨hnode, hpar⟩ := (h.mem a).mp ha
    have hxb := (hlatest b hb).1
    by_cases hnil : G.parents a = []
    · exact .start (hroots a hnode hnil) (List.ne_nil_of_mem hxb)
    · obtain ⟨p, hpa, hlast⟩ := exists_last hresult hpar hnil
      exact Latest.earlier ⟨hpa, hlast⟩ (hlatest b hb)
        (hx p (hpar p hpa) x (List.mem_singleton_self x))

section Order
variable (hroots : ∀ k, k ∈ roots ↔ k ∈ G.nodes ∧ G.parents k = [])
include hroots

theorem asymm_earlier {a b : α} (h : Earlier roots G.parents G.children a b) :
    ¬ Earlier roots G.parents G.children b a :=
  h.asymm G.rank_lt fun r hr => ((hroots r).mp hr).2

theorem entersBefore_iff {p a b : α} (hp : Latest roots G.parents G.children p a)
    (hp' : Latest roots G.parents G.children p b) :
    EntersBefore (G.children p) a b ↔ Earlier roots G.parents G.children a b := by
  refine ⟨hp.earlier_of_entersBefore hp', fun h => ?_⟩
  have hasymm := asymm_earlier hroots h
  have hmem : a ∈ (G.children p).dedup :=
    List.mem_dedup.mpr ((G.mem_children_iff p a).mpr hp.1)
  rcases Nat.lt_trichotomy ((G.children p).dedup.idxOf a) ((G.children p).dedup.idxOf b) with
    h' | h' | h'
  · exact h'
  · rw [(List.idxOf_inj hmem).mp h'] at h hasymm
    exact absurd h hasymm
  · exact absurd (hp'.earlier_of_entersBefore hp h') hasymm

variable (hn : roots.Nodup)
include hn

theorem pairwise_fifo :
    (G.fifo G.nodes.card roots []).Pairwise (Earlier roots G.parents G.children) := by
  have hstart : ([] ++ roots).Pairwise (Earlier roots G.parents G.children) :=
    (pairwise_idxOf_lt hn).imp_of_mem fun ha hb hlt => .roots ha hb hlt
  have hpair := (fifo_invariant
    (J := fun queue result => (result ++ queue).Pairwise (Earlier roots G.parents G.children))
    (fun x queue result hinv hJ =>
      hinv.pairwise_earlier (fun k hk hnil => (hroots k).mpr ⟨hk, hnil⟩) hJ)
    G.nodes.card (by simp) (inv_start hn hroots) hstart).2
  rwa [List.append_nil] at hpair

theorem inv_fifo : G.Inv [] (G.fifo G.nodes.card roots []) :=
  (fifo_invariant (J := fun _ _ => True) (fun _ _ _ _ _ => trivial) G.nodes.card (by simp)
    (inv_start hn hroots) trivial).1

theorem idxOf_fifo_lt_iff {a b : α} (ha : a ∈ G.nodes) (hb : b ∈ G.nodes) :
    (G.fifo G.nodes.card roots []).idxOf a < (G.fifo G.nodes.card roots []).idxOf b ↔
      Earlier roots G.parents G.children a b := by
  have hinv := inv_fifo hroots hn
  have hpair := pairwise_fifo hroots hn
  have hlt : ∀ {a b : α}, a ∈ G.nodes → b ∈ G.nodes →
      (G.fifo G.nodes.card roots []).idxOf a < (G.fifo G.nodes.card roots []).idxOf b →
      Earlier roots G.parents G.children a b := by
    intro a b ha hb hlt
    have hla := List.idxOf_lt_length_of_mem ((hinv.mem_of_queue_nil a).mpr ha)
    have hlb := List.idxOf_lt_length_of_mem ((hinv.mem_of_queue_nil b).mpr hb)
    have hget := List.pairwise_iff_getElem.mp hpair _ _ hla hlb hlt
    rwa [List.getElem_idxOf, List.getElem_idxOf] at hget
  refine ⟨hlt ha hb, fun h => ?_⟩
  have hasymm := asymm_earlier hroots h
  rcases Nat.lt_trichotomy ((G.fifo G.nodes.card roots []).idxOf a)
    ((G.fifo G.nodes.card roots []).idxOf b) with h' | h' | h'
  · exact h'
  · have hab := (List.idxOf_inj ((hinv.mem_of_queue_nil a).mpr ha)).mp h'
    rw [hab] at h hasymm
    exact absurd h hasymm
  · exact absurd (hlt hb ha h') hasymm

theorem fifo_eq_iff (hnodes : H.nodes = G.nodes) (hparents : H.parents = G.parents) :
    H.fifo H.nodes.card roots [] = G.fifo G.nodes.card roots [] ↔
      Aligned roots G.parents G.children H.children := by
  have hroots' : ∀ k, k ∈ roots ↔ k ∈ H.nodes ∧ H.parents k = [] := by
    rw [hnodes, hparents]
    exact hroots
  constructor
  · intro heq
    have hiff : ∀ {a b : α}, a ∈ G.nodes → b ∈ G.nodes →
        (Earlier roots G.parents G.children a b ↔ Earlier roots H.parents H.children a b) := by
      intro a b ha hb
      have hold := idxOf_fifo_lt_iff hroots hn ha hb
      have hnew := idxOf_fifo_lt_iff hroots' hn (hnodes ▸ ha) (hnodes ▸ hb)
      rw [heq] at hnew
      exact hold.symm.trans hnew
    have hlatest : ∀ {p a : α}, Latest roots G.parents G.children p a →
        Latest roots H.parents H.children p a := by
      intro p a hp
      rw [Latest, hparents]
      refine ⟨hp.1, fun r hr hrp => ?_⟩
      rw [← hparents, ← hiff (G.closed a r hr).1 (G.closed a p hp.1).1]
      exact hp.2 r hr hrp
    intro p a b hp hp'
    rw [entersBefore_iff hroots hp hp', entersBefore_iff hroots' (hlatest hp) (hlatest hp')]
    exact hiff (G.closed a p hp.1).2 (G.closed b p hp'.1).2
  · intro hal
    have hpair := (pairwise_fifo hroots hn).imp fun h => h.congr hal
    have hpair' := pairwise_fifo hroots' hn
    rw [hparents] at hpair'
    have hperm : (H.fifo H.nodes.card roots []).Perm (G.fifo G.nodes.card roots []) := by
      rw [List.perm_ext_iff_of_nodup (by simpa using (inv_fifo hroots' hn).nodup)
        (by simpa using (inv_fifo hroots hn).nodup)]
      intro k
      rw [(inv_fifo hroots' hn).mem_of_queue_nil, (inv_fifo hroots hn).mem_of_queue_nil, hnodes]
    refine hperm.eq_of_pairwise (fun a b _ _ hab hba => ?_) hpair' hpair
    rw [← hparents] at hab hba
    exact absurd hba (asymm_earlier hroots' hab)

end Order

end Graph

end KahnOrder
