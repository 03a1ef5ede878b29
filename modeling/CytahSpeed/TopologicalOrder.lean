import CytahSpeed.Ghostdag
import CytahSpeed.KahnOrder

/-!
# The topological order of a DAG

`get_topological_order` is Kahn's order over the stored blocks and the index's child lists. On a
well-formed DAG with an exact index it lists every stored block once, behind its parents and in
order of increasing height, and a block inserted later moves no other.
-/

namespace CytahSpeed
open ByteString FiniteMap

namespace BlockStore

variable {store : BlockStore} (hkey : ∀ h s, store.getBlock h = some s → s.hash = h)
include hkey

theorem map_hash_getAllBlocks : store.getAllBlocks.map (·.hash) = store.getAllHashes := by
  have hlist : ∀ l : List BlockHash, (∀ h ∈ l, ∃ s, store.getBlock h = some s) →
      (l.filterMap store.getBlock).map (·.hash) = l := by
    intro l
    induction l with
    | nil => exact fun _ => rfl
    | cons h l ih =>
      intro hall
      obtain ⟨s, hs⟩ := hall h List.mem_cons_self
      rw [List.filterMap_cons_some hs, List.map_cons, hkey h s hs,
        ih fun k hk => hall k (List.mem_cons_of_mem _ hk)]
  exact hlist _ fun h hh => (store.mem_getAllHashes h).mp hh

theorem length_getAllBlocks : store.getAllBlocks.length = store.blockCount := by
  rw [blockCount, ← map_hash_getAllBlocks hkey, List.length_map]

end BlockStore

namespace DagIndex

/-- The in-degrees of the given blocks, and those without parents in a queue. -/
def inDegrees (blocks : List Block) : Map BlockHash ℕ × List BlockHash :=
  blocks.foldl
    (fun s b =>
      (s.1.insert b.hash b.header.parentHashes.length,
        if b.header.parentHashes.isEmpty then s.2 ++ [b.hash] else s.2))
    (∅, [])

/-- Parents before children. A block is queued when its counter reaches zero, so fuel for every
stored block is enough. -/
def getTopologicalOrder (idx : DagIndex) (store : BlockStore) : List BlockHash :=
  let blocks := store.getAllBlocks
  let start := inDegrees blocks
  KahnOrder.loop idx.getChildren blocks.length start.1 start.2 []

theorem inDegrees_eq (blocks : List Block) :
    inDegrees blocks =
      (blocks.foldl (fun m b => m.insert b.hash b.header.parentHashes.length) ∅,
        (blocks.filter (·.header.parentHashes.isEmpty)).map (·.hash)) := by
  have hfold : ∀ (m : Map BlockHash ℕ) (q : List BlockHash),
      blocks.foldl (fun s b => (s.1.insert b.hash b.header.parentHashes.length,
        if b.header.parentHashes.isEmpty then s.2 ++ [b.hash] else s.2)) (m, q) =
      (blocks.foldl (fun m b => m.insert b.hash b.header.parentHashes.length) m,
        q ++ (blocks.filter (·.header.parentHashes.isEmpty)).map (·.hash)) := by
    induction blocks with
    | nil => simp
    | cons b blocks ih =>
      intro m q
      rw [List.foldl_cons, ih, List.foldl_cons, List.filter_cons]
      by_cases hb : b.header.parentHashes.isEmpty = true
      · simp [hb]
      · simp [hb]
  rw [inDegrees, hfold, List.nil_append]

end DagIndex

namespace BlockDag

def getTopologicalOrder (d : BlockDag) : List BlockHash := d.index.getTopologicalOrder d.store

/-- "Same as topological order for now." -/
def getOrdering (d : BlockDag) : List BlockHash := d.getTopologicalOrder

def Parallel (d : BlockDag) (x y : BlockHash) : Prop :=
  x ≠ y ∧ x ∉ d.getAncestors y ∧ y ∉ d.getAncestors x

instance (d : BlockDag) (x y : BlockHash) : Decidable (d.Parallel x y) := by
  unfold Parallel
  infer_instance

/-- The blocks listed before a new one with the given parents: those whose own parents are all
listed no later than the last of these. -/
def listedBefore (d : BlockDag) (parents : List BlockHash) : List BlockHash :=
  d.getTopologicalOrder.filter
    (KahnOrder.Graph.Sooner d.getTopologicalOrder d.store.parentsOf parents ·)

/-- A well-formed DAG whose index describes its store. -/
structure Intact (c : Crypto) (d : BlockDag) : Prop where
  wellFormed : WellFormed c d
  indexes : d.index.Indexes d.store

variable {c : Crypto} {d : BlockDag}

theorem Sound.intact {calls : List Call} (h : Sound c calls) : Intact c (run c calls) :=
  ⟨h.wellFormed, h.indexes⟩

namespace Intact

variable (h : Intact c d)

theorem hash_eq (h : Intact c d) : ∀ k s, d.store.getBlock k = some s → s.hash = k :=
  fun k s hs => (h.wellFormed.hash k s hs).1

def graph : KahnOrder.Graph BlockHash where
  nodes := d.store.blocks.keys
  parents := d.store.parentsOf
  children := d.index.getChildren
  rank k := ((d.getBlock k).map (·.header.topoIndex.toNat)).getD 0
  closed k p hp := by
    obtain ⟨s, q, hs, -, hq, -⟩ := h.wellFormed.parentsOf hp
    rw [Finmap.mem_keys, Finmap.mem_keys, Finmap.mem_iff, Finmap.mem_iff]
    exact ⟨⟨q, hq⟩, ⟨s, hs⟩⟩
  count := h.indexes.children
  rank_lt k p hp := by
    obtain ⟨s, q, hs, -, hq, hlt⟩ := h.wellFormed.parentsOf hp
    simpa [hs, hq] using hlt

theorem mem_nodes (k : BlockHash) : k ∈ h.graph.nodes ↔ ∃ s, d.getBlock k = some s := by
  change k ∈ d.store.blocks.keys ↔ _
  rw [Finmap.mem_keys, Finmap.mem_iff]
  rfl

theorem card_nodes : h.graph.nodes.card = d.blockCount :=
  (BlockStore.blockCount_eq_card d.store).symm

/-- The blocks queued at the start, in the order of the store. -/
def roots (d : BlockDag) : List BlockHash :=
  (d.store.getAllBlocks.filter (·.header.parentHashes.isEmpty)).map (·.hash)

theorem mem_roots (h : Intact c d) (k : BlockHash) :
    k ∈ roots d ↔ ∃ s, d.getBlock k = some s ∧ s.header.parentHashes = [] := by
  simp only [roots, List.mem_map, List.mem_filter, List.isEmpty_iff, BlockStore.mem_getAllBlocks]
  constructor
  · rintro ⟨s, ⟨⟨k', hs⟩, hnil⟩, rfl⟩
    exact ⟨s, by rw [h.hash_eq k' s hs]; exact hs, hnil⟩
  · rintro ⟨s, hs, hnil⟩
    exact ⟨s, ⟨⟨k, hs⟩, hnil⟩, h.hash_eq k s hs⟩

theorem inv_roots : h.graph.Inv (roots d) [] := by
  apply KahnOrder.Graph.inv_start
  · have hsub : (roots d).Sublist d.store.getAllHashes := by
      rw [← BlockStore.map_hash_getAllBlocks h.hash_eq]
      exact List.filter_sublist.map _
    exact hsub.nodup (nodup_sortedKeys d.store.blocks)
  · intro k
    rw [h.mem_roots, h.mem_nodes]
    change _ ↔ _ ∧ d.store.parentsOf k = []
    constructor
    · rintro ⟨s, hs, hnil⟩
      exact ⟨⟨s, hs⟩, by rw [d.store.parentsOf_eq hs, hnil]⟩
    · rintro ⟨⟨s, hs⟩, hnil⟩
      exact ⟨s, hs, by rwa [d.store.parentsOf_eq hs] at hnil⟩

theorem counts_inDegrees : h.graph.Counts (DagIndex.inDegrees d.store.getAllBlocks).1 [] := by
  have hnodup : (d.store.getAllBlocks.map (·.hash)).Nodup := by
    rw [BlockStore.map_hash_getAllBlocks h.hash_eq]
    exact nodup_sortedKeys d.store.blocks
  rw [DagIndex.inDegrees_eq]
  refine ⟨?_, ?_⟩
  · intro k hk
    obtain ⟨s, hs⟩ := (h.mem_nodes k).mp hk
    have hmem : s ∈ d.store.getAllBlocks := (d.store.mem_getAllBlocks s).mpr ⟨k, hs⟩
    have hlook := lookup_foldl_insert_of_mem Block.hash (fun b =>
      b.header.parentHashes.length) d.store.getAllBlocks ∅ hnodup hmem
    rw [h.hash_eq k s hs] at hlook
    rw [hlook]
    change _ = some ((d.store.parentsOf k).countP (· ∉ ([] : List BlockHash)))
    rw [d.store.parentsOf_eq hs]
    simp
  · intro k hk
    refine (lookup_foldl_insert_of_notMem Block.hash _ _ _ ?_).trans (Finmap.lookup_empty k)
    rw [BlockStore.map_hash_getAllBlocks h.hash_eq, BlockStore.mem_getAllHashes]
    exact fun hs => hk ((h.mem_nodes k).mpr hs)

theorem getTopologicalOrder_eq :
    d.getTopologicalOrder = h.graph.fifo h.graph.nodes.card (roots d) [] := by
  have hcard : d.store.getAllBlocks.length = h.graph.nodes.card := by
    rw [BlockStore.length_getAllBlocks h.hash_eq, h.card_nodes]
    rfl
  have hroots : (DagIndex.inDegrees d.store.getAllBlocks).2 = roots d := by
    rw [DagIndex.inDegrees_eq]
    rfl
  rw [getTopologicalOrder, DagIndex.getTopologicalOrder, hcard, hroots]
  exact KahnOrder.Graph.loop_eq_fifo _ _ h.counts_inDegrees h.inv_roots

theorem order_invariant {J : List BlockHash → List BlockHash → Prop}
    (hpop : ∀ x queue result, h.graph.Inv (x :: queue) result → J (x :: queue) result →
      J (queue ++ h.graph.released x (result ++ [x])) (result ++ [x]))
    (hJ : J (roots d) []) :
    h.graph.Inv [] d.getTopologicalOrder ∧ J [] d.getTopologicalOrder := by
  rw [h.getTopologicalOrder_eq]
  exact KahnOrder.Graph.fifo_invariant hpop _ (by simp) h.inv_roots hJ

theorem inv_order : h.graph.Inv [] d.getTopologicalOrder :=
  (h.order_invariant (J := fun _ _ => True) (fun _ _ _ _ _ => trivial) trivial).1

include h

theorem mem_order (k : BlockHash) : k ∈ d.getTopologicalOrder ↔ ∃ s, d.getBlock k = some s := by
  rw [h.inv_order.mem_of_queue_nil, h.mem_nodes]

theorem nodup_order : d.getTopologicalOrder.Nodup := by
  simpa using h.inv_order.nodup

theorem length_order : d.getTopologicalOrder.length = d.blockCount := by
  have hset : d.getTopologicalOrder.toFinset = h.graph.nodes := by
    ext k
    rw [List.mem_toFinset, h.inv_order.mem_of_queue_nil]
  rw [← List.toFinset_card_of_nodup h.nodup_order, hset, h.card_nodes]

section Position
variable {a b : BlockHash}

theorem rel_of_idxOf_lt {R : BlockHash → BlockHash → Prop}
    (hR : d.getTopologicalOrder.Pairwise R)
    (ha : ∃ s, d.getBlock a = some s) (hb : ∃ s, d.getBlock b = some s)
    (hlt : d.getTopologicalOrder.idxOf a < d.getTopologicalOrder.idxOf b) : R a b := by
  have hla := List.idxOf_lt_length_of_mem ((h.mem_order a).mpr ha)
  have hlb := List.idxOf_lt_length_of_mem ((h.mem_order b).mpr hb)
  have hget := List.pairwise_iff_getElem.mp hR _ _ hla hlb hlt
  rwa [List.getElem_idxOf, List.getElem_idxOf] at hget

theorem idxOf_inj (ha : ∃ s, d.getBlock a = some s)
    (he : d.getTopologicalOrder.idxOf a = d.getTopologicalOrder.idxOf b) : a = b :=
  (List.idxOf_inj ((h.mem_order a).mpr ha)).mp he

theorem idxOf_parent_lt (hp : a ∈ d.store.parentsOf b) :
    d.getTopologicalOrder.idxOf a < d.getTopologicalOrder.idxOf b := by
  obtain ⟨s, q, hs, -, hq, hlt⟩ := h.wellFormed.parentsOf hp
  have hpair := (h.order_invariant (J := fun queue result =>
    (result ++ queue).Pairwise fun a b => b ∉ d.store.parentsOf a)
    (fun x queue result hinv hJ => hinv.pairwise_parents hJ) ?_).2
  · rw [List.append_nil] at hpair
    by_contra hle
    rcases Nat.lt_or_ge (d.getTopologicalOrder.idxOf b) (d.getTopologicalOrder.idxOf a) with
      hba | hab
    · exact h.rel_of_idxOf_lt hpair ⟨s, hs⟩ ⟨q, hq⟩ hba hp
    · obtain rfl := h.idxOf_inj ⟨q, hq⟩ (Nat.le_antisymm hab (Nat.le_of_not_lt hle))
      obtain rfl : s = q := Option.some.inj (hs.symm.trans hq)
      exact absurd hlt (lt_irrefl _)
  · -- blocks without parents have none in the queue
    apply List.pairwise_of_forall_mem_list
    intro x hx y _ hy
    obtain ⟨s', hs', hnil⟩ := (h.mem_roots x).mp hx
    rw [d.store.parentsOf_eq hs', hnil] at hy
    cases hy

theorem idxOf_ancestor_lt (ha : a ∈ d.getAncestors b) :
    d.getTopologicalOrder.idxOf a < d.getTopologicalOrder.idxOf b := by
  have ht := (DagIndex.mem_getAllAncestors b a d.store).mp ha
  induction ht with
  | single hstep => exact h.idxOf_parent_lt hstep
  | tail hprev hstep ih =>
    exact (h.idxOf_parent_lt hstep).trans (ih ((DagIndex.mem_getAllAncestors _ _ _).mpr hprev))

theorem idxOf_root {s : Block} (hs : d.getBlock a = some s) (hnil : s.header.parentHashes = []) :
    d.getTopologicalOrder.idxOf a = 0 := by
  have hpos : 0 < d.getTopologicalOrder.length :=
    List.length_pos_of_mem ((h.mem_order a).mpr ⟨s, hs⟩)
  obtain ⟨q, hq⟩ := (h.mem_order _).mp (List.getElem_mem hpos)
  have hfirst : d.getTopologicalOrder.idxOf d.getTopologicalOrder[0] = 0 :=
    h.nodup_order.idxOf_getElem _ _
  -- the first block has no parents either, and there is only one such block
  have hroot : q.header.parentHashes = [] := by
    rw [List.eq_nil_iff_forall_not_mem]
    intro p hp
    have hlt := h.idxOf_parent_lt (a := p) (b := d.getTopologicalOrder[0])
      (by rwa [d.store.parentsOf_eq hq])
    omega
  have hone := (h.wellFormed.placed a s hs).root.mp hnil
  have htwo := (h.wellFormed.placed _ q hq).root.mp hroot
  rw [h.wellFormed.topo_inj a s _ q hs hq (UInt64.toNat_inj.mp (hone.trans htwo.symm)), hfirst]

theorem heightRank_le (ha : ∃ s, d.getBlock a = some s) (hb : ∃ s, d.getBlock b = some s)
    (hle : d.getTopologicalOrder.idxOf a ≤ d.getTopologicalOrder.idxOf b) :
    d.heightRank a ≤ d.heightRank b := by
  have hroot : ∀ k ∈ h.graph.nodes, h.graph.parents k = [] → d.heightRank k = 0 := by
    intro k hk hnil
    obtain ⟨s, hs⟩ := (h.mem_nodes k).mp hk
    change d.store.parentsOf k = [] at hnil
    rw [d.store.parentsOf_eq hs] at hnil
    rw [heightRank, heightAt_eq hs, (h.wellFormed.placed k s hs).height_root hnil]
    rfl
  have hexists : ∀ k, h.graph.parents k ≠ [] →
      ∃ p ∈ h.graph.parents k, d.heightRank k = d.heightRank p + 1 := by
    intro k hne
    obtain ⟨p, hp⟩ := List.exists_mem_of_ne_nil _ hne
    have hlt := h.wellFormed.height_parent_lt (h := k) hp
    obtain ⟨m, hm⟩ := Nat.exists_eq_succ_of_ne_zero (Nat.ne_of_gt (Nat.zero_lt_of_lt hlt))
    obtain ⟨q, hq, hqm⟩ := h.wellFormed.exists_parent hm
    exact ⟨q, hq, by omega⟩
  have hpair := (h.order_invariant (J := fun queue result =>
    (result ++ queue).Pairwise fun a b => d.heightRank a ≤ d.heightRank b)
    (fun x queue result hinv hJ => hinv.pairwise_height hroot
      (fun k p hp => h.wellFormed.height_parent_lt hp) hexists hJ) ?_).2
  · rw [List.append_nil] at hpair
    rcases Nat.lt_or_eq_of_le hle with hlt | he
    · exact h.rel_of_idxOf_lt hpair ha hb hlt
    · rw [h.idxOf_inj ha he]
  · apply List.pairwise_of_forall_mem_list
    intro x hx y _
    have hx := (h.inv_roots.mem x).mp hx
    rw [hroot x hx.1 (List.eq_nil_iff_forall_not_mem.mpr fun p hp => by simpa using hx.2 p hp)]
    exact Nat.zero_le _

end Position

theorem commit {env : CallEnv} {b : Block} (acc : Accepts c env d b)
    (hfits : d.blockCount + 1 < 2 ^ 64) (hfree : d.getBlock (d.annotate c b).hash = none) :
    Intact c (d.commit (d.annotate c b)) :=
  ⟨h.wellFormed.commit acc hfits hfree, indexes_commit h.wellFormed h.indexes hfree acc.parents⟩

theorem roots_eq_of_mem_iff {d' : BlockDag} (h' : Intact c d')
    (hiff : ∀ k, k ∈ roots d' ↔ k ∈ roots d) : roots d' = roots d := by
  have hperm : (roots d').Perm (roots d) :=
    (List.perm_ext_iff_of_nodup (by simpa using h'.inv_roots.nodup)
      (by simpa using h.inv_roots.nodup)).mpr hiff
  cases hr : roots d with
  | nil =>
    rw [hr] at hperm
    exact List.perm_nil.mp hperm
  | cons g l =>
    have hl : l = [] := by
      have hn : (roots d).Nodup := by simpa using h.inv_roots.nodup
      rw [hr] at hn
      rw [List.eq_nil_iff_forall_not_mem]
      intro k hk
      obtain ⟨s, hs, hnil⟩ := (h.mem_roots g).mp (by rw [hr]; exact List.mem_cons_self)
      obtain ⟨s', hs', hnil'⟩ := (h.mem_roots k).mp (by rw [hr]; exact List.mem_cons_of_mem _ hk)
      have ht := (h.wellFormed.placed g s hs).root.mp hnil
      have ht' := (h.wellFormed.placed k s' hs').root.mp hnil'
      have he := h.wellFormed.topo_inj g s k s' hs hs' (UInt64.toNat_inj.mp (ht.trans ht'.symm))
      rw [he] at hn
      exact (List.nodup_cons.mp hn).1 hk
    rw [hr, hl] at hperm
    rw [hl]
    exact List.perm_singleton.mp hperm

section Commit
variable {a : Block} (h' : Intact c (d.commit a)) (hfree : d.getBlock a.hash = none)
  (hparents : ∀ p ∈ a.header.parentHashes, ∃ q, d.getBlock p = some q)
  (hne : a.header.parentHashes ≠ [])
include h' hfree hparents hne

theorem extendedBy_commit : h.graph.ExtendedBy h'.graph a.hash := by
  have hself : h'.graph.parents a.hash = a.header.parentHashes :=
    (parentsOf_commit a a.hash).trans (if_pos rfl)
  refine ⟨?_, keys_insert _ _ _, ?_, ?_, ?_, ?_⟩
  · rw [h.mem_nodes, hfree]
    simp
  · intro k hk
    exact (parentsOf_commit a k).trans (if_neg hk)
  · rw [hself]
    exact fun p hp => (h.mem_nodes p).mpr (hparents p hp)
  · rw [hself]
    exact hne
  · intro p
    rw [hself]
    exact DagIndex.getChildren_updateTipsAfterInsert d.index a p

/-- A new block is listed behind those that `listedBefore` names, and moves no other. -/
theorem order_commit :
    ∃ rest, d.getTopologicalOrder = d.listedBefore a.header.parentHashes ++ rest ∧
      (d.commit a).getTopologicalOrder =
        d.listedBefore a.header.parentHashes ++ a.hash :: rest := by
  have hext := h.extendedBy_commit h' hfree hparents hne
  have hself : h'.graph.parents a.hash = a.header.parentHashes :=
    (parentsOf_commit a a.hash).trans (if_pos rfl)
  have hroots : roots (d.commit a) = roots d := by
    apply h.roots_eq_of_mem_iff h'
    intro k
    rw [h'.mem_roots, h.mem_roots]
    constructor
    · rintro ⟨s, hs, hnil⟩
      rcases getBlock_commit_eq_some hs with ⟨-, rfl⟩ | hs
      · exact absurd hnil hne
      · exact ⟨s, hs, hnil⟩
    · rintro ⟨s, hs, hnil⟩
      exact ⟨s, getBlock_commit_of_some hfree hs, hnil⟩
  have hcard : h'.graph.nodes.card = h.graph.nodes.card + 1 := by
    rw [h'.card_nodes, h.card_nodes, blockCount_commit hfree]
  obtain ⟨rest, h₁, h₂⟩ := hext.order_eq h.inv_roots h.getTopologicalOrder_eq
  rw [hself] at h₁ h₂
  rw [h'.getTopologicalOrder_eq, hroots, hcard]
  exact ⟨rest, h₁, h₂⟩

end Commit

end Intact

end BlockDag

end CytahSpeed
