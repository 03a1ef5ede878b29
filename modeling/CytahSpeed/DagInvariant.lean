import CytahSpeed.BlockDag
import CytahSpeed.Selection

/-!
# Well-formed block DAGs

`WellFormed` is the shape every reachable DAG has: blocks stored under their own hash, parents
stored and earlier, positions `0 .. n - 1` each taken once, and heights, blue scores and selected
parents that follow from the parents. The metadata `insert_block` computes is described without
its loops (`CarriesMetadata`), and an accepted block keeps the DAG well formed unless its hash is
the hash of a stored block with another preimage.
-/

namespace CytahSpeed
open ByteString FiniteMap MachineInt Selection

namespace BlockDag

variable (c : Crypto) (d : BlockDag)

/-- The height stored for a hash; zero for a hash that is not stored. -/
def heightAt (h : BlockHash) : UInt64 := ((d.getBlock h).map (·.height)).getD 0

def blueScoreAt (h : BlockHash) : UInt64 := ((d.getBlock h).map (·.header.blueScore)).getD 0

/-- Rank of a parent in the selection: its height as a number. -/
def heightRank (h : BlockHash) : ℕ := (d.heightAt h).toNat

theorem heightAt_eq {d : BlockDag} {h : BlockHash} {s : Block} (hs : d.getBlock h = some s) :
    d.heightAt h = s.height := by simp [heightAt, hs]

theorem blueScoreAt_eq {d : BlockDag} {h : BlockHash} {s : Block} (hs : d.getBlock h = some s) :
    d.blueScoreAt h = s.header.blueScore := by simp [blueScoreAt, hs]

/-- What a stored block owes to its parents: they are stored and earlier, and its height, blue
score and selected parent are those of a child of the last of its highest parents. -/
structure Placed (s : Block) : Prop where
  parent : ∀ p ∈ s.header.parentHashes,
    ∃ q, d.getBlock p = some q ∧ q.header.topoIndex.toNat < s.header.topoIndex.toNat
  root : s.header.parentHashes = [] ↔ s.header.topoIndex.toNat = 0
  chainHeight : s.header.chainHeight = s.height
  height_root : s.header.parentHashes = [] → s.height = 0
  height_child : s.header.parentHashes ≠ [] →
    ∃ p, IsLastMax d.heightRank s.header.parentHashes p ∧ s.header.selectedParent = some p ∧
      s.height.toNat = d.heightRank p + 1
  blueScore : s.header.blueScore.toNat = s.height.toNat + 1
  height_le : s.height.toNat ≤ s.header.topoIndex.toNat

structure WellFormed : Prop where
  hash : ∀ h s, d.getBlock h = some s → s.hash = h ∧ s.hash = s.calculateHash c
  placed : ∀ h s, d.getBlock h = some s → d.Placed s
  topo_lt : ∀ h s, d.getBlock h = some s → s.header.topoIndex.toNat < d.blockCount
  topo_inj : ∀ h s h' s', d.getBlock h = some s → d.getBlock h' = some s' →
    s.header.topoIndex = s'.header.topoIndex → h = h'
  topo_surj : ∀ i < d.blockCount, ∃ h s, d.getBlock h = some s ∧ s.header.topoIndex.toNat = i

theorem wellFormed_empty : WellFormed c empty := by
  have hnone : ∀ h, empty.getBlock h = none := fun h => Finmap.lookup_empty h
  have hcount : empty.blockCount = 0 := (BlockStore.blockCount_eq_zero_iff _).mpr hnone
  constructor
  all_goals first
    | (intro h s hs; rw [hnone h] at hs; cases hs)
    | (intro h s h' s' hs; rw [hnone h] at hs; cases hs)
    | (intro i hi; rw [hcount] at hi; omega)

/-- The metadata a block must carry for the local DAG to leave it unchanged: its position is the
number of stored blocks, and its height, blue score and selected parent are those of a child of
the last of its highest parents. An absent selected parent counts as the zero hash, as it does in
the preimage. -/
structure CarriesMetadata (b : Block) : Prop where
  topoIndex : b.header.topoIndex.toNat = d.blockCount
  root : b.header.parentHashes = [] → b.header.chainHeight = 0 ∧ b.header.blueScore = 1 ∧
    b.header.selectedParent.getD (Bytes.zero 32) = Bytes.zero 32
  child : b.header.parentHashes ≠ [] → ∃ p, IsLastMax d.heightRank b.header.parentHashes p ∧
    b.header.chainHeight.toNat = d.heightRank p + 1 ∧
    b.header.blueScore.toNat = d.heightRank p + 2 ∧
    b.header.selectedParent.getD (Bytes.zero 32) = p

variable {c d} {b : Block}

theorem bestParent_spec {parents : List BlockHash} (hne : parents ≠ [])
    (hp : ∀ p ∈ parents, ∃ q, d.getBlock p = some q) :
    ∃ p, IsLastMax d.heightRank parents p ∧ d.bestParent parents = (some p, d.heightAt p) := by
  obtain ⟨p, hmax, hf⟩ := foldl_isLastMax d.heightAt UInt64.toNat 0 rfl parents hne
  refine ⟨p, hmax, ?_⟩
  rw [← hf, bestParent]
  apply List.foldl_ext
  intro best q hq
  obtain ⟨s, hs⟩ := hp q hq
  simp only [hs, heightAt_eq hs, ge_iff_le, UInt64.le_iff_toNat_le]

theorem computeBlueScore_eq (hp : ∀ p ∈ b.header.parentHashes, ∃ q, d.getBlock p = some q) :
    d.computeBlueScore b =
      satAdd (b.header.parentHashes.foldl (fun score p => max score (d.blueScoreAt p)) 0) 1 := by
  rw [computeBlueScore]
  congr 1
  apply List.foldl_ext
  intro score q hq
  obtain ⟨s, hs⟩ := hp q hq
  simp only [hs, blueScoreAt_eq hs]

@[simp] theorem hash_annotate : (d.annotate c b).hash = (d.annotate c b).calculateHash c := rfl

@[simp] theorem height_annotate : (d.annotate c b).height = (d.annotate c b).header.chainHeight :=
  rfl

theorem sameContent_annotate : Block.SameContent c b (d.annotate c b) :=
  Block.sameContent_setConsensusMetadata c b _ _ _ _

theorem topoIndex_annotate (hc : d.blockCount < 2 ^ 64) :
    (d.annotate c b).header.topoIndex.toNat = d.blockCount := by
  change (UInt64.ofNat d.blockCount).toNat = d.blockCount
  exact toNat_ofNat_of_le (by simp only [u64Max]; omega)

theorem selectedParent_annotate_root (h : b.header.parentHashes = []) :
    (d.annotate c b).header.selectedParent = none := by
  simp [annotate, h]

theorem chainHeight_annotate_root (h : b.header.parentHashes = []) :
    (d.annotate c b).header.chainHeight = 0 := by
  simp [annotate, h]

theorem blueScore_annotate_root (h : b.header.parentHashes = []) :
    (d.annotate c b).header.blueScore = 1 := by
  simp only [annotate, computeBlueScore, h, Block.header_setConsensusMetadata, List.foldl_nil]
  rfl

theorem heightRank_lt (wf : WellFormed c d) {p : BlockHash} {q : Block}
    (hq : d.getBlock p = some q) : d.heightRank p < d.blockCount := by
  rw [heightRank, heightAt_eq hq]
  exact (wf.placed p q hq).height_le.trans_lt (wf.topo_lt p q hq)

/-- Metadata of an annotated child: one above the highest parent, with no saturation while the
block count fits a machine word. -/
theorem annotate_child (wf : WellFormed c d) (hne : b.header.parentHashes ≠ [])
    (hp : ∀ p ∈ b.header.parentHashes, ∃ q, d.getBlock p = some q)
    (hc : d.blockCount + 1 < 2 ^ 64) :
    ∃ p, IsLastMax d.heightRank b.header.parentHashes p ∧
      (d.annotate c b).header.selectedParent = some p ∧
      (d.annotate c b).header.chainHeight.toNat = d.heightRank p + 1 ∧
      (d.annotate c b).header.blueScore.toNat = d.heightRank p + 2 := by
  obtain ⟨p, hmax, hbest⟩ := bestParent_spec hne hp
  obtain ⟨q, hq⟩ := hp p hmax.mem
  have hlt := heightRank_lt wf hq
  have hempty : b.header.parentHashes.isEmpty = false := by simpa using hne
  refine ⟨p, hmax, ?_, ?_, ?_⟩
  · simp [annotate, hempty, hbest]
  · simp only [annotate, hempty, hbest, Block.header_setConsensusMetadata, Bool.false_eq_true,
      if_false, toNat_satAdd]
    change min (d.heightRank p + 1) u64Max = _
    simp only [u64Max]
    omega
  · change (d.computeBlueScore b).toNat = _
    rw [computeBlueScore_eq hp, toNat_satAdd]
    obtain ⟨hle, heq⟩ := foldl_max_rank d.blueScoreAt UInt64.toNat max toNat_max 0 rfl
      b.header.parentHashes
    have hblue : ∀ x ∈ b.header.parentHashes,
        (d.blueScoreAt x).toNat = d.heightRank x + 1 := by
      intro x hx
      obtain ⟨s, hs⟩ := hp x hx
      rw [blueScoreAt_eq hs, (wf.placed x s hs).blueScore, heightRank, heightAt_eq hs]
    generalize b.header.parentHashes.foldl (fun score p => max score (d.blueScoreAt p)) 0 = r
      at hle heq ⊢
    have hr : r.toNat = d.heightRank p + 1 := by
      have hge := hle p hmax.mem
      rw [hblue p hmax.mem] at hge
      rcases heq with h0 | ⟨x, hx, he⟩
      · omega
      · rw [hblue x hx] at he
        have := hmax.le hx
        omega
    rw [hr]
    change min (d.heightRank p + 1 + 1) u64Max = _
    simp only [u64Max]
    omega

theorem sameMetadata_annotate_iff (wf : WellFormed c d)
    (hp : ∀ p ∈ b.header.parentHashes, ∃ q, d.getBlock p = some q)
    (hc : d.blockCount + 1 < 2 ^ 64) :
    Block.SameMetadata b (d.annotate c b) ↔ d.CarriesMetadata b := by
  have htopo : (d.annotate c b).header.topoIndex.toNat = d.blockCount :=
    topoIndex_annotate (by omega)
  by_cases hne : b.header.parentHashes = []
  · have hsel := selectedParent_annotate_root (c := c) (d := d) hne
    have hch := chainHeight_annotate_root (c := c) (d := d) hne
    have hbs := blueScore_annotate_root (c := c) (d := d) hne
    constructor
    · intro h
      refine ⟨by rw [h.topoIndex, htopo], fun _ => ?_, fun h' => absurd hne h'⟩
      exact ⟨h.chainHeight.trans hch, h.blueScore.trans hbs, by
        rw [h.selectedParent, hsel, Option.getD_none]⟩
    · intro h
      obtain ⟨h₁, h₂, h₃⟩ := h.root hne
      exact ⟨h₂.trans hbs.symm, h₁.trans hch.symm,
        UInt64.toNat_inj.mp (h.topoIndex.trans htopo.symm), by
          rw [h₃, hsel, Option.getD_none]⟩
  · obtain ⟨p, hmax, hsel, hch, hbs⟩ := annotate_child wf hne hp hc
    constructor
    · intro h
      refine ⟨by rw [h.topoIndex, htopo], fun h' => absurd h' hne, fun _ => ⟨p, hmax, ?_⟩⟩
      exact ⟨by rw [h.chainHeight, hch], by rw [h.blueScore, hbs], by
        rw [h.selectedParent, hsel, Option.getD_some]⟩
    · intro h
      obtain ⟨p', hmax', h₁, h₂, h₃⟩ := h.child hne
      obtain rfl := hmax.unique hmax'
      exact ⟨UInt64.toNat_inj.mp (h₂.trans hbs.symm), UInt64.toNat_inj.mp (h₁.trans hch.symm),
        UInt64.toNat_inj.mp (h.topoIndex.trans htopo.symm), by
          rw [h₃, hsel, Option.getD_some]⟩

theorem WellFormed.existsUnique_topo (wf : WellFormed c d) {i : ℕ} (hi : i < d.blockCount) :
    ∃! h, ∃ s, d.getBlock h = some s ∧ s.header.topoIndex.toNat = i := by
  obtain ⟨h, s, hs, ht⟩ := wf.topo_surj i hi
  refine ⟨h, ⟨s, hs, ht⟩, ?_⟩
  intro h' hstored
  obtain ⟨s', hs', ht'⟩ := hstored
  exact wf.topo_inj h' s' h s hs' hs (UInt64.toNat_inj.mp (ht'.trans ht.symm))

theorem WellFormed.parentsOf (wf : WellFormed c d) {h p : BlockHash}
    (hp : p ∈ d.store.parentsOf h) :
    ∃ s q, d.getBlock h = some s ∧ p ∈ s.header.parentHashes ∧ d.getBlock p = some q ∧
      q.header.topoIndex.toNat < s.header.topoIndex.toNat := by
  cases hs : d.getBlock h with
  | none =>
    have hnil : d.store.parentsOf h = [] := by
      simp only [BlockStore.parentsOf]
      rw [getBlock] at hs
      rw [hs]
    rw [hnil] at hp
    cases hp
  | some s =>
    rw [d.store.parentsOf_eq hs] at hp
    obtain ⟨q, hq, hlt⟩ := (wf.placed h s hs).parent p hp
    exact ⟨s, q, rfl, hp, hq, hlt⟩

theorem WellFormed.ancestor (wf : WellFormed c d) {h a : BlockHash} (ha : a ∈ d.getAncestors h) :
    ∃ s q, d.getBlock h = some s ∧ d.getBlock a = some q ∧
      q.header.topoIndex.toNat < s.header.topoIndex.toNat := by
  have ht := (DagIndex.mem_getAllAncestors h a d.store).mp ha
  induction ht with
  | single hstep =>
    obtain ⟨s, q, hs, -, hq, hlt⟩ := wf.parentsOf hstep
    exact ⟨s, q, hs, hq, hlt⟩
  | tail hprev hstep ih =>
    obtain ⟨s, q, hs, hq, hlt⟩ := ih ((DagIndex.mem_getAllAncestors _ _ _).mpr hprev)
    obtain ⟨q', r, hq', -, hr, hlt'⟩ := wf.parentsOf hstep
    obtain rfl : q = q' := Option.some.inj (hq.symm.trans hq')
    exact ⟨s, r, hs, hr, hlt'.trans hlt⟩

theorem WellFormed.notMem_getAncestors_self (wf : WellFormed c d) (h : BlockHash) :
    h ∉ d.getAncestors h := by
  intro hself
  obtain ⟨s, q, hs, hq, hlt⟩ := wf.ancestor hself
  obtain rfl : s = q := Option.some.inj (hs.symm.trans hq)
  exact absurd hlt (lt_irrefl _)

theorem WellFormed.getBlock_calculateHash (wf : WellFormed c d) {a : Block}
    (htopo : a.header.topoIndex.toNat = d.blockCount)
    (hinj : ∀ h s, d.getBlock h = some s → c.sha256 (s.preimage c) = c.sha256 (a.preimage c) →
      s.preimage c = a.preimage c) :
    d.getBlock (a.calculateHash c) = none := by
  by_contra hne
  obtain ⟨s, hs⟩ := Option.ne_none_iff_exists'.mp hne
  obtain ⟨hkey, hcalc⟩ := wf.hash _ s hs
  have hpre := hinj _ s hs (hcalc.symm.trans hkey)
  have hsame := Block.topoIndex_eq_of_preimage_eq hpre
  have hlt := wf.topo_lt _ s hs
  rw [hsame, htopo] at hlt
  omega

theorem heightRank_commit {a : Block} (ha : d.getBlock a.hash = none) {p : BlockHash} {q : Block}
    (hq : d.getBlock p = some q) : (d.commit a).heightRank p = d.heightRank p := by
  rw [heightRank, heightRank, heightAt_eq hq, heightAt_eq (getBlock_commit_of_some ha hq)]

theorem Placed.commit {a s : Block} (h : d.Placed s) (ha : d.getBlock a.hash = none) :
    (d.commit a).Placed s := by
  refine ⟨?_, h.root, h.chainHeight, h.height_root, ?_, h.blueScore, h.height_le⟩
  · intro p hp
    obtain ⟨q, hq, hlt⟩ := h.parent p hp
    exact ⟨q, getBlock_commit_of_some ha hq, hlt⟩
  · intro hne
    obtain ⟨p, hmax, hsel, hh⟩ := h.height_child hne
    have hrank : ∀ y ∈ s.header.parentHashes, d.heightRank y = (d.commit a).heightRank y := by
      intro y hy
      obtain ⟨q, hq, -⟩ := h.parent y hy
      exact (heightRank_commit ha hq).symm
    exact ⟨p, hmax.congr hrank, hsel, by rw [← hrank p hmax.mem, hh]⟩

theorem parentHashes_eq_nil_iff {env : CallEnv} (acc : Accepts c env d b) :
    b.header.parentHashes = [] ↔ d.blockCount = 0 := by
  refine ⟨acc.root, fun h0 => List.eq_nil_iff_forall_not_mem.mpr fun p hp => ?_⟩
  obtain ⟨q, hq⟩ := acc.parents p hp
  exact blockCount_ne_zero hq h0

theorem placed_annotate {env : CallEnv} (wf : WellFormed c d) (acc : Accepts c env d b)
    (hc : d.blockCount + 1 < 2 ^ 64) : d.Placed (d.annotate c b) := by
  have htopo : (d.annotate c b).header.topoIndex.toNat = d.blockCount :=
    topoIndex_annotate (by omega)
  have hparent : ∀ p ∈ b.header.parentHashes, ∃ q, d.getBlock p = some q ∧
      q.header.topoIndex.toNat < (d.annotate c b).header.topoIndex.toNat := by
    intro p hp
    obtain ⟨q, hq⟩ := acc.parents p hp
    exact ⟨q, hq, by rw [htopo]; exact wf.topo_lt p q hq⟩
  have hroot := parentHashes_eq_nil_iff acc
  by_cases hne : b.header.parentHashes = []
  · have hch := chainHeight_annotate_root (c := c) (d := d) hne
    refine ⟨hparent, by rw [htopo]; exact hroot, rfl, fun _ => hch, fun h => absurd hne h, ?_, ?_⟩
    · rw [blueScore_annotate_root hne, height_annotate, hch]
      rfl
    · rw [height_annotate, hch]
      exact Nat.zero_le _
  · obtain ⟨p, hmax, hsel, hch, hbs⟩ := annotate_child wf hne acc.parents hc
    refine ⟨hparent, by rw [htopo]; exact hroot, rfl, fun h => absurd h hne,
      fun _ => ⟨p, hmax, hsel, hch⟩, ?_, ?_⟩
    · rw [height_annotate, hch, hbs]
    · obtain ⟨q, hq⟩ := acc.parents p hmax.mem
      have hlt := heightRank_lt wf hq
      rw [height_annotate, hch, htopo]
      omega

/-- An accepted block whose new hash is free keeps the DAG well formed. -/
theorem WellFormed.commit {env : CallEnv} (wf : WellFormed c d) (acc : Accepts c env d b)
    (hc : d.blockCount + 1 < 2 ^ 64) (hfree : d.getBlock (d.annotate c b).hash = none) :
    WellFormed c (d.commit (d.annotate c b)) := by
  have htopo : (d.annotate c b).header.topoIndex.toNat = d.blockCount :=
    topoIndex_annotate (by omega)
  have hcount := blockCount_commit hfree
  have hnew : ∀ h s, d.getBlock h = some s →
      s.header.topoIndex ≠ (d.annotate c b).header.topoIndex := by
    intro h s hs he
    have hlt := wf.topo_lt h s hs
    rw [he, htopo] at hlt
    omega
  refine ⟨?_, ?_, ?_, ?_, ?_⟩
  · intro h s hs
    rcases getBlock_commit_eq_some hs with ⟨rfl, rfl⟩ | hs
    · exact ⟨rfl, rfl⟩
    · exact wf.hash h s hs
  · intro h s hs
    rcases getBlock_commit_eq_some hs with ⟨-, rfl⟩ | hs
    · exact (placed_annotate wf acc hc).commit hfree
    · exact (wf.placed h s hs).commit hfree
  · intro h s hs
    rw [hcount]
    rcases getBlock_commit_eq_some hs with ⟨-, rfl⟩ | hs
    · omega
    · have := wf.topo_lt h s hs
      omega
  · intro h s h' s' hs hs' he
    rcases getBlock_commit_eq_some hs with ⟨rfl, rfl⟩ | hs
    · rcases getBlock_commit_eq_some hs' with ⟨rfl, -⟩ | hs'
      · rfl
      · exact absurd he.symm (hnew h' s' hs')
    · rcases getBlock_commit_eq_some hs' with ⟨-, rfl⟩ | hs'
      · exact absurd he (hnew h s hs)
      · exact wf.topo_inj h s h' s' hs hs' he
  · intro i hi
    rw [hcount] at hi
    by_cases hlast : i = d.blockCount
    · exact ⟨_, _, getBlock_commit_self _, by rw [htopo, hlast]⟩
    · obtain ⟨h, s, hs, ht⟩ := wf.topo_surj i (by omega)
      exact ⟨h, s, getBlock_commit_of_some hfree hs, ht⟩

end BlockDag

end CytahSpeed
