import CytahSpeed.FinalityEngine
import CytahSpeed.ProducerAnnotation

/-!
# Finality by position

On a well-formed DAG with an exact index the head score is the last position of the topological
order, so a successful `compute_finality` finalises exactly the blocks up to a threshold position.
Ancestors stand earlier, hence finalised sets are closed under ancestors. The threshold counts the
blocks listed behind a block, which need not be its descendants.
-/

namespace CytahSpeed
open ByteString FiniteMap MachineInt Selection

namespace FinalityEngine

variable {c : Crypto} {d : BlockDag} {e : FinalityEngine} {margin : UInt64 → UInt64}

/-- The last position that `compute_finality` finalises among that many blocks. -/
def lastFinal (e : FinalityEngine) (margin : UInt64 → UInt64) (count : ℕ) : ℕ :=
  (e.calculateFinalityThreshold margin (UInt64.ofNat (count - 1))).toNat

/-- The engine's records are those of the DAG: heights and positions of the stored blocks, and
nothing else. -/
structure Records (e : FinalityEngine) (d : BlockDag) : Prop where
  heights : ∀ h s, d.getBlock h = some s → e.blockHeights.lookup h = some s.height
  scores : ∀ h score, e.blockScores.lookup h = some score ↔
    (∃ s, d.getBlock h = some s) ∧ score = UInt64.ofNat (d.getTopologicalOrder.idxOf h)

theorem records_of_collect (h : BlockDag.Intact c d) {acc : Collected}
    (hacc : collect d 0 d.getOrdering ⟨[], ∅, ∅⟩ = .ok acc)
    (hheights : e.blockHeights = acc.heights) (hscores : e.blockScores = acc.scores) :
    e.Records d := by
  have hnodup : d.getOrdering.Nodup := h.nodup_order
  have hmem : ∀ hash, hash ∈ d.getOrdering ↔ ∃ s, d.getBlock hash = some s := h.mem_order
  have hlook := collect_ok hnodup hacc
  refine ⟨?_, ?_⟩
  · intro hash s hs
    rw [hheights, (hlook hash).1, if_pos ((hmem hash).mpr ⟨s, hs⟩),
      h.wellFormed.getBlockHeight_eq hs]
  · intro hash score
    rw [hscores, (hlook hash).2, ← hmem hash, Nat.zero_add]
    by_cases hin : hash ∈ d.getOrdering
    · rw [if_pos hin]
      exact ⟨fun he => ⟨hin, (Option.some.inj he).symm⟩, fun he => by rw [he.2]; rfl⟩
    · rw [if_neg hin, Finmap.lookup_empty]
      simp [hin]

section Position
variable (h : BlockDag.Intact c d) (hfits : d.blockCount < 2 ^ 64)
include h hfits

theorem toNat_position {hash : BlockHash} (hs : ∃ s, d.getBlock hash = some s) :
    (UInt64.ofNat (d.getTopologicalOrder.idxOf hash)).toNat =
      d.getTopologicalOrder.idxOf hash := by
  have hlt := List.idxOf_lt_length_of_mem ((h.mem_order hash).mpr hs)
  rw [h.length_order] at hlt
  exact toNat_ofNat_of_le (by simp only [u64Max]; omega)

theorem Records.headScore_eq (hrec : e.Records d) (hpos : 0 < d.blockCount) :
    e.headScore = UInt64.ofNat (d.blockCount - 1) := by
  have hlen := h.length_order
  obtain ⟨hle, heq⟩ := foldl_max_rank (fun x : BlockHash × UInt64 => x.2) UInt64.toNat max toNat_max
    0 rfl (sortedEntries e.blockScores)
  change (∀ x ∈ sortedEntries e.blockScores, x.2.toNat ≤ e.headScore.toNat) at hle
  change e.headScore.toNat = 0 ∨
    ∃ x ∈ sortedEntries e.blockScores, e.headScore.toNat = x.2.toNat at heq
  have hscore : ∀ x ∈ sortedEntries e.blockScores,
      x.2.toNat = d.getTopologicalOrder.idxOf x.1 ∧ ∃ s, d.getBlock x.1 = some s := by
    intro x hx
    obtain ⟨hs, hval⟩ := (hrec.scores x.1 x.2).mp
      (((enumerates_sortedEntries e.blockScores).2 x).mp hx)
    rw [hval, toNat_position h hfits hs]
    exact ⟨rfl, hs⟩
  -- the last block of the order attains the greatest position
  have hidx : d.blockCount - 1 < d.getTopologicalOrder.length := by omega
  have hlast : d.getTopologicalOrder.idxOf d.getTopologicalOrder[d.blockCount - 1] =
      d.blockCount - 1 := h.nodup_order.idxOf_getElem _ _
  have hstored := (h.mem_order _).mp (List.getElem_mem hidx)
  have hentry := (hrec.scores _ _).mpr ⟨hstored, rfl⟩
  have hge : (UInt64.ofNat (d.getTopologicalOrder.idxOf _)).toNat ≤ e.headScore.toNat :=
    hle _ (((enumerates_sortedEntries e.blockScores).2 (_, _)).mpr hentry)
  rw [toNat_position h hfits hstored, hlast] at hge
  apply UInt64.toNat_inj.mp
  rw [toNat_ofNat_of_le (by simp only [u64Max]; omega)]
  rcases heq with hzero | ⟨x, hx, he⟩
  · omega
  · obtain ⟨hval, hs⟩ := hscore x hx
    have hlt := List.idxOf_lt_length_of_mem ((h.mem_order x.1).mpr hs)
    omega

theorem computeFinality_ok (hok : (e.computeFinality d margin).1 = .ok ()) :
    (e.computeFinality d margin).2.Records d ∧
      ∀ hash, (e.computeFinality d margin).2.isFinalized hash = true ↔
        (∃ s, d.getBlock hash = some s) ∧
          d.getTopologicalOrder.idxOf hash ≤ e.lastFinal margin d.blockCount := by
  rcases computeFinality_cases e d margin with
    ⟨err, he, -⟩ | ⟨acc, e', hacc, hne, hc, hh, hs, hk, -⟩
  · rw [hok] at he
    cases he
  · have hrec := records_of_collect h hacc hh hs
    have hpos : 0 < d.blockCount := by
      rw [← h.length_order]
      exact List.length_pos_of_ne_nil hne
    rw [hc]
    refine ⟨⟨hrec.heights, hrec.scores⟩, ?_⟩
    intro hash
    have hthr : e'.calculateFinalityThreshold margin e'.headScore =
        e.calculateFinalityThreshold margin (UInt64.ofNat (d.blockCount - 1)) := by
      rw [hrec.headScore_eq h hfits hpos, calculateFinalityThreshold, calculateFinalityThreshold,
        hk]
    rw [isFinalized_calculate, hthr]
    constructor
    · rintro ⟨score, hl, hle⟩
      obtain ⟨hstored, rfl⟩ := (hrec.scores hash score).mp hl
      rw [UInt64.le_iff_toNat_le, toNat_position h hfits hstored] at hle
      exact ⟨hstored, hle⟩
    · rintro ⟨hstored, hle⟩
      refine ⟨_, (hrec.scores hash _).mpr ⟨hstored, rfl⟩, ?_⟩
      rw [UInt64.le_iff_toNat_le, toNat_position h hfits hstored]
      exact hle

end Position

section Succeeds

theorem collect_succeeds {ordering : List BlockHash}
    (hheight : ∀ hash ∈ ordering, ∃ height, d.getBlockHeight hash = some height) (index : ℕ)
    (acc : Collected) : ∃ acc', collect d index ordering acc = .ok acc' := by
  induction ordering generalizing index acc with
  | nil => exact ⟨acc, rfl⟩
  | cons first rest ih =>
    obtain ⟨height, hfirst⟩ := hheight first List.mem_cons_self
    simp only [collect, hfirst]
    exact ih (fun hash hmem => hheight hash (List.mem_cons_of_mem first hmem)) _ _

theorem getBlueScore_succeeds (e : FinalityEngine) {hash : BlockHash} {s : Block}
    (hs : d.getBlock hash = some s) : ∃ score, (e.getBlueScore d hash).1 = .ok score := by
  cases hl : e.blueScores.lookup hash with
  | some score => exact ⟨score, by simp only [getBlueScore, hl]⟩
  | none =>
    simp only [getBlueScore, hl, getBlueSet_eq hs]
    exact ⟨_, rfl⟩

theorem bestParentLoop_succeeds {parents : List BlockHash}
    (hstored : ∀ p ∈ parents, ∃ q, d.getBlock p = some q) (best : Option BlockHash × UInt64)
    (e : FinalityEngine) :
    ∃ best', (bestParentLoop d parents best e).1 = .ok best' ∧
      ∀ p, best'.1 = some p → p ∈ parents ∨ best.1 = some p := by
  induction parents generalizing best e with
  | nil => exact ⟨best, rfl, fun p hp => Or.inr hp⟩
  | cons parent rest ih =>
    obtain ⟨q, hq⟩ := hstored parent List.mem_cons_self
    obtain ⟨score, hscore⟩ := getBlueScore_succeeds e hq
    rw [bestParentLoop]
    cases hr : e.getBlueScore d parent with
    | mk result e' =>
      rw [hr] at hscore
      subst hscore
      obtain ⟨best', hloop, hfrom⟩ := ih (fun p hp => hstored p (List.mem_cons_of_mem parent hp))
        (if score > best.2 then (some parent, score) else best) e'
      refine ⟨best', hloop, fun p hp => ?_⟩
      rcases hfrom p hp with hmem | hbest
      · exact Or.inl (List.mem_cons_of_mem parent hmem)
      · by_cases hgt : score > best.2
        · rw [if_pos hgt] at hbest
          exact Or.inl (List.mem_cons.mpr (Or.inl (Option.some.inj hbest).symm))
        · rw [if_neg hgt] at hbest
          exact Or.inr hbest

theorem computeSingleVsp_succeeds (wf : BlockDag.WellFormed c d) (e : FinalityEngine)
    {hash : BlockHash} {s : Block} (hs : d.getBlock hash = some s) :
    ∃ vsp, (e.computeSingleVsp d hash).1 = .ok vsp := by
  have hparents : d.getBlockParents hash = some s.header.parentHashes := by
    rw [BlockDag.getBlockParents, hs, Option.map_some]
  have hstored := fun p hp => ((wf.placed hash s hs).parent p hp).imp fun _ hq => hq.1
  simp only [computeSingleVsp, hparents]
  generalize s.header.parentHashes = parents at hstored
  cases parents with
  | nil => exact ⟨_, rfl⟩
  | cons first rest =>
    obtain ⟨best, hloop, hfrom⟩ := bestParentLoop_succeeds hstored (none, 0) e
    have hselected : ∃ q, d.getBlock (best.1.getD first) = some q := by
      cases hbest : best.1 with
      | none => exact hstored first List.mem_cons_self
      | some p =>
        rcases hfrom p hbest with hmem | hnone
        · exact hstored p hmem
        · cases hnone
    obtain ⟨q, hq⟩ := hselected
    cases hr : bestParentLoop d (first :: rest) (none, 0) e with
    | mk result e' =>
      rw [hr] at hloop
      subst hloop
      simp only [hr, wf.getBlockHeight_eq hq]
      exact ⟨_, rfl⟩

theorem vspLoop_succeeds (wf : BlockDag.WellFormed c d) {hashes : List BlockHash}
    (hstored : ∀ h ∈ hashes, ∃ s, d.getBlock h = some s)
    (vspCache : Map BlockHash VirtualSelectedParent) (e : FinalityEngine) :
    ∃ vspCache', (vspLoop d hashes vspCache e).1 = .ok vspCache' := by
  induction hashes generalizing vspCache e with
  | nil => exact ⟨vspCache, rfl⟩
  | cons hash rest ih =>
    obtain ⟨s, hs⟩ := hstored hash List.mem_cons_self
    obtain ⟨vsp, hvsp⟩ := computeSingleVsp_succeeds wf e hs
    rw [vspLoop]
    cases hr : e.computeSingleVsp d hash with
    | mk result e' =>
      rw [hr] at hvsp
      subst hvsp
      exact ih (fun h hmem => hstored h (List.mem_cons_of_mem hash hmem)) _ _

theorem computeFinality_succeeds (h : BlockDag.Intact c d) (e : FinalityEngine)
    (margin : UInt64 → UInt64) :
    (e.computeFinality d margin).1 = .ok () ∨
      d.getTopologicalOrder = [] ∧
        e.computeFinality d margin = (.error "Empty DAG ordering", e) := by
  unfold computeFinality
  by_cases hempty : d.getOrdering = []
  · exact Or.inr ⟨hempty, by simp [hempty]⟩
  · have hne : d.getOrdering.isEmpty = false := by simpa using hempty
    have hheight : ∀ hash ∈ d.getOrdering, ∃ height, d.getBlockHeight hash = some height := by
      intro hash hmem
      obtain ⟨s, hs⟩ := (h.mem_order hash).mp hmem
      exact ⟨s.height, h.wellFormed.getBlockHeight_eq hs⟩
    obtain ⟨acc, hacc⟩ := collect_succeeds hheight 0 ⟨[], ∅, ∅⟩
    simp only [hne, Bool.false_eq_true, if_false, buildIntervalTree, hacc]
    generalize ({ e with
      intervalTree := some (IntervalTree.buildBalancedTree acc.nodes.length acc.nodes)
      blockHeights := acc.heights
      blockScores := acc.scores } : FinalityEngine) = built
    obtain ⟨vspCache, hvsp⟩ := vspLoop_succeeds h.wellFormed
      (fun hash hmem => (d.store.mem_getAllHashes hash).mp hmem) ∅ built
    left
    unfold computeVirtualSelectedParents
    cases hr : vspLoop d d.getAllBlockHashes ∅ built with
    | mk result e' =>
      rw [BlockDag.getAllBlockHashes] at hr
      rw [hr] at hvsp
      subst hvsp
      rfl

end Succeeds

/-- After a successful computation on a reachable DAG every ancestor of a finalised block is
finalised, and so is the block without parents. -/
theorem finalized_ancestor_closed (c : Crypto) (calls : List Call) (h : BlockDag.Sound c calls)
    (e : FinalityEngine) (margin : UInt64 → UInt64)
    (hok : (e.computeFinality (BlockDag.run c calls) margin).1 = .ok ()) :
    (∀ hash a, (e.computeFinality (BlockDag.run c calls) margin).2.isFinalized hash = true →
      a ∈ (BlockDag.run c calls).getAncestors hash →
        (e.computeFinality (BlockDag.run c calls) margin).2.isFinalized a = true) ∧
    ∀ g s, (BlockDag.run c calls).getBlock g = some s → s.header.parentHashes = [] →
      (e.computeFinality (BlockDag.run c calls) margin).2.isFinalized g = true := by
  have hint := h.intact
  obtain ⟨-, hfin⟩ := computeFinality_ok hint h.fits hok
  refine ⟨?_, ?_⟩
  · intro hash a hhash ha
    have hpos := ((hfin hash).mp hhash).2
    have hlt := hint.idxOf_ancestor_lt ha
    obtain ⟨-, q, -, hq, -⟩ := hint.wellFormed.ancestor ha
    exact (hfin a).mpr ⟨⟨q, hq⟩, by omega⟩
  · intro g s hs hnil
    refine (hfin g).mpr ⟨⟨s, hs⟩, ?_⟩
    rw [hint.idxOf_root hs hnil]
    exact Nat.zero_le _

/-- A finalised block other than the one without parents is followed in the order by at least `k`
blocks, each of them a descendant of it or parallel to it. -/
theorem finalized_followed (c : Crypto) (calls : List Call) (h : BlockDag.Sound c calls)
    (e : FinalityEngine) (margin : UInt64 → UInt64)
    (hok : (e.computeFinality (BlockDag.run c calls) margin).1 = .ok ()) (hash : BlockHash)
    (s : Block) (hs : (BlockDag.run c calls).getBlock hash = some s)
    (hne : s.header.parentHashes ≠ [])
    (hfinal : (e.computeFinality (BlockDag.run c calls) margin).2.isFinalized hash = true) :
    e.k.toNat ≤ ((BlockDag.run c calls).getTopologicalOrder.drop
        ((BlockDag.run c calls).getTopologicalOrder.idxOf hash + 1)).length ∧
      ∀ x ∈ (BlockDag.run c calls).getTopologicalOrder.drop
        ((BlockDag.run c calls).getTopologicalOrder.idxOf hash + 1),
        hash ∈ (BlockDag.run c calls).getAncestors x ∨ (BlockDag.run c calls).Parallel hash x := by
  have hint := h.intact
  have hfits := h.fits
  generalize BlockDag.run c calls = d at *
  obtain ⟨-, hle⟩ := ((computeFinality_ok hint hfits hok).2 hash).mp hfinal
  have hlen := hint.length_order
  have hlt := List.idxOf_lt_length_of_mem ((hint.mem_order hash).mpr ⟨s, hs⟩)
  constructor
  · -- a block with parents is not first, so the threshold did not saturate at zero
    have hpos : 0 < d.getTopologicalOrder.idxOf hash := by
      obtain ⟨p, hp⟩ := List.exists_mem_of_ne_nil _ hne
      exact Nat.zero_lt_of_lt (hint.idxOf_parent_lt (by rwa [d.store.parentsOf_eq hs]))
    rw [lastFinal, calculateFinalityThreshold, toNat_satSub, toNat_satSub,
      toNat_ofNat_of_le (by simp only [u64Max]; omega)] at hle
    rw [List.length_drop]
    omega
  · intro x hx
    obtain ⟨i, hi, rfl⟩ := List.getElem_of_mem hx
    rw [List.length_drop] at hi
    rw [List.getElem_drop]
    have hidx := hint.nodup_order.idxOf_getElem
      (d.getTopologicalOrder.idxOf hash + 1 + i) (by omega)
    by_cases hdesc : hash ∈ d.getAncestors
        d.getTopologicalOrder[d.getTopologicalOrder.idxOf hash + 1 + i]
    · exact Or.inl hdesc
    · refine Or.inr ⟨?_, hdesc, ?_⟩
      · intro he
        rw [← he] at hidx
        omega
      · intro hanc
        have := hint.idxOf_ancestor_lt hanc
        omega

/-- The safety margin read as a tenth of the head score, rounded down. -/
def tenth (headScore : UInt64) : UInt64 := headScore / 10

section Sample
open BlockDag

def sampleFinality : Except String Unit × FinalityEngine :=
  (newWithK 2 1).computeFinality (run .hashOnly sampleFork) tenth

set_option maxRecDepth 20000 in
theorem sampleFork_finality :
    sampleFinality.1 = .ok () ∧ sampleFinality.2.isFinalized sampleTips.1 = true ∧
      (run .hashOnly sampleFork).getTopologicalOrder = [sampleRoot, sampleTips.1, sampleTips.2] ∧
      (run .hashOnly sampleFork).getTopologicalOrder.idxOf sampleTips.1 <
        (run .hashOnly sampleFork).getTopologicalOrder.idxOf sampleTips.2 := by
  unfold sampleFinality sampleFork sampleChild sampleRoot
  rw [Crypto.hashOnly_eq_strict]
  decide +kernel

-- memberships in concrete pasts are passed on, not computed again
attribute [local irreducible] BlockDag.getAncestors

theorem finalized_ancestor_closed_sample :
    sampleFinality.2.isFinalized sampleTips.1 = true ∧
      sampleFinality.2.isFinalized sampleRoot = true := by
  obtain ⟨hok, hfinal, -⟩ := sampleFork_finality
  obtain ⟨hsound, -, -, -, hroot, -⟩ := sampleFork_evaluated
  obtain ⟨hclosed, -⟩ :=
    finalized_ancestor_closed .hashOnly sampleFork hsound (newWithK 2 1) tenth hok
  exact ⟨hfinal, hclosed sampleTips.1 sampleRoot hfinal hroot⟩

theorem finalized_followed_sample :
    sampleFinality.2.isFinalized sampleTips.1 = true ∧
      1 ≤ ((run .hashOnly sampleFork).getTopologicalOrder.drop
        ((run .hashOnly sampleFork).getTopologicalOrder.idxOf sampleTips.1 + 1)).length := by
  obtain ⟨hok, hfinal, -⟩ := sampleFork_finality
  obtain ⟨hsound, -, -, hparents, -⟩ := sampleFork_evaluated
  obtain ⟨s, hs, hp⟩ := Option.map_eq_some_iff.mp hparents
  exact ⟨hfinal, (finalized_followed .hashOnly sampleFork hsound (newWithK 2 1) tenth hok
    sampleTips.1 s hs (by rw [hp]; exact List.cons_ne_nil _ _) hfinal).1⟩

/-- The child that came first is finalised with `k = 1`, and nothing descends from it. -/
theorem finalized_without_descendants :
    Sound .hashOnly sampleFork ∧
      ((newWithK 2 1).computeFinality (run .hashOnly sampleFork) tenth).1 = .ok () ∧
      ((newWithK 2 1).computeFinality (run .hashOnly sampleFork) tenth).2.isFinalized
        sampleTips.1 = true ∧
      (∃ s, (run .hashOnly sampleFork).getBlock sampleTips.1 = some s ∧
        s.header.parentHashes ≠ []) ∧
      ∀ x s, (run .hashOnly sampleFork).getBlock x = some s →
        sampleTips.1 ∉ (run .hashOnly sampleFork).getAncestors x := by
  obtain ⟨hok, hfinal, -⟩ := sampleFork_finality
  obtain ⟨hsound, -, -, hparents, -, hdesc⟩ := sampleFork_evaluated
  obtain ⟨s, hs, hp⟩ := Option.map_eq_some_iff.mp hparents
  refine ⟨hsound, hok, hfinal, ⟨s, hs, by rw [hp]; exact List.cons_ne_nil _ _⟩, ?_⟩
  intro x s hx
  simpa using List.all_eq_true.mp hdesc x ((BlockStore.mem_getAllHashes _ x).mpr ⟨s, hx⟩)

end Sample

end FinalityEngine

end CytahSpeed
