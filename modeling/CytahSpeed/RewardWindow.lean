import CytahSpeed.BlockProducer
import CytahSpeed.ProducerAnnotation
import CytahSpeed.TopologicalOrder

/-!
# The window of recent timestamps

The reward of a block depends on the timestamps along the selected parents of one tip. The walk
is meant to start "from the highest-tip block" and starts from whichever tip the hash set yields
first, so nodes with the same blocks may see different windows. `TipsAgree` is the exact condition
for one canonical window: the timestamps along the selected parents of all tips agree within the
window.
-/

namespace CytahSpeed
open ByteString FiniteMap MachineInt

namespace BlockDag

variable (d : BlockDag)

def selectedChain : ℕ → BlockHash → List Block
  | 0, _ => []
  | n + 1, h =>
    match d.getBlock h with
    | none => []
    | some s =>
      s ::
        match s.header.selectedParent with
        | none => []
        | some p => selectedChain n p

def selectedAncestor : ℕ → BlockHash → Option Block
  | 0, h => d.getBlock h
  | i + 1, h => (d.getBlock h).bind fun s => s.header.selectedParent.bind (selectedAncestor i)

def selectedTimestamp (i : ℕ) (h : BlockHash) : Option UInt64 :=
  (d.selectedAncestor i h).map (·.header.timestamp)

/-- A tip of maximal chain height. -/
def HighestTip (t : BlockHash) : Prop :=
  t ∈ d.getTips ∧ ∃ s, d.getBlock t = some s ∧ ∀ t' ∈ d.getTips, ∀ s', d.getBlock t' = some s' →
    s'.header.chainHeight ≤ s.header.chainHeight

/-- Whatever order the tips are iterated in, the window is that of a highest tip, and it is the
same for all orders. -/
def CanonicalWindow (max : ℕ) : Prop :=
  (∀ tips : SetOrder BlockHash, d.getTips.Nonempty → ∃ t, d.HighestTip t ∧
    d.getRecentTimestamps tips max =
      ((d.selectedChain max t).map (·.header.timestamp)).reverse) ∧
  ∀ tips tips' : SetOrder BlockHash,
    d.getRecentTimestamps tips max = d.getRecentTimestamps tips' max

/-- Within the window the selected parents of all tips carry the same timestamps. -/
def TipsAgree (max : ℕ) : Prop :=
  ∀ t ∈ d.getTips, ∀ t' ∈ d.getTips, ∀ i < max, d.selectedTimestamp i t = d.selectedTimestamp i t'

variable {c : Crypto} {d}

theorem walkTimestamps_eq (max : ℕ) {h : BlockHash} {s : Block} (hs : d.getBlock h = some s) :
    d.walkTimestamps max s = (d.selectedChain max h).map (·.header.timestamp) := by
  induction max generalizing h s with
  | zero => rfl
  | succ max ih =>
    simp only [walkTimestamps, selectedChain, hs, List.map_cons]
    cases s.header.selectedParent with
    | none => rfl
    | some p =>
      cases hq : d.getBlock p with
      | none => cases max <;> simp [selectedChain, hq]
      | some q => simp only [hq, ih hq]

theorem getElem?_selectedChain (n i : ℕ) (h : BlockHash) :
    (d.selectedChain n h)[i]? = if i < n then d.selectedAncestor i h else none := by
  induction n generalizing i h with
  | zero => rfl
  | succ n ih =>
    cases hs : d.getBlock h with
    | none => cases i <;> simp [selectedChain, selectedAncestor, hs]
    | some s =>
      cases i with
      | zero => simp [selectedChain, selectedAncestor, hs]
      | succ i =>
        cases hp : s.header.selectedParent with
        | none => simp [selectedChain, selectedAncestor, hs, hp]
        | some p => simp [selectedChain, selectedAncestor, hs, hp, ih]

theorem window_eq_iff {max : ℕ} {t t' : BlockHash} :
    (d.selectedChain max t).map (·.header.timestamp) =
        (d.selectedChain max t').map (·.header.timestamp) ↔
      ∀ i < max, d.selectedTimestamp i t = d.selectedTimestamp i t' := by
  rw [List.ext_getElem?_iff]
  refine forall_congr' fun i => ?_
  rw [List.getElem?_map, List.getElem?_map, getElem?_selectedChain, getElem?_selectedChain]
  by_cases hi : i < max
  · simp only [hi, forall_const]
    rfl
  · simp [hi]

namespace Intact

variable (h : Intact c d)
include h

theorem stored_of_mem_tips {t : BlockHash} (ht : t ∈ d.getTips) : ∃ s, d.getBlock t = some s :=
  ((h.indexes.tips t).mp ht).1

theorem getRecentTimestamps_eq (tips : SetOrder BlockHash) (max : ℕ) :
    d.getRecentTimestamps tips max =
      match (tips.iter d.getTips).head? with
      | none => []
      | some t => ((d.selectedChain max t).map (·.header.timestamp)).reverse := by
  have hmem : ∀ t ∈ tips.iter d.getTips, t ∈ d.getTips := by
    intro t ht
    rwa [← Multiset.mem_coe, tips.coe_iter, Finset.mem_val] at ht
  rw [getRecentTimestamps, getTipBlocks]
  cases hl : tips.iter d.getTips with
  | nil => rfl
  | cons t l =>
    obtain ⟨s, hs⟩ := h.stored_of_mem_tips (hmem t (by rw [hl]; exact List.mem_cons_self))
    rw [List.filterMap_cons_some hs]
    exact congrArg List.reverse (walkTimestamps_eq max hs)

omit h in
theorem head?_iter_startingAt (tips : SetOrder BlockHash) {t : BlockHash} (ht : t ∈ d.getTips) :
    ((tips.startingAt t).iter d.getTips).head? = some t := by
  simp [SetOrder.startingAt, ht]

theorem exists_highestTip (hne : d.getTips.Nonempty) : ∃ t, d.HighestTip t := by
  obtain ⟨t, ht, hmax⟩ := d.getTips.exists_max_image d.heightRank hne
  obtain ⟨s, hs⟩ := h.stored_of_mem_tips ht
  refine ⟨t, ht, s, hs, fun t' ht' s' hs' => ?_⟩
  have hle := hmax t' ht'
  rw [heightRank, heightRank, heightAt_eq hs, heightAt_eq hs'] at hle
  rw [(h.wellFormed.placed t s hs).chainHeight, (h.wellFormed.placed t' s' hs').chainHeight,
    UInt64.le_iff_toNat_le]
  exact hle

theorem canonicalWindow_iff_tipsAgree (max : ℕ) : d.CanonicalWindow max ↔ d.TipsAgree max := by
  constructor
  · rintro ⟨-, hsame⟩ t ht t' ht'
    have heq := hsame (SetOrder.sorted.startingAt t) (SetOrder.sorted.startingAt t')
    rw [h.getRecentTimestamps_eq, h.getRecentTimestamps_eq, head?_iter_startingAt _ ht,
      head?_iter_startingAt _ ht'] at heq
    exact window_eq_iff.mp (List.reverse_inj.mp heq)
  · intro hagree
    have hwindow : ∀ t ∈ d.getTips, ∀ tips : SetOrder BlockHash,
        d.getRecentTimestamps tips max =
          ((d.selectedChain max t).map (·.header.timestamp)).reverse := by
      intro t ht tips
      have hfirst : (tips.iter d.getTips).head? ≠ none := by
        intro hnil
        rw [List.head?_eq_none_iff] at hnil
        rw [← Finset.mem_val, ← tips.coe_iter, hnil] at ht
        exact absurd ht (Multiset.notMem_zero t)
      obtain ⟨t', ht'⟩ := Option.ne_none_iff_exists'.mp hfirst
      have hmem : t' ∈ d.getTips := by
        rw [← Finset.mem_val, ← tips.coe_iter]
        exact List.mem_of_mem_head? ht'
      rw [h.getRecentTimestamps_eq, ht']
      exact congrArg List.reverse (window_eq_iff.mpr (hagree t' hmem t ht))
    constructor
    · intro tips hne
      obtain ⟨t, ht⟩ := h.exists_highestTip hne
      exact ⟨t, ht, hwindow t ht.1 tips⟩
    · intro tips tips'
      rcases d.getTips.eq_empty_or_nonempty with hempty | ⟨t, ht⟩
      · have hnil : ∀ o : SetOrder BlockHash, o.iter d.getTips = [] := by
          intro o
          rw [← Multiset.coe_eq_zero, o.coe_iter, hempty]
          rfl
        rw [h.getRecentTimestamps_eq, h.getRecentTimestamps_eq, hnil, hnil]
      · rw [hwindow t ht tips, hwindow t ht tips']

end Intact

/-- After any sound run the window of the given length is canonical exactly if all tips agree
on it. -/
theorem canonicalWindow_iff (c : Crypto) (calls : List Call) (h : Sound c calls) (max : ℕ) :
    (run c calls).CanonicalWindow max ↔ (run c calls).TipsAgree max :=
  h.intact.canonicalWindow_iff_tipsAgree max

theorem tipsAgree_of_card_le_one (hcard : d.getTips.card ≤ 1) (max : ℕ) : d.TipsAgree max := by
  intro t ht t' ht' i _
  rw [Finset.card_le_one.mp hcard t ht t' ht']

theorem canonicalWindow_sample :
    (run .hashOnly sampleCalls).CanonicalWindow activityWindowSize := by
  refine (canonicalWindow_iff .hashOnly sampleCalls sampleCalls_evaluated.1 _).mpr
    (tipsAgree_of_card_le_one ?_ _)
  rw [sampleCalls_index.1, Finset.card_singleton]

section Sample

def sampleUneven : List Call :=
  sampleFork ++ [.insertBlock sampleEnv
    (Block.new .hashOnly [sampleTips.1] 1003 [] 0 0 0 (Bytes.zero 20) (Bytes.zero 32))]

def sampleHighest : BlockHash :=
  ((run .hashOnly sampleFork).annotate .hashOnly
    (Block.new .hashOnly [sampleTips.1] 1003 [] 0 0 0 (Bytes.zero 20) (Bytes.zero 32))).hash

set_option maxRecDepth 20000 in
theorem sampleUneven_windows :
    Sound .hashOnly sampleUneven ∧
      (run .hashOnly sampleUneven).getTips = {sampleTips.2, sampleHighest} ∧
      (run .hashOnly sampleUneven).getRecentTimestamps (SetOrder.sorted.startingAt sampleTips.2)
        activityWindowSize = [1000, 1002] ∧
      (run .hashOnly sampleUneven).getRecentTimestamps (SetOrder.sorted.startingAt sampleHighest)
        activityWindowSize = [1000, 1001, 1003] := by
  unfold sampleUneven sampleHighest sampleFork sampleChild sampleRoot
  rw [Crypto.hashOnly_eq_strict]
  decide +kernel

/-- The window of a DAG with two tips is that of the lower tip if the iteration yields it first. -/
theorem window_of_lower_tip :
    Sound .hashOnly sampleUneven ∧
      (run .hashOnly sampleUneven).getRecentTimestamps (SetOrder.sorted.startingAt sampleTips.2)
        activityWindowSize = [1000, 1002] ∧
      (run .hashOnly sampleUneven).getRecentTimestamps (SetOrder.sorted.startingAt sampleHighest)
        activityWindowSize = [1000, 1001, 1003] ∧
      ¬ (run .hashOnly sampleUneven).CanonicalWindow activityWindowSize := by
  obtain ⟨hsound, -, hlow, hhigh⟩ := sampleUneven_windows
  refine ⟨hsound, hlow, hhigh, fun hcanonical => ?_⟩
  have hsame := hcanonical.2 (SetOrder.sorted.startingAt sampleTips.2)
    (SetOrder.sorted.startingAt sampleHighest)
  rw [hlow, hhigh] at hsame
  cases hsame

end Sample

end BlockDag

end CytahSpeed
