import CytahSpeed.Finality
import CytahSpeed.StepRun

/-!
# When finality is irrevocable

A block inserted later keeps the order of the others, but it may be listed before some of them.
Every block behind it moves up by one, and the threshold does not move with them when the margin
takes the new position. A finalised block stays finalised in every run whose insertions are listed
behind the threshold or raise it (`Keeps`); an insertion that does neither revokes the block at
the threshold.
-/

namespace CytahSpeed
open ByteString FiniteMap MachineInt

namespace FinalityEngine

variable {c : Crypto} {d : BlockDag} {e : FinalityEngine} {b : Block}

/-- What an insertion must do for the finalised blocks to stay below the threshold: meet an empty
DAG, be listed behind the last finalised position, or raise it. -/
def Keeps (e : FinalityEngine) (d : BlockDag) (b : Block) : Prop :=
  d.blockCount = 0 ∨
    e.lastFinal tenth d.blockCount < (d.listedBefore b.header.parentHashes).length ∨
      e.lastFinal tenth d.blockCount < e.lastFinal tenth (d.blockCount + 1)

instance (e : FinalityEngine) (d : BlockDag) (b : Block) : Decidable (e.Keeps d b) := by
  unfold Keeps
  infer_instance

theorem lastFinal_tenth (e : FinalityEngine) {count : ℕ} (hcount : count < 2 ^ 64) :
    e.lastFinal tenth count = (count - 1 - e.k.toNat) - (count - 1) / 10 := by
  rw [lastFinal, calculateFinalityThreshold, toNat_satSub, toNat_satSub, tenth, UInt64.toNat_div,
    toNat_ofNat_of_le (by simp only [u64Max]; omega)]
  rfl

theorem lastFinal_le_succ (e : FinalityEngine) {count : ℕ} (hcount : count + 1 < 2 ^ 64) :
    e.lastFinal tenth count ≤ e.lastFinal tenth (count + 1) := by
  rw [e.lastFinal_tenth hcount, e.lastFinal_tenth (by omega)]
  omega

theorem lastFinal_congr {e e' : FinalityEngine} (hk : e.k = e'.k) (margin : UInt64 → UInt64)
    (count : ℕ) : e.lastFinal margin count = e'.lastFinal margin count := by
  rw [lastFinal, lastFinal, calculateFinalityThreshold, calculateFinalityThreshold, hk]

theorem k_computeFinality (e : FinalityEngine) (d : BlockDag) (margin : UInt64 → UInt64) :
    (e.computeFinality d margin).2.k = e.k := by
  rcases computeFinality_cases e d margin with ⟨_, -, -, hk⟩ | ⟨_, _, -, -, hc, -, -, hk, -⟩
  · exact hk
  · rw [hc]
    exact hk

/-- Everything marked as finalised stands at or below the threshold of the DAG as it is now. -/
def Current (e : FinalityEngine) (d : BlockDag) : Prop :=
  ∀ hash, e.isFinalized hash = true →
    (∃ s, d.getBlock hash = some s) ∧
      d.getTopologicalOrder.idxOf hash ≤ e.lastFinal tenth d.blockCount

section Insert
variable {env : CallEnv} (h : BlockDag.Intact c d) (acc : BlockDag.Accepts c env d b)
  (hfits : d.blockCount + 1 < 2 ^ 64) (hfree : d.getBlock (d.annotate c b).hash = none)
include h acc hfits hfree

/-- A stored block keeps its position if the new one is listed behind it, else it moves up. -/
theorem idxOf_commit (hpos : d.blockCount ≠ 0) {hash : BlockHash}
    (hs : ∃ s, d.getBlock hash = some s) :
    (d.commit (d.annotate c b)).getTopologicalOrder.idxOf hash =
      if d.getTopologicalOrder.idxOf hash < (d.listedBefore b.header.parentHashes).length
      then d.getTopologicalOrder.idxOf hash
      else d.getTopologicalOrder.idxOf hash + 1 := by
  have hne : b.header.parentHashes ≠ [] := fun hnil => hpos (acc.root hnil)
  obtain ⟨rest, h₁, h₂⟩ := h.order_commit (h.commit acc hfits hfree) hfree acc.parents hne
  have hnew : (d.annotate c b).hash ≠ hash := by
    rintro rfl
    obtain ⟨s, hs⟩ := hs
    rw [hfree] at hs
    cases hs
  change d.getTopologicalOrder = d.listedBefore b.header.parentHashes ++ rest at h₁
  change (d.commit (d.annotate c b)).getTopologicalOrder =
    d.listedBefore b.header.parentHashes ++ (d.annotate c b).hash :: rest at h₂
  rw [h₂]
  by_cases hmem : hash ∈ d.listedBefore b.header.parentHashes
  · have hidx : d.getTopologicalOrder.idxOf hash =
        (d.listedBefore b.header.parentHashes).idxOf hash := by
      conv_lhs => rw [h₁]
      exact List.idxOf_append_of_mem hmem
    rw [List.idxOf_append_of_mem hmem, hidx, if_pos (List.idxOf_lt_length_of_mem hmem)]
  · have hidx : d.getTopologicalOrder.idxOf hash =
        (d.listedBefore b.header.parentHashes).length + rest.idxOf hash := by
      conv_lhs => rw [h₁]
      exact List.idxOf_append_of_notMem hmem
    rw [List.idxOf_append_of_notMem hmem, List.idxOf_cons_ne _ hnew, hidx, if_neg (by omega)]
    omega

theorem Current.commit (hcur : e.Current d) (hkeeps : e.Keeps d b) :
    e.Current (d.commit (d.annotate c b)) := by
  intro hash hfinal
  obtain ⟨⟨s, hs⟩, hle⟩ := hcur hash hfinal
  have hpos : d.blockCount ≠ 0 := BlockDag.blockCount_ne_zero hs
  refine ⟨⟨s, BlockDag.getBlock_commit_of_some hfree hs⟩, ?_⟩
  rw [idxOf_commit h acc hfits hfree hpos ⟨s, hs⟩, BlockDag.blockCount_commit hfree]
  have hmono := e.lastFinal_le_succ hfits
  rcases hkeeps with hzero | hbehind | hraise
  · exact absurd hzero hpos
  · rw [if_pos (by omega)]
    omega
  · split_ifs <;> omega

theorem keeps_iff (hok : (e.computeFinality d tenth).1 = .ok ())
    (hok' : ((e.computeFinality d tenth).2.computeFinality (d.commit (d.annotate c b)) tenth).1 =
      .ok ()) :
    (∀ hash, (e.computeFinality d tenth).2.isFinalized hash = true →
      ((e.computeFinality d tenth).2.computeFinality
        (d.commit (d.annotate c b)) tenth).2.isFinalized hash = true) ↔ e.Keeps d b := by
  have h' := h.commit acc hfits hfree
  have hcount : (d.commit (d.annotate c b)).blockCount = d.blockCount + 1 :=
    BlockDag.blockCount_commit hfree
  obtain ⟨-, hfin⟩ := computeFinality_ok h (by omega) hok
  obtain ⟨-, hfin'⟩ := computeFinality_ok h' (by omega) hok'
  have hsame := lastFinal_congr (k_computeFinality e d tenth) tenth
  simp only [hsame, hcount] at hfin'
  constructor
  · intro hkept
    by_contra hnot
    simp only [Keeps, not_or, not_lt] at hnot
    obtain ⟨hpos, hlist, hraise⟩ := hnot
    -- the block at the threshold moves up and the threshold does not
    have hlt : e.lastFinal tenth d.blockCount < d.getTopologicalOrder.length := by
      rw [h.length_order, e.lastFinal_tenth (by omega)]
      omega
    have hidx := h.nodup_order.idxOf_getElem _ hlt
    have hstored := (h.mem_order _).mp (List.getElem_mem hlt)
    have hmoved := ((hfin' _).mp (hkept _ ((hfin _).mpr ⟨hstored, hidx.le⟩))).2
    rw [idxOf_commit h acc hfits hfree hpos hstored, hidx, if_neg (by omega)] at hmoved
    omega
  · intro hkeeps hash hfinal
    have hcur : (e.computeFinality d tenth).2.Current d := by
      intro x hx
      rw [hsame]
      exact (hfin x).mp hx
    have hkeeps' : (e.computeFinality d tenth).2.Keeps d b := by
      simpa only [Keeps, hsame] using hkeeps
    have hnext := Current.commit h acc hfits hfree hcur hkeeps' hash hfinal
    rw [hsame, hcount] at hnext
    exact (hfin' hash).mpr hnext

end Insert

theorem Current.computeFinality (hcur : e.Current d) (h : BlockDag.Intact c d)
    (hfits : d.blockCount < 2 ^ 64) :
    (e.computeFinality d tenth).2.Current d ∧
      ∀ hash, e.isFinalized hash = true →
        (e.computeFinality d tenth).2.isFinalized hash = true := by
  have hsame := lastFinal_congr (k_computeFinality e d tenth) tenth
  rcases computeFinality_cases e d tenth with ⟨err, -, hblocks, -⟩ | ⟨_, _, -, -, hc, -⟩
  · have hfin : ∀ hash, (e.computeFinality d tenth).2.isFinalized hash = e.isFinalized hash := by
      intro hash
      rw [isFinalized, isFinalized, hblocks]
    refine ⟨?_, fun hash hfinal => by rw [hfin, hfinal]⟩
    intro hash hfinal
    rw [hsame]
    exact hcur hash (by rw [← hfin, hfinal])
  · have hok : (e.computeFinality d tenth).1 = .ok () := by rw [hc]; rfl
    obtain ⟨-, hfin⟩ := computeFinality_ok h hfits hok
    refine ⟨?_, fun hash hfinal => (hfin hash).mpr (hcur hash hfinal)⟩
    intro hash hfinal
    rw [hsame]
    exact (hfin hash).mp hfinal

end FinalityEngine

/-- The calls of a run: insertions, and computations of finality on the DAG they grow. -/
inductive FinalityCall
  | insertBlock (env : CallEnv) (b : Block)
  | computeFinality

structure FinalityState where
  dag : BlockDag
  engine : FinalityEngine

namespace FinalityState

variable (c : Crypto)

def start (confirmationDepth : ℕ) (k : UInt64) : FinalityState :=
  ⟨.empty, .newWithK confirmationDepth k⟩

def exec (s : FinalityState) : FinalityCall → FinalityState
  | .insertBlock env b => ⟨(s.dag.insertBlock c env b).2, s.engine⟩
  | .computeFinality => ⟨s.dag, (s.engine.computeFinality s.dag FinalityEngine.tenth).2⟩

def run (s : FinalityState) (calls : List FinalityCall) : FinalityState := calls.foldl (exec c) s

def dagCalls (calls : List FinalityCall) : List Call :=
  calls.filterMap fun
    | .insertBlock env b => some (.insertBlock env b)
    | .computeFinality => none

def Keeps (s : FinalityState) : List FinalityCall → Prop
  | [] => True
  | .insertBlock env b :: calls =>
    ((s.dag.insertBlock c env b).1 = .ok () → s.engine.Keeps s.dag b) ∧
      Keeps (s.exec c (.insertBlock env b)) calls
  | .computeFinality :: calls => Keeps (s.exec c .computeFinality) calls

instance decidableKeeps (s : FinalityState) (calls : List FinalityCall) :
    Decidable (s.Keeps c calls) :=
  match calls with
  | [] => isTrue trivial
  | .insertBlock env b :: calls =>
    have := decidableKeeps (s.exec c (.insertBlock env b)) calls
    inferInstanceAs (Decidable (_ ∧ _))
  | .computeFinality :: calls => decidableKeeps (s.exec c .computeFinality) calls

variable {c}

theorem run_append (s : FinalityState) (xs ys : List FinalityCall) :
    s.run c (xs ++ ys) = (s.run c xs).run c ys := List.foldl_append

theorem dag_run (s : FinalityState) (calls : List FinalityCall) :
    (s.run c calls).dag = BlockDag.runFrom c s.dag (dagCalls calls) := by
  refine StepRun.proj_foldl dag _ (BlockDag.exec c) (fun s call => ?_) s calls
  cases call with
  | insertBlock env b => rfl
  | computeFinality => rfl

theorem keeps_append {s : FinalityState} {xs ys : List FinalityCall} :
    s.Keeps c (xs ++ ys) ↔ s.Keeps c xs ∧ (s.run c xs).Keeps c ys := by
  induction xs generalizing s with
  | nil => simp [Keeps, run]
  | cons call xs ih =>
    cases call with
    | insertBlock env b =>
      rw [List.cons_append, Keeps, Keeps, ih, and_assoc]
      rfl
    | computeFinality =>
      rw [List.cons_append, Keeps, Keeps, ih]
      rfl

theorem current_exec {before : List FinalityCall} {call : FinalityCall} {confirmationDepth : ℕ}
    {k : UInt64} {s : FinalityState} (hs : s = (start confirmationDepth k).run c before)
    (hsound : BlockDag.Sound c (dagCalls (before ++ [call]))) (hkeeps : s.Keeps c [call])
    (hcur : s.engine.Current s.dag) :
    (s.exec c call).engine.Current (s.exec c call).dag ∧
      ∀ hash, s.engine.isFinalized hash = true →
        (s.exec c call).engine.isFinalized hash = true := by
  have hdag : s.dag = BlockDag.run c (dagCalls before) := by
    rw [hs]
    exact dag_run _ _
  have hsplit : dagCalls (before ++ [call]) = dagCalls before ++ dagCalls [call] :=
    List.filterMap_append
  rw [hsplit] at hsound
  have hbefore := hsound.append_left
  have hint : BlockDag.Intact c s.dag := hdag ▸ hbefore.intact
  have hfits : s.dag.blockCount < 2 ^ 64 := hdag ▸ hbefore.fits
  cases call with
  | insertBlock env b =>
    refine ⟨?_, fun hash hfinal => hfinal⟩
    change s.engine.Current (s.dag.insertBlock c env b).2
    rcases BlockDag.insertBlock_cases c env s.dag b with ⟨acc, he⟩ | ⟨-, e, he⟩
    · have hsound' : BlockDag.Sound c (dagCalls before ++ [.insertBlock env b]) := hsound
      have last := hsound'.lastInsert (by rwa [← hdag])
      rw [← hdag] at last
      rw [he]
      exact FinalityEngine.Current.commit hint acc last.fits last.free hcur
        (hkeeps.1 (by rw [he]))
    · rw [he]
      exact hcur
  | computeFinality => exact hcur.computeFinality hint hfits

theorem dagCalls_append (xs ys : List FinalityCall) :
    dagCalls (xs ++ ys) = dagCalls xs ++ dagCalls ys := List.filterMap_append

theorem current_run {confirmationDepth : ℕ} {k : UInt64} (calls : List FinalityCall)
    (hsound : BlockDag.Sound c (dagCalls calls))
    (hkeeps : (start confirmationDepth k).Keeps c calls) :
    ((start confirmationDepth k).run c calls).engine.Current
      ((start confirmationDepth k).run c calls).dag := by
  induction calls using List.reverseRecOn with
  | nil =>
    intro hash hfinal
    obtain ⟨height, hmem⟩ := (FinalityEngine.isFinalized_iff _ hash).mp hfinal
    simp [run, start, FinalityEngine.newWithK] at hmem
  | append_singleton calls call ih =>
    obtain ⟨hfirst, hlast⟩ := keeps_append.mp hkeeps
    have hbefore : BlockDag.Sound c (dagCalls calls) := by
      rw [dagCalls_append] at hsound
      exact hsound.append_left
    rw [run_append]
    exact (current_exec rfl hsound hlast (ih hbefore hfirst)).1

/-- In every run of insertions and computations whose insertions are listed behind the threshold
or raise it, a block once finalised stays finalised. -/
theorem finalized_irrevocable (c : Crypto) (confirmationDepth : ℕ) (k : UInt64)
    (earlier later : List FinalityCall) (hsound : BlockDag.Sound c (dagCalls (earlier ++ later)))
    (hkeeps : (start confirmationDepth k).Keeps c (earlier ++ later)) (hash : BlockHash)
    (hfinal : ((start confirmationDepth k).run c earlier).engine.isFinalized hash = true) :
    ((start confirmationDepth k).run c (earlier ++ later)).engine.isFinalized hash = true := by
  induction later using List.reverseRecOn with
  | nil => rwa [List.append_nil]
  | append_singleton later call ih =>
    rw [← List.append_assoc] at hsound hkeeps ⊢
    obtain ⟨hfirst, hlast⟩ := keeps_append.mp hkeeps
    have hbefore : BlockDag.Sound c (dagCalls (earlier ++ later)) := by
      rw [dagCalls_append] at hsound
      exact hsound.append_left
    have hcur := current_run (earlier ++ later) hbefore hfirst
    rw [run_append]
    exact (current_exec rfl hsound hlast hcur).2 hash (ih hbefore hfirst)

section Sample
open BlockDag

/-- Genesis and a child of it, a computation, and a second child. -/
def sampleEarlier : List FinalityCall :=
  [.insertBlock sampleEnv (genesisBlock .hashOnly 1000),
    .insertBlock sampleEnv (sampleChild 1001), .computeFinality]

def sampleLater : List FinalityCall :=
  [.insertBlock sampleEnv (sampleChild 1002), .computeFinality]

def sampleGrandchild (timestamp : UInt64) : Block :=
  Block.new .hashOnly [sampleTips.1] timestamp [] 0 0 0 (Bytes.zero 20) (Bytes.zero 32)

/-- Genesis, a child, eight grandchildren and a computation. -/
def sampleCrowd : List FinalityCall :=
  [.insertBlock sampleEnv (genesisBlock .hashOnly 1000),
    .insertBlock sampleEnv (sampleChild 1001)] ++
  ([2001, 2002, 2003, 2004, 2005, 2006, 2007, 2008].map fun t =>
    .insertBlock sampleEnv (sampleGrandchild t)) ++ [.computeFinality]

def sampleRevoked : BlockHash :=
  ⟨[7, 104, 62, 132, 226, 39, 178, 144, 202, 118, 177, 71, 161, 124, 131, 199, 223, 227, 48, 146,
    195, 3, 201, 114, 238, 112, 1, 114, 23, 100, 52, 50], rfl⟩

set_option maxRecDepth 20000 in
theorem sampleLater_keeps :
    Sound .hashOnly (dagCalls (sampleEarlier ++ sampleLater)) ∧
      (start 2 0).Keeps .hashOnly (sampleEarlier ++ sampleLater) ∧
      ((start 2 0).run .hashOnly sampleEarlier).engine.isFinalized sampleTips.1 = true := by
  unfold sampleEarlier sampleLater sampleChild sampleRoot
  rw [Crypto.hashOnly_eq_strict]
  decide +kernel

theorem finalized_irrevocable_sample :
    ((start 2 0).run .hashOnly sampleEarlier).engine.isFinalized sampleTips.1 = true ∧
      ((start 2 0).run .hashOnly (sampleEarlier ++ sampleLater)).engine.isFinalized
        sampleTips.1 = true := by
  obtain ⟨hsound, hkeeps, hfinal⟩ := sampleLater_keeps
  exact ⟨hfinal, finalized_irrevocable .hashOnly 2 0 sampleEarlier sampleLater hsound hkeeps
    sampleTips.1 hfinal⟩

set_option maxRecDepth 20000 in
/-- With `k = 7` and ten blocks the first grandchild stands at the threshold. A late child of
genesis is listed before it, and the eleventh position goes to the margin. -/
theorem finalized_revoked :
    ((start 2 7).run .hashOnly sampleCrowd).engine.isFinalized sampleRevoked = true ∧
      (((start 2 7).run .hashOnly sampleCrowd).dag.insertBlock .hashOnly sampleEnv
        (sampleChild 1002)).1 = .ok () ∧
      ((start 2 7).run .hashOnly (sampleCrowd ++ sampleLater)).engine.isFinalized
        sampleRevoked = false := by
  unfold sampleCrowd sampleGrandchild sampleLater sampleChild sampleRoot
  rw [Crypto.hashOnly_eq_strict]
  decide +kernel

end Sample

end FinalityState

end CytahSpeed
