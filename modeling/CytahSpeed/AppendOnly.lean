import CytahSpeed.IndexAgreement

/-!
# Insertion is atomic and append-only

On a well-formed DAG the ancestors of a stored block are stored before it, and its depth is its
height: the highest block of a level has its selected parent, one lower, on the next. Neither can
be changed by a block stored later under a free hash.
-/

namespace CytahSpeed
open ByteString FiniteMap Selection

namespace BlockDag

variable {c : Crypto} {d : BlockDag}

theorem WellFormed.height_parent_lt (wf : WellFormed c d) {h p : BlockHash}
    (hp : p ∈ d.store.parentsOf h) : d.heightRank p < d.heightRank h := by
  obtain ⟨s, q, hs, hmem, -, -⟩ := wf.parentsOf hp
  have hne : s.header.parentHashes ≠ [] := List.ne_nil_of_mem hmem
  obtain ⟨best, hmax, -, hheight⟩ := (wf.placed h s hs).height_child hne
  have hle := hmax.le hmem
  have hrank : d.heightRank h = s.height.toNat := by rw [heightRank, heightAt_eq hs]
  omega

theorem WellFormed.exists_parent (wf : WellFormed c d) {h : BlockHash} {m : ℕ}
    (hm : d.heightRank h = m + 1) : ∃ p ∈ d.store.parentsOf h, d.heightRank p = m := by
  cases hs : d.getBlock h with
  | none =>
    simp only [heightRank, heightAt, hs, Option.map_none, Option.getD_none] at hm
    cases hm
  | some s =>
    have hrank : d.heightRank h = s.height.toNat := by rw [heightRank, heightAt_eq hs]
    have hne : s.header.parentHashes ≠ [] := by
      intro hnil
      rw [(wf.placed h s hs).height_root hnil] at hrank
      rw [hrank] at hm
      cases hm
    obtain ⟨p, hmax, -, hheight⟩ := (wf.placed h s hs).height_child hne
    refine ⟨p, ?_, by omega⟩
    rw [d.store.parentsOf_eq hs]
    exact hmax.mem

/-- From a level whose greatest height is `m`, the loop counts `m` further levels. -/
theorem WellFormed.depthLoop_eq (wf : WellFormed c d) (m fuel : ℕ) (hfuel : m < fuel)
    (current : List BlockHash) (depth : ℕ) (hle : ∀ h ∈ current, d.heightRank h ≤ m)
    (htop : ∃ h ∈ current, d.heightRank h = m) :
    DagIndex.depthLoop d.store fuel current depth = some (depth + m) := by
  induction m generalizing fuel current depth with
  | zero =>
    obtain ⟨fuel, rfl⟩ := Nat.exists_eq_succ_of_ne_zero (Nat.ne_of_gt hfuel)
    have hnext : DagIndex.nextLevel d.store current = [] := by
      rw [List.eq_nil_iff_forall_not_mem]
      intro p hp
      obtain ⟨h, hh, hpar⟩ := (DagIndex.mem_nextLevel d.store current p).mp hp
      have hlt := wf.height_parent_lt hpar
      have h0 := hle h hh
      omega
    obtain ⟨h, hh, -⟩ := htop
    rw [DagIndex.depthLoop, if_neg (List.ne_nil_of_mem hh), if_pos hnext]
    rfl
  | succ m ih =>
    obtain ⟨fuel, rfl⟩ := Nat.exists_eq_succ_of_ne_zero (Nat.ne_of_gt (Nat.zero_lt_of_lt hfuel))
    obtain ⟨h, hh, hm⟩ := htop
    obtain ⟨p, hp, hpm⟩ := wf.exists_parent hm
    have hpnext : p ∈ DagIndex.nextLevel d.store current :=
      (DagIndex.mem_nextLevel d.store current p).mpr ⟨h, hh, hp⟩
    rw [DagIndex.depthLoop, if_neg (List.ne_nil_of_mem hh), if_neg (List.ne_nil_of_mem hpnext),
      ih fuel (by omega) _ (depth + 1) ?_ ⟨p, hpnext, hpm⟩]
    · congr 1
      omega
    · intro q hq
      obtain ⟨k, hk, hqk⟩ := (DagIndex.mem_nextLevel d.store current q).mp hq
      have hlt := wf.height_parent_lt hqk
      have hkm := hle k hk
      omega

theorem WellFormed.getBlockDepth_eq (wf : WellFormed c d) {h : BlockHash} {s : Block}
    (hs : d.getBlock h = some s) : d.getBlockDepth h = some s.height.toNat := by
  have hrank : d.heightRank h = s.height.toNat := by rw [heightRank, heightAt_eq hs]
  have hlt := heightRank_lt wf hs
  have hcount : d.blockCount = d.store.blockCount := rfl
  have hloop := wf.depthLoop_eq s.height.toNat (d.store.blockCount + 1) (by omega) [h] 0
    (by simp [hrank]) ⟨h, by simp, hrank⟩
  rw [getBlockDepth, DagIndex.getBlockDepth, hloop, Nat.zero_add]

section Commit
variable {a : Block} (hfree : d.getBlock a.hash = none)
include hfree

theorem parentsOf_commit_of_stored {h : BlockHash} {s : Block} (hs : d.getBlock h = some s) :
    (d.commit a).store.parentsOf h = d.store.parentsOf h := by
  rw [parentsOf_commit, if_neg]
  intro he
  rw [he, hfree] at hs
  cases hs

theorem WellFormed.getAncestors_commit (wf : WellFormed c d) {h : BlockHash} {s : Block}
    (hs : d.getBlock h = some s) : (d.commit a).getAncestors h = d.getAncestors h := by
  ext x
  rw [getAncestors, getAncestors, DagIndex.mem_getAllAncestors, DagIndex.mem_getAllAncestors]
  have hstored : ∀ y, Relation.TransGen (Worklist.Step d.store.parentsOf) h y →
      ∃ q, d.getBlock y = some q := by
    intro y hy
    obtain ⟨-, q, -, hq, -⟩ := wf.ancestor ((DagIndex.mem_getAllAncestors h y d.store).mpr hy)
    exact ⟨q, hq⟩
  constructor
  · intro hx
    induction hx with
    | single hstep =>
      rw [Worklist.Step, parentsOf_commit_of_stored hfree hs] at hstep
      exact Relation.TransGen.single hstep
    | tail _ hstep ih =>
      obtain ⟨q, hq⟩ := hstored _ ih
      rw [Worklist.Step, parentsOf_commit_of_stored hfree hq] at hstep
      exact ih.tail hstep
  · intro hx
    induction hx with
    | single hstep =>
      rw [Worklist.Step, ← parentsOf_commit_of_stored hfree hs] at hstep
      exact Relation.TransGen.single hstep
    | tail hprev hstep ih =>
      obtain ⟨q, hq⟩ := hstored _ hprev
      rw [Worklist.Step, ← parentsOf_commit_of_stored hfree hq] at hstep
      exact ih.tail hstep

end Commit

/-- A failed insertion changes nothing; a successful one adds one block under a free hash and
leaves every stored block, its ancestors, height and depth as they were. -/
theorem insertBlock_atomic_append_only (c : Crypto) (calls : List Call) (env : CallEnv) (b : Block)
    (h : Sound c (calls ++ [.insertBlock env b])) :
    (∀ e, ((run c calls).insertBlock c env b).1 = .error e →
      ((run c calls).insertBlock c env b).2 = run c calls) ∧
    (((run c calls).insertBlock c env b).1 = .ok () →
      ((run c calls).insertBlock c env b).2.blockCount = (run c calls).blockCount + 1 ∧
      (∃ a, (run c calls).getBlock a.hash = none ∧
        ∀ hash, ((run c calls).insertBlock c env b).2.getBlock hash =
          if hash = a.hash then some a else (run c calls).getBlock hash) ∧
      ∀ hash s, (run c calls).getBlock hash = some s →
        ((run c calls).insertBlock c env b).2.getBlock hash = some s ∧
        ((run c calls).insertBlock c env b).2.getAncestors hash =
          (run c calls).getAncestors hash ∧
        ((run c calls).insertBlock c env b).2.getBlockHeight hash =
          (run c calls).getBlockHeight hash ∧
        ((run c calls).insertBlock c env b).2.getBlockDepth hash =
          (run c calls).getBlockDepth hash) := by
  constructor
  · intro e he
    apply insertBlock_state_of_not_ok
    rw [he]
    exact fun hne => by cases hne
  · intro hok
    have acc := insertBlock_ok_iff.mp hok
    have last := h.lastInsert acc
    have wf := last.tracked.wellFormed
    have wf' := wf.commit acc last.fits last.free
    rw [insertBlock_of_accepts acc]
    refine ⟨blockCount_commit last.free, ⟨_, last.free, getBlock_commit _⟩, ?_⟩
    intro hash s hs
    have hs' := getBlock_commit_of_some last.free hs
    have hdepth : ((run c calls).commit ((run c calls).annotate c b)).getBlockDepth hash =
        (run c calls).getBlockDepth hash := by
      rw [wf.getBlockDepth_eq hs, wf'.getBlockDepth_eq hs']
    refine ⟨hs', wf.getAncestors_commit last.free hs, ?_, hdepth⟩
    simp only [getBlockHeight, hs, hs', hdepth]

theorem insertBlock_atomic_append_only_sample :
    ((run .hashOnly [.createGenesisBlock 1000 sampleEnv]).insertBlock .hashOnly sampleEnv
      (sampleChild 1001)).2.blockCount =
      (run .hashOnly [.createGenesisBlock 1000 sampleEnv]).blockCount + 1 :=
  ((insertBlock_atomic_append_only .hashOnly [.createGenesisBlock 1000 sampleEnv] sampleEnv
    (sampleChild 1001) sampleCalls_evaluated.1).2 sampleCalls_evaluated.2.2.1).1

end BlockDag

end CytahSpeed
