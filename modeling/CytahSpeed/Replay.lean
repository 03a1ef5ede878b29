import CytahSpeed.DagRun

/-!
# Replaying the stored blocks

A DAG grown by insertions is a fold of commits, one for each accepted block, and the positions
written by the annotation number them in that order. Annotating a stored block where it was first
annotated changes nothing, so feeding the stored blocks in the order of their positions to an
empty DAG passes through the same states and ends in the same one.
-/

namespace CytahSpeed
open ByteString FiniteMap MachineInt

namespace BlockDag

variable (c : Crypto)

def byTopoIndex (d : BlockDag) : List Block :=
  d.store.getAllBlocks.insertionSort (fun a b => a.header.topoIndex ≤ b.header.topoIndex)

/-- The DAG was grown by committing these blocks in this order, each accepted where it was
annotated and stored under a free hash. -/
inductive Grown : List Block → BlockDag → Prop
  | empty : Grown [] BlockDag.empty
  | commit {blocks : List Block} {d : BlockDag} {env : CallEnv} {b : Block} :
      Grown blocks d → Accepts c env d b → d.blockCount + 1 < 2 ^ 64 →
      d.getBlock (d.annotate c b).hash = none →
      Grown (blocks ++ [d.annotate c b]) (d.commit (d.annotate c b))

variable {c} {d : BlockDag} {blocks : List Block}

/-- The annotation reads the content of a block and the DAG, never the metadata it rewrites. -/
theorem annotate_annotate (d : BlockDag) (b : Block) :
    d.annotate c (d.annotate c b) = d.annotate c b := rfl

theorem Grown.wellFormed (h : Grown c blocks d) : WellFormed c d := by
  induction h with
  | empty => exact wellFormed_empty c
  | commit _ acc hfits hfree ih => exact ih.commit acc hfits hfree

theorem Grown.mem_iff (h : Grown c blocks d) (s : Block) :
    s ∈ blocks ↔ d.getBlock s.hash = some s := by
  induction h with
  | empty =>
    have hnone : BlockDag.empty.getBlock s.hash = none := Finmap.lookup_empty s.hash
    simp [hnone]
  | @commit blocks d env b hgrown acc hfits hfree ih =>
    rw [List.mem_append, List.mem_singleton, ih]
    constructor
    · rintro (hs | rfl)
      · exact getBlock_commit_of_some hfree hs
      · exact getBlock_commit_self _
    · intro hs
      rcases getBlock_commit_eq_some hs with ⟨-, he⟩ | hs
      · exact Or.inr he
      · exact Or.inl hs

theorem Grown.pairwise (h : Grown c blocks d) :
    blocks.Pairwise (fun a b => a.header.topoIndex < b.header.topoIndex) := by
  induction h with
  | empty => exact List.Pairwise.nil
  | @commit blocks d env b hgrown acc hfits hfree ih =>
    refine List.pairwise_append.mpr ⟨ih, List.pairwise_singleton _ _, ?_⟩
    intro s hs a ha
    rw [List.mem_singleton.mp ha, UInt64.lt_iff_toNat_lt, topoIndex_annotate (by omega)]
    exact hgrown.wellFormed.topo_lt s.hash s ((hgrown.mem_iff s).mp hs)

theorem Grown.byTopoIndex_eq (h : Grown c blocks d) : d.byTopoIndex = blocks := by
  have hmem : ∀ s, s ∈ d.store.getAllBlocks ↔ s ∈ blocks := by
    intro s
    rw [h.mem_iff, d.store.mem_getAllBlocks]
    constructor
    · intro hs
      obtain ⟨hash, hs⟩ := hs
      obtain rfl := (h.wellFormed.hash hash s hs).1
      exact hs
    · exact fun hs => ⟨s.hash, hs⟩
  have hnodup : d.store.getAllBlocks.Nodup := by
    refine List.Nodup.filterMap ?_ (nodup_sortedKeys d.store.blocks)
    intro x y s hx hy
    exact ((h.wellFormed.hash x s hx).1.symm.trans (h.wellFormed.hash y s hy).1)
  have hblocks : blocks.Nodup := h.pairwise.imp (fun hlt he => by simp [he] at hlt)
  have hperm : d.store.getAllBlocks.Perm blocks :=
    (List.perm_ext_iff_of_nodup hnodup hblocks).mpr hmem
  have hsort : d.byTopoIndex.Perm blocks := (List.perm_insertionSort _ _).trans hperm
  have hsorted : d.byTopoIndex.Pairwise
      fun a b => a.header.topoIndex ≤ b.header.topoIndex := by
    have : Std.Total fun a b : Block => a.header.topoIndex ≤ b.header.topoIndex :=
      ⟨fun a b => UInt64.le_total _ _⟩
    have : IsTrans Block fun a b => a.header.topoIndex ≤ b.header.topoIndex :=
      ⟨fun _ _ _ => UInt64.le_trans⟩
    exact List.pairwise_insertionSort _ _
  -- equal positions mean equal blocks, so the sorted list is unique
  refine hsort.eq_of_pairwise ?_ hsorted (h.pairwise.imp fun hlt => UInt64.le_of_lt hlt)
  intro a b ha hb hab hba
  have ha := (h.mem_iff a).mp (hsort.mem_iff.mp ha)
  have hb := (h.mem_iff b).mp hb
  have hhash := h.wellFormed.topo_inj _ a _ b ha hb (UInt64.le_antisymm hab hba)
  rw [hhash, hb] at ha
  exact (Option.some.inj ha).symm

theorem Accepts.annotated {env env' : CallEnv} {b : Block} (acc : Accepts c env d b)
    (wf : WellFormed c d) (hfree : d.getBlock (d.annotate c b).hash = none)
    (hvalid : (d.annotate c b).validateBasic c env'.now = .ok ())
    (hwrite : env'.writeError = none) : Accepts c env' d (d.annotate c b) := by
  refine ⟨hvalid, hfree, acc.parents, acc.root, ?_, hwrite⟩
  intro hash s hs he
  rw [(wf.hash hash s hs).1] at he
  rw [he, hfree] at hs
  cases hs

theorem insertBlocks_append_ok {xs ys : List (CallEnv × Block)} {m n : ℕ} {d' : BlockDag}
    (h : insertBlocks c m d xs = (.ok n, d')) :
    insertBlocks c m d (xs ++ ys) = insertBlocks c n d' ys := by
  induction xs generalizing m d with
  | nil =>
    obtain ⟨hn, rfl⟩ := Prod.mk.inj h
    rw [Except.ok.inj hn]
    rfl
  | cons x xs ih =>
    obtain ⟨env, b⟩ := x
    rw [List.cons_append, insertBlocks]
    rw [insertBlocks] at h
    cases hr : d.insertBlock c env b with
    | mk result d₁ =>
      rw [hr] at h
      cases result with
      | error e => cases h
      | ok u => exact ih h

/-- Replaying a grown DAG's blocks succeeds throughout and rebuilds it. -/
theorem Grown.insertBlocks_eq (h : Grown c blocks d) (env : Block → CallEnv)
    (henv : ∀ s ∈ blocks, s.validateBasic c (env s).now = .ok () ∧ (env s).writeError = none) :
    insertBlocks c 0 BlockDag.empty (blocks.map fun s => (env s, s)) = (.ok d.blockCount, d) := by
  induction h with
  | empty => rfl
  | @commit blocks d env' b hgrown acc hfits hfree ih =>
    obtain ⟨hvalid, hwrite⟩ := henv (d.annotate c b) (by simp)
    have acc' := acc.annotated hgrown.wellFormed hfree hvalid hwrite
    have hprev := ih fun s hs => henv s (List.mem_append_left _ hs)
    rw [List.map_append, insertBlocks_append_ok hprev, List.map_singleton, insertBlocks,
      insertBlock_of_accepts acc', annotate_annotate, blockCount_commit hfree]
    rfl

theorem Sound.exists_grown {calls : List Call} (h : Sound c calls)
    (hins : Call.rebuildIndex ∉ calls) : ∃ blocks, Grown c blocks (run c calls) := by
  refine h.invariant (Q := fun d => ∃ blocks, Grown c blocks d) ?_ ?_ ⟨[], Grown.empty⟩
  · intro env d b last acc hgrown
    obtain ⟨blocks, hgrown⟩ := hgrown
    exact ⟨_, hgrown.commit acc last.fits last.free⟩
  · exact fun hmem => absurd hmem hins

/-- Inserting the stored blocks of a run in increasing order of their positions into an empty DAG
succeeds for every block and yields the same DAG: stored blocks, tips and child lists. -/
theorem replay_eq_run (c : Crypto) (calls : List Call) (h : Sound c calls)
    (hins : Call.rebuildIndex ∉ calls) (env : Block → CallEnv)
    (henv : ∀ hash s, (run c calls).getBlock hash = some s →
      s.validateBasic c (env s).now = .ok () ∧ (env s).writeError = none) :
    insertBlocks c 0 empty ((run c calls).byTopoIndex.map fun s => (env s, s)) =
      (.ok (run c calls).blockCount, run c calls) := by
  obtain ⟨blocks, hgrown⟩ := h.exists_grown hins
  rw [hgrown.byTopoIndex_eq]
  exact hgrown.insertBlocks_eq env fun s hs => henv s.hash s ((hgrown.mem_iff s).mp hs)

theorem replay_eq_run_sample :
    insertBlocks .hashOnly 0 empty ((run .hashOnly sampleCalls).byTopoIndex.map
      fun s => (sampleEnv, s)) = (.ok 2, run .hashOnly sampleCalls) := by
  obtain ⟨hsound, hcount, -⟩ := sampleCalls_evaluated
  rw [← hcount]
  refine replay_eq_run .hashOnly sampleCalls hsound (by simp [sampleCalls]) (fun _ => sampleEnv) ?_
  intro hash s hs
  have hmem := (BlockStore.mem_getAllBlocks _ s).mpr ⟨hash, hs⟩
  exact ⟨sampleCalls_stored.2.2 s hmem, rfl⟩

end BlockDag

end CytahSpeed
