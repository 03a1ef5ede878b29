import CytahSpeed.TopologicalOrder

/-!
# One store under several indexes

Cloning a DAG copies its index and shares its block store, and opening a store that was left
behind starts with an empty index. An index learns of a block only when it is inserted through
it: a block that arrives another way is missing from the tips or from the order, and no later
insertion brings it back.
-/

namespace CytahSpeed
open ByteString FiniteMap

namespace BlockDag

variable {c : Crypto} {d : BlockDag}

structure Consistent (d : BlockDag) : Prop where
  order : ∀ hash, hash ∈ d.getTopologicalOrder ↔ ∃ s, d.getBlock hash = some s
  length : d.getTopologicalOrder.length = d.blockCount
  tips : ∀ hash, hash ∈ d.getTips ↔ (∃ s, d.getBlock hash = some s) ∧
    ∀ k s, d.getBlock k = some s → hash ∉ s.header.parentHashes

theorem Intact.consistent (h : Intact c d) : d.Consistent := by
  refine ⟨h.mem_order, h.length_order, ?_⟩
  intro hash
  exact (h.indexes.tips hash).trans (and_congr_right fun _ => d.store.childless_iff hash)

theorem notMem_order (hkey : ∀ h s, d.store.getBlock h = some s → s.hash = h) {hash : BlockHash}
    {s : Block} (hs : d.getBlock hash = some s) (hne : s.header.parentHashes ≠ [])
    (hnot : ∀ p, hash ∉ d.getChildren p) : hash ∉ d.getTopologicalOrder := by
  intro hmem
  rcases KahnOrder.mem_loop _ _ _ _ _ hmem with hnil | hroot | ⟨p, hp⟩
  · cases hnil
  · rw [DagIndex.inDegrees_eq] at hroot
    obtain ⟨b, hb, rfl⟩ := List.mem_map.mp hroot
    rw [List.mem_filter, BlockStore.mem_getAllBlocks] at hb
    obtain ⟨⟨k, hk⟩, hempty⟩ := hb
    obtain rfl : b = s := by
      rw [hkey k b hk] at hs
      exact Option.some.inj (hk.symm.trans hs)
    exact hne (List.isEmpty_iff.mp hempty)
  · exact hnot p hp

theorem accepts_withIndex {env : CallEnv} {b : Block} (index : DagIndex) :
    Accepts c env ⟨d.store, index⟩ b ↔ Accepts c env d b :=
  ⟨fun h => ⟨h.valid, h.fresh, h.parents, h.root, h.notStored, h.written⟩,
    fun h => ⟨h.valid, h.fresh, h.parents, h.root, h.notStored, h.written⟩⟩

end BlockDag

inductive Handle
  | original
  | clone
  deriving DecidableEq

def Handle.other : Handle → Handle
  | .original => .clone
  | .clone => .original

/-- An `insert_block` through one of the two handles. -/
structure SharedCall where
  handle : Handle
  env : CallEnv
  block : Block

/-- One store, and an index for each handle. -/
structure SharedDag where
  store : BlockStore
  index : Handle → DagIndex

namespace SharedDag

variable (c : Crypto)

def view (s : SharedDag) (handle : Handle) : BlockDag := ⟨s.store, s.index handle⟩

/-- A DAG beside its clone: `Clone` shares the `Arc` of the store and copies the index. -/
def ofClone (d : BlockDag) : SharedDag := ⟨d.store, fun _ => d.index⟩

def exec (s : SharedDag) (call : SharedCall) : SharedDag :=
  let d := ((s.view call.handle).insertBlock c call.env call.block).2
  ⟨d.store, Function.update s.index call.handle d.index⟩

def run (s : SharedDag) (calls : List SharedCall) : SharedDag := calls.foldl (exec c) s

def insertions (calls : List SharedCall) : List Call :=
  calls.map fun call => .insertBlock call.env call.block

variable {c}

theorem exec_cases (c : Crypto) (d : BlockDag) (index : Handle → DagIndex) (call : SharedCall) :
    (BlockDag.Accepts c call.env d call.block ∧
      exec c ⟨d.store, index⟩ call = ⟨(d.commit (d.annotate c call.block)).store,
        Function.update index call.handle
          ((index call.handle).updateTipsAfterInsert (d.annotate c call.block))⟩) ∨
      (¬ BlockDag.Accepts c call.env d call.block ∧
        exec c ⟨d.store, index⟩ call = ⟨d.store, index⟩) := by
  rcases BlockDag.insertBlock_cases c call.env ⟨d.store, index call.handle⟩ call.block with
    ⟨acc, he⟩ | ⟨hnot, e, he⟩
  · refine Or.inl ⟨(BlockDag.accepts_withIndex _).mp acc, ?_⟩
    simp only [exec, view, he]
    rfl
  · refine Or.inr ⟨fun acc => hnot ((BlockDag.accepts_withIndex _).mpr acc), ?_⟩
    simp only [exec, view, he, Function.update_eq_self]

/-- What holds of every index over the store: its child lists name stored blocks only, and it has
no tips before the first block. -/
structure Grounded (d : BlockDag) (index : Handle → DagIndex) : Prop where
  children : ∀ handle p k, k ∈ (index handle).getChildren p → ∃ s, d.getBlock k = some s
  tips : d.blockCount = 0 → ∀ handle, (index handle).tips = ∅

/-- Some index misses a stored block: as a child of its parents, or as a tip. -/
def Misses (d : BlockDag) (index : Handle → DagIndex) : Prop :=
  ∃ handle hash s, d.getBlock hash = some s ∧
    ((s.header.parentHashes ≠ [] ∧ ∀ p, hash ∉ (index handle).getChildren p) ∨
      (hash ∉ (index handle).tips ∧ ∀ k, hash ∉ d.store.parentsOf k))

theorem Misses.not_consistent {d : BlockDag} {index : Handle → DagIndex}
    (wf : BlockDag.WellFormed c d) (h : Misses d index) :
    ∃ handle, ¬ (view ⟨d.store, index⟩ handle).Consistent := by
  obtain ⟨handle, hash, s, hs, hmiss⟩ := h
  refine ⟨handle, fun hcons => ?_⟩
  rcases hmiss with ⟨hne, hnot⟩ | ⟨hnot, hleaf⟩
  · have hkey : ∀ h s, d.store.getBlock h = some s → s.hash = h :=
      fun h s hs => (wf.hash h s hs).1
    exact BlockDag.notMem_order (d := view ⟨d.store, index⟩ handle) hkey hs hne hnot
      ((hcons.order hash).mpr ⟨s, hs⟩)
  · exact hnot ((hcons.tips hash).mpr ⟨⟨s, hs⟩, (d.store.childless_iff hash).mp hleaf⟩)

theorem grounded_of_intact {d : BlockDag} (h : BlockDag.Intact c d) :
    Grounded d fun _ => d.index := by
  refine ⟨?_, ?_⟩
  · intro _ p k hk
    have hp : p ∈ d.store.parentsOf k := by
      rw [← List.count_pos_iff, ← h.indexes.children]
      exact List.count_pos_iff.mpr hk
    obtain ⟨s, -, hs, -⟩ := h.wellFormed.parentsOf hp
    exact ⟨s, hs⟩
  · intro hzero _
    rw [Finset.eq_empty_iff_forall_notMem]
    intro hash hmem
    obtain ⟨⟨s, hs⟩, -⟩ := (h.indexes.tips hash).mp hmem
    exact BlockDag.blockCount_ne_zero hs hzero

section Commit
variable {d : BlockDag} {index : Handle → DagIndex} {a : Block} (h : Grounded d index)
  (hfree : d.getBlock a.hash = none)
include h hfree

theorem Grounded.commit (handle : Handle) :
    Grounded (d.commit a)
      (Function.update index handle ((index handle).updateTipsAfterInsert a)) := by
  refine ⟨?_, ?_⟩
  · intro handle' p k hk
    have hstored : ∀ x, (∃ s, d.getBlock x = some s) → ∃ s, (d.commit a).getBlock x = some s :=
      fun x ⟨s, hs⟩ => ⟨s, BlockDag.getBlock_commit_of_some hfree hs⟩
    by_cases he : handle' = handle
    · rw [he, Function.update_self, DagIndex.getChildren_updateTipsAfterInsert,
        List.mem_append] at hk
      rcases hk with hk | hk
      · exact hstored k (h.children handle p k hk)
      · rw [List.eq_of_mem_replicate hk]
        exact ⟨a, BlockDag.getBlock_commit_self a⟩
    · rw [Function.update_of_ne he] at hk
      exact hstored k (h.children handle' p k hk)
  · intro hzero
    rw [BlockDag.blockCount_commit hfree] at hzero
    omega

theorem Grounded.misses_commit (handle : Handle)
    (hroot : a.header.parentHashes = [] → d.blockCount = 0) :
    Misses (d.commit a)
      (Function.update index handle ((index handle).updateTipsAfterInsert a)) := by
  have hother : handle.other ≠ handle := by cases handle <;> simp [Handle.other]
  refine ⟨handle.other, a.hash, a, BlockDag.getBlock_commit_self a, ?_⟩
  rw [Function.update_of_ne hother]
  by_cases hne : a.header.parentHashes = []
  · have hzero := hroot hne
    refine Or.inr ⟨?_, ?_⟩
    · rw [h.tips hzero]
      exact Finset.notMem_empty _
    · refine (BlockDag.childless_commit_iff hfree _).mpr ⟨?_, fun k => ?_⟩
      · rw [hne]
        exact List.not_mem_nil
      · have hnone := (BlockStore.blockCount_eq_zero_iff d.store).mp hzero k
        rw [BlockDag.parentsOf_eq_nil hnone]
        exact List.not_mem_nil
  · refine Or.inl ⟨hne, fun p hp => ?_⟩
    obtain ⟨s, hs⟩ := h.children handle.other p a.hash hp
    rw [hfree] at hs
    cases hs

end Commit

/-- A run whose calls are all refused changes nothing, and any other ends with an index that misses
a block. The DAG `d` carries the store, as a single handle would have it. -/
theorem run_misses {P : Set (List UInt8)} (hinj : Set.InjOn c.sha256 P)
    (calls : List SharedCall) {d : BlockDag} {index : Handle → DagIndex}
    (htr : BlockDag.Tracked c P d) (h : Grounded d index)
    (hP : ∀ x ∈ BlockDag.runHashedFrom c d (insertions calls), x ∈ P)
    (hfits : (BlockDag.runFrom c d (insertions calls)).blockCount < 2 ^ 64) :
    ((∀ call ∈ calls, ¬ BlockDag.Accepts c call.env d call.block) ∧
      run c ⟨d.store, index⟩ calls = ⟨d.store, index⟩) ∨
    ((∃ call ∈ calls, BlockDag.Accepts c call.env d call.block) ∧
      ∃ d' index', BlockDag.WellFormed c d' ∧ Misses d' index' ∧
        run c ⟨d.store, index⟩ calls = ⟨d'.store, index'⟩) := by
  induction calls generalizing d index with
  | nil => exact Or.inl ⟨fun _ hmem => absurd hmem List.not_mem_nil, rfl⟩
  | cons call calls ih =>
    have hfirst : ∀ x ∈ d.insertHashed c call.env call.block, x ∈ P :=
      fun x hx => hP x (List.mem_append_left _ hx)
    have hrest : ∀ x ∈ BlockDag.runHashedFrom c (d.insertBlock c call.env call.block).2
        (insertions calls), x ∈ P := fun x hx => hP x (List.mem_append_right _ hx)
    change (BlockDag.runFrom c (d.insertBlock c call.env call.block).2
      (insertions calls)).blockCount < 2 ^ 64 at hfits
    change (_ ∧ run c (exec c ⟨d.store, index⟩ call) calls = _) ∨
      (_ ∧ ∃ d' index', _ ∧ _ ∧ run c (exec c ⟨d.store, index⟩ call) calls = _)
    rcases exec_cases c d index call with ⟨acc, he⟩ | ⟨hnot, he⟩
    · rw [BlockDag.insertBlock_of_accepts acc] at hrest hfits
      rw [BlockDag.insertHashed_of_accepts acc] at hfirst
      have hle := BlockDag.blockCount_le_runFrom (c := c)
        (d.commit (d.annotate c call.block)) (insertions calls)
      have last := htr.lastInsert hinj (hfirst _ (by simp)) (hfirst _ (by simp))
        (hle.trans_lt hfits)
      have htr' := last.commit acc
      have hmiss := h.misses_commit last.free call.handle acc.root
      rw [he]
      -- whatever the rest does, this block or a later one is missed
      refine Or.inr ⟨⟨call, List.mem_cons_self, acc⟩, ?_⟩
      rcases ih htr' (h.commit last.free call.handle) hrest hfits with ⟨-, hrun⟩ | ⟨-, hlater⟩
      · exact ⟨_, _, htr'.wellFormed, hmiss, hrun⟩
      · exact hlater
    · have hsame : (d.insertBlock c call.env call.block).2 = d :=
        BlockDag.insertBlock_state_of_not_ok fun hok => hnot (BlockDag.insertBlock_ok_iff.mp hok)
      rw [hsame] at hrest hfits
      rw [he]
      rcases ih htr h hrest hfits with ⟨hall, hrun⟩ | ⟨⟨later, hmem, acc⟩, hend⟩
      · exact Or.inl ⟨List.forall_mem_cons.mpr ⟨hnot, hall⟩, hrun⟩
      · exact Or.inr ⟨⟨later, List.mem_cons_of_mem _ hmem, acc⟩, hend⟩

/-- After a clone is made, both handles stay consistent exactly as long as no insertion passes the
checks of `insert_block`, whichever handle it is made through. -/
theorem clones_consistent_iff (c : Crypto) (before : List Call) (later : List SharedCall)
    (hsound : BlockDag.Sound c (before ++ insertions later)) :
    (∀ handle, (((ofClone (BlockDag.run c before)).run c later).view handle).Consistent) ↔
      ∀ call ∈ later, ¬ BlockDag.Accepts c call.env (BlockDag.run c before) call.block := by
  have hintact : BlockDag.Intact c (BlockDag.run c before) := hsound.append_left.intact
  rcases run_misses hsound.injOn later hsound.tracked_left (grounded_of_intact hintact)
    (BlockDag.mem_runHashed_right _ _) hsound.fits_right with
    ⟨hall, hsame⟩ | ⟨⟨call, hmem, acc⟩, d', index', wf, hmiss, hend⟩
  · have hstart : (ofClone (BlockDag.run c before)).run c later =
        ofClone (BlockDag.run c before) := hsame
    rw [hstart]
    exact ⟨fun _ => hall, fun _ handle => hintact.consistent⟩
  · have hend' : (ofClone (BlockDag.run c before)).run c later = ⟨d'.store, index'⟩ := hend
    rw [hend']
    constructor
    · intro hcons
      obtain ⟨handle, hnot⟩ := hmiss.not_consistent wf
      exact absurd (hcons handle) hnot
    · intro hall
      exact absurd acc (hall call hmem)

section Sample
open BlockDag

def sampleBefore : List Call := [.createGenesisBlock 1000 sampleEnv]

def sampleRefused : List SharedCall :=
  [⟨.clone, sampleEnv, genesisBlock .hashOnly 1001⟩,
    ⟨.original, ⟨1000, some "No space left on device"⟩, sampleChild 1001⟩]

def sampleAccepted : List SharedCall := [⟨.original, sampleEnv, sampleChild 1001⟩]

set_option maxRecDepth 20000 in
theorem sampleRefused_notOk :
    Sound .hashOnly (sampleBefore ++ insertions sampleRefused) ∧
      ∀ call ∈ sampleRefused, ((BlockDag.run .hashOnly sampleBefore).insertBlock .hashOnly
        call.env call.block).1 ≠ .ok () := by
  unfold sampleRefused sampleBefore sampleChild sampleRoot
  rw [Crypto.hashOnly_eq_strict]
  decide +kernel

theorem clones_consistent_sample :
    (((ofClone (BlockDag.run .hashOnly sampleBefore)).run .hashOnly
      sampleRefused).view .original).Consistent ∧
    (((ofClone (BlockDag.run .hashOnly sampleBefore)).run .hashOnly
      sampleRefused).view .clone).Consistent := by
  obtain ⟨hsound, hrefused⟩ := sampleRefused_notOk
  have hcons := (clones_consistent_iff .hashOnly sampleBefore sampleRefused hsound).mpr
    fun call hmem acc => hrefused call hmem (insertBlock_ok_iff.mpr acc)
  exact ⟨hcons .original, hcons .clone⟩

set_option maxRecDepth 20000 in
theorem sampleAccepted_counts :
    (((ofClone (BlockDag.run .hashOnly sampleBefore)).run .hashOnly sampleAccepted).view
        .clone).getTopologicalOrder.length = 1 ∧
      (((ofClone (BlockDag.run .hashOnly sampleBefore)).run .hashOnly sampleAccepted).view
        .clone).blockCount = 2 := by
  unfold sampleAccepted sampleBefore sampleChild sampleRoot
  rw [Crypto.hashOnly_eq_strict]
  decide +kernel

/-- A child inserted through the original is stored for the clone and missing from its order. -/
theorem clone_misses_child :
    Sound .hashOnly (sampleBefore ++ insertions sampleAccepted) ∧
      ¬ (((ofClone (BlockDag.run .hashOnly sampleBefore)).run .hashOnly sampleAccepted).view
        .clone).Consistent := by
  obtain ⟨hlength, hcount⟩ := sampleAccepted_counts
  refine ⟨sampleCalls_evaluated.1, fun hcons => ?_⟩
  have hboth := hcons.length
  rw [hlength, hcount] at hboth
  cases hboth

end Sample

end SharedDag

namespace BlockDag

variable {c : Crypto}

/-- `BlockDAG::new` over the store found at its path. -/
def openStore (store : BlockStore) : BlockDag := ⟨store, .empty⟩

def Iterates (iter : Finset BlockHash → List BlockHash) : Prop :=
  ∀ tips, (iter tips).Nodup ∧ (iter tips).toFinset = tips

/-- `create_block_on_tips`, where the tips are iterated in the given order. -/
def createBlockOnTips (c : Crypto) (d : BlockDag) (iter : Finset BlockHash → List BlockHash)
    (timestamp : UInt64) (transactions : List Transaction) : Block :=
  Block.new c (iter d.getTips) timestamp transactions 0 0 0 (Bytes.zero 20) (Bytes.zero 32)

/-- The DAG that was opened shows what the one that was left behind showed, with the index that
`build_from_store` gives. -/
structure Restores (c : Crypto) (opened d : BlockDag) : Prop where
  builtTips : opened.getTips = (DagIndex.buildFromStore d.store).tips
  builtChildren : ∀ p, opened.getChildren p = (DagIndex.buildFromStore d.store).getChildren p
  tips : opened.getTips = d.getTips
  order : opened.getTopologicalOrder = d.getTopologicalOrder
  parents : ∀ iter iter', Iterates iter → Iterates iter' → ∀ timestamp transactions,
    (opened.createBlockOnTips c iter timestamp transactions).header.parentHashes.Perm
      (d.createBlockOnTips c iter' timestamp transactions).header.parentHashes

theorem Intact.tips_nonempty {d : BlockDag} (h : Intact c d) (hpos : d.blockCount ≠ 0) :
    d.getTips ≠ ∅ := by
  have wf := h.wellFormed
  obtain ⟨hash, ⟨s, hs, hlast⟩, -⟩ := wf.existsUnique_topo (i := d.blockCount - 1) (by omega)
  apply Finset.ne_empty_of_mem (a := hash)
  refine (h.indexes.tips hash).mpr ⟨⟨s, hs⟩, ?_⟩
  intro k hk
  obtain ⟨child, q, hchild, -, hq, hlt⟩ := wf.parentsOf hk
  obtain rfl : s = q := Option.some.inj (hs.symm.trans hq)
  have hbound := wf.topo_lt k child hchild
  omega

theorem Iterates.iter_empty {iter : Finset BlockHash → List BlockHash} (h : Iterates iter) :
    iter ∅ = [] := List.toFinset_eq_empty_iff _ |>.mp (h ∅).2

/-- Opening a store restores the view of the DAG that left it exactly when it is empty. -/
theorem openStore_restores_iff (c : Crypto) (calls : List Call) (hsound : Sound c calls) :
    Restores c (openStore (run c calls).store) (run c calls) ↔ (run c calls).blockCount = 0 := by
  have h := hsound.intact
  constructor
  · intro hres
    by_contra hpos
    exact h.tips_nonempty hpos hres.tips.symm
  · intro hzero
    have hnone := (BlockStore.blockCount_eq_zero_iff (run c calls).store).mp hzero
    have hstore : (run c calls).store = .empty := by
      have hblocks : (run c calls).store.blocks = ∅ := by
        apply Finmap.ext_lookup
        intro hash
        rw [Finmap.lookup_empty]
        exact hnone hash
      rw [BlockStore.empty, ← hblocks]
    have hopened : Intact c (openStore (run c calls).store) :=
      ⟨h.wellFormed.withIndex _, by rw [hstore]; exact indexes_empty⟩
    have hbuilt := DagIndex.indexes_buildFromStore h.hash_eq
    have htips : ∅ = (run c calls).getTips := (hopened.indexes.agree h.indexes).1
    refine ⟨(hopened.indexes.agree hbuilt).1, ?_, htips, ?_, ?_⟩
    · intro p
      have hperm : ((openStore (run c calls).store).getChildren p).Perm
          ((DagIndex.buildFromStore (run c calls).store).getChildren p) := by
        rw [List.perm_iff_count]
        intro k
        exact (hopened.indexes.children p k).trans (hbuilt.children p k).symm
      have hnil : (openStore (run c calls).store).getChildren p = [] := rfl
      rw [hnil] at hperm ⊢
      exact (List.nil_perm.mp hperm).symm
    · have hlength := hopened.length_order.trans hzero
      have hlength' := h.length_order.trans hzero
      rw [List.length_eq_zero_iff.mp hlength, List.length_eq_zero_iff.mp hlength']
    · intro iter iter' hiter hiter' timestamp transactions
      change (iter ∅).Perm (iter' (run c calls).getTips)
      rw [← htips, hiter.iter_empty, hiter'.iter_empty]

theorem openStore_restores_empty :
    Restores .hashOnly (openStore (run .hashOnly []).store) (run .hashOnly []) :=
  (openStore_restores_iff .hashOnly [] (by decide +kernel)).mpr (by decide +kernel)

set_option maxRecDepth 20000 in
theorem sampleCalls_opened :
    (openStore (run .hashOnly sampleCalls).store).getTopologicalOrder.length = 1 := by
  unfold sampleCalls sampleChild sampleRoot
  rw [Crypto.hashOnly_eq_strict]
  decide +kernel

/-- Genesis and a child are stored; the DAG that is opened does not list the child. -/
theorem openStore_forgets :
    Sound .hashOnly sampleCalls ∧
      ¬ Restores .hashOnly (openStore (run .hashOnly sampleCalls).store)
        (run .hashOnly sampleCalls) := by
  obtain ⟨hsound, hcount, -⟩ := sampleCalls_evaluated
  refine ⟨hsound, fun hres => ?_⟩
  have hlength := congrArg List.length hres.order
  rw [hsound.intact.length_order, hcount, sampleCalls_opened] at hlength
  cases hlength

end BlockDag

end CytahSpeed
