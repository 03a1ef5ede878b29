import CytahSpeed.Irrevocability
import CytahSpeed.Reachability

/-!
# What the anticone query returns

`get_anticone` keeps the blocks no lower than the given one that `can_reach` says it does not
reach. These are the blocks of its height that are listed before it: parallel blocks that are
lower, higher or listed later are left out. An answer is kept in a cache that no computation
empties, so it is also that of the DAG which was recorded when it was first asked for.
-/

namespace CytahSpeed
open ByteString FiniteMap MachineInt

namespace BlockDag

variable {c : Crypto} {d d' : BlockDag}

def anticone (d : BlockDag) (hash : BlockHash) : Finset BlockHash :=
  (d.getAllBlockHashes.filter (d.Parallel hash)).toFinset

def earlierPeers (d : BlockDag) (hash : BlockHash) : Finset BlockHash :=
  (d.getAllBlockHashes.filter fun other => d.heightAt other = d.heightAt hash ∧
    d.getTopologicalOrder.idxOf other < d.getTopologicalOrder.idxOf hash).toFinset

theorem mem_anticone {hash other : BlockHash} :
    other ∈ d.anticone hash ↔ (∃ s, d.getBlock other = some s) ∧ d.Parallel hash other := by
  rw [anticone, List.mem_toFinset, List.mem_filter, decide_eq_true_eq, getAllBlockHashes,
    d.store.mem_getAllHashes]
  rfl

theorem mem_earlierPeers {hash other : BlockHash} :
    other ∈ d.earlierPeers hash ↔ (∃ s, d.getBlock other = some s) ∧
      d.heightAt other = d.heightAt hash ∧
        d.getTopologicalOrder.idxOf other < d.getTopologicalOrder.idxOf hash := by
  rw [earlierPeers, List.mem_toFinset, List.mem_filter, decide_eq_true_eq, getAllBlockHashes,
    d.store.mem_getAllHashes]
  rfl

theorem WellFormed.heightRank_ancestor_lt (wf : WellFormed c d) {hash a : BlockHash}
    (ha : a ∈ d.getAncestors hash) : d.heightRank a < d.heightRank hash := by
  have ht := (DagIndex.mem_getAllAncestors hash a d.store).mp ha
  induction ht with
  | single hstep => exact wf.height_parent_lt hstep
  | tail hprev hstep ih =>
    exact (wf.height_parent_lt hstep).trans (ih ((DagIndex.mem_getAllAncestors _ _ _).mpr hprev))

theorem WellFormed.earlierPeers_subset (wf : WellFormed c d) (hash : BlockHash) :
    d.earlierPeers hash ⊆ d.anticone hash := by
  intro other hmem
  obtain ⟨hs, hheight, hlt⟩ := mem_earlierPeers.mp hmem
  have hrank : d.heightRank other = d.heightRank hash := by
    rw [heightRank, heightRank, hheight]
  refine mem_anticone.mpr ⟨hs, ?_, ?_, ?_⟩
  · rintro rfl
    exact lt_irrefl _ hlt
  · intro hanc
    have := wf.heightRank_ancestor_lt hanc
    omega
  · intro hanc
    have := wf.heightRank_ancestor_lt hanc
    omega

/-- The blocks of the first DAG are stored in the second and listed in the same order. -/
structure Within (d d' : BlockDag) : Prop where
  stored : ∀ hash s, d.getBlock hash = some s → d'.getBlock hash = some s
  order : ∀ x y, (∃ s, d.getBlock x = some s) → (∃ s, d.getBlock y = some s) →
    (d'.getTopologicalOrder.idxOf x < d'.getTopologicalOrder.idxOf y ↔
      d.getTopologicalOrder.idxOf x < d.getTopologicalOrder.idxOf y)

theorem Within.refl (d : BlockDag) : d.Within d :=
  ⟨fun _ _ hs => hs, fun _ _ _ _ => Iff.rfl⟩

theorem Within.trans {d'' : BlockDag} (h : d.Within d') (h' : d'.Within d'') : d.Within d'' := by
  refine ⟨fun hash s hs => h'.stored hash s (h.stored hash s hs), ?_⟩
  intro x y hx hy
  have hx' := hx.imp fun s hs => h.stored x s hs
  have hy' := hy.imp fun s hs => h.stored y s hs
  exact (h'.order x y hx' hy').trans (h.order x y hx hy)

theorem Intact.within_commit {env : CallEnv} {b : Block} (h : Intact c d)
    (acc : Accepts c env d b) (hfits : d.blockCount + 1 < 2 ^ 64)
    (hfree : d.getBlock (d.annotate c b).hash = none) :
    d.Within (d.commit (d.annotate c b)) := by
  refine ⟨fun hash s hs => getBlock_commit_of_some hfree hs, ?_⟩
  intro x y hx hy
  have hpos : d.blockCount ≠ 0 := hx.elim fun s hs => blockCount_ne_zero hs
  rw [FinalityEngine.idxOf_commit h acc hfits hfree hpos hx,
    FinalityEngine.idxOf_commit h acc hfits hfree hpos hy]
  split_ifs <;> omega

theorem Within.heightAt_eq (h : d.Within d') {hash : BlockHash} {s : Block}
    (hs : d.getBlock hash = some s) : d'.heightAt hash = d.heightAt hash := by
  rw [BlockDag.heightAt_eq hs, BlockDag.heightAt_eq (h.stored hash s hs)]

theorem Within.mem_earlierPeers (h : d.Within d') {hash other : BlockHash}
    (hs : ∃ s, d.getBlock hash = some s) :
    other ∈ d.earlierPeers hash ↔
      other ∈ d'.earlierPeers hash ∧ ∃ s, d.getBlock other = some s := by
  rw [BlockDag.mem_earlierPeers, BlockDag.mem_earlierPeers]
  obtain ⟨s, hs⟩ := hs
  constructor
  · rintro ⟨⟨s', hs'⟩, hheight, hlt⟩
    refine ⟨⟨⟨s', h.stored other s' hs'⟩, ?_, ?_⟩, ⟨s', hs'⟩⟩
    · rw [h.heightAt_eq hs, h.heightAt_eq hs', hheight]
    · exact (h.order other hash ⟨s', hs'⟩ ⟨s, hs⟩).mpr hlt
  · rintro ⟨⟨-, hheight, hlt⟩, ⟨s', hs'⟩⟩
    refine ⟨⟨s', hs'⟩, ?_, (h.order other hash ⟨s', hs'⟩ ⟨s, hs⟩).mp hlt⟩
    rwa [h.heightAt_eq hs, h.heightAt_eq hs'] at hheight

end BlockDag

namespace FinalityEngine

variable {c : Crypto} {d r : BlockDag} {e : FinalityEngine} {margin : UInt64 → UInt64}

section Loop

theorem canReach_frame (e : FinalityEngine) (source target : BlockHash) :
    ∃ intervalTree, (e.canReach source target).2 = { e with intervalTree } := by
  unfold canReach
  split
  · exact ⟨_, rfl⟩
  · split
    · exact ⟨_, rfl⟩
    · split
      · exact ⟨_, rfl⟩
      · unfold cacheReachability
        split
        · exact ⟨_, rfl⟩
        · exact ⟨_, rfl⟩

def Asked (e : FinalityEngine) (hash : BlockHash) (blockHeight : UInt64) (other : BlockHash) :
    Prop :=
  other ≠ hash ∧ blockHeight ≤ (e.blockHeights.lookup other).getD 0

theorem Answers.anticoneLoop_cons (h : e.Answers) (hash : BlockHash) (blockHeight : UInt64)
    (other : BlockHash) (rest : List BlockHash) (anticone : Finset BlockHash) :
    (¬ e.Asked hash blockHeight other ∧
      anticoneLoop hash blockHeight (other :: rest) anticone e =
        anticoneLoop hash blockHeight rest anticone e) ∨
    ∃ e', e'.Answers ∧ (∃ intervalTree, e' = { e with intervalTree }) ∧
      e.Asked hash blockHeight other ∧
      ((∃ err, e.computeReachability hash other = .error err ∧
        anticoneLoop hash blockHeight (other :: rest) anticone e = (.error err, e')) ∨
      ∃ answer, e.computeReachability hash other = .ok answer ∧
        anticoneLoop hash blockHeight (other :: rest) anticone e =
          anticoneLoop hash blockHeight rest (if answer then anticone else insert other anticone)
            e') := by
  rw [anticoneLoop]
  by_cases hself : other = hash
  · exact Or.inl ⟨fun hasked => hasked.1 hself, by rw [if_pos hself]⟩
  · rw [if_neg hself]
    by_cases hheight : (e.blockHeights.lookup other).getD 0 ≥ blockHeight
    · rw [if_pos hheight]
      obtain ⟨hanswer, hans, -, -⟩ := h.canReach hash other
      have hframe := canReach_frame e hash other
      refine Or.inr ⟨_, hans, hframe, ⟨hself, hheight⟩, ?_⟩
      cases hr : e.canReach hash other with
      | mk result e' =>
        rw [hr] at hanswer
        change result = _ at hanswer
        rw [← hanswer]
        cases result with
        | error err => exact Or.inl ⟨err, rfl, rfl⟩
        | ok answer =>
          refine Or.inr ⟨answer, rfl, ?_⟩
          cases answer with
          | false => rfl
          | true => rfl
    · exact Or.inl ⟨fun hasked => hheight hasked.2, by rw [if_neg hheight]⟩

theorem Answers.anticoneLoop_frame (h : e.Answers) (hash : BlockHash) (blockHeight : UInt64)
    (others : List BlockHash) (anticone : Finset BlockHash) :
    (∃ intervalTree, (anticoneLoop hash blockHeight others anticone e).2 =
      { e with intervalTree }) ∧
    (anticoneLoop hash blockHeight others anticone e).2.Answers := by
  induction others generalizing e anticone with
  | nil => exact ⟨⟨_, rfl⟩, h⟩
  | cons other rest ih =>
    rcases h.anticoneLoop_cons hash blockHeight other rest anticone with
      ⟨-, hloop⟩ | ⟨e', hans, ⟨tree, rfl⟩, -, ⟨err, -, hloop⟩ | ⟨answer, -, hloop⟩⟩
    · rw [hloop]
      exact ih h anticone
    · rw [hloop]
      exact ⟨⟨tree, rfl⟩, hans⟩
    · rw [hloop]
      obtain ⟨⟨tree', hframe⟩, hanswers⟩ := ih hans
        (if answer then anticone else insert other anticone)
      exact ⟨⟨tree', hframe⟩, hanswers⟩

theorem Answers.mem_anticoneLoop (h : e.Answers) {hash : BlockHash} {blockHeight : UInt64}
    {others : List BlockHash} {anticone found : Finset BlockHash}
    (hfound : (anticoneLoop hash blockHeight others anticone e).1 = .ok found) (x : BlockHash) :
    x ∈ found ↔ x ∈ anticone ∨ x ∈ others ∧ e.Asked hash blockHeight x ∧
      e.computeReachability hash x = .ok false := by
  induction others generalizing e anticone with
  | nil =>
    obtain rfl : anticone = found := Except.ok.inj hfound
    simp
  | cons other rest ih =>
    rw [List.mem_cons, or_and_right]
    rcases h.anticoneLoop_cons hash blockHeight other rest anticone with
      ⟨hskip, hloop⟩ | ⟨e', hans, ⟨tree, rfl⟩, hasked, ⟨err, -, hloop⟩ | ⟨answer, hok, hloop⟩⟩
    · rw [hloop] at hfound
      rw [ih h hfound, or_iff_right (a := x = other ∧ _)]
      rintro ⟨rfl, hasked, -⟩
      exact hskip hasked
    · rw [hloop] at hfound
      cases hfound
    · rw [hloop] at hfound
      rw [ih hans hfound]
      -- the answers do not depend on the tree
      change (x ∈ _ ∨ x ∈ rest ∧ e.Asked hash blockHeight x ∧
        e.computeReachability hash x = .ok false) ↔ _
      cases answer with
      | true =>
        rw [or_iff_right (a := x = other ∧ _)]
        · rfl
        · rintro ⟨rfl, -, hreach⟩
          rw [hok] at hreach
          cases hreach
      | false =>
        rw [if_neg Bool.false_ne_true, Finset.mem_insert, ← or_assoc, or_comm (a := x = other)]
        refine or_congr_left (or_congr_right ⟨?_, And.left⟩)
        rintro rfl
        exact ⟨rfl, hasked, hok⟩

theorem Answers.anticoneLoop_succeeds (h : e.Answers) {hash : BlockHash} {blockHeight : UInt64}
    {others : List BlockHash} (hall : ∀ x ∈ others, e.Asked hash blockHeight x →
      ∃ answer, e.computeReachability hash x = .ok answer) (anticone : Finset BlockHash) :
    ∃ found, (anticoneLoop hash blockHeight others anticone e).1 = .ok found := by
  induction others generalizing e anticone with
  | nil => exact ⟨anticone, rfl⟩
  | cons other rest ih =>
    have hrest := fun x hx => hall x (List.mem_cons_of_mem other hx)
    rcases h.anticoneLoop_cons hash blockHeight other rest anticone with
      ⟨-, hloop⟩ | ⟨e', hans, ⟨tree, rfl⟩, hasked, ⟨err, herr, hloop⟩ | ⟨answer, -, hloop⟩⟩
    · rw [hloop]
      exact ih h hrest anticone
    · obtain ⟨answer, hanswer⟩ := hall other List.mem_cons_self hasked
      rw [herr] at hanswer
      cases hanswer
    · rw [hloop]
      exact ih hans hrest _

end Loop

/-- The records are those of a DAG, and answers are kept as they would be computed. -/
structure Snapshot (c : Crypto) (e : FinalityEngine) (r : BlockDag) : Prop where
  intact : BlockDag.Intact c r
  fits : r.blockCount < 2 ^ 64
  records : e.Records r
  heights : ∀ hash height, e.blockHeights.lookup hash = some height →
    ∃ s, r.getBlock hash = some s
  answers : ∀ hash s, r.getBlock hash = some s → e.Answers

section Snapshot

theorem Snapshot.of_frame {e' : FinalityEngine} (h : Snapshot c e r)
    (hframe : ∃ intervalTree, e' = { e with intervalTree }) (hans : e.Answers → e'.Answers) :
    Snapshot c e' r := by
  obtain ⟨tree, rfl⟩ := hframe
  exact ⟨h.intact, h.fits, ⟨h.records.heights, h.records.scores⟩, h.heights,
    fun hash s hs => hans (h.answers hash s hs)⟩

theorem snapshot_computeFinality (h : BlockDag.Intact c d) (hfits : d.blockCount < 2 ^ 64)
    (hok : (e.computeFinality d margin).1 = .ok ()) :
    Snapshot c (e.computeFinality d margin).2 d ∧
      (e.computeFinality d margin).2.anticoneCache = e.anticoneCache := by
  have hans := answers_computeFinality hok
  have hrec := (computeFinality_ok h hfits hok).1
  rcases computeFinality_cases e d margin with
    ⟨err, he, -⟩ | ⟨acc, e', hacc, -, hc, hh, -, -, -, hcache, -⟩
  · rw [hok] at he
    cases he
  · refine ⟨⟨h, hfits, hrec, ?_, fun _ _ _ => hans⟩, by rw [hc]; exact hcache⟩
    intro hash height hl
    rw [hc] at hl
    change e'.blockHeights.lookup hash = some height at hl
    rw [hh, (collect_ok h.nodup_order hacc hash).1] at hl
    by_cases hmem : hash ∈ d.getTopologicalOrder
    · exact (h.mem_order hash).mp hmem
    · rw [if_neg hmem, Finmap.lookup_empty] at hl
      cases hl

theorem Snapshot.stored_of_computeReachability (h : Snapshot c e r) {source target : BlockHash}
    {answer : Bool} (hok : e.computeReachability source target = .ok answer) :
    ∃ s, r.getBlock target = some s := by
  cases hl : e.blockHeights.lookup target with
  | some height => exact h.heights target height hl
  | none =>
    rw [computeReachability, hl] at hok
    cases hsource : e.blockHeights.lookup source with
    | none =>
      rw [hsource] at hok
      cases hok
    | some height =>
      rw [hsource] at hok
      cases hok

/-- The blocks asked about that are not reached are the earlier ones of the same height: the order
is sorted by height. -/
theorem Snapshot.missed_iff (h : Snapshot c e r) {hash other : BlockHash} {b : Block}
    (hb : r.getBlock hash = some b) :
    e.Asked hash b.height other ∧ e.computeReachability hash other = .ok false ↔
      other ∈ r.earlierPeers hash := by
  rw [BlockDag.mem_earlierPeers]
  constructor
  · rintro ⟨⟨-, hle⟩, hreach⟩
    obtain ⟨s, hs⟩ := h.stored_of_computeReachability hreach
    rw [h.records.computeReachability_eq h.intact h.fits hb hs] at hreach
    have hlt := of_decide_eq_false (Except.ok.inj hreach)
    have hrank := h.intact.heightRank_le ⟨s, hs⟩ ⟨b, hb⟩ (Nat.le_of_not_le hlt)
    rw [h.records.heights other s hs, Option.getD_some, UInt64.le_iff_toNat_le] at hle
    rw [BlockDag.heightRank, BlockDag.heightRank, BlockDag.heightAt_eq hs,
      BlockDag.heightAt_eq hb] at hrank
    refine ⟨⟨s, hs⟩, ?_, Nat.lt_of_not_le hlt⟩
    rw [BlockDag.heightAt_eq hs, BlockDag.heightAt_eq hb]
    exact UInt64.toNat_inj.mp (Nat.le_antisymm hrank hle)
  · rintro ⟨⟨s, hs⟩, hheight, hlt⟩
    rw [BlockDag.heightAt_eq hs, BlockDag.heightAt_eq hb] at hheight
    refine ⟨⟨?_, ?_⟩, ?_⟩
    · rintro rfl
      exact lt_irrefl _ hlt
    · rw [h.records.heights other s hs, Option.getD_some, hheight]
      exact UInt64.le_refl b.height
    · rw [h.records.computeReachability_eq h.intact h.fits hb hs,
        decide_eq_false (Nat.not_le_of_lt hlt)]

theorem Snapshot.computeAnticone (h : Snapshot c e r) (hin : r.Within d) (hash : BlockHash) :
    (∃ intervalTree, (e.computeAnticone d hash).2 = { e with intervalTree }) ∧
      Snapshot c (e.computeAnticone d hash).2 r ∧
      ∀ found, (e.computeAnticone d hash).1 = .ok found →
        (∃ b, r.getBlock hash = some b) ∧ found = r.earlierPeers hash := by
  cases hl : e.blockHeights.lookup hash with
  | none =>
    simp only [FinalityEngine.computeAnticone, hl]
    exact ⟨⟨_, rfl⟩, h, fun found hfound => by cases hfound⟩
  | some blockHeight =>
    simp only [FinalityEngine.computeAnticone, hl]
    obtain ⟨b, hb⟩ := h.heights hash blockHeight hl
    obtain rfl : b.height = blockHeight := by
      rw [h.records.heights hash b hb] at hl
      exact Option.some.inj hl
    have hans := h.answers hash b hb
    obtain ⟨hframe, hans'⟩ := hans.anticoneLoop_frame hash b.height d.getAllBlockHashes ∅
    refine ⟨hframe, h.of_frame hframe fun _ => hans', ?_⟩
    intro found hfound
    refine ⟨⟨b, hb⟩, ?_⟩
    ext x
    rw [hans.mem_anticoneLoop hfound x, h.missed_iff hb]
    constructor
    · rintro (hx | ⟨-, hx⟩)
      · cases hx
      · exact hx
    · intro hx
      obtain ⟨s, hs⟩ := (BlockDag.mem_earlierPeers.mp hx).1
      exact Or.inr ⟨(d.store.mem_getAllHashes x).mpr ⟨s, hin.stored x s hs⟩, hx⟩

theorem Snapshot.computeAnticone_succeeds (h : Snapshot c e d) {hash : BlockHash} {b : Block}
    (hb : d.getBlock hash = some b) : ∃ found, (e.computeAnticone d hash).1 = .ok found := by
  simp only [FinalityEngine.computeAnticone, h.records.heights hash b hb]
  apply (h.answers hash b hb).anticoneLoop_succeeds
  intro x hx _
  obtain ⟨s, hs⟩ := (d.store.mem_getAllHashes x).mp hx
  exact ⟨_, h.records.computeReachability_eq h.intact h.fits hb hs⟩

end Snapshot

theorem lookup_limitAnticoneCache (order : IterOrder BlockHash AnticoneEntry)
    {cache : Map BlockHash AnticoneEntry} {hash : BlockHash} {entry : AnticoneEntry}
    (hl : (e.limitAnticoneCache order cache).lookup hash = some entry) :
    cache.lookup hash = some entry := by
  unfold limitAnticoneCache at hl
  split at hl
  · rw [lookup_foldl_erase (fun x : BlockHash × AnticoneEntry => x.1)] at hl
    split at hl
    · cases hl
    · exact hl
  · exact hl

/-- What a query does: answer from the cache, fail, or compute an anticone and cache it. -/
theorem getAnticone_cases (e : FinalityEngine) (d : BlockDag)
    (order : IterOrder BlockHash AnticoneEntry) (now : ℕ) (hash : BlockHash) :
    (∃ entry, e.anticoneCache.lookup hash = some entry ∧
      e.getAnticone d order now hash = (.ok entry.anticone, e)) ∨
    e.anticoneCache.lookup hash = none ∧
      ((∃ err, (e.computeAnticone d hash).1 = .error err ∧
        e.getAnticone d order now hash = (.error err, (e.computeAnticone d hash).2)) ∨
      ∃ found e', e.computeAnticone d hash = (.ok found, e') ∧
        e.getAnticone d order now hash = (.ok found,
          { e' with anticoneCache := e'.limitAnticoneCache order <|
              e'.anticoneCache.insert hash ⟨found, now, found.card⟩ })) := by
  unfold getAnticone
  cases hl : e.anticoneCache.lookup hash with
  | some entry => exact Or.inl ⟨entry, rfl, rfl⟩
  | none =>
    refine Or.inr ⟨rfl, ?_⟩
    cases hr : e.computeAnticone d hash with
    | mk result e' =>
      cases result with
      | error err => exact Or.inl ⟨err, rfl, rfl⟩
      | ok found => exact Or.inr ⟨found, e', rfl, rfl⟩

end FinalityEngine

/-- The calls of a run: insertions, computations of finality, and anticone queries made at the
system time `now`. -/
inductive AnticoneCall
  | insertBlock (env : CallEnv) (b : Block)
  | computeFinality
  | getAnticone (order : IterOrder BlockHash AnticoneEntry) (now : ℕ) (hash : BlockHash)

/-- A DAG and the engine that follows it. Beside them, for the proofs: the DAG as the last
successful computation saw it, and for each cached anticone the DAG it was computed from. -/
structure AnticoneState where
  dag : BlockDag
  engine : FinalityEngine
  recorded : BlockDag
  sources : Map BlockHash BlockDag

namespace AnticoneState

variable (c : Crypto) (margin : UInt64 → UInt64)

def start (confirmationDepth : ℕ) (k : UInt64) : AnticoneState :=
  ⟨.empty, .newWithK confirmationDepth k, .empty, ∅⟩

/-- The DAG that the answer about a block is taken from: that of the cached entry, or else the
recorded one. -/
def source (s : AnticoneState) (hash : BlockHash) : BlockDag :=
  match s.engine.anticoneCache.lookup hash with
  | some _ => (s.sources.lookup hash).getD s.recorded
  | none => s.recorded

def exec (s : AnticoneState) : AnticoneCall → AnticoneState
  | .insertBlock env b => { s with dag := (s.dag.insertBlock c env b).2 }
  | .computeFinality =>
    { s with
      engine := (s.engine.computeFinality s.dag margin).2
      recorded :=
        match (s.engine.computeFinality s.dag margin).1 with
        | .ok _ => s.dag
        | .error _ => s.recorded }
  | .getAnticone order now hash =>
    { s with
      engine := (s.engine.getAnticone s.dag order now hash).2
      sources := s.sources.insert hash (s.source hash) }

def run (s : AnticoneState) (calls : List AnticoneCall) : AnticoneState :=
  calls.foldl (exec c margin) s

def dagCalls (calls : List AnticoneCall) : List Call :=
  calls.filterMap fun
    | .insertBlock env b => some (.insertBlock env b)
    | _ => none

/-- The block is stored, and every parallel one has its height, is listed before it, and was
stored already in the DAG that the answer is taken from. -/
def Covered (s : AnticoneState) (hash : BlockHash) : Prop :=
  (∃ b, s.dag.getBlock hash = some b) ∧
    ∀ other b, s.dag.getBlock other = some b → s.dag.Parallel hash other →
      s.dag.heightAt other = s.dag.heightAt hash ∧
        s.dag.getTopologicalOrder.idxOf other < s.dag.getTopologicalOrder.idxOf hash ∧
          ∃ b, (s.source hash).getBlock other = some b

instance (s : AnticoneState) (hash : BlockHash) : Decidable (s.Covered hash) :=
  decidable_of_iff
    ((s.dag.getBlock hash).isSome = true ∧
      (s.dag.getAllBlockHashes.all fun other => s.dag.Parallel hash other →
        s.dag.heightAt other = s.dag.heightAt hash ∧
          s.dag.getTopologicalOrder.idxOf other < s.dag.getTopologicalOrder.idxOf hash ∧
            ((s.source hash).getBlock other).isSome = true) = true)
    (by
      simp only [Covered, Option.isSome_iff_exists, List.all_eq_true, decide_eq_true_eq,
        BlockDag.getAllBlockHashes, BlockStore.mem_getAllHashes, forall_exists_index]
      rfl)

/-- The engine has recorded an earlier state of the DAG, and cached anticones of earlier states. -/
structure Consistent (s : AnticoneState) : Prop where
  within : s.recorded.Within s.dag
  snapshot : s.engine.Snapshot c s.recorded
  cached : ∀ hash entry, s.engine.anticoneCache.lookup hash = some entry →
    ∃ d, s.sources.lookup hash = some d ∧ d.Within s.dag ∧ (∃ b, d.getBlock hash = some b) ∧
      entry.anticone = d.earlierPeers hash

variable {c margin} {s : AnticoneState}

theorem run_append (s : AnticoneState) (xs ys : List AnticoneCall) :
    s.run c margin (xs ++ ys) = (s.run c margin xs).run c margin ys := List.foldl_append

theorem dagCalls_append (xs ys : List AnticoneCall) :
    dagCalls (xs ++ ys) = dagCalls xs ++ dagCalls ys := List.filterMap_append

theorem dag_run (s : AnticoneState) (calls : List AnticoneCall) :
    (s.run c margin calls).dag = BlockDag.runFrom c s.dag (dagCalls calls) := by
  refine StepRun.proj_foldl dag _ (BlockDag.exec c) (fun s call => ?_) s calls
  cases call with
  | insertBlock env b => rfl
  | computeFinality => rfl
  | getAnticone order now hash => rfl

theorem source_of_none {hash : BlockHash} (hl : s.engine.anticoneCache.lookup hash = none) :
    s.source hash = s.recorded := by
  rw [source, hl]

theorem consistent_start (confirmationDepth : ℕ) (k : UInt64) :
    (start confirmationDepth k).Consistent c := by
  have hsound : BlockDag.Sound c [] := by
    refine ⟨?_, ?_⟩
    · intro x hx
      cases hx
    · exact Nat.two_pow_pos 64
  have hnone : ∀ hash s, BlockDag.empty.getBlock hash ≠ some s := fun hash s hs => by cases hs
  refine ⟨BlockDag.Within.refl _, ⟨hsound.intact, hsound.fits, ⟨?_, ?_⟩, ?_, ?_⟩, ?_⟩
  · exact fun hash s hs => absurd hs (hnone hash s)
  · intro hash score
    refine ⟨fun hl => ?_, fun hs => ?_⟩
    · simp [start, FinalityEngine.newWithK] at hl
    · obtain ⟨⟨s, hs⟩, -⟩ := hs
      exact absurd hs (hnone hash s)
  · intro hash height hl
    simp [start, FinalityEngine.newWithK] at hl
  · exact fun hash s hs => absurd hs (hnone hash s)
  · intro hash entry hl
    simp [start, FinalityEngine.newWithK] at hl

theorem Consistent.grow (h : s.Consistent c) {dag : BlockDag} (hin : s.dag.Within dag) :
    ({ s with dag } : AnticoneState).Consistent c := by
  refine ⟨h.within.trans hin, h.snapshot, ?_⟩
  intro hash entry hl
  obtain ⟨d, hd, hwithin, hrest⟩ := h.cached hash entry hl
  exact ⟨d, hd, hwithin.trans hin, hrest⟩

theorem Consistent.computeFinality (h : s.Consistent c) (hint : BlockDag.Intact c s.dag)
    (hfits : s.dag.blockCount < 2 ^ 64) : (s.exec c margin .computeFinality).Consistent c := by
  simp only [exec]
  rcases FinalityEngine.computeFinality_succeeds hint s.engine margin with hok | ⟨-, hempty⟩
  · obtain ⟨hsnap, hcache⟩ := FinalityEngine.snapshot_computeFinality hint hfits hok
    rw [hok]
    refine ⟨BlockDag.Within.refl _, hsnap, ?_⟩
    intro hash entry hl
    exact h.cached hash entry (hcache ▸ hl)
  · rw [hempty]
    exact h

theorem Consistent.cached_asked (h : s.Consistent c) (hash : BlockHash) {k : BlockHash}
    {entry : AnticoneEntry} (hk : s.engine.anticoneCache.lookup k = some entry) :
    ∃ d, (s.sources.insert hash (s.source hash)).lookup k = some d ∧ d.Within s.dag ∧
      (∃ b, d.getBlock k = some b) ∧ entry.anticone = d.earlierPeers k := by
  obtain ⟨d, hd, hrest⟩ := h.cached k entry hk
  refine ⟨d, ?_, hrest⟩
  rw [lookup_insert_eq_ite]
  by_cases he : k = hash
  · subst he
    rw [if_pos rfl, source, hk, hd, Option.getD_some]
  · rw [if_neg he, hd]

theorem Consistent.getAnticone (h : s.Consistent c) (order : IterOrder BlockHash AnticoneEntry)
    (now : ℕ) (hash : BlockHash) :
    (s.exec c margin (.getAnticone order now hash)).Consistent c := by
  obtain ⟨⟨tree, htree⟩, hsnap, hfound⟩ := h.snapshot.computeAnticone h.within hash
  simp only [exec]
  rcases FinalityEngine.getAnticone_cases s.engine s.dag order now hash with
    ⟨entry, -, heq⟩ | ⟨hnone, ⟨err, -, heq⟩ | ⟨found, e', hc, heq⟩⟩
  · rw [heq]
    exact ⟨h.within, h.snapshot, fun k entry hk => h.cached_asked hash hk⟩
  · rw [heq]
    refine ⟨h.within, hsnap, fun k entry hk => h.cached_asked hash ?_⟩
    rw [htree] at hk
    exact hk
  · rw [heq]
    rw [hc] at htree hsnap hfound
    obtain ⟨hstored, hpeers⟩ := hfound found rfl
    refine ⟨h.within, ⟨hsnap.intact, hsnap.fits, ⟨hsnap.records.heights, hsnap.records.scores⟩,
      hsnap.heights, hsnap.answers⟩, ?_⟩
    intro k entry hk
    have hk := FinalityEngine.lookup_limitAnticoneCache order hk
    rw [lookup_insert_eq_ite] at hk
    by_cases he : k = hash
    · subst he
      rw [if_pos rfl] at hk
      refine ⟨s.recorded, ?_, h.within, hstored, ?_⟩
      · change (s.sources.insert k (s.source k)).lookup k = _
        rw [lookup_insert_eq_ite, if_pos rfl, source_of_none hnone]
      · rw [← Option.some.inj hk, hpeers]
    · rw [if_neg he] at hk
      change e' = _ at htree
      rw [htree] at hk
      exact h.cached_asked hash hk

theorem consistent_run {confirmationDepth : ℕ} {k : UInt64} (calls : List AnticoneCall)
    (hsound : BlockDag.Sound c (dagCalls calls)) :
    ((start confirmationDepth k).run c margin calls).Consistent c := by
  induction calls using List.reverseRecOn with
  | nil => exact consistent_start confirmationDepth k
  | append_singleton calls call ih =>
    rw [dagCalls_append] at hsound
    have hbefore := hsound.append_left
    have h := ih hbefore
    have hdag : ((start confirmationDepth k).run c margin calls).dag =
        BlockDag.run c (dagCalls calls) := dag_run _ _
    rw [run_append]
    generalize (start confirmationDepth k).run c margin calls = s at h hdag
    have hint : BlockDag.Intact c s.dag := hdag ▸ hbefore.intact
    change (s.exec c margin call).Consistent c
    cases call with
    | insertBlock env b =>
      refine h.grow ?_
      rcases BlockDag.insertBlock_cases c env s.dag b with ⟨acc, he⟩ | ⟨-, err, he⟩
      · have hlast : BlockDag.Sound c (dagCalls calls ++ [.insertBlock env b]) := hsound
        have last := hlast.lastInsert (by rwa [← hdag])
        rw [← hdag] at last
        rw [he]
        exact hint.within_commit acc last.fits last.free
      · rw [he]
        exact BlockDag.Within.refl _
    | computeFinality => exact h.computeFinality hint (hdag ▸ hbefore.fits)
    | getAnticone order now hash => exact h.getAnticone order now hash

theorem Consistent.stored_of_getAnticone (h : s.Consistent c)
    {order : IterOrder BlockHash AnticoneEntry} {now : ℕ} {hash : BlockHash}
    {found : Finset BlockHash}
    (hok : (s.engine.getAnticone s.dag order now hash).1 = .ok found) :
    ∃ b, s.dag.getBlock hash = some b := by
  rcases FinalityEngine.getAnticone_cases s.engine s.dag order now hash with
    ⟨entry, hl, -⟩ | ⟨-, ⟨err, -, heq⟩ | ⟨anticone, e', hc, -⟩⟩
  · obtain ⟨d, -, hin, ⟨b, hb⟩, -⟩ := h.cached hash entry hl
    exact ⟨b, hin.stored hash b hb⟩
  · rw [heq] at hok
    cases hok
  · obtain ⟨-, -, hfound⟩ := h.snapshot.computeAnticone h.within hash
    obtain ⟨⟨b, hb⟩, -⟩ := hfound anticone (by rw [hc])
    exact ⟨b, h.within.stored hash b hb⟩

/-- While the records are current, a query about a stored block returns its earlier peers in the
DAG that the answer is taken from. -/
theorem Consistent.getAnticone_eq (h : s.Consistent c) (hcur : s.recorded = s.dag)
    {hash : BlockHash} {b : Block} (hb : s.dag.getBlock hash = some b)
    (order : IterOrder BlockHash AnticoneEntry) (now : ℕ) :
    (s.engine.getAnticone s.dag order now hash).1 = .ok ((s.source hash).earlierPeers hash) ∧
      (s.source hash).Within s.dag ∧ ∃ b, (s.source hash).getBlock hash = some b := by
  rcases FinalityEngine.getAnticone_cases s.engine s.dag order now hash with
    ⟨entry, hl, heq⟩ | ⟨hnone, hcomputed⟩
  · obtain ⟨d, hd, hin, hstored, hentry⟩ := h.cached hash entry hl
    have hsource : s.source hash = d := by rw [source, hl, hd, Option.getD_some]
    rw [heq, hsource, hentry]
    exact ⟨rfl, hin, hstored⟩
  · rw [source_of_none hnone]
    refine ⟨?_, h.within, b, hcur ▸ hb⟩
    obtain ⟨found, hfound⟩ := (hcur ▸ h.snapshot).computeAnticone_succeeds hb
    obtain ⟨-, -, hpeers⟩ := h.snapshot.computeAnticone h.within hash
    rcases hcomputed with ⟨err, herr, -⟩ | ⟨anticone, e', hc, heq⟩
    · rw [herr] at hfound
      cases hfound
    · rw [heq, ← (hpeers anticone (by rw [hc])).2]

theorem Consistent.getAnticone_iff (h : s.Consistent c) (hint : BlockDag.Intact c s.dag)
    (hcur : s.recorded = s.dag) (order : IterOrder BlockHash AnticoneEntry) (now : ℕ)
    (hash : BlockHash) :
    (s.engine.getAnticone s.dag order now hash).1 = .ok (s.dag.anticone hash) ↔
      s.Covered hash := by
  constructor
  · intro hok
    obtain ⟨b, hb⟩ := h.stored_of_getAnticone hok
    obtain ⟨heq, hin, hstored⟩ := h.getAnticone_eq hcur hb order now
    refine ⟨⟨b, hb⟩, ?_⟩
    intro other b' hb' hpar
    have hmem : other ∈ (s.source hash).earlierPeers hash := by
      rw [Except.ok.inj (heq.symm.trans hok)]
      exact BlockDag.mem_anticone.mpr ⟨⟨b', hb'⟩, hpar⟩
    obtain ⟨hpeer, hsource⟩ := (hin.mem_earlierPeers hstored).mp hmem
    obtain ⟨-, hheight, hlt⟩ := BlockDag.mem_earlierPeers.mp hpeer
    exact ⟨hheight, hlt, hsource⟩
  · rintro ⟨⟨b, hb⟩, hall⟩
    obtain ⟨heq, hin, hstored⟩ := h.getAnticone_eq hcur hb order now
    rw [heq]
    congr 1
    ext other
    rw [hin.mem_earlierPeers hstored]
    constructor
    · rintro ⟨hpeer, -⟩
      exact hint.wellFormed.earlierPeers_subset hash hpeer
    · intro hmem
      obtain ⟨⟨b', hb'⟩, hpar⟩ := BlockDag.mem_anticone.mp hmem
      obtain ⟨hheight, hlt, hsource⟩ := hall other b' hb' hpar
      exact ⟨BlockDag.mem_earlierPeers.mpr ⟨⟨b', hb'⟩, hheight, hlt⟩, hsource⟩

/-- In every run of insertions, computations and queries, a query right after a successful
computation returns the anticone of the block as it is now exactly when every parallel block has
its height, is listed before it, and was stored already when the answer was computed. -/
theorem getAnticone_exact_iff (c : Crypto) (margin : UInt64 → UInt64) (confirmationDepth : ℕ)
    (k : UInt64) (calls : List AnticoneCall) (hsound : BlockDag.Sound c (dagCalls calls))
    (s : AnticoneState) (hs : s = (start confirmationDepth k).run c margin calls)
    (hok : (s.engine.computeFinality s.dag margin).1 = .ok ())
    (order : IterOrder BlockHash AnticoneEntry) (now : ℕ) (hash : BlockHash) :
    ((s.exec c margin .computeFinality).engine.getAnticone s.dag order now hash).1 =
        .ok (s.dag.anticone hash) ↔
      (s.exec c margin .computeFinality).Covered hash := by
  have hdag : s.dag = BlockDag.run c (dagCalls calls) := by
    rw [hs]
    exact dag_run _ _
  have hint : BlockDag.Intact c s.dag := hdag ▸ hsound.intact
  have hbefore : s.Consistent c := hs ▸ consistent_run calls hsound
  have h : (s.exec c margin .computeFinality).Consistent c :=
    hbefore.computeFinality hint (hdag ▸ hsound.fits)
  refine h.getAnticone_iff hint ?_ order now hash
  simp only [exec, hok]

section Sample
open BlockDag FinalityEngine

def sampleQueried : List AnticoneCall :=
  [.insertBlock sampleEnv (genesisBlock .hashOnly 1000),
    .insertBlock sampleEnv (sampleChild 1001), .insertBlock sampleEnv (sampleChild 1002),
    .insertBlock sampleEnv sampleMerge, .computeFinality,
    .getAnticone .sorted 0 sampleTips.2]

def sampleMergeHash : BlockHash :=
  ⟨[109, 20, 249, 47, 0, 236, 42, 93, 13, 239, 72, 197, 5, 17, 250, 2, 89, 244, 197, 236, 8, 16, 5,
    91, 119, 96, 224, 166, 19, 46, 65, 242], rfl⟩

def sampleLate : List AnticoneCall :=
  [.getAnticone .sorted 0 sampleMergeHash,
    .insertBlock sampleEnv (FinalityState.sampleGrandchild 2001)]

def sampleAsked : AnticoneState := (start 2 1).run .hashOnly tenth sampleQueried

def sampleStale : AnticoneState := sampleAsked.run .hashOnly tenth sampleLate

set_option maxRecDepth 20000 in
theorem sampleStale_evaluated :
    Sound .hashOnly (dagCalls (sampleQueried ++ sampleLate)) ∧
      ((sampleAsked.engine.computeFinality sampleAsked.dag tenth).1 = .ok () ∧
        (sampleAsked.exec .hashOnly tenth .computeFinality).Covered sampleTips.2) ∧
      (sampleStale.engine.computeFinality sampleStale.dag tenth).1 = .ok () ∧
      ((sampleStale.exec .hashOnly tenth .computeFinality).engine.getAnticone sampleStale.dag
        .sorted 0 sampleTips.1).1 = .ok ∅ ∧
      sampleTips.2 ∈ sampleStale.dag.anticone sampleTips.1 ∧
      ((sampleStale.exec .hashOnly tenth .computeFinality).engine.getAnticone sampleStale.dag
        .sorted 0 sampleMergeHash).1 = .ok ∅ ∧
      (sampleStale.dag.anticone sampleMergeHash).card = 1 := by
  unfold sampleStale sampleAsked sampleQueried sampleLate sampleMerge FinalityState.sampleGrandchild
    sampleChild sampleRoot
  rw [Crypto.hashOnly_eq_strict]
  decide +kernel

/-- The second child is listed after the first, and its anticone is served from the cache. -/
theorem getAnticone_exact_sample :
    ((sampleAsked.exec .hashOnly tenth .computeFinality).engine.getAnticone sampleAsked.dag .sorted
      0 sampleTips.2).1 = .ok (sampleAsked.dag.anticone sampleTips.2) := by
  obtain ⟨hsound, ⟨hok, hcovered⟩, -⟩ := sampleStale_evaluated
  rw [dagCalls_append] at hsound
  have hs : sampleAsked = (start 2 1).run .hashOnly tenth sampleQueried := by rw [sampleAsked]
  exact (getAnticone_exact_iff .hashOnly tenth 2 1 sampleQueried hsound.append_left sampleAsked hs
    hok .sorted 0 sampleTips.2).mpr hcovered

/-- The second child is missing from the anticone of the first, which is listed before it. The
merge block was asked about before the late block arrived, and keeps an empty anticone. -/
theorem getAnticone_misses :
    ∃ calls, Sound .hashOnly (dagCalls calls) ∧
      sampleStale = (start 2 1).run .hashOnly tenth calls ∧
      (sampleStale.engine.computeFinality sampleStale.dag tenth).1 = .ok () ∧
      ((sampleStale.exec .hashOnly tenth .computeFinality).engine.getAnticone sampleStale.dag
        .sorted 0 sampleTips.1).1 ≠ .ok (sampleStale.dag.anticone sampleTips.1) ∧
      ((sampleStale.exec .hashOnly tenth .computeFinality).engine.getAnticone sampleStale.dag
        .sorted 0 sampleMergeHash).1 ≠ .ok (sampleStale.dag.anticone sampleMergeHash) := by
  obtain ⟨hsound, -, hok, hfirst, hmem, hmerge, hcard⟩ := sampleStale_evaluated
  refine ⟨sampleQueried ++ sampleLate, hsound, (run_append _ _ _).symm, hok, ?_, ?_⟩
  · rw [hfirst]
    intro he
    rw [← Except.ok.inj he] at hmem
    cases hmem
  · rw [hmerge]
    intro he
    rw [← Except.ok.inj he] at hcard
    cases hcard

end Sample

end AnticoneState

end CytahSpeed
