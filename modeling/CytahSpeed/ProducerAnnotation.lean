import CytahSpeed.BlockIdentity
import CytahSpeed.Ghostdag

/-!
# The producer's annotation against the DAG's

A producer annotates a block with the GHOSTDAG engine and inserts it; `insert_block` annotates it
again by its own rule. The engine prefers the parent with the largest past and then the least
hash, and scores by the size of the past; the DAG prefers the last of the highest parents and
scores by height. `AnnotationsAgree` is the shape of the parents for which both rules coincide.
-/

namespace CytahSpeed
open ByteString FiniteMap MachineInt Selection

namespace GhostdagEngine

variable {c : Crypto} {e : GhostdagEngine} {d : BlockDag} {b : Block}

theorem Coherent.calculateBlueScoreForNewBlock (h : Coherent e d)
    (wf : BlockDag.WellFormed c d) (hc : d.blockCount + 1 < 2 ^ 64) {p : BlockHash}
    (hbest : IsBest d.pastSize b.header.parentHashes p) {q : Block} (hq : d.getBlock p = some q) :
    ∃ score e', e.calculateBlueScoreForNewBlock b = (.ok score, e') ∧
      score.toNat = d.pastSize p + 2 := by
  refine ⟨_, _, rfl, ?_⟩
  obtain ⟨hmax, -⟩ := h.maxScoreLoop wf b.header.parentHashes 0
  have hscore : ∀ x, (scoreAt d x).toNat = 1 + d.pastSize x := toNat_scoreAt wf (by omega)
  obtain ⟨hle, heq⟩ := foldl_max_rank (scoreAt d) UInt64.toNat max toNat_max 0 rfl
    b.header.parentHashes
  rw [hmax, toNat_satAdd]
  generalize b.header.parentHashes.foldl (fun best a => max best (scoreAt d a)) 0 = r
    at hle heq ⊢
  have hr : r.toNat = 1 + d.pastSize p := by
    have hge := hle p hbest.1
    rw [hscore] at hge
    rcases heq with hzero | ⟨x, hx, he⟩
    · omega
    · rw [hscore] at he
      rcases hbest.2 x hx with hlt | ⟨hsame, -⟩ <;> omega
  have hlt := wf.pastSize_lt hq
  rw [hr]
  change min (1 + d.pastSize p + 1) u64Max = _
  simp only [u64Max]
  omega

theorem annotateBlock_root (hnil : b.header.parentHashes = []) :
    (e.annotateBlock c d b).1 =
      .ok (b.setConsensusMetadata c none 1 0 (UInt64.ofNat d.blockCount)) := by
  simp only [annotateBlock, hnil, List.isEmpty_nil, if_true, calculateBlueScoreForNewBlock,
    maxScoreLoop]
  rfl

theorem Coherent.annotateBlock_child (h : Coherent e d) (wf : BlockDag.WellFormed c d)
    (hc : d.blockCount + 1 < 2 ^ 64) (hne : b.header.parentHashes ≠ [])
    (hp : ∀ p ∈ b.header.parentHashes, ∃ q, d.getBlock p = some q) :
    ∃ p blueScore chainHeight, IsBest d.pastSize b.header.parentHashes p ∧
      blueScore.toNat = d.pastSize p + 2 ∧ chainHeight.toNat = d.heightRank p + 1 ∧
      (e.annotateBlock c d b).1 = .ok (b.setConsensusMetadata c (some p) blueScore chainHeight
        (UInt64.ofNat d.blockCount)) := by
  obtain ⟨p, e', hsel, hbest, hcoh⟩ := h.selectParentFromParents wf (by omega) hne
  obtain ⟨q, hq⟩ := hp p hbest.1
  obtain ⟨score, e'', hnew, hscore⟩ := hcoh.calculateBlueScoreForNewBlock wf hc hbest hq
  have hempty : b.header.parentHashes.isEmpty = false := by simpa using hne
  refine ⟨p, score, satAdd q.height 1, hbest, hscore, ?_, ?_⟩
  · have hlt := BlockDag.heightRank_lt wf hq
    rw [BlockDag.heightRank, BlockDag.heightAt_eq hq] at hlt ⊢
    rw [toNat_satAdd]
    change min (q.height.toNat + 1) u64Max = _
    simp only [u64Max]
    omega
  · simp only [annotateBlock, hempty, hsel, hnew, wf.getBlockHeight_eq hq, Option.getD_some,
      Bool.false_eq_true, if_false]

theorem annotateBlock_ok {b' : Block} (h : (e.annotateBlock c d b).1 = .ok b') :
    ∃ selectedParent blueScore chainHeight, b' = b.setConsensusMetadata c selectedParent blueScore
      chainHeight (UInt64.ofNat d.blockCount) := by
  unfold annotateBlock at h
  revert h
  generalize (if b.header.parentHashes.isEmpty then
    ((.ok none, e) : Except String (Option BlockHash) × GhostdagEngine) else _) = selected
  obtain ⟨selected, e'⟩ := selected
  cases selected with
  | error err => exact fun h => by cases h
  | ok selectedParent =>
    intro h
    exact ⟨_, _, _, (Except.ok.inj h).symm⟩

end GhostdagEngine

namespace BlockDag

variable {c : Crypto} {P : Set (List UInt8)} {env : CallEnv} {d : BlockDag} {b b' : Block}
  {e : GhostdagEngine}

/-- The parents for which both annotations coincide: none at all in an empty DAG, or a list whose
parent of largest past, the least hash among equals, is also the last of the highest, with a past
that is a chain. -/
def AnnotationsAgree (d : BlockDag) (b : Block) : Prop :=
  (b.header.parentHashes = [] ∧ d.blockCount = 0) ∨
    (b.header.parentHashes ≠ [] ∧ ∃ p, IsBest d.pastSize b.header.parentHashes p ∧
      IsLastMax d.heightRank b.header.parentHashes p ∧ d.pastSize p = d.heightRank p)

def StoredAsAnnotated (c : Crypto) (env : CallEnv) (d : BlockDag) (b : Block) : Prop :=
  (d.insertBlock c env b).1 = .ok () ∧
    ∃ s, (d.insertBlock c env b).2.getBlock b.hash = some s ∧ s.hash = b.hash ∧
      s.header.selectedParent = b.header.selectedParent ∧
      s.header.blueScore = b.header.blueScore ∧ s.header.chainHeight = b.header.chainHeight ∧
      s.header.topoIndex = b.header.topoIndex

theorem annotate_eq_iff (wf : WellFormed c d) (hc : d.blockCount + 1 < 2 ^ 64)
    (hcoh : GhostdagEngine.Coherent e d) (acc : Accepts c env d b')
    (hp : ∀ p ∈ b.header.parentHashes, ∃ q, d.getBlock p = some q)
    (hann : (e.annotateBlock c d b).1 = .ok b') :
    ((d.annotate c b').header.selectedParent = b'.header.selectedParent ∧
      (d.annotate c b').header.blueScore = b'.header.blueScore ∧
      (d.annotate c b').header.chainHeight = b'.header.chainHeight) ↔ d.AnnotationsAgree b := by
  by_cases hnil : b.header.parentHashes = []
  · rw [GhostdagEngine.annotateBlock_root hnil] at hann
    obtain rfl := Except.ok.inj hann
    refine iff_of_true ⟨?_, ?_, ?_⟩ (Or.inl ⟨hnil, acc.root hnil⟩)
    · exact selectedParent_annotate_root hnil
    · exact blueScore_annotate_root hnil
    · exact chainHeight_annotate_root hnil
  · obtain ⟨p, blue, height, hbest, hblue, hheight, hok⟩ :=
      hcoh.annotateBlock_child wf hc hnil hp
    obtain rfl := Except.ok.inj (hok.symm.trans hann)
    obtain ⟨q, hmax, hsel, hch, hbs⟩ := annotate_child (c := c)
      (b := b.setConsensusMetadata c (some p) blue height (UInt64.ofNat d.blockCount)) wf hnil hp hc
    rw [hsel, ← UInt64.toNat_inj, ← UInt64.toNat_inj, hch, hbs]
    simp only [Block.header_setConsensusMetadata, Option.some.injEq, hblue, hheight]
    constructor
    · intro hfields
      obtain ⟨rfl, hpast, -⟩ := hfields
      exact Or.inr ⟨hnil, q, hbest, hmax, by omega⟩
    · intro hagree
      rcases hagree with ⟨hnil', -⟩ | ⟨-, p', hbest', hmax', hpast⟩
      · exact absurd hnil' hnil
      · obtain rfl := hbest.unique hbest'
        obtain rfl := hmax.unique hmax'
        exact ⟨rfl, by omega, rfl⟩

theorem accepts_annotateBlock (htr : Tracked c P d) (hinj : Set.InjOn c.sha256 P)
    (hraw : b'.preimage c ∈ P) (hc : d.blockCount < 2 ^ 64)
    (hp : ∀ p ∈ b.header.parentHashes, ∃ q, d.getBlock p = some q)
    (hann : (e.annotateBlock c d b).1 = .ok b')
    (hvalid : b'.validateBasic c env.now = .ok ()) (hwrite : env.writeError = none)
    (hagree : d.AnnotationsAgree b) : Accepts c env d b' := by
  obtain ⟨sp, bs, ch, rfl⟩ := GhostdagEngine.annotateBlock_ok hann
  have htopo : (UInt64.ofNat d.blockCount).toNat = d.blockCount :=
    toNat_ofNat_of_le (by simp only [u64Max]; omega)
  have hfree := htr.getBlock_calculateHash hinj hraw htopo
  refine ⟨hvalid, hfree, hp, ?_, ?_, hwrite⟩
  · intro hnil
    rcases hagree with ⟨-, hzero⟩ | ⟨hne, -⟩
    · exact hzero
    · exact absurd hnil hne
  · intro h s hs he
    have hkey := (htr.wellFormed.hash h s hs).1
    rw [Block.hash_setConsensusMetadata] at he
    rw [← he, hkey, hs] at hfree
    cases hfree

/-- A block annotated by an engine attached to the DAG keeps its annotation on insertion exactly
when the two rules agree on its parents. -/
theorem annotateBlock_stored_iff (c : Crypto) (calls : List Call) (env : CallEnv)
    (e : GhostdagEngine) (b b' : Block)
    (hp : ∀ p ∈ b.header.parentHashes, ∃ q, (run c calls).getBlock p = some q)
    (hann : ((e.attachDag (run c calls)).annotateBlock c (run c calls) b).1 = .ok b')
    (hvalid : b'.validateBasic c env.now = .ok ()) (hwrite : env.writeError = none)
    (h : Sound c (calls ++ [.insertBlock env b'])) :
    StoredAsAnnotated c env (run c calls) b' ↔ (run c calls).AnnotationsAgree b := by
  have hcoh := GhostdagEngine.coherent_attachDag e (run c calls)
  constructor
  · intro hstored
    obtain ⟨hok, s, hs, hhash, hsel, hblue, hheight, -⟩ := hstored
    have acc := insertBlock_ok_iff.mp hok
    have last := h.lastInsert acc
    rw [insertBlock_of_accepts acc] at hs
    rcases getBlock_commit_eq_some hs with ⟨-, rfl⟩ | hs
    · exact (annotate_eq_iff last.tracked.wellFormed last.fits hcoh acc hp hann).mp
        ⟨hsel, hblue, hheight⟩
    · rw [acc.fresh] at hs
      cases hs
  · intro hagree
    have hraw := raw_mem_runHashed (c := c) calls env b'
    have acc := accepts_annotateBlock h.tracked_left h.injOn hraw h.append_left.fits hp hann
      hvalid hwrite hagree
    have last := h.lastInsert acc
    obtain ⟨hsel, hblue, hheight⟩ :=
      (annotate_eq_iff last.tracked.wellFormed last.fits hcoh acc hp hann).mpr hagree
    have htopo : ((run c calls).annotate c b').header.topoIndex = b'.header.topoIndex := by
      obtain ⟨sp, bs, ch, rfl⟩ := GhostdagEngine.annotateBlock_ok hann
      rfl
    have hhash : ((run c calls).annotate c b').hash = b'.hash := by
      have hpre := sameContent_annotate (c := c) (d := run c calls) (b := b').preimage_eq_iff.mpr
        ⟨hblue.symm, hheight.symm, htopo.symm, by rw [hsel]⟩
      rw [(Block.validateBasic_ok_iff.mp hvalid).1, hash_annotate, Block.calculateHash,
        Block.calculateHash, hpre]
    refine ⟨insertBlock_ok_iff.mpr acc, (run c calls).annotate c b', ?_, hhash, hsel, hblue,
      hheight, htopo⟩
    rw [insertBlock_of_accepts acc, ← hhash]
    exact getBlock_commit_self _

/-- The block that an engine attached to the DAG makes of a given one. -/
def sampleProduced (d : BlockDag) (b : Block) : Block :=
  match (((GhostdagEngine.new 2).attachDag d).annotateBlock .hashOnly d b).1 with
  | .ok b' => b'
  | .error _ => b

set_option maxRecDepth 20000 in
theorem sampleChild_produced :
    (((GhostdagEngine.new 2).attachDag (run .hashOnly [.createGenesisBlock 1000
        sampleEnv])).annotateBlock .hashOnly (run .hashOnly [.createGenesisBlock 1000 sampleEnv])
        (sampleChild 1001)).1 =
      .ok (sampleProduced (run .hashOnly [.createGenesisBlock 1000 sampleEnv])
        (sampleChild 1001)) ∧
    (sampleProduced (run .hashOnly [.createGenesisBlock 1000 sampleEnv])
      (sampleChild 1001)).validateBasic .hashOnly sampleEnv.now = .ok () ∧
    Sound .hashOnly ([.createGenesisBlock 1000 sampleEnv] ++ [.insertBlock sampleEnv
      (sampleProduced (run .hashOnly [.createGenesisBlock 1000 sampleEnv]) (sampleChild 1001))]) ∧
    ((run .hashOnly [.createGenesisBlock 1000 sampleEnv]).getBlock sampleRoot).isSome = true ∧
    (run .hashOnly [.createGenesisBlock 1000 sampleEnv]).pastSize sampleRoot =
      (run .hashOnly [.createGenesisBlock 1000 sampleEnv]).heightRank sampleRoot := by
  unfold sampleProduced sampleChild sampleRoot
  rw [Crypto.hashOnly_eq_strict]
  decide +kernel

theorem annotateBlock_stored_child :
    StoredAsAnnotated .hashOnly sampleEnv (run .hashOnly [.createGenesisBlock 1000 sampleEnv])
      (sampleProduced (run .hashOnly [.createGenesisBlock 1000 sampleEnv]) (sampleChild 1001)) := by
  obtain ⟨hann, hvalid, hsound, hroot, hpast⟩ := sampleChild_produced
  have hparents : (sampleChild 1001).header.parentHashes = [sampleRoot] := rfl
  refine (annotateBlock_stored_iff .hashOnly [.createGenesisBlock 1000 sampleEnv] sampleEnv
    (GhostdagEngine.new 2) (sampleChild 1001) _ ?_ hann hvalid rfl hsound).mpr
      (Or.inr ⟨by simp [hparents], sampleRoot, ?_, ?_, hpast⟩)
  · intro p hp
    obtain rfl : p = sampleRoot := List.mem_singleton.mp hp
    exact Option.isSome_iff_exists.mp hroot
  · refine ⟨List.mem_singleton_self _, fun y hy => Or.inr ?_⟩
    obtain rfl : y = sampleRoot := List.mem_singleton.mp hy
    exact ⟨rfl, le_rfl⟩
  · exact ⟨[], [], rfl, by simp, by simp⟩

def sampleFork : List Call :=
  [.createGenesisBlock 1000 sampleEnv, .insertBlock sampleEnv (sampleChild 1001),
    .insertBlock sampleEnv (sampleChild 1002)]

def sampleTips : BlockHash × BlockHash :=
  (⟨[0xea, 0xfd, 0xe0, 0x8f, 0xc5, 0x3c, 0xad, 0xe9, 0x8d, 0x63, 0x22, 0x66, 0x40, 0xba,
      0x93, 0x29, 0x19, 0xad, 0x69, 0x95, 0xb1, 0xeb, 0x1d, 0xb2, 0xa7, 0x4a, 0x74, 0xe0,
      0x55, 0xc8, 0x9e, 0x32], rfl⟩,
    ⟨[0x5c, 0x6e, 0x86, 0xa5, 0xe2, 0xee, 0x60, 0x94, 0x00, 0xf4, 0x1d, 0x9d, 0xf7, 0x26,
      0x6a, 0x53, 0x94, 0x62, 0x18, 0x74, 0x83, 0x31, 0xe8, 0xfe, 0xb3, 0x3b, 0x28, 0xc7,
      0x6a, 0x6c, 0x40, 0x9c], rfl⟩)

set_option maxRecDepth 20000 in
theorem sampleFork_evaluated :
    Sound .hashOnly sampleFork ∧ (run .hashOnly sampleFork).blockCount = 3 ∧
      ((run .hashOnly sampleFork).getTips = {sampleTips.1, sampleTips.2} ∧
        (run .hashOnly sampleFork).getTips.card = 2) ∧
      ((run .hashOnly sampleFork).getBlock sampleTips.1).map (·.header.parentHashes) =
        some [sampleRoot] ∧
      sampleRoot ∈ (run .hashOnly sampleFork).getAncestors sampleTips.1 ∧
      ((run .hashOnly sampleFork).store.getAllHashes.all fun x =>
        sampleTips.1 ∉ (run .hashOnly sampleFork).getAncestors x) = true := by
  unfold sampleFork sampleChild sampleRoot
  rw [Crypto.hashOnly_eq_strict]
  decide +kernel

def sampleMerge : Block :=
  Block.new .hashOnly [sampleTips.2, sampleTips.1] 1003 [] 0 0 0 (Bytes.zero 20) (Bytes.zero 32)

set_option maxRecDepth 20000 in
theorem sampleMerge_selected :
    (((GhostdagEngine.new 2).attachDag (run .hashOnly sampleFork)).annotateBlock .hashOnly
        (run .hashOnly sampleFork) sampleMerge).1 =
          .ok (sampleProduced (run .hashOnly sampleFork) sampleMerge) ∧
      (sampleProduced (run .hashOnly sampleFork) sampleMerge).validateBasic .hashOnly 1000 =
        .ok () ∧
      (sampleProduced (run .hashOnly sampleFork) sampleMerge).header.selectedParent =
        some sampleTips.2 ∧
      ((run .hashOnly sampleFork).annotate .hashOnly
        (sampleProduced (run .hashOnly sampleFork) sampleMerge)).header.selectedParent =
          some sampleTips.1 ∧
      ((run .hashOnly sampleFork).insertBlock .hashOnly sampleEnv
        (sampleProduced (run .hashOnly sampleFork) sampleMerge)).1 = .ok () ∧
      ((run .hashOnly sampleFork).insertBlock .hashOnly sampleEnv
        (sampleProduced (run .hashOnly sampleFork) sampleMerge)).2.getBlock
          (sampleProduced (run .hashOnly sampleFork) sampleMerge).hash = none := by
  unfold sampleProduced sampleMerge sampleFork sampleChild sampleRoot
  rw [Crypto.hashOnly_eq_strict]
  decide +kernel

/-- The merge block annotated by the engine is valid and accepted, and it is not stored as
annotated. -/
theorem sampleMerge_reannotated :
    (run .hashOnly sampleFork).getTips = {sampleTips.1, sampleTips.2} ∧
      (((GhostdagEngine.new 2).attachDag (run .hashOnly sampleFork)).annotateBlock .hashOnly
        (run .hashOnly sampleFork) sampleMerge).1 =
          .ok (sampleProduced (run .hashOnly sampleFork) sampleMerge) ∧
      (sampleProduced (run .hashOnly sampleFork) sampleMerge).validateBasic .hashOnly
        sampleEnv.now = .ok () ∧
      ((run .hashOnly sampleFork).insertBlock .hashOnly sampleEnv
        (sampleProduced (run .hashOnly sampleFork) sampleMerge)).1 = .ok () ∧
      ¬ StoredAsAnnotated .hashOnly sampleEnv (run .hashOnly sampleFork)
        (sampleProduced (run .hashOnly sampleFork) sampleMerge) := by
  obtain ⟨hann, hvalid, -, -, hok, hnone⟩ := sampleMerge_selected
  refine ⟨sampleFork_evaluated.2.2.1.1, hann, hvalid, hok, ?_⟩
  intro hstored
  obtain ⟨-, s, hs, -⟩ := hstored
  rw [hnone] at hs
  cases hs

end BlockDag

end CytahSpeed
