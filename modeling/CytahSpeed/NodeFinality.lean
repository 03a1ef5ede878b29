import CytahSpeed.Irrevocability
import CytahSpeed.NodeRun

/-!
# What a node holds to be final

Whatever a node has done, a check of finality on a DAG with a block succeeds, and what is final
afterwards is decided by the DAG of that moment alone. It stays so until the next check.
-/

namespace CytahSpeed
open ByteString MachineInt

namespace RunningNode

variable {c : Crypto} {scale : RewardScale} {margin : UInt64 → UInt64} {n : RunningNode}

def Event.Checks : Event → Prop
  | .checkFinality _ => True
  | _ => False

theorem finalityEngine_step {e : Event} (he : ¬ e.Checks) :
    (step c scale margin n e).finalityEngine = n.finalityEngine := by
  cases e with
  | initializeNode accounts env timestamp => rfl
  | addTransaction env tx =>
    change (n.addTransaction c env tx).2.finalityEngine = n.finalityEngine
    unfold addTransaction
    split
    · rfl
    · rfl
  | produceBlock call => rfl
  | insertBlock env block => rfl
  | checkFinality turns => exact absurd trivial he
  | setMining enabled => rfl

theorem finalityEngine_run {events : List Event} (h : ∀ e ∈ events, ¬ e.Checks) :
    (n.run c scale margin events).finalityEngine = n.finalityEngine := by
  induction events generalizing n with
  | nil => rfl
  | cons e events ih =>
    obtain ⟨he, hrest⟩ := List.forall_mem_cons.mp h
    exact (ih hrest).trans (finalityEngine_step he)

theorem k_checkFinality {turns : ℕ} {r : Except String Unit × RunningNode}
    (h : n.checkFinality margin turns = some r) :
    r.2.finalityEngine.k = n.finalityEngine.k := by
  unfold checkFinality at h
  split_ifs at h
  · cases h
    rfl
  · dsimp only at h
    split at h
    · cases h
    · cases h
      rfl
    · cases h
      exact n.finalityEngine.k_computeFinality n.blockdag margin

theorem k_run (events : List Event) :
    (n.run c scale margin events).finalityEngine.k = n.finalityEngine.k := by
  induction events generalizing n with
  | nil => rfl
  | cons e events ih =>
    refine ih.trans ?_
    by_cases he : e.Checks
    · cases e with
      | checkFinality turns =>
        change (((n.checkFinality margin turns).map Prod.snd).getD n).finalityEngine.k = _
        cases h : n.checkFinality margin turns with
        | none => rfl
        | some r => exact k_checkFinality h
      | _ => exact he.elim
    · rw [finalityEngine_step he]

theorem checkFinality_eq (margin : UInt64 → UInt64) (hint : BlockDag.Intact c n.blockdag)
    (hne : n.blockdag.blockCount ≠ 0) {turns : ℕ} (hturns : n.blockdag.blockCount < turns) :
    (n.finalityEngine.computeFinality n.blockdag margin).1 = .ok () ∧
      n.checkFinality margin turns = some (.ok (),
        { n with
          ghostdag := n.ghostdag.attachDag n.blockdag
          finalityEngine := (n.finalityEngine.computeFinality n.blockdag margin).2 }) := by
  have hlength := hint.length_order
  have hcomputed : (n.finalityEngine.computeFinality n.blockdag margin).1 = .ok () := by
    rcases FinalityEngine.computeFinality_succeeds hint n.finalityEngine margin with
      hok | ⟨hempty, -⟩
    · exact hok
    · rw [hempty] at hlength
      exact absurd hlength.symm hne
  have hstored : n.blockdag.store.getAllBlocks.isEmpty = false := by
    obtain ⟨hash, hmem⟩ := List.exists_mem_of_length_pos (Nat.pos_of_ne_zero hne)
    obtain ⟨block, hblock⟩ := (n.blockdag.store.mem_getAllHashes hash).mp hmem
    have hin := (n.blockdag.store.mem_getAllBlocks block).mpr ⟨hash, hblock⟩
    exact List.isEmpty_eq_false_iff.mpr (List.ne_nil_of_mem hin)
  obtain ⟨ordering, -, -, hrounds⟩ := GhostdagEngine.storedRounds_complete hint.wellFormed
  have hordering : (n.ghostdag.attachDag n.blockdag).generateOrdering turns =
      some (.ok ordering) := by
    rw [(GhostdagEngine.coherent_attachDag n.ghostdag n.blockdag).generateOrdering_eq hint
      (Nat.ne_of_gt (Nat.zero_lt_of_lt hturns)), hrounds turns hturns]
    rfl
  refine ⟨hcomputed, ?_⟩
  unfold checkFinality
  rw [hstored, if_neg Bool.false_ne_true]
  simp only [hordering]
  rcases hr : n.finalityEngine.computeFinality n.blockdag margin with ⟨result, engine⟩
  rw [hr] at hcomputed
  obtain rfl : result = .ok () := hcomputed
  rfl

theorem lastFinal_eq {e : FinalityEngine} (hk : e.k = 8) {count : ℕ} (hfits : count < 2 ^ 64) :
    e.lastFinal margin count = count - 1 - 8 - (margin (UInt64.ofNat (count - 1))).toNat := by
  have hcount : (UInt64.ofNat (count - 1)).toNat = count - 1 :=
    toNat_ofNat_of_le (by simp only [u64Max]; omega)
  have height : (8 : UInt64).toNat = 8 := rfl
  rw [FinalityEngine.lastFinal, FinalityEngine.calculateFinalityThreshold, toNat_satSub,
    toNat_satSub, hcount, hk, height]

/-- After a check on the DAG of a run, and until the next one, a block is final exactly if it was
stored at the check and was the first in the order, or followed by as many blocks as the margin
asks for and eight more. -/
theorem final_iff_followed (c : Crypto) (scale : RewardScale) (margin : UInt64 → UInt64)
    (config : Config) (hempty : config.blocks = .empty) (before after : List Event) (turns : ℕ)
    (hsound : BlockDag.Sound c ((new c config).dagRun c scale margin before))
    (hne : ((new c config).run c scale margin before).blockdag.blockCount ≠ 0)
    (hturns : ((new c config).run c scale margin before).blockdag.blockCount < turns)
    (hafter : ∀ e ∈ after, ¬ e.Checks) (hash : BlockHash) :
    let n := (new c config).run c scale margin before
    let d := n.blockdag
    let n' := n.run c scale margin (.checkFinality turns :: after)
    let position := d.getTopologicalOrder.idxOf hash
    (∃ checked, n.checkFinality margin turns = some (.ok (), checked)) ∧
      (n'.finalityEngine.isFinalized hash = true ↔
        (∃ block, d.getBlock hash = some block) ∧
          (position = 0 ∨
            position + 8 + (margin (UInt64.ofNat (d.blockCount - 1))).toNat < d.blockCount)) := by
  intro n d n' position
  have hdag : d = BlockDag.run c ((new c config).dagRun c scale margin before) := by
    change n.blockdag = _
    rw [blockdag_run]
    change BlockDag.runFrom c (BlockDag.openStore config.blocks) _ = _
    rw [hempty]
    rfl
  have hint : BlockDag.Intact c d := hdag ▸ hsound.intact
  have hfits : d.blockCount < 2 ^ 64 := hdag ▸ hsound.fits
  obtain ⟨hok, hcheck⟩ := checkFinality_eq margin hint hne hturns
  refine ⟨⟨_, hcheck⟩, ?_⟩
  have hlast : n'.finalityEngine = (n.finalityEngine.computeFinality d margin).2 := by
    refine (finalityEngine_run hafter).trans ?_
    change (((n.checkFinality margin turns).map Prod.snd).getD n).finalityEngine = _
    rw [hcheck]
    rfl
  have hk : n.finalityEngine.k = 8 := k_run before
  rw [hlast, (FinalityEngine.computeFinality_ok hint hfits hok).2, lastFinal_eq hk hfits]
  change d.blockCount ≠ 0 at hne
  exact and_congr_right fun _ => by omega

section Sample
open BlockDag

def sampleConfig : Config :=
  ⟨Bytes.zero 20, 6, 10, .empty, ⟨∅⟩, ⟨∅⟩, .new sampleEngine, .sorted⟩

def sampleGrowth (c : Crypto) (d : BlockDag) : List UInt64 → List Block
  | [] => []
  | timestamp :: timestamps =>
    let block := Block.new c (FiniteMap.SetOrder.sorted.iter d.getTips) timestamp [] 0 0 0
      (Bytes.zero 20)
      (Bytes.zero 32)
    block :: sampleGrowth c (d.insertBlock c sampleEnv block).2 timestamps

def sampleLater (c : Crypto) : List Block :=
  sampleGrowth c (BlockDag.run c [.createGenesisBlock 1000 sampleEnv])
    [1001, 1002, 1003, 1004, 1005, 1006, 1007, 1008, 1009, 1010]

def sampleChain (c : Crypto) : List Call :=
  .createGenesisBlock 1000 sampleEnv :: (sampleLater c).map (.insertBlock sampleEnv)

/-- The node makes the genesis block and is given further ones. -/
def startWith (blocks : List Block) : List Event :=
  .initializeNode .sorted sampleEnv 1000 :: blocks.map (.insertBlock sampleEnv)

theorem dagRun_insertBlocks (c : Crypto) (scale : RewardScale) (margin : UInt64 → UInt64)
    (n : RunningNode) (blocks : List Block) :
    n.dagRun c scale margin (blocks.map (Event.insertBlock sampleEnv)) =
      blocks.map (Call.insertBlock sampleEnv) := by
  unfold dagRun
  induction blocks generalizing n with
  | nil => rfl
  | cons block blocks ih => exact congrArg (Call.insertBlock sampleEnv block :: ·) (ih _)

theorem dagRun_startWith (c : Crypto) (scale : RewardScale) (margin : UInt64 → UInt64)
    (blocks : List Block) : (new c sampleConfig).dagRun c scale margin (startWith blocks) =
      .createGenesisBlock 1000 sampleEnv :: blocks.map (.insertBlock sampleEnv) :=
  congrArg (Call.createGenesisBlock 1000 sampleEnv :: ·) (dagRun_insertBlocks _ _ _ _ _)

theorem blockdag_startWith (c : Crypto) (scale : RewardScale) (margin : UInt64 → UInt64)
    (blocks : List Block) : ((new c sampleConfig).run c scale margin (startWith blocks)).blockdag =
      BlockDag.run c (.createGenesisBlock 1000 sampleEnv ::
        blocks.map (.insertBlock sampleEnv)) := by
  rw [blockdag_run, dagRun_startWith]
  rfl

def sampleNext : BlockHash :=
  ⟨[67, 222, 3, 28, 248, 218, 46, 9, 28, 94, 144, 125, 183, 160, 203, 60, 219, 52, 25, 128, 150, 48,
    70, 113, 133, 182, 126, 167, 204, 211, 213, 13], rfl⟩

set_option maxRecDepth 20000 in
theorem sampleChain_evaluated :
    Sound .hashOnly (sampleChain .hashOnly) ∧
      (BlockDag.run .hashOnly (sampleChain .hashOnly)).blockCount = 11 ∧
      ((BlockDag.run .hashOnly (sampleChain .hashOnly)).getBlock sampleLeaf).isSome = true ∧
      (BlockDag.run .hashOnly (sampleChain .hashOnly)).getTopologicalOrder.idxOf sampleLeaf = 1 ∧
      (BlockDag.run .hashOnly (sampleChain .hashOnly)).getTopologicalOrder.idxOf sampleNext =
        2 := by
  unfold sampleLeaf sampleChild sampleRoot
  rw [Crypto.hashOnly_eq_strict]
  decide +kernel

attribute [local irreducible] BlockDag.getAncestors

/-- With eleven blocks the margin is one: the child of the genesis block is followed by nine and is
final, the next block is followed by eight and is not. -/
theorem final_iff_followed_sample :
    let n := ((new .hashOnly sampleConfig).run .hashOnly (fun _ _ _ => 0) FinalityEngine.tenth
      (startWith (sampleLater .hashOnly))).run .hashOnly (fun _ _ _ => 0) FinalityEngine.tenth
        [.checkFinality 12, .setMining true]
    n.finalityEngine.isFinalized sampleLeaf = true ∧
      n.finalityEngine.isFinalized sampleNext = false := by
  obtain ⟨hsound, hcount, hstored, hsecond, hthird⟩ := sampleChain_evaluated
  unfold sampleChain at hsound hcount hstored hsecond hthird
  have hdag := blockdag_startWith .hashOnly (fun _ _ _ => 0) FinalityEngine.tenth
    (sampleLater .hashOnly)
  have hlater : ∀ e ∈ [Event.setMining true], ¬ e.Checks := fun e he => by
    rw [List.mem_singleton.mp he]
    exact id
  have hiff := fun hash => (final_iff_followed .hashOnly (fun _ _ _ => 0) FinalityEngine.tenth
    sampleConfig rfl (startWith (sampleLater .hashOnly)) [.setMining true] 12
    (by rw [dagRun_startWith]; exact hsound) (by rw [hdag, hcount]; decide)
    (by rw [hdag, hcount]; decide) hlater hash).2
  rw [hdag, hcount] at hiff
  constructor
  · refine (hiff sampleLeaf).mpr ⟨Option.isSome_iff_exists.mp hstored, Or.inr ?_⟩
    rw [hsecond]
    decide
  · rw [Bool.eq_false_iff]
    intro hfinal
    obtain ⟨-, hposition⟩ := (hiff sampleNext).mp hfinal
    rw [hthird] at hposition
    exact absurd hposition (by decide)

end Sample

end RunningNode

end CytahSpeed
