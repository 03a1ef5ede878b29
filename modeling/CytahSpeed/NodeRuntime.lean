import CytahSpeed.Emission
import CytahSpeed.ExecutionHistory

/-!
# The two ledgers of a node

A node answers questions from one state manager and executes blocks on another. The genesis
allocation, the rewards and the emission counter go to the first, and nothing funds the second: no
transfer is ever executed there and no gas is ever paid. The two agree after a block only on the
accounts that nothing was ever credited to.
-/

namespace CytahSpeed
open ByteString FiniteMap MachineInt StateManager TransactionExecutor

namespace Mining

/-- `scaled` is the double-precision product of base reward, activity multiplier and transaction
factor, truncated: it depends on the DAG and the number of transactions. -/
def calculateExpectedBlockReward (emittedSupply scaled : UInt64) : UInt64 :=
  let reward := max scaled (UInt64.ofNat ctsMinimumReward)
  let remainingSupply := satSub (UInt64.ofNat ctsMiningSupply) emittedSupply
  if remainingSupply = 0 then 0
  else if reward > remainingSupply then remainingSupply
  else reward

theorem calculateReward_eq (txCount : ℕ) :
    calculateReward txCount = calculateExpectedBlockReward 0
      (UInt64.ofNat (ctsInitialReward * 1000 / (1000 + txCount))) := by
  have hsupply : satSub (UInt64.ofNat ctsMiningSupply) 0 = UInt64.ofNat ctsMiningSupply := rfl
  have hne : UInt64.ofNat ctsMiningSupply ≠ 0 := by decide
  have hword : (UInt64.ofNat ctsMiningSupply).toNat = ctsMiningSupply := rfl
  have hminimum : (UInt64.ofNat ctsMinimumReward).toNat = ctsMinimumReward := rfl
  have hlimits : ctsInitialReward ≤ ctsMiningSupply ∧ ctsMinimumReward ≤ ctsMiningSupply ∧
      ctsMiningSupply ≤ u64Max := by decide
  have hscaled : ctsInitialReward * 1000 / (1000 + txCount) ≤ ctsInitialReward :=
    Nat.div_le_of_le_mul (by rw [Nat.mul_comm]; exact Nat.mul_le_mul_right _ (by omega))
  have hreward : (max (UInt64.ofNat (ctsInitialReward * 1000 / (1000 + txCount)))
      (UInt64.ofNat ctsMinimumReward)).toNat =
        max (ctsInitialReward * 1000 / (1000 + txCount)) ctsMinimumReward := by
    rw [UInt64.toNat_max, toNat_ofNat_of_le (by omega), hminimum]
  have hfits : ¬ max (UInt64.ofNat (ctsInitialReward * 1000 / (1000 + txCount)))
      (UInt64.ofNat ctsMinimumReward) > UInt64.ofNat ctsMiningSupply := by
    rw [gt_iff_lt, UInt64.lt_iff_toNat_lt, hreward, hword]
    omega
  unfold calculateExpectedBlockReward calculateReward
  simp only [hsupply, if_neg hne, if_neg hfits]
  apply UInt64.toNat_inj.mp
  rw [hreward, toNat_ofNat_of_le (by omega)]
  omega

theorem calculateExpectedBlockReward_zero_ne (scaled : UInt64) :
    calculateExpectedBlockReward 0 scaled ≠ 0 := by
  have hremaining : satSub (UInt64.ofNat ctsMiningSupply) 0 = UInt64.ofNat ctsMiningSupply := rfl
  have hsupply : UInt64.ofNat ctsMiningSupply ≠ 0 := by decide
  have hmin : (UInt64.ofNat ctsMinimumReward).toNat = 1 := rfl
  unfold calculateExpectedBlockReward
  simp only [hremaining, if_neg hsupply]
  split_ifs
  · exact hsupply
  · intro hzero
    have hnat := congrArg UInt64.toNat hzero
    rw [UInt64.toNat_max, hmin, UInt64.toNat_zero] at hnat
    omega

end Mining

structure NodeRuntime where
  stateManager : StateManager
  executor : TransactionExecutor

namespace NodeRuntime

variable (c : Crypto) (order : IterOrder Address Account)

/-- The executor has a state manager of its own, with the registry and the store that are on disk
already. -/
def newWithConfigAndDb (registry : ContractRegistry) (storage : ContractStorage)
    (runtime : WasmRuntime) : NodeRuntime :=
  ⟨.new c order, ⟨⟨.new c order, registry, storage, runtime⟩⟩⟩

def initializeNode (n : NodeRuntime) : NodeRuntime :=
  { n with stateManager := n.stateManager.initializeTokenomics c order }

/-- Pruning, which comes last, leaves the state as it is. -/
def executeBlock (n : NodeRuntime) (scaled : UInt64) (block : Block) :
    Except String Unit × NodeRuntime :=
  let expectedReward :=
    Mining.calculateExpectedBlockReward n.stateManager.getEmittedSupply scaled
  if expectedReward ≠ block.reward then
    (.error ("Invalid block reward: expected " ++ toString expectedReward ++ " but block has " ++
      toString block.reward), n)
  else
    let (result, executor) := n.executor.executeBlock c order block
    if result.success then
      match n.stateManager.applyBlock block.transactions with
      | (.error e, state) => (.error e, ⟨state, executor⟩)
      | (.ok _, state) =>
        let totalMinerCredit := satAdd (satAdd 0 block.reward) result.totalFees
        match state.creditAccount c order block.producer totalMinerCredit with
        | (.error e, state) => (.error e, ⟨state, executor⟩)
        | (.ok _, state) =>
          (.ok (), ⟨state.addEmittedSupply c order (satAdd block.reward result.totalFees),
            executor⟩)
    else (.ok (), ⟨n.stateManager, executor⟩)

structure BlockCall where
  order : IterOrder Address Account
  scaled : UInt64
  block : Block

/-- The call returns without error, and so do all transactions of the block. -/
structure Succeeds (n : NodeRuntime) (call : BlockCall) : Prop where
  ok : (n.executeBlock c call.order call.scaled call.block).1 = .ok ()
  success : (n.executor.executeBlock c call.order call.block).1.success = true

/-- The node, and the producers of the blocks it was given. -/
abbrev Tracked := NodeRuntime × List Address

def track (s : Tracked) (call : BlockCall) : Tracked :=
  ((s.1.executeBlock c call.order call.scaled call.block).2, s.2 ++ [call.block.producer])

/-- Apart from the producers, both state managers have the same balances and nonces. -/
def OneLedger (s : Tracked) : Prop :=
  ∀ address ∉ s.2, accountOrNew s.1.stateManager.stateTree address =
    accountOrNew s.1.executor.contractExecutor.stateManager.stateTree address

section Executor
variable {c} {e : ContractExecutor}

def Unfunded (s : StateManager) : Prop :=
  ∀ address, accountOrNew s.stateTree address = ⟨0, 0⟩

theorem stateManager_step_of_unfunded (h : Unfunded e.stateManager) (a : Attempt) :
    (step c e a).stateManager = e.stateManager := by
  have hrefused : ∀ toAddr amount, a.2.payload = .transfer toAddr amount → ¬ e.Accepts c a.2 := by
    intro toAddr amount hp haccepts
    have htr := (ContractExecutor.accepts_transfer hp).mp haccepts
    have hcovered := htr.covered
    rw [h] at hcovered
    exact htr.satAdd_ne_zero (UInt64.le_zero_iff.mp hcovered)
  rcases step_noTransfer hrefused with ⟨fee, -, hpay, hs⟩ | ⟨-, hs⟩
  · have hzero : fee = 0 := by
      rcases hpay with hzero | hle
      · exact hzero
      · rw [h] at hle
        exact UInt64.le_zero_iff.mp hle
    rw [hs]
    simp only [deductFee, hzero, if_true]
  · exact hs

theorem stateManager_foldl_of_unfunded (as : List Attempt) (h : Unfunded e.stateManager) :
    (as.foldl (step c) e).stateManager = e.stateManager := by
  induction as generalizing e with
  | nil => rfl
  | cons a as ih =>
    have hstep := stateManager_step_of_unfunded (c := c) h a
    rw [List.foldl_cons, ih (hstep ▸ h), hstep]

theorem stateManager_executeBlock_of_unfunded {ex : TransactionExecutor}
    (h : Unfunded ex.contractExecutor.stateManager) (order : IterOrder Address Account)
    (block : Block) :
    (ex.executeBlock c order block).2.contractExecutor.stateManager =
      ex.contractExecutor.stateManager := by
  have hrun : (ex.executeBlock c order block).2.contractExecutor =
      (attempted c order ex.contractExecutor block.transactions).foldl (step c)
        ex.contractExecutor := executeLoop_eq_foldl 0 0 block.transactions
  rw [hrun]
  exact stateManager_foldl_of_unfunded _ h

end Executor

section Node
variable {c order} {s : StateManager} {address : Address}

theorem eq_of_creditAccount_error {s' : StateManager} {toAddr : Address} {amount : UInt64}
    {err : String} (h : s.creditAccount c order toAddr amount = (.error err, s')) : s' = s := by
  simp only [creditAccount] at h
  split_ifs at h
  · cases h
  · exact (Prod.mk.inj h).2.symm
  · cases h

theorem accountOrNew_creditAccount_of_ne {toAddr : Address} (amount : UInt64)
    (h : address ≠ toAddr) :
    accountOrNew (s.creditAccount c order toAddr amount).2.stateTree address =
      accountOrNew s.stateTree address := by
  simp only [creditAccount]
  split_ifs
  · rfl
  · rfl
  · exact (accountOrNew_updateAccount _ _).trans (if_neg h)

theorem accountOrNew_addEmittedSupply_of_ne (amount : UInt64)
    (h : address ≠ emissionStateAccount) :
    accountOrNew (s.addEmittedSupply c order amount).stateTree address =
      accountOrNew s.stateTree address := by
  unfold addEmittedSupply
  split_ifs
  · rfl
  · dsimp only
    split_ifs
    · rfl
    · exact (accountOrNew_updateAccount _ _).trans (if_neg h)

theorem getEmittedSupply_addEmittedSupply_ne_zero {amount : UInt64}
    (h : s.getEmittedSupply = 0 → amount ≠ 0) :
    (s.addEmittedSupply c order amount).getEmittedSupply ≠ 0 := by
  have hword : (UInt64.ofNat Mining.ctsMiningSupply).toNat = Mining.ctsMiningSupply := rfl
  have hsupply : 0 < Mining.ctsMiningSupply := by decide
  have heq := getEmittedSupply_eq s
  unfold addEmittedSupply
  by_cases hzero : amount = 0
  · rw [if_pos hzero]
    exact fun hs => h hs hzero
  · rw [if_neg hzero]
    dsimp only
    rw [← heq]
    by_cases hrest : satSub (UInt64.ofNat Mining.ctsMiningSupply) s.getEmittedSupply = 0
    · -- the whole mining supply is emitted
      have hsub := congrArg UInt64.toNat hrest
      rw [toNat_satSub, hword, UInt64.toNat_zero] at hsub
      rw [if_pos hrest]
      intro hs
      rw [hs, UInt64.toNat_zero] at hsub
      omega
    · rw [if_neg hrest, getEmittedSupply_updateAccount, if_pos rfl]
      intro hs
      have hnat := congrArg UInt64.toNat hs
      have hamount : 0 < amount.toNat := UInt64.pos_iff_ne_zero.mpr hzero
      have hremaining : 0 < (satSub (UInt64.ofNat Mining.ctsMiningSupply)
        s.getEmittedSupply).toNat := UInt64.pos_iff_ne_zero.mpr hrest
      have hmax : 0 < u64Max := by decide
      rw [toNat_satAdd, UInt64.toNat_min, UInt64.toNat_zero] at hnat
      omega

/-- What a call does: the executor takes the block or does not, and the node's own state manager is
left, or credits the producer and counts the reward. -/
theorem track_cases (c : Crypto) (n : NodeRuntime) (producers : List Address) (call : BlockCall) :
    ((track c (n, producers) call).1.executor = n.executor ∨
      (track c (n, producers) call).1.executor =
        (n.executor.executeBlock c call.order call.block).2) ∧
    ((¬ Succeeds c n call ∧ (track c (n, producers) call).1.stateManager = n.stateManager) ∨
    (Succeeds c n call ∧
      Mining.calculateExpectedBlockReward n.stateManager.getEmittedSupply call.scaled =
        call.block.reward ∧
      ∃ credit fees, (track c (n, producers) call).1.stateManager =
        (n.stateManager.creditAccount c call.order call.block.producer credit).2.addEmittedSupply c
          call.order (satAdd call.block.reward fees))) := by
  obtain ⟨r, n', hr⟩ : ∃ r n', n.executeBlock c call.order call.scaled call.block = (r, n') :=
    ⟨_, _, Prod.mk.eta.symm⟩
  have htrack : (track c (n, producers) call).1 = n' := congrArg Prod.snd hr
  rw [htrack]
  have hfails : ∀ err, r = .error err → ¬ Succeeds c n call := by
    rintro err rfl h
    have hok := h.ok
    rw [hr] at hok
    cases hok
  have hrun := hr
  unfold executeBlock applyBlock at hr
  dsimp only at hr
  split_ifs at hr with hreward hsuccess
  · cases hr
    exact ⟨Or.inl rfl, Or.inl ⟨hfails _ rfl, rfl⟩⟩
  · cases hcredit : n.stateManager.creditAccount c call.order call.block.producer
      (satAdd (satAdd 0 call.block.reward)
        (n.executor.executeBlock c call.order call.block).1.totalFees) with
    | mk d state =>
      rw [hcredit] at hr
      cases d with
      | error err =>
        cases hr
        exact ⟨Or.inr rfl, Or.inl ⟨hfails _ rfl, eq_of_creditAccount_error hcredit⟩⟩
      | ok u =>
        cases hr
        refine ⟨Or.inr rfl, Or.inr ⟨⟨?_, hsuccess⟩, not_not.mp hreward,
          satAdd (satAdd 0 call.block.reward)
            (n.executor.executeBlock c call.order call.block).1.totalFees,
          (n.executor.executeBlock c call.order call.block).1.totalFees, ?_⟩⟩
        · rw [hrun]
        · rw [hcredit]
  · cases hr
    exact ⟨Or.inr rfl, Or.inl ⟨fun h => hsuccess h.success, rfl⟩⟩

end Node

section Ledgers
variable {c} {s : Tracked} {call : BlockCall}

/-- The executor's accounts are empty, and the node's are as they were initialised, save those of
producers and the emission counter. -/
structure Separate (s : Tracked) : Prop where
  executor : Unfunded s.1.executor.contractExecutor.stateManager
  node : ∀ address ∉ s.2, address ≠ emissionStateAccount →
    accountOrNew s.1.stateManager.stateTree address =
      if address = genesisWallet then ⟨100000000, 0⟩ else ⟨0, 0⟩

theorem accountOrNew_new (order : IterOrder Address Account) (address : Address) :
    accountOrNew (StateManager.new c order).stateTree address = ⟨0, 0⟩ := by
  unfold StateManager.new
  rw [accountOrNew_updateAccount, accountOrNew_updateAccount]
  split_ifs <;> rfl

theorem separate_initializeNode (order initOrder : IterOrder Address Account)
    (registry : ContractRegistry) (storage : ContractStorage) (runtime : WasmRuntime) :
    Separate ((newWithConfigAndDb c order registry storage runtime).initializeNode c initOrder,
      []) := by
  refine ⟨accountOrNew_new order, ?_⟩
  intro address _ _
  simp only [initializeNode, newWithConfigAndDb, initializeTokenomics, ofTree,
    accountOrNew_ensureAccount, accountOrNew_new, if_true, accountOrNew_updateAccount]

theorem Separate.track (h : Separate s) (call : BlockCall) : Separate (track c s call) := by
  obtain ⟨hexecutor, hstate⟩ := track_cases c s.1 s.2 call
  refine ⟨?_, ?_⟩
  · have hsame : (NodeRuntime.track c s call).1.executor.contractExecutor.stateManager =
        s.1.executor.contractExecutor.stateManager := by
      rcases hexecutor with he | he
      · exact congrArg (fun ex => ex.contractExecutor.stateManager) he
      · exact (congrArg (fun ex => ex.contractExecutor.stateManager) he).trans
          (stateManager_executeBlock_of_unfunded h.executor call.order call.block)
    rw [hsame]
    exact h.executor
  · intro address hproducer hemission
    have hnot := List.mem_append.not.mp hproducer
    rw [not_or, List.mem_singleton] at hnot
    rw [← h.node address hnot.1 hemission]
    rcases hstate with ⟨-, hs⟩ | ⟨-, -, credit, fees, hs⟩
    · rw [hs]
    · rw [hs, accountOrNew_addEmittedSupply_of_ne _ hemission,
        accountOrNew_creditAccount_of_ne _ hnot.2]

theorem emission_ne_of_succeeds (hsucceeds : Succeeds c s.1 call)
    (hproducer : emissionStateAccount ∉ (track c s call).2) :
    accountOrNew (track c s call).1.stateManager.stateTree emissionStateAccount ≠ ⟨0, 0⟩ := by
  have hnot := List.mem_append.not.mp hproducer
  rw [not_or, List.mem_singleton] at hnot
  rcases (track_cases c s.1 s.2 call).2 with
    ⟨hfails, -⟩ | ⟨-, hreward, credit, fees, hs⟩
  · exact absurd hsucceeds hfails
  · intro hzero
    have hcounter : (track c s call).1.stateManager.getEmittedSupply = 0 := by
      rw [getEmittedSupply_eq, hzero]
    rw [hs] at hcounter
    refine getEmittedSupply_addEmittedSupply_ne_zero ?_ hcounter
    intro hbefore
    rw [getEmittedSupply_eq, accountOrNew_creditAccount_of_ne _ hnot.2, ← getEmittedSupply_eq]
      at hbefore
    rw [hbefore] at hreward
    -- the first block is rewarded
    have hpos : 0 < call.block.reward.toNat := by
      rw [← hreward]
      exact UInt64.pos_iff_ne_zero.mpr (Mining.calculateExpectedBlockReward_zero_ne _)
    have hmax : 0 < u64Max := by decide
    intro hamount
    have hnat := congrArg UInt64.toNat hamount
    rw [toNat_satAdd, UInt64.toNat_zero] at hnat
    omega

theorem Separate.agree_iff (h : Separate s) (hsucceeds : Succeeds c s.1 call) :
    OneLedger (NodeRuntime.track c s call) ↔
      genesisWallet ∈ (NodeRuntime.track c s call).2 ∧
        emissionStateAccount ∈ (NodeRuntime.track c s call).2 := by
  have hafter := h.track (c := c) call
  have hne : genesisWallet ≠ emissionStateAccount := by decide
  constructor
  · intro hone
    refine ⟨by_contra fun hproducer => ?_, by_contra fun hproducer => ?_⟩
    · have hgenesis := hone genesisWallet hproducer
      rw [hafter.node genesisWallet hproducer hne, hafter.executor, if_pos rfl] at hgenesis
      exact absurd hgenesis (by decide)
    · have hcounter := hone emissionStateAccount hproducer
      rw [hafter.executor] at hcounter
      exact emission_ne_of_succeeds hsucceeds hproducer hcounter
  · rintro ⟨hgenesis, hemission⟩ address hproducer
    rw [hafter.executor, hafter.node address hproducer (by rintro rfl; exact hproducer hemission),
      if_neg (by rintro rfl; exact hproducer hgenesis)]

end Ledgers

/-- In every run of an initialised node, the two state managers agree after every block that is
executed, apart from the producers so far, exactly if by then blocks were produced in the name of
the genesis wallet and of the emission account. -/
theorem oneLedger_iff (c : Crypto) (order initOrder : IterOrder Address Account)
    (registry : ContractRegistry) (storage : ContractStorage) (runtime : WasmRuntime)
    (calls : List BlockCall) :
    StepRun.Along (track c) (fun s call => Succeeds c s.1 call → OneLedger (track c s call))
        ((newWithConfigAndDb c order registry storage runtime).initializeNode c initOrder, [])
        calls ↔
      StepRun.Along (track c) (fun s call => Succeeds c s.1 call →
          genesisWallet ∈ (track c s call).2 ∧ emissionStateAccount ∈ (track c s call).2)
        ((newWithConfigAndDb c order registry storage runtime).initializeNode c initOrder, [])
        calls := by
  have hseparate := separate_initializeNode (c := c) order initOrder registry storage runtime
  refine StepRun.along_iff_of_invariant hseparate (fun s call hs _ => hs.track call) ?_ calls
  intro s call hs
  apply imp_congr_right
  intro hsucceeds
  exact hs.agree_iff hsucceeds

section Sample

def sampleNode : NodeRuntime :=
  (newWithConfigAndDb .hashOnly .sorted ⟨∅⟩ ⟨∅⟩
    (.new sampleEngine)).initializeNode .hashOnly .sorted

def sampleCall : BlockCall := ⟨.sorted, 100, sampleBlockOf []⟩

/-- After the first block the genesis wallet is funded for the node only. -/
theorem genesisWallet_disagrees : Succeeds .hashOnly sampleNode sampleCall ∧
    ¬ OneLedger (track .hashOnly (sampleNode, []) sampleCall) := by
  have hsucceeds : (sampleNode.executeBlock .hashOnly .sorted 100 (sampleBlockOf [])).1 = .ok () ∧
      (sampleNode.executor.executeBlock .hashOnly .sorted (sampleBlockOf [])).1.success = true := by
    decide +kernel
  have hgenesis :
      accountOrNew (sampleNode.executeBlock .hashOnly .sorted 100
        (sampleBlockOf [])).2.stateManager.stateTree genesisWallet ≠
      accountOrNew (sampleNode.executeBlock .hashOnly .sorted 100
        (sampleBlockOf [])).2.executor.contractExecutor.stateManager.stateTree genesisWallet := by
    decide +kernel
  refine ⟨⟨hsucceeds.1, hsucceeds.2⟩, fun h => hgenesis (h genesisWallet (by decide))⟩

end Sample

end NodeRuntime

end CytahSpeed
