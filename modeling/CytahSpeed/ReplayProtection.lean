import CytahSpeed.ExecutionHistory
import CytahSpeed.HashBinding

/-!
# Replay protection

A transfer is executed at one nonce of its sender, and a deployment takes the address of its code:
neither is executed a second time, in the same block or a later one, before the nonce comes round.
A contract call looks at neither. What it needs beside its fee, a registered contract that answers
it, is there for good once it was there, so it is executed as often as it is presented and its
sender can pay.
-/

namespace CytahSpeed
open ByteString FiniteMap MachineInt ParallelExecutor StateManager

namespace TransactionExecutor

variable (c : Crypto)

abbrev OrderedBlock := IterOrder Address Account × Block

/-- The hashes of the transactions that a run executes successfully: of each block the first ones,
as many as its result reports. -/
def executedHashes (ex : TransactionExecutor) : List OrderedBlock → List TxId
  | [] => []
  | b :: bs =>
    (b.2.transactions.take (ex.executeBlock c b.1 b.2).1.executedTransactions).map (·.hash c) ++
      executedHashes (ex.executeBlock c b.1 b.2).2 bs

def attempts (ex : TransactionExecutor) : List OrderedBlock → List Attempt
  | [] => []
  | b :: bs => attempted c b.1 ex.contractExecutor b.2.transactions ++
      attempts (ex.executeBlock c b.1 b.2).2 bs

/-- Neither a nonce nor an address stands in the way of a second execution: the transaction is a
contract call, or a transfer of a sender who has used every nonce. -/
def Repeatable (done : List Transaction) (tx : Transaction) : Prop :=
  match tx.payload with
  | .transfer _ _ => 2 ^ 64 ≤ done.countP (sentBy tx.fromAddr)
  | .contractDeploy _ _ => False
  | .contractCall _ _ _ => True

/-- A repeatable transaction whose hash was executed is not accepted again. -/
def AcceptedOnce (s : Record) (a : Attempt) : Prop :=
  Repeatable s.2 a.2 → a.2.hash c ∈ s.2.map (·.hash c) → ¬ s.1.Accepts c a.2

/-- At its turn a transaction whose hash was executed is stopped by its sender's account: a call
finds less there than its gas price, a transfer whose nonce has come round fails the checks. -/
def RepeatStopped (s : Record) (a : Attempt) : Prop :=
  a.2.hash c ∈ s.2.map (·.hash c) →
    match a.2.payload with
    | .transfer _ amount => 2 ^ 64 ≤ s.2.countP (sentBy a.2.fromAddr) →
        ¬ s.1.stateManager.Transferable a.2.fromAddr amount a.2.nonce
          (satMul a.2.gasLimit a.2.gasPrice)
    | .contractDeploy _ _ => True
    | .contractCall _ _ _ => balanceAt s.1 a.2.fromAddr < a.2.gasPrice

section Executed
variable {c}

theorem record_attempted (order : IterOrder Address Account) (e : ContractExecutor)
    (done : List Transaction) (executed : ℕ) (totalFees : UInt64) (txs : List Transaction) :
    ∃ n, (executeLoop c order e executed totalFees txs).1.executedTransactions = executed + n ∧
      ((attempted c order e txs).foldl (record c) (e, done)).2 = done ++ txs.take n := by
  induction txs generalizing e done executed totalFees with
  | nil => exact ⟨0, rfl, (List.append_nil _).symm⟩
  | cons tx txs ih =>
    unfold executeLoop attempted
    cases h : e.executeTransaction c order tx with
    | mk r e' =>
      cases r with
      | ok used =>
        have hrecord : record c (e, done) (order, tx) = (e', done ++ [tx]) := by
          unfold record succeeds step
          simp only [h, if_true]
        obtain ⟨n, hcount, hdone⟩ := ih e' (done ++ [tx]) (executed + 1)
          (satAdd totalFees (satMul used tx.gasPrice))
        refine ⟨n + 1, ?_, ?_⟩
        · simp only
          rw [hcount]
          omega
        · simp only [List.foldl_cons, hrecord]
          rw [hdone, List.take_succ_cons, List.append_assoc]
          rfl
      | error err =>
        refine ⟨0, rfl, ?_⟩
        simp only [List.foldl_cons, List.foldl_nil]
        unfold record succeeds
        simp [h]

theorem record_attempts (ex : TransactionExecutor) (blocks : List OrderedBlock)
    (done : List Transaction) :
    (((attempts c ex blocks).foldl (record c) (ex.contractExecutor, done)).2.map (·.hash c)) =
      done.map (·.hash c) ++ executedHashes c ex blocks := by
  induction blocks generalizing ex done with
  | nil => exact (List.append_nil _).symm
  | cons b bs ih =>
    obtain ⟨n, hcount, hdone⟩ := record_attempted (c := c) b.1 ex.contractExecutor done 0 0
      b.2.transactions
    have hexecuted : (ex.executeBlock c b.1 b.2).1.executedTransactions = n :=
      hcount.trans (Nat.zero_add n)
    have hstate : ((attempted c b.1 ex.contractExecutor b.2.transactions).foldl (record c)
        (ex.contractExecutor, done)).1 = (ex.executeBlock c b.1 b.2).2.contractExecutor := by
      rw [fst_foldl_record]
      exact (executeLoop_eq_foldl 0 0 b.2.transactions).symm
    have hrecord : (attempted c b.1 ex.contractExecutor b.2.transactions).foldl (record c)
        (ex.contractExecutor, done) = ((ex.executeBlock c b.1 b.2).2.contractExecutor,
          done ++ b.2.transactions.take n) := Prod.ext hstate hdone
    unfold attempts executedHashes
    rw [List.foldl_append, hrecord, ih, hexecuted, List.map_append, List.append_assoc]

theorem attempts_sublist (ex : TransactionExecutor) (blocks : List OrderedBlock) :
    ((attempts c ex blocks).map Prod.snd).Sublist (blocks.flatMap fun b => b.2.transactions) := by
  induction blocks generalizing ex with
  | nil => exact List.Sublist.refl _
  | cons b bs ih =>
    unfold attempts
    rw [List.map_append, List.flatMap_cons]
    exact (attempted_sublist c b.1 ex.contractExecutor b.2.transactions).append (ih _)

end Executed

section Once
variable {c} {P : Set (List UInt8)} {e₀ : ContractExecutor} {s : Record} {a : Attempt}

theorem History.transfer_fresh (h : History c e₀ s) (hinj : Set.InjOn c.sha256 P)
    (hP : ∀ tx ∈ s.2, tx.preimage c ∈ P) (ha : a.2.preimage c ∈ P)
    (hcount : s.2.countP (sentBy a.2.fromAddr) < 2 ^ 64) {toAddr : Address} {amount : UInt64}
    (hp : a.2.payload = .transfer toAddr amount) (haccepts : s.1.Accepts c a.2) :
    a.2.hash c ∉ s.2.map (·.hash c) := by
  intro hmem
  obtain ⟨tx, htx, hhash⟩ := List.mem_map.mp hmem
  obtain ⟨hfrom, hpayload, hnonce⟩ := Transaction.preimage_inj (hinj (hP tx htx) ha hhash)
  rw [hp] at hpayload
  have hsent : sentBy a.2.fromAddr tx = true :=
    sentBy_iff.mpr ⟨Transaction.payloadBytes_transfer hpayload, hfrom⟩
  obtain ⟨k, hk, hpassed⟩ := h.passed tx htx a.2.fromAddr hsent
  have hreached : nonceAt s.1 a.2.fromAddr = a.2.nonce :=
    ((ContractExecutor.accepts_transfer hp).mp haccepts).next
  rw [h.nonce, ← hnonce, hpassed] at hreached
  -- the nonce has advanced since by less than a machine word
  have hword : u64Max + 1 = 2 ^ 64 := by decide
  have heq : UInt64.ofNat (s.2.countP (sentBy a.2.fromAddr)) = UInt64.ofNat k := by grind
  have hnat := congrArg UInt64.toNat heq
  rw [toNat_ofNat_of_le (by omega), toNat_ofNat_of_le (by omega)] at hnat
  omega

theorem History.deploy_fresh (h : History c e₀ s) (hinj : Set.InjOn c.sha256 P)
    (hP : ∀ tx ∈ s.2, tx.preimage c ∈ P) (ha : a.2.preimage c ∈ P)
    {wasmCode initArgs : List UInt8} (hp : a.2.payload = .contractDeploy wasmCode initArgs)
    (haccepts : s.1.Accepts c a.2) : a.2.hash c ∉ s.2.map (·.hash c) := by
  intro hmem
  obtain ⟨tx, htx, hhash⟩ := List.mem_map.mp hmem
  obtain ⟨-, hpayload, -⟩ := Transaction.preimage_inj (hinj (hP tx htx) ha hhash)
  rw [hp] at hpayload
  obtain ⟨code, args, hcode, hdigest⟩ := Transaction.payloadBytes_contractDeploy hpayload
  have htaken := h.taken tx htx code args hcode
  have hfree := haccepts.addressFree hp
  have haddress : deployAddress c code = deployAddress c wasmCode := by
    unfold deployAddress
    rw [hdigest]
  rw [haddress] at htaken
  exact htaken hfree

/-- A step executes no hash a second time, if a repeatable transaction is not accepted again. -/
theorem nodup_record (h : History c e₀ s) (hinj : Set.InjOn c.sha256 P)
    (hP : ∀ tx ∈ s.2, tx.preimage c ∈ P) (ha : a.2.preimage c ∈ P)
    (hnodup : (s.2.map (·.hash c)).Nodup) (honce : AcceptedOnce c s a) :
    ((record c s a).2.map (·.hash c)).Nodup := by
  unfold record
  cases hs : succeeds c s.1 a with
  | false => exact hnodup
  | true =>
    have haccepts := succeeds_iff.mp hs
    have hfresh : a.2.hash c ∉ s.2.map (·.hash c) := by
      unfold AcceptedOnce Repeatable at honce
      cases hp : a.2.payload with
      | transfer toAddr amount =>
        rw [hp] at honce
        by_cases hcount : 2 ^ 64 ≤ s.2.countP (sentBy a.2.fromAddr)
        · exact fun hmem => honce hcount hmem haccepts
        · exact h.transfer_fresh hinj hP ha (Nat.not_le.mp hcount) hp haccepts
      | contractDeploy wasmCode initArgs => exact h.deploy_fresh hinj hP ha hp haccepts
      | contractCall address method args =>
        rw [hp] at honce
        exact fun hmem => honce trivial hmem haccepts
    simp only [if_true]
    rw [List.map_append, List.map_singleton, List.nodup_append]
    refine ⟨hnodup, List.nodup_singleton _, ?_⟩
    intro x hx y hy
    rw [List.mem_singleton.mp hy]
    rintro rfl
    exact hfresh hx

theorem nodup_run (h : History c e₀ s) (hinj : Set.InjOn c.sha256 P)
    (hP : ∀ tx ∈ s.2, tx.preimage c ∈ P) (as : List Attempt)
    (has : ∀ a ∈ as, a.2.preimage c ∈ P) (hnodup : (s.2.map (·.hash c)).Nodup)
    (honce : StepRun.Along (record c) (AcceptedOnce c) s as) :
    ((as.foldl (record c) s).2.map (·.hash c)).Nodup := by
  induction as generalizing s with
  | nil => exact hnodup
  | cons a as ih =>
    have ha := has a List.mem_cons_self
    apply ih h.record
    · intro tx htx
      unfold record at htx
      cases hs : succeeds c s.1 a with
      | false =>
        rw [hs, if_neg Bool.false_ne_true] at htx
        exact hP tx htx
      | true =>
        rw [hs, if_pos rfl] at htx
        rcases List.mem_append.mp htx with htx | htx
        · exact hP tx htx
        · rw [List.mem_singleton.mp htx]
          exact ha
    · exact fun a' ha' => has a' (List.mem_cons_of_mem a ha')
    · exact nodup_record h hinj hP ha hnodup honce.1
    · exact honce.2

theorem along_acceptedOnce_of_nodup (s : Record) (as : List Attempt)
    (hnodup : ((as.foldl (record c) s).2.map (·.hash c)).Nodup) :
    StepRun.Along (record c) (AcceptedOnce c) s as := by
  rw [StepRun.along_iff]
  rintro pre a post rfl - hmem haccepts
  rw [List.foldl_append, List.foldl_cons] at hnodup
  have hsub := (prefix_foldl_record (c := c) (record c (pre.foldl (record c) s) a) post).sublist
  have hstep := hnodup.sublist (hsub.map _)
  rw [snd_record_of_accepts haccepts, List.map_append, List.map_singleton,
    List.nodup_append] at hstep
  exact hstep.2.2 _ hmem _ (List.mem_singleton.mpr rfl) rfl

end Once

section Calls
variable {c} {engine : WasmEngine} {s : Record} {a : Attempt} {P : Set (List UInt8)}

structure CallsAnswered (engine : WasmEngine) (s : Record) : Prop where
  runtime : s.1.runtime = .new engine
  answered : ∀ tx ∈ s.2, ∀ address method args, tx.payload = .contractCall address method args →
    tx.gasLimit ≠ 0 ∧ ∃ contract, s.1.registry.getContract address = some contract ∧
      engine.Answers contract.bytecode method

theorem runtime_step (e : ContractExecutor) (a : Attempt) :
    (step c e a).runtime = e.runtime := by
  unfold step
  rcases ContractExecutor.transfer_or_contract a.2 with ⟨toAddr, amount, hp⟩ | hcontract
  · rcases ContractExecutor.executeTransaction_transfer c a.1 e hp with ⟨-, he⟩ | ⟨-, err, he⟩
    · rw [he]
    · rw [he]
  · exact (ContractExecutor.executeTransaction_contract c a.1 e hcontract).runtime

theorem CallsAnswered.record (h : CallsAnswered engine s) (hfuel : engine.StopsWithoutFuel) :
    CallsAnswered engine (record c s a) := by
  have hkept : ∀ tx ∈ s.2, ∀ address method args,
      tx.payload = .contractCall address method args → tx.gasLimit ≠ 0 ∧
        ∃ contract, (step c s.1 a).registry.getContract address = some contract ∧
          engine.Answers contract.bytecode method := by
    intro tx htx address method args hp
    obtain ⟨hgas, contract, hget, hanswers⟩ := h.answered tx htx address method args hp
    exact ⟨hgas, contract, getContract_step_of_some hget, hanswers⟩
  refine ⟨(runtime_step s.1 a).trans h.runtime, ?_⟩
  unfold TransactionExecutor.record
  cases hs : succeeds c s.1 a with
  | false =>
    rw [if_neg Bool.false_ne_true]
    exact hkept
  | true =>
    rw [if_pos rfl]
    intro tx htx address method args hp
    rcases List.mem_append.mp htx with htx | htx
    · exact hkept tx htx address method args hp
    · rw [List.mem_singleton.mp htx] at hp ⊢
      obtain ⟨⟨contract, hget, hanswers⟩, hgas, -⟩ :=
        (ContractExecutor.accepts_call_iff hfuel h.runtime hp).mp (succeeds_iff.mp hs)
      exact ⟨hgas, contract, getContract_step_of_some hget, hanswers⟩

theorem CallsAnswered.run (h : CallsAnswered engine s) (hfuel : engine.StopsWithoutFuel)
    (as : List Attempt) :
    CallsAnswered engine (as.foldl (TransactionExecutor.record c) s) := by
  induction as generalizing s with
  | nil => exact h
  | cons a as ih => exact ih (h.record hfuel)

/-- A call of a hash that was executed is accepted again if its sender holds its gas price. -/
theorem CallsAnswered.accepts_iff (h : CallsAnswered engine s) (hfuel : engine.StopsWithoutFuel)
    (hinj : Set.InjOn c.sha256 P) (hP : ∀ tx ∈ s.2, tx.preimage c ∈ P) (ha : a.2.preimage c ∈ P)
    (hmem : a.2.hash c ∈ s.2.map (·.hash c)) {address : Address} {method : String}
    {args : List UInt8} (hp : a.2.payload = .contractCall address method args) :
    s.1.Accepts c a.2 ↔ a.2.gasPrice ≤ balanceAt s.1 a.2.fromAddr := by
  obtain ⟨tx, htx, hhash⟩ := List.mem_map.mp hmem
  obtain ⟨-, hbytes, -, hlimit, -⟩ :=
    Transaction.preimage_eq_iff.mp (hinj (hP tx htx) ha hhash)
  rw [ContractExecutor.accepts_call_iff hfuel h.runtime hp]
  rw [hp] at hbytes
  obtain ⟨args', hcall⟩ := Transaction.contractCall_of_payloadBytes hbytes
  obtain ⟨hgas, hanswers⟩ := h.answered tx htx address method args' hcall
  rw [hlimit] at hgas
  exact ⟨fun haccepts => haccepts.2.2, fun hpay => ⟨hanswers, hgas, hpay⟩⟩

theorem CallsAnswered.acceptedOnce_iff (h : CallsAnswered engine s)
    (hfuel : engine.StopsWithoutFuel) (hinj : Set.InjOn c.sha256 P)
    (hP : ∀ tx ∈ s.2, tx.preimage c ∈ P) (ha : a.2.preimage c ∈ P) :
    AcceptedOnce c s a ↔ RepeatStopped c s a := by
  unfold AcceptedOnce RepeatStopped Repeatable
  rw [imp.swap]
  apply imp_congr_right
  intro hmem
  cases hp : a.2.payload with
  | transfer toAddr amount => rw [ContractExecutor.accepts_transfer hp]
  | contractDeploy wasmCode initArgs => exact iff_of_true False.elim trivial
  | contractCall address method args =>
    rw [h.accepts_iff hfuel hinj hP ha hmem hp, UInt64.not_le]
    exact imp_iff_right trivial

end Calls

/-- With a hash that is injective on the run's transactions, a run executes no transaction twice
exactly if every repeated call finds its sender without the gas price, and every transfer whose
nonce has come round is refused. -/
theorem replayProtected_iff (c : Crypto) (engine : WasmEngine) (stateManager : StateManager)
    (registry : ContractRegistry) (storage : ContractStorage) (blocks : List OrderedBlock)
    (hfuel : engine.StopsWithoutFuel)
    (hinj : Set.InjOn c.sha256
      {p | ∃ tx ∈ blocks.flatMap fun b => b.2.transactions, p = tx.preimage c}) :
    (executedHashes c ⟨.new engine stateManager registry storage⟩ blocks).Nodup ↔
      StepRun.Along (record c) (RepeatStopped c) (.new engine stateManager registry storage, [])
        (attempts c ⟨.new engine stateManager registry storage⟩ blocks) := by
  let ex : TransactionExecutor := ⟨.new engine stateManager registry storage⟩
  have hattempts : ∀ a ∈ attempts c ex blocks, ∃ tx ∈ blocks.flatMap fun b => b.2.transactions,
      a.2.preimage c = tx.preimage c := by
    intro a ha
    exact ⟨a.2, (attempts_sublist (c := c) ex blocks).subset (List.mem_map_of_mem ha), rfl⟩
  have honce : StepRun.Along (record c) (AcceptedOnce c) (ex.contractExecutor, [])
      (attempts c ex blocks) ↔ StepRun.Along (record c) (RepeatStopped c)
        (ex.contractExecutor, []) (attempts c ex blocks) := by
    rw [StepRun.along_iff, StepRun.along_iff]
    refine forall_congr' fun pre => forall_congr' fun a => forall_congr' fun post =>
      imp_congr_right fun hsplit => ?_
    rw [hsplit] at hattempts
    have hanswered : CallsAnswered engine (pre.foldl (record c) (ex.contractExecutor, [])) :=
      CallsAnswered.run ⟨rfl, fun tx htx => by cases htx⟩ hfuel pre
    apply hanswered.acceptedOnce_iff hfuel hinj
    · intro tx htx
      obtain ⟨a', ha', rfl⟩ := mem_foldl_record htx
      exact hattempts a' (List.mem_append_left _ ha')
    · exact hattempts a (List.mem_append_right _ List.mem_cons_self)
  have hrecord := record_attempts (c := c) ex blocks []
  rw [List.map_nil, List.nil_append] at hrecord
  refine Iff.trans ?_ honce
  rw [← hrecord]
  constructor
  · exact along_acceptedOnce_of_nodup _ _
  · apply nodup_run (history_nil ex.contractExecutor) hinj
    · intro tx htx
      cases htx
    · exact hattempts
    · exact List.nodup_nil

section Sample

/-- A call at a gas price that the sender can pay once. -/
def sampleCostly : Transaction :=
  ⟨sampleSenders.1, .contractCall (Bytes.fill 20 21) "run" [], 0, 100000, 600000, .empty⟩

def sampleRepeats : List OrderedBlock :=
  [(.sorted, sampleBlockOf [sampleFirst]), (.sorted, sampleBlockOf [sampleCostly]),
    (.sorted, sampleBlockOf [sampleCostly]), (.sorted, sampleBlockOf [sampleFirst])]

set_option maxRecDepth 20000 in
theorem replayProtected_sample :
    (executedHashes .hashOnly (fundedExecutor heightRegistry) sampleRepeats).Nodup := by
  have hne : Crypto.hashOnly.sha256 (sampleFirst.preimage .hashOnly) ≠
      Crypto.hashOnly.sha256 (sampleCostly.preimage .hashOnly) := by decide +kernel
  apply (replayProtected_iff .hashOnly sampleEngine (fundedLedger .hashOnly heightRegistry).state
    heightRegistry ⟨∅⟩ sampleRepeats sampleEngine_stopsWithoutFuel ?_).mpr
  · have hattempts : attempts .hashOnly (fundedExecutor heightRegistry) sampleRepeats =
        [(.sorted, sampleFirst), (.sorted, sampleCostly), (.sorted, sampleCostly),
          (.sorted, sampleFirst)] := by
      simp only [sampleRepeats, attempts, transactions_sampleBlockOf, attempted_singleton]
      rfl
    have hpoor : balanceAt (record .hashOnly (record .hashOnly
        ((fundedExecutor heightRegistry).contractExecutor, []) (.sorted, sampleFirst))
          (.sorted, sampleCostly)).1 sampleSenders.1 < 600000 := by decide +kernel
    change StepRun.Along _ _ ((fundedExecutor heightRegistry).contractExecutor, [])
      (attempts .hashOnly (fundedExecutor heightRegistry) sampleRepeats)
    rw [hattempts]
    refine ⟨?_, ?_, fun _ => hpoor, ?_, trivial⟩
    · rintro ⟨⟩
    · intro h
      exact absurd h (by decide +kernel)
    · intro _ h
      exact absurd h (by decide +kernel)
  · simp only [sampleRepeats, List.flatMap_cons, List.flatMap_nil, transactions_sampleBlockOf,
      List.cons_append, List.nil_append, List.mem_cons, List.not_mem_nil, or_false]
    rintro p ⟨tx, rfl | rfl | rfl | rfl, rfl⟩ q ⟨tx', rfl | rfl | rfl | rfl, rfl⟩ h <;>
      first | rfl | exact absurd h hne | exact absurd h.symm hne

set_option maxRecDepth 20000 in
/-- A signed call of a contract that exports `get_block_height` is executed and charged in each of
two blocks. -/
theorem sampleCall_replayed :
    sampleCallA.validateBasic (cryptoKnowing sampleCalls) = .ok () ∧
      (sampleBlockOf [sampleCallA]).validateBasic .hashOnly 1000 = .ok () ∧
      ¬ (executedHashes .hashOnly (fundedExecutor heightRegistry)
        [(.sorted, sampleBlockOf [sampleCallA]),
          (.sorted, sampleBlockOf [sampleCallA])]).Nodup := by
  decide +kernel

end Sample

end TransactionExecutor

end CytahSpeed
