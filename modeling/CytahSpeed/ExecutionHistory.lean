import CytahSpeed.TransactionExecutor

/-!
# What a run leaves behind

A run of the executor is recorded with the transactions that succeeded. The record explains the
state: the nonce of an account counts the transfers that it sent, the nonces of these transfers
are the ones it passed, and the address of every deployed code is taken. Balances fall in a run
without transfers.
-/

namespace CytahSpeed
open ByteString FiniteMap MachineInt ParallelExecutor StateManager

namespace TransactionExecutor

variable (c : Crypto)

def succeeds (e : ContractExecutor) (a : Attempt) : Bool :=
  match (e.executeTransaction c a.1 a.2).1 with
  | .ok _ => true
  | .error _ => false

abbrev Record := ContractExecutor × List Transaction

def record (s : Record) (a : Attempt) : Record :=
  (step c s.1 a, if succeeds c s.1 a then s.2 ++ [a.2] else s.2)

def sentBy (address : Address) (tx : Transaction) : Bool :=
  match tx.payload with
  | .transfer _ _ => tx.fromAddr = address
  | _ => false

def nonceAt (e : ContractExecutor) (address : Address) : UInt64 :=
  (accountOrNew e.stateManager.stateTree address).nonce

def balanceAt (e : ContractExecutor) (address : Address) : UInt64 :=
  (accountOrNew e.stateManager.stateTree address).balance

/-- The record of a run from `e₀` explains nonces and registered addresses. -/
structure History (e₀ : ContractExecutor) (s : Record) : Prop where
  nonce : ∀ address, nonceAt s.1 address =
    nonceAt e₀ address + UInt64.ofNat (s.2.countP (sentBy address))
  passed : ∀ tx ∈ s.2, ∀ address, sentBy address tx = true →
    ∃ k < s.2.countP (sentBy address), tx.nonce = nonceAt e₀ address + UInt64.ofNat k
  taken : ∀ tx ∈ s.2, ∀ wasmCode initArgs, tx.payload = .contractDeploy wasmCode initArgs →
    s.1.registry.getContract (deployAddress c wasmCode) ≠ none

section Step
variable {c} {e : ContractExecutor} {a : Attempt}

theorem succeeds_iff : succeeds c e a = true ↔ e.Accepts c a.2 := by
  rw [← ContractExecutor.executeTransaction_ok_iff c a.1 e a.2]
  unfold succeeds
  cases (e.executeTransaction c a.1 a.2).1 <;> simp

theorem sentBy_iff {address : Address} {tx : Transaction} :
    sentBy address tx = true ↔
      (∃ toAddr amount, tx.payload = .transfer toAddr amount) ∧ tx.fromAddr = address := by
  unfold sentBy
  cases tx.payload <;> simp

theorem fst_foldl_record (s : Record) (as : List Attempt) :
    (as.foldl (record c) s).1 = as.foldl (step c) s.1 := by
  induction as generalizing s with
  | nil => rfl
  | cons a as ih => rw [List.foldl_cons, ih, List.foldl_cons, record]

theorem accountOrNew_deductFee (order : IterOrder Address Account) {tx : Transaction}
    {fee : UInt64} (hpay : e.Payable tx fee) (address : Address) :
    accountOrNew (e.stateManager.deductFee c order tx.fromAddr fee).2.stateTree address =
      if address = tx.fromAddr then ⟨balanceAt e address - fee, nonceAt e address⟩
      else accountOrNew e.stateManager.stateTree address := by
  have hsame : (⟨balanceAt e address - 0, nonceAt e address⟩ : Account) =
      accountOrNew e.stateManager.stateTree address := by
    rw [UInt64.sub_zero]
    rfl
  unfold deductFee
  dsimp only
  by_cases hzero : fee = 0
  · rw [if_pos hzero, hzero, hsame]
    exact (ite_self _).symm
  · have hle := hpay.resolve_left hzero
    rw [if_neg hzero, if_neg (UInt64.not_lt.mpr hle), ofTree, accountOrNew_updateAccount]
    by_cases h : address = tx.fromAddr
    · rw [if_pos h, if_pos h, h]
      rfl
    · rw [if_neg h, if_neg h]

theorem step_noTransfer
    (hnot : ∀ toAddr amount, a.2.payload = .transfer toAddr amount → ¬ e.Accepts c a.2) :
    (∃ fee, e.contractFee c a.2 = some fee ∧ e.Payable a.2 fee ∧
      (step c e a).stateManager = (e.stateManager.deductFee c a.1 a.2.fromAddr fee).2) ∨
      (¬ e.ChargesFee c a.2 ∧ (step c e a).stateManager = e.stateManager) := by
  rcases ContractExecutor.transfer_or_contract a.2 with ⟨toAddr, amount, hp⟩ | hcontract
  · right
    constructor
    · rintro ⟨fee, hfee, -⟩
      unfold ContractExecutor.contractFee ContractExecutor.runEnd ContractExecutor.contractRun
        at hfee
      rw [hp] at hfee
      cases hfee
    · rw [step_of_refused hp (hnot toAddr amount hp)]
  · have hout := ContractExecutor.executeTransaction_contract c a.1 e hcontract
    rcases hout.stateManager with ⟨fee, hfee, hpay, hs⟩ | ⟨hunpaid, hs⟩
    · exact Or.inl ⟨fee, hfee, hpay, hs⟩
    · refine Or.inr ⟨?_, hs⟩
      rintro ⟨fee, hfee, -, hpay⟩
      exact hunpaid fee hfee hpay

theorem nonceAt_step_of_accepts {toAddr : Address} {amount : UInt64}
    (hp : a.2.payload = .transfer toAddr amount) (haccepts : e.Accepts c a.2) (address : Address) :
    nonceAt (step c e a) address =
      if a.2.fromAddr = address then nonceAt e address + 1 else nonceAt e address := by
  have htr := (ContractExecutor.accepts_transfer hp).mp haccepts
  unfold nonceAt step
  rcases ContractExecutor.executeTransaction_transfer c a.1 e hp with ⟨-, he⟩ | ⟨hnot, -⟩
  · have hout : ∀ account : Account, (if address = toAddr then
        (⟨account.balance + amount, account.nonce⟩ : Account) else account).nonce =
          account.nonce := by
      intro account
      split_ifs <;> rfl
    rw [he]
    simp only
    rw [accountOrNew_applyTransfer htr]
    simp only [hout]
    by_cases h : a.2.fromAddr = address
    · rw [if_pos h, if_pos h.symm]
    · rw [if_neg h, if_neg (Ne.symm h)]
  · exact absurd htr hnot

theorem nonceAt_step (address : Address) :
    nonceAt (step c e a) address =
      if succeeds c e a && sentBy address a.2 then nonceAt e address + 1
      else nonceAt e address := by
  by_cases hnot : ∀ toAddr amount, a.2.payload = .transfer toAddr amount → ¬ e.Accepts c a.2
  · have hfalse : (succeeds c e a && sentBy address a.2) = false := by
      rw [Bool.and_eq_false_iff, ← Bool.not_eq_true, ← Bool.not_eq_true, succeeds_iff, sentBy_iff]
      by_cases h : ∃ toAddr amount, a.2.payload = .transfer toAddr amount
      · obtain ⟨toAddr, amount, hp⟩ := h
        exact Or.inl (hnot toAddr amount hp)
      · exact Or.inr fun hsent => h hsent.1
    rw [hfalse, if_neg Bool.false_ne_true]
    unfold nonceAt
    rcases step_noTransfer hnot with ⟨fee, -, hpay, hs⟩ | ⟨-, hs⟩
    · rw [hs, accountOrNew_deductFee a.1 hpay]
      by_cases h : address = a.2.fromAddr
      · rw [if_pos h]
        rfl
      · rw [if_neg h]
    · rw [hs]
  · simp only [not_forall, not_not, exists_prop] at hnot
    obtain ⟨toAddr, amount, hp, haccepts⟩ := hnot
    have hsent : sentBy address a.2 = decide (a.2.fromAddr = address) := by
      unfold sentBy
      rw [hp]
    rw [succeeds_iff.mpr haccepts, Bool.true_and, hsent, nonceAt_step_of_accepts hp haccepts]
    simp only [decide_eq_true_eq]

theorem getContract_step_of_some {address : Address} {info : ContractInfo}
    (h : e.registry.getContract address = some info) :
    (step c e a).registry.getContract address = some info := by
  have hregistered : (e.registered c a.2).getContract address = some info := by
    unfold ContractExecutor.registered
    cases a.2.payload with
    | transfer toAddr amount => exact h
    | contractCall address method args => exact h
    | contractDeploy wasmCode initArgs =>
      simp only
      rw [ContractRegistry.getContract_registerContract]
      by_cases ha : address = deployAddress c wasmCode
      · rw [if_pos ha, ← ha, h, Option.some_or]
      · rw [if_neg ha]
        exact h
  unfold step
  rcases ContractExecutor.transfer_or_contract a.2 with ⟨toAddr, amount, hp⟩ | hcontract
  · rcases ContractExecutor.executeTransaction_transfer c a.1 e hp with ⟨-, he⟩ | ⟨-, err, he⟩
    · rw [he]
      exact h
    · rw [he]
      exact h
  · rcases (ContractExecutor.executeTransaction_contract c a.1 e hcontract).cases with
      ⟨-, -, -, hr⟩ | ⟨-, -, -, -, -, hr⟩ | ⟨-, -, -, -, -, -, hr⟩ | ⟨-, -, -, -, -, -, hr⟩
    · rw [hr]
      exact h
    · rw [hr]
      exact h
    · rw [hr]
      exact h
    · rw [hr]
      exact hregistered

theorem getContract_step {address : Address} (h : e.registry.getContract address ≠ none) :
    (step c e a).registry.getContract address ≠ none := by
  obtain ⟨info, hinfo⟩ := Option.ne_none_iff_exists'.mp h
  rw [getContract_step_of_some hinfo]
  exact Option.some_ne_none info

theorem getContract_step_deploy {wasmCode initArgs : List UInt8}
    (hp : a.2.payload = .contractDeploy wasmCode initArgs) (haccepts : e.Accepts c a.2) :
    (step c e a).registry.getContract (deployAddress c wasmCode) ≠ none := by
  have hcontract : ∀ toAddr amount, a.2.payload ≠ .transfer toAddr amount := by
    intro toAddr amount h
    rw [hp] at h
    cases h
  obtain ⟨used, hok⟩ := (ContractExecutor.executeTransaction_ok_iff c a.1 e a.2).mpr haccepts
  unfold step
  rw [((ContractExecutor.executeTransaction_contract c a.1 e hcontract).of_ok hok).2.2]
  unfold ContractExecutor.registered
  rw [hp]
  simp only
  rw [ContractRegistry.getContract_registerContract, if_pos rfl]
  simp

end Step

section Run
variable {c} {e₀ : ContractExecutor} {s : Record} {a : Attempt}

theorem history_nil (e₀ : ContractExecutor) : History c e₀ (e₀, []) := by
  refine ⟨?_, ?_, ?_⟩
  · intro address
    exact (UInt64.add_zero _).symm
  · intro tx htx
    cases htx
  · intro tx htx
    cases htx

theorem History.record (h : History c e₀ s) : History c e₀ (record c s a) := by
  unfold TransactionExecutor.record
  cases hs : succeeds c s.1 a with
  | false =>
    rw [if_neg Bool.false_ne_true]
    refine ⟨?_, h.passed, ?_⟩
    · intro address
      rw [nonceAt_step, hs, Bool.false_and, if_neg Bool.false_ne_true]
      exact h.nonce address
    · intro tx htx wasmCode initArgs hp
      exact getContract_step (h.taken tx htx wasmCode initArgs hp)
  | true =>
    have haccepts := succeeds_iff.mp hs
    rw [if_pos rfl]
    refine ⟨?_, ?_, ?_⟩
    · intro address
      rw [nonceAt_step, hs, Bool.true_and, h.nonce, List.countP_append]
      cases hsent : sentBy address a.2 with
      | false => simp [hsent]
      | true =>
        simp only [if_true, List.countP_singleton, hsent]
        rw [UInt64.ofNat_add, UInt64.add_assoc]
        rfl
    · intro tx htx address hsent
      rw [List.countP_append]
      rcases List.mem_append.mp htx with htx | htx
      · obtain ⟨k, hk, hnonce⟩ := h.passed tx htx address hsent
        exact ⟨k, hk.trans_le (Nat.le_add_right _ _), hnonce⟩
      · rw [List.mem_singleton.mp htx] at hsent ⊢
        -- a successful transfer carries the nonce that its sender has reached
        obtain ⟨⟨toAddr, amount, hp⟩, hfrom⟩ := sentBy_iff.mp hsent
        have hnext : nonceAt s.1 a.2.fromAddr = a.2.nonce :=
          ((ContractExecutor.accepts_transfer hp).mp haccepts).next
        refine ⟨s.2.countP (sentBy address), ?_, ?_⟩
        · rw [List.countP_singleton, hsent]
          exact Nat.lt_succ_self _
        · rw [← hnext, hfrom]
          exact h.nonce address
    · intro tx htx wasmCode initArgs hp
      rcases List.mem_append.mp htx with htx | htx
      · exact getContract_step (h.taken tx htx wasmCode initArgs hp)
      · rw [List.mem_singleton.mp htx] at hp
        exact getContract_step_deploy hp haccepts

theorem History.run (h : History c e₀ s) (as : List Attempt) :
    History c e₀ (as.foldl (TransactionExecutor.record c) s) := by
  induction as generalizing s with
  | nil => exact h
  | cons a as ih => exact ih h.record

theorem snd_record_of_accepts (h : s.1.Accepts c a.2) :
    (TransactionExecutor.record c s a).2 = s.2 ++ [a.2] := by
  unfold TransactionExecutor.record
  rw [succeeds_iff.mpr h, if_pos rfl]

theorem mem_record (h : s.1.Accepts c a.2) : a.2 ∈ (TransactionExecutor.record c s a).2 := by
  rw [snd_record_of_accepts h]
  exact List.mem_append_right _ (List.mem_singleton.mpr rfl)

theorem length_foldl_record_le (s : Record) (as : List Attempt) :
    (as.foldl (record c) s).2.length ≤ s.2.length + as.length := by
  induction as generalizing s with
  | nil => exact Nat.le_refl _
  | cons a as ih =>
    have hstep : (record c s a).2.length ≤ s.2.length + 1 := by
      unfold record
      cases succeeds c s.1 a
      · exact Nat.le_succ _
      · simp
    have hrun := ih (record c s a)
    rw [List.foldl_cons, List.length_cons]
    omega

theorem mem_foldl_record {e : ContractExecutor} {as : List Attempt} {tx : Transaction}
    (h : tx ∈ (as.foldl (record c) (e, [])).2) : ∃ a ∈ as, a.2 = tx := by
  induction as using List.reverseRecOn with
  | nil => cases h
  | append_singleton as a ih =>
    rw [List.foldl_append, List.foldl_cons, List.foldl_nil] at h
    unfold record at h
    split_ifs at h with hs
    · rcases List.mem_append.mp h with h | h
      · obtain ⟨a', ha', rfl⟩ := ih h
        exact ⟨a', List.mem_append_left _ ha', rfl⟩
      · rw [List.mem_singleton] at h
        exact ⟨a, List.mem_append_right _ (List.mem_singleton_self a), h.symm⟩
    · obtain ⟨a', ha', rfl⟩ := ih h
      exact ⟨a', List.mem_append_left _ ha', rfl⟩

theorem prefix_foldl_record (s : Record) (as : List Attempt) :
    s.2 <+: (as.foldl (record c) s).2 := by
  induction as generalizing s with
  | nil => exact List.prefix_refl _
  | cons a as ih =>
    have hstep : s.2 <+: (record c s a).2 := by
      unfold record
      cases succeeds c s.1 a
      · exact List.prefix_refl _
      · exact List.prefix_append _ _
    exact hstep.trans (ih (record c s a))

theorem balanceAt_run_le {e : ContractExecutor} {as : List Attempt}
    (h : StepRun.Along (step c) (fun e a => ∀ toAddr amount,
      a.2.payload = .transfer toAddr amount → ¬ e.Accepts c a.2) e as) (address : Address) :
    (balanceAt (as.foldl (step c) e) address).toNat ≤ (balanceAt e address).toNat := by
  induction as generalizing e with
  | nil => exact Nat.le_refl _
  | cons a as ih =>
    refine (ih h.2).trans ?_
    unfold balanceAt
    rcases step_noTransfer h.1 with ⟨fee, -, hpay, hs⟩ | ⟨-, hs⟩
    · rw [hs, accountOrNew_deductFee a.1 hpay]
      by_cases ha : address = a.2.fromAddr
      · rw [if_pos ha]
        have hle : fee ≤ balanceAt e address := by
          rcases hpay with hzero | hle
          · rw [hzero]
            exact UInt64.zero_le
          · rw [ha]
            exact hle
        change (balanceAt e address - fee).toNat ≤ _
        rw [UInt64.toNat_sub_of_le _ _ hle]
        exact Nat.sub_le _ _
      · rw [if_neg ha]
    · rw [hs]

theorem getContract_run {e : ContractExecutor} (as : List Attempt) {address : Address}
    (h : e.registry.getContract address ≠ none) :
    (as.foldl (step c) e).registry.getContract address ≠ none := by
  induction as generalizing e with
  | nil => exact h
  | cons a as ih => exact ih (getContract_step h)

end Run

structure Unchanged (e e' : ContractExecutor) : Prop where
  accounts : e'.stateManager.stateTree.leaves = e.stateManager.stateTree.leaves
  root : e'.stateManager.currentStateRoot = e.stateManager.currentStateRoot
  registry : e'.registry = e.registry

/-- The transaction changes accounts or registry: a transfer that goes through, a contract
transaction that is charged, a deployment that goes through. -/
def Touches (e : ContractExecutor) (tx : Transaction) : Prop :=
  match tx.payload with
  | .transfer _ _ => e.Accepts c tx
  | .contractDeploy _ _ => e.ChargesFee c tx ∨ e.Accepts c tx
  | .contractCall _ _ _ => e.ChargesFee c tx

section Unchanged
variable {c} {e : ContractExecutor} {a : Attempt}

theorem step_of_not_touches (h : ¬ Touches c e a.2) :
    (step c e a).stateManager = e.stateManager ∧ (step c e a).registry = e.registry := by
  unfold Touches at h
  rcases ContractExecutor.transfer_or_contract a.2 with ⟨toAddr, amount, hp⟩ | hcontract
  · rw [hp] at h
    rw [step_of_refused hp h]
    exact ⟨rfl, rfl⟩
  · have hcharges : ¬ e.ChargesFee c a.2 := by
      cases hp : a.2.payload with
      | transfer toAddr amount => exact absurd hp (hcontract toAddr amount)
      | contractDeploy wasmCode initArgs =>
        rw [hp] at h
        exact fun hc => h (Or.inl hc)
      | contractCall address method args =>
        rw [hp] at h
        exact h
    have hout := ContractExecutor.executeTransaction_contract c a.1 e hcontract
    refine ⟨?_, ?_⟩
    · rcases hout.stateManager with ⟨fee, hfee, hpay, hs⟩ | ⟨-, hs⟩
      · have hzero : fee = 0 := by
          by_contra hne
          exact hcharges ⟨fee, hfee, hne, hpay⟩
        refine hs.trans ?_
        simp only [deductFee, hzero, if_true]
      · exact hs
    · rcases hout.cases with ⟨-, -, -, hr⟩ | ⟨-, -, -, -, -, hr⟩ | ⟨-, -, -, -, -, -, hr⟩ |
        ⟨used, hfee, hpay, hrun, -, -, hr⟩
      · exact hr
      · exact hr
      · exact hr
      · refine hr.trans ?_
        unfold ContractExecutor.registered
        cases hp : a.2.payload with
        | transfer toAddr amount => rfl
        | contractCall address method args => rfl
        | contractDeploy wasmCode initArgs =>
          rw [hp] at h
          refine absurd (Or.inr ?_) h
          exact (ContractExecutor.accepts_contract hcontract).mpr ⟨hrun.1, hrun.2, _, hfee, hpay⟩

theorem unchanged_of_along {as : List Attempt}
    (h : StepRun.Along (step c) (fun e a => ¬ Touches c e a.2) e as) :
    (as.foldl (step c) e).stateManager = e.stateManager ∧
      (as.foldl (step c) e).registry = e.registry := by
  induction as generalizing e with
  | nil => exact ⟨rfl, rfl⟩
  | cons a as ih =>
    obtain ⟨hs, hr⟩ := step_of_not_touches h.1
    obtain ⟨hs', hr'⟩ := ih h.2
    exact ⟨hs'.trans hs, hr'.trans hr⟩

theorem not_accepts_transfer_of_unchanged {pre post : List Attempt} {toAddr : Address}
    {amount : UInt64} (hlen : (pre ++ a :: post).length < 2 ^ 64)
    (hsame : ∀ address, nonceAt ((pre ++ a :: post).foldl (step c) e) address = nonceAt e address)
    (hp : a.2.payload = .transfer toAddr amount) : ¬ (pre.foldl (step c) e).Accepts c a.2 := by
  intro haccepts
  have hhist := (history_nil e).run (c := c) (pre ++ a :: post)
  have hcount := length_foldl_record_le (c := c) (e, []) (pre ++ a :: post)
  have hsent : sentBy a.2.fromAddr a.2 = true := sentBy_iff.mpr ⟨⟨toAddr, amount, hp⟩, rfl⟩
  have hmem : a.2 ∈ ((pre ++ a :: post).foldl (record c) (e, [])).2 := by
    rw [List.foldl_append, List.foldl_cons]
    apply (prefix_foldl_record _ post).subset
    apply mem_record
    rw [fst_foldl_record]
    exact haccepts
  have hpos := List.countP_pos_iff.mpr ⟨a.2, hmem, hsent⟩
  have hle := List.countP_le_length (p := sentBy a.2.fromAddr)
    (l := ((pre ++ a :: post).foldl (record c) (e, [])).2)
  have hnonce := hhist.nonce a.2.fromAddr
  rw [fst_foldl_record, hsame] at hnonce
  -- the count is positive and below the size of a machine word
  have hzero : UInt64.ofNat (((pre ++ a :: post).foldl (record c) (e, [])).2.countP
      (sentBy a.2.fromAddr)) = 0 := by grind
  have hnat := congrArg UInt64.toNat hzero
  have hbound : ((pre ++ a :: post).foldl (record c) (e, [])).2.countP
      (sentBy a.2.fromAddr) ≤ u64Max := by
    have hword : u64Max + 1 = 2 ^ 64 := by decide
    rw [List.length_nil] at hcount
    omega
  rw [toNat_ofNat_of_le hbound, UInt64.toNat_zero] at hnat
  omega

theorem not_chargesFee_of_unchanged {pre post : List Attempt}
    (hnoTransfer : StepRun.Along (step c) (fun e a => ∀ toAddr amount,
      a.2.payload = .transfer toAddr amount → ¬ e.Accepts c a.2) e (pre ++ a :: post))
    (hsame : balanceAt ((pre ++ a :: post).foldl (step c) e) a.2.fromAddr =
      balanceAt e a.2.fromAddr) : ¬ (pre.foldl (step c) e).ChargesFee c a.2 := by
  rintro ⟨fee, hfee, hne, hpay⟩
  obtain ⟨hpre, ha, hpost⟩ := (StepRun.along_append e pre (a :: post)).mp hnoTransfer
  rw [List.foldl_append, List.foldl_cons] at hsame
  have hbefore := balanceAt_run_le hpre a.2.fromAddr
  have hafter := balanceAt_run_le hpost a.2.fromAddr
  have hstep : (balanceAt (step c (pre.foldl (step c) e) a) a.2.fromAddr).toNat + fee.toNat =
      (balanceAt (pre.foldl (step c) e) a.2.fromAddr).toNat := by
    rcases step_noTransfer ha with ⟨fee', hfee', hpay', hs⟩ | ⟨hnot, -⟩
    · rw [hfee] at hfee'
      cases hfee'
      have hle : fee ≤ balanceAt (pre.foldl (step c) e) a.2.fromAddr := hpay.resolve_left hne
      have hnat := UInt64.le_iff_toNat_le.mp hle
      have hbalance : balanceAt (step c (pre.foldl (step c) e) a) a.2.fromAddr =
          balanceAt (pre.foldl (step c) e) a.2.fromAddr - fee := by
        unfold balanceAt
        rw [hs, accountOrNew_deductFee a.1 hpay, if_pos rfl]
        rfl
      rw [hbalance, UInt64.toNat_sub_of_le _ _ hle]
      omega
    · exact absurd ⟨fee, hfee, hne, hpay⟩ hnot
  have hpos : 0 < fee.toNat := UInt64.pos_iff_ne_zero.mpr hne
  rw [hsame] at hafter
  omega

/-- What a transaction touches is seen at the end of the run. -/
theorem along_of_unchanged {as : List Attempt} (hlen : as.length < 2 ^ 64)
    (haccounts : ∀ address, accountOrNew (as.foldl (step c) e).stateManager.stateTree address =
      accountOrNew e.stateManager.stateTree address)
    (hregistry : (as.foldl (step c) e).registry = e.registry) :
    StepRun.Along (step c) (fun e a => ¬ Touches c e a.2) e as := by
  have hnonces : ∀ address, nonceAt (as.foldl (step c) e) address = nonceAt e address :=
    fun address => congrArg Account.nonce (haccounts address)
  have hnoTransfer : StepRun.Along (step c) (fun e a => ∀ toAddr amount,
      a.2.payload = .transfer toAddr amount → ¬ e.Accepts c a.2) e as := by
    rw [StepRun.along_iff]
    rintro pre a post rfl toAddr amount hp
    exact not_accepts_transfer_of_unchanged hlen hnonces hp
  rw [StepRun.along_iff]
  rintro pre a post rfl htouches
  have hfoldl : (pre ++ a :: post).foldl (step c) e =
      post.foldl (step c) (step c (pre.foldl (step c) e) a) := by
    rw [List.foldl_append, List.foldl_cons]
  have hnoFee := not_chargesFee_of_unchanged hnoTransfer
    (congrArg Account.balance (haccounts a.2.fromAddr))
  unfold Touches at htouches
  cases hp : a.2.payload with
  | transfer toAddr amount =>
    rw [hp] at htouches
    exact (StepRun.along_iff e _).mp hnoTransfer pre a post rfl toAddr amount hp htouches
  | contractCall address method args =>
    rw [hp] at htouches
    exact hnoFee htouches
  | contractDeploy wasmCode initArgs =>
    rw [hp] at htouches
    rcases htouches with hcharges | haccepts
    · exact hnoFee hcharges
    · have hfree := haccepts.addressFree hp
      have htaken := getContract_run (c := c) post (getContract_step_deploy hp haccepts)
      rw [← hfoldl, hregistry] at htaken
      exact getContract_run (c := c) pre htaken hfree

end Unchanged

/-- Execution of a block is all or nothing exactly if, whenever it fails, no attempted transaction
touches accounts or registry at its turn. -/
theorem allOrNothing_iff (c : Crypto) (order : IterOrder Address Account)
    (ex : TransactionExecutor) (block : Block) (hlen : block.transactions.length < 2 ^ 64) :
    ((ex.executeBlock c order block).1.success = false →
      Unchanged ex.contractExecutor (ex.executeBlock c order block).2.contractExecutor) ↔
    ((ex.executeBlock c order block).1.success = false →
      StepRun.Along (step c) (fun e a => ¬ Touches c e a.2) ex.contractExecutor
        (attempted c order ex.contractExecutor block.transactions)) := by
  have hrun : (ex.executeBlock c order block).2.contractExecutor =
      (attempted c order ex.contractExecutor block.transactions).foldl (step c)
        ex.contractExecutor := executeLoop_eq_foldl 0 0 block.transactions
  have hlength : (attempted c order ex.contractExecutor block.transactions).length < 2 ^ 64 := by
    have hle := (attempted_sublist c order ex.contractExecutor block.transactions).length_le
    rw [List.length_map] at hle
    omega
  apply imp_congr_right
  intro _
  rw [hrun]
  constructor
  · intro h
    apply along_of_unchanged hlength
    · intro address
      unfold accountOrNew SparseMerkleTree.getAccount
      rw [h.accounts]
    · exact h.registry
  · intro h
    obtain ⟨hs, hr⟩ := unchanged_of_along h
    exact ⟨by rw [hs], by rw [hs], hr⟩

section Sample

set_option maxRecDepth 20000 in
/-- A transfer that comes too early is the first of its block. -/
theorem allOrNothing_sample :
    Unchanged (fundedExecutor ⟨∅⟩).contractExecutor
      ((fundedExecutor ⟨∅⟩).executeBlock .hashOnly .sorted
        (sampleBlockOf [sampleSecond])).2.contractExecutor := by
  have hearly : ¬ (fundedExecutor ⟨∅⟩).contractExecutor.stateManager.Transferable
      sampleSecond.fromAddr 200 sampleSecond.nonce
      (satMul sampleSecond.gasLimit sampleSecond.gasPrice) := by decide +kernel
  have hfails : ((fundedExecutor ⟨∅⟩).executeBlock .hashOnly .sorted
      (sampleBlockOf [sampleSecond])).1.success = false := by decide +kernel
  apply (allOrNothing_iff .hashOnly .sorted (fundedExecutor ⟨∅⟩)
    (sampleBlockOf [sampleSecond]) (by decide)).mpr _ hfails
  intro _
  rw [transactions_sampleBlockOf, attempted_singleton]
  exact ⟨hearly, trivial⟩

set_option maxRecDepth 20000 in
/-- The same transfer after another one: the block fails and the first transfer stays. -/
theorem failed_block_keeps_transfer :
    ((fundedExecutor ⟨∅⟩).executeBlock .hashOnly .sorted
        (sampleBlockOf [sampleAside, sampleSecond])).1.success = false ∧
      ((fundedExecutor ⟨∅⟩).executeBlock .hashOnly .sorted
        (sampleBlockOf [sampleAside, sampleSecond])).1.executedTransactions = 1 ∧
      ¬ Unchanged (fundedExecutor ⟨∅⟩).contractExecutor
        ((fundedExecutor ⟨∅⟩).executeBlock .hashOnly .sorted
          (sampleBlockOf [sampleAside, sampleSecond])).2.contractExecutor := by
  have hreceived : balanceAt ((fundedExecutor ⟨∅⟩).executeBlock .hashOnly .sorted
      (sampleBlockOf [sampleAside, sampleSecond])).2.contractExecutor (Bytes.fill 20 11) = 100 := by
    decide +kernel
  refine ⟨by decide +kernel, by decide +kernel, ?_⟩
  intro h
  unfold balanceAt accountOrNew SparseMerkleTree.getAccount at hreceived
  rw [h.accounts] at hreceived
  exact absurd hreceived (by decide +kernel)

end Sample

end TransactionExecutor

end CytahSpeed
