import CytahSpeed.TransactionFrame

/-!
# Serialisability of parallel execution

On the contents of the ledger both executions are runs of the same tasks: the sequential one in
the order of the block, the parallel one in the order of the batches and, inside a batch, of the
hashes. Transactions without a conflict are independent, so the two runs agree when the batches
keep the order of the transactions in conflict, which is when the conflicts are levelled.
-/

namespace CytahSpeed
open ByteString FiniteMap TraceOrder

namespace ParallelExecutor

section Storage
variable (c : Crypto) (wasm : Wasm) (txs : List Transaction) (ledger : Ledger)

/-- The code is registered at the address, or the block deploys it there. -/
def MayRun (address : Address) (code : List UInt8) : Prop :=
  (∃ info, ledger.registry.getContract address = some info ∧ info.bytecode = code) ∨
    ∃ tx ∈ txs, ∃ args, tx.payload = .contractDeploy code args ∧ deployAddress c code = address

/-- Every code that the contracts of the block may run keeps to the keys of its contract, and
different contracts have different keys. -/
structure KeepsApart (keys : Address → Set (List UInt8)) : Prop where
  apart : ∀ a b, a ≠ b → Disjoint (keys a) (keys b)
  within : ∀ tx ∈ txs, ∀ a, contractOf c tx = some a → ∀ code, MayRun c txs ledger a code →
    wasm.RunsWithin code a (keys a)

def SeparateStorage : Prop := ∃ keys, KeepsApart c wasm txs ledger keys

def Known (s : Contents) : Prop :=
  ∀ a info, s.contracts.lookup a = some info → MayRun c txs ledger a info.bytecode

variable {c wasm txs ledger}

theorem separateStorage_of_transfers
    (h : ∀ tx ∈ txs, ∃ toAddr amount, tx.payload = .transfer toAddr amount) :
    SeparateStorage c wasm txs ledger := by
  refine ⟨fun _ => ∅, fun _ _ _ => Set.disjoint_empty _, ?_⟩
  intro tx htx a ha
  obtain ⟨toAddr, amount, hp⟩ := h tx htx
  rw [contractOf, hp] at ha
  cases ha

theorem known_contents : Known c txs ledger ledger.contents :=
  fun _ info h => Or.inl ⟨info, h, rfl⟩

variable {keys : Address → Set (List UInt8)} (hkeys : KeepsApart c wasm txs ledger keys)
include hkeys

theorem KeepsApart.runsWithinKeys {tx : Transaction} (htx : tx ∈ txs) {s : Contents}
    (hs : Known c txs ledger s) : RunsWithinKeys c keys tx wasm s := by
  have hwithin := hkeys.within tx htx
  unfold RunsWithinKeys
  unfold contractOf at hwithin
  cases hp : tx.payload with
  | transfer toAddr amount => trivial
  | contractDeploy wasmCode args =>
    rw [hp] at hwithin
    exact hwithin _ rfl _ (Or.inr ⟨tx, htx, args, hp, rfl⟩)
  | contractCall address method args =>
    rw [hp] at hwithin
    exact fun info hinfo => hwithin _ rfl _ (hs address info hinfo)

theorem KeepsApart.known_step {tx : Transaction} (htx : tx ∈ txs) {s : Contents}
    (hs : Known c txs ledger s) :
    Known c txs ledger (applyResult (executeAlone c wasm tx s.ledger) s) := by
  have hw := executeAlone_within (hkeys.runsWithinKeys htx hs)
  intro a info hinfo
  unfold applyResult at hinfo
  split at hinfo
  · change ContractRegistry.getContract _ a = some info at hinfo
    rw [getContract_registerAll] at hinfo
    rcases Option.or_eq_some_iff.mp hinfo with hold | ⟨-, hnew⟩
    · exact hs a info hold
    · obtain ⟨e, he, rfl⟩ := Option.map_eq_some_iff.mp hnew
      obtain ⟨args, hp, haddress⟩ :=
        hw.registry e ((List.mem_insertionSort _).mp (List.mem_of_find?_eq_some he))
      have hea : e.1 = a := by simpa using List.find?_some he
      exact Or.inr ⟨tx, htx, args, hp, haddress.symm.trans hea⟩
  · exact hs a info hinfo

theorem KeepsApart.independence :
    Independence (fun tx s => executeAlone c wasm tx (Contents.ledger s)) applyResult (· ∈ txs)
      (Known c txs ledger) (fun t u => ¬ conflicts c t u) := by
  apply Independence.of_footprint Contents.get (footprint c keys)
  · exact fun s s' h => Contents.ext_get h
  · exact fun tx s htx hs => hkeys.known_step htx hs
  · exact fun t u h hconf => h (conflicts_symm hconf)
  · exact fun t u h => disjoint_footprint hkeys.apart h
  · exact fun tx s s' htx hs h => executeAlone_congr (hkeys.runsWithinKeys htx hs) h
  · exact fun tx s k htx hs hk => get_applyResult_of_notMem (hkeys.runsWithinKeys htx hs) hk
  · exact get_applyResult_congr

end Storage

section Runs
variable (c : Crypto) (wasm : Wasm) (leafOrder : IterOrder Address Account)

def runContents (txs : List Transaction) (s : Contents) : List TransactionReceipt × Contents :=
  run (fun tx s => executeAlone c wasm tx (Contents.ledger s)) applyResult txs s

def sortByHash (batch : List Transaction) : List Transaction :=
  batch.insertionSort fun t u => t.hash c ≤ u.hash c

theorem executeSequential_foldl (txs : List Transaction) (receipts : List TransactionReceipt)
    (ledger : Ledger) :
    let r := txs.foldl (fun acc tx =>
      let r := executeAlone c wasm tx acc.2
      (acc.1 ++ [r.1], mergeIfSuccessful c leafOrder r acc.2)) (receipts, ledger)
    (r.1, r.2.contents) = (receipts ++ (runContents c wasm txs ledger.contents).1,
      (runContents c wasm txs ledger.contents).2) := by
  induction txs generalizing receipts ledger with
  | nil => simp [runContents, run]
  | cons tx txs ih =>
    simp only [List.foldl_cons] at ih ⊢
    rw [ih, contents_mergeIfSuccessful, executeAlone_contents]
    simp [runContents, run, step]

theorem executeSequential_eq_run (txs : List Transaction) (ledger : Ledger) :
    ((executeSequential c wasm leafOrder txs ledger).1,
      (executeSequential c wasm leafOrder txs ledger).2.contents) =
        runContents c wasm txs ledger.contents :=
  executeSequential_foldl c wasm leafOrder txs [] ledger

theorem mergeAll_foldl (txs : List Transaction) (base : Ledger)
    (receipts : List TransactionReceipt) (ledger : Ledger) :
    let r := (txs.map fun tx => (tx.hash c, executeAlone c wasm tx base)).foldl
      (fun acc r => (acc.1 ++ [r.2.1], mergeIfSuccessful c leafOrder r.2 acc.2)) (receipts, ledger)
    let b := runBatch (fun tx s => executeAlone c wasm tx (Contents.ledger s)) applyResult
      base.contents txs ledger.contents
    (r.1, r.2.contents) = (receipts ++ b.1, b.2) := by
  induction txs generalizing receipts ledger with
  | nil => simp [runBatch]
  | cons tx txs ih =>
    simp only [List.map_cons, List.foldl_cons] at ih ⊢
    rw [ih, contents_mergeIfSuccessful, executeAlone_contents]
    simp [runBatch]

theorem executeBatch_eq_runBatch (batch : List Transaction) (base : Ledger) :
    ((executeBatch c wasm leafOrder batch base).1,
      (executeBatch c wasm leafOrder batch base).2.contents) =
        runBatch (fun tx s => executeAlone c wasm tx (Contents.ledger s)) applyResult
          base.contents (sortByHash c batch) base.contents := by
  have hsort : (batch.map fun tx => (tx.hash c, executeAlone c wasm tx base)).insertionSort
      (fun a b => a.1 ≤ b.1) =
        (sortByHash c batch).map fun tx => (tx.hash c, executeAlone c wasm tx base) := by
    symm
    apply List.map_insertionSort
    exact fun _ _ _ _ => Iff.rfl
  unfold executeBatch
  simp only [hsort]
  exact mergeAll_foldl c wasm leafOrder (sortByHash c batch) base [] base

theorem perm_sortByHash (batch : List Transaction) : (sortByHash c batch).Perm batch :=
  List.perm_insertionSort _ _

variable {c wasm leafOrder} {txs : List Transaction} {ledger : Ledger}
  {keys : Address → Set (List UInt8)}

variable (leafOrder) in
theorem executeBatch_eq_run (hkeys : KeepsApart c wasm txs ledger keys) {batch : List Transaction}
    (hsub : ∀ tx ∈ batch, tx ∈ txs) (hpair : batch.Pairwise fun t u => ¬ conflicts c t u)
    {base : Ledger} (hbase : Known c txs ledger base.contents) :
    ((executeBatch c wasm leafOrder batch base).1,
      (executeBatch c wasm leafOrder batch base).2.contents) =
        runContents c wasm (sortByHash c batch) base.contents := by
  have hperm := perm_sortByHash c batch
  rw [executeBatch_eq_runBatch]
  apply runBatch_eq_run hkeys.independence
  · exact hbase
  · exact fun tx htx => hsub tx (hperm.mem_iff.mp htx)
  · exact (hperm.pairwise_iff fun h hconf => h (conflicts_symm hconf)).mpr hpair

theorem executeBatches_foldl (hkeys : KeepsApart c wasm txs ledger keys)
    (batches : List (List Transaction)) (hsub : ∀ b ∈ batches, ∀ tx ∈ b, tx ∈ txs)
    (hpair : ∀ b ∈ batches, b.Pairwise fun t u => ¬ conflicts c t u)
    (receipts : List TransactionReceipt) (base : Ledger)
    (hbase : Known c txs ledger base.contents) :
    let r := batches.foldl (fun acc batch =>
      let r := executeBatch c wasm leafOrder batch acc.2
      (acc.1 ++ r.1, r.2)) (receipts, base)
    let s := runContents c wasm (batches.map (sortByHash c)).flatten base.contents
    (r.1, r.2.contents) = (receipts ++ s.1, s.2) := by
  induction batches generalizing receipts base with
  | nil => simp [runContents, run]
  | cons batch batches ih =>
    obtain ⟨hsubb, hsub⟩ := List.forall_mem_cons.mp hsub
    obtain ⟨hpairb, hpair⟩ := List.forall_mem_cons.mp hpair
    have hbatch := executeBatch_eq_run leafOrder hkeys hsubb hpairb hbase
    have hreceipts := congrArg Prod.fst hbatch
    have hcontents := congrArg Prod.snd hbatch
    dsimp only at hreceipts hcontents
    have hknown : Known c txs ledger (executeBatch c wasm leafOrder batch base).2.contents := by
      rw [hcontents]
      apply run_keep hkeys.independence _ _ hbase
      exact fun tx htx => hsubb tx ((perm_sortByHash c batch).mem_iff.mp htx)
    have hnext := ih hsub hpair (receipts ++ (executeBatch c wasm leafOrder batch base).1) _ hknown
    dsimp only at hnext ⊢
    rw [List.foldl_cons, hnext, List.map_cons, List.flatten_cons]
    simp only [runContents] at hreceipts hcontents ⊢
    rw [run_append, hreceipts, hcontents, List.append_assoc]

variable (leafOrder) in
theorem executeParallel_eq_run (hd : DistinctHashes c txs)
    (hkeys : KeepsApart c wasm txs ledger keys) (batchOrder : IterOrder ℕ (List Transaction)) :
    ((executeBlockTransactionsParallel c wasm leafOrder batchOrder txs ledger).1,
      (executeBlockTransactionsParallel c wasm leafOrder batchOrder txs ledger).2.contents) =
        runContents c wasm
          ((scheduleParallelBatches c batchOrder txs).map (sortByHash c)).flatten
          ledger.contents := by
  apply executeBatches_foldl hkeys _ _ _ [] ledger known_contents
  · intro b hb tx htx
    exact (flatten_scheduleParallelBatches hd).subset (List.mem_flatten.mpr ⟨b, hb, htx⟩)
  · exact fun b hb => batch_pairwise hd hb

end Runs

section Serialisable
variable (c : Crypto) (wasm : Wasm) (txs : List Transaction) (ledger : Ledger)

def receiptOf (receipts : List TransactionReceipt) (id : TxId) : Option TransactionReceipt :=
  receipts.find? (·.txHash = id)

/-- Whatever order the hash maps are iterated in, the parallel execution leaves the accounts of
the sequential one and gives every hash the same receipt, and of two transactions in conflict the
one listed first is executed first. -/
def Serialisable : Prop :=
  (∀ batchOrder leafOrder leafOrder',
    let parallel := executeBlockTransactionsParallel c wasm leafOrder batchOrder txs ledger
    let sequential := executeSequential c wasm leafOrder' txs ledger
    parallel.2.state.stateTree.leaves = sequential.2.state.stateTree.leaves ∧
      ∀ id, receiptOf parallel.1 id = receiptOf sequential.1 id) ∧
  ∀ batchOrder, RespectsBlockOrder c txs batchOrder

variable {c wasm txs ledger}

theorem txHash_executeAlone (tx : Transaction) (base : Ledger) :
    (executeAlone c wasm tx base).1.txHash = tx.hash c := by
  unfold executeAlone executeTransaction executeTransfer executeDeploy executeCall
  dsimp only
  repeat' split
  all_goals rfl

theorem map_txHash_runContents (s : Contents) :
    (runContents c wasm txs s).1.map (·.txHash) = txs.map (Transaction.hash c) := by
  unfold runContents
  induction txs generalizing s with
  | nil => rfl
  | cons tx txs ih =>
    rw [run, List.map_cons, List.map_cons, ih, txHash_executeAlone]

theorem receiptOf_eq_some_iff {l : List TransactionReceipt} (hl : (l.map (·.txHash)).Nodup)
    {id : TxId} {r : TransactionReceipt} :
    receiptOf l id = some r ↔ r ∈ l ∧ r.txHash = id := by
  unfold receiptOf
  constructor
  · intro h
    exact ⟨List.mem_of_find?_eq_some h, by simpa using List.find?_some h⟩
  · intro h
    have hsome : (l.find? (·.txHash = id)).isSome := by
      rw [List.find?_isSome]
      exact ⟨r, h.1, by simpa using h.2⟩
    obtain ⟨r', hr'⟩ := Option.isSome_iff_exists.mp hsome
    have hid : r'.txHash = id := by simpa using List.find?_some hr'
    rw [hr', List.inj_on_of_nodup_map hl (List.mem_of_find?_eq_some hr') h.1 (hid.trans h.2.symm)]

theorem receiptOf_perm {l l' : List TransactionReceipt} (hl : (l.map (·.txHash)).Nodup)
    (hp : l.Perm l') (id : TxId) : receiptOf l id = receiptOf l' id := by
  have hl' : (l'.map (·.txHash)).Nodup := (hp.map _).nodup_iff.mp hl
  apply Option.ext
  intro r
  rw [receiptOf_eq_some_iff hl, receiptOf_eq_some_iff hl', hp.mem_iff]

theorem mem_batches_order {batches : List (List Transaction)} {t u : Transaction}
    (h : RunsBefore batches t u) : [t, u].Sublist (batches.map (sortByHash c)).flatten := by
  obtain ⟨b, b', hsub, ht, hu⟩ := h
  have hflat : (sortByHash c b ++ sortByHash c b').Sublist
      (batches.map (sortByHash c)).flatten := by
    have := (hsub.map (sortByHash c)).flatten
    simpa using this
  refine List.Sublist.trans ?_ hflat
  exact (List.singleton_sublist.mpr ((perm_sortByHash c b).mem_iff.mpr ht)).append
    (List.singleton_sublist.mpr ((perm_sortByHash c b').mem_iff.mpr hu))

theorem perm_flatten_sorted (batches : List (List Transaction)) :
    (batches.map (sortByHash c)).flatten.Perm batches.flatten := by
  induction batches with
  | nil => rfl
  | cons b batches ih =>
    rw [List.map_cons, List.flatten_cons, List.flatten_cons]
    exact (perm_sortByHash c b).append ih

theorem executeParallel_agrees (hd : DistinctHashes c txs)
    (hstorage : SeparateStorage c wasm txs ledger) {batchOrder : IterOrder ℕ (List Transaction)}
    (horder : RespectsBlockOrder c txs batchOrder)
    (leafOrder leafOrder' : IterOrder Address Account) :
    (executeBlockTransactionsParallel c wasm leafOrder batchOrder txs ledger).2.contents =
        (executeSequential c wasm leafOrder' txs ledger).2.contents ∧
      (executeBlockTransactionsParallel c wasm leafOrder batchOrder txs ledger).1.Perm
        (executeSequential c wasm leafOrder' txs ledger).1 := by
  obtain ⟨keys, hkeys⟩ := hstorage
  have hparallel := executeParallel_eq_run leafOrder hd hkeys batchOrder
  have hsequential := executeSequential_eq_run c wasm leafOrder' txs ledger
  have hperm : txs.Perm ((scheduleParallelBatches c batchOrder txs).map (sortByHash c)).flatten :=
    ((perm_flatten_sorted _).trans (flatten_scheduleParallelBatches hd)).symm
  obtain ⟨hstate, hreceipts⟩ := run_eq_of_sameOrder hkeys.independence txs _ ledger.contents
    known_contents (fun _ h => h) hperm (List.Nodup.of_map _ hd) (by
      intro t u hconf hsub
      exact mem_batches_order (horder t u (not_not.mp hconf) hsub))
  constructor
  · exact (congrArg Prod.snd hparallel).trans
      (hstate.symm.trans (congrArg Prod.snd hsequential).symm)
  · rw [congrArg Prod.fst hparallel, congrArg Prod.fst hsequential]
    exact hreceipts.symm

theorem map_txHash_executeSequential (leafOrder : IterOrder Address Account) :
    (executeSequential c wasm leafOrder txs ledger).1.map (·.txHash) =
      txs.map (Transaction.hash c) := by
  rw [congrArg Prod.fst (executeSequential_eq_run c wasm leafOrder txs ledger)]
  exact map_txHash_runContents _

/-- Parallel execution is serialisable in block order exactly when the conflicts are levelled, for
contracts that share no storage keys; it never is when the conflicts are not levelled. -/
theorem serialisable_iff (hd : DistinctHashes c txs) :
    (SeparateStorage c wasm txs ledger →
      (Serialisable c wasm txs ledger ↔ ConflictsLevelled c txs)) ∧
    (¬ ConflictsLevelled c txs → ¬ Serialisable c wasm txs ledger) := by
  have hnecessary : Serialisable c wasm txs ledger → ConflictsLevelled c txs := by
    intro h
    exact (respectsBlockOrder_iff IterOrder.sorted hd).mp (h.2 _)
  refine ⟨?_, fun hlev h => hlev (hnecessary h)⟩
  intro hstorage
  refine ⟨hnecessary, ?_⟩
  intro hlev
  have horder := fun batchOrder => (respectsBlockOrder_iff batchOrder hd).mpr hlev
  refine ⟨?_, horder⟩
  intro batchOrder leafOrder leafOrder'
  obtain ⟨hcontents, hreceipts⟩ :=
    executeParallel_agrees hd hstorage (horder batchOrder) leafOrder leafOrder'
  refine ⟨congrArg Contents.accounts hcontents, ?_⟩
  intro id
  symm
  apply receiptOf_perm _ hreceipts.symm
  rw [map_txHash_executeSequential]
  exact hd

end Serialisable

section Sample

def sampleKeys : Bytes 33 × Bytes 33 :=
  (⟨[2, 121, 190, 102, 126, 249, 220, 187, 172, 85, 160, 98, 149, 206, 135, 11, 7, 2, 155, 252,
      219, 45, 206, 40, 217, 89, 242, 129, 91, 22, 248, 23, 152], rfl⟩,
    ⟨[2, 198, 4, 127, 148, 65, 237, 125, 109, 48, 69, 64, 110, 149, 192, 124, 216, 92, 119, 142,
      75, 140, 239, 60, 167, 171, 172, 9, 185, 92, 112, 158, 229], rfl⟩)

def sampleSenders : Address × Address :=
  (⟨[93, 67, 242, 149, 68, 114, 9, 127, 161, 82, 101, 244, 81, 48, 191, 219, 112, 229, 29,
      239], rfl⟩,
    ⟨[50, 228, 118, 132, 235, 136, 142, 163, 140, 33, 115, 5, 77, 78, 237, 255, 223, 21, 44,
      165], rfl⟩)

def signedWith (tx : Transaction) (signature : List UInt8) : Transaction :=
  { tx with signature := ⟨.secp256k1, signature⟩ }

/-- A recovery that knows the signatures of these transactions, each with the key of its sender. -/
def cryptoKnowing (txs : List Transaction) : Crypto :=
  .withSignatures (txs.map fun tx =>
    ((tx.hash .hashOnly, tx.signature.data.take 64, tx.signature.data.getD 64 0),
      if tx.fromAddr = sampleSenders.1 then sampleKeys.1 else sampleKeys.2))

def fundedLedger (c : Crypto) (registry : ContractRegistry) : Ledger :=
  let tree := ((StateManager.new c .sorted).stateTree.updateAccount c .sorted sampleSenders.1
    ⟨1000000, 0⟩).updateAccount c .sorted sampleSenders.2 ⟨1000000, 0⟩
  ⟨⟨tree, tree.calculateRoot⟩, registry, ⟨∅⟩⟩

def sampleAside : Transaction :=
  signedWith (.newTransfer sampleSenders.1 (Bytes.fill 20 11) 100 0 21000 1)
    [41, 186, 152, 146, 26, 213, 58, 116, 201, 119, 100, 190, 207, 148, 199, 192, 30, 141, 117,
    224, 66, 40, 122, 121, 69, 105, 229, 111, 41, 98, 249, 53, 109, 70, 120, 215, 143, 244,
    143, 63, 68, 213, 182, 245, 136, 6, 40, 130, 39, 163, 231, 13, 212, 160, 201, 47, 66,
    142, 198, 242, 7, 171, 150, 226, 0]

def sampleFirst : Transaction :=
  signedWith (.newTransfer sampleSenders.2 (Bytes.fill 20 12) 100 0 21000 1)
    [245, 146, 78, 216, 38, 219, 139, 158, 30, 127, 135, 211, 18, 103, 80, 225, 47, 228, 1, 77,
    63, 120, 103, 254, 181, 232, 194, 210, 100, 202, 144, 145, 77, 64, 82, 218, 15, 169,
    242, 83, 196, 208, 107, 159, 15, 164, 20, 52, 164, 35, 25, 132, 105, 238, 107, 38, 54,
    131, 102, 235, 42, 87, 162, 82, 1]

def sampleSecond : Transaction :=
  signedWith (.newTransfer sampleSenders.2 (Bytes.fill 20 13) 200 1 21000 1)
    [91, 112, 74, 0, 72, 220, 132, 37, 57, 68, 186, 13, 209, 238, 235, 146, 112, 176, 152, 61,
    30, 252, 12, 31, 161, 215, 137, 80, 95, 238, 111, 26, 88, 220, 1, 167, 62, 125, 90, 45,
    78, 234, 120, 247, 180, 73, 18, 132, 13, 252, 27, 39, 99, 23, 173, 152, 13, 123, 210,
    195, 77, 194, 147, 10, 1]

def sampleBlock : List Transaction := [sampleAside, sampleFirst, sampleSecond]

def sampleCrypto : Crypto := cryptoKnowing sampleBlock

def sampleWasm : Wasm := ⟨fun _ _ _ _ _ _ => .error "unexpected end-of-file"⟩

def sampleLedger : Ledger := fundedLedger sampleCrypto ⟨∅⟩

instance (c : Crypto) (txs : List Transaction) : Decidable (DistinctHashes c txs) :=
  inferInstanceAs (Decidable (List.Nodup _))

set_option maxRecDepth 20000 in
theorem sampleBlock_runs : DistinctHashes sampleCrypto sampleBlock ∧
    (executeBlockTransactionsParallel sampleCrypto sampleWasm .sorted .sorted sampleBlock
      sampleLedger).2.state.getAccount (Bytes.fill 20 13) = none ∧
    (executeSequential sampleCrypto sampleWasm .sorted sampleBlock
      sampleLedger).2.state.getAccount (Bytes.fill 20 13) = some ⟨200, 0⟩ := by
  decide +kernel

theorem separateStorage_sample {txs : List Transaction} (h : ∀ tx ∈ txs, tx ∈ sampleBlock) :
    SeparateStorage sampleCrypto sampleWasm txs sampleLedger := by
  apply separateStorage_of_transfers
  intro tx htx
  have hmem := h tx htx
  simp only [sampleBlock, List.mem_cons, List.not_mem_nil, or_false] at hmem
  rcases hmem with rfl | rfl | rfl <;> exact ⟨_, _, rfl⟩

theorem not_serialisable_of_account {c : Crypto} {wasm : Wasm} {txs : List Transaction}
    {ledger : Ledger} (a : Address) (h :
      (executeBlockTransactionsParallel c wasm .sorted .sorted txs ledger).2.state.getAccount a ≠
        (executeSequential c wasm .sorted txs ledger).2.state.getAccount a) :
    ¬ Serialisable c wasm txs ledger :=
  fun hs => h (congrArg (Finmap.lookup a) (hs.1 .sorted .sorted .sorted).1)

theorem sampleBlock_not_serialisable : DistinctHashes sampleCrypto sampleBlock ∧
    SeparateStorage sampleCrypto sampleWasm sampleBlock sampleLedger ∧
    ¬ Serialisable sampleCrypto sampleWasm sampleBlock sampleLedger := by
  obtain ⟨hd, hparallel, hsequential⟩ := sampleBlock_runs
  refine ⟨hd, separateStorage_sample fun _ h => h, ?_⟩
  apply not_serialisable_of_account (Bytes.fill 20 13)
  rw [hparallel, hsequential]
  exact (Option.some_ne_none _).symm

/-- Without the transfer aside, the two transfers of one sender run in order. -/
theorem serialisable_samplePair :
    Serialisable sampleCrypto sampleWasm [sampleFirst, sampleSecond] sampleLedger := by
  have hd : DistinctHashes sampleCrypto [sampleFirst, sampleSecond] :=
    sampleBlock_runs.1.sublist ((List.sublist_cons_self _ _).map _)
  apply ((serialisable_iff hd).1 (separateStorage_sample _)).mpr
  · exact GreedyColoring.levelled_of_le_two _ le_rfl
  · intro tx htx
    exact List.mem_cons_of_mem _ htx

def sampleCallA : Transaction :=
  signedWith ⟨sampleSenders.1, .contractCall (Bytes.fill 20 21) "run" [], 0, 100000, 1, .empty⟩
    [25, 207, 169, 254, 3, 219, 102, 109, 226, 77, 103, 181, 185, 116, 246, 214, 98, 166, 171,
     88, 242, 232, 30, 72, 107, 50, 193, 130, 1, 248, 135, 51, 7, 43, 229, 139, 66, 173, 218,
     166, 200, 178, 143, 139, 223, 117, 249, 143, 128, 220, 162, 210, 218, 17, 133, 119, 214,
     35, 103, 195, 212, 81, 150, 154, 1]

def sampleCallB : Transaction :=
  signedWith ⟨sampleSenders.2, .contractCall (Bytes.fill 20 22) "run" [], 0, 100000, 1, .empty⟩
    [27, 175, 234, 151, 166, 8, 142, 153, 150, 185, 99, 58, 55, 129, 83, 200, 190, 46, 244, 168,
     193, 67, 18, 143, 50, 236, 161, 246, 63, 62, 62, 144, 78, 250, 75, 225, 65, 162, 124,
     154, 177, 5, 30, 177, 96, 37, 177, 42, 32, 63, 17, 205, 126, 44, 179, 143, 201, 142,
     156, 94, 249, 40, 45, 128, 0]

def sampleCalls : List Transaction := [sampleCallA, sampleCallB]

def sampleRegistry : ContractRegistry :=
  ((ContractRegistry.mk ∅).registerContract (Bytes.fill 20 21) [0]).2.registerContract
    (Bytes.fill 20 22) [0] |>.2

/-- A runtime that lets the code reach the storage, where it reads one key, and writes it if it is
absent. -/
def sharedKeyWasm : Wasm :=
  ⟨fun _ _ _ _ _ storage =>
    match storage.lookup [0] with
    | some _ => .ok ⟨.ok (), 10, ∅⟩
    | none => .ok ⟨.ok (), 30, Finmap.insert [0] [1] ∅⟩⟩

set_option maxRecDepth 20000 in
theorem sampleCalls_runs : DistinctHashes (cryptoKnowing sampleCalls) sampleCalls ∧
    (executeBlockTransactionsParallel (cryptoKnowing sampleCalls) sharedKeyWasm .sorted .sorted
      sampleCalls (fundedLedger (cryptoKnowing sampleCalls) sampleRegistry)).2.state.getAccount
        sampleSenders.2 = some ⟨999970, 1⟩ ∧
    (executeSequential (cryptoKnowing sampleCalls) sharedKeyWasm .sorted sampleCalls
      (fundedLedger (cryptoKnowing sampleCalls) sampleRegistry)).2.state.getAccount
        sampleSenders.2 = some ⟨999990, 1⟩ := by
  decide +kernel

/-- Calls that share a storage key and no account are levelled and yet not serialisable. -/
theorem sampleCalls_not_serialisable :
    ConflictsLevelled (cryptoKnowing sampleCalls) sampleCalls ∧
      ¬ Serialisable (cryptoKnowing sampleCalls) sharedKeyWasm sampleCalls
        (fundedLedger (cryptoKnowing sampleCalls) sampleRegistry) := by
  obtain ⟨-, hparallel, hsequential⟩ := sampleCalls_runs
  refine ⟨GreedyColoring.levelled_of_le_two _ le_rfl, ?_⟩
  apply not_serialisable_of_account sampleSenders.2
  rw [hparallel, hsequential]
  decide

end Sample

end ParallelExecutor

end CytahSpeed
