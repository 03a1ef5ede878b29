import CytahSpeed.NodeRun
import CytahSpeed.RpcServer

/-!
# The flow of transactions through a node

A transaction enters the pool of a node by being accepted. It leaves it for a block that the node
inserts, or because a full pool gives it up, or together with a coinbase of the same hash. Nothing
else happens to it, in any run.
-/

namespace CytahSpeed
open ByteString FiniteMap

def ProducingNode.insertedBlock (c : Crypto) (scale : RewardScale) (call : ProduceCall)
    (n : ProducingNode) : Option Block :=
  match (n.insertProduced c scale call).1 with
  | .ok inserted => inserted
  | .error _ => none

namespace RunningNode

variable (c : Crypto) (scale : RewardScale) (margin : UInt64 → UInt64) (n : RunningNode)

def accepted (n : RunningNode) : Event → List TxId
  | .addTransaction env tx =>
    match (n.addTransaction c env tx).1 with
    | .ok _ => [tx.hash c]
    | .error _ => []
  | _ => []

/-- The hash that a full pool gives up for a transaction, which may then be refused. -/
def evicted (n : RunningNode) : Event → List TxId
  | .addTransaction env tx =>
    match TxDagMempool.validateTransaction c tx with
    | .error _ => []
    | .ok _ => (n.mempool.evicted (n.poolEnv env) tx none).toList
  | _ => []

/-- The transactions of a block that the node inserts, behind the coinbase. -/
def included (n : RunningNode) : Event → List TxId
  | .produceBlock call =>
    match n.insertedBlock c scale call with
    | some block => (block.transactions.map (·.hash c)).tail
    | none => []
  | _ => []

/-- A pooled hash that is that of the coinbase of an inserted block. -/
def displaced (n : RunningNode) : Event → List TxId
  | .produceBlock call =>
    match n.insertedBlock c scale call with
    | some block =>
      ((block.transactions.map (·.hash c)).take 1).filter (· ∈ n.mempool.transactions)
    | none => []
  | _ => []

def departed (n : RunningNode) (e : Event) : List TxId :=
  n.included c scale e ++ (n.evicted c e ++ n.displaced c scale e)

def pooled (id : TxId) : ℕ := if id ∈ n.mempool.transactions then 1 else 0

section Pool
variable {c scale margin n}

theorem keyed_congr {m m' : TxDagMempool} (h : m'.transactions = m.transactions)
    (hm : m.Keyed c) : m'.Keyed c := by
  unfold TxDagMempool.Keyed
  rw [h]
  exact hm

theorem keyed_removeTransactions (txs : List Transaction) {m : TxDagMempool} (hm : m.Keyed c) :
    (ProducingNode.removeTransactions c m txs).Keyed c := by
  induction txs generalizing m with
  | nil => exact hm
  | cons tx txs ih => exact ih (RpcServer.keyed_exec hm (.removeTransaction (tx.hash c)))

theorem keyed_addTransaction (hn : n.mempool.Keyed c) (env : PoolEnv) (tx : Transaction) :
    (n.addTransaction c env tx).2.mempool.Keyed c := by
  unfold addTransaction
  cases TxDagMempool.validateTransaction c tx with
  | error e => exact hn
  | ok u => exact RpcServer.keyed_exec hn (.addTransaction (n.poolEnv env) tx [] none)

theorem keyed_produceBlock (call : ProduceCall) {n : ProducingNode} (hn : n.mempool.Keyed c) :
    (n.produceBlock c scale call).2.mempool.Keyed c := by
  have hpool := keyed_congr (ProducingNode.insertProduced_keeps c scale call n).1 hn
  unfold ProducingNode.produceBlock
  generalize n.insertProduced c scale call = r at hpool
  rcases r with ⟨e | _ | block, n'⟩
  · exact hpool
  · exact hpool
  · exact keyed_removeTransactions block.transactions hpool

theorem mempool_checkFinality (n : RunningNode) (turns : ℕ) :
    (step c scale margin n (.checkFinality turns)).mempool = n.mempool := by
  change (((n.checkFinality margin turns).map Prod.snd).getD n).mempool = n.mempool
  cases h : n.checkFinality margin turns with
  | none => rfl
  | some r => exact (checkFinality_keeps h).2

theorem keyed_step (hn : n.mempool.Keyed c) (e : Event) :
    (step c scale margin n e).mempool.Keyed c := by
  cases e with
  | initializeNode accounts env timestamp => exact hn
  | addTransaction env tx => exact keyed_addTransaction hn env tx
  | produceBlock call => exact keyed_produceBlock call hn
  | insertBlock env block => exact hn
  | checkFinality turns =>
    rw [mempool_checkFinality]
    exact hn
  | setMining enabled => exact hn

end Pool

section Balance
variable {c scale margin n}

theorem count_evicted {m : TxDagMempool} {gone : Option TxId}
    (hgone : ∀ h, gone = some h → h ∈ m.transactions) (id : TxId) :
    (if id ∈ m.transactions then 1 else 0) = gone.toList.count id +
      if id ∈ (m.withoutEntry gone).transactions then 1 else 0 := by
  simp only [TxDagMempool.mem_withoutEntry]
  cases gone with
  | none => simp
  | some h =>
    by_cases hid : h = id
    · subst hid
      simp [hgone h rfl]
    · simp [hid, Ne.symm hid]

theorem count_addToPool {m : TxDagMempool} {tx : Transaction} (hfresh : tx.hash c ∉ m.transactions)
    (parents : List TxId) (now : UInt64) (id : TxId) :
    (if id ∈ (m.addToPool c tx parents now).transactions then 1 else 0) =
      (if id ∈ m.transactions then 1 else 0) + [tx.hash c].count id := by
  obtain ⟨t, -, -, -, hlookup⟩ := TxDagMempool.lookup_addToPool c m tx parents now
  have hmem : id ∈ (m.addToPool c tx parents now).transactions ↔
      id = tx.hash c ∨ id ∈ m.transactions := by
    rw [Finmap.mem_iff, Finmap.mem_iff, hlookup]
    by_cases hid : id = tx.hash c
    · simp [hid]
    · simp [hid]
  simp only [hmem]
  by_cases hid : id = tx.hash c
  · rw [hid]
    simp [hfresh]
  · simp [hid, Ne.symm hid]

theorem balance_addTransaction (n : RunningNode) (env : PoolEnv) (tx : Transaction) (id : TxId) :
    n.pooled id + (n.accepted c (.addTransaction env tx)).count id =
      (n.evicted c (.addTransaction env tx)).count id +
        (n.addTransaction c env tx).2.pooled id := by
  unfold accepted evicted addTransaction
  cases hvalid : TxDagMempool.validateTransaction c tx with
  | error e => simp only [hvalid, List.count_nil, Nat.zero_add, Nat.add_zero]
  | ok u =>
    have hgone : ∀ h, n.mempool.evicted (n.poolEnv env) tx none = some h →
        h ∈ n.mempool.transactions := fun h he => TxDagMempool.mem_of_evicted he
    have hsplit := count_evicted hgone id
    simp only [hvalid, pooled]
    rcases TxDagMempool.addTransaction_cases c n.mempool (n.poolEnv env) tx [] none with
      ⟨haccepts, rates, hadd⟩ | ⟨-, e, rates, hadd⟩
    · have hadded := count_addToPool haccepts.fresh [] (n.poolEnv env).now id
      simp only [hadd]
      rw [hadded, hsplit, Nat.add_assoc]
    · simp only [hadd, List.count_nil, Nat.add_zero]
      exact hsplit

theorem selected_pooled {n : ProducingNode} (hn : n.mempool.Keyed c) (call : ProduceCall)
    {tx : Transaction} (htx : tx ∈ n.blockProducer.selectTransactions call.producer n.mempool
      call.baseFee) : tx.hash c ∈ n.mempool.transactions := by
  obtain ⟨t, ht, rfl⟩ := List.mem_map.mp htx
  have hready := List.take_subset _ _ ((List.mem_insertionSort _).mp ht)
  obtain ⟨⟨h, t'⟩, he, rfl⟩ := List.mem_map.mp (List.mem_filter.mp hready).1
  have hlookup := ((call.producer.pool.enumerates n.mempool.transactions).2 (h, t')).mp he
  have hkey : t'.transaction.hash c = h := hn h t' hlookup
  change t'.transaction.hash c ∈ n.mempool.transactions
  rw [hkey]
  exact Finmap.mem_iff.mpr ⟨t', hlookup⟩

/-- An inserted block holds a coinbase and pooled transactions, all different, and none of them is
pooled behind the call. -/
theorem insertedBlock_some (hn : n.mempool.Keyed c) {call : ProduceCall} {block : Block}
    (h : n.insertedBlock c scale call = some block) : ∃ first rest,
    block.transactions.map (·.hash c) = first :: rest ∧ (first :: rest).Nodup ∧
      (∀ x ∈ rest, x ∈ n.mempool.transactions) ∧
      ∀ x, x ∈ (n.produceBlock c scale call).2.mempool.transactions ↔
        x ∈ n.mempool.transactions ∧ x ∉ first :: rest := by
  unfold ProducingNode.insertedBlock at h
  cases hproduced : n.insertProduced c scale call with
  | mk result n' =>
    rw [hproduced] at h
    cases result with
    | error e => cases h
    | ok inserted =>
      obtain rfl : inserted = some block := h
      obtain ⟨htxs, -, hdistinct, -⟩ := ProducingNode.insertProduced_some hproduced
      refine ⟨_, _, congrArg (List.map (·.hash c)) htxs, hdistinct, ?_, ?_⟩
      · intro x hx
        obtain ⟨tx, htx, rfl⟩ := List.mem_map.mp hx
        exact selected_pooled hn call htx
      · intro x
        rw [ProducingNode.mem_produceBlock, hproduced]
        refine and_congr_right fun _ => ⟨fun hx => hx block n' rfl, fun hx _ _ _ => hx⟩

theorem insertedBlock_none {call : ProduceCall} (h : n.insertedBlock c scale call = none) :
    (n.produceBlock c scale call).2.mempool.transactions = n.mempool.transactions := by
  have hpool := (ProducingNode.insertProduced_keeps c scale call n.toProducingNode).1
  unfold ProducingNode.insertedBlock at h
  unfold ProducingNode.produceBlock
  generalize n.insertProduced c scale call = r at h hpool
  rcases r with ⟨e | _ | block, n'⟩
  · exact hpool
  · exact hpool
  · cases h

theorem balance_produceBlock (hn : n.mempool.Keyed c) (call : ProduceCall) (id : TxId) :
    n.pooled id = (n.included c scale (.produceBlock call)).count id +
      ((n.displaced c scale (.produceBlock call)).count id +
        (step c scale margin n (.produceBlock call)).pooled id) := by
  change _ = _ + (_ + if id ∈ (n.produceBlock c scale call).2.mempool.transactions then 1 else 0)
  unfold pooled included displaced
  cases h : n.insertedBlock c scale call with
  | none =>
    rw [insertedBlock_none h]
    simp [h]
  | some block =>
    obtain ⟨first, rest, htxs, hdistinct, hrest, hafter⟩ := insertedBlock_some hn h
    simp only [h, htxs, hafter, List.tail_cons, List.take_succ_cons, List.take_zero]
    rw [Flow.count_taken (P := (· ∈ n.mempool.transactions)) hdistinct hrest id, Nat.add_assoc]

theorem balance_of_pool {e : Event} (hflows : n.accepted c e = [] ∧ n.departed c scale e = [])
    (hpool : (step c scale margin n e).mempool = n.mempool) (id : TxId) :
    n.pooled id + (n.accepted c e).count id =
      (n.departed c scale e).count id + (step c scale margin n e).pooled id := by
  rw [hflows.1, hflows.2, pooled, pooled, hpool, List.count_nil, Nat.zero_add, Nat.add_zero]

theorem balanced_step (c : Crypto) (scale : RewardScale) (margin : UInt64 → UInt64) :
    Flow.Balanced (step c scale margin) pooled (accepted c) (departed c scale)
      (fun n => n.mempool.Keyed c) where
  keeps n e hn := keyed_step hn e
  balance n e id hn := by
    cases e with
    | initializeNode accounts env timestamp => exact balance_of_pool ⟨rfl, rfl⟩ rfl id
    | addTransaction env tx =>
      have hgone : n.departed c scale (.addTransaction env tx) =
          n.evicted c (.addTransaction env tx) := List.append_nil _
      rw [hgone]
      exact balance_addTransaction n env tx id
    | produceBlock call =>
      rw [departed, List.count_append, Nat.add_assoc]
      exact balance_produceBlock hn call id
    | insertBlock env block => exact balance_of_pool ⟨rfl, rfl⟩ rfl id
    | checkFinality turns => exact balance_of_pool ⟨rfl, rfl⟩ (mempool_checkFinality n turns) id
    | setMining enabled => exact balance_of_pool ⟨rfl, rfl⟩ rfl id

end Balance

/-- In every run of a node, from its start on, each transaction that is accepted or was pooled is
included in an inserted block, given up by a full pool, displaced by a coinbase, or pooled. -/
theorem transactions_accounted (c : Crypto) (scale : RewardScale) (margin : UInt64 → UInt64)
    (config : Config) (before events : List Event) (id : TxId) :
    let n := (new c config).run c scale margin before
    n.pooled id + (Flow.along (step c scale margin) (accepted c) n events).count id =
      (Flow.along (step c scale margin) (included c scale) n events).count id +
        ((Flow.along (step c scale margin) (evicted c) n events).count id +
          (Flow.along (step c scale margin) (displaced c scale) n events).count id) +
        (n.run c scale margin events).pooled id := by
  intro n
  have hbalanced := balanced_step c scale margin
  have hn : n.mempool.Keyed c := hbalanced.invariant (RpcServer.keyed_new _ _) before
  have hrun := hbalanced.run hn events id
  unfold departed at hrun
  rw [Flow.count_along_both, Flow.count_along_both] at hrun
  exact hrun

end RunningNode

end CytahSpeed
