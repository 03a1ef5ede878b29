import CytahSpeed.ParallelExecutor

/-!
# Batches and block order

Two transactions conflict when they touch a common account. The schedule splits the block into
batches of pairwise conflict-free transactions; the batch of a transaction precedes that of every
later transaction in conflict with it exactly when the conflict graph is levelled.
-/

namespace CytahSpeed
open ByteString FiniteMap MachineInt GreedyColoring

namespace ParallelExecutor

section Pairs
variable {α : Type*}

theorem pair_sublist_iff {l : List α} {a b : α} :
    [a, b].Sublist l ↔ ∃ i j : ℕ, i < j ∧ l[i]? = some a ∧ l[j]? = some b := by
  induction l with
  | nil => simp
  | cons x l ih =>
    rw [List.sublist_cons_iff, ih]
    constructor
    · intro h
      rcases h with ⟨i, j, hij, hi, hj⟩ | ⟨r, hr, hsub⟩
      · exact ⟨i + 1, j + 1, by omega, by simpa using hi, by simpa using hj⟩
      · obtain ⟨rfl, rfl⟩ := List.cons.inj hr
        obtain ⟨j, hj⟩ := List.mem_iff_getElem?.mp (List.singleton_sublist.mp hsub)
        exact ⟨0, j + 1, by omega, by simp, by simpa using hj⟩
    · intro h
      obtain ⟨i, j, hij, hi, hj⟩ := h
      obtain ⟨j, rfl⟩ : ∃ j', j = j' + 1 := ⟨j - 1, by omega⟩
      rw [List.getElem?_cons_succ] at hj
      cases i with
      | zero =>
        rw [List.getElem?_cons_zero, Option.some.injEq] at hi
        exact Or.inr ⟨[b], by rw [hi], List.singleton_sublist.mpr (List.mem_of_getElem? hj)⟩
      | succ i =>
        rw [List.getElem?_cons_succ] at hi
        exact Or.inl ⟨i, j, by omega, hi, hj⟩

theorem mem_orderedPairs {l : List α} {p : α × α} :
    p ∈ orderedPairs l ↔ [p.1, p.2].Sublist l := by
  induction l with
  | nil => simp [orderedPairs]
  | cons x l ih =>
    rw [orderedPairs, List.mem_append, ih, List.sublist_cons_iff, List.mem_map, or_comm]
    apply or_congr_right
    constructor
    · intro h
      obtain ⟨y, hy, rfl⟩ := h
      exact ⟨[y], rfl, List.singleton_sublist.mpr hy⟩
    · intro h
      obtain ⟨r, hr, hsub⟩ := h
      obtain ⟨h₁, h₂⟩ := List.cons.inj hr
      rw [← h₂] at hsub
      exact ⟨p.2, List.singleton_sublist.mp hsub, Prod.ext h₁.symm rfl⟩

theorem pair_sublist_of_lt {κ : Type*} [LinearOrder κ] {key : α → κ} {l : List α}
    (hl : l.Pairwise fun a b => key a ≤ key b) {a b : α} (ha : a ∈ l) (hb : b ∈ l)
    (hlt : key a < key b) : [a, b].Sublist l := by
  obtain ⟨i, hi⟩ := List.mem_iff_getElem?.mp ha
  obtain ⟨j, hj⟩ := List.mem_iff_getElem?.mp hb
  rcases Nat.lt_trichotomy i j with hij | rfl | hji
  · exact pair_sublist_iff.mpr ⟨i, j, hij, hi, hj⟩
  · obtain rfl : a = b := Option.some.inj (hi.symm.trans hj)
    exact absurd hlt (lt_irrefl _)
  · have hsub : [b, a].Sublist l := pair_sublist_iff.mpr ⟨j, i, hji, hj, hi⟩
    have hle := List.Pairwise.sublist hsub hl
    rw [List.pairwise_pair] at hle
    exact absurd hlt (not_lt_of_ge hle)

theorem pair_sublist_or {l : List α} {a b : α} (ha : a ∈ l) (hb : b ∈ l) (hne : a ≠ b) :
    [a, b].Sublist l ∨ [b, a].Sublist l := by
  obtain ⟨i, hi⟩ := List.mem_iff_getElem?.mp ha
  obtain ⟨j, hj⟩ := List.mem_iff_getElem?.mp hb
  rcases Nat.lt_trichotomy i j with hij | rfl | hji
  · exact Or.inl (pair_sublist_iff.mpr ⟨i, j, hij, hi, hj⟩)
  · exact absurd (Option.some.inj (hi.symm.trans hj)) hne
  · exact Or.inr (pair_sublist_iff.mpr ⟨j, i, hji, hj, hi⟩)

theorem pair_sublist_asymm {l : List α} (hl : l.Nodup) {a b : α} (h : [a, b].Sublist l)
    (h' : [b, a].Sublist l) : False := by
  obtain ⟨i, j, hij, hi, hj⟩ := pair_sublist_iff.mp h
  obtain ⟨j', i', hji, hj', hi'⟩ := pair_sublist_iff.mp h'
  have hii := (List.getElem?_inj (List.getElem?_eq_some_iff.mp hi).1 hl).mp (hi.trans hi'.symm)
  have hjj := (List.getElem?_inj (List.getElem?_eq_some_iff.mp hj).1 hl).mp (hj.trans hj'.symm)
  omega

theorem eq_of_pair_sublists {l l' : List α} (hp : l.Perm l') (hl : l.Nodup)
    (h : ∀ a b, [a, b].Sublist l → [a, b].Sublist l') : l = l' := by
  have hl' := hp.nodup_iff.mp hl
  have hle : ∀ a b, a ∈ l → b ∈ l' → [a, b].Sublist l' → [b, a].Sublist l' → a = b :=
    fun a b _ _ hab hba => (pair_sublist_asymm hl' hab hba).elim
  apply List.Perm.eq_of_pairwise hle _ _ hp
  · exact List.pairwise_iff_forall_sublist.mpr fun hab => h _ _ hab
  · exact List.pairwise_iff_forall_sublist.mpr id

end Pairs

section Conflicts
variable (c : Crypto)

def conflicts (t u : Transaction) : Bool :=
  transactionsConflict (analyzeAccess c t) (analyzeAccess c u)

def counterparty (tx : Transaction) : Address :=
  match tx.payload with
  | .transfer toAddr _ => toAddr
  | .contractDeploy wasmCode _ => deployAddress c wasmCode
  | .contractCall address _ _ => address

def touched (tx : Transaction) : Finset Address := {tx.fromAddr, counterparty c tx}

def StateKey.owner : StateKey → Address
  | .account address => address
  | .contractStorage address _ => address
  | .contractRegistry address => address

variable {c}

theorem owner_mem_touched {tx : Transaction} {key : StateKey}
    (h : key ∈ (analyzeAccess c tx).reads ∨ key ∈ (analyzeAccess c tx).writes) :
    key.owner ∈ touched c tx := by
  unfold analyzeAccess at h
  unfold touched counterparty
  cases hp : tx.payload <;> simp only [hp, Finset.mem_insert, Finset.mem_singleton] at h ⊢
  · rcases h with (rfl | rfl) | (rfl | rfl) <;> simp [StateKey.owner]
  · rcases h with rfl | rfl | rfl | rfl | rfl <;> simp [StateKey.owner]
  · rcases h with (rfl | rfl | rfl | rfl) | (rfl | rfl | rfl) <;> simp [StateKey.owner]

theorem account_mem_writes {tx : Transaction} {a : Address} (h : a ∈ touched c tx) :
    .account a ∈ (analyzeAccess c tx).writes := by
  unfold touched counterparty at h
  unfold analyzeAccess
  cases hp : tx.payload <;> simp only [hp, Finset.mem_insert, Finset.mem_singleton] at h ⊢ <;>
    rcases h with rfl | rfl <;> simp

/-- Storage and registry keys add nothing to the conflicts: their accounts are touched as well. -/
theorem conflicts_iff {t u : Transaction} :
    conflicts c t u ↔ ¬ Disjoint (touched c t) (touched c u) := by
  have hcommon : ∀ key, (key ∈ (analyzeAccess c t).reads ∨ key ∈ (analyzeAccess c t).writes) →
      (key ∈ (analyzeAccess c u).reads ∨ key ∈ (analyzeAccess c u).writes) →
      ¬ Disjoint (touched c t) (touched c u) := fun key ht hu =>
    Finset.not_disjoint_iff.mpr ⟨key.owner, owner_mem_touched ht, owner_mem_touched hu⟩
  unfold conflicts transactionsConflict
  constructor
  · intro h hd
    have hww : Disjoint (analyzeAccess c t).writes (analyzeAccess c u).writes :=
      Finset.disjoint_left.mpr fun key ht hu => hcommon key (Or.inr ht) (Or.inr hu) hd
    have hwr : Disjoint (analyzeAccess c t).writes (analyzeAccess c u).reads :=
      Finset.disjoint_left.mpr fun key ht hu => hcommon key (Or.inr ht) (Or.inl hu) hd
    have hrw : Disjoint (analyzeAccess c t).reads (analyzeAccess c u).writes :=
      Finset.disjoint_left.mpr fun key ht hu => hcommon key (Or.inl ht) (Or.inr hu) hd
    simp [hww, hwr, hrw] at h
  · intro h
    obtain ⟨a, ht, hu⟩ := Finset.not_disjoint_iff.mp h
    rw [if_pos (Finset.not_disjoint_iff.mpr
      ⟨.account a, account_mem_writes ht, account_mem_writes hu⟩)]

theorem conflicts_symm {t u : Transaction} (h : conflicts c t u) : conflicts c u t := by
  rw [conflicts_iff] at h ⊢
  exact fun hd => h hd.symm

end Conflicts

section Graph
variable (c : Crypto) (txs : List Transaction)

def adjacent (i j : ℕ) : Bool :=
  i ≠ j && match txs[i]?, txs[j]? with
    | some t, some u => conflicts c t u
    | _, _ => false

def neighbours (i : ℕ) : Finset ℕ :=
  (Finset.range txs.length).filter fun j => adjacent c txs i j

def DistinctHashes : Prop := (txs.map (Transaction.hash c)).Nodup

variable {c txs}

theorem adjacent_iff {i j : ℕ} {t u : Transaction} (ht : txs[i]? = some t)
    (hu : txs[j]? = some u) : adjacent c txs i j ↔ i ≠ j ∧ conflicts c t u := by
  simp [adjacent, ht, hu]

theorem exists_of_adjacent {i j : ℕ} (h : adjacent c txs i j) :
    ∃ t u, txs[i]? = some t ∧ txs[j]? = some u ∧ i ≠ j ∧ conflicts c t u := by
  unfold adjacent at h
  rw [Bool.and_eq_true] at h
  obtain ⟨hne, hmatch⟩ := h
  cases ht : txs[i]? with
  | none => simp [ht] at hmatch
  | some t =>
    cases hu : txs[j]? with
    | none => simp [ht, hu] at hmatch
    | some u => exact ⟨t, u, rfl, rfl, by simpa using hne, by simpa [ht, hu] using hmatch⟩

theorem adjacent_symm (i j : ℕ) (h : adjacent c txs i j) : adjacent c txs j i := by
  obtain ⟨t, u, ht, hu, hne, hconf⟩ := exists_of_adjacent h
  exact (adjacent_iff hu ht).mpr ⟨hne.symm, conflicts_symm hconf⟩

theorem not_adjacent_self (i : ℕ) : ¬ adjacent c txs i i := by
  simp [adjacent]

theorem mem_neighbours {i j : ℕ} : j ∈ neighbours c txs i ↔ adjacent c txs i j := by
  rw [neighbours, Finset.mem_filter, Finset.mem_range]
  constructor
  · exact fun h => h.2
  · intro h
    obtain ⟨t, u, ht, hu, -⟩ := exists_of_adjacent h
    exact ⟨(List.getElem?_eq_some_iff.mp hu).1, h⟩

theorem position_unique (hd : DistinctHashes c txs) {i j : ℕ} {t u : Transaction}
    (ht : txs[i]? = some t) (hu : txs[j]? = some u) (h : t.hash c = u.hash c) : i = j := by
  have hi : (txs.map (Transaction.hash c))[i]? = some (t.hash c) := by simp [ht]
  have hj : (txs.map (Transaction.hash c))[j]? = some (t.hash c) := by simp [hu, h]
  have hlt := (List.getElem?_eq_some_iff.mp hi).1
  exact (List.getElem?_inj hlt hd).mp (hi.trans hj.symm)

theorem mem_lookup_addEdge {edges : Map TxId (Finset TxId)} {a b id nid : TxId} :
    nid ∈ ((addEdge edges a b).lookup id).getD ∅ ↔
      (id = a ∧ nid = b) ∨ nid ∈ (edges.lookup id).getD ∅ := by
  rw [addEdge, lookup_insert_eq_ite]
  by_cases h : id = a
  · subst h
    simp
  · simp [h]

theorem mem_lookup_foldl (pairs : List (Transaction × Transaction))
    (edges : Map TxId (Finset TxId)) {id nid : TxId} :
    nid ∈ ((pairs.foldl (fun edges p =>
        if transactionsConflict (analyzeAccess c p.1) (analyzeAccess c p.2) then
          addEdge (addEdge edges (p.1.hash c) (p.2.hash c)) (p.2.hash c) (p.1.hash c)
        else edges) edges).lookup id).getD ∅ ↔
      nid ∈ (edges.lookup id).getD ∅ ∨ ∃ p ∈ pairs, conflicts c p.1 p.2 ∧
        ((id = p.1.hash c ∧ nid = p.2.hash c) ∨ (id = p.2.hash c ∧ nid = p.1.hash c)) := by
  induction pairs generalizing edges with
  | nil => simp
  | cons p pairs ih =>
    rw [List.foldl_cons, ih, List.exists_mem_cons_iff]
    by_cases hp : transactionsConflict (analyzeAccess c p.1) (analyzeAccess c p.2)
    · have hconf : conflicts c p.1 p.2 := hp
      rw [if_pos hp, mem_lookup_addEdge, mem_lookup_addEdge]
      simp only [hconf, true_and]
      have hshuffle : ∀ A B X R : Prop, (A ∨ B ∨ X) ∨ R ↔ X ∨ (B ∨ A) ∨ R := by
        intro A B X R
        tauto
      exact hshuffle _ _ _ _
    · have hconf : ¬ conflicts c p.1 p.2 := hp
      rw [if_neg hp]
      simp only [hconf, Bool.false_eq_true, false_and, false_or]

theorem mem_buildConflictGraph (hd : DistinctHashes c txs) {i : ℕ} {t : Transaction}
    (ht : txs[i]? = some t) {nid : TxId} :
    nid ∈ ((buildConflictGraph c txs).lookup (t.hash c)).getD ∅ ↔
      ∃ j u, adjacent c txs i j ∧ txs[j]? = some u ∧ nid = u.hash c := by
  unfold buildConflictGraph
  rw [mem_lookup_foldl]
  simp only [Finmap.lookup_empty, Option.getD_none, Finset.notMem_empty, false_or]
  constructor
  · intro h
    obtain ⟨p, hp, hconf, hid⟩ := h
    obtain ⟨k, l, hkl, hk, hl⟩ := pair_sublist_iff.mp (mem_orderedPairs.mp hp)
    rcases hid with ⟨hid, hnid⟩ | ⟨hid, hnid⟩
    · obtain rfl := position_unique hd ht hk hid
      exact ⟨l, p.2, (adjacent_iff hk hl).mpr ⟨by omega, hconf⟩, hl, hnid⟩
    · obtain rfl := position_unique hd ht hl hid
      exact ⟨k, p.1, (adjacent_iff hl hk).mpr ⟨by omega, conflicts_symm hconf⟩, hk, hnid⟩
  · intro h
    obtain ⟨j, u, hadj, hu, hnid⟩ := h
    obtain ⟨hne, hconf⟩ := (adjacent_iff ht hu).mp hadj
    rcases Nat.lt_or_gt_of_ne hne with hij | hji
    · exact ⟨(t, u), mem_orderedPairs.mpr (pair_sublist_iff.mpr ⟨i, j, hij, ht, hu⟩), hconf,
        Or.inl ⟨rfl, hnid⟩⟩
    · exact ⟨(u, t), mem_orderedPairs.mpr (pair_sublist_iff.mpr ⟨j, i, hji, hu, ht⟩),
        conflicts_symm hconf, Or.inr ⟨rfl, hnid⟩⟩

theorem lookup_indexMap (hd : DistinctHashes c txs) {i : ℕ} {t : Transaction}
    (ht : txs[i]? = some t) : (indexMap c txs).lookup (t.hash c) = some i := by
  have hmem : (t, i) ∈ txs.zipIdx := List.mem_zipIdx_iff_getElem?.mpr ht
  apply lookup_foldl_insert_of_mem (fun e : Transaction × ℕ => e.1.hash c) Prod.snd txs.zipIdx ∅ _
    hmem
  have hkeys : txs.zipIdx.map (fun e => e.1.hash c) = txs.map (Transaction.hash c) := by
    calc txs.zipIdx.map (fun e => e.1.hash c)
        = (txs.zipIdx.map Prod.fst).map (Transaction.hash c) := by
          rw [List.map_map]
          rfl
      _ = txs.map (Transaction.hash c) := by rw [List.zipIdx_map_fst]
  rw [hkeys]
  exact hd

theorem mem_forbiddenColors (hd : DistinctHashes c txs) {i : ℕ} {t : Transaction}
    (ht : txs[i]? = some t) (colors : List ℕ) :
    forbiddenColors (buildConflictGraph c txs) (indexMap c txs) colors (t.hash c) =
      (neighbours c txs i).image fun j => colors.getD j 0 := by
  ext x
  rw [forbiddenColors, Finset.mem_biUnion, Finset.mem_image]
  constructor
  · intro h
    obtain ⟨nid, hnid, hx⟩ := h
    obtain ⟨j, u, hadj, hu, rfl⟩ := (mem_buildConflictGraph hd ht).mp hnid
    rw [lookup_indexMap hd hu] at hx
    exact ⟨j, mem_neighbours.mpr hadj, (Finset.mem_singleton.mp hx).symm⟩
  · intro h
    obtain ⟨j, hj, rfl⟩ := h
    have hadj := mem_neighbours.mp hj
    obtain ⟨-, u, -, hu, -⟩ := exists_of_adjacent hadj
    refine ⟨u.hash c, (mem_buildConflictGraph hd ht).mpr ⟨j, u, hadj, hu, rfl⟩, ?_⟩
    rw [lookup_indexMap hd hu]
    exact Finset.mem_singleton_self _

theorem assignColors_eq (hd : DistinctHashes c txs) :
    assignColors c txs = coloursUpTo (neighbours c txs) txs.length txs.length := by
  unfold assignColors coloursUpTo
  apply List.foldl_ext
  intro colors i hi
  have hlt := List.mem_range.mp hi
  have ht : txs[i]? = some txs[i] := List.getElem?_eq_getElem hlt
  simp only [ht, mem_forbiddenColors hd ht]
  rfl

variable (c txs) in
def colorAt (i : ℕ) : ℕ := (assignColors c txs).getD i 0

theorem colorAt_eq (hd : DistinctHashes c txs) (i : ℕ) (hi : i < txs.length) :
    colorAt c txs i = mex (((Finset.range txs.length).filter fun j => adjacent c txs i j).image
      fun j => if j < i then colorAt c txs j else 0) := by
  unfold colorAt
  rw [assignColors_eq hd]
  exact (coloursUpTo_spec (neighbours c txs) txs.length txs.length le_rfl).2 i hi

theorem length_assignColors (hd : DistinctHashes c txs) :
    (assignColors c txs).length = txs.length := by
  rw [assignColors_eq hd, length_coloursUpTo]

end Graph

section Batches
variable (c : Crypto) (txs : List Transaction) (order : IterOrder ℕ (List Transaction))

def colorClass (x : ℕ) : List Transaction :=
  (((assignColors c txs).zip txs).filter (·.1 = x)).map Prod.snd

/-- Some batch with `t` stands before some batch with `u`. -/
def RunsBefore (batches : List (List Transaction)) (t u : Transaction) : Prop :=
  ∃ b b', [b, b'].Sublist batches ∧ t ∈ b ∧ u ∈ b'

/-- Of two transactions in conflict, the one listed first is in an earlier batch. -/
def RespectsBlockOrder : Prop :=
  ∀ t u, conflicts c t u → [t, u].Sublist txs →
    RunsBefore (scheduleParallelBatches c order txs) t u

/-- The conflict graph on the positions of the block is levelled. -/
def ConflictsLevelled : Prop := Levelled (fun i j => adjacent c txs i j) txs.length

variable {c txs order}

theorem mem_colorClass (hd : DistinctHashes c txs) {x : ℕ} {t : Transaction} :
    t ∈ colorClass c txs x ↔ ∃ i, txs[i]? = some t ∧ colorAt c txs i = x := by
  unfold colorClass colorAt
  rw [List.mem_map]
  constructor
  · intro h
    obtain ⟨e, he, rfl⟩ := h
    obtain ⟨hzip, hx⟩ := List.mem_filter.mp he
    obtain ⟨i, hi⟩ := List.mem_iff_getElem?.mp hzip
    obtain ⟨hcolor, ht⟩ := List.getElem?_zip_eq_some.mp hi
    refine ⟨i, ht, ?_⟩
    rw [List.getD_eq_getElem?_getD, hcolor]
    simpa using hx
  · intro h
    obtain ⟨i, ht, hx⟩ := h
    have hlt : i < (assignColors c txs).length := by
      rw [length_assignColors hd]
      exact (List.getElem?_eq_some_iff.mp ht).1
    have hcolor : (assignColors c txs)[i]? = some x := by
      rw [List.getD_eq_getElem _ _ hlt] at hx
      rw [List.getElem?_eq_getElem hlt, hx]
    refine ⟨(x, t), List.mem_filter.mpr ⟨?_, by simp⟩, rfl⟩
    exact List.mem_of_getElem? (List.getElem?_zip_eq_some.mpr ⟨hcolor, ht⟩)

theorem colorClass_sublist (hd : DistinctHashes c txs) (x : ℕ) :
    (colorClass c txs x).Sublist txs := by
  have hsnd : ((assignColors c txs).zip txs).map Prod.snd = txs :=
    List.map_snd_zip (by rw [length_assignColors hd])
  have hsub := (List.filter_sublist (p := fun e => decide (e.1 = x))
    (l := (assignColors c txs).zip txs)).map Prod.snd
  rw [hsnd] at hsub
  exact hsub

theorem lookup_batchesMap {x : ℕ} {b : List Transaction} :
    (batchesMap (assignColors c txs) txs).lookup x = some b ↔ b ≠ [] ∧ b = colorClass c txs x :=
  lookup_collect _ x b

theorem mem_scheduleParallelBatches {b : List Transaction} :
    b ∈ scheduleParallelBatches c order txs ↔ ∃ x, b ≠ [] ∧ b = colorClass c txs x := by
  unfold scheduleParallelBatches
  rw [List.mem_insertionSort, List.mem_map]
  constructor
  · intro h
    obtain ⟨e, he, rfl⟩ := h
    exact ⟨e.1, lookup_batchesMap.mp (((order.enumerates _).2 e).mp he)⟩
  · intro h
    obtain ⟨x, hb⟩ := h
    exact ⟨(x, b), ((order.enumerates _).2 (x, b)).mpr (lookup_batchesMap.mpr hb), rfl⟩

variable (order) in
theorem mem_batch_iff (hd : DistinctHashes c txs) {i : ℕ} {t : Transaction}
    (ht : txs[i]? = some t) {b : List Transaction} :
    (b ∈ scheduleParallelBatches c order txs ∧ t ∈ b) ↔ b = colorClass c txs (colorAt c txs i) := by
  constructor
  · intro h
    obtain ⟨x, -, rfl⟩ := mem_scheduleParallelBatches.mp h.1
    obtain ⟨j, hj, rfl⟩ := (mem_colorClass hd).mp h.2
    rw [position_unique hd hj ht rfl]
  · intro h
    have hmem : t ∈ b := by
      rw [h]
      exact (mem_colorClass hd).mpr ⟨i, ht, rfl⟩
    exact ⟨mem_scheduleParallelBatches.mpr ⟨_, List.ne_nil_of_mem hmem, h⟩, hmem⟩

theorem sorted_scheduleParallelBatches : (scheduleParallelBatches c order txs).Pairwise
    fun a b => earliestIndex c (indexMap c txs) a ≤ earliestIndex c (indexMap c txs) b := by
  have : Std.Total fun a b : List Transaction =>
      earliestIndex c (indexMap c txs) a ≤ earliestIndex c (indexMap c txs) b :=
    ⟨fun a b => Nat.le_total _ _⟩
  have : IsTrans (List Transaction) fun a b =>
      earliestIndex c (indexMap c txs) a ≤ earliestIndex c (indexMap c txs) b :=
    ⟨fun a b d => Nat.le_trans⟩
  exact List.pairwise_insertionSort _ _

theorem earliestIndex_colorClass (hd : DistinctHashes c txs) {i : ℕ} (hi : i < txs.length) :
    ∃ k < txs.length, colorAt c txs k = colorAt c txs i ∧
      earliestIndex c (indexMap c txs) (colorClass c txs (colorAt c txs i)) = k ∧
      ∀ j < txs.length, colorAt c txs j = colorAt c txs i → k ≤ j := by
  let positions := (colorClass c txs (colorAt c txs i)).map fun tx =>
    ((indexMap c txs).lookup (tx.hash c)).getD u64Max
  have hmem : ∀ k, k ∈ positions ↔ k < txs.length ∧ colorAt c txs k = colorAt c txs i := by
    intro k
    rw [List.mem_map]
    constructor
    · intro h
      obtain ⟨t, ht, rfl⟩ := h
      obtain ⟨j, hj, hcolor⟩ := (mem_colorClass hd).mp ht
      rw [lookup_indexMap hd hj]
      exact ⟨(List.getElem?_eq_some_iff.mp hj).1, hcolor⟩
    · intro h
      have ht : txs[k]? = some txs[k] := List.getElem?_eq_getElem h.1
      exact ⟨txs[k], (mem_colorClass hd).mpr ⟨k, ht, h.2⟩, by rw [lookup_indexMap hd ht]; rfl⟩
  have hmin : ∃ k, positions.min? = some k := by
    apply Option.isSome_iff_exists.mp
    rw [List.isSome_min?_iff]
    exact List.ne_nil_of_mem ((hmem i).mpr ⟨hi, rfl⟩)
  obtain ⟨k, hk⟩ := hmin
  obtain ⟨hkmem, hle⟩ := List.min?_eq_some_iff.mp hk
  obtain ⟨hkn, hcolor⟩ := (hmem k).mp hkmem
  refine ⟨k, hkn, hcolor, ?_, fun j hj hc => hle j ((hmem j).mpr ⟨hj, hc⟩)⟩
  change positions.min?.getD u64Max = k
  rw [hk]
  rfl

variable (order) in
theorem runsBefore_iff_before (hd : DistinctHashes c txs) {i j : ℕ} {t u : Transaction}
    (ht : txs[i]? = some t) (hu : txs[j]? = some u) (hne : colorAt c txs i ≠ colorAt c txs j) :
    RunsBefore (scheduleParallelBatches c order txs) t u ↔
      Before txs.length (colorAt c txs) (colorAt c txs i) (colorAt c txs j) := by
  obtain ⟨k, hk, hki, hkey, hleast⟩ :=
    earliestIndex_colorClass hd (List.getElem?_eq_some_iff.mp ht).1
  obtain ⟨k', hk', hkj, hkey', hleast'⟩ :=
    earliestIndex_colorClass hd (List.getElem?_eq_some_iff.mp hu).1
  constructor
  · intro h
    obtain ⟨b, b', hsub, htb, hub⟩ := h
    obtain rfl := (mem_batch_iff order hd ht).mp ⟨hsub.subset (by simp), htb⟩
    obtain rfl := (mem_batch_iff order hd hu).mp ⟨hsub.subset (by simp), hub⟩
    have hle := List.Pairwise.sublist hsub sorted_scheduleParallelBatches
    rw [List.pairwise_pair, hkey, hkey'] at hle
    have hkk : k ≠ k' := by
      intro he
      rw [he, hkj] at hki
      exact hne hki.symm
    refine ⟨k, hk, hki, ?_⟩
    intro m hm hmj
    have := hleast' m hm hmj
    omega
  · intro h
    obtain ⟨m, hm, hmi, hall⟩ := h
    have hlt := hall k' hk' hkj
    have hle := hleast m hm hmi
    have hb := (mem_batch_iff order hd ht).mpr rfl
    have hb' := (mem_batch_iff order hd hu).mpr rfl
    exact ⟨_, _, pair_sublist_of_lt sorted_scheduleParallelBatches hb.1 hb'.1 (by omega),
      hb.2, hb'.2⟩

variable (order) in
/-- The batches respect the order of the block exactly when its conflicts are levelled. -/
theorem respectsBlockOrder_iff (hd : DistinctHashes c txs) :
    RespectsBlockOrder c txs order ↔ ConflictsLevelled c txs := by
  have hcolor := colorAt_eq hd
  have hne : ∀ i j, i < j → j < txs.length → adjacent c txs i j →
      colorAt c txs i ≠ colorAt c txs j := fun i j hij hj hadj =>
    color_ne adjacent_symm hcolor hij hj hadj
  unfold ConflictsLevelled
  rw [← ordered_iff_levelled adjacent_symm not_adjacent_self hcolor]
  constructor
  · intro h i j hij hj hadj
    obtain ⟨t, u, ht, hu, -, hconf⟩ := exists_of_adjacent hadj
    rw [← runsBefore_iff_before order hd ht hu (hne i j hij hj hadj)]
    exact h t u hconf (pair_sublist_iff.mpr ⟨i, j, hij, ht, hu⟩)
  · intro h t u hconf hsub
    obtain ⟨i, j, hij, ht, hu⟩ := pair_sublist_iff.mp hsub
    have hj := (List.getElem?_eq_some_iff.mp hu).1
    have hadj := (adjacent_iff ht hu).mpr ⟨by omega, hconf⟩
    rw [runsBefore_iff_before order hd ht hu (hne i j hij hj hadj)]
    exact h i j hij hj hadj

theorem batch_pairwise (hd : DistinctHashes c txs) {b : List Transaction}
    (hb : b ∈ scheduleParallelBatches c order txs) : b.Pairwise fun t u => ¬ conflicts c t u := by
  obtain ⟨x, -, rfl⟩ := mem_scheduleParallelBatches.mp hb
  rw [List.pairwise_iff_forall_sublist]
  intro t u hsub hconf
  obtain ⟨i, j, hij, ht, hu⟩ := pair_sublist_iff.mp (hsub.trans (colorClass_sublist hd x))
  have hclass : ∀ {k v}, txs[k]? = some v → v ∈ colorClass c txs x → colorAt c txs k = x := by
    intro k v hk hv
    obtain ⟨k', hk', rfl⟩ := (mem_colorClass hd).mp hv
    rw [position_unique hd hk hk' rfl]
  have hadj := (adjacent_iff ht hu).mpr ⟨by omega, hconf⟩
  apply color_ne adjacent_symm (colorAt_eq hd) hij (List.getElem?_eq_some_iff.mp hu).1 hadj
  rw [hclass ht (hsub.subset (by simp)), hclass hu (hsub.subset (by simp))]

theorem flatten_scheduleParallelBatches (hd : DistinctHashes c txs) :
    (scheduleParallelBatches c order txs).flatten.Perm txs := by
  have htxs : txs.Nodup := List.Nodup.of_map _ hd
  have hnodup : (scheduleParallelBatches c order txs).flatten.Nodup := by
    rw [List.nodup_flatten]
    constructor
    · intro b hb
      obtain ⟨x, -, rfl⟩ := mem_scheduleParallelBatches.mp hb
      exact (colorClass_sublist hd x).nodup htxs
    · unfold scheduleParallelBatches
      rw [(List.perm_insertionSort _ _).pairwise_iff (fun h => h.symm), List.pairwise_map]
      have hkeys := (order.enumerates (batchesMap (assignColors c txs) txs)).1
      unfold List.Nodup at hkeys
      rw [List.pairwise_map] at hkeys
      refine hkeys.imp_of_mem ?_
      intro e e' he he' hne t ht ht'
      have hclass : ∀ {e}, e ∈ order.iter (batchesMap (assignColors c txs) txs) →
          e.2 = colorClass c txs e.1 := fun {e} he =>
        (lookup_batchesMap.mp (((order.enumerates _).2 e).mp he)).2
      rw [hclass he] at ht
      rw [hclass he'] at ht'
      obtain ⟨i, hi, hcolor⟩ := (mem_colorClass hd).mp ht
      obtain ⟨j, hj, hcolor'⟩ := (mem_colorClass hd).mp ht'
      rw [position_unique hd hi hj rfl, hcolor'] at hcolor
      exact hne hcolor.symm
  rw [List.perm_ext_iff_of_nodup hnodup htxs]
  intro t
  rw [List.mem_flatten]
  constructor
  · intro h
    obtain ⟨b, hb, htb⟩ := h
    obtain ⟨x, -, rfl⟩ := mem_scheduleParallelBatches.mp hb
    exact (colorClass_sublist hd x).subset htb
  · intro h
    obtain ⟨i, hi⟩ := List.mem_iff_getElem?.mp h
    exact ⟨_, (mem_batch_iff order hd hi).mpr rfl⟩

end Batches

end ParallelExecutor

end CytahSpeed
