import CytahSpeed.Block

/-!
# What a hash covers

A transaction's preimage can be cut in one way only: the kind stands behind the sender, and the
only part of variable length, the method name, is surrounded by parts of fixed length. Equal
hashes therefore mean equal transactions up to the signature, unless SHA-256 collides.

A block's preimage begins with two lists of hashes and no mark between them, and shows a missing
selected parent as the zero hash. `Confused` names the pairs of different blocks that share a
preimage because of that.
-/

namespace CytahSpeed
open ByteString

section Utf8

theorem toList_loop (bytes : ByteArray) (i : ℕ) (r : List UInt8) :
    ByteArray.toList.loop bytes i r = r.reverse ++ bytes.data.toList.drop i := by
  fun_induction ByteArray.toList.loop bytes i r with
  | case1 i r hlt ih =>
    have hlen : i < bytes.data.toList.length := by simpa using hlt
    have hget : bytes.get! i = bytes.data.toList[i] := by
      rw [Array.getElem_toList]
      exact getElem!_pos bytes.data i hlt
    rw [ih, List.drop_eq_getElem_cons hlen, hget]
    simp
  | case2 i r hlt =>
    have hlen : bytes.data.toList.length ≤ i := by simpa using Nat.le_of_not_lt hlt
    rw [List.drop_eq_nil_of_le hlen, List.append_nil]

theorem toUTF8_toList_injective : Function.Injective fun s : String => s.toUTF8.toList := by
  intro s t h
  have hdata : s.toUTF8.data.toList = t.toUTF8.data.toList := by
    simpa [ByteArray.toList, toList_loop] using h
  have harray := ByteArray.ext (Array.toList_inj.mp hdata)
  rw [String.toUTF8_eq_toByteArray, String.toUTF8_eq_toByteArray] at harray
  exact String.toByteArray_inj.mp harray

end Utf8

/-- Two different byte strings with one digest. -/
def Crypto.Collide (c : Crypto) (x y : List UInt8) : Prop := x ≠ y ∧ c.sha256 x = c.sha256 y

namespace Transaction

variable {c : Crypto} {tx tx' : Transaction}

theorem preimage_eq_iff : tx.preimage c = tx'.preimage c ↔
    tx.fromAddr = tx'.fromAddr ∧ payloadBytes c tx.payload = payloadBytes c tx'.payload ∧
      tx.nonce = tx'.nonce ∧ tx.gasLimit = tx'.gasLimit ∧ tx.gasPrice = tx'.gasPrice := by
  constructor
  · intro h
    unfold preimage at h
    obtain ⟨h, hprice⟩ := List.append_inj' h (by simp)
    obtain ⟨h, hlimit⟩ := List.append_inj' h (by simp)
    obtain ⟨h, hnonce⟩ := List.append_inj' h (by simp)
    obtain ⟨hfrom, hpayload⟩ := List.append_inj h (by simp)
    exact ⟨List.Vector.toList_injective hfrom, hpayload, le64_injective hnonce,
      le64_injective hlimit, le64_injective hprice⟩
  · rintro ⟨hfrom, hpayload, hnonce, hlimit, hprice⟩
    rw [preimage, preimage, hfrom, hpayload, hnonce, hlimit, hprice]

/-- The address of a call is cut off in front and the digest behind; the name is what remains. -/
theorem payloadBytes_contractCall {address address' : Address} {method method' : String}
    {args args' : List UInt8} (h : payloadBytes c (.contractCall address method args) =
      payloadBytes c (.contractCall address' method' args')) :
    address = address' ∧ method = method' ∧ c.sha256 args = c.sha256 args' := by
  simp only [payloadBytes, List.cons_append, List.cons.injEq, true_and] at h
  obtain ⟨h, hargs⟩ := List.append_inj' h (by simp)
  obtain ⟨haddress, hmethod⟩ := List.append_inj h (by simp)
  exact ⟨List.Vector.toList_injective haddress, toUTF8_toList_injective hmethod,
    List.Vector.toList_injective hargs⟩

theorem contractCall_of_payloadBytes {payload : TxPayload} {address : Address} {method : String}
    {args : List UInt8}
    (h : payloadBytes c payload = payloadBytes c (.contractCall address method args)) :
    ∃ args', payload = .contractCall address method args' := by
  cases payload with
  | transfer toAddr amount => simp [payloadBytes] at h
  | contractDeploy wasmCode initArgs => simp [payloadBytes] at h
  | contractCall address' method' args' =>
    obtain ⟨rfl, rfl, -⟩ := payloadBytes_contractCall h
    exact ⟨args', rfl⟩

variable (c) in
/-- The strings that enter the payload's bytes through a digest, each beside the one that takes
its place in the other payload. -/
def digestedPairs : TxPayload → TxPayload → List (List UInt8 × List UInt8)
  | .contractDeploy wasmCode initArgs, .contractDeploy wasmCode' initArgs' =>
    [(wasmCode, wasmCode'), (initArgs, initArgs')]
  | .contractCall _ _ args, .contractCall _ _ args' => [(args, args')]
  | _, _ => []

theorem payload_eq_of_payloadBytes_eq {p p' : TxPayload}
    (hcol : ∀ e ∈ digestedPairs p p', ¬ c.Collide e.1 e.2)
    (h : payloadBytes c p = payloadBytes c p') : p = p' := by
  have hinj : ∀ {x y}, (x, y) ∈ digestedPairs p p' →
      (c.sha256 x).toList = (c.sha256 y).toList → x = y := by
    intro x y hmem hdigest
    by_contra hne
    exact hcol (x, y) hmem ⟨hne, List.Vector.toList_injective hdigest⟩
  cases p with
  | transfer toAddr amount =>
    cases p' with
    | transfer toAddr' amount' =>
      simp only [payloadBytes, List.cons_append, List.cons.injEq, true_and] at h
      obtain ⟨hto, hamount⟩ := List.append_inj h (by simp)
      rw [List.Vector.toList_injective hto, le64_injective hamount]
    | contractDeploy wasmCode' initArgs' => simp [payloadBytes] at h
    | contractCall address' method' args' => simp [payloadBytes] at h
  | contractDeploy wasmCode initArgs =>
    cases p' with
    | transfer toAddr' amount' => simp [payloadBytes] at h
    | contractDeploy wasmCode' initArgs' =>
      simp only [payloadBytes, List.cons_append, List.cons.injEq, true_and] at h
      obtain ⟨hcode, hargs⟩ := List.append_inj h (by simp)
      rw [hinj (by simp [digestedPairs]) hcode, hinj (by simp [digestedPairs]) hargs]
    | contractCall address' method' args' => simp [payloadBytes] at h
  | contractCall address method args =>
    cases p' with
    | transfer toAddr' amount' => simp [payloadBytes] at h
    | contractDeploy wasmCode' initArgs' => simp [payloadBytes] at h
    | contractCall address' method' args' =>
      obtain ⟨haddress, hmethod, hargs⟩ := payloadBytes_contractCall h
      rw [haddress, hmethod, hinj (by simp [digestedPairs]) (congrArg List.Vector.toList hargs)]

/-- Two transactions of one hash differ at most in the signature, unless SHA-256 collides on
their preimages or on two strings they digest. -/
theorem hash_binds (c : Crypto) (tx tx' : Transaction) (h : tx.hash c = tx'.hash c) :
    (∃ e ∈ (tx.preimage c, tx'.preimage c) :: digestedPairs tx.payload tx'.payload,
      c.Collide e.1 e.2) ∨
    { tx with signature := tx'.signature } = tx' := by
  by_cases hcol : ∃ e ∈ (tx.preimage c, tx'.preimage c) :: digestedPairs tx.payload tx'.payload,
      c.Collide e.1 e.2
  · exact Or.inl hcol
  · right
    simp only [not_exists, not_and, List.forall_mem_cons] at hcol
    obtain ⟨hpre, hpayload⟩ := hcol
    have heq : tx.preimage c = tx'.preimage c := by
      by_contra hne
      exact hpre ⟨hne, h⟩
    obtain ⟨hfrom, hbytes, hnonce, hlimit, hprice⟩ := preimage_eq_iff.mp heq
    have hp := payload_eq_of_payloadBytes_eq hpayload hbytes
    cases tx
    cases tx'
    simp_all

def sampleCall : Transaction :=
  ⟨Bytes.fill 20 1, .contractCall (Bytes.fill 20 2) "run" [7], 3, 100000, 1, .empty⟩

def sampleResigned : Transaction := { sampleCall with signature := ⟨.schnorr, [1]⟩ }

theorem hash_binds_sample :
    { sampleCall with signature := sampleResigned.signature } = sampleResigned := by
  refine (hash_binds .hashOnly sampleCall sampleResigned rfl).resolve_left ?_
  rintro ⟨e, he, hne, -⟩
  have hpairs : e = (sampleCall.preimage .hashOnly, sampleCall.preimage .hashOnly) ∨
      e = ([7], [7]) := by
    simpa [sampleResigned, sampleCall, digestedPairs, preimage] using he
  rcases hpairs with rfl | rfl <;> exact hne rfl

end Transaction

namespace Block

variable {c : Crypto} {b b' : Block}

/-- Everything that identifies a block: all but its stored hash, reward and height. -/
structure SameIdentity (c : Crypto) (b b' : Block) : Prop where
  content : SameContent c b b'
  blueScore : b.header.blueScore = b'.header.blueScore
  chainHeight : b.header.chainHeight = b'.header.chainHeight
  topoIndex : b.header.topoIndex = b'.header.topoIndex
  selectedParent : b.header.selectedParent = b'.header.selectedParent

/-- The first block's last parents are the second one's first transactions. -/
def Regrouped (c : Crypto) (b b' : Block) : Prop :=
  ∃ moved ≠ [], b.header.parentHashes = b'.header.parentHashes ++ moved ∧
    b'.transactions.map (·.hash c) = moved ++ b.transactions.map (·.hash c)

/-- The first block selects no parent and the second one the zero hash. -/
def ZeroSelected (b b' : Block) : Prop :=
  b.header.selectedParent = none ∧ b'.header.selectedParent = some (Bytes.zero 32)

structure Confused (c : Crypto) (b b' : Block) : Prop where
  timestamp : b.header.timestamp = b'.header.timestamp
  nonce : b.header.nonce = b'.header.nonce
  difficulty : b.header.difficulty = b'.header.difficulty
  baseFee : b.header.baseFee = b'.header.baseFee
  stateRoot : b.header.stateRoot = b'.header.stateRoot
  version : b.header.version = b'.header.version
  blueScore : b.header.blueScore = b'.header.blueScore
  chainHeight : b.header.chainHeight = b'.header.chainHeight
  topoIndex : b.header.topoIndex = b'.header.topoIndex
  producer : b.producer = b'.producer
  links : (b.header.parentHashes = b'.header.parentHashes ∧
      b.transactions.map (·.hash c) = b'.transactions.map (·.hash c)) ∨
    Regrouped c b b' ∨ Regrouped c b' b
  selectedParent : b.header.selectedParent = b'.header.selectedParent ∨
    ZeroSelected b b' ∨ ZeroSelected b' b
  different : Regrouped c b b' ∨ Regrouped c b' b ∨ ZeroSelected b b' ∨ ZeroSelected b' b

theorem hashedLinks_eq_iff : b.hashedLinks c = b'.hashedLinks c ↔
    (b.header.parentHashes = b'.header.parentHashes ∧
      b.transactions.map (·.hash c) = b'.transactions.map (·.hash c)) ∨
    Regrouped c b b' ∨ Regrouped c b' b := by
  rw [hashedLinks, hashedLinks]
  constructor
  · intro h
    rcases List.append_eq_append_iff.mp h with ⟨moved, hpar, htxs⟩ | ⟨moved, hpar, htxs⟩
    · by_cases hnil : moved = []
      · subst hnil
        exact Or.inl ⟨by simpa using hpar.symm, by simpa using htxs⟩
      · exact Or.inr (Or.inr ⟨moved, hnil, hpar, htxs⟩)
    · by_cases hnil : moved = []
      · subst hnil
        exact Or.inl ⟨by simpa using hpar, by simpa using htxs.symm⟩
      · exact Or.inr (Or.inl ⟨moved, hnil, hpar, htxs⟩)
  · rintro (⟨hpar, htxs⟩ | ⟨moved, -, hpar, htxs⟩ | ⟨moved, -, hpar, htxs⟩)
    · rw [hpar, htxs]
    · rw [hpar, htxs, List.append_assoc]
    · rw [hpar, htxs, List.append_assoc]

theorem getD_selectedParent_eq_iff :
    b.header.selectedParent.getD (Bytes.zero 32) =
        b'.header.selectedParent.getD (Bytes.zero 32) ↔
      b.header.selectedParent = b'.header.selectedParent ∨
        ZeroSelected b b' ∨ ZeroSelected b' b := by
  unfold ZeroSelected
  cases b.header.selectedParent with
  | none =>
    cases b'.header.selectedParent with
    | none => simp
    | some p' => simp [eq_comm]
  | some p =>
    cases b'.header.selectedParent with
    | none => simp
    | some p' => simp

theorem Regrouped.ne (h : Regrouped c b b') :
    b.header.parentHashes ≠ b'.header.parentHashes := by
  obtain ⟨moved, hne, hpar, -⟩ := h
  intro he
  rw [he] at hpar
  exact hne (List.self_eq_append_right.mp hpar)

theorem ZeroSelected.ne (h : ZeroSelected b b') :
    b.header.selectedParent ≠ b'.header.selectedParent := by
  rw [h.1, h.2]
  exact (Option.some_ne_none _).symm

/-- Equal preimages mean equal blocks exactly for the pairs that are not confused. -/
theorem preimage_binds_iff (c : Crypto) (b b' : Block) :
    (b.preimage c = b'.preimage c → SameIdentity c b b') ↔ ¬ Confused c b b' := by
  have hpre : b.preimage c = b'.preimage c ↔ _ := Block.preimage_eq_iff
  rw [hashedLinks_eq_iff, hashedFields_eq_iff] at hpre
  constructor
  · intro hbinds h
    have hsame := hbinds (hpre.mpr ⟨h.links, ⟨h.timestamp, h.nonce, h.difficulty, h.baseFee,
      h.stateRoot, h.version, h.producer⟩, h.blueScore, h.chainHeight, h.topoIndex,
      getD_selectedParent_eq_iff.mpr h.selectedParent⟩)
    rcases h.different with hd | hd | hd | hd
    · exact hd.ne hsame.content.parentHashes
    · exact hd.ne hsame.content.parentHashes.symm
    · exact hd.ne hsame.selectedParent
    · exact hd.ne hsame.selectedParent.symm
  · intro hconf h
    obtain ⟨hlinks, ⟨ht, hn, hd, hf, hr, hv, hp⟩, hmeta⟩ := hpre.mp h
    have hselected := getD_selectedParent_eq_iff.mp hmeta.selectedParent
    have hconfused := fun hdiff => hconf ⟨ht, hn, hd, hf, hr, hv, hmeta.blueScore,
      hmeta.chainHeight, hmeta.topoIndex, hp, hlinks, hselected, hdiff⟩
    simp only [imp_false, not_or] at hconfused
    obtain ⟨hnr, hnr', hnz, hnz'⟩ := hconfused
    have hsplit := hlinks.resolve_right (not_or.mpr ⟨hnr, hnr'⟩)
    exact ⟨⟨hsplit.1, hsplit.2, ht, hn, hd, hf, hr, hv, hp⟩, hmeta.blueScore, hmeta.chainHeight,
      hmeta.topoIndex, hselected.resolve_right (not_or.mpr ⟨hnz, hnz'⟩)⟩

theorem preimage_binds_of_length_eq (hlen : b.header.parentHashes.length =
      b'.header.parentHashes.length) (hzero : ¬ ZeroSelected b b') (hzero' : ¬ ZeroSelected b' b)
    (h : b.preimage c = b'.preimage c) : SameIdentity c b b' := by
  have hmoved : ∀ {x y : Block}, x.header.parentHashes.length = y.header.parentHashes.length →
      ¬ Regrouped c x y := by
    rintro x y hxy ⟨moved, hne, hpar, -⟩
    rw [hpar, List.length_append] at hxy
    exact hne (List.length_eq_zero_iff.mp (by omega))
  refine (preimage_binds_iff c b b').mpr (fun hconf => ?_) h
  rcases hconf.different with hd | hd | hd | hd
  · exact hmoved hlen hd
  · exact hmoved hlen.symm hd
  · exact hzero hd
  · exact hzero' hd

section Sample

def sampleHolding : Block :=
  Block.new .hashOnly [] 1000 [Transaction.sampleCall] 0 0 0 (Bytes.zero 20) (Bytes.zero 32)

/-- A block without transactions that names the transaction's hash as its parent. -/
def sampleNaming : Block :=
  Block.new .hashOnly [Transaction.sampleCall.hash .hashOnly] 1000 [] 0 0 0 (Bytes.zero 20)
    (Bytes.zero 32)

/-- The transaction of one block is the parent of the other. -/
theorem sampleHolding_preimage :
    sampleHolding.preimage .hashOnly = sampleNaming.preimage .hashOnly ∧
      ¬ SameIdentity .hashOnly sampleHolding sampleNaming := by
  refine ⟨Block.preimage_eq_iff.mpr ⟨rfl, rfl⟩, fun h => ?_⟩
  have hparents := h.content.parentHashes
  cases hparents

end Sample

end Block

end CytahSpeed
