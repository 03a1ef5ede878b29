import CytahSpeed.HostFunctions

/-!
# Pointers of host calls

A host function gets its pointers and lengths as `i32` and casts them to `usize`, so that a
negative one becomes a number just below `2 ^ 64`. An end offset is a sum of two such numbers: it
may overflow, which panics in a checked build and wraps around in the other, behind the check
against the length of the memory. Slices that are not ordered or not inside the memory panic.
-/

namespace CytahSpeed
open ByteString MachineInt

/-- How an addition that overflows is compiled: `debug` panics, `release` wraps around. -/
inductive Build
  | debug
  | release
  deriving DecidableEq

/-- A trap ends the contract with an error, a panic ends the thread of the node. -/
inductive HostFault
  | trap
  | panic
  deriving DecidableEq

/-- The exported memory. A slice has at most `isize::MAX` bytes. -/
structure LinearMemory where
  data : List UInt8
  length_lt : data.length < 2 ^ 63

namespace HostMemory

/-- `as usize` on an `i32`. -/
def usize (x : Int32) : ℕ := (x.toInt % 2 ^ 64).toNat

def add (build : Build) (x y : ℕ) : Except HostFault ℕ :=
  if x + y < 2 ^ 64 then .ok (x + y)
  else match build with
    | .debug => .error .panic
    | .release => .ok ((x + y) % 2 ^ 64)

/-- `&data[start..stop]`. -/
def slice (m : LinearMemory) (start stop : ℕ) : Except HostFault (List UInt8) :=
  if start ≤ stop ∧ stop ≤ m.data.length then .ok ((m.data.drop start).take (stop - start))
  else .error .panic

/-- `data[start..stop].copy_from_slice(bytes)`. -/
def copyFromSlice (m : LinearMemory) (start stop : ℕ) (bytes : List UInt8) :
    Except HostFault LinearMemory :=
  if h : start ≤ stop ∧ stop ≤ m.data.length ∧ bytes.length = stop - start then
    .ok ⟨m.data.take start ++ bytes ++ m.data.drop stop, by
      have := m.length_lt
      simp only [List.length_append, List.length_take, List.length_drop]
      omega⟩
  else .error .panic

section Calls
variable {σ : Type} [Storage σ] (build : Build) (st : RuntimeState σ)
  (memory : Option LinearMemory)

def charge (build : Build) (m : GasMeter) (amount : UInt64) : Except HostFault GasMeter := do
  let sum ← add build m.used.toNat amount.toNat
  if m.limit.toNat < sum then .error .trap else .ok ⟨m.limit, UInt64.ofNat sum⟩

/-- The head of the host functions: the gas, and the memory that the contract exports. -/
def enter (amount : UInt64) : Except HostFault (RuntimeState σ × LinearMemory) := do
  let gasMeter ← charge build st.gasMeter amount
  match memory with
  | none => .error .trap
  | some m => .ok ({ st with gasMeter }, m)

def storageRead (keyPtr keyLen outPtr : Int32) :
    Except HostFault (Int32 × RuntimeState σ × LinearMemory) := do
  let entered ← enter build st memory 10
  let stop ← add build (usize keyPtr) (usize keyLen)
  if entered.2.data.length < stop then .error .trap
  else do
    let key ← slice entered.2 (usize keyPtr) stop
    let bytes := (Storage.read entered.1.storage key).getD []
    let outStop ← add build (usize outPtr) bytes.length
    if entered.2.data.length < outStop then .error .trap
    else do
      let m ← copyFromSlice entered.2 (usize outPtr) outStop bytes
      .ok (Int32.ofNat bytes.length, entered.1, m)

def storageWrite (keyPtr keyLen valPtr valLen : Int32) :
    Except HostFault (Int32 × RuntimeState σ × LinearMemory) := do
  let entered ← enter build st memory 20
  let kstop ← add build (usize keyPtr) (usize keyLen)
  let vstop ← add build (usize valPtr) (usize valLen)
  if entered.2.data.length < kstop ∨ entered.2.data.length < vstop then .error .trap
  else do
    let key ← slice entered.2 (usize keyPtr) kstop
    let val ← slice entered.2 (usize valPtr) vstop
    .ok (0, { entered.1 with storage := Storage.write entered.1.storage key val }, entered.2)

def getCaller (ptr : Int32) : Except HostFault (Int32 × RuntimeState σ × LinearMemory) := do
  let entered ← enter build st memory 1
  let stop ← add build (usize ptr) 20
  if entered.2.data.length < stop then .error .trap
  else do
    let m ← copyFromSlice entered.2 (usize ptr) stop entered.1.caller.toList
    .ok (0, entered.1, m)

end Calls

def NoPanic {α : Type} (r : Except HostFault α) : Prop := r ≠ .error .panic

/-- Both are non-negative, or one of them is and their sum is negative. -/
def EndFits (ptr len : Int32) : Prop :=
  (0 ≤ ptr.toInt ∧ 0 ≤ len.toInt) ∨
    ((0 ≤ ptr.toInt ∨ 0 ≤ len.toInt) ∧ ptr.toInt + len.toInt < 0)

/-- The pointer is non-negative, or so far below zero that the bytes behind it end below zero. -/
def OutFits (ptr : Int32) (n : ℕ) : Prop := 0 ≤ ptr.toInt ∨ ptr.toInt + n < 0

section Reached
variable {σ : Type} [Storage σ] (st : RuntimeState σ) (memory : Option LinearMemory)

/-- The sum that the gas meter compares with its limit. -/
def MeterFits (amount : UInt64) : Prop := st.gasMeter.used.toNat + amount.toNat < 2 ^ 64

def Reaches (amount : UInt64) (m : LinearMemory) : Prop :=
  st.gasMeter.used.toNat + amount.toNat ≤ st.gasMeter.limit.toNat ∧ memory = some m

/-- The slices of a key that lies in the memory. -/
def KeyAt (m : LinearMemory) (keyPtr keyLen : Int32) (key : List UInt8) : Prop :=
  0 ≤ keyPtr.toInt ∧ 0 ≤ keyLen.toInt ∧ keyPtr.toInt + keyLen.toInt ≤ m.data.length ∧
    key = (m.data.drop keyPtr.toInt.toNat).take keyLen.toInt.toNat

def ReadFits (keyPtr keyLen outPtr : Int32) : Prop :=
  MeterFits st 10 ∧ ∀ m, Reaches st memory 10 m → EndFits keyPtr keyLen ∧
    ∀ key, KeyAt m keyPtr keyLen key →
      OutFits outPtr ((Storage.read st.storage key).getD []).length

def WriteFits (keyPtr keyLen valPtr valLen : Int32) : Prop :=
  MeterFits st 20 ∧ ∀ m, Reaches st memory 20 m → EndFits keyPtr keyLen ∧ EndFits valPtr valLen

def CallerFits (ptr : Int32) : Prop :=
  MeterFits st 1 ∧ ∀ m, Reaches st memory 1 m → OutFits ptr 20

end Reached

section Ranges

theorem usize_eq (x : Int32) :
    (usize x : ℤ) = if 0 ≤ x.toInt then x.toInt else x.toInt + 2 ^ 64 := by
  have hlt := x.toInt_lt
  have hle := x.le_toInt
  unfold usize
  split_ifs <;> omega

theorem endFits_iff (ptr len : Int32) : EndFits ptr len ↔ usize ptr + usize len < 2 ^ 64 := by
  have hptr := usize_eq ptr
  have hlen := usize_eq len
  have hlt := ptr.toInt_lt
  have hle := ptr.le_toInt
  have hlt' := len.toInt_lt
  have hle' := len.le_toInt
  unfold EndFits
  split_ifs at hptr hlen <;> omega

theorem outFits_iff (ptr : Int32) {n : ℕ} (hn : n < 2 ^ 63) :
    OutFits ptr n ↔ usize ptr + n < 2 ^ 64 := by
  have hptr := usize_eq ptr
  have hlt := ptr.toInt_lt
  have hle := ptr.le_toInt
  unfold OutFits
  split_ifs at hptr <;> omega

theorem keyAt_iff (m : LinearMemory) (keyPtr keyLen : Int32) (key : List UInt8) :
    KeyAt m keyPtr keyLen key ↔ usize keyPtr + usize keyLen ≤ m.data.length ∧
      key = (m.data.drop (usize keyPtr)).take (usize keyLen) := by
  have hptr := usize_eq keyPtr
  have hlen := usize_eq keyLen
  have hmem := m.length_lt
  have hle := keyPtr.le_toInt
  have hle' := keyLen.le_toInt
  unfold KeyAt
  by_cases hp : 0 ≤ keyPtr.toInt
  · by_cases hl : 0 ≤ keyLen.toInt
    · rw [if_pos hp] at hptr
      rw [if_pos hl] at hlen
      rw [← hptr, ← hlen, Int.toNat_natCast, Int.toNat_natCast]
      constructor
      · rintro ⟨-, -, hin, hkey⟩
        exact ⟨by omega, hkey⟩
      · rintro ⟨hin, hkey⟩
        exact ⟨by omega, by omega, by omega, hkey⟩
    · rw [if_neg hl] at hlen
      exact iff_of_false (fun h => hl h.2.1) (fun h => by omega)
  · rw [if_neg hp] at hptr
    exact iff_of_false (fun h => hp h.1) (fun h => by omega)

end Ranges

section Panics
variable {σ α : Type} {st : RuntimeState σ} {memory : Option LinearMemory}

theorem noPanic_add_iff (x y : ℕ) (body : Build → ℕ → Except HostFault α) :
    (∀ build, NoPanic (add build x y >>= body build)) ↔
      x + y < 2 ^ 64 ∧ ∀ build, NoPanic (body build (x + y)) := by
  unfold add
  by_cases h : x + y < 2 ^ 64
  · simp only [h, true_and]
    rfl
  · simp only [h, false_and, iff_false]
    exact fun hall => hall .debug rfl

theorem noPanic_ite_trap {c : Prop} [Decidable c] (r : Build → Except HostFault α) :
    (∀ build, NoPanic (if c then .error .trap else r build)) ↔
      (¬ c → ∀ build, NoPanic (r build)) := by
  by_cases h : c
  · simp [h, NoPanic]
  · simp [h]

theorem noPanic_ok (a : α) : NoPanic (.ok a) := nofun

theorem ok_bind {β : Type} (a : α) (f : α → Except HostFault β) : (Except.ok a >>= f) = f a := rfl

theorem slice_eq {m : LinearMemory} {start len : ℕ} (h : start + len ≤ m.data.length) :
    slice m start (start + len) = .ok ((m.data.drop start).take len) := by
  rw [slice, if_pos ⟨Nat.le_add_right _ _, h⟩, Nat.add_sub_cancel_left]

theorem exists_copyFromSlice {m : LinearMemory} {start : ℕ} {bytes : List UInt8}
    (h : start + bytes.length ≤ m.data.length) :
    ∃ m' : LinearMemory, copyFromSlice m start (start + bytes.length) bytes = .ok m' ∧
      m'.data = m.data.take start ++ bytes ++ m.data.drop (start + bytes.length) := by
  have hrange : start ≤ start + bytes.length ∧ start + bytes.length ≤ m.data.length ∧
      bytes.length = start + bytes.length - start := ⟨by omega, h, by omega⟩
  exact ⟨_, dif_pos hrange, rfl⟩

def spent (st : RuntimeState σ) (amount : UInt64) : RuntimeState σ :=
  { st with
    gasMeter := ⟨st.gasMeter.limit,
      UInt64.ofNat (st.gasMeter.used.toNat + amount.toNat)⟩ }

@[simp] theorem storage_spent (amount : UInt64) : (spent st amount).storage = st.storage := rfl

theorem enter_of_reaches (build : Build) {amount : UInt64} {m : LinearMemory}
    (h : Reaches st memory amount m) : enter build st memory amount = .ok (spent st amount, m) := by
  obtain ⟨hgas, hmemory⟩ := h
  have hlimit := st.gasMeter.limit.toNat_lt
  unfold enter charge add
  rw [if_pos (by omega), hmemory]
  change (if st.gasMeter.limit.toNat < st.gasMeter.used.toNat + amount.toNat then _ else _) >>= _ =
    _
  rw [if_neg (by omega)]
  rfl

theorem noPanic_enter_iff (amount : UInt64)
    (body : Build → RuntimeState σ × LinearMemory → Except HostFault α) :
    (∀ build, NoPanic (enter build st memory amount >>= body build)) ↔ MeterFits st amount ∧
      ∀ m, Reaches st memory amount m → ∀ build, NoPanic (body build (spent st amount, m)) := by
  unfold enter charge
  simp only [bind_assoc]
  rw [noPanic_add_iff]
  apply and_congr_right
  intro _
  by_cases hgas : st.gasMeter.limit.toNat < st.gasMeter.used.toNat + amount.toNat
  · refine iff_of_true (fun build => ?_) fun m hm => absurd hm.1 (by omega)
    rw [if_pos hgas]
    exact nofun
  · simp only [if_neg hgas]
    cases memory with
    | none => exact iff_of_true (fun _ => nofun) fun m hm => by cases hm.2
    | some m =>
      constructor
      · rintro h m' ⟨-, hm⟩
        obtain rfl := Option.some.inj hm
        exact h
      · exact fun h => h m ⟨by omega, rfl⟩

end Panics

section Safety
variable {σ : Type} [Storage σ] (st : RuntimeState σ) (memory : Option LinearMemory)

variable {st} in
theorem length_getD_lt (hvec : ∀ key value, Storage.read st.storage key = some value →
      value.length < 2 ^ 63) (key : List UInt8) :
    ((Storage.read st.storage key).getD []).length < 2 ^ 63 := by
  cases hread : Storage.read st.storage key with
  | none => exact Nat.two_pow_pos 63
  | some value => exact hvec key value hread

theorem storageRead_noPanic_iff (hvec : ∀ key value, Storage.read st.storage key = some value →
      value.length < 2 ^ 63) (keyPtr keyLen outPtr : Int32) :
    (∀ build, NoPanic (storageRead build st memory keyPtr keyLen outPtr)) ↔
      ReadFits st memory keyPtr keyLen outPtr := by
  unfold storageRead ReadFits
  rw [noPanic_enter_iff]
  apply and_congr_right
  intro _
  refine forall_congr' fun m => forall_congr' fun _ => ?_
  rw [noPanic_add_iff, endFits_iff]
  apply and_congr_right
  intro _
  rw [noPanic_ite_trap, not_lt]
  simp only [keyAt_iff]
  have hvalue := length_getD_lt hvec
  constructor
  · rintro h key ⟨hin, rfl⟩
    have hnext := h hin
    simp only [slice_eq hin, ok_bind] at hnext
    rw [noPanic_add_iff] at hnext
    exact (outFits_iff outPtr (hvalue _)).mpr hnext.1
  · intro h hin
    simp only [slice_eq hin, ok_bind]
    rw [noPanic_add_iff, noPanic_ite_trap, not_lt]
    refine ⟨(outFits_iff outPtr (hvalue _)).mp (h _ ⟨hin, rfl⟩), fun hout build => ?_⟩
    obtain ⟨m', hcopy, -⟩ := exists_copyFromSlice hout
    rw [hcopy]
    exact noPanic_ok _

theorem storageWrite_noPanic_iff (keyPtr keyLen valPtr valLen : Int32) :
    (∀ build, NoPanic (storageWrite build st memory keyPtr keyLen valPtr valLen)) ↔
      WriteFits st memory keyPtr keyLen valPtr valLen := by
  unfold storageWrite WriteFits
  rw [noPanic_enter_iff]
  apply and_congr_right
  intro _
  refine forall_congr' fun m => forall_congr' fun _ => ?_
  rw [noPanic_add_iff, endFits_iff, endFits_iff]
  apply and_congr_right
  intro _
  rw [noPanic_add_iff, noPanic_ite_trap]
  apply and_iff_left
  intro hin build
  rw [not_or, not_lt, not_lt] at hin
  simp only [slice_eq hin.1, slice_eq hin.2, ok_bind]
  exact noPanic_ok _

omit [Storage σ] in
theorem getCaller_noPanic_iff (ptr : Int32) :
    (∀ build, NoPanic (getCaller build st memory ptr)) ↔ CallerFits st memory ptr := by
  unfold getCaller CallerFits
  rw [noPanic_enter_iff]
  apply and_congr_right
  intro _
  refine forall_congr' fun m => forall_congr' fun _ => ?_
  rw [noPanic_add_iff, outFits_iff ptr (by decide), noPanic_ite_trap, not_lt]
  apply and_iff_left
  intro hin build
  have hlen : (spent st 1).caller.toList.length = 20 := Bytes.length_toList _
  rw [← hlen] at hin
  obtain ⟨m', hcopy, -⟩ := exists_copyFromSlice hin
  rw [hlen] at hcopy
  rw [hcopy]
  exact noPanic_ok _

end Safety

section Agreement
variable {σ : Type} [Storage σ] {st : RuntimeState σ} {m : LinearMemory}

/-- The bytes that a pointer and a length select, if they lie in the memory. -/
def selected (m : LinearMemory) (ptr len : Int32) : Option (List UInt8) :=
  if usize ptr + usize len ≤ m.data.length then
    some ((m.data.drop (usize ptr)).take (usize len))
  else none

def overwritten (m : LinearMemory) (start : ℕ) (bytes : List UInt8) : List UInt8 :=
  m.data.take start ++ bytes ++ m.data.drop (start + bytes.length)

/-- Both calls are refused, or both go through and leave one state; what the second returns is in
the first one's memory. -/
def Agrees {α : Type} (r : Except HostFault (Int32 × RuntimeState σ × LinearMemory))
    (r' : Except WasmError α × RuntimeState σ) (after : α → List UInt8) : Prop :=
  match r, r'.1 with
  | .ok r, .ok a => r.2.1 = r'.2 ∧ r.2.2.data = after a
  | .error .trap, .error _ => True
  | _, _ => False

omit [Storage σ] in
theorem charged_eq {α : Type} {amount : UInt64} (hfits : MeterFits st amount)
    (body : RuntimeState σ → Except WasmError α × RuntimeState σ) :
    st.charged amount body =
      if st.gasMeter.limit.toNat < st.gasMeter.used.toNat + amount.toNat then
        (.error .memoryOutOfBounds, st)
      else body (spent st amount) := by
  have hsum := toNat_add_of_lt hfits
  unfold RuntimeState.charged GasMeter.charge
  by_cases hgas : st.gasMeter.limit.toNat < st.gasMeter.used.toNat + amount.toNat
  · have hlimit : st.gasMeter.used + amount > st.gasMeter.limit := by
      rw [gt_iff_lt, UInt64.lt_iff_toNat_lt, hsum]
      exact hgas
    rw [if_pos hgas, if_pos hlimit]
  · have hlimit : ¬ st.gasMeter.used + amount > st.gasMeter.limit := by
      rw [gt_iff_lt, UInt64.lt_iff_toNat_lt, hsum]
      exact hgas
    rw [if_neg hgas, if_neg hlimit]
    simp only [spent, ← hsum, UInt64.ofNat_toNat]

omit [Storage σ] in
theorem Agrees.enter {α : Type} {amount : UInt64} (hfits : MeterFits st amount)
    {body : RuntimeState σ × LinearMemory →
      Except HostFault (Int32 × RuntimeState σ × LinearMemory)}
    {body' : RuntimeState σ → Except WasmError α × RuntimeState σ} {after : α → List UInt8}
    (build : Build) (h : Reaches st (some m) amount m →
      Agrees (body (spent st amount, m)) (body' (spent st amount)) after) :
    Agrees (enter build st (some m) amount >>= body) (st.charged amount body') after := by
  rw [charged_eq hfits]
  by_cases hgas : st.gasMeter.limit.toNat < st.gasMeter.used.toNat + amount.toNat
  · rw [if_pos hgas]
    have hadd : add build st.gasMeter.used.toNat amount.toNat = .ok _ := if_pos hfits
    have henter : HostMemory.enter build st (some m) amount = .error .trap := by
      unfold HostMemory.enter charge
      rw [hadd, ok_bind, if_pos hgas]
      rfl
    rw [henter]
    trivial
  · rw [if_neg hgas]
    have hreaches : Reaches st (some m) amount m := ⟨by omega, rfl⟩
    rw [enter_of_reaches build hreaches, ok_bind]
    exact h hreaches

theorem storageRead_agrees (hvec : ∀ key value, Storage.read st.storage key = some value →
      value.length < 2 ^ 63) {keyPtr keyLen outPtr : Int32}
    (hfits : ReadFits st (some m) keyPtr keyLen outPtr) (build : Build) :
    Agrees (storageRead build st (some m) keyPtr keyLen outPtr)
      (st.storageRead (selected m keyPtr keyLen) (usize outPtr) m.data.length)
      (overwritten m (usize outPtr)) := by
  unfold storageRead RuntimeState.storageRead
  apply Agrees.enter hfits.1 build
  intro hreaches
  obtain ⟨hend, hout⟩ := hfits.2 m hreaches
  have hadd : add build (usize keyPtr) (usize keyLen) = .ok _ :=
    if_pos ((endFits_iff keyPtr keyLen).mp hend)
  rw [hadd, ok_bind]
  unfold selected
  by_cases hin : usize keyPtr + usize keyLen ≤ m.data.length
  · have hfit := (outFits_iff outPtr (length_getD_lt hvec _)).mp
      (hout _ ((keyAt_iff m keyPtr keyLen _).mpr ⟨hin, rfl⟩))
    have hadd' : add build (usize outPtr) _ = .ok _ := if_pos hfit
    rw [if_pos hin, if_neg (not_lt.mpr hin), slice_eq hin, ok_bind]
    simp only [storage_spent, gt_iff_lt]
    rw [hadd', ok_bind]
    by_cases hroom : usize outPtr + ((Storage.read st.storage
        ((m.data.drop (usize keyPtr)).take (usize keyLen))).getD []).length ≤ m.data.length
    · obtain ⟨m', hcopy, hdata⟩ := exists_copyFromSlice hroom
      rw [if_neg (not_lt.mpr hroom), hcopy, ok_bind, if_neg (not_lt.mpr hroom)]
      exact ⟨rfl, hdata⟩
    · rw [if_pos (not_le.mp hroom), if_pos (not_le.mp hroom)]
      trivial
  · rw [if_neg hin, if_pos (not_le.mp hin)]
    trivial

theorem storageWrite_agrees {keyPtr keyLen valPtr valLen : Int32}
    (hfits : WriteFits st (some m) keyPtr keyLen valPtr valLen) (build : Build) :
    Agrees (storageWrite build st (some m) keyPtr keyLen valPtr valLen)
      (st.storageWrite (selected m keyPtr keyLen) (selected m valPtr valLen))
      (fun _ => m.data) := by
  unfold storageWrite RuntimeState.storageWrite
  apply Agrees.enter hfits.1 build
  intro hreaches
  obtain ⟨hkey, hval⟩ := hfits.2 m hreaches
  have hadd : add build (usize keyPtr) (usize keyLen) = .ok _ :=
    if_pos ((endFits_iff keyPtr keyLen).mp hkey)
  have hadd' : add build (usize valPtr) (usize valLen) = .ok _ :=
    if_pos ((endFits_iff valPtr valLen).mp hval)
  rw [hadd, ok_bind, hadd', ok_bind]
  unfold selected
  by_cases hin : usize keyPtr + usize keyLen ≤ m.data.length
  · by_cases hin' : usize valPtr + usize valLen ≤ m.data.length
    · rw [if_pos hin, if_pos hin', if_neg (not_or.mpr ⟨not_lt.mpr hin, not_lt.mpr hin'⟩),
        slice_eq hin, ok_bind, slice_eq hin', ok_bind]
      exact ⟨rfl, rfl⟩
    · rw [if_pos hin, if_neg hin', if_pos (Or.inr (not_le.mp hin'))]
      trivial
  · rw [if_neg hin, if_pos (Or.inl (not_le.mp hin))]
    trivial

omit [Storage σ] in
theorem getCaller_agrees {ptr : Int32} (hfits : CallerFits st (some m) ptr) (build : Build) :
    Agrees (getCaller build st (some m) ptr) (st.getCaller (usize ptr) m.data.length)
      (fun caller => overwritten m (usize ptr) caller.toList) := by
  unfold getCaller RuntimeState.getCaller
  apply Agrees.enter hfits.1 build
  intro hreaches
  have hadd : add build (usize ptr) 20 = .ok _ :=
    if_pos ((outFits_iff ptr (by decide)).mp (hfits.2 m hreaches))
  rw [hadd, ok_bind]
  by_cases hroom : usize ptr + 20 ≤ m.data.length
  · have hlen : (spent st 1).caller.toList.length = 20 := Bytes.length_toList _
    have hroom' := hroom
    rw [← hlen] at hroom'
    obtain ⟨m', hcopy, hdata⟩ := exists_copyFromSlice hroom'
    rw [hlen] at hcopy
    rw [if_neg (not_lt.mpr hroom), hcopy, ok_bind, if_neg (not_lt.mpr hroom)]
    exact ⟨rfl, hdata⟩
  · rw [if_pos (not_le.mp hroom), if_pos (not_le.mp hroom)]
    trivial

end Agreement

section Safety
variable {σ : Type} [Storage σ] (st : RuntimeState σ) (memory : Option LinearMemory)

/-- Whatever the arguments, a host call panics in no build exactly if the offsets it computes fit:
a pointer and a length of opposite signs must not reach zero, and two negative ones never fit. -/
theorem host_calls_noPanic_iff (hvec : ∀ key value, Storage.read st.storage key = some value →
      value.length < 2 ^ 63) :
    (∀ keyPtr keyLen outPtr, (∀ build, NoPanic (storageRead build st memory keyPtr keyLen
        outPtr)) ↔ ReadFits st memory keyPtr keyLen outPtr) ∧
      (∀ keyPtr keyLen valPtr valLen, (∀ build, NoPanic (storageWrite build st memory keyPtr keyLen
        valPtr valLen)) ↔ WriteFits st memory keyPtr keyLen valPtr valLen) ∧
      ∀ ptr, (∀ build, NoPanic (getCaller build st memory ptr)) ↔ CallerFits st memory ptr :=
  ⟨storageRead_noPanic_iff st memory hvec, storageWrite_noPanic_iff st memory,
    getCaller_noPanic_iff st memory⟩

end Safety

section Sample

def samplePage : LinearMemory where
  data := List.replicate 65536 0
  length_lt := by
    rw [List.length_replicate]
    decide

def sampleState : RuntimeState ContractStorage :=
  .new (Bytes.zero 20) (Bytes.zero 20) 21000 ⟨∅⟩

theorem host_calls_noPanic_sample :
    NoPanic (storageRead .debug sampleState (some samplePage) 0 4 8) ∧
      NoPanic (storageRead .release sampleState (some samplePage) 0 4 8) := by
  have hread : ∀ key, Storage.read sampleState.storage key = none := fun _ => rfl
  have hmeter : MeterFits sampleState 10 := by
    unfold MeterFits
    decide
  have hsafe := ((host_calls_noPanic_iff sampleState (some samplePage) (fun key value h => by
    rw [hread] at h
    cases h)).1 0 4 8).mpr
      ⟨hmeter, fun m _ => ⟨Or.inl (by decide), fun _ _ => Or.inl (by decide)⟩⟩
  exact ⟨hsafe .debug, hsafe .release⟩

/-- A key of one byte at minus one. -/
theorem sampleState_panics :
    ¬ NoPanic (storageRead .debug sampleState (some samplePage) (-1) 1 0) ∧
      ¬ NoPanic (storageRead .release sampleState (some samplePage) (-1) 1 0) := by
  have hreaches : Reaches sampleState (some samplePage) 10 samplePage := ⟨by decide, rfl⟩
  have hptr : usize (-1) = 18446744073709551615 := by decide
  have hlen : usize 1 = 1 := by decide
  have hslice : slice samplePage 18446744073709551615 0 = .error .panic :=
    if_neg fun h => absurd h.1 (by decide)
  refine ⟨fun hsafe => ?_, fun hsafe => ?_⟩
  · unfold storageRead at hsafe
    rw [enter_of_reaches .debug hreaches, ok_bind, hptr, hlen] at hsafe
    exact hsafe rfl
  · have hadd : add .release 18446744073709551615 1 = .ok 0 := rfl
    unfold storageRead at hsafe
    rw [enter_of_reaches .release hreaches, ok_bind, hptr, hlen, hadd, ok_bind,
      if_neg (Nat.not_lt_zero _), hslice] at hsafe
    exact hsafe rfl

end Sample

end HostMemory

end CytahSpeed
