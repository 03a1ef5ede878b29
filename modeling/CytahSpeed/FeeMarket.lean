import CytahSpeed.DagRun
import CytahSpeed.TopologicalOrder
import Mathlib.Order.Iterate

/-!
# The base fee

The next base fee is computed from the last block of the topological order: ten percent up behind a
block that is more than half full, ten percent down behind any other. The percentage is a product
with ten, which overflows for the large fees that a peer may put into a header, and a quotient,
which vanishes below ten: from there no number of full blocks raises the fee.
-/

namespace CytahSpeed
open ByteString

namespace FeeMarket

def baseFeeAdjustUpPercent : UInt64 := 10
def baseFeeAdjustDownPercent : UInt64 := 10
def baseFeeMin : UInt64 := 1

/-- The new fee for a previous one; the products and the sum wrap around. -/
def adjustFee (full : Bool) (baseFee : UInt64) : UInt64 :=
  let prevBase := max baseFee baseFeeMin
  let newFee :=
    if full then prevBase + prevBase * baseFeeAdjustUpPercent / 100
    else MachineInt.satSub prevBase (prevBase * baseFeeAdjustDownPercent / 100)
  max newFee baseFeeMin

end FeeMarket

/-- More than half of the nominal target of a thousand transactions. -/
def Block.isFull (b : Block) : Bool := 1000 < b.transactions.length * 2

namespace BlockDag
open FeeMarket

def lastBlock (d : BlockDag) : Option Block := d.getTopologicalOrder.getLast?.bind d.getBlock

def nextBaseFee (d : BlockDag) : UInt64 :=
  match d.lastBlock with
  | some b => adjustFee b.isFull b.header.baseFee
  | none => baseFeeMin

end BlockDag

namespace FeeMarket

def feeBase (baseFee : UInt64) : ℕ := max baseFee.toNat 1

def Fits (full : Bool) (baseFee : UInt64) : Prop :=
  feeBase baseFee * 10 < 2 ^ 64 ∧
    (full = true → feeBase baseFee + feeBase baseFee * 10 / 100 < 2 ^ 64)

/-- The response to one block: strictly up, by a tenth at most, behind a full one, and down by a
tenth at most behind any other, but not below one. -/
structure Responds (full : Bool) (baseFee next : UInt64) : Prop where
  fits : Fits full baseFee
  up : full = true → feeBase baseFee < 2 ^ 64 - 1 →
    feeBase baseFee < next.toNat ∧ next.toNat ≤ feeBase baseFee + (feeBase baseFee + 9) / 10
  down : full = false → next.toNat ≤ feeBase baseFee ∧
    feeBase baseFee - feeBase baseFee / 10 ≤ next.toNat ∧ 1 ≤ next.toNat

variable {full : Bool} {baseFee : UInt64}

theorem one_le_feeBase (baseFee : UInt64) : 1 ≤ feeBase baseFee := le_max_right _ _

theorem toNat_max_min : (max baseFee baseFeeMin).toNat = feeBase baseFee :=
  MachineInt.toNat_max _ _

theorem toNat_tenth (h : feeBase baseFee * 10 < 2 ^ 64) :
    (max baseFee baseFeeMin * 10 / 100).toNat = feeBase baseFee / 10 := by
  rw [UInt64.toNat_div, UInt64.toNat_mul, toNat_max_min]
  change feeBase baseFee * 10 % 2 ^ 64 / 100 = _
  rw [Nat.mod_eq_of_lt h]
  omega

theorem toNat_adjustFee_full (h : feeBase baseFee * 10 < 2 ^ 64) :
    (adjustFee true baseFee).toNat = feeBase baseFee + feeBase baseFee / 10 := by
  have hlow := one_le_feeBase baseFee
  have hsum : (max baseFee baseFeeMin + max baseFee baseFeeMin * 10 / 100).toNat =
      feeBase baseFee + feeBase baseFee / 10 := by
    rw [MachineInt.toNat_add_of_lt, toNat_tenth h, toNat_max_min]
    rw [toNat_tenth h, toNat_max_min]
    omega
  change (max (max baseFee baseFeeMin + max baseFee baseFeeMin * 10 / 100) baseFeeMin).toNat = _
  rw [MachineInt.toNat_max, hsum]
  change max _ 1 = _
  omega

theorem toNat_adjustFee_notFull (h : feeBase baseFee * 10 < 2 ^ 64) :
    (adjustFee false baseFee).toNat = feeBase baseFee - feeBase baseFee / 10 := by
  have hlow := one_le_feeBase baseFee
  change (max (MachineInt.satSub (max baseFee baseFeeMin) (max baseFee baseFeeMin * 10 / 100))
    baseFeeMin).toNat = _
  rw [MachineInt.toNat_max, MachineInt.toNat_satSub, toNat_tenth h, toNat_max_min]
  change max _ 1 = _
  omega

/-- The product does not overflow, and behind a full block the quotient does not vanish. -/
def Moderate (full : Bool) (baseFee : UInt64) : Prop :=
  feeBase baseFee * 10 < 2 ^ 64 ∧ (full = true → 10 ≤ feeBase baseFee)

theorem raises_iff : Fits true baseFee ∧ feeBase baseFee < (adjustFee true baseFee).toNat ↔
    Moderate true baseFee := by
  constructor
  · intro ⟨hfits, hraised⟩
    rw [toNat_adjustFee_full hfits.1] at hraised
    exact ⟨hfits.1, fun _ => by omega⟩
  · intro ⟨hfits, hten⟩
    have hlow := hten rfl
    rw [toNat_adjustFee_full hfits]
    exact ⟨⟨hfits, fun _ => by omega⟩, by omega⟩

theorem responds_iff :
    Responds full baseFee (adjustFee full baseFee) ↔ Moderate full baseFee := by
  constructor
  · intro h
    refine ⟨h.fits.1, ?_⟩
    rintro rfl
    have hfits := h.fits.1
    have hup := h.up rfl (by omega)
    exact (raises_iff.mp ⟨h.fits, hup.1⟩).2 rfl
  · intro ⟨hfits, hten⟩
    refine ⟨⟨hfits, fun _ => by omega⟩, ?_, ?_⟩
    · rintro rfl -
      have hraised := (raises_iff.mpr ⟨hfits, hten⟩).2
      refine ⟨hraised, ?_⟩
      rw [toNat_adjustFee_full hfits]
      omega
    · rintro rfl
      have hlow := one_le_feeBase baseFee
      rw [toNat_adjustFee_notFull hfits]
      omega

def feeAfter (start : UInt64) (fulls : ℕ) : UInt64 := (adjustFee true)^[fulls] start

/-- Each of the full blocks raises the fee, without an overflow. -/
def KeepsRaising (start : UInt64) (fulls : ℕ) : Prop :=
  ∀ k < fulls, Fits true (feeAfter start k) ∧
    feeBase (feeAfter start k) < (feeAfter start (k + 1)).toNat

def raised (fee : ℕ) : ℕ := fee + fee / 10

/-- The start is at least ten, and the tenfold of the last fee that is raised is in range. -/
def RoomToRaise (start : UInt64) (fulls : ℕ) : Prop :=
  0 < fulls → 10 ≤ feeBase start ∧ raised^[fulls - 1] (feeBase start) * 10 < 2 ^ 64

variable {start : UInt64}

theorem feeAfter_succ (start : UInt64) (k : ℕ) :
    feeAfter start (k + 1) = adjustFee true (feeAfter start k) :=
  Function.iterate_succ_apply' _ _ _

theorem le_raised (fee : ℕ) : fee ≤ raised fee := Nat.le_add_right _ _

theorem feeBase_feeAfter {n : ℕ} (h : ∀ k < n, feeBase (feeAfter start k) * 10 < 2 ^ 64) :
    feeBase (feeAfter start n) = raised^[n] (feeBase start) := by
  induction n with
  | zero => rfl
  | succ n ih =>
    have hstep := toNat_adjustFee_full (h n (Nat.lt_succ_self n))
    have hlow := one_le_feeBase (feeAfter start n)
    rw [feeAfter_succ, feeBase, hstep, ih fun k hk => h k (Nat.lt_succ_of_lt hk),
      Function.iterate_succ_apply', raised]
    rw [ih fun k hk => h k (Nat.lt_succ_of_lt hk)] at hlow
    omega

theorem raised_iterate_mono (fee : ℕ) {j m : ℕ} (h : j ≤ m) : raised^[j] fee ≤ raised^[m] fee :=
  Function.monotone_iterate_of_id_le le_raised h fee

theorem feeBase_feeAfter_of_room {m : ℕ} (h : raised^[m] (feeBase start) * 10 < 2 ^ 64) {k : ℕ}
    (hk : k ≤ m) : feeBase (feeAfter start k) = raised^[k] (feeBase start) ∧
      feeBase (feeAfter start k) * 10 < 2 ^ 64 := by
  induction k using Nat.strong_induction_on with
  | _ k ih =>
    have hprev : ∀ j < k, feeBase (feeAfter start j) * 10 < 2 ^ 64 :=
      fun j hj => (ih j hj (hj.le.trans hk)).2
    have heq := feeBase_feeAfter hprev
    have hle := raised_iterate_mono (feeBase start) hk
    exact ⟨heq, by omega⟩

theorem keepsRaising_iff (start : UInt64) (fulls : ℕ) :
    KeepsRaising start fulls ↔ RoomToRaise start fulls := by
  constructor
  · intro h hpos
    have hmoderate : ∀ k < fulls, Moderate true (feeAfter start k) := by
      intro k hk
      have hk := h k hk
      rw [feeAfter_succ] at hk
      exact raises_iff.mp hk
    have hlast := (hmoderate (fulls - 1) (by omega)).1
    rw [feeBase_feeAfter fun k hk => (hmoderate k (by omega)).1] at hlast
    exact ⟨(hmoderate 0 hpos).2 rfl, hlast⟩
  · intro h k hk
    obtain ⟨hten, hroom⟩ := h (by omega)
    obtain ⟨heq, hfits⟩ := feeBase_feeAfter_of_room hroom (k := k) (by omega)
    have hlow := raised_iterate_mono (feeBase start) (Nat.zero_le k)
    rw [feeAfter_succ]
    refine raises_iff.mpr ⟨hfits, fun _ => ?_⟩
    rw [heq]
    exact hten.trans hlow

end FeeMarket

namespace BlockDag
open FeeMarket

/-- The fee computed on the DAG responds to its last block. -/
def FeeLaw (d : BlockDag) : Prop :=
  ∀ b, d.lastBlock = some b → Responds b.isFull b.header.baseFee d.nextBaseFee

theorem nextBaseFee_of_lastBlock {d : BlockDag} {b : Block} (h : d.lastBlock = some b) :
    d.nextBaseFee = adjustFee b.isFull b.header.baseFee := by
  rw [nextBaseFee, h]

/-- The fee follows the law exactly where the last block's fee is not too large, and not below ten
if the block is full. Full blocks keep raising it from ten on, as long as it is not too large. -/
theorem feeLaw_iff (d : BlockDag) (start : UInt64) (fulls : ℕ) :
    (d.FeeLaw ↔ ∀ b, d.lastBlock = some b → Moderate b.isFull b.header.baseFee) ∧
      (KeepsRaising start fulls ↔ RoomToRaise start fulls) := by
  refine ⟨?_, keepsRaising_iff start fulls⟩
  apply forall_congr'
  intro b
  apply imp_congr_right
  intro h
  rw [nextBaseFee_of_lastBlock h]
  exact responds_iff

section Sample

/-- A child of the genesis block whose header names a base fee of half the range. -/
def sampleDear : List Call :=
  [.createGenesisBlock 1000 sampleEnv,
    .insertBlock sampleEnv (Block.new .hashOnly [sampleRoot] 1001 [] 0 0 0x8000000000000000
      (Bytes.zero 20) (Bytes.zero 32))]

set_option maxRecDepth 20000 in
theorem sampleDear_evaluated :
    Sound .hashOnly sampleDear ∧
      (run .hashOnly sampleDear).lastBlock.map (fun b => (b.isFull, b.header.baseFee)) =
        some (false, 0x8000000000000000) := by
  unfold sampleDear sampleRoot
  rw [Crypto.hashOnly_eq_strict]
  decide +kernel

/-- The tenfold of an accepted fee overflows, and from one a full block does not raise the fee. -/
theorem sampleDear_overflows :
    (¬ ∀ calls, Sound .hashOnly calls → (run .hashOnly calls).FeeLaw) ∧
      adjustFee true 1 = 1 ∧ ¬ ∀ start fulls, KeepsRaising start fulls := by
  refine ⟨?_, by decide, ?_⟩
  · intro h
    obtain ⟨hsound, hlast⟩ := sampleDear_evaluated
    obtain ⟨b, hb, hfee⟩ := Option.map_eq_some_iff.mp hlast
    have hfits := (h sampleDear hsound b hb).fits
    rw [Prod.mk.injEq] at hfee
    rw [hfee.2] at hfits
    exact absurd hfits.1 (by decide)
  · intro h
    have hraised := (h 1 1 0 (by decide)).2
    exact absurd hraised (by decide)

end Sample

end BlockDag
end CytahSpeed
