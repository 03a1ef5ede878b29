import CytahSpeed.SnapshotSchedule

/-!
# Finding snapshots again

A snapshot is stored under its height, written in ten digits at least, before the metadata notes
it. A height reads back the last snapshot that was written for it, whether or not it was noted
then, and the height that is noted never lacks a snapshot. The height zero cannot be noted.
-/

namespace CytahSpeed
open ByteString FiniteMap MachineInt Pruning

namespace Pruning

theorem toList_pushn (s : String) (char : Char) (n : ℕ) :
    (s.pushn char n).toList = s.toList ++ List.replicate n char := by
  rw [String.pushn_eq_repeat_push]
  induction n with
  | zero => simp [Nat.repeat]
  | succ n ih => rw [Nat.repeat, String.toList_push, ih, List.append_assoc, List.replicate_succ']

/-- Heights have keys of their own: the leading zeros do not change the number. -/
theorem snapshotKey_injective : Function.Injective snapshotKey := by
  intro a b h
  have hdigits : ∀ x : UInt64, (snapshotKey x).toList = "snapshot_".toList ++
      (List.replicate (10 - (toString x).length) '0' ++ Nat.toDigits 10 x.toNat) := by
    intro x
    have hrepr : (toString x).toList = Nat.toDigits 10 x.toNat := Nat.toList_repr
    rw [snapshotKey, String.toList_append, String.toList_append, toList_pushn, hrepr,
      List.append_assoc]
    rfl
  have hlist := congrArg String.toList h
  rw [hdigits, hdigits] at hlist
  have hvalue := congrArg (Nat.ofDigitChars 10 · 0) (List.append_cancel_left hlist)
  simp only [Nat.ofDigitChars_append, Nat.ofDigitChars_replicate_zero, mul_zero,
    Nat.ofDigitChars_ten_toDigits] at hvalue
  exact UInt64.toNat_inj.mp hvalue

end Pruning

namespace RollingWindowPruner

variable (c : Crypto) (size : Block → UInt64) (p : RollingWindowPruner)

def getStateSnapshot (readError : Option String) (height : UInt64) :
    Except String (Option Pruning.StateSnapshot) :=
  match readError with
  | some e => .error ("Database error: " ++ e)
  | none => .ok (p.snapshots.lookup (snapshotKey height))

def getLatestSnapshot (metadataError snapshotError : Option String) :
    Except String (Option Pruning.StateSnapshot) :=
  match p.getMetadata metadataError with
  | .error e => .error e
  | .ok metadata =>
    if metadata.lastSnapshotHeight = 0 then .ok none
    else p.getStateSnapshot snapshotError metadata.lastSnapshotHeight

def written : PruneCall → Option Pruning.StateSnapshot
  | .insertBlock _ _ => none
  | .maybePrune env height state =>
    if p.shouldPrune height = true ∧ env.checkRead = none ∧
        p.snapshotInterval ≤ height - p.metadata.lastSnapshotHeight ∧ env.snapshotWrite = none then
      some (stateSnapshot env height state)
    else none

def writtenAlong : RollingWindowPruner → List PruneCall → List Pruning.StateSnapshot
  | _, [] => []
  | p, call :: calls => (p.written call).toList ++ writtenAlong (p.step c size call) calls

def lastAt (height : UInt64) (snapshots : List Pruning.StateSnapshot) :
    Option Pruning.StateSnapshot :=
  snapshots.reverse.find? (·.height = height)

variable {c size p} {env : PruneEnv} {height : UInt64} {state : StateManager}

def kept (p : RollingWindowPruner) (snapshot : Option Pruning.StateSnapshot) :
    Map String Pruning.StateSnapshot :=
  snapshot.elim p.snapshots fun s => p.snapshots.insert (snapshotKey s.height) s

theorem takeStateSnapshot_written (p : RollingWindowPruner) (env : PruneEnv) (height : UInt64)
    (state : StateManager) :
    (p.takeStateSnapshot env height state).2.snapshots =
        p.kept (if env.snapshotWrite = none then some (stateSnapshot env height state) else none) ∧
      ((p.takeStateSnapshot env height state).2.metadata = p.metadata ∨
        (p.takeStateSnapshot env height state).2.metadata = p.notedSnapshot height ∧
          env.snapshotWrite = none) := by
  unfold takeStateSnapshot
  cases env.snapshotWrite with
  | some e => exact ⟨rfl, Or.inl rfl⟩
  | none =>
    dsimp only
    unfold getMetadata
    cases env.snapshotRead with
    | some e => exact ⟨rfl, Or.inl rfl⟩
    | none =>
      dsimp only
      unfold saveMetadata
      cases env.snapshotSave with
      | some e => exact ⟨rfl, Or.inl rfl⟩
      | none => exact ⟨rfl, Or.inr ⟨rfl, rfl⟩⟩

/-- What a call does to the snapshots: it may write one, and it notes none but that. -/
structure Writes (p p' : RollingWindowPruner) (snapshot : Option Pruning.StateSnapshot) : Prop where
  snapshots : p'.snapshots = p.kept snapshot
  noted : p'.metadata.lastSnapshotHeight = p.metadata.lastSnapshotHeight ∨
    ∃ s, snapshot = some s ∧ p'.metadata.lastSnapshotHeight = s.height

theorem SameSnapshot.writes {p' p'' : RollingWindowPruner} {snapshot : Option Pruning.StateSnapshot}
    (h : p.Writes p' snapshot) (hsame : p'.SameSnapshot p'') : p.Writes p'' snapshot where
  snapshots := hsame.snapshots.trans h.snapshots
  noted := by
    rw [hsame.lastSnapshotHeight]
    exact h.noted

theorem Writes.nothing (p : RollingWindowPruner) : p.Writes p none := ⟨rfl, Or.inl rfl⟩

theorem takeSnapshotIfNeeded_writes (p : RollingWindowPruner) (env : PruneEnv) (height : UInt64)
    (state : StateManager) (h : p.shouldPrune height = true) :
    p.Writes (p.takeSnapshotIfNeeded env height state).2
      (p.written (.maybePrune env height state)) := by
  unfold takeSnapshotIfNeeded getMetadata written
  simp only [h, true_and]
  cases env.checkRead with
  | some e => exact .nothing p
  | none =>
    dsimp only
    by_cases hdue : p.snapshotInterval ≤ height - p.metadata.lastSnapshotHeight
    · rw [if_pos hdue]
      obtain ⟨hsnapshots, hnoted⟩ := p.takeStateSnapshot_written env height state
      simp only [hdue, true_and]
      refine ⟨hsnapshots, ?_⟩
      rcases hnoted with hsame | ⟨htaken, hwrite⟩
      · exact Or.inl (congrArg _ hsame)
      · exact Or.inr ⟨_, if_pos hwrite, congrArg PruningMetadata.lastSnapshotHeight htaken⟩
    · simp only [hdue, false_and, and_false, if_false]
      exact .nothing p

theorem step_writes (p : RollingWindowPruner) (call : PruneCall) :
    p.Writes (p.step c size call) (p.written call) := by
  cases call with
  | insertBlock env block => exact ⟨rfl, Or.inl rfl⟩
  | maybePrune env height state =>
    cases h : p.shouldPrune height with
    | false =>
      rw [step, maybePrune_of_not_shouldPrune h, written, h]
      simp only [Bool.false_eq_true, false_and, if_false]
      exact .nothing p
    | true =>
      have hwrites := p.takeSnapshotIfNeeded_writes env height state h
      obtain ⟨result, p', hsnap, hends⟩ := p.maybePrune_cases c size env state h
      rw [hsnap] at hwrites
      rcases hends with ⟨e, -, hend⟩ | ⟨-, hend⟩
      · rw [step, hend]
        exact hwrites
      · rw [step, hend]
        exact (pruneBelow_keeps c size p' env height).2.writes hwrites

theorem lookup_kept (p : RollingWindowPruner) (snapshot : Option Pruning.StateSnapshot)
    (height : UInt64) : (p.kept snapshot).lookup (snapshotKey height) =
      (lastAt height snapshot.toList).or (p.snapshots.lookup (snapshotKey height)) := by
  cases snapshot with
  | none => rfl
  | some s =>
    have hkey : snapshotKey height = snapshotKey s.height ↔ s.height = height :=
      snapshotKey_injective.eq_iff.trans eq_comm
    simp only [kept, Option.elim_some, lookup_insert_eq_ite, hkey]
    by_cases hs : s.height = height <;> simp [lastAt, hs]

theorem lastAt_append (height : UInt64) (l l' : List Pruning.StateSnapshot) :
    lastAt height (l ++ l') = (lastAt height l').or (lastAt height l) := by
  rw [lastAt, List.reverse_append, List.find?_append]
  rfl

theorem height_of_lastAt {l : List Pruning.StateSnapshot} {s : Pruning.StateSnapshot}
    (h : lastAt height l = some s) : s.height = height := by
  have hfound := List.find?_some h
  simpa using hfound

theorem lookup_run (p : RollingWindowPruner) (calls : List PruneCall) (height : UInt64) :
    (calls.foldl (step c size) p).snapshots.lookup (snapshotKey height) =
      (lastAt height (p.writtenAlong c size calls)).or
        (p.snapshots.lookup (snapshotKey height)) := by
  induction calls generalizing p with
  | nil => rfl
  | cons call calls ih =>
    rw [List.foldl_cons, ih, (step_writes p call).snapshots, lookup_kept, writtenAlong,
      lastAt_append, Option.or_assoc]

/-- The noted height is zero, or has a snapshot. -/
def NotesStored (p : RollingWindowPruner) : Prop :=
  p.metadata.lastSnapshotHeight ≠ 0 →
    (p.snapshots.lookup (snapshotKey p.metadata.lastSnapshotHeight)).isSome

theorem notesStored_step (h : p.NotesStored) (call : PruneCall) :
    (p.step c size call).NotesStored := by
  obtain ⟨hsnapshots, hnoted⟩ : p.Writes (p.step c size call) (p.written call) :=
    step_writes p call
  intro hne
  rw [hsnapshots, lookup_kept, Option.isSome_or, Bool.or_eq_true]
  rcases hnoted with hsame | ⟨s, hs, hheight⟩
  · rw [hsame] at hne ⊢
    exact Or.inr (h hne)
  · rw [hs, hheight]
    exact Or.inl (by simp [lastAt])

theorem notesStored_run (h : p.NotesStored) (calls : List PruneCall) :
    (calls.foldl (step c size) p).NotesStored := by
  induction calls generalizing p with
  | nil => exact h
  | cons call calls ih => exact ih (notesStored_step h call)

/-- After every run, whatever failed in it, a height reads back the last snapshot that was written
for it, and the latest snapshot is that of the noted height; it is missing only while the height
zero is noted. -/
theorem latest_snapshot (c : Crypto) (size : Block → UInt64)
    (windowSize snapshotInterval pruningThreshold : UInt64) (calls : List PruneCall) :
    let start := new windowSize snapshotInterval pruningThreshold
    let p := calls.foldl (step c size) start
    let noted := p.metadata.lastSnapshotHeight
    (∀ height, p.getStateSnapshot none height =
        .ok (lastAt height (start.writtenAlong c size calls))) ∧
      (noted = 0 → p.getLatestSnapshot none none = .ok none) ∧
      (noted ≠ 0 → ∃ s, p.getLatestSnapshot none none = .ok (some s) ∧ s.height = noted ∧
        lastAt noted (start.writtenAlong c size calls) = some s) := by
  intro start p noted
  have hread : ∀ height, p.getStateSnapshot none height =
      .ok (lastAt height (start.writtenAlong c size calls)) := by
    intro height
    rw [getStateSnapshot, lookup_run]
    exact congrArg Except.ok (Option.or_none)
  have hlatest : p.getLatestSnapshot none none =
      if noted = 0 then .ok none else p.getStateSnapshot none noted := rfl
  refine ⟨hread, ?_, ?_⟩
  · intro hzero
    rw [hlatest, if_pos hzero]
  · intro hne
    have hstored : p.NotesStored := notesStored_run (fun h => absurd rfl h) calls
    obtain ⟨s, hs⟩ := Option.isSome_iff_exists.mp (hstored hne)
    have hlast := Except.ok.inj ((congrArg Except.ok hs).symm.trans (hread noted))
    refine ⟨s, ?_, height_of_lastAt hlast.symm, hlast.symm⟩
    rw [hlatest, if_neg hne, hread, hlast]

end RollingWindowPruner

end CytahSpeed
