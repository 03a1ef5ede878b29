import CytahSpeed.Sha256

/-!
# SHA-256 with computed words

The digest again, arranged for an evaluator that substitutes before it computes: every word is
brought to a numeral before the next step reads it, and the schedule grows at the head of its
list. The two digests are equal, so a concrete run may be evaluated with this one.
-/

namespace Sha256
open ByteString

/-- `f n`, with the argument computed before `f` is entered. -/
def strictly {α : Type} (n : ℕ) (f : ℕ → α) : α :=
  match n with
  | 0 => f 0
  | m + 1 => f m.succ

@[simp] theorem strictly_eq {α : Type} (n : ℕ) (f : ℕ → α) : strictly n f = f n := by
  cases n <;> rfl

def strictList {α : Type} : List ℕ → (List ℕ → α) → α
  | [], f => f []
  | x :: xs, f => strictly x fun x => strictList xs fun xs => f (x :: xs)

@[simp] theorem strictList_eq {α : Type} (xs : List ℕ) (f : List ℕ → α) :
    strictList xs f = f xs := by
  induction xs generalizing f with
  | nil => rfl
  | cons x xs ih => rw [strictList, strictly_eq, ih]

namespace Strict

def add32 (x y : ℕ) : ℕ := (x.add y).mod 4294967296

def rotr (k x : ℕ) : ℕ := (x.shiftRight k).lor ((x.shiftLeft (Nat.sub 32 k)).mod 4294967296)

def bigSigma0 (x : ℕ) : ℕ := ((rotr 2 x).xor (rotr 13 x)).xor (rotr 22 x)

def bigSigma1 (x : ℕ) : ℕ := ((rotr 6 x).xor (rotr 11 x)).xor (rotr 25 x)

def smallSigma0 (x : ℕ) : ℕ := ((rotr 7 x).xor (rotr 18 x)).xor (x.shiftRight 3)

def smallSigma1 (x : ℕ) : ℕ := ((rotr 17 x).xor (rotr 19 x)).xor (x.shiftRight 10)

def choose (x y z : ℕ) : ℕ := (x.land y).xor ((Nat.xor 4294967295 x).land z)

def majority (x y z : ℕ) : ℕ := ((x.land y).xor (x.land z)).xor (y.land z)

def round (k w : ℕ) : Chain → Chain
  | ⟨a, b, c, d, e, f, g, h⟩ =>
    strictly (((((h.add (bigSigma1 e)).add (choose e f g)).add k).add w).mod 4294967296) fun t₁ =>
    strictly (add32 t₁ (add32 (bigSigma0 a) (majority a b c))) fun t₂ =>
    strictly (add32 d t₁) fun t₃ => ⟨t₂, a, b, c, t₃, e, f, g⟩

/-- The rounds over the schedule so far, its newest word first. -/
def rounds : List ℕ → List ℕ → Chain → Chain
  | [], _, s => s
  | k :: ks, ws, s =>
    match ws.drop 14 with
    | w₁ :: w :: _ =>
      strictly ((((smallSigma1 ((ws.drop 1).headD 0)).add ((ws.drop 6).headD 0)).add
        (smallSigma0 w₁)).add w |>.mod 4294967296) fun ahead =>
      rounds ks (ahead :: ws) (round k w s)
    | _ => s

def addChains : Chain → Chain → Chain
  | ⟨a, b, c, d, e, f, g, h⟩, ⟨a', b', c', d', e', f', g', h'⟩ =>
    strictly (add32 a a') fun a => strictly (add32 b b') fun b => strictly (add32 c c') fun c =>
    strictly (add32 d d') fun d => strictly (add32 e e') fun e => strictly (add32 f f') fun f =>
    strictly (add32 g g') fun g => strictly (add32 h h') fun h => ⟨a, b, c, d, e, f, g, h⟩

def compress (s : Chain) (block : List ℕ) : Chain :=
  strictList block.reverse fun ws => addChains s (rounds roundConstants ws s)

def absorb : ℕ → Chain → List ℕ → Chain
  | 0, s, _ => s
  | k + 1, s, ws => absorb k (compress s (ws.take 16)) (ws.drop 16)

def hash (m : List UInt8) : Bytes 32 :=
  let ws := toWords (pad m)
  (absorb (ws.length / 16) initial ws).digest

theorem round_eq (k w : ℕ) (s : Chain) : round k w s = Sha256.round s k w := by
  cases s
  simp only [round, strictly_eq]
  rfl

theorem rounds_eq (ks window old : List ℕ) (s : Chain) (hlen : window.length = 16) :
    rounds ks (window.reverse ++ old) s = Sha256.rounds ks window s := by
  induction ks generalizing window old s with
  | nil => cases window <;> rfl
  | cons k ks ih =>
    match window, hlen with
    | [w₀, w₁, w₂, w₃, w₄, w₅, w₆, w₇, w₈, w₉, w₁₀, w₁₁, w₁₂, w₁₃, w₁₄, w₁₅], _ =>
      have hnext := fun ahead => ih [w₁, w₂, w₃, w₄, w₅, w₆, w₇, w₈, w₉, w₁₀, w₁₁, w₁₂, w₁₃, w₁₄,
        w₁₅, ahead] (w₀ :: old) (Sha256.round s k w₀) rfl
      simp only [rounds, List.reverse_cons, List.reverse_nil, List.nil_append, List.cons_append,
        List.drop_succ_cons, List.drop_zero, strictly_eq, round_eq]
      exact hnext _

theorem compress_eq (s : Chain) (block : List ℕ) (hlen : block.length = 16) :
    compress s block = Sha256.compress s block := by
  have hrounds := rounds_eq roundConstants block [] s hlen
  rw [List.append_nil] at hrounds
  rw [compress, strictList_eq, hrounds, Sha256.compress]
  simp only [addChains, strictly_eq]
  rfl

theorem absorb_eq (k : ℕ) (s : Chain) (ws : List ℕ) (hlen : 16 * k ≤ ws.length) :
    absorb k s ws = Sha256.absorb k s ws := by
  induction k generalizing s ws with
  | zero => rfl
  | succ k ih =>
    rw [absorb, Sha256.absorb, compress_eq _ _ (by rw [List.length_take]; omega)]
    exact ih _ _ (by rw [List.length_drop]; omega)

theorem hash_eq : hash = Sha256.hash := by
  funext m
  rw [hash, Sha256.hash, absorb_eq _ _ _ (Nat.mul_div_le _ 16)]

end Strict

end Sha256
