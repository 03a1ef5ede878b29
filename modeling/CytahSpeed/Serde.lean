import CytahSpeed.ByteString

/-!
# Serialisation as a parameter

A program that stores values through a serialisation library relies on one law: what was written is
read back. `Serde` is the library's part, an encoder that can refuse a value and a decoder that can
refuse bytes, and `RoundTrips` is the law.
-/

namespace ByteString

structure Serde (α : Type) where
  serialize : α → Except String (List UInt8)
  deserialize : List UInt8 → Except String α

namespace Serde

variable {α : Type} (s : Serde α)

def RoundTrips : Prop := ∀ a data, s.serialize a = .ok data → s.deserialize data = .ok a

def Writes (a : α) : Prop := (s.serialize a).isOk = true

instance : DecidablePred s.Writes := fun _ => inferInstanceAs (Decidable (_ = true))

def bytes (a : α) : List UInt8 :=
  match s.serialize a with
  | .ok data => data
  | .error _ => []

variable {s} {a : α} {data : List UInt8}

theorem bytes_eq (h : s.serialize a = .ok data) : s.bytes a = data := by
  unfold bytes
  rw [h]

theorem writes_of_ok (h : s.serialize a = .ok data) : s.Writes a := by
  rw [Writes, h]
  rfl

theorem not_writes_of_error {e : String} (h : s.serialize a = .error e) : ¬ s.Writes a := by
  rw [Writes, h]
  exact Bool.false_ne_true

theorem Writes.serialize_eq (h : s.Writes a) : s.serialize a = .ok (s.bytes a) := by
  cases hdata : s.serialize a with
  | error e => exact absurd h (not_writes_of_error hdata)
  | ok data => rw [bytes_eq hdata]

theorem RoundTrips.deserialize_bytes (h : s.RoundTrips) (ha : s.Writes a) :
    s.deserialize (s.bytes a) = .ok a := h a _ ha.serialize_eq

def knowing [DecidableEq α] (entries : List (α × List UInt8)) : Serde α where
  serialize a :=
    match entries.find? (·.1 = a) with
    | some e => .ok e.2
    | none => .error "the encoding is not known"
  deserialize data :=
    match entries.find? (·.2 = data) with
    | some e => .ok e.1
    | none => .error "unexpected end of file"

theorem roundTrips_knowing [DecidableEq α] {entries : List (α × List UInt8)}
    (h : (entries.map Prod.snd).Nodup) : (knowing entries).RoundTrips := by
  intro a data hdata
  unfold knowing at hdata ⊢
  dsimp only at hdata ⊢
  cases ha : entries.find? (·.1 = a) with
  | none =>
    rw [ha] at hdata
    cases hdata
  | some e =>
    rw [ha] at hdata
    obtain rfl := Except.ok.inj hdata
    have hkey : e.1 = a := by simpa using List.find?_some ha
    have hsome : (entries.find? (·.2 = e.2)).isSome := by
      rw [List.find?_isSome]
      exact ⟨e, List.mem_of_find?_eq_some ha, by simp⟩
    obtain ⟨e', he'⟩ := Option.isSome_iff_exists.mp hsome
    have hbytes : e'.2 = e.2 := by simpa using List.find?_some he'
    have hsame : e' = e := List.inj_on_of_nodup_map h (List.mem_of_find?_eq_some he')
      (List.mem_of_find?_eq_some ha) hbytes
    rw [he', hsame]
    exact congrArg Except.ok hkey

end Serde

end ByteString
