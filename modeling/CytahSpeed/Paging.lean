import Mathlib.Data.List.Basic
import Mathlib.Data.List.Infix

/-!
# Paging with a cursor

A list is served in pages: an answer to a cursor holds the first entries after the one whose key is
the cursor. A reader asks for a page, then for the one after its last entry, until a page is empty.
Where the keys differ, the pages put together are the list.
-/

namespace Paging

variable {α κ : Type*} [DecidableEq κ] (key : α → κ)

def after (k : κ) : List α → List α
  | [] => []
  | a :: l => if key a = k then l else after k l

/-- The pages up to the first empty one; `none` when the fuel does not reach that far. -/
def readPages (ask : κ → List α) : ℕ → κ → Option (List (List α))
  | 0, _ => none
  | fuel + 1, k =>
    match (ask k).getLast? with
    | none => some [ask k]
    | some a => (readPages ask fuel (key a)).map (ask k :: ·)

structure Paged (max : ℕ) (l : List α) (pages : List (List α)) : Prop where
  flatten : pages.flatten = l
  length_le : ∀ p ∈ pages, p.length ≤ max
  full : ∀ pre p q post, pages = pre ++ p :: q :: post → q ≠ [] → p.length = max
  ends : pages.getLast? = some []

variable {key}

theorem after_append {k : κ} {pre : List α} (h : ∀ a ∈ pre, key a ≠ k) (l : List α) :
    after key k (pre ++ l) = after key k l := by
  induction pre with
  | nil => rfl
  | cons a pre ih =>
    rw [List.cons_append, after, if_neg (h a List.mem_cons_self)]
    exact ih fun b hb => h b (List.mem_cons_of_mem a hb)

theorem after_key {pre : List α} {a : α} {l : List α} (h : ((pre ++ a :: l).map key).Nodup) :
    after key (key a) (pre ++ a :: l) = l := by
  rw [List.map_append, List.map_cons, List.nodup_append] at h
  rw [after_append (fun b hb => h.2.2 _ (List.mem_map_of_mem hb) _ List.mem_cons_self), after,
    if_pos rfl]

theorem paged_nil (max : ℕ) : Paged max ([] : List α) [[]] := by
  refine ⟨rfl, ?_, ?_, rfl⟩
  · intro p hp
    rw [List.mem_singleton.mp hp]
    exact Nat.zero_le max
  · intro pre p q post hsplit _
    have hlen := congrArg List.length hsplit
    simp only [List.length_append, List.length_cons, List.length_nil] at hlen
    omega

theorem Paged.cons {max : ℕ} {page l : List α} {pages : List (List α)} (h : Paged max l pages)
    (hle : page.length ≤ max) (hfull : l ≠ [] → page.length = max) :
    Paged max (page ++ l) (page :: pages) := by
  refine ⟨by rw [List.flatten_cons, h.flatten], ?_, ?_, ?_⟩
  · intro p hp
    rcases List.mem_cons.mp hp with rfl | hp
    · exact hle
    · exact h.length_le p hp
  · intro pre p q post hsplit hq
    cases pre with
    | nil =>
      obtain ⟨rfl, rfl⟩ := List.cons.inj hsplit
      refine hfull ?_
      rw [← h.flatten, List.flatten_cons]
      exact List.append_ne_nil_of_left_ne_nil hq _
    | cons p' pre => exact h.full pre p q post (List.cons.inj hsplit).2 hq
  · have hne : pages ≠ [] := by
      rintro rfl
      have := h.ends
      cases this
    rw [List.getLast?_cons, h.ends]
    rfl

theorem split_at_last {max : ℕ} {rest : List α} {a : α} (h : (rest.take max).getLast? = some a) :
    ∃ front, rest = front ++ a :: rest.drop max := by
  obtain ⟨front, hfront⟩ := List.getLast?_eq_some_iff.mp h
  refine ⟨front, ?_⟩
  conv_lhs => rw [← List.take_append_drop max rest, hfront]
  rw [List.append_assoc, List.singleton_append]

/-- A server of a list with different keys: what is left of the list is read in pages, and the
reader needs no more rounds than there are entries left, and one. -/
theorem readPages_of_serves {ask : κ → List α} {max : ℕ} (hmax : 1 ≤ max) {l : List α}
    (hkeys : (l.map key).Nodup)
    (hask : ∀ a ∈ l, ask (key a) = (after key (key a) l).take max) {pre rest : List α} {k : κ}
    (hsplit : l = pre ++ rest) (hk : ask k = rest.take max) :
    ∃ pages, (∀ fuel, rest.length < fuel → readPages key ask fuel k = some pages) ∧
      Paged max rest pages := by
  induction hn : rest.length using Nat.strong_induction_on generalizing pre rest k with
  | _ n ih =>
    cases hlast : (ask k).getLast? with
    | none =>
      have hnil : ask k = [] := List.getLast?_eq_none_iff.mp hlast
      have hrest : rest = [] := by
        have hlen := congrArg List.length (hk.symm.trans hnil)
        rw [List.length_take, List.length_nil] at hlen
        exact List.length_eq_zero_iff.mp (by omega)
      subst hrest
      refine ⟨[[]], ?_, paged_nil max⟩
      intro fuel hfuel
      obtain ⟨fuel, rfl⟩ := Nat.exists_eq_succ_of_ne_zero (Nat.ne_of_gt (Nat.zero_lt_of_lt hfuel))
      simp only [readPages, hlast]
      rw [hnil]
    | some a =>
      obtain ⟨front, hfront⟩ := split_at_last (hk ▸ hlast)
      have hl : l = (pre ++ front) ++ a :: rest.drop max := by
        rw [hsplit, List.append_assoc, ← hfront]
      have hnext : ask (key a) = (rest.drop max).take max := by
        rw [hask a (by rw [hl]; exact List.mem_append_right _ List.mem_cons_self)]
        congr 1
        rw [hl] at hkeys ⊢
        exact after_key hkeys
      have hlen := congrArg List.length hfront
      simp only [List.length_append, List.length_cons] at hlen
      have hsplit' : l = (pre ++ front ++ [a]) ++ rest.drop max := by
        rw [hl]
        simp
      obtain ⟨pages, hpages, hpaged⟩ := ih (rest.drop max).length (by omega) hsplit' hnext rfl
      refine ⟨ask k :: pages, ?_, ?_⟩
      · intro fuel hfuel
        obtain ⟨fuel, rfl⟩ :=
          Nat.exists_eq_succ_of_ne_zero (Nat.ne_of_gt (Nat.zero_lt_of_lt hfuel))
        simp only [readPages, hlast]
        rw [hpages fuel (by omega)]
        rfl
      · have hfull : rest.drop max ≠ [] → (ask k).length = max := by
          intro hne
          have hlt : max < rest.length := by
            by_contra hle
            exact hne (List.drop_eq_nil_of_le (Nat.le_of_not_lt hle))
          rw [hk, List.length_take, Nat.min_eq_left (Nat.le_of_lt hlt)]
        have hcons := hpaged.cons (by rw [hk]; exact List.length_take_le max rest) hfull
        rwa [hk, List.take_append_drop, ← hk] at hcons

end Paging
