import Mathlib.Data.List.Basic
import Mathlib.Order.Nat
import Mathlib.Tactic.Common

/-!
# First occurrence of a pattern

Search for the first place of a text where a pattern stands, up to an
equivalence given by a map of the characters. Exact search takes the identity
map, search that ignores case takes a map to one case. A pattern that was found
in a text is found at the same place in every extension of the text.
-/

namespace Ucmq.TextSearch

variable {α β : Type*} [DecidableEq β] {f : α → β} {pat u v : List α} {n : ℕ}

/-- The pattern stands at the front of the text. -/
def Stands (f : α → β) (pat s : List α) : Prop := pat.map f <+: s.map f

instance (f : α → β) (pat s : List α) : Decidable (Stands f pat s) :=
  inferInstanceAs (Decidable (_ <+: _))

/-- Offset of the first occurrence of the pattern. -/
def find (f : α → β) (pat : List α) : List α → Option ℕ
  | [] => if Stands f pat [] then some 0 else none
  | c :: s => if Stands f pat (c :: s) then some 0 else (find f pat s).map (·+1)

omit [DecidableEq β] in
/-- An occurrence stays one when the text goes on. -/
theorem Stands.append (h : Stands f pat u) (v : List α) : Stands f pat (u ++ v) := by
  unfold Stands at h ⊢
  rw [List.map_append]
  exact h.trans (List.prefix_append _ _)

omit [DecidableEq β] in
/-- An occurrence that ends inside the first part of a text is one in it. -/
theorem Stands.of_append (h : Stands f pat (u ++ v)) (hl : pat.length ≤ u.length) :
    Stands f pat u := by
  unfold Stands at h ⊢
  rw [List.map_append] at h
  exact List.prefix_of_prefix_length_le h (List.prefix_append _ _) (by simpa using hl)

omit [DecidableEq β] in
/-- A text is no shorter than what stands in it. -/
theorem Stands.length_le (h : Stands f pat u) : pat.length ≤ u.length := by
  have := List.IsPrefix.length_le h
  simpa using this

/-- The offset found is that of the first occurrence. -/
theorem find_eq_some : find f pat u = some n ↔
    n ≤ u.length ∧ Stands f pat (u.drop n) ∧ ∀ m < n, ¬Stands f pat (u.drop m) := by
  induction u generalizing n with
  | nil =>
    unfold find
    split_ifs with h
    · constructor
      · rintro ⟨⟩
        exact ⟨le_rfl, h, by simp⟩
      · rintro ⟨hn, -, -⟩
        rw [Nat.le_zero.mp hn]
    · simp [h]
  | cons c u ih =>
    unfold find
    split_ifs with h
    · constructor
      · rintro ⟨⟩
        exact ⟨Nat.zero_le _, h, by simp⟩
      · rintro ⟨-, -, hm⟩
        cases n with
        | zero => rfl
        | succ n => exact absurd h (hm 0 (Nat.succ_pos n))
    · cases n with
      | zero => simp [h]
      | succ n =>
        have hmap : (find f pat u).map (·+1) = some (n+1) ↔ find f pat u = some n := by
          cases find f pat u <;> simp
        rw [hmap, ih]
        constructor
        · rintro ⟨hn, hs, hm⟩
          refine ⟨by simpa using hn, by simpa using hs, ?_⟩
          intro m hlt
          cases m with
          | zero => exact h
          | succ m => simpa using hm m (by omega)
        · rintro ⟨hn, hs, hm⟩
          exact ⟨by simpa using hn, by simpa using hs,
            fun m hlt => by simpa using hm (m+1) (by omega)⟩

/-- An occurrence is found, there or before. -/
theorem exists_find_le (h : Stands f pat (u.drop n)) (hn : n ≤ u.length) :
    ∃ m ≤ n, find f pat u = some m := by
  induction u generalizing n with
  | nil =>
    rw [List.drop_nil] at h
    exact ⟨0, Nat.zero_le n, by rw [find, if_pos h]⟩
  | cons c u ih =>
    by_cases hc : Stands f pat (c :: u)
    · exact ⟨0, Nat.zero_le n, by rw [find, if_pos hc]⟩
    · cases n with
      | zero => exact absurd h hc
      | succ n =>
        obtain ⟨m, hm, hf⟩ := ih h (Nat.le_of_succ_le_succ hn)
        exact ⟨m+1, Nat.succ_le_succ hm, by rw [find, if_neg hc, hf, Option.map_some]⟩

/-- The pattern found lies inside the text. -/
theorem find_add_length_le (h : find f pat u = some n) : n+pat.length ≤ u.length := by
  obtain ⟨hn, hs, -⟩ := find_eq_some.mp h
  have hl := hs.length_le
  rw [List.length_drop] at hl
  omega

/-- A longer text has its first occurrence where the shorter one has it. -/
theorem find_append (h : find f pat u = some n) (v : List α) : find f pat (u ++ v) = some n := by
  have hl := find_add_length_le h
  obtain ⟨hn, hs, hm⟩ := find_eq_some.mp h
  refine find_eq_some.mpr ⟨by rw [List.length_append]; omega, ?_, ?_⟩
  · rw [List.drop_append_of_le_length hn]
    exact hs.append v
  · intro m hlt hst
    rw [List.drop_append_of_le_length (by omega)] at hst
    exact hm m hlt (hst.of_append (by rw [List.length_drop]; omega))

/-- A part of the text that holds no beginning of an occurrence is passed over. -/
theorem find_skip (h : ∀ m < u.length, ¬Stands f pat ((u ++ v).drop m)) :
    find f pat (u ++ v) = (find f pat v).map (·+u.length) := by
  induction u with
  | nil => simp
  | cons c u ih =>
    have h₀ := h 0 (by simp)
    have hu := ih fun m hlt => by simpa using h (m+1) (by simpa using hlt)
    rw [List.cons_append, find, if_neg (by simpa using h₀), hu, Option.map_map]
    congr 1

end Ucmq.TextSearch
