import Mathlib.Data.List.Basic
import Mathlib.Order.Nat
import Mathlib.Tactic.Common

/-!
# Traces of a deterministic machine with outputs

A machine either stops in a state or takes one step, which may emit an output.
Traces record every output with the state it was emitted in, so that outputs
are told apart also when their values are equal. Two traces from one state
extend each other, and a machine whose rank decreases stops.
-/

namespace Ucmq.OutputTrace

variable {σ τ β : Type*}

/-- Finite traces of a machine from a state to a state. -/
inductive Trace (step : σ → Option (Option β × σ)) : σ → List (σ × β) → σ → Prop
  | nil (s : σ) : Trace step s [] s
  | silent {s t u : σ} {o : List (σ × β)} (hs : step s = some (none, t)) (h : Trace step t o u) :
      Trace step s o u
  | emit {s t u : σ} {b : β} {o : List (σ × β)} (hs : step s = some (some b, t))
      (h : Trace step t o u) : Trace step s ((s, b) :: o) u

variable {step : σ → Option (Option β × σ)} {s t u t₁ t₂ : σ} {o o₁ o₂ : List (σ × β)} {b : β}

/-- Traces are joined. -/
theorem Trace.trans (h : Trace step s o₁ t) (h' : Trace step t o₂ u) :
    Trace step s (o₁ ++ o₂) u := by
  induction h with
  | nil => exact h'
  | silent hs _ ih => exact .silent hs (ih h')
  | emit hs _ ih => exact .emit hs (ih h')

/-- One of two traces from a state goes on where the other one ends. -/
theorem Trace.comparable (h₁ : Trace step s o₁ t₁) (h₂ : Trace step s o₂ t₂) :
    (∃ o, Trace step t₁ o t₂ ∧ o₂ = o₁ ++ o) ∨ ∃ o, Trace step t₂ o t₁ ∧ o₁ = o₂ ++ o := by
  induction h₁ generalizing o₂ with
  | nil => exact Or.inl ⟨o₂, h₂, rfl⟩
  | silent hs h₁ ih =>
    cases h₂ with
    | nil => exact Or.inr ⟨_, .silent hs h₁, rfl⟩
    | silent hs' h₂ =>
      obtain ⟨-, rfl⟩ := Prod.mk.inj (Option.some.inj (hs.symm.trans hs'))
      exact ih h₂
    | emit hs' h₂ => cases hs.symm.trans hs'
  | emit hs h₁ ih =>
    cases h₂ with
    | nil => exact Or.inr ⟨_, .emit hs h₁, rfl⟩
    | silent hs' h₂ => cases hs.symm.trans hs'
    | emit hs' h₂ =>
      cases hs.symm.trans hs'
      rcases ih h₂ with ⟨o, ho, rfl⟩ | ⟨o, ho, rfl⟩
      · exact Or.inl ⟨o, ho, rfl⟩
      · exact Or.inr ⟨o, ho, rfl⟩

/-- A trace from a state in which the machine stops is empty. -/
theorem Trace.of_stopped (h : Trace step s o t) (hs : step s = none) : o = [] ∧ t = s := by
  cases h with
  | nil => exact ⟨rfl, rfl⟩
  | silent hs' => cases hs.symm.trans hs'
  | emit hs' => cases hs.symm.trans hs'

/-- The outputs until the machine stops are determined. -/
theorem Trace.unique (h₁ : Trace step s o₁ t₁) (h₂ : Trace step s o₂ t₂) (ht₁ : step t₁ = none)
    (ht₂ : step t₂ = none) : o₁ = o₂ ∧ t₁ = t₂ := by
  rcases h₁.comparable h₂ with ⟨o, ho, rfl⟩ | ⟨o, ho, rfl⟩
  · obtain ⟨rfl, rfl⟩ := ho.of_stopped ht₁
    exact ⟨by simp, rfl⟩
  · obtain ⟨rfl, rfl⟩ := ho.of_stopped ht₂
    exact ⟨by simp, rfl⟩

/-- A trace passes through the state in which an output was emitted. -/
theorem Trace.of_mem (h : Trace step s o t) (hm : (u, b) ∈ o) :
    ∃ o₁ o₂ v, Trace step s o₁ u ∧ step u = some (some b, v) ∧ Trace step v o₂ t := by
  induction h with
  | nil => exact absurd hm List.not_mem_nil
  | silent hs _ ih =>
    obtain ⟨o₁, o₂, v, h₁, hu, h₂⟩ := ih hm
    exact ⟨o₁, o₂, v, .silent hs h₁, hu, h₂⟩
  | emit hs h ih =>
    rcases List.mem_cons.mp hm with heq | hm
    · cases heq
      exact ⟨[], _, _, .nil _, hs, h⟩
    · obtain ⟨o₁, o₂, v, h₁, hu, h₂⟩ := ih hm
      exact ⟨_, o₂, v, .emit hs h₁, hu, h₂⟩

/-- A trace to another state starts with a step. -/
theorem Trace.first (h : Trace step s o t) (hne : s ≠ t) :
    ∃ x u o', step s = some (x, u) ∧ Trace step u o' t := by
  cases h with
  | nil => exact absurd rfl hne
  | silent hs h => exact ⟨_, _, _, hs, h⟩
  | emit hs h => exact ⟨_, _, _, hs, h⟩

/-- Traces of a machine are traces of every machine that takes the same steps
as long as the trace lasts. -/
theorem Trace.map {step' : τ → Option (Option β × τ)} {f : σ → τ} {P : σ → Prop}
    (h : Trace step s o t)
    (hstep : ∀ s x t, P t → step s = some (x, t) → P s ∧ step' (f s) = some (x, f t)) (ht : P t) :
    P s ∧ Trace step' (f s) (o.map fun x => (f x.1, x.2)) (f t) := by
  induction h with
  | nil => exact ⟨ht, .nil _⟩
  | silent hs _ ih =>
    obtain ⟨hp, htr⟩ := ih ht
    obtain ⟨hps, hs'⟩ := hstep _ _ _ hp hs
    exact ⟨hps, .silent hs' htr⟩
  | emit hs _ ih =>
    obtain ⟨hp, htr⟩ := ih ht
    obtain ⟨hps, hs'⟩ := hstep _ _ _ hp hs
    exact ⟨hps, .emit hs' htr⟩

section rank

variable {P : σ → Prop} {rank : σ → ℕ}

/-- A rank that every step decreases does not increase along a trace. -/
theorem Trace.rank_le (hstep : ∀ s x t, P s → step s = some (x, t) → P t ∧ rank t < rank s)
    (h : Trace step s o t) (hs : P s) : P t ∧ rank t ≤ rank s := by
  induction h with
  | nil => exact ⟨hs, le_rfl⟩
  | silent hs' _ ih =>
    obtain ⟨hp, hlt⟩ := hstep _ _ _ hs hs'
    obtain ⟨hp', hle⟩ := ih hp
    exact ⟨hp', by omega⟩
  | emit hs' _ ih =>
    obtain ⟨hp, hlt⟩ := hstep _ _ _ hs hs'
    obtain ⟨hp', hle⟩ := ih hp
    exact ⟨hp', by omega⟩

/-- An output costs at least one step. -/
theorem Trace.rank_lt (hstep : ∀ s x t, P s → step s = some (x, t) → P t ∧ rank t < rank s)
    (h : Trace step s o t) (hs : P s) (ho : o ≠ []) : rank t < rank s := by
  have hfirst : ∀ {x u o'}, step s = some (x, u) → Trace step u o' t → rank t < rank s := by
    intro x u o' hs' h'
    obtain ⟨hp, hlt⟩ := hstep _ _ _ hs hs'
    exact (h'.rank_le hstep hp).2.trans_lt hlt
  cases h with
  | nil => exact absurd rfl ho
  | silent hs' h' => exact hfirst hs' h'
  | emit hs' h' => exact hfirst hs' h'

/-- A machine with such a rank stops. -/
theorem exists_stopped (rank : σ → ℕ)
    (hstep : ∀ s x t, P s → step s = some (x, t) → P t ∧ rank t < rank s) (hs : P s) :
    ∃ o t, Trace step s o t ∧ step t = none := by
  induction hr : rank s using Nat.strongRecOn generalizing s with
  | _ n ih =>
    cases hnext : step s with
    | none => exact ⟨[], s, .nil s, hnext⟩
    | some x =>
      obtain ⟨x, t⟩ := x
      obtain ⟨hp, hlt⟩ := hstep s x t hs hnext
      obtain ⟨o, u, ho, hu⟩ := ih (rank t) (by omega) hp rfl
      cases x with
      | none => exact ⟨o, u, .silent hnext ho, hu⟩
      | some b => exact ⟨_, u, .emit hnext ho, hu⟩

end rank

end Ucmq.OutputTrace
