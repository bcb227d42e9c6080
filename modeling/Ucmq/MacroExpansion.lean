import Mathlib.Data.List.Infix
import Mathlib.Logic.Relation
import Mathlib.Tactic.Common

/-!
# Textual expansion of references

A reference is a name between two marks. Reading a text from left to right, an
opening mark begins a name, which may itself hold references, and a closing mark
replaces the innermost reference by the value of its name; reading goes on at
the value. There is no limit here: the expansion of a text is what is written
when all of it has been read. A text from which references lead round to
themselves is never read to its end.
-/

namespace Ucmq.MacroExpansion

/-- The marks of a reference: two characters open it, one closes it. -/
structure Marks (α : Type*) where
  /-- First opening character. -/
  lead : α
  /-- Second opening character. -/
  left : α
  /-- Closing character. -/
  right : α
  lead_ne_left : lead ≠ left
  lead_ne_right : lead ≠ right
  left_ne_right : left ≠ right

variable {α : Type*}

/-- The text read in the innermost reference and in those around it, and the text
to come. -/
structure State (α : Type*) where
  /-- Text read, innermost reference first; the last one is outside of all. -/
  names : List (List α)
  /-- Text to come. -/
  rest : List α

/-- One step of reading. -/
inductive Step (M : Marks α) (find : List α → Option (List α)) : State α → State α → Prop
  | opens (σ : List (List α)) (r : List α) : Step M find ⟨σ, M.lead :: M.left :: r⟩ ⟨[] :: σ, r⟩
  | closes {u v : List α} (w : List α) (σ : List (List α)) (r : List α) (h : find u = some v) :
      Step M find ⟨u :: w :: σ, M.right :: r⟩ ⟨w :: σ, v ++ r⟩
  | reads (u : List α) {σ : List (List α)} {c : α} {r : List α}
      (hopen : ¬(c = M.lead ∧ r.head? = some M.left)) (hclose : c = M.right → σ = []) :
      Step M find ⟨u :: σ, c :: r⟩ ⟨(u ++ [c]) :: σ, r⟩

/-- Any number of steps. -/
abbrev Steps (M : Marks α) (find : List α → Option (List α)) : State α → State α → Prop :=
  Relation.ReflTransGen (Step M find)

/-- Text that stands where it was read, with the marks of open references. -/
def written (M : Marks α) : List (List α) → List α
  | [] => []
  | [u] => u
  | u :: w :: σ => written M (w :: σ) ++ M.lead :: M.left :: u

/-- The text is read to its end, and this is written then. -/
def Expands (M : Marks α) (find : List α → Option (List α)) (v text : List α) : Prop :=
  ∃ σ, Steps M find ⟨[[]], v⟩ ⟨σ, []⟩ ∧ written M σ = text

/-- Reading goes on for ever. -/
def Endless (M : Marks α) (find : List α → Option (List α)) (v : List α) : Prop :=
  ∃ run : ℕ → State α, run 0 = ⟨[[]], v⟩ ∧ ∀ n, Step M find (run n) (run (n+1))

/-- A name without marks. -/
def Plain (M : Marks α) (k : List α) : Prop := M.right ∉ k ∧ ¬[M.lead, M.left] <:+: k

/-- A reference to a name stands in the text. -/
def Refers (M : Marks α) (v k : List α) : Prop :=
  ∃ pre post, v = pre ++ M.lead :: M.left :: (k ++ M.right :: post) ∧ Plain M k

/-- The value of a name refers to another one. -/
def Uses (M : Marks α) (find : List α → Option (List α)) (k k' : List α) : Prop :=
  ∃ v, find k = some v ∧ Refers M v k'

/-- Values lead from the name round to itself again. -/
def OnCycle (M : Marks α) (find : List α → Option (List α)) (k : List α) : Prop :=
  ∃ c, Relation.ReflTransGen (Uses M find) k c ∧ Relation.TransGen (Uses M find) c c

/-- A reference in the text leads to a cycle. -/
def ReachesCycle (M : Marks α) (find : List α → Option (List α)) (v : List α) : Prop :=
  ∃ k, Refers M v k ∧ OnCycle M find k

variable {M : Marks α} {find : List α → Option (List α)}

/-- An outermost text is written before the opening marks of the others. -/
theorem written_concat {σ : List (List α)} (h : σ ≠ []) (u : List α) :
    written M (σ ++ [u]) = u ++ M.lead :: M.left :: written M σ := by
  induction σ with
  | nil => exact absurd rfl h
  | cons w σ ih =>
    cases σ with
    | nil => rfl
    | cons x σ =>
      have hih := ih (List.cons_ne_nil _ _)
      rw [List.cons_append, List.cons_append, written, ← List.cons_append, hih, written]
      simp only [List.append_assoc, List.cons_append]

/-- There is one way to read on. -/
theorem Step.unique {s t t' : State α} (h : Step M find s t) (h' : Step M find s t') : t = t' := by
  cases h with
  | opens σ r =>
    generalize hs : (⟨σ, M.lead :: M.left :: r⟩ : State α) = s' at h'
    cases h' with
    | opens σ' r' =>
      obtain ⟨rfl, hr⟩ := State.mk.inj hs
      rw [(List.cons.inj (List.cons.inj hr).2).2]
    | closes w' σ' r' hfind => exact absurd (List.cons.inj (State.mk.inj hs).2).1 M.lead_ne_right
    | reads u' hopen hclose =>
      obtain ⟨rfl, rfl⟩ := List.cons.inj (State.mk.inj hs).2
      exact absurd ⟨rfl, rfl⟩ hopen
  | @closes u v w σ r hfind =>
    generalize hs : (⟨u :: w :: σ, M.right :: r⟩ : State α) = s' at h'
    cases h' with
    | opens σ' r' => exact absurd (List.cons.inj (State.mk.inj hs).2).1.symm M.lead_ne_right
    | closes w' σ' r' hfind' =>
      obtain ⟨hn, hr⟩ := State.mk.inj hs
      obtain ⟨rfl, hn'⟩ := List.cons.inj hn
      obtain ⟨rfl, rfl⟩ := List.cons.inj hn'
      rw [(List.cons.inj hr).2, Option.some.inj (hfind.symm.trans hfind')]
    | reads u' hopen hclose =>
      obtain ⟨hn, hr⟩ := State.mk.inj hs
      exact absurd ((List.cons.inj hn).2.trans (hclose (List.cons.inj hr).1.symm))
        (List.cons_ne_nil _ _)
  | @reads u σ c r hopen hclose =>
    generalize hs : (⟨u :: σ, c :: r⟩ : State α) = s' at h'
    cases h' with
    | opens σ' r' =>
      obtain ⟨rfl, rfl⟩ := List.cons.inj (State.mk.inj hs).2
      exact absurd ⟨rfl, rfl⟩ hopen
    | closes w' σ' r' hfind =>
      obtain ⟨hn, hr⟩ := State.mk.inj hs
      exact absurd ((List.cons.inj hn).2.symm.trans (hclose (List.cons.inj hr).1))
        (List.cons_ne_nil _ _)
    | reads u' hopen' hclose' =>
      obtain ⟨hn, hr⟩ := State.mk.inj hs
      obtain ⟨rfl, rfl⟩ := List.cons.inj hn
      obtain ⟨rfl, rfl⟩ := List.cons.inj hr
      rfl

/-- What is read to its end is not read for ever. -/
theorem not_expands_of_endless {v text : List α} (h : Endless M find v) :
    ¬Expands M find v text := by
  rintro ⟨σ, hsteps, -⟩
  obtain ⟨run, hstart, hrun⟩ := h
  have hend : ∀ {s}, Steps M find s ⟨σ, []⟩ → ∀ n, run n = s → ∃ m, run m = ⟨σ, []⟩ := by
    intro s hs
    induction hs using Relation.ReflTransGen.head_induction_on with
    | refl => exact fun n hn => ⟨n, hn⟩
    | head hab _ ih =>
      intro n hn
      exact ih (n+1) ((hn ▸ hrun n).unique hab)
  obtain ⟨m, hm⟩ := hend hsteps 0 hstart
  obtain ⟨t, hstep⟩ : ∃ t, Step M find ⟨σ, []⟩ t := ⟨run (m+1), hm ▸ hrun m⟩
  cases hstep

section Cycle

variable {S : Set (List α)} {s t : State α}

/-- A reference to one of the names is to come, or is being read. -/
def Pending (M : Marks α) (S : Set (List α)) (s : State α) : Prop :=
  s.names ≠ [] ∧ ((∃ k ∈ S, Refers M s.rest k) ∨
    ∃ u w σ k post, s.names = u :: w :: σ ∧ s.rest = k ++ M.right :: post ∧ u ++ k ∈ S ∧
      Plain M (u ++ k))

/-- A reference stays with text behind it. -/
theorem Refers.append {v k : List α} (h : Refers M v k) (r : List α) : Refers M (v ++ r) k := by
  obtain ⟨pre, post, rfl, hk⟩ := h
  exact ⟨pre, post ++ r, by simp only [List.append_assoc, List.cons_append], hk⟩

/-- A reference stays with text in front of it. -/
theorem Refers.prepend {v k : List α} (h : Refers M v k) (r : List α) : Refers M (r ++ v) k := by
  obtain ⟨pre, post, rfl, hk⟩ := h
  exact ⟨r ++ pre, post, by simp only [List.append_assoc], hk⟩

/-- A text that begins with another character refers to the names that the rest
refers to. -/
theorem Refers.of_cons {c : α} {r k : List α} (h : Refers M (c :: r) k)
    (hc : ¬(c = M.lead ∧ r.head? = some M.left)) : Refers M r k := by
  obtain ⟨pre, post, he, hk⟩ := h
  cases pre with
  | nil =>
    obtain ⟨rfl, rfl⟩ := List.cons.inj he
    exact absurd ⟨rfl, rfl⟩ hc
  | cons d pre => exact ⟨pre, post, (List.cons.inj he).2, hk⟩

/-- Behind an opening mark either the name referred to begins or the reference is
still to come. -/
theorem Refers.of_open {r k : List α} (h : Refers M (M.lead :: M.left :: r) k) :
    Refers M r k ∨ ∃ post, r = k ++ M.right :: post ∧ Plain M k := by
  obtain ⟨pre, post, he, hk⟩ := h
  cases pre with
  | nil => exact .inr ⟨post, (List.cons.inj (List.cons.inj he).2).2, hk⟩
  | cons d pre =>
    cases pre with
    | nil => exact absurd (List.cons.inj (List.cons.inj he).2).1.symm M.lead_ne_left
    | cons e pre => exact .inl ⟨pre, post, (List.cons.inj (List.cons.inj he).2).2, hk⟩

/-- While the values of the names refer to such names again, each step leaves
such a reference. -/
theorem Pending.step (hS : ∀ k ∈ S, ∀ v, find k = some v → ∃ k' ∈ S, Refers M v k')
    (h : Pending M S s) (hst : Step M find s t) : Pending M S t := by
  obtain ⟨hne, ⟨k, hk, href⟩ | ⟨u, w, σ, k, post, hnames, hrest, hk, hplain⟩⟩ := h
  · cases hst with
    | opens σ r =>
      refine ⟨List.cons_ne_nil _ _, ?_⟩
      rcases href.of_open with hr | ⟨post, rfl, hplain⟩
      · exact .inl ⟨k, hk, hr⟩
      · obtain ⟨w, σ, rfl⟩ := List.exists_cons_of_ne_nil hne
        exact .inr ⟨[], w, σ, k, post, rfl, rfl, hk, hplain⟩
    | closes w σ r hfind =>
      have hr : Refers M r k := href.of_cons fun hc => M.lead_ne_right hc.1.symm
      exact ⟨List.cons_ne_nil _ _, .inl ⟨k, hk, hr.prepend _⟩⟩
    | reads u hopen hclose => exact ⟨List.cons_ne_nil _ _, .inl ⟨k, hk, href.of_cons hopen⟩⟩
  · cases hst with
    | opens σ' r =>
      -- a name without marks has no opening mark in it or before its end
      exfalso
      cases k with
      | nil => exact M.lead_ne_right (List.cons.inj hrest).1
      | cons c k =>
        obtain ⟨rfl, hr⟩ := List.cons.inj hrest
        cases k with
        | nil => exact M.left_ne_right (List.cons.inj hr).1
        | cons d k =>
          obtain ⟨rfl, -⟩ := List.cons.inj hr
          exact hplain.2 ⟨u, k, by simp⟩
    | closes w' σ' r hfind =>
      obtain ⟨rfl, hσ⟩ := List.cons.inj hnames
      cases k with
      | nil =>
        rw [List.append_nil] at hk
        obtain ⟨k', hk', href⟩ := hS _ hk _ hfind
        exact ⟨List.cons_ne_nil _ _, .inl ⟨k', hk', href.append _⟩⟩
      | cons c k =>
        obtain ⟨rfl, -⟩ := List.cons.inj hrest
        exact absurd (List.mem_append_right _ List.mem_cons_self) hplain.1
    | reads u' hopen hclose =>
      obtain ⟨rfl, rfl⟩ := List.cons.inj hnames
      cases k with
      | nil => exact absurd (hclose (List.cons.inj hrest).1) (List.cons_ne_nil _ _)
      | cons c k =>
        obtain ⟨rfl, rfl⟩ := List.cons.inj hrest
        refine ⟨List.cons_ne_nil _ _, .inr ⟨_, w, σ, k, post, rfl, rfl, ?_, ?_⟩⟩
        · rwa [List.append_assoc]
        · rwa [List.append_assoc]

/-- A reference stays pending. -/
theorem Pending.steps (hS : ∀ k ∈ S, ∀ v, find k = some v → ∃ k' ∈ S, Refers M v k')
    (h : Pending M S s) (hst : Steps M find s t) : Pending M S t := by
  induction hst with
  | refl => exact h
  | tail _ hst ih => exact ih.step hS hst

/-- A text that refers to such a name is never read to its end. -/
theorem not_expands_of_refers (hS : ∀ k ∈ S, ∀ v, find k = some v → ∃ k' ∈ S, Refers M v k')
    {v text k : List α} (hk : k ∈ S) (h : Refers M v k) : ¬Expands M find v text := by
  rintro ⟨σ, hsteps, -⟩
  have hpending : Pending M S ⟨σ, []⟩ :=
    Pending.steps hS ⟨List.cons_ne_nil _ _, .inl ⟨k, hk, h⟩⟩ hsteps
  obtain ⟨-, ⟨k', -, pre, post, he, -⟩ | ⟨u, w, τ, k', post, -, he, -⟩⟩ := hpending
  · exact absurd he (by simp)
  · exact absurd he (by simp)

/-- From a name that leads to a cycle the values lead on to another one. -/
theorem OnCycle.uses {k : List α} (h : OnCycle M find k) : ∃ k', Uses M find k k' ∧
    OnCycle M find k' := by
  obtain ⟨c, hkc, hcc⟩ := h
  obtain ⟨k', huses, hrest⟩ := Relation.TransGen.head'_iff.mp (hcc.trans_right hkc)
  exact ⟨k', huses, c, hrest, hcc⟩

/-- The names that lead to a cycle have values that refer to such names. -/
theorem OnCycle.refers {k v : List α} (h : OnCycle M find k) (hv : find k = some v) :
    ∃ k', OnCycle M find k' ∧ Refers M v k' := by
  obtain ⟨k', ⟨v', hv', href⟩, hk'⟩ := h.uses
  obtain rfl : v' = v := Option.some.inj (hv'.symm.trans hv)
  exact ⟨k', hk', href⟩

/-- A change of other values leaves the cycles. -/
theorem OnCycle.congr {find' : List α → Option (List α)}
    (hfind : ∀ k, OnCycle M find k → find' k = find k) {k : List α}
    (h : OnCycle M find k) : OnCycle M find' k := by
  obtain ⟨c, hkc, hcc⟩ := h
  have huses : ∀ {a b}, Relation.ReflTransGen (Uses M find) a c → Uses M find a b →
      Uses M find' a b := by
    rintro a b hac ⟨v, hv, href⟩
    exact ⟨v, (hfind a ⟨c, hac, hcc⟩).trans hv, href⟩
  refine ⟨c, ?_, ?_⟩
  · induction hkc using Relation.ReflTransGen.head_induction_on with
    | refl => exact .refl
    | head hab hbc ih => exact .head (huses (.head hab hbc) hab) ih
  · have hcycle : ∀ {a}, Relation.TransGen (Uses M find) a c →
        Relation.TransGen (Uses M find') a c := by
      intro a hac
      induction hac using Relation.TransGen.head_induction_on with
      | single hac => exact .single (huses (.single hac) hac)
      | head hab hbc ih => exact .head (huses (.head hab hbc.to_reflTransGen) hab) ih
    exact hcycle hcc

/-- A text from which references lead to a cycle is never read to its end. -/
theorem not_expands_of_reachesCycle {v text : List α} (h : ReachesCycle M find v) :
    ¬Expands M find v text := by
  obtain ⟨k, href, hk⟩ := h
  exact not_expands_of_refers (S := {k | OnCycle M find k}) (fun _ hk _ hv => hk.refers hv) hk href

end Cycle

end Ucmq.MacroExpansion
