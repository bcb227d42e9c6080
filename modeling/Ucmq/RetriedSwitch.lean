import Mathlib.Data.List.Induction
import Ucmq.LabelledRun

/-!
# A switch that is tried again

A machine is given a key with every input and switches at a key other than that of
its last switch. A switch can fail, and is then tried again at the next input. A key
is tried whatever became of the earlier tries exactly when it was not given before.
-/

namespace Ucmq.RetriedSwitch

open LabelledRun

variable {κ α γ δ : Type*}

/-- Key of the last switch that succeeded, and the number of tries so far. -/
structure Switch (κ : Type*) where
  key : κ
  tries : ℕ

variable [DecidableEq κ] {opens : ℕ → Bool} {k k₀ : κ} {ks : List κ} {s : Switch κ}

/-- Try a switch unless the key is the kept one, and say whether it was tried. -/
def switchStep (opens : ℕ → Bool) (k : κ) (s : Switch κ) : Bool × Switch κ :=
  if k ≠ s.key then (true, ⟨if opens s.tries then k else s.key, s.tries+1⟩) else (false, s)

/-- Another key is tried. -/
theorem switchStep_new (h : k ≠ s.key) :
    switchStep opens k s = (true, ⟨if opens s.tries then k else s.key, s.tries+1⟩) := if_pos h

/-- The same key is not. -/
theorem switchStep_kept (h : k = s.key) : switchStep opens k s = (false, s) :=
  if_neg (not_not.mpr h)

/-- Which keys are tried. -/
theorem switchStep_tried : (switchStep opens k s).1 = true ↔ k ≠ s.key := by
  by_cases h : k = s.key
  · rw [switchStep_kept h]
    exact iff_of_false Bool.false_ne_true (not_not.mpr h)
  · rw [switchStep_new h]
    exact iff_of_true rfl h

/-- The kept key is the first one or was given. -/
theorem key_mem (opens : ℕ → Bool) (ks : List κ) (s : Switch κ) :
    (stateAfter (switchStep opens) ks s).key ∈ s.key :: ks := by
  induction ks generalizing s with
  | nil => exact List.mem_cons_self
  | cons k ks ih =>
    have hkey : (switchStep opens k s).2.key = s.key ∨ (switchStep opens k s).2.key = k := by
      by_cases h : k = s.key
      · rw [switchStep_kept h]
        exact .inl rfl
      · rw [switchStep_new h]
        cases opens s.tries with
        | false => exact .inl rfl
        | true => exact .inr rfl
    rcases List.mem_cons.mp (ih (switchStep opens k s).2) with h | h
    · rcases hkey with hk | hk
      · exact List.mem_cons.mpr (.inl (h.trans hk))
      · exact List.mem_cons_of_mem _ (List.mem_cons.mpr (.inl (h.trans hk)))
    · exact List.mem_cons_of_mem _ (List.mem_cons_of_mem _ h)

/-- The kept key stays while the tries fail. -/
theorem key_of_failed (hfail : ∀ n, s.tries ≤ n → opens n = false) (ks : List κ) :
    (stateAfter (switchStep opens) ks s).key = s.key := by
  induction ks generalizing s with
  | nil => rfl
  | cons k ks ih =>
    rw [stateAfter_cons]
    by_cases h : k = s.key
    · rw [switchStep_kept h]
      exact ih hfail
    · have hstep : (switchStep opens k s).2 = ⟨s.key, s.tries+1⟩ := by
        rw [switchStep_new h, hfail s.tries (Nat.le_refl _)]
        rfl
      rw [hstep]
      exact @ih ⟨s.key, s.tries+1⟩ fun n hn => hfail n (Nat.le_of_succ_le hn)

/-- Failed tries at keys other than the kept one are counted. -/
theorem state_of_failed (hfail : ∀ n < s.tries+ks.length, opens n = false) (hks : s.key ∉ ks) :
    stateAfter (switchStep opens) ks s = ⟨s.key, s.tries+ks.length⟩ := by
  induction ks generalizing s with
  | nil => rfl
  | cons k ks ih =>
    rw [List.mem_cons, not_or] at hks
    rw [List.length_cons, show s.tries+(ks.length+1) = s.tries+1+ks.length by omega] at hfail ⊢
    have hstep : (switchStep opens k s).2 = ⟨s.key, s.tries+1⟩ := by
      rw [switchStep_new (Ne.symm hks.1), hfail s.tries (by omega)]
      rfl
    rw [stateAfter_cons, hstep]
    exact @ih ⟨s.key, s.tries+1⟩ hfail hks.2

/-- A key other than the first one is tried whatever became of the earlier tries
exactly when it was not given before. -/
theorem tried_iff_new (hfirst : k₀ ∉ ks) (hk : k ≠ k₀) :
    (∀ opens, (switchStep opens k (stateAfter (switchStep opens) ks ⟨k₀, 0⟩)).1 = true) ↔
    k ∉ ks := by
  constructor
  · intro h hmem
    obtain ⟨as, bs, rfl⟩ := List.append_of_mem hmem
    -- the try at the earlier input succeeds, and no other one
    let opens : ℕ → Bool := fun n => decide (n = as.length)
    have has : k₀ ∉ as := fun hm => hfirst (List.mem_append_left _ hm)
    have hbefore : stateAfter (switchStep opens) as ⟨k₀, 0⟩ = ⟨k₀, 0+as.length⟩ := by
      refine state_of_failed (fun n hn => ?_) has
      exact decide_eq_false (by simpa using Nat.ne_of_lt hn)
    have hswitch : (switchStep opens k ⟨k₀, 0+as.length⟩).2 = ⟨k, as.length+1⟩ := by
      rw [switchStep_new hk]
      simp [opens]
    have hkept : (stateAfter (switchStep opens) (as ++ k :: bs) ⟨k₀, 0⟩).key = k := by
      rw [stateAfter_append, hbefore, stateAfter_cons, hswitch]
      exact @key_of_failed _ _ opens ⟨k, as.length+1⟩
        (fun n hn => decide_eq_false (Nat.ne_of_gt hn)) bs
    exact switchStep_tried.mp (h opens) hkept.symm
  · intro hnew opens
    rw [switchStep_tried]
    intro he
    rcases List.mem_cons.mp (key_mem opens ks ⟨k₀, 0⟩) with h | h
    · exact hk (he.trans h)
    · exact hnew (he ▸ h)

/-- Inputs with the same key are of the same class exactly when the first input of
each class has a key that was not given before. -/
theorem same_class_iff_first {num : α → γ} {cls : α → δ}
    (hnum : ∀ a b, cls a = cls b → num a = num b) (as : List α) :
    (∀ a ∈ as, ∀ b ∈ as, num a = num b → cls a = cls b) ↔
      ∀ pre a post, as = pre ++ a :: post → (∀ b ∈ pre, cls b ≠ cls a) → num a ∉ pre.map num := by
  constructor
  · rintro h pre a post rfl hfirst hmem
    obtain ⟨b, hb, hba⟩ := List.mem_map.mp hmem
    exact hfirst b hb (h b (List.mem_append_left _ hb) a (by simp) hba)
  · intro h
    induction as using List.reverseRecOn with
    | nil => simp
    | append_singleton as c ih =>
      have hbefore := ih fun pre b post he hfirst => h pre b (post ++ [c]) (by simp [he]) hfirst
      have hlast : ∀ a ∈ as, num a = num c → cls a = cls c := by
        intro a ha hac
        by_contra hne
        refine h as c [] rfl (fun b hb hbc => ?_) (List.mem_map.mpr ⟨a, ha, hac⟩)
        -- another input of the class was given before, and has the same key
        exact hne ((hbefore a ha b hb (hac.trans (hnum b c hbc).symm)).trans hbc)
      intro a ha b hb hab
      rw [List.mem_append, List.mem_singleton] at ha hb
      rcases ha with ha | rfl
      · rcases hb with hb | rfl
        · exact hbefore a ha b hb hab
        · exact hlast a ha hab
      · rcases hb with hb | rfl
        · exact (hlast b hb hab.symm).symm
        · rfl

end Ucmq.RetriedSwitch
