import Ucmq.ClientMessage

/-!
# The servers that a request visits

The lookup order is a permutation of the servers, shuffled or not, and the loop
walks along it up to the first exchange that is completed. No server is visited
twice, all of them are visited when all exchanges fail, and the index is that of
the last one.
-/

namespace Ucmq.FailoverVisits

open MqClient ClientMessage

/-- What in_mq_operate gives for the servers of an order, each called with what
the exchanges before it leave. -/
def outcomes (contact : ℕ → Contact) : List ℕ → MqReturn → List (ℕ × Bool)
  | [], _ => []
  | i :: order, ret =>
    (i, (inMqOperate (contact i) ret).1) :: outcomes contact order (inMqOperate (contact i) ret).2

/-- Fail-over over the outcomes that the servers have at their turns. -/
structure FailsOver (count : ℕ) (outcomes : List (ℕ × Bool)) (visited : List ℕ) (index : ℤ) :
    Prop where
  /-- Each server has one turn. -/
  turns : (outcomes.map Prod.fst).Perm (List.range count)
  /-- No server is visited twice, and there are no others. -/
  distinct : visited.Nodup ∧ ∀ i ∈ visited, i < count
  /-- Servers are visited at their turns up to the first that does not fail. -/
  stops : (∀ e ∈ outcomes, e.2 = false) ∧ visited = outcomes.map Prod.fst ∨
    ∃ failed i rest, outcomes = failed ++ (i, true) :: rest ∧ (∀ e ∈ failed, e.2 = false) ∧
      visited = failed.map Prod.fst ++ [i]
  /-- All servers are visited when all fail. -/
  covers : (∀ e ∈ outcomes, e.2 = false) → ∀ i < count, i ∈ visited
  /-- The index is that of the last server visited. -/
  index : ∀ i, visited.getLast? = some i → index = i
  /-- If some server does not fail, the last one visited does not. -/
  succeeds : (∃ e ∈ outcomes, e.2 = true) → ∃ i, visited.getLast? = some i ∧ (i, true) ∈ outcomes

variable {contact : ℕ → Contact}

/-- Servers are visited in the order of lookup. -/
@[simp] theorem outcomes_fst (order : List ℕ) (ret : MqReturn) :
    (outcomes contact order ret).map Prod.fst = order := by
  induction order generalizing ret with
  | nil => rfl
  | cons i order ih => rw [outcomes, List.map_cons, ih]

/-- The order is a permutation of the servers. -/
theorem lookupOrder_perm (rand : Option (ℕ → ℕ)) (count : ℕ) :
    (lookupOrder rand count).Perm (List.range count) := by
  unfold lookupOrder
  cases rand with
  | none => exact List.Perm.refl _
  | some rand =>
    rcases Nat.eq_zero_or_pos count with rfl | hpos
    · exact List.Perm.refl _
    · exact shuffle_perm rand (by omega) List.length_range

/-- The loop visits the servers up to the first one that does not fail. -/
theorem operateLoop_stops (info : MqOptInfo) (order : List ℕ) (curr : ℕ) (ret : MqReturn) :
    (∀ e ∈ outcomes contact order ret, e.2 = false) ∧
        (operateLoop contact info order curr ret).1.map Prod.fst = order ∨
      ∃ failed i rest, outcomes contact order ret = failed ++ (i, true) :: rest ∧
        (∀ e ∈ failed, e.2 = false) ∧
        (operateLoop contact info order curr ret).1.map Prod.fst = failed.map Prod.fst ++ [i] := by
  induction order generalizing curr ret with
  | nil => exact .inl ⟨by simp [outcomes], rfl⟩
  | cons i order ih =>
    rw [outcomes, operateLoop]
    rcases inMqOperate (contact i) ret with ⟨ok, ret'⟩
    dsimp only
    cases ok with
    | true => exact .inr ⟨[], i, _, rfl, by simp, rfl⟩
    | false =>
      rcases ih i ret' with ⟨hfail, hall⟩ | ⟨failed, k, rest, hsplit, hfail, hvisited⟩
      · refine .inl ⟨List.forall_mem_cons.mpr ⟨rfl, hfail⟩, ?_⟩
        rw [List.map_cons, hall]
      · refine .inr ⟨(i, false) :: failed, k, rest, ?_, List.forall_mem_cons.mpr ⟨rfl, hfail⟩, ?_⟩
        · rw [hsplit, List.cons_append]
        · rw [List.map_cons, hvisited, List.map_cons, List.cons_append]

/-- The server that the loop ends with is the last one visited. -/
theorem operateLoop_last (info : MqOptInfo) (order : List ℕ) (curr : ℕ) (ret : MqReturn) :
    (operateLoop contact info order curr ret).2.1 =
      ((operateLoop contact info order curr ret).1.map Prod.fst).getLast?.getD curr := by
  induction order generalizing curr ret with
  | nil => rfl
  | cons i order ih =>
    rw [operateLoop]
    rcases inMqOperate (contact i) ret with ⟨ok, ret'⟩
    cases ok with
    | true => rfl
    | false =>
      dsimp only
      rw [ih, List.map_cons, List.getLast?_cons]
      rfl

/-- For every number of servers, with and without a shuffle by any stream of
random numbers and whatever the servers do, a request visits each server at most
once, in the order of the turns, up to the first exchange that is completed. -/
theorem inDoOperate_failsOver (contact : ℕ → Contact) (rand : Option (ℕ → ℕ)) (count : ℕ)
    (info : MqOptInfo) (ret : MqReturn) :
    FailsOver count (outcomes contact (lookupOrder rand count) ret)
      ((inDoOperate contact (lookupOrder rand count) info ret).1.map Prod.fst)
      (inDoOperate contact (lookupOrder rand count) info ret).2.index := by
  have hperm := lookupOrder_perm rand count
  have hstops := @operateLoop_stops contact info (lookupOrder rand count) 0 ret
  have hlast := @operateLoop_last contact info (lookupOrder rand count) 0 ret
  unfold inDoOperate
  rcases he : operateLoop contact info (lookupOrder rand count) 0 ret with ⟨sent, curr, ret'⟩
  rw [he] at hstops hlast
  dsimp only at hstops hlast ⊢
  have hwalk : sent.map Prod.fst <+: lookupOrder rand count := by
    rcases hstops with ⟨-, hall⟩ | ⟨failed, i, rest, hsplit, -, hvisited⟩
    · exact hall ▸ List.prefix_rfl
    · refine ⟨rest.map Prod.fst, ?_⟩
      rw [← @outcomes_fst contact (lookupOrder rand count) ret, hsplit, hvisited, List.map_append,
        List.map_cons, List.append_assoc, List.singleton_append]
  refine ⟨?_, ⟨hwalk.sublist.nodup (nodup_lookupOrder rand count), fun i hi => ?_⟩, ?_,
    fun hfail i hi => ?_,
    fun i hi => ?_, ?_⟩
  · rwa [outcomes_fst]
  · exact List.mem_range.mp (hperm.subset (hwalk.subset hi))
  · rwa [outcomes_fst]
  · rcases hstops with ⟨-, hall⟩ | ⟨failed, k, rest, hsplit, -, -⟩
    · rw [hall]
      exact hperm.symm.subset (List.mem_range.mpr hi)
    · have hmem : (k, true) ∈ outcomes contact (lookupOrder rand count) ret := by
        rw [hsplit]
        exact List.mem_append_right _ List.mem_cons_self
      exact absurd (hfail _ hmem) (by simp)
  · rw [hlast, hi]
    rfl
  · rintro ⟨e, he, hok⟩
    rcases hstops with ⟨hfail, -⟩ | ⟨failed, i, rest, hsplit, -, hvisited⟩
    · rw [hfail e he] at hok
      exact absurd hok (by simp)
    · refine ⟨i, ?_, ?_⟩
      · rw [hvisited, List.getLast?_append]
        rfl
      · rw [hsplit]
        exact List.mem_append_right _ List.mem_cons_self

/-- The second server is shuffled to the front, and its exchange is the only
one. -/
example : (inDoOperate (fun _ => ClientFailover.accepting) (lookupOrder (some fun _ => 0) 2)
    ⟨"get", "q", none, [], none⟩ inInitReturn).1.map Prod.fst = [1] := by decide

end Ucmq.FailoverVisits
