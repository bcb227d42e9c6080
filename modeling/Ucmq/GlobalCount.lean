import Ucmq.CounterAgreement

/-!
# The global count of unread messages

The global counter is changed by accepted puts and returned messages only. It is
the sum of the unread counts over all listed queues, as a 64-bit value, in every
run that deletes queues only when they are empty and refuses no put storage
behind its reader. A remove or reset of any other queue takes its unread messages
from the sum but not from the counter.
-/

namespace Ucmq.GlobalCount

open LabelledRun StoreConfig StoreMsg StoreState StoreManage QueueManage StoreInvariant Evhttp
open QueueStep QueueSlots RequestEffect ServerRun CleanRestart FifoRefinement RotationRuns
open DeliveryOrder UnreadCount CounterAgreement

variable {conf : UcmqConf} {sys : Sys} {s s' : Server} {n : String} {slot slot' : Slot}
  {rs : List Reply}
variable {req : Request} {st st' : Store} {banner : String} {tr : History} {opts : List String}

/-- Unread counts over a list of entries. -/
def unreadSum (l : List QueueEntry) : ℕ := (l.map fun e => e.q.unreadCount).sum

/-- Entries of all other names. -/
def othersOf (n : String) (l : List QueueEntry) : List QueueEntry := l.filter fun e => ¬e.qname = n

/-- The sum with one queue more. -/
theorem unreadSum_cons (e : QueueEntry) (l : List QueueEntry) :
    unreadSum (e :: l) = e.q.unreadCount+unreadSum l := by
  simp [unreadSum]

/-- The sum is that of one name and that of all others. -/
theorem unreadSum_split (n : String) (l : List QueueEntry) :
    unreadSum l = unreadSum (entriesOf n l)+unreadSum (othersOf n l) := by
  induction l with
  | nil => rfl
  | cons e l ih =>
    by_cases he : e.qname = n
    · have hothers : othersOf n (e :: l) = othersOf n l := by simp [othersOf, he]
      rw [entriesOf_cons, if_pos he, hothers, unreadSum_cons, unreadSum_cons, ih]
      omega
    · have hothers : othersOf n (e :: l) = e :: othersOf n l := by simp [othersOf, he]
      rw [entriesOf_cons, if_neg he, hothers, unreadSum_cons, unreadSum_cons, ih]
      omega

/-- Entries that agree name by name agree up to order. -/
theorem othersOf_perm {l l' : List QueueEntry} (h : ∀ x, x ≠ n → entriesOf x l' = entriesOf x l) :
    (othersOf n l').Perm (othersOf n l) := by
  classical
  rw [List.perm_iff_count]
  intro e
  by_cases he : e.qname = n
  · have hnot : ∀ k : List QueueEntry, e ∉ othersOf n k := fun k hm => by simp [othersOf, he] at hm
    rw [List.count_eq_zero_of_not_mem (hnot l'), List.count_eq_zero_of_not_mem (hnot l)]
  · have hcount :
        ∀ k : List QueueEntry, (othersOf n k).count e = (entriesOf e.qname k).count e := by
      intro k
      rw [othersOf, entriesOf, List.count_filter (by simpa using he), List.count_filter (by simp)]
    rw [hcount, hcount, h _ he]

/-- A request changes the sum by what it changes under its own name. -/
theorem unreadSum_of_same (hsame : SameElsewhere n s s') (h : HasSlot s n slot)
    (h' : HasSlot s' n slot') :
    unreadSum s'.qlist+unreadOf slot = unreadSum s.qlist+unreadOf slot' := by
  have hslot : ∀ {s : Server} {slot : Slot}, HasSlot s n slot →
      unreadSum (entriesOf n s.qlist) = unreadOf slot := by
    intro s slot h
    cases slot with
    | absent dir =>
      rw [h.1]
      rfl
    | listed st =>
      rw [h.1]
      exact Nat.add_zero _
  have hothers : unreadSum (othersOf n s'.qlist) = unreadSum (othersOf n s.qlist) :=
    ((othersOf_perm hsame.entries).map _).sum_eq
  rw [unreadSum_split n s'.qlist, unreadSum_split n s.qlist, hslot h, hslot h', hothers]
  omega

/-- Counter after a request of an option with the given replies. -/
def countAfter (req : Request) (rs : List Reply) (count : ℤ) : ℤ :=
  if (rs.any fun r => r.pos.isSome) = false then count
  else if req.opt = some "put" then (count+1)%2^64
  else if req.opt = some "get" then (count-1)%2^64
  else count

/-- Silent replies leave the counter alone. -/
theorem countAfter_of_silent (h : Silent rs) (req : Request) (count : ℤ) :
    countAfter req rs count = count := by
  have hnone : (rs.any fun r => r.pos.isSome) = false := by
    rw [List.any_eq_false]
    intro r hr
    rw [(h r hr).1]
    simp
  rw [countAfter, if_pos hnone]

/-- A put that is not stored is answered silently. -/
theorem silent_of_put {ret : QueuePutRet} {r : Reply} (hr : ShowsPut ret r) (hret : ret ≠ .putOk) :
    Silent [r] := by
  intro r' hr'
  rw [List.mem_singleton.mp hr']
  have hpos : r.pos.isSome = false := Bool.eq_false_iff.mpr (mt hr.2.mp hret)
  exact ⟨Option.isNone_iff_eq_none.mp (by simpa using hpos), hr.1⟩

/-- The global counter after a request on a queue. A put counts the message it
reports as accepted, and a get the one it returns. -/
theorem entry_count (hopt : ∃ o ∈ queueOpts, req.opt = some o)
    (hres : mqEvhttpCbDoOptEntry banner sys req s = .ok (rs, s')) :
    s'.gInfo.count = countAfter req rs s.gInfo.count := by
  cases entry_step hopt hres with
  | refused hrs hfree => exact (countAfter_of_silent hrs _ _).symm
  | uncreated hkeep ht hrs =>
    rw [countAfter_of_silent hrs, (touchQueue_kept ht).1]
  | @put _ s₁ size _ ret st r hput ht _ _ _ hr =>
    rw [← (touchQueue_kept ht).1]
    cases ret with
    | putOk =>
      have hshow : r.pos.isSome = true := hr.2.mpr rfl
      simp [countAfter, hput, hshow, countPut, afterPut]
    | full => exact (countAfter_of_silent (silent_of_put hr (by simp)) _ _).symm
    | wlock => exact (countAfter_of_silent (silent_of_put hr (by simp)) _ _).symm
    | putError => exact (countAfter_of_silent (silent_of_put hr (by simp)) _ _).symm
  | @get _ ret st r hget _ _ hr =>
    cases ret with
    | getOk item =>
      have hshow : r.pos.isSome = true := hr.1
      simp [countAfter, hget, hshow, countGet, afterGet]
    | getEnd =>
      exact (countAfter_of_silent (fun _ h => by rw [List.mem_singleton.mp h]; exact hr) _ _).symm
  | set _ ht _ hrs =>
    rw [countAfter_of_silent hrs, ← (touchQueue_kept ht).1]
    rfl
  | removed _ _ hrs => rw [countAfter_of_silent hrs, delQueue_gInfo]
  | reset _ _ hrs => rw [countAfter_of_silent hrs, (addQueue_kept _ _ _).1, delQueue_gInfo]

/-- A name whose queue, if any, counts its unread messages. -/
def UnreadExact (conf : UcmqConf) (slot : Slot) : Prop :=
  ∃ bodies, Tracked conf True bodies slot ∧
    ∀ st, Touched conf slot st → ∃ puts gets, Counters conf puts gets bodies.length st

/-- A name that is not listed has nothing unread. -/
theorem unreadExact_free (conf : UcmqConf) : UnreadExact conf (.absent none) := by
  refine ⟨[], .free, fun st ht => ?_⟩
  cases ht
  exact ⟨0, 0, counters_created conf⟩

/-- The unread count of a queue that is tracked and counted. -/
theorem unreadExact_listed {bodies : List (List UInt8)} {puts gets : ℕ}
    (ht : Tracked conf True bodies (.listed st)) (hc : Counters conf puts gets bodies.length st) :
    UnreadExact conf (.listed st) := by
  refine ⟨bodies, ht, fun st' ht' => ?_⟩
  cases ht'
  exact ⟨puts, gets, hc⟩

/-- Unread messages of a name and the global counter after a request change
together. -/
inductive CountMoved (req : Request) (rs : List Reply) (unread unread' : ℕ) : Prop
  | put (hu : unread' = unread+1) (hc : ∀ c, countAfter req rs c = (c+1)%2^64)
  | got (hu : unread = unread'+1) (hc : ∀ c, countAfter req rs c = (c-1)%2^64)
  | same (hu : unread' = unread) (hc : ∀ c, countAfter req rs c = c)

/-- The unread count of the queue that a put works on. -/
theorem unread_of_touched {bodies : List (List UInt8)} {puts gets : ℕ}
    (ht : Tracked conf True bodies slot) (hto : Touched conf slot st)
    (hc : Counters conf puts gets bodies.length st) :
    unreadOf slot = bodies.length := by
  cases hto with
  | found => exact hc.unreadCount
  | fresh dir =>
    cases ht
    rfl

/-- A request under its own name. -/
theorem countMoved_of_handled (h : UnreadExact conf slot) (hok : sys.Ok)
    (hh : Handled conf sys req slot rs slot') (hempty : Deletes req → unreadOf slot = 0) :
    UnreadExact conf slot' ∧ CountMoved req rs (unreadOf slot) (unreadOf slot') := by
  obtain ⟨bodies, ht, hcounts⟩ := id h
  cases hh with
  | unchanged hrs _ => exact ⟨h, .same rfl fun c => countAfter_of_silent hrs req c⟩
  | @put _ st st' size msg ret r hput hto hm hlen hp hrep =>
    obtain ⟨puts, gets, hc⟩ := hcounts st hto
    have hold := unread_of_touched ht hto hc
    have hc' := counters_put ht hc hok hto hm hlen hp
    have ht' := tracked_put ht hok hto hm hlen hp
    have hunread := hc'.unreadCount
    by_cases hr : ret = .putOk
    · subst hr
      rw [if_pos rfl] at ht' hc' hunread
      refine ⟨unreadExact_listed ht' (by rw [List.length_append]; exact hc'), .put ?_ fun c => ?_⟩
      · rw [unreadOf, hunread, hold]
      · have hshow : r.pos.isSome = true := hrep.2.mpr rfl
        simp [countAfter, hshow, hput]
    · simp only [if_neg hr, List.append_nil, Nat.add_zero] at ht' hc' hunread
      refine ⟨unreadExact_listed ht' hc', .same ?_ fun c => ?_⟩
      · rw [unreadOf, hunread, hold]
      · have hshow : r.pos.isSome = false := Bool.eq_false_iff.mpr (mt hrep.2.mp hr)
        simp [countAfter, hshow]
  | @get st st' ret r hget hp hrep =>
    obtain ⟨puts, gets, hc⟩ := hcounts st (.found st)
    obtain ⟨bodies', ht', hbodies⟩ := tracked_get ht hok hp
    have hc' := counters_get ht hc hok hp
    have hlen := congrArg List.length hbodies
    rw [List.length_append] at hlen
    rw [hlen, Nat.add_sub_cancel_left] at hc'
    have hold := hc.unreadCount
    have hnew := hc'.unreadCount
    refine ⟨unreadExact_listed ht' hc', ?_⟩
    cases ret with
    | getEnd =>
      refine .same ?_ fun c => ?_
      · rw [unreadOf, unreadOf, hnew, hold, hlen]
        exact (Nat.zero_add _).symm
      · have hshow : r.pos = none := hrep.1
        simp [countAfter, hshow]
    | getOk item =>
      refine .got ?_ fun c => ?_
      · rw [unreadOf, unreadOf, hnew, hold, hlen]
        exact Nat.add_comm _ _
      · have hshow : r.pos.isSome = true := hrep.1
        simp [countAfter, hshow, hget]
  | @set _ st st' _ hset hto hset' hrs =>
    obtain ⟨puts, gets, hc⟩ := hcounts st hto
    obtain ⟨finished, pend, hs, -, -⟩ := sound_of_touched ht hto
    have hc' := counters_set hs hok hc hset'
    refine ⟨unreadExact_listed (tracked_set ht hok hto hset') hc',
      .same ?_ fun c => countAfter_of_silent hrs req c⟩
    rw [unread_of_touched ht hto hc]
    exact hc'.unreadCount
  | removed hdel hrs =>
    exact ⟨unreadExact_free conf, .same (hempty hdel).symm fun c => countAfter_of_silent hrs req c⟩
  | reset hdel hrs =>
    refine ⟨unreadExact_listed (tracked_created trivial) (counters_created conf),
      .same (hempty hdel).symm fun c => countAfter_of_silent hrs req c⟩

/-- Only queues without unread messages are deleted, and there is no restart. -/
def EmptyDeletions : Event → String → Slot → Prop
  | .request sys req, n, slot => DeletedIn n (.request sys req) → unreadOf slot = 0
  | .restart _ _ _, _, _ => False

/-- Only queues without unread messages are deleted, and no put is refused storage
behind its reader. -/
def CountKept (conf : UcmqConf) (ev : Event) (n : String) (slot : Slot) : Prop :=
  EmptyDeletions ev n slot ∧ StorageKept conf ev n slot

/-- The global counter is the sum of the unread counts, as a 64-bit value. -/
def CountAgrees (s : Server) : Prop := s.gInfo.count = (unreadSum s.qlist : ℤ)%2^64

/-- The counter moves with the sum. -/
theorem countAgrees_of_moved {unread unread' : ℕ} (h : CountAgrees s)
    (hcount : s'.gInfo.count = countAfter req rs s.gInfo.count)
    (hsum : unreadSum s'.qlist+unread = unreadSum s.qlist+unread')
    (hm : CountMoved req rs unread unread') : CountAgrees s' := by
  unfold CountAgrees at h ⊢
  rw [hcount]
  cases hm with
  | put hu hc =>
    rw [hc, h]
    omega
  | got hu hc =>
    rw [hc, h]
    omega
  | same hu hc =>
    rw [hc, h]
    omega

/-- One admissible request keeps the global counter in agreement. -/
theorem countAgrees_step (hconf : s.conf = conf)
    (hall : ∀ n, ∃ slot, HasSlot s n slot ∧ UnreadExact conf slot) (h : CountAgrees s) {ev : Event}
    (hg : Guarded queueOpts EmptyDeletions s ev) (hs : serve banner ev s = .ok (rs, s')) :
    s'.conf = conf ∧ (∀ n, ∃ slot, HasSlot s' n slot ∧ UnreadExact conf slot) ∧ CountAgrees s' := by
  obtain ⟨ha, hG⟩ := hg
  obtain ⟨hc', hsteps⟩ :=
    slotStep_of_serve (fun _ ho => ho) ha (fun n => (hall n).imp fun _ h => h.1) hs
  rw [hconf] at hc' hsteps
  cases ev with
  | restart sys names listing =>
    obtain ⟨slot, hslot, -⟩ := hall ""
    exact (hG "" slot hslot).elim
  | request sys req =>
    refine ⟨hc', fun n => ?_, ?_⟩
    · obtain ⟨slot, hslot, hu⟩ := hall n
      obtain ⟨slot', hslot', hstep⟩ := hsteps n slot hslot
      refine ⟨slot', hslot', ?_⟩
      cases hstep with
      | other hn => exact hu
      | handled hok hn hopt hh =>
        exact (countMoved_of_handled hu hok hh fun hdel => hG n slot hslot ⟨hn, hdel⟩).1
    · have hcount := entry_count ha.2 hs
      cases hname : req.name with
      | none =>
        rw [entry_of_noName hname ha.2 hs]
        exact h
      | some n =>
        obtain ⟨slot, hslot, hu⟩ := hall n
        obtain ⟨hsame, slot', hslot', hh⟩ := entry_effect ha.1 hname ha.2 hslot hs
        rw [hconf] at hh
        exact countAgrees_of_moved h hcount (unreadSum_of_same hsame hslot hslot')
          (countMoved_of_handled hu ha.1 hh fun hdel => hG n slot hslot ⟨hname, hdel⟩).2

/-- The global counter agrees with the listed queues after every run that deletes
empty queues only and leaves no write file released. -/
theorem global_count_agrees
    (h : Run (serve banner) (Guarded queueOpts (CountKept conf)) (Server.start conf) tr s) :
    CountAgrees s := by
  have hstart : CountAgrees (Server.start conf) := by
    unfold CountAgrees
    rfl
  have hinv := h.invariant (I := fun _ s => s.conf = conf ∧
      (∀ n, ∃ slot, HasSlot s n slot ∧ UnreadExact conf slot) ∧ CountAgrees s)
    ⟨rfl, fun n => ⟨.absent none, ⟨rfl, rfl⟩, unreadExact_free conf⟩, hstart⟩
    (fun _ _ _ _ _ hI hg hs =>
      countAgrees_step hI.1 hI.2.1 hI.2.2 (hg.mono (fun _ ho => ho) fun _ _ _ hk => hk.1) hs)
  exact hinv.2.2

/-- The runs that fill a file meet the condition. -/
theorem countKept_admits {big : List UInt8} (hfree : storageLow conf sys = false) :
    Admits conf sys big [1] (CountKept conf) := by
  have hkeep : ∀ {o : String} {body : List UInt8} {n : String} {slot : Slot}, o ∈ ["put", "get"] →
      EmptyDeletions (.request sys (Request.of o "q" body)) n slot := fun ho hdel =>
    (not_deletes ⟨_, ho, rfl⟩ (by decide) hdel.2).elim
  exact ⟨fun _ => ⟨hkeep (by decide), trivial⟩, fun _ => ⟨hkeep (by decide), trivial⟩,
    fun _ _ _ => ⟨hkeep (by decide), storageKept_of_free hfree _ _ _⟩,
    fun _ _ => ⟨hkeep (by decide), storageKept_of_free hfree _ _ _⟩⟩

/-- A run with a rotation that leaves one of two messages unread. -/
theorem global_count_agrees_rotated : ∃ (big : List UInt8) (tr : History) (s : Server) (st : Store),
    Run (serve "") (Guarded queueOpts (CountKept .least)) (Server.start .least) tr s ∧
      s.qlist = [⟨"q", st.proc, st.q⟩] ∧ accepted "q" tr = [big, [1]] ∧ returned "q" tr = [big] ∧
      CountAgrees s := by
  obtain ⟨big, hbig⟩ := exists_big
  obtain ⟨rs₁, rs₂, rs₃, s, st, hrun, hout₁, hout₂, hgot, honly, -⟩ :=
    @run_at_switch .least (Sys.quiet 0 0) [1]
    big _ (Sys.quiet_ok 0 0) rfl (by decide) rfl rfl hbig (by decide) (by decide)
      (countKept_admits rfl)
  have hrun' := run_mono queueOpts (by decide) (fun _ _ _ hg => hg) hrun
  exact ⟨big, _, s, st, hrun', honly.qlist, accepted_at_switch hout₁ hout₂, returned_at_switch hgot,
    global_count_agrees hrun'⟩

/-- Removing the only queue leaves no entry. -/
theorem remove_onlyQueue (h : OnlyQueue conf s n st) (hn : reqQnameCheck (some n) = true)
    (hok : sys.Ok) :
    ∃ rs s', mqEvhttpCbDoOptEntry banner sys (Request.of "remove" n []) s = .ok (rs, s') ∧
      s'.qlist = [] ∧ s'.gInfo = s.gInfo := by
  have hfind : hashFindQueueByKey n s.qlist = some ⟨n, st.proc, st.q⟩ := find_of_listed h.slot
  have hremove : (httpOptRemove sys (Request.of "remove" n []) s).2 = (mqQmDelQueue sys n s).2 := by
    simp only [Request.of, httpOptRemove, Option.getD_some, hn, find_of_listed h.slot,
      Bool.true_eq_false, if_false]
  refine ⟨(httpOptRemove sys (Request.of "remove" n []) s).1,
    (httpOptRemove sys (Request.of "remove" n []) s).2, rfl, ?_, ?_⟩
  · rw [hremove]
    simp only [mqQmDelQueue, hfind, mqSmRemoveDb, h.slot.2, hok.accessRemove, if_true]
    rw [h.qlist]
    simp only [hashDelQueue, if_true]
  · rw [hremove]
    exact delQueue_gInfo sys n s

/-- A queue removed with an unread message leaves it in the global counter. -/
theorem global_count_drifts :
    ∃ tr s, Run (serve "") (Guarded queueOpts fun _ _ _ => True) (Server.start .least) tr s ∧
      ¬CountAgrees s := by
  have hok := Sys.quiet_ok 0 0
  obtain ⟨rs₁, s₁, st₁, hres₁, hstored, honly₁, -⟩ := @put_created .least _ [1] hok rfl
    (by decide) rfl (by decide) (by decide)
  obtain ⟨rs₂, s₂, hres₂, hlist, hinfo⟩ := @remove_onlyQueue _ _ _ _ _ "" honly₁ (by decide) hok
  have hnil : Run (serve "") (Guarded queueOpts fun _ _ _ => True) (Server.start .least) []
      (Server.start .least) := .nil
  have hrun₁ := run_request hnil hok ⟨"put", by decide, rfl⟩ (fun _ _ _ => trivial) hres₁
  have hrun₂ := run_request hrun₁ hok ⟨"remove", by decide, rfl⟩ (fun _ _ _ => trivial) hres₂
  refine ⟨_, s₂, hrun₂, ?_⟩
  have hcount := entry_count ⟨"put", by decide, rfl⟩ hres₁
  have hone : s₁.gInfo.count = 1 := by
    have hacc :=
      @acceptedIn_of_stored "q" rs₁ (Sys.quiet 0 0) (Request.of "put" "q" [1]) rfl rfl hstored
    have hput : AcceptedPut "q" (Request.of "put" "q" [1]) rs₁ := by
      by_contra hno
      rw [acceptedIn, if_neg hno] at hacc
      cases hacc
    have hshown : (rs₁.any fun r => r.pos.isSome) = true := by
      rw [List.any_eq_true]
      exact hput.2.2
    rw [hcount, countAfter, hshown]
    rfl
  unfold CountAgrees
  rw [hinfo, hone, hlist]
  decide

end Ucmq.GlobalCount
