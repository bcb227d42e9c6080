import Ucmq.RemoveReset
import Ucmq.OperationCases
import Ucmq.StoreSync

/-!
# The countdown to a sync of the write map

A put counts a countdown of its queue down and syncs the write map when it was
at one. The countdown of a queue starts at zero, created or loaded, no operation
moves it away from there, and a put counts down from a positive value only. So
no put of any run syncs, whatever interval is configured.
-/

namespace Ucmq.PeriodicSync

open LabelledRun StoreConfig StoreMsg StoreState StoreRtag StoreFile StoreManage QueueManage Evhttp
open QueueSlots RequestEffect ServerRun OperationCases RemoveReset StoreSync

/-- End of an accepted put: a countdown at one is armed again after a sync, a
greater one is counted down. -/
def syncAfterPut (conf : UcmqConf) (s : Store) : List SyncCall × Store :=
  if 0 < s.q.syncIntv then
    if s.q.syncIntv = 1 then
      ([mqQmDbSync s.q],
        { s with q := { s.q with
          syncIntv := if conf.syncInterval ≤ 0 then 10 else conf.syncInterval } })
    else ([], { s with q := { s.q with syncIntv := s.q.syncIntv-1 } })
  else ([], s)

/-- A put with the syncs it calls. -/
def pushItemSyncs (conf : UcmqConf) (sys : Sys) (len : ℕ) (msg : List UInt8) (s : Store) :
    Except Fault ((QueuePutRet × List SyncCall) × Store) :=
  if queueFull s.q then .ok ((.full, []), s)
  else if writeLocked sys s.q then .ok ((.wlock, []), s)
  else do
    let item : MsgItem :=
      ⟨msgHeadOfFirstMagicNum, msgHeadOfSecondMagicNum, curTime sys, 0, len, msg⟩
    match ← mqSmPutData conf sys item s with
    | (false, s) => .ok ((.putError, []), s)
    | (true, s) =>
      let x := syncAfterPut conf (mqSmRtagWriteItem sys .item s).2
      .ok ((.putOk, x.1), x.2)

/-- Syncs that the handler of a put calls. -/
def optPutSyncs (sys : Sys) (req : Request) (s : Server) : List SyncCall :=
  if reqQnameCheck req.name = false then []
  else
    match putMsg req with
    | none => []
    | some (bufferSize, msg) =>
      if ¬putLenOk s.conf (toU32 bufferSize) then []
      else
        match touchQueueByQname sys (req.name.getD "") s with
        | (none, _) => []
        | (some e, s) =>
          match pushItemSyncs s.conf sys (toU32 bufferSize) msg (s.store e) with
          | .error _ => []
          | .ok ((_, syncs), _) => syncs

/-- Syncs called while an event is served. No other handler puts. -/
def syncsOf : Event → Server → List SyncCall
  | .request sys req, s =>
    if req.parsed = true ∧ req.opt = some "put" then optPutSyncs sys req s else []
  | .restart _ _ _, _ => []

/-- Serve one event and note the syncs it calls. -/
def serveSyncs (banner : String) (ev : Event) (s : Server) :
    Except Fault ((List Reply × List SyncCall) × Server) :=
  match serve banner ev s with
  | .error f => .error f
  | .ok (rs, s') => .ok ((rs, syncsOf ev s), s')

/-- A history with the syncs that were called. -/
abbrev SyncHistory := List (Event × (List Reply × List SyncCall))

/-- The event is an accepted put on a queue. -/
def putOn (n : String) : Event × (List Reply × List SyncCall) → Bool
  | (.request _ req, rs, _) => AcceptedPut n req rs
  | (.restart _ _ _, _) => false

/-- A server that starts on the given directories. -/
def startOn (conf : UcmqConf) (dirs : String → Option Dir) (sys : String → Sys)
    (names : List String) (listing : String → List Fname) : Server :=
  restartServer sys names listing ⟨conf, dirs, [], ⟨0, 0, 0, 0⟩, []⟩

/-- Of any N successive accepted puts on a queue one calls a sync. Which events
end a queue, so that a later one is another queue, is given by a predicate. -/
def SyncedEvery (ends : String → Event × (List Reply × List SyncCall) → Prop) (N : ℕ)
    (tr : SyncHistory) :
    Prop :=
  ∀ n pre mid post, tr = pre ++ mid ++ post → (∀ x ∈ mid, ¬ends n x) → mid.countP (putOn n) = N →
    ∃ x ∈ mid, putOn n x = true ∧ x.2.2 ≠ []

/-- No queue accepts N puts. -/
def FewerPuts (ends : String → Event × (List Reply × List SyncCall) → Prop) (N : ℕ)
    (tr : SyncHistory) :
    Prop :=
  ∀ n pre mid post, tr = pre ++ mid ++ post → (∀ x ∈ mid, ¬ends n x) → mid.countP (putOn n) < N

/-- Every countdown is at zero. -/
def Unarmed (s : Server) : Prop := ∀ e ∈ s.qlist, e.q.syncIntv = 0

variable {conf : UcmqConf} {sys : Sys} {st st' : Store} {s s' : Server} {banner : String}

/-- Counting down as part of the put. -/
theorem syncAfterPut_store (conf : UcmqConf) (st : Store) :
    (syncAfterPut conf st).2 =
      { st with q := { st.q with syncIntv := nextSyncIntv conf st.q.syncIntv } } := by
  unfold syncAfterPut nextSyncIntv
  by_cases hpos : 0 < st.q.syncIntv
  · by_cases hone : st.q.syncIntv = 1
    · simp only [if_pos hpos, if_pos hone]
    · simp only [if_pos hpos, if_neg hone]
  · simp only [if_neg hpos]

/-- A countdown at zero calls no sync. -/
theorem syncAfterPut_nil (h : st.q.syncIntv = 0) : (syncAfterPut conf st).1 = [] := by
  rw [syncAfterPut, if_neg (by rw [h]; exact lt_irrefl 0)]

/-- Without the syncs it is the put. -/
theorem pushItemSyncs_push (len : ℕ) (msg : List UInt8) :
    (pushItemSyncs conf sys len msg st).map (fun x => (x.1.1, x.2)) =
      mqQmPushItem conf sys len msg st := by
  unfold pushItemSyncs mqQmPushItem
  by_cases hfull : queueFull st.q
  · rw [if_pos hfull, if_pos hfull]
    rfl
  rw [if_neg hfull, if_neg hfull]
  by_cases hlock : writeLocked sys st.q
  · rw [if_pos hlock, if_pos hlock]
    rfl
  rw [if_neg hlock, if_neg hlock]
  dsimp only
  cases mqSmPutData conf sys
      ⟨msgHeadOfFirstMagicNum, msgHeadOfSecondMagicNum, curTime sys, 0, len, msg⟩ st with
  | error f => rfl
  | ok x =>
    obtain ⟨ok, s₁⟩ := x
    cases ok with
    | false => rfl
    | true =>
      simp only [bind, Except.bind, Except.map, syncAfterPut_store]

section Operations

/-- Writing through a map changes no field of the queue. -/
theorem mapWrite_q {mapMem : Option ℕ} {p : ℕ} {bs : List UInt8}
    (h : st.mapWrite conf mapMem p bs = .ok st') :
    st'.q = st.q := by
  unfold Store.mapWrite at h
  split at h
  · cases h
  split at h
  · cases h
  split at h
  · cases h
  cases h
  rfl

/-- Releasing the write file leaves the interval alone. -/
theorem releaseWriteFile_syncIntv (st : Store) :
    (releaseWriteFile st).q.syncIntv = st.q.syncIntv := by
  unfold releaseWriteFile
  split <;> rfl

/-- Moving on to the next write file leaves it alone. -/
theorem nextWriteFile_syncIntv {ok : Bool} (h : getNextWriteFile conf sys st = .ok (ok, st')) :
    st'.q.syncIntv = st.q.syncIntv := by
  unfold getNextWriteFile at h
  dsimp only at h
  by_cases hlow : storageLow conf sys = true
  · rw [if_pos hlow] at h
    cases h
    exact releaseWriteFile_syncIntv st
  rw [if_neg hlow] at h
  generalize mqSmOpenDbFile conf sys _ .create _ _ = x at h
  obtain ⟨fd, addr, dir, proc⟩ := x
  cases addr with
  | none =>
    cases h
    exact releaseWriteFile_syncIntv st
  | some a =>
    obtain ⟨s₁, hhead, h⟩ := ok_of_bind h
    cases h
    rw [rtagWriteItem_q, mapWrite_q hhead]
    exact releaseWriteFile_syncIntv st

/-- Copying a message leaves it alone. -/
theorem writeMsgBytes_syncIntv {item : MsgItem} (h : writeMsgBytes conf item st = .ok st') :
    st'.q.syncIntv = st.q.syncIntv := by
  obtain ⟨s₁, hw, h⟩ := ok_of_bind h
  cases h
  rw [← mapWrite_q hw]

/-- Storing a message leaves it alone. -/
theorem putData_syncIntv {item : MsgItem} {ok : Bool}
    (h : mqSmPutData conf sys item st = .ok (ok, st')) :
    st'.q.syncIntv = st.q.syncIntv := by
  rcases putData_of_ok h with ⟨-, rfl⟩ | ⟨crc16, hw⟩
  · rfl
  cases hw with
  | appended _ hw => exact writeMsgBytes_syncIntv hw
  | refused _ hhead hnext =>
    rw [nextWriteFile_syncIntv hnext, mapWrite_q hhead]
  | rotated _ hhead hnext hw =>
    rw [writeMsgBytes_syncIntv hw, nextWriteFile_syncIntv hnext, mapWrite_q hhead]

/-- A put leaves a countdown at zero there. -/
theorem pushItem_unarmed {len : ℕ} {msg : List UInt8} {ret : QueuePutRet} (h₀ : st.q.syncIntv = 0)
    (h : mqQmPushItem conf sys len msg st = .ok (ret, st')) : st'.q.syncIntv = 0 := by
  cases itemPushed_of_ok h with
  | full => exact h₀
  | wlock => exact h₀
  | failed _ hput => exact (putData_syncIntv hput).trans h₀
  | stored _ hput hrec =>
    subst hrec
    have hzero := (putData_syncIntv hput).trans h₀
    simp [nextSyncIntv, hzero]

/-- A put on a queue whose countdown is at zero calls no sync. -/
theorem pushItemSyncs_nil {len : ℕ} {msg : List UInt8} {x : (QueuePutRet × List SyncCall) × Store}
    (h₀ : st.q.syncIntv = 0) (h : pushItemSyncs conf sys len msg st = .ok x) : x.1.2 = [] := by
  unfold pushItemSyncs at h
  by_cases hfull : queueFull st.q
  · rw [if_pos hfull] at h
    cases h
    rfl
  rw [if_neg hfull] at h
  by_cases hlock : writeLocked sys st.q
  · rw [if_pos hlock] at h
    cases h
    rfl
  rw [if_neg hlock] at h
  obtain ⟨⟨ok, s₁⟩, hput, h⟩ := ok_of_bind h
  cases ok with
  | false =>
    cases h
    rfl
  | true =>
    cases h
    exact syncAfterPut_nil (by rw [rtagWriteItem_q, putData_syncIntv hput, h₀])

/-- Opening a read file leaves it alone. -/
theorem openReadFile_syncIntv (i : ℕ) (st : Store) :
    (openReadFile conf sys i st).2.q.syncIntv = st.q.syncIntv := by
  unfold openReadFile
  split
  · rfl
  · split <;> rfl

/-- Moving on to the next read file leaves it alone. -/
theorem nextReadFile_syncIntv (conf : UcmqConf) (sys : Sys) (st : Store) :
    (getNextReadFile conf sys st).2.q.syncIntv = st.q.syncIntv := by
  unfold getNextReadFile
  dsimp only
  split
  · rfl
  split
  · rfl
  · rw [openReadFile_syncIntv, rtagWriteItem_q]

/-- A get leaves the countdown alone. -/
theorem popItem_syncIntv {ret : QueueGetRet} (h : mqQmPopItem conf sys st = .ok (ret, st')) :
    st'.q.syncIntv = st.q.syncIntv := by
  have hstep : ∀ s₁ s₂ ok, getNextReadFile conf sys s₁ = (ok, s₂) →
      s₂.q.syncIntv = s₁.q.syncIntv := by
    intro s₁ s₂ ok hnext
    rw [← nextReadFile_syncIntv conf sys s₁, hnext]
  have hloop : ∀ item s₁, mqSmGetData conf sys st = .ok (item, s₁) →
      s₁.q.syncIntv = st.q.syncIntv := by
    intro item s₁ hget
    refine getDataLoop_keeps (P := fun s => s.q.syncIntv = st.q.syncIntv) ?_ ?_ rfl hget
    · intro s ret s' hP ht
      cases ht with
      | ended => exact hP
      | young => exact hP
      | taken => exact hP
      | stopped hnext => exact (hstep _ _ _ hnext).trans hP
    · intro s s' hP ht
      cases ht with
      | skipped => exact hP
      | switched hnext => exact (hstep _ _ _ hnext).trans hP
  cases itemPopped_of_ok h with
  | empty => rfl
  | ended hget => exact hloop _ _ hget
  | got hget hrec =>
    subst hrec
    rw [rtagWriteItem_q]
    exact hloop _ _ hget

/-- A setting leaves it alone. -/
theorem setBy_syncIntv (h : SetBy sys st st') : st'.q.syncIntv = st.q.syncIntv := by
  cases h with
  | maxqueue => rw [mqQmSetMaxqueue, rtagWriteItem_q]
  | delay => rw [mqQmSetDelay, rtagWriteItem_q]
  | wlock => rw [mqQmSetWlock, rtagWriteItem_q]

/-- A queue starts unarmed when it is created. -/
theorem createQueue_unarmed {dir dir' : Option Dir}
    (h : createQueue conf sys dir = (dir', some st)) :
    st.q.syncIntv = 0 := by
  unfold createQueue at h
  cases hc : mqSmCreatDb conf sys dir MqQueue.zero with
  | mk d o =>
    rw [hc] at h
    cases o with
    | none => cases h
    | some s₁ =>
      cases h
      unfold mqSmCreatDb at hc
      dsimp only at hc
      split at hc
      · cases hc
      split at hc
      · cases hc
      split at hc
      · cases hc
      split at hc
      · cases hc
      cases hc
      simp [initQueue, MqQueue.zero]

/-- A queue starts unarmed when it is loaded. -/
theorem openQueue_unarmed {listing : List Fname} {dir : Dir} {q : MqQueue} {proc : Proc}
    (h : openQueue conf sys listing dir = (some q, proc)) : q.syncIntv = 0 := by
  unfold openQueue at h
  split at h
  · cases h
  split at h
  · cases h
  unfold mqSmOpenDb at h
  dsimp only at h
  split at h
  · cases h
  split at h
  · cases h
  split at h
  · cases h
    rfl
  split at h
  · cases h
  split at h
  · cases h
  · cases h
    rfl

end Operations

section Runs

/-- An entry of a list after a replacement is the new one or an old one. -/
theorem mem_hashSetQueue {e x : QueueEntry} {l : List QueueEntry} (h : x ∈ hashSetQueue e l) :
    x = e ∨ x ∈ l := by
  induction l with
  | nil => cases h
  | cons y l ih =>
    rw [hashSetQueue] at h
    split at h
    · exact (List.mem_cons.mp h).imp_right (List.mem_cons_of_mem y)
    · rcases List.mem_cons.mp h with rfl | hx
      · exact Or.inr List.mem_cons_self
      · exact (ih hx).imp_right (List.mem_cons_of_mem y)

/-- An entry of a list after a deletion is an old one. -/
theorem mem_of_mem_hashDelQueue {qname : String} {x : QueueEntry} {l : List QueueEntry}
    (h : x ∈ hashDelQueue qname l) : x ∈ l := by
  induction l with
  | nil => cases h
  | cons y l ih =>
    rw [hashDelQueue] at h
    split at h
    · exact List.mem_cons_of_mem y h
    · rcases List.mem_cons.mp h with rfl | hx
      · exact List.mem_cons_self
      · exact List.mem_cons_of_mem y (ih hx)

/-- A queue that is found is not armed. -/
theorem unarmed_of_find {qname : String} {e : QueueEntry} (h : Unarmed s)
    (hf : findQueueByQname qname s = some e) : (s.store e).q.syncIntv = 0 :=
  h e (List.mem_of_find?_eq_some hf)

/-- Putting back a queue that is not armed arms none. -/
theorem Unarmed.setStore (h : Unarmed s) (qname : String) (h₀ : st.q.syncIntv = 0) :
    Unarmed (s.setStore qname st) := by
  intro e he
  rcases mem_hashSetQueue he with rfl | he
  · exact h₀
  · exact h e he

/-- A new queue is not armed. -/
theorem Unarmed.addQueue (h : Unarmed s) (sys : Sys) (qname : String) :
    Unarmed (mqQmAddQueue sys qname s).2 := by
  unfold mqQmAddQueue
  split
  · exact h
  cases hc : createQueue s.conf sys (s.dirs qname) with
  | mk dir o =>
    cases o with
    | none => exact h
    | some st =>
      intro e he
      rcases List.mem_cons.mp he with rfl | he
      · exact createQueue_unarmed hc
      · exact h e he

/-- Deleting a queue arms none. -/
theorem Unarmed.delQueue (h : Unarmed s) (sys : Sys) (qname : String) :
    Unarmed (mqQmDelQueue sys qname s).2 := by
  unfold mqQmDelQueue
  cases hf : hashFindQueueByKey qname s.qlist with
  | none => exact h
  | some e =>
    dsimp only
    split
    · intro x hx
      rcases mem_hashSetQueue hx with rfl | hx
      · exact h e (List.mem_of_find?_eq_some hf)
      · exact h x hx
    · exact fun x hx => h x (mem_of_mem_hashDelQueue hx)

/-- A queue that is found or created is not armed. -/
theorem Unarmed.touchQueue {e : Option QueueEntry} (h : Unarmed s) {qname : String}
    (ht : touchQueueByQname sys qname s = (e, s')) :
    Unarmed s' ∧ ∀ e', e = some e' → (s'.store e').q.syncIntv = 0 := by
  have hadd := h.addQueue sys qname
  unfold touchQueueByQname at ht
  cases hf : findQueueByQname qname s with
  | some e' =>
    rw [hf] at ht
    cases ht
    refine ⟨h, fun x hx => ?_⟩
    obtain rfl := Option.some.inj hx
    exact unarmed_of_find h hf
  | none =>
    rw [hf] at ht
    cases hq : mqQmAddQueue sys qname s with
    | mk ok s₁ =>
      rw [hq] at ht hadd
      cases ok <;> cases ht
      · exact ⟨hadd, fun x hx => by cases hx⟩
      · exact ⟨hadd, fun x hx => unarmed_of_find hadd hx⟩

/-- A step of a handler arms no countdown. -/
theorem unarmed_of_step {req : Request} {n : String} {rs : List Reply} (h : Unarmed s)
    (hs : HandlerStep sys req n s rs s') : Unarmed s' := by
  cases hs with
  | refused => exact h
  | uncreated _ ht => exact (h.touchQueue ht).1
  | @put e s₁ size msg ret st r _ ht _ _ hp _ =>
    obtain ⟨h₁, he⟩ := h.touchQueue ht
    have hq := pushItem_unarmed (he e rfl) hp
    have hpushed : (pushed ret st).q.syncIntv = 0 := by
      cases ret <;> exact hq
    exact h₁.setStore n hpushed
  | get _ hf hp => exact h.setStore n ((popItem_syncIntv hp).trans (unarmed_of_find h hf))
  | @set rs e s₁ st _ ht hset _ =>
    obtain ⟨h₁, he⟩ := h.touchQueue ht
    exact h₁.setStore n ((setBy_syncIntv hset).trans (he e rfl))
  | removed => exact h.delQueue sys n
  | reset => exact (h.delQueue sys n).addQueue sys n

/-- A start loads every queue unarmed. -/
theorem unarmed_restart (sys : String → Sys) (names : List String) (listing : String → List Fname)
    (s : Server) : Unarmed (restartServer sys names listing s) := by
  have hload : ∀ (l : List String) (s₁ : Server), Unarmed s₁ →
      Unarmed (mqQmOpenStore sys l listing s₁) := by
    intro l
    induction l with
    | nil => exact fun s₁ h => h
    | cons x l ih =>
      intro s₁ h
      refine ih (openStoreStep sys listing s₁ x) ?_
      unfold openStoreStep
      split
      · exact h
      · cases ho : openQueue s₁.conf (sys x) (listing x) _ with
        | mk q proc =>
          cases q with
          | none => exact h
          | some q =>
            intro e he
            rcases List.mem_cons.mp he with rfl | he
            · exact openQueue_unarmed ho
            · exact h e he
  have hstart : Unarmed (endProcess s) := fun e he => by cases he
  intro e he
  obtain ⟨e', he', rfl⟩ := List.mem_map.mp he
  obtain ⟨unread, put, get, heq⟩ := Recovery.getMsgCount_eq
    (mqQmOpenStore sys names listing (endProcess s)).conf (sys e'.qname) (listing e'.qname)
    ((mqQmOpenStore sys names listing (endProcess s)).store e')
  unfold countEntry
  rw [heq]
  exact hload names (endProcess s) hstart e' he'

/-- Every event keeps the countdowns at zero. -/
theorem serve_unarmed {ev : Event} {rs : List Reply} (h : Unarmed s)
    (hs : serve banner ev s = .ok (rs, s')) :
    Unarmed s' := by
  cases ev with
  | restart sys names listing =>
    cases hs
    exact unarmed_restart sys names listing s
  | request sys req =>
    by_cases hopt : ∃ o ∈ queueOpts, req.opt = some o
    · exact unarmed_of_step h (entry_step hopt hs)
    · intro e he
      rw [(entry_of_other hopt hs).1] at he
      exact h e he

/-- No event calls a sync while the countdowns are at zero. -/
theorem syncsOf_nil (h : Unarmed s) (ev : Event) : syncsOf ev s = [] := by
  cases ev with
  | restart => rfl
  | request sys req =>
    simp only [syncsOf]
    split
    · unfold optPutSyncs
      split
      · rfl
      split
      · rfl
      split
      · rfl
      split
      · rfl
      rename_i e s₁ ht
      cases hp : pushItemSyncs s₁.conf sys _ _ (s₁.store e) with
      | error f => rfl
      | ok x => exact pushItemSyncs_nil ((h.touchQueue ht).2 e rfl) hp
    · rfl

/-- A served event with the syncs it called. -/
theorem serveSyncs_ok {ev : Event} {o : List Reply × List SyncCall}
    (h : serveSyncs banner ev s = .ok (o, s')) : serve banner ev s = .ok (o.1, s') ∧
    o.2 = syncsOf ev s := by
  unfold serveSyncs at h
  cases hs : serve banner ev s with
  | error f =>
    rw [hs] at h
    cases h
  | ok x =>
    rw [hs] at h
    cases h
    exact ⟨rfl, rfl⟩

/-- No event of a run calls a sync. -/
theorem no_sync_of_run {guard : Server → Event → Prop} {s₀ : Server} {tr : SyncHistory}
    (h₀ : Unarmed s₀)
    (h : Run (serveSyncs banner) guard s₀ tr s) : Unarmed s ∧ ∀ x ∈ tr, x.2.2 = [] := by
  refine h.invariant (I := fun tr s => Unarmed s ∧ ∀ x ∈ tr, x.2.2 = []) ⟨h₀, by simp⟩ ?_
  rintro tr s ev o s' ⟨hu, hall⟩ - hs
  obtain ⟨hserve, ho⟩ := serveSyncs_ok hs
  refine ⟨serve_unarmed hu hserve, fun x hx => ?_⟩
  rcases List.mem_append.mp hx with hx | hx
  · exact hall x hx
  · rw [List.mem_singleton.mp hx]
    exact ho.trans (syncsOf_nil hu ev)

/-- A list holds a start with any smaller number of hits. -/
theorem exists_prefix_countP {α : Type} (p : α → Bool) {l : List α} {k : ℕ} (hk : k ≤ l.countP p) :
    ∃ l₁ l₂, l = l₁ ++ l₂ ∧ l₁.countP p = k := by
  induction l generalizing k with
  | nil => exact ⟨[], [], rfl, (Nat.le_zero.mp hk).symm⟩
  | cons x l ih =>
    cases k with
    | zero => exact ⟨[], x :: l, rfl, rfl⟩
    | succ k =>
      by_cases hx : p x = true
      · rw [List.countP_cons_of_pos hx] at hk
        obtain ⟨l₁, l₂, rfl, hcount⟩ := ih (Nat.le_of_succ_le_succ hk)
        exact ⟨x :: l₁, l₂, rfl, by rw [List.countP_cons_of_pos hx, hcount]⟩
      · rw [List.countP_cons_of_neg hx] at hk
        obtain ⟨l₁, l₂, rfl, hcount⟩ := ih hk
        exact ⟨x :: l₁, l₂, rfl, by rw [List.countP_cons_of_neg hx, hcount]⟩

/-- In every run from a start on any directories, the configured number of puts
on a queue includes a sync exactly when no queue ever accepts that many. -/
theorem syncedEvery_iff {dirs : String → Option Dir} {sys : String → Sys} {names : List String}
    {listing : String → List Fname} {tr : SyncHistory}
    (ends : String → Event × (List Reply × List SyncCall) → Prop)
    (h : Run (serveSyncs banner) (fun _ _ => True) (startOn conf dirs sys names listing) tr s) :
    SyncedEvery ends conf.syncInterval.toNat tr ↔ FewerPuts ends conf.syncInterval.toNat tr := by
  obtain ⟨-, hnone⟩ := no_sync_of_run (unarmed_restart sys names listing _) h
  constructor
  · intro hsynced n pre mid post htr hends
    by_contra hmany
    obtain ⟨mid₁, mid₂, rfl, hcount⟩ := exists_prefix_countP (putOn n) (Nat.le_of_not_lt hmany)
    obtain ⟨x, hx, -, hsync⟩ := hsynced n pre mid₁ (mid₂ ++ post) (by rw [htr]; simp)
      (fun x hx => hends x (List.mem_append_left mid₂ hx)) hcount
    refine hsync (hnone x ?_)
    rw [htr]
    simp [hx]
  · intro hfewer n pre mid post htr hends hcount
    exact absurd hcount (hfewer n pre mid post htr hends).ne

/-- A configuration that asks for a sync after a number of puts. -/
def everyPuts (n : ℤ) : UcmqConf := { UcmqConf.least with syncInterval := n }

/-- A server without queues. -/
def emptyStart (n : ℤ) : Server :=
  startOn (everyPuts n) (fun _ => none) (fun _ => Sys.quiet 0 100) [] (fun _ => [])

/-- A put of one byte. -/
def bytePut : Request := ⟨true, some "put", some "q", none, none, none, [1]⟩

/-- One put is accepted. -/
theorem run_bytePut {n : ℤ} (haccepted : ((serve "" (.request (Sys.quiet 0 100) bytePut)
    (emptyStart n)).toOption.any fun x => AcceptedPut "q" bytePut x.1) = true) :
    ∃ sent s, Run (serveSyncs "") (fun _ _ => True) (emptyStart n)
        [(.request (Sys.quiet 0 100) bytePut, sent)] s ∧
      putOn "q" (.request (Sys.quiet 0 100) bytePut, sent) = true := by
  cases hs : serve "" (.request (Sys.quiet 0 100) bytePut) (emptyStart n) with
  | error f => simp [hs, Except.toOption] at haccepted
  | ok x =>
    have hput : AcceptedPut "q" bytePut x.1 := by simpa [hs, Except.toOption] using haccepted
    have hserve : serveSyncs "" (.request (Sys.quiet 0 100) bytePut) (emptyStart n) =
        .ok ((x.1, syncsOf (.request (Sys.quiet 0 100) bytePut) (emptyStart n)), x.2) := by
      rw [serveSyncs, hs]
    exact ⟨_, _, .snoc .nil trivial hserve, by simp [putOn, hput]⟩

/-- With an interval of two one accepted put asks for no sync yet. -/
theorem syncedEvery_iff_two : ∃ tr s, Run (serveSyncs "") (fun _ _ => True) (emptyStart 2) tr s ∧
    tr.countP (putOn "q") = 1 ∧ SyncedEvery (fun n x => DeletedIn n x.1) 2 tr := by
  obtain ⟨sent, s, h, hput⟩ := @run_bytePut 2 (by decide +kernel)
  refine ⟨_, s, h, by simp [hput], (@syncedEvery_iff (everyPuts 2) s "" _ _ _ _ _
    (fun n x => DeletedIn n x.1) h).mpr fun n pre mid post htr _ => ?_⟩
  have hlen := congrArg List.length htr
  rw [List.length_append, List.length_append, List.length_singleton] at hlen
  have hle : mid.countP (putOn n) ≤ mid.length := List.countP_le_length
  show mid.countP (putOn n) < 2
  omega

/-- With an interval of one a put is accepted without a sync. -/
theorem put_without_sync : ∃ tr s, Run (serveSyncs "") (fun _ _ => True) (emptyStart 1) tr s ∧
    ¬SyncedEvery (fun _ _ => False) (everyPuts 1).syncInterval.toNat tr := by
  obtain ⟨sent, s, h, hput⟩ := @run_bytePut 1 (by decide +kernel)
  refine ⟨_, s, h, fun hsynced => ?_⟩
  obtain ⟨-, hnone⟩ := no_sync_of_run (unarmed_restart _ _ _ _) h
  have hcount : [(Event.request (Sys.quiet 0 100) bytePut, sent)].countP (putOn "q") = 1 := by
    simp [hput]
  obtain ⟨x, hx, -, hsync⟩ := hsynced "q" [] _ [] rfl (fun _ _ h => h) hcount
  exact hsync (hnone x hx)

end Runs

end Ucmq.PeriodicSync
