import Ucmq.ServerRun

/-!
# Queues across requests and clean restarts

In a run without failing calls every name is free or holds a sound queue. The
bodies pending in it change only by accepted puts at one end and returned
messages at the other, and a restart restores the queue from its position log.
The exception is a queue whose log holds nothing but the record of its creation:
that record was written before the cursors were set.
-/

namespace Ucmq.CleanRestart

open LabelledRun DecimalText StoreConfig StoreMsg StoreState StoreRtag StoreFile StoreManage
open QueueManage StoreInvariant ReadPath WritePath HandleFile Recovery Evhttp QueueStep QueueSlots
open RequestEffect ServerRun

/-- The part of a body that a put stores: its length is passed on as an
unsigned 32-bit value. -/
def storedBody (body : List UInt8) : List UInt8 := body.take (u32 body.length)

/-- A body below 2^32 bytes is stored whole. -/
theorem storedBody_of_lt {body : List UInt8} (h : body.length < 2^32) : storedBody body = body := by
  rw [storedBody, u32_of_lt h, List.take_length]

/-- A length that went through an int. -/
theorem toU32_toI32 (k : ℕ) : toU32 (toI32 k) = u32 k := by
  unfold toU32 toI32 u32
  have hmod : (k : ℤ).bmod (2^32)%2^32 = k%2^32 := Int.bmod_emod
  rw [hmod]
  omega

/-- The bytes and the length that a put passes on. -/
theorem putMsg_eq {req : Request} {size : ℤ} {msg : List UInt8}
    (h : putMsg req = some (size, msg)) :
    msg = putBody req ∧ toU32 size = u32 (putBody req).length := by
  unfold putMsg at h
  cases hd : req.data with
  | none =>
    simp only [hd] at h
    split at h
    · obtain ⟨rfl, rfl⟩ := Prod.mk.inj (Option.some.inj h)
      exact ⟨by simp [putBody, hd], by simp only [putBody, hd]; exact toU32_toI32 _⟩
    · exact absurd h (by simp)
  | some data =>
    simp only [hd] at h
    split at h
    · exact absurd h (by simp)
    · obtain ⟨rfl, rfl⟩ := Prod.mk.inj (Option.some.inj h)
      exact ⟨by simp [putBody, hd], by simp only [putBody, hd]; exact toU32_toI32 _⟩

/-- The message that an accepted put stores. -/
theorem exists_putMsg {conf : UcmqConf} (sys : Sys) {req : Request} {size : ℤ} {msg : List UInt8}
    (h : putMsg req = some (size, msg)) (hlen : putLenOk conf (toU32 size)) :
    ∃ m : Msg conf, m.time = curTime sys ∧ toU32 size = m.body.length ∧
      msg.take (toU32 size) = m.body ∧ m.body = storedBody (putBody req) := by
  obtain ⟨rfl, hsize⟩ := putMsg_eq h
  have hle : u32 (putBody req).length ≤ (putBody req).length := Nat.mod_le _ _
  have hlength : (storedBody (putBody req)).length = u32 (putBody req).length := by
    rw [storedBody, List.length_take, min_eq_left hle]
  rw [hsize] at hlen ⊢
  exact ⟨putMsgOf conf sys (storedBody (putBody req)) (by rw [hlength]; exact hlen.1)
    (by rw [hlength]; exact hlen.2), rfl, hlength.symm, rfl, rfl⟩

/-- A free name, or a sound queue with the given messages pending. A queue just
created is not logged; whether such queues occur is a parameter. -/
inductive Queued (conf : UcmqConf) (fresh : Prop) : List (Msg conf) → Slot → Prop
  | free : Queued conf fresh [] (.absent none)
  | held {st : Store} {finished pend : List (Msg conf)} (hs : Sound conf True st finished pend)
      (hl : Logged conf st finished ∨ fresh ∧ st = created conf) :
      Queued conf fresh pend (.listed st)

/-- A free name, or a sound queue with the given bodies pending. A queue just
created is not logged; whether such queues occur is a parameter. -/
inductive Tracked (conf : UcmqConf) (fresh : Prop) : List (List UInt8) → Slot → Prop
  | free : Tracked conf fresh [] (.absent none)
  | held {st : Store} {finished pend : List (Msg conf)} (hs : Sound conf True st finished pend)
      (hl : Logged conf st finished ∨ fresh ∧ st = created conf) :
      Tracked conf fresh (pend.map Msg.body) (.listed st)

variable {conf : UcmqConf} {sys : Sys} {fresh : Prop} {bodies : List (List UInt8)}
  {slot slot' : Slot}
variable {st st' : Store} {finished pend : List (Msg conf)} {n : String} {opts : List String}
variable {rs : List Reply} {req : Request} {ev : Event}

/-- A queue of messages tracks their bodies. -/
theorem tracked_of_queued (h : Queued conf fresh pend slot) :
    Tracked conf fresh (pend.map Msg.body) slot := by
  cases h with
  | free => exact .free
  | held hs hl => exact .held hs hl

/-- Tracked bodies are those of queued messages. -/
theorem queued_of_tracked (h : Tracked conf fresh bodies slot) :
    ∃ pend, Queued conf fresh pend slot ∧ bodies = pend.map Msg.body := by
  cases h with
  | free => exact ⟨[], .free, rfl⟩
  | held hs hl => exact ⟨_, .held hs hl, rfl⟩

/-- A queue just created tracks no body. -/
theorem tracked_created (hf : fresh) : Tracked conf fresh [] (.listed (created conf)) :=
  .held (sound_created conf).1 (Or.inr ⟨hf, rfl⟩)

/-- The queue a request works on is sound. -/
theorem sound_of_queued (h : Queued conf fresh pend slot) (ht : Touched conf slot st) :
    ∃ finished, Sound conf True st finished pend ∧
      (Logged conf st finished ∨ st = created conf) := by
  cases ht with
  | found =>
    cases h with
    | held hs hl => exact ⟨_, hs, hl.imp id And.right⟩
  | fresh dir =>
    cases h with
    | free => exact ⟨[], (sound_created conf).1, Or.inr rfl⟩

/-- The queue a request works on holds the tracked bodies. -/
theorem sound_of_touched (h : Tracked conf fresh bodies slot) (ht : Touched conf slot st) :
    ∃ finished pend, Sound conf True st finished pend ∧ bodies = pend.map Msg.body ∧
      (Logged conf st finished ∨ st = created conf) := by
  obtain ⟨pend, hq, hbodies⟩ := queued_of_tracked h
  obtain ⟨finished, hs, hl⟩ := sound_of_queued hq ht
  exact ⟨finished, pend, hs, hbodies, hl⟩

/-- Counters do not occur in the position log. -/
theorem logged_setCounters (h : Logged conf st finished) (unread put get : ℕ) (intv : ℤ) :
    Logged conf { st with q := { st.q with
      unreadCount := unread, putNum := put, getNum := get, syncIntv := intv } } finished := h

/-- The state after a put, whatever its result. -/
theorem sound_of_pushResult {m : Msg conf} {ret : QueuePutRet}
    (h : Sound conf True st finished pend) (hr : PushResult conf sys st m (.ok (ret, st'))) :
    ∃ pend', Sound conf True (pushed ret st') finished pend' ∧
      pend' = pend ++ (if ret = .putOk then [m] else []) ∧
      (ret = .putOk → Logged conf (pushed ret st') finished) ∧
      (Logged conf st finished → Logged conf (pushed ret st') finished) := by
  cases hr with
  | full => exact ⟨pend, h, by simp, by simp, id⟩
  | wlock => exact ⟨pend, h, by simp, by simp, id⟩
  | refused ho hw hd hrot hlow =>
    exact ⟨pend, (sound_rotating h hw hd).1, by simp, by simp, fun hl => logged_rotating h hl hd⟩
  | stored ho hr hrec =>
    obtain ⟨hs, hl, -⟩ := sound_of_pushed h (.stored ho hr hrec)
    exact ⟨_, hs.setCounters _ _ _ _, by simp, fun _ => logged_setCounters hl _ _ _ _,
      fun _ => logged_setCounters hl _ _ _ _⟩

/-- A put on a queue just created is accepted. -/
theorem putOk_of_created {m : Msg conf} {ret : QueuePutRet}
    (hr : PushResult conf sys (created conf) m (.ok (ret, st'))) : ret = .putOk := by
  cases hr with
  | full hf =>
    obtain ⟨hne, hlt⟩ := hf
    have hlt' : conf.defMaxQueue < 0+1 := hlt
    have hne' : conf.defMaxQueue ≠ 0 := hne
    omega
  | wlock hf hl =>
    have hl' : (0 : ℤ) = -1 ∨ curTime sys < 0 := hl
    omega
  | refused ho hw hd hrot hlow => exact absurd hrot (not_needsRotation_created m)
  | stored => rfl

/-- A put on a queued name. -/
theorem queued_put {ret : QueuePutRet} {size : ℤ} {msg : List UInt8}
    (h : Queued conf fresh pend slot) (hok : sys.Ok) (ht : Touched conf slot st)
    (hm : putMsg req = some (size, msg)) (hlen : putLenOk conf (toU32 size))
    (hp : mqQmPushItem conf sys (toU32 size) msg st = .ok (ret, st')) :
    ∃ m : Msg conf, m.time = curTime sys ∧ m.body = storedBody (putBody req) ∧
      Queued conf fresh (pend ++ (if ret = .putOk then [m] else []))
        (.listed (pushed ret st')) := by
  obtain ⟨finished, hs, hl⟩ := sound_of_queued h ht
  obtain ⟨m, htime, hsize, hbody, hstored⟩ := exists_putMsg sys hm hlen
  have hres := pushResult_of_sound hs hok htime hsize hbody
  rw [hp] at hres
  obtain ⟨pend', hs', rfl, hlogged, hkeep⟩ := sound_of_pushResult hs hres
  refine ⟨m, htime, hstored, .held hs' (Or.inl ?_)⟩
  rcases hl with hl | rfl
  · exact hkeep hl
  · exact hlogged (putOk_of_created hres)

/-- A put on a tracked name. -/
theorem tracked_put {ret : QueuePutRet} {size : ℤ} {msg : List UInt8}
    (h : Tracked conf fresh bodies slot) (hok : sys.Ok) (ht : Touched conf slot st)
    (hm : putMsg req = some (size, msg)) (hlen : putLenOk conf (toU32 size))
    (hp : mqQmPushItem conf sys (toU32 size) msg st = .ok (ret, st')) :
    Tracked conf fresh (bodies ++ (if ret = .putOk then [storedBody (putBody req)] else []))
      (.listed (pushed ret st')) := by
  obtain ⟨pend, hq, rfl⟩ := queued_of_tracked h
  obtain ⟨m, -, hbody, hq'⟩ := queued_put hq hok ht hm hlen hp
  have htr := tracked_of_queued hq'
  rw [List.map_append, apply_ite (List.map Msg.body), List.map_singleton, hbody] at htr
  exact htr

/-- A get on a queued name. -/
theorem queued_get {ret : QueueGetRet} (h : Queued conf fresh pend (.listed st)) (hok : sys.Ok)
    (hp : mqQmPopItem conf sys st = .ok (ret, st')) :
    ∃ taken pend', Queued conf fresh pend' (.listed st') ∧ pend = taken ++ pend' ∧
      taken.map Msg.body = gotten ret := by
  cases h with
  | held hs hl =>
    rcases hl with hl | ⟨hf, rfl⟩
    · have hres := popResult_of_sound hs hl hok
      rw [hp] at hres
      cases hres with
      | none => exact ⟨[], _, .held hs (Or.inl hl), rfl, rfl⟩
      | ended hm hs' hl' => exact ⟨[], _, .held hs' (Or.inl hl'), rfl, rfl⟩
      | young hm hs' hl' => exact ⟨[], _, .held hs' (Or.inl hl'), rfl, rfl⟩
      | @taken m _ _ _ _ hm hu hy hs' hrec =>
        obtain ⟨hs₂, hl₂⟩ := hs'.recorded hrec
        exact ⟨[m], _, .held hs₂ (Or.inl hl₂), rfl, by simp [gotten]⟩
    · rw [popItem_of_none rfl] at hp
      cases hp
      exact ⟨[], _, .held hs (Or.inr ⟨hf, rfl⟩), rfl, rfl⟩

/-- A get on a tracked name. -/
theorem tracked_get {ret : QueueGetRet} (h : Tracked conf fresh bodies (.listed st)) (hok : sys.Ok)
    (hp : mqQmPopItem conf sys st = .ok (ret, st')) :
    ∃ bodies', Tracked conf fresh bodies' (.listed st') ∧ bodies = gotten ret ++ bodies' := by
  obtain ⟨pend, hq, rfl⟩ := queued_of_tracked h
  obtain ⟨taken, pend', hq', rfl, htaken⟩ := queued_get hq hok hp
  exact ⟨_, tracked_of_queued hq', by rw [List.map_append, htaken]⟩

/-- Every setting function records the settings it changes. -/
theorem setResult_of_setBy (h : Sound conf True st finished pend) (hok : sys.Ok)
    (hset : SetBy sys st st') : SetResult st st' := by
  have hrange : ∀ x : ℤ, toU32 x < 2^32 := wlock_column_lt
  cases hset with
  | maxqueue x => exact setMaxqueue_of_sound h hok (hrange x)
  | delay x => exact setDelay_of_sound h hok (hrange x)
  | wlock x => exact setWlock_of_sound h hok _

/-- A setting on a queued name. -/
theorem queued_set (h : Queued conf fresh pend slot) (hok : sys.Ok) (ht : Touched conf slot st)
    (hset : SetBy sys st st') : Queued conf fresh pend (.listed st') := by
  obtain ⟨finished, hs, -⟩ := sound_of_queued h ht
  obtain ⟨hs', hl'⟩ := sound_of_set hs (setResult_of_setBy hs hok hset)
  exact .held hs' (Or.inl hl')

/-- A setting on a tracked name. -/
theorem tracked_set (h : Tracked conf fresh bodies slot) (hok : sys.Ok) (ht : Touched conf slot st)
    (hset : SetBy sys st st') : Tracked conf fresh bodies (.listed st') := by
  obtain ⟨pend, hq, rfl⟩ := queued_of_tracked h
  exact tracked_of_queued (queued_set hq hok ht hset)

/-- The position log of a listed queue is small and its write file has an index
of twelve digits. -/
def Reloadable : Slot → Prop
  | .absent _ => True
  | .listed st => (∀ t, st.dir.rtag st.q.curRdb.curIndex = some t → t.length < 2^31) ∧
    st.q.curWdb.curIndex < 10^12

/-- The position log of a listed queue is the one written when it was created. -/
def OnlyCreationRecord (conf : UcmqConf) : Slot → Prop
  | .absent _ => False
  | .listed st => st.dir.rtag st.q.curRdb.curIndex = some (rtagText (creationItem conf))

/-- Its log is the record of its creation. -/
theorem onlyCreationRecord_created (conf : UcmqConf) :
    OnlyCreationRecord conf (.listed (created conf)) := by
  simp [OnlyCreationRecord, created]

/-- A logged queue has more in its position log. -/
theorem not_onlyCreationRecord (hs : Sound conf True st finished pend)
    (hl : Logged conf st finished) :
    ¬OnlyCreationRecord conf (.listed st) := by
  obtain ⟨t, rpos, d, ht, -, -, hle, -⟩ := hl
  have h := hs.typed
  have htyped : RtagItem.Typed { rtagItem st.q with rpos := rpos } :=
    ⟨h.rcount, lt_of_le_of_lt hle h.rpos, h.wpos, h.maxqueue, h.delay, h.wlock_ge, h.wlock_lt⟩
  intro honly
  have hsame := Option.some.inj (ht.symm.trans honly)
  have hlen := congrArg List.length hsame
  rw [List.length_append, length_rtagText htyped, length_rtagText (creationItem_typed conf)] at hlen
  obtain rfl : t = [] := List.length_eq_zero_iff.mp (by omega)
  have hitem := rtagText_injective htyped (creationItem_typed conf) hsame
  have hpos : st.q.curWdb.pos = 0 := congrArg RtagItem.wpos hitem
  have hge := hs.files.wpos_ge
  omega

/-- A logged queue is loaded again with its pending messages. -/
theorem reloaded_of_logged {listing : List Fname} (hs : Sound conf True st finished pend)
    (hl : Logged conf st finished) (hok : sys.Ok) (hr : Reloadable (.listed st))
    (hlist : IsListing st.dir listing) :
    ∃ rpos, Restorable conf True st.dir st.q.curRdb.curIndex st.q.curWdb.curIndex
        { rtagItem st.q with rpos := rpos } finished pend ∧
      reloaded conf sys listing (some st.dir) = .listed (mqSmGetMsgCount conf sys listing
        (restored st.dir st.q.curRdb.curIndex st.q.curWdb.curIndex
          { rtagItem st.q with rpos := rpos })) := by
  obtain ⟨rpos, hrest⟩ := restorable_of_logged hs hl hr.1 hr.2
  refine ⟨rpos, hrest, ?_⟩
  simp only [reloaded, openQueue_of_loadable hrest.loadable hok hlist]
  rfl

/-- Counting messages keeps the log. -/
theorem logged_getMsgCount (h : Logged conf st finished) (sys : Sys) (listing : List Fname) :
    Logged conf (mqSmGetMsgCount conf sys listing st) finished := by
  obtain ⟨unread, put, get, heq⟩ := getMsgCount_eq conf sys listing st
  rw [heq]
  exact h

/-- A restart of a queued name. -/
theorem queued_restart {listing : List Fname} (h : Queued conf fresh pend slot) (hok : sys.Ok)
    (hl : ∀ d, Slot.dir slot = some d → IsListing d listing) (hr : Reloadable slot)
    (hc : fresh → ¬OnlyCreationRecord conf slot) :
    Queued conf fresh pend (reloaded conf sys listing (Slot.dir slot)) := by
  cases h with
  | free => exact .free
  | held hs hlog =>
    rcases hlog with hlog | ⟨hf, rfl⟩
    · obtain ⟨rpos, hrest, heq⟩ := reloaded_of_logged hs hlog hok hr (hl _ rfl)
      obtain ⟨hs', hl'⟩ := sound_restored hrest
      rw [Slot.dir, heq]
      exact .held (sound_getMsgCount hs' sys listing) (Or.inl (logged_getMsgCount hl' sys listing))
    · exact absurd (onlyCreationRecord_created conf) (hc hf)

/-- Second at which an event is served, as puts store it. -/
def eventTime : Event → ℕ
  | .request sys _ => curTime sys
  | .restart _ _ _ => 0

/-- Pending messages after an event: a deletion leaves none, otherwise accepted
ones join at the end and returned ones leave at the front. -/
structure MessagesMoved (n : String) (ev : Event) (rs : List Reply) (pend pend' : List (Msg conf)) :
    Prop where
  deleted : DeletedIn n ev → pend' = []
  kept : ¬DeletedIn n ev → ∃ added taken : List (Msg conf), pend ++ added = taken ++ pend' ∧
    added.map (fun m => (m.time, m.body)) =
      (acceptedIn n (ev, rs)).map (fun b => (eventTime ev, storedBody b)) ∧
    taken.map Msg.body = returnedIn n (ev, rs)

/-- Pending bodies after an event: a deletion leaves none, otherwise accepted ones
join at the end and returned ones leave at the front. -/
structure BodiesMoved (n : String) (ev : Event) (rs : List Reply)
    (bodies bodies' : List (List UInt8)) :
    Prop where
  deleted : DeletedIn n ev → bodies' = []
  kept : ¬DeletedIn n ev →
    bodies ++ (acceptedIn n (ev, rs)).map storedBody = returnedIn n (ev, rs) ++ bodies'

/-- An event that discloses nothing and deletes nothing leaves the bodies. -/
theorem BodiesMoved.unchanged {bodies bodies' : List (List UInt8)}
    (h : BodiesMoved n ev rs bodies bodies') (hdel : ¬DeletedIn n ev)
    (hacc : acceptedIn n (ev, rs) = []) (hret : returnedIn n (ev, rs) = []) :
    bodies = bodies' := by
  have hb := h.kept hdel
  rw [hacc, hret] at hb
  simpa using hb

/-- The bodies of moved messages. -/
theorem MessagesMoved.bodiesMoved {pend' : List (Msg conf)} (h : MessagesMoved n ev rs pend pend') :
    BodiesMoved n ev rs (pend.map Msg.body) (pend'.map Msg.body) := by
  refine ⟨fun hdel => by rw [h.deleted hdel]; rfl, fun hdel => ?_⟩
  obtain ⟨added, taken, heq, hadded, htaken⟩ := h.kept hdel
  have hbodies : added.map Msg.body = (acceptedIn n (ev, rs)).map storedBody := by
    have hsnd := congrArg (List.map Prod.snd) hadded
    simpa only [List.map_map, Function.comp_def] using hsnd
  rw [← hbodies, ← htaken, ← List.map_append, ← List.map_append, heq]

/-- An event that discloses nothing and deletes nothing. -/
theorem messagesMoved_refl (hdel : DeletedIn n ev → pend = []) (hacc : acceptedIn n (ev, rs) = [])
    (hret : returnedIn n (ev, rs) = []) : MessagesMoved n ev rs pend pend :=
  ⟨hdel, fun _ => ⟨[], [], by simp, by rw [hacc]; rfl, hret.symm⟩⟩

/-- One event on a queued name. -/
theorem queued_step (h : Queued conf fresh pend slot)
    (hstep : SlotStep conf opts n ev rs slot slot')
    (hfresh : (∃ o ∈ opts, o ∈ deletingOpts) → fresh)
    (hr : (∃ sys names listing, ev = .restart sys names listing) →
      Reloadable slot ∧ (fresh → ¬OnlyCreationRecord conf slot)) :
    ∃ pend', Queued conf fresh pend' slot' ∧ MessagesMoved n ev rs pend pend' := by
  cases hstep with
  | other hn =>
    exact ⟨pend, h, messagesMoved_refl (fun hdel => absurd hdel.1 hn) (acceptedIn_of_ne hn)
      (returnedIn_of_ne hn)⟩
  | restarted hok hl =>
    obtain ⟨hreload, hc⟩ := hr ⟨_, _, _, rfl⟩
    exact ⟨pend, queued_restart h hok hl hreload hc,
      messagesMoved_refl (fun hdel => hdel.elim) rfl rfl⟩
  | handled hok hn hopt hh =>
    cases hh with
    | unchanged hrs hkeep =>
      refine ⟨pend, h, messagesMoved_refl (fun hdel => ?_) (acceptedIn_of_silent hrs)
        (returnedIn_of_silent hrs)⟩
      obtain ⟨dir, rfl⟩ := hkeep hdel.2
      cases h
      rfl
    | @put _ _ _ _ _ ret _ hput ht hm hlen hp hrep =>
      obtain ⟨m, htime, hbody, hq⟩ := queued_put h hok ht hm hlen hp
      refine ⟨_, hq, fun hdel => ?_, fun _ => ⟨if ret = .putOk then [m] else [], [], rfl, ?_, ?_⟩⟩
      · exact (not_deletes ⟨"put", List.mem_singleton_self _, hput⟩ (by decide) hdel.2).elim
      · rw [acceptedIn_put hput hn hrep]
        split
        · rw [List.map_singleton, List.map_singleton, htime, hbody]
          rfl
        · rfl
      · rw [returnedIn_put hput]
        rfl
    | get hget hp hrep =>
      obtain ⟨taken, pend', hq, rfl, htaken⟩ := queued_get h hok hp
      refine ⟨pend', hq, fun hdel => ?_, fun _ => ⟨[], taken, by rw [List.append_nil], ?_, ?_⟩⟩
      · exact (not_deletes ⟨"get", List.mem_singleton_self _, hget⟩ (by decide) hdel.2).elim
      · rw [acceptedIn_get hget]
        rfl
      · rw [returnedIn_get hget hn hrep, htaken]
    | set hset ht hset' hrs =>
      exact ⟨pend, queued_set h hok ht hset', messagesMoved_refl
        (fun hdel => (not_deletes hset (by decide) hdel.2).elim) (acceptedIn_of_silent hrs)
        (returnedIn_of_silent hrs)⟩
    | removed hdel => exact ⟨[], .free, fun _ => rfl, fun hno => absurd ⟨hn, hdel⟩ hno⟩
    | reset hdel =>
      obtain ⟨o, ho, heq⟩ := id hopt
      obtain ⟨o', ho', heq'⟩ := hdel.opt
      rw [heq] at heq'
      cases heq'
      exact ⟨[], .held (sound_created conf).1 (Or.inr ⟨hfresh ⟨o, ho, ho'⟩, rfl⟩), fun _ => rfl,
        fun hno => absurd ⟨hn, hdel⟩ hno⟩

/-- One event on a tracked name. -/
theorem tracked_step (h : Tracked conf fresh bodies slot)
    (hstep : SlotStep conf opts n ev rs slot slot')
    (hfresh : (∃ o ∈ opts, o ∈ deletingOpts) → fresh)
    (hr : (∃ sys names listing, ev = .restart sys names listing) →
      Reloadable slot ∧ (fresh → ¬OnlyCreationRecord conf slot)) :
    ∃ bodies', Tracked conf fresh bodies' slot' ∧ BodiesMoved n ev rs bodies bodies' := by
  obtain ⟨pend, hq, rfl⟩ := queued_of_tracked h
  obtain ⟨pend', hq', hmoved⟩ := queued_step hq hstep hfresh hr
  exact ⟨_, tracked_of_queued hq', hmoved.bodiesMoved⟩

end Ucmq.CleanRestart
