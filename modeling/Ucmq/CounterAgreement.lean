import Ucmq.PendingBodies

/-!
# Counters within one run

Without restarts and deletions the counters of a queue agree with its history
and with its files: puts and gets with the accepted and returned bodies, the
unread count with the frames between the cursors, and the two operation counters
with the frames written to the write file and read from the read file. Since the
unread count is exact, a get that reaches the store always finds a message before
the end of the queue. The one condition is that no put releases the write file
and is then refused storage for the next one.
-/

namespace Ucmq.CounterAgreement

open ByteRegion FramedLog LabelledRun StoreConfig StoreMsg StoreState StoreRtag StoreFile
open StoreManage QueueManage StoreInvariant ReadPath WritePath HandleFile Recovery Evhttp QueueStep
open QueueSlots RequestEffect ServerRun CleanRestart FifoRefinement RotationRuns DeliveryOrder
open UnreadCount CursorInvariant DirectoryLayout

/-- The operation counter of the write cursor is the number of frames in the
write file. -/
def WriteCounted (conf : UcmqConf) (st : Store) : Prop :=
  ∃ d ms, dbSeg conf st.dir.db st.q.curWdb.curIndex = some d ∧
    (msgFraming conf).Scans d 128 ms st.q.curWdb.pos ∧ st.q.curWdb.optCount = ms.length

variable {conf : UcmqConf} {sys : Sys} {st st' : Store} {finished pend : List (Msg conf)}
  {m : Msg conf}
variable {d : Region}

/-- A queue just created has counted no put. -/
theorem writeCounted_created (conf : UcmqConf) : WriteCounted conf (created conf) := by
  have hpos : (created conf).q.curWdb.pos = 128 := rfl
  refine ⟨blankData conf, [], dbSeg_update_self 1 _, ?_, rfl⟩
  rw [hpos]
  exact ⟨le_rfl, fun i _ _ => by omega⟩

/-- The counter depends on the write cursor and the write file only. -/
theorem WriteCounted.congr (h : WriteCounted conf st) (hw : st'.q.curWdb = st.q.curWdb)
    (hdb : st'.dir.db st.q.curWdb.curIndex = st.dir.db st.q.curWdb.curIndex) :
    WriteCounted conf st' := by
  obtain ⟨d, ms, hd, hscan, hcount⟩ := h
  refine ⟨d, ms, ?_, ?_, ?_⟩
  · rw [hw, dbSeg_congr hdb]
    exact hd
  · rw [hw]
    exact hscan
  · rw [hw]
    exact hcount

/-- Recording keeps the count of the write file. -/
theorem writeCounted_recorded (h : WriteCounted conf st) (hrec : Recorded st st') :
    WriteCounted conf st' :=
  h.congr (by rw [hrec.q]) (by rw [hrec.db])

/-- So does moving the reader. -/
theorem writeCounted_of_moved (h : WriteCounted conf st) (hm : ReaderMoved st st')
    (hle : st'.q.curRdb.curIndex ≤ st.q.curWdb.curIndex) : WriteCounted conf st' :=
  h.congr (by rw [hm.q]) (hm.db _ hle)

/-- A frame added to the write file is counted. -/
theorem writeCounted_append (h : WriteCounted conf st)
    (hd : dbSeg conf st.dir.db st.q.curWdb.curIndex = some d)
    (hfit : st.q.curWdb.pos+(m.body.length+12) ≤ maxDbFileSize conf) :
    WriteCounted conf (appendMsg conf st d m) := by
  obtain ⟨d', ms, hd', hscan, hcount⟩ := h
  obtain rfl : d' = d := Option.some.inj (hd'.symm.trans hd)
  have hkeep : (msgFraming conf).Scans (writeAt d' st.q.curWdb.pos (msgBytes m.item)) 128 ms
      st.q.curWdb.pos := hscan.congr fun i _ hi => (writeAt_outside d' (Or.inl hi)).symm
  have hsnoc := hkeep.snoc (a := m) (holds_writeAt d' st.q.curWdb.pos (msgBytes m.item))
  rw [msgFraming_enc, length_msgBytes, Nat.add_comm 12] at hsnoc
  refine ⟨_, ms ++ [m], dbSeg_update_self _ _, hsnoc, ?_⟩
  have hroom := hsnoc.length_mul_le
  have hmax := maxDbFileSize_le conf
  simp only [List.length_append, List.length_singleton, msgFraming_headLen] at hroom ⊢
  show u32 (st.q.curWdb.optCount+1) = ms.length+1
  rw [hcount, u32_of_lt (by omega)]

/-- A new write file holds no frame. -/
theorem writeCounted_next {s₁ : Store} (hrec : Recorded (nextWriter conf st) s₁) :
    WriteCounted conf s₁ := by
  obtain ⟨hpos, hseg⟩ := fresh_of_recorded hrec
  refine ⟨freshData conf, [], hseg, ?_, ?_⟩
  · rw [hpos]
    exact ⟨le_rfl, fun i _ _ => by omega⟩
  · rw [hrec.q]
    rfl

/-- The head of the write file is not part of its frames. -/
theorem writeCounted_rotating (h : WriteCounted conf st) (hn : st.q.curWdb.optCount < 2^32)
    (hd : dbSeg conf st.dir.db st.q.curWdb.curIndex = some d) :
    WriteCounted conf (rotating conf st d) := by
  obtain ⟨d', ms, hd', hscan, hcount⟩ := h
  obtain rfl : d' = d := Option.some.inj (hd'.symm.trans hd)
  have hpos := rotating_wcursor conf st d'
  refine ⟨withHead d' st.q.curWdb.optCount, ms, ?_, ?_, hpos.2.trans hcount⟩
  · rw [rotating_index, rotating_dir]
    exact dbSeg_update_self _ _
  · rw [hpos.1]
    exact hscan.congr fun i hi _ => (withHead_of_le hn hi).symm

/-- A stored message is counted in the file it goes to. -/
theorem writeCounted_of_stored (hs : Sound conf True st finished pend) (h : WriteCounted conf st)
    (hr : WriteResult conf sys st m (.ok (true, st'))) : WriteCounted conf st' := by
  cases hr with
  | appended hw hd hfit =>
    have hroom := mt (needsRotation_iff hs.files rfl m).mpr hfit
    exact writeCounted_append h hd (by omega)
  | @rotated d s₁ hw hd hrot hlow hrec =>
    obtain ⟨hpos, hseg⟩ := fresh_of_recorded hrec
    have hle := m.body_le
    have hmin := le_maxDbFileSize conf
    exact writeCounted_append (writeCounted_next hrec) hseg (by omega)

/-- Counters of a queue with the given numbers of puts, gets and unread messages. -/
structure Counters (conf : UcmqConf) (puts gets unread : ℕ) (st : Store) : Prop where
  putNum : st.q.putNum = puts
  getNum : st.q.getNum = gets
  unreadCount : st.q.unreadCount = unread
  written : WriteCounted conf st

variable {puts gets unread : ℕ}

/-- All counters of a queue just created are zero. -/
theorem counters_created (conf : UcmqConf) : Counters conf 0 0 0 (created conf) :=
  ⟨rfl, rfl, rfl, writeCounted_created conf⟩

/-- Leaving a write file changes neither number. -/
theorem counts_rotating (conf : UcmqConf) (st : Store) (d : Region) :
    (rotating conf st d).q.putNum = st.q.putNum ∧ (rotating conf st d).q.getNum = st.q.getNum := by
  unfold rotating releaseWriteFile
  split <;> exact ⟨rfl, rfl⟩

/-- Moving the reader counts nothing. -/
theorem counts_of_moved (h : ReaderMoved st st') :
    st'.q.putNum = st.q.putNum ∧ st'.q.getNum = st.q.getNum ∧ st'.q.unreadCount = st.q.unreadCount ∧
      st'.q.curWdb = st.q.curWdb := by
  rw [h.q]
  exact ⟨rfl, rfl, rfl, rfl⟩

/-- An accepted put is counted twice, as a put and as unread. -/
theorem counters_push {ret : QueuePutRet} (hs : Sound conf True st finished pend)
    (h : Counters conf puts gets unread st) (hr : PushResult conf sys st m (.ok (ret, st'))) :
    Counters conf (puts+(if ret = .putOk then 1 else 0)) gets
      (unread+(if ret = .putOk then 1 else 0))
      (pushed ret st') := by
  cases hr with
  | full => exact h
  | wlock => exact h
  | @refused d ho hw hd hrot hlow =>
    have hq := counts_rotating conf st d
    exact ⟨hq.1.trans h.putNum, hq.2.trans h.getNum,
      (sameSettings_rotating conf st d).unreadCount.trans h.unreadCount,
      writeCounted_rotating h.written hs.inRange.wcount_lt hd⟩
  | @stored s₁ s₂ ho hr hrec =>
    have hq : s₁.q.putNum = st.q.putNum+1 ∧ s₁.q.getNum = st.q.getNum := by
      cases hr with
      | appended => exact ⟨rfl, rfl⟩
      | @rotated d s₀ hw hd hrot hlow hnew =>
        have hrel := counts_rotating conf st d
        have hnext : s₀.q.putNum = st.q.putNum ∧ s₀.q.getNum = st.q.getNum := by
          rw [hnew.q]
          exact hrel
        exact ⟨congrArg (·+1) hnext.1, hnext.2⟩
    have hunread := (sameSettings_of_stored hr).unreadCount
    have hwritten := writeCounted_recorded (writeCounted_of_stored hs h.written hr) hrec
    have hput := h.putNum
    have hget := h.getNum
    have hun := h.unreadCount
    refine ⟨?_, ?_, ?_, hwritten.congr rfl rfl⟩
    · simp only [pushed, hrec.q, if_true]
      omega
    · simp only [pushed, hrec.q]
      omega
    · simp only [pushed, hrec.q, if_true]
      omega

/-- A returned message is counted as a get and as unread no more. -/
theorem counters_pop {ret : QueueGetRet} (h : Counters conf puts gets pend.length st)
    (hr : PopResult conf sys True st pend (.ok (ret, st'))) :
    Counters conf puts (gets+(gotten ret).length) (pend.length-(gotten ret).length) st' := by
  have hput := h.putNum
  have hget := h.getNum
  have hun := h.unreadCount
  cases hr with
  | none => exact h
  | @ended fin s' hm hs hl =>
    obtain ⟨hp, hg, -, hw⟩ := counts_of_moved hm
    have hle : s'.q.curRdb.curIndex ≤ s'.q.curWdb.curIndex := hs.files.index_le
    rw [hw] at hle
    exact ⟨hp.trans hput, hg.trans hget, rfl,
      (writeCounted_of_moved h.written hm hle).congr rfl rfl⟩
  | @young m rest fin s' hm hs hl hy =>
    obtain ⟨hp, hg, hu, hw⟩ := counts_of_moved hm
    have hle := hs.files.index_le
    rw [hw] at hle
    exact ⟨hp.trans hput, hg.trans hget, hu.trans hun, writeCounted_of_moved h.written hm hle⟩
  | @taken m rest fin s' s₂ hm hu hy hs hrec =>
    obtain ⟨hp, hg, hunread, hw⟩ := counts_of_moved hm
    have hle : s'.q.curRdb.curIndex ≤ s'.q.curWdb.curIndex := hs.files.index_le
    rw [hw] at hle
    have hwritten : WriteCounted conf (takeMsg s' m.body.length) :=
      (writeCounted_of_moved h.written hm hle).congr rfl rfl
    refine ⟨?_, ?_, ?_, writeCounted_recorded hwritten hrec⟩
    · rw [hrec.q]
      exact hp.trans hput
    · rw [hrec.q]
      exact congrArg (·+1) (hg.trans hget)
    · rw [hrec.q]
      exact congrArg (·-1) (hunread.trans hun)

/-- Settings are not counted. -/
theorem counters_set (hs : Sound conf True st finished pend) (hok : sys.Ok)
    (h : Counters conf puts gets unread st) (hset : SetBy sys st st') :
    Counters conf puts gets unread st' := by
  obtain ⟨maxque, delay, wlock, -, -, -, -, hrec⟩ := setResult_of_setBy hs hok hset
  have hwritten : WriteCounted conf (setSettings st maxque delay wlock) := h.written.congr rfl rfl
  refine ⟨?_, ?_, ?_, writeCounted_recorded hwritten hrec⟩
  · rw [hrec.q]
    exact h.putNum
  · rw [hrec.q]
    exact h.getNum
  · rw [hrec.q]
    exact h.unreadCount

variable {acc ret : List (List UInt8)} {bodies : List (List UInt8)} {slot slot' : Slot} {n : String}
variable {ev : Event} {rs : List Reply} {req : Request} {banner : String}
  {tr : History} {s : Server}

/-- Counters of a name with the given bodies pending. A name that is not listed
has no history. -/
def SlotCounters (conf : UcmqConf) (acc ret bodies : List (List UInt8)) : Slot → Prop
  | .absent _ => acc = [] ∧ ret = [] ∧ bodies = []
  | .listed st => Counters conf acc.length ret.length bodies.length st

/-- The queue a request works on has its counters in order. -/
theorem counters_of_touched (h : SlotCounters conf acc ret bodies slot)
    (ht : Touched conf slot st) :
    Counters conf acc.length ret.length bodies.length st := by
  cases ht with
  | found => exact h
  | fresh dir =>
    obtain ⟨rfl, rfl, rfl⟩ := h
    exact counters_created conf

/-- The event is a request. -/
def Requests : Event → String → Slot → Prop
  | .request _ _, _, _ => True
  | .restart _ _ _, _, _ => False

/-- The event is a request, and no put under the name is refused storage behind its
reader. -/
def Undisturbed (conf : UcmqConf) (ev : Event) (n : String) (slot : Slot) : Prop :=
  Requests ev n slot ∧ StorageKept conf ev n slot

/-- A name that is tracked and counted. -/
def Agreeing (conf : UcmqConf) (acc ret : List (List UInt8)) (slot : Slot) : Prop :=
  ∃ bodies, Tracked conf False bodies slot ∧ SlotCounters conf acc ret bodies slot ∧
    acc.length = ret.length+bodies.length

/-- A put on a tracked name. -/
theorem counters_put {fresh : Prop} {ret' : QueuePutRet} {size : ℤ} {msg : List UInt8}
    (ht : Tracked conf fresh bodies slot) (h : Counters conf puts gets unread st) (hok : sys.Ok)
    (hto : Touched conf slot st) (hm : putMsg req = some (size, msg))
    (hlen : putLenOk conf (toU32 size))
    (hp : mqQmPushItem conf sys (toU32 size) msg st = .ok (ret', st')) :
    Counters conf (puts+(if ret' = .putOk then 1 else 0)) gets
      (unread+(if ret' = .putOk then 1 else 0))
      (pushed ret' st') := by
  obtain ⟨finished, pend, hs, -, -⟩ := sound_of_touched ht hto
  obtain ⟨m, htime, hsize, hbody, -⟩ := exists_putMsg sys hm hlen
  have hres := pushResult_of_sound hs hok htime hsize hbody
  rw [hp] at hres
  exact counters_push hs h hres

/-- A get on a tracked name. -/
theorem counters_get {fresh : Prop} {ret' : QueueGetRet}
    (ht : Tracked conf fresh bodies (.listed st)) (h : Counters conf puts gets bodies.length st)
    (hok : sys.Ok) (hp : mqQmPopItem conf sys st = .ok (ret', st')) :
    Counters conf puts (gets+(gotten ret').length) (bodies.length-(gotten ret').length) st' := by
  cases ht with
  | @held _ finished pend hs hl =>
    rw [List.length_map] at h ⊢
    rcases hl with hl | ⟨-, rfl⟩
    · have hres := popResult_of_sound hs hl hok
      rw [hp] at hres
      exact counters_pop h hres
    · rw [popItem_of_none rfl] at hp
      cases hp
      exact h

/-- One request on a counted name. -/
theorem agreeing_step (h : Agreeing conf acc ret slot) (hg : Requests ev n slot)
    (hstep : SlotStep conf layoutOpts n ev rs slot slot') :
    Agreeing conf (acc ++ acceptedIn n (ev, rs)) (ret ++ returnedIn n (ev, rs)) slot' := by
  obtain ⟨bodies, ht, hc, htotal⟩ := h
  obtain ⟨bodies', ht', hmoved⟩ := tracked_step ht hstep (by decide) (by
    rintro ⟨sys, names, listing, rfl⟩
    exact hg.elim)
  have hdel := not_deletedIn hstep (by decide)
  have hlength := congrArg List.length (hmoved.kept hdel)
  simp only [List.length_append, List.length_map] at hlength
  refine ⟨bodies', ht', ?_, by simp only [List.length_append]; omega⟩
  cases hstep with
  | restarted => exact hg.elim
  | other hn =>
    obtain rfl := hmoved.unchanged hdel (acceptedIn_of_ne hn) (returnedIn_of_ne hn)
    rw [acceptedIn_of_ne hn, returnedIn_of_ne hn]
    simpa using hc
  | handled hok hn hopt hh =>
    cases hh with
    | unchanged hrs _ =>
      obtain rfl := hmoved.unchanged hdel (acceptedIn_of_silent hrs) (returnedIn_of_silent hrs)
      rw [acceptedIn_of_silent hrs, returnedIn_of_silent hrs]
      simpa using hc
    | @put _ st st' size msg ret' r hput hto hm hlen hp hrep =>
      rw [acceptedIn_put hput hn hrep, returnedIn_put hput] at hlength ⊢
      have hcount := counters_put ht (counters_of_touched hc hto) hok hto hm hlen hp
      have hone : ∀ b : List UInt8, (if ret' = .putOk then [b] else []).length =
          if ret' = .putOk then 1 else 0 := fun b => by split <;> rfl
      simp only [hone, List.length_nil, Nat.zero_add] at hlength
      simp only [SlotCounters, List.length_append, List.append_nil, hone, ← hlength]
      exact hcount
    | get hget hp hrep =>
      rw [acceptedIn_get hget, returnedIn_get hget hn hrep] at hlength ⊢
      have hcount := counters_get ht hc hok hp
      rw [List.length_nil, Nat.add_zero] at hlength
      rw [hlength, Nat.add_sub_cancel_left] at hcount
      simpa only [SlotCounters, List.append_nil, List.length_append] using hcount
    | set hset hto hset' hrs =>
      obtain rfl := hmoved.unchanged hdel (acceptedIn_of_silent hrs) (returnedIn_of_silent hrs)
      rw [acceptedIn_of_silent hrs, returnedIn_of_silent hrs]
      obtain ⟨finished, pend, hs, -, -⟩ := sound_of_touched ht hto
      simpa only [SlotCounters, List.append_nil] using
        counters_set hs hok (counters_of_touched hc hto) hset'
    | removed hdel => exact (not_deletes hopt (by decide) hdel).elim
    | reset hdel => exact (not_deletes hopt (by decide) hdel).elim

/-- The read loop finds the end of the queue. -/
def AtQueueEnd (st : Store) : Prop :=
  st.q.curRdb.curIndex = st.q.curWdb.curIndex ∧ st.q.curWdb.pos ≤ u32 (st.q.curRdb.pos+12)

/-- The counters of a queue agree with its history and its files. -/
structure Agrees (conf : UcmqConf) (acc ret : List (List UInt8)) (st : Store) : Prop where
  putNum : st.q.putNum = acc.length
  getNum : st.q.getNum = ret.length
  unread : st.q.getNum+st.q.unreadCount = st.q.putNum
  frames : ∃ finished pend, Files conf True st.dir.db st.q.curRdb.curIndex st.q.curRdb.pos
      st.q.curWdb.curIndex st.q.curWdb.pos finished pend ∧
    st.q.unreadCount = pend.length ∧ st.q.curRdb.optCount = finished.length
  written : WriteCounted conf st

/-- With unread messages the read loop does not find the end of the queue. -/
theorem not_atQueueEnd (hs : Sound conf True st finished pend) (hl : Logged conf st finished)
    (hu : st.q.unreadCount = pend.length) (hpos : 0 < st.q.unreadCount) (hok : sys.Ok)
    (hm : Relation.ReflTransGen (ReadMove conf sys) st st') : ¬AtQueueEnd st' := by
  obtain ⟨fin, hs', hl', -⟩ := sound_of_moves hs hl hok hm
  rintro ⟨he, hp⟩
  rw [hs'.files.u32_rpos (by omega)] at hp
  obtain ⟨rfl, -⟩ := sound_atQueueEnd hs' hl' he hp
  rw [List.length_nil] at hu
  omega

/-- The capacity check of an accepted put. -/
theorem below_of_putOk {len : ℕ} {msg : List UInt8}
    (h : mqQmPushItem conf sys len msg st = .ok (.putOk, st')) :
    st.q.maxque = 0 ∨ st.q.unreadCount < st.q.maxque := by
  have hroom := (putOpen_of_putOk h).1
  unfold queueFull at hroom
  omega

/-- A put that a served request reports as accepted passed the capacity check. -/
theorem below_of_accepted {s' : Server} (hall : ∀ n, ∃ slot, HasSlot s n slot) (hok : sys.Ok)
    (hslot : HasSlot s n (.listed st)) (hserve : serve banner (.request sys req) s = .ok (rs, s'))
    (hacc : acceptedIn n (.request sys req, rs) ≠ []) :
    st.q.maxque = 0 ∨ st.q.unreadCount < st.q.maxque := by
  have hput : AcceptedPut n req rs := by
    by_contra hno
    exact hacc (if_neg hno)
  have hadm : Admissible ["put"] s (.request sys req) :=
    ⟨hok, "put", List.mem_singleton_self _, hput.1⟩
  obtain ⟨-, hsteps⟩ := slotStep_of_serve (by decide) hadm hall hserve
  obtain ⟨slot', -, hstep⟩ := hsteps n _ hslot
  cases hstep with
  | other hn => exact absurd hput.2.1 hn
  | handled _ _ hopt hh =>
    cases hh with
    | unchanged hrs _ => exact absurd (acceptedIn_of_silent hrs) hacc
    | @put _ _ _ _ _ ret' _ hopt' hto hm hlen hp hrep =>
      rw [acceptedIn_put hopt' hput.2.1 hrep] at hacc
      cases hto with
      | found =>
        by_cases hr : ret' = .putOk
        · rw [hr] at hp
          exact below_of_putOk hp
        · rw [if_neg hr] at hacc
          exact absurd rfl hacc
    | get hget _ _ => exact absurd (acceptedIn_get hget) hacc
    | set _ _ _ hrs => exact absurd (acceptedIn_of_silent hrs) hacc
    | removed _ hrs => exact absurd (acceptedIn_of_silent hrs) hacc
    | reset _ hrs => exact absurd (acceptedIn_of_silent hrs) hacc

/-- Every name is tracked and counted after every run of requests that delete
nothing. -/
theorem agreeing_of_run
    (h : Run (serve banner) (Guarded layoutOpts Requests) (Server.start conf) tr s) (n : String) :
    ∃ slot, HasSlot s n slot ∧ Agreeing conf (accepted n tr) (returned n tr) slot := by
  obtain ⟨-, hall⟩ := run_slots (J := fun _ => Agreeing conf) (by decide)
    (fun _ => ⟨[], .free, ⟨rfl, rfl, rfl⟩, rfl⟩)
      (fun _ _ _ _ _ _ _ hJ hg hs => agreeing_step hJ hg hs) h
  exact hall n

/-- What the counters of a listed queue promise: they agree with its history and
its files, no get finds the end of the queue in the store, and puts are accepted
below the capacity only. -/
structure CountersKept (conf : UcmqConf) (banner : String) (tr : History) (s : Server)
    (e : QueueEntry) :
    Prop where
  agrees : Agrees conf (accepted e.qname tr) (returned e.qname tr) (s.store e)
  inside : ∀ sys st', sys.Ok → 0 < e.q.unreadCount →
    Relation.ReflTransGen (ReadMove conf sys) (s.store e) st' → ¬AtQueueEnd st'
  below : ∀ sys req rs s', sys.Ok → serve banner (.request sys req) s = .ok (rs, s') →
    acceptedIn e.qname (.request sys req, rs) ≠ [] → e.q.maxque = 0 ∨ e.q.unreadCount < e.q.maxque

/-- In every run of requests that delete nothing and never leave a write file
released, the counters of every listed queue agree with its history and its files. -/
theorem counters_agree
    (h : Run (serve banner) (Guarded layoutOpts (Undisturbed conf)) (Server.start conf) tr s) :
    ∀ e ∈ s.qlist, CountersKept conf banner tr s e := by
  intro e he
  have hall :=
    agreeing_of_run (run_mono layoutOpts (fun _ ho => ho) (fun _ _ _ hg => And.left hg) h)
  obtain ⟨slot, hslot, bodies, ht, hc, htotal⟩ := hall e.qname
  obtain rfl := slot_of_mem he hslot
  cases ht with
  | @held _ finished pend hs hl =>
    have hcount : (s.store e).q.unreadCount = pend.length := by
      rw [hc.unreadCount, List.length_map]
    have hlog := hl.resolve_right fun hf => hf.1
    refine ⟨⟨hc.putNum, hc.getNum, ?_,
      ⟨finished, pend, hs.files, hcount, hs.rcount.symm⟩, hc.written⟩,
      fun sys st' hok hpos hm => not_atQueueEnd hs hlog hcount hpos hok hm,
      fun sys req rs s' hok hserve hacc =>
        below_of_accepted (fun n => (hall n).imp fun _ h => h.1) hok hslot hserve hacc⟩
    rw [hc.putNum, hc.getNum, hc.unreadCount]
    exact htotal.symm

/-- The runs that fill a file meet the condition. -/
theorem undisturbed_admits {big : List UInt8} (hfree : storageLow conf sys = false) :
    Admits conf sys big [1] (Undisturbed conf) :=
  ⟨fun _ => ⟨trivial, trivial⟩, fun _ => ⟨trivial, trivial⟩,
    fun _ _ _ => ⟨trivial, storageKept_of_free hfree _ _ _⟩,
    fun _ _ => ⟨trivial, storageKept_of_free hfree _ _ _⟩⟩

/-- A run with two accepted puts, a rotation and a get, and the counters of its
queue. -/
theorem counters_agree_rotated : ∃ (big : List UInt8) (tr : History) (s : Server) (st : Store),
    Run (serve "") (Guarded layoutOpts (Undisturbed .least)) (Server.start .least) tr s ∧
      s.qlist = [⟨"q", st.proc, st.q⟩] ∧ accepted "q" tr = [big, [1]] ∧ returned "q" tr = [big] ∧
      CountersKept .least "" tr s ⟨"q", st.proc, st.q⟩ := by
  obtain ⟨big, hbig⟩ := exists_big
  obtain ⟨rs₁, rs₂, rs₃, s, st, hrun, hout₁, hout₂, hgot, honly, -⟩ :=
    @run_at_switch .least (Sys.quiet 0 0) [1]
    big _ (Sys.quiet_ok 0 0) rfl (by decide) rfl rfl hbig (by decide) (by decide)
      (undisturbed_admits rfl)
  have hrun' := run_mono layoutOpts (by decide) (fun _ _ _ hg => hg) hrun
  refine ⟨big, _, s, st, hrun', honly.qlist, ?_, ?_, counters_agree hrun' _ (by
    rw [honly.qlist]
    exact List.mem_singleton_self _)⟩
  · exact accepted_at_switch hout₁ hout₂
  · exact returned_at_switch hgot

end Ucmq.CounterAgreement
