import Ucmq.CleanRestart

/-!
# One queue is a bounded FIFO list

While no call fails, storage is free and the delay is zero, a queue answers put
and get requests exactly as a list of bodies with a capacity does, however many
files its messages are spread over.
-/

namespace Ucmq.FifoRefinement

open LabelledRun DecimalText StoreConfig StoreMsg StoreState StoreRtag StoreFile StoreManage
open QueueManage StoreInvariant ReadPath WritePath HandleFile Recovery Evhttp QueueStep QueueSlots
open RequestEffect ServerRun CleanRestart

/-- Operations of a FIFO list. -/
inductive FifoOp where
  | put (body : List UInt8)
  | get
  deriving DecidableEq

/-- Answers of a FIFO list, and any other answer. -/
inductive FifoOut where
  | stored
  | full
  | got (body : List UInt8)
  | empty
  | other
  deriving DecidableEq

/-- A FIFO list with a capacity, zero for none. -/
def fifoStep (cap : ℕ) : FifoOp → List (List UInt8) → FifoOut × List (List UInt8)
  | .put body, l => if cap ≠ 0 ∧ cap < l.length+1 then (.full, l) else (.stored, l ++ [body])
  | .get, [] => (.empty, [])
  | .get, body :: l => (.got body, l)

/-- The operation a request asks for. -/
def fifoOp (req : Request) : FifoOp := if req.opt = some "put" then .put (putBody req) else .get

/-- The answer that the replies to a request report. -/
def fifoOut (req : Request) : List Reply → FifoOut
  | [r] =>
    if req.opt = some "put" then
      if r.pos.isSome then .stored else if r = fullReply req.ver then .full else .other
    else
      if r.pos.isSome then .got r.data else if r = endReply req.ver then .empty else .other
  | _ => .other

variable {conf : UcmqConf} {sys : Sys} {st st' : Store} {finished pend : List (Msg conf)}
  {m : Msg conf}

/-- Settings and unread count are the same. -/
structure SameSettings (q q' : MqQueue) : Prop where
  unreadCount : q'.unreadCount = q.unreadCount
  delay : q'.delay = q.delay
  maxque : q'.maxque = q.maxque
  wlock : q'.wlock = q.wlock

/-- Leaving a write file keeps the settings. -/
theorem sameSettings_rotating (conf : UcmqConf) (st : Store) (d : ByteRegion.Region) :
    SameSettings st.q (rotating conf st d).q := by
  unfold rotating releaseWriteFile
  split <;> exact ⟨rfl, rfl, rfl, rfl⟩

/-- Writing a message changes no setting. -/
theorem sameSettings_of_stored (h : WriteResult conf sys st m (.ok (true, st'))) :
    SameSettings st.q st'.q := by
  cases h with
  | appended hw hd hfit => exact ⟨rfl, rfl, rfl, rfl⟩
  | @rotated d s₁ hw hd hrot hlow hrec =>
    have hr := sameSettings_rotating conf st d
    have hq : SameSettings (rotating conf st d).q s₁.q := by
      rw [hrec.q]
      exact ⟨rfl, rfl, rfl, rfl⟩
    exact ⟨hq.unreadCount.trans hr.unreadCount, hq.delay.trans hr.delay, hq.maxque.trans hr.maxque,
      hq.wlock.trans hr.wlock⟩

/-- Moving the reader changes no setting. -/
theorem sameSettings_of_moved (h : ReaderMoved st st') : SameSettings st.q st'.q :=
  ⟨by rw [h.q], by rw [h.q], by rw [h.q], by rw [h.q]⟩

/-- A queue that serves a list of bodies. -/
structure Serves (conf : UcmqConf) (st : Store) (l : List (List UInt8)) : Prop where
  sound : ∃ finished pend, Sound conf True st finished pend ∧ l = pend.map Msg.body ∧
    (Logged conf st finished ∨ st = created conf)
  live : WriterLive st
  unread : st.q.unreadCount = l.length
  delay : st.q.delay = 0
  maxque : st.q.maxque = conf.defMaxQueue
  wlock : st.q.wlock = 0

variable {l : List (List UInt8)}

/-- A queue just created serves the empty list. -/
theorem serves_created (hd : conf.defDelay = 0) : Serves conf (created conf) [] :=
  ⟨⟨[], [], (sound_created conf).1, rfl, Or.inr rfl⟩, (sound_created conf).2, rfl, hd, rfl, rfl⟩

/-- The queue is full exactly when the list is. -/
theorem queueFull_iff (h : Serves conf st l) :
    queueFull st.q ↔ conf.defMaxQueue ≠ 0 ∧ conf.defMaxQueue < l.length+1 := by
  rw [queueFull, h.maxque, h.unread]

/-- A put on a queue with room is stored as the newest body. -/
theorem serves_push (h : Serves conf st l) (hok : sys.Ok) (hfree : storageLow conf sys = false)
    {len : ℕ} {msg : List UInt8} (htime : m.time = curTime sys) (hlen : len = m.body.length)
    (hbody : msg.take len = m.body) (hroom : ¬queueFull st.q) :
    ∃ st', mqQmPushItem conf sys len msg st = .ok (.putOk, st') ∧
      Serves conf (pushed .putOk st') (l ++ [m.body]) := by
  obtain ⟨finished, pend, hs, rfl, -⟩ := h.sound
  have hres := pushResult_of_sound hs hok htime hlen hbody
  generalize mqQmPushItem conf sys len msg st = res at hres
  cases hres with
  | fault hdead => exact absurd h.live hdead.not_live
  | full hf => exact absurd hf hroom
  | wlock _ hl =>
    rw [writeLocked, h.wlock] at hl
    exact absurd hl (by simp)
  | refused _ _ _ _ hlow =>
    rw [hfree] at hlow
    cases hlow
  | @stored s₁ s₂ ho hr hrec =>
    obtain ⟨hs', hl', hw'⟩ := sound_of_pushed hs (.stored ho hr hrec)
    have hset := sameSettings_of_stored hr
    refine ⟨_, rfl,
      ⟨⟨finished, pend ++ [m], hs'.setCounters _ _ _ _, by simp, Or.inl hl'⟩, hw', ?_, ?_, ?_, ?_⟩⟩
    · simp only [pushed, hrec.q, hset.unreadCount, h.unread, List.length_append, List.length_map,
        List.length_singleton]
    · simp only [pushed, hrec.q, hset.delay, h.delay]
    · simp only [pushed, hrec.q, hset.maxque, h.maxque]
    · simp only [pushed, hrec.q, hset.wlock, h.wlock]

/-- A get on a queue that serves bodies returns the oldest one. -/
theorem serves_pop {b : List UInt8} (h : Serves conf st (b :: l)) (hok : sys.Ok) :
    ∃ item st', mqQmPopItem conf sys st = .ok (.getOk item, st') ∧ item.msg.take item.len = b ∧
      Serves conf st' l := by
  obtain ⟨finished, pend, hs, hb, hl⟩ := h.sound
  have hunread := h.unread
  rcases hl with hl | rfl
  swap
  · exact absurd hunread (by simp [created])
  have hres := popResult_of_sound hs hl hok
  generalize mqQmPopItem conf sys st = res at hres
  cases hres with
  | fault hdead => exact absurd h.live hdead
  | none hu =>
    rw [hu] at hunread
    cases hunread
  | ended => cases hb
  | young _ _ _ hy => exact absurd h.delay hy.1
  | @taken m rest fin s' s₂ hm hu hy hs' hrec =>
    obtain ⟨rfl, rfl⟩ := List.cons.inj hb
    obtain ⟨hs₂, hl₂⟩ := hs'.recorded hrec
    have hset := sameSettings_of_moved hm
    refine ⟨m.item, s₂, rfl, by simp, ⟨⟨_, rest, hs₂, rfl, Or.inl hl₂⟩,
      hrec.writerLive (hm.writer h.live), ?_, ?_, ?_, ?_⟩⟩
    · simp only [hrec.q, takeMsg, hset.unreadCount, h.unread, List.length_cons, Nat.add_sub_cancel]
    · simp only [hrec.q, takeMsg, hset.delay, h.delay]
    · simp only [hrec.q, takeMsg, hset.maxque, h.maxque]
    · simp only [hrec.q, takeMsg, hset.wlock, h.wlock]

/-- A server in which a name holds a queue that serves a list of bodies. -/
def ServesName (conf : UcmqConf) (n : String) (s : Server) (l : List (List UInt8)) : Prop :=
  s.conf = conf ∧ ∃ st, HasSlot s n (.listed st) ∧ Serves conf st l

/-- A put or get request on a name, with storage free and no call failing. A
put carries one non-empty body that fits a new data file. -/
structure QueueRequest (conf : UcmqConf) (n : String) (i : Sys × Request) : Prop where
  ok : i.1.Ok
  free : storageLow conf i.1 = false
  parsed : i.2.parsed = true
  name : i.2.name = some n
  opt : i.2.opt = some "get" ∨ i.2.opt = some "put" ∧ 0 < (putBody i.2).length ∧
    (putBody i.2).length ≤ maxDbFileSize conf-128-12 ∧ (i.2.data = none ∨ i.2.body = [])

variable {n : String} {s : Server} {i : Sys × Request}

/-- The message of a well-formed put is its whole body. -/
theorem putMsg_of_fit {req : Request} (hpos : 0 < (putBody req).length)
    (hle : (putBody req).length ≤ maxDbFileSize conf-128-12)
    (hd : req.data = none ∨ req.body = []) :
    ∃ size, putMsg req = some (size, putBody req) ∧ toU32 size = (putBody req).length := by
  have hmax := maxDbFileSize_le conf
  have hi : toI32 ((putBody req).length : ℤ) = (putBody req).length :=
    toI32_of_bounds (by omega) (by omega)
  refine ⟨(putBody req).length, ?_, ?_⟩
  · unfold putMsg
    cases hdata : req.data with
    | none =>
      have hbody : putBody req = req.body := by simp [putBody, hdata]
      rw [hbody] at hi hpos ⊢
      simp only [hi]
      rw [if_pos (by omega)]
    | some data =>
      have hbody : putBody req = data := by simp [putBody, hdata]
      have hempty : req.body = [] := hd.resolve_left (by rw [hdata]; simp)
      rw [hbody] at hi ⊢
      simp only [hempty, hi]
      rw [if_neg (by decide)]
  · have h := toU32_toI32 (putBody req).length
    rw [hi, u32_of_lt (by omega)] at h
    exact h

/-- A put request reaches the queue it finds or creates. -/
theorem entry_put {banner : String} {sys : Sys} {req : Request} {s s₁ : Server}
    {st : Store} {size : ℤ} {msg : List UInt8} (hparsed : req.parsed = true)
    (hopt : req.opt = some "put") (hname : req.name = some n) (hn : reqQnameCheck (some n) = true)
    (hmsg : putMsg req = some (size, msg)) (hlen : putLenOk s.conf (toU32 size))
    (htouch : touchQueueByQname sys n s = (some ⟨n, st.proc, st.q⟩, s₁)) :
    mqEvhttpCbDoOptEntry banner sys req s =
      replyPut sys n req.ver size msg ⟨n, st.proc, st.q⟩ s₁ := by
  simp only [mqEvhttpCbDoOptEntry, hparsed, hopt, httpOptPut, hname, hn, hmsg, hlen,
    Option.getD_some, htouch, not_true, if_false, Bool.true_eq_false]

/-- A get request on a listed queue is served from it. -/
theorem entry_get {banner : String} {sys : Sys} {req : Request} {s : Server} {st : Store}
    (hparsed : req.parsed = true) (hopt : req.opt = some "get") (hname : req.name = some n)
    (hn : reqQnameCheck (some n) = true) (h : HasSlot s n (.listed st)) :
    mqEvhttpCbDoOptEntry banner sys req s = replyGet sys n req.ver ⟨n, st.proc, st.q⟩ s := by
  simp only [mqEvhttpCbDoOptEntry, hparsed, hopt, httpOptGet, hname, hn, Option.getD_some,
    find_of_listed h, if_false, Bool.true_eq_false]

/-- A put request that finds or creates an open queue with storage is stored. -/
theorem entry_put_stored {banner : String} {sys : Sys} {req : Request} {s s₀ : Server} {st : Store}
    {size : ℤ} {msg : List UInt8} {finished pend : List (Msg s.conf)} (hparsed : req.parsed = true)
    (hopt : req.opt = some "put") (hname : req.name = some n) (hn : reqQnameCheck (some n) = true)
    (hmsg : putMsg req = some (size, msg)) (hlen : putLenOk s.conf (toU32 size))
    (htouch : touchQueueByQname sys n s = (some ⟨n, st.proc, st.q⟩, s₀))
    (hsame : SameElsewhere n s s₀) (hslot : HasSlot s₀ n (.listed st))
    (hs : Sound s.conf True st finished pend) (hw : WriterLive st) (ho : putOpen sys st.q)
    (hok : sys.Ok) (hfree : storageLow s.conf sys = false) :
    ∃ (m : Msg s.conf) (rs : List Reply) (s' : Server) (s₁ s₂ : Store),
      mqEvhttpCbDoOptEntry banner sys req s = .ok (rs, s') ∧ fifoOut req rs = .stored ∧
      SameElsewhere n s s' ∧ m.body = storedBody (putBody req) ∧
      WriteResult s.conf sys st m (.ok (true, s₁)) ∧ Recorded s₁ s₂ ∧
      HasSlot s' n (.listed (pushed .putOk { s₂ with q := { s₂.q with
        syncIntv := nextSyncIntv s.conf s₂.q.syncIntv } })) := by
  obtain ⟨m, htime, hsize, hbody, hstored⟩ := exists_putMsg sys hmsg hlen
  have hres := pushResult_of_sound hs hok htime hsize hbody
  rw [entry_put hparsed hopt hname hn hmsg hlen htouch]
  cases hp : mqQmPushItem s.conf sys (toU32 size) msg st with
  | error e =>
    rw [hp] at hres
    cases hres with
    | fault hdead => exact absurd hw hdead.not_live
  | ok p =>
    rw [hp] at hres
    cases hres with
    | full hf => exact absurd hf ho.1
    | wlock _ hl => exact absurd hl ho.2
    | refused _ _ _ _ hlow =>
      rw [hfree] at hlow
      cases hlow
    | @stored s₁ s₂ _ hr hrec =>
      rw [← hsame.conf] at hp
      obtain ⟨s', heq, hsame', hslot'⟩ := replyPut_eq req.ver hslot hp
      rw [hsame.conf] at hslot'
      refine ⟨m, _, s', s₁, s₂, heq, ?_, hsame.trans hsame', hstored, hr, hrec, hslot'⟩
      simp [fifoOut, hopt, replyOfPut]

/-- The first put on a name creates its queue and is stored in it. -/
theorem servesName_first {banner : String} {sys : Sys} {req : Request} {s : Server}
    {dir : Option Dir} {size : ℤ} {msg : List UInt8} (hslot : HasSlot s n (.absent dir))
    (hok : sys.Ok) (hfree : storageLow s.conf sys = false)
    (hroom : (s.qlist.length : ℤ) < s.conf.maxQlistItmes) (hdelay : s.conf.defDelay = 0)
    (hparsed : req.parsed = true) (hopt : req.opt = some "put") (hname : req.name = some n)
    (hn : reqQnameCheck (some n) = true) (hmsg : putMsg req = some (size, msg))
    (hlen : putLenOk s.conf (toU32 size)) :
    ∃ rs s', mqEvhttpCbDoOptEntry banner sys req s = .ok (rs, s') ∧ fifoOut req rs = .stored ∧
      ServesName s.conf n s' [storedBody (putBody req)] := by
  have hadd := addQueue_of_free hok hfree hroom n
  have hsame := sameElsewhere_addQueue sys n s
  rcases addQueue_of_absent hok hslot with ⟨hf, -⟩ | ⟨-, hs⟩
  · rw [hadd] at hf
    cases hf
  rw [entry_put hparsed hopt hname hn hmsg hlen (touchQueue_of_added hslot hadd hs)]
  obtain ⟨m, htime, hsize, hbody, hstored⟩ := exists_putMsg sys hmsg hlen
  have hserves := serves_created hdelay
  have hempty : ¬queueFull (created s.conf).q := by
    rw [queueFull_iff hserves]
    simp only [List.length_nil]
    omega
  obtain ⟨st', hp, hserves'⟩ := serves_push hserves hok hfree htime hsize hbody hempty
  have hp' : mqQmPushItem (mqQmAddQueue sys n s).2.conf sys (toU32 size) msg (created s.conf) =
      .ok (.putOk, st') := by
    rw [hsame.conf]
    exact hp
  obtain ⟨s', heq, hsame', hslot'⟩ := replyPut_eq req.ver hs hp'
  refine ⟨_, s', heq, ?_, hsame'.conf.trans hsame.conf, _, hslot', ?_⟩
  · simp [fifoOut, hopt, replyOfPut]
  · rw [← hstored]
    exact hserves'

/-- A put request on a served name. -/
theorem servesName_put {banner : String} (hn : reqQnameCheck (some n) = true)
    (h : ServesName conf n s l) (hi : QueueRequest conf n i) (hopt : i.2.opt = some "put") :
    ∃ rs s', mqEvhttpCbDoOptEntry banner i.1 i.2 s = .ok (rs, s') ∧
      fifoOut i.2 rs = (fifoStep conf.defMaxQueue (fifoOp i.2) l).1 ∧
      ServesName conf n s' (fifoStep conf.defMaxQueue (fifoOp i.2) l).2 := by
  obtain ⟨hconf, st, hslot, hserves⟩ := h
  obtain ⟨hpos, hle, hdata⟩ : 0 < (putBody i.2).length ∧
      (putBody i.2).length ≤ maxDbFileSize conf-128-12 ∧ (i.2.data = none ∨ i.2.body = []) := by
    rcases hi.opt with hget | ⟨-, hput⟩
    · rw [hopt] at hget
      exact absurd hget (by simp)
    · exact hput
  obtain ⟨size, hmsg, hsize⟩ := putMsg_of_fit hpos hle hdata
  have hlen : putLenOk s.conf (toU32 size) := by
    rw [hsize, hconf]
    exact ⟨hpos, hle⟩
  rw [entry_put hi.parsed hopt hi.name hn hmsg hlen (touchQueue_of_listed i.1 hslot), fifoOp,
    if_pos hopt, fifoStep]
  by_cases hfull : queueFull st.q
  · have hp : mqQmPushItem s.conf i.1 (toU32 size) (putBody i.2) st = .ok (.full, st) := by
      rw [mqQmPushItem, if_pos hfull]
    obtain ⟨s', heq, hsame, hslot'⟩ := replyPut_eq i.2.ver hslot hp
    rw [if_pos ((queueFull_iff hserves).mp hfull)]
    refine ⟨_, s', heq, ?_, hsame.conf.trans hconf, st, hslot', hserves⟩
    simp [fifoOut, hopt, replyOfPut, fullReply]
  · obtain ⟨st', hp, hserves'⟩ :=
      serves_push (m := putMsgOf conf i.1 (putBody i.2) hpos hle) hserves hi.ok
      hi.free rfl hsize (by rw [hsize]; exact List.take_length) hfull
    rw [← hconf] at hp
    obtain ⟨s', heq, hsame, hslot'⟩ := replyPut_eq i.2.ver hslot hp
    rw [if_neg (mt (queueFull_iff hserves).mpr hfull)]
    refine ⟨_, s', heq, ?_, hsame.conf.trans hconf, _, hslot', hserves'⟩
    simp [fifoOut, hopt, replyOfPut]

/-- A get request on a served name. -/
theorem servesName_get {banner : String} (hn : reqQnameCheck (some n) = true)
    (h : ServesName conf n s l) (hi : QueueRequest conf n i) (hopt : i.2.opt = some "get") :
    ∃ rs s', mqEvhttpCbDoOptEntry banner i.1 i.2 s = .ok (rs, s') ∧
      fifoOut i.2 rs = (fifoStep conf.defMaxQueue (fifoOp i.2) l).1 ∧
      ServesName conf n s' (fifoStep conf.defMaxQueue (fifoOp i.2) l).2 := by
  obtain ⟨hconf, st, hslot, hserves⟩ := h
  have hput : i.2.opt ≠ some "put" := by
    rw [hopt]
    simp
  rw [entry_get hi.parsed hopt hi.name hn hslot, fifoOp, if_neg hput]
  cases l with
  | nil =>
    have hp : mqQmPopItem s.conf i.1 st = .ok (.getEnd, st) := popItem_of_none hserves.unread
    obtain ⟨s', heq, hsame, hslot'⟩ := replyGet_eq i.2.ver hslot hp
    refine ⟨_, s', heq, ?_, hsame.conf.trans hconf, st, hslot', hserves⟩
    simp [fifoOut, hput, endReply, fifoStep]
  | cons b l =>
    obtain ⟨item, st', hp, hb, hserves'⟩ := serves_pop hserves hi.ok
    rw [← hconf] at hp
    obtain ⟨s', heq, hsame, hslot'⟩ := replyGet_eq i.2.ver hslot hp
    refine ⟨_, s', heq, ?_, hsame.conf.trans hconf, st', hslot', hserves'⟩
    simp [fifoOut, hput, fifoStep, hb]

/-- A queue just created answers every sequence of puts and gets as a FIFO list
with its capacity does. -/
theorem queue_refines_fifo {banner : String} {sys : Sys} {s s₀ : Server} {n : String} (hok : sys.Ok)
    (hn : reqQnameCheck (some n) = true) (hnew : entriesOf n s.qlist = [])
    (hdelay : s.conf.defDelay = 0) (hadd : mqQmAddQueue sys n s = (true, s₀))
    {is : List (Sys × Request)} (his : ∀ i ∈ is, QueueRequest s.conf n i) :
    ∃ outs s', feed (fun i => mqEvhttpCbDoOptEntry banner i.1 i.2) is s₀ = .ok (outs, s') ∧
      List.zipWith (fun i rs => fifoOut i.2 rs) is outs =
        feedAbs (fun i => fifoStep s.conf.defMaxQueue (fifoOp i.2)) is [] := by
  have hslot : HasSlot s n (.absent (s.dirs n)) := ⟨hnew, rfl⟩
  have hstart : ServesName s.conf n s₀ [] := by
    have hsame := sameElsewhere_addQueue sys n s
    rcases addQueue_of_absent hok hslot with ⟨hf, -⟩ | ⟨-, hs⟩
    · rw [hadd] at hf
      cases hf
    · rw [hadd] at hs hsame
      exact ⟨hsame.conf, _, hs, serves_created hdelay⟩
  refine feed_simulates (P := QueueRequest s.conf n) (R := ServesName s.conf n) ?_ his hstart
  intro i s₁ l hi hR
  rcases hi.opt with hget | ⟨hput, -⟩
  · exact servesName_get hn hR hi hget
  · exact servesName_put hn hR hi hput

/-- A request with the given option, name and body. -/
def Request.of (opt name : String) (body : List UInt8) : Request :=
  ⟨true, some opt, some name, none, none, none, body⟩

/-- A put and two gets. -/
theorem queue_refines_fifo_three :
    ∃ outs s', feed (fun i => mqEvhttpCbDoOptEntry "" i.1 i.2)
      [(Sys.quiet 0 0, Request.of "put" "q" [0xFE, 0xAC]), (Sys.quiet 1 0, Request.of "get" "q" []),
        (Sys.quiet 2 0, Request.of "get" "q" [])]
      (mqQmAddQueue (Sys.quiet 0 0) "q" (Server.start .least)).2 = .ok (outs, s') ∧
      List.zipWith (fun i rs => fifoOut i.2 rs)
        [(Sys.quiet 0 0, Request.of "put" "q" [0xFE, 0xAC]),
          (Sys.quiet 1 0, Request.of "get" "q" []),
          (Sys.quiet 2 0, Request.of "get" "q" [])] outs = [.stored,
          .got [0xFE, 0xAC], .empty] := by
  have hfree : ∀ t, storageLow .least (Sys.quiet t 0) = false := fun _ => rfl
  have hadd := addQueue_of_free (Sys.quiet_ok 0 0) (hfree 0)
    (by decide : ((Server.start .least).qlist.length : ℤ) < 1000) "q"
  refine queue_refines_fifo (Sys.quiet_ok 0 0) (by decide) rfl rfl (Prod.ext hadd rfl) ?_
  intro i hi
  simp only [List.mem_cons, List.not_mem_nil, or_false] at hi
  rcases hi with rfl | rfl | rfl
  · exact ⟨Sys.quiet_ok _ _, hfree 0, rfl, rfl, Or.inr ⟨rfl, by decide, by decide, Or.inl rfl⟩⟩
  · exact ⟨Sys.quiet_ok _ _, hfree 1, rfl, rfl, Or.inl rfl⟩
  · exact ⟨Sys.quiet_ok _ _, hfree 2, rfl, rfl, Or.inl rfl⟩

end Ucmq.FifoRefinement
