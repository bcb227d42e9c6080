import Ucmq.DeliveryOrder

/-!
# The unread count across clean restarts

The count taken at start adds up the counts stored in the heads of the data
files and scans the files whose head holds none. It is exact as long as every
put finds the stored counts in order: a rotation writes a count that is zero or
right, and no message is added to a file whose head already holds a count. The
operation counter that a rotation stores is not restored at a restart, so the
first rotation afterwards stores too small a count.
-/

namespace Ucmq.UnreadCount

open ByteRegion FramedLog LabelledRun DecimalText StoreConfig StoreMsg StoreState StoreRtag
open StoreFile StoreManage QueueManage StoreInvariant ReadPath WritePath HandleFile Recovery Evhttp
open QueueStep QueueSlots RequestEffect ServerRun CleanRestart FifoRefinement RotationRuns
open DeliveryOrder

variable {conf : UcmqConf} {sys : Sys} {clean : Prop} {st st' : Store} {m : Msg conf}
variable {db : ℕ → Option DbFile} {r rpos w wpos : ℕ} {finished pend : List (Msg conf)}
  {d d' : Region}

/-- The stored count is read from the first thirteen bytes. -/
theorem dbFileHeadCount_congr (h : ∀ k, k < 13 → d k = d' k) :
    dbFileHeadCount d = dbFileHeadCount d' := by
  unfold dbFileHeadCount
  rw [slice_congr fun k _ hk => h k (by omega)]

/-- The stored count of a data file is absent or the number of messages before
an end position. -/
def HeadOk (conf : UcmqConf) (d : Region) (e : ℕ) : Prop :=
  dbFileHeadCount d = 0 ∨ dbFileHeadCount d = mqSmDbCalMsgCount conf d e

/-- The write file may be replaced by one with a count in order. -/
theorem honestHeads_setLast {wpos' : ℕ} (h : HonestHeads conf db r w wpos)
    (hd : HeadOk conf d' wpos') :
    HonestHeads conf (Function.update db w (some ⟨maxDbFileSize conf, d'⟩)) r w wpos' := by
  intro i e hr hw he
  by_cases hi : i = w
  · subst hi
    rw [dbSeg_update_self] at he
    cases he
    rw [if_pos rfl]
    exact hd
  · rw [dbSeg_update_ne _ hi] at he
    have hold := h i e hr hw he
    rw [if_neg hi] at hold ⊢
    exact hold

/-- A file may be added after a write file whose count is in order. -/
theorem honestHeads_rotate {wpos' : ℕ} (h : HonestHeads conf db r w wpos)
    (hlast : ∀ e, dbSeg conf db w = some e → HeadOk conf e (maxDbFileSize conf))
    (hd : HeadOk conf d' wpos') :
    HonestHeads conf (Function.update db (w+1) (some ⟨maxDbFileSize conf, d'⟩)) r (w+1) wpos' := by
  intro i e hr hw he
  by_cases hi : i = w+1
  · subst hi
    rw [dbSeg_update_self] at he
    cases he
    rw [if_pos rfl]
    exact hd
  · rw [dbSeg_update_ne _ hi] at he
    rw [if_neg hi]
    by_cases hiw : i = w
    · subst hiw
      exact hlast e he
    · have hold := h i e hr (by omega) he
      rw [if_neg hiw] at hold
      exact hold

/-- Files that a reader left do not count any more. -/
theorem honestHeads_mono {db' : ℕ → Option DbFile} {r' : ℕ}
    (h : HonestHeads conf db r w wpos) (hr : r ≤ r')
    (hdb : ∀ i, r' ≤ i → db' i = db i) : HonestHeads conf db' r' w wpos := by
  intro i e hi hw he
  rw [dbSeg_congr (hdb i hi)] at he
  exact h i e (hr.trans hi) hw he

/-- Rewriting the head changes neither count of the write file. -/
theorem calMsgCount_withHead (h : Files conf clean db r rpos w wpos finished pend)
    (hd : dbSeg conf db w = some d) {k : ℕ} (hk : k < 2^32) :
    mqSmDbCalMsgCount conf (withHead d k) wpos = mqSmDbCalMsgCount conf d wpos ∧
      (clean → mqSmDbCalMsgCount conf (withHead d k) (maxDbFileSize conf) =
        mqSmDbCalMsgCount conf d wpos) := by
  obtain ⟨hq, ms, hs⟩ := files_write_scans h hd
  have hsame : ∀ j, 128 ≤ j → d j = withHead d k j := fun j hj => (withHead_of_le hk hj).symm
  have hs' : (msgFraming conf).Scans (withHead d k) 128 ms wpos := hs.congr fun j hj _ => hsame j hj
  rw [mqSmDbCalMsgCount_scans h.wpos_le hq hs]
  refine ⟨mqSmDbCalMsgCount_scans h.wpos_le (quiet_withHead d hk) hs', fun hcl => ?_⟩
  have hge := h.wpos_ge
  have htail : Quiet msgHeadOfFirstMagicNum (withHead d k) wpos (maxDbFileSize conf) :=
    (h.tail hcl d hd).congr fun j hj _ => hsame j (by omega)
  exact mqSmDbCalMsgCount_scans le_rfl (quiet_withHead d hk) (hs'.extend h.wpos_le htail)

/-- A stored counter is right, or no message was counted. -/
def CounterOk (conf : UcmqConf) (q : MqQueue) (d : Region) : Prop :=
  q.curWdb.optCount = 0 ∨ q.curWdb.optCount = mqSmDbCalMsgCount conf d q.curWdb.pos

/-- The count that a rotation stores is in order when the counter is. -/
theorem headOk_withHead (h : Sound conf True st finished pend)
    (hd : dbSeg conf st.dir.db st.q.curWdb.curIndex = some d) (hc : CounterOk conf st.q d) :
    HeadOk conf (withHead d st.q.curWdb.optCount) st.q.curWdb.pos ∧
      HeadOk conf (withHead d st.q.curWdb.optCount) (maxDbFileSize conf) := by
  obtain ⟨hpos, hmax⟩ := calMsgCount_withHead h.files hd h.inRange.wcount_lt
  rcases hc with hc | hc
  · have hzero : dbFileHeadCount (withHead d st.q.curWdb.optCount) = 0 := by
      rw [hc, withHead, dbFileHeadCount_writeAt d (by decide)]
      rfl
    exact ⟨Or.inl hzero, Or.inl hzero⟩
  · have hlt := calMsgCount_lt h.files h.files.index_le le_rfl hd
    rw [dbFileEnd, if_pos rfl, ← hc] at hlt
    have hle := maxDbFileSize_le conf
    have hcount : dbFileHeadCount (withHead d st.q.curWdb.optCount) = st.q.curWdb.optCount :=
      dbFileHeadCount_writeAt d (by omega)
    exact ⟨Or.inr (by rw [hcount, hpos]; exact_mod_cast hc),
      Or.inr (by rw [hcount, hmax trivial]; exact_mod_cast hc)⟩

/-- Writing a message leaves the stored count alone. -/
theorem dbFileHeadCount_append {p : ℕ} (hp : 128 ≤ p) (bs : List UInt8) :
    dbFileHeadCount (writeAt d p bs) = dbFileHeadCount d :=
  dbFileHeadCount_congr fun _ hk => writeAt_outside d (Or.inl (by omega))

/-- A new write file holds no count. -/
theorem dbFileHeadCount_freshData (conf : UcmqConf) : dbFileHeadCount (freshData conf) = 0 := by
  rw [freshData, withHead, dbFileHeadCount_writeAt _ (by decide)]
  rfl

/-- An extended file holds no count. -/
theorem dbFileHeadCount_blankData (conf : UcmqConf) : dbFileHeadCount (blankData conf) = 0 := by
  have hmin := le_maxDbFileSize conf
  refine dbFileHeadCount_of_zero fun k hk => ?_
  rw [blankData, writeAt_outside _ (Or.inl (by omega))]

/-- The heads of the files of a queue are in order. -/
def HeadsOk (conf : UcmqConf) (st : Store) : Prop :=
  HonestHeads conf st.dir.db st.q.curRdb.curIndex st.q.curWdb.curIndex st.q.curWdb.pos

/-- The counts that a put of some length relies on are in order: those of the
rotation it needs, or that of the file it goes to. -/
def PutCountsOk (conf : UcmqConf) (st : Store) (len : ℕ) : Prop :=
  ∀ d, dbSeg conf st.dir.db st.q.curWdb.curIndex = some d →
    if needsRotation conf st.q len then CounterOk conf st.q d else dbFileHeadCount d = 0

/-- Leaving a write file keeps the heads in order. -/
theorem headsOk_rotating (h : Sound conf True st finished pend) (hh : HeadsOk conf st)
    (hd : dbSeg conf st.dir.db st.q.curWdb.curIndex = some d) (hc : CounterOk conf st.q d) :
    HeadsOk conf (rotating conf st d) := by
  have hlast := honestHeads_setLast hh (headOk_withHead h hd hc).1
  rw [HeadsOk, rotating_rindex, rotating_index, rotating_dir, (rotating_wcursor conf st d).1]
  exact hlast

/-- A new file without a stored count keeps the heads in order. -/
theorem honestHeads_next (h : Sound conf True st finished pend) (hh : HeadsOk conf st)
    (hd : dbSeg conf st.dir.db st.q.curWdb.curIndex = some d) (hc : CounterOk conf st.q d)
    (hz : dbFileHeadCount d' = 0) (p : ℕ) :
    HonestHeads conf (Function.update (rotating conf st d).dir.db (st.q.curWdb.curIndex+1)
      (some ⟨maxDbFileSize conf, d'⟩)) st.q.curRdb.curIndex (st.q.curWdb.curIndex+1) p := by
  have hrh := headsOk_rotating h hh hd hc
  rw [HeadsOk, rotating_rindex, rotating_index] at hrh
  refine honestHeads_rotate hrh (fun e he => ?_) (.inl hz)
  rw [rotating_dir] at he
  have he' : e = withHead d st.q.curWdb.optCount :=
    Option.some.inj (he.symm.trans (dbSeg_update_self _ _))
  rw [he']
  exact (headOk_withHead h hd hc).2

/-- A stored message keeps the heads in order. -/
theorem headsOk_of_stored (h : Sound conf True st finished pend) (hh : HeadsOk conf st)
    (hc : PutCountsOk conf st m.body.length) (hr : WriteResult conf sys st m (.ok (true, st'))) :
    HeadsOk conf st' := by
  have hge := h.files.wpos_ge
  cases hr with
  | appended hw hd hfit =>
    have hzero := hc _ hd
    rw [if_neg hfit] at hzero
    exact honestHeads_setLast hh (Or.inl ((dbFileHeadCount_append hge _).trans hzero))
  | @rotated d s₁ hw hd hrot hlow hrec =>
    have hcount := hc _ hd
    rw [if_pos hrot] at hcount
    have hpos : s₁.q.curWdb.pos = 128 := by
      rw [hrec.q]
      rfl
    have hzero : dbFileHeadCount (writeAt (freshData conf) s₁.q.curWdb.pos (msgBytes m.item)) = 0 :=
      (dbFileHeadCount_append hpos.ge _).trans (dbFileHeadCount_freshData conf)
    have hnew := honestHeads_next h hh hd hcount hzero (s₁.q.curWdb.pos+(m.body.length+12))
    have hri : (appendMsg conf s₁ (freshData conf) m).q.curRdb.curIndex = st.q.curRdb.curIndex := by
      show s₁.q.curRdb.curIndex = _
      rw [hrec.q]
      show (rotating conf st d).q.curRdb.curIndex = _
      rw [rotating_rindex]
    have hwi :
        (appendMsg conf s₁ (freshData conf) m).q.curWdb.curIndex = st.q.curWdb.curIndex+1 := by
      show s₁.q.curWdb.curIndex = _
      rw [hrec.q]
      show (rotating conf st d).q.curWdb.curIndex+1 = _
      rw [rotating_index]
    have hdb : (appendMsg conf s₁ (freshData conf) m).dir.db =
        Function.update (rotating conf st d).dir.db (st.q.curWdb.curIndex+1)
          (some ⟨maxDbFileSize conf,
            writeAt (freshData conf) s₁.q.curWdb.pos (msgBytes m.item)⟩) := by
      show Function.update s₁.dir.db s₁.q.curWdb.curIndex _ = _
      rw [hrec.db, hrec.q]
      show Function.update (Function.update _ ((rotating conf st d).q.curWdb.curIndex+1) _)
        ((rotating conf st d).q.curWdb.curIndex+1) _ = _
      rw [rotating_index]
      exact Function.update_idem _ _ _
    rw [HeadsOk, hri, hwi, hdb]
    exact hnew

/-- Number of unread messages that a name reports. -/
def unreadOf : Slot → ℕ
  | .absent _ => 0
  | .listed st => st.q.unreadCount

/-- The queue of a name, if any, has its heads in order. -/
def SlotHeadsOk (conf : UcmqConf) : Slot → Prop
  | .absent _ => True
  | .listed st => HeadsOk conf st

variable {bodies : List (List UInt8)} {slot slot' : Slot} {req : Request} {n : String}
variable {ev : Event} {rs : List Reply} {banner : String} {fresh : Prop} {opts : List String}

/-- A queue just created has its heads in order. -/
theorem headsOk_created (conf : UcmqConf) : HeadsOk conf (created conf) := by
  intro i d hr hw hd
  have hi : i = 1 := Nat.le_antisymm hw hr
  subst hi
  have hd' : d = blankData conf := Option.some.inj (hd.symm.trans (dbSeg_update_self 1 _))
  rw [hd']
  exact Or.inl (dbFileHeadCount_blankData conf)

/-- The counts relied on by a put that reaches the store under a name are in order.
A queue just created has none. -/
def PutCountsKept (conf : UcmqConf) : Event → String → Slot → Prop
  | .request sys req, n, .listed st => req.name = some n → ReachesStore conf sys req (.listed st) →
    PutCountsOk conf st (u32 (putBody req).length)
  | .request _ _, _, .absent _ => True
  | .restart _ _ _, _, slot => Reloadable slot

/-- Its first put finds them so. -/
theorem putCountsOk_created (m : Msg conf) : PutCountsOk conf (created conf) m.body.length := by
  intro d hd
  rw [if_neg (not_needsRotation_created m)]
  have hd' : d = blankData conf := Option.some.inj (hd.symm.trans (dbSeg_update_self 1 _))
  rw [hd']
  exact dbFileHeadCount_blankData conf

/-- A put keeps the count and the heads in order. -/
theorem counted_push {ret : QueuePutRet} (h : Sound conf True st finished pend)
    (hh : HeadsOk conf st) (hc : putOpen sys st.q → PutCountsOk conf st m.body.length)
    (hr : PushResult conf sys st m (.ok (ret, st'))) : HeadsOk conf (pushed ret st') ∧
      (pushed ret st').q.unreadCount = st.q.unreadCount+(if ret = .putOk then 1 else 0) := by
  cases hr with
  | full => exact ⟨hh, rfl⟩
  | wlock => exact ⟨hh, rfl⟩
  | @refused d ho hw hd hrot hlow =>
    have hcount := hc ho d hd
    rw [if_pos hrot] at hcount
    exact ⟨headsOk_rotating h hh hd hcount, (sameSettings_rotating conf st d).unreadCount⟩
  | @stored s₁ s₂ ho hr hrec =>
    have hheads := headsOk_of_stored h hh (hc ho) hr
    constructor
    · simp only [pushed, HeadsOk, hrec.q, hrec.db]
      exact hheads
    · simp only [pushed, hrec.q, (sameSettings_of_stored hr).unreadCount, if_true]

/-- The heads of the files a reader has not left stay in order. -/
theorem headsOk_of_moved (hh : HeadsOk conf st) (hm : ReaderMoved st st') : HeadsOk conf st' := by
  have hw : st'.q.curWdb = st.q.curWdb := by rw [hm.q]
  rw [HeadsOk, hw]
  exact honestHeads_mono hh hm.index hm.db

/-- A get keeps the count and the heads in order. -/
theorem counted_pop {ret : QueueGetRet} (hh : HeadsOk conf st) (hu : st.q.unreadCount = pend.length)
    (hr : PopResult conf sys True st pend (.ok (ret, st'))) :
    HeadsOk conf st' ∧ st'.q.unreadCount+(gotten ret).length = pend.length := by
  cases hr with
  | none => exact ⟨hh, hu⟩
  | @ended fin s' hm =>
    have hheads : HeadsOk conf s' := headsOk_of_moved hh hm
    exact ⟨hheads, rfl⟩
  | young hm =>
    exact ⟨headsOk_of_moved hh hm, by rw [(sameSettings_of_moved hm).unreadCount]; exact hu⟩
  | @taken m rest fin s' s₂ hm hpos hy hs hrec =>
    have hheads : HeadsOk conf s' := headsOk_of_moved hh hm
    constructor
    · rw [HeadsOk, hrec.q, hrec.db]
      exact hheads
    · simp only [hrec.q, takeMsg, (sameSettings_of_moved hm).unreadCount, gotten,
        List.length_singleton]
      omega

/-- A put under a name whose count is exact. -/
theorem counted_put {ret : QueuePutRet} {size : ℤ} {msg : List UInt8}
    (h : Tracked conf fresh bodies slot) (hh : SlotHeadsOk conf slot)
    (hu : unreadOf slot = bodies.length) (hok : sys.Ok) (ht : Touched conf slot st)
    (hput : req.opt = some "put") (hm : putMsg req = some (size, msg))
    (hlen : putLenOk conf (toU32 size))
    (hp : mqQmPushItem conf sys (toU32 size) msg st = .ok (ret, st'))
    (hc : ∀ st, slot = .listed st → ReachesStore conf sys req slot →
      PutCountsOk conf st (u32 (putBody req).length)) :
    HeadsOk conf (pushed ret st') ∧ unreadOf (.listed (pushed ret st')) =
      (bodies ++ (if ret = .putOk then [storedBody (putBody req)] else [])).length := by
  obtain ⟨finished, pend, hs, rfl, -⟩ := sound_of_touched h ht
  obtain ⟨m, htime, hsize, hbody, hstored⟩ := exists_putMsg sys hm hlen
  have hres := pushResult_of_sound hs hok htime hsize hbody
  rw [hp] at hres
  have hst : HeadsOk conf st ∧ st.q.unreadCount = (pend.map Msg.body).length ∧
      (putOpen sys st.q → PutCountsOk conf st m.body.length) := by
    cases ht with
    | found =>
      refine ⟨hh, hu, fun ho => ?_⟩
      rw [← hsize, (putMsg_eq hm).2]
      exact hc st rfl ⟨hput, ⟨size, msg, hm, hlen⟩, by rintro _ ⟨⟩; exact ho⟩
    | fresh dir => exact ⟨headsOk_created conf, hu, fun _ => putCountsOk_created m⟩
  obtain ⟨hheads, hcount⟩ := counted_push hs hst.1 hst.2.2 hres
  refine ⟨hheads, ?_⟩
  rw [unreadOf, hcount, hst.2.1, List.length_append]
  split <;> rfl

/-- A get under a name whose count is exact. -/
theorem counted_get {ret : QueueGetRet} (h : Tracked conf fresh bodies (.listed st))
    (hh : HeadsOk conf st) (hu : st.q.unreadCount = bodies.length) (hok : sys.Ok)
    (hp : mqQmPopItem conf sys st = .ok (ret, st')) :
    HeadsOk conf st' ∧ st'.q.unreadCount+(gotten ret).length = bodies.length := by
  cases h with
  | @held _ finished pend hs hl =>
    rw [List.length_map] at hu ⊢
    rcases hl with hl | ⟨-, rfl⟩
    · have hres := popResult_of_sound hs hl hok
      rw [hp] at hres
      exact counted_pop hh hu hres
    · rw [popItem_of_none rfl] at hp
      cases hp
      exact ⟨hh, hu⟩

/-- A setting under a name leaves heads and count alone. -/
theorem counted_set (hs : Sound conf True st finished pend) (hok : sys.Ok) (hh : HeadsOk conf st)
    (hset : SetBy sys st st') : HeadsOk conf st' ∧ st'.q.unreadCount = st.q.unreadCount := by
  obtain ⟨maxque, delay, wlock, -, -, -, -, hrec⟩ := setResult_of_setBy hs hok hset
  rw [HeadsOk, hrec.q, hrec.db]
  exact ⟨hh, rfl⟩

/-- A restart recounts the pending bodies. -/
theorem counted_restart {listing : List Fname} (h : Tracked conf fresh bodies slot)
    (hh : SlotHeadsOk conf slot) (hok : sys.Ok)
    (hl : ∀ d, Slot.dir slot = some d → IsListing d listing) (hr : Reloadable slot)
    (hc : fresh → ¬OnlyCreationRecord conf slot) :
    SlotHeadsOk conf (reloaded conf sys listing (Slot.dir slot)) ∧
      unreadOf (reloaded conf sys listing (Slot.dir slot)) = bodies.length := by
  cases h with
  | free => exact ⟨trivial, rfl⟩
  | @held st finished pend hs hlog =>
    have hlog' : Logged conf st finished := hlog.resolve_right fun hf =>
      hc hf.1 (by rw [hf.2]; exact onlyCreationRecord_created conf)
    obtain ⟨rpos, hrest, heq⟩ := reloaded_of_logged hs hlog' hok hr (hl _ rfl)
    have hcount := (getMsgCount_of_honest hrest.files hrest.rcount hh hok (hl _ rfl)).2 trivial
    rw [Slot.dir, heq]
    refine ⟨?_, by rw [unreadOf, hcount, List.length_map]⟩
    obtain ⟨unread, put, get, hq⟩ := getMsgCount_eq conf sys listing (restored st.dir
      st.q.curRdb.curIndex st.q.curWdb.curIndex { rtagItem st.q with rpos := rpos })
    rw [SlotHeadsOk, HeadsOk, hq]
    show HonestHeads conf st.dir.db (restored st.dir _ _ _).q.curRdb.curIndex _ _
    rw [restored_rindex]
    exact hh

/-- A name that is tracked, with its heads in order and its bodies counted. -/
structure CountedSlot (conf : UcmqConf) (fresh : Prop) (bodies : List (List UInt8)) (slot : Slot) :
    Prop where
  tracked : Tracked conf fresh bodies slot
  heads : SlotHeadsOk conf slot
  unread : unreadOf slot = bodies.length

/-- One event on a counted name. -/
theorem countedSlot_step (h : CountedSlot conf fresh bodies slot)
    (hg : PutCountsKept conf ev n slot) (hstep : SlotStep conf opts n ev rs slot slot')
    (hfresh : (∃ o ∈ opts, o ∈ deletingOpts) → fresh)
    (hc : (∃ sys names listing, ev = .restart sys names listing) → fresh →
      ¬OnlyCreationRecord conf slot) :
    ∃ bodies', CountedSlot conf fresh bodies' slot' ∧ BodiesMoved n ev rs bodies bodies' := by
  obtain ⟨ht, hh, hu⟩ := h
  obtain ⟨bodies', ht', hmoved⟩ := tracked_step ht hstep hfresh (by
    rintro ⟨sys, names, listing, rfl⟩
    exact ⟨hg, hc ⟨_, _, _, rfl⟩⟩)
  suffices hcount : SlotHeadsOk conf slot' ∧ unreadOf slot' = bodies'.length from
    ⟨bodies', ⟨ht', hcount.1, hcount.2⟩, hmoved⟩
  cases hstep with
  | other hn =>
    obtain rfl :=
      hmoved.unchanged (fun hdel => hn hdel.1) (acceptedIn_of_ne hn) (returnedIn_of_ne hn)
    exact ⟨hh, hu⟩
  | restarted hok hl =>
    obtain rfl := hmoved.unchanged id rfl rfl
    exact counted_restart ht hh hok hl hg (hc ⟨_, _, _, rfl⟩)
  | @handled _ req _ _ _ hok hn hopt hh' =>
    cases hh' with
    | unchanged hrs hkeep =>
      by_cases hdel : Deletes req
      · obtain ⟨dir, rfl⟩ := hkeep hdel
        rw [hmoved.deleted ⟨hn, hdel⟩]
        exact ⟨trivial, rfl⟩
      · obtain rfl := hmoved.unchanged (fun hdel' => hdel hdel'.2) (acceptedIn_of_silent hrs)
          (returnedIn_of_silent hrs)
        exact ⟨hh, hu⟩
    | put hput hto hm hlen hp hrep =>
      have hb := hmoved.kept fun hdel =>
        not_deletes ⟨"put", List.mem_singleton_self _, hput⟩ (by decide) hdel.2
      rw [acceptedIn_put hput hn hrep, returnedIn_put hput, List.nil_append] at hb
      obtain ⟨hheads, hcount⟩ := counted_put ht hh hu hok hto hput hm hlen hp
        (fun st he hreach => by subst he; exact hg hn hreach)
      refine ⟨hheads, hcount.trans ?_⟩
      rw [← hb]
      split <;> rfl
    | get hget hp hrep =>
      have hb := hmoved.kept fun hdel =>
        not_deletes ⟨"get", List.mem_singleton_self _, hget⟩ (by decide) hdel.2
      rw [acceptedIn_get hget, returnedIn_get hget hn hrep] at hb
      obtain ⟨hheads, hcount⟩ := counted_get ht hh hu hok hp
      refine ⟨hheads, ?_⟩
      have hlen := congrArg List.length hb
      simp only [List.map_nil, List.append_nil, List.length_append] at hlen
      rw [unreadOf]
      omega
    | @set _ st st' _ hset hto hset' hrs =>
      obtain rfl := hmoved.unchanged (fun hdel => not_deletes hset (by decide) hdel.2)
        (acceptedIn_of_silent hrs) (returnedIn_of_silent hrs)
      obtain ⟨finished, pend, hs, -, -⟩ := sound_of_touched ht hto
      have hst : HeadsOk conf st ∧ st.q.unreadCount = bodies.length := by
        cases hto with
        | found => exact ⟨hh, hu⟩
        | fresh dir => exact ⟨headsOk_created conf, hu⟩
      obtain ⟨hheads, hcount⟩ := counted_set hs hok hst.1 hset'
      exact ⟨hheads, hcount.trans hst.2⟩
    | removed hdel =>
      rw [hmoved.deleted ⟨hn, hdel⟩]
      exact ⟨trivial, rfl⟩
    | reset hdel =>
      rw [hmoved.deleted ⟨hn, hdel⟩]
      exact ⟨headsOk_created conf, rfl⟩

/-- Bodies not yet returned are pending and counted. -/
def Counted (conf : UcmqConf) (acc ret : List (List UInt8)) (slot : Slot) : Prop :=
  ∃ bodies, CountedSlot conf False bodies slot ∧ acc.map storedBody = ret ++ bodies

/-- One event keeps the count exact. -/
theorem counted_step {acc ret : List (List UInt8)} (h : Counted conf acc ret slot)
    (hg : PutCountsKept conf ev n slot) (hstep : SlotStep conf ["put", "get"] n ev rs slot slot') :
    Counted conf (acc ++ acceptedIn n (ev, rs)) (ret ++ returnedIn n (ev, rs)) slot' := by
  obtain ⟨bodies, hslot, heq⟩ := h
  obtain ⟨bodies', hslot', hmoved⟩ := countedSlot_step hslot hg hstep (by decide) (fun _ => by simp)
  refine ⟨bodies', hslot', ?_⟩
  have hb := hmoved.kept (not_deletedIn hstep (by decide))
  rw [List.map_append, heq, List.append_assoc, hb, List.append_assoc]

/-- The unread count of a queue is the number of bodies accepted and not returned,
and a get without delay finds nothing only when there is none, in every run whose
puts under its name find the stored counts in order. -/
theorem unread_exact {tr : History} {s : Server}
    (h : Run (serve banner) (Guarded ["put", "get"] (ForName conf n (PutCountsKept conf)))
      (Server.start conf) tr s) :
    ∃ slot, HasSlot s n slot ∧ unreadOf slot+(returned n tr).length = (accepted n tr).length ∧
      ∀ st sys st', slot = .listed st → st.q.delay = 0 → sys.Ok →
        mqQmPopItem conf sys st = .ok (.getEnd, st') →
        (returned n tr).length = (accepted n tr).length := by
  obtain ⟨slot, hslot, bodies, ⟨ht, hh, hu⟩, heq⟩ := run_slot (J := Counted conf) (by decide)
    ⟨[], ⟨.free, trivial, rfl⟩, rfl⟩ (fun _ _ _ _ _ _ hd hg hs => counted_step hd hg hs) h
  have hlen := congrArg List.length heq
  rw [List.length_map, List.length_append] at hlen
  refine ⟨slot, hslot, by omega, ?_⟩
  rintro st sys st' rfl hdelay hok hp
  cases ht with
  | @held _ finished pend hs hlog =>
    have hres := popResult_of_sound hs (hlog.resolve_right fun hf => hf.1) hok
    rw [hp] at hres
    cases hres with
    | none hzero =>
      rw [unreadOf] at hu
      omega
    | ended =>
      rw [List.map_nil, List.length_nil] at hlen
      omega
    | young _ _ _ hy => exact absurd hdelay hy.1

/-- The counter of a writer that is still in the reader's file is right when it
counts every message of the file. -/
theorem putCountsOk_of_full (h : Sound conf True st finished pend)
    (he : st.q.curRdb.curIndex = st.q.curWdb.curIndex)
    (hfull : st.q.curWdb.pos = maxDbFileSize conf)
    (hcount : st.q.curWdb.optCount = (finished ++ pend).length) {len : ℕ} (hpos : len < 2^26) :
    PutCountsOk conf st len := by
  intro d hd
  have hlt := maxDbFileSize_le conf
  have hrot : needsRotation conf st.q len := by
    rw [needsRotation, hfull, u32_of_lt (by omega)]
    omega
  rw [if_pos hrot]
  have hwhole := files_whole h.files
  rw [he] at hwhole
  have hscan := hwhole.scans_last hd
  obtain ⟨e, hd', hquiet⟩ := h.files.heads _ h.files.index_le le_rfl
  obtain rfl : e = d := Option.some.inj (hd'.symm.trans hd)
  exact .inr (by rw [hcount, mqSmDbCalMsgCount_scans h.files.wpos_le hquiet hscan])

/-- A first file that holds just one message which fills it. -/
theorem putCountsOk_first {limit len : ℕ} {big : List UInt8}
    (hf : InFirstFile conf st (maxDbFileSize conf) 1 limit) (hserves : Serves conf st [big])
    (hlen : len < 2^26) : PutCountsOk conf st len := by
  obtain ⟨finished, pend, hs, hb, -⟩ := hserves.sound
  obtain ⟨pend₀, hs₀, -⟩ := hf.sound
  have hfin : finished = [] := List.length_eq_zero_iff.mp (hs.rcount.trans hs₀.rcount.symm)
  subst hfin
  have hone : pend.length = 1 := by
    have hl := congrArg List.length hb
    simpa using hl.symm
  refine putCountsOk_of_full hs (hf.rindex.trans hf.windex.symm) hf.wpos ?_ hlen
  rw [hf.count, List.nil_append, hone]

/-- The runs that fill a file meet the condition. -/
theorem putCountsKept_admits {big : List UInt8} :
    AdmitsRestart conf sys big [1] (PutCountsKept conf) :=
  ⟨⟨fun _ => trivial, fun _ => trivial, fun _ hf hs _ _ => putCountsOk_first hf hs (by decide),
    fun _ slot => by
      cases slot with
      | absent => trivial
      | listed st => exact fun _ hreach => absurd hreach.opt (by simp [Request.of])⟩,
    fun _ _ _ => trivial, fun _ _ _ hre _ _ _ => hre⟩

/-- A run with a rotation, a get and a restart meets the condition, and one body is
counted after it. -/
theorem unread_exact_restarted : ∃ big tr s slot,
    Run (serve "") (Guarded ["put", "get"] (ForName .least "q" (PutCountsKept .least)))
        (Server.start .least) tr s ∧
      accepted "q" tr = [big, [1]] ∧ returned "q" tr = [big] ∧ HasSlot s "q" slot ∧
      unreadOf slot = 1 := by
  obtain ⟨big, hbig⟩ := exists_big
  obtain ⟨tr, s, st, hrun, -, hacc, hret⟩ := run_least hbig (putCountsKept_admits.forName rfl "q")
  obtain ⟨slot, hslot, hcount, -⟩ := unread_exact hrun
  rw [hacc, hret] at hcount
  exact ⟨big, tr, s, slot, hrun, hacc, hret, hslot, Nat.succ.inj hcount⟩

/-- A file with one message after a fresh head counts as one. -/
theorem dbFileCount_single {q : MqQueue} (hq : q.curWdb.curIndex ≠ q.curRdb.curIndex)
    (m : Msg conf) :
    dbFileCount conf q (writeAt (freshData conf) 128 (msgBytes m.item)) = 1 := by
  have hhead : dbFileHeadCount (writeAt (freshData conf) 128 (msgBytes m.item)) = 0 :=
    (dbFileHeadCount_append le_rfl _).trans (dbFileHeadCount_freshData conf)
  have hle := m.body_le
  have hmin := le_maxDbFileSize conf
  have hlen := length_msgBytes m
  have hfresh := quiet_freshData conf
  have hscan : (msgFraming conf).Scans (writeAt (freshData conf) 128 (msgBytes m.item)) 128 [m]
      (maxDbFileSize conf) := by
    have hnil :
        (msgFraming conf).Scans (writeAt (freshData conf) 128 (msgBytes m.item)) 128 [] 128 :=
      ⟨le_rfl, fun i _ _ => by omega⟩
    have hsnoc := hnil.snoc (a := m) (holds_writeAt (freshData conf) 128 _)
    rw [msgFraming_enc, hlen] at hsnoc
    refine hsnoc.extend (by omega) ?_
    exact (hfresh.mono (Nat.zero_le _) le_rfl).congr fun k hk _ =>
      (writeAt_outside _ (Or.inr (by omega))).symm
  have hquiet :
      Quiet msgHeadOfFirstMagicNum (writeAt (freshData conf) 128 (msgBytes m.item)) 0 128 :=
    (hfresh.mono le_rfl (by omega)).congr fun k _ hk => (writeAt_outside _ (Or.inl hk)).symm
  simp only [dbFileCount, hhead]
  rw [if_neg (by simp), if_neg hq, mqSmDbCalMsgCount_scans le_rfl hquiet hscan]
  rfl

/-- A stored count of one is taken as it is. -/
theorem dbFileCount_one (q : MqQueue) (d : Region) : dbFileCount conf q (withHead d 1) = 1 := by
  have hhead : dbFileHeadCount (withHead d 1) = 1 := by
    rw [withHead, dbFileHeadCount_writeAt d (by decide)]
    rfl
  have hmin := le_maxDbFileSize conf
  simp only [dbFileCount, hhead]
  rw [if_pos (by omega)]

/-- The count of two files, the first with a stored count of one. -/
theorem getMsgCount_two {dir : Dir} {item : RtagItem} (hok : sys.Ok)
    (h1 : dir.db 1 = some ⟨maxDbFileSize conf, withHead d 1⟩)
    (h2 : dir.db 2 = some ⟨maxDbFileSize conf, writeAt (freshData conf) 128 (msgBytes m.item)⟩)
    (hrc : item.rcount = 0) :
    (mqSmGetMsgCount conf sys [.rtag 1, .db 1, .db 2] (restored dir 1 2 item)).q.unreadCount =
      2 := by
  have hc1 : entCount conf sys (restored dir 1 2 item) (.db 1) = 1 := by
    have hd : (restored dir 1 2 item).dir.db 1 = some ⟨maxDbFileSize conf, withHead d 1⟩ := h1
    simp only [entCount, hd, hok.dbOpen, if_true, dbFileCount_one]
  have hc2 : entCount conf sys (restored dir 1 2 item) (.db 2) = 1 := by
    have hd : (restored dir 1 2 item).dir.db 2 =
        some ⟨maxDbFileSize conf, writeAt (freshData conf) 128 (msgBytes m.item)⟩ := h2
    have hne :
        (restored dir 1 2 item).q.curWdb.curIndex ≠ (restored dir 1 2 item).q.curRdb.curIndex := by
      rw [restored_rindex]
      exact (by decide : (2 : ℕ) ≠ 1)
    simp only [entCount, hd, hok.dbOpen, if_true, dbFileCount_single hne]
  have hrc' : (restored dir 1 2 item).q.curRdb.optCount = 0 := restored_rcount.trans hrc
  have hsum : (([.rtag 1, .db 1, .db 2] : List Fname).map
      (entCount conf sys (restored dir 1 2 item))).sum = 2 := by
    have hc0 : entCount conf sys (restored dir 1 2 item) (.rtag 1) = 0 := rfl
    simp only [List.map_cons, List.map_nil, List.sum_cons, List.sum_nil, hc0, hc1, hc2]
    rfl
  rw [mqSmGetMsgCount, if_neg (by simp [restored, restoredQueue, MqQueue.zero])]
  simp only [hsum, hrc']
  rfl

/-- After a restart, a put and a rotation the count of a further restart is too
small: three bodies were accepted, none was returned, and two are counted. -/
theorem unread_short_after_restart :
    ∃ tr sys names listing s slot, Run (serve "") (Guarded ["put", "get"] fun _ _ _ => True)
        (Server.start .least) (tr ++ [(.restart sys names listing, [])]) s ∧
      HasSlot s "q" slot ∧ returned "q" (tr ++ [(.restart sys names listing, [])]) = [] ∧
      (accepted "q" (tr ++ [(.restart sys names listing, [])])).length = 3 ∧ unreadOf slot = 2 := by
  have hmax : maxDbFileSize .least = 1048576 := rfl
  have hok := Sys.quiet_ok 0 0
  have hfree : storageLow .least (Sys.quiet 0 0) = false := rfl
  obtain ⟨big, hbig⟩ : ∃ big : List UInt8, big.length = 1048436 :=
    ⟨List.replicate 1048436 3, List.length_replicate⟩
  obtain ⟨rs₁, s₁, st₁, hres₁, hout₁, honly₁, hf₁⟩ := @put_created .least _ [1] hok hfree
    (by decide) rfl (by decide) (by decide)
  have hlist₁ : IsListing st₁.dir [.rtag 1, .db 1] := by
    obtain ⟨pend, hs, -⟩ := hf₁.sound
    have hl := isListing_of_sound hs
    rw [hf₁.rindex, hf₁.windex] at hl
    exact hl
  obtain ⟨st₂, hre₂, hf₂⟩ := inFirstFile_restart hf₁ (by decide) hok hlist₁
  obtain ⟨hadm₂, honly₂⟩ := honly₁.restart ["put", "get"] hok hlist₁ hre₂
  obtain ⟨m₃, rs₃, s₃, t₃, u₃, hres₃, hout₃, hlen₃, hr₃, hrec₃, honly₃⟩ :=
    @put_onlyQueue _ _ _ _ _ _ _ [2]
    honly₂ hf₂ hok hfree (by decide) (by decide)
  obtain ⟨pend₂, hs₂, -⟩ := hf₂.sound
  have hf₃ := inFirstFile_append hs₂ hf₂.maxque hf₂.wlock hf₂.rindex hf₂.windex hf₂.log
    (by rw [hf₂.count]; decide) (by rw [hf₂.wpos, hlen₃, hmax]; decide) hr₃ hrec₃
      (u₃.q.unreadCount+1)
    (nextSyncIntv .least u₃.q.syncIntv)
  rw [hf₂.wpos, hf₂.count, hlen₃] at hf₃
  obtain ⟨m₄, rs₄, s₄, t₄, u₄, hres₄, hout₄, hlen₄, hr₄, hrec₄, honly₄⟩ :=
    @put_onlyQueue _ _ _ _ _ _ _ big
    honly₃ hf₃ hok hfree (by omega) (by omega)
  have hf₄ := inTwoFiles_rotate hf₃ (by rw [hlen₄, hbig, hmax]; decide) hr₄ hrec₄
    (u₄.q.unreadCount+1) (nextSyncIntv .least u₄.q.syncIntv)
  obtain ⟨pend₄, hs₄, hl₄⟩ := hf₄.sound
  have hlist₄ : IsListing (afterCount .least u₄).dir [.rtag 1, .db 1, .db 2] := by
    have hl := isListing_of_sound hs₄
    rw [hf₄.rindex, hf₄.windex] at hl
    exact hl
  have hreload : Reloadable (.listed (afterCount .least u₄)) := by
    refine ⟨fun t ht => ?_, by rw [hf₄.windex]; decide⟩
    rw [hf₄.rindex] at ht
    have := hf₄.log t ht
    omega
  obtain ⟨rpos, hrest, hre₅⟩ := reloaded_of_logged hs₄ hl₄ hok hreload hlist₄
  obtain ⟨hadm₅, honly₅⟩ := honly₄.restart ["put", "get"] hok hlist₄ hre₅
  obtain ⟨d, hd⟩ := hf₄.first
  obtain ⟨m, hm⟩ := hf₄.second
  have hcount :=
    @getMsgCount_two _ _ _ _ _ { rtagItem (afterCount .least u₄).q with rpos := rpos } hok hd hm
    hs₄.rcount.symm
  rw [hf₄.rindex, hf₄.windex] at honly₅
  have htrue : ∀ (s : Server) (ev : Event), Admissible ["put", "get"] s ev →
      Guarded ["put", "get"] (fun _ _ _ => True) s ev := fun _ _ ha => ⟨ha, fun _ _ _ => trivial⟩
  have hnil : Run (serve "") (Guarded ["put", "get"] fun _ _ _ => True) (Server.start .least) []
      (Server.start .least) := .nil
  have hrun₁ := hnil.snoc (htrue _ (.request _ _) ⟨hok, "put", by decide, rfl⟩) hres₁
  have hrun₂ := hrun₁.snoc (htrue _ _ hadm₂) rfl
  have hrun₃ := hrun₂.snoc (htrue _ (.request _ _) ⟨hok, "put", by decide, rfl⟩) hres₃
  have hrun₄ := hrun₃.snoc (htrue _ (.request _ _) ⟨hok, "put", by decide, rfl⟩) hres₄
  have hrun₅ := hrun₄.snoc (htrue _ _ hadm₅) rfl
  refine ⟨_, _, _, _, _, _, hrun₅, honly₅.slot, ?_, ?_, hcount⟩
  · simp only [returned, List.flatMap_append, List.flatMap_cons, List.flatMap_nil, List.append_nil,
      List.nil_append]
    rw [returnedIn_put rfl, returnedIn_put rfl, returnedIn_put rfl]
    rfl
  · simp only [accepted, List.flatMap_append, List.flatMap_cons, List.flatMap_nil, List.append_nil,
      List.nil_append, List.length_append]
    rw [acceptedIn_of_stored rfl rfl hout₁, acceptedIn_of_stored rfl rfl hout₃,
      acceptedIn_of_stored rfl rfl hout₄]
    rfl

end Ucmq.UnreadCount
