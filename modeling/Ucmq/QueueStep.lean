import Ucmq.Recovery

/-!
# Operations on one sound queue

What creating, putting, getting and changing the settings of one queue can
return when no system call fails. A put that is accepted makes its message the
newest unread one and a get delivers the oldest; both leave the queue sound and
logged. A created queue is sound, but its only position record still holds the
zero cursors it was written with.
-/

namespace Ucmq.QueueStep

open ByteRegion FramedLog DecimalText StoreConfig StoreMsg StoreState StoreRtag StoreFile
open StoreManage QueueManage StoreInvariant ReadPath WritePath HandleFile Recovery

variable {conf : UcmqConf} {sys : Sys} {clean : Prop} {s s' : Store}
variable {finished pend : List (Msg conf)} {m : Msg conf}

/-- The record written while a queue is created. -/
def creationItem (conf : UcmqConf) : RtagItem := ⟨0, 0, 0, conf.defMaxQueue, conf.defDelay, 0⟩

/-- A queue just created. -/
def created (conf : UcmqConf) : Store :=
  ⟨(Dir.empty.setRtag 1 (some (rtagText (creationItem conf)))).setDb 1
      (some ⟨maxDbFileSize conf, blankData conf⟩),
    ⟨Function.update (fun _ => none) 2 (some 1),
      Function.update (Function.update (fun _ => none) 0 (some (.rtag 1 false 61))) 1
        (some (.db 1)), 3⟩,
    ⟨some 0, 0, 0, conf.defDelay, conf.defMaxQueue, 0, 0, 0, ⟨some 1, true, some 2, 128, 0, 1⟩,
      ⟨some 1, true, some 2, 128, 0, 1⟩⟩⟩

/-- The record of a creation is in range. -/
theorem creationItem_typed (conf : UcmqConf) : (creationItem conf).Typed :=
  ⟨Nat.two_pow_pos 32, Nat.two_pow_pos 32, Nat.two_pow_pos 32, conf.defMaxQueue_lt,
    conf.defDelay_lt, by simp [creationItem], by simp [creationItem]⟩

/-- Without storage no queue is created. -/
theorem createQueue_of_low (hlow : storageLow conf sys = true) (dir : Option Dir) :
    createQueue conf sys dir = (dir, none) := by
  simp [createQueue, mqSmCreatDb, hlow]

/-- A queue directory is made anew. -/
theorem touchQueuePath_of_ok (hok : sys.Ok) (dir : Option Dir) :
    touchQueuePath sys dir = some Dir.empty := by
  cases dir with
  | none => simp [touchQueuePath, hok.mkdir]
  | some d => simp [touchQueuePath, hok.accessCreat, deleteFile, hok.rmdir, hok.mkdir]

/-- With storage and no call failing a queue is created, and whatever its
directory held before is gone. -/
theorem createQueue_of_free (hok : sys.Ok) (hlow : storageLow conf sys = false) (dir : Option Dir) :
    createQueue conf sys dir = (some (created conf).dir, some (created conf)) := by
  have hlen := length_rtagText (creationItem_typed conf)
  have htake : (rtagText (creationItem conf)).take (sys.rtagWrite .creatDb) =
      rtagText (creationItem conf) := by
    rw [List.take_of_length_le]
    have := hok.rtagWrite .creatDb
    omega
  have hopen : mqSmRtagOpenNextFile sys 1 Dir.empty Proc.empty =
      (some 0, Dir.empty.setRtag 1 (some []), Proc.empty.openFd (.rtag 1 false 0)) := by
    simp [mqSmRtagOpenNextFile, hok.rtagOpen, Dir.empty, Proc.empty]
  have hfile := @openDbFile_create conf _ hok 1 (Dir.empty.setRtag 1 (some []))
    rfl (Proc.empty.openFd (.rtag 1 false 0))
  have hitem :
    rtagItem ⟨some 0, 0, 0, conf.defDelay, conf.defMaxQueue, 0, 0, 0, ⟨none, false, none, 0, 0, 0⟩,
      ⟨some 1, false, some 2, 0, 0, 0⟩⟩ = creationItem conf := rfl
  have hfds : Function.update (Function.update (Function.update (fun _ => none) 0
      (some (FdRef.rtag 1 false 0))) 1 (some (.db 1))) 0 (some (.rtag 1 false 61)) =
      (created conf).proc.fds := by
    rw [Function.update_comm (by decide), Function.update_idem]
    rfl
  simp only [createQueue, mqSmCreatDb, hlow, touchQueuePath_of_ok hok, hopen, hfile]
  simp [mqSmRtagWriteItem, Proc.empty, MqQueue.zero, MqDbMap.zero, initQueue, hitem, htake, hlen,
    writeText, hfds, Dir.setDb, Dir.setRtag]
  exact ⟨rfl, rfl⟩

/-- A created queue is sound and empty. -/
theorem sound_created (conf : UcmqConf) :
    Sound conf True (created conf) [] [] ∧ WriterLive (created conf) := by
  have hmin := le_maxDbFileSize conf
  have hseg : dbSeg conf (created conf).dir.db 1 = some (blankData conf) := dbSeg_update_self 1 _
  have hquiet : (msgFraming conf).Scans (blankData conf) 128 [] 128 :=
    ⟨le_rfl, fun i _ _ => by omega⟩
  have hlive : WriterLive (created conf) := ⟨2, rfl, by simp [created]⟩
  have hdata : DataFd (created conf).proc (some 1) := by
    intro x hx
    cases hx
    simp [created]
  have hfiles : Files conf True (created conf).dir.db 1 128 1 128 [] [] := by
    refine ⟨.last hseg hquiet, le_rfl, le_rfl, by omega, ⟨_, hseg, hquiet⟩, ?_, ?_, ?_⟩
    · intro i hi hw
      obtain rfl : i = 1 := by omega
      exact ⟨_, hseg, quiet_blankData conf 0 128⟩
    · intro _ d hd
      rw [hseg] at hd
      cases hd
      exact quiet_blankData conf _ _
    · intro i hi
      by_contra hne
      have hi1 : i ≠ 1 := by omega
      exact hi (by simp [created, hi1, Dir.empty])
  refine ⟨⟨hfiles, ⟨?_, fun _ => rfl, Or.inl hlive, ?_, hdata, hdata, ?_, fun _ => rfl, ?_⟩,
    rfl, ?_, ?_, ?_⟩, hlive⟩
  · intro hlt
    exact absurd hlt (lt_irrefl 1)
  · intro a ha
    have ha' : 3 ≤ a := ha
    have ha2 : a ≠ 2 := by omega
    simp [created, ha2]
  · intro hlt
    exact absurd hlt (lt_irrefl 1)
  · exact fun _ => ⟨1, rfl, by simp [created]⟩
  · intro i hi
    by_contra hne
    have hi1 : i ≠ 1 := hne
    exact hi (by simp [created, hi1, Dir.empty])
  · exact ⟨0, false, 61, rtagText (creationItem conf), rfl, by simp [created], by simp [created],
      by simp [created], Or.inr (length_rtagText (creationItem_typed conf)).symm⟩
  · exact ⟨conf.defMaxQueue_lt, conf.defDelay_lt, by simp [created], by simp [created],
      Nat.two_pow_pos 32⟩

/-- A message always fits a file just created. -/
theorem not_needsRotation_created (m : Msg conf) :
    ¬needsRotation conf (created conf).q m.body.length := by
  intro hrot
  have hfit := (needsRotation_iff (sound_created conf).1.files rfl m).mp hrot
  have hpos : (created conf).q.curWdb.pos = 128 := rfl
  have hle := m.body_le
  have hmin := le_maxDbFileSize conf
  omega

/-- A write depends on the bytes of the item and its length only. -/
theorem writeMsg_congr {item item' : MsgItem} (hlen : item.len = item'.len)
    (hbytes : msgBytes item = msgBytes item') (s : Store) :
    mqSmDbWriteMsg conf sys item s = mqSmDbWriteMsg conf sys item' s := by
  have hw : ∀ s, writeMsgBytes conf item s = writeMsgBytes conf item' s := by
    intro s
    rw [writeMsgBytes, writeMsgBytes, hbytes, hlen]
  simp only [mqSmDbWriteMsg, hlen, hw]

/-- The item that a put of some bytes prepares before the checksum. -/
def putItem (sys : Sys) (len : ℕ) (msg : List UInt8) : MsgItem :=
  ⟨msgHeadOfFirstMagicNum, msgHeadOfSecondMagicNum, curTime sys, 0, len, msg⟩

/-- A put writes the message made of the clock reading and the leading bytes. -/
theorem putData_eq {len : ℕ} {msg : List UInt8} (htime : m.time = curTime sys)
    (hlen : len = m.body.length) (hbody : msg.take len = m.body) (s : Store) :
    mqSmPutData conf sys (putItem sys len msg) s = mqSmDbWriteMsg conf sys m.item s := by
  have hlt := m.body_lt
  have hi : toI32 (len : ℤ) = len := toI32_of_bounds (by omega) (by omega)
  have hcrc : mqSmDbBuildMsgCrc16 (fun n => (putItem sys len msg).msg.take n)
      (toI32 ((putItem sys len msg).len : ℤ)) = some (Crc16.crc16Append m.body) := by
    simp only [putItem]
    rw [hi, mqSmDbBuildMsgCrc16, if_neg (by omega), Int.toNat_natCast, hbody]
  rw [mqSmPutData, hcrc]
  refine writeMsg_congr hlen ?_ s
  subst hlen
  simp only [msgBytes, msgHead, Msg.item, putItem, hbody, htime, List.take_length]

/-- The message stored for a put. -/
def putMsgOf (conf : UcmqConf) (sys : Sys) (body : List UInt8) (hpos : 0 < body.length)
    (hle : body.length ≤ maxDbFileSize conf-128-12) : Msg conf :=
  ⟨curTime sys, body, wlock_column_lt sys.now, hpos, hle⟩

/-- A put is accepted by neither the capacity check nor the lock. -/
def putOpen (sys : Sys) (q : MqQueue) : Prop := ¬queueFull q ∧ ¬writeLocked sys q

/-- An accepted put passed both checks. -/
theorem putOpen_of_putOk {len : ℕ} {msg : List UInt8}
    (h : mqQmPushItem conf sys len msg s = .ok (.putOk, s')) : putOpen sys s.q := by
  by_cases hf : queueFull s.q
  · rw [mqQmPushItem, if_pos hf] at h
    cases h
  by_cases hl : writeLocked sys s.q
  · rw [mqQmPushItem, if_neg hf, if_pos hl] at h
    cases h
  exact ⟨hf, hl⟩

/-- A put of this length is refused storage for a new file while the reader is
behind the writer. -/
structure RefusedBehind (conf : UcmqConf) (sys : Sys) (len : ℕ) (s : Store) : Prop where
  accepted : putOpen sys s.q
  rotates : needsRotation conf s.q len
  low : storageLow conf sys = true
  behind : s.q.curRdb.curIndex < s.q.curWdb.curIndex

/-- What a put can return on a sound queue. -/
inductive PushResult (conf : UcmqConf) (sys : Sys) (s : Store) (m : Msg conf) :
    Except Fault (QueuePutRet × Store) → Prop
  | fault (hdead : WriterDead s) : PushResult conf sys s m (.error .segv)
  | full (hf : queueFull s.q) : PushResult conf sys s m (.ok (.full, s))
  | wlock (hf : ¬queueFull s.q) (hl : writeLocked sys s.q) :
      PushResult conf sys s m (.ok (.wlock, s))
  | refused {d : Region} (ho : putOpen sys s.q) (hw : WriterLive s)
      (hd : dbSeg conf s.dir.db s.q.curWdb.curIndex = some d)
      (hrot : needsRotation conf s.q m.body.length) (hlow : storageLow conf sys = true) :
      PushResult conf sys s m (.ok (.putError, rotating conf s d))
  | stored {s₁ s₂ : Store} (ho : putOpen sys s.q) (hr : WriteResult conf sys s m (.ok (true, s₁)))
      (hrec : Recorded s₁ s₂) : PushResult conf sys s m (.ok (.putOk,
        { s₂ with q := { s₂.q with syncIntv := nextSyncIntv conf s₂.q.syncIntv } }))

/-- A put on a clean sound queue. -/
theorem pushResult_of_sound (h : Sound conf True s finished pend) (hok : sys.Ok) {len : ℕ}
    {msg : List UInt8} (htime : m.time = curTime sys) (hlen : len = m.body.length)
    (hbody : msg.take len = m.body) :
    PushResult conf sys s m (mqQmPushItem conf sys len msg s) := by
  unfold mqQmPushItem
  by_cases hfull : queueFull s.q
  · rw [if_pos hfull]
    exact .full hfull
  rw [if_neg hfull]
  by_cases hlock : writeLocked sys s.q
  · rw [if_pos hlock]
    exact .wlock hfull hlock
  rw [if_neg hlock]
  have hput := putData_eq htime hlen hbody s
  rw [putItem] at hput
  simp only [hput]
  have hres := writeResult_of_sound h hok m
  generalize mqSmDbWriteMsg conf sys m.item s = res at hres ⊢
  cases res with
  | error =>
    cases hres with
    | fault hdead => exact .fault hdead
  | ok r =>
    obtain ⟨ok, s₁⟩ := r
    cases ok with
    | false =>
      cases hres with
      | refused hw hd hrot hlow => exact .refused ⟨hfull, hlock⟩ hw hd hrot hlow
    | true =>
      obtain ⟨hs, -⟩ := sound_of_stored h hres
      exact .stored ⟨hfull, hlock⟩ hres (rtagWriteItem_recorded hok .item hs.log hs.typed)

/-- An accepted put makes its message the newest unread one. -/
theorem sound_of_pushed (h : Sound conf True s finished pend)
    (hr : PushResult conf sys s m (.ok (.putOk, s'))) :
    Sound conf True s' finished (pend ++ [m]) ∧ Logged conf s' finished ∧ WriterLive s' := by
  cases hr with
  | @stored s₁ s₂ _ hr hrec =>
    obtain ⟨hs, hw⟩ := sound_of_stored h hr
    obtain ⟨hs₂, hl₂⟩ := hs.recorded hrec
    exact ⟨hs₂.setCounters _ _ _ _, hl₂, hrec.writerLive hw⟩

/-- What a get can return on a sound queue. -/
inductive PopResult (conf : UcmqConf) (sys : Sys) (clean : Prop) (s : Store) :
    List (Msg conf) → Except Fault (QueueGetRet × Store) → Prop
  | fault {pend : List (Msg conf)} (hdead : ¬WriterLive s) :
      PopResult conf sys clean s pend (.error .segv)
  | none {pend : List (Msg conf)} (hu : s.q.unreadCount = 0) :
      PopResult conf sys clean s pend (.ok (.getEnd, s))
  | ended {finished : List (Msg conf)} {s' : Store} (hm : ReaderMoved s s')
      (hs : Sound conf clean (atQueueEnd s') finished [])
      (hl : Logged conf (atQueueEnd s') finished) :
      PopResult conf sys clean s [] (.ok (.getEnd, atQueueEnd s'))
  | young {m : Msg conf} {rest finished : List (Msg conf)} {s' : Store} (hm : ReaderMoved s s')
      (hs : Sound conf clean s' finished (m :: rest)) (hl : Logged conf s' finished)
      (hy : tooYoung sys s.q.delay m.time) :
      PopResult conf sys clean s (m :: rest) (.ok (.getEnd, s'))
  | taken {m : Msg conf} {rest finished : List (Msg conf)} {s' s₂ : Store} (hm : ReaderMoved s s')
      (hu : 0 < s.q.unreadCount) (hy : ¬tooYoung sys s.q.delay m.time)
      (hs : Sound conf clean (takeMsg s' m.body.length) (finished ++ [m]) rest)
      (hrec : Recorded (takeMsg s' m.body.length) s₂) :
      PopResult conf sys clean s (m :: rest) (.ok (.getOk m.item, s₂))

/-- A get on a sound and logged queue. -/
theorem popResult_of_sound (h : Sound conf clean s finished pend) (hl : Logged conf s finished)
    (hok : sys.Ok) : PopResult conf sys clean s pend (mqQmPopItem conf sys s) := by
  unfold mqQmPopItem
  by_cases hu : s.q.unreadCount < 1
  · rw [if_pos hu]
    exact .none (by omega)
  rw [if_neg hu]
  have hres := readResult_of_sound h hl hok
  generalize mqSmGetData conf sys s = res at hres
  cases hres with
  | fault hdead => exact .fault hdead
  | ended hm hs hlog => exact .ended hm hs hlog
  | young hm hs hlog hy => exact .young hm hs hlog hy
  | take hm hy hs =>
    exact .taken hm (by omega) hy hs (rtagWriteItem_recorded hok .item hs.log hs.typed)

/-- A queue that is empty by its count returns nothing. -/
theorem popItem_of_none (hu : s.q.unreadCount = 0) : mqQmPopItem conf sys s = .ok (.getEnd, s) := by
  rw [mqQmPopItem, if_pos (by omega)]

/-- Change of the settings of a queue. -/
def setSettings (s : Store) (maxque delay : ℕ) (wlock : ℤ) : Store :=
  { s with q := { s.q with maxque := maxque, delay := delay, wlock := wlock } }

/-- A queue whose settings were changed and recorded. -/
inductive SetResult (s s' : Store) : Prop
  | mk (maxque delay : ℕ) (wlock : ℤ) (hm : maxque < 2^32) (hd : delay < 2^32) (hl : -2^31 ≤ wlock)
      (hu : wlock < 2^31) (hrec : Recorded (setSettings s maxque delay wlock) s')

/-- Settings in range keep a queue sound. -/
theorem sound_setSettings (h : Sound conf clean s finished pend) {maxque delay : ℕ} {wlock : ℤ}
    (hm : maxque < 2^32) (hd : delay < 2^32) (hl : -2^31 ≤ wlock) (hu : wlock < 2^31) :
    Sound conf clean (setSettings s maxque delay wlock) finished pend :=
  ⟨h.files, h.held.congr rfl ⟨rfl, rfl, rfl⟩ ⟨rfl, rfl, rfl⟩,
    h.rcount, h.rtags, h.log, hm, hd, hl, hu, h.inRange.wcount_lt⟩

/-- A setting changes its field and is recorded. -/
theorem setResult_of_sound (h : Sound conf clean s finished pend) (hok : sys.Ok) {maxque delay : ℕ}
    {wlock : ℤ} (hm : maxque < 2^32) (hd : delay < 2^32) (hl : -2^31 ≤ wlock) (hu : wlock < 2^31) :
    SetResult s (mqSmRtagWriteItem sys .item (setSettings s maxque delay wlock)).2 := by
  have hs := sound_setSettings h hm hd hl hu
  exact .mk maxque delay wlock hm hd hl hu (rtagWriteItem_recorded hok .item hs.log hs.typed)

/-- So does the capacity. -/
theorem setMaxqueue_of_sound (h : Sound conf clean s finished pend) (hok : sys.Ok) {maxque : ℕ}
    (hm : maxque < 2^32) : SetResult s (mqQmSetMaxqueue sys maxque s) :=
  setResult_of_sound h hok hm h.inRange.delay_lt h.inRange.wlock_ge h.inRange.wlock_lt

/-- So does the delay. -/
theorem setDelay_of_sound (h : Sound conf clean s finished pend) (hok : sys.Ok) {delay : ℕ}
    (hd : delay < 2^32) : SetResult s (mqQmSetDelay sys delay s) :=
  setResult_of_sound h hok h.inRange.maxque_lt hd h.inRange.wlock_ge h.inRange.wlock_lt

/-- A lock is an int. -/
theorem wlockValue_range (sys : Sys) (wlock : ℕ) :
    -2^31 ≤ wlockValue sys wlock ∧ wlockValue sys wlock < 2^31 := by
  unfold wlockValue
  split
  · decide
  split
  · decide
  · have hl := @Int.le_bmod (sys.now+wlock) (2^32) (by decide)
    have hu := @Int.bmod_lt (sys.now+wlock) (2^32) (by decide)
    unfold toI32
    norm_num at hl hu ⊢
    exact ⟨hl, hu⟩

/-- So does the lock. -/
theorem setWlock_of_sound (h : Sound conf clean s finished pend) (hok : sys.Ok) (wlock : ℕ) :
    SetResult s (mqQmSetWlock sys wlock s) :=
  setResult_of_sound h hok h.inRange.maxque_lt h.inRange.delay_lt (wlockValue_range sys wlock).1
    (wlockValue_range sys wlock).2

/-- Recorded settings leave a sound queue sound and logged. -/
theorem sound_of_set (h : Sound conf clean s finished pend) (hr : SetResult s s') :
    Sound conf clean s' finished pend ∧ Logged conf s' finished := by
  obtain ⟨maxque, delay, wlock, hm, hd, hl, hu, hrec⟩ := hr
  exact (sound_setSettings h hm hd hl hu).recorded hrec

end Ucmq.QueueStep
