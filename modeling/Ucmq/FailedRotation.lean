import Ucmq.OperationCases
import Ucmq.PutSurvival

/-!
# A rotation that fails

A put that needs a new data file gives up the old one first. With the reader
behind the writer, the write file is unmapped and closed before the free storage
is checked; whenever the new file cannot be opened, extended or mapped, the
write cursor has lost its mapping, too. A put that finds no storage while the
reader is in the write file keeps the mapping, but it has stored the number of
messages in the head of that file. A message added later is not counted there,
and the next start takes the stored number.
-/

namespace Ucmq.FailedRotation

open ByteRegion LabelledRun StoreConfig StoreMsg StoreState StoreRtag StoreFile StoreManage
open QueueManage StoreInvariant ReadPath WritePath HandleFile Recovery Evhttp QueueStep QueueSlots
open RequestEffect ServerRun CleanRestart FifoRefinement RotationRuns UnreadCount PendingBodies
open OperationCases ReadSwitchCrash PutSurvival

variable {conf : UcmqConf} {sys : Sys} {s s' st st' : Store} {finished pend : List (Msg conf)}
variable {m : Msg conf} {d : Region} {len : ℕ} {msg : List UInt8}

/-- A failed move of the writer found no storage, or it lost the mapping. -/
theorem getNextWriteFile_failed (h : getNextWriteFile conf sys s = .ok (false, s')) :
    storageLow conf sys = true ∧ s' = releaseWriteFile s ∨
      storageLow conf sys = false ∧ s'.q.curWdb.mapMem = none := by
  cases hlow : storageLow conf sys with
  | true =>
    rw [getNextWriteFile_of_low hlow] at h
    cases h
    exact .inl ⟨rfl, rfl⟩
  | false =>
    unfold getNextWriteFile at h
    simp only [hlow] at h
    generalize mqSmOpenDbFile conf sys _ .create _ _ = x at h
    obtain ⟨fd, addr, dir, proc⟩ := x
    cases addr with
    | none =>
      cases h
      exact .inr ⟨rfl, rfl⟩
    | some a =>
      simp only [bind, Except.bind, Bool.false_eq_true, if_false] at h
      split at h
      · cases h
      · cases h

/-- What a failed put may leave behind: it found no storage, or its write cursor
has no mapping any more. -/
theorem putError_cases (h : Sound conf True st finished pend) (htime : m.time = curTime sys)
    (hlen : len = m.body.length) (hbody : msg.take len = m.body)
    (hpush : mqQmPushItem conf sys len msg st = .ok (.putError, st')) :
    ∃ d, WriterLive st ∧ dbSeg conf st.dir.db st.q.curWdb.curIndex = some d ∧
      needsRotation conf st.q m.body.length ∧ putOpen sys st.q ∧
      (storageLow conf sys = true ∧ st' = rotating conf st d ∨
        storageLow conf sys = false ∧ st'.q.curWdb.mapMem = none) := by
  obtain ⟨hrot, ho, s₁, hhead, hnext⟩ : needsRotation conf st.q m.body.length ∧ putOpen sys st.q ∧
      ∃ s₁, mqSmDbWriteFileHead conf st = .ok s₁ ∧
        getNextWriteFile conf sys s₁ = .ok (false, st') := by
    cases itemPushed_of_ok hpush with
    | failed ho hput =>
      rw [putData_eq htime hlen hbody st] at hput
      cases msgWritten_of_ok hput with
      | refused hrot hhead hnext => exact ⟨hrot, ho, _, hhead, hnext⟩
  have hw : WriterLive st := by
    refine h.held.wmap.resolve_right fun hdead => ?_
    rw [mqSmDbWriteFileHead, mapWrite_of_dead hdead] at hhead
    cases hhead
  obtain ⟨d, hd, -⟩ := h.files.heads st.q.curWdb.curIndex h.files.index_le le_rfl
  rw [writeFileHead_of_live hw h.inRange.wcount_lt hd] at hhead
  obtain rfl := Except.ok.inj hhead
  exact ⟨d, hw, hd, hrot, ho, getNextWriteFile_failed hnext⟩

/-- A queue whose gets return these bodies in order, and then the end. -/
def Holding (conf : UcmqConf) (bodies : List (List UInt8)) (st : Store) : Prop :=
  ∃ pend : List (Msg conf), pend.map Msg.body = bodies ∧ Delivers conf pend st

/-- The queue that a failed put leaves behind is as good as before: the write
cursor refers to the live mapping and descriptor of its file and was not moved,
the pending bodies are delivered, also after a restart, and a later put that fits
or finds storage for a new file is stored behind them, and found there by a
restart. -/
structure Intact (conf : UcmqConf) (st st' : Store) (bodies : List (List UInt8)) : Prop where
  live : WriterLive st'
  wopen : OpenFd st'.proc st'.q.curWdb.fd st'.q.curWdb.curIndex
  windex : st'.q.curWdb.curIndex = st.q.curWdb.curIndex
  wpos : st'.q.curWdb.pos = st.q.curWdb.pos
  holding : Holding conf bodies st'
  kept : ∀ sys listing, sys.Ok → IsListing st'.dir listing →
    Survives conf sys listing st'.dir bodies
  later : ∀ (sys : Sys) (m : Msg conf) (len : ℕ) (msg : List UInt8), sys.Ok → m.time = curTime sys →
    len = m.body.length → msg.take len = m.body → putOpen sys st'.q →
    ¬needsRotation conf st'.q len ∨ storageLow conf sys = false →
    ∃ s, mqQmPushItem conf sys len msg st' = .ok (.putOk, s) ∧
      Holding conf (bodies ++ [m.body]) (pushed .putOk s) ∧
      ∀ sys listing, sys.Ok → IsListing s.dir listing →
        Survives conf sys listing s.dir (bodies ++ [m.body])

/-- A stored put leaves a queue that can be reloaded. -/
theorem reloadable_of_stored {s₁ s₂ : Store} (h : Sound conf True st finished pend)
    (hroom : RoomToPut st) (hr : WriteResult conf sys st m (.ok (true, s₁)))
    (hrec : Recorded s₁ s₂) :
    Reloadable (.listed s₂) := by
  obtain ⟨hs₁, -⟩ := sound_of_stored h hr
  cases hr with
  | @appended d =>
    have happ : LogRoom (appendMsg conf st d m) 61 := hroom.logRoom.mono (by decide)
    exact (happ.recorded hs₁.typed hrec).reloadable
  | @rotated d s₀ hw hd hrot hlow hnew =>
    obtain ⟨hs₀, -, -⟩ := sound_rotated h hw hd hnew
    have htyped : (rtagItem (nextWriter conf (rotating conf st d)).q).Typed := by
      rw [← hnew.q]
      exact hs₀.typed
    have hnext : LogRoom s₀ 61 := (logRoom_nextWriter hroom d).recorded htyped hnew
    have happ : LogRoom (appendMsg conf s₀ (freshData conf) m) 61 := hnext
    exact (happ.recorded hs₁.typed hrec).reloadable

/-- A sound queue with a live writer and its counts in order stores what fits or
finds storage. -/
theorem push_holding (h : Sound conf True st finished pend) (hw : WriterLive st)
    (hh : HeadsOk conf st) (hu : st.q.unreadCount = pend.length) (hroom : RoomToPut st)
    (hc : PutCountsOk conf st m.body.length) (hok : sys.Ok) (htime : m.time = curTime sys)
    (hlen : len = m.body.length) (hbody : msg.take len = m.body) (ho : putOpen sys st.q)
    (hfits : ¬needsRotation conf st.q len ∨ storageLow conf sys = false) :
    ∃ s, mqQmPushItem conf sys len msg st = .ok (.putOk, s) ∧
      Holding conf (pend.map Msg.body ++ [m.body]) (pushed .putOk s) ∧
      ∀ sys listing, sys.Ok → IsListing s.dir listing →
        Survives conf sys listing s.dir (pend.map Msg.body ++ [m.body]) := by
  have hres := pushResult_of_sound h hok htime hlen hbody
  generalize mqQmPushItem conf sys len msg st = res at hres ⊢
  cases hres with
  | fault hdead => exact absurd hw hdead.not_live
  | full hf => exact absurd hf ho.1
  | wlock _ hl => exact absurd hl ho.2
  | refused _ _ _ hrot hlow =>
    rw [hlen, hlow] at hfits
    exact absurd hrot (hfits.resolve_right (by simp))
  | @stored s₁ s₂ _ hr hrec =>
    obtain ⟨hs, hl, hw'⟩ := sound_of_pushed h (.stored ho hr hrec)
    obtain ⟨hheads, -⟩ := counted_push h hh (fun _ => hc) (.stored ho hr hrec)
    have hre := reloadable_of_stored h hroom hr hrec
    have hbodies : (pend ++ [m]).map Msg.body = pend.map Msg.body ++ [m.body] := by simp
    refine ⟨_, rfl, ⟨pend ++ [m], hbodies, delivers_of_sound (hs.setCounters _ _ _ _)
      (logged_setCounters hl _ _ _ _) hw' ?_⟩, fun sys' listing hok' hlist => ?_⟩
    · show (pend ++ [m]).length ≤ s₂.q.unreadCount+1
      rw [hrec.q, (sameSettings_of_stored hr).unreadCount, hu, List.length_append,
        List.length_singleton]
    · rw [← hbodies]
      exact survives_untouched hs hl hheads hok' hre hlist

/-- A sound queue delivers no more messages than it counts. -/
theorem unread_of_delivers {ms pend : List (Msg conf)} (h : Sound conf clean st finished pend)
    (hl : Logged conf st finished) (hdel : Delivers conf ms st) : ms.length ≤ st.q.unreadCount := by
  induction ms generalizing st finished pend with
  | nil => exact Nat.zero_le _
  | cons m ms ih =>
    have hdelay := h.inRange.delay_lt
    -- at this reading the message is just old enough
    have hold : ¬tooYoung (Sys.quiet (m.time+st.q.delay) 0) st.q.delay m.time := by
      rintro ⟨-, hy⟩
      have hage : ((m.time : ℤ)+st.q.delay-m.time)%2^32 = st.q.delay := by omega
      simp only [Sys.quiet, hage] at hy
      omega
    obtain ⟨st', hpop, hrest⟩ := hdel (Sys.quiet (m.time+st.q.delay) 0) (Sys.quiet_ok _ _) hold
    have hres := popResult_of_sound h hl (Sys.quiet_ok (m.time+st.q.delay) 0)
    rw [hpop] at hres
    generalize m.item = item at hres
    cases hres with
    | @taken m₁ rest fin s' s₂ hm hu hy hs hrec =>
      obtain ⟨hs', hl'⟩ := hs.recorded hrec
      have hle := ih hs' hl' hrest
      have hunread : s'.q.unreadCount = st.q.unreadCount := by rw [hm.q]
      rw [hrec.q] at hle
      simp only [takeMsg, hunread] at hle
      rw [List.length_cons]
      omega

/-- A start takes the number of messages that the head of the only file holds. -/
theorem getMsgCount_of_head {dir : Dir} {r : ℕ} {item : RtagItem} {listing : List Fname}
    (h : Files conf clean dir.db r item.rpos r item.wpos finished pend)
    (hc : finished.length = item.rcount) (hd : dbSeg conf dir.db r = some d)
    (hz : dbFileHeadCount d ≠ 0) (hlt : dbFileHeadCount d < finished.length+pend.length)
    (hok : sys.Ok) (hl : IsListing dir listing) (hpend : pend ≠ []) :
    (mqSmGetMsgCount conf sys listing (restored dir r r item)).q.unreadCount < pend.length := by
  have hperm := (filter_isDb_perm hl (hasDbs_of_files rfl h)).map
    (entCount conf sys (restored dir r r item))
  have hone : r+1-r = 1 := by omega
  rw [hone] at hperm
  obtain ⟨f, hf, -, rfl⟩ := dbSeg_eq_some.mp hd
  have hsmall := calMsgCount_lt h le_rfl le_rfl hd
  have hwhole := (files_whole h).scans_last hd
  obtain ⟨e, hd', hquiet⟩ := h.heads r le_rfl le_rfl
  obtain rfl : e = f.data := Option.some.inj (hd'.symm.trans hd)
  rw [dbFileEnd, if_pos rfl, mqSmDbCalMsgCount_scans h.wpos_le hquiet hwhole,
    List.length_append] at hsmall
  have hent : entCount conf sys (restored dir r r item) (.db r) = dbFileHeadCount f.data := by
    have hdb : (restored dir r r item).dir.db r = some f := hf
    simp only [entCount, hdb, hok.dbOpen, if_true, dbFileCount]
    rw [if_pos ⟨hz, by omega⟩]
  have hsum :
      (listing.map (entCount conf sys (restored dir r r item))).sum = dbFileHeadCount f.data := by
    rw [← sum_entCount_filter, hperm.sum_eq]
    simp [hent]
  have hzero : (restored dir r r item).q.unreadCount = 0 := rfl
  have hrc : (restored dir r r item).q.curRdb.optCount = finished.length := by
    rw [restored_rcount, hc]
  have hlong : 0 < pend.length := List.length_pos_iff.mpr hpend
  rw [mqSmGetMsgCount, if_neg (by simp [hzero])]
  simp only [hrc, hsum]
  split <;> omega

/-- A queue in one file whose head holds too small a number loses a message at the
next start. -/
theorem not_survives_of_head {listing : List Fname} (h : Sound conf True st finished pend)
    (hl : Logged conf st finished) (he : st.q.curRdb.curIndex = st.q.curWdb.curIndex)
    (hd : dbSeg conf st.dir.db st.q.curWdb.curIndex = some d) (hz : dbFileHeadCount d ≠ 0)
    (hlt : dbFileHeadCount d < finished.length+pend.length) (hpend : pend ≠ [])
    (hre : Reloadable (.listed st)) (hok : sys.Ok) (hlist : IsListing st.dir listing) :
    ¬Survives conf sys listing st.dir (pend.map Msg.body) := by
  rintro ⟨st', ms, hload, hbodies, hdel⟩
  obtain ⟨rpos, hrest, heq⟩ := reloaded_of_logged h hl hok hre hlist
  rw [he] at hrest heq
  obtain ⟨hs', hl'⟩ := sound_restored hrest
  obtain rfl := Slot.listed.inj (heq.symm.trans hload)
  have hcount := getMsgCount_of_head hrest.files hrest.rcount hd hz hlt hok hlist hpend
  have hle := unread_of_delivers (sound_getMsgCount hs' sys listing)
    (logged_getMsgCount hl' sys listing) hdel
  have hlen := congrArg List.length hbodies
  rw [List.length_map, List.length_map] at hlen
  omega

/-- A message that is added to a file whose head holds the number of the others. -/
theorem not_intact_of_head (h : Sound conf True st finished pend)
    (hroom : RoomToPut st) (he : st.q.curRdb.curIndex = st.q.curWdb.curIndex)
    (hd : dbSeg conf st.dir.db st.q.curWdb.curIndex = some d) (hz : dbFileHeadCount d ≠ 0)
    (hhead : dbFileHeadCount d = finished.length+pend.length)
    (ho : putOpen (Sys.quiet sys.now sys.freeGb) st.q) (hfit : ¬needsRotation conf st.q 1)
    (s₀ : Store) :
    ¬Intact conf s₀ st (pend.map Msg.body) := by
  intro hin
  have hmin := le_maxDbFileSize conf
  have hquiet := Sys.quiet_ok sys.now sys.freeGb
  let m : Msg conf := putMsgOf conf (Sys.quiet sys.now sys.freeGb) [0] (Nat.succ_pos 0)
    (show 1 ≤ maxDbFileSize conf-128-12 by omega)
  obtain ⟨s, hpush, -, hkept⟩ :=
    hin.later (Sys.quiet sys.now sys.freeGb) m 1 [0] hquiet rfl rfl rfl ho
    (.inl hfit)
  have hres := pushResult_of_sound h hquiet (show m.time = curTime _ from rfl)
    (show 1 = m.body.length from rfl) (show [0].take 1 = m.body from rfl)
  rw [hpush] at hres
  cases hres with
  | @stored s₁ s₂ _ hr hrec =>
    obtain ⟨hs, hl, -⟩ := sound_of_pushed h (.stored ho hr hrec)
    have hreload := reloadable_of_stored h hroom hr hrec
    cases hr with
    | rotated _ _ hrot => exact hfit hrot
    | @appended d' _ hd' _ =>
      obtain rfl : d' = d := Option.some.inj (hd'.symm.trans hd)
      have hnew : dbSeg conf s₂.dir.db s₂.q.curWdb.curIndex =
          some (writeAt d' st.q.curWdb.pos (msgBytes m.item)) := by
        rw [hrec.db, hrec.q]
        exact dbSeg_update_self _ _
      have hsame := @dbFileHeadCount_append d' st.q.curWdb.pos h.files.wpos_ge (msgBytes m.item)
      have he' : s₂.q.curRdb.curIndex = s₂.q.curWdb.curIndex := by
        rw [hrec.q]
        exact he
      refine not_survives_of_head hs hl he' hnew (by rw [hsame]; exact hz) ?_
        (by simp) hreload hquiet
        (isListing_of_sound hs) ?_
      · rw [hsame, hhead, List.length_append, List.length_singleton]
        omega
      · rw [List.map_append]
        exact hkept _ _ hquiet (isListing_of_sound hs)

/-- The put that failed for want of storage, with the reader in the write file. -/
theorem refused_intact_iff (h : Sound conf True st finished pend) (hl : Logged conf st finished)
    (hh : HeadsOk conf st) (hw : WriterLive st) (hroom : RoomToPut st)
    (hu : st.q.unreadCount = pend.length) (he : st.q.curRdb.curIndex = st.q.curWdb.curIndex)
    (hd : dbSeg conf st.dir.db st.q.curWdb.curIndex = some d) (hc : CounterOk conf st.q d)
    (ho : putOpen sys st.q) :
    Intact conf st (rotating conf st d) (pend.map Msg.body) ↔
      st.q.curWdb.optCount = 0 ∨ needsRotation conf st.q 1 := by
  obtain ⟨hsr, hlive, -⟩ := sound_rotating h hw hd
  have hset := sameSettings_rotating conf st d
  have hwdb := rotating_wcursor conf st d
  have hrotates : ∀ k, needsRotation conf (rotating conf st d).q k ↔ needsRotation conf st.q k := by
    intro k
    rw [needsRotation, needsRotation, hwdb.1]
  have hnew : dbSeg conf (rotating conf st d).dir.db (rotating conf st d).q.curWdb.curIndex =
      some (withHead d st.q.curWdb.optCount) := by
    rw [rotating_index, rotating_dir]
    exact dbSeg_update_self _ _
  have hroom' : RoomToPut (rotating conf st d) := by
    obtain ⟨hlog, -⟩ := logRoom_rotating hroom d
    exact ⟨hlog, by rw [rotating_index]; exact hroom.2⟩
  have hheads := headsOk_rotating h hh hd hc
  have ho' : ∀ sys', putOpen sys' (rotating conf st d).q ↔ putOpen sys' st.q := by
    intro sys'
    rw [putOpen, putOpen, queueFull, queueFull, writeLocked, writeLocked, hset.maxque,
      hset.unreadCount, hset.wlock]
  constructor
  · intro hin
    by_contra hno
    obtain ⟨hcount, hfit⟩ := not_or.mp hno
    have hexact := hc.resolve_left hcount
    have hwhole := (files_whole h.files)
    rw [he] at hwhole
    obtain ⟨e, hd', hquiet⟩ := h.files.heads _ h.files.index_le le_rfl
    obtain rfl : e = d := Option.some.inj (hd'.symm.trans hd)
    rw [mqSmDbCalMsgCount_scans h.files.wpos_le hquiet (hwhole.scans_last hd),
      List.length_append] at hexact
    have hsmall := calMsgCount_lt h.files h.files.index_le le_rfl hd
    rw [dbFileEnd, if_pos rfl,
      mqSmDbCalMsgCount_scans h.files.wpos_le hquiet (hwhole.scans_last hd),
      List.length_append] at hsmall
    have hmax := maxDbFileSize_le conf
    have hhead : dbFileHeadCount (withHead e st.q.curWdb.optCount) = st.q.curWdb.optCount :=
      dbFileHeadCount_writeAt e (by omega)
    refine @not_intact_of_head conf sys _ _ _ _ hsr hroom' ?_ hnew ?_ ?_ ?_ ?_ _ hin
    · rw [rotating_rindex, rotating_index, he]
    · rw [hhead]
      omega
    · rw [hhead, hexact]
      push_cast
      rfl
    · exact (ho' _).mpr ho
    · rw [hrotates]
      exact hfit
  · intro hcase
    refine ⟨hlive he, hsr.held.wopen (hlive he), rotating_index conf st d, hwdb.1,
      ⟨pend, rfl, delivers_of_sound hsr (logged_rotating h hl hd) (hlive he)
        (hset.unreadCount.trans hu).ge⟩, fun sys' listing hok' hlist => ?_, ?_⟩
    · exact survives_untouched hsr (logged_rotating h hl hd) hheads hok'
        hroom'.logRoom.reloadable hlist
    · intro sys' m' len' msg' hok' htime' hlen' hbody' ho₂ hfits
      refine push_holding hsr (hlive he) hheads
        (hset.unreadCount.trans hu) hroom' ?_ hok' htime' hlen'
        hbody' ho₂ hfits
      intro d' hd'
      obtain rfl : d' = withHead d st.q.curWdb.optCount := Option.some.inj (hd'.symm.trans hnew)
      by_cases hrot : needsRotation conf (rotating conf st d).q m'.body.length
      · rw [if_pos hrot, CounterOk, hwdb.2, hwdb.1,
          (calMsgCount_withHead h.files hd h.inRange.wcount_lt).1]
        exact hc
      · rw [if_neg hrot]
        have hzero : st.q.curWdb.optCount = 0 := by
          refine hcase.resolve_right fun hone => hrot ?_
          have hfirst := (needsRotation_iff h.files rfl (putMsgOf conf sys' [0] (Nat.succ_pos 0)
            (show 1 ≤ maxDbFileSize conf-128-12 by have := le_maxDbFileSize conf; omega))).mp hone
          refine (hrotates _).mpr ((needsRotation_iff h.files rfl m').mpr ?_)
          have hpos := m'.body_pos
          have hlen1 : (putMsgOf conf sys' [0] (Nat.succ_pos 0)
            (show 1 ≤
              maxDbFileSize conf-128-12 by
            have := le_maxDbFileSize conf; omega)).body.length = 1 := rfl
          omega
        rw [hzero, withHead, dbFileHeadCount_writeAt d (by decide)]
        rfl

/-- In an orderly run, a put that answers an error leaves its queue intact exactly
when it found no storage while the reader was in the write file, and either it
stored a zero in the head of that file or nothing fits into the file any more. -/
theorem failed_rotation_intact_iff {banner : String} {tr : History} {srv : Server} {n : String}
    {slot : Slot}
    (h : Run (serve banner) (Guarded queueOpts (ForName conf n (Orderly conf)))
      (Server.start conf) tr srv)
    (hslot : HasSlot srv n slot) (ht : Touched conf slot st) (htime : m.time = curTime sys)
    (hlen : len = m.body.length) (hbody : msg.take len = m.body) (hcounts : PutCountsOk conf st len)
    (hroom : RoomToPut st) (hpush : mqQmPushItem conf sys len msg st = .ok (.putError, st')) :
    Intact conf st st' (pending n tr) ↔
      storageLow conf sys = true ∧ st.q.curRdb.curIndex = st.q.curWdb.curIndex ∧
        (st.q.curWdb.optCount = 0 ∨ needsRotation conf st.q 1) := by
  obtain ⟨slot', hslot', hcounted⟩ := counted_of_run h
  obtain rfl := hasSlot_unique hslot hslot'
  obtain ⟨htracked, hheads, hunread⟩ := hcounted
  obtain ⟨finished, pend, hs, hpend, hl⟩ := sound_of_touched htracked ht
  obtain ⟨d, hw, hd, hrot, ho, hcase⟩ := putError_cases hs htime hlen hbody hpush
  obtain ⟨hsr, hlive, hdead⟩ := sound_rotating hs hw hd
  rcases hcase with ⟨hlow, rfl⟩ | ⟨hlow, hnull⟩
  · rcases hs.files.index_le.lt_or_eq with hlt | heq
    · exact iff_of_false (fun hin => (hdead hlt).not_live hin.live) fun hand => by omega
    · cases ht with
      | fresh dir => exact absurd hrot (not_needsRotation_created m)
      | found =>
        have hlogged : Logged conf st finished := by
          refine hl.resolve_right fun hcr => ?_
          subst hcr
          exact not_needsRotation_created m hrot
        rw [hpend, List.length_map] at hunread
        have hcount := hcounts d hd
        rw [hlen, if_pos hrot] at hcount
        rw [hpend, refused_intact_iff hs hlogged hheads hw hroom hunread heq hd hcount ho]
        simp [hlow, heq]
  · refine iff_of_false (fun hin => ?_) (by simp [hlow])
    obtain ⟨b, hb, -⟩ := hin.live
    rw [hnull] at hb
    cases hb

/-- The least configuration, with one gigabyte reserved. -/
def reserving : UcmqConf :=
  ⟨1, 1000, 10, 100, 0, 0, 1, UcmqConf.least.one_le_dbFileMaxSize, UcmqConf.least.dbFileMaxSize_le,
    u32_modulus_pos, u32_modulus_pos⟩

/-- A put that needs a new file answers an error when there is no storage. -/
theorem push_refused (h : Sound conf True st finished pend) (hw : WriterLive st) (hok : sys.Ok)
    (htime : m.time = curTime sys) (hlen : len = m.body.length) (hbody : msg.take len = m.body)
    (ho : putOpen sys st.q) (hrot : needsRotation conf st.q m.body.length)
    (hlow : storageLow conf sys = true) :
    ∃ d, dbSeg conf st.dir.db st.q.curWdb.curIndex = some d ∧
      mqQmPushItem conf sys len msg st = .ok (.putError, rotating conf st d) := by
  have hres := pushResult_of_sound h hok htime hlen hbody
  generalize mqQmPushItem conf sys len msg st = res at hres ⊢
  cases hres with
  | fault hdead => exact absurd hw hdead.not_live
  | full hf => exact absurd hf ho.1
  | wlock _ hl => exact absurd hl ho.2
  | refused _ _ hd _ _ => exact ⟨_, hd, rfl⟩
  | stored _ hr _ =>
    cases hr with
    | appended _ _ hfit => exact absurd hrot hfit
    | rotated _ _ _ hfree _ =>
      rw [hlow] at hfree
      cases hfree

/-- No put gets through a released write cursor. -/
theorem push_of_dead (hw : WriterDead st) (htime : m.time = curTime sys)
    (hlen : len = m.body.length) (hbody : msg.take len = m.body) (ho : putOpen sys st.q) :
    mqQmPushItem conf sys len msg st = .error .segv := by
  have hput := putData_eq htime hlen hbody st
  rw [putItem] at hput
  unfold mqQmPushItem
  rw [if_neg ho.1, if_neg ho.2]
  simp only [hput, writeMsg_of_dead hw]
  rfl

/-- A reachable queue with a body that fills its only file. -/
theorem exists_full_reserving : ∃ (tr : History) (srv : Server) (st : Store) (big : List UInt8),
    Run (serve "") (Guarded queueOpts (ForName reserving "q" (Orderly reserving)))
        (Server.start reserving) tr srv ∧
      HasSlot srv "q" (.listed st) ∧ pending "q" tr = [big] ∧ needsRotation reserving st.q 1 ∧
      InFirstFile reserving st (maxDbFileSize reserving) 1 122 ∧ Serves reserving st [big] := by
  obtain ⟨big, hbig⟩ := exists_big
  replace hbig : big.length+140 = maxDbFileSize reserving := hbig
  obtain ⟨rs, srv, st, hrun, hout, honly, hf, hserves⟩ :=
    @run_full reserving _ big _ (Sys.quiet_ok 0 1) rfl
    (by decide) rfl rfl hbig ((orderly_admits hbig).toAdmits.forName rfl "q").first
  have hrun' := run_mono queueOpts (by decide) (fun _ _ _ hg => hg) hrun
  refine ⟨_, srv, st, big, hrun', honly.slot, pending_put [] hout, ?_, hf, hserves⟩
  rw [needsRotation, hf.wpos]
  decide

/-- A put that finds no storage while the only file is full leaves its queue as
it was: nothing fits into that file any more. -/
theorem failed_rotation_intact_full : ∃ tr srv st st' big,
    Run (serve "") (Guarded queueOpts (ForName reserving "q" (Orderly reserving)))
        (Server.start reserving) tr srv ∧
      HasSlot srv "q" (.listed st) ∧ pending "q" tr = [big] ∧
      mqQmPushItem reserving (Sys.quiet 0 0) 1 [1] st = .ok (.putError, st') ∧
      Intact reserving st st' (pending "q" tr) := by
  obtain ⟨tr, srv, st, big, hrun, hslot, hpend, hrot, hf, hserves⟩ := exists_full_reserving
  obtain ⟨finished, pend, hs⟩ := sound_of_run hrun hslot
  obtain ⟨d, -, hpush⟩ :=
    @push_refused _ _ _ _ _ (putMsgOf reserving (Sys.quiet 0 0) [1] (by decide) (by decide))
    1 [1] hs hserves.live (Sys.quiet_ok 0 0) rfl rfl rfl
      (putOpen_of_unlimited hf.maxque hf.wlock) hrot rfl
  have hroom : RoomToPut st := by
    refine ⟨fun t ht => ?_, ?_⟩
    · rw [hf.rindex] at ht
      have := hf.log t ht
      omega
    · rw [hf.windex]
      decide
  refine ⟨tr, srv, st, _, big, hrun, hslot, hpend, hpush, ?_⟩
  exact (@failed_rotation_intact_iff _ _ _ _
    (putMsgOf reserving (Sys.quiet 0 0) [1] (by decide) (by decide)) _ _
    _ _ _ _ _ hrun hslot (.found st) rfl rfl rfl (putCountsOk_first hf hserves (by decide))
      hroom hpush).mpr
      ⟨rfl, hf.rindex.trans hf.windex.symm, .inr hrot⟩

/-- A put that is refused storage for a third file while the reader is in the first
one leaves its write cursor released. -/
theorem refused_two_files {st : Store} {big : List UInt8} {wpos len : ℕ}
    (hbig : big.length+140 = maxDbFileSize reserving) (htwo : InTwoFiles reserving st wpos len)
    (hserves : Serves reserving st [big, [1]]) :
    ∃ d, dbSeg reserving st.dir.db st.q.curWdb.curIndex = some d ∧
      mqQmPushItem reserving (Sys.quiet 0 0) big.length big st =
        .ok (.putError, rotating reserving st d) ∧
      WriterDead (rotating reserving st d) := by
  have hmax : maxDbFileSize reserving = 1048576 := rfl
  obtain ⟨finished, m₁, m₂, hs, hfirst, -⟩ := two_messages hserves
  have hlt : st.q.curRdb.curIndex+1 = st.q.curWdb.curIndex := by rw [htwo.rindex, htwo.windex]
  obtain ⟨d, hd, hscan⟩ := hs.files.read
  obtain ⟨-, -, hwpos⟩ := frame_of_full hs hlt (by rw [hfirst]; exact hbig) hd
  have hpos : 0 < big.length := by omega
  have hle : big.length ≤ maxDbFileSize reserving-128-12 := by omega
  have hrot : needsRotation reserving st.q big.length := by
    have hmsg :=
      (needsRotation_iff hs.files rfl (putMsgOf reserving (Sys.quiet 0 0) big hpos hle)).mpr
    refine hmsg ?_
    show maxDbFileSize reserving < st.q.curWdb.pos+(big.length+12)
    omega
  obtain ⟨e, he, hpush⟩ :=
    @push_refused _ _ _ _ _ (putMsgOf reserving (Sys.quiet 0 0) big hpos hle) big.length
    big hs hserves.live (Sys.quiet_ok 0 0) rfl rfl List.take_length
    (putOpen_of_unlimited hserves.maxque hserves.wlock) hrot rfl
  obtain ⟨-, -, hdead⟩ := sound_rotating hs hserves.live he
  exact ⟨e, he, hpush, hdead (by omega)⟩

/-- A put that finds no storage while the reader is behind leaves its write
cursor released: it is not intact, and the same put crashes the server when it is
tried again. -/
theorem failed_rotation_breaks : ∃ tr srv st st' big,
    Run (serve "") (Guarded queueOpts (ForName reserving "q" (Orderly reserving)))
        (Server.start reserving) tr srv ∧
      HasSlot srv "q" (.listed st) ∧ pending "q" tr = [big, [1]] ∧
      mqQmPushItem reserving (Sys.quiet 0 0) big.length big st = .ok (.putError, st') ∧
      ¬Intact reserving st st' (pending "q" tr) ∧
      mqQmPushItem reserving (Sys.quiet 0 1) big.length big st' = .error .segv := by
  obtain ⟨big, hbig⟩ := exists_big
  replace hbig : big.length+140 = maxDbFileSize reserving := hbig
  obtain ⟨rs₁, rs₂, srv, st, hrun₀, hout₁, hout₂, honly, htwo, hserves⟩ :=
    @run_two_files reserving _ [1] big _
    (Sys.quiet_ok 0 1) rfl (by decide) rfl rfl hbig (by decide) (by decide)
    ((orderly_admits hbig).toAdmits.forName rfl "q")
  have hrun := run_mono queueOpts (by decide) (fun _ _ _ hg => hg) hrun₀
  have hpend :
    pending "q" [(putEvent (Sys.quiet 0 1) big, rs₁), (putEvent (Sys.quiet 0 1) [1], rs₂)] =
      [big, [1]] := by
    have hfirst := @pending_put (Sys.quiet 0 1) rs₁ [] big hout₁
    have hsecond := @pending_put (Sys.quiet 0 1) rs₂ [(putEvent (Sys.quiet 0 1) big, rs₁)] [1] hout₂
    rw [List.nil_append] at hfirst
    rw [List.singleton_append, hfirst] at hsecond
    exact hsecond
  obtain ⟨e, -, hpush, hdead⟩ := refused_two_files hbig htwo hserves
  have hset := sameSettings_rotating reserving st e
  have hmax : maxDbFileSize reserving = 1048576 := rfl
  have hpos : 0 < big.length := by omega
  have hle : big.length ≤ maxDbFileSize reserving-128-12 := by omega
  refine ⟨_, srv, st, _, big, hrun, honly.slot, hpend, hpush,
    fun hin => hdead.not_live hin.live, ?_⟩
  exact @push_of_dead _ _ _ (putMsgOf reserving (Sys.quiet 0 1) big hpos hle) _ _ hdead rfl rfl
    List.take_length
    (putOpen_of_unlimited (hset.maxque.trans hserves.maxque) (hset.wlock.trans hserves.wlock))

end Ucmq.FailedRotation
