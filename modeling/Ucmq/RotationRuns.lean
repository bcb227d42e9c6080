import Ucmq.FifoRefinement

/-!
# Runs that fill a data file

A body that fills a data file, followed by another body, leaves the reader in
the first file and the writer in the second one. A get of the first body then
leaves the reader at the end of its file, so that the next get switches. A clean
restart finds both files. The condition on the events of these runs is a
parameter.
-/

namespace Ucmq.RotationRuns

open ByteRegion FramedLog LabelledRun DecimalText StoreConfig StoreMsg StoreState StoreRtag
open StoreFile StoreManage QueueManage StoreInvariant ReadPath WritePath HandleFile Recovery Evhttp
open QueueStep QueueSlots RequestEffect ServerRun CleanRestart FifoRefinement

variable {conf : UcmqConf} {sys : Sys} {st : Store} {m : Msg conf} {wpos count len : ℕ}
variable {n : String} {rs : List Reply}

/-- A put that is stored accepts its body. -/
theorem acceptedIn_of_stored {sys : Sys} {req : Request} (hopt : req.opt = some "put")
    (hn : req.name = some n) (h : fifoOut req rs = .stored) :
    acceptedIn n (.request sys req, rs) = [putBody req] := by
  unfold fifoOut at h
  split at h
  · rename_i r
    rw [if_pos hopt] at h
    split at h
    · rename_i hp
      exact if_pos ⟨hopt, hn, r, List.mem_singleton_self r, hp⟩
    · split at h <;> cases h
  · cases h

/-- A get of a body returns it. -/
theorem returnedIn_of_got {sys : Sys} {req : Request} {b : List UInt8} (hopt : req.opt = some "get")
    (hn : req.name = some n) (h : fifoOut req rs = .got b) :
    returnedIn n (.request sys req, rs) = [b] := by
  unfold fifoOut at h
  split at h
  · rename_i r
    rw [if_neg (by rw [hopt]; simp)] at h
    split at h
    · rename_i hp
      cases h
      rw [returnedIn, if_pos ⟨hopt, hn⟩]
      simp [hp]
    · split at h <;> cases h
  · cases h

/-- A queue with unread messages in its first file only, with the position and
the counter of its write cursor and a bound on its log. -/
structure InFirstFile (conf : UcmqConf) (st : Store) (wpos count len : ℕ) : Prop where
  sound : ∃ pend, Sound conf True st [] pend ∧ Logged conf st []
  live : WriterLive st
  maxque : st.q.maxque = 0
  wlock : st.q.wlock = 0
  rindex : st.q.curRdb.curIndex = 1
  windex : st.q.curWdb.curIndex = 1
  wpos : st.q.curWdb.pos = wpos
  count : st.q.curWdb.optCount = count
  log : ∀ t, st.dir.rtag 1 = some t → t.length ≤ len

/-- Without limit and lock puts are taken. -/
theorem putOpen_of_unlimited {q : MqQueue} (hm : q.maxque = 0) (hl : q.wlock = 0) :
    putOpen sys q := by
  constructor
  · rintro ⟨hne, -⟩
    exact hne hm
  · rintro (h | h)
    · rw [hl] at h
      exact absurd h (by decide)
    · rw [hl] at h
      exact absurd h (by simp)

/-- A message that fits is added to the first file. -/
theorem inFirstFile_append {s₁ s₂ : Store} (hs : Sound conf True st [] pend)
    (hm : st.q.maxque = 0) (hl : st.q.wlock = 0) (hr : st.q.curRdb.curIndex = 1)
    (hwi : st.q.curWdb.curIndex = 1) (hlog : ∀ t, st.dir.rtag 1 = some t → t.length ≤ len)
    (hcount : st.q.curWdb.optCount+1 < 2^32)
    (hfit : st.q.curWdb.pos+(m.body.length+12) ≤ maxDbFileSize conf)
    (hres : WriteResult conf sys st m (.ok (true, s₁))) (hrec : Recorded s₁ s₂) (unread : ℕ)
    (intv : ℤ) :
    InFirstFile conf { s₂ with q := { s₂.q with unreadCount := unread, syncIntv := intv } }
      (st.q.curWdb.pos+(m.body.length+12)) (st.q.curWdb.optCount+1) (len+61) := by
  have hiff := needsRotation_iff hs.files rfl m
  obtain ⟨hs₁, hw₁⟩ := sound_of_stored hs hres
  obtain ⟨hs₂, hl₂⟩ := hs₁.recorded hrec
  cases hres with
  | rotated _ _ hrot => exact absurd (hiff.mp hrot) (by omega)
  | @appended d hlive hd hno =>
    have hrd : s₂.q.curRdb = st.q.curRdb := by rw [hrec.q]; rfl
    refine ⟨⟨_, hs₂.setCounters _ _ _ _, hl₂⟩, hrec.writerLive hw₁, ?_, ?_, ?_, ?_, ?_, ?_, ?_⟩
    · simp only [hrec.q]
      exact hm
    · simp only [hrec.q]
      exact hl
    · simp only [hrd]
      exact hr
    · simp only [hrec.q]
      exact hwi
    · simp only [hrec.q]
      rfl
    · simp only [hrec.q]
      exact u32_of_lt hcount
    · intro t' ht'
      have hidx : s₂.q.curRdb.curIndex = 1 := by rw [hrd, hr]
      obtain ⟨t, ht, hlen⟩ := hrec.length_log hs₁.typed (by rw [hidx]; exact ht')
      rw [show (appendMsg conf st d m).q.curRdb.curIndex = 1 from hr] at ht
      have hold := hlog t ht
      omega

/-- A restart restores the first file, and forgets the counter. -/
theorem inFirstFile_restart {listing : List Fname} (h : InFirstFile conf st wpos count len)
    (hlen : len < 2^31) (hok : sys.Ok) (hl : IsListing st.dir listing) :
    ∃ st', reloaded conf sys listing (some st.dir) = .listed st' ∧
      InFirstFile conf st' wpos 0 len := by
  obtain ⟨pend, hs, hlog⟩ := h.sound
  have hreload : Reloadable (.listed st) := by
    refine ⟨fun t ht => ?_, by rw [h.windex]; decide⟩
    rw [h.rindex] at ht
    have := h.log t ht
    omega
  obtain ⟨rpos, hrest, heq⟩ := reloaded_of_logged hs hlog hok hreload hl
  obtain ⟨hs', hl'⟩ := sound_restored hrest
  have hsound : ∃ pend, Sound conf True (mqSmGetMsgCount conf sys listing (restored st.dir
      st.q.curRdb.curIndex st.q.curWdb.curIndex { rtagItem st.q with rpos := rpos })) [] pend ∧
      Logged conf (mqSmGetMsgCount conf sys listing (restored st.dir
        st.q.curRdb.curIndex st.q.curWdb.curIndex { rtagItem st.q with rpos := rpos })) [] :=
    ⟨_, sound_getMsgCount hs' sys listing, logged_getMsgCount hl' sys listing⟩
  obtain ⟨unread, put, get, hq⟩ := getMsgCount_eq conf sys listing (restored st.dir
    st.q.curRdb.curIndex st.q.curWdb.curIndex { rtagItem st.q with rpos := rpos })
  rw [hq] at heq hsound
  have hri : (restored st.dir st.q.curRdb.curIndex st.q.curWdb.curIndex
      { rtagItem st.q with rpos := rpos }).q.curRdb.curIndex = 1 := restored_rindex.trans h.rindex
  exact ⟨_, heq, hsound, @restored_writerLive st.dir _ _ _, h.maxque, h.wlock, hri,
    h.windex, h.wpos, rfl, h.log⟩

/-- The queue record after a counted put. -/
abbrev afterCount (conf : UcmqConf) (st : Store) : Store :=
  { st with q := { st.q with
    unreadCount := st.q.unreadCount+1, syncIntv := nextSyncIntv conf st.q.syncIntv } }

/-- A put on the only queue, while its messages are in the first file. -/
theorem put_onlyQueue {s : Server} {body : List UInt8} (h : OnlyQueue conf s "q" st)
    (hf : InFirstFile conf st wpos count len) (hok : sys.Ok) (hfree : storageLow conf sys = false)
    (hpos : 0 < body.length) (hle : body.length ≤ maxDbFileSize conf-128-12) :
    ∃ (m : Msg conf) (rs : List Reply) (s' : Server) (s₁ s₂ : Store),
      mqEvhttpCbDoOptEntry "" sys (Request.of "put" "q" body) s = .ok (rs, s') ∧
      fifoOut (Request.of "put" "q" body) rs = .stored ∧ m.body.length = body.length ∧
      WriteResult conf sys st m (.ok (true, s₁)) ∧ Recorded s₁ s₂ ∧
      OnlyQueue conf s' "q" (afterCount conf s₂) := by
  obtain rfl := h.conf_eq
  obtain ⟨pend, hs, -⟩ := hf.sound
  have hmax := maxDbFileSize_le s.conf
  obtain ⟨size, hmsg, hsize⟩ := @putMsg_of_fit s.conf (Request.of "put" "q" body) hpos hle
    (Or.inl rfl)
  obtain ⟨m, rs, s', s₁, s₂, hres, hout, hsame, hbody, hr, hrec, hslot⟩ := @entry_put_stored _ ""
    sys _ _ _ _ _ _ _ _ rfl rfl rfl (by decide) hmsg (by rw [hsize]; exact ⟨hpos, hle⟩)
    (touchQueue_of_listed sys h.slot) (.refl "q" s) h.slot hs hf.live
    (putOpen_of_unlimited hf.maxque hf.wlock) hok hfree
  have hlen : m.body.length = body.length := by
    rw [hbody, storedBody_of_lt]
    · rfl
    · show body.length < 2^32
      omega
  exact ⟨m, rs, s', s₁, s₂, hres, hout, hlen, hr, hrec, h.of_same hsame hslot⟩

/-- The first put under a name. -/
theorem put_created {body : List UInt8} (hok : sys.Ok) (hfree : storageLow conf sys = false)
    (hroom : 0 < conf.maxQlistItmes) (hmax : conf.defMaxQueue = 0) (hpos : 0 < body.length)
    (hfit : 128+(body.length+12) ≤ maxDbFileSize conf) :
    ∃ rs s' st', mqEvhttpCbDoOptEntry "" sys (Request.of "put" "q" body) (Server.start conf) =
      .ok (rs, s') ∧
      fifoOut (Request.of "put" "q" body) rs = .stored ∧ OnlyQueue conf s' "q" st' ∧
      InFirstFile conf st' (128+(body.length+12)) 1 122 := by
  have hle : body.length ≤ maxDbFileSize conf-128-12 := by omega
  have hlt := maxDbFileSize_le conf
  have hslot : HasSlot (Server.start conf) "q" (.absent none) := ⟨rfl, rfl⟩
  have hadd := addQueue_of_free (s := Server.start conf) hok hfree hroom "q"
  have hsame₀ := sameElsewhere_addQueue sys "q" (Server.start conf)
  rcases addQueue_of_absent hok hslot with ⟨hf, -⟩ | ⟨-, hs⟩
  · rw [hadd] at hf
    cases hf
  obtain ⟨size, hmsg, hsize⟩ := @putMsg_of_fit conf (Request.of "put" "q" body) hpos hle
    (Or.inl rfl)
  obtain ⟨hsound, hlive⟩ := sound_created conf
  obtain ⟨m, rs, s', s₁, s₂, hres, hout, hsame, hbody, hr, hrec, hslot'⟩ := @entry_put_stored _ ""
    sys _ (Server.start conf) _ _ _ _ _ _ rfl rfl rfl (by decide) hmsg
      (by rw [hsize]; exact ⟨hpos, hle⟩)
    (touchQueue_of_added hslot hadd hs) hsame₀ hs hsound hlive
      (putOpen_of_unlimited hmax rfl) hok hfree
  have hlen : m.body.length = body.length := by
    rw [hbody, storedBody_of_lt]
    · rfl
    · show body.length < 2^32
      omega
  refine ⟨rs, s', _, hres, hout, ⟨hsame.conf, hslot', fun x hx => hsame.hasSlot hx ⟨rfl, rfl⟩⟩, ?_⟩
  have hlog : ∀ t, (created conf).dir.rtag 1 = some t → t.length ≤ 61 := by
    intro t ht
    have ht' : t = rtagText (creationItem conf) := by simpa [created] using ht.symm
    rw [ht', length_rtagText (creationItem_typed conf)]
  have hnext := inFirstFile_append hsound hmax rfl rfl rfl hlog (show 0+1 < 2^32 by decide)
    (by rw [hlen]; exact hfit) hr hrec (s₂.q.unreadCount+1) (nextSyncIntv conf s₂.q.syncIntv)
  rw [hlen] at hnext
  exact hnext

/-- A queue with two files, the first with a stored count of one and the second
with one message, with the position of its write cursor and a bound on its log. -/
structure InTwoFiles (conf : UcmqConf) (st : Store) (wpos len : ℕ) : Prop where
  sound : ∃ pend, Sound conf True st [] pend ∧ Logged conf st []
  rindex : st.q.curRdb.curIndex = 1
  windex : st.q.curWdb.curIndex = 2
  wpos : st.q.curWdb.pos = wpos
  first : ∃ d, st.dir.db 1 = some ⟨maxDbFileSize conf, withHead d 1⟩
  second : ∃ m : Msg conf, st.dir.db 2 =
    some ⟨maxDbFileSize conf, writeAt (freshData conf) 128 (msgBytes m.item)⟩
  log : ∀ t, st.dir.rtag 1 = some t → t.length ≤ len

/-- A message that does not fit moves the writer to a second file. -/
theorem inTwoFiles_rotate {s₁ s₂ : Store} (hf : InFirstFile conf st wpos 1 len)
    (hrot : maxDbFileSize conf < wpos+(m.body.length+12))
    (hres : WriteResult conf sys st m (.ok (true, s₁))) (hrec : Recorded s₁ s₂) (unread : ℕ)
    (intv : ℤ) :
    InTwoFiles conf { s₂ with q := { s₂.q with unreadCount := unread, syncIntv := intv } }
      (128+(m.body.length+12)) (len+122) := by
  obtain ⟨pend, hs, -⟩ := hf.sound
  have hiff := needsRotation_iff hs.files rfl m
  rw [hf.wpos] at hiff
  obtain ⟨hs₁, -⟩ := sound_of_stored hs hres
  obtain ⟨hs₂, hl₂⟩ := hs₁.recorded hrec
  cases hres with
  | appended _ _ hfit => exact absurd (hiff.mpr hrot) hfit
  | @rotated d s₀ hw hd hneed hlow hrec₀ =>
    obtain ⟨hs₀, -, -⟩ := sound_rotated hs hw hd hrec₀
    have hnext : (rtagItem (nextWriter conf (rotating conf st d)).q).Typed := by
      rw [← hrec₀.q]
      exact hs₀.typed
    have hri : (nextWriter conf (rotating conf st d)).q.curRdb.curIndex = 1 := by
      show (rotating conf st d).q.curRdb.curIndex = 1
      rw [rotating_rindex, hf.rindex]
    have hri₀ : s₀.q.curRdb.curIndex = 1 := by rw [hrec₀.q, hri]
    have hwi : (rotating conf st d).q.curWdb.curIndex = 1 := by rw [rotating_index, hf.windex]
    have hwi₀ : s₀.q.curWdb.curIndex = 2 := by
      rw [hrec₀.q]
      show (rotating conf st d).q.curWdb.curIndex+1 = 2
      rw [hwi]
    have hdb₀ : s₀.dir.db = Function.update (Function.update st.dir.db 1
        (some ⟨maxDbFileSize conf, withHead d 1⟩)) 2
          (some ⟨maxDbFileSize conf, freshData conf⟩) := by
      rw [hrec₀.db]
      show Function.update (rotating conf st d).dir.db
        ((rotating conf st d).q.curWdb.curIndex+1) _ = _
      rw [hwi, rotating_dir, hf.windex, hf.count]
      rfl
    have hdb : s₂.dir.db = Function.update s₀.dir.db 2
        (some ⟨maxDbFileSize conf, writeAt (freshData conf) 128 (msgBytes m.item)⟩) := by
      rw [hrec.db]
      show Function.update s₀.dir.db s₀.q.curWdb.curIndex _ = _
      rw [hwi₀, (fresh_of_recorded hrec₀).1]
    refine ⟨⟨_, hs₂.setCounters _ _ _ _, hl₂⟩, ?_, ?_, ?_, ⟨d, ?_⟩, ⟨m, ?_⟩, ?_⟩
    · simp only [hrec.q]
      exact hri₀
    · simp only [hrec.q]
      exact hwi₀
    · simp only [hrec.q]
      show s₀.q.curWdb.pos+(m.body.length+12) = _
      rw [(fresh_of_recorded hrec₀).1]
    · simp only [hdb, hdb₀]
      rfl
    · simp only [hdb, Function.update_self]
    · intro t' ht'
      have hidx : s₂.q.curRdb.curIndex = 1 := by
        rw [hrec.q]
        exact hri₀
      obtain ⟨t, ht, hlen⟩ := hrec.length_log hs₁.typed (by rw [hidx]; exact ht')
      obtain ⟨t₀, ht₀, hlen₀⟩ := hrec₀.length_log hnext ht
      have hdir : (nextWriter conf (rotating conf st d)).dir.rtag = st.dir.rtag := by
        show (rotating conf st d).dir.rtag = _
        rw [rotating_dir]
        rfl
      rw [hri, hdir] at ht₀
      have hold := hf.log t₀ ht₀
      omega

variable {s : Server} {finished pend : List (Msg conf)} {body big : List UInt8}
  {tr : History} {d : Region}

/-- The messages of a queue that serves two bodies. -/
theorem two_messages (h : Serves conf st [big, body]) : ∃ finished, ∃ m₁ m₂ : Msg conf,
    Sound conf True st finished [m₁, m₂] ∧ m₁.body = big ∧ m₂.body = body := by
  obtain ⟨finished, pend, hs, hb, -⟩ := h.sound
  obtain ⟨m₁, m₂, rfl⟩ : ∃ m₁ m₂, pend = [m₁, m₂] := List.length_eq_two.mp (by
    have hl := congrArg List.length hb
    simpa using hl.symm)
  obtain ⟨hfirst, hrest⟩ := List.cons.inj hb
  exact ⟨finished, m₁, m₂, hs, hfirst.symm, (List.cons.inj hrest).1.symm⟩

/-- The first of two files holds just a message that fills it, and the second one
the message after it. -/
theorem frame_of_full {m₁ m₂ : Msg conf} (h : Sound conf True st finished [m₁, m₂])
    (hlt : st.q.curRdb.curIndex+1 = st.q.curWdb.curIndex)
    (hfull : m₁.body.length+140 = maxDbFileSize conf)
    (hd : dbSeg conf st.dir.db st.q.curRdb.curIndex = some d) :
    st.q.curRdb.pos = 128 ∧ Holds d 128 (msgBytes m₁.item) ∧ 140 < st.q.curWdb.pos := by
  have hge := h.files.rpos_ge
  have hwle := h.files.wpos_le
  have hlen₁ := length_msgBytes m₁
  have hlen₂ := length_msgBytes m₂
  have hchain := h.files.chain
  generalize hpend : [m₁, m₂] = pend at hchain
  generalize st.q.curRdb.curIndex = r at hlt hd hchain
  generalize st.q.curWdb.curIndex = w at hlt hchain
  have hfits : ∀ {as : List (Msg conf)} {e : Region} {p q : ℕ}, 128 ≤ p → q ≤ maxDbFileSize conf →
      (msgFraming conf).Scans e p (m₁ :: m₂ :: as) q → False := by
    rintro as e p q hp hq ⟨u, hu, -, -, v, hv, -, -, hrest⟩
    have hle := hrest.le
    simp only [msgFraming_enc] at hv hle
    omega
  cases hchain with
  | last hs hr => omega
  | @step _ _ d' as bs hi hs hr next =>
    obtain rfl : d' = d := Option.some.inj (hs.symm.trans hd)
    rcases as with _ | ⟨a, _ | ⟨b, as⟩⟩
    · obtain rfl : bs = [m₁, m₂] := by simpa using hpend.symm
      rw [hlt] at next
      obtain ⟨e, he⟩ := next.segment
      exact (hfits le_rfl hwle (next.scans_last he)).elim
    · obtain ⟨rfl, rfl⟩ := List.cons.inj hpend
      have hsecond : 140 < st.q.curWdb.pos := by
        by_contra hle
        rw [hlt] at next
        have hnil := next.nil_of_short (show st.q.curWdb.pos ≤ 128+12 by omega)
        cases hnil
      obtain ⟨u, hu, -, hh, hrest⟩ := hr
      have hle := hrest.le
      simp only [msgFraming_enc] at hle
      obtain rfl : u = 128 := by omega
      exact ⟨by omega, hh, hsecond⟩
    · simp only [List.cons_append, List.cons.injEq] at hpend
      obtain ⟨rfl, rfl, -⟩ := hpend
      exact (hfits hge le_rfl hr).elim

/-- A get of a message that fills the first file leaves the reader at the end of
that file, with one more record in its log. -/
theorem pop_at_full {m₁ m₂ : Msg conf} (h : Sound conf True st finished [m₁, m₂])
    (hunread : 0 < st.q.unreadCount) (hyoung : st.q.delay = 0)
    (hlt : st.q.curRdb.curIndex+1 = st.q.curWdb.curIndex)
    (hfull : m₁.body.length+140 = maxDbFileSize conf) (hok : sys.Ok) :
    ∃ st', mqQmPopItem conf sys st = .ok (.getOk m₁.item, st') ∧ AtReadSwitch conf st' ∧
      Sound conf True (takeMsg st m₁.body.length) (finished ++ [m₁]) [m₂] ∧
      Recorded (takeMsg st m₁.body.length) st' := by
  have hmax := maxDbFileSize_le conf
  obtain ⟨d, hd, hview⟩ :=
    (view_of_readable (readable_of_sound h)).resolve_right (fun hno => by omega)
  obtain ⟨hpos, hframe, -⟩ := frame_of_full h hlt hfull hd
  have hparse : mqSmDbParseMsg conf (some d) st.q.curRdb.pos = .ok m₁.item := by
    rw [hpos]
    exact parseMsg_of_holds hframe (by omega)
  have hstep :
      getDataStep conf sys st = .ok (.done (some m₁.item) (takeMsg st m₁.body.length)) := by
    rw [getDataStep, if_neg (by omega), hview]
    simp only [hparse]
    rw [if_neg (fun hno => hno.1 hyoung)]
    rfl
  have hget : mqSmGetData conf sys st = .ok (some m₁.item, takeMsg st m₁.body.length) := by
    rw [mqSmGetData, getDataLoop, hstep]
  have hpop : mqQmPopItem conf sys st =
      .ok (.getOk m₁.item, (mqSmRtagWriteItem sys .item (takeMsg st m₁.body.length)).2) := by
    rw [mqQmPopItem, if_neg (by omega), hget]
    rfl
  have hrest : Unread conf st.dir.db st.q.curWdb.curIndex st.q.curWdb.pos st.q.curRdb.curIndex
      (st.q.curRdb.pos+(m₁.body.length+12)) [m₂] := by
    rcases parse_cases_of_files h.files
      (by omega) hd with ⟨m, rest, heq, -, -, hc⟩ | ⟨hp, -⟩ | ⟨hp, -⟩
    · obtain ⟨rfl, rfl⟩ := List.cons.inj heq
      exact hc
    · rw [hparse] at hp
      cases hp
    · rw [hparse] at hp
      cases hp
  have htaken := sound_takeMsg h hd (by rw [hpos]; exact hframe) hrest
  have hrec := rtagWriteItem_recorded hok .item htaken.log htaken.typed
  generalize (mqSmRtagWriteItem sys .item (takeMsg st m₁.body.length)).2 = st' at hpop hrec
  refine ⟨st', hpop, ⟨?_, some d, ?_, .inl ?_⟩, htaken, hrec⟩
  · rw [hrec.q]
    show st.q.curRdb.curIndex < st.q.curWdb.curIndex
    omega
  · have hsame : st'.mapView conf st'.q.curRdb.mapMem = st.mapView conf st.q.curRdb.mapMem := by
      rw [hrec.q]
      simp only [Store.mapView, hrec.maps, hrec.db]
      rfl
    rw [hsame]
    exact hview
  · have hu : st'.q.curRdb.pos = maxDbFileSize conf := by
      rw [hrec.q]
      show u32 (st.q.curRdb.pos+(m₁.body.length+12)) = _
      rw [hpos, u32_of_lt (by omega)]
      omega
    rw [hu]
    exact parseMsg_of_end (by omega) le_rfl

/-- The put of a body under the name of these runs. -/
abbrev putEvent (sys : Sys) (body : List UInt8) : Event := .request sys (Request.of "put" "q" body)

/-- The get under the name of these runs. -/
abbrev getEvent (sys : Sys) : Event := .request sys (Request.of "get" "q" [])

/-- A condition on events that the requests of these runs meet. -/
structure Admits (conf : UcmqConf) (sys : Sys) (big body : List UInt8)
    (G : Event → String → Slot → Prop) : Prop where
  first : ∀ n, G (putEvent sys big) n (.absent none)
  elsewhere : ∀ n, G (putEvent sys body) n (.absent none)
  second : ∀ st, InFirstFile conf st (maxDbFileSize conf) 1 122 → Serves conf st [big] →
    G (putEvent sys body) "q" (.listed st)
  get : ∀ n slot, G (getEvent sys) n slot

/-- A condition on events that these runs meet with a restart at their end. -/
structure AdmitsRestart (conf : UcmqConf) (sys : Sys) (big body : List UInt8)
    (G : Event → String → Slot → Prop) : Prop extends Admits conf sys big body G where
  restart : ∀ names listing n, G (.restart (fun _ => sys) names listing) n (.absent none)
  reload : ∀ names listing st, Reloadable (.listed st) → ¬OnlyCreationRecord conf (.listed st) →
    st.q.curWdb.curIndex = 2 → (∃ finished pend, Sound conf True st finished pend) →
    G (.restart (fun _ => sys) names listing) "q" (.listed st)

variable {G : Event → String → Slot → Prop}

/-- No put of these runs is refused storage. -/
theorem storageKept_of_free (hfree : storageLow conf sys = false) (req : Request) (n : String)
    (slot : Slot) : StorageKept conf (.request sys req) n slot := by
  cases slot with
  | absent dir => trivial
  | listed st =>
    intro _ size msg _ _ _ href
    rw [href.low] at hfree
    cases hfree

/-- Runs that meet a condition meet it for one name. -/
theorem Admits.forName (h : Admits conf sys big body G) (hfree : storageLow conf sys = false)
    (n : String) : Admits conf sys big body (ForName conf n G) :=
  ⟨fun m => ⟨storageKept_of_free hfree _ _ _, fun _ => h.first m⟩,
    fun m => ⟨storageKept_of_free hfree _ _ _, fun _ => h.elsewhere m⟩,
    fun st hf hs => ⟨storageKept_of_free hfree _ _ _, fun _ => h.second st hf hs⟩,
    fun m slot => ⟨storageKept_of_free hfree _ _ _, fun _ => h.get m slot⟩⟩

/-- So they do with a restart. -/
theorem AdmitsRestart.forName (h : AdmitsRestart conf sys big body G)
    (hfree : storageLow conf sys = false) (n : String) :
    AdmitsRestart conf sys big body (ForName conf n G) :=
  ⟨h.toAdmits.forName hfree n, fun names listing m => ⟨trivial, fun _ => h.restart names listing m⟩,
    fun names listing st hre hlog hw hs =>
      ⟨trivial, fun _ => h.reload names listing st hre hlog hw hs⟩⟩

/-- Runs that meet two conditions meet what follows from both. -/
theorem AdmitsRestart.and {G' K : Event → String → Slot → Prop}
    (h : AdmitsRestart conf sys big body G) (h' : AdmitsRestart conf sys big body G')
    (hK : ∀ ev n slot, G ev n slot → G' ev n slot → K ev n slot) :
    AdmitsRestart conf sys big body K :=
  ⟨⟨fun n => hK _ _ _ (h.first n) (h'.first n), fun n => hK _ _ _ (h.elsewhere n) (h'.elsewhere n),
      fun st hf hs => hK _ _ _ (h.second st hf hs) (h'.second st hf hs),
      fun n slot => hK _ _ _ (h.get n slot) (h'.get n slot)⟩,
    fun ns ls n => hK _ _ _ (h.restart ns ls n) (h'.restart ns ls n),
    fun ns ls st hre hlog hw hs =>
      hK _ _ _ (h.reload ns ls st hre hlog hw hs) (h'.reload ns ls st hre hlog hw hs)⟩

variable (hok : sys.Ok) (hfree : storageLow conf sys = false) (hroom : 0 < conf.maxQlistItmes)
variable (hmax : conf.defMaxQueue = 0) (hdelay : conf.defDelay = 0)
variable (hbig : big.length+140 = maxDbFileSize conf)

include hok hfree hroom hmax hdelay hbig

/-- A run that fills the first file with one body. -/
theorem run_full (hfirst : ∀ n, G (putEvent sys big) n (.absent none)) : ∃ rs s st,
    Run (serve "") (Guarded ["put", "get"] G) (Server.start conf) [(putEvent sys big, rs)] s ∧
      fifoOut (Request.of "put" "q" big) rs = .stored ∧ OnlyQueue conf s "q" st ∧
      InFirstFile conf st (maxDbFileSize conf) 1 122 ∧ Serves conf st [big] := by
  have hlt := maxDbFileSize_le conf
  have hmin := le_maxDbFileSize conf
  obtain ⟨rs, s, st, hres, hout, honly, hf⟩ :=
    @put_created conf sys big hok hfree hroom hmax (by omega)
    (by omega)
  obtain ⟨size, hmsg, hsize⟩ :=
    @putMsg_of_fit conf (Request.of "put" "q" big) (show 0 < big.length by omega)
    (show big.length ≤ maxDbFileSize conf-128-12 by omega) (Or.inl rfl)
  have hlen : putLenOk conf (toU32 size) := by
    rw [hsize]
    exact ⟨show 0 < big.length by omega, show big.length ≤ maxDbFileSize conf-128-12 by omega⟩
  obtain ⟨rs', s', hres', -, -, st', hslot, hserves⟩ := @servesName_first "q" "" sys
    (Request.of "put" "q" big) (Server.start conf) none size _ ⟨rfl, rfl⟩ hok hfree hroom
      hdelay rfl rfl rfl
    (by decide) hmsg hlen
  obtain ⟨-, rfl⟩ := Prod.mk.inj (Except.ok.inj (hres'.symm.trans hres))
  obtain rfl := Slot.listed.inj (hasSlot_unique honly.slot hslot)
  have hstored : storedBody (putBody (Request.of "put" "q" big)) = big :=
    storedBody_of_lt (show big.length < 2^32 by omega)
  rw [hstored] at hserves
  have hwpos : 128+(big.length+12) = maxDbFileSize conf := by omega
  rw [hwpos] at hf
  have hnil :
      Run (serve "") (Guarded ["put", "get"] G) (Server.start conf) [] (Server.start conf) := .nil
  have hrun := run_request hnil hok ⟨"put", by decide, rfl⟩ (fun n slot hslot => by
    obtain rfl := hasSlot_start hslot
    exact hfirst n) hres
  exact ⟨_, s', st, hrun, hout, honly, hf, hserves⟩

variable (hpos : 0 < body.length) (hle : body.length ≤ maxDbFileSize conf-128-12)

include hpos hle

/-- A second body goes to a new file, and the reader stays in the first one. -/
theorem run_two_files (hG : Admits conf sys big body G) : ∃ rs₁ rs₂ s st,
    Run (serve "") (Guarded ["put", "get"] G) (Server.start conf)
        [(putEvent sys big, rs₁), (putEvent sys body, rs₂)] s ∧
      fifoOut (Request.of "put" "q" big) rs₁ = .stored ∧
      fifoOut (Request.of "put" "q" body) rs₂ = .stored ∧ OnlyQueue conf s "q" st ∧
      InTwoFiles conf st (128+(body.length+12)) 244 ∧ Serves conf st [big, body] := by
  have hlt := maxDbFileSize_le conf
  have hmin := le_maxDbFileSize conf
  obtain ⟨rs₁, s, st, hrun, hout₁, honly, hf, hserves⟩ :=
    run_full hok hfree hroom hmax hdelay hbig hG.first
  obtain ⟨m, rs, s', s₁, s₂, hres, hout, hlen, hr, hrec, honly'⟩ :=
    put_onlyQueue honly hf hok hfree hpos hle
  have hreq : QueueRequest conf "q" (sys, Request.of "put" "q" body) :=
    ⟨hok, hfree, rfl, rfl, .inr ⟨rfl, hpos, hle, .inl rfl⟩⟩
  obtain ⟨rs', s'', hres', -, -, st', hslot, hserves'⟩ := @servesName_put conf [big] "q" s _ ""
    (by decide) ⟨honly.conf_eq, st, honly.slot, hserves⟩ hreq rfl
  obtain ⟨-, rfl⟩ := Prod.mk.inj (Except.ok.inj (hres'.symm.trans hres))
  obtain rfl := Slot.listed.inj (hasSlot_unique honly'.slot hslot)
  have hstep : (fifoStep conf.defMaxQueue (fifoOp (Request.of "put" "q" body)) [big]).2 =
      [big, body] := by
    have hop : fifoOp (Request.of "put" "q" body) = .put body := rfl
    rw [hop, fifoStep, hmax, if_neg (fun hno => hno.1 rfl)]
    rfl
  rw [hstep] at hserves'
  have htwo :=
    inTwoFiles_rotate hf (by omega) hr hrec (s₂.q.unreadCount+1) (nextSyncIntv conf s₂.q.syncIntv)
  rw [hlen] at htwo
  have hrun' := run_request hrun hok ⟨"put", by decide, rfl⟩ (fun n slot hslot => by
    by_cases hn : n = "q"
    · subst hn
      obtain rfl := hasSlot_unique honly.slot hslot
      exact hG.second st hf hserves
    · obtain rfl := hasSlot_unique (honly.others n hn) hslot
      exact hG.elsewhere n) hres
  exact ⟨rs₁, rs, s'', _, hrun', hout₁, hout, honly', htwo, hserves'⟩

omit hok hfree hroom hmax hdelay hbig hpos hle in
/-- A queue with a short log and a second file can be reloaded. -/
theorem reloadable_of_short (hlog : ∀ t, st.dir.rtag st.q.curRdb.curIndex = some t → t.length ≤ 305)
    (hw : st.q.curWdb.curIndex = 2) : Reloadable (.listed st) :=
  ⟨fun t ht => (hlog t ht).trans_lt (by decide), by rw [hw]; decide⟩

/-- A get of the first body leaves the reader at the end of the first file. -/
theorem run_at_switch (hG : Admits conf sys big body G) : ∃ rs₁ rs₂ rs₃ s st,
    Run (serve "") (Guarded ["put", "get"] G) (Server.start conf)
        [(putEvent sys big, rs₁), (putEvent sys body, rs₂), (getEvent sys, rs₃)] s ∧
      fifoOut (Request.of "put" "q" big) rs₁ = .stored ∧
      fifoOut (Request.of "put" "q" body) rs₂ = .stored ∧
      fifoOut (Request.of "get" "q" []) rs₃ = .got big ∧ OnlyQueue conf s "q" st ∧
      AtReadSwitch conf st ∧ (∀ t, st.dir.rtag st.q.curRdb.curIndex = some t → t.length ≤ 305) ∧
      st.q.curRdb.curIndex = 1 ∧ st.q.curWdb.curIndex = 2 ∧
      ∃ finished pend, Sound conf True st finished pend ∧ Logged conf st finished := by
  obtain ⟨rs₁, rs₂, s, st, hrun, hout₁, hout₂, honly, htwo, hserves⟩ :=
    run_two_files hok hfree hroom hmax hdelay hbig hpos hle hG
  obtain ⟨finished, m₁, m₂, hs, hbody, -⟩ := two_messages hserves
  have hindex : st.q.curRdb.curIndex+1 = st.q.curWdb.curIndex := by rw [htwo.rindex, htwo.windex]
  have hunread : 0 < st.q.unreadCount := by
    rw [hserves.unread]
    exact Nat.two_pos
  obtain ⟨st', hpop, hat, htaken, hrec⟩ := pop_at_full hs hunread hserves.delay hindex
    (by rw [hbody]; exact hbig) hok
  have hpop' : mqQmPopItem s.conf sys st = .ok (.getOk m₁.item, st') := by
    rw [honly.conf_eq]
    exact hpop
  obtain ⟨s', hreply, hsame, hslot⟩ := replyGet_eq none honly.slot hpop'
  have hentry :=
    @entry_get "q" "" sys (Request.of "get" "q" []) s st rfl rfl rfl (by decide) honly.slot
  have hres := hentry.trans hreply
  have hgot : fifoOut (Request.of "get" "q" []) [replyOfGet none st' (.getOk m₁.item)] =
      .got big := by
    simpa [fifoOut, Request.of] using hbody
  have hrun' := run_request hrun hok ⟨"get", by decide, rfl⟩ (fun n slot _ => hG.get n slot) hres
  obtain ⟨hs', hl'⟩ := htaken.recorded hrec
  refine ⟨rs₁, rs₂, _, s', st', hrun', hout₁, hout₂, hgot, honly.of_same hsame hslot, hat,
    fun t ht => ?_, ?_, ?_, _, _, hs', hl'⟩
  · obtain ⟨t₀, ht₀, hlen⟩ := hrec.length_log htaken.typed ht
    have hidx : (takeMsg st m₁.body.length).q.curRdb.curIndex = 1 := htwo.rindex
    rw [hidx] at ht₀
    have hold := htwo.log t₀ ht₀
    omega
  · rw [hrec.q]
    exact htwo.rindex
  · rw [hrec.q]
    exact htwo.windex

omit hok hfree hroom hmax hdelay hbig hpos hle in
/-- Bodies accepted by two puts and a get. -/
theorem accepted_at_switch {rs₁ rs₂ rs₃ : List Reply}
    (h₁ : fifoOut (Request.of "put" "q" big) rs₁ = .stored)
    (h₂ : fifoOut (Request.of "put" "q" body) rs₂ = .stored) :
    accepted "q" [(putEvent sys big, rs₁), (putEvent sys body, rs₂), (getEvent sys, rs₃)] =
      [big, body] := by
  simp only [accepted, List.flatMap_cons, List.flatMap_nil]
  rw [acceptedIn_of_stored rfl rfl h₁, acceptedIn_of_stored rfl rfl h₂, acceptedIn_get rfl]
  rfl

omit hok hfree hroom hmax hdelay hbig hpos hle in
/-- Bodies returned by two puts and a get. -/
theorem returned_at_switch {b : List UInt8} {rs₁ rs₂ rs₃ : List Reply}
    (h : fifoOut (Request.of "get" "q" []) rs₃ = .got b) :
    returned "q" [(putEvent sys big, rs₁), (putEvent sys body, rs₂),
      (getEvent sys, rs₃)] = [b] := by
  simp only [returned, List.flatMap_cons, List.flatMap_nil]
  rw [returnedIn_put rfl, returnedIn_put rfl, returnedIn_of_got rfl rfl h]
  rfl

/-- A clean restart at that point loads the queue again. -/
theorem run_restarted (hG : AdmitsRestart conf sys big body G) : ∃ tr s st,
    Run (serve "") (Guarded ["put", "get"] G) (Server.start conf) tr s ∧ OnlyQueue conf s "q" st ∧
      accepted "q" tr = [big, body] ∧ returned "q" tr = [big] := by
  obtain ⟨rs₁, rs₂, rs₃, s, st, hrun, hout₁, hout₂, hgot, honly, -, hlog, hr, hw, finished,
      pend, hs, hl⟩ :=
    run_at_switch hok hfree hroom hmax hdelay hbig hpos hle hG.toAdmits
  have hre := reloadable_of_short hlog hw
  have hlist := isListing_of_sound hs
  obtain ⟨rpos, -, hload⟩ := reloaded_of_logged hs hl hok hre hlist
  obtain ⟨hadm, honly'⟩ := honly.restart ["put", "get"] hok hlist hload
  have hrun' := hrun.snoc ⟨hadm, fun n slot hslot => by
    by_cases hn : n = "q"
    · subst hn
      obtain rfl := hasSlot_unique honly.slot hslot
      exact hG.reload _ _ st hre (not_onlyCreationRecord hs hl) hw ⟨finished, pend, hs⟩
    · obtain rfl := hasSlot_unique (honly.others n hn) hslot
      exact hG.restart _ _ n⟩ rfl
  refine ⟨_, _, _, hrun', honly', ?_, ?_⟩
  · rw [accepted_snoc, accepted_at_switch hout₁ hout₂]
    rfl
  · rw [returned_snoc, returned_at_switch hgot]
    rfl

omit hok hfree hroom hmax hdelay hbig hpos hle

/-- A body that fills a data file of the least size. -/
theorem exists_big : ∃ big : List UInt8, big.length+140 = maxDbFileSize .least :=
  ⟨List.replicate 1048436 3, by rw [List.length_replicate]; rfl⟩

/-- A run on the least files with a rotation, a get and a restart. -/
theorem run_least (hbig : big.length+140 = maxDbFileSize .least)
    (hG : AdmitsRestart .least (Sys.quiet 0 0) big [1] G) : ∃ tr s st,
    Run (serve "") (Guarded ["put", "get"] G) (Server.start .least) tr s ∧
      OnlyQueue .least s "q" st ∧ accepted "q" tr = [big, [1]] ∧ returned "q" tr = [big] :=
  run_restarted (Sys.quiet_ok 0 0) rfl (by decide) rfl rfl hbig (by decide) (by decide) hG

end Ucmq.RotationRuns
