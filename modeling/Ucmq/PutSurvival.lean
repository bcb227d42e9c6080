import Ucmq.PutCrash

/-!
# What survives a put that is cut off

The crash points of a put, for a message that fits, for one that finds no
storage and for one that moves the writer. All of them but one leave a directory
that is loaded with the messages accepted before, perhaps followed by the one
that was being put. The exception is the moment between the creation of the next
file and its extension, at which the whole queue is lost.
-/

namespace Ucmq.PutSurvival

open ByteRegion FramedLog LabelledRun StoreConfig StoreMsg StoreState StoreRtag StoreFile
open StoreManage QueueManage StoreInvariant ReadPath WritePath HandleFile Recovery Evhttp QueueStep
open QueueSlots RequestEffect ServerRun CleanRestart FifoRefinement UnreadCount CursorInvariant
open PendingBodies ReadSwitchCrash RotationRuns PutCrash

variable {conf : UcmqConf} {sys sys' : Sys} {clean : Prop} {st st' : Store}
  {finished pend : List (Msg conf)}
variable {m : Msg conf} {d : Region} {listing : List Fname} {k : ℕ}

/-- A directory that a put left behind is loaded with these bodies, or with these
and the one that was being put. -/
def PutSurvives (conf : UcmqConf) (sys : Sys) (listing : List Fname) (dir : Dir)
    (bodies : List (List UInt8)) (body : List UInt8) : Prop :=
  Survives conf sys listing dir bodies ∨ Survives conf sys listing dir (bodies ++ [body])

/-- The position log and the index of the write file have room for a put. -/
def RoomToPut (st : Store) : Prop :=
  (∀ t, st.dir.rtag st.q.curRdb.curIndex = some t → t.length+122 < 2^31) ∧
  st.q.curWdb.curIndex+1 < 10^12

/-- The position log can grow by this many bytes, and the write file has an index
of twelve digits. -/
def LogRoom (s : Store) (n : ℕ) : Prop :=
  (∀ t, s.dir.rtag s.q.curRdb.curIndex = some t → t.length+n < 2^31) ∧ s.q.curWdb.curIndex < 10^12

/-- Room for more is room for less. -/
theorem LogRoom.mono {n n' : ℕ} (h : LogRoom st n) (hle : n' ≤ n) : LogRoom st n' :=
  ⟨fun t ht => by have := h.1 t ht; omega, h.2⟩

/-- A queue whose log has room can be reloaded. -/
theorem LogRoom.reloadable {n : ℕ} (h : LogRoom st n) : Reloadable (.listed st) :=
  h.mono (Nat.zero_le n)

/-- A record takes its length from the room. -/
theorem LogRoom.recorded {n : ℕ} (h : LogRoom st (n+61)) (hi : (rtagItem st.q).Typed)
    (hrec : Recorded st st') :
    LogRoom st' n := by
  refine ⟨fun t ht => ?_, by rw [hrec.q]; exact h.2⟩
  obtain ⟨t₀, ht₀, hlen⟩ := hrec.length_log hi ht
  have hroom := h.1 t₀ ht₀
  omega

/-- A put has room for two records. -/
theorem RoomToPut.logRoom (h : RoomToPut st) : LogRoom st 122 := ⟨h.1, by have := h.2; omega⟩

/-- So it has when it leaves the write file. -/
theorem logRoom_rotating (h : RoomToPut st) (d : Region) : LogRoom (rotating conf st d) 122 := by
  have hrtag : (rotating conf st d).dir.rtag = st.dir.rtag := by
    rw [rotating_dir]
    rfl
  refine ⟨fun t ht => h.1 t ?_, by rw [rotating_index]; exact h.logRoom.2⟩
  rwa [hrtag, rotating_rindex] at ht

/-- The next write file leaves the position log as it is. -/
theorem logRoom_nextWriter (h : RoomToPut st) (d : Region) :
    LogRoom (nextWriter conf (rotating conf st d)) 122 := by
  refine ⟨(logRoom_rotating h d).1, ?_⟩
  show (rotating conf st d).q.curWdb.curIndex+1 < 10^12
  rw [rotating_index]
  exact h.2

/-- A queue just created holds no messages. -/
theorem pend_of_created (h : Sound conf clean (created conf) finished pend) : pend = [] :=
  h.files.chain.nil_of_short (show 128 ≤ 128+(msgFraming conf).headLen from Nat.le_add_right _ _)

/-- Before its first effect a put changed nothing. -/
theorem survives_before (h : Sound conf True st finished pend)
    (hl : Logged conf st finished ∨ st = created conf) (hh : HeadsOk conf st) (hok : sys.Ok)
    (hre : Reloadable (.listed st)) (hlist : IsListing st.dir listing) :
    Survives conf sys listing st.dir (pend.map Msg.body) := by
  rcases hl with hl | rfl
  · exact survives_untouched h hl hh hok hre hlist
  · obtain rfl := pend_of_created h
    have hsame : (created conf).dir.setDb 1 (some ⟨maxDbFileSize conf, blankData conf⟩) =
        (created conf).dir := by
      simp [created, Dir.setDb]
    have hsurv :=
      @survives_created conf sys (blankData conf) listing hok (dbFileHeadCount_blankData conf)
    rw [hsame] at hsurv
    exact hsurv hlist

/-- The message was copied and its position is not recorded yet. -/
theorem survives_copied (h : Sound conf True st finished pend)
    (hl : Logged conf st finished ∨ st = created conf) (hh : HeadsOk conf st) (hok : sys.Ok)
    (hre : Reloadable (.listed st)) (hd : dbSeg conf st.dir.db st.q.curWdb.curIndex = some d)
    (hz : dbFileHeadCount d = 0) (hlist : IsListing (appendMsg conf st d m).dir listing) :
    Survives conf sys listing (appendMsg conf st d m).dir (pend.map Msg.body) := by
  have hge := h.files.wpos_ge
  have hzero : dbFileHeadCount (writeAt d st.q.curWdb.pos (msgBytes m.item)) = 0 :=
    (dbFileHeadCount_append hge _).trans hz
  rcases hl with hl | rfl
  · obtain ⟨rpos, hrest⟩ := restorable_of_logged h hl hre.1 hre.2
    have hsame : ∀ k, k < st.q.curWdb.pos → d k = writeAt d st.q.curWdb.pos (msgBytes m.item) k :=
      fun k hk => (writeAt_outside d (Or.inl hk)).symm
    exact survives_of_restorable (restorable_overwrite hrest hd hsame)
      (honestHeads_setLast hh (.inl hzero))
      hok hlist
  · obtain rfl := pend_of_created h
    exact survives_created hok hzero hlist

/-- A record of a sound queue makes its messages survive. -/
theorem survives_recorded {s s₁ : Store} (h : Sound conf True s finished pend)
    (hrec : Recorded s s₁) (hh : HeadsOk conf s) (hok : sys.Ok) (hroom : LogRoom s 61)
    (hlist : IsListing s₁.dir listing) :
    Survives conf sys listing s₁.dir (pend.map Msg.body) := by
  obtain ⟨hs₁, hl₁⟩ := h.recorded hrec
  have hheads : HeadsOk conf s₁ := by
    rw [HeadsOk, hrec.q, hrec.db]
    exact hh
  exact survives_untouched hs₁ hl₁ hheads hok (hroom.recorded h.typed hrec).reloadable hlist

/-- Beside a new file that is not extended yet nothing is loaded. -/
theorem not_putSurvives_unextended {s : Store} {bodies : List (List UInt8)} {body : List UInt8}
    (h : Sound conf clean s finished pend) (hw : s.q.curWdb.curIndex+1 < 10^12)
    (hlist : IsListing (s.dir.setDb (s.q.curWdb.curIndex+1) (some DbFile.blank)) listing) :
    ¬PutSurvives conf sys listing (s.dir.setDb (s.q.curWdb.curIndex+1) (some DbFile.blank))
      bodies body := by
  have hle := h.files.index_le
  have hdbs : HasDbs (s.dir.setDb (s.q.curWdb.curIndex+1) (some DbFile.blank)) s.q.curRdb.curIndex
      (s.q.curWdb.curIndex+1) := hasDbs_next (hasDbs_of_files rfl h.files) hle _
  obtain ⟨fd, append, off, t, -, -, -, ht, -⟩ := h.log
  have hrt : HasRtag s.dir s.q.curRdb.curIndex := hasRtag_of_log h.rtags ht
  have hfind := @findHandleFile_of_layout sys _ _ _ _ hlist hdbs hrt (by omega) hw
  have hsize : DbFile.blank.size ≠ maxDbFileSize conf := by
    have hmin := le_maxDbFileSize conf
    have hzero : DbFile.blank.size = 0 := rfl
    omega
  have hno :
    ∀ bodies, ¬Survives conf sys listing (s.dir.setDb (s.q.curWdb.curIndex+1) (some DbFile.blank))
      bodies := fun _ => not_survives_of_short hfind rfl (by simp) hsize
  exact fun hsurv => hsurv.elim (hno _) (hno _)

/-- The states of a put that moves the writer, after each of its two records. -/
theorem exists_rotated (h : Sound conf True st finished pend) (hw : WriterLive st)
    (hd : dbSeg conf st.dir.db st.q.curWdb.curIndex = some d) (m : Msg conf) :
    ∃ s₁ s₂, Recorded (nextWriter conf (rotating conf st d)) s₁ ∧
      Sound conf True (appendMsg conf s₁ (freshData conf) m) finished (pend ++ [m]) ∧
      Recorded (appendMsg conf s₁ (freshData conf) m) s₂ := by
  have hok := Sys.quiet_ok 0 0
  obtain ⟨hs, hlive, -⟩ := sound_rotating h hw hd
  obtain ⟨hn, -⟩ :=
    sound_nextWriter hs fun he => hlive (by rwa [rotating_rindex, rotating_index] at he)
  have hrec := rtagWriteItem_recorded hok .nextWrite hn.log hn.typed
  generalize (mqSmRtagWriteItem _ .nextWrite (nextWriter conf (rotating conf st d))).2 = s₁ at hrec
  obtain ⟨hs₁, -, -⟩ := sound_rotated h hw hd hrec
  obtain ⟨hpos, hseg⟩ := fresh_of_recorded hrec
  have hle := m.body_le
  have hmin := le_maxDbFileSize conf
  have happ := sound_appendMsg (m := m) hs₁ hseg (by omega)
  exact ⟨s₁, _, hrec, happ, rtagWriteItem_recorded hok .item happ.log happ.typed⟩

/-- A put that moves the writer, cut off anywhere. -/
theorem rotated_survives_iff (h : Sound conf True st finished pend) (hl : Logged conf st finished)
    (hh : HeadsOk conf st) (ho : putOpen sys st.q) (hw : WriterLive st)
    (hd : dbSeg conf st.dir.db st.q.curWdb.curIndex = some d)
    (hcounts : PutCountsOk conf st m.body.length) (hrot : needsRotation conf st.q m.body.length)
    (hlow : storageLow conf sys = false) (hroom : RoomToPut st)
    (hk : k ≤ (pushEffects conf sys m.item st).length) (hok' : sys'.Ok)
    (hlist : IsListing (crashAfter (pushEffects conf sys m.item st) k st.dir) listing) :
    PutSurvives conf sys' listing (crashAfter (pushEffects conf sys m.item st) k st.dir)
      (pend.map Msg.body) m.body ↔ k ≠ 2 := by
  have hc : CounterOk conf st.q d := by
    have hcount := hcounts d hd
    rwa [if_pos hrot] at hcount
  obtain ⟨hs, hlive, -⟩ := sound_rotating h hw hd
  have hlr := logged_rotating h hl hd
  have hheads := headsOk_rotating h hh hd hc
  have hidx := rotating_index conf st d
  have hre := (@logRoom_rotating conf _ hroom d).reloadable
  have hnext : ∀ {e : Region} {p : ℕ}, dbFileHeadCount e = 0 → HonestHeads conf (Function.update
      (rotating conf st d).dir.db (st.q.curWdb.curIndex+1) (some ⟨maxDbFileSize conf, e⟩))
      st.q.curRdb.curIndex (st.q.curWdb.curIndex+1) p := fun hz => honestHeads_next h hh hd hc hz _
  obtain ⟨hn, -⟩ := sound_nextWriter hs fun he => hlive (by rwa [rotating_rindex, hidx] at he)
  obtain ⟨s₁, s₂, hrec, happ, hrec'⟩ := exists_rotated h hw hd m
  have hres : WriteResult conf sys st m (.ok (true, appendMsg conf s₁ (freshData conf) m)) :=
    .rotated hw hd hrot hlow hrec
  have hstored := headsOk_of_stored h hh hcounts hres
  have hheadsn : HeadsOk conf (nextWriter conf (rotating conf st d)) := by
    have hfresh := @hnext (freshData conf) 128 (dbFileHeadCount_freshData conf)
    rw [← rotating_rindex conf st d, ← hidx] at hfresh
    exact hfresh
  have hheads₁ : HeadsOk conf s₁ := by
    rw [HeadsOk, hrec.q, hrec.db]
    exact hheadsn
  have hroomn := @logRoom_nextWriter conf _ hroom d
  have hroom₁ := hroomn.recorded hn.typed hrec
  obtain ⟨hs₁, hl₁, -⟩ := sound_rotated h hw hd hrec
  obtain ⟨hpos, hseg⟩ := fresh_of_recorded hrec
  obtain ⟨hlength, h1, h2, h345, h6, h7, h8⟩ := crashAfter_rotated h ho hw hd hrot hlow hrec hrec'
  rw [hlength] at hk
  have hcases : k = 0 ∨ k = 1 ∨ k = 2 ∨ (k = 3 ∨ k = 4 ∨ k = 5) ∨ k = 6 ∨ k = 7 ∨ k = 8 := by omega
  rcases hcases with rfl | rfl | rfl | hmid | rfl | rfl | rfl
  · exact iff_of_true (.inl (survives_untouched h hl hh hok' hroom.logRoom.reloadable hlist))
      (by decide)
  · rw [h1] at hlist ⊢
    exact iff_of_true (.inl (survives_untouched hs hlr hheads hok' hre hlist)) (by decide)
  · rw [h2] at hlist ⊢
    rw [← hidx] at hlist ⊢
    exact iff_of_false (not_putSurvives_unextended hs (by rw [hidx]; exact hroom.2) hlist) (by simp)
  · obtain ⟨e, he, hq, hz⟩ := h345 k hmid
    rw [he] at hlist ⊢
    obtain ⟨rpos, hrest⟩ := restorable_of_logged hs hlr hre.1 hre.2
    rw [hidx, rotating_rindex] at hrest
    have hnew := restorable_next hrest hq hroom.2
    refine iff_of_true (.inl (survives_of_restorable hnew (hnext hz) hok' hlist)) ?_
    omega
  · rw [h6] at hlist ⊢
    exact iff_of_true
      (.inl (survives_recorded hn hrec hheadsn hok' (hroomn.mono (by decide)) hlist)) (by decide)
  · rw [h7] at hlist ⊢
    exact iff_of_true (.inl (survives_copied hs₁ (.inl hl₁) hheads₁ hok' hroom₁.reloadable hseg
      (dbFileHeadCount_freshData conf) hlist)) (by decide)
  · rw [h8] at hlist ⊢
    have hsurv := survives_recorded happ hrec' hstored hok' hroom₁ hlist
    rw [List.map_append] at hsurv
    exact iff_of_true (.inr hsurv) (by decide)

/-- A put of a message that fits, cut off anywhere. -/
theorem fit_survives (h : Sound conf True st finished pend)
    (hl : Logged conf st finished ∨ st = created conf) (hh : HeadsOk conf st) (hok : sys.Ok)
    (ho : putOpen sys st.q) (hw : WriterLive st)
    (hd : dbSeg conf st.dir.db st.q.curWdb.curIndex = some d)
    (hcounts : PutCountsOk conf st m.body.length) (hfit : ¬needsRotation conf st.q m.body.length)
    (hroom : RoomToPut st) (hk : k ≤ (pushEffects conf sys m.item st).length) (hok' : sys'.Ok)
    (hlist : IsListing (crashAfter (pushEffects conf sys m.item st) k st.dir) listing) :
    PutSurvives conf sys' listing (crashAfter (pushEffects conf sys m.item st) k st.dir)
      (pend.map Msg.body) m.body := by
  have hre := hroom.logRoom.reloadable
  have hz : dbFileHeadCount d = 0 := by
    have hcount := hcounts d hd
    rwa [if_neg hfit] at hcount
  have hres : WriteResult conf sys st m (.ok (true, appendMsg conf st d m)) := .appended hw hd hfit
  have hstored := headsOk_of_stored h hh hcounts hres
  obtain ⟨happ, -⟩ := sound_of_stored h hres
  have hrec := @rtagWriteItem_recorded sys _ hok .item happ.log happ.typed
  generalize (mqSmRtagWriteItem sys .item (appendMsg conf st d m)).2 = s₂ at hrec
  obtain ⟨hlength, h1, h2⟩ := crashAfter_fit h ho hw hd hfit hrec
  rw [hlength] at hk
  have hcases : k = 0 ∨ k = 1 ∨ k = 2 := by omega
  rcases hcases with rfl | rfl | rfl
  · exact .inl (survives_before h hl hh hok' hre hlist)
  · rw [h1] at hlist ⊢
    exact .inl (survives_copied h hl hh hok' hre hd hz hlist)
  · rw [h2] at hlist ⊢
    have hroom' : LogRoom (appendMsg conf st d m) 61 := hroom.logRoom.mono (by decide)
    have hsurv := survives_recorded happ hrec hstored hok' hroom' hlist
    rw [List.map_append] at hsurv
    exact .inr hsurv

/-- A put that finds no storage for a new file, cut off anywhere. -/
theorem refused_survives (h : Sound conf True st finished pend) (hl : Logged conf st finished)
    (hh : HeadsOk conf st) (ho : putOpen sys st.q) (hw : WriterLive st)
    (hd : dbSeg conf st.dir.db st.q.curWdb.curIndex = some d) (hc : CounterOk conf st.q d)
    (hrot : needsRotation conf st.q m.body.length) (hlow : storageLow conf sys = true)
    (hroom : RoomToPut st) (hk : k ≤ (pushEffects conf sys m.item st).length) (hok' : sys'.Ok)
    (hlist : IsListing (crashAfter (pushEffects conf sys m.item st) k st.dir) listing) :
    PutSurvives conf sys' listing (crashAfter (pushEffects conf sys m.item st) k st.dir)
      (pend.map Msg.body) m.body := by
  have hre := hroom.logRoom.reloadable
  obtain ⟨hlength, h1⟩ := crashAfter_refused ho hw hd hrot hlow
  rw [hlength] at hk
  have hcases : k = 0 ∨ k = 1 := by omega
  rcases hcases with rfl | rfl
  · exact .inl (survives_untouched h hl hh hok' hre hlist)
  · rw [h1] at hlist ⊢
    exact .inl (survives_untouched (sound_rotating h hw hd).1 (logged_rotating h hl hd)
      (headsOk_rotating h hh hd hc) hok' (logRoom_rotating hroom d).reloadable hlist)

/-- A put on a sound queue, cut off anywhere. -/
theorem putSurvives_iff (h : Sound conf True st finished pend)
    (hl : Logged conf st finished ∨ st = created conf) (hh : HeadsOk conf st) (hok : sys.Ok)
    (hcounts : PutCountsOk conf st m.body.length) (hroom : RoomToPut st)
    (hk : k ≤ (pushEffects conf sys m.item st).length) (hok' : sys'.Ok)
    (hlist : IsListing (crashAfter (pushEffects conf sys m.item st) k st.dir) listing) :
    PutSurvives conf sys' listing (crashAfter (pushEffects conf sys m.item st) k st.dir)
      (pend.map Msg.body) m.body ↔ ¬(needsRotation conf st.q m.body.length ∧ k = 2) := by
  have hre := hroom.logRoom.reloadable
  by_cases href : queueFull st.q ∨ writeLocked sys st.q ∨
    st.q.curWdb.mapMem.bind st.proc.maps = none
  · have hnil : pushEffects conf sys m.item st = [] := by
      unfold pushEffects
      rw [if_pos href]
    rw [hnil] at hk hlist ⊢
    obtain rfl : k = 0 := by simpa using hk
    exact iff_of_true (.inl (survives_before h hl hh hok' hre hlist)) (by simp)
  · have ho : putOpen sys st.q := ⟨fun hf => href (.inl hf), fun hf => href (.inr (.inl hf))⟩
    have hw : WriterLive st := live_of_mapped h fun hm => href (.inr (.inr hm))
    obtain ⟨d, hd, -⟩ := h.files.heads st.q.curWdb.curIndex h.files.index_le le_rfl
    by_cases hrot : needsRotation conf st.q m.body.length
    · have hlogged : Logged conf st finished := by
        refine hl.resolve_right fun hcr => ?_
        subst hcr
        exact not_needsRotation_created m hrot
      have hc : CounterOk conf st.q d := by
        have hcount := hcounts d hd
        rwa [if_pos hrot] at hcount
      cases hlow : storageLow conf sys with
      | true =>
        have hsurv := refused_survives h hlogged hh ho hw hd hc hrot hlow hroom hk hok' hlist
        rw [(crashAfter_refused ho hw hd hrot hlow).1] at hk
        exact iff_of_true hsurv (by omega)
      | false =>
        rw [rotated_survives_iff h hlogged hh ho hw hd hcounts hrot hlow hroom hk hok' hlist]
        simp [hrot]
    · exact iff_of_true (fit_survives h hl hh hok ho hw hd hcounts hrot hroom hk hok' hlist)
        (by simp [hrot])

/-- In an orderly run, a put applies its effects in order, and killed after any
number of them it leaves a directory that is loaded with every pending message,
perhaps followed by the one that was being put, exactly when it was not killed
between the creation of a new file and its extension. -/
theorem put_survives_iff {banner : String} {tr : History} {srv : Server} {n : String} {slot : Slot}
    (h : Run (serve banner) (Guarded queueOpts (ForName conf n (Orderly conf)))
      (Server.start conf) tr srv)
    (hslot : HasSlot srv n slot) (ht : Touched conf slot st) (hok : sys.Ok) {len : ℕ}
    {msg : List UInt8} (htime : m.time = curTime sys) (hlen : len = m.body.length)
    (hbody : msg.take len = m.body) (hcounts : PutCountsOk conf st len) (hroom : RoomToPut st) :
    (∀ ret st', mqQmPushItem conf sys len msg st = .ok (ret, st') →
      st'.dir = crashAfter (pushEffects conf sys m.item st)
        (pushEffects conf sys m.item st).length st.dir) ∧
    (∀ e, mqQmPushItem conf sys len msg st = .error e → pushEffects conf sys m.item st = []) ∧
    ∀ k, k ≤ (pushEffects conf sys m.item st).length →
      ∀ (sys' : Sys) (listing : List Fname), sys'.Ok →
      IsListing (crashAfter (pushEffects conf sys m.item st) k st.dir) listing →
      (PutSurvives conf sys' listing (crashAfter (pushEffects conf sys m.item st) k st.dir)
        (pending n tr)
        m.body ↔ ¬(needsRotation conf st.q len ∧ k = 2)) := by
  obtain ⟨slot', hslot', hcounted⟩ := counted_of_run h
  obtain rfl := hasSlot_unique hslot hslot'
  obtain ⟨htracked, hheads, -⟩ := hcounted
  obtain ⟨finished, pend, hs, hpend, hl⟩ := sound_of_touched htracked ht
  have hh : HeadsOk conf st := by
    cases ht with
    | found => exact hheads
    | fresh dir => exact headsOk_created conf
  obtain ⟨hall, hfault⟩ := pushItem_effects hs hok htime hlen hbody
  refine ⟨hall, hfault, fun k hk sys' listing hok' hlist => ?_⟩
  rw [hpend]
  rw [hlen] at hcounts ⊢
  exact putSurvives_iff hs hl hh hok hcounts hroom hk hok' hlist

/-- A reachable queue with one message that fills its only file, and another one
to be put. -/
theorem exists_full :
    ∃ (tr : History) (s : Server) (st : Store) (m : Msg .least) (big : List UInt8),
    Run (serve "") (Guarded queueOpts (ForName .least "q" (Orderly .least)))
      (Server.start .least) tr s ∧
      HasSlot s "q" (.listed st) ∧ pending "q" tr = [big] ∧ m.time = curTime (Sys.quiet 0 0) ∧
      m.body = [1] ∧
      PutCountsOk .least st 1 ∧ RoomToPut st ∧ needsRotation .least st.q 1 ∧
      putOpen (Sys.quiet 0 0) st.q ∧
      WriterLive st := by
  obtain ⟨big, hbig⟩ := exists_big
  obtain ⟨rs, s, st, hrun, hout, honly, hf, hserves⟩ :=
    @run_full .least _ big _ (Sys.quiet_ok 0 0) rfl
    (by decide) rfl rfl hbig ((orderly_admits hbig).toAdmits.forName rfl "q").first
  have hrun' := run_mono queueOpts (by decide) (fun _ _ _ hg => hg) hrun
  have hmax : maxDbFileSize .least = 1048576 := rfl
  refine ⟨_, s, st, putMsgOf .least (Sys.quiet 0 0) [1] (by decide) (by decide), big, hrun',
    honly.slot, pending_put [] hout, rfl, rfl, putCountsOk_first hf hserves (by decide),
    ⟨fun t ht => ?_, ?_⟩, ?_, putOpen_of_unlimited hf.maxque hf.wlock, hf.live⟩
  · rw [hf.rindex] at ht
    have := hf.log t ht
    omega
  · rw [hf.windex]
    decide
  · rw [needsRotation, hf.wpos, hmax]
    decide

/-- A put killed before its first effect loses nothing. -/
theorem put_survives_untouched : ∃ tr s st big listing, ∃ m : Msg .least,
    Run (serve "") (Guarded queueOpts (ForName .least "q" (Orderly .least)))
      (Server.start .least) tr s ∧
      HasSlot s "q" (.listed st) ∧ pending "q" tr = [big] ∧
      PutSurvives .least (Sys.quiet 0 0) listing
        (crashAfter (pushEffects .least (Sys.quiet 0 0) m.item st) 0 st.dir) [big] [1] := by
  obtain ⟨tr, s, st, m, big, hrun, hslot, hpend, htime, hbody, hcounts, hroom, hrot, ho, hw⟩ :=
    exists_full
  obtain ⟨finished, pend, hs⟩ := sound_of_run hrun hslot
  have htake : ([1] : List UInt8).take 1 = m.body := by rw [hbody]; rfl
  have hsurv :=
    ((put_survives_iff hrun hslot (.found st) (Sys.quiet_ok 0 0) htime (by rw [hbody]; rfl)
    htake hcounts hroom).2.2 0 (Nat.zero_le _) _ _ (Sys.quiet_ok 0 0)
      (isListing_of_sound hs)).mpr (by simp)
  rw [hpend, hbody] at hsurv
  exact ⟨tr, s, st, big, _, m, hrun, hslot, hpend, hsurv⟩

/-- A put killed after it created the next file loses the message accepted
before, however the directory is listed. -/
theorem put_loses : ∃ tr s st big, ∃ m : Msg .least,
    Run (serve "") (Guarded queueOpts (ForName .least "q" (Orderly .least)))
      (Server.start .least) tr s ∧
      HasSlot s "q" (.listed st) ∧ pending "q" tr = [big] ∧ m.body = [1] ∧
      2 ≤ (pushEffects .least (Sys.quiet 0 0) m.item st).length ∧
      (∃ listing,
        IsListing (crashAfter (pushEffects .least (Sys.quiet 0 0) m.item st) 2 st.dir) listing) ∧
      ∀ listing,
        IsListing (crashAfter (pushEffects .least (Sys.quiet 0 0) m.item st) 2 st.dir) listing →
        ¬PutSurvives .least (Sys.quiet 0 0) listing
          (crashAfter (pushEffects .least (Sys.quiet 0 0) m.item st) 2 st.dir) [big] [1] := by
  obtain ⟨tr, s, st, m, big, hrun, hslot, hpend, -, hbody, -, hroom, hrot, ho, hw⟩ := exists_full
  obtain ⟨finished, pend, hs⟩ := sound_of_run hrun hslot
  obtain ⟨d, hd, -⟩ := hs.files.heads st.q.curWdb.curIndex hs.files.index_le le_rfl
  have hneed : needsRotation .least st.q m.body.length := by
    rw [hbody]
    exact hrot
  obtain ⟨s₁, s₂, hrec, -, hrec'⟩ := exists_rotated hs hw hd m
  obtain ⟨hlength, -, h2, -⟩ :=
    @crashAfter_rotated _ (Sys.quiet 0 0) _ _ _ _ _ hs ho hw hd hneed rfl _ _ hrec hrec'
  obtain ⟨hsr, -, -⟩ := sound_rotating hs hw hd
  have hidx := rotating_index .least st d
  rw [← hidx] at h2
  refine ⟨tr, s, st, big, m, hrun, hslot, hpend, hbody,
    by rw [hlength]; decide, ?_, fun listing hl => ?_⟩
  · rw [h2]
    obtain ⟨fd, append, off, t, -, -, -, ht, -⟩ := hsr.log
    exact ⟨_, isListing_layout (hasDbs_next (hasDbs_of_files rfl hsr.files) hsr.files.index_le _)
      (hasRtag_of_log hsr.rtags ht)⟩
  · rw [h2] at hl ⊢
    exact not_putSurvives_unextended hsr (by rw [hidx]; exact hroom.2) hl

end Ucmq.PutSurvival
