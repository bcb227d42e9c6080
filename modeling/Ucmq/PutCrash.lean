import Ucmq.ReadSwitchCrash

/-!
# A process killed during a put

A put that moves the writer stores the count of the full file in its head,
creates the next file, extends it, writes its last byte and its head and records
the new position; every put then copies its message and records the position
behind it. Killed at any of these points but one, the queue is loaded with the
messages accepted before, perhaps followed by the one that was being put. A new
file that was not extended yet is the write file chosen at start, and its size
makes the start refuse the whole queue.
-/

namespace Ucmq.PutCrash

open ByteRegion FramedLog LabelledRun StoreConfig StoreMsg StoreState StoreRtag StoreFile
open StoreManage QueueManage StoreInvariant ReadPath WritePath HandleFile Recovery QueueStep
open QueueSlots RequestEffect ServerRun CleanRestart UnreadCount CursorInvariant PendingBodies
open ReadSwitchCrash RotationRuns

variable {conf : UcmqConf} {sys : Sys} {clean : Prop} {st st' : Store}
  {finished pend : List (Msg conf)}
variable {m : Msg conf} {dir : Dir} {r w : ℕ} {item : RtagItem} {d d' : Region}
  {listing : List Fname}

/-- Bytes copied to the mapping of a data file. -/
def copyToDb (i p : ℕ) (bs : List UInt8) (dir : Dir) : Dir :=
  dir.setDb i ((dir.db i).map fun f => { f with data := writeAt f.data p bs })

/-- A record added to a position log. -/
def appendRecord (i : ℕ) (item : RtagItem) (dir : Dir) : Dir :=
  dir.setRtag i ((dir.rtag i).map fun t => t ++ rtagText item)

/-- Creation of a data file. -/
def createDb (i : ℕ) (dir : Dir) : Dir := dir.setDb i (some ((dir.db i).getD DbFile.blank))

/-- Extension of a data file to its full size. -/
def extendDb (conf : UcmqConf) (i : ℕ) (dir : Dir) : Dir :=
  dir.setDb i ((dir.db i).map fun f =>
    { size := maxDbFileSize conf, data := fun k => if k < f.size then f.data k else 0 })

/-- Position behind a message that is written next. -/
def storedPos (conf : UcmqConf) (q : MqQueue) (len : ℕ) : ℕ :=
  u32 ((if needsRotation conf q len then 128 else q.curWdb.pos)+(len+12))

/-- Effects of a put on the directory, in order. A refused put has none, nor has
one that faults at its first access to the write file. -/
def pushEffects (conf : UcmqConf) (sys : Sys) (item : MsgItem) (s : Store) : List (Dir → Dir) :=
  let i := s.q.curWdb.curIndex
  let r := s.q.curRdb.curIndex
  if queueFull s.q ∨ writeLocked sys s.q ∨ s.q.curWdb.mapMem.bind s.proc.maps = none then []
  else if needsRotation conf s.q item.len then
    if storageLow conf sys then [copyToDb i 0 (dbFileHead s.q.curWdb.optCount)]
    else [copyToDb i 0 (dbFileHead s.q.curWdb.optCount), createDb (i+1), extendDb conf (i+1),
      copyToDb (i+1) (maxDbFileSize conf-1) (textBytes ['0']), copyToDb (i+1) 0 (dbFileHead 0),
      appendRecord r { rtagItem s.q with wpos := 128 }, copyToDb (i+1) 128 (msgBytes item),
      appendRecord r { rtagItem s.q with wpos := storedPos conf s.q item.len }]
  else [copyToDb i s.q.curWdb.pos (msgBytes item),
    appendRecord r { rtagItem s.q with wpos := storedPos conf s.q item.len }]

/-- Copying bytes to a data file. -/
theorem copyToDb_of_seg (hd : dbSeg conf dir.db w = some d) (p : ℕ) (bs : List UInt8) :
    copyToDb w p bs dir = dir.setDb w (some ⟨maxDbFileSize conf, writeAt d p bs⟩) := by
  obtain ⟨f, hf, hs, rfl⟩ := dbSeg_eq_some.mp hd
  simp only [copyToDb, hf, Option.map_some, hs]

/-- Copying to a file that was just replaced. -/
theorem copyToDb_setDb (i p : ℕ) (bs : List UInt8) (f : DbFile) :
    copyToDb i p bs (dir.setDb i (some f)) =
      dir.setDb i (some { f with data := writeAt f.data p bs }) := by
  simp [copyToDb, Dir.setDb]

/-- Creating a data file. -/
theorem createDb_of_none {i : ℕ} (h : dir.db i = none) :
    createDb i dir = dir.setDb i (some DbFile.blank) := by
  rw [createDb, h]
  rfl

/-- An empty file is extended with zeros. -/
theorem extendDb_blank (conf : UcmqConf) (i : ℕ) (dir : Dir) :
    extendDb conf i (dir.setDb i (some DbFile.blank)) =
      dir.setDb i (some ⟨maxDbFileSize conf, fun _ => 0⟩) := by
  simp [extendDb, Dir.setDb, DbFile.blank]

/-- The record of a state that is written to its log. -/
theorem appendRecord_of_recorded {s s' : Store} (hrec : Recorded s s') :
    appendRecord s.q.curRdb.curIndex (rtagItem s.q) s.dir = s'.dir := by
  obtain ⟨t, ht, hrt⟩ := hrec.rtag
  have hdir : s'.dir = ⟨s'.dir.db, s'.dir.rtag⟩ := rfl
  rw [hdir, hrec.db, hrt, appendRecord, ht]
  rfl

/-- A message that fits ends behind the write position. -/
theorem storedPos_of_fit (h : Sound conf clean st finished pend)
    (hfit : ¬needsRotation conf st.q m.body.length) :
    storedPos conf st.q m.body.length = st.q.curWdb.pos+(m.body.length+12) := by
  have hroom := mt (needsRotation_iff h.files rfl m).mpr hfit
  have hmax := maxDbFileSize_le conf
  rw [storedPos, if_neg hfit, u32_of_lt (by omega)]

/-- Another one ends behind the head of the next file. -/
theorem storedPos_of_rotation (hrot : needsRotation conf st.q m.body.length) :
    storedPos conf st.q m.body.length = 128+(m.body.length+12) := by
  have hle := m.body_le
  have hmax := maxDbFileSize_le conf
  rw [storedPos, if_pos hrot, u32_of_lt (by omega)]

/-- An open put on a live writer reaches the write file. -/
theorem not_refused (ho : putOpen sys st.q) (hw : WriterLive st) :
    ¬(queueFull st.q ∨ writeLocked sys st.q ∨ st.q.curWdb.mapMem.bind st.proc.maps = none) := by
  obtain ⟨b, hb, hm⟩ := hw
  simp [ho.1, ho.2, hb, hm]

/-- A mapped write file is live. -/
theorem live_of_mapped (h : Sound conf clean st finished pend)
    (hm : st.q.curWdb.mapMem.bind st.proc.maps ≠ none) : WriterLive st := by
  refine h.held.wmap.resolve_right fun hdead => hm ?_
  obtain ⟨b, hb, -, hnone⟩ := hdead
  simp [hb, hnone]

/-- Effects of a put of a message that fits. -/
theorem pushEffects_fit (ho : putOpen sys st.q) (hw : WriterLive st)
    (hfit : ¬needsRotation conf st.q m.body.length) :
    pushEffects conf sys m.item st =
      [copyToDb st.q.curWdb.curIndex st.q.curWdb.pos (msgBytes m.item),
        appendRecord st.q.curRdb.curIndex
          { rtagItem st.q with wpos := storedPos conf st.q m.body.length }] := by
  unfold pushEffects
  rw [if_neg (not_refused ho hw), if_neg (show ¬needsRotation conf st.q m.item.len from hfit)]
  rfl

/-- Effects of a put that gets no storage for the next file. -/
theorem pushEffects_refused (ho : putOpen sys st.q) (hw : WriterLive st)
    (hrot : needsRotation conf st.q m.body.length) (hlow : storageLow conf sys = true) :
    pushEffects conf sys m.item st =
      [copyToDb st.q.curWdb.curIndex 0 (dbFileHead st.q.curWdb.optCount)] := by
  unfold pushEffects
  rw [if_neg (not_refused ho hw), if_pos (show needsRotation conf st.q m.item.len from hrot),
    if_pos hlow]

/-- Effects of a put that moves the writer. -/
theorem pushEffects_rotated (ho : putOpen sys st.q) (hw : WriterLive st)
    (hrot : needsRotation conf st.q m.body.length) (hlow : storageLow conf sys = false) {i : ℕ}
    (hi : st.q.curWdb.curIndex+1 = i) :
    pushEffects conf sys m.item st =
      [copyToDb st.q.curWdb.curIndex 0 (dbFileHead st.q.curWdb.optCount), createDb i,
        extendDb conf i, copyToDb i (maxDbFileSize conf-1) (textBytes ['0']),
        copyToDb i 0 (dbFileHead 0),
        appendRecord st.q.curRdb.curIndex { rtagItem st.q with wpos := 128 },
        copyToDb i 128 (msgBytes m.item), appendRecord st.q.curRdb.curIndex
          { rtagItem st.q with wpos := storedPos conf st.q m.body.length }] := by
  unfold pushEffects
  rw [if_neg (not_refused ho hw), if_pos (show needsRotation conf st.q m.item.len from hrot),
    if_neg (by simp [hlow])]
  simp only [hi]
  rfl

/-- A put of a message that fits copies it and records the position behind it. -/
theorem crashAfter_fit (h : Sound conf clean st finished pend) (ho : putOpen sys st.q)
    (hw : WriterLive st) (hd : dbSeg conf st.dir.db st.q.curWdb.curIndex = some d)
    (hfit : ¬needsRotation conf st.q m.body.length) {s₂ : Store}
    (hrec : Recorded (appendMsg conf st d m) s₂) :
    (pushEffects conf sys m.item st).length = 2 ∧
      crashAfter (pushEffects conf sys m.item st) 1 st.dir = (appendMsg conf st d m).dir ∧
      crashAfter (pushEffects conf sys m.item st) 2 st.dir = s₂.dir := by
  have hcopy := copyToDb_of_seg hd st.q.curWdb.pos (msgBytes m.item)
  have hitem : rtagItem (appendMsg conf st d m).q =
      { rtagItem st.q with wpos := storedPos conf st.q m.body.length } := by
    rw [storedPos_of_fit h hfit]
    rfl
  have hlast := appendRecord_of_recorded hrec
  rw [hitem] at hlast
  rw [pushEffects_fit ho hw hfit]
  refine ⟨rfl, hcopy, ?_⟩
  show appendRecord _ _ (copyToDb _ _ _ _) = _
  rw [hcopy]
  exact hlast

/-- A put that needs storage and gets none stores the count of the full file. -/
theorem crashAfter_refused (ho : putOpen sys st.q) (hw : WriterLive st)
    (hd : dbSeg conf st.dir.db st.q.curWdb.curIndex = some d)
    (hrot : needsRotation conf st.q m.body.length) (hlow : storageLow conf sys = true) :
    (pushEffects conf sys m.item st).length = 1 ∧
      crashAfter (pushEffects conf sys m.item st) 1 st.dir = (rotating conf st d).dir := by
  rw [pushEffects_refused ho hw hrot hlow, rotating_dir]
  exact ⟨rfl, copyToDb_of_seg hd 0 _⟩

/-- The two records of a put that moves the writer hold the position in the new
file, behind its head and then behind the message. -/
theorem appendRecord_rotated (hrot : needsRotation conf st.q m.body.length) {s₁ s₂ : Store}
    (hrec : Recorded (nextWriter conf (rotating conf st d)) s₁)
    (hrec' : Recorded (appendMsg conf s₁ (freshData conf) m) s₂) :
    appendRecord st.q.curRdb.curIndex { rtagItem st.q with wpos := 128 }
        (nextWriter conf (rotating conf st d)).dir = s₁.dir ∧
      appendRecord st.q.curRdb.curIndex
        { rtagItem st.q with wpos := storedPos conf st.q m.body.length }
        (appendMsg conf s₁ (freshData conf) m).dir = s₂.dir := by
  have hr : (nextWriter conf (rotating conf st d)).q.curRdb.curIndex = st.q.curRdb.curIndex := by
    show (rotating conf st d).q.curRdb.curIndex = _
    rw [rotating_rindex]
  have hitem :
      rtagItem (nextWriter conf (rotating conf st d)).q = { rtagItem st.q with wpos := 128 } := by
    unfold nextWriter rotating releaseWriteFile
    split <;> rfl
  have hfirst := appendRecord_of_recorded hrec
  have hsecond := appendRecord_of_recorded hrec'
  have hlast : rtagItem (appendMsg conf s₁ (freshData conf) m).q =
      { rtagItem st.q with wpos := storedPos conf st.q m.body.length } := by
    rw [storedPos_of_rotation hrot, ← (fresh_of_recorded hrec).1]
    show { rtagItem s₁.q with wpos := s₁.q.curWdb.pos+(m.body.length+12) } = _
    rw [hrec.q, hitem]
  have hindex :
      (appendMsg conf s₁ (freshData conf) m).q.curRdb.curIndex = st.q.curRdb.curIndex := by
    rw [← hr, ← hrec.q]
    rfl
  rw [hr, hitem] at hfirst
  rw [hlast, hindex] at hsecond
  exact ⟨hfirst, hsecond⟩

/-- A put that moves the writer passes through these directories. -/
theorem crashAfter_rotated (h : Sound conf True st finished pend) (ho : putOpen sys st.q)
    (hw : WriterLive st) (hd : dbSeg conf st.dir.db st.q.curWdb.curIndex = some d)
    (hrot : needsRotation conf st.q m.body.length) (hlow : storageLow conf sys = false)
    {s₁ s₂ : Store} (hrec : Recorded (nextWriter conf (rotating conf st d)) s₁)
    (hrec' : Recorded (appendMsg conf s₁ (freshData conf) m) s₂) :
    (pushEffects conf sys m.item st).length = 8 ∧
      crashAfter (pushEffects conf sys m.item st) 1 st.dir = (rotating conf st d).dir ∧
      crashAfter (pushEffects conf sys m.item st) 2 st.dir =
        (rotating conf st d).dir.setDb (st.q.curWdb.curIndex+1) (some DbFile.blank) ∧
      (∀ k, k = 3 ∨ k = 4 ∨ k = 5 → ∃ e, crashAfter (pushEffects conf sys m.item st) k st.dir =
          (rotating conf st d).dir.setDb (st.q.curWdb.curIndex+1) (some ⟨maxDbFileSize conf, e⟩) ∧
        Quiet msgHeadOfFirstMagicNum e 0 (maxDbFileSize conf) ∧ dbFileHeadCount e = 0) ∧
      crashAfter (pushEffects conf sys m.item st) 6 st.dir = s₁.dir ∧
      crashAfter (pushEffects conf sys m.item st) 7 st.dir =
        (appendMsg conf s₁ (freshData conf) m).dir ∧
      crashAfter (pushEffects conf sys m.item st) 8 st.dir = s₂.dir := by
  have hidx := rotating_index conf st d
  have hnone : (rotating conf st d).dir.db (st.q.curWdb.curIndex+1) = none := by
    by_contra hne
    have hbound := (sound_rotating h hw hd).1.files.dbs _ hne
    rw [hidx] at hbound
    omega
  have h1 : copyToDb st.q.curWdb.curIndex 0 (dbFileHead st.q.curWdb.optCount) st.dir =
      (rotating conf st d).dir := by
    rw [rotating_dir]
    exact copyToDb_of_seg hd 0 _
  have hnext : (nextWriter conf (rotating conf st d)).dir = (rotating conf st d).dir.setDb
      (st.q.curWdb.curIndex+1) (some ⟨maxDbFileSize conf, freshData conf⟩) := by
    rw [nextWriter, hidx]
  have hs₁ : s₁.q.curWdb.curIndex = st.q.curWdb.curIndex+1 := by rw [hrec.q, nextWriter, hidx]
  obtain ⟨hpos, hseg⟩ := fresh_of_recorded hrec
  obtain ⟨h6, h8⟩ := appendRecord_rotated hrot hrec hrec'
  rw [hnext] at h6
  have h7 : copyToDb s₁.q.curWdb.curIndex 128 (msgBytes m.item) s₁.dir =
      (appendMsg conf s₁ (freshData conf) m).dir := by
    rw [copyToDb_of_seg hseg, appendMsg, setWriteData, hpos]
  rw [hs₁] at h7
  generalize (rotating conf st d).dir = dir at hnone h1 h6 ⊢
  generalize hi : st.q.curWdb.curIndex+1 = i at hnone h6 h7 ⊢
  have h2 := createDb_of_none hnone
  have h3 := extendDb_blank conf i dir
  have h4 : copyToDb i (maxDbFileSize conf-1) (textBytes ['0'])
      (dir.setDb i (some ⟨maxDbFileSize conf, fun _ => 0⟩)) =
      dir.setDb i (some ⟨maxDbFileSize conf, blankData conf⟩) := copyToDb_setDb i _ _ _
  have h5 : copyToDb i 0 (dbFileHead 0) (dir.setDb i (some ⟨maxDbFileSize conf, blankData conf⟩)) =
      dir.setDb i (some ⟨maxDbFileSize conf, freshData conf⟩) := copyToDb_setDb i _ _ _
  rw [pushEffects_rotated ho hw hrot hlow hi]
  simp only [crashAfter, List.take_succ_cons, List.take_zero, List.foldl_cons, List.foldl_nil,
    h1, h2, h3, h4, h5, h6, h7, h8]
  refine ⟨rfl, trivial, trivial, fun k hk => ?_, trivial, trivial, trivial⟩
  rcases hk with rfl | rfl | rfl <;>
    simp only [List.take_succ_cons, List.take_zero, List.foldl_cons, List.foldl_nil, h1,
      h2, h3, h4, h5]
  · exact ⟨_, rfl, fun _ _ _ => (by decide : (0 : UInt8) ≠ 0xFE),
      dbFileHeadCount_of_zero fun _ _ => rfl⟩
  · exact ⟨_, rfl, quiet_blankData conf _ _, dbFileHeadCount_blankData conf⟩
  · exact ⟨_, rfl, quiet_freshData conf, dbFileHeadCount_freshData conf⟩

/-- A put applies all its effects in order, and faults before the first one. -/
theorem pushItem_effects (h : Sound conf True st finished pend) (hok : sys.Ok) {len : ℕ}
    {msg : List UInt8} (htime : m.time = curTime sys) (hlen : len = m.body.length)
    (hbody : msg.take len = m.body) :
    (∀ ret st', mqQmPushItem conf sys len msg st = .ok (ret, st') →
      st'.dir = crashAfter (pushEffects conf sys m.item st)
        (pushEffects conf sys m.item st).length st.dir) ∧
      ∀ e, mqQmPushItem conf sys len msg st = .error e → pushEffects conf sys m.item st = [] := by
  have hnil : queueFull st.q ∨ writeLocked sys st.q ∨ st.q.curWdb.mapMem.bind st.proc.maps = none →
      pushEffects conf sys m.item st = [] := fun href => by
    unfold pushEffects
    rw [if_pos href]
  have hres := pushResult_of_sound h hok htime hlen hbody
  constructor
  · intro ret st' hpush
    rw [hpush] at hres
    cases hres with
    | full hf =>
      rw [hnil (.inl hf)]
      rfl
    | wlock _ hl =>
      rw [hnil (.inr (.inl hl))]
      rfl
    | refused ho hw hd hrot hlow =>
      obtain ⟨hlength, h1⟩ := crashAfter_refused ho hw hd hrot hlow
      rw [hlength, h1]
    | stored ho hr hrec =>
      cases hr with
      | appended hw hd hfit =>
        obtain ⟨hlength, -, h2⟩ := crashAfter_fit h ho hw hd hfit hrec
        rw [hlength, h2]
      | rotated hw hd hrot hlow hrec₁ =>
        obtain ⟨hlength, -, -, -, -, -, h8⟩ := crashAfter_rotated h ho hw hd hrot hlow hrec₁ hrec
        rw [hlength, h8]
  · intro e hpush
    rw [hpush] at hres
    cases hres with
    | fault hdead =>
      obtain ⟨b, hb, -, hnone⟩ := hdead
      exact hnil (.inr (.inr (by simp [hb, hnone])))

/-- The file written last may hold bytes behind the write cursor. -/
theorem restorable_overwrite (h : Restorable conf clean dir r w item finished pend)
    (hd : dbSeg conf dir.db w = some d) (he : ∀ k, k < item.wpos → d k = d' k) :
    Restorable conf False (dir.setDb w (some ⟨maxDbFileSize conf, d'⟩)) r w item finished pend :=
  ⟨files_overwrite h.files hd he, h.rcount, h.rtags, h.log, h.maxqueue_lt, h.delay_lt,
    h.wlock_ge, h.wlock_lt, h.windex_lt⟩

/-- An empty file may follow the write file of the last record. The recorded
position is then a position in the empty file. -/
theorem restorable_next (h : Restorable conf True dir r w item finished pend)
    (hq : Quiet msgHeadOfFirstMagicNum d' 0 (maxDbFileSize conf)) (hw : w+1 < 10^12) :
    Restorable conf True (dir.setDb (w+1) (some ⟨maxDbFileSize conf, d'⟩)) r
      (w+1) item finished pend :=
  ⟨files_rotate h.files hq h.files.wpos_ge h.files.wpos_le, h.rcount, h.rtags, h.log, h.maxqueue_lt,
    h.delay_lt, h.wlock_ge, h.wlock_lt, hw⟩

/-- A file that was created behind the last one. -/
theorem hasDbs_next (h : HasDbs dir r w) (hle : r ≤ w) (f : DbFile) :
    HasDbs (dir.setDb (w+1) (some f)) r (w+1) := by
  intro i
  by_cases hi : i = w+1
  · subst hi
    simp only [Dir.setDb_db, Function.update_self, Option.isSome_some, true_iff]
    omega
  · rw [Dir.setDb_db, Function.update_of_ne hi, h i]
    omega

/-- A file of full size that is replaced by another one stays loadable. -/
theorem loadable_setDb {i : ℕ} (h : Loadable conf dir r w item) (hr : r ≤ i) (hw : i ≤ w)
    (d : Region) :
    Loadable conf (dir.setDb i (some ⟨maxDbFileSize conf, d⟩)) r w item := by
  refine ⟨h.le, fun j => ?_, fun j f hf => ?_, h.rtag, h.log, h.typed, h.check, h.windex_lt⟩
  · by_cases hj : j = i
    · subst hj
      simp [hr, hw]
    · rw [Dir.setDb_db, Function.update_of_ne hj]
      exact h.dbs j
  · by_cases hj : j = i
    · subst hj
      rw [Dir.setDb_db, Function.update_self] at hf
      cases hf
      rfl
    · rw [Dir.setDb_db, Function.update_of_ne hj] at hf
      exact h.sizes j f hf

/-- Before the first record of its own a queue is loaded empty, whatever was
copied to its file. -/
theorem survives_created (hok : sys.Ok) (hz : dbFileHeadCount d' = 0)
    (hl : IsListing ((created conf).dir.setDb 1 (some ⟨maxDbFileSize conf, d'⟩)) listing) :
    Survives conf sys listing ((created conf).dir.setDb 1 (some ⟨maxDbFileSize conf, d'⟩)) [] := by
  have hload :=
    openQueue_of_loadable (loadable_setDb (loadable_created conf) le_rfl le_rfl d') hok hl
  have hent : ∀ f, entCount conf sys
      (restored ((created conf).dir.setDb 1 (some ⟨maxDbFileSize conf, d'⟩)) 1 1
        (creationItem conf)) f = 0 := by
    intro f
    cases f with
    | rtag i => rfl
    | db i =>
      by_cases hi : i = 1
      · subst hi
        have hcount : dbFileCount conf (restoredQueue 1 1 (creationItem conf)) d' = 0 := by
          rw [dbFileCount, hz]
          rfl
        simp only [entCount, restored, Dir.setDb_db, Function.update_self, hok.dbOpen, if_true]
        exact hcount
      · have hnone : ((created conf).dir.setDb 1 (some ⟨maxDbFileSize conf, d'⟩)).db i = none := by
          simp [created, hi, Dir.empty]
        simp only [entCount, restored, hnone]
  have hsum : (listing.map (entCount conf sys (restored
      ((created conf).dir.setDb 1 (some ⟨maxDbFileSize conf, d'⟩)) 1 1 (creationItem conf)))).sum =
        0 := by
    rw [List.map_congr_left fun f _ => hent f]
    simp
  have hunread : (mqSmGetMsgCount conf sys listing (restored ((created conf).dir.setDb 1
      (some ⟨maxDbFileSize conf, d'⟩)) 1 1 (creationItem conf))).q.unreadCount = 0 := by
    rw [mqSmGetMsgCount, if_neg (fun hno => hno rfl)]
    simp only [hsum]
    rfl
  refine ⟨_, [], by simp only [reloaded, hload]; rfl, rfl, fun sys _ => ?_⟩
  exact ⟨_, popItem_of_none hunread, hunread⟩

/-- A write file that is not of full size makes the start refuse the queue. -/
theorem not_survives_of_short {qf : QueueFile} {f : DbFile} {bodies : List (List UInt8)}
    (hfind : findHandleFile sys listing = some qf) (hw : qf.writeFname = .db w)
    (hf : dir.db w = some f)
    (hs : f.size ≠ maxDbFileSize conf) : ¬Survives conf sys listing dir bodies := by
  have hfile : ∀ proc, (mqSmOpenDbFile conf sys w .open dir proc).2.1 = none := by
    intro proc
    simp only [mqSmOpenDbFile, hf, if_pos hs]
    split
    · rfl
    · rfl
  have hopen : ∀ q proc, (mqSmOpenDb conf sys qf dir proc q).1 = none := by
    intro q proc
    have hnone := hfile proc
    simp only [mqSmOpenDb, hw, fnameIndex]
    split
    · rfl
    · generalize mqSmOpenDbFile conf sys w .open dir proc = x at hnone
      obtain ⟨fd, addr, dir', proc'⟩ := x
      obtain rfl : addr = none := hnone
      rfl
  have hload : (openQueue conf sys listing dir).1 = none := by
    simp only [openQueue, hfind]
    split
    · rfl
    · exact hopen _ _
  rintro ⟨st, pend, hlisted, -⟩
  generalize hx : openQueue conf sys listing dir = x at hload
  obtain ⟨q, proc⟩ := x
  obtain rfl : q = none := hload
  simp only [reloaded, hx] at hlisted
  cases hlisted

end Ucmq.PutCrash
