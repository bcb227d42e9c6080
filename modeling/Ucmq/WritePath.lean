import Ucmq.ReadPath

/-!
# The writer extends the chain of stored messages

A message is appended to the write file, or to a new one when it does not fit.
A rotation writes the count of the old file into its head, releases that file
when the reader is elsewhere, and only then finds out whether a new file may be
created. Each outcome is given as a closed form of the resulting state, and the
accepted ones keep the queue sound with one more unread message.
-/

namespace Ucmq.WritePath

open ByteRegion FramedLog StoreConfig StoreMsg StoreState StoreRtag StoreFile StoreManage
open QueueManage StoreInvariant ReadPath

variable {conf : UcmqConf} {sys : Sys} {clean : Prop} {s s' : Store} {m : Msg conf}
variable {db : ℕ → Option DbFile} {r rpos w wpos : ℕ} {finished pend : List (Msg conf)}
  {d d' : Region}

/-- Contents of a data file that was replaced. -/
theorem dbSeg_update_self (i : ℕ) (d : Region) :
    dbSeg conf (Function.update db i (some ⟨maxDbFileSize conf, d⟩)) i = some d := by
  simp [dbSeg]

/-- Contents of another data file. -/
theorem dbSeg_update_ne {i j : ℕ} (f : Option DbFile) (h : j ≠ i) :
    dbSeg conf (Function.update db i f) j = dbSeg conf db j :=
  dbSeg_congr (Function.update_of_ne h _ _)

/-- The head of the write file may be rewritten. -/
theorem files_setHead (h : Files conf clean db r rpos w wpos finished pend)
    (hd : dbSeg conf db w = some d) (hq : Quiet msgHeadOfFirstMagicNum d' 0 128)
    (he : ∀ k, 128 ≤ k → d k = d' k) :
    Files conf clean (Function.update db w (some ⟨maxDbFileSize conf, d'⟩)) r rpos w wpos
      finished pend := by
  have hsame : ∀ j e, dbSeg conf db j = some e → ∃ e',
      dbSeg conf (Function.update db w (some ⟨maxDbFileSize conf, d'⟩)) j = some e' ∧
        ∀ k, 128 ≤ k → e k = e' k := by
    intro j e hj
    by_cases hjw : j = w
    · subst hjw
      obtain rfl : e = d := Option.some.inj (hj.symm.trans hd)
      exact ⟨d', dbSeg_update_self j d', he⟩
    · exact ⟨e, by rw [dbSeg_update_ne _ hjw]; exact hj, fun _ _ => rfl⟩
  have hge := h.rpos_ge
  refine ⟨h.chain.congr hge fun j e _ _ hj => ?_, hge, h.wpos_ge, h.wpos_le, ?_, ?_, ?_, ?_⟩
  · obtain ⟨e', hj', heq⟩ := hsame j e hj
    exact ⟨e', hj', fun k hk _ => heq k hk⟩
  · obtain ⟨e, hr, hscan⟩ := h.read
    obtain ⟨e', hr', heq⟩ := hsame r e hr
    exact ⟨e', hr', hscan.congr fun k hk _ => heq k hk⟩
  · intro i hi hw
    by_cases hiw : i = w
    · rw [hiw]
      exact ⟨d', dbSeg_update_self w d', hq⟩
    · rw [dbSeg_update_ne _ hiw]
      exact h.heads i hi hw
  · intro hcl e hee
    rw [dbSeg_update_self] at hee
    cases hee
    have hge' := h.wpos_ge
    exact (h.tail hcl d hd).congr fun k hk _ => he k (by omega)
  · intro i hi
    by_cases hiw : i = w
    · exact ⟨hiw ▸ h.index_le, hiw.le⟩
    · rw [Function.update_of_ne hiw] at hi
      exact h.dbs i hi

/-- A message may be written at the write cursor. -/
theorem files_append (h : Files conf clean db r rpos w wpos finished pend)
    (hd : dbSeg conf db w = some d) (hfit : wpos+(m.body.length+12) ≤ maxDbFileSize conf) :
    Files conf clean
      (Function.update db w (some ⟨maxDbFileSize conf, writeAt d wpos (msgBytes m.item)⟩))
      r rpos w (wpos+(m.body.length+12)) finished (pend ++ [m]) := by
  have hge := h.rpos_ge
  have hwge := h.wpos_ge
  have hlen := length_msgBytes m
  have hsame : ∀ k, k < wpos → d k = writeAt d wpos (msgBytes m.item) k := fun k hk =>
    (writeAt_outside d (Or.inl hk)).symm
  refine ⟨?_, hge, by omega, hfit, ?_, ?_, ?_, ?_⟩
  · have hsnoc := h.chain.snoc (a := m)
      (t := dbSeg conf
        (Function.update db w (some ⟨maxDbFileSize conf, writeAt d wpos (msgBytes m.item)⟩)))
      hge ?_ ?_
    · rw [msgFraming_enc, hlen, Nat.add_comm 12] at hsnoc
      exact hsnoc
    · intro j e _ hj hje
      rw [dbSeg_update_ne _ (by omega)]
      exact hje
    · intro e he
      obtain rfl : e = d := Option.some.inj (he.symm.trans hd)
      exact ⟨_, dbSeg_update_self w _, holds_writeAt e wpos _, fun k _ hk => hsame k hk⟩
  · obtain ⟨e, hr, hscan⟩ := h.read
    by_cases hrw : r = w
    · have hle := h.rpos_le_wpos hrw
      rw [hrw] at hr ⊢
      obtain rfl : e = d := Option.some.inj (hr.symm.trans hd)
      exact ⟨_, dbSeg_update_self w _, hscan.congr fun k _ hk => hsame k (by omega)⟩
    · exact ⟨e, by rw [dbSeg_update_ne _ hrw]; exact hr, hscan⟩
  · intro i hi hw
    obtain ⟨e, hie, hq⟩ := h.heads i hi hw
    by_cases hiw : i = w
    · rw [hiw] at hie ⊢
      obtain rfl : e = d := Option.some.inj (hie.symm.trans hd)
      exact ⟨_, dbSeg_update_self w _, hq.congr fun k _ hk => hsame k (by omega)⟩
    · exact ⟨e, by rw [dbSeg_update_ne _ hiw]; exact hie, hq⟩
  · intro hcl e hee
    rw [dbSeg_update_self] at hee
    cases hee
    have hle : wpos ≤ wpos+(m.body.length+12) := by omega
    have htail := (h.tail hcl d hd).mono hle le_rfl
    exact htail.congr fun k hk _ => (writeAt_outside d (Or.inr (by omega))).symm
  · intro i hi
    by_cases hiw : i = w
    · exact ⟨hiw ▸ h.index_le, hiw.le⟩
    · rw [Function.update_of_ne hiw] at hi
      exact h.dbs i hi

/-- Bytes from the write cursor on may be overwritten, but then the write file is
not clean any more. -/
theorem files_overwrite (h : Files conf clean db r rpos w wpos finished pend)
    (hd : dbSeg conf db w = some d) (he : ∀ k, k < wpos → d k = d' k) :
    Files conf False (Function.update db w (some ⟨maxDbFileSize conf, d'⟩)) r rpos w wpos
      finished pend := by
  have hge := h.rpos_ge
  have hwge := h.wpos_ge
  have hsame : ∀ j e, dbSeg conf db j = some e → ∃ e',
      dbSeg conf (Function.update db w (some ⟨maxDbFileSize conf, d'⟩)) j = some e' ∧
        ∀ k, (j = w → k < wpos) → e k = e' k := by
    intro j e hj
    by_cases hjw : j = w
    · subst hjw
      obtain rfl : e = d := Option.some.inj (hj.symm.trans hd)
      exact ⟨d', dbSeg_update_self j d', fun k hk => he k (hk rfl)⟩
    · exact ⟨e, by rw [dbSeg_update_ne _ hjw]; exact hj, fun _ _ => rfl⟩
  refine ⟨h.chain.congr hge fun j e _ _ hj => ?_, hge, hwge, h.wpos_le, ?_, ?_,
    fun hno => hno.elim, ?_⟩
  · obtain ⟨e', hj', heq⟩ := hsame j e hj
    exact ⟨e', hj', fun k _ hk => heq k hk⟩
  · obtain ⟨e, hr, hscan⟩ := h.read
    obtain ⟨e', hr', heq⟩ := hsame r e hr
    refine ⟨e', hr', hscan.congr fun k _ hk => heq k fun hrw => ?_⟩
    exact hk.trans_le (h.rpos_le_wpos hrw)
  · intro i hi hw
    obtain ⟨e, hie, hq⟩ := h.heads i hi hw
    obtain ⟨e', hie', heq⟩ := hsame i e hie
    exact ⟨e', hie', hq.congr fun k _ hk => heq k fun _ => by omega⟩
  · intro i hi
    by_cases hiw : i = w
    · exact ⟨hiw ▸ h.index_le, hiw.le⟩
    · rw [Function.update_of_ne hiw] at hi
      exact h.dbs i hi

/-- An empty file may be added after a clean write file, with the write cursor
anywhere in it. -/
theorem files_rotate (h : Files conf True db r rpos w wpos finished pend)
    (hq : Quiet msgHeadOfFirstMagicNum d 0 (maxDbFileSize conf)) {p : ℕ} (hp : 128 ≤ p)
    (hle : p ≤ maxDbFileSize conf) :
    Files conf True (Function.update db (w+1) (some ⟨maxDbFileSize conf, d⟩)) r rpos (w+1) p
      finished pend := by
  have hge := h.rpos_ge
  have hmin := le_maxDbFileSize conf
  have hold : ∀ j, j ≤ w →
      dbSeg conf (Function.update db (w+1) (some ⟨maxDbFileSize conf, d⟩)) j = dbSeg conf db j :=
    fun j hj => dbSeg_update_ne _ (by omega)
  refine ⟨?_, hge, hp, hle, ?_, ?_, ?_, ?_⟩
  · have hsame := h.chain.congr
      (t := dbSeg conf (Function.update db (w+1) (some ⟨maxDbFileSize conf, d⟩))) hge
      fun j e _ hj hje => ⟨e, by rw [hold j hj]; exact hje, fun _ _ _ => rfl⟩
    refine hsame.rotate h.wpos_le ?_ (dbSeg_update_self (w+1) d) hp (hq.mono (Nat.zero_le _) hle)
    intro e he
    rw [hold w le_rfl] at he
    exact h.tail trivial e he
  · obtain ⟨e, hr, hscan⟩ := h.read
    exact ⟨e, by rw [hold r h.index_le]; exact hr, hscan⟩
  · intro i hi hw
    by_cases hiw : i = w+1
    · rw [hiw]
      exact ⟨d, dbSeg_update_self (w+1) d, hq.mono le_rfl (by omega)⟩
    · rw [hold i (by omega)]
      exact h.heads i hi (by omega)
  · intro _ e he
    rw [dbSeg_update_self] at he
    cases he
    exact hq.mono (Nat.zero_le _) le_rfl
  · intro i hi
    by_cases hiw : i = w+1
    · have := h.index_le
      omega
    · rw [Function.update_of_ne hiw] at hi
      have := h.dbs i hi
      omega

/-- Replace the contents of the write file. -/
def setWriteData (conf : UcmqConf) (s : Store) (d : Region) : Store :=
  { s with dir := s.dir.setDb s.q.curWdb.curIndex (some ⟨maxDbFileSize conf, d⟩) }

/-- A live writer's mapping writes to its file. -/
theorem mapWrite_of_live (hw : WriterLive s) (hd : dbSeg conf s.dir.db s.q.curWdb.curIndex = some d)
    {p : ℕ} {bs : List UInt8} (hp : p+bs.length ≤ maxDbFileSize conf) :
    s.mapWrite conf s.q.curWdb.mapMem p bs = .ok (setWriteData conf s (writeAt d p bs)) := by
  obtain ⟨b, hb, hm⟩ := hw
  obtain ⟨f, hf, hs, rfl⟩ := dbSeg_eq_some.mp hd
  have hroom : ¬(f.size < maxDbFileSize conf ∨ maxDbFileSize conf < p+bs.length) := by omega
  rw [hs] at hroom
  simp only [Store.mapWrite, hb, Option.bind_some, hm, hf, setWriteData, hs]
  rw [if_neg hroom]

/-- A released mapping cannot be written. -/
theorem mapWrite_of_dead (hw : WriterDead s) (p : ℕ) (bs : List UInt8) :
    s.mapWrite conf s.q.curWdb.mapMem p bs = .error .segv := by
  obtain ⟨b, hb, -, hm⟩ := hw
  simp [Store.mapWrite, hb, hm]

/-- Contents of a file whose head was rewritten with a count. -/
def withHead (d : Region) (n : ℕ) : Region := writeAt d 0 (dbFileHead n)

/-- Behind the head the contents are as before. -/
theorem withHead_of_le {n k : ℕ} (hn : n < 2^32) (hk : 128 ≤ k) : withHead d n k = d k := by
  have hlen := length_dbFileHead (n := n) (by omega)
  exact writeAt_outside d (Or.inr (by omega))

/-- A head holds no mark of a frame. -/
theorem quiet_withHead (d : Region) {n : ℕ} (hn : n < 2^32) :
    Quiet msgHeadOfFirstMagicNum (withHead d n) 0 128 := by
  have hq := quiet_writeAt (d := d) (p := 0) (dbFileHead_ne_mark n)
  rwa [length_dbFileHead (by omega), Nat.zero_add] at hq

/-- The head is written through a live map. -/
theorem writeFileHead_of_live (hw : WriterLive s) (hn : s.q.curWdb.optCount < 2^32)
    (hd : dbSeg conf s.dir.db s.q.curWdb.curIndex = some d) :
    mqSmDbWriteFileHead conf s = .ok (setWriteData conf s (withHead d s.q.curWdb.optCount)) := by
  have hlen := length_dbFileHead (n := s.q.curWdb.optCount) (by omega)
  have hmin := le_maxDbFileSize conf
  exact mapWrite_of_live hw hd (by omega)

/-- Contents of a data file as `extend_file_size` leaves it: zeros up to a last '0'. -/
def blankData (conf : UcmqConf) : Region :=
  writeAt (fun _ => 0) (maxDbFileSize conf-1) (textBytes ['0'])

/-- A blank file holds no mark of a frame. -/
theorem quiet_blankData (conf : UcmqConf) (p e : ℕ) :
    Quiet msgHeadOfFirstMagicNum (blankData conf) p e := by
  intro k _ _
  by_cases hin : maxDbFileSize conf-1 ≤ k ∧ k < maxDbFileSize conf-1+(textBytes ['0']).length
  · refine writeAt_inside_forall _ (textBytes_ne_mark ?_) hin.1 hin.2
    intro c hc
    rw [List.mem_singleton.mp hc]
    rfl
  · rw [blankData, writeAt_outside _ (by omega)]
    decide

/-- Contents of a new write file with its head. -/
def freshData (conf : UcmqConf) : Region := withHead (blankData conf) 0

/-- A new write file holds no first magic byte. -/
theorem quiet_freshData (conf : UcmqConf) :
    Quiet msgHeadOfFirstMagicNum (freshData conf) 0 (maxDbFileSize conf) := by
  intro k hk he
  rcases Nat.lt_or_ge k 128 with hlt | hge
  · exact quiet_withHead _ (by decide) k hk hlt
  · rw [freshData, withHead_of_le (by decide) hge]
    exact quiet_blankData conf 0 (maxDbFileSize conf) k hk he

/-- The writer moved to a new file, before the record of it. -/
def nextWriter (conf : UcmqConf) (s : Store) : Store :=
  ⟨s.dir.setDb (s.q.curWdb.curIndex+1) (some ⟨maxDbFileSize conf, freshData conf⟩),
    (s.proc.openFd (.db (s.q.curWdb.curIndex+1))).mmap (s.q.curWdb.curIndex+1),
    { s.q with curWdb :=
      ⟨some s.proc.next, true, some (s.proc.next+1), 128, 0, s.q.curWdb.curIndex+1⟩ }⟩

/-- Releasing the write file changes no file. -/
theorem releaseWriteFile_dir (s : Store) : (releaseWriteFile s).dir = s.dir := by
  unfold releaseWriteFile
  split <;> rfl

/-- Releasing the write file keeps its index. -/
theorem releaseWriteFile_index (s : Store) :
    (releaseWriteFile s).q.curWdb.curIndex = s.q.curWdb.curIndex := by
  unfold releaseWriteFile
  split <;> rfl

/-- Creating a data file that does not exist yet. -/
theorem openDbFile_create (hok : sys.Ok) {i : ℕ} {dir : Dir} (hf : dir.db i = none) (proc : Proc) :
    mqSmOpenDbFile conf sys i .create dir proc = (some proc.next, some (proc.next+1),
      dir.setDb i (some ⟨maxDbFileSize conf, blankData conf⟩),
      (proc.openFd (.db i)).mmap i) := by
  have hmin := le_maxDbFileSize conf
  have hext : extendFileSize conf sys i DbFile.blank =
      some ⟨maxDbFileSize conf, blankData conf⟩ := by
    simp only [extendFileSize, hok.ftruncate, if_true, DbFile.blank]
    rw [if_neg (by omega)]
    simp [blankData]
  simp [mqSmOpenDbFile, hok.dbOpen, hf, hext, mapOpened, hok.mmap, Dir.setDb]

/-- Without storage a rotation ends after the write file was released. -/
theorem getNextWriteFile_of_low (hlow : storageLow conf sys = true) :
    getNextWriteFile conf sys s = .ok (false, releaseWriteFile s) := by
  simp [getNextWriteFile, hlow]

/-- With storage and no call failing a rotation moves the writer to a new file. -/
theorem getNextWriteFile_of_free (hok : sys.Ok) (hlow : storageLow conf sys = false)
    (hf : s.dir.db (s.q.curWdb.curIndex+1) = none) :
    getNextWriteFile conf sys s =
      .ok (true, (mqSmRtagWriteItem sys .nextWrite (nextWriter conf (releaseWriteFile s))).2) := by
  have hidx := releaseWriteFile_index s
  have hf' : (releaseWriteFile s).dir.db (s.q.curWdb.curIndex+1) = none := by
    rw [releaseWriteFile_dir]
    exact hf
  unfold getNextWriteFile
  generalize releaseWriteFile s = s₁ at hidx hf'
  simp only [hlow, openDbFile_create hok hf']
  rw [← hidx, if_neg (by decide), mqSmDbWriteFileHead]
  have hlen := length_dbFileHead (n := 0) (by decide)
  have hmin := le_maxDbFileSize conf
  rw [mapWrite_of_live (d := blankData conf)
    ⟨_, rfl, by simp⟩ (by simp [dbSeg]) (by simp only; omega)]
  simp only [setWriteData, nextWriter, freshData, withHead, Dir.setDb, Function.update_idem]
  rfl

/-- Rewriting the head of the write file keeps a queue sound. -/
theorem sound_setHead (h : Sound conf clean s finished pend)
    (hd : dbSeg conf s.dir.db s.q.curWdb.curIndex = some d) {n : ℕ} (hn : n < 2^32) :
    Sound conf clean (setWriteData conf s (withHead d n)) finished pend :=
  ⟨files_setHead h.files hd (quiet_withHead d hn) fun _ hk => (withHead_of_le hn hk).symm,
    h.held.congr rfl ⟨rfl, rfl, rfl⟩ ⟨rfl, rfl, rfl⟩, h.rcount,
    h.rtags, h.log, h.inRange⟩

/-- Rewriting the head of the write file needs no record. -/
theorem logged_setHead (hl : Logged conf s finished)
    (hd : dbSeg conf s.dir.db s.q.curWdb.curIndex = some d) {n : ℕ} (hn : n < 2^32) :
    Logged conf (setWriteData conf s (withHead d n)) finished := by
  have hsame : ∀ k, 128 ≤ k → d k = withHead d n k := fun k hk => (withHead_of_le hn hk).symm
  obtain ⟨t, rpos, e, ht, hr, hscan, hle, hq⟩ := hl
  have hge := hscan.le
  by_cases hrw : s.q.curRdb.curIndex = s.q.curWdb.curIndex
  · rw [hrw] at hr
    obtain rfl : e = d := Option.some.inj (hr.symm.trans hd)
    refine ⟨t, rpos, withHead e n, ht, ?_, hscan.congr fun k hk _ => hsame k hk, hle,
      hq.congr fun k hk _ => hsame k (by omega)⟩
    show dbSeg conf (Function.update s.dir.db _ _) s.q.curRdb.curIndex = _
    rw [hrw]
    exact dbSeg_update_self _ _
  · refine ⟨t, rpos, e, ht, ?_, hscan, hle, hq⟩
    show dbSeg conf (Function.update s.dir.db _ _) s.q.curRdb.curIndex = _
    rw [dbSeg_update_ne _ hrw]
    exact hr

/-- Nothing is released while the reader is in the write file. -/
theorem releaseWriteFile_of_eq (he : s.q.curRdb.curIndex = s.q.curWdb.curIndex) :
    releaseWriteFile s = s := by
  rw [releaseWriteFile, if_neg (by omega)]

/-- Behind the reader both the map and the descriptor are released. -/
theorem releaseWriteFile_of_lt (hlt : s.q.curRdb.curIndex < s.q.curWdb.curIndex) :
    releaseWriteFile s = { s with
      proc := (s.proc.munmap s.q.curWdb.mapMem).close s.q.curWdb.fd
      q := { s.q with curWdb := { s.q.curWdb with flag := false } } } := by
  rw [releaseWriteFile, if_pos hlt]

/-- Releasing the write file leaves a reader behind the writer its own file. -/
theorem writerDead_release (h : Held s) (hw : WriterLive s)
    (hlt : s.q.curRdb.curIndex < s.q.curWdb.curIndex) : WriterDead (releaseWriteFile s) := by
  obtain ⟨b, hb, hm⟩ := hw
  rw [releaseWriteFile_of_lt hlt]
  refine ⟨b, hb, by simpa using h.map_lt hm, ?_⟩
  simp only [Proc.close_maps]
  rw [Proc.munmap_maps_apply, if_pos hb]

/-- Released files are logged as before. -/
theorem logged_release (hl : Logged conf s finished) :
    Logged conf (releaseWriteFile s) finished := by
  unfold releaseWriteFile
  split <;> exact hl

/-- Releasing the write file leaves the position log open. -/
theorem logOpen_release (hfd : DataFd s.proc s.q.curWdb.fd) (h : LogOpen s) :
    LogOpen (releaseWriteFile s) := by
  unfold releaseWriteFile
  split
  · obtain ⟨fd, append, off, t, hlog, hlt, href, hrt, hoff⟩ := h
    refine ⟨fd, append, off, t, hlog, by simpa using hlt, ?_, hrt, hoff⟩
    have hne : s.q.curWdb.fd ≠ some fd := fun he => (hfd fd he).2 _ _ _ href
    rw [Proc.close_fds_apply, if_neg hne, Proc.munmap_fds]
    exact href
  · exact h

/-- Releasing the write file keeps a queue sound. -/
theorem sound_release (h : Sound conf clean s finished pend) (hw : WriterLive s) :
    Sound conf clean (releaseWriteFile s) finished pend := by
  rcases h.files.index_le.lt_or_eq with hlt | heq
  · have hdead := writerDead_release h.held hw hlt
    rw [releaseWriteFile_of_lt hlt] at hdead ⊢
    refine ⟨h.files, ⟨?_, h.held.shared, Or.inr hdead, ?_, ?_, ?_, ?_, h.held.sharedFd,
      fun hl => absurd hl hdead.not_live⟩, h.rcount, h.rtags, ?_,
      h.inRange.maxque_lt, h.inRange.delay_lt, h.inRange.wlock_ge, h.inRange.wlock_lt,
      h.inRange.wcount_lt⟩
    · intro _
      obtain ⟨a, ha, hm⟩ := h.held.rmap hlt
      refine ⟨a, ha, ?_⟩
      obtain ⟨b, hb, hmb⟩ := hw
      have hne : s.q.curWdb.mapMem ≠ some a := fun he => by
        rw [hb] at he
        cases he
        exact h.held.rmap_ne hlt hmb ha
      simp only [Proc.close_maps]
      rw [Proc.munmap_maps_apply, if_neg hne]
      exact hm
    · intro a ha
      simp only [Proc.close_next, Proc.munmap_next] at ha
      simp only [Proc.close_maps]
      rw [Proc.munmap_maps_apply, h.held.unused a ha, ite_self]
    · exact (h.held.rfd.munmap _).close _
    · exact (h.held.wfd.munmap _).close _
    · intro _
      obtain ⟨x, hx, hxr⟩ := h.held.ropen hlt
      obtain ⟨y, hy, hyw⟩ := h.held.wopen hw
      have hne : s.q.curWdb.fd ≠ some x := by
        rw [hy]
        rintro ⟨⟩
        rw [hxr] at hyw
        have := FdRef.db.inj (Option.some.inj hyw)
        omega
      refine ⟨x, hx, ?_⟩
      rw [Proc.close_fds_apply, if_neg hne, Proc.munmap_fds]
      exact hxr
    · have hlog := logOpen_release h.held.wfd h.log
      rwa [releaseWriteFile_of_lt hlt] at hlog
  · rw [releaseWriteFile_of_eq heq]
    exact h

/-- A writer in a new file leaves the position log open. -/
theorem logOpen_nextWriter (h : LogOpen s) : LogOpen (nextWriter conf s) := by
  obtain ⟨fd, append, off, t, hfd, hlt, href, hrt, hoff⟩ := h
  refine ⟨fd, append, off, t, hfd, ?_, ?_, hrt, hoff⟩
  · simp only [nextWriter, Proc.mmap_next, Proc.openFd_next]
    omega
  · simp only [nextWriter, Proc.mmap_fds, Proc.openFd_fds]
    rw [Function.update_of_ne (by omega)]
    exact href

/-- A writer in a new file keeps a clean queue sound. -/
theorem sound_nextWriter (h : Sound conf True s finished pend)
    (hw : s.q.curRdb.curIndex = s.q.curWdb.curIndex → WriterLive s) :
    Sound conf True (nextWriter conf s) finished pend ∧ WriterLive (nextWriter conf s) := by
  have hlive : WriterLive (nextWriter conf s) := ⟨s.proc.next+1, rfl, by simp [nextWriter]⟩
  have hle := h.files.index_le
  have hmaps : ∀ a i, s.proc.maps a = some i → (nextWriter conf s).proc.maps a = some i := by
    intro a i ha
    have := h.held.map_lt ha
    simp only [nextWriter, Proc.mmap_maps, Proc.openFd_maps, Proc.openFd_next]
    rw [Function.update_of_ne (by omega)]
    exact ha
  have hfds : ∀ fd i, DataFd s.proc fd → OpenFd s.proc fd i →
      OpenFd (nextWriter conf s).proc fd i := by
    rintro fd i hdata ⟨x, hx, hxi⟩
    have := (hdata x hx).1
    refine ⟨x, hx, ?_⟩
    simp only [nextWriter, Proc.mmap_fds, Proc.openFd_fds]
    rw [Function.update_of_ne (by omega)]
    exact hxi
  have hmin := le_maxDbFileSize conf
  refine ⟨⟨files_rotate h.files (quiet_freshData conf) le_rfl
    (show 128 ≤ maxDbFileSize conf by omega),
    ⟨?_, ?_, Or.inl hlive, ?_, ?_, ?_, ?_, ?_, ?_⟩, h.rcount, h.rtags, ?_, h.inRange.maxque_lt,
    h.inRange.delay_lt, h.inRange.wlock_ge, h.inRange.wlock_lt, Nat.two_pow_pos 32⟩, hlive⟩
  · intro _
    rcases hle.lt_or_eq with hlt | heq
    · obtain ⟨a, ha, hm⟩ := h.held.rmap hlt
      exact ⟨a, ha, hmaps a _ hm⟩
    · obtain ⟨b, hb, hm⟩ := hw heq
      refine ⟨b, (h.held.shared heq).trans hb, hmaps b _ ?_⟩
      rw [hm, ← heq]
      rfl
  · intro he
    have he' : s.q.curRdb.curIndex = s.q.curWdb.curIndex+1 := he
    omega
  · intro a ha
    simp only [nextWriter, Proc.mmap_next, Proc.openFd_next] at ha
    simp only [nextWriter, Proc.mmap_maps, Proc.openFd_maps, Proc.openFd_next]
    rw [Function.update_of_ne (by omega)]
    exact h.held.unused a (by omega)
  · exact (h.held.rfd.openFd _).mmap _
  · exact (dataFd_openFd_db _ _).mmap _
  · intro _
    rcases hle.lt_or_eq with hlt | heq
    · exact hfds _ _ h.held.rfd (h.held.ropen hlt)
    · have hopen := h.held.wopen (hw heq)
      rw [← heq, ← h.held.sharedFd heq] at hopen
      exact hfds _ _ h.held.rfd hopen
  · intro he
    have he' : s.q.curRdb.curIndex = s.q.curWdb.curIndex+1 := he
    omega
  · exact fun _ => ⟨s.proc.next, rfl, by simp [nextWriter]⟩
  · exact logOpen_nextWriter h.log

/-- The state after a message was written to the write file. -/
def appendMsg (conf : UcmqConf) (s : Store) (d : Region) (m : Msg conf) : Store :=
  { setWriteData conf s (writeAt d s.q.curWdb.pos (msgBytes m.item)) with q := { s.q with
    curWdb := { s.q.curWdb with
      pos := s.q.curWdb.pos+(m.body.length+12)
      optCount := u32 (s.q.curWdb.optCount+1) }
    putNum := s.q.putNum+1 } }

/-- A message is copied through a live map. -/
theorem writeMsgBytes_of_live (hw : WriterLive s)
    (hd : dbSeg conf s.dir.db s.q.curWdb.curIndex = some d)
    (hfit : s.q.curWdb.pos+(m.body.length+12) ≤ maxDbFileSize conf) :
    writeMsgBytes conf m.item s = .ok (appendMsg conf s d m) := by
  have hlen := length_msgBytes m
  have hmax := maxDbFileSize_le conf
  have hu : u32 (s.q.curWdb.pos+(m.body.length+12)) = s.q.curWdb.pos+(m.body.length+12) :=
    u32_of_lt (by omega)
  rw [writeMsgBytes, mapWrite_of_live hw hd (by omega), appendMsg, ← hu]
  rfl

/-- Copying through a released map is a fault. -/
theorem writeMsgBytes_of_dead (hw : WriterDead s) (item : MsgItem) :
    writeMsgBytes conf item s = .error .segv := by
  rw [writeMsgBytes, mapWrite_of_dead hw]
  rfl

/-- A written message is the newest unread one. -/
theorem sound_appendMsg (h : Sound conf clean s finished pend)
    (hd : dbSeg conf s.dir.db s.q.curWdb.curIndex = some d)
    (hfit : s.q.curWdb.pos+(m.body.length+12) ≤ maxDbFileSize conf) :
    Sound conf clean (appendMsg conf s d m) finished (pend ++ [m]) :=
  ⟨files_append h.files hd hfit, h.held.congr rfl ⟨rfl, rfl, rfl⟩ ⟨rfl, rfl, rfl⟩, h.rcount,
    h.rtags, h.log, h.inRange.maxque_lt, h.inRange.delay_lt, h.inRange.wlock_ge, h.inRange.wlock_lt,
    u32_lt _⟩

/-- The state in which a rotation asks for storage. -/
def rotating (conf : UcmqConf) (s : Store) (d : Region) : Store :=
  releaseWriteFile (setWriteData conf s (withHead d s.q.curWdb.optCount))

/-- What writing a message to a sound queue can return. -/
inductive WriteResult (conf : UcmqConf) (sys : Sys) (s : Store) (m : Msg conf) :
    Except Fault (Bool × Store) → Prop
  | fault (hdead : WriterDead s) : WriteResult conf sys s m (.error .segv)
  | refused {d : Region} (hw : WriterLive s) (hd : dbSeg conf s.dir.db s.q.curWdb.curIndex = some d)
      (hrot : needsRotation conf s.q m.body.length) (hlow : storageLow conf sys = true) :
      WriteResult conf sys s m (.ok (false, rotating conf s d))
  | appended {d : Region} (hw : WriterLive s)
      (hd : dbSeg conf s.dir.db s.q.curWdb.curIndex = some d)
      (hfit : ¬needsRotation conf s.q m.body.length) :
      WriteResult conf sys s m (.ok (true, appendMsg conf s d m))
  | rotated {d : Region} {s₁ : Store} (hw : WriterLive s)
      (hd : dbSeg conf s.dir.db s.q.curWdb.curIndex = some d)
      (hrot : needsRotation conf s.q m.body.length) (hlow : storageLow conf sys = false)
      (hrec : Recorded (nextWriter conf (rotating conf s d)) s₁) :
      WriteResult conf sys s m (.ok (true, appendMsg conf s₁ (freshData conf) m))

/-- On a sound queue the rotation test is exact. -/
theorem needsRotation_iff (h : Files conf clean db r rpos w wpos finished pend) {q : MqQueue}
    (hw : q.curWdb.pos = wpos) (m : Msg conf) :
    needsRotation conf q m.body.length ↔ maxDbFileSize conf < wpos+(m.body.length+12) := by
  have := h.wpos_le
  have := maxDbFileSize_le conf
  have := m.body_lt
  rw [needsRotation, u32_of_lt (by omega)]
  omega

/-- The index of the file that is left. -/
theorem rotating_index (conf : UcmqConf) (s : Store) (d : Region) :
    (rotating conf s d).q.curWdb.curIndex = s.q.curWdb.curIndex := releaseWriteFile_index _

/-- The head is all that is written before the file is left. -/
theorem rotating_dir (conf : UcmqConf) (s : Store) (d : Region) :
    (rotating conf s d).dir = s.dir.setDb s.q.curWdb.curIndex
      (some ⟨maxDbFileSize conf, withHead d s.q.curWdb.optCount⟩) := releaseWriteFile_dir _

/-- A queue that asks for storage is sound. Its write file is still mapped
exactly when the reader is in it. -/
theorem sound_rotating (h : Sound conf clean s finished pend) (hw : WriterLive s)
    (hd : dbSeg conf s.dir.db s.q.curWdb.curIndex = some d) :
    Sound conf clean (rotating conf s d) finished pend ∧
      (s.q.curRdb.curIndex = s.q.curWdb.curIndex → WriterLive (rotating conf s d)) ∧
      (s.q.curRdb.curIndex < s.q.curWdb.curIndex → WriterDead (rotating conf s d)) := by
  have hs := sound_setHead h hd h.inRange.wcount_lt
  refine ⟨sound_release hs hw, ?_, fun hlt => writerDead_release hs.held hw hlt⟩
  intro he
  rw [rotating, releaseWriteFile_of_eq (by exact he)]
  exact hw

/-- The log is the one before. -/
theorem logged_rotating (h : Sound conf clean s finished pend) (hl : Logged conf s finished)
    (hd : dbSeg conf s.dir.db s.q.curWdb.curIndex = some d) :
    Logged conf (rotating conf s d) finished :=
  logged_release (logged_setHead hl hd h.inRange.wcount_lt)

/-- The reader's file in a queue that asks for storage. -/
theorem rotating_rindex (conf : UcmqConf) (s : Store) (d : Region) :
    (rotating conf s d).q.curRdb = s.q.curRdb := by
  unfold rotating releaseWriteFile
  split <;> rfl

/-- The write cursor of a queue that asks for storage was not moved. -/
theorem rotating_wcursor (conf : UcmqConf) (s : Store) (d : Region) :
    (rotating conf s d).q.curWdb.pos = s.q.curWdb.pos ∧
      (rotating conf s d).q.curWdb.optCount = s.q.curWdb.optCount := by
  unfold rotating releaseWriteFile
  split <;> exact ⟨rfl, rfl⟩

/-- The writer moved to a new file keeps a sound queue sound. -/
theorem sound_rotated {s₁ : Store} (h : Sound conf True s finished pend) (hw : WriterLive s)
    (hd : dbSeg conf s.dir.db s.q.curWdb.curIndex = some d)
    (hrec : Recorded (nextWriter conf (rotating conf s d)) s₁) :
    Sound conf True s₁ finished pend ∧ Logged conf s₁ finished ∧ WriterLive s₁ := by
  obtain ⟨hs, hlive, -⟩ := sound_rotating h hw hd
  obtain ⟨hn, hnw⟩ := sound_nextWriter hs fun he => hlive (by
    rwa [rotating_rindex, rotating_index] at he)
  obtain ⟨hs₁, hl₁⟩ := hn.recorded hrec
  exact ⟨hs₁, hl₁, hrec.writerLive hnw⟩

/-- After a rotation the write cursor is at the start of an empty file. -/
theorem fresh_of_recorded {s₀ s₁ : Store} (hrec : Recorded (nextWriter conf s₀) s₁) :
    s₁.q.curWdb.pos = 128 ∧ dbSeg conf s₁.dir.db s₁.q.curWdb.curIndex = some (freshData conf) := by
  rw [hrec.q, hrec.db]
  exact ⟨rfl, dbSeg_update_self _ _⟩

/-- A message that fits is copied to the write file. -/
theorem writeMsg_of_fit {item : MsgItem} (hfit : ¬needsRotation conf s.q item.len)
    (hm : writeMsgBytes conf item s = .ok s') :
    mqSmDbWriteMsg conf sys item s = .ok (true, s') := by
  rw [mqSmDbWriteMsg, if_neg hfit, hm]
  rfl

/-- One that does not fit is refused without a next file. -/
theorem writeMsg_of_refused {item : MsgItem} {s₁ s₂ : Store}
    (hrot : needsRotation conf s.q item.len) (hh : mqSmDbWriteFileHead conf s = .ok s₁)
    (hn : getNextWriteFile conf sys s₁ = .ok (false, s₂)) :
    mqSmDbWriteMsg conf sys item s = .ok (false, s₂) := by
  rw [mqSmDbWriteMsg, if_pos hrot, hh]
  simp only [bind, Except.bind, hn]

/-- Otherwise it is copied to the next file. -/
theorem writeMsg_of_rotated {item : MsgItem} {s₁ s₂ s₃ : Store}
    (hrot : needsRotation conf s.q item.len) (hh : mqSmDbWriteFileHead conf s = .ok s₁)
    (hn : getNextWriteFile conf sys s₁ = .ok (true, s₂))
    (hm : writeMsgBytes conf item s₂ = .ok s₃) :
    mqSmDbWriteMsg conf sys item s = .ok (true, s₃) := by
  rw [mqSmDbWriteMsg, if_pos hrot, hh]
  simp only [bind, Except.bind, hn, hm]

/-- No message can be written through a released mapping. -/
theorem writeMsg_of_dead (hw : WriterDead s) (item : MsgItem) :
    mqSmDbWriteMsg conf sys item s = .error .segv := by
  rw [mqSmDbWriteMsg, writeMsgBytes_of_dead hw, mqSmDbWriteFileHead, mapWrite_of_dead hw]
  split <;> rfl

/-- Writing a message to a clean sound queue. -/
theorem writeResult_of_sound (h : Sound conf True s finished pend) (hok : sys.Ok) (m : Msg conf) :
    WriteResult conf sys s m (mqSmDbWriteMsg conf sys m.item s) := by
  obtain ⟨d, hd, -⟩ := h.files.heads s.q.curWdb.curIndex h.files.index_le le_rfl
  have hiff := needsRotation_iff h.files rfl m
  rcases h.held.wmap with hw | hdead
  · by_cases hrot : needsRotation conf s.q m.body.length
    · have hhead := writeFileHead_of_live hw h.inRange.wcount_lt hd
      cases hlow : storageLow conf sys with
      | true =>
        rw [writeMsg_of_refused hrot hhead (getNextWriteFile_of_low hlow)]
        exact .refused hw hd hrot hlow
      | false =>
        obtain ⟨hs, hlive, -⟩ := sound_rotating h hw hd
        have hnone : (setWriteData conf s (withHead d s.q.curWdb.optCount)).dir.db
            (s.q.curWdb.curIndex+1) = none := by
          by_contra hne
          have := hs.files.dbs (s.q.curWdb.curIndex+1) (by rw [rotating_dir]; exact hne)
          rw [rotating_index] at this
          omega
        have hnext :
          getNextWriteFile conf sys (setWriteData conf s (withHead d s.q.curWdb.optCount)) =
            .ok (true, (mqSmRtagWriteItem sys .nextWrite
              (nextWriter conf (rotating conf s d))).2) :=
          getNextWriteFile_of_free hok hlow hnone
        obtain ⟨hn, -⟩ := sound_nextWriter hs fun he => hlive (by
          rwa [rotating_rindex, rotating_index] at he)
        have hrec := @rtagWriteItem_recorded sys _ hok .nextWrite hn.log hn.typed
        generalize (mqSmRtagWriteItem sys _ _).2 = s₁ at hnext hrec
        obtain ⟨-, -, hw₁⟩ := sound_rotated h hw hd hrec
        obtain ⟨hpos, hseg⟩ := fresh_of_recorded hrec
        have hle := m.body_le
        have hmin := le_maxDbFileSize conf
        rw [writeMsg_of_rotated hrot hhead hnext (writeMsgBytes_of_live hw₁ hseg (by omega))]
        exact .rotated hw hd hrot hlow hrec
    · have hroom := mt hiff.mpr hrot
      rw [writeMsg_of_fit hrot (writeMsgBytes_of_live hw hd (by omega))]
      exact .appended hw hd hrot
  · rw [writeMsg_of_dead hdead]
    exact .fault hdead

/-- A message accepted by a sound queue is its newest unread one. -/
theorem sound_of_stored (h : Sound conf True s finished pend)
    (hr : WriteResult conf sys s m (.ok (true, s'))) :
    Sound conf True s' finished (pend ++ [m]) ∧ WriterLive s' := by
  cases hr with
  | appended hw hd hfit =>
    have hroom := mt (needsRotation_iff h.files rfl m).mpr hfit
    exact ⟨sound_appendMsg h hd (by omega), hw⟩
  | @rotated d s₁ hw hd hrot hlow hrec =>
    obtain ⟨hs, -, hw₁⟩ := sound_rotated h hw hd hrec
    obtain ⟨hpos, hseg⟩ := fresh_of_recorded hrec
    have hle := m.body_le
    have hmin := le_maxDbFileSize conf
    exact ⟨sound_appendMsg hs hseg (by omega), hw₁⟩

end Ucmq.WritePath
