import Ucmq.HandleFile
import Ucmq.WritePath
import Mathlib.Algebra.Order.BigOperators.Group.List

/-!
# Loading a queue from its directory

A directory is restorable when its data files and the last record of its
position log agree on the messages between two cursors. Loading it gives a
sound and logged queue with exactly these cursors, in whatever order its files
are listed. The count of unread messages after loading is right when every
stored head count is zero or right.
-/

namespace Ucmq.Recovery

open ByteRegion FramedLog DecimalText StoreConfig StoreMsg StoreState StoreRtag StoreFile
open StoreManage QueueManage StoreInvariant ReadPath WritePath HandleFile

variable {conf : UcmqConf} {sys : Sys} {clean : Prop} {s s' : Store} {dir : Dir}
variable {r w : ℕ} {item : RtagItem} {finished pend : List (Msg conf)} {listing : List Fname}

/-- A directory from which a queue can be loaded with the cursors of its last
position record. -/
structure Restorable (conf : UcmqConf) (clean : Prop) (dir : Dir) (r w : ℕ) (item : RtagItem)
    (finished pend : List (Msg conf)) : Prop where
  files : Files conf clean dir.db r item.rpos w item.wpos finished pend
  rcount : finished.length = item.rcount
  rtags : ∀ i, dir.rtag i ≠ none → i = r
  log : ∃ t, dir.rtag r = some (t ++ rtagText item) ∧ (t ++ rtagText item).length < 2^31
  maxqueue_lt : item.maxqueue < 2^32
  delay_lt : item.delay < 2^32
  wlock_ge : -2^31 ≤ item.wlock
  wlock_lt : item.wlock < 2^31
  windex_lt : w < 10^12

/-- The data files of a sound queue. -/
theorem hasDbs_of_files {db : ℕ → Option DbFile} {rpos wpos : ℕ} (hd : dir.db = db)
    (h : Files conf clean db r rpos w wpos finished pend) : HasDbs dir r w := by
  intro i
  rw [hd]
  constructor
  · intro hs
    exact h.dbs i (by rw [Option.isSome_iff_ne_none] at hs; exact hs)
  · rintro ⟨hr, hw⟩
    obtain ⟨d, hd, -⟩ := h.heads i hr hw
    obtain ⟨f, hf, -, -⟩ := dbSeg_eq_some.mp hd
    rw [hf]
    rfl

/-- The only log is that of the first file. -/
theorem hasRtag_of_log (hr : ∀ i, dir.rtag i ≠ none → i = r) {t : List Char}
    (ht : dir.rtag r = some t) : HasRtag dir r := by
  intro i
  rw [Option.isSome_iff_ne_none]
  constructor
  · exact hr i
  · rintro rfl
    rw [ht]
    exact Option.some_ne_none t

/-- The directory of a sound and logged queue is restorable. -/
theorem restorable_of_logged (h : Sound conf clean s finished pend) (hl : Logged conf s finished)
    (hlen : ∀ t, s.dir.rtag s.q.curRdb.curIndex = some t → t.length < 2^31)
    (hw : s.q.curWdb.curIndex < 10^12) :
    ∃ rpos, Restorable conf clean s.dir s.q.curRdb.curIndex s.q.curWdb.curIndex
      { rtagItem s.q with rpos := rpos } finished pend := by
  obtain ⟨t, rpos, d, ht, hd, hscan, hle, hquiet⟩ := hl
  refine ⟨rpos, ⟨?_, h.rcount, h.rtags, ⟨t, ht, hlen _ ht⟩, h.inRange.maxque_lt, h.inRange.delay_lt,
    h.inRange.wlock_ge, h.inRange.wlock_lt, hw⟩⟩
  have hf := h.files
  exact ⟨hf.chain.unskip hd hle hquiet, hscan.le, hf.wpos_ge, hf.wpos_le, ⟨d, hd, hscan⟩, hf.heads,
    hf.tail, hf.dbs⟩

/-- Descriptors and mappings of a loaded queue. -/
def restoredProc (r w : ℕ) : Proc :=
  let proc := ((Proc.empty.openFd (.rtag r true 0)).openFd (.db w)).mmap w
  if r = w then proc else (proc.openFd (.db r)).mmap r

/-- Record of a loaded queue. -/
def restoredQueue (r w : ℕ) (item : RtagItem) : MqQueue :=
  { MqQueue.zero with
    rtagFd := some 0
    wlock := item.wlock
    delay := item.delay
    maxque := item.maxqueue
    curRdb := if r = w then ⟨some 1, true, some 2, item.rpos, item.rcount, r⟩
      else ⟨some 3, true, some 4, item.rpos, item.rcount, r⟩
    curWdb := ⟨some 1, true, some 2, item.wpos, 0, w⟩ }

/-- The record is in range. -/
theorem Restorable.typed (h : Restorable conf clean dir r w item finished pend) : item.Typed := by
  have hc := h.files.finished_le
  have hr := h.files.rpos_le
  have hw := h.files.wpos_le
  have hm := maxDbFileSize_le conf
  have hn := h.rcount
  exact ⟨by omega, by omega, by omega, h.maxqueue_lt, h.delay_lt, h.wlock_ge, h.wlock_lt⟩

/-- It passes its check. -/
theorem Restorable.check (h : Restorable conf clean dir r w item finished pend) :
    checkRtagItem conf item = true := by
  have hc := h.files.finished_le
  have hr := h.files.rpos_le
  have hw := h.files.wpos_le
  have hn := h.rcount
  simp only [checkRtagItem, decide_eq_true_eq]
  omega

/-- A directory that is loaded with the cursors of its last position record,
whatever these are. -/
structure Loadable (conf : UcmqConf) (dir : Dir) (r w : ℕ) (item : RtagItem) : Prop where
  le : r ≤ w
  dbs : HasDbs dir r w
  sizes : ∀ i f, dir.db i = some f → f.size = maxDbFileSize conf
  rtag : HasRtag dir r
  log : ∃ t, dir.rtag r = some (t ++ rtagText item) ∧ (t ++ rtagText item).length < 2^31
  typed : item.Typed
  check : checkRtagItem conf item = true
  windex_lt : w < 10^12

/-- A directory that holds a queue is loaded. -/
theorem Restorable.loadable (h : Restorable conf clean dir r w item finished pend) :
    Loadable conf dir r w item := by
  obtain ⟨t, ht, hlen⟩ := h.log
  refine ⟨h.files.index_le, hasDbs_of_files rfl h.files, ?_, hasRtag_of_log h.rtags ht,
    ⟨t, ht, hlen⟩, h.typed, h.check, h.windex_lt⟩
  intro i f hf
  obtain ⟨hr, hw⟩ := h.files.dbs i (by rw [hf]; exact Option.some_ne_none f)
  obtain ⟨d, hd, -⟩ := h.files.heads i hr hw
  obtain ⟨f', hf', hsize, -⟩ := dbSeg_eq_some.mp hd
  rw [hf] at hf'
  cases hf'
  exact hsize

/-- A log of some length is opened. -/
theorem rtagOpenFile_of_log (hok : sys.Ok) {t : List Char} (ht : dir.rtag r = some t)
    (hpos : 0 < t.length) (hlen : t.length < 2^31) (proc : Proc) :
    mqSmRtagOpenFile sys r dir proc = some (t, proc.openFd (.rtag r true 0)) := by
  have hi : toI32 (t.length : ℤ) = t.length := toI32_of_bounds (by omega) (by omega)
  simp only [mqSmRtagOpenFile, ht, hi, hok.rtagOpen, if_true]
  rw [if_neg (by omega)]

/-- Files chosen as in a loadable directory are loaded with the cursors of the
last record, whatever other position logs there are. -/
theorem openQueue_of_found {d : Dir} (h : Loadable conf dir r w item) (hok : sys.Ok)
    (hdb : d.db = dir.db) (hrt : d.rtag r = dir.rtag r)
    (hfind : findHandleFile sys listing = some ⟨.rtag r, .db r, .db w⟩) :
    openQueue conf sys listing d = (some (restoredQueue r w item), restoredProc r w) := by
  obtain ⟨t, ht, hlen⟩ := h.log
  have hrw := h.le
  have hwlt := h.windex_lt
  rw [← hrt] at ht
  have hid : ∀ i, i ≤ w → getIdByFname (.db i) = i := fun i hi =>
    getIdByFname_eq (.db i) (Or.inl rfl) (by omega)
  have hfile : ∀ i, r ≤ i → i ≤ w → ∃ f, d.db i = some f ∧ f.size = maxDbFileSize conf := by
    intro i hr hw
    rw [hdb]
    obtain ⟨f, hf⟩ := Option.isSome_iff_exists.mp ((h.dbs i).mpr ⟨hr, hw⟩)
    exact ⟨f, hf, h.sizes i f hf⟩
  obtain ⟨fw, hfw, hszw⟩ := hfile w hrw le_rfl
  obtain ⟨fr, hfr, hszr⟩ := hfile r le_rfl hrw
  have hpos : 0 < (t ++ rtagText item).length := by
    rw [List.length_append, length_rtagText h.typed]
    omega
  rw [openQueue, hfind]
  simp only [fnameIndex, rtagOpenFile_of_log hok ht hpos hlen, mqSmRtagReadItem,
    rtagReadLoop_last h.typed h.check t hlen]
  unfold mqSmOpenDb
  simp only [hid r hrw, hid w le_rfl, fnameIndex, openDbFile_open hok hfw hszw,
    openDbFile_open hok hfr hszr, setRtagItem, MqQueue.zero, MqDbMap.zero]
  by_cases heq : r = w
  · simp [heq, restoredQueue, restoredProc, MqQueue.zero, Proc.empty, Proc.openFd, Proc.mmap]
  · simp [heq, restoredQueue, restoredProc, MqQueue.zero, Proc.empty, Proc.openFd, Proc.mmap]

/-- A loadable directory is loaded with the cursors of its last record. -/
theorem openQueue_of_loadable (h : Loadable conf dir r w item) (hok : sys.Ok)
    (hl : IsListing dir listing) :
    openQueue conf sys listing dir = (some (restoredQueue r w item), restoredProc r w) :=
  openQueue_of_found h hok rfl rfl (findHandleFile_of_layout hl h.dbs h.rtag h.le h.windex_lt)

/-- The queue loaded from a restorable directory. -/
def restored (dir : Dir) (r w : ℕ) (item : RtagItem) : Store :=
  ⟨dir, restoredProc r w, restoredQueue r w item⟩

/-- The read file is the least data file. -/
theorem restored_rindex : (restored dir r w item).q.curRdb.curIndex = r := by
  simp only [restored, restoredQueue]
  split <;> rfl

/-- The read position is that of the record. -/
theorem restored_rpos : (restored dir r w item).q.curRdb.pos = item.rpos := by
  simp only [restored, restoredQueue]
  split <;> rfl

/-- So is the read count. -/
theorem restored_rcount : (restored dir r w item).q.curRdb.optCount = item.rcount := by
  simp only [restored, restoredQueue]
  split <;> rfl

/-- The queue would record what was read. -/
theorem restored_rtagItem : rtagItem (restored dir r w item).q = item := by
  simp only [rtagItem, restored_rpos, restored_rcount]
  rfl

/-- The write file is mapped second. -/
theorem restoredProc_maps_two : (restoredProc r w).maps 2 = some w := by
  unfold restoredProc
  split <;> simp [Proc.empty]

/-- The writer has it mapped. -/
theorem restored_writerLive : WriterLive (restored dir r w item) :=
  ⟨2, rfl, restoredProc_maps_two⟩

/-- Every descriptor of the queue is open. -/
theorem restored_held : Held (restored dir r w item) := by
  refine ⟨?_, ?_, Or.inl restored_writerLive, ?_, ?_, ?_, ?_, ?_, ?_⟩
  · rw [restored_rindex]
    intro hlt
    have hne : r ≠ w := Nat.ne_of_lt hlt
    exact ⟨4, by simp [restored, restoredQueue, hne], by
      simp [restored, restoredProc, hne, Proc.empty]⟩
  · rw [restored_rindex]
    intro he
    have he' : r = w := he
    simp [restored, restoredQueue, he']
  · intro a ha
    by_cases he : r = w
    · simp only [restored, restoredProc, he, if_true] at ha ⊢
      simp only [Proc.mmap_next, Proc.openFd_next, Proc.empty] at ha
      simp only [Proc.mmap_maps, Proc.openFd_maps, Proc.openFd_next, Proc.empty]
      rw [Function.update_of_ne (by omega)]
    · simp only [restored, restoredProc, he, if_false] at ha ⊢
      simp only [Proc.mmap_next, Proc.openFd_next, Proc.empty] at ha
      simp only [Proc.mmap_maps, Proc.openFd_maps, Proc.openFd_next, Proc.mmap_next, Proc.empty]
      rw [Function.update_of_ne (by omega), Function.update_of_ne (by omega)]
  · intro x hx
    by_cases he : r = w
    · simp only [restored, restoredQueue, he, if_true, Option.some.injEq] at hx
      subst hx
      simp [restored, restoredProc, he, Proc.empty]
    · simp only [restored, restoredQueue, he, if_false, Option.some.injEq] at hx
      subst hx
      simp [restored, restoredProc, he, Proc.empty]
  · intro x hx
    simp only [restored, restoredQueue, Option.some.injEq] at hx
    subst hx
    by_cases he : r = w <;> simp [restored, restoredProc, he, Proc.empty]
  · rw [restored_rindex]
    intro hlt
    have hne : r ≠ w := Nat.ne_of_lt hlt
    exact ⟨3,
      by simp [restored, restoredQueue, hne], by simp [restored, restoredProc, hne, Proc.empty]⟩
  · rw [restored_rindex]
    intro he
    have he' : r = w := he
    simp [restored, restoredQueue, he']
  · intro _
    refine ⟨1, rfl, ?_⟩
    by_cases he : r = w <;> simp [restored, restoredProc, restoredQueue, he, Proc.empty]

/-- The position log of a loaded queue is open for appending. -/
theorem logOpen_restored {t : List Char} (ht : dir.rtag r = some t) :
    LogOpen (restored dir r w item) := by
  refine ⟨0, true, 0, t, rfl, ?_, ?_, ?_, Or.inl rfl⟩
  · by_cases he : r = w <;> simp [restored, restoredProc, he]
  · rw [restored_rindex]
    by_cases he : r = w <;> simp [restored, restoredProc, he, Proc.empty]
  · rw [restored_rindex]
    exact ht

/-- A queue loaded from a restorable directory is sound and logged. -/
theorem sound_restored (h : Restorable conf clean dir r w item finished pend) :
    Sound conf clean (restored dir r w item) finished pend ∧
      Logged conf (restored dir r w item) finished := by
  obtain ⟨t, ht, hlen⟩ := h.log
  obtain ⟨d, hd, hscan⟩ := h.files.read
  have hfiles :
    Files conf clean (restored dir r w item).dir.db (restored dir r w item).q.curRdb.curIndex
      (restored dir r w item).q.curRdb.pos (restored dir r w item).q.curWdb.curIndex
      (restored dir r w item).q.curWdb.pos finished pend := by
    rw [restored_rindex, restored_rpos]
    exact h.files
  have hlog := @logOpen_restored _ _ w item _ ht
  refine ⟨⟨hfiles, restored_held, by rw [restored_rcount]; exact h.rcount, ?_, hlog, h.maxqueue_lt,
    h.delay_lt, h.wlock_ge, h.wlock_lt, Nat.two_pow_pos 32⟩, ?_⟩
  · rw [restored_rindex]
    exact h.rtags
  · refine ⟨t, item.rpos, d, ?_, ?_, hscan, ?_, ?_⟩
    · rw [restored_rindex, restored_rtagItem]
      exact ht
    · rw [restored_rindex]
      exact hd
    · rw [restored_rpos]
    · rw [restored_rpos]
      exact fun i _ _ => by omega

/-- Stored head counts are zero or the number of messages of their file. -/
def HonestHeads (conf : UcmqConf) (db : ℕ → Option DbFile) (r w wpos : ℕ) : Prop :=
  ∀ i d, r ≤ i → i ≤ w → dbSeg conf db i = some d → dbFileHeadCount d = 0 ∨
    dbFileHeadCount d = mqSmDbCalMsgCount conf d (if i = w then wpos else maxDbFileSize conf)

/-- Every message of the files of a queue is finished or unread. -/
theorem files_whole {db : ℕ → Option DbFile} {rpos wpos : ℕ}
    (h : Files conf clean db r rpos w wpos finished pend) :
    Unread conf db w wpos r 128 (finished ++ pend) := by
  obtain ⟨d, hd, hscan⟩ := h.read
  exact h.chain.unread hd hscan

/-- End of the messages of a data file. -/
def dbFileEnd (conf : UcmqConf) (w wpos i : ℕ) : ℕ := if i = w then wpos else maxDbFileSize conf

/-- Number of messages of a data file. -/
def exactCount (conf : UcmqConf) (db : ℕ → Option DbFile) (w wpos i : ℕ) : ℤ :=
  match dbSeg conf db i with
  | some d => mqSmDbCalMsgCount conf d (dbFileEnd conf w wpos i)
  | none => 0

/-- The files of a queue hold its finished and its unread messages. -/
theorem sum_exactCount {db : ℕ → Option DbFile} {rpos wpos : ℕ}
    (h : Files conf clean db r rpos w wpos finished pend) :
    ((List.range' r (w+1-r)).map (exactCount conf db w wpos)).sum =
      finished.length+pend.length := by
  have hsum := (files_whole h).sum_counts (f := exactCount conf db w wpos) rfl ?_ ?_
  · rw [hsum, List.length_append]
    rfl
  · intro d ms hd hs
    obtain ⟨e, he, hq⟩ := h.heads w h.index_le le_rfl
    obtain rfl : e = d := Option.some.inj (he.symm.trans hd)
    simp only [exactCount, hd, dbFileEnd, if_true]
    rw [mqSmDbCalMsgCount_scans h.wpos_le hq hs]
  · intro j d ms hj hjw hd hs
    obtain ⟨e, he, hq⟩ := h.heads j hj hjw.le
    obtain rfl : e = d := Option.some.inj (he.symm.trans hd)
    simp only [exactCount, hd, dbFileEnd, Nat.ne_of_lt hjw, if_false]
    rw [mqSmDbCalMsgCount_scans le_rfl hq hs]

/-- Each file holds fewer messages than the limit a head count has to respect. -/
theorem calMsgCount_lt {db : ℕ → Option DbFile} {rpos wpos i : ℕ} {d : Region}
    (h : Files conf clean db r rpos w wpos finished pend) (hi : r ≤ i) (hw : i ≤ w)
    (hd : dbSeg conf db i = some d) :
    mqSmDbCalMsgCount conf d (dbFileEnd conf w wpos i) < maxDbFileSize conf/12 := by
  obtain ⟨e, he, hq⟩ := h.heads i hi hw
  obtain rfl : e = d := Option.some.inj (he.symm.trans hd)
  obtain ⟨ms, hs⟩ := (files_whole h).scans_segment rfl hi hw hd
  have hend : dbFileEnd conf w wpos i ≤ maxDbFileSize conf := by
    have := h.wpos_le
    unfold dbFileEnd
    split <;> omega
  have hs' : (msgFraming conf).Scans e 128 ms (dbFileEnd conf w wpos i) := hs
  have hroom := hs'.length_mul_le
  simp only [msgFraming_headLen] at hroom
  rw [mqSmDbCalMsgCount_scans hend hq hs']
  omega

/-- The write file has a quiet head, and frames up to the write cursor. -/
theorem files_write_scans {db : ℕ → Option DbFile} {rpos wpos : ℕ} {d : Region}
    (h : Files conf clean db r rpos w wpos finished pend) (hd : dbSeg conf db w = some d) :
    Quiet msgHeadOfFirstMagicNum d 0 128 ∧ ∃ ms, (msgFraming conf).Scans d 128 ms wpos := by
  obtain ⟨e, he, hq⟩ := h.heads w h.index_le le_rfl
  obtain rfl : e = d := Option.some.inj (he.symm.trans hd)
  obtain ⟨ms, hs⟩ := (files_whole h).scans_segment rfl h.index_le le_rfl hd
  rw [if_pos rfl] at hs
  exact ⟨hq, ms, hs⟩

/-- A scan of a whole write file finds at least the messages before the write
cursor, and no others when the file is clean. -/
theorem calMsgCount_whole {db : ℕ → Option DbFile} {rpos wpos : ℕ} {d : Region}
    (h : Files conf clean db r rpos w wpos finished pend) (hd : dbSeg conf db w = some d) :
    mqSmDbCalMsgCount conf d wpos ≤ mqSmDbCalMsgCount conf d (maxDbFileSize conf) ∧
      (clean → mqSmDbCalMsgCount conf d (maxDbFileSize conf) = mqSmDbCalMsgCount conf d wpos) := by
  obtain ⟨hq, ms, hs⟩ := files_write_scans h hd
  rw [mqSmDbCalMsgCount_scans h.wpos_le hq hs]
  constructor
  · have hle := @le_calMsgCountLoop conf _ _ _ h.wpos_le le_rfl (maxDbFileSize conf) 0 0 ms
      (by have := h.wpos_le; omega) (hs.unskip (by omega) hq)
    simpa [mqSmDbCalMsgCount] using hle
  · intro hcl
    exact mqSmDbCalMsgCount_scans le_rfl hq (hs.extend h.wpos_le (h.tail hcl d hd))

/-- The count taken for one file with an honest head. -/
theorem dbFileCount_of_honest {db : ℕ → Option DbFile} {rpos wpos i : ℕ} {d : Region} {q : MqQueue}
    (h : Files conf clean db r rpos w wpos finished pend) (hh : HonestHeads conf db r w wpos)
    (hr : q.curRdb.curIndex = r) (hw : q.curWdb.curIndex = w) (hwp : q.curWdb.pos = wpos)
    (hi : r ≤ i) (hiw : i ≤ w) (hd : dbSeg conf db i = some d) :
    (mqSmDbCalMsgCount conf d (dbFileEnd conf w wpos i) : ℤ) ≤ dbFileCount conf q d ∧
      (clean → dbFileCount conf q d = mqSmDbCalMsgCount conf d (dbFileEnd conf w wpos i)) := by
  have hlt := calMsgCount_lt h hi hiw hd
  by_cases hz : dbFileHeadCount d = 0
  · have hscan : dbFileCount conf q d = mqSmDbCalMsgCount conf d
        (if w = r then wpos else maxDbFileSize conf) := by
      simp only [dbFileCount, hz, hr, hw, hwp]
      rw [if_neg (by simp)]
      split <;> rfl
    rw [hscan, dbFileEnd]
    by_cases hwr : w = r
    · obtain rfl : i = w := by omega
      simp [hwr]
    · by_cases he : i = w
      · subst he
        obtain ⟨hle, heq⟩ := calMsgCount_whole h hd
        simp only [hwr, if_false, if_true]
        exact ⟨by exact_mod_cast hle, fun hcl => by exact_mod_cast heq hcl⟩
      · simp [hwr, he]
  · have hval : dbFileHeadCount d = mqSmDbCalMsgCount conf d (dbFileEnd conf w wpos i) :=
      (hh i d hi hiw hd).resolve_left hz
    have hcond : dbFileHeadCount d ≠ 0 ∧ dbFileHeadCount d < (maxDbFileSize conf/12 : ℕ) :=
      ⟨hz, by rw [hval]; omega⟩
    have hcount : dbFileCount conf q d = dbFileHeadCount d := by
      simp only [dbFileCount]
      rw [if_pos hcond]
    rw [hcount, hval]
    exact ⟨le_rfl, fun _ => rfl⟩

/-- A directory of that layout can be listed. -/
theorem isListing_layout (hdb : HasDbs dir r w) (hrt : HasRtag dir r) :
    IsListing dir (.rtag r :: (List.range' r (w+1-r)).map .db) := by
  have hnd : ((List.range' r (w+1-r)).map Fname.db).Nodup :=
    (List.nodup_range' 1).map fun a b h => by cases h; rfl
  refine ⟨List.nodup_cons.mpr ⟨by simp, hnd⟩, ?_⟩
  intro f
  cases f with
  | db i =>
    rw [Dir.has, hdb i]
    simp only [List.mem_cons, List.mem_map, List.mem_range'_1, Fname.db.injEq, exists_eq_right,
      reduceCtorEq, false_or]
    omega
  | rtag i =>
    rw [Dir.has, hrt i]
    simp

/-- The listing of a sound queue in index order. -/
theorem isListing_of_sound (h : Sound conf clean s finished pend) :
    IsListing s.dir (.rtag s.q.curRdb.curIndex ::
      (List.range' s.q.curRdb.curIndex (s.q.curWdb.curIndex+1-s.q.curRdb.curIndex)).map .db) := by
  obtain ⟨fd, append, off, t, -, -, -, ht, -⟩ := h.log
  exact isListing_layout (hasDbs_of_files rfl h.files) (hasRtag_of_log h.rtags ht)

/-- Position logs add nothing to the count. -/
theorem sum_entCount_filter (conf : UcmqConf) (sys : Sys) (s : Store) (listing : List Fname) :
    ((listing.filter fun f => !isRtag f).map (entCount conf sys s)).sum =
      (listing.map (entCount conf sys s)).sum := by
  induction listing with
  | nil => rfl
  | cons f listing ih =>
    cases f with
    | db i =>
      rw [List.filter_cons_of_pos (by rfl), List.map_cons, List.map_cons, List.sum_cons,
        List.sum_cons, ih]
    | rtag i =>
      rw [List.filter_cons_of_neg (by simp [isRtag]), List.map_cons, List.sum_cons, ih, entCount,
        Int.zero_add]

/-- The count of a whole directory with honest heads. -/
theorem sum_entCount {rpos wpos : ℕ} (h : Files conf clean s.dir.db r rpos w wpos finished pend)
    (hh : HonestHeads conf s.dir.db r w wpos) (hok : sys.Ok) (hl : IsListing s.dir listing)
    (hr : s.q.curRdb.curIndex = r) (hw : s.q.curWdb.curIndex = w) (hwp : s.q.curWdb.pos = wpos) :
    (finished.length+pend.length : ℤ) ≤ (listing.map (entCount conf sys s)).sum ∧
      (clean → (listing.map (entCount conf sys s)).sum = finished.length+pend.length) := by
  have hperm := (filter_isDb_perm hl (hasDbs_of_files rfl h)).map (entCount conf sys s)
  rw [← sum_entCount_filter, hperm.sum_eq, List.map_map, ← sum_exactCount h]
  have hent : ∀ i ∈ List.range' r (w+1-r),
      exactCount conf s.dir.db w wpos i ≤ (entCount conf sys s ∘ Fname.db) i ∧
        (clean → (entCount conf sys s ∘ Fname.db) i = exactCount conf s.dir.db w wpos i) := by
    intro i hi
    have hi' := List.mem_range'_1.mp hi
    obtain ⟨d, hd, -⟩ := h.heads i hi'.1 (by omega)
    obtain ⟨f, hf, -, rfl⟩ := dbSeg_eq_some.mp hd
    have hcount := dbFileCount_of_honest h hh hr hw hwp hi'.1 (by omega) hd
    simp only [Function.comp_apply, entCount, hf, hok.dbOpen, if_true, exactCount, hd]
    exact hcount
  constructor
  · exact List.sum_le_sum fun i hi => (hent i hi).1
  · intro hcl
    rw [List.map_congr_left fun i hi => (hent i hi).2 hcl]

/-- The count of unread messages taken after loading. -/
theorem getMsgCount_of_honest (h : Files conf clean dir.db r item.rpos w item.wpos finished pend)
    (hc : finished.length = item.rcount) (hh : HonestHeads conf dir.db r w item.wpos) (hok : sys.Ok)
    (hl : IsListing dir listing) :
    pend.length ≤ (mqSmGetMsgCount conf sys listing (restored dir r w item)).q.unreadCount ∧
      (clean → (mqSmGetMsgCount conf sys listing (restored dir r w item)).q.unreadCount =
        pend.length) := by
  obtain ⟨hle, heq⟩ := sum_entCount (s := restored dir r w item) h hh hok hl restored_rindex rfl rfl
  have hzero : (restored dir r w item).q.unreadCount = 0 := rfl
  have hrc : (restored dir r w item).q.curRdb.optCount = finished.length := by
    rw [restored_rcount, hc]
  rw [mqSmGetMsgCount, if_neg (by simp [hzero])]
  simp only [hrc]
  rw [if_pos (by omega)]
  constructor
  · omega
  · intro hcl
    have := heq hcl
    omega

/-- The count changes the counters of a loaded queue only. -/
theorem getMsgCount_eq (conf : UcmqConf) (sys : Sys) (listing : List Fname) (s : Store) :
    ∃ unread put get, mqSmGetMsgCount conf sys listing s =
      { s with q := { s.q with unreadCount := unread, putNum := put, getNum := get } } := by
  unfold mqSmGetMsgCount
  split
  · exact ⟨_, _, _, rfl⟩
  · exact ⟨_, _, _, rfl⟩

/-- Counting messages keeps a queue sound. -/
theorem sound_getMsgCount (h : Sound conf clean s finished pend) (sys : Sys)
    (listing : List Fname) :
    Sound conf clean (mqSmGetMsgCount conf sys listing s) finished pend := by
  obtain ⟨unread, put, get, heq⟩ := getMsgCount_eq conf sys listing s
  rw [heq]
  exact h.setCounters _ _ _ s.q.syncIntv

end Ucmq.Recovery
