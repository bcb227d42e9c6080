import Ucmq.OperationCases
import Ucmq.OwnershipRuns
import Ucmq.ReadTermination

/-!
# Settings outlive a restart whatever the data files hold

A restart takes the settings of a queue from the last record of its position
log, provided the cursors in that record are in range and the files it names
are there. Puts, gets and settings keep such a record in the log. Nothing is
assumed about the messages in the data files: the cursors of a queue that was
reset just before a restart come back on the file head, and it still keeps its
settings.
-/

namespace Ucmq.LastingRecord

open ByteRegion DecimalText StoreConfig StoreMsg StoreState StoreRtag StoreFile StoreManage
open QueueManage StoreInvariant ReadPath WritePath HandleFile Recovery Evhttp QueueStep QueueSlots
open RequestEffect ServerRun CleanRestart OperationCases ReadSwitchCrash ResourceOwnership
open OwnershipRuns MapReads ReadTermination

/-- Cursors and settings of a record that a restart accepts, for a reader and a
writer in these files. -/
structure Acceptable (conf : UcmqConf) (r w : ℕ) (item : RtagItem) : Prop where
  rcount_le : 12*item.rcount ≤ item.rpos
  rpos_le : item.rpos ≤ maxDbFileSize conf
  wpos_le : item.wpos ≤ maxDbFileSize conf
  last : r = w → 12*item.rcount ≤ item.wpos
  maxqueue_lt : item.maxqueue < 2^32
  delay_lt : item.delay < 2^32
  wlock_ge : -2^31 ≤ item.wlock
  wlock_lt : item.wlock < 2^31

/-- A queue with its files in place whose position log is open and whose cursors
may be recorded. -/
structure Ready (conf : UcmqConf) (s : Store) : Prop where
  shape : Shape conf s.dir s.q.curRdb.curIndex s.q.curWdb.curIndex
  log : LogOpen s
  rfd : DataFd s.proc s.q.curRdb.fd
  wfd : DataFd s.proc s.q.curWdb.fd
  cursors : Acceptable conf s.q.curRdb.curIndex s.q.curWdb.curIndex (rtagItem s.q)

/-- A queue with this write lock, which the last record of its log holds too. -/
structure Lasting (conf : UcmqConf) (lock : ℤ) (s : Store) : Prop where
  ready : Ready conf s
  lock_eq : s.q.wlock = lock
  record : ∃ t item, s.dir.rtag s.q.curRdb.curIndex = some (t ++ rtagText item) ∧
    Acceptable conf s.q.curRdb.curIndex s.q.curWdb.curIndex item ∧ item.wlock = lock

variable {conf : UcmqConf} {sys : Sys} {s s' : Store} {r w : ℕ} {item : RtagItem} {lock : ℤ}

/-- An acceptable record is in the ranges of its fields. -/
theorem Acceptable.typed (h : Acceptable conf r w item) : item.Typed := by
  have hmax := maxDbFileSize_le conf
  have hcount := h.rcount_le
  have hrpos := h.rpos_le
  have hwpos := h.wpos_le
  exact ⟨by omega, by omega, by omega, h.maxqueue_lt, h.delay_lt, h.wlock_ge, h.wlock_lt⟩

/-- It passes its check. -/
theorem Acceptable.check (h : Acceptable conf r w item) : checkRtagItem conf item = true := by
  have hcount := h.rcount_le
  have hrpos := h.rpos_le
  have hwpos := h.wpos_le
  simp only [checkRtagItem, decide_eq_true_eq]
  omega

/-- A record of a ready queue restores its lock. -/
theorem lasting_of_recorded (h : Ready conf s) (hrec : Recorded s s') :
    Lasting conf s.q.wlock s' := by
  obtain ⟨t, ht, hrt⟩ := hrec.rtag
  have hshape : Shape conf s'.dir s.q.curRdb.curIndex s.q.curWdb.curIndex := by
    refine ⟨h.shape.le, fun i => ?_, fun i f hf => ?_, fun i => ?_⟩
    · rw [hrec.db]
      exact h.shape.dbs i
    · rw [hrec.db] at hf
      exact h.shape.sizes i f hf
    · rw [hrt]
      by_cases hi : i = s.q.curRdb.curIndex
      · simp [hi]
      · rw [Function.update_of_ne hi]
        exact h.shape.rtag i
  refine ⟨⟨?_, hrec.log, ?_, ?_, ?_⟩, by rw [hrec.q], t, rtagItem s.q, ?_, ?_, rfl⟩
  · rw [hrec.q]
    exact hshape
  · rw [hrec.q]
    exact hrec.dataFd _ h.rfd
  · rw [hrec.q]
    exact hrec.dataFd _ h.wfd
  · rw [hrec.q]
    exact h.cursors
  · rw [hrec.q, hrt, Function.update_self]
  · rw [hrec.q]
    exact h.cursors

/-- A queue that records keeps its lock. -/
theorem Ready.recorded (h : Ready conf s) (hok : sys.Ok) (site : RtagSite) :
    Lasting conf s.q.wlock (mqSmRtagWriteItem sys site s).2 :=
  lasting_of_recorded h (rtagWriteItem_recorded hok site h.log h.cursors.typed)

/-- The same files, position log, resources and references. -/
structure SamePlace (s s' : Store) : Prop where
  dbs : ∀ i, (s'.dir.db i).map DbFile.size = (s.dir.db i).map DbFile.size
  rtag : s'.dir.rtag = s.dir.rtag
  proc : s'.proc = s.proc
  log : s'.q.rtagFd = s.q.rtagFd
  rindex : s'.q.curRdb.curIndex = s.q.curRdb.curIndex
  rfd : s'.q.curRdb.fd = s.q.curRdb.fd
  windex : s'.q.curWdb.curIndex = s.q.curWdb.curIndex
  wfd : s'.q.curWdb.fd = s.q.curWdb.fd

/-- A queue in the same place is ready as well. -/
theorem Ready.same (h : Ready conf s) (hs : SamePlace s s')
    (hc : Acceptable conf s.q.curRdb.curIndex s.q.curWdb.curIndex (rtagItem s'.q)) :
    Ready conf s' := by
  refine ⟨?_, ?_, ?_, ?_, ?_⟩
  · rw [hs.rindex, hs.windex]
    refine ⟨h.shape.le, fun i => ?_, fun i f hf => ?_, ?_⟩
    · have hi := congrArg Option.isSome (hs.dbs i)
      simp only [Option.isSome_map] at hi
      rw [hi]
      exact h.shape.dbs i
    · have hi := hs.dbs i
      rw [hf] at hi
      obtain ⟨f', hf', hsize⟩ := Option.map_eq_some_iff.mp hi.symm
      rw [← hsize]
      exact h.shape.sizes i f' hf'
    · rw [HasRtag, hs.rtag]
      exact h.shape.rtag
  · rw [LogOpen, hs.log, hs.proc, hs.rindex, hs.rtag]
    exact h.log
  · rw [hs.proc, hs.rfd]
    exact h.rfd
  · rw [hs.proc, hs.wfd]
    exact h.wfd
  · rw [hs.rindex, hs.windex]
    exact hc

/-- A queue in the same place keeps its lock. -/
theorem Lasting.same (h : Lasting conf lock s) (hs : SamePlace s s')
    (hlock : s'.q.wlock = s.q.wlock)
    (hc : Acceptable conf s.q.curRdb.curIndex s.q.curWdb.curIndex (rtagItem s'.q)) :
    Lasting conf lock s' := by
  refine ⟨h.ready.same hs hc, hlock.trans h.lock_eq, ?_⟩
  rw [hs.rtag, hs.rindex, hs.windex]
  exact h.record

/-- Copying bytes through a mapping changes the contents of a data file only. -/
theorem samePlace_of_mapWrite {mapMem : Option ℕ} {p : ℕ} {bs : List UInt8}
    (h : s.mapWrite conf mapMem p bs = .ok s') : SamePlace s s' ∧ s'.q = s.q := by
  have hk := mapWrite_kept h
  unfold Store.mapWrite at h
  split at h
  · cases h
  split at h
  · cases h
  split at h
  · cases h
  cases h
  exact ⟨⟨hk.dbs, rfl, rfl, rfl, rfl, rfl, rfl, rfl⟩, rfl⟩

/-- Writing a message that fits. -/
theorem lasting_writeMsgBytes {msg : MsgItem} (h : Lasting conf lock s)
    (hfit : s.q.curWdb.pos+(msg.len+12) ≤ maxDbFileSize conf)
    (hres : writeMsgBytes conf msg s = .ok s') : Lasting conf lock s' := by
  have hmax := maxDbFileSize_le conf
  unfold writeMsgBytes at hres
  cases hw : s.mapWrite conf s.q.curWdb.mapMem s.q.curWdb.pos (msgBytes msg) with
  | error e =>
    rw [hw] at hres
    cases hres
  | ok s₁ =>
    rw [hw] at hres
    obtain ⟨hs, hq⟩ := samePlace_of_mapWrite hw
    cases hres
    have hc := h.ready.cursors
    have hlast := hc.last
    have hpos : u32 (s.q.curWdb.pos+(msg.len+12)) = s.q.curWdb.pos+(msg.len+12) :=
      u32_of_lt (by omega)
    refine h.same ⟨hs.dbs, hs.rtag, hs.proc, ?_, ?_, ?_, ?_, ?_⟩ ?_ ?_ <;> simp only [hq]
    refine ⟨hc.rcount_le, hc.rpos_le, ?_, fun he => ?_, hc.maxqueue_lt, hc.delay_lt,
      hc.wlock_ge, hc.wlock_lt⟩
    · simp only [rtagItem, hpos]
      exact hfit
    · have hle : 12*s.q.curRdb.optCount ≤ s.q.curWdb.pos := hlast he
      simp only [rtagItem, hpos]
      omega

/-- Releasing the write file. -/
theorem lasting_release (h : Lasting conf lock s) : Lasting conf lock (releaseWriteFile s) := by
  have hr := h.ready
  rcases hr.shape.le.lt_or_eq with hlt | heq
  · have hlog := logOpen_release hr.wfd hr.log
    rw [releaseWriteFile_of_lt hlt] at hlog ⊢
    exact ⟨⟨hr.shape, hlog, (hr.rfd.munmap _).close _, (hr.wfd.munmap _).close _, hr.cursors⟩,
      h.lock_eq, h.record⟩
  · rw [releaseWriteFile_of_eq heq]
    exact h

/-- The writer in a new file. -/
theorem ready_nextWriter (h : Ready conf s) : Ready conf (nextWriter conf s) := by
  have hmin := le_maxDbFileSize conf
  have hle := h.shape.le
  have hc := h.cursors
  refine ⟨shape_added h.shape (freshData conf), logOpen_nextWriter h.log, (h.rfd.openFd _).mmap _,
    (dataFd_openFd_db _ _).mmap _, hc.rcount_le, hc.rpos_le, ?_, fun he => ?_,
      hc.maxqueue_lt, hc.delay_lt,
    hc.wlock_ge, hc.wlock_lt⟩
  · show 128 ≤ maxDbFileSize conf
    omega
  · have he' : s.q.curRdb.curIndex = s.q.curWdb.curIndex+1 := he
    omega

/-- A rotation, with storage or without. -/
theorem lasting_nextWriteFile {ok : Bool} (h : Lasting conf lock s) (hok : sys.Ok)
    (hres : getNextWriteFile conf sys s = .ok (ok, s')) :
    Lasting conf lock s' ∧ (ok = true → s'.q.curWdb.pos = 128) := by
  have hrel := lasting_release h
  cases hlow : storageLow conf sys with
  | true =>
    rw [getNextWriteFile_of_low hlow] at hres
    cases hres
    exact ⟨hrel, by simp⟩
  | false =>
    have hnone : s.dir.db (s.q.curWdb.curIndex+1) = none := by
      have hi := h.ready.shape.dbs (s.q.curWdb.curIndex+1)
      rw [← Option.not_isSome_iff_eq_none, hi]
      omega
    rw [getNextWriteFile_of_free hok hlow hnone] at hres
    cases hres
    have hrec := (ready_nextWriter hrel.ready).recorded hok .nextWrite
    have hlock : (nextWriter conf (releaseWriteFile s)).q.wlock = lock := hrel.lock_eq
    rw [hlock] at hrec
    exact ⟨hrec, fun _ => by rw [rtagWriteItem_q]; rfl⟩

/-- Writing a message of a length that a put lets through. -/
theorem lasting_writeMsg {msg : MsgItem} {ok : Bool} (h : Lasting conf lock s) (hok : sys.Ok)
    (hlen : putLenOk conf msg.len) (hres : MsgWritten conf sys msg s ok s') :
    Lasting conf lock s' := by
  have hmax := maxDbFileSize_le conf
  have hmin := le_maxDbFileSize conf
  have hwpos : s.q.curWdb.pos ≤ maxDbFileSize conf := h.ready.cursors.wpos_le
  obtain ⟨hpos, hle⟩ := hlen
  have hnextLasting : ∀ {ok₂ : Bool} {s₁ s₂ : Store}, mqSmDbWriteFileHead conf s = .ok s₁ →
      getNextWriteFile conf sys s₁ = .ok (ok₂, s₂) →
        Lasting conf lock s₂ ∧ (ok₂ = true → s₂.q.curWdb.pos = 128) := by
    intro ok₂ s₁ s₂ hhead hnext
    obtain ⟨hs, hq⟩ := samePlace_of_mapWrite hhead
    have h₁ : Lasting conf lock s₁ := h.same hs (by rw [hq]) (by rw [hq]; exact h.ready.cursors)
    exact lasting_nextWriteFile h₁ hok hnext
  cases hres with
  | appended hfit hw =>
    rw [needsRotation, u32_of_lt (by omega)] at hfit
    exact lasting_writeMsgBytes h (by omega) hw
  | refused _ hhead hnext => exact (hnextLasting hhead hnext).1
  | rotated _ hhead hnext hw =>
    obtain ⟨h₂, hstart⟩ := hnextLasting hhead hnext
    have hbegin := hstart rfl
    exact lasting_writeMsgBytes h₂ (by omega) hw

/-- Counters are not recorded. -/
theorem Lasting.setCounters (h : Lasting conf lock s) (unread put get : ℕ) (intv : ℤ) :
    Lasting conf lock { s with q := { s.q with
      unreadCount := unread, putNum := put, getNum := get, syncIntv := intv } } :=
  h.same ⟨fun _ => rfl, rfl, rfl, rfl, rfl, rfl, rfl, rfl⟩ rfl h.ready.cursors

/-- A put that its checks let through. -/
theorem lasting_putData {msg : MsgItem} {ok : Bool} (h : Lasting conf lock s) (hok : sys.Ok)
    (hlen : putLenOk conf msg.len) (hres : mqSmPutData conf sys msg s = .ok (ok, s')) :
    Lasting conf lock s' := by
  rcases putData_of_ok hres with ⟨-, rfl⟩ | ⟨crc16, hw⟩
  · exact h
  · exact @lasting_writeMsg conf sys s s' lock { msg with crc16 := crc16 } ok h hok hlen hw

/-- A put. -/
theorem lasting_push {len : ℕ} {msg : List UInt8} {ret : QueuePutRet} (h : Lasting conf lock s)
    (hok : sys.Ok) (hlen : putLenOk conf len)
    (hres : mqQmPushItem conf sys len msg s = .ok (ret, s')) :
    Lasting conf lock (pushed ret s') := by
  have hitem : putLenOk conf (putItem sys len msg).len := hlen
  cases itemPushed_of_ok hres with
  | full => exact h
  | wlock => exact h
  | failed _ hput => exact lasting_putData h hok hitem hput
  | stored _ hput hrec =>
    have h₁ := lasting_putData h hok hitem hput
    have h₂ := h₁.ready.recorded hok .item
    rw [h₁.lock_eq, hrec] at h₂
    exact h₂.setCounters _ _ _ _

/-- The last part of a read switch. -/
theorem lasting_openReadFile (h : Lasting conf lock s) (hok : sys.Ok) :
    Lasting conf lock (openReadFile conf sys s.q.curRdb.curIndex s).2 := by
  have hr := h.ready
  have hle := hr.shape.le
  unfold openReadFile
  by_cases hshare : s.q.curRdb.curIndex = s.q.curWdb.curIndex
  · rw [if_pos hshare]
    exact ⟨⟨hr.shape, hr.log, hr.wfd, hr.wfd, hr.cursors⟩, h.lock_eq, h.record⟩
  · obtain ⟨f, hf⟩ := Option.isSome_iff_exists.mp ((hr.shape.dbs _).mpr ⟨le_rfl, hle⟩)
    rw [if_neg hshare, openDbFile_open hok hf (hr.shape.sizes _ f hf)]
    refine ⟨⟨hr.shape, ?_, (dataFd_openFd_db _ _).mmap _, (hr.wfd.openFd _).mmap _, hr.cursors⟩,
      h.lock_eq, h.record⟩
    obtain ⟨fd, append, off, t, hfd, hlt, href, hrt, hoff⟩ := hr.log
    refine ⟨fd, append, off, t, hfd, ?_, ?_, hrt, hoff⟩
    · simp only [Proc.mmap_next, Proc.openFd_next]
      omega
    · rw [Proc.mmap_fds, Proc.openFd_fds, Function.update_of_ne (by omega)]
      exact href

/-- The queue of a read switch before the next read file is opened. -/
theorem lasting_switched (h : Lasting conf lock s)
    (hlt : s.q.curRdb.curIndex < s.q.curWdb.curIndex) :
    Lasting conf lock ⟨PendingBodies.crashAfter (readSwitchEffects s) 4 s.dir, switchProc s,
      switchQueue s⟩ := by
  have hr := h.ready
  have hc := hr.cursors
  have hmin := le_maxDbFileSize conf
  have hlen := length_rtagText (switchItem_typed hc.typed)
  have hnone : s.dir.rtag (s.q.curRdb.curIndex+1) = none := by
    rw [← Option.not_isSome_iff_eq_none, hr.shape.rtag]
    omega
  have hdir : PendingBodies.crashAfter (readSwitchEffects s) 4 s.dir =
      ((s.dir.setRtag (s.q.curRdb.curIndex+1) (some (rtagText (switchItem s.q)))).setRtag
        s.q.curRdb.curIndex none).setDb s.q.curRdb.curIndex none := by
    simp [PendingBodies.crashAfter, readSwitchEffects, Dir.setRtag, writeText, hnone]
  have htext : (((s.dir.setRtag (s.q.curRdb.curIndex+1) (some (rtagText (switchItem s.q)))).setRtag
      s.q.curRdb.curIndex none).setDb s.q.curRdb.curIndex none).rtag (s.q.curRdb.curIndex+1) =
        some (rtagText (switchItem s.q)) := by
    simp
  have hitem : Acceptable conf (s.q.curRdb.curIndex+1) s.q.curWdb.curIndex (switchItem s.q) :=
    ⟨Nat.zero_le _, show 128 ≤ maxDbFileSize conf by omega, hc.wpos_le, fun _ => Nat.zero_le _,
      hc.maxqueue_lt, hc.delay_lt, hc.wlock_ge, hc.wlock_lt⟩
  obtain ⟨fdOld, -, -, -, hfdOld, hfdLt, -⟩ := hr.log
  have hne : s.q.curRdb.fd ≠ some s.proc.next := fun he => by
    have := (hr.rfd _ he).1
    omega
  have hne' : s.q.rtagFd ≠ some s.proc.next := fun he => by
    rw [hfdOld] at he
    cases he
    omega
  rw [hdir]
  refine ⟨⟨shape_next hr.shape hlt (fun _ => rfl) fun i => ?_, ?_, ?_, ?_, hitem⟩, h.lock_eq, [],
    switchItem s.q, htext, hitem, h.lock_eq⟩
  · by_cases hi : i = s.q.curRdb.curIndex+1
    · simp [hi]
    · rw [Dir.setRtag_rtag, Function.update_of_ne hi, hr.shape.rtag]
      omega
  · refine ⟨s.proc.next, false, 61, _, rfl, ?_, ?_, htext, Or.inr hlen.symm⟩
    · simp [switchProc]
    · simp only [switchProc]
      rw [Proc.close_fds_apply, if_neg hne, Proc.munmap_fds, Proc.close_fds_apply, if_neg hne']
      simp [switchQueue]
  · exact (((hr.rfd.openFd _).close _).munmap _).close _
  · exact (((hr.wfd.openFd _).close _).munmap _).close _

/-- A read switch. -/
theorem lasting_nextReadFile (h : Lasting conf lock s) (hok : sys.Ok) :
    Lasting conf lock (getNextReadFile conf sys s).2 := by
  have hle := h.ready.shape.le
  by_cases hlt : s.q.curRdb.curIndex < s.q.curWdb.curIndex
  · rw [getNextReadFile_eq hok h.ready.cursors.typed hlt]
    exact lasting_openReadFile (lasting_switched h hlt) hok
  · have heq : s.q.curWdb.curIndex = s.q.curRdb.curIndex := by omega
    unfold getNextReadFile
    simp only [heq, Nat.lt_succ_self, if_true]
    exact h

/-- The reader moved within its file. -/
theorem lasting_setReadPos {pos : ℕ} (h : Lasting conf lock s) (hle : s.q.curRdb.pos ≤ pos)
    (hmax : pos ≤ maxDbFileSize conf) : Lasting conf lock (setReadPos s pos) := by
  have hc := h.ready.cursors
  refine h.same ⟨fun _ => rfl, rfl, rfl, rfl, rfl, rfl, rfl, rfl⟩ rfl ?_
  exact ⟨hc.rcount_le.trans hle, hmax, hc.wpos_le, hc.last, hc.maxqueue_lt,
    hc.delay_lt, hc.wlock_ge, hc.wlock_lt⟩

/-- The reader at the end of the queue. -/
theorem lasting_atQueueEnd (h : Lasting conf lock s)
    (he : s.q.curRdb.curIndex = s.q.curWdb.curIndex) :
    Lasting conf lock (atQueueEnd s) := by
  have hc := h.ready.cursors
  refine h.same ⟨fun _ => rfl, rfl, rfl, rfl, rfl, rfl, rfl, rfl⟩ rfl ?_
  exact ⟨hc.last he, hc.wpos_le, hc.wpos_le, hc.last, hc.maxqueue_lt, hc.delay_lt,
    hc.wlock_ge, hc.wlock_lt⟩

/-- A message consumed before the end of the queue. -/
theorem lasting_takeMsg {len : ℕ} (h : Lasting conf lock s)
    (hend : ¬(s.q.curRdb.curIndex = s.q.curWdb.curIndex ∧ s.q.curWdb.pos ≤ u32 (s.q.curRdb.pos+12)))
    (hfit : s.q.curRdb.pos+12+len ≤ maxDbFileSize conf) : Lasting conf lock (takeMsg s len) := by
  have hmax := maxDbFileSize_le conf
  have hc := h.ready.cursors
  have hcount : 12*s.q.curRdb.optCount ≤ s.q.curRdb.pos := hc.rcount_le
  have hnext : u32 (s.q.curRdb.optCount+1) = s.q.curRdb.optCount+1 := u32_of_lt (by omega)
  have hpos : u32 (s.q.curRdb.pos+(len+12)) = s.q.curRdb.pos+(len+12) := u32_of_lt (by omega)
  rw [u32_of_lt (by omega)] at hend
  have hrcount : 12*u32 (s.q.curRdb.optCount+1) ≤ u32 (s.q.curRdb.pos+(len+12)) := by omega
  have hrpos : u32 (s.q.curRdb.pos+(len+12)) ≤ maxDbFileSize conf := by omega
  have hlast : s.q.curRdb.curIndex = s.q.curWdb.curIndex →
      12*u32 (s.q.curRdb.optCount+1) ≤ s.q.curWdb.pos := fun he => by omega
  refine h.same ⟨fun _ => rfl, rfl, rfl, rfl, rfl, rfl, rfl, rfl⟩ rfl ?_
  exact ⟨hrcount, hrpos, hc.wpos_le, hlast, hc.maxqueue_lt, hc.delay_lt, hc.wlock_ge, hc.wlock_lt⟩

/-- One iteration of the read loop, on any file contents. -/
theorem lasting_getDataStep {step : GetStep} (h : Lasting conf lock s) (hok : sys.Ok)
    (hres : StepTaken conf sys s step) : Lasting conf lock (stepStore step) := by
  have hmax := maxDbFileSize_le conf
  have hrpos : s.q.curRdb.pos ≤ maxDbFileSize conf := h.ready.cursors.rpos_le
  have hleft : ∀ {ok : Bool} {s₁ : Store}, getNextReadFile conf sys s = (ok, s₁) →
      Lasting conf lock s₁ := by
    intro ok s₁ hnext
    have hlasting := lasting_nextReadFile h hok
    rwa [hnext] at hlasting
  cases hres with
  | ended hend => exact lasting_atQueueEnd h hend.1
  | young => exact h
  | @taken view _ hend hparse =>
    cases view with
    | none => cases hparse
    | some d => exact lasting_takeMsg h hend (end_le_of_parseMsg hrpos hparse)
  | @skipped k _ _ _ hle hparse hret =>
    have hlt := pos_lt_of_parse hrpos hparse hret
    show Lasting conf lock (setReadPos s (u32 (s.q.curRdb.pos+k)))
    rw [u32_of_lt (by omega)]
    exact lasting_setReadPos h (by omega) (by omega)
  | stopped hnext => exact hleft hnext
  | switched hnext => exact hleft hnext

/-- A get. -/
theorem lasting_pop {ret : QueueGetRet} (h : Lasting conf lock s) (hok : sys.Ok)
    (hres : mqQmPopItem conf sys s = .ok (ret, s')) : Lasting conf lock s' := by
  have hloop : ∀ {item : Option MsgItem} {s₁ : Store}, mqSmGetData conf sys s = .ok (item, s₁) →
      Lasting conf lock s₁ := fun hget =>
    getDataLoop_keeps (fun _ _ _ hs ht => lasting_getDataStep hs hok ht)
      (fun _ _ hs ht => lasting_getDataStep hs hok ht) h hget
  cases itemPopped_of_ok hres with
  | empty => exact h
  | ended hget => exact hloop hget
  | got hget hrec =>
    have h₁ := hloop hget
    have h₂ := h₁.ready.recorded hok .item
    rwa [h₁.lock_eq, hrec] at h₂

/-- Settings in range are recorded. -/
theorem lasting_set {maxque delay : ℕ} {wlock : ℤ} (h : Lasting conf lock s) (hok : sys.Ok)
    (hm : maxque < 2^32) (hd : delay < 2^32) (hl : -2^31 ≤ wlock) (hu : wlock < 2^31) :
    Lasting conf wlock (mqSmRtagWriteItem sys .item (setSettings s maxque delay wlock)).2 := by
  have hr := h.ready
  have hc := hr.cursors
  have hset : Ready conf (setSettings s maxque delay wlock) :=
    hr.same ⟨fun _ => rfl, rfl, rfl, rfl, rfl, rfl, rfl, rfl⟩
      ⟨hc.rcount_le, hc.rpos_le, hc.wpos_le, hc.last, hm, hd, hl, hu⟩
  exact hset.recorded hok .item

/-- Settings other than the lock leave it alone. -/
theorem lasting_setLimits {maxque delay : ℕ} (h : Lasting conf lock s) (hok : sys.Ok)
    (hm : maxque < 2^32) (hd : delay < 2^32) :
    Lasting conf lock (mqSmRtagWriteItem sys .item (setSettings s maxque delay s.q.wlock)).2 := by
  have hc := h.ready.cursors
  have hlasting := @lasting_set conf sys s lock _ _ s.q.wlock h hok hm hd hc.wlock_ge hc.wlock_lt
  rwa [h.lock_eq] at hlasting ⊢

/-- Setting the capacity keeps the lock. -/
theorem lasting_setMaxqueue {maxque : ℕ} (h : Lasting conf lock s) (hok : sys.Ok)
    (hm : maxque < 2^32) :
    Lasting conf lock (mqQmSetMaxqueue sys maxque s) :=
  lasting_setLimits h hok hm h.ready.cursors.delay_lt

/-- Setting the delay keeps the lock. -/
theorem lasting_setDelay {delay : ℕ} (h : Lasting conf lock s) (hok : sys.Ok) (hd : delay < 2^32) :
    Lasting conf lock (mqQmSetDelay sys delay s) :=
  lasting_setLimits h hok h.ready.cursors.maxqueue_lt hd

/-- Setting the lock sets it. -/
theorem lasting_setWlock (h : Lasting conf lock s) (hok : sys.Ok) (wlock : ℕ) :
    Lasting conf (wlockValue sys wlock) (mqQmSetWlock sys wlock s) := by
  have hc := h.ready.cursors
  exact lasting_set h hok hc.maxqueue_lt hc.delay_lt (wlockValue_range sys wlock).1
    (wlockValue_range sys wlock).2

/-- A queue just created is not locked, and neither is the one its record restores. -/
theorem lasting_created (conf : UcmqConf) : Lasting conf 0 (created conf) := by
  have hmin := le_maxDbFileSize conf
  have hs := (sound_created conf).1
  have hitem : ∀ pos, pos ≤ maxDbFileSize conf →
      Acceptable conf 1 1 ⟨0, pos, pos, conf.defMaxQueue, conf.defDelay, 0⟩ := fun pos hpos =>
    ⟨Nat.zero_le _, hpos, hpos, fun _ => Nat.zero_le _, conf.defMaxQueue_lt, conf.defDelay_lt,
      show (-2^31 : ℤ) ≤ 0 by decide, show (0 : ℤ) < 2^31 by decide⟩
  exact ⟨⟨shape_created conf, hs.log, hs.held.rfd, hs.held.wfd, hitem 128 (by omega)⟩, rfl, [],
    creationItem conf, by simp [created], hitem 0 (Nat.zero_le _), rfl⟩

/-- The directory of such a queue is loaded again, with the same lock. -/
theorem lasting_restart {listing : List Fname} (h : Lasting conf lock s) (hok : sys.Ok)
    (hr : Reloadable (.listed s)) (hl : IsListing s.dir listing) :
    ∃ s', reloaded conf sys listing (some s.dir) = .listed s' ∧ Lasting conf lock s' := by
  obtain ⟨t, item, ht, hitem, hlock⟩ := h.record
  have hshape := h.ready.shape
  have hload : Loadable conf s.dir s.q.curRdb.curIndex s.q.curWdb.curIndex item :=
    ⟨hshape.le, hshape.dbs, hshape.sizes, hshape.rtag, ⟨t, ht, hr.1 _ ht⟩, hitem.typed,
      hitem.check, hr.2⟩
  have hheld := @restored_held s.dir s.q.curRdb.curIndex s.q.curWdb.curIndex item
  have hback : Lasting conf lock (restored s.dir s.q.curRdb.curIndex s.q.curWdb.curIndex item) := by
    refine ⟨⟨?_, logOpen_restored ht, hheld.rfd, hheld.wfd, ?_⟩, hlock, t, item, ?_, ?_, hlock⟩
    · rw [restored_rindex]
      exact hshape
    · rw [restored_rindex, restored_rtagItem]
      exact hitem
    · rw [restored_rindex]
      exact ht
    · rw [restored_rindex]
      exact hitem
  obtain ⟨unread, put, get, heq⟩ := getMsgCount_eq conf sys listing
    (restored s.dir s.q.curRdb.curIndex s.q.curWdb.curIndex item)
  refine ⟨mqSmGetMsgCount conf sys listing
    (restored s.dir s.q.curRdb.curIndex s.q.curWdb.curIndex item), ?_, ?_⟩
  · simp only [reloaded, openQueue_of_loadable hload hok hl]
    rfl
  · rw [heq]
    exact hback.setCounters unread put get _

end Ucmq.LastingRecord
