import Ucmq.QueueManage

/-!
# Invariants of a loaded queue

The data files of a queue hold exactly the unread messages between two
cursors, after the finished ones of the read file. A queue is sound when its
files hold this for its own cursors, its mappings and descriptors refer to
these files and its position log is open, and logged when the last record of
that log restores it. The writer's mapping may have been released by a failed
rotation. A write file is clean when nothing follows the write cursor.
-/

namespace Ucmq.StoreInvariant

open ByteRegion FramedLog StoreConfig StoreMsg StoreState StoreRtag StoreFile StoreManage
open QueueManage

/-- Contents of a data file of full size. -/
def dbSeg (conf : UcmqConf) (db : ℕ → Option DbFile) (i : ℕ) : Option Region :=
  match db i with
  | some f => if f.size = maxDbFileSize conf then some f.data else none
  | none => none

variable {conf : UcmqConf} {sys : Sys} {clean : Prop} {s s' : Store}
variable {db db' : ℕ → Option DbFile} {r rpos w wpos i : ℕ}
  {finished pend : List (Msg conf)} {d : Region}

/-- A data file of full size shows its contents. -/
theorem dbSeg_eq_some :
    dbSeg conf db i = some d ↔ ∃ f, db i = some f ∧ f.size = maxDbFileSize conf ∧ f.data = d := by
  unfold dbSeg
  cases hf : db i with
  | none => simp
  | some f => by_cases hs : f.size = maxDbFileSize conf <;> simp [hs]

/-- The same file shows the same contents. -/
theorem dbSeg_congr (h : db' i = db i) : dbSeg conf db' i = dbSeg conf db i := by
  unfold dbSeg
  rw [h]

/-- Unread messages between a cursor and the write cursor. -/
abbrev Unread (conf : UcmqConf) (db : ℕ → Option DbFile) (w wpos i p : ℕ) (pend : List (Msg conf)) :
    Prop :=
  Chain (msgFraming conf) (dbSeg conf db) (maxDbFileSize conf) 128 w wpos i p pend

/-- Data files r to w, with the read cursor after the finished messages of
file r and the write cursor after the unread ones. -/
structure Files (conf : UcmqConf) (clean : Prop) (db : ℕ → Option DbFile) (r rpos w wpos : ℕ)
    (finished pend : List (Msg conf)) : Prop where
  chain : Unread conf db w wpos r rpos pend
  rpos_ge : 128 ≤ rpos
  wpos_ge : 128 ≤ wpos
  wpos_le : wpos ≤ maxDbFileSize conf
  read : ∃ d, dbSeg conf db r = some d ∧ (msgFraming conf).Scans d 128 finished rpos
  heads : ∀ i, r ≤ i → i ≤ w → ∃ d, dbSeg conf db i = some d ∧ Quiet msgHeadOfFirstMagicNum d 0 128
  tail : clean → ∀ d, dbSeg conf db w = some d →
    Quiet msgHeadOfFirstMagicNum d wpos (maxDbFileSize conf)
  dbs : ∀ i, db i ≠ none → r ≤ i ∧ i ≤ w

/-- The reader is not ahead of the writer. -/
theorem Files.index_le (h : Files conf clean db r rpos w wpos finished pend) : r ≤ w := h.chain.le

/-- Nor is it within one file. -/
theorem Files.rpos_le_wpos (h : Files conf clean db r rpos w wpos finished pend) (he : r = w) :
    rpos ≤ wpos := by
  simpa [he] using h.chain.pos_le

/-- The read position is within a file. -/
theorem Files.rpos_le (h : Files conf clean db r rpos w wpos finished pend) :
    rpos ≤ maxDbFileSize conf := by
  have hp := h.chain.pos_le
  have hw := h.wpos_le
  split at hp <;> omega

/-- Positions near it do not wrap. -/
theorem Files.u32_rpos (h : Files conf clean db r rpos w wpos finished pend) {k : ℕ}
    (hk : k ≤ 67108876) : u32 (rpos+k) = rpos+k := by
  have := h.rpos_le
  have := maxDbFileSize_le conf
  exact u32_of_lt (by omega)

/-- The messages of the read file fit into it. -/
theorem Files.finished_le (h : Files conf clean db r rpos w wpos finished pend) :
    finished.length ≤ maxDbFileSize conf/12 := by
  obtain ⟨d, -, hr⟩ := h.read
  have hm := hr.length_mul_le
  have hp := h.rpos_le
  simp only [msgFraming_headLen] at hm
  omega

/-- The reader may skip quiet bytes. -/
theorem Files.skip (h : Files conf clean db r rpos w wpos finished pend) {p : ℕ}
    (hd : dbSeg conf db r = some d) (hp : rpos ≤ p) (hq : Quiet msgHeadOfFirstMagicNum d rpos p)
    (hc : Unread conf db w wpos r p pend) : Files conf clean db r p w wpos finished pend := by
  have hread : ∃ d, dbSeg conf db r = some d ∧ (msgFraming conf).Scans d 128 finished p := by
    obtain ⟨d', hd', hr⟩ := h.read
    obtain rfl : d' = d := Option.some.inj (hd'.symm.trans hd)
    exact ⟨d', hd', hr.extend hp hq⟩
  exact ⟨hc, h.rpos_ge.trans hp, h.wpos_ge, h.wpos_le, hread, h.heads, h.tail, h.dbs⟩

/-- The frame at the read cursor may be consumed. -/
theorem Files.take (h : Files conf clean db r rpos w wpos finished pend) {m : Msg conf}
    {rest : List (Msg conf)} (hd : dbSeg conf db r = some d) (hh : Holds d rpos (msgBytes m.item))
    (hc : Unread conf db w wpos r (rpos+(m.body.length+12)) rest) :
    Files conf clean db r (rpos+(m.body.length+12)) w wpos (finished ++ [m]) rest := by
  have hread : ∃ d, dbSeg conf db r = some d ∧
      (msgFraming conf).Scans d 128 (finished ++ [m]) (rpos+(m.body.length+12)) := by
    obtain ⟨d', hd', hr⟩ := h.read
    obtain rfl : d' = d := Option.some.inj (hd'.symm.trans hd)
    have hsnoc := hr.snoc (a := m) hh
    rw [msgFraming_enc, length_msgBytes, Nat.add_comm 12] at hsnoc
    exact ⟨d', hd', hsnoc⟩
  have hge := h.rpos_ge
  exact ⟨hc, by omega, h.wpos_ge, h.wpos_le, hread, h.heads, h.tail, h.dbs⟩

/-- The reader may leave a file without unread messages, and it may be removed. -/
theorem Files.next (h : Files conf clean db r rpos w wpos finished pend) (hlt : r < w)
    (hc : Unread conf db w wpos (r+1) 128 pend) :
    Files conf clean (Function.update db r none) (r+1) 128 w wpos [] pend := by
  have hseg : ∀ i, r < i → dbSeg conf (Function.update db r none) i = dbSeg conf db i := fun i hi =>
    dbSeg_congr (Function.update_of_ne (by omega) _ _)
  refine ⟨?_, le_rfl, h.wpos_ge, h.wpos_le, ?_, ?_, ?_, ?_⟩
  · refine hc.congr le_rfl ?_
    intro j d hj _ hd
    exact ⟨d, by rw [hseg j (by omega)]; exact hd, fun _ _ _ => rfl⟩
  · obtain ⟨d, hd, -⟩ := h.heads (r+1) (by omega) hlt
    exact ⟨d, by rw [hseg _ (by omega)]; exact hd, le_rfl, fun i _ _ => by omega⟩
  · intro i hi hw
    rw [hseg i (by omega)]
    exact h.heads i (by omega) hw
  · rw [hseg w hlt]
    exact h.tail
  · intro i hi
    by_cases hr : i = r
    · rw [hr, Function.update_self] at hi
      exact absurd rfl hi
    · rw [Function.update_of_ne hr] at hi
      have := h.dbs i hi
      omega

/-- The write cursor's mapping is in place. -/
def WriterLive (s : Store) : Prop :=
  ∃ b, s.q.curWdb.mapMem = some b ∧ s.proc.maps b = some s.q.curWdb.curIndex

/-- The write cursor's mapping was released and its address kept. -/
def WriterDead (s : Store) : Prop :=
  ∃ b, s.q.curWdb.mapMem = some b ∧ b < s.proc.next ∧ s.proc.maps b = none

/-- A released writer is not live. -/
theorem WriterDead.not_live (h : WriterDead s) : ¬WriterLive s := by
  rintro ⟨b, hb, hm⟩
  obtain ⟨b', hb', -, hm'⟩ := h
  rw [hb] at hb'
  cases hb'
  rw [hm] at hm'
  cases hm'

/-- A descriptor that does not refer to a position log. -/
def DataFd (proc : Proc) (fd : Option ℕ) : Prop :=
  ∀ x, fd = some x → x < proc.next ∧ ∀ i append off, proc.fds x ≠ some (.rtag i append off)

/-- Closing a descriptor opens no log. -/
theorem DataFd.close {proc : Proc} {fd : Option ℕ} (h : DataFd proc fd) (x : Option ℕ) :
    DataFd (proc.close x) fd := by
  intro y hy
  obtain ⟨hlt, hne⟩ := h y hy
  refine ⟨by simpa using hlt, ?_⟩
  intro i append off
  rw [Proc.close_fds_apply]
  split
  · intro he
    cases he
  · exact hne i append off

/-- Unmapping opens no log. -/
theorem DataFd.munmap {proc : Proc} {fd : Option ℕ} (h : DataFd proc fd) (a : Option ℕ) :
    DataFd (proc.munmap a) fd := by
  simpa [DataFd] using h

/-- Mapping opens no log. -/
theorem DataFd.mmap {proc : Proc} {fd : Option ℕ} (h : DataFd proc fd) (i : ℕ) :
    DataFd (proc.mmap i) fd := by
  intro y hy
  obtain ⟨hlt, hne⟩ := h y hy
  exact ⟨by simpa using Nat.lt_succ_of_lt hlt, hne⟩

/-- Descriptors opened later are different ones. -/
theorem DataFd.openFd {proc : Proc} {fd : Option ℕ} (h : DataFd proc fd) (ref : FdRef) :
    DataFd (proc.openFd ref) fd := by
  intro y hy
  obtain ⟨hlt, hne⟩ := h y hy
  refine ⟨by simpa using Nat.lt_succ_of_lt hlt, ?_⟩
  intro i append off
  rw [Proc.openFd_fds, Function.update_of_ne (by omega)]
  exact hne i append off

/-- A data file that is opened is one. -/
theorem dataFd_openFd_db (proc : Proc) (i : ℕ) : DataFd (proc.openFd (.db i)) (some proc.next) := by
  intro y hy
  cases hy
  simp

/-- A descriptor that is open on a data file. -/
def OpenFd (proc : Proc) (fd : Option ℕ) (i : ℕ) : Prop :=
  ∃ x, fd = some x ∧ proc.fds x = some (.db i)

/-- The mappings and descriptors of the two cursors. -/
structure Held (s : Store) : Prop where
  rmap : s.q.curRdb.curIndex < s.q.curWdb.curIndex →
    ∃ a, s.q.curRdb.mapMem = some a ∧ s.proc.maps a = some s.q.curRdb.curIndex
  shared : s.q.curRdb.curIndex = s.q.curWdb.curIndex → s.q.curRdb.mapMem = s.q.curWdb.mapMem
  wmap : WriterLive s ∨ WriterDead s
  unused : ∀ a, s.proc.next ≤ a → s.proc.maps a = none
  rfd : DataFd s.proc s.q.curRdb.fd
  wfd : DataFd s.proc s.q.curWdb.fd
  ropen : s.q.curRdb.curIndex < s.q.curWdb.curIndex →
    OpenFd s.proc s.q.curRdb.fd s.q.curRdb.curIndex
  sharedFd : s.q.curRdb.curIndex = s.q.curWdb.curIndex → s.q.curRdb.fd = s.q.curWdb.fd
  wopen : WriterLive s → OpenFd s.proc s.q.curWdb.fd s.q.curWdb.curIndex

/-- Resources do not depend on the rest of a cursor. -/
theorem Held.congr (h : Held s) (hp : s'.proc = s.proc)
    (hr : s'.q.curRdb.curIndex = s.q.curRdb.curIndex ∧ s'.q.curRdb.mapMem = s.q.curRdb.mapMem ∧
      s'.q.curRdb.fd = s.q.curRdb.fd)
    (hw : s'.q.curWdb.curIndex = s.q.curWdb.curIndex ∧ s'.q.curWdb.mapMem = s.q.curWdb.mapMem ∧
      s'.q.curWdb.fd = s.q.curWdb.fd) : Held s' := by
  obtain ⟨hri, hrm, hrf⟩ := hr
  obtain ⟨hwi, hwm, hwf⟩ := hw
  have hlive : WriterLive s' ↔ WriterLive s := by rw [WriterLive, WriterLive, hp, hwi, hwm]
  have hdead : WriterDead s' ↔ WriterDead s := by rw [WriterDead, WriterDead, hp, hwm]
  refine ⟨?_, ?_, ?_, ?_, ?_, ?_, ?_, ?_, ?_⟩
  · rw [hri, hrm, hwi, hp]
    exact h.rmap
  · rw [hri, hrm, hwi, hwm]
    exact h.shared
  · rw [hlive, hdead]
    exact h.wmap
  · rw [hp]
    exact h.unused
  · rw [hp, hrf]
    exact h.rfd
  · rw [hp, hwf]
    exact h.wfd
  · rw [hri, hwi, hp, hrf]
    exact h.ropen
  · rw [hri, hwi, hrf, hwf]
    exact h.sharedFd
  · rw [hlive, hp, hwf, hwi]
    exact h.wopen

/-- An address in use was handed out before. -/
theorem Held.map_lt (h : Held s) {a i : ℕ} (ha : s.proc.maps a = some i) : a < s.proc.next := by
  by_contra hge
  rw [h.unused a (by omega)] at ha
  cases ha

/-- The two mappings of a reader behind the writer are different ones. -/
theorem Held.rmap_ne (h : Held s) (hlt : s.q.curRdb.curIndex < s.q.curWdb.curIndex) {b : ℕ}
    (hb : s.proc.maps b = some s.q.curWdb.curIndex) : s.q.curRdb.mapMem ≠ some b := by
  intro he
  obtain ⟨a, ha, hm⟩ := h.rmap hlt
  rw [ha] at he
  cases he
  rw [hm] at hb
  have := Option.some.inj hb
  omega

/-- A mapped file of full size is visible behind its address. -/
theorem mapView_of_maps {a : ℕ} (hm : s.proc.maps a = some i)
    (hd : dbSeg conf s.dir.db i = some d) :
    s.mapView conf (some a) = .ok (some d) := by
  obtain ⟨f, hf, hs, rfl⟩ := dbSeg_eq_some.mp hd
  simp [Store.mapView, hm, hf, hs]

/-- An address that is not mapped faults. -/
theorem mapView_of_none {a : ℕ} (hm : s.proc.maps a = none) :
    s.mapView conf (some a) = .error .segv := by
  simp [Store.mapView, hm]

/-- The position log of the read file is open and will be written at its end. -/
def LogOpen (s : Store) : Prop :=
  ∃ fd append off t, s.q.rtagFd = some fd ∧ fd < s.proc.next ∧
    s.proc.fds fd = some (.rtag s.q.curRdb.curIndex append off) ∧
    s.dir.rtag s.q.curRdb.curIndex = some t ∧ (append = true ∨ off = t.length)

/-- Settings and counters of a queue in the ranges of their types. -/
structure InRange (q : MqQueue) : Prop where
  maxque_lt : q.maxque < 2^32
  delay_lt : q.delay < 2^32
  wlock_ge : -2^31 ≤ q.wlock
  wlock_lt : q.wlock < 2^31
  wcount_lt : q.curWdb.optCount < 2^32

/-- A loaded queue whose files, position log, mappings and descriptors are in
order. -/
structure Sound (conf : UcmqConf) (clean : Prop) (s : Store) (finished pend : List (Msg conf)) :
    Prop where
  files : Files conf clean s.dir.db s.q.curRdb.curIndex s.q.curRdb.pos s.q.curWdb.curIndex
    s.q.curWdb.pos finished pend
  held : Held s
  rcount : finished.length = s.q.curRdb.optCount
  rtags : ∀ i, s.dir.rtag i ≠ none → i = s.q.curRdb.curIndex
  log : LogOpen s
  inRange : InRange s.q

/-- The last record of the position log restores the queue, except for quiet
bytes the reader has skipped since. -/
def Logged (conf : UcmqConf) (s : Store) (finished : List (Msg conf)) : Prop :=
  ∃ t rpos d, s.dir.rtag s.q.curRdb.curIndex =
      some (t ++ rtagText { rtagItem s.q with rpos := rpos }) ∧
    dbSeg conf s.dir.db s.q.curRdb.curIndex = some d ∧
    (msgFraming conf).Scans d 128 finished rpos ∧ rpos ≤ s.q.curRdb.pos ∧
    Quiet msgHeadOfFirstMagicNum d rpos s.q.curRdb.pos

/-- The persisted fields are in the ranges of their columns. -/
theorem Sound.typed (h : Sound conf clean s finished pend) : (rtagItem s.q).Typed := by
  have hc := h.files.finished_le
  have hr := h.files.rpos_le
  have hw := h.files.wpos_le
  have hm := maxDbFileSize_le conf
  have hn := h.rcount
  refine ⟨?_, ?_, ?_, h.inRange.maxque_lt, h.inRange.delay_lt, h.inRange.wlock_ge,
    h.inRange.wlock_lt⟩
  · show s.q.curRdb.optCount < 2^32
    omega
  · show s.q.curRdb.pos < 2^32
    omega
  · show s.q.curWdb.pos < 2^32
    omega

/-- A state with one more record in its position log. -/
structure Recorded (s s' : Store) : Prop where
  q : s'.q = s.q
  db : s'.dir.db = s.dir.db
  maps : s'.proc.maps = s.proc.maps
  next : s'.proc.next = s.proc.next
  log : LogOpen s'
  rtag : ∃ t, s.dir.rtag s.q.curRdb.curIndex = some t ∧ s'.dir.rtag =
    Function.update s.dir.rtag s.q.curRdb.curIndex (some (t ++ rtagText (rtagItem s.q)))
  dataFd : ∀ fd, DataFd s.proc fd → DataFd s'.proc fd
  openFd : ∀ fd i, OpenFd s.proc fd i → OpenFd s'.proc fd i

/-- Writing a record through an open log appends it. -/
theorem rtagWriteItem_recorded (hok : sys.Ok) (site : RtagSite) (hlog : LogOpen s)
    (ht : (rtagItem s.q).Typed) : Recorded s (mqSmRtagWriteItem sys site s).2 := by
  obtain ⟨fd, append, off, t, hfd, hlt, href, hrt, hoff⟩ := hlog
  have hlen := length_rtagText ht
  have htake : (rtagText (rtagItem s.q)).take (sys.rtagWrite site) = rtagText (rtagItem s.q) := by
    rw [List.take_of_length_le]
    have := hok.rtagWrite site
    omega
  have hpos : (if append = true then t.length else off) = t.length := by
    rcases hoff with rfl | rfl <;> simp
  have hw : (mqSmRtagWriteItem sys site s).2 =
      { s with
        dir := s.dir.setRtag s.q.curRdb.curIndex (some (t ++ rtagText (rtagItem s.q)))
        proc := { s.proc with
          fds := Function.update s.proc.fds fd
            (some (.rtag s.q.curRdb.curIndex append (t.length+61))) } } := by
    simp [mqSmRtagWriteItem, hfd, href, hrt, htake, hpos, writeText_length, hlen]
  rw [hw]
  refine ⟨rfl, rfl, rfl, rfl, ?_, ⟨t, hrt, rfl⟩, ?_, ?_⟩
  · exact ⟨fd, append, t.length+61, t ++ rtagText (rtagItem s.q), hfd, hlt, by simp, by simp,
      Or.inr (by simp [hlen])⟩
  · intro fd' hd x hx
    obtain ⟨hxlt, hne⟩ := hd x hx
    refine ⟨hxlt, ?_⟩
    have hxfd : x ≠ fd := by
      rintro rfl
      exact hne _ _ _ href
    simpa [Function.update_of_ne hxfd] using hne
  · rintro fd' i ⟨x, hx, hxi⟩
    refine ⟨x, hx, ?_⟩
    have hxfd : x ≠ fd := by
      rintro rfl
      rw [href] at hxi
      cases hxi
    simpa [Function.update_of_ne hxfd] using hxi

/-- Recording keeps what is held. -/
theorem Held.recorded (h : Held s) (hrec : Recorded s s') : Held s' := by
  refine ⟨?_, ?_, ?_, ?_, ?_, ?_, ?_, ?_, ?_⟩
  · rw [hrec.q, hrec.maps]
    exact h.rmap
  · rw [hrec.q]
    exact h.shared
  · rw [WriterLive, WriterDead, hrec.q, hrec.maps, hrec.next]
    exact h.wmap
  · rw [hrec.maps, hrec.next]
    exact h.unused
  · rw [hrec.q]
    exact hrec.dataFd _ h.rfd
  · rw [hrec.q]
    exact hrec.dataFd _ h.wfd
  · rw [hrec.q]
    exact fun hlt => hrec.openFd _ _ (h.ropen hlt)
  · rw [hrec.q]
    exact h.sharedFd
  · rw [WriterLive, hrec.q, hrec.maps]
    exact fun hw => hrec.openFd _ _ (h.wopen hw)

/-- Recording keeps the writer live. -/
theorem Recorded.writerLive (hrec : Recorded s s') (h : WriterLive s) : WriterLive s' := by
  rw [WriterLive, hrec.q, hrec.maps]
  exact h

/-- A record lengthens the open log by its own length. -/
theorem Recorded.length_log (hrec : Recorded s s') (hi : (rtagItem s.q).Typed) {t' : List Char}
    (ht' : s'.dir.rtag s'.q.curRdb.curIndex = some t') :
    ∃ t, s.dir.rtag s.q.curRdb.curIndex = some t ∧ t'.length = t.length+61 := by
  obtain ⟨t, ht, hrt⟩ := hrec.rtag
  rw [hrec.q, hrt, Function.update_self] at ht'
  cases ht'
  exact ⟨t, ht, by rw [List.length_append, length_rtagText hi]⟩

/-- A record keeps a sound queue sound, and afterwards it is logged. -/
theorem Sound.recorded (h : Sound conf clean s finished pend) (hrec : Recorded s s') :
    Sound conf clean s' finished pend ∧ Logged conf s' finished := by
  obtain ⟨t, ht, hrt⟩ := hrec.rtag
  obtain ⟨d, hd, hscan⟩ := h.files.read
  refine ⟨⟨?_, h.held.recorded hrec, ?_, ?_, hrec.log, ?_⟩, ?_⟩
  · rw [hrec.q, hrec.db]
    exact h.files
  · rw [hrec.q]
    exact h.rcount
  · intro i hi
    rw [hrec.q]
    by_contra hne
    rw [hrt, Function.update_of_ne hne] at hi
    exact hne (h.rtags i hi)
  · rw [hrec.q]
    exact h.inRange
  · refine ⟨t, s.q.curRdb.pos, d, ?_, ?_, hscan, ?_, ?_⟩
    · rw [hrt, hrec.q, Function.update_self]
      rfl
    · rw [hrec.q, hrec.db]
      exact hd
    · rw [hrec.q]
    · rw [hrec.q]
      exact fun i _ _ => by omega

/-- Counters that no cursor depends on may change. -/
theorem Sound.setCounters (h : Sound conf clean s finished pend) (unread put get : ℕ) (intv : ℤ) :
    Sound conf clean { s with q := { s.q with
      unreadCount := unread, putNum := put, getNum := get, syncIntv := intv } } finished pend :=
  ⟨h.files, h.held.congr rfl ⟨rfl, rfl, rfl⟩ ⟨rfl, rfl, rfl⟩, h.rcount, h.rtags, h.log,
    ⟨h.inRange.maxque_lt, h.inRange.delay_lt, h.inRange.wlock_ge, h.inRange.wlock_lt,
      h.inRange.wcount_lt⟩⟩

/-- Skipped quiet bytes need no record. -/
theorem Logged.setReadPos (h : Logged conf s finished) {p : ℕ}
    (hd : dbSeg conf s.dir.db s.q.curRdb.curIndex = some d) (hp : s.q.curRdb.pos ≤ p)
    (hq : Quiet msgHeadOfFirstMagicNum d s.q.curRdb.pos p) :
    Logged conf (setReadPos s p) finished := by
  obtain ⟨t, rpos, d', ht, hd', hscan, hle, hquiet⟩ := h
  obtain rfl : d' = d := Option.some.inj (hd'.symm.trans hd)
  exact ⟨t, rpos, d', ht, hd', hscan, hle.trans hp, hquiet.trans hq⟩

end Ucmq.StoreInvariant
