import Ucmq.StoreInvariant
import Mathlib.Logic.Relation

/-!
# The reader delivers the chain of stored messages

Every step of the read loop keeps the list of unread messages or takes its
first one. Moves over quiet bytes and read switches keep the queue sound and
logged and bring the reader closer to the write cursor, so the loop ends. A
released writer's mapping is met only when the reader needs that file.
-/

namespace Ucmq.ReadPath

open ByteRegion FramedLog StoreConfig StoreMsg StoreState StoreRtag StoreFile StoreManage
open QueueManage StoreInvariant

variable {conf : UcmqConf} {sys : Sys} {clean : Prop} {s s' : Store}
variable {finished pend : List (Msg conf)} {d : Region}

/-- A queue whose files can be read one after the other, whatever they hold. -/
structure Readable (conf : UcmqConf) (s : Store) : Prop where
  held : Held s
  log : LogOpen s
  rtags : ∀ i, s.dir.rtag i ≠ none → i = s.q.curRdb.curIndex
  typed : (rtagItem s.q).Typed
  index_le : s.q.curRdb.curIndex ≤ s.q.curWdb.curIndex
  files : ∀ i, s.q.curRdb.curIndex ≤ i → i ≤ s.q.curWdb.curIndex →
    ∃ d, dbSeg conf s.dir.db i = some d

/-- A sound queue can be read. -/
theorem readable_of_sound (h : Sound conf clean s finished pend) : Readable conf s :=
  ⟨h.held, h.log, h.rtags, h.typed, h.files.index_le, fun i hi hw =>
    (h.files.heads i hi hw).imp fun _ hd => hd.1⟩

/-- The read mapping shows the read file, or the writer's mapping is gone and
the reader has arrived in its file. -/
theorem view_of_readable (h : Readable conf s) :
    (∃ d, dbSeg conf s.dir.db s.q.curRdb.curIndex = some d ∧
      s.mapView conf s.q.curRdb.mapMem = .ok (some d)) ∨
    (WriterDead s ∧ s.q.curRdb.curIndex = s.q.curWdb.curIndex ∧
      s.mapView conf s.q.curRdb.mapMem = .error .segv) := by
  obtain ⟨d, hd⟩ := h.files _ le_rfl h.index_le
  rcases h.index_le.lt_or_eq with hlt | heq
  · obtain ⟨a, ha, hm⟩ := h.held.rmap hlt
    rw [ha]
    exact Or.inl ⟨d, hd, mapView_of_maps hm hd⟩
  · rcases h.held.wmap with ⟨b, hb, hm⟩ | hdead
    · rw [h.held.shared heq, hb]
      rw [← heq] at hm
      exact Or.inl ⟨d, hd, mapView_of_maps hm hd⟩
    · obtain ⟨b, hb, -, hm⟩ := id hdead
      refine Or.inr ⟨hdead, heq, ?_⟩
      rw [h.held.shared heq, hb]
      exact mapView_of_none hm

/-- What the message check finds at a read cursor that is not at the end of the
queue: the first frame, a quiet byte, or the end of a full file. -/
theorem parse_cases_of_files {db : ℕ → Option DbFile} {r rpos w wpos : ℕ}
    (h : Files conf clean db r rpos w wpos finished pend) (hend : ¬(r = w ∧ wpos ≤ rpos+12))
    (hd : dbSeg conf db r = some d) :
    (∃ m rest, pend = m :: rest ∧ mqSmDbParseMsg conf (some d) rpos = .ok m.item ∧
      Holds d rpos (msgBytes m.item) ∧ Unread conf db w wpos r (rpos+(m.body.length+12)) rest) ∨
    (mqSmDbParseMsg conf (some d) rpos = .magNumErr ∧ rpos+1 ≤ maxDbFileSize conf ∧
      d rpos ≠ msgHeadOfFirstMagicNum ∧ Unread conf db w wpos r (rpos+1) pend) ∨
    (mqSmDbParseMsg conf (some d) rpos = .lenBey ∧ r < w ∧
      Unread conf db w wpos (r+1) 128 pend) := by
  have hle := h.index_le
  have hrp := h.rpos_le
  have hwp := h.wpos_le
  by_cases htail : maxDbFileSize conf ≤ rpos+12
  · have hlt : r < w := by
      rcases hle.lt_or_eq with hlt | heq
      · exact hlt
      · exact absurd ⟨heq, by omega⟩ hend
    exact Or.inr (Or.inr ⟨parseMsg_of_end htail hrp, hlt, h.chain.next hlt htail⟩)
  · have hlim : rpos+12 < if r = w then wpos else maxDbFileSize conf := by
      split
      · rename_i heq
        by_contra hge
        exact hend ⟨heq, by omega⟩
      · omega
    by_cases hmark : d rpos = msgHeadOfFirstMagicNum
    · obtain ⟨m, rest, hp, hh, hc⟩ := h.chain.frame hd (by omega) hmark
      rw [msgFraming_enc, length_msgBytes, Nat.add_comm 12] at hc
      have hfit : rpos+12+m.body.length ≤ maxDbFileSize conf := by
        have := hc.pos_le
        split at this <;> omega
      exact Or.inl ⟨m, rest, hp, parseMsg_of_holds hh hfit, hh, hc⟩
    · exact Or.inr (Or.inl ⟨parseMsg_of_ne hmark (by omega), by omega, hmark,
        h.chain.skip hd (by omega) hmark⟩)

/-- What a read switch changes. -/
structure ReadSwitched (s s' : Store) : Prop where
  q : s'.q = { s.q with rtagFd := s'.q.rtagFd, curRdb := s'.q.curRdb }
  index : s'.q.curRdb.curIndex = s.q.curRdb.curIndex+1
  pos : s'.q.curRdb.pos = 128
  optCount : s'.q.curRdb.optCount = 0
  db : s'.dir.db = Function.update s.dir.db s.q.curRdb.curIndex none
  rtag : s'.dir.rtag = Function.update (Function.update s.dir.rtag (s.q.curRdb.curIndex+1)
    (some (rtagText (rtagItem s'.q)))) s.q.curRdb.curIndex none
  log : LogOpen s'
  held : Held s'
  writer : WriterLive s → WriterLive s'

/-- The log written by a read switch before the old files are removed. -/
theorem nextLog_recorded (h : Readable conf s) (hok : sys.Ok) (map : MqDbMap)
    (hi : map.curIndex = s.q.curRdb.curIndex+1) (hp : map.pos = 128) (hc : map.optCount = 0) :
    let s₀ : Store := ⟨s.dir.setRtag (s.q.curRdb.curIndex+1) (some []),
      s.proc.openFd (.rtag (s.q.curRdb.curIndex+1) false 0),
      { s.q with rtagFd := some s.proc.next, curRdb := map }⟩
    Recorded s₀ (mqSmRtagWriteItem sys (.nextRead (s.q.curRdb.curIndex+1)) s₀).2 := by
  have ht := h.typed
  apply rtagWriteItem_recorded hok
  · refine ⟨s.proc.next, false, 0, [], rfl, by simp, ?_, ?_, Or.inr rfl⟩
    · simp [hi]
    · simp [hi]
  · refine ⟨?_, ?_, ht.wpos, ht.maxqueue, ht.delay, ht.wlock_ge, ht.wlock_lt⟩
    · show map.optCount < 2^32
      omega
    · show map.pos < 2^32
      omega

/-- Opening an existing data file of full size. -/
theorem openDbFile_open (hok : sys.Ok) {i : ℕ} {f : DbFile} {dir : Dir} (hf : dir.db i = some f)
    (hsz : f.size = maxDbFileSize conf) (proc : Proc) :
    mqSmOpenDbFile conf sys i .open dir proc =
      (some proc.next, some (proc.next+1), dir, (proc.openFd (.db i)).mmap i) := by
  simp [mqSmOpenDbFile, hf, hok.dbOpen, hsz, mapOpened, hok.mmap]

/-- The state of a read switch before the next read file is opened. -/
structure LogSwitched (s s' : Store) : Prop where
  q : s'.q = { s.q with rtagFd := some s.proc.next, curRdb := { s.q.curRdb with
    flag := false, curIndex := s.q.curRdb.curIndex+1, optCount := 0, pos := 128 } }
  db : s'.dir.db = Function.update s.dir.db s.q.curRdb.curIndex none
  rtag : s'.dir.rtag = Function.update (Function.update s.dir.rtag (s.q.curRdb.curIndex+1)
    (some (rtagText (rtagItem s'.q)))) s.q.curRdb.curIndex none
  log : LogOpen s'
  maps : ∀ b, s'.proc.maps b = if s.q.curRdb.mapMem = some b then none else s.proc.maps b
  next : s'.proc.next = s.proc.next+1
  wfd : DataFd s'.proc s.q.curWdb.fd
  wopen : ∀ i, s.q.curRdb.curIndex < i → OpenFd s.proc s.q.curWdb.fd i →
    OpenFd s'.proc s.q.curWdb.fd i

/-- The next descriptor is neither that of the read file nor the log's. -/
theorem Readable.next_ne (h : Readable conf s) :
    s.q.curRdb.fd ≠ some s.proc.next ∧ s.q.rtagFd ≠ some s.proc.next := by
  refine ⟨fun he => ?_, fun he => ?_⟩
  · have := (h.held.rfd _ he).1
    omega
  · obtain ⟨fd, -, -, -, hfd, hlt, -⟩ := h.log
    rw [hfd] at he
    cases he
    omega

/-- Nor is the descriptor of a later data file. -/
theorem Readable.fd_ne (h : Readable conf s)
    (hlt : s.q.curRdb.curIndex < s.q.curWdb.curIndex) {x i : ℕ} (hi : s.q.curRdb.curIndex < i)
    (hx : s.proc.fds x = some (.db i)) :
    s.q.curRdb.fd ≠ some x ∧ s.q.rtagFd ≠ some x := by
  refine ⟨fun he => ?_, fun he => ?_⟩
  · obtain ⟨y, hy, hyr⟩ := h.held.ropen hlt
    rw [hy] at he
    cases he
    rw [hyr] at hx
    cases hx
    omega
  · obtain ⟨fd, _, _, _, hfd, -, href, -⟩ := h.log
    rw [hfd] at he
    cases he
    rw [href] at hx
    cases hx

/-- A read switch replaces the log and the read file, then opens the next one. -/
theorem getNextReadFile_logSwitched (h : Readable conf s) (hok : sys.Ok)
    (hlt : s.q.curRdb.curIndex < s.q.curWdb.curIndex) :
    ∃ s₂, getNextReadFile conf sys s = openReadFile conf sys (s.q.curRdb.curIndex+1) s₂ ∧
      LogSwitched s s₂ := by
  have hnone : s.dir.rtag (s.q.curRdb.curIndex+1) = none := by
    by_contra hne
    have := h.rtags _ hne
    omega
  have hopen : mqSmRtagOpenNextFile sys (s.q.curRdb.curIndex+1) s.dir s.proc =
      (some s.proc.next, s.dir.setRtag (s.q.curRdb.curIndex+1) (some []),
        s.proc.openFd (.rtag (s.q.curRdb.curIndex+1) false 0)) := by
    simp [mqSmRtagOpenNextFile, hok.rtagOpen, hnone]
  have hrec := nextLog_recorded h hok { s.q.curRdb with
    flag := false, curIndex := s.q.curRdb.curIndex+1, optCount := 0, pos := 128 } rfl rfl rfl
  simp only at hrec
  generalize hs₁ : (mqSmRtagWriteItem sys _ _).2 = s₁ at hrec
  refine ⟨⟨(s₁.dir.setRtag s.q.curRdb.curIndex none).setDb s.q.curRdb.curIndex none,
    ((s₁.proc.close s.q.rtagFd).munmap s.q.curRdb.mapMem).close s.q.curRdb.fd, s₁.q⟩, ?_, ?_⟩
  · unfold getNextReadFile
    simp only [hopen, hs₁, unlinkFile, hok.unlink, if_true]
    rw [if_neg (by omega)]
  obtain ⟨t, ht, hrt⟩ := hrec.rtag
  obtain rfl : t = [] := by simpa using ht.symm
  obtain ⟨fd, append, off, t', hfd, -, href, hlog, hoff⟩ := hrec.log
  have hq := hrec.q
  have hnx : s₁.proc.next = s.proc.next+1 := hrec.next
  obtain rfl : fd = s.proc.next := by simpa [hq] using hfd.symm
  rw [hq] at href hlog
  obtain ⟨hne, hne'⟩ := h.next_ne
  refine ⟨hq, by simp [hrec.db], ?_, ?_, ?_, by simp [hnx], ?_, ?_⟩
  · simp [hrt, hq]
  · refine ⟨s.proc.next, append, off, t', by simp [hq], by simp [hnx], ?_, ?_, hoff⟩
    · rw [Proc.close_fds_apply, if_neg hne, Proc.munmap_fds, Proc.close_fds_apply, if_neg hne', hq]
      exact href
    · simpa [hq] using hlog
  · intro b
    rw [Proc.close_maps, Proc.munmap_maps_apply, Proc.close_maps, hrec.maps]
    rfl
  · exact (((hrec.dataFd _ (h.held.wfd.openFd _)).close _).munmap _).close _
  · rintro i hi ⟨x, hx, hxi⟩
    obtain ⟨hxlt, -⟩ := h.held.wfd x hx
    have hstay : OpenFd (s.proc.openFd (.rtag (s.q.curRdb.curIndex+1) false 0)) (some x) i := by
      refine ⟨x, rfl, ?_⟩
      rw [Proc.openFd_fds, Function.update_of_ne (by omega)]
      exact hxi
    obtain ⟨x', hx', hxi'⟩ := hrec.openFd _ _ hstay
    cases hx'
    refine ⟨x, hx, ?_⟩
    obtain ⟨hxy, hxold⟩ := h.fd_ne hlt hi hxi
    rw [Proc.close_fds_apply, if_neg hxy, Proc.munmap_fds, Proc.close_fds_apply, if_neg hxold]
    exact hxi'

/-- Resources after the last part of a read switch, from what holds before it. -/
theorem held_of_logSwitched {s₂ s₃ : Store} (h : Held s) (hsw : LogSwitched s s₂)
    (hlt : s.q.curRdb.curIndex < s.q.curWdb.curIndex)
    (hw : s₃.q.curWdb = s.q.curWdb) (hi : s₃.q.curRdb.curIndex = s.q.curRdb.curIndex+1)
    (hmaps : ∀ b, b < s₂.proc.next → s₃.proc.maps b = s₂.proc.maps b)
    (hnext : s₂.proc.next ≤ s₃.proc.next)
    (hunused : ∀ a, s₃.proc.next ≤ a → s₃.proc.maps a = none)
    (hrmap : s.q.curRdb.curIndex+1 < s.q.curWdb.curIndex →
      ∃ a, s₃.q.curRdb.mapMem = some a ∧ s₃.proc.maps a = some (s.q.curRdb.curIndex+1))
    (hshared : s.q.curRdb.curIndex+1 = s.q.curWdb.curIndex →
      s₃.q.curRdb.mapMem = s.q.curWdb.mapMem)
    (hrfd : DataFd s₃.proc s₃.q.curRdb.fd) (hwfd : DataFd s₃.proc s.q.curWdb.fd)
    (hropen : s.q.curRdb.curIndex+1 < s.q.curWdb.curIndex →
      OpenFd s₃.proc s₃.q.curRdb.fd (s.q.curRdb.curIndex+1))
    (hsharedFd : s.q.curRdb.curIndex+1 = s.q.curWdb.curIndex → s₃.q.curRdb.fd = s.q.curWdb.fd)
    (hfds : ∀ x, x < s₂.proc.next → s₃.proc.fds x = s₂.proc.fds x) :
    Held s₃ ∧ (WriterLive s → WriterLive s₃) := by
  have hnx := hsw.next
  have hwriter : WriterLive s → WriterLive s₃ := by
    rintro ⟨b, hb, hm⟩
    have hblt := h.map_lt hm
    refine ⟨b, by rw [hw]; exact hb, ?_⟩
    rw [hmaps b (by omega), hsw.maps, if_neg (h.rmap_ne hlt hm), hw]
    exact hm
  refine ⟨⟨?_, ?_, ?_, hunused, hrfd, ?_, ?_, ?_, ?_⟩, hwriter⟩
  · rw [hw, hi]
    exact hrmap
  · rw [hw, hi]
    exact hshared
  · rcases h.wmap with hlive | ⟨b, hb, hblt, hm⟩
    · exact Or.inl (hwriter hlive)
    · refine Or.inr ⟨b, by rw [hw]; exact hb, by omega, ?_⟩
      rw [hmaps b (by omega), hsw.maps, hm, ite_self]
  · rw [hw]
    exact hwfd
  · rw [hw, hi]
    exact hropen
  · rw [hw, hi]
    exact hsharedFd
  · rw [hw]
    intro hlive
    have hlive' : WriterLive s := by
      rcases h.wmap with hl | ⟨b, hb, hblt, hm⟩
      · exact hl
      · obtain ⟨b', hb', hm'⟩ := hlive
        rw [hw, hb] at hb'
        cases hb'
        rw [hmaps b (by omega), hsw.maps, hm, ite_self] at hm'
        cases hm'
    obtain ⟨x, hx, hxi⟩ := hsw.wopen _ hlt (h.wopen hlive')
    refine ⟨x, hx, ?_⟩
    rw [hfds x (hsw.wfd x hx).1]
    exact hxi

/-- With no call failing, a reader behind the writer reaches the next file. -/
theorem getNextReadFile_switched (h : Readable conf s) (hok : sys.Ok)
    (hlt : s.q.curRdb.curIndex < s.q.curWdb.curIndex) :
    ∃ s', getNextReadFile conf sys s = (true, s') ∧ ReadSwitched s s' := by
  obtain ⟨s₂, hnext, hsw⟩ := getNextReadFile_logSwitched h hok hlt
  obtain ⟨fd, append, off, t, hfd, hfdLt, href, hlog, hoff⟩ := hsw.log
  obtain ⟨d, hd⟩ := h.files (s.q.curRdb.curIndex+1) (by omega) hlt
  obtain ⟨f, hf, hsz, -⟩ := dbSeg_eq_some.mp hd
  have hunused : ∀ a, s₂.proc.next ≤ a → s₂.proc.maps a = none := fun a ha => by
    rw [hsw.maps, h.held.unused a (by have := hsw.next; omega), ite_self]
  have hlog₂ := hsw.log
  rw [hnext, openReadFile]
  by_cases hshare : s.q.curRdb.curIndex+1 = s.q.curWdb.curIndex
  · rw [if_pos (by rw [hsw.q]; exact hshare)]
    refine ⟨_, rfl, ?_⟩
    have hheld := @held_of_logSwitched _ _ { s₂ with q := { s₂.q with curRdb := { s₂.q.curRdb with
        mapMem := s₂.q.curWdb.mapMem, fd := s₂.q.curWdb.fd, flag := true } } }
      h.held hsw hlt (by rw [hsw.q]) (by rw [hsw.q]) (fun _ _ => rfl) le_rfl hunused
      (fun hl => by omega) (fun _ => by rw [hsw.q]) (by rw [hsw.q]; exact hsw.wfd) hsw.wfd
      (fun hl => by omega) (fun _ => by rw [hsw.q]) (fun _ _ => rfl)
    refine ⟨?_, ?_, ?_, ?_, hsw.db, ?_, hsw.log, hheld.1, hheld.2⟩
    all_goals simp only [hsw.q]
    exact hsw.rtag.trans (by rw [hsw.q]; rfl)
  · have hf₂ : s₂.dir.db (s.q.curRdb.curIndex+1) = some f := by
      rw [hsw.db, Function.update_of_ne (by omega), hf]
    rw [if_neg (by rw [hsw.q]; exact hshare), openDbFile_open hok hf₂ hsz]
    refine ⟨_, rfl, ?_⟩
    have hheld := @held_of_logSwitched _ _ ⟨s₂.dir,
        (s₂.proc.openFd (.db (s.q.curRdb.curIndex+1))).mmap (s.q.curRdb.curIndex+1),
        { s₂.q with curRdb := { s₂.q.curRdb with
          mapMem := some (s₂.proc.next+1), fd := some s₂.proc.next, flag := true } }⟩
      h.held hsw hlt (by rw [hsw.q]) (by rw [hsw.q])
      (fun b hb => by
        rw [Proc.mmap_maps, Proc.openFd_maps, Proc.openFd_next, Function.update_of_ne (by omega)])
      (by simp only [Proc.mmap_next, Proc.openFd_next]; omega)
      (fun a ha => by
        simp only [Proc.mmap_next, Proc.openFd_next] at ha
        rw [Proc.mmap_maps, Proc.openFd_maps, Proc.openFd_next, Function.update_of_ne (by omega)]
        exact hunused a (by omega))
      (fun _ => ⟨_, rfl, by simp⟩) (fun he => absurd he hshare)
      ((dataFd_openFd_db _ _).mmap _) ((hsw.wfd.openFd _).mmap _)
      (fun _ => ⟨s₂.proc.next, rfl, by simp⟩) (fun he => absurd he hshare)
      (fun x hx => by rw [Proc.mmap_fds, Proc.openFd_fds, Function.update_of_ne (by omega)])
    refine ⟨?_, ?_, ?_, ?_, hsw.db, ?_, ?_, hheld.1, hheld.2⟩
    all_goals simp only [hsw.q]
    · exact hsw.rtag.trans (by rw [hsw.q]; rfl)
    · rw [hsw.q] at hfd href hlog
      refine ⟨fd, append, off, t, hfd, ?_, ?_, hlog, hoff⟩
      · simp only [Proc.mmap_next, Proc.openFd_next]
        omega
      · rw [Proc.mmap_fds, Proc.openFd_fds, Function.update_of_ne (by omega)]
        exact href

/-- A read switch at the end of a full file keeps the unread messages. -/
theorem sound_of_switched (h : Sound conf clean s finished pend) (hsw : ReadSwitched s s')
    (hlt : s.q.curRdb.curIndex < s.q.curWdb.curIndex)
    (hchain : Unread conf s.dir.db s.q.curWdb.curIndex s.q.curWdb.pos
      (s.q.curRdb.curIndex+1) 128 pend) :
    Sound conf clean s' [] pend ∧ Logged conf s' [] := by
  have hw : s'.q.curWdb = s.q.curWdb := by rw [hsw.q]
  have hfiles := h.files.next hlt hchain
  rw [← hsw.db, ← hsw.index, ← hsw.pos, ← hw] at hfiles
  obtain ⟨d, hd, hscan⟩ := hfiles.read
  refine ⟨⟨hfiles, hsw.held, by rw [hsw.optCount]; rfl, ?_, hsw.log, ?_⟩, ?_⟩
  · intro i hi
    rw [hsw.index]
    by_contra hne
    rw [hsw.rtag] at hi
    by_cases hold : i = s.q.curRdb.curIndex
    · simp [hold] at hi
    · rw [Function.update_of_ne hold, Function.update_of_ne hne] at hi
      exact hold (h.rtags i hi)
  · rw [hsw.q]
    exact ⟨h.inRange.maxque_lt, h.inRange.delay_lt, h.inRange.wlock_ge, h.inRange.wlock_lt,
      h.inRange.wcount_lt⟩
  · refine ⟨[], s'.q.curRdb.pos, d, ?_, hd, hscan, le_rfl, fun i _ _ => by omega⟩
    rw [hsw.index, hsw.rtag, Function.update_of_ne (by omega), Function.update_self]
    rfl

/-- A change of the reader only. Files the reader has not left are untouched. -/
structure ReaderMoved (s s' : Store) : Prop where
  q : s'.q = { s.q with rtagFd := s'.q.rtagFd, curRdb := s'.q.curRdb }
  index : s.q.curRdb.curIndex ≤ s'.q.curRdb.curIndex
  db : ∀ i, s'.q.curRdb.curIndex ≤ i → s'.dir.db i = s.dir.db i
  writer : WriterLive s → WriterLive s'

/-- A reader that stays. -/
theorem ReaderMoved.refl (s : Store) : ReaderMoved s s := ⟨rfl, le_rfl, fun _ _ => rfl, id⟩

/-- A reader that moves twice. -/
theorem ReaderMoved.trans {s₁ s₂ s₃ : Store} (h : ReaderMoved s₁ s₂) (h' : ReaderMoved s₂ s₃) :
    ReaderMoved s₁ s₃ := by
  refine ⟨?_, h.index.trans h'.index, ?_, fun hw => h'.writer (h.writer hw)⟩
  · rw [h'.q, h.q]
  · intro i hi
    rw [h'.db i hi, h.db i (h'.index.trans hi)]

/-- Moving the reader keeps the delay. -/
theorem ReaderMoved.delay (h : ReaderMoved s s') : s'.q.delay = s.q.delay := by rw [h.q]

/-- A switch moves the reader. -/
theorem ReadSwitched.readerMoved (h : ReadSwitched s s') : ReaderMoved s s' := by
  refine ⟨h.q, ?_, ?_, h.writer⟩
  · rw [h.index]
    omega
  · intro i hi
    rw [h.index] at hi
    rw [h.db, Function.update_of_ne (by omega)]

/-- The state in which the read loop finds the end of the queue. -/
def atQueueEnd (s : Store) : Store :=
  { s with q := { s.q with curRdb := { s.q.curRdb with pos := s.q.curWdb.pos }, unreadCount := 0 } }

/-- What one iteration of the read loop can do on a sound queue. -/
inductive ReadStep (conf : UcmqConf) (sys : Sys) (clean : Prop) (s : Store)
    (finished : List (Msg conf)) : List (Msg conf) → Except Fault GetStep → Prop
  | fault {pend : List (Msg conf)} (hdead : WriterDead s) :
      ReadStep conf sys clean s finished pend (.error .segv)
  | atEnd (hs : Sound conf clean (atQueueEnd s) finished [])
      (hl : Logged conf (atQueueEnd s) finished) :
      ReadStep conf sys clean s finished [] (.ok (.done none (atQueueEnd s)))
  | young {m : Msg conf} {rest : List (Msg conf)} (hy : tooYoung sys s.q.delay m.time) :
      ReadStep conf sys clean s finished (m :: rest) (.ok (.done none s))
  | take {m : Msg conf} {rest : List (Msg conf)} (hy : ¬tooYoung sys s.q.delay m.time)
      (hs : Sound conf clean (takeMsg s m.body.length) (finished ++ [m]) rest) :
      ReadStep conf sys clean s finished (m :: rest)
        (.ok (.done (some m.item) (takeMsg s m.body.length)))
  | move {pend finished' : List (Msg conf)} {s' : Store} (hs : Sound conf clean s' finished' pend)
      (hl : Logged conf s' finished') (hm : ReaderMoved s s')
      (hd : readDistance conf s' < readDistance conf s) :
      ReadStep conf sys clean s finished pend (.ok (.again s'))

/-- A reader may be moved over quiet bytes. -/
theorem sound_setReadPos (h : Sound conf clean s finished pend) {p : ℕ}
    (hd : dbSeg conf s.dir.db s.q.curRdb.curIndex = some d) (hp : s.q.curRdb.pos ≤ p)
    (hq : Quiet msgHeadOfFirstMagicNum d s.q.curRdb.pos p)
    (hc : Unread conf s.dir.db s.q.curWdb.curIndex s.q.curWdb.pos s.q.curRdb.curIndex p pend) :
    Sound conf clean (setReadPos s p) finished pend :=
  ⟨h.files.skip hd hp hq hc, h.held.congr rfl ⟨rfl, rfl, rfl⟩ ⟨rfl, rfl, rfl⟩, h.rcount,
    h.rtags, h.log, h.inRange.maxque_lt, h.inRange.delay_lt, h.inRange.wlock_ge, h.inRange.wlock_lt,
    h.inRange.wcount_lt⟩

/-- At the end of the queue nothing is unread. -/
theorem sound_atQueueEnd (h : Sound conf clean s finished pend) (hl : Logged conf s finished)
    (he : s.q.curRdb.curIndex = s.q.curWdb.curIndex) (hp : s.q.curWdb.pos ≤ s.q.curRdb.pos+12) :
    pend = [] ∧ Sound conf clean (atQueueEnd s) finished [] ∧
      Logged conf (atQueueEnd s) finished := by
  have hchain := h.files.chain
  rw [he] at hchain
  obtain rfl : pend = [] := hchain.nil_of_short hp
  obtain ⟨d, hd⟩ := h.files.chain.segment
  have hle := h.files.rpos_le_wpos he
  have hquiet : Quiet msgHeadOfFirstMagicNum d s.q.curRdb.pos s.q.curWdb.pos := by
    rw [he] at hd
    exact (hchain.scans_last hd).quiet
  have hend : Unread conf s.dir.db s.q.curWdb.curIndex s.q.curWdb.pos s.q.curRdb.curIndex
      s.q.curWdb.pos [] := by
    rw [he] at hd ⊢
    exact .last hd ⟨le_rfl, fun i _ _ => by omega⟩
  have hs :=
    (sound_setReadPos h hd hle hquiet hend).setCounters 0 s.q.putNum s.q.getNum s.q.syncIntv
  exact ⟨rfl, hs, hl.setReadPos hd hle hquiet⟩

/-- The first frame at the read cursor may be consumed. -/
theorem sound_takeMsg (h : Sound conf clean s finished pend) {m : Msg conf} {rest : List (Msg conf)}
    (hd : dbSeg conf s.dir.db s.q.curRdb.curIndex = some d)
    (hh : Holds d s.q.curRdb.pos (msgBytes m.item))
    (hc : Unread conf s.dir.db s.q.curWdb.curIndex s.q.curWdb.pos s.q.curRdb.curIndex
      (s.q.curRdb.pos+(m.body.length+12)) rest) :
    Sound conf clean (takeMsg s m.body.length) (finished ++ [m]) rest := by
  have hm := m.body_lt
  have hmax := maxDbFileSize_le conf
  have hpos : u32 (s.q.curRdb.pos+(m.body.length+12)) = s.q.curRdb.pos+(m.body.length+12) :=
    h.files.u32_rpos (by omega)
  have hcount : u32 (s.q.curRdb.optCount+1) = s.q.curRdb.optCount+1 := by
    have := h.files.finished_le
    have := h.rcount
    exact u32_of_lt (by omega)
  have hfiles := h.files.take hd hh hc
  rw [← hpos] at hfiles
  refine ⟨hfiles, h.held.congr rfl ⟨rfl, rfl, rfl⟩ ⟨rfl, rfl, rfl⟩, ?_,
    h.rtags, h.log, h.inRange.maxque_lt, h.inRange.delay_lt, h.inRange.wlock_ge,
    h.inRange.wlock_lt, h.inRange.wcount_lt⟩
  show (finished ++ [m]).length = u32 (s.q.curRdb.optCount+1)
  rw [hcount, List.length_append, h.rcount]
  rfl

/-- Reading a byte shortens the distance. -/
theorem readDistance_setReadPos (h : s.q.curRdb.pos+1 ≤ maxDbFileSize conf) :
    readDistance conf (setReadPos s (s.q.curRdb.pos+1)) < readDistance conf s := by
  simp only [readDistance, setReadPos]
  omega

/-- A reader at the start of its next file is closer to the end. -/
theorem readDistance_next (hlt : s.q.curRdb.curIndex < s.q.curWdb.curIndex)
    (hw : s'.q.curWdb = s.q.curWdb) (hi : s'.q.curRdb.curIndex = s.q.curRdb.curIndex+1)
    (hp : s'.q.curRdb.pos = 128) :
    readDistance conf s' < readDistance conf s := by
  obtain ⟨k, hk⟩ : ∃ k, s.q.curWdb.curIndex = s.q.curRdb.curIndex+1+k :=
    ⟨s.q.curWdb.curIndex-(s.q.curRdb.curIndex+1), by omega⟩
  have h₁ : s.q.curWdb.curIndex-(s.q.curRdb.curIndex+1) = k := by omega
  have h₂ : s.q.curWdb.curIndex-s.q.curRdb.curIndex = k+1 := by omega
  simp only [readDistance, hw, hi, hp, h₁, h₂, Nat.add_mul]
  omega

/-- Every iteration of the read loop on a sound queue is one of the listed steps. -/
theorem readStep_of_sound (h : Sound conf clean s finished pend) (hl : Logged conf s finished)
    (hok : sys.Ok) :
    ReadStep conf sys clean s finished pend (getDataStep conf sys s) := by
  have hu : u32 (s.q.curRdb.pos+12) = s.q.curRdb.pos+12 := h.files.u32_rpos (by omega)
  by_cases hend : s.q.curRdb.curIndex = s.q.curWdb.curIndex ∧
    s.q.curWdb.pos ≤ u32 (s.q.curRdb.pos+12)
  · obtain ⟨rfl, hs, hlog⟩ := sound_atQueueEnd h hl hend.1 (by omega)
    rw [getDataStep, if_pos hend]
    exact .atEnd hs hlog
  · rw [getDataStep, if_neg hend]
    rw [hu] at hend
    rcases view_of_readable (readable_of_sound h) with ⟨d, hd, hv⟩ | ⟨hdead, -, hv⟩
    · rw [hv]
      rcases parse_cases_of_files h.files hend hd with
        ⟨m, rest, rfl, hp, hh, hc⟩ | ⟨hp, hfit, hm, hc⟩ | ⟨hp, hlt, hc⟩
      · simp only [hp]
        by_cases hy : tooYoung sys s.q.delay m.item.delay
        · rw [if_pos hy]
          exact .young hy
        · rw [if_neg hy]
          exact .take hy (sound_takeMsg h hd hh hc)
      · have hstep : u32 (s.q.curRdb.pos+1) = s.q.curRdb.pos+1 := h.files.u32_rpos (by omega)
        have hquiet : Quiet msgHeadOfFirstMagicNum d s.q.curRdb.pos (s.q.curRdb.pos+1) := by
          intro i hi hlt
          obtain rfl : i = s.q.curRdb.pos := by omega
          exact hm
        simp only [hp, hstep]
        exact .move (sound_setReadPos h hd (by omega) hquiet hc)
          (hl.setReadPos hd (by omega) hquiet)
          ⟨rfl, le_rfl, fun _ _ => rfl, id⟩ (readDistance_setReadPos hfit)
      · obtain ⟨s', hnext, hsw⟩ := getNextReadFile_switched (readable_of_sound h) hok hlt
        obtain ⟨hs, hlog⟩ := sound_of_switched h hsw hlt hc
        simp only [hp, hnext]
        exact .move hs hlog hsw.readerMoved
          (readDistance_next hlt (by rw [hsw.q]) hsw.index hsw.pos)
    · rw [hv]
      exact .fault hdead

/-- What reading from a sound queue can return. -/
inductive ReadResult (conf : UcmqConf) (sys : Sys) (clean : Prop) (s : Store) :
    List (Msg conf) → Except Fault (Option MsgItem × Store) → Prop
  | fault {pend : List (Msg conf)} (hdead : ¬WriterLive s) :
      ReadResult conf sys clean s pend (.error .segv)
  | ended {finished : List (Msg conf)} {s' : Store} (hm : ReaderMoved s s')
      (hs : Sound conf clean (atQueueEnd s') finished [])
      (hl : Logged conf (atQueueEnd s') finished) :
      ReadResult conf sys clean s [] (.ok (none, atQueueEnd s'))
  | young {m : Msg conf} {rest finished : List (Msg conf)} {s' : Store} (hm : ReaderMoved s s')
      (hs : Sound conf clean s' finished (m :: rest)) (hl : Logged conf s' finished)
      (hy : tooYoung sys s.q.delay m.time) :
      ReadResult conf sys clean s (m :: rest) (.ok (none, s'))
  | take {m : Msg conf} {rest finished : List (Msg conf)} {s' : Store} (hm : ReaderMoved s s')
      (hy : ¬tooYoung sys s.q.delay m.time)
      (hs : Sound conf clean (takeMsg s' m.body.length) (finished ++ [m]) rest) :
      ReadResult conf sys clean s (m :: rest) (.ok (some m.item, takeMsg s' m.body.length))

/-- The result of a get from where the reader has moved. -/
theorem ReadResult.of_moved {res : Except Fault (Option MsgItem × Store)} (hm : ReaderMoved s s')
    (h : ReadResult conf sys clean s' pend res) : ReadResult conf sys clean s pend res := by
  cases h with
  | fault hdead => exact .fault fun hw => hdead (hm.writer hw)
  | ended hm' hs hl => exact .ended (hm.trans hm') hs hl
  | young hm' hs hl hy => exact .young (hm.trans hm') hs hl (by rw [← hm.delay]; exact hy)
  | take hm' hy hs => exact .take (hm.trans hm') (by rw [← hm.delay]; exact hy) hs

/-- The read loop ends within the distance of the read cursor, and delivers the
oldest unread message unless it is too young. -/
theorem readResult_of_loop {fuel : ℕ} (h : Sound conf clean s finished pend)
    (hl : Logged conf s finished) (hok : sys.Ok) (hf : readDistance conf s < fuel) :
    ReadResult conf sys clean s pend (getDataLoop conf sys fuel s) := by
  induction fuel generalizing s finished with
  | zero => omega
  | succ fuel ih =>
    have hstep := readStep_of_sound h hl hok
    rw [getDataLoop]
    generalize getDataStep conf sys s = res at hstep
    cases hstep with
    | fault hdead => exact .fault hdead.not_live
    | atEnd hs hlog => exact .ended (.refl s) hs hlog
    | young hy => exact .young (.refl s) h hl hy
    | take hy hs => exact .take (.refl s) hy hs
    | move hs hlog hm hd => exact .of_moved hm (ih hs hlog (by omega))

/-- Reading from a sound queue. -/
theorem readResult_of_sound (h : Sound conf clean s finished pend) (hl : Logged conf s finished)
    (hok : sys.Ok) : ReadResult conf sys clean s pend (mqSmGetData conf sys s) :=
  readResult_of_loop h hl hok (Nat.lt_succ_self _)

/-- The read loop moves on. -/
def ReadMove (conf : UcmqConf) (sys : Sys) (a b : Store) : Prop :=
  getDataStep conf sys a = .ok (.again b)

/-- States in a read loop hold what the queue held before it. -/
theorem sound_of_moves (h : Sound conf clean s finished pend) (hl : Logged conf s finished)
    (hok : sys.Ok) (hm : Relation.ReflTransGen (ReadMove conf sys) s s') :
    ∃ finished', Sound conf clean s' finished' pend ∧ Logged conf s' finished' ∧
      ReaderMoved s s' := by
  induction hm with
  | refl => exact ⟨finished, h, hl, .refl s⟩
  | @tail b c _ hbc ih =>
    obtain ⟨fin, hs, hlog, hmoved⟩ := ih
    have hstep := readStep_of_sound hs hlog hok
    rw [ReadMove] at hbc
    rw [hbc] at hstep
    cases hstep with
    | move hs' hl' hmoved' _ => exact ⟨_, hs', hl', hmoved.trans hmoved'⟩

/-- The read loop has left a file behind the write file and switches next. -/
structure AtReadSwitch (conf : UcmqConf) (s : Store) : Prop where
  behind : s.q.curRdb.curIndex < s.q.curWdb.curIndex
  leaves : ∃ view, s.mapView conf s.q.curRdb.mapMem = .ok view ∧
    (mqSmDbParseMsg conf view s.q.curRdb.pos = .lenBey ∨
      mqSmDbParseMsg conf view s.q.curRdb.pos = .msgErr)

/-- A loop that leaves a file finds the unread messages behind it. -/
theorem unread_of_atReadSwitch (h : Sound conf clean s finished pend) (hat : AtReadSwitch conf s) :
    Unread conf s.dir.db s.q.curWdb.curIndex s.q.curWdb.pos (s.q.curRdb.curIndex+1) 128 pend := by
  have hbehind := hat.behind
  obtain ⟨view, hview, hleaves⟩ := hat.leaves
  rcases view_of_readable (readable_of_sound h) with ⟨d, hd, hv⟩ | ⟨-, he, -⟩
  · rw [hv] at hview
    cases hview
    rcases parse_cases_of_files h.files
      (by omega) hd with ⟨m, rest, -, hp, -⟩ | ⟨hp, -⟩ | ⟨-, -, hc⟩
    · rw [hp] at hleaves
      rcases hleaves with he | he <;> cases he
    · rw [hp] at hleaves
      rcases hleaves with he | he <;> cases he
    · exact hc
  · omega

end Ucmq.ReadPath
