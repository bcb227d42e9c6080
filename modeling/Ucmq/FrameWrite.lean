import Ucmq.CleanRestart

/-!
# Where a message is written

A message is copied through the write cursor's mapping, at the position of the
cursor or, after a rotation, behind the head of the next file. The bound of the
request handler, that of the writer and that of the reader are the same: every
length the handler lets through fits a fresh file, and whatever was written
reads back at its offset, also inside the file head or up to the last byte.
-/

namespace Ucmq.FrameWrite

open ByteRegion DecimalText StoreConfig StoreMsg StoreState StoreRtag StoreFile StoreManage
open QueueManage WritePath Crc16 Evhttp QueueStep ServerRun CleanRestart

variable {conf : UcmqConf} {sys : Sys} {s s' : Store} {i p : ℕ} {f : DbFile} {bs : List UInt8}
variable {item : MsgItem}

/-- The write cursor's mapping covers data file i. -/
structure WriterMaps (conf : UcmqConf) (s : Store) (i : ℕ) (f : DbFile) : Prop where
  map : s.q.curWdb.mapMem.bind s.proc.maps = some i
  file : s.dir.db i = some f
  full : maxDbFileSize conf ≤ f.size

/-- A queue after a message was copied to an offset of data file i. -/
structure FrameWritten (conf : UcmqConf) (item : MsgItem) (start i : ℕ) (f : DbFile) (s' : Store) :
    Prop where
  maps : WriterMaps conf s' i { f with data := writeAt f.data start (msgBytes item) }
  ends : start+12+item.len ≤ maxDbFileSize conf
  pos : s'.q.curWdb.pos = start+12+item.len

/-- A write within the file changes its contents only. -/
theorem mapWrite_of_maps (h : WriterMaps conf s i f) (hp : p+bs.length ≤ maxDbFileSize conf) :
    s.mapWrite conf s.q.curWdb.mapMem p bs =
      .ok { s with dir := s.dir.setDb i (some { f with data := writeAt f.data p bs }) } := by
  have hfull := h.full
  simp only [Store.mapWrite, h.map, h.file]
  rw [if_neg (by omega)]

/-- A write that succeeded went through a mapping of a full file. -/
theorem writerMaps_of_mapWrite (h : s.mapWrite conf s.q.curWdb.mapMem p bs = .ok s') :
    s'.q = s.q ∧ ∃ i f, WriterMaps conf s' i f := by
  unfold Store.mapWrite at h
  cases hm : s.q.curWdb.mapMem.bind s.proc.maps with
  | none => simp [hm] at h
  | some i =>
    cases hf : s.dir.db i with
    | none => simp [hm, hf] at h
    | some f =>
      simp only [hm, hf] at h
      split_ifs at h with hroom
      cases h
      exact ⟨rfl, i, { f with data := writeAt f.data p bs }, hm, Function.update_self .., by
        show maxDbFileSize conf ≤ f.size
        omega⟩

/-- A position record does not change the data files. -/
theorem WriterMaps.rtagWriteItem (h : WriterMaps conf s i f) (sys : Sys) (site : RtagSite) :
    WriterMaps conf (mqSmRtagWriteItem sys site s).2 i f := by
  unfold mqSmRtagWriteItem
  split
  · dsimp only
    split
    · exact h
    · exact ⟨h.map, h.file, h.full⟩
  · exact h

/-- A rotation that succeeds leaves the writer behind the head of a full file. -/
theorem writerMaps_of_nextWriteFile (h : getNextWriteFile conf sys s = .ok (true, s')) :
    s'.q.curWdb.pos = 128 ∧ ∃ i f, WriterMaps conf s' i f := by
  unfold getNextWriteFile at h
  generalize releaseWriteFile s = s₁ at h
  dsimp only at h
  split at h
  · cases h
  · split at h
    · cases h
    · simp only [bind, Except.bind, mqSmDbWriteFileHead] at h
      split at h
      · cases h
      · rename_i s₂ hhead
        obtain ⟨hq, i, f, hmaps⟩ := writerMaps_of_mapWrite hhead
        cases h
        exact ⟨by rw [rtagWriteItem_q, hq], i, f, hmaps.rtagWriteItem sys .nextWrite⟩

/-- A message that fits is copied to the write position. -/
theorem writeMsgBytes_of_maps (h : WriterMaps conf s i f) (hlen : item.len = item.msg.length)
    (hfit : s.q.curWdb.pos+12+item.len ≤ maxDbFileSize conf) :
    ∃ s', writeMsgBytes conf item s = .ok s' ∧ FrameWritten conf item s.q.curWdb.pos i f s' := by
  have hmax := maxDbFileSize_le conf
  have hbytes := length_msgBytes_item hlen
  have hu : u32 (s.q.curWdb.pos+(item.len+12)) = s.q.curWdb.pos+12+item.len := by
    rw [u32_of_lt (by omega)]
    omega
  have hroom : s.q.curWdb.pos+(msgBytes item).length ≤ maxDbFileSize conf := by omega
  refine ⟨_, by rw [writeMsgBytes, mapWrite_of_maps h hroom]; rfl, ?_, hfit, hu⟩
  exact ⟨h.map, Function.update_self .., h.full⟩

/-- A put of a whole body computes its checksum and writes it. -/
theorem putData_of_length {body : List UInt8} (hlt : body.length < 2^31) (s : Store) :
    mqSmPutData conf sys (putItem sys body.length body) s =
      mqSmDbWriteMsg conf sys
        { putItem sys body.length body with crc16 := crc16Append body } s := by
  have hsigned : toI32 (body.length : ℤ) = body.length := toI32_of_bounds (by omega) (by omega)
  have hcrc : mqSmDbBuildMsgCrc16 (fun n => (putItem sys body.length body).msg.take n)
      (toI32 ((putItem sys body.length body).len : ℤ)) = some (crc16Append body) := by
    simp only [putItem]
    rw [hsigned, mqSmDbBuildMsgCrc16, if_neg (by omega), Int.toNat_natCast, List.take_length]
  rw [mqSmPutData, hcrc]
  rfl

/-- The item of a put describes its body. -/
theorem framed_putItem {body : List UInt8} (hpos : 0 < body.length) :
    MsgItem.Framed { putItem sys body.length body with crc16 := crc16Append body } :=
  ⟨rfl, rfl, wlock_column_lt sys.now, rfl, rfl, hpos⟩

/-- A put at any offset of the write file at which the message fits reads back
from there, and changes no byte outside of the message. -/
theorem put_reads_back {body : List UInt8} (h : WriterMaps conf s i f) (hpos : 0 < body.length)
    (hfit : s.q.curWdb.pos+body.length+12 ≤ maxDbFileSize conf) (sys : Sys) :
    ∃ s' f', mqSmPutData conf sys (putItem sys body.length body) s = .ok (true, s') ∧
      s'.dir.db i = some f' ∧ f'.size = f.size ∧
      mqSmDbParseMsg conf (some f'.data) s.q.curWdb.pos =
        .ok { putItem sys body.length body with crc16 := crc16Append body } ∧
      s'.q.curWdb.pos = s.q.curWdb.pos+body.length+12 ∧
      ∀ k, k < s.q.curWdb.pos ∨ s.q.curWdb.pos+body.length+12 ≤ k → f'.data k = f.data k := by
  have hmax := maxDbFileSize_le conf
  have hframed := @framed_putItem sys _ hpos
  have hnorot : ¬needsRotation conf s.q body.length := by
    rw [needsRotation, u32_of_lt (by omega)]
    omega
  obtain ⟨s', hw, hmaps, hends, hwpos⟩ := writeMsgBytes_of_maps h hframed.len
    (by show s.q.curWdb.pos+12+body.length ≤ _; omega)
  have hbytes := length_msgBytes_item hframed.len
  refine ⟨s', _, ?_, hmaps.file, rfl, parseMsg_of_framed hframed (holds_writeAt _ _ _) hends, ?_,
    ?_⟩
  · rw [putData_of_length (by omega)]
    exact writeMsg_of_fit hnorot hw
  · rw [hwpos]
    show s.q.curWdb.pos+12+body.length = _
    omega
  · intro k hk
    refine writeAt_outside _ ?_
    rw [hbytes]
    show k < s.q.curWdb.pos ∨ s.q.curWdb.pos+(12+body.length) ≤ k
    omega

/-- A queue just created has its first file mapped. -/
theorem writerMaps_created (conf : UcmqConf) :
    WriterMaps conf (created conf) 1 ⟨maxDbFileSize conf, blankData conf⟩ :=
  ⟨by simp [created], by simp [created], le_rfl⟩

/-- The first put of a queue, of one byte that is a magic byte itself. -/
theorem put_reads_back_first :
    ∃ s' f', mqSmPutData UcmqConf.least (Sys.quiet 100 1)
        (putItem (Sys.quiet 100 1) [(0xFE : UInt8)].length [0xFE]) (created UcmqConf.least) =
          .ok (true, s') ∧
      s'.dir.db 1 = some f' ∧ f'.size = maxDbFileSize UcmqConf.least ∧
      mqSmDbParseMsg UcmqConf.least (some f'.data) (created UcmqConf.least).q.curWdb.pos =
        .ok { putItem (Sys.quiet 100 1)
          [(0xFE : UInt8)].length [0xFE] with crc16 := crc16Append [0xFE] } ∧
      s'.q.curWdb.pos = (created UcmqConf.least).q.curWdb.pos+[(0xFE : UInt8)].length+12 ∧
      ∀ k, k < (created UcmqConf.least).q.curWdb.pos ∨
        (created UcmqConf.least).q.curWdb.pos+[(0xFE : UInt8)].length+12 ≤ k →
        f'.data k = blankData UcmqConf.least k := by
  have hfit : (created UcmqConf.least).q.curWdb.pos+[(0xFE : UInt8)].length+12 ≤
      maxDbFileSize UcmqConf.least := (by decide : 128+1+12 ≤ 1048576).trans (le_maxDbFileSize _)
  have h := put_reads_back (writerMaps_created UcmqConf.least) (by simp) hfit (Sys.quiet 100 1)
  dsimp only at h
  exact h

/-- The message of the request passes the length check of a put. -/
def PassesLengthCheck (conf : UcmqConf) (req : Request) : Prop :=
  ∃ size msg, putMsg req = some (size, msg) ∧ putLenOk conf (toU32 size)

/-- From every position of the write cursor a write of the item needs at most
one rotation, and after it, or without one, copies the whole frame into one file.
No position sum wraps. -/
structure WritesInOneFile (conf : UcmqConf) (sys : Sys) (s : Store) (item : MsgItem) : Prop where
  sums : s.q.curWdb.pos+item.len+12 < 2^32 ∧ 128+item.len+12 < 2^32
  here : ¬needsRotation conf s.q item.len → ∀ i f, WriterMaps conf s i f →
    ∃ s', mqSmDbWriteMsg conf sys item s = .ok (true, s') ∧
      FrameWritten conf item s.q.curWdb.pos i f s'
  next : needsRotation conf s.q item.len → ∀ s₁ s₂, mqSmDbWriteFileHead conf s = .ok s₁ →
    getNextWriteFile conf sys s₁ = .ok (true, s₂) → ¬needsRotation conf s₂.q item.len ∧
    ∃ s' i f, mqSmDbWriteMsg conf sys item s = .ok (true, s') ∧ FrameWritten conf item 128 i f s'

/-- The length check lets through exactly the bodies that fit a fresh file, and
what it lets through is written whole into one file. -/
structure GateAgrees (conf : UcmqConf) (req : Request) : Prop where
  gate : PassesLengthCheck conf req ↔
    0 < (putBody req).length ∧ 128+12+(putBody req).length ≤ maxDbFileSize conf
  writes : ∀ size msg, putMsg req = some (size, msg) → putLenOk conf (toU32 size) →
    ∀ item : MsgItem, item.len = toU32 size → item.msg = msg →
      item.len = (putBody req).length ∧
      ∀ sys s, s.q.curWdb.pos ≤ maxDbFileSize conf → WritesInOneFile conf sys s item

/-- An item that fits a fresh file is written in one file. -/
theorem writesInOneFile_of_fits (hlen : item.len = item.msg.length)
    (hfit : 128+12+item.len ≤ maxDbFileSize conf) (hp : s.q.curWdb.pos ≤ maxDbFileSize conf) :
    WritesInOneFile conf sys s item := by
  have hmax := maxDbFileSize_le conf
  have hu : u32 (s.q.curWdb.pos+item.len+12) = s.q.curWdb.pos+item.len+12 := u32_of_lt (by omega)
  refine ⟨⟨by omega, by omega⟩, ?_, ?_⟩
  · intro hfree i f hm
    rw [needsRotation, hu] at hfree
    obtain ⟨s', hw, hframe⟩ := writeMsgBytes_of_maps hm hlen (by omega)
    exact ⟨s', writeMsg_of_fit (by rw [needsRotation, hu]; exact hfree) hw, hframe⟩
  · intro hrot s₁ s₂ hhead hnext
    obtain ⟨hpos, i, f, hm⟩ := writerMaps_of_nextWriteFile hnext
    obtain ⟨s', hw, hframe⟩ := writeMsgBytes_of_maps hm hlen (by omega)
    rw [hpos] at hframe
    refine ⟨?_, s', i, f, writeMsg_of_rotated hrot hhead hnext hw, hframe⟩
    rw [needsRotation, hpos, u32_of_lt (by omega)]
    omega

/-- The length check sees the length of a body reduced to 32 bits. -/
theorem passesLengthCheck_iff {req : Request} (hg : req.data = none ∨ req.body = []) :
    PassesLengthCheck conf req ↔ putLenOk conf (u32 (putBody req).length) := by
  constructor
  · rintro ⟨size, msg, hm, hl⟩
    rwa [(putMsg_eq hm).2] at hl
  · intro hl
    have hsome : ∃ size msg, putMsg req = some (size, msg) := by
      cases hd : req.data with
      | some data =>
        have hbody : req.body = [] := hg.resolve_left (by simp [hd])
        exact ⟨toI32 data.length, data, by simp [putMsg, hd, hbody, toI32]⟩
      | none =>
        have hb : putBody req = req.body := by simp [putBody, hd]
        have hmax := maxDbFileSize_le conf
        rw [hb] at hl
        have hsize : 0 < toI32 req.body.length := (toI32_pos_iff _).mpr ⟨hl.1, by
          have := hl.2
          rw [u32] at this
          omega⟩
        exact ⟨toI32 req.body.length, req.body, by simp only [putMsg, hd, hsize, if_true]⟩
    obtain ⟨size, msg, hm⟩ := hsome
    refine ⟨size, msg, hm, ?_⟩
    rwa [(putMsg_eq hm).2]

/-- For a body given once, the length check and the writer agree exactly when
the length of the body is not one that 32 bits reduce to an accepted length. -/
theorem length_gate_iff {req : Request} (hg : req.data = none ∨ req.body = []) :
    GateAgrees conf req ↔
      (putBody req).length < 2^32 ∨ ¬putLenOk conf (u32 (putBody req).length) := by
  have hmax := maxDbFileSize_le conf
  have hmin := le_maxDbFileSize conf
  constructor
  · intro h
    by_contra hno
    push Not at hno
    have := (h.gate.mp ((passesLengthCheck_iff hg).mpr hno.2)).2
    omega
  · intro h
    have hgate : putLenOk conf (u32 (putBody req).length) ↔
        0 < (putBody req).length ∧ 128+12+(putBody req).length ≤ maxDbFileSize conf := by
      rcases Nat.lt_or_ge (putBody req).length (2^32) with hlt | hge
      · rw [u32_of_lt hlt, putLenOk]
        omega
      · have hbad := h.resolve_left (by omega)
        constructor
        · exact fun hok => absurd hok hbad
        · omega
    refine ⟨(passesLengthCheck_iff hg).trans hgate, ?_⟩
    intro size msg hm hl item hlen hmsg
    obtain ⟨rfl, hsize⟩ := putMsg_eq hm
    rw [hsize] at hl hlen
    have hfits := hgate.mp hl
    rw [u32_of_lt (by omega)] at hlen
    refine ⟨hlen, fun sys s hp => writesInOneFile_of_fits ?_ (by omega) hp⟩
    rw [hlen, hmsg]

/-- A put request with a message as its body. -/
def posted (body : List UInt8) : Request := ⟨true, some "put", some "q", none, none, none, body⟩

/-- A body of one byte passes with its own length. -/
theorem length_gate_iff_one : GateAgrees .least (posted [1]) :=
  (length_gate_iff (.inl rfl)).mpr (.inl (by decide))

/-- A body of 2^32+1 bytes passes as one of a single byte. -/
theorem long_body_passes : ¬GateAgrees UcmqConf.least (posted (List.replicate (2^32+1) 65)) := by
  intro h
  have hlen : (putBody (posted (List.replicate (2^32+1) 65))).length = 2^32+1 :=
    List.length_replicate ..
  have hpass : PassesLengthCheck UcmqConf.least (posted (List.replicate (2^32+1) 65)) := by
    rw [passesLengthCheck_iff (Or.inl rfl), hlen]
    decide
  have hfits := (h.gate.mp hpass).2
  have hmax := maxDbFileSize_le UcmqConf.least
  rw [hlen] at hfits
  omega

end Ucmq.FrameWrite
