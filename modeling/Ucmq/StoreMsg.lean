import Ucmq.Crc16
import Ucmq.DecimalText
import Ucmq.FramedLog
import Ucmq.StoreConfig

/-!
# Message frames and data file heads

The functions of mq_store_msg.c on the contents of one mapped data file. A
mapping is absent when its pointer is null. Multi-byte fields are stored least
significant byte first. Position sums are unsigned 32-bit, as in the source.
-/

namespace Ucmq.StoreMsg

open ByteRegion DecimalText StoreConfig Crc16

/-- Message item with the head fields as stored and the body bytes. -/
structure MsgItem where
  /-- First magic byte. -/
  magicNum1 : UInt8
  /-- Second magic byte. -/
  magicNum2 : UInt8
  /-- Second at which the message was put. -/
  delay : ℕ
  /-- Checksum of the body. -/
  crc16 : UInt16
  /-- Length of the body. -/
  len : ℕ
  /-- Body bytes. -/
  msg : List UInt8
  deriving DecidableEq

/-- Result of checking for a message at a position. -/
inductive MsgCheckRet where
  | ok (item : MsgItem)
  | msgErr
  | magNumErr
  | parseErr
  | crcErr
  | lenBey
  deriving DecidableEq

/-- Little-endian bytes of a 16-bit value. -/
def le16 (n : ℕ) : List UInt8 := [UInt8.ofNat n, UInt8.ofNat (n/2^8)]

/-- Little-endian bytes of a 32-bit value. -/
def le32 (n : ℕ) : List UInt8 :=
  [UInt8.ofNat n, UInt8.ofNat (n/2^8), UInt8.ofNat (n/2^16), UInt8.ofNat (n/2^24)]

/-- Value of little-endian bytes. -/
def ofLe : List UInt8 → ℕ
  | [] => 0
  | b :: bs => b.toNat+2^8*ofLe bs

/-- The twelve head bytes of a message, in the order they are copied. -/
def msgHead (item : MsgItem) : List UInt8 :=
  [item.magicNum1, item.magicNum2] ++ le32 item.delay ++ le16 item.crc16.toNat ++ le32 item.len

/-- Head bytes followed by the body. -/
def msgBytes (item : MsgItem) : List UInt8 := msgHead item ++ item.msg.take item.len

/-- Read the head fields at a position. The source function has no failing
exit. -/
def mqSmDbParseMsgHead (d : Region) (p : ℕ) : Option MsgItem :=
  some ⟨d p, d (p+1), ofLe (slice d (p+2) 4), UInt16.ofNat (ofLe (slice d (p+6) 2)),
    ofLe (slice d (p+8) 4), []⟩

/-- Checksum of the first len bytes; a length that is negative as a signed
integer is refused. -/
def mqSmDbBuildMsgCrc16 (data : ℕ → List UInt8) (len : ℤ) : Option UInt16 :=
  if len < 0 then none else some (crc16Append (data len.toNat))

/-- Second half of the message check: with the head fields read, the frame has
to end within the file and the stored checksum has to match the body. -/
def checkMsgBody (conf : UcmqConf) (d : Region) (curPos : ℕ) (item : MsgItem) : MsgCheckRet :=
  if maxDbFileSize conf < u32 (curPos+item.len+12) then .lenBey
  else match mqSmDbBuildMsgCrc16 (slice d (curPos+12)) (toI32 item.len) with
    | none => .crcErr
    | some tmpCrc16 =>
      if item.crc16 = tmpCrc16 then .ok { item with msg := slice d (curPos+12) item.len }
      else .crcErr

/-- Check for a message at a position of a mapped file. -/
def mqSmDbParseMsg (conf : UcmqConf) (msg : Option Region) (curPos : ℕ) : MsgCheckRet :=
  match msg with
  | none => .msgErr
  | some d =>
    if maxDbFileSize conf ≤ u32 (curPos+12) then .lenBey
    else if d curPos ≠ msgHeadOfFirstMagicNum ∨ d (curPos+1) ≠ msgHeadOfSecondMagicNum then
      .magNumErr
    else match mqSmDbParseMsgHead d curPos with
      | none => .parseErr
      | some item => checkMsgBody conf d curPos item

/-- Text as the bytes of its character codes. -/
def textBytes (s : List Char) : List UInt8 := s.map fun c => UInt8.ofNat c.toNat

/-- Bytes as characters of the same codes. -/
def bytesText (bs : List UInt8) : List Char := bs.map fun b => Char.ofNat b.toNat

/-- The head written to a data file: version digit, padded message count, and
zeros up to the head length. -/
def dbFileHead (optCount : ℕ) : List UInt8 :=
  let text := textBytes (padDec 1 1 ++ padDec 12 optCount)
  text ++ List.replicate (128-text.length) 0

/-- The message count stored in a data file head, as it is read at start. -/
def dbFileHeadCount (d : Region) : ℤ :=
  atoi (bytesText (slice d 1 12))

/-- Loop of the counting scan. Every iteration advances, so a fuel of the end
position is never exhausted. -/
def calMsgCountLoop (conf : UcmqConf) (d : Region) (endPos : ℕ) : ℕ → ℕ → ℕ → ℕ
  | 0, _, dbCount => dbCount
  | fuel+1, currFilePos, dbCount =>
    if currFilePos < endPos then
      match mqSmDbParseMsg conf (some d) currFilePos with
      | .ok item => calMsgCountLoop conf d endPos fuel (currFilePos+(12+item.len)) (dbCount+1)
      | .magNumErr => calMsgCountLoop conf d endPos fuel (currFilePos+1) dbCount
      | .parseErr => calMsgCountLoop conf d endPos fuel (currFilePos+2) dbCount
      | .crcErr => calMsgCountLoop conf d endPos fuel (currFilePos+2) dbCount
      | .msgErr => dbCount
      | .lenBey => calMsgCountLoop conf d endPos fuel (currFilePos+2) dbCount
    else dbCount

/-- Number of messages a scan from the start of the file finds before an end
position. -/
def mqSmDbCalMsgCount (conf : UcmqConf) (d : Region) (endPos : ℕ) : ℕ :=
  calMsgCountLoop conf d endPos endPos 0 0

/-- A stored message: put time, and a body that fits a fresh data file. -/
structure Msg (conf : UcmqConf) where
  /-- Second at which the message was put. -/
  time : ℕ
  /-- Body bytes. -/
  body : List UInt8
  time_lt : time < 2^32
  body_pos : 0 < body.length
  body_le : body.length ≤ maxDbFileSize conf-128-12

variable {conf : UcmqConf}

/-- The item a put prepares for a message. -/
def Msg.item (m : Msg conf) : MsgItem :=
  ⟨msgHeadOfFirstMagicNum, msgHeadOfSecondMagicNum, m.time, crc16Append m.body,
    m.body.length, m.body⟩

/-- Length of a message that is written. -/
@[simp] theorem Msg.item_len (m : Msg conf) : m.item.len = m.body.length := rfl

/-- Its content. -/
@[simp] theorem Msg.item_msg (m : Msg conf) : m.item.msg = m.body := rfl

/-- The second at which it is written. -/
@[simp] theorem Msg.item_delay (m : Msg conf) : m.item.delay = m.time := rfl

/-- Its checksum. -/
@[simp] theorem Msg.item_crc16 (m : Msg conf) : m.item.crc16 = crc16Append m.body := rfl

/-- A body fits the greatest data file. -/
theorem Msg.body_lt (m : Msg conf) : m.body.length+140 ≤ 67108864 := by
  have := m.body_le
  have := maxDbFileSize_le conf
  have := le_maxDbFileSize conf
  omega

/-- A head has twelve bytes. -/
@[simp] theorem length_msgHead (item : MsgItem) : (msgHead item).length = 12 := rfl

/-- A frame is a head and a body. -/
@[simp] theorem length_msgBytes (m : Msg conf) :
    (msgBytes m.item).length = 12+m.body.length := by
  simp [msgBytes, Msg.item]

/-- Four bytes are read back as the number they were written for. -/
theorem ofLe_le32 {n : ℕ} (h : n < 2^32) : ofLe (le32 n) = n := by
  simp only [ofLe, le32, UInt8.toNat_ofNat']
  omega

/-- Two bytes are read back as the number they were written for. -/
theorem ofLe_le16 {n : ℕ} (h : n < 2^16) : ofLe (le16 n) = n := by
  simp only [ofLe, le16, UInt8.toNat_ofNat']
  omega

/-- The framing of stored messages. -/
def msgFraming (conf : UcmqConf) : FramedLog.Framing (Msg conf) where
  mark := msgHeadOfFirstMagicNum
  headLen := 12
  enc m := msgBytes m.item
  starts _ := rfl
  longer m := by
    have := m.body_pos
    simp
    omega

/-- Messages are framed by the bytes that are written for them. -/
@[simp] theorem msgFraming_enc (m : Msg conf) : (msgFraming conf).enc m = msgBytes m.item := rfl

/-- The mark of a frame is its first byte. -/
@[simp] theorem msgFraming_mark : (msgFraming conf).mark = msgHeadOfFirstMagicNum := rfl

/-- The length of a head. -/
@[simp] theorem msgFraming_headLen : (msgFraming conf).headLen = 12 := rfl

/-- An item whose head fields describe its body. -/
structure MsgItem.Framed (item : MsgItem) : Prop where
  first : item.magicNum1 = msgHeadOfFirstMagicNum
  second : item.magicNum2 = msgHeadOfSecondMagicNum
  delay_lt : item.delay < 2^32
  crc : item.crc16 = crc16Append item.msg
  len : item.len = item.msg.length
  pos : 0 < item.len

/-- A message that is written is a frame. -/
theorem Msg.framed (m : Msg conf) : m.item.Framed := ⟨rfl, rfl, m.time_lt, rfl, rfl, m.body_pos⟩

variable {item : MsgItem}

/-- Length of the frame of an item with its own length. -/
theorem length_msgBytes_item (h : item.len = item.msg.length) :
    (msgBytes item).length = 12+item.len := by
  rw [msgBytes, List.length_append, length_msgHead, List.length_take, h, min_self]

/-- The fields of a stored head read back. -/
theorem parseMsgHead_of_holds {d : Region} {p : ℕ} (h : Holds d p (msgHead item))
    (hdelay : item.delay < 2^32) (hlen : item.len < 2^32) :
    mqSmDbParseMsgHead d p = some { item with msg := [] } := by
  simp only [msgHead, List.append_assoc, List.cons_append, List.nil_append, holds_cons,
    holds_append] at h
  obtain ⟨h1, h2, hd, hc, hl⟩ := h
  have hd' : slice d (p+2) 4 = le32 item.delay := hd
  have hc' : slice d (p+6) 2 = le16 item.crc16.toNat := hc
  have hl' : slice d (p+8) 4 = le32 item.len := hl
  have hcrc : item.crc16.toNat < 2^16 := item.crc16.toNat_lt
  rw [mqSmDbParseMsgHead, h1, h2, hd', hc', hl', ofLe_le32 hdelay, ofLe_le16 hcrc, ofLe_le32 hlen,
    UInt16.ofNat_toNat]

/-- Behind a stored head whose frame ends within the file only the checksum
decides. -/
theorem parseMsg_of_head {d : Region} {p : ℕ} (hi : item.Framed) (h : Holds d p (msgHead item))
    (hp : p+12+item.len ≤ maxDbFileSize conf) :
    mqSmDbParseMsg conf (some d) p =
      if item.crc16 = crc16Append (slice d (p+12) item.len) then
        .ok { item with msg := slice d (p+12) item.len } else .crcErr := by
  have hmax := maxDbFileSize_le conf
  have hpos := hi.pos
  have hhead := parseMsgHead_of_holds h hi.delay_lt (by omega)
  have hmagic : d p = msgHeadOfFirstMagicNum ∧ d (p+1) = msgHeadOfSecondMagicNum := by
    simp only [msgHead, List.append_assoc, List.cons_append, List.nil_append, holds_cons] at h
    exact ⟨h.1.trans hi.first, h.2.1.trans hi.second⟩
  have hu : u32 (p+12) = p+12 := u32_of_lt (by omega)
  have hu' : u32 (p+item.len+12) = p+item.len+12 := u32_of_lt (by omega)
  have hsigned : toI32 (item.len : ℤ) = item.len := toI32_of_bounds (by omega) (by omega)
  have hcrc : mqSmDbBuildMsgCrc16 (slice d (p+12)) (toI32 item.len) =
      some (crc16Append (slice d (p+12) item.len)) := by
    rw [mqSmDbBuildMsgCrc16, hsigned, if_neg (by omega), Int.toNat_natCast]
  simp only [mqSmDbParseMsg, hhead, checkMsgBody, hcrc, hu, hu', hmagic]
  rw [if_neg (by omega), if_neg (by simp), if_neg (by omega)]

/-- A stored frame that ends within the file parses as the item it was built
from, at every offset and whatever its body contains. -/
theorem parseMsg_of_framed {d : Region} {p : ℕ} (hi : item.Framed) (h : Holds d p (msgBytes item))
    (hp : p+12+item.len ≤ maxDbFileSize conf) : mqSmDbParseMsg conf (some d) p = .ok item := by
  obtain ⟨hhead, hbody⟩ := holds_append.mp h
  rw [length_msgHead, hi.len, List.take_length, Holds, ← hi.len] at hbody
  rw [parseMsg_of_head hi hhead hp, hbody, if_pos hi.crc]

/-- A stored message that ends within the file parses as that message. -/
theorem parseMsg_of_holds {d : Region} {p : ℕ} {m : Msg conf} (h : Holds d p (msgBytes m.item))
    (hp : p+12+m.body.length ≤ maxDbFileSize conf) :
    mqSmDbParseMsg conf (some d) p = .ok m.item :=
  parseMsg_of_framed m.framed h hp

/-- A first byte other than the magic one is never taken for a message. -/
theorem parseMsg_of_ne {d : Region} {p : ℕ} (hm : d p ≠ msgHeadOfFirstMagicNum)
    (hp : p+12 < maxDbFileSize conf) :
    mqSmDbParseMsg conf (some d) p = .magNumErr := by
  have hmax := maxDbFileSize_le conf
  have hu : u32 (p+12) = p+12 := u32_of_lt (by omega)
  unfold mqSmDbParseMsg
  dsimp only
  rw [if_neg (by omega), if_pos (Or.inl hm)]

/-- No message is looked for in the last header's worth of bytes. -/
theorem parseMsg_of_end {d : Region} {p : ℕ} (hp : maxDbFileSize conf ≤ p+12)
    (hm : p ≤ maxDbFileSize conf) : mqSmDbParseMsg conf (some d) p = .lenBey := by
  have hmax := maxDbFileSize_le conf
  have hu : u32 (p+12) = p+12 := u32_of_lt (by omega)
  unfold mqSmDbParseMsg
  dsimp only
  rw [if_pos (by omega)]

/-- Over quiet bytes the counting scan finds nothing. -/
theorem calMsgCountLoop_quiet {d : Region} {endPos : ℕ} (he : endPos ≤ maxDbFileSize conf)
    (fuel p c : ℕ) (hq : FramedLog.Quiet msgHeadOfFirstMagicNum d p endPos) :
    calMsgCountLoop conf d endPos fuel p c = c := by
  induction fuel generalizing p with
  | zero => rfl
  | succ fuel ih =>
    rw [calMsgCountLoop]
    split
    · rename_i hp
      by_cases hend : maxDbFileSize conf ≤ p+12
      · rw [parseMsg_of_end hend (by omega)]
        exact ih (p+2) (hq.mono (by omega) le_rfl)
      · rw [parseMsg_of_ne (hq p le_rfl hp) (by omega)]
        exact ih (p+1) (hq.mono (by omega) le_rfl)
    · rfl

/-- One iteration of the counting scan over a range that scans to a nonempty
list either counts its first message or skips one quiet byte before it. -/
theorem calMsgCountLoop_cons {d : Region} {endPos e p fuel c : ℕ} {m : Msg conf}
    {ms : List (Msg conf)} (he : e ≤ endPos) (hm : endPos ≤ maxDbFileSize conf)
    (h : (msgFraming conf).Scans d p (m :: ms) e) :
    (∃ q, p < q ∧ (msgFraming conf).Scans d q ms e ∧
      calMsgCountLoop conf d endPos (fuel+1) p c = calMsgCountLoop conf d endPos fuel q (c+1)) ∨
    ((msgFraming conf).Scans d (p+1) (m :: ms) e ∧
      calMsgCountLoop conf d endPos (fuel+1) p c = calMsgCountLoop conf d endPos fuel (p+1) c) := by
  have hroom := h.length_mul_le
  simp only [List.length_cons, msgFraming_headLen] at hroom
  have hp : p < e := by omega
  by_cases hmark : d p = msgHeadOfFirstMagicNum
  · obtain ⟨a, rest, heq, hh, hr⟩ := h.frame hp hmark
    obtain ⟨rfl, rfl⟩ := List.cons.inj heq
    have hlen : p+((msgFraming conf).enc m).length ≤ e := hr.le
    simp only [msgFraming_enc, length_msgBytes] at hlen hr
    refine Or.inl ⟨p+(12+m.body.length), by omega, hr, ?_⟩
    rw [calMsgCountLoop, if_pos (by omega), parseMsg_of_holds hh (by omega)]
    rfl
  · refine Or.inr ⟨h.skip hp hmark, ?_⟩
    rw [calMsgCountLoop, if_pos (by omega), parseMsg_of_ne hmark (by omega)]

/-- The counting scan does not take a message back. -/
theorem calMsgCountLoop_mono (d : Region) (endPos fuel p c : ℕ) :
    c ≤ calMsgCountLoop conf d endPos fuel p c := by
  induction fuel generalizing p c with
  | zero => exact le_rfl
  | succ fuel ih =>
    rw [calMsgCountLoop]
    split
    · split
      · exact (Nat.le_succ c).trans (ih _ _)
      all_goals first | exact ih _ _ | exact le_rfl
    · exact le_rfl

/-- The counting scan finds at least the messages of a scanned range, whatever
bytes follow it. -/
theorem le_calMsgCountLoop {d : Region} {endPos e : ℕ} (he : e ≤ endPos)
    (hm : endPos ≤ maxDbFileSize conf) (fuel p c : ℕ) (ms : List (Msg conf)) (hf : e ≤ p+fuel)
    (h : (msgFraming conf).Scans d p ms e) :
    c+ms.length ≤ calMsgCountLoop conf d endPos fuel p c := by
  induction fuel generalizing p c ms with
  | zero =>
    have hl := h.length_mul_le
    have : ms.length = 0 := by
      simp only [msgFraming_headLen] at hl
      omega
    simp [this, calMsgCountLoop]
  | succ fuel ih =>
    cases ms with
    | nil => simpa using calMsgCountLoop_mono d endPos (fuel+1) p c
    | cons m ms =>
      rcases @calMsgCountLoop_cons _ _ _ _ _ fuel c _ _ he hm h with ⟨q, hq, hr, heq⟩ | ⟨hr, heq⟩
      · have := ih q (c+1) ms (by omega) hr
        rw [heq, List.length_cons]
        omega
      · rw [heq]
        exact ih (p+1) c (m :: ms) (by omega) hr

/-- Over a scanned range the counting scan is exact. -/
theorem calMsgCountLoop_scans {d : Region} {endPos : ℕ} (hm : endPos ≤ maxDbFileSize conf)
    (fuel p c : ℕ) (ms : List (Msg conf)) (hf : endPos ≤ p+fuel)
    (h : (msgFraming conf).Scans d p ms endPos) :
    calMsgCountLoop conf d endPos fuel p c = c+ms.length := by
  induction fuel generalizing p c ms with
  | zero =>
    have hl := h.length_mul_le
    have : ms.length = 0 := by
      simp only [msgFraming_headLen] at hl
      omega
    simp [this, calMsgCountLoop]
  | succ fuel ih =>
    cases ms with
    | nil => simpa using calMsgCountLoop_quiet hm (fuel+1) p c h.quiet
    | cons m ms =>
      rcases @calMsgCountLoop_cons _ _ _ _ _ fuel c _ _ le_rfl hm h with
        ⟨q, hq, hr, heq⟩ | ⟨hr, heq⟩
      · rw [heq, ih q (c+1) ms (by omega) hr, List.length_cons]
        omega
      · rw [heq, ih (p+1) c (m :: ms) (by omega) hr]

/-- The counting scan of a file with a quiet head is exact. -/
theorem mqSmDbCalMsgCount_scans {d : Region} {endPos : ℕ} {ms : List (Msg conf)}
    (hm : endPos ≤ maxDbFileSize conf) (hq : FramedLog.Quiet msgHeadOfFirstMagicNum d 0 128)
    (h : (msgFraming conf).Scans d 128 ms endPos) :
    mqSmDbCalMsgCount conf d endPos = ms.length := by
  rw [mqSmDbCalMsgCount, calMsgCountLoop_scans hm endPos 0 0 ms (by omega) (h.unskip (by omega) hq)]
  omega

/-- A written head occupies exactly the reserved bytes. -/
theorem length_dbFileHead {n : ℕ} (hn : n < 10^12) : (dbFileHead n).length = 128 := by
  have h1 : (padDec 1 1).length = 1 := length_padDec (by decide) (by decide)
  have h2 := length_padDec (w := 12) (by decide) hn
  simp only [dbFileHead, textBytes, List.length_append, List.length_map, List.length_replicate]
  omega

/-- A digit is at most the code of nine. -/
theorem toNat_le_of_isDigit {c : Char} (h : c.isDigit) : c.toNat ≤ 57 := by
  simp only [Char.isDigit, Bool.and_eq_true, decide_eq_true_eq, UInt32.le_iff_toNat_le] at h
  exact h.2

/-- Digits are no mark of a frame. -/
theorem textBytes_ne_mark {s : List Char} (h : ∀ c ∈ s, c.isDigit) :
    ∀ b ∈ textBytes s, b ≠ msgHeadOfFirstMagicNum := by
  intro b hb
  obtain ⟨c, hc, rfl⟩ := List.mem_map.mp hb
  have hle := toNat_le_of_isDigit (h c hc)
  intro he
  have := congrArg UInt8.toNat he
  rw [UInt8.toNat_ofNat'] at this
  have h254 : msgHeadOfFirstMagicNum.toNat = 254 := rfl
  omega

/-- A written head contains no first magic byte. -/
theorem dbFileHead_ne_mark (n : ℕ) : ∀ b ∈ dbFileHead n, b ≠ msgHeadOfFirstMagicNum := by
  intro b hb
  rcases List.mem_append.mp hb with ht | hz
  · refine textBytes_ne_mark ?_ b ht
    intro c hc
    rcases List.mem_append.mp hc with h1 | h2
    · exact isDigit_padDec h1
    · exact isDigit_padDec h2
  · rw [(List.mem_replicate.mp hz).2]
    decide

/-- Digit text survives its storage as bytes. -/
theorem bytesText_textBytes {s : List Char} (h : ∀ c ∈ s, c.isDigit) :
    bytesText (textBytes s) = s := by
  have hid : ∀ c ∈ s, Char.ofNat (UInt8.ofNat c.toNat).toNat = c := by
    intro c hc
    have hle := toNat_le_of_isDigit (h c hc)
    rw [UInt8.toNat_ofNat', Nat.mod_eq_of_lt (by omega), Char.ofNat_toNat]
  rw [bytesText, textBytes, List.map_map]
  calc s.map (fun c => Char.ofNat (UInt8.ofNat c.toNat).toNat)
      = s.map id := List.map_congr_left hid
    _ = s := List.map_id s

/-- The count in a written head is the count it was written with. -/
theorem dbFileHeadCount_writeAt (d : Region) {n : ℕ} (hn : n < 2^31) :
    dbFileHeadCount (writeAt d 0 (dbFileHead n)) = n := by
  have h12 : n < 10^12 := by omega
  have hlen := length_padDec (w := 12) (by decide) h12
  have hw := holds_writeAt d 0 (dbFileHead n)
  have hsplit : dbFileHead n = textBytes (padDec 1 1) ++ (textBytes (padDec 12 n) ++
      List.replicate (128-(textBytes (padDec 1 1 ++ padDec 12 n)).length) 0) := by
    simp [dbFileHead, textBytes]
  rw [hsplit, holds_append, holds_append] at hw
  have hcol := hw.2.1
  rw [← hsplit, Holds] at hcol
  have hoff : 0+(textBytes (padDec 1 1)).length = 1 := rfl
  have hcl : (textBytes (padDec 12 n)).length = 12 := by simp [textBytes, hlen]
  rw [hoff, hcl] at hcol
  have hdig : ∀ c ∈ padDec 12 n, c.isDigit := fun _ => isDigit_padDec
  rw [dbFileHeadCount, hcol, bytesText_textBytes hdig, atoi, strtoll_digits hdig (by simp; omega),
    decValue_padDec, toI32_of_bounds (by omega) (by omega)]

/-- A blank head stores no count. -/
theorem dbFileHeadCount_of_zero {d : Region} (h : ∀ i, i < 13 → d i = 0) :
    dbFileHeadCount d = 0 := by
  have hs : slice d 1 12 = slice (fun _ => 0) 1 12 :=
    slice_congr fun i _ hi => h i (by omega)
  rw [dbFileHeadCount, hs]
  decide

end Ucmq.StoreMsg
