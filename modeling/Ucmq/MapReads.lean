import Ucmq.StoreMsg

/-!
# Which bytes of a map the message check reads

The message check over a mapping of exactly one data file, in which a read
outside of the mapping does not return. It returns on every content, with the
result of the check over an unbounded region. A stored length may be any 32-bit
value, and the bound on the end of the message wraps for the largest of them;
those are negative as signed integers and are refused before their body is read.
-/

namespace Ucmq.MapReads

open ByteRegion DecimalText StoreConfig StoreMsg Crc16

/-- Bytes of a mapped data file. -/
abbrev Mapping (conf : UcmqConf) := Fin (maxDbFileSize conf) → UInt8

variable {conf : UcmqConf} {d : Region} {m : Mapping conf} {p n : ℕ} {item : MsgItem}

/-- Read one byte. -/
def load (m : Mapping conf) (p : ℕ) : Option UInt8 :=
  if h : p < maxDbFileSize conf then some (m ⟨p, h⟩) else none

/-- Copy n bytes. -/
def loads (m : Mapping conf) (p : ℕ) : ℕ → Option (List UInt8)
  | 0 => some []
  | n+1 => (load m p).bind fun b => (loads m (p+1) n).map fun bs => b :: bs

/-- Copy the head fields from the mapping. -/
def parseMsgHeadAt (m : Mapping conf) (p : ℕ) : Option MsgItem := do
  let magicNum1 ← load m p
  let magicNum2 ← load m (p+1)
  let delay ← loads m (p+2) 4
  let crc16 ← loads m (p+6) 2
  let len ← loads m (p+8) 4
  some ⟨magicNum1, magicNum2, ofLe delay, UInt16.ofNat (ofLe crc16), ofLe len, []⟩

/-- The loop of crc16_append over the next n bytes. -/
def crc16AppendAt (m : Mapping conf) (p : ℕ) : ℕ → UInt16 → Option UInt16
  | 0, c16 => some c16
  | n+1, c16 => (load m p).bind fun b => crc16AppendAt m (p+1) n (crc16Byte c16 b)

/-- Checksum of the mapped bytes; the outer result is absent when a read leaves
the mapping, the inner one when the length is refused. -/
def buildMsgCrc16At (m : Mapping conf) (p : ℕ) (len : ℤ) : Option (Option UInt16) :=
  if len < 0 then some none else (crc16AppendAt m p len.toNat 0).map some

/-- The mapping as a region. -/
def view (m : Mapping conf) : Region := fun k => if h : k < maxDbFileSize conf then m ⟨k, h⟩ else 0

/-- Second half of the check, with the head fields read. -/
def checkMsgBodyAt (m : Mapping conf) (curPos : ℕ) (item : MsgItem) : Option MsgCheckRet :=
  if maxDbFileSize conf < u32 (curPos+item.len+12) then some .lenBey
  else (buildMsgCrc16At m (curPos+12) (toI32 item.len)).map fun
    | none => .crcErr
    | some tmpCrc16 =>
      -- the message is a pointer into the mapping, taking it reads nothing
      if item.crc16 = tmpCrc16 then .ok { item with msg := slice (view m) (curPos+12) item.len }
      else .crcErr

/-- Check for a message at a position of the mapping. Both magic bytes are read,
the second also when the first differs. -/
def parseMsgAt (m : Mapping conf) (curPos : ℕ) : Option MsgCheckRet :=
  if maxDbFileSize conf ≤ u32 (curPos+12) then some .lenBey
  else do
    let b1 ← load m curPos
    let b2 ← load m (curPos+1)
    if b1 ≠ msgHeadOfFirstMagicNum ∨ b2 ≠ msgHeadOfSecondMagicNum then some .magNumErr
    else (parseMsgHeadAt m curPos).bind (checkMsgBodyAt m curPos)

/-- The mapping shows the leading bytes of a region. -/
def Shows (m : Mapping conf) (d : Region) : Prop := ∀ k (h : k < maxDbFileSize conf), m ⟨k, h⟩ = d k

/-- Reading a byte within the mapping. -/
theorem load_of_shows (h : Shows m d) (hp : p < maxDbFileSize conf) : load m p = some (d p) := by
  rw [load, dif_pos hp, h p hp]

/-- A slice is its first byte and the rest. -/
theorem slice_succ (d : Region) (p n : ℕ) : slice d p (n+1) = d p :: slice d (p+1) n := by
  rw [Nat.add_comm n 1, slice_add]
  simp [slice]

/-- Copying bytes within the mapping. -/
theorem loads_of_shows (h : Shows m d) (hp : p+n ≤ maxDbFileSize conf) :
    loads m p n = some (slice d p n) := by
  induction n generalizing p with
  | zero => rfl
  | succ n ih =>
    rw [loads, load_of_shows h (by omega), Option.bind_some, ih (by omega), slice_succ]
    rfl

/-- The checksum of bytes within the mapping. -/
theorem crc16AppendAt_of_shows (h : Shows m d) (hp : p+n ≤ maxDbFileSize conf) (c16 : UInt16) :
    crc16AppendAt m p n c16 = some ((slice d p n).foldl crc16Byte c16) := by
  induction n generalizing p c16 with
  | zero => rfl
  | succ n ih =>
    rw [crc16AppendAt, load_of_shows h (by omega), Option.bind_some, ih (by omega), slice_succ]
    rfl

/-- The head fields within the mapping. -/
theorem parseMsgHeadAt_of_shows (h : Shows m d) (hp : p+12 ≤ maxDbFileSize conf) :
    parseMsgHeadAt m p = mqSmDbParseMsgHead d p := by
  simp only [parseMsgHeadAt, mqSmDbParseMsgHead, load_of_shows h (show p < _ by omega),
    load_of_shows h (show p+1 < _ by omega), loads_of_shows h (show p+2+4 ≤ _ by omega),
    loads_of_shows h (show p+6+2 ≤ _ by omega), loads_of_shows h (show p+8+4 ≤ _ by omega)]
  rfl

/-- Four bytes hold a 32-bit value. -/
theorem ofLe_slice_lt (d : Region) (p : ℕ) : ofLe (slice d p 4) < 2^32 := by
  have h0 := (d p).toNat_lt
  have h1 := (d (p+1)).toNat_lt
  have h2 := (d (p+1+1)).toNat_lt
  have h3 := (d (p+1+1+1)).toNat_lt
  have hs : slice d p 4 = [d p, d (p+1), d (p+1+1), d (p+1+1+1)] := by
    rw [slice_succ, slice_succ, slice_succ, slice_succ]
    rfl
  rw [hs]
  simp only [ofLe]
  omega

/-- A length that passes the bound without ending in the file wraps, and is
negative as a signed integer. -/
theorem end_le_of_bound {len : ℕ} (hlen : len < 2^32) (hp : p+12 ≤ maxDbFileSize conf)
    (hb : u32 (p+len+12) ≤ maxDbFileSize conf) (hs : 0 ≤ toI32 len) :
    toI32 len = len ∧ p+12+len ≤ maxDbFileSize conf := by
  have hmax := maxDbFileSize_le conf
  have hsmall := (toI32_nonneg_iff len).mp hs
  rw [Nat.mod_eq_of_lt hlen] at hsmall
  rw [u32_of_lt (by omega)] at hb
  exact ⟨toI32_of_bounds (by omega) (by omega), by omega⟩

/-- A mapping shows what it holds. -/
theorem shows_view (m : Mapping conf) : Shows m (view m) := fun k h => by rw [view, dif_pos h]

/-- A slice within the mapping. -/
theorem slice_view_of_shows (h : Shows m d) (hp : p+n ≤ maxDbFileSize conf) :
    slice (view m) p n = slice d p n :=
  slice_congr fun i _ hi => by rw [← shows_view m i (by omega), h i (by omega)]

/-- The second half of the check. -/
theorem checkMsgBodyAt_of_shows (h : Shows m d) (hp : p+12 ≤ maxDbFileSize conf)
    (hlen : item.len < 2^32) : checkMsgBodyAt m p item = some (checkMsgBody conf d p item) := by
  unfold checkMsgBodyAt checkMsgBody
  by_cases hbey : maxDbFileSize conf < u32 (p+item.len+12)
  · rw [if_pos hbey, if_pos hbey]
  · rw [if_neg hbey, if_neg hbey]
    by_cases hneg : toI32 item.len < 0
    · rw [buildMsgCrc16At, mqSmDbBuildMsgCrc16, if_pos hneg, if_pos hneg]
      rfl
    · obtain ⟨hsigned, hend⟩ := end_le_of_bound hlen hp (by omega) (by omega)
      rw [buildMsgCrc16At, mqSmDbBuildMsgCrc16, if_neg hneg, if_neg hneg, hsigned,
        Int.toNat_natCast, crc16AppendAt_of_shows h hend, slice_view_of_shows h hend]
      rfl

/-- An accepted message ends within the file. -/
theorem end_le_of_checkMsgBody {ret : MsgItem} (hp : p+12 ≤ maxDbFileSize conf)
    (hlen : item.len < 2^32)
    (h : checkMsgBody conf d p item = .ok ret) : p+12+ret.len ≤ maxDbFileSize conf := by
  unfold checkMsgBody at h
  by_cases hbey : maxDbFileSize conf < u32 (p+item.len+12)
  · rw [if_pos hbey] at h
    cases h
  · rw [if_neg hbey] at h
    by_cases hneg : toI32 item.len < 0
    · rw [mqSmDbBuildMsgCrc16, if_pos hneg] at h
      cases h
    · rw [mqSmDbBuildMsgCrc16, if_neg hneg] at h
      dsimp only at h
      split at h
      · cases h
        exact (end_le_of_bound hlen hp (by omega) (by omega)).2
      · cases h

/-- The result of a check that is not at the end of the file and finds the magic bytes. -/
theorem parseMsg_of_magic (hp : p+12 < maxDbFileSize conf) (h1 : d p = msgHeadOfFirstMagicNum)
    (h2 : d (p+1) = msgHeadOfSecondMagicNum) :
    ∃ item, mqSmDbParseMsgHead d p = some item ∧ item.len < 2^32 ∧
      mqSmDbParseMsg conf (some d) p = checkMsgBody conf d p item := by
  have hmax := maxDbFileSize_le conf
  have hu : u32 (p+12) = p+12 := u32_of_lt (by omega)
  refine ⟨_, rfl, ofLe_slice_lt d (p+8), ?_⟩
  unfold mqSmDbParseMsg
  dsimp only
  rw [if_neg (by omega), if_neg (by simp [h1, h2])]
  rfl

/-- A check that is not at the end of the file and does not report a missing magic
number has found both magic bytes. -/
theorem magic_of_parse (hp : p+12 < maxDbFileSize conf)
    (h : mqSmDbParseMsg conf (some d) p ≠ .magNumErr) :
    d p = msgHeadOfFirstMagicNum ∧ d (p+1) = msgHeadOfSecondMagicNum := by
  have hmax := maxDbFileSize_le conf
  have hu : u32 (p+12) = p+12 := u32_of_lt (by omega)
  by_contra hno
  refine h ?_
  unfold mqSmDbParseMsg
  dsimp only
  rw [if_neg (by omega), if_pos (by tauto)]

/-- An accepted message ends within the file, computed without wrap-around. -/
theorem end_le_of_parseMsg {ret : MsgItem} (hp : p ≤ maxDbFileSize conf)
    (h : mqSmDbParseMsg conf (some d) p = .ok ret) : p+12+ret.len ≤ maxDbFileSize conf := by
  by_cases hend : maxDbFileSize conf ≤ p+12
  · rw [parseMsg_of_end (by omega) hp] at h
    cases h
  · have hmagic := magic_of_parse (show p+12 < maxDbFileSize conf by omega) (by rw [h]; simp)
    obtain ⟨item, -, hlen, hcheck⟩ :=
      parseMsg_of_magic (show p+12 < maxDbFileSize conf by omega) hmagic.1
      hmagic.2
    rw [hcheck] at h
    exact end_le_of_checkMsgBody (by omega) hlen h

/-- The check over a mapping is the check over every region it shows. -/
theorem parseMsgAt_of_shows (hp : p ≤ maxDbFileSize conf) (h : Shows m d) :
    parseMsgAt m p = some (mqSmDbParseMsg conf (some d) p) := by
  have hmax := maxDbFileSize_le conf
  have hu : u32 (p+12) = p+12 := u32_of_lt (by omega)
  unfold parseMsgAt
  by_cases hend : maxDbFileSize conf ≤ p+12
  · rw [if_pos (by omega), parseMsg_of_end (by omega) hp]
  · rw [if_neg (by omega), load_of_shows h (by omega), load_of_shows h (by omega)]
    simp only [bind, Option.bind_some]
    by_cases hmagic : d p ≠ msgHeadOfFirstMagicNum ∨ d (p+1) ≠ msgHeadOfSecondMagicNum
    · rw [if_pos hmagic]
      unfold mqSmDbParseMsg
      dsimp only
      rw [if_neg (by omega), if_pos hmagic]
    · rw [if_neg hmagic]
      push Not at hmagic
      obtain ⟨item, hhead, hlen, hcheck⟩ :=
        parseMsg_of_magic (show p+12 < maxDbFileSize conf by omega) hmagic.1 hmagic.2
      rw [parseMsgHeadAt_of_shows h (by omega), hhead, Option.bind_some, hcheck]
      exact checkMsgBodyAt_of_shows h (by omega) hlen

/-- On every content of a mapping and at every position up to its size the check
returns without a read outside of the mapping, with the result it has over every
region that starts with these bytes, and an accepted message ends within the
file. -/
theorem parse_reads_inside (m : Mapping conf) (hp : p ≤ maxDbFileSize conf) :
    ∃ ret, parseMsgAt m p = some ret ∧ (∀ d, Shows m d → mqSmDbParseMsg conf (some d) p = ret) ∧
      ∀ item, ret = .ok item → p+12+item.len ≤ maxDbFileSize conf := by
  refine ⟨_, parseMsgAt_of_shows hp (shows_view m), fun d h => ?_,
    fun item => end_le_of_parseMsg hp⟩
  have heq := (parseMsgAt_of_shows hp h).symm.trans (parseMsgAt_of_shows hp (shows_view m))
  exact Option.some.inj heq

/-- A mapping that starts with a header of the greatest length, which moves the end
of the message back by one byte. -/
def wrapHeader : Mapping .least := fun i =>
  [msgHeadOfFirstMagicNum, msgHeadOfSecondMagicNum, 0, 0, 0, 0, 0, 0, 255, 255, 255,
    255].getD i.val 0

/-- At this header the end of the message passes as one within the file. The length
is negative as a signed integer, and no byte of the body is read. -/
theorem parse_reads_inside_wrapped :
    parseMsgAt wrapHeader 0 = some .crcErr ∧
      ∀ d, Shows wrapHeader d → mqSmDbParseMsg .least (some d) 0 = .crcErr := by
  have hret : parseMsgAt wrapHeader 0 = some .crcErr := by decide +kernel
  obtain ⟨ret, hparse, hshows, -⟩ := parse_reads_inside wrapHeader (Nat.zero_le _)
  obtain rfl : MsgCheckRet.crcErr = ret := Option.some.inj (hret.symm.trans hparse)
  exact ⟨hret, hshows⟩

end Ucmq.MapReads
