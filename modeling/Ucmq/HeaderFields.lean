import Mathlib.Data.List.Infix
import Ucmq.ClientMessage

/-!
# The header fields a client reads

The client looks for its header fields in a buffer that holds the header block
and the part of the content that came with it, and takes the first mention of a
name anywhere in this text. What an exchange leaves is a function of that part.
The fields are those of the header block for every split of the reply exactly
when the first mentions in the block are its own lines and the content, as far
as it may share the buffer, does not supply a field that the block lacks, as long
as the stack has room for a content of the announced length.
-/

namespace Ucmq.HeaderFields

open DecimalText TextSearch Evhttp MqClient ClientOperation ClientMessage

/-- What an exchange leaves: whether it was completed, the return value with its
reason, and the timeout it sets for the connection. -/
structure ReplyRead where
  /-- The exchange was completed. -/
  ok : Bool
  /-- Return value. -/
  ret : MqReturn
  /-- Reason that is stored, if one is. -/
  reason : Option (List Char)
  /-- Timeout that is set, if one is. -/
  timeout : Option ℤ
  deriving DecidableEq

/-- Reason in a status line, read after the number and blanks; absent when there
is none. -/
def scanReason (s : List Char) : Option (List Char) :=
  if scanStatus s = none then none
  else
    let t := (s.drop 8).dropWhile isSpace
    let digits := match t with
      | '-' :: u => u
      | '+' :: u => u
      | u => u
    let reason :=
      ((digits.dropWhile Char.isDigit).dropWhile isSpace).takeWhile fun c => c ≠ '\r' ∧ c ≠ '\n'
    if reason = [] then none else some reason

/-- A timeout is set when it is positive. -/
def timeoutOf (timeout : ℤ) : Option ℤ := if 0 < timeout then some timeout else none

/-- The exchange after the request was sent, with the reason and the timeout, on a
stack that holds the content. -/
def recvReplyFields (c : Contact) (ret : MqReturn) : ReplyRead :=
  let (recv, es) := commRecvN 1023 inCheckHeaderFinish [] c.arrivals
  let buffer := cStr (recv.getD [])
  match inGetData buffer with
  | none => ⟨false, { ret with result := c.errno }, none, none⟩
  | some data =>
    let ret := { ret with result := (scanStatus buffer).getD ret.result }
    if ret.result = mqGetMsgEnd then ⟨false, ret, none, none⟩
    else
      let ret := { ret with pos := inGetHeaderInfoInt buffer "Pos".toList }
      let bodyLen := inGetHeaderInfoInt buffer "Content-Length".toList
      if bodyLen < 0 then ⟨false, ret, none, none⟩
      else
        let timeout := timeoutOf (inGetHeaderInfoInt buffer "\nkeep-alive".toList)
        match recvBody bodyLen.toNat ((recv.getD []).length-data) ((recv.getD []).drop data) es with
        | none => ⟨false, ret, none, timeout⟩
        | some body =>
          let text := (cStr body).map charByte
          ⟨true, { ret with data := some text, dataLen := text.length },
            (scanReason buffer).map (·.take 256), timeout⟩

/-- The exchange on a stack with this many bytes of room; absent when the process
ends in it. -/
def recvReplyFieldsOn (stack : ℕ) (c : Contact) (ret : MqReturn) : Option ReplyRead :=
  if stackHolds stack c ret then some (recvReplyFields c ret) else none

/-- A header line: a name and a value. -/
structure HeaderLine where
  /-- Text before the colon. -/
  name : List Char
  /-- Text after the colon and a blank. -/
  value : List Char
  deriving DecidableEq

/-- Text of a header line. -/
def lineText (l : HeaderLine) : List Char := l.name ++ ": ".toList ++ l.value ++ ['\r', '\n']

/-- Neither end of line nor zero byte. -/
def Plain (s : List Char) : Prop := '\r' ∉ s ∧ '\n' ∉ s ∧ '\x00' ∉ s

instance (s : List Char) : Decidable (Plain s) := inferInstanceAs (Decidable (_ ∧ _))

/-- Header block of a reply with these lines to a content of n bytes. -/
structure HeaderBlock (r : Reply) (n : ℕ) (lines : List HeaderLine) (header : List Char) :
    Prop where
  /-- A status line, the header lines and an empty line. -/
  text : header = statusLine r ++ lines.flatMap lineText ++ ['\r', '\n']
  /-- The first empty line is the last line. -/
  ends : inGetData header = some header.length
  /-- Names and values stand on their lines. -/
  plain : Plain r.reason.toList ∧ ∀ l ∈ lines, l.name ≠ [] ∧ ':' ∉ l.name ∧
    Plain l.name ∧ Plain l.value
  /-- The status has at most three digits. -/
  code : r.code < 1000
  /-- One line announces the length of the content. -/
  announces : ⟨"Content-Length".toList, Nat.toDigits 10 n⟩ ∈ lines

/-- The line has this name, in any case. -/
def named (name : List Char) (l : HeaderLine) : Bool :=
  l.name.map Char.toLower = name.map Char.toLower

/-- A split of a reply into arrivals, without timeout or error. -/
structure Splits (c : Contact) (header : List Char) (body : List UInt8) : Prop where
  calm : Calm c.arrivals
  arrived : arrived c.arrivals = header ++ body.map byteChar

/-- Length that the header block announces at its first mention. -/
def lengthRead (header : List Char) : ℤ := inGetHeaderInfoInt header "Content-Length".toList

/-- The stack has room for a content of the announced length, if one is received. -/
def ContentHeld (stack : ℕ) (r : Reply) (header : List Char) : Prop :=
  r.code = 404 ∨ lengthRead header < 0 ∨ lengthRead header < 2^31-1 ∧ lengthRead header < stack

/-- What an exchange leaves when k bytes of the content share the buffer with
the header block. -/
def outcome (r : Reply) (header : List Char) (body : List UInt8) (ret : MqReturn) (k : ℕ) :
    ReplyRead :=
  let buffer := header ++ (cStr (body.map byteChar)).take k
  let ret := { ret with result := r.code }
  if r.code = 404 then ⟨false, ret, none, none⟩
  else
    let ret := { ret with pos := inGetHeaderInfoInt buffer "Pos".toList }
    if lengthRead header < 0 then ⟨false, ret, none, none⟩
    else
      let timeout := timeoutOf (inGetHeaderInfoInt buffer "\nkeep-alive".toList)
      if k ≤ lengthRead header ∧ lengthRead header ≤ body.length then
        let text := (cStr ((body.map byteChar).take (lengthRead header).toNat)).map charByte
        ⟨true, { ret with data := some text, dataLen := text.length },
          (scanReason header).map (·.take 256), timeout⟩
      else ⟨false, ret, none, timeout⟩

variable {r : Reply} {n : ℕ} {lines : List HeaderLine} {header tail t : List Char} {c : Contact}
  {ret : MqReturn}
variable {body : List UInt8}

/-- Without reason and timeout it is the exchange. -/
theorem recvReplyFields_recvReply (c : Contact) (ret : MqReturn) :
    ((recvReplyFields c ret).ok, (recvReplyFields c ret).ret) = recvReply c ret := by
  unfold recvReplyFields recvReply
  cases hr : commRecvN 1023 inCheckHeaderFinish [] c.arrivals with
  | mk recv es =>
    dsimp only
    cases hd : inGetData (cStr (recv.getD [])) with
    | none => rfl
    | some data =>
      dsimp only
      split_ifs
      · rfl
      · rfl
      · cases recvBody _ _ _ _ <;> rfl

section Block

/-- A status line holds no zero byte. -/
theorem noZero_statusLine (h : Plain r.reason.toList) : '\x00' ∉ statusLine r := by
  have hdigit : '\x00' ∉ (toString r.code).toList := by
    intro hm
    have hd :=
      Nat.isDigit_of_mem_toDigits (b := 10) (n := r.code) (by decide) (by decide)
        (by simpa using hm)
    exact absurd hd (by decide)
  have hhttp : '\x00' ∉ "HTTP/1.1 ".toList := by decide
  have hblank : '\x00' ∉ " ".toList := by decide
  have hend : '\x00' ∉ "\r\n".toList := by decide
  unfold statusLine
  rw [List.mem_append, List.mem_append, List.mem_append, List.mem_append]
  rintro ((((hm | hm) | hm) | hm) | hm)
  · exact hhttp hm
  · exact hdigit hm
  · exact hblank hm
  · exact h.2.2 hm
  · exact hend hm

/-- Nor does a header line. -/
theorem noZero_lineText {l : HeaderLine} (hname : Plain l.name) (hvalue : Plain l.value) :
    '\x00' ∉ lineText l := by
  have hcolon : '\x00' ∉ ": ".toList := by decide
  have hend : '\x00' ∉ ['\r', '\n'] := by decide
  unfold lineText
  rw [List.mem_append, List.mem_append, List.mem_append]
  rintro (((hm | hm) | hm) | hm)
  · exact hname.2.2 hm
  · exact hcolon hm
  · exact hvalue.2.2 hm
  · exact hend hm

/-- Nor does a header block. -/
theorem HeaderBlock.noZero (h : HeaderBlock r n lines header) : '\x00' ∉ header := by
  have hend : '\x00' ∉ ['\r', '\n'] := by decide
  rw [h.text, List.mem_append, List.mem_append, List.mem_flatMap]
  rintro ((hm | ⟨l, hl, hm⟩) | hm)
  · exact noZero_statusLine h.plain.1 hm
  · obtain ⟨-, -, hname, hvalue⟩ := h.plain.2 l hl
    exact noZero_lineText hname hvalue hm
  · exact hend hm

/-- The status line and the header lines before one end with an end of line. -/
theorem lines_suffix (r : Reply) (lines : List HeaderLine) :
    ['\n'] <:+ statusLine r ++ lines.flatMap lineText := by
  have hend : ['\n'] <:+ "\r\n".toList := by decide
  have hend' : ['\n'] <:+ ['\r', '\n'] := by decide
  rcases List.eq_nil_or_concat' lines with rfl | ⟨lines, l, rfl⟩
  · rw [List.flatMap_nil, List.append_nil]
    exact hend.trans (List.suffix_append _ _)
  · rw [List.flatMap_append, List.flatMap_singleton, ← List.append_assoc]
    exact (hend'.trans (List.suffix_append _ _)).trans (List.suffix_append _ _)

/-- The text before and after a header line. -/
theorem HeaderBlock.split (h : HeaderBlock r n lines header) {l : HeaderLine} (hl : l ∈ lines) :
    ∃ pre post, header = pre ++ '\n' :: lineText l ++ post := by
  obtain ⟨l₁, l₂, rfl⟩ := List.append_of_mem hl
  obtain ⟨pre, hpre⟩ := lines_suffix r l₁
  refine ⟨pre, l₂.flatMap lineText ++ ['\r', '\n'], ?_⟩
  rw [h.text, List.flatMap_append, List.flatMap_cons, ← List.append_assoc, ← hpre]
  simp only [List.append_assoc, List.cons_append, List.nil_append]

/-- A header block is one of a reply. -/
theorem HeaderBlock.replyBlock (h : HeaderBlock r n lines header) : ReplyBlock r n header := by
  refine ⟨?_, h.noZero, h.ends, ?_⟩
  · rw [h.text, List.append_assoc]
    exact List.prefix_append _ _
  · obtain ⟨pre, post, hsplit⟩ := h.split h.announces
    refine ⟨pre ++ ['\n'], post, ?_⟩
    rw [hsplit, lineText]
    simp only [List.append_assoc, List.cons_append, List.nil_append]

/-- The block ends with an end of line. -/
theorem HeaderBlock.suffix (h : HeaderBlock r n lines header) : ['\n'] <:+ header := by
  rw [h.text, show ['\r', '\n'] = ['\r'] ++ ['\n'] from rfl, ← List.append_assoc]
  exact List.suffix_append _ _

end Block

section Reading

/-- A number is read after the name and the next character. -/
theorem inGetHeaderInfoInt_eq {s type : List Char} {p : ℕ} (h : strcasestr s type = some p) :
    inGetHeaderInfoInt s type = atoi (s.drop (p+(type.length+1))) := by
  have hblank : ∀ c : Char, decide (c = ' ' ∨ c = '\t') = true → isSpace c = true := by
    intro c hc
    rcases of_decide_eq_true hc with rfl | rfl <;> decide
  simp only [inGetHeaderInfoInt, inGetHeaderInfoStr, h, Option.map_some]
  rw [atoi, strtoll_dropWhile hblank, atoi]

/-- A field that is not mentioned is -1. -/
theorem inGetHeaderInfoInt_none {s type : List Char} (h : strcasestr s type = none) :
    inGetHeaderInfoInt s type = -1 := by
  simp only [inGetHeaderInfoInt, inGetHeaderInfoStr, h, Option.map_none]

/-- A name that does not end with an end of line stands before the last one. -/
theorem mention_lt {type : List Char} {p : ℕ} (hend : ['\n'] <:+ header) (hne : type ≠ [])
    (hlast : (type.map Char.toLower).getLast? ≠ some '\n') (h : strcasestr header type = some p) :
    p+type.length < header.length := by
  refine lt_of_le_of_ne (find_add_length_le h) fun he => hlast ?_
  have hpos := List.length_pos_of_ne_nil hne
  obtain ⟨-, hstands, -⟩ := find_eq_some.mp h
  have hwhole : type.map Char.toLower = (header.drop p).map Char.toLower :=
    hstands.eq_of_length (by rw [List.length_map, List.length_map, List.length_drop]; omega)
  obtain ⟨pre, rfl⟩ := hend
  rw [hwhole, List.getLast?_map, List.getLast?_drop, if_neg (by omega), List.getLast?_append]
  rfl

/-- A name that is mentioned in the block is found there, whatever follows. The
number is in the block when some text follows the name in it. -/
theorem read_append {type : List Char} {p : ℕ} (hend : ['\n'] <:+ header) (hne : type ≠ [])
    (hlast : (type.map Char.toLower).getLast? ≠ some '\n') (h : strcasestr header type = some p)
    (t : List Char) :
    ((∃ c ∈ header.drop (p+(type.length+1)), isSpace c = false) →
      inGetHeaderInfoInt (header ++ t) type = inGetHeaderInfoInt header type) ∧
    ((∀ c ∈ header.drop (p+(type.length+1)), isSpace c = true) →
      inGetHeaderInfoInt (header ++ t) type = atoi t) := by
  have hlt := mention_lt hend hne hlast h
  have hfound : strcasestr (header ++ t) type = some p := find_append h t
  rw [inGetHeaderInfoInt_eq hfound, inGetHeaderInfoInt_eq h,
    List.drop_append_of_le_length (by omega)]
  constructor
  · intro htext
    have hpos : 0 < (header.drop (p+(type.length+1))).length := by
      obtain ⟨c, hc, -⟩ := htext
      exact List.length_pos_of_mem hc
    have hcut : ['\n'] <:+ header.drop (p+(type.length+1)) :=
      List.suffix_of_suffix_length_le hend (List.drop_suffix _ _) hpos
    rw [atoi, strtoll_append_of_line htext hcut, atoi]
  · intro hspace
    rw [atoi, strtoll_append_of_space hspace, atoi]

/-- The length is read in the block, whatever follows. -/
theorem lengthRead_append (h : HeaderBlock r n lines header) (t : List Char) :
    inGetHeaderInfoInt (header ++ t) "Content-Length".toList = lengthRead header := by
  obtain ⟨pre, post, hsplit⟩ := h.replyBlock.announces
  have hname : "Content-Length".toList.length = 14 := rfl
  have hcolon : ": ".toList.length = 2 := rfl
  obtain ⟨d, ds, hd⟩ := List.exists_cons_of_ne_nil (padDec_ne_nil 0 n)
  have hdigits : Nat.toDigits 10 n = d :: ds := by simpa [padDec] using hd
  have hdigit : d.isDigit :=
    Nat.isDigit_of_mem_toDigits (b := 10) (n := n) (by decide) (by decide) (by simp [hdigits])
  have hlength := congrArg List.length hsplit
  simp only [List.length_append, hname, hcolon] at hlength
  have hstands : Stands Char.toLower "Content-Length".toList (header.drop pre.length) := by
    rw [hsplit]
    simp only [List.append_assoc, List.drop_left]
    exact Stands.append (List.prefix_refl _) _
  obtain ⟨p, hp, hfind⟩ := exists_find_le hstands (by omega)
  have hnumber : Nat.toDigits 10 n ++ ['\r', '\n'] ++ post <:+ header := by
    refine ⟨pre ++ "Content-Length".toList ++ ": ".toList, ?_⟩
    rw [hsplit]
    simp only [List.append_assoc]
  have hcut : Nat.toDigits 10 n ++ ['\r', '\n'] ++ post <:+
      header.drop (p+("Content-Length".toList.length+1)) := by
    refine List.suffix_of_suffix_length_le hnumber (List.drop_suffix _ _) ?_
    rw [List.length_drop, List.length_append, List.length_append, hname]
    omega
  refine (read_append h.suffix (by decide) (by decide) hfind t).1
    ⟨d, hcut.subset ?_, isSpace_of_isDigit hdigit⟩
  rw [hdigits]
  simp

end Reading

section Outcome

/-- The reason is what stands in the first line with text after the status. -/
theorem scanReason_eq (code : ℕ) (rest : List Char)
    (h : scanStatus ("HTTP/1.1".toList ++ ' ' :: (Nat.toDigits 10 code ++ ' ' :: rest)) ≠ none) :
    scanReason ("HTTP/1.1".toList ++ ' ' :: (Nat.toDigits 10 code ++ ' ' :: rest)) =
      if (rest.dropWhile isSpace).takeWhile (fun c => c ≠ '\r' ∧ c ≠ '\n') = [] then none
      else some ((rest.dropWhile isSpace).takeWhile fun c => c ≠ '\r' ∧ c ≠ '\n') := by
  have hdigit : ∀ c ∈ Nat.toDigits 10 code, c.isDigit := fun c hc =>
    Nat.isDigit_of_mem_toDigits (by decide) (by decide) hc
  have hdrop : ((Nat.toDigits 10 code ++ ' ' :: rest).dropWhile Char.isDigit).dropWhile isSpace =
      rest.dropWhile isSpace := by
    rw [List.dropWhile_append_of_pos hdigit]
    rfl
  rw [scanReason, if_neg h, show 8 = "HTTP/1.1".toList.length from rfl, List.drop_left]
  dsimp only
  rw [dropWhile_isSpace_toDigits, ← hdrop]
  obtain ⟨d, ds, hdd, -, hminus, hplus⟩ := exists_toDigits_cons code
  rw [hdd, List.cons_append]
  simp [hminus, hplus]

/-- The reason is that of the block. -/
theorem scanReason_append (h : HeaderBlock r n lines header) (t : List Char) :
    scanReason (header ++ t) = scanReason header := by
  obtain ⟨rest, hrest⟩ := h.replyBlock.status_append
  have hheader := hrest []
  rw [List.append_nil, List.append_nil] at hheader
  have hcode : r.code < 2^31 := lt_trans h.code (by decide)
  have hstatus : ∀ t, scanStatus (header ++ t) ≠ none := by
    intro t
    rw [scanStatus_of_block h.replyBlock hcode]
    simp
  have hcolon : ':' ∈ rest := by
    have hmem : ':' ∈ header := by
      obtain ⟨pre, post, hsplit⟩ := h.split h.announces
      rw [hsplit, lineText]
      simp
    have hhttp : ':' ∉ "HTTP/1.1".toList := by decide
    have hdigits : ':' ∉ Nat.toDigits 10 r.code := by
      intro hm
      have hd := Nat.isDigit_of_mem_toDigits (by decide) (by decide) hm
      exact absurd hd (by decide)
    rw [hheader] at hmem
    simpa [hhttp, hdigits] using hmem
  have hline : '\n' ∈ rest.dropWhile isSpace := by
    obtain ⟨-, hm⟩ := @dropWhile_append_of_stop isSpace ':' (by decide) rest hcolon []
    have hrestSuffix : rest <:+ header := by
      refine ⟨"HTTP/1.1".toList ++ ' ' :: (Nat.toDigits 10 r.code ++ [' ']), ?_⟩
      rw [hheader]
      simp only [List.append_assoc, List.cons_append, List.nil_append]
    have hsuffix : rest.dropWhile isSpace <:+ header := (List.dropWhile_suffix _).trans hrestSuffix
    exact (List.suffix_of_suffix_length_le h.suffix hsuffix (List.length_pos_of_mem hm)).subset
      List.mem_cons_self
  have hskip := (@dropWhile_append_of_stop isSpace ':' (by decide) rest hcolon t).1
  have htake :=
    @takeWhile_append_of_stop (fun c => decide (c ≠ '\r' ∧ c ≠ '\n')) '\n' (by decide) _ hline t
  have hwhole := hstatus t
  have hblock := hstatus []
  rw [List.append_nil] at hblock
  rw [hrest t] at hwhole ⊢
  rw [hheader] at hblock ⊢
  rw [scanReason_eq _ _ hwhole, scanReason_eq _ _ hblock, hskip, htake]

/-- A part of the content in the buffer ends at the first zero byte. -/
theorem cStr_take (s : List Char) (k : ℕ) : cStr (s.take k) = (cStr s).take k :=
  List.take_takeWhile.symm

/-- What an exchange leaves when k bytes of the content came with the block. -/
theorem recvReplyFields_eq (h : HeaderBlock r body.length lines header)
    (hlen : header.length < 1024) {got : List Char} {es : List Arrival}
    (he : commRecvN 1023 inCheckHeaderFinish [] c.arrivals = (some got, es))
    (hr : Received 1023 inCheckHeaderFinish (header ++ body.map byteChar) got es) (ret : MqReturn) :
    recvReplyFields c ret = outcome r header body ret (got.length-header.length) ∧
      got.length-header.length ≤ min body.length (1023-header.length) := by
  have hblock := h.replyBlock
  obtain ⟨part, rfl, hpart⟩ := header_of_received h.ends h.noZero hlen hr
  have hle := hr.length_le
  have hpl := congrArg List.length hpart
  rw [List.length_append, List.length_map] at hpl
  rw [List.length_append] at hle
  have hk : (header ++ part).length-header.length = part.length := by
    rw [List.length_append]
    omega
  have htake : part = (body.map byteChar).take part.length := by rw [← hpart, List.take_left]
  have hbuf : cStr (header ++ part) = header ++ (cStr (body.map byteChar)).take part.length := by
    rw [cStr_append h.noZero, ← cStr_take, ← htake]
  have hread := recvBody_calm hr.calm (lengthRead header).toNat part
  rw [hpart, List.length_map] at hread
  rw [hk]
  refine ⟨?_, by omega⟩
  unfold recvReplyFields outcome
  rw [he]
  simp only [Option.getD_some, hbuf, inGetData_append h.ends,
    scanStatus_of_block hblock (lt_trans h.code (by decide)), lengthRead_append h,
    scanReason_append h, List.length_append, Nat.add_sub_cancel_left, List.drop_left, hread]
  have hend : (r.code : ℤ) = mqGetMsgEnd ↔ r.code = 404 := by
    rw [mqGetMsgEnd]
    omega
  by_cases hcode : r.code = 404
  · rw [if_pos hcode, if_pos (hend.mpr hcode)]
  rw [if_neg hcode, if_neg (hend.not.mpr hcode)]
  by_cases hneg : lengthRead header < 0
  · rw [if_pos hneg, if_pos hneg]
  rw [if_neg hneg, if_neg hneg]
  by_cases hfits : part.length ≤ lengthRead header ∧ lengthRead header ≤ body.length
  · rw [if_pos hfits, if_pos (by omega)]
  · rw [if_neg hfits, if_neg (by omega)]

/-- Some number of bytes comes with the block. -/
theorem exists_outcome (h : HeaderBlock r body.length lines header) (hlen : header.length < 1024)
    (hc : Splits c header body) :
    ∃ k ≤ min body.length (1023-header.length), ∀ ret, recvReplyFields c ret =
      outcome r header body ret k := by
  have hfin : inCheckHeaderFinish [] = false := by decide
  have hpos : ([] : List Char).length < 1023 := by decide
  obtain ⟨got, es, he, hr⟩ := commRecvN_calm hc.calm hpos hfin
  rw [List.nil_append, hc.arrived] at hr
  have heq := recvReplyFields_eq h hlen he hr
  exact ⟨got.length-header.length, (heq inInitReturn).2, fun ret => (heq ret).1⟩

end Outcome

/-- Every split of a reply declares the same array. -/
theorem stackHolds_iff (h : HeaderBlock r body.length lines header) (hlen : header.length < 1024)
    (hc : Splits c header body) (stack : ℕ) (ret : MqReturn) :
    stackHolds stack c ret = true ↔ ContentHeld stack r header := by
  rw [stackHolds, arrayLength_of_block h.replyBlock hlen (lt_trans h.code (by decide))
    (lengthRead_append h) hc.calm hc.arrived ret, ContentHeld]
  by_cases hnone : r.code = 404 ∨ lengthRead header < 0
  · rw [if_pos hnone, Option.all_none]
    exact iff_of_true rfl (hnone.imp_right .inl)
  · rw [if_neg hnone, Option.all_some, decide_eq_true_iff]
    omega

end Ucmq.HeaderFields
