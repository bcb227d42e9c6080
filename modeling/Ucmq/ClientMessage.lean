import Ucmq.ClientFailover
import Ucmq.ClientOperation

/-!
# The message a client gets

The reply of a successful get is a header block and the message. The client
reads the block into a buffer that may take part of the message with it, then
the rest of the announced length, and copies the content as a C string. For
every split of the reply into arrivals this gives the message exactly when the
length it reads is the length of the message and the message has no zero byte.
-/

namespace Ucmq.ClientMessage

open DecimalText TextSearch StoreConfig StoreState QueueManage Evhttp MqClient ClientFailover
open ClientOperation

/-- Neither a timeout nor an error of the socket. -/
def Calm (es : List Arrival) : Prop := .again false ∉ es ∧ .error ∉ es

instance (es : List Arrival) : Decidable (Calm es) := inferInstanceAs (Decidable (_ ∧ _))

/-- The bytes that arrive. -/
def arrived : List Arrival → List Char
  | [] => []
  | .bytes c cs :: es => c :: cs ++ arrived es
  | _ :: es => arrived es

/-- What comes later is calm too. -/
theorem Calm.tail {e : Arrival} {es : List Arrival} (h : Calm (e :: es)) : Calm es :=
  ⟨fun hm => h.1 (List.mem_cons_of_mem _ hm), fun hm => h.2 (List.mem_cons_of_mem _ hm)⟩

/-- What was left unread arrives first. -/
theorem arrived_unread (cs : List Char) (es : List Arrival) :
    arrived (unread cs es) = cs ++ arrived es := by
  cases cs <;> rfl

/-- It arrives calmly. -/
theorem calm_unread (cs : List Char) {es : List Arrival} (h : Calm es) : Calm (unread cs es) := by
  cases cs with
  | nil => exact h
  | cons c cs => exact ⟨by simpa [unread] using h.1, by simpa [unread] using h.2⟩

/-- What a receive loop leaves: the text read so far and the text still to come
make up the text, and the loop ends for one of its reasons. -/
structure Received (count : ℕ) (isFinish : List Char → Bool) (text got : List Char)
    (es : List Arrival) :
    Prop where
  calm : Calm es
  text : got ++ arrived es = text
  length_le : got.length ≤ count
  ends : got.length = count ∨ isFinish got = true ∨ arrived es = []

/-- The loop receives a prefix of what arrives, whatever the split. -/
theorem commRecvN_calm {count : ℕ} {isFinish : List Char → Bool} {data : List Char}
    {es : List Arrival} (h : Calm es) (hlen : data.length < count) (hfin : isFinish data = false) :
    ∃ got es', commRecvN count isFinish data es = (some got, es') ∧
      Received count isFinish (data ++ arrived es) got es' := by
  induction es generalizing data with
  | nil => exact ⟨data, [], rfl, h, rfl, hlen.le, .inr (.inr rfl)⟩
  | cons e es ih =>
    cases e with
    | error => exact absurd List.mem_cons_self h.2
    | again ready =>
      cases ready with
      | false => exact absurd List.mem_cons_self h.1
      | true =>
        rw [commRecvN, if_pos ⟨hlen, hfin⟩]
        exact ih h.tail hlen hfin
    | intr =>
      rw [commRecvN, if_pos ⟨hlen, hfin⟩]
      exact ih h.tail hlen hfin
    | bytes c cs =>
      rw [commRecvN]
      split_ifs with hgo
      · have hall : (c :: cs).take (count-data.length) = c :: cs := by
          refine List.take_of_length_le ?_
          rw [List.length_append, List.length_take] at hgo
          omega
        rw [hall] at hgo ⊢
        obtain ⟨got, es', he, hr⟩ := ih h.tail hgo.1 hgo.2
        refine ⟨got, es', he, ?_⟩
        rwa [List.append_assoc] at hr
      · refine ⟨_, _, rfl, calm_unread _ h.tail, ?_, ?_, ?_⟩
        · rw [arrived_unread, List.append_assoc, ← List.append_assoc (List.take _ _),
            List.take_append_drop]
          rfl
        · rw [List.length_append, List.length_take]
          omega
        · by_cases hfull : (data ++ (c :: cs).take (count-data.length)).length < count
          · refine .inr (.inl ?_)
            by_contra hn
            exact hgo ⟨hfull, eq_false_of_ne_true hn⟩
          · refine .inl (le_antisymm ?_ (not_lt.mp hfull))
            rw [List.length_append, List.length_take]
            omega

/-- First line of a reply. -/
def statusLine (r : Reply) : List Char :=
  "HTTP/1.1 ".toList ++ (toString r.code).toList ++ " ".toList ++ r.reason.toList ++ "\r\n".toList

/-- Header block of a reply whose content has n bytes, as the HTTP library
writes it. -/
structure ReplyBlock (r : Reply) (n : ℕ) (header : List Char) : Prop where
  /-- It starts with the status of the reply. -/
  status : statusLine r <+: header
  /-- It is text. -/
  noZero : '\x00' ∉ header
  /-- It ends with its first empty line. -/
  ends : inGetData header = some header.length
  /-- It announces the length of the content. -/
  announces : ∃ pre post, header =
    pre ++ "Content-Length".toList ++ ": ".toList ++ Nat.toDigits 10 n ++ ['\r', '\n'] ++ post

/-- The reply of a get to a client that asks for no version. -/
def getReply (msg : List UInt8) (pos : Option ℤ) : Reply := ⟨200, "OK", "", msg, pos⟩

/-- The status line of a returned message. -/
theorem statusLine_getReply (msg : List UInt8) (pos : Option ℤ) :
    statusLine (getReply msg pos) = "HTTP/1.1".toList ++ " 200 OK\r\n".toList := by
  have hline : "HTTP/1.1 ".toList ++ (toString 200).toList ++ " ".toList ++ "OK".toList ++
    "\r\n".toList =
      "HTTP/1.1".toList ++ " 200 OK\r\n".toList := by decide
  exact hline

/-- A get with a status of success replies with the message and nothing else. -/
theorem httpOptGet_success {sys : Sys} {req : Request} {s s' : Server} {rs : List Reply} {r : Reply}
    (hver : req.ver = none) (h : httpOptGet sys req s = .ok (rs, s')) (hr : r ∈ rs)
    (hcode : r.code = 200) :
    r = getReply r.data r.pos := by
  have hdo : ∀ (pos : Option ℤ) hc hr v1 v2, (doReply pos hc hr v1 v2 req.ver).code = hc := by
    intro pos hc hr v1 v2
    simp [doReply, isVerTwo, hver]
  have hrefused : ∀ pos hc hr' v1 v2, hc ≠ 200 → rs ≠ [doReply pos hc hr' v1 v2 req.ver] := by
    rintro pos hc hr' v1 v2 hne rfl
    rw [List.mem_singleton.mp hr, hdo] at hcode
    exact hne hcode
  simp only [httpOptGet] at h
  split at h
  · exact absurd (Prod.mk.inj (Except.ok.inj h)).1.symm (hrefused _ _ _ _ _ (by decide))
  split at h
  · exact absurd (Prod.mk.inj (Except.ok.inj h)).1.symm (hrefused _ _ _ _ _ (by decide))
  · rename_i e _
    simp only [replyGet] at h
    rcases hp : mqQmPopItem s.conf sys (s.store e) with _ | ⟨ret, st⟩
    · rw [hp] at h
      exact absurd h (by simp [bind, Except.bind])
    · rw [hp] at h
      cases ret with
      | getEnd =>
        exact absurd (Prod.mk.inj (Except.ok.inj h)).1.symm (hrefused _ _ _ _ _ (by decide))
      | getOk item =>
        obtain ⟨rfl, -⟩ := Prod.mk.inj (Except.ok.inj h)
        rw [List.mem_singleton.mp hr]
        simp [getReply, isVerTwo, hver]

/-- A text without a zero byte is a C string. -/
theorem cStr_of_noZero {s : List Char} (h : '\x00' ∉ s) : cStr s = s := by
  refine List.takeWhile_eq_self_iff.mpr fun c hc => ?_
  have : c ≠ '\x00' := fun he => h (he ▸ hc)
  simpa using this

/-- So is what comes before its first zero byte. -/
theorem cStr_append {s : List Char} (h : '\x00' ∉ s) (t : List Char) :
    cStr (s ++ t) = s ++ cStr t := by
  refine List.takeWhile_append_of_pos fun c hc => ?_
  have : c ≠ '\x00' := fun he => h (he ▸ hc)
  simpa using this

/-- A C string is whole exactly when it holds no zero byte. -/
theorem cStr_eq_self_iff (s : List Char) : cStr s = s ↔ '\x00' ∉ s := by
  refine ⟨fun h hm => ?_, cStr_of_noZero⟩
  have := List.takeWhile_eq_self_iff.mp h _ hm
  simp at this

/-- Only the zero byte is the end of a C string. -/
theorem byteChar_eq_zero_iff (b : UInt8) : byteChar b = '\x00' ↔ b = 0 := by
  constructor
  · intro h
    rw [← charByte_byteChar b, h]
    rfl
  · rintro rfl
    rfl

/-- A message is read whole as a string exactly when no byte is zero. -/
theorem cStr_map_byteChar {msg : List UInt8} :
    cStr (msg.map byteChar) = msg.map byteChar ↔ 0 ∉ msg := by
  rw [cStr_eq_self_iff, not_iff_not, List.mem_map]
  constructor
  · rintro ⟨b, hb, hz⟩
    rwa [← (byteChar_eq_zero_iff b).mp hz]
  · intro hz
    exact ⟨0, hz, rfl⟩

/-- A buffer is finished once it has the whole block. -/
theorem inGetData_append {header : List Char} (h : inGetData header = some header.length)
    (t : List Char) :
    inGetData (header ++ t) = some header.length := by
  unfold inGetData strstr at h ⊢
  obtain ⟨k, hk, hk4⟩ := Option.map_eq_some_iff.mp h
  rw [find_append hk, Option.map_some, hk4]

/-- The loop that reads the block goes on until it has all of it. -/
theorem header_of_received {header text got : List Char} {es : List Arrival}
    (hend : inGetData header = some header.length) (hzero : '\x00' ∉ header)
    (hlen : header.length < 1024) (h : Received 1023 inCheckHeaderFinish (header ++ text) got es) :
    ∃ part, got = header ++ part ∧ part ++ arrived es = text := by
  have hle : header.length ≤ got.length := by
    rcases h.ends with hfull | hfin | hall
    · omega
    · by_contra hlt
      have hpre : got <+: header := by
        refine List.prefix_of_prefix_length_le ?_ (List.prefix_append header text) (by omega)
        exact ⟨arrived es, h.text⟩
      obtain ⟨rest, hrest⟩ := hpre
      have hgz : '\x00' ∉ got := fun hm => hzero (hrest ▸ List.mem_append_left _ hm)
      rw [inCheckHeaderFinish, cStr_of_noZero hgz] at hfin
      obtain ⟨d, hd⟩ := Option.isSome_iff_exists.mp hfin
      unfold inGetData strstr at hd hend
      obtain ⟨k, hk, hk4⟩ := Option.map_eq_some_iff.mp hd
      have hin := find_add_length_le hk
      rw [← hrest, find_append hk, Option.map_some] at hend
      have hkl := Option.some.inj hend
      rw [hrest] at hkl
      simp only [headerEnd, List.length_cons, List.length_nil] at hin
      omega
    · have := congrArg List.length h.text
      rw [hall, List.append_nil, List.length_append] at this
      omega
  have hpre : header <+: got := by
    refine List.prefix_of_prefix_length_le (List.prefix_append header text) ?_ hle
    exact ⟨arrived es, h.text⟩
  obtain ⟨part, hpart⟩ := hpre
  refine ⟨part, hpart.symm, ?_⟩
  have := h.text
  rw [← hpart, List.append_assoc] at this
  exact List.append_cancel_left this

/-- The number of a line is read whatever follows the line. -/
theorem atoi_announced {n : ℕ} (hn : n < 2^31) (u : List Char) :
    atoi ((' ' :: (Nat.toDigits 10 n ++ '\r' :: u)).dropWhile fun c => c = ' ' ∨ c = '\t') =
      toI32 n := by
  have hdigit : ∀ c ∈ Nat.toDigits 10 n, c.isDigit := fun c hc =>
    Nat.isDigit_of_mem_toDigits (by decide) (by decide) hc
  have hval : decValue (Nat.toDigits 10 n) = n := by simp [decValue]
  have hblank : (Nat.toDigits 10 n ++ '\r' :: u).dropWhile (fun c => decide (c = ' ' ∨ c = '\t')) =
      Nat.toDigits 10 n ++ '\r' :: u := by
    obtain ⟨d, ds, hd⟩ := List.exists_cons_of_ne_nil (padDec_ne_nil 0 n)
    have hdd : Nat.toDigits 10 n = d :: ds := by simpa [padDec] using hd
    have hdig := hdigit d (by simp [hdd])
    have h₁ : d ≠ ' ' := by rintro rfl; simp at hdig
    have h₂ : d ≠ '\t' := by rintro rfl; simp at hdig
    simp [hdd, h₁, h₂]
  rw [List.dropWhile_cons_of_pos (by decide), hblank, atoi,
    strtoll_digits_append (by simp) hdigit (by rw [hval]; omega) (by simp), hval]

/-- The length that the client reads in a block does not depend on the part of
the content that came with it. -/
theorem contentLength_append {r : Reply} {n : ℕ} {header : List Char} (h : ReplyBlock r n header)
    (hn : n < 2^31) (t : List Char) :
    inGetHeaderInfoInt (header ++ t) "Content-Length".toList =
      inGetHeaderInfoInt header "Content-Length".toList := by
  obtain ⟨pre, post, hh⟩ := h.announces
  have hlen14 : "Content-Length".toList.length = 14 := rfl
  have hcut : header = pre ++ "Content-Length".toList ++ ':' :: ' ' ::
      (Nat.toDigits 10 n ++ '\r' :: '\n' :: post) := by
    have hcolon : ": ".toList = [':', ' '] := rfl
    rw [hh, hcolon]
    simp only [List.append_assoc, List.cons_append, List.nil_append]
  have hplace : pre.length+14 = (pre ++ "Content-Length".toList).length := by
    rw [List.length_append, hlen14]
  have hafter :
      header.drop (pre.length+14) = ':' :: ' ' :: (Nat.toDigits 10 n ++ '\r' :: '\n' :: post) := by
    rw [hplace, hcut, List.drop_left]
  have hlenpre : pre.length+16 ≤ header.length := by
    rw [hcut, List.length_append, ← hplace, List.length_cons, List.length_cons]
    omega
  have hstands : Stands Char.toLower "Content-Length".toList (header.drop pre.length) := by
    rw [hcut, List.append_assoc, List.drop_left]
    exact Stands.append (List.prefix_refl _) _
  obtain ⟨m, hle, hm⟩ : ∃ m ≤ pre.length, strcasestr header "Content-Length".toList = some m :=
    exists_find_le hstands (by omega)
  have hm' : strcasestr (header ++ t) "Content-Length".toList = some m := find_append hm t
  have hdrop : (header ++ t).drop (m+15) = header.drop (m+15) ++ t :=
    List.drop_append_of_le_length (by omega)
  simp only [inGetHeaderInfoInt, inGetHeaderInfoStr, hm, hm', Option.map_some, hlen14]
  rw [hdrop]
  rcases Nat.lt_or_eq_of_le hle with hlt | rfl
  · -- an earlier mention, with the colon of the line still to come
    have hcolon : ':' ∈ header.drop (m+15) := by
      have hback :
          (header.drop (m+15)).drop (pre.length+14-(m+15)) = header.drop (pre.length+14) := by
        rw [List.drop_drop]
        congr 1
        omega
      refine List.mem_of_mem_drop (i := pre.length+14-(m+15)) ?_
      rw [hback, hafter]
      exact List.mem_cons_self
    obtain ⟨h₁, h₂⟩ :=
      dropWhile_append_of_stop (p := fun c => c = ' ' ∨ c = '\t') (by decide) hcolon t
    rw [h₁, atoi, atoi, strtoll_append_of_colon h₂]
  · have hnext :
        header.drop (pre.length+15) = ' ' :: (Nat.toDigits 10 n ++ '\r' :: '\n' :: post) := by
      have htail := congrArg (List.drop 1) hafter
      rwa [List.drop_drop] at htail
    rw [hnext]
    simp only [List.cons_append, List.append_assoc]
    rw [atoi_announced hn, atoi_announced hn]

/-- The content that is read is the first part of what arrives, of the length
read, when that much arrives and no more has come with the block. -/
theorem recvBody_calm {es : List Arrival} (h : Calm es) (bodyLen : ℕ) (part : List Char) :
    recvBody bodyLen part.length part es =
      if part.length ≤ bodyLen ∧ bodyLen ≤ (part ++ arrived es).length then
        some ((part ++ arrived es).take bodyLen) else none := by
  have hall : (part ++ arrived es).length = part.length+(arrived es).length := List.length_append
  unfold recvBody
  rcases Nat.lt_trichotomy bodyLen part.length with hless | heq | hmore
  · rw [if_pos hless, if_neg (by omega)]
  · rw [if_neg (by omega), if_neg (by omega), if_pos (by omega), heq, List.take_left]
  · have hpos : ([] : List Char).length < bodyLen-part.length := by
      rw [List.length_nil]
      omega
    obtain ⟨got, es', he, hr⟩ := @commRecvN_calm _ (fun _ => false) [] es h hpos rfl
    have htext : got ++ arrived es' = arrived es := hr.text
    have hle := hr.length_le
    have hlen := congrArg List.length htext
    rw [List.length_append] at hlen
    rw [if_neg (by omega), if_pos hmore, he]
    dsimp only
    split_ifs with hfull hfits hfits
    · have hcut : (part ++ arrived es).take bodyLen = part ++ got := by
        rw [← htext, ← List.append_assoc, List.take_left' (by rw [List.length_append]; omega)]
      rw [hcut]
    · omega
    · rcases hr.ends with hfull' | hfin | hnil
      · exact absurd hfull' hfull
      · exact absurd hfin (by decide)
      · rw [hnil, List.length_nil] at hlen
        omega
    · rfl

/-- The status line in a text that begins with a header block. -/
theorem ReplyBlock.status_append {r : Reply} {n : ℕ} {header : List Char}
    (h : ReplyBlock r n header) :
    ∃ rest, ∀ t, header ++ t =
      "HTTP/1.1".toList ++ ' ' :: (Nat.toDigits 10 r.code ++ ' ' :: (rest ++ t)) := by
  obtain ⟨rest, hrest⟩ := h.status
  refine ⟨r.reason.toList ++ "\r\n".toList ++ rest, fun t => ?_⟩
  have hhttp : "HTTP/1.1 ".toList = "HTTP/1.1".toList ++ [' '] := rfl
  have hblank : " ".toList = [' '] := rfl
  have hcode : (toString r.code).toList = Nat.toDigits 10 r.code := by simp
  subst hrest
  unfold statusLine
  rw [hcode]
  simp only [hhttp, hblank, List.append_assoc, List.cons_append, List.nil_append]

/-- Blanks are skipped up to the digits of a number. -/
theorem dropWhile_isSpace_toDigits (n : ℕ) (s : List Char) :
    (' ' :: (Nat.toDigits 10 n ++ s)).dropWhile isSpace = Nat.toDigits 10 n ++ s := by
  obtain ⟨d, ds, hd⟩ := List.exists_cons_of_ne_nil (padDec_ne_nil 0 n)
  have hdd : Nat.toDigits 10 n = d :: ds := by simpa [padDec] using hd
  have hdigit : d.isDigit :=
    Nat.isDigit_of_mem_toDigits (b := 10) (n := n) (by decide) (by decide) (by simp [hdd])
  rw [List.dropWhile_cons_of_pos (by decide), hdd, List.cons_append, List.dropWhile_cons_of_neg]
  simp [isSpace_of_isDigit hdigit]

/-- A number starts with a digit, which is no sign. -/
theorem exists_toDigits_cons (n : ℕ) :
    ∃ d ds, Nat.toDigits 10 n = d :: ds ∧ d.isDigit ∧ d ≠ '-' ∧ d ≠ '+' := by
  obtain ⟨d, ds, hd⟩ := List.exists_cons_of_ne_nil (padDec_ne_nil 0 n)
  have hdd : Nat.toDigits 10 n = d :: ds := by simpa [padDec] using hd
  have hmem : d ∈ Nat.toDigits 10 n := by simp [hdd]
  have hfirst : d.isDigit := Nat.isDigit_of_mem_toDigits (by decide) (by decide) hmem
  refine ⟨d, ds, hdd, hfirst, ?_, ?_⟩
  · rintro rfl
    exact absurd hfirst (by decide)
  · rintro rfl
    exact absurd hfirst (by decide)

/-- The status of a reply is read. -/
theorem scanStatus_of_block {r : Reply} {n : ℕ} {header : List Char} (h : ReplyBlock r n header)
    (hcode : r.code < 2^31) (t : List Char) : scanStatus (header ++ t) = some (r.code : ℤ) := by
  obtain ⟨rest, hrest⟩ := h.status_append
  have hdigit : ∀ c ∈ Nat.toDigits 10 r.code, c.isDigit := fun c hc =>
    Nat.isDigit_of_mem_toDigits (by decide) (by decide) hc
  have hval : decValue (Nat.toDigits 10 r.code) = r.code := by simp [decValue]
  have hatoi : atoi (Nat.toDigits 10 r.code ++ ' ' :: (rest ++ t)) = r.code := by
    rw [atoi, strtoll_digits_append (by simp) hdigit (by rw [hval]; omega) (by simp), hval]
    exact toI32_of_bounds (by omega) (by omega)
  rw [scanStatus, hrest t, if_pos (List.prefix_append _ _),
    show 8 = "HTTP/1.1".toList.length from rfl, List.drop_left, scanInt,
      dropWhile_isSpace_toDigits, hatoi]
  obtain ⟨d, ds, hdd, hfirst, hminus, hplus⟩ := exists_toDigits_cons r.code
  rw [hdd, List.cons_append]
  simp [hminus, hplus, hfirst]

section Exchange

variable {msg : List UInt8} {pos : Option ℤ} {header : List Char} {c : Contact}

/-- An exchange that fails leaves the content of the return value as it was. -/
theorem inMqOperate_data_of_fail {c : Contact} {ret : MqReturn}
    (h : (inMqOperate c ret).1 = false) :
    (inMqOperate c ret).2.data = ret.data := by
  unfold inMqOperate at h ⊢
  split_ifs at h ⊢ with hconn hsent
  · rfl
  · rfl
  unfold recvReply at h ⊢
  rcases hr : commRecvN 1023 inCheckHeaderFinish [] c.arrivals with ⟨recv, es⟩
  rw [hr] at h
  dsimp only at h ⊢
  split
  · rfl
  · rename_i d hd
    rw [hd] at h
    dsimp only at h
    split_ifs at h ⊢
    · rfl
    · rfl
    · split
      · rfl
      · rename_i body hb
        rw [hb] at h
        exact absurd h (by simp)

/-- The exchange for the reply of a successful get is completed with the message
exactly when the length read is that of the message and no byte is zero. -/
theorem inMqOperate_getReply (hblock : ReplyBlock (getReply msg pos) msg.length header)
    (hlen : header.length < 1024) (hmsg : msg.length < 2^31) (hconn : c.connected = true)
    (hsent : c.sent = true) (hcalm : Calm c.arrivals)
    (harr : arrived c.arrivals = header ++ msg.map byteChar) (ret : MqReturn) :
    ((inMqOperate c ret).1 = true ∧ (inMqOperate c ret).2.data = some msg ∧
      (inMqOperate c ret).2.dataLen = msg.length) ↔
    0 ∉ msg ∧ inGetHeaderInfoInt header "Content-Length".toList = msg.length := by
  have hfin : inCheckHeaderFinish [] = false := by decide
  have hpos : ([] : List Char).length < 1023 := by decide
  have hcode : (getReply msg pos).code = 200 := rfl
  have hsmall : (getReply msg pos).code < 2^31 := by rw [hcode]; decide
  obtain ⟨got, es, he, hr⟩ := commRecvN_calm hcalm hpos hfin
  rw [List.nil_append, harr] at hr
  obtain ⟨part, rfl, hpart⟩ := header_of_received hblock.ends hblock.noZero hlen hr
  have hbuf : cStr (header ++ part) = header ++ cStr part := cStr_append hblock.noZero part
  set length := inGetHeaderInfoInt header "Content-Length".toList with hlength
  have hbody := recvBody_calm hr.calm length.toNat part
  rw [hpart, List.length_map] at hbody
  unfold inMqOperate
  rw [if_neg (by simp [hconn]), if_neg (by simp [hsent])]
  unfold recvReply
  rw [he]
  simp only [Option.getD_some, hbuf, inGetData_append hblock.ends,
    scanStatus_of_block hblock hsmall, hcode, contentLength_append hblock hmsg, ← hlength,
    List.length_append, Nat.add_sub_cancel_left, List.drop_left, hbody]
  rw [if_neg (by decide)]
  constructor
  · intro h
    split_ifs at h with hneg hfits
    · exact absurd h.1 (by simp)
    · obtain ⟨-, hdata, -⟩ := h
      set read := (msg.map byteChar).take length.toNat with hread
      have hcs : (cStr read).map charByte = msg := Option.some.inj hdata
      have hle : (cStr read).length ≤ read.length :=
        List.Sublist.length_le (List.takeWhile_sublist _)
      have hcl : (cStr read).length = msg.length := by rw [← hcs, List.length_map]
      have hrl : read.length = length.toNat := by
        rw [hread, List.length_take, List.length_map]
        omega
      have hwhole : read = msg.map byteChar :=
        List.take_of_length_le (by rw [List.length_map]; omega)
      refine ⟨cStr_map_byteChar.mp ?_, by omega⟩
      rw [← hwhole]
      exact (List.takeWhile_prefix _).eq_of_length (by rw [← cStr]; omega)
    · exact absurd h.1 (by simp)
  · rintro ⟨hz, hlen'⟩
    have hpl := congrArg List.length hpart
    rw [List.length_append, List.length_map] at hpl
    rw [if_neg (by omega), if_pos (by omega),
      List.take_of_length_le (by rw [List.length_map]; omega)]
    simp only [cStr_map_byteChar.mpr hz, map_charByte_map_byteChar, and_self]

end Exchange

/-- Swapping two servers keeps them all. -/
theorem swap_perm {i j : ℕ} {a : List ℕ} (hi : i < a.length) (hj : j < a.length) :
    (swap i j a).Perm a := by
  have hgi : a.getD i 0 = a[i] := by simp [hi]
  have hgj : a.getD j 0 = a[j] := by simp [hj]
  rw [swap, hgi, hgj]
  exact List.set_set_perm hi hj

/-- The shuffle only changes the order. -/
theorem shuffle_perm (rand : ℕ → ℕ) {count j : ℕ} {a : List ℕ} (hj : j < count)
    (ha : a.length = count) :
    (shuffle rand count j a).Perm a := by
  induction j generalizing a with
  | zero => exact List.Perm.refl a
  | succ j ih =>
    have hmod : rand j%count < a.length := by
      rw [ha]
      exact Nat.mod_lt _ (by omega)
    have hs := swap_perm (i := j+1) (by omega) hmod
    exact (ih (by omega) (by rw [hs.length_eq, ha])).trans hs

/-- Every server is looked up at most once. -/
theorem nodup_lookupOrder (rand : Option (ℕ → ℕ)) (count : ℕ) : (lookupOrder rand count).Nodup := by
  unfold lookupOrder
  cases rand with
  | none => exact List.nodup_range
  | some rand =>
    rcases Nat.eq_zero_or_pos count with rfl | hpos
    · exact List.nodup_nil
    · exact (shuffle_perm rand (by omega) List.length_range).nodup_iff.mpr List.nodup_range

section Loop

variable {contact : ℕ → Contact}

/-- The loop ends at one of its servers. -/
theorem operateLoop_last_mem (info : MqOptInfo) {order : List ℕ} (hne : order ≠ []) (curr : ℕ)
    (ret : MqReturn) :
    (operateLoop contact info order curr ret).2.1 ∈ order := by
  induction order generalizing curr ret with
  | nil => exact absurd rfl hne
  | cons i order ih =>
    rw [operateLoop]
    rcases inMqOperate (contact i) ret with ⟨ok, ret'⟩
    cases ok with
    | true => exact List.mem_cons_self
    | false =>
      cases order with
      | nil => exact List.mem_cons_self
      | cons j order => exact List.mem_cons_of_mem _ (ih (List.cons_ne_nil _ _) i ret')

end Loop

section Stack

variable {stack : ℕ} {contact : ℕ → Contact}

/-- An exchange on a stack that holds the content is the exchange. -/
theorem inMqOperateOn_fits {c : Contact} {ret : MqReturn} (h : stackHolds stack c ret = true) :
    inMqOperateOn stack c ret = some (inMqOperate c ret) := by
  rw [inMqOperateOn, if_neg (by simp [h])]

/-- An exchange whose array does not fit the stack ends the process. -/
theorem inMqOperateOn_overflow {c : Contact} {ret : MqReturn} (hconn : c.connected = true)
    (hsent : c.sent = true) (h : stackHolds stack c ret = false) :
    inMqOperateOn stack c ret = none :=
  if_pos ⟨hconn, hsent, h⟩

/-- An exchange that the process survives is the exchange. -/
theorem inMqOperateOn_some {c : Contact} {ret : MqReturn} {x : Bool × MqReturn}
    (h : inMqOperateOn stack c ret = some x) : inMqOperate c ret = x := by
  unfold inMqOperateOn at h
  split at h
  · cases h
  · exact Option.some.inj h

/-- A loop that the process survives is the loop. -/
theorem operateLoopOn_some {info : MqOptInfo} {order : List ℕ} {curr : ℕ}
    {ret : MqReturn} {x : List (ℕ × MqOptInfo) × ℕ × MqReturn}
    (h : operateLoopOn stack contact info order curr ret = some x) :
    operateLoop contact info order curr ret = x := by
  induction order generalizing curr ret x with
  | nil => exact Option.some.inj h
  | cons i order ih =>
    rw [operateLoopOn] at h
    rw [operateLoop]
    cases hone : inMqOperateOn stack (contact i) ret with
    | none =>
      rw [hone] at h
      cases h
    | some y =>
      obtain ⟨ok, ret'⟩ := y
      rw [hone] at h
      rw [inMqOperateOn_some hone]
      cases ok with
      | true => exact Option.some.inj h
      | false =>
        obtain ⟨z, hz, rfl⟩ := Option.map_eq_some_iff.mp h
        simp only [ih hz]

/-- The process survives the exchange, whatever is returned so far. -/
def Survives (stack : ℕ) (c : Contact) : Prop := ∀ ret, inMqOperateOn stack c ret ≠ none

/-- The array for the content is one byte longer than the length that is read. The
status that ends a queue and a negative length declare none. -/
theorem arrayLength_of_block {r : Reply} {n : ℕ} {header : List Char} {body : List UInt8}
    {c : Contact} {length : ℤ} (hblock : ReplyBlock r n header) (hlen : header.length < 1024)
    (hcode : r.code < 2^31)
    (hlength : ∀ t, inGetHeaderInfoInt (header ++ t) "Content-Length".toList = length)
    (hcalm : Calm c.arrivals) (harr : arrived c.arrivals = header ++ body.map byteChar)
    (ret : MqReturn) :
    arrayLength c ret = if r.code = 404 ∨ length < 0 then none else some (length.toNat+1) := by
  have hfin : inCheckHeaderFinish [] = false := by decide
  have hpos : ([] : List Char).length < 1023 := by decide
  obtain ⟨got, es, he, hr⟩ := commRecvN_calm hcalm hpos hfin
  rw [List.nil_append, harr] at hr
  obtain ⟨part, rfl, -⟩ := header_of_received hblock.ends hblock.noZero hlen hr
  unfold arrayLength
  simp only [he, Option.getD_some, cStr_append hblock.noZero part, inGetData_append hblock.ends,
    scanStatus_of_block hblock hcode, hlength]
  have hend : (r.code : ℤ) = mqGetMsgEnd ↔ r.code = 404 := by
    rw [mqGetMsgEnd]
    omega
  by_cases hcode' : r.code = 404
  · rw [if_pos (hend.mpr hcode'), if_pos (.inl hcode')]
  · rw [if_neg (hend.not.mpr hcode')]
    simp only [hcode', false_or]

/-- Exchanges that fail and that the process survives leave the loop at the next
server. -/
theorem operateLoopOn_skip (info : MqOptInfo) {order : List ℕ} (rest : List ℕ)
    {ret : MqReturn} (curr : ℕ) (h : AllFail contact order ret.result)
    (hs : ∀ i ∈ order, Survives stack (contact i)) :
    ∃ curr' ret', ret'.data = ret.data ∧
      (operateLoopOn stack contact info (order ++ rest) curr ret).map Prod.snd =
        (operateLoopOn stack contact info rest curr' ret').map Prod.snd := by
  induction order generalizing curr ret with
  | nil => exact ⟨curr, ret, rfl, rfl⟩
  | cons i order ih =>
    obtain ⟨⟨ok, ret'⟩, hone⟩ := Option.ne_none_iff_exists'.mp (hs i List.mem_cons_self ret)
    have he := inMqOperateOn_some hone
    have hok := inMqOperate_completes (contact i) ret
    have hres := inMqOperate_result (contact i) ret
    rw [h.1] at hok
    have hdata := inMqOperate_data_of_fail hok
    rw [he] at hok hres hdata
    obtain rfl : ok = false := hok
    obtain ⟨curr', ret'', hd, hloop⟩ :=
      @ih ret' i (by rw [show ret'.result = _ from hres]; exact h.2)
      fun j hj => hs j (List.mem_cons_of_mem i hj)
    refine ⟨curr', ret'', hd.trans hdata, ?_⟩
    rw [List.cons_append, operateLoopOn, hone, ← hloop]
    simp only [Option.map_map]
    rfl

/-- The call returns a message and its length from a server. -/
def Returned (i : ℕ) (msg : List UInt8) (x : Option (List (ℕ × MqOptInfo) × MqReturn)) : Prop :=
  ∃ sent ret, x = some (sent, ret) ∧ ret.index = i ∧ ret.data = some msg ∧ ret.dataLen = msg.length

/-- From the server that sends the reply on, the loop returns the message exactly
when the stack holds its content and the exchange with that server returns it. -/
theorem operateLoopOn_returned {i : ℕ} {after : List ℕ} (hafter : i ∉ after) (info : MqOptInfo)
    {msg : List UInt8} (hconn : (contact i).connected = true) (hsent : (contact i).sent = true)
    (curr : ℕ) {ret : MqReturn} (hdata : ret.data = none) :
    (∃ ret', (operateLoopOn stack contact info (i :: after) curr ret).map Prod.snd =
      some (i, ret') ∧
      ret'.data = some msg ∧ ret'.dataLen = msg.length) ↔
    stackHolds stack (contact i) ret = true ∧ (inMqOperate (contact i) ret).1 = true ∧
      (inMqOperate (contact i) ret).2.data = some msg ∧
      (inMqOperate (contact i) ret).2.dataLen = msg.length := by
  cases hholds : stackHolds stack (contact i) ret with
  | false =>
    rw [operateLoopOn, inMqOperateOn_overflow hconn hsent hholds]
    refine iff_of_false ?_ fun h => absurd h.1 (by simp)
    rintro ⟨ret', hnone, -⟩
    cases hnone
  | true =>
    rw [operateLoopOn, inMqOperateOn_fits hholds]
    rcases he : inMqOperate (contact i) ret with ⟨ok, ret'⟩
    cases ok with
    | true => simp
    | false =>
      have hold : ret'.data = none := by
        have hok : (inMqOperate (contact i) ret).1 = false := by rw [he]
        have hkept := inMqOperate_data_of_fail hok
        rw [he] at hkept
        exact hkept.trans hdata
      refine iff_of_false ?_ fun h => absurd h.2.1 (by simp)
      rintro ⟨ret'', hloop, hd, -⟩
      obtain ⟨x, hx, hlast⟩ := Option.map_eq_some_iff.mp hloop
      obtain ⟨y, hy, rfl⟩ := Option.map_eq_some_iff.mp hx
      obtain ⟨sent, last, ret₂⟩ := y
      obtain ⟨hi, hret⟩ := Prod.mk.inj hlast
      obtain rfl : ret₂ = ret'' := hret
      obtain rfl : last = i := hi
      have hrest := operateLoopOn_some hy
      cases after with
      | nil =>
        rw [operateLoop] at hrest
        obtain rfl : ret' = ret₂ := (Prod.mk.inj (Prod.mk.inj hrest).2).2
        rw [hold] at hd
        exact absurd hd (by simp)
      | cons j after =>
        have hlast := @operateLoop_last_mem contact info _ (List.cons_ne_nil j after) last ret'
        rw [hrest] at hlast
        exact hafter hlast

/-- What a call returns is what its loop ends with. -/
theorem returned_iff {rand : Option (ℕ → ℕ)} {count i : ℕ} {name : String} {charset : Option String}
    {msg : List UInt8} : Returned i msg (mqGetMsgOn stack contact rand count name charset) ↔
      ∃ ret', (operateLoopOn stack contact ⟨"get", name, none, [], charset⟩
          (lookupOrder rand count) 0 inInitReturn).map Prod.snd = some (i, ret') ∧
        ret'.data = some msg ∧ ret'.dataLen = msg.length := by
  unfold Returned mqGetMsgOn
  cases operateLoopOn stack contact ⟨"get", name, none, [], charset⟩
    (lookupOrder rand count) 0 inInitReturn with
  | none => simp
  | some x =>
    obtain ⟨sent, last, ret'⟩ := x
    constructor
    · rintro ⟨sent', ret'', he, hi, hd, hl⟩
      cases he
      obtain rfl : last = i := Int.ofNat.inj hi
      exact ⟨ret', rfl, hd, hl⟩
    · rintro ⟨ret'', he, hd, hl⟩
      cases he
      exact ⟨sent, _, rfl, rfl, hd, hl⟩

end Stack

/-- For every split of the reply of a successful get into arrivals, and
whichever servers failed before the one that sends it, mq_get_msg returns from
that server the message and its length exactly when no byte of the message is
zero, the first mention of Content-Length in the header block is followed by
the length of the message, and the stack has room for the message and one byte
more. -/
theorem get_msg_returned_iff {conf : UcmqConf} {msg : List UInt8} (hmsg : putLenOk conf msg.length)
    {pos : Option ℤ} {header : List Char} (hblock : ReplyBlock (getReply msg pos) msg.length header)
    (hlen : header.length < 1024) (stack : ℕ) (contact : ℕ → Contact) (rand : Option (ℕ → ℕ))
    (count : ℕ) (name : String) (charset : Option String) {before after : List ℕ} {i : ℕ}
    (horder : lookupOrder rand count = before ++ i :: after) (hfail : AllFail contact before (-1))
    (hsurvives : ∀ j ∈ before, Survives stack (contact j))
    (hconn : (contact i).connected = true) (hsent : (contact i).sent = true)
    (hcalm : Calm (contact i).arrivals)
    (harr : arrived (contact i).arrivals = header ++ msg.map byteChar) :
    Returned i msg (mqGetMsgOn stack contact rand count name charset) ↔
    0 ∉ msg ∧ inGetHeaderInfoInt header "Content-Length".toList = msg.length ∧
    msg.length < stack := by
  have hsmall : msg.length < 2^31-1 := by
    have h₁ := hmsg.2
    have h₂ := maxDbFileSize_le conf
    omega
  have hafter : i ∉ after := by
    have hnd := nodup_lookupOrder rand count
    rw [horder] at hnd
    exact (List.nodup_cons.mp (List.nodup_append.mp hnd).2.1).1
  obtain ⟨curr, ret, hdata, hloop⟩ :=
    operateLoopOn_skip ⟨"get", name, none, [], charset⟩ (i :: after) 0
    (show AllFail contact before inInitReturn.result from hfail) hsurvives
  have hget := inMqOperate_getReply hblock hlen (by omega) hconn hsent hcalm harr ret
  have hcode : (getReply msg pos).code = 200 := rfl
  have harray := arrayLength_of_block hblock hlen (by rw [hcode]; decide)
    (contentLength_append hblock (by omega)) hcalm harr ret
  have hholds : inGetHeaderInfoInt header "Content-Length".toList = msg.length →
      (stackHolds stack (contact i) ret = true ↔ msg.length < stack) := by
    intro hlength
    rw [hlength, hcode, if_neg (by omega)] at harray
    rw [stackHolds, harray, Option.all_some, decide_eq_true_iff, Int.toNat_natCast]
    omega
  have hreturned :=
    @operateLoopOn_returned stack contact i after hafter ⟨"get", name, none, [], charset⟩ msg
    hconn hsent curr ret hdata
  rw [hget] at hreturned
  rw [← hloop, ← horder] at hreturned
  rw [returned_iff, hreturned]
  constructor
  · rintro ⟨hs, hz, hlength⟩
    exact ⟨hz, hlength, (hholds hlength).mp hs⟩
  · rintro ⟨hz, hlength, hs⟩
    exact ⟨(hholds hlength).mpr hs, hz, hlength⟩

/-- Header block of a reply with one digit of length. -/
def shortHeader (n : ℕ) : List Char :=
  "HTTP/1.1".toList ++ " 200 OK\r\n".toList ++ "Content-Length".toList ++ ": ".toList ++
    Nat.toDigits 10 n ++ ['\r', '\n'] ++ ['\r', '\n']

/-- A header block with a length of one digit. -/
theorem replyBlock_shortHeader (msg : List UInt8) (pos : Option ℤ) {n : ℕ} (hn : n < 10) :
    ReplyBlock (getReply msg pos) n (shortHeader n) := by
  have hzero : ∀ n < 10, '\x00' ∉ shortHeader n := by decide
  have hdata : ∀ n < 10, inGetData (shortHeader n) = some (shortHeader n).length := by decide
  refine ⟨?_, hzero n hn, hdata n hn,
    ⟨"HTTP/1.1".toList ++ " 200 OK\r\n".toList, ['\r', '\n'], rfl⟩⟩
  rw [statusLine_getReply]
  unfold shortHeader
  rw [List.append_assoc, List.append_assoc, List.append_assoc, List.append_assoc]
  exact List.prefix_append _ _

/-- A message of one byte, in arrivals that split the header block and its end, on a
stack of eight megabytes. -/
theorem get_msg_returned_split :
    let contact : ℕ → Contact := fun _ => ⟨true, true,
      [.bytes 'H' ['T'], .again true, .bytes 'T' "P/1.1 200 OK\r\nContent-Length: 1\r\n\r".toList,
        .intr, .bytes '\n' ['A']], 0⟩
    Returned 0 [65] (mqGetMsgOn (2^23) contact none 1 "q" none) :=
  (@get_msg_returned_iff UcmqConf.least [65] (by decide) (some 1) _
    (replyBlock_shortHeader [65] (some 1) (by decide)) (by decide) _ _ none 1 "q" none
    [] [] 0 rfl trivial (List.forall_mem_nil _) rfl rfl (by decide) (by decide)).mpr (by decide)

/-- A message with a zero byte is cut off there. -/
theorem get_msg_cut_at_zero :
    let msg : List UInt8 := [65, 0, 66]
    let contact : ℕ → Contact := fun _ => ⟨true, true,
      [.bytes 'H' ("TTP/1.1 200 OK\r\nContent-Length: 3\r\n\r\n".toList ++ msg.map byteChar)], 0⟩
    (mqGetMsgOn (2^23) contact none 1 "q" none).map (fun x => (x.2.data, x.2.dataLen)) =
      some (some [65], 1) ∧
      ¬Returned 0 msg (mqGetMsgOn (2^23) contact none 1 "q" none) := by
  have hcut : ∀ x : Option (List (ℕ × MqOptInfo) × MqReturn),
      x.map (fun x => (x.2.data, x.2.dataLen)) = some (some [65], 1) →
      ¬Returned 0 [65, 0, 66] x := by
    rintro _ hx ⟨sent, ret, rfl, -, hd, -⟩
    rw [Option.map_some, hd] at hx
    simp at hx
  intro msg contact
  have hgot : (mqGetMsgOn (2^23) contact none 1 "q" none).map (fun x => (x.2.data, x.2.dataLen)) =
      some (some [65], 1) := by decide
  exact ⟨hgot, hcut _ hgot⟩

end Ucmq.ClientMessage
