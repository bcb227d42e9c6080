import Ucmq.ClientServer

/-!
# A plain HTTP library

It takes requests of both kinds apart at blanks and at the first empty line, and
writes the length of the content and the position of a reply as header lines. A
client reads all its replies to puts and gets as they are.
-/

namespace Ucmq.PlainWire

open DecimalText TextSearch QueueManage Evhttp MqClient ClientOperation ClientMessage HeaderFields
open WireReply RequestEffect FifoRefinement ClientServer

/-- Decimal digits of a number with its sign. -/
def signedDigits (x : ℤ) : List Char :=
  if x < 0 then '-' :: Nat.toDigits 10 x.natAbs else Nat.toDigits 10 x.natAbs

/-- Header lines of a reply. -/
def plainLines (r : Reply) : List HeaderLine :=
  ⟨"Content-Length".toList, Nat.toDigits 10 (contentOf r).length⟩ ::
    r.pos.toList.map fun pos => ⟨"Pos".toList, signedDigits pos⟩

/-- The plain library. -/
def plainWire : WireLibrary where
  parseRequest text := (strstr text headerEnd).map fun k =>
    (((text.dropWhile (· ≠ ' ')).drop 1).takeWhile (· ≠ ' '), text.drop (k+4))
  parseQuery := plainLibrary.parseQuery
  lines := plainLines

section Requests

variable {uri : List Char} {headers : List (String × String)}

/-- Text of a request with a method. -/
def methodText (method uri : List Char) (headers : List (String × String)) (body : List Char) :
    List Char :=
  method ++ ' ' ::
    (uri ++ " HTTP/1.1\r\n".toList ++ headers.flatMap headerLine ++ "\r\n".toList ++ body)

/-- A request is a block of lines and a body. -/
theorem methodText_lines (method uri : List Char) (headers : List (String × String))
    (body : List Char) :
    methodText method uri headers body =
      ((method ++ ' ' :: (uri ++ " HTTP/1.1".toList)) ::
        headers.map fun kv => kv.1.toList ++ ": ".toList ++
          kv.2.toList).flatMap (· ++ ['\r', '\n']) ++
      '\r' :: '\n' :: body := by
  have hline : " HTTP/1.1\r\n".toList = " HTTP/1.1".toList ++ ['\r', '\n'] := rfl
  have hend : "\r\n".toList = ['\r', '\n'] := rfl
  have hheader : headers.flatMap headerLine =
      (headers.map fun kv => kv.1.toList ++ ": ".toList ++ kv.2.toList).flatMap
        (· ++ ['\r', '\n']) := by
    rw [List.flatMap_map]
    rfl
  unfold methodText
  rw [hline, hend, hheader, List.flatMap_cons]
  simp only [List.append_assoc, List.cons_append, List.nil_append]

/-- A request with a method of visible characters is taken apart. -/
theorem plainWire_parse {method : List Char} (hmethod : ∀ c ∈ method, Visible c)
    (huri : ∀ c ∈ uri, Visible c)
    (hheaders : ∀ kv ∈ headers, kv.1 ≠ "" ∧ (∀ c ∈ kv.1.toList, Visible c ∧ c ≠ ':') ∧ OneLine kv.2)
    (body : List Char) :
    plainWire.parseRequest (methodText method uri headers body) = some (uri, body) := by
  have hcr : ¬Visible '\r' := by decide
  have hblank : ∀ s : List Char, (∀ c ∈ s, Visible c) → ∀ c ∈ s, decide (c ≠ ' ') = true := by
    intro s hs c hc
    have hne : c ≠ ' ' := by
      rintro rfl
      exact absurd (hs _ hc) (by decide)
    simpa using hne
  have hlines : ∀ l ∈ (method ++ ' ' :: (uri ++ " HTTP/1.1".toList)) ::
      headers.map (fun kv => kv.1.toList ++ ": ".toList ++ kv.2.toList), l ≠ [] ∧ '\r' ∉ l := by
    intro l hl
    rcases List.mem_cons.mp hl with rfl | hl
    · refine ⟨by simp, ?_⟩
      simp only [List.mem_append, List.mem_cons, not_or]
      exact ⟨fun hm => hcr (hmethod _ hm), by decide, fun hm => hcr (huri _ hm), by decide⟩
    · obtain ⟨kv, hkv, rfl⟩ := List.mem_map.mp hl
      obtain ⟨-, hk, hv⟩ := hheaders kv hkv
      refine ⟨by simp, ?_⟩
      simp only [List.mem_append, not_or]
      exact ⟨⟨fun hm => hcr (hk _ hm).1, by decide⟩, hv.1⟩
  obtain ⟨k, hk, hbody⟩ := strstr_lines _ (List.cons_ne_nil _ _) hlines body
  rw [← methodText_lines] at hk hbody
  have htarget :
      ((((methodText method uri headers body).dropWhile (· ≠ ' ')).drop 1).takeWhile (· ≠ ' ')) =
        uri := by
    have hhttp : " HTTP/1.1\r\n".toList = ' ' :: "HTTP/1.1\r\n".toList := rfl
    unfold methodText
    rw [List.dropWhile_append_of_pos (hblank _ hmethod),
      List.dropWhile_cons_of_neg (by decide), hhttp]
    simp only [List.drop_succ_cons, List.drop_zero, List.append_assoc, List.cons_append]
    rw [List.takeWhile_append_of_pos (hblank _ huri)]
    simp
  simp only [plainWire, hk, Option.map_some, htarget, hbody]

end Requests

section Replies

variable {r : Reply}

/-- Digits stand for themselves in a header. -/
theorem plain_toDigits (n : ℕ) : Plain (Nat.toDigits 10 n) := by
  have hdigit : ∀ c ∈ Nat.toDigits 10 n, c.isDigit := fun c hc =>
    Nat.isDigit_of_mem_toDigits (by decide) (by decide) hc
  exact ⟨fun hm => absurd (hdigit _ hm) (by decide), fun hm => absurd (hdigit _ hm) (by decide),
    fun hm => absurd (hdigit _ hm) (by decide)⟩

/-- So do digits with a sign. -/
theorem plain_signedDigits (x : ℤ) : Plain (signedDigits x) := by
  obtain ⟨h₁, h₂, h₃⟩ := plain_toDigits x.natAbs
  unfold signedDigits
  split
  · simp only [Plain, List.mem_cons, not_or]
    exact ⟨⟨by decide, h₁⟩, ⟨by decide, h₂⟩, by decide, h₃⟩
  · exact ⟨h₁, h₂, h₃⟩

/-- A number of an int has at most ten digits. -/
theorem length_toDigits_le {n : ℕ} (h : n ≤ 2^31) : (Nat.toDigits 10 n).length ≤ 10 :=
  (Nat.length_toDigits_le_iff (b := 10) (by decide) (by decide)).mpr (by omega)

/-- With a sign it has at most eleven characters. -/
theorem length_signedDigits_le {x : ℤ} (h : x.natAbs ≤ 2^31) : (signedDigits x).length ≤ 11 := by
  have := length_toDigits_le h
  unfold signedDigits
  split
  · rw [List.length_cons]
    omega
  · omega

/-- The header block is made of lines. -/
theorem headerText_lines (r : Reply) :
    headerText plainWire r =
      (("HTTP/1.1 ".toList ++ (toString r.code).toList ++ " ".toList ++ r.reason.toList) ::
        (plainLines r).map fun l => l.name ++ ": ".toList ++ l.value).flatMap (· ++ ['\r', '\n']) ++
      '\r' :: '\n' :: [] := by
  have hend : "\r\n".toList = ['\r', '\n'] := rfl
  have hlines : plainWire.lines r = plainLines r := rfl
  have htext : (plainLines r).flatMap lineText =
      ((plainLines r).map fun l => l.name ++ ": ".toList ++ l.value).flatMap
        (· ++ ['\r', '\n']) := by
    rw [List.flatMap_map]
    rfl
  unfold headerText statusLine
  rw [hend, hlines, htext, List.flatMap_cons]

/-- Names and values of the header lines stand on their lines. -/
theorem plainLines_plain (r : Reply) :
    ∀ l ∈ plainLines r, l.name ≠ [] ∧ ':' ∉ l.name ∧ Plain l.name ∧ Plain l.value := by
  intro l hl
  have hlength : "Content-Length".toList ≠ [] ∧ ':' ∉ "Content-Length".toList ∧
      Plain "Content-Length".toList := by
    decide
  have hpos : "Pos".toList ≠ [] ∧ ':' ∉ "Pos".toList ∧ Plain "Pos".toList := by decide
  rcases List.mem_cons.mp hl with rfl | hl
  · exact ⟨hlength.1, hlength.2.1, hlength.2.2, plain_toDigits _⟩
  · obtain ⟨pos, -, rfl⟩ := List.mem_map.mp hl
    exact ⟨hpos.1, hpos.2.1, hpos.2.2, plain_signedDigits _⟩

/-- The block ends with its first empty line. -/
theorem headerText_ends (hreason : Plain r.reason.toList) :
    inGetData (headerText plainWire r) = some (headerText plainWire r).length := by
  have hlines :
    ∀ l ∈ ("HTTP/1.1 ".toList ++ (toString r.code).toList ++ " ".toList ++ r.reason.toList) ::
      (plainLines r).map (fun l => l.name ++ ": ".toList ++ l.value), l ≠ [] ∧ '\r' ∉ l := by
    intro l hl
    rcases List.mem_cons.mp hl with rfl | hl
    · have hdigit : '\r' ∉ (toString r.code).toList := by
        have := (plain_toDigits r.code).1
        simpa using this
      refine ⟨by simp, ?_⟩
      simp only [List.mem_append, not_or]
      exact ⟨⟨⟨by decide, hdigit⟩, by decide⟩, hreason.1⟩
    · obtain ⟨line, hline, rfl⟩ := List.mem_map.mp hl
      obtain ⟨hne, -, hname, hvalue⟩ := plainLines_plain r line hline
      refine ⟨by simp, ?_⟩
      simp only [List.mem_append, not_or]
      exact ⟨⟨hname.1, by decide⟩, hvalue.1⟩
  obtain ⟨k, hk, hdrop⟩ := strstr_lines _ (List.cons_ne_nil _ _) hlines []
  rw [← headerText_lines] at hk hdrop
  have hle := find_add_length_le hk
  have hge := List.drop_eq_nil_iff.mp hdrop
  rw [inGetData, hk, Option.map_some]
  have hfour : headerEnd.length = 4 := rfl
  congr 1
  omega

/-- The length is read when the status line does not mention it. -/
theorem headerText_length
    (hfirst : strcasestr (statusLine r ++ "Content-Length".toList) "Content-Length".toList =
    some (statusLine r).length) (hlen : (contentOf r).length < 2^31) :
    lengthRead (headerText plainWire r) = (contentOf r).length := by
  have hcolon : ": ".toList = [':', ' '] := rfl
  have htext : ∃ post, headerText plainWire r = statusLine r ++ "Content-Length".toList ++
      ':' :: ' ' :: (Nat.toDigits 10 (contentOf r).length ++ '\r' :: post) := by
    refine ⟨'\n' ::
      ((r.pos.toList.map fun pos => (⟨"Pos".toList, signedDigits pos⟩ : HeaderLine)).flatMap
      lineText ++ ['\r', '\n']), ?_⟩
    have hlines : plainWire.lines r = plainLines r := rfl
    unfold headerText
    rw [hlines, plainLines, List.flatMap_cons, lineText, hcolon]
    simp only [List.append_assoc, List.cons_append, List.nil_append]
  obtain ⟨post, htext⟩ := htext
  have hfind :
      strcasestr (headerText plainWire r) "Content-Length".toList = some (statusLine r).length := by
    rw [htext]
    exact find_append hfirst _
  have hplace : (statusLine r).length+("Content-Length".toList.length+1) =
      (statusLine r ++ "Content-Length".toList ++ [':']).length := by
    rw [List.length_append, List.length_append, List.length_singleton]
    omega
  have hdrop :
    (headerText plainWire r).drop ((statusLine r).length+("Content-Length".toList.length+1)) =
      ' ' :: (Nat.toDigits 10 (contentOf r).length ++ '\r' :: post) := by
    have hcut := List.append_cons (statusLine r ++ "Content-Length".toList) ':'
      (' ' :: (Nat.toDigits 10 (contentOf r).length ++ '\r' :: post))
    rw [hplace, htext, hcut, List.drop_left]
  rw [lengthRead, inGetHeaderInfoInt_eq hfind, hdrop]
  have hread := atoi_announced hlen post
  have hblank : ∀ c : Char, decide (c = ' ' ∨ c = '\t') = true → isSpace c = true := by
    intro c hc
    rcases of_decide_eq_true hc with rfl | rfl <;> decide
  rw [atoi, strtoll_dropWhile hblank, ← atoi] at hread
  rw [hread]
  exact toI32_of_bounds (by omega) (by omega)

/-- A status line that is short and mentions no length. -/
def StatusFits (code : ℕ) (reason : String) : Prop :=
  let line := statusLine ⟨code, reason, "", [], none⟩
  Plain reason.toList ∧ code < 1000 ∧ line.length ≤ 100 ∧
    strcasestr (line ++ "Content-Length".toList) "Content-Length".toList = some line.length

instance (code : ℕ) (reason : String) : Decidable (StatusFits code reason) :=
  inferInstanceAs (Decidable (_ ∧ _ ∧ _ ∧ _))

/-- A reply with such a status line is read as it is. -/
theorem readable_plainWire (h : StatusFits r.code r.reason)
    (hpos : ∀ pos ∈ r.pos, pos.natAbs ≤ 2^31)
    (hlen : (contentOf r).length < 2^31) : Readable plainWire r := by
  obtain ⟨hreason, hcode, hshort, hfirst⟩ := h
  have hstatus : statusLine ⟨r.code, r.reason, "", [], none⟩ = statusLine r := rfl
  rw [hstatus] at hshort hfirst
  refine ⟨⟨rfl, headerText_ends hreason, ⟨hreason, plainLines_plain r⟩, hcode, List.mem_cons_self⟩,
    ?_, headerText_length hfirst hlen⟩
  have hlines : plainWire.lines r = plainLines r := rfl
  have hdigits := length_toDigits_le hlen.le
  have hposline :
    ((r.pos.toList.map fun pos => (⟨"Pos".toList, signedDigits pos⟩ : HeaderLine)).flatMap
      lineText).length ≤ 20 := by
    cases hp : r.pos with
    | none => simp
    | some pos =>
      have := length_signedDigits_le (hpos pos hp)
      simp [lineText]
      omega
  unfold headerText
  rw [hlines, plainLines, List.flatMap_cons, List.length_append, List.length_append,
    List.length_append]
  have hline :
      (lineText ⟨"Content-Length".toList, Nat.toDigits 10 (contentOf r).length⟩).length ≤ 40 := by
    simp [lineText]
    omega
  have htwo : ['\r', '\n'].length = 2 := rfl
  omega

/-- The plain library behaves as client and server rely on. -/
theorem plainWire_lawful : Lawful plainWire where
  parseRequest uri headers body huri hheaders _ :=
    @plainWire_parse uri headers "POST".toList (forall_char (by decide)) huri hheaders body
  parseQuery := plainLibrary_lawful.parseQuery
  parseQuery_empty := plainLibrary_lawful.parseQuery_empty
  parseGet uri headers huri hheaders := by
    have h := @plainWire_parse uri headers "GET".toList (forall_char (by decide)) huri hheaders []
    have htext : methodText "GET".toList uri headers [] = getText uri headers := by
      unfold methodText getText
      rw [List.append_nil]
      simp only [List.append_assoc]
      rfl
    rwa [htext] at h
  readable out r h hlen := by
    have hok : StatusFits 200 "OK" := by decide
    cases h with
    | stored pos hpos => exact readable_plainWire hok (by simpa using hpos) hlen
    | full =>
      have hfull : StatusFits 400 "Put error, queue is full" := by decide
      exact readable_plainWire hfull (by simp [fullReply]) hlen
    | got body pos hpos => exact readable_plainWire hok (by simpa using hpos) hlen
    | empty =>
      have hend : StatusFits 404 "queue is empty" := by decide
      exact readable_plainWire hend (by simp [endReply]) hlen

end Replies

end Ucmq.PlainWire
