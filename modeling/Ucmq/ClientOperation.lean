import Ucmq.Evhttp
import Ucmq.MqClient

/-!
# Set operations between the client and the server

The HTTP library that takes a request apart is a parameter: it gives the target
and the body of a well formed request, and the pairs of a query whose
characters stand for themselves, with or without an empty segment after them.
The request of a set operation then reaches the handler of that operation with
its number, for every operation but the removal, which reaches the handler of
the delay.
-/

namespace Ucmq.ClientOperation

open DecimalText StoreState QueueManage Evhttp MqClient TextSearch

/-- The character is visible. -/
def Visible (c : Char) : Prop := 32 < c.toNat ∧ c.toNat < 127

/-- The character stands for itself in a query. -/
def QuerySafe (c : Char) : Prop := Visible c ∧ c ∉ ['&', '=', '?', '#', '%', '+']

instance (c : Char) : Decidable (Visible c) := inferInstanceAs (Decidable (_ ∧ _))

instance (c : Char) : Decidable (QuerySafe c) := inferInstanceAs (Decidable (_ ∧ _))

/-- Text on one line. -/
def OneLine (s : String) : Prop := '\r' ∉ s.toList ∧ '\n' ∉ s.toList

/-- A pair of a query that needs no decoding. -/
def SafePair (kv : String × String) : Prop :=
  kv.1 ≠ "" ∧ (∀ c ∈ kv.1.toList, QuerySafe c) ∧ ∀ c ∈ kv.2.toList, QuerySafe c

/-- One segment of a query. -/
def segment (kv : String × String) : List Char := kv.1.toList ++ '=' :: kv.2.toList

/-- Text of a query with the given pairs. -/
def queryText (vars : List (String × String)) : List Char := ['&'].intercalate (vars.map segment)

/-- One line of a header block. -/
def headerLine (kv : String × String) : List Char :=
  kv.1.toList ++ ": ".toList ++ kv.2.toList ++ "\r\n".toList

/-- Text of a POST request. -/
def postText (uri : List Char) (headers : List (String × String)) (body : List Char) : List Char :=
  "POST ".toList ++ uri ++ " HTTP/1.1\r\n".toList ++ headers.flatMap headerLine ++
    "\r\n".toList ++ body

/-- The parts of the HTTP library that take a request apart. -/
structure HttpLibrary where
  /-- Target and body of a request. -/
  parseRequest : List Char → Option (List Char × List Char)
  /-- Pairs of the query of a target: evhttp_parse_query. -/
  parseQuery : List Char → Option (List (String × String))

/-- What the server relies on: a well formed request is taken apart, a safe
query gives its pairs, and an empty segment at its end is ignored. -/
structure HttpLibrary.Lawful (lib : HttpLibrary) : Prop where
  parseRequest : ∀ uri headers body, (∀ c ∈ uri, Visible c) →
    (∀ kv ∈ headers, kv.1 ≠ "" ∧ (∀ c ∈ kv.1.toList, Visible c ∧ c ≠ ':') ∧ OneLine kv.2) →
    headers.lookup "Content-Length" = some (toString body.length) →
    lib.parseRequest (postText uri headers body) = some (uri, body)
  parseQuery : ∀ vars, vars ≠ [] → (∀ kv ∈ vars, SafePair kv) →
    lib.parseQuery ("/?".toList ++ queryText vars) = some vars
  parseQuery_empty : ∀ vars, vars ≠ [] → (∀ kv ∈ vars, SafePair kv) →
    lib.parseQuery ("/?".toList ++ queryText vars ++ ['&']) = some vars

/-- First value of a key, whatever the case of the key. -/
def evhttpFindHeader (vars : List (String × String)) (key : String) : Option String :=
  (vars.find? fun kv => kv.1.toList.map Char.toLower = key.toList.map Char.toLower).map Prod.snd

/-- The request that the option entry works on; absent when the library
refuses the request itself. -/
def received (lib : HttpLibrary) (text : List Char) : Option Request :=
  (lib.parseRequest text).map fun (uri, body) =>
    match lib.parseQuery uri with
    | none => ⟨false, none, none, none, none, none, body.map charByte⟩
    | some vars =>
      ⟨true, evhttpFindHeader vars "opt", evhttpFindHeader vars "name", evhttpFindHeader vars "num",
        evhttpFindHeader vars "ver",
        (evhttpFindHeader vars "data").map fun v => v.toList.map charByte, body.map charByte⟩

/-- The operation takes a number. -/
def takesNum : MqOpts → Bool
  | .reset => false
  | .remove => false
  | _ => true

/-- The handler of an operation. -/
def handler (o : MqOpts) (sys : Sys) (req : Request) (s : Server) : List Reply × Server :=
  match o with
  | .reset => httpOptReset sys req s
  | .maxqueue => httpOptMaxqueue sys req s
  | .synctime => httpOptSynctime req s
  | .remove => httpOptRemove sys req s
  | .delay => httpOptDelay sys req s
  | .readonly => httpOptWlock sys req s

/-- The request runs the handler of the operation, on the queue and with the
number given. -/
def Performs (o : MqOpts) (name : String) (data : ℕ) (req : Request) : Prop :=
  req.name = some name ∧ (takesNum o = true → destNum req.num = data) ∧
    ∀ banner sys s, mqEvhttpCbDoOptEntry banner sys req s = .ok (handler o sys req s)

/-- Characters of a queue name stand for themselves in a query. -/
theorem querySafe_of_qnameCharOk {len i : ℕ} {c : Char} (h : qnameCharOk len i c = true) :
    QuerySafe c := by
  have hv : ∀ a b : Char, a ≤ c → c ≤ b → a.toNat ≤ c.toNat ∧ c.toNat ≤ b.toNat :=
    fun _ _ hl hr => ⟨hl, hr⟩
  have hne : ∀ d : Char, c.toNat ≠ d.toNat → c ≠ d := fun d hd he => hd (by rw [he])
  have hcode : (48 ≤ c.toNat ∧ c.toNat ≤ 57) ∨ (97 ≤ c.toNat ∧ c.toNat ≤ 122) ∨
      (65 ≤ c.toNat ∧ c.toNat ≤ 90) ∨ c.toNat = 95 := by
    simp only [qnameCharOk, decide_eq_true_eq] at h
    rcases h with ⟨hl, hr⟩ | ⟨hl, hr⟩ | ⟨hl, hr⟩ | ⟨rfl, -⟩
    · exact .inl (hv '0' '9' hl hr)
    · exact .inr (.inl (hv 'a' 'z' hl hr))
    · exact .inr (.inr (.inl (hv 'A' 'Z' hl hr)))
    · exact .inr (.inr (.inr rfl))
  refine ⟨⟨by omega, by omega⟩, ?_⟩
  simp only [List.mem_cons, List.not_mem_nil, or_false, not_or]
  refine ⟨hne _ ?_, hne _ ?_, hne _ ?_, hne _ ?_, hne _ ?_, hne _ ?_⟩ <;>
    simp only [Char.reduceToNat] <;> omega

/-- A valid name needs no escape in a query. -/
theorem querySafe_of_reqQnameCheck {name : String} (h : reqQnameCheck (some name) = true) :
    ∀ c ∈ name.toList, QuerySafe c := by
  intro c hc
  simp only [reqQnameCheck, decide_eq_true_eq] at h
  obtain ⟨i, hi, he⟩ := List.mem_iff_getElem.mp hc
  have hz : (c, i) ∈ name.toList.zipIdx := by
    rw [List.mem_zipIdx_iff_getElem?, List.getElem?_eq_getElem hi, he]
  exact querySafe_of_qnameCharOk (h.2.2 _ hz)

/-- The pairs of every set request. -/
def setVars (name opt : String) (charset : Option String) : List (String × String) :=
  ("name", name) :: ("opt", opt) :: charset.toList.map fun c => ("charset", c)

/-- A query of one pair. -/
@[simp] theorem queryText_singleton (kv : String × String) : queryText [kv] = segment kv := by
  simp [queryText, List.intercalate]

/-- Another pair is appended after a separator. -/
theorem queryText_append (vars : List (String × String)) (kv : String × String) (h : vars ≠ []) :
    queryText (vars ++ [kv]) = queryText vars ++ '&' :: segment kv := by
  induction vars with
  | nil => exact absurd rfl h
  | cons x vars ih =>
    cases vars with
    | nil => simp [queryText, List.intercalate]
    | cons y vars =>
      have hy := ih (List.cons_ne_nil _ _)
      simp only [queryText, List.intercalate, List.map_cons, List.cons_append,
        List.intersperse_cons_cons, List.flatten_cons,
        List.append_assoc] at hy ⊢
      rw [hy]

/-- Text of the pairs of a set request. -/
theorem queryText_setVars (name opt : String) (charset : Option String) :
    queryText (setVars name opt charset) = "name=".toList ++ name.toList ++
      "&opt=".toList ++ opt.toList ++
      (match charset with
        | some charset => "&charset=".toList ++ charset.toList
        | none => []) := by
  have hname : "name=".toList = "name".toList ++ ['='] := rfl
  have hopt : "&opt=".toList = '&' :: ("opt".toList ++ ['=']) := rfl
  have htwo : queryText [("name", name), ("opt", opt)] =
      "name=".toList ++ name.toList ++ "&opt=".toList ++ opt.toList := by
    rw [show [("name", name), ("opt", opt)] = [("name", name)] ++ [("opt", opt)] from rfl,
      queryText_append _ _ (List.cons_ne_nil _ _), queryText_singleton, hname, hopt]
    simp only [segment, List.append_assoc, List.cons_append, List.nil_append]
  cases charset with
  | none => rw [List.append_nil, ← htwo]; rfl
  | some c =>
    have hc : "&charset=".toList = '&' :: ("charset".toList ++ ['=']) := rfl
    rw [show setVars name opt (some c) = [("name", name), ("opt", opt)] ++
      [("charset", c)] from rfl, queryText_append _ _ (List.cons_ne_nil _ _), htwo, hc]
    simp only [segment, List.append_assoc, List.cons_append, List.nil_append]

/-- The query of a request without a number ends with an empty segment. -/
theorem httpQuery_empty (name opt : String) (data : List UInt8) (charset : Option String) :
    httpQuery ⟨opt, name, some "", data, charset⟩ =
      queryText (setVars name opt charset) ++ ['&'] := by
  rw [queryText_setVars]
  unfold httpQuery
  rfl

/-- The query of a request with a number ends with its pair. -/
theorem httpQuery_num (name opt v : String) (data : List UInt8) (charset : Option String) :
    httpQuery ⟨opt, name, some ("num=" ++ v), data, charset⟩ =
      queryText (setVars name opt charset ++ [("num", v)]) := by
  have hnum : "&".toList ++ ("num=" ++ v).toList = '&' :: segment ("num", v) := by
    have hlit : "num=".toList = "num".toList ++ ['='] := rfl
    rw [String.toList_append, hlit, segment, List.append_assoc]
    rfl
  have hv : setVars name opt charset ≠ [] := List.cons_ne_nil _ _
  rw [queryText_append _ _ hv, queryText_setVars, ← hnum]
  unfold httpQuery
  rfl

/-- A request with a body is a POST request with three headers. -/
theorem commSendHttpReq_eq (dest : String) {info : MqOptInfo} (h : info.data ≠ []) :
    commSendHttpReq dest info = postText ("/?".toList ++ httpQuery info)
      [("Host", dest), ("Content-Length", toString info.data.length), ("Connection", "keep-alive")]
      (info.data.map byteChar) := by
  have hcut : ∀ a b c : List Char, a ++ b ++ c = a ++ (b ++ c) := List.append_assoc
  have hpost : "POST /?".toList = "POST ".toList ++ "/?".toList := rfl
  have hhost : " HTTP/1.1\r\nHost: ".toList = " HTTP/1.1\r\n".toList ++ "Host".toList ++
      ": ".toList := rfl
  have hlen : "\r\nContent-Length: ".toList = "\r\n".toList ++ "Content-Length".toList ++
      ": ".toList := rfl
  have hconn : "\r\nConnection: keep-alive\r\n\r\n".toList = "\r\n".toList ++ "Connection".toList ++
    ": ".toList ++ "keep-alive".toList ++ "\r\n".toList ++ "\r\n".toList := rfl
  unfold commSendHttpReq
  rw [if_neg h, hpost, hhost, hlen, hconn]
  unfold postText
  simp only [headerLine, List.flatMap_cons, List.flatMap_nil, List.append_nil, hcut]

/-- A query of safe pairs has visible characters only. -/
theorem visible_of_mem_queryText {vars : List (String × String)}
    (h : ∀ kv ∈ vars, SafePair kv) {c : Char} (hc : c ∈ queryText vars) : Visible c := by
  have hseg : ∀ kv, SafePair kv → ∀ c ∈ segment kv, Visible c := by
    intro kv hkv c hc
    rcases List.mem_append.mp hc with hk | hv
    · exact (hkv.2.1 c hk).1
    · rcases List.mem_cons.mp hv with rfl | hv
      · decide
      · exact (hkv.2.2 c hv).1
  induction vars with
  | nil => simp [queryText, List.intercalate] at hc
  | cons x vars ih =>
    cases vars with
    | nil =>
      rw [queryText_singleton] at hc
      exact hseg x (h x (by simp)) c hc
    | cons y vars =>
      have htext : queryText (x :: y :: vars) = segment x ++ '&' :: queryText (y :: vars) := by
        simp [queryText, List.intercalate]
      rw [htext] at hc
      rcases List.mem_append.mp hc with hx | hr
      · exact hseg x (h x (by simp)) c hx
      · rcases List.mem_cons.mp hr with rfl | hr
        · decide
        · exact ih (fun kv hkv => h kv (List.mem_cons_of_mem _ hkv)) hr

/-- A byte is read back from its character. -/
theorem charByte_byteChar (b : UInt8) : charByte (byteChar b) = b := by
  have hb := b.toNat_lt
  have hv : b.toNat.isValidChar := Or.inl (by omega)
  have hn : (byteChar b).toNat = b.toNat := by
    rw [byteChar, Char.ofNat, dif_pos hv]
    rfl
  rw [charByte, hn, UInt8.ofNat_toNat]

/-- So are the bytes of a message. -/
theorem map_charByte_map_byteChar (msg : List UInt8) : (msg.map byteChar).map charByte = msg := by
  rw [List.map_map]
  exact List.map_congr_left (fun b _ => charByte_byteChar b) |>.trans (List.map_id _)

/-- A check of every character. -/
theorem forall_char {p : Char → Prop} [DecidablePred p] {s : List Char}
    (h : s.all (fun c => decide (p c)) = true) : ∀ c ∈ s, p c := fun c hc =>
  of_decide_eq_true (List.all_eq_true.mp h c hc)

/-- A pair of texts without special characters. -/
theorem safePair {k v : String} (hk : k ≠ "") (hks : ∀ c ∈ k.toList, QuerySafe c)
    (hv : ∀ c ∈ v.toList, QuerySafe c) : SafePair (k, v) := ⟨hk, hks, hv⟩

/-- The first pair of a key is found. -/
theorem evhttpFindHeader_pos {k key : String}
    (h : k.toList.map Char.toLower = key.toList.map Char.toLower) (v : String)
    (vars : List (String × String)) :
    evhttpFindHeader ((k, v) :: vars) key = some v := by
  simp [evhttpFindHeader, h]

/-- A pair of another key is passed over. -/
theorem evhttpFindHeader_neg {k key : String}
    (h : k.toList.map Char.toLower ≠ key.toList.map Char.toLower) (v : String)
    (vars : List (String × String)) :
    evhttpFindHeader ((k, v) :: vars) key = evhttpFindHeader vars key := by
  simp [evhttpFindHeader, h]

/-- A set request names its operation and its queue, and passes on whatever
other key is asked for to the segments after the character set. -/
theorem evhttpFindHeader_setVars (name opt : String) (charset : Option String)
    (vars : List (String × String)) :
    evhttpFindHeader (setVars name opt charset ++ vars) "opt" = some opt ∧
      evhttpFindHeader (setVars name opt charset ++ vars) "name" = some name ∧
      ∀ key : String, key.toList.map Char.toLower ∉ ["name".toList, "opt".toList,
        "charset".toList] →
        evhttpFindHeader (setVars name opt charset ++ vars) key = evhttpFindHeader vars key := by
  have hlower : "name".toList.map Char.toLower = "name".toList ∧
    "opt".toList.map Char.toLower = "opt".toList ∧
      "charset".toList.map Char.toLower = "charset".toList := by decide
  refine ⟨?_, ?_, ?_⟩
  · rw [setVars, List.cons_append, evhttpFindHeader_neg (by decide), List.cons_append,
      evhttpFindHeader_pos rfl]
  · rw [setVars, List.cons_append, evhttpFindHeader_pos rfl]
  · intro key hk
    simp only [List.mem_cons, List.not_mem_nil, or_false, not_or] at hk
    rw [setVars, List.cons_append, evhttpFindHeader_neg (by rw [hlower.1]; exact Ne.symm hk.1),
      List.cons_append, evhttpFindHeader_neg (by rw [hlower.2.1]; exact Ne.symm hk.2.1)]
    cases charset with
    | none => rfl
    | some c =>
      exact evhttpFindHeader_neg (by rw [hlower.2.2]; exact Ne.symm hk.2.2) c vars

/-- The request that a set operation arrives as. -/
def heard (opt name : String) (num : Option String) (data : List UInt8) : Request :=
  ⟨true, some opt, some name, num, none, none, data⟩

section Received

variable {lib : HttpLibrary} {dest name opt : String} {data : List UInt8} {charset : Option String}

/-- The query of a request is safe. -/
theorem safe_setVars (hn : ∀ c ∈ name.toList, QuerySafe c) (ho : ∀ c ∈ opt.toList, QuerySafe c)
    (hc : ∀ cs ∈ charset, ∀ c ∈ cs.toList, QuerySafe c) :
    ∀ kv ∈ setVars name opt charset, SafePair kv := by
  intro kv hkv
  rcases List.mem_cons.mp hkv with rfl | hkv
  · exact safePair (by decide) (forall_char (by decide)) hn
  rcases List.mem_cons.mp hkv with rfl | hkv
  · exact safePair (by decide) (forall_char (by decide)) ho
  obtain ⟨cs, hcs, rfl⟩ := List.mem_map.mp hkv
  exact safePair (by decide) (forall_char (by decide)) (hc cs (by simpa using hcs))

/-- A posted request whose query parses is heard with the pairs of the query. -/
theorem received_of_query (hlib : lib.Lawful) (hd : OneLine dest) (hne : data ≠ [])
    {num : Option String} {vars : List (String × String)}
    (hq : lib.parseQuery ("/?".toList ++ httpQuery ⟨opt, name, num, data, charset⟩) = some vars)
    (hv : ∀ c ∈ httpQuery ⟨opt, name, num, data, charset⟩, Visible c) :
    received lib (commSendHttpReq dest ⟨opt, name, num, data, charset⟩) =
      some ⟨true, evhttpFindHeader vars "opt", evhttpFindHeader vars "name",
        evhttpFindHeader vars "num", evhttpFindHeader vars "ver",
        (evhttpFindHeader vars "data").map fun v => v.toList.map charByte, data⟩ := by
  have huri : ∀ c ∈ "/?".toList ++ httpQuery ⟨opt, name, num, data, charset⟩, Visible c := by
    intro c hc
    have hroot : ∀ c ∈ "/?".toList, Visible c := forall_char (by decide)
    rcases List.mem_append.mp hc with hc | hc
    · exact hroot c hc
    · exact hv c hc
  have hkeep : OneLine "keep-alive" := by unfold OneLine; decide
  have hdigits : OneLine (toString data.length) := by
    have hd : ∀ c ∈ (toString data.length).toList, c.isDigit := by
      intro c hc
      exact Nat.isDigit_of_mem_toDigits (b := 10) (by decide) (by decide) (by simpa using hc)
    exact ⟨fun hm => absurd (hd _ hm) (by decide), fun hm => absurd (hd _ hm) (by decide)⟩
  have hbody := map_charByte_map_byteChar data
  have hheaders :
    ∀ kv ∈ [("Host", dest), ("Content-Length", toString data.length), ("Connection", "keep-alive")],
      kv.1 ≠ "" ∧ (∀ c ∈ kv.1.toList, Visible c ∧ c ≠ ':') ∧ OneLine kv.2 := by
    intro kv hkv
    simp only [List.mem_cons, List.not_mem_nil, or_false] at hkv
    have hhost : "Host" ≠ "" ∧ ∀ c ∈ "Host".toList, Visible c ∧ c ≠ ':' :=
      ⟨by decide, forall_char (by decide)⟩
    have hlen : "Content-Length" ≠ "" ∧ ∀ c ∈ "Content-Length".toList, Visible c ∧ c ≠ ':' :=
      ⟨by decide, forall_char (by decide)⟩
    have hconn : "Connection" ≠ "" ∧ ∀ c ∈ "Connection".toList, Visible c ∧ c ≠ ':' :=
      ⟨by decide, forall_char (by decide)⟩
    rcases hkv with rfl | rfl | rfl
    · exact ⟨hhost.1, hhost.2, hd⟩
    · exact ⟨hlen.1, hlen.2, hdigits⟩
    · exact ⟨hconn.1, hconn.2, hkeep⟩
  have hlook :
    [("Host", dest), ("Content-Length", toString data.length), ("Connection", "keep-alive")].lookup
      "Content-Length" = some (toString (data.map byteChar).length) := by
    have hne : ("Content-Length" == "Host") = false := by decide
    have heq : ("Content-Length" == "Content-Length") = true := by decide
    rw [List.lookup_cons, hne, List.lookup_cons, heq, List.length_map]
  rw [received, commSendHttpReq_eq dest hne, hlib.parseRequest _ _ _ huri hheaders hlook]
  simp only [Option.map_some, hq, hbody]

/-- A request with an empty number is received with none. -/
theorem received_empty (hlib : lib.Lawful) (hd : OneLine dest) (hne : data ≠ [])
    (hs : ∀ kv ∈ setVars name opt charset, SafePair kv) :
    received lib (commSendHttpReq dest ⟨opt, name, some "", data, charset⟩) =
      some (heard opt name none data) := by
  have hvars : setVars name opt charset ≠ [] := List.cons_ne_nil _ _
  have hq := hlib.parseQuery_empty _ hvars hs
  rw [List.append_assoc, ← httpQuery_empty name opt data charset] at hq
  obtain ⟨hopt, hname, hrest⟩ := evhttpFindHeader_setVars name opt charset []
  rw [List.append_nil] at hopt hname hrest
  rw [received_of_query hlib hd hne hq]
  · rw [hopt, hname, hrest _ (by decide), hrest _ (by decide), hrest _ (by decide)]
    rfl
  · intro c hc
    rw [httpQuery_empty] at hc
    rcases List.mem_append.mp hc with hc | hc
    · exact visible_of_mem_queryText hs hc
    · rw [List.mem_singleton.mp hc]
      decide

/-- A request with a number is received with it. -/
theorem received_num (hlib : lib.Lawful) (hd : OneLine dest) (hne : data ≠ []) {v : String}
    (hs : ∀ kv ∈ setVars name opt charset, SafePair kv) (hv : ∀ c ∈ v.toList, QuerySafe c) :
    received lib (commSendHttpReq dest ⟨opt, name, some ("num=" ++ v), data, charset⟩) =
      some (heard opt name (some v) data) := by
  have hvars : setVars name opt charset ++ [("num", v)] ≠ [] := by simp
  have hs' : ∀ kv ∈ setVars name opt charset ++ [("num", v)], SafePair kv := by
    intro kv hkv
    rcases List.mem_append.mp hkv with hkv | hkv
    · exact hs kv hkv
    · rw [List.mem_singleton.mp hkv]
      exact safePair (by decide) (forall_char (by decide)) hv
  have hq := hlib.parseQuery _ hvars hs'
  rw [← httpQuery_num name opt v data charset] at hq
  obtain ⟨hopt, hname, hrest⟩ := evhttpFindHeader_setVars name opt charset [("num", v)]
  rw [received_of_query hlib hd hne hq]
  · rw [hopt, hname, hrest _ (by decide), hrest _ (by decide), hrest _ (by decide),
      evhttpFindHeader_pos rfl, evhttpFindHeader_neg (by decide), evhttpFindHeader_neg (by decide)]
    rfl
  · intro c hc
    rw [httpQuery_num] at hc
    exact visible_of_mem_queryText hs' hc

end Received

/-- Decimal text of a number below 2^31. -/
theorem toString_toI32 {n : ℕ} (h : n < 2^31) :
    (toString (toI32 n)).toList = Nat.toDigits 10 n := by
  rw [toI32_of_bounds (by omega) (by omega)]
  have hn : toString (n : ℤ) = Nat.repr n := rfl
  rw [hn]
  simp

/-- A number needs no escape in a query. -/
theorem querySafe_toString {n : ℕ} (h : n < 2^31) :
    ∀ c ∈ (toString (toI32 n)).toList, QuerySafe c := by
  intro c hc
  rw [toString_toI32 h] at hc
  have hd := Nat.isDigit_of_mem_toDigits (b := 10) (by decide) (by decide) hc
  apply @querySafe_of_qnameCharOk 0 0
  simp only [Char.isDigit, Bool.and_eq_true, decide_eq_true_eq] at hd
  simp only [qnameCharOk, decide_eq_true_eq]
  exact .inl hd

/-- The number sent is the number read. -/
theorem destNum_toString {n : ℕ} (h : n < 2^31) : destNum (some (toString (toI32 n))) = n := by
  have hv : decValue (Nat.toDigits 10 n) = n := by
    simp [decValue]
  have hd : ∀ c ∈ Nat.toDigits 10 n, c.isDigit := fun c hc =>
    Nat.isDigit_of_mem_toDigits (by decide) (by decide) hc
  simp only [destNum, atoi]
  rw [toString_toI32 h, strtoll_digits hd (by rw [hv]; omega), hv,
    toI32_of_bounds (by omega) (by omega)]

/-- A request for the delay without a number is answered twice. -/
theorem httpOptDelay_none_length (sys : Sys) {name : String} (hn : reqQnameCheck (some name) = true)
    (data : List UInt8) (s : Server) :
    (httpOptDelay sys (heard "delay" name none data) s).1.length = 2 := by
  simp only [httpOptDelay, heard, hn, Bool.true_eq_false, if_false, destNum]
  split <;> simp

/-- A removal is answered once. -/
theorem httpOptRemove_length (sys : Sys) (req : Request) (s : Server) :
    (httpOptRemove sys req s).1.length = 1 := by
  simp only [httpOptRemove]
  split
  · rfl
  · split <;> rfl

/-- A set request finds its server among the addresses of the client. -/
theorem mqSetOpt_of_mem (contact : ℕ → Contact) {dests : List String} {server : String}
    (h : server ∈ dests) (name : String) (o : MqOpts) (data : ℕ) (charset : Option String) :
    ∃ i info ret, dests[i]? = some server ∧ setOptInfo name o.value data charset = some info ∧
      mqSetOpt contact dests server name o.value data charset = some ([(i, info)], ret) := by
  have hpos : ¬o.value < 0 := by cases o <;> decide
  obtain ⟨info, hinfo⟩ : ∃ info, setOptInfo name o.value data charset = some info := by
    cases o <;> exact ⟨_, rfl⟩
  obtain ⟨i, hi⟩ : ∃ i, dests.findIdx? (· = server) = some i := by
    refine Option.isSome_iff_exists.mp ?_
    rw [List.findIdx?_isSome, List.any_eq_true]
    exact ⟨server, h, by simp⟩
  have hat : dests[i]? = some server := by
    obtain ⟨hlt, hp, -⟩ := List.findIdx?_eq_some_iff_getElem.mp hi
    rw [List.getElem?_eq_getElem hlt]
    simpa using hp
  refine ⟨i, info, (inMqOperate (contact i) { inInitReturn with optValue := o.value }).2,
    hat, hinfo, ?_⟩
  rw [mqSetOpt, if_neg hpos]
  simp only [hinfo, hi]

/-- What the server hears of a set request. -/
theorem received_setOpt {lib : HttpLibrary} (hlib : lib.Lawful) {name dest : String}
    (hn : reqQnameCheck (some name) = true) (hd : OneLine dest) {charset : Option String}
    (hc : ∀ cs ∈ charset, ∀ c ∈ cs.toList, QuerySafe c) {data : ℕ} (hdata : data < 2^31)
    (o : MqOpts) {info : MqOptInfo} (hinfo : setOptInfo name o.value data charset = some info) :
    received lib (commSendHttpReq dest info) = some (heard info.opt name
      (if takesNum o = true then some (toString (toI32 data)) else none) (u32Bytes data)) := by
  have hname := querySafe_of_reqQnameCheck hn
  have hbody : u32Bytes data ≠ [] := List.cons_ne_nil _ _
  have hword : ∀ w ∈ ["reset", "maxqueue", "synctime", "delay", "readonly"],
      ∀ c ∈ w.toList, QuerySafe c := by
    intro w hw
    have hsafe : ["reset", "maxqueue", "synctime", "delay", "readonly"].all
        (fun w => w.toList.all fun c => decide (QuerySafe c)) = true := by decide
    exact forall_char (List.all_eq_true.mp hsafe w hw)
  cases o
  · obtain rfl := Option.some.inj hinfo
    exact received_empty hlib hd hbody (safe_setVars hname (hword _ (by simp)) hc)
  · obtain rfl := Option.some.inj hinfo
    exact received_num hlib hd hbody (safe_setVars hname (hword _ (by simp)) hc)
      (querySafe_toString hdata)
  · obtain rfl := Option.some.inj hinfo
    exact received_num hlib hd hbody (safe_setVars hname (hword _ (by simp)) hc)
      (querySafe_toString hdata)
  · obtain rfl := Option.some.inj hinfo
    exact received_empty hlib hd hbody (safe_setVars hname (hword _ (by simp)) hc)
  · obtain rfl := Option.some.inj hinfo
    exact received_num hlib hd hbody (safe_setVars hname (hword _ (by simp)) hc)
      (querySafe_toString hdata)
  · obtain rfl := Option.some.inj hinfo
    exact received_num hlib hd hbody (safe_setVars hname (hword _ (by simp)) hc)
      (querySafe_toString hdata)

/-- The removal is not performed: its request is a delay without a number. -/
theorem not_performs_remove {name : String} (hn : reqQnameCheck (some name) = true) (data : ℕ) :
    ¬Performs .remove name data (heard "delay" name none (u32Bytes data)) := by
  intro h
  let s : Server := ⟨StoreConfig.UcmqConf.least, fun _ => none, [], ⟨0, 0, 0, 0⟩, []⟩
  have he := h.2.2 "" (Sys.quiet 0 0) s
  have hdelay :
    mqEvhttpCbDoOptEntry "" (Sys.quiet 0 0) (heard "delay" name none (u32Bytes data)) s =
      .ok (httpOptDelay (Sys.quiet 0 0) (heard "delay" name none (u32Bytes data)) s) := rfl
  rw [hdelay] at he
  have hl := congrArg (fun x => x.1.length) (Except.ok.inj he)
  simp only [handler] at hl
  rw [httpOptDelay_none_length _ hn, httpOptRemove_length] at hl
  exact absurd hl (by decide)

/-- The request that mq_set_opt sends makes the server perform the operation of
the code, on the queue and with the number given, exactly when the operation is
not the removal. -/
theorem set_opt_performed_iff {lib : HttpLibrary} (hlib : lib.Lawful) (contact : ℕ → Contact)
    {dests : List String} {server : String} (hs : server ∈ dests) (hd : OneLine server)
    {name : String} (hn : reqQnameCheck (some name) = true) {charset : Option String}
    (hc : ∀ cs ∈ charset, ∀ c ∈ cs.toList, QuerySafe c) {data : ℕ} (hdata : data < 2^31)
    (o : MqOpts) :
    (∃ i info ret req, mqSetOpt contact dests server name o.value data charset =
      some ([(i, info)], ret) ∧
      dests[i]? = some server ∧ received lib (commSendHttpReq server info) = some req ∧
      Performs o name data req) ↔ o ≠ .remove := by
  obtain ⟨i, info, ret, hi, hinfo, hset⟩ := mqSetOpt_of_mem contact hs name o data charset
  have hreq := received_setOpt hlib hn hd hc hdata o hinfo
  constructor
  · rintro ⟨i', info', ret', req, hset', -, hreq', hperf⟩ rfl
    rw [hset] at hset'
    obtain ⟨hsent, -⟩ := Prod.mk.inj (Option.some.inj hset')
    obtain rfl := (Prod.mk.inj (List.cons.inj hsent).1).2
    rw [hreq] at hreq'
    obtain rfl := Option.some.inj hreq'
    obtain rfl := Option.some.inj hinfo
    exact not_performs_remove hn data hperf
  · intro hne
    refine ⟨i, info, ret, _, hset, hi, hreq, rfl, ?_, ?_⟩
    · intro hnum
      rw [if_pos hnum]
      exact destNum_toString hdata
    · intro banner sys s
      cases o
      case remove => exact absurd rfl hne
      all_goals
        obtain rfl := Option.some.inj hinfo
        rfl

/-- A library that takes requests apart at blanks and at the first empty line,
and queries at their separators. -/
def plainLibrary : HttpLibrary where
  parseRequest text := (strstr text headerEnd).map fun k =>
    ((text.drop 5).takeWhile (· ≠ ' '), text.drop (k+4))
  parseQuery uri := some <|
    (strtok '&' [] ((uri.dropWhile (· ≠ '?')).drop 1)).map fun seg =>
      (String.ofList (seg.takeWhile (· ≠ '=')), String.ofList ((seg.dropWhile (· ≠ '=')).drop 1))

/-- No header block ends at a character other than a carriage return. -/
theorem not_stands_of_ne {c : Char} (h : c ≠ '\r') (s : List Char) :
    ¬Stands id headerEnd (c :: s) := by
  simp [Stands, List.cons_prefix_cons, Ne.symm h]

/-- A line is passed over when the next one is not empty. -/
theorem strstr_line {u : List Char} (hu : '\r' ∉ u) {c : Char} (hc : c ≠ '\r') (s : List Char) :
    strstr (u ++ ['\r', '\n'] ++ c :: s) headerEnd =
      (strstr (c :: s) headerEnd).map (·+(u.length+2)) := by
  have hskip : ∀ m < (u ++ ['\r', '\n']).length,
      ¬Stands id headerEnd ((u ++ ['\r', '\n'] ++ c :: s).drop m) := by
    intro m hm
    rw [List.append_assoc]
    rcases Nat.lt_or_ge m u.length with hlt | hge
    · rw [List.drop_append_of_le_length hlt.le, List.drop_eq_getElem_cons hlt, List.cons_append]
      exact not_stands_of_ne (fun he => hu (he ▸ List.getElem_mem hlt)) _
    · simp only [List.length_append, List.length_cons, List.length_nil] at hm
      rw [List.drop_append, List.drop_eq_nil_of_le hge, List.nil_append]
      obtain he | he : m-u.length = 0 ∨ m-u.length = 1 := by omega
      · rw [he]
        simp [Stands, List.cons_prefix_cons, Ne.symm hc]
      · rw [he]
        exact not_stands_of_ne (by decide) _
  have h := find_skip hskip
  rw [List.length_append] at h
  exact h

/-- The first empty line after a block of nonempty lines ends the block. -/
theorem strstr_lines (lines : List (List Char)) (hne : lines ≠ [])
    (hl : ∀ l ∈ lines, l ≠ [] ∧ '\r' ∉ l) (body : List Char) :
    ∃ k, strstr (lines.flatMap (· ++ ['\r', '\n']) ++ '\r' :: '\n' :: body) headerEnd = some k ∧
      (lines.flatMap (· ++ ['\r', '\n']) ++ '\r' :: '\n' :: body).drop (k+4) = body := by
  induction lines with
  | nil => exact absurd rfl hne
  | cons u lines ih =>
    obtain ⟨-, hu⟩ := hl u (by simp)
    cases lines with
    | nil =>
      have hskip :
          ∀ m < u.length, ¬Stands id headerEnd
            ((u ++ '\r' :: '\n' :: '\r' :: '\n' :: body).drop m) := by
        intro m hm
        rw [List.drop_append_of_le_length hm.le, List.drop_eq_getElem_cons hm, List.cons_append]
        exact not_stands_of_ne (fun he => hu (he ▸ List.getElem_mem hm)) _
      have hfind : find id headerEnd ('\r' :: '\n' :: '\r' :: '\n' :: body) = some 0 := by
        simp [find, Stands]
      refine ⟨u.length, ?_, ?_⟩
      · have h := find_skip hskip
        rw [hfind] at h
        simpa [strstr] using h
      · simp
    | cons v lines =>
      obtain ⟨hv, hvr⟩ := hl v (by simp)
      obtain ⟨k, hk, hdrop⟩ :=
        ih (List.cons_ne_nil _ _) fun l hm => hl l (List.mem_cons_of_mem _ hm)
      obtain ⟨c, v', rfl⟩ := List.exists_cons_of_ne_nil hv
      have hc : c ≠ '\r' := fun he => hvr (by simp [he])
      simp only [List.flatMap_cons, List.cons_append, List.append_assoc] at hk hdrop ⊢
      refine ⟨k+(u.length+2), ?_, ?_⟩
      · have h := strstr_line hu hc
          (v' ++ ([ '\r', '\n'] ++ (lines.flatMap (· ++ ['\r', '\n']) ++ '\r' :: '\n' :: body)))
        simp only [List.append_assoc, List.cons_append, List.nil_append] at h hk ⊢
        rw [h, hk]
        rfl
      · rw [show k+(u.length+2)+4 = u.length+(k+4+2) by omega, List.drop_length_add_append]
        simpa using hdrop

/-- Safe segments are the tokens of their query, with or without an empty
segment after them. -/
theorem strtok_queryText {vars : List (String × String)} (h : ∀ kv ∈ vars, SafePair kv)
    {tail : List Char} (ht : tail = [] ∨ tail = ['&']) :
    strtok '&' [] (queryText vars ++ tail) = vars.map segment := by
  have hseg : ∀ kv, SafePair kv → '&' ∉ segment kv := by
    intro kv hkv hm
    have hno : ¬QuerySafe '&' := by decide
    rcases List.mem_append.mp hm with hm | hm
    · exact hno (hkv.2.1 _ hm)
    · rcases List.mem_cons.mp hm with hm | hm
      · exact absurd hm (by decide)
      · exact hno (hkv.2.2 _ hm)
  have hnil : ∀ kv, segment kv ≠ [] := fun kv => by simp [segment]
  induction vars with
  | nil =>
    rcases ht with rfl | rfl
    · rfl
    · rfl
  | cons x vars ih =>
    cases vars with
    | nil =>
      rw [queryText_singleton, strtok_run (hseg x (h x (by simp)))]
      rcases ht with rfl | rfl
      · simp [strtok, hnil]
      · simp [strtok, hnil]
    | cons y vars =>
      have htext : queryText (x :: y :: vars) = segment x ++ '&' :: queryText (y :: vars) := by
        simp [queryText, List.intercalate]
      rw [htext, List.append_assoc, strtok_run (hseg x (h x (by simp))), List.nil_append,
        List.cons_append,
        strtok, if_pos rfl, if_neg (hnil x), ih fun kv hkv => h kv (List.mem_cons_of_mem _ hkv)]
      rfl

/-- A safe segment is cut at its sign into its pair. -/
theorem cut_segment {kv : String × String} (h : SafePair kv) :
    (String.ofList ((segment kv).takeWhile (· ≠ '=')),
      String.ofList (((segment kv).dropWhile (· ≠ '=')).drop 1)) = kv := by
  have hk : ∀ c ∈ kv.1.toList, (decide (c ≠ '=')) = true := by
    intro c hc
    have hsafe := (h.2.1 c hc).2
    simp only [List.mem_cons, not_or] at hsafe
    simpa using hsafe.2.1
  rw [segment, List.takeWhile_append_of_pos hk, List.dropWhile_append_of_pos hk]
  simp

/-- The query of a target starts after its question mark. -/
theorem plainLibrary_query {vars : List (String × String)} (h : ∀ kv ∈ vars, SafePair kv)
    {tail : List Char} (ht : tail = [] ∨ tail = ['&']) :
    plainLibrary.parseQuery ("/?".toList ++ (queryText vars ++ tail)) = some vars := by
  have hdrop : (("/?".toList ++ (queryText vars ++ tail)).dropWhile (· ≠ '?')).drop 1 =
      queryText vars ++ tail := by
    simp [List.dropWhile]
  simp only [plainLibrary, hdrop, strtok_queryText h ht, List.map_map]
  congr 1
  refine List.map_congr_left (g := id) (fun kv hkv => cut_segment (h kv hkv)) |>.trans
    (List.map_id _)

/-- A posted request is a block of lines and a body. -/
theorem postText_lines (uri : List Char) (headers : List (String × String)) (body : List Char) :
    postText uri headers body =
      (("POST ".toList ++ uri ++ " HTTP/1.1".toList) ::
        headers.map fun kv => kv.1.toList ++ ": ".toList ++
          kv.2.toList).flatMap (· ++ ['\r', '\n']) ++
      '\r' :: '\n' :: body := by
  have hline : " HTTP/1.1\r\n".toList = " HTTP/1.1".toList ++ ['\r', '\n'] := rfl
  have hend : "\r\n".toList = ['\r', '\n'] := rfl
  have hheader : headers.flatMap headerLine =
      (headers.map fun kv => kv.1.toList ++ ": ".toList ++ kv.2.toList).flatMap
        (· ++ ['\r', '\n']) := by
    rw [List.flatMap_map]
    rfl
  unfold postText
  rw [hline, hend, hheader, List.flatMap_cons]
  simp only [List.append_assoc, List.cons_append, List.nil_append]

/-- A library that reads requests as they are written. -/
theorem plainLibrary_lawful : plainLibrary.Lawful where
  parseRequest uri headers body huri hheaders _ := by
    have hcr : ¬Visible '\r' := by decide
    have hlines : ∀ l ∈ ("POST ".toList ++ uri ++ " HTTP/1.1".toList) ::
        headers.map (fun kv => kv.1.toList ++ ": ".toList ++ kv.2.toList), l ≠ [] ∧ '\r' ∉ l := by
      intro l hl
      rcases List.mem_cons.mp hl with rfl | hl
      · refine ⟨by simp, ?_⟩
        simp only [List.mem_append, not_or]
        exact ⟨⟨by decide, fun hm => hcr (huri _ hm)⟩, by decide⟩
      · obtain ⟨kv, hkv, rfl⟩ := List.mem_map.mp hl
        obtain ⟨-, hk, hv⟩ := hheaders kv hkv
        refine ⟨by simp, ?_⟩
        simp only [List.mem_append, not_or]
        exact ⟨⟨fun hm => hcr (hk _ hm).1, by decide⟩, hv.1⟩
    obtain ⟨k, hk, hbody⟩ := strstr_lines _ (List.cons_ne_nil _ _) hlines body
    rw [← postText_lines] at hk hbody
    have htarget : ((postText uri headers body).drop 5).takeWhile (· ≠ ' ') = uri := by
      have hblank : ∀ c ∈ uri, decide (c ≠ ' ') = true := by
        intro c hc
        have hne : c ≠ ' ' := by
          rintro rfl
          exact absurd (huri _ hc) (by decide)
        simpa using hne
      have hpost : "POST ".toList.length = 5 := rfl
      have hhttp : " HTTP/1.1\r\n".toList = ' ' :: "HTTP/1.1\r\n".toList := rfl
      unfold postText
      rw [← hpost, hhttp]
      simp only [List.append_assoc, List.drop_left, List.cons_append]
      rw [List.takeWhile_append_of_pos hblank]
      simp
    simp only [plainLibrary, hk, Option.map_some, htarget, hbody]
  parseQuery vars _ h := by
    have := @plainLibrary_query vars h [] (.inl rfl)
    rwa [List.append_nil] at this
  parseQuery_empty vars _ h := by
    have := @plainLibrary_query vars h ['&'] (.inr rfl)
    rwa [← List.append_assoc] at this

/-- A delay of five seconds on a queue of a server is performed there. -/
theorem set_opt_performed_delay : ∃ i info ret req,
    mqSetOpt (fun _ => ⟨true, true, [], 0⟩) ["mq:1218"] "mq:1218" "q" MqOpts.delay.value 5 none =
        some ([(i, info)], ret) ∧
      ["mq:1218"][i]? = some "mq:1218" ∧
      received plainLibrary (commSendHttpReq "mq:1218" info) = some req ∧
      Performs .delay "q" 5 req :=
  (set_opt_performed_iff plainLibrary_lawful _ (by simp) (by unfold OneLine; decide) (by decide)
    (by simp) (by decide) .delay).mpr (by decide)

/-- A removal sent to a server runs the handler of the delay there, with the
number of a request that has none. -/
theorem remove_delays : ∃ info ret req,
    mqSetOpt (fun _ => ⟨true, true, [], 0⟩) ["mq:1218"] "mq:1218" "q" MqOpts.remove.value 0 none =
        some ([(0, info)], ret) ∧
      received plainLibrary (commSendHttpReq "mq:1218" info) = some req ∧
      (∀ banner sys s, mqEvhttpCbDoOptEntry banner sys req s = .ok (httpOptDelay sys req s)) ∧
      destNum req.num = -1 ∧ ¬Performs .remove "q" 0 req :=
  ⟨_, _, _, rfl,
    received_setOpt plainLibrary_lawful (by decide) (by unfold OneLine; decide) (by simp)
    (by decide) .remove rfl, fun _ _ _ => rfl, rfl, not_performs_remove (by decide) 0⟩

end Ucmq.ClientOperation
