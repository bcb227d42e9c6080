import Ucmq.CacheSlots
import Ucmq.FifoRefinement
import Ucmq.WireReply

/-!
# Clients and servers on one wire

A call of the client, the requests as they reach the servers, the answers of the
option entry and their text on its way back. A server answers a request when a
connection was had and the whole request was sent. Text that an exchange does not
read stays on its way and is read before the next reply on the same connection.
Requests of other clients reach a server before that of an exchange.
-/

namespace Ucmq.ClientServer

open LabelledRun DecimalText StoreConfig StoreState QueueManage Evhttp RequestEffect FifoRefinement
open MqClient ClientOperation ClientMessage HeaderFields WireReply ConnectionCache CacheSlots

/-- Text of a GET request. -/
def getText (uri : List Char) (headers : List (String × String)) : List Char :=
  "GET ".toList ++ uri ++ " HTTP/1.1\r\n".toList ++ headers.flatMap headerLine ++ "\r\n".toList

/-- The reply that reports an answer of a FIFO list. -/
inductive Reports : FifoOut → Reply → Prop
  | stored (pos : ℤ) (h : pos.natAbs ≤ 2^31) :
      Reports .stored ⟨200, "OK", "HTTPSQS_PUT_OK\r\n", [], some pos⟩
  | full : Reports .full (fullReply none)
  | got (body : List UInt8) (pos : ℤ) (h : pos.natAbs ≤ 2^31) :
      Reports (.got body) ⟨200, "OK", "", body, some pos⟩
  | empty : Reports .empty (endReply none)

/-- What client and server rely on: both kinds of request are taken apart, and the
replies are written so that a client reads them as they are. -/
structure Lawful (lib : WireLibrary) : Prop extends HttpLibrary.Lawful lib.toHttpLibrary where
  parseGet : ∀ uri headers, (∀ c ∈ uri, Visible c) →
    (∀ kv ∈ headers, kv.1 ≠ "" ∧ (∀ c ∈ kv.1.toList, Visible c ∧ c ≠ ':') ∧ OneLine kv.2) →
    lib.parseRequest (getText uri headers) = some (uri, [])
  readable : ∀ out r, Reports out r → (contentOf r).length < 2^31 → Readable lib r

/-- How a text arrives: in pieces of any size, without a timeout or an error. -/
structure Split where
  pieces : List Char → List Arrival
  calm : ∀ text, Calm (pieces text)
  whole : ∀ text, arrived (pieces text) = text

/-- What the systems and other clients do in one exchange with a server. -/
structure Link where
  /-- Second at which it starts. -/
  secNow : ℤ
  /-- Something is reported on the cached connection. -/
  events : Bool
  /-- Descriptor of a new socket. -/
  socket : Option ℕ
  /-- The new socket does not block. -/
  nonblock : Bool
  /-- Answers of connect. -/
  connects : List Connect
  /-- The whole request was sent. -/
  sent : Bool
  /-- Value of errno when the connection or the header failed. -/
  errno : ℤ
  /-- How the text on its way arrives. -/
  split : Split
  /-- Requests of other clients that reach the server before. -/
  others : List (Sys × Request)
  /-- Clock and storage of the server. -/
  sys : Sys

/-- The answers of the system calls, with these arrivals. -/
def Link.exchange (l : Link) (arrivals : List Arrival) : Exchange :=
  ⟨l.secNow, l.events, l.socket, l.nonblock, l.connects, l.sent, arrivals, l.errno⟩

/-- A client, the servers by their address, the text on its way to the client on
each connection, and the room on the stack of the client. -/
structure World where
  client : Client
  servers : String → Server
  wire : ℕ → List Char
  stack : ℕ

/-- Ends of a world: a client that stops or whose stack does not hold the content of
a reply, or a server that faults. -/
inductive WorldStop where
  | client (e : Stop)
  | stack
  | server (e : Fault)

/-- A step of the client in a world. -/
def ofClient {α : Type} (x : Except Stop α) : Except WorldStop α := x.mapError .client

/-- A step of a server in a world. -/
def ofServer {α : Type} (x : Except Fault α) : Except WorldStop α := x.mapError .server

/-- The server after the requests of other clients. -/
def serveOthers (banner : String) (others : List (Sys × Request)) (s : Server) :
    Except Fault Server :=
  (feed (fun i => mqEvhttpCbDoOptEntry banner i.1 i.2) others s).map Prod.snd

/-- Text of the answer to a request. -/
def answer (lib : WireLibrary) (banner : String) (sys : Sys) (text : List Char) (s : Server) :
    Except Fault (List Char × Server) :=
  match received lib.toHttpLibrary text with
  | none => .ok ([], s)
  | some req =>
    (mqEvhttpCbDoOptEntry banner sys req s).map fun x => (x.1.flatMap (wireText lib), x.2)

/-- Text that an exchange finds on its connection: what is left there when the cached
connection is taken up. -/
def leftOn (i : ℕ) (l : Link) (w : World) : List Char :=
  if w.client.mq.keepAlive = 1 then ((takenUp i (l.exchange []) w.client).map w.wire).getD []
    else []

/-- The connection on which the whole request was sent. -/
def sentOn (i : ℕ) (l : Link) (c : Client) : Option ℕ :=
  if l.sent then connection i (l.exchange []) c else none

/-- An exchange whose request does not reach the server. -/
def unheard (i : ℕ) (l : Link) (ret : MqReturn) (s : Server) (w : World) :
    Except WorldStop (Bool × MqReturn × World) := do
  let (ok, ret, c) ← ofClient
    (ConnectionCache.inMqOperate i (destOf i w.client) (l.exchange []) ret w.client)
  return (ok, ret,
    { w with client := c, servers := Function.update w.servers (destOf i w.client) s })

/-- An exchange whose request is answered on a connection. -/
def answered (i : ℕ) (l : Link) (ret : MqReturn) (fd : ℕ) (arrivals : List Arrival)
    (s : Server) (w : World) : Except WorldStop (Bool × MqReturn × World) :=
  if stackHolds w.stack ⟨true, true, arrivals, l.errno⟩ ret = false then .error .stack
  else do
    let (ok, ret', c) ←
      ofClient
        (ConnectionCache.inMqOperate i (destOf i w.client) (l.exchange arrivals) ret w.client)
    return (ok, ret', { w with
      client := c
      servers := Function.update w.servers (destOf i w.client) s
      wire := Function.update w.wire fd (arrived (restAfter arrivals ret)) })

/-- The exchange with one server. -/
def worldOperate (lib : WireLibrary) (banner : String) (i : ℕ) (l : Link) (info : MqOptInfo)
    (ret : MqReturn) (w : World) : Except WorldStop (Bool × MqReturn × World) := do
  let s ← ofServer (serveOthers banner l.others (w.servers (destOf i w.client)))
  match sentOn i l w.client with
  | none => unheard i l ret s w
  | some fd =>
    let (text, s) ← ofServer (answer lib banner l.sys (commSendHttpReq (destOf i w.client) info) s)
    answered i l ret fd (l.split.pieces (leftOn i l w ++ text)) s w

/-- The fail-over loop. -/
def worldLoop (lib : WireLibrary) (banner : String) (links : ℕ → Link) (info : MqOptInfo) :
    List ℕ → ℕ → MqReturn → World → Except WorldStop (List (ℕ × MqOptInfo) × ℕ × MqReturn × World)
  | [], curr, ret, w => .ok ([], curr, ret, w)
  | curr :: order, _, ret, w => do
    let (ok, ret, w) ← worldOperate lib banner curr (links curr) info ret w
    if ok = true then return ([(curr, info)], curr, ret, w)
    else
      let (sent, last, ret, w) ← worldLoop lib banner links info order curr ret w
      return ((curr, info) :: sent, last, ret, w)

/-- A put or a get of the client, with the answers to the exchanges with every server,
and the numbers of rand. -/
structure WorldEvent where
  op : FifoOp
  links : ℕ → Link
  rand : ℕ → ℕ

/-- The request of an operation. -/
def infoOf (name : String) (charset : Option String) : FifoOp → MqOptInfo
  | .put body => ⟨"put", name, some "", body, charset⟩
  | .get => ⟨"get", name, none, [], charset⟩

/-- The call of an operation. -/
def callOf (name : String) : FifoOp → Call
  | .put body => .putMsg name body
  | .get => .getMsg name

/-- The order of the servers in a call. -/
def callOrder (rand : ℕ → ℕ) (c : Client) : List ℕ :=
  lookupOrder (if c.mq.lookUp = 1 then some rand else none) c.mq.connList.length

/-- One call of the client in a world. -/
def worldCall (lib : WireLibrary) (banner name : String) (charset : Option String)
    (ev : WorldEvent) (w : World) :
    Except WorldStop ((List (ℕ × MqOptInfo) × MqReturn) × World) := do
  let (sent, curr, ret, w) ←
    worldLoop lib banner ev.links (infoOf name charset ev.op)
      (callOrder ev.rand w.client) 0 inInitReturn w
  return ((sent, { ret with index := curr }), w)

section Requests

variable {lib : WireLibrary} {dest name opt : String} {charset : Option String}

/-- A request without a body is a GET request with two headers. -/
theorem commSendHttpReq_get (dest : String) {info : MqOptInfo} (h : info.data = []) :
    commSendHttpReq dest info =
      getText ("/?".toList ++ httpQuery info) [("Host", dest), ("Connection", "keep-alive")] := by
  have hcut : ∀ a b c : List Char, a ++ b ++ c = a ++ (b ++ c) := List.append_assoc
  have hget : "GET /?".toList = "GET ".toList ++ "/?".toList := rfl
  have hhost : " HTTP/1.1\r\nHost: ".toList = " HTTP/1.1\r\n".toList ++ "Host".toList ++
      ": ".toList := rfl
  have hconn : "\r\nConnection: keep-alive\r\n\r\n".toList = "\r\n".toList ++ "Connection".toList ++
    ": ".toList ++ "keep-alive".toList ++ "\r\n".toList ++ "\r\n".toList := rfl
  unfold commSendHttpReq
  rw [if_pos h, hget, hhost, hconn]
  unfold getText
  simp only [headerLine, List.flatMap_cons, List.flatMap_nil, List.append_nil, hcut]

/-- A get is heard with its name. -/
theorem received_get (hlib : Lawful lib) (hd : OneLine dest)
    (hs : ∀ kv ∈ setVars name opt charset, SafePair kv) :
    received lib.toHttpLibrary (commSendHttpReq dest ⟨opt, name, none, [], charset⟩) =
      some (heard opt name none []) := by
  have hquery :
      httpQuery ⟨opt, name, none, [], charset⟩ = queryText (setVars name opt charset) := by
    rw [queryText_setVars]
    unfold httpQuery
    exact List.append_nil _
  have hvisible : ∀ c ∈ "/?".toList ++ queryText (setVars name opt charset), Visible c := by
    intro c hc
    have hroot : ∀ c ∈ "/?".toList, Visible c := forall_char (by decide)
    rcases List.mem_append.mp hc with hc | hc
    · exact hroot c hc
    · exact visible_of_mem_queryText hs hc
  have hkeep : OneLine "keep-alive" := by unfold OneLine; decide
  have hheaders : ∀ kv ∈ [("Host", dest), ("Connection", "keep-alive")],
      kv.1 ≠ "" ∧ (∀ c ∈ kv.1.toList, Visible c ∧ c ≠ ':') ∧ OneLine kv.2 := by
    intro kv hkv
    have hhost : "Host" ≠ "" ∧ ∀ c ∈ "Host".toList, Visible c ∧ c ≠ ':' :=
      ⟨by decide, forall_char (by decide)⟩
    have hconn : "Connection" ≠ "" ∧ ∀ c ∈ "Connection".toList, Visible c ∧ c ≠ ':' :=
      ⟨by decide, forall_char (by decide)⟩
    simp only [List.mem_cons, List.not_mem_nil, or_false] at hkv
    rcases hkv with rfl | rfl
    · exact ⟨hhost.1, hhost.2, hd⟩
    · exact ⟨hconn.1, hconn.2, hkeep⟩
  have hvars : setVars name opt charset ≠ [] := List.cons_ne_nil _ _
  have hq := hlib.parseQuery _ hvars hs
  obtain ⟨hopt, hname, hrest⟩ := evhttpFindHeader_setVars name opt charset []
  rw [List.append_nil] at hopt hname hrest
  rw [received, commSendHttpReq_get dest rfl, hquery, hlib.parseGet _ _ hvisible hheaders]
  simp only [Option.map_some, hq]
  rw [hopt, hname, hrest _ (by decide), hrest _ (by decide), hrest _ (by decide)]
  rfl

/-- The request that an operation arrives as. -/
def heardOp (name : String) : FifoOp → Request
  | .put body => heard "put" name none body
  | .get => heard "get" name none []

/-- A request is heard as the operation it is for. -/
theorem fifoOp_heardOp (name : String) (op : FifoOp) : fifoOp (heardOp name op) = op := by
  cases op <;> rfl

/-- A body that is put is not empty and fits a new data file. -/
def Fits (conf : UcmqConf) : FifoOp → Prop
  | .put body => 0 < body.length ∧ body.length ≤ maxDbFileSize conf-128-12
  | .get => True

/-- It is received as it was sent. -/
theorem received_op (hlib : Lawful lib) (hd : OneLine dest) (hn : reqQnameCheck (some name) = true)
    (hc : ∀ cs ∈ charset, ∀ c ∈ cs.toList, QuerySafe c) {conf : UcmqConf} {op : FifoOp}
    (hop : Fits conf op) :
    received lib.toHttpLibrary (commSendHttpReq dest (infoOf name charset op)) =
      some (heardOp name op) := by
  have hname := querySafe_of_reqQnameCheck hn
  cases op with
  | put body =>
    have hne : body ≠ [] := List.ne_nil_of_length_pos hop.1
    exact received_empty hlib.toLawful hd hne (safe_setVars hname (forall_char (by decide)) hc)
  | get => exact received_get hlib hd (safe_setVars hname (forall_char (by decide)) hc)

end Requests

section Answers

variable {conf : UcmqConf} {n banner : String} {s s' : Server} {sys : Sys}
  {req : Request} {r : Reply}
variable {l : List (List UInt8)}

/-- A position in a reply is a 32-bit number. -/
theorem natAbs_toI32_le (x : ℤ) : (toI32 x).natAbs ≤ 2^31 := by
  unfold toI32
  rw [Int.bmod_def]
  split <;> omega

/-- A put without a version is answered with a position only when it was stored. -/
theorem reports_stored (hver : req.ver = none) (hres : httpOptPut sys req s = .ok ([r], s'))
    (hpos : r.pos.isSome = true) : Reports .stored r := by
  have hrefused : ∀ {hc hr v1 v2} {s₁ : Server}, (.ok ([doReply none hc hr v1 v2 req.ver], s₁) :
      Except Fault (List Reply × Server)) = .ok ([r], s') → Reports .stored r := by
    intro hc hr v1 v2 s₁ he
    obtain ⟨he, -⟩ := Prod.mk.inj (Except.ok.inj he)
    rw [← (List.cons.inj he).1, doReply_pos] at hpos
    cases hpos
  simp only [httpOptPut] at hres
  split at hres
  · exact hrefused hres
  split at hres
  · exact hrefused hres
  rename_i size msg hm
  split at hres
  · exact hrefused hres
  split at hres
  · exact hrefused hres
  · rename_i e s₁ ht
    cases hp : mqQmPushItem s₁.conf sys (toU32 size) msg (s₁.store e) with
    | error f =>
      rw [replyPut, hp] at hres
      cases hres
    | ok x =>
      obtain ⟨ret, st⟩ := x
      rw [replyPut_ok _ _ hp] at hres
      cases ret with
      | putOk =>
        obtain ⟨he, -⟩ := Prod.mk.inj (Except.ok.inj hres)
        rw [← (List.cons.inj he).1, hver]
        exact .stored _ (natAbs_toI32_le _)
      | full => exact hrefused hres
      | wlock => exact hrefused hres
      | putError => exact hrefused hres

/-- A get without a version is answered with a position only when it took a body. -/
theorem reports_got (hver : req.ver = none) (hres : httpOptGet sys req s = .ok ([r], s'))
    (hpos : r.pos.isSome = true) : Reports (.got r.data) r := by
  have hrefused : ∀ {hc hr v1 v2} {s₁ : Server}, (.ok ([doReply none hc hr v1 v2 req.ver], s₁) :
      Except Fault (List Reply × Server)) = .ok ([r], s') → Reports (.got r.data) r := by
    intro hc hr v1 v2 s₁ he
    obtain ⟨he, -⟩ := Prod.mk.inj (Except.ok.inj he)
    rw [← (List.cons.inj he).1, doReply_pos] at hpos
    cases hpos
  simp only [httpOptGet] at hres
  split at hres
  · exact hrefused hres
  split at hres
  · exact hrefused hres
  · rename_i e hf
    cases hp : mqQmPopItem s.conf sys (s.store e) with
    | error f =>
      rw [replyGet, hp] at hres
      cases hres
    | ok x =>
      obtain ⟨ret, st⟩ := x
      rw [replyGet_ok _ _ hp] at hres
      cases ret with
      | getEnd => exact hrefused hres
      | getOk item =>
        obtain ⟨he, -⟩ := Prod.mk.inj (Except.ok.inj hres)
        rw [← (List.cons.inj he).1, hver]
        exact .got _ _ (natAbs_toI32_le _)

/-- What a queue serves fits a data file. -/
theorem ServesName.length_le (h : ServesName conf n s l) {b : List UInt8} (hb : b ∈ l) :
    b.length ≤ maxDbFileSize conf-128-12 := by
  obtain ⟨-, st, -, hserves⟩ := h
  obtain ⟨finished, pend, -, rfl, -⟩ := hserves.sound
  obtain ⟨m, -, rfl⟩ := List.mem_map.mp hb
  exact m.body_le

/-- Replies that report an answer of a list are one reply. -/
theorem singleton_of_fifoOut {rs : List Reply} {out : FifoOut} (h : fifoOut req rs = out)
    (hne : out ≠ .other) :
    ∃ r, rs = [r] := by
  cases rs with
  | nil => exact absurd h.symm hne
  | cons r rs =>
    cases rs with
    | nil => exact ⟨r, rfl⟩
    | cons r' rs => exact absurd h.symm hne

/-- An answer of a list to an operation is never another one. -/
theorem fifoStep_ne_other (cap : ℕ) (op : FifoOp) (l : List (List UInt8)) :
    (fifoStep cap op l).1 ≠ .other := by
  cases op with
  | put body =>
    rw [fifoStep]
    split <;> exact FifoOut.noConfusion
  | get => cases l <;> exact FifoOut.noConfusion

/-- The content of a reply is short when the body in it is. -/
theorem content_lt {out : FifoOut} {bound : ℕ} (h : Reports out r) (hfixed : 18 < bound)
    (hgot : ∀ b, out = .got b → b.length < bound) : (contentOf r).length < bound := by
  cases h with
  | stored pos hpos =>
    have htext : "HTTPSQS_PUT_OK\r\n".toList.length = 16 := by decide
    rw [contentOf, List.length_append, List.length_map, htext, List.length_nil]
    omega
  | full =>
    have hlen : (contentOf (fullReply none)).length = 18 := rfl
    omega
  | got body pos hpos =>
    have hlen : contentOf ⟨200, "OK", "", body, some pos⟩ = body := rfl
    rw [hlen]
    exact hgot body rfl
  | empty =>
    have hlen : (contentOf (endReply none)).length = 17 := rfl
    omega

/-- A server answers a put on a name as the list that the name serves. -/
theorem serves_put (banner : String) {body : List UInt8} (hn : reqQnameCheck (some n) = true)
    (h : ServesName conf n s l) (hok : sys.Ok) (hfree : storageLow conf sys = false)
    (hop : Fits conf (.put body)) :
    ∃ r s', mqEvhttpCbDoOptEntry banner sys (heardOp n (.put body)) s = .ok ([r], s') ∧
      Reports (fifoStep conf.defMaxQueue (.put body) l).1 r ∧
      ServesName conf n s' (fifoStep conf.defMaxQueue (.put body) l).2 := by
  have hreq : QueueRequest conf n (sys, heardOp n (.put body)) :=
    ⟨hok, hfree, rfl, rfl, .inr ⟨rfl, hop.1, hop.2, .inl rfl⟩⟩
  obtain ⟨rs, s', heq, hout, hserves⟩ := @servesName_put _ _ _ _ _ banner hn h hreq rfl
  have hne := fifoStep_ne_other conf.defMaxQueue (.put body) l
  have hopt : (heardOp n (.put body)).opt = some "put" := rfl
  rw [fifoOp_heardOp] at hout hserves
  obtain ⟨r, rfl⟩ := singleton_of_fifoOut hout hne
  refine ⟨r, s', heq, ?_, hserves⟩
  rw [← hout] at hne ⊢
  by_cases hpos : r.pos.isSome = true
  · have hstored : fifoOut (heardOp n (.put body)) [r] = .stored := by
      rw [fifoOut, if_pos hopt, if_pos hpos]
    have hentry : httpOptPut sys (heardOp n (.put body)) s = .ok ([r], s') := by
      rw [← heq]
      simp only [mqEvhttpCbDoOptEntry, heardOp, heard, Bool.true_eq_false, if_false]
    rw [hstored]
    exact reports_stored rfl hentry hpos
  · by_cases hfull : r = fullReply none
    · subst hfull
      have hfull : fifoOut (heardOp n (.put body)) [fullReply none] = .full := by
        rw [fifoOut, if_pos hopt, if_neg hpos]
        exact if_pos rfl
      rw [hfull]
      exact .full
    · exact absurd (by rw [fifoOut, if_pos hopt, if_neg hpos]; exact if_neg hfull) hne

/-- A server answers a get on a name as the list that the name serves. -/
theorem serves_get (banner : String) (hn : reqQnameCheck (some n) = true)
    (h : ServesName conf n s l) (hok : sys.Ok) (hfree : storageLow conf sys = false) :
    ∃ r s', mqEvhttpCbDoOptEntry banner sys (heardOp n .get) s = .ok ([r], s') ∧
      Reports (fifoStep conf.defMaxQueue .get l).1 r ∧
      ServesName conf n s' (fifoStep conf.defMaxQueue .get l).2 := by
  have hreq : QueueRequest conf n (sys, heardOp n .get) := ⟨hok, hfree, rfl, rfl, .inl rfl⟩
  obtain ⟨rs, s', heq, hout, hserves⟩ := @servesName_get _ _ _ _ _ banner hn h hreq rfl
  have hne := fifoStep_ne_other conf.defMaxQueue .get l
  have hopt : ¬(heardOp n .get).opt = some "put" := by
    show ¬some "get" = some "put"
    decide
  rw [fifoOp_heardOp] at hout hserves
  obtain ⟨r, rfl⟩ := singleton_of_fifoOut hout hne
  refine ⟨r, s', heq, ?_, hserves⟩
  rw [← hout] at hne ⊢
  by_cases hpos : r.pos.isSome = true
  · have hgot : fifoOut (heardOp n .get) [r] = .got r.data := by
      rw [fifoOut, if_neg hopt, if_pos hpos]
    rw [hgot]
    exact reports_got rfl heq hpos
  · by_cases hend : r = endReply none
    · subst hend
      have hempty : fifoOut (heardOp n .get) [endReply none] = .empty := by
        rw [fifoOut, if_neg hopt, if_neg hpos]
        exact if_pos rfl
      rw [hempty]
      exact .empty
    · exact absurd (by rw [fifoOut, if_neg hopt, if_neg hpos]; exact if_neg hend) hne

/-- A server answers an operation on a name as the list that the name serves. -/
theorem serves_answer (banner : String) {op : FifoOp} (hn : reqQnameCheck (some n) = true)
    (h : ServesName conf n s l) (hok : sys.Ok) (hfree : storageLow conf sys = false)
    (hop : Fits conf op) :
    ∃ r s', mqEvhttpCbDoOptEntry banner sys (heardOp n op) s = .ok ([r], s') ∧
      Reports (fifoStep conf.defMaxQueue op l).1 r ∧ (contentOf r).length < maxDbFileSize conf ∧
      ServesName conf n s' (fifoStep conf.defMaxQueue op l).2 := by
  have hmin := le_maxDbFileSize conf
  have hgot : ∀ b, (fifoStep conf.defMaxQueue op l).1 = .got b → b.length < maxDbFileSize conf := by
    intro b hb
    cases op with
    | put body =>
      rw [fifoStep] at hb
      split at hb <;> cases hb
    | get =>
      cases l with
      | nil => cases hb
      | cons b' l =>
        obtain rfl : b' = b := FifoOut.got.inj hb
        have := ServesName.length_le h List.mem_cons_self
        omega
  cases op with
  | put body =>
    obtain ⟨r, s', heq, hr, hserves⟩ := serves_put banner hn h hok hfree hop
    exact ⟨r, s', heq, hr, content_lt hr (by omega) hgot, hserves⟩
  | get =>
    obtain ⟨r, s', heq, hr, hserves⟩ := serves_get banner hn h hok hfree
    exact ⟨r, s', heq, hr, content_lt hr (by omega) hgot, hserves⟩

end Answers

section ClientPart

variable {lib : WireLibrary} {banner name : String} {charset : Option String} {w w' : World}
  {ret ret' : MqReturn}
variable {info : MqOptInfo} {ok : Bool}

/-- What an exchange without an answer does to the client. -/
theorem unheard_client {i : ℕ} {l : Link} {s : Server}
    (h : unheard i l ret s w = .ok (ok, ret', w')) :
    ConnectionCache.inMqOperate i (destOf i w.client) (l.exchange []) ret w.client =
      .ok (ok, ret', w'.client) := by
  unfold unheard at h
  cases hx : ConnectionCache.inMqOperate i (destOf i w.client) (l.exchange []) ret w.client with
  | error e =>
    rw [hx] at h
    cases h
  | ok y =>
    rw [hx] at h
    cases h
    rfl

/-- What an answered exchange does to the client. -/
theorem answered_client {i : ℕ} {l : Link} {fd : ℕ} {arrivals : List Arrival} {s : Server}
    (h : answered i l ret fd arrivals s w = .ok (ok, ret', w')) :
    ConnectionCache.inMqOperate i (destOf i w.client) (l.exchange arrivals) ret w.client =
      .ok (ok, ret', w'.client) := by
  unfold answered at h
  split at h
  · cases h
  cases hx :
    ConnectionCache.inMqOperate i (destOf i w.client) (l.exchange arrivals) ret w.client with
  | error e =>
    rw [hx] at h
    cases h
  | ok y =>
    rw [hx] at h
    cases h
    rfl

/-- In a world the client takes a step of its own, with the arrivals of that world. -/
theorem worldOperate_client {i : ℕ} {l : Link}
    (h : worldOperate lib banner i l info ret w = .ok (ok, ret', w')) :
    ∃ arrivals, ConnectionCache.inMqOperate i (destOf i w.client)
      (l.exchange arrivals) ret w.client =
      .ok (ok, ret', w'.client) := by
  unfold worldOperate at h
  cases hothers : serveOthers banner l.others (w.servers (destOf i w.client)) with
  | error e =>
    rw [hothers] at h
    cases h
  | ok s =>
    rw [hothers] at h
    cases hsent : sentOn i l w.client with
    | none =>
      rw [hsent] at h
      exact ⟨[], unheard_client h⟩
    | some fd =>
      rw [hsent] at h
      cases hanswer : answer lib banner l.sys (commSendHttpReq (destOf i w.client) info) s with
      | error e =>
        simp only [ofServer, Except.mapError, bind, Except.bind, hanswer] at h
        cases h
      | ok x =>
        simp only [ofServer, Except.mapError, bind, Except.bind, hanswer] at h
        exact ⟨_, answered_client h⟩

/-- The loop is that of the client, for answers to every exchange in the order. -/
theorem worldLoop_client {links : ℕ → Link} {order : List ℕ} (hnd : order.Nodup) {curr last : ℕ}
    {sent : List (ℕ × MqOptInfo)}
    (h : worldLoop lib banner links info order curr ret w = .ok (sent, last, ret', w')) :
    ∃ net, ConnectionCache.operateLoop net info order curr ret w.client =
      .ok (sent, last, ret', w'.client) := by
  have hcongr :
    ∀ (net net' : ℕ → Exchange) (order : List ℕ) (curr : ℕ) (ret : MqReturn) (c : Client),
      (∀ i ∈ order, net i = net' i) → ConnectionCache.operateLoop net info order curr ret c =
        ConnectionCache.operateLoop net' info order curr ret c := by
    intro net net' order
    induction order with
    | nil => exact fun _ _ _ _ => rfl
    | cons i order ih =>
      intro curr ret c hnet
      have hrest := fun curr ret c => ih curr ret c fun j hj => hnet j (List.mem_cons_of_mem i hj)
      simp only [ConnectionCache.operateLoop, hnet i List.mem_cons_self, hrest]
  induction order generalizing curr ret w sent last with
  | nil =>
    cases h
    exact ⟨fun i => (links i).exchange [], rfl⟩
  | cons i order ih =>
    rw [worldLoop] at h
    cases hone : worldOperate lib banner i (links i) info ret w with
    | error e =>
      rw [hone] at h
      cases h
    | ok y =>
      obtain ⟨ok, ret₁, w₁⟩ := y
      obtain ⟨arrivals, hclient⟩ := worldOperate_client hone
      rw [hone] at h
      simp only [bind, Except.bind] at h
      cases ok with
      | true =>
        rw [if_pos rfl] at h
        cases h
        refine ⟨fun _ => (links i).exchange arrivals, ?_⟩
        rw [ConnectionCache.operateLoop, hclient]
        rfl
      | false =>
        rw [if_neg (by decide)] at h
        cases hrest : worldLoop lib banner links info order i ret₁ w₁ with
        | error e =>
          rw [hrest] at h
          cases h
        | ok z =>
          obtain ⟨sent', last', ret₂, w₂⟩ := z
          rw [hrest] at h
          cases h
          obtain ⟨net, hnet⟩ := ih (List.nodup_cons.mp hnd).2 hrest
          have hi : i ∉ order := (List.nodup_cons.mp hnd).1
          refine ⟨Function.update net i ((links i).exchange arrivals), ?_⟩
          rw [hcongr net (Function.update net i ((links i).exchange arrivals))] at hnet
          · simp only [ConnectionCache.operateLoop, Function.update_self, hclient, bind,
              Except.bind, hnet]
            rfl
          · intro j hj
            rw [Function.update_of_ne (ne_of_mem_of_not_mem hj hi)]

/-- A call in a world is a call of the client alone, for some answers to its exchanges. -/
theorem worldCall_client {ev : WorldEvent} {x : List (ℕ × MqOptInfo) × MqReturn}
    (h : worldCall lib banner name charset ev w = .ok (x, w')) :
    ∃ net, clientCall ⟨callOf name ev.op, charset, net, ev.rand⟩ w.client =
      .ok (some x, w'.client) := by
  unfold worldCall at h
  cases hloop :
    worldLoop lib banner ev.links (infoOf name charset ev.op) (callOrder ev.rand w.client) 0
    inInitReturn w with
  | error e =>
    rw [hloop] at h
    cases h
  | ok y =>
    obtain ⟨sent, last, ret, w₁⟩ := y
    obtain ⟨net, hnet⟩ := worldLoop_client (nodup_lookupOrder _ _) hloop
    rw [hloop] at h
    cases h
    refine ⟨net, ?_⟩
    have hcall :
      returning (ConnectionCache.inDoOperate net ev.rand (infoOf name charset ev.op) inInitReturn
        w.client) = .ok (some (sent, { ret with index := last }), w'.client) := by
      simp only [returning, ConnectionCache.inDoOperate, hnet, bind, Except.bind]
      rfl
    rw [← hcall]
    unfold clientCall
    cases ev.op <;> rfl

end ClientPart

end Ucmq.ClientServer
