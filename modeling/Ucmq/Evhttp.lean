import Ucmq.QueueManage

/-!
# Request handlers

The handlers of mq_evhttp.c behind the option entry. A handler returns every
reply it sends, in order, with the server it leaves. The reply macro frees the
response and does not return, so a handler that goes on after it replies again;
query values are taken to be still readable then. Query values are C strings,
already cut at their first zero byte.
-/

namespace Ucmq.Evhttp

open DecimalText StoreConfig StoreMsg StoreState StoreManage QueueManage

/-- The parts of a request that the handlers read. -/
structure Request where
  /-- The query of the request line could be parsed. -/
  parsed : Bool
  /-- Option name. -/
  opt : Option String
  /-- Queue name. -/
  name : Option String
  /-- Numeric argument. -/
  num : Option String
  /-- Protocol version. -/
  ver : Option String
  /-- Message given in the query. -/
  data : Option (List UInt8)
  /-- Message given as the request body. -/
  body : List UInt8
  deriving DecidableEq

/-- One call of evhttp_send_reply. The content is a text followed by raw bytes. -/
structure Reply where
  /-- Status code. -/
  code : ℕ
  /-- Reason phrase. -/
  reason : String
  /-- Printed part of the content. -/
  text : String
  /-- Bytes added after the printed part. -/
  data : List UInt8
  /-- Value of the Pos header, if it was added. -/
  pos : Option ℤ
  deriving DecidableEq

/-- The client asked for the second protocol version. -/
def isVerTwo (ver : Option String) : Bool := ver = some "2"

/-- MQ_DO_REPLY, with the Pos header added before it. -/
def doReply (pos : Option ℤ) (hc : ℕ) (hr v1 v2 : String) (ver : Option String) : Reply :=
  if isVerTwo ver then ⟨200, "OK", v2 ++ "\r\n", [], pos⟩ else ⟨hc, hr, v1 ++ "\r\n", [], pos⟩

/-- MQ_DO_AND_REPLY on a result already computed. -/
def doAndReply (x : Bool) (m1 m2 : String) (hc : ℕ) (hr v1 v2 : String) (ver : Option String) :
    Reply :=
  if x then doReply none 200 "OK" m1 m2 ver else doReply none hc hr v1 v2 ver

/-- Character i of a queue name of the given length. -/
def qnameCharOk (len i : ℕ) (c : Char) : Bool :=
  ('0' ≤ c ∧ c ≤ '9') ∨ ('a' ≤ c ∧ c ≤ 'z') ∨ ('A' ≤ c ∧ c ≤ 'Z') ∨ (c = '_' ∧ i ≠ 0 ∧ i+1 ≠ len)

/-- Check of a queue name of less than 2^31 bytes. -/
def reqQnameCheck (qname : Option String) : Bool :=
  match qname with
  | none => false
  | some name =>
    let str := name.toList
    0 < str.length ∧ str.length ≤ 32 ∧ ∀ ci ∈ str.zipIdx, qnameCharOk str.length ci.2 ci.1 = true

/-- Numeric argument, -1 when it is missing. -/
def destNum (num : Option String) : ℤ :=
  match num with
  | none => -1
  | some tmpNum => atoi tmpNum.toList

/-- An int converted to an unsigned 32-bit value. -/
def toU32 (x : ℤ) : ℕ := (x%2^32).toNat

/-- Find a queue by name. -/
def findQueueByQname (qname : String) (s : Server) : Option QueueEntry :=
  hashFindQueueByKey qname s.qlist

/-- Find a queue by name, or create it. -/
def touchQueueByQname (sys : Sys) (qname : String) (s : Server) : Option QueueEntry × Server :=
  match findQueueByQname qname s with
  | some e => (some e, s)
  | none =>
    match mqQmAddQueue sys qname s with
    | (false, s) => (none, s)
    | (true, s) => (findQueueByQname qname s, s)

/-- Message bytes of a put with their length as an int; absent when they are
given twice or not at all. -/
def putMsg (req : Request) : Option (ℤ × List UInt8) :=
  let bufferSize := toI32 req.body.length
  match req.data with
  | some data => if 0 < bufferSize then none else some (toI32 data.length, data)
  | none => if 0 < bufferSize then some (bufferSize, req.body) else none

/-- The length check of a put. -/
def putLenOk (conf : UcmqConf) (len : ℕ) : Prop := 0 < len ∧ len ≤ maxDbFileSize conf-128-12

instance (conf : UcmqConf) (len : ℕ) : Decidable (putLenOk conf len) :=
  inferInstanceAs (Decidable (_ ∧ _))

/-- Counters after an accepted put. -/
def afterPut (bufferSize : ℤ) (g : AppInfo) : AppInfo :=
  { g with put := u32 (g.put+1), putSize := g.putSize+bufferSize.toNat, count := (g.count+1)%2^64 }

/-- Counters after a successful get. -/
def afterGet (g : AppInfo) : AppInfo :=
  { g with get := u32 (g.get+1), count := (g.count-1)%2^64 }

/-- Store a message in a listed queue and reply. -/
def replyPut (sys : Sys) (qname : String) (ver : Option String) (bufferSize : ℤ) (msg : List UInt8)
    (e : QueueEntry) (s : Server) : Except Fault (List Reply × Server) := do
  match ← mqQmPushItem s.conf sys (toU32 bufferSize) msg (s.store e) with
  | (.wlock, st) =>
    .ok ([doReply none 400 "Put error, queue is write lock" "HTTPSQS_PUT_READONLY"
      "UCMQ_HTTP_ERR_WLOCK" ver], s.setStore qname st)
  | (.full, st) =>
    .ok ([doReply none 400 "Put error, queue is full" "HTTPSQS_PUT_FULL"
      "UCMQ_HTTP_ERR_QUE_FULL" ver], s.setStore qname st)
  | (.putOk, st) =>
    let st := { st with q := { st.q with unreadCount := st.q.unreadCount+1 } }
    .ok ([doReply (some (toI32 st.q.putNum)) 200 "OK" "HTTPSQS_PUT_OK" "UCMQ_HTTP_OK" ver],
      { s.setStore qname st with gInfo := afterPut bufferSize s.gInfo })
  | (.putError, st) =>
    .ok ([doReply none 400 "Put error" "HTTPSQS_PUT_ERROR" "UCMQ_HTTP_ERR_PUT_ERR" ver],
      s.setStore qname st)

/-- Put a message. -/
def httpOptPut (sys : Sys) (req : Request) (s : Server) : Except Fault (List Reply × Server) :=
  let qname := req.name.getD ""
  if reqQnameCheck req.name = false then
    .ok ([doReply none 400 "Invalid requst, Can't find name" "HTTPSQS_PUT_ERROR"
      "UCMQ_HTTP_ERR_INV_NAME" req.ver], s)
  else
    match putMsg req with
    | none =>
      .ok ([doReply none 400 "Invalid requst, Invalid requst" "HTTPSQS_PUT_ERROR"
        "UCMQ_HTTP_ERR_INV_DATA" req.ver], s)
    | some (bufferSize, msg) =>
      if ¬putLenOk s.conf (toU32 bufferSize) then
        .ok ([doReply none 400 "Invalid requst, Invalid requst" "HTTPSQS_PUT_ERROR"
          "UCMQ_HTTP_ERR_INV_DATA" req.ver], s)
      else
        match touchQueueByQname sys qname s with
        | (none, s) =>
          .ok ([doReply none 400 "Create queue fail" "HTTPSQS_PUT_ERROR"
            "UCMQ_HTTP_ERR_QUE_ADD_ERR" req.ver], s)
        | (some e, s) => replyPut sys qname req.ver bufferSize msg e s

/-- Take a message from a listed queue and reply. -/
def replyGet (sys : Sys) (qname : String) (ver : Option String) (e : QueueEntry) (s : Server) :
    Except Fault (List Reply × Server) := do
  match ← mqQmPopItem s.conf sys (s.store e) with
  | (.getEnd, st) =>
    .ok ([doReply none 404 "queue is empty" "HTTPSQS_GET_END" "UCMQ_HTTP_ERR_QUE_EMPTY" ver],
      s.setStore qname st)
  | (.getOk item, st) =>
    let text := if isVerTwo ver then "UCMQ_HTTP_OK" ++ "\r\n" else ""
    .ok ([⟨200, "OK", text, item.msg.take item.len, some (toI32 st.q.getNum)⟩],
      { s.setStore qname st with gInfo := afterGet s.gInfo })

/-- Get a message. -/
def httpOptGet (sys : Sys) (req : Request) (s : Server) : Except Fault (List Reply × Server) :=
  let qname := req.name.getD ""
  if reqQnameCheck req.name = false then
    .ok ([doReply none 400 "Invalid requst, Can't find name" "HTTPSQS_GET_ERROR"
      "UCMQ_HTTP_ERR_INV_NAME" req.ver], s)
  else
    match findQueueByQname qname s with
    | none =>
      .ok ([doReply none 400 "Can't find queue" "HTTPSQS_GET_ERROR"
        "UCMQ_HTTP_ERR_QUE_NO_EXIST" req.ver], s)
    | some e => replyGet sys qname req.ver e s

/-- Status of a queue as text; the banner holds version and build time. -/
def statusText (banner qname : String) (q : MqQueue) : String :=
  "HTTP Simple Message Queue Service v" ++ banner ++ "\n\n" ++
    "Queue Name: " ++ qname ++ "\n" ++
    "Put the number of queue : " ++ toString q.putNum ++ "\n" ++
    "Get the number of queue : " ++ toString q.getNum ++ "\n" ++
    "Unread the number of queue : " ++ toString q.unreadCount ++ "\n" ++
    "Maximum number of queue: " ++ toString q.maxque ++ "\n" ++
    "Delay time of queue: " ++ toString q.delay ++ "\n" ++
    "Queue write lock cut-OFF time: " ++ toString q.wlock ++ "\n"

/-- Status of a queue as JSON. -/
def statusJson (qname : String) (q : MqQueue) : String :=
  "\x7b\"name\":\"" ++ qname ++ "\",\"putnum\":" ++ toString q.putNum ++
    ",\"getnum\":" ++ toString q.getNum ++ ",\"unread\":" ++ toString q.unreadCount ++
    ",\"maxqueue\":" ++ toString q.maxque ++ ",\"delay\":" ++ toString q.delay ++
    ",\"wlock\":" ++ toString q.wlock ++ "\x7d"

/-- A status request, with the text of the status as a parameter. -/
def statusReply (show_ : String → MqQueue → String) (req : Request) (s : Server) : List Reply :=
  let qname := req.name.getD ""
  if reqQnameCheck req.name = false then
    [doReply none 400 "Invalid requst, Can't find name" "HTTPSQS_ERROR"
      "UCMQ_HTTP_ERR_INV_NAME" req.ver]
  else
    match findQueueByQname qname s with
    | none =>
      [doReply none 400 "Can't find queue" "HTTPSQS_ERROR" "UCMQ_HTTP_ERR_QUE_NO_EXIST" req.ver]
    | some e => [⟨200, "OK", show_ qname e.q, [], none⟩]

/-- Status of a queue. -/
def httpOptStatus (banner : String) (req : Request) (s : Server) : List Reply :=
  statusReply (statusText banner) req s

/-- Status of a queue as JSON. -/
def httpOptStatusJson (req : Request) (s : Server) : List Reply := statusReply statusJson req s

/-- Set the capacity of a queue, creating it if it is not listed. -/
def httpOptMaxqueue (sys : Sys) (req : Request) (s : Server) : List Reply × Server :=
  let qname := req.name.getD ""
  let destNum := destNum req.num
  if reqQnameCheck req.name = false then
    ([doReply none 400 "Invalid requst, Can't find name" "HTTPSQS_MAXQUEUE_CANCEL"
      "UCMQ_HTTP_ERR_INV_NAME" req.ver], s)
  else if destNum < 0 ∨ 1000000000 < destNum then
    ([doReply none 400 "Invalid requst, Invalid dest number" "HTTPSQS_MAXQUEUE_CANCEL"
      "UCMQ_HTTP_ERR_INV_NUM" req.ver], s)
  else
    match touchQueueByQname sys qname s with
    | (none, s) =>
      ([doReply none 400 "Create queue fail" "HTTPSQS_MAXQUEUE_CANCEL"
        "UCMQ_HTTP_ERR_QUE_ADD_ERR" req.ver], s)
    | (some e, s) =>
      ([doAndReply true "HTTPSQS_MAXQUEUE_OK" "UCMQ_HTTP_OK" 400 "Set maxqueue error"
        "HTTPSQS_MAXQUEUE_CANCEL" "UCMQ_HTTP_ERR_MAXQUE_ERR" req.ver],
        s.setStore qname (mqQmSetMaxqueue sys (toU32 destNum) (s.store e)))

/-- Set the delay of a queue, creating it if it is not listed. An invalid
number is answered but does not end the request. In the source the first reply
frees the query values and the reply buffer, so what follows works on freed
memory; it is modelled for the case that they still hold what they did. -/
def httpOptDelay (sys : Sys) (req : Request) (s : Server) : List Reply × Server :=
  let qname := req.name.getD ""
  let destNum := destNum req.num
  if reqQnameCheck req.name = false then
    ([doReply none 400 "Invalid requst, Can't find name" "HTTPSQS_DELAY_CANCEL"
      "UCMQ_HTTP_ERR_INV_NAME" req.ver], s)
  else
    let replies := if destNum < 0 then
        [doReply none 400 "Invalid requst, Invalid dest number" "HTTPSQS_DELAY_CANCEL"
          "UCMQ_HTTP_ERR_INV_NUM" req.ver]
      else []
    match touchQueueByQname sys qname s with
    | (none, s) =>
      (replies ++ [doReply none 400 "Create queue fail" "HTTPSQS_DELAY_CANCEL"
        "UCMQ_HTTP_ERR_QUE_ADD_ERR" req.ver], s)
    | (some e, s) =>
      (replies ++ [doAndReply true "HTTPSQS_DELAY_OK" "UCMQ_HTTP_OK" 400 "Set delay error"
        "HTTPSQS_DELAY_CANCEL" "UCMQ_HTTP_ERR_DELAY_ERR" req.ver],
        s.setStore qname (mqQmSetDelay sys (toU32 destNum) (s.store e)))

/-- Set the write lock of a listed queue. An invalid number is answered but
does not end the request, which goes on with freed values as for a delay. -/
def httpOptWlock (sys : Sys) (req : Request) (s : Server) : List Reply × Server :=
  let qname := req.name.getD ""
  let destNum := destNum req.num
  if reqQnameCheck req.name = false then
    ([doReply none 400 "Invalid requst, Can't find name" "HTTPSQS_READONLY_CANCEL"
      "UCMQ_HTTP_ERR_INV_NAME" req.ver], s)
  else
    let replies := if destNum < 0 ∧ destNum ≠ -1 then
        [doReply none 400 "Invalid requst, Invalid dest number" "HTTPSQS_READONLY_CANCEL"
          "UCMQ_HTTP_ERR_INV_NUM" req.ver]
      else []
    match findQueueByQname qname s with
    | none =>
      (replies ++ [doReply none 400 "Create queue fail" "HTTPSQS_READONLY_CANCEL"
        "UCMQ_HTTP_ERR_QUE_ADD_ERR" req.ver], s)
    | some e =>
      (replies ++ [doAndReply true "HTTPSQS_READONLY_OK" "UCMQ_HTTP_OK" 400 "Set readonly error"
        "HTTPSQS_READONLY_CANCEL" "UCMQ_HTTP_ERR_WLOCK_ERR" req.ver],
        s.setStore qname (mqQmSetWlock sys (toU32 destNum) (s.store e)))

/-- Remove a queue. -/
def httpOptRemove (sys : Sys) (req : Request) (s : Server) : List Reply × Server :=
  let qname := req.name.getD ""
  if reqQnameCheck req.name = false then
    ([doReply none 400 "Invalid requst, Can't find name" "HTTPSQS_REMOVE_ERROR"
      "UCMQ_HTTP_ERR_INV_NAME" req.ver], s)
  else
    match findQueueByQname qname s with
    | none =>
      ([doReply none 400 "Can't find queue" "HTTPSQS_REMOVE_ERROR"
        "UCMQ_HTTP_ERR_QUE_NO_EXIST" req.ver], s)
    | some _ =>
      let (x, s) := mqQmDelQueue sys qname s
      ([doAndReply x "HTTPSQS_REMOVE_OK" "UCMQ_HTTP_OK" 400 "Remove error" "HTTPSQS_REMOVE_ERROR"
        "UCMQ_HTTP_ERR_REMOVE_ERR" req.ver], s)

/-- Reset a queue: delete it, whatever comes of that, and create it again. -/
def httpOptReset (sys : Sys) (req : Request) (s : Server) : List Reply × Server :=
  let qname := req.name.getD ""
  if reqQnameCheck req.name = false then
    ([doReply none 400 "Invalid requst, Can't find name" "HTTPSQS_RESET_ERROR"
      "UCMQ_HTTP_ERR_INV_NAME" req.ver], s)
  else
    match findQueueByQname qname s with
    | none =>
      ([doReply none 400 "Can't find queue" "HTTPSQS_RESET_ERROR"
        "UCMQ_HTTP_ERR_QUE_NO_EXIST" req.ver], s)
    | some _ =>
      let (x, s) := mqQmAddQueue sys qname (mqQmDelQueue sys qname s).2
      ([doAndReply x "HTTPSQS_RESET_OK" "UCMQ_HTTP_OK" 400 "Reset error" "HTTPSQS_RESET_ERROR"
        "UCMQ_HTTP_ERR_RESET_ERR" req.ver], s)

/-- Set the interval of the global sync unless it is negative. -/
def mqQmSetSynctime (syncInterval : ℤ) (s : Server) : Bool × Server :=
  if 0 ≤ syncInterval then
    (true, { s with conf := { s.conf with syncTimeInterval := syncInterval } })
  else (false, s)

/-- Set the interval of the global sync. An invalid number is answered but does
not end the request, which goes on with a freed reply buffer as for a delay. -/
def httpOptSynctime (req : Request) (s : Server) : List Reply × Server :=
  let destNum := destNum req.num
  let replies := if destNum < 0 ∧ destNum ≠ -1 then
      [doReply none 400 "Invalid requst, Invalid dest number" "HTTPSQS_SYNC_TIME_CANCEL"
        "UCMQ_HTTP_ERR_INV_NUM" req.ver]
    else []
  let (x, s) := mqQmSetSynctime destNum s
  (replies ++ [doAndReply x "HTTPSQS_SYNC_TIME_OK" "UCMQ_HTTP_OK" 400 "Set sync time error"
    "HTTPSQS_SYNC_TIME_CANCEL" "UCMQ_HTTP_ERR_SYNC_TIEM_ERR" req.ver], s)

/-- Reply to a missing or unknown option. -/
def httpUnknownOpt (req : Request) : Reply :=
  doReply none 405 "Unknown option" "HTTPSQS_UNKNWON_OPT" "UCMQ_HTTP_ERR_UNKNOWN_OPT" req.ver

/-- Reply to a request whose query cannot be parsed. -/
def httpUnparseReq (req : Request) : Reply :=
  doReply none 400 "Bad Request" "HTTPSQS_UNPARSE_URI" "UCMQ_HTTP_ERR_BAD_REQ" req.ver

/-- Dispatch on the option. The time statistics that end the entry are left out. -/
def mqEvhttpCbDoOptEntry (banner : String) (sys : Sys) (req : Request) (s : Server) :
    Except Fault (List Reply × Server) :=
  if req.parsed = false then .ok ([httpUnparseReq req], s)
  else
    match req.opt with
    | none => .ok ([httpUnknownOpt req], s)
    | some "put" => httpOptPut sys req s
    | some "get" => httpOptGet sys req s
    | some "status" => .ok (httpOptStatus banner req s, s)
    | some "status_json" => .ok (httpOptStatusJson req s, s)
    | some "maxqueue" => .ok (httpOptMaxqueue sys req s)
    | some "delay" => .ok (httpOptDelay sys req s)
    | some "wlock" => .ok (httpOptWlock sys req s)
    | some "readonly" => .ok (httpOptWlock sys req s)
    | some "remove" => .ok (httpOptRemove sys req s)
    | some "reset" => .ok (httpOptReset sys req s)
    | some "synctime" => .ok (httpOptSynctime req s)
    | some _ => .ok ([httpUnknownOpt req], s)

end Ucmq.Evhttp
