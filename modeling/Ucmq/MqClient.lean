import Ucmq.DecimalText
import Ucmq.TextSearch

/-!
# The C client

The request a set operation or a get builds, the exchange with one server and
the fail-over loop over the servers of mq_client.c. Text on the wire is a list
of characters, one for each byte. What the network does in one exchange is data
of the model: a connection and a sent request or none, and the arrivals that
the recv calls meet. Reason texts, socket timeouts and the cache of open
connections are left out. The content of a reply is received into an array on
the stack, and an exchange whose array is larger than the stack ends the process.
-/

namespace Ucmq.MqClient

open DecimalText TextSearch

/-- A byte as a character of the wire. -/
def byteChar (b : UInt8) : Char := Char.ofNat b.toNat

/-- A character of the wire as a byte. -/
def charByte (c : Char) : UInt8 := UInt8.ofNat c.toNat

/-- The options of mq_opts that mq_set_opt and mq_all_set_opt take. -/
inductive MqOpts
  | reset
  | maxqueue
  | synctime
  | remove
  | delay
  | readonly
  deriving DecidableEq

/-- Code of an option. -/
def MqOpts.value : MqOpts → ℤ
  | .reset => 10
  | .maxqueue => 11
  | .synctime => 12
  | .remove => 13
  | .delay => 14
  | .readonly => 15

/-- MQ_OPT_SUCCESS. -/
abbrev mqOptSuccess : ℤ := 200

/-- MQ_GET_MSG_END. -/
abbrev mqGetMsgEnd : ℤ := 404

/-- What a request is made of. No data and data of length zero are one case. -/
structure MqOptInfo where
  /-- Option word. -/
  opt : String
  /-- Queue name. -/
  name : String
  /-- Numeric segment of the query. -/
  num : Option String
  /-- Request body. -/
  data : List UInt8
  /-- Character set of the configuration. -/
  charset : Option String
  deriving DecidableEq

/-- What an operation returns. -/
structure MqReturn where
  /-- Position header of the reply. -/
  pos : ℤ
  /-- Status of the reply, or an error number. -/
  result : ℤ
  /-- Content of the reply. -/
  data : Option (List UInt8)
  /-- Length of the content. -/
  dataLen : ℕ
  /-- Server the loop ended at. -/
  index : ℤ
  /-- Option code. -/
  optValue : ℤ
  deriving DecidableEq

/-- in_init_return. -/
def inInitReturn : MqReturn := ⟨-1, -1, none, 0, -1, -1⟩

/-- The memory of an unsigned 32-bit value, low byte first. -/
def u32Bytes (n : ℕ) : List UInt8 :=
  [UInt8.ofNat n, UInt8.ofNat (n/2^8), UInt8.ofNat (n/2^16), UInt8.ofNat (n/2^24)]

/-- The switch on the option code. The case of a removal has no break: its word
is overwritten by that of the delay. -/
def setOptSwitch (opt : ℤ) (num : String) : Option (String × String) :=
  match opt with
  | 10 => some ("reset", "")
  | 11 => some ("maxqueue", num)
  | 12 => some ("synctime", num)
  | 13 =>
    let info := ("remove", "")
    some { info with fst := "delay" }
  | 14 => some ("delay", num)
  | 15 => some ("readonly", num)
  | _ => none

/-- Request of a set operation; absent for an unknown code. -/
def setOptInfo (name : String) (opt : ℤ) (data : ℕ) (charset : Option String) : Option MqOptInfo :=
  (setOptSwitch opt ("num=" ++ toString (toI32 data))).map fun info =>
    ⟨info.1, name, some info.2, u32Bytes data, charset⟩

/-- Query of a request. -/
def httpQuery (info : MqOptInfo) : List Char :=
  "name=".toList ++ info.name.toList ++ "&opt=".toList ++ info.opt.toList ++
    (match info.charset with
      | some charset => "&charset=".toList ++ charset.toList
      | none => []) ++
    (match info.num with
      | some num => "&".toList ++ num.toList
      | none => [])

/-- Text of a request to a server. -/
def commSendHttpReq (mqDest : String) (info : MqOptInfo) : List Char :=
  if info.data = [] then
    "GET /?".toList ++ httpQuery info ++ " HTTP/1.1\r\nHost: ".toList ++ mqDest.toList ++
      "\r\nConnection: keep-alive\r\n\r\n".toList
  else
    "POST /?".toList ++ httpQuery info ++ " HTTP/1.1\r\nHost: ".toList ++ mqDest.toList ++
      "\r\nContent-Length: ".toList ++ (toString info.data.length).toList ++
      "\r\nConnection: keep-alive\r\n\r\n".toList ++ info.data.map byteChar

/-- What a recv call meets. The end of the list of arrivals is the end of the
connection. -/
inductive Arrival
  /-- At least one byte. -/
  | bytes (c : Char) (cs : List Char)
  /-- EAGAIN, after which the wait ends with data or with the timeout. -/
  | again (ready : Bool)
  /-- EINTR. -/
  | intr
  /-- Any other error. -/
  | error
  deriving DecidableEq

/-- What the network does in one exchange. -/
structure Contact where
  /-- A connection was found or made. -/
  connected : Bool
  /-- The whole request was sent. -/
  sent : Bool
  /-- Arrivals after the request. -/
  arrivals : List Arrival
  /-- Value of errno when the connection or the header failed. -/
  errno : ℤ

/-- Bytes a recv call left in the socket. -/
def unread (cs : List Char) (es : List Arrival) : List Arrival :=
  match cs with
  | [] => es
  | c :: cs => .bytes c cs :: es

/-- Receive until the count is reached or the text received is finished; absent
after an error. -/
def commRecvN (count : ℕ) (isFinish : List Char → Bool) :
    List Char → List Arrival → Option (List Char) × List Arrival
  | data, [] => (some data, [])
  | _, .error :: es => (none, es)
  | data, .again false :: es => (some data, es)
  | data, .again true :: es =>
    if data.length < count ∧ isFinish data = false then commRecvN count isFinish data es
    else (some data, es)
  | data, .intr :: es =>
    if data.length < count ∧ isFinish data = false then commRecvN count isFinish data es
    else (some data, es)
  | data, .bytes c cs :: es =>
    let r := count-data.length
    let data := data ++ (c :: cs).take r
    if data.length < count ∧ isFinish data = false then commRecvN count isFinish data es
    else (some data, unread ((c :: cs).drop r) es)

/-- A buffer read as a C string. -/
def cStr (s : List Char) : List Char := s.takeWhile (· ≠ '\x00')

/-- First occurrence of a text. -/
def strstr (s pat : List Char) : Option ℕ := find id pat s

/-- First occurrence of a text in any case. -/
def strcasestr (s pat : List Char) : Option ℕ := find Char.toLower pat s

/-- The empty line that ends a header block. -/
abbrev headerEnd : List Char := ['\r', '\n', '\r', '\n']

/-- Offset of the data after the header block. -/
def inGetData (data : List Char) : Option ℕ := (strstr data headerEnd).map (·+4)

/-- The header block is complete. -/
def inCheckHeaderFinish (data : List Char) : Bool := (inGetData (cStr data)).isSome

/-- Text of a header: what follows its name and the next character, without
leading blanks. -/
def inGetHeaderInfoStr (header type : List Char) : Option (List Char) :=
  (strcasestr header type).map fun p =>
    (header.drop (p+(type.length+1))).dropWhile fun c => c = ' ' ∨ c = '\t'

/-- Number in a header, -1 when the header is missing. -/
def inGetHeaderInfoInt (header type : List Char) : ℤ :=
  match inGetHeaderInfoStr header type with
  | none => -1
  | some p => atoi p

/-- Conversion of a sign and at least one digit by sscanf. -/
def scanInt (s : List Char) : Option ℤ :=
  let t := s.dropWhile isSpace
  let digits := match t with
    | '-' :: u => u
    | '+' :: u => u
    | u => u
  if (digits.takeWhile Char.isDigit) = [] then none else some (atoi t)

/-- Status in a reply; absent when the text is no status line. -/
def scanStatus (s : List Char) : Option ℤ :=
  if "HTTP/1.1".toList <+: s then scanInt (s.drop 8) else none

/-- The content after the header block, of the length that was announced;
absent when more or less arrives. The array for it lies on the stack, which
has room for it (see stackHolds). -/
def recvBody (bodyLen hasRecv : ℕ) (data : List Char) (es : List Arrival) : Option (List Char) :=
  if bodyLen < hasRecv then none
  else if hasRecv < bodyLen then
    match (commRecvN (bodyLen-hasRecv) (fun _ => false) [] es).1 with
    | none => none
    | some rest => if rest.length = bodyLen-hasRecv then some (data ++ rest) else none
  else some data

/-- The exchange after the request was sent, on a stack that holds the content.
The content is copied with strncpy and measured with strlen, so that both end at
its first zero byte. -/
def recvReply (c : Contact) (ret : MqReturn) : Bool × MqReturn :=
  let (recv, es) := commRecvN 1023 inCheckHeaderFinish [] c.arrivals
  let buffer := cStr (recv.getD [])
  match inGetData buffer with
  | none => (false, { ret with result := c.errno })
  | some data =>
    let ret := { ret with result := (scanStatus buffer).getD ret.result }
    if ret.result = mqGetMsgEnd then (false, ret)
    else
      let ret := { ret with pos := inGetHeaderInfoInt buffer "Pos".toList }
      let bodyLen := inGetHeaderInfoInt buffer "Content-Length".toList
      if bodyLen < 0 then (false, ret)
      else
        match recvBody bodyLen.toNat ((recv.getD []).length-data) ((recv.getD []).drop data) es with
        | none => (false, ret)
        | some body =>
          let text := (cStr body).map charByte
          (true, { ret with data := some text, dataLen := text.length })

/-- Length of the array that is declared for the content and a final zero byte;
absent when the exchange ends before. -/
def arrayLength (c : Contact) (ret : MqReturn) : Option ℕ :=
  let buffer := cStr ((commRecvN 1023 inCheckHeaderFinish [] c.arrivals).1.getD [])
  match inGetData buffer with
  | none => none
  | some _ =>
    if (scanStatus buffer).getD ret.result = mqGetMsgEnd then none
    else
      let bodyLen := inGetHeaderInfoInt buffer "Content-Length".toList
      if bodyLen < 0 then none else some (bodyLen.toNat+1)

/-- The stack of the caller has room for the array. Its length is an int. -/
def stackHolds (stack : ℕ) (c : Contact) (ret : MqReturn) : Bool :=
  (arrayLength c ret).all fun n => n < 2^31 ∧ n ≤ stack

/-- The exchange with one server: whether it was completed, and what is returned. -/
def inMqOperate (c : Contact) (ret : MqReturn) : Bool × MqReturn :=
  if c.connected = false then (false, { ret with result := c.errno })
  else if c.sent = false then (false, { ret with result := 70 })
  else recvReply c ret

/-- The fail-over loop over the servers in the given order: the requests handed
out, each with its server, the last server and what is returned. -/
def operateLoop (contact : ℕ → Contact) (info : MqOptInfo) :
    List ℕ → ℕ → MqReturn → List (ℕ × MqOptInfo) × ℕ × MqReturn
  | [], curr, ret => ([], curr, ret)
  | curr :: order, _, ret =>
    match inMqOperate (contact curr) ret with
    | (false, ret) =>
      let (sent, last, ret) := operateLoop contact info order curr ret
      ((curr, info) :: sent, last, ret)
    | (true, ret) => ([(curr, info)], curr, ret)

/-- The exchange with one server on a stack with this many bytes of room; absent
when the process ends in it. -/
def inMqOperateOn (stack : ℕ) (c : Contact) (ret : MqReturn) : Option (Bool × MqReturn) :=
  if c.connected = true ∧ c.sent = true ∧ stackHolds stack c ret = false then none
  else some (inMqOperate c ret)

/-- The fail-over loop on such a stack. -/
def operateLoopOn (stack : ℕ) (contact : ℕ → Contact) (info : MqOptInfo) :
    List ℕ → ℕ → MqReturn → Option (List (ℕ × MqOptInfo) × ℕ × MqReturn)
  | [], curr, ret => some ([], curr, ret)
  | curr :: order, _, ret =>
    match inMqOperateOn stack (contact curr) ret with
    | none => none
    | some (false, ret) =>
      (operateLoopOn stack contact info order curr ret).map fun (sent, last, ret) =>
        ((curr, info) :: sent, last, ret)
    | some (true, ret) => some ([(curr, info)], curr, ret)

/-- Contact the servers in the given order until one exchange is completed. -/
def inDoOperate (contact : ℕ → Contact) (order : List ℕ) (info : MqOptInfo) (ret : MqReturn) :
    List (ℕ × MqOptInfo) × MqReturn :=
  let (sent, curr, ret) := operateLoop contact info order 0 ret
  (sent, { ret with index := curr })

/-- Exchange two places of an order. -/
def swap (i j : ℕ) (a : List ℕ) : List ℕ := (a.set i (a.getD j 0)).set j (a.getD i 0)

/-- The shuffle of a random lookup, down from the given place. -/
def shuffle (rand : ℕ → ℕ) (count : ℕ) : ℕ → List ℕ → List ℕ
  | 0, a => a
  | j+1, a => shuffle rand count j (swap (j+1) (rand j%count) a)

/-- Order in which the servers are looked up: as listed, or shuffled. -/
def lookupOrder (rand : Option (ℕ → ℕ)) (count : ℕ) : List ℕ :=
  match rand with
  | none => List.range count
  | some rand => shuffle rand count (count-1) (List.range count)

/-- Get a message. -/
def mqGetMsg (contact : ℕ → Contact) (rand : Option (ℕ → ℕ)) (count : ℕ) (name : String)
    (charset : Option String) : List (ℕ × MqOptInfo) × MqReturn :=
  inDoOperate contact (lookupOrder rand count) ⟨"get", name, none, [], charset⟩ inInitReturn

/-- Get a message on a stack with this many bytes of room; absent when the process
ends before the call does. -/
def mqGetMsgOn (stack : ℕ) (contact : ℕ → Contact) (rand : Option (ℕ → ℕ)) (count : ℕ)
    (name : String) (charset : Option String) : Option (List (ℕ × MqOptInfo) × MqReturn) :=
  (operateLoopOn stack contact ⟨"get", name, none, [], charset⟩
    (lookupOrder rand count) 0 inInitReturn).map
    fun (sent, curr, ret) => (sent, { ret with index := curr })

/-- Set an option on every server; absent for a negative code. -/
def mqAllSetOpt (contact : ℕ → Contact) (count : ℕ) (name : String) (opt : ℤ) (data : ℕ)
    (charset : Option String) : Option (List (ℕ × MqOptInfo) × MqReturn) :=
  if opt < 0 then none
  else
    let ret := { inInitReturn with optValue := opt }
    match setOptInfo name opt data charset with
    | none => some ([], { ret with result := 22 })
    | some info => some (inDoOperate contact (lookupOrder none count) info ret)

/-- Set an option on one server, named by its address. -/
def mqSetOpt (contact : ℕ → Contact) (dests : List String) (server name : String)
    (opt : ℤ) (data : ℕ) (charset : Option String) : Option (List (ℕ × MqOptInfo) × MqReturn) :=
  if opt < 0 then none
  else
    let ret := { inInitReturn with optValue := opt }
    match setOptInfo name opt data charset with
    | none => some ([], { ret with result := 22 })
    | some info =>
      match dests.findIdx? (· = server) with
      | none => some ([], ret)
      | some i => some ([(i, info)], (inMqOperate (contact i) ret).2)

end Ucmq.MqClient
