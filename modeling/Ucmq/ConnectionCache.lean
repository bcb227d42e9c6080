import Ucmq.HeaderFields

/-!
# The connections of the C client

With keep-alive the client caches one connection for each server in its list,
takes it up again when poll reports nothing on it, and gives it up when an
exchange fails with another result than the end of a queue. Without, it closes
the connection after every exchange. The sockets that the client has opened and
not closed are part of the state. What the system calls answer in one exchange
is data of the model, and a call on a descriptor that is not open stops it.
-/

namespace Ucmq.ConnectionCache

open MqClient HeaderFields

/-- An entry of the connection list. No descriptor is -1 in the source. -/
structure MqSrv where
  /-- Address of the server. -/
  mqDest : String
  /-- Cached connection. -/
  fd : Option ℕ
  /-- Second of the last use. -/
  lastUse : ℤ
  /-- Timeout of the connection. -/
  timeout : ℤ

/-- The client object. -/
structure MqObject where
  /-- Order in which servers are looked up. -/
  lookUp : ℤ
  /-- Whether connections are cached. -/
  keepAlive : ℤ
  /-- One entry for each server. -/
  connList : List MqSrv

/-- The client object and the sockets that it opened and did not close. -/
structure Client where
  mq : MqObject
  opened : List ℕ

/-- Ends of a call: socket answers with a descriptor that is open, which no system
does, or a descriptor is used or closed that is not open. -/
inductive Stop where
  | taken
  | badFd
  deriving DecidableEq

/-- Answers of connect on a socket that does not block. -/
inductive Connect where
  /-- The connection is made at once. -/
  | done
  /-- EINPROGRESS, after which the wait ends with the timeout, or not and then with or
  without an error of the socket. -/
  | inProgress (ready ok : Bool)
  /-- EISCONN. -/
  | isConn
  /-- EINTR. -/
  | intr
  /-- Any other error. -/
  | failed
  deriving DecidableEq

/-- Answers of the system calls of one exchange. -/
structure Exchange where
  /-- Second at which it starts. -/
  secNow : ℤ
  /-- Something is reported on the cached connection. -/
  events : Bool
  /-- Descriptor of a new socket. -/
  socket : Option ℕ
  /-- The new socket does not block. -/
  nonblock : Bool
  /-- Answers of connect; past the end it fails. -/
  connects : List Connect
  /-- The whole request was sent. -/
  sent : Bool
  /-- Arrivals after the request. -/
  arrivals : List Arrival
  /-- Value of errno when the connection or the header failed. -/
  errno : ℤ

/-- A new socket. -/
def openFd (fd : ℕ) (c : Client) : Except Stop Client :=
  if fd ∈ c.opened then .error .taken else .ok { c with opened := fd :: c.opened }

/-- close. -/
def closeFd (fd : ℕ) (c : Client) : Except Stop Client :=
  if fd ∈ c.opened then .ok { c with opened := c.opened.erase fd } else .error .badFd

/-- Any other call on a descriptor. -/
def useFd (fd : ℕ) (c : Client) : Except Stop Client :=
  if fd ∈ c.opened then .ok c else .error .badFd

/-- Change the entry of a server. -/
def setSrv (curr : ℕ) (srv : MqSrv) (c : Client) : Client :=
  { c with mq := { c.mq with connList := c.mq.connList.set curr srv } }

/-- The loop around connect. A socket that is connected at once does not enter it and
is neither returned nor closed. -/
def connectLoop (s : ℕ) : List Connect → Client → Except Stop (Option ℕ × Client)
  | .intr :: cs, c => connectLoop s cs c
  | .done :: _, c => .ok (none, c)
  | .isConn :: _, c => .ok (some s, c)
  | .inProgress true true :: _, c => .ok (some s, c)
  | .inProgress _ _ :: _, c => do
    let c ← closeFd s c
    return (none, c)
  | .failed :: _, c => do
    let c ← closeFd s c
    return (none, c)
  | [], c => do
    let c ← closeFd s c
    return (none, c)

/-- Make a connection; absent when that fails. -/
def commCreateSocket (x : Exchange) (c : Client) : Except Stop (Option ℕ × Client) :=
  match x.socket with
  | none => .ok (none, c)
  | some s => do
    let c ← openFd s c
    if x.nonblock = false then
      let c ← closeFd s c
      return (none, c)
    else connectLoop s x.connects c

/-- The cached connection to a server, which is closed when something is reported on it. -/
def inGetFromList (curr : ℕ) (dest : String) (x : Exchange) (c : Client) :
    Except Stop (Option ℕ × Client) :=
  match c.mq.connList[curr]? with
  | none => .ok (none, c)
  | some srv =>
    match srv.fd with
    | none => .ok (none, c)
    | some fd =>
      if dest ≠ srv.mqDest then .ok (none, c)
      else do
        let c ← useFd fd c
        if x.events = false then return (some fd, setSrv curr { srv with lastUse := x.secNow } c)
        else
          let c ← closeFd fd c
          return (none, setSrv curr { srv with fd := none } c)

/-- Cache a connection. -/
def inAddToList (curr fd : ℕ) (dest : String) (secNow : ℤ) (c : Client) : Except Stop Client :=
  match c.mq.connList[curr]? with
  | none => .ok c
  | some srv => do
    let c ← match srv.fd with
      | none => pure c
      | some old => closeFd old c
    return setSrv curr ⟨dest, some fd, secNow, 3600⟩ c

/-- The cached connection to a server, or a new one. -/
def commGetSocket (curr : ℕ) (dest : String) (x : Exchange) (c : Client) :
    Except Stop (Option ℕ × Client) := do
  let (s, c) ← inGetFromList curr dest x c
  match s with
  | some fd => return (some fd, c)
  | none =>
    let (s, c) ← commCreateSocket x c
    match s with
    | none => return (none, c)
    | some fd =>
      let c ← inAddToList curr fd dest x.secNow c
      return (some fd, c)

/-- Set the timeout of a cached connection. -/
def commSetTimeoutByFd (fd : ℕ) (timeout : ℤ) : List MqSrv → List MqSrv
  | [] => []
  | srv :: conns =>
    if srv.fd = some fd then { srv with timeout := timeout } :: conns
    else srv :: commSetTimeoutByFd fd timeout conns

/-- Close a connection wherever it is cached. -/
def inDelFromList (fd : Option ℕ) : List MqSrv → List ℕ → Except Stop (List MqSrv × List ℕ)
  | [], opened => .ok ([], opened)
  | srv :: conns, opened =>
    match srv.fd with
    | some own =>
      if fd = some own then
        if own ∈ opened then do
          let (conns, opened) ← inDelFromList fd conns (opened.erase own)
          return ({ srv with fd := none } :: conns, opened)
        else .error .badFd
      else do
        let (conns, opened) ← inDelFromList fd conns opened
        return (srv :: conns, opened)
    | none => do
      let (conns, opened) ← inDelFromList fd conns opened
      return (srv :: conns, opened)

/-- Close all cached connections. -/
def inDelList : List MqSrv → List ℕ → Except Stop (List ℕ)
  | [], opened => .ok opened
  | srv :: conns, opened =>
    match srv.fd with
    | none => inDelList conns opened
    | some fd => if fd ∈ opened then inDelList conns (opened.erase fd) else .error .badFd

/-- The end of a client: the sockets that remain open. -/
def mqFini (c : Client) : Except Stop (List ℕ) := inDelList c.mq.connList c.opened

/-- Send the request on a connection and read the reply, on a stack that holds its
content. -/
def exchange (s : Option ℕ) (x : Exchange) (ret : MqReturn) (c : Client) :
    Except Stop (ReplyRead × Client) :=
  match s with
  | none => .ok (⟨false, { ret with result := x.errno }, none, none⟩, c)
  | some fd => do
    let c ← useFd fd c
    if x.sent = false then return (⟨false, { ret with result := 70 }, none, none⟩, c)
    else
      let read := recvReplyFields ⟨true, true, x.arrivals, x.errno⟩ ret
      match read.timeout with
      | none => return (read, c)
      | some timeout =>
        let conns := commSetTimeoutByFd fd timeout c.mq.connList
        return (read, { c with mq := { c.mq with connList := conns } })

/-- Without keep-alive the connection is closed after the exchange. -/
def closeUncached (s : Option ℕ) (c : Client) : Except Stop Client :=
  match s with
  | none => .ok c
  | some fd => if c.mq.keepAlive = 0 then closeFd fd c else .ok c

/-- With keep-alive the connection is given up when the exchange failed, unless the
queue was at its end. -/
def giveUp (s : Option ℕ) (read : ReplyRead) (c : Client) : Except Stop Client :=
  if read.ret.result ≠ mqGetMsgEnd ∧ c.mq.keepAlive = 1 ∧ read.ok = false then do
    let (conns, opened) ← inDelFromList s c.mq.connList c.opened
    return ⟨{ c.mq with connList := conns }, opened⟩
  else .ok c

/-- The connection for an exchange: cached with keep-alive, new without. -/
def getConnection (curr : ℕ) (dest : String) (x : Exchange) (c : Client) :
    Except Stop (Option ℕ × Client) :=
  if c.mq.keepAlive = 1 then commGetSocket curr dest x c else commCreateSocket x c

/-- The exchange with one server: whether it was completed, and what is returned. -/
def inMqOperate (curr : ℕ) (dest : String) (x : Exchange) (ret : MqReturn) (c : Client) :
    Except Stop (Bool × MqReturn × Client) := do
  let (s, c) ← getConnection curr dest x c
  let (read, c) ← exchange s x ret c
  let c ← closeUncached s c
  let c ← giveUp s read c
  return (read.ok, read.ret, c)

/-- Address of a server. -/
def destOf (curr : ℕ) (c : Client) : String := (c.mq.connList[curr]?.map MqSrv.mqDest).getD ""

/-- The fail-over loop. -/
def operateLoop (net : ℕ → Exchange) (info : MqOptInfo) :
    List ℕ → ℕ → MqReturn → Client → Except Stop (List (ℕ × MqOptInfo) × ℕ × MqReturn × Client)
  | [], curr, ret, c => .ok ([], curr, ret, c)
  | curr :: order, _, ret, c => do
    let (ok, ret, c) ← inMqOperate curr (destOf curr c) (net curr) ret c
    if ok = true then return ([(curr, info)], curr, ret, c)
    else
      let (sent, last, ret, c) ← operateLoop net info order curr ret c
      return ((curr, info) :: sent, last, ret, c)

/-- Contact the servers in their order until one exchange is completed. -/
def inDoOperate (net : ℕ → Exchange) (rand : ℕ → ℕ) (info : MqOptInfo) (ret : MqReturn)
    (c : Client) :
    Except Stop (List (ℕ × MqOptInfo) × MqReturn × Client) := do
  let order := lookupOrder (if c.mq.lookUp = 1 then some rand else none) c.mq.connList.length
  let (sent, curr, ret, c) ← operateLoop net info order 0 ret c
  return (sent, { ret with index := curr }, c)

/-- Contact the server with an address, if there is one. -/
def operateAt (net : ℕ → Exchange) (server : String) (info : MqOptInfo) (ret : MqReturn)
    (c : Client) :
    Except Stop (List (ℕ × MqOptInfo) × MqReturn × Client) :=
  match c.mq.connList.findIdx? (fun srv => srv.mqDest = server) with
  | none => .ok ([], ret, c)
  | some i => do
    let (_, ret, c) ← inMqOperate i (destOf i c) (net i) ret c
    return ([(i, info)], ret, c)

/-- The switch of mq_get_opt. The number is left to the memory of the caller for a
view. -/
def getOptSwitch (opt : ℤ) (buf : String) : Option (String × String) :=
  match opt with
  | 0 => some ("status", "")
  | 1 => some ("status_json", "")
  | 2 => some ("view", buf)
  | _ => none

/-- Calls of the library, with the answers to the exchanges with every server. -/
inductive Call where
  | putMsg (name : String) (data : List UInt8)
  | getMsg (name : String)
  | allSetOpt (name : String) (opt : ℤ) (data : ℕ)
  | setOpt (server name : String) (opt : ℤ) (data : ℕ)
  | getOpt (server name : String) (opt : ℤ) (data : ℕ) (buf : String)

/-- A call with the answers to the exchanges with every server, and the numbers of
rand. -/
structure ClientEvent where
  call : Call
  charset : Option String
  net : ℕ → Exchange
  rand : ℕ → ℕ

/-- What a call returns: nothing for a negative code, else the requests handed out
and the return value. -/
abbrev CallResult := Option (List (ℕ × MqOptInfo) × MqReturn)

/-- Run an operation whose request is known. -/
def returning (x : Except Stop (List (ℕ × MqOptInfo) × MqReturn × Client)) :
    Except Stop (CallResult × Client) := do
  let (sent, ret, c) ← x
  return (some (sent, ret), c)

/-- One call of the library. mq_all_set_opt leaves the order of the list as the order
of all later calls. -/
def clientCall (ev : ClientEvent) (c : Client) : Except Stop (CallResult × Client) :=
  match ev.call with
  | .putMsg name data =>
    returning (inDoOperate ev.net ev.rand ⟨"put", name, some "", data, ev.charset⟩ inInitReturn c)
  | .getMsg name =>
    returning (inDoOperate ev.net ev.rand ⟨"get", name, none, [], ev.charset⟩ inInitReturn c)
  | .allSetOpt name opt data =>
    if opt < 0 then .ok (none, c)
    else
      let ret := { inInitReturn with optValue := opt }
      match setOptInfo name opt data ev.charset with
      | none => .ok (some ([], { ret with result := 22 }), c)
      | some info =>
        returning (inDoOperate ev.net ev.rand info ret { c with mq := { c.mq with lookUp := 0 } })
  | .setOpt server name opt data =>
    if opt < 0 then .ok (none, c)
    else
      let ret := { inInitReturn with optValue := opt }
      match setOptInfo name opt data ev.charset with
      | none => .ok (some ([], { ret with result := 22 }), c)
      | some info => returning (operateAt ev.net server info ret c)
  | .getOpt server name opt data buf =>
    if opt < 0 then .ok (none, c)
    else
      let ret := { inInitReturn with optValue := opt }
      match getOptSwitch opt buf with
      | none => .ok (some ([], { ret with result := 22 }), c)
      | some (word, num) =>
        returning (operateAt ev.net server ⟨word, name, some num, u32Bytes data, ev.charset⟩ ret c)

/-- An array of mq_init that its text overflows. -/
inductive InitStop where
  | overflow
  deriving DecidableEq

/-- The digits and dots of a domain, in an array of 32 bytes. -/
def str2ipText (s : List Char) : Except InitStop (List Char) :=
  let text := s.filter fun c => c = '.' ∨ c.isDigit
  if text.length < 32 then .ok text else .error .overflow

/-- One entry of a new list: an address with a port, whose domain inet_addr takes.
The entry has 65 bytes for the domain and 71 for the address. -/
def initSrv (inetAddr : List Char → Bool) (addr : String) : Except InitStop (Option MqSrv) :=
  match addr.toList.findIdx? (· = ':') with
  | none => .ok none
  | some p => do
    let domain := addr.toList.take p
    let text ← str2ipText domain
    if inetAddr text = false then .ok none
    else if 64 < (String.ofList domain).utf8ByteSize ∨ 70 < addr.utf8ByteSize then .error .overflow
    else .ok (some ⟨addr, none, 0, 0⟩)

/-- The entries of a new list; absent when an address is not taken. -/
def initSrvs (inetAddr : List Char → Bool) : List String → Except InitStop (Option (List MqSrv))
  | [] => .ok (some [])
  | addr :: group =>
    match initSrv inetAddr addr with
    | .error e => .error e
    | .ok none => .ok none
    | .ok (some srv) => (initSrvs inetAddr group).map fun conns => conns.map (srv :: ·)

/-- A new client; absent when an address is not taken. -/
def mqInit (inetAddr : List Char → Bool) (serverGroup : List String) (lookUp keepAlive : ℤ) :
    Except InitStop (Option MqObject) :=
  (initSrvs inetAddr serverGroup).map fun conns => conns.map fun conns => ⟨lookUp, keepAlive, conns⟩

end Ucmq.ConnectionCache
