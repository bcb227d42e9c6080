import Ucmq.StoreManage

/-!
# Queues, the queue list and the store at start and stop

The functions of mq_queue_manage.c. The first part works on one queue, the
second on the queue list. The list keeps the newest entry first, which is the
one a lookup finds; names are not checked for duplicates when one is added.
Resources that no listed queue refers to any more stay with the process.
-/

namespace Ucmq.QueueManage

open DecimalText StoreConfig StoreMsg StoreState StoreRtag StoreFile StoreManage

/-- Result of a put on a queue. -/
inductive QueuePutRet where
  | putOk
  | full
  | wlock
  | putError
  deriving DecidableEq

/-- Result of a get on a queue. The source has an error code that no path
returns. -/
inductive QueueGetRet where
  | getOk (item : MsgItem)
  | getEnd

/-- Clock reading as an unsigned 32-bit value. -/
def curTime (sys : Sys) : ℕ := (sys.now%2^32).toNat

/-- The capacity check refuses a put. -/
def queueFull (q : MqQueue) : Prop := q.maxque ≠ 0 ∧ q.maxque < q.unreadCount+1

instance (q : MqQueue) : Decidable (queueFull q) := inferInstanceAs (Decidable (_ ∧ _))

/-- The write lock refuses a put. The signed deadline is compared as unsigned. -/
def writeLocked (sys : Sys) (q : MqQueue) : Prop :=
  q.wlock = -1 ∨ curTime sys < (q.wlock%2^32).toNat

instance (sys : Sys) (q : MqQueue) : Decidable (writeLocked sys q) :=
  inferInstanceAs (Decidable (_ ∨ _))

/-- Countdown to the next sync of the write map after an accepted put. -/
def nextSyncIntv (conf : UcmqConf) (syncIntv : ℤ) : ℤ :=
  if 0 < syncIntv then
    if syncIntv = 1 then (if conf.syncInterval ≤ 0 then 10 else conf.syncInterval) else syncIntv-1
  else syncIntv

/-- Store a message in a queue. -/
def mqQmPushItem (conf : UcmqConf) (sys : Sys) (len : ℕ) (msg : List UInt8) (s : Store) :
    Except Fault (QueuePutRet × Store) :=
  if queueFull s.q then .ok (.full, s)
  else if writeLocked sys s.q then .ok (.wlock, s)
  else do
    let item : MsgItem :=
      ⟨msgHeadOfFirstMagicNum, msgHeadOfSecondMagicNum, curTime sys, 0, len, msg⟩
    match ← mqSmPutData conf sys item s with
    | (false, s) => .ok (.putError, s)
    | (true, s) =>
      let s := (mqSmRtagWriteItem sys .item s).2
      .ok (.putOk, { s with q := { s.q with syncIntv := nextSyncIntv conf s.q.syncIntv } })

/-- Take the next message from a queue. -/
def mqQmPopItem (conf : UcmqConf) (sys : Sys) (s : Store) : Except Fault (QueueGetRet × Store) :=
  if s.q.unreadCount < 1 then .ok (.getEnd, s)
  else do
    match ← mqSmGetData conf sys s with
    | (none, s) => .ok (.getEnd, s)
    | (some item, s) => .ok (.getOk item, (mqSmRtagWriteItem sys .item s).2)

/-- Set the capacity of a queue. -/
def mqQmSetMaxqueue (sys : Sys) (maxque : ℕ) (s : Store) : Store :=
  (mqSmRtagWriteItem sys .item { s with q := { s.q with maxque := maxque } }).2

/-- Set the delivery delay of a queue. -/
def mqQmSetDelay (sys : Sys) (delay : ℕ) (s : Store) : Store :=
  (mqSmRtagWriteItem sys .item { s with q := { s.q with delay := delay } }).2

/-- The stored lock for a requested unsigned lock length. -/
def wlockValue (sys : Sys) (wlock : ℕ) : ℤ :=
  if wlock = 2^32-1 then -1 else if wlock = 0 then 0 else toI32 (sys.now+wlock)

/-- Set the write lock of a queue. -/
def mqQmSetWlock (sys : Sys) (wlock : ℕ) (s : Store) : Store :=
  (mqSmRtagWriteItem sys .item { s with q := { s.q with wlock := wlockValue sys wlock } }).2

/-- Initial field values of a created queue. -/
def initQueue (conf : UcmqConf) (q : MqQueue) : MqQueue :=
  { q with
    curRdb := { q.curRdb with pos := 128, optCount := 0 }
    curWdb := { q.curWdb with pos := 128, optCount := 0 }
    delay := conf.defDelay
    maxque := conf.defMaxQueue
    putNum := 0
    getNum := 0
    unreadCount := 0
    wlock := 0 }

/-- Create a queue on disk and initialise its record. -/
def createQueue (conf : UcmqConf) (sys : Sys) (dir : Option Dir) : Option Dir × Option Store :=
  match mqSmCreatDb conf sys dir MqQueue.zero with
  | (dir, none) => (dir, none)
  | (dir, some s) => (dir, some { s with q := initQueue conf s.q })

/-- Load a queue from its directory. The resources held afterwards are also
returned when it cannot be loaded. -/
def openQueue (conf : UcmqConf) (sys : Sys) (listing : List Fname) (dir : Dir) :
    Option MqQueue × Proc :=
  match findHandleFile sys listing with
  | none => (none, Proc.empty)
  | some qf =>
    match mqSmRtagOpenFile sys (fnameIndex qf.rtagFname) dir Proc.empty with
    | none => (none, Proc.empty)
    | some (t, proc) =>
      let q := mqSmRtagReadItem conf t { MqQueue.zero with rtagFd := some 0 }
      mqSmOpenDb conf sys qf dir proc q

/-- A listed queue. -/
structure QueueEntry where
  /-- Key of the entry. -/
  qname : String
  /-- Resources held for the queue. -/
  proc : Proc
  /-- Record of the queue. -/
  q : MqQueue

/-- Counters of app_info_t that requests and start maintain. -/
structure AppInfo where
  /-- Accepted puts. -/
  put : ℕ
  /-- Successful gets. -/
  get : ℕ
  /-- Bytes put. -/
  putSize : ℕ
  /-- Messages believed unread over all queues. -/
  count : ℤ
  deriving DecidableEq

/-- State of the server. -/
structure Server where
  /-- Configuration. -/
  conf : UcmqConf
  /-- Queue directories under the data path. -/
  dirs : String → Option Dir
  /-- Listed queues, newest first. -/
  qlist : List QueueEntry
  /-- Global counters. -/
  gInfo : AppInfo
  /-- Resources of queues that are not listed any more. -/
  orphans : List Proc

/-- The entry a lookup finds. -/
def hashFindQueueByKey (qname : String) (qlist : List QueueEntry) : Option QueueEntry :=
  qlist.find? fun e => e.qname = qname

/-- Replace the entry a lookup finds. -/
def hashSetQueue (e : QueueEntry) : List QueueEntry → List QueueEntry
  | [] => []
  | x :: l => if x.qname = e.qname then e :: l else x :: hashSetQueue e l

/-- Delete the entry a lookup finds. -/
def hashDelQueue (qname : String) : List QueueEntry → List QueueEntry
  | [] => []
  | x :: l => if x.qname = qname then l else x :: hashDelQueue qname l

/-- A listed queue with its directory. -/
def Server.store (s : Server) (e : QueueEntry) : Store :=
  ⟨(s.dirs e.qname).getD Dir.empty, e.proc, e.q⟩

/-- Put a queue back after an operation on it. -/
def Server.setStore (s : Server) (qname : String) (st : Store) : Server :=
  { s with
    dirs := Function.update s.dirs qname (some st.dir)
    qlist := hashSetQueue ⟨qname, st.proc, st.q⟩ s.qlist }

/-- Create and list a queue. -/
def mqQmAddQueue (sys : Sys) (qname : String) (s : Server) : Bool × Server :=
  if s.conf.maxQlistItmes ≤ s.qlist.length then (false, s)
  else
    match createQueue s.conf sys (s.dirs qname) with
    | (dir, none) => (false, { s with dirs := Function.update s.dirs qname dir })
    | (dir, some st) =>
      (true, { s with
        dirs := Function.update s.dirs qname dir
        qlist := ⟨qname, st.proc, st.q⟩ :: s.qlist })

/-- Close, remove and unlist a queue. The files are closed before the directory
is found to be removable, and the position log is not closed at all. -/
def mqQmDelQueue (sys : Sys) (qname : String) (s : Server) : Bool × Server :=
  match hashFindQueueByKey qname s.qlist with
  | none => (false, s)
  | some e =>
    let st := mqSmCloseDb (s.store e)
    match mqSmRemoveDb sys (s.dirs qname) with
    | (false, _) => (false, { s with qlist := hashSetQueue ⟨qname, st.proc, st.q⟩ s.qlist })
    | (true, dir) =>
      (true, { s with
        dirs := Function.update s.dirs qname dir
        qlist := hashDelQueue qname s.qlist
        orphans := st.proc :: s.orphans })

/-- Close the position log and the data files of a queue. -/
def closeQueue (s : Store) : Proc := (mqSmCloseDb { s with proc := s.proc.close s.q.rtagFd }).proc

/-- Close all queues and clear the list. -/
def mqQmCloseStore (s : Server) : Server :=
  { s with qlist := [], orphans := s.qlist.map (fun e => closeQueue (s.store e)) ++ s.orphans }

/-- Load one queue directory, if there is one under that name. -/
def openStoreStep (sys : String → Sys) (listing : String → List Fname) (s : Server)
    (qname : String) :
    Server :=
  match s.dirs qname with
  | none => s
  | some dir =>
    match openQueue s.conf (sys qname) (listing qname) dir with
    | (none, proc) => { s with orphans := proc :: s.orphans }
    | (some q, proc) => { s with qlist := ⟨qname, proc, q⟩ :: s.qlist }

/-- Load every queue of the data path, in the order its directory is listed. -/
def mqQmOpenStore (sys : String → Sys) (names : List String) (listing : String → List Fname)
    (s : Server) : Server :=
  names.foldl (openStoreStep sys listing) s

/-- Count one listed queue. -/
def countEntry (sys : String → Sys) (listing : String → List Fname) (s : Server) (e : QueueEntry) :
    QueueEntry :=
  ⟨e.qname, e.proc, (mqSmGetMsgCount s.conf (sys e.qname) (listing e.qname) (s.store e)).q⟩

/-- Count the unread messages of all listed queues. -/
def mqQmGetStoreCount (sys : String → Sys) (listing : String → List Fname) (s : Server) :
    ℤ × Server :=
  let qlist := s.qlist.map (countEntry sys listing s)
  ((qlist.map fun e => (e.q.unreadCount : ℤ)).sum, { s with qlist := qlist })

/-- The end of a process that closed its store. -/
def endProcess (s : Server) : Server :=
  { mqQmCloseStore s with orphans := [], gInfo := ⟨0, 0, 0, 0⟩ }

/-- A clean restart: close the store, end the process, and start over. -/
def restartServer (sys : String → Sys) (names : List String) (listing : String → List Fname)
    (s : Server) : Server :=
  let counted := mqQmGetStoreCount sys listing (mqQmOpenStore sys names listing (endProcess s))
  { counted.2 with gInfo := { counted.2.gInfo with count := counted.1 } }

end Ucmq.QueueManage
