import Ucmq.StoreFile

/-!
# Storing, reading and counting messages

The functions of mq_store_manage.c with the message write of mq_store_msg.c.
Reading is a loop over single steps, each of which ends the read or moves the
read cursor; its fuel is the remaining distance of the cursor, so it is never
exhausted by a cursor that moves forward.
-/

namespace Ucmq.StoreManage

open ByteRegion DecimalText StoreConfig StoreMsg StoreState StoreRtag StoreFile

/-- Copy a message to the write position and advance it. -/
def writeMsgBytes (conf : UcmqConf) (item : MsgItem) (s : Store) : Except Fault Store := do
  let s ← s.mapWrite conf s.q.curWdb.mapMem s.q.curWdb.pos (msgBytes item)
  .ok { s with q := { s.q with
    curWdb := { s.q.curWdb with
      pos := u32 (s.q.curWdb.pos+(item.len+12))
      optCount := u32 (s.q.curWdb.optCount+1) }
    putNum := s.q.putNum+1 } }

/-- The message does not fit into the rest of the write file. -/
def needsRotation (conf : UcmqConf) (q : MqQueue) (len : ℕ) : Prop :=
  maxDbFileSize conf < u32 (q.curWdb.pos+len+12)

instance (conf : UcmqConf) (q : MqQueue) (len : ℕ) : Decidable (needsRotation conf q len) :=
  inferInstanceAs (Decidable (_ < _))

/-- Write a message, moving to the next write file when it does not fit. -/
def mqSmDbWriteMsg (conf : UcmqConf) (sys : Sys) (item : MsgItem) (s : Store) :
    Except Fault (Bool × Store) :=
  if needsRotation conf s.q item.len then do
    let s ← mqSmDbWriteFileHead conf s
    match ← getNextWriteFile conf sys s with
    | (false, s) => .ok (false, s)
    | (true, s) => do
      let s ← writeMsgBytes conf item s
      .ok (true, s)
  else do
    let s ← writeMsgBytes conf item s
    .ok (true, s)

/-- Compute the checksum and write the message. -/
def mqSmPutData (conf : UcmqConf) (sys : Sys) (item : MsgItem) (s : Store) :
    Except Fault (Bool × Store) :=
  (mqSmDbBuildMsgCrc16 (fun n => item.msg.take n) (toI32 item.len)).elim
    (.ok (false, s)) fun crc16 =>
    mqSmDbWriteMsg conf sys { item with crc16 := crc16 } s

/-- Outcome of one step of the read loop. -/
inductive GetStep where
  | done (ret : Option MsgItem) (s : Store)
  | again (s : Store)

/-- The message is younger than the delay of the queue. The age is an unsigned
32-bit difference. -/
def tooYoung (sys : Sys) (delay time : ℕ) : Prop :=
  delay ≠ 0 ∧ ((sys.now-time)%2^32).toNat < delay

instance (sys : Sys) (delay time : ℕ) : Decidable (tooYoung sys delay time) :=
  inferInstanceAs (Decidable (_ ∧ _))

/-- Move the read position. -/
def setReadPos (s : Store) (pos : ℕ) : Store :=
  { s with q := { s.q with curRdb := { s.q.curRdb with pos := pos } } }

/-- Consume a message of the given length. -/
def takeMsg (s : Store) (len : ℕ) : Store :=
  { s with q := { s.q with
    curRdb := { s.q.curRdb with
      pos := u32 (s.q.curRdb.pos+(len+12))
      optCount := u32 (s.q.curRdb.optCount+1) }
    getNum := s.q.getNum+1
    unreadCount := s.q.unreadCount-1 } }

/-- One iteration of the read loop. -/
def getDataStep (conf : UcmqConf) (sys : Sys) (s : Store) : Except Fault GetStep :=
  if s.q.curRdb.curIndex = s.q.curWdb.curIndex ∧ s.q.curWdb.pos ≤ u32 (s.q.curRdb.pos+12) then
    .ok (.done none { s with q := { s.q with
      curRdb := { s.q.curRdb with pos := s.q.curWdb.pos }, unreadCount := 0 } })
  else
    match s.mapView conf s.q.curRdb.mapMem with
    | .error e => .error e
    | .ok view =>
      match mqSmDbParseMsg conf view s.q.curRdb.pos with
      | .ok item =>
        if tooYoung sys s.q.delay item.delay then .ok (.done none s)
        else .ok (.done (some item) (takeMsg s item.len))
      | .magNumErr => .ok (.again (setReadPos s (u32 (s.q.curRdb.pos+1))))
      | .parseErr => .ok (.again (setReadPos s (u32 (s.q.curRdb.pos+2))))
      | .crcErr => .ok (.again (setReadPos s (u32 (s.q.curRdb.pos+2))))
      | .msgErr =>
        match getNextReadFile conf sys s with
        | (false, s) => .ok (.done none s)
        | (true, s) => .ok (.again s)
      | .lenBey =>
        match getNextReadFile conf sys s with
        | (false, s) => .ok (.done none s)
        | (true, s) => .ok (.again s)

/-- The read loop. -/
def getDataLoop (conf : UcmqConf) (sys : Sys) : ℕ → Store → Except Fault (Option MsgItem × Store)
  | 0, _ => .error .fuel
  | fuel+1, s =>
    match getDataStep conf sys s with
    | .error e => .error e
    | .ok (.done ret s) => .ok (ret, s)
    | .ok (.again s) => getDataLoop conf sys fuel s

/-- Distance of the read cursor from the end of the write file. -/
def readDistance (conf : UcmqConf) (s : Store) : ℕ :=
  (s.q.curWdb.curIndex-s.q.curRdb.curIndex)*(maxDbFileSize conf+1)+
    (maxDbFileSize conf-s.q.curRdb.pos)

/-- Read the next message, if there is one that may be delivered. -/
def mqSmGetData (conf : UcmqConf) (sys : Sys) (s : Store) : Except Fault (Option MsgItem × Store) :=
  getDataLoop conf sys (readDistance conf s+1) s

/-- Unmap and close one data file. -/
def mqSmCloseDbFile (mapMem fd : Option ℕ) (proc : Proc) : Proc := (proc.munmap mapMem).close fd

/-- Unmap and close the data files of a queue. -/
def mqSmCloseDb (s : Store) : Store :=
  let proc := if s.q.curRdb.curIndex ≠ s.q.curWdb.curIndex then
      mqSmCloseDbFile s.q.curRdb.mapMem s.q.curRdb.fd s.proc
    else s.proc
  { s with
    proc := mqSmCloseDbFile s.q.curWdb.mapMem s.q.curWdb.fd proc
    q := { s.q with
      curRdb := { s.q.curRdb with flag := false }
      curWdb := { s.q.curWdb with flag := false } } }

/-- Index in a file name. -/
def fnameIndex : Fname → ℕ
  | .db i => i
  | .rtag i => i

/-- Open the read and write files found at start. The resources already held
are returned also when the queue cannot be opened. -/
def mqSmOpenDb (conf : UcmqConf) (sys : Sys) (qf : QueueFile) (dir : Dir) (proc : Proc)
    (q : MqQueue) :
    Option MqQueue × Proc :=
  let rid := getIdByFname qf.readFname
  let wid := getIdByFname qf.writeFname
  let q := { q with
    curRdb := { q.curRdb with curIndex := rid }, curWdb := { q.curWdb with curIndex := wid } }
  if q.curWdb.flag then (none, proc)
  else
    match mqSmOpenDbFile conf sys (fnameIndex qf.writeFname) .open dir proc with
    | (_, none, _, proc) => (none, proc)
    | (wfd, some waddr, _, proc) =>
      if rid = wid then
        (some { q with
          curRdb := { q.curRdb with fd := wfd, mapMem := some waddr, flag := true }
          curWdb := { q.curWdb with fd := wfd, mapMem := some waddr, flag := true } }, proc)
      else if q.curRdb.flag then (none, mqSmCloseDbFile (some waddr) wfd proc)
      else
        match mqSmOpenDbFile conf sys (fnameIndex qf.readFname) .open dir proc with
        | (_, none, _, proc) => (none, mqSmCloseDbFile (some waddr) wfd proc)
        | (rfd, some raddr, _, proc) =>
          (some { q with
            curRdb := { q.curRdb with fd := rfd, mapMem := some raddr, flag := true }
            curWdb := { q.curWdb with fd := wfd, mapMem := some waddr, flag := true } }, proc)

/-- Remove a queue directory with its files. Files that cannot be removed keep
the directory. -/
def deleteFile (sys : Sys) (dir : Dir) : Option Dir :=
  if sys.rmdir then none
  else some ⟨fun i => if sys.unlink (.db i) then none else dir.db i,
    fun i => if sys.unlink (.rtag i) then none else dir.rtag i⟩

/-- Directory after an existing one was wiped and a missing one created. -/
def touchQueuePath (sys : Sys) (dir : Option Dir) : Option Dir :=
  let dir := match dir with
    | some d => if sys.accessCreat then deleteFile sys d else some d
    | none => none
  match dir with
  | some d => some d
  | none => if sys.mkdir then some Dir.empty else none

/-- Create the directory and the first files of a queue. The position record
is written while the cursors of the queue are still zero. -/
def mqSmCreatDb (conf : UcmqConf) (sys : Sys) (dir : Option Dir) (q : MqQueue) :
    Option Dir × Option Store :=
  if storageLow conf sys then (dir, none)
  else
    match touchQueuePath sys dir with
    | none => (none, none)
    | some d =>
      match mqSmRtagOpenNextFile sys 1 d Proc.empty with
      | (none, d, _) => (some d, none)
      | (some fd, d, proc) =>
        match mqSmOpenDbFile conf sys 1 .create d proc with
        | (_, none, d, _) => (some d, none)
        | (wfd, some addr, d, proc) =>
          let q := { q with
            rtagFd := some fd
            curWdb := { q.curWdb with fd := wfd, mapMem := some addr }
            maxque := conf.defMaxQueue
            delay := conf.defDelay }
          let s := (mqSmRtagWriteItem sys .creatDb ⟨d, proc, q⟩).2
          (some s.dir, some { s with q := { s.q with
            curWdb := { s.q.curWdb with curIndex := 1, flag := true }
            curRdb :=
              { s.q.curRdb with curIndex := 1, flag := true, mapMem := some addr, fd := wfd } } })

/-- Remove the directory of a queue if it can be accessed. -/
def mqSmRemoveDb (sys : Sys) (dir : Option Dir) : Bool × Option Dir :=
  match dir with
  | some d => if sys.accessRemove then (true, deleteFile sys d) else (false, some d)
  | none => (false, none)

/-- Messages counted for one data file: the count in its head, or a scan when
the head holds none. -/
def dbFileCount (conf : UcmqConf) (q : MqQueue) (d : Region) : ℤ :=
  let tmpCount := dbFileHeadCount d
  if tmpCount ≠ 0 ∧ tmpCount < (maxDbFileSize conf/12 : ℕ) then tmpCount
  else if q.curWdb.curIndex = q.curRdb.curIndex then mqSmDbCalMsgCount conf d q.curWdb.pos
  else mqSmDbCalMsgCount conf d (maxDbFileSize conf)

/-- Contribution of one directory entry to the message count. -/
def entCount (conf : UcmqConf) (sys : Sys) (s : Store) : Fname → ℤ
  | .db i =>
    match s.dir.db i with
    | some f => if sys.dbOpen i then dbFileCount conf s.q f.data else 0
    | none => 0
  | .rtag _ => 0

/-- Count the unread messages of a queue after start. -/
def mqSmGetMsgCount (conf : UcmqConf) (sys : Sys) (listing : List Fname) (s : Store) : Store :=
  if s.q.unreadCount ≠ 0 then s
  else
    let all := (listing.map (entCount conf sys s)).sum
    { s with q := { s.q with
      getNum := s.q.curRdb.optCount
      putNum := all.toNat
      unreadCount := if s.q.curRdb.optCount ≤ all then (all-s.q.curRdb.optCount).toNat else 0 } }

end Ucmq.StoreManage
