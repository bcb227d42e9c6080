import Ucmq.StoreRtag

/-!
# Data files, file switches and the choice of files at start

The functions of mq_store_file.c, with the file head write of mq_store_msg.c
that they share. A read switch replaces the position log and removes the read
file; a write switch releases the old write file first when the reader is not
in it, and only then checks the free storage. At start the read file, the write
file and the position log are chosen by comparing names as strings.
-/

namespace Ucmq.StoreFile

open ByteRegion DecimalText StoreConfig StoreMsg StoreState StoreRtag

/-- How a data file is opened. -/
inductive FileOpenFlag where
  | create
  | open
  deriving DecidableEq

/-- File name as text: a fixed word and a zero-padded index. -/
def fnameText : Fname → List Char
  | .db i => ['d', 'b', '_'] ++ padDec 12 i
  | .rtag i => ['r', 't', 'a', 'g', '_'] ++ padDec 12 i

/-- A new data file, created but not extended. -/
def DbFile.blank : DbFile := ⟨0, fun _ => 0⟩

/-- Set the size and overwrite the last byte with the digit zero. A file that
stays empty is refused. -/
def extendFileSize (conf : UcmqConf) (sys : Sys) (i : ℕ) (f : DbFile) : Option DbFile :=
  let f := if sys.ftruncate i then
      { size := maxDbFileSize conf, data := fun k => if k < f.size then f.data k else 0 }
    else f
  if f.size = 0 then none else some { f with data := writeAt f.data (f.size-1) (textBytes ['0']) }

/-- Map an opened data file, closing it again when that fails. -/
def mapOpened (sys : Sys) (i fd : ℕ) (dir : Dir) (proc : Proc) : Option ℕ × Option ℕ × Dir × Proc :=
  if sys.mmap i then (some fd, some proc.next, dir, proc.mmap i)
  else (some fd, none, dir, proc.close (some fd))

/-- Open and map a data file. The result holds the descriptor and the mapping
as the caller finds them, the mapping absent on failure. -/
def mqSmOpenDbFile (conf : UcmqConf) (sys : Sys) (i : ℕ) (flag : FileOpenFlag) (dir : Dir)
    (proc : Proc) : Option ℕ × Option ℕ × Dir × Proc :=
  match flag with
  | .create =>
    if sys.dbOpen i then
      let f := (dir.db i).getD DbFile.blank
      let dir := dir.setDb i (some f)
      let fd := proc.next
      let proc := proc.openFd (.db i)
      match extendFileSize conf sys i f with
      | none => (some fd, none, dir, proc.close (some fd))
      | some f => mapOpened sys i fd (dir.setDb i (some f)) proc
    else (none, none, dir, proc)
  | .open =>
    match dir.db i with
    | none => (none, none, dir, proc)
    | some f =>
      if sys.dbOpen i then
        let fd := proc.next
        let proc := proc.openFd (.db i)
        if f.size ≠ maxDbFileSize conf then (some fd, none, dir, proc.close (some fd))
        else mapOpened sys i fd dir proc
      else (none, none, dir, proc)

/-- Write version and message count to the head of the write file. -/
def mqSmDbWriteFileHead (conf : UcmqConf) (s : Store) : Except Fault Store :=
  s.mapWrite conf s.q.curWdb.mapMem 0 (dbFileHead s.q.curWdb.optCount)

/-- Remove a file from the directory unless that fails. -/
def unlinkFile (sys : Sys) (dir : Dir) (f : Fname) : Dir :=
  if sys.unlink f then
    match f with
    | .db i => dir.setDb i none
    | .rtag i => dir.setRtag i none
  else dir

/-- Last part of the read switch: borrow the writer's mapping or open the next
read file. On failure the new position log is closed again. -/
def openReadFile (conf : UcmqConf) (sys : Sys) (i : ℕ) (s : Store) : Bool × Store :=
  if i = s.q.curWdb.curIndex then
    (true, { s with q := { s.q with curRdb := { s.q.curRdb with
      mapMem := s.q.curWdb.mapMem, fd := s.q.curWdb.fd, flag := true } } })
  else
    match mqSmOpenDbFile conf sys i .open s.dir s.proc with
    | (fd, none, dir, proc) =>
      (false, ⟨dir, proc.close s.q.rtagFd, { s.q with curRdb := { s.q.curRdb with
        mapMem := none, fd := fd } }⟩)
    | (fd, some addr, dir, proc) =>
      (true, ⟨dir, proc, { s.q with curRdb := { s.q.curRdb with
        mapMem := some addr, fd := fd, flag := true } }⟩)

/-- Move the reader to the next data file. -/
def getNextReadFile (conf : UcmqConf) (sys : Sys) (s : Store) : Bool × Store :=
  let old := s.q.curRdb
  let nextIndex := old.curIndex+1
  if s.q.curWdb.curIndex < nextIndex then
    (false, { s with q := { s.q with curRdb := { old with curIndex := s.q.curWdb.curIndex } } })
  else
    match mqSmRtagOpenNextFile sys nextIndex s.dir s.proc with
    | (none, dir, proc) =>
      (false, ⟨dir, proc, { s.q with rtagFd := none, curRdb := { old with flag := false } }⟩)
    | (some fd, dir, proc) =>
      let q := { s.q with rtagFd := some fd, curRdb := { old with
        flag := false, curIndex := nextIndex, optCount := 0, pos := 128 } }
      let s' := (mqSmRtagWriteItem sys (.nextRead nextIndex) ⟨dir, proc, q⟩).2
      let dir := unlinkFile sys (unlinkFile sys s'.dir (.rtag old.curIndex)) (.db old.curIndex)
      let proc := ((s'.proc.close s.q.rtagFd).munmap old.mapMem).close old.fd
      openReadFile conf sys nextIndex ⟨dir, proc, s'.q⟩

/-- Release the write file unless the reader is in it. -/
def releaseWriteFile (s : Store) : Store :=
  if s.q.curRdb.curIndex < s.q.curWdb.curIndex then
    { s with
      proc := (s.proc.munmap s.q.curWdb.mapMem).close s.q.curWdb.fd
      q := { s.q with curWdb := { s.q.curWdb with flag := false } } }
  else s

/-- Move the writer to a new data file. -/
def getNextWriteFile (conf : UcmqConf) (sys : Sys) (s : Store) : Except Fault (Bool × Store) :=
  let nextIndex := s.q.curWdb.curIndex+1
  let s := releaseWriteFile s
  if storageLow conf sys then .ok (false, s)
  else
    match mqSmOpenDbFile conf sys nextIndex .create s.dir s.proc with
    | (fd, none, dir, proc) =>
      .ok (false, ⟨dir, proc, { s.q with curWdb := { s.q.curWdb with fd := fd, mapMem := none } }⟩)
    | (fd, some addr, dir, proc) => do
      let q := { s.q with curWdb := ⟨fd, true, some addr, 128, 0, nextIndex⟩ }
      let s ← mqSmDbWriteFileHead conf ⟨dir, proc, q⟩
      .ok (true, (mqSmRtagWriteItem sys .nextWrite s).2)

/-- Index from a file name: the value of its last token at underscores, as an
unsigned 64-bit number. -/
def getIdByFname (f : Fname) : ℕ :=
  match (strtok '_' [] (fnameText f)).getLast? with
  | none => 0
  | some token => (strtoll token%2^64).toNat

/-- Files chosen for a queue (queue_file_t). -/
structure QueueFile where
  /-- Position log. -/
  rtagFname : Fname
  /-- Data file with the least name. -/
  readFname : Fname
  /-- Data file with the greatest name. -/
  writeFname : Fname

/-- Running choice while a directory is listed. -/
structure FindState where
  /-- Least data file name so far. -/
  readFname : Option Fname
  /-- Greatest data file name so far. -/
  writeFname : Option Fname
  /-- Position log kept so far. -/
  rtagFname : Option Fname

/-- One directory entry. A second position log is measured and unlinked by its
bare name, that is in the working directory; when no such file is there the
entry is passed over. -/
def findStep (sys : Sys) (acc : FindState) (ent : Fname) : FindState :=
  match ent with
  | .db _ =>
    match acc.readFname, acc.writeFname with
    | some r, some w =>
      { acc with
        readFname := some (if fnameText ent < fnameText r then ent else r)
        writeFname := some (if fnameText w < fnameText ent then ent else w) }
    | _, _ => { acc with readFname := some ent, writeFname := some ent }
  | .rtag _ =>
    match acc.rtagFname with
    | none => { acc with rtagFname := some ent }
    | some t =>
      if sys.cwdSize ent < 0 then acc
      else { acc with rtagFname := some (if fnameText t < fnameText ent then ent else t) }

/-- Choose the files of a queue from a directory listing. -/
def findHandleFile (sys : Sys) (listing : List Fname) : Option QueueFile :=
  match listing.foldl (findStep sys) ⟨none, none, none⟩ with
  | ⟨some r, some w, some t⟩ => if getIdByFname t ≠ getIdByFname r then none else some ⟨t, r, w⟩
  | _ => none

end Ucmq.StoreFile
