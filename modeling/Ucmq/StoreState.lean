import Ucmq.StoreMsg
import Mathlib.Logic.Function.Basic

/-!
# State of one queue on disk and in the process

A queue owns a directory of data files and position logs, the descriptors and
mappings the process holds for it, and the in-memory record of mq_util.h.
The process gives a number it has released to the next file it opens or maps,
for whichever queue. Here no number is given twice, so what a queue reaches
through a released number is left open: the access is a fault, which stands for
whatever lies there by then. Where a queue uses none, the table of the process is
the union of the tables of the queues. 64-bit counters and file indices are
natural numbers; 32-bit fields are reduced where they are computed.
Answers of the system calls are inputs.
-/

namespace Ucmq.StoreState

open ByteRegion StoreConfig StoreMsg

/-- Data file contents up to its size. -/
structure DbFile where
  /-- File size in bytes. -/
  size : ℕ
  /-- Bytes by offset. -/
  data : Region

/-- Names of the two kinds of files in a queue directory. -/
inductive Fname where
  | db (index : ℕ)
  | rtag (index : ℕ)
  deriving DecidableEq

/-- Queue directory: data files and position logs by index. -/
structure Dir where
  /-- Data files. -/
  db : ℕ → Option DbFile
  /-- Text of the position logs. -/
  rtag : ℕ → Option (List Char)

/-- A directory just made. -/
def Dir.empty : Dir := ⟨fun _ => none, fun _ => none⟩

/-- Create, replace or remove a data file. -/
def Dir.setDb (dir : Dir) (i : ℕ) (f : Option DbFile) : Dir :=
  { dir with db := Function.update dir.db i f }

/-- Create, replace or remove a position log. -/
def Dir.setRtag (dir : Dir) (i : ℕ) (t : Option (List Char)) : Dir :=
  { dir with rtag := Function.update dir.rtag i t }

/-- The named file exists. -/
def Dir.has (dir : Dir) : Fname → Bool
  | .db i => (dir.db i).isSome
  | .rtag i => (dir.rtag i).isSome

/-- What an open descriptor refers to. A position log is written at the end of
the file or at the descriptor's own offset. -/
inductive FdRef where
  | db (index : ℕ)
  | rtag (index : ℕ) (append : Bool) (offset : ℕ)
  deriving DecidableEq

/-- The part of the table of the process that belongs to one queue: the descriptors
and mappings it was given and has not released. -/
structure Proc where
  /-- Live mappings: address to data file index. -/
  maps : ℕ → Option ℕ
  /-- Open descriptors. -/
  fds : ℕ → Option FdRef
  /-- Next unused descriptor or address. -/
  next : ℕ

/-- A process that holds nothing yet. -/
def Proc.empty : Proc := ⟨fun _ => none, fun _ => none, 0⟩

/-- Allocate a descriptor; its number is the old value of next. -/
def Proc.openFd (proc : Proc) (ref : FdRef) : Proc :=
  { proc with fds := Function.update proc.fds proc.next (some ref), next := proc.next+1 }

/-- Allocate a mapping; its address is the old value of next. -/
def Proc.mmap (proc : Proc) (i : ℕ) : Proc :=
  { proc with maps := Function.update proc.maps proc.next (some i), next := proc.next+1 }

/-- Close a descriptor. An invalid one is left alone. -/
def Proc.close (proc : Proc) : Option ℕ → Proc
  | none => proc
  | some fd => { proc with fds := Function.update proc.fds fd none }

/-- Release a mapping. -/
def Proc.munmap (proc : Proc) : Option ℕ → Proc
  | none => proc
  | some addr => { proc with maps := Function.update proc.maps addr none }

/-- Cursor of a queue into its data files (mq_db_map_t). -/
structure MqDbMap where
  /-- Descriptor of the file. -/
  fd : Option ℕ
  /-- Mapped flag. -/
  flag : Bool
  /-- Address of the mapping, absent when null. -/
  mapMem : Option ℕ
  /-- Position in the file. -/
  pos : ℕ
  /-- Operations counted in the file. -/
  optCount : ℕ
  /-- Index of the file. -/
  curIndex : ℕ

/-- In-memory record of a queue (mq_queue_t). -/
structure MqQueue where
  /-- Descriptor of the position log. -/
  rtagFd : Option ℕ
  /-- Write lock: -1, zero or a deadline. -/
  wlock : ℤ
  /-- Puts until the next sync. -/
  syncIntv : ℤ
  /-- Delivery delay in seconds. -/
  delay : ℕ
  /-- Capacity, zero for none. -/
  maxque : ℕ
  /-- Accepted puts. -/
  putNum : ℕ
  /-- Successful gets. -/
  getNum : ℕ
  /-- Messages believed unread. -/
  unreadCount : ℕ
  /-- Read cursor. -/
  curRdb : MqDbMap
  /-- Write cursor. -/
  curWdb : MqDbMap

/-- The zeroed cursor. -/
def MqDbMap.zero : MqDbMap := ⟨none, false, none, 0, 0, 0⟩

/-- The zeroed queue record. -/
def MqQueue.zero : MqQueue := ⟨none, 0, 0, 0, 0, 0, 0, 0, .zero, .zero⟩

/-- One queue: its directory, its process resources and its record. -/
structure Store where
  /-- Directory on disk. -/
  dir : Dir
  /-- Descriptors and mappings. -/
  proc : Proc
  /-- In-memory record. -/
  q : MqQueue

/-- Places from which a position record is written. -/
inductive RtagSite where
  | creatDb
  | nextRead (index : ℕ)
  | nextWrite
  | item
  deriving DecidableEq

/-- Answers of the environment during one request: clock, free storage and the
outcome of every system call that can fail. -/
structure Sys where
  /-- Clock reading in seconds, an int. -/
  now : ℤ
  /-- Free storage in gigabytes, an int. -/
  freeGb : ℤ
  /-- Size of a file of the working directory by bare name, negative if absent. -/
  cwdSize : Fname → ℤ
  /-- Opening the position log of an index. -/
  rtagOpen : ℕ → Bool
  /-- Opening the data file of an index. -/
  dbOpen : ℕ → Bool
  /-- Extending the data file of an index. -/
  ftruncate : ℕ → Bool
  /-- Mapping the data file of an index. -/
  mmap : ℕ → Bool
  /-- Characters of a position record that reach the file. -/
  rtagWrite : RtagSite → ℕ
  /-- Removing a file. -/
  unlink : Fname → Bool
  /-- Access check of a queue directory before it is removed. -/
  accessRemove : Bool
  /-- Access check of a queue directory before it is created. -/
  accessCreat : Bool
  /-- Removing a queue directory. -/
  rmdir : Bool
  /-- Creating a queue directory. -/
  mkdir : Bool

/-- No system call fails. Clock and free storage are not constrained. -/
structure Sys.Ok (sys : Sys) : Prop where
  rtagOpen : ∀ i, sys.rtagOpen i = true
  dbOpen : ∀ i, sys.dbOpen i = true
  ftruncate : ∀ i, sys.ftruncate i = true
  mmap : ∀ i, sys.mmap i = true
  rtagWrite : ∀ site, 61 ≤ sys.rtagWrite site
  unlink : ∀ f, sys.unlink f = true
  accessRemove : sys.accessRemove = true
  accessCreat : sys.accessCreat = true
  rmdir : sys.rmdir = true
  mkdir : sys.mkdir = true

/-- An environment in which every call succeeds. -/
def Sys.quiet (now freeGb : ℤ) : Sys where
  now := now
  freeGb := freeGb
  cwdSize _ := -1
  rtagOpen _ := true
  dbOpen _ := true
  ftruncate _ := true
  mmap _ := true
  rtagWrite _ := 61
  unlink _ := true
  accessRemove := true
  accessCreat := true
  rmdir := true
  mkdir := true

/-- With these answers no call fails. -/
theorem Sys.quiet_ok (now freeGb : ℤ) : (Sys.quiet now freeGb).Ok := by
  constructor <;> simp [Sys.quiet]

/-- Free storage is below the reserve. The signed reading is compared as an
unsigned 64-bit value. -/
def storageLow (conf : UcmqConf) (sys : Sys) : Bool := (sys.freeGb%2^64).toNat < conf.resStoreSpace

/-- Outcomes of a process that is not running any more, or of a loop whose fuel
was too small. -/
inductive Fault where
  | segv
  | fuel
  deriving DecidableEq

/-- Contents behind an address: absent for null, a fault for an address that
is not mapped or whose file does not cover the mapping. -/
def Store.mapView (conf : UcmqConf) (s : Store) : Option ℕ → Except Fault (Option Region)
  | none => .ok none
  | some addr =>
    match (s.proc.maps addr).bind s.dir.db with
    | none => .error .segv
    | some f => if f.size < maxDbFileSize conf then .error .segv else .ok (some f.data)

/-- Copy bytes to a position behind an address. -/
def Store.mapWrite (conf : UcmqConf) (s : Store) (mapMem : Option ℕ) (p : ℕ) (bs : List UInt8) :
    Except Fault Store :=
  match mapMem.bind s.proc.maps with
  | none => .error .segv
  | some i =>
    match s.dir.db i with
    | none => .error .segv
    | some f =>
      if f.size < maxDbFileSize conf ∨ maxDbFileSize conf < p+bs.length then .error .segv
      else .ok { s with dir := s.dir.setDb i (some { f with data := writeAt f.data p bs }) }

/-- Data files after one was replaced. -/
@[simp] theorem Dir.setDb_db (dir : Dir) (i : ℕ) (f : Option DbFile) :
    (dir.setDb i f).db = Function.update dir.db i f := rfl

/-- Replacing a data file leaves the logs alone. -/
@[simp] theorem Dir.setDb_rtag (dir : Dir) (i : ℕ) (f : Option DbFile) :
    (dir.setDb i f).rtag = dir.rtag := rfl

/-- Replacing a log leaves the data files alone. -/
@[simp] theorem Dir.setRtag_db (dir : Dir) (i : ℕ) (t : Option (List Char)) :
    (dir.setRtag i t).db = dir.db := rfl

/-- Logs after one was replaced. -/
@[simp] theorem Dir.setRtag_rtag (dir : Dir) (i : ℕ) (t : Option (List Char)) :
    (dir.setRtag i t).rtag = Function.update dir.rtag i t := rfl

/-- Opening a file maps nothing. -/
@[simp] theorem Proc.openFd_maps (proc : Proc) (ref : FdRef) : (proc.openFd ref).maps = proc.maps :=
  rfl

/-- A new descriptor refers to what was opened. -/
@[simp] theorem Proc.openFd_fds (proc : Proc) (ref : FdRef) :
    (proc.openFd ref).fds = Function.update proc.fds proc.next (some ref) := rfl

/-- Opening a file takes a number. -/
@[simp] theorem Proc.openFd_next (proc : Proc) (ref : FdRef) :
    (proc.openFd ref).next = proc.next+1 := rfl

/-- A new address leads to the file that was mapped. -/
@[simp] theorem Proc.mmap_maps (proc : Proc) (i : ℕ) :
    (proc.mmap i).maps = Function.update proc.maps proc.next (some i) := rfl

/-- Mapping a file opens nothing. -/
@[simp] theorem Proc.mmap_fds (proc : Proc) (i : ℕ) : (proc.mmap i).fds = proc.fds := rfl

/-- Mapping a file takes a number. -/
@[simp] theorem Proc.mmap_next (proc : Proc) (i : ℕ) : (proc.mmap i).next = proc.next+1 := rfl

/-- Closing a descriptor unmaps nothing. -/
@[simp] theorem Proc.close_maps (proc : Proc) (fd : Option ℕ) :
    (proc.close fd).maps = proc.maps := by
  cases fd <;> rfl

/-- Closing a descriptor gives no number back. -/
@[simp] theorem Proc.close_next (proc : Proc) (fd : Option ℕ) :
    (proc.close fd).next = proc.next := by
  cases fd <;> rfl

/-- Unmapping closes nothing. -/
@[simp] theorem Proc.munmap_fds (proc : Proc) (addr : Option ℕ) :
    (proc.munmap addr).fds = proc.fds := by
  cases addr <;> rfl

/-- Unmapping gives no number back. -/
@[simp] theorem Proc.munmap_next (proc : Proc) (addr : Option ℕ) :
    (proc.munmap addr).next = proc.next := by
  cases addr <;> rfl

/-- Closing affects only the closed descriptor. -/
theorem Proc.close_fds_apply (proc : Proc) (fd : Option ℕ) (x : ℕ) :
    (proc.close fd).fds x = if fd = some x then none else proc.fds x := by
  cases fd with
  | none => simp [Proc.close]
  | some y => simp [Proc.close, Function.update_apply, eq_comm]

/-- Releasing affects only the released address. -/
theorem Proc.munmap_maps_apply (proc : Proc) (addr : Option ℕ) (a : ℕ) :
    (proc.munmap addr).maps a = if addr = some a then none else proc.maps a := by
  cases addr with
  | none => simp [Proc.munmap]
  | some b => simp [Proc.munmap, Function.update_apply, eq_comm]

end Ucmq.StoreState
