import Ucmq.ResourceOwnership

/-!
# Ownership at start and over whole runs

At start, a directory whose position log opens and whose data files do not
leaves the descriptor of the log behind, and every other directory leaves
nothing or a queue that owns what it refers to. Requests keep this except for
the deletion of a listed queue, which never closes its position log, and a put
that is refused storage for a new file while the reader is behind.
-/

namespace Ucmq.OwnershipRuns

open LabelledRun DecimalText StoreConfig StoreMsg StoreState StoreRtag StoreFile StoreManage
open QueueManage StoreInvariant HandleFile Recovery Evhttp QueueStep QueueSlots RequestEffect
open ServerRun FifoRefinement RotationRuns UnreadCount CursorInvariant DirectoryLayout
open ResourceOwnership

variable {conf : UcmqConf} {sys : Sys} {s : Store} {proc : Proc}

/-- The files of a queue just created. -/
theorem shape_created (conf : UcmqConf) :
    Shape conf (created conf).dir (created conf).q.curRdb.curIndex
      (created conf).q.curWdb.curIndex := by
  have hlayout := layout_of_sound (sound_created conf).1
  refine ⟨le_rfl, hlayout.dbs, fun i f hf => ?_, hlayout.rtag⟩
  by_cases hi : i = 1
  · simp only [created, hi, Dir.setDb_db, Function.update_self, Option.some.injEq] at hf
    rw [← hf]
  · simp [created, hi, Dir.empty] at hf

/-- A created queue owns what it refers to. -/
theorem created_owned (conf : UcmqConf) : Owned conf (created conf) := by
  refine ⟨⟨0, 1, 1, 2, 2, rfl, rfl, rfl, rfl, rfl, fun x => ?_, fun x => ?_, ?_, by decide,
    fun _ => ⟨rfl, rfl⟩, fun hlt => absurd hlt (lt_irrefl 1)⟩, shape_created conf⟩
  · by_cases h1 : x = 1
    · simp [openFds, created, h1]
    by_cases h0 : x = 0
    · simp [openFds, created, h0]
    · simp [openFds, created, h1, h0]
  · by_cases h2 : x = 2
    · simp [liveMaps, created, h2]
    · simp [liveMaps, created, h2]
  · simp [created]

/-- A data file of full size that can be opened and mapped. -/
structure Openable (conf : UcmqConf) (sys : Sys) (dir : Dir) (i : ℕ) : Prop where
  file : ∃ f, dir.db i = some f ∧ f.size = maxDbFileSize conf
  dbOpen : sys.dbOpen i = true
  mmap : sys.mmap i = true

/-- The data files chosen at start can be opened. A read file with the number of
the write file is not opened again. -/
structure FilesOpen (conf : UcmqConf) (sys : Sys) (dir : Dir) (qf : QueueFile) : Prop where
  write : Openable conf sys dir (fnameIndex qf.writeFname)
  read : getIdByFname qf.readFname ≠ getIdByFname qf.writeFname →
    Openable conf sys dir (fnameIndex qf.readFname)

/-- Files are chosen and the position log among them opens, but the data files
do not. -/
def HalfLoads (conf : UcmqConf) (sys : Sys) (listing : List Fname) (dir : Dir) : Prop :=
  ∃ qf, findHandleFile sys listing = some qf ∧
    (mqSmRtagOpenFile sys (fnameIndex qf.rtagFname) dir Proc.empty).isSome = true ∧
    ¬FilesOpen conf sys dir qf

variable {dir : Dir} {i : ℕ}

/-- A data file that can be opened is opened and mapped. -/
theorem openDbFile_of_openable (h : Openable conf sys dir i) (proc : Proc) :
    mqSmOpenDbFile conf sys i .open dir proc =
      (some proc.next, some (proc.next+1), dir, (proc.openFd (.db i)).mmap i) := by
  obtain ⟨⟨f, hf, hsize⟩, hopen, hmap⟩ := h
  simp [mqSmOpenDbFile, hf, hopen, hsize, mapOpened, hmap]

/-- A file that cannot be opened and mapped leaves nothing open. -/
theorem openDbFile_of_not_openable (h : ¬Openable conf sys dir i)
    (hfresh : proc.next ∉ openFds proc) :
    ∃ fd proc', mqSmOpenDbFile conf sys i .open dir proc = (fd, none, dir, proc') ∧
      openFds proc' = openFds proc ∧ liveMaps proc' = liveMaps proc := by
  have hclosed : openFds ((proc.openFd (.db i)).close (some proc.next)) = openFds proc := by
    ext x
    rw [mem_openFds_close, mem_openFds_openFd]
    by_cases hx : x = proc.next
    · rw [hx]
      exact ⟨fun hand => absurd rfl hand.2, fun hopen => absurd hopen hfresh⟩
    · simp [hx]
  have hmaps : liveMaps ((proc.openFd (.db i)).close (some proc.next)) = liveMaps proc := by simp
  unfold mqSmOpenDbFile
  cases hf : dir.db i with
  | none => exact ⟨none, proc, rfl, rfl, rfl⟩
  | some f =>
    cases hopen : sys.dbOpen i with
    | false => exact ⟨none, proc, rfl, rfl, rfl⟩
    | true =>
      by_cases hsize : f.size = maxDbFileSize conf
      · cases hmap : sys.mmap i with
        | true => exact absurd ⟨⟨f, hf, hsize⟩, hopen, hmap⟩ h
        | false =>
          refine ⟨some proc.next, _, ?_, hclosed, hmaps⟩
          simp [hsize, mapOpened, hmap]
      · refine ⟨some proc.next, _, ?_, hclosed, hmaps⟩
        simp [hsize]

/-- Descriptors and mappings after the position log was opened. -/
theorem openLog_owned (ref : FdRef) :
    (∀ x, x ∈ openFds (Proc.empty.openFd ref) ↔ x = 0) ∧
      (∀ x, x ∈ liveMaps (Proc.empty.openFd ref) ↔ False) ∧ (Proc.empty.openFd ref).next = 1 := by
  refine ⟨fun x => ?_, fun x => ?_, rfl⟩
  · rw [mem_openFds_openFd]
    simp [Proc.empty, openFds]
  · simp [liveMaps, Proc.empty]

/-- Data files that open are owned by the loaded queue. -/
theorem openDb_loaded {qf : QueueFile} {q : MqQueue} (h : FilesOpen conf sys dir qf) (ref : FdRef)
    (hr : q.curRdb.flag = false) (hw : q.curWdb.flag = false) (hlog : q.rtagFd = some 0) :
    ∃ q' proc' r w a b, mqSmOpenDb conf sys qf dir (Proc.empty.openFd ref) q = (some q', proc') ∧
      Numbers ⟨dir, proc', q'⟩ 0 r w a b ∧ q'.curRdb.curIndex = getIdByFname qf.readFname ∧
      q'.curWdb.curIndex = getIdByFname qf.writeFname := by
  obtain ⟨hfds, hmaps, hnext⟩ := openLog_owned ref
  generalize Proc.empty.openFd ref = proc at hfds hmaps hnext
  unfold mqSmOpenDb
  simp only [hw, hr, Bool.false_eq_true, if_false, openDbFile_of_openable h.write]
  by_cases hsame : getIdByFname qf.readFname = getIdByFname qf.writeFname
  · simp only [if_pos hsame]
    refine ⟨_, _, 1, 1, 2, 2, rfl, ⟨hlog, ?_, ?_, ?_, ?_, fun x => ?_, fun x => ?_, ?_, by decide,
      fun _ => ⟨rfl, rfl⟩, fun hlt => ?_⟩, rfl, rfl⟩
    · simp [hnext]
    · simp [hnext]
    · simp [hnext]
    · simp [hnext]
    · simp only [openFds_mmap, mem_openFds_openFd, hfds, hnext]
      omega
    · simp only [mem_liveMaps_mmap, liveMaps_openFd, hmaps, Proc.openFd_next, hnext,
        or_false, or_self]
    · simp [hnext]
    · exact absurd hsame (ne_of_lt hlt)
  · simp only [if_neg hsame, openDbFile_of_openable (h.read hsame)]
    refine ⟨_, _, 3, 1, 4, 2, rfl, ⟨hlog, ?_, ?_, ?_, ?_, fun x => ?_, fun x => ?_, ?_, by decide,
      fun heq => absurd heq hsame, fun _ => by decide⟩, rfl, rfl⟩
    · simp [hnext]
    · simp [hnext]
    · simp [hnext]
    · simp [hnext]
    · simp only [openFds_mmap, mem_openFds_openFd, hfds, hnext, Proc.mmap_next, Proc.openFd_next]
      omega
    · simp only [mem_liveMaps_mmap, liveMaps_openFd, hmaps, Proc.openFd_next, Proc.mmap_next,
        hnext, or_false]
    · simp [hnext]

/-- Data files that do not open leave the position log open. -/
theorem openDb_failed {qf : QueueFile} {q : MqQueue} (h : ¬FilesOpen conf sys dir qf) (ref : FdRef)
    (hr : q.curRdb.flag = false) (hw : q.curWdb.flag = false) :
    ∃ proc', mqSmOpenDb conf sys qf dir (Proc.empty.openFd ref) q = (none, proc') ∧
      0 ∈ openFds proc' := by
  obtain ⟨hfds, hmaps, hnext⟩ := openLog_owned ref
  generalize Proc.empty.openFd ref = proc at hfds hmaps hnext
  have hfresh : proc.next ∉ openFds proc := by
    rw [hfds, hnext]
    exact one_ne_zero
  unfold mqSmOpenDb
  simp only [hw, hr, Bool.false_eq_true, if_false]
  by_cases hwrite : Openable conf sys dir (fnameIndex qf.writeFname)
  · have hne : getIdByFname qf.readFname ≠ getIdByFname qf.writeFname := by
      intro heq
      exact h ⟨hwrite, fun hne => absurd heq hne⟩
    have hread : ¬Openable conf sys dir (fnameIndex qf.readFname) :=
      fun hr => h ⟨hwrite, fun _ => hr⟩
    have hfresh' :
      ((proc.openFd (.db (fnameIndex qf.writeFname))).mmap (fnameIndex qf.writeFname)).next ∉
        openFds ((proc.openFd (.db (fnameIndex qf.writeFname))).mmap
          (fnameIndex qf.writeFname)) := by
      simp [hfds, hnext]
    obtain ⟨fd, proc', hopen, hfds', -⟩ := openDbFile_of_not_openable hread hfresh'
    simp only [openDbFile_of_openable hwrite, if_neg hne, hopen]
    refine ⟨_, rfl, ?_⟩
    simp only [mqSmCloseDbFile, mem_openFds_close, openFds_munmap, hfds', openFds_mmap,
      mem_openFds_openFd, hfds, hnext]
    exact ⟨.inr trivial, zero_ne_one⟩
  · obtain ⟨fd, proc', hopen, hfds', -⟩ := openDbFile_of_not_openable hwrite hfresh
    simp only [hopen]
    exact ⟨_, rfl, by rw [hfds', hfds]⟩

/-- What loading a directory leaves open. -/
inductive OpenResult (conf : UcmqConf) (sys : Sys) (listing : List Fname) (dir : Dir) :
    Option MqQueue × Proc → Prop
  | loaded {qf : QueueFile} {q : MqQueue} {proc : Proc} {r w a b : ℕ}
      (hfind : findHandleFile sys listing = some qf) (hopen : FilesOpen conf sys dir qf)
      (hn : Numbers ⟨dir, proc, q⟩ 0 r w a b) (hr : q.curRdb.curIndex = getIdByFname qf.readFname)
      (hw : q.curWdb.curIndex = getIdByFname qf.writeFname) :
      OpenResult conf sys listing dir (some q, proc)
  | refused (hnot : ¬HalfLoads conf sys listing dir) :
      OpenResult conf sys listing dir (none, Proc.empty)
  | half {proc : Proc} (hhalf : HalfLoads conf sys listing dir) (hlog : 0 ∈ openFds proc) :
      OpenResult conf sys listing dir (none, proc)

/-- What becomes of a directory at a start. -/
theorem openResult (conf : UcmqConf) (sys : Sys) (listing : List Fname) (dir : Dir) :
    OpenResult conf sys listing dir (openQueue conf sys listing dir) := by
  unfold openQueue
  cases hfind : findHandleFile sys listing with
  | none =>
    refine .refused ?_
    rintro ⟨qf, hqf, -⟩
    rw [hfind] at hqf
    cases hqf
  | some qf =>
    simp only
    cases hlog : mqSmRtagOpenFile sys (fnameIndex qf.rtagFname) dir Proc.empty with
    | none =>
      refine .refused ?_
      rintro ⟨qf', hqf, hopen, -⟩
      rw [hfind] at hqf
      cases hqf
      rw [hlog] at hopen
      cases hopen
    | some x =>
      obtain ⟨t, proc⟩ := x
      have hproc : proc = Proc.empty.openFd (.rtag (fnameIndex qf.rtagFname) true 0) := by
        unfold mqSmRtagOpenFile at hlog
        split at hlog
        · cases hlog
        split at hlog
        · cases hlog
        split at hlog
        · cases hlog
          rfl
        · cases hlog
      subst hproc
      simp only
      by_cases hopen : FilesOpen conf sys dir qf
      · obtain ⟨q', proc', r, w, a, b, hres, hn, hr, hw⟩ := @openDb_loaded conf sys dir qf
          (mqSmRtagReadItem conf t { MqQueue.zero with rtagFd := some 0 }) hopen
          (.rtag (fnameIndex qf.rtagFname) true 0) rfl rfl rfl
        rw [hres]
        exact .loaded hfind hopen hn hr hw
      · obtain ⟨proc', hres, hleft⟩ := @openDb_failed conf sys dir qf
          (mqSmRtagReadItem conf t { MqQueue.zero with rtagFd := some 0 }) hopen
          (.rtag (fnameIndex qf.rtagFname) true 0) rfl rfl
        rw [hres]
        exact .half ⟨qf, hfind, by rw [hlog]; rfl, hopen⟩ hleft

/-- Everything is owned, queue by queue. -/
def OwnedApart (s : Server) : Prop := (∀ e ∈ s.qlist, Exact e.proc e.q) ∧ ∀ p ∈ s.orphans, Idle p

/-- A process that has loaded nothing. -/
theorem ownedApart_empty {s : Server} (hq : s.qlist = []) (ho : s.orphans = []) : OwnedApart s := by
  constructor
  · rw [hq]
    exact List.forall_mem_nil _
  · rw [ho]
    exact List.forall_mem_nil _

/-- Loading one more directory keeps ownership unless it is loaded in half. -/
theorem openStoreStep_owned (sys : String → Sys) (listing : String → List Fname) (s : Server)
    (n : String) :
    OwnedApart (openStoreStep sys listing s n) ↔
      OwnedApart s ∧ ∀ dir, s.dirs n = some dir → ¬HalfLoads s.conf (sys n) (listing n) dir := by
  unfold openStoreStep
  cases hdir : s.dirs n with
  | none => exact ⟨fun h => ⟨h, by simp⟩, fun h => h.1⟩
  | some dir =>
    have hres := openResult s.conf (sys n) (listing n) dir
    dsimp only
    generalize openQueue s.conf (sys n) (listing n) dir = res at hres
    cases hres with
    | @loaded qf q proc r w a b hfind hopen hn _ _ =>
      have hexact : Exact proc q := exact_of_numbers hn
      constructor
      · rintro ⟨hlisted, horphans⟩
        refine ⟨⟨fun e he => hlisted e (List.mem_cons_of_mem _ he), horphans⟩, ?_⟩
        rintro _ ⟨⟩ ⟨qf', hqf, -, hnot⟩
        rw [hfind] at hqf
        cases hqf
        exact hnot hopen
      · rintro ⟨⟨hlisted, horphans⟩, -⟩
        refine ⟨fun e he => ?_, horphans⟩
        rcases List.mem_cons.mp he with rfl | he
        · exact hexact
        · exact hlisted e he
    | refused hnot =>
      have hidle : Idle Proc.empty :=
        ⟨by simp [openFds, Proc.empty], by simp [liveMaps, Proc.empty]⟩
      constructor
      · rintro ⟨hlisted, horphans⟩
        refine ⟨⟨hlisted, fun p hp => horphans p (List.mem_cons_of_mem _ hp)⟩, ?_⟩
        rintro _ ⟨⟩
        exact hnot
      · rintro ⟨⟨hlisted, horphans⟩, -⟩
        refine ⟨hlisted, fun p hp => ?_⟩
        rcases List.mem_cons.mp hp with rfl | hp
        · exact hidle
        · exact horphans p hp
    | @half proc hhalf hlog =>
      refine iff_of_false ?_ fun h => h.2 dir rfl hhalf
      rintro ⟨-, horphans⟩
      have hidle := (horphans proc List.mem_cons_self).fds
      rw [hidle] at hlog
      exact hlog

/-- Loading a store keeps ownership exactly when no directory is loaded in half. -/
theorem openStore_owned (sys : String → Sys) (names : List String) (listing : String → List Fname)
    (s : Server) :
    OwnedApart (mqQmOpenStore sys names listing s) ↔ OwnedApart s ∧
      ∀ n ∈ names, ∀ dir, s.dirs n = some dir → ¬HalfLoads s.conf (sys n) (listing n) dir := by
  induction names generalizing s with
  | nil => exact ⟨fun h => ⟨h, by simp⟩, fun h => h.1⟩
  | cons n names ih =>
    obtain ⟨hconf, hdirs, -⟩ := openStoreStep_entries sys listing s n n
    have hrest := ih (openStoreStep sys listing s n)
    rw [hconf, hdirs, openStoreStep_owned] at hrest
    have hunfold : mqQmOpenStore sys (n :: names) listing s =
        mqQmOpenStore sys names listing (openStoreStep sys listing s n) := rfl
    rw [hunfold, hrest, List.forall_mem_cons, and_assoc]

/-- What a place owns, and the files in its directory. -/
def SlotOwned (conf : UcmqConf) : Slot → Prop
  | .absent dir => ∀ d, dir = some d → ∃ r w, Shape conf d r w
  | .listed st => Owned conf st

/-- No listed queue is deleted, no put is refused storage for a new file while
the reader is behind the writer, and a restart finds file indices of at most
twelve digits. -/
def KeepsOwned (conf : UcmqConf) : Event → String → Slot → Prop
  | .request sys req, n, .listed st => req.name = some n → ¬Deletes req ∧
    ∀ size msg, req.opt = some "put" → putMsg req = some (size, msg) → putLenOk conf (toU32 size) →
      ¬RefusedBehind conf sys (toU32 size) st
  | .request _ _, _, .absent _ => True
  | .restart _ _ _, _, slot =>
    ∀ dir, Slot.dir slot = some dir → ∀ i, (dir.db i).isSome = true → i < 10^12

/-- No put is refused storage behind its reader, and a restart finds file indices
of at most twelve digits. Queues may be deleted. -/
def NumbersKept (conf : UcmqConf) : Event → String → Slot → Prop
  | .request sys req, n, slot => StorageKept conf (.request sys req) n slot
  | .restart _ _ _, _, slot =>
    ∀ dir, Slot.dir slot = some dir → ∀ i, (dir.db i).isSome = true → i < 10^12

variable {slot slot' : Slot} {n : String} {ev : Event} {rs : List Reply} {banner : String}
  {tr : History}

/-- Keeping everything owned is keeping the numbers and deleting no listed queue. -/
theorem KeepsOwned.numbersKept (h : KeepsOwned conf ev n slot) : NumbersKept conf ev n slot := by
  cases ev with
  | request sys req =>
    cases slot with
    | absent dir => trivial
    | listed st => exact fun hn => (h hn).2
  | restart sys names listing => exact h

/-- The directory of a place has its shape. -/
theorem shape_of_slot (h : SlotOwned conf slot) (hd : Slot.dir slot = some dir) :
    ∃ r w, Shape conf dir r w := by
  cases slot with
  | absent d => exact h dir hd
  | listed st =>
    cases hd
    exact ⟨_, _, h.shape⟩

/-- The files chosen from a directory in reach. -/
theorem found_of_shape {r w : ℕ} {listing : List Fname} (h : Shape conf dir r w)
    (hl : IsListing dir listing) (hreach : ∀ i, (dir.db i).isSome = true → i < 10^12) :
    findHandleFile sys listing = some ⟨.rtag r, .db r, .db w⟩ ∧ getIdByFname (.db r) = r ∧
      getIdByFname (.db w) = w := by
  have hle := h.le
  have hw := hreach w ((h.dbs w).mpr ⟨hle, le_rfl⟩)
  exact ⟨findHandleFile_of_layout hl h.dbs h.rtag hle hw,
    getIdByFname_eq (.db r) (Or.inl rfl) (by omega),
    getIdByFname_eq (.db w) (Or.inl rfl) (by omega)⟩

/-- A directory of a queue in reach is never loaded in half. -/
theorem not_halfLoads_of_shape {r w : ℕ} {listing : List Fname} (h : Shape conf dir r w)
    (hok : sys.Ok) (hl : IsListing dir listing)
    (hreach : ∀ i, (dir.db i).isSome = true → i < 10^12) :
    ¬HalfLoads conf sys listing dir := by
  have hfile : ∀ i, r ≤ i → i ≤ w → Openable conf sys dir i := by
    intro i hr hw
    obtain ⟨f, hf⟩ := Option.isSome_iff_exists.mp ((h.dbs i).mpr ⟨hr, hw⟩)
    exact ⟨⟨f, hf, h.sizes i f hf⟩, hok.dbOpen i, hok.mmap i⟩
  obtain ⟨hfind, -, -⟩ := @found_of_shape conf sys _ _ _ _ h hl hreach
  rintro ⟨qf, hqf, -, hnot⟩
  rw [hfind] at hqf
  cases hqf
  exact hnot ⟨hfile w h.le le_rfl, fun _ => hfile r le_rfl h.le⟩

/-- A restart keeps what a place owns. -/
theorem reloaded_owned {listing : List Fname} (h : SlotOwned conf slot)
    (hl : ∀ d, Slot.dir slot = some d → IsListing d listing)
    (hreach : ∀ d, Slot.dir slot = some d → ∀ i, (d.db i).isSome = true → i < 10^12) :
    SlotOwned conf (reloaded conf sys listing (Slot.dir slot)) := by
  cases hd : Slot.dir slot with
  | none =>
    intro d he
    cases he
  | some d =>
    obtain ⟨r, w, hshape⟩ := shape_of_slot h hd
    obtain ⟨hfind, hr, hw⟩ := @found_of_shape conf sys _ _ _ _ hshape (hl d hd) (hreach d hd)
    have hres := openResult conf sys listing d
    simp only [reloaded]
    generalize openQueue conf sys listing d = res at hres
    have hkept : ∀ d', some d = some d' → ∃ r w, Shape conf d' r w := by
      rintro _ ⟨⟩
      exact ⟨r, w, hshape⟩
    cases hres with
    | @loaded qf q proc r' w' a b hfind' hopen hn hri hwi =>
      rw [hfind] at hfind'
      cases hfind'
      rw [hr] at hri
      rw [hw] at hwi
      have howned : Owned conf ⟨d, proc, q⟩ := by
        refine ⟨⟨_, _, _, _, _, hn⟩, ?_⟩
        rw [hri, hwi]
        exact hshape
      obtain ⟨unread, put, get, heq⟩ := getMsgCount_eq conf sys listing ⟨d, proc, q⟩
      simp only [SlotOwned, heq]
      exact howned.kept ⟨rfl, rfl, rfl, rfl, rfl, rfl, rfl, fun _ => rfl, fun _ => rfl,
        rfl, rfl, rfl⟩
    | refused hnot => exact hkept
    | half hhalf hlog => exact hkept

/-- Settings are recorded without opening or closing anything. -/
theorem setBy_kept {st st' : Store} (h : SetBy sys st st') : Kept st st' := by
  have hset : ∀ maxque delay wlock, Kept st (setSettings st maxque delay wlock) := fun _ _ _ =>
    ⟨rfl, rfl, rfl, rfl, rfl, rfl, rfl, fun _ => rfl, fun _ => rfl, rfl, rfl, rfl⟩
  have hk := fun maxque delay wlock => (hset maxque delay wlock).trans
    (rtagWriteItem_kept sys .item (setSettings st maxque delay wlock))
  cases h with
  | maxqueue x =>
    generalize toU32 x = maxque
    exact hk maxque st.q.delay st.q.wlock
  | delay x =>
    generalize toU32 x = delay
    exact hk st.q.maxque delay st.q.wlock
  | wlock x =>
    rw [mqQmSetWlock]
    generalize wlockValue sys (toU32 x) = wlock
    exact hk st.q.maxque st.q.delay wlock

/-- The queue that a request works on owns its files. -/
theorem touched_owned {st : Store} (h : SlotOwned conf slot) (ht : Touched conf slot st) :
    Owned conf st := by
  cases ht with
  | found st => exact h
  | fresh dir => exact created_owned conf

/-- One event keeps what a place owns. -/
theorem slotOwned_step (h : SlotOwned conf slot) (hg : NumbersKept conf ev n slot)
    (hs : SlotStep conf queueOpts n ev rs slot slot') : SlotOwned conf slot' := by
  cases hs with
  | other hn => exact h
  | restarted hok hl => exact reloaded_owned h hl hg
  | @handled sys req rs slot slot' hok hn hopt hh =>
    cases hh with
    | unchanged => exact h
    | @put _ st st' size msg ret r ho ht hm hlen hp hr =>
      have hkeep : ¬RefusedBehind conf sys (toU32 size) st := by
        cases ht with
        | found st => exact hg hn size msg ho hm hlen
        | fresh dir => exact fun href => absurd href.behind (lt_irrefl 1)
      have h₁ := pushItem_owned (touched_owned h ht) hok hkeep hp
      cases ret <;> exact h₁.kept ⟨rfl, rfl, rfl, rfl, rfl, rfl, rfl, fun _ => rfl, fun _ => rfl,
        rfl, rfl, rfl⟩
    | get ho hp hr => exact popItem_owned h hok hp
    | set ho ht hset hrs => exact (touched_owned h ht).kept (setBy_kept hset)
    | removed =>
      intro d hd
      cases hd
    | reset => exact created_owned conf

/-- A request that deletes no listed queue leaves the unlisted holders alone. -/
theorem entry_orphans {s s' : Server} {req : Request} (hopt : ∃ o ∈ queueOpts, req.opt = some o)
    (hfree : Deletes req → findQueueByQname (req.name.getD "") s = none)
    (hres : mqEvhttpCbDoOptEntry banner sys req s = .ok (rs, s')) : s'.orphans = s.orphans := by
  cases entry_step hopt hres with
  | refused => rfl
  | uncreated _ ht => exact (touchQueue_kept ht).2
  | put _ ht => exact (touchQueue_kept ht).2
  | get => rfl
  | set _ ht => exact (touchQueue_kept ht).2
  | removed hdel hf => cases hf.symm.trans (hfree hdel)
  | reset hdel hf => cases hf.symm.trans (hfree hdel)

/-- Every place owns what it refers to, and nothing else is held. -/
structure AllOwned (conf : UcmqConf) (s : Server) : Prop where
  conf_eq : s.conf = conf
  slots : ∀ n, ∃ slot, HasSlot s n slot ∧ SlotOwned conf slot
  orphans : ∀ p ∈ s.orphans, Idle p

/-- A fresh server owns nothing. -/
theorem allOwned_start (conf : UcmqConf) : AllOwned conf (Server.start conf) := by
  refine ⟨rfl, fun n => ⟨.absent none, ⟨rfl, rfl⟩, ?_⟩, List.forall_mem_nil _⟩
  intro d hd
  cases hd

/-- With all files owned nothing is open without a queue. -/
theorem AllOwned.exactlyOwned {s : Server} (h : AllOwned conf s) : ExactlyOwned s := by
  refine (exactlyOwned_iff s).mpr ⟨fun e he => ?_, h.orphans⟩
  obtain ⟨slot, hslot, howned⟩ := h.slots e.qname
  obtain rfl := slot_of_mem he hslot
  exact Owned.exact howned

/-- One event keeps everything owned. -/
theorem allOwned_step {s s' : Server} (h : AllOwned conf s)
    (hg : Guarded queueOpts (KeepsOwned conf) s ev)
    (hs : serve banner ev s = .ok (rs, s')) : AllOwned conf s' := by
  obtain ⟨hconf, hslots, horphans⟩ := h
  obtain ⟨ha, hG⟩ := hg
  obtain ⟨hconf', hsteps⟩ :=
    slotStep_of_serve (fun _ ho => ho) ha (fun n => (hslots n).imp fun _ h => h.1) hs
  rw [hconf] at hconf' hsteps
  have hslots' : ∀ n, ∃ slot, HasSlot s' n slot ∧ SlotOwned conf slot := by
    intro n
    obtain ⟨slot, hslot, howned⟩ := hslots n
    obtain ⟨slot', hslot', hstep⟩ := hsteps n slot hslot
    exact ⟨slot', hslot', slotOwned_step howned (hG n slot hslot).numbersKept hstep⟩
  refine ⟨hconf', hslots', ?_⟩
  cases ev with
  | request sys req =>
    obtain ⟨hok, hopt⟩ := ha
    have hfree : Deletes req → findQueueByQname (req.name.getD "") s = none := by
      intro hdel
      cases hname : req.name with
      | none =>
        have hcheck := hdel.name
        rw [hname] at hcheck
        cases hcheck
      | some n =>
        obtain ⟨slot, hslot, -⟩ := hslots n
        cases slot with
        | absent dir => exact find_of_absent hslot
        | listed st => exact absurd hdel (hG n _ hslot hname).1
    rw [entry_orphans hopt hfree hs]
    exact horphans
  | restart sys names listing =>
    obtain ⟨hok, hnd, hnames, hl⟩ := ha
    cases hs
    have hhalf : ∀ n ∈ names, ∀ dir, (endProcess s).dirs n = some dir →
        ¬HalfLoads (endProcess s).conf (sys n) (listing n) dir := by
      intro n hn dir hdir
      have hdir' : s.dirs n = some dir := hdir
      obtain ⟨slot, hslot, howned⟩ := hslots n
      have hslotdir : Slot.dir slot = some dir := (dirs_of_hasSlot hslot).symm.trans hdir'
      obtain ⟨r, w, hshape⟩ := shape_of_slot howned hslotdir
      have hc : (endProcess s).conf = conf := hconf
      rw [hc]
      exact not_halfLoads_of_shape hshape (hok n) (hl n dir hdir') (hG n slot hslot dir hslotdir)
    exact ((openStore_owned sys names listing (endProcess s)).mpr
      ⟨ownedApart_empty rfl rfl, hhalf⟩).2

/-- In every run that leaves no write file released, each place owns what it
refers to. -/
theorem slotOwned_of_run {s : Server}
    (h : Run (serve banner) (Guarded queueOpts (NumbersKept conf)) (Server.start conf) tr s) :
    s.conf = conf ∧ ∀ n, ∃ slot, HasSlot s n slot ∧ SlotOwned conf slot :=
  run_places (J := fun _ _ slot => SlotOwned conf slot) (fun _ ho => ho) (fun _ d hd => by cases hd)
    (fun _ _ _ _ _ _ hJ hg hs => slotOwned_step hJ hg hs) h

/-- In every run that leaves no write file released, each listed queue refers to
exactly the descriptors and mappings that are open for it. So no request uses a
number that was released, whatever else the process has opened under it. -/
theorem exact_of_run {s : Server}
    (h : Run (serve banner) (Guarded queueOpts (NumbersKept conf)) (Server.start conf) tr s) :
    ∀ e ∈ s.qlist, Exact e.proc e.q := by
  intro e he
  obtain ⟨slot, hslot, howned⟩ := (slotOwned_of_run h).2 e.qname
  obtain rfl := slot_of_mem he hslot
  exact Owned.exact howned

/-- A process that has just started, over the directories that an earlier one
left. -/
def Server.fresh (conf : UcmqConf) (dirs : String → Option Dir) : Server :=
  ⟨conf, dirs, [], ⟨0, 0, 0, 0⟩, []⟩

/-- In every run in which no listed queue is deleted and no put is refused
storage while the reader is behind, what is open is exactly what the listed
queues refer to. At the end of a start over any directories it is so exactly
when no directory is loaded in half. -/
theorem ownership_exact {s : Server}
    (h : Run (serve banner) (Guarded queueOpts (KeepsOwned conf)) (Server.start conf) tr s) :
    ExactlyOwned s ∧ ∀ (dirs : String → Option Dir) (sys : String → Sys) (names : List String)
      (listing : String → List Fname),
      ExactlyOwned (mqQmOpenStore sys names listing (Server.fresh conf dirs)) ↔
        ∀ n ∈ names, ∀ dir, dirs n = some dir → ¬HalfLoads conf (sys n) (listing n) dir := by
  constructor
  · exact (h.invariant (I := fun _ s => AllOwned conf s) (allOwned_start conf)
      fun _ _ _ _ _ hI hg hs => allOwned_step hI hg hs).exactlyOwned
  · intro dirs sys names listing
    have hfresh : OwnedApart (Server.fresh conf dirs) := ownedApart_empty rfl rfl
    rw [exactlyOwned_iff, ← OwnedApart, openStore_owned, and_iff_right hfresh]
    rfl

/-- A request that deletes nothing and finds free storage keeps everything owned. -/
theorem keepsOwned_of_free {req : Request} (hfree : storageLow conf sys = false)
    (hkeep : ¬Deletes req) (n : String) (slot : Slot) :
    KeepsOwned conf (.request sys req) n slot := by
  cases slot with
  | absent dir => trivial
  | listed st => exact fun hn => ⟨hkeep, storageKept_of_free hfree req n (.listed st) hn⟩

/-- The runs that fill a file meet the condition. -/
theorem keepsOwned_admits {big : List UInt8} (hfree : storageLow conf sys = false) :
    AdmitsRestart conf sys big [1] (KeepsOwned conf) := by
  have hkeep : ∀ {o : String} {body : List UInt8}, o ∈ ["put", "get"] →
      ¬Deletes (Request.of o "q" body) := fun ho => not_deletes ⟨_, ho, rfl⟩ (by decide)
  refine ⟨⟨fun _ => trivial, fun _ => trivial,
    fun st _ _ => keepsOwned_of_free hfree (hkeep (by decide)) "q" (.listed st),
    fun n slot => keepsOwned_of_free hfree (hkeep (by decide)) n slot⟩, fun _ _ _ dir hd => ?_,
    fun _ _ st _ _ hw hs dir hd i hi => ?_⟩
  · cases hd
  · obtain ⟨finished, pend, hs⟩ := hs
    obtain rfl := Option.some.inj hd
    have hle := hs.files.dbs i (by rw [Option.isSome_iff_ne_none] at hi; exact hi)
    omega

/-- A run with a rotation, a get and a restart. -/
theorem ownership_exact_restarted : ∃ (tr : History) (s : Server) (st : Store),
    Run (serve "") (Guarded queueOpts (KeepsOwned .least)) (Server.start .least) tr s ∧
      s.qlist = [⟨"q", st.proc, st.q⟩] ∧ ExactlyOwned s := by
  obtain ⟨big, hbig⟩ := exists_big
  obtain ⟨tr, s, st, hrun, honly, -, -⟩ := run_least hbig (keepsOwned_admits rfl)
  have hrun' := run_mono queueOpts (by decide) (fun _ _ _ hg => hg) hrun
  exact ⟨tr, s, st, hrun', honly.qlist, (ownership_exact hrun').1⟩

/-- Deleting a queue leaves its position log open. -/
theorem delQueue_leaks {s : Server} {st : Store} (h : HasSlot s n (.listed st)) (hok : sys.Ok)
    (howned : Owned conf st) : ¬ExactlyOwned (mqQmDelQueue sys n s).2 := by
  obtain ⟨l, r, w, a, b, hn⟩ := howned.numbers
  have hne := hn.log_ne
  have hfind : hashFindQueueByKey n s.qlist = some ⟨n, st.proc, st.q⟩ := find_of_listed h
  have hleft : l ∈ openFds (mqSmCloseDb st).proc := by
    have hopen : l ∈ openFds st.proc := (hn.fds l).mpr (.inl rfl)
    unfold mqSmCloseDb
    split
    · simp only [mqSmCloseDbFile, hn.rfd, hn.wfd, mem_openFds_close, openFds_munmap]
      exact ⟨⟨hopen, hne.1⟩, hne.2⟩
    · simp only [mqSmCloseDbFile, hn.wfd, mem_openFds_close, openFds_munmap]
      exact ⟨hopen, hne.2⟩
  intro hexact
  obtain ⟨-, horphans⟩ := (exactlyOwned_iff _).mp hexact
  simp only [mqQmDelQueue, hfind, store_of_listed h, h.2, mqSmRemoveDb, hok.accessRemove,
    if_true] at horphans
  have hidle := (horphans _ List.mem_cons_self).fds
  rw [hidle] at hleft
  exact hleft

/-- A removal leaves the descriptor of the log open. -/
theorem remove_leaks {s : Server} {st : Store} (h : HasSlot s n (.listed st))
    (hn : reqQnameCheck (some n) = true) (hok : sys.Ok) (howned : Owned conf st) :
    ∃ rs s', mqEvhttpCbDoOptEntry banner sys (Request.of "remove" n []) s = .ok (rs, s') ∧
      ¬ExactlyOwned s' := by
  have hremove : (httpOptRemove sys (Request.of "remove" n []) s).2 = (mqQmDelQueue sys n s).2 := by
    simp only [Request.of, httpOptRemove, Option.getD_some, hn, find_of_listed h,
      Bool.true_eq_false, if_false]
  refine ⟨(httpOptRemove sys (Request.of "remove" n []) s).1,
    (httpOptRemove sys (Request.of "remove" n []) s).2, rfl, ?_⟩
  rw [hremove]
  exact delQueue_leaks h hok howned

/-- Removing a queue leaves its position log open. -/
theorem descriptor_leaked_by_remove :
    ∃ tr s, Run (serve "") (Guarded queueOpts fun _ _ _ => True) (Server.start .least) tr s ∧
      ¬ExactlyOwned s := by
  have hok := Sys.quiet_ok 0 0
  obtain ⟨rs₁, s₁, st₁, hres₁, -, honly₁, -⟩ := @put_created .least _ [1] hok rfl
    (by decide) rfl (by decide) (by decide)
  have hnil :
      ∀ G, Run (serve "") (Guarded queueOpts G) (Server.start .least) [] (Server.start .least) :=
    fun _ => .nil
  have hguard : Guarded queueOpts (KeepsOwned .least) (Server.start .least)
      (.request (Sys.quiet 0 0) (Request.of "put" "q" [1])) := by
    refine ⟨⟨hok, "put", by decide, rfl⟩, fun n slot hslot => ?_⟩
    obtain rfl := hasSlot_start hslot
    exact trivial
  have hput : AllOwned .least s₁ := @allOwned_step .least _ _ "" _ _ (allOwned_start _) hguard hres₁
  obtain ⟨slot, hslot, howned⟩ := hput.slots "q"
  obtain rfl := hasSlot_unique honly₁.slot hslot
  obtain ⟨rs₂, s₂, hres₂, hleak⟩ := @remove_leaks .least (Sys.quiet 0 0) "q" "" s₁ _ honly₁.slot
    (by decide) hok howned
  have hrun₁ :=
    run_request (hnil fun _ _ _ => True) hok ⟨"put", by decide, rfl⟩ (fun _ _ _ => trivial) hres₁
  have hrun₂ := run_request hrun₁ hok ⟨"remove", by decide, rfl⟩ (fun _ _ _ => trivial) hres₂
  exact ⟨_, s₂, hrun₂, hleak⟩

end Ucmq.OwnershipRuns
