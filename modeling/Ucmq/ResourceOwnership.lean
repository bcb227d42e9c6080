import Ucmq.OperationCases
import Ucmq.ReadSwitchCrash

/-!
# Ownership of descriptors and mappings

Reader and writer of a queue share one descriptor and one mapping while they
are in the same file and own separate ones otherwise. Puts and gets keep the
open numbers of a queue equal to those its record refers to, except for a
rotation that is refused storage: it has already released the write file of a
reader that is behind.
-/

namespace Ucmq.ResourceOwnership

open DecimalText StoreConfig StoreMsg StoreState StoreRtag StoreFile StoreManage QueueManage
open ReadPath WritePath HandleFile QueueStep OperationCases ReadSwitchCrash

/-- Open descriptors. -/
def openFds (proc : Proc) : Set ℕ := {x | proc.fds x ≠ none}

/-- Live mappings. -/
def liveMaps (proc : Proc) : Set ℕ := {a | proc.maps a ≠ none}

/-- Descriptors a queue refers to. -/
def refFds (q : MqQueue) : Set ℕ :=
  {x | q.rtagFd = some x ∨ q.curRdb.fd = some x ∨ q.curWdb.fd = some x}

/-- Mappings a queue refers to. -/
def refMaps (q : MqQueue) : Set ℕ := {a | q.curRdb.mapMem = some a ∨ q.curWdb.mapMem = some a}

/-- A queue refers to exactly what is open for it. -/
structure Exact (proc : Proc) (q : MqQueue) : Prop where
  fds : openFds proc = refFds q
  maps : liveMaps proc = refMaps q

/-- Nothing is open. -/
structure Idle (proc : Proc) : Prop where
  fds : openFds proc = ∅
  maps : liveMaps proc = ∅

/-- A holder of descriptors and mappings in the process: a listed queue, or what
is left of one that is not listed. -/
abbrev Holder := QueueEntry ⊕ Proc

/-- What a holder holds. -/
def procOf : Holder → Proc
  | .inl e => e.proc
  | .inr proc => proc

/-- Holders of a server. -/
def IsHolder (s : Server) : Holder → Prop
  | .inl e => e ∈ s.qlist
  | .inr proc => proc ∈ s.orphans

/-- Open descriptors of the server, each with its holder. -/
def openDescriptors (s : Server) : Set (Holder × ℕ) :=
  {x | IsHolder s x.1 ∧ x.2 ∈ openFds (procOf x.1)}

/-- Live mappings of the server, each with its holder. -/
def liveMappings (s : Server) : Set (Holder × ℕ) :=
  {x | IsHolder s x.1 ∧ x.2 ∈ liveMaps (procOf x.1)}

/-- Descriptors that listed queues refer to. -/
def referencedDescriptors (s : Server) : Set (Holder × ℕ) :=
  {x | ∃ e ∈ s.qlist, x.1 = .inl e ∧ x.2 ∈ refFds e.q}

/-- Mappings that listed queues refer to. -/
def referencedMappings (s : Server) : Set (Holder × ℕ) :=
  {x | ∃ e ∈ s.qlist, x.1 = .inl e ∧ x.2 ∈ refMaps e.q}

/-- What is open is exactly what the listed queues refer to. -/
structure ExactlyOwned (s : Server) : Prop where
  fds : openDescriptors s = referencedDescriptors s
  maps : liveMappings s = referencedMappings s

variable {conf : UcmqConf} {sys : Sys} {s s' : Store} {proc : Proc}

/-- Sets tagged with their holders agree when they agree for each holder. -/
theorem tagged_eq_iff (srv : Server) (f : Proc → Set ℕ) (g : MqQueue → Set ℕ) :
    {x : Holder × ℕ | IsHolder srv x.1 ∧ x.2 ∈ f (procOf x.1)} =
        {x | ∃ e ∈ srv.qlist, x.1 = .inl e ∧ x.2 ∈ g e.q} ↔
      (∀ e ∈ srv.qlist, f e.proc = g e.q) ∧ ∀ p ∈ srv.orphans, f p = ∅ := by
  constructor
  · intro h
    have hmem := fun x => Set.ext_iff.mp h x
    constructor
    · intro e he
      ext a
      have ha := hmem (.inl e, a)
      simp only [Set.mem_ofPred_eq, IsHolder, procOf, he, true_and, Sum.inl.injEq] at ha
      rw [ha]
      constructor
      · rintro ⟨e', -, rfl, hg⟩
        exact hg
      · exact fun hg => ⟨e, he, rfl, hg⟩
    · intro p hp
      ext a
      have ha := hmem (.inr p, a)
      simp only [Set.mem_ofPred_eq, IsHolder, procOf, hp, true_and, reduceCtorEq,
        false_and, and_false, exists_false,
        iff_false] at ha
      simp [ha]
  · rintro ⟨hlisted, horphans⟩
    ext ⟨holder, a⟩
    cases holder with
    | inl e =>
      simp only [Set.mem_ofPred_eq, IsHolder, procOf, Sum.inl.injEq]
      constructor
      · rintro ⟨he, ha⟩
        exact ⟨e, he, rfl, hlisted e he ▸ ha⟩
      · rintro ⟨e', he, rfl, ha⟩
        exact ⟨he, hlisted e he ▸ ha⟩
    | inr p =>
      simp only [Set.mem_ofPred_eq, IsHolder, procOf, reduceCtorEq, false_and,
        and_false, exists_false, iff_false, not_and]
      intro hp
      rw [horphans p hp]
      exact Set.notMem_empty a

/-- The server owns exactly what is referred to when each listed queue does and
nothing is left of others. -/
theorem exactlyOwned_iff (srv : Server) :
    ExactlyOwned srv ↔ (∀ e ∈ srv.qlist, Exact e.proc e.q) ∧ ∀ p ∈ srv.orphans, Idle p := by
  have hfds := tagged_eq_iff srv openFds refFds
  have hmaps := tagged_eq_iff srv liveMaps refMaps
  constructor
  · rintro ⟨hf, hm⟩
    obtain ⟨hf₁, hf₂⟩ := hfds.mp hf
    obtain ⟨hm₁, hm₂⟩ := hmaps.mp hm
    exact ⟨fun e he => ⟨hf₁ e he, hm₁ e he⟩, fun p hp => ⟨hf₂ p hp, hm₂ p hp⟩⟩
  · rintro ⟨hlisted, horphans⟩
    exact ⟨hfds.mpr ⟨fun e he => (hlisted e he).fds, fun p hp => (horphans p hp).fds⟩,
      hmaps.mpr ⟨fun e he => (hlisted e he).maps, fun p hp => (horphans p hp).maps⟩⟩

/-- Opening a file adds its number. -/
@[simp] theorem mem_openFds_openFd {ref : FdRef} {x : ℕ} :
    x ∈ openFds (proc.openFd ref) ↔ x = proc.next ∨ x ∈ openFds proc := by
  by_cases hx : x = proc.next <;> simp [openFds, hx]

/-- Mapping a file adds no descriptor. -/
@[simp] theorem openFds_mmap (i : ℕ) : openFds (proc.mmap i) = openFds proc := rfl

/-- Unmapping a file takes no descriptor. -/
@[simp] theorem openFds_munmap (a : Option ℕ) : openFds (proc.munmap a) = openFds proc := by
  simp [openFds]

/-- Closing a descriptor takes its number. -/
@[simp] theorem mem_openFds_close {x y : ℕ} :
    x ∈ openFds (proc.close (some y)) ↔ x ∈ openFds proc ∧ x ≠ y := by
  by_cases hx : y = x
  · simp [openFds, Proc.close_fds_apply, hx]
  · simp [openFds, Proc.close_fds_apply, hx, Ne.symm hx]

/-- Mapping a file adds its address. -/
@[simp] theorem mem_liveMaps_mmap {i a : ℕ} :
    a ∈ liveMaps (proc.mmap i) ↔ a = proc.next ∨ a ∈ liveMaps proc := by
  by_cases ha : a = proc.next <;> simp [liveMaps, ha]

/-- Opening a file adds no mapping. -/
@[simp] theorem liveMaps_openFd (ref : FdRef) : liveMaps (proc.openFd ref) = liveMaps proc := rfl

/-- Closing a descriptor takes no mapping. -/
@[simp] theorem liveMaps_close (fd : Option ℕ) : liveMaps (proc.close fd) = liveMaps proc := by
  simp [liveMaps]

/-- Unmapping a file takes its address. -/
@[simp] theorem mem_liveMaps_munmap {a b : ℕ} :
    a ∈ liveMaps (proc.munmap (some b)) ↔ a ∈ liveMaps proc ∧ a ≠ b := by
  by_cases ha : b = a
  · simp [liveMaps, Proc.munmap_maps_apply, ha]
  · simp [liveMaps, Proc.munmap_maps_apply, ha, Ne.symm ha]

/-- The directory of a queue whose reader and writer are in the given files. -/
structure Shape (conf : UcmqConf) (dir : Dir) (r w : ℕ) : Prop where
  le : r ≤ w
  dbs : HasDbs dir r w
  sizes : ∀ i f, dir.db i = some f → f.size = maxDbFileSize conf
  rtag : HasRtag dir r

/-- Descriptors l, r and w and mappings a and b are those of the position log,
the reader and the writer, and all that is open. -/
structure Numbers (s : Store) (l r w a b : ℕ) : Prop where
  log : s.q.rtagFd = some l
  rfd : s.q.curRdb.fd = some r
  wfd : s.q.curWdb.fd = some w
  rmap : s.q.curRdb.mapMem = some a
  wmap : s.q.curWdb.mapMem = some b
  fds : ∀ x, x ∈ openFds s.proc ↔ x = l ∨ x = r ∨ x = w
  maps : ∀ x, x ∈ liveMaps s.proc ↔ x = a ∨ x = b
  lt : ∀ x ∈ [l, r, w, a, b], x < s.proc.next
  log_ne : l ≠ r ∧ l ≠ w
  shared : s.q.curRdb.curIndex = s.q.curWdb.curIndex → r = w ∧ a = b
  apart : s.q.curRdb.curIndex < s.q.curWdb.curIndex → r ≠ w ∧ a ≠ b

/-- A queue that owns exactly what it refers to, with the files of its cursors
in its directory. -/
structure Owned (conf : UcmqConf) (s : Store) : Prop where
  numbers : ∃ l r w a b, Numbers s l r w a b
  shape : Shape conf s.dir s.q.curRdb.curIndex s.q.curWdb.curIndex

/-- With its numbers in order a queue refers to exactly what is open. -/
theorem exact_of_numbers {l r w a b : ℕ} (hn : Numbers s l r w a b) : Exact s.proc s.q := by
  constructor
  · ext x
    simp only [hn.fds, refFds, hn.log, hn.rfd, hn.wfd, Option.some.injEq,
      Set.mem_ofPred_eq, eq_comm]
  · ext x
    simp only [hn.maps, refMaps, hn.rmap, hn.wmap, Option.some.injEq, Set.mem_ofPred_eq, eq_comm]

/-- So does a queue that owns its files. -/
theorem Owned.exact (h : Owned conf s) : Exact s.proc s.q := by
  obtain ⟨l, r, w, a, b, hn⟩ := h.numbers
  exact exact_of_numbers hn

/-- Resources, files and references are the same. -/
structure Kept (s s' : Store) : Prop where
  log : s'.q.rtagFd = s.q.rtagFd
  rfd : s'.q.curRdb.fd = s.q.curRdb.fd
  rmap : s'.q.curRdb.mapMem = s.q.curRdb.mapMem
  rindex : s'.q.curRdb.curIndex = s.q.curRdb.curIndex
  wfd : s'.q.curWdb.fd = s.q.curWdb.fd
  wmap : s'.q.curWdb.mapMem = s.q.curWdb.mapMem
  windex : s'.q.curWdb.curIndex = s.q.curWdb.curIndex
  dbs : ∀ i, (s'.dir.db i).map DbFile.size = (s.dir.db i).map DbFile.size
  rtags : ∀ i, (s'.dir.rtag i).isSome = (s.dir.rtag i).isSome
  fds : openFds s'.proc = openFds s.proc
  maps : liveMaps s'.proc = liveMaps s.proc
  next : s'.proc.next = s.proc.next

/-- A store keeps what it has. -/
theorem Kept.refl (s : Store) : Kept s s :=
  ⟨rfl, rfl, rfl, rfl, rfl, rfl, rfl, fun _ => rfl, fun _ => rfl, rfl, rfl, rfl⟩

/-- Two steps keep what both keep. -/
theorem Kept.trans {s₁ s₂ s₃ : Store} (h : Kept s₁ s₂) (h' : Kept s₂ s₃) : Kept s₁ s₃ :=
  ⟨h'.log.trans h.log, h'.rfd.trans h.rfd, h'.rmap.trans h.rmap, h'.rindex.trans h.rindex,
    h'.wfd.trans h.wfd, h'.wmap.trans h.wmap, h'.windex.trans h.windex,
    fun i => (h'.dbs i).trans (h.dbs i), fun i => (h'.rtags i).trans (h.rtags i),
    h'.fds.trans h.fds, h'.maps.trans h.maps, h'.next.trans h.next⟩

/-- The same data files exist. -/
theorem Kept.isSome_db (h : Kept s s') (i : ℕ) : (s'.dir.db i).isSome = (s.dir.db i).isSome := by
  have hi := congrArg Option.isSome (h.dbs i)
  simpa using hi

/-- The directory keeps its shape. -/
theorem Kept.shape {r w : ℕ} (h : Kept s s') (hs : Shape conf s.dir r w) :
    Shape conf s'.dir r w := by
  refine ⟨hs.le, fun i => ?_, fun i f hf => ?_, fun i => ?_⟩
  · rw [h.isSome_db]
    exact hs.dbs i
  · have hi := h.dbs i
    rw [hf] at hi
    obtain ⟨f', hf', hsize⟩ := Option.map_eq_some_iff.mp hi.symm
    rw [← hsize]
    exact hs.sizes i f' hf'
  · rw [h.rtags]
    exact hs.rtag i

/-- A queue owns its files after a step that keeps them. -/
theorem Owned.kept (h : Owned conf s) (hk : Kept s s') : Owned conf s' := by
  obtain ⟨l, r, w, a, b, hn⟩ := h.numbers
  refine ⟨⟨l, r, w, a, b, hk.log.trans hn.log, hk.rfd.trans hn.rfd, hk.wfd.trans hn.wfd,
    hk.rmap.trans hn.rmap, hk.wmap.trans hn.wmap, ?_, ?_, ?_, hn.log_ne, ?_, ?_⟩, ?_⟩
  · rw [hk.fds]
    exact hn.fds
  · rw [hk.maps]
    exact hn.maps
  · rw [hk.next]
    exact hn.lt
  · rw [hk.rindex, hk.windex]
    exact hn.shared
  · rw [hk.rindex, hk.windex]
    exact hn.apart
  · rw [hk.rindex, hk.windex]
    exact hk.shape h.shape

/-- Writing a position record opens and closes nothing. -/
theorem rtagWriteItem_kept (sys : Sys) (site : RtagSite) (s : Store) :
    Kept s (mqSmRtagWriteItem sys site s).2 := by
  unfold mqSmRtagWriteItem
  split
  · rename_i i append offset fd href hfd
    simp only
    split
    · exact .refl s
    rename_i t ht
    refine ⟨rfl, rfl, rfl, rfl, rfl, rfl, rfl, fun _ => rfl, fun j => ?_, ?_, rfl, rfl⟩
    · by_cases hj : j = i
      · simp [hj, ht]
      · simp [hj]
    · rw [hfd, Option.bind_some] at href
      ext x
      by_cases hx : x = fd
      · simp [openFds, hx, href]
      · simp [openFds, hx]
  · exact .refl s

/-- Copying bytes through a mapping opens and closes nothing. -/
theorem mapWrite_kept {mapMem : Option ℕ} {p : ℕ} {bs : List UInt8}
    (h : s.mapWrite conf mapMem p bs = .ok s') : Kept s s' := by
  unfold Store.mapWrite at h
  split at h
  · cases h
  rename_i i hi
  split at h
  · cases h
  rename_i f hf
  split at h
  · cases h
  cases h
  refine ⟨rfl, rfl, rfl, rfl, rfl, rfl, rfl, fun j => ?_, fun _ => rfl, rfl, rfl, rfl⟩
  by_cases hj : j = i
  · simp [hj, hf]
  · simp [hj]

/-- The writer's mapping is released for a reader behind, and nothing else. -/
theorem release_numbers {l r w a b : ℕ} (h : Numbers s l r w a b)
    (hle : s.q.curRdb.curIndex ≤ s.q.curWdb.curIndex) :
    (∀ x, x ∈ openFds (releaseWriteFile s).proc ↔ x = l ∨ x = r) ∧
      (∀ x, x ∈ liveMaps (releaseWriteFile s).proc ↔ x = a) ∧
      (releaseWriteFile s).proc.next = s.proc.next := by
  have hlog := h.log_ne
  rcases hle.lt_or_eq with hlt | heq
  · have hne := h.apart hlt
    rw [releaseWriteFile_of_lt hlt]
    simp only [h.wmap, h.wfd, mem_openFds_close, openFds_munmap, liveMaps_close,
      mem_liveMaps_munmap, h.fds, h.maps, Proc.close_next, Proc.munmap_next, and_true]
    exact ⟨fun x => by omega, fun x => by omega⟩
  · have hsame := h.shared heq
    rw [releaseWriteFile_of_eq heq]
    exact ⟨fun x => by rw [h.fds]; omega, fun x => by rw [h.maps]; omega, rfl⟩

/-- The directory after a data file was added behind the write file. -/
theorem shape_added {dir : Dir} {r w : ℕ} (h : Shape conf dir r w) (d : ByteRegion.Region) :
    Shape conf (dir.setDb (w+1) (some ⟨maxDbFileSize conf, d⟩)) r (w+1) := by
  have hle := h.le
  refine ⟨by omega, fun i => ?_, fun i f hf => ?_, h.rtag⟩
  · by_cases hi : i = w+1
    · simp only [hi, Dir.setDb_db, Function.update_self, Option.isSome_some, true_iff]
      omega
    · simp only [Dir.setDb_db, Function.update_of_ne hi, h.dbs i]
      omega
  · by_cases hi : i = w+1
    · simp only [hi, Dir.setDb_db, Function.update_self, Option.some.injEq] at hf
      rw [← hf]
    · simp only [Dir.setDb_db, Function.update_of_ne hi] at hf
      exact h.sizes i f hf

/-- A writer moved to a new file owns it. -/
theorem nextWriter_owned (h : Owned conf s) :
    Owned conf (nextWriter conf (releaseWriteFile s)) := by
  obtain ⟨l, r, w, a, b, hn⟩ := h.numbers
  have hle := h.shape.le
  obtain ⟨hfds, hmaps, hnext⟩ := release_numbers hn hle
  have hr : (releaseWriteFile s).q.curRdb = s.q.curRdb := by
    unfold releaseWriteFile
    split <;> rfl
  have hl : (releaseWriteFile s).q.rtagFd = s.q.rtagFd := by
    unfold releaseWriteFile
    split <;> rfl
  have hw := releaseWriteFile_index s
  have hdir := releaseWriteFile_dir s
  generalize releaseWriteFile s = s₁ at hfds hmaps hnext hr hl hw hdir
  have hlt := hn.lt
  simp only [List.forall_mem_cons, List.not_mem_nil, false_implies, implies_true, and_true] at hlt
  refine ⟨⟨l, r, s.proc.next, a, s.proc.next+1, ?_, ?_, ?_, ?_, ?_, ?_, ?_, ?_, ?_, ?_, ?_⟩, ?_⟩
  · exact hl.trans hn.log
  · exact (congrArg MqDbMap.fd hr).trans hn.rfd
  · exact congrArg some hnext
  · exact (congrArg MqDbMap.mapMem hr).trans hn.rmap
  · exact congrArg (fun k => some (k+1)) hnext
  · intro x
    simp only [nextWriter, openFds_mmap, mem_openFds_openFd, hfds, hnext]
    omega
  · intro x
    simp only [nextWriter, mem_liveMaps_mmap, liveMaps_openFd, hmaps, Proc.openFd_next, hnext]
    omega
  · simp only [nextWriter, Proc.mmap_next, Proc.openFd_next, hnext, List.forall_mem_cons,
      List.not_mem_nil, false_implies, implies_true, and_true]
    omega
  · have := hn.log_ne
    omega
  · intro heq
    have heq' : s₁.q.curRdb.curIndex = s₁.q.curWdb.curIndex+1 := heq
    rw [hr, hw] at heq'
    omega
  · omega
  · simp only [nextWriter, hr, hw, hdir]
    exact shape_added h.shape (freshData conf)

/-- Copying a message keeps the files. -/
theorem writeMsgBytes_kept {item : MsgItem} (h : writeMsgBytes conf item s = .ok s') :
    Kept s s' := by
  unfold writeMsgBytes at h
  cases hw : s.mapWrite conf s.q.curWdb.mapMem s.q.curWdb.pos (msgBytes item) with
  | error e =>
    rw [hw] at h
    cases h
  | ok s₁ =>
    rw [hw] at h
    cases h
    have hk := mapWrite_kept hw
    exact ⟨hk.log, hk.rfd, hk.rmap, hk.rindex, hk.wfd, hk.wmap, hk.windex, hk.dbs, hk.rtags, hk.fds,
      hk.maps, hk.next⟩

/-- A rotation keeps ownership unless it is refused for a reader behind. -/
theorem getNextWriteFile_owned {ok : Bool} (h : Owned conf s) (hok : sys.Ok)
    (hkeep : storageLow conf sys = true → s.q.curRdb.curIndex = s.q.curWdb.curIndex)
    (hres : getNextWriteFile conf sys s = .ok (ok, s')) : Owned conf s' := by
  cases hlow : storageLow conf sys with
  | true =>
    rw [getNextWriteFile_of_low hlow, releaseWriteFile_of_eq (hkeep hlow)] at hres
    cases hres
    exact h
  | false =>
    have hnone : s.dir.db (s.q.curWdb.curIndex+1) = none := by
      have hi := h.shape.dbs (s.q.curWdb.curIndex+1)
      rw [← Option.not_isSome_iff_eq_none, hi]
      omega
    rw [getNextWriteFile_of_free hok hlow hnone] at hres
    cases hres
    exact (nextWriter_owned h).kept (rtagWriteItem_kept sys .nextWrite _)

/-- A write owns what it leaves unless it is refused behind its reader. -/
theorem writeMsg_owned {item : MsgItem} {ok : Bool} (h : Owned conf s) (hok : sys.Ok)
    (hkeep : needsRotation conf s.q item.len → storageLow conf sys = true →
      s.q.curRdb.curIndex = s.q.curWdb.curIndex)
    (hres : MsgWritten conf sys item s ok s') : Owned conf s' := by
  have hnextOwned : ∀ {ok₂ : Bool} {s₁ s₂ : Store}, needsRotation conf s.q item.len →
      mqSmDbWriteFileHead conf s = .ok s₁ → getNextWriteFile conf sys s₁ = .ok (ok₂, s₂) →
      Owned conf s₂ := by
    intro ok₂ s₁ s₂ hrot hhead hnext
    have hk := mapWrite_kept hhead
    refine getNextWriteFile_owned (h.kept hk) hok (fun hlow => ?_) hnext
    rw [hk.rindex, hk.windex]
    exact hkeep hrot hlow
  cases hres with
  | appended _ hw => exact h.kept (writeMsgBytes_kept hw)
  | refused hrot hhead hnext => exact hnextOwned hrot hhead hnext
  | rotated hrot hhead hnext hw => exact (hnextOwned hrot hhead hnext).kept (writeMsgBytes_kept hw)

/-- So does a put. -/
theorem putData_owned {item : MsgItem} {ok : Bool} (h : Owned conf s) (hok : sys.Ok)
    (hkeep : needsRotation conf s.q item.len → storageLow conf sys = true →
      s.q.curRdb.curIndex = s.q.curWdb.curIndex)
    (hres : mqSmPutData conf sys item s = .ok (ok, s')) : Owned conf s' := by
  rcases putData_of_ok hres with ⟨-, rfl⟩ | ⟨crc16, hw⟩
  · exact h
  · exact @writeMsg_owned conf sys s s' { item with crc16 := crc16 } ok h hok hkeep hw

/-- A put keeps ownership unless it is refused storage for a reader behind. -/
theorem pushItem_owned {len : ℕ} {msg : List UInt8} {ret : QueuePutRet} (h : Owned conf s)
    (hok : sys.Ok) (hkeep : ¬RefusedBehind conf sys len s)
    (hres : mqQmPushItem conf sys len msg s = .ok (ret, s')) :
    Owned conf s' := by
  have hle := h.shape.le
  have hputOwned : ∀ {ok : Bool} {s₁ : Store}, putOpen sys s.q →
      mqSmPutData conf sys (putItem sys len msg) s = .ok (ok, s₁) → Owned conf s₁ := by
    intro ok s₁ ho hput
    refine putData_owned h hok (fun hrot hlow => ?_) hput
    by_contra hne
    exact hkeep ⟨ho, hrot, hlow, by omega⟩
  cases itemPushed_of_ok hres with
  | full => exact h
  | wlock => exact h
  | failed ho hput => exact hputOwned ho hput
  | @stored s₁ _ ho hput hrec =>
    have hk := rtagWriteItem_kept sys .item s₁
    rw [hrec] at hk
    exact (hputOwned ho hput).kept ⟨hk.log, hk.rfd, hk.rmap, hk.rindex, hk.wfd, hk.wmap,
      hk.windex, hk.dbs, hk.rtags, hk.fds, hk.maps, hk.next⟩

/-- The reader in its next file, which it shares with the writer or opens. -/
theorem openReadFile_owned {i l w b : ℕ} (hok : sys.Ok)
    (hshape : Shape conf s.dir i s.q.curWdb.curIndex) (hi : s.q.curRdb.curIndex = i)
    (hlog : s.q.rtagFd = some l) (hwfd : s.q.curWdb.fd = some w)
    (hwmap : s.q.curWdb.mapMem = some b) (hfds : ∀ x, x ∈ openFds s.proc ↔ x = l ∨ x = w)
    (hmaps : ∀ x, x ∈ liveMaps s.proc ↔ x = b) (hne : l ≠ w)
    (hlt : l < s.proc.next ∧ w < s.proc.next ∧ b < s.proc.next) :
    Owned conf (openReadFile conf sys i s).2 := by
  have hle := hshape.le
  unfold openReadFile
  by_cases hshare : i = s.q.curWdb.curIndex
  · rw [if_pos hshare]
    refine ⟨⟨l, w, w, b, b, hlog, hwfd, hwfd, hwmap, hwmap, fun x => ?_, fun x => ?_,
      ?_, ⟨hne, hne⟩, fun _ => ⟨rfl, rfl⟩, fun hl => ?_⟩, ?_⟩
    · rw [hfds]
      omega
    · rw [hmaps]
      omega
    · simp only [List.forall_mem_cons, List.not_mem_nil, false_implies, implies_true, and_true]
      omega
    · have hl' : s.q.curRdb.curIndex < s.q.curWdb.curIndex := hl
      omega
    · show Shape conf s.dir s.q.curRdb.curIndex s.q.curWdb.curIndex
      rwa [hi]
  · obtain ⟨f, hf⟩ := Option.isSome_iff_exists.mp ((hshape.dbs i).mpr ⟨le_rfl, hle⟩)
    rw [if_neg hshare, openDbFile_open hok hf (hshape.sizes i f hf)]
    refine ⟨⟨l, s.proc.next, w, s.proc.next+1, b, hlog, rfl, hwfd, rfl, hwmap, fun x => ?_,
      fun x => ?_, ?_,
      ⟨by omega, hne⟩, fun he => ?_, fun _ => ⟨by omega, by omega⟩⟩, ?_⟩
    · simp only [openFds_mmap, mem_openFds_openFd, hfds]
      omega
    · simp only [mem_liveMaps_mmap, liveMaps_openFd, hmaps, Proc.openFd_next]
    · simp only [Proc.mmap_next, Proc.openFd_next, List.forall_mem_cons, List.not_mem_nil,
        false_implies, implies_true, and_true]
      omega
    · have he' : s.q.curRdb.curIndex = s.q.curWdb.curIndex := he
      exact absurd (hi ▸ he') hshare
    · show Shape conf s.dir s.q.curRdb.curIndex s.q.curWdb.curIndex
      rwa [hi]

/-- The directory after the old files of a read switch were removed. -/
theorem shape_next {dir dir' : Dir} {r w : ℕ} (h : Shape conf dir r w) (hlt : r < w)
    (hdbs : ∀ i, (dir'.db i).map DbFile.size = (dir.db i).map DbFile.size)
    (hrtags : ∀ i, (dir'.rtag i).isSome = true ↔ i = r ∨ i = r+1) :
    Shape conf ((dir'.setRtag r none).setDb r none) (r+1) w := by
  have hsome : ∀ i, (dir'.db i).isSome = (dir.db i).isSome := fun i => by
    have hi := congrArg Option.isSome (hdbs i)
    simpa using hi
  refine ⟨hlt, fun i => ?_, fun i f hf => ?_, fun i => ?_⟩
  · by_cases hi : i = r
    · simp [hi]
    · simp only [Dir.setDb_db, Dir.setRtag_db, Function.update_of_ne hi, hsome, h.dbs i]
      omega
  · by_cases hi : i = r
    · simp [hi] at hf
    · simp only [Dir.setDb_db, Dir.setRtag_db, Function.update_of_ne hi] at hf
      have hsize := hdbs i
      rw [hf] at hsize
      obtain ⟨f', hf', heq⟩ := Option.map_eq_some_iff.mp hsize.symm
      rw [← heq]
      exact h.sizes i f' hf'
  · by_cases hi : i = r
    · simp [hi]
    · simp only [Dir.setDb_rtag, Dir.setRtag_rtag, Function.update_of_ne hi, hrtags]
      omega

/-- A read switch keeps ownership. -/
theorem getNextReadFile_owned (h : Owned conf s) (hok : sys.Ok) :
    Owned conf (getNextReadFile conf sys s).2 := by
  have hle := h.shape.le
  unfold getNextReadFile
  by_cases hend : s.q.curWdb.curIndex < s.q.curRdb.curIndex+1
  · have heq : s.q.curWdb.curIndex = s.q.curRdb.curIndex := by omega
    simp only [if_pos hend]
    exact h.kept ⟨rfl, rfl, rfl, heq, rfl, rfl, rfl, fun _ => rfl, fun _ => rfl, rfl, rfl, rfl⟩
  · obtain ⟨l, r, w, a, b, hn⟩ := h.numbers
    have hlt := hn.lt
    have hlog := hn.log_ne
    obtain ⟨hrw, hab⟩ := hn.apart (by omega)
    simp only [List.forall_mem_cons, List.not_mem_nil, false_implies, implies_true, and_true] at hlt
    simp only [if_neg hend, mqSmRtagOpenNextFile, hok.rtagOpen, if_true, unlinkFile, hok.unlink]
    have hq : ({ s.q with rtagFd := some s.proc.next, curRdb := { s.q.curRdb with
      flag := false, curIndex := s.q.curRdb.curIndex+1, optCount := 0, pos := 128 } } : MqQueue) =
        switchQueue s := rfl
    rw [hq]
    generalize hs₀ : (⟨s.dir.setRtag (s.q.curRdb.curIndex+1)
        (some ((s.dir.rtag (s.q.curRdb.curIndex+1)).getD [])),
      s.proc.openFd (.rtag (s.q.curRdb.curIndex+1) false 0), switchQueue s⟩ : Store) = s₀
    have hk := rtagWriteItem_kept sys (.nextRead (s.q.curRdb.curIndex+1)) s₀
    generalize (mqSmRtagWriteItem sys (.nextRead (s.q.curRdb.curIndex+1)) s₀).2 = s₁ at hk
    rw [← hs₀] at hk
    have hwindex : s₁.q.curWdb.curIndex = s.q.curWdb.curIndex := hk.windex
    have hnext : s₁.proc.next = s.proc.next+1 := hk.next
    have hrtags : ∀ i, (s₁.dir.rtag i).isSome = true ↔
        i = s.q.curRdb.curIndex ∨ i = s.q.curRdb.curIndex+1 := by
      intro i
      rw [hk.rtags i]
      by_cases hi : i = s.q.curRdb.curIndex+1
      · simp [hi]
      · simp only [Dir.setRtag_rtag, Function.update_of_ne hi, h.shape.rtag i]
        omega
    refine openReadFile_owned (l := s.proc.next) (w := w) (b := b) hok ?_ hk.rindex hk.log
      (hk.wfd.trans hn.wfd) (hk.wmap.trans hn.wmap) (fun x => ?_) (fun x => ?_) (by omega) ?_
    · rw [hwindex]
      exact shape_next h.shape (by omega) hk.dbs hrtags
    · simp only [hn.log, hn.rfd, mem_openFds_close, openFds_munmap, hk.fds,
        mem_openFds_openFd, hn.fds]
      omega
    · simp only [hn.rmap, liveMaps_close, mem_liveMaps_munmap, hk.maps, liveMaps_openFd, hn.maps]
      omega
    · simp only [Proc.close_next, Proc.munmap_next, hnext]
      omega

/-- State that a step of the read loop ends in. -/
def stepStore : GetStep → Store
  | .done _ s => s
  | .again s => s

/-- A step of the read loop keeps ownership. -/
theorem getDataStep_owned {step : GetStep} (h : Owned conf s) (hok : sys.Ok)
    (hres : StepTaken conf sys s step) : Owned conf (stepStore step) := by
  have hleft : ∀ {ok : Bool} {s₁ : Store}, getNextReadFile conf sys s = (ok, s₁) →
      Owned conf s₁ := by
    intro ok s₁ hnext
    have howned := getNextReadFile_owned h hok
    rwa [hnext] at howned
  have hmoved : ∀ {s' : Store}, s'.dir = s.dir → s'.proc = s.proc → s'.q.rtagFd = s.q.rtagFd →
      s'.q.curRdb.fd = s.q.curRdb.fd → s'.q.curRdb.mapMem = s.q.curRdb.mapMem →
      s'.q.curRdb.curIndex = s.q.curRdb.curIndex → s'.q.curWdb = s.q.curWdb → Owned conf s' := by
    intro s' hd hp hl hf hm hi hw
    exact h.kept ⟨hl, hf, hm, hi,
      by rw [hw], by rw [hw], by rw [hw], by simp [hd], by simp [hd], by rw [hp],
      by rw [hp], by rw [hp]⟩
  cases hres with
  | ended => exact hmoved rfl rfl rfl rfl rfl rfl rfl
  | young => exact h
  | taken => exact hmoved rfl rfl rfl rfl rfl rfl rfl
  | skipped => exact hmoved rfl rfl rfl rfl rfl rfl rfl
  | stopped hnext => exact hleft hnext
  | switched hnext => exact hleft hnext

/-- A get keeps ownership. -/
theorem popItem_owned {ret : QueueGetRet} (h : Owned conf s) (hok : sys.Ok)
    (hres : mqQmPopItem conf sys s = .ok (ret, s')) : Owned conf s' := by
  have hloop : ∀ {item : Option MsgItem} {s₁ : Store}, mqSmGetData conf sys s = .ok (item, s₁) →
      Owned conf s₁ := fun hget =>
    getDataLoop_keeps (fun _ _ _ ho ht => getDataStep_owned ho hok ht)
      (fun _ _ ho ht => getDataStep_owned ho hok ht) h hget
  cases itemPopped_of_ok hres with
  | empty => exact h
  | ended hget => exact hloop hget
  | got hget hrec =>
    rw [← hrec]
    exact (hloop hget).kept (rtagWriteItem_kept sys .item _)

end Ucmq.ResourceOwnership
