import Ucmq.CursorInvariant

/-!
# Removing and resetting a queue

A removal closes the data files before it knows that the directory can be
removed, and a reset goes on to create the queue whatever came of the removal.
Both are all-or-nothing exactly when the directory can be accessed and, for a
reset, the queue can be created again. Whatever else fails in a run, every name
then stays listed at most once, with its directory.
-/

namespace Ucmq.RemoveReset

open LabelledRun StoreConfig StoreState StoreRtag StoreFile StoreManage QueueManage StoreInvariant
open Evhttp QueueSlots RequestEffect ServerRun RotationRuns CursorInvariant

/-- Texts of the replies that report success. -/
def okTexts : List String := ["HTTPSQS_REMOVE_OK\r\n", "HTTPSQS_RESET_OK\r\n", "UCMQ_HTTP_OK\r\n"]

/-- The replies report success. -/
def AnswersOk (rs : List Reply) : Prop := ∃ r ∈ rs, r.text ∈ okTexts

/-- The files of both cursors are mapped. -/
def DataMapped (st : Store) : Prop :=
  WriterLive st ∧ ∃ a, st.q.curRdb.mapMem = some a ∧ st.proc.maps a = some st.q.curRdb.curIndex

/-- The queue is listed exactly once, with its files mapped and with the
messages it had. -/
def Intact (s : Server) (n : String) (st : Store) : Prop :=
  ∃ st', HasSlot s n (.listed st') ∧ DataMapped st' ∧ st'.dir = st.dir ∧
    st'.q.curRdb.curIndex = st.q.curRdb.curIndex ∧ st'.q.curRdb.pos = st.q.curRdb.pos ∧
    st'.q.curWdb.curIndex = st.q.curWdb.curIndex ∧ st'.q.curWdb.pos = st.q.curWdb.pos

/-- The queue is listed exactly once, and empty. -/
def ListedEmpty (s : Server) (n : String) : Prop :=
  ∃ st', HasSlot s n (.listed st') ∧ st'.q.unreadCount = 0 ∧
    st'.q.curRdb.curIndex = st'.q.curWdb.curIndex ∧ st'.q.curRdb.pos = st'.q.curWdb.pos

/-- A removal removes the queue or leaves it intact. -/
def RemoveAtomic (sys : Sys) (req : Request) (s : Server) (n : String) (st : Store) : Prop :=
  (AnswersOk (httpOptRemove sys req s).1 → entriesOf n (httpOptRemove sys req s).2.qlist = []) ∧
    (¬AnswersOk (httpOptRemove sys req s).1 → Intact (httpOptRemove sys req s).2 n st)

/-- A reset empties the queue or leaves it intact. -/
def ResetAtomic (sys : Sys) (req : Request) (s : Server) (n : String) (st : Store) : Prop :=
  (AnswersOk (httpOptReset sys req s).1 → ListedEmpty (httpOptReset sys req s).2 n) ∧
    (¬AnswersOk (httpOptReset sys req s).1 → Intact (httpOptReset sys req s).2 n st)

/-- A queue can be created where one with the given directory was removed:
there is storage, the directory can be made again if it went away, and its first
files can be opened, extended and mapped. A first data file that could not be
removed need not be extended. -/
structure CanCreate (conf : UcmqConf) (sys : Sys) (dir : Dir) : Prop where
  storage : storageLow conf sys = false
  path : sys.rmdir = true → sys.mkdir = true
  rtagOpen : sys.rtagOpen 1 = true
  dbOpen : sys.dbOpen 1 = true
  extend : sys.ftruncate 1 = true ∨
    sys.rmdir = false ∧ sys.unlink (.db 1) = false ∧ ∃ f, dir.db 1 = some f ∧ f.size ≠ 0
  mmap : sys.mmap 1 = true

variable {conf : UcmqConf} {sys : Sys} {req : Request} {s : Server} {n : String} {st : Store}

/-- When the reply to an operation reports success. -/
theorem answersOk_doAndReply {x : Bool} {m1 hr v1 v2 : String} {ver : Option String}
    (hm : m1 ++ "\r\n" ∈ okTexts) (h1 : v1 ++ "\r\n" ∉ okTexts) (h2 : v2 ++ "\r\n" ∉ okTexts) :
    AnswersOk [doAndReply x m1 "UCMQ_HTTP_OK" 400 hr v1 v2 ver] ↔ x = true := by
  have hok : "UCMQ_HTTP_OK" ++ "\r\n" ∈ okTexts := by decide
  simp only [AnswersOk, List.mem_singleton, exists_eq_left, doAndReply, doReply]
  cases x with
  | true =>
    simp only [if_true, iff_true]
    split
    · exact hok
    · exact hm
  | false =>
    simp only [Bool.false_eq_true, if_false, iff_false]
    split
    · exact h2
    · exact h1

/-- A closed queue has no write mapping. -/
theorem not_dataMapped_closeDb (st : Store) : ¬DataMapped (mqSmCloseDb st) := by
  rintro ⟨⟨b, hb, hm⟩, -⟩
  have hmem : st.q.curWdb.mapMem = some b := hb
  simp only [mqSmCloseDb, mqSmCloseDbFile, Proc.close_maps, hmem, Proc.munmap_maps_apply,
    if_true] at hm
  cases hm

/-- A removal that cannot access the directory leaves the queue listed and
closed. -/
theorem delQueue_of_denied (h : HasSlot s n (.listed st)) (hd : sys.accessRemove = false) :
    (mqQmDelQueue sys n s).1 = false ∧
      HasSlot (mqQmDelQueue sys n s).2 n (.listed (mqSmCloseDb st)) := by
  have hfind : hashFindQueueByKey n s.qlist = some ⟨n, st.proc, st.q⟩ := find_of_listed h
  simp only [mqQmDelQueue, hfind, store_of_listed h, h.2, mqSmRemoveDb, hd,
    Bool.false_eq_true, if_false]
  refine ⟨trivial, ?_, h.2⟩
  have hset := entriesOf_setQueue_self ⟨n, (mqSmCloseDb st).proc, (mqSmCloseDb st).q⟩ s.qlist
  simp only [h.1] at hset
  exact hset

/-- A removal that can access the directory unlists the queue. -/
theorem delQueue_of_granted (h : HasSlot s n (.listed st)) (ha : sys.accessRemove = true) :
    (mqQmDelQueue sys n s).1 = true ∧
      HasSlot (mqQmDelQueue sys n s).2 n (.absent (deleteFile sys st.dir)) ∧
      (mqQmDelQueue sys n s).2.conf = s.conf ∧
      (mqQmDelQueue sys n s).2.qlist.length+1 = s.qlist.length := by
  have hfind : hashFindQueueByKey n s.qlist = some ⟨n, st.proc, st.q⟩ := find_of_listed h
  have hlen : ∀ l : List QueueEntry, entriesOf n l ≠ [] →
      (hashDelQueue n l).length+1 = l.length := by
    intro l
    induction l with
    | nil => exact fun hne => absurd rfl hne
    | cons x l ih =>
      intro hne
      rw [entriesOf_cons] at hne
      rw [hashDelQueue]
      split_ifs at hne ⊢
      · rfl
      · rw [List.length_cons, ih hne, List.length_cons]
  simp only [mqQmDelQueue, hfind, h.2, mqSmRemoveDb, ha, if_true]
  refine ⟨trivial, ⟨?_, Function.update_self _ _ _⟩, trivial, hlen _ ?_⟩
  · rw [entriesOf_delQueue_self, h.1]
    rfl
  · rw [h.1]
    exact List.cons_ne_nil _ _

/-- The removal of a queue that is listed exactly once is all-or-nothing exactly
when its directory can be accessed. -/
theorem removeAtomic_iff (h : HasSlot s n (.listed st)) (hname : req.name = some n)
    (hcheck : reqQnameCheck (some n) = true) : RemoveAtomic sys req s n st ↔
    sys.accessRemove = true := by
  have hrun : httpOptRemove sys req s = ([doAndReply (mqQmDelQueue sys n s).1 "HTTPSQS_REMOVE_OK"
      "UCMQ_HTTP_OK" 400 "Remove error" "HTTPSQS_REMOVE_ERROR" "UCMQ_HTTP_ERR_REMOVE_ERR" req.ver],
      (mqQmDelQueue sys n s).2) := by
    simp only [httpOptRemove, hname, hcheck, Bool.true_eq_false, if_false, Option.getD_some,
      find_of_listed h]
  have hok := @answersOk_doAndReply (mqQmDelQueue sys n s).1 "HTTPSQS_REMOVE_OK" "Remove error"
    "HTTPSQS_REMOVE_ERROR" "UCMQ_HTTP_ERR_REMOVE_ERR" req.ver (by decide) (by decide) (by decide)
  simp only [RemoveAtomic, hrun, hok]
  cases ha : sys.accessRemove with
  | true =>
    obtain ⟨hx, hs, -, -⟩ := delQueue_of_granted h ha
    exact iff_of_true ⟨fun _ => hs.1, fun hn => absurd hx hn⟩ rfl
  | false =>
    obtain ⟨hx, hs⟩ := delQueue_of_denied h ha
    refine iff_of_false ?_ (by decide)
    rintro ⟨-, hfail⟩
    obtain ⟨st', hs', hmap, -⟩ := hfail (by rw [hx]; decide)
    obtain rfl := Slot.listed.inj (hasSlot_unique hs hs')
    exact not_dataMapped_closeDb st hmap

/-- Directory found or made by a creation after a removal. -/
theorem touchQueuePath_deleted (sys : Sys) (dir : Dir) :
    (sys.rmdir = true ∧ sys.mkdir = false ∧ touchQueuePath sys (deleteFile sys dir) = none) ∨
      (sys.rmdir = true → sys.mkdir = true) ∧
      ∃ d, touchQueuePath sys (deleteFile sys dir) = some d ∧
        d.db 1 = if sys.rmdir = true ∨ sys.unlink (.db 1) = true then none else dir.db 1 := by
  cases hr : sys.rmdir with
  | true =>
    cases hm : sys.mkdir with
    | true =>
      exact .inr ⟨fun _ => rfl, Dir.empty, by simp [touchQueuePath, deleteFile, hr, hm], rfl⟩
    | false => exact .inl ⟨rfl, rfl, by simp [touchQueuePath, deleteFile, hr, hm]⟩
  | false =>
    refine .inr ⟨by simp, ?_⟩
    cases ha : sys.accessCreat with
    | true =>
      refine ⟨_, by
        simp only [touchQueuePath, deleteFile, hr, ha, Bool.false_eq_true, if_false, if_true]
        rfl, ?_⟩
      cases hu : sys.unlink (.db 1) <;> simp [hu]
    | false =>
      refine ⟨_, by
        simp only [touchQueuePath, deleteFile, hr, ha, Bool.false_eq_true, if_false]
        rfl, ?_⟩
      cases hu : sys.unlink (.db 1) <;> simp [hu]

/-- The first data file of a new queue is mapped when it can be opened, is not
left empty, and can be mapped. -/
theorem openDbFile_create (conf : UcmqConf) (sys : Sys) (dir : Dir) (proc : Proc) :
    ((mqSmOpenDbFile conf sys 1 .create dir proc).2.1.isSome = true) ↔
      sys.dbOpen 1 = true ∧ (sys.ftruncate 1 = true ∨ ∃ f, dir.db 1 = some f ∧ f.size ≠ 0) ∧
        sys.mmap 1 = true := by
  have hmax := le_maxDbFileSize conf
  have hextend : ∀ f, extendFileSize conf sys 1 f = none ↔ sys.ftruncate 1 = false ∧
      f.size = 0 := by
    intro f
    unfold extendFileSize
    cases sys.ftruncate 1 with
    | true =>
      simp only [if_true, Bool.true_eq_false, false_and, iff_false]
      rw [if_neg (by omega)]
      exact Option.some_ne_none _
    | false => simp
  have hsize : ((dir.db 1).getD DbFile.blank).size = 0 ↔ ¬∃ f, dir.db 1 = some f ∧ f.size ≠ 0 := by
    cases dir.db 1 with
    | none => simp [DbFile.blank]
    | some f => simp
  simp only [mqSmOpenDbFile]
  cases hopen : sys.dbOpen 1 with
  | false => simp
  | true =>
    simp only [if_true, true_and]
    cases hx : extendFileSize conf sys 1 ((dir.db 1).getD DbFile.blank) with
    | none =>
      obtain ⟨ht, hz⟩ := (hextend _).mp hx
      have hnone := hsize.mp hz
      simp [ht, hnone]
    | some f =>
      have hok : sys.ftruncate 1 = true ∨ ∃ f, dir.db 1 = some f ∧ f.size ≠ 0 := by
        by_contra hnot
        obtain ⟨ht, hz⟩ := not_or.mp hnot
        have := (hextend _).mpr ⟨eq_false_of_ne_true ht, hsize.mpr hz⟩
        rw [hx] at this
        cases this
      cases hmap : sys.mmap 1 with
      | true => simp [mapOpened, hmap, hok]
      | false => simp [mapOpened, hmap]

/-- A queue is created after a removal exactly when it can be. -/
theorem createQueue_isSome_iff (conf : UcmqConf) (sys : Sys) (dir : Dir) :
    (createQueue conf sys (deleteFile sys dir)).2.isSome = true ↔ CanCreate conf sys dir := by
  have hmap :
      ∀ d, (createQueue conf sys d).2.isSome = (mqSmCreatDb conf sys d MqQueue.zero).2.isSome := by
    intro d
    unfold createQueue
    rcases mqSmCreatDb conf sys d MqQueue.zero with ⟨d', _ | st⟩ <;> rfl
  rw [hmap]
  unfold mqSmCreatDb
  cases hlow : storageLow conf sys with
  | true => exact iff_of_false (by simp) fun hc => absurd (hlow.symm.trans hc.storage) (by simp)
  | false =>
    rw [if_neg (by decide)]
    rcases touchQueuePath_deleted sys dir with ⟨hr, hm, ht⟩ | ⟨hpath, d, ht, hdb⟩
    · rw [ht]
      exact iff_of_false (by simp) fun hc => absurd (hm.symm.trans (hc.path hr)) (by simp)
    · rw [ht]
      dsimp only
      unfold mqSmRtagOpenNextFile
      cases hrtag : sys.rtagOpen 1 with
      | false =>
        exact iff_of_false (by simp) fun hc => absurd (hrtag.symm.trans hc.rtagOpen) (by simp)
      | true =>
        rw [if_pos rfl]
        dsimp only
        have hopen := openDbFile_create conf sys (d.setRtag 1 (some ((d.rtag 1).getD [])))
          (Proc.empty.openFd (.rtag 1 false 0))
        have hfile : (∃ f, d.db 1 = some f ∧ f.size ≠ 0) ↔
            sys.rmdir = false ∧ sys.unlink (.db 1) = false ∧ ∃ f, dir.db 1 = some f ∧
            f.size ≠ 0 := by
          rw [hdb]
          cases sys.rmdir <;> cases sys.unlink (.db 1) <;> simp
        rw [Dir.setRtag_db, hfile] at hopen
        have hcan : CanCreate conf sys dir ↔ sys.dbOpen 1 = true ∧ (sys.ftruncate 1 = true ∨
            sys.rmdir = false ∧ sys.unlink (.db 1) = false ∧ ∃ f, dir.db 1 = some f ∧ f.size ≠ 0) ∧
            sys.mmap 1 = true :=
          ⟨fun hc => ⟨hc.dbOpen, hc.extend, hc.mmap⟩,
            fun h => ⟨hlow, hpath, hrtag, h.1, h.2.1, h.2.2⟩⟩
        rw [hcan, ← hopen]
        rcases mqSmOpenDbFile conf sys 1 .create (d.setRtag 1 (some ((d.rtag 1).getD [])))
          (Proc.empty.openFd (.rtag 1 false 0)) with ⟨wfd, _ | addr, d', proc⟩ <;> rfl

/-- A created queue is empty. -/
theorem createQueue_empty {dir : Option Dir} {d : Option Dir}
    (h : createQueue conf sys dir = (d, some st)) :
    d = some st.dir ∧ st.q.unreadCount = 0 ∧ st.q.curRdb.curIndex = st.q.curWdb.curIndex ∧
      st.q.curRdb.pos = st.q.curWdb.pos := by
  unfold createQueue at h
  rcases hc : mqSmCreatDb conf sys dir MqQueue.zero with ⟨d', _ | st'⟩
  · rw [hc] at h
    cases h
  · rw [hc] at h
    obtain ⟨rfl, hst⟩ := Prod.mk.inj h
    obtain rfl := Option.some.inj hst
    unfold mqSmCreatDb at hc
    split at hc
    · cases hc
    split at hc
    · cases hc
    split at hc
    · cases hc
    split at hc
    · cases hc
    · obtain ⟨rfl, hst'⟩ := Prod.mk.inj hc
      obtain rfl := Option.some.inj hst'
      exact ⟨rfl, rfl, rfl, rfl⟩

/-- Creating a queue where its name is free. -/
theorem addQueue_iff {dir : Dir} (h : HasSlot s n (.absent (deleteFile sys dir))) :
    ((mqQmAddQueue sys n s).1 = true ↔
      (s.qlist.length : ℤ) < s.conf.maxQlistItmes ∧ CanCreate s.conf sys dir) ∧
    ((mqQmAddQueue sys n s).1 = true → ListedEmpty (mqQmAddQueue sys n s).2 n) ∧
    ((mqQmAddQueue sys n s).1 = false → entriesOf n (mqQmAddQueue sys n s).2.qlist = []) := by
  have hcan := createQueue_isSome_iff s.conf sys dir
  unfold mqQmAddQueue
  by_cases hroom : s.conf.maxQlistItmes ≤ s.qlist.length
  · rw [if_pos hroom]
    exact ⟨iff_of_false (by simp) fun hr => by omega, by simp, fun _ => h.1⟩
  rw [if_neg hroom, h.2]
  rcases hc : createQueue s.conf sys (deleteFile sys dir) with ⟨d, _ | st'⟩
  · rw [hc] at hcan
    exact ⟨iff_of_false (by simp) fun hr => absurd (hcan.mpr hr.2) (by simp), by simp, fun _ => h.1⟩
  · rw [hc] at hcan
    obtain ⟨rfl, hempty⟩ := createQueue_empty hc
    refine ⟨iff_of_true rfl ⟨by omega, hcan.mp rfl⟩, fun _ => ?_, by simp⟩
    refine ⟨st', ⟨?_, Function.update_self _ _ _⟩, hempty⟩
    rw [entriesOf_cons, if_pos rfl, h.1]

/-- The reset of a queue that is listed exactly once is all-or-nothing exactly
when its directory can be accessed, the limit leaves room for the queue, and the
queue can be created again. -/
theorem resetAtomic_iff (h : HasSlot s n (.listed st)) (hname : req.name = some n)
    (hcheck : reqQnameCheck (some n) = true) : ResetAtomic sys req s n st ↔
      sys.accessRemove = true ∧ (s.qlist.length : ℤ) ≤ s.conf.maxQlistItmes ∧
      CanCreate s.conf sys st.dir := by
  have hrun : httpOptReset sys req s =
      ([doAndReply (mqQmAddQueue sys n (mqQmDelQueue sys n s).2).1 "HTTPSQS_RESET_OK"
        "UCMQ_HTTP_OK" 400 "Reset error" "HTTPSQS_RESET_ERROR" "UCMQ_HTTP_ERR_RESET_ERR" req.ver],
        (mqQmAddQueue sys n (mqQmDelQueue sys n s).2).2) := by
    simp only [httpOptReset, hname, hcheck, Bool.true_eq_false, if_false, Option.getD_some,
      find_of_listed h]
  have hok :=
    @answersOk_doAndReply (mqQmAddQueue sys n (mqQmDelQueue sys n s).2).1 "HTTPSQS_RESET_OK"
    "Reset error" "HTTPSQS_RESET_ERROR" "UCMQ_HTTP_ERR_RESET_ERR" req.ver (by decide)
      (by decide) (by decide)
  simp only [ResetAtomic, hrun, hok]
  cases ha : sys.accessRemove with
  | true =>
    obtain ⟨-, hs, hconf, hlen⟩ := delQueue_of_granted h ha
    generalize (mqQmDelQueue sys n s).2 = s₁ at hs hconf hlen ⊢
    obtain ⟨hiff, hgood, hbad⟩ := addQueue_iff hs
    rw [hconf] at hiff
    have hroom : (s₁.qlist.length : ℤ) < s.conf.maxQlistItmes ↔
        (s.qlist.length : ℤ) ≤ s.conf.maxQlistItmes := by
      omega
    rw [hroom] at hiff
    simp only [true_and]
    rw [← hiff]
    cases hx : (mqQmAddQueue sys n s₁).1 with
    | true => exact iff_of_true ⟨fun _ => hgood hx, fun hn => absurd rfl hn⟩ rfl
    | false =>
      refine iff_of_false ?_ (by simp)
      rintro ⟨-, hfail⟩
      obtain ⟨st', hs', -⟩ := hfail (by simp)
      have hempty := (hbad hx).symm.trans hs'.1
      cases hempty
  | false =>
    obtain ⟨-, hs⟩ := delQueue_of_denied h ha
    generalize (mqQmDelQueue sys n s).2 = s₁ at hs ⊢
    refine iff_of_false ?_ fun hc => absurd hc.1 (by simp)
    rintro ⟨hgood, hfail⟩
    unfold mqQmAddQueue at hgood hfail
    split at hgood
    · rename_i hlim
      rw [if_pos hlim] at hfail
      obtain ⟨st', hs', hmap, -⟩ := hfail (by simp)
      obtain rfl := Slot.listed.inj (hasSlot_unique hs hs')
      exact not_dataMapped_closeDb st hmap
    · rename_i hlim
      rw [if_neg hlim] at hfail
      rcases hc : createQueue s₁.conf sys (s₁.dirs n) with ⟨d, _ | st₁⟩
      · rw [hc] at hfail
        obtain ⟨st', hs', hmap, -⟩ := hfail (by simp)
        have hentry := hs.1.symm.trans hs'.1
        obtain ⟨-, hproc, hq⟩ := QueueEntry.mk.inj (List.cons.inj hentry).1
        have hdead := not_dataMapped_closeDb st
        rw [DataMapped, WriterLive, hproc, hq] at hdead
        exact hdead hmap
      · rw [hc] at hgood
        obtain ⟨st', hs', -⟩ := hgood rfl
        have htwo := hs'.1
        dsimp only at htwo
        rw [entriesOf_cons, if_pos rfl, hs.1] at htwo
        exact absurd (List.cons.inj htwo).2 (List.cons_ne_nil _ _)

/-- Every name is listed at most once, and with its directory. -/
def Placed (s : Server) : Prop := ∀ n, ∃ slot, HasSlot s n slot

/-- System calls may fail, but a removal or reset can access its directory, and a
restart lists the existing directories. -/
def Permitted (s : Server) : Event → Prop
  | .request sys req => Deletes req → sys.accessRemove = true
  | .restart _ names _ => names.Nodup ∧ ∀ n, n ∈ names ↔ (s.dirs n).isSome = true

/-- Names stay placed when one place changes. -/
theorem Placed.of_same {s' : Server} (h : Placed s) (hsame : SameElsewhere n s s')
    (hn : ∃ slot, HasSlot s' n slot) : Placed s' := by
  intro m
  by_cases hm : m = n
  · rw [hm]
    exact hn
  · exact (h m).imp fun _ hs => hsame.hasSlot hm hs

/-- They do when a queue is put back. -/
theorem Placed.setStore (h : Placed s) (hs : HasSlot s n (.listed st)) (st' : Store) :
    Placed (s.setStore n st') :=
  h.of_same (sameElsewhere_setStore s n st') ⟨_, hasSlot_setStore hs st'⟩

/-- Adding a name that is not listed lists it at most once. -/
theorem addQueue_placed {dir : Option Dir} (h : HasSlot s n (.absent dir)) :
    ((mqQmAddQueue sys n s).1 = false ∧ ∃ dir', HasSlot (mqQmAddQueue sys n s).2 n (.absent dir')) ∨
      ((mqQmAddQueue sys n s).1 = true ∧
        ∃ st, HasSlot (mqQmAddQueue sys n s).2 n (.listed st)) := by
  unfold mqQmAddQueue
  split
  · exact .inl ⟨rfl, dir, h⟩
  rcases hc : createQueue s.conf sys (s.dirs n) with ⟨d, _ | st⟩
  · exact .inl ⟨rfl, d, h.1, Function.update_self _ _ _⟩
  · obtain ⟨rfl, -⟩ := createQueue_empty hc
    refine .inr ⟨rfl, st, ?_, Function.update_self _ _ _⟩
    rw [entriesOf_cons, if_pos rfl, h.1]

/-- A queue that is found or created is listed exactly once. -/
theorem touchQueue_placed (h : Placed s) (sys : Sys) (n : String) :
    Placed (touchQueueByQname sys n s).2 ∧ ∀ e, (touchQueueByQname sys n s).1 = some e →
      ∃ st, e = ⟨n, st.proc, st.q⟩ ∧ HasSlot (touchQueueByQname sys n s).2 n (.listed st) := by
  obtain ⟨slot, hs⟩ := h n
  cases slot with
  | listed st =>
    rw [touchQueue_of_listed sys hs]
    refine ⟨h, fun e he => ⟨st, ?_, hs⟩⟩
    exact (Option.some.inj he).symm
  | absent dir =>
    have hsame := sameElsewhere_addQueue sys n s
    rcases addQueue_placed hs with ⟨hx, dir', hs'⟩ | ⟨hx, st, hs'⟩
    · rw [touchQueue_of_refused hs hx]
      refine ⟨h.of_same hsame ⟨_, hs'⟩, fun e he => ?_⟩
      cases he
    · rw [touchQueue_of_added hs hx hs']
      refine ⟨h.of_same hsame ⟨_, hs'⟩, fun e he => ⟨st, ?_, hs'⟩⟩
      exact (Option.some.inj he).symm

/-- A step of a handler keeps every name listed at most once. -/
theorem placed_of_step {rs : List Reply} {s' : Server} (h : Placed s)
    (ha : Deletes req → sys.accessRemove = true)
    (hs : HandlerStep sys req n s rs s') : Placed s' := by
  obtain ⟨hp, hfound⟩ := touchQueue_placed h sys n
  have hdel : ∀ {e}, findQueueByQname n s = some e → Deletes req →
      HasSlot (mqQmDelQueue sys n s).2 n (.absent (deleteFile sys (s.store e).dir)) := by
    intro e hf hd
    obtain ⟨slot, hslot⟩ := h n
    cases slot with
    | absent dir =>
      rw [find_of_absent hslot] at hf
      cases hf
    | listed st =>
      rw [find_of_listed hslot] at hf
      obtain rfl := Option.some.inj hf
      rw [store_of_listed hslot]
      exact (delQueue_of_granted hslot (ha hd)).2.1
  cases hs with
  | refused => exact h
  | uncreated _ ht =>
    rw [ht] at hp
    exact hp
  | put _ ht =>
    rw [ht] at hp hfound
    obtain ⟨st, -, hs⟩ := hfound _ rfl
    exact hp.setStore hs _
  | get _ hf =>
    obtain ⟨slot, hslot⟩ := h n
    cases slot with
    | absent dir =>
      rw [find_of_absent hslot] at hf
      cases hf
    | listed st => exact h.setStore hslot _
  | set _ ht =>
    rw [ht] at hp hfound
    obtain ⟨st, -, hs⟩ := hfound _ rfl
    exact hp.setStore hs _
  | removed hd hf => exact h.of_same (sameElsewhere_delQueue sys n s) ⟨_, hdel hf hd⟩
  | reset hd hf =>
    have hp := h.of_same (sameElsewhere_delQueue sys n s) ⟨_, hdel hf hd⟩
    refine hp.of_same (sameElsewhere_addQueue sys n _) ?_
    rcases addQueue_placed (hdel hf hd) with ⟨-, dir', hs'⟩ | ⟨-, st', hs'⟩
    · exact ⟨_, hs'⟩
    · exact ⟨_, hs'⟩

/-- The interval of the global sync is not part of the list. -/
theorem httpOptSynctime_listed (req : Request) (s : Server) :
    (httpOptSynctime req s).2.qlist = s.qlist ∧ (httpOptSynctime req s).2.dirs = s.dirs := by
  simp only [httpOptSynctime, mqQmSetSynctime]
  split <;> exact ⟨rfl, rfl⟩

/-- Requests with no option on a queue change neither the list nor a directory. -/
theorem entry_of_other {banner : String} {rs : List Reply} {s' : Server}
    (hopt : ¬∃ o ∈ queueOpts, req.opt = some o)
    (hres : mqEvhttpCbDoOptEntry banner sys req s = .ok (rs, s')) : s'.qlist = s.qlist ∧
    s'.dirs = s.dirs := by
  have hno : ∀ o ∈ queueOpts, req.opt ≠ some o := fun o ho he => hopt ⟨o, ho, he⟩
  unfold mqEvhttpCbDoOptEntry at hres
  split at hres
  · cases hres
    exact ⟨rfl, rfl⟩
  have hsync := httpOptSynctime_listed req s
  split at hres
  all_goals first
    | exact absurd ‹_› (hno _ (by decide))
    | rwa [Except.ok.inj hres] at hsync
    | cases hres; exact ⟨rfl, rfl⟩

/-- Every permitted event keeps every name listed at most once. -/
theorem serve_placed {banner : String} {ev : Event} {rs : List Reply} {s' : Server} (h : Placed s)
    (hg : Permitted s ev) (hres : serve banner ev s = .ok (rs, s')) : Placed s' := by
  cases ev with
  | restart sys names listing =>
    cases hres
    intro n
    obtain ⟨slot, hs⟩ := h n
    exact ⟨_, (restart_hasSlot hg.1 hg.2 hs).2⟩
  | request sys req =>
    by_cases hopt : ∃ o ∈ queueOpts, req.opt = some o
    · exact placed_of_step h hg (entry_step hopt hres)
    · obtain ⟨hlist, hdirs⟩ := entry_of_other hopt hres
      intro n
      obtain ⟨slot, hs⟩ := h n
      refine ⟨slot, ?_⟩
      cases slot with
      | absent dir => exact ⟨by rw [hlist]; exact hs.1, by rw [hdirs]; exact hs.2⟩
      | listed st => exact ⟨by rw [hlist]; exact hs.1, by rw [hdirs]; exact hs.2⟩

/-- They are in every such run. -/
theorem placed_of_run {banner : String} {tr : History}
    (h : Run (serve banner) Permitted (Server.start conf) tr s) : Placed s :=
  h.invariant (I := fun _ s => Placed s) (fun _ => ⟨.absent none, rfl, rfl⟩)
    fun _ _ _ _ _ hp hg hs => serve_placed hp hg hs

/-- In every run in which removals and resets can access their directories, and
whatever other system calls fail, a listed queue is listed exactly once. Its
removal is all-or-nothing exactly when its directory can be accessed, and its
reset exactly when besides the limit leaves room for the queue and the queue can
be created again. -/
theorem remove_reset_atomic_iff {banner : String} {tr : History}
    (h : Run (serve banner) Permitted (Server.start conf) tr s) {e : QueueEntry} (he : e ∈ s.qlist)
    (sys : Sys) {req : Request} (hname : req.name = some e.qname)
    (hcheck : reqQnameCheck (some e.qname) = true) :
    HasSlot s e.qname (.listed (s.store e)) ∧
      (RemoveAtomic sys req s e.qname (s.store e) ↔ sys.accessRemove = true) ∧
      (ResetAtomic sys req s e.qname (s.store e) ↔ sys.accessRemove = true ∧
        (s.qlist.length : ℤ) ≤ s.conf.maxQlistItmes ∧ CanCreate s.conf sys (s.store e).dir) := by
  obtain ⟨slot, hs⟩ := placed_of_run h e.qname
  obtain rfl := slot_of_mem he hs
  exact ⟨hs, removeAtomic_iff hs hname hcheck, resetAtomic_iff hs hname hcheck⟩

/-- A request with a number that names the queue. -/
def nameRequest (opt : String) : Request := ⟨true, some opt, some "q", some "5", none, none, []⟩

/-- A server with one queue, created by setting its capacity. -/
def oneQueue : Server :=
  (httpOptMaxqueue (Sys.quiet 0 100) (nameRequest "maxqueue") (Server.start UcmqConf.least)).2

/-- The server with one queue is reached by a run. -/
theorem run_oneQueue :
    ∃ tr, Run (serve "") Permitted (Server.start UcmqConf.least) tr oneQueue := by
  have hg :
      Permitted (Server.start UcmqConf.least)
        (.request (Sys.quiet 0 100) (nameRequest "maxqueue")) :=
    fun _ => rfl
  have hs :
    serve "" (.request (Sys.quiet 0 100) (nameRequest "maxqueue")) (Server.start UcmqConf.least) =
      .ok ((httpOptMaxqueue (Sys.quiet 0 100) (nameRequest "maxqueue")
        (Server.start UcmqConf.least)).1, oneQueue) := rfl
  exact ⟨_, .snoc .nil hg hs⟩

/-- It lists the queue. -/
theorem mem_oneQueue : ∃ e ∈ oneQueue.qlist, e.qname = "q" := ⟨_, List.mem_cons_self, rfl⟩

/-- A run of puts, gets and restarts deletes nothing. -/
theorem permitted_of_guarded {G : Event → String → Slot → Prop} {ev : Event}
    (h : Guarded ["put", "get"] G s ev) : Permitted s ev := by
  cases ev with
  | request sys req => exact fun _ => h.1.1.accessRemove
  | restart sys names listing => exact ⟨h.1.2.1, h.1.2.2.1⟩

/-- With working system calls a queue that has filled a file and was loaded again
with one of two messages pending is removed, and emptied. -/
theorem remove_reset_atomic_restarted :
    ∃ (big : List UInt8) (tr : History) (s : Server) (st : Store),
    Run (serve "") Permitted (Server.start .least) tr s ∧ s.qlist = [⟨"q", st.proc, st.q⟩] ∧
      accepted "q" tr = [big, [1]] ∧ returned "q" tr = [big] ∧
      RemoveAtomic (Sys.quiet 0 0) (nameRequest "remove") s "q" st ∧
      ResetAtomic (Sys.quiet 0 0) (nameRequest "reset") s "q" st := by
  obtain ⟨big, hbig⟩ := exists_big
  have hadmits : AdmitsRestart .least (Sys.quiet 0 0) big [1] fun _ _ _ => True :=
    ⟨⟨fun _ => trivial, fun _ => trivial, fun _ _ _ => trivial, fun _ _ => trivial⟩,
      fun _ _ _ => trivial, fun _ _ _ _ _ _ _ => trivial⟩
  obtain ⟨tr, s, st, hrun, honly, hacc, hret⟩ := run_least hbig hadmits
  have hrun' : Run (serve "") Permitted (Server.start .least) tr s :=
    hrun.mono fun _ _ hg => permitted_of_guarded hg
  have hmem : (⟨"q", st.proc, st.q⟩ : QueueEntry) ∈ s.qlist := by
    rw [honly.qlist]
    exact List.mem_singleton_self _
  obtain ⟨-, hremove, -⟩ := remove_reset_atomic_iff hrun' hmem (Sys.quiet 0 0)
    (show (nameRequest "remove").name = some "q" from rfl)
    (show reqQnameCheck (some "q") = true by decide)
  obtain ⟨-, -, hreset⟩ := remove_reset_atomic_iff hrun' hmem (Sys.quiet 0 0)
    (show (nameRequest "reset").name = some "q" from rfl)
    (show reqQnameCheck (some "q") = true by decide)
  rw [store_of_listed honly.slot] at hremove hreset
  refine ⟨big, tr, s, st, hrun', honly.qlist, hacc, hret, hremove.mpr rfl, hreset.mpr ⟨rfl, ?_, ?_⟩⟩
  · rw [honly.qlist, honly.conf_eq, List.length_singleton]
    decide
  · rw [honly.conf_eq]
    exact ⟨by decide, fun _ => rfl, rfl, rfl, .inl rfl, rfl⟩

/-- A removal without access to the directory leaves the queue closed, and a
reset whose directory cannot be made again loses the queue. -/
theorem remove_reset_not_atomic : ∃ e ∈ oneQueue.qlist,
    ¬RemoveAtomic { Sys.quiet 0 100 with accessRemove := false }
      (nameRequest "remove") oneQueue e.qname
        (oneQueue.store e) ∧
      ¬ResetAtomic { Sys.quiet 0 100 with mkdir := false } (nameRequest "reset") oneQueue e.qname
        (oneQueue.store e) := by
  obtain ⟨tr, hrun⟩ := run_oneQueue
  obtain ⟨e, he, hname⟩ := mem_oneQueue
  obtain ⟨slot, hs⟩ := placed_of_run hrun e.qname
  obtain rfl := slot_of_mem he hs
  have hreq : ∀ opt, (nameRequest opt).name = some e.qname := fun opt => by rw [hname]; rfl
  have hcheck : reqQnameCheck (some e.qname) = true := by rw [hname]; decide
  refine ⟨e, he, fun h => ?_, fun h => ?_⟩
  · exact absurd ((removeAtomic_iff hs (hreq "remove") hcheck).mp h) (by decide)
  · exact absurd (((resetAtomic_iff hs (hreq "reset") hcheck).mp h).2.2.path rfl) (by decide)

end Ucmq.RemoveReset
