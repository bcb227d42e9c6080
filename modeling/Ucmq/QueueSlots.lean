import Ucmq.Evhttp
import Ucmq.QueueStep

/-!
# The place of one name in the server

A name is in order when it is not listed, or listed exactly once and has its
directory. Handlers find, replace, add and delete only the entries of the name
they are given, so the places of all other names are left as they were.
-/

namespace Ucmq.QueueSlots

open StoreConfig StoreState StoreFile StoreManage QueueManage Evhttp QueueStep

/-- Listed entries of a name. -/
def entriesOf (qname : String) (qlist : List QueueEntry) : List QueueEntry :=
  qlist.filter fun e => e.qname = qname

/-- Place of a name: not listed, or listed once with its directory. -/
inductive Slot where
  | absent (dir : Option Dir)
  | listed (st : Store)

/-- The server holds a name in the given place. -/
def HasSlot (s : Server) (qname : String) : Slot → Prop
  | .absent dir => entriesOf qname s.qlist = [] ∧ s.dirs qname = dir
  | .listed st => entriesOf qname s.qlist = [⟨qname, st.proc, st.q⟩] ∧ s.dirs qname = some st.dir

variable {s s' : Server} {sys : Sys} {qname n : String} {slot : Slot} {st st' : Store}

/-- Entries of a name in a list with one entry more. -/
theorem entriesOf_cons (e : QueueEntry) (l : List QueueEntry) :
    entriesOf n (e :: l) = if e.qname = n then e :: entriesOf n l else entriesOf n l := by
  simp [entriesOf, List.filter_cons]

/-- Replacing the entry of a name replaces its newest one. -/
theorem entriesOf_setQueue_self (e : QueueEntry) (l : List QueueEntry) :
    entriesOf e.qname (hashSetQueue e l) =
      match entriesOf e.qname l with
      | [] => []
      | _ :: rest => e :: rest := by
  induction l with
  | nil => rfl
  | cons x l ih =>
    by_cases hx : x.qname = e.qname
    · simp [hashSetQueue, hx, entriesOf_cons]
    · simp [hashSetQueue, hx, entriesOf_cons, ih]

/-- Replacing the entry of another name changes no entry of this one. -/
theorem entriesOf_setQueue_ne {e : QueueEntry} (hn : n ≠ e.qname) (l : List QueueEntry) :
    entriesOf n (hashSetQueue e l) = entriesOf n l := by
  induction l with
  | nil => rfl
  | cons x l ih =>
    by_cases hx : x.qname = e.qname
    · simp [hashSetQueue, hx, entriesOf_cons, hn.symm]
    · simp [hashSetQueue, hx, entriesOf_cons, ih]

/-- Deleting a name deletes its newest entry. -/
theorem entriesOf_delQueue_self (l : List QueueEntry) :
    entriesOf qname (hashDelQueue qname l) = (entriesOf qname l).tail := by
  induction l with
  | nil => rfl
  | cons x l ih =>
    by_cases hx : x.qname = qname
    · simp [hashDelQueue, hx, entriesOf_cons]
    · simp [hashDelQueue, hx, entriesOf_cons, ih]

/-- Deleting another name deletes no entry of this one. -/
theorem entriesOf_delQueue_ne (hn : n ≠ qname) (l : List QueueEntry) :
    entriesOf n (hashDelQueue qname l) = entriesOf n l := by
  induction l with
  | nil => rfl
  | cons x l ih =>
    by_cases hx : x.qname = qname
    · simp [hashDelQueue, hx, entriesOf_cons, hn.symm]
    · simp [hashDelQueue, hx, entriesOf_cons, ih]

/-- A lookup finds the newest entry of a name. -/
theorem findQueue_eq_head (qname : String) (l : List QueueEntry) :
    hashFindQueueByKey qname l = (entriesOf qname l).head? := by
  simp [hashFindQueueByKey, entriesOf]

/-- The place of a name is unique. -/
theorem hasSlot_unique {slot' : Slot} (h : HasSlot s n slot) (h' : HasSlot s n slot') :
    slot = slot' := by
  cases slot with
  | absent dir =>
    cases slot' with
    | absent dir' =>
      obtain rfl : dir = dir' := h.2.symm.trans h'.2
      rfl
    | listed st =>
      have hempty := h.1.symm.trans h'.1
      cases hempty
  | listed st =>
    cases slot' with
    | absent dir =>
      have hempty := h'.1.symm.trans h.1
      cases hempty
    | listed st' =>
      have hentry := List.cons.inj (h.1.symm.trans h'.1)
      have hdir := Option.some.inj (h.2.symm.trans h'.2)
      obtain ⟨-, hproc, hq⟩ := QueueEntry.mk.inj hentry.1
      cases st
      cases st'
      cases hdir
      cases hproc
      cases hq
      rfl

/-- A listed name is found. -/
theorem find_of_listed (h : HasSlot s qname (.listed st)) :
    findQueueByQname qname s = some ⟨qname, st.proc, st.q⟩ := by
  rw [findQueueByQname, findQueue_eq_head, h.1]
  rfl

/-- A name that is not listed is not found. -/
theorem find_of_absent {dir : Option Dir} (h : HasSlot s qname (.absent dir)) :
    findQueueByQname qname s = none := by
  rw [findQueueByQname, findQueue_eq_head, h.1]
  rfl

/-- The store of a listed queue is the one in its place. -/
theorem store_of_listed (h : HasSlot s qname (.listed st)) :
    s.store ⟨qname, st.proc, st.q⟩ = st := by
  simp [Server.store, h.2]

/-- Only the entries and the directory of one name differ. -/
structure SameElsewhere (qname : String) (s s' : Server) : Prop where
  conf : s'.conf = s.conf
  entries : ∀ n, n ≠ qname → entriesOf n s'.qlist = entriesOf n s.qlist
  dirs : ∀ n, n ≠ qname → s'.dirs n = s.dirs n

/-- Nothing differs from itself. -/
theorem SameElsewhere.refl (qname : String) (s : Server) : SameElsewhere qname s s :=
  ⟨rfl, fun _ _ => rfl, fun _ _ => rfl⟩

/-- Two steps that touch one place only touch that place only. -/
theorem SameElsewhere.trans {s₁ s₂ s₃ : Server} (h : SameElsewhere qname s₁ s₂)
    (h' : SameElsewhere qname s₂ s₃) : SameElsewhere qname s₁ s₃ :=
  ⟨h'.conf.trans h.conf, fun n hn => (h'.entries n hn).trans (h.entries n hn),
    fun n hn => (h'.dirs n hn).trans (h.dirs n hn)⟩

/-- The global counters are in no place. -/
theorem SameElsewhere.counted (h : SameElsewhere qname s s') (g : AppInfo) :
    SameElsewhere qname s { s' with gInfo := g } := ⟨h.conf, h.entries, h.dirs⟩

/-- The places of other names are as before. -/
theorem SameElsewhere.hasSlot (h : SameElsewhere qname s s') (hn : n ≠ qname)
    (hs : HasSlot s n slot) : HasSlot s' n slot := by
  cases slot with
  | absent dir => exact ⟨(h.entries n hn).trans hs.1, (h.dirs n hn).trans hs.2⟩
  | listed st => exact ⟨(h.entries n hn).trans hs.1, (h.dirs n hn).trans hs.2⟩

/-- Putting a queue back touches its own place only. -/
theorem sameElsewhere_setStore (s : Server) (qname : String) (st : Store) :
    SameElsewhere qname s (s.setStore qname st) :=
  ⟨rfl, fun _ hn => entriesOf_setQueue_ne hn _, fun _ hn => Function.update_of_ne hn _ _⟩

/-- A queue that is put back is in its place. -/
theorem hasSlot_setStore (h : HasSlot s qname (.listed st)) (st' : Store) :
    HasSlot (s.setStore qname st') qname (.listed st') := by
  refine ⟨?_, Function.update_self _ _ _⟩
  have hset := entriesOf_setQueue_self ⟨qname, st'.proc, st'.q⟩ s.qlist
  simp only [h.1] at hset
  exact hset

/-- Adding a queue touches its own place only. -/
theorem sameElsewhere_addQueue (sys : Sys) (qname : String) (s : Server) :
    SameElsewhere qname s (mqQmAddQueue sys qname s).2 := by
  unfold mqQmAddQueue
  split
  · exact .refl qname s
  split
  · exact ⟨rfl, fun _ _ => rfl, fun _ hn => Function.update_of_ne hn _ _⟩
  · refine ⟨rfl, fun n hn => ?_, fun _ hn => Function.update_of_ne hn _ _⟩
    rw [entriesOf_cons, if_neg hn.symm]

/-- Deleting a queue touches its own place only. -/
theorem sameElsewhere_delQueue (sys : Sys) (qname : String) (s : Server) :
    SameElsewhere qname s (mqQmDelQueue sys qname s).2 := by
  unfold mqQmDelQueue
  split
  · exact .refl qname s
  split
  · exact ⟨rfl, fun _ hn => entriesOf_setQueue_ne hn _, fun _ _ => rfl⟩
  · exact ⟨rfl, fun _ hn => entriesOf_delQueue_ne hn _, fun _ hn => Function.update_of_ne hn _ _⟩

/-- With no call failing a name that is not listed stays as it is, or is listed
with a created queue. -/
theorem addQueue_of_absent (hok : sys.Ok) {dir : Option Dir} (h : HasSlot s qname (.absent dir)) :
    ((mqQmAddQueue sys qname s).1 = false ∧
      HasSlot (mqQmAddQueue sys qname s).2 qname (.absent dir)) ∨
    ((mqQmAddQueue sys qname s).1 = true ∧
      HasSlot (mqQmAddQueue sys qname s).2 qname (.listed (created s.conf))) := by
  unfold mqQmAddQueue
  by_cases hlen : s.conf.maxQlistItmes ≤ s.qlist.length
  · rw [if_pos hlen]
    exact Or.inl ⟨rfl, h⟩
  rw [if_neg hlen]
  cases hlow : storageLow s.conf sys with
  | true =>
    rw [createQueue_of_low hlow]
    exact Or.inl ⟨rfl, h.1, (Function.update_self _ _ _).trans h.2⟩
  | false =>
    rw [createQueue_of_free hok hlow]
    refine Or.inr ⟨rfl, ?_, Function.update_self _ _ _⟩
    rw [entriesOf_cons, if_pos rfl, h.1]

/-- A name that is not listed is added while there is storage and room in the
list. -/
theorem addQueue_of_free (hok : sys.Ok) (hfree : storageLow s.conf sys = false)
    (hroom : (s.qlist.length : ℤ) < s.conf.maxQlistItmes) (qname : String) :
    (mqQmAddQueue sys qname s).1 = true := by
  rw [mqQmAddQueue, if_neg (by omega), createQueue_of_free hok hfree]

/-- Adding a queue changes no counter and leaves no process behind. -/
theorem addQueue_kept (sys : Sys) (qname : String) (s : Server) :
    (mqQmAddQueue sys qname s).2.gInfo = s.gInfo ∧
    (mqQmAddQueue sys qname s).2.orphans = s.orphans := by
  unfold mqQmAddQueue
  split
  · exact ⟨rfl, rfl⟩
  split <;> exact ⟨rfl, rfl⟩

/-- Deleting a queue changes no global counter. -/
theorem delQueue_gInfo (sys : Sys) (qname : String) (s : Server) :
    (mqQmDelQueue sys qname s).2.gInfo = s.gInfo := by
  unfold mqQmDelQueue
  split
  · rfl
  split <;> rfl

/-- Finding or creating a queue changes no counter and leaves no process behind. -/
theorem touchQueue_kept {e : Option QueueEntry} (h : touchQueueByQname sys qname s = (e, s')) :
    s'.gInfo = s.gInfo ∧ s'.orphans = s.orphans := by
  have hadd := addQueue_kept sys qname s
  unfold touchQueueByQname at h
  split at h
  · cases h
    exact ⟨rfl, rfl⟩
  · generalize mqQmAddQueue sys qname s = x at h hadd
    obtain ⟨b, s₁⟩ := x
    cases b <;> cases h <;> exact hadd

/-- With no call failing a listed queue is unlisted and its directory removed. -/
theorem delQueue_of_listed (hok : sys.Ok) (h : HasSlot s qname (.listed st)) :
    (mqQmDelQueue sys qname s).1 = true ∧
    HasSlot (mqQmDelQueue sys qname s).2 qname (.absent none) := by
  have hfind : hashFindQueueByKey qname s.qlist = some ⟨qname, st.proc, st.q⟩ := find_of_listed h
  simp only [mqQmDelQueue, hfind, mqSmRemoveDb, h.2, hok.accessRemove, deleteFile,
    hok.rmdir, if_true]
  refine ⟨trivial, ?_, Function.update_self _ _ _⟩
  rw [entriesOf_delQueue_self, h.1]
  rfl

/-- The queue that a request on a place works on: the listed one, or one just
created. -/
inductive Touched (conf : UcmqConf) : Slot → Store → Prop
  | found (st : Store) : Touched conf (.listed st) st
  | fresh (dir : Option Dir) : Touched conf (.absent dir) (created conf)

/-- A listed queue is found and nothing changes. -/
theorem touchQueue_of_listed (sys : Sys) (h : HasSlot s qname (.listed st)) :
    touchQueueByQname sys qname s = (some ⟨qname, st.proc, st.q⟩, s) := by
  simp only [touchQueueByQname, find_of_listed h]

/-- Without room or storage no queue is found or created. -/
theorem touchQueue_of_refused {dir : Option Dir} (h : HasSlot s qname (.absent dir))
    (hf : (mqQmAddQueue sys qname s).1 = false) :
    touchQueueByQname sys qname s = (none, (mqQmAddQueue sys qname s).2) := by
  simp only [touchQueueByQname, find_of_absent h]
  generalize mqQmAddQueue sys qname s = x at hf
  obtain ⟨b, s'⟩ := x
  cases hf
  rfl

/-- A queue that is not listed is created. -/
theorem touchQueue_of_added {dir : Option Dir} (h : HasSlot s qname (.absent dir))
    (ht : (mqQmAddQueue sys qname s).1 = true)
    (hs : HasSlot (mqQmAddQueue sys qname s).2 qname (.listed st)) :
    touchQueueByQname sys qname s =
      (some ⟨qname, st.proc, st.q⟩, (mqQmAddQueue sys qname s).2) := by
  have hfound := find_of_listed hs
  simp only [touchQueueByQname, find_of_absent h]
  generalize mqQmAddQueue sys qname s = x at ht hfound
  obtain ⟨b, s'⟩ := x
  cases ht
  simp only [hfound]

/-- Finding or creating a queue. -/
theorem touchQueue_cases (hok : sys.Ok) (h : HasSlot s qname slot) :
    ∃ s', SameElsewhere qname s s' ∧
      ((touchQueueByQname sys qname s = (none, s') ∧ HasSlot s' qname slot) ∨
      ∃ st, touchQueueByQname sys qname s = (some ⟨qname, st.proc, st.q⟩, s') ∧
        HasSlot s' qname (.listed st) ∧ Touched s.conf slot st) := by
  cases slot with
  | listed st =>
    exact ⟨s, .refl qname s, Or.inr ⟨st, touchQueue_of_listed sys h, h, .found st⟩⟩
  | absent dir =>
    refine ⟨(mqQmAddQueue sys qname s).2, sameElsewhere_addQueue sys qname s, ?_⟩
    rcases addQueue_of_absent hok h with ⟨hf, hs⟩ | ⟨ht, hs⟩
    · exact Or.inl ⟨touchQueue_of_refused h hf, hs⟩
    · exact Or.inr ⟨created s.conf, touchQueue_of_added h ht hs, hs, .fresh dir⟩

end Ucmq.QueueSlots
