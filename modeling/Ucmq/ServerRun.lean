import Ucmq.LabelledRun
import Ucmq.RequestEffect

/-!
# Runs of the server

A run is a sequence of requests and clean restarts from a server without
queues. What happens to one name is followed through its place: a request that
names it is handled there, any other request leaves it, and a restart reloads
it from its directory. The bodies accepted and returned under a name are read
off the history of requests and replies.
-/

namespace Ucmq.ServerRun

open LabelledRun StoreConfig StoreMsg StoreState StoreFile StoreManage QueueManage Evhttp HandleFile
open QueueStep QueueSlots RequestEffect

/-- A request with the answers of its system calls, or a clean restart with the
listings of the data path and of every queue directory. -/
inductive Event where
  | request (sys : Sys) (req : Request)
  | restart (sys : String → Sys) (names : List String) (listing : String → List Fname)

/-- Serve one event. -/
def serve (banner : String) : Event → Server → Except Fault (List Reply × Server)
  | .request sys req, s => mqEvhttpCbDoOptEntry banner sys req s
  | .restart sys names listing, s => .ok ([], restartServer sys names listing s)

/-- A server without queues. -/
def Server.start (conf : UcmqConf) : Server := ⟨conf, fun _ => none, [], ⟨0, 0, 0, 0⟩, []⟩

/-- A fresh server lists no name and has no directory. -/
theorem hasSlot_start {conf : UcmqConf} {n : String} {slot : Slot}
    (h : HasSlot (Server.start conf) n slot) : slot = .absent none := by
  cases slot with
  | absent dir =>
    obtain ⟨-, rfl⟩ := h
    rfl
  | listed st => cases h.1

/-- A history of events with the replies they got. -/
abbrev History := List (Event × List Reply)

/-- The message a put request carries. -/
def putBody (req : Request) : List UInt8 := req.data.getD req.body

/-- The request is a put under a name and its reply reports success. -/
def AcceptedPut (n : String) (req : Request) (rs : List Reply) : Prop :=
  req.opt = some "put" ∧ req.name = some n ∧ ∃ r ∈ rs, r.pos.isSome = true

instance (n : String) (req : Request) (rs : List Reply) : Decidable (AcceptedPut n req rs) :=
  inferInstanceAs (Decidable (_ ∧ _))

/-- The body an event adds to those accepted under a name. -/
def acceptedIn (n : String) : Event × List Reply → List (List UInt8)
  | (.request _ req, rs) => if AcceptedPut n req rs then [putBody req] else []
  | (.restart _ _ _, _) => []

/-- The bodies an event returns from the queue of a name. -/
def returnedIn (n : String) : Event × List Reply → List (List UInt8)
  | (.request _ req, rs) =>
    if req.opt = some "get" ∧ req.name = some n then
      (rs.filter fun r => r.pos.isSome).map Reply.data
    else []
  | (.restart _ _ _, _) => []

/-- Bodies accepted under a name, oldest first. -/
def accepted (n : String) (tr : History) : List (List UInt8) := tr.flatMap (acceptedIn n)

/-- Bodies returned under a name, oldest first. -/
def returned (n : String) (tr : History) : List (List UInt8) := tr.flatMap (returnedIn n)

/-- No system call fails, requests ask for one of the given options, and a
restart lists exactly the existing directories and files. -/
def Admissible (opts : List String) (s : Server) : Event → Prop
  | .request sys req => sys.Ok ∧ ∃ o ∈ opts, req.opt = some o
  | .restart sys names listing => (∀ n, (sys n).Ok) ∧ names.Nodup ∧
    (∀ n, n ∈ names ↔ (s.dirs n).isSome = true) ∧ ∀ n d, s.dirs n = some d → IsListing d (listing n)

/-- Admissible events that meet a condition on the place of every name. -/
def Guarded (opts : List String) (G : Event → String → Slot → Prop) (s : Server) (ev : Event) :
    Prop :=
  Admissible opts s ev ∧ ∀ n slot, HasSlot s n slot → G ev n slot

/-- A put that passes the checks of its handler and those of the queue it is
for, if that is listed. -/
structure ReachesStore (conf : UcmqConf) (sys : Sys) (req : Request) (slot : Slot) : Prop where
  opt : req.opt = some "put"
  body : ∃ size msg, putMsg req = some (size, msg) ∧ putLenOk conf (toU32 size)
  takes : ∀ st, slot = .listed st → putOpen sys st.q

/-- No put is refused storage for a new file while the reader of its queue is
behind the writer. Such a put leaves the queue with the numbers of a descriptor
and a mapping it has released, and the process gives both to what it opens next.
A run without such puts never uses a released number. -/
def StorageKept (conf : UcmqConf) : Event → String → Slot → Prop
  | .request sys req, n, .listed st => req.name = some n →
    ∀ size msg, req.opt = some "put" → putMsg req = some (size, msg) →
      putLenOk conf (toU32 size) → ¬RefusedBehind conf sys (toU32 size) st
  | .request _ _, _, .absent _ => True
  | .restart _ _ _, _, _ => True

/-- The condition is met by the place of one name, and no queue keeps released
numbers. -/
def ForName (conf : UcmqConf) (n : String) (G : Event → String → Slot → Prop)
    (ev : Event) (m : String) (slot : Slot) : Prop :=
  StorageKept conf ev m slot ∧ (m = n → G ev m slot)

variable {s s' : Server} {n : String} {slot : Slot} {conf : UcmqConf}

/-- The directory of a place. -/
def Slot.dir : Slot → Option Dir
  | .absent dir => dir
  | .listed st => some st.dir

/-- The directory of a name is the one of its place. -/
theorem dirs_of_hasSlot (h : HasSlot s n slot) : s.dirs n = Slot.dir slot := by
  cases slot with
  | absent dir => exact h.2
  | listed st => exact h.2

/-- Place of a name after a restart. -/
def reloaded (conf : UcmqConf) (sys : Sys) (listing : List Fname) (dir : Option Dir) : Slot :=
  match dir with
  | none => .absent none
  | some d =>
    match openQueue conf sys listing d with
    | (none, _) => .absent (some d)
    | (some q, proc) => .listed (mqSmGetMsgCount conf sys listing ⟨d, proc, q⟩)

/-- Counting messages changes no file. -/
theorem getMsgCount_dir (conf : UcmqConf) (sys : Sys) (listing : List Fname) (st : Store) :
    (mqSmGetMsgCount conf sys listing st).dir = st.dir := by
  obtain ⟨unread, put, get, heq⟩ := Recovery.getMsgCount_eq conf sys listing st
  rw [heq]

/-- Counting messages opens and maps nothing. -/
theorem getMsgCount_proc (conf : UcmqConf) (sys : Sys) (listing : List Fname) (st : Store) :
    (mqSmGetMsgCount conf sys listing st).proc = st.proc := by
  obtain ⟨unread, put, get, heq⟩ := Recovery.getMsgCount_eq conf sys listing st
  rw [heq]

/-- Entries that loading a directory adds. -/
def openEntries (conf : UcmqConf) (sys : Sys) (listing : List Fname) (n : String)
    (dir : Option Dir) :
    List QueueEntry :=
  match dir with
  | none => []
  | some d =>
    match openQueue conf sys listing d with
    | (none, _) => []
    | (some q, proc) => [⟨n, proc, q⟩]

/-- Loading one directory adds its own entries only. -/
theorem openStoreStep_entries (sys : String → Sys) (listing : String → List Fname) (s : Server)
    (x n : String) :
    (openStoreStep sys listing s x).conf = s.conf ∧ (openStoreStep sys listing s x).dirs = s.dirs ∧
      entriesOf n (openStoreStep sys listing s x).qlist =
        (if x = n then openEntries s.conf (sys x) (listing x) x (s.dirs x) else []) ++
          entriesOf n s.qlist := by
  unfold openStoreStep openEntries
  cases hd : s.dirs x with
  | none => simp
  | some d =>
    simp only
    cases ho : openQueue s.conf (sys x) (listing x) d with
    | mk q proc =>
      cases q with
      | none => simp
      | some q =>
        refine ⟨rfl, rfl, ?_⟩
        rw [entriesOf_cons]
        by_cases hx : x = n <;> simp [hx]

/-- Loading the store lists each existing name from its own directory. -/
theorem openStore_entries (sys : String → Sys) (listing : String → List Fname) {names : List String}
    (hnd : names.Nodup) (s : Server) (n : String) :
    (mqQmOpenStore sys names listing s).conf = s.conf ∧
      (mqQmOpenStore sys names listing s).dirs = s.dirs ∧
      entriesOf n (mqQmOpenStore sys names listing s).qlist =
        (if n ∈ names then openEntries s.conf (sys n) (listing n) n (s.dirs n) else []) ++
          entriesOf n s.qlist := by
  induction names generalizing s with
  | nil => simp [mqQmOpenStore]
  | cons x names ih =>
    obtain ⟨hx, hnd⟩ := List.nodup_cons.mp hnd
    obtain ⟨hc, hd, he⟩ := openStoreStep_entries sys listing s x n
    obtain ⟨hc', hd', he'⟩ := ih hnd (openStoreStep sys listing s x)
    rw [hc] at hc'
    rw [hd] at hd'
    rw [hc, hd, he] at he'
    refine ⟨hc', hd', ?_⟩
    show entriesOf n (mqQmOpenStore sys names listing (openStoreStep sys listing s x)).qlist = _
    rw [he']
    by_cases hxn : x = n
    · subst hxn
      simp [hx]
    · simp [hxn, Ne.symm hxn]

/-- Counting keeps the names of the entries. -/
theorem entriesOf_map_countEntry (sys : String → Sys) (listing : String → List Fname) (s : Server)
    (n : String) (l : List QueueEntry) :
    entriesOf n (l.map (countEntry sys listing s)) =
      (entriesOf n l).map (countEntry sys listing s) := by
  induction l with
  | nil => rfl
  | cons e l ih =>
    rw [List.map_cons, entriesOf_cons, entriesOf_cons]
    have hname : (countEntry sys listing s e).qname = e.qname := rfl
    rw [hname, ih]
    split <;> rfl

/-- A restart reloads every name from its directory. -/
theorem restart_hasSlot {sys : String → Sys} {names : List String} {listing : String → List Fname}
    (hnd : names.Nodup) (hnames : ∀ n, n ∈ names ↔ (s.dirs n).isSome = true)
    (h : HasSlot s n slot) :
    (restartServer sys names listing s).conf = s.conf ∧
      HasSlot (restartServer sys names listing s) n
        (reloaded s.conf (sys n) (listing n) (Slot.dir slot)) := by
  have hdir := dirs_of_hasSlot h
  obtain ⟨hc, hd, he⟩ := openStore_entries sys listing hnd (endProcess s) n
  have hbase : entriesOf n (endProcess s).qlist = [] := rfl
  have hentries : entriesOf n (mqQmOpenStore sys names listing (endProcess s)).qlist =
      openEntries s.conf (sys n) (listing n) n (Slot.dir slot) := by
    rw [he, hbase, List.append_nil, ← hdir]
    by_cases hn : n ∈ names
    · rw [if_pos hn]
      rfl
    · have hnone : s.dirs n = none := by
        rw [hnames n] at hn
        simpa using hn
      rw [if_neg hn, hnone]
      rfl
  unfold restartServer mqQmGetStoreCount
  generalize mqQmOpenStore sys names listing (endProcess s) = s₁ at hc hd hentries ⊢
  have hc₁ : s₁.conf = s.conf := hc
  have hd₁ : s₁.dirs n = Slot.dir slot := by rw [hd, ← hdir]; rfl
  refine ⟨hc₁, ?_⟩
  cases hsd : Slot.dir slot with
  | none =>
    rw [hsd] at hentries hd₁
    exact ⟨by rw [entriesOf_map_countEntry, hentries]; rfl, hd₁⟩
  | some d =>
    rw [hsd] at hentries hd₁
    simp only [openEntries] at hentries
    simp only [reloaded]
    cases ho : openQueue s.conf (sys n) (listing n) d with
    | mk q proc =>
      rw [ho] at hentries
      cases q with
      | none => exact ⟨by rw [entriesOf_map_countEntry, hentries]; rfl, hd₁⟩
      | some q =>
        refine ⟨?_, by rw [getMsgCount_dir]; exact hd₁⟩
        rw [entriesOf_map_countEntry, hentries, getMsgCount_proc]
        simp only [List.map_cons, List.map_nil, countEntry, Server.store, hd₁, hc₁,
          Option.getD_some]

/-- What one event does to the place of a name. -/
inductive SlotStep (conf : UcmqConf) (opts : List String) (n : String) :
    Event → List Reply → Slot → Slot → Prop
  | other {sys : Sys} {req : Request} {rs : List Reply} {slot : Slot} (hn : req.name ≠ some n) :
      SlotStep conf opts n (.request sys req) rs slot slot
  | handled {sys : Sys} {req : Request} {rs : List Reply} {slot slot' : Slot} (hok : sys.Ok)
      (hn : req.name = some n) (hopt : ∃ o ∈ opts, req.opt = some o)
      (h : Handled conf sys req slot rs slot') :
      SlotStep conf opts n (.request sys req) rs slot slot'
  | restarted {sys : String → Sys} {names : List String} {listing : String → List Fname}
      {slot : Slot} (hok : (sys n).Ok)
      (hl : ∀ d, Slot.dir slot = some d → IsListing d (listing n)) :
      SlotStep conf opts n (.restart sys names listing) [] slot
        (reloaded conf (sys n) (listing n) (Slot.dir slot))

variable {opts : List String} {ev : Event} {rs : List Reply} {banner : String} {tr : History}

/-- The event deletes the queue of a name, if it is listed. -/
def DeletedIn (n : String) : Event → Prop
  | .request _ req => req.name = some n ∧ Deletes req
  | .restart _ _ _ => False

/-- Events whose options delete nothing delete no queue. -/
theorem not_deletedIn {slot' : Slot} (h : SlotStep conf opts n ev rs slot slot')
    (hkeep : ∀ o ∈ opts, o ∉ deletingOpts) : ¬DeletedIn n ev := by
  cases h with
  | other hn => exact fun hdel => hn hdel.1
  | handled _ _ hopt => exact fun hdel => not_deletes hopt hkeep hdel.2
  | restarted => exact id

/-- An event served in a server where every name is in order. -/
theorem slotStep_of_serve (hopts : ∀ o ∈ opts, o ∈ queueOpts) (ha : Admissible opts s ev)
    (hall : ∀ n, ∃ slot, HasSlot s n slot) (hs : serve banner ev s = .ok (rs, s')) :
    s'.conf = s.conf ∧ ∀ n slot, HasSlot s n slot →
      ∃ slot', HasSlot s' n slot' ∧ SlotStep s.conf opts n ev rs slot slot' := by
  cases ev with
  | request sys req =>
    obtain ⟨hok, o, ho, he⟩ := ha
    have hqopt : ∃ o ∈ queueOpts, req.opt = some o := ⟨o, hopts o ho, he⟩
    cases hname : req.name with
    | none =>
      obtain rfl := entry_of_noName hname hqopt hs
      exact ⟨rfl, fun n slot h => ⟨slot, h, .other (by rw [hname]; simp)⟩⟩
    | some m =>
      obtain ⟨mslot, hm⟩ := hall m
      obtain ⟨hsame, mslot', hm', hh⟩ := entry_effect hok hname hqopt hm hs
      refine ⟨hsame.conf, fun n slot h => ?_⟩
      by_cases hn : n = m
      · subst hn
        obtain ⟨-, slot', hs', hh'⟩ := entry_effect hok hname hqopt h hs
        exact ⟨slot', hs', .handled hok hname ⟨o, ho, he⟩ hh'⟩
      · refine ⟨slot, hsame.hasSlot hn h, .other ?_⟩
        rw [hname]
        exact fun heq => hn (Option.some.inj heq).symm
  | restart sys names listing =>
    obtain ⟨hok, hnd, hnames, hl⟩ := ha
    cases hs
    obtain ⟨slot₀, h₀⟩ := hall ""
    refine ⟨(restart_hasSlot hnd hnames h₀).1, fun n slot h => ?_⟩
    refine ⟨_, (restart_hasSlot hnd hnames h).2, .restarted (hok n) fun d hd => hl n d ?_⟩
    rw [dirs_of_hasSlot h, hd]

/-- A property of the history and of the place of a name, kept by every event,
holds after every run. -/
theorem run_places {G : Event → String → Slot → Prop} {J : String → History → Slot → Prop}
    (hopts : ∀ o ∈ opts, o ∈ queueOpts) (hinit : ∀ n, J n [] (.absent none))
    (hstep : ∀ n ev rs slot slot' tr, J n tr slot → G ev n slot →
      SlotStep conf opts n ev rs slot slot' → J n (tr ++ [(ev, rs)]) slot')
    (h : Run (serve banner) (Guarded opts G) (Server.start conf) tr s) :
    s.conf = conf ∧ ∀ n, ∃ slot, HasSlot s n slot ∧ J n tr slot := by
  refine h.invariant (I := fun tr s => s.conf = conf ∧ ∀ n, ∃ slot, HasSlot s n slot ∧ J n tr slot)
    ⟨rfl, fun n => ⟨.absent none, ⟨rfl, rfl⟩, hinit n⟩⟩ ?_
  rintro tr s ev rs s' ⟨hc, hJ⟩ ⟨ha, hG⟩ hs
  obtain ⟨hc', hsl⟩ := slotStep_of_serve hopts ha (fun n => (hJ n).imp fun _ h => h.1) hs
  refine ⟨hc'.trans hc, fun n => ?_⟩
  obtain ⟨slot, hslot, hj⟩ := hJ n
  obtain ⟨slot', hslot', hst⟩ := hsl n slot hslot
  rw [hc] at hst
  exact ⟨slot', hslot', hstep n ev rs slot slot' tr hj (hG n slot hslot) hst⟩

/-- Run conditions may be weakened. -/
theorem Guarded.mono {opts' : List String} {G G' : Event → String → Slot → Prop}
    (hopts : ∀ o ∈ opts, o ∈ opts') (hG : ∀ ev n slot, G ev n slot → G' ev n slot)
    (h : Guarded opts G s ev) : Guarded opts' G' s ev := by
  obtain ⟨ha, hall⟩ := h
  refine ⟨?_, fun n slot hslot => hG ev n slot (hall n slot hslot)⟩
  cases ev with
  | request sys req =>
    obtain ⟨hok, o, ho, heq⟩ := ha
    exact ⟨hok, o, hopts o ho, heq⟩
  | restart sys names listing => exact ha

/-- A run under a condition is one under every weaker condition. -/
theorem run_mono (opts' : List String) {G G' : Event → String → Slot → Prop}
    (hopts : ∀ o ∈ opts, o ∈ opts') (hG : ∀ ev n slot, G ev n slot → G' ev n slot)
    {s₀ : Server} (h : Run (serve banner) (Guarded opts G) s₀ tr s) :
    Run (serve banner) (Guarded opts' G') s₀ tr s :=
  h.mono fun _ _ hg => hg.mono hopts hG

/-- A property of the history and of the place of one name, kept by every event
that meets the condition of that name, holds after every run. -/
theorem run_place {G : Event → String → Slot → Prop} {J : History → Slot → Prop}
    (hopts : ∀ o ∈ opts, o ∈ queueOpts) (hinit : J [] (.absent none))
    (hstep : ∀ ev rs slot slot' tr, J tr slot → G ev n slot →
      SlotStep conf opts n ev rs slot slot' → J (tr ++ [(ev, rs)]) slot')
    (h : Run (serve banner) (Guarded opts (ForName conf n G)) (Server.start conf) tr s) :
    ∃ slot, HasSlot s n slot ∧ J tr slot := by
  obtain ⟨-, hall⟩ := run_places (J := fun m tr slot => m = n → J tr slot) hopts
    (fun _ _ => hinit) (fun m ev rs slot slot' tr hj hg hst hm => by
      subst hm
      exact hstep ev rs slot slot' tr (hj rfl) (hg.2 rfl) hst) h
  obtain ⟨slot, hslot, hj⟩ := hall n
  exact ⟨slot, hslot, hj rfl⟩

/-- After a run every name has a place. -/
theorem places_of_run {G : Event → String → Slot → Prop} (hopts : ∀ o ∈ opts, o ∈ queueOpts)
    (h : Run (serve banner) (Guarded opts G) (Server.start conf) tr s) :
    s.conf = conf ∧ ∀ n, ∃ slot, HasSlot s n slot := by
  obtain ⟨hconf, hall⟩ := run_places (J := fun _ _ _ => True) hopts (fun _ => trivial)
    (fun _ _ _ _ _ _ _ _ _ => trivial) h
  exact ⟨hconf, fun n => (hall n).imp fun _ h => h.1⟩

/-- Accepted bodies after one event more. -/
theorem accepted_snoc (n : String) (tr : History) (e : Event × List Reply) :
    accepted n (tr ++ [e]) = accepted n tr ++ acceptedIn n e := by
  simp [accepted]

/-- Returned bodies after one event more. -/
theorem returned_snoc (n : String) (tr : History) (e : Event × List Reply) :
    returned n (tr ++ [e]) = returned n tr ++ returnedIn n e := by
  simp [returned]

/-- A property of the bodies accepted and returned under a name and of its
place, kept by every event, holds after every run. -/
theorem run_slots {G : Event → String → Slot → Prop}
    {J : String → List (List UInt8) → List (List UInt8) → Slot → Prop}
    (hopts : ∀ o ∈ opts, o ∈ queueOpts) (hinit : ∀ n, J n [] [] (.absent none))
    (hstep : ∀ n ev rs slot slot' acc ret, J n acc ret slot → G ev n slot →
      SlotStep conf opts n ev rs slot slot' →
      J n (acc ++ acceptedIn n (ev, rs)) (ret ++ returnedIn n (ev, rs)) slot')
    (h : Run (serve banner) (Guarded opts G) (Server.start conf) tr s) :
    s.conf = conf ∧ ∀ n, ∃ slot, HasSlot s n slot ∧ J n (accepted n tr) (returned n tr) slot := by
  refine run_places (J := fun n tr slot => J n (accepted n tr) (returned n tr) slot)
    hopts hinit ?_ h
  intro n ev rs slot slot' tr hj hg hst
  rw [accepted_snoc, returned_snoc]
  exact hstep n ev rs slot slot' _ _ hj hg hst

/-- A property of the bodies accepted and returned under one name and of its
place, kept by every event that meets the condition of that name, holds after
every run. -/
theorem run_slot {G : Event → String → Slot → Prop}
    {J : List (List UInt8) → List (List UInt8) → Slot → Prop}
    (hopts : ∀ o ∈ opts, o ∈ queueOpts) (hinit : J [] [] (.absent none))
    (hstep : ∀ ev rs slot slot' acc ret, J acc ret slot → G ev n slot →
      SlotStep conf opts n ev rs slot slot' →
      J (acc ++ acceptedIn n (ev, rs)) (ret ++ returnedIn n (ev, rs)) slot')
    (h : Run (serve banner) (Guarded opts (ForName conf n G)) (Server.start conf) tr s) :
    ∃ slot, HasSlot s n slot ∧ J (accepted n tr) (returned n tr) slot := by
  refine run_place (J := fun tr slot => J (accepted n tr) (returned n tr) slot) hopts hinit ?_ h
  intro ev rs slot slot' tr hj hg hst
  rw [accepted_snoc, returned_snoc]
  exact hstep ev rs slot slot' _ _ hj hg hst

/-- A run goes on with a request. -/
theorem run_request {G : Event → String → Slot → Prop} {sys : Sys} {req : Request} {s₀ : Server}
    (h : Run (serve banner) (Guarded opts G) s₀ tr s) (hok : sys.Ok)
    (hopt : ∃ o ∈ opts, req.opt = some o)
    (hG : ∀ n slot, HasSlot s n slot → G (.request sys req) n slot)
    (hres : mqEvhttpCbDoOptEntry banner sys req s = .ok (rs, s')) :
    Run (serve banner) (Guarded opts G) s₀ (tr ++ [(.request sys req, rs)]) s' :=
  h.snoc ⟨⟨hok, hopt⟩, hG⟩ hres

/-- One name is listed and all others are free. -/
structure OnlyQueue (conf : UcmqConf) (s : Server) (n : String) (st : Store) : Prop where
  conf_eq : s.conf = conf
  slot : HasSlot s n (.listed st)
  others : ∀ x, x ≠ n → HasSlot s x (.absent none)

/-- The only queue stays so when nothing else changed. -/
theorem OnlyQueue.of_same {st st' : Store} (h : OnlyQueue conf s n st)
    (hsame : SameElsewhere n s s') (hs : HasSlot s' n (.listed st')) : OnlyQueue conf s' n st' :=
  ⟨hsame.conf.trans h.conf_eq, hs, fun x hx => hsame.hasSlot hx (h.others x hx)⟩

/-- The list holds just that queue. -/
theorem OnlyQueue.qlist {st : Store} (h : OnlyQueue conf s n st) :
    s.qlist = [⟨n, st.proc, st.q⟩] := by
  have hall : ∀ e ∈ s.qlist, e.qname = n := by
    intro e he
    by_contra hne
    have hmem : e ∈ entriesOf e.qname s.qlist := by simp [entriesOf, he]
    rw [(h.others _ hne).1] at hmem
    cases hmem
  have hfilter : entriesOf n s.qlist = s.qlist := by
    rw [entriesOf, List.filter_eq_self]
    intro e he
    simpa using hall e he
  rw [← hfilter]
  exact h.slot.1

/-- A server with one queue can be restarted, which reloads its place. -/
theorem OnlyQueue.reloads {sys : Sys} {listing : List Fname} {st : Store}
    (h : OnlyQueue conf s n st) (opts : List String) (hok : sys.Ok)
    (hl : IsListing st.dir listing) :
    Admissible opts s (.restart (fun _ => sys) [n] (fun _ => listing)) ∧
      (restartServer (fun _ => sys) [n] (fun _ => listing) s).conf = conf ∧
      HasSlot (restartServer (fun _ => sys) [n] (fun _ => listing) s) n
        (reloaded conf sys listing (some st.dir)) ∧
      ∀ x, x ≠ n →
        HasSlot (restartServer (fun _ => sys) [n] (fun _ => listing) s) x (.absent none) := by
  have hdirs : ∀ x, x ≠ n → s.dirs x = none := fun x hx => (h.others x hx).2
  have hself : s.dirs n = some st.dir := h.slot.2
  have hnames : ∀ x, x ∈ [n] ↔ (s.dirs x).isSome = true := by
    intro x
    by_cases hx : x = n
    · simp [hx, hself]
    · simp [hx, hdirs x hx]
  have hnd : [n].Nodup := List.nodup_singleton n
  refine ⟨⟨fun _ => hok, hnd, hnames, ?_⟩, ?_, ?_, ?_⟩
  · intro x d hd
    by_cases hx : x = n
    · rw [hx, hself] at hd
      cases hd
      exact hl
    · rw [hdirs x hx] at hd
      cases hd
  · exact (restart_hasSlot hnd hnames h.slot).1.trans h.conf_eq
  · have hslot := (@restart_hasSlot s n _ (fun _ => sys) _ (fun _ => listing) hnd hnames h.slot).2
    rw [h.conf_eq] at hslot
    exact hslot
  · intro x hx
    exact (restart_hasSlot hnd hnames (h.others x hx)).2

/-- A queue that is loaded again is still the only one. -/
theorem OnlyQueue.restart {sys : Sys} {listing : List Fname} {st st' : Store}
    (h : OnlyQueue conf s n st) (opts : List String) (hok : sys.Ok) (hl : IsListing st.dir listing)
    (hre : reloaded conf sys listing (some st.dir) = .listed st') :
    Admissible opts s (.restart (fun _ => sys) [n] (fun _ => listing)) ∧
      OnlyQueue conf (restartServer (fun _ => sys) [n] (fun _ => listing) s) n st' := by
  obtain ⟨hadm, hconf, hslot, hothers⟩ := h.reloads opts hok hl
  rw [hre] at hslot
  exact ⟨hadm, hconf, hslot, hothers⟩

/-- Requests under another name accept nothing for this one. -/
theorem acceptedIn_of_ne {sys : Sys} {req : Request} (hn : req.name ≠ some n) :
    acceptedIn n (.request sys req, rs) = [] := if_neg fun h => hn h.2.1

/-- Requests under another name return nothing of this one. -/
theorem returnedIn_of_ne {sys : Sys} {req : Request} (hn : req.name ≠ some n) :
    returnedIn n (.request sys req, rs) = [] := if_neg fun h => hn h.2

/-- Silent replies accept nothing. -/
theorem acceptedIn_of_silent {sys : Sys} {req : Request} (h : Silent rs) :
    acceptedIn n (.request sys req, rs) = [] := by
  refine if_neg ?_
  rintro ⟨-, -, r, hr, hp⟩
  rw [(h r hr).1] at hp
  cases hp

/-- Silent replies return nothing. -/
theorem returnedIn_of_silent {sys : Sys} {req : Request} (h : Silent rs) :
    returnedIn n (.request sys req, rs) = [] := by
  have hnone : rs.filter (fun r => r.pos.isSome) = [] := by
    rw [List.filter_eq_nil_iff]
    intro r hr
    rw [(h r hr).1]
    decide
  simp [returnedIn, hnone]

/-- A put accepts its body exactly when it is stored. -/
theorem acceptedIn_put {sys : Sys} {req : Request} {ret : QueuePutRet} {r : Reply}
    (hopt : req.opt = some "put") (hn : req.name = some n) (hr : ShowsPut ret r) :
    acceptedIn n (.request sys req, [r]) = if ret = .putOk then [putBody req] else [] := by
  have hiff : AcceptedPut n req [r] ↔ ret = .putOk := by
    rw [← hr.2]
    constructor
    · rintro ⟨-, -, x, hx, hp⟩
      rwa [List.mem_singleton.mp hx] at hp
    · exact fun hp => ⟨hopt, hn, r, List.mem_singleton_self r, hp⟩
  simp only [acceptedIn, hiff]

/-- A put returns nothing. -/
theorem returnedIn_put {sys : Sys} {req : Request} (hopt : req.opt = some "put") :
    returnedIn n (.request sys req, rs) = [] := if_neg fun h => by rw [hopt] at h; simp at h

/-- A get accepts nothing. -/
theorem acceptedIn_get {sys : Sys} {req : Request} (hopt : req.opt = some "get") :
    acceptedIn n (.request sys req, rs) = [] := if_neg fun h => by
  have := h.1
  rw [hopt] at this
  simp at this

/-- The bodies a result of a get delivers. -/
def gotten : QueueGetRet → List (List UInt8)
  | .getEnd => []
  | .getOk item => [item.msg.take item.len]

/-- A get returns the message it got. -/
theorem returnedIn_get {sys : Sys} {req : Request} {ret : QueueGetRet} {r : Reply}
    (hopt : req.opt = some "get") (hn : req.name = some n) (hr : ShowsGet ret r) :
    returnedIn n (.request sys req, [r]) = gotten ret := by
  rw [returnedIn, if_pos ⟨hopt, hn⟩]
  cases ret with
  | getEnd =>
    have hp : r.pos.isSome = false := by rw [hr.1]; rfl
    simp [hp, gotten]
  | getOk item => simp [hr.1, hr.2, gotten]

/-- A body is accepted from a put that reached the store. -/
theorem reaches_of_accepted {slot' : Slot} {b : List UInt8}
    (hs : SlotStep conf opts n ev rs slot slot') (hb : b ∈ acceptedIn n (ev, rs)) :
    ∃ sys req, ev = .request sys req ∧ req.name = some n ∧ ReachesStore conf sys req slot ∧
      b = putBody req := by
  cases hs with
  | other hn =>
    rw [acceptedIn_of_ne hn] at hb
    cases hb
  | restarted => cases hb
  | @handled sys req rs slot slot' hok hn hopt hh =>
    have hsilent : ¬Silent rs := by
      intro hrs
      rw [acceptedIn_of_silent hrs] at hb
      cases hb
    cases hh with
    | unchanged hrs => exact absurd hrs hsilent
    | get hget =>
      rw [acceptedIn_get hget] at hb
      cases hb
    | set _ _ _ hrs => exact absurd hrs hsilent
    | removed _ hrs => exact absurd hrs hsilent
    | reset _ hrs => exact absurd hrs hsilent
    | @put _ st st' size msg ret r hput ht hm hlen hp hr =>
      rw [acceptedIn_put hput hn hr] at hb
      by_cases hret : ret = .putOk
      · rw [if_pos hret] at hb
        subst hret
        refine ⟨sys, req, rfl, hn, ⟨hput, ⟨size, msg, hm, hlen⟩, ?_⟩, List.mem_singleton.mp hb⟩
        rintro st' rfl
        cases ht
        exact putOpen_of_putOk hp
      · rw [if_neg hret] at hb
        cases hb

end Ucmq.ServerRun
