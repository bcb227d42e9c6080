import Ucmq.DirectoryLayout

/-!
# Pending bodies and their delivery

The bodies pending under a name are those accepted and not yet returned since
its queue was last deleted. In an orderly run the queue of a name holds and
counts exactly these, and its gets deliver them in order and then report the
end. The same is said of a directory that is loaded after the process was
killed, whatever state it was left in.
-/

namespace Ucmq.PendingBodies

open LabelledRun StoreConfig StoreMsg StoreState StoreRtag StoreFile StoreManage QueueManage
open StoreInvariant ReadPath WritePath HandleFile Recovery Evhttp QueueStep QueueSlots RequestEffect
open ServerRun CleanRestart FifoRefinement RotationRuns DeliveryOrder UnreadCount CursorInvariant

instance (req : Request) : Decidable (Deletes req) :=
  decidable_of_iff (req.parsed = true ∧ reqQnameCheck req.name = true ∧
    ∃ o ∈ deletingOpts, req.opt = some o) ⟨fun h => ⟨h.1, h.2.1, h.2.2⟩, fun h => ⟨h.1, h.2, h.3⟩⟩

instance (n : String) (ev : Event) : Decidable (DeletedIn n ev) :=
  match ev with
  | .request _ req => inferInstanceAs (Decidable (req.name = some n ∧ Deletes req))
  | .restart _ _ _ => inferInstanceAs (Decidable False)

/-- Bodies pending under a name after one more event. -/
def pendingIn (n : String) (bodies : List (List UInt8)) (e : Event × List Reply) :
    List (List UInt8) :=
  if DeletedIn n e.1 then [] else (bodies ++ acceptedIn n e).drop (returnedIn n e).length

/-- Bodies accepted and not returned since the queue of a name was deleted. -/
def pending (n : String) (tr : History) : List (List UInt8) := tr.foldl (pendingIn n) []

/-- Bodies that reach the store are stored whole, stored counts are in order, and
restarts find the queue recorded and in reach. -/
structure Orderly (conf : UcmqConf) (ev : Event) (n : String) (slot : Slot) : Prop where
  limits : WithinLimits conf ev n slot
  counts : PutCountsKept conf ev n slot
  recorded : RecordedRestarts conf ev n slot

variable {conf : UcmqConf} {sys : Sys} {clean : Prop} {st st' : Store}
  {finished pend : List (Msg conf)}
variable {n : String} {slot slot' : Slot} {ev : Event} {rs : List Reply}
  {bodies : List (List UInt8)}
variable {banner : String} {tr : History} {s : Server}

/-- The pending bodies move as those of the queue. -/
theorem pendingIn_of_moved {bodies' : List (List UInt8)} {opts : List String}
    (hg : WithinLimits conf ev n slot) (hs : SlotStep conf opts n ev rs slot slot')
    (h : BodiesMoved n ev rs bodies bodies') : pendingIn n bodies (ev, rs) = bodies' := by
  by_cases hdel : DeletedIn n ev
  · rw [pendingIn, if_pos hdel, h.deleted hdel]
  · have hb := h.kept hdel
    rw [storedBody_acceptedIn hg hs] at hb
    rw [pendingIn, if_neg hdel, hb, List.drop_left]

/-- A name that is orderly in a run holds and counts its pending bodies. -/
theorem counted_of_run
    (h : Run (serve banner) (Guarded queueOpts (ForName conf n (Orderly conf)))
      (Server.start conf) tr s) :
    ∃ slot, HasSlot s n slot ∧ CountedSlot conf True (pending n tr) slot := by
  refine run_place (J := fun tr slot => CountedSlot conf True (pending n tr) slot)
    (fun _ ho => ho) ⟨.free, trivial, rfl⟩ (fun ev rs slot slot' tr hJ hg hs => ?_) h
  obtain ⟨bodies', hslot', hmoved⟩ := countedSlot_step hJ hg.counts hs (fun _ => trivial) (by
    rintro ⟨sys, names, listing, rfl⟩ -
    exact hg.recorded.2)
  have hnext : pending n (tr ++ [(ev, rs)]) = bodies' := by
    rw [pending, List.foldl_append]
    exact pendingIn_of_moved hg.limits hs hmoved
  rw [hnext]
  exact hslot'

/-- A listed queue that is orderly in a run is sound. -/
theorem sound_of_run
    (h : Run (serve banner) (Guarded queueOpts (ForName conf n (Orderly conf)))
      (Server.start conf) tr s)
    (hslot : HasSlot s n (.listed st)) : ∃ finished pend, Sound conf True st finished pend := by
  obtain ⟨slot, hslot', hcounted⟩ := counted_of_run h
  obtain rfl := hasSlot_unique hslot hslot'
  have htracked := hcounted.tracked
  generalize pending n tr = bodies at htracked
  cases htracked with
  | held hs _ => exact ⟨_, _, hs⟩

/-- A stored put adds its body to the pending ones. -/
theorem pending_put (tr : History) {body : List UInt8}
    (h : fifoOut (Request.of "put" "q" body) rs = .stored) :
    pending "q" (tr ++ [(putEvent sys body, rs)]) = pending "q" tr ++ [body] := by
  have hdel : ¬DeletedIn "q" (putEvent sys body) := fun hd =>
    not_deletes ⟨"put", List.mem_singleton_self _, rfl⟩ (by decide) hd.2
  rw [pending, List.foldl_append, List.foldl_cons, List.foldl_nil, pendingIn, if_neg hdel,
    acceptedIn_of_stored rfl rfl h, returnedIn_put rfl]
  rfl

/-- A get that returns a body takes the first of the pending ones. -/
theorem pending_get (tr : History) {b : List UInt8}
    (h : fifoOut (Request.of "get" "q" []) rs = .got b) :
    pending "q" (tr ++ [(getEvent sys, rs)]) = (pending "q" tr).drop 1 := by
  have hdel : ¬DeletedIn "q" (getEvent sys) := fun hd =>
    not_deletes ⟨"get", List.mem_singleton_self _, rfl⟩ (by decide) hd.2
  rw [pending, List.foldl_append, List.foldl_cons, List.foldl_nil, pendingIn, if_neg hdel,
    acceptedIn_get rfl, returnedIn_of_got rfl rfl h, List.append_nil]
  rfl

/-- Runs with a rotation are orderly. -/
theorem orderly_admits {big : List UInt8} (hbig : big.length+140 = maxDbFileSize conf) :
    AdmitsRestart conf sys big [1] (Orderly conf) := by
  have hl : AdmitsRestart conf sys big [1] (WithinLimits conf) := withinLimits_admits hbig
  have hc : AdmitsRestart conf sys big [1] (PutCountsKept conf) := putCountsKept_admits
  have hr : AdmitsRestart conf sys big [1] (RecordedRestarts conf) := recordedRestarts_admits
  have hlc := hl.and hc fun _ _ _ h h' => And.intro h h'
  exact hlc.and hr fun _ _ _ h h' => ⟨h.1, h.2, h'⟩

/-- A get on a sound queue that counts its unread messages returns the oldest
one, once it is old enough. -/
theorem popItem_of_pending {m : Msg conf} (h : Sound conf clean st finished (m :: pend))
    (hl : Logged conf st finished) (hw : WriterLive st) (hu : pend.length+1 ≤ st.q.unreadCount)
    (hok : sys.Ok) (hold : ¬tooYoung sys st.q.delay m.time) :
    ∃ st' finished', mqQmPopItem conf sys st = .ok (.getOk m.item, st') ∧
      Sound conf clean st' finished' pend ∧ Logged conf st' finished' ∧ WriterLive st' ∧
      pend.length ≤ st'.q.unreadCount := by
  have hres := popResult_of_sound h hl hok
  generalize mqQmPopItem conf sys st = res at hres
  cases hres with
  | fault hdead => exact absurd hw hdead
  | none hz => omega
  | young hm hs hl' hy => exact absurd hy hold
  | @taken _ _ fin s' st' hm hpos hy hs hrec =>
    obtain ⟨hs', hl'⟩ := hs.recorded hrec
    have hlive : WriterLive (takeMsg s' m.body.length) := hm.writer hw
    have hunread : s'.q.unreadCount = st.q.unreadCount := by rw [hm.q]
    refine ⟨st', _, rfl, hs', hl', hrec.writerLive hlive, ?_⟩
    simp only [hrec.q, takeMsg, hunread]
    omega

/-- A get on a sound queue without unread messages reports the end. -/
theorem popItem_of_drained (h : Sound conf clean st finished []) (hl : Logged conf st finished)
    (hw : WriterLive st) (hok : sys.Ok) :
    ∃ st', mqQmPopItem conf sys st = .ok (.getEnd, st') ∧ st'.q.unreadCount = 0 := by
  have hres := popResult_of_sound h hl hok
  generalize mqQmPopItem conf sys st = res at hres
  cases hres with
  | fault hdead => exact absurd hw hdead
  | none hz => exact ⟨st, rfl, hz⟩
  | ended hm hs hl' => exact ⟨_, rfl, rfl⟩

/-- Gets that come late enough for the delay return these messages in order,
and then the end of the queue. -/
def Delivers (conf : UcmqConf) : List (Msg conf) → Store → Prop
  | [], st =>
    ∀ sys, sys.Ok → ∃ st', mqQmPopItem conf sys st = .ok (.getEnd, st') ∧ st'.q.unreadCount = 0
  | m :: ms, st => ∀ sys, sys.Ok → ¬tooYoung sys st.q.delay m.time →
    ∃ st', mqQmPopItem conf sys st = .ok (.getOk m.item, st') ∧ Delivers conf ms st'

/-- A sound queue that counts at least its unread messages delivers them. -/
theorem delivers_of_sound (h : Sound conf clean st finished pend) (hl : Logged conf st finished)
    (hw : WriterLive st) (hu : pend.length ≤ st.q.unreadCount) : Delivers conf pend st := by
  induction pend generalizing st finished with
  | nil => exact fun sys hok => popItem_of_drained h hl hw hok
  | cons m ms ih =>
    intro sys hok hold
    obtain ⟨st', finished', hpop, hs', hl', hw', hu'⟩ := popItem_of_pending h hl hw hu hok hold
    exact ⟨st', hpop, ih hs' hl' hw' hu'⟩

/-- Loading a directory succeeds and its gets deliver these bodies. -/
def Survives (conf : UcmqConf) (sys : Sys) (listing : List Fname) (dir : Dir)
    (bodies : List (List UInt8)) : Prop :=
  ∃ st pend, reloaded conf sys listing (some dir) = .listed st ∧ pend.map Msg.body = bodies ∧
    Delivers conf pend st

variable {dir : Dir} {r w : ℕ} {item : RtagItem} {listing : List Fname}

/-- A directory whose files cannot be chosen is not loaded. -/
theorem not_survives_of_unfound (h : findHandleFile sys listing = none) :
    ¬Survives conf sys listing dir bodies := by
  rintro ⟨st, pend, hload, -⟩
  simp only [reloaded, openQueue, h] at hload
  cases hload

/-- A restorable directory with honest heads survives. -/
theorem survives_of_restorable (h : Restorable conf clean dir r w item finished pend)
    (hh : HonestHeads conf dir.db r w item.wpos) (hok : sys.Ok) (hl : IsListing dir listing) :
    Survives conf sys listing dir (pend.map Msg.body) := by
  refine ⟨mqSmGetMsgCount conf sys listing (restored dir r w item), pend, ?_, rfl, ?_⟩
  · simp only [reloaded, openQueue_of_loadable h.loadable hok hl]
    rfl
  · obtain ⟨hs, hlog⟩ := sound_restored h
    have hcount := (getMsgCount_of_honest h.files h.rcount hh hok hl).1
    refine delivers_of_sound (sound_getMsgCount hs sys listing)
      (logged_getMsgCount hlog sys listing)
      ?_ hcount
    obtain ⟨unread, put, get, heq⟩ := getMsgCount_eq conf sys listing (restored dir r w item)
    rw [heq]
    exact @restored_writerLive dir r w item

/-- The state after the first effects of a sequence, which is cut off there. -/
def crashAfter {σ : Type} (effects : List (σ → σ)) (k : ℕ) (x : σ) : σ :=
  (effects.take k).foldl (fun x e => e x) x

end Ucmq.PendingBodies
