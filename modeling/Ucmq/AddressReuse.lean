import Ucmq.CounterAgreement
import Ucmq.FailedRotation
import Ucmq.OwnershipRuns

/-!
# Released addresses that are mapped again

All queues are mapped into one address space, and the address of a file that is
unmapped is given to what is mapped next. As long as a queue reads only what is
mapped for it, the mappings of other queues do not matter. A put that gives up
its write file and is then refused storage leaves its queue with a released
address. A get that moves on to that file reads whatever lies there by then: with
the file of another queue it finds no message, takes itself to be at the end of
its queue, and sets the unread count to zero while a message is pending.
-/

namespace Ucmq.AddressReuse

open ByteRegion LabelledRun StoreConfig StoreMsg StoreState StoreRtag StoreFile StoreManage
open QueueManage StoreInvariant ReadPath WritePath Recovery Evhttp QueueStep QueueSlots
open RequestEffect ServerRun CleanRestart FifoRefinement RotationRuns CursorInvariant
open DirectoryLayout CounterAgreement ResourceOwnership OwnershipRuns FailedRotation

variable {conf : UcmqConf} {sys : Sys} {others : ℕ → Option Region} {s s' : Store}

/-- Contents behind an address of a queue: those of its own mapping, or, once that
is released, those that another queue has mapped there. -/
def sharedView (conf : UcmqConf) (others : ℕ → Option Region) (s : Store) :
    Option ℕ → Except Fault (Option Region)
  | none => .ok none
  | some addr =>
    match s.proc.maps addr, others addr with
    | none, some d => .ok (some d)
    | _, _ => s.mapView conf (some addr)

/-- One iteration of the read loop. -/
def getDataStepIn (conf : UcmqConf) (sys : Sys) (others : ℕ → Option Region) (s : Store) :
    Except Fault GetStep :=
  if s.q.curRdb.curIndex = s.q.curWdb.curIndex ∧ s.q.curWdb.pos ≤ u32 (s.q.curRdb.pos+12) then
    .ok (.done none { s with q := { s.q with
      curRdb := { s.q.curRdb with pos := s.q.curWdb.pos }, unreadCount := 0 } })
  else
    match sharedView conf others s s.q.curRdb.mapMem with
    | .error e => .error e
    | .ok view =>
      match mqSmDbParseMsg conf view s.q.curRdb.pos with
      | .ok item =>
        if tooYoung sys s.q.delay item.delay then .ok (.done none s)
        else .ok (.done (some item) (takeMsg s item.len))
      | .magNumErr => .ok (.again (setReadPos s (u32 (s.q.curRdb.pos+1))))
      | .parseErr => .ok (.again (setReadPos s (u32 (s.q.curRdb.pos+2))))
      | .crcErr => .ok (.again (setReadPos s (u32 (s.q.curRdb.pos+2))))
      | .msgErr =>
        match getNextReadFile conf sys s with
        | (false, s) => .ok (.done none s)
        | (true, s) => .ok (.again s)
      | .lenBey =>
        match getNextReadFile conf sys s with
        | (false, s) => .ok (.done none s)
        | (true, s) => .ok (.again s)

/-- The read loop. -/
def getDataLoopIn (conf : UcmqConf) (sys : Sys) (others : ℕ → Option Region) :
    ℕ → Store → Except Fault (Option MsgItem × Store)
  | 0, _ => .error .fuel
  | fuel+1, s =>
    match getDataStepIn conf sys others s with
    | .error e => .error e
    | .ok (.done ret s) => .ok (ret, s)
    | .ok (.again s) => getDataLoopIn conf sys others fuel s

/-- Take the next message from a queue, in an address space in which other queues
have mapped these contents at its released addresses. -/
def mqQmPopItemIn (conf : UcmqConf) (sys : Sys) (others : ℕ → Option Region) (s : Store) :
    Except Fault (QueueGetRet × Store) :=
  if s.q.unreadCount < 1 then .ok (.getEnd, s)
  else
    match getDataLoopIn conf sys others (readDistance conf s+1) s with
    | .error e => .error e
    | .ok (none, s) => .ok (.getEnd, s)
    | .ok (some item, s) => .ok (.getOk item, (mqSmRtagWriteItem sys .item s).2)

/-- What is mapped for the queue itself is not covered by others. -/
theorem sharedView_of_ok {addr : Option ℕ} {view : Option Region}
    (h : s.mapView conf addr = .ok view) :
    sharedView conf others s addr = .ok view := by
  cases addr with
  | none => exact h
  | some a =>
    cases hm : s.proc.maps a with
    | none =>
      rw [Store.mapView, hm] at h
      cases h
    | some i => simp only [sharedView, hm, h]

/-- An iteration that uses its own mappings only does not see those of others. -/
theorem getDataStepIn_of_ok {r : GetStep} (h : getDataStep conf sys s = .ok r) :
    getDataStepIn conf sys others s = .ok r := by
  unfold getDataStep at h
  unfold getDataStepIn
  by_cases hend : s.q.curRdb.curIndex = s.q.curWdb.curIndex ∧
    s.q.curWdb.pos ≤ u32 (s.q.curRdb.pos+12)
  · rw [if_pos hend] at h ⊢
    exact h
  · rw [if_neg hend] at h ⊢
    cases hv : s.mapView conf s.q.curRdb.mapMem with
    | error e =>
      rw [hv] at h
      cases h
    | ok view =>
      rw [hv] at h
      rw [sharedView_of_ok hv]
      exact h

/-- Nor does a loop of such iterations. -/
theorem getDataLoopIn_of_ok {fuel : ℕ} {r : Option MsgItem × Store}
    (h : getDataLoop conf sys fuel s = .ok r) : getDataLoopIn conf sys others fuel s = .ok r := by
  induction fuel generalizing s with
  | zero => cases h
  | succ fuel ih =>
    rw [getDataLoop] at h
    rw [getDataLoopIn]
    cases hstep : getDataStep conf sys s with
    | error e =>
      rw [hstep] at h
      cases h
    | ok step =>
      rw [hstep] at h
      rw [getDataStepIn_of_ok hstep]
      cases step with
      | done ret s₁ => exact h
      | again s₁ => exact ih h

/-- A get that reads no released address is the same whatever others have mapped. -/
theorem popItemIn_of_ok {r : QueueGetRet × Store} (h : mqQmPopItem conf sys s = .ok r) :
    mqQmPopItemIn conf sys others s = .ok r := by
  unfold mqQmPopItem at h
  unfold mqQmPopItemIn
  by_cases hu : s.q.unreadCount < 1
  · rw [if_pos hu] at h ⊢
    exact h
  · rw [if_neg hu, mqSmGetData] at h
    rw [if_neg hu]
    cases hloop : getDataLoop conf sys (readDistance conf s+1) s with
    | error e =>
      rw [hloop] at h
      cases h
    | ok x =>
      obtain ⟨ret, s₁⟩ := x
      rw [hloop] at h
      rw [getDataLoopIn_of_ok hloop]
      cases ret <;> exact h

variable {srv : Server} {tr : History} {banner : String}

/-- In the runs in which counters agree, no get of a listed queue reads a released
address. -/
theorem popItemIn_of_run
    (h : Run (serve banner) (Guarded layoutOpts (Undisturbed conf)) (Server.start conf) tr srv)
    (hok : sys.Ok) :
    ∀ e ∈ srv.qlist, ∃ r, mqQmPopItem conf sys (srv.store e) = .ok r ∧
      ∀ others, mqQmPopItemIn conf sys others (srv.store e) = .ok r := by
  intro e he
  have hexact := exact_of_run (run_mono queueOpts (by decide) (fun ev n slot hg => by
    cases ev with
    | request sys req => exact hg.2
    | restart sys names listing => exact hg.1.elim) h) e he
  obtain ⟨slot, hslot, bodies, ht, -⟩ :=
    agreeing_of_run (run_mono layoutOpts (fun _ ho => ho) (fun _ _ _ hg => And.left hg) h) e.qname
  obtain rfl := slot_of_mem he hslot
  cases ht with
  | held hs hl =>
    have hlive : WriterLive (srv.store e) := hs.held.wmap.resolve_right fun hdead => by
      obtain ⟨b, hb, -, hm⟩ := hdead
      have href : b ∈ refMaps e.q := Or.inr hb
      rw [← hexact.maps] at href
      exact href hm
    have hres := popResult_of_sound hs (hl.resolve_right fun hf => hf.1) hok
    cases hp : mqQmPopItem conf sys (srv.store e) with
    | error f =>
      rw [hp] at hres
      cases hres with
      | fault hdead => exact absurd hlive hdead
    | ok r => exact ⟨r, rfl, fun _ => popItemIn_of_ok hp⟩

/-- A reader that moves on to a released write file takes over its address. -/
theorem step_to_released (h : Readable conf s) (hat : AtReadSwitch conf s) (hdead : WriterDead s)
    (hlast : s.q.curRdb.curIndex+1 = s.q.curWdb.curIndex) (hok : sys.Ok) :
    ∃ s₁ b, getDataStep conf sys s = .ok (.again s₁) ∧ s.q.curWdb.mapMem = some b ∧
      s₁.q = { s.q with rtagFd := s₁.q.rtagFd, curRdb := s₁.q.curRdb } ∧ s₁.proc.maps b = none ∧
      s₁.q.curRdb.mapMem = some b ∧ s₁.q.curRdb.pos = 128 ∧
      s₁.q.curRdb.curIndex = s₁.q.curWdb.curIndex := by
  obtain ⟨s₂, hnext, hsw⟩ := getNextReadFile_logSwitched h hok hat.behind
  obtain ⟨view, hview, hleaves⟩ := hat.leaves
  obtain ⟨b, hb, -, hm⟩ := hdead
  have hw : s₂.q.curWdb = s.q.curWdb := by rw [hsw.q]
  have hmap : s₂.proc.maps b = none := by
    rw [hsw.maps, hm, ite_self]
  rw [openReadFile, if_pos (by rw [hw]; exact hlast)] at hnext
  have hstep : getDataStep conf sys s = .ok (.again { s₂ with q := { s₂.q with
      curRdb := { s₂.q.curRdb with
        mapMem := s₂.q.curWdb.mapMem, fd := s₂.q.curWdb.fd, flag := true } } }) := by
    rw [getDataStep, if_neg (fun hend => hat.behind.ne hend.1), hview]
    rcases hleaves with hp | hp <;> simp only [hp, hnext]
  refine ⟨_, b, hstep, hb, ?_, hmap, ?_, ?_, ?_⟩
  · rw [hsw.q]
  · show s₂.q.curWdb.mapMem = some b
    rw [hw, hb]
  · rw [hsw.q]
  · rw [hsw.q]
    exact hlast

/-- A reader at a released address at which a blank file is mapped finds the end of
its queue, one byte behind the head. -/
theorem popItemIn_blank (h : Readable conf s) (hat : AtReadSwitch conf s) (hdead : WriterDead s)
    (hlast : s.q.curRdb.curIndex+1 = s.q.curWdb.curIndex) (hwpos : s.q.curWdb.pos = 141)
    (hunread : 0 < s.q.unreadCount) (hok : sys.Ok)
    (hothers : ∀ b, s.q.curWdb.mapMem = some b → others b = some (blankData conf)) :
    ∃ s', mqQmPopItemIn conf sys others s = .ok (.getEnd, s') ∧ s'.q.unreadCount = 0 ∧
      s'.q.putNum = s.q.putNum ∧ s'.q.getNum = s.q.getNum := by
  obtain ⟨s₁, b, hstep, hb, hq, hm, hmap, hpos, hend⟩ := step_to_released h hat hdead hlast hok
  have hmax := le_maxDbFileSize conf
  have hle := maxDbFileSize_le conf
  have hw : s₁.q.curWdb.pos = 141 := by
    rw [hq]
    exact hwpos
  have hview : sharedView conf others s₁ (some b) = .ok (some (blankData conf)) := by
    simp only [sharedView, hm, hothers b hb]
  have hparse : mqSmDbParseMsg conf (some (blankData conf)) 128 = .magNumErr :=
    parseMsg_of_ne (quiet_blankData conf 128 129 128 le_rfl (by omega)) (by omega)
  -- the second step reads one byte of the blank file
  have hskip : getDataStepIn conf sys others s₁ = .ok (.again (setReadPos s₁ 129)) := by
    rw [getDataStepIn, if_neg (by rw [hpos, hw]; rintro ⟨-, hno⟩; exact absurd hno (by decide)),
      hmap, hview]
    simp only [hpos, hparse]
    rfl
  -- the third step takes the reader to be at the end
  have hdone : getDataStepIn conf sys others (setReadPos s₁ 129) =
      .ok (.done none (atQueueEnd (setReadPos s₁ 129))) := by
    rw [getDataStepIn, if_pos ⟨hend, by show s₁.q.curWdb.pos ≤ u32 (129+12); rw [hw]; decide⟩]
    rfl
  have hfuel : ∃ fuel, readDistance conf s+1 = fuel+3 := by
    refine ⟨readDistance conf s-2, ?_⟩
    have hone : s.q.curWdb.curIndex-s.q.curRdb.curIndex = 1 := by omega
    rw [readDistance, hone]
    omega
  obtain ⟨fuel, hfuel⟩ := hfuel
  refine ⟨atQueueEnd (setReadPos s₁ 129), ?_, rfl, ?_, ?_⟩
  · rw [mqQmPopItemIn, if_neg (by omega), hfuel, getDataLoopIn, getDataStepIn_of_ok hstep]
    simp only [getDataLoopIn, hskip, hdone]
  · show s₁.q.putNum = _
    rw [hq]
  · show s₁.q.getNum = _
    rw [hq]

/-- Where the mappings of the listed queues lie in the address space of the process.
Mappings that are in use lie apart. -/
structure Placement (srv : Server) where
  place : String → ℕ → ℕ
  apart : ∀ e ∈ srv.qlist, ∀ e' ∈ srv.qlist, ∀ a a', e.proc.maps a ≠ none → e'.proc.maps a' ≠ none →
    place e.qname a = place e'.qname a' → e.qname = e'.qname ∧ a = a'

/-- These are the contents that other queues have mapped where addresses of this
queue lie. -/
def Covers (srv : Server) (p : Placement srv) (n : String) (others : ℕ → Option Region) : Prop :=
  ∀ addr d, others addr = some d ↔ ∃ e ∈ srv.qlist, ∃ a i f, e.qname ≠ n ∧ e.proc.maps a = some i ∧
    (srv.store e).dir.db i = some f ∧ f.data = d ∧ p.place e.qname a = p.place n addr

variable {st st₂ : Store}

/-- A server that lists two queues. -/
structure TwoQueues (conf : UcmqConf) (srv : Server) (st st₂ : Store) : Prop where
  conf_eq : srv.conf = conf
  first : HasSlot srv "q" (.listed st)
  second : HasSlot srv "r" (.listed st₂)
  others : ∀ x, x ≠ "q" → x ≠ "r" → HasSlot srv x (.absent none)

/-- There are no other queues. -/
theorem TwoQueues.cases (h : TwoQueues conf srv st st₂) {e : QueueEntry} (he : e ∈ srv.qlist) :
    e.qname = "q" ∧ srv.store e = st ∨ e.qname = "r" ∧ srv.store e = st₂ := by
  by_cases hq : e.qname = "q"
  · exact .inl ⟨hq, (Slot.listed.inj (slot_of_mem he (by rw [hq]; exact h.first))).symm⟩
  by_cases hr : e.qname = "r"
  · exact .inr ⟨hr, (Slot.listed.inj (slot_of_mem he (by rw [hr]; exact h.second))).symm⟩
  · cases slot_of_mem he (h.others _ hq hr)

/-- The second queue may lie where the first one has released an address. -/
theorem exists_placement {b : ℕ} {d : Region} {size : ℕ} (h : TwoQueues conf srv st st₂)
    (hb : st.proc.maps b = none)
    (hm : ∀ a i, st₂.proc.maps a = some i ↔ a = 2 ∧ i = 1) (hd : st₂.dir.db 1 = some ⟨size, d⟩) :
    ∃ p : Placement srv, Covers srv p "q" fun addr => if addr = b then some d else none := by
  let place : String → ℕ → ℕ := fun n a => if n = "q" then 2*a else if a = 2 then 2*b else 2*a+1
  have hq : ∀ a, place "q" a = 2*a := fun _ => rfl
  have hr : place "r" 2 = 2*b := rfl
  have hlive : ∀ a, st₂.proc.maps a ≠ none → a = 2 := by
    intro a ha
    obtain ⟨i, hi⟩ := Option.ne_none_iff_exists'.mp ha
    exact ((hm a i).mp hi).1
  have hproc : ∀ e ∈ srv.qlist, e.proc = (srv.store e).proc := fun _ _ => rfl
  refine ⟨⟨place, ?_⟩, ?_⟩
  · intro e he e' he' a a' ha ha' heq
    rw [hproc e he] at ha
    rw [hproc e' he'] at ha'
    rcases h.cases he with ⟨hn, hs⟩ | ⟨hn, hs⟩ <;>
      rcases h.cases he' with ⟨hn', hs'⟩ | ⟨hn', hs'⟩ <;>
      rw [hs] at ha <;> rw [hs'] at ha' <;> rw [hn, hn'] at heq ⊢
    · rw [hq, hq] at heq
      exact ⟨rfl, by omega⟩
    · obtain rfl := hlive _ ha'
      rw [hq, hr] at heq
      obtain rfl : a = b := by omega
      exact absurd hb ha
    · obtain rfl := hlive _ ha
      rw [hq, hr] at heq
      obtain rfl : a' = b := by omega
      exact absurd hb ha'
    · exact ⟨rfl, (hlive _ ha).trans (hlive _ ha').symm⟩
  · intro addr d'
    constructor
    · intro hd'
      dsimp only at hd'
      by_cases haddr : addr = b
      swap
      · rw [if_neg haddr] at hd'
        cases hd'
      rw [if_pos haddr] at hd'
      cases hd'
      refine ⟨⟨"r", st₂.proc, st₂.q⟩, List.mem_of_find?_eq_some (find_of_listed h.second),
        2, 1, ⟨size, d⟩, (by decide : ("r" : String) ≠ "q"), (hm 2 1).mpr ⟨rfl, rfl⟩, ?_, rfl, ?_⟩
      · rw [store_of_listed h.second]
        exact hd
      · rw [haddr]
        exact hr
    · rintro ⟨e, he, a, i, f, hne, ha, hf, rfl, heq⟩
      rcases h.cases he with ⟨hn, -⟩ | ⟨hn, hs⟩
      · exact absurd hn hne
      rw [hproc e he, hs] at ha
      obtain ⟨rfl, rfl⟩ := (hm a i).mp ha
      rw [hs, hd] at hf
      cases hf
      simp only [hn, hq, hr] at heq
      exact if_pos (by omega)

/-- A request that creates an empty queue under the other name. -/
def capRequest : Request := ⟨true, some "maxqueue", some "r", some "5", none, none, []⟩

/-- Setting the capacity of a queue that is not listed creates an empty one. -/
theorem entry_cap (hok : sys.Ok) (hfree : storageLow conf sys = false)
    (honly : OnlyQueue conf srv "q" st) (hroom : (srv.qlist.length : ℤ) < conf.maxQlistItmes) :
    ∃ rs srv' st₂, mqEvhttpCbDoOptEntry "" sys capRequest srv = .ok (rs, srv') ∧
      TwoQueues conf srv' st st₂ ∧ st₂.proc.maps = (created conf).proc.maps ∧
      st₂.dir.db = (created conf).dir.db := by
  obtain ⟨rfl, hq, hothers⟩ := honly
  have hslot : HasSlot srv "r" (.absent none) := hothers "r" (by decide)
  have hadd := addQueue_of_free hok hfree hroom "r"
  have hsame₀ := sameElsewhere_addQueue sys "r" srv
  rcases addQueue_of_absent hok hslot with ⟨hf, -⟩ | ⟨-, hs⟩
  · rw [hadd] at hf
    cases hf
  have htouch := touchQueue_of_added hslot hadd hs
  have hset : (httpOptMaxqueue sys capRequest srv).2 =
      (mqQmAddQueue sys "r" srv).2.setStore "r"
        (mqQmSetMaxqueue sys (toU32 5) (created srv.conf)) := by
    have hnum : destNum (some "5") = 5 := by decide
    have hcheck : reqQnameCheck (some "r") = true := by decide
    simp only [httpOptMaxqueue, capRequest, Option.getD_some, hcheck, hnum, htouch,
      store_of_listed hs, Bool.true_eq_false, if_false]
    rfl
  obtain ⟨maxque, delay, wlock, -, -, -, -, hrec⟩ :=
    setMaxqueue_of_sound (sound_created srv.conf).1 hok
    (show toU32 5 < 2^32 by decide)
  have hsame :=
    hsame₀.trans (sameElsewhere_setStore _ "r" (mqQmSetMaxqueue sys (toU32 5) (created srv.conf)))
  refine ⟨(httpOptMaxqueue sys capRequest srv).1, (httpOptMaxqueue sys capRequest srv).2,
    mqQmSetMaxqueue sys (toU32 5) (created srv.conf), rfl, ?_, hrec.maps, hrec.db⟩
  rw [hset]
  exact ⟨hsame.conf, hsame.hasSlot (by decide) hq, hasSlot_setStore hs _,
    fun x hx hr => hsame.hasSlot hr (hothers x hx)⟩

/-- A put that is refused storage on the only queue. -/
theorem entry_refused {big : List UInt8} {wpos len : ℕ}
    (hbig : big.length+140 = maxDbFileSize reserving) (honly : OnlyQueue reserving srv "q" st)
    (htwo : InTwoFiles reserving st wpos len) (hserves : Serves reserving st [big, [1]]) :
    ∃ rs srv' d, mqEvhttpCbDoOptEntry "" (Sys.quiet 0 0) (Request.of "put" "q" big) srv =
      .ok (rs, srv') ∧
      acceptedIn "q" (putEvent (Sys.quiet 0 0) big, rs) = [] ∧
      dbSeg reserving st.dir.db st.q.curWdb.curIndex = some d ∧
      OnlyQueue reserving srv' "q" (rotating reserving st d) ∧
      WriterDead (rotating reserving st d) := by
  obtain ⟨d, hd, hpush, hdead⟩ := refused_two_files hbig htwo hserves
  have hmax : maxDbFileSize reserving = 1048576 := rfl
  obtain ⟨size, hmsg, hsize⟩ := @putMsg_of_fit reserving (Request.of "put" "q" big)
    (show 0 < big.length by omega) (show big.length ≤ maxDbFileSize reserving-128-12 by omega)
      (.inl rfl)
  have hlen : putLenOk srv.conf (toU32 size) := by
    rw [hsize, honly.conf_eq]
    exact ⟨show 0 < big.length by omega, show big.length ≤ maxDbFileSize reserving-128-12 by omega⟩
  have hpush' :
    mqQmPushItem srv.conf (Sys.quiet 0 0) (toU32 size) (putBody (Request.of "put" "q" big)) st =
      .ok (.putError, rotating reserving st d) := by
    rw [hsize, honly.conf_eq]
    exact hpush
  have hentry :=
    @entry_put "q" "" (Sys.quiet 0 0) (Request.of "put" "q" big) srv srv st size _ rfl rfl rfl
    (by decide) hmsg hlen (touchQueue_of_listed _ honly.slot)
  obtain ⟨srv', hreply, hsame, hslot⟩ := replyPut_eq none honly.slot hpush'
  refine ⟨_, srv', d, hentry.trans hreply, ?_, hd, honly.of_same hsame hslot, hdead⟩
  exact acceptedIn_put rfl rfl (showsPut_replyOfPut none _ .putError)

/-- A queue whose reader is about to move on to a released write file. -/
structure BeforeReleased (st : Store) : Prop where
  sound : ∃ finished pend, Sound reserving True st finished pend
  atSwitch : AtReadSwitch reserving st
  released : WriterDead st
  last : st.q.curRdb.curIndex+1 = st.q.curWdb.curIndex
  wpos : st.q.curWdb.pos = 141

/-- A get of the first message after a put that was refused storage. -/
theorem pop_before_released {big : List UInt8} {len : ℕ} {d : Region}
    (hbig : big.length+140 = maxDbFileSize reserving) (htwo : InTwoFiles reserving st 141 len)
    (hserves : Serves reserving st [big, [1]])
    (hd : dbSeg reserving st.dir.db st.q.curWdb.curIndex = some d)
    (hdead : WriterDead (rotating reserving st d)) (hok : sys.Ok) :
    ∃ item st', mqQmPopItem reserving sys (rotating reserving st d) = .ok (.getOk item, st') ∧
      item.msg.take item.len = big ∧ BeforeReleased st' := by
  obtain ⟨finished, m₁, m₂, hs, hfirst, -⟩ := two_messages hserves
  obtain ⟨hsr, -, -⟩ := sound_rotating hs hserves.live hd
  have hset := sameSettings_rotating reserving st d
  have hri := rotating_rindex reserving st d
  have hwi := rotating_index reserving st d
  have hunread : (rotating reserving st d).q.unreadCount = 2 :=
    hset.unreadCount.trans hserves.unread
  obtain ⟨st', hpop, hat, htaken, hrec⟩ := pop_at_full hsr (by rw [hunread]; decide)
    (hset.delay.trans hserves.delay) (by rw [hri, hwi, htwo.rindex, htwo.windex])
      (by rw [hfirst]; exact hbig) hok
  obtain ⟨hs', -⟩ := htaken.recorded hrec
  have hwdb : st'.q.curWdb = (rotating reserving st d).q.curWdb := by rw [hrec.q]; rfl
  have hrdb : st'.q.curRdb.curIndex = st.q.curRdb.curIndex := by
    rw [hrec.q]
    show (rotating reserving st d).q.curRdb.curIndex = _
    rw [hri]
  obtain ⟨b, hb, hlt, hm⟩ := hdead
  refine ⟨m₁.item, st', hpop, by simpa using hfirst, ⟨_, _, hs'⟩, hat, ⟨b, ?_, ?_, ?_⟩, ?_, ?_⟩
  · rw [hwdb]
    exact hb
  · rw [hrec.next]
    exact hlt
  · rw [hrec.maps]
    exact hm
  · rw [hrdb, hwdb, hwi, htwo.rindex, htwo.windex]
  · rw [hwdb, (rotating_wcursor reserving st d).1, htwo.wpos]

/-- A run of requests in which a put is refused storage behind its reader, an empty
queue is created, and the first of two messages is returned. -/
theorem run_released :
    ∃ (big : List UInt8) (tr : History) (srv : Server) (st st₂ : Store),
      Run (serve "") (Guarded layoutOpts Requests) (Server.start reserving) tr srv ∧
        TwoQueues reserving srv st st₂ ∧ st₂.proc.maps = (created reserving).proc.maps ∧
        st₂.dir.db = (created reserving).dir.db ∧ accepted "q" tr = [big, [1]] ∧
        returned "q" tr = [big] ∧ BeforeReleased st := by
  have hok := Sys.quiet_ok 0 1
  obtain ⟨big, hbig⟩ := exists_big
  replace hbig : big.length+140 = maxDbFileSize reserving := hbig
  obtain ⟨rs₁, rs₂, srv₂, st₀, hrun₀, hout₁, hout₂, honly₂, htwo, hserves⟩ :=
    @run_two_files reserving _ [1] big
    Requests hok rfl (by decide) rfl rfl hbig (by decide) (by decide)
    ⟨fun _ => trivial, fun _ => trivial, fun _ _ _ => trivial, fun _ _ => trivial⟩
  have hwpos : 128+([(1 : UInt8)].length+12) = 141 := rfl
  rw [hwpos] at htwo
  have hrun₂ := run_mono layoutOpts (by decide) (fun _ _ _ hg => hg) hrun₀
  obtain ⟨rs₃, srv₃, d, hres₃, hacc₃, hd, honly₃, hdead⟩ := entry_refused hbig honly₂ htwo hserves
  have hrun₃ :=
    run_request hrun₂ (Sys.quiet_ok 0 0) ⟨"put", by decide, rfl⟩ (fun _ _ _ => trivial) hres₃
  obtain ⟨rs₄, srv₄, st₂, hres₄, hqueues, hmaps, hdb⟩ := entry_cap hok rfl honly₃
    (by rw [honly₃.qlist]; exact (by decide : (1 : ℤ) < 1000))
  have hrun₄ := run_request hrun₃ hok ⟨"maxqueue", by decide, rfl⟩ (fun _ _ _ => trivial) hres₄
  obtain ⟨item, st, hpop, hbody, hbefore⟩ := pop_before_released hbig htwo hserves hd hdead hok
  have hpop' : mqQmPopItem srv₄.conf (Sys.quiet 0 1) (rotating reserving st₀ d) =
      .ok (.getOk item, st) := by
    rw [hqueues.conf_eq]
    exact hpop
  obtain ⟨srv, hreply, hsame, hslot⟩ := replyGet_eq none hqueues.first hpop'
  have hres₅ :=
    (@entry_get "q" "" (Sys.quiet 0 1) (Request.of "get" "q" []) srv₄ _ rfl rfl rfl (by decide)
    hqueues.first).trans hreply
  have hrun := run_request hrun₄ hok ⟨"get", by decide, rfl⟩ (fun _ _ _ => trivial) hres₅
  have hgot : fifoOut (Request.of "get" "q" []) [replyOfGet none st (.getOk item)] = .got big := by
    simpa [fifoOut, Request.of] using hbody
  refine ⟨big, _, srv, st, st₂, hrun, ⟨hsame.conf.trans hqueues.conf_eq, hslot,
    hsame.hasSlot (by decide) hqueues.second,
    fun x hx hr => hsame.hasSlot hx (hqueues.others x hx hr)⟩,
    hmaps, hdb, ?_, ?_, hbefore⟩
  · rw [accepted_snoc, accepted_snoc, accepted_snoc, hacc₃, acceptedIn_of_ne (by decide),
      acceptedIn_get rfl]
    simp only [accepted, List.flatMap_cons, List.flatMap_nil]
    rw [acceptedIn_of_stored rfl rfl hout₁, acceptedIn_of_stored rfl rfl hout₂]
    rfl
  · rw [returned_snoc, returned_snoc, returned_snoc, returnedIn_put rfl,
      returnedIn_of_ne (by decide), returnedIn_of_got rfl rfl hgot]
    simp only [returned, List.flatMap_cons, List.flatMap_nil]
    rw [returnedIn_put rfl, returnedIn_put rfl]
    rfl

/-- Two messages are accepted and one is returned; then a get answers that the
queue is empty and leaves an unread count of zero. A put in between that was
refused storage has released the write file, and the file of an empty queue is
mapped at its address. -/
theorem counters_disagree :
    ∃ (big : List UInt8) (tr : History) (srv : Server) (st st' : Store) (p : Placement srv)
      (others : ℕ → Option Region),
      Run (serve "") (Guarded layoutOpts Requests) (Server.start reserving) tr srv ∧
        HasSlot srv "q" (.listed st) ∧ accepted "q" tr = [big, [1]] ∧ returned "q" tr = [big] ∧
        Covers srv p "q" others ∧
        mqQmPopItemIn reserving (Sys.quiet 0 1) others st = .ok (.getEnd, st') ∧
        st'.q.putNum = 2 ∧ st'.q.getNum = 1 ∧ st'.q.unreadCount = 0 ∧
        ¬Agrees reserving [big, [1]] [big] st' := by
  obtain ⟨big, tr, srv, st, st₂, hrun, hqueues, hmaps, hdb, hacc, hret, ⟨finished, pend, hs⟩,
    hat, hdead, hlast, hwpos⟩ := run_released
  obtain ⟨slot, hslot, bodies, -, hc, htotal⟩ := agreeing_of_run hrun "q"
  obtain rfl := hasSlot_unique hqueues.first hslot
  rw [hacc, hret] at hc htotal
  have hcount : bodies.length = 1 := by
    simp only [List.length_cons, List.length_nil] at htotal
    omega
  obtain ⟨b, hb, -, hm⟩ := id hdead
  obtain ⟨p, hcovers⟩ := @exists_placement reserving srv st st₂ b (blankData reserving)
    (maxDbFileSize reserving) hqueues hm
    (fun a i => by
      rw [hmaps]
      by_cases ha : a = 2 <;> simp [created, ha, eq_comm]) (by
      rw [hdb]
      rfl)
  obtain ⟨st', hend, hzero, hput, hget⟩ := @popItemIn_blank reserving (Sys.quiet 0 1)
    (fun addr => if addr = b then some (blankData reserving) else none) st
      (readable_of_sound hs) hat hdead hlast
    hwpos (by rw [hc.unreadCount, hcount]; decide) (Sys.quiet_ok 0 1) (fun x hx => by
      rw [hb] at hx
      cases hx
      exact if_pos rfl)
  have hput' : st'.q.putNum = 2 := hput.trans hc.putNum
  have hget' : st'.q.getNum = 1 := hget.trans hc.getNum
  refine ⟨big, tr, srv, st, st', p, _, hrun, hqueues.first, hacc, hret, hcovers, hend,
    hput', hget', hzero, fun hno => ?_⟩
  have htotal' := hno.unread
  omega

end Ucmq.AddressReuse
