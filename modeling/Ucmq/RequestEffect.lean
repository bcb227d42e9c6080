import Ucmq.QueueSlots

/-!
# What a request does to the place of its queue

One inversion for all handlers that work on a queue. Whatever system calls fail,
a handled request is one of the steps listed in HandlerStep. With no call failing
it leaves every other name alone, and changes the place of its own name in one of
the ways listed in Handled. The relations keep what the replies disclose: whether
a put was accepted, and what a get returned.
-/

namespace Ucmq.RequestEffect

open DecimalText StoreConfig StoreMsg StoreState StoreFile StoreManage QueueManage Evhttp QueueStep
open QueueSlots

/-- Options whose handlers change the settings of a queue. -/
def settingOpts : List String := ["maxqueue", "delay", "wlock", "readonly"]

/-- Options whose handlers delete a queue. -/
def deletingOpts : List String := ["remove", "reset"]

/-- Options whose handlers work on one queue. -/
def queueOpts : List String := ["put", "get"] ++ settingOpts ++ deletingOpts

/-- The request reaches the deletion of the queue it names, if that is listed. -/
structure Deletes (req : Request) : Prop where
  parsed : req.parsed = true
  name : reqQnameCheck req.name = true
  opt : ∃ o ∈ deletingOpts, req.opt = some o

/-- The replies disclose no accepted put and no message. -/
def Silent (rs : List Reply) : Prop := ∀ r ∈ rs, r.pos = none ∧ r.data = []

/-- Queue record after the handler of a put has counted it. -/
def pushed (ret : QueuePutRet) (st : Store) : Store :=
  match ret with
  | .putOk => { st with q := { st.q with unreadCount := st.q.unreadCount+1 } }
  | _ => st

/-- The reply to a put shows its result. -/
def ShowsPut (ret : QueuePutRet) (r : Reply) : Prop :=
  r.data = [] ∧ (r.pos.isSome = true ↔ ret = .putOk)

/-- The reply to a get shows its result. -/
def ShowsGet (ret : QueueGetRet) (r : Reply) : Prop :=
  match ret with
  | .getEnd => r.pos = none ∧ r.data = []
  | .getOk item => r.pos.isSome = true ∧ r.data = item.msg.take item.len

/-- One of the setting functions was applied. -/
inductive SetBy (sys : Sys) (st : Store) : Store → Prop
  | maxqueue (x : ℤ) : SetBy sys st (mqQmSetMaxqueue sys (toU32 x) st)
  | delay (x : ℤ) : SetBy sys st (mqQmSetDelay sys (toU32 x) st)
  | wlock (x : ℤ) : SetBy sys st (mqQmSetWlock sys (toU32 x) st)

/-- Effect of a request on the place of the queue it names. -/
inductive Handled (conf : UcmqConf) (sys : Sys) (req : Request) : Slot → List Reply → Slot → Prop
  | unchanged {slot : Slot} {rs : List Reply} (hrs : Silent rs)
      (hkeep : Deletes req → ∃ dir, slot = .absent dir) : Handled conf sys req slot rs slot
  | put {slot : Slot} {st st' : Store} {size : ℤ} {msg : List UInt8} {ret : QueuePutRet} {r : Reply}
      (hopt : req.opt = some "put") (ht : Touched conf slot st) (hm : putMsg req = some (size, msg))
      (hlen : putLenOk conf (toU32 size))
      (hp : mqQmPushItem conf sys (toU32 size) msg st = .ok (ret, st')) (hr : ShowsPut ret r) :
      Handled conf sys req slot [r] (.listed (pushed ret st'))
  | get {st st' : Store} {ret : QueueGetRet} {r : Reply} (hopt : req.opt = some "get")
      (hp : mqQmPopItem conf sys st = .ok (ret, st')) (hr : ShowsGet ret r) :
      Handled conf sys req (.listed st) [r] (.listed st')
  | set {slot : Slot} {st st' : Store} {rs : List Reply}
      (hopt : ∃ o ∈ settingOpts, req.opt = some o)
      (ht : Touched conf slot st) (hs : SetBy sys st st') (hrs : Silent rs) :
      Handled conf sys req slot rs (.listed st')
  | removed {st : Store} {rs : List Reply} (hdel : Deletes req)
      (hrs : Silent rs) : Handled conf sys req (.listed st) rs (.absent none)
  | reset {st : Store} {rs : List Reply} (hdel : Deletes req)
      (hrs : Silent rs) : Handled conf sys req (.listed st) rs (.listed (created conf))

variable {s s' : Server} {sys : Sys} {req : Request} {rs : List Reply} {n : String} {slot : Slot}

/-- A reply carries the position it was given. -/
@[simp] theorem doReply_pos (pos : Option ℤ) (hc : ℕ) (hr v1 v2 : String) (ver : Option String) :
    (doReply pos hc hr v1 v2 ver).pos = pos := by
  unfold doReply
  split <;> rfl

/-- A reply without content carries none. -/
@[simp] theorem doReply_data (pos : Option ℤ) (hc : ℕ) (hr v1 v2 : String) (ver : Option String) :
    (doReply pos hc hr v1 v2 ver).data = [] := by
  unfold doReply
  split <;> rfl

/-- The reply to a setting carries no position. -/
@[simp] theorem doAndReply_pos (x : Bool) (m1 m2 : String) (hc : ℕ) (hr v1 v2 : String)
    (ver : Option String) : (doAndReply x m1 m2 hc hr v1 v2 ver).pos = none := by
  unfold doAndReply
  split <;> simp

/-- The reply to a setting carries no content. -/
@[simp] theorem doAndReply_data (x : Bool) (m1 m2 : String) (hc : ℕ) (hr v1 v2 : String)
    (ver : Option String) : (doAndReply x m1 m2 hc hr v1 v2 ver).data = [] := by
  unfold doAndReply
  split <;> simp

/-- The reply to a put on a full queue. -/
def fullReply (ver : Option String) : Reply :=
  doReply none 400 "Put error, queue is full" "HTTPSQS_PUT_FULL" "UCMQ_HTTP_ERR_QUE_FULL" ver

/-- The reply to a get that finds nothing. -/
def endReply (ver : Option String) : Reply :=
  doReply none 404 "queue is empty" "HTTPSQS_GET_END" "UCMQ_HTTP_ERR_QUE_EMPTY" ver

/-- The reply to a put by its result. -/
def replyOfPut (ver : Option String) (st : Store) : QueuePutRet → Reply
  | .wlock => doReply none 400 "Put error, queue is write lock" "HTTPSQS_PUT_READONLY"
      "UCMQ_HTTP_ERR_WLOCK" ver
  | .full => fullReply ver
  | .putOk => doReply (some (toI32 st.q.putNum)) 200 "OK" "HTTPSQS_PUT_OK" "UCMQ_HTTP_OK" ver
  | .putError => doReply none 400 "Put error" "HTTPSQS_PUT_ERROR" "UCMQ_HTTP_ERR_PUT_ERR" ver

/-- The reply to a put shows its result. -/
theorem showsPut_replyOfPut (ver : Option String) (st : Store) (ret : QueuePutRet) :
    ShowsPut ret (replyOfPut ver st ret) := by
  cases ret <;> simp [ShowsPut, replyOfPut, fullReply]

/-- Global counters after a put by its result. -/
def countPut (size : ℤ) (g : AppInfo) : QueuePutRet → AppInfo
  | .putOk => afterPut size g
  | _ => g

/-- A put that returns is answered by its result, and counted when stored. -/
theorem replyPut_ok {size : ℤ} {msg : List UInt8} {e : QueueEntry} {st : Store} {ret : QueuePutRet}
    (n : String) (ver : Option String)
    (hp : mqQmPushItem s.conf sys (toU32 size) msg (s.store e) = .ok (ret, st)) :
    replyPut sys n ver size msg e s = .ok ([replyOfPut ver st ret],
      { s.setStore n (pushed ret st) with gInfo := countPut size s.gInfo ret }) := by
  rw [replyPut, hp]
  cases ret <;> rfl

/-- Storing a message in a listed queue. -/
theorem replyPut_eq {size : ℤ} {msg : List UInt8} (ver : Option String) {st st' : Store}
    {ret : QueuePutRet} (h : HasSlot s n (.listed st))
    (hp : mqQmPushItem s.conf sys (toU32 size) msg st = .ok (ret, st')) :
    ∃ s', replyPut sys n ver size msg ⟨n, st.proc, st.q⟩ s = .ok ([replyOfPut ver st' ret], s') ∧
      SameElsewhere n s s' ∧ HasSlot s' n (.listed (pushed ret st')) := by
  rw [← store_of_listed h] at hp
  exact ⟨_, replyPut_ok n ver hp, (sameElsewhere_setStore s n _).counted _, hasSlot_setStore h _⟩

/-- The reply to a get by its result. -/
def replyOfGet (ver : Option String) (st : Store) : QueueGetRet → Reply
  | .getEnd => endReply ver
  | .getOk item => ⟨200, "OK", if isVerTwo ver then "UCMQ_HTTP_OK" ++ "\r\n" else "",
      item.msg.take item.len, some (toI32 st.q.getNum)⟩

/-- The reply to a get that finds nothing. -/
@[simp] theorem replyOfGet_end (ver : Option String) (st : Store) :
    replyOfGet ver st .getEnd = endReply ver := rfl

/-- A returned message comes with the number of gets. -/
@[simp] theorem replyOfGet_ok_pos (ver : Option String) (st : Store) (item : MsgItem) :
    (replyOfGet ver st (.getOk item)).pos = some (toI32 st.q.getNum) := rfl

/-- A returned message is the content of the reply. -/
@[simp] theorem replyOfGet_ok_data (ver : Option String) (st : Store) (item : MsgItem) :
    (replyOfGet ver st (.getOk item)).data = item.msg.take item.len := rfl

/-- The reply to a get shows its result. -/
theorem showsGet_replyOfGet (ver : Option String) (st : Store) (ret : QueueGetRet) :
    ShowsGet ret (replyOfGet ver st ret) := by
  cases ret <;> simp [ShowsGet, endReply]

/-- Global counters after a get by its result. -/
def countGet (g : AppInfo) : QueueGetRet → AppInfo
  | .getOk _ => afterGet g
  | .getEnd => g

/-- A get that returns is answered by its result, and counted when it returns a message. -/
theorem replyGet_ok {e : QueueEntry} {st : Store} {ret : QueueGetRet} (n : String)
    (ver : Option String) (hp : mqQmPopItem s.conf sys (s.store e) = .ok (ret, st)) :
    replyGet sys n ver e s = .ok ([replyOfGet ver st ret],
      { s.setStore n st with gInfo := countGet s.gInfo ret }) := by
  rw [replyGet, hp]
  cases ret <;> rfl

/-- Taking a message from a listed queue. -/
theorem replyGet_eq (ver : Option String) {st st' : Store} {ret : QueueGetRet}
    (h : HasSlot s n (.listed st)) (hp : mqQmPopItem s.conf sys st = .ok (ret, st')) :
    ∃ s', replyGet sys n ver ⟨n, st.proc, st.q⟩ s = .ok ([replyOfGet ver st' ret], s') ∧
      SameElsewhere n s s' ∧ HasSlot s' n (.listed st') := by
  rw [← store_of_listed h] at hp
  exact ⟨_, replyGet_ok n ver hp, (sameElsewhere_setStore s n _).counted _, hasSlot_setStore h _⟩

/-- A request asks for one option only. -/
theorem opts_disjoint {opt : Option String} {opts opts' : List String}
    (h : ∃ o ∈ opts, opt = some o) (h' : ∃ o ∈ opts', opt = some o)
    (hd : ∀ o ∈ opts, o ∉ opts') : False := by
  obtain ⟨o, ho, heq⟩ := h
  obtain ⟨o', ho', heq'⟩ := h'
  rw [heq] at heq'
  cases heq'
  exact hd o ho ho'

/-- Requests with other options delete nothing. -/
theorem not_deletes {opts : List String} (h : ∃ o ∈ opts, req.opt = some o)
    (hd : ∀ o ∈ opts, o ∉ deletingOpts) : ¬Deletes req := fun hdel => opts_disjoint h hdel.opt hd

/-- A reply with neither position nor content is silent. -/
theorem silent_doReply {hc : ℕ} {hr v1 v2 : String} {ver : Option String} :
    Silent [doReply none hc hr v1 v2 ver] := by
  intro r hr
  rw [List.mem_singleton.mp hr]
  simp

/-- The reply to a setting is silent. -/
theorem silent_doAndReply {x : Bool} {m1 m2 : String} {hc : ℕ} {hr v1 v2 : String}
    {ver : Option String} : Silent [doAndReply x m1 m2 hc hr v1 v2 ver] := by
  intro r hr
  rw [List.mem_singleton.mp hr]
  simp

/-- Silent replies one after another are silent. -/
theorem silent_append {rs' : List Reply} (h : Silent rs) (h' : Silent rs') :
    Silent (rs ++ rs') := by
  intro r hr
  rcases List.mem_append.mp hr with hr | hr
  · exact h r hr
  · exact h' r hr

/-- No reply is silent. -/
theorem silent_nil : Silent [] := fun _ hr => absurd hr List.not_mem_nil

/-- A silent reply that is only sent sometimes is silent. -/
theorem silent_ite {c : Prop} [Decidable c] (h : Silent rs) : Silent (if c then rs else []) := by
  split
  · exact h
  · exact silent_nil

/-- What a handler that works on a queue does to the server. Whatever system calls
fail, it is refused, fails to create the queue, or applies one operation of the
queue and puts the result back. -/
inductive HandlerStep (sys : Sys) (req : Request) (n : String) (s : Server) :
    List Reply → Server → Prop
  | refused {rs : List Reply} (hrs : Silent rs)
      (hfree : Deletes req → findQueueByQname n s = none) : HandlerStep sys req n s rs s
  | uncreated {rs : List Reply} {s₁ : Server} (hkeep : ¬Deletes req)
      (ht : touchQueueByQname sys n s = (none, s₁)) (hrs : Silent rs) :
      HandlerStep sys req n s rs s₁
  | put {e : QueueEntry} {s₁ : Server} {size : ℤ} {msg : List UInt8}
      {ret : QueuePutRet} {st : Store}
      {r : Reply} (hopt : req.opt = some "put") (ht : touchQueueByQname sys n s = (some e, s₁))
      (hm : putMsg req = some (size, msg)) (hlen : putLenOk s.conf (toU32 size))
      (hp : mqQmPushItem s₁.conf sys (toU32 size) msg (s₁.store e) = .ok (ret, st))
      (hr : ShowsPut ret r) :
      HandlerStep sys req n s [r]
        { s₁.setStore n (pushed ret st) with gInfo := countPut size s₁.gInfo ret }
  | get {e : QueueEntry} {ret : QueueGetRet} {st : Store} {r : Reply} (hopt : req.opt = some "get")
      (hf : findQueueByQname n s = some e)
      (hp : mqQmPopItem s.conf sys (s.store e) = .ok (ret, st)) (hr : ShowsGet ret r) :
      HandlerStep sys req n s [r] { s.setStore n st with gInfo := countGet s.gInfo ret }
  | set {rs : List Reply} {e : QueueEntry} {s₁ : Server} {st : Store}
      (hopt : ∃ o ∈ settingOpts, req.opt = some o) (ht : touchQueueByQname sys n s = (some e, s₁))
      (hset : SetBy sys (s₁.store e) st) (hrs : Silent rs) :
      HandlerStep sys req n s rs (s₁.setStore n st)
  | removed {rs : List Reply} {e : QueueEntry} (hdel : Deletes req)
      (hf : findQueueByQname n s = some e) (hrs : Silent rs) :
      HandlerStep sys req n s rs (mqQmDelQueue sys n s).2
  | reset {rs : List Reply} {e : QueueEntry} (hdel : Deletes req)
      (hf : findQueueByQname n s = some e) (hrs : Silent rs) :
      HandlerStep sys req n s rs (mqQmAddQueue sys n (mqQmDelQueue sys n s).2).2

/-- A put request. -/
theorem httpOptPut_step (hopt : req.opt = some "put") (hres : httpOptPut sys req s = .ok (rs, s')) :
    HandlerStep sys req (req.name.getD "") s rs s' := by
  have hkeep : ¬Deletes req := not_deletes ⟨"put", List.mem_singleton_self _, hopt⟩ (by decide)
  simp only [httpOptPut] at hres
  split at hres
  · cases hres
    exact .refused silent_doReply fun hdel => absurd hdel hkeep
  split at hres
  · cases hres
    exact .refused silent_doReply fun hdel => absurd hdel hkeep
  rename_i size msg hm
  split at hres
  · cases hres
    exact .refused silent_doReply fun hdel => absurd hdel hkeep
  rename_i hlen
  split at hres
  · rename_i s₁ ht
    cases hres
    exact .uncreated hkeep ht silent_doReply
  · rename_i e s₁ ht
    cases hp : mqQmPushItem s₁.conf sys (toU32 size) msg (s₁.store e) with
    | error f =>
      rw [replyPut, hp] at hres
      cases hres
    | ok x =>
      rw [replyPut_ok _ _ hp] at hres
      cases hres
      exact .put hopt ht hm (not_not.mp hlen) hp (showsPut_replyOfPut _ _ _)

/-- A get request. -/
theorem httpOptGet_step (hopt : req.opt = some "get") (hres : httpOptGet sys req s = .ok (rs, s')) :
    HandlerStep sys req (req.name.getD "") s rs s' := by
  have hkeep : ¬Deletes req := not_deletes ⟨"get", List.mem_singleton_self _, hopt⟩ (by decide)
  simp only [httpOptGet] at hres
  split at hres
  · cases hres
    exact .refused silent_doReply fun hdel => absurd hdel hkeep
  split at hres
  · cases hres
    exact .refused silent_doReply fun hdel => absurd hdel hkeep
  · rename_i e hf
    cases hp : mqQmPopItem s.conf sys (s.store e) with
    | error f =>
      rw [replyGet, hp] at hres
      cases hres
    | ok x =>
      rw [replyGet_ok _ _ hp] at hres
      cases hres
      exact .get hopt hf hp (showsGet_replyOfGet _ _ _)

/-- What a request for the capacity does to its queue. -/
theorem httpOptMaxqueue_step (sys : Sys) (s : Server) (hopt : ∃ o ∈ settingOpts, req.opt = some o) :
    HandlerStep sys req (req.name.getD "") s (httpOptMaxqueue sys req s).1
      (httpOptMaxqueue sys req s).2 := by
  have hkeep : ¬Deletes req := not_deletes hopt (by decide)
  simp only [httpOptMaxqueue]
  split
  · exact .refused silent_doReply fun hdel => absurd hdel hkeep
  split
  · exact .refused silent_doReply fun hdel => absurd hdel hkeep
  split
  · exact .uncreated hkeep ‹_› silent_doReply
  · exact .set hopt ‹_› (.maxqueue _) silent_doAndReply

/-- What a request for the delay does to its queue. -/
theorem httpOptDelay_step (sys : Sys) (s : Server) (hopt : ∃ o ∈ settingOpts, req.opt = some o) :
    HandlerStep sys req (req.name.getD "") s (httpOptDelay sys req s).1
      (httpOptDelay sys req s).2 := by
  have hkeep : ¬Deletes req := not_deletes hopt (by decide)
  simp only [httpOptDelay]
  split
  · exact .refused silent_doReply fun hdel => absurd hdel hkeep
  split
  · exact .uncreated hkeep ‹_› (silent_append (silent_ite silent_doReply) silent_doReply)
  · exact .set hopt ‹_› (.delay _) (silent_append (silent_ite silent_doReply) silent_doAndReply)

/-- What a request for the write lock does to its queue. -/
theorem httpOptWlock_step (sys : Sys) (s : Server) (hopt : ∃ o ∈ settingOpts, req.opt = some o) :
    HandlerStep sys req (req.name.getD "") s (httpOptWlock sys req s).1
      (httpOptWlock sys req s).2 := by
  have hkeep : ¬Deletes req := not_deletes hopt (by decide)
  simp only [httpOptWlock]
  split
  · exact .refused silent_doReply fun hdel => absurd hdel hkeep
  split
  · exact .refused (silent_append (silent_ite silent_doReply) silent_doReply) fun hdel =>
      absurd hdel hkeep
  · rename_i e hf
    have ht : touchQueueByQname sys (req.name.getD "") s = (some e, s) := by
      rw [touchQueueByQname, hf]
    exact .set hopt ht (.wlock _) (silent_append (silent_ite silent_doReply) silent_doAndReply)

/-- What a removal does to its queue. -/
theorem httpOptRemove_step (sys : Sys) (s : Server) (hparsed : req.parsed = true)
    (hopt : ∃ o ∈ deletingOpts, req.opt = some o) :
    HandlerStep sys req (req.name.getD "") s (httpOptRemove sys req s).1
      (httpOptRemove sys req s).2 := by
  simp only [httpOptRemove]
  split
  · rename_i hcheck
    exact .refused silent_doReply fun hdel => absurd (hdel.name.symm.trans hcheck) (by simp)
  rename_i hcheck
  split
  · exact .refused silent_doReply fun _ => ‹_›
  · exact .removed ⟨hparsed, Bool.of_not_eq_false hcheck, hopt⟩ ‹_› silent_doAndReply

/-- What a reset does to its queue. -/
theorem httpOptReset_step (sys : Sys) (s : Server) (hparsed : req.parsed = true)
    (hopt : ∃ o ∈ deletingOpts, req.opt = some o) :
    HandlerStep sys req (req.name.getD "") s (httpOptReset sys req s).1
      (httpOptReset sys req s).2 := by
  simp only [httpOptReset]
  split
  · rename_i hcheck
    exact .refused silent_doReply fun hdel => absurd (hdel.name.symm.trans hcheck) (by simp)
  rename_i hcheck
  split
  · exact .refused silent_doReply fun _ => ‹_›
  · exact .reset ⟨hparsed, Bool.of_not_eq_false hcheck, hopt⟩ ‹_› silent_doAndReply

/-- The step of a handler that cannot fault. -/
theorem step_of_ok {x : List Reply × Server} (hx : HandlerStep sys req (req.name.getD "") s x.1 x.2)
    (hres : (.ok x : Except Fault (List Reply × Server)) = .ok (rs, s')) :
    HandlerStep sys req (req.name.getD "") s rs s' := by
  obtain rfl := Except.ok.inj hres
  exact hx

/-- Every request with an option on a queue is one of the steps. -/
theorem entry_step {banner : String} (hopt : ∃ o ∈ queueOpts, req.opt = some o)
    (hres : mqEvhttpCbDoOptEntry banner sys req s = .ok (rs, s')) :
    HandlerStep sys req (req.name.getD "") s rs s' := by
  unfold mqEvhttpCbDoOptEntry at hres
  by_cases hparsed : req.parsed = false
  · rw [if_pos hparsed] at hres
    cases hres
    exact .refused silent_doReply fun hdel => absurd (hdel.parsed.symm.trans hparsed) (by simp)
  rw [if_neg hparsed] at hres
  have hparsed' : req.parsed = true := Bool.of_not_eq_false hparsed
  obtain ⟨o, ho, he⟩ := hopt
  simp only [queueOpts, settingOpts, deletingOpts, List.cons_append, List.nil_append,
    List.mem_cons, List.not_mem_nil, or_false] at ho
  rcases ho with rfl | rfl | rfl | rfl | rfl | rfl | rfl | rfl <;> simp only [he] at hres
  · exact httpOptPut_step he hres
  · exact httpOptGet_step he hres
  · exact step_of_ok (httpOptMaxqueue_step sys s ⟨_, by simp [settingOpts], he⟩) hres
  · exact step_of_ok (httpOptDelay_step sys s ⟨_, by simp [settingOpts], he⟩) hres
  · exact step_of_ok (httpOptWlock_step sys s ⟨_, by simp [settingOpts], he⟩) hres
  · exact step_of_ok (httpOptWlock_step sys s ⟨_, by simp [settingOpts], he⟩) hres
  · exact step_of_ok (httpOptRemove_step sys s hparsed' ⟨_, by simp [deletingOpts], he⟩) hres
  · exact step_of_ok (httpOptReset_step sys s hparsed' ⟨_, by simp [deletingOpts], he⟩) hres

/-- A changed server in which the named queue was handled. -/
def Effect (sys : Sys) (req : Request) (n : String) (slot : Slot) (s : Server) (rs : List Reply)
    (s' : Server) : Prop :=
  SameElsewhere n s s' ∧ ∃ slot', HasSlot s' n slot' ∧ Handled s.conf sys req slot rs slot'

/-- A step with no call failing changes the place of its own name only. -/
theorem effect_of_step (hok : sys.Ok) (h : HasSlot s n slot)
    (hs : HandlerStep sys req n s rs s') : Effect sys req n slot s rs s' := by
  have htouch := touchQueue_cases hok h
  have hlisted : ∀ {e}, findQueueByQname n s = some e → ∃ st, slot = .listed st ∧
      e = ⟨n, st.proc, st.q⟩ := by
    intro e hf
    cases slot with
    | absent dir =>
      rw [find_of_absent h] at hf
      cases hf
    | listed st =>
      rw [find_of_listed h] at hf
      exact ⟨st, rfl, (Option.some.inj hf).symm⟩
  cases hs with
  | refused hrs hfree =>
    refine ⟨.refl n s, slot, h, .unchanged hrs fun hdel => ?_⟩
    cases slot with
    | absent dir => exact ⟨dir, rfl⟩
    | listed st =>
      have hf := (find_of_listed h).symm.trans (hfree hdel)
      cases hf
  | uncreated hkeep ht hrs =>
    obtain ⟨s₁, hsame, ⟨ht', hs⟩ | ⟨st, ht', -⟩⟩ := htouch
    · cases ht.symm.trans ht'
      exact ⟨hsame, slot, hs, .unchanged hrs fun hdel => absurd hdel hkeep⟩
    · cases ht.symm.trans ht'
  | put hopt ht hm hlen hp hr =>
    obtain ⟨s₁, hsame, ⟨ht', -⟩ | ⟨st, ht', hs, htouched⟩⟩ := htouch
    · cases ht.symm.trans ht'
    · cases ht.symm.trans ht'
      rw [store_of_listed hs, hsame.conf] at hp
      exact ⟨(hsame.trans (sameElsewhere_setStore _ n _)).counted _, _, hasSlot_setStore hs _,
        .put hopt htouched hm hlen hp hr⟩
  | get hopt hf hp hr =>
    obtain ⟨st, rfl, rfl⟩ := hlisted hf
    rw [store_of_listed h] at hp
    exact ⟨(sameElsewhere_setStore s n _).counted _, _, hasSlot_setStore h _, .get hopt hp hr⟩
  | set hopt ht hset hrs =>
    obtain ⟨s₁, hsame, ⟨ht', -⟩ | ⟨st, ht', hs, htouched⟩⟩ := htouch
    · cases ht.symm.trans ht'
    · cases ht.symm.trans ht'
      rw [store_of_listed hs] at hset
      exact ⟨hsame.trans (sameElsewhere_setStore _ n _), _, hasSlot_setStore hs _,
        .set hopt htouched hset hrs⟩
  | removed hdel hf hrs =>
    obtain ⟨st, rfl, -⟩ := hlisted hf
    exact ⟨sameElsewhere_delQueue sys n s, _, (delQueue_of_listed hok h).2, .removed hdel hrs⟩
  | reset hdel hf hrs =>
    obtain ⟨st, rfl, -⟩ := hlisted hf
    have hsame := sameElsewhere_delQueue sys n s
    have hboth := hsame.trans (sameElsewhere_addQueue sys n (mqQmDelQueue sys n s).2)
    rcases addQueue_of_absent hok (delQueue_of_listed hok h).2 with ⟨-, hs⟩ | ⟨-, hs⟩
    · exact ⟨hboth, _, hs, .removed hdel hrs⟩
    · rw [hsame.conf] at hs
      exact ⟨hboth, _, hs, .reset hdel hrs⟩

/-- A request that names a queue changes the place of that name only. -/
theorem entry_effect {banner : String} (hok : sys.Ok) (hname : req.name = some n)
    (hopt : ∃ o ∈ queueOpts, req.opt = some o) (h : HasSlot s n slot)
    (hres : mqEvhttpCbDoOptEntry banner sys req s = .ok (rs, s')) :
    Effect sys req n slot s rs s' := by
  have hs := entry_step hopt hres
  rw [hname] at hs
  exact effect_of_step hok h hs

/-- A request that names no queue is refused. -/
theorem entry_of_noName {banner : String} (hname : req.name = none)
    (hopt : ∃ o ∈ queueOpts, req.opt = some o)
    (hres : mqEvhttpCbDoOptEntry banner sys req s = .ok (rs, s')) : s' = s := by
  unfold mqEvhttpCbDoOptEntry at hres
  by_cases hparsed : req.parsed = false
  · rw [if_pos hparsed] at hres
    cases hres
    rfl
  rw [if_neg hparsed] at hres
  have hcheck : reqQnameCheck req.name = false := by rw [hname]; rfl
  obtain ⟨o, ho, he⟩ := hopt
  simp only [queueOpts, settingOpts, deletingOpts, List.cons_append, List.nil_append,
    List.mem_cons, List.not_mem_nil, or_false] at ho
  rcases ho with rfl | rfl | rfl | rfl | rfl | rfl | rfl | rfl <;>
    simp [he, httpOptPut, httpOptGet, httpOptMaxqueue, httpOptDelay, httpOptWlock, httpOptRemove,
      httpOptReset, hcheck] at hres <;> exact hres.2.symm

end Ucmq.RequestEffect
