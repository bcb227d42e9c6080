import Ucmq.MqClient

/-!
# Setting an option on every server

mq_all_set_opt runs the fail-over loop of single requests: it stops at the first
server that completes its exchange, and each exchange overwrites the result of
the ones before. What one exchange leaves is the status that it writes, if it
writes one, and whether it was completed.
-/

namespace Ucmq.ClientFailover

open MqClient

/-- The status that an exchange writes; absent when the reply has no status
line. -/
def status (c : Contact) : Option ℤ :=
  if c.connected = false then some c.errno
  else if c.sent = false then some 70
  else
    let buffer := cStr ((commRecvN 1023 inCheckHeaderFinish [] c.arrivals).1.getD [])
    if inGetData buffer = none then some c.errno else scanStatus buffer

/-- The exchange is completed when the result before it is the given one. -/
def completes (c : Contact) (prev : ℤ) : Bool :=
  (inMqOperate c { inInitReturn with result := prev }).1

/-- The server answers the request successfully. -/
def Answers (c : Contact) : Prop :=
  ∀ ret, (inMqOperate c ret).1 = true ∧ (inMqOperate c ret).2.result = mqOptSuccess

/-- The exchange writes its status, and nothing else is needed of the result
before it to tell what comes of it. -/
theorem inMqOperate_spec (c : Contact) (ret : MqReturn) :
    (inMqOperate c ret).2.result = (status c).getD ret.result ∧
      ∀ ret', (status c).getD ret.result = (status c).getD ret'.result →
        (inMqOperate c ret).1 = (inMqOperate c ret').1 := by
  unfold inMqOperate status
  split
  · exact ⟨rfl, fun _ _ => rfl⟩
  split
  · exact ⟨rfl, fun _ _ => rfl⟩
  unfold recvReply
  rcases hr : commRecvN 1023 inCheckHeaderFinish [] c.arrivals with ⟨recv, es⟩
  dsimp only
  cases hd : inGetData (cStr (recv.getD [])) with
  | none => exact ⟨by simp, fun _ _ => rfl⟩
  | some data =>
    simp only [reduceCtorEq, if_false]
    constructor
    · split_ifs
      · rfl
      · rfl
      · split <;> rfl
    · intro ret' he
      rw [he]
      split_ifs
      · rfl
      · rfl
      · split <;> rfl

/-- The result of an exchange is the status that is read, or the one before. -/
theorem inMqOperate_result (c : Contact) (ret : MqReturn) :
    (inMqOperate c ret).2.result = (status c).getD ret.result := (inMqOperate_spec c ret).1

/-- Whether an exchange is completed. -/
theorem inMqOperate_completes (c : Contact) (ret : MqReturn) :
    (inMqOperate c ret).1 = completes c ret.result := (inMqOperate_spec c ret).2 _ rfl

/-- A server answers successfully when its exchange writes the status of success
and is completed. -/
theorem answers_iff (c : Contact) : Answers c ↔ status c = some mqOptSuccess ∧
    completes c (-1) = true := by
  constructor
  · intro h
    obtain ⟨hok, hres⟩ := h inInitReturn
    rw [inMqOperate_completes] at hok
    rw [inMqOperate_result] at hres
    refine ⟨?_, hok⟩
    cases hs : status c with
    | none =>
      rw [hs] at hres
      exact absurd hres (by decide)
    | some v =>
      rw [hs] at hres
      rw [← hres]
      rfl
  · rintro ⟨hs, hok⟩ ret
    rw [inMqOperate_result, hs]
    refine ⟨?_, rfl⟩
    rw [← hok]
    exact (inMqOperate_spec c ret).2 _ (by rw [hs]; rfl)

/-- A first exchange that is completed and leaves the status of success is a
successful answer. -/
theorem answers_of_status {c : Contact} (hs : (status c).getD (-1) = mqOptSuccess)
    (hok : completes c (-1) = true) : Answers c := by
  refine (answers_iff c).mpr ⟨?_, hok⟩
  cases hst : status c with
  | none =>
    rw [hst] at hs
    exact absurd hs (by decide)
  | some v =>
    rw [hst] at hs
    exact congrArg some hs

section Loop

variable (contact : ℕ → Contact)

/-- The result after exchanges with the given servers. -/
def lastStatus (order : List ℕ) (prev : ℤ) : ℤ :=
  order.foldl (fun r i => (status (contact i)).getD r) prev

/-- No exchange with the given servers is completed. -/
def AllFail : List ℕ → ℤ → Prop
  | [], _ => True
  | i :: order, prev =>
    completes (contact i) prev = false ∧ AllFail order ((status (contact i)).getD prev)

variable {contact}

/-- The last server leaves its own status, if it writes one. -/
theorem lastStatus_snoc (order : List ℕ) (k : ℕ) (prev : ℤ) :
    lastStatus contact (order ++ [k]) prev =
      (status (contact k)).getD (lastStatus contact order prev) := by
  rw [lastStatus, List.foldl_append]
  rfl

/-- While exchanges fail, the loop goes on to the last server. -/
theorem operateLoop_of_allFail (info : MqOptInfo) {order : List ℕ} {ret : MqReturn} (curr k : ℕ)
    (h : AllFail contact order ret.result) :
    (operateLoop contact info (order ++ [k]) curr ret).1 = (order ++ [k]).map (·, info) ∧
      (operateLoop contact info (order ++ [k]) curr ret).2.1 = k ∧
      (operateLoop contact info (order ++ [k]) curr ret).2.2.result =
        lastStatus contact (order ++ [k]) ret.result := by
  induction order generalizing curr ret with
  | nil =>
    have hres := inMqOperate_result (contact k) ret
    rw [List.nil_append, operateLoop]
    split
    · rename_i ret' he
      rw [he] at hres
      exact ⟨rfl, rfl, hres⟩
    · rename_i ret' he
      rw [he] at hres
      exact ⟨rfl, rfl, hres⟩
  | cons i order ih =>
    have hres := inMqOperate_result (contact i) ret
    have hok := inMqOperate_completes (contact i) ret
    rw [h.1] at hok
    rcases he : inMqOperate (contact i) ret with ⟨ok, ret'⟩
    rw [he] at hok hres
    obtain rfl : ok = false := hok
    have hres' : ret'.result = (status (contact i)).getD ret.result := hres
    obtain ⟨hsent, hlast, hret⟩ := @ih ret' i (by rw [hres']; exact h.2)
    rw [List.cons_append, operateLoop, he]
    refine ⟨?_, hlast, ?_⟩
    · rw [List.map_cons, ← hsent]
    · rw [lastStatus, List.foldl_cons, ← hres']
      exact hret

/-- Once an exchange is completed, no further server is contacted. -/
theorem operateLoop_of_completed (info : MqOptInfo) {order : List ℕ} {ret : MqReturn} (curr k : ℕ)
    (h : ¬AllFail contact order ret.result) :
    ∀ x ∈ (operateLoop contact info (order ++ [k]) curr ret).1, x.1 ∈ order := by
  induction order generalizing curr ret with
  | nil => exact absurd trivial h
  | cons i order ih =>
    have hres := inMqOperate_result (contact i) ret
    have hok := inMqOperate_completes (contact i) ret
    intro x hx
    rw [List.cons_append, operateLoop] at hx
    rcases he : inMqOperate (contact i) ret with ⟨ok, ret'⟩
    rw [he] at hx hok hres
    cases ok with
    | true =>
      rw [List.mem_singleton.mp hx]
      exact List.mem_cons_self
    | false =>
      have hres' : ret'.result = (status (contact i)).getD ret.result := hres
      have hrest : ¬AllFail contact order ret'.result := fun hall => h ⟨hok.symm, by rwa [← hres']⟩
      rcases List.mem_cons.mp hx with rfl | hx
      · exact List.mem_cons_self
      · exact List.mem_cons_of_mem _ (@ih ret' i hrest x hx)

/-- The last server is contacted only if every exchange before it fails. -/
theorem allFail_of_contacted {info info' : MqOptInfo} {curr k : ℕ} {ret : MqReturn}
    (h : (k, info') ∈ (operateLoop contact info (List.range k ++ [k]) curr ret).1) :
    AllFail contact (List.range k) ret.result := by
  by_contra hnot
  have hmem := operateLoop_of_completed info curr k hnot _ h
  exact absurd (List.mem_range.mp hmem) (lt_irrefl k)

/-- Where every exchange before the last one fails and the first one is
completed, there is one server only. -/
theorem eq_zero_of_completes {k : ℕ} (h : AllFail contact (List.range k) (-1))
    (h0 : completes (contact 0) (-1) = true) : k = 0 := by
  cases k with
  | zero => rfl
  | succ k =>
    rw [List.range_succ_eq_map] at h
    exact absurd h0 (by rw [h.1]; decide)

end Loop

/-- Option word of an operation, as the server knows it. -/
def word : MqOpts → String
  | .reset => "reset"
  | .maxqueue => "maxqueue"
  | .synctime => "synctime"
  | .remove => "remove"
  | .delay => "delay"
  | .readonly => "readonly"

/-- Numeric segment of an operation, empty for one that takes no number. -/
def numSegment (o : MqOpts) (data : ℕ) : String :=
  match o with
  | .reset => ""
  | .remove => ""
  | _ => "num=" ++ toString (DecimalText.toI32 data)

/-- The operation is sent to every server, success is reported only if every
server answered successfully, and otherwise the index names a server that did
not. -/
def SetsAll (contact : ℕ → Contact) (count : ℕ) (name : String) (o : MqOpts) (data : ℕ)
    (charset : Option String) : Prop :=
  ∃ sent ret, mqAllSetOpt contact count name o.value data charset = some (sent, ret) ∧
    (∀ i < count, ∃ info, (i, info) ∈ sent ∧ info.opt = word o ∧ info.name = name ∧
      info.num = some (numSegment o data)) ∧
    (ret.result = mqOptSuccess → ∀ i < count, Answers (contact i)) ∧
    (ret.result ≠ mqOptSuccess → ∃ i < count, ret.index = i ∧ ¬Answers (contact i))

/-- The request of a set operation carries the word of the operation unless it
is the removal. -/
theorem setOptInfo_word (name : String) (o : MqOpts) (data : ℕ) (charset : Option String) :
    ∃ info, setOptInfo name o.value data charset = some info ∧ info.name = name ∧
      info.num = some (numSegment o data) ∧ (info.opt = word o ↔ o ≠ .remove) := by
  cases o
  case remove =>
    have hd : "delay" ≠ "remove" := by decide
    exact ⟨_, rfl, rfl, rfl, iff_of_false hd (by simp)⟩
  all_goals exact ⟨_, rfl, rfl, rfl, iff_of_true rfl (by simp)⟩

/-- Setting an option on all servers is the fail-over loop over the list. -/
theorem mqAllSetOpt_eq (contact : ℕ → Contact) (count : ℕ) {name : String} {o : MqOpts} {data : ℕ}
    {charset : Option String} {info : MqOptInfo}
    (h : setOptInfo name o.value data charset = some info) :
    ∃ ret : MqReturn, ret.result = -1 ∧ mqAllSetOpt contact count name o.value data charset =
      some (inDoOperate contact (List.range count) info ret) := by
  have hpos : ¬o.value < 0 := by cases o <;> decide
  refine ⟨{ inInitReturn with optValue := o.value }, rfl, ?_⟩
  rw [mqAllSetOpt, if_neg hpos]
  simp only [h, lookupOrder]

/-- mq_all_set_opt sets the option on every server and reports it faithfully
exactly when the operation is not the removal, no server before the last one
completes its exchange, and the status that the exchanges leave is not that of
success, except when a single server completed its exchange with it. -/
theorem all_set_opt_iff (contact : ℕ → Contact) {count : ℕ} (hc : 0 < count)
    (name : String) (o : MqOpts) (data : ℕ) (charset : Option String) :
    SetsAll contact count name o data charset ↔
      o ≠ .remove ∧ AllFail contact (List.range (count-1)) (-1) ∧
        (lastStatus contact (List.range count) (-1) = mqOptSuccess →
          count = 1 ∧ completes (contact 0) (-1) = true) := by
  obtain ⟨k, rfl⟩ : ∃ k, count = k+1 := ⟨count-1, by omega⟩
  obtain ⟨info, hinfo, hname, hnum, hword⟩ := setOptInfo_word name o data charset
  obtain ⟨ret₀, hret, hset⟩ := mqAllSetOpt_eq contact (k+1) hinfo
  rw [Nat.add_sub_cancel, ← hret]
  constructor
  · rintro ⟨sent, ret, he, hsent, hok, hfail⟩
    rw [hset] at he
    obtain ⟨rfl, rfl⟩ := Prod.mk.inj (Option.some.inj he)
    simp only [List.range_succ] at hsent hok hfail
    obtain ⟨info', hm, hw, -⟩ := hsent k (Nat.lt_succ_self k)
    have hall := allFail_of_contacted hm
    obtain ⟨hs, hl, hr⟩ := operateLoop_of_allFail info 0 k hall
    refine ⟨?_, hall, fun hlast => ?_⟩
    · rw [hs] at hm
      obtain ⟨i, -, hi⟩ := List.mem_map.mp hm
      exact hword.mp (by rw [← hw, ← (Prod.mk.inj hi).2])
    · rw [List.range_succ] at hlast
      have hans := (answers_iff _).mp (hok (hr.trans hlast) 0 (Nat.succ_pos k))
      rw [hret] at hall ⊢
      exact ⟨by rw [eq_zero_of_completes hall hans.2], hans.2⟩
  · rintro ⟨hne, hall, hlast⟩
    obtain ⟨hs, hl, hr⟩ := operateLoop_of_allFail info 0 k hall
    refine ⟨_, _, hset, fun i hi => ⟨info, ?_, hword.mpr hne, hname, hnum⟩, fun hres i hi => ?_,
      fun hres => ?_⟩
    · simp only [List.range_succ, hs]
      exact List.mem_map.mpr ⟨i, by rw [← List.range_succ]; exact List.mem_range.mpr hi, rfl⟩
    · simp only [List.range_succ, hr] at hres
      obtain ⟨hone, hcomp⟩ := hlast (by rw [List.range_succ]; exact hres)
      obtain rfl : k = 0 := by omega
      obtain rfl : i = 0 := by omega
      rw [hret] at hcomp hres
      exact answers_of_status hres hcomp
    · simp only [List.range_succ, hl, hr] at hres ⊢
      refine ⟨k, Nat.lt_succ_self k, rfl, fun hans => hres ?_⟩
      rw [lastStatus_snoc, ((answers_iff _).mp hans).1]
      rfl

/-- A server that answers with success and no content. -/
def accepting : Contact :=
  ⟨true, true, [.bytes 'H' "TTP/1.1 200 OK\r\nContent-Length: 0\r\n\r\n".toList], 0⟩

/-- The answer of a server that accepts completes an exchange. -/
theorem completes_accepting : completes accepting (-1) = true := by decide

/-- A single server that accepts the option. -/
theorem all_set_opt_single : SetsAll (fun _ => accepting) 1 "q" .maxqueue 5 none :=
  (all_set_opt_iff (fun _ => accepting) (by decide) "q" .maxqueue 5 none).mpr
    ⟨by decide, trivial, fun _ => ⟨rfl, completes_accepting⟩⟩

/-- Of two servers that accept the option only the first one gets it, and
success is reported. -/
theorem all_set_opt_stops : ¬SetsAll (fun _ => accepting) 2 "q" .maxqueue 5 none := by
  rintro ⟨sent, ret, he, hsent, -⟩
  have hfirst : (mqAllSetOpt (fun _ => accepting) 2 "q" MqOpts.maxqueue.value 5 none).map
      (fun x => (x.1.map Prod.fst, x.2.result)) = some ([0], mqOptSuccess) := by decide
  rw [he] at hfirst
  obtain ⟨info, hm, -⟩ := hsent 1 (by decide)
  have hmem : 1 ∈ sent.map Prod.fst := List.mem_map.mpr ⟨_, hm, rfl⟩
  rw [(Prod.mk.inj (Option.some.inj hfirst)).1] at hmem
  exact absurd hmem (by decide)

end Ucmq.ClientFailover
