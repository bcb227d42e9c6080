import Ucmq.PlainWire

/-!
# A group of servers is a group of FIFO lists

The abstract group knows for each server the list of bodies it serves, and whether
a connection to it is kept. A put goes to the first server in the order that is
reached, a get to the first one that is reached and not empty. The calls of a
client give exactly the results of the abstract group, as long as text left on a
kept connection is reported before the connection is taken up again.
-/

namespace Ucmq.ClientFifo

open LabelledRun FailureSpec DecimalText StoreConfig StoreState QueueManage Evhttp QueueSlots
open RequestEffect ServerRun CleanRestart FifoRefinement MqClient ClientOperation ClientMessage
open HeaderFields WireReply ConnectionCache SocketRuns CacheSlots ClientServer

/-- What stays in every call: how the servers at each address are set up, the name that is
worked on, the lookup order, keep-alive setting and addresses of the client, and the
room on its stack. -/
structure Setup where
  conf : String → UcmqConf
  name : String
  lookUp : ℤ
  keepAlive : ℤ
  dests : List String
  stack : ℕ

/-- What the servers of a group serve, by address, and for which of them a connection
is kept. -/
structure ServerGroup where
  queues : String → List (List UInt8)
  kept : ℕ → Bool

/-- A connection can be had: the kept one, on which nothing is reported, or a new one. -/
def reachable (keepAlive : ℤ) (l : Link) (kept : Bool) : Bool :=
  (keepAlive = 1 ∧ kept = true ∧ l.events = false) ∨ (made (l.exchange [])).isSome = true

/-- Address of a server. -/
def Setup.dest (su : Setup) (i : ℕ) : String := (su.dests[i]?).getD ""

/-- Capacity of the lists of a server. -/
def Setup.cap (su : Setup) (i : ℕ) : ℕ := (su.conf (su.dest i)).defMaxQueue

/-- Change the list of a server and whether a connection to it is kept. -/
def ServerGroup.set (su : Setup) (i : ℕ) (q : List (List UInt8)) (kept : Bool) (g : ServerGroup) :
    ServerGroup :=
  ⟨Function.update g.queues (su.dest i) q, Function.update g.kept i kept⟩

/-- What a server serves after the requests of other clients. -/
def waiting (su : Setup) (i : ℕ) (l : Link) (g : ServerGroup) : List (List UInt8) :=
  stateAfter (fun r : Sys × Request => fifoStep (su.cap i) (fifoOp r.2)) l.others
    (g.queues (su.dest i))

/-- One server is visited: why it was not reached, or its answer. -/
def visit (su : Setup) (i : ℕ) (l : Link) (op : FifoOp) (g : ServerGroup) :
    Except ℤ FifoOut × ServerGroup :=
  if reachable su.keepAlive l (g.kept i) = false then
    (.error l.errno, g.set su i (waiting su i l g) false)
  else if l.sent = false then (.error 70, g.set su i (waiting su i l g) false)
  else
    (.ok (fifoStep (su.cap i) op (waiting su i l g)).1,
      g.set su i (fifoStep (su.cap i) op (waiting su i l g)).2 true)

/-- Status of an answer. -/
def codeOf : FifoOut → ℤ
  | .stored => 200
  | .full => 400
  | .got _ => 200
  | .empty => 404
  | .other => -1

/-- Content of an answer as the client returns it, up to its first zero byte. -/
def dataOf : FifoOut → Option (List UInt8)
  | .stored => some ("HTTPSQS_PUT_OK\r\n".toList.map charByte)
  | .full => some ("HTTPSQS_PUT_FULL\r\n".toList.map charByte)
  | .got body => some (body.takeWhile (· ≠ 0))
  | .empty => none
  | .other => none

/-- What a caller sees of a return value. -/
structure Seen where
  index : ℤ
  result : ℤ
  data : Option (List UInt8)
  deriving DecidableEq

/-- What a caller sees of the result of a call. -/
def seen (x : List (ℕ × MqOptInfo) × MqReturn) : Seen := ⟨x.2.index, x.2.result, x.2.data⟩

/-- The servers are visited in their order until one answers, other than with the end
of its list. -/
def groupLoop (su : Setup) (links : ℕ → Link) (op : FifoOp) : List ℕ → ℕ → ℤ → ServerGroup →
    Seen × ServerGroup
  | [], last, code, g => (⟨last, code, none⟩, g)
  | i :: order, _, _, g =>
    match visit su i (links i) op g with
    | (.error code, g) => groupLoop su links op order i code g
    | (.ok .empty, g) => groupLoop su links op order i mqGetMsgEnd g
    | (.ok out, g) => (⟨i, codeOf out, dataOf out⟩, g)

/-- One call on a group. -/
def groupCall (su : Setup) (ev : WorldEvent) (g : ServerGroup) : Seen × ServerGroup :=
  groupLoop su ev.links ev.op
    (lookupOrder (if su.lookUp = 1 then some ev.rand else none) su.dests.length) 0 (-1) g

/-- The servers serve the lists of a group, and the client keeps its connections. -/
structure Related (su : Setup) (w : World) (g : ServerGroup) : Prop where
  owned : ∃ lost, Owned [] lost w.client
  dests : CacheSlots.dests w.client = su.dests
  lookUp : w.client.mq.lookUp = su.lookUp
  keepAlive : w.client.mq.keepAlive = su.keepAlive
  stack : w.stack = su.stack
  serves : ∀ d, ServesName (su.conf d) su.name (w.servers d) (g.queues d)
  kept : su.keepAlive = 1 →
    ∀ i < su.dests.length, (g.kept i = true ↔ ∃ fd, (fds w.client)[i]? = some (some fd))

/-- The systems of a server work, and so do the requests of other clients. -/
structure LinkFits (conf : UcmqConf) (n : String) (l : Link) : Prop where
  ok : l.sys.Ok
  free : storageLow conf l.sys = false
  others : ∀ i ∈ l.others, QueueRequest conf n i

/-- Text left on a kept connection is reported before the connection is taken up. -/
def Reported (l : Link) (i : ℕ) (w : World) : Prop :=
  w.client.mq.keepAlive = 1 → ∀ fd, (fds w.client)[i]? = some (some fd) → w.wire fd ≠ [] →
  l.events = true

/-- What an exchange returns for a visit. -/
inductive Visited (ret : MqReturn) : Except ℤ FifoOut → Bool → MqReturn → Prop
  | failed (code : ℤ) : Visited ret (.error code) false { ret with result := code }
  | ended : Visited ret (.ok .empty) false { ret with result := mqGetMsgEnd }
  | answered {out : FifoOut} {ret' : MqReturn} (hne : out ≠ .empty) (hr : ret'.result = codeOf out)
      (hd : ret'.data = dataOf out) : Visited ret (.ok out) true ret'

/-- Connections of other servers, and the text left on them, stay. -/
def Apart (i : ℕ) (w w' : World) : Prop :=
  w.client.mq.keepAlive = 1 → ∀ j, j ≠ i → (fds w'.client)[j]? = (fds w.client)[j]? ∧
    ∀ fd, (fds w.client)[j]? = some (some fd) → w'.wire fd = w.wire fd

/-- A world stops only when socket answers with a descriptor that is open. -/
def TakenFd : WorldStop → Prop
  | .client e => Taken e
  | .stack => False
  | .server _ => False

variable {lib : WireLibrary} {banner : String} {charset : Option String} {su : Setup} {w w' : World}
variable {g : ServerGroup} {i : ℕ} {l : Link} {op : FifoOp} {ret : MqReturn}

/-- What a call of the client ensures. -/
theorem ensures_ofClient {α : Type} {x : Except Stop α} {P : α → Prop} (h : Ensures Taken x P) :
    Ensures TakenFd (ofClient x) P := h.mapError fun _ he => he

/-- A computation that succeeds has a result. -/
theorem exists_of_isOk {ε α : Type} {x : Except ε α} (h : x.isOk = true) : ∃ a, x = .ok a := by
  cases x with
  | error e => cases h
  | ok a => exact ⟨a, rfl⟩

section Visit

/-- The address of a server of the list. -/
theorem destOf_eq (c : Client) (i : ℕ) : destOf i c = ((dests c)[i]?).getD "" := by
  rw [destOf, dests, List.getElem?_map]

/-- There is an entry for every server. -/
theorem Related.length (h : Related su w g) : w.client.mq.connList.length = su.dests.length := by
  rw [← h.dests, CacheSlots.dests, List.length_map]

/-- A server is reached when its connection is had. -/
theorem reachable_eq (h : Related su w g) (hi : i < su.dests.length) (arrivals : List Arrival) :
    reachable su.keepAlive l (g.kept i) = (connection i (l.exchange arrivals) w.client).isSome := by
  have hmade : made (l.exchange arrivals) = made (l.exchange []) := rfl
  unfold reachable connection
  rw [h.keepAlive, hmade]
  by_cases hka : su.keepAlive = 1
  · rw [if_pos hka]
    have hkept := h.kept hka i hi
    have htaken : takenUp i (l.exchange arrivals) w.client =
      if l.events then none else ((fds w.client)[i]?).join := rfl
    rw [htaken]
    cases hev : l.events with
    | true =>
      rw [if_pos rfl, Option.none_or]
      simp
    | false =>
      rw [if_neg (by decide)]
      have hlt : i < (fds w.client).length := by
        rw [length_fds, h.length]
        exact hi
      rw [List.getElem?_eq_getElem hlt] at hkept ⊢
      cases hslot : (fds w.client)[i] with
      | none =>
        have hnot : ¬g.kept i = true := by
          rw [hkept, hslot]
          simp
        simp [hnot]
      | some fd =>
        have hyes : g.kept i = true := by
          rw [hkept, hslot]
          simp
        simp [hka, hyes]
  · rw [if_neg hka]
    simp [hka]

/-- What an exchange on a connection does to the client. -/
structure Stepped (i : ℕ) (s : Option ℕ) (read : ReplyRead) (c c' : Client) : Prop where
  owned : ∃ lost, Owned [] lost c'
  same : SameList c c'
  self : c.mq.keepAlive = 1 → (fds c')[i]? = some (if givenUp 1 read then none else s)
  others : c.mq.keepAlive = 1 → ∀ j, j ≠ i → (fds c')[j]? = (fds c)[j]? ∧
    ∀ fd, (fds c)[j]? = some (some fd) → s ≠ some fd

/-- The part of an exchange that belongs to the client. -/
theorem client_step (h : Related su w g) (hi : i < su.dests.length) (x : Exchange)
    (ret : MqReturn) :
    Ensures Taken (ConnectionCache.inMqOperate i (destOf i w.client) x ret w.client) fun r =>
      r.1 = (readOn (connection i x w.client) x ret).ok ∧
      r.2.1 = (readOn (connection i x w.client) x ret).ret ∧
        Stepped i (connection i x w.client)
          (readOn (connection i x w.client) x ret) w.client r.2.2 := by
  obtain ⟨lost, howned⟩ := h.owned
  have hlt : i < w.client.mq.connList.length := by
    rw [h.length]
    exact hi
  have hboth :=
    (inMqOperate_slots x ret hlt).and (inMqOperate_owned (destOf i w.client) x ret howned hlt)
  refine hboth.returned.mono fun r hr => ?_
  obtain ⟨⟨⟨hok, hret, hslots, hsame⟩, lost', howned', -⟩, hres⟩ := hr
  refine ⟨hok, hret, ⟨lost', howned'⟩, hsame, fun hka => ?_, fun hka j hj => ?_⟩
  · rw [hslots, slotsAfter_self hka hlt]
  · have hd := distinct_connection howned hlt hka hres
    refine ⟨by rw [hslots, slotsAfter_other hka hj hd hlt], fun fd hfd he => hj ?_⟩
    refine hd j i fd ?_ ?_
    · rw [List.getElem?_set_ne (Ne.symm hj)]
      exact hfd
    · rw [he, List.getElem?_set_self (by rwa [length_fds])]

/-- An entry has the address of its server. -/
theorem Related.dest_eq (h : Related su w g) (i : ℕ) : destOf i w.client = su.dest i := by
  rw [Setup.dest, ← h.dests, destOf_eq]

/-- The relation after an exchange, with the new list of its server. -/
theorem Related.stepped (h : Related su w g) {s : Option ℕ} {read : ReplyRead}
    {c : Client} {s' : Server} {q : List (List UInt8)} {kept : Bool} {wire : ℕ → List Char}
    (hs : Stepped i s read w.client c) (hserves : ServesName (su.conf (su.dest i)) su.name s' q)
    (hkept : kept = true ↔ ∃ fd, (if givenUp 1 read then none else s) = some fd) :
    Related su ⟨c, Function.update w.servers (su.dest i) s', wire, w.stack⟩
      (g.set su i q kept) := by
  refine ⟨hs.owned, hs.same.dests.trans h.dests, hs.same.lookUp.trans h.lookUp,
    hs.same.keepAlive.trans h.keepAlive, h.stack, fun d => ?_, fun hka j hj => ?_⟩
  · unfold ServerGroup.set
    dsimp only
    by_cases hd : d = su.dest i
    · subst hd
      rw [Function.update_self, Function.update_self]
      exact hserves
    · rw [Function.update_of_ne hd, Function.update_of_ne hd]
      exact h.serves d
  · have hka' : w.client.mq.keepAlive = 1 := h.keepAlive.trans hka
    unfold ServerGroup.set
    dsimp only
    by_cases hji : j = i
    · subst hji
      rw [Function.update_self, hs.self hka', hkept]
      simp
    · rw [Function.update_of_ne hji, (hs.others hka' j hji).1]
      exact h.kept hka j hj

/-- Requests of other clients are served as the list of the server serves them. -/
theorem serveOthers_serves (banner : String) (hn : reqQnameCheck (some su.name) = true)
    (hl : LinkFits (su.conf (su.dest i)) su.name l) (h : Related su w g) :
    ∃ s, serveOthers banner l.others (w.servers (su.dest i)) = .ok s ∧
      ServesName (su.conf (su.dest i)) su.name s (waiting su i l g) := by
  have hstep : ∀ (r : Sys × Request) (s : Server) (q : List (List UInt8)),
      QueueRequest (su.conf (su.dest i)) su.name r → ServesName (su.conf (su.dest i)) su.name s q →
      ∃ rs s', mqEvhttpCbDoOptEntry banner r.1 r.2 s = .ok (rs, s') ∧
        ServesName (su.conf (su.dest i)) su.name s' (fifoStep (su.cap i) (fifoOp r.2) q).2 := by
    intro r s q hr hq
    rcases hr.opt with hget | ⟨hput, -⟩
    · obtain ⟨rs, s', heq, -, hq'⟩ := @servesName_get _ _ _ _ _ banner hn hq hr hget
      exact ⟨rs, s', heq, hq'⟩
    · obtain ⟨rs, s', heq, -, hq'⟩ := @servesName_put _ _ _ _ _ banner hn hq hr hput
      exact ⟨rs, s', heq, hq'⟩
  obtain ⟨os, s, hfeed, hserves⟩ := feed_related hstep hl.others (h.serves (su.dest i))
  refine ⟨s, ?_, hserves⟩
  rw [serveOthers, hfeed]
  rfl

/-- Nothing is left on a connection that is taken up. -/
theorem leftOn_of_reported (h : Reported l i w) : leftOn i l w = [] := by
  unfold leftOn
  by_cases hka : w.client.mq.keepAlive = 1
  · rw [if_pos hka]
    have htaken : takenUp i (l.exchange []) w.client =
      if l.events then none else ((fds w.client)[i]?).join := rfl
    rw [htaken]
    cases hev : l.events with
    | true => rfl
    | false =>
      rw [if_neg (by decide)]
      cases hslot : (fds w.client)[i]? with
      | none => rfl
      | some s =>
        cases s with
        | none => rfl
        | some fd =>
          by_cases hwire : w.wire fd = []
          · exact hwire
          · exact absurd (h hka fd hslot hwire) (by simp [hev])
  · rw [if_neg hka]

/-- A body as a C string. -/
theorem cStr_bytes (b : List UInt8) :
    (cStr (b.map byteChar)).map charByte = b.takeWhile (· ≠ 0) := by
  have hzero :
      (fun c : Char => decide (c ≠ '\x00')) ∘ byteChar = fun b : UInt8 => decide (b ≠ 0) := by
    funext b
    simp only [Function.comp, ne_eq, byteChar_eq_zero_iff]
  rw [cStr, List.takeWhile_map, hzero, map_charByte_map_byteChar]

/-- Status and content of a reply are those of the answer it reports. -/
theorem Reports.read {out : FifoOut} {r : Reply} (h : Reports out r) (hne : out ≠ .empty) :
    r.code ≠ 404 ∧ (r.code : ℤ) = codeOf out ∧
      some ((cStr ((contentOf r).map byteChar)).map charByte) = dataOf out := by
  rw [cStr_bytes]
  cases h with
  | stored pos hpos =>
    have hok : (200 : ℕ) ≠ 404 := by decide
    have htext : ("HTTPSQS_PUT_OK\r\n".toList.map charByte ++ []).takeWhile (· ≠ 0) =
      "HTTPSQS_PUT_OK\r\n".toList.map charByte := by decide
    exact ⟨hok, rfl, congrArg some htext⟩
  | full => exact ⟨by decide, rfl, by decide +kernel⟩
  | got body pos hpos =>
    have hok : (200 : ℕ) ≠ 404 := by decide
    exact ⟨hok, rfl, rfl⟩
  | empty => exact absurd rfl hne

/-- A server that is not reached. -/
theorem unheard_visits (h : Related su w g) (hi : i < su.dests.length) {s : Server}
    (hsent : sentOn i l w.client = none)
    (hserves : ServesName (su.conf (su.dest i)) su.name s (waiting su i l g)) (ret : MqReturn) :
    Ensures TakenFd (unheard i l ret s w) fun r =>
      Visited ret (visit su i l op g).1 r.1 r.2.1 ∧ Related su r.2.2 (visit su i l op g).2 ∧
      Apart i w r.2.2 := by
  have hreach := reachable_eq h hi [] (l := l)
  unfold unheard visit
  refine (ensures_ofClient (client_step h hi (l.exchange []) ret)).bind fun r hr => ?_
  obtain ⟨ok, ret', c⟩ := r
  obtain ⟨hok, hret, hs⟩ := hr
  dsimp only at hok hret hs ⊢
  subst hok hret
  have hapart : Apart i w ⟨c, Function.update w.servers (destOf i w.client) s, w.wire, w.stack⟩ :=
    fun hka j hj => ⟨(hs.others hka j hj).1, fun _ _ => rfl⟩
  rw [h.dest_eq] at hapart ⊢
  cases hconn : connection i (l.exchange []) w.client with
  | none =>
    rw [hconn] at hs hreach
    have hno : reachable su.keepAlive l (g.kept i) = false := hreach
    rw [if_pos hno]
    exact .pure ⟨.failed _, h.stepped hs hserves (by simp), hapart⟩
  | some fd =>
    have hno : l.sent = false := by
      unfold sentOn at hsent
      rw [hconn] at hsent
      cases hsend : l.sent with
      | false => rfl
      | true => simp [hsend] at hsent
    have hread :
        readOn (some fd) (l.exchange []) ret = ⟨false, { ret with result := 70 }, none, none⟩ :=
      if_pos hno
    have hgiven : givenUp 1 ⟨false, { ret with result := 70 }, none, none⟩ = true := rfl
    rw [hconn, hread] at hs
    rw [hconn] at hreach
    have hyes : ¬reachable su.keepAlive l (g.kept i) = false := by
      rw [hreach]
      simp
    rw [if_neg hyes, if_pos hno, hread]
    refine .pure ⟨.failed _, h.stepped hs hserves ?_, hapart⟩
    rw [if_pos hgiven]
    simp

/-- A server that answers. -/
theorem answered_visits (hlib : Lawful lib) (h : Related su w g) (hi : i < su.dests.length)
    {fd : ℕ} {s : Server} (hsent : sentOn i l w.client = some fd) {r : Reply}
    {arrivals : List Arrival} (hcalm : Calm arrivals) (harr : arrived arrivals = wireText lib r)
    (hlen : (contentOf r).length < 2^31-1) (hheld : (contentOf r).length < su.stack)
    (hr : Reports (fifoStep (su.cap i) op (waiting su i l g)).1 r)
    (hserves : ServesName (su.conf (su.dest i)) su.name s
      (fifoStep (su.cap i) op (waiting su i l g)).2)
    (ret : MqReturn) :
    Ensures TakenFd (answered i l ret fd arrivals s w) fun r =>
      Visited ret (visit su i l op g).1 r.1 r.2.1 ∧ Related su r.2.2 (visit su i l op g).2 ∧
      Apart i w r.2.2 := by
  obtain ⟨hsend, hconn⟩ : l.sent = true ∧
      connection i (l.exchange arrivals) w.client = some fd := by
    unfold sentOn at hsent
    cases hsend : l.sent with
    | false =>
      rw [hsend] at hsent
      cases hsent
    | true =>
      rw [hsend, if_pos rfl] at hsent
      exact ⟨rfl, hsent⟩
  have hyes : ¬reachable su.keepAlive l (g.kept i) = false := by
    rw [reachable_eq h hi arrivals, hconn]
    simp
  have hno : ¬l.sent = false := by simp [hsend]
  have hread : readOn (some fd) (l.exchange arrivals) ret =
      recvReplyFields ⟨true, true, arrivals, l.errno⟩ ret :=
    if_neg hno
  have hreadable := hlib.readable _ r hr (by omega)
  have hstack : ¬stackHolds w.stack ⟨true, true, arrivals, l.errno⟩ ret = false := by
    have hlength := hreadable.length
    rw [h.stack, Bool.not_eq_false, stackHolds_iff hreadable.block hreadable.short ⟨hcalm, harr⟩]
    exact .inr (.inr ⟨by omega, by omega⟩)
  unfold answered visit
  rw [if_neg hyes, if_neg hno, if_neg hstack]
  refine (ensures_ofClient (client_step h hi (l.exchange arrivals) ret)).bind fun y hy => ?_
  obtain ⟨ok, ret', c⟩ := y
  obtain ⟨hok, hret, hs⟩ := hy
  dsimp only at hok hret hs ⊢
  rw [hconn, hread] at hs hok hret
  subst hok hret
  have hapart : Apart i w ⟨c, Function.update w.servers (destOf i w.client) s,
      Function.update w.wire fd (arrived (restAfter arrivals ret)), w.stack⟩ := by
    refine fun hka j hj => ⟨(hs.others hka j hj).1, fun fd' hfd' => Function.update_of_ne ?_ _ _⟩
    rintro rfl
    exact (hs.others hka j hj).2 fd' hfd' rfl
  rw [h.dest_eq] at hapart ⊢
  by_cases hempty : (fifoStep (su.cap i) op (waiting su i l g)).1 = .empty
  · rw [hempty] at hr ⊢
    cases hr with
    | empty =>
      obtain ⟨hok, hret, -⟩ := reply_ended hreadable rfl hcalm harr l.errno ret
      rw [hok, hret]
      refine .pure ⟨.ended, h.stepped hs hserves ?_, hapart⟩
      have hgiven : givenUp 1 (recvReplyFields ⟨true, true, arrivals, l.errno⟩ ret) = false := by
        simp [givenUp, hret]
      rw [hgiven, if_neg (by decide)]
      simp
  · obtain ⟨hcode, hresult, hdata⟩ := Reports.read hr hempty
    obtain ⟨hok, hres, hcontent, -⟩ := reply_completed hreadable hcode hcalm harr l.errno ret
    rw [hok]
    refine .pure ⟨.answered hempty (hres.trans hresult) (hcontent.trans hdata),
      h.stepped hs hserves ?_, hapart⟩
    have hgiven : givenUp 1 (recvReplyFields ⟨true, true, arrivals, l.errno⟩ ret) = false := by
      simp [givenUp, hok]
    rw [hgiven, if_neg (by decide)]
    simp

/-- One exchange is a visit. -/
theorem worldOperate_visits (hlib : Lawful lib) (banner : String)
    (hn : reqQnameCheck (some su.name) = true) (hc : ∀ cs ∈ charset, ∀ c ∈ cs.toList, QuerySafe c)
    (h : Related su w g) (hi : i < su.dests.length) (hline : OneLine (su.dest i))
    (hl : LinkFits (su.conf (su.dest i)) su.name l) (hop : Fits (su.conf (su.dest i)) op)
    (hstack : ∀ d, maxDbFileSize (su.conf d) ≤ su.stack) (hrep : Reported l i w) (ret : MqReturn) :
    Ensures TakenFd (worldOperate lib banner i l (infoOf su.name charset op) ret w) fun r =>
      Visited ret (visit su i l op g).1 r.1 r.2.1 ∧ Related su r.2.2 (visit su i l op g).2 ∧
      Apart i w r.2.2 := by
  obtain ⟨s, hothers, hwaiting⟩ := serveOthers_serves banner hn hl h
  unfold worldOperate
  rw [h.dest_eq, hothers]
  refine Ensures.ok_bind ?_
  cases hsent : sentOn i l w.client with
  | none => exact unheard_visits h hi hsent hwaiting ret
  | some fd =>
    obtain ⟨r, s', heq, hr, hlen, hserves⟩ := serves_answer banner hn hwaiting hl.ok hl.free hop
    have hanswer :
      answer lib banner l.sys (commSendHttpReq (su.dest i) (infoOf su.name charset op)) s =
        .ok (wireText lib r, s') := by
      rw [answer, received_op hlib hline hn hc hop]
      dsimp only
      rw [heq]
      simp [Except.map]
    dsimp only
    rw [hanswer]
    have hmax := maxDbFileSize_le (su.conf (su.dest i))
    have hroom := hstack (su.dest i)
    refine answered_visits hlib h hi hsent (l.split.calm _) ?_ (by omega) (by omega) hr hserves ret
    rw [l.split.whole, leftOn_of_reported hrep, List.nil_append]

end Visit

section Calls

/-- What a call finds: systems that work, a body that fits every server, and nothing left
unreported on a kept connection. -/
structure Settled (su : Setup) (w : World) (ev : WorldEvent) : Prop where
  links : ∀ i < su.dests.length, LinkFits (su.conf (su.dest i)) su.name (ev.links i)
  fits : ∀ i < su.dests.length, Fits (su.conf (su.dest i)) ev.op
  reported : ∀ i < su.dests.length, Reported (ev.links i) i w

/-- An exchange with another server reports what is left as before. -/
theorem Reported.apart (h : Reported l i w) {j : ℕ} (hij : i ≠ j) (ha : Apart j w w')
    (hka : w'.client.mq.keepAlive = w.client.mq.keepAlive) : Reported l i w' := by
  intro hka' fd hslot hwire
  have hka₁ : w.client.mq.keepAlive = 1 := hka.symm.trans hka'
  obtain ⟨hfds, hsame⟩ := ha hka₁ i hij
  rw [hfds] at hslot
  rw [hsame fd hslot] at hwire
  exact h hka₁ fd hslot hwire

/-- The fail-over loop visits the servers in the same order with the same results. -/
theorem worldLoop_visits (hlib : Lawful lib) (banner : String)
    (hn : reqQnameCheck (some su.name) = true) (hc : ∀ cs ∈ charset, ∀ c ∈ cs.toList, QuerySafe c)
    (hline : ∀ i < su.dests.length, OneLine (su.dest i)) {links : ℕ → Link}
    (hl : ∀ i < su.dests.length, LinkFits (su.conf (su.dest i)) su.name (links i))
    (hop : ∀ i < su.dests.length, Fits (su.conf (su.dest i)) op)
    (hstack : ∀ d, maxDbFileSize (su.conf d) ≤ su.stack) {order : List ℕ} (hnd : order.Nodup)
    (horder : ∀ i ∈ order, i < su.dests.length) (hrep : ∀ i ∈ order, Reported (links i) i w)
    (h : Related su w g) (curr : ℕ) (hdata : ret.data = none) :
    Ensures TakenFd
      (worldLoop lib banner links (infoOf su.name charset op) order curr ret w) fun r =>
      Seen.mk r.2.1 r.2.2.1.result r.2.2.1.data =
        (groupLoop su links op order curr ret.result g).1 ∧
        Related su r.2.2.2 (groupLoop su links op order curr ret.result g).2 := by
  induction order generalizing curr ret w g with
  | nil => exact .ok ⟨by rw [hdata]; rfl, h⟩
  | cons i order ih =>
    obtain ⟨hi, hnd⟩ := List.nodup_cons.mp hnd
    have hlt : i < su.dests.length := horder i List.mem_cons_self
    have hrest : ∀ j ∈ order, j < su.dests.length :=
      fun j hj => horder j (List.mem_cons_of_mem i hj)
    unfold worldLoop groupLoop
    refine (worldOperate_visits hlib banner hn hc h hlt (hline i hlt) (hl i hlt) (hop i hlt) hstack
      (hrep i List.mem_cons_self) ret).bind fun r hr => ?_
    obtain ⟨ok, ret₁, w₁⟩ := r
    obtain ⟨hv, h₁, hapart⟩ := hr
    have hrep₁ : ∀ j ∈ order, Reported (links j) j w₁ := fun j hj =>
      (hrep j (List.mem_cons_of_mem i hj)).apart (ne_of_mem_of_not_mem hj hi) hapart
        (h₁.keepAlive.trans h.keepAlive.symm)
    have hnext : ∀ ret₁ : MqReturn, ret₁.data = none → Related su w₁ (visit su i (links i) op g).2 →
        Ensures TakenFd
          (worldLoop lib banner links (infoOf su.name charset op) order i ret₁ w₁ >>= fun r =>
          pure ((i, infoOf su.name charset op) :: r.1, r.2)) fun r =>
        Seen.mk r.2.1 r.2.2.1.result r.2.2.1.data =
          (groupLoop su links op order i ret₁.result (visit su i (links i) op g).2).1 ∧
        Related su r.2.2.2
          (groupLoop su links op order i ret₁.result (visit su i (links i) op g).2).2 :=
      fun ret₁ hd h₁ => (ih hnd hrest hrep₁ h₁ i hd).bind fun _ hr => .pure hr
    dsimp only at hv h₁ ⊢
    generalize visit su i (links i) op g = v at hv h₁ hnext
    obtain ⟨out, g₁⟩ := v
    dsimp only at hv h₁ hnext
    cases hv with
    | failed code =>
      rw [if_neg (by decide)]
      exact hnext _ hdata h₁
    | ended =>
      rw [if_neg (by decide)]
      exact hnext _ hdata h₁
    | @answered out _ hne hr hd =>
      rw [if_pos rfl]
      have hlast : Seen.mk i ret₁.result ret₁.data = ⟨i, codeOf out, dataOf out⟩ := by rw [hr, hd]
      cases out with
      | empty => exact absurd rfl hne
      | stored => exact .pure ⟨hlast, h₁⟩
      | full => exact .pure ⟨hlast, h₁⟩
      | got body => exact .pure ⟨hlast, h₁⟩
      | other => exact .pure ⟨hlast, h₁⟩

/-- One call. -/
theorem worldCall_group (hlib : Lawful lib) (banner : String)
    (hn : reqQnameCheck (some su.name) = true) (hc : ∀ cs ∈ charset, ∀ c ∈ cs.toList, QuerySafe c)
    (hline : ∀ i < su.dests.length, OneLine (su.dest i))
    (hstack : ∀ d, maxDbFileSize (su.conf d) ≤ su.stack) (h : Related su w g) {ev : WorldEvent}
    (hev : Settled su w ev) :
    Ensures TakenFd (worldCall lib banner su.name charset ev w) fun x =>
      seen x.1 = (groupCall su ev g).1 ∧ Related su x.2 (groupCall su ev g).2 := by
  have horder : ∀ i ∈ callOrder ev.rand w.client, i < su.dests.length := by
    intro i hi
    have := mem_lookupOrder hi
    rwa [h.length] at this
  have hcall : groupCall su ev g =
      groupLoop su ev.links ev.op (callOrder ev.rand w.client) 0 inInitReturn.result g := by
    rw [groupCall, callOrder, h.lookUp, h.length]
    rfl
  unfold worldCall
  rw [hcall]
  exact (worldLoop_visits hlib banner hn hc hline hev.links hev.fits hstack
    (nodup_lookupOrder _ _) horder
    (fun i hi => hev.reported i (horder i hi)) h 0 rfl).bind fun _ hr => .pure hr

end Calls

section Start

/-- A new client and servers that serve lists. -/
theorem related_start {inetAddr : List Char → Bool} {mq : MqObject} {servers : String → Server}
    {queues : String → List (List UInt8)} (wire : ℕ → List Char)
    (hmq : mqInit inetAddr su.dests su.lookUp su.keepAlive = .ok (some mq))
    (hserves : ∀ d, ServesName (su.conf d) su.name (servers d) (queues d)) :
    Related su ⟨⟨mq, []⟩, servers, wire, su.stack⟩ ⟨queues, fun _ => false⟩ := by
  obtain ⟨hka, hcached⟩ := cached_mqInit hmq
  obtain rfl := mqInit_eq hmq
  refine ⟨⟨[], fun a => ?_, List.nodup_nil⟩, ?_, rfl, hka, rfl, hserves, fun _ i _ => ?_⟩
  · rw [hcached]
    rfl
  · show (su.dests.map fun addr => (⟨addr, none, 0, 0⟩ : MqSrv)).map MqSrv.mqDest = su.dests
    rw [List.map_map]
    exact List.map_id su.dests
  · refine iff_of_false (by simp) ?_
    rintro ⟨fd, hslot⟩
    rw [fds, List.getElem?_map] at hslot
    obtain ⟨srv, hsrv, hfd⟩ := Option.map_eq_some_iff.mp hslot
    obtain ⟨addr, -, rfl⟩ := List.mem_map.mp (List.mem_of_getElem? hsrv)
    cases hfd

/-- Whatever the calls of a client, the order in which servers are looked up, the
connections that are had and the ways replies arrive, every call returns what the
abstract group returns, and the servers serve its lists, on a stack that holds a data
file. A call ends in no other way unless socket answers with a descriptor that is
open. -/
theorem calls_are_fifo (hlib : Lawful lib) {banner : String} {charset : Option String}
    (hc : ∀ cs ∈ charset, ∀ c ∈ cs.toList, QuerySafe c) {su : Setup}
    (hn : reqQnameCheck (some su.name) = true) (hline : ∀ addr ∈ su.dests, OneLine addr)
    (hstack : ∀ d, maxDbFileSize (su.conf d) ≤ su.stack) {inetAddr : List Char → Bool}
    {mq : MqObject} (hmq : mqInit inetAddr su.dests su.lookUp su.keepAlive = .ok (some mq))
    {servers : String → Server} {queues : String → List (List UInt8)}
    (hserves : ∀ d, ServesName (su.conf d) su.name (servers d) (queues d)) {wire : ℕ → List Char}
    {tr : List (WorldEvent × (List (ℕ × MqOptInfo) × MqReturn))} {w : World}
    (hrun : Run (worldCall lib banner su.name charset) (Settled su)
      ⟨⟨mq, []⟩, servers, wire, su.stack⟩ tr w) :
    tr.map (fun e => seen e.2) = feedAbs (groupCall su) (tr.map Prod.fst) ⟨queues, fun _ => false⟩ ∧
      (∀ d, ServesName (su.conf d) su.name (w.servers d)
        ((stateAfter (groupCall su) (tr.map Prod.fst) ⟨queues, fun _ => false⟩).queues d)) ∧
      ∀ ev, Settled su w ev →
        Ensures TakenFd (worldCall lib banner su.name charset ev w) fun _ => True := by
  have haddr : ∀ i < su.dests.length, OneLine (su.dest i) := by
    intro i hi
    rw [Setup.dest, List.getElem?_eq_getElem hi]
    exact hline _ (List.getElem_mem hi)
  have hsim :
    tr.map (fun e => seen e.2) = feedAbs (groupCall su) (tr.map Prod.fst) ⟨queues, fun _ => false⟩ ∧
      Related su w (stateAfter (groupCall su) (tr.map Prod.fst) ⟨queues, fun _ => false⟩) :=
    @Run.simulates _ _ _ _ _ _ _ _ _ _ _ (groupCall su) (fun _ x => seen x) (Related su) _
      (related_start wire hmq hserves)
      (fun w g ev x w' hrel hev hres =>
        (worldCall_group hlib banner hn hc haddr hstack hrel hev).of_ok hres) hrun
  refine ⟨hsim.1, hsim.2.serves, fun ev hev => ?_⟩
  exact (worldCall_group hlib banner hn hc haddr hstack hsim.2 hev).mono fun _ _ => trivial

/-- A text that arrives at once. -/
def atOnce : Split where
  pieces text := unread text []
  calm text := by cases text <;> simp [unread, Calm]
  whole text := by rw [arrived_unread, arrived, List.append_nil]

/-- A link on which a new connection is made for each exchange. -/
def freshLink : Link :=
  ⟨0, true, some 3, true, [.inProgress true true], true, 0, atOnce, [], Sys.quiet 0 0⟩

/-- One server is asked, with keep-alive and a stack of eight megabytes. -/
def oneServer : Setup := ⟨fun _ => .least, "q", 0, 1, ["127.0.0.1:1818"], 2^23⟩

/-- A body is put and got on a server whose queue was just created. -/
theorem calls_are_fifo_two :
    ∃ tr w, Run (worldCall PlainWire.plainWire "" "q" none) (Settled oneServer)
      ⟨⟨⟨0, 1, [⟨"127.0.0.1:1818", none, 0, 0⟩]⟩, []⟩,
        fun _ => (mqQmAddQueue (Sys.quiet 0 0) "q" (Server.start .least)).2,
          fun _ => [], 2^23⟩ tr w ∧
      tr.map (fun e => seen e.2) =
        [⟨0, 200, some ("HTTPSQS_PUT_OK\r\n".toList.map charByte)⟩, ⟨0, 200, some [65]⟩] := by
  let call := worldCall PlainWire.plainWire "" "q" none
  let w₀ : World := ⟨⟨⟨0, 1, [⟨"127.0.0.1:1818", none, 0, 0⟩]⟩, []⟩,
    fun _ => (mqQmAddQueue (Sys.quiet 0 0) "q" (Server.start .least)).2, fun _ => [], 2^23⟩
  have hfree : storageLow .least (Sys.quiet 0 0) = false := rfl
  have hsettled : ∀ (w : World) (op : FifoOp), Fits .least op →
      Settled oneServer w ⟨op, fun _ => freshLink, id⟩ :=
    fun w op hop => ⟨fun _ _ => ⟨Sys.quiet_ok 0 0, hfree, by simp [freshLink]⟩, fun _ _ => hop,
      fun _ _ _ _ _ _ => rfl⟩
  obtain ⟨x, hx⟩ : ∃ x, call ⟨.put [65], fun _ => freshLink, id⟩ w₀ = .ok x :=
    exists_of_isOk (by decide +kernel)
  obtain ⟨y, hy⟩ : ∃ y, call ⟨.get, fun _ => freshLink, id⟩ x.2 = .ok y := by
    have hboth : ∃ y, (call ⟨.put [65], fun _ => freshLink, id⟩ w₀ >>=
      fun x => call ⟨.get, fun _ => freshLink, id⟩ x.2) = .ok y :=
      exists_of_isOk (by decide +kernel)
    rw [hx] at hboth
    exact hboth
  have hnil : Run call (Settled oneServer) w₀ [] w₀ := .nil
  have hrun :=
    (hnil.snoc (hsettled w₀ (.put [65]) ⟨by decide, by decide⟩) hx).snoc
      (hsettled x.2 .get trivial) hy
  refine ⟨_, _, hrun, ?_⟩
  have hserves : ∀ d : String, ServesName .least "q" (w₀.servers d) [] := by
    intro d
    have hadd := addQueue_of_free (Sys.quiet_ok 0 0) hfree
      (by decide : ((Server.start .least).qlist.length : ℤ) < 1000) "q"
    have hslot : HasSlot (Server.start .least) "q" (.absent ((Server.start .least).dirs "q")) :=
      ⟨rfl, rfl⟩
    rcases addQueue_of_absent (Sys.quiet_ok 0 0) hslot with ⟨hf, -⟩ | ⟨-, hs⟩
    · rw [hadd] at hf
      cases hf
    · exact ⟨(sameElsewhere_addQueue (Sys.quiet 0 0) "q" (Server.start .least)).conf, _, hs,
        serves_created rfl⟩
  have hall := (@calls_are_fifo _ PlainWire.plainWire_lawful "" none (by simp) oneServer (by decide)
    (by simp [oneServer, OneLine]) (fun _ => (by decide : maxDbFileSize .least ≤ 2^23))
      (fun _ => true) _ rfl _ (fun _ => []) hserves _ _ _ hrun).1
  rw [hall]
  rfl

end Start

end Ucmq.ClientFifo
