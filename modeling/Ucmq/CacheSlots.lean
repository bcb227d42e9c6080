import Mathlib.Data.List.Nodup
import Ucmq.SocketRuns

/-!
# The cached connections of the C client

What an exchange does to the list of cached connections, whenever it does not
stop: with keep-alive the entry of its server holds the connection that was used,
until it is given up, and the other entries stay. Whether a connection is had is
told by the cache and by the answers of socket and connect.
-/

namespace Ucmq.CacheSlots

open FailureSpec MqClient HeaderFields ConnectionCache SocketRuns

/-- Cached connections by server. -/
def fds (c : Client) : List (Option ℕ) := c.mq.connList.map MqSrv.fd

/-- Addresses by server. -/
def dests (c : Client) : List String := c.mq.connList.map MqSrv.mqDest

/-- The first answer of connect that is no interruption leads to a connection. -/
def succeeds : List Connect → Bool
  | .intr :: cs => succeeds cs
  | .isConn :: _ => true
  | .inProgress true true :: _ => true
  | _ => false

/-- The new connection of an exchange that needs one. -/
def made (x : Exchange) : Option ℕ := if x.nonblock && succeeds x.connects then x.socket else none

/-- The cached connection that an exchange takes up. -/
def takenUp (i : ℕ) (x : Exchange) (c : Client) : Option ℕ :=
  if x.events then none else ((fds c)[i]?).join

/-- The connection of an exchange. -/
def connection (i : ℕ) (x : Exchange) (c : Client) : Option ℕ :=
  if c.mq.keepAlive = 1 then (takenUp i x c).or (made x) else made x

/-- A step may stop. -/
abbrev AnyStop (_ : Stop) : Prop := True

variable {c c' : Client} {i : ℕ} {x : Exchange} {dest : String} {s : Option ℕ}

/-- Addresses and setting stay. -/
structure SameList (c c' : Client) : Prop where
  keepAlive : c'.mq.keepAlive = c.mq.keepAlive
  lookUp : c'.mq.lookUp = c.mq.lookUp
  dests : dests c' = dests c

/-- A client has the list it has. -/
theorem SameList.refl (c : Client) : SameList c c := ⟨rfl, rfl, rfl⟩

/-- Addresses stay over two steps that keep them. -/
theorem SameList.trans {c'' : Client} (h : SameList c c') (h' : SameList c' c'') : SameList c c'' :=
  ⟨h'.keepAlive.trans h.keepAlive, h'.lookUp.trans h.lookUp, h'.dests.trans h.dests⟩

/-- Addresses stay where only descriptors of the process change. -/
theorem SameList.of_mq (h : c'.mq = c.mq) : SameList c c' :=
  ⟨by rw [h], by rw [h], by rw [CacheSlots.dests, CacheSlots.dests, h]⟩

/-- The list has as many entries as before. -/
theorem SameList.length (h : SameList c c') : c'.mq.connList.length = c.mq.connList.length := by
  have := congrArg List.length h.dests
  rwa [CacheSlots.dests, CacheSlots.dests, List.length_map, List.length_map] at this

/-- Cached connections stay where only descriptors of the process change. -/
theorem fds_of_mq (h : c'.mq = c.mq) : fds c' = fds c := by rw [fds, fds, h]

/-- There is a cached connection or none for every entry. -/
theorem length_fds (c : Client) : (fds c).length = c.mq.connList.length := List.length_map _

/-- Addresses are the same after an entry got one with its own address. -/
theorem sameList_setSrv {srv srv' : MqSrv} (h : c.mq.connList[i]? = some srv)
    (hd : srv'.mqDest = srv.mqDest) :
    SameList c (setSrv i srv' c) := by
  refine ⟨rfl, rfl, ?_⟩
  have hself : (c.mq.connList.map MqSrv.mqDest)[i]? = some srv.mqDest := by
    rw [List.getElem?_map, h]; rfl
  obtain ⟨hlt, heq⟩ := List.getElem?_eq_some_iff.mp hself
  rw [dests, dests, setSrv, List.map_set, hd, ← heq, List.set_getElem_self]

/-- Replacing an entry replaces its cached connection. -/
theorem fds_setSrv (i : ℕ) (srv : MqSrv) (c : Client) :
    fds (setSrv i srv c) = (fds c).set i srv.fd := by
  rw [fds, fds, setSrv, List.map_set]

/-- Closing a descriptor leaves the list alone. -/
theorem closeFd_mq (fd : ℕ) (c : Client) :
    Ensures AnyStop (closeFd fd c) fun c' => c'.mq = c.mq := by
  unfold closeFd
  split
  · exact .ok rfl
  · exact .error trivial

/-- Opening a descriptor leaves the list alone. -/
theorem openFd_mq (fd : ℕ) (c : Client) : Ensures AnyStop (openFd fd c) fun c' => c'.mq = c.mq := by
  unfold openFd
  split
  · exact .error trivial
  · exact .ok rfl

/-- The loop of connect calls keeps the descriptor exactly when they succeed. -/
theorem connectLoop_made (fd : ℕ) (cs : List Connect) (c : Client) :
    Ensures AnyStop (connectLoop fd cs c) fun r =>
      r.1 = (if succeeds cs then some fd else none) ∧ r.2.mq = c.mq := by
  have hclose : Ensures AnyStop (do let c ← closeFd fd c; return ((none : Option ℕ), c)) fun r =>
      r.1 = none ∧ r.2.mq = c.mq := (closeFd_mq fd c).bind fun c' hc' => .pure ⟨rfl, hc'⟩
  induction cs with
  | nil => exact hclose
  | cons e cs ih =>
    cases e with
    | intr => exact ih
    | done => exact .ok ⟨rfl, rfl⟩
    | isConn => exact .ok ⟨rfl, rfl⟩
    | failed => exact hclose
    | inProgress ready ok =>
      cases ready with
      | false => exact hclose
      | true =>
        cases ok with
        | false => exact hclose
        | true => exact .ok ⟨rfl, rfl⟩

/-- A new connection is had when the calls that make it succeed. -/
theorem commCreateSocket_made (x : Exchange) (c : Client) :
    Ensures AnyStop (commCreateSocket x c) fun r => r.1 = made x ∧ r.2.mq = c.mq := by
  unfold commCreateSocket made
  cases hs : x.socket with
  | none => exact .ok ⟨by simp, rfl⟩
  | some fd =>
    refine (openFd_mq fd c).bind fun c₁ h₁ => ?_
    cases hn : x.nonblock with
    | false =>
      rw [if_pos rfl]
      exact (closeFd_mq fd c₁).bind fun c₂ h₂ => .pure ⟨rfl, h₂.trans h₁⟩
    | true =>
      rw [if_neg (by decide)]
      exact (connectLoop_made fd x.connects c₁).mono fun r hr =>
        ⟨by simpa using hr.1, hr.2.trans h₁⟩

/-- Taking up the cached connection of a server. -/
theorem inGetFromList_slots (x : Exchange) (hi : i < c.mq.connList.length) :
    Ensures AnyStop (inGetFromList i (destOf i c) x c) fun r =>
      r.1 = takenUp i x c ∧ fds r.2 = (fds c).set i r.1 ∧ SameList c r.2 := by
  have hc : c.mq.connList[i]? = some c.mq.connList[i] := List.getElem?_eq_getElem hi
  have hdest : destOf i c = c.mq.connList[i].mqDest := by rw [destOf, hc]; rfl
  have hfd : (fds c)[i]? = some c.mq.connList[i].fd := by rw [fds, List.getElem?_map, hc]; rfl
  unfold inGetFromList takenUp
  rw [hdest, hc, hfd]
  generalize hsrv : c.mq.connList[i] = srv at hc hfd
  have hself : (fds c).set i srv.fd = fds c := by
    obtain ⟨hlt, heq⟩ := List.getElem?_eq_some_iff.mp hfd
    rw [← heq, List.set_getElem_self]
  obtain ⟨mqDest, fd, lastUse, timeout⟩ := srv
  cases fd with
  | none => exact .ok ⟨by simp, hself.symm, .refl c⟩
  | some fd =>
    simp only [ne_eq, not_true, if_false]
    by_cases huse : fd ∈ c.opened
    · rw [useFd, if_pos huse]
      simp only [bind, Except.bind]
      cases he : x.events with
      | false =>
        rw [if_pos rfl]
        exact .ok ⟨rfl, fds_setSrv i _ c, sameList_setSrv hc rfl⟩
      | true =>
        rw [if_neg (by decide)]
        refine (closeFd_mq fd c).bind fun c₁ h₁ => .pure ⟨rfl, ?_, ?_⟩
        · rw [fds_setSrv, fds_of_mq h₁]
        · rw [← h₁] at hc
          exact (SameList.of_mq h₁).trans (sameList_setSrv hc rfl)
    · rw [useFd, if_neg huse]
      exact .error trivial

/-- Caching a connection for a server at its own address. -/
theorem inAddToList_slots (fd : ℕ) (secNow : ℤ) (hi : i < c.mq.connList.length)
    (hdest : dest = destOf i c) :
    Ensures AnyStop (inAddToList i fd dest secNow c) fun c' =>
      fds c' = (fds c).set i (some fd) ∧ SameList c c' := by
  have hc : c.mq.connList[i]? = some c.mq.connList[i] := List.getElem?_eq_getElem hi
  have hd : dest = c.mq.connList[i].mqDest := by rw [hdest, destOf, hc]; rfl
  unfold inAddToList
  rw [hc]
  generalize c.mq.connList[i] = srv at hc hd
  obtain ⟨mqDest, old, lastUse, timeout⟩ := srv
  cases old with
  | none => exact .pure ⟨fds_setSrv i _ c, sameList_setSrv hc hd⟩
  | some old =>
    refine (closeFd_mq old c).bind fun c₁ h₁ => .pure ⟨?_, ?_⟩
    · rw [fds_setSrv, fds_of_mq h₁]
    · rw [← h₁] at hc
      exact (SameList.of_mq h₁).trans (sameList_setSrv hc hd)

/-- With keep-alive the entry of the server holds the connection that is had. -/
theorem commGetSocket_slots (x : Exchange) (hi : i < c.mq.connList.length) :
    Ensures AnyStop (commGetSocket i (destOf i c) x c) fun r =>
      r.1 = (takenUp i x c).or (made x) ∧ fds r.2 = (fds c).set i r.1 ∧ SameList c r.2 := by
  unfold commGetSocket
  refine (inGetFromList_slots x hi).bind fun r hr => ?_
  obtain ⟨s, c₁⟩ := r
  obtain ⟨hs, hf, hl⟩ := hr
  have hs' : takenUp i x c = s := hs.symm
  cases s with
  | some fd => exact .pure ⟨by rw [hs']; rfl, hf, hl⟩
  | none =>
    refine (commCreateSocket_made x c₁).bind fun r hr => ?_
    obtain ⟨s, c₂⟩ := r
    obtain ⟨hm, hmq⟩ := hr
    have hf₂ : fds c₂ = (fds c).set i none := (fds_of_mq hmq).trans hf
    have hl₂ : SameList c c₂ := hl.trans (.of_mq hmq)
    have hor : s = (takenUp i x c).or (made x) := by rw [hs']; exact hm
    cases s with
    | none => exact .pure ⟨hor, hf₂, hl₂⟩
    | some fd =>
      have hi₂ : i < c₂.mq.connList.length := by rwa [hl₂.length]
      have hdest : destOf i c = destOf i c₂ := by
        have hd := congrArg (fun l => (l[i]?).getD "") hl₂.dests
        simp only [dests, List.getElem?_map] at hd
        exact hd.symm
      refine (inAddToList_slots fd x.secNow hi₂ hdest).bind fun c₃ h₃ =>
        .pure ⟨hor, ?_, hl₂.trans h₃.2⟩
      rw [h₃.1, hf₂, List.set_set]

/-- The connection of an exchange, and the list after it is had. -/
theorem getConnection_slots (x : Exchange) (hi : i < c.mq.connList.length) :
    Ensures AnyStop (getConnection i (destOf i c) x c) fun r => r.1 = connection i x c ∧
      fds r.2 = (if c.mq.keepAlive = 1 then (fds c).set i r.1 else fds c) ∧ SameList c r.2 := by
  unfold getConnection connection
  by_cases hka : c.mq.keepAlive = 1
  · rw [if_pos hka]
    exact (commGetSocket_slots x hi).mono fun r hr => by rwa [if_pos hka, if_pos hka]
  · rw [if_neg hka]
    refine (commCreateSocket_made x c).mono fun r hr => ?_
    rw [if_neg hka, if_neg hka]
    exact ⟨hr.1, fds_of_mq hr.2, .of_mq hr.2⟩

/-- Setting the timeout of a connection changes no connection and no address. -/
theorem fds_setTimeout (fd : ℕ) (timeout : ℤ) (conns : List MqSrv) :
    (commSetTimeoutByFd fd timeout conns).map MqSrv.fd = conns.map MqSrv.fd ∧
      (commSetTimeoutByFd fd timeout conns).map MqSrv.mqDest = conns.map MqSrv.mqDest := by
  induction conns with
  | nil => exact ⟨rfl, rfl⟩
  | cons srv conns ih =>
    rw [commSetTimeoutByFd]
    by_cases h : srv.fd = some fd
    · rw [if_pos h]
      exact ⟨rfl, rfl⟩
    · rw [if_neg h, List.map_cons, List.map_cons, List.map_cons, List.map_cons, ih.1, ih.2]
      exact ⟨rfl, rfl⟩

/-- What an exchange on a connection reads. -/
def readOn (s : Option ℕ) (x : Exchange) (ret : MqReturn) : ReplyRead :=
  match s with
  | none => ⟨false, { ret with result := x.errno }, none, none⟩
  | some _ =>
    if x.sent = false then ⟨false, { ret with result := 70 }, none, none⟩
    else recvReplyFields ⟨true, true, x.arrivals, x.errno⟩ ret

/-- An exchange returns what it reads and leaves the cached connections alone. -/
theorem exchange_slots (s : Option ℕ) (x : Exchange) (ret : MqReturn) (c : Client) :
    Ensures AnyStop (exchange s x ret c) fun r =>
      r.1 = readOn s x ret ∧ fds r.2 = fds c ∧ SameList c r.2 := by
  unfold exchange readOn
  cases s with
  | none => exact .ok ⟨rfl, rfl, .refl c⟩
  | some fd =>
    by_cases huse : fd ∈ c.opened
    · simp only [useFd, if_pos huse, bind, Except.bind]
      by_cases hsent : x.sent = false
      · simp only [if_pos hsent]
        exact .ok ⟨rfl, rfl, .refl c⟩
      · simp only [if_neg hsent]
        cases (recvReplyFields ⟨true, true, x.arrivals, x.errno⟩ ret).timeout with
        | none => exact .ok ⟨rfl, rfl, .refl c⟩
        | some timeout =>
          obtain ⟨hfds, hdests⟩ := fds_setTimeout fd timeout c.mq.connList
          exact .ok ⟨rfl, hfds, rfl, rfl, hdests⟩
    · simp only [useFd, if_neg huse, bind, Except.bind]
      exact .error trivial

/-- Closing a connection that is not cached leaves the list alone. -/
theorem closeUncached_mq (s : Option ℕ) (c : Client) :
    Ensures AnyStop (closeUncached s c) fun c' => c'.mq = c.mq := by
  cases s with
  | none => exact .ok rfl
  | some fd =>
    unfold closeUncached
    dsimp only
    by_cases hoff : c.mq.keepAlive = 0
    · rw [if_pos hoff]
      exact closeFd_mq fd c
    · rw [if_neg hoff]
      exact .ok rfl

/-- Entries of a connection that is given up. -/
def without (s : Option ℕ) (l : List (Option ℕ)) : List (Option ℕ) :=
  l.map fun own => if own = s then none else own

/-- Giving up a connection takes it from every entry that holds it. -/
theorem inDelFromList_slots (s : Option ℕ) (conns : List MqSrv) (opened : List ℕ) :
    Ensures AnyStop (inDelFromList s conns opened) fun r =>
      r.1.map MqSrv.fd = without s (conns.map MqSrv.fd) ∧
        r.1.map MqSrv.mqDest = conns.map MqSrv.mqDest := by
  induction conns generalizing opened with
  | nil => exact .ok ⟨rfl, rfl⟩
  | cons srv conns ih =>
    obtain ⟨mqDest, own, lastUse, timeout⟩ := srv
    have hkeep : (if own = s then none else own) = own →
      Ensures AnyStop (inDelFromList s conns opened >>= fun r =>
        pure ((⟨mqDest, own, lastUse, timeout⟩ : MqSrv) :: r.1, r.2)) fun r =>
        r.1.map MqSrv.fd = without s (own :: conns.map MqSrv.fd) ∧
          r.1.map MqSrv.mqDest = mqDest :: conns.map MqSrv.mqDest := by
      intro hown
      refine (ih opened).bind fun r hr => ?_
      obtain ⟨conns', opened'⟩ := r
      refine .pure ⟨?_, congrArg (mqDest :: ·) hr.2⟩
      rw [without, List.map_cons, List.map_cons, hown]
      exact congrArg (own :: ·) hr.1
    unfold inDelFromList
    cases own with
    | none => exact hkeep (by split <;> rfl)
    | some own =>
      by_cases hs : s = some own
      · simp only [if_pos hs]
        by_cases hmem : own ∈ opened
        · rw [if_pos hmem]
          refine (ih (opened.erase own)).bind fun r hr => ?_
          obtain ⟨conns', opened'⟩ := r
          refine .pure ⟨?_, congrArg (mqDest :: ·) hr.2⟩
          rw [without, List.map_cons, List.map_cons, List.map_cons, if_pos hs.symm]
          exact congrArg (none :: ·) hr.1
        · rw [if_neg hmem]
          exact .error trivial
      · simp only [if_neg hs]
        exact hkeep (if_neg (Ne.symm hs))

/-- Whether a connection is given up after an exchange. -/
def givenUp (keepAlive : ℤ) (read : ReplyRead) : Bool :=
  read.ret.result ≠ mqGetMsgEnd ∧ keepAlive = 1 ∧ read.ok = false

/-- A connection is given up after a failed exchange with keep-alive, unless the queue
was empty. -/
theorem giveUp_slots (s : Option ℕ) (read : ReplyRead) (c : Client) :
    Ensures AnyStop (giveUp s read c) fun c' =>
      fds c' = (if givenUp c.mq.keepAlive read then without s (fds c) else fds c) ∧
      SameList c c' := by
  unfold giveUp givenUp
  by_cases hgive : read.ret.result ≠ mqGetMsgEnd ∧ c.mq.keepAlive = 1 ∧ read.ok = false
  · rw [if_pos hgive, if_pos (by simpa using hgive)]
    refine (inDelFromList_slots s c.mq.connList c.opened).bind fun r hr => ?_
    obtain ⟨conns, opened⟩ := r
    exact .pure ⟨hr.1, rfl, rfl, hr.2⟩
  · rw [if_neg hgive, if_neg (by simpa using hgive)]
    exact .ok ⟨rfl, .refl c⟩

/-- Connections of different servers are different. -/
def Distinct (l : List (Option ℕ)) : Prop :=
  ∀ (i j fd : ℕ), l[i]? = some (some fd) → l[j]? = some (some fd) → i = j

/-- A list of connections without repetition belongs to different servers. -/
theorem distinct_of_nodup {conns : List MqSrv} (h : (cached conns).Nodup) :
    Distinct (conns.map MqSrv.fd) := by
  induction conns with
  | nil =>
    intro i j fd hi
    simp at hi
  | cons srv conns ih =>
    rw [cached_cons] at h
    have hrest := ih (List.nodup_append.mp h).2.1
    have hne : ∀ j fd : ℕ, srv.fd = some fd → (conns.map MqSrv.fd)[j]? ≠ some (some fd) := by
      intro j fd hfd hj
      rw [List.getElem?_map] at hj
      obtain ⟨srv', hsrv', hfd'⟩ := Option.map_eq_some_iff.mp hj
      have hmem : fd ∈ cached conns :=
        List.mem_filterMap.mpr ⟨srv', List.mem_of_getElem? hsrv', hfd'⟩
      exact (List.nodup_append.mp h).2.2 fd (by simp [hfd]) fd hmem rfl
    intro i j fd hi hj
    rw [List.map_cons] at hi hj
    cases i with
    | zero =>
      cases j with
      | zero => rfl
      | succ j => exact absurd (by simpa using hj) (hne j fd (by simpa using hi))
    | succ i =>
      cases j with
      | zero => exact absurd (by simpa using hi) (hne i fd (by simpa using hj))
      | succ j => rw [hrest i j fd (by simpa using hi) (by simpa using hj)]

/-- With descriptors accounted for no connection is cached for two servers. -/
theorem distinct_of_owned {held lost : List ℕ} (h : Owned held lost c) : Distinct (fds c) := by
  refine distinct_of_nodup (List.nodup_iff_count_le_one.mpr fun a => ?_)
  have hone := List.nodup_iff_count_le_one.mp h.nodup a
  have := h.ledger a
  omega

/-- The list of cached connections after an exchange that read this. -/
def slotsAfter (i : ℕ) (x : Exchange) (ret : MqReturn) (c : Client) : List (Option ℕ) :=
  let s := connection i x c
  if c.mq.keepAlive = 1 then
    if givenUp c.mq.keepAlive (readOn s x ret) then without s ((fds c).set i s) else (fds c).set i s
  else fds c

/-- One exchange: what it returns, and what it leaves cached. -/
theorem inMqOperate_slots (x : Exchange) (ret : MqReturn) (hi : i < c.mq.connList.length) :
    Ensures AnyStop (ConnectionCache.inMqOperate i (destOf i c) x ret c) fun r =>
      r.1 = (readOn (connection i x c) x ret).ok ∧ r.2.1 = (readOn (connection i x c) x ret).ret ∧
        fds r.2.2 = slotsAfter i x ret c ∧ SameList c r.2.2 := by
  unfold ConnectionCache.inMqOperate slotsAfter
  refine (getConnection_slots x hi).bind fun r hr => ?_
  obtain ⟨s, c₁⟩ := r
  obtain ⟨hs, hf₁, hl₁⟩ := hr
  dsimp only at hs hf₁ hl₁
  subst hs
  refine (exchange_slots _ x ret c₁).bind fun r hr => ?_
  obtain ⟨read, c₂⟩ := r
  obtain ⟨hread, hf₂, hl₂⟩ := hr
  dsimp only at hread hf₂ hl₂
  subst hread
  refine (closeUncached_mq _ c₂).bind fun c₃ h₃ => ?_
  refine (giveUp_slots _ _ c₃).bind fun c₄ h₄ => .pure ⟨rfl, rfl, ?_, ?_⟩
  · have hka : c₃.mq.keepAlive = c.mq.keepAlive := by rw [h₃, hl₂.keepAlive, hl₁.keepAlive]
    dsimp only
    rw [h₄.1, fds_of_mq h₃, hf₂, hf₁, hka]
    by_cases h1 : c.mq.keepAlive = 1
    · rw [if_pos h1, if_pos h1]
    · rw [if_neg h1, if_neg h1, if_neg]
      simp [givenUp, h1]
  · exact ((hl₁.trans hl₂).trans (.of_mq h₃)).trans h₄.2

/-- The connection of an exchange that does not stop is not that of another server. -/
theorem distinct_connection {lost : List ℕ} {ret : MqReturn} {r : Bool × MqReturn × Client}
    (h : Owned [] lost c) (hi : i < c.mq.connList.length) (hka : c.mq.keepAlive = 1)
    (hok : ConnectionCache.inMqOperate i (destOf i c) x ret c = .ok r) :
    Distinct ((fds c).set i (connection i x c)) := by
  have hget : Ensures Taken (getConnection i (destOf i c) x c) fun r => Had lost (leaves x) r ∧
      Keeps c r.2 := by
    unfold getConnection
    rw [if_pos hka]
    exact commGetSocket_owned (destOf i c) x h hi
  have hboth := (getConnection_slots x hi).and hget
  unfold ConnectionCache.inMqOperate at hok
  cases hg : getConnection i (destOf i c) x c with
  | error e =>
    rw [hg] at hok
    cases hok
  | ok y =>
    obtain ⟨⟨hs, hf, -⟩, hhad, -⟩ := hboth.of_ok hg
    rw [if_pos hka, hs] at hf
    rw [← hf]
    cases hhad with
    | cached h₁ => exact distinct_of_owned h₁
    | none h₁ => exact distinct_of_owned h₁
    | left hl h₁ => exact distinct_of_owned h₁

/-- The entry of another server stays. -/
theorem slotsAfter_other {ret : MqReturn} {j : ℕ} (hka : c.mq.keepAlive = 1) (hj : j ≠ i)
    (hd : Distinct ((fds c).set i (connection i x c))) (hi : i < c.mq.connList.length) :
    (slotsAfter i x ret c)[j]? = (fds c)[j]? := by
  have hset : ((fds c).set i (connection i x c))[j]? = (fds c)[j]? :=
    List.getElem?_set_ne (Ne.symm hj)
  have hself : ((fds c).set i (connection i x c))[i]? = some (connection i x c) := by
    rw [List.getElem?_set_self (by rwa [length_fds])]
  unfold slotsAfter
  dsimp only
  rw [if_pos hka]
  split
  · rw [without, List.getElem?_map, hset]
    cases hown : (fds c)[j]? with
    | none => rfl
    | some own =>
      rw [Option.map_some]
      cases own with
      | none => split <;> rfl
      | some fd =>
        have hne : some fd ≠ connection i x c := by
          intro he
          rw [← he] at hself hd hset
          exact hj (hd j i fd (hset.trans hown) hself)
        rw [if_neg hne]
  · exact hset

/-- The entry of the server holds the connection, unless it was given up. -/
theorem slotsAfter_self {ret : MqReturn} (hka : c.mq.keepAlive = 1)
    (hi : i < c.mq.connList.length) :
    (slotsAfter i x ret c)[i]? =
      some (if givenUp 1 (readOn (connection i x c) x ret) then none else connection i x c) := by
  have hself : ((fds c).set i (connection i x c))[i]? = some (connection i x c) := by
    rw [List.getElem?_set_self (by rwa [length_fds])]
  unfold slotsAfter
  dsimp only
  rw [if_pos hka, hka]
  cases givenUp 1 (readOn (connection i x c) x ret) with
  | true =>
    rw [if_pos rfl, if_pos rfl, without, List.getElem?_map, hself, Option.map_some, if_pos rfl]
  | false => rw [if_neg (by decide), if_neg (by decide), hself]

end Ucmq.CacheSlots
