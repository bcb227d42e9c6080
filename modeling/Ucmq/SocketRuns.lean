import Ucmq.ConnectionCache
import Ucmq.FailoverVisits
import Ucmq.FailureSpec
import Ucmq.LabelledRun

/-!
# The sockets of the C client

Every socket that the client opened and did not close is cached for one server,
held by the running call, or left behind. Sockets are left behind in two ways: by
a connect that succeeds at once, and by a keep-alive setting that is neither off
nor on, with which a connection is neither cached nor closed. No call uses or
closes a descriptor that is not open.
-/

namespace Ucmq.SocketRuns

open LabelledRun FailureSpec MqClient HeaderFields ConnectionCache

/-- Cached connections. -/
def cached (conns : List MqSrv) : List ℕ := conns.filterMap MqSrv.fd

/-- Every open socket is cached, held or left behind, and none of these twice. -/
structure Owned (held lost : List ℕ) (c : Client) : Prop where
  ledger : ∀ fd, c.opened.count fd = (cached c.mq.connList).count fd+held.count fd+lost.count fd
  nodup : c.opened.Nodup

/-- The setting and the number of servers stay. -/
structure Keeps (c c' : Client) : Prop where
  keepAlive : c'.mq.keepAlive = c.mq.keepAlive
  length : c'.mq.connList.length = c.mq.connList.length

/-- The only stop: the system answers with a descriptor that is open. -/
abbrev Taken (e : Stop) : Prop := e = .taken

/-- The first answer of connect that is no interruption is a connection. -/
def atOnce : List Connect → Bool
  | .intr :: cs => atOnce cs
  | .done :: _ => true
  | _ => false

/-- A new socket of the exchange would be connected at once. -/
def leaves (x : Exchange) : Bool := x.socket.isSome && x.nonblock && atOnce x.connects

variable {held lost : List ℕ} {c c' : Client} {fd curr : ℕ} {x : Exchange} {dest : String}
  {ret : MqReturn}

/-- A client keeps what it has. -/
theorem Keeps.refl (c : Client) : Keeps c c := ⟨rfl, rfl⟩

/-- Two steps keep what both keep. -/
theorem Keeps.trans {c'' : Client} (h : Keeps c c') (h' : Keeps c' c'') : Keeps c c'' :=
  ⟨h'.keepAlive.trans h.keepAlive, h'.length.trans h.length⟩

/-- Addresses are kept where only descriptors of the process change. -/
theorem Keeps.of_mq (h : c'.mq = c.mq) : Keeps c c' := ⟨by rw [h], by rw [h]⟩

/-- Replacing an entry keeps their number. -/
theorem keeps_setSrv (curr : ℕ) (srv : MqSrv) (c : Client) : Keeps c (setSrv curr srv c) :=
  ⟨rfl, List.length_set⟩

/-- Cached connections of a list with one entry more. -/
theorem cached_cons (srv : MqSrv) (conns : List MqSrv) :
    cached (srv :: conns) = srv.fd.toList ++ cached conns := by
  unfold cached
  cases h : srv.fd with
  | none => simp [h]
  | some fd => simp [h]

/-- How often a descriptor is cached in such a list. -/
theorem count_cached_cons (mqDest : String) (fd : Option ℕ) (lastUse timeout : ℤ)
    (conns : List MqSrv) (a : ℕ) :
    (cached (⟨mqDest, fd, lastUse, timeout⟩ :: conns)).count a =
      fd.toList.count a+(cached conns).count a := by
  rw [cached_cons, List.count_append]

/-- Changing one entry moves its connection only. -/
theorem count_cached_set {conns : List MqSrv} {srv : MqSrv} (h : conns[curr]? = some srv)
    (srv' : MqSrv) (a : ℕ) :
    (cached (conns.set curr srv')).count a+srv.fd.toList.count a =
      (cached conns).count a+srv'.fd.toList.count a := by
  induction conns generalizing curr with
  | nil => simp at h
  | cons y conns ih =>
    cases curr with
    | zero =>
      have hy : y = srv := by simpa using h
      subst hy
      simp only [List.set_cons_zero, cached_cons, List.count_append]
      omega
    | succ curr =>
      have hc := ih (by simpa using h)
      simp only [List.set_cons_succ, cached_cons, List.count_append]
      omega

/-- What is cached or held is open. -/
theorem Owned.mem_opened (h : Owned held lost c) (hfd : fd ∈ cached c.mq.connList ∨ fd ∈ held) :
    fd ∈ c.opened := by
  rw [← List.one_le_count_iff, h.ledger]
  rcases hfd with hfd | hfd
  · have := List.one_le_count_iff.mpr hfd
    omega
  · have := List.one_le_count_iff.mpr hfd
    omega

/-- Connections may change hands within the ledger. -/
theorem Owned.congr {held' lost' : List ℕ} (h : Owned held lost c) (ho : c'.opened = c.opened)
    (hl : ∀ a, (cached c'.mq.connList).count a+held'.count a+lost'.count a =
      (cached c.mq.connList).count a+held.count a+lost.count a) : Owned held' lost' c' :=
  ⟨fun a => by rw [ho, hl, h.ledger], by rw [ho]; exact h.nodup⟩

/-- A descriptor that is opened is held. -/
theorem openFd_owned (h : Owned held lost c) (fd : ℕ) :
    Ensures Taken (openFd fd c) fun c' => Owned (fd :: held) lost c' ∧ c'.mq = c.mq := by
  unfold openFd
  by_cases hfd : fd ∈ c.opened
  · rw [if_pos hfd]
    exact .error rfl
  · rw [if_neg hfd]
    refine .ok ⟨⟨fun a => ?_, List.nodup_cons.mpr ⟨hfd, h.nodup⟩⟩, rfl⟩
    have := h.ledger a
    simp only [List.count_cons]
    omega

/-- A descriptor that is held can be closed, and is not held any more. -/
theorem closeFd_owned (h : Owned (fd :: held) lost c) :
    Ensures Taken (closeFd fd c) fun c' => Owned held lost c' ∧ c'.mq = c.mq := by
  have hfd : fd ∈ c.opened := h.mem_opened (.inr List.mem_cons_self)
  unfold closeFd
  rw [if_pos hfd]
  refine .ok ⟨⟨fun a => ?_, h.nodup.erase fd⟩, rfl⟩
  have := h.ledger a
  simp only [List.count_cons, List.count_erase] at this ⊢
  omega

/-- How making a connection may end: with a socket in hand, without one, or with one
that is left behind. -/
inductive Made (held lost : List ℕ) (left : Bool) : Option ℕ × Client → Prop
  | held {fd : ℕ} {c : Client} (h : Owned (fd :: held) lost c) : Made held lost left (some fd, c)
  | closed {c : Client} (h : Owned held lost c) : Made held lost left (none, c)
  | left {fd : ℕ} {c : Client} (hl : left = true) (h : Owned held (fd :: lost) c) :
      Made held lost left (none, c)

/-- The loop of connect calls keeps the descriptor, closes it or loses it. -/
theorem connectLoop_owned {s : ℕ} (cs : List Connect) (h : Owned (s :: held) lost c) :
    Ensures Taken (connectLoop s cs c) fun r => Made held lost (atOnce cs) r ∧ r.2.mq = c.mq := by
  have hclose : Ensures Taken (do let c ← closeFd s c; return ((none : Option ℕ), c)) fun r =>
      Made held lost (atOnce cs) r ∧ r.2.mq = c.mq :=
    (closeFd_owned h).bind fun c' hc' => .pure ⟨.closed hc'.1, hc'.2⟩
  induction cs with
  | nil => exact hclose
  | cons e cs ih =>
    cases e with
    | intr => exact ih hclose
    | done =>
      have hleft : Owned held (s :: lost) c := h.congr rfl fun a => by
        simp only [List.count_cons]
        omega
      exact .ok ⟨.left rfl hleft, rfl⟩
    | isConn => exact .ok ⟨.held h, rfl⟩
    | failed => exact hclose
    | inProgress ready ok =>
      cases ready with
      | false => exact hclose
      | true =>
        cases ok with
        | false => exact hclose
        | true => exact .ok ⟨.held h, rfl⟩

/-- Making a connection accounts for its descriptor. -/
theorem commCreateSocket_owned (x : Exchange) (h : Owned held lost c) :
    Ensures Taken (commCreateSocket x c) fun r => Made held lost (leaves x) r ∧ r.2.mq = c.mq := by
  unfold commCreateSocket
  cases hs : x.socket with
  | none => exact .ok ⟨.closed h, rfl⟩
  | some s =>
    refine (openFd_owned h s).bind fun c₁ h₁ => ?_
    by_cases hn : x.nonblock = false
    · rw [if_pos hn]
      exact (closeFd_owned h₁.1).bind fun c₂ h₂ => .pure ⟨.closed h₂.1, h₂.2.trans h₁.2⟩
    · rw [if_neg hn]
      have hleaves : leaves x = atOnce x.connects := by
        rw [leaves, hs, eq_true_of_ne_false hn]
        rfl
      rw [hleaves]
      exact (connectLoop_owned x.connects h₁.1).mono fun r hr => ⟨hr.1, hr.2.trans h₁.2⟩

/-- An entry takes over connections, or gives one up, within the ledger. -/
theorem Owned.setSrv {srv srv' : MqSrv} {held' : List ℕ} (h : Owned held lost c)
    (hc : c.mq.connList[curr]? = some srv)
    (hm : ∀ a, srv'.fd.toList.count a+held'.count a = srv.fd.toList.count a+held.count a) :
    Owned held' lost (setSrv curr srv' c) :=
  h.congr rfl fun a => by
    have hset := count_cached_set hc srv' a
    have := hm a
    simp only [ConnectionCache.setSrv]
    omega

/-- The connection of an entry is closed before the entry is changed. -/
theorem closeCached_owned {srv srv' : MqSrv} {held' : List ℕ} (h : Owned held lost c)
    (hc : c.mq.connList[curr]? = some srv) (hfd : srv.fd = some fd)
    (hm : ∀ a, srv'.fd.toList.count a+held'.count a = held.count a) :
    Ensures Taken (closeFd fd c) fun c' => Owned held' lost (setSrv curr srv' c') ∧
    c'.mq = c.mq := by
  have hcached : fd ∈ cached c.mq.connList :=
    List.mem_filterMap.mpr ⟨srv, List.mem_of_getElem? hc, hfd⟩
  unfold closeFd
  rw [if_pos (h.mem_opened (.inl hcached))]
  refine .ok ⟨⟨fun a => ?_, h.nodup.erase fd⟩, rfl⟩
  have hset := count_cached_set hc srv' a
  have hledger := h.ledger a
  have := hm a
  rw [hfd, Option.toList_some] at hset
  simp only [ConnectionCache.setSrv, List.count_erase, List.count_singleton] at hset ⊢
  omega

/-- A cached connection that is taken up is still cached. -/
theorem inGetFromList_owned (curr : ℕ) (dest : String) (x : Exchange) (h : Owned held lost c) :
    Ensures Taken (inGetFromList curr dest x c) fun r => Owned held lost r.2 ∧
      Keeps c r.2 ∧ ∀ fd, r.1 = some fd → fd ∈ cached r.2.mq.connList := by
  have hsame : Ensures Taken (Except.ok ((none : Option ℕ), c)) fun r => Owned held lost r.2 ∧
      Keeps c r.2 ∧ ∀ fd, r.1 = some fd → fd ∈ cached r.2.mq.connList := .ok ⟨h, .refl c, by simp⟩
  unfold inGetFromList
  cases hc : c.mq.connList[curr]? with
  | none => exact hsame
  | some srv =>
    obtain ⟨mqDest, fd, lastUse, timeout⟩ := srv
    cases fd with
    | none => exact hsame
    | some fd =>
      by_cases hd : dest ≠ mqDest
      · simp only [if_pos hd]
        exact hsame
      have hcached : fd ∈ cached c.mq.connList :=
        List.mem_filterMap.mpr ⟨_, List.mem_of_getElem? hc, rfl⟩
      have huse : useFd fd c = .ok c := if_pos (h.mem_opened (.inl hcached))
      simp only [if_neg hd, huse, bind, Except.bind]
      by_cases he : x.events = false
      · rw [if_pos he]
        refine .ok ⟨h.setSrv hc fun a => rfl, keeps_setSrv _ _ c, fun fd' hfd' => ?_⟩
        cases hfd'
        have hlt : curr < c.mq.connList.length := (List.getElem?_eq_some_iff.mp hc).1
        exact List.mem_filterMap.mpr ⟨_, List.mem_set hlt _, rfl⟩
      · rw [if_neg he]
        have hnone : ∀ a, (none : Option ℕ).toList.count a+held.count a = held.count a :=
          fun a => by simp
        refine (@closeCached_owned held lost c fd curr _
          ⟨mqDest, none, lastUse, timeout⟩ held h hc rfl
          hnone).bind fun c' hc' => .pure ⟨hc'.1, ?_, by simp⟩
        exact (Keeps.of_mq hc'.2).trans (keeps_setSrv _ _ c')

/-- A new connection is cached in place of the old one. -/
theorem inAddToList_owned (dest : String) (secNow : ℤ) (h : Owned (fd :: held) lost c)
    (hcurr : curr < c.mq.connList.length) :
    Ensures Taken (inAddToList curr fd dest secNow c) fun c' =>
      Owned held lost c' ∧ Keeps c c' ∧ fd ∈ cached c'.mq.connList := by
  have hmem : ∀ c' : Client, c'.mq = c.mq →
      fd ∈ cached (setSrv curr ⟨dest, some fd, secNow, 3600⟩ c').mq.connList := by
    intro c' hc'
    refine List.mem_filterMap.mpr ⟨_, List.mem_set ?_ _, rfl⟩
    rw [hc']
    exact hcurr
  have htake : ∀ a, (some fd).toList.count a+held.count a = (fd :: held).count a := fun a => by
    simp only [Option.toList_some, List.count_cons, List.count_nil]
    omega
  have hc : c.mq.connList[curr]? = some c.mq.connList[curr] := List.getElem?_eq_getElem hcurr
  unfold inAddToList
  rw [hc]
  generalize c.mq.connList[curr] = srv at hc
  obtain ⟨mqDest, old, lastUse, timeout⟩ := srv
  cases old with
  | none =>
    refine .pure ⟨h.setSrv hc fun a => ?_, keeps_setSrv _ _ c, hmem c rfl⟩
    rw [htake, Option.toList_none, List.count_nil, Nat.zero_add]
  | some old =>
    refine (@closeCached_owned _ lost c old curr _ ⟨dest, some fd, secNow, 3600⟩ held h hc rfl
      htake).bind fun c' hc' => .pure ⟨hc'.1, ?_, hmem c' hc'.2⟩
    exact (Keeps.of_mq hc'.2).trans (keeps_setSrv _ _ c')

/-- How a connection for an exchange may be had: cached, held, or not at all. -/
inductive Had (lost : List ℕ) (left : Bool) : Option ℕ × Client → Prop
  | cached {fd : ℕ} {c : Client} (h : Owned [] lost c) (hfd : fd ∈ cached c.mq.connList) :
      Had lost left (some fd, c)
  | none {c : Client} (h : Owned [] lost c) : Had lost left (none, c)
  | left {fd : ℕ} {c : Client} (hl : left = true) (h : Owned [] (fd :: lost) c) :
      Had lost left (Option.none, c)

/-- So does taking up a cached connection or making and caching one. -/
theorem commGetSocket_owned (dest : String) (x : Exchange) (h : Owned [] lost c)
    (hcurr : curr < c.mq.connList.length) :
    Ensures Taken (commGetSocket curr dest x c) fun r => Had lost (leaves x) r ∧ Keeps c r.2 := by
  unfold commGetSocket
  refine (inGetFromList_owned curr dest x h).bind fun r hr => ?_
  obtain ⟨s, c₁⟩ := r
  obtain ⟨h₁, hk₁, hs⟩ := hr
  cases s with
  | some fd => exact .pure ⟨.cached h₁ (hs fd rfl), hk₁⟩
  | none =>
    refine (commCreateSocket_owned x h₁).bind fun r hr => ?_
    obtain ⟨hmade, hmq⟩ := hr
    have hk₂ : Keeps c r.2 := hk₁.trans (.of_mq hmq)
    cases hmade with
    | closed h₂ => exact .pure ⟨.none h₂, hk₂⟩
    | left hl h₂ => exact .pure ⟨.left hl h₂, hk₂⟩
    | held h₂ =>
      rw [← hk₂.length] at hcurr
      exact (inAddToList_owned dest x.secNow h₂ hcurr).bind fun c₃ h₃ =>
        .pure ⟨.cached h₃.1 h₃.2.2, hk₂.trans h₃.2.1⟩

/-- Setting a timeout changes no cached connection. -/
theorem cached_setTimeout (fd : ℕ) (timeout : ℤ) (conns : List MqSrv) :
    cached (commSetTimeoutByFd fd timeout conns) = cached conns ∧
      (commSetTimeoutByFd fd timeout conns).length = conns.length := by
  induction conns with
  | nil => exact ⟨rfl, rfl⟩
  | cons srv conns ih =>
    rw [commSetTimeoutByFd]
    by_cases h : srv.fd = some fd
    · rw [if_pos h]
      exact ⟨rfl, rfl⟩
    · rw [if_neg h, cached_cons, cached_cons, ih.1, List.length_cons, List.length_cons, ih.2]
      exact ⟨rfl, rfl⟩

/-- Sending and receiving moves no connection. -/
theorem exchange_owned {s : Option ℕ} (x : Exchange) (ret : MqReturn)
    (hs : ∀ fd, s = some fd → fd ∈ c.opened) :
    Ensures Taken (exchange s x ret c) fun r =>
      r.2.opened = c.opened ∧ cached r.2.mq.connList = cached c.mq.connList ∧ Keeps c r.2 := by
  unfold exchange
  cases s with
  | none => exact .ok ⟨rfl, rfl, .refl c⟩
  | some fd =>
    have huse : useFd fd c = .ok c := if_pos (hs fd rfl)
    simp only [huse, bind, Except.bind]
    by_cases hsent : x.sent = false
    · rw [if_pos hsent]
      exact .ok ⟨rfl, rfl, .refl c⟩
    · rw [if_neg hsent]
      cases (recvReplyFields ⟨true, true, x.arrivals, x.errno⟩ ret).timeout with
      | none => exact .ok ⟨rfl, rfl, .refl c⟩
      | some timeout =>
        obtain ⟨hcached, hlength⟩ := cached_setTimeout fd timeout c.mq.connList
        exact .ok ⟨rfl, hcached, rfl, hlength⟩

/-- A connection is closed and taken out of every entry that caches it. -/
theorem inDelFromList_owned (s : Option ℕ) {conns : List MqSrv} {opened : List ℕ} {rest : ℕ → ℕ}
    (hl : ∀ a, opened.count a = (cached conns).count a+rest a) (hnd : opened.Nodup) :
    Ensures Taken (inDelFromList s conns opened) fun r =>
      (∀ a, r.2.count a = (cached r.1).count a+rest a) ∧ r.2.Nodup ∧ r.1.length = conns.length := by
  induction conns generalizing opened rest with
  | nil => exact .ok ⟨hl, hnd, rfl⟩
  | cons srv conns ih =>
    obtain ⟨mqDest, own, lastUse, timeout⟩ := srv
    have hkeep : Ensures Taken (inDelFromList s conns opened >>= fun r =>
        pure ((⟨mqDest, own, lastUse, timeout⟩ : MqSrv) :: r.1, r.2)) fun r =>
        (∀ a, r.2.count a = (cached r.1).count a+rest a) ∧ r.2.Nodup ∧
        r.1.length = conns.length+1 := by
      refine (@ih opened (fun a => own.toList.count a+rest a) (fun a => ?_) hnd).bind fun r hr => ?_
      · rw [hl a, count_cached_cons]
        omega
      · obtain ⟨conns', opened'⟩ := r
        refine .pure ⟨fun a => ?_, hr.2.1, congrArg Nat.succ hr.2.2⟩
        have hcount := hr.1 a
        simp only [count_cached_cons] at hcount ⊢
        omega
    unfold inDelFromList
    cases own with
    | none => exact hkeep
    | some own =>
      by_cases hs : s = some own
      · have hcount : ∀ a, opened.count a = [own].count a+(cached conns).count a+rest a :=
          fun a => by
          rw [hl a, count_cached_cons]
          rfl
        have hmem : own ∈ opened := by
          rw [← List.one_le_count_iff, hcount, List.count_singleton_self]
          omega
        simp only [if_pos hs, if_pos hmem]
        refine (@ih (opened.erase own) rest (fun a => ?_) (hnd.erase own)).bind fun r hr => ?_
        · rw [List.count_erase, hcount a, List.count_singleton]
          omega
        · obtain ⟨conns', opened'⟩ := r
          refine .pure ⟨fun a => ?_, hr.2.1, congrArg Nat.succ hr.2.2⟩
          simp only [count_cached_cons, Option.toList_none, List.count_nil, Nat.zero_add]
          exact hr.1 a
      · simp only [if_neg hs]
        exact hkeep

/-- Closing the list closes what it caches. -/
theorem inDelList_owned {conns : List MqSrv} {opened : List ℕ} {rest : ℕ → ℕ}
    (hl : ∀ a, opened.count a = (cached conns).count a+rest a) :
    ∃ left, inDelList conns opened = .ok left ∧ ∀ a, left.count a = rest a := by
  induction conns generalizing opened with
  | nil => exact ⟨opened, rfl, fun a => by rw [hl a]; exact Nat.zero_add _⟩
  | cons srv conns ih =>
    obtain ⟨mqDest, own, lastUse, timeout⟩ := srv
    unfold inDelList
    cases own with
    | none =>
      exact ih fun a => by
        rw [hl a, count_cached_cons, Option.toList_none, List.count_nil, Nat.zero_add]
    | some own =>
      have hcount : ∀ a, opened.count a = [own].count a+(cached conns).count a+rest a := fun a => by
        rw [hl a, count_cached_cons]
        rfl
      have hmem : own ∈ opened := by
        rw [← List.one_le_count_iff, hcount, List.count_singleton_self]
        omega
      simp only [if_pos hmem]
      refine ih fun a => ?_
      rw [List.count_erase, hcount a, List.count_singleton]
      omega

/-- Keep-alive is off or on, and no new socket is connected at once. -/
def Tidy (keepAlive : ℤ) (x : Exchange) : Prop := (keepAlive = 0 ∨ keepAlive = 1) ∧ leaves x = false

/-- The sockets of a client after a part of its calls: those left behind may be more
unless that part is tidy. -/
def Accounts (tidy : Prop) (lost : List ℕ) (c c' : Client) : Prop :=
  ∃ lost', Owned [] lost' c' ∧ Keeps c c' ∧
    (c.mq.keepAlive ≠ 1 → cached c'.mq.connList = cached c.mq.connList) ∧ (tidy → lost' = lost)

/-- A step that does nothing is accounted for. -/
theorem Accounts.refl (tidy : Prop) (h : Owned [] lost c) : Accounts tidy lost c c :=
  ⟨lost, h, .refl c, fun _ => rfl, fun _ => rfl⟩

/-- What is accounted for in a tidy step is so where less is asked. -/
theorem Accounts.mono {tidy tidy' : Prop} (h : Accounts tidy lost c c') (ht : tidy' → tidy) :
    Accounts tidy' lost c c' := by
  obtain ⟨lost', h', hk, hc, hl⟩ := h
  exact ⟨lost', h', hk, hc, fun t => hl (ht t)⟩

/-- A cached connection is kept or given up. -/
theorem giveUp_owned (s : Option ℕ) (read : ReplyRead) (h : Owned [] lost c) :
    Ensures Taken (giveUp s read c) fun c' => Owned [] lost c' ∧ Keeps c c' := by
  unfold giveUp
  by_cases hgive : read.ret.result ≠ mqGetMsgEnd ∧ c.mq.keepAlive = 1 ∧ read.ok = false
  · rw [if_pos hgive]
    have hl : ∀ a, c.opened.count a = (cached c.mq.connList).count a+lost.count a := fun a => by
      rw [h.ledger a, List.count_nil, Nat.add_zero]
    refine (inDelFromList_owned s hl h.nodup).bind fun r hr => ?_
    obtain ⟨conns, opened⟩ := r
    refine .pure ⟨⟨fun a => ?_, hr.2.1⟩, rfl, hr.2.2⟩
    rw [List.count_nil, Nat.add_zero]
    exact hr.1 a
  · rw [if_neg hgive]
    exact .ok ⟨h, .refl c⟩

/-- Without keep-alive no connection is given up. -/
theorem giveUp_uncached (s : Option ℕ) (read : ReplyRead) (hka : ¬c.mq.keepAlive = 1) :
    giveUp s read c = .ok c := if_neg fun hgive => hka hgive.2.1

/-- With keep-alive a connection stays open. -/
theorem closeUncached_cached (s : Option ℕ) (hka : c.mq.keepAlive = 1) :
    closeUncached s c = .ok c := by
  have hopen : ¬c.mq.keepAlive = 0 := by omega
  cases s with
  | none => rfl
  | some fd => exact if_neg hopen

/-- A connection that is not cached is closed, or left behind when keep-alive is not
off. -/
theorem closeUncached_owned {s : Option ℕ} (h : Owned s.toList lost c) :
    Ensures Taken (closeUncached s c) fun c' => c'.mq = c.mq ∧
      ∃ lost', Owned [] lost' c' ∧ (c.mq.keepAlive = 0 → lost' = lost) := by
  cases s with
  | none => exact .ok ⟨rfl, lost, h, fun _ => rfl⟩
  | some fd =>
    unfold closeUncached
    by_cases hoff : c.mq.keepAlive = 0
    · simp only [if_pos hoff]
      exact (closeFd_owned h).mono fun c' hc' => ⟨hc'.2, lost, hc'.1, fun _ => rfl⟩
    · simp only [if_neg hoff]
      have hleft : Owned [] (fd :: lost) c := h.congr rfl fun a => by
        simp only [Option.toList_some, List.count_cons, List.count_nil]
        omega
      exact .ok ⟨rfl, fd :: lost, hleft, fun h0 => absurd h0 hoff⟩

/-- Sending and receiving on a connection leaves the ledger as it is. -/
theorem exchange_ledger {s : Option ℕ} (x : Exchange) (ret : MqReturn) (h : Owned held lost c)
    (hs : ∀ fd, s = some fd → fd ∈ cached c.mq.connList ∨ fd ∈ held) :
    Ensures Taken (exchange s x ret c) fun r => Owned held lost r.2 ∧
      cached r.2.mq.connList = cached c.mq.connList ∧ Keeps c r.2 :=
  (exchange_owned x ret fun fd hfd => h.mem_opened (hs fd hfd)).mono fun r hr =>
    ⟨h.congr hr.1 fun a => by rw [hr.2.1], hr.2.1, hr.2.2⟩

/-- One exchange of a client that caches its connections. -/
theorem inMqOperate_cached (dest : String) (x : Exchange) (ret : MqReturn) (h : Owned [] lost c)
    (hcurr : curr < c.mq.connList.length) (hka : c.mq.keepAlive = 1) :
    Ensures Taken (ConnectionCache.inMqOperate curr dest x ret c) fun r =>
      Accounts (leaves x = false) lost c r.2.2 := by
  unfold ConnectionCache.inMqOperate getConnection
  rw [if_pos hka]
  refine (commGetSocket_owned dest x h hcurr).bind fun r hr => ?_
  obtain ⟨s, c₁⟩ := r
  obtain ⟨hhad, hk₁⟩ := hr
  have hlost : ∃ lost₁, Owned [] lost₁ c₁ ∧ (∀ fd, s = some fd → fd ∈ cached c₁.mq.connList) ∧
      (leaves x = false → lost₁ = lost) := by
    cases hhad with
    | cached h₁ hfd =>
      refine ⟨lost, h₁, fun fd' he => ?_, fun _ => rfl⟩
      cases he
      exact hfd
    | none h₁ => exact ⟨lost, h₁, by simp, fun _ => rfl⟩
    | left hl h₁ => exact ⟨_, h₁, by simp, fun hn => absurd hl (by simp [hn])⟩
  obtain ⟨lost₁, h₁, hs, ht⟩ := hlost
  refine (exchange_ledger x ret h₁ fun fd hfd => .inl (hs fd hfd)).bind fun r hr => ?_
  obtain ⟨read, c₂⟩ := r
  obtain ⟨h₂, -, hk₂⟩ := hr
  have hka₂ : c₂.mq.keepAlive = 1 := by rw [hk₂.keepAlive, hk₁.keepAlive, hka]
  dsimp only
  rw [closeUncached_cached s hka₂]
  refine (giveUp_owned s read h₂).bind fun c₃ hc₃ =>
    .pure ⟨lost₁, hc₃.1, ?_, fun hne => absurd hka hne, ht⟩
  exact (hk₁.trans hk₂).trans hc₃.2

/-- One exchange of a client that does not. -/
theorem inMqOperate_uncached (dest : String) (x : Exchange) (ret : MqReturn) (h : Owned [] lost c)
    (hka : ¬c.mq.keepAlive = 1) :
    Ensures Taken (ConnectionCache.inMqOperate curr dest x ret c) fun r =>
      Accounts (c.mq.keepAlive = 0 ∧ leaves x = false) lost c r.2.2 := by
  unfold ConnectionCache.inMqOperate getConnection
  rw [if_neg hka]
  refine (commCreateSocket_owned x h).bind fun r hr => ?_
  obtain ⟨s, c₁⟩ := r
  obtain ⟨hmade, hmq⟩ := hr
  have hlost : ∃ lost₁, Owned s.toList lost₁ c₁ ∧ (leaves x = false → lost₁ = lost) := by
    cases hmade with
    | held h₁ => exact ⟨lost, h₁, fun _ => rfl⟩
    | closed h₁ => exact ⟨lost, h₁, fun _ => rfl⟩
    | left hl h₁ => exact ⟨_, h₁, fun hn => absurd hl (by simp [hn])⟩
  obtain ⟨lost₁, h₁, ht⟩ := hlost
  refine (exchange_ledger x ret h₁ fun fd hfd =>
    .inr (by rw [hfd]; exact List.mem_singleton_self fd)).bind
    fun r hr => ?_
  obtain ⟨read, c₂⟩ := r
  obtain ⟨h₂, hcached, hk₂⟩ := hr
  have hka₂ : c₂.mq.keepAlive = c.mq.keepAlive := by rw [hk₂.keepAlive, hmq]
  refine (closeUncached_owned h₂).bind fun c₃ hc₃ => ?_
  obtain ⟨hmq₃, lost₃, h₃, ht₃⟩ := hc₃
  rw [giveUp_uncached s read (by rwa [hmq₃, hka₂])]
  refine .pure ⟨lost₃, h₃, ((Keeps.of_mq hmq).trans hk₂).trans (.of_mq hmq₃), fun _ => ?_,
    fun htidy => ?_⟩
  · rw [hmq₃, hcached, hmq]
  · rw [ht₃ (by rw [hka₂]; exact htidy.1), ht htidy.2]

/-- One exchange. -/
theorem inMqOperate_owned (dest : String) (x : Exchange) (ret : MqReturn) (h : Owned [] lost c)
    (hcurr : curr < c.mq.connList.length) :
    Ensures Taken (ConnectionCache.inMqOperate curr dest x ret c) fun r =>
      Accounts (Tidy c.mq.keepAlive x) lost c r.2.2 := by
  by_cases hka : c.mq.keepAlive = 1
  · exact (inMqOperate_cached dest x ret h hcurr hka).mono fun r hr => hr.mono fun ht => ht.2
  · exact (inMqOperate_uncached dest x ret h hka).mono fun r hr =>
      hr.mono fun ht => ⟨ht.1.resolve_right hka, ht.2⟩

/-- Every exchange with a server of the list is tidy. -/
def AllTidy (keepAlive : ℤ) (net : ℕ → Exchange) : Prop := ∀ i, Tidy keepAlive (net i)

/-- The fail-over loop. -/
theorem operateLoop_owned (net : ℕ → Exchange) (info : MqOptInfo) {order : List ℕ} (curr : ℕ)
    (ret : MqReturn) (h : Owned [] lost c) (horder : ∀ i ∈ order, i < c.mq.connList.length) :
    Ensures Taken (ConnectionCache.operateLoop net info order curr ret c) fun r =>
      Accounts (AllTidy c.mq.keepAlive net) lost c r.2.2.2 := by
  induction order generalizing curr ret c lost with
  | nil => exact .ok (.refl _ h)
  | cons i order ih =>
    unfold ConnectionCache.operateLoop
    have hi : i < c.mq.connList.length := horder i List.mem_cons_self
    refine (inMqOperate_owned (destOf i c) (net i) ret h hi).bind fun r hr => ?_
    obtain ⟨ok, ret₁, c₁⟩ := r
    have hone := hr.mono fun (ht : AllTidy c.mq.keepAlive net) => ht i
    dsimp only
    by_cases hok : ok = true
    · rw [if_pos hok]
      exact .pure hone
    · rw [if_neg hok]
      obtain ⟨lost₁, h₁, hk₁, hc₁, ht₁⟩ := hone
      have hrest : ∀ j ∈ order, j < c₁.mq.connList.length := fun j hj => by
        rw [hk₁.length]
        exact horder j (List.mem_cons_of_mem i hj)
      refine (ih i ret₁ h₁ hrest).bind fun r hr => ?_
      obtain ⟨sent, last, ret₂, c₂⟩ := r
      obtain ⟨lost₂, h₂, hk₂, hc₂, ht₂⟩ := hr
      rw [hk₁.keepAlive] at hc₂ ht₂
      exact .pure ⟨lost₂, h₂, hk₁.trans hk₂, fun hne => (hc₂ hne).trans (hc₁ hne),
        fun ht => (ht₂ ht).trans (ht₁ ht)⟩

/-- Only servers of the list are looked up. -/
theorem mem_lookupOrder {rand : Option (ℕ → ℕ)} {count i : ℕ} (h : i ∈ lookupOrder rand count) :
    i < count :=
  List.mem_range.mp ((FailoverVisits.lookupOrder_perm rand count).mem_iff.mp h)

/-- Exchanges with the servers in their order. -/
theorem inDoOperate_owned (net : ℕ → Exchange) (rand : ℕ → ℕ) (info : MqOptInfo) (ret : MqReturn)
    (h : Owned [] lost c) :
    Ensures Taken (ConnectionCache.inDoOperate net rand info ret c) fun r =>
      Accounts (AllTidy c.mq.keepAlive net) lost c r.2.2 :=
  (operateLoop_owned net info 0 ret h fun _ hi => mem_lookupOrder hi).bind fun _ hr => .pure hr

/-- An exchange with one server of the list. -/
theorem operateAt_owned (net : ℕ → Exchange) (server : String) (info : MqOptInfo) (ret : MqReturn)
    (h : Owned [] lost c) :
    Ensures Taken (operateAt net server info ret c) fun r =>
      Accounts (AllTidy c.mq.keepAlive net) lost c r.2.2 := by
  unfold operateAt
  cases hi : c.mq.connList.findIdx? fun srv => srv.mqDest = server with
  | none => exact .ok (.refl _ h)
  | some i =>
    have hlt : i < c.mq.connList.length := (List.findIdx?_eq_some_iff_findIdx_eq.mp hi).1
    exact (inMqOperate_owned (destOf i c) (net i) ret h hlt).bind fun _ hr =>
      .pure (hr.mono fun ht => ht i)

/-- One call of the library. -/
theorem clientCall_owned (ev : ClientEvent) (h : Owned [] lost c) :
    Ensures Taken (clientCall ev c) fun r =>
      Accounts (AllTidy c.mq.keepAlive ev.net) lost c r.2 := by
  have hnothing : ∀ r : CallResult, Ensures Taken (Except.ok (r, c)) fun r =>
      Accounts (AllTidy c.mq.keepAlive ev.net) lost c r.2 := fun _ => .ok (.refl _ h)
  have hreturn : ∀ y : Except Stop (List (ℕ × MqOptInfo) × MqReturn × Client),
      Ensures Taken y (fun r => Accounts (AllTidy c.mq.keepAlive ev.net) lost c r.2.2) →
      Ensures Taken (returning y) fun r => Accounts (AllTidy c.mq.keepAlive ev.net) lost c r.2 :=
    fun y hy => hy.bind fun _ hr => .pure hr
  unfold clientCall
  cases ev.call with
  | putMsg name data => exact hreturn _ (inDoOperate_owned _ _ _ _ h)
  | getMsg name => exact hreturn _ (inDoOperate_owned _ _ _ _ h)
  | allSetOpt name opt data =>
    dsimp only
    by_cases hneg : opt < 0
    · rw [if_pos hneg]
      exact hnothing _
    · rw [if_neg hneg]
      cases setOptInfo name opt data ev.charset with
      | none => exact hnothing _
      | some info =>
        have hmode : Owned [] lost { c with mq := { c.mq with lookUp := 0 } } := ⟨h.ledger, h.nodup⟩
        refine hreturn _ ((inDoOperate_owned ev.net ev.rand info _ hmode).mono fun r hr => ?_)
        obtain ⟨lost', h', hk, hc, ht⟩ := hr
        exact ⟨lost', h', ⟨hk.keepAlive, hk.length⟩, hc, ht⟩
  | setOpt server name opt data =>
    dsimp only
    by_cases hneg : opt < 0
    · rw [if_pos hneg]
      exact hnothing _
    · rw [if_neg hneg]
      cases setOptInfo name opt data ev.charset with
      | none => exact hnothing _
      | some info => exact hreturn _ (operateAt_owned _ _ _ _ h)
  | getOpt server name opt data buf =>
    dsimp only
    by_cases hneg : opt < 0
    · rw [if_pos hneg]
      exact hnothing _
    · rw [if_neg hneg]
      cases getOptSwitch opt buf with
      | none => exact hnothing _
      | some word => exact hreturn _ (operateAt_owned _ _ _ _ h)

/-- An entry begins with its address and without a connection. -/
theorem initSrv_eq {inetAddr : List Char → Bool} {addr : String} {srv : MqSrv}
    (h : initSrv inetAddr addr = .ok (some srv)) : srv = ⟨addr, none, 0, 0⟩ := by
  unfold initSrv at h
  cases hp : addr.toList.findIdx? (· = ':') with
  | none =>
    rw [hp] at h
    cases h
  | some p =>
    simp only [hp, bind, Except.bind] at h
    cases ht : str2ipText (addr.toList.take p) with
    | error e =>
      rw [ht] at h
      cases h
    | ok text =>
      simp only [ht] at h
      split_ifs at h
      · cases h
      · cases h
        rfl

/-- So do all entries of a list. -/
theorem initSrvs_eq {inetAddr : List Char → Bool} {group : List String} {conns : List MqSrv}
    (h : initSrvs inetAddr group = .ok (some conns)) :
    conns = group.map fun addr => ⟨addr, none, 0, 0⟩ := by
  induction group generalizing conns with
  | nil =>
    cases h
    rfl
  | cons addr group ih =>
    rw [initSrvs] at h
    rcases hs : initSrv inetAddr addr with e | _ | srv
    · rw [hs] at h
      cases h
    · rw [hs] at h
      cases h
    · rw [hs] at h
      rcases hg : initSrvs inetAddr group with e | _ | conns'
      · rw [hg] at h
        cases h
      · rw [hg] at h
        cases h
      · rw [hg] at h
        cases h
        rw [ih hg, initSrv_eq hs, List.map_cons]

/-- A new client has an entry for each address. -/
theorem mqInit_eq {inetAddr : List Char → Bool} {serverGroup : List String} {lookUp keepAlive : ℤ}
    {mq : MqObject} (h : mqInit inetAddr serverGroup lookUp keepAlive = .ok (some mq)) :
    mq = ⟨lookUp, keepAlive, serverGroup.map fun addr => ⟨addr, none, 0, 0⟩⟩ := by
  unfold mqInit at h
  rcases hs : initSrvs inetAddr serverGroup with e | _ | conns
  · rw [hs] at h
    cases h
  · rw [hs] at h
    cases h
  · rw [hs] at h
    cases h
    rw [initSrvs_eq hs]

/-- A new client caches no connection. -/
theorem cached_mqInit {inetAddr : List Char → Bool} {serverGroup : List String}
    {lookUp keepAlive : ℤ} {mq : MqObject}
    (h : mqInit inetAddr serverGroup lookUp keepAlive = .ok (some mq)) :
    mq.keepAlive = keepAlive ∧ cached mq.connList = [] := by
  rw [mqInit_eq h]
  exact ⟨rfl, List.filterMap_eq_nil_iff.mpr fun srv hsrv => by
    obtain ⟨addr, -, rfl⟩ := List.mem_map.mp hsrv
    rfl⟩

/-- In every run of calls of a new client, whatever the system answers, the sockets it
has open are those it caches and those it left behind, all different; it stops only
when the system gives a descriptor that is open, and its end closes all that it
caches. With keep-alive off it caches none. None is left behind while keep-alive is
off or on and no new socket is connected at once. -/
theorem sockets_accounted {inetAddr : List Char → Bool} {serverGroup : List String}
    {lookUp keepAlive : ℤ} {mq : MqObject} {tr : List (ClientEvent × CallResult)}
    (hinit : mqInit inetAddr serverGroup lookUp keepAlive = .ok (some mq))
    (h : Run clientCall (fun _ _ => True) ⟨mq, []⟩ tr c) :
    ∃ lost rest, c.opened.Perm (cached c.mq.connList ++ lost) ∧ c.opened.Nodup ∧
      (keepAlive ≠ 1 → cached c.mq.connList = []) ∧ mqFini c = .ok rest ∧ rest.Perm lost ∧
      ((∀ e ∈ tr, AllTidy keepAlive e.1.net) → lost = []) ∧
      ∀ ev stop, clientCall ev c = .error stop → stop = .taken := by
  obtain ⟨hka, hnone⟩ := cached_mqInit hinit
  have hzero : Owned [] [] ⟨mq, []⟩ := ⟨fun a => by simp [hnone], List.nodup_nil⟩
  obtain ⟨lost, howned, hk, hc, ht⟩ := h.invariant
    (I := fun tr c => Accounts (∀ e ∈ tr, AllTidy keepAlive e.1.net) [] ⟨mq, []⟩ c)
      (.refl _ hzero) (by
      rintro tr c ev r c' ⟨lost, howned, hk, hc, ht⟩ - hs
      obtain ⟨lost', howned', hk', hc', ht'⟩ := (clientCall_owned ev howned).of_ok hs
      rw [hk.keepAlive, hka] at hc' ht'
      refine ⟨lost', howned', hk.trans hk', fun hne => (hc' (by rwa [← hka])).trans (hc hne),
        fun hall => ?_⟩
      rw [ht' (hall (ev, r) (by simp)), ht fun e he => hall e (by simp [he])])
  have hledger : ∀ a, c.opened.count a = (cached c.mq.connList).count a+lost.count a := fun a => by
    rw [howned.ledger a, List.count_nil, Nat.add_zero]
  obtain ⟨rest, hfini, hrest⟩ := inDelList_owned hledger
  refine ⟨lost, rest, List.perm_iff_count.mpr fun a => ?_, howned.nodup, fun hne => ?_, hfini,
    List.perm_iff_count.mpr hrest, ht,
    fun ev stop hstop => (clientCall_owned ev howned).of_error hstop⟩
  · rw [hledger a, List.count_append]
  · rw [hc (by rwa [hka]), hnone]

/-- A get on an empty queue over a new connection. -/
def emptyGet : ClientEvent :=
  ⟨.getMsg "q", none, fun _ => ⟨0, false, some 3, true, [.intr, .inProgress true true], true,
    [.bytes 'H' "TTP/1.1 404 Not Found\r\n\r\n".toList], 0⟩, fun _ => 0⟩

/-- Its connection stays open until the end of the client. -/
theorem sockets_accounted_one :
    ∃ mq r c, Run clientCall (fun _ _ => True) ⟨mq, []⟩ [(emptyGet, r)] c ∧ c.opened = [3] ∧
      mqFini c = .ok [] := by
  have hinit : mqInit (fun _ => true) ["127.0.0.1:1818"] 0 1 =
      .ok (some ⟨0, 1, [⟨"127.0.0.1:1818", none, 0, 0⟩]⟩) := rfl
  obtain ⟨r, c, hcall, hopened⟩ : ∃ r c, clientCall emptyGet
      ⟨⟨0, 1, [⟨"127.0.0.1:1818", none, 0, 0⟩]⟩, []⟩ = .ok (r, c) ∧ c.opened = [3] :=
    ⟨_, _, rfl, rfl⟩
  have hnil : Run clientCall (fun _ _ => True) ⟨⟨0, 1, [⟨"127.0.0.1:1818", none, 0, 0⟩]⟩, []⟩ []
      ⟨⟨0, 1, [⟨"127.0.0.1:1818", none, 0, 0⟩]⟩, []⟩ := .nil
  have hrun := hnil.snoc trivial hcall
  obtain ⟨lost, rest, -, -, -, hfini, hrest, htidy, -⟩ := sockets_accounted hinit hrun
  have hlost : lost = [] := htidy fun e he => by
    rw [List.mem_singleton.mp he]
    exact fun _ => ⟨.inr rfl, rfl⟩
  rw [hlost] at hrest
  rw [hrest.eq_nil] at hfini
  exact ⟨_, r, c, hrun, hopened, hfini⟩

end Ucmq.SocketRuns
