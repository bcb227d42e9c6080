import Ucmq.QueueSlots

/-!
# Numeric arguments of the settings

The capacity, the delay and the write lock of a queue are set to the number
that atoi reads from an argument. Text after the digits is ignored, a text
without digits is zero, and a value beyond 32 bits is reduced to them, where
the configuration file accepts digits only. An invalid capacity ends the
request; an invalid delay or lock is answered and set all the same.
-/

namespace Ucmq.NumberArgument

open DecimalText StoreConfig StoreState StoreRtag QueueManage Evhttp QueueSlots

/-- Decimal notation of an integer: its digits, leading zeros allowed, after a
minus sign if it is negative. -/
def IsDecimal (s : List Char) (v : ℤ) : Prop :=
  ∃ ds, ds ≠ [] ∧ (∀ c ∈ ds, c.isDigit) ∧
    (s = ds ∧ v = decValue ds ∨ s = '-' :: ds ∧ v < 0 ∧ v = -(decValue ds))

/-- A setting of a queue with a numeric argument. -/
inductive NumOpt where
  | maxqueue
  | delay
  | wlock
  deriving DecidableEq

/-- Handler of the setting. -/
def NumOpt.handler : NumOpt → Sys → Request → Server → List Reply × Server
  | .maxqueue => httpOptMaxqueue
  | .delay => httpOptDelay
  | .wlock => httpOptWlock

/-- Reply that the setting was made. -/
def NumOpt.okReply : NumOpt → Option String → Reply
  | .maxqueue => doReply none 200 "OK" "HTTPSQS_MAXQUEUE_OK" "UCMQ_HTTP_OK"
  | .delay => doReply none 200 "OK" "HTTPSQS_DELAY_OK" "UCMQ_HTTP_OK"
  | .wlock => doReply none 200 "OK" "HTTPSQS_READONLY_OK" "UCMQ_HTTP_OK"

/-- First version text of a refused setting. -/
def NumOpt.cancelText : NumOpt → String
  | .maxqueue => "HTTPSQS_MAXQUEUE_CANCEL"
  | .delay => "HTTPSQS_DELAY_CANCEL"
  | .wlock => "HTTPSQS_READONLY_CANCEL"

/-- Reply to an invalid number. -/
def NumOpt.invalidReply (o : NumOpt) (ver : Option String) : Reply :=
  doReply none 400 "Invalid requst, Invalid dest number" o.cancelText "UCMQ_HTTP_ERR_INV_NUM" ver

/-- Numbers the setting admits. -/
def NumOpt.Admits : NumOpt → ℤ → Prop
  | .maxqueue, v => 0 ≤ v ∧ v ≤ 1000000000
  | .delay, v => 0 ≤ v ∧ v < 2^31
  | .wlock, v => -1 ≤ v ∧ v < 2^31

/-- Number written in an argument. A lock without an argument is the lock -1. -/
def NumOpt.Writes (o : NumOpt) (num : Option String) (v : ℤ) : Prop :=
  match num with
  | some text => IsDecimal text.toList v
  | none => o = .wlock ∧ v = -1

/-- Record of a queue after the setting. A positive lock ends that many seconds
from now. -/
def NumOpt.apply (sys : Sys) : NumOpt → ℤ → MqQueue → MqQueue
  | .maxqueue, v, q => { q with maxque := v.toNat }
  | .delay, v, q => { q with delay := v.toNat }
  | .wlock, v, q => { q with wlock := if v ≤ 0 then v else toI32 (sys.now+v) }

/-- An argument is taken as it is written: an admitted number is set and
answered once, everything else is answered as an invalid number and changes
nothing. -/
def TakenAsWritten (o : NumOpt) (sys : Sys) (req : Request) (s : Server) (e : QueueEntry) : Prop :=
  (∀ v, o.Writes req.num v → o.Admits v →
      (o.handler sys req s).1 = [o.okReply req.ver] ∧
        ∃ e', findQueueByQname (req.name.getD "") (o.handler sys req s).2 = some e' ∧
          e'.q = o.apply sys v e.q) ∧
    ((∀ v, o.Writes req.num v → ¬o.Admits v) →
      o.handler sys req s = ([o.invalidReply req.ver], s))

/-- The argument is the notation of an admitted number. A capacity is also
handled well when atoi reads a number outside its range from any other text. -/
def PlainArgument (o : NumOpt) (num : Option String) : Prop :=
  (∃ v, o.Writes num v ∧ o.Admits v) ∨ (o = .maxqueue ∧ ¬o.Admits (destNum num))

variable {o : NumOpt} {sys : Sys} {req : Request} {s : Server} {e : QueueEntry} {v : ℤ}

/-- A minus sign and digits are read to the end. -/
theorem strtoll_neg_digits {ds : List Char} (hd : ∀ c ∈ ds, c.isDigit) (hv : decValue ds ≤ 2^63) :
    strtoll ('-' :: ds) = -(decValue ds) := by
  have hspace : isSpace '-' = false := by decide
  have htake : ds.takeWhile Char.isDigit = ds := List.takeWhile_eq_self_iff.mpr hd
  have hmax : max (-(decValue ds : ℤ)) (-2^63) = -(decValue ds) := by
    rw [max_eq_left]
    omega
  rw [strtoll, List.dropWhile_cons_of_neg (by simp [hspace])]
  simp only [htake, hmax]

/-- A number is read from its notation. -/
theorem strtoll_of_isDecimal {t : List Char} (h : IsDecimal t v) (hl : -2^63 ≤ v) (hu : v < 2^63) :
    strtoll t = v := by
  obtain ⟨ds, -, hd, ⟨rfl, hv⟩ | ⟨rfl, hneg, hv⟩⟩ := h
  · rw [strtoll_digits hd (by omega), ← hv]
  · rw [strtoll_neg_digits hd (by omega), ← hv]

/-- Numbers admitted are ints. -/
theorem admits_bounds (h : o.Admits v) : -1 ≤ v ∧ v < 2^31 := by
  cases o with
  | maxqueue => exact ⟨by have := h.1; omega, by have := h.2; omega⟩
  | delay => exact ⟨by have := h.1; omega, h.2⟩
  | wlock => exact h

/-- An admitted number is the one the handlers work with. -/
theorem destNum_of_writes {num : Option String} (h : o.Writes num v) (ha : o.Admits v) :
    destNum num = v := by
  have hb := admits_bounds ha
  cases num with
  | none => exact h.2.symm
  | some text =>
    rw [destNum, atoi, strtoll_of_isDecimal h (by omega) (by omega),
      toI32_of_bounds (by omega) hb.2]

/-- A number in range is passed on as it is. -/
theorem toU32_of_nonneg (h₀ : 0 ≤ v) (hv : v < 2^32) : toU32 v = v.toNat := by
  rw [toU32, Int.emod_eq_of_lt h₀ hv]

/-- The lock stored for an admitted number. -/
theorem wlockValue_of_admitted (h₁ : -1 ≤ v) (hv : v < 2^31) :
    wlockValue sys (toU32 v) = if v ≤ 0 then v else toI32 (sys.now+v) := by
  by_cases hneg : v = -1
  · subst hneg
    rfl
  have hnat : toU32 v = v.toNat := toU32_of_nonneg (by omega) (by omega)
  have hcast : ((v.toNat : ℕ) : ℤ) = v := Int.toNat_of_nonneg (by omega)
  rw [wlockValue, hnat, if_neg (by omega), hcast]
  by_cases hzero : v ≤ 0
  · rw [if_pos (by omega), if_pos hzero]
    omega
  · rw [if_neg (by omega), if_neg hzero]

/-- A queue that was found is found again after it was put back. -/
theorem find_setStore {qname : String} (hfind : findQueueByQname qname s = some e) (st : Store) :
    findQueueByQname qname (s.setStore qname st) = some ⟨qname, st.proc, st.q⟩ := by
  rw [findQueueByQname, findQueue_eq_head] at hfind ⊢
  rw [Server.setStore, entriesOf_setQueue_self ⟨qname, st.proc, st.q⟩ s.qlist]
  cases hent : entriesOf qname s.qlist with
  | nil => simp [hent] at hfind
  | cons e l => rfl

/-- A number argument is an int. -/
theorem destNum_lt (num : Option String) : destNum num < 2^31 := by
  cases num with
  | none => decide
  | some text =>
    simp only [destNum, atoi, toI32, Int.bmod_def]
    split <;> omega

/-- A number in range is set and answered once. -/
theorem handler_admitted (hname : reqQnameCheck req.name = true)
    (hfind : findQueueByQname (req.name.getD "") s = some e) (ha : o.Admits (destNum req.num)) :
    (o.handler sys req s).1 = [o.okReply req.ver] ∧
      ∃ e', findQueueByQname (req.name.getD "") (o.handler sys req s).2 = some e' ∧
        e'.q = o.apply sys (destNum req.num) e.q := by
  have hcheck : ¬reqQnameCheck req.name = false := by simp [hname]
  have htouch : touchQueueByQname sys (req.name.getD "") s = (some e, s) := by
    simp [touchQueueByQname, hfind]
  obtain ⟨hl, hu⟩ := admits_bounds ha
  cases o with
  | maxqueue =>
    have hrange : ¬(destNum req.num < 0 ∨ 1000000000 < destNum req.num) := by
      have := ha.1
      have := ha.2
      omega
    simp only [NumOpt.handler, httpOptMaxqueue, if_neg hcheck, if_neg hrange, htouch]
    refine ⟨rfl, _, find_setStore hfind _, ?_⟩
    simp [mqQmSetMaxqueue, NumOpt.apply, toU32_of_nonneg ha.1 (by omega), Server.store]
  | delay =>
    have hneg : ¬destNum req.num < 0 := not_lt.mpr ha.1
    simp only [NumOpt.handler, httpOptDelay, if_neg hcheck, if_neg hneg, htouch]
    refine ⟨rfl, _, find_setStore hfind _, ?_⟩
    simp [mqQmSetDelay, NumOpt.apply, toU32_of_nonneg ha.1 (by omega), Server.store]
  | wlock =>
    have hneg : ¬(destNum req.num < 0 ∧ destNum req.num ≠ -1) := by omega
    simp only [NumOpt.handler, httpOptWlock, if_neg hcheck, if_neg hneg, hfind]
    refine ⟨rfl, _, find_setStore hfind _, ?_⟩
    simp only [mqQmSetWlock, rtagWriteItem_q, NumOpt.apply,
      wlockValue_of_admitted hl hu, Server.store]

/-- A capacity out of range is refused. -/
theorem maxqueue_refused (hname : reqQnameCheck req.name = true)
    (ha : ¬NumOpt.maxqueue.Admits (destNum req.num)) :
    NumOpt.maxqueue.handler sys req s = ([NumOpt.maxqueue.invalidReply req.ver], s) := by
  have hcheck : ¬reqQnameCheck req.name = false := by simp [hname]
  have hrange : destNum req.num < 0 ∨ 1000000000 < destNum req.num := by
    unfold NumOpt.Admits at ha
    omega
  simp only [NumOpt.handler, httpOptMaxqueue, if_neg hcheck, if_pos hrange]
  rfl

/-- A delay or a lock out of range is answered twice. -/
theorem handler_answered_twice (hname : reqQnameCheck req.name = true)
    (hfind : findQueueByQname (req.name.getD "") s = some e) (hne : o ≠ .maxqueue)
    (ha : ¬o.Admits (destNum req.num)) :
    (o.handler sys req s).1 = [o.invalidReply req.ver, o.okReply req.ver] := by
  have hcheck : ¬reqQnameCheck req.name = false := by simp [hname]
  have htouch : touchQueueByQname sys (req.name.getD "") s = (some e, s) := by
    simp [touchQueueByQname, hfind]
  have hlt := destNum_lt req.num
  cases o with
  | maxqueue => exact absurd rfl hne
  | delay =>
    have hneg : destNum req.num < 0 := by
      unfold NumOpt.Admits at ha
      omega
    simp only [NumOpt.handler, httpOptDelay, if_neg hcheck, if_pos hneg, htouch]
    rfl
  | wlock =>
    have hneg : destNum req.num < 0 ∧ destNum req.num ≠ -1 := by
      unfold NumOpt.Admits at ha
      omega
    simp only [NumOpt.handler, httpOptWlock, if_neg hcheck, if_pos hneg, hfind]
    rfl

/-- Success and an invalid number are answered differently. -/
theorem okReply_ne_invalidReply (o : NumOpt) (ver : Option String) :
    o.okReply ver ≠ o.invalidReply ver := by
  intro h
  have htext := congrArg Reply.text h
  cases o <;> cases hver : isVerTwo ver <;>
    simp [NumOpt.okReply, NumOpt.invalidReply, NumOpt.cancelText, doReply, hver] at htext

/-- A number in plain decimal notation is taken as it is written. -/
theorem takenAsWritten_of_plain (hname : reqQnameCheck req.name = true)
    (hfind : findQueueByQname (req.name.getD "") s = some e) (h : PlainArgument o req.num) :
    TakenAsWritten o sys req s e := by
  refine ⟨fun v hw ha => ?_, fun hno => ?_⟩
  · have hv := destNum_of_writes hw ha
    rw [← hv] at ha ⊢
    exact handler_admitted hname hfind ha
  · rcases h with ⟨v, hw, ha⟩ | ⟨rfl, hout⟩
    · exact absurd ha (hno v hw)
    · exact maxqueue_refused hname hout

/-- An argument taken as written is a plain one. -/
theorem plain_of_takenAsWritten (hname : reqQnameCheck req.name = true)
    (hfind : findQueueByQname (req.name.getD "") s = some e) (h : TakenAsWritten o sys req s e) :
    PlainArgument o req.num := by
  by_contra hplain
  obtain ⟨hno, hin⟩ := not_or.mp hplain
  have hrefused := h.2 fun v hw ha => hno ⟨v, hw, ha⟩
  have hreplies := congrArg Prod.fst hrefused
  by_cases ha : o.Admits (destNum req.num)
  · rw [(handler_admitted hname hfind ha).1] at hreplies
    exact okReply_ne_invalidReply o req.ver (List.cons.inj hreplies).1
  · have hne : o ≠ .maxqueue := fun ho => hin ⟨ho, ha⟩
    rw [handler_answered_twice hname hfind hne ha] at hreplies
    simp at hreplies

/-- Arguments of the three settings are taken as written exactly when they are
the notation of an admitted number, or a capacity that atoi reads as a number
out of range. -/
theorem takenAsWritten_iff (hname : reqQnameCheck req.name = true)
    (hfind : findQueueByQname (req.name.getD "") s = some e) :
    TakenAsWritten o sys req s e ↔ PlainArgument o req.num :=
  ⟨plain_of_takenAsWritten hname hfind, takenAsWritten_of_plain hname hfind⟩

/-- A server with one queue, just created. -/
def createdServer : Server :=
  (mqQmAddQueue (Sys.quiet 0 100) "q" ⟨UcmqConf.least, fun _ => none, [], ⟨0, 0, 0, 0⟩, []⟩).2

/-- A request for that queue with a numeric argument. -/
def numRequest (num : String) : Request := ⟨true, none, some "q", some num, none, none, []⟩

/-- The handler finds the queue it created. -/
theorem find_createdServer (num : String) :
    ∃ e, findQueueByQname ((numRequest num).name.getD "") createdServer = some e := by
  rw [← Option.isSome_iff_exists]
  rfl

/-- The capacity 5 is taken as written. -/
theorem takenAsWritten_five : ∃ e, findQueueByQname "q" createdServer = some e ∧
    TakenAsWritten .maxqueue (Sys.quiet 0 100) (numRequest "5") createdServer e := by
  obtain ⟨e, he⟩ := find_createdServer "5"
  refine ⟨e, he,
    (takenAsWritten_iff (o := .maxqueue) (by decide) he).mpr (Or.inl ⟨5, ?_, by decide, by decide⟩)⟩
  exact ⟨['5'], by decide, by simp, Or.inl ⟨by decide, by decide⟩⟩

/-- An argument whose value is not admitted is not plain when atoi still reads
an admitted number. -/
theorem not_plain_of_value {text : String} (ha : o.Admits (destNum (some text)))
    (hout : ¬o.Admits (strtoll text.toList)) : ¬PlainArgument o (some text) := by
  rintro (⟨v, hw, hv⟩ | ⟨-, hno⟩)
  · have hb := admits_bounds hv
    rw [strtoll_of_isDecimal hw (by omega) (by omega)] at hout
    exact hout hv
  · exact hno ha

/-- The capacity 4294967296 removes the limit, the lock abc removes the lock,
and the delay -5 is answered twice. -/
theorem argument_not_as_written : ∃ e, findQueueByQname "q" createdServer = some e ∧
    ¬TakenAsWritten .maxqueue (Sys.quiet 0 100) (numRequest "4294967296") createdServer e ∧
    ¬TakenAsWritten .wlock (Sys.quiet 0 100) (numRequest "abc") createdServer e ∧
    ¬TakenAsWritten .delay (Sys.quiet 0 100) (numRequest "-5") createdServer e := by
  obtain ⟨e, he⟩ := find_createdServer ""
  have hname : reqQnameCheck (some "q") = true := by decide
  have hplain : ∀ o num, TakenAsWritten o (Sys.quiet 0 100) (numRequest num) createdServer e →
      PlainArgument o (some num) :=
    fun _ num h => @plain_of_takenAsWritten _ _ (numRequest num) _ _ hname he h
  refine ⟨e, he, fun h => ?_, fun h => ?_, fun h => ?_⟩
  · have hin : NumOpt.maxqueue.Admits (destNum (some "4294967296")) := by
      have hz : destNum (some "4294967296") = 0 := by decide
      rw [hz]
      exact ⟨by decide, by decide⟩
    have hout : ¬NumOpt.maxqueue.Admits (strtoll "4294967296".toList) := by
      have hz : strtoll "4294967296".toList = 4294967296 := by decide
      rw [hz]
      exact fun ha => absurd ha.2 (by decide)
    exact not_plain_of_value hin hout (hplain _ _ h)
  · obtain ⟨v, hw, -⟩ | ⟨ho, -⟩ := hplain _ _ h
    · obtain ⟨ds, -, hd, ⟨rfl, -⟩ | ⟨heq, -⟩⟩ := hw
      · exact absurd (hd 'a' (by decide)) (by decide)
      · exact absurd (List.cons.inj heq).1 (by decide)
    · cases ho
  · obtain ⟨v, hw, ha⟩ | ⟨ho, -⟩ := hplain _ _ h
    · have hv := destNum_of_writes hw ha
      have hz : destNum (some "-5") = -5 := by decide
      have hneg : v = -5 := hv.symm.trans hz
      exact absurd ha.1 (by omega)
    · cases ho

end Ucmq.NumberArgument
