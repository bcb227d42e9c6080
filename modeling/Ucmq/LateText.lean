import Ucmq.PlainWire

/-!
# Text that arrives late

The client stops reading at the status that ends a queue, and keeps the
connection. When the rest of that reply arrives after the connection was taken up
again, it is read before the next reply: the status of the next reply is then not
read, however the text is split. The exchange ends with the status that was there
before; if that was the end of a queue, what did not come with the header block of
the content of the reply is not taken.
-/

namespace Ucmq.LateText

open TextSearch QueueManage Evhttp MqClient ClientOperation ClientMessage HeaderFields WireReply
open RequestEffect FifoRefinement ClientServer PlainWire

/-- Content of the reply at the end of a queue. -/
def endText : List Char := "HTTPSQS_GET_END\r\n".toList

/-- A last part of that content. -/
def Late (left : List Char) : Prop := left ≠ [] ∧ left <:+ endText

variable {lib : WireLibrary} {r : Reply} {left : List Char} {arrivals : List Arrival}

/-- What the reply at the end of a queue leaves unread is late text. -/
theorem late_of_ended (h : Readable lib (endReply none)) (hcalm : Calm arrivals)
    (harr : arrived arrivals = wireText lib (endReply none)) (errno : ℤ) (ret : MqReturn) :
    arrived (restAfter arrivals ret) = [] ∨ Late (arrived (restAfter arrivals ret)) := by
  have hcontent : (contentOf (endReply none)).map byteChar = endText := by decide
  obtain ⟨-, -, hleft⟩ := reply_ended h rfl hcalm harr errno ret
  rw [hcontent] at hleft
  by_cases hnil : arrived (restAfter arrivals ret) = []
  · exact .inl hnil
  · exact .inr ⟨hnil, hleft⟩

/-- No part of late text begins with the first letter of the name of a header. -/
theorem not_stands_length (h : Late left) {m : ℕ} (hm : m < left.length) (v : List Char) :
    ¬Stands Char.toLower "Content-Length".toList ((left ++ v).drop m) := by
  have hletters : endText.all (fun c => c.toLower != 'c') = true := by decide
  have hmem : left[m] ∈ endText := h.2.subset (List.getElem_mem hm)
  intro hst
  rw [List.drop_append_of_le_length hm.le, List.drop_eq_getElem_cons hm, List.cons_append] at hst
  have hletter := bne_iff_ne.mp (List.all_eq_true.mp hletters _ hmem)
  exact hletter (List.cons_prefix_cons.mp hst).1.symm

/-- No header block ends in late text before a block. -/
theorem not_stands_end (h : Late left) {m : ℕ} (hm : m < left.length) {c : Char} (hc : c ≠ '\r')
    (v : List Char) :
    ¬Stands id headerEnd ((left ++ c :: v).drop m) := by
  have htails : ∀ t ∈ endText.tails, t.head? = some '\r' → t = ['\r', '\n'] := by decide
  have hmem : left.drop m ∈ endText.tails :=
    (List.mem_tails _ _).mpr ((List.drop_suffix m left).trans h.2)
  rw [List.drop_append_of_le_length hm.le]
  by_cases hhead : (left.drop m).head? = some '\r'
  · rw [htails _ hmem hhead]
    simp [Stands, List.cons_prefix_cons, Ne.symm hc]
  · rw [List.drop_eq_getElem_cons hm] at hhead ⊢
    exact not_stands_of_ne (fun he => hhead (by rw [he]; rfl)) _

/-- Late text is no status line. -/
theorem scanStatus_late (h : Late left) (v : List Char) : scanStatus (left ++ v) = none := by
  have htails : ∀ t ∈ endText.tails, t ≠ [] → t.take 5 = "HTTPS".toList ∨ t.head? ≠ some 'H' := by
    decide
  have hnot : ¬"HTTP/1.1".toList <+: left ++ v := by
    intro hpre
    rcases htails left ((List.mem_tails _ _).mpr h.2) h.1 with hfive | hhead
    · have htake : (left ++ v).take 5 = "HTTPS".toList := by
        have hlen := congrArg List.length hfive
        have hfive' : "HTTPS".toList.length = 5 := rfl
        rw [List.length_take, hfive'] at hlen
        rw [List.take_append_of_le_length (by omega), hfive]
      have hcut := List.IsPrefix.take hpre 5
      rw [htake] at hcut
      exact absurd hcut (by decide)
    · obtain ⟨c, left', rfl⟩ := List.exists_cons_of_ne_nil h.1
      have hfirst := (List.cons_prefix_cons.mp hpre).1
      exact hhead (by rw [← hfirst]; rfl)
  rw [scanStatus, if_neg hnot]

/-- The header block starts with a character that ends no line. -/
theorem headerText_cons (lib : WireLibrary) (r : Reply) : ∃ c v, c ≠ '\r' ∧
    headerText lib r = c :: v :=
  ⟨'H', _, by decide, rfl⟩

/-- Late text and a block are read as one block. -/
theorem inGetData_late (h : Readable lib r) (hleft : Late left) :
    inGetData (left ++ headerText lib r) = some (left ++ headerText lib r).length := by
  obtain ⟨c, v, hc, htext⟩ := headerText_cons lib r
  have hends := h.block.replyBlock.ends
  have hskip := @find_skip _ _ _ id headerEnd left (headerText lib r) fun m hm => by
    rw [htext]
    exact not_stands_end hleft hm hc v
  unfold inGetData strstr at hends ⊢
  obtain ⟨k, hk, hk4⟩ := Option.map_eq_some_iff.mp hends
  rw [hskip, hk, Option.map_some, Option.map_some, List.length_append]
  congr 1
  omega

/-- The length is read after the late text. -/
theorem length_late (h : Readable lib r) (hleft : Late left) (t : List Char) :
    inGetHeaderInfoInt (left ++ (headerText lib r ++ t)) "Content-Length".toList =
      (contentOf r).length := by
  have hread := lengthRead_append h.block t
  rw [h.length] at hread
  have hskip :=
    @find_skip _ _ _ Char.toLower "Content-Length".toList left (headerText lib r ++ t) fun m hm =>
    not_stands_length hleft hm _
  have hsome : strcasestr (headerText lib r ++ t) "Content-Length".toList ≠ none := by
    intro hnone
    rw [inGetHeaderInfoInt_none hnone] at hread
    omega
  obtain ⟨p, hp⟩ := Option.ne_none_iff_exists'.mp hsome
  have hp' : strcasestr (left ++ (headerText lib r ++ t)) "Content-Length".toList =
      some (p+left.length) := by
    rw [strcasestr] at hp ⊢
    rw [hskip, hp]
    rfl
  rw [inGetHeaderInfoInt_eq hp] at hread
  have hplace : p+left.length+("Content-Length".toList.length+1) =
      left.length+(p+("Content-Length".toList.length+1)) := by omega
  rw [inGetHeaderInfoInt_eq hp', hplace, List.drop_length_add_append]
  exact hread

/-- What is received of late text and a reply. -/
theorem received_late (h : Readable lib r) (hleft : Late left)
    (hshort : left.length+(headerText lib r).length < 1024) (hcalm : Calm arrivals)
    (harr : arrived arrivals = left ++ wireText lib r) :
    ∃ part es, commRecvN 1023 inCheckHeaderFinish [] arrivals =
      (some (left ++ headerText lib r ++ part), es) ∧
      Calm es ∧ part ++ arrived es = (contentOf r).map byteChar ∧
      cStr (left ++ headerText lib r ++ part) = left ++ (headerText lib r ++ cStr part) ∧
      inGetData (cStr (left ++ headerText lib r ++ part)) =
        some (left ++ headerText lib r).length := by
  have hfin : inCheckHeaderFinish [] = false := by decide
  have hpos : ([] : List Char).length < 1023 := by decide
  have hlate : '\x00' ∉ endText := by decide
  have hzero : '\x00' ∉ left ++ headerText lib r := by
    rw [List.mem_append, not_or]
    exact ⟨fun hm => hlate (hleft.2.subset hm), h.block.noZero⟩
  have hends := inGetData_late h hleft
  have hlen : (left ++ headerText lib r).length < 1024 := by
    rw [List.length_append]
    exact hshort
  obtain ⟨got, es, he, hr⟩ := commRecvN_calm hcalm hpos hfin
  rw [List.nil_append, harr, wireText, ← List.append_assoc] at hr
  obtain ⟨part, rfl, hpart⟩ := header_of_received hends hzero hlen hr
  have hbuf : cStr (left ++ headerText lib r ++ part) = left ++ headerText lib r ++ cStr part :=
    cStr_append hzero part
  refine ⟨part, es, he, hr.calm, hpart, ?_, ?_⟩
  · rw [hbuf, List.append_assoc]
  · rw [hbuf]
    exact inGetData_append hends (cStr part)

/-- The array for the content of a reply that comes after late text. -/
theorem arrayLength_late (h : Readable lib r) (hleft : Late left)
    (hshort : left.length+(headerText lib r).length < 1024) (hcalm : Calm arrivals)
    (harr : arrived arrivals = left ++ wireText lib r) (errno : ℤ) (ret : MqReturn) :
    arrayLength ⟨true, true, arrivals, errno⟩ ret =
      if ret.result = mqGetMsgEnd then none else some ((contentOf r).length+1) := by
  obtain ⟨part, es, he, -, -, hbuf, hdata⟩ := received_late h hleft hshort hcalm harr
  have hneg : ¬((contentOf r).length : ℤ) < 0 := by omega
  rw [hbuf] at hdata
  unfold arrayLength
  simp only [he, Option.getD_some, hbuf, hdata, scanStatus_late hleft, Option.getD_none,
    length_late h hleft, if_neg hneg, Int.toNat_natCast]

/-- An exchange that reads late text first does not read its own status, for every reply
whose content the stack holds and every split. With the status of an empty queue before
it, it ends there and leaves what did not come with the block; with any other it is
completed with that status and the content. -/
theorem late_text_hides_status {lib : WireLibrary} {r : Reply} (h : Readable lib r)
    {left : List Char} (hleft : Late left) (hshort : left.length+(headerText lib r).length < 1024)
    {stack : ℕ} (hsmall : (contentOf r).length+1 < 2^31) (hstack : (contentOf r).length+1 ≤ stack)
    {arrivals : List Arrival} (hcalm : Calm arrivals)
    (harr : arrived arrivals = left ++ wireText lib r) (errno : ℤ) (ret : MqReturn) :
    ∃ read, recvReplyFieldsOn stack ⟨true, true, arrivals, errno⟩ ret = some read ∧
      read.ret.result = ret.result ∧
      (ret.result = mqGetMsgEnd → read.ok = false ∧ read.ret = ret ∧
        arrived (restAfter arrivals ret) <:+ (contentOf r).map byteChar) ∧
      (ret.result ≠ mqGetMsgEnd → read.ok = true ∧
        read.ret.data = some ((cStr ((contentOf r).map byteChar)).map charByte) ∧
        arrived (restAfter arrivals ret) = []) := by
  have hholds : stackHolds stack ⟨true, true, arrivals, errno⟩ ret = true := by
    rw [stackHolds, arrayLength_late h hleft hshort hcalm harr]
    split
    · rfl
    · rw [Option.all_some, decide_eq_true_iff]
      exact ⟨hsmall, hstack⟩
  refine ⟨recvReplyFields ⟨true, true, arrivals, errno⟩ ret, if_pos hholds, ?_⟩
  obtain ⟨part, es, he, hes, hpart, hbuf, hdata⟩ := received_late h hleft hshort hcalm harr
  have hstatus : (scanStatus (cStr (left ++ headerText lib r ++ part))).getD ret.result =
      ret.result := by
    rw [hbuf, scanStatus_late hleft]
    rfl
  have hlength :
    inGetHeaderInfoInt (cStr (left ++ headerText lib r ++ part)) "Content-Length".toList =
      (contentOf r).length := by
    rw [hbuf]
    exact length_late h hleft _
  have hpl := congrArg List.length hpart
  rw [List.length_append, List.length_map] at hpl
  by_cases hend : ret.result = mqGetMsgEnd
  · have hstop : recvReplyFields ⟨true, true, arrivals, errno⟩ ret = ⟨false, ret, none, none⟩ := by
      unfold recvReplyFields
      simp only [he, Option.getD_some, hdata, hstatus, if_pos hend]
    rw [hstop]
    refine ⟨rfl, fun _ => ⟨rfl, rfl, ?_⟩, fun hne => absurd hend hne⟩
    unfold restAfter
    simp only [he, Option.getD_some, hdata, hstatus, if_pos hend]
    exact ⟨part, hpart⟩
  · have hneg : ¬((contentOf r).length : ℤ) < 0 := by omega
    have hall : (part ++ arrived es).take (contentOf r).length = (contentOf r).map byteChar := by
      rw [hpart]
      exact List.take_of_length_le (by rw [List.length_map])
    have hfit : part.length ≤ (contentOf r).length ∧
        (contentOf r).length ≤ (part ++ arrived es).length := by
      rw [List.length_append]
      omega
    have hbody := recvBody_calm hes (contentOf r).length part
    rw [if_pos hfit, hall] at hbody
    have hdone : ∃ ret' reason timeout, recvReplyFields ⟨true, true, arrivals, errno⟩ ret =
        ⟨true, ret', reason, timeout⟩ ∧ ret'.result = ret.result ∧
          ret'.data = some ((cStr ((contentOf r).map byteChar)).map charByte) := by
      have hgot : (left ++ headerText lib r ++ part).length-(left ++ headerText lib r).length =
          part.length := by
        rw [List.length_append]
        omega
      have hrest :
          (left ++ headerText lib r ++ part).drop (left ++ headerText lib r).length = part :=
        List.drop_left
      unfold recvReplyFields
      simp only [he, Option.getD_some, hdata, hstatus, if_neg hend, hlength, if_neg hneg,
        Int.toNat_natCast, hgot, hrest, hbody]
      exact ⟨_, _, _, rfl, rfl, rfl⟩
    obtain ⟨ret', reason, timeout, hdone, hresult, hcontent⟩ := hdone
    rw [hdone]
    refine ⟨hresult, fun he => absurd he hend, fun _ => ⟨rfl, hcontent, ?_⟩⟩
    refine restAfter_done he hes hdata (by rw [hstatus]; exact hend) hlength ?_
    rw [List.length_append]
    omega

/-- A put that was stored, after the late content of an empty queue, returns no status. -/
theorem late_text_hides_status_stored :
    let stored : Reply := ⟨200, "OK", "HTTPSQS_PUT_OK\r\n", [], some 1⟩
    ∃ read, recvReplyFieldsOn (2^23)
        ⟨true, true, unread (endText ++ wireText plainWire stored) [], 0⟩ inInitReturn = some read ∧
      read.ok = true ∧ read.ret.result = -1 := by
  intro stored
  have hread : Readable plainWire stored :=
    plainWire_lawful.readable .stored stored (.stored 1 (by decide)) (by decide)
  have hcalm : Calm (unread (endText ++ wireText plainWire stored) []) :=
    calm_unread _ ⟨by simp, by simp⟩
  have harr : arrived (unread (endText ++ wireText plainWire stored) []) =
      endText ++ wireText plainWire stored := by
    rw [arrived_unread, arrived, List.append_nil]
  obtain ⟨read, heq, hresult, -, hdone⟩ := @late_text_hides_status _ _ hread endText
    ⟨by decide, List.suffix_refl _⟩ (by decide +kernel) (2^23) (by decide)
      (by decide) _ hcalm harr 0 inInitReturn
  exact ⟨read, heq, (hdone (by decide)).1, hresult⟩

end Ucmq.LateText
