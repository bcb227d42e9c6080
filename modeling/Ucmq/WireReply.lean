import Ucmq.HeaderFields
import Ucmq.RequestEffect

/-!
# Replies on the wire

The text of a reply is the block that the HTTP library writes and its content.
What an exchange leaves unread is nothing when it is completed, and a last part
of the content when the queue was at its end: the client stops reading then,
however much of the content has arrived with the block.
-/

namespace Ucmq.WireReply

open DecimalText TextSearch StoreState QueueManage Evhttp MqClient ClientOperation ClientMessage
open HeaderFields RequestEffect

/-- The HTTP library of the server, with the header lines that it writes. -/
structure WireLibrary extends HttpLibrary where
  /-- Header lines of a reply. -/
  lines : Reply → List HeaderLine

/-- Content of a reply. -/
def contentOf (r : Reply) : List UInt8 := r.text.toList.map charByte ++ r.data

/-- Block of a reply. -/
def headerText (lib : WireLibrary) (r : Reply) : List Char :=
  statusLine r ++ (lib.lines r).flatMap lineText ++ ['\r', '\n']

/-- Text of a reply. -/
def wireText (lib : WireLibrary) (r : Reply) : List Char :=
  headerText lib r ++ (contentOf r).map byteChar

/-- Arrivals that an exchange does not take. -/
def restAfter (arrivals : List Arrival) (ret : MqReturn) : List Arrival :=
  let (recv, es) := commRecvN 1023 inCheckHeaderFinish [] arrivals
  let buffer := cStr (recv.getD [])
  match inGetData buffer with
  | none => es
  | some data =>
    if (scanStatus buffer).getD ret.result = mqGetMsgEnd then es
    else
      let bodyLen := inGetHeaderInfoInt buffer "Content-Length".toList
      let hasRecv := (recv.getD []).length-data
      if bodyLen ≤ hasRecv then es
      else (commRecvN (bodyLen.toNat-hasRecv) (fun _ => false) [] es).2

/-- A reply that a client reads as it is: its block is short, and the first length
in it is that of the content. -/
structure Readable (lib : WireLibrary) (r : Reply) : Prop where
  block : HeaderBlock r (contentOf r).length (lib.lines r) (headerText lib r)
  short : (headerText lib r).length < 1024
  length : lengthRead (headerText lib r) = (contentOf r).length

variable {lib : WireLibrary} {r : Reply} {arrivals : List Arrival}

/-- What is read of a text that begins with a block. -/
theorem received_block (h : Readable lib r) (hcalm : Calm arrivals)
    (harr : arrived arrivals = wireText lib r) :
    ∃ part es, commRecvN 1023 inCheckHeaderFinish [] arrivals =
      (some (headerText lib r ++ part), es) ∧
      Calm es ∧ part ++ arrived es = (contentOf r).map byteChar ∧
      inGetData (cStr (headerText lib r ++ part)) = some (headerText lib r).length ∧
      scanStatus (cStr (headerText lib r ++ part)) = some (r.code : ℤ) ∧
      inGetHeaderInfoInt (cStr (headerText lib r ++ part)) "Content-Length".toList =
        (contentOf r).length := by
  have hfin : inCheckHeaderFinish [] = false := by decide
  have hpos : ([] : List Char).length < 1023 := by decide
  have hblock := h.block.replyBlock
  obtain ⟨got, es, he, hr⟩ := commRecvN_calm hcalm hpos hfin
  rw [List.nil_append, harr] at hr
  obtain ⟨part, rfl, hpart⟩ := header_of_received hblock.ends hblock.noZero h.short hr
  have hbuf : cStr (headerText lib r ++ part) = headerText lib r ++ cStr part :=
    cStr_append hblock.noZero part
  have hcode := h.block.code
  refine ⟨part, es, he, hr.calm, hpart, ?_, ?_, ?_⟩
  · rw [hbuf]
    exact inGetData_append hblock.ends (cStr part)
  · rw [hbuf]
    exact scanStatus_of_block hblock (by omega) (cStr part)
  · rw [hbuf, lengthRead_append h.block]
    exact h.length

/-- Nothing is left when the length that was read is that of what arrives after the block. -/
theorem restAfter_done {recv : List Char} {es : List Arrival} {d n : ℕ} {ret : MqReturn}
    (he : commRecvN 1023 inCheckHeaderFinish [] arrivals = (some recv, es)) (hes : Calm es)
    (hdata : inGetData (cStr recv) = some d)
    (hcode : (scanStatus (cStr recv)).getD ret.result ≠ mqGetMsgEnd)
    (hlength : inGetHeaderInfoInt (cStr recv) "Content-Length".toList = n)
    (hn : recv.length-d+(arrived es).length = n) : arrived (restAfter arrivals ret) = [] := by
  unfold restAfter
  simp only [he, Option.getD_some, hdata, hlength, if_neg hcode]
  by_cases hmore : (n : ℤ) ≤ (recv.length-d : ℕ)
  · rw [if_pos hmore]
    exact List.eq_nil_of_length_eq_zero (by omega)
  · rw [if_neg hmore]
    have hpos : ([] : List Char).length < n-(recv.length-d) := by
      rw [List.length_nil]
      omega
    obtain ⟨got, es', he', hr⟩ := @commRecvN_calm _ (fun _ => false) [] es hes hpos rfl
    have htext := congrArg List.length hr.text
    rw [List.nil_append, List.length_append] at htext
    rw [Int.toNat_natCast, he']
    show arrived es' = []
    rcases hr.ends with hfull | hfin | hnil
    · exact List.eq_nil_of_length_eq_zero (by omega)
    · exact absurd hfin (by decide)
    · exact hnil

/-- An exchange is completed with the content of the reply, and leaves nothing unread. -/
theorem reply_completed (h : Readable lib r) (hcode : r.code ≠ 404) (hcalm : Calm arrivals)
    (harr : arrived arrivals = wireText lib r) (errno : ℤ) (ret : MqReturn) :
    (recvReplyFields ⟨true, true, arrivals, errno⟩ ret).ok = true ∧
      (recvReplyFields ⟨true, true, arrivals, errno⟩ ret).ret.result = r.code ∧
      (recvReplyFields ⟨true, true, arrivals, errno⟩ ret).ret.data =
        some ((cStr ((contentOf r).map byteChar)).map charByte) ∧
      arrived (restAfter arrivals ret) = [] := by
  have hsplits : Splits ⟨true, true, arrivals, errno⟩ (headerText lib r) (contentOf r) :=
    ⟨hcalm, harr⟩
  obtain ⟨k, hk, hout⟩ := exists_outcome h.block h.short hsplits
  have hlen := h.length
  have hneg : ¬lengthRead (headerText lib r) < 0 := by omega
  have hfit : (k : ℤ) ≤ lengthRead (headerText lib r) ∧
      lengthRead (headerText lib r) ≤ (contentOf r).length := by omega
  have hall : ((contentOf r).map byteChar).take (lengthRead (headerText lib r)).toNat =
      (contentOf r).map byteChar :=
    List.take_of_length_le (by rw [List.length_map]; omega)
  rw [hout ret]
  unfold outcome
  rw [if_neg hcode, if_neg hneg, if_pos hfit, hall]
  refine ⟨rfl, rfl, rfl, ?_⟩
  obtain ⟨part, es, he, hes, hpart, hdata, hstatus, hlength⟩ := received_block h hcalm harr
  have hpl := congrArg List.length hpart
  rw [List.length_append, List.length_map] at hpl
  refine restAfter_done he hes hdata ?_ hlength ?_
  · rw [hstatus, Option.getD_some, mqGetMsgEnd]
    omega
  · rw [List.length_append]
    omega

/-- The status that ends a queue stops an exchange, and what it leaves unread is a
last part of the content. -/
theorem reply_ended (h : Readable lib r) (hcode : r.code = 404) (hcalm : Calm arrivals)
    (harr : arrived arrivals = wireText lib r) (errno : ℤ) (ret : MqReturn) :
    (recvReplyFields ⟨true, true, arrivals, errno⟩ ret).ok = false ∧
      (recvReplyFields ⟨true, true, arrivals, errno⟩ ret).ret = { ret with result := mqGetMsgEnd } ∧
      arrived (restAfter arrivals ret) <:+ (contentOf r).map byteChar := by
  have hsplits : Splits ⟨true, true, arrivals, errno⟩ (headerText lib r) (contentOf r) :=
    ⟨hcalm, harr⟩
  obtain ⟨k, -, hout⟩ := exists_outcome h.block h.short hsplits
  have hend : (r.code : ℤ) = mqGetMsgEnd := by
    rw [mqGetMsgEnd]
    omega
  rw [hout ret]
  unfold outcome
  rw [if_pos hcode, hend]
  refine ⟨rfl, rfl, ?_⟩
  obtain ⟨part, es, he, -, hpart, hdata, hstatus, -⟩ := received_block h hcalm harr
  unfold restAfter
  simp only [he, Option.getD_some, hdata, hstatus, if_pos hend]
  exact ⟨part, hpart⟩

end Ucmq.WireReply
