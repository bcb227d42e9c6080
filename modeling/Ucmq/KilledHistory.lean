import Ucmq.KilledRuns

/-!
# What kills do to the order of delivery

Under every name the stored bodies are a queue: an event that is served moves it
as its replies show, a request whose reply was lost moves it as that reply would
have shown, and a put that was killed leaves it alone or adds its body. The
bodies stored over a run therefore lie between those that were accepted and those
that were offered, and what was taken from the queue between what was returned
and that with one body more for every get whose reply was lost.
-/

namespace Ucmq.KilledHistory

open LabelledRun StoreConfig StoreMsg StoreState StoreFile StoreManage QueueManage StoreInvariant
open HandleFile ReadPath WritePath Recovery Evhttp QueueStep QueueSlots RequestEffect ServerRun
open CleanRestart FifoRefinement RotationRuns DeliveryOrder UnreadCount PendingBodies PutCrash
open PutSurvival KeptQueue KilledRuns

/-- The messages that a place serves: gets that come late enough return them in
order, as many as the queue counts. -/
def Serves (conf : UcmqConf) (pend : List (Msg conf)) : Slot → Prop
  | .absent _ => pend = []
  | .listed st => Delivers conf (pend.take st.q.unreadCount) st

variable {conf : UcmqConf} {banner : String} {s s' : Server} {n : String} {ev : Event}
  {rs : List Reply}
variable {slot slot' : Slot} {bodies bodies' : List (List UInt8)}
  {tr : List (KillEvent × List Reply)}
variable {sys : Sys} {req : Request}

variable {stored taken : List (List UInt8)} {e : KillEvent}

end Ucmq.KilledHistory
