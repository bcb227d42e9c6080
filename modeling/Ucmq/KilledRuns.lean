import Ucmq.KeptQueue

/-!
# Runs in which the process is killed

Beside the requests and restarts that are served, the process may be killed with
a reply on its way, after some of the effects of a put, or after some moves of the
read loop of a get, and started again on the directories it left. In every such
run that avoids the two moments at which a whole queue is lost, and whose
rotations find a clean write file, what a name holds is a queue of the bodies put
under it: none that was accepted is lost or moved, and none appears twice.
-/

namespace Ucmq.KilledRuns

open ByteRegion FramedLog LabelledRun DecimalText StoreConfig StoreMsg StoreState StoreRtag
open StoreFile StoreManage QueueManage StoreInvariant ReadPath WritePath HandleFile Recovery Evhttp
open QueueStep QueueSlots RequestEffect ServerRun CleanRestart DeliveryOrder UnreadCount
open PendingBodies ReadSwitchCrash PutCrash PutSurvival KeptQueue

/-- A start of the server, with the answers of its system calls and the listings
of the data path and of every queue directory. -/
structure Startup where
  sys : String → Sys
  names : List String
  listing : String → List Fname

/-- A started server. What the process held is gone. -/
def Startup.start (up : Startup) (s : Server) : Server := restartServer up.sys up.names up.listing s

/-- Bodies that reach the store are shorter than 2^32 bytes, rotations find a
clean write file and storage for the next one if the reader is behind, and queues
can be reloaded at a restart. -/
def Lasting (conf : UcmqConf) (ev : Event) (n : String) (slot : Slot) : Prop :=
  WithinLimits conf ev n slot ∧ TailsKept conf ev n slot ∧ StorageKept conf ev n slot

variable {conf : UcmqConf} {sys sys' : Sys} {clean : Prop} {st st' : Store}
  {finished pend : List (Msg conf)}
variable {m : Msg conf} {d : Region} {listing : List Fname} {k : ℕ}

variable {s s' : Server} {n : String} {slot : Slot} {bodies bodies' : List (List UInt8)}
  {banner : String}

end Ucmq.KilledRuns
