import Ucmq.PutSurvival

/-!
# Queues with bytes left over behind the write position

A put that is killed between the copy of its message and the record of its
position leaves bytes behind the recorded write position. The queue loaded
afterwards is sound but for these bytes. Messages that fit are written over
them, and the reader stops at the write position. Only a rotation needs the rest
of the write file to be quiet, since a full file is read to its end.
-/

namespace Ucmq.KeptQueue

open FramedLog DecimalText StoreConfig StoreMsg StoreState StoreRtag StoreFile StoreManage
open QueueManage StoreInvariant ReadPath WritePath HandleFile Recovery Evhttp QueueStep QueueSlots
open RequestEffect ServerRun CleanRestart PendingBodies

variable {conf : UcmqConf} {sys : Sys} {clean : Prop} {st st' : Store}
  {finished pend : List (Msg conf)}
variable {m : Msg conf}

/-- Behind the write position no byte of the write file looks like the start of a
message. -/
def TailClean (conf : UcmqConf) (st : Store) : Prop :=
  ∀ d, dbSeg conf st.dir.db st.q.curWdb.curIndex = some d →
    Quiet msgHeadOfFirstMagicNum d st.q.curWdb.pos (maxDbFileSize conf)

/-- A free name, or a sound and logged queue with a live writer and the given
bodies pending. -/
inductive Kept (conf : UcmqConf) : List (List UInt8) → Slot → Prop
  | free : Kept conf [] (.absent none)
  | held {st : Store} {finished pend : List (Msg conf)} (hs : Sound conf False st finished pend)
      (hl : Logged conf st finished) (hw : WriterLive st) :
      Kept conf (pend.map Msg.body) (.listed st)

variable {bodies : List (List UInt8)} {slot slot' : Slot} {n : String} {ev : Event}
  {rs : List Reply}
variable {req : Request}

/-- A put that rotates finds a clean write file, and a restart finds small
position logs and write files of at most twelve digits. -/
def TailsKept (conf : UcmqConf) : Event → String → Slot → Prop
  | .request _ req, n, .listed st => req.opt = some "put" → req.name = some n →
    needsRotation conf st.q (u32 (putBody req).length) → TailClean conf st
  | .request _ _, _, .absent _ => True
  | .restart _ _ _, _, slot => Reloadable slot

end Ucmq.KeptQueue
