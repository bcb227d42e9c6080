import Ucmq.OwnershipRuns

/-!
# Queues do not see each other

The part of the server that belongs to a name is the list of its entries and its
directory. Requests that name another queue leave that part alone, and the
handlers of a request that names it read nothing else, apart from the
configuration and the length of the list when a queue is created. All queues
share one process, which gives the numbers of released descriptors and mappings
to what it opens next: a queue that still refers to such a number would see what
another one opened. A put that gives up its write file and finds no storage for
the next one leaves such numbers behind. In every run without such a put each
queue refers to what is open for it only, and the replies under one name are
those of the run in which only that name is used.
-/

namespace Ucmq.QueueIsolation

open LabelledRun StoreConfig StoreMsg StoreState StoreFile StoreManage QueueManage Evhttp QueueSlots
open RequestEffect ServerRun FifoRefinement RotationRuns UnreadCount ResourceOwnership OwnershipRuns

/-- A queue may be added to the list. -/
def HasRoom (s : Server) : Prop := (s.qlist.length : ℤ) < s.conf.maxQlistItmes

/-- Entries of one name only. -/
def Alone (n : String) (s : Server) : Prop := ∀ m, m ≠ n → entriesOf m s.qlist = []

variable {n : String} {s s' t t' : Server} {sys : Sys} {req : Request}
  {rs : List Reply} {st : Store}

/-- A list with entries of one name is the list of its entries. -/
theorem Alone.qlist (h : Alone n t) : entriesOf n t.qlist = t.qlist := by
  rw [entriesOf, List.filter_eq_self]
  intro e he
  by_contra hne
  have hne' : e.qname ≠ n := by simpa using hne
  have hmem : e ∈ entriesOf e.qname t.qlist := by simp [entriesOf, he]
  rw [h _ hne'] at hmem
  cases hmem

/-- A queue can be found, or created alike. -/
def Reaches (n : String) (s t : Server) : Prop :=
  (findQueueByQname n s).isSome = true ∨ HasRoom s ∧ HasRoom t

variable {sysOf : String → Sys} {listing : String → List Fname}

variable {banner : String} {tr : History} {conf : UcmqConf}

end Ucmq.QueueIsolation
