import Ucmq.RotationRuns

/-!
# Delivery order across clean restarts

The bodies returned under a name are a prefix of the bodies accepted under it,
in every run of puts, gets and clean restarts that keeps within three limits of
the code: bodies shorter than 2^32 bytes, whose length survives the narrowing
to an int, write file indices of at most twelve digits at a restart, whose
names order as their indices do, and storage for every new file that a put needs
while the reader is behind. The first two are asked of that name only.
-/

namespace Ucmq.DeliveryOrder

open LabelledRun DecimalText StoreConfig StoreMsg StoreState StoreManage QueueManage Evhttp
open QueueStep QueueSlots RequestEffect ServerRun CleanRestart FifoRefinement RotationRuns

/-- Bodies that reach the store under a name are shorter than 2^32 bytes, and its
queue can be reloaded at a restart. -/
def WithinLimits (conf : UcmqConf) : Event → String → Slot → Prop
  | .request sys req, n, slot => req.name = some n → ReachesStore conf sys req slot →
    (putBody req).length < 2^32
  | .restart _ _ _, _, slot => Reloadable slot

/-- Position logs are shorter than 2^31 characters at a restart. -/
def ShortLogs : Event → String → Slot → Prop
  | .restart _ _ _, _, .listed st =>
    ∀ t, st.dir.rtag st.q.curRdb.curIndex = some t → t.length < 2^31
  | _, _, _ => True

variable {conf : UcmqConf} {banner : String} {n : String} {ev : Event}
  {rs : List Reply} {slot : Slot}

/-- A body accepted within the limits is stored whole. -/
theorem length_acceptedIn {slot' : Slot} {opts : List String} (hg : WithinLimits conf ev n slot)
    (hs : SlotStep conf opts n ev rs slot slot') : ∀ b ∈ acceptedIn n (ev, rs),
    b.length < 2^32 := by
  intro b hb
  obtain ⟨sys, req, rfl, hn, hreach, rfl⟩ := reaches_of_accepted hs hb
  exact hg hn hreach

/-- Bodies accepted within the limits are stored as they are. -/
theorem storedBody_acceptedIn {slot' : Slot} {opts : List String} (hg : WithinLimits conf ev n slot)
    (hs : SlotStep conf opts n ev rs slot slot') :
    (acceptedIn n (ev, rs)).map storedBody = acceptedIn n (ev, rs) :=
  (List.map_congr_left fun b hb => storedBody_of_lt (length_acceptedIn hg hs b hb)).trans
    (List.map_id _)

/-- Accepted bodies that were not yet returned are pending. -/
def Delivering (conf : UcmqConf) (acc ret : List (List UInt8)) (slot : Slot) : Prop :=
  ∃ bodies, Tracked conf False bodies slot ∧ acc = ret ++ bodies

/-- Every event keeps the returned bodies in front of the pending ones. -/
theorem delivering_step {acc ret : List (List UInt8)} {slot' : Slot}
    (h : Delivering conf acc ret slot) (hg : WithinLimits conf ev n slot)
    (hstep : SlotStep conf ["put", "get"] n ev rs slot slot') :
    Delivering conf (acc ++ acceptedIn n (ev, rs)) (ret ++ returnedIn n (ev, rs)) slot' := by
  obtain ⟨bodies, ht, rfl⟩ := h
  have hkeep : ∀ o ∈ ["put", "get"], o ∉ deletingOpts := by decide
  obtain ⟨bodies', ht', hmoved⟩ := tracked_step ht hstep
    (fun hdel => hdel.elim fun o ho => absurd ho.2 (hkeep o ho.1)) (by
      rintro ⟨sys, names, listing, rfl⟩
      exact ⟨hg, by simp⟩)
  have hb := hmoved.kept (not_deletedIn hstep hkeep)
  rw [storedBody_acceptedIn hg hstep] at hb
  exact ⟨bodies', ht', by rw [List.append_assoc, hb, List.append_assoc]⟩

/-- Returned bodies are a prefix of accepted bodies in every run within the
limits. -/
theorem returned_prefix_accepted {tr : History} {s : Server}
    (h : Run (serve banner) (Guarded ["put", "get"] (ForName conf n (WithinLimits conf)))
      (Server.start conf) tr s) : returned n tr <+: accepted n tr := by
  obtain ⟨slot, -, bodies, -, heq⟩ := run_slot (J := Delivering conf) (by decide)
    ⟨[], .free, rfl⟩ (fun _ _ _ _ _ _ hd hg hs => delivering_step hd hg hs) h
  exact ⟨bodies, heq.symm⟩

/-- The runs that fill a file meet the limits. -/
theorem withinLimits_admits {big : List UInt8}
    (hbig : big.length+140 = maxDbFileSize conf) {sys : Sys} :
    AdmitsRestart conf sys big [1] (WithinLimits conf) := by
  have hmax := maxDbFileSize_le conf
  have hlt : big.length < 2^32 := by omega
  exact ⟨⟨fun _ _ _ => hlt, fun _ _ _ => by decide, fun _ _ _ _ _ => by decide,
    fun _ _ _ hreach => absurd hreach.opt (by simp [Request.of])⟩, fun _ _ _ => trivial,
      fun _ _ _ hre _ _ _ => hre⟩

/-- A run within the limits with a rotation, a get and a restart: the first of two
accepted bodies was returned. -/
theorem returned_prefix_accepted_restarted : ∃ big tr s,
    Run (serve "") (Guarded ["put", "get"] (ForName .least "q" (WithinLimits .least)))
        (Server.start .least) tr s ∧
      accepted "q" tr = [big, [1]] ∧ returned "q" tr = [big] ∧
      returned "q" tr <+: accepted "q" tr := by
  obtain ⟨big, hbig⟩ := exists_big
  obtain ⟨tr, s, st, hrun, -, hacc, hret⟩ := run_least hbig
    ((withinLimits_admits hbig).forName rfl "q")
  exact ⟨big, tr, s, hrun, hacc, hret, returned_prefix_accepted hrun⟩

/-- A first put under a name and a get of it, in a run. -/
theorem run_put_get {G : Event → String → Slot → Prop} {body : List UInt8} {size : ℤ}
    (hmsg : putMsg (Request.of "put" "q" body) = some (size, body))
    (hlen : putLenOk .least (toU32 size))
    (hput : ∀ sys n, G (.request sys (Request.of "put" "q" body)) n (.absent none))
    (hget : ∀ sys n slot, G (.request sys (Request.of "get" "q" [])) n slot) :
    ∃ tr s, Run (serve "") (Guarded ["put", "get"] G) (Server.start .least) tr s ∧
      accepted "q" tr = [body] ∧ returned "q" tr = [storedBody body] := by
  have hfree : ∀ t, storageLow .least (Sys.quiet t 0) = false := fun _ => rfl
  obtain ⟨rs, s₁, hres, hstored, hserves⟩ := @servesName_first "q" "" _
    (Request.of "put" "q" body) (Server.start .least) none _ _ ⟨rfl, rfl⟩
      (Sys.quiet_ok 0 0) (hfree 0)
    (by decide) rfl rfl rfl rfl (by decide) hmsg hlen
  have hreq : QueueRequest .least "q" (Sys.quiet 1 0, Request.of "get" "q" []) :=
    ⟨Sys.quiet_ok 1 0, hfree 1, rfl, rfl, Or.inl rfl⟩
  obtain ⟨rs', s₂, hres', hgot, -⟩ := @servesName_get _ _ _ _ _ "" (by decide) hserves hreq rfl
  have hnil :
      Run (serve "") (Guarded ["put", "get"] G) (Server.start .least) [] (Server.start .least) :=
    .nil
  have hrun₁ := run_request hnil (Sys.quiet_ok 0 0) ⟨"put", by decide, rfl⟩
    (fun n slot h => by rw [hasSlot_start h]; exact hput _ n) hres
  have hrun₂ := run_request hrun₁ (Sys.quiet_ok 1 0) ⟨"get", by decide, rfl⟩
    (fun n slot _ => hget _ n slot) hres'
  refine ⟨_, s₂, hrun₂, ?_, ?_⟩
  · simp only [accepted, List.nil_append, List.cons_append, List.flatMap_cons, List.flatMap_nil]
    rw [acceptedIn_of_stored rfl rfl hstored, acceptedIn_get rfl]
    rfl
  · simp only [returned, List.nil_append, List.cons_append, List.flatMap_cons, List.flatMap_nil]
    rw [returnedIn_put rfl, returnedIn_of_got rfl rfl hgot]
    rfl

/-- A body of 2^32+1 bytes is accepted, and its first byte is returned for it. -/
theorem returned_not_prefix :
    ∃ tr s, Run (serve "") (Guarded ["put", "get"] ShortLogs) (Server.start .least) tr s ∧
      ¬returned "q" tr <+: accepted "q" tr := by
  obtain ⟨body, hlength⟩ : ∃ body : List UInt8, body.length = 2^32+1 :=
    ⟨List.replicate (2^32+1) 0, List.length_replicate⟩
  have hi : toI32 (body.length : ℤ) = 1 := by
    rw [hlength]
    decide
  have hmsg : putMsg (Request.of "put" "q" body) = some (1, body) := by
    simp only [putMsg, Request.of, hi]
    rfl
  obtain ⟨tr, s, hrun, hacc, hret⟩ := run_put_get (G := ShortLogs) hmsg (by decide)
    (fun _ _ => trivial) (fun _ _ slot => by cases slot <;> trivial)
  refine ⟨tr, s, hrun, ?_⟩
  rw [hacc, hret]
  intro hpre
  have hle : storedBody body = body := by
    have := hpre.eq_of_length rfl
    exact List.head_eq_of_cons_eq this
  have hlen := congrArg List.length hle
  rw [storedBody, List.length_take, hlength] at hlen
  exact absurd hlen (by decide)

end Ucmq.DeliveryOrder
