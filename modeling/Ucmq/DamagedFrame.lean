import Ucmq.FileWalk
import Ucmq.QueueStep

/-!
# Damage to one frame

The reader over files that hold frames, one of which has been overwritten.
Frames in other files and before the damaged one are delivered whatever it was
overwritten with. A frame that follows it in the same file is delivered exactly
when the walk over the damaged bytes comes to its start: no header on the way
announces an end beyond the file, and no message that checks out reaches past
that start.
-/

namespace Ucmq.DamagedFrame

open ByteRegion FramedLog OutputTrace PlacedLog StoreConfig StoreMsg StoreState StoreRtag StoreFile
open StoreManage StoreInvariant ReadPath WritePath QueueStep MapReads FileWalk

variable {conf : UcmqConf} {s : Store} {seg : ℕ → Option Region} {w wpos i k p q a e : ℕ}
variable {d d' : Region} {m : Msg conf} {l pre post : List ((ℕ × ℕ) × Msg conf)}

/-- A queue without delay whose files hold frames from the read cursor on. -/
structure HoldsFrames (conf : UcmqConf) (s : Store) (l : List ((ℕ × ℕ) × Msg conf)) : Prop where
  ready : Readable conf s
  live : WriterLive s
  delay : s.q.delay = 0
  wpos_le : s.q.curWdb.pos ≤ maxDbFileSize conf
  placed :
    Placed (msgFraming conf) (dbSeg conf s.dir.db) (maxDbFileSize conf) 128 s.q.curWdb.curIndex
    s.q.curWdb.pos s.q.curRdb.curIndex s.q.curRdb.pos l

/-- A loaded queue holds a frame for every unread message. -/
theorem holdsFrames_of_sound {clean : Prop} {finished pend : List (Msg conf)}
    (h : Sound conf clean s finished pend) (hl : WriterLive s) (hd : s.q.delay = 0) :
    ∃ l, HoldsFrames conf s l ∧ l.map Prod.snd = pend := by
  obtain ⟨l, hp, hm⟩ := exists_placed h.files.chain
  exact ⟨l, ⟨readable_of_sound h, hl, hd, h.files.wpos_le, hp⟩, hm⟩

/-- Frames with the items a get returns for them. -/
def placedItems (l : List ((ℕ × ℕ) × Msg conf)) : List ((ℕ × ℕ) × MsgItem) :=
  l.map fun x => (x.1, x.2.item)

/-- Repeated gets come to an end and return these frames in order, whatever else
they return. -/
def KeepsFrames (conf : UcmqConf) (s : Store) (l : List ((ℕ × ℕ) × Msg conf)) : Prop :=
  (∃ r, Drains conf s r) ∧ ∀ r, Drains conf s r → (placedItems l).Sublist r

/-- Walking from offset a, no header before offset q announces an end beyond the
file and no message found there reaches past q. -/
def Resyncs (conf : UcmqConf) (d : Region) (a q : ℕ) : Prop :=
  ∀ o p, Trace (fileStep conf d) a o p → p < q → mqSmDbParseMsg conf (some d) p ≠ .lenBey ∧
    ∀ item, mqSmDbParseMsg conf (some d) p = .ok item → p+(12+item.len) ≤ q

section walk

variable {T : ℕ × ℕ → Prop}

/-- The reader steps over quiet bytes. -/
theorem trace_quiet (hs : seg i = some d) (hp : p ≤ e) (hq : Quiet msgHeadOfFirstMagicNum d p e)
    (hfit : p < e → e+12 ≤ maxDbFileSize conf) (hw : p < e → i = w → e+12 ≤ wpos) :
    Trace (readerStep conf seg w wpos) (i, p) [] (i, e) := by
  induction hn : e-p generalizing p with
  | zero =>
    obtain rfl : p = e := by omega
    exact .nil _
  | succ n ih =>
    have hlt : p < e := by omega
    have hfit' := hfit hlt
    have hstep : readerStep conf seg w wpos (i, p) = some (none, (i, p+1)) := by
      rw [readerStep, if_neg (by rintro ⟨hi, hle⟩; have := hw hlt hi; simp only at hle; omega), hs,
        Option.bind_some, fileStep, parseMsg_of_ne (hq p le_rfl hlt) (by omega)]
    exact .silent hstep
      (ih (by omega) (hq.mono (by omega) le_rfl) (fun _ => hfit') (fun _ => hw hlt)
      (by omega))

/-- The reader leaves a file that is quiet up to its end. -/
theorem trace_leave (hi : i < w) (hs : seg i = some d) (hp : p ≤ maxDbFileSize conf)
    (hq : Quiet msgHeadOfFirstMagicNum d p (maxDbFileSize conf)) :
    Trace (readerStep conf seg w wpos) (i, p) [] (i+1, 128) := by
  have hmin := le_maxDbFileSize conf
  have hskip : Trace (readerStep conf seg w wpos) (i, p) [] (i, max p (maxDbFileSize conf-12)) :=
    trace_quiet hs (by omega) (hq.mono le_rfl (by omega)) (fun _ => by omega) (fun _ _ => by omega)
  have hend : fileStep conf d (max p (maxDbFileSize conf-12)) = none :=
    fileStep_eq_none.mpr (parseMsg_of_end (by omega) (by omega))
  refine hskip.trans (.silent ?_ (.nil _))
  rw [readerStep, if_neg (by rintro ⟨rfl, -⟩; exact lt_irrefl _ hi), hs, Option.bind_some, hend]
  exact if_pos hi

/-- The reader stops in a write file that is quiet up to the write cursor. -/
theorem trace_stop (hs : seg w = some d) (hw : wpos ≤ maxDbFileSize conf) (hp : p ≤ wpos)
    (hq : Quiet msgHeadOfFirstMagicNum d p wpos) :
    ∃ t, Trace (readerStep conf seg w wpos) (w, p) [] t ∧ readerStep conf seg w wpos t = none := by
  refine ⟨(w, max p (wpos-12)), ?_, ?_⟩
  · exact trace_quiet hs (by omega) (hq.mono le_rfl (by omega)) (fun _ => by omega)
      (fun _ _ => by omega)
  · rw [readerStep, if_pos ⟨rfl, by simp only; omega⟩]

/-- The reader delivers a frame. -/
theorem readerStep_frame (hs : seg i = some d) (hh : Holds d q (msgBytes m.item))
    (hfit : q+(12+m.body.length) ≤ maxDbFileSize conf) (hw : i = w → q+(12+m.body.length) ≤ wpos) :
    readerStep conf seg w wpos (i, q) = some (some m.item, (i, q+(12+m.body.length))) := by
  have hpos := m.body_pos
  rw [readerStep, if_neg (by rintro ⟨hi, hle⟩; have := hw hi; simp only at hle; omega), hs,
    Option.bind_some, fileStep, parseMsg_of_holds hh (by omega)]
  rfl

/-- The reader delivers the frames between two cursors, each from its place. -/
theorem trace_of_placed
    (h : Placed (msgFraming conf) seg (maxDbFileSize conf) 128 k e i p l) (hk : k ≤ w)
    (he : e ≤ maxDbFileSize conf) (hw : k = w → e ≤ wpos)
    (hbase : ∀ p d, seg k = some d → p ≤ e → Quiet msgHeadOfFirstMagicNum d p e →
      ∃ t, Trace (readerStep conf seg w wpos) (k, p) [] t ∧ T t) :
    ∃ t, Trace (readerStep conf seg w wpos) (i, p) (placedItems l) t ∧ T t := by
  induction h with
  | last hs hp hq => exact hbase _ _ hs hp hq
  | next hi hs hp hq _ ih =>
    obtain ⟨t, htr, ht⟩ := ih
    exact ⟨t, (trace_leave (by omega) hs hp hq).trans htr, ht⟩
  | @frame i p q d m l hs hp hq hh hnext ih =>
    obtain ⟨t, htr, ht⟩ := ih
    have hle := hnext.index_le
    have hend := hnext.pos_le
    rw [msgFraming_enc] at hh
    rw [msgFraming_enc, length_msgBytes] at hend htr
    have hpos := m.body_pos
    have hfit : q+(12+m.body.length) ≤ maxDbFileSize conf := by
      split at hend <;> omega
    have hlim : i = w → q+(12+m.body.length) ≤ wpos := by
      rintro rfl
      obtain rfl : i = k := by omega
      rw [if_pos rfl] at hend
      have := hw rfl
      omega
    have hskip : Trace (readerStep conf seg w wpos) (i, p) [] (i, q) :=
      trace_quiet hs hp hq (fun _ => by omega) fun _ hi => by have := hlim hi; omega
    exact ⟨t, hskip.trans (.emit (readerStep_frame hs hh hfit hlim) htr), ht⟩

end walk

/-- The reader over files one of which was overwritten. -/
theorem reading_withData (h : HoldsFrames conf s l)
    (hp : s.q.curRdb.pos ≤ maxDbFileSize conf) :
    Reading conf (dbSeg conf (withData conf s k d').dir.db) s.q.curWdb.curIndex s.q.curWdb.pos
      (s.q.curRdb.curIndex, s.q.curRdb.pos) (withData conf s k d') :=
  ⟨readable_withData h.ready, h.live, h.delay, rfl, rfl, hp, rfl, rfl, fun _ _ _ => rfl⟩

/-- A header that does not check out is not skipped past the start of a frame. -/
theorem skip_le (hlt : p < q) (hq : d q = msgHeadOfFirstMagicNum) (hfit : q+12 < maxDbFileSize conf)
    (h : mqSmDbParseMsg conf (some d) p ≠ .magNumErr) : p+2 ≤ q := by
  by_contra hge
  obtain rfl : q = p+1 := by omega
  have hsecond := (magic_of_parse (by omega) h).2
  rw [hq] at hsecond
  exact absurd hsecond (by decide)

/-- A walk that resynchronises comes to the start of the next frame. -/
theorem Resyncs.trace (h : Resyncs conf d a q) (ha : a ≤ q) (hq : d q = msgHeadOfFirstMagicNum)
    (hfit : q+12 < maxDbFileSize conf) : ∃ o, Trace (fileStep conf d) a o q := by
  have hgo : ∀ n o p, q-p = n → p ≤ q → Trace (fileStep conf d) a o p →
      ∃ o', Trace (fileStep conf d) p o' q := by
    intro n
    induction n using Nat.strongRecOn with
    | _ n ih =>
      intro o p hn hp htr
      rcases hp.lt_or_eq with hlt | rfl
      · obtain ⟨hne, hok⟩ := h o p htr hlt
        have hgoes : ∀ b t, fileStep conf d p = some (b, t) → t ≤ q →
            ∃ o', Trace (fileStep conf d) p o' q := by
          intro b t hstep ht
          have hpt := fileStep_lt hstep
          cases b with
          | none =>
            obtain ⟨o', ho'⟩ := ih (q-t) (by omega) _ t rfl ht (htr.trans (.silent hstep (.nil t)))
            exact ⟨o', .silent hstep ho'⟩
          | some item =>
            obtain ⟨o', ho'⟩ := ih (q-t) (by omega) _ t rfl ht (htr.trans (.emit hstep (.nil t)))
            exact ⟨_, .emit hstep ho'⟩
        cases hpar : mqSmDbParseMsg conf (some d) p with
        | ok item => exact hgoes _ _ (by rw [fileStep, hpar]) (hok item hpar)
        | magNumErr => exact hgoes _ _ (by rw [fileStep, hpar]) hlt
        | parseErr =>
          exact hgoes _ _ (by rw [fileStep, hpar]) (skip_le hlt hq hfit (by rw [hpar]; simp))
        | crcErr =>
          exact hgoes _ _ (by rw [fileStep, hpar]) (skip_le hlt hq hfit (by rw [hpar]; simp))
        | msgErr => exact absurd hpar parseMsg_ne_msgErr
        | lenBey => exact absurd hpar hne
      · exact ⟨[], .nil p⟩
  exact hgo _ [] a rfl ha (.nil a)

/-- Files whose frames before a place and behind the frame at that place are in
order, with any contents in between. -/
structure DamagedAt (conf : UcmqConf) (seg : ℕ → Option Region) (w wpos : ℕ)
    (c : ℕ × ℕ) (k a len : ℕ) (d : Region) (pre post : List ((ℕ × ℕ) × Msg conf)) : Prop where
  before : Trace (readerStep conf seg w wpos) c (placedItems pre) (k, a)
  content : seg k = some d
  after : Placed (msgFraming conf) seg (maxDbFileSize conf) 128 w wpos k (a+(12+len)) post
  wpos_le : wpos ≤ maxDbFileSize conf

/-- Overwriting one frame leaves the others where they are. -/
theorem damagedAt_withData (h : HoldsFrames conf s (pre ++ ((k, a), m) :: post))
    (hd : dbSeg conf s.dir.db k = some d)
    (hout : ∀ x, x < a ∨ a+(12+m.body.length) ≤ x → d x = d' x) :
    DamagedAt conf (dbSeg conf (withData conf s k d').dir.db) s.q.curWdb.curIndex s.q.curWdb.pos
      (s.q.curRdb.curIndex, s.q.curRdb.pos) k a m.body.length d' pre post := by
  obtain ⟨hpre, -, hpost⟩ := h.placed.cut
  have hkw := hpost.index_le
  have hend := hpost.pos_le
  have hw := h.wpos_le
  rw [msgFraming_enc, length_msgBytes] at hpost hend
  have hseg : ∀ j, dbSeg conf (withData conf s k d').dir.db j =
      if j = k then some d' else dbSeg conf s.dir.db j := dbSeg_withData k
  have hpre' :
    Placed (msgFraming conf) (dbSeg conf (withData conf s k d').dir.db) (maxDbFileSize conf) 128
      k a s.q.curRdb.curIndex s.q.curRdb.pos pre := by
    refine hpre.congr fun j e _ _ hj => ?_
    rw [hseg]
    split
    · rename_i heq
      rw [heq, hd] at hj
      cases hj
      exact ⟨d', rfl, fun x _ hx => hout x (Or.inl (hx heq))⟩
    · exact ⟨e, hj, fun _ _ _ => rfl⟩
  have hpost' :
    Placed (msgFraming conf) (dbSeg conf (withData conf s k d').dir.db) (maxDbFileSize conf) 128
      s.q.curWdb.curIndex s.q.curWdb.pos k (a+(12+m.body.length)) post := by
    refine hpost.congr fun j e _ _ hj => ?_
    rw [hseg]
    split
    · rename_i heq
      rw [heq, hd] at hj
      cases hj
      exact ⟨d', rfl, fun x hx _ => hout x (Or.inr (hx heq))⟩
    · exact ⟨e, hj, fun _ _ _ => rfl⟩
  have hk : dbSeg conf (withData conf s k d').dir.db k = some d' := by rw [hseg, if_pos rfl]
  refine ⟨?_, hk, hpost', hw⟩
  have ha : a+12 ≤ maxDbFileSize conf ∧ (k = s.q.curWdb.curIndex → a+12 ≤ s.q.curWdb.pos) := by
    split at hend <;> constructor <;> omega
  obtain ⟨t, htr, rfl⟩ := trace_of_placed (T := fun t => t = (k, a)) hpre' hkw (by omega)
    (fun hkw => by have := ha.2 hkw; omega) fun p e he hp hq =>
      ⟨(k, a), trace_quiet he hp hq (fun _ => ha.1) (fun _ => ha.2), rfl⟩
  exact htr

variable {c t : ℕ × ℕ} {len : ℕ} {r : List ((ℕ × ℕ) × MsgItem)}

/-- Frames from a cursor on are delivered until the reader stops. -/
theorem delivered_of_placed
    (h : Placed (msgFraming conf) seg (maxDbFileSize conf) 128 w wpos i p l)
    (hw : wpos ≤ maxDbFileSize conf) :
    ∃ t, Trace (readerStep conf seg w wpos) (i, p) (placedItems l) t ∧
      readerStep conf seg w wpos t = none :=
  trace_of_placed h le_rfl hw (fun _ => le_rfl) fun _ _ hs hp hq => trace_stop hs hw hp hq

/-- Frames in later files are delivered whatever the rest of this file holds. -/
theorem DamagedAt.of_last (h : DamagedAt conf seg w wpos c k a len d pre post)
    (hlast : ∀ q m rest, post ≠ ((k, q), m) :: rest) :
    ∃ o t, Trace (readerStep conf seg w wpos) (k, a) o t ∧ readerStep conf seg w wpos t = none ∧
      (placedItems post).Sublist o := by
  have hend := h.after.pos_le
  have hw := h.wpos_le
  have ha : a ≤ maxDbFileSize conf := by split at hend <;> omega
  have hpost := h.after
  generalize a+(12+len) = b at hpost
  cases hpost with
  | last =>
    obtain ⟨o, t, htr, ht⟩ := exists_stopped (P := fun t => t.2 ≤ maxDbFileSize conf)
      (readerRank conf w) (fun _ _ _ => readerStep_rank) (show (w, a).2 ≤ _ from ha)
    exact ⟨o, t, htr, ht, List.nil_sublist _⟩
  | next hlt _ _ _ hnext =>
    obtain ⟨o, p, htr, hp⟩ := @exists_fileTrace conf a d ha
    obtain ⟨t, hrest, ht⟩ := delivered_of_placed hnext hw
    have hmove : readerStep conf seg w wpos (k, p) = some (none, (k+1, 128)) := by
      rw [readerStep, if_neg (by rintro ⟨rfl, -⟩; exact lt_irrefl _ hlt), h.content,
        Option.bind_some, hp]
      exact if_pos hlt
    exact ⟨_, t, (trace_of_fileTrace h.content htr fun he => by omega).trans (.silent hmove hrest),
      ht, List.sublist_append_right _ _⟩
  | frame => exact absurd rfl (hlast _ _ _)

/-- The frame behind the damaged one fits into its file. -/
theorem DamagedAt.next_frame (h : DamagedAt conf seg w wpos c k a len d pre (((k, q), m) :: post)) :
    a ≤ q ∧ Holds d q (msgBytes m.item) ∧ q+12 < maxDbFileSize conf ∧ (k = w → q+12 ≤ wpos) ∧
      Placed (msgFraming conf) seg (maxDbFileSize conf) 128 w wpos k q (((k, q), m) :: post) := by
  have hw := h.wpos_le
  have hpos := m.body_pos
  have hge := (h.after.place_ge List.mem_cons_self).2 rfl
  have hafter : Placed (msgFraming conf) seg (maxDbFileSize conf) 128 w wpos k (a+(12+len))
      ([] ++ ((k, q), m) :: post) := h.after
  obtain ⟨-, ⟨d₁, hd₁, hh⟩, hrest⟩ := hafter.cut
  obtain rfl : d = d₁ := Option.some.inj (h.content.symm.trans hd₁)
  have hend := hrest.pos_le
  rw [msgFraming_enc, length_msgBytes] at hend
  refine ⟨by omega, hh, by split at hend <;> omega, fun he => ?_,
    .frame h.content le_rfl (fun x _ _ => by omega) hh hrest⟩
  rw [if_pos he] at hend
  omega

/-- A walk that resynchronises delivers the frames behind the damaged one. -/
theorem DamagedAt.of_resyncs (h : DamagedAt conf seg w wpos c k a len d pre (((k, q), m) :: post))
    (hr : Resyncs conf d a q) :
    ∃ o t, Trace (readerStep conf seg w wpos) (k, a) o t ∧ readerStep conf seg w wpos t = none ∧
      (placedItems (((k, q), m) :: post)).Sublist o := by
  obtain ⟨hle, hh, hfit, hlim, hrest⟩ := h.next_frame
  have hmark : d q = msgHeadOfFirstMagicNum :=
    Framing.mark_of_holds (F := msgFraming conf) (a := m) hh
  obtain ⟨o, ho⟩ := hr.trace hle hmark hfit
  obtain ⟨t, htr, ht⟩ := delivered_of_placed hrest h.wpos_le
  exact ⟨_, t, (trace_of_fileTrace h.content ho hlim).trans htr, ht, List.sublist_append_right _ _⟩

/-- Along a walk of the reader the offset in a file does not decrease. -/
theorem pos_le_of_trace (h : Trace (readerStep conf seg w wpos) (k, p) r (k, q))
    (hp : p ≤ maxDbFileSize conf) : q ≤ maxDbFileSize conf ∧ p ≤ q := by
  obtain ⟨hq, hr⟩ :=
    h.rank_le (P := fun t => t.2 ≤ maxDbFileSize conf) (fun _ _ _ => readerStep_rank) hp
  simp only [readerRank] at hr
  exact ⟨hq, by simp only at hq; omega⟩

/-- When the frame behind the damaged one is delivered, the walk came to it. -/
theorem DamagedAt.resyncs (h : DamagedAt conf seg w wpos c k a len d pre (((k, q), m) :: post))
    (htr : Trace (readerStep conf seg w wpos) c r t) (hm : ((k, q), m.item) ∈ r) :
    Resyncs conf d a q := by
  obtain ⟨hle, hh, hfit, hlim, -⟩ := h.next_frame
  obtain ⟨o₁, -, -, hto, -, -⟩ := htr.of_mem hm
  have hwalk : ∃ o, Trace (readerStep conf seg w wpos) (k, a) o (k, q) := by
    rcases h.before.comparable hto with ⟨o, ho, -⟩ | ⟨o, ho, -⟩
    · exact ⟨o, ho⟩
    · have := pos_le_of_trace ho (by omega)
      obtain rfl : a = q := by omega
      exact ⟨[], .nil _⟩
  obtain ⟨o, ho⟩ := hwalk
  intro o' p hp hlt
  have hrest : ∃ x u o'', readerStep conf seg w wpos (k, p) = some (x, u) ∧
      Trace (readerStep conf seg w wpos) u o'' (k, q) := by
    rcases (trace_of_fileTrace h.content hp fun he => by have := hlim he; omega).comparable ho with
      ⟨o'', ho', -⟩ | ⟨o'', ho', -⟩
    · exact ho'.first fun heq => by cases heq; exact lt_irrefl _ hlt
    · have := pos_le_of_trace ho' (by omega)
      omega
  obtain ⟨x, u, o'', hstep, hu⟩ := hrest
  obtain ⟨d₁, hd₁, -, hcase⟩ := readerStep_cases hstep
  obtain rfl : d = d₁ := Option.some.inj (h.content.symm.trans hd₁)
  obtain ⟨i, y⟩ := u
  rcases hcase with ⟨hi, hfile⟩ | ⟨-, hlt', -, hnext⟩
  · simp only at hi hfile
    subst hi
    have hy := fileStep_bounds (by omega) hfile
    have hyq := (pos_le_of_trace hu hy.2).2
    refine ⟨fun hbey => ?_, fun item hok => ?_⟩
    · rw [fileStep_eq_none.mpr hbey] at hfile
      cases hfile
    · rw [fileStep, hok] at hfile
      cases hfile
      exact hyq
  · cases hnext
    exact absurd (index_le_of_trace hu) (by simp)

/-- Overwriting bytes of one frame costs no other frame exactly when no frame
follows it in its file, or the walk from its start resynchronises with the next
one: before it no header announces an end beyond the file and no message that
checks out reaches past its start. -/
theorem others_kept_iff (h : HoldsFrames conf s (pre ++ ((k, a), m) :: post))
    (hd : dbSeg conf s.dir.db k = some d)
    (hout : ∀ x, x < a ∨ a+(12+m.body.length) ≤ x → d x = d' x) :
    KeepsFrames conf (withData conf s k d') (pre ++ post) ↔
      ∀ q m' rest, post = ((k, q), m') :: rest → Resyncs conf d' a q := by
  have hdam := damagedAt_withData h hd hout
  have hp : s.q.curRdb.pos ≤ maxDbFileSize conf := by
    have hpos := h.placed.pos_le
    have hw := h.wpos_le
    split at hpos <;> omega
  have hread := @reading_withData conf s k d' _ h hp
  constructor
  · rintro ⟨⟨r, hr⟩, hkeep⟩ q m' rest rfl
    obtain ⟨t, htr, -⟩ := trace_of_drains hr hread
    refine hdam.resyncs htr ((hkeep r hr).subset ?_)
    simp [placedItems]
  · intro hnext
    have hrest : ∃ o t, Trace (readerStep conf (dbSeg conf (withData conf s k d').dir.db)
        s.q.curWdb.curIndex s.q.curWdb.pos) (k, a) o t ∧
        readerStep conf (dbSeg conf (withData conf s k d').dir.db) s.q.curWdb.curIndex
          s.q.curWdb.pos t = none ∧
        (placedItems post).Sublist o := by
      by_cases hlast : ∀ q m rest, post ≠ ((k, q), m) :: rest
      · exact hdam.of_last hlast
      · push Not at hlast
        obtain ⟨q, m', rest, rfl⟩ := hlast
        exact hdam.of_resyncs (hnext q m' rest rfl)
    obtain ⟨o, t, htr, ht, hsub⟩ := hrest
    have hiff := fun r => drains_iff (l := r) hread (hdam.before.trans htr) ht
    refine ⟨⟨_, (hiff _).mpr rfl⟩, fun r hr => ?_⟩
    rw [(hiff r).mp hr, placedItems, List.map_append]
    exact hsub.append_left _

/-- A message of one byte. -/
def byteMsg (b : UInt8) : Msg UcmqConf.least :=
  ⟨0, [b], u32_modulus_pos, Nat.one_pos, by
    have := le_maxDbFileSize UcmqConf.least
    rw [List.length_singleton]
    omega⟩

/-- A write file with two messages of one byte. -/
def twoFrames : Region :=
  writeAt (writeAt (blankData .least) 128 (msgBytes (byteMsg 7).item)) 141
    (msgBytes (byteMsg 8).item)

/-- Move the write position. -/
def setWritePos (s : Store) (pos : ℕ) : Store :=
  { s with q := { s.q with curWdb := { s.q.curWdb with pos := pos } } }

/-- Moving the write position keeps a queue readable. -/
theorem readable_setWritePos (h : Readable conf s) (hp : p < 2^32) :
    Readable conf (setWritePos s p) :=
  ⟨h.held.congr rfl ⟨rfl, rfl, rfl⟩ ⟨rfl, rfl, rfl⟩, h.log, h.rtags,
    ⟨h.typed.rcount, h.typed.rpos, hp, h.typed.maxqueue, h.typed.delay, h.typed.wlock_ge,
      h.typed.wlock_lt⟩,
    h.index_le, h.files⟩

/-- A queue whose only file holds these two messages. -/
def twoFramesQueue : Store := withData .least (setWritePos (created .least) 154) 1 twoFrames

/-- The contents of its file. -/
theorem seg_twoFramesQueue : dbSeg .least twoFramesQueue.dir.db 1 = some twoFrames := by
  rw [twoFramesQueue, dbSeg_withData, if_pos rfl]

/-- It holds the two frames. -/
theorem holdsFrames_twoFrames :
    HoldsFrames .least twoFramesQueue [((1, 128), byteMsg 7), ((1, 141), byteMsg 8)] := by
  have hmin := le_maxDbFileSize .least
  obtain ⟨hs, b, hb, hm⟩ := sound_created .least
  have hfirst : Holds twoFrames 128 (msgBytes (byteMsg 7).item) :=
    (holds_writeAt _ _ _).congr fun x _ hx => (writeAt_outside _ (Or.inl hx)).symm
  have hend :
    Placed (msgFraming .least) (dbSeg .least twoFramesQueue.dir.db) (maxDbFileSize .least) 128 1
      154 1 154 [] := .last seg_twoFramesQueue le_rfl fun x _ _ => by omega
  have hsecond :
    Placed (msgFraming .least) (dbSeg .least twoFramesQueue.dir.db) (maxDbFileSize .least) 128 1
      154 1 141 [((1, 141), byteMsg 8)] :=
    .frame seg_twoFramesQueue le_rfl (fun x _ _ => by omega) (holds_writeAt _ _ _) hend
  have hplaced :
    Placed (msgFraming .least) (dbSeg .least twoFramesQueue.dir.db) (maxDbFileSize .least) 128 1
      154 1 128 [((1, 128), byteMsg 7), ((1, 141), byteMsg 8)] :=
    .frame seg_twoFramesQueue le_rfl (fun x _ _ => by omega) hfirst hsecond
  refine ⟨readable_withData (readable_setWritePos (readable_of_sound hs) (by omega)),
    ⟨b, hb, hm⟩, rfl, ?_, hplaced⟩
  show 154 ≤ maxDbFileSize .least
  omega

/-- The first message with a length beyond the file. -/
def twoFramesDamaged : Region := writeAt twoFrames 138 [255]

/-- With the third byte of its length overwritten, the first message stops the
reader, and the second one is never delivered. -/
theorem next_frame_lost :
    HoldsFrames .least twoFramesQueue ([] ++ ((1, 128), byteMsg 7) :: [((1, 141), byteMsg 8)]) ∧
      dbSeg .least twoFramesQueue.dir.db 1 = some twoFrames ∧
      (∀ x, x < 128 ∨ 128+(12+(byteMsg 7).body.length) ≤ x → twoFrames x = twoFramesDamaged x) ∧
      ¬KeepsFrames .least (withData .least twoFramesQueue 1 twoFramesDamaged)
        ([] ++ [((1, 141), byteMsg 8)]) := by
  have hmin := le_maxDbFileSize .least
  refine ⟨holdsFrames_twoFrames, seg_twoFramesQueue, ?_, ?_⟩
  · intro x hx
    refine (writeAt_outside _ ?_).symm
    simp only [byteMsg, List.length_singleton] at hx ⊢
    omega
  · have hread := @reading_withData .least _ 1 twoFramesDamaged _ holdsFrames_twoFrames
      (by show 128 ≤ maxDbFileSize .least; omega)
    have hparse : mqSmDbParseMsg .least (some twoFramesDamaged) 128 = .lenBey := by decide +kernel
    have hstop :
      readerStep .least (dbSeg .least (withData .least twoFramesQueue 1 twoFramesDamaged).dir.db)
        1 154 (1, 128) = none := by
      rw [readerStep, if_neg (by simp only; omega), dbSeg_withData, if_pos rfl, Option.bind_some,
        fileStep_eq_none.mpr hparse]
      exact if_neg (lt_irrefl 1)
    intro hkeep
    have hsub := hkeep.2 [] ((drains_iff hread (.nil _) hstop).mpr rfl)
    simp [placedItems] at hsub

/-- The walk over bytes that start no message comes to their end. -/
theorem resyncs_of_quiet (hq : Quiet msgHeadOfFirstMagicNum d a q)
    (hfit : q+12 < maxDbFileSize conf) :
    Resyncs conf d a q := by
  intro o p ht hp
  have hle : a ≤ p := by
    clear hp
    induction ht with
    | nil => exact le_rfl
    | silent hs _ ih =>
      exact (fileStep_lt hs).le.trans (ih fun i hi hl => hq i ((fileStep_lt hs).le.trans hi) hl)
    | emit hs _ ih =>
      exact (fileStep_lt hs).le.trans (ih fun i hi hl => hq i ((fileStep_lt hs).le.trans hi) hl)
  have hparse : mqSmDbParseMsg conf (some d) p = .magNumErr := by
    by_contra hno
    exact hq p hle hp (magic_of_parse (by omega) hno).1
  rw [hparse]
  exact ⟨by simp, by simp⟩

/-- With the first magic byte of the first message overwritten the second one is
still delivered. -/
theorem others_kept_magic :
    KeepsFrames .least (withData .least twoFramesQueue 1 (writeAt twoFrames 128 [0]))
      ([] ++ [((1, 141), byteMsg 8)]) := by
  have hmin := le_maxDbFileSize .least
  have h :
      HoldsFrames .least twoFramesQueue ([] ++ ((1, 128), byteMsg 7) :: [((1, 141), byteMsg 8)]) :=
    holdsFrames_twoFrames
  have hquiet : Quiet msgHeadOfFirstMagicNum (writeAt twoFrames 128 [0]) 128 141 := by
    have hall : ∀ k < 13, writeAt twoFrames 128 [0] (128+k) ≠ msgHeadOfFirstMagicNum := by
      decide +kernel
    intro i hi hl
    have hk := hall (i-128) (by omega)
    rwa [Nat.add_sub_cancel' hi] at hk
  refine (others_kept_iff h seg_twoFramesQueue fun x hx => (writeAt_outside _ ?_).symm).mpr
    fun q m' rest hpost => ?_
  · simp only [byteMsg, List.length_singleton] at hx ⊢
    omega
  · obtain ⟨hfirst, -⟩ := List.cons.inj hpost
    obtain rfl : 141 = q := congrArg (fun x => x.1.2) hfirst
    exact resyncs_of_quiet hquiet (by omega)

end Ucmq.DamagedFrame
