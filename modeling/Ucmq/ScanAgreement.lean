import Ucmq.DamagedFrame

/-!
# The counting scan against the reader

Both scanners take the same steps inside of a file until they meet a header
that announces an end beyond it. There the reader leaves the file, and the
scan goes on behind the magic bytes. The two numbers are therefore equal
exactly when no message that checks out starts behind that header. Over a file
of frames the scan is exact, with the head included.
-/

namespace Ucmq.ScanAgreement

open ByteRegion FramedLog OutputTrace StoreConfig StoreMsg StoreState StoreFile StoreManage
open StoreInvariant ReadPath WritePath QueueStep MapReads FileWalk DamagedFrame

variable {conf : UcmqConf} {s s' : Store} {seg : ℕ → Option Region} {w wpos i p q n fuel count : ℕ}
variable {c t : ℕ × ℕ} {d : Region}

/-- Number of messages that repeated gets return from data file i, until a get
returns nothing or a message of another file. No system call fails. -/
inductive ReadsFrom (conf : UcmqConf) (i : ℕ) : Store → ℕ → Prop
  | stop {s s' : Store} {sys : Sys} (hok : sys.Ok) (h : mqSmGetData conf sys s = .ok (none, s')) :
      ReadsFrom conf i s 0
  | leave {s s' : Store} {sys : Sys} {item : MsgItem} (hok : sys.Ok)
      (h : mqSmGetData conf sys s = .ok (some item, s')) (hi : s'.q.curRdb.curIndex ≠ i) :
      ReadsFrom conf i s 0
  | more {s s' : Store} {sys : Sys} {item : MsgItem} {n : ℕ} (hok : sys.Ok)
      (h : mqSmGetData conf sys s = .ok (some item, s')) (hi : s'.q.curRdb.curIndex = i)
      (hr : ReadsFrom conf i s' n) : ReadsFrom conf i s (n+1)

/-- The next output of a reader that is about to leave its file is one of that
file, or there is none before it leaves. -/
theorem next_output {o : List ((ℕ × ℕ) × MsgItem)} {u : ℕ × ℕ} {item : MsgItem}
    (htr : Trace (readerStep conf seg w wpos) c [(u, item)] t) (hu : t.1 = u.1)
    (ho : Trace (readerStep conf seg w wpos) c o (i+1, 128)) (hfrom : ∀ x ∈ o, x.1.1 = i) :
    (u.1 ≠ i ∧ o = []) ∨
      u.1 = i ∧ ∃ o', o = (u, item) :: o' ∧ Trace (readerStep conf seg w wpos) t o' (i+1, 128) := by
  rcases htr.comparable ho with ⟨o', ho', rfl⟩ | ⟨o', ho', heq⟩
  · exact Or.inr ⟨hfrom (u, item) List.mem_cons_self, o', rfl, ho'⟩
  · have hlt : i+1 ≤ t.1 := index_le_of_trace ho'
    have hne : u.1 ≠ i := by omega
    refine Or.inl ⟨hne, ?_⟩
    cases o with
    | nil => rfl
    | cons x o =>
      obtain ⟨rfl, -⟩ := List.cons.inj heq
      exact absurd (hfrom _ List.mem_cons_self) hne

/-- The number of messages read from a file is the number of outputs of the walk
before it leaves the file. -/
theorem length_of_readsFrom {o : List ((ℕ × ℕ) × MsgItem)} (hn : ReadsFrom conf i s n)
    (h : Reading conf seg w wpos c s) (ho : Trace (readerStep conf seg w wpos) c o (i+1, 128))
    (hfrom : ∀ x ∈ o, x.1.1 = i) : n = o.length := by
  induction hn generalizing c o with
  | stop hok hget =>
    have hof := getOf_of_reading h hok
    rw [hget] at hof
    cases hof with
    | ended htr hs =>
      rcases htr.comparable ho with ⟨o', ho', rfl⟩ | ⟨o', -, heq⟩
      · rw [(ho'.of_stopped hs).1]
        rfl
      · rw [(List.append_eq_nil_iff.mp heq.symm).1]
        rfl
  | leave hok hget hi =>
    have hof := getOf_of_reading h hok
    rw [hget] at hof
    cases hof with
    | delivered htr hr =>
      rcases next_output htr hr.index.symm ho hfrom with ⟨-, rfl⟩ | ⟨heq, -⟩
      · rfl
      · exact absurd heq hi
  | more hok hget hi _ ih =>
    have hof := getOf_of_reading h hok
    rw [hget] at hof
    cases hof with
    | delivered htr hr =>
      rcases next_output htr hr.index.symm ho hfrom with ⟨hne, -⟩ | ⟨-, o', rfl, ho'⟩
      · exact absurd hi hne
      · rw [List.length_cons, ih hr ho' fun x hx => hfrom x (List.mem_cons_of_mem _ hx)]

/-- Repeated gets leave every file, or come to an end. -/
theorem exists_readsFrom (i : ℕ) (h : Reading conf seg w wpos c s) : ∃ n, ReadsFrom conf i s n := by
  refine gets_induction (P := fun s => ∃ n, ReadsFrom conf i s n) (Sys.quiet_ok 0 0) ?_ ?_ h
  · exact fun s s' hget => ⟨0, .stop (Sys.quiet_ok 0 0) hget⟩
  · rintro s s' item hget ⟨n, hn⟩
    by_cases hi : s'.q.curRdb.curIndex = i
    · exact ⟨n+1, .more (Sys.quiet_ok 0 0) hget hi hn⟩
    · exact ⟨0, .leave (Sys.quiet_ok 0 0) hget hi⟩

/-- A reader behind the write file reads as many messages from its file as the
walk over the file delivers before it stops. -/
theorem readsFrom_iff {o : List (ℕ × MsgItem)} (h : Reading conf seg w wpos (i, p) s) (hi : i < w)
    (hs : seg i = some d) (ho : Trace (fileStep conf d) p o q) (hq : fileStep conf d q = none) :
    ReadsFrom conf i s n ↔ n = o.length := by
  have hmove : readerStep conf seg w wpos (i, q) = some (none, (i+1, 128)) := by
    rw [readerStep, if_neg (by rintro ⟨rfl, -⟩; exact lt_irrefl _ hi), hs, Option.bind_some, hq]
    exact if_pos hi
  have htr :
      Trace (readerStep conf seg w wpos) (i, p)
        ((o.map fun x => ((i, x.1), x.2)) ++ []) (i+1, 128) :=
    (trace_of_fileTrace hs ho fun he => by omega).trans (.silent hmove (.nil _))
  rw [List.append_nil] at htr
  have hfrom : ∀ x ∈ o.map (fun x => ((i, x.1), x.2)), x.1.1 = i := by
    intro x hx
    obtain ⟨y, -, rfl⟩ := List.mem_map.mp hx
    rfl
  have hdet : ∀ {n}, ReadsFrom conf i s n → n = o.length := fun hn => by
    rw [length_of_readsFrom hn h htr hfrom, List.length_map]
  refine ⟨hdet, ?_⟩
  rintro rfl
  obtain ⟨n, hn⟩ := exists_readsFrom i h
  rw [hdet hn] at hn
  exact hn

/-- An iteration of the scan that takes a step of the walk. -/
theorem loop_of_fileStep {b : Option MsgItem} (hp : p ≤ maxDbFileSize conf)
    (h : fileStep conf d p = some (b, q)) :
    calMsgCountLoop conf d (maxDbFileSize conf) (fuel+1) p count =
      calMsgCountLoop conf d (maxDbFileSize conf) fuel q (count+b.toList.length) := by
  have hlt := fileStep_bounds hp h
  rw [calMsgCountLoop, if_pos (by omega)]
  rw [fileStep] at h
  cases hpar : mqSmDbParseMsg conf (some d) p <;> rw [hpar] at h <;> cases h <;> rfl

/-- The scan counts the outputs of a walk and goes on where it ends. -/
theorem count_of_trace {o : List (ℕ × MsgItem)} (h : Trace (fileStep conf d) p o q)
    (hp : p ≤ maxDbFileSize conf) (hf : maxDbFileSize conf ≤ p+fuel) (count : ℕ) :
    ∃ fuel', maxDbFileSize conf ≤ q+fuel' ∧
      calMsgCountLoop conf d (maxDbFileSize conf) fuel p count =
      calMsgCountLoop conf d (maxDbFileSize conf) fuel' q (count+o.length) := by
  induction h generalizing fuel count with
  | nil => exact ⟨fuel, hf, rfl⟩
  | silent hs _ ih =>
    have hlt := fileStep_bounds hp hs
    obtain ⟨fuel, rfl⟩ : ∃ k, fuel = k+1 := ⟨fuel-1, by omega⟩
    rw [loop_of_fileStep hp hs]
    exact ih hlt.2 (by omega) count
  | @emit _ _ _ _ o hs _ ih =>
    have hlt := fileStep_bounds hp hs
    obtain ⟨fuel, rfl⟩ : ∃ k, fuel = k+1 := ⟨fuel-1, by omega⟩
    obtain ⟨fuel', hf', heq⟩ := @ih fuel hlt.2 (by omega) (count+1)
    refine ⟨fuel', hf', ?_⟩
    rw [loop_of_fileStep hp hs, Option.toList_some, List.length_singleton, heq, List.length_cons,
      Nat.add_assoc, Nat.add_comm 1]

/-- Behind a header that does not check out no message starts at the next byte. -/
theorem parse_succ_ne_ok {item : MsgItem} (hp : p+1 ≤ maxDbFileSize conf)
    (h : mqSmDbParseMsg conf (some d) p ≠ .magNumErr) :
    mqSmDbParseMsg conf (some d) (p+1) ≠ .ok item := by
  by_cases hend : maxDbFileSize conf ≤ p+1+12
  · rw [parseMsg_of_end hend hp]
    simp
  · have hsecond := (magic_of_parse (by omega) h).2
    rw [parseMsg_of_ne (by rw [hsecond]; decide) (by omega)]
    simp

/-- The scan finds nothing more exactly when no message that checks out starts in
the rest of the file. -/
theorem count_eq_iff (hf : maxDbFileSize conf ≤ p+fuel) :
    calMsgCountLoop conf d (maxDbFileSize conf) fuel p count = count ↔
      ∀ q item, p ≤ q → q ≤ maxDbFileSize conf → mqSmDbParseMsg conf (some d) q ≠ .ok item := by
  have hdone : ∀ p, maxDbFileSize conf ≤ p → ∀ q item, p ≤ q → q ≤ maxDbFileSize conf →
      mqSmDbParseMsg conf (some d) q ≠ .ok item := by
    intro p hp q item hq hle
    rw [parseMsg_of_end (by omega) hle]
    simp
  induction fuel generalizing p with
  | zero => exact iff_of_true rfl (hdone p (by omega))
  | succ fuel ih =>
    rw [calMsgCountLoop]
    split
    · rename_i hlt
      have hskip : ∀ k, 0 < k → (∀ q item, p ≤ q → q < p+k → q ≤ maxDbFileSize conf →
            mqSmDbParseMsg conf (some d) q ≠ .ok item) →
          (calMsgCountLoop conf d (maxDbFileSize conf) fuel (p+k) count = count ↔
            ∀ q item, p ≤ q → q ≤ maxDbFileSize conf →
              mqSmDbParseMsg conf (some d) q ≠ .ok item) := by
        intro k hk hno
        refine (ih (p := p+k) (by omega)).trans
          ⟨fun h q item hq hle => ?_, fun h q item hq hle => h q item (by omega) hle⟩
        rcases Nat.lt_or_ge q (p+k) with hin | hout
        · exact hno q item hq hin hle
        · exact h q item hout hle
      have htwo : mqSmDbParseMsg conf (some d) p ≠ .magNumErr → (∀ item,
            mqSmDbParseMsg conf (some d) p ≠ .ok item) →
          (calMsgCountLoop conf d (maxDbFileSize conf) fuel (p+2) count = count ↔
            ∀ q item, p ≤ q → q ≤ maxDbFileSize conf →
              mqSmDbParseMsg conf (some d) q ≠ .ok item) := by
        intro hmag hne
        refine hskip 2 (by omega) fun q item hq hlt hle => ?_
        rcases hq.eq_or_lt with rfl | hq
        · exact hne item
        · obtain rfl : q = p+1 := by omega
          exact parse_succ_ne_ok hle hmag
      cases hpar : mqSmDbParseMsg conf (some d) p with
      | ok item =>
        have hmore :=
          @calMsgCountLoop_mono conf d (maxDbFileSize conf) fuel (p+(12+item.len)) (count+1)
        exact iff_of_false (by simp only; omega) fun h => h p item le_rfl hlt.le hpar
      | magNumErr =>
        refine hskip 1 (by omega) fun q item hq hlt _ => ?_
        obtain rfl : q = p := by omega
        rw [hpar]
        simp
      | parseErr => exact htwo (by rw [hpar]; simp) (by rw [hpar]; simp)
      | crcErr => exact htwo (by rw [hpar]; simp) (by rw [hpar]; simp)
      | msgErr => exact absurd hpar parseMsg_ne_msgErr
      | lenBey => exact htwo (by rw [hpar]; simp) (by rw [hpar]; simp)
    · exact iff_of_true rfl (hdone p (by omega))

/-- For a file behind the write file, read from its start, the counting scan and
the reader agree exactly when no message that checks out starts behind the first
header at which the walk finds an end beyond the file. -/
theorem scan_eq_reads_iff (h : Readable conf s) (hl : WriterLive s) (hdelay : s.q.delay = 0)
    (hpos : s.q.curRdb.pos = 0) (hi : s.q.curRdb.curIndex < s.q.curWdb.curIndex)
    (hd : dbSeg conf s.dir.db s.q.curRdb.curIndex = some d) :
    (∀ n, ReadsFrom conf s.q.curRdb.curIndex s n ↔
      n = mqSmDbCalMsgCount conf d (maxDbFileSize conf)) ↔
      ∀ o p, Trace (fileStep conf d) 0 o p → mqSmDbParseMsg conf (some d) p = .lenBey →
        ∀ q item, p < q → q ≤ maxDbFileSize conf → mqSmDbParseMsg conf (some d) q ≠ .ok item := by
  have hread : Reading conf (dbSeg conf s.dir.db) s.q.curWdb.curIndex s.q.curWdb.pos
      (s.q.curRdb.curIndex, 0) s :=
    ⟨h, hl, hdelay, rfl, hpos, Nat.zero_le _, rfl, rfl, fun _ _ _ => rfl⟩
  obtain ⟨o, e, ho, he⟩ := @exists_fileTrace conf 0 d (Nat.zero_le _)
  have hbey := fileStep_eq_none.mp he
  obtain ⟨fuel, hf, hcount⟩ := count_of_trace ho (Nat.zero_le _)
    (show maxDbFileSize conf ≤ 0+maxDbFileSize conf by omega) 0
  rw [Nat.zero_add] at hcount
  have hreads : (∀ n, ReadsFrom conf s.q.curRdb.curIndex s n ↔
        n = mqSmDbCalMsgCount conf d (maxDbFileSize conf)) ↔
      calMsgCountLoop conf d (maxDbFileSize conf) fuel e o.length = o.length := by
    rw [mqSmDbCalMsgCount, hcount]
    constructor
    · intro hall
      exact ((hall o.length).mp ((readsFrom_iff hread hi hd ho he).mpr rfl)).symm
    · intro heq n
      rw [heq]
      exact readsFrom_iff hread hi hd ho he
  rw [hreads, count_eq_iff hf]
  constructor
  · intro hno o' p hp hpbey q item hq hle
    obtain ⟨-, rfl⟩ := hp.unique ho (fileStep_eq_none.mpr hpbey) he
    exact hno q item hq.le hle
  · intro hno q item hq hle
    rcases hq.eq_or_lt with rfl | hlt
    · rw [hbey]
      simp
    · exact hno o e ho hbey q item hlt hle

/-- A data file with one message, whose first bytes announce a message that ends
beyond the file. -/
def strayHead : Region :=
  writeAt (writeAt (blankData .least) 128 (msgBytes (byteMsg 7).item)) 0
    [0xFE, 0xAC, 0, 0, 0, 0, 0, 0, 0, 0, 255, 0]

/-- A queue that reads a file from its start, with its writer in the next one. -/
def headQueue (d : Region) : Store :=
  setReadPos (withData .least (nextWriter .least (created .least)) 1 d) 0

/-- It can be read, and its writer is live. -/
theorem readable_headQueue (d : Region) : Readable .least (headQueue d) ∧ WriterLive (headQueue d) ∧
    dbSeg .least (headQueue d).dir.db 1 = some d := by
  obtain ⟨hs, hl⟩ := sound_created .least
  obtain ⟨hs', b, hb, hm⟩ := sound_nextWriter hs fun _ => hl
  refine ⟨readable_setReadPos (readable_withData (readable_of_sound hs')) (by decide),
    ⟨b, hb, hm⟩, ?_⟩
  show dbSeg .least (withData .least (nextWriter .least (created .least)) 1 d).dir.db 1 = _
  rw [dbSeg_withData, if_pos rfl]

/-- The queue that reads the file above. -/
def strayQueue : Store := headQueue strayHead

/-- The reader leaves this file without a message, the scan counts one. -/
theorem scan_counts_more :
    Readable .least strayQueue ∧ WriterLive strayQueue ∧ strayQueue.q.delay = 0 ∧
      strayQueue.q.curRdb.pos = 0 ∧ strayQueue.q.curRdb.curIndex < strayQueue.q.curWdb.curIndex ∧
      dbSeg .least strayQueue.dir.db strayQueue.q.curRdb.curIndex = some strayHead ∧
      ¬∀ n, ReadsFrom .least strayQueue.q.curRdb.curIndex strayQueue n ↔
        n = mqSmDbCalMsgCount .least strayHead (maxDbFileSize .least) := by
  have hmin := le_maxDbFileSize .least
  obtain ⟨hr, hl, hd⟩ := readable_headQueue strayHead
  have hread : Reading .least (dbSeg .least strayQueue.dir.db) 2 128 (1, 0) strayQueue :=
    ⟨hr, hl, rfl, rfl, rfl, Nat.zero_le _, rfl, rfl, fun _ _ _ => rfl⟩
  have hbey : fileStep .least strayHead 0 = none := fileStep_eq_none.mpr (by decide +kernel)
  have hparse : mqSmDbParseMsg .least (some strayHead) 128 = .ok (byteMsg 7).item :=
    parseMsg_of_holds ((holds_writeAt _ _ _).congr fun x hx _ => (writeAt_outside _ (Or.inr (by
      simp only [List.length_cons, List.length_nil]
      omega))).symm) (by
      simp only [byteMsg, List.length_singleton]
      omega)
  refine ⟨hr, hl, rfl, rfl, by decide, hd, fun hall => ?_⟩
  have hzero := (hall 0).mp ((readsFrom_iff hread (by decide) hd (.nil 0) hbey).mpr rfl)
  rw [mqSmDbCalMsgCount] at hzero
  exact (count_eq_iff (by omega)).mp hzero.symm 128 _ (by omega) (by omega) hparse

/-- In a file that has the mark at one place only, where a message checks out, no
message checks out behind an end beyond the file. -/
theorem clear_of_one {a : ℕ} {item' : MsgItem} (hone : ∀ x, d x = msgHeadOfFirstMagicNum → x = a)
    (ha : mqSmDbParseMsg conf (some d) a = .ok item')
    (hp : mqSmDbParseMsg conf (some d) p = .lenBey) (hlt : p < q) (hq : q ≤ maxDbFileSize conf)
    (item : MsgItem) : mqSmDbParseMsg conf (some d) q ≠ .ok item := by
  intro hok
  have hend := end_le_of_parseMsg hq hok
  obtain ⟨hmark, -⟩ := magic_of_parse (show p+12 < maxDbFileSize conf by omega) (by rw [hp]; simp)
  rw [hone p hmark, ha] at hp
  cases hp

/-- A data file with one message. -/
def oneFrame : Region := writeAt (blankData .least) 128 (msgBytes (byteMsg 7).item)

/-- The byte that starts a frame stands at its start only. -/
theorem oneFrame_mark {x : ℕ} (hx : oneFrame x = msgHeadOfFirstMagicNum) : x = 128 := by
  by_contra hne
  have hall : ∀ k < 13, k ≠ 0 → oneFrame (128+k) ≠ msgHeadOfFirstMagicNum := by decide +kernel
  by_cases hin : 128 ≤ x ∧ x < 141
  · have hk := hall (x-128) (by omega) (by omega)
    rw [Nat.add_sub_cancel' hin.1] at hk
    exact hk hx
  · have hlen : (msgBytes (byteMsg 7).item).length = 13 := by decide +kernel
    have hout : oneFrame x = blankData .least x := writeAt_outside _ (by omega)
    exact quiet_blankData .least x (x+1) x le_rfl (Nat.lt_succ_self x) (hout.symm.trans hx)

/-- The scan counts one message in it. -/
theorem oneFrame_count : mqSmDbCalMsgCount .least oneFrame (maxDbFileSize .least) = 1 := by
  have hmin := le_maxDbFileSize .least
  have hlen : (msgBytes (byteMsg 7).item).length = 13 := by decide +kernel
  have hhead : Quiet msgHeadOfFirstMagicNum oneFrame 0 128 := by
    intro k _ hk hm
    have := oneFrame_mark hm
    omega
  have htail : Quiet msgHeadOfFirstMagicNum oneFrame
      (128+(msgBytes (byteMsg 7).item).length) (maxDbFileSize .least) := by
    intro k hk _ hm
    have := oneFrame_mark hm
    omega
  have hscan : (msgFraming .least).Scans oneFrame 128 [byteMsg 7] (maxDbFileSize .least) :=
    ⟨128, le_rfl, fun _ _ _ => by omega, holds_writeAt _ _ _,
      show 128+(msgBytes (byteMsg 7).item).length ≤ _ by omega, htail⟩
  exact mqSmDbCalMsgCount_scans le_rfl hhead hscan

/-- The reader finds the message that the scan counts, and finds no second one. -/
theorem scan_eq_reads_frame : ReadsFrom .least 1 (headQueue oneFrame) 1 ∧
    ¬ReadsFrom .least 1 (headQueue oneFrame) 2 := by
  obtain ⟨hr, hl, hd⟩ := readable_headQueue oneFrame
  have hparse : mqSmDbParseMsg .least (some oneFrame) 128 = .ok (byteMsg 7).item :=
    parseMsg_of_holds (holds_writeAt _ _ _) (by
      have hmin := le_maxDbFileSize .least
      simp only [byteMsg, List.length_singleton]
      omega)
  have heq := (scan_eq_reads_iff hr hl rfl rfl (by decide) hd).mpr fun _ p _ hbey q item hlt hq =>
    clear_of_one (fun _ => oneFrame_mark) hparse hbey hlt hq item
  rw [oneFrame_count] at heq
  exact ⟨(heq 1).mpr rfl, fun htwo => absurd ((heq 2).mp htwo) (by decide)⟩

/-- A data file: a head, frames back to back behind it, and the bytes that
`extend_file_size` leaves in the rest. -/
def frameFile (conf : UcmqConf) (head : List UInt8) (items : List MsgItem) : Region :=
  writeAt (writeAt (blankData conf) 0 head) 128 (items.flatMap msgBytes)

/-- The head of a data file, not written yet or with some message count. -/
def FileHead (head : List UInt8) : Prop :=
  head = List.replicate 128 0 ∨ ∃ optCount, optCount < 2^32 ∧ head = dbFileHead optCount

/-- A file head has 128 bytes. -/
theorem FileHead.length {head : List UInt8} (h : FileHead head) : head.length = 128 := by
  rcases h with rfl | ⟨n, hn, rfl⟩
  · exact List.length_replicate
  · exact length_dbFileHead (by omega)

/-- It holds no mark of a frame. -/
theorem FileHead.ne_mark {head : List UInt8} (h : FileHead head) :
    ∀ b ∈ head, b ≠ msgHeadOfFirstMagicNum := by
  rcases h with rfl | ⟨n, -, rfl⟩
  · intro b hb
    rw [List.eq_of_mem_replicate hb]
    decide
  · exact dbFileHead_ne_mark n

/-- Frames back to back, with quiet bytes behind them, are scanned as messages. -/
theorem scans_of_frames {items : List MsgItem} {e : ℕ} (hitems : ∀ item ∈ items, item.Framed)
    (hh : Holds d p (items.flatMap msgBytes)) (hp : 128 ≤ p) (he : e ≤ maxDbFileSize conf)
    (hle : p+(items.flatMap msgBytes).length ≤ e)
    (hq : Quiet msgHeadOfFirstMagicNum d (p+(items.flatMap msgBytes).length) e) :
    ∃ ms : List (Msg conf), ms.length = items.length ∧ (msgFraming conf).Scans d p ms e := by
  induction items generalizing p with
  | nil => exact ⟨[], rfl, hle, hq⟩
  | cons item items ih =>
    have hframed := hitems item List.mem_cons_self
    have hlen := length_msgBytes_item hframed.len
    have hitem := hframed.len
    rw [List.flatMap_cons, List.length_append] at hle hq
    rw [List.flatMap_cons, holds_append] at hh
    obtain ⟨hfirst, hrest⟩ := hh
    obtain ⟨ms, hms, hscan⟩ :=
      ih (fun x hx => hitems x (List.mem_cons_of_mem _ hx)) hrest (by omega)
      (by omega) (by rwa [Nat.add_assoc])
    have hm : ∃ m : Msg conf, m.item = item := by
      obtain ⟨h1, h2, hdelay, hcrc, -, hpos⟩ := hframed
      refine ⟨⟨item.delay, item.msg, hdelay, by omega, by omega⟩, ?_⟩
      dsimp only [Msg.item]
      rw [← h1, ← h2, ← hcrc, ← hitem]
    obtain ⟨m, rfl⟩ := hm
    exact ⟨m :: ms, by rw [List.length_cons, List.length_cons, hms],
      p, le_rfl, fun i _ _ => by omega, hfirst, hscan⟩

/-- On a file of frames, whatever their bodies contain, the counting scan finds
exactly the frames, up to the end of the last one and up to the end of the file. -/
theorem scan_exact {head : List UInt8} {items : List MsgItem} (hhead : FileHead head)
    (hitems : ∀ item ∈ items, item.Framed)
    (hfit : 128+(items.flatMap msgBytes).length ≤ maxDbFileSize conf) :
    mqSmDbCalMsgCount conf (frameFile conf head items) (128+(items.flatMap msgBytes).length) =
        items.length ∧
      mqSmDbCalMsgCount conf (frameFile conf head items) (maxDbFileSize conf) = items.length := by
  have hlen := hhead.length
  have hheadq : Quiet msgHeadOfFirstMagicNum (frameFile conf head items) 0 128 := by
    intro k _ hk
    rw [frameFile, writeAt_outside _ (Or.inl hk)]
    exact writeAt_inside_forall _ hhead.ne_mark (Nat.zero_le k) (by omega)
  have htail : Quiet msgHeadOfFirstMagicNum (frameFile conf head items)
      (128+(items.flatMap msgBytes).length) (maxDbFileSize conf) := by
    intro k hk hlt
    rw [frameFile, writeAt_outside _ (Or.inr hk), writeAt_outside _ (Or.inr (by omega))]
    exact quiet_blankData conf 0 (maxDbFileSize conf) k (Nat.zero_le k) hlt
  have hcount : ∀ e, 128+(items.flatMap msgBytes).length ≤ e → e ≤ maxDbFileSize conf →
      mqSmDbCalMsgCount conf (frameFile conf head items) e = items.length := by
    intro e hle he
    obtain ⟨ms, hms, hscan⟩ := scans_of_frames hitems (holds_writeAt _ 128 _) le_rfl he hle
      (htail.mono le_rfl he)
    rw [← hms]
    exact mqSmDbCalMsgCount_scans he hheadq hscan
  exact ⟨hcount _ le_rfl hfit, hcount _ hfit le_rfl⟩

/-- A file with two messages behind a written head. -/
theorem scan_exact_two :
    mqSmDbCalMsgCount .least (frameFile .least (dbFileHead 2) [(byteMsg 7).item, (byteMsg 8).item])
        (128+([(byteMsg 7).item, (byteMsg 8).item].flatMap msgBytes).length) =
        [(byteMsg 7).item, (byteMsg 8).item].length ∧
      mqSmDbCalMsgCount .least
        (frameFile .least (dbFileHead 2) [(byteMsg 7).item, (byteMsg 8).item])
        (maxDbFileSize .least) = [(byteMsg 7).item, (byteMsg 8).item].length := by
  refine scan_exact (Or.inr ⟨2, by decide, rfl⟩) ?_ ?_
  · intro item hitem
    rcases List.mem_pair.mp hitem with rfl | rfl
    · exact (byteMsg 7).framed
    · exact (byteMsg 8).framed
  · have hmin := le_maxDbFileSize .least
    show 154 ≤ maxDbFileSize .least
    omega

end Ucmq.ScanAgreement
