import Ucmq.StoreState

/-!
# Position log

The functions of mq_store_rtag.c. A record is one line of six zero-padded
decimal columns. Recovery walks back from the end of the log in steps of one
record and takes the first line that parses; it falls back to the start of the
read file and a full write file. File size and seek offset are narrowed to a
signed 32-bit integer on that path.
-/

namespace Ucmq.StoreRtag

open DecimalText StoreConfig StoreState

/-- The six persisted fields of a queue. -/
structure RtagItem where
  /-- Messages read from the read file. -/
  rcount : ℕ
  /-- Position in the read file. -/
  rpos : ℕ
  /-- Position in the write file. -/
  wpos : ℕ
  /-- Capacity. -/
  maxqueue : ℕ
  /-- Delivery delay. -/
  delay : ℕ
  /-- Write lock. -/
  wlock : ℤ
  deriving DecidableEq

/-- The fields of a queue that a record persists. -/
def rtagItem (q : MqQueue) : RtagItem :=
  ⟨q.curRdb.optCount, q.curRdb.pos, q.curWdb.pos, q.maxque, q.delay, q.wlock⟩

/-- Replace the persisted fields of a queue. -/
def setRtagItem (q : MqQueue) (item : RtagItem) : MqQueue :=
  { q with
    curRdb := { q.curRdb with optCount := item.rcount, pos := item.rpos }
    curWdb := { q.curWdb with pos := item.wpos }
    maxque := item.maxqueue
    delay := item.delay
    wlock := item.wlock }

/-- The line written for a record. The signed lock is printed as unsigned. -/
def rtagText (item : RtagItem) : List Char :=
  padDec 10 item.rcount ++ padDec 10 item.rpos ++ padDec 10 item.wpos ++ padDec 10 item.maxqueue ++
    padDec 10 item.delay ++ padDec 10 (item.wlock%2^32).toNat ++ ['\n']

/-- Text of a file after a write at an offset. -/
def writeText (t : List Char) (off : ℕ) (u : List Char) : List Char :=
  t.take off ++ u ++ t.drop (off+u.length)

/-- Append the current record through the log descriptor. A closed descriptor
or a short write is reported as failure, which most callers ignore. -/
def mqSmRtagWriteItem (sys : Sys) (site : RtagSite) (s : Store) : Bool × Store :=
  match s.q.rtagFd.bind s.proc.fds, s.q.rtagFd with
  | some (.rtag i append offset), some fd =>
    let text := rtagText (rtagItem s.q)
    let wrote := text.take (sys.rtagWrite site)
    match s.dir.rtag i with
    | none => (decide (text.length ≤ sys.rtagWrite site), s)
    | some t =>
      let off := if append then t.length else offset
      (decide (text.length ≤ sys.rtagWrite site),
        { s with
          dir := s.dir.setRtag i (some (writeText t off wrote))
          proc := { s.proc with
            fds := Function.update s.proc.fds fd (some (.rtag i append (off+wrote.length))) } })
  | _, _ => (false, s)

/-- A position record does not change the queue. -/
@[simp] theorem rtagWriteItem_q (sys : Sys) (site : RtagSite) (s : Store) :
    (mqSmRtagWriteItem sys site s).2.q = s.q := by
  unfold mqSmRtagWriteItem
  split
  · dsimp only
    split <;> rfl
  · rfl

/-- Open the next position log, creating it if it is absent. An existing one
keeps its text and is written from its start. -/
def mqSmRtagOpenNextFile (sys : Sys) (i : ℕ) (dir : Dir) (proc : Proc) : Option ℕ × Dir × Proc :=
  if sys.rtagOpen i then
    (some proc.next, dir.setRtag i (some ((dir.rtag i).getD [])), proc.openFd (.rtag i false 0))
  else (none, dir, proc)

/-- Open an existing position log for appending. A log whose size is not
positive as a 32-bit integer is refused. -/
def mqSmRtagOpenFile (sys : Sys) (i : ℕ) (dir : Dir) (proc : Proc) : Option (List Char × Proc) :=
  match dir.rtag i with
  | none => none
  | some t =>
    if toI32 t.length ≤ 0 then none
    else if sys.rtagOpen i then some (t, proc.openFd (.rtag i true 0))
    else none

/-- Unsigned 32-bit value of a digit column; any other character is refused. -/
def strToNum (s : List Char) : Option ℕ :=
  s.foldl (fun num c => num.bind fun n =>
    if c.isDigit then some (u32 (n*10+(c.toNat - '0'.toNat))) else none) (some 0)

/-- Bounds a restored record has to meet. -/
def checkRtagItem (conf : UcmqConf) (item : RtagItem) : Bool :=
  item.rcount ≤ maxDbFileSize conf/12 ∧ item.rpos ≤ maxDbFileSize conf ∧
    item.wpos ≤ maxDbFileSize conf

/-- Column k of a record line. -/
def rtagColumn (token : List Char) (k : ℕ) : List Char := (token.drop (10*k)).take 10

/-- Store the six columns of a line one by one. A bad column stops the parse;
the columns before it stay stored. -/
def parseRtagColumns (item : RtagItem) (token : List Char) : Bool × RtagItem :=
  match strToNum (rtagColumn token 0) with
  | none => (false, item)
  | some rcount =>
    let item := { item with rcount := rcount }
    match strToNum (rtagColumn token 1) with
    | none => (false, item)
    | some rpos =>
      let item := { item with rpos := rpos }
      match strToNum (rtagColumn token 2) with
      | none => (false, item)
      | some wpos =>
        let item := { item with wpos := wpos }
        match strToNum (rtagColumn token 3) with
        | none => (false, item)
        | some maxqueue =>
          let item := { item with maxqueue := maxqueue }
          match strToNum (rtagColumn token 4) with
          | none => (false, item)
          | some delay =>
            let item := { item with delay := delay }
            match strToNum (rtagColumn token 5) with
            | none => (false, item)
            | some wlock => (true, { item with wlock := toI32 wlock })

/-- Try the lines of a buffer in order. Short lines are skipped, and so are
lines out of bounds; a line with a bad column ends the parse. -/
def parseRtagTokens (conf : UcmqConf) : RtagItem → List (List Char) → Bool × RtagItem
  | item, [] => (false, item)
  | item, token :: tokens =>
    if 60 ≤ token.length then
      match parseRtagColumns item token with
      | (false, item) => (false, item)
      | (true, item) =>
        if checkRtagItem conf item then (true, item) else parseRtagTokens conf item tokens
    else parseRtagTokens conf item tokens

/-- Parse a buffer up to its terminator. -/
def parseRtagItem (conf : UcmqConf) (item : RtagItem) (rtagStr : List Char) : Bool × RtagItem :=
  parseRtagTokens conf item (strtok '\n' [] (rtagStr.takeWhile (· ≠ '\x00')))

/-- Values used when no record can be read. -/
def rtagFallback (conf : UcmqConf) : RtagItem :=
  ⟨0, 0, maxDbFileSize conf, conf.defMaxQueue, conf.defDelay, 0⟩

/-- Walk back through the log, i records from its end. A record other than the
last one gives up the write position. -/
def rtagReadLoop (conf : UcmqConf) (t : List Char) : ℕ → ℕ → RtagItem → RtagItem
  | 0, _, _ => rtagFallback conf
  | fuel+1, i, item =>
    let offset := if t.length < i*61 then -1 else toI32 (t.length-i*61 : ℕ)
    if offset < 0 then rtagFallback conf
    else
      let line := (t.drop (t.length-i*61)).take 122
      if 61 ≤ line.length then
        match parseRtagItem conf item line with
        | (true, item) => if 1 < i then { item with wpos := maxDbFileSize conf } else item
        | (false, item) => rtagReadLoop conf t fuel (i+1) item
      else rtagReadLoop conf t fuel (i+1) item

/-- Restore the persisted fields from the text of a log. The walk leaves the
text after at most one step for each record. -/
def mqSmRtagReadItem (conf : UcmqConf) (t : List Char) (q : MqQueue) : MqQueue :=
  setRtagItem q (rtagReadLoop conf t (t.length/61+2) 1 (rtagItem q))

/-- Columns of a record in the ranges of the queue's field types. -/
structure RtagItem.Typed (item : RtagItem) : Prop where
  rcount : item.rcount < 2^32
  rpos : item.rpos < 2^32
  wpos : item.wpos < 2^32
  maxqueue : item.maxqueue < 2^32
  delay : item.delay < 2^32
  wlock_ge : -2^31 ≤ item.wlock
  wlock_lt : item.wlock < 2^31

/-- A column has ten characters. -/
theorem length_column {n : ℕ} (h : n < 2^32) : (padDec 10 n).length = 10 :=
  length_padDec (by decide) (by omega)

/-- A lock is written as a 32-bit number. -/
theorem wlock_column_lt (w : ℤ) : (w%2^32).toNat < 2^32 := by
  have := Int.emod_lt_of_pos w (by decide : (0 : ℤ) < 2^32)
  have := Int.emod_nonneg w (by decide : (2^32 : ℤ) ≠ 0)
  omega

/-- Every record has the same length. -/
theorem length_rtagText {item : RtagItem} (h : item.Typed) : (rtagText item).length = 61 := by
  simp only [rtagText, List.length_append, length_column h.rcount, length_column h.rpos,
    length_column h.wpos, length_column h.maxqueue, length_column h.delay,
    length_column (wlock_column_lt item.wlock), List.length_singleton]

/-- Writing at the end of a text appends. -/
theorem writeText_length (t u : List Char) : writeText t t.length u = t ++ u := by
  simp [writeText]

/-- One character of a column. -/
theorem strToNum_foldl {s : List Char} (h : ∀ c ∈ s, c.isDigit) {n : ℕ} (hn : n < 2^32) :
    s.foldl (fun num c => num.bind fun n =>
      if c.isDigit then some (u32 (n*10+(c.toNat - '0'.toNat))) else none) (some n) =
      some (u32 (Nat.ofDigitChars 10 s n)) := by
  induction s generalizing n with
  | nil => simp [u32_of_lt hn]
  | cons c s ih =>
    have hdig := h c (by simp)
    have hwrap : u32 (Nat.ofDigitChars 10 s (u32 (n*10+(c.toNat - '0'.toNat)))) =
        u32 (Nat.ofDigitChars 10 s (n*10+(c.toNat - '0'.toNat))) := by
      have hexp : ∀ k, Nat.ofDigitChars 10 s k = 10^s.length*k+decValue s := fun k =>
        Nat.ofDigitChars_eq_ofDigitChars_zero
      rw [hexp (u32 _), hexp (n*10+_)]
      simp only [u32, Nat.add_mod, Nat.mul_mod, Nat.mod_mod]
    simp only [List.foldl_cons, Option.bind_some, hdig, if_true]
    rw [ih (fun x hx => h x (List.mem_cons_of_mem _ hx)) (u32_lt _), hwrap, Nat.ofDigitChars_cons,
      Nat.mul_comm n 10]

/-- A column of digits is read modulo 2^32. -/
theorem strToNum_digits {s : List Char} (h : ∀ c ∈ s, c.isDigit) :
    strToNum s = some (u32 (decValue s)) :=
  strToNum_foldl h (by decide)

/-- Any other column is refused. -/
theorem strToNum_none {s : List Char} (h : ¬∀ c ∈ s, c.isDigit) : strToNum s = none := by
  have hstay : ∀ s : List Char, s.foldl (fun num c => num.bind fun n =>
      if c.isDigit then some (u32 (n*10+(c.toNat - '0'.toNat))) else none) none = none := by
    intro s
    induction s with
    | nil => rfl
    | cons c s ih => exact ih
  have hfold : ∀ n : ℕ, s.foldl (fun num c => num.bind fun n =>
      if c.isDigit then some (u32 (n*10+(c.toNat - '0'.toNat))) else none) (some n) = none := by
    induction s with
    | nil => exact absurd (by simp) h
    | cons c s ih =>
      intro n
      rw [List.foldl_cons, Option.bind_some]
      by_cases hc : c.isDigit = true
      · rw [if_pos hc]
        exact ih (fun hs => h (by simpa [hc] using hs)) _
      · rw [if_neg hc]
        exact hstay s
  exact hfold 0

/-- A printed 32-bit column reads back as its value. -/
theorem strToNum_padDec {n : ℕ} (h : n < 2^32) : strToNum (padDec 10 n) = some n := by
  rw [strToNum_digits fun _ => isDigit_padDec, decValue_padDec, u32_of_lt h]

/-- The signed lock survives printing as unsigned and narrowing back. -/
theorem toI32_wlock {w : ℤ} (hl : -2^31 ≤ w) (hu : w < 2^31) : toI32 ((w%2^32).toNat : ℤ) = w := by
  have hn := Int.emod_nonneg w (by decide : (2^32 : ℤ) ≠ 0)
  rw [Int.toNat_of_nonneg hn]
  unfold toI32
  rw [Int.bmod_def]
  split <;> omega

/-- A column between others. -/
theorem rtagColumn_eq {a b c : List Char} {k : ℕ} (ha : a.length = 10*k) (hb : b.length = 10) :
    rtagColumn (a ++ b ++ c) k = b := by
  rw [rtagColumn, List.append_assoc, List.drop_left' ha, List.take_left' hb]

/-- The columns of a written line restore the record. -/
theorem parseRtagColumns_text {item : RtagItem} (h : item.Typed) (old : RtagItem) :
    parseRtagColumns old (rtagText item).dropLast = (true, item) := by
  have hc0 := length_column h.rcount
  have hc1 := length_column h.rpos
  have hc2 := length_column h.wpos
  have hc3 := length_column h.maxqueue
  have hc4 := length_column h.delay
  have hc5 := length_column (wlock_column_lt item.wlock)
  have hline : (rtagText item).dropLast = padDec 10 item.rcount ++ padDec 10 item.rpos ++
      padDec 10 item.wpos ++ padDec 10 item.maxqueue ++ padDec 10 item.delay ++
      padDec 10 (item.wlock%2^32).toNat := by
    rw [rtagText, List.dropLast_concat]
  have e0 : rtagColumn (rtagText item).dropLast 0 = padDec 10 item.rcount := by
    rw [hline]
    simp only [List.append_assoc]
    exact rtagColumn_eq (a := []) rfl hc0
  have e1 : rtagColumn (rtagText item).dropLast 1 = padDec 10 item.rpos := by
    rw [hline]
    simp only [List.append_assoc _ _ (padDec 10 _)]
    rw [← List.append_assoc]
    exact rtagColumn_eq (by omega) hc1
  have e2 : rtagColumn (rtagText item).dropLast 2 = padDec 10 item.wpos := by
    rw [hline, List.append_assoc _ (padDec 10 item.maxqueue), List.append_assoc _ (_ ++ _)]
    exact rtagColumn_eq (by simp only [List.length_append]; omega) hc2
  have e3 : rtagColumn (rtagText item).dropLast 3 = padDec 10 item.maxqueue := by
    rw [hline, List.append_assoc _ (padDec 10 item.delay)]
    exact rtagColumn_eq (by simp only [List.length_append]; omega) hc3
  have e4 : rtagColumn (rtagText item).dropLast 4 = padDec 10 item.delay := by
    rw [hline]
    exact rtagColumn_eq (by simp only [List.length_append]; omega) hc4
  have e5 : rtagColumn (rtagText item).dropLast 5 = padDec 10 (item.wlock%2^32).toNat := by
    have he := rtagColumn_eq (a := padDec 10 item.rcount ++ padDec 10 item.rpos ++
      padDec 10 item.wpos ++ padDec 10 item.maxqueue ++ padDec 10 item.delay) (c := []) (k := 5)
      (by simp only [List.length_append]; omega) hc5
    rwa [List.append_nil, ← hline] at he
  simp only [parseRtagColumns, e0, e1, e2, e3, e4, e5, strToNum_padDec h.rcount,
    strToNum_padDec h.rpos, strToNum_padDec h.wpos, strToNum_padDec h.maxqueue,
    strToNum_padDec h.delay, strToNum_padDec (wlock_column_lt item.wlock),
    toI32_wlock h.wlock_ge h.wlock_lt]

/-- Different records are written differently. -/
theorem rtagText_injective {item item' : RtagItem} (h : item.Typed) (h' : item'.Typed)
    (heq : rtagText item = rtagText item') : item = item' := by
  have hparse := parseRtagColumns_text h item
  rw [heq, parseRtagColumns_text h' item] at hparse
  exact (Prod.mk.inj hparse).2.symm

/-- A buffer that is one written line restores its record. -/
theorem parseRtagItem_text {conf : UcmqConf} {item : RtagItem} (h : item.Typed)
    (hc : checkRtagItem conf item = true) (old : RtagItem) :
    parseRtagItem conf old (rtagText item) = (true, item) := by
  have hdig : ∀ c ∈ (rtagText item).dropLast, c.isDigit := by
    intro c hcm
    rw [rtagText, List.dropLast_concat] at hcm
    simp only [List.mem_append] at hcm
    rcases hcm with ((((h0 | h1) | h2) | h3) | h4) | h5
    all_goals exact isDigit_padDec ‹_›
  have hsplit : rtagText item = (rtagText item).dropLast ++ ['\n'] := by
    conv_lhs => rw [rtagText]
    rw [rtagText, List.dropLast_concat]
  have hlen : (rtagText item).dropLast.length = 60 := by
    rw [List.length_dropLast, length_rtagText h]
  have hnul : (rtagText item).takeWhile (· ≠ '\x00') = rtagText item := by
    rw [List.takeWhile_eq_self_iff]
    intro c hcm
    rw [hsplit] at hcm
    rcases List.mem_append.mp hcm with hd | hn
    · have := hdig c hd
      simp only [decide_eq_true_eq]
      rintro rfl
      simp at this
    · rw [List.mem_singleton.mp hn]
      decide
  have hsep : '\n' ∉ (rtagText item).dropLast := by
    intro hm
    have := hdig _ hm
    simp at this
  have htok : strtok '\n' [] (rtagText item) = [(rtagText item).dropLast] := by
    conv_lhs => rw [hsplit]
    rw [strtok_run hsep, List.nil_append, strtok, if_pos rfl, if_neg, strtok, if_pos rfl]
    intro hn
    simp [hn] at hlen
  rw [parseRtagItem, hnul, htok, parseRtagTokens, if_pos (by omega), parseRtagColumns_text h]
  simp only [hc, if_true]

/-- A log that ends with a record restores exactly that record, as long as the
offset of the record is not negative as a signed integer. -/
theorem rtagReadLoop_seek {conf : UcmqConf} {item : RtagItem} (h : item.Typed)
    (hc : checkRtagItem conf item = true) {t : List Char} (hseek : 0 ≤ toI32 t.length) (fuel : ℕ)
    (old : RtagItem) : rtagReadLoop conf (t ++ rtagText item) (fuel+1) 1 old = item := by
  have hlen := length_rtagText h
  have hoff : (t ++ rtagText item).length-1*61 = t.length := by
    rw [List.length_append]
    omega
  have hline : ((t ++ rtagText item).drop t.length).take 122 = rtagText item := by
    rw [List.drop_left, List.take_of_length_le (by omega)]
  have hnonneg : ¬(if (t ++ rtagText item).length < 1*61 then -1
      else toI32 ((t ++ rtagText item).length-1*61 : ℕ)) < 0 := by
    rw [if_neg (by rw [List.length_append]; omega), hoff]
    omega
  rw [rtagReadLoop]
  simp only
  rw [if_neg hnonneg, hoff, hline, if_pos (by omega), parseRtagItem_text h hc]
  rfl

/-- A log of fewer than 2^31 characters that ends with a record restores
exactly that record. -/
theorem rtagReadLoop_last {conf : UcmqConf} {item : RtagItem} (h : item.Typed)
    (hc : checkRtagItem conf item = true) (t : List Char)
    (ht : (t ++ rtagText item).length < 2^31) (fuel : ℕ) (old : RtagItem) :
    rtagReadLoop conf (t ++ rtagText item) (fuel+1) 1 old = item := by
  rw [List.length_append] at ht
  refine rtagReadLoop_seek h hc ?_ fuel old
  rw [toI32_of_bounds (by omega) (by omega)]
  omega

end Ucmq.StoreRtag
