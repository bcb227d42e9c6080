import Ucmq.PositionLog

/-!
# What the position log parser accepts

A parse takes the first long line whose columns, reduced to 32 bits, meet the
bounds, and stops at a line with a column that is no number. The columns have
ten digits, so they can spell values that the reduction changes; nothing else
separates the accepted lines from the lines that are written.
-/

namespace Ucmq.RtagAcceptance

open DecimalText StoreConfig StoreState StoreRtag PositionLog

/-- The lines of a buffer, as the parser takes them one by one. -/
def rtagLines (s : List Char) : List (List Char) := strtok '\n' [] (s.takeWhile (· ≠ '\x00'))

/-- The six columns of a line are digits. -/
def DigitColumns (token : List Char) : Prop := ∀ k < 6, ∀ c ∈ rtagColumn token k, c.isDigit = true

instance (token : List Char) : Decidable (DigitColumns token) :=
  inferInstanceAs (Decidable (∀ k < 6, ∀ c ∈ rtagColumn token k, c.isDigit = true))

/-- Decimal value of a column. -/
def columnValue (token : List Char) (k : ℕ) : ℕ := decValue (rtagColumn token k)

/-- The record spelled by the columns of a line, each reduced to 32 bits. -/
def wrappedItem (token : List Char) : RtagItem :=
  ⟨u32 (columnValue token 0), u32 (columnValue token 1), u32 (columnValue token 2),
    u32 (columnValue token 3), u32 (columnValue token 4), toI32 (u32 (columnValue token 5))⟩

/-- The line a parse accepts, if there is one. -/
def acceptedLine (conf : UcmqConf) : List (List Char) → Option (List Char)
  | [] => none
  | token :: tokens =>
    if 60 ≤ token.length then
      if DigitColumns token then
        if checkRtagItem conf (wrappedItem token) then some token else acceptedLine conf tokens
      else none
    else acceptedLine conf tokens

/-- The bounds that check_rtag_item documents, those included that its types
make vacuous. -/
structure RtagBounds (conf : UcmqConf) (item : RtagItem) : Prop where
  rcount : item.rcount ≤ maxDbFileSize conf/12
  rpos : item.rpos ≤ maxDbFileSize conf
  wpos : item.wpos ≤ maxDbFileSize conf
  maxqueue : item.maxqueue ≤ 4294967295
  delay : item.delay ≤ 4294967295
  wlock : item.wlock ≤ 2147483647

variable {conf : UcmqConf} {token : List Char} {tokens : List (List Char)} {old item : RtagItem}

/-- Columns of digits are read as numbers that wrap. -/
theorem columns_of_digits (h : DigitColumns token) (old : RtagItem) :
    parseRtagColumns old token = (true, wrappedItem token) := by
  have hcol : ∀ k < 6, strToNum (rtagColumn token k) = some (u32 (columnValue token k)) :=
    fun k hk =>
    strToNum_digits (h k hk)
  simp only [parseRtagColumns, hcol 0 (by decide), hcol 1 (by decide), hcol 2 (by decide),
    hcol 3 (by decide), hcol 4 (by decide), hcol 5 (by decide), wrappedItem]

/-- A column that is no number ends the parse. -/
theorem columns_of_not_digits (h : ¬DigitColumns token) (old : RtagItem) :
    (parseRtagColumns old token).1 = false := by
  have hbad : ∃ k < 6, strToNum (rtagColumn token k) = none := by
    unfold DigitColumns at h
    push Not at h
    obtain ⟨k, hk, c, hc, hd⟩ := h
    exact ⟨k, hk, strToNum_none fun hall => hd (hall c hc)⟩
  obtain ⟨k, hk, hnone⟩ := hbad
  unfold parseRtagColumns
  obtain rfl | rfl | rfl | rfl | rfl | rfl : k = 0 ∨ k = 1 ∨ k = 2 ∨ k = 3 ∨ k = 4 ∨ k = 5 := by
    omega
  all_goals
    simp only [hnone]
    repeat' split
    all_goals rfl

/-- A parse succeeds exactly on an accepted line, whatever was stored before. -/
theorem parseRtagTokens_iff (old : RtagItem) :
    parseRtagTokens conf old tokens = (true, item) ↔
      ∃ token, acceptedLine conf tokens = some token ∧ item = wrappedItem token := by
  induction tokens generalizing old with
  | nil => simp [parseRtagTokens, acceptedLine]
  | cons token tokens ih =>
    rw [parseRtagTokens, acceptedLine]
    by_cases hlen : 60 ≤ token.length
    · rw [if_pos hlen, if_pos hlen]
      by_cases hd : DigitColumns token
      · rw [columns_of_digits hd, if_pos hd]
        by_cases hc : checkRtagItem conf (wrappedItem token) = true
        · simp [hc, eq_comm]
        · simp only [hc]
          exact ih _
      · have hfst := columns_of_not_digits hd old
        obtain ⟨item', hcols⟩ : ∃ item', parseRtagColumns old token = (false, item') :=
          ⟨_, Prod.ext hfst rfl⟩
        simp [hcols, hd]
    · rw [if_neg hlen, if_neg hlen]
      exact ih old

/-- The accepted line is a line of the buffer, long enough and within bounds. -/
theorem acceptedLine_spec (h : acceptedLine conf tokens = some token) :
    token ∈ tokens ∧ 60 ≤ token.length ∧ DigitColumns token ∧
      checkRtagItem conf (wrappedItem token) = true := by
  induction tokens with
  | nil => cases h
  | cons t tokens ih =>
    rw [acceptedLine] at h
    split_ifs at h with hlen hd hc
    · cases h
      exact ⟨List.mem_cons_self, hlen, hd, hc⟩
    · exact (ih h).imp_left (List.mem_cons_of_mem t)
    · exact (ih h).imp_left (List.mem_cons_of_mem t)

/-- The checked values meet the documented bounds. -/
theorem bounds_of_check (h : checkRtagItem conf (wrappedItem token) = true) :
    RtagBounds conf (wrappedItem token) := by
  simp only [checkRtagItem, decide_eq_true_eq] at h
  have hu : ∀ k, u32 (columnValue token k) ≤ 4294967295 := fun k => by
    have := u32_lt (columnValue token k)
    omega
  have hw : (wrappedItem token).wlock ≤ 2147483647 := by
    simp only [wrappedItem, toI32, Int.bmod_def]
    split <;> omega
  exact ⟨h.1, h.2.1, h.2.2, hu 3, hu 4, hw⟩

/-- The first six columns of a line. -/
theorem take_eq_columns (token : List Char) :
    token.take 60 = rtagColumn token 0 ++ rtagColumn token 1 ++ rtagColumn token 2 ++
      rtagColumn token 3 ++ rtagColumn token 4 ++ rtagColumn token 5 := by
  have hstep : ∀ k, token.take (10*(k+1)) = token.take (10*k) ++ rtagColumn token k := fun k => by
    rw [Nat.mul_add, List.take_add]
    rfl
  have h0 : token.take (10*0) = [] := rfl
  rw [show 60 = 10*(5+1) from rfl, hstep 5, hstep 4, hstep 3, hstep 2, hstep 1, hstep 0, h0,
    List.nil_append]

/-- A column has ten characters. -/
theorem length_rtagColumn (h : 60 ≤ token.length) {k : ℕ} (hk : k < 6) :
    (rtagColumn token k).length = 10 := by
  rw [rtagColumn, List.length_take, List.length_drop]
  omega

/-- Digit strings of one length are told apart by their values. -/
theorem eq_of_decValue {s t : List Char} (hl : s.length = t.length) (hs : ∀ c ∈ s, c.isDigit = true)
    (ht : ∀ c ∈ t, c.isDigit = true) (hv : decValue s = decValue t) : s = t := by
  by_cases hlt : s < t
  · have := decValue_lt_of_lt hl hs ht hlt
    omega
  · rcases List.le_iff_lt_or_eq.mp (List.not_lt.mp hlt) with hgt | heq
    · have := decValue_lt_of_lt hl.symm ht hs hgt
      omega
    · exact heq.symm

/-- A column of ten digits is the printed form of a 32-bit value exactly when it
spells no larger value. -/
theorem padDec_u32_eq_iff {s : List Char} (hl : s.length = 10) (hs : ∀ c ∈ s, c.isDigit = true) :
    s = padDec 10 (u32 (decValue s)) ↔ decValue s < 2^32 := by
  constructor
  · intro h
    have hv := congrArg decValue h
    rw [decValue_padDec] at hv
    rw [hv]
    exact u32_lt _
  · intro h
    refine eq_of_decValue ?_ hs (fun _ => isDigit_padDec) ?_
    · rw [hl, length_column (u32_lt _)]
    · rw [decValue_padDec, u32_of_lt h]

/-- The lock column prints what was read from it. -/
theorem wlock_column (n : ℕ) : (toI32 (u32 n)%2^32).toNat = u32 n := by
  have hmod : toI32 (u32 n)%2^32 = ((u32 n : ℕ) : ℤ)%2^32 := Int.bmod_emod
  have := u32_lt n
  rw [hmod]
  omega

/-- The columns of an accepted line are the printed form of the stored record
exactly when no column spells a larger value. -/
theorem take_eq_digits_iff (hlen : 60 ≤ token.length) (hd : DigitColumns token) :
    token.take 60 = digits (wrappedItem token) ↔ ∀ k < 6, columnValue token k < 2^32 := by
  have hcol : ∀ k < 6, rtagColumn token k = padDec 10 (u32 (columnValue token k)) ↔
      columnValue token k < 2^32 := fun k hk =>
    padDec_u32_eq_iff (length_rtagColumn hlen hk) (hd k hk)
  have hl : ∀ k < 6, (rtagColumn token k).length = (padDec 10 (u32 (columnValue token k))).length :=
    fun k hk => by rw [length_rtagColumn hlen hk, length_column (u32_lt _)]
  have hprint : digits (wrappedItem token) = padDec 10 (u32 (columnValue token 0)) ++
      padDec 10 (u32 (columnValue token 1)) ++ padDec 10 (u32 (columnValue token 2)) ++
      padDec 10 (u32 (columnValue token 3)) ++ padDec 10 (u32 (columnValue token 4)) ++
      padDec 10 (u32 (columnValue token 5)) := by
    rw [digits, rtagText, List.dropLast_concat]
    simp only [wrappedItem, wlock_column]
  rw [take_eq_columns, hprint]
  constructor
  · intro h k hk
    obtain ⟨h, h5⟩ := List.append_inj' h (hl 5 (by decide))
    obtain ⟨h, h4⟩ := List.append_inj' h (hl 4 (by decide))
    obtain ⟨h, h3⟩ := List.append_inj' h (hl 3 (by decide))
    obtain ⟨h, h2⟩ := List.append_inj' h (hl 2 (by decide))
    obtain ⟨h0, h1⟩ := List.append_inj' h (hl 1 (by decide))
    apply (hcol k hk).mp
    obtain rfl | rfl | rfl | rfl | rfl | rfl : k = 0 ∨ k = 1 ∨ k = 2 ∨ k = 3 ∨ k = 4 ∨ k = 5 := by
      omega
    all_goals assumption
  · intro h
    have he : ∀ k < 6, rtagColumn token k = padDec 10 (u32 (columnValue token k)) := fun k hk =>
      (hcol k hk).mpr (h k hk)
    rw [← he 0 (by decide), ← he 1 (by decide), ← he 2 (by decide), ← he 3 (by decide),
      ← he 4 (by decide), ← he 5 (by decide)]

/-- Whatever is stored by a parse that succeeds was printed by a write: it is
within bounds, and the line it was taken from starts with its printed form. -/
def StoresPrinted (conf : UcmqConf) (s : List Char) : Prop :=
  ∀ old item, parseRtagItem conf old s = (true, item) →
    (∃ token ∈ rtagLines s, acceptedLine conf (rtagLines s) = some token ∧
      token.take 60 = digits item) ∧ RtagBounds conf item

/-- A buffer is parsed as the writer's output exactly when no column of the
accepted line exceeds 32 bits. -/
theorem stores_printed_iff (conf : UcmqConf) (s : List Char) :
    StoresPrinted conf s ↔ ∀ token, acceptedLine conf (rtagLines s) = some token →
      ∀ k < 6, columnValue token k < 2^32 := by
  have hparse : ∀ old item, parseRtagItem conf old s = (true, item) ↔
      ∃ token, acceptedLine conf (rtagLines s) = some token ∧ item = wrappedItem token :=
    fun old _ => parseRtagTokens_iff old
  constructor
  · intro h token hacc
    obtain ⟨-, hlen, hd, -⟩ := acceptedLine_spec hacc
    obtain ⟨⟨token', -, hacc', heq⟩, -⟩ :=
      h (wrappedItem token) _ ((hparse _ _).mpr ⟨token, hacc, rfl⟩)
    rw [hacc] at hacc'
    cases hacc'
    exact (take_eq_digits_iff hlen hd).mp heq
  · intro h old item hp
    obtain ⟨token, hacc, rfl⟩ := (hparse _ _).mp hp
    obtain ⟨hmem, hlen, hd, hc⟩ := acceptedLine_spec hacc
    exact ⟨⟨token, hmem, hacc, (take_eq_digits_iff hlen hd).mpr (h token hacc)⟩, bounds_of_check hc⟩

/-- A line whose first column is 2^32 stores the record of zeros, which no line
of the buffer spells. -/
theorem overflow_accepted :
    ∃ item, parseRtagItem UcmqConf.least ⟨1, 1, 1, 1, 1, 1⟩
        ("4294967296".toList ++ List.replicate 50 '0' ++ ['
']) = (true, item) ∧
      ¬∃ token ∈ rtagLines ("4294967296".toList ++ List.replicate 50 '0' ++ ['
']),
        token.take 60 = digits item :=
  ⟨⟨0, 0, 0, 0, 0, 0⟩, by decide +kernel, by decide +kernel⟩

end Ucmq.RtagAcceptance
