import Ucmq.FailureSpec
import Ucmq.IniText

/-!
# Reading any file

Whatever is in a configuration file, ini_load stays in its arrays: a section and
a key of full length are as long as their array, and neither a key nor a value
that is trimmed is made of space. What it returns are the expanded values of the
keys that it read, or NULL.
-/

namespace Ucmq.IniSafety

open DecimalText FailureSpec IniMap IniVariables IniExpansion ExpansionRuns MacroExpansion IniText

variable {st : LoadState} {s chunk whr name key val : List Char} {l : ℕ}

/-- No fault is allowed. -/
abbrev never : LoadFault → Prop := fun _ => False

/-- Without allowed failures there is a value. -/
theorem exists_of_never {α : Type} {x : Except LoadFault α} {P : α → Prop} (h : Ensures never x P) :
    ∃ a, x = .ok a ∧ P a := by
  cases x with
  | error e => exact h.elim
  | ok a => exact ⟨a, rfl, h⟩

/-- A key and a value as they are read. -/
structure Read (c : Call) : Prop where
  /-- A key is not empty. -/
  key : c.key ≠ []
  /-- It is a section, a colon and a token at most. -/
  length : c.key.length ≤ 2*tokenSize+1
  /-- It is a C string. -/
  ends : '\x00' ∉ c.key
  /-- There is no space around it. -/
  trimmed : Trimmed c.key
  /-- A value is a C string of a token at most. -/
  fits : Fits (tokenSize+1) c.value
  /-- There is no space around it. -/
  value : Trimmed c.value

/-- What stands in front of the keys: nothing, or a section with its colon. -/
def Opened (sec : List Char) : Prop :=
  sec = [] ∨ ∃ name, sec = name ++ [':'] ∧ name.length ≤ tokenSize ∧ '\x00' ∉ name

/-- The state between two lines. -/
structure Loaded (st : LoadState) : Prop where
  line : st.line.length = lineSize
  sec : Opened st.sec
  table : addAll st.calls = .ok st.table
  read : ∀ c ∈ st.calls, Read c

/-- The empty text is trimmed. -/
theorem Trimmed.nil : Trimmed [] := ⟨by simp, by simp⟩

/-- A section has room in its array. -/
theorem Opened.length_le (h : Opened st.sec) : st.sec.length ≤ tokenSize+1 := by
  rcases h with h | ⟨name, h, hlen, -⟩
  · simp [h]
  · rw [h, List.length_append, List.length_singleton]
    omega

/-- It holds no zero byte. -/
theorem Opened.ends (h : Opened st.sec) : '\x00' ∉ st.sec := by
  rcases h with h | ⟨name, h, -, hends⟩
  · simp [h]
  · simpa [h] using hends

/-- A text that has room is read without a fault. -/
theorem inArray_ensures {size : ℕ} (h : s.length < size) :
    Ensures never (inArray size s) (s = ·) := by
  rw [inArray, if_pos h]
  rfl

/-- A text with more than space is trimmed. -/
theorem trimStr_ensures (h : ∃ c ∈ s, isSpace c = false) :
    Ensures never (trimStr s true) fun t => Trimmed t ∧ t <:+: s ∧ t ≠ [] := by
  rw [trimStr_ends h]
  refine .ok ⟨trimmed_ends s, trimmed_part _ s, fun hnil => ?_⟩
  have hall := List.rdropWhile_eq_nil_iff.mp hnil
  obtain ⟨c, u, hu⟩ := List.exists_cons_of_ne_nil (dropWhile_ne_nil h)
  have hspace := head_dropWhile isSpace s c (by rw [hu]; rfl)
  rw [hall c (by rw [hu]; exact List.mem_cons_self)] at hspace
  exact absurd hspace (by decide)

/-- A value is empty, or does not begin with space. -/
theorem trimStr_value (h : ∀ c ∈ s.head?, isSpace c = false) :
    Ensures never (trimStr s true) fun t => Trimmed t ∧ t <:+: s := by
  cases s with
  | nil => exact .ok ⟨Trimmed.nil, List.infix_refl _⟩
  | cons c s =>
    exact (trimStr_ensures ⟨c, List.mem_cons_self, h c rfl⟩).mono fun t ht => ⟨ht.1, ht.2.1⟩

/-- The record of a key takes one value more until it has too many. -/
theorem addKeyValue_ensures {calls : List Call} {table : List IniKv} (h : addAll calls = .ok table)
    (hroom : (added calls key).length ≤ 2^15) (val : List Char) (l : ℕ) :
    Ensures never ((addKeyValue table key val l).mapError .record) fun table' =>
      addAll (calls ++ [⟨key, val, l⟩]) = .ok table' := by
  obtain ⟨table₀, h₀, hkeeps⟩ | ⟨⟨e, he⟩, -⟩ := addAll_cases calls
  · obtain rfl : table = table₀ := Except.ok.inj (h.symm.trans h₀)
    obtain ⟨table', hadd, -⟩ | ⟨-, hlen⟩ := hkeeps.step ⟨key, val, l⟩
    · rw [hadd]
      refine .ok ?_
      rw [addAll_concat, h]
      exact hadd
    · dsimp only at hlen
      omega
  · rw [h] at he
    exact absurd he (by simp)

/-- A line that begins a section. -/
theorem enter_ensures (h : Loaded st) (hlen : name.length ≤ tokenSize) (hends : '\x00' ∉ name) :
    Ensures never (st.enter name) fun st' => Loaded st' ∧ st'.calls = st.calls := by
  unfold LoadState.enter
  refine (inArray_ensures (by omega)).bind ?_
  rintro _ rfl
  refine (inArray_ensures (by rw [List.length_append, List.length_singleton]; omega)).bind ?_
  rintro _ rfl
  exact .ok ⟨⟨h.line, .inr ⟨name, rfl, hlen, hends⟩, h.table, h.read⟩, rfl⟩

/-- A line with a key. -/
theorem add_ensures (h : Loaded st) (hkey : ∃ c ∈ key, isSpace c = false)
    (hlen : key.length ≤ tokenSize) (hends : '\x00' ∉ key) (hval : Fits (tokenSize+1) val)
    (hfirst : ∀ c ∈ val.head?, isSpace c = false)
    (hroom : ∀ key, (added st.calls key).length ≤ 2^15) :
    Ensures never (st.add key val) fun st' => Loaded st' ∧
    st'.calls.length = st.calls.length+1 := by
  have hsec := h.sec.length_le
  have hlen' : (st.sec ++ key).length ≤ 2*tokenSize+1 := by
    rw [List.length_append]
    omega
  have hmore : ∃ c ∈ st.sec ++ key, isSpace c = false := by
    obtain ⟨c, hc, hspace⟩ := hkey
    exact ⟨c, List.mem_append_right _ hc, hspace⟩
  have hends' : '\x00' ∉ st.sec ++ key := by simpa using ⟨h.sec.ends, hends⟩
  unfold LoadState.add
  refine (inArray_ensures (by omega)).bind ?_
  rintro _ rfl
  refine (inArray_ensures hval.2).bind ?_
  rintro _ rfl
  refine (trimStr_ensures hmore).bind ?_
  rintro curKey ⟨htrim, hpart, hnil⟩
  refine (trimStr_value hfirst).bind ?_
  rintro curVal ⟨htrim', hpart'⟩
  refine (addKeyValue_ensures h.table (hroom curKey) curVal st.lineNum).bind fun table htable =>
    .ok ⟨?_, ?_⟩
  · refine ⟨h.line, h.sec, htable, fun c hc => ?_⟩
    rcases List.mem_append.mp hc with hc | hc
    · exact h.read c hc
    · obtain rfl := List.mem_singleton.mp hc
      exact ⟨hnil, hpart.length_le.trans hlen', fun hm => hends' (hpart.subset hm), htrim,
        ⟨fun hm => hval.1 (hpart'.subset hm), hpart'.length_le.trans_lt hval.2⟩, htrim'⟩
  · rw [List.length_append, List.length_singleton]

/-- A line that is neither empty nor a comment. It adds one value at most. -/
theorem take_ensures (h : Loaded st) (hends : '\x00' ∉ whr)
    (hfirst : ∀ c ∈ whr.head?, isSpace c = false)
    (hroom : ∀ key, (added st.calls key).length ≤ 2^15) :
    Ensures never (st.take whr) fun st' => Loaded st' ∧ st'.calls.length ≤ st.calls.length+1 := by
  unfold LoadState.take
  cases hsection : scanSection whr with
  | some name =>
    obtain ⟨hlen, hsub⟩ := scanSection_spec hsection
    refine (enter_ensures h hlen fun hm => hends (hsub hm)).mono fun st' hst' => ⟨hst'.1, ?_⟩
    rw [hst'.2]
    exact Nat.le_succ _
  | none =>
    cases hpair : scanPair whr with
    | none => exact .ok ⟨h, Nat.le_succ _⟩
    | some pair =>
      obtain ⟨r, hr, rfl⟩ := Option.map_eq_some_iff.mp hpair
      obtain ⟨hnil, hlen, hbegin⟩ := scanSet_spec hr
      obtain ⟨hlen', hsub, hfirst'⟩ := scanValue_spec r.2
      have hrest : r.2 ⊆ whr := (scanSet_rest hr).subset
      obtain ⟨c, u, hu⟩ := List.exists_cons_of_ne_nil hnil
      have hspace : isSpace c = false := by
        obtain ⟨v, hv⟩ := hbegin
        refine hfirst c ?_
        rw [← hv, hu]
        rfl
      have hval : Fits (tokenSize+1) (scanValue r.2) :=
        ⟨fun hm => hends (hrest (hsub hm)), Nat.lt_succ_of_le hlen'⟩
      have hkey : ∃ c ∈ r.1, isSpace c = false := ⟨c, by rw [hu]; exact List.mem_cons_self, hspace⟩
      exact (add_ensures h hkey hlen (fun hm => hends (hbegin.subset hm)) hval hfirst' hroom).mono
        fun st' hst' => ⟨hst'.1, hst'.2.le⟩

/-- A line is copied into its array. -/
theorem store_line {line : List Char} (h : chunk.length < line.length) :
    ∃ junk, store line 0 (chunk ++ ['\x00']) = .ok (chunk ++ '\x00' :: junk) ∧
      (chunk ++ '\x00' :: junk).length = line.length := by
  have hlen : (chunk ++ ['\x00']).length = chunk.length+1 := by
    rw [List.length_append, List.length_singleton]
  refine ⟨line.drop (chunk.length+1), ?_, ?_⟩
  · rw [store, if_pos ⟨le_rfl, by omega⟩, hlen, List.append_assoc]
    simp
  · rw [List.length_append, List.length_cons, List.length_drop]
    omega

/-- One line adds one value at most. -/
theorem loadLine_ensures (h : Loaded st) (hlen : chunk.length < lineSize)
    (hroom : ∀ key, (added st.calls key).length ≤ 2^15) :
    Ensures never (loadLine st chunk) fun st' => Loaded st' ∧
    st'.calls.length ≤ st.calls.length+1 := by
  obtain ⟨junk, hstore, hsize⟩ := store_line (hlen.trans_le h.line.ge)
  have hends : '\x00' ∉ (strAt (chunk ++ '\x00' :: junk) 0).dropWhile isSpace := by
    intro hm
    have hall := List.mem_takeWhile_imp ((List.dropWhile_suffix _).subset hm)
    simp at hall
  have hloaded : ∀ n, Loaded { st with line := chunk ++ '\x00' :: junk, lineNum := n } :=
    fun n => ⟨hsize.trans h.line, h.sec, h.table, h.read⟩
  unfold loadLine
  rw [hstore]
  refine .ok_bind ?_
  rw [trimStr_start]
  refine .ok_bind ?_
  dsimp only
  split_ifs with hskip
  · exact .ok ⟨hloaded _, Nat.le_succ _⟩
  · exact take_ensures (hloaded _) hends (head_dropWhile _ _) hroom

/-- So do all lines in a row. -/
theorem foldlM_ensures {chunks : List (List Char)} (h : Loaded st)
    (hlen : ∀ l ∈ chunks, l.length < lineSize) (hroom : st.calls.length+chunks.length ≤ 2^15) :
    Ensures never (chunks.foldlM loadLine st) fun st' => Loaded st' := by
  induction chunks generalizing st with
  | nil => exact .ok h
  | cons chunk chunks ih =>
    rw [List.length_cons] at hroom
    rw [List.foldlM_cons]
    have hcount : ∀ key, (added st.calls key).length ≤ 2^15 := by
      intro key
      rw [added, List.length_map]
      exact (List.length_filter_le _ _).trans (by omega)
    refine (loadLine_ensures h (hlen chunk List.mem_cons_self) hcount).bind fun st' hst' => ?_
    refine ih hst'.1 (fun l hl => hlen l (List.mem_cons_of_mem _ hl)) ?_
    have := hst'.2
    omega

/-- The lines of a file are read into the records. -/
theorem loadLines_ensures {junk file : List Char} (hjunk : junk.length = lineSize)
    (hlines : (readLines (lineSize-1) [] file).length ≤ 2^15) :
    Ensures never (loadLines junk file) fun st => Loaded st := by
  refine foldlM_ensures ⟨hjunk, .inl rfl, rfl, by simp⟩ (fun l hl => ?_) (by simpa using hlines)
  exact Nat.lt_succ_of_le
    (readLines_length (show ([] : List Char).length < lineSize-1 by decide) l hl)

/-- A file of up to 32768 lines, whatever is in them, is read without a fault. Keys
and values are trimmed and as long as their arrays at most. Then every value is
expanded, or the result is NULL, as it is for each one that leads to a cycle. -/
theorem iniLoad_reads {junk file : List Char} (hjunk : junk.length = lineSize)
    (hlines : (readLines (lineSize-1) [] file).length ≤ 2^15) :
    ∃ st r lines, loadLines junk file = .ok st ∧ Loaded st ∧ iniLoad junk file = .ok r ∧
      RunOk lineSize ((entriesOf st.calls st.table).flatMap IniEntry.values)
        (r.map (·.flatMap IniEntry.values))
        lines ∧
      ((∃ e ∈ entriesOf st.calls st.table, ∃ v ∈ e.values,
        ReachesCycle iniMarks (variableOf (entriesOf st.calls st.table)) v) → r = none) := by
  obtain ⟨st, hst, hloaded⟩ := exists_of_never (loadLines_ensures hjunk hlines)
  have hfits : ∀ c ∈ st.calls, Fits lineSize c.value := by
    intro c hc
    have hfits := (hloaded.read c hc).fits
    exact ⟨hfits.1, hfits.2.trans (by decide)⟩
  have hwf := wellFormed_entriesOf hloaded.table hfits
  rw [← hloaded.line] at hwf
  obtain ⟨r, lines, hrun, hok, hfree⟩ :=
    @replaceVar_spec (lineFuel lineSize) st.line [] (entriesOf st.calls st.table) hwf
      (by rw [hloaded.line])
  rw [hloaded.line] at hok
  refine ⟨st, r, lines, hst, hloaded, ?_, hok, ?_⟩
  · unfold iniLoad
    rw [hst]
    simp only [hrun, bind, Except.bind, Except.mapError, List.nil_append, Option.map_id']
  · rintro ⟨e, he, v, hv, hcyc⟩
    by_contra hr
    exact hfree hr e he v hv hcyc

/-- A key that refers to itself. -/
def selfEntry : IniEntry := ⟨"a:x".toList, ["$(a:x)".toList]⟩

/-- Its value leads to a cycle. -/
theorem reachesCycle_self : ReachesCycle iniMarks (variableOf [selfEntry]) "$(a:x)".toList := by
  have hrefers : Refers iniMarks "$(a:x)".toList "a:x".toList :=
    ⟨[], [], rfl, by decide, by decide⟩
  exact ⟨"a:x".toList, hrefers, "a:x".toList, .refl, .single ⟨_, rfl, hrefers⟩⟩

/-- A file with such a key is read, and the result is an error. -/
theorem iniLoad_reads_self :
    iniLoad (List.replicate 4097 'z') "[a]\nx=$(a:x)\n".toList = .ok none := by
  obtain ⟨st, r, lines, hst, -, hr, -, hcycle⟩ :=
    @iniLoad_reads (List.replicate 4097 'z') "[a]\nx=$(a:x)\n".toList List.length_replicate
      (by decide +kernel)
  have hentries : ((loadLines (List.replicate 4097 'z') "[a]\nx=$(a:x)\n".toList).toOption.map
      fun st => entriesOf st.calls st.table) = some [selfEntry] := by decide +kernel
  rw [hst] at hentries
  have hself : entriesOf st.calls st.table = [selfEntry] := Option.some.inj hentries
  rw [hself] at hcycle
  rw [hr, hcycle ⟨selfEntry, List.mem_singleton_self _, _, List.mem_singleton_self _,
    reachesCycle_self⟩]

end Ucmq.IniSafety
