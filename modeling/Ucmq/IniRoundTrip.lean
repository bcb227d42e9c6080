import Ucmq.IniDocument

/-!
# Configuration files that are read back

The lines of a file are read one by one, and the table that is left has the values
of each section and key as they were written. A name is a section, a colon and a
key, so that colons in a section could make two keys one.
-/

namespace Ucmq.IniRoundTrip

open FailureSpec IniMap IniVariables IniExpansion ExpansionRuns TextSearch IniText IniSafety
open IniDocument

variable {st : LoadState} {l : DocLine} {ls : List DocLine}
  {s t run sec key sec' key' name junk : List Char}
  {size : ℕ}

/-- Values under a name. -/
def named (pairs : List (List Char × List Char)) (name : List Char) : List (List Char) :=
  (pairs.filter fun p => p.1 = name).map Prod.snd

/-- Values of a key in a section. -/
def valuesIn (ls : List DocLine) (sec key : List Char) : List (List Char) :=
  ((entriesFrom [] ls).filter fun e => e.sec = sec ∧ e.key = key).map Entry.value

/-- No other section and key have the same name. -/
def Clear (sec key : List Char) : Prop := ':' ∉ sec ∧ (sec = [] → ':' ∉ key)

/-- A file that says what it says: its lines are read in one piece, its values stand
for themselves, its names are clear, and no key has too many values. -/
structure Document (ls : List DocLine) : Prop where
  ok : ∀ l ∈ ls, l.Ok
  plain : ∀ e ∈ entriesFrom [] ls, find id "$(".toList e.value = none
  clear : ∀ e ∈ entriesFrom [] ls, Clear e.sec e.key
  room : ∀ sec key, (valuesIn ls sec key).length ≤ 2^15

/-- The values added under a name are those named so. -/
theorem added_eq (calls : List Call) (name : List Char) :
    added calls name = named (calls.map callPair) name := by
  unfold added named
  rw [List.filter_map, List.map_map]
  rfl

/-- Names of two lists one behind the other. -/
theorem named_append (ps qs : List (List Char × List Char)) (name : List Char) :
    named (ps ++ qs) name = named ps name ++ named qs name := by
  unfold named
  rw [List.filter_append, List.map_append]

/-- Text without a newline is put behind what the line has. -/
theorem readLines_run (hnew : '\n' ∉ t) (hlen : run.length+t.length < size) (s : List Char) :
    readLines size run (t ++ s) = readLines size (run ++ t) s := by
  induction t generalizing run with
  | nil => rw [List.nil_append, List.append_nil]
  | cons c t ih =>
    have hc : c ≠ '\n' := fun he => hnew (he ▸ List.mem_cons_self)
    have hlen' : (run ++ [c]).length = run.length+1 := by
      rw [List.length_append, List.length_singleton]
    rw [List.length_cons] at hlen
    have hstop : ¬(c = '\n' ∨ (run ++ [c]).length = size) := fun he => he.elim hc fun he => by omega
    rw [List.cons_append, readLines, if_neg hstop,
      ih (fun hm => hnew (List.mem_cons_of_mem _ hm)) (by omega),
      List.append_assoc, List.singleton_append]

/-- A line with its newline is read in one piece. -/
theorem readLines_line (hnew : '\n' ∉ t) (hlen : t.length < size) (s : List Char) :
    readLines size [] (t ++ '\n' :: s) = (t ++ ['\n']) :: readLines size [] s := by
  rw [readLines_run hnew (by rwa [List.length_nil, Nat.zero_add]), List.nil_append, readLines,
    if_pos (.inl rfl)]

/-- So is the last one. -/
theorem readLines_last (hnew : '\n' ∉ t) (hlen : t.length < size) :
    readLines size [] t = if t = [] then [] else [t] := by
  have hrun : readLines size [] (t ++ []) = readLines size t [] :=
    readLines_run hnew (by rwa [List.length_nil, Nat.zero_add]) []
  rw [List.append_nil] at hrun
  rw [hrun, readLines]

/-- A section does not begin with space. -/
theorem first_secAfter (h : l.Ok) (hsec : ∀ c ∈ sec.head?, DecimalText.isSpace c = false) :
    ∀ c ∈ (l.secAfter sec).head?, DecimalText.isSpace c = false := by
  cases l with
  | header space name rest => exact h.formed.2.2.2.2
  | blank | comment | entry => exact hsec

/-- One line, with a newline or without. -/
theorem loadLine_doc (hl : l.Ok) (hw : Space t) (hlen : (l.text ++ t).length < lineSize)
    (h : Loaded st) (hst : st.sec = secText sec)
    (hsec : ∀ c ∈ sec.head?, DecimalText.isSpace c = false)
    (hroom : ∀ name, (named (st.calls.map callPair) name).length ≤ 2^15) :
    ∃ st', loadLine st (l.text ++ t) = .ok st' ∧ Loaded st' ∧ st'.sec = secText (l.secAfter sec) ∧
      st'.calls.map callPair = st.calls.map callPair ++ (l.entries sec).map Entry.pair := by
  have hroom' : ∀ key, (added st.calls key).length ≤ 2^15 := fun key => by
    rw [added_eq]
    exact hroom key
  obtain ⟨st', he, ⟨hsec', hcalls⟩, hloaded, -⟩ := exists_of_never
    ((loadLine_returns hl hw (hlen.trans_le h.line.ge) hst hsec).and
      (loadLine_ensures h hlen hroom'))
  exact ⟨st', he, hloaded, hsec', hcalls⟩

/-- All lines of a file, from any section on. -/
theorem loadLines_doc (hok : ∀ l ∈ ls, l.Ok) (h : Loaded st) (hst : st.sec = secText sec)
    (hsec : ∀ c ∈ sec.head?, DecimalText.isSpace c = false)
    (hroom : ∀ name,
      (named (st.calls.map callPair ++ (entriesFrom sec ls).map Entry.pair) name).length ≤ 2^15) :
    ∃ st', (readLines (lineSize-1) [] (docText ls)).foldlM loadLine st = .ok st' ∧ Loaded st' ∧
      st'.calls.map callPair = st.calls.map callPair ++ (entriesFrom sec ls).map Entry.pair := by
  induction ls generalizing st sec with
  | nil => exact ⟨st, rfl, h, (List.append_nil _).symm⟩
  | cons l ls ih =>
    have hl := hok l List.mem_cons_self
    have hlen := hl.length
    have hfirst : ∀ name, (named (st.calls.map callPair) name).length ≤ 2^15 := by
      intro name
      have := hroom name
      rw [named_append, List.length_append] at this
      omega
    cases ls with
    | nil =>
      have hlines : readLines (lineSize-1) [] l.text = if l.text = [] then [] else [l.text] :=
        readLines_last hl.newline (by omega)
      obtain ⟨st', he, hloaded, -, hcalls⟩ :=
        loadLine_doc hl Space.nil (by rw [List.append_nil]; omega) h hst hsec hfirst
      rw [List.append_nil] at he
      rw [docText, hlines]
      have hentries : entriesFrom sec [l] = l.entries sec := List.append_nil _
      rw [hentries]
      split_ifs with hempty
      · have hnone : l.entries sec = [] := by
          cases l with
          | entry space key gap gap' value rest => simp [DocLine.text] at hempty
          | blank | comment | header => rfl
        rw [hnone]
        exact ⟨st, rfl, h, (List.append_nil _).symm⟩
      · refine ⟨st', ?_, hloaded, hcalls⟩
        rw [List.foldlM_cons, he]
        rfl
    | cons l' ls =>
      have hlines : readLines (lineSize-1) [] (docText (l :: l' :: ls)) =
          (l.text ++ ['\n']) :: readLines (lineSize-1) [] (docText (l' :: ls)) :=
        readLines_line hl.newline (by omega) _
      have hnewline : Space ['\n'] := by
        intro c hc
        rw [List.mem_singleton.mp hc]
        decide
      obtain ⟨st₁, he, hloaded, hsec₁, hcalls⟩ := loadLine_doc hl hnewline
        (by rw [List.length_append, List.length_singleton]; exact hlen) h hst hsec hfirst
      have hroom₁ : ∀ name, (named (st₁.calls.map callPair ++
          (entriesFrom (l.secAfter sec) (l' :: ls)).map Entry.pair) name).length ≤ 2^15 := by
        rw [hcalls, List.append_assoc, ← List.map_append]
        exact hroom
      obtain ⟨st', hrest, hloaded', hcalls'⟩ :=
        ih (fun m hm => hok m (List.mem_cons_of_mem _ hm)) hloaded hsec₁
          (first_secAfter hl hsec) hroom₁
      refine ⟨st', ?_, hloaded', ?_⟩
      · rw [hlines, List.foldlM_cons, he]
        exact hrest
      · rw [hcalls', hcalls, List.append_assoc, ← List.map_append]
        rfl

/-- Values without a variable stay. -/
theorem replaceValues_plain {fuel : ℕ} {before after : List IniEntry} {done todo : List (List Char)}
    {buf : List Char}
    (h : ∀ v ∈ todo, find id "$(".toList v = none) : ∃ lines buf',
      replaceValues fuel before after key done todo buf =
        .ok (some (done ++ todo), lines, buf') := by
  induction todo generalizing done buf with
  | nil => exact ⟨[], buf, by rw [replaceValues, List.append_nil]⟩
  | cons v todo ih =>
    obtain ⟨lines, buf', he⟩ := @ih (done ++ [v]) buf fun u hu => h u (List.mem_cons_of_mem _ hu)
    have hline :
        ∀ ini, replaceInLine ini fuel v buf = .ok (some v, ⟨buf, v.length, maxTokens, 0, []⟩) := by
      intro ini
      rw [replaceInLine, h v List.mem_cons_self]
    rw [List.append_assoc] at he
    refine ⟨⟨before ++ ⟨key, done ++ v :: todo⟩ :: after, v, some v,
      ⟨buf, v.length, maxTokens, 0, []⟩⟩ :: lines, buf', ?_⟩
    rw [replaceValues, hline]
    simp only [bind, Except.bind, he]
    rfl

/-- Values without variables are kept as they are. -/
theorem replaceVar_plain {fuel : ℕ} {done todo : List IniEntry} {buf : List Char}
    (h : ∀ e ∈ todo, ∀ v ∈ e.values, find id "$(".toList v = none) :
    ∃ lines, replaceVar fuel done todo buf = .ok (some (done ++ todo), lines) := by
  induction todo generalizing done buf with
  | nil => exact ⟨[], by rw [replaceVar, List.append_nil]⟩
  | cons e todo ih =>
    obtain ⟨lines, buf', he⟩ :=
      @replaceValues_plain e.key fuel done todo [] e.values buf (h e List.mem_cons_self)
    obtain ⟨more, he'⟩ :=
      @ih (done ++ [⟨e.key, e.values⟩]) buf' fun d hd => h d (List.mem_cons_of_mem _ hd)
    rw [List.append_assoc] at he'
    refine ⟨lines ++ more, ?_⟩
    rw [replaceVar]
    simp only [he, bind, Except.bind, List.nil_append, he']
    rfl

/-- The values in the table are those that were added. -/
theorem findKey_calls {calls : List Call} {table : List IniKv} (h : addAll calls = .ok table)
    (hroom : ∀ key, (added calls key).length ≤ 2^15) (name : List Char) (idx : ℕ) :
    IniVariables.findKey (entriesOf calls table) name idx =
      ((added calls name)[idx]?, (added calls name).length) := by
  obtain ⟨table₀, h₀, hkeeps⟩ | ⟨⟨e, he⟩, -⟩ := addAll_cases calls
  · obtain rfl : table = table₀ := Except.ok.inj (h.symm.trans h₀)
    have hrep := hkeeps.represents hroom
    have hfind := findKey_entriesOf hrep name idx
    cases hi : (added calls name)[idx]? with
    | none =>
      rw [hrep.beyond name idx (List.getElem?_eq_none_iff.mp hi)] at hfind
      obtain ⟨hnone, hcount⟩ := Prod.mk.inj (Except.ok.inj hfind)
      exact Prod.ext (by simpa using hnone.symm) hcount.symm
    | some v =>
      rw [hrep.values name idx v hi] at hfind
      obtain ⟨hsome, hcount⟩ := Prod.mk.inj (Except.ok.inj hfind)
      obtain ⟨u, hu, hone⟩ := Option.map_eq_some_iff.mp hsome.symm
      refine Prod.ext ?_ hcount.symm
      rw [hu, Word.one.inj hone]
  · rw [h] at he
    exact absurd he (by simp)

/-- A file is read into a table with its values. -/
theorem iniLoad_doc (hjunk : junk.length = lineSize) (hok : ∀ l ∈ ls, l.Ok)
    (hplain : ∀ e ∈ entriesFrom [] ls, find id "$(".toList e.value = none)
    (hroom : ∀ name, (named ((entriesFrom [] ls).map Entry.pair) name).length ≤ 2^15) :
    ∃ ini, iniLoad junk (docText ls) = .ok (some ini) ∧
      ∀ name idx, IniVariables.findKey ini name idx =
      ((named ((entriesFrom [] ls).map Entry.pair) name)[idx]?,
        (named ((entriesFrom [] ls).map Entry.pair) name).length) := by
  have hstart : Loaded ⟨junk, [], 0, [], []⟩ := ⟨hjunk, .inl rfl, rfl, by simp⟩
  obtain ⟨st, hst, hloaded, hcalls⟩ :=
    loadLines_doc hok hstart (show [] = secText [] from rfl) (by simp) hroom
  rw [List.map_nil, List.nil_append] at hcalls
  have hadded : ∀ name, added st.calls name = named ((entriesFrom [] ls).map Entry.pair) name := by
    intro name
    rw [added_eq, hcalls]
  have hvalues :
      ∀ e ∈ entriesOf st.calls st.table, ∀ v ∈ e.values, find id "$(".toList v = none := by
    intro e he v hv
    obtain ⟨kv, -, rfl⟩ := List.mem_map.mp he
    obtain ⟨c, hc, rfl⟩ := List.mem_map.mp hv
    have hmem : callPair c ∈ (entriesFrom [] ls).map Entry.pair := by
      rw [← hcalls]
      exact List.mem_map_of_mem (List.mem_of_mem_filter hc)
    obtain ⟨d, hd, hpair⟩ := List.mem_map.mp hmem
    have hvalue : d.value = c.value := congrArg Prod.snd hpair
    rw [← hvalue]
    exact hplain d hd
  obtain ⟨lines, hrun⟩ :=
    @replaceVar_plain (lineFuel lineSize) [] (entriesOf st.calls st.table) st.line hvalues
  refine ⟨entriesOf st.calls st.table, ?_, fun name idx => ?_⟩
  · unfold iniLoad loadLines
    rw [hst]
    simp only [hrun, bind, Except.bind, Except.mapError, List.nil_append]
  · rw [findKey_calls hloaded.table (fun key => by rw [hadded]; exact hroom key), hadded]

/-- A name says which section and key it is. -/
theorem fullName_inj (h : Clear sec key) (h' : Clear sec' key')
    (he : secText sec ++ key = secText sec' ++ key') :
    sec = sec' ∧ key = key' := by
  have hsplit : ∀ {s k t : List Char}, ':' ∉ s → s ++ [':'] ++ k = t → ':' ∈ t ∧
      t.takeWhile (· ≠ ':') = s := by
    rintro s k _ hs rfl
    refine ⟨by simp, ?_⟩
    rw [List.append_assoc, List.singleton_append, List.takeWhile_append_of_pos,
      List.takeWhile_cons_of_neg (by simp), List.append_nil]
    intro c hc
    rw [decide_eq_true_eq]
    rintro rfl
    exact hs hc
  unfold secText at he
  by_cases hsec : sec = []
  · by_cases hsec' : sec' = []
    · rw [if_pos hsec, if_pos hsec'] at he
      exact ⟨hsec.trans hsec'.symm, he⟩
    · rw [if_pos hsec, if_neg hsec', List.nil_append] at he
      exact absurd (hsplit h'.1 he.symm).1 (h.2 hsec)
  · by_cases hsec' : sec' = []
    · rw [if_neg hsec, if_pos hsec', List.nil_append] at he
      exact absurd (hsplit h.1 he).1 (h'.2 hsec')
    · rw [if_neg hsec, if_neg hsec'] at he
      obtain rfl : sec = sec' := (hsplit h.1 rfl).2.symm.trans (hsplit h'.1 he.symm).2
      exact ⟨rfl, List.append_cancel_left he⟩

/-- Under the name of a section and key are their values. -/
theorem named_eq (hclear : ∀ e ∈ entriesFrom [] ls, Clear e.sec e.key) (h : Clear sec key) :
    named ((entriesFrom [] ls).map Entry.pair) (secText sec ++ key) = valuesIn ls sec key := by
  unfold named valuesIn
  rw [List.filter_map, List.map_map]
  congr 1
  refine List.filter_congr fun e he => ?_
  refine decide_eq_decide.mpr ⟨fun hname => fullName_inj (hclear e he) h hname, ?_⟩
  rintro ⟨rfl, rfl⟩
  rfl

/-- A name has no more values than its section and key. -/
theorem length_named_le (hclear : ∀ e ∈ entriesFrom [] ls, Clear e.sec e.key)
    (hroom : ∀ sec key, (valuesIn ls sec key).length ≤ size) (name : List Char) :
    (named ((entriesFrom [] ls).map Entry.pair) name).length ≤ size := by
  by_cases hmem : ∃ e ∈ entriesFrom [] ls, e.pair.1 = name
  · obtain ⟨e, he, rfl⟩ := hmem
    have hname : e.pair.1 = secText e.sec ++ e.key := rfl
    rw [hname, named_eq hclear (hclear e he)]
    exact hroom e.sec e.key
  · have hnil : named ((entriesFrom [] ls).map Entry.pair) name = [] := by
      rw [named, List.map_eq_nil_iff, List.filter_eq_nil_iff]
      intro p hp
      obtain ⟨e, he, rfl⟩ := List.mem_map.mp hp
      simpa using fun hname => hmem ⟨e, he, hname⟩
    rw [hnil]
    exact Nat.zero_le _

/-- A name that fits is not cut. -/
theorem fullKey_eq (h : sec.length+key.length < 2*tokenSize) :
    fullKey sec key = secText sec ++ key := by
  unfold fullKey secText
  split_ifs
  · rfl
  · rw [List.append_assoc, List.singleton_append, List.take_of_length_le]
    rw [List.length_append, List.length_cons]
    omega

/-- A table says what a file does, under every name that fits. -/
def Agrees (ini : List IniEntry) (ls : List DocLine) : Prop :=
  ∀ sec key, Clear sec key → sec.length+key.length < 2*tokenSize →
    (∀ idx, iniFind ini sec key idx = (valuesIn ls sec key)[idx]?) ∧
      iniCount ini sec key = (valuesIn ls sec key).length

/-- So does the table with the values of each name. -/
theorem agrees_of_findKey {ini : List IniEntry}
    (hclear : ∀ e ∈ entriesFrom [] ls, Clear e.sec e.key)
    (h : ∀ name idx, IniVariables.findKey ini name idx =
      ((named ((entriesFrom [] ls).map Entry.pair) name)[idx]?,
      (named ((entriesFrom [] ls).map Entry.pair) name).length)) : Agrees ini ls := by
  refine fun sec key hname hlen => ⟨fun idx => ?_, ?_⟩
  · rw [iniFind, fullKey_eq hlen, h, named_eq hclear hname]
  · rw [iniCount, fullKey_eq hlen, h, named_eq hclear hname]

/-- A file is read back: whatever stands around them, every section and key has its
values in the order of the lines, and no others. -/
theorem iniLoad_agrees (hjunk : junk.length = lineSize) (h : Document ls) :
    ∃ ini, iniLoad junk (docText ls) = .ok (some ini) ∧ Agrees ini ls := by
  obtain ⟨ini, hload, hfind⟩ := iniLoad_doc hjunk h.ok h.plain (length_named_le h.clear h.room)
  exact ⟨ini, hload, agrees_of_findKey h.clear hfind⟩

/-- Whether lines are a document of few values. -/
def documentCheck (ls : List DocLine) : Bool :=
  ls.all DocLine.check && decide ((entriesFrom [] ls).length ≤ 2^15) &&
    (entriesFrom [] ls).all fun e =>
    (find id "$(".toList e.value).isNone && !e.sec.contains ':' &&
      (!e.sec.isEmpty || !e.key.contains ':')

/-- The check of a document. -/
theorem document_of_check (h : documentCheck ls = true) : Document ls := by
  simp only [documentCheck, Bool.and_eq_true, Bool.or_eq_true, decide_eq_true_eq,
    List.all_eq_true] at h
  obtain ⟨⟨hok, hlen⟩, hentries⟩ := h
  refine ⟨fun l hl => ok_of_check (hok l hl), fun e he => ?_, fun e he => ⟨?_, fun hsec => ?_⟩,
    fun sec key => ?_⟩
  · exact Option.isNone_iff_eq_none.mp (hentries e he).1.1
  · simpa using (hentries e he).1.2
  · simpa [hsec] using (hentries e he).2
  · rw [valuesIn, List.length_map]
    exact (List.length_filter_le _ _).trans hlen

/-- A section with a comment and two values of a key. -/
def sample : List DocLine :=
  [.header [] "server".toList [], .comment " ".toList '#' "ports".toList,
    .entry [] "port".toList [] " ".toList "8803".toList "\t\r".toList,
    .entry [] "port".toList " ".toList [] "8804".toList [], .blank []]

/-- Both values are found, in their order. -/
theorem iniLoad_agrees_sample :
    ∃ ini, iniLoad (List.replicate 4097 'z') (docText sample) = .ok (some ini) ∧
      Agrees ini sample :=
  iniLoad_agrees List.length_replicate (document_of_check (by decide +kernel))

end Ucmq.IniRoundTrip
