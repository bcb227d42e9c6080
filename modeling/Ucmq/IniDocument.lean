import Ucmq.IniSafety

/-!
# Configuration files as they are written

A file of blank lines, comments, sections and keys with values, with space where
it may stand. Reading it brings back each value under its section and key, in
the order of the lines and with nothing in between.
-/

namespace Ucmq.IniDocument

open DecimalText FailureSpec IniMap IniVariables IniExpansion ExpansionRuns TextSearch IniText
open IniSafety

/-- A line of a file. -/
inductive DocLine where
  | blank (space : List Char)
  | comment (space : List Char) (mark : Char) (rest : List Char)
  | header (space name rest : List Char)
  | entry (space key gap gap' value rest : List Char)

/-- What stands in the line. -/
def DocLine.text : DocLine → List Char
  | .blank space => space
  | .comment space mark rest => space ++ mark :: rest
  | .header space name rest => space ++ '[' :: (name ++ ']' :: rest)
  | .entry space key gap gap' value rest =>
    space ++ (key ++ (gap ++ '=' :: (gap' ++ (value ++ rest))))

/-- Text of white space. -/
def Space (s : List Char) : Prop := ∀ c ∈ s, isSpace c = true

/-- The parts of a line are what they are to be. A section and a key with the space
behind it are no longer than a token. -/
def DocLine.Formed : DocLine → Prop
  | .blank space => Space space
  | .comment space mark _ => Space space ∧ (mark = ';' ∨ mark = '#')
  | .header space name _ =>
    Space space ∧ name ≠ [] ∧ name.length ≤ tokenSize ∧ ']' ∉ name ∧
    ∀ c ∈ name.head?, isSpace c = false
  | .entry space key gap gap' value rest =>
    Space space ∧ Space gap ∧ Space gap' ∧ Space rest ∧
      (key ≠ [] ∧ Trimmed key ∧ '=' ∉ key ∧ (∀ c ∈ key.head?, c ∉ ['[', ';', '#']) ∧
        (key ++ gap).length ≤ tokenSize) ∧
      Trimmed value ∧ '\r' ∉ value ∧ value.length ≤ tokenSize

/-- A line that is read in one piece. -/
structure DocLine.Ok (l : DocLine) : Prop where
  formed : l.Formed
  newline : '\n' ∉ l.text
  ends : '\x00' ∉ l.text
  length : l.text.length+1 < lineSize

/-- Lines with newlines between them. There is one at the end when the last line is
blank. -/
def docText : List DocLine → List Char
  | [] => []
  | [l] => l.text
  | l :: ls => l.text ++ '\n' :: docText ls

/-- A value with its section and key. -/
structure Entry where
  /-- Section, empty before the first one. -/
  sec : List Char
  /-- Key. -/
  key : List Char
  /-- Value. -/
  value : List Char

/-- The section after a line. -/
def DocLine.secAfter (sec : List Char) : DocLine → List Char
  | .header _ name _ => name
  | _ => sec

/-- The value in a line. -/
def DocLine.entries (sec : List Char) : DocLine → List Entry
  | .entry _ key _ _ value _ => [⟨sec, key, value⟩]
  | _ => []

/-- The values of a file. -/
def entriesFrom : List Char → List DocLine → List Entry
  | _, [] => []
  | sec, l :: ls => l.entries sec ++ entriesFrom (l.secAfter sec) ls

/-- A section with its colon. -/
def secText (sec : List Char) : List Char := if sec = [] then [] else sec ++ [':']

/-- The name of a key in its section, with the value. -/
def Entry.pair (e : Entry) : List Char × List Char := (secText e.sec ++ e.key, e.value)

/-- What a call adds. -/
def callPair (c : Call) : List Char × List Char := (c.key, c.value)

variable {s t u v w sec key gap val space rest name : List Char} {p : Char → Bool}
  {st : LoadState} {l : DocLine}
  {ls : List DocLine}

/-- The empty text is blank. -/
theorem Space.nil : Space [] := by simp [Space]

/-- Blank text behind blank text is blank. -/
theorem Space.append (hs : Space s) (ht : Space t) : Space (s ++ t) := by
  intro c hc
  exact (List.mem_append.mp hc).elim (hs c) (ht c)

/-- Characters of blank text are blank. -/
theorem Space.subset (hs : Space s) (h : t ⊆ s) : Space t := fun c hc => hs c (h hc)

/-- Blanks in front are skipped. -/
theorem Space.dropWhile_append (hs : Space s) (t : List Char) :
    (s ++ t).dropWhile isSpace = t.dropWhile isSpace :=
  List.dropWhile_append_of_pos hs

/-- Blanks at the end are cut. -/
theorem Space.rdropWhile_append (hs : Space s) (t : List Char) :
    (t ++ s).rdropWhile isSpace = t.rdropWhile isSpace := by
  unfold List.rdropWhile
  rw [List.reverse_append, List.dropWhile_append_of_pos]
  intro c hc
  exact hs c (List.mem_reverse.mp hc)

/-- A text that begins otherwise is not cut. -/
theorem dropWhile_self (h : ∀ c ∈ s.head?, p c = false) : s.dropWhile p = s := by
  cases s with
  | nil => rfl
  | cons c s => rw [List.dropWhile_cons, h c rfl]; rfl

/-- A trimmed text is not cut. -/
theorem rdropWhile_trimmed (h : Trimmed s) : s.rdropWhile isSpace = s := by
  refine List.rdropWhile_eq_self_iff.mpr fun hne => ?_
  rw [h.last _ (List.getLast?_eq_getLast_of_ne_nil hne)]
  decide

/-- Trimming takes away what was put around a text. -/
theorem trimStr_trimmed (h : Trimmed t) (hnil : t ≠ []) (hs : Space s) :
    trimStr (t ++ s) true = .ok t := by
  obtain ⟨c, u, rfl⟩ := List.exists_cons_of_ne_nil hnil
  have hc : isSpace c = false := h.first c rfl
  have hbegin : (c :: u ++ s).dropWhile isSpace = c :: u ++ s :=
    List.dropWhile_cons_of_neg (by simp [hc])
  rw [trimStr_ends ⟨c, List.mem_append_left _ List.mem_cons_self, hc⟩, hbegin, hs.rdropWhile_append,
    rdropWhile_trimmed h]

/-- A token begins with what all belongs to it. -/
theorem scanSet_append (hp : ∀ c ∈ u, p c = true) (hnil : u ≠ []) (hlen : u.length ≤ tokenSize)
    (w : List Char) :
    scanSet p (u ++ w) =
      some (u ++ (w.take (tokenSize-u.length)).takeWhile p,
        w.drop ((w.take (tokenSize-u.length)).takeWhile p).length) := by
  have htoken :
      ((u ++ w).take tokenSize).takeWhile p = u ++ (w.take (tokenSize-u.length)).takeWhile p := by
    rw [List.take_append, List.take_of_length_le hlen, List.takeWhile_append_of_pos hp]
  unfold scanSet
  rw [htoken]
  dsimp only
  rw [if_neg (by simp [hnil]), List.length_append, List.drop_append,
    List.drop_eq_nil_of_le (Nat.le_add_right _ _), Nat.add_sub_cancel_left, List.nil_append]

/-- A token ends before what does not belong to it. -/
theorem scanSet_stop {c : Char} (hp : ∀ d ∈ u, p d = true) (hnil : u ≠ [])
    (hlen : u.length ≤ tokenSize) (hc : p c = false)
    (w : List Char) : scanSet p (u ++ c :: w) = some (u, c :: w) := by
  have hstop : ((c :: w).take (tokenSize-u.length)).takeWhile p = [] := by
    cases tokenSize-u.length with
    | zero => rfl
    | succ n => rw [List.take_succ_cons, List.takeWhile_cons, hc]; rfl
  rw [scanSet_append hp hnil hlen, hstop, List.append_nil]
  rfl

/-- The value behind an equals sign. -/
theorem scanValue_equal (s : List Char) : scanValue ('=' :: s) =
    ((scanSet (fun c => c ≠ '\r' ∧ c ≠ '\n') (s.dropWhile isSpace)).map Prod.fst).getD [] := by
  have hequal : ('=' :: s).dropWhile isSpace = '=' :: s := List.dropWhile_cons_of_neg (by decide)
  unfold scanValue
  rw [hequal]
  rfl

/-- A value is scanned with the space behind it. -/
theorem scanValue_eq (hgap : Space gap) (hval : Trimmed val) (hline : '\r' ∉ val ∧ '\n' ∉ val)
    (hlen : val.length ≤ tokenSize) (hrest : Space rest) :
    ∃ w, scanValue ('=' :: (gap ++ (val ++ rest))) = val ++ w ∧ Space w ∧ (val = [] → w = []) := by
  rw [scanValue_equal, hgap.dropWhile_append]
  by_cases hnil : val = []
  · subst hnil
    rw [List.nil_append, List.dropWhile_eq_nil_iff.mpr hrest]
    exact ⟨[], rfl, .nil, fun _ => rfl⟩
  · obtain ⟨c, u, hu⟩ := List.exists_cons_of_ne_nil hnil
    have hhead : ∀ d ∈ (val ++ rest).head?, isSpace d = false := by
      intro d hd
      rw [hu] at hd
      exact hval.first d (by rw [hu]; exact hd)
    have hall : ∀ d ∈ val, decide (d ≠ '\r' ∧ d ≠ '\n') = true := by
      intro d hd
      simpa using ⟨fun he => hline.1 (he ▸ hd), fun he => hline.2 (he ▸ hd)⟩
    rw [dropWhile_self hhead, scanSet_append hall hnil hlen]
    refine ⟨_, rfl, hrest.subset fun d hd => ?_, fun h => absurd h hnil⟩
    exact List.mem_of_mem_take ((List.takeWhile_prefix _).subset hd)

/-- Any failure is allowed. -/
abbrev any : LoadFault → Prop := fun _ => True

/-- A text that has room in its array is returned. -/
theorem inArray_returns (size : ℕ) (s : List Char) : Ensures any (inArray size s) (s = ·) := by
  unfold inArray
  split_ifs
  · exact .ok rfl
  · exact .error trivial

/-- A computation ensures the result it has. -/
theorem returns_any {α : Type} (x : Except LoadFault α) : Ensures any x fun a => x = .ok a := by
  cases x with
  | error e => exact .error trivial
  | ok a => exact .ok rfl

/-- A section that is entered. -/
theorem enter_returns (st : LoadState) (name : List Char) :
    Ensures any (st.enter name) fun st' => st'.sec = name ++ [':'] ∧ st'.calls = st.calls := by
  unfold LoadState.enter
  refine (inArray_returns _ name).bind ?_
  rintro _ rfl
  refine (inArray_returns _ (name ++ [':'])).bind ?_
  rintro _ rfl
  exact .ok ⟨rfl, rfl⟩

/-- A value that is added. -/
theorem add_returns (hkey : trimStr (st.sec ++ s) true = .ok key)
    (hval : trimStr t true = .ok val) :
    Ensures any (st.add s t) fun st' =>
      st'.sec = st.sec ∧ st'.calls.map callPair = st.calls.map callPair ++ [(key, val)] := by
  unfold LoadState.add
  refine (inArray_returns _ (st.sec ++ s)).bind ?_
  rintro _ rfl
  refine (inArray_returns _ t).bind ?_
  rintro _ rfl
  rw [hkey, hval]
  refine .ok_bind (.ok_bind ?_)
  exact (returns_any _).bind fun table _ => .ok ⟨rfl, by rw [List.map_append]; rfl⟩

/-- The section is trimmed with the key. -/
theorem trimmed_fullName (hsec : ∀ c ∈ sec.head?, isSpace c = false) (hkey : Trimmed key)
    (hnil : key ≠ []) :
    Trimmed (secText sec ++ key) := by
  unfold secText
  refine ⟨fun c hc => ?_, fun c hc => ?_⟩
  · split_ifs at hc with hempty
    · exact hkey.first c hc
    · obtain ⟨d, u, rfl⟩ := List.exists_cons_of_ne_nil hempty
      exact hsec c hc
  · rw [List.getLast?_append_of_ne_nil _ hnil] at hc
    exact hkey.last c hc

/-- Blank text holds no other character. -/
theorem not_mem_space {c : Char} (hs : Space s) (hc : isSpace c = false) : c ∉ s := by
  intro hm
  rw [hs c hm] at hc
  exact absurd hc (by decide)

/-- A line with a key is read as that key and value. -/
theorem take_entry (hgap : Space gap) (hgap' : Space v) (hrest : Space rest) (hkey : Trimmed key)
    (hnil : key ≠ []) (hequal : '=' ∉ key) (hfirst : ∀ c ∈ key.head?, c ∉ ['[', ';', '#'])
    (hlen : (key ++ gap).length ≤ tokenSize) (hval : Trimmed val) (hline : '\r' ∉ val ∧ '\n' ∉ val)
    (hlen' : val.length ≤ tokenSize) (hst : st.sec = secText sec)
    (hsec : ∀ c ∈ sec.head?, isSpace c = false) :
    Ensures any (st.take (key ++ (gap ++ '=' :: (v ++ (val ++ rest))))) fun st' =>
      st'.sec = secText sec ∧
      st'.calls.map callPair = st.calls.map callPair ++ [(secText sec ++ key, val)] := by
  obtain ⟨w, hvalue, hw, hempty⟩ := scanValue_eq hgap' hval hline hlen' hrest
  have hkeys : ∀ d ∈ key ++ gap, decide (d ≠ '=') = true := by
    intro d hd
    rw [decide_eq_true_eq]
    rintro rfl
    exact (List.mem_append.mp hd).elim hequal (not_mem_space hgap (by decide))
  have hpair :
      scanPair (key ++ (gap ++ '=' :: (v ++ (val ++ rest)))) = some (key ++ gap, val ++ w) := by
    unfold scanPair
    rw [← List.append_assoc, scanSet_stop hkeys (by simp [hnil]) hlen (by decide),
      Option.map_some, hvalue]
  have hsection : scanSection (key ++ (gap ++ '=' :: (v ++ (val ++ rest)))) = none := by
    obtain ⟨c, u, rfl⟩ := List.exists_cons_of_ne_nil hnil
    have hc : c ≠ '[' := by
      rintro rfl
      exact hfirst '[' rfl (by decide)
    unfold scanSection
    split
    · rename_i heq
      exact absurd (List.cons.inj heq).1 hc
    · rfl
  have htrim : trimStr (st.sec ++ (key ++ gap)) true = .ok (secText sec ++ key) := by
    rw [hst, ← List.append_assoc]
    exact trimStr_trimmed (trimmed_fullName hsec hkey hnil) (by simp [hnil]) hgap
  have hvalTrim : trimStr (val ++ w) true = .ok val := by
    by_cases h : val = []
    · rw [h, hempty h]
      rfl
    · exact trimStr_trimmed hval h hw
  unfold LoadState.take
  rw [hsection]
  dsimp only
  rw [hpair]
  dsimp only
  exact (add_returns htrim hvalTrim).mono fun st' hst' => ⟨hst'.1.trans hst, hst'.2⟩

/-- A line with a section enters it. -/
theorem take_header (hnil : name ≠ []) (hlen : name.length ≤ tokenSize) (hclose : ']' ∉ name)
    (rest : List Char) :
    Ensures any (st.take ('[' :: (name ++ ']' :: rest))) fun st' =>
      st'.sec = secText name ∧ st'.calls.map callPair = st.calls.map callPair := by
  have hnames : ∀ d ∈ name, decide (d ≠ ']') = true := by
    intro d hd
    rw [decide_eq_true_eq]
    rintro rfl
    exact hclose hd
  have hsection : scanSection ('[' :: (name ++ ']' :: rest)) = some name := by
    change (scanSet _ _).map Prod.fst = some name
    rw [scanSet_stop hnames hnil hlen (by decide), Option.map_some]
  unfold LoadState.take
  rw [hsection]
  refine (enter_returns st name).mono fun st' hst' => ⟨?_, by rw [hst'.2]⟩
  rw [hst'.1, secText, if_neg hnil]

/-- A line is taken up where its space ends. -/
theorem loadLine_eq {chunk : List Char} (hlen : chunk.length < st.line.length)
    (hends : '\x00' ∉ chunk) :
    ∃ line n, loadLine st chunk =
      if chunk.dropWhile isSpace = [] ∨ (chunk.dropWhile isSpace).head? = some ';' ∨
          (chunk.dropWhile isSpace).head? = some '#' then .ok { st with line := line, lineNum := n }
      else LoadState.take { st with line := line, lineNum := n } (chunk.dropWhile isSpace) := by
  obtain ⟨junk, hstore, -⟩ := store_line hlen
  have htext : strAt (chunk ++ '\x00' :: junk) 0 = chunk := by
    unfold strAt
    rw [List.drop_zero, List.takeWhile_append_of_pos, List.takeWhile_cons_of_neg (by simp),
      List.append_nil]
    intro c hc
    rw [decide_eq_true_eq]
    rintro rfl
    exact hends hc
  refine ⟨chunk ++ '\x00' :: junk, (st.lineNum+1)%2^32, ?_⟩
  unfold loadLine
  rw [hstore]
  change (trimStr (strAt (chunk ++ '\x00' :: junk) 0) false >>= _) = _
  rw [htext, trimStr_start]
  rfl

/-- What a line brings, with a newline or without. -/
theorem loadLine_returns (h : l.Ok) (hw : Space w) (hlen : (l.text ++ w).length < st.line.length)
    (hst : st.sec = secText sec) (hsec : ∀ c ∈ sec.head?, isSpace c = false) :
    Ensures any (loadLine st (l.text ++ w)) fun st' => st'.sec = secText (l.secAfter sec) ∧
      st'.calls.map callPair = st.calls.map callPair ++ (l.entries sec).map Entry.pair := by
  have hends : '\x00' ∉ l.text ++ w := by
    rw [List.mem_append]
    exact fun hm => hm.elim h.ends (not_mem_space hw (by decide))
  obtain ⟨line, n, he⟩ := loadLine_eq hlen hends
  rw [he]
  cases l with
  | blank space =>
    have hspace : (DocLine.blank space).text ++ w = space ++ w := rfl
    rw [hspace, if_pos (.inl (List.dropWhile_eq_nil_iff.mpr (Space.append h.formed hw)))]
    exact .ok ⟨hst, (List.append_nil _).symm⟩
  | comment space mark rest =>
    obtain ⟨hspace, hmark⟩ := h.formed
    have htext : ((DocLine.comment space mark rest).text ++ w).dropWhile isSpace = mark ::
        (rest ++ w) := by
      rw [DocLine.text, List.append_assoc, hspace.dropWhile_append, List.cons_append]
      refine List.dropWhile_cons_of_neg ?_
      rcases hmark with rfl | rfl <;> decide
    rw [htext, if_pos (.inr (hmark.imp (congrArg some) (congrArg some)))]
    exact .ok ⟨hst, (List.append_nil _).symm⟩
  | header space name rest =>
    obtain ⟨hspace, hnil, hname, hclose, hfirst⟩ := h.formed
    have htext : ((DocLine.header space name rest).text ++ w).dropWhile isSpace =
        '[' :: (name ++ ']' :: (rest ++ w)) := by
      rw [DocLine.text, List.append_assoc, hspace.dropWhile_append, List.cons_append,
        List.append_assoc, List.cons_append, List.dropWhile_cons_of_neg (by decide)]
    rw [htext, if_neg (by simp)]
    refine (take_header hnil hname hclose (rest ++ w)).mono fun st' hst' => ⟨hst'.1, ?_⟩
    rw [hst'.2]
    exact (List.append_nil _).symm
  | entry space key gap gap' value rest =>
    obtain ⟨hspace, hgap, hgap', hrest, ⟨hnil, hkey, hequal, hfirst, hlen'⟩, hvalue, hreturn,
        hlen''⟩ := h.formed
    have hline : '\n' ∉ value := by
      intro hm
      refine h.newline ?_
      simp [DocLine.text, hm]
    have htext : ((DocLine.entry space key gap gap' value rest).text ++ w).dropWhile isSpace =
        key ++ (gap ++ '=' :: (gap' ++ (value ++ (rest ++ w)))) := by
      rw [DocLine.text, List.append_assoc, hspace.dropWhile_append]
      simp only [List.append_assoc, List.cons_append]
      obtain ⟨d, u, rfl⟩ := List.exists_cons_of_ne_nil hnil
      exact dropWhile_self hkey.first
    have hskip : ¬(key ++ (gap ++ '=' :: (gap' ++ (value ++ (rest ++ w)))) = [] ∨
        (key ++ (gap ++ '=' :: (gap' ++ (value ++ (rest ++ w))))).head? = some ';' ∨
        (key ++ (gap ++ '=' :: (gap' ++ (value ++ (rest ++ w))))).head? = some '#') := by
      obtain ⟨d, u, rfl⟩ := List.exists_cons_of_ne_nil hnil
      have hd := hfirst d rfl
      simp only [List.mem_cons, List.not_mem_nil, or_false, not_or] at hd
      simp [hd.2.1, hd.2.2]
    rw [htext, if_neg hskip]
    exact take_entry hgap hgap' (hrest.append hw) hkey hnil hequal hfirst hlen' hvalue
      ⟨hreturn, hline⟩ hlen'' hst
      hsec

/-- Whether there is no space at either end. -/
def trimmedCheck (s : List Char) : Bool :=
  s.head?.all (fun c => !isSpace c) && s.getLast?.all fun c => !isSpace c

/-- Whether the parts of a line are what they are to be. -/
def DocLine.formedCheck : DocLine → Bool
  | .blank space => space.all isSpace
  | .comment space mark _ => space.all isSpace && (mark == ';' || mark == '#')
  | .header space name _ =>
    space.all isSpace && !name.isEmpty && decide (name.length ≤ tokenSize) && !name.contains ']' &&
      name.head?.all fun c => !isSpace c
  | .entry space key gap gap' value rest =>
    space.all isSpace && gap.all isSpace && gap'.all isSpace && rest.all isSpace && !key.isEmpty &&
      trimmedCheck key && !key.contains '=' &&
        key.head?.all (fun c => !(['[', ';', '#'].contains c)) &&
      decide ((key ++ gap).length ≤ tokenSize) && trimmedCheck value && !value.contains '\r' &&
      decide (value.length ≤ tokenSize)

/-- Whether a line is read in one piece. -/
def DocLine.check (l : DocLine) : Bool :=
  l.formedCheck && !l.text.contains '\n' && !l.text.contains '\x00' &&
    decide (l.text.length+1 < lineSize)

/-- The check of a trimmed text. -/
theorem trimmed_of_check (h : trimmedCheck s = true) : Trimmed s := by
  unfold trimmedCheck at h
  rw [Bool.and_eq_true, Option.all_eq_true, Option.all_eq_true] at h
  exact ⟨fun c hc => by simpa using h.1 c hc, fun c hc => by simpa using h.2 c hc⟩

/-- The check of a line that can be read. -/
theorem formed_of_check (h : l.formedCheck = true) : l.Formed := by
  cases l with
  | blank space => exact List.all_eq_true.mp h
  | comment space mark rest =>
    simp only [DocLine.formedCheck, Bool.and_eq_true, Bool.or_eq_true, beq_iff_eq] at h
    exact ⟨List.all_eq_true.mp h.1, h.2⟩
  | header space name rest =>
    simp only [DocLine.formedCheck, Bool.and_eq_true, decide_eq_true_eq, Option.all_eq_true] at h
    obtain ⟨⟨⟨⟨hspace, hnil⟩, hlen⟩, hclose⟩, hfirst⟩ := h
    exact ⟨List.all_eq_true.mp hspace, by simpa using hnil, hlen, by simpa using hclose,
      fun c hc => by simpa using hfirst c hc⟩
  | entry space key gap gap' value rest =>
    simp only [DocLine.formedCheck, Bool.and_eq_true, decide_eq_true_eq, Option.all_eq_true] at h
    obtain ⟨⟨⟨⟨⟨⟨⟨⟨⟨⟨⟨hspace, hgap⟩, hgap'⟩, hrest⟩, hnil⟩, hkey⟩, hequal⟩, hfirst⟩, hlen⟩, hvalue⟩,
        hline⟩, hlen'⟩ :=
      h
    exact ⟨List.all_eq_true.mp hspace, List.all_eq_true.mp hgap, List.all_eq_true.mp hgap',
      List.all_eq_true.mp hrest,
      ⟨by simpa using hnil, trimmed_of_check hkey, by simpa using hequal,
        fun c hc => by simpa using hfirst c hc, hlen⟩,
      trimmed_of_check hvalue, by simpa using hline, hlen'⟩

/-- The check of a line. -/
theorem ok_of_check (h : l.check = true) : l.Ok := by
  simp only [DocLine.check, Bool.and_eq_true, decide_eq_true_eq] at h
  obtain ⟨⟨⟨hformed, hnew⟩, hends⟩, hlen⟩ := h
  exact ⟨formed_of_check hformed, by simpa using hnew, by simpa using hends, hlen⟩

end Ucmq.IniDocument
