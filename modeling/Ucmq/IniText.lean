import Mathlib.Data.List.DropRight
import Ucmq.DecimalText
import Ucmq.ExpansionRuns

/-!
# The text of a configuration file

ini_load reads a file line by line: a section goes in front of the keys below it,
and the first equals sign of a line parts a key from its value. Writes past the
arrays of a token and reads before their start are faults here; no file leads to
one of them. After the last line the variables in the values are expanded.
-/

namespace Ucmq.IniText

open DecimalText IniMap IniVariables IniExpansion ExpansionRuns MacroExpansion

/-- Bytes of a token. -/
abbrev tokenSize : ℕ := 1024

/-- Bytes of the array of a line. -/
abbrev lineSize : ℕ := 4*tokenSize+1

/-- Accesses that leave an array. -/
inductive LoadFault where
  | beforeStart
  | pastEnd
  | record (f : Fault)
  | buffer (f : BufFault)

/-- Lines as fgets returns them: up to a newline or the given number of bytes. The
first list is the line read so far. -/
def readLines (size : ℕ) : List Char → List Char → List (List Char)
  | run, [] => if run = [] then [] else [run]
  | run, c :: s =>
    if c = '\n' ∨ (run ++ [c]).length = size then (run ++ [c]) :: readLines size [] s
    else readLines size (run ++ [c]) s

/-- Text without the space in front of it and, if it is to be, that at its end. The
search from the end does not stop before a text of spaces. -/
def trimStr (s : List Char) (trimEnd : Bool) : Except LoadFault (List Char) :=
  if s = [] ∨ trimEnd = false then .ok (s.dropWhile isSpace)
  else if s.all isSpace then .error .beforeStart
  else .ok ((s.dropWhile isSpace).rdropWhile isSpace)

/-- A text that goes into an array with its NUL. -/
def inArray (size : ℕ) (s : List Char) : Except LoadFault (List Char) :=
  if s.length < size then .ok s else .error .pastEnd

/-- Scan a set of characters: at least one of them and no more than a token. -/
def scanSet (p : Char → Bool) (s : List Char) : Option (List Char × List Char) :=
  let token := (s.take tokenSize).takeWhile p
  if token = [] then none else some (token, s.drop token.length)

/-- The name of a section, up to its bracket or to the end of the line. -/
def scanSection (s : List Char) : Option (List Char) :=
  match s with
  | '[' :: s => (scanSet (· ≠ ']') s).map Prod.fst
  | _ => none

/-- What follows an equals sign and the space around it. -/
def scanValue (s : List Char) : List Char :=
  match s.dropWhile isSpace with
  | '=' :: s =>
    ((scanSet (fun c => c ≠ '\r' ∧ c ≠ '\n') (s.dropWhile isSpace)).map Prod.fst).getD []
  | _ => []

/-- A key with its value, which is empty without an equals sign. -/
def scanPair (s : List Char) : Option (List Char × List Char) :=
  (scanSet (· ≠ '=') s).map fun r => (r.1, scanValue r.2)

/-- State of ini_load between two lines. Beside what the source has, it keeps the
calls of add_key_value. -/
structure LoadState where
  /-- Array of the line. -/
  line : List Char
  /-- Section with its colon. -/
  sec : List Char
  /-- Line number, 32 bits. -/
  lineNum : ℕ
  /-- Records. -/
  table : List IniKv
  /-- Calls made. -/
  calls : List Call

/-- A line that begins a section. -/
def LoadState.enter (st : LoadState) (name : List Char) : Except LoadFault LoadState := do
  let name ← inArray (2*tokenSize+2) name
  let sec ← inArray (2*tokenSize+2) (name ++ [':'])
  .ok { st with sec := sec }

/-- A line with a key. -/
def LoadState.add (st : LoadState) (key val : List Char) : Except LoadFault LoadState := do
  let sec ← inArray (2*tokenSize+2) (st.sec ++ key)
  let val ← inArray (tokenSize+1) val
  let curKey ← trimStr sec true
  let curVal ← trimStr val true
  let table ← (addKeyValue st.table curKey curVal st.lineNum).mapError .record
  .ok { st with table := table, calls := st.calls ++ [⟨curKey, curVal, st.lineNum⟩] }

/-- A line that is neither empty nor a comment. -/
def LoadState.take (st : LoadState) (whr : List Char) : Except LoadFault LoadState :=
  match scanSection whr with
  | some name => st.enter name
  | none =>
    match scanPair whr with
    | some pair => st.add pair.1 pair.2
    | none => .ok st

/-- One line. -/
def loadLine (st : LoadState) (chunk : List Char) : Except LoadFault LoadState := do
  let line ← (store st.line 0 (chunk ++ ['\x00'])).mapError .buffer
  let whr ← trimStr (strAt line 0) false
  let st := { st with line := line, lineNum := (st.lineNum+1)%2^32 }
  if whr = [] ∨ whr.head? = some ';' ∨ whr.head? = some '#' then .ok st else st.take whr

/-- The loop over the lines. The array of the line holds anything at first. -/
def loadLines (junk file : List Char) : Except LoadFault LoadState :=
  (readLines (lineSize-1) [] file).foldlM loadLine ⟨junk, [], 0, [], []⟩

/-- Read a file; NULL is none. -/
def iniLoad (junk file : List Char) : Except LoadFault (Option (List IniEntry)) := do
  let st ← loadLines junk file
  let r ← (replaceVar (lineFuel lineSize) [] (entriesOf st.calls st.table) st.line).mapError .buffer
  .ok r.1

/-- The name under which a key is found, cut to the size of its array. -/
def fullKey (sec key : List Char) : List Char :=
  if sec = [] then key else (sec ++ ':' :: key).take (2*tokenSize)

/-- A value of a key. -/
def iniFind (ini : List IniEntry) (sec key : List Char) (idx : ℕ) : Option (List Char) :=
  (findKey ini (fullKey sec key) idx).1

/-- The number of values of a key. -/
def iniCount (ini : List IniEntry) (sec key : List Char) : ℕ := (findKey ini (fullKey sec key) 0).2

/-- Text without space at either end. -/
structure Trimmed (s : List Char) : Prop where
  first : ∀ c ∈ s.head?, isSpace c = false
  last : ∀ c ∈ s.getLast?, isSpace c = false

variable {s t token rest name key val : List Char} {p : Char → Bool}

/-- Only white space in front is cut from a value. -/
theorem trimStr_start (s : List Char) : trimStr s false = .ok (s.dropWhile isSpace) :=
  if_pos (.inr rfl)

/-- A text with more than space is trimmed at both ends. -/
theorem trimStr_ends (h : ∃ c ∈ s, isSpace c = false) :
    trimStr s true = .ok ((s.dropWhile isSpace).rdropWhile isSpace) := by
  obtain ⟨c, hc, hspace⟩ := h
  have hnil : s ≠ [] := List.ne_nil_of_mem hc
  have hall : ¬s.all isSpace = true := by
    rw [List.all_eq_true]
    intro h
    rw [h c hc] at hspace
    exact absurd hspace (by decide)
  rw [trimStr, if_neg (by simpa using hnil), if_neg hall]

/-- A trimmed text is a part of the text. -/
theorem trimmed_part (p : Char → Bool) (s : List Char) : (s.dropWhile p).rdropWhile p <:+: s :=
  (List.rdropWhile_prefix _ _).isInfix.trans (List.dropWhile_suffix _).isInfix

/-- A text with another character is not dropped whole. -/
theorem dropWhile_ne_nil (h : ∃ c ∈ s, p c = false) : s.dropWhile p ≠ [] := by
  obtain ⟨c, hc, hp⟩ := h
  intro hnil
  have hall := List.dropWhile_eq_nil_iff.mp hnil c hc
  rw [hp] at hall
  exact absurd hall (by decide)

/-- What is left does not start with a dropped character. -/
theorem head_dropWhile (p : Char → Bool) (s : List Char) :
    ∀ c ∈ (s.dropWhile p).head?, p c = false := by
  intro c hc
  have hnot := List.head?_dropWhile_not p s
  rw [Option.mem_def.mp hc] at hnot
  simpa using hnot

/-- What is trimmed at both ends has no space there. -/
theorem trimmed_ends (s : List Char) : Trimmed ((s.dropWhile isSpace).rdropWhile isSpace) := by
  refine ⟨fun c hc => ?_, fun c hc => ?_⟩
  · obtain ⟨u, hu⟩ := List.rdropWhile_prefix isSpace (s.dropWhile isSpace)
    refine head_dropWhile isSpace s c ?_
    rw [← hu, List.head?_append, Option.mem_def.mp hc]
    rfl
  · obtain ⟨hne, rfl⟩ := List.mem_getLast?_eq_getLast hc
    simpa using List.rdropWhile_last_not isSpace (s.dropWhile isSpace) hne

/-- A token is not empty, and begins the text. -/
theorem scanSet_spec (h : scanSet p s = some (token, rest)) :
    token ≠ [] ∧ token.length ≤ tokenSize ∧ token <+: s := by
  unfold scanSet at h
  dsimp only at h
  split_ifs at h with hnil
  obtain ⟨rfl, -⟩ := Prod.mk.inj (Option.some.inj h)
  have hbegin := List.takeWhile_prefix (l := s.take tokenSize) p
  refine ⟨hnil, hbegin.length_le.trans ?_, hbegin.trans (List.take_prefix _ _)⟩
  rw [List.length_take]
  exact Nat.min_le_left _ _

/-- The rest of a text is what follows a token. -/
theorem scanSet_rest (h : scanSet p s = some (token, rest)) : rest <:+ s := by
  unfold scanSet at h
  dsimp only at h
  split_ifs at h with hnil
  rw [← (Prod.mk.inj (Option.some.inj h)).2]
  exact List.drop_suffix _ _

/-- A section name has room in its array. -/
theorem scanSection_spec (h : scanSection s = some name) : name.length ≤ tokenSize ∧ name ⊆ s := by
  unfold scanSection at h
  split at h
  · obtain ⟨r, hr, rfl⟩ := Option.map_eq_some_iff.mp h
    obtain ⟨-, hlen, hbegin⟩ := scanSet_spec hr
    exact ⟨hlen, fun c hc => List.mem_cons_of_mem _ (hbegin.subset hc)⟩
  · exact absurd h (by simp)

/-- A value does not begin with space. -/
theorem scanValue_spec (s : List Char) :
    (scanValue s).length ≤ tokenSize ∧ scanValue s ⊆ s ∧
    ∀ c ∈ (scanValue s).head?, isSpace c = false := by
  unfold scanValue
  split
  · rename_i u hu
    cases hr : scanSet (fun c => c ≠ '\r' ∧ c ≠ '\n') (u.dropWhile isSpace) with
    | none => simp
    | some r =>
      obtain ⟨hnil, hlen, hbegin⟩ := scanSet_spec hr
      refine ⟨hlen, fun c hc => ?_, fun c hc => ?_⟩
      · have hmem := (List.dropWhile_suffix isSpace).subset (hbegin.subset hc)
        refine (List.dropWhile_suffix isSpace).subset ?_
        rw [hu]
        exact List.mem_cons_of_mem _ hmem
      · obtain ⟨v, hv⟩ := hbegin
        refine head_dropWhile isSpace u c ?_
        rw [← hv, List.head?_append]
        rw [Option.map_some, Option.getD_some] at hc
        rw [Option.mem_def.mp hc]
        rfl
  · simp

/-- A line is no longer than the array allows. -/
theorem readLines_length {size : ℕ} {run : List Char} (h : run.length < size) :
    ∀ l ∈ readLines size run s, l.length ≤ size := by
  induction s generalizing run with
  | nil =>
    intro l hl
    rw [readLines] at hl
    split_ifs at hl
    · exact absurd hl List.not_mem_nil
    · rw [List.mem_singleton.mp hl]
      exact h.le
  | cons c s ih =>
    intro l hl
    have hlen : (run ++ [c]).length = run.length+1 := by
      rw [List.length_append, List.length_singleton]
    rw [readLines] at hl
    split_ifs at hl with hend
    · rcases List.mem_cons.mp hl with rfl | hl
      · omega
      · exact ih (by rw [List.length_nil]; omega) l hl
    · refine ih ?_ l hl
      have hne : (run ++ [c]).length ≠ size := fun he => hend (.inr he)
      omega

end Ucmq.IniText
