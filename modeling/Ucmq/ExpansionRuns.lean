import Ucmq.IniExpansion

/-!
# Expansion of all values

replace_var expands the values in place, one after the other, so that a value is
expanded with those before it already replaced. Keys on a cycle are not among
them: their values have no expansion, and the run ends with an error there.
-/

namespace Ucmq.ExpansionRuns

open MacroExpansion IniVariables IniExpansion

variable {size fuel : ℕ} {ini before after : List IniEntry} {key k v v' buf : List Char}
  {done todo vs vs' : List (List Char)} {r : Option (List (List Char))} {lines : List Line}

/-- A value is a C string that the buffer has room for. -/
def Fits (size : ℕ) (v : List Char) : Prop := '\x00' ∉ v ∧ v.length < size

/-- Distinct keys with values that fit. ini_load cuts values to TOKEN_SIZE bytes, and
its buffer has four times as many. -/
structure WellFormed (size : ℕ) (ini : List IniEntry) : Prop where
  keys : (ini.map IniEntry.key).Nodup
  values : ∀ e ∈ ini, ∀ v ∈ e.values, Fits size v

/-- What is promised of a run that is to expand these values. -/
structure RunOk (size : ℕ) (values : List (List Char)) (r : Option (List (List Char)))
    (lines : List Line) :
    Prop where
  /-- Every value that was taken up is treated well. -/
  line : ∀ l ∈ lines, LineOk size l
  /-- The values are taken up in order. -/
  order : lines.map Line.value <+: values
  /-- Without an error all of them are, and replaced by what they came to. -/
  expanded : ∀ vs, r = some vs → lines.map Line.value = values ∧ lines.map Line.result = vs.map some
  /-- An error is that of one of them. -/
  failed : r = none → ∃ l ∈ lines, l.result = none

/-- The values that lead to a cycle with one of the keys still do with the other. -/
def KeepsCycles (ini ini' : List IniEntry) : Prop :=
  ∀ k, OnCycle iniMarks (variableOf ini) k → OnCycle iniMarks (variableOf ini') k

/-- A run over no values. -/
theorem RunOk.nil (size : ℕ) : RunOk size [] (some []) [] :=
  ⟨by simp, List.nil_prefix, by simp, by simp⟩

/-- An error ends the run. -/
theorem RunOk.error {l : Line} (h : LineOk size l) (he : l.result = none)
    (todo : List (List Char)) :
    RunOk size (l.value :: todo) none [l] := by
  refine ⟨?_, ⟨todo, rfl⟩, by simp, fun _ => ⟨l, List.mem_singleton_self l, he⟩⟩
  simpa using h

/-- A run with one value in front. -/
theorem RunOk.cons {l : Line} (h : LineOk size l) (hv : l.result = some v')
    (hrun : RunOk size todo r lines) :
    RunOk size (l.value :: todo) (r.map (v' :: ·)) (l :: lines) := by
  refine ⟨?_, ?_, ?_, ?_⟩
  · rintro m hm
    rcases List.mem_cons.mp hm with rfl | hm
    · exact h
    · exact hrun.line m hm
  · exact (List.prefix_cons_inj _).mpr hrun.order
  · intro vs hvs
    obtain ⟨ws, hws, rfl⟩ := Option.map_eq_some_iff.mp hvs
    obtain ⟨hvalues, hresults⟩ := hrun.expanded ws hws
    exact ⟨by rw [List.map_cons, hvalues], by rw [List.map_cons, List.map_cons, hresults, hv]⟩
  · intro hnone
    obtain ⟨m, hm, he⟩ := hrun.failed (Option.map_eq_none_iff.mp hnone)
    exact ⟨m, List.mem_cons_of_mem _ hm, he⟩

/-- Two runs one after the other. -/
theorem RunOk.append (h : RunOk size vs (some vs') lines) {more : List Line}
    (hrun : RunOk size todo r more) :
    RunOk size (vs ++ todo) (r.map (vs' ++ ·)) (lines ++ more) := by
  obtain ⟨hvalues, hresults⟩ := h.expanded vs' rfl
  refine ⟨?_, ?_, ?_, ?_⟩
  · intro m hm
    rcases List.mem_append.mp hm with hm | hm
    · exact h.line m hm
    · exact hrun.line m hm
  · rw [List.map_append, hvalues]
    exact (List.prefix_append_right_inj vs).mpr hrun.order
  · intro ws hws
    obtain ⟨us, hus, rfl⟩ := Option.map_eq_some_iff.mp hws
    obtain ⟨hvalues', hresults'⟩ := hrun.expanded us hus
    exact ⟨by rw [List.map_append, hvalues, hvalues'],
      by rw [List.map_append, List.map_append, hresults, hresults']⟩
  · intro hnone
    obtain ⟨m, hm, he⟩ := hrun.failed (Option.map_eq_none_iff.mp hnone)
    exact ⟨m, List.mem_append_right _ hm, he⟩

/-- A run that fails, whatever was to follow. -/
theorem RunOk.cut (h : RunOk size vs none lines) (todo : List (List Char)) :
    RunOk size (vs ++ todo) none lines :=
  ⟨h.line, h.order.trans (List.prefix_append _ _), by simp, h.failed⟩

/-- A variable is a key with one value. -/
theorem variableOf_eq_some : variableOf ini k = some v ↔ valuesOf ini k = [v] := by
  unfold variableOf findKey
  constructor
  · intro h
    split_ifs at h with hone
    obtain ⟨w, hw⟩ := List.length_eq_one_iff.mp hone
    rw [hw] at h ⊢
    simpa using h
  · intro h
    simp [h]

/-- A variable is a value of the table. -/
theorem mem_of_variableOf (h : variableOf ini k = some v) : ∃ e ∈ ini, v ∈ e.values := by
  have hvalues := variableOf_eq_some.mp h
  unfold valuesOf at hvalues
  cases hf : ini.find? fun e => e.key = k with
  | none =>
    rw [hf] at hvalues
    exact absurd hvalues (by simp)
  | some e =>
    rw [hf] at hvalues
    dsimp only at hvalues
    exact ⟨e, List.mem_of_find?_eq_some hf, by rw [hvalues]; exact List.mem_singleton_self v⟩

/-- So it holds no zero byte. -/
theorem WellFormed.variable (h : WellFormed size ini) (hk : variableOf ini k = some v) :
    '\x00' ∉ v := by
  obtain ⟨e, he, hv⟩ := mem_of_variableOf hk
  exact (h.values e he v hv).1

/-- The table that add_key_value builds is well formed when the values fit. -/
theorem wellFormed_entriesOf {calls : List IniMap.Call} {table : List IniMap.IniKv}
    (h : IniMap.addAll calls = .ok table) (hfits : ∀ c ∈ calls, Fits size c.value) :
    WellFormed size (entriesOf calls table) := by
  refine ⟨?_, ?_⟩
  · have hkeys : (entriesOf calls table).map IniEntry.key = table.map IniMap.IniKv.key := by
      rw [entriesOf, List.map_map]
      rfl
    rw [hkeys]
    exact IniMap.nodup_addAll h
  · intro e he v hv
    obtain ⟨kv, -, rfl⟩ := List.mem_map.mp he
    obtain ⟨c, hc, rfl⟩ := List.mem_map.mp hv
    exact hfits c (List.mem_of_mem_filter hc)

/-- Other values of a key keep the table well formed when they fit. -/
theorem WellFormed.replace (h : WellFormed size (before ++ ⟨key, vs⟩ :: after))
    (hvs : ∀ v ∈ vs', Fits size v) :
    WellFormed size (before ++ ⟨key, vs'⟩ :: after) := by
  refine ⟨?_, ?_⟩
  · have hkeys := h.keys
    rw [List.map_append, List.map_cons] at hkeys ⊢
    exact hkeys
  · intro e he
    rcases List.mem_append.mp he with hb | he
    · exact h.values e (List.mem_append_left _ hb)
    · rcases List.mem_cons.mp he with rfl | ha
      · exact hvs
      · exact h.values e (List.mem_append_right _ (List.mem_cons_of_mem _ ha))

/-- No earlier entry has the key. -/
theorem WellFormed.not_mem_before (h : WellFormed size (before ++ ⟨key, vs⟩ :: after)) :
    ∀ e ∈ before, e.key ≠ key := by
  intro e he hkey
  have hkeys := h.keys
  rw [List.map_append, List.map_cons] at hkeys
  exact (List.nodup_append.mp hkeys).2.2 e.key (List.mem_map_of_mem he) key List.mem_cons_self hkey

/-- The values of a key. -/
theorem valuesOf_self (h : ∀ e ∈ before, e.key ≠ key) :
    valuesOf (before ++ ⟨key, vs⟩ :: after) key = vs := by
  have hfind : (before ++ ⟨key, vs⟩ :: after).find? (fun e => e.key = key) = some ⟨key, vs⟩ := by
    rw [List.find?_append, List.find?_eq_none.mpr (by simpa using h), Option.none_or,
      List.find?_cons_of_pos (by simp)]
  rw [valuesOf, hfind]

/-- The values of the other keys stay when those of one key change. -/
theorem valuesOf_other (h : k ≠ key) (vs vs' : List (List Char)) :
    valuesOf (before ++ ⟨key, vs⟩ :: after) k = valuesOf (before ++ ⟨key, vs'⟩ :: after) k := by
  have hskip : ∀ vs, (before ++ ⟨key, vs⟩ :: after).find? (fun e => e.key = k) =
      (before ++ after).find? fun e => e.key = k := by
    intro vs
    rw [List.find?_append, List.find?_append, List.find?_cons_of_neg (by simpa using h.symm)]
  rw [valuesOf, valuesOf, hskip, hskip]

/-- A value that has an expansion is none of those on a cycle. -/
theorem keepsCycles_replaced (hkey : ∀ e ∈ before, e.key ≠ key)
    (hexp : Expands iniMarks (variableOf (before ++ ⟨key, done ++ v :: todo⟩ :: after)) v v') :
    KeepsCycles (before ++ ⟨key, done ++ v :: todo⟩ :: after)
      (before ++ ⟨key, done ++ v' :: todo⟩ :: after) := by
  intro k hk
  refine hk.congr fun k hk => ?_
  have hne : k ≠ key := by
    rintro rfl
    obtain ⟨-, ⟨w, hw, -⟩, -⟩ := hk.uses
    have hone : done ++ v :: todo = [w] :=
      (valuesOf_self hkey).symm.trans (variableOf_eq_some.mp hw)
    obtain rfl : v = w := List.mem_singleton.mp (hone ▸ List.mem_append_right _ List.mem_cons_self)
    obtain ⟨k', hk', href⟩ := hk.refers hw
    exact not_expands_of_reachesCycle ⟨k', href, hk'⟩ hexp
  rw [variableOf, variableOf, findKey, findKey, valuesOf_other hne]

/-- A table has the cycles it has. -/
theorem KeepsCycles.refl (ini : List IniEntry) : KeepsCycles ini ini := fun _ h => h

/-- What leads to a cycle still does. -/
theorem KeepsCycles.reachesCycle {ini' : List IniEntry} (h : KeepsCycles ini ini')
    (hv : ReachesCycle iniMarks (variableOf ini) v) :
    ReachesCycle iniMarks (variableOf ini') v := by
  obtain ⟨k, href, hk⟩ := hv
  exact ⟨k, href, h k hk⟩

/-- The values of one key are expanded, none of them one that leads to a cycle,
or there is an error. -/
theorem replaceValues_spec (hwf : WellFormed buf.length (before ++ ⟨key, done ++ todo⟩ :: after))
    (hfuel : lineFuel buf.length ≤ fuel) :
    ∃ r lines buf', replaceValues fuel before after key done todo buf =
      .ok (r.map (done ++ ·), lines, buf') ∧
      buf'.length = buf.length ∧ RunOk buf.length todo r lines ∧
      ∀ vs, r = some vs → WellFormed buf.length (before ++ ⟨key, done ++ vs⟩ :: after) ∧
        KeepsCycles (before ++ ⟨key, done ++ todo⟩ :: after)
          (before ++ ⟨key, done ++ vs⟩ :: after) ∧
        ∀ v ∈ todo, ¬ReachesCycle iniMarks
          (variableOf (before ++ ⟨key, done ++ todo⟩ :: after)) v := by
  induction todo generalizing done buf with
  | nil =>
    refine ⟨some [], [], buf, ?_, rfl, .nil _, ?_⟩
    · rw [replaceValues, Option.map_some, List.append_nil]
    · rintro _ ⟨⟩
      exact ⟨hwf, .refl _, by simp⟩
  | cons v todo ih =>
    obtain ⟨hzero, hlen⟩ := hwf.values ⟨key, done ++ v :: todo⟩ (by simp) v (by simp)
    obtain ⟨r, st, he, hline, hsize, hfits⟩ :=
      replaceInLine_spec (fun _ _ => hwf.variable) hzero hlen hfuel
    rw [replaceValues]
    simp only [he, bind, Except.bind]
    cases r with
    | none => exact ⟨none, _, _, rfl, hsize, .error hline rfl todo, by simp⟩
    | some v' =>
      have hassoc : ∀ us, done ++ [v'] ++ us = done ++ v' :: us := by
        intro us
        rw [List.append_assoc, List.singleton_append]
      have hnext : WellFormed st.buf.length (before ++ ⟨key, done ++ [v'] ++ todo⟩ :: after) := by
        rw [hsize, hassoc]
        refine hwf.replace fun w hw => ?_
        rcases List.mem_append.mp hw with hw | hw
        · exact hwf.values ⟨key, done ++ v :: todo⟩ (by simp) w (List.mem_append_left _ hw)
        · rcases List.mem_cons.mp hw with rfl | hw
          · exact hfits w rfl
          · exact hwf.values ⟨key, done ++ v :: todo⟩ (by simp) w
              (List.mem_append_right _ (List.mem_cons_of_mem _ hw))
      obtain ⟨r, lines, buf', he', hsize', hrun, hdone⟩ := ih hnext (by rwa [hsize])
      rw [hsize] at hsize' hrun hdone
      simp only [hassoc] at he' hdone
      have hkeeps := keepsCycles_replaced hwf.not_mem_before (hline.complete v' rfl)
      refine ⟨r.map (v' :: ·), _, buf', ?_, hsize', hrun.cons hline rfl, ?_⟩
      · dsimp only
        rw [he', Option.map_map]
        rfl
      · intro vs hvs
        obtain ⟨ws, hws, rfl⟩ := Option.map_eq_some_iff.mp hvs
        obtain ⟨hwf', hkeeps', hfree⟩ := hdone ws hws
        refine ⟨hwf', fun k hk => hkeeps' k (hkeeps k hk), fun w hw hcyc => ?_⟩
        rcases List.mem_cons.mp hw with rfl | hw
        · exact absurd (hline.cyclic hcyc) (by simp)
        · exact hfree w hw (hkeeps.reachesCycle hcyc)

/-- The values of all keys are expanded, none of them one that leads to a cycle,
or there is an error. -/
theorem replaceVar_spec {done todo : List IniEntry} (hwf : WellFormed buf.length (done ++ todo))
    (hfuel : lineFuel buf.length ≤ fuel) :
    ∃ r lines, replaceVar fuel done todo buf = .ok (r.map (done ++ ·), lines) ∧
      RunOk buf.length (todo.flatMap IniEntry.values) (r.map (·.flatMap IniEntry.values)) lines ∧
      (r ≠ none →
        ∀ e ∈ todo, ∀ v ∈ e.values, ¬ReachesCycle iniMarks (variableOf (done ++ todo)) v) := by
  induction todo generalizing done buf with
  | nil =>
    refine ⟨some [], [], ?_, .nil _, by simp⟩
    rw [replaceVar, Option.map_some, List.append_nil]
  | cons e todo ih =>
    obtain ⟨r, lines, buf', he, hsize, hrun, hdone⟩ :=
      @replaceValues_spec fuel done todo e.key buf [] e.values hwf hfuel
    rw [replaceVar]
    simp only [he, bind, Except.bind]
    rw [List.flatMap_cons]
    cases r with
    | none => exact ⟨none, lines, rfl, hrun.cut _, by simp⟩
    | some vs =>
      obtain ⟨hwf', hkeeps, hfree⟩ := hdone vs rfl
      rw [List.nil_append, List.append_cons, ← hsize] at hwf'
      obtain ⟨r, more, he', hrun', hfree'⟩ := ih hwf' (by rwa [hsize])
      rw [hsize] at hrun'
      rw [← List.append_cons] at hfree'
      refine ⟨r.map (⟨e.key, vs⟩ :: ·), lines ++ more, ?_, ?_, ?_⟩
      · dsimp only [Option.map_some, List.nil_append]
        rw [he', Option.map_map]
        dsimp only
        congr 3
        funext es
        rw [List.append_assoc]
        rfl
      · have happend := hrun.append hrun'
        rw [Option.map_map] at happend ⊢
        exact happend
      · intro hr d hd v hv hcyc
        rcases List.mem_cons.mp hd with rfl | hd
        · exact hfree v hv hcyc
        · exact hfree' (by simpa using hr) d hd v hv (hkeeps.reachesCycle hcyc)

/-- For all keys and values the expansion ends within the buffer. Every value takes
a bounded number of calls, with the length that of the text all along, and what
has no expansion, by a cycle or otherwise, is an error and no shorter text. -/
theorem replaceVar_expands (hwf : WellFormed buf.length ini) (hfuel : lineFuel buf.length ≤ fuel) :
    ∃ r lines, replaceVar fuel [] ini buf = .ok (r, lines) ∧
      RunOk buf.length (ini.flatMap IniEntry.values) (r.map (·.flatMap IniEntry.values)) lines ∧
      ((∃ e ∈ ini, ∃ v ∈ e.values, ReachesCycle iniMarks (variableOf ini) v) → r = none) := by
  obtain ⟨r, lines, he, hrun, hfree⟩ := @replaceVar_spec fuel buf [] ini hwf hfuel
  refine ⟨r, lines, ?_, hrun, ?_⟩
  · rw [he]
    simp
  · rintro ⟨e, hmem, v, hv, hcyc⟩
    by_contra hr
    exact hfree hr e hmem v hv hcyc

/-- A key that refers to itself is an error. -/
theorem replaceVar_self : ∃ lines,
    replaceVar (lineFuel 8) [] [⟨"a".toList, ["$(a)".toList]⟩] (List.replicate 8 'z') =
      .ok (none, lines) ∧
      RunOk 8 ["$(a)".toList] none lines := by
  have hwf : WellFormed (List.replicate 8 'z').length [⟨"a".toList, ["$(a)".toList]⟩] := by
    refine ⟨by simp, fun e he v hv => ?_⟩
    obtain rfl := List.mem_singleton.mp he
    obtain rfl := List.mem_singleton.mp hv
    exact ⟨by decide, by decide⟩
  have hplain : Plain iniMarks "a".toList := ⟨by decide, by decide⟩
  have hrefers : Refers iniMarks "$(a)".toList "a".toList := ⟨[], [], rfl, hplain⟩
  have huses : Uses iniMarks (variableOf [⟨"a".toList, ["$(a)".toList]⟩]) "a".toList "a".toList :=
    ⟨"$(a)".toList, by decide, hrefers⟩
  obtain ⟨r, lines, he, hrun, hcyc⟩ := @replaceVar_expands (lineFuel 8) _ _ hwf le_rfl
  obtain rfl : r = none :=
    hcyc ⟨_, List.mem_singleton_self _, _, List.mem_singleton_self _, _, hrefers, _, .refl,
      .single huses⟩
  exact ⟨lines, he, hrun⟩

end Ucmq.ExpansionRuns
