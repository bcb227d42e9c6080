import Ucmq.StoreFile
import Mathlib.Data.List.Perm.Basic
import Mathlib.Data.List.Perm.Lattice
import Mathlib.Data.List.Permutation

/-!
# Which files a queue is loaded from

Directory entries arrive in any order. The data files with the least and the
greatest name are the read and the write file, and below 10^12 the order of
names is the order of indices. Of two position logs the first one listed is
kept unless the bare name of the second is also found in the working directory.
-/

namespace Ucmq.HandleFile

open DecimalText StoreConfig StoreState StoreFile

variable {sys : Sys} {listing : List Fname} {r w : ℕ}

/-- Names with the same beginning are ordered by what follows. -/
theorem append_lt_append_iff (p : List Char) {a b : List Char} : p ++ a < p ++ b ↔ a < b := by
  induction p with
  | nil => rfl
  | cons c p ih =>
    rw [List.cons_append, List.cons_append, List.cons_lt_cons_iff, ih]
    simp

/-- Names of data files are ordered as their indices below 10^12. -/
theorem fnameText_db_lt_iff {i j : ℕ} (hi : i < 10^12) (hj : j < 10^12) :
    fnameText (.db i) < fnameText (.db j) ↔ i < j := by
  rw [fnameText, fnameText, append_lt_append_iff, padDec_lt_iff (by decide) hi hj]

/-- Names of position logs are ordered likewise. -/
theorem fnameText_rtag_lt_iff {i j : ℕ} (hi : i < 10^12) (hj : j < 10^12) :
    fnameText (.rtag i) < fnameText (.rtag j) ↔ i < j := by
  rw [fnameText, fnameText, append_lt_append_iff, padDec_lt_iff (by decide) hi hj]

/-- The parts of a file name. -/
theorem strtok_fname {word : List Char} (hw : '_' ∉ word) (hne : word ≠ []) (i : ℕ) :
    strtok '_' [] (word ++ '_' :: padDec 12 i) = [word, padDec 12 i] := by
  have hsep : '_' ∉ padDec 12 i := fun hm => by
    have := isDigit_padDec hm
    simp at this
  have hrun := strtok_run hsep [] []
  rw [List.append_nil, List.nil_append] at hrun
  rw [strtok_run hw, List.nil_append, strtok, if_pos rfl, if_neg hne, hrun, strtok,
    if_neg (padDec_ne_nil 12 i)]

/-- The index in a file name is read back from it. -/
theorem getIdByFname_eq (f : Fname) {i : ℕ} (hf : f = .db i ∨ f = .rtag i) (hi : i < 2^63) :
    getIdByFname f = i := by
  have htok : (strtok '_' [] (fnameText f)).getLast? = some (padDec 12 i) := by
    rcases hf with rfl | rfl
    · have := @strtok_fname ['d', 'b'] (by decide) (by decide) i
      simp only [List.cons_append, List.nil_append] at this
      simp [fnameText, this]
    · have := @strtok_fname ['r', 't', 'a', 'g'] (by decide) (by decide) i
      simp only [List.cons_append, List.nil_append] at this
      simp [fnameText, this]
  have hval : strtoll (padDec 12 i) = i := by
    rw [strtoll_digits (fun _ => isDigit_padDec) (by simpa using hi), decValue_padDec]
  rw [getIdByFname, htok]
  simp only [hval]
  omega

/-- Entries of the position log kind. -/
def isRtag : Fname → Bool
  | .db _ => false
  | .rtag _ => true

/-- One more position log is listed. -/
def rtagStep (sys : Sys) (acc : Option Fname) (ent : Fname) : Option Fname :=
  match acc with
  | none => some ent
  | some t =>
    if sys.cwdSize ent < 0 then some t else some (if fnameText t < fnameText ent then ent else t)

/-- The choice of a position log depends on the position logs only. -/
theorem findFold_rtagFname (acc : FindState) :
    (listing.foldl (findStep sys) acc).rtagFname =
      (listing.filter isRtag).foldl (rtagStep sys) acc.rtagFname := by
  induction listing generalizing acc with
  | nil => rfl
  | cons ent listing ih =>
    rw [List.foldl_cons, ih]
    cases ent with
    | db i =>
      have hstep : (findStep sys acc (.db i)).rtagFname = acc.rtagFname := by
        unfold findStep
        dsimp only
        split <;> rfl
      simp [isRtag, hstep]
    | rtag i =>
      have hstep :
          (findStep sys acc (.rtag i)).rtagFname = rtagStep sys acc.rtagFname (.rtag i) := by
        cases hacc : acc.rtagFname with
        | none => simp [findStep, rtagStep, hacc]
        | some t => by_cases hc : sys.cwdSize (.rtag i) < 0 <;> simp [findStep, rtagStep, hacc, hc]
      rw [hstep, List.filter_cons_of_pos rfl, List.foldl_cons]

/-- A position log leaves the chosen data files alone. -/
theorem findStep_rtag (sys : Sys) (acc : FindState) (i : ℕ) :
    (findStep sys acc (.rtag i)).readFname = acc.readFname ∧
      (findStep sys acc (.rtag i)).writeFname = acc.writeFname := by
  unfold findStep
  dsimp only
  split
  · exact ⟨rfl, rfl⟩
  · split <;> exact ⟨rfl, rfl⟩

/-- A data file takes the place of the lowest or the highest one chosen. -/
theorem findStep_db (sys : Sys) {acc : FindState} {i a b : ℕ} (hr : acc.readFname = some (.db a))
    (hw : acc.writeFname = some (.db b)) (hi : i < 10^12) (ha : a < 10^12) (hb : b < 10^12) :
    findStep sys acc (.db i) =
      { acc with readFname := some (.db (min i a)), writeFname := some (.db (max i b)) } := by
  have hmin : (if fnameText (.db i) < fnameText (.db a) then Fname.db i else .db a) =
      .db (min i a) := by
    by_cases hia : i < a
    · rw [if_pos ((fnameText_db_lt_iff hi ha).mpr hia), min_eq_left hia.le]
    · rw [if_neg (mt (fnameText_db_lt_iff hi ha).mp hia), min_eq_right (by omega)]
  have hmax : (if fnameText (.db b) < fnameText (.db i) then Fname.db i else .db b) =
      .db (max i b) := by
    by_cases hib : b < i
    · rw [if_pos ((fnameText_db_lt_iff hb hi).mpr hib), max_eq_left hib.le]
    · rw [if_neg (mt (fnameText_db_lt_iff hb hi).mp hib), max_eq_right (by omega)]
  simp only [findStep, hr, hw, hmin, hmax]

/-- Data files chosen after a nonempty choice was made. -/
theorem findFold_dbs (hlt : ∀ i, .db i ∈ listing → i < 10^12) {acc : FindState} {a b : ℕ}
    (hr : acc.readFname = some (.db a)) (hw : acc.writeFname = some (.db b)) (ha : a < 10^12)
    (hb : b < 10^12) :
    ∃ a' b', (listing.foldl (findStep sys) acc).readFname = some (.db a') ∧
      (listing.foldl (findStep sys) acc).writeFname = some (.db b') ∧
      (a' = a ∨ .db a' ∈ listing) ∧ (b' = b ∨ .db b' ∈ listing) ∧ a' ≤ a ∧ b ≤ b' ∧
      ∀ i, .db i ∈ listing → a' ≤ i ∧ i ≤ b' := by
  induction listing generalizing acc a b with
  | nil => exact ⟨a, b, hr, hw, Or.inl rfl, Or.inl rfl, le_rfl, le_rfl, fun i hi => by simp at hi⟩
  | cons ent listing ih =>
    have hlt' : ∀ i, .db i ∈ listing → i < 10^12 := fun i hi => hlt i (List.mem_cons_of_mem _ hi)
    rw [List.foldl_cons]
    cases ent with
    | db i =>
      have hi : i < 10^12 := hlt i (by simp)
      rw [findStep_db sys hr hw hi ha hb]
      obtain ⟨a', b', hr', hw', ha', hb', hle, hge, hall⟩ :=
        @ih hlt'
          { acc with readFname := some (.db (min i a)), writeFname := some (.db (max i b)) } _ _
          rfl rfl (by omega) (by omega)
      refine ⟨a', b', hr', hw', ?_, ?_, by omega, by omega, ?_⟩
      · rcases ha' with rfl | hm
        · rcases Nat.le_total i a with h | h
          · rw [min_eq_left h]
            exact Or.inr (by simp)
          · rw [min_eq_right h]
            exact Or.inl rfl
        · exact Or.inr (List.mem_cons_of_mem _ hm)
      · rcases hb' with rfl | hm
        · rcases Nat.le_total i b with h | h
          · rw [max_eq_right h]
            exact Or.inl rfl
          · rw [max_eq_left h]
            exact Or.inr (by simp)
        · exact Or.inr (List.mem_cons_of_mem _ hm)
      · intro k hk
        rcases List.mem_cons.mp hk with heq | hm
        · cases heq
          omega
        · exact hall k hm
    | rtag i =>
      obtain ⟨hkr, hkw⟩ := findStep_rtag sys acc i
      obtain ⟨a', b', hr', hw', ha', hb', hle, hge, hall⟩ :=
        ih hlt' (hkr.trans hr) (hkw.trans hw) ha hb
      refine ⟨a', b', hr', hw', ?_, ?_, hle, hge, ?_⟩
      · exact ha'.imp_right (List.mem_cons_of_mem _)
      · exact hb'.imp_right (List.mem_cons_of_mem _)
      · intro k hk
        rcases List.mem_cons.mp hk with heq | hm
        · cases heq
        · exact hall k hm

/-- Data files chosen from a listing with at least one of them. -/
theorem findFold_dbs_of_mem (hlt : ∀ i, .db i ∈ listing → i < 10^12) {acc : FindState}
    (hr : acc.readFname = none) {k : ℕ} (hk : .db k ∈ listing) :
    ∃ a b, (listing.foldl (findStep sys) acc).readFname = some (.db a) ∧
      (listing.foldl (findStep sys) acc).writeFname = some (.db b) ∧ .db a ∈ listing ∧
      .db b ∈ listing ∧ ∀ i, .db i ∈ listing → a ≤ i ∧ i ≤ b := by
  induction listing generalizing acc with
  | nil => simp at hk
  | cons ent listing ih =>
    have hlt' : ∀ i, .db i ∈ listing → i < 10^12 := fun i hi => hlt i (List.mem_cons_of_mem _ hi)
    rw [List.foldl_cons]
    cases ent with
    | db i =>
      have hi : i < 10^12 := hlt i (by simp)
      have hstep : findStep sys acc (.db i) =
          { acc with readFname := some (.db i), writeFname := some (.db i) } := by
        simp [findStep, hr]
      rw [hstep]
      obtain ⟨a, b, hra, hwb, ha, hb, hle, hge, hall⟩ := @findFold_dbs sys _ hlt'
        { acc with readFname := some (.db i), writeFname := some (.db i) } _ _ rfl rfl hi hi
      refine ⟨a, b, hra, hwb, ?_, ?_, ?_⟩
      · rcases ha with rfl | hm
        · simp
        · exact List.mem_cons_of_mem _ hm
      · rcases hb with rfl | hm
        · simp
        · exact List.mem_cons_of_mem _ hm
      · intro j hj
        rcases List.mem_cons.mp hj with heq | hm
        · cases heq
          exact ⟨hle, hge⟩
        · exact hall j hm
    | rtag i =>
      have hk' : .db k ∈ listing := by
        rcases List.mem_cons.mp hk with heq | hm
        · cases heq
        · exact hm
      obtain ⟨a, b, hra, hwb, ha, hb, hall⟩ := ih hlt' ((findStep_rtag sys acc i).1.trans hr) hk'
      refine ⟨a, b, hra, hwb, List.mem_cons_of_mem _ ha, List.mem_cons_of_mem _ hb, ?_⟩
      intro j hj
      rcases List.mem_cons.mp hj with heq | hm
      · cases heq
      · exact hall j hm

/-- A listing of a directory: every file once, in any order. -/
def IsListing (dir : Dir) (listing : List Fname) : Prop :=
  listing.Nodup ∧ ∀ f, f ∈ listing ↔ dir.has f = true

/-- A directory with the data files of indices r to w. -/
def HasDbs (dir : Dir) (r w : ℕ) : Prop := ∀ i, (dir.db i).isSome = true ↔ r ≤ i ∧ i ≤ w

/-- A directory with one position log. -/
def HasRtag (dir : Dir) (r : ℕ) : Prop := ∀ i, (dir.rtag i).isSome = true ↔ i = r

variable {dir : Dir}

/-- The least and the greatest index are chosen from the data files. -/
theorem findFold_of_hasDbs (hl : IsListing dir listing) (hdb : HasDbs dir r w) (hrw : r ≤ w)
    (hw : w < 10^12) :
    (listing.foldl (findStep sys) ⟨none, none, none⟩).readFname = some (.db r) ∧
      (listing.foldl (findStep sys) ⟨none, none, none⟩).writeFname = some (.db w) := by
  have hmem : ∀ i, .db i ∈ listing ↔ r ≤ i ∧ i ≤ w := fun i => (hl.2 (.db i)).trans (hdb i)
  have hr := (hmem r).mpr ⟨le_rfl, hrw⟩
  have hwm := (hmem w).mpr ⟨hrw, le_rfl⟩
  obtain ⟨a, b, ha, hb, ham, hbm, hall⟩ := @findFold_dbs_of_mem sys _
    (fun i hi => by have := (hmem i).mp hi; omega) ⟨none, none, none⟩ rfl _ hr
  have h₁ := hall r hr
  have h₂ := hall w hwm
  have h₃ := (hmem a).mp ham
  have h₄ := (hmem b).mp hbm
  obtain rfl : a = r := by omega
  obtain rfl : b = w := by omega
  exact ⟨ha, hb⟩

/-- The position logs of a listing, up to their order. -/
theorem filter_isRtag_perm (hl : IsListing dir listing) {l : List ℕ} (hn : l.Nodup)
    (hr : ∀ i, (dir.rtag i).isSome = true ↔ i ∈ l) :
    (listing.filter isRtag).Perm (l.map .rtag) := by
  apply (List.perm_ext_iff_of_nodup (hl.1.filter _) (hn.map fun a b h => by cases h; rfl)).mpr
  intro f
  rw [List.mem_filter, hl.2 f, List.mem_map]
  cases f with
  | db i => simp [isRtag]
  | rtag i => simpa [isRtag, Dir.has] using hr i

/-- The data files of a listing, up to their order. -/
theorem filter_isDb_perm (hl : IsListing dir listing) (hdb : HasDbs dir r w) :
    (listing.filter fun f => !isRtag f).Perm ((List.range' r (w+1-r)).map .db) := by
  have hnd : ((List.range' r (w+1-r)).map Fname.db).Nodup :=
    (List.nodup_range' 1).map fun a b h => by cases h; rfl
  apply (List.perm_ext_iff_of_nodup (hl.1.filter _) hnd).mpr
  intro f
  rw [List.mem_filter, hl.2 f, List.mem_map]
  cases f with
  | db i =>
    have hi := hdb i
    simp only [Dir.has, isRtag, hi, Bool.not_false, and_true, List.mem_range'_1, Fname.db.injEq,
      exists_eq_right]
    omega
  | rtag i => simp [isRtag]

/-- Consecutive data files are chosen with the position log kept for them, if
that has the index of the first one. -/
theorem findHandleFile_of_log {j : ℕ} (hl : IsListing dir listing)
    (hdb : HasDbs dir r w) (hrw : r ≤ w) (hw : w < 10^12)
    (hlog : (listing.filter isRtag).foldl (rtagStep sys) none = some (.rtag j)) (hj : j < 10^12) :
    findHandleFile sys listing = if j = r then some ⟨.rtag r, .db r, .db w⟩ else none := by
  obtain ⟨hread, hwrite⟩ := @findFold_of_hasDbs sys _ _ _ _ hl hdb hrw hw
  have hfold : listing.foldl (findStep sys) ⟨none, none, none⟩ =
      ⟨some (.db r), some (.db w), some (.rtag j)⟩ := by
    rw [← hread, ← hwrite, ← hlog, ← findFold_rtagFname ⟨none, none, none⟩]
  rw [findHandleFile, hfold]
  simp only [getIdByFname_eq (.rtag j) (Or.inr rfl) (by omega),
    getIdByFname_eq (.db r) (Or.inl rfl) (by omega)]
  by_cases hjr : j = r
  · subst hjr
    simp
  · simp [hjr]

/-- In a directory of consecutive data files with the position log of the
first one, exactly these files are chosen, whatever the order of the listing. -/
theorem findHandleFile_of_layout (hl : IsListing dir listing) (hdb : HasDbs dir r w)
    (hrt : HasRtag dir r) (hrw : r ≤ w) (hw : w < 10^12) :
    findHandleFile sys listing = some ⟨.rtag r, .db r, .db w⟩ := by
  have hperm := filter_isRtag_perm hl (l := [r]) (by simp) (fun i => by simpa using hrt i)
  have hlog : (listing.filter isRtag).foldl (rtagStep sys) none = some (.rtag r) := by
    rw [List.perm_singleton.mp hperm]
    rfl
  rw [findHandleFile_of_log hl hdb hrw hw hlog (by omega), if_pos rfl]

/-- The log of the first data file is listed before that of the next one, whose
bare name is not found in the working directory. -/
def OldLogKept (sys : Sys) (listing : List Fname) (r : ℕ) : Prop :=
  List.Sublist [.rtag r, .rtag (r+1)] listing ∧ sys.cwdSize (.rtag (r+1)) < 0

/-- With the position logs of the first two data files the queue is found
exactly when the older one is kept. -/
theorem findHandleFile_of_two_logs (hl : IsListing dir listing) (hdb : HasDbs dir r w)
    (hrt : ∀ i, (dir.rtag i).isSome = true ↔ i = r ∨ i = r+1) (hrw : r < w) (hw : w < 10^12) :
    (OldLogKept sys listing r → findHandleFile sys listing = some ⟨.rtag r, .db r, .db w⟩) ∧
      (¬OldLogKept sys listing r → findHandleFile sys listing = none) := by
  have hfind :=
    fun j hlog (hj : j < 10^12) => @findHandleFile_of_log sys _ _ _ _ _ hl hdb hrw.le hw hlog hj
  have hperm := filter_isRtag_perm hl (l := [r, r+1]) (by simp) (fun i => by simpa using hrt i)
  have hlt :=
    (fnameText_rtag_lt_iff (i := r) (j := r+1) (by omega) (by omega)).mpr (Nat.lt_succ_self r)
  have hge := mt (fnameText_rtag_lt_iff (i := r+1) (j := r) (by omega) (by omega)).mp (by omega)
  rcases List.perm_pair.mp hperm with hf | hf
  · by_cases hcwd : sys.cwdSize (.rtag (r+1)) < 0
    · have hlog := hfind r (by simp [hf, rtagStep, hcwd]) (by omega)
      rw [if_pos rfl] at hlog
      refine ⟨fun _ => hlog, fun hno => absurd ⟨?_, hcwd⟩ hno⟩
      have hsublist := listing.filter_sublist (p := isRtag)
      rwa [hf] at hsublist
    · have hlog := hfind (r+1) (by simp [hf, rtagStep, hcwd, hlt]) (by omega)
      rw [if_neg (by omega)] at hlog
      exact ⟨fun hkept => absurd hkept.2 hcwd, fun _ => hlog⟩
  · have hlog := hfind (r+1) (by simp [hf, rtagStep, hge]) (by omega)
    rw [if_neg (by omega)] at hlog
    refine ⟨fun hkept => ?_, fun _ => hlog⟩
    have hsub : [Fname.rtag r, .rtag (r+1)] = listing.filter isRtag :=
      (hkept.1.filter isRtag).eq_of_length hperm.length_eq.symm
    rw [hf] at hsub
    simp at hsub

end Ucmq.HandleFile
