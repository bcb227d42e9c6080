import Ucmq.Evhttp

/-!
# Directories of queues

The path macros of mq_store_file.h print into buffers of two sizes, 128 bytes for
a queue directory and 256 for a file. A printed path is cut at its buffer. The
directory of a queue is the parent of its files, apart from the directories of
all other queues and from the data path, exactly as long as data path and name
together leave room for the separator and the terminator.
-/

namespace Ucmq.QueuePath

open DecimalText StoreState StoreFile Evhttp

/-- Text that reaches a buffer of the given size, with its terminator. -/
def snprintf (size : ℕ) (text : List Char) : List Char := text.take (size-1)

/-- The data path as it is stored from the configuration file. -/
def readDataFilePath (param : List Char) : List Char := param.take (128-1)

/-- Directory of a queue. -/
def genQueuePathByQname (dataFilePath qname : List Char) : List Char :=
  snprintf 128 (dataFilePath ++ '/' :: qname)

/-- File in the directory of a queue. -/
def genFullPath (dataFilePath qname fname : List Char) : List Char :=
  snprintf 256 (dataFilePath ++ '/' :: (qname ++ '/' :: fname))

/-- Position log of a queue. -/
def genRtagFullPathByQnameIndex (dataFilePath qname : List Char) (index : ℕ) : List Char :=
  genFullPath dataFilePath qname (fnameText (.rtag index))

/-- Data file of a queue. -/
def genDataFullPathByQnameIndex (dataFilePath qname : List Char) (index : ℕ) : List Char :=
  genFullPath dataFilePath qname (fnameText (.db index))

/-- Names along a path. -/
def components (path : List Char) : List (List Char) := strtok '/' [] path

/-- Names along the path of the parent directory. -/
def parent (path : List Char) : List (List Char) := (components path).dropLast

/-- The recursive removal of one path reaches another. -/
def Reaches (path file : List Char) : Prop := (components path).IsPrefix (components file)

variable {path a b : List Char}

/-- Tokens before and behind a separator. -/
theorem strtok_append_sep (sep : Char) (run u v : List Char) :
    strtok sep run (u ++ sep :: v) = strtok sep run u ++ strtok sep [] v := by
  induction u generalizing run with
  | nil =>
    rw [List.nil_append]
    simp only [strtok, if_true]
    split <;> rfl
  | cons c u ih =>
    rw [List.cons_append, strtok, strtok]
    split
    · split
      · exact ih []
      · rw [ih [], List.cons_append]
    · exact ih (run ++ [c])

/-- Separators join the names along two paths. -/
theorem components_append (p q : List Char) :
    components (p ++ '/' :: q) = components p ++ components q :=
  strtok_append_sep '/' [] p q

/-- A name is one component. -/
theorem components_name {name : List Char} (hn : '/' ∉ name) (hne : name ≠ []) :
    components name = [name] := by
  have hrun := strtok_run hn [] []
  rw [List.append_nil, List.nil_append, strtok, if_neg hne] at hrun
  exact hrun

/-- Accepted names are nonempty, short, and have no separator. -/
theorem qname_of_check {name : String} (h : reqQnameCheck (some name) = true) :
    name.toList ≠ [] ∧ name.toList.length ≤ 32 ∧ '/' ∉ name.toList := by
  simp only [reqQnameCheck, decide_eq_true_eq] at h
  obtain ⟨hpos, hle, hall⟩ := h
  refine ⟨List.ne_nil_of_length_pos hpos, hle, fun hm => ?_⟩
  obtain ⟨i, hi, he⟩ := List.mem_iff_getElem.mp hm
  have hc := hall ('/', i) (by
    rw [List.mk_mem_zipIdx_iff_getElem?, List.getElem?_eq_getElem hi, he])
  simp [qnameCharOk] at hc

/-- A file name holds no separator. -/
theorem fname_no_sep (f : Fname) : '/' ∉ fnameText f := by
  intro hm
  cases f with
  | db i =>
    rcases List.mem_append.mp hm with h | h
    · exact absurd h (by decide)
    · have := isDigit_padDec h
      simp at this
  | rtag i =>
    rcases List.mem_append.mp hm with h | h
    · exact absurd h (by decide)
    · have := isDigit_padDec h
      simp at this

/-- An index has at most twenty digits. -/
theorem length_padDec_le {i : ℕ} (hi : i < 2^64) : (padDec 12 i).length ≤ 20 := by
  have hl :=
    (Nat.length_toDigits_le_iff (b := 10) (k := 20) (n := i) (by decide) (by decide)).mpr (by omega)
  simp only [padDec, List.length_append, List.length_replicate]
  omega

/-- Length of a file name. -/
theorem length_fnameText {f : Fname} {i : ℕ} (hf : f = .db i ∨ f = .rtag i) (hi : i < 2^64) :
    (fnameText f).length ≤ 25 ∧ fnameText f ≠ [] := by
  have hl := length_padDec_le hi
  rcases hf with rfl | rfl
  · refine ⟨?_, by simp [fnameText]⟩
    simp only [fnameText, List.length_append, List.length_cons, List.length_nil]
    omega
  · refine ⟨?_, by simp [fnameText]⟩
    simp only [fnameText, List.length_append, List.length_cons, List.length_nil]
    omega

/-- Data path and name fit into the buffer of a queue directory. -/
def Fits (path qname : List Char) : Prop := path.length+1+qname.length ≤ 127

/-- A directory path that fits is not cut. -/
theorem components_queuePath (h : Fits path a) (hn : '/' ∉ a) (hne : a ≠ []) :
    components (genQueuePathByQname path a) = components path ++ [a] := by
  have hlen : (path ++ '/' :: a).length ≤ 128-1 := by
    simp only [List.length_append, List.length_cons]
    unfold Fits at h
    omega
  rw [genQueuePathByQname, snprintf, List.take_of_length_le hlen, components_append,
    components_name hn hne]

/-- File paths are never cut. -/
theorem components_fullPath {f : Fname} {i : ℕ} (hp : path.length ≤ 127) (ha : a.length ≤ 32)
    (hn : '/' ∉ a) (hne : a ≠ []) (hf : f = .db i ∨ f = .rtag i) (hi : i < 2^64) :
    components (genFullPath path a (fnameText f)) = components path ++ [a, fnameText f] := by
  obtain ⟨hl, hfne⟩ := length_fnameText hf hi
  have hlen : (path ++ '/' :: (a ++ '/' :: fnameText f)).length ≤ 256-1 := by
    simp only [List.length_append, List.length_cons]
    omega
  rw [genFullPath, snprintf, List.take_of_length_le hlen, components_append, components_append,
    components_name hn hne, components_name (fname_no_sep f) hfne]
  rfl

/-- The directory of one name is apart from that of another, below the data path,
the parent of its own files, and its removal spares the files of the other. -/
structure OwnDirectory (path a b : List Char) : Prop where
  apart : components (genQueuePathByQname path a) ≠ components (genQueuePathByQname path b)
  below : components (genQueuePathByQname path a) ≠ components path
  rtagParent : ∀ i, i < 2^64 →
    parent (genRtagFullPathByQnameIndex path a i) = components (genQueuePathByQname path a)
  dataParent : ∀ i, i < 2^64 →
    parent (genDataFullPathByQnameIndex path a i) = components (genQueuePathByQname path a)
  spares : ∀ i, i < 2^64 →
    ¬Reaches (genQueuePathByQname path a) (genRtagFullPathByQnameIndex path b i) ∧
      ¬Reaches (genQueuePathByQname path a) (genDataFullPathByQnameIndex path b i)

/-- After a data path that fills its buffer nothing of the name is left. -/
theorem queuePath_of_full (hp : path.length = 127) (a : List Char) :
    genQueuePathByQname path a = path := by
  rw [genQueuePathByQname, snprintf, List.take_append_of_le_length (by omega),
    List.take_of_length_le (by omega)]

/-- A directory that is the parent of its files was not cut. -/
theorem fits_of_parent (hp : path.length ≤ 127) (ha : a.length ≤ 32) (hn : '/' ∉ a) (hne : a ≠ [])
    (h : parent (genDataFullPathByQnameIndex path a 1) = components (genQueuePathByQname path a)) :
    Fits path a := by
  rw [genDataFullPathByQnameIndex, parent,
    components_fullPath hp ha hn hne (Or.inl rfl) (by decide)] at h
  have hdrop : (components path ++ [a, fnameText (.db 1)]).dropLast = components path ++ [a] := by
    rw [show [a, fnameText (.db 1)] = [a] ++ [fnameText (.db 1)] from rfl, ← List.append_assoc,
      List.dropLast_concat]
  rw [hdrop] at h
  by_contra hlong
  unfold Fits at hlong
  rcases Nat.lt_or_ge path.length 127 with hlt | hge
  · have hcut : genQueuePathByQname path a = path ++ '/' :: a.take (126-path.length) := by
      rw [genQueuePathByQname, snprintf, List.take_append, List.take_of_length_le (by omega),
        show 128-1-path.length = (126-path.length)+1 by omega, List.take_succ_cons]
    have hn' : '/' ∉ a.take (126-path.length) := fun hm => hn (List.mem_of_mem_take hm)
    rw [hcut, components_append] at h
    have htail := List.append_cancel_left h
    by_cases hnil : a.take (126-path.length) = []
    · rw [hnil] at htail
      cases htail
    · rw [components_name hn' hnil] at htail
      have hlen := congrArg List.length (List.cons.inj htail).1
      rw [List.length_take] at hlen
      omega
  · rw [queuePath_of_full (by omega)] at h
    have hlen := congrArg List.length h
    simp at hlen

/-- Names that fit have directories of their own. -/
theorem ownDirectory_of_fits (hp : path.length ≤ 127) (ha : a.length ≤ 32) (hn : '/' ∉ a)
    (hne : a ≠ []) (hb : b.length ≤ 32) (hn' : '/' ∉ b) (hne' : b ≠ []) (hab : a ≠ b)
    (hfa : Fits path a) (hfb : Fits path b) :
    OwnDirectory path a b := by
  have hda := components_queuePath hfa hn hne
  have hdb := components_queuePath hfb hn' hne'
  have hparent :
      ∀ f : Fname, (components path ++ [a, fnameText f]).dropLast = components path ++ [a] := by
    intro f
    rw [show [a, fnameText f] = [a] ++ [fnameText f] from rfl, ← List.append_assoc,
      List.dropLast_concat]
  have hspare :
      ∀ f : Fname, ¬(components path ++ [a]).IsPrefix (components path ++ [b, fnameText f]) := by
    intro f hpre
    rw [List.prefix_append_right_inj] at hpre
    exact hab (List.cons_prefix_cons.mp hpre).1
  refine ⟨?_, ?_, fun i hi => ?_, fun i hi => ?_, fun i hi => ⟨?_, ?_⟩⟩
  · rw [hda, hdb]
    intro h
    exact hab (List.cons.inj (List.append_cancel_left h)).1
  · rw [hda]
    intro h
    have hlen := congrArg List.length h
    simp at hlen
  · rw [hda, parent, genRtagFullPathByQnameIndex,
      components_fullPath hp ha hn hne (Or.inr rfl) hi, hparent]
  · rw [hda, parent, genDataFullPathByQnameIndex,
      components_fullPath hp ha hn hne (Or.inl rfl) hi, hparent]
  · rw [Reaches, hda, genRtagFullPathByQnameIndex,
      components_fullPath hp hb hn' hne' (Or.inr rfl) hi]
    exact hspare _
  · rw [Reaches, hda, genDataFullPathByQnameIndex,
      components_fullPath hp hb hn' hne' (Or.inl rfl) hi]
    exact hspare _

/-- Two accepted names have directories of their own exactly when both fit after
the stored data path. -/
theorem own_directories_iff {param : List Char} {m n : String} (hm : reqQnameCheck (some m) = true)
    (hn : reqQnameCheck (some n) = true) (hmn : m ≠ n) :
    (OwnDirectory (readDataFilePath param) m.toList n.toList ∧
      OwnDirectory (readDataFilePath param) n.toList m.toList) ↔
    Fits (readDataFilePath param) m.toList ∧ Fits (readDataFilePath param) n.toList := by
  have hp : (readDataFilePath param).length ≤ 127 := List.length_take_le _ _
  obtain ⟨hmne, hmle, hmsep⟩ := qname_of_check hm
  obtain ⟨hnne, hnle, hnsep⟩ := qname_of_check hn
  have hne : m.toList ≠ n.toList := fun h => hmn (String.ext h)
  constructor
  · rintro ⟨hom, hon⟩
    exact ⟨fits_of_parent hp hmle hmsep hmne (hom.dataParent 1 (by decide)),
      fits_of_parent hp hnle hnsep hnne (hon.dataParent 1 (by decide))⟩
  · rintro ⟨hfm, hfn⟩
    exact ⟨ownDirectory_of_fits hp hmle hmsep hmne hnle hnsep hnne hne hfm hfn,
      ownDirectory_of_fits hp hnle hnsep hnne hmle hmsep hmne hne.symm hfn hfm⟩

/-- Two names under a short data path. -/
theorem own_directories_iff_data :
    OwnDirectory (readDataFilePath ['d', 'a', 't', 'a']) "a".toList "b".toList ∧
      OwnDirectory (readDataFilePath ['d', 'a', 't', 'a']) "b".toList "a".toList :=
  (own_directories_iff (by decide) (by decide) (by decide)).mpr
    ⟨by unfold Fits; decide, by unfold Fits; decide⟩

/-- Under a data path of 127 bytes the directory of every queue is the data path
itself. -/
theorem queue_path_is_data_path :
    ∃ path : List Char, readDataFilePath path = path ∧ path.length = 127 ∧
      ¬OwnDirectory path "a".toList "b".toList ∧
      genQueuePathByQname path "a".toList = path ∧
      Reaches (genQueuePathByQname path "a".toList)
        (genDataFullPathByQnameIndex path "b".toList 1) := by
  have hlen : (List.replicate 127 'd').length = 127 := List.length_replicate
  have hdir : ∀ a, genQueuePathByQname (List.replicate 127 'd') a = List.replicate 127 'd' :=
    queuePath_of_full hlen
  refine ⟨List.replicate 127 'd', List.take_of_length_le (by omega), hlen,
    fun h => h.below (by rw [hdir]),
    hdir _, ?_⟩
  rw [Reaches, hdir, genDataFullPathByQnameIndex,
    components_fullPath (by omega) (by decide) (by decide)
    (by decide) (Or.inl rfl) (by decide)]
  exact List.prefix_append _ _

end Ucmq.QueuePath
