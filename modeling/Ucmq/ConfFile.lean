import Mathlib.Algebra.Group.Nat.Defs
import Ucmq.IniRoundTrip
import Ucmq.StoreConfig

/-!
# The global configuration

read_conf_file looks up each parameter in its section and keeps what it has where
a parameter is missing or a number is not one. Texts are cut to their arrays, and
the size of a data file is asserted. A file that states a configuration sets it,
whatever was set before and however the file is laid out.
-/

namespace Ucmq.ConfFile

open DecimalText IniVariables IniExpansion TextSearch IniText IniDocument IniRoundTrip

/-- Text in an array of n bytes. -/
abbrev Str (n : ℕ) : Type := { s : List Char // s.length ≤ n-1 }

/-- Copy at most what the array has room for. -/
def strncpy (n : ℕ) (s : List Char) : Str n := ⟨s.take (n-1), List.length_take_le _ _⟩

/-- Digits only; no text is a number too. -/
def isNumStr (s : List Char) : Bool := s.all Char.isDigit

/-- g_mq_conf. -/
structure Conf where
  /-- Address to listen on. -/
  httpListenAddr : Str 16
  /-- Port to listen on. -/
  httpListenPort : ℤ
  /-- Address that may execute commands. -/
  allowExecIp : Str 16
  /-- Path of the log. -/
  outputLogPath : Str 128
  /-- Level of the log. -/
  outputLogLevel : Str 16
  /-- Path of the binlog. -/
  binlogFilePath : Str 128
  /-- Keep-alive header. -/
  keepAlive : Str 16
  /-- Path of the configuration file. -/
  confFile : Str 128
  /-- Path of the file with the process id. -/
  pidFile : Str 128
  /-- Reserved free storage in gigabytes, 64 bits. -/
  resStoreSpace : ℕ
  /-- Limit on the number of listed queues. -/
  maxQlistItmes : ℤ
  /-- Accepted puts between two syncs of a write map. -/
  syncInterval : ℤ
  /-- Seconds between two global syncs. -/
  syncTimeInterval : ℤ
  /-- Capacity of a new queue, 32 bits. -/
  defMaxQueue : ℕ
  /-- Delivery delay of a new queue in seconds, 32 bits. -/
  defDelay : ℕ
  /-- Path of the data. -/
  dataFilePath : Str 128
  /-- Data file size in megabytes. -/
  dbFileMaxSize : ℤ

/-- The initial configuration. -/
def gMqConf : Conf :=
  { httpListenAddr := ⟨"0.0.0.0".toList, by decide⟩
    httpListenPort := 1818
    allowExecIp := ⟨"0".toList, by decide⟩
    outputLogPath := ⟨"../log".toList, by decide⟩
    outputLogLevel := ⟨"info".toList, by decide⟩
    binlogFilePath := ⟨"../binlog".toList, by decide⟩
    keepAlive := ⟨"300".toList, by decide⟩
    confFile := ⟨"../conf/ucmq.ini".toList, by decide⟩
    pidFile := ⟨"./ucmq_1818.pid".toList, by decide⟩
    resStoreSpace := 4
    maxQlistItmes := 32
    syncInterval := 100
    syncTimeInterval := 100
    defMaxQueue := 10000000
    defDelay := 0
    dataFilePath := ⟨"../data".toList, by decide⟩
    dbFileMaxSize := 64 }

/-- A parameter: its section and key, and what its value does to a configuration.
None is a failed assertion. -/
structure Param where
  sec : List Char
  key : List Char
  set : Conf → List Char → Option Conf

/-- A parameter that is a text. -/
def textParam (sec key : String) (set : Conf → List Char → Conf) : Param :=
  ⟨sec.toList, key.toList, fun c s => some (set c s)⟩

/-- A parameter that is left alone unless its value is a number. -/
def numParam (sec key : String) (set : Conf → List Char → Conf) : Param :=
  ⟨sec.toList, key.toList, fun c s => if isNumStr s then some (set c s) else some c⟩

/-- The size of a data file, which must not be above its limit. -/
def setDbFileMaxSize (c : Conf) (s : List Char) : Option Conf :=
  if isNumStr s then (if atoi s ≤ 64 then some { c with dbFileMaxSize := atoi s } else none)
    else some c

/-- The parameters, in the order in which they are looked up. -/
def confParams : List Param :=
  [textParam "server" "http_listen_addr" fun c s => { c with httpListenAddr := strncpy 16 s },
    numParam "server" "http_listen_port" fun c s => { c with httpListenPort := atoi s },
    textParam "server" "allow_exec_ip" fun c s => { c with allowExecIp := strncpy 16 s },
    textParam "server" "output_log_path" fun c s => { c with outputLogPath := strncpy 128 s },
    textParam "server" "output_log_level" fun c s => { c with outputLogLevel := strncpy 16 s },
    textParam "server" "binlog_file_path" fun c s => { c with binlogFilePath := strncpy 128 s },
    textParam "server" "keep_alive" fun c s => { c with keepAlive := strncpy 16 s },
    textParam "server" "conf_file" fun c s => { c with confFile := strncpy 128 s },
    textParam "server" "pid_file" fun c s => { c with pidFile := strncpy 128 s },
    numParam "server" "res_store_space" fun c s =>
      { c with resStoreSpace := (strtoll s%2^64).toNat },
    numParam "server" "max_qlist_itmes" fun c s => { c with maxQlistItmes := atoi s },
    numParam "rtag" "sync_interval" fun c s => { c with syncInterval := atoi s },
    numParam "rtag" "sync_time_interval" fun c s => { c with syncTimeInterval := atoi s },
    numParam "queue" "def_max_queue" fun c s => { c with defMaxQueue := (atoi s%2^32).toNat },
    numParam "queue" "def_delay" fun c s => { c with defDelay := (atoi s%2^32).toNat },
    textParam "db" "data_file_path" fun c s => { c with dataFilePath := strncpy 128 s },
    ⟨"db".toList, "db_file_max_size".toList, setDbFileMaxSize⟩]

/-- Look up one parameter. -/
def Param.load (p : Param) (find : List Char → List Char → Option (List Char)) (c : Conf) :
    Option Conf :=
  match find p.sec p.key with
  | none => some c
  | some s => p.set c s

/-- Look up the parameters one after the other. -/
def loadParams (ps : List Param) (find : List Char → List Char → Option (List Char)) (c : Conf) :
    Option Conf :=
  ps.foldlM (fun c p => p.load find c) c

/-- Why reading the configuration ends the process. -/
inductive ConfFault where
  | load (f : LoadFault)
  | assertion

/-- Read the file that the configuration names. A file that cannot be opened or
expanded is an error, and changes nothing. -/
def readConfFile (fopen : List Char → Option (List Char)) (junk : List Char) (c : Conf) :
    Except ConfFault (Bool × Conf) :=
  match fopen c.confFile.1 with
  | none => .ok (false, c)
  | some file => do
    let r ← (iniLoad junk file).mapError .load
    match r with
    | none => .ok (false, c)
    | some ini =>
      match loadParams confParams (fun sec key => iniFind ini sec key 0) c with
      | none => .error .assertion
      | some c => .ok (true, c)

/-- What a file has to give for one parameter. -/
structure Said where
  sec : List Char
  key : List Char
  gives : List Char → Prop

/-- A text of digits with this value. -/
def Number (n : ℤ) (s : List Char) : Prop := isNumStr s = true ∧ (decValue s : ℤ) = n

/-- What a file has to give for a configuration. -/
def Conf.said (c : Conf) : List Said :=
  [⟨"server".toList, "http_listen_addr".toList, fun s => strncpy 16 s = c.httpListenAddr⟩,
    ⟨"server".toList, "http_listen_port".toList, Number c.httpListenPort⟩,
    ⟨"server".toList, "allow_exec_ip".toList, fun s => strncpy 16 s = c.allowExecIp⟩,
    ⟨"server".toList, "output_log_path".toList, fun s => strncpy 128 s = c.outputLogPath⟩,
    ⟨"server".toList, "output_log_level".toList, fun s => strncpy 16 s = c.outputLogLevel⟩,
    ⟨"server".toList, "binlog_file_path".toList, fun s => strncpy 128 s = c.binlogFilePath⟩,
    ⟨"server".toList, "keep_alive".toList, fun s => strncpy 16 s = c.keepAlive⟩,
    ⟨"server".toList, "conf_file".toList, fun s => strncpy 128 s = c.confFile⟩,
    ⟨"server".toList, "pid_file".toList, fun s => strncpy 128 s = c.pidFile⟩,
    ⟨"server".toList, "res_store_space".toList, Number c.resStoreSpace⟩,
    ⟨"server".toList, "max_qlist_itmes".toList, Number c.maxQlistItmes⟩,
    ⟨"rtag".toList, "sync_interval".toList, Number c.syncInterval⟩,
    ⟨"rtag".toList, "sync_time_interval".toList, Number c.syncTimeInterval⟩,
    ⟨"queue".toList, "def_max_queue".toList, Number c.defMaxQueue⟩,
    ⟨"queue".toList, "def_delay".toList, Number c.defDelay⟩,
    ⟨"db".toList, "data_file_path".toList, fun s => strncpy 128 s = c.dataFilePath⟩,
    ⟨"db".toList, "db_file_max_size".toList, Number c.dbFileMaxSize⟩]

/-- The file states the configuration: the first value of every parameter is right. -/
def States (ls : List DocLine) (c : Conf) : Prop :=
  ∀ r ∈ c.said, ∃ s, (valuesIn ls r.sec r.key).head? = some s ∧ r.gives s

/-- Numbers that the conversions keep. -/
structure InRange (c : Conf) : Prop where
  httpListenPort : c.httpListenPort < 2^31
  resStoreSpace : c.resStoreSpace < 2^63
  maxQlistItmes : c.maxQlistItmes < 2^31
  syncInterval : c.syncInterval < 2^31
  syncTimeInterval : c.syncTimeInterval < 2^31
  defMaxQueue : c.defMaxQueue < 2^31
  defDelay : c.defDelay < 2^31
  dbFileMaxSize : c.dbFileMaxSize ≤ 64

variable {c c₀ : Conf} {p : Param} {find : List Char → List Char → Option (List Char)}
  {s junk : List Char} {n : ℤ}
  {ls : List DocLine}

/-- A number in range is read as it is written. -/
theorem strtoll_number (h : Number n s) (hn : n < 2^63) : strtoll s = n := by
  obtain ⟨hdigits, hvalue⟩ := h
  rw [strtoll_digits (List.all_eq_true.mp hdigits) (by omega), hvalue]

/-- So is an int. -/
theorem atoi_number (h : Number n s) (hn : n < 2^31) : atoi s = n := by
  have hpos : 0 ≤ n := by
    rw [← h.2]
    exact Int.natCast_nonneg _
  rw [atoi, strtoll_number h (by omega), toI32_of_bounds (by omega) hn]

/-- A text parameter is set to the text that is found. -/
theorem load_text {sec key : String} {set : Conf → List Char → Conf}
    (h : find sec.toList key.toList = some s) :
    (textParam sec key set).load find c = some (set c s) := by
  rw [Param.load, textParam]
  simp only [h]

/-- A number parameter is set to the number that is found. -/
theorem load_number {sec key : String} {set : Conf → List Char → Conf}
    (h : find sec.toList key.toList = some s)
    (hs : Number n s) : (numParam sec key set).load find c = some (set c s) := by
  rw [Param.load, numParam]
  simp only [h, hs.1, if_true]

/-- The size of data files is set when it is at most 64. -/
theorem load_dbFileMaxSize (h : find "db".toList "db_file_max_size".toList = some s)
    (hs : Number n s) (hn : n ≤ 64) :
    (Param.mk "db".toList "db_file_max_size".toList setDbFileMaxSize).load find c =
      some { c with dbFileMaxSize := n } := by
  rw [Param.load]
  simp only [h, setDbFileMaxSize, hs.1, if_true, atoi_number hs (show n < 2^31 by omega), if_pos hn]

/-- Looking up what is given sets it. -/
theorem loadParams_said (hr : InRange c)
    (h : ∀ r ∈ c.said, ∃ s, find r.sec r.key = some s ∧ r.gives s) (c₀ : Conf) :
    loadParams confParams find c₀ = some c := by
  simp only [Conf.said, List.forall_mem_cons] at h
  obtain ⟨⟨s₁, h₁, t₁⟩, ⟨s₂, h₂, t₂⟩, ⟨s₃, h₃, t₃⟩, ⟨s₄, h₄, t₄⟩, ⟨s₅, h₅, t₅⟩,
    ⟨s₆, h₆, t₆⟩, ⟨s₇, h₇, t₇⟩, ⟨s₈, h₈, t₈⟩, ⟨s₉, h₉, t₉⟩, ⟨s₁₀, h₁₀, t₁₀⟩, ⟨s₁₁, h₁₁, t₁₁⟩,
    ⟨s₁₂, h₁₂, t₁₂⟩, ⟨s₁₃, h₁₃, t₁₃⟩, ⟨s₁₄, h₁₄, t₁₄⟩,
    ⟨s₁₅, h₁₅, t₁₅⟩, ⟨s₁₆, h₁₆, t₁₆⟩, ⟨s₁₇, h₁₇, t₁₇⟩, -⟩ := h
  have hspace : (strtoll s₁₀%2^64).toNat = c.resStoreSpace := by
    rw [strtoll_number t₁₀ (by have := hr.resStoreSpace; omega)]
    have := hr.resStoreSpace
    omega
  have hqueue : (atoi s₁₄%2^32).toNat = c.defMaxQueue := by
    rw [atoi_number t₁₄ (by have := hr.defMaxQueue; omega)]
    have := hr.defMaxQueue
    omega
  have hdelay : (atoi s₁₅%2^32).toNat = c.defDelay := by
    rw [atoi_number t₁₅ (by have := hr.defDelay; omega)]
    have := hr.defDelay
    omega
  unfold loadParams confParams
  simp only [List.foldlM_cons, List.foldlM_nil, load_text h₁, load_number h₂ t₂,
    load_text h₃, load_text h₄, load_text h₅, load_text h₆, load_text h₇, load_text h₈,
    load_text h₉, load_number h₁₀ t₁₀, load_number h₁₁ t₁₁, load_number h₁₂ t₁₂,
    load_number h₁₃ t₁₃, load_number h₁₄ t₁₄, load_number h₁₅ t₁₅, load_text h₁₆,
    load_dbFileMaxSize h₁₇ t₁₇ hr.dbFileMaxSize, Option.bind_eq_bind]
  rw [t₁, t₃, t₄, t₅, t₆, t₇, t₈, t₉, t₁₆, atoi_number t₂ hr.httpListenPort,
    atoi_number t₁₁ hr.maxQlistItmes, atoi_number t₁₂ hr.syncInterval,
    atoi_number t₁₃ hr.syncTimeInterval, hspace, hqueue, hdelay]
  rfl

/-- These are the parameters that are looked up. -/
theorem names_said (c : Conf) :
    c.said.map (fun r => (r.sec, r.key)) = confParams.map fun p => (p.sec, p.key) := rfl

/-- Their names are clear, and fit. -/
theorem clear_said {r : Said} (h : r ∈ c.said) : Clear r.sec r.key ∧
    r.sec.length+r.key.length < 2*tokenSize := by
  have hall : confParams.all (fun p => !p.sec.contains ':' && !p.sec.isEmpty &&
      decide (p.sec.length+p.key.length < 2*tokenSize)) = true := by decide
  have hmem : (r.sec, r.key) ∈ confParams.map fun p => (p.sec, p.key) := by
    rw [← names_said c]
    exact List.mem_map_of_mem h
  obtain ⟨p, hp, hname⟩ := List.mem_map.mp hmem
  obtain ⟨hsec, hkey⟩ := Prod.mk.inj hname
  have hcheck := List.all_eq_true.mp hall p hp
  rw [hsec, hkey] at hcheck
  simp only [Bool.and_eq_true, decide_eq_true_eq] at hcheck
  obtain ⟨⟨hcolon, hnil⟩, hlen⟩ := hcheck
  exact ⟨⟨by simpa using hcolon, fun he => absurd he (by simpa using hnil)⟩, hlen⟩

/-- A file that states a configuration is read as that configuration, whatever was
set before, in which order it states it and what else it holds. -/
theorem readConfFile_document {fopen : List Char → Option (List Char)}
    (hjunk : junk.length = lineSize) (h : Document ls) (hstates : States ls c) (hr : InRange c)
    (hopen : fopen c₀.confFile.1 = some (docText ls)) :
    readConfFile fopen junk c₀ = .ok (true, c) := by
  obtain ⟨ini, hload, hfind⟩ := iniLoad_doc hjunk h.ok h.plain (length_named_le h.clear h.room)
  have hagrees := agrees_of_findKey h.clear hfind
  have hsaid : ∀ r ∈ c.said, ∃ s, iniFind ini r.sec r.key 0 = some s ∧ r.gives s := by
    intro r hmem
    obtain ⟨s, hs, hgives⟩ := hstates r hmem
    obtain ⟨hclear, hlen⟩ := clear_said hmem
    refine ⟨s, ?_, hgives⟩
    rw [(hagrees r.sec r.key hclear hlen).1, ← List.head?_eq_getElem?, hs]
  have hconf := @loadParams_said c (fun sec key => iniFind ini sec key 0) hr hsaid c₀
  unfold readConfFile
  rw [hopen]
  simp only [hload, Except.mapError, bind, Except.bind, hconf]

/-- The file in conf/ucmq.ini. -/
def ucmqIni : List DocLine :=
  let rule : DocLine :=
    .comment [] '#' "#######################################################################".toList
  let entry (key value : String) : DocLine := .entry [] key.toList [] [] value.toList []
  [rule,
    .comment [] '#'
      " ----------------------------  UCMQ config  ------------------------- #".toList,
    rule, .blank [], .header [] "server".toList [], entry "http_listen_addr" "192.168.3.171",
    .entry [] "http_listen_port".toList [] " ".toList "8803".toList [], entry "allow_exec_ip" "0",
    entry "output_log_path" "../log", entry "output_log_level" "DEBUG",
    entry "binlog_file_path" "../binlog", entry "keep_alive" "300",
    entry "conf_file" "../conf/ucmq.ini", entry "pid_file" "/tmp/ucmq_eth0_8803.pid",
    .comment [] '#' " reserved storage space, unit GB */".toList, entry "res_store_space" "4",
    .comment [] '#' " queue list items limit".toList,
    .entry [] "max_qlist_itmes".toList [] [] "128".toList "       ".toList, .blank [],
    .header [] "rtag".toList [], entry "sync_interval" "100", entry "sync_time_interval" "20",
    .blank [], .header [] "queue".toList [], .comment [] '#' " queue store msg number".toList,
    entry "def_max_queue" "1000000", entry "def_delay" "0", .blank [], rule,
    .comment [] '#'
      " DB file size must be less than 64, must be system multiple page !!!  #".toList,
    .comment [] '#'
      " !!! The following contents are not allowed to change after the start #".toList,
    rule, .header [] "db".toList [], entry "data_file_path" "../data",
    entry "db_file_max_size" "64", .blank []]

/-- What it states. -/
def ucmqConf : Conf :=
  { httpListenAddr := ⟨"192.168.3.171".toList, by decide⟩
    httpListenPort := 8803
    allowExecIp := ⟨"0".toList, by decide⟩
    outputLogPath := ⟨"../log".toList, by decide⟩
    outputLogLevel := ⟨"DEBUG".toList, by decide⟩
    binlogFilePath := ⟨"../binlog".toList, by decide⟩
    keepAlive := ⟨"300".toList, by decide⟩
    confFile := ⟨"../conf/ucmq.ini".toList, by decide⟩
    pidFile := ⟨"/tmp/ucmq_eth0_8803.pid".toList, by decide⟩
    resStoreSpace := 4
    maxQlistItmes := 128
    syncInterval := 100
    syncTimeInterval := 20
    defMaxQueue := 1000000
    defDelay := 0
    dataFilePath := ⟨"../data".toList, by decide⟩
    dbFileMaxSize := 64 }

/-- The configuration that the shipped file states. -/
theorem states_ucmqIni : States ucmqIni ucmqConf := by
  unfold States
  simp only [Conf.said, List.forall_mem_cons]
  exact ⟨⟨_, rfl, rfl⟩, ⟨_, rfl, rfl, rfl⟩, ⟨_, rfl, rfl⟩, ⟨_, rfl, rfl⟩, ⟨_, rfl, rfl⟩,
    ⟨_, rfl, rfl⟩, ⟨_, rfl, rfl⟩, ⟨_, rfl, rfl⟩, ⟨_, rfl, rfl⟩, ⟨_, rfl, rfl, rfl⟩,
    ⟨_, rfl, rfl, rfl⟩, ⟨_, rfl, rfl, rfl⟩, ⟨_, rfl, rfl, rfl⟩,
    ⟨_, rfl, rfl, rfl⟩, ⟨_, rfl, rfl, rfl⟩, ⟨_, rfl, rfl⟩, ⟨_, rfl, rfl, rfl⟩, by simp⟩

/-- The server that is started without options is configured by it. -/
theorem readConfFile_document_ucmq :
    readConfFile
      (fun path => if path = "../conf/ucmq.ini".toList then some (docText ucmqIni) else none)
      (List.replicate 4097 'z') gMqConf = .ok (true, ucmqConf) :=
  readConfFile_document List.length_replicate (document_of_check (by decide +kernel)) states_ucmqIni
    ⟨by decide, by decide, by decide, by decide, by decide, by decide, by decide, by decide⟩
      (if_pos rfl)

end Ucmq.ConfFile
