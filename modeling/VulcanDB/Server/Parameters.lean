import VulcanDB.Common.Load

/-!
# Server — Parameters

`init_parameter` goes over the options of the command line twice, to find the configuration file
and to set what the options say, but `getopt_long` keeps its place between the two loops.

* `configLoop_eq`: the first loop ends one option behind the first `--config`.
* `get_initParameter`: the options behind that are those that count.
* `options_override_iff`: when the options override the file.

The help text and the messages are left out.
-/

namespace VulcanDB.Server.Parameters

open Cxx Common Steps

/-! ### Settings -/

/-- `BASE_SECTION_NAME`. -/
def baseSectionName : Str := "BASE".toList

/-- `VULCAN_HOME`. -/
def vulcanHome : Str := "VULCAN_HOME".toList

/-- `VULCAN_DATA_DIR`. -/
def vulcanDataDir : Str := "VULCAN_DATA_DIR".toList

/-- `VULCAN_LOG_DIR`. -/
def vulcanLogDir : Str := "VULCAN_LOG_DIR".toList

/-- `VULCAN_PORT`. -/
def vulcanPort : Str := "VULCAN_PORT".toList

/-- `VULCAN_UNIX_SOCKET_PATH`. -/
def vulcanUnixSocketPath : Str := "UNIX_SOCKET_PATH".toList

/-- `VULCAN_LOG_LEVEL`. -/
def vulcanLogLevel : Str := "LOG_LEVEL".toList

/-- `VULCAN_CONSOLE_LOG_LEVEL`. -/
def vulcanConsoleLogLevel : Str := "LOG_CONSOLE_LOG_LEVEL".toList

/-- `MAX_CONNECTION_NUM`. -/
def maxConnectionNum : Str := "max_connection_num".toList

/-- The file without an option. -/
def defaultConfFile : Str := "/etc/vulcandb.conf".toList

/-- The settings and their defaults. -/
def defaultConfMap : List (Str × Str) :=
  [(vulcanHome, "~/vulcandb/".toList),
    (vulcanDataDir, "~/vulcandb/data".toList),
    (vulcanLogDir, "~/vulcandb/log".toList),
    (vulcanLogLevel, "3".toList),
    (vulcanConsoleLogLevel, "3".toList),
    (vulcanPort, "6688".toList),
    (vulcanUnixSocketPath, "/tmp/vulcandb.sock".toList),
    (maxConnectionNum, "1024".toList)]

/-- How `init_parameter` ends without returning. -/
inductive Stop where
  | undefined
  | exit (status : ℕ)

/-- The files, `HOME`, and the directories that are there and that can be created. -/
structure Os where
  disk : Str → Option Str
  home : Option Str
  present : Str → Bool
  creates : Str → Bool

/-- `path / other`. -/
def joinPath (path other : Str) : Str :=
  if other.head? = some '/' then other
  else if path = [] ∨ path.getLast? = some '/' then path ++ other
  else path ++ '/' :: other

/-- `get_definite_path`. -/
def getDefinitePath (os : Os) (path : Str) : Except Stop Str :=
  if path.take 2 = ['~', '/'] then
    match os.home with
    | none => .error .undefined
    | some home => .ok (joinPath home (path.drop 2))
  else .ok path

/-- `VulcanParam`. -/
structure VulcanParam where
  processName : Str
  confFile : Str
  confMap : StdMap Str Str

namespace VulcanParam

/-- Nothing but the file. -/
def new : VulcanParam := ⟨[], defaultConfFile, ∅⟩

/-- `get`; a key that is not set gives the empty string. -/
def get (param : VulcanParam) (key : Str) : Str := (param.confMap.find key).getD []

/-- `set`. -/
def set (param : VulcanParam) (key value : Str) : VulcanParam :=
  { param with confMap := param.confMap.assign key value }

/-- `set_conf_file`. -/
def setConfFile (param : VulcanParam) (confFile : Str) : VulcanParam := { param with confFile }

/-- The loop of `load_conf_file` over the defaults. -/
def readConf (param : VulcanParam) (iniFile : IniFile) : VulcanParam :=
  { param with
    confMap := defaultConfMap.foldl
      (fun m entry => m.assign entry.1 (iniFile.get entry.1 entry.2 baseSectionName))
      param.confMap }

/-- The file is loaded and its keys read. -/
def loadConfFile (disk : Str → Option Str) (param : VulcanParam) : Except Fault VulcanParam := do
  let r ← load disk .new param.confFile
  if r.2 ≠ 0 then return param
  else return param.readConf r.1.ini

/-- `check_and_create_dir`. -/
def checkAndCreateDir (os : Os) (varName path : Str) (param : VulcanParam) :
    Except Stop VulcanParam := do
  let definitePath ← getDefinitePath os path
  let param := param.set varName definitePath
  if os.present definitePath then return param
  else if os.creates definitePath then return param
  else .error (.exit 1)

/-- `init`. -/
def init (os : Os) (progName : Str) (param : VulcanParam) : Except Stop VulcanParam := do
  -- what is behind the last slash
  let param := { param with processName := progName.rtakeWhile (· != '/') }
  let param ← checkAndCreateDir os vulcanHome (param.get vulcanHome) param
  let param ← checkAndCreateDir os vulcanDataDir (param.get vulcanDataDir) param
  checkAndCreateDir os vulcanLogDir (param.get vulcanLogDir) param

end VulcanParam

/-! ### Options -/

/-- What `getopt_long` returns, with `optarg`. -/
inductive Opt where
  | config (optarg : Str)
  | port (optarg : Option Str)
  | socket (optarg : Option Str)
  | dataDir (optarg : Option Str)
  | logDir (optarg : Option Str)
  | help
  | unknown

/-- The first loop: the parameters, and the options that have not been read.  An option is read
before the flag is looked at. -/
def configLoop (param : VulcanParam) (confFileLoaded : Bool) : List Opt → VulcanParam × List Opt
  | [] => (param, [])
  | opt :: opts =>
    if confFileLoaded then (param, opts)
    else match opt with
      | .config optarg => configLoop (param.setConfFile optarg) true opts
      | _ => configLoop param false opts

/-- The second loop. -/
def optionLoop (param : VulcanParam) : List Opt → Except Stop VulcanParam
  | [] => .ok param
  | .config _ :: opts => optionLoop param opts
  | .port (some optarg) :: opts => optionLoop (param.set vulcanPort optarg) opts
  | .socket (some optarg) :: opts => optionLoop (param.set vulcanUnixSocketPath optarg) opts
  -- a string of a null pointer
  | .port none :: _ | .socket none :: _ => .error .undefined
  -- `print_help` exits
  | .dataDir _ :: _ | .logDir _ :: _ | .help :: _ | .unknown :: _ => .error (.exit 0)

/-- **`init_parameter`**: the file, the options, the directories. -/
def initParameter (os : Os) (argv : List Opt) (progName : Str) : Except Stop VulcanParam :=
  let r := configLoop .new false argv
  match r.1.loadConfFile os.disk with
  | .error _ => .error .undefined
  | .ok param => do
    let param ← optionLoop param r.2
    param.init os progName

/-! ### What is set -/

/-- The setting that an option gives a value to. -/
def Opt.value (key : Str) : Opt → Option Str
  | .port optarg => if key = vulcanPort then optarg else none
  | .socket optarg => if key = vulcanUnixSocketPath then optarg else none
  | _ => none

/-- The last value that the options give. -/
def lastValue (key : Str) (opts : List Opt) : Option Str := opts.reverse.findSome? (Opt.value key)

/-- The file that an option names. -/
def Opt.confFile : Opt → Option Str
  | .config optarg => some optarg
  | _ => none

/-- The configuration file that the options name. -/
def namedFile (argv : List Opt) : Str := (argv.findSome? Opt.confFile).getD defaultConfFile

/-- The value of a setting in the configuration file. -/
def fileValue (iniFile : IniFile) (key : Str) : Str :=
  iniFile.get key ((defaultConfMap.lookup key).getD []) baseSectionName

/-- The options behind the one that follows the first `--config`. -/
def behindConfig : List Opt → List Opt
  | [] => []
  | .config _ :: opts => opts.drop 1
  | _ :: opts => behindConfig opts

theorem lastValue_cons (key : Str) (opt : Opt) (opts : List Opt) :
    lastValue key (opt :: opts) = (lastValue key opts).or (opt.value key) := by
  have hone : List.findSome? (Opt.value key) [opt] = opt.value key := by
    cases hopt : opt.value key <;> simp [hopt]
  rw [lastValue, List.reverse_cons, List.findSome?_append, hone]
  rfl

/-- Values that are given later count. -/
theorem lastValue_of_suffix {key v : Str} {opts rest : List Opt} (h : rest <:+ opts)
    (hv : lastValue key rest = some v) : lastValue key opts = some v := by
  obtain ⟨first, rfl⟩ := h
  induction first with
  | nil => exact hv
  | cons opt first ih => rw [List.cons_append, lastValue_cons, ih, Option.some_or]

theorem behindConfig_suffix (argv : List Opt) : behindConfig argv <:+ argv := by
  induction argv with
  | nil => exact List.suffix_rfl
  | cons opt opts ih =>
      cases opt with
      | config optarg => exact (List.drop_suffix 1 opts).trans (List.suffix_cons _ _)
      | port | socket | dataDir | logDir | help | unknown => exact ih.trans (List.suffix_cons _ _)

/-- **The first loop.** -/
theorem configLoop_eq (param : VulcanParam) (argv : List Opt) :
    configLoop param false argv =
      ({ param with confFile := (argv.findSome? Opt.confFile).getD param.confFile },
        behindConfig argv) := by
  induction argv with
  | nil => rfl
  | cons opt opts ih =>
      cases opt with
      | config optarg =>
          show configLoop (param.setConfFile optarg) true opts = (_, opts.drop 1)
          cases opts with
          | nil => rfl
          | cons next opts => rfl
      | port | socket | dataDir | logDir | help | unknown => exact ih

namespace VulcanParam

theorem get_set (param : VulcanParam) (key value k : Str) :
    (param.set key value).get k = if k = key then value else param.get k := by
  rw [get, set, StdMap.find_assign]
  split
  · rfl
  · rfl

/-- **The second loop** sets the last value that is given, if there is one. -/
theorem get_optionLoop {opts : List Opt} {param param' : VulcanParam}
    (h : optionLoop param opts = .ok param') (key : Str) :
    param'.get key = (lastValue key opts).getD (param.get key) := by
  induction opts generalizing param with
  | nil =>
      obtain rfl := Except.ok.inj h
      rfl
  | cons opt opts ih =>
      rw [lastValue_cons]
      match opt with
      | .config _ =>
          show param'.get key = ((lastValue key opts).or none).getD (param.get key)
          rw [Option.or_none]
          exact ih h
      | .port (some optarg) =>
          rw [ih h, get_set, Opt.value]
          cases lastValue key opts with
          | some v => rfl
          | none => split <;> rfl
      | .socket (some optarg) =>
          rw [ih h, get_set, Opt.value]
          cases lastValue key opts with
          | some v => rfl
          | none => split <;> rfl
      | .port none | .socket none => cases h
      | .dataDir _ | .logDir _ | .help | .unknown => cases h

/-- A directory changes its own key only. -/
theorem get_checkAndCreateDir {os : Os} {varName path key : Str} {param param' : VulcanParam}
    (h : checkAndCreateDir os varName path param = .ok param') (hne : key ≠ varName) :
    param'.get key = param.get key := by
  rw [checkAndCreateDir, bind_eq_ok] at h
  obtain ⟨definitePath, -, h⟩ := h
  have hset : (param.set varName definitePath).get key = param.get key := by
    rw [get_set, if_neg hne]
  simp only at h
  split at h
  · rw [← Except.ok.inj h, hset]
  · split at h
    · rw [← Except.ok.inj h, hset]
    · cases h

/-- The directories that are made change no other setting. -/
theorem get_init {os : Os} {progName key : Str} {param param' : VulcanParam}
    (h : init os progName param = .ok param')
    (hne : key ≠ vulcanHome ∧ key ≠ vulcanDataDir ∧ key ≠ vulcanLogDir) :
    param'.get key = param.get key := by
  rw [init, bind_eq_ok] at h
  obtain ⟨param₁, h₁, h⟩ := h
  obtain ⟨param₂, h₂, h₃⟩ := bind_eq_ok.mp h
  rw [get_checkAndCreateDir h₃ hne.2.2, get_checkAndCreateDir h₂ hne.2.1,
    get_checkAndCreateDir h₁ hne.1]
  rfl

/-- What a key is assigned to stays if no other entry has it. -/
theorem find_foldl {g : Str × Str → Str} {es : List (Str × Str)} (hnodup : (es.map (·.1)).Nodup)
    {e : Str × Str} (he : e ∈ es) (m : StdMap Str Str) :
    (es.foldl (fun m e => m.assign e.1 (g e)) m).find e.1 = some (g e) := by
  induction es using List.reverseRecOn with
  | nil => cases he
  | append_singleton es e' ih =>
      rw [List.map_append, List.nodup_append] at hnodup
      rw [List.foldl_concat, StdMap.find_assign]
      rcases List.mem_append.mp he with hmem | hmem
      · have hne : e.1 ≠ e'.1 := fun heq =>
          hnodup.2.2 _ (List.mem_map_of_mem hmem) _ (List.mem_singleton_self _) heq
        rw [if_neg hne, ih hnodup.1 hmem]
      · rw [List.mem_singleton.mp hmem, if_pos rfl]

theorem nodup_defaultConfMap : (defaultConfMap.map (·.1)).Nodup := by decide

/-- **The configuration file** gives each setting its value. -/
theorem get_readConf (param : VulcanParam) (iniFile : IniFile) {e : Str × Str}
    (he : e ∈ defaultConfMap) :
    (param.readConf iniFile).get e.1 = iniFile.get e.1 e.2 baseSectionName := by
  rw [get, readConf, find_foldl nodup_defaultConfMap he]
  rfl

end VulcanParam

/-- The settings that options are for. -/
def optionKeys : List Str := [vulcanPort, vulcanUnixSocketPath]

theorem optionKeys_ne {key : Str} (h : key ∈ optionKeys) :
    key ≠ vulcanHome ∧ key ≠ vulcanDataDir ∧ key ≠ vulcanLogDir := by
  revert key
  decide

theorem mem_defaultConfMap {key : Str} (h : key ∈ optionKeys) :
    (key, (defaultConfMap.lookup key).getD []) ∈ defaultConfMap := by
  revert key
  decide

section Loaded

variable {os : Os} {argv : List Opt} {progName : Str} {st : Loading}
  (hload : load os.disk .new (namedFile argv) = .ok (st, 0))

include hload

/-- **The options are applied to the file**. -/
theorem initParameter_eq : ∃ param : VulcanParam,
    (∀ key ∈ optionKeys, param.get key = fileValue st.ini key) ∧
      initParameter os argv progName =
        (optionLoop param (behindConfig argv)).bind (VulcanParam.init os progName) := by
  have hconf : (VulcanParam.new.setConfFile (namedFile argv)).loadConfFile os.disk =
      .ok ((VulcanParam.new.setConfFile (namedFile argv)).readConf st.ini) := by
    rw [VulcanParam.loadConfFile, VulcanParam.setConfFile, hload]
    rfl
  refine ⟨(VulcanParam.new.setConfFile (namedFile argv)).readConf st.ini,
    fun key hkey => VulcanParam.get_readConf _ st.ini (mem_defaultConfMap hkey), ?_⟩
  rw [initParameter, configLoop_eq]
  show (match (VulcanParam.new.setConfFile (namedFile argv)).loadConfFile os.disk with
    | .error _ => _ | .ok param => _) = _
  rw [hconf]
  rfl

/-- **What counts** are the options behind the one that follows the first `--config`. -/
theorem get_initParameter {param : VulcanParam} (h : initParameter os argv progName = .ok param)
    {key : Str} (hkey : key ∈ optionKeys) :
    param.get key = (lastValue key (behindConfig argv)).getD (fileValue st.ini key) := by
  obtain ⟨param₁, hfile, heq⟩ := @initParameter_eq os argv progName st hload
  rw [heq] at h
  obtain ⟨param₂, hoptions, hinit⟩ := bind_eq_ok.mp h
  rw [VulcanParam.get_init hinit (optionKeys_ne hkey), VulcanParam.get_optionLoop hoptions,
    hfile key hkey]

/-- **Main result.**  The options override the file if and only if, for each setting, no option
gives it a value, or one does that is behind the one that follows the first `--config`, or the last
value is that of the file. -/
theorem options_override_iff {param : VulcanParam}
    (h : initParameter os argv progName = .ok param) :
    (∀ key ∈ optionKeys,
        param.get key = (lastValue key argv).getD (fileValue st.ini key)) ↔
      ∀ key ∈ optionKeys, lastValue key argv = none ∨
        (∃ v, lastValue key (behindConfig argv) = some v) ∨
        lastValue key argv = some (fileValue st.ini key) := by
  refine forall_congr' fun key => imp_congr_right fun hkey => ?_
  rw [get_initParameter hload h hkey]
  cases hbehind : lastValue key (behindConfig argv) with
  | some v =>
      have hlast := lastValue_of_suffix (behindConfig_suffix argv) hbehind
      rw [hlast]
      exact ⟨fun _ => .inr (.inl ⟨v, rfl⟩), fun _ => rfl⟩
  | none =>
      cases hlast : lastValue key argv with
      | none => exact ⟨fun _ => .inl rfl, fun _ => rfl⟩
      | some w =>
          refine ⟨fun heq => .inr (.inr (congrArg some heq.symm)), fun hcond => ?_⟩
          rcases hcond with hnone | ⟨v, hv⟩ | hsame
          · cases hnone
          · cases hv
          · exact (Option.some.inj hsame).symm

end Loaded

/-! ### Two command lines -/

/-- No files, and a home with all directories. -/
def emptyOs : Os := ⟨fun _ => none, some "/".toList, fun _ => true, fun _ => false⟩

/-- Without directories to make nothing fails. -/
theorem exists_init (progName : Str) (param : VulcanParam) :
    ∃ param', param.init emptyOs progName = .ok param' := by
  have hdir : ∀ varName path (param : VulcanParam),
      ∃ param', param.checkAndCreateDir emptyOs varName path = .ok param' := by
    intro varName path param
    obtain ⟨p, hp⟩ : ∃ p, getDefinitePath emptyOs path = .ok p := by
      rw [getDefinitePath]
      split
      · exact ⟨_, rfl⟩
      · exact ⟨_, rfl⟩
    rw [VulcanParam.checkAndCreateDir, hp]
    exact ⟨_, rfl⟩
  rw [VulcanParam.init]
  obtain ⟨param₁, h₁⟩ := hdir vulcanHome
    (VulcanParam.get { param with processName := progName.rtakeWhile (· != '/') } vulcanHome)
    { param with processName := progName.rtakeWhile (· != '/') }
  obtain ⟨param₂, h₂⟩ := hdir vulcanDataDir (param₁.get vulcanDataDir) param₁
  obtain ⟨param₃, h₃⟩ := hdir vulcanLogDir (param₂.get vulcanLogDir) param₂
  refine ⟨param₃, ?_⟩
  simp only [h₁]
  show (VulcanParam.checkAndCreateDir _ _ _ param₁).bind _ = _
  rw [h₂]
  exact h₃

theorem load_none (fileName : Str) : load emptyOs.disk .new fileName = .ok (.start .new, 0) :=
  load_eq_ok.mpr ⟨loadLoop_not_good rfl _, rfl⟩

theorem exists_initParameter {argv : List Opt}
    (h : ∀ param, ∃ param', optionLoop param (behindConfig argv) = .ok param') :
    ∃ param, initParameter emptyOs argv [] = .ok param := by
  obtain ⟨param₁, -, heq⟩ := @initParameter_eq emptyOs argv [] _ (load_none _)
  obtain ⟨param₂, hoptions⟩ := h param₁
  rw [heq, hoptions]
  exact exists_init [] param₂

/-- A port that is given behind another. -/
def twoPorts : List Opt :=
  [.config "f".toList, .port (some "1".toList), .port (some "2".toList)]

/-- A port that is given right behind the file. -/
def onePort : List Opt := [.config "f".toList, .port (some "1".toList)]

theorem options_override_twice : ∃ param, initParameter emptyOs twoPorts [] = .ok param ∧
    ∀ key ∈ optionKeys, param.get key =
      (lastValue key twoPorts).getD (fileValue (Loading.start .new).ini key) := by
  obtain ⟨param, h⟩ := @exists_initParameter twoPorts fun param => ⟨_, rfl⟩
  refine ⟨param, h, (options_override_iff (load_none _) h).mpr fun key hkey => ?_⟩
  rcases List.mem_cons.mp hkey with rfl | hkey
  · exact .inr (.inl ⟨"2".toList, by decide⟩)
  · rw [List.mem_singleton.mp hkey]
    exact .inl (by decide)

theorem options_not_always_override : ∃ param, initParameter emptyOs onePort [] = .ok param ∧
    lastValue vulcanPort onePort = some "1".toList ∧ param.get vulcanPort ≠ "1".toList := by
  obtain ⟨param, h⟩ := @exists_initParameter onePort fun param => ⟨_, rfl⟩
  refine ⟨param, h, by decide, ?_⟩
  rw [get_initParameter (load_none _) h (by decide : vulcanPort ∈ optionKeys)]
  decide

end VulcanDB.Server.Parameters
