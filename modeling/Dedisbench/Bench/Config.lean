import Dedisbench.Bench.Loop
import Dedisbench.Generator.Load

/-!
# The configuration of a run

`main` up to the start of the generator: the options of the command line, the configuration file, which `ini_parse`
reads and `config_handler` evaluates, and the checks and conversions behind them.  A call of `usage` or `help` ends
the program.  What is printed on the way is left out.
-/

namespace Dedisbench

open Text

/-! ### Numbers and paths from text -/

/-- `strtol`: a number that does not fit becomes the nearest one that does, and a text without one is zero. -/
def strtol (s : List Char) : ℤ := max (-2 ^ 63) (min (2 ^ 63 - 1) ((signAndDigits s).getD 0))

/-- `atoi` -/
def atoi (s : List Char) : ℤ := toInt32 (ofInt64 (strtol s))

/-- `atoll`, stored in a `uint64_t`. -/
def atoll (s : List Char) : ℕ := ofInt64 (strtol s)

/-- `atof`: decimal and hexadecimal numbers, infinities and not-a-numbers; a text without one is zero. -/
def atof (s : List Char) : Float :=
  let (neg, cs) := takeSign (s.dropWhile isSpace)
  let x : Float := match cs.map Char.toLower with
    | 'i' :: 'n' :: 'f' :: _ => 1 / 0
    | 'n' :: 'a' :: 'n' :: _ => 0 / 0
    | _ => match numberParts cs with
      | none => 0
      | some (m, e) => .ofModel (.ofScientific m e)
  if neg then -x else x

/-- A `double` converted to `uint64_t`. -/
def toUInt64 (x : Float) : Exec ℕ :=
  if -1 < x ∧ x < 18446744073709551616 then .ok x.toUInt64.toNat else .error .undefined

/-- `PATH_SIZE` -/
def pathSize : ℕ := 100

/-- `strcpy` into an array of `PATH_SIZE` characters. -/
def strcpyPath (value : List Char) : Exec (List Char) :=
  if value.length < pathSize then .ok value else .error .undefined

/-! ### `ini_parse` -/

/-- The strings that a loop of `fgets` with a buffer of `n + 1` characters reads. -/
def fgetsFrom (n : ℕ) : List Char → List Char → List (List Char)
  | cur, [] => if cur = [] then [] else [cur]
  | cur, c :: cs =>
    if c = '\n' ∨ cur.length + 1 = n then (cur ++ [c]) :: fgetsFrom n [] cs else fgetsFrom n (cur ++ [c]) cs

/-- `INI_MAX_LINE` -/
def iniMaxLine : ℕ := 200

/-- `MAX_SECTION` and `MAX_NAME` -/
def maxName : ℕ := 50

/-- `rstrip` -/
def rstrip (s : List Char) : List Char := (s.reverse.dropWhile isSpace).reverse

/-- `lskip` -/
def lskip (s : List Char) : List Char := s.dropWhile isSpace

/-- `INI_INLINE_COMMENT_PREFIXES`, which the build sets. -/
def iniInlineCommentPrefixes : List Char := ['#']

/-- `find_chars_or_comment`: what is before the first of `chars` and before a comment, and what follows. -/
def findCharsOrComment (chars : List Char) : Bool → List Char → List Char × List Char
  | _, [] => ([], [])
  | wasSpace, c :: cs =>
    if c ∈ chars ∨ (wasSpace = true ∧ c ∈ iniInlineCommentPrefixes) then ([], c :: cs)
    else
      let (before, rest) := findCharsOrComment chars (isSpace c) cs
      (c :: before, rest)

/-- A value of a configuration file, as the handler gets it. -/
structure IniEntry where
  sect : List Char
  name : List Char
  value : List Char
  deriving DecidableEq

/-- The variables of the loop of `ini_parse_stream`, and the calls of the handler so far. -/
structure IniState where
  sect : List Char
  prevName : List Char
  entries : List IniEntry

/-- A round of the loop of `ini_parse_stream`; `line` is behind the byte order mark.  The handler is called for every
value, whatever it returned before. -/
def iniLine (s : IniState) (line : List Char) : IniState :=
  match lskip (rstrip line) with
  | [] => s
  | c :: cs =>
    if c = ';' ∨ c = '#' then s
    else if s.prevName ≠ [] ∧ (line.takeWhile isSpace) ≠ [] then
      -- a line that is indented goes on with the value before
      { s with entries := s.entries ++ [⟨s.sect, s.prevName, c :: cs⟩] }
    else if c = '[' then
      match findCharsOrComment [']'] false cs with
      | (sect, ']' :: _) => { s with sect := sect.take (maxName - 1), prevName := [] }
      | _ => s
    else match findCharsOrComment ['=', ':'] false (c :: cs) with
      | (name, d :: rest) =>
        if d = '=' ∨ d = ':' then
          { s with
            prevName := (rstrip name).take (maxName - 1)
            entries := s.entries ++ [⟨s.sect, rstrip name, rstrip (lskip (findCharsOrComment [] false rest).1)⟩] }
        else s
      | _ => s

/-- The calls of the handler for a file. -/
def iniEntries (text : List Char) : List IniEntry :=
  let lines := (fgetsFrom (iniMaxLine - 1) [] text).map fun line => line.takeWhile (· ≠ '\x00')
  let lines := match lines with
    | ('\u00ef' :: '\u00bb' :: '\u00bf' :: line) :: lines => line :: lines
    | lines => lines
  (lines.foldl iniLine ⟨[], [], []⟩).entries

/-! ### `struct user_confs` -/

/-- `iotype` -/
inductive IoType where
  | read
  | write
  deriving DecidableEq

/-- The fields of `struct user_confs` that the options set; `none` is `-1`. -/
structure NecessaryConfs where
  iotype : Option IoType
  mixedIO : Bool
  testtype : Option TestType
  ratio : ℚ
  ratiow : ℚ
  ratior : ℚ
  timeToRun : ℤ
  numberOps : ℕ
  flagTerminationSize : Bool
  flagTerminationTime : Bool
  deriving DecidableEq

/-- The fields that the configuration file sets. -/
structure OptionalConfs where
  compressionToAchieve : ℕ
  percentageAnalyze : ℕ
  blockSize : ℕ
  start : ℤ
  finish : ℤ
  tempfilespath : List Char
  printfile : List Char
  destroypfile : ℤ
  printtofile : Bool
  logfeature : ℤ
  accesslog : Bool
  accesstype : AccessType
  accessfilelog : List Char
  distout : Bool
  rawdevice : Bool
  rawpath : List Char
  nprocs : ℤ
  filesize : ℕ
  seed : ℕ
  populate : ℤ
  distfile : List Char
  distf : Bool
  outputfile : List Char
  fsyncf : Bool
  odirectf : Bool
  integrity : ℤ
  integrityfile : List Char
  deriving DecidableEq

/-- `struct user_confs`, as far as the configuration goes. -/
structure UserConfs extends NecessaryConfs, OptionalConfs where
  totblocks : ℕ
  deriving DecidableEq

/-- What `main` starts from; the seed is the time. -/
def NecessaryConfs.init : NecessaryConfs where
  iotype := none
  mixedIO := false
  testtype := none
  ratio := -1
  ratiow := -1
  ratior := -1
  timeToRun := 0
  numberOps := 0
  flagTerminationSize := false
  flagTerminationTime := false

def OptionalConfs.init (now : ℕ) : OptionalConfs where
  compressionToAchieve := 0
  percentageAnalyze := 0
  blockSize := 4096
  start := 0
  finish := 0
  tempfilespath := []
  printfile := []
  destroypfile := 1
  printtofile := false
  logfeature := 0
  accesslog := false
  accesstype := .tpcc
  accessfilelog := []
  distout := false
  rawdevice := false
  rawpath := []
  nprocs := 4
  filesize := 2048
  seed := u64 now
  populate := -1
  distfile := []
  distf := false
  outputfile := []
  fsyncf := false
  odirectf := false
  integrity := 0
  integrityfile := []

def UserConfs.init (now : ℕ) : UserConfs := ⟨.init, .init now, 0⟩

/-! ### `config_handler` -/

/-- The values that `config_handler` knows. -/
inductive ConfigKey where
  | keepDbs
  | generalResults
  | accessResults
  | distfile
  | distResults
  | cleantemp
  | logging
  | accessType
  | nprocs
  | filesize
  | compressionToAchieve
  | percentageAnalyze
  | tempfilespath
  | rawdevice
  | integrity
  | blocksize
  | seed
  | populate
  | sync
  deriving DecidableEq

/-- Their sections and names. -/
def configKeys : List (String × String × ConfigKey) := [
  ("structural", "keep_dbs", .keepDbs),
  ("results", "general_results", .generalResults),
  ("results", "access_results", .accessResults),
  ("execution", "distfile", .distfile),
  ("results", "dist_results", .distResults),
  ("structural", "cleantemp", .cleantemp),
  ("execution", "logging", .logging),
  ("execution", "access_type", .accessType),
  ("execution", "nprocs", .nprocs),
  ("execution", "filesize", .filesize),
  ("execution", "compression_to_achieve", .compressionToAchieve),
  ("execution", "percentage_analyze", .percentageAnalyze),
  ("results", "tempfilespath", .tempfilespath),
  ("execution", "rawdevice", .rawdevice),
  ("execution", "integrity", .integrity),
  ("execution", "blocksize", .blocksize),
  ("execution", "seed", .seed),
  ("execution", "populate", .populate),
  ("execution", "sync", .sync)]

/-- `MATCH` -/
def IniEntry.key (e : IniEntry) : Option ConfigKey :=
  (configKeys.find? fun k => k.1.toList = e.sect ∧ k.2.1.toList = e.name).map fun k => k.2.2

/-- What `main` finds outside: the time, the files that open, and whether `benchdbs` and `benchdbs/distdb` are there or
can be made. -/
structure Environment where
  now : ℕ
  file : List Char → Option (List Char)
  distdb : Bool

/-- The tokens that `strtok` cuts at colons. -/
def strtok (value : List Char) : List (List Char) := (getlines ':' value).filter (· ≠ [])

/-- `config_handler`; what it does to old databases is left out. -/
def configHandler (env : Environment) (conf : UserConfs) (e : IniEntry) : Exec UserConfs :=
  match e.key with
  | none | some .keepDbs => .ok conf
  | some .generalResults => do
    let tokens := strtok e.value
    let printfile ← match tokens[0]? with
      | some token => strcpyPath token
      | none => .ok conf.printfile
    let conf := { conf with printtofile := true, printfile }
    if conf.flagTerminationTime then
      .ok { conf with
        start := (tokens[1]?.map atoi).getD conf.start
        finish := (tokens[2]?.map atoi).getD conf.finish }
    else .ok conf
  | some .accessResults => do
    let accessfilelog ← strcpyPath e.value
    .ok { conf with accesslog := true, accessfilelog }
  | some .distfile => do
    let distfile ← strcpyPath e.value
    .ok { conf with distf := true, distfile }
  | some .distResults => do
    let outputfile ← strcpyPath e.value
    if env.distdb then .ok { conf with distout := true, outputfile } else .error .exit
  | some .cleantemp => .ok { conf with destroypfile := atoi e.value }
  | some .logging => .ok { conf with logfeature := atoi e.value }
  | some .accessType =>
    match atoi e.value with
    | 0 => .ok { conf with accesstype := .sequential }
    | 1 => .ok { conf with accesstype := .uniform }
    | 2 => .ok { conf with accesstype := .tpcc }
    | _ => .ok conf
  | some .nprocs =>
    let n := atoi e.value
    if n = 1 ∧ conf.mixedIO = true then .error .exit else .ok { conf with nprocs := n }
  | some .filesize => .ok { conf with filesize := atoll e.value }
  | some .compressionToAchieve => .ok { conf with compressionToAchieve := atoll e.value }
  | some .percentageAnalyze => .ok { conf with percentageAnalyze := atoll e.value }
  | some .tempfilespath => do
    let tempfilespath ← strcpyPath e.value
    .ok { conf with tempfilespath }
  | some .rawdevice => do
    let rawpath ← strcpyPath e.value
    .ok { conf with rawdevice := true, rawpath }
  | some .integrity => do
    let integrityfile ← strcpyPath e.value
    .ok { conf with integrity := atoi e.value, integrityfile }
  | some .blocksize => do
    let blockSize ← toUInt64 (atof e.value)
    .ok { conf with blockSize }
  | some .seed => do
    let seed ← toUInt64 (atof e.value)
    .ok { conf with seed }
  | some .populate => .ok { conf with populate := atoi e.value }
  | some .sync =>
    match atoi e.value with
    | 0 => .ok { conf with fsyncf := false, odirectf := false }
    | 1 => .ok { conf with fsyncf := false, odirectf := true }
    | 2 => .ok { conf with fsyncf := true, odirectf := false }
    | 3 => .ok { conf with fsyncf := true, odirectf := true }
    | _ => .ok conf

/-- `ini_parse` with `config_handler`; a file that does not open sets nothing. -/
def iniParse (env : Environment) (filename : List Char) (conf : UserConfs) : Exec UserConfs :=
  match env.file filename with
  | none => .ok conf
  | some text => (iniEntries text).foldlM (configHandler env) conf

/-! ### The options -/

/-- An option of the command line with its argument. -/
inductive Opt where
  | p
  | n (arg : List Char)
  | w
  | r
  | m
  | t (arg : List Char)
  | s (arg : List Char)
  | f (arg : List Char)
  deriving DecidableEq

/-- The letter of an option. -/
def Opt.letter : Opt → Char
  | .p => 'p'
  | .n _ => 'n'
  | .w => 'w'
  | .r => 'r'
  | .m => 'm'
  | .t _ => 't'
  | .s _ => 's'
  | .f _ => 'f'

/-- The option that an argument is, after its `-`; `-h` and any other ends the program. -/
def Opt.of : List Char → Option Opt
  | 'p' :: _ => some .p
  | 'n' :: arg => some (.n arg)
  | 'w' :: _ => some .w
  | 'r' :: _ => some .r
  | 'm' :: _ => some .m
  | 't' :: arg => some (.t arg)
  | 's' :: arg => some (.s arg)
  | 'f' :: arg => some (.f arg)
  | _ => none

/-- `-n`, `-nr` and `-nw` -/
def NecessaryConfs.setRatio (conf : NecessaryConfs) : List Char → NecessaryConfs
  | 'r' :: arg => { conf with testtype := some .nominal, ratio := atoi arg, ratior := atoi arg }
  | 'w' :: arg => { conf with testtype := some .nominal, ratio := atoi arg, ratiow := atoi arg }
  | arg => { conf with testtype := some .nominal, ratio := atoi arg }

/-- A round of the loop over the options, with `confarg`. -/
def optionStep (env : Environment) (s : UserConfs × Bool) : Opt → Exec (UserConfs × Bool)
  | .p =>
    if s.1.testtype ≠ some .nominal then .ok ({ s.1 with testtype := some .peak }, s.2) else .error .exit
  | .n arg =>
    if s.1.testtype ≠ some .peak then
      .ok ({ s.1 with toNecessaryConfs := s.1.toNecessaryConfs.setRatio arg }, s.2)
    else .error .exit
  | .w =>
    if s.1.iotype ≠ some .read ∧ NecessaryConfs.mixedIO s.1.toNecessaryConfs = false then
      .ok ({ s.1 with iotype := some .write }, s.2)
    else .error .exit
  | .r =>
    if s.1.iotype ≠ some .write ∧ NecessaryConfs.mixedIO s.1.toNecessaryConfs = false then
      .ok ({ s.1 with iotype := some .read }, s.2)
    else .error .exit
  | .m => .ok ({ s.1 with mixedIO := true }, s.2)
  | .t arg => .ok ({ s.1 with flagTerminationTime := true, timeToRun := atoi arg }, s.2)
  | .s arg => .ok ({ s.1 with numberOps := atoll arg, flagTerminationSize := true }, s.2)
  | .f arg =>
    if s.2 then .ok s
    else do
      let conf ← iniParse env arg s.1
      .ok (conf, true)

/-- The loop over the options, up to the first argument that is none. -/
def optionLoop (env : Environment) : UserConfs × Bool → List (List Char) → Exec (UserConfs × Bool)
  | s, ('-' :: arg) :: argv =>
    match Opt.of arg with
    | none => .error .exit
    | some o => do
      let s ← optionStep env s o
      optionLoop env s argv
  | s, _ => .ok s

/-! ### The checks -/

/-- `DFILE` -/
def dfile : List Char := "conf/dist_personalfiles".toList

/-- The checks of `main`.  `number_ops < 0` is not among them, for an unsigned number never is. -/
def checkConf (conf : UserConfs) : Exec Unit :=
  if conf.iotype = none ∧ conf.mixedIO = false then .error .exit
  else if conf.testtype = none then .error .exit
  else if conf.flagTerminationSize = false ∧ conf.flagTerminationTime = false then .error .exit
  else if conf.flagTerminationTime = true ∧ conf.timeToRun < 0 then .error .exit
  else if conf.filesize = 0 then .error .exit
  else if conf.testtype = some .nominal ∧ conf.ratio ≤ 0 then .error .exit
  else if conf.blockSize = 0 then .error .exit
  else if conf.compressionToAchieve < 1 ∨ 99 < conf.compressionToAchieve then .error .exit
  else if conf.percentageAnalyze < 1 ∨ 99 < conf.percentageAnalyze then .error .exit
  else .ok ()

/-- The conversions: to operations a microsecond, to bytes, to seconds and to a number of operations. -/
def convertConf (conf : UserConfs) : Exec UserConfs := do
  let filesize := u64 (conf.filesize * 1024 * 1024)
  let timeToRun ← if conf.flagTerminationTime then cInt (conf.timeToRun * 60) else .ok conf.timeToRun
  .ok { conf with
    ratio := conf.ratio / 1000000
    ratior := if conf.mixedIO then conf.ratior / 1000000 else conf.ratior
    ratiow := if conf.mixedIO then conf.ratiow / 1000000 else conf.ratiow
    filesize
    totblocks := filesize / conf.blockSize
    timeToRun
    distfile := if conf.distf then conf.distfile else dfile
    numberOps := if conf.flagTerminationSize then u64 (conf.numberOps * 1024 * 1024) / conf.blockSize
      else conf.numberOps }

/-- What `main` does with the configuration when the options and the file have been read. -/
def acceptConf (conf : UserConfs) : Exec UserConfs := do
  checkConf conf
  convertConf conf

/-- The configuration that is parsed without `-f`. -/
def defconf : List Char := "conf/defconf.ini".toList

/-- `main` up to the start of the generator: the configuration of the run. -/
def mainConf (env : Environment) (argv : List (List Char)) : Exec UserConfs := do
  let (conf, confarg) ← optionLoop env (.init env.now, false) argv
  let conf ← if confarg then .ok conf else iniParse env defconf conf
  acceptConf conf

end Dedisbench
