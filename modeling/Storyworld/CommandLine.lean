import Storyworld.Disk
import Storyworld.Document.Form
import Storyworld.Report
import Storyworld.Settings.File

namespace Storyworld.CommandLine

/-! The command line: sources are checked, and a source is shown as its document or its tokens. -/

/-! ## Arguments -/

inductive Format where
  | json
  | ron
deriving DecidableEq, Repr

inductive Command where
  | check (paths : List String) (denyWarnings : Bool)
  | dump (path : String) (format : Format)
  | tokens (path : String)
deriving DecidableEq, Repr

structure Arguments where
  /-- The settings file, if one is named. -/
  config : Option String
  command : Command
deriving DecidableEq, Repr

/-- Arguments sorted into options and the rest. -/
structure Draft where
  config : Option String := none
  format : Option String := none
  denyWarnings : Bool := false
  plain : List String := []

/-- Sorts arguments; behind two hyphens all of them are plain. -/
def sort : List String → Option Draft
  | [] => some {}
  | "--" :: args => some { plain := args }
  | "--deny-warnings" :: args => do
    let d ← sort args
    guard !d.denyWarnings
    return { d with denyWarnings := true }
  | "--config" :: path :: args => do
    let d ← sort args
    guard d.config.isNone
    return { d with config := some path }
  | "--format" :: name :: args => do
    let d ← sort args
    guard d.format.isNone
    return { d with format := some name }
  | arg :: args => do
    let d ← sort args
    if arg.startsWith "--config=" then
      guard d.config.isNone
      return { d with config := some (arg.drop 9).toString }
    else if arg.startsWith "--format=" then
      guard d.format.isNone
      return { d with format := some (arg.drop 9).toString }
    else
      guard (arg = "-" || !arg.startsWith "-")
      return { d with plain := arg :: d.plain }

def format? : Option String → Option Format
  | none | some "json" => some .json
  | some "ron" => some .ron
  | some _ => none

/-- The command that sorted arguments give. -/
def Draft.command? (d : Draft) : Option Command :=
  match d.plain with
  | "check" :: path :: paths =>
    if d.format.isNone then some (.check (path :: paths) d.denyWarnings) else none
  | ["dump", path] =>
    if d.denyWarnings then none else (format? d.format).map (.dump path)
  | ["tokens", path] =>
    if d.denyWarnings || d.format.isSome then none else some (.tokens path)
  | _ => none

def Arguments.ofList? (args : List String) : Option Arguments := do
  let d ← sort args
  return { config := d.config, command := ← d.command? }

/-! ## Results -/

/-- What a run leaves behind. -/
structure Result where
  code : Nat := 0
  stdout : String := ""
  stderr : String := ""
deriving DecidableEq, Repr

/-- Text on a line of its own. -/
def inLine (text : String) : String :=
  text ++ "\n"

/-- Ends a run that cannot go on; `stderr` has been written by then. -/
def fail (stderr : String) (trouble cause : String) : Result :=
  { code := 1, stderr := stderr ++ s!"Error: {trouble}\n\nCaused by:\n    {cause}\n" }

def failReading (stderr path : String) (fault : Disk.Fault) : Result :=
  fail stderr s!"reading {path}" fault.message

/-- The messages about faults, each on lines of its own. -/
def faultLines (path : String) (source : List Char) (faults : List Fault) : String :=
  String.join (faults.map fun f => inLine (Report.ofFault path source f))

/-- The messages about warnings, each on lines of its own. -/
def lintLines (path : String) (source : List Char) (lints : List Lint) : String :=
  String.join (lints.map fun l => inLine (Report.ofLint path source l))

/-! ## Checking -/

/-- The sources that a path names: itself, or those in the folder it leads to. -/
def sourcesAt (look : String → Disk.Entry) (path : String) : List (String × Disk.Contents) :=
  match look path with
  | .file contents => [(path, contents)]
  | .folder files =>
    (files.filter fun f => Disk.isSource f.1).map fun f => (Disk.join path f.1, f.2)

/-- The sources that paths name, in the order in which they are checked. -/
def sources (look : String → Disk.Entry) (paths : List String) : List (String × Disk.Contents) :=
  (paths.flatMap (sourcesAt look)).mergeSort fun a b =>
    Disk.inOrder (Disk.components a.1) (Disk.components b.1)

/-- How many faults and warnings were found so far, and the messages about them. -/
structure Tally where
  faults : Nat := 0
  warnings : Nat := 0
  stderr : String := ""

/-- Checks one source. -/
def Tally.add (settings : Settings) (path : String) (source : List Char) (t : Tally) : Tally :=
  let outcome := Outcome.ofSource settings source
  { faults := t.faults + outcome.faults.length
    warnings := t.warnings + outcome.warnings.length
    stderr := t.stderr ++ faultLines path source outcome.faults ++
      lintLines path source outcome.warnings }

/-- Checks sources one by one, up to the first that cannot be read. -/
def checkAll (settings : Settings) : List (String × Disk.Contents) → Tally → Except Result Tally
  | [], t => .ok t
  | (path, .ok source) :: more, t => checkAll settings more (t.add settings path source)
  | (path, .error fault) :: _, t => .error (failReading t.stderr path fault)

def check (look : String → Disk.Entry) (settings : Settings) (paths : List String)
    (denyWarnings : Bool) : Result :=
  let sources := sources look paths
  match checkAll settings sources {} with
  | .error result => result
  | .ok t =>
    let failed := t.faults > 0 || (denyWarnings && t.warnings > 0)
    let total := sources.length
    { code := if failed then 1 else 0
      stdout := s!"{total} file(s) checked: {t.faults} error(s), {t.warnings} warning(s)\n"
      stderr := t.stderr }

/-! ## Showing -/

/-- Why a document cannot be written in RON. -/
def tooManyLevels : String :=
  "Exceeded recursion limit, try increasing `ron::Options::recursion_limit` and using " ++
    "`serde_stacker` to protect against a stack overflow"

def dump (look : String → Disk.Entry) (settings : Settings) (path : String) (format : Format) :
    Result :=
  match (look path).read with
  | .error fault => failReading "" path fault
  | .ok source =>
    let outcome := Outcome.ofSource settings source
    let stderr := faultLines path source outcome.faults
    match outcome.document with
    | none => { code := 1, stderr }
    | some document =>
      let text? :=
        match format with
        | .json => some document.json
        | .ron => document.ron?
      match text? with
      | none => fail stderr "serializing AST to RON" tooManyLevels
      | some text =>
        { code := if outcome.faults.isEmpty then 0 else 1, stdout := inLine text, stderr }

/-- Blanks in front of a text up to a width. -/
def alignRight (width : Nat) (s : String) : String :=
  Report.times (width - s.length) ' ' ++ s

/-- Blanks behind a text up to a width. -/
def alignLeft (width : Nat) (s : String) : String :=
  s ++ Report.times (width - s.length) ' '

/-- A token and where it begins. -/
def tokenLine (t : Token) : String :=
  inLine <| alignRight 4 (toString t.span.line) ++ ":" ++ alignLeft 3 (toString t.span.column) ++
    " " ++ t.describe

def tokens (look : String → Disk.Entry) (path : String) : Result :=
  match (look path).read with
  | .error fault => failReading "" path fault
  | .ok source =>
    match Lexer.tokens source with
    | .ok tokens =>
      { stdout := String.join ((tokens.filter fun t => !t.isTrivia).map tokenLine) }
    | .error fault => { code := 1, stderr := faultLines path source [.lex fault] }

/-! ## Runs -/

/-- The settings of a run: those in the file that is named, or else those in the file that settings
are looked for in, if it is there. -/
def settings (look : String → Disk.Entry) (config : Option String) : Except Result Settings :=
  let path := config.getD Settings.defaultPath
  match config, (look path).read with
  | none, .error .missing => .ok {}
  | _, .error fault => .error (fail "" (Settings.Fault.unreadable path).message fault.message)
  | _, .ok text =>
    match Settings.load path (some text) with
    | .ok settings => .ok settings
    | .error fault => .error (fail "" fault.message Settings.Fault.invalid.message)

/-- What a command gives; `look` tells what paths lead to. -/
def run (look : String → Disk.Entry) (args : Arguments) : Result :=
  match settings look args.config with
  | .error result => result
  | .ok settings =>
    match args.command with
    | .check paths denyWarnings => check look settings paths denyWarnings
    | .dump path format => dump look settings path format
    | .tokens path => tokens look path

/-- What a run says to arguments that make no command. -/
def usage : Result :=
  { code := 2
    stderr := "Usage: amble_syntax [--config PATH] check PATH... [--deny-warnings]\n" ++
      "       amble_syntax [--config PATH] dump FILE [--format json|ron]\n" ++
      "       amble_syntax [--config PATH] tokens FILE\n" }

/-- The paths a command looks at. -/
def Arguments.paths (args : Arguments) : List String :=
  args.config.getD Settings.defaultPath ::
    match args.command with
    | .check paths _ => paths
    | .dump path _ => [path]
    | .tokens path => [path]

end Storyworld.CommandLine
