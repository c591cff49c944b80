import Storyworld.Settings
import Storyworld.Toml.Reader

namespace Storyworld.Settings

/-! Settings read from a TOML text. What the text does not set keeps its default, and keys that set
nothing are ignored. -/

/-- What is wrong with the settings in a file. -/
inductive Fault where
  /-- The file cannot be read. -/
  | unreadable (path : String)
  /-- What is in the file are no settings. -/
  | invalidFile (path : String)
  /-- A text is not TOML, or sets something to a value of the wrong kind. -/
  | invalid
deriving DecidableEq, Repr

def Fault.message : Fault → String
  | unreadable path => s!"Failed to read options file at {path}"
  | invalidFile path => s!"Invalid options in {path}"
  | invalid => "Failed to parse parse-options TOML"

/-- Where settings are looked for if no file is named. -/
def defaultPath : String :=
  "amble_syntax.toml"

/-- A choice of recovery: its word, or a table whose only key is the word. -/
def recovery? : Toml.Item → Option Recovery
  | .string word => Recovery.ofWord? word
  | .table (.mk _ [(word, .table (.mk _ []))]) => Recovery.ofWord? word
  | .table (.mk _ [(word, .array [])]) => Recovery.ofWord? word
  | _ => none

def natural? : Toml.Item → Option Nat
  | .integer i => if 0 ≤ i then some i.toNat else none
  | _ => none

def boolean? : Toml.Item → Option Bool
  | .boolean b => some b
  | _ => none

/-- The value of a key, or the default where the key is not set. -/
def setting (t : Toml.Table) (key : String) (default : α) (value? : Toml.Item → Option α) :
    Option α :=
  match t.get? key with
  | some item => value? item
  | none => some default

/-- The settings that the keys of a table make. -/
def ofTable? (t : Toml.Table) : Option Settings := do
  let plain : Settings := {}
  return {
    recovery := ← setting t "recovery" plain.recovery recovery?
    maxErrors := ← setting t "max_errors" plain.maxErrors natural?
    maxNesting := ← setting t "max_nesting" plain.maxNesting natural?
    lintBareInRooms := ← setting t "lint_bare_in_rooms" plain.lintBareInRooms boolean? }

/-- The settings in a TOML text. -/
def ofToml (text : List Char) : Except Fault Settings :=
  match (Toml.read? text).bind ofTable? with
  | some settings => .ok settings
  | none => .error .invalid

/-- The settings in a file, of which the contents are given if it can be read. -/
def load (path : String) : (contents : Option (List Char)) → Except Fault Settings
  | none => .error (.unreadable path)
  | some text =>
    match ofToml text with
    | .ok settings => .ok settings
    | .error _ => .error (.invalidFile path)

end Storyworld.Settings
