import Storyworld.Form
import Storyworld.Text.Printable

namespace Storyworld.Ron

/-! The RON notation of a form. Records stand in parentheses without a name, and characters that
cannot be seen are escaped. -/

/-- The digits of a code point in hexadecimal. -/
def hexDigits (n : Nat) : List Char :=
  Nat.toDigits 16 n

/-- A character of a string. -/
def escape (c : Char) : List Char :=
  match c with
  | '\x00' => ['\\', '0']
  | '\t' => ['\\', 't']
  | '\r' => ['\\', 'r']
  | '\n' => ['\\', 'n']
  | '\'' => ['\\', '\'']
  | '"' => ['\\', '"']
  | '\\' => ['\\', '\\']
  | c =>
    if Text.isPrintable c then [c]
    else ['\\', 'u', '\x7b'] ++ hexDigits c.toNat ++ ['\x7d']

def quote (s : String) : String :=
  "\"" ++ String.ofList (s.toList.flatMap escape) ++ "\""

/-- A line break, and blanks for `depth` levels. -/
def lineBreak (depth : Nat) : String :=
  String.ofList ('\n' :: List.replicate (4 * depth) ' ')

/-- Parts between brackets, each on a line of its own with a comma behind it. -/
def bracketed (opening closing : String) (depth : Nat) (parts : List String) : String :=
  if parts.isEmpty then opening ++ closing
  else
    opening ++ String.join (parts.map fun part => lineBreak (depth + 1) ++ part ++ ",") ++
      lineBreak depth ++ closing

mutual

/-- The text of a form that lies `depth` brackets deep. -/
def render (depth : Nat) : Form → String
  | .text s => quote s
  | .integer i => toString i
  | .boolean b => if b then "true" else "false"
  | .absent => "None"
  | .present f => "Some(" ++ render depth f ++ ")"
  | .list fs => bracketed "[" "]" depth (renderList (depth + 1) fs)
  | .record fields => bracketed "(" ")" depth (renderFields (depth + 1) fields)
  | .unit name => name
  | .wrapped name f => name ++ "(" ++ render depth f ++ ")"
  | .fielded name fields => name ++ bracketed "(" ")" depth (renderFields (depth + 1) fields)

def renderList (depth : Nat) : List Form → List String
  | [] => []
  | f :: fs => render depth f :: renderList depth fs

def renderFields (depth : Nat) : List (String × Form) → List String
  | [] => []
  | (key, f) :: fields => (key ++ ": " ++ render depth f) :: renderFields depth fields

end

/-- How many levels deep the writer goes at first. -/
def maxLevels : Nat :=
  128

mutual

/-- The levels that are free once a form is written, of `free` levels before it. A part of a form
takes a level while it is written and frees it again; a list, record or variant with fields that is
closed frees one level more. So what lies behind closed brackets may go deeper. -/
def levelsAfter? (free : Nat) : Form → Option Nat
  | .text _ | .integer _ | .boolean _ | .absent | .unit _ => some free
  | .present f | .wrapped _ f =>
    match free with
    | 0 => none
    | free + 1 => (levelsAfter? free f).map (· + 1)
  | .list fs => (levelsAfterList? free fs).map (· + 1)
  | .record fields | .fielded _ fields => (levelsAfterFields? free fields).map (· + 1)

/-- The levels that are free behind the elements of a list. -/
def levelsAfterList? (free : Nat) : List Form → Option Nat
  | [] => some free
  | f :: fs =>
    match free with
    | 0 => none
    | free + 1 => (levelsAfter? free f).bind fun free => levelsAfterList? (free + 1) fs

/-- The levels that are free behind named fields. -/
def levelsAfterFields? (free : Nat) : List (String × Form) → Option Nat
  | [] => some free
  | (_, f) :: fields =>
    match free with
    | 0 => none
    | free + 1 => (levelsAfter? free f).bind fun free => levelsAfterFields? (free + 1) fields

end

/-- The text of a form, unless some part of it finds no free level. -/
def pretty? (f : Form) : Option String :=
  (levelsAfter? maxLevels f).map fun _ => render 0 f

end Storyworld.Ron
