import Storyworld.Form

namespace Storyworld

/-! JSON values, and the JSON of a form: a record is an object, an optional value that is not there
is null, and a variant with contents is an object whose only key is the variant's name. -/

inductive Json where
  | null
  | bool (b : Bool)
  | integer (i : Int)
  /-- A number written with a fraction or an exponent. -/
  | fractional
  | string (s : String)
  | array (items : List Json)
  | object (fields : List (String × Json))
deriving Inhabited

namespace Json

/-! ## Forms -/

mutual

def ofForm : Form → Json
  | .text s => string s
  | .integer i => integer i
  | .boolean b => bool b
  | .absent => null
  | .present f => ofForm f
  | .list fs => array (ofForms fs)
  | .record fields => object (ofFields fields)
  | .unit name => string name
  | .wrapped name f => object [(name, ofForm f)]
  | .fielded name fields => object [(name, object (ofFields fields))]

def ofForms : List Form → List Json
  | [] => []
  | f :: fs => ofForm f :: ofForms fs

def ofFields : List (String × Form) → List (String × Json)
  | [] => []
  | (key, f) :: fields => (key, ofForm f) :: ofFields fields

end

/-! ## Text -/

/-- A character of a string; controls, quotes and backslashes are escaped. -/
def escape (c : Char) : List Char :=
  if c = '"' then ['\\', '"']
  else if c = '\\' then ['\\', '\\']
  else if c = '\n' then ['\\', 'n']
  else if c = '\r' then ['\\', 'r']
  else if c = '\t' then ['\\', 't']
  else if c = '\x08' then ['\\', 'b']
  else if c = '\x0c' then ['\\', 'f']
  else if c.toNat < 0x20 then
    ['\\', 'u', '0', '0', Nat.digitChar (c.toNat / 16), Nat.digitChar (c.toNat % 16)]
  else [c]

def quote (s : String) : String :=
  "\"" ++ String.ofList (s.toList.flatMap escape) ++ "\""

/-- A line break, and blanks for `depth` levels. -/
def lineBreak (depth : Nat) : String :=
  String.ofList ('\n' :: List.replicate (2 * depth) ' ')

/-- Parts between brackets, each on a line of its own. -/
def bracketed (opening closing : String) (depth : Nat) (parts : List String) : String :=
  if parts.isEmpty then opening ++ closing
  else
    opening ++ lineBreak (depth + 1) ++ ("," ++ lineBreak (depth + 1)).intercalate parts ++
      lineBreak depth ++ closing

mutual

/-- The text of a value that lies `depth` levels deep. -/
def render (depth : Nat) : Json → String
  | null => "null"
  | bool b => if b then "true" else "false"
  | integer i => toString i
  | fractional => "0.0"
  | string s => quote s
  | array items => bracketed "[" "]" depth (renderItems (depth + 1) items)
  | object fields => bracketed "\x7b" "\x7d" depth (renderFields (depth + 1) fields)

def renderItems (depth : Nat) : List Json → List String
  | [] => []
  | j :: js => render depth j :: renderItems depth js

def renderFields (depth : Nat) : List (String × Json) → List String
  | [] => []
  | (key, j) :: fields => (quote key ++ ": " ++ render depth j) :: renderFields depth fields

end

/-- The text of a value, two blanks to a level. -/
def pretty (j : Json) : String :=
  render 0 j

end Json

end Storyworld
