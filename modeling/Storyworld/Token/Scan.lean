import Storyworld.Text.WhiteSpace
import Storyworld.Token.Keyword

namespace Storyworld.Token

/-! One step of the lexer: which token a text begins with. Each scanner hands back the characters
it took and the ones it left, so that the two together are the text it was given. -/

/-- The characters of a token, apart from what its kind makes of them. -/
structure Lexeme where
  kind : Kind
  text : List Char
  rest : List Char
deriving DecidableEq, Repr

/-- What a text begins with. -/
inductive Scan where
  | finished
  | lexeme (l : Lexeme)
  /-- A string begins here and never closes. -/
  | unclosed
  /-- A control character stands here. -/
  | control (c : Char)
deriving DecidableEq, Repr

/-! ## Words -/

def isAsciiAlphanumeric (c : Char) : Bool :=
  ('a' ≤ c && c ≤ 'z') || ('A' ≤ c && c ≤ 'Z') || ('0' ≤ c && c ≤ '9')

/-- The characters of words. -/
def isWordChar (c : Char) : Bool :=
  isAsciiAlphanumeric c || c = '_' || c = ':' || c = '#' || c = '-'

/-- Splits a text where its first word ends; the hyphen of an arrow belongs to no word. -/
def splitWord : List Char → List Char × List Char
  | [] => ([], [])
  | c :: cs =>
    if isWordChar c && !(c = '-' && cs.head? = some '>') then
      let (word, rest) := splitWord cs
      (c :: word, rest)
    else ([], c :: cs)

/-- Digits, at least one, after an optional hyphen. -/
def isNumeral : List Char → Bool
  | '-' :: cs => !cs.isEmpty && cs.all Char.isDigit
  | cs => !cs.isEmpty && cs.all Char.isDigit

/-- What a whole word is. -/
def Kind.ofWord (word : List Char) : Kind :=
  let w := String.ofList word
  if isNumeral word then .number
  else if w = "true" then .boolean true
  else if w = "false" then .boolean false
  else if isReserved w then .keyword w
  else .identifier

/-- What follows `only` if it makes up the phrase `only once`: the white space, the second word and
the text behind it. -/
def phraseTail? (cs : List Char) : Option (List Char × List Char) :=
  let gap := cs.takeWhile Text.isWhiteSpace
  match cs.dropWhile Text.isWhiteSpace with
  | 'o' :: 'n' :: 'c' :: 'e' :: rest =>
    if rest.head?.any isWordChar then none else some (gap ++ ['o', 'n', 'c', 'e'], rest)
  | _ => none

def scanWord (cs : List Char) : Lexeme :=
  let (word, rest) := splitWord cs
  if word = ['o', 'n', 'l', 'y'] then
    match phraseTail? rest with
    | some (tail, rest) => ⟨.keyword "only once", word ++ tail, rest⟩
    | none => ⟨Kind.ofWord word, word, rest⟩
  else ⟨Kind.ofWord word, word, rest⟩

/-! ## Strings -/

/-- A string being read: its value, the characters it takes and the ones behind it. -/
structure Quotation where
  value : List Char
  text : List Char
  rest : List Char
deriving DecidableEq, Repr

namespace Quotation

/-- Puts characters in front that stand for `value`. -/
def push (value text : List Char) (q : Quotation) : Quotation :=
  ⟨value ++ q.value, text ++ q.text, q.rest⟩

/-- The string token that `opening` and what follows it make up. -/
def lexeme (opening : List Char) (q : Quotation) : Lexeme :=
  ⟨.string (String.ofList q.value), opening ++ q.text, q.rest⟩

end Quotation

/-- What a backslash and the character behind it stand for; an unknown escape keeps its
backslash. -/
def unescape : Char → List Char
  | 'n' => ['\n']
  | 'r' => ['\r']
  | 't' => ['\t']
  | '"' => ['"']
  | '\'' => ['\'']
  | '\\' => ['\\']
  | c => ['\\', c]

/-- The rest of a string on one line, behind its opening quote. -/
def quoted? (quote : Char) : List Char → Option Quotation
  | [] => none
  | c :: cs =>
    if c = '\n' then none
    else if c = '\\' then
      match cs with
      | [] => none
      | e :: cs => if e = '\n' then none else (quoted? quote cs).map (.push (unescape e) [c, e])
    else if c = quote then some ⟨[], [c], cs⟩
    else (quoted? quote cs).map (.push [c] [c])

/-- The rest of a string behind its three opening quotes. `literal` more characters stand for
themselves; a backslash before three quotes makes them literal. -/
def triple? (quote : Char) : Nat → List Char → Option Quotation
  | _, [] => none
  | n + 1, c :: cs => (triple? quote n cs).map (.push [c] [c])
  | 0, c :: cs =>
    if c = '\\' && [quote, quote, quote].isPrefixOf cs then
      (triple? quote 3 cs).map (.push [] [c])
    else if c = quote && [quote, quote].isPrefixOf cs then
      some ⟨[], [quote, quote, quote], cs.drop 2⟩
    else (triple? quote 0 cs).map (.push [c] [c])

/-- The rest of a raw string up to and with the first occurrence of `close`. -/
def raw? (close : List Char) : List Char → Option Quotation
  | [] => none
  | c :: cs =>
    if close.isPrefixOf (c :: cs) then some ⟨[], close, (c :: cs).drop close.length⟩
    else (raw? close cs).map (.push [c] [c])

/-- Whether an `r` with this text behind it opens a raw string: number signs, then a quote. -/
def opensRaw (cs : List Char) : Bool :=
  cs.head? = some '#' && (cs.dropWhile (· = '#')).head? = some '"'

/-- The raw string behind an `r`. It closes with a quote and as many number signs as opened it. -/
def scanRaw? (cs : List Char) : Option Lexeme :=
  let signs := cs.takeWhile (· = '#')
  let body := (cs.dropWhile (· = '#')).drop 1
  (raw? ('"' :: signs) body).map (Quotation.lexeme ('r' :: signs ++ ['"']))

/-- The string that `quote` with this text behind it opens. -/
def scanQuoted? (quote : Char) (cs : List Char) : Option Lexeme :=
  if [quote, quote].isPrefixOf cs then
    (triple? quote 0 (cs.drop 2)).map (Quotation.lexeme [quote, quote, quote])
  else (quoted? quote cs).map (Quotation.lexeme [quote])

/-! ## All tokens -/

/-- The longest run of characters that satisfy `p`. -/
def scanRun (kind : Kind) (p : Char → Bool) (cs : List Char) : Lexeme :=
  ⟨kind, cs.takeWhile p, cs.dropWhile p⟩

/-- A string, or the fault that it does not close. -/
def Scan.ofString : Option Lexeme → Scan
  | some l => .lexeme l
  | none => .unclosed

/-- What a text begins with. -/
def scan : List Char → Scan
  | [] => .finished
  | c :: cs =>
    if Text.isBlank c then .lexeme (scanRun .blank Text.isBlank (c :: cs))
    else if c = '#' then .lexeme (scanRun .comment (· ≠ '\n') (c :: cs))
    else if c = 'r' && opensRaw cs then .ofString (scanRaw? cs)
    else if c = '"' || c = '\'' then .ofString (scanQuoted? c cs)
    else if c = '-' && cs.head? = some '>' then .lexeme ⟨.mark .arrow, ['-', '>'], cs.drop 1⟩
    else if isWordChar c then .lexeme (scanWord (c :: cs))
    else if Text.isControl c then .control c
    else
      match Mark.ofChar? c with
      | some m => .lexeme ⟨.mark m, [c], cs⟩
      | none => .lexeme ⟨.stray c, [c], cs⟩

end Storyworld.Token
