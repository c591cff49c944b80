import Storyworld.Span

namespace Storyworld

/-! Tokens: classified pieces of a source. Blanks and comments are tokens too, so that the texts of
all tokens together are the source. -/

/-- Punctuation. -/
inductive Mark where
  | openBrace
  | closeBrace
  | openParen
  | closeParen
  | comma
  | arrow
  | equals
  | percent
deriving DecidableEq, Repr

namespace Mark

/-- How a mark is written. -/
def spelling : Mark → String
  | openBrace => "\x7b"
  | closeBrace => "\x7d"
  | openParen => "("
  | closeParen => ")"
  | comma => ","
  | arrow => "->"
  | equals => "="
  | percent => "%"

/-- Every mark. -/
def all : List Mark :=
  [openBrace, closeBrace, openParen, closeParen, comma, arrow, equals, percent]

/-- The marks of one character. -/
def ofChar? : Char → Option Mark
  | '\x7b' => some openBrace
  | '\x7d' => some closeBrace
  | '(' => some openParen
  | ')' => some closeParen
  | ',' => some comma
  | '=' => some equals
  | '%' => some percent
  | _ => none

end Mark

namespace Token

/-- What a token is. A string carries its decoded value, a stray character fits no other kind. -/
inductive Kind where
  | keyword (word : String)
  | identifier
  | number
  | boolean (value : Bool)
  | string (value : String)
  | mark (m : Mark)
  | comment
  | blank
  | stray (c : Char)
deriving DecidableEq, Repr

end Token

/-- A piece of the source: its kind, where it lies and how it is written there. -/
structure Token where
  kind : Token.Kind
  span : Span
  text : String
deriving DecidableEq, Repr

namespace Token

/-- Blanks and comments carry no meaning. -/
def isTrivia (t : Token) : Bool :=
  match t.kind with
  | .comment | .blank => true
  | _ => false

/-- The tokens that can be an id: a reserved word and an all-digit word can too. -/
def isWord (t : Token) : Bool :=
  match t.kind with
  | .identifier | .keyword _ | .number => true
  | _ => false

def isKeyword (word : String) (t : Token) : Bool :=
  match t.kind with
  | .keyword k => k = word
  | _ => false

/-- Whether the token is one of several reserved words. -/
def isOneOf (words : List String) (t : Token) : Bool :=
  words.any (isKeyword · t)

def isMark (m : Mark) (t : Token) : Bool :=
  t.kind = .mark m

/-- The decoded value of a string. -/
def stringValue? (t : Token) : Option String :=
  match t.kind with
  | .string value => some value
  | _ => none

def isString (t : Token) : Bool :=
  t.stringValue?.isSome

/-- How messages name a token. -/
def describe (t : Token) : String :=
  match t.kind with
  | .keyword k => s!"keyword '{k}'"
  | .identifier => s!"identifier '{t.text}'"
  | .number => s!"number {t.text}"
  | .boolean b => s!"boolean {b}"
  | .string _ => "string literal"
  | .mark m => s!"'{m.spelling}'"
  | .comment => "comment"
  | .blank => "whitespace"
  | .stray c => s!"unexpected character '{c}'"

/-- The place behind a token, told from its own text and span alone. -/
def stop (t : Token) : Span :=
  let p := Place.after ⟨t.span.start, t.span.line, t.span.column⟩ t.text.toList
  ⟨t.span.stop, t.span.stop, p.line, p.column⟩

end Token

end Storyworld
