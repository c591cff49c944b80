import Mathlib.Data.List.Forall2
import Storyworld.Id
import Storyworld.Proofs.Token.Scan
import Storyworld.Text.Integer
import Storyworld.Token.Scan

namespace Storyworld.Text.Integer

/-! What documents are spelled with. -/

/-! ## Numerals

Numerals as they are written by hand: decimal digits without zeros in front, behind a hyphen if
the number is negative. Reading them gives the number back. -/

/-- How an integer is written. -/
def numeral : Int → List Char
  | .ofNat n => Nat.toDigits 10 n
  | .negSucc n => '-' :: Nat.toDigits 10 (n + 1)

theorem digits?_append {acc n : Nat} {cs : List Char} (ds : List Char)
    (h : digits? acc cs = some n) : digits? acc (cs ++ ds) = digits? n ds := by
  induction cs generalizing acc with
  | nil =>
      cases h
      rfl
  | cons c cs ih =>
      rw [digits?] at h
      rw [List.cons_append, digits?]
      split at h
      · rw [if_pos ‹_›, ih h]
      · cases h

theorem digits?_digitChar (acc : Nat) {d : Nat} (hd : d < 10) :
    digits? acc [d.digitChar] = some (acc * 10 + d) := by
  have hdigit : d.digitChar.isDigit = true := by simp [Nat.isDigit_digitChar, hd]
  have hvalue : d.digitChar.toNat - 48 = d := Nat.toNat_digitChar_sub_48_of_lt_ten hd
  simp [digits?, hdigit, hvalue]

theorem digits?_toDigits (n : Nat) : digits? 0 (Nat.toDigits 10 n) = some n := by
  induction n using Nat.strongRecOn with
  | ind n ih =>
      rw [Nat.toDigits_eq_if (by decide)]
      split
      · simpa using digits?_digitChar 0 ‹n < 10›
      · have hsmaller : n / 10 < n := Nat.div_lt_self (by omega) (by decide)
        rw [digits?_append _ (ih _ hsmaller), digits?_digitChar _ (Nat.mod_lt n (by decide))]
        congr 1
        omega

theorem natural?_toDigits (n : Nat) : natural? (Nat.toDigits 10 n) = some n := by
  simp [natural?, digits?_toDigits]

/-- A numeral without a sign begins with a digit. -/
theorem toDigits_head (n : Nat) : ∃ c cs, Nat.toDigits 10 n = c :: cs ∧ c.isDigit := by
  cases hcs : Nat.toDigits 10 n with
  | nil => simp at hcs
  | cons c cs =>
      refine ⟨c, cs, rfl, Nat.isDigit_of_mem_toDigits (b := 10) (n := n) (by decide) (by decide) ?_⟩
      simp [hcs]

theorem read?_numeral (i : Int) : read? (numeral i) = some i := by
  cases i with
  | ofNat n =>
      obtain ⟨c, cs, hcs, hc⟩ := toDigits_head n
      have hread : read? (Nat.toDigits 10 n) = (natural? (Nat.toDigits 10 n)).map fun n => (n : Int) := by
        rw [hcs]
        unfold read?
        split
        · rename_i heq
          cases heq
          simp at hc
        · rename_i heq
          cases heq
          simp at hc
        · rfl
      rw [numeral, hread, natural?_toDigits]
      rfl
  | negSucc n =>
      rw [numeral, read?, natural?_toDigits]
      rfl

/-- A numeral whose value fits a signed 64-bit word is read as that word. -/
theorem word?_numeral {x : Int64} : word? (numeral x.toInt) = some x := by
  rw [word?, read?_numeral, Option.bind_some, int64?, if_pos ⟨Int64.minValue_le_toInt x, Int64.toInt_le x⟩]
  simp

end Storyworld.Text.Integer

namespace Storyworld

/-! ## Pieces

The pieces in which a document is spelled. A piece tells a token up to the place where it lies;
of strings only the value counts, not how it is quoted. -/

inductive Piece where
  | keyword (word : String)
  /-- The two words `only once`. -/
  | onlyOnce
  /-- A word that names something, of whichever kind the lexer makes it. -/
  | word (name : String)
  | number (value : Int64)
  | boolean (value : Bool)
  | string (value : String)
  | mark (m : Mark)
deriving DecidableEq, Repr

/-- A number in decimal digits. -/
def Token.ofNumber (value : Int64) (span : Span) : Token :=
  ⟨.number, span, .ofList (Text.Integer.numeral value.toInt)⟩

/-- The tokens that a piece can be. -/
inductive Piece.Spells : Piece → Token → Prop where
  | keyword {word : String} (span : Span) : Spells (.keyword word) ⟨.keyword word, span, word⟩
  | onlyOnce (span : Span) (text : String) : Spells .onlyOnce ⟨.keyword "only once", span, text⟩
  | word {name : String} (span : Span) :
      Spells (.word name) ⟨Token.Kind.ofWord name.toList, span, name⟩
  | number {value : Int64} (span : Span) : Spells (.number value) (.ofNumber value span)
  | boolean {value : Bool} (span : Span) (text : String) :
      Spells (.boolean value) ⟨.boolean value, span, text⟩
  | string {value : String} (span : Span) (text : String) :
      Spells (.string value) ⟨.string value, span, text⟩
  | mark {m : Mark} (span : Span) (text : String) : Spells (.mark m) ⟨.mark m, span, text⟩

namespace Piece

/-- Whether a token spells a piece. -/
def isSpelledBy (t : Token) : Piece → Bool
  | keyword w => t.kind = .keyword w && t.text = w
  | onlyOnce => t.kind = .keyword "only once"
  | word name => t.kind = Token.Kind.ofWord name.toList && t.text = name
  | number value => t.kind = .number && t.text = .ofList (Text.Integer.numeral value.toInt)
  | boolean value => t.kind = .boolean value
  | string value => t.kind = .string value
  | mark m => t.kind = .mark m

theorem spells_iff {p : Piece} {t : Token} : p.Spells t ↔ p.isSpelledBy t := by
  constructor
  · rintro ⟨⟩ <;> simp [isSpelledBy, Token.ofNumber]
  · obtain ⟨kind, span, text⟩ := t
    cases p <;> simp only [isSpelledBy, Bool.and_eq_true, decide_eq_true_eq]
    all_goals
      rintro ⟨rfl, rfl⟩
      constructor

instance (p : Piece) (t : Token) : Decidable (p.Spells t) :=
  decidable_of_iff _ spells_iff.symm

/-- A number of 32 bits. -/
def count (n : UInt32) : Piece :=
  .number (.ofNat n.toNat)

/-- Whether a piece is no brace. -/
def isFlat : Piece → Bool
  | mark .openBrace | mark .closeBrace => false
  | _ => true

/-- Whether pieces begin with one of some words. -/
def startWith (words : List String) (ps : List Piece) : Bool :=
  match ps.head? with
  | some (keyword w) => words.contains w
  | _ => false

theorem ne_nil_of_startWith {words : List String} {ps : List Piece} (h : startWith words ps) :
    ps ≠ [] := by
  rintro rfl
  cases h

/-- The spellings of some things with commas between them. -/
def commas {α : Type} (f : α → List Piece) : List α → List Piece
  | [] => []
  | a :: as => f a ++ as.flatMap fun b => mark .comma :: f b

/-- Pieces in braces. -/
def braces (ps : List Piece) : List Piece :=
  mark .openBrace :: (ps ++ [mark .closeBrace])

/-- Pieces in parentheses. -/
def parens (ps : List Piece) : List Piece :=
  mark .openParen :: (ps ++ [mark .closeParen])

end Piece

/-- Tokens that spell some pieces, one for each. -/
def Spelled (ps : List Piece) (ts : List Token) : Prop :=
  List.Forall₂ Piece.Spells ps ts

instance (ps : List Piece) (ts : List Token) : Decidable (Spelled ps ts) :=
  inferInstanceAs (Decidable (List.Forall₂ Piece.Spells ps ts))

/-! ## Names that can be written -/

/-- A name that a source can spell as a word. -/
structure Id.Writable (i : Id of) : Prop where
  nonempty : i.name.toList ≠ []
  chars : ∀ c ∈ i.name.toList, Token.isWordChar c
  head : i.name.toList.head? ≠ some '#'
  notTrue : i.name ≠ "true"
  notFalse : i.name ≠ "false"

instance {of : Referent} (i : Id of) : Decidable i.Writable :=
  decidable_of_iff
    (i.name.toList ≠ [] ∧ i.name.toList.all Token.isWordChar ∧ i.name.toList.head? ≠ some '#' ∧
      i.name ≠ "true" ∧ i.name ≠ "false")
    ⟨fun ⟨h₁, h₂, h₃, h₄, h₅⟩ => ⟨h₁, List.all_eq_true.mp h₂, h₃, h₄, h₅⟩,
      fun ⟨h₁, h₂, h₃, h₄, h₅⟩ => ⟨h₁, List.all_eq_true.mpr h₂, h₃, h₄, h₅⟩⟩

theorem Id.Writable.isWord {i : Id of} (h : i.Writable) {span : Span} {text : String} :
    (⟨Token.Kind.ofWord i.name.toList, span, text⟩ : Token).isWord := by
  unfold Token.isWord Token.Kind.ofWord
  simp only [String.ofList_toList, h.notTrue, h.notFalse, if_false]
  by_cases hn : Token.isNumeral i.name.toList
  · simp [hn]
  · by_cases hr : Token.isReserved i.name <;> simp [hn, hr]

/-! ## Spelled tokens -/

namespace Spelled

variable {p : Piece} {ps qs : List Piece} {ts us : List Token} {t : Token}

theorem cons_inv (h : Spelled (p :: ps) ts) : ∃ t us, ts = t :: us ∧ p.Spells t ∧ Spelled ps us := by
  cases h with
  | cons ht h => exact ⟨_, _, rfl, ht, h⟩

theorem isOneOf_head {words : List String} (h : Spelled ps ts) (hp : Piece.startWith words ps) :
    ∃ t us, ts = t :: us ∧ t.isOneOf words := by
  cases h with
  | nil => cases hp
  | @cons p t ps ts ht h =>
      refine ⟨t, ts, rfl, ?_⟩
      cases ht with
      | keyword span => exact Token.isOneOf_iff.mpr ⟨_, by simpa [Piece.startWith] using hp, rfl⟩
      | _ => cases hp

theorem append_inv (h : Spelled (ps ++ qs) ts) :
    ∃ us vs, ts = us ++ vs ∧ Spelled ps us ∧ Spelled qs vs := by
  induction ps generalizing ts with
  | nil => exact ⟨[], ts, rfl, List.Forall₂.nil, h⟩
  | cons p ps ih =>
      obtain ⟨t, ts', rfl, ht, h⟩ := cons_inv h
      obtain ⟨us, vs, rfl, hus, hvs⟩ := ih h
      exact ⟨t :: us, vs, rfl, List.Forall₂.cons ht hus, hvs⟩

/-! ### What stands at a place -/

section

variable {rest : List Token} {i : Nat} {w w' : String} {m m' : Mark} {words : List String}

theorem any_at {test : Token → Bool} {b : Bool} (h : Spelled ps ts) (hi : ps[i]? = some p)
    (htest : ∀ t, p.Spells t → test t = b) : (ts ++ rest)[i]?.any test = b := by
  induction h generalizing i with
  | nil => simp at hi
  | cons ht _ ih =>
      cases i with
      | zero =>
          cases hi
          simpa using htest _ ht
      | succ i => simpa using ih hi

theorem keyword_isKeyword (h : Spelled ps ts) (hi : ps[i]? = some (.keyword w)) :
    (ts ++ rest)[i]?.any (·.isKeyword w') = decide (w = w') :=
  h.any_at hi fun _ ht => by cases ht; rfl

theorem keyword_isOneOf (h : Spelled ps ts) (hi : ps[i]? = some (.keyword w)) :
    (ts ++ rest)[i]?.any (·.isOneOf words) = words.contains w :=
  h.any_at hi fun _ ht => by
    cases ht
    rw [Bool.eq_iff_iff, Token.isOneOf_iff]
    simp

theorem keyword_isMark (h : Spelled ps ts) (hi : ps[i]? = some (.keyword w)) :
    (ts ++ rest)[i]?.any (·.isMark m) = false :=
  h.any_at hi fun _ ht => by cases ht; rfl

theorem mark_isMark (h : Spelled ps ts) (hi : ps[i]? = some (.mark m)) :
    (ts ++ rest)[i]?.any (·.isMark m') = decide (m = m') :=
  h.any_at hi fun _ ht => by cases ht; simp [Token.isMark]

theorem mark_isKeyword (h : Spelled ps ts) (hi : ps[i]? = some (.mark m)) :
    (ts ++ rest)[i]?.any (·.isKeyword w) = false :=
  h.any_at hi fun _ ht => by cases ht; rfl

theorem mark_isOneOf (h : Spelled ps ts) (hi : ps[i]? = some (.mark m)) :
    (ts ++ rest)[i]?.any (·.isOneOf words) = false :=
  h.any_at hi fun _ ht => by
    cases ht
    exact Token.isOneOf_of_isMark (m := m) (by simp [Token.isMark])

end

end Spelled

end Storyworld
