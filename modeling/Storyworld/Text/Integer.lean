namespace Storyworld.Text.Integer

/-! Decimal numerals: an optional sign and at least one digit. -/

/-- The value of a run of decimal digits read onto `acc`; nothing if some character is no
digit. -/
def digits? : Nat → List Char → Option Nat
  | acc, [] => some acc
  | acc, c :: cs => if c.isDigit then digits? (acc * 10 + (c.toNat - '0'.toNat)) cs else none

/-- A run of digits that is not empty. -/
def natural? (cs : List Char) : Option Nat :=
  if cs.isEmpty then none else digits? 0 cs

/-- A natural number after an optional sign. -/
def read? : List Char → Option Int
  | '-' :: cs => (natural? cs).map fun n => -(n : Int)
  | '+' :: cs => (natural? cs).map fun n => (n : Int)
  | cs => (natural? cs).map fun n => (n : Int)

/-- An integer as a signed 64-bit word, if it fits. -/
def int64? (i : Int) : Option Int64 :=
  if Int64.minValue.toInt ≤ i ∧ i ≤ Int64.maxValue.toInt then some (Int64.ofInt i) else none

/-- A numeral whose value fits a signed 64-bit word. -/
def word? (cs : List Char) : Option Int64 :=
  (read? cs).bind int64?

end Storyworld.Text.Integer
