namespace Storyworld

/-! How a source is to be read. -/

/-- What the grammar does at a fault. -/
inductive Recovery where
  /-- Skip to the next statement or closing brace and read on. -/
  | resync
  /-- Stop at the first fault. -/
  | abort
deriving DecidableEq, Repr

structure Settings where
  recovery : Recovery := .resync
  /-- How many syntax faults are collected; zero counts as one. -/
  maxErrors : Nat := 50
  /-- How many condition groups and schedule bodies may lie inside one another. -/
  maxNesting : Nat := 32
  /-- Whether bare room lists behind an `ambient` without rooms are worth a warning. -/
  lintBareInRooms : Bool := true
deriving DecidableEq, Repr

namespace Settings

/-- Stops at the first syntax fault. -/
def strict : Settings :=
  { recovery := .abort }

/-- How many syntax faults may be found before reading stops. -/
def faultBudget (x : Settings) : Nat :=
  max x.maxErrors 1

def resyncs (x : Settings) : Bool :=
  x.recovery = .resync

end Settings

namespace Recovery

def all : List Recovery :=
  [resync, abort]

/-- How a settings file spells the choice. -/
def word : Recovery → String
  | resync => "resync"
  | abort => "abort"

def ofWord? (w : String) : Option Recovery :=
  all.find? (·.word = w)

end Recovery

end Storyworld
