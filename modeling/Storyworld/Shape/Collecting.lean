import Storyworld.Shape.Reading

namespace Storyworld.Shape

/-! Collecting faults. Where a statement fails, its block records the fault and goes on with the
next statement, so that one pass finds the faults of all of them. -/

/-- Builds something and records faults on the way; the list holds those recorded so far, in the
order they were found. -/
abbrev Collecting := EStateM ShapeFault (List ShapeFault)

instance : MonadLift (Except ShapeFault) Collecting where
  monadLift
    | .ok a => pure a
    | .error fault => throw fault

/-- Records a fault. -/
def report (fault : ShapeFault) : Collecting Unit :=
  modify (· ++ [fault])

/-- Builds something if that succeeds, and records the fault if it does not. -/
def keep (build : Collecting α) : Collecting (Option α) :=
  tryCatch (some <$> build) fun fault => do
    report fault
    return none

/-- The parts of a block that can be built. -/
def keepAll (build : α → Collecting β) (parts : List α) : Collecting (List β) := do
  return (← parts.mapM fun part => keep (build part)).reduceOption

/-- Changes `start` by the statements of a block, as far as they can be read. -/
def keepChanges (change : α → Node → Collecting α) (start : α) (statements : List Node) :
    Collecting α :=
  statements.foldlM (fun a n => return (← keep (change a n)).getD a) start

/-- Fills a slot. If it is full already, that is recorded and the slot stays as it is. -/
def setOnce (slot : Option α) (what : String) (span : Span) (value : α) :
    Collecting (Option α) := do
  match slot with
  | none => return some value
  | some old =>
    report (.repeated what span)
    return some old

/-- What is in a slot, which has to be full. -/
def require (slot : Option α) (what : String) (span : Span) : Except ShapeFault α :=
  match slot with
  | some a => .ok a
  | none => .error (.missing what span)

end Storyworld.Shape
