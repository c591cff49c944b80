import Storyworld.Id
import Storyworld.Json.Reading
import Storyworld.Span
import Storyworld.Text.Integer

namespace Storyworld

/-! Values that have a form and can be read back from the JSON of it. -/

/-- A type whose values are written by way of their form. -/
class Formed (α : Type) where
  form : α → Form
  read? : Json → Option α

export Formed (form read?)

namespace Formed

/-- A field that has to be there. -/
def field? [Formed α] (column : Option Json) : Option α :=
  Json.required read? column

/-- A field that may be null or not there. -/
def option? [Formed α] (column : Option Json) : Option (Option α) :=
  Json.optional read? column

end Formed

/-! ## Scalars -/

instance : Formed String where
  form := .text
  read? := Json.string?

instance : Formed Bool where
  form := .boolean
  read? := Json.bool?

instance : Formed UInt8 where
  form n := .integer n.toNat
  read? j := (j.below? UInt8.size).map UInt8.ofNat

instance : Formed UInt32 where
  form n := .integer n.toNat
  read? j := (j.below? UInt32.size).map UInt32.ofNat

instance : Formed Int64 where
  form n := .integer n.toInt
  read? j := j.integer?.bind Text.Integer.int64?

instance : Formed (Id of) where
  form i := .text i.name
  read? j := j.string?.map Id.mk

/-! ## Lists and optional values -/

instance [Formed α] : Formed (List α) where
  form := .ofList form
  read? := Json.list? read?

/-- The form of a field that may not be there. -/
instance [Formed α] : Formed (Option α) where
  form := .ofOption form
  read? j := Json.optional read? (some j)

/-! ## Spans -/

instance : Formed Span where
  form s :=
    .record [("start", .integer s.start), ("end", .integer s.stop), ("line", .integer s.line),
      ("column", .integer s.column)]
  read? j := do
    let [start, stop, line, column] ← j.columns? ["start", "end", "line", "column"] | none
    return {
      start := ← Json.required (Json.below? UInt64.size) start
      stop := ← Json.required (Json.below? UInt64.size) stop
      line := ← Json.required (Json.below? UInt32.size) line
      column := ← Json.required (Json.below? UInt32.size) column }

end Storyworld
