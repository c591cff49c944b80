namespace Storyworld

/-! The form of a value apart from any notation: scalars, lists, records and variants. Documents are
written in several notations, all of them by way of their form. -/

inductive Form where
  | text (s : String)
  | integer (i : Int)
  | boolean (b : Bool)
  /-- An optional value that is not there. -/
  | absent
  /-- An optional value that is there. -/
  | present (f : Form)
  | list (fs : List Form)
  | record (fields : List (String × Form))
  /-- A variant without contents. -/
  | unit (name : String)
  /-- A variant around one value. -/
  | wrapped (name : String) (f : Form)
  /-- A variant with named fields. -/
  | fielded (name : String) (fields : List (String × Form))

namespace Form

/-- The form of an optional value. -/
def ofOption (form : α → Form) : Option α → Form
  | none => absent
  | some a => present (form a)

/-- The form of a list. -/
def ofList (form : α → Form) (as : List α) : Form :=
  list (as.map form)

end Form

end Storyworld
