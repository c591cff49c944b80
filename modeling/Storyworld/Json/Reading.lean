import Storyworld.Json

namespace Storyworld.Json

/-! Reading values back from JSON. Fields a record does not know are ignored, and a record may also
be given as the array of its fields. -/

def string? : Json → Option String
  | string s => some s
  | _ => none

def bool? : Json → Option Bool
  | bool b => some b
  | _ => none

def integer? : Json → Option Int
  | integer i => some i
  | _ => none

/-- A natural number below a bound. -/
def below? (bound : Nat) (j : Json) : Option Nat :=
  match j.integer? with
  | some i => if 0 ≤ i ∧ i < bound then some i.toNat else none
  | none => none

/-- The items of an array, each read by `item?`. -/
def list? (item? : Json → Option α) : Json → Option (List α)
  | array items => items.mapM item?
  | _ => none

/-! ## Records -/

/-- The value of a key. -/
def lookup? (key : String) : List (String × Json) → Option Json
  | [] => none
  | (k, j) :: fields => if k = key then some j else lookup? key fields

/-- The fields of a record in the order of `keys`, each as far as it is there. -/
def columns? (keys : List String) : Json → Option (List (Option Json))
  | object fields => some (keys.map (lookup? · fields))
  | array items => if items.length = keys.length then some (items.map some) else none
  | _ => none

/-- A field that has to be there. -/
def required (item? : Json → Option α) (column : Option Json) : Option α :=
  column.bind item?

/-- A field that may be null or not there. -/
def optional (item? : Json → Option α) : Option Json → Option (Option α)
  | none => some none
  | some null => some none
  | some j => (item? j).map some

theorem lookup?_lt {key : String} {fields : List (String × Json)} {j : Json}
    (h : lookup? key fields = some j) : sizeOf j < sizeOf fields := by
  induction fields with
  | nil => simp [lookup?] at h
  | cons field fields ih =>
    obtain ⟨k, i⟩ := field
    simp only [lookup?] at h
    split at h
    · simp_all
      omega
    · have := ih h
      simp
      omega

theorem columns?_lt {keys : List String} {j v : Json} {columns : List (Option Json)}
    (h : columns? keys j = some columns) (hv : some v ∈ columns) : sizeOf v < sizeOf j := by
  cases j with
  | object fields =>
    simp only [columns?, Option.some.injEq] at h
    subst h
    obtain ⟨key, _, hkey⟩ := List.mem_map.1 hv
    have := lookup?_lt hkey
    simp
    omega
  | array items =>
    simp only [columns?] at h
    split at h
    · simp only [Option.some.injEq] at h
      subst h
      simp only [List.mem_map, Option.some.injEq, exists_eq_right] at hv
      have := List.sizeOf_lt_of_mem hv
      simp
      omega
    · simp at h
  | _ => simp [columns?] at h

/-! ## Variants -/

/-- A variant: its name, and its contents if there are any. -/
def variant? : Json → Option (String × Option Json)
  | string name => some (name, none)
  | object [(name, j)] => some (name, some j)
  | _ => none

/-- A variant without contents; null is as good as none. -/
def bare (a : α) : Option Json → Option α
  | none => some a
  | some null => some a
  | some _ => none

/-- The fields of a variant with named fields. -/
def fields? (keys : List String) : Option Json → Option (List (Option Json))
  | some (object fields) => columns? keys (object fields)
  | _ => none

end Storyworld.Json
