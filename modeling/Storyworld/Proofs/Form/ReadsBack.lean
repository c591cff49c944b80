import Storyworld.Form.Formed

namespace Storyworld

/-! Values that are read back from the JSON of their form. Every form is a record, a variant or one of
the scalars, and for each of these it is enough to look at the values inside. -/

namespace Json

variable {α : Type} {keys : List String} {fields : List (String × Form)}

/-! ## Looking up fields -/

theorem lookup?_ofFields (h : (fields.map Prod.fst).Nodup) :
    (fields.map Prod.fst).map (lookup? · (ofFields fields)) =
      fields.map fun field => some (ofForm field.2) := by
  induction fields with
  | nil => rfl
  | cons field fields ih =>
      obtain ⟨key, f⟩ := field
      obtain ⟨hkey, hfields⟩ := List.nodup_cons.mp h
      have hmore : (fields.map Prod.fst).map (lookup? · (ofFields ((key, f) :: fields))) =
          (fields.map Prod.fst).map (lookup? · (ofFields fields)) := by
        refine List.map_congr_left fun k hk => ?_
        have hne : key ≠ k := fun heq => hkey (heq ▸ hk)
        rw [ofFields, lookup?, if_neg hne]
      rw [List.map_cons, List.map_cons, hmore, ih hfields, List.map_cons, ofFields, lookup?,
        if_pos rfl]

/-- The fields of a record are found under their own names. -/
theorem columns?_ofForm (hkeys : fields.map Prod.fst = keys) (h : keys.Nodup) :
    columns? keys (ofForm (.record fields)) =
      some (fields.map fun field => some (ofForm field.2)) := by
  subst hkeys
  rw [ofForm, columns?, lookup?_ofFields h]

theorem bind_columns? {make : List (Option Json) → Option α} (hkeys : fields.map Prod.fst = keys)
    (h : keys.Nodup) :
    (columns? keys (ofForm (.record fields)) >>= make) =
      make (fields.map fun field => some (ofForm field.2)) := by
  rw [columns?_ofForm hkeys h]
  rfl

theorem fields?_ofForm (hkeys : fields.map Prod.fst = keys) (h : keys.Nodup) :
    fields? keys (some (ofForm (.record fields))) =
      some (fields.map fun field => some (ofForm field.2)) := by
  rw [← columns?_ofForm hkeys h, ofForm, fields?]

theorem ofForms_eq (fs : List Form) : ofForms fs = fs.map ofForm := by
  induction fs with
  | nil => rfl
  | cons f fs ih => rw [ofForms, ih, List.map_cons]

theorem ofForm_list (form : α → Form) (as : List α) :
    ofForm (.list (as.map form)) = .array (as.map fun a => ofForm (form a)) := by
  rw [ofForm, ofForms_eq, List.map_map]
  rfl

end Json

namespace Formed

open Json (ofForm)

/-- A value that is read back from the JSON of its form. That JSON is never null, which stands for a
value that is not there. -/
structure ReadsBack {α : Type} [Formed α] (a : α) : Prop where
  read : read? (ofForm (form a)) = some a
  ne_null : ofForm (form a) ≠ .null

/-- A type all of whose values are read back. -/
class Lossless (α : Type) [Formed α] : Prop where
  readsBack (a : α) : ReadsBack a

export Lossless (readsBack)

variable {α β : Type} [Formed α] [Formed β] {a : α} {b : β}

/-! ## Fields -/

@[simp] theorem ReadsBack.field (h : ReadsBack a) : field? (some (ofForm (form a))) = some a :=
  h.read

@[simp] theorem ReadsBack.option {a? : Option α} (h : ∀ a ∈ a?, ReadsBack a) :
    option? (some (ofForm (form a?))) = some a? := by
  cases a? with
  | none => rfl
  | some a =>
      have ha := h a rfl
      have hform : ofForm (form (some a)) = ofForm (form a) := by
        change ofForm (.present (form a)) = _
        rw [ofForm]
      rw [hform, option?, Json.optional, ha.read]
      · rfl
      · intro hnull
        exact ha.ne_null (by simpa using hnull)

@[simp] theorem field?_form [Lossless α] : field? (some (ofForm (form a))) = some a :=
  (readsBack a).read

@[simp] theorem option?_form [Lossless α] {a? : Option α} :
    option? (some (ofForm (form a?))) = some a? :=
  ReadsBack.option fun a _ => readsBack a

namespace ReadsBack

/-! ## Records and variants -/

variable {name : String} {keys : List String} {fields : List (String × Form)}
  {make : List (Option Json) → Option β}

/-- A record, made of the values of its fields. -/
theorem record (hform : form b = .record fields)
    (hread : ∀ j : Json, read? j = (j.columns? keys >>= make))
    (hkeys : fields.map Prod.fst = keys) (hnodup : keys.Nodup)
    (h : make (fields.map fun field => some (ofForm field.2)) = some b) : ReadsBack b := by
  constructor
  · rw [hform, hread, Json.bind_columns? hkeys hnodup, h]
  · rw [hform, ofForm]
    nofun

/-- A variant without contents. -/
theorem unit (hform : form b = .unit name) (hread : read? (.string name) = some b) :
    ReadsBack b := by
  constructor
  · rw [hform, ofForm, hread]
  · rw [hform, ofForm]
    nofun

/-- A variant around one value. -/
theorem wrapped {wrap : α → β} (ha : ReadsBack a) (hform : form b = .wrapped name (form a))
    (hread : ∀ j, read? (.object [(name, j)]) = (read? j >>= fun a => pure (wrap a)))
    (h : wrap a = b) : ReadsBack b := by
  constructor
  · rw [hform, ofForm, hread, ha.read, ← h]
    rfl
  · rw [hform, ofForm]
    nofun

/-- A variant with named fields, made of their values. -/
theorem fielded (hform : form b = .fielded name fields)
    (hread : ∀ j, read? (.object [(name, j)]) = (Json.fields? keys (some j) >>= make))
    (hkeys : fields.map Prod.fst = keys) (hnodup : keys.Nodup)
    (h : make (fields.map fun field => some (ofForm field.2)) = some b) : ReadsBack b := by
  have hfields := Json.fields?_ofForm hkeys hnodup
  rw [ofForm] at hfields
  constructor
  · rw [hform, ofForm, hread, hfields]
    exact h
  · rw [hform, ofForm]
    nofun

/-! ## Lists -/

theorem list {as : List α} (h : ∀ a ∈ as, ReadsBack a) : ReadsBack as := by
  have hform : ofForm (form as) = .array (as.map fun a => ofForm (form a)) :=
    Json.ofForm_list form as
  constructor
  · rw [hform]
    change (as.map fun a => ofForm (form a)).mapM read? = some as
    induction as with
    | nil => rfl
    | cons a as ih =>
        have hmore := ih (fun a' ha' => h a' (List.mem_cons_of_mem a ha')) (Json.ofForm_list form as)
        rw [List.map_cons, List.mapM_cons, (h a List.mem_cons_self).read, hmore]
        rfl
  · rw [hform]
    nofun

end ReadsBack

instance [Lossless α] : Lossless (List α) where
  readsBack _ := .list fun a _ => readsBack a

/-! ## Scalars -/

instance : Lossless String where
  readsBack _ := ⟨rfl, nofun⟩

instance : Lossless Bool where
  readsBack _ := ⟨rfl, nofun⟩

instance {of : Referent} : Lossless (Id of) where
  readsBack _ := ⟨rfl, nofun⟩

/-- A natural number below a bound. -/
theorem below?_ofForm {n bound : Nat} (h : n < bound) :
    (ofForm (.integer n)).below? bound = some n := by
  rw [ofForm, Json.below?, Json.integer?]
  simp [h]

theorem required_below? {n bound : Nat} (h : n < bound) :
    Json.required (Json.below? bound) (some (ofForm (.integer n))) = some n := by
  rw [Json.required, Option.bind_some, below?_ofForm h]

instance : Lossless UInt8 where
  readsBack n := by
    refine ⟨?_, nofun⟩
    change ((ofForm (.integer n.toNat)).below? UInt8.size).map UInt8.ofNat = some n
    rw [below?_ofForm n.toNat_lt, Option.map_some, UInt8.ofNat_toNat]

instance : Lossless UInt32 where
  readsBack n := by
    refine ⟨?_, nofun⟩
    change ((ofForm (.integer n.toNat)).below? UInt32.size).map UInt32.ofNat = some n
    rw [below?_ofForm n.toNat_lt, Option.map_some, UInt32.ofNat_toNat]

instance : Lossless Int64 where
  readsBack n := by
    refine ⟨?_, nofun⟩
    change Text.Integer.int64? n.toInt = some n
    have hle := n.minValue_le_toInt
    have hge := n.toInt_le
    rw [Text.Integer.int64?, if_pos ⟨hle, hge⟩, Int64.ofInt_toInt]

end Formed

/-! ## Spans -/

/-- A region whose ends fit 64-bit words, and its line and column 32-bit words. -/
structure Span.Fits (s : Span) : Prop where
  start : s.start < UInt64.size
  stop : s.stop < UInt64.size
  line : s.line < UInt32.size
  column : s.column < UInt32.size

open Formed in
theorem Span.Fits.readsBack {s : Span} (h : s.Fits) : ReadsBack s := by
  refine .record rfl (fun _ => rfl) rfl (by decide) ?_
  simp [required_below? h.start, required_below? h.stop, required_below? h.line,
    required_below? h.column]

end Storyworld
