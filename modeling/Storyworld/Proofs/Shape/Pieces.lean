import Storyworld.Action.Shape
import Storyworld.Event.Shape
import Storyworld.Proofs.Document.Names
import Storyworld.Proofs.Shape.Collects

namespace Storyworld.Shape

/-! Building the pieces that definitions are made of, from nodes that fill their slots. -/

variable {E : Expected} {n : Node} {t : Token} {α : Type}

/-! ## Words out of closed sets -/

theorem meaning_gives {what : String} {expected : List String} {ofWord? : String → Option α}
    (ht : t.Allows E) (hwhat : what ∈ Token.looseSets) :
    Gives E.fault (meaning what expected ofWord? t) fun _ => True := by
  unfold meaning
  split
  · exact .done trivial
  · exact .fail (ht.unknown what hwhat expected)

/-- A word that the grammar took for its choice is in its set. -/
theorem meaning_of_choice {F : ShapeFault → Prop} {what : String} {words expected : List String}
    {ofWord? : String → Option α} (ht : (Part.choice words).admits t)
    (hwords : ∀ w ∈ words, (ofWord? w).isSome) :
    Gives F (meaning what expected ofWord? t) fun _ => True := by
  have hword : t.text ∈ words := by simpa [Part.admits] using ht
  obtain ⟨a, ha⟩ := Option.isSome_iff_exists.mp (hwords _ hword)
  rw [meaning, ha]
  exact .done trivial

theorem containerState_gives (ht : t.Allows E) : Gives E.fault (containerState t) fun _ => True :=
  meaning_gives ht (by simp [Token.looseSets])

theorem containerPatch_gives (ht : t.Allows E) : Gives E.fault (containerPatch t) fun _ => True :=
  meaning_gives ht (by simp [Token.looseSets])

/-! ## Moods, abilities, lists of ids -/

theorem mood_row (hr : n.rule ∈ Rule.moods) (h : n.Legible E) :
    Row E [.one .word] n.children := by
  have hrow := h.row
  have hrule : n.rule = .stateWord ∨ n.rule = .stateCustom := by simpa [Rule.moods] using hr
  rcases hrule with hrule | hrule <;> simpa only [hrule, Rule.slots] using hrow

theorem strictMood_gives (hr : n.rule ∈ Rule.moods) (h : n.Legible E) :
    Gives E.fault (strictMood n) (·.Named E.name) := by
  refine (mood_row hr h).parts ((Reads.token fun _ => rfl).bind fun t ht => ?_)
  split
  · exact .done (ht.2.named ht.1)
  · refine (ReadsOf.lift (meaning_gives ht.2 (by simp [Token.looseSets]))).bind fun _ _ => ?_
    exact .done trivial

theorem lenientMood_gives (hr : n.rule ∈ Rule.moods) (h : n.Legible E) :
    Gives E.fault (lenientMood n) (·.Named E.name) := by
  refine (mood_row hr h).parts ((Reads.token fun _ => rfl).bind fun t ht => ?_)
  split
  · exact .done (ht.2.named ht.1)
  · split
    · exact .done trivial
    · exact .done (ht.2.named ht.1)

theorem ability_gives (hr : n.rule = .ability) (h : n.Legible E) :
    Gives E.fault (ability n) (·.Named E.name) := by
  have hrow := h.row
  rw [hr] at hrow
  refine hrow.parts (Reads.id.bind fun name hname => (Reads.token? fun _ => rfl).bind
    fun target? htarget => .done ⟨hname, ?_⟩)
  rintro i hi
  obtain ⟨t, ht, rfl⟩ := Option.map_eq_some_iff.mp hi
  exact (htarget t ht).2.named (htarget t ht).1

theorem ids_gives {of : Referent} {what : String} (hr : n.rule = .idList) (h : n.Legible E) :
    Gives E.fault (n.ids what : Except ShapeFault (List (Id of))) fun is => ∀ i ∈ is, E.name i.name := by
  have hrow := h.row
  rw [hr] at hrow
  unfold Node.ids
  split
  · exact .fail (h.allows.empty _)
  · refine .done fun i hi => ?_
    obtain ⟨t, ht, rfl⟩ := List.mem_map.mp hi
    exact (hrow.tokens t ht).2.named (hrow.tokens t ht).1

/-! ## Options -/

/-- What reads the parts of a node reads them where the node may be left out, too. -/
theorem option_readsOf {F : ShapeFault → Prop} {P : Element → Prop} {rule : Rule} {r : Reading α}
    {slots : List Slot} (h : ∀ m, m.rule = rule → P (.node m) → Gives F (m.parts r) fun _ => True) :
    ReadsOf F P (.optional (.node [rule]) :: slots) slots
      (do match ← childOf? [rule] with
          | some n => return some (← n.parts r)
          | none => return none) fun _ => True := by
  refine ReadsOf.childOf?.bind fun n? hn => ?_
  cases n? with
  | none => exact .done trivial
  | some n =>
      obtain ⟨hrule, hP⟩ := hn n rfl
      exact (ReadsOf.lift (h n (List.mem_singleton.mp hrule) hP)).bind fun _ _ => .done trivial

theorem option_reads {rule : Rule} {r : Reading α} {slots : List Slot}
    (hr : Reads E rule.slots [] r fun _ => True) :
    Reads E (.optional (.node [rule]) :: slots) slots
      (do match ← childOf? [rule] with
          | some n => return some (← n.parts r)
          | none => return none) fun _ => True :=
  option_readsOf fun _ hrule hm =>
    (hrule ▸ Node.Legible.row (Element.every_node.mp hm)).parts hr

theorem countIn?_reads {rule : Rule} {what : String} {slots : List Slot}
    (hs : rule.slots = [.one .number]) (hwhat : what ∈ Token.measures) :
    Reads E (.optional (.node [rule]) :: slots) slots (countIn? rule what) fun _ => True :=
  option_reads (hs ▸ .count hwhat)

theorem stringIn?_reads {rule : Rule} {what : String} {slots : List Slot}
    (hs : rule.slots = [.one .string]) :
    Reads E (.optional (.node [rule]) :: slots) slots (stringIn? rule what) fun _ => True :=
  option_reads (hs ▸ .string)

theorem width?_reads {slots : List Slot} :
    Reads E (.optional (.node [.width]) :: slots) slots width? fun _ => True :=
  option_reads (.positive (by simp [Token.measures]))

/-! ## Events -/

section

variable {F : ShapeFault → Prop} {P : Element → Prop} {name : String → Prop}
  {of of' of'' : Referent} {what what' what'' : String} {slots : List Slot}
  (hname : ∀ t, P (.token t) → t.isWord → name t.text)

include hname

theorem ReadsOf.id_done {a : Id of → α} {Q : α → Prop} (h : ∀ i, name i.name → Q (a i)) :
    ReadsOf F P (.one .word :: slots) slots (do return a (← Shape.id what)) Q :=
  (ReadsOf.id hname).bind fun i hi => .done (h i hi)

theorem ReadsOf.id_id_done {a : Id of → Id of' → α} {Q : α → Prop}
    (h : ∀ i j, name i.name → name j.name → Q (a i j)) :
    ReadsOf F P (.one .word :: .one .word :: slots) slots
      (do let x ← Shape.id what; let y ← Shape.id what'; return a x y) Q :=
  (ReadsOf.id hname).bind fun i hi => .id_done hname fun j hj => h i j hi hj

/-- An event is built from whatever fills the slots of its rule. -/
theorem event_of_row (hr : n.rule ∈ Rule.events) (hrow : RowOf P n.rule.slots n.children) :
    Gives F (event n) (·.Named name) := by
  unfold event
  split <;> rename_i hrule
  all_goals try rw [hrule] at hrow
  any_goals exact hrow.parts (.id_done hname fun _ hi => hi)
  any_goals exact hrow.parts (.id_id_done hname fun _ _ hi hj => ⟨hi, hj⟩)
  · exact hrow.parts (.done trivial)
  · refine hrow.parts ((ReadsOf.id hname).bind fun i hi => (ReadsOf.token? fun _ => rfl).bind
      fun ability? hability => .done ⟨hi, ?_⟩)
    rintro a ha
    obtain ⟨t, ht, rfl⟩ := Option.map_eq_some_iff.mp ha
    exact hname t (hability t ht).2 (hability t ht).1
  · exact hrow.parts ((ReadsOf.id hname).bind fun _ hi =>
      .id_id_done hname fun _ _ hj hk => ⟨hi, hj, hk⟩)
  · refine hrow.parts ((ReadsOf.token fun _ => rfl).bind fun t ht => ?_)
    exact (ReadsOf.lift (meaning_of_choice ht.1 (by decide))).bind fun _ _ =>
      .id_done hname fun _ hi => hi
  · simp_all [Rule.events]

end

theorem named_of_every {P : Node → Prop} (t : Token)
    (h : (Element.token t).Every P (Token.Allows E)) : t.isWord → E.name t.text :=
  (Element.every_token.mp h).named

variable {of of' : Referent} {what what' : String} {slots : List Slot}

theorem Reads.id_done {a : Id of → α} {Q : α → Prop} (h : ∀ i, E.name i.name → Q (a i)) :
    Reads E (.one .word :: slots) slots (do return a (← Shape.id what)) Q :=
  ReadsOf.id_done named_of_every h

theorem Reads.id_id_done {a : Id of → Id of' → α} {Q : α → Prop}
    (h : ∀ i j, E.name i.name → E.name j.name → Q (a i j)) :
    Reads E (.one .word :: .one .word :: slots) slots
      (do let x ← Shape.id what; let y ← Shape.id what'; return a x y) Q :=
  ReadsOf.id_id_done named_of_every h

theorem event_gives (hr : n.rule ∈ Rule.events) (h : n.Legible E) :
    Gives E.fault (event n) (·.Named E.name) :=
  event_of_row named_of_every hr h.row

end Storyworld.Shape
