import Storyworld.Action
import Storyworld.Document

namespace Storyworld

/-! The places a document tells: those of its definitions, and of the exits, overlays, dialogues,
wedges and statements inside them. -/

namespace Room

def spans (r : Room) : List Span :=
  r.span :: (r.exits.map (·.span) ++ r.overlays.map (·.span))

end Room

namespace Npc

def spans (n : Npc) : List Span :=
  n.span :: n.dialogue.map (·.span)

end Npc

namespace Spinner

def spans (s : Spinner) : List Span :=
  s.span :: s.wedges.map (·.span)

end Spinner

mutual

def Action.spans : Action → List Span
  | .effect _ => []
  | .schedule _ _ _ _ body => Statement.spansIn body

def Deed.spans : Deed → List Span
  | .mk action span => span :: action.spans

def Deed.spansIn : List Deed → List Span
  | [] => []
  | d :: ds => d.spans ++ Deed.spansIn ds

def Statement.spans : Statement → List Span
  | .perform deed => deed.spans
  | .branch _ deeds span => span :: Deed.spansIn deeds

def Statement.spansIn : List Statement → List Span
  | [] => []
  | s :: ss => s.spans ++ Statement.spansIn ss

end

namespace Trigger

def spans (t : Trigger) : List Span :=
  t.span :: Statement.spansIn t.block

end Trigger

namespace Definition

/-- Every place a definition tells. -/
def spans : Definition → List Span
  | roomSet d => [d.span]
  | room d => d.spans
  | item d => [d.span]
  | npc d => d.spans
  | trigger d => d.spans
  | spinner d => d.spans
  | goal d => [d.span]

end Definition

namespace Document

/-- Every place a document tells. -/
def spans (d : Document) : List Span :=
  d.comments ++ d.definitions.flatMap (·.spans)

end Document

variable {S : Span → Prop}

theorem Deed.forall_mem_spansIn {ds : List Deed} :
    (∀ s ∈ Deed.spansIn ds, S s) ↔ ∀ d ∈ ds, ∀ s ∈ d.spans, S s := by
  induction ds with
  | nil => simp [Deed.spansIn]
  | cons d ds ih => simp [Deed.spansIn, or_imp, forall_and, ih]

theorem Statement.forall_mem_spansIn {ss : List Statement} :
    (∀ s ∈ Statement.spansIn ss, S s) ↔ ∀ m ∈ ss, ∀ s ∈ m.spans, S s := by
  induction ss with
  | nil => simp [Statement.spansIn]
  | cons m ss ih => simp [Statement.spansIn, or_imp, forall_and, ih]

/-! ## Leaving the places out -/

def Exit.withoutSpan (e : Exit) : Exit :=
  { e with span := .origin }

def Overlay.withoutSpan (o : Overlay) : Overlay :=
  { o with span := .origin }

def Dialogue.withoutSpan (d : Dialogue) : Dialogue :=
  { d with span := .origin }

def Wedge.withoutSpan (w : Wedge) : Wedge :=
  { w with span := .origin }

def RoomSet.withoutSpan (s : RoomSet) : RoomSet :=
  { s with span := .origin }

def Item.withoutSpan (i : Item) : Item :=
  { i with span := .origin }

def Goal.withoutSpan (g : Goal) : Goal :=
  { g with span := .origin }

namespace Room

def withoutSpans (r : Room) : Room :=
  { r with
    exits := r.exits.map (·.withoutSpan)
    overlays := r.overlays.map (·.withoutSpan)
    span := .origin }

end Room

namespace Npc

def withoutSpans (n : Npc) : Npc :=
  { n with dialogue := n.dialogue.map (·.withoutSpan), span := .origin }

end Npc

namespace Spinner

def withoutSpans (s : Spinner) : Spinner :=
  { s with wedges := s.wedges.map (·.withoutSpan), span := .origin }

end Spinner

mutual

def Action.withoutSpans : Action → Action
  | .effect effect => .effect effect
  | .schedule anchor turns guard note body =>
    .schedule anchor turns guard note (Statement.allWithoutSpans body)

def Deed.withoutSpans : Deed → Deed
  | .mk action _ => .mk action.withoutSpans .origin

def Deed.allWithoutSpans : List Deed → List Deed
  | [] => []
  | d :: ds => d.withoutSpans :: Deed.allWithoutSpans ds

def Statement.withoutSpans : Statement → Statement
  | .perform deed => .perform deed.withoutSpans
  | .branch condition deeds _ => .branch condition (Deed.allWithoutSpans deeds) .origin

def Statement.allWithoutSpans : List Statement → List Statement
  | [] => []
  | s :: ss => s.withoutSpans :: Statement.allWithoutSpans ss

end

theorem Deed.allWithoutSpans_eq (ds : List Deed) :
    Deed.allWithoutSpans ds = ds.map Deed.withoutSpans := by
  induction ds with
  | nil => rfl
  | cons d ds ih => rw [Deed.allWithoutSpans, ih, List.map_cons]

theorem Statement.allWithoutSpans_eq (ss : List Statement) :
    Statement.allWithoutSpans ss = ss.map Statement.withoutSpans := by
  induction ss with
  | nil => rfl
  | cons s ss ih => rw [Statement.allWithoutSpans, ih, List.map_cons]

namespace Trigger

def withoutSpans (t : Trigger) : Trigger :=
  { t with block := Statement.allWithoutSpans t.block, span := .origin }

end Trigger

namespace Definition

/-- What a definition says, wherever it stands. -/
def withoutSpans : Definition → Definition
  | roomSet d => roomSet d.withoutSpan
  | room d => room d.withoutSpans
  | item d => item d.withoutSpan
  | npc d => npc d.withoutSpans
  | trigger d => trigger d.withoutSpans
  | spinner d => spinner d.withoutSpans
  | goal d => goal d.withoutSpan

end Definition

end Storyworld

namespace Storyworld

/-! ## Statements

Statements by the conditions and the actions they are made of. -/

def Deed.action : Deed → Action
  | .mk action _ => action

/-- A statement made of conditions and actions of some kinds; a branch has deeds. -/
def Statement.MadeOf (condition : Condition → Prop) (action : Action → Prop) : Statement → Prop
  | .perform deed => action deed.action
  | .branch x deeds _ => condition x ∧ deeds ≠ [] ∧ ∀ d ∈ deeds, action d.action

end Storyworld
