import Storyworld.Goal.Grammar
import Storyworld.Proofs.Spelling.Phrase

namespace Storyworld

/-! How goals are spelled. -/

namespace Goal.Condition

def pieces : Goal.Condition → List Piece
  | hasFlag flag => [.keyword "has", .keyword "flag", .word flag.name]
  | missingFlag flag => [.keyword "missing", .keyword "flag", .word flag.name]
  | hasItem item => [.keyword "has", .keyword "item", .word item.name]
  | reachedRoom room => [.keyword "reached", .keyword "room", .word room.name]
  | goalComplete goal => [.keyword "goal", .keyword "complete", .word goal.name]
  | flagInProgress flag => [.keyword "flag", .keyword "in", .keyword "progress", .word flag.name]
  | flagComplete flag => [.keyword "flag", .keyword "complete", .word flag.name]

/-- A condition that a source can spell. -/
def Writable : Goal.Condition → Prop
  | hasFlag flag | missingFlag flag | flagInProgress flag | flagComplete flag => flag.Writable
  | hasItem item => item.Writable
  | reachedRoom room => room.Writable
  | goalComplete goal => goal.Writable

end Goal.Condition

namespace Goal

/-- The statements of a goal. -/
def body (g : Goal) : List Piece :=
  [.keyword "name", .string g.name] ++ [.keyword "desc", .string g.desc] ++
    [.keyword "group", .keyword g.group.word] ++
    (.keyword "start" :: .keyword "when" :: g.start.pieces) ++
    (.keyword "done" :: .keyword "when" :: g.done.pieces) ++
    g.fail.toList.flatMap fun x => .keyword "fail" :: .keyword "when" :: x.pieces

def pieces (g : Goal) : List Piece :=
  .keyword "goal" :: .word g.id.name :: Piece.braces g.body

/-- A goal that a source can spell. -/
structure Writable (g : Goal) : Prop where
  id : g.id.Writable
  start : g.start.Writable
  done : g.done.Writable
  fail : ∀ x ∈ g.fail, x.Writable

end Goal

namespace Grammar

open Takes Shape

variable {c : Context} {K : List Token → Prop}

theorem goalCondition_tells {x : Goal.Condition} (hx : x.Writable) :
    Takes c goalCondition x.pieces K x.ToldBy := by
  have hword {of : Referent} {i : Id of} {r : Rule} {span place : Span} :
      NamedBy i (.mk r span [.token ⟨.ofWord i.name.toList, place, i.name⟩]) := ⟨_, _, rfl, rfl⟩
  refine .nodeBy ?_
  cases x with
  | hasFlag flag | hasItem item =>
      exact .oneOf rfl fun _ => .oneOf rfl fun _ => .word hx fun _ => .done fun _ => ⟨rfl, hword⟩
  | missingFlag flag | reachedRoom room | goalComplete goal =>
      exact .oneOf rfl fun _ => .keyword <| .word hx fun _ => .done fun _ => ⟨rfl, hword⟩
  | flagInProgress flag =>
      refine .oneOf rfl fun _ => .eatKeyword <| .keyword ?_
      exact .word hx fun _ => .done fun _ => ⟨rfl, hword⟩
  | flagComplete flag =>
      refine .oneOf rfl fun _ => .otherKeyword (by decide) <| .oneOf rfl fun _ => ?_
      exact .word hx fun _ => .done fun _ => ⟨rfl, hword⟩

theorem goalPhase_tells {w : String} {x : Goal.Condition}
    (hw : w = "start" ∨ w = "done" ∨ w = "fail") (hx : x.Writable) :
    Takes c goalPhase (.keyword w :: .keyword "when" :: x.pieces) K fun n =>
      n.rule ∈ [if w = "start" then .goalStart else if w = "done" then .goalDone else .goalFail] ∧
        HeldBy x.ToldBy n := by
  refine .nodeBy <| .oneOf (by simpa using hw) fun _ => .keyword ?_
  exact (goalCondition_tells hx).map fun n hn span => ⟨List.mem_singleton_self _, heldBy_of_node hn⟩

theorem goalBody_clauses {g : Goal} (hg : g.Writable) :
    Clauses c goalStarters (starting goalStarters Grammar.goalStatement) g.body
      (TellsEach ⟨some g.name, some g.desc, some g.group, some g.start, some g.done, g.fail⟩
        Goal.fields) := by
  simp only [Goal.body, List.append_assoc]
  refine .next (.filled rfl rfl ?name) <| .next (.filled rfl rfl ?desc) <|
    .next (.filled rfl rfl ?group) <| .next (.filled rfl rfl ?start) <|
    .next (.filled rfl rfl ?done) <| .last (.slot rfl (fun _ _ => rfl) ?fail)
  case name => exact atKeyword_cons.mpr keywordThenString_tells
  case desc => exact atKeyword_cons.mpr <| atOneOf_cons.mpr description_tells
  case group =>
    refine atKeyword_cons.mpr <| atOneOf_cons.mpr <| atKeyword_cons.mpr <| .node <| .keyword ?_
    exact .reserved fun _ => .done fun _ => ⟨List.mem_singleton_self _, _, _, rfl, rfl⟩
  case start =>
    refine atKeyword_cons.mpr <| atOneOf_cons.mpr <| atKeyword_cons.mpr ?_
    exact goalPhase_tells (.inl rfl) hg.start
  case done =>
    refine atKeyword_cons.mpr <| atOneOf_cons.mpr <| atKeyword_cons.mpr ?_
    exact goalPhase_tells (.inr (.inl rfl)) hg.done
  case fail =>
    refine fun x hx => atKeyword_cons.mpr <| atOneOf_cons.mpr <| atKeyword_cons.mpr ?_
    exact goalPhase_tells (.inr (.inr rfl)) (hg.fail x hx)

theorem goal_takes {g : Goal} {limit : Nat} (hg : g.Writable) :
    Takes c Grammar.goal g.pieces K (Says limit (.goal g)) := by
  refine .node <| .keyword <| .word hg.id fun _ => (blockOf_takes (goalBody_clauses hg)).map ?_
  intro ns hns span
  refine says_of_makes (x := { g with span }) rfl
    (Goal.makes_iff.mpr ⟨⟨_, _, rfl, rfl⟩, rfl, ?_⟩) rfl
  rw [nodes_named]
  exact hns.gathers Goal.goesBy.lawful.rules

end Grammar

end Storyworld
