import Storyworld.Proofs.Document.Spans
import Storyworld.Proofs.Spelling.Condition
import Storyworld.Proofs.Spelling.Effect

namespace Storyworld

/-! How statements, and schedules with statements inside them, are spelled. -/

namespace Anchor

/-- How a source spells the anchor. -/
def word : Anchor → String
  | fromNow => "in"
  | absolute => "on"

end Anchor

namespace RetryPolicy

def pieces : RetryPolicy → List Piece
  | cancel => [.keyword "onFalse", .keyword "cancel"]
  | retryNextTurn => [.keyword "onFalse", .keyword "retryNextTurn"]
  | retryAfter turns => [.keyword "onFalse", .keyword "retryAfter", .count turns]

end RetryPolicy

namespace Guard

def pieces (g : Guard) : List Piece :=
  .keyword "if" :: (g.condition.pieces ++ g.retry.toList.flatMap RetryPolicy.pieces)

end Guard

mutual

def Action.pieces : Action → List Piece
  | .effect e => e.pieces
  | .schedule anchor turns guard note body =>
    .keyword "schedule" :: .keyword anchor.word :: .count turns ::
      (guard.toList.flatMap Guard.pieces ++
        ((note.toList.flatMap fun s => [.keyword "note", .string s]) ++
          Piece.braces (Statement.piecesOf body)))

def Deed.pieces : Deed → List Piece
  | .mk action _ => .keyword "do" :: action.pieces

def Deed.piecesOf : List Deed → List Piece
  | [] => []
  | d :: ds => d.pieces ++ Deed.piecesOf ds

def Statement.pieces : Statement → List Piece
  | .perform deed => deed.pieces
  | .branch condition deeds _ =>
    .keyword "if" :: (condition.pieces ++ Piece.braces (Deed.piecesOf deeds))

def Statement.piecesOf : List Statement → List Piece
  | [] => []
  | s :: ss => s.pieces ++ Statement.piecesOf ss

end

theorem Deed.piecesOf_eq (ds : List Deed) : Deed.piecesOf ds = ds.flatMap Deed.pieces := by
  induction ds with
  | nil => rfl
  | cons d ds ih => rw [Deed.piecesOf, ih, List.flatMap_cons]

theorem Statement.piecesOf_eq (ss : List Statement) :
    Statement.piecesOf ss = ss.flatMap Statement.pieces := by
  induction ss with
  | nil => rfl
  | cons s ss ih => rw [Statement.piecesOf, ih, List.flatMap_cons]

/-! ## What can be spelled -/

/-- An action that a source can spell; at most `levels` schedules and condition groups lie inside
one another. -/
def Action.Writable : (levels : Nat) → Action → Prop
  | _, .effect e => e.Writable
  | 0, .schedule .. => False
  | levels + 1, .schedule _ _ guard _ body =>
    (∀ g ∈ guard, g.condition.Writable (levels + 1) .standalone) ∧ body ≠ [] ∧
      ∀ s ∈ body, s.MadeOf (·.Writable levels .standalone) fun a => Action.Writable levels a

/-- Statements that a source can spell. -/
def Statement.Writable (levels : Nat) (s : Statement) : Prop :=
  s.MadeOf (·.Writable levels .standalone) (·.Writable levels)

namespace Grammar

open Takes Shape

variable {c : Context} {K : List Token → Prop} {limit levels : Nat}

/-! ## Schedules -/

/-- What is read as a policy. -/
structure IsRetry (p : RetryPolicy) (n : Node) : Prop where
  rule : n.rule ∈ [.onFalseCancel, .onFalseRetryNextTurn, .onFalseRetryAfter]
  built : Shape.retryPolicy n = .ok p

theorem onFalse_takes {p : RetryPolicy} : Takes c onFalse p.pieces K (IsRetry p) := by
  refine .nodeBy ?_
  cases p with
  | cancel => exact .keyword <| .oneOf rfl fun _ => .done fun _ => ⟨by simp [Node.rule], rfl⟩
  | retryNextTurn => exact .keyword <| .oneOf rfl fun _ => .done fun _ => ⟨by simp [Node.rule], rfl⟩
  | retryAfter turns =>
      refine .keyword <| .oneOf rfl fun _ => .number fun _ => .done fun _ => ⟨by simp [Node.rule], ?_⟩
      exact Gets.all_parts <| .bind count_gets fun _ => rfl

/-- What can follow a guard. -/
structure AfterGuard (rest : List Token) : Prop where
  noGuard : Without (·.isKeyword "if") rest
  noPolicy : Without (·.isKeyword "onFalse") rest
  ends : Ends .standalone rest

/-- What is read as the guard of a schedule, by `build`, and the rule of that schedule. -/
def IsGuard (build : Node → Except ShapeFault Condition) :
    Option Guard → Rule × List Element → Prop
  | none, p => p = (.actSchedule, [])
  | some g, p => ∃ n ns, p = (.actScheduleIf, .node n :: ns.map .node) ∧
      build n = .ok g.condition ∧ List.Forall₂ IsRetry g.retry.toList ns

theorem ends_of_keyword {w : String} {ps : List Piece} {us rest : List Token}
    (h : Spelled (.keyword w :: ps) us) (hw : w ≠ "in") : Ends .standalone (us ++ rest) := by
  refine ⟨?_, fun hcomma => ?_⟩
  · rw [Without, h.keyword_isKeyword rfl]
    simpa using hw
  · rw [h.keyword_isMark rfl] at hcomma
    cases hcomma

theorem scheduleGuard_takes {guard? : Option Guard} {guard : Parse Node}
    {build : Node → Except ShapeFault Condition}
    (hguard : ∀ g ∈ guard?, Takes c guard g.condition.pieces (Ends .standalone) fun n =>
      build n = .ok g.condition) :
    Takes c (scheduleGuard guard) (guard?.toList.flatMap Guard.pieces) AfterGuard
      (IsGuard build guard?) := by
  cases guard? with
  | none => exact .notEatKeyword (.nil fun _ hrest => hrest.noGuard) <| .done rfl
  | some g =>
      rw [Option.toList_some, List.flatMap_singleton]
      refine .eatKeyword <| .bind (hguard g rfl) (fun n hn => .last ?_) fun us rest hus hrest => ?_
      · refine (optional_takes (fun p _ => by cases p <;> rfl) (fun _ _ => onFalse_takes)
          fun _ hrest => hrest.noPolicy).mono ?_
        rintro _ ⟨ns, rfl, hns⟩
        exact ⟨n, ns, rfl, hn, hns⟩
      · cases hretry : g.retry with
        | none =>
            rw [hretry] at hus
            cases hus
            exact hrest.ends
        | some p =>
            rw [hretry, Option.toList_some, List.flatMap_singleton] at hus
            cases p <;> exact ends_of_keyword hus (by decide)

theorem ends_of_brace {ps : List Piece} {us rest : List Token}
    (h : Spelled (.mark .openBrace :: ps) us) : Ends .standalone (us ++ rest) := by
  refine ⟨?_, fun hcomma => ?_⟩
  · rw [Without, h.mark_isKeyword rfl]
  · rw [h.mark_isMark rfl] at hcomma
    cases hcomma

theorem afterGuard_of_keyword {w : String} {ps : List Piece} {us rest : List Token}
    (h : Spelled (.keyword w :: ps) us) (hif : w ≠ "if") (hfalse : w ≠ "onFalse") (hin : w ≠ "in") :
    AfterGuard (us ++ rest) := by
  refine ⟨?_, ?_, ends_of_keyword h hin⟩
  · rw [Without, h.keyword_isKeyword rfl]
    simpa using hif
  · rw [Without, h.keyword_isKeyword rfl]
    simpa using hfalse

theorem afterGuard_of_brace {ps : List Piece} {us rest : List Token}
    (h : Spelled (.mark .openBrace :: ps) us) : AfterGuard (us ++ rest) := by
  refine ⟨?_, ?_, ends_of_brace h⟩
  · rw [Without, h.mark_isKeyword rfl]
  · rw [Without, h.mark_isKeyword rfl]

/-- What is read as the statements `body`, by `build`. -/
structure IsBlock (build : Node → Collecting (List Statement)) (body : List Statement) (n : Node) :
    Prop where
  rule : n.rule = .triggerBlock
  built : Builds (build n) fun b => Statement.allWithoutSpans b = Statement.allWithoutSpans body

theorem anchor_gets {a : Anchor} {span : Span} {cs : List Element} :
    Gets anchor (.token ⟨.keyword a.word, span, a.word⟩ :: cs) a cs := by
  cases a <;> exact fun _ => rfl

/-- The policy of a guard, if there is one, and what is read behind it. -/
theorem retry_gets {β : Type} {retry : Option RetryPolicy} {ns : List Node} {cs rest : List Element}
    {k : Option RetryPolicy → Reading β} {b : β} (h : List.Forall₂ IsRetry retry.toList ns)
    (hcs : Gets (childOf? [.onFalseCancel, .onFalseRetryNextTurn, .onFalseRetryAfter]) cs none cs)
    (hk : Gets (k retry) cs b rest) :
    Gets (do
      let retry ←
        match ← childOf? [.onFalseCancel, .onFalseRetryNextTurn, .onFalseRetryAfter] with
        | some n => pure (some (← retryPolicy n))
        | none => pure none
      k retry) (ns.map .node ++ cs) b rest := by
  cases retry with
  | none =>
      cases h
      exact .bind hcs <| .bind (fun _ => rfl) hk
  | some p =>
      obtain ⟨n, ms, hn, hms, rfl⟩ := List.forall₂_cons_left_iff.mp h
      cases hms
      exact .bind (childOf_gets hn.rule) <| .lift hn.built <| .bind (fun _ => rfl) hk

theorem schedule_takes {anchor : Anchor} {turns : UInt32} {guard? : Option Guard}
    {note : Option String} {body : List Statement} {guard block : Parse Node}
    {buildGuard : Node → Except ShapeFault Condition} {buildBlock : Node → Collecting (List Statement)}
    (hguard : ∀ g ∈ guard?, Takes c guard g.condition.pieces (Ends .standalone) fun n =>
      buildGuard n = .ok g.condition)
    (hblock : Takes c block (Piece.braces (Statement.piecesOf body)) K (IsBlock buildBlock body)) :
    Takes c (Grammar.actionOver guard block) (Action.schedule anchor turns guard? note body).pieces K
      fun n => Builds (Shape.actionOver buildGuard buildBlock n)
        (·.withoutSpans = (Action.schedule anchor turns guard? note body).withoutSpans) := by
  rw [Action.pieces]
  refine .nodeBy <| .oneOf rfl fun _ => .oneOf (by cases anchor <;> rfl) fun _ => .number fun _ => ?_
  refine .bind (scheduleGuard_takes hguard) (fun p hp => .bind (optional_takes
    (P := IsClause .note (Shape.string "note")) (K := Without (·.isKeyword "note")) (fun _ _ => rfl)
    (fun _ _ => keywordThenString_takes fun _ _ _ => ⟨rfl, rfl⟩) fun _ h => h) ?_ ?_) ?_
  · rintro _ ⟨notes, rfl, hnotes⟩
    refine .last <| hblock.mono ?_
    rintro ⟨_, place, cs⟩ ⟨rfl, hbuilt⟩ span
    cases guard? with
    | none =>
        cases hp
        refine .lift (a := (anchor, turns, note, .mk .triggerBlock place cs)) (Gets.all_parts ?_)
          (hbuilt.bind fun b hb => .done ?_)
        · refine .bind anchor_gets <| .bind count_gets <| .bind (optional_gets hnotes fun _ => rfl) ?_
          exact fun _ => rfl
        · rw [Action.withoutSpans, Action.withoutSpans, hb]
    | some g =>
        obtain ⟨m, ns, rfl, hm, hns⟩ := hp
        simp only [List.cons_append, List.append_assoc]
        refine .lift (a := ⟨anchor, turns, m, g.retry, note, .mk .triggerBlock place cs⟩)
          (Gets.all_parts ?_) ?_
        · refine .bind anchor_gets <| .bind count_gets <| .bind (fun _ => rfl) ?_
          refine retry_gets hns ?_ <| .bind (optional_gets hnotes fun _ => rfl) fun _ => rfl
          cases note with
          | none =>
              cases hnotes
              exact fun _ => rfl
          | some s =>
              obtain ⟨⟨_, _, _⟩, ms, ⟨rfl, -⟩, -, rfl⟩ := List.forall₂_cons_left_iff.mp hnotes
              exact fun _ => rfl
        · simp only [hm]
          exact hbuilt.bind fun b hb => .done (by rw [Action.withoutSpans, Action.withoutSpans, hb])
  · intro us rest hus _
    rw [Without, hus.mark_isKeyword (i := 0) rfl]
  · intro us rest hus _
    cases note with
    | none => exact afterGuard_of_brace hus
    | some s => exact afterGuard_of_keyword hus (by decide) (by decide) (by decide)

/-! ## Statements -/

section

variable {C : Condition → Prop} {A : Action → Prop} {condition action : Parse Node}
  {buildCondition : Node → Except ShapeFault Condition} {buildAction : Node → Collecting Action}

/-- What is read as a deed, by `build` its action. -/
structure IsDeed (build : Node → Collecting Action) (d : Deed) (n : Node) : Prop where
  rule : n.rule = .doStmt
  built : Builds (Shape.deed build n) (·.withoutSpans = d.withoutSpans)

theorem deed_takes {d : Deed}
    (h : Takes c action d.action.pieces AfterAction fun n =>
      Builds (buildAction n) (·.withoutSpans = d.action.withoutSpans)) :
    Takes c (Grammar.deed action) d.pieces AfterAction (IsDeed buildAction d) := by
  obtain ⟨a, place⟩ := d
  rw [Deed.pieces]
  refine .node <| .keyword <| .last <| h.mono fun n hn span => ⟨rfl, .lift rfl ?_⟩
  refine hn.bind fun a' ha' => .done ?_
  rw [Deed.withoutSpans, Deed.withoutSpans, ha']
  rfl

theorem afterAction_of_endsIn {starters : List String} {rest : List Token}
    (h : EndsIn starters rest) (hlimit : "limit" ∉ starters) (hreason : "reason" ∉ starters) :
    AfterAction rest :=
  ⟨h.notKeyword hlimit, h.notKeyword hreason⟩

theorem startWith_of_deed (d : Deed) : Piece.startWith ["do"] d.pieces := by
  obtain ⟨a, place⟩ := d
  rw [Deed.pieces]
  rfl

theorem atDeed_takes {d : Deed} {N : Node → Prop} {other : Parse Node}
    (h : Takes c (Grammar.deed action) d.pieces K N) :
    Takes c (do if ← Grammar.atKeyword "do" then Grammar.deed action else other) d.pieces K N := by
  obtain ⟨a, place⟩ := d
  rw [Deed.pieces] at h ⊢
  exact .atKeyword h

theorem branch_takes {x : Condition} {ds : List Deed} {p : Span} (hne : ds ≠ [])
    (hx : Takes c condition x.pieces (Ends .standalone) fun n => buildCondition n = .ok x)
    (h : ∀ d ∈ ds, Takes c action d.action.pieces AfterAction fun n =>
      Builds (buildAction n) (·.withoutSpans = d.action.withoutSpans)) :
    Takes c (Grammar.branch condition action) (Statement.branch x ds p).pieces K fun n =>
      Builds (Shape.statement buildCondition buildAction n)
        (·.withoutSpans = (Statement.branch x ds p).withoutSpans) := by
  rw [Statement.pieces, Deed.piecesOf_eq]
  refine .node <| .keyword <| .bind hx (fun m hm => .last ?_) fun us rest hus _ => ends_of_brace hus
  refine (Clauses.block (.each (P := IsDeed buildAction) (fun d _ => startWith_of_deed d) fun d hd =>
    atDeed_takes <| (deed_takes (h d hd)).weaken fun rest hrest =>
      afterAction_of_endsIn hrest (by decide) (by decide))).mono fun ns hns span => ?_
  refine .lift rfl ?_
  simp only [Element.nodes_map]
  refine (Builds.keepAll (N := fun d d' => d.withoutSpans = d'.withoutSpans)
    (hns.imp fun d n hd => hd.built.mono fun _ h => h.symm)).bind fun ds' hds => ?_
  refine .lift hm ?_
  rw [isEmpty_of_forall₂ hns hne]
  refine .done ?_
  rw [Statement.withoutSpans, Statement.withoutSpans, Deed.allWithoutSpans_eq,
    Deed.allWithoutSpans_eq, map_eq_map hds]

theorem startWith_of_statement (s : Statement) : Piece.startWith ["do", "if"] s.pieces := by
  cases s with
  | perform d =>
      obtain ⟨a, place⟩ := d
      rw [Statement.pieces, Deed.pieces]
      rfl
  | branch x ds place =>
      rw [Statement.pieces]
      rfl

/-- The statements of a trigger or a schedule are read as they are spelled. -/
theorem statements_takes {ss : List Statement} (hne : ss ≠ [])
    (hs : ∀ s ∈ ss, s.MadeOf C A)
    (hcondition : ∀ x, C x → Takes c condition x.pieces (Ends .standalone) fun n =>
      buildCondition n = .ok x)
    (haction : ∀ a, A a → Takes c action a.pieces AfterAction fun n =>
      Builds (buildAction n) (·.withoutSpans = a.withoutSpans)) :
    Takes c (Grammar.statements condition action) (Piece.braces (Statement.piecesOf ss)) K
      (IsBlock (Shape.statements buildCondition buildAction) ss) := by
  rw [Statement.piecesOf_eq]
  have hstatements : Clauses c ["do", "if"] (starting ["do", "if"] (do
      if ← Grammar.atKeyword "do" then Grammar.deed action else Grammar.branch condition action))
      (ss.flatMap Statement.pieces) (List.Forall₂ (fun s n =>
        Builds (Shape.statement buildCondition buildAction n)
          (s.withoutSpans = ·.withoutSpans)) ss) := by
    refine .list (fun s _ => startWith_of_statement s) fun s hmem => ?_
    cases s with
    | perform d =>
        rw [Statement.pieces]
        refine atDeed_takes <| ((deed_takes (haction _ (hs _ hmem))).weaken fun rest hrest =>
          afterAction_of_endsIn hrest (by decide) (by decide)).mono ?_
        rintro ⟨_, span, cs⟩ ⟨rfl, hbuilt⟩
        refine hbuilt.bind fun d' hd' => .done ?_
        rw [Statement.withoutSpans, Statement.withoutSpans, hd']
    | branch x ds place =>
        obtain ⟨hx, hds, hdeeds⟩ := hs _ hmem
        have hbranch := branch_takes (c := c) (K := EndsIn ["do", "if"]) (p := place) hds
          (hcondition x hx) fun d hd => haction _ (hdeeds d hd)
        rw [Statement.pieces] at hbranch ⊢
        exact .notAtKeyword (begins_keyword (by decide)) <| hbranch.mono fun n hn =>
          hn.mono fun _ h => h.symm
  refine .node <| (blockOf_takes hstatements).map fun ns hns span => ⟨rfl, ?_⟩
  rw [Shape.statements, Node.nodes, Node.children, Element.nodes_map, isEmpty_of_forall₂ hns hne]
  refine (Builds.keepAll (f := Shape.statement buildCondition buildAction) hns).mono fun ss' hss' => ?_
  rw [Statement.allWithoutSpans_eq, Statement.allWithoutSpans_eq, map_eq_map hss']

end

/-! ## Actions -/

theorem effectAction_takes {e : Effect} {guard body : Parse Node}
    {build : Node → Except ShapeFault Condition} {buildBody : Node → Collecting (List Statement)}
    (he : e.Writable) :
    Takes c (Grammar.actionOver guard body) (Action.effect e).pieces AfterAction fun n =>
      Builds (Shape.actionOver build buildBody n)
        (·.withoutSpans = (Action.effect e).withoutSpans) := by
  rw [Action.pieces]
  exact (effect_takes he).mono fun n hn => (hn _ _).mono fun a ha => by rw [ha]

/-- An action is read as it is spelled. -/
theorem action_takes {a : Action} (ha : a.Writable levels) :
    Takes c (Grammar.action levels) a.pieces AfterAction fun n =>
      Builds (Shape.action limit levels n) (·.withoutSpans = a.withoutSpans) := by
  induction levels generalizing a with
  | zero =>
      cases a with
      | effect e => exact effectAction_takes (by simpa [Action.Writable] using ha)
      | schedule anchor turns guard? note body => exact ha.elim
  | succ levels ih =>
      cases a with
      | effect e => exact effectAction_takes (by simpa [Action.Writable] using ha)
      | schedule anchor turns guard? note body =>
          obtain ⟨hguard, hne, hbody⟩ := ha
          exact schedule_takes (fun g hg => condition_takes (hguard g hg)) <|
            statements_takes hne hbody (fun x hx => condition_takes hx) fun a ha => ih ha

end Grammar

end Storyworld
