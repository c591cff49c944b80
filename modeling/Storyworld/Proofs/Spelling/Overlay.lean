import Storyworld.Proofs.Grammar.Definitions
import Storyworld.Proofs.Spelling.Phrase

namespace Storyworld

/-! How overlays are spelled. -/

namespace Overlay

namespace Condition

def pieces : Overlay.Condition → List Piece
  | flagSet flag => [.keyword "flag", .keyword "set", .word flag.name]
  | flagUnset flag => [.keyword "flag", .keyword "unset", .word flag.name]
  | flagComplete flag => [.keyword "flag", .keyword "complete", .word flag.name]
  | itemPresent item => [.keyword "item", .keyword "present", .word item.name]
  | itemAbsent item => [.keyword "item", .keyword "absent", .word item.name]
  | playerHasItem item => [.keyword "player", .keyword "has", .keyword "item", .word item.name]
  | playerMissingItem item =>
    [.keyword "player", .keyword "missing", .keyword "item", .word item.name]
  | npcPresent npc => [.keyword "npc", .keyword "present", .word npc.name]
  | npcAbsent npc => [.keyword "npc", .keyword "absent", .word npc.name]
  | npcInState npc state =>
    .keyword "npc" :: .keyword "in" :: .keyword "state" :: .word npc.name :: state.pieces
  | itemInRoom item room =>
    [.keyword "item", .keyword "in", .keyword "room", .word item.name, .word room.name]

/-- A condition that a source can spell. -/
def Writable : Overlay.Condition → Prop
  | flagSet flag | flagUnset flag | flagComplete flag => flag.Writable
  | itemPresent item | itemAbsent item | playerHasItem item | playerMissingItem item =>
    item.Writable
  | npcPresent npc | npcAbsent npc => npc.Writable
  | npcInState npc state => npc.Writable ∧ state.Writable
  | itemInRoom item room => item.Writable ∧ room.Writable

end Condition

namespace MoodLine

def pieces (l : MoodLine) : List Piece :=
  l.state.pieces ++ [.string l.text]

end MoodLine

/-- Two texts, each behind a word of its own. -/
def textPieces (first second : String) (a b : String) : List Piece :=
  Piece.braces ([.keyword first, .string a] ++ [.keyword second, .string b])

namespace Subject

def pieces : Subject → List Piece
  | item id => [.keyword "item", .word id.name]
  | npc id => [.keyword "npc", .word id.name]

/-- A subject that a source can spell. -/
def Writable : Subject → Prop
  | item id => id.Writable
  | npc id => id.Writable

end Subject

namespace Kind

/-- The conditions of a general overlay stand in parentheses. -/
def pieces : Kind → List Piece
  | flagBinary flag setText unsetText =>
    .keyword "flag" :: .word flag.name :: textPieces "set" "unset" setText unsetText
  | presencePair subject presentText absentText =>
    subject.pieces ++ textPieces "present" "absent" presentText absentText
  | moodSet npc lines =>
    .keyword "npc" :: .word npc.name :: .keyword "here" ::
      Piece.braces (lines.flatMap MoodLine.pieces)
  | conditional conditions text =>
    Piece.parens (Piece.commas Condition.pieces conditions) ++
      Piece.braces [.keyword "text", .string text]

/-- An overlay that a source can spell. -/
def Writable : Kind → Prop
  | flagBinary flag _ _ => flag.Writable
  | presencePair subject _ _ => subject.Writable
  | moodSet npc lines => npc.Writable ∧ lines ≠ [] ∧ ∀ l ∈ lines, l.state.Writable
  | conditional conditions _ => conditions ≠ [] ∧ ∀ x ∈ conditions, x.Writable

end Kind

def pieces (o : Overlay) : List Piece :=
  .keyword "overlay" :: .keyword "if" :: o.kind.pieces

end Overlay

namespace Grammar

open Takes Shape

variable {c : Context} {K : List Token → Prop}

/-! ## Conditions -/

/-- What is read as a condition of a general overlay. -/
structure IsOverlayCondition (x : Overlay.Condition) (n : Node) : Prop where
  rule : n.rule ≠ .overlayText
  built : Shape.overlayCondition n = .ok x

theorem overlayCondition_takes {x : Overlay.Condition} (hx : x.Writable) :
    Takes c Grammar.overlayCondition x.pieces K (IsOverlayCondition x) := by
  refine .nodeBy ?_
  cases x with
  | flagSet flag =>
      exact .eatKeyword <| .oneOf rfl fun _ => .word hx fun _ => .done fun _ => ⟨nofun, rfl⟩
  | flagUnset flag =>
      exact .eatKeyword <| .oneOf rfl fun _ => .word hx fun _ => .done fun _ => ⟨nofun, rfl⟩
  | flagComplete flag =>
      exact .eatKeyword <| .oneOf rfl fun _ => .word hx fun _ => .done fun _ => ⟨nofun, rfl⟩
  | itemPresent item =>
      refine .otherKeyword (by decide) <| .eatKeyword <| .otherKeyword (by decide) ?_
      exact .oneOf rfl fun _ => .word hx fun _ => .done fun _ => ⟨nofun, rfl⟩
  | itemAbsent item =>
      refine .otherKeyword (by decide) <| .eatKeyword <| .otherKeyword (by decide) ?_
      exact .oneOf rfl fun _ => .word hx fun _ => .done fun _ => ⟨nofun, rfl⟩
  | playerHasItem item =>
      iterate 2 refine .otherKeyword (by decide) ?_
      refine .eatKeyword <| .oneOf rfl fun _ => .keyword ?_
      exact .word hx fun _ => .done fun _ => ⟨nofun, rfl⟩
  | playerMissingItem item =>
      iterate 2 refine .otherKeyword (by decide) ?_
      refine .eatKeyword <| .oneOf rfl fun _ => .keyword ?_
      exact .word hx fun _ => .done fun _ => ⟨nofun, rfl⟩
  | npcPresent npc =>
      iterate 3 refine .otherKeyword (by decide) ?_
      refine .eatKeyword <| .otherKeyword (by decide) <| .oneOf rfl fun _ => ?_
      exact .word hx fun _ => .done fun _ => ⟨nofun, rfl⟩
  | npcAbsent npc =>
      iterate 3 refine .otherKeyword (by decide) ?_
      refine .eatKeyword <| .otherKeyword (by decide) <| .oneOf rfl fun _ => ?_
      exact .word hx fun _ => .done fun _ => ⟨nofun, rfl⟩
  | npcInState npc state =>
      iterate 3 refine .otherKeyword (by decide) ?_
      refine .eatKeyword <| .eatKeyword <| .keyword <| .word hx.1 fun _ => ?_
      refine .last <| (mood_takes hx.2).mono fun n hn span => ⟨nofun, Gets.all_parts ?_⟩
      exact .bind (fun _ => rfl) <| .bind (fun _ => rfl) <| .lift hn.lenient fun _ => rfl
  | itemInRoom item room =>
      refine .otherKeyword (by decide) <| .eatKeyword <| .eatKeyword <| .keyword ?_
      exact .word hx.1 fun _ => .word hx.2 fun _ => .done fun _ => ⟨nofun, rfl⟩

/-! ## Texts -/

theorem textPair_takes {first second a b : String} {r r' : Rule} (what what' : String)
    (hwords : first ≠ second) (hrules : r ≠ r') :
    Takes c (Grammar.textPair first second r r') (Overlay.textPieces first second a b) K fun ns =>
      ∀ n, Builds (Shape.textPair what what' r n ns) (· = (a, b)) := by
  refine (blockOf_takes (N := (Turns (textLine what what' r) (· = (none, none)) · (· = (some a, some b))))
    (.andThen (B := (· = (some a, none))) (.step ?_ ?first) (.step ?_ ?second))).mono ?_
  · simp [Piece.startWith]
  case first =>
    refine atKeyword_cons.mpr ?_
    rw [if_pos (by simp)]
    refine keywordThenString_takes ?_
    rintro span _ _ _ rfl
    refine .lift rfl ?_
    rw [Node.rule, if_pos rfl]
    exact .setOnce rfl <| .done rfl
  · simp [Piece.startWith]
  case second =>
    refine atKeyword_cons.mpr ?_
    rw [if_neg (by simpa using hwords.symm)]
    refine keywordThenString_takes ?_
    rintro span _ _ _ rfl
    refine .lift rfl ?_
    rw [Node.rule, if_neg hrules.symm]
    exact .setOnce rfl <| .done rfl
  · intro ns hns n
    refine (hns.keepChanges rfl).bind ?_
    rintro _ rfl
    exact .lift rfl <| .lift rfl <| .done rfl

/-- What a pair of texts makes up. -/
theorem pair_builds {what what' a b : String} {r : Rule} {n : Node} {ns : List Node}
    {f : String → String → Overlay.Kind}
    (h : Builds (Shape.textPair what what' r n ns) (· = (a, b))) :
    Builds (do
      let (x, y) ← Shape.textPair what what' r n (Element.nodes (ns.map .node))
      return f x y) (· = f a b) := by
  rw [Element.nodes_map]
  refine h.bind ?_
  rintro _ rfl
  exact .done rfl

/-- The text that shows while an npc is in some state. -/
theorem moodLines_takes {lines : List Overlay.MoodLine} (hl : ∀ l ∈ lines, l.state.Writable) :
    Takes c moodLines (Piece.braces (lines.flatMap Overlay.MoodLine.pieces)) K
      (List.Forall₂ (fun l n => Shape.moodLine n = .ok l) lines) := by
  refine blockOf_takes <| .list (fun l _ => ?_) fun l hmem => .node ?_
  · obtain ⟨state, text⟩ := l
    cases state with
    | builtin mood => cases mood <;> rfl
    | custom name => rfl
  · refine .bind (mood_takes (K := Anything) (hl l hmem)) (fun n hn => .string fun _ _ => .done fun _ => ?_)
      fun _ _ _ _ => trivial
    refine Gets.all_parts ?_
    exact .bind (fun _ => rfl) <| .lift hn.strict <| .bind (fun _ => rfl) fun _ => rfl

/-- The conditions of a general overlay, one by one. -/
theorem conditions_turn {conditions : List Overlay.Condition} {ns : List Node}
    (h : List.Forall₂ IsOverlayCondition conditions ns) :
    Turns generalPart (· = ([], none)) ns (· = (conditions, none)) := by
  refine .each (A := fun done p => p = (done, none)) h fun y n hn done p hp => ?_
  rw [generalPart, if_neg hn.rule, hp]
  refine .bind (Builds.keep (.given (Q := (· = y)) hn.built rfl)) ?_
  rintro _ ⟨_, rfl, rfl⟩
  exact .done rfl

/-- The text of a general overlay, behind its conditions. -/
theorem overlayText_takes {conditions : List Overlay.Condition} {text : String} :
    Takes c (blockOf ["text"] (keywordThenString .overlayText "text"))
      (Piece.braces [.keyword "text", .string text]) K
      (Turns generalPart (· = (conditions, none)) · (· = (conditions, some text))) := by
  refine blockOf_takes <| .step rfl <| keywordThenString_takes ?_
  rintro span _ _ _ rfl
  exact .lift rfl <| .setOnce rfl <| .done rfl

theorem generalOverlay_takes {conditions : List Overlay.Condition} {text : String}
    (hne : conditions ≠ []) (hw : ∀ x ∈ conditions, x.Writable) :
    Takes c generalOverlay (Overlay.Kind.pieces (.conditional conditions text)) K fun ns =>
      Turns generalPart (· = ([], none)) ns (· = (conditions, some text)) := by
  obtain ⟨x, conditions, rfl⟩ := List.exists_cons_of_ne_nil hne
  rw [Overlay.Kind.pieces, Piece.parens, List.cons_append, List.append_assoc]
  refine .eatMark rfl <| .bind (Takes.commaSeparatedAll (K := Anything)
    (fun y hy => overlayCondition_takes (hw y hy)) (fun _ _ _ _ _ => trivial)
    fun _ _ _ => trivial) (fun ns hns => ?_) fun us rest hus _ => closes_append hus
  have htexts : Takes c (blockOf ["text"] (keywordThenString .overlayText "text"))
      (Piece.braces [.keyword "text", .string text]) K
      (Turns generalPart (· = (x :: conditions, none)) · (· = (x :: conditions, some text))) :=
    overlayText_takes
  exact .mark rfl <| htexts.map fun ms hms => (conditions_turn hns).append hms

/-! ## Overlays -/

/-- What is read as an overlay, wherever it stands. -/
def IsOverlay : Overlay → Node → Prop :=
  SaysUpTo Overlay.withoutSpan Overlay.BuiltFrom

theorem isOverlay_of_kind {o : Overlay} {n : Node} (h : Builds (overlayKind n) (· = o.kind)) :
    IsOverlay o n := by
  obtain ⟨kind, hmakes, hkind⟩ := h []
  refine ⟨⟨o.kind, n.span⟩, rfl, (makes_bind fun _ => .done _).mpr ⟨kind, hmakes, makes_done.mpr ?_⟩⟩
  rw [hkind]

theorem isOverlay_of_general {conditions : List Overlay.Condition} {text : String} {ns : List Node}
    {span place : Span}
    (h : Turns generalPart (· = ([], none)) ns (· = (conditions, some text))) :
    IsOverlay ⟨.conditional conditions text, place⟩
      (.mk .overlayConditional span (ns.map .node)) := by
  refine isOverlay_of_kind ?_
  have hfold := h.foldlM rfl
  rw [← Element.nodes_map ns] at hfold
  refine hfold.bind ?_
  rintro _ rfl
  exact .lift rfl <| .done rfl

theorem overlayParts_takes {o : Overlay} (ho : o.kind.Writable) :
    Takes c overlayParts o.kind.pieces K fun p => ∀ span, IsOverlay o (.mk p.1 span p.2) := by
  obtain ⟨kind, place⟩ := o
  cases kind with
  | flagBinary flag setText unsetText =>
      refine .look _ (b := true) (fun ts rest hts _ => ?_) ?_
      · rw [hts.keyword_isKeyword rfl, hts.mark_isMark rfl]
        rfl
      · refine .keyword <| .word ho fun _ => ?_
        refine .last <| (textPair_takes "set text" "unset text" (by decide) (by decide)).mono
          fun ns hns span => ?_
        exact isOverlay_of_kind <| .lift rfl <| pair_builds (hns _)
  | presencePair subject presentText absentText =>
      cases subject with
      | item id =>
          refine .look _ (b := false) (fun ts rest hts _ => ?_) ?_
          · rw [hts.keyword_isKeyword rfl]
            rfl
          refine .look _ (b := true) (fun ts rest hts _ => ?_) ?_
          · rw [hts.keyword_isOneOf rfl, hts.mark_isMark rfl]
            rfl
          refine .eatKeyword <| .word ho fun _ => ?_
          refine .last <| (textPair_takes "present text" "absent text" (by decide) (by decide)).mono
            fun ns hns span => ?_
          exact isOverlay_of_kind <| .lift rfl <| pair_builds (hns _)
      | npc id =>
          refine .look _ (b := false) (fun ts rest hts _ => ?_) ?_
          · rw [hts.keyword_isKeyword rfl]
            rfl
          refine .look _ (b := true) (fun ts rest hts _ => ?_) ?_
          · rw [hts.keyword_isOneOf rfl, hts.mark_isMark rfl]
            rfl
          refine .otherKeyword (by decide) <| .keyword <| .word ho fun _ => ?_
          refine .last <| (textPair_takes "present text" "absent text" (by decide) (by decide)).mono
            fun ns hns span => ?_
          exact isOverlay_of_kind <| .lift rfl <| pair_builds (hns _)
  | moodSet npc lines =>
      obtain ⟨hnpc, hne, hlines⟩ := ho
      refine .look _ (b := false) (fun ts rest hts _ => ?_) ?_
      · rw [hts.keyword_isKeyword rfl]
        rfl
      refine .look _ (b := false) (fun ts rest hts _ => ?_) ?_
      · rw [hts.keyword_isMark rfl, Bool.and_false]
      refine .look _ (b := true) (fun ts rest hts _ => ?_) ?_
      · rw [hts.keyword_isKeyword rfl, hts.keyword_isKeyword rfl, hts.mark_isMark rfl]
        rfl
      refine .keyword <| .word hnpc fun _ => .keyword ?_
      refine .last <| (moodLines_takes hlines).mono fun ns hns span => ?_
      refine isOverlay_of_kind <| .lift rfl ?_
      simp only [Element.nodes_map]
      have hbuilt := Builds.keepAll (f := fun n => (Shape.moodLine n : Collecting Overlay.MoodLine))
        (N := Eq) (hns.imp fun l n hn => .given hn rfl)
      refine hbuilt.bind fun ls hls => ?_
      rw [List.forall₂_eq_eq_eq] at hls
      rw [isEmpty_of_forall₂ hns hne, ← hls]
      exact .done rfl
  | conditional conditions text =>
      refine .look _ (b := false) (fun ts rest hts _ => ?_) ?_
      · rw [hts.mark_isKeyword rfl]
        rfl
      refine .look _ (b := false) (fun ts rest hts _ => ?_) ?_
      · rw [hts.mark_isOneOf rfl]
        rfl
      refine .look _ (b := false) (fun ts rest hts _ => ?_) ?_
      · rw [hts.mark_isKeyword rfl]
        rfl
      exact .last <| (generalOverlay_takes ho.1 ho.2).mono fun ns hns span =>
        isOverlay_of_general hns

theorem overlay_takes {o : Overlay} (ho : o.kind.Writable) :
    Takes c Grammar.overlay o.pieces K (IsOverlay o) := by
  rw [overlay_eq]
  exact .nodeBy <| .keyword <| .keyword <| overlayParts_takes ho

end Grammar

end Storyworld
