import Storyworld.Proofs.Document.Segments
import Storyworld.Proofs.Spelling.Goal
import Storyworld.Proofs.Spelling.Item
import Storyworld.Proofs.Spelling.Npc
import Storyworld.Proofs.Spelling.Room
import Storyworld.Proofs.Spelling.Trigger
import Storyworld.Spinner.Grammar

namespace Storyworld

/-! Whole documents and how they are spelled: what is spelled from definitions is read as these
definitions. -/

/-! ## Spinners -/

namespace Wedge

def pieces (w : Wedge) : List Piece :=
  .keyword "wedge" :: .string w.text ::
    w.width.toList.flatMap fun n => [.keyword "width", .count n]

end Wedge

namespace Spinner

/-- The id is quoted, so that it can be any text. -/
def pieces (s : Spinner) : List Piece :=
  .keyword "spinner" :: .string s.id.name :: Piece.braces (s.wedges.flatMap Wedge.pieces)

/-- A spinner that a source can spell. -/
structure Writable (s : Spinner) : Prop where
  nonempty : s.wedges ≠ []
  widths : ∀ w ∈ s.wedges, ∀ n ∈ w.width, 1 ≤ n

end Spinner

namespace Grammar

open Takes Shape

variable {c : Context} {K : List Token → Prop}

theorem wedge_takes {w : Wedge} (hw : ∀ n ∈ w.width, 1 ≤ n) :
    Takes c Grammar.wedge w.pieces (EndsIn ["wedge"]) fun n =>
      ∃ v, Shape.wedge n = .ok v ∧ w.withoutSpan = v.withoutSpan := by
  obtain ⟨text, width, span⟩ := w
  refine .node <| .keyword <| .string fun _ _ => ?_
  cases width with
  | none =>
      refine .notAtKeyword (.nil fun rest hrest => hrest.notKeyword (by decide)) <| .done fun span => ?_
      exact ⟨_, rfl, rfl⟩
  | some n =>
      refine .atKeyword <| .last <| keywordThenNumber_takes fun _ _ span => ⟨⟨text, n, span⟩, ?_, rfl⟩
      refine Gets.all_parts <| .bind (fun _ => rfl) <| .bind (a := some n) ?_ fun _ => rfl
      exact clause_gets ⟨rfl, (positive_gets (hw n rfl)).parts⟩

theorem spinner_takes {s : Spinner} {limit : Nat} (hs : s.Writable) :
    Takes c Grammar.spinner s.pieces K (Says limit (.spinner s)) := by
  have hwedges : Clauses c ["wedge"] (starting ["wedge"] Grammar.wedge)
      (s.wedges.flatMap Wedge.pieces) (List.Forall₂ (fun w n =>
        ∃ v, Shape.wedge n = .ok v ∧ w.withoutSpan = v.withoutSpan) s.wedges) :=
    .list (fun _ _ => rfl) fun w hw => wedge_takes (hs.widths w hw)
  refine .node <| .keyword <| .quoted fun _ _ => (blockOf_takes hwedges).map fun ns hns span => ?_
  obtain ⟨ws, hbuilt, hws⟩ := exists_mapM hns
  refine .lift (a := { s with wedges := ws, span }) ?_ <| .done ?_
  · refine ok_bind rfl <| ok_bind (by rwa [Element.nodes_map]) ?_
    simp only [isEmpty_of_forall₂ hws hs.nonempty]
    rfl
  · simp only [Definition.withoutSpans, Spinner.withoutSpans, map_eq_map hws]

end Grammar

/-! ## All definitions -/

namespace Definition

def pieces : Definition → List Piece
  | roomSet d => d.pieces
  | room d => d.pieces
  | item d => d.pieces
  | npc d => d.pieces
  | trigger d => d.pieces
  | spinner d => d.pieces
  | goal d => d.pieces

/-- A definition that a source can spell; at most `levels` schedules and condition groups lie inside
one another. -/
def Writable (levels : Nat) : Definition → Prop
  | roomSet d => d.Writable
  | room d => d.Writable
  | item d => d.Writable
  | npc d => d.Writable
  | trigger d => d.Writable levels
  | spinner d => d.Writable
  | goal d => d.Writable

theorem pieces_ne_nil (d : Definition) : d.pieces ≠ [] := by
  cases d <;> exact List.cons_ne_nil _ _

end Definition

/-! ## There are tokens for every spelling -/

namespace Piece

/-- One of the tokens that a piece can be. -/
def token : Piece → Token
  | keyword w => ⟨.keyword w, .origin, w⟩
  | onlyOnce => ⟨.keyword "only once", .origin, "only once"⟩
  | word name => ⟨Token.Kind.ofWord name.toList, .origin, name⟩
  | number value => .ofNumber value .origin
  | boolean value => ⟨.boolean value, .origin, if value then "true" else "false"⟩
  | string value => ⟨.string value, .origin, value⟩
  | mark m => ⟨.mark m, .origin, m.spelling⟩

theorem spells_token : ∀ p : Piece, p.Spells p.token
  | keyword _ => .keyword _
  | onlyOnce => .onlyOnce _ _
  | word _ => .word _
  | number _ => .number _
  | boolean _ => .boolean _ _
  | string _ => .string _ _
  | mark _ => .mark _ _

/-- A piece is never a blank or a comment. -/
theorem Spells.isTrivia {p : Piece} {t : Token} (h : p.Spells t) : t.isTrivia = false := by
  cases h with
  | @word name span =>
      have hkind : Token.Kind.ofWord name.toList ≠ .comment ∧
          Token.Kind.ofWord name.toList ≠ .blank := by
        unfold Token.Kind.ofWord
        simp only
        split_ifs <;> simp
      unfold Token.isTrivia
      split
      · exact absurd ‹_› hkind.1
      · exact absurd ‹_› hkind.2
      · rfl
  | _ => rfl

end Piece

/-- Every spelling can be had in tokens. -/
theorem Piece.exists_spelled (ps : List Piece) : Spelled ps (ps.map token) := by
  rw [Spelled, List.forall₂_map_right_iff, List.forall₂_same]
  exact fun p _ => p.spells_token

theorem Spelled.significant {ps : List Piece} {ts : List Token} (h : Spelled ps ts) :
    Tree.significant ts = ts := by
  induction h with
  | nil => rfl
  | cons ht _ ih =>
      rw [Tree.significant, List.filter_cons_of_pos (by simp [ht.isTrivia])]
      exact congrArg _ ih

namespace Grammar

open Takes Shape

variable {c : Context} {K : List Token → Prop} {d : Definition} {levels : Nat}

/-! ## Definitions -/

theorem definition_takes (hd : d.Writable c.settings.maxNesting) :
    Takes c definition d.pieces K (Says c.settings.maxNesting d) := by
  cases d with
  | roomSet d => exact .atKeyword (roomSet_takes hd)
  | room d => exact .notAtKeyword (begins_keyword (by decide)) <| .atKeyword (room_takes hd)
  | item d =>
      exact .notAtKeyword (begins_keyword (by decide)) <|
        .notAtKeyword (begins_keyword (by decide)) <| .atKeyword (item_takes hd)
  | npc d =>
      exact .notAtKeyword (begins_keyword (by decide)) <|
        .notAtKeyword (begins_keyword (by decide)) <|
        .notAtKeyword (begins_keyword (by decide)) <| .atKeyword (npc_takes hd)
  | trigger d =>
      exact .notAtKeyword (begins_keyword (by decide)) <|
        .notAtKeyword (begins_keyword (by decide)) <|
        .notAtKeyword (begins_keyword (by decide)) <|
        .notAtKeyword (begins_keyword (by decide)) <| .atKeyword <|
        .within (f := trigger) (trigger_takes hd)
  | spinner d =>
      exact .notAtKeyword (begins_keyword (by decide)) <|
        .notAtKeyword (begins_keyword (by decide)) <|
        .notAtKeyword (begins_keyword (by decide)) <|
        .notAtKeyword (begins_keyword (by decide)) <|
        .notAtKeyword (begins_keyword (by decide)) <| .atKeyword (spinner_takes hd)
  | goal d =>
      exact .notAtKeyword (begins_keyword (by decide)) <|
        .notAtKeyword (begins_keyword (by decide)) <|
        .notAtKeyword (begins_keyword (by decide)) <|
        .notAtKeyword (begins_keyword (by decide)) <|
        .notAtKeyword (begins_keyword (by decide)) <|
        .notAtKeyword (begins_keyword (by decide)) <| .atKeyword (goal_takes hd)

/-- A definition that is spelled is kept. -/
theorem nextDefinition_takes (hd : d.Writable c.settings.maxNesting) :
    Takes c nextDefinition d.pieces K fun ns? =>
      ∃ ns, ns? = some ns ∧ ∃ n, ns = [n] ∧ Says c.settings.maxNesting d n := by
  intro s ts rest hts hs hrest
  obtain ⟨n, s', hrun, hn, hpast⟩ := definition_takes hd hts hs hrest
  have hnext : nextDefinition c s = .ok (some [n]) s' :=
    (NextDerivation.keeps hrun (congrArg List.length hpast.faults)).execution
  exact ⟨some [n], s', hnext, ⟨[n], rfl, n, rfl, hn⟩, hpast⟩

theorem definitions_takes {ds : List Definition}
    (hds : ∀ d ∈ ds, d.Writable c.settings.maxNesting) :
    Takes c (many nextDefinition) (ds.flatMap Definition.pieces) (· = [])
      (List.Forall₂ (fun d ns => ∃ n, ns = [n] ∧ Says c.settings.maxNesting d n) ds) := by
  have hseries : Series c (fun _ => nextDefinition) (ds.flatMap Definition.pieces) Anything
      (List.Forall₂ (fun d ns => ∃ n, ns = [n] ∧ Says c.settings.maxNesting d n) ds) :=
    .each (fun d hd => .once d.pieces_ne_nil (nextDefinition_takes (hds d hd)))
      fun _ _ _ _ _ => trivial
  exact hseries.many fun s hs => ⟨trivial, (NextDerivation.ends hs).execution⟩

end Grammar

open Grammar

namespace Built

/-- Nodes that say the same as some definitions are built to them. -/
theorem ofNodes_says {limit : Nat} {ds : List Definition} {ns : List Node}
    (h : List.Forall₂ (Says limit) ds ns) :
    (ofNodes limit ns).faults = [] ∧
      (ofNodes limit ns).definitions.map (·.withoutSpans) = ds.map (·.withoutSpans) := by
  induction h with
  | nil => exact ⟨rfl, rfl⟩
  | @cons d n ds ns hn _ ih =>
      obtain ⟨d', hrun, hd'⟩ := hn []
      have hnode : ofNode limit n = { definitions := [d'] } := by
        rw [ofNode, hrun]
      have hsplit : ofNodes limit (n :: ns) = ofNode limit n ++ ofNodes limit ns := rfl
      rw [hsplit, hnode, List.map_cons, ← ih.2, ← hd']
      exact ⟨ih.1, rfl⟩

end Built

/-! ## Documents -/

/-- What is spelled from definitions is read without a fault, and as these definitions, whatever the
places of the tokens; and there are tokens that spell them. -/
theorem Built.ofTree_spelled {settings : Settings} {ds : List Definition} (hne : ds ≠ [])
    (hds : ∀ d ∈ ds, d.Writable settings.maxNesting) :
    (∃ tokens, Spelled (ds.flatMap Definition.pieces) (Tree.significant tokens)) ∧
    ∀ tokens, Spelled (ds.flatMap Definition.pieces) (Tree.significant tokens) →
      (Tree.ofTokens settings tokens).faults = [] ∧
      (Built.ofTree settings (Tree.ofTokens settings tokens).tree).faults = [] ∧
      (Built.ofTree settings (Tree.ofTokens settings tokens).tree).definitions.map
        (·.withoutSpans) = ds.map (·.withoutSpans) := by
  constructor
  · have hspelled := Piece.exists_spelled (ds.flatMap Definition.pieces)
    exact ⟨_, hspelled.significant.symm ▸ hspelled⟩
  · intro tokens hspelled
    obtain ⟨nss, s, hrun, hnss, hpast⟩ :=
      definitions_takes (c := ⟨settings, Tree.endOf tokens⟩) hds hspelled
        (s := { rest := Tree.significant tokens }) (List.append_nil _).symm rfl
    have hsays : List.Forall₂ (Says settings.maxNesting) ds nss.flatten := by
      clear hrun hne hspelled hds
      induction hnss with
      | nil => exact .nil
      | cons hn _ ih =>
          obtain ⟨n, rfl, hn⟩ := hn
          exact .cons hn ih
    have hfound : nss.flatten ≠ [] := by
      rintro hnil
      rw [hnil, List.forall₂_nil_right_iff] at hsays
      exact hne hsays
    obtain ⟨hchildren, hfaults⟩ := Tree.ofTokens_of_definitions hrun (.inl hfound)
    have hnodes : (Tree.ofTokens settings tokens).tree.root.nodes = nss.flatten := by
      rw [Node.nodes, hchildren, Element.nodes_map]
    obtain ⟨hnone, hsame⟩ := Built.ofNodes_says hsays
    rw [← hnodes] at hnone hsame
    exact ⟨hfaults.trans hpast.faults, hnone, hsame⟩

/-- A trigger in which rooms and flags are named as conditions and other parts begin. -/
def Trigger.ofKeywords : Trigger where
  name := "has \"any\""
  onlyOnce := true
  notes := ["all"]
  event := .enterRoom ⟨"when"⟩
  block := [.branch
    (.any [.single (.inRooms [⟨"has"⟩, ⟨"hall"⟩]), .single (.hasFlag ⟨"only"⟩)])
    [.mk (.schedule .fromNow 2 (some ⟨.single (.chance 50), some (.retryAfter 3)⟩) none
      [.perform (.mk (.effect (.addFlag ⟨"12"⟩)) .origin)]) .origin]
    .origin]
  span := .origin

theorem Built.ofTree_spelled_keywords :
    (∀ d ∈ [Definition.trigger .ofKeywords], d.Writable 2) ∧
    ∀ tokens, Spelled Trigger.ofKeywords.pieces (Tree.significant tokens) →
      (Built.ofTree { maxNesting := 2 }
          (Tree.ofTokens { maxNesting := 2 } tokens).tree).definitions.map (·.withoutSpans) =
        [(Definition.trigger .ofKeywords).withoutSpans] := by
  have hw : ∀ d ∈ [Definition.trigger .ofKeywords], d.Writable 2 := by
    intro d hd
    rw [List.mem_singleton.mp hd]
    refine ⟨show Id.Writable _ by decide, List.cons_ne_nil _ _, ?_⟩
    simp only [Trigger.ofKeywords, List.forall_mem_singleton]
    refine ⟨⟨List.cons_ne_nil _ _, ?_⟩, List.cons_ne_nil _ _, ?_⟩
    · rintro m (_ | ⟨_, _ | ⟨_, ⟨⟩⟩⟩)
      · refine ⟨List.cons_ne_nil _ _, ?_, fun _ => by decide⟩
        rintro r (_ | ⟨_, _ | ⟨_, ⟨⟩⟩⟩) <;> decide
      · exact show Id.Writable _ by decide
    · simp only [List.forall_mem_singleton]
      refine ⟨?_, List.cons_ne_nil _ _, ?_⟩
      · rintro g ⟨rfl⟩
        exact show (1 : UInt8) ≤ 50 ∧ (50 : UInt8) ≤ 100 by decide
      · simp only [List.forall_mem_singleton]
        exact show Id.Writable _ by decide
  refine ⟨hw, fun tokens h => ?_⟩
  have hw' : ∀ d ∈ [Definition.trigger .ofKeywords],
      d.Writable ({ maxNesting := 2 } : Settings).maxNesting := hw
  exact ((Built.ofTree_spelled (List.cons_ne_nil _ _) hw').2 tokens
    (by simpa [Definition.pieces] using h)).2.2

end Storyworld
