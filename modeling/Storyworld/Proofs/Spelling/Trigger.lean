import Storyworld.Event.Grammar
import Storyworld.Event.Shape
import Storyworld.Proofs.Spelling.Phrase
import Storyworld.Proofs.Spelling.Statement
import Storyworld.Trigger.Grammar
import Storyworld.Trigger.Shape

namespace Storyworld

/-! How events and triggers are spelled. -/

/-! ## Events -/

namespace Event

def pieces : Event → List Piece
  | always => [.keyword "always"]
  | enterRoom room => [.keyword "enter", .keyword "room", .word room.name]
  | leaveRoom room => [.keyword "leave", .keyword "room", .word room.name]
  | takeItem item => [.keyword "take", .keyword "item", .word item.name]
  | dropItem item => [.keyword "drop", .keyword "item", .word item.name]
  | openItem item => [.keyword "open", .keyword "item", .word item.name]
  | unlockItem item => [.keyword "unlock", .keyword "item", .word item.name]
  | lookAtItem item => [.keyword "look", .keyword "at", .keyword "item", .word item.name]
  | talkToNpc npc => [.keyword "talk", .keyword "to", .keyword "npc", .word npc.name]
  | useItem item ability =>
    .keyword "use" :: .keyword "item" :: .word item.name ::
      ability.toList.flatMap fun a => [.keyword "ability", .word a.name]
  | useItemOnItem tool target interaction =>
    [.keyword "use", .keyword "item", .word tool.name, .keyword "on", .keyword "item",
      .word target.name, .keyword "interaction", .word interaction.name]
  | actOnItem interaction item =>
    [.keyword "act", .word interaction.name, .keyword "on", .keyword "item", .word item.name]
  | giveToNpc item npc =>
    [.keyword "give", .keyword "item", .word item.name, .keyword "to", .keyword "npc",
      .word npc.name]
  | takeFromNpc item npc =>
    [.keyword "take", .keyword "item", .word item.name, .keyword "from", .keyword "npc",
      .word npc.name]
  | insertItemInto item container =>
    [.keyword "insert", .keyword "item", .word item.name, .keyword "into", .keyword "item",
      .word container.name]
  | ingest mode item => [.keyword mode.word, .keyword "item", .word item.name]

/-- An event that a source can spell. -/
def Writable : Event → Prop
  | always => True
  | enterRoom room | leaveRoom room => room.Writable
  | takeItem item | dropItem item | openItem item | unlockItem item | lookAtItem item
  | ingest _ item => item.Writable
  | talkToNpc npc => npc.Writable
  | useItem item ability => item.Writable ∧ ∀ a ∈ ability, a.Writable
  | useItemOnItem tool target interaction =>
    tool.Writable ∧ target.Writable ∧ interaction.Writable
  | actOnItem interaction item => interaction.Writable ∧ item.Writable
  | giveToNpc item npc | takeFromNpc item npc => item.Writable ∧ npc.Writable
  | insertItemInto item container => item.Writable ∧ container.Writable

end Event

namespace Grammar

open Takes

/-- An opening brace follows. -/
def Opens (rest : List Token) : Prop :=
  rest[0]?.any (·.isMark .openBrace)

theorem Opens.notKeyword {rest : List Token} {w : String} (h : Opens rest) :
    Without (·.isKeyword w) rest := by
  obtain ⟨t, ht, hmark⟩ := (Option.any_eq_true ..).mp h
  simp [Without, ht, Token.isKeyword_of_isMark hmark]

theorem event_takes {c : Context} {e : Event} (he : e.Writable) :
    Takes c event e.pieces Opens fun n => Shape.event n = .ok e := by
  refine .nodeBy ?_
  cases e with
  | always => exact .oneOf rfl fun _ => .done fun _ => rfl
  | enterRoom room => exact .oneOf rfl fun _ => .keyword <| .word he fun _ => .done fun _ => rfl
  | leaveRoom room => exact .oneOf rfl fun _ => .keyword <| .word he fun _ => .done fun _ => rfl
  | takeItem item =>
      refine .oneOf rfl fun _ => .keyword <| .word he fun _ => ?_
      exact .notEatKeyword (.nil fun _ => Opens.notKeyword) <| .done fun _ => rfl
  | dropItem item => exact .oneOf rfl fun _ => .keyword <| .word he fun _ => .done fun _ => rfl
  | openItem item => exact .oneOf rfl fun _ => .keyword <| .word he fun _ => .done fun _ => rfl
  | unlockItem item => exact .oneOf rfl fun _ => .keyword <| .word he fun _ => .done fun _ => rfl
  | lookAtItem item =>
      exact .oneOf rfl fun _ => .keyword <| .keyword <| .word he fun _ => .done fun _ => rfl
  | talkToNpc npc =>
      exact .oneOf rfl fun _ => .keyword <| .keyword <| .word he fun _ => .done fun _ => rfl
  | useItem item ability =>
      refine .oneOf rfl fun _ => .keyword <| .word he.1 fun _ => ?_
      cases ability with
      | none =>
          refine .notEatKeyword (.nil fun _ => Opens.notKeyword) ?_
          exact .notEatKeyword (.nil fun _ => Opens.notKeyword) <| .done fun _ => rfl
      | some name =>
          refine .otherKeyword (by decide) <| .eatKeyword ?_
          exact .word (he.2 name rfl) fun _ => .done fun _ => rfl
  | useItemOnItem tool target interaction =>
      obtain ⟨htool, htarget, hinteraction⟩ := he
      refine .oneOf rfl fun _ => .keyword <| .word htool fun _ => .eatKeyword ?_
      refine .keyword <| .word htarget fun _ => .keyword <| .word hinteraction fun _ => ?_
      exact .done fun _ => rfl
  | actOnItem interaction item =>
      refine .oneOf rfl fun _ => .word he.1 fun _ => .keyword <| .keyword ?_
      exact .word he.2 fun _ => .done fun _ => rfl
  | giveToNpc item npc =>
      refine .oneOf rfl fun _ => .keyword <| .word he.1 fun _ => .keyword <| .keyword ?_
      exact .word he.2 fun _ => .done fun _ => rfl
  | takeFromNpc item npc =>
      refine .oneOf rfl fun _ => .keyword <| .word he.1 fun _ => .eatKeyword <| .keyword ?_
      exact .word he.2 fun _ => .done fun _ => rfl
  | insertItemInto item container =>
      refine .oneOf rfl fun _ => .keyword <| .word he.1 fun _ => .keyword <| .keyword ?_
      exact .word he.2 fun _ => .done fun _ => rfl
  | ingest mode item =>
      cases mode with
      | eat => exact .oneOf rfl fun _ => .keyword <| .word he fun _ => .done fun _ => rfl
      | drink => exact .oneOf rfl fun _ => .keyword <| .word he fun _ => .done fun _ => rfl
      | inhale => exact .oneOf rfl fun _ => .keyword <| .word he fun _ => .done fun _ => rfl

end Grammar

/-! ## Triggers -/

namespace Trigger

/-- What stands between the name of a trigger and its event. -/
def modifiers (t : Trigger) : List Piece :=
  (if t.onlyOnce then [.onlyOnce] else []) ++
    t.notes.flatMap fun s => [.keyword "note", .string s]

def pieces (t : Trigger) : List Piece :=
  .keyword "trigger" :: .string t.name :: (t.modifiers ++
    (.keyword "when" :: (t.event.pieces ++ Piece.braces (Statement.piecesOf t.block))))

/-- A trigger that a source can spell; at most `levels` schedules and condition groups lie inside one
another. -/
structure Writable (levels : Nat) (t : Trigger) : Prop where
  event : t.event.Writable
  nonempty : t.block ≠ []
  block : ∀ s ∈ t.block, s.Writable levels

end Trigger

namespace Grammar

open Takes Shape

variable {c : Context} {K : List Token → Prop}

/-! ## Modifiers -/

/-- What are read as the modifiers of a trigger. -/
structure IsModifiers (onlyOnce : Bool) (notes : List String) (ns : List Node) : Prop where
  rules : ∀ n ∈ ns, n.rule ∈ [.onlyOnce, .note]
  onlyOnce : ns.any (·.rule = .onlyOnce) = onlyOnce
  notes : Shape.notes ns = .ok notes

theorem notes_series {notes : List String} :
    Series c (fun _ => triggerModifier) (notes.flatMap fun s => [.keyword "note", .string s])
      Anything (List.Forall₂ (IsClause .note (Shape.string "note")) notes) := by
  refine .each (fun s _ => .once (by simp) <| atKeyword_cons.mpr <| atKeyword_cons.mpr ?_)
    fun _ _ _ _ _ => trivial
  exact .map (keywordThenString_takes fun _ _ _ => ⟨rfl, rfl⟩) fun n hn => ⟨n, rfl, hn⟩

/-- The modifier `only once`, or nothing. -/
theorem onlyOnce_series {b : Bool} :
    Series c (fun _ => triggerModifier) (if b then [.onlyOnce] else []) Anything fun ns =>
      (∀ n ∈ ns, n.rule = .onlyOnce) ∧ ns.isEmpty = !b := by
  cases b with
  | false => exact .nil ⟨by simp, rfl⟩
  | true =>
      refine (Series.once (P := fun n => n.rule = .onlyOnce) (by simp) <|
        .lookFirst (b := true) (.cons ?_) ?_).mono ?_
      · rintro _ ⟨⟩
        rfl
      · exact .map (.node <| .onlyOnce <| .done fun _ => rfl) fun n hn => ⟨n, rfl, hn⟩
      · rintro _ ⟨n, rfl, hn⟩
        exact ⟨by simpa using hn, rfl⟩

theorem note_of_mem {notes : List String} {ns : List Node}
    (h : List.Forall₂ (IsClause .note (Shape.string "note")) notes ns) :
    ∀ n ∈ ns, n.rule = .note := by
  induction h with
  | nil => simp
  | cons hn _ ih => simpa [hn.rule] using ih

theorem notes_of_clauses {notes : List String} {ns : List Node}
    (h : List.Forall₂ (IsClause .note (Shape.string "note")) notes ns) :
    ns.mapM (fun n => n.parts (Shape.string "note")) = .ok notes := by
  obtain ⟨bs, hbs, heq⟩ := exists_mapM (N := Eq) (h.imp fun s n hn => ⟨s, hn.built, rfl⟩)
  rw [List.forall₂_eq_eq_eq] at heq
  rw [hbs, heq]

theorem isModifiers {b : Bool} {notes : List String} {ks ms : List Node}
    (hks : ∀ n ∈ ks, n.rule = .onlyOnce) (hempty : ks.isEmpty = !b)
    (hms : List.Forall₂ (IsClause .note (Shape.string "note")) notes ms) :
    IsModifiers b notes (ks ++ ms) := by
  have hnote := note_of_mem hms
  refine ⟨fun n hn => ?_, ?_, ?_⟩
  · rcases List.mem_append.mp hn with hn | hn
    · simp [hks n hn]
    · simp [hnote n hn]
  · have hfirst : ks.any (·.rule = .onlyOnce) = b := by
      cases ks with
      | nil => simpa using hempty
      | cons n ks => simpa [hks n (by simp)] using hempty
    have hsecond : ms.any (·.rule = .onlyOnce) = false := by
      simpa using fun n hn => by simp [hnote n hn]
    rw [List.any_append, hfirst, hsecond, Bool.or_false]
  · have hfirst : ks.filter (·.rule = .note) = [] := by
      simpa using fun n hn => by simp [hks n hn]
    have hsecond : ms.filter (·.rule = .note) = ms := by
      simpa using hnote
    rw [Shape.notes, List.filter_append, hfirst, hsecond, List.nil_append, notes_of_clauses hms]

/-- The word `when` follows. -/
def Whens (rest : List Token) : Prop :=
  rest[0]?.any (·.isKeyword "when")

theorem Whens.notKeyword {rest : List Token} {w : String} (h : Whens rest) (hw : w ≠ "when") :
    Without (·.isKeyword w) rest := by
  obtain ⟨t, ht, hkeyword⟩ := (Option.any_eq_true ..).mp h
  have hkind := Token.isKeyword_iff.mp hkeyword
  simp [Without, ht, Token.isKeyword, hkind, hw.symm]

theorem modifiers_takes {t : Trigger} :
    Takes c (many triggerModifier) t.modifiers Whens (IsModifiers t.onlyOnce t.notes) := by
  have hseries := (onlyOnce_series (b := t.onlyOnce)).append (@notes_series c t.notes)
    fun _ _ _ _ => trivial
  refine (hseries.many fun s hs => ⟨trivial, ?_⟩).mono ?_
  · exact (run_atKeyword (hs.notKeyword (by decide))).trans <|
      (run_atKeyword (hs.notKeyword (by decide))).trans rfl
  · rintro _ ⟨ks, ms, rfl, ⟨hks, hempty⟩, hms⟩
    exact isModifiers hks hempty hms

/-! ## Triggers -/

theorem childrenOf_gets {rules : List Rule} {ns : List Node} {n : Node} {cs : List Element}
    (hns : ∀ m ∈ ns, m.rule ∈ rules) (hn : n.rule ∉ rules) :
    Gets (childrenOf rules) (ns.map .node ++ .node n :: cs) ns (.node n :: cs) := by
  let isChild (part : Element) : Bool := part.node?.any fun n => rules.contains n.rule
  have hall : ∀ x ∈ ns.map Element.node, isChild x := by
    simpa [isChild, Element.node?] using hns
  have hstop : isChild (.node n) = false := by
    simpa [isChild, Element.node?] using hn
  have hdrop : (ns.map Element.node ++ .node n :: cs).dropWhile isChild = .node n :: cs := by
    rw [List.dropWhile_append_of_pos hall, List.dropWhile_cons_of_neg (by simp [hstop])]
  have htake : (ns.map Element.node ++ .node n :: cs).takeWhile isChild = ns.map .node := by
    rw [List.takeWhile_append_of_pos hall, List.takeWhile_cons_of_neg (by simp [hstop]),
      List.append_nil]
  intro span
  change Except.ok (Element.nodes ((ns.map Element.node ++ .node n :: cs).takeWhile isChild),
    (ns.map Element.node ++ .node n :: cs).dropWhile isChild) = _
  rw [hdrop, htake, Element.nodes_map]

theorem rule_of_event {n : Node} {e : Event} (h : Shape.event n = .ok e) :
    n.rule ∉ [.onlyOnce, .note] := by
  obtain ⟨r, span, cs⟩ := n
  intro hmem
  simp only [Node.rule, List.mem_cons, List.not_mem_nil, or_false] at hmem
  rcases hmem with rfl | rfl <;> cases h

theorem trigger_takes {t : Trigger} {levels : Nat} (ht : t.Writable levels) :
    Takes c (Grammar.trigger levels) t.pieces K (Says levels (.trigger t)) := by
  have hblock : Takes c (statements (condition levels .standalone) (action levels))
      (Piece.braces (Statement.piecesOf t.block)) K
      (IsBlock (Shape.statements (Shape.condition levels levels) (Shape.action levels levels))
        t.block) :=
    statements_takes ht.nonempty ht.block (fun x hx => condition_takes hx) fun a ha =>
      action_takes ha
  refine .node <| .keyword <| .string fun _ _ => .bind modifiers_takes (fun ns hns => ?_) ?_
  · refine .eatKeyword <| .bind (event_takes ht.event) (fun e he => .last ?_) fun us rest hus _ => ?_
    · refine hblock.mono ?_
      rintro ⟨_, place, cs⟩ ⟨rfl, hbuilt⟩ span
      refine Builds.bind (Q := fun t' => t'.withoutSpans = t.withoutSpans) ?_ fun t' ht' =>
        .done (congrArg Definition.trigger ht')
      refine .lift (a := (t.name, ns, t.notes, t.event, .mk .triggerBlock place cs))
        (Gets.all_parts ?_) (hbuilt.bind fun b hb => .done ?_)
      · refine .bind (fun _ => rfl) <| .bind (childrenOf_gets hns.rules (rule_of_event he)) ?_
        exact .lift hns.notes <| .bind (fun _ => rfl) <| .lift he <| .bind (fun _ => rfl) fun _ => rfl
      · simp only [Trigger.withoutSpans, hb, hns.onlyOnce]
    · rw [Opens, hus.mark_isMark (i := 0) rfl]
      rfl
  · intro us rest hus _
    rw [Whens, hus.keyword_isKeyword (i := 0) rfl]
    rfl

end Grammar

end Storyworld
