import Storyworld.Condition.Shape
import Storyworld.Proofs.Grammar.Triggers
import Storyworld.Proofs.Spelling.Phrase
import Storyworld.Proofs.Token.Lexer

namespace Storyworld

/-! How conditions are spelled. -/

namespace Query

def pieces : Query → List Piece
  | hasFlag flag => [.keyword "has", .keyword "flag", .word flag.name]
  | missingFlag flag => [.keyword "missing", .keyword "flag", .word flag.name]
  | hasItem item => [.keyword "has", .keyword "item", .word item.name]
  | missingItem item => [.keyword "missing", .keyword "item", .word item.name]
  | hasVisited room => [.keyword "has", .keyword "visited", .keyword "room", .word room.name]
  | flagInProgress flag => [.keyword "flag", .keyword "in", .keyword "progress", .word flag.name]
  | flagComplete flag => [.keyword "flag", .keyword "complete", .word flag.name]
  | withNpc npc => [.keyword "with", .keyword "npc", .word npc.name]
  | npcHasItem npc item =>
    [.keyword "npc", .keyword "has", .keyword "item", .word npc.name, .word item.name]
  | npcInState npc state =>
    .keyword "npc" :: .keyword "in" :: .keyword "state" :: .word npc.name :: state.pieces
  | playerInRoom room => [.keyword "player", .keyword "in", .keyword "room", .word room.name]
  | containerHasItem container item =>
    [.keyword "container", .word container.name, .keyword "has", .keyword "item", .word item.name]
  | chance percent => [.keyword "chance", .number (.ofNat percent.toNat), .mark .percent]
  | ambient spinner rooms =>
    .keyword "ambient" :: .word spinner.name ::
      rooms.toList.flatMap fun l => .keyword "in" :: .keyword "rooms" :: Piece.ids l
  | inRooms rooms => .keyword "in" :: .keyword "rooms" :: Piece.ids rooms

/-- A room list that a source can spell. Inside a group a room that reads like the beginning of a
condition would be taken for one. -/
structure RoomsWritable (place : Grammar.Place) (rooms : List (Id .room)) : Prop where
  nonempty : rooms ≠ []
  each : ∀ r ∈ rooms, r.Writable
  told : place = .grouped → ∀ r ∈ rooms.tail, r.name ∉ Grammar.conditionStarters

/-- A condition that a source can spell where `place` says. -/
def Writable (place : Grammar.Place) : Query → Prop
  | hasFlag flag | missingFlag flag | flagInProgress flag | flagComplete flag => flag.Writable
  | hasItem item | missingItem item => item.Writable
  | hasVisited room | playerInRoom room => room.Writable
  | withNpc npc => npc.Writable
  | npcHasItem npc item => npc.Writable ∧ item.Writable
  | npcInState npc state => npc.Writable ∧ state.Writable
  | containerHasItem container item => container.Writable ∧ item.Writable
  | chance percent => 1 ≤ percent ∧ percent ≤ 100
  | ambient spinner rooms => spinner.Writable ∧ ∀ l ∈ rooms, RoomsWritable place l
  | inRooms rooms => RoomsWritable place rooms

end Query

namespace Condition

mutual

def pieces : Condition → List Piece
  | single query => query.pieces
  | any members => .keyword "any" :: Piece.parens (piecesOf members)
  | all members => .keyword "all" :: Piece.parens (piecesOf members)

/-- The members of a group with commas between them. -/
def piecesOf : List Condition → List Piece
  | [] => []
  | m :: ms => m.pieces ++ piecesBehind ms

/-- The members of a group behind its first one. -/
def piecesBehind : List Condition → List Piece
  | [] => []
  | m :: ms => .mark .comma :: (m.pieces ++ piecesBehind ms)

end

/-- A condition that a source can spell where `place` says; at most `levels` groups lie inside one
another. -/
def Writable : (levels : Nat) → Grammar.Place → Condition → Prop
  | _, place, single query => query.Writable place
  | 0, _, any _ | 0, _, all _ => False
  | levels + 1, _, any members | levels + 1, _, all members =>
    members ≠ [] ∧ ∀ m ∈ members, Writable levels .grouped m

theorem piecesOf_eq (ms : List Condition) : piecesOf ms = Piece.commas pieces ms := by
  have hbehind (ms : List Condition) :
      piecesBehind ms = ms.flatMap fun m => .mark .comma :: m.pieces := by
    induction ms with
    | nil => rfl
    | cons m ms ih => simp [piecesBehind, ih]
  cases ms with
  | nil => rfl
  | cons m ms => rw [piecesOf, hbehind, Piece.commas]

end Condition

namespace Grammar

open Takes

variable {c : Context} {place : Place}

/-! ## Room lists -/

/-- What can follow a condition. Behind a member of a group a comma leads to the next member. -/
structure Ends (place : Place) (rest : List Token) : Prop where
  noRooms : Without (·.isKeyword "in") rest
  comma : rest[0]?.any (·.isMark .comma) →
    place = .grouped ∧ rest[1]?.any (·.isOneOf conditionStarters)

/-- Whether what follows a comma continues a room list. -/
def listGoesOn (place : Place) (rest : List Token) : Bool :=
  place = .standalone || rest[1]?.any fun t => t.isWord && !t.isOneOf conditionStarters

theorem continuesRooms_eq : continuesRooms place = looking (listGoesOn place) := by
  cases place <;> rfl

theorem Ends.stop {rest : List Token} (h : Ends place rest) :
    (rest[0]?.any (·.isMark .comma) && listGoesOn place rest) = false := by
  by_cases hcomma : rest[0]?.any (·.isMark .comma)
  · obtain ⟨rfl, hnext⟩ := h.comma hcomma
    obtain ⟨t, ht, hone⟩ := (Option.any_eq_true ..).mp hnext
    simp [listGoesOn, ht, hone]
  · simp [hcomma]

theorem goesOn_of_room {r : Id .room} {ts rest : List Token} (hr : r.Writable)
    (htold : place = .grouped → r.name ∉ conditionStarters)
    (hts : Spelled [.mark .comma, .word r.name] ts) : listGoesOn place (ts ++ rest) := by
  obtain ⟨t, us, rfl, -, hus⟩ := hts.cons_inv
  obtain ⟨u, vs, rfl, hu, -⟩ := hus.cons_inv
  cases hu with
  | word span =>
  cases place with
  | standalone => rfl
  | grouped =>
      have hone : Token.isOneOf conditionStarters
          ⟨Token.Kind.ofWord r.name.toList, span, r.name⟩ = false := by
        rw [Bool.eq_false_iff, ne_eq, Token.isOneOf_iff]
        rintro ⟨w, hw, hk⟩
        rw [← Token.ofWord_keyword hk, String.ofList_toList] at hw
        exact htold rfl hw
      simp [listGoesOn, hr.isWord, hone]

theorem roomList_takes {l : List (Id .room)} (hl : Query.RoomsWritable place l) :
    Takes c (roomList place) (Piece.ids l) (Ends place) (IsIds l) := by
  rw [roomList, continuesRooms_eq]
  cases l with
  | nil => exact absurd rfl hl.nonempty
  | cons r l =>
      refine .node <| (Takes.commaSeparated (K := Anything) (fun i hi => word_takes (hl.each i hi))
        (fun i hi ts rest hts => ⟨?_, trivial⟩) fun rest hrest => ⟨trivial, hrest.stop⟩).map
        fun ts hts span => isIds_of_tokens hl.nonempty hts span
      exact goesOn_of_room (hl.each i (by simp [hi])) (fun h => hl.told h i hi) hts

/-! ## Single questions -/

theorem chance_ofNat {percent : UInt8} (h : 1 ≤ percent ∧ percent ≤ 100) (span : Span) :
    Shape.chance (.ofNat percent.toNat) span = .ok percent := by
  have hpercent := percent.toNat_lt
  have hint : (Int64.ofNat percent.toNat).toInt = percent.toNat :=
    Int64.toInt_ofNat_of_lt (by omega)
  have hlow : 1 ≤ percent.toNat := UInt8.le_iff_toNat_le.mp h.1
  have hhigh : percent.toNat ≤ 100 := UInt8.le_iff_toNat_le.mp h.2
  rw [Shape.chance, hint, if_pos (by omega)]
  simp

theorem conditionOver_single {n : Node} {q : Query} {member : Node → Except ShapeFault Condition}
    (hany : n.rule ≠ .condAny) (hall : n.rule ≠ .condAll) (h : Shape.query n = .ok q) :
    Shape.conditionOver member n = .ok (.single q) := by
  rw [Shape.conditionOver, if_neg (by simp [hany, hall]), h]
  rfl

theorem query_takes {q : Query} (hq : q.Writable place) :
    Takes c (query place) q.pieces (Ends place) fun p =>
      ∀ span member, Shape.conditionOver member (.mk p.1 span p.2) = .ok (.single q) := by
  cases q with
  | hasFlag flag => exact .eatKeyword <| .oneOf rfl fun _ => .word hq fun _ => .done fun _ _ => rfl
  | missingFlag flag =>
      refine .otherKeyword (by decide) <| .eatKeyword ?_
      exact .oneOf rfl fun _ => .word hq fun _ => .done fun _ _ => rfl
  | hasItem item => exact .eatKeyword <| .oneOf rfl fun _ => .word hq fun _ => .done fun _ _ => rfl
  | missingItem item =>
      refine .otherKeyword (by decide) <| .eatKeyword ?_
      exact .oneOf rfl fun _ => .word hq fun _ => .done fun _ _ => rfl
  | hasVisited room =>
      refine .eatKeyword <| .oneOf rfl fun _ => .keyword ?_
      exact .word hq fun _ => .done fun _ _ => rfl
  | flagInProgress flag =>
      iterate 2 refine .otherKeyword (by decide) ?_
      refine .eatKeyword <| .eatKeyword <| .keyword ?_
      exact .word hq fun _ => .done fun _ _ => rfl
  | flagComplete flag =>
      iterate 2 refine .otherKeyword (by decide) ?_
      refine .eatKeyword <| .otherKeyword (by decide) <| .oneOf rfl fun _ => ?_
      exact .word hq fun _ => .done fun _ _ => rfl
  | withNpc npc =>
      iterate 3 refine .otherKeyword (by decide) ?_
      exact .eatKeyword <| .keyword <| .word hq fun _ => .done fun _ _ => rfl
  | npcHasItem npc item =>
      iterate 4 refine .otherKeyword (by decide) ?_
      refine .eatKeyword <| .eatKeyword <| .keyword <| .word hq.1 fun _ => ?_
      exact .word hq.2 fun _ => .done fun _ _ => rfl
  | npcInState npc state =>
      iterate 4 refine .otherKeyword (by decide) ?_
      refine .eatKeyword <| .otherKeyword (by decide) <| .oneOf rfl fun _ => .keyword ?_
      refine .word hq.1 fun _ => (mood_takes hq.2).map fun n hn span member => ?_
      refine conditionOver_single nofun nofun (Shape.Gets.all_parts ?_)
      exact .bind (fun _ => rfl) <| .bind (fun _ => rfl) <| .lift hn.lenient fun _ => rfl
  | playerInRoom room =>
      iterate 5 refine .otherKeyword (by decide) ?_
      exact .eatKeyword <| .keyword <| .keyword <| .word hq fun _ => .done fun _ _ => rfl
  | containerHasItem container item =>
      iterate 6 refine .otherKeyword (by decide) ?_
      refine .eatKeyword <| .word hq.1 fun _ => .keyword <| .keyword ?_
      exact .word hq.2 fun _ => .done fun _ _ => rfl
  | chance percent =>
      iterate 7 refine .otherKeyword (by decide) ?_
      refine .eatKeyword <| .number fun _ => .mark rfl <| .done fun span member => ?_
      refine conditionOver_single nofun nofun (Shape.Gets.all_parts ?_)
      exact .bind number_gets <| .lift (chance_ofNat hq _) fun _ => rfl
  | ambient spinner rooms =>
      iterate 8 refine .otherKeyword (by decide) ?_
      refine .eatKeyword <| .word hq.1 fun _ => ?_
      change Takes c (ambientRooms _ place) _ _ _
      cases rooms with
      | none =>
          refine .look _ (b := false) (fun ts rest hts hrest => ?_) <| .done fun _ _ => rfl
          cases hts
          have hin := hrest.noRooms
          unfold Without at hin
          simp [hin]
      | some l =>
          rw [Option.toList_some, List.flatMap_singleton]
          refine .look _ (b := true) (fun ts rest hts _ => ?_) ?_
          · rw [hts.keyword_isKeyword rfl, hts.keyword_isKeyword rfl]
            rfl
          · refine .keyword <| .keyword <| (roomList_takes (hq.2 l rfl)).map fun n hn span member => ?_
            refine conditionOver_single nofun nofun (Shape.Gets.all_parts ?_)
            refine .bind (fun _ => rfl) <| .bind (childOf_gets (by simp [hn.rule])) ?_
            exact .lift (hn.built _) fun _ => rfl
  | inRooms rooms =>
      iterate 9 refine .otherKeyword (by decide) ?_
      refine .eatKeyword <| .keyword <| (roomList_takes hq).map fun n hn span member => ?_
      refine conditionOver_single nofun nofun (Shape.Gets.all_parts ?_)
      exact .bind (fun _ => rfl) <| .lift (hn.built _) fun _ => rfl

/-! ## Groups -/

theorem startWith_of_query (q : Query) : Piece.startWith conditionStarters q.pieces := by
  cases q <;> rfl

theorem startWith_of_condition (m : Condition) :
    Piece.startWith conditionStarters m.pieces := by
  cases m with
  | single q =>
      rw [Condition.pieces]
      exact startWith_of_query q
  | any members => rw [Condition.pieces]; rfl
  | all members => rw [Condition.pieces]; rfl

theorem ends_of_closeParen {t : Token} {rest : List Token} (h : t.isMark .closeParen) :
    Ends .grouped (t :: rest) := by
  refine ⟨?_, fun hcomma => ?_⟩
  · simpa [Without] using Token.isKeyword_of_isMark h
  · have hmark := Token.isMark_iff.mp h
    simp [Token.isMark, hmark] at hcomma

theorem ends_of_member {m : Condition} {ts rest : List Token}
    (hts : Spelled (.mark .comma :: m.pieces) ts) : Ends .grouped (ts ++ rest) := by
  obtain ⟨t, us, rfl, ht, hus⟩ := hts.cons_inv
  obtain ⟨u, vs, rfl, hu⟩ := hus.isOneOf_head (startWith_of_condition m)
  cases ht
  exact ⟨rfl, fun _ => ⟨rfl, by simpa using hu⟩⟩

theorem single_takes {q : Query} {member : Parse Node} (hq : q.Writable place) :
    Takes c (conditionOver member place) q.pieces (Ends place) fun n =>
      ∀ build, Shape.conditionOver build n = .ok (.single q) := by
  refine .nodeBy <| .atOneOf (b := false) ?_ <| (query_takes hq).mono fun _ h => h
  cases q <;> exact begins_otherwise (by decide)

theorem group_takes {group : List Condition → Condition} {w : String} {ms : List Condition}
    {member : Parse Node} {build : Node → Except ShapeFault Condition} {K : List Token → Prop}
    (hgroup : w = "any" ∧ group = .any ∨ w = "all" ∧ group = .all) (hms : ms ≠ [])
    (h : ∀ m ∈ ms, Takes c member m.pieces (Ends .grouped) fun n => build n = .ok m) :
    Takes c (conditionOver member place)
      (.keyword w :: Piece.parens (Condition.piecesOf ms)) K fun n =>
      Shape.conditionOver build n = .ok (group ms) := by
  obtain ⟨m, ms, rfl⟩ := List.exists_cons_of_ne_nil hms
  have hmembers : Takes c (parenthesized member) (Piece.parens (Condition.piecesOf (m :: ms))) K
      (List.Forall₂ (fun m n => build n = .ok m) (m :: ms)) := by
    rw [Condition.piecesOf_eq]
    refine .parenthesized h (fun _ _ _ _ => ends_of_member) (fun _ _ => ends_of_closeParen) ?_ ?_
    · exact Piece.ne_nil_of_startWith (startWith_of_condition m)
    · intro ts rest hts _
      obtain ⟨t, us, rfl, ht⟩ := hts.isOneOf_head (startWith_of_condition m)
      simp [Token.isMark_of_isOneOf ht]
  have hbuilt {r : Rule} {span : Span} {ns : List Node}
      (hns : List.Forall₂ (fun m n => build n = .ok m) (m :: ms) ns) :
      (Node.mk r span (ns.map .node)).nodes.mapM build = .ok (m :: ms) := by
    obtain ⟨ms', hbuilt, hms'⟩ := Shape.exists_mapM (N := Eq) (hns.imp fun m _ hn => ⟨m, hn, rfl⟩)
    rw [List.forall₂_eq_eq_eq] at hms'
    rw [Node.nodes, Node.children, Element.nodes_map, hbuilt, hms']
  rcases hgroup with ⟨rfl, rfl⟩ | ⟨rfl, rfl⟩
  all_goals
    refine .nodeBy <| atOneOf_cons.mpr <| .oneOf rfl fun _ => hmembers.map fun ns hns span => ?_
    simp [Shape.conditionOver, hbuilt hns, Node.rule]
    rfl

/-- A condition is read as it is spelled. -/
theorem condition_takes {levels limit : Nat} {m : Condition} (hm : m.Writable levels place) :
    Takes c (condition levels place) m.pieces (Ends place) fun n =>
      Shape.condition limit levels n = .ok m := by
  induction levels generalizing place m with
  | zero =>
      cases m with
      | single q =>
          rw [Condition.pieces]
          exact (single_takes (q := q) (by simpa [Condition.Writable] using hm)).mono fun n h => h _
      | any members => exact hm.elim
      | all members => exact hm.elim
  | succ levels ih =>
      cases m with
      | single q =>
          rw [Condition.pieces]
          exact (single_takes (q := q) (by simpa [Condition.Writable] using hm)).mono fun n h => h _
      | any members =>
          rw [Condition.pieces]
          exact group_takes (.inl ⟨rfl, rfl⟩) hm.1 fun m hmem => ih (hm.2 m hmem)
      | all members =>
          rw [Condition.pieces]
          exact group_takes (.inr ⟨rfl, rfl⟩) hm.1 fun m hmem => ih (hm.2 m hmem)

end Grammar

end Storyworld
