import Storyworld.Proofs.Spelling.Overlay

namespace Storyworld

/-! How rooms and names for several rooms are spelled. -/

namespace RoomSet

def pieces (s : RoomSet) : List Piece :=
  .keyword "let" :: .keyword "set" :: .word s.name.name :: .mark .equals ::
    Piece.parens (Piece.ids s.rooms)

/-- A name for several rooms that a source can spell. -/
structure Writable (s : RoomSet) : Prop where
  name : s.name.Writable
  nonempty : s.rooms ≠ []
  rooms : ∀ r ∈ s.rooms, r.Writable

end RoomSet

namespace Exit

/-- The options of an exit. -/
def options (e : Exit) : List Piece :=
  (if e.requiredItems ≠ [] then
    .keyword "required_items" :: Piece.parens (Piece.ids e.requiredItems) else []) ++
  (if e.requiredFlags ≠ [] then
    .keyword "required_flags" :: Piece.parens (Piece.ids e.requiredFlags) else []) ++
  (e.barred.toList.flatMap fun message => [.keyword "barred", .string message]) ++
  (if e.hidden then [.keyword "hidden"] else []) ++
  (if e.locked then [.keyword "locked"] else [])

/-- Braces stand only around options. -/
def pieces (e : Exit) : List Piece :=
  .keyword "exit" :: .string e.direction :: .mark .arrow :: .word e.target.name ::
    if e.options ≠ [] then Piece.braces e.options else []

/-- An exit that a source can spell. -/
structure Writable (e : Exit) : Prop where
  target : e.target.Writable
  requiredItems : ∀ i ∈ e.requiredItems, i.Writable
  requiredFlags : ∀ i ∈ e.requiredFlags, i.Writable

end Exit

namespace Room

/-- The statements of a room. -/
def body (r : Room) : List Piece :=
  (r.name.toList.flatMap fun s => [.keyword "name", .string s]) ++
  (r.desc.toList.flatMap fun s => [.keyword "desc", .string s]) ++
  (r.visited.toList.flatMap fun b => [.keyword "visited", .boolean b]) ++
  r.exits.flatMap Exit.pieces ++ r.overlays.flatMap Overlay.pieces

def pieces (r : Room) : List Piece :=
  .keyword "room" :: .word r.id.name :: Piece.braces r.body

/-- A room that a source can spell. -/
structure Writable (r : Room) : Prop where
  id : r.id.Writable
  exits : ∀ e ∈ r.exits, e.Writable
  overlays : ∀ o ∈ r.overlays, o.kind.Writable

end Room

namespace Grammar

open Takes Shape

variable {c : Context} {K : List Token → Prop}

theorem roomSet_takes {s : RoomSet} {limit : Nat} (hs : s.Writable) :
    Takes c Grammar.roomSet s.pieces K (Says limit (.roomSet s)) := by
  refine .node <| .keyword <| .keyword <| .word hs.name fun _ => .mark rfl <| .last ?_
  refine (idList_takes hs.nonempty hs.rooms).mono fun n hn span => ?_
  refine .lift (a := { s with span }) ?_ <| .done rfl
  exact ok_bind rfl <| ok_bind (hn.built _) rfl

/-! ## Exits -/

/-- An option stands alone or before a comma, which is not there. -/
theorem exitOption_takes {ps : List Piece} {N : Node → Prop}
    (h : Takes c Grammar.exitOption ps (EndsIn exitOptionStarters) N) :
    Takes c (do let option ← Grammar.exitOption; discard (eatMark .comma); return option) ps
      (EndsIn exitOptionStarters) N := by
  refine .before h <| .map (Q := fun _ => True) ?_ fun _ _ => trivial
  rw [← bind_pure (eatMark .comma)]
  exact .notEatMark (.nil fun _ hrest => hrest.notMark (by decide)) <| .done trivial

theorem exitOptions_clauses {e : Exit} (he : e.Writable) :
    Clauses c exitOptionStarters (starting exitOptionStarters (do
      let option ← Grammar.exitOption
      discard (eatMark .comma)
      return option)) e.options (TellsEach e Exit.fields) := by
  simp only [Exit.options, List.append_assoc]
  refine .next (.together rfl rfl ?items) <| .next (.together rfl rfl ?flags) <|
    .next (.slot rfl (fun _ _ => rfl) ?barred) <| .next (.flag rfl rfl ?hidden) <|
    .last (.flag rfl rfl ?locked)
  case items =>
    refine fun hne => exitOption_takes <| atKeyword_cons.mpr <| .node <| .keyword <| .last ?_
    refine (idList_takes hne he.requiredItems).mono fun n hn _ => ?_
    exact ⟨List.mem_singleton_self _, heldBy_of_node hn.told⟩
  case flags =>
    refine fun hne => exitOption_takes <| atKeyword_cons.mpr <| atKeyword_cons.mpr <| .node <|
      .keyword <| .last ?_
    refine (idList_takes hne he.requiredFlags).mono fun n hn _ => ?_
    exact ⟨List.mem_singleton_self _, heldBy_of_node hn.told⟩
  case barred =>
    refine fun message _ => exitOption_takes ?_
    iterate 3 refine atKeyword_cons.mpr ?_
    exact keywordThenString_tells
  case hidden =>
    refine fun _ => exitOption_takes ?_
    iterate 4 refine atKeyword_cons.mpr ?_
    exact .node <| .keyword <| .done fun _ => List.mem_singleton_self _
  case locked =>
    refine fun _ => exitOption_takes ?_
    iterate 4 refine atKeyword_cons.mpr ?_
    exact .node <| .keyword <| .done fun _ => List.mem_singleton_self _

theorem exit_tells {e : Exit} (he : e.Writable) :
    Takes c Grammar.exit e.pieces (EndsIn roomStarters) fun n =>
      n.rule ∈ [.exit] ∧ SaysUpTo Exit.withoutSpan Exit.Reflects e n := by
  refine .node <| .keyword <| .quoted fun _ _ => .mark rfl <| .word he.target fun _ => ?_
  have hoptions := exitOptions_clauses (c := c) he
  split_ifs with hnone
  · refine .atMark (b := true) (.cons ?_) <| .last <| .node <| ?_
    · rintro _ ⟨⟩
      simp [Token.isMark]
    refine .last <| (blockOf_takes hoptions).mono fun ns hns span span' => ?_
    refine ⟨List.mem_singleton_self _, { e with span := span' }, rfl, _, _, _, rfl, rfl, rfl, rfl,
      ?_⟩
    have hnodes : Storyworld.exitOptions [.node (.mk .exitBlock span (ns.map .node))] = ns :=
      Element.nodes_map ns
    rw [hnodes]
    exact (hns.gathers Exit.goesBy.lawful.rules).congr (by simp [Exit.fields])
  · refine .atMark (b := false) (.nil fun _ hrest => hrest.notMark (by decide)) ?_
    refine .done fun span => ?_
    refine ⟨List.mem_singleton_self _, { e with span }, rfl, _, _, _, rfl, rfl, rfl, rfl, ?_⟩
    refine gathers_nil.mpr ?_
    clear hoptions
    cases hbarred : e.barred <;>
      simp_all [Exit.options, Exit.fields, Keeping.slot, Keeping.joined, Keeping.flag]

/-! ## Rooms -/

/-- Overlays that are spelled are read, wherever they stand. -/
theorem overlays_clauses {os : List Overlay} (hos : ∀ o ∈ os, o.kind.Writable) :
    Clauses c roomStarters (starting roomStarters Grammar.roomStatement) (os.flatMap Overlay.pieces)
      (List.Forall₂ IsOverlay os) := by
  refine .list (fun _ _ => rfl) fun o ho => ?_
  refine atKeyword_cons.mpr <| atOneOf_cons.mpr <| atKeyword_cons.mpr <| atKeyword_cons.mpr ?_
  exact overlay_takes (hos o ho)

/-- Overlays behind other statements lengthen those of a room. -/
theorem tells_overlays {r : Room} {os : List Overlay} {ns ms : List Node}
    (h : TellsEach r Room.fields ns) (hms : List.Forall₂ Overlay.BuiltFrom os ms) :
    TellsEach { r with overlays := r.overlays ++ os } Room.fields (ns ++ ms) := by
  obtain ⟨ks, _, rfl, hks, hlast⟩ :=
    (show TellsEach r (Room.fields.take 4 ++ Room.fields.drop 4) ns from h).append_inv
  cases hlast with
  | @cons _ _ ls _ hls hnil =>
  cases hnil
  rw [List.append_assoc, List.append_nil]
  obtain ⟨hrules, hms⟩ := says_values (hms.imp fun _ _ ho => ⟨Room.makes_overlay ho, ho⟩)
  have hmore : Field.Tells Room.fields[4] { r with overlays := r.overlays ++ os } (ls ++ ms) :=
    ⟨List.forall_mem_append.mpr ⟨hls.rules, hrules⟩, List.rel_append hls.holds hms⟩
  exact (hks.congr (by simp [Room.fields])).append (.one hmore)

theorem roomBody_clauses {r : Room} (hr : r.Writable) :
    Clauses c roomStarters (starting roomStarters Grammar.roomStatement) r.body fun ns =>
      ∃ r' : Room, r'.withoutSpans = r.withoutSpans ∧ TellsEach r' Room.fields ns := by
  rw [Room.body, List.append_assoc _ (r.exits.flatMap _)]
  refine .upTo (b := r) 3 ?same ?slots ?lists
  case same =>
    intro r' hr'
    simp_all [Room.fields, Room.withoutSpans]
  case slots =>
    rw [List.append_assoc]
    refine .next (.slot rfl (fun _ _ => rfl) ?name) <| .next (.slot rfl (fun _ _ => rfl) ?desc) <|
      .last (.slot rfl (fun _ _ => rfl) ?visited)
    case name => exact fun s _ => atKeyword_cons.mpr keywordThenString_tells
    case desc => exact fun s _ => atKeyword_cons.mpr <| atOneOf_cons.mpr description_tells
    case visited =>
      refine fun b _ => atKeyword_cons.mpr <| atOneOf_cons.mpr <| atKeyword_cons.mpr ?_
      exact keywordThenBoolean_tells
  case lists =>
    have hexits : ∀ e ∈ r.exits,
        Takes c Grammar.roomStatement e.pieces (EndsIn roomStarters) fun n =>
          n.rule ∈ [.exit] ∧ SaysUpTo Exit.withoutSpan Exit.Reflects e n := by
      refine fun e he => atKeyword_cons.mpr <| atOneOf_cons.mpr ?_
      iterate 2 refine atKeyword_cons.mpr ?_
      exact exit_tells (hr.exits e he)
    refine ((Clauses.list (fun _ _ => rfl) hexits).append (overlays_clauses hr.overlays)).mono ?_
    rintro _ ⟨ks, ms, rfl, hks, hms⟩
    obtain ⟨hrules, hks⟩ := says_values hks
    obtain ⟨es, hes, hks⟩ := SaysUpTo.exists_values hks
    obtain ⟨os, hos, hms⟩ := SaysUpTo.exists_values hms
    refine ⟨{ r with exits := es, overlays := os }, by simp [Room.withoutSpans, hes, hos], ?_⟩
    exact .cons ⟨hrules, hks⟩ <| .one <| .list <| hms.imp fun _ _ ho => ⟨Room.makes_overlay ho, ho⟩

/-- Statements that tell a room say the same as the room. -/
theorem says_room {r r' : Room} {limit : Nat} {ns : List Node} {kind : Token.Kind} {span place : Span}
    (hr : r'.withoutSpans = r.withoutSpans) (h : TellsEach r' Room.fields ns) :
    Says limit (.room r) (.mk .roomDef span (.token ⟨kind, place, r.id.name⟩ :: ns.map .node)) := by
  have hid : r'.id = r.id := (Room.mk.inj hr).1
  refine says_of_makes (x := { r' with span }) rfl
    (Room.makes_iff.mpr ⟨⟨_, _, rfl, hid ▸ rfl⟩, rfl, ?_⟩) (congrArg Definition.room hr)
  rw [nodes_named]
  exact (h.gathers Room.goesBy.lawful.rules).congr (by simp [Room.fields])

theorem room_takes {r : Room} {limit : Nat} (hr : r.Writable) :
    Takes c Grammar.room r.pieces K (Says limit (.room r)) := by
  refine .node <| .keyword <| .word hr.id fun _ => (blockOf_takes (roomBody_clauses hr)).map ?_
  rintro ns ⟨r', hr', hns⟩ span
  exact says_room hr' hns

end Grammar

end Storyworld
