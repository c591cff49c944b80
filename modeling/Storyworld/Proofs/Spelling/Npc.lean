import Storyworld.Npc.Grammar
import Storyworld.Proofs.Spelling.Phrase

namespace Storyworld

/-! How npcs are spelled. -/

namespace Npc.Location

def pieces : Npc.Location → List Piece
  | room id => [.keyword "location", .keyword "room", .word id.name]
  | nowhere note => [.keyword "location", .keyword "nowhere", .string note]

/-- A location that a source can spell. -/
def Writable : Npc.Location → Prop
  | room id => id.Writable
  | nowhere _ => True

end Npc.Location

namespace MovementKind

/-- How a source spells the kind. -/
def word : MovementKind → String
  | route => "route"
  | random => "random"

end MovementKind

namespace Movement

/-- What stands behind the rooms. -/
def options (m : Movement) : List Piece :=
  (m.timing.toList.flatMap fun t => [.keyword "timing", .word t.name]) ++
  (m.active.toList.flatMap fun b => [.keyword "active", .boolean b]) ++
  m.loopRoute.toList.flatMap fun b => [.keyword "loop", .boolean b]

def pieces (m : Movement) : List Piece :=
  .keyword "movement" :: .keyword m.kind.word :: .keyword "rooms" ::
    (Piece.parens (Piece.ids m.rooms) ++ m.options)

/-- A movement that a source can spell. -/
structure Writable (m : Movement) : Prop where
  nonempty : m.rooms ≠ []
  rooms : ∀ r ∈ m.rooms, r.Writable
  timing : ∀ t ∈ m.timing, t.Writable

end Movement

namespace Dialogue

def pieces (d : Dialogue) : List Piece :=
  .keyword "dialogue" :: (d.state.pieces ++ Piece.braces (d.lines.flatMap fun l => [.string l]))

/-- A dialogue that a source can spell. -/
structure Writable (d : Dialogue) : Prop where
  state : d.state.Writable
  nonempty : d.lines ≠ []

end Dialogue

namespace Npc

/-- The statements of an npc. -/
def body (n : Npc) : List Piece :=
  (n.name.toList.flatMap fun s => [.keyword "name", .string s]) ++
  (n.desc.toList.flatMap fun s => [.keyword "desc", .string s]) ++
  (n.location.toList.flatMap Npc.Location.pieces) ++
  (n.state.toList.flatMap fun m => .keyword "state" :: m.pieces) ++
  (n.movement.toList.flatMap Movement.pieces) ++
  n.dialogue.flatMap Dialogue.pieces

def pieces (n : Npc) : List Piece :=
  .keyword "npc" :: .word n.id.name :: Piece.braces n.body

/-- An npc that a source can spell. -/
structure Writable (n : Npc) : Prop where
  id : n.id.Writable
  someField : ¬(n.name = none ∧ n.desc = none ∧ n.location = none ∧ n.state = none ∧
    n.movement = none ∧ n.dialogue = [])
  location : ∀ l ∈ n.location, l.Writable
  state : ∀ m ∈ n.state, m.Writable
  movement : ∀ m ∈ n.movement, m.Writable
  dialogue : ∀ d ∈ n.dialogue, d.Writable

end Npc

namespace Grammar

open Takes Shape

variable {c : Context} {K : List Token → Prop}

/-! ## Movement -/

theorem movementOptions_takes {m : Movement} (hm : m.Writable) :
    Takes c (many Grammar.movementOption) m.options (EndsIn npcStarters)
      (TellsEach m Movement.fields) := by
  rw [Movement.options, List.append_assoc]
  refine Series.many (K := Anything) (.next (.slot rfl (fun _ _ => by simp) ?timing) <|
    .next (.slot rfl (fun _ _ => by simp) ?active) <|
    .last (.slot rfl (fun _ _ => by simp) ?loop)) ?stop
  case timing =>
    refine fun t ht => atKeyword_cons.mpr <| .map (.node <| .keyword <|
      .word (hm.timing t ht) fun _ => .done fun span => ?_) fun n hn => ⟨n, rfl, hn⟩
    exact ⟨List.mem_singleton_self _, _, _, rfl, rfl⟩
  case active =>
    exact fun b _ => atKeyword_cons.mpr <| atKeyword_cons.mpr <|
      .map keywordThenBoolean_tells fun n hn => ⟨n, rfl, hn⟩
  case loop =>
    exact fun b _ => atKeyword_cons.mpr <| atKeyword_cons.mpr <| atKeyword_cons.mpr <|
      .map keywordThenBoolean_tells fun n hn => ⟨n, rfl, hn⟩
  case stop =>
    intro s hs
    exact ⟨trivial, (run_atKeyword (hs.notKeyword (by decide))).trans <|
      (run_atKeyword (hs.notKeyword (by decide))).trans <|
      (run_atKeyword (hs.notKeyword (by decide))).trans rfl⟩

theorem movement_tells {m : Movement} (hm : m.Writable) :
    Takes c Grammar.movement m.pieces (EndsIn npcStarters) fun n =>
      n.rule ∈ [.npcMovement] ∧ m.Reflects n := by
  refine .node <| .keyword <| .oneOf (by cases m.kind <;> rfl) fun _ => .keyword ?_
  refine .andThen (idList_takes hm.nonempty hm.rooms) fun list hlist => .last ?_
  refine (movementOptions_takes hm).mono fun ns hns span => ⟨List.mem_singleton_self _, ?_⟩
  refine ⟨_, _, _, rfl, by cases m.kind <;> rfl, hlist.told, ?_⟩
  rw [Element.nodes_map]
  exact hns.gathers Movement.goesBy.lawful.rules

/-! ## Dialogue -/

theorem dialogueLine_takes {l : String} :
    Takes c dialogueLine [.string l] K fun t? => ∃ t, t? = some t ∧ t.stringValue? = some l := by
  refine .notEatMark (.cons ?_) <| .map (Q := fun t => t.stringValue? = some l) ?_
    fun t ht => ⟨t, rfl, ht⟩
  · rintro _ ⟨⟩
    rfl
  · rw [← bind_pure (expect _ _)]
    refine .token rfl ?_ fun t ht => .done ?_
    · rintro _ ⟨⟩
      rfl
    · cases ht
      rfl

/-- The lines of a dialogue and the braces around them. -/
theorem dialogueLines_takes {lines : List String} :
    Takes c (do mark .openBrace; many dialogueLine)
      (Piece.braces (lines.flatMap fun l => [.string l])) K
      (List.Forall₂ (fun l t => t.stringValue? = some l) lines) := by
  intro s ts rest hts hs _
  obtain ⟨t, us, rfl, ht, hus⟩ := hts.cons_inv
  obtain ⟨vs, ws, rfl, hvs, hws⟩ := hus.append_inv
  obtain ⟨u, _, rfl, hu, hnil⟩ := hws.cons_inv
  cases hnil
  cases ht with
  | mark span text =>
  cases hu with
  | mark span' text' =>
  have hopen := advance_of_cons hs
  have hrest : s.advance.rest = vs ++ ⟨.mark .closeBrace, span', text'⟩ :: rest := by
    rw [hopen]
    simp
  have hlines : Series c (fun _ => dialogueLine) (lines.flatMap fun l => [.string l]) Anything
      (List.Forall₂ (fun l t => t.stringValue? = some l) lines) :=
    .each (fun l _ => .once (by simp) dialogueLine_takes) fun _ _ _ _ _ => trivial
  obtain ⟨ls, s₁, hpast, hls, hrounds⟩ := hlines hvs hrest trivial
  have hclose := advance_of_cons hpast.rest
  have hstop : dialogueLine c s₁ = .ok none s₁.advance := by
    change (eatWhen (fun r => r[0]?.any (·.isMark .closeBrace)) >>= _) c s₁ = _
    rw [run_bind, run_eatWhen, hpast.rest]
    rfl
  have hmany := (hrounds [] s₁.advance (.stop hstop)).run_many
  refine ⟨ls, s₁.advance, ?_, hls, ?_, ?_, ?_⟩
  · rw [List.append_nil] at hmany
    rw [run_bind, run_mark hs (by simp [Token.isMark])]
    exact hmany
  · rw [hclose]
  · rw [hclose]
    simp only [depthAfter, hpast.depth, hopen]
    omega
  · rw [advance_faults, hpast.faults, advance_faults]

theorem lines_of_tokens {lines : List String} {ts : List Token}
    (h : List.Forall₂ (fun l t => t.stringValue? = some l) lines ts) :
    ts.filterMap Token.stringValue? = lines := by
  induction h with
  | nil => rfl
  | cons ht _ ih => rw [List.filterMap_cons_some ht, ih]

theorem dialogue_tells {d : Dialogue} (hd : d.Writable) :
    Takes c Grammar.dialogue d.pieces K fun n =>
      n.rule ∈ [.dialogue] ∧ SaysUpTo Dialogue.withoutSpan Dialogue.ToldBy d n := by
  refine .node <| .keyword <| .andThen (mood_takes hd.state) fun state hstate => ?_
  rw [← bind_assoc]
  refine .last <| dialogueLines_takes.mono fun ts hts span => ?_
  refine ⟨List.mem_singleton_self _, { d with span }, rfl, _, _, rfl, hstate.told, rfl, ?_, ?_⟩
  · rw [Element.tokens_map, lines_of_tokens hts]
  · exact hd.nonempty

/-! ## Npcs -/

theorem npcLocation_tells {l : Npc.Location} (hl : l.Writable) :
    Takes c Grammar.npcStatement l.pieces K fun n =>
      n.rule ∈ [.locRoom, .locNowhere] ∧ l.ToldBy n := by
  cases l with
  | room id =>
      refine atKeyword_cons.mpr <| atOneOf_cons.mpr <| atKeyword_cons.mpr <| .nodeBy ?_
      refine .keyword <| .otherKeyword (by decide) <| .oneOf rfl fun _ => ?_
      exact .word hl fun _ => .done fun _ => ⟨by simp [Node.rule], rfl, _, _, rfl, rfl⟩
  | nowhere note =>
      refine atKeyword_cons.mpr <| atOneOf_cons.mpr <| atKeyword_cons.mpr <| .nodeBy ?_
      refine .keyword <| .eatKeyword <| .string fun _ _ => .done fun _ => ?_
      exact ⟨by simp [Node.rule], rfl, _, _, rfl, rfl⟩

/-- The dialogues that are read may stand elsewhere. -/
theorem npcBody_clauses {n : Npc} (hn : n.Writable) :
    Clauses c npcStarters (starting npcStarters Grammar.npcStatement) n.body fun ns =>
      ∃ n' : Npc, n'.withoutSpans = n.withoutSpans ∧ TellsEach n' Npc.fields ns := by
  refine .upTo (b := n) 5 ?same ?slots ?dialogues
  case same =>
    intro n' hn'
    simp_all [Npc.fields, Npc.withoutSpans]
  case slots =>
    simp only [List.append_assoc]
    refine .next (.slot rfl (fun _ _ => rfl) ?name) <| .next (.slot rfl (fun _ _ => rfl) ?desc) <|
      .next (.slot rfl ?locates fun l hl => npcLocation_tells (hn.location l hl)) <|
      .next (.slot rfl (fun _ _ => rfl) ?state) <| .last (.slot rfl (fun _ _ => rfl) ?movement)
    case name => exact fun s _ => atKeyword_cons.mpr keywordThenString_tells
    case desc => exact fun s _ => atKeyword_cons.mpr <| atOneOf_cons.mpr description_tells
    case locates => exact fun l _ => by cases l <;> rfl
    case state =>
      refine fun m hm => atKeyword_cons.mpr <| atOneOf_cons.mpr ?_
      iterate 2 refine atKeyword_cons.mpr ?_
      refine .node <| .keyword <| .last <| (mood_takes (hn.state m hm)).mono fun node hnode _ => ?_
      exact ⟨List.mem_singleton_self _, heldBy_of_node hnode.told⟩
    case movement =>
      refine fun m hm => atKeyword_cons.mpr <| atOneOf_cons.mpr ?_
      iterate 3 refine atKeyword_cons.mpr ?_
      exact movement_tells (hn.movement m hm)
  case dialogues =>
    have hread : ∀ d ∈ n.dialogue,
        Takes c Grammar.npcStatement d.pieces (EndsIn npcStarters) fun m =>
          m.rule ∈ [.dialogue] ∧ SaysUpTo Dialogue.withoutSpan Dialogue.ToldBy d m := by
      refine fun d hd => atKeyword_cons.mpr <| atOneOf_cons.mpr ?_
      iterate 3 refine atKeyword_cons.mpr ?_
      exact dialogue_tells (hn.dialogue d hd)
    refine (Clauses.list (fun _ _ => rfl) hread).mono fun ns hns => ?_
    obtain ⟨hrules, hsays⟩ := says_values hns
    obtain ⟨ds, hds, htold⟩ := SaysUpTo.exists_values hsays
    exact ⟨{ n with dialogue := ds }, by simp [Npc.withoutSpans, hds], .one ⟨hrules, htold⟩⟩

theorem npc_takes {n : Npc} {limit : Nat} (hn : n.Writable) :
    Takes c Grammar.npc n.pieces K (Says limit (.npc n)) := by
  refine .node <| .keyword <| .word hn.id fun _ => (blockOf_takes (npcBody_clauses hn)).map ?_
  rintro ns ⟨n', hn', hns⟩ span
  obtain ⟨hid, hname, hdesc, hlocation, hstate, hmovement, hdialogue, -⟩ := Npc.mk.inj hn'
  have hgathers := hns.gathers Npc.goesBy.lawful.rules
  refine says_of_makes (x := { n' with span }) rfl
    (Npc.makes_iff.mpr ⟨⟨_, _, rfl, hid ▸ rfl⟩, rfl, ?_, ?_⟩) (congrArg Definition.npc hn')
  · rw [nodes_named]
    rintro rfl
    have hblank := gathers_nil.mp hgathers
    refine hn.someField ?_
    simp_all [Npc.fields, Keeping.slot, Keeping.list, eq_comm]
  · rw [nodes_named]
    exact hgathers.congr (by simp [Npc.fields])

end Grammar

end Storyworld
