import Storyworld.Document.Shape
import Storyworld.Proofs.Document.Spans
import Storyworld.Proofs.Shape.Pieces

namespace Storyworld.Shape

/-! Building definitions other than triggers from nodes that fill their slots. -/

variable {E : Expected} {n : Node} {α : Type}

/-! ## Rooms -/

theorem roomSet_gives (hr : n.rule = .setDecl) (h : n.Legible E) :
    Gives E.fault (roomSet n) fun d => E.place d.span ∧ d.Named E.name := by
  have hrow := h.row
  rw [hr] at hrow
  refine (hrow.parts (Q := fun p => E.name p.1.name ∧ p.2.rule = .idList ∧ p.2.Legible E) ?_).bind
    fun p hp => ?_
  · exact Reads.id.bind fun _ hname => Reads.child.bind fun _ hlist =>
      .done ⟨hname, List.mem_singleton.mp hlist.1, hlist.2⟩
  · exact (ids_gives hp.2.1 hp.2.2).bind fun _ hrooms => .done ⟨h.span, hp.1, hrooms⟩

theorem forall_mem_concat {β : Type} {P : β → Prop} {bs : List β} {b : β} (hbs : ∀ b ∈ bs, P b)
    (hb : P b) : ∀ b' ∈ bs ++ [b], P b' := by
  intro b' hb'
  rcases List.mem_append.mp hb' with hb' | hb'
  · exact hbs b' hb'
  · rw [List.mem_singleton.mp hb']
    exact hb

theorem exitOption_collects {e : Exit} (he : E.place e.span ∧ e.Named E.name)
    (hr : n.rule ∈ Rule.exitOptions) (h : n.Legible E) :
    Collects E.fault (exitOption e n) fun e => E.place e.span ∧ e.Named E.name := by
  have hrow := h.row
  obtain ⟨hspan, htarget, hitems, hflags⟩ := he
  unfold exitOption
  split <;> rename_i hrule
  all_goals try rw [hrule] at hrow
  · refine (Collects.lift (hrow.parts .child)).bind fun list hlist => ?_
    refine (Collects.lift (ids_gives (List.mem_singleton.mp hlist.1) hlist.2)).bind fun _ his => ?_
    exact .done ⟨hspan, htarget, fun i hi => (List.mem_append.mp hi).elim (hitems i) (his i), hflags⟩
  · refine (Collects.lift (hrow.parts .child)).bind fun list hlist => ?_
    refine (Collects.lift (ids_gives (List.mem_singleton.mp hlist.1) hlist.2)).bind fun _ his => ?_
    exact .done ⟨hspan, htarget, hitems, fun f hf => (List.mem_append.mp hf).elim (hflags f) (his f)⟩
  · refine (Collects.lift (hrow.parts .string)).bind fun _ _ => ?_
    exact .setOnce (h.allows.repeated _) ⟨hspan, htarget, hitems, hflags⟩
      ⟨hspan, htarget, hitems, hflags⟩
  · exact .done ⟨hspan, htarget, hitems, hflags⟩
  · exact .done ⟨hspan, htarget, hitems, hflags⟩
  · simp_all [Rule.exitOptions]

theorem exit_collects (hr : n.rule = .exit) (h : n.Legible E) :
    Collects E.fault (exit n) fun e => E.place e.span ∧ e.Named E.name := by
  have hrow := h.row
  rw [hr] at hrow
  refine (Collects.lift (hrow.parts (Q := fun p : String × Id .room × Option Node =>
    E.name p.2.1.name ∧ ∀ m, p.2.2 = some m → m.rule ∈ [.exitBlock] ∧ m.Legible E) ?_)).bind
      fun p hp => ?_
  · exact Reads.wordOrString.bind fun _ _ => Reads.id.bind fun _ htarget => Reads.childOf?.bind
      fun _ hoptions => .done ⟨htarget, hoptions⟩
  · obtain ⟨direction, target, options?⟩ := p
    cases options? with
    | none => exact .done ⟨h.span, hp.1, by simp, by simp⟩
    | some options =>
        obtain ⟨hrule, hlegible⟩ := hp.2 options rfl
        have hoptions := hlegible.row
        rw [List.mem_singleton.mp hrule] at hoptions
        refine Collects.keepChanges (R := fun e : Exit => E.place e.span ∧ e.Named E.name)
          ⟨h.span, hp.1, by simp, by simp⟩ fun e he m hm => ?_
        obtain ⟨hm, hmlegible⟩ := hoptions.nodes m hm
        exact exitOption_collects he hm hmlegible

theorem overlayCondition_gives (hr : n.rule ∈ Rule.overlayConditions) (h : n.Legible E) :
    Gives E.fault (overlayCondition n) (·.Named E.name) := by
  have hrow := h.row
  unfold overlayCondition
  split <;> rename_i hrule
  all_goals try rw [hrule] at hrow
  any_goals exact hrow.parts (.id_done fun _ hi => hi)
  · refine hrow.parts (Reads.id.bind fun _ hi => Reads.child.bind fun _ hm => ?_)
    exact (ReadsOf.lift (lenientMood_gives hm.1 hm.2)).bind fun _ hmood => .done ⟨hi, hmood⟩
  · exact hrow.parts (.id_id_done fun _ _ hi hj => ⟨hi, hj⟩)
  · simp_all [Rule.overlayConditions]

theorem moodLine_gives (hr : n.rule = .overlayStateLine) (h : n.Legible E) :
    Gives E.fault (moodLine n) (·.state.Named E.name) := by
  have hrow := h.row
  rw [hr] at hrow
  refine hrow.parts (Reads.child.bind fun _ hm => ?_)
  refine (ReadsOf.lift (strictMood_gives hm.1 hm.2)).bind fun _ hmood => ?_
  exact Reads.string.bind fun _ _ => .done hmood

theorem textLine_collects {first second : String} {firstRule : Rule}
    {texts : Option String × Option String} (hs : n.rule.slots = [.one .string])
    (h : n.Legible E) :
    Collects E.fault (textLine first second firstRule texts n) fun _ => True := by
  have hrow := h.row
  rw [hs] at hrow
  refine (Collects.lift (hrow.parts .string)).bind fun text _ => ?_
  split
  · exact .setOnce (h.allows.repeated _) trivial trivial
  · exact .setOnce (h.allows.repeated _) trivial trivial

theorem textPair_collects {first second : String} {firstRule : Rule} {lines : List Node}
    (hfirst : first ∈ n.rule.leftOpen) (hsecond : second ∈ n.rule.leftOpen) (h : n.Legible E)
    (hlines : ∀ m ∈ lines, m.rule.slots = [.one .string] ∧ m.Legible E) :
    Collects E.fault (textPair first second firstRule n lines) fun _ => True := by
  refine (Collects.keepChanges (R := fun _ => True) trivial fun texts _ m hm =>
    textLine_collects (hlines m hm).1 (hlines m hm).2).bind fun texts _ => ?_
  refine (Collects.lift (require_gives (h.allows.missing _ hfirst))).bind fun _ _ => ?_
  exact (Collects.lift (require_gives (h.allows.missing _ hsecond))).bind fun _ _ => .done trivial

theorem generalPart_collects {parts : List Overlay.Condition × Option String}
    (hparts : ∀ x ∈ parts.1, x.Named E.name)
    (hr : n.rule ∈ Rule.overlayConditions ∨ n.rule = .overlayText) (h : n.Legible E) :
    Collects E.fault (generalPart parts n) fun parts => ∀ x ∈ parts.1, x.Named E.name := by
  unfold generalPart
  split
  · rename_i hrule
    have hrow := h.row
    rw [hrule] at hrow
    refine (Collects.lift (hrow.parts .string)).bind fun text _ => ?_
    exact .setOnce (h.allows.repeated _) hparts hparts
  · have hcondition : n.rule ∈ Rule.overlayConditions := by simp_all
    refine (Collects.lift (overlayCondition_gives hcondition h)).keep.bind fun x? hx => .done ?_
    intro x hmem
    rcases List.mem_append.mp hmem with hmem | hmem
    · exact hparts x hmem
    · exact hx x (Option.mem_toList.mp hmem)

theorem overlayKind_collects (hr : n.rule ∈ Rule.overlays) (h : n.Legible E) :
    Collects E.fault (overlayKind n) (·.Named E.name) := by
  have hrow := h.row
  have hlines {rules : List Rule} {cs : List Element} (hs : ∀ r ∈ rules, r.slots = [.one .string])
      (hcs : Row E [.many (.node rules)] cs) :
      ∀ m ∈ Element.nodes cs, m.rule.slots = [.one .string] ∧ m.Legible E := fun m hm =>
    ⟨hs _ (hcs.nodes m hm).1, (hcs.nodes m hm).2⟩
  unfold overlayKind
  split <;> rename_i hrule
  all_goals try rw [hrule] at hrow
  · refine (Collects.lift (hrow.head .id)).bind fun p hp => ?_
    refine (textPair_collects ?_ ?_ h (hlines (by decide) hp.2)).bind fun _ _ => .done hp.1
    · simp [hrule, Rule.leftOpen]
    · simp [hrule, Rule.leftOpen]
  · refine (Collects.lift (hrow.head .id)).bind fun p hp => ?_
    refine (textPair_collects ?_ ?_ h (hlines (by decide) hp.2)).bind fun _ _ => .done hp.1
    · simp [hrule, Rule.leftOpen]
    · simp [hrule, Rule.leftOpen]
  · refine (Collects.lift (hrow.head .id)).bind fun p hp => ?_
    refine (textPair_collects ?_ ?_ h (hlines (by decide) hp.2)).bind fun _ _ => .done hp.1
    · simp [hrule, Rule.leftOpen]
    · simp [hrule, Rule.leftOpen]
  · refine (Collects.lift (hrow.head .id)).bind fun p hp => ?_
    refine (Collects.keepAll (R := fun l : Overlay.MoodLine => l.state.Named E.name)
      fun m hm => ?_).bind fun _ hmoods => ?_
    · obtain ⟨hm, hlegible⟩ := hp.2.nodes m hm
      exact .lift (moodLine_gives (List.mem_singleton.mp hm) hlegible)
    · split
      · exact (Collects.fail (h.allows.empty _)).bind fun _ => False.elim
      · exact .done ⟨hp.1, hmoods⟩
  · refine (Collects.foldlM (R := fun parts => ∀ x ∈ parts.1, x.Named E.name) (by simp)
      fun parts hparts m hm => ?_).bind fun parts hparts => ?_
    · have hpart := exists_fits hrow.1 (Node.mem_nodes.mp hm)
      refine generalPart_collects hparts ?_ (Node.Every.node h hm)
      simpa [Rule.slots, Part.fits, or_left_comm (b := m.rule = .overlayText)] using hpart
    · have hopen : "overlay text" ∈ n.rule.leftOpen := by simp [hrule, Rule.leftOpen]
      obtain ⟨conditions, text?⟩ := parts
      exact (Collects.lift (require_gives (h.allows.missing _ hopen))).bind fun _ _ => .done hparts
  · simp_all [Rule.overlays]

theorem overlay_collects (hr : n.rule ∈ Rule.overlays) (h : n.Legible E) :
    Collects E.fault (overlay n) fun o => E.place o.span ∧ o.kind.Named E.name :=
  (overlayKind_collects hr h).bind fun _ hkind => .done ⟨h.span, hkind⟩

/-- The places that a room tells and the names that it uses are expected. -/
def RoomTells (E : Expected) (r : Room) : Prop :=
  (∀ s ∈ r.spans, E.place s) ∧ r.Named E.name

theorem roomTells_iff {r : Room} : RoomTells E r ↔
    (E.place r.span ∧ E.name r.id.name) ∧ (∀ e ∈ r.exits, E.place e.span ∧ e.Named E.name) ∧
      ∀ o ∈ r.overlays, E.place o.span ∧ o.kind.Named E.name := by
  simp only [RoomTells, Room.spans, Room.Named, List.forall_mem_cons, List.forall_mem_append,
    List.forall_mem_map, forall_and]
  tauto

theorem roomStatement_collects {r : Room} (hroom : RoomTells E r)
    (hr : n.rule ∈ Rule.roomStatements) (h : n.Legible E) :
    Collects E.fault (roomStatement r n) (RoomTells E) := by
  have hrow := h.row
  have hset {what : String} : E.fault (.repeated what n.span) := h.allows.repeated _
  unfold roomStatement
  split
  · rename_i hrule
    rw [hrule] at hrow
    exact (Collects.lift (hrow.parts .string)).bind fun _ _ => .setOnce hset hroom hroom
  · rename_i hrule
    rw [hrule] at hrow
    exact (Collects.lift (hrow.parts .string)).bind fun _ _ => .setOnce hset hroom hroom
  · rename_i hrule
    rw [hrule] at hrow
    exact (Collects.lift (hrow.parts .boolean)).bind fun _ _ => .setOnce hset hroom hroom
  · rename_i hrule
    obtain ⟨hhere, hexits, hoverlays⟩ := roomTells_iff.mp hroom
    refine (exit_collects hrule h).bind fun e he => .done ?_
    exact roomTells_iff.mpr ⟨hhere, forall_mem_concat hexits he, hoverlays⟩
  · have hoverlay : n.rule ∈ Rule.overlays := by simp_all [Rule.roomStatements]
    obtain ⟨hhere, hexits, hoverlays⟩ := roomTells_iff.mp hroom
    refine (overlay_collects hoverlay h).bind fun o ho => .done ?_
    exact roomTells_iff.mpr ⟨hhere, hexits, forall_mem_concat hoverlays ho⟩

theorem room_collects (hr : n.rule = .roomDef) (h : n.Legible E) :
    Collects E.fault (room n) (RoomTells E) := by
  have hrow := h.row
  rw [hr] at hrow
  refine (Collects.lift (hrow.head .id)).bind fun p hp => ?_
  refine Collects.keepChanges (R := RoomTells E) ?_ fun r hroom m hm => ?_
  · exact roomTells_iff.mpr ⟨⟨h.span, hp.1⟩, by simp, by simp⟩
  · obtain ⟨hm, hlegible⟩ := hp.2.nodes m hm
    exact roomStatement_collects hroom hm hlegible

/-! ## Items -/

theorem itemLocation_gives (hr : n.rule ∈ Rule.itemLocations) (h : n.Legible E) :
    Gives E.fault (itemLocation n) (·.Named E.name) := by
  have hrow := h.row
  unfold itemLocation
  split <;> rename_i hrule
  all_goals try rw [hrule] at hrow
  any_goals exact hrow.parts (.id_done fun _ hi => hi)
  · exact hrow.parts (.done trivial)
  · have hnowhere : n.rule = .locNowhere := by simp_all [Rule.itemLocations]
    rw [hnowhere] at hrow
    exact hrow.parts (Reads.string.bind fun _ _ => .done trivial)

theorem requirement_gives (hr : n.rule = .itemRequires) (h : n.Legible E) :
    Gives E.fault (requirement n) (·.Named E.name) := by
  have hrow := h.row
  rw [hr] at hrow
  exact hrow.parts (.id_id_done fun _ _ hi hj => ⟨hi, hj⟩)

/-- The names in the draft of a consumable are expected. -/
def DraftNamed (E : Expected) (draft : ConsumableDraft) : Prop :=
  (∀ a ∈ draft.consumeOn, a.Named E.name) ∧ ∀ w ∈ draft.whenConsumed, w.Named E.name

theorem consumableStatement_collects {draft : ConsumableDraft} (hdraft : DraftNamed E draft)
    (hr : n.rule ∈ Rule.consumableStatements) (h : n.Legible E) :
    Collects E.fault (consumableStatement draft n) (DraftNamed E) := by
  have hrow := h.row
  have hset {what : String} : E.fault (.repeated what n.span) := h.allows.repeated _
  have hnew {w : WhenConsumed} (hw : w.Named E.name) :
      DraftNamed E { draft with whenConsumed := some w } :=
    ⟨hdraft.1, by simpa using hw⟩
  unfold consumableStatement
  split <;> rename_i hrule
  all_goals try rw [hrule] at hrow
  · refine (Collects.lift (hrow.parts .number)).bind fun p hp => ?_
    obtain ⟨value, span⟩ := p
    dsimp only
    split
    · exact (Collects.report (hp _ (by simp [Token.measures]) _)).bind fun _ _ => .setOnce hset hdraft hdraft
    · exact .setOnce hset hdraft hdraft
  · refine (Collects.lift (hrow.parts .child)).bind fun m hm => ?_
    refine (Collects.lift (ability_gives (List.mem_singleton.mp hm.1) hm.2)).bind fun _ ha => ?_
    exact .done ⟨forall_mem_concat hdraft.1 ha, hdraft.2⟩
  · exact .setOnce hset (hnew trivial) hdraft
  · exact (Collects.lift (hrow.parts .id)).bind fun _ hi => .setOnce hset (hnew hi) hdraft
  · exact (Collects.lift (hrow.parts .id)).bind fun _ hi => .setOnce hset (hnew hi) hdraft
  · simp_all [Rule.consumableStatements]

theorem consumable_collects (hr : n.rule = .consumable) (h : n.Legible E) :
    Collects E.fault (consumable n) (·.Named E.name) := by
  have hrow := h.row
  rw [hr] at hrow
  have huses : "uses_left" ∈ n.rule.leftOpen := by simp [hr, Rule.leftOpen]
  have hwhen : "when_consumed" ∈ n.rule.leftOpen := by simp [hr, Rule.leftOpen]
  refine (Collects.keepChanges (R := DraftNamed E) ⟨by simp, by simp⟩ fun draft hdraft m hm => ?_).bind
    fun draft hdraft => ?_
  · obtain ⟨hm, hlegible⟩ := hrow.nodes m hm
    exact consumableStatement_collects hdraft hm hlegible
  · refine (Collects.lift (require_gives (h.allows.missing _ huses))).bind fun _ _ => ?_
    exact (Collects.lift (require_gives (h.allows.missing _ hwhen))).bind fun w hw =>
      .done ⟨hdraft.1, hdraft.2 w hw⟩

theorem itemStatement_collects {i : Item} (hi : E.place i.span ∧ i.Named E.name)
    (hr : n.rule ∈ Rule.itemStatements) (h : n.Legible E) :
    Collects E.fault (itemStatement i n) fun i => E.place i.span ∧ i.Named E.name := by
  have hrow := h.row
  have hset {what : String} : E.fault (.repeated what n.span) := h.allows.repeated _
  have ⟨hspan, hid, hlocation, habilities, hrequires, hconsumable⟩ := hi
  unfold itemStatement
  split <;> rename_i hrule
  all_goals try rw [hrule] at hrow
  · exact (Collects.lift (hrow.parts .string)).bind fun _ _ => .setOnce hset hi hi
  · exact (Collects.lift (hrow.parts .string)).bind fun _ _ => .setOnce hset hi hi
  · exact (Collects.lift (hrow.parts .boolean)).bind fun _ _ => .setOnce hset hi hi
  · exact (Collects.lift (hrow.parts .boolean)).bind fun _ _ => .setOnce hset hi hi
  any_goals
    have hplace : n.rule ∈ Rule.itemLocations := by simp [hrule, Rule.itemLocations]
    refine (Collects.lift (itemLocation_gives hplace h)).bind fun _ hl => .setOnce hset ?_ hi
    exact ⟨hspan, hid, by simpa using hl, habilities, hrequires, hconsumable⟩
  · refine (Collects.lift (ability_gives hrule h)).bind fun _ ha => .done ?_
    exact ⟨hspan, hid, hlocation, forall_mem_concat habilities ha, hrequires, hconsumable⟩
  · exact (Collects.lift (hrow.parts .string)).bind fun _ _ => .done hi
  · refine (Collects.lift (hrow.parts (.token fun _ => rfl))).bind fun t ht => ?_
    exact (Collects.lift (containerState_gives ht.2)).bind fun _ _ => .setOnce hset hi hi
  · refine (Collects.lift (requirement_gives hrule h)).bind fun _ hx => .done ?_
    exact ⟨hspan, hid, hlocation, habilities, forall_mem_concat hrequires hx, hconsumable⟩
  · refine (consumable_collects hrule h).bind fun _ hx => .setOnce hset ?_ hi
    exact ⟨hspan, hid, hlocation, habilities, hrequires, by simpa using hx⟩
  · simp_all [Rule.itemStatements, Rule.itemLocations]

theorem item_collects (hr : n.rule = .itemDef) (h : n.Legible E) :
    Collects E.fault (item n) fun i => E.place i.span ∧ i.Named E.name := by
  have hrow := h.row
  rw [hr] at hrow
  refine (Collects.lift (hrow.head .id)).bind fun p hp => ?_
  refine Collects.keepChanges (R := fun i : Item => E.place i.span ∧ i.Named E.name)
    ⟨h.span, hp.1, by simp, by simp, by simp, by simp⟩ fun i hi m hm => ?_
  obtain ⟨hm, hlegible⟩ := hp.2.nodes m hm
  exact itemStatement_collects hi hm hlegible

/-! ## Npcs -/

theorem movementOption_collects {m : Movement} (hmove : m.Named E.name)
    (hr : n.rule ∈ Rule.movementOptions) (h : n.Legible E) :
    Collects E.fault (movementOption m n) (·.Named E.name) := by
  have hrow := h.row
  have hset {what : String} : E.fault (.repeated what n.span) := h.allows.repeated _
  unfold movementOption
  split <;> rename_i hrule
  all_goals try rw [hrule] at hrow
  · refine (Collects.lift (hrow.parts .id)).bind fun t ht => .setOnce hset ?_ hmove
    exact ⟨hmove.1, by simpa using ht⟩
  · exact (Collects.lift (hrow.parts .boolean)).bind fun _ _ => .setOnce hset hmove hmove
  · exact (Collects.lift (hrow.parts .boolean)).bind fun _ _ => .setOnce hset hmove hmove
  · simp_all [Rule.movementOptions]

theorem movement_collects (hr : n.rule = .npcMovement) (h : n.Legible E) :
    Collects E.fault (movement n) (·.Named E.name) := by
  have hrow := h.row
  rw [hr] at hrow
  refine (Collects.lift (hrow.head (Q := fun p => p.2.rule = .idList ∧ p.2.Legible E)
    ((Reads.word fun _ => rfl).bind fun _ _ => Reads.child.bind fun _ hlist =>
      .done ⟨List.mem_singleton.mp hlist.1, hlist.2⟩))).bind fun p hp => ?_
  refine (Collects.lift (ids_gives hp.1.1 hp.1.2)).bind fun rooms hrooms => ?_
  refine Collects.foldlM ⟨hrooms, by simp⟩ fun m hmove option hoption => ?_
  obtain ⟨hoption, hlegible⟩ := hp.2.nodes option hoption
  exact movementOption_collects hmove hoption hlegible

theorem dialogue_gives (hr : n.rule = .dialogue) (h : n.Legible E) :
    Gives E.fault (dialogue n) fun d => E.place d.span ∧ d.state.Named E.name := by
  have hrow := h.row
  rw [hr] at hrow
  refine (hrow.head (Reads.child.bind fun _ hm =>
    .lift (strictMood_gives hm.1 hm.2))).bind fun p hp => ?_
  dsimp only
  split
  · exact .fail (h.allows.empty _)
  · exact .done ⟨h.span, hp.1⟩

/-- The places that an npc tells and the names that it uses are expected. -/
def NpcTells (E : Expected) (npc : Npc) : Prop :=
  (∀ s ∈ npc.spans, E.place s) ∧ npc.Named E.name

theorem npcStatement_collects {npc : Npc} (hnpc : NpcTells E npc)
    (hr : n.rule ∈ Rule.npcStatements) (h : n.Legible E) :
    Collects E.fault (npcStatement npc n) (NpcTells E) := by
  have hrow := h.row
  have hset {what : String} : E.fault (.repeated what n.span) := h.allows.repeated _
  have ⟨hspans, hid, hlocation, hstate, hmovement, hdialogue⟩ := hnpc
  have hmoved {l : Npc.Location} (hl : l.Named E.name) : NpcTells E { npc with location := some l } :=
    ⟨hspans, hid, by simpa using hl, hstate, hmovement, hdialogue⟩
  unfold npcStatement
  split <;> rename_i hrule
  all_goals try rw [hrule] at hrow
  · exact (Collects.lift (hrow.parts .string)).bind fun _ _ => .setOnce hset hnpc hnpc
  · exact (Collects.lift (hrow.parts .string)).bind fun _ _ => .setOnce hset hnpc hnpc
  · exact (Collects.lift (hrow.parts .id)).bind fun _ hi => .setOnce hset (hmoved hi) hnpc
  · exact (Collects.lift (hrow.parts .string)).bind fun _ _ => .setOnce hset (hmoved trivial) hnpc
  · refine (Collects.lift (hrow.parts .child)).bind fun m hm => ?_
    refine (Collects.lift (strictMood_gives hm.1 hm.2)).bind fun _ hmood => .setOnce hset ?_ hnpc
    exact ⟨hspans, hid, hlocation, by simpa using hmood, hmovement, hdialogue⟩
  · refine (movement_collects hrule h).bind fun _ hm => .setOnce hset ?_ hnpc
    exact ⟨hspans, hid, hlocation, hstate, by simpa using hm, hdialogue⟩
  · refine (Collects.lift (dialogue_gives hrule h)).bind fun d hd => .done ⟨?_, ?_⟩
    · simpa [Npc.spans, or_imp, forall_and, hd.1] using hspans
    · exact ⟨hid, hlocation, hstate, hmovement, forall_mem_concat hdialogue hd.2⟩
  · simp_all [Rule.npcStatements]

theorem npc_collects (hr : n.rule = .npcDef) (h : n.Legible E) :
    Collects E.fault (npc n) (NpcTells E) := by
  have hrow := h.row
  rw [hr] at hrow
  refine (Collects.lift (hrow.head .id)).bind fun p hp => ?_
  dsimp only
  split
  · exact (Collects.fail (h.allows.empty _)).bind fun _ => False.elim
  · refine Collects.keepChanges (R := NpcTells E) ⟨?_, ?_⟩ fun npc hnpc m hm => ?_
    · simpa [Npc.spans] using h.span
    · exact ⟨hp.1, by simp, by simp, by simp, by simp⟩
    · obtain ⟨hm, hlegible⟩ := hp.2.nodes m hm
      exact npcStatement_collects hnpc hm hlegible

/-! ## Goals -/

theorem goalCondition_gives (hr : n.rule ∈ Rule.goalConditions) (h : n.Legible E) :
    Gives E.fault (goalCondition n) (·.Named E.name) := by
  have hrow := h.row
  unfold goalCondition
  split <;> rename_i hrule
  all_goals try rw [hrule] at hrow
  any_goals exact hrow.parts (.id_done fun _ hi => hi)
  simp_all [Rule.goalConditions]

/-- The names in the draft of a goal are expected. -/
def GoalDraftNamed (E : Expected) (draft : GoalDraft) : Prop :=
  (∀ x ∈ draft.start, x.Named E.name) ∧ (∀ x ∈ draft.done, x.Named E.name) ∧
    ∀ x ∈ draft.fail, x.Named E.name

theorem goalStatement_collects {draft : GoalDraft} (hdraft : GoalDraftNamed E draft)
    (hr : n.rule ∈ Rule.goalStatements) (h : n.Legible E) :
    Collects E.fault (goalStatement draft n) (GoalDraftNamed E) := by
  have hrow := h.row
  have hset {what : String} : E.fault (.repeated what n.span) := h.allows.repeated _
  have ⟨hstart, hdone, hfail⟩ := hdraft
  unfold goalStatement
  split <;> rename_i hrule
  all_goals try rw [hrule] at hrow
  · exact (Collects.lift (hrow.parts .string)).bind fun _ _ => .setOnce hset hdraft hdraft
  · exact (Collects.lift (hrow.parts .string)).bind fun _ _ => .setOnce hset hdraft hdraft
  · refine (Collects.lift (hrow.parts (.token fun _ => rfl))).bind fun t ht => ?_
    refine (Collects.lift (meaning_gives ht.2 (by simp [Token.looseSets]))).bind fun _ _ => ?_
    exact .setOnce hset hdraft hdraft
  · refine (Collects.lift (hrow.parts .child)).bind fun m hm => ?_
    refine (Collects.lift (goalCondition_gives hm.1 hm.2)).bind fun _ hx => .setOnce hset ?_ hdraft
    exact ⟨by simpa using hx, hdone, hfail⟩
  · refine (Collects.lift (hrow.parts .child)).bind fun m hm => ?_
    refine (Collects.lift (goalCondition_gives hm.1 hm.2)).bind fun _ hx => .setOnce hset ?_ hdraft
    exact ⟨hstart, by simpa using hx, hfail⟩
  · refine (Collects.lift (hrow.parts .child)).bind fun m hm => ?_
    refine (Collects.lift (goalCondition_gives hm.1 hm.2)).bind fun _ hx => .setOnce hset ?_ hdraft
    exact ⟨hstart, hdone, by simpa using hx⟩
  · simp_all [Rule.goalStatements]

theorem goal_collects (hr : n.rule = .goalDef) (h : n.Legible E) :
    Collects E.fault (goal n) fun g => E.place g.span ∧ g.Named E.name := by
  have hrow := h.row
  rw [hr] at hrow
  have hopen {what : String} (hwhat : what ∈ Rule.goalDef.leftOpen) :
      E.fault (.missing what n.span) := h.allows.missing _ (hr ▸ hwhat)
  refine (Collects.lift (hrow.head .id)).bind fun p hp => ?_
  refine (Collects.foldlM (R := GoalDraftNamed E) ⟨by simp, by simp, by simp⟩
    fun draft hdraft m hm => ?_).bind fun draft hdraft => ?_
  · obtain ⟨hm, hlegible⟩ := hp.2.nodes m hm
    exact goalStatement_collects hdraft hm hlegible
  split
  · exact (Collects.fail (h.allows.empty _)).bind fun _ => False.elim
  · refine (Collects.lift (require_gives (hopen (by simp [Rule.leftOpen])))).bind fun _ _ => ?_
    refine (Collects.lift (require_gives (hopen (by simp [Rule.leftOpen])))).bind fun _ _ => ?_
    refine (Collects.lift (require_gives (hopen (by simp [Rule.leftOpen])))).bind fun _ _ => ?_
    refine (Collects.lift (require_gives (hopen (by simp [Rule.leftOpen])))).bind fun s hs => ?_
    refine (Collects.lift (require_gives (hopen (by simp [Rule.leftOpen])))).bind fun d hd => ?_
    exact .done ⟨h.span, hp.1, hdraft.1 s hs, hdraft.2.1 d hd, hdraft.2.2⟩

/-! ## Spinners -/

theorem wedge_gives (hr : n.rule = .wedge) (h : n.Legible E) :
    Gives E.fault (wedge n) fun w => E.place w.span := by
  have hrow := h.row
  rw [hr] at hrow
  unfold wedge
  rw [if_neg (by simp [hr])]
  exact hrow.parts (Reads.string.bind fun _ _ => width?_reads.bind fun _ _ => .done h.span)

/-- A spinner may be defined under a quoted name. -/
theorem spinner_gives (hr : n.rule = .spinnerDef) (h : n.Legible E) :
    Gives E.fault (spinner n) fun d =>
      (∀ s ∈ d.spans, E.place s) ∧ (E.name d.id.name ∨ E.quote d.id.name) := by
  have hrow := h.row
  rw [hr] at hrow
  refine (hrow.head .wordOrString).bind fun p hp => ?_
  refine (Gives.mapM (R := fun w : Wedge => E.place w.span) fun m hm => ?_).bind
    fun wedges hwedges => ?_
  · obtain ⟨hm, hlegible⟩ := hp.2.nodes m hm
    exact wedge_gives (List.mem_singleton.mp hm) hlegible
  split
  · exact .fail (h.allows.empty _)
  · refine .done ⟨?_, hp.1⟩
    simpa [Spinner.spans, h.span] using hwedges

end Storyworld.Shape
