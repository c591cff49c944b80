import Storyworld.Document.Shape
import Storyworld.Proofs.Document.Spans
import Storyworld.Proofs.Shape.Ensures
import Storyworld.Proofs.Shape.Faults

namespace Storyworld

/-! Whatever the tree, what is built from it and kept has the shape that a world needs: lists that
have to have members have some, numbers lie in their ranges, and groups and schedules do not lie
deeper inside one another than allowed. -/

/-! ## Well-shaped definitions -/

namespace Query

def WellShaped : Query → Prop
  | chance percent => 1 ≤ percent ∧ percent ≤ 100
  | ambient _ rooms => ∀ l ∈ rooms, l ≠ []
  | inRooms rooms => rooms ≠ []
  | _ => True

end Query

/-- A condition in which at most `levels` groups lie inside one another, none of them empty. -/
def Condition.WellShaped : (levels : Nat) → Condition → Prop
  | _, single query => query.WellShaped
  | 0, any _ | 0, all _ => False
  | levels + 1, any members | levels + 1, all members =>
    members ≠ [] ∧ ∀ m ∈ members, WellShaped levels m

def Effect.WellShaped : Effect → Prop
  | addWedge _ _ width => ∀ w ∈ width, 1 ≤ w
  | _ => True

/-- An action in which at most `levels` schedules and condition groups lie inside one another. -/
def Action.WellShaped : (levels : Nat) → Action → Prop
  | _, effect e => e.WellShaped
  | 0, schedule .. => False
  | levels + 1, schedule _ _ guard _ body =>
    (∀ g ∈ guard, g.condition.WellShaped (levels + 1)) ∧ body ≠ [] ∧
      ∀ s ∈ body, s.MadeOf (·.WellShaped levels) fun a => WellShaped levels a

/-- A statement in which at most `levels` schedules and condition groups lie inside one another. -/
def Statement.WellShaped (levels : Nat) (s : Statement) : Prop :=
  s.MadeOf (·.WellShaped levels) (·.WellShaped levels)

namespace Overlay.Kind

def WellShaped : Kind → Prop
  | moodSet _ lines => lines ≠ []
  | _ => True

/-- An overlay that shows under conditions has some. -/
def HasConditions : Kind → Prop
  | conditional conditions _ => conditions ≠ []
  | _ => True

end Overlay.Kind

namespace Npc

/-- Whether anything is said about an npc. -/
def IsDescribed (n : Npc) : Prop :=
  n.name.isSome ∨ n.desc.isSome ∨ n.location.isSome ∨ n.state.isSome ∨ n.movement.isSome ∨
    n.dialogue ≠ []

/-- Every way of moving leads through rooms, and every dialogue has lines. -/
structure HasLines (n : Npc) : Prop where
  movement : ∀ m ∈ n.movement, m.rooms ≠ []
  dialogue : ∀ d ∈ n.dialogue, d.lines ≠ []

end Npc

/-- A definition in which at most `limit` schedules and condition groups lie inside one another. -/
def Definition.WellShaped (limit : Nat) : Definition → Prop
  | roomSet d => d.rooms ≠ []
  | room d => ∀ o ∈ d.overlays, o.kind.WellShaped
  | item d => ∀ x ∈ d.consumable, 1 ≤ x.usesLeft
  | npc d => d.IsDescribed ∧ d.HasLines
  | trigger d => d.block ≠ [] ∧ ∀ s ∈ d.block, s.WellShaped limit
  | spinner d => d.wedges ≠ [] ∧ ∀ w ∈ d.wedges, ∀ x ∈ w.width, 1 ≤ x
  | goal _ => True

/-- The overlays in a definition. -/
def Definition.overlays : Definition → List Overlay
  | room d => d.overlays
  | _ => []

namespace Shape

variable {n : Node} {what : String}

/-! ## Lists of ids and numbers -/

theorem ids_ne_nil {of : Referent} :
    Gives (fun _ => True) (n.ids what : Except ShapeFault (List (Id of))) (· ≠ []) := by
  unfold Node.ids
  split
  · exact .fail trivial
  · rename_i h
    exact .done (by simpa using h)

theorem positive_yields : Yields (positive what) (1 ≤ ·) := by
  refine .behind fun p => .behind fun x => ?_
  split
  · exact fun _ _ => .fail trivial
  · refine .done ?_
    have hx : x ≠ 0 := ‹_›
    rw [← UInt32.pos_iff_ne_zero] at hx
    exact hx

theorem width?_yields : Yields width? fun width => ∀ w ∈ width, 1 ≤ w := by
  refine .behind fun n? => ?_
  cases n? with
  | none => exact .done (by simp)
  | some n => exact (Yields.lift positive_yields.parts).bind fun w hw => .done (by simpa using hw)

/-! ## Conditions -/

theorem chance_gives_range {value : Int64} {span : Span} :
    Gives (fun _ => True) (chance value span) fun percent => 1 ≤ percent ∧ percent ≤ 100 := by
  unfold chance
  split
  · rename_i h
    have hpercent : (UInt8.ofNat value.toInt.toNat).toNat = value.toInt.toNat := by
      rw [UInt8.toNat_ofNat']
      omega
    refine .done ⟨UInt8.le_iff_toNat_le.mpr ?_, UInt8.le_iff_toNat_le.mpr ?_⟩
    · rw [hpercent, UInt8.toNat_one]
      omega
    · rw [hpercent, show (100 : UInt8).toNat = 100 from rfl]
      omega
  · exact .fail trivial

theorem query_wellShaped : Gives (fun _ => True) (query n) (·.WellShaped) := by
  unfold query
  refine Yields.parts ?_
  split
  -- Most questions are made of ids, of which nothing is asked.
  all_goals try
    with_reducible
      repeat refine Yields.behind fun _ => ?_
      refine Yields.done ?_
    exact trivial
  · exact .behind fun p => (Yields.lift chance_gives_range).bind fun _ h => .done h
  · refine .behind fun spinner => .behind fun list? => ?_
    cases list? with
    | none => exact .done (by simp [Query.WellShaped])
    | some list =>
        refine (Yields.lift ids_ne_nil).bind fun rooms hrooms => .done ?_
        simpa [Query.WellShaped] using hrooms
  · exact .behind fun list => (Yields.lift ids_ne_nil).bind fun _ h => .done h
  · exact fun _ _ => .fail trivial

/-- A condition whose members satisfy `N` is a single question or a group of some members. -/
theorem conditionOver_wellShaped {member : Node → Except ShapeFault Condition} {N : Condition → Prop}
    (h : ∀ m, Gives (fun _ => True) (member m) N) :
    Gives (fun _ => True) (conditionOver member n) fun c =>
      (∃ q, c = .single q ∧ q.WellShaped) ∨
        ∃ ms, ms ≠ [] ∧ (∀ m ∈ ms, N m) ∧ (c = .any ms ∨ c = .all ms) := by
  unfold conditionOver
  split
  · refine (Gives.mapM fun m _ => h m).bind fun ms hms => ?_
    refine Gives.ite (fun _ => .fail trivial) fun hne => .done (.inr ⟨ms, ?_, hms, ?_⟩)
    · simpa using hne
    · split <;> simp
  · exact query_wellShaped.bind fun q hq => .done (.inl ⟨q, rfl, hq⟩)

theorem condition_wellShaped {limit levels : Nat} :
    Gives (fun _ => True) (condition limit levels n) (·.WellShaped levels) := by
  induction levels generalizing n with
  | zero =>
      refine (conditionOver_wellShaped (N := fun _ => False) fun m => .fail trivial).mono ?_
      rintro c (⟨q, rfl, hq⟩ | ⟨ms, hne, hms, -⟩)
      · exact hq
      · obtain ⟨m, hm⟩ := List.exists_mem_of_ne_nil ms hne
        exact (hms m hm).elim
  | succ levels ih =>
      refine (conditionOver_wellShaped fun m => ih).mono ?_
      rintro c (⟨q, rfl, hq⟩ | ⟨ms, hne, hms, rfl | rfl⟩)
      · exact hq
      · exact ⟨hne, hms⟩
      · exact ⟨hne, hms⟩

/-! ## Actions -/

theorem effect_wellShaped : Gives (fun _ => True) (effect n) (·.WellShaped) := by
  unfold effect
  refine Yields.parts ?_
  by_cases hrule : n.rule = .actAddWedge
  · rw [hrule]
    refine .behind fun text => width?_yields.bind fun width hwidth => .behind fun spinner => ?_
    exact .done hwidth
  · split
    all_goals first
      | exact absurd ‹_› hrule
      | with_reducible
          repeat refine Yields.behind fun _ => ?_
          refine Yields.done ?_
        exact trivial
      | exact fun _ _ => .fail trivial

/-! ## Schedules and statements -/

section

variable {guard ask : Node → Except ShapeFault Condition} {body : Node → Collecting (List Statement)}
  {act : Node → Collecting Action} {C : Condition → Prop} {A : Action → Prop}

/-- Statements of a body, of which there are some. -/
def BodyOver (C : Condition → Prop) (A : Action → Prop) (ss : List Statement) : Prop :=
  ss ≠ [] ∧ ∀ s ∈ ss, s.MadeOf C A

theorem deed_wellShaped (hact : ∀ m, Ensures (act m) A) :
    Ensures (deed act n) (A ·.action) :=
  .behind fun order => (hact order).bind fun _ => .done fun ha => ha

theorem branch_wellShaped (hask : ∀ m, Gives (fun _ => True) (ask m) C)
    (hact : ∀ m, Ensures (act m) A) : Ensures (branch ask act n) (·.MadeOf C A) := by
  refine .behind fun p => (Ensures.keepAll fun m _ => deed_wellShaped hact).bind fun deeds => ?_
  refine (Ensures.lift (hask _)).bind fun c => .ite (fun _ => .fail_bind) fun hne => .done ?_
  rintro hc ⟨hdeeds, hall⟩
  exact ⟨hc, hdeeds (by simpa using hne), hall⟩

theorem statements_wellShaped (hask : ∀ m, Gives (fun _ => True) (ask m) C)
    (hact : ∀ m, Ensures (act m) A) : Ensures (statements ask act n) (BodyOver C A) := by
  refine .ite (fun _ => .fail_bind) fun hne => ?_
  refine (Ensures.keepAll (R := (·.MadeOf C A)) fun m _ => ?_).mono fun ss h =>
    ⟨h.1 (by simpa using hne), h.2⟩
  unfold statement
  split
  · exact (deed_wellShaped hact).bind fun d => .done fun hd => hd
  · exact branch_wellShaped hask hact
  · exact .fail

end

theorem plainSchedule_wellShaped {P : List Statement → Prop}
    {body : Node → Collecting (List Statement)} (hbody : ∀ m, Ensures (body m) P) :
    Ensures (plainSchedule body n) fun a =>
      ∃ anchor turns note ss, a = .schedule anchor turns none note ss ∧ P ss :=
  .behind fun _ => (hbody _).bind fun _ => .done fun h => ⟨_, _, _, _, rfl, h⟩

theorem guardedSchedule_wellShaped {C : Condition → Prop} {P : List Statement → Prop}
    {guard : Node → Except ShapeFault Condition} {body : Node → Collecting (List Statement)}
    (hguard : ∀ m, Gives (fun _ => True) (guard m) C) (hbody : ∀ m, Ensures (body m) P) :
    Ensures (guardedSchedule guard body n) fun a =>
      ∃ anchor turns g note ss, a = .schedule anchor turns (some g) note ss ∧ C g.condition ∧ P ss := by
  refine .behind fun parts => ?_
  split
  · rename_i condition hcondition
    refine (hbody _).bind fun ss => .done fun h => ⟨_, _, _, _, _, rfl, ?_, h⟩
    exact (hguard _).ok hcondition
  · refine Ensures.bind (Q := fun _ => True) ?_ fun _ => .fail
    exact (hbody _).keep.bind fun _ => .done fun _ => trivial

theorem modifyItem_wellShaped : Ensures (modifyItem n) (·.WellShaped) := by
  refine .behind fun p => (Ensures.foldlM (R := fun _ => True) fun patch m _ => ?_).bind fun _ =>
    .done fun _ => trivial
  unfold patchStatement
  split
  any_goals exact .behind fun _ => .setOnce fun _ => trivial
  · exact .behind fun _ => .behind fun _ => .setOnce fun _ => trivial
  · exact .behind fun _ => .behind fun _ => .done fun _ => trivial
  · exact .behind fun _ => .behind fun _ => .done fun _ => trivial
  · exact .fail

theorem action_wellShaped {limit levels : Nat} :
    Ensures (action limit levels n) (·.WellShaped levels) := by
  have heffect {e : Effect} (he : e.WellShaped) (levels : Nat) :
      (Action.effect e).WellShaped levels := by
    cases levels <;> exact he
  induction levels generalizing n with
  | zero =>
      unfold action actionOver
      split
      · exact modifyItem_wellShaped.bind fun e => .done fun he => heffect he 0
      · refine (plainSchedule_wellShaped (P := fun _ => False) fun m => .fail).mono ?_
        rintro a ⟨_, _, _, _, -, h⟩
        exact h.elim
      · refine (guardedSchedule_wellShaped (P := fun _ => False) (fun m => condition_wellShaped)
          fun m => .fail).mono ?_
        rintro a ⟨_, _, _, _, _, -, -, h⟩
        exact h.elim
      · exact (Ensures.lift effect_wellShaped).bind fun e => .done fun he => heffect he 0
  | succ levels ih =>
      unfold action actionOver
      have hbody (m : Node) : Ensures (statements (condition limit levels) (action limit levels) m)
          (BodyOver (·.WellShaped levels) (·.WellShaped levels)) :=
        statements_wellShaped (fun k => condition_wellShaped) fun k => ih
      split
      · exact modifyItem_wellShaped.bind fun e => .done fun he => heffect he _
      · refine (plainSchedule_wellShaped hbody).mono ?_
        rintro a ⟨_, _, _, ss, rfl, hss⟩
        exact ⟨by simp, hss⟩
      · refine (guardedSchedule_wellShaped (fun m => condition_wellShaped) hbody).mono ?_
        rintro a ⟨_, _, g, _, ss, rfl, hg, hss⟩
        exact ⟨by simpa using hg, hss⟩
      · exact (Ensures.lift effect_wellShaped).bind fun e => .done fun he => heffect he _

theorem trigger_wellShaped {limit : Nat} :
    Ensures (trigger limit n) fun t => t.block ≠ [] ∧ ∀ s ∈ t.block, s.WellShaped limit :=
  .behind fun _ => (statements_wellShaped (fun _ => condition_wellShaped) fun _ =>
    action_wellShaped).bind fun _ => .done fun h => h

/-! ## Rooms -/

theorem roomSet_wellShaped : Gives (fun _ => True) (roomSet n) (·.rooms ≠ []) :=
  Gives.any.bind fun _ _ => ids_ne_nil.bind fun _ h => .done h

theorem textPair_ensures {first second : String} {firstRule : Rule} {lines : List Node} :
    Ensures (textPair first second firstRule n lines) fun _ => True := by
  refine (Ensures.keepChanges (A := fun _ => True) fun texts m _ => ?_).bind fun texts => ?_
  · refine .behind fun text => ?_
    split
    · exact .setOnce fun _ => trivial
    · exact .setOnce fun _ => trivial
  · exact .behind fun _ => .behind fun _ => .done fun _ => trivial

/-- The conditions of a general overlay are those of its parts that are conditions. -/
theorem generalPart_ensures {parts : List Overlay.Condition × Option String} :
    Ensures (generalPart parts n) fun parts' =>
      (n.rule ≠ .overlayText ∨ parts.1 ≠ []) → parts'.1 ≠ [] := by
  unfold generalPart
  split
  · rename_i hrule
    exact .behind fun text => .setOnce fun h => h.resolve_left (fun h => h hrule)
  · refine (Ensures.lift .any).keep.bind fun x? => .done ?_
    rintro ⟨x, rfl, -⟩ -
    simp

/-- An overlay has lines if it shows them by mood, and conditions if its first part is one. -/
theorem overlayKind_ensures : Ensures (overlayKind n) fun kind =>
    kind.WellShaped ∧
      ((n.rule = .overlayConditional → n.nodes.head?.any (·.rule ≠ .overlayText)) →
        kind.HasConditions) := by
  unfold overlayKind
  split <;> rename_i hrule
  · exact .behind fun _ => textPair_ensures.bind fun _ => .done fun _ => ⟨trivial, fun _ => trivial⟩
  · exact .behind fun _ => textPair_ensures.bind fun _ => .done fun _ => ⟨trivial, fun _ => trivial⟩
  · exact .behind fun _ => textPair_ensures.bind fun _ => .done fun _ => ⟨trivial, fun _ => trivial⟩
  · refine .behind fun p => (Ensures.keepAll (R := fun _ => True) fun m _ => .lift .any).bind
      fun lines => .ite (fun _ => .fail_bind) fun hne => .done fun h => ⟨?_, fun _ => trivial⟩
    exact h.1 (by simpa using hne)
  · have hparts : Ensures (n.nodes.foldlM generalPart ([], none)) fun parts =>
        n.nodes.head?.any (·.rule ≠ .overlayText) → parts.1 ≠ [] := by
      cases n.nodes with
      | nil => exact .done (by simp)
      | cons m ms =>
          rw [List.foldlM_cons]
          refine generalPart_ensures.bind fun parts => ?_
          refine (Ensures.foldlM (R := fun parts => parts.1 ≠ []) fun parts k _ => ?_).mono ?_
          · exact generalPart_ensures.mono fun _ h hne => h (.inr hne)
          · exact fun _ h hfirst hm => h (hfirst (.inl (by simpa using hm)))
    refine hparts.bind fun parts => ?_
    obtain ⟨conditions, text?⟩ := parts
    exact .behind fun text => .done fun h => ⟨trivial, fun hn => h (hn hrule)⟩
  · exact .fail

theorem exitOption_ensures {e : Exit} : Ensures (exitOption e n) fun _ => True := by
  unfold exitOption
  split
  · exact .behind fun _ => .behind fun _ => .done trivial
  · exact .behind fun _ => .behind fun _ => .done trivial
  · exact .behind fun _ => .setOnce trivial
  · exact .done trivial
  · exact .done trivial
  · exact .fail

theorem exit_ensures : Ensures (exit n) fun _ => True := by
  refine .behind fun p => ?_
  obtain ⟨direction, target, options?⟩ := p
  cases options? with
  | none => exact .done trivial
  | some options =>
      refine (Ensures.keepChanges (A := fun _ => True) fun e m _ => ?_).mono fun _ _ => trivial
      exact exitOption_ensures.mono fun _ _ _ => trivial

theorem roomStatement_ensures {K : Overlay.Kind → Prop} {r : Room} (hn : Ensures (overlayKind n) K) :
    Ensures (roomStatement r n) fun r' => (∀ o ∈ r.overlays, K o.kind) → ∀ o ∈ r'.overlays, K o.kind := by
  unfold roomStatement
  split
  · exact .behind fun _ => .setOnce fun h => h
  · exact .behind fun _ => .setOnce fun h => h
  · exact .behind fun _ => .setOnce fun h => h
  · exact exit_ensures.bind fun _ => .done fun _ h => h
  · refine Ensures.bind (Q := fun o => K o.kind) (hn.bind fun _ => .done fun hk => hk) fun o => ?_
    refine .done fun ho h o' ho' => ?_
    rcases List.mem_append.mp ho' with ho' | ho'
    · exact h o' ho'
    · rw [List.mem_singleton.mp ho']
      exact ho

/-- The nodes behind an id are all nodes there are. -/
theorem head_id {of : Referent} :
    Gives (fun _ => True) (n.head (Shape.id what : Reading (Id of))) fun p =>
      Element.nodes p.2 = n.nodes := by
  unfold Node.head Node.nodes
  cases n.children with
  | nil => exact .fail trivial
  | cons c cs =>
      cases c with
      | node m => exact .fail trivial
      | token t => exact .done rfl

/-- What holds of all overlays in the parts of a room holds of those it is built with. -/
theorem room_overlays {K : Overlay.Kind → Prop} (hn : ∀ m ∈ n.nodes, Ensures (overlayKind m) K) :
    Ensures (room n) fun r => ∀ o ∈ r.overlays, K o.kind := by
  refine .given head_id fun p hp => (Ensures.keepChanges
    (A := fun r => ∀ o ∈ r.overlays, K o.kind) fun r m hm => ?_).mono fun r h => h (by simp)
  exact roomStatement_ensures (hn m (hp ▸ hm))

/-! ## Items -/

theorem consumableStatement_ensures {draft : ConsumableDraft} :
    Ensures (consumableStatement draft n) fun draft' =>
      (∀ x ∈ draft.usesLeft, 1 ≤ x) → ∀ x ∈ draft'.usesLeft, 1 ≤ x := by
  have hfinish (w : WhenConsumed) : Ensures (do return { draft with
      whenConsumed := ← setOnce draft.whenConsumed "when_consumed" n.span w }) fun draft' =>
        (∀ x ∈ draft.usesLeft, 1 ≤ x) → ∀ x ∈ draft'.usesLeft, 1 ≤ x :=
    .setOnce fun h => h
  unfold consumableStatement
  split
  · refine .behind fun p => ?_
    dsimp only
    split
    · exact Ensures.report.bind fun _ => .setOnce False.elim
    · rename_i hpos
      refine .setOnce fun _ x hx => ?_
      cases hx
      have hne : (unsigned? p.1).getD 0 ≠ 0 := hpos
      rw [← UInt32.pos_iff_ne_zero] at hne
      exact hne
  · exact .behind fun _ => .behind fun _ => .done fun h => h
  · exact hfinish _
  · exact .behind fun _ => hfinish _
  · exact .behind fun _ => hfinish _
  · exact .fail

theorem consumable_wellShaped : Ensures (consumable n) fun x => 1 ≤ x.usesLeft := by
  refine (Ensures.keepChanges fun draft m _ => consumableStatement_ensures).bind fun draft => ?_
  refine (Ensures.lift (require_gives trivial)).bind fun uses => .behind fun _ => .done fun huses h => ?_
  exact h (by simp) uses huses

theorem itemStatement_ensures {i : Item} : Ensures (itemStatement i n) fun i' =>
    (∀ x ∈ i.consumable, 1 ≤ x.usesLeft) → ∀ x ∈ i'.consumable, 1 ≤ x.usesLeft := by
  unfold itemStatement
  split
  any_goals exact .behind fun _ => .setOnce fun h => h
  any_goals exact .behind fun _ => .done fun h => h
  · exact .behind fun _ => .behind fun _ => .setOnce fun h => h
  · refine consumable_wellShaped.bind fun x => .setOnce fun hx _ y hy => ?_
    cases hy
    exact hx
  · exact .fail

theorem item_wellShaped : Ensures (item n) fun i => ∀ x ∈ i.consumable, 1 ≤ x.usesLeft := by
  refine .behind fun p => ?_
  exact (Ensures.keepChanges fun i m _ => itemStatement_ensures).mono fun i h => h (by simp)

/-! ## Npcs -/

theorem movement_wellShaped : Ensures (movement n) (·.rooms ≠ []) := by
  refine .behind fun p => (Ensures.lift ids_ne_nil).bind fun rooms => ?_
  refine (Ensures.foldlM (R := fun m => m.rooms ≠ []) fun m option _ => ?_).mono fun _ h hrooms => h hrooms
  unfold movementOption
  split
  · exact .behind fun _ => .setOnce fun h => h
  · exact .behind fun _ => .setOnce fun h => h
  · exact .behind fun _ => .setOnce fun h => h
  · exact .fail

theorem dialogue_wellShaped : Gives (fun _ => True) (dialogue n) (·.lines ≠ []) := by
  refine Gives.any.bind fun p _ => Gives.ite (fun _ => .fail trivial) fun hne => .done ?_
  simpa using hne

/-- A statement says something about an npc. -/
theorem npcStatement_ensures {x : Npc} : Ensures (npcStatement x n) fun x' =>
    x.HasLines → x'.IsDescribed ∧ x'.HasLines := by
  have hplace (l : Npc.Location) : Ensures (do return { x with
      location := ← setOnce x.location "npc location" n.span l }) fun x' =>
        x.HasLines → x'.IsDescribed ∧ x'.HasLines :=
    .setOnce fun h => ⟨by simp [Npc.IsDescribed], h.movement, h.dialogue⟩
  unfold npcStatement
  split
  · exact .behind fun _ => .setOnce fun h => ⟨by simp [Npc.IsDescribed], h.movement, h.dialogue⟩
  · exact .behind fun _ => .setOnce fun h => ⟨by simp [Npc.IsDescribed], h.movement, h.dialogue⟩
  · exact .behind fun _ => hplace _
  · exact .behind fun _ => hplace _
  · exact .behind fun _ => .behind fun _ =>
      .setOnce fun h => ⟨by simp [Npc.IsDescribed], h.movement, h.dialogue⟩
  · refine movement_wellShaped.bind fun m => .setOnce fun hm h =>
      ⟨by simp [Npc.IsDescribed], ?_, h.dialogue⟩
    simpa using hm
  · refine (Ensures.lift dialogue_wellShaped).bind fun d => .done fun hd h =>
      ⟨by simp [Npc.IsDescribed], h.movement, fun d' hd' => ?_⟩
    rcases List.mem_append.mp hd' with hd' | hd'
    · exact h.dialogue d' hd'
    · rw [List.mem_singleton.mp hd']
      exact hd
  · exact .fail

theorem npc_wellShaped : Ensures (npc n) fun x => x.IsDescribed ∧ x.HasLines := by
  refine .behind fun p => .ite (fun _ => .fail_bind) fun hne => ?_
  refine (Ensures.keepChanges_of_ne_nil (A := Npc.HasLines) (by simpa using hne)
    (fun _ h => h.2) fun x m _ => npcStatement_ensures).mono fun x h => h ⟨by simp, by simp⟩

/-! ## Spinners and goals -/

theorem spinner_wellShaped : Gives (fun _ => True) (spinner n) fun s =>
    s.wedges ≠ [] ∧ ∀ w ∈ s.wedges, ∀ x ∈ w.width, 1 ≤ x := by
  refine Gives.any.bind fun p _ => (Gives.mapM (R := fun w : Wedge => ∀ x ∈ w.width, 1 ≤ x)
    fun m _ => ?_).bind fun wedges hwedges => ?_
  · refine Gives.ite (fun _ => .fail trivial) fun _ => Yields.parts ?_
    exact .behind fun text => width?_yields.bind fun width hwidth => .done hwidth
  · exact Gives.ite (fun _ => .fail trivial) fun hne => .done ⟨by simpa using hne, hwedges⟩

theorem goal_ensures : Ensures (goal n) fun _ => True := by
  refine .behind fun p => (Ensures.foldlM (R := fun _ => True) fun draft m _ => ?_).bind fun draft => ?_
  · unfold goalStatement
    split
    · exact .behind fun _ => .setOnce fun _ => trivial
    · exact .behind fun _ => .setOnce fun _ => trivial
    · exact .behind fun _ => .behind fun _ => .setOnce fun _ => trivial
    · exact .behind fun _ => .behind fun _ => .setOnce fun _ => trivial
    · exact .behind fun _ => .behind fun _ => .setOnce fun _ => trivial
    · exact .behind fun _ => .behind fun _ => .setOnce fun _ => trivial
    · exact .fail
  · refine .ite (fun _ => .fail_bind) fun _ => ?_
    exact .behind fun _ => .behind fun _ => .behind fun _ => .behind fun _ => .behind fun _ =>
      .done fun _ => trivial

/-! ## Definitions -/

theorem definition_wellShaped {limit : Nat} :
    Ensures (definition limit n) (·.WellShaped limit) := by
  unfold definition
  split
  · exact (Ensures.lift roomSet_wellShaped).bind fun _ => .done fun h => h
  · exact (room_overlays fun m _ => overlayKind_ensures.mono fun _ h => h.1).bind fun _ =>
      .done fun h => h
  · exact item_wellShaped.bind fun _ => .done fun h => h
  · exact npc_wellShaped.bind fun _ => .done fun h => h
  · exact trigger_wellShaped.bind fun _ => .done fun h => h
  · exact (Ensures.lift spinner_wellShaped).bind fun _ => .done fun h => h
  · exact goal_ensures.bind fun _ => .done fun _ => trivial
  · exact .fail

/-- The overlays of a definition have conditions if in the tree they begin with one. -/
theorem definition_overlays {limit : Nat}
    (h : ∀ m ∈ n.nodes, m.rule = .overlayConditional → m.nodes.head?.any (·.rule ≠ .overlayText)) :
    Ensures (definition limit n) fun d => ∀ o ∈ d.overlays, o.kind.HasConditions := by
  have hany {α : Type} {m : Collecting α} {Q : α → Prop} {g : α → Definition}
      (hm : Ensures m Q) (hg : ∀ a, (g a).overlays = []) :
      Ensures (do return g (← m)) fun d => ∀ o ∈ d.overlays, o.kind.HasConditions :=
    hm.bind fun a => .done fun _ => by simp [hg]
  unfold definition
  split
  · exact hany (.lift roomSet_wellShaped) fun _ => rfl
  · exact (room_overlays fun m hm => overlayKind_ensures.mono fun _ hk => hk.2 (h m hm)).bind
      fun _ => .done fun ho => ho
  · exact hany item_wellShaped fun _ => rfl
  · exact hany npc_wellShaped fun _ => rfl
  · exact hany trigger_wellShaped fun _ => rfl
  · exact hany (.lift spinner_wellShaped) fun _ => rfl
  · exact hany goal_ensures fun _ => rfl
  · exact .fail

end Shape

/-- The first part of a general overlay that fills its slots is a condition. -/
theorem Node.isFilled.head_condition {n : Node} (h : n.isFilled) (hr : n.rule = .overlayConditional) :
    n.nodes.head?.any (·.rule ≠ .overlayText) := by
  unfold Node.isFilled at h
  rw [hr] at h
  unfold Node.nodes
  match hcs : n.children with
  | [] => simp [hcs, Rule.slots] at h
  | .token t :: cs => simp [hcs, Rule.slots, Part.fits, Part.admits] at h
  | .node m :: cs =>
      simp only [hcs, Rule.slots, fill_one, Bool.and_eq_true] at h
      have hm : m.rule ∈ Rule.overlayConditions := by simpa [Part.fits] using h.1
      simp only [Element.nodes, List.filterMap_cons, Element.node?, List.head?_cons, Option.any_some,
        decide_eq_true_eq]
      rintro htext
      rw [htext] at hm
      exact absurd hm (by decide)

namespace Built

open Shape

/-- A definition that is kept was built without a fault from one of the nodes. -/
theorem mem_ofNodes {limit : Nat} {d : Definition} {ns : List Node}
    (h : d ∈ (ofNodes limit ns).definitions) : ∃ n ∈ ns, Shape.definition limit n [] = .ok d [] := by
  induction ns with
  | nil => cases h
  | cons n ns ih =>
      rcases List.mem_append.mp h with h | h
      · refine ⟨n, by simp, ?_⟩
        unfold ofNode at h
        split at h
        · rw [List.mem_singleton.mp h]
          assumption
        · cases h
        · cases h
      · obtain ⟨m, hm, hd⟩ := ih h
        exact ⟨m, by simp [hm], hd⟩

/-- What is ensured of a definition holds of those that are kept. -/
theorem ofTree_ensures {settings : Settings} {tree : Tree} {Q : Definition → Prop}
    (h : ∀ n ∈ tree.root.nodes, Ensures (Shape.definition settings.maxNesting n) Q) :
    ∀ d ∈ (ofTree settings tree).definitions, Q d := by
  intro d hd
  obtain ⟨n, hn, hrun⟩ := mem_ofNodes hd
  exact ((h n hn).ok hrun).2 rfl

/-- Every definition that is kept is well shaped, whatever the tree. In the tree of a source every
overlay that shows under conditions has some, too. -/
theorem ofTree_wellShaped :
    (∀ settings tree, ∀ d ∈ (ofTree settings tree).definitions, d.WellShaped settings.maxNesting) ∧
    ∀ source tokens settings settings', Lexer.tokens source = .ok tokens →
      ∀ d ∈ (ofTree settings' (Tree.ofTokens settings tokens).tree).definitions,
        ∀ o ∈ d.overlays, o.kind.HasConditions := by
  refine ⟨fun settings tree => ofTree_ensures fun n _ => definition_wellShaped, ?_⟩
  intro source tokens settings settings' h
  obtain ⟨-, hsound⟩ := (Tree.ofTokens_grown settings h).root
  refine ofTree_ensures fun n hn => definition_overlays fun m hm => ?_
  exact Node.isFilled.head_condition ((hsound.node hn).node hm).here.filled

end Built

end Storyworld
