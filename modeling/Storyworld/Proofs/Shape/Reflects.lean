import Storyworld.Proofs.Shape.Fields
import Storyworld.Proofs.Shape.Values

namespace Storyworld

/-! Rooms, items, npcs, goals and changes to items told by tables of their fields. Each of them is
built without a fault exactly from the blocks that it reflects. -/

open Shape

/-- A block that begins with an id and goes on with statements. -/
theorem GoesBy.makes_block {σ φ : Type} {fields : List (Field σ)} {fixed : σ → φ}
    {change : σ → Node → Collecting σ} {of : Referent} {what : String} {n : Node} {b : σ}
    (h : GoesBy fields fixed change) (start : Id of → σ)
    (hstart : ∀ i, ∀ f ∈ fields, f.keeping.empty = f.get (start i)) :
    Makes (do
      let (i, statements) ← n.head (id what)
      keepChanges change (start i) (Element.nodes statements)) b ↔
      ∃ i, NamedBy i n ∧ fixed b = fixed (start i) ∧ Gathers fields b n.nodes := by
  refine makes_named.trans (exists_congr fun i => and_congr_right fun hid => ?_)
  dsimp only
  rw [nodes_tail hid, h.makes_keepChanges (hstart i)]

/-! ## Exits -/

/-- The options of an exit are in a block of their own, if there is one. -/
def exitOptions (parts : List Element) : List Node :=
  ((leading [.exitBlock] parts).map Node.nodes).getD []

namespace Exit

def fields : List (Field Exit) :=
  [⟨[.exitRequiredItems], .joined fun items n => HeldBy (ListedBy items) n, (·.requiredItems),
      fun e x => { e with requiredItems := x }⟩,
    ⟨[.exitRequiredFlags], .joined fun flags n => HeldBy (ListedBy flags) n, (·.requiredFlags),
      fun e x => { e with requiredFlags := x }⟩,
    ⟨[.exitBarred], .slot QuotedBy, (·.barred), fun e x => { e with barred := x }⟩,
    ⟨[.exitHidden], .flag, (·.hidden), fun e x => { e with hidden := x }⟩,
    ⟨[.exitLocked], .flag, (·.locked), fun e x => { e with locked := x }⟩]

theorem goesBy : GoesBy fields (fun e => (e.direction, e.target, e.span)) exitOption where
  lawful := {
    get_set := by simp [fields]
    apart := by simp [fields]
    rules := by decide
    fixed_set := by simp [fields]
    ext {e e'} h hf := by
      cases e
      cases e'
      simp_all [fields] }
  blind := blind_exitOption
  steps {e n e'} := by
    unfold exitOption
    split <;> rename_i hr
    case h_6 => exact iff_of_false makes_fail.mp (not_steps (by simp_all [fields]))
    all_goals simp only [fields, steps_cons, steps_nil, hr, List.mem_cons, List.not_mem_nil, or_false,
      reduceCtorEq, false_and, true_and, false_or]
    case h_1 | h_2 =>
      rw [lift_lift_bind]
      exact makes_entries (makes_lift.trans (child_bind_eq_ok fun _ => ids_eq_ok)) fun _ => rfl
    case h_3 => exact makes_slot (makes_lift.trans parts_string)
    case h_4 | h_5 => exact makes_flag rfl

/-- An exit with its direction, its target and its options. -/
def Reflects (e : Exit) (n : Node) : Prop :=
  ∃ t u rest, n.children = .token t :: .token u :: rest ∧
    t.stringValue?.getD t.text = e.direction ∧ u.text = e.target.name ∧ e.span = n.span ∧
      Gathers fields e (exitOptions rest)

/-- An exit without a block is built like one whose block has no options. -/
theorem makes_options {e : Exit} {direction : String} {target : Id .room} {span : Span}
    {options? : Option Node} :
    Makes (match options? with
      | some options =>
        keepChanges exitOption ⟨direction, target, [], [], none, false, false, span⟩ options.nodes
      | none => pure ⟨direction, target, [], [], none, false, false, span⟩) e ↔
      (e.direction, e.target, e.span) = (direction, target, span) ∧
        Gathers fields e ((options?.map Node.nodes).getD []) := by
  have hmakes {ns : List Node} :
      Makes (keepChanges exitOption ⟨direction, target, [], [], none, false, false, span⟩ ns) e ↔
        (e.direction, e.target, e.span) = (direction, target, span) ∧ Gathers fields e ns :=
    goesBy.makes_keepChanges (by simp [fields, Keeping.slot, Keeping.joined, Keeping.flag])
  cases options? with
  | none => exact @hmakes []
  | some options => exact hmakes

theorem makes_iff {e : Exit} {n : Node} : Makes (Shape.exit n) e ↔ e.Reflects n := by
  unfold Shape.exit Reflects
  simp only [makes_given, Prod.exists, parts_eq_ok, reads_bind, reads_wordOrString, reads_id,
    reads_childOf?, reads_done, Prod.mk.injEq]
  constructor
  · rintro ⟨_, _, _, ⟨_, _, _, ⟨t, hcs, rfl⟩, _, _, ⟨u, rfl, hu⟩, _, _, ⟨rfl, rfl⟩, ⟨rfl, rfl, rfl⟩, rfl⟩, h⟩
    obtain ⟨hfixed, hgathers⟩ := makes_options.mp h
    simp only [Prod.mk.injEq] at hfixed
    obtain ⟨hdirection, htarget, hspan⟩ := hfixed
    exact ⟨t, u, _, hcs, hdirection.symm, by rw [hu, htarget], hspan, hgathers⟩
  · rintro ⟨t, u, rest, hcs, hdirection, hu, hspan, hgathers⟩
    refine ⟨e.direction, e.target, _, ⟨_, _, _, ⟨t, hcs, hdirection⟩, e.target, _, ⟨u, rfl, hu⟩, _, _,
      ⟨rfl, rfl⟩, ⟨rfl, rfl, rfl⟩, rfl⟩, ?_⟩
    exact makes_options.mpr ⟨by rw [hspan], hgathers⟩

end Exit

/-! ## Rooms -/

/-- An overlay is told by nothing but the construct it is built from. -/
def Overlay.BuiltFrom (o : Overlay) (n : Node) : Prop :=
  Makes (overlay n) o

namespace Room

def fields : List (Field Room) :=
  [⟨[.roomName], .slot QuotedBy, (·.name), fun r x => { r with name := x }⟩,
    ⟨[.roomDesc], .slot QuotedBy, (·.desc), fun r x => { r with desc := x }⟩,
    ⟨[.roomVisited], .slot DecidedBy, (·.visited), fun r x => { r with visited := x }⟩,
    ⟨[.exit], .list Exit.Reflects, (·.exits), fun r x => { r with exits := x }⟩,
    ⟨Rule.overlays, .list Overlay.BuiltFrom, (·.overlays),
      fun r x => { r with overlays := x }⟩]

theorem makes_overlay {o : Overlay} {n : Node} (h : o.BuiltFrom n) :
    n.rule ∈ Rule.overlays := by
  obtain ⟨kind, hkind, -⟩ := (makes_bind fun _ => Blind.done _).mp h
  unfold overlayKind at hkind
  split at hkind <;> rename_i hr
  case h_6 => exact (makes_fail.mp hkind).elim
  all_goals
    rw [hr]
    decide

theorem goesBy : GoesBy fields (fun r => (r.id, r.span)) roomStatement where
  lawful := {
    get_set := by simp [fields]
    apart := by simp [fields]
    rules := by decide
    fixed_set := by simp [fields]
    ext {r r'} h hf := by
      cases r
      cases r'
      simp_all [fields] }
  blind := blind_roomStatement
  steps {r n r'} := by
    unfold roomStatement
    split <;> rename_i hr
    case h_5 =>
      simp only [imp_false] at *
      simp only [fields, steps_cons, steps_nil, List.mem_singleton, or_false, *, false_and, false_or]
      refine Iff.trans (makes_entry (P := Overlay.BuiltFrom) Iff.rfl ?_) (and_iff_right_of_imp ?_).symm
      · exact fun _ => rfl
      · rintro ⟨_, ⟨o, ho, _⟩, _⟩
        exact makes_overlay ho
    all_goals simp only [fields, steps_cons, steps_nil, hr, Rule.overlays, List.mem_cons,
      List.not_mem_nil, or_false, reduceCtorEq, false_and, true_and, false_or]
    case h_1 | h_2 => exact makes_slot (makes_lift.trans parts_string)
    case h_3 => exact makes_slot (makes_lift.trans parts_boolean)
    case h_4 => exact makes_entry Exit.makes_iff fun _ => rfl

/-- A room with its id and its statements. -/
structure Reflects (r : Room) (n : Node) : Prop where
  id : NamedBy r.id n
  span : r.span = n.span
  gathers : Gathers fields r n.nodes

theorem makes_iff {r : Room} {n : Node} : Makes (Shape.room n) r ↔ r.Reflects n := by
  let plain (i : Id .room) : Room := ⟨i, none, none, none, [], [], n.span⟩
  refine (goesBy.makes_block plain fun i => ?_).trans ⟨?_, ?_⟩
  · simp [plain, fields, Keeping.slot, Keeping.list]
  · rintro ⟨i, hid, hfixed, hgathers⟩
    obtain ⟨rfl, hspan⟩ := Prod.ext_iff.mp hfixed
    exact ⟨hid, hspan, hgathers⟩
  · rintro ⟨hid, hspan, hgathers⟩
    exact ⟨r.id, hid, by rw [hspan], hgathers⟩

end Room

/-! ## Consumables -/

namespace Consumable

def fields : List (Field ConsumableDraft) :=
  [⟨[.consumableUses], .slot CountedBy, (·.usesLeft), fun d x => { d with usesLeft := x }⟩,
    ⟨[.consumeOn], .list fun a n => HeldBy a.ToldBy n, (·.consumeOn),
      fun d x => { d with consumeOn := x }⟩,
    ⟨[.whenConsumedDespawn, .whenConsumedReplaceInventory, .whenConsumedReplaceRoom],
      .slot WhenConsumed.ToldBy, (·.whenConsumed), fun d x => { d with whenConsumed := x }⟩]

theorem countedBy_iff {u : UInt32} {n : Node} : CountedBy u n ↔
    ∃ p, n.parts (number "uses_left") = .ok p ∧ (unsigned? p.1).getD 0 = u ∧ u ≠ 0 := by
  have hunsigned {value : Int64} (hu : u ≠ 0) :
      (unsigned? value).getD 0 = u ↔ value.toInt = u.toNat := by
    rw [← unsigned?_eq_some]
    cases unsigned? value with
    | none => simp [hu.symm]
    | some u' => simp
  simp only [Prod.exists, parts_eq_ok, reads_number, CountedBy]
  constructor
  · rintro ⟨t, rest, value, hcs, hvalue, hu, hne⟩
    exact ⟨value, t.span, ⟨rest, t, hcs, hvalue, rfl⟩, (hunsigned hne).mpr hu, hne⟩
  · rintro ⟨value, _, ⟨rest, t, hcs, hvalue, rfl⟩, hu, hne⟩
    exact ⟨t, rest, value, hcs, hvalue, (hunsigned hne).mp hu, hne⟩

/-- A number of uses that is out of range is a fault, although it fills the slot. -/
theorem makes_uses {d d' : ConsumableDraft} {n : Node} :
    Makes (do
      let (value, span) ← n.parts (number "uses_left")
      let uses := (unsigned? value).getD 0
      if uses = 0 then report (.outOfRange "uses_left" value.toInt span)
      return { d with usesLeft := ← setOnce d.usesLeft "uses_left" n.span uses }) d' ↔
      ∃ a?, (Keeping.slot CountedBy).Takes d.usesLeft n a? ∧ { d with usesLeft := a? } = d' := by
  have hchecked {p : Int64 × Span} : Makes (
      if (unsigned? p.1).getD 0 = 0 then report (.outOfRange "uses_left" p.1.toInt p.2) >>= fun _ =>
        do return { d with usesLeft := ← setOnce d.usesLeft "uses_left" n.span ((unsigned? p.1).getD 0) }
      else do return { d with
        usesLeft := ← setOnce d.usesLeft "uses_left" n.span ((unsigned? p.1).getD 0) }) d' ↔
      (unsigned? p.1).getD 0 ≠ 0 ∧ d.usesLeft = none ∧
        { d with usesLeft := some ((unsigned? p.1).getD 0) } = d' := by
    split <;> rename_i hzero
    · exact iff_of_false (makes_report .setOnce) fun h => h.1 hzero
    · exact makes_setOnce.trans (by simp [hzero])
  refine makes_given.trans ?_
  simp only [Keeping.slot, countedBy_iff]
  constructor
  · rintro ⟨p, hp, h⟩
    obtain ⟨hne, hnone, rfl⟩ := hchecked.mp h
    exact ⟨_, ⟨_, ⟨p, hp, rfl, hne⟩, hnone, rfl⟩, rfl⟩
  · rintro ⟨_, ⟨_, ⟨p, hp, rfl, hne⟩, hnone, rfl⟩, rfl⟩
    exact ⟨p, hp, hchecked.mpr ⟨hne, hnone, rfl⟩⟩

theorem goesBy : GoesBy fields (fun _ => ()) consumableStatement where
  lawful := {
    get_set := by simp [fields]
    apart := by simp [fields]
    rules := by decide
    fixed_set := by simp [fields]
    ext {d d'} h hf := by
      cases d
      cases d'
      simp_all [fields] }
  blind := blind_consumableStatement
  steps {d n d'} := by
    unfold consumableStatement
    dsimp only
    split <;> rename_i hr
    case h_6 => exact iff_of_false makes_fail.mp (not_steps (by simp_all [fields]))
    all_goals simp only [fields, steps_cons, steps_nil, hr, List.mem_cons, List.not_mem_nil, or_false,
      reduceCtorEq, false_and, true_and, false_or, or_true]
    case h_1 => exact makes_uses
    case h_2 =>
      rw [lift_lift_bind]
      exact makes_entry (makes_lift.trans (child_bind_eq_ok fun _ => ability_eq_ok)) fun _ => rfl
    case h_3 => exact makes_filled fun {w} => by cases w <;> simp [WhenConsumed.ToldBy, hr]
    case h_4 | h_5 =>
      refine makes_slot_of fun {w} => ?_
      simp only [makes_lift, parts_id]
      cases w <;> simp [WhenConsumed.ToldBy, hr]

/-- A consumable with all its statements; it tells how often it can be used and what becomes of it. -/
def Reflects (c : Consumable) (n : Node) : Prop :=
  Gathers fields ⟨some c.usesLeft, c.consumeOn, some c.whenConsumed⟩ n.nodes

theorem makes_iff {c : Consumable} {n : Node} : Makes (Shape.consumable n) c ↔ c.Reflects n := by
  have hmakes {d : ConsumableDraft} :
      Makes (keepChanges consumableStatement {} n.nodes) d ↔ () = () ∧ Gathers fields d n.nodes :=
    goesBy.makes_keepChanges (by simp [fields, Keeping.slot, Keeping.list])
  unfold Shape.consumable
  rw [makes_bind fun d => (Blind.lift _).bind fun _ => (Blind.lift _).bind fun _ => .done _]
  simp only [makes_given, makes_done, require_eq_ok, hmakes, true_and]
  constructor
  · rintro ⟨⟨_, _, _⟩, hgathers, uses, rfl, w, rfl, rfl⟩
    exact hgathers
  · intro hgathers
    exact ⟨_, hgathers, c.usesLeft, rfl, c.whenConsumed, rfl, rfl⟩

end Consumable

/-! ## Items -/

namespace Item

def fields : List (Field Item) :=
  [⟨[.itemName], .slot QuotedBy, (·.name), fun i x => { i with name := x }⟩,
    ⟨[.itemDesc], .slot QuotedBy, (·.desc), fun i x => { i with desc := x }⟩,
    ⟨Rule.itemLocations, .slot Item.Location.ToldBy, (·.location), fun i x => { i with location := x }⟩,
    ⟨[.itemPortable], .slot DecidedBy, (·.portable), fun i x => { i with portable := x }⟩,
    ⟨[.itemRestricted], .slot DecidedBy, (·.restricted), fun i x => { i with restricted := x }⟩,
    ⟨[.ability], .list Ability.ToldBy, (·.abilities), fun i x => { i with abilities := x }⟩,
    ⟨[.itemText], .list QuotedBy, (·.text), fun i x => { i with text := x }⟩,
    ⟨[.itemContainerState], .slot ContainerState.ToldBy, (·.containerState),
      fun i x => { i with containerState := x }⟩,
    ⟨[.itemRequires], .list AbilityRequirement.ToldBy, (·.requires),
      fun i x => { i with requires := x }⟩,
    ⟨[.consumable], .slot Consumable.Reflects, (·.consumable), fun i x => { i with consumable := x }⟩]

theorem goesBy : GoesBy fields (fun i => (i.id, i.span)) itemStatement where
  lawful := {
    get_set := by simp [fields]
    apart := by simp [fields]
    rules := by decide
    fixed_set := by simp [fields]
    ext {i i'} h hf := by
      cases i
      cases i'
      simp_all [fields] }
  blind := blind_itemStatement
  steps {i n i'} := by
    unfold itemStatement
    split <;> rename_i hr
    case h_15 =>
      exact iff_of_false makes_fail.mp (not_steps (by simp_all [fields, Rule.itemLocations]))
    all_goals simp only [fields, steps_cons, steps_nil, hr, Rule.itemLocations, List.mem_cons,
      List.not_mem_nil, or_false, reduceCtorEq, false_and, true_and, false_or, or_true]
    case h_1 | h_2 => exact makes_slot (makes_lift.trans parts_string)
    case h_3 | h_4 => exact makes_slot (makes_lift.trans parts_boolean)
    case h_5 | h_6 | h_7 | h_8 | h_9 =>
      exact makes_slot (makes_lift.trans (itemLocation_eq_ok (by simp [hr, Rule.itemLocations])))
    case h_10 => exact makes_entry (makes_lift.trans ability_eq_ok) fun _ => rfl
    case h_11 => exact makes_entry (makes_lift.trans parts_string) fun _ => rfl
    case h_12 =>
      rw [lift_lift_bind]
      exact makes_slot (makes_lift.trans containerState_bind_eq_ok)
    case h_13 => exact makes_entry (makes_lift.trans requirement_eq_ok) fun _ => rfl
    case h_14 => exact makes_slot Consumable.makes_iff

/-- An item with its id and its statements. -/
structure Reflects (i : Item) (n : Node) : Prop where
  id : NamedBy i.id n
  span : i.span = n.span
  gathers : Gathers fields i n.nodes

theorem makes_iff {i : Item} {n : Node} : Makes (Shape.item n) i ↔ i.Reflects n := by
  let plain (j : Id .item) : Item :=
    ⟨j, none, none, none, none, none, [], [], none, [], none, n.span⟩
  refine (goesBy.makes_block plain fun j => ?_).trans ⟨?_, ?_⟩
  · simp [plain, fields, Keeping.slot, Keeping.list]
  · rintro ⟨j, hid, hfixed, hgathers⟩
    obtain ⟨rfl, hspan⟩ := Prod.ext_iff.mp hfixed
    exact ⟨hid, hspan, hgathers⟩
  · rintro ⟨hid, hspan, hgathers⟩
    exact ⟨i.id, hid, by rw [hspan], hgathers⟩

end Item

/-! ## Npcs -/

namespace Movement

def fields : List (Field Movement) :=
  [⟨[.movementTiming], .slot NamedBy, (·.timing), fun m x => { m with timing := x }⟩,
    ⟨[.movementActive], .slot DecidedBy, (·.active), fun m x => { m with active := x }⟩,
    ⟨[.movementLoop], .slot DecidedBy, (·.loopRoute), fun m x => { m with loopRoute := x }⟩]

theorem goesBy : GoesBy fields (fun m => (m.kind, m.rooms)) movementOption where
  lawful := {
    get_set := by simp [fields]
    apart := by simp [fields]
    rules := by decide
    fixed_set := by simp [fields]
    ext {m m'} h hf := by
      cases m
      cases m'
      simp_all [fields] }
  blind := blind_movementOption
  steps {m n m'} := by
    unfold movementOption
    split <;> rename_i hr
    case h_4 => exact iff_of_false makes_fail.mp (not_steps (by simp_all [fields]))
    all_goals simp only [fields, steps_cons, steps_nil, hr, List.mem_cons, List.not_mem_nil, or_false,
      reduceCtorEq, false_and, true_and, false_or]
    case h_1 => exact makes_slot (makes_lift.trans parts_id)
    case h_2 | h_3 => exact makes_slot (makes_lift.trans parts_boolean)

/-- A movement with its kind, its rooms and its options. -/
def Reflects (m : Movement) (n : Node) : Prop :=
  ∃ t l rest, n.children = .token t :: .node l :: rest ∧
    (if t.text = "route" then MovementKind.route else .random) = m.kind ∧ ListedBy m.rooms l ∧
      Gathers fields m (Element.nodes rest)

theorem makes_iff {m : Movement} {n : Node} : Makes (Shape.movement n) m ↔ m.Reflects n := by
  have hmakes {kind : MovementKind} {rooms : List (Id .room)} {ns : List Node} :
      Makes (ns.foldlM movementOption ⟨kind, rooms, none, none, none⟩) m ↔
        (m.kind, m.rooms) = (kind, rooms) ∧ Gathers fields m ns :=
    goesBy.makes_foldlM (by simp [fields, Keeping.slot])
  unfold Shape.movement Reflects
  simp only [makes_given, Prod.exists, head_eq_ok, reads_bind, reads_word, reads_child, reads_done,
    ids_eq_ok, hmakes, Prod.mk.injEq]
  constructor
  · rintro ⟨kind, l, rest, ⟨_, _, ⟨t, hcs, rfl⟩, _, _, rfl, ⟨rfl, rfl⟩, rfl⟩, rooms, hrooms,
      ⟨hkind, rfl⟩, hgathers⟩
    exact ⟨t, _, _, hcs, hkind.symm, hrooms, hgathers⟩
  · rintro ⟨t, l, rest, hcs, hkind, hrooms, hgathers⟩
    exact ⟨t.text, l, rest, ⟨t.text, _, ⟨t, hcs, rfl⟩, l, rest, rfl, ⟨rfl, rfl⟩, rfl⟩, m.rooms, hrooms,
      ⟨hkind.symm, rfl⟩, hgathers⟩

end Movement

namespace Npc

def fields : List (Field Npc) :=
  [⟨[.npcName], .slot QuotedBy, (·.name), fun c x => { c with name := x }⟩,
    ⟨[.npcDesc], .slot QuotedBy, (·.desc), fun c x => { c with desc := x }⟩,
    ⟨[.locRoom, .locNowhere], .slot Npc.Location.ToldBy, (·.location),
      fun c x => { c with location := x }⟩,
    ⟨[.npcState], .slot fun s n => HeldBy s.ToldBy n, (·.state), fun c x => { c with state := x }⟩,
    ⟨[.npcMovement], .slot Movement.Reflects, (·.movement), fun c x => { c with movement := x }⟩,
    ⟨[.dialogue], .list Dialogue.ToldBy, (·.dialogue), fun c x => { c with dialogue := x }⟩]

theorem goesBy : GoesBy fields (fun c => (c.id, c.span)) npcStatement where
  lawful := {
    get_set := by simp [fields]
    apart := by simp [fields]
    rules := by decide
    fixed_set := by simp [fields]
    ext {c c'} h hf := by
      cases c
      cases c'
      simp_all [fields] }
  blind := blind_npcStatement
  steps {c n c'} := by
    unfold npcStatement
    dsimp only
    split <;> rename_i hr
    case h_8 => exact iff_of_false makes_fail.mp (not_steps (by simp_all [fields]))
    all_goals simp only [fields, steps_cons, steps_nil, hr, List.mem_cons, List.not_mem_nil, or_false,
      reduceCtorEq, false_and, true_and, false_or, or_true]
    case h_1 | h_2 => exact makes_slot (makes_lift.trans parts_string)
    case h_3 | h_4 =>
      refine makes_slot_of fun {l} => ?_
      simp only [makes_lift, parts_id, parts_string]
      cases l <;> simp [Npc.Location.ToldBy, hr]
    case h_5 =>
      rw [lift_lift_bind]
      exact makes_slot (makes_lift.trans (child_bind_eq_ok fun _ => strictMood_eq_ok))
    case h_6 => exact makes_slot Movement.makes_iff
    case h_7 => exact makes_entry (makes_lift.trans dialogue_eq_ok) fun _ => rfl

/-- An npc with its id and its statements, of which there are some. -/
structure Reflects (c : Npc) (n : Node) : Prop where
  id : NamedBy c.id n
  span : c.span = n.span
  nodes : n.nodes ≠ []
  gathers : Gathers fields c n.nodes

theorem makes_iff {c : Npc} {n : Node} : Makes (Shape.npc n) c ↔ c.Reflects n := by
  have hmakes {j : Id .npc} (hid : NamedBy j n) : Makes (do
      if (Element.nodes n.children.tail).isEmpty then throw (.empty "npc block" n.span)
      keepChanges npcStatement ⟨j, none, none, none, none, none, [], n.span⟩
        (Element.nodes n.children.tail)) c ↔
      n.nodes ≠ [] ∧ (c.id, c.span) = (j, n.span) ∧ Gathers fields c n.nodes := by
    rw [nodes_tail hid, makes_unless, List.isEmpty_iff,
      goesBy.makes_keepChanges (by simp [fields, Keeping.slot, Keeping.list])]
  refine makes_named.trans ⟨?_, ?_⟩
  · rintro ⟨j, hid, h⟩
    obtain ⟨hne, hfixed, hgathers⟩ := (hmakes hid).mp h
    obtain ⟨rfl, hspan⟩ := Prod.ext_iff.mp hfixed
    exact ⟨hid, hspan, hne, hgathers⟩
  · rintro ⟨hid, hspan, hne, hgathers⟩
    exact ⟨c.id, hid, (hmakes hid).mpr ⟨hne, by rw [hspan], hgathers⟩⟩

end Npc

/-! ## Goals -/

namespace Goal

def fields : List (Field GoalDraft) :=
  [⟨[.goalName], .slot QuotedBy, (·.name), fun d x => { d with name := x }⟩,
    ⟨[.goalDesc], .slot QuotedBy, (·.desc), fun d x => { d with desc := x }⟩,
    ⟨[.goalGroup], .slot GoalGroup.ToldBy, (·.group), fun d x => { d with group := x }⟩,
    ⟨[.goalStart], .slot fun x n => HeldBy x.ToldBy n, (·.start), fun d x => { d with start := x }⟩,
    ⟨[.goalDone], .slot fun x n => HeldBy x.ToldBy n, (·.done), fun d x => { d with done := x }⟩,
    ⟨[.goalFail], .slot fun x n => HeldBy x.ToldBy n, (·.fail), fun d x => { d with fail := x }⟩]

theorem goesBy : GoesBy fields (fun _ => ()) goalStatement where
  lawful := {
    get_set := by simp [fields]
    apart := by simp [fields]
    rules := by decide
    fixed_set := by simp [fields]
    ext {d d'} h hf := by
      cases d
      cases d'
      simp_all [fields] }
  blind := blind_goalStatement
  steps {d n d'} := by
    unfold goalStatement
    split <;> rename_i hr
    case h_7 => exact iff_of_false makes_fail.mp (not_steps (by simp_all [fields]))
    all_goals simp only [fields, steps_cons, steps_nil, hr, List.mem_cons, List.not_mem_nil, or_false,
      reduceCtorEq, false_and, true_and, false_or]
    case h_1 | h_2 => exact makes_slot (makes_lift.trans parts_string)
    all_goals rw [lift_lift_bind]
    case h_3 => exact makes_slot (makes_lift.trans goalGroup_bind_eq_ok)
    case h_4 | h_5 | h_6 =>
      exact makes_slot (makes_lift.trans (child_bind_eq_ok fun _ => goalCondition_eq_ok))

/-- A goal with its id and all its statements; only when it fails may be left open. -/
structure Reflects (g : Goal) (n : Node) : Prop where
  id : NamedBy g.id n
  span : g.span = n.span
  gathers : Gathers fields ⟨some g.name, some g.desc, some g.group, some g.start, some g.done, g.fail⟩
    n.nodes

theorem makes_iff {g : Goal} {n : Node} : Makes (Shape.goal n) g ↔ g.Reflects n := by
  have hmakes {d : GoalDraft} :
      Makes (n.nodes.foldlM goalStatement {}) d ↔ () = () ∧ Gathers fields d n.nodes :=
    goesBy.makes_foldlM (by simp [fields, Keeping.slot])
  unfold Shape.goal
  rw [makes_named]
  constructor
  · rintro ⟨j, hid, h⟩
    dsimp only at h
    rw [nodes_tail hid, makes_bind fun _ => blind_goalEnd] at h
    simp only [hmakes, makes_unless, makes_given, makes_done, require_eq_ok, true_and] at h
    obtain ⟨⟨_, _, _, _, _, _⟩, hgathers, -, name, rfl, desc, rfl, group, rfl, start, rfl, done, rfl,
      rfl⟩ := h
    exact ⟨hid, rfl, hgathers⟩
  · rintro ⟨hid, hspan, hgathers⟩
    have hne : n.nodes ≠ [] := by
      intro hnil
      have hkept := hgathers.kept
      simp [fields, Keeping.slot, hnil] at hkept
    refine ⟨g.id, hid, ?_⟩
    dsimp only
    rw [nodes_tail hid, makes_bind fun _ => blind_goalEnd]
    simp only [hmakes, makes_unless, makes_given, makes_done, require_eq_ok, true_and]
    exact ⟨_, hgathers, by simpa using hne, _, rfl, _, rfl, _, rfl, _, rfl, _, rfl, by rw [← hspan]⟩

end Goal

/-! ## Changes to an item -/

namespace ItemPatch

def fields : List (Field ItemPatch) :=
  [⟨[.patchName], .slot QuotedBy, (·.name), fun p x => { p with name := x }⟩,
    ⟨[.patchDesc], .slot QuotedBy, (·.desc), fun p x => { p with desc := x }⟩,
    ⟨[.patchText], .slot QuotedBy, (·.text), fun p x => { p with text := x }⟩,
    ⟨[.patchPortable], .slot DecidedBy, (·.portable), fun p x => { p with portable := x }⟩,
    ⟨[.patchRestricted], .slot DecidedBy, (·.restricted), fun p x => { p with restricted := x }⟩,
    ⟨[.patchContainerState], .slot ContainerPatch.ToldBy, (·.containerState),
      fun p x => { p with containerState := x }⟩,
    ⟨[.patchAddAbility], .list fun a n => HeldBy a.ToldBy n, (·.addAbilities),
      fun p x => { p with addAbilities := x }⟩,
    ⟨[.patchRemoveAbility], .list fun a n => HeldBy a.ToldBy n, (·.removeAbilities),
      fun p x => { p with removeAbilities := x }⟩]

theorem goesBy : GoesBy fields (fun _ => ()) patchStatement where
  lawful := {
    get_set := by simp [fields]
    apart := by simp [fields]
    rules := by decide
    fixed_set := by simp [fields]
    ext {p p'} h hf := by
      cases p
      cases p'
      simp_all [fields] }
  blind := blind_patchStatement
  steps {p n p'} := by
    unfold patchStatement
    split <;> rename_i hr
    case h_9 => exact iff_of_false makes_fail.mp (not_steps (by simp_all [fields]))
    all_goals simp only [fields, steps_cons, steps_nil, hr, List.mem_cons, List.not_mem_nil, or_false,
      reduceCtorEq, false_and, true_and, false_or]
    case h_1 | h_2 | h_3 => exact makes_slot (makes_lift.trans parts_string)
    case h_4 | h_5 => exact makes_slot (makes_lift.trans parts_boolean)
    all_goals rw [lift_lift_bind]
    case h_6 => exact makes_slot (makes_lift.trans containerPatch_bind_eq_ok)
    case h_7 | h_8 =>
      exact makes_entry (makes_lift.trans (child_bind_eq_ok fun _ => ability_eq_ok)) fun _ => rfl

end ItemPatch

end Storyworld
