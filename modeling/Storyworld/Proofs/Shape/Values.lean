import Storyworld.Npc.Shape
import Storyworld.Goal.Shape
import Storyworld.Item.Shape
import Storyworld.Action.Shape
import Storyworld.Proofs.Shape.Makes

namespace Storyworld

/-! What the parts of a statement say. A statement says a value in its first parts; reading them
succeeds exactly with the value that is said. -/

/-! ## Values -/

/-- The first part is a token with this text. -/
def SpelledBy (w : String) (n : Node) : Prop :=
  ∃ t rest, n.children = .token t :: rest ∧ t.text = w

def NamedBy {of : Referent} (i : Id of) (n : Node) : Prop :=
  SpelledBy i.name n

/-- The first part is a string with this value. -/
def QuotedBy (s : String) (n : Node) : Prop :=
  ∃ t rest, n.children = .token t :: rest ∧ t.stringValue? = some s

def DecidedBy (b : Bool) (n : Node) : Prop :=
  ∃ t rest, n.children = .token t :: rest ∧ t.kind = .boolean b

/-- The first part is a number that is not zero. -/
def CountedBy (uses : UInt32) (n : Node) : Prop :=
  ∃ t rest value, n.children = .token t :: rest ∧ Text.Integer.word? t.text.toList = some value ∧
    value.toInt = uses.toNat ∧ uses ≠ 0

/-- The first part is a construct that satisfies `P`. -/
def HeldBy (P : Node → Prop) (n : Node) : Prop :=
  ∃ m rest, n.children = .node m :: rest ∧ P m

/-- The ids in a list, which has some. -/
def ListedBy {of : Referent} (ids : List (Id of)) (n : Node) : Prop :=
  n.tokens ≠ [] ∧ n.tokens.map (fun t => ⟨t.text⟩) = ids

def Mood.ToldBy : Mood → Node → Prop
  | custom name, n => n.rule = .stateCustom ∧ NamedBy name n
  | builtin mood, n => n.rule ≠ .stateCustom ∧ SpelledBy mood.word n

def Ability.ToldBy (a : Ability) (n : Node) : Prop :=
  ∃ t rest, n.children = .token t :: rest ∧ t.text = a.name.name ∧
    (rest.head?.bind Element.token?).map (fun t => ⟨t.text⟩) = a.target

def AbilityRequirement.ToldBy (r : AbilityRequirement) (n : Node) : Prop :=
  ∃ t u rest, n.children = .token t :: .token u :: rest ∧ t.text = r.ability.name ∧
    u.text = r.interaction.name

def ContainerState.ToldBy (state : ContainerState) (n : Node) : Prop :=
  SpelledBy state.word n

def ContainerPatch.ToldBy : ContainerPatch → Node → Prop
  | set state, n => state.ToldBy n
  | remove, n => SpelledBy "off" n

def GoalGroup.ToldBy (group : GoalGroup) (n : Node) : Prop :=
  SpelledBy group.word n

def Item.Location.ToldBy : Item.Location → Node → Prop
  | inventory, n => n.rule = .locInventory
  | room id, n => n.rule = .locRoom ∧ NamedBy id n
  | chest id, n => n.rule = .locChest ∧ NamedBy id n
  | npc id, n => n.rule = .locNpc ∧ NamedBy id n
  | nowhere note, n => n.rule = .locNowhere ∧ QuotedBy note n

def Npc.Location.ToldBy : Npc.Location → Node → Prop
  | room id, n => n.rule = .locRoom ∧ NamedBy id n
  | nowhere note, n => n.rule = .locNowhere ∧ QuotedBy note n

def WhenConsumed.ToldBy : WhenConsumed → Node → Prop
  | despawn, n => n.rule = .whenConsumedDespawn
  | replaceInventory id, n => n.rule = .whenConsumedReplaceInventory ∧ NamedBy id n
  | replaceCurrentRoom id, n => n.rule = .whenConsumedReplaceRoom ∧ NamedBy id n

def Goal.Condition.ToldBy : Goal.Condition → Node → Prop
  | hasFlag flag, n => n.rule = .gcHasFlag ∧ NamedBy flag n
  | missingFlag flag, n => n.rule = .gcMissingFlag ∧ NamedBy flag n
  | hasItem item, n => n.rule = .gcHasItem ∧ NamedBy item n
  | reachedRoom room, n => n.rule = .gcReachedRoom ∧ NamedBy room n
  | goalComplete goal, n => n.rule = .gcGoalComplete ∧ NamedBy goal n
  | flagInProgress flag, n => n.rule = .gcFlagInProgress ∧ NamedBy flag n
  | flagComplete flag, n => n.rule = .gcFlagComplete ∧ NamedBy flag n

/-- The lines of a dialogue are the strings behind its state. -/
def Dialogue.ToldBy (d : Dialogue) (n : Node) : Prop :=
  ∃ m rest, n.children = .node m :: rest ∧ d.state.ToldBy m ∧ d.span = n.span ∧
    d.lines = (Element.tokens rest).filterMap Token.stringValue? ∧ d.lines ≠ []

/-! ## Reading -/

namespace Shape

variable {n : Node} {what : String} {span : Span} {cs rest : List Element}

theorem reads_word {w : String} :
    word what span cs = .ok (w, rest) ↔ ∃ t, cs = .token t :: rest ∧ t.text = w := by
  unfold word
  simp only [reads_bind, reads_token, reads_done]
  constructor
  · rintro ⟨t, _, hcs, rfl, rfl⟩
    exact ⟨t, hcs, rfl⟩
  · rintro ⟨t, hcs, rfl⟩
    exact ⟨t, rest, hcs, rfl, rfl⟩

theorem reads_id {of : Referent} {i : Id of} :
    id what span cs = .ok (i, rest) ↔ ∃ t, cs = .token t :: rest ∧ t.text = i.name := by
  unfold id
  simp only [reads_bind, reads_word, reads_done]
  constructor
  · rintro ⟨_, _, ⟨t, hcs, rfl⟩, rfl, rfl⟩
    exact ⟨t, hcs, rfl⟩
  · rintro ⟨t, hcs, ht⟩
    exact ⟨i.name, rest, ⟨t, hcs, ht⟩, rfl, rfl⟩

theorem stringOf_eq_ok {t : Token} {s : String} : stringOf what t = .ok s ↔ t.stringValue? = some s := by
  unfold stringOf
  split <;> simp [*]

theorem reads_string {s : String} :
    string what span cs = .ok (s, rest) ↔ ∃ t, cs = .token t :: rest ∧ t.stringValue? = some s := by
  unfold string
  simp only [reads_bind, reads_token, reads_lift, stringOf_eq_ok]
  constructor
  · rintro ⟨t, _, hcs, ht, rfl⟩
    exact ⟨t, hcs, ht⟩
  · rintro ⟨t, hcs, ht⟩
    exact ⟨t, rest, hcs, ht, rfl⟩

theorem reads_boolean {b : Bool} :
    boolean what span cs = .ok (b, rest) ↔ ∃ t, cs = .token t :: rest ∧ t.kind = .boolean b := by
  unfold boolean
  simp only [reads_bind, reads_token]
  refine exists_congr fun t => ⟨?_, ?_⟩
  · rintro ⟨_, hcs, h⟩
    cases hkind : t.kind with
    | boolean value =>
        rw [hkind] at h
        obtain ⟨rfl, rfl⟩ := reads_done.mp h
        exact ⟨hcs, rfl⟩
    | _ =>
        rw [hkind] at h
        exact (reads_fail.mp h).elim
  · rintro ⟨hcs, ht⟩
    exact ⟨rest, hcs, by rw [ht]; exact reads_done.mpr ⟨rfl, rfl⟩⟩

theorem reads_number {value : Int64} {place : Span} :
    number what span cs = .ok ((value, place), rest) ↔
      ∃ t, cs = .token t :: rest ∧ Text.Integer.word? t.text.toList = some value ∧ t.span = place := by
  unfold number
  simp only [reads_bind, reads_token]
  refine exists_congr fun t => ⟨?_, ?_⟩
  · rintro ⟨_, hcs, h⟩
    cases hvalue : Text.Integer.word? t.text.toList with
    | some v =>
        rw [hvalue] at h
        obtain ⟨hp, rfl⟩ := reads_done.mp h
        cases hp
        exact ⟨hcs, rfl, rfl⟩
    | none =>
        rw [hvalue] at h
        exact (reads_fail.mp h).elim
  · rintro ⟨hcs, ht, rfl⟩
    exact ⟨rest, hcs, by rw [ht]; exact reads_done.mpr ⟨rfl, rfl⟩⟩

theorem reads_token? {t? : Option Token} : token? span cs = .ok (t?, rest) ↔
    cs.head?.bind Element.token? = t? ∧ cs.drop t?.toList.length = rest := by
  match cs with
  | [] | .node n :: cs => exact ⟨fun h => by cases h; exact ⟨rfl, rfl⟩, fun ⟨h, h'⟩ => by subst h h'; rfl⟩
  | .token t :: cs => exact ⟨fun h => by cases h; exact ⟨rfl, rfl⟩, fun ⟨h, h'⟩ => by subst h h'; rfl⟩

theorem reads_wordOrString {s : String} : wordOrString what span cs = .ok (s, rest) ↔
    ∃ t, cs = .token t :: rest ∧ t.stringValue?.getD t.text = s := by
  unfold wordOrString
  simp only [reads_bind, reads_token, reads_done]
  constructor
  · rintro ⟨t, _, hcs, hs, rfl⟩
    exact ⟨t, hcs, hs⟩
  · rintro ⟨t, hcs, hs⟩
    exact ⟨t, rest, hcs, hs, rfl⟩

/-- The construct in front, if it is of one of some rules. -/
def leading (rules : List Rule) (cs : List Element) : Option Node :=
  (cs.head?.bind Element.node?).filter (rules.contains ·.rule)

theorem reads_childOf? {rules : List Rule} {n? : Option Node} :
    childOf? rules span cs = .ok (n?, rest) ↔
      leading rules cs = n? ∧ cs.drop n?.toList.length = rest := by
  have hrun : childOf? rules span cs =
      .ok (leading rules cs, cs.drop (leading rules cs).toList.length) := by
    match cs with
    | [] | .token t :: cs => rfl
    | .node n :: cs =>
        have hrun : childOf? rules span (.node n :: cs) =
            if rules.contains n.rule then .ok (some n, cs) else .ok (none, .node n :: cs) := by
          change (if rules.contains n.rule = true then (do set cs; pure (some n)) else pure none :
            Reading (Option Node)) span (.node n :: cs) = _
          split <;> rfl
        rw [hrun]
        by_cases hr : n.rule ∈ rules <;> simp [leading, Element.node?, Option.filter, hr]
  rw [hrun, Except.ok.injEq, Prod.mk.injEq]
  exact and_congr_right fun h => by rw [h]

/-! ### First parts -/

theorem parts_map {α β : Type} {r : Reading α} {g : α → β} {b : β} :
    n.parts (do return g (← r)) = .ok b ↔ ∃ a, n.parts r = .ok a ∧ g a = b := by
  simp only [parts_eq_ok, reads_bind, reads_done]
  constructor
  · rintro ⟨_, a, rest, hr, rfl, rfl⟩
    exact ⟨a, ⟨rest, hr⟩, rfl⟩
  · rintro ⟨a, ⟨rest, hr⟩, rfl⟩
    exact ⟨rest, a, rest, hr, rfl, rfl⟩

theorem parts_id {of : Referent} {i : Id of} : n.parts (id what) = .ok i ↔ NamedBy i n := by
  simp only [parts_eq_ok, reads_id]
  exact exists_comm

theorem parts_string {s : String} : n.parts (string what) = .ok s ↔ QuotedBy s n := by
  simp only [parts_eq_ok, reads_string]
  exact exists_comm

theorem parts_boolean {b : Bool} : n.parts (boolean what) = .ok b ↔ DecidedBy b n := by
  simp only [parts_eq_ok, reads_boolean]
  exact exists_comm

theorem parts_token {t : Token} :
    n.parts (token what) = .ok t ↔ ∃ rest, n.children = .token t :: rest := by
  simp only [parts_eq_ok, reads_token]

theorem parts_child {m : Node} :
    n.parts (child what) = .ok m ↔ ∃ rest, n.children = .node m :: rest := by
  simp only [parts_eq_ok, reads_child]

/-- What is built of the construct that comes first. -/
theorem child_bind_eq_ok {α : Type} {build : Node → Except ShapeFault α} {P : α → Node → Prop} {a : α}
    (h : ∀ m, build m = .ok a ↔ P a m) :
    (n.parts (child what) >>= build) = .ok a ↔ HeldBy (P a) n := by
  simp only [bind_eq_ok, parts_child, h, HeldBy]
  exact exists_congr fun m => exists_and_right.symm

theorem ids_eq_ok {of : Referent} {ids : List (Id of)} : n.ids what = .ok ids ↔ ListedBy ids n := by
  unfold Node.ids ListedBy
  cases n.tokens with
  | nil => simp
  | cons t ts => simp

/-- The constructs behind an id are all there are. -/
theorem nodes_tail {of : Referent} {i : Id of} (h : NamedBy i n) :
    Element.nodes n.children.tail = n.nodes := by
  obtain ⟨t, rest, hcs, -⟩ := h
  rw [Node.nodes, hcs]
  rfl

/-- A builder of something that begins with its id. -/
theorem makes_named {of : Referent} {σ : Type} {b : σ} {f : Id of × List Element → Collecting σ} :
    Makes (liftM (n.head (id what)) >>= f) b ↔
      ∃ i, NamedBy i n ∧ Makes (f (i, n.children.tail)) b := by
  simp only [makes_given, Prod.exists, head_eq_ok, reads_id, NamedBy, SpelledBy]
  refine exists_congr fun i => ⟨?_, ?_⟩
  · rintro ⟨rest, ⟨t, hcs, ht⟩, h⟩
    exact ⟨⟨t, rest, hcs, ht⟩, by rwa [hcs]⟩
  · rintro ⟨⟨t, rest, hcs, ht⟩, h⟩
    exact ⟨rest, ⟨t, hcs, ht⟩, by rwa [hcs] at h⟩

theorem require_eq_ok {α : Type} {slot : Option α} {a : α} :
    require slot what span = .ok a ↔ slot = some a := by
  cases slot <;> simp [require]

/-- A number of uses that fits 32 bits and is not zero. -/
theorem unsigned?_eq_some {value : Int64} {u : UInt32} :
    unsigned? value = some u ↔ value.toInt = u.toNat := by
  unfold unsigned?
  have hlt := u.toNat_lt
  have hsize : (UInt32.size : Int) = 2 ^ 32 := by decide
  split
  · rename_i h
    rw [Option.some.injEq, ← UInt32.toNat_inj, UInt32.toNat_ofNat']
    omega
  · rename_i h
    simp only [false_iff, reduceCtorEq]
    omega

/-! ### Words out of closed sets -/

theorem meaning_eq_ok {α : Type} {expected : List String} {ofWord? : String → Option α} {t : Token}
    {a : α} : meaning what expected ofWord? t = .ok a ↔ ofWord? t.text = some a := by
  unfold meaning
  split <;> simp [*]

/-- The one value that is spelled in some way. -/
theorem find?_word_eq_some {α : Type} {all : List α} {word : α → String} {a : α} {w : String}
    (hall : ∀ a, a ∈ all) (hinj : word.Injective) :
    all.find? (word · = w) = some a ↔ word a = w := by
  constructor
  · intro h
    simpa using List.find?_some h
  · intro hw
    obtain ⟨b, hb⟩ : ∃ b, all.find? (word · = w) = some b :=
      Option.isSome_iff_exists.mp (List.find?_isSome.mpr ⟨a, hall a, by simpa using hw⟩)
    have hword : word b = w := by simpa using List.find?_some hb
    rw [hb, hinj (hword.trans hw.symm)]

theorem builtinMood_eq_some {w : String} {m : BuiltinMood} :
    BuiltinMood.ofWord? w = some m ↔ m.word = w :=
  find?_word_eq_some (fun m => by cases m <;> decide) fun a b => by
    cases a <;> cases b <;> simp [BuiltinMood.word]

theorem containerState_eq_some {w : String} {s : ContainerState} :
    ContainerState.ofWord? w = some s ↔ s.word = w :=
  find?_word_eq_some (fun s => by cases s <;> decide) fun a b => by
    cases a <;> cases b <;> simp [ContainerState.word]

theorem goalGroup_eq_some {w : String} {g : GoalGroup} :
    GoalGroup.ofWord? w = some g ↔ g.word = w :=
  find?_word_eq_some (fun g => by cases g <;> decide) fun a b => by
    cases a <;> cases b <;> simp [GoalGroup.word]

theorem containerState_bind_eq_ok {state : ContainerState} :
    (n.parts (token what) >>= containerState) = .ok state ↔ state.ToldBy n := by
  simp only [bind_eq_ok, parts_token, containerState, meaning_eq_ok, containerState_eq_some]
  exact exists_congr fun t => by simp [eq_comm]

theorem containerPatch_bind_eq_ok {patch : ContainerPatch} :
    (n.parts (token what) >>= containerPatch) = .ok patch ↔ patch.ToldBy n := by
  simp only [bind_eq_ok, parts_token, containerPatch, meaning_eq_ok]
  have hoff (state : ContainerState) : state.word ≠ "off" := by cases state <;> decide
  cases patch with
  | set state =>
      refine exists_congr fun t => ⟨?_, ?_⟩
      · rintro ⟨hcs, h⟩
        split at h
        · cases h
        · obtain ⟨rest, hcs⟩ := hcs
          obtain ⟨state', hstate, h⟩ := Option.map_eq_some_iff.mp h
          cases h
          exact ⟨rest, hcs, (containerState_eq_some.mp hstate).symm⟩
      · rintro ⟨rest, hcs, ht⟩
        rw [ht, if_neg (hoff state), containerState_eq_some.mpr rfl]
        exact ⟨⟨rest, hcs⟩, rfl⟩
  | remove =>
      refine exists_congr fun t => ⟨?_, ?_⟩
      · rintro ⟨⟨rest, hcs⟩, h⟩
        split at h
        · exact ⟨rest, hcs, ‹_›⟩
        · simp at h
      · rintro ⟨rest, hcs, ht⟩
        rw [if_pos ht]
        exact ⟨⟨rest, hcs⟩, rfl⟩

theorem goalGroup_bind_eq_ok {group : GoalGroup} :
    (n.parts (token what) >>= meaning what GoalGroup.words GoalGroup.ofWord?) = .ok group ↔
      group.ToldBy n := by
  simp only [bind_eq_ok, parts_token, meaning_eq_ok, goalGroup_eq_some]
  exact exists_congr fun t => by simp [eq_comm]

/-! ### Statements -/

theorem strictMood_eq_ok {m : Mood} : strictMood n = .ok m ↔ m.ToldBy n := by
  unfold strictMood
  by_cases hr : n.rule = .stateCustom
  · simp only [hr, if_true, parts_map, parts_token]
    cases m with
    | builtin m => simp [Mood.ToldBy, hr]
    | custom name =>
        obtain ⟨w⟩ := name
        simp [Mood.ToldBy, NamedBy, SpelledBy, hr]
  · simp only [hr, if_false, parts_eq_ok, reads_bind, reads_token, reads_lift, reads_done,
      meaning_eq_ok, builtinMood_eq_some]
    cases m with
    | builtin m =>
        simp only [Mood.ToldBy, ne_eq, hr, not_false_eq_true, true_and]
        constructor
        · rintro ⟨_, t, rest, hcs, m', _, ⟨hw, rfl⟩, h, rfl⟩
          cases h
          exact ⟨t, rest, hcs, hw.symm⟩
        · rintro ⟨t, rest, hcs, hw⟩
          exact ⟨rest, t, rest, hcs, m, rest, ⟨hw.symm, rfl⟩, rfl, rfl⟩
    | custom name => simp [Mood.ToldBy, hr]

theorem ability_eq_ok {a : Ability} : ability n = .ok a ↔ a.ToldBy n := by
  unfold ability Ability.ToldBy
  simp only [parts_eq_ok, reads_bind, reads_id, reads_token?, reads_done]
  constructor
  · rintro ⟨_, name, rest, ⟨t, hcs, ht⟩, _, _, ⟨rfl, rfl⟩, rfl, rfl⟩
    exact ⟨t, rest, hcs, ht, rfl⟩
  · rintro ⟨t, rest, hcs, ht, htarget⟩
    exact ⟨_, a.name, rest, ⟨t, hcs, ht⟩, _, _, ⟨rfl, rfl⟩, by rw [htarget], rfl⟩

theorem requirement_eq_ok {r : AbilityRequirement} : requirement n = .ok r ↔ r.ToldBy n := by
  unfold requirement AbilityRequirement.ToldBy
  simp only [parts_eq_ok, reads_bind, reads_id, reads_done]
  constructor
  · rintro ⟨_, _, _, ⟨t, hcs, ht⟩, _, _, ⟨u, rfl, hu⟩, rfl, rfl⟩
    exact ⟨t, u, _, hcs, ht, hu⟩
  · rintro ⟨t, u, rest, hcs, ht, hu⟩
    exact ⟨rest, r.ability, _, ⟨t, hcs, ht⟩, r.interaction, rest, ⟨u, rfl, hu⟩, rfl, rfl⟩

theorem itemLocation_eq_ok (hr : n.rule ∈ Rule.itemLocations) {l : Item.Location} :
    itemLocation n = .ok l ↔ l.ToldBy n := by
  unfold itemLocation
  have hcases : n.rule = .locInventory ∨ n.rule = .locRoom ∨ n.rule = .locChest ∨
      n.rule = .locNpc ∨ n.rule = .locNowhere := by simpa [Rule.itemLocations] using hr
  rcases hcases with hr | hr | hr | hr | hr
  · simp only [hr, parts_eq_ok, reads_done]
    cases l <;> simp [Item.Location.ToldBy, hr]
  all_goals
    simp only [hr, parts_map, parts_id, parts_string]
    cases l <;> simp [Item.Location.ToldBy, hr]

theorem goalCondition_eq_ok {x : Goal.Condition} : goalCondition n = .ok x ↔ x.ToldBy n := by
  unfold goalCondition
  split
  case h_8 =>
    simp only [parts_eq_ok, reads_fail, exists_false, false_iff]
    cases x <;> simp_all [Goal.Condition.ToldBy]
  all_goals
    simp only [parts_map, parts_id]
    cases x <;> simp [Goal.Condition.ToldBy, *]

theorem dialogue_eq_ok {d : Dialogue} : dialogue n = .ok d ↔ d.ToldBy n := by
  unfold dialogue Dialogue.ToldBy
  simp only [bind_eq_ok, Prod.exists, head_eq_ok, reads_bind, reads_child, reads_lift,
    strictMood_eq_ok]
  constructor
  · rintro ⟨state, rest, ⟨m, rest', hcs, hstate, rfl⟩, h⟩
    split at h
    · cases h
    · rename_i hne
      cases h
      exact ⟨m, rest', hcs, hstate, rfl, rfl, fun hnil => hne (List.isEmpty_iff.mpr hnil)⟩
  · rintro ⟨m, rest, hcs, hstate, hspan, hlines, hne⟩
    refine ⟨d.state, rest, ⟨m, rest, hcs, hstate, rfl⟩, ?_⟩
    rw [← hlines, if_neg (by simpa using hne), ← hspan]
    rfl

end Shape

end Storyworld
