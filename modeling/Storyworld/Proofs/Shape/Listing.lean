import Storyworld.Proofs.Shape.Patches

namespace Storyworld

/-! What is listed of a trigger, part by part in the order of its statements, and what is listed of
its construct. Where the two agree on the smallest parts, they agree on everything that is built
without a fault. -/

open Shape

variable {α β : Type}

/-! ## Questions -/

/-- The rule of the constructs that say a question. -/
def Query.rule : Query → Rule
  | hasFlag _ => .condHasFlag
  | missingFlag _ => .condMissingFlag
  | hasItem _ => .condHasItem
  | missingItem _ => .condMissingItem
  | hasVisited _ => .condHasVisited
  | flagInProgress _ => .condFlagInProgress
  | flagComplete _ => .condFlagComplete
  | withNpc _ => .condWithNpc
  | npcHasItem _ _ => .condNpcHasItem
  | npcInState _ _ => .condNpcInState
  | playerInRoom _ => .condPlayerInRoom
  | containerHasItem _ _ => .condContainerHasItem
  | chance _ => .condChance
  | ambient _ _ => .condAmbient
  | inRooms _ => .condInRooms

theorem Shape.rule_of_query {n : Node} {q : Query} (h : query n = .ok q) : q.rule = n.rule := by
  have hgives : Gives (fun _ => True) (query n) fun q => q.rule = n.rule := by
    refine Yields.parts ?_
    split <;> rename_i hr
    case h_16 => exact fun _ _ => .fail trivial
    case h_14 =>
      refine .behind fun _ => .behind fun n? => ?_
      cases n? with
      | none => exact .done hr.symm
      | some list => exact .behind fun _ => .done hr.symm
    all_goals repeat first | exact .done hr.symm | refine .behind fun _ => ?_
  exact hgives.ok h

/-! ## Lists out of what is built -/

/-- What to list of the parts of a statement. -/
structure Listing (α : Type) where
  query : Query → List α
  /-- What is listed of a group with some members, ahead of what is listed of these. -/
  group : List Condition → List α
  effect : Effect → List α
  /-- What is listed of the turns that a schedule waits, ahead of what is listed of its parts. -/
  turns : UInt32 → List α
  retry : RetryPolicy → List α

mutual

/-- What is listed of a condition: a group comes before its members. -/
def Condition.list (w : Listing α) : Condition → List α
  | .single query => w.query query
  | .any members | .all members => w.group members ++ Condition.listIn w members

def Condition.listIn (w : Listing α) : List Condition → List α
  | [] => []
  | c :: cs => c.list w ++ Condition.listIn w cs

end

def Guard.list (w : Listing α) (g : Guard) : List α :=
  g.condition.list w ++ g.retry.toList.flatMap w.retry

mutual

/-- What is listed of an action, at once or later, in the order in which it is written. -/
def Action.list (w : Listing α) : Action → List α
  | .effect effect => w.effect effect
  | .schedule _ turns guard _ body =>
    w.turns turns ++ guard.toList.flatMap (Guard.list w) ++ Statement.listIn w body

def Deed.list (w : Listing α) : Deed → List α
  | .mk action _ => action.list w

def Deed.listIn (w : Listing α) : List Deed → List α
  | [] => []
  | d :: ds => d.list w ++ Deed.listIn w ds

def Statement.list (w : Listing α) : Statement → List α
  | .perform deed => deed.list w
  | .branch condition deeds _ => condition.list w ++ Deed.listIn w deeds

def Statement.listIn (w : Listing α) : List Statement → List α
  | [] => []
  | s :: ss => s.list w ++ Statement.listIn w ss

end

section

variable {w : Listing α}

theorem Condition.listIn_eq (cs : List Condition) : listIn w cs = cs.flatMap (list w) := by
  induction cs with
  | nil => rfl
  | cons c cs ih => rw [listIn, ih, List.flatMap_cons]

theorem Deed.listIn_eq (ds : List Deed) : listIn w ds = ds.flatMap (list w) := by
  induction ds with
  | nil => rfl
  | cons d ds ih => rw [listIn, ih, List.flatMap_cons]

theorem Statement.listIn_eq (ss : List Statement) : listIn w ss = ss.flatMap (list w) := by
  induction ss with
  | nil => rfl
  | cons s ss ih => rw [listIn, ih, List.flatMap_cons]

end

/-! ## Lists out of a tree -/

namespace Node

variable {own : Node → List β} {n : Node}

/-- What the nodes of a tree have of their own, those above before those below. -/
def gather (own : Node → List β) (n : Node) : List β :=
  n.family.flatMap own

theorem gather_familyIn (cs : List Element) :
    (familyIn cs).flatMap own = (Element.nodes cs).flatMap (gather own) := by
  induction cs with
  | nil => rfl
  | cons c cs ih =>
      rw [familyIn, List.flatMap_append, ih]
      cases c <;> rfl

theorem gather_eq (n : Node) : n.gather own = own n ++ n.nodes.flatMap (gather own) := by
  obtain ⟨r, s, cs⟩ := n
  rw [gather, family, List.flatMap_cons, gather_familyIn]
  rfl

/-- Constructs of rules that have nothing of their own, nor contain others, have nothing. -/
theorem gather_eq_nil {quiet : Rule → Bool} {T : Token → Prop} (hclosed : Rule.Closed quiet)
    (hsilent : ∀ {m : Node}, m.Every (fun k => k.isFilled) T → quiet m.rule → own m = [])
    (hn : n.Every (fun m => m.isFilled) T) (hr : quiet n.rule) : n.gather own = [] :=
  List.flatMap_eq_nil_iff.mpr fun _ hm =>
    hsilent (hn.of_mem_family hm) (rule_of_mem_family hclosed hn hr hm)

end Node

/-! ## Schedules taken apart -/

namespace Element

variable (t : Token) (n : Node) (cs ds : List Element)

@[simp] theorem nodes_nil : nodes [] = [] :=
  rfl

@[simp] theorem tokens_nil : tokens [] = [] :=
  rfl

@[simp] theorem nodes_cons_token : nodes (.token t :: cs) = nodes cs :=
  rfl

@[simp] theorem tokens_cons_token : tokens (.token t :: cs) = t :: tokens cs :=
  rfl

@[simp] theorem tokens_cons_node : tokens (.node n :: cs) = tokens cs :=
  rfl

@[simp] theorem tokens_append : tokens (cs ++ ds) = tokens cs ++ tokens ds :=
  List.filterMap_append

@[simp] theorem tokens_map_node (ns : List Node) : tokens (ns.map .node) = [] := by
  simp [tokens, List.filterMap_map, Function.comp_def, token?]

end Element

/-- A number that fits an unsigned 32-bit word, as a token spells it. -/
def Token.Counts (t : Token) (u : UInt32) : Prop :=
  ∃ value, Text.Integer.word? t.text.toList = some value ∧ value.toInt = u.toNat

namespace Shape

variable {n : Node} {what : String} {span : Span} {cs rest : List Element} {rules : List Rule}
  {guard : Node → Except ShapeFault Condition} {body : Node → Collecting (List Statement)}

theorem countOf_eq_ok {value : Int64} {u : UInt32} :
    countOf what value span = .ok u ↔ value.toInt = u.toNat := by
  rw [← unsigned?_eq_some]
  unfold countOf
  split <;> simp [*]

theorem reads_count {u : UInt32} :
    count what span cs = .ok (u, rest) ↔ ∃ t, cs = .token t :: rest ∧ t.Counts u := by
  unfold count
  simp only [reads_bind, Prod.exists, reads_number, reads_lift, countOf_eq_ok]
  constructor
  · rintro ⟨value, _, _, ⟨t, hcs, ht, -⟩, hu, rfl⟩
    exact ⟨t, hcs, value, ht, hu⟩
  · rintro ⟨t, hcs, value, ht, hu⟩
    exact ⟨value, t.span, rest, ⟨t, hcs, ht, rfl⟩, hu, rfl⟩

theorem reads_anchor {a : Anchor} (h : anchor span cs = .ok (a, rest)) :
    ∃ t, cs = .token t :: rest := by
  obtain ⟨w, _, hw, hdone⟩ := reads_bind.mp h
  obtain ⟨t, rfl, -⟩ := reads_word.mp hw
  obtain ⟨-, rfl⟩ := reads_done.mp hdone
  exact ⟨t, rfl⟩

/-- The construct in front, if it is of one of some rules, and the parts behind it. -/
theorem eq_leading_append (rules : List Rule) (cs : List Element) :
    cs = (leading rules cs).toList.map .node ++ cs.drop (leading rules cs).toList.length := by
  cases h : leading rules cs with
  | none => rfl
  | some n =>
      match cs with
      | [] | .token _ :: _ => cases h
      | .node m :: cs =>
          have hn : some m = some n := (Option.filter_eq_some_iff.mp h).1
          cases hn
          rfl

theorem rule_of_leading (h : leading rules cs = some n) : n.rule ∈ rules := by
  simpa using (Option.filter_eq_some_iff.mp h).2

section

variable {build : Node → Except ShapeFault α} {a? : Option α}

/-- A part that may be left out, and what it is read as. -/
theorem reads_leading
    (h : (do match ← childOf? rules with
          | some n => return some (← build n)
          | none => return none : Reading (Option α)) span cs = .ok (a?, rest)) :
    rest = cs.drop (leading rules cs).toList.length ∧
      List.Forall₂ (fun n a => n.rule ∈ rules ∧ build n = .ok a) (leading rules cs).toList
        a?.toList := by
  obtain ⟨n?, _, hn, h⟩ := reads_bind.mp h
  obtain ⟨rfl, rfl⟩ := reads_childOf?.mp hn
  cases hn : leading rules cs with
  | none =>
      rw [hn] at h
      obtain ⟨rfl, rfl⟩ := reads_done.mp h
      exact ⟨rfl, .nil⟩
  | some n =>
      rw [hn] at h
      obtain ⟨a, _, hbuild, hdone⟩ := reads_bind.mp h
      obtain ⟨ha, rfl⟩ := reads_lift.mp hbuild
      obtain ⟨rfl, rfl⟩ := reads_done.mp hdone
      exact ⟨rfl, .cons ⟨rule_of_leading hn, ha⟩ .nil⟩

theorem reads_option
    (h : (do match ← childOf? rules with
          | some n => return some (← build n)
          | none => return none : Reading (Option α)) span cs = .ok (a?, rest)) :
    ∃ ns : List Node, cs = ns.map .node ++ rest ∧
      List.Forall₂ (fun n a => n.rule ∈ rules ∧ build n = .ok a) ns a?.toList := by
  obtain ⟨rfl, hread⟩ := reads_leading h
  exact ⟨_, eq_leading_append rules cs, hread⟩

/-- Nothing comes behind a part that may be left out and is the last one. -/
theorem reads_last_option (hcs : fill [.optional (.node rules)] cs)
    (h : (do match ← childOf? rules with
          | some n => return some (← build n)
          | none => return none : Reading (Option α)) span cs = .ok (a?, rest)) :
    ∃ ns : List Node, cs = ns.map .node ∧
      List.Forall₂ (fun n a => n.rule ∈ rules ∧ build n = .ok a) ns a?.toList := by
  refine ⟨_, ?_, (reads_leading h).2⟩
  rcases fill_optional_only hcs with rfl | ⟨c, hc, rfl⟩
  · rfl
  · cases c with
    | token t => cases hc
    | node n =>
        simp [leading, Element.node?, Option.filter_some, Node.rule_of_fits hc]

end

end Shape

/-- What a schedule is made of, in the order of its parts. -/
structure Node.Schedules (guard : Node → Except ShapeFault Condition) (turns : UInt32)
    (g : Option Guard) (n block : Node) : Prop where
  turns : ∃ anchor t, n.tokens = [anchor, t] ∧ t.Counts turns
  parts : ∃ guards retries notes, n.nodes = guards ++ retries ++ notes ++ [block] ∧
    List.Forall₂ (fun k g => k.rule ∈ Rule.conditions ∧ guard k = .ok g.condition) guards g.toList ∧
    List.Forall₂ (fun k r => k.rule ∈ Rule.retries ∧ retryPolicy k = .ok r) retries
      (g.bind (·.retry)).toList ∧
    ∀ k ∈ notes, k.rule = .note
  block : block.rule = .triggerBlock

theorem Node.Schedules.block_mem {guard : Node → Except ShapeFault Condition} {turns : UInt32}
    {g : Option Guard} {n block : Node} (h : n.Schedules guard turns g block) :
    block ∈ n.nodes := by
  obtain ⟨_, _, _, hnodes, -⟩ := h.parts
  simp [hnodes]

namespace Shape

variable {T : Token → Prop} {n : Node} {what : String} {span : Span} {cs rest : List Element}
  {rules : List Rule}
  {guard : Node → Except ShapeFault Condition} {body : Node → Collecting (List Statement)}

/-- Nothing comes behind the body of a schedule. -/
theorem eq_nil_of_body (front rest : List Element) {block : Node} (hn : n.isFilled)
    (hr : n.rule ∈ Rule.schedules) (hcs : n.children = front ++ .node block :: rest)
    (hblock : block.rule = .triggerBlock) : rest = [] := by
  obtain ⟨before, last, hlast, -, hbefore⟩ := Node.exists_last_body (q := (· != .triggerBlock)) hn
    (List.mem_cons_of_mem _ hr) (by decide)
  rcases List.eq_nil_or_concat rest with hnil | ⟨more, c, rfl⟩
  · exact hnil
  · -- The block would stand before the last part.
    rw [hlast, List.concat_eq_append, ← List.cons_append, ← List.append_assoc] at hcs
    have hfront : before = front ++ .node block :: more := (List.append_inj' hcs rfl).1
    exact absurd hblock (by simpa using hbefore block (Element.mem_nodes.mpr (by simp [hfront])))

theorem schedules_of_plain (guard : Node → Except ShapeFault Condition)
    {p : Anchor × UInt32 × Option String × Node} (hn : n.Every (fun m => m.isFilled) T)
    (hr : n.rule = .actSchedule) (h : n.parts plainParts = .ok p) :
    n.Schedules guard p.2.1 none p.2.2.2 := by
  have hrow := n.filled_row hn
  rw [hr] at hrow
  have hblock := ((hrow.parts ReadsHead.any.plain).ok h).1
  obtain ⟨_, h⟩ := parts_eq_ok.mp h
  obtain ⟨a, _, ha, h⟩ := reads_bind.mp h
  obtain ⟨turns, _, hturns, h⟩ := reads_bind.mp h
  obtain ⟨note, _, hnote, h⟩ := reads_bind.mp h
  obtain ⟨block, rest, hbody, h⟩ := reads_bind.mp h
  obtain ⟨rfl, rfl⟩ := reads_done.mp h
  obtain ⟨t, hcs⟩ := reads_anchor ha
  obtain ⟨u, rfl, hu⟩ := reads_count.mp hturns
  obtain ⟨notes, rfl, hnotes⟩ := reads_option hnote
  obtain rfl := reads_child.mp hbody
  obtain rfl := eq_nil_of_body (.token t :: .token u :: notes.map .node) rest hn.here
    (by simp [hr, Rule.schedules]) (by simpa using hcs) hblock
  have hrules := ((List.forall₂_and_left _ _).mp hnotes).1
  refine ⟨⟨t, u, ?_, hu⟩, ⟨[], [], notes, ?_, .nil, .nil, by simpa using hrules⟩, hblock⟩
  · simp [Node.tokens, hcs]
  · simp [Node.nodes, hcs]

/-- What to do where the guard of a schedule fails, if it is said. -/
def retry? : Reading (Option RetryPolicy) := do
  match ← childOf? Rule.retries with
  | some n => return some (← retryPolicy n)
  | none => return none

theorem scheduleParts_eq : scheduleParts = (do
    let anchor ← anchor
    let turns ← count "schedule turns"
    let guard ← child "schedule guard"
    let retry ← retry?
    let note ← stringIn? .note "note"
    let body ← child "schedule body"
    return { anchor, turns, guard, retry, note, body }) := by
  unfold scheduleParts retry?
  refine bind_congr fun _ => bind_congr fun _ => bind_congr fun _ => ?_
  rw [bind_assoc]
  refine bind_congr fun n? => ?_
  cases n? with
  | none => rfl
  | some n => simp only [bind_assoc]

theorem schedules_of_guarded {p : ScheduleParts} {q : Condition}
    (hn : n.Every (fun m => m.isFilled) T) (hr : n.rule = .actScheduleIf)
    (h : n.parts scheduleParts = .ok p) (hq : guard p.guard = .ok q) :
    n.Schedules guard p.turns (some ⟨q, p.retry⟩) p.body := by
  have hrow := n.filled_row hn
  rw [hr] at hrow
  obtain ⟨⟨hguard, -⟩, hblock, -⟩ := (hrow.parts ReadsHead.any.guarded).ok h
  rw [scheduleParts_eq] at h
  obtain ⟨_, h⟩ := parts_eq_ok.mp h
  obtain ⟨a, _, ha, h⟩ := reads_bind.mp h
  obtain ⟨turns, _, hturns, h⟩ := reads_bind.mp h
  obtain ⟨g, _, hg, h⟩ := reads_bind.mp h
  obtain ⟨retry, _, hretry, h⟩ := reads_bind.mp h
  obtain ⟨note, _, hnote, h⟩ := reads_bind.mp h
  obtain ⟨block, rest, hbody, h⟩ := reads_bind.mp h
  obtain ⟨rfl, rfl⟩ := reads_done.mp h
  obtain ⟨t, hcs⟩ := reads_anchor ha
  obtain ⟨u, rfl, hu⟩ := reads_count.mp hturns
  obtain rfl := reads_child.mp hg
  obtain ⟨retries, rfl, hretries⟩ := reads_option hretry
  obtain ⟨notes, rfl, hnotes⟩ := reads_option hnote
  obtain rfl := reads_child.mp hbody
  obtain rfl := eq_nil_of_body
    (.token t :: .token u :: .node g :: (retries.map .node ++ notes.map .node)) rest hn.here
    (by simp [hr, Rule.schedules]) (by simpa using hcs) hblock
  have hrules := ((List.forall₂_and_left _ _).mp hnotes).1
  refine ⟨⟨t, u, ?_, hu⟩, ⟨[g], retries, notes, ?_, .cons ⟨hguard, hq⟩ .nil, hretries,
    by simpa using hrules⟩, hblock⟩
  · simp [Node.tokens, hcs]
  · simp [Node.nodes, hcs]

end Shape

/-! ## Both lists -/

/-- What holds of each pair of entries, as their first parts are in a list. -/
theorem forall₂_of_mem {R S : α → β → Prop} {as : List α} {bs : List β} (h : List.Forall₂ R as bs)
    (hS : ∀ a ∈ as, ∀ b, R a b → S a b) : List.Forall₂ S as bs := by
  induction h with
  | nil => exact .nil
  | cons ha _ ih => exact .cons (hS _ (by simp) _ ha) (ih fun a hmem => hS a (by simp [hmem]))

/-- What is listed of a condition, an effect or the like is what its construct has of its own and
what the constructs in it have. Constructs of a `quiet` rule have nothing, nor does anything in
them. -/
structure Listing.Matches (w : Listing α) (own : Node → List β) (R : α → β → Prop)
    (T : Token → Prop) (quiet : Rule → Bool) : Prop where
  closed : Rule.Closed quiet
  silent : ∀ {n : Node}, n.Every (fun m => m.isFilled) T → quiet n.rule → own n = []
  around : (Rule.events ++ Rule.modifiers).all quiet
  frame : ∀ {n : Node}, n.rule ∈ [.triggerDef, .triggerBlock, .doStmt, .condBlock] → own n = []
  query : ∀ {n : Node} {q : Query}, n.Every (fun m => m.isFilled) T → n.rule ∈ Rule.queries →
    Shape.query n = .ok q → List.Forall₂ R (w.query q) (n.gather own)
  group : ∀ {n : Node} {members : List Condition}, n.Every (fun m => m.isFilled) T →
    n.rule ∈ Rule.groups →
    List.Forall₂ (fun k q => ∃ limit levels, condition limit levels k = .ok q) n.nodes members →
      List.Forall₂ R (w.group members) (own n)
  effect : ∀ {n : Node} {e : Effect}, n.Every (fun m => m.isFilled) T → n.rule ∈ Rule.effects →
    Shape.effect n = .ok e → List.Forall₂ R (w.effect e) (n.gather own)
  patch : ∀ {n : Node} {item : Id .item} {patch : ItemPatch}, n.Every (fun m => m.isFilled) T →
    n.rule = .actModifyItem → List.Forall₂ R (w.effect (.modifyItem item patch)) (n.gather own)
  turns : ∀ {n : Node} {turns : UInt32} {anchor t : Token}, n.rule ∈ Rule.schedules →
    n.tokens = [anchor, t] → t.Counts turns → List.Forall₂ R (w.turns turns) (own n)
  retry : ∀ {n : Node} {r : RetryPolicy}, n.Every (fun m => m.isFilled) T → n.rule ∈ Rule.retries →
    retryPolicy n = .ok r → List.Forall₂ R (w.retry r) (n.gather own)

namespace Listing.Matches

variable {w : Listing α} {own : Node → List β} {R : α → β → Prop} {T : Token → Prop}
  {quiet : Rule → Bool} {n : Node} {limit levels : Nat}
  {guard : Node → Except ShapeFault Condition} {body : Node → Collecting (List Statement)}
  {act : Node → Collecting Action}

theorem gather_quiet (h : w.Matches own R T quiet) (hn : n.Every (fun m => m.isFilled) T)
    (hr : quiet n.rule) : n.gather own = [] :=
  Node.gather_eq_nil h.closed h.silent hn hr

/-- Lists that match part by part. -/
theorem flatMap {γ δ : Type} {as : List γ} {ns : List δ} {f : γ → List α} {g : δ → List β}
    (h : List.Forall₂ (fun n a => List.Forall₂ R (f a) (g n)) ns as) :
    List.Forall₂ R (as.flatMap f) (ns.flatMap g) := by
  induction h with
  | nil => exact .nil
  | cons ha _ ih => exact List.rel_append ha ih

/-! ### Conditions -/

/-- Conditions that are built list what their constructs have. -/
def Conditions (w : Listing α) (own : Node → List β) (R : α → β → Prop) (T : Token → Prop)
    (build : Node → Except ShapeFault Condition) : Prop :=
  ∀ k : Node, k.Every (fun m => m.isFilled) T → k.rule ∈ Rule.conditions → ∀ q, build k = .ok q →
    (∃ limit levels, condition limit levels k = .ok q) ∧ List.Forall₂ R (q.list w) (k.gather own)

theorem conditionOver (h : w.Matches own R T quiet) {member : Node → Except ShapeFault Condition}
    (hmember : Conditions w own R T member) (hn : n.Every (fun m => m.isFilled) T)
    (hr : n.rule ∈ Rule.conditions) {q : Condition} (hq : Shape.conditionOver member n = .ok q) :
    List.Forall₂ R (q.list w) (n.gather own) := by
  unfold Shape.conditionOver at hq
  split at hq <;> rename_i hgroup
  · have hgroup : n.rule ∈ Rule.groups := by simpa [Rule.groups] using hgroup
    obtain ⟨members, hmembers, hq⟩ := bind_eq_ok.mp hq
    have hslots : n.rule.slots = [.many (.node Rule.conditions)] := by
      rcases List.mem_pair.mp hgroup with hrule | hrule <;> rw [hrule] <;> rfl
    have hrow := n.filled_row hn
    rw [hslots] at hrow
    have hbuilt := forall₂_of_mem (mapM_eq_ok.mp hmembers) fun k hk q hq =>
      hmember k (hn.node hk) (hrow.nodes k hk).1 q hq
    have hlist : Condition.list w q = w.group members ++ Condition.listIn w members := by
      dsimp only at hq
      split at hq
      · cases hq
      · split at hq <;> cases hq <;> rfl
    rw [hlist, Condition.listIn_eq, Node.gather_eq]
    exact List.rel_append (h.group hn hgroup (hbuilt.imp fun _ _ h => h.1))
      (flatMap (hbuilt.imp fun _ _ h => h.2))
  · obtain ⟨query, hquery, hq⟩ := bind_eq_ok.mp hq
    cases hq
    have hqueries : n.rule ∈ Rule.queries := by simp_all [Rule.conditions, Rule.groups]
    exact h.query hn hqueries hquery

theorem condition (h : w.Matches own R T quiet) (limit levels : Nat) :
    Conditions w own R T (Shape.condition limit levels) := by
  induction levels with
  | zero =>
      intro n hn hr q hq
      exact ⟨⟨limit, 0, hq⟩, h.conditionOver (fun _ _ _ _ hq => (nofun : _ = _ → _) hq) hn hr hq⟩
  | succ levels ih =>
      intro n hn hr q hq
      exact ⟨⟨limit, levels + 1, hq⟩, h.conditionOver ih hn hr hq⟩

/-! ### Actions -/

/-- Actions that are built list what their constructs have. -/
def Actions (w : Listing α) (own : Node → List β) (R : α → β → Prop) (T : Token → Prop)
    (act : Node → Collecting Action) : Prop :=
  ∀ k : Node, k.Every (fun m => m.isFilled) T → k.rule ∈ Rule.actions → ∀ a, Makes (act k) a →
    List.Forall₂ R (a.list w) (k.gather own)

theorem deed (h : w.Matches own R T quiet) (hact : Actions w own R T act)
    (hn : n.Every (fun m => m.isFilled) T) (hr : n.rule = .doStmt) {d : Deed}
    (hd : Makes (Shape.deed act n) d) : List.Forall₂ R (d.list w) (n.gather own) := by
  obtain ⟨k, rest, hcs, a, ha, rfl⟩ := makes_deed.mp hd
  have hrow := n.filled_row hn
  rw [hr, hcs] at hrow
  obtain ⟨m, rest', heq, hrule, ⟨hmem, hm⟩, hrest, -⟩ := hrow.child
  cases heq
  obtain rfl : rest = [] := by simpa using hrest
  rw [Node.gather_eq, h.frame (by simp [hr]), Node.nodes, hcs, Deed.list]
  simpa using hact k (Element.every_node.mp hm) hrule a ha

theorem branch (h : w.Matches own R T quiet) (hguard : Conditions w own R T guard)
    (hblind : ∀ k, Blind (act k)) (hact : Actions w own R T act)
    (hn : n.Every (fun m => m.isFilled) T) (hr : n.rule = .condBlock) {s : Statement}
    (hs : Makes (Shape.branch guard act n) s) : List.Forall₂ R (s.list w) (n.gather own) := by
  obtain ⟨c, rest, hcs, -, ds, hds, q, hq, rfl⟩ := (makes_branch hblind).mp hs
  have hrow := n.filled_row hn
  rw [hr, hcs] at hrow
  obtain ⟨m, rest', heq, hrule, ⟨-, hm⟩, hrest⟩ := hrow.child
  cases heq
  rw [Node.gather_eq, h.frame (by simp [hr]), Node.nodes, hcs, Statement.list, Deed.listIn_eq]
  refine List.rel_append (hguard c (Element.every_node.mp hm) hrule q hq).2 (flatMap ?_)
  refine forall₂_of_mem hds fun k hk d hd => ?_
  obtain ⟨hrule, -, hk⟩ := hrest.nodes k hk
  exact h.deed hact (Element.every_node.mp hk) (List.mem_singleton.mp hrule) hd

theorem statement (h : w.Matches own R T quiet) (hguard : Conditions w own R T guard)
    (hblind : ∀ k, Blind (act k)) (hact : Actions w own R T act)
    (hn : n.Every (fun m => m.isFilled) T) {s : Statement}
    (hs : Makes (Shape.statement guard act n) s) : List.Forall₂ R (s.list w) (n.gather own) := by
  unfold Shape.statement at hs
  split at hs
  · obtain ⟨d, hd, hs⟩ := (makes_bind fun _ => Blind.done _).mp hs
    obtain rfl := makes_done.mp hs
    exact h.deed hact hn ‹_› hd
  · exact h.branch hguard hblind hact hn ‹_› hs
  · exact (makes_fail.mp hs).elim

theorem statements (h : w.Matches own R T quiet) (hguard : Conditions w own R T guard)
    (hblind : ∀ k, Blind (act k)) (hact : Actions w own R T act)
    (hn : n.Every (fun m => m.isFilled) T) (hr : n.rule = .triggerBlock) {ss : List Statement}
    (hss : Makes (Shape.statements guard act n) ss) :
    List.Forall₂ R (Statement.listIn w ss) (n.gather own) := by
  obtain ⟨-, hss⟩ := (makes_statements hblind).mp hss
  rw [Node.gather_eq, h.frame (by simp [hr]), Statement.listIn_eq]
  exact flatMap (forall₂_of_mem hss fun k hk s hs => h.statement hguard hblind hact (hn.node hk) hs)

theorem schedule (h : w.Matches own R T quiet) (hguard : Conditions w own R T guard)
    (hn : n.Every (fun m => m.isFilled) T) (hr : n.rule ∈ Rule.schedules) {turns : UInt32}
    {g : Option Guard} {block : Node} {anchor : Anchor} {note : Option String} {ss : List Statement}
    (hparts : n.Schedules guard turns g block)
    (hss : List.Forall₂ R (Statement.listIn w ss) (block.gather own)) :
    List.Forall₂ R ((Action.schedule anchor turns g note ss).list w) (n.gather own) := by
  obtain ⟨⟨a, t, htokens, hcount⟩, hparts, -⟩ := hparts
  obtain ⟨guards, retries, notes, hnodes, hguards, hretries, hnotes⟩ := hparts
  have hmem {k : Node} (hk : k ∈ guards ++ retries ++ notes ++ [block]) : k ∈ n.nodes := by
    rwa [hnodes]
  have hquiet : notes.flatMap (Node.gather own) = [] := by
    refine List.flatMap_eq_nil_iff.mpr fun k hk => h.gather_quiet (hn.node (hmem (by simp [hk]))) ?_
    exact List.all_eq_true.mp h.around _ (by simp [hnotes k hk, Rule.modifiers])
  have hguard : List.Forall₂ R (g.toList.flatMap fun g => g.condition.list w)
      (guards.flatMap (Node.gather own)) := by
    refine flatMap (forall₂_of_mem hguards fun k hk g ⟨hrule, hg⟩ => ?_)
    exact (hguard k (hn.node (hmem (by simp [hk]))) hrule _ hg).2
  have hretry : List.Forall₂ R ((g.bind (·.retry)).toList.flatMap w.retry)
      (retries.flatMap (Node.gather own)) := by
    refine flatMap (forall₂_of_mem hretries fun k hk r ⟨hrule, hr⟩ => ?_)
    exact h.retry (hn.node (hmem (by simp [hk]))) hrule hr
  have hlist : g.toList.flatMap (Guard.list w) =
      (g.toList.flatMap fun g => g.condition.list w) ++
        (g.bind (·.retry)).toList.flatMap w.retry := by
    cases g <;> simp [Guard.list]
  have hgather : n.gather own = own n ++ (guards.flatMap (Node.gather own) ++
      retries.flatMap (Node.gather own)) ++ block.gather own := by
    rw [Node.gather_eq, hnodes]
    simp [hquiet]
  rw [hgather, Action.list, hlist]
  have hturns := h.turns hr htokens hcount
  exact List.rel_append (List.rel_append hturns (List.rel_append hguard hretry)) hss

theorem actionOver (h : w.Matches own R T quiet) (hguard : Conditions w own R T guard)
    (hn : n.Every (fun m => m.isFilled) T) (hr : n.rule ∈ Rule.actions)
    (hbody : ∀ k ∈ n.nodes, k.rule = .triggerBlock → ∀ ss, Makes (body k) ss →
      List.Forall₂ R (Statement.listIn w ss) (k.gather own)) {a : Action}
    (ha : Makes (Shape.actionOver guard body n) a) : List.Forall₂ R (a.list w) (n.gather own) := by
  unfold Shape.actionOver at ha
  split at ha <;> rename_i hrule
  · obtain ⟨e, he, ha⟩ := (makes_bind fun _ => Blind.done _).mp ha
    obtain rfl := makes_done.mp ha
    obtain ⟨change, -, rfl⟩ := makes_modifyItem.mp he
    exact h.patch hn hrule
  · obtain ⟨p, hp, ss, hss, rfl⟩ := makes_plainSchedule.mp ha
    have hparts := schedules_of_plain guard hn hrule hp
    exact h.schedule hguard hn (by simp [hrule, Rule.schedules]) hparts
      (hbody _ hparts.block_mem hparts.block ss hss)
  · obtain ⟨p, hp, q, hq, ss, hss, rfl⟩ := makes_guardedSchedule.mp ha
    have hparts := schedules_of_guarded hn hrule hp hq
    exact h.schedule hguard hn (by simp [hrule, Rule.schedules]) hparts
      (hbody _ hparts.block_mem hparts.block ss hss)
  · obtain ⟨e, he, ha⟩ := makes_given.mp ha
    obtain rfl := makes_done.mp ha
    exact h.effect hn (by simp_all [Rule.actions]) he

theorem action (h : w.Matches own R T quiet) (limit levels : Nat) :
    Actions w own R T (Shape.action limit levels) := by
  induction levels with
  | zero =>
      intro n hn hr a ha
      exact h.actionOver (h.condition limit 0) hn hr (fun _ _ _ _ h => (makes_fail.mp h).elim) ha
  | succ levels ih =>
      intro n hn hr a ha
      refine h.actionOver (h.condition limit (levels + 1)) hn hr (fun k hk hblock ss hss => ?_) ha
      exact h.statements (h.condition limit levels) (blind_action limit levels) ih (hn.node hk)
        hblock hss

/-- What is listed of the statements of a trigger is what its construct has. -/
theorem trigger (h : w.Matches own R T quiet) (hn : n.Every (fun m => m.isFilled) T)
    (hr : n.rule = .triggerDef) {t : Trigger} (ht : Makes (Shape.trigger limit n) t) :
    List.Forall₂ R (Statement.listIn w t.block) (n.gather own) := by
  obtain ⟨name, modifiers, notes, e, block, hp, ss, hss, rfl⟩ := makes_trigger.mp ht
  obtain ⟨hblock, hmem⟩ := triggerParts_block hn hr hp
  have hss := h.statements (h.condition limit limit) (blind_action limit limit)
    (h.action limit limit) (hn.node hmem) hblock hss
  have hfill : fill (Rule.triggerDef.slots.dropLast ++ [.one (.node [.triggerBlock])])
      n.children := by
    have hfilled := hn.here
    rwa [Node.isFilled, hr] at hfilled
  obtain ⟨front, c, hcs, hc, hfront⟩ := fill_concat hfill
  -- Only the last part is a block, and nothing is listed of those before it.
  have hrules : ∀ k ∈ Element.nodes front, k.rule ∈ Rule.events ++ Rule.modifiers := by
    intro k hk
    obtain ⟨slot, hslot, hfits⟩ := hfront _ (Element.mem_nodes.mp hk)
    have hkeeps : Rule.triggerDef.slots.dropLast.all
      (Slot.keepsTo fun r => (Rule.events ++ Rule.modifiers).contains r) := by decide
    simpa using Node.rule_of_keepsTo (List.all_eq_true.mp hkeeps slot hslot) hfits
  have hnodes : n.nodes = Element.nodes front ++ Element.nodes [c] := by
    rw [Node.nodes, hcs, Element.nodes_append]
  have hlast : Element.nodes [c] = [block] := by
    rw [hnodes, List.mem_append] at hmem
    rcases hmem with hmem | hmem
    · have hbody := hrules block hmem
      rw [hblock] at hbody
      exact absurd hbody (by decide)
    · cases c <;> simp_all
  have hquiet : (Element.nodes front).flatMap (Node.gather own) = [] := by
    refine List.flatMap_eq_nil_iff.mpr fun k hk => ?_
    exact h.gather_quiet (hn.node (by simp [hnodes, hk]))
      (List.all_eq_true.mp h.around _ (hrules k hk))
  have hgather : n.gather own = block.gather own := by
    rw [Node.gather_eq, h.frame (by simp [hr]), hnodes, hlast]
    simp [hquiet]
  rwa [hgather]

end Listing.Matches

end Storyworld
