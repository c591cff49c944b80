import Storyworld.Proofs.Document.Accounted
import Storyworld.Proofs.Grammar.Members

namespace Storyworld

namespace Grammar

/-! What the commas of the condition groups in a source are for. All of them are in conditions, as
nothing else that a definition is made of has groups in it. -/

/-- The groups in some parts have their tokens among some tokens. -/
def AttributedIn (ts : List Token) (cs : List Element) : Prop :=
  ∀ n, Element.node n ∈ cs → Attributed ts n

/-- The same of the parts of a node that is no group itself. -/
def AttributedParts (ts : List Token) (x : Rule × List Element) : Prop :=
  x.1 ∉ Rule.groups ∧ AttributedIn ts x.2

/-- A parser that takes some of the tokens `ts`, and whose results satisfy `Q` where it records no
fault. -/
structure Upholds (ts : List Token) (c : Context) {α : Type} (p : Parse α) (Q : α → Prop) : Prop where
  advances : Advances false p
  run : ∀ {s a s'}, Clean p c s a s' → s.rest <:+ ts → Q a

variable {ts : List Token} {c : Context} {α β : Type} {p q : Parse α}
  {f : α → Parse β} {g : α → β} {Q : α → Prop} {R : β → Prop} {k : Bool} {rules : List Rule}
  {w : String} {starters : List String}

theorem AttributedParts.tokens {r : Rule} {cs : List Element} (hr : r ∉ Rule.groups)
    (h : Element.nodes cs = []) : AttributedParts ts (r, cs) := by
  refine ⟨hr, fun n hn => ?_⟩
  have hmem : n ∈ Element.nodes cs := Element.mem_nodes.mpr hn
  simp [h] at hmem

namespace Upholds

/-! ## Rules -/

theorem of_consumes {Q : α → List Token → Prop} (h : Consumes c p Q) :
    Upholds ts c p fun a => ∃ own, own <:+: ts ∧ Q a own := by
  refine ⟨h.advances, fun {s a s'} hclean hs => ?_⟩
  obtain ⟨own, hown⟩ := (h.advances.ok hclean.run).rest
  have hprefix : own <+: s.rest := ⟨s'.rest, hown⟩
  exact ⟨own, hprefix.isInfix.trans hs.isInfix, h.run hclean hown.symm⟩

theorem any (h : Advances k p) : Upholds ts c p fun _ => True :=
  ⟨h.weaken (by simp), fun _ _ => trivial⟩

theorem mono (hp : Upholds ts c p Q) {Q' : α → Prop} (h : ∀ a, Q a → Q' a) : Upholds ts c p Q' :=
  ⟨hp.advances, fun hclean hs => h _ (hp.run hclean hs)⟩

theorem given {P : Prop} (hp : Upholds ts c p Q) : Upholds ts c p fun a => P → Q a :=
  hp.mono fun _ h _ => h

theorem done {a : α} (h : Q a) : Upholds ts c (pure a) Q := by
  refine ⟨.pure a, fun hclean _ => ?_⟩
  have hrun := hclean.run
  cases hrun
  exact h

theorem fails {γ : Context → State → SyntaxFault} (h : ∀ c s, p c s = .error (γ c s) s) :
    Upholds ts c p Q :=
  ⟨.fails h, fun hclean _ => (hclean.not_fails h).elim⟩

theorem unexpected (expected : List String) :
    Upholds ts c (Grammar.unexpected expected : Parse α) Q :=
  fails fun _ _ => run_unexpected expected

theorem bind (hp : Upholds ts c p Q) (hf : ∀ a, Upholds ts c (f a) fun b => Q a → R b) :
    Upholds ts c (p >>= f) R := by
  refine ⟨hp.advances.bind fun a => (hf a).advances, fun h hs => ?_⟩
  obtain ⟨a, s', hps, hfs⟩ := h.of_bind hp.advances fun a => (hf a).advances
  exact (hf a).run hfs ((hp.advances.ok hps.run).rest.trans hs) (hp.run hps hs)

theorem map (hp : Upholds ts c p Q) (h : ∀ a, Q a → R (g a)) : Upholds ts c (g <$> p) R :=
  hp.bind fun a => done (h a)

theorem ite {b : Prop} [Decidable b] (hp : Upholds ts c p Q) (hq : Upholds ts c q Q) :
    Upholds ts c (if b then p else q) Q := by
  split
  · exact hp
  · exact hq

theorem many {step : Parse (Option α)} (hprod : Productive step)
    (hp : Upholds ts c step fun a? => ∀ a ∈ a?, Q a) :
    Upholds ts c (Grammar.many step) fun as => ∀ a ∈ as, Q a := by
  refine ⟨hp.advances.many, fun {s as s'} hclean hs => ?_⟩
  induction as generalizing s with
  | nil => simp
  | cons a as ih =>
      rcases hclean.of_many hprod hp.advances with ⟨heq, -⟩ | ⟨a', as', s₁, heq, hsome, hmany⟩
      · cases heq
      · cases heq
        have hrest := (hp.advances.ok hsome.run).rest
        exact List.forall_mem_cons.mpr ⟨hp.run hsome hs a rfl, ih hmany (hrest.trans hs)⟩

theorem block {statement : Parse Node} {N : Node → Prop} (h : BlockOf starters statement)
    (hp : Upholds ts c statement N) :
    Upholds ts c (Grammar.block starters statement) fun ns => ∀ n ∈ ns, N n := by
  have hround (depth : Nat) : Upholds ts c (round depth starters statement)
      fun ns? => ∀ ns ∈ ns?, ∀ n ∈ ns, N n := by
    refine ⟨h.advances.round _ _, fun {s ns? s'} hclean hs => ?_⟩
    rintro ns rfl
    obtain ⟨u, rest, n, -, -, -, rfl, hn⟩ := hclean.of_round h.advances
    simpa using hp.run hn hs
  rw [block_eq]
  refine (any (.mark _)).bind fun _ => (any .depth).bind fun depth => ?_
  refine (many (h.advances.round_productive _ _) (hround depth)).map ?_
  intro nss hnss _ _ n hn
  obtain ⟨ns, hns, hmem⟩ := List.mem_flatten.mp hn
  exact hnss ns hns n hmem

/-! ## Nodes -/

theorem nodeBy {parts : Parse (Rule × List Element)} (hp : Upholds ts c parts (AttributedParts ts)) :
    Upholds ts c (Grammar.nodeBy parts) (Attributed ts) := by
  refine ⟨hp.advances.node, fun hclean hs => ?_⟩
  obtain ⟨r, cs, rfl, hparts⟩ := hclean.of_node
  obtain ⟨hr, hcs⟩ := hp.run hparts hs
  intro m hm hgroup
  rcases Node.mem_family.mp hm with rfl | ⟨n, hn, hm⟩
  · exact absurd hgroup hr
  · exact hcs n (Node.mem_nodes.mp hn) m hm hgroup

theorem node {r : Rule} {parts : Parse (List Element)} (hr : r ∉ Rule.groups)
    (hp : Upholds ts c parts (AttributedIn ts)) :
    Upholds ts c (Grammar.node r parts) (Attributed ts) :=
  nodeBy (hp.map fun _ h => ⟨hr, h⟩)

theorem flat {p : Parse Node}
    (hp : Composed (fun _ => True) (fun _ => True) false false p
      (Grown (fun _ => True) (fun _ => True) rules))
    (hr : rules.all Rule.isFlat) (hb : Uniform .bare Relabelling.bare.node p p) :
    Upholds ts c p (Attributed ts) :=
  ⟨hp.advances.weaken (by simp), fun hclean _ => .of_isFlat (hp.flat_found hr hb hclean.run)⟩

theorem flatParts {p : Parse (Rule × List Element)}
    (hp : Composed (fun _ => True) (fun _ => True) false false p
      (Parts (fun _ => True) (fun _ => True) rules))
    (hr : rules.all Rule.isFlat) (hb : Uniform .bare Relabelling.bare.parts p p) :
    Upholds ts c p (AttributedParts ts) := by
  refine ⟨hp.advances.weaken (by simp), fun {s x s'} hclean _ => ?_⟩
  have hflat := hp.flatParts_found hr hb hclean.run
  refine ⟨fun hgroup => ?_, fun n hn => .of_isFlat fun m hm => ?_⟩
  · have hgroups : ∀ r ∈ Rule.groups, r.isFlat = false := by decide
    exact absurd (hflat _ (Node.self_mem_family _)) (by simp [Node.rule, hgroups _ hgroup])
  · exact hflat m (Node.mem_family.mpr (.inr ⟨n, Node.mem_nodes.mpr hn, hm⟩))

/-! ## Phrases -/

theorem next (test : Token → Bool) : Upholds ts c (nextIs test) fun _ => True :=
  any (.look fun r => r[0]?.any test)

theorem keyword : Upholds ts c (Grammar.keyword w) fun _ => True :=
  any (.map (.take _ _))

theorem eatKeyword : Upholds ts c (Grammar.eatKeyword w) fun _ => True :=
  any (.eat fun r => r[0]?.any (·.isKeyword w))

theorem wordOf {r : Rule} {what : String} (hr : r ∉ Rule.groups) : Upholds ts c
    (do return (r, [Element.token (← Grammar.word what)])) (AttributedParts ts) :=
  (any (.take _ _)).map fun _ _ => .tokens hr rfl

/-- What a parser does is told by the word that comes next. -/
theorem alternative (hp : Upholds ts c p Q) (hq : Upholds ts c q Q) :
    Upholds ts c (do if ← atKeyword w then p else q) Q :=
  (next (·.isKeyword w)).bind fun _ => given (ite hp hq)

theorem begun {statement : Parse Node} (hp : Upholds ts c statement (Attributed ts)) :
    Upholds ts c (Grammar.begun starters statement) (Attributed ts) :=
  (next (·.isOneOf starters)).bind fun _ => given (ite hp (unexpected _))

theorem optional {clause : Parse Node} (hp : Upholds ts c clause (Attributed ts)) :
    Upholds ts c (Grammar.optional w clause) (AttributedIn ts) := by
  refine alternative (hp.map fun n hn => ?_) (done (by simp [AttributedIn]))
  simpa [AttributedIn] using hn

/-! ## Npcs -/

theorem movementOption : Upholds ts c Grammar.movementOption fun n? => ∀ n ∈ n?, Attributed ts n := by
  have hsome (n : Node) (h : Attributed ts n) : ∀ m ∈ some n, Attributed ts m := by simpa using h
  have hflag {r : Rule} {w : String} (hr : r ∈ [Rule.movementActive, .movementLoop]) :
      Upholds ts c (keywordThenBoolean r w) (Attributed ts) :=
    flat (.movementFlag hr) (by decide) (.keywordThenBoolean _ _)
  refine alternative (map ?_ hsome) (alternative (map (hflag (by simp)) hsome)
    (alternative (map (hflag (by simp)) hsome) (done (by simp))))
  exact flat .movementTiming (by decide)
    (.node _ ((Uniform.keyword _).bind fun _ => (Uniform.word _).one))

theorem movement : Upholds ts c Grammar.movement (Attributed ts) := by
  refine node (by decide) (keyword.bind fun _ => (any (.take _ _)).bind fun kind => given ?_)
  refine given (keyword.bind fun _ => ?_)
  refine (flat .idList (by decide) (.idList _)).bind fun rooms => ?_
  refine (many Composed.movementOption_productive movementOption).map fun options ho hr _ => ?_
  simpa [AttributedIn, or_imp, forall_and] using ⟨hr, ho⟩

theorem npcStatement : Upholds ts c Grammar.npcStatement (Attributed ts) := by
  refine alternative ?name ((next _).bind fun _ => given (ite ?desc (alternative ?location
    (alternative ?state (alternative movement ?dialogue)))))
  case name =>
    exact flat (.keywordThenString (List.mem_singleton_self _) rfl) (by decide) (.keywordThenString _ _)
  case desc => exact flat (.description (List.mem_singleton_self _) rfl) (by decide) (.description _)
  case location => exact flat .npcLocation (by decide) .npcLocation
  case dialogue => exact flat .dialogue (by decide) .dialogue
  case state =>
    refine node (by decide) (keyword.bind fun _ => (flat .mood (by decide) .mood).map fun n hn _ => ?_)
    simpa [AttributedIn] using hn

theorem npc : Upholds ts c Grammar.npc (Attributed ts) := by
  refine node (by decide) (keyword.bind fun _ => (any (.take _ _)).bind fun id => given (given ?_))
  refine (block .npc (begun npcStatement)).map fun ns hns => ?_
  simpa [AttributedIn] using hns

/-! ## Events -/

theorem event : Upholds ts c Grammar.event (Attributed ts) := by
  refine nodeBy ((any (.take _ _)).bind fun head => given ?_)
  split
  case h_1 => exact done (.tokens (by decide) rfl)
  case h_4 => exact flatParts .takeEvent (by decide) .takeEvent
  case h_8 | h_9 => exact keyword.bind fun _ => given (keyword.bind fun _ => given (wordOf (by decide)))
  case h_10 => exact flatParts .useEvent (by decide) .useEvent
  case h_11 =>
    refine (any (.take _ _)).bind fun _ => given (keyword.bind fun _ => given (keyword.bind fun _ => ?_))
    exact (any (.take _ _)).map fun _ _ _ => .tokens (by decide) rfl
  case h_12 | h_13 =>
    refine keyword.bind fun _ => given ((any (.take _ _)).bind fun _ => given (keyword.bind fun _ => ?_))
    exact given (keyword.bind fun _ => (any (.take _ _)).map fun _ _ _ => .tokens (by decide) rfl)
  case h_14 =>
    exact keyword.bind fun _ => (any (.take _ _)).map fun _ _ _ => .tokens (by decide) rfl
  all_goals exact keyword.bind fun _ => given (wordOf (by decide))

/-! ## Actions -/

variable {guard body : Parse Node}

theorem lockAction {itemRule exitRule : Rule} (hi : itemRule ∈ Rule.effects)
    (he : exitRule ∈ Rule.effects) (his : itemRule.slots = [.one .word])
    (hes : exitRule.slots = [.one .word, .one .label]) :
    Upholds ts c (Grammar.lockAction itemRule exitRule) (AttributedParts ts) :=
  flatParts (.lockAction hi he his hes) (by decide) (.lockAction _ _)

theorem scheduleGuard (hg : Upholds ts c guard (Attributed ts)) :
    Upholds ts c (Grammar.scheduleGuard guard) (AttributedParts ts) := by
  refine eatKeyword.bind fun _ => given (ite ?_ ?_)
  · refine hg.bind fun n => (optional (flat .onFalse (by decide) .onFalse)).map fun retry hr hn => ?_
    have hrule : Rule.actScheduleIf ∉ Rule.groups := by decide
    exact ⟨hrule, by simpa [AttributedIn, or_imp, forall_and] using ⟨hn, hr⟩⟩
  · exact done (.tokens (by decide) rfl)

theorem scheduleAction (hg : Upholds ts c guard (Attributed ts))
    (hb : Upholds ts c body (Attributed ts)) :
    Upholds ts c (Grammar.scheduleAction guard body) (AttributedParts ts) := by
  have hnote : Upholds ts c (keywordThenString .note "note") (Attributed ts) :=
    flat (.keywordThenString (List.mem_singleton_self _) rfl) (by decide) (.keywordThenString _ _)
  refine (any (.take _ _)).bind fun anchor => given ((any .number).bind fun turns => given ?_)
  refine (scheduleGuard hg).bind fun parts => (optional hnote).bind fun notes => hb.map ?_
  intro n hn hnotes hparts
  refine ⟨hparts.1, ?_⟩
  simpa [AttributedIn, or_imp, forall_and] using ⟨hparts.2, hnotes, hn⟩

theorem actionOver (hg : Upholds ts c guard (Attributed ts)) (hb : Upholds ts c body (Attributed ts)) :
    Upholds ts c (Grammar.actionOver guard body) (Attributed ts) := by
  refine nodeBy ((any (.take _ _)).bind fun head => given ?_)
  split
  case h_1 => exact (any (.take _ _)).map fun _ _ => .tokens (by decide) rfl
  case h_2 => exact flatParts .addAction (by decide) .addAction
  case h_3 | h_4 | h_5 => exact keyword.bind fun _ => given (wordOf (by decide))
  case h_6 => exact flatParts .replaceAction (by decide) .replaceAction
  case h_7 => exact flatParts .spawnAction (by decide) .spawnAction
  case h_8 => exact flatParts .despawnAction (by decide) .despawnAction
  case h_9 => exact flatParts .awardAction (by decide) .awardAction
  case h_10 | h_11 => exact lockAction (by decide) (by decide) rfl rfl
  case h_12 => exact flatParts .revealAction (by decide) .revealAction
  case h_13 => exact flatParts .pushAction (by decide) .pushAction
  case h_14 => exact flatParts .setAction (by decide) .setAction
  case h_15 => exact flatParts .npcAction (by decide) .npcAction
  case h_16 =>
    exact keyword.bind fun _ => (any (.take _ _)).map fun _ _ _ => .tokens (by decide) rfl
  case h_17 | h_19 => exact keyword.bind fun _ => given (wordOf (by decide))
  case h_18 => exact flatParts .giveAction (by decide) .giveAction
  case h_20 => exact flatParts .modifyAction (by decide) .modifyAction
  case h_21 => exact scheduleAction hg hb

/-! ## Statements -/

theorem condition (levels : Nat) (place : Place) :
    Upholds ts c (Grammar.condition levels place) (Attributed ts) := by
  refine (of_consumes (.condition levels)).mono ?_
  rintro n ⟨own, hown, -, -, h⟩
  exact h.mono hown

theorem deed {act : Parse Node} (ha : Upholds ts c act (Attributed ts)) :
    Upholds ts c (Grammar.deed act) (Attributed ts) := by
  refine node (by decide) (keyword.bind fun _ => ha.map fun n hn _ => ?_)
  simpa [AttributedIn] using hn

theorem branch {levels : Nat} {place : Place}
    (ha : Upholds ts c (Grammar.action levels) (Attributed ts)) :
    Upholds ts c (Grammar.branch (Grammar.condition levels place) (Grammar.action levels))
      (Attributed ts) := by
  refine node (by decide) (keyword.bind fun _ => given ((condition _ _).bind fun guard => ?_))
  have hnested : ∀ c s, (do throw ⟨.nestedConditional, ← here⟩ : Parse Node) c s =
      .error ⟨.nestedConditional, s.place c⟩ s := fun _ _ => run_failHere fun _ => .nestedConditional
  have hfaulty : Upholds ts c (do
      if ← atKeyword "if" then throw ⟨.nestedConditional, ← here⟩
      else Grammar.unexpected ["do", "\x7d"]) (Attributed ts) :=
    alternative (fails hnested) (unexpected _)
  refine (block (.branch levels) (alternative (deed ha) hfaulty)).map fun ns hns hguard => ?_
  simpa [AttributedIn, or_imp, forall_and] using ⟨hguard, hns⟩

theorem statements {levels : Nat} (ha : Upholds ts c (Grammar.action levels) (Attributed ts)) :
    Upholds ts c (Grammar.statements (Grammar.condition levels .standalone) (Grammar.action levels))
      (Attributed ts) := by
  refine node (by decide) ?_
  refine (block (.statements levels) (begun (alternative (deed ha) (branch ha)))).map fun ns hns => ?_
  simpa [AttributedIn] using hns

theorem action (levels : Nat) : Upholds ts c (Grammar.action levels) (Attributed ts) := by
  induction levels with
  | zero => exact actionOver (condition 0 _) (fails fun _ _ => run_failHere _)
  | succ levels ih => exact actionOver (condition (levels + 1) _) (statements ih)

/-! ## Definitions -/

theorem triggerModifier : Upholds ts c Grammar.triggerModifier fun n? => ∀ n ∈ n?, Attributed ts n := by
  have hsome (n : Node) (h : Attributed ts n) : ∀ m ∈ some n, Attributed ts m := by simpa using h
  refine alternative (map (node (by decide) ?_) hsome) (alternative (map ?_ hsome) (done (by simp)))
  · exact keyword.map fun _ _ => by simp [AttributedIn]
  · exact flat (.keywordThenString (List.mem_singleton_self _) rfl) (by decide) (.keywordThenString _ _)

theorem trigger (levels : Nat) : Upholds ts c (Grammar.trigger levels) (Attributed ts) := by
  refine node (by decide) (keyword.bind fun _ => given ((any (.take _ _)).bind fun name => given ?_))
  refine (many Composed.triggerModifier_productive triggerModifier).bind fun modifiers => ?_
  have hend : Upholds ts c (do
      let event ← Grammar.event
      let body ← Grammar.statements (Grammar.condition levels .standalone) (Grammar.action levels)
      return Element.token name :: modifiers.map .node ++ [.node event, .node body])
      fun cs => (∀ n ∈ modifiers, Attributed ts n) → AttributedIn ts cs := by
    refine event.bind fun e => (statements (action levels)).map fun body hbody he hm => ?_
    simpa [AttributedIn, or_imp, forall_and] using ⟨hm, he, hbody⟩
  refine eatKeyword.bind fun _ => given (ite ?_ hend)
  exact (unexpected (Q := fun _ => True) _).bind fun _ => given hend

theorem definitionWithin (levels : Nat) :
    Upholds ts c (Grammar.definitionWithin levels) (Attributed ts) := by
  refine alternative (flat .roomSet (by decide) .roomSet) (alternative (flat .room (by decide) .room)
    (alternative (flat .item (by decide) .item) (alternative npc (alternative (trigger levels)
      (alternative (flat .spinner (by decide) .spinner)
        (alternative (flat .goal (by decide) .goal) (unexpected _)))))))

theorem definition : Upholds ts c Grammar.definition (Attributed ts) := by
  refine ⟨definition_composed.advances.weaken (by simp), fun hclean hs => ?_⟩
  have hrun := hclean.run
  rw [definition_eq, run_within Grammar.definitionWithin] at hrun
  exact (definitionWithin _).run ⟨hrun, hclean.faults⟩ hs

theorem definitions : Upholds ts c (Grammar.many nextDefinition)
    fun nss => ∀ ns ∈ nss, ∀ n ∈ ns, Attributed ts n := by
  refine many nextDefinition_productive ⟨nextDefinition_advances, fun hclean hs => ?_⟩
  rcases hclean.of_nextDefinition with ⟨rfl, -, -⟩ | ⟨n, rfl, hn⟩
  · simp
  · simpa using definition.run hn hs

end Upholds

end Grammar

open Grammar

namespace Tree

/-- The groups of a source are made of its tokens. -/
theorem attributed_root {settings : Settings} {tokens : List Token}
    (hfaults : (ofTokens settings tokens).faults = []) :
    Attributed (significant tokens) (ofTokens settings tokens).tree.root := by
  obtain ⟨nss, s, hmany⟩ := definitions_ok ⟨settings, endOf tokens⟩ { rest := significant tokens }
  have hnone : s.faults = [] := List.prefix_nil.mp (hfaults ▸ faults_of_definitions hmany)
  have hnodes : (ofTokens settings tokens).tree.root.nodes = nss.flatten := by
    rw [Node.nodes, children_of_definitions hmany, Element.nodes_map]
  have hroot : (ofTokens settings tokens).tree.root.rule = .sourceFile := by
    rw [ofTokens_eq hmany]
    rfl
  intro m hm hr
  rcases Node.mem_family.mp hm with rfl | ⟨n, hn, hm⟩
  · rw [hroot] at hr
    exact absurd hr (by decide)
  · rw [hnodes] at hn
    obtain ⟨ns, hns, hn⟩ := List.mem_flatten.mp hn
    exact Upholds.definitions.run ⟨hmany, hnone⟩ List.suffix_rfl ns hns n hn m hm hr

/-- Commas in condition groups are attributed by the token behind them alone. Where some tokens are
read without a fault, a group that has members begins with its word and an opening parenthesis and
ends with the closing one. Of the commas directly between these parentheses, those behind which a
condition begins separate the members, of which there is one more; the others separate the rooms of
room lists, in which no room but the first one is a word that begins a condition. So the members and
their room lists are what these tokens tell. -/
theorem ofTokens_attributes {settings : Settings} {tokens : List Token} {m : Node}
    (hfaults : (ofTokens settings tokens).faults = [])
    (hm : m ∈ (ofTokens settings tokens).tree.root.family) (hr : m.rule ∈ Rule.groups)
    (hne : m.nodes ≠ []) :
    ∃ before group opening inner closing after,
      significant tokens = before ++ group :: opening :: inner ++ closing :: after ∧
      group.isOneOf ["any", "all"] ∧ opening.isMark .openParen ∧ closing.isMark .closeParen ∧
      enclosed 0 (inner ++ closing :: after) = inner ∧
      m.Over (group :: (opening :: inner ++ [closing])) ∧ m.Attributes inner := by
  obtain ⟨_, ⟨before, after, hsplit⟩, group, opening, inner, closing, rfl, hg, ho, hc, hi, hover,
    hattributes, -⟩ := attributed_root hfaults m hm hr hne
  have hsplit : before ++ group :: (opening :: inner ++ [closing]) ++ after = significant tokens :=
    hsplit
  refine ⟨before, group, opening, inner, closing, after, ?_, hg, ho, hc, ?_, hover, hattributes⟩
  · simp [← hsplit]
  · rw [hi.enclosed_append, enclosed, if_pos (by simp [hc]), List.append_nil]

/-- A group whose commas are of both kinds, with another one inside it. -/
def groupInGroup : String :=
  "trigger \"t\" when always \x7b if any(in rooms a, b, has flag f, " ++
    "all(ambient s in rooms flag, c, flag in progress q)) \x7b do show \"x\" \x7d \x7d"

theorem ofTokens_attributes_groupInGroup :
    let tokens := Lexer.tokensOf groupInGroup
    let groups := (ofTokens {} tokens).tree.root.family.filter (·.rule ∈ Rule.groups)
    (ofTokens {} tokens).faults = [] ∧ groups.map (·.nodes.length) = [3, 2] ∧
      ∀ m ∈ groups, ∃ inner, inner <:+: significant tokens ∧ m.Attributes inner := by
  have hfaults : (ofTokens {} (Lexer.tokensOf groupInGroup)).faults = [] := by decide +kernel
  have hgroups : (((ofTokens {} (Lexer.tokensOf groupInGroup)).tree.root.family.filter
      (·.rule ∈ Rule.groups)).map (·.nodes.length)) = [3, 2] := by decide +kernel
  refine ⟨hfaults, hgroups, fun m hm => ?_⟩
  have hlength : m.nodes.length ∈ [3, 2] := hgroups ▸ List.mem_map_of_mem hm
  have hne : m.nodes ≠ [] := by
    rintro hnone
    simp [hnone] at hlength
  obtain ⟨hfamily, hr⟩ := List.mem_filter.mp hm
  obtain ⟨before, group, opening, inner, closing, after, hsplit, -, -, -, -, -, hattributes⟩ :=
    ofTokens_attributes hfaults hfamily (by simpa using hr) hne
  exact ⟨inner, ⟨before ++ [group, opening], closing :: after, by simp [hsplit]⟩, hattributes⟩

end Tree

end Storyworld
