import Storyworld.Proofs.Document.Accounted
import Storyworld.Proofs.Nesting.Follows

namespace Storyworld

/-! Triggers read with another number of levels. A fault is found only where more groups and schedules
lie inside one another than there are levels. -/

variable {r : Rule} {n : Node} {cs : List Element} {l : Nat}

theorem le_nestingIn {c : Element} (hc : c ∈ cs) (h : l ≤ c.nestingUnder r) : l ≤ nestingIn r cs :=
  h.trans (nestingIn_le.mp (Nat.le_refl _) c hc)

/-- Parts are no deeper than what they are parts of. -/
theorem le_nestingIn_of_node (hn : .node n ∈ cs) (h : l ≤ n.nesting) : l ≤ nestingIn r cs :=
  le_nestingIn hn (h.trans (Nat.le_add_right _ _))

/-- A part that is nested has a level more around it. -/
theorem succ_le_nestingIn (hn : .node n ∈ cs) (hr : r.nests n.rule) (h : l ≤ n.nesting) :
    l + 1 ≤ nestingIn r cs := by
  refine le_nestingIn hn ?_
  rw [Element.nestingUnder, hr]
  exact Nat.succ_le_succ h

namespace Grammar

/-- One parser of nodes follows another that has `l` levels less or more: it comes to the end of its
levels only where that many lie inside one another, and then there are as many tokens. -/
abbrev FollowsTo (l : Nat) (c c' : Context) (k : Bool) (p q : Parse Node) : Prop :=
  Follows c c' l k (fun _ => True) (fun n => l ≤ n.nesting) p q

namespace Follows

variable {c c' : Context} {k : Bool} {α : Type} {p p' q q' : Parse α}

/-! ## The end of the levels -/

/-- Where there are no levels left, everything is too deep. -/
theorem tooDeep {far : Nat} {Q d : Node → Prop} {p p' : Parse Node} (h : Follows c c' far k Q d p p') :
    Follows c c' 0 k Q (fun n => 0 ≤ n.nesting) p Grammar.tooDeep := by
  refine ⟨h.left, .fails fun _ _ => run_failHere _, fun {s a s'} hp => ⟨(h.run hp).1, .inr ?_⟩⟩
  refine ⟨Nat.zero_le _, Nat.zero_le _, s.place c', ?_⟩
  have hrun : (Grammar.tooDeep : Parse Node) c' s = _ := run_failHere SyntaxFault.Cause.nestingTooDeep
  rw [hrun]
  exact List.prefix_rfl

/-- Where there are none from the beginning, nothing is read. -/
theorem ofTooDeep {far : Nat} {Q d : Node → Prop} {q : Parse Node} (hq : Advances k q) :
    Follows c c' far k Q d Grammar.tooDeep q :=
  never hq fun _ _ => run_failHere SyntaxFault.Cause.nestingTooDeep

/-! ## Phrases -/

theorem node {far : Nat} {parts parts' : Parse (List Element)}
    (hp : Follows c c' far true (fun _ => True) (fun cs => l ≤ nestingIn r cs) parts parts') :
    Follows c c' far k (fun n => n.rule = r) (fun n => l ≤ n.nesting) (Grammar.node r parts)
      (Grammar.node r parts') := by
  have hmap : Follows c c' far true (fun rcs : Rule × List Element => rcs.1 = r)
      (fun rcs => l ≤ nestingIn rcs.1 rcs.2) (Prod.mk r <$> parts) (Prod.mk r <$> parts') :=
    hp.map (fun _ _ => rfl) fun _ _ h => h
  refine nodeBy hmap (fun _ _ _ h => h) fun _ _ _ _ h => ?_
  rwa [Node.nesting_mk]

/-- A parser that takes one of two ways by the next word. -/
theorem alternative {far : Nat} {Q d : α → Prop} {w : String} (hp : Follows c c' far k Q d p p')
    (hq : Follows c c' far k Q d q q') :
    Follows c c' far k Q d (do if ← atKeyword w then p else q)
      (do if ← atKeyword w then p' else q') :=
  past (Lays.atKeyword w) fun _ => ite hp hq

/-! ## Conditions -/

theorem conditionOver {member member' : Parse Node}
    (h : FollowsTo l c c' true member member') (place : Place) :
    FollowsTo (l + 1) c c' k (Grammar.conditionOver member place)
      (Grammar.conditionOver member' place) := by
  have hparts : Follows c c' (l + 1) true (fun rcs : Rule × List Element => True)
      (fun rcs => l + 1 ≤ nestingIn rcs.1 rcs.2)
      (do if ← atOneOf ["any", "all"] then
            let group ← oneOf ["any", "all"]
            let members ← Grammar.parenthesized member
            let rule := if group.text = "any" then Rule.condAny else .condAll
            return (rule, members.map .node)
          else query place)
      (do if ← atOneOf ["any", "all"] then
            let group ← oneOf ["any", "all"]
            let members ← Grammar.parenthesized member'
            let rule := if group.text = "any" then Rule.condAny else .condAll
            return (rule, members.map .node)
          else query place) := by
    apply past (Lays.atOneOf _)
    intro grouped
    apply ite
    · apply deeper (Lays.oneOf _)
      intro group
      apply (parenthesized h).map (fun _ _ => trivial)
      rintro members - ⟨n, hn, hdeep⟩
      apply succ_le_nestingIn (List.mem_map_of_mem hn) _ hdeep
      split <;> rfl
    · exact same (Lays.query place)
  exact nodeBy hparts (fun _ _ _ _ => trivial) fun _ _ _ _ h => by rwa [Node.nesting_mk]

theorem condition (more levels : Nat) (place : Place) :
    FollowsTo (levels + 1) c c' k (Grammar.condition more place)
      (Grammar.condition levels place) := by
  induction levels generalizing k more place with
  | zero =>
      cases more with
      | zero => exact conditionOver (ofTooDeep (.fails fun _ _ => run_failHere _)) place
      | succ more =>
          have hmember : Follows c c' 0 true (fun _ => True) (fun _ => True)
              (Grammar.condition more .grouped) (Grammar.condition more .grouped) :=
            same (Lays.condition more _)
          exact conditionOver (tooDeep hmember) place
  | succ levels ih =>
      cases more with
      | zero => exact conditionOver (ofTooDeep (Lays.condition levels _).advances) place
      | succ more => exact conditionOver (ih more .grouped) place

/-! ## Schedules -/

section

variable {guard guard' body body' : Parse Node}

theorem scheduleGuard {far : Nat} {d : Node → Prop}
    (hg : Follows c c' far true (fun _ => True) d guard guard') :
    Follows c c' far false (fun rcs => rcs.1 ∈ Rule.schedules)
      (fun rcs => ∃ n, .node n ∈ rcs.2 ∧ d n) (Grammar.scheduleGuard guard)
      (Grammar.scheduleGuard guard') := by
  apply past (Lays.eatKeyword _)
  intro guarded
  apply ite
  · apply andThen hg
    intro n
    apply past (Lays.optional _ Lays.onFalse)
    intro retry
    apply done
    intro _
    exact ⟨List.mem_cons_of_mem _ List.mem_cons_self, fun h => ⟨n, List.mem_cons_self, h⟩⟩
  · exact done List.mem_cons_self

/-- A guard lies no deeper than the schedule, and its body a level deeper. -/
theorem scheduleAction
    (hg : FollowsTo (l + 1) c c' true guard guard')
    (hb : Follows c c' l false (fun n => n.rule = .triggerBlock) (fun n => l ≤ n.nesting) body body') :
    Follows c c' (l + 1) k (fun _ => True) (fun rcs => l + 1 ≤ nestingIn rcs.1 rcs.2)
      (Grammar.scheduleAction guard body) (Grammar.scheduleAction guard' body') := by
  have hguard := scheduleGuard (hg.mono (Nat.le_succ l) (fun _ h => h) fun _ _ h => h)
  apply deeper (Lays.oneOf _)
  intro anchor
  apply past Lays.number
  intro turns
  apply bind hguard
  rintro ⟨r, guards⟩
  apply past (Lays.optional _ (Lays.keywordThenString _ _))
  intro notes
  apply hb.map
  · intro statements hrule hr
    refine ⟨trivial, fun ⟨n, hn, hdeep⟩ => le_nestingIn_of_node ?_ hdeep⟩
    simp [hn]
  · intro statements hrule hdeep hr
    apply succ_le_nestingIn (List.mem_append_right _ (List.mem_singleton_self _)) _ hdeep
    simp [Rule.nests, hrule, hr]

theorem actionOver
    (hg : FollowsTo (l + 1) c c' true guard guard')
    (hb : Follows c c' l false (fun n => n.rule = .triggerBlock) (fun n => l ≤ n.nesting) body body') :
    FollowsTo (l + 1) c c' k (Grammar.actionOver guard body)
      (Grammar.actionOver guard' body') := by
  unfold Grammar.actionOver
  refine nodeBy (Q := fun _ => True) (d := fun rcs => l + 1 ≤ nestingIn rcs.1 rcs.2)
    (pastToken (Lays.oneOf _) fun head => ?_) (fun _ _ _ _ => trivial)
    fun _ _ _ _ h => by rwa [Node.nesting_mk]
  split
  case h_1 => exact same (e := Prod.snd) (Lays.map Lays.string)
  case h_2 => exact same Lays.addAction
  case h_3 | h_4 | h_5 => exact same (Lays.flagAction _)
  case h_6 => exact same Lays.replaceAction
  case h_7 => exact same Lays.spawnAction
  case h_8 => exact same Lays.despawnAction
  case h_9 => exact same Lays.awardAction
  case h_10 | h_11 => exact same (Lays.lockAction _ _)
  case h_12 => exact same Lays.revealAction
  case h_13 => exact same Lays.pushAction
  case h_14 => exact same Lays.setAction
  case h_15 => exact same Lays.npcAction
  case h_16 => exact past (Lays.keyword _) fun _ => same (e := Prod.snd) (Lays.map Lays.string)
  case h_17 | h_19 => exact past (Lays.keyword _) fun _ => same (Lays.wordOf _ _)
  case h_18 => exact same Lays.giveAction
  case h_20 => exact same Lays.modifyAction
  case h_21 => exact scheduleAction hg hb

end

/-! ## Statements -/

section

variable {cond cond' act act' : Parse Node}

theorem deed (ha : FollowsTo l c c' false act act') :
    FollowsTo l c c' k (Grammar.deed act) (Grammar.deed act') := by
  apply forget
  apply node
  apply pastToken (Lays.keyword _)
  intro _
  apply ha.map (fun _ _ => trivial)
  exact fun n _ hdeep => le_nestingIn_of_node (List.mem_singleton_self _) hdeep

theorem branch (hc : FollowsTo l c c' false cond cond') (ha : FollowsTo l c c' false act act') :
    FollowsTo l c c' k (Grammar.branch cond act) (Grammar.branch cond' act') := by
  have hdeeds : FollowsTo l c c' true
      (do if ← atKeyword "do" then Grammar.deed act
          else if ← atKeyword "if" then throw ⟨.nestedConditional, ← here⟩
          else unexpected ["do", "\x7d"])
      (do if ← atKeyword "do" then Grammar.deed act'
          else if ← atKeyword "if" then throw ⟨.nestedConditional, ← here⟩
          else unexpected ["do", "\x7d"]) := by
    apply alternative (deed ha)
    apply alternative
    · exact fails fun _ _ => run_failHere fun _ => .nestedConditional
    · exact fails fun _ _ => run_unexpected _
  apply forget
  apply node
  apply pastToken (Lays.keyword _)
  intro _
  apply bind hc
  intro n
  apply (block hdeeds _).map
  · exact fun ns _ _ => ⟨trivial, le_nestingIn_of_node List.mem_cons_self⟩
  · rintro ns - ⟨m, hm, hdeep⟩ -
    exact le_nestingIn_of_node (List.mem_cons_of_mem _ (List.mem_map_of_mem hm)) hdeep

theorem statements (hc : FollowsTo l c c' false cond cond') (ha : FollowsTo l c c' false act act') :
    Follows c c' l k (fun n => n.rule = .triggerBlock) (fun n => l ≤ n.nesting)
      (Grammar.statements cond act) (Grammar.statements cond' act') := by
  apply node
  apply (blockOf (alternative (deed ha) (branch hc ha)) _).map
  · exact fun _ _ => trivial
  · rintro ns - ⟨n, hn, hdeep⟩
    exact le_nestingIn_of_node (List.mem_map_of_mem hn) hdeep

end

theorem action (more levels : Nat) :
    FollowsTo (levels + 1) c c' k (Grammar.action more) (Grammar.action levels) := by
  induction levels generalizing k more with
  | zero =>
      cases more with
      | zero => exact actionOver (condition 0 0 _) (ofTooDeep (.fails fun _ _ => run_failHere _))
      | succ more =>
          have hbody : Follows c c' 0 false (fun n => n.rule = .triggerBlock) (fun n => 0 ≤ n.nesting)
              (Grammar.statements (Grammar.condition more .standalone) (Grammar.action more)) _ :=
            statements (same (Lays.condition more _)) (same (Lays.action more))
          exact actionOver (condition (more + 1) 0 _) (tooDeep hbody)
  | succ levels ih =>
      cases more with
      | zero =>
          have hbody := Lays.statements (k := false) (Lays.condition levels .standalone)
            (Lays.action levels)
          exact actionOver (condition 0 (levels + 1) _) (ofTooDeep hbody.advances)
      | succ more =>
          have hbody := statements (k := false) (condition more levels .standalone) (ih more)
          exact actionOver (condition (more + 1) (levels + 1) _) hbody

/-! ## Triggers -/

theorem trigger (more levels : Nat) :
    FollowsTo (levels + 1) c c' k (Grammar.trigger more) (Grammar.trigger levels) := by
  apply forget
  apply node
  apply pastToken (Lays.keyword _)
  intro _
  apply past Lays.string
  intro name
  apply past Lays.triggerModifier.many
  intro modifiers
  apply past (Lays.eatKeyword _)
  intro heard
  have hend (ts : List Element) : Follows c c' (levels + 1) false (fun _ => True)
      (fun cs => levels + 1 ≤ nestingIn .triggerDef cs)
      (do let event ← Grammar.event
          let body ← Grammar.statements (Grammar.condition more .standalone) (Grammar.action more)
          return ts ++ [.node event, .node body])
      (do let event ← Grammar.event
          let body ← Grammar.statements (Grammar.condition levels .standalone) (Grammar.action levels)
          return ts ++ [.node event, .node body]) := by
    apply past Lays.event
    intro event
    apply (statements (condition more levels _) (action more levels)).map (fun _ _ => trivial)
    exact fun body _ h => le_nestingIn_of_node (by simp) h
  apply ite
  · apply bind (Q := fun _ => False) (d := fun _ => False) (fails fun _ _ => run_unexpected _)
    intro _
    exact (hend _).mono (Nat.le_refl _) (fun _ _ h => h.elim) fun _ _ h _ => h
  · exact hend _

/-! ## Definitions -/

/-- With other levels a definition is read the same, or it is too deep for them. -/
theorem definitionWithin (more levels : Nat) :
    FollowsTo (levels + 1) c c' true (Grammar.definitionWithin more)
      (Grammar.definitionWithin levels) := by
  exact alternative (same Lays.roomSet) (alternative (same Lays.room) (alternative (same Lays.item)
    (alternative (same Lays.npc) (alternative (trigger more levels) (alternative (same Lays.spinner)
      (alternative (same Lays.goal) (fails fun _ _ => run_unexpected _)))))))

theorem definition :
    FollowsTo (c'.settings.maxNesting + 1) c c' true Grammar.definition Grammar.definition := by
  have h : FollowsTo _ c c' _ _ _ :=
    definitionWithin c.settings.maxNesting c'.settings.maxNesting
  have hadvances : Advances true Grammar.definition := definition_composed.advances
  rw [definition_eq] at hadvances ⊢
  exact ⟨hadvances, hadvances, fun hp => by
    obtain ⟨-, hsame | hdeep⟩ := h.run ⟨hp.run, hp.faults⟩
    · exact ⟨trivial, .inl ⟨hsame.run, hsame.faults⟩⟩
    · exact ⟨trivial, .inr hdeep⟩⟩

/-! ## Sources -/

theorem found_nextDefinition {s : State} (hne : s.rest ≠ []) :
    found (Grammar.definition c s) <+: found (Grammar.nextDefinition c s) := by
  generalize h : Grammar.nextDefinition c s = e
  cases nextDerivation_iff.mpr h with
  | ends hr => exact absurd hr hne
  | keeps hdef _ | drops hdef _ => simp [hdef, found]
  | resumes _ hdef _ | stops _ hdef _ => simp [hdef, found, State.faulted]

theorem nextDefinition :
    Follows c c' (c'.settings.maxNesting + 1) false (fun _ => True)
      (fun ns? => ∃ ns ∈ ns?, ∃ n ∈ ns, c'.settings.maxNesting + 1 ≤ n.nesting)
      Grammar.nextDefinition Grammar.nextDefinition := by
  refine ⟨nextDefinition_advances, nextDefinition_advances, fun {s ns? s'} h => ⟨trivial, ?_⟩⟩
  rcases h.of_nextDefinition with ⟨rfl, hrest, rfl⟩ | ⟨n, rfl, hdefinition⟩
  · exact .inl ⟨(NextDerivation.ends hrest).execution, rfl⟩
  · have hfollows : FollowsTo _ c c' _ _ _ := definition
    obtain ⟨-, hsame | ⟨hdeep, hlen, hfound⟩⟩ := hfollows.run hdefinition
    · exact .inl ⟨nextDefinition_of_clean hsame, hsame.faults⟩
    · have hne : s.rest ≠ [] := by
        rintro hnil
        simp [hnil] at hlen
      refine .inr ⟨⟨[n], rfl, n, List.mem_singleton_self n, hdeep⟩, hlen, ?_⟩
      exact hfound.mono (found_nextDefinition hne)

end Follows

end Grammar

namespace Tree

open Grammar

variable {x y : Settings} {tokens : List Token}

/-- Tokens without a fault read the same under other settings, unless there is more nesting in the
tree than these allow. -/
theorem ofTokens_follows (h : (ofTokens x tokens).faults = []) :
    ofTokens y tokens = ofTokens x tokens ∨
      y.maxNesting < (ofTokens x tokens).tree.root.nesting ∧
        y.maxNesting < (significant tokens).length ∧
        ∃ span, [⟨.nestingTooDeep y.maxNesting, span⟩] <+: (ofTokens y tokens).faults := by
  obtain ⟨nss, s, hread⟩ := definitions_ok ⟨x, endOf tokens⟩ { rest := significant tokens }
  have hfaults : s.faults = [] := List.prefix_nil.mp (h ▸ faults_of_definitions hread)
  have hfollows : Follows ⟨x, endOf tokens⟩ ⟨y, endOf tokens⟩ _ _ _ _ _ _ := Follows.nextDefinition
  obtain ⟨-, hsame | ⟨⟨ns, hns, n, hn, hdeep⟩, hlen, span, hfound⟩⟩ :=
    hfollows.many.run ⟨hread, hfaults⟩
  · left
    rw [ofTokens_eq hread, ofTokens_eq hsame.run]
    rfl
  · obtain ⟨nss', s', hread'⟩ := definitions_ok ⟨y, endOf tokens⟩ { rest := significant tokens }
    rw [hread'] at hfound
    refine .inr ⟨?_, hlen, span, hfound.trans (faults_of_definitions hread')⟩
    rw [ofTokens_eq hread]
    have hmem := List.mem_map_of_mem (f := Element.node) (List.mem_flatten.mpr ⟨ns, hns, hn⟩)
    exact Nat.lt_of_lt_of_le hdeep (Node.nesting_le_of_mem_nodes (Node.mem_nodes.mpr hmem))

end Tree

end Storyworld
