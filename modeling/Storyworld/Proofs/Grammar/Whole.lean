import Storyworld.Proofs.Grammar.Ownership

namespace Storyworld.Grammar

/-! Definitions end with a closer of their own, and nothing behind it plays a part in them. -/

variable {c c' : Context} {b b' x : List Token} {s s' t : State} {α β : Type}

/-- A parser that, where it records no fault, takes a closer last and reads the same tokens to the
same end whatever lies behind them. -/
structure Whole (c c' : Context) (b b' : List Token) (p : Parse α) : Prop where
  advances : Advances true p
  last : ∀ {s a s'}, Clean p c s a s' → ∃ taken u, s.rest = taken ++ u :: s'.rest ∧ u.isCloser
  same : ∀ {s t a s' x}, Clean p c s a s' → s.rest = x ++ b → s'.rest = b → t.rest = x ++ b' →
    ∃ t', Clean p c' t a t' ∧ t'.rest = b'

namespace Whole

theorem bind {p : Parse α} {f : α → Parse β} {Q : α → Prop}
    (hp : Composed Token.IsSpelled (fun _ => True) true false p Q)
    (hc : c'.settings.maxNesting = c.settings.maxNesting) (hf : ∀ a, Whole c c' b b' (f a)) :
    Whole c c' b b' (p >>= f) := by
  have hfa a := (hf a).advances
  constructor
  · exact (hp.advances.bind hfa).weaken fun _ => Bool.or_true _
  · intro s y s'' h
    obtain ⟨a, s', hps, hfs⟩ := h.of_bind hp.advances hfa
    obtain ⟨taken, hrest, -, -⟩ := (hp.advances.ok hps.run).taken
    obtain ⟨taken', u, hrest', hu⟩ := (hf a).last hfs
    exact ⟨taken ++ taken', u, by rw [hrest, hrest', List.append_assoc], hu⟩
  · intro s t y s'' x h hs hs'' ht
    obtain ⟨a, s', hps, hfs⟩ := h.of_bind hp.advances hfa
    obtain ⟨taken, u, hrest, hu⟩ := (hf a).last hfs
    have hs' : s'.rest = (taken ++ [u]) ++ b := by rw [hrest, hs'', List.append_assoc]; rfl
    have hclose : Enclosed true x (taken ++ [u]) := .inl (by simpa using hu)
    obtain ⟨t', hpt, ht'⟩ := (hp.owned hc).same hps hs hs' hclose ht
    obtain ⟨t'', hft, ht''⟩ := (hf a).same hfs hs' hs'' ht'
    exact ⟨t'', hpt.bind hft, ht''⟩

theorem map {p : Parse α} {g : α → β} (hp : Whole c c' b b' p) : Whole c c' b b' (g <$> p) := by
  constructor
  · exact hp.advances.map
  · intro s y s' h
    obtain ⟨a, -, hps⟩ := h.of_map
    exact hp.last hps
  · intro s t y s' x h hs hs' ht
    obtain ⟨a, rfl, hps⟩ := h.of_map
    obtain ⟨t', hpt, ht'⟩ := hp.same hps hs hs' ht
    exact ⟨t', hpt.map, ht'⟩

theorem node {parts : Parse (Rule × List Element)} (hp : Whole c c' b b' parts) :
    Whole c c' b b' (nodeBy parts) := by
  constructor
  · exact hp.advances.node
  · intro s n s' h
    obtain ⟨r, cs, -, hparts⟩ := h.of_node
    exact hp.last hparts
  · intro s t n s' x h hs hs' ht
    obtain ⟨r, cs, rfl, hparts⟩ := h.of_node
    obtain ⟨t', hpt, ht'⟩ := hp.same hparts hs hs' ht
    rw [hp.advances.upTo_eq hparts.run hpt.run (hs' ▸ hs) (ht' ▸ ht)]
    exact ⟨t', hpt.node, ht'⟩

theorem fails {p : Parse α} {g : Context → State → SyntaxFault}
    (h : ∀ c s, p c s = .error (g c s) s) : Whole c c' b b' p :=
  ⟨.fails h, fun hp => (hp.not_fails h).elim, fun hp => (hp.not_fails h).elim⟩

theorem ite {P : Prop} [Decidable P] {p q : Parse α} (hp : Whole c c' b b' p)
    (hq : Whole c c' b b' q) : Whole c c' b b' (if P then p else q) := by
  split
  exacts [hp, hq]

theorem closeParen : Whole c c' b b' (mark .closeParen) := by
  constructor
  · exact .mark _
  · intro s a s' h
    obtain ⟨u, rest, hr, hu, rfl⟩ := h.of_mark
    exact ⟨[], u, by simp [advance_of_cons hr, hr], by simp [Token.isCloser, hu]⟩
  · intro s t a s' x h hs hs' ht
    obtain ⟨u, rest, hr, hu, rfl⟩ := h.of_mark
    obtain rfl : rest = b := by rw [← hs', advance_rest, hr, List.tail_cons]
    obtain rfl : x = [u] := by
      refine (List.append_left_inj rest).mp ?_
      rw [← hs, hr, List.singleton_append]
    exact ⟨t.advance, Clean.mark ht hu, by rw [advance_rest, ht]; rfl⟩

/-- A block ends with the brace that closes it. -/
theorem blockOf {starters : List String} {statement : Parse Node} {N : Node → Prop}
    (hc : c'.settings.maxNesting = c.settings.maxNesting)
    (hp : Composed Token.IsSpelled (fun _ => True) false true statement N) :
    Whole c c' b b' (Grammar.blockOf starters statement) := by
  have hbegun := hp.begun starters
  have hblock : Composed _ _ false true (Grammar.blockOf starters statement) _ := .blockOf hp
  have hlast {s s' : State} {ns : List Node} (h : Clean (Grammar.blockOf starters statement) c s ns s') :
      s.Closed s' := (Clean.of_block hbegun.advances hbegun.level h).2
  constructor
  · exact hblock.advances
  · intro s ns s' h
    obtain ⟨taken, u, hrest, hu⟩ := hlast h
    exact ⟨taken, u, hrest, by simp [Token.isCloser, hu]⟩
  · intro s t ns s' x h hs hs' ht
    obtain ⟨taken, u, hrest, hu⟩ := hlast h
    obtain rfl : x = taken ++ [u] := by
      refine (List.append_left_inj b).mp ?_
      rw [← hs, hrest, hs', List.append_assoc]
      rfl
    have hclose : Enclosed false (taken ++ [u]) [] := .inr ⟨rfl, rfl, by simpa using hu⟩
    exact (hblock.owned hc).same (r := []) h hs hs' hclose ht

/-! ## Definitions -/

section

variable (hc : c'.settings.maxNesting = c.settings.maxNesting)

include hc

theorem roomSet : Whole c c' b b' Grammar.roomSet := by
  have hids : Whole c c' b b' (Grammar.parenthesized (Grammar.word "room id")) := by
    refine .bind (.mark (by decide) (by decide)) hc fun _ => .bind .atMark hc fun closed => ?_
    refine .ite (.bind (.done (Q := fun _ => True) trivial) hc fun ids => ?_)
      (.bind (.commaSeparatedAll .word) hc fun ids => ?_)
    all_goals exact closeParen.map
  refine .node (.map (.bind .keyword hc fun _ => .bind .keyword hc fun _ => ?_))
  refine .bind .word hc fun name => .bind (.mark (by decide) (by decide)) hc fun _ => ?_
  exact .map (.node (.map hids.map))

theorem room : Whole c c' b b' Grammar.room :=
  .node (.map (.bind .keyword hc fun _ => .bind .word hc fun _ => .map (.blockOf hc .roomStatement)))

theorem item : Whole c c' b b' Grammar.item :=
  .node (.map (.bind .keyword hc fun _ => .bind .word hc fun _ => .map (.blockOf hc .itemStatement)))

theorem npc : Whole c c' b b' Grammar.npc :=
  .node (.map (.bind .keyword hc fun _ => .bind .word hc fun _ =>
    .map (.blockOf hc (.npcStatement fun _ h => h))))

theorem spinner : Whole c c' b b' Grammar.spinner :=
  .node (.map (.bind .keyword hc fun _ => .bind .label hc fun _ => .map (.blockOf hc .wedge)))

theorem goal : Whole c c' b b' Grammar.goal :=
  .node (.map (.bind .keyword hc fun _ => .bind .word hc fun _ => .map (.blockOf hc .goalStatement)))

theorem trigger (levels : Nat) : Whole c c' b b' (Grammar.trigger levels) := by
  have hbody : Whole c c' b b'
      (Grammar.statements (Grammar.condition levels .standalone) (Grammar.action levels)) :=
    .node (.map (.map (.blockOf hc (.statement (fun _ _ => .condition _ _)
      (fun _ _ => .action _) fun _ h => h))))
  refine .node (.map (.bind .keyword hc fun _ => .bind .string hc fun _ => ?_))
  refine .bind (.many .triggerModifier Composed.triggerModifier_productive) hc fun _ => ?_
  refine .bind .eatKeyword hc fun _ => ?_
  refine .ite (.bind (.unexpected _ (Q := fun _ => True)) hc fun _ => ?_) ?_
  all_goals exact .bind (.event fun _ h => h) hc fun _ => .map hbody

/-- What a parser does is told by the word that comes next. -/
theorem alternative {w : String} {p q : Parse α} (hp : Whole c c' b b' p) (hq : Whole c c' b b' q) :
    Whole c c' b b' (do if ← Grammar.atKeyword w then p else q) :=
  .bind .atKeyword hc fun _ => .ite hp hq

theorem definitionWithin (levels : Nat) : Whole c c' b b' (Grammar.definitionWithin levels) :=
  .alternative hc (.roomSet hc) (.alternative hc (.room hc) (.alternative hc (.item hc)
    (.alternative hc (.npc hc) (.alternative hc (.trigger hc levels) (.alternative hc (.spinner hc)
      (.alternative hc (.goal hc) (.fails fun _ _ => run_unexpected _)))))))

theorem definition : Whole c c' b b' Grammar.definition := by
  have hwithin : Whole c c' b b' (Grammar.definitionWithin c.settings.maxNesting) :=
    definitionWithin hc _
  have hrun : Grammar.definition c = Grammar.definitionWithin c.settings.maxNesting c := by
    rw [definition_eq]
    rfl
  have hrun' : Grammar.definition c' = Grammar.definitionWithin c.settings.maxNesting c' := by
    rw [definition_eq, ← hc]
    rfl
  constructor
  · exact definition_composed.advances
  · intro s a s' h
    exact hwithin.last ⟨hrun ▸ h.run, h.faults⟩
  · intro s t a s' x h hs hs' ht
    obtain ⟨t', hin, ht'⟩ := hwithin.same ⟨hrun ▸ h.run, h.faults⟩ hs hs' ht
    exact ⟨t', ⟨hrun' ▸ hin.run, hin.faults⟩, ht'⟩

end

end Whole

end Storyworld.Grammar
