import Storyworld.Proofs.Grammar.Commas
import Storyworld.Proofs.Grammar.Termination

namespace Storyworld

namespace Grammar

/-! What parsers make of the tokens they take where they record no fault. -/

/-- A parser, and what it makes of the tokens it takes: where it records no fault, `Q` holds of its
result and these tokens. -/
structure Consumes (c : Context) {α : Type} (p : Parse α) (Q : α → List Token → Prop) : Prop where
  advances : Advances false p
  run : ∀ {s a s' own}, Clean p c s a s' → s.rest = own ++ s'.rest → Q a own

variable {c : Context} {s s' : State} {α β : Type} {p q : Parse α} {f : α → Parse β} {g : α → β}
  {Q Q' : α → List Token → Prop} {R : β → List Token → Prop} {own : List Token} {w : String}

/-! ## Steps of a row -/

section

variable {item : Parse α} {test : List Token → Bool}

theorem run_commaStep : commaStep item (looking test) c s =
    if s.rest[0]?.any (·.isMark .comma) && test s.rest then (some <$> item) c s.advance
    else .ok none s := by
  rw [commaStep_eq, run_bind, run_eatWhen]
  cases s.rest[0]?.any (·.isMark .comma) && test s.rest <;> rfl

theorem Clean.of_commaStep_none (h : Clean (commaStep item (looking test)) c s none s') : s' = s := by
  have hrun := h.run
  rw [run_commaStep, run_map] at hrun
  split at hrun
  · split at hrun <;> cases hrun
  · cases hrun
    rfl

theorem Clean.of_commaStep_some {a : α}
    (h : Clean (commaStep item (looking test)) c s (some a) s') :
    ∃ comma rest, s.rest = comma :: rest ∧ comma.isMark .comma ∧ test s.rest ∧
      Clean item c s.advance a s' := by
  have hrun := h.run
  rw [run_commaStep, run_map] at hrun
  split at hrun
  · rename_i htest
    rw [Bool.and_eq_true] at htest
    cases hr : s.rest with
    | nil => simp [hr] at htest
    | cons comma rest =>
        split at hrun <;> cases hrun
        rw [hr] at htest
        exact ⟨comma, rest, rfl, by simpa using htest.1, htest.2, ‹_›,
          h.faults.trans advance_faults.symm⟩
  · cases hrun

end

namespace Consumes

/-! ## Results -/

theorem mono (hp : Consumes c p Q) (h : ∀ a own, Q a own → Q' a own) : Consumes c p Q' :=
  ⟨hp.advances, fun hclean hown => h _ _ (hp.run hclean hown)⟩

theorem and (hp : Consumes c p Q) (hp' : Consumes c p Q') :
    Consumes c p fun a own => Q a own ∧ Q' a own :=
  ⟨hp.advances, fun hclean hown => ⟨hp.run hclean hown, hp'.run hclean hown⟩⟩

theorem done {a : α} (h : Q a []) : Consumes c (pure a) Q := by
  refine ⟨.pure a, fun {s b s' own} hclean hown => ?_⟩
  have hrun := hclean.run
  cases hrun
  rwa [List.self_eq_append_left.mp hown]

theorem fails {γ : Context → State → SyntaxFault} (h : ∀ c s, p c s = .error (γ c s) s) :
    Consumes c p Q :=
  ⟨.fails h, fun hclean _ => (hclean.not_fails h).elim⟩

/-! ## Sequences -/

theorem bind (hp : Consumes c p Q)
    (hf : ∀ a, Consumes c (f a) fun b more => ∀ own, Q a own → R b (own ++ more)) :
    Consumes c (p >>= f) R := by
  refine ⟨hp.advances.bind fun a => (hf a).advances, fun {s b s'' own} h hown => ?_⟩
  obtain ⟨a, s', hps, hfs⟩ := h.of_bind hp.advances fun a => (hf a).advances
  obtain ⟨first, hfirst⟩ := (hp.advances.ok hps.run).rest
  obtain ⟨more, hmore⟩ := ((hf a).advances.ok hfs.run).rest
  obtain rfl : first ++ more = own := by
    rw [← hfirst, ← hmore, ← List.append_assoc] at hown
    exact List.append_cancel_right hown
  exact (hf a).run hfs hmore.symm first (hp.run hps hfirst.symm)

theorem map (hp : Consumes c p Q) (h : ∀ a own, Q a own → R (g a) own) :
    Consumes c (g <$> p) R := by
  refine ⟨hp.advances.map, fun hclean hown => ?_⟩
  obtain ⟨a, rfl, hps⟩ := hclean.of_map
  exact h a _ (hp.run hps hown)

theorem ite {b : Prop} [Decidable b] (hp : b → Consumes c p Q) (hq : ¬b → Consumes c q Q) :
    Consumes c (if b then p else q) Q := by
  split
  · exact hp ‹_›
  · exact hq ‹_›

/-! ## Tokens -/

theorem look (f : List Token → Bool) : Consumes c (looking f) fun _ own => own = [] := by
  refine ⟨.look f, fun hclean hown => ?_⟩
  have hrun := hclean.run
  cases hrun
  exact List.self_eq_append_left.mp hown

theorem own_of_advance {t : Token} {rest : List Token} (hr : s.rest = t :: rest)
    (hown : s.rest = own ++ s.advance.rest) : own = [t] := by
  rw [advance_of_cons hr, hr] at hown
  have htaken : [t] ++ rest = own ++ rest := hown
  exact (List.append_cancel_right htaken).symm

theorem eat (test : Token → Bool) : Consumes c (eatWhen fun r => r[0]?.any test) fun found own =>
    if found then ∃ t, own = [t] ∧ test t else own = [] := by
  refine ⟨.eat _, fun {s found s' own} hclean hown => ?_⟩
  have hrun := hclean.run
  rw [run_eatWhen] at hrun
  split at hrun <;> cases hrun
  · rename_i htest
    cases hr : s.rest with
    | nil => simp [hr] at htest
    | cons t rest => exact ⟨t, own_of_advance hr hown, by simpa [hr] using htest⟩
  · exact List.self_eq_append_left.mp hown

theorem take (expected : List String) (accept : Token → Bool) :
    Consumes c (expect expected accept) fun t own => own = [t] ∧ accept t := by
  refine ⟨(Advances.take expected accept).weaken (by simp), fun {s t s' own} hclean hown => ?_⟩
  obtain ⟨rest, hr, ht, rfl⟩ := expect_ok hclean.run
  exact ⟨own_of_advance hr hown, ht⟩

theorem mark (m : Mark) : Consumes c (Grammar.mark m) fun _ own => ∃ t, own = [t] ∧ t.isMark m :=
  (take _ _).map fun t _ h => ⟨t, h⟩

theorem keyword (w : String) :
    Consumes c (Grammar.keyword w) fun _ own => ∃ t, own = [t] ∧ t.isKeyword w :=
  (take _ _).map fun t _ h => ⟨t, h⟩

theorem unexpected (expected : List String) : Consumes c (Grammar.unexpected expected : Parse α) Q :=
  fails fun _ _ => run_unexpected expected

/-! ## Nodes -/

theorem nodeBy {parts : Parse (Rule × List Element)} {P : Rule × List Element → List Token → Prop}
    (hp : Consumes c parts P) :
    Consumes c (Grammar.nodeBy parts) fun n own => P (n.rule, n.children) own := by
  refine ⟨hp.advances.node, fun hclean hown => ?_⟩
  obtain ⟨r, cs, rfl, hparts⟩ := hclean.of_node
  exact hp.run hparts hown

theorem node {r : Rule} {parts : Parse (List Element)} {P : List Element → List Token → Prop}
    (hp : Consumes c parts P) :
    Consumes c (Grammar.node r parts) fun n own => n.rule = r ∧ P n.children own :=
  nodeBy (P := fun x own => x.1 = r ∧ P x.2 own) (hp.map fun _ _ h => ⟨rfl, h⟩)

/-- A node lies over the tokens it is made of. -/
theorem nodeOver {parts : Parse (Rule × List Element)}
    (h : Lays true [] (fun n => [.node n]) (Grammar.nodeBy parts)) :
    Consumes c (Grammar.nodeBy parts) fun n own => n.Over own := by
  refine ⟨h.advances.weaken (by simp), fun {s n s' own} hclean hown => ?_⟩
  have hlaid : OverIn own [.node n] := h.laid c s n s' hclean.run [] own hown overIn_nil
  have hne : own ≠ [] := by
    rintro rfl
    exact List.cons_ne_nil _ _ hlaid.eq_nil
  obtain ⟨r, cs, rfl, -⟩ := hclean.of_node
  obtain ⟨gap, part, more, rfl, hpart, -⟩ := overIn_cons.mp hlaid
  have hcs := (Node.over_mk.mp (Element.over_node.mp hpart)).2
  exact h.advances.over hclean.run hown hne hcs.behind.widen

/-! ## Rows with commas -/

/-- The items behind the first one of a row. The test of what comes next is made at the comma. -/
theorem behind {item : Parse α} {test : List Token → Bool} (ha : Advances true item)
    (hi : Consumes c item Q)
    (h : ∀ comma a own more, Q a own → test (comma :: (own ++ more)) → Q' a own) :
    Consumes c (many (commaStep item (looking test))) (Behind Q') := by
  have hstep := commaStep_productive ha test
  refine ⟨hstep.2.many, fun {s as s' own} hclean hown => ?_⟩
  induction as generalizing s own with
  | nil =>
      rcases hclean.of_many hstep.1 hstep.2 with ⟨-, hnone⟩ | ⟨_, _, _, heq, -, -⟩
      · obtain rfl := hnone.of_commaStep_none
        rw [List.self_eq_append_left.mp hown]
        exact .nil
      · cases heq
  | cons a as ih =>
      rcases hclean.of_many hstep.1 hstep.2 with ⟨heq, -⟩ | ⟨_, _, s₁, heq, hsome, hmany⟩
      · cases heq
      · cases heq
        obtain ⟨comma, rest, hr, hc, htest, hitem⟩ := hsome.of_commaStep_some
        obtain ⟨first, hfirst⟩ := (ha.ok hitem.run).rest
        obtain ⟨more, hmore⟩ := (hstep.2.many.ok hmany.run).rest
        have hrest : rest = first ++ s₁.rest := by
          rw [hfirst, advance_of_cons hr]
        have htaken : comma :: (first ++ more) ++ s'.rest = own ++ s'.rest := by
          rw [← hown, hr, hrest, ← hmore, List.cons_append, List.append_assoc]
        obtain rfl := List.append_cancel_right htaken
        have ha := hi.run hitem hfirst.symm
        rw [hr, hrest] at htest
        exact .cons hc (h comma a first _ ha htest) (ih hmany hmore.symm)

/-- A row with commas, and what its items are made of. -/
theorem commaSeparated {item : Parse α} {test : List Token → Bool} (ha : Advances true item)
    (hi : Consumes c item Q)
    (h : ∀ comma a own more, Q a own → test (comma :: (own ++ more)) → Q' a own) :
    Consumes c (Grammar.commaSeparated item (looking test)) (Row Q Q') := by
  rw [commaSeparated_eq]
  exact hi.bind fun a => (behind ha hi h).map fun more rest hmore first hfirst =>
    ⟨a, more, first, rest, rfl, rfl, hfirst, hmore⟩

theorem parenthesized {item : Parse α} (ha : Advances true item) (hi : Consumes c item Q) :
    Consumes c (Grammar.parenthesized item) fun as own => ∃ opening closing inner,
      own = opening :: inner ++ [closing] ∧ opening.isMark .openParen ∧
        closing.isMark .closeParen ∧ (as = [] ∧ inner = [] ∨ Row Q Q as inner) := by
  have hend {items : Parse (List α)} {P : List α → List Token → Prop} (hp : Consumes c items P) :
      Consumes c (do let as ← items; Grammar.mark .closeParen; return as) fun as own =>
        ∃ inner closing, own = inner ++ [closing] ∧ closing.isMark .closeParen ∧ P as inner := by
    refine hp.bind fun as => (mark .closeParen).map ?_
    rintro _ _ ⟨closing, rfl, hc⟩ inner has
    exact ⟨inner, closing, rfl, hc, has⟩
  have hnone : Consumes c (pure []) fun (as : List α) inner => as = [] ∧ inner = [] ∨ Row Q Q as inner :=
    done (.inl ⟨rfl, rfl⟩)
  have hsome : Consumes c (Grammar.commaSeparated item (looking fun _ => true))
      fun as inner => as = [] ∧ inner = [] ∨ Row Q Q as inner :=
    (commaSeparated ha hi fun _ _ _ _ h _ => h).mono fun _ _ => .inr
  have hat : Consumes c (Grammar.atMark .closeParen) fun _ own => own = [] :=
    look fun r => r[0]?.any (·.isMark .closeParen)
  refine (mark .openParen).bind fun _ => hat.bind fun closed => ?_
  refine .ite (fun _ => (hend hnone).mono ?_) fun _ => (hend hsome).mono ?_
  all_goals
    rintro as _ ⟨inner, closing, rfl, hc, has⟩ _ rfl _ ⟨opening, rfl, ho⟩
    exact ⟨opening, closing, inner, rfl, ho, hc, has⟩

/-! ## Clauses -/

/-- What a parser does is told by the next token, which is taken. -/
theorem told {test : Token → Bool} (hp : Consumes c p fun a own => ∀ t, test t → Q a (t :: own))
    (hq : Consumes c q Q) :
    Consumes c (do if ← eatWhen fun r => r[0]?.any test then p else q) Q := by
  refine (eat test).bind fun found => .ite (fun hfound => ?_) fun hfound => ?_
  · refine hp.mono fun a own h before hbefore => ?_
    rw [if_pos hfound] at hbefore
    obtain ⟨t, rfl, ht⟩ := hbefore
    exact h t ht
  · refine hq.mono fun a own h before hbefore => ?_
    rw [if_neg hfound] at hbefore
    rwa [hbefore]

theorem clause (hp : Consumes c p fun a own => ∀ t, t.isKeyword w → Q a (t :: own))
    (hq : Consumes c q Q) : Consumes c (do if ← eatKeyword w then p else q) Q :=
  told hp hq

end Consumes

end Grammar

end Storyworld
