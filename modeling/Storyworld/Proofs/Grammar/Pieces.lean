import Storyworld.Proofs.Grammar.Progress
import Storyworld.Proofs.Tree.Nesting

namespace Storyworld.Grammar

/-! How the smallest parsers and the shared phrases are composed. -/

variable {T : Token → Prop} {S : Span → Prop} {fl tk : Bool} {rules : List Rule}

/-- The lookahead of a mood as one test. -/
theorem mood_eq : mood = (do
    if ← looking fun r => r[0]?.any (·.isKeyword "custom") &&
        r[1]?.any (fun t => t.isWord || t.isMark .openParen) then
      node .stateCustom do
        keyword "custom"
        if ← eatMark .openParen then
          let name ← word "state name"
          mark .closeParen
          return [name]
        else return [.token (← word "state name")]
    else
      node .stateWord do
        return [.token (← word "npc state")]) :=
  rfl

namespace Composed

/-! ## Single tokens -/

theorem word {what : String} :
    Composed T S fl tk (Grammar.word what) fun t => T t ∧ t.isWord :=
  .take _ _ fun _ => Token.isBrace_of_isWord

theorem string : Composed T S fl tk Grammar.string fun t => T t ∧ t.isString :=
  .take _ _ fun _ => Token.isBrace_of_isString

theorem label {what : String} :
    Composed T S fl tk (wordOrString what) fun t => T t ∧ Part.label.admits t := by
  refine .take _ _ fun t h => ?_
  rcases Bool.or_eq_true_iff.mp h with h | h
  · exact Token.isBrace_of_isWord h
  · exact Token.isBrace_of_isString h

theorem keyword {w : String} : Composed T S fl tk (Grammar.keyword w) fun _ => True :=
  .map (.take _ _ fun _ => Token.isBrace_of_isKeyword) fun _ _ => trivial

theorem oneOf {ws : List String} :
    Composed T S fl tk (Grammar.oneOf ws) fun t => T t ∧ t.isOneOf ws :=
  .take _ _ fun _ => Token.isBrace_of_isOneOf

theorem mark {m : Mark} (ho : m ≠ .openBrace) (hc : m ≠ .closeBrace) :
    Composed T S fl tk (Grammar.mark m) fun _ => True :=
  .map (.take _ _ fun _ h => Token.isBrace_of_isMark h ho hc) fun _ _ => trivial

theorem boolean : Composed T S fl tk Grammar.boolean fun t => T t ∧ Part.boolean.admits t := by
  refine .take _ _ fun t h => ?_
  rcases Bool.or_eq_true_iff.mp h with h | h <;>
    simp [Token.isBrace, Token.isMark, of_decide_eq_true h]

theorem atKeyword {w : String} : Composed T S fl false (Grammar.atKeyword w) fun _ => True :=
  .next _

theorem atOneOf {ws : List String} : Composed T S fl false (Grammar.atOneOf ws) fun _ => True :=
  .next _

theorem atMark {m : Mark} : Composed T S fl false (Grammar.atMark m) fun _ => True :=
  .next _

theorem eatKeyword {w : String} : Composed T S fl false (Grammar.eatKeyword w) fun _ => True :=
  .eatNext (·.isKeyword w) fun _ => Token.isBrace_of_isKeyword

theorem eatMark {m : Mark} (ho : m ≠ .openBrace) (hc : m ≠ .closeBrace) :
    Composed T S fl false (Grammar.eatMark m) fun _ => True :=
  .eatNext (·.isMark m) fun _ h => Token.isBrace_of_isMark h ho hc

/-! ## Nodes -/

theorem grownBy {parts : Parse (Rule × List Element)}
    (hp : ∀ outer, Composed (fun t => T t ∧ t.span.Inside outer) (fun s => S s ∧ s.Inside outer)
      fl true parts (Parts (fun t => T t ∧ t.span.Inside outer) (fun s => S s ∧ s.Inside outer)
        rules)) :
    Composed T S fl tk (nodeBy parts) (Grown T S rules) :=
  .node hp fun _ _ _ hs h => .of_fills h.1 hs h.2.inside.1 h.2.inside.2

theorem grown {r : Rule} {parts : Parse (List Element)} (hr : r ∈ rules)
    (hp : ∀ outer, Composed (fun t => T t ∧ t.span.Inside outer) (fun s => S s ∧ s.Inside outer)
      fl true parts (Fills (fun t => T t ∧ t.span.Inside outer) (fun s => S s ∧ s.Inside outer)
        r.slots)) :
    Composed T S fl tk (Grammar.node r parts) (Grown T S rules) :=
  grownBy fun outer => .map (hp outer) fun _ h => ⟨hr, h⟩

section

variable {k : Nat}

theorem grownByWithin {parts : Parse (Rule × List Element)}
    (hp : ∀ outer, Composed (fun t => T t ∧ t.span.Inside outer) (fun s => S s ∧ s.Inside outer)
      fl true parts (PartsWithin k (fun t => T t ∧ t.span.Inside outer)
        (fun s => S s ∧ s.Inside outer) rules)) :
    Composed T S fl tk (nodeBy parts) (GrownWithin k T S rules) :=
  .node hp fun _ _ _ hs h => ⟨.of_fills h.1.1 hs h.1.2.inside.1 h.1.2.inside.2, h.2⟩

theorem grownWithin {r : Rule} {parts : Parse (List Element)}
    (hp : ∀ outer, Composed (fun t => T t ∧ t.span.Inside outer) (fun s => S s ∧ s.Inside outer)
      fl true parts fun cs => PartsWithin k (fun t => T t ∧ t.span.Inside outer)
        (fun s => S s ∧ s.Inside outer) rules (r, cs)) :
    Composed T S fl tk (Grammar.node r parts) (GrownWithin k T S rules) :=
  grownByWithin fun outer => .map (hp outer) fun _ h => h

end

/-- A row of one token behind a reserved word. -/
theorem keywordThen {w : String} {part : Part} {item : Parse Token}
    (hi : Composed T S fl tk item fun t => T t ∧ part.admits t) :
    Composed T S fl tk (do Grammar.keyword w; return [.token (← item)]) (Fills T S [.one part]) :=
  .bind .keyword fun _ => .map hi fun _ ht _ => .token ht .nil

/-! ## Lists -/

/-- Items as long as a comma comes next and `g` allows it to be taken. -/
theorem commaStep_eq {α : Type} (item : Parse α) (g : List Token → Bool) :
    (do
      if (← Grammar.atMark .comma) && (← looking g) then
        advance
        return some (← item)
      else return none) = do
      if ← eatWhen fun r => r[0]?.any (·.isMark .comma) && g r then some <$> item
      else return none := by
  funext c s
  have hmark : Grammar.atMark .comma = looking fun r => r[0]?.any (·.isMark .comma) := rfl
  simp only [run_bind, hmark, run_looking, run_eatWhen]
  cases h : s.rest[0]?.any (·.isMark .comma) && g s.rest with
  | true => rfl
  | false => rfl

/-- A list of items with commas between them; there is at least one. -/
theorem commaSeparated {α : Type} {item : Parse α} {Q : α → Prop} {g : List Token → Bool}
    (hi : Composed T S true true item Q)
    (hg : Definite 0 fun r => r[0]?.any (·.isMark .comma) && g r) :
    Composed T S fl tk (Grammar.commaSeparated item (looking g))
      fun as => as ≠ [] ∧ ∀ a ∈ as, Q a := by
  have hcomma : Foresees fun r => r[0]?.any (·.isMark .comma) && g r := by
    intro r hr
    refine foresees_first (p := (·.isMark .comma)) (fun t ht => ?_) r (by simp_all)
    exact Token.isBrace_of_isMark ht (by decide) (by decide)
  rw [Grammar.commaSeparated, commaStep_eq]
  refine .andThen hi fun first => .map (.many (Q := Q) ?_ ?_) fun more hm hf => ?_
  · refine .bind (.eat _ hg hcomma) fun found => .ite (fun _ => ?_) fun _ => ?_
    · exact .andThen hi fun a => .done (by simp)
    · exact .done (by simp)
  · refine Productive.bind (Advances.eat _) fun found => ?_
    split
    · exact Productive.some hi.advances
    · exact Productive.none
  · exact ⟨by simp, by simpa using ⟨hf, hm⟩⟩

theorem definite_comma : Definite 0 fun r => r[0]?.any (·.isMark .comma) && true := by
  simpa using definite_first (·.isMark .comma)

/-- A list of items with commas between them, whatever follows the commas. -/
theorem commaSeparatedAll {α : Type} {item : Parse α} {Q : α → Prop}
    (hi : Composed T S true true item Q) :
    Composed T S fl tk (Grammar.commaSeparated item (return true))
      fun as => as ≠ [] ∧ ∀ a ∈ as, Q a :=
  commaSeparated (g := fun _ => true) hi definite_comma

/-- A list of items in parentheses, which may be empty. -/
theorem parenthesized {α : Type} {item : Parse α} {Q : α → Prop}
    (hi : Composed T S true true item Q) :
    Composed T S fl tk (Grammar.parenthesized item) fun as => ∀ a ∈ as, Q a := by
  refine .andThen (.mark (by decide) (by decide)) fun _ => .bind .atMark fun closed => ?_
  refine .ite (fun _ => ?_) fun _ => ?_
  · refine .bind (.done (Q := fun as : List α => ∀ a ∈ as, Q a) (by simp)) fun as => ?_
    exact .bind (.mark (by decide) (by decide)) fun _ => .done fun _ has _ _ => has
  · refine .bind (.commaSeparatedAll hi) fun as => ?_
    exact .bind (.mark (by decide) (by decide)) fun _ => .done fun _ has _ _ => has.2

/-! ## Phrases -/

theorem keywordThenString {r : Rule} {w : String} (hr : r ∈ rules)
    (hs : r.slots = [.one .string]) :
    Composed T S fl tk (Grammar.keywordThenString r w) (Grown T S rules) :=
  .grown hr fun _ => hs ▸ .keywordThen .string

theorem keywordThenNumber {r : Rule} {w : String} (hr : r ∈ rules)
    (hs : r.slots = [.one .number]) :
    Composed T S fl tk (Grammar.keywordThenNumber r w) (Grown T S rules) :=
  .grown hr fun _ => hs ▸ .keywordThen .number

theorem keywordThenBoolean {r : Rule} {w : String} (hr : r ∈ rules)
    (hs : r.slots = [.one .boolean]) :
    Composed T S fl tk (Grammar.keywordThenBoolean r w) (Grown T S rules) :=
  .grown hr fun _ => hs ▸ .keywordThen .boolean

/-- A clause or nothing. -/
theorem optional {w : String} {clause : Parse Node} {N : Node → Prop}
    (hp : Composed T S fl false clause N) :
    Composed T S fl false (Grammar.optional w clause)
      fun cs => cs = [] ∨ ∃ n, N n ∧ cs = [.node n] := by
  refine .bind .atKeyword fun _ => .given (.ite (fun _ => ?_) fun _ => ?_)
  · exact .map hp fun n hn => .inr ⟨n, hn, rfl⟩
  · exact .done (.inl rfl)

theorem description {r : Rule} (hr : r ∈ rules) (hs : r.slots = [.one .string]) :
    Composed T S fl tk (Grammar.description r) (Grown T S rules) := by
  refine .grown hr fun _ => .bind .oneOf fun _ => .map .string fun t ht _ => ?_
  rw [hs]
  exact .token ht .nil

theorem idList {what : String} :
    Composed T S fl tk (Grammar.idList what) (Grown T S [.idList]) :=
  .grown (by simp) fun _ => .map (.parenthesized .word) fun _ hts => .tokens hts

theorem containerState {r : Rule} (hr : r ∈ rules) (hs : r.slots = [.one .word]) :
    Composed T S fl tk (Grammar.containerState r) (Grown T S rules) := by
  refine .grown hr fun _ => .bind .keyword fun _ => .bind .keyword fun _ => .map .word fun t ht _ _ => ?_
  rw [hs]
  exact .token ht .nil

theorem definite_custom :
    Definite 0 fun r => r[0]?.any (·.isKeyword "custom") &&
      r[1]?.any (fun t => t.isWord || t.isMark .openParen) :=
  definite_second fun _ => Token.isKeyword_of_isCloser

theorem mood : Composed T S fl tk Grammar.mood (Grown T S Rule.moods) := by
  rw [mood_eq]
  refine .bind (.look _ definite_custom) fun named => .given (.ite (fun _ => ?_) fun _ => ?_)
  · refine .grown (by simp [Rule.moods]) fun _ => .bind .keyword fun _ => .given ?_
    refine .bind (.eatMark (by decide) (by decide)) fun found => .given ?_
    refine .ite (fun _ => ?_) fun _ => ?_
    · refine .andThen .word fun name => .bind (.mark (by decide) (by decide)) fun _ => ?_
      exact .done fun _ h => .token h .nil
    · exact .map .word fun t ht => .token ht .nil
  · exact .grown (by simp [Rule.moods]) fun _ => .map .word fun t ht => .token ht .nil

end Composed

end Storyworld.Grammar
