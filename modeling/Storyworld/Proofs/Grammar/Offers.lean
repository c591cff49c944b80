import Storyworld.Proofs.Grammar.Repair
import Storyworld.Proofs.Grammar.Termination

namespace Storyworld.Grammar

/-! What the parsers of the grammar offer where they fail, they take: the smallest parsers, lists
and the phrases that several constructs share. -/

variable {α β : Type} {c : Context} {s : State} {m : Repair} {X : Prop} {tk : Bool} {p q : Parse α}
  {w what : String} {ws : List String}

/-! ## Single tokens -/

theorem run_keyword (h : next (·.isKeyword w) s.rest) : keyword w c s = .ok () s.advance := by
  obtain ⟨t, rest, hr, ht⟩ := next_iff.mp h
  have hrun : keyword w = (fun _ => ()) <$> expect [w] (·.isKeyword w) := rfl
  rw [hrun, run_map, expect_of_cons hr ht]

namespace Opening

theorem keyword (h : Token.isReserved w) :
    Opening m (·.isKeyword w) X (Grammar.keyword w) := by
  refine .map (.take fun e he hadmits => .inl ?_)
  rw [List.mem_singleton.mp he, Expectation.ofEntry_keyword h] at hadmits
  exact hadmits

theorem oneOf (h : ws.all Token.isReserved) :
    Opening m (·.isOneOf ws) X (Grammar.oneOf ws) := by
  refine .take fun e he hadmits => .inl ?_
  rw [Expectation.ofEntry_keyword (List.all_eq_true.mp h e he)] at hadmits
  exact Token.isOneOf_iff.mpr ⟨e, he, Token.isKeyword_iff.mp hadmits⟩

theorem mark {k : Mark} : Opening m (·.isMark k) X (Grammar.mark k) := by
  refine .map (.take fun e he hadmits => .inl ?_)
  rw [List.mem_singleton.mp he, Expectation.ofEntry_spelling] at hadmits
  exact hadmits

theorem word (h : Expectation.wordless.contains what = false) :
    Opening m (·.isWord) X (Grammar.word what) := by
  refine .take fun e he hadmits => .inl ?_
  rw [List.mem_singleton.mp he] at hadmits
  exact Expectation.isWord_of_admits (by simpa using h) hadmits

theorem string : Opening m (·.isString) X Grammar.string := by
  refine .take fun e he hadmits => .inl ?_
  rw [List.mem_singleton.mp he] at hadmits
  exact hadmits

theorem label (h : Expectation.wordless.contains what = false) :
    Opening m (fun t => t.isWord || t.isString) X (wordOrString what) := by
  refine .take fun e he hadmits => .inl (Bool.or_eq_true_iff.mpr ?_)
  rcases List.mem_cons.mp he with rfl | he
  · exact .inl (Expectation.isWord_of_admits (by simpa using h) hadmits)
  · rw [List.mem_singleton.mp he] at hadmits
    exact .inr hadmits

theorem boolean : Opening m (fun t => t.kind = .boolean true || t.kind = .boolean false) X
    Grammar.boolean := by
  refine .take fun e he hadmits => .inl ?_
  rcases List.mem_cons.mp he with rfl | he
  · exact hadmits
  · rw [List.mem_singleton.mp he] at hadmits
    exact hadmits

end Opening

namespace Candid

theorem keyword (h : Token.isReserved w) :
    Candid m tk X (Grammar.keyword w) :=
  (Opening.keyword h).candid

theorem oneOf (h : ws.all Token.isReserved) :
    Candid m tk X (Grammar.oneOf ws) :=
  (Opening.oneOf h).candid

theorem mark {k : Mark} : Candid m tk X (Grammar.mark k) :=
  Opening.mark.candid

theorem word (h : Expectation.wordless.contains what = false) : Candid m tk X (Grammar.word what) :=
  (Opening.word h).candid

theorem string : Candid m tk X Grammar.string :=
  Opening.string.candid

theorem label (h : Expectation.wordless.contains what = false) :
    Candid m tk X (wordOrString what) :=
  (Opening.label h).candid

theorem boolean : Candid m tk X Grammar.boolean :=
  Opening.boolean.candid

theorem eatKeyword : Candid m false X (Grammar.eatKeyword w) :=
  .eat (·.isKeyword w)

theorem eatMark {k : Mark} : Candid m false X (Grammar.eatMark k) :=
  .eat (·.isMark k)

end Candid

/-- The end of a row of clauses, each told by its word: none of these words comes next. -/
theorem Candid.unexpectedOf (h : ws.all Token.isReserved) (hX : m.token.isOneOf ws → X) :
    Candid m tk X (Grammar.unexpected ws : Parse α) := by
  refine .unexpected fun e he hadmits => hX ?_
  rw [Expectation.ofEntry_keyword (List.all_eq_true.mp h e he)] at hadmits
  exact Token.isOneOf_iff.mpr ⟨e, he, Token.isKeyword_iff.mp hadmits⟩

/-! ## Two tokens ahead -/

/-- The test of the next two tokens. -/
def pair (A B : Token → Bool) (r : List Token) : Bool :=
  r[0]?.any A && r[1]?.any B

theorem pair_iff {A B : Token → Bool} {r : List Token} :
    pair A B r ↔ ∃ t u rest, r = t :: u :: rest ∧ A t ∧ B u := by
  match r with
  | [] | [_] => simp [pair]
  | _ :: _ :: _ => simp [pair]

/-- A parser told by the next two tokens, which it takes, or another one. -/
theorem Candid.toldByPair {A B : Token → Bool} (hp : Candid m tk True p)
    (hc : Commits 2 (pair A B) p) (hq : Candid m tk X q) :
    Candid m tk X (do if ← looking (pair A B) then p else q) := by
  refine fork Nat.two_pos (fun r r' h => ?_) (fun r hr => ?_) hp hc hq fun _ _ hx => hx
  · match r, r' with
    | [], [] | [_], [_] | _ :: _ :: _, _ :: _ :: _ => simp_all [pair]
    | [], _ :: _ | _ :: _, [] | [_], _ :: _ :: _ | _ :: _ :: _, [_] => simp_all
  · obtain ⟨t, u, rest, rfl, -, -⟩ := pair_iff.mp hr
    simp

/-- A parser that takes a token as wanted and goes on with the one behind it. -/
theorem Commits.pair {A B : Token → Bool} {f : α → Parse β}
    (hp : ∀ c s, next A s.rest → ∃ a, p c s = .ok a s.advance)
    (hf : ∀ a, Commits 1 (next B) (f a)) :
    Commits 2 (Grammar.pair A B) (p >>= f) := by
  refine .behind (fun c s hr => hp c s ?_) hf fun r hr => ?_
  all_goals
    obtain ⟨t, u, rest, hrest, ht, hu⟩ := pair_iff.mp hr
    exact next_iff.mpr (by simp_all)

/-! ## Lists -/

/-- The items of a list behind the first one, where every comma continues it. -/
theorem Candid.commaStepAll {item : Parse α} (hi : Candid m true False item) :
    Candid m false X (commaStep item (looking fun _ => true)) := by
  have hnext : (fun r : List Token => r[0]?.any (·.isMark .comma) && true) =
      next (·.isMark .comma) := by
    funext r
    exact Bool.and_true _
  rw [commaStep_eq, hnext]
  exact .clause (hi.map.weaken (by simp)) (.pure none)

namespace Candid

theorem commaSeparated {item : Parse α} {g : List Token → Bool} (hi : Candid m true False item)
    (hstep : Candid m false False (commaStep item (looking g))) :
    Candid m tk False (Grammar.commaSeparated item (looking g)) := by
  rw [commaSeparated_eq]
  exact .andThen hi fun first => .map (.many hstep (commaStep_productive hi.advances g).1)

theorem commaSeparatedAll {item : Parse α} (hi : Candid m true False item) :
    Candid m tk False (Grammar.commaSeparated item (return true)) :=
  .commaSeparated (g := fun _ => true) hi (.commaStepAll hi)

end Candid

/-- A closing parenthesis right behind the opening one is told before an item is read. -/
theorem parenthesized_eq (item : Parse α) : parenthesized item = (do
    mark .openParen
    if ← atMark .closeParen then (do mark .closeParen; return [])
    else
      let items ← commaSeparated item (return true)
      mark .closeParen
      return items) :=
  rfl

theorem Opening.parenthesized {item : Parse α} (hi : Candid m true False item) :
    Opening m (·.isMark .openParen) X (Grammar.parenthesized item) := by
  rw [parenthesized_eq]
  refine .bind .mark fun _ => .told (.bind .mark fun _ => .pure []) ?_
  refine (Candid.bind (.commaSeparatedAll hi) fun items => ?_).mono (by simp)
  exact .bind .mark fun _ => .pure items

/-! ## Phrases -/

namespace Opening

variable {r : Rule}

/-- A node that begins with a reserved word of its own. -/
theorem behind {parts : Parse (List Element)} (h : Token.isReserved w)
    (hp : Candid m false False parts) :
    Opening m (·.isKeyword w) X (Grammar.node r do Grammar.keyword w; parts) :=
  .node (.map (.bind (.keyword h) fun _ => hp))

theorem keywordThenString (h : Token.isReserved w) :
    Opening m (·.isKeyword w) X (Grammar.keywordThenString r w) :=
  .behind h (.map .string)

theorem keywordThenNumber (h : Token.isReserved w) :
    Opening m (·.isKeyword w) X (Grammar.keywordThenNumber r w) :=
  .behind h (.map .number)

theorem keywordThenBoolean (h : Token.isReserved w) :
    Opening m (·.isKeyword w) X (Grammar.keywordThenBoolean r w) :=
  .behind h (.map .boolean)

theorem description : Opening m (·.isOneOf ["desc", "description"]) X (Grammar.description r) :=
  .node (.map (.bind (.oneOf rfl) fun _ => .map .string))

theorem idList (h : Expectation.wordless.contains what = false) :
    Opening m (·.isMark .openParen) X (Grammar.idList what) :=
  .node (.map (.map (.parenthesized (.word h))))

theorem containerState : Opening m (·.isKeyword "container") X (Grammar.containerState r) :=
  .behind rfl (.bind (.keyword rfl) fun _ => .map (.word rfl))

theorem ability : Opening m (·.isKeyword "ability") X Grammar.ability := by
  refine .behind rfl (.bind (.word rfl) fun name => .bind .eatMark fun found => ?_)
  refine .ite (fun _ => ?_) fun _ => .pure _
  exact .bind (.word rfl) fun target => .bind .mark fun _ => .pure _

end Opening

/-- A clause or nothing. -/
theorem Candid.optional {clause : Parse Node} (hp : Opening m (·.isKeyword w) True clause) :
    Candid m false X (Grammar.optional w clause) :=
  .told hp.map (.pure [])

/-- A mood, told by the test of the next two tokens. -/
theorem mood_pair : mood = (do
    if ← looking (pair (·.isKeyword "custom") fun t => t.isWord || t.isMark .openParen) then
      node .stateCustom do
        keyword "custom"
        if ← eatMark .openParen then
          let name ← word "state name"
          mark .closeParen
          return [name]
        else return [.token (← word "state name")]
    else
      node .stateWord do
        return [.token (← word "npc state")]) :=
  mood_eq

/-- The name of a custom mood, in parentheses or without. -/
theorem Opening.moodName : Opening m (fun t => t.isWord || t.isMark .openParen) X (do
    if ← Grammar.eatMark .openParen then
      let name ← Grammar.word "state name"
      Grammar.mark .closeParen
      return [Element.token name]
    else return [.token (← Grammar.word "state name")]) :=
  .accept (.clause (.bind (.word rfl) fun _ => .bind .mark fun _ => .pure _) (.map (.word rfl)))
    fun _ h => by rwa [Bool.or_comm]

theorem Opening.mood : Opening m (·.isWord) X Grammar.mood := by
  rw [mood_pair]
  have hcustom : Opening m (·.isKeyword "custom") True (do
      Grammar.keyword "custom"
      if ← Grammar.eatMark .openParen then
        let name ← Grammar.word "state name"
        Grammar.mark .closeParen
        return [Element.token name]
      else return [.token (← Grammar.word "state name")]) :=
    .bind (.keyword rfl) fun _ => Opening.moodName.candid
  have hword : Opening m (·.isWord) X (do return [Element.token (← Grammar.word "npc state")]) :=
    .map (.word rfl)
  refine ⟨.toldByPair (.node hcustom.toCandid.map) ?_ (.node hword.toCandid.map), .fork ?_ ?_⟩
  · refine .node (.map (.pair (fun c s hs => ⟨(), run_keyword hs⟩) fun _ => ?_))
    exact (Opening.moodName (m := m) (X := X)).begins
  · refine (Commits.node hcustom.begins.map).mono fun r hr => ?_
    obtain ⟨t, u, rest, rfl, ht, -⟩ := pair_iff.mp (Bool.and_eq_true_iff.mp hr).2
    simpa [next] using ht
  · exact (Commits.node hword.begins.map).mono fun r hr => (Bool.and_eq_true_iff.mp hr).1

namespace Candid

theorem idList (h : Expectation.wordless.contains what = false) :
    Candid m tk X (Grammar.idList what) :=
  (Opening.idList h).candid

theorem ability : Candid m tk X Grammar.ability :=
  Opening.ability.candid

theorem mood : Candid m tk X Grammar.mood :=
  Opening.mood.candid

end Candid

end Storyworld.Grammar
