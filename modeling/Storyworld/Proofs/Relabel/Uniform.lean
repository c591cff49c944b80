import Storyworld.Proofs.Grammar.Run
import Storyworld.Proofs.Relabel.Tree

namespace Storyworld.Grammar

/-! Parsers that go by the kinds of tokens and by the texts of reserved words, and by nothing else.
How they are put together is recorded once; what becomes of their runs when tokens are relabelled is
then proved by induction on that. -/

/-- The parser `q` does with relabelled tokens what `p` does with the tokens as they were, and `e`
relabels the results. The two differ only in what they have read so far. A `number` alone looks at
how it is written. -/
inductive Uniform (w : Relabelling) : {α : Type} → (α → α) → Parse α → Parse α → Prop where
  | done {α : Type} {e : α → α} {a b : α} (h : b = e a) : Uniform w e (pure a) (pure b)
  | bind {α β : Type} {d : α → α} {e : β → β} {p q : Parse α} {f g : α → Parse β}
      (hp : Uniform w d p q) (hf : ∀ a, Uniform w e (f a) (g (d a))) :
      Uniform w e (p >>= f) (q >>= g)
  | within {α : Type} {e : α → α} {f g : Nat → Parse α}
      (h : ∀ levels, Uniform w e (f levels) (g levels)) :
      Uniform w e (do f (← read).settings.maxNesting) (do g (← read).settings.maxNesting)
  | look (f : List Token → Bool) (h : ∀ ts, f (ts.map w.token) = f ts) :
      Uniform w id (looking f) (looking f)
  | advance : Uniform w id advance advance
  | take {α : Type} {e : α → α} {f g : Token → Parse α} (expected : List String)
      (accept : Token → Bool) (h : ∀ t, accept (w.token t) = accept t)
      (hf : ∀ t, accept t → Uniform w e (f t) (g (w.token t))) :
      Uniform w e (expect expected accept >>= f) (expect expected accept >>= g)
  | number : Uniform w w.token number number
  | unexpected {α : Type} {e : α → α} (expected : List String) :
      Uniform w e (unexpected expected) (unexpected expected)
  | failHere {α : Type} {e : α → α} (cause : Nat → SyntaxFault.Cause) :
      Uniform w e (failHere cause) (failHere cause)
  | nodeBy {p q : Parse (Rule × List Element)} (h : Uniform w w.parts p q) :
      Uniform w w.node (nodeBy p) (nodeBy q)
  | many {α : Type} {d : α → α} {p q : Parse (Option α)} (h : Uniform w (Option.map d) p q) :
      Uniform w (List.map d) (many p) (many q)
  | block (starters : List String) {p q : Parse Node} (h : Uniform w w.node p q) :
      Uniform w (List.map w.node) (block starters p) (block starters q)

namespace Uniform

variable {w : Relabelling} {α β : Type} {d : α → α} {e : β → β} {p q : Parse α}

protected theorem pure (a : α) : Uniform w d (pure a) (pure (d a)) :=
  .done rfl

theorem ite {b : Prop} [Decidable b] {p' q' : Parse α} (hp : Uniform w d p q)
    (hp' : Uniform w d p' q') : Uniform w d (if b then p else p') (if b then q else q') := by
  split
  · exact hp
  · exact hp'

theorem discard (h : Uniform w d p q) : Uniform w id (discard p) (discard q) := by
  rw [discard_eq_bind, discard_eq_bind]
  exact h.bind fun _ => .pure ()

/-! ## Looking ahead -/

theorem aheadIs (n : Nat) {test : Token → Bool} (h : ∀ t, test (w.token t) = test t) :
    Uniform w id (Grammar.aheadIs n test) (Grammar.aheadIs n test) := by
  refine .look (fun ts => ts[n]?.any test) fun ts => ?_
  rw [List.getElem?_map]
  cases ts[n]? <;> simp [h]

theorem atKeyword (word : String) :
    Uniform w id (Grammar.atKeyword word) (Grammar.atKeyword word) :=
  aheadIs 0 fun _ => rfl

theorem atOneOf (words : List String) :
    Uniform w id (Grammar.atOneOf words) (Grammar.atOneOf words) :=
  aheadIs 0 fun _ => rfl

theorem atMark (m : Mark) : Uniform w id (Grammar.atMark m) (Grammar.atMark m) :=
  aheadIs 0 fun _ => rfl

/-! ## Taking tokens -/

theorem expect (expected : List String) {accept : Token → Bool}
    (h : ∀ t, accept (w.token t) = accept t) :
    Uniform w w.token (Grammar.expect expected accept) (Grammar.expect expected accept) := by
  rw [← bind_pure (Grammar.expect expected accept)]
  exact .take expected accept h fun t _ => .pure t

theorem keyword (word : String) : Uniform w id (Grammar.keyword word) (Grammar.keyword word) :=
  (expect _ fun _ => rfl).discard

theorem oneOf (words : List String) :
    Uniform w w.token (Grammar.oneOf words) (Grammar.oneOf words) :=
  expect _ fun _ => rfl

/-- A reserved word is written as it was, so that choices can go by it. -/
theorem choice {f g : Token → Parse β} (words : List String)
    (hf : ∀ t, w.token t = w.moved t → Uniform w e (f t) (g (w.moved t))) :
    Uniform w e (Grammar.oneOf words >>= f) (Grammar.oneOf words >>= g) := by
  refine .take _ _ (fun _ => rfl) fun t ht => ?_
  have hsame : w.token t = w.moved t := by
    refine w.token_eq_moved ?_
    rintro hk
    simp [Token.isOneOf, Token.isKeyword, hk] at ht
  rw [hsame]
  exact hf t hsame

theorem mark (m : Mark) : Uniform w id (Grammar.mark m) (Grammar.mark m) :=
  (expect _ fun _ => rfl).discard

theorem word (what : String) : Uniform w w.token (Grammar.word what) (Grammar.word what) :=
  expect _ fun _ => rfl

theorem string : Uniform w w.token Grammar.string Grammar.string :=
  expect _ fun _ => rfl

theorem wordOrString (what : String) :
    Uniform w w.token (Grammar.wordOrString what) (Grammar.wordOrString what) :=
  expect _ fun _ => rfl

theorem boolean : Uniform w w.token Grammar.boolean Grammar.boolean :=
  expect _ fun _ => rfl

theorem eatKeyword (word : String) :
    Uniform w id (Grammar.eatKeyword word) (Grammar.eatKeyword word) :=
  (atKeyword word).bind fun _ => ite (advance.bind fun _ => .pure _) (.pure _)

theorem eatMark (m : Mark) : Uniform w id (Grammar.eatMark m) (Grammar.eatMark m) :=
  (atMark m).bind fun _ => ite (advance.bind fun _ => .pure _) (.pure _)

/-! ## Nodes, lists and blocks -/

theorem node (r : Rule) {p q : Parse (List Element)} (h : Uniform w w.elements p q) :
    Uniform w w.node (Grammar.node r p) (Grammar.node r q) :=
  nodeBy (h.bind fun _ => .pure _)

theorem commaSeparated {item item' : Parse α} {continues continues' : Parse Bool}
    (hitem : Uniform w d item item') (hcontinues : Uniform w id continues continues') :
    Uniform w (List.map d) (Grammar.commaSeparated item continues)
      (Grammar.commaSeparated item' continues') := by
  refine hitem.bind fun first => (many (d := d) ?_).bind fun _ => .pure _
  refine (atMark _).bind fun _ => hcontinues.bind fun _ => ite ?_ (.done rfl)
  exact advance.bind fun _ => hitem.bind fun _ => .pure _

theorem parenthesized {item item' : Parse α} (h : Uniform w d item item') :
    Uniform w (List.map d) (Grammar.parenthesized item) (Grammar.parenthesized item') := by
  have hclose (items : List α) : Uniform w (List.map d)
      (do Grammar.mark .closeParen; return items)
      (do Grammar.mark .closeParen; return items.map d) :=
    (mark _).bind fun _ => .pure items
  refine (mark _).bind fun _ => (atMark _).bind fun _ => ite ?_ ?_
  · exact bind (done (e := List.map d) (a := []) rfl) hclose
  · exact (h.commaSeparated (.pure true)).bind hclose

theorem blockOf (starters : List String) {p q : Parse Node} (h : Uniform w w.node p q) :
    Uniform w (List.map w.node) (Grammar.blockOf starters p) (Grammar.blockOf starters q) :=
  block starters ((atOneOf _).bind fun _ => ite h (unexpected _))

end Uniform

end Storyworld.Grammar
