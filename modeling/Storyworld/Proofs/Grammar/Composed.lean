import Storyworld.Document.Grammar
import Storyworld.Proofs.Grammar.Run
import Storyworld.Proofs.Token.Scan
import Storyworld.Proofs.Tree.Grown

namespace Storyworld

namespace Grammar

/-! How parsers are put together. Every parser of the grammar is made of a few pieces, and this
is recorded once for each of them. What holds of all parsers is then proved by induction on how
they are composed. -/

/-- A test of the tokens left gives the same answer in a segment that ends in a closing brace,
whether or not a definition follows the segment. -/
def Settled (f : List Token → Bool) : Prop :=
  ∀ r b : List Token, r.getLast?.any (·.isMark .closeBrace) →
    b.head?.all (·.isOneOf definitionStarters) → f (r ++ b) = f r

/-- A test of the tokens left does not look past a closing brace or parenthesis that lies more than
`n` tokens ahead. -/
def Definite (n : Nat) (f : List Token → Bool) : Prop :=
  ∀ r b : List Token, n < r.length → r.getLast?.any (·.isCloser) → f (r ++ b) = f r

/-- A test that holds only where some token other than a brace comes next. -/
def Foresees (f : List Token → Bool) : Prop :=
  ∀ r, f r → ∃ t rest, r = t :: rest ∧ t.isBrace = false

/-- A step that gives something only if it takes a token. -/
def Productive (step : Parse (Option α)) : Prop :=
  ∀ c s a s', step c s = .ok (some a) s' → s'.rest.length < s.rest.length

/-- A parser that takes at least `n` tokens where it succeeds. -/
def Costs (n : Nat) (p : Parse α) : Prop :=
  ∀ c s a s', p c s = .ok a s' → s'.rest.length + n ≤ s.rest.length

/-- A parser put together from the pieces of the grammar, and what holds of its results where the
tokens it finds satisfy `T` and the places it knows satisfy `S`. A `flat` parser takes no braces;
one that is not takes them only in one block, which comes last. A `taking` parser takes a token
wherever it succeeds; those that make nodes do. The parts of a node are found inside it. A test that
looks far ahead decides between parsers that take at least as many tokens. Apart from what it expected
and numbers that do not fit, a flat parser finds fault with the levels alone. -/
inductive Composed : (T : Token → Prop) → (S : Span → Prop) → (flat taking : Bool) →
    {α : Type} → Parse α → (α → Prop) → Prop where
  | done {T : Token → Prop} {S : Span → Prop} {a : α} {Q : α → Prop} (h : Q a) :
      Composed T S fl false (pure a) Q
  | bind {T : Token → Prop} {S : Span → Prop} {p : Parse α} {f : α → Parse β} {Q : α → Prop}
      {R : β → Prop} (hp : Composed T S true false p Q)
      (hf : ∀ a, Composed T S fl tk (f a) fun b => Q a → R b) : Composed T S fl tk (p >>= f) R
  | andThen {T : Token → Prop} {S : Span → Prop} {p : Parse α} {f : α → Parse β} {Q : α → Prop}
      {R : β → Prop} (hp : Composed T S true true p Q)
      (hf : ∀ a, Composed T S fl false (f a) fun b => Q a → R b) : Composed T S fl tk (p >>= f) R
  | map {T : Token → Prop} {S : Span → Prop} {p : Parse α} {g : α → β} {Q : α → Prop} {R : β → Prop}
      (hp : Composed T S fl tk p Q) (h : ∀ a, Q a → R (g a)) : Composed T S fl tk (g <$> p) R
  | within {T : Token → Prop} {S : Span → Prop} {f : Nat → Parse α} {Q : α → Prop}
      (h : ∀ levels, Composed T S fl tk (f levels) Q) :
      Composed T S fl tk (do f (← read).settings.maxNesting) Q
  | look {T : Token → Prop} {S : Span → Prop} (f : List Token → Bool) (h : Definite 0 f) :
      Composed T S fl false (looking f) fun _ => True
  | eat {T : Token → Prop} {S : Span → Prop} (f : List Token → Bool) (h : Definite 0 f)
      (hf : Foresees f) : Composed T S fl false (eatWhen f) fun _ => True
  | fork {T : Token → Prop} {S : Span → Prop} {p q : Parse α} {Q : α → Prop} {n : Nat}
      (f : List Token → Bool) (h : Settled f) (hf : Definite n f) (hp : Composed T S fl tk p Q)
      (hq : Composed T S fl tk q Q) (hp' : Costs (n + 1) p) (hq' : Costs (n + 1) q) :
      Composed T S fl tk (do if ← looking f then p else q) Q
  | take {T : Token → Prop} {S : Span → Prop} (expected : List String) (accept : Token → Bool)
      (h : ∀ t, accept t → t.isBrace = false) :
      Composed T S fl tk (expect expected accept) fun t => T t ∧ accept t
  | number {T : Token → Prop} {S : Span → Prop} :
      Composed T S fl tk Grammar.number fun t => T t ∧ Part.number.admits t
  | unexpected {T : Token → Prop} {S : Span → Prop} (expected : List String) {Q : α → Prop} :
      Composed T S fl tk (Grammar.unexpected expected) Q
  | failHere {T : Token → Prop} {S : Span → Prop} (cause : Nat → SyntaxFault.Cause)
      (h : fl = true → ∀ levels, cause levels = .nestingTooDeep levels) {Q : α → Prop} :
      Composed T S fl tk (Grammar.failHere cause) Q
  | node {T : Token → Prop} {S : Span → Prop} {parts : Parse (Rule × List Element)}
      {Q : Span → Rule × List Element → Prop} {N : Node → Prop}
      (hp : ∀ outer, Composed (fun t => T t ∧ t.span.Inside outer) (fun s => S s ∧ s.Inside outer)
        fl true parts (Q outer))
      (h : ∀ r span cs, S span → Q span (r, cs) → N (.mk r span cs)) :
      Composed T S fl tk (nodeBy parts) N
  | many {T : Token → Prop} {S : Span → Prop} {step : Parse (Option α)} {Q : α → Prop}
      (hp : Composed T S true false step fun a? => ∀ a ∈ a?, Q a) (h : Productive step) :
      Composed T S fl false (many step) fun as => ∀ a ∈ as, Q a
  | block {T : Token → Prop} {S : Span → Prop} (starters : List String) {statement : Parse Node}
      {N : Node → Prop} (hp : Composed T S false true statement N) :
      Composed T S false tk (block starters statement) fun ns => ∀ n ∈ ns, N n
  | lines {T : Token → Prop} {S : Span → Prop} :
      Composed T S false tk (do mark .openBrace; Grammar.many dialogueLine)
        fun ts => ∀ t ∈ ts, T t ∧ t.isString

variable {T : Token → Prop} {S : Span → Prop} {fl tk : Bool} {α : Type} {Q R : α → Prop}
  {p : Parse α}

namespace Composed

theorem mono (hp : Composed T S fl tk p Q) (h : ∀ a, Q a → R a) : Composed T S fl tk p R := by
  have hid : id <$> p = p := id_map p
  rw [← hid]
  exact hp.map h

/-- What holds of all results holds of them whatever else does. -/
theorem given {P : Prop} (hp : Composed T S fl tk p Q) :
    Composed T S fl tk p fun a => P → Q a :=
  hp.mono fun _ h _ => h

theorem ite {b : Prop} [Decidable b] {q : Parse α} (hp : b → Composed T S fl tk p Q)
    (hq : ¬b → Composed T S fl tk q Q) : Composed T S fl tk (if b then p else q) Q := by
  split
  · exact hp ‹_›
  · exact hq ‹_›

end Composed

/-! ## Tests -/

theorem isCloser_of_closeBrace {o : Option Token} (h : o.any (·.isMark .closeBrace)) :
    o.any (·.isCloser) := by
  cases o with
  | none => simp at h
  | some t => simp_all [Token.isCloser]

theorem Definite.settled {f : List Token → Bool} (h : Definite 0 f) : Settled f := by
  intro r b hr _
  have hne : r ≠ [] := by
    rintro rfl
    simp at hr
  exact h r b (List.length_pos_iff.mpr hne) (isCloser_of_closeBrace hr)

/-- A test of two tokens ahead never looks past a closer, at which its first part fails. -/
theorem definite_second {p q : Token → Bool} (hp : ∀ t, t.isCloser → p t = false) :
    Definite 0 fun r => r[0]?.any p && r[1]?.any q := by
  intro r b _ hr
  match r with
  | [] => simp at hr
  | [t] => simp [hp t (by simpa using hr)]
  | _ :: _ :: _ => rfl

theorem definite_first (p : Token → Bool) : Definite 0 fun r => r[0]?.any p := by
  intro r b _ hr
  cases r with
  | nil => simp at hr
  | cons t r => rfl

theorem foresees_first {p : Token → Bool} (h : ∀ t, p t → t.isBrace = false) :
    Foresees fun r => r[0]?.any p := by
  intro r hr
  cases r with
  | nil => simp at hr
  | cons t r => exact ⟨t, r, rfl, h t (by simpa using hr)⟩

theorem Composed.next (p : Token → Bool) : Composed T S fl false (nextIs p) fun _ => True :=
  .look _ (definite_first p)

theorem Composed.eatNext (p : Token → Bool) (h : ∀ t, p t → t.isBrace = false) :
    Composed T S fl false (eatWhen fun r => r[0]?.any p) fun _ => True :=
  .eat _ (definite_first p) (foresees_first h)

end Grammar

end Storyworld
