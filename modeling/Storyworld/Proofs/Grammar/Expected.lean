import Storyworld.Proofs.Grammar.Patience
import Storyworld.Token.Keyword

namespace Storyworld

/-! What a fault says was expected, and where such a fault lies: in front of the token that was
found instead. -/

/-- What an entry of a list of expected things stands for. -/
inductive Expectation where
  | mark (m : Mark)
  | boolean
  | string
  | number
  | keyword (word : String)
  | name
deriving DecidableEq, Repr

namespace Expectation

/-- What an entry stands for, told by its spelling: a mark, a kind of literal or a reserved word,
and else a name, which it describes. -/
def ofEntry (e : String) : Expectation :=
  match Mark.all.find? (·.spelling = e) with
  | some m => mark m
  | none =>
    if e = "true" || e = "false" then boolean
    else if e = "string" then string
    else if e = "number" then number
    else if Token.isReserved e then keyword e
    else name

/-- Whether a token is what is expected. A number has to fit a signed 64-bit word. -/
def admits : Expectation → Token → Bool
  | mark m, t => t.isMark m
  | boolean, t => t.kind = .boolean true || t.kind = .boolean false
  | string, t => t.isString
  | number, t => t.kind = .number && (Text.Integer.word? t.text.toList).isSome
  | keyword w, t => t.isKeyword w
  | name, t => t.kind = .identifier

/-- The entries that stand for no word. -/
def wordless : List String :=
  Mark.all.map Mark.spelling ++ ["true", "false", "string", "number"]

variable {t : Token} {e : String} {es : List String}

theorem ofEntry_spelling (m : Mark) : ofEntry m.spelling = mark m := by
  cases m <;> rfl

theorem ofEntry_of_not_wordless (h : e ∉ wordless) :
    ofEntry e = if Token.isReserved e then keyword e else name := by
  simp only [wordless, List.mem_append, List.mem_map, not_or, not_exists, not_and] at h
  have hmark : Mark.all.find? (·.spelling = e) = none :=
    List.find?_eq_none.mpr fun m hm => by simpa using h.1 m hm
  have hspelling : ∀ s ∈ ["true", "false", "string", "number"], e ≠ s :=
    fun s hs he => h.2 (he ▸ hs)
  simp only [List.mem_cons, List.not_mem_nil, or_false, forall_eq_or_imp, forall_eq] at hspelling
  simp only [ofEntry, hmark, hspelling]
  rfl

theorem not_wordless_of_keyword (h : Token.isReserved e) : e ∉ wordless := by
  have hall : ∀ w ∈ Token.keywords, w ∉ wordless := by decide +kernel
  exact hall e (by simpa [Token.isReserved] using h)

theorem ofEntry_keyword (h : Token.isReserved e) : ofEntry e = keyword e := by
  rw [ofEntry_of_not_wordless (not_wordless_of_keyword h), if_pos h]

/-- Only its own spelling stands for a mark or a reserved word. -/
theorem eq_of_admits (h : (ofEntry e).admits t) :
    (∀ m, t.isMark m → e = m.spelling) ∧ ∀ w, t.isKeyword w → e = w := by
  rw [ofEntry] at h
  cases hfind : Mark.all.find? (·.spelling = e) with
  | some m =>
      have hspelling : m.spelling = e := by simpa using List.find?_some hfind
      have hk : t.kind = .mark m := by simpa [hfind, admits, Token.isMark] using h
      constructor
      · intro m' hm'
        obtain rfl : m = m' := by simpa [Token.isMark, hk] using hm'
        exact hspelling.symm
      · intro w hw
        simp [Token.isKeyword, hk] at hw
  | none =>
      simp only [hfind] at h
      constructor
      · intro m hm
        have hk : t.kind = .mark m := by simpa [Token.isMark] using hm
        split_ifs at h <;>
          simp [admits, Token.isString, Token.stringValue?, Token.isKeyword, hk] at h
      · intro w hw
        have hk := Token.isKeyword_iff.mp hw
        split_ifs at h <;>
          simp [admits, Token.isString, Token.stringValue?, Token.isKeyword, hk] at h
        exact h.symm

/-- A description admits words only. -/
theorem isWord_of_admits (h : e ∉ wordless) (ht : (ofEntry e).admits t) : t.isWord := by
  rw [ofEntry_of_not_wordless h] at ht
  split at ht
  · rw [admits, Token.isKeyword] at ht
    split at ht
    · simp [Token.isWord, *]
    · cases ht
  · have hk : t.kind = .identifier := by simpa [admits] using ht
    simp [Token.isWord, hk]

end Expectation

/-- What a fault says was expected. -/
def SyntaxFault.Cause.expected : SyntaxFault.Cause → List String
  | .unexpected es _ | .unexpectedEnd es => es
  | _ => []

/-- A token is among what a fault says was expected. -/
def SyntaxFault.Offers (f : SyntaxFault) (t : Token) : Prop :=
  ∃ e ∈ f.cause.expected, (Expectation.ofEntry e).admits t

namespace Grammar

variable {α β : Type} {c : Context} {s s' : State} {fl tk : Bool}

/-- A parser whose faults about what was expected are found where it stands. -/
def FaultsAhead (p : Parse α) : Prop :=
  ∀ ⦃c s fault s'⦄, p c s = .error fault s' → fault.cause.expected ≠ [] →
    fault = s'.unexpected c fault.cause.expected

theorem expected_unexpected (es : List String) : (s.unexpected c es).cause.expected = es := by
  cases hr : s.rest <;> simp [State.unexpected, SyntaxFault.Cause.expected, hr]

namespace FaultsAhead

theorem bind {p : Parse α} {f : α → Parse β} (hp : FaultsAhead p) (hf : ∀ a, FaultsAhead (f a)) :
    FaultsAhead (p >>= f) := by
  intro c s fault s' h
  rw [run_bind] at h
  cases hps : p c s with
  | ok a s₁ =>
      rw [hps] at h
      exact hf a h
  | error fault' s₁ =>
      rw [hps] at h
      cases h
      exact hp hps

theorem sure {p : Parse α} (h : ∀ c s, ∃ a s', p c s = .ok a s') : FaultsAhead p := by
  intro c s fault s' herr
  obtain ⟨a, s₁, hok⟩ := h c s
  rw [hok] at herr
  cases herr

theorem pure (a : α) : FaultsAhead (Pure.pure a : Parse α) :=
  sure fun _ s => ⟨a, s, rfl⟩

theorem map {p : Parse α} {g : α → β} (hp : FaultsAhead p) : FaultsAhead (g <$> p) :=
  hp.bind fun a => pure (g a)

theorem look (f : List Token → Bool) : FaultsAhead (looking f) :=
  sure fun _ s => ⟨f s.rest, s, rfl⟩

theorem eat (f : List Token → Bool) : FaultsAhead (eatWhen f) := by
  refine sure fun c s => ?_
  cases h : f s.rest with
  | true => exact ⟨true, s.advance, by simp [run_eatWhen, h]⟩
  | false => exact ⟨false, s, by simp [run_eatWhen, h]⟩

theorem unexpected (es : List String) : FaultsAhead (Grammar.unexpected es : Parse α) := by
  intro c s fault s' h _
  rw [run_unexpected] at h
  cases h
  rw [expected_unexpected]

theorem take (es : List String) (accept : Token → Bool) : FaultsAhead (expect es accept) := by
  intro c s fault s' h _
  obtain ⟨rfl, rfl⟩ := expect_error h
  rw [expected_unexpected]

theorem number : FaultsAhead Grammar.number := by
  intro c s fault s' h hne
  obtain ⟨rfl, rfl⟩ | ⟨t, rest, -, rfl, -⟩ := number_error h
  · rw [expected_unexpected]
  · exact absurd rfl hne

/-- A fault that is not about what was expected. -/
theorem failHere (cause : Nat → SyntaxFault.Cause) (hc : ∀ n, (cause n).expected = []) :
    FaultsAhead (Grammar.failHere cause : Parse α) := by
  intro c s fault s' h hne
  rw [run_failHere] at h
  cases h
  exact absurd (hc _) hne

theorem node {parts : Parse (Rule × List Element)} (hp : FaultsAhead parts) :
    FaultsAhead (nodeBy parts) := by
  intro c s fault s' h
  rw [run_nodeBy] at h
  split at h <;> cases h
  exact hp ‹_›

theorem collect {step : Parse (Option α)} (hp : FaultsAhead step) (n : Nat) :
    FaultsAhead (Grammar.collect step n) := by
  induction n with
  | zero => exact pure []
  | succ n ih =>
      refine hp.bind fun a? => ?_
      cases a? with
      | none => exact pure []
      | some a => exact ih.map

theorem many {step : Parse (Option α)} (hp : FaultsAhead step) :
    FaultsAhead (Grammar.many step) := by
  intro c s fault s' h
  rw [run_many] at h
  exact hp.collect _ h

theorem round {statement : Parse Node} (hp : FaultsAhead statement) (depth : Nat)
    (starters : List String) : FaultsAhead (Grammar.round depth starters statement) := by
  intro c s fault s' h
  cases roundDerivation_iff.mpr h with
  | unclosed hd hr =>
      intro _
      rw [expected_unexpected]
  | fails hd hr ht hstat hle => exact hp hstat

end FaultsAhead

end Grammar

end Storyworld
