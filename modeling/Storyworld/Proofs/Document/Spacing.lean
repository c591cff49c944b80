import Storyworld.Proofs.Document.Segments
import Storyworld.Proofs.Token.Spacing

namespace Storyworld

/-! A space between two tokens of a source. It changes nothing of what the grammar is given, the
significant tokens by kind and text, but at one place: behind the words `only` and `once`, with white
space between them, when an arrow begins there. The hyphen of the arrow keeps the two words from
being the phrase, and a space lets them become it. -/

namespace Lexer

open Token Token.Lexeme

variable {source : List Char} {ks ls : List Lexeme} {ts us tokens : List Token}

/-! ## Tokens -/

theorem laid_append (p : Place) (ls ks : List Lexeme) :
    laid p (ls ++ ks) = laid p ls ++ laid (p.after (chars ls)) ks := by
  induction ls generalizing p with
  | nil => rfl
  | cons l ls ih => simp [ih, Place.after_append]

/-- Where laid lexemes are parted as tokens, the lexemes are parted too. -/
theorem exists_of_laid_eq_append {p : Place} (h : laid p ks = ts ++ us) :
    ∃ ls ms, ks = ls ++ ms ∧ ts = laid p ls ∧ us = laid (p.after (chars ls)) ms := by
  induction ks generalizing p ts with
  | nil =>
      obtain ⟨rfl, rfl⟩ := List.append_eq_nil_iff.mp h.symm
      exact ⟨[], [], rfl, rfl, rfl⟩
  | cons l ks ih =>
      cases ts with
      | nil => exact ⟨[], l :: ks, rfl, rfl, h.symm⟩
      | cons t ts =>
          rw [laid_cons, List.cons_append, List.cons.injEq] at h
          obtain ⟨ls, ms, rfl, rfl, rfl⟩ := ih h.2
          refine ⟨l :: ls, ms, rfl, by rw [← h.1, laid_cons], ?_⟩
          rw [chars_cons, Place.after_append]

theorem exists_of_laid_eq_cons {p : Place} {t : Token} (h : laid p ks = t :: ts) :
    ∃ l ls, ks = l :: ls ∧ t = tokenAt p l ∧ ts = laid (p.after l.text) ls := by
  cases ks with
  | nil => cases h
  | cons l ls =>
      rw [laid_cons, List.cons.injEq] at h
      exact ⟨l, ls, rfl, h.1.symm, h.2.symm⟩

theorem texts_laid (p : Place) (ls : List Lexeme) : texts (laid p ls) = chars ls := by
  induction ls generalizing p with
  | nil => rfl
  | cons l ls ih => simp [tokenAt, ih]

theorem readings_laid (p : Place) (ls : List Lexeme) :
    (Tree.significant (laid p ls)).map (fun t => (t.kind, t.text)) = readings ls := by
  induction ls generalizing p with
  | nil => rfl
  | cons l ls ih =>
      have htrivia : (tokenAt p l).isTrivia = l.isTrivia := by
        unfold Token.isTrivia Lexeme.isTrivia tokenAt
        cases l.kind <;> rfl
      have hmore := ih (p.after l.text)
      cases ht : l.isTrivia with
      | true =>
          rw [ht] at htrivia
          rw [laid_cons, readings_cons_of_trivia ht, Tree.significant,
            List.filter_cons_of_neg (by simp [htrivia])]
          exact hmore
      | false =>
          rw [ht] at htrivia
          rw [← List.singleton_append, readings_append, readings_singleton ht, List.singleton_append,
            laid_cons, Tree.significant, List.filter_cons_of_pos (by simp [htrivia]), List.map_cons]
          exact congrArg _ hmore

/-- Whether the tokens in front of a place end in the words `only` and `once`, with white space
between them, and an arrow begins those behind it. -/
def JoinsPhrase (ts us : List Token) : Prop :=
  ∃ before only gap once arrow after, ts = before ++ [only, gap, once] ∧ us = arrow :: after ∧
    only.text = "only" ∧ (∀ c ∈ gap.text.toList, Text.isWhiteSpace c) ∧ once.text = "once" ∧
    arrow.kind = .mark .arrow

theorem ofList_eq_iff {w : List Char} {s : String} : String.ofList w = s ↔ w = s.toList := by
  constructor <;> rintro rfl <;> simp

/-- The joints are the same for lexemes and for the tokens they are. -/
theorem joinsPhrase_laid (p q : Place) (ls ms : List Lexeme) :
    JoinsPhrase (laid p ls) (laid q ms) ↔ MeetAtJoint ls ms := by
  constructor
  · rintro ⟨before, only, gap, once, arrow, after, hls, hms, honly, hgap, honce, harrow⟩
    obtain ⟨a, c, rfl, -, hc⟩ := exists_of_laid_eq_append hls
    obtain ⟨l, c, rfl, htl, hc⟩ := exists_of_laid_eq_cons hc.symm
    obtain ⟨g, c, rfl, htg, hc⟩ := exists_of_laid_eq_cons hc.symm
    obtain ⟨o, c, rfl, hto, hc⟩ := exists_of_laid_eq_cons hc.symm
    obtain ⟨m, ms, rfl, htm, -⟩ := exists_of_laid_eq_cons hms
    cases c with
    | cons => cases hc
    | nil =>
        subst htl htg hto htm
        exact ⟨a, l, _, rfl, ofList_eq_iff.mp honly, g, o, m, ms, rfl, rfl,
          by simpa [tokenAt] using hgap, ofList_eq_iff.mp honce, harrow⟩
  · rintro ⟨a, l, _, rfl, honly, gap, once, arrow, after, rfl, rfl, hgap, honce, harrow⟩
    refine ⟨laid p a, _, _, _, _, _, laid_append p a _, rfl, ?_, ?_, ?_, harrow⟩
    · simp [tokenAt, honly]
    · simpa [tokenAt] using hgap
    · simp [tokenAt, honce]

/-- A space may be put between any two tokens of a source, and in front of the first and behind the
last: the source has tokens again, and those that carry meaning are the same by kind and text. The
one exception are two words `only` and `once`, not the phrase because an arrow follows, with the space
put in front of the arrow. -/
theorem tokens_insert_space (h : Lexer.tokens source = .ok (ts ++ us)) :
    source = texts ts ++ texts us ∧
      ((∃ spaced, Lexer.tokens (texts ts ++ ' ' :: texts us) = .ok spaced ∧
          (Tree.significant spaced).map (fun t => (t.kind, t.text)) =
            (Tree.significant (ts ++ us)).map fun t => (t.kind, t.text)) ↔
        ¬JoinsPhrase ts us) := by
  obtain ⟨ks, hcut, hlaid⟩ := tokens_eq_ok_iff.mp h
  obtain ⟨ls, ms, rfl, rfl, rfl⟩ := exists_of_laid_eq_append hlaid.symm
  have hsource : chars ls ++ chars ms = source := by rw [← chars_append, hcut.chars_eq]
  rw [← hsource] at hcut
  rw [hlaid, readings_laid, texts_laid, texts_laid, joinsPhrase_laid]
  refine ⟨hsource.symm, ?_, fun hno => ?_⟩
  · rintro ⟨spaced, hspaced, heq⟩ hjoint
    obtain ⟨ns, hns, hlt⟩ := hcut.space_of_joint hjoint
    obtain rfl : laid .start ns = spaced :=
      Except.ok.inj ((tokens_eq_ok_iff.mpr ⟨ns, hns, rfl⟩).symm.trans hspaced)
    rw [readings_laid] at heq
    exact absurd (congrArg List.length heq) (Nat.ne_of_lt hlt)
  · obtain ⟨ns, hns, heq⟩ := hcut.space hno
    exact ⟨laid .start ns, tokens_eq_ok_iff.mpr ⟨ns, hns, rfl⟩, by rw [readings_laid, heq]⟩

/-- The arrow of an exit may stand on its own. -/
theorem tokens_insert_space_exit :
    let ts := (tokensOf "exit north->hall # Up.").take 3
    let us := (tokensOf "exit north->hall # Up.").drop 3
    Lexer.tokens "exit north->hall # Up.".toList = .ok (ts ++ us) ∧ ¬JoinsPhrase ts us ∧
      ∃ spaced, Lexer.tokens (texts ts ++ ' ' :: texts us) = .ok spaced ∧
        (Tree.significant spaced).map (fun t => (t.kind, t.text)) =
          (Tree.significant (ts ++ us)).map fun t => (t.kind, t.text) := by
  have h : Lexer.tokens "exit north->hall # Up.".toList =
      .ok ((tokensOf "exit north->hall # Up.").take 3 ++
        (tokensOf "exit north->hall # Up.").drop 3) := by decide +kernel
  have htexts : ((tokensOf "exit north->hall # Up.").take 3).map (·.text) = ["exit", " ", "north"] := by
    decide +kernel
  have hno : ¬JoinsPhrase ((tokensOf "exit north->hall # Up.").take 3)
      ((tokensOf "exit north->hall # Up.").drop 3) := by
    rintro ⟨before, only, gap, once, _, _, hts, -, -, -, honce, -⟩
    have hlast := congrArg List.getLast? htexts
    rw [hts] at hlast
    simp [honce] at hlast
  exact ⟨h, hno, (tokens_insert_space h).2.mpr hno⟩

/-- A space between the word `once` and an arrow on it makes the phrase of it. -/
theorem tokens_space_makes_phrase :
    let tokens := tokensOf "only once->hall"
    Lexer.tokens "only once->hall".toList = .ok tokens ∧
      ∀ spaced, Lexer.tokens (texts (tokens.take 3) ++ ' ' :: texts (tokens.drop 3)) = .ok spaced →
        (Tree.significant spaced).map (fun t => (t.kind, t.text)) ≠
          (Tree.significant tokens).map fun t => (t.kind, t.text) := by
  have hspaced : Lexer.tokens (texts ((tokensOf "only once->hall").take 3) ++
      ' ' :: texts ((tokensOf "only once->hall").drop 3)) = .ok (tokensOf "only once ->hall") := by
    decide +kernel
  refine ⟨by decide +kernel, fun spaced h => ?_⟩
  cases hspaced.symm.trans h
  decide +kernel

end Lexer

end Storyworld
