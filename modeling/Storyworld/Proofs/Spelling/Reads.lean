import Storyworld.Proofs.Grammar.Locality
import Storyworld.Proofs.Spelling.Changes

namespace Storyworld

/-! Parsers that read given tokens. A piece says of an id how it is written, which settles the token;
here an id is any word token that there is. -/

/-- A token that can be an id: any word, reserved or not. -/
structure Token.IsId (t : Token) : Prop where
  isWord : t.isWord
  isSpelled : t.IsSpelled

/-- A reserved word, written as it reads. -/
def Token.reserved (w : String) (span : Span) : Token :=
  ⟨.keyword w, span, w⟩

theorem Token.isId_reserved {w : String} {span : Span} : (Token.reserved w span).IsId where
  isWord := rfl
  isSpelled := by
    rintro _ ⟨⟩ _
    rfl

namespace Grammar

variable {α β : Type} {c : Context} {s : State} {t : Token} {ts us rest : List Token} {w : String}
  {m : Mark} {K K' : List Token → Prop} {p : Parse α} {f : α → Parse β} {Q : α → Prop}
  {R : β → Prop}

/-- Where a parser finds the tokens `ts`, and what follows is as `K` says, it takes them and gives a
result that satisfies `Q`. -/
def Reads (c : Context) (p : Parse α) (ts : List Token) (K : List Token → Prop) (Q : α → Prop) :
    Prop :=
  ∀ ⦃s : State⦄ ⦃rest : List Token⦄, s.rest = ts ++ rest → K rest →
    ∃ a s', p c s = .ok a s' ∧ Q a ∧ s.Past rest s'

theorem Takes.reads {ps : List Piece} (h : Takes c p ps K Q) (hts : Spelled ps ts) :
    Reads c p ts K Q :=
  fun _ _ hs hrest => h hts hs hrest

theorem State.Past.length_lt {s' : State} (h : s.Past rest s') (hs : s.rest = t :: ts ++ rest) :
    s'.rest.length < s.rest.length := by
  rw [h.rest, hs, List.length_append, List.length_cons]
  omega

namespace Reads

/-! ## Putting parsers together -/

theorem done {a : α} (h : Q a) : Reads c (pure a) [] K Q :=
  fun s _ hs _ => ⟨a, s, rfl, h, hs, rfl, rfl⟩

theorem mono {Q' : α → Prop} (hp : Reads c p ts K Q) (h : ∀ a, Q a → Q' a) : Reads c p ts K Q' := by
  intro s rest hs hrest
  obtain ⟨a, s', hrun, ha, hpast⟩ := hp hs hrest
  exact ⟨a, s', hrun, h a ha, hpast⟩

theorem bind (hp : Reads c p ts K Q) (hf : ∀ a, Q a → Reads c (f a) us K' R)
    (hK : ∀ rest, K' rest → K (us ++ rest)) : Reads c (p >>= f) (ts ++ us) K' R := by
  intro s rest hs hrest
  obtain ⟨a, s', hrun, ha, hpast⟩ := hp (by rw [hs, List.append_assoc]) (hK rest hrest)
  obtain ⟨b, s'', hrun', hb, hpast'⟩ := hf a ha hpast.rest hrest
  refine ⟨b, s'', ?_, hb, hpast.trans hpast'⟩
  rw [run_bind, hrun]
  exact hrun'

theorem map {g : α → β} (hp : Reads c p ts K fun a => R (g a)) : Reads c (g <$> p) ts K R := by
  intro s rest hs hrest
  obtain ⟨a, s', hrun, ha, hpast⟩ := hp hs hrest
  refine ⟨g a, s', ?_, ha, hpast⟩
  rw [run_map, hrun]

theorem nodeBy {parts : Parse (Rule × List Element)} {N : Node → Prop}
    (hp : Reads c parts ts K fun p => ∀ span, N (.mk p.1 span p.2)) :
    Reads c (Grammar.nodeBy parts) ts K N := by
  intro s rest hs hrest
  obtain ⟨⟨r, cs⟩, s', hrun, h, hpast⟩ := hp hs hrest
  refine ⟨_, s', ?_, h ((s.place c).upTo s'.last), hpast⟩
  rw [run_nodeBy, hrun]

theorem node {r : Rule} {parts : Parse (List Element)} {N : Node → Prop}
    (hp : Reads c parts ts K fun cs => ∀ span, N (.mk r span cs)) :
    Reads c (Grammar.node r parts) ts K N := by
  intro s rest hs hrest
  obtain ⟨cs, s', hrun, h, hpast⟩ := hp hs hrest
  refine ⟨_, s', ?_, h ((s.place c).upTo s'.last), hpast⟩
  rw [run_node, hrun]

/-! ## Tokens -/

/-- Behind a token that has been taken. -/
theorem advance (ht : t.isBrace = false) (hp : Reads c p ts K Q) (hs : s.rest = t :: ts ++ rest)
    (hrest : K rest) : ∃ a s', p c s.advance = .ok a s' ∧ Q a ∧ s.Past rest s' := by
  have hadvance := advance_of_cons hs
  obtain ⟨a, s', hrun, ha, hpast⟩ := hp (s := s.advance) (by rw [hadvance]; rfl) hrest
  refine ⟨a, s', hrun, ha, hpast.rest, ?_, ?_⟩
  · rw [hpast.depth, hadvance]
    exact depthAfter_of_not_brace ht
  · rw [hpast.faults, advance_faults]

theorem token {expected : List String} {accept : Token → Bool} {f : Token → Parse β}
    (ht : t.isBrace = false) (hacc : accept t) (hf : Reads c (f t) ts K R) :
    Reads c (expect expected accept >>= f) (t :: ts) K R := by
  intro s rest hs hrest
  rw [run_bind, expect_of_cons hs hacc]
  exact hf.advance ht hs hrest

theorem word {what : String} {f : Token → Parse β} (ht : t.isWord) (hf : Reads c (f t) ts K R) :
    Reads c (Grammar.word what >>= f) (t :: ts) K R :=
  token (Token.isBrace_of_isWord ht) ht hf

theorem oneOf {words : List String} {f : Token → Parse β} {span : Span} (hw : words.contains w)
    (hf : Reads c (f (.reserved w span)) ts K R) :
    Reads c (Grammar.oneOf words >>= f) (.reserved w span :: ts) K R :=
  token rfl (Token.isOneOf_iff.mpr ⟨w, by simpa using hw, rfl⟩) hf

section

variable {g : Unit → Parse β} {span : Span} {text : String}

theorem keyword (hg : Reads c (g ()) ts K R) :
    Reads c (Grammar.keyword w >>= g) (.reserved w span :: ts) K R := by
  have heq : Grammar.keyword w >>= g = expect [w] (·.isKeyword w) >>= fun _ => g () := by
    simp only [Grammar.keyword, discard_eq_bind, bind_assoc, pure_bind]
  rw [heq]
  exact token rfl (by simp [Token.isKeyword, Token.reserved]) hg

theorem mark (hm : (Piece.mark m).isFlat) (hg : Reads c (g ()) ts K R) :
    Reads c (Grammar.mark m >>= g) (⟨.mark m, span, text⟩ :: ts) K R := by
  have heq : Grammar.mark m >>= g = expect [m.spelling] (·.isMark m) >>= fun _ => g () := by
    simp only [Grammar.mark, discard_eq_bind, bind_assoc, pure_bind]
  rw [heq]
  refine token ?_ (by simp [Token.isMark]) hg
  cases m <;> first | rfl | cases hm

end

/-! ## Looking ahead -/

section

variable {g : Bool → Parse β} {b : Bool} {test : Token → Bool} {span : Span} {text : String}
  {w' : String}

theorem look {f : List Token → Bool} (hf : ∀ rest, K rest → f (ts ++ rest) = b)
    (hg : Reads c (g b) ts K R) : Reads c (looking f >>= g) ts K R := by
  intro s rest hs hrest
  rw [run_bind, run_looking, hs, hf rest hrest]
  exact hg hs hrest

theorem atKeyword (h : decide (w' = w) = b) (hg : Reads c (g b) (.reserved w' span :: ts) K R) :
    Reads c (Grammar.atKeyword w >>= g) (.reserved w' span :: ts) K R := by
  refine look (f := fun r => r[0]?.any (·.isKeyword w)) (fun _ _ => ?_) hg
  exact h

theorem atOneOf {words : List String} (h : words.contains w = b)
    (hg : Reads c (g b) (.reserved w span :: ts) K R) :
    Reads c (Grammar.atOneOf words >>= g) (.reserved w span :: ts) K R := by
  refine look (f := fun r => r[0]?.any (·.isOneOf words)) (fun _ _ => ?_) hg
  rw [← h, Bool.eq_iff_iff, List.cons_append, List.getElem?_cons_zero, Option.any_some,
    Token.isOneOf_iff]
  simp [Token.reserved]

theorem eat (ht : t.isBrace = false) (htest : test t) (hg : Reads c (g true) ts K R) :
    Reads c (Grammar.eatWhen (fun r => r[0]?.any test) >>= g) (t :: ts) K R := by
  intro s rest hs hrest
  rw [run_bind, run_eatWhen, hs, if_pos (by simpa using htest)]
  exact hg.advance ht hs hrest

theorem leave (h : ∀ rest, K rest → Without test (ts ++ rest)) (hg : Reads c (g false) ts K R) :
    Reads c (Grammar.eatWhen (fun r => r[0]?.any test) >>= g) ts K R := by
  intro s rest hs hrest
  rw [run_bind, run_eatWhen, hs, h rest hrest]
  exact hg hs hrest

theorem eatKeyword (hg : Reads c (g true) ts K R) :
    Reads c (Grammar.eatKeyword w >>= g) (.reserved w span :: ts) K R :=
  eat rfl (by simp [Token.isKeyword, Token.reserved]) hg

/-- Another word than the one asked for stays. -/
theorem otherKeyword (h : w' ≠ w) (hg : Reads c (g false) (.reserved w' span :: ts) K R) :
    Reads c (Grammar.eatKeyword w >>= g) (.reserved w' span :: ts) K R :=
  leave (fun _ _ => by simpa [Without, Token.isKeyword, Token.reserved] using h) hg

theorem eatMark (hm : (Piece.mark m).isFlat) (hg : Reads c (g true) ts K R) :
    Reads c (Grammar.eatMark m >>= g) (⟨.mark m, span, text⟩ :: ts) K R := by
  refine eat ?_ (by simp [Token.isMark]) hg
  cases m <;> first | rfl | cases hm

theorem notEatMark (h : t.isMark m = false) (hg : Reads c (g false) (t :: ts) K R) :
    Reads c (Grammar.eatMark m >>= g) (t :: ts) K R :=
  leave (fun _ _ => by simpa [Without] using h) hg

end

end Reads

end Grammar

end Storyworld
