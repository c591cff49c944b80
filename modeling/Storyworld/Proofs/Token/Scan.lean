import Storyworld.Token
import Storyworld.Token.Scan

namespace Storyworld.Token

/-! Kinds of tokens, and the lexemes they are made of. -/

/-! ## Kinds

Which tests of a token exclude one another. -/

/-- Whether a token opens or closes a block. -/
def isBrace (t : Token) : Bool :=
  t.isMark .openBrace || t.isMark .closeBrace

/-- Whether a token closes a block or a list in parentheses. -/
def isCloser (t : Token) : Bool :=
  t.isMark .closeBrace || t.isMark .closeParen

/-- A reserved word other than the phrase is written as it reads. -/
def IsSpelled (t : Token) : Prop :=
  ∀ w, t.kind = .keyword w → w ≠ "only once" → t.text = w

variable {t : Token} {words : List String} {w : String} {m : Mark}

theorem isKeyword_iff : t.isKeyword w ↔ t.kind = .keyword w := by
  cases hk : t.kind <;> simp [isKeyword, hk]

theorem isOneOf_iff : t.isOneOf words ↔ ∃ w ∈ words, t.kind = .keyword w := by
  simp [isOneOf, isKeyword_iff]

theorem isMark_iff : t.isMark m ↔ t.kind = .mark m := by
  simp [isMark]

theorem isWord_of_isKeyword (h : t.isKeyword w) : t.isWord := by
  simp [isWord, isKeyword_iff.mp h]

theorem isWord_of_isOneOf (h : t.isOneOf words) : t.isWord := by
  obtain ⟨w, -, hk⟩ := isOneOf_iff.mp h
  simp [isWord, hk]

theorem isBrace_of_isWord (h : t.isWord) : t.isBrace = false := by
  cases hk : t.kind <;> simp_all [isWord, isBrace, isMark]

theorem isBrace_of_isKeyword (h : t.isKeyword w) : t.isBrace = false := by
  rw [isKeyword_iff] at h
  simp [isBrace, isMark, h]

theorem isBrace_of_isOneOf (h : t.isOneOf words) : t.isBrace = false := by
  obtain ⟨w, _, hk⟩ := isOneOf_iff.mp h
  simp [isBrace, isMark, hk]

theorem isBrace_of_isString (h : t.isString) : t.isBrace = false := by
  cases hk : t.kind <;> simp_all [isString, stringValue?, isBrace, isMark]

theorem isBrace_of_isMark (h : t.isMark m) (ho : m ≠ .openBrace) (hc : m ≠ .closeBrace) :
    t.isBrace = false := by
  rw [isMark_iff] at h
  simp [isBrace, isMark, h, ho, hc]

theorem isKeyword_of_isMark (h : t.isMark m) : t.isKeyword w = false := by
  rw [isMark_iff] at h
  simp [isKeyword, h]

theorem isOneOf_of_isMark (h : t.isMark m) : t.isOneOf words = false := by
  simp [isOneOf, isKeyword_of_isMark h]

theorem isKeyword_of_isKeyword {w' : String} (h : t.isKeyword w) (hne : w ≠ w') :
    t.isKeyword w' = false := by
  rw [isKeyword_iff] at h
  simp [isKeyword, h, hne]

theorem isKeyword_of_isCloser (h : t.isCloser) : t.isKeyword w = false := by
  rcases Bool.or_eq_true_iff.mp h with h | h <;> exact isKeyword_of_isMark h

theorem isMark_of_isCloser (h : t.isCloser) (hb : m ≠ .closeBrace) (hp : m ≠ .closeParen) :
    t.isMark m = false := by
  rcases Bool.or_eq_true_iff.mp h with h | h <;> rw [isMark_iff] at h <;>
    simp [isMark, h, hb.symm, hp.symm]

theorem isMark_of_isMark {m' : Mark} (h : t.isMark m) (hne : m ≠ m') : t.isMark m' = false := by
  rw [isMark_iff] at h
  simp [isMark, h, hne]

theorem isMark_of_isWord (h : t.isWord) : t.isMark m = false := by
  cases hk : t.kind <;> simp_all [isWord, isMark]

theorem isMark_of_isKeyword (h : t.isKeyword w) : t.isMark m = false := by
  rw [isKeyword_iff] at h
  simp [isMark, h]

theorem isMark_of_isOneOf (h : t.isOneOf words) : t.isMark m = false := by
  obtain ⟨w, _, hk⟩ := isOneOf_iff.mp h
  simp [isMark, hk]

end Storyworld.Token

namespace Storyworld.Token

/-! ## Lexemes

A scanner hands back the characters it took and those it left, so that nothing of a text gets
lost, and takes one character at least. -/

variable {cs : List Char} {l : Lexeme} {q : Quotation} {quote : Char}

/-! ## Words -/

theorem splitWord_append (cs : List Char) : (splitWord cs).1 ++ (splitWord cs).2 = cs := by
  induction cs with
  | nil => rfl
  | cons c cs ih =>
      rw [splitWord]
      split
      · simpa using ih
      · rfl

theorem phraseTail?_append {tail rest : List Char} (h : phraseTail? cs = some (tail, rest)) :
    tail ++ rest = cs := by
  have hsplit := List.takeWhile_append_dropWhile (p := Text.isWhiteSpace) (l := cs)
  unfold phraseTail? at h
  simp only at h
  split at h
  · rename_i rest' hdrop
    split at h
    · cases h
    · simp only [Option.some.injEq, Prod.mk.injEq] at h
      obtain ⟨rfl, rfl⟩ := h
      rw [hdrop] at hsplit
      simpa using hsplit
  · cases h

theorem scanWord_append (cs : List Char) : (scanWord cs).text ++ (scanWord cs).rest = cs := by
  have hsplit := splitWord_append cs
  unfold scanWord
  simp only
  split
  · split
    · rename_i tail rest htail
      simpa [phraseTail?_append htail] using hsplit
    · exact hsplit
  · exact hsplit

theorem scanWord_ne_nil {c : Char} (hc : isWordChar c) (hd : ¬(c = '-' ∧ cs.head? = some '>')) :
    (scanWord (c :: cs)).text ≠ [] := by
  have hword : (splitWord (c :: cs)).1 ≠ [] := by
    rw [splitWord, if_pos (by simp only [hc, Bool.true_and]; simpa [← Decidable.not_and_iff_or_not] using hd)]
    simp
  unfold scanWord
  simp only
  split
  · split
    · exact List.append_ne_nil_of_left_ne_nil hword _
    · exact hword
  · exact hword

/-! ## Strings -/

theorem Quotation.push_append {value text : List Char} {q : Quotation} (h : q.text ++ q.rest = cs) :
    (q.push value text).text ++ (q.push value text).rest = text ++ cs := by
  simp [push, ← h]

/-- A string that goes on behind some characters has them in front. -/
theorem map_push_append {value text rest : List Char} {q? : Option Quotation}
    (hrest : ∀ q, q? = some q → q.text ++ q.rest = rest)
    (h : q?.map (.push value text) = some q) : q.text ++ q.rest = text ++ rest := by
  obtain ⟨q', hq', rfl⟩ := Option.map_eq_some_iff.mp h
  exact Quotation.push_append (hrest q' hq')

theorem quoted?_append (h : quoted? quote cs = some q) : q.text ++ q.rest = cs := by
  induction cs using quoted?.induct quote generalizing q with
  | case1 => simp [quoted?] at h
  | case2 cs => simp [quoted?.eq_def] at h
  | case3 hne => simp [quoted?.eq_def] at h
  | case4 cs hne => simp [quoted?.eq_def] at h
  | case5 c cs hc hne ih =>
      rw [quoted?, if_neg hne, if_pos rfl, if_neg hc] at h
      exact map_push_append (fun _ => ih) h
  | case6 cs hline hescape =>
      rw [quoted?.eq_def] at h
      simp only [hline, hescape, if_false, if_true] at h
      cases h
      rfl
  | case7 c cs hline hescape hquote ih =>
      rw [quoted?.eq_def] at h
      simp only [hline, hescape, hquote, if_false] at h
      exact map_push_append (fun _ => ih) h

theorem triple?_append {n : Nat} (h : triple? quote n cs = some q) : q.text ++ q.rest = cs := by
  induction n, cs using triple?.induct quote generalizing q with
  | case1 n => simp [triple?] at h
  | case2 n c cs ih =>
      rw [triple?] at h
      exact map_push_append (fun _ => ih) h
  | case3 c cs hescape ih =>
      rw [triple?, if_pos hescape] at h
      exact map_push_append (fun _ => ih) h
  | case4 c cs hescape hclose =>
      rw [triple?, if_neg hescape, if_pos hclose] at h
      cases h
      simp only [Bool.and_eq_true, decide_eq_true_eq, List.isPrefixOf_iff_prefix] at hclose
      obtain ⟨rfl, rest, rfl⟩ := hclose
      rfl
  | case5 c cs hescape hclose ih =>
      rw [triple?, if_neg hescape, if_neg hclose] at h
      exact map_push_append (fun _ => ih) h

theorem raw?_append {close : List Char} (h : raw? close cs = some q) : q.text ++ q.rest = cs := by
  induction cs using raw?.induct close generalizing q with
  | case1 => simp [raw?] at h
  | case2 c cs hclose =>
      rw [raw?, if_pos hclose] at h
      cases h
      obtain ⟨rest, hrest⟩ := List.isPrefixOf_iff_prefix.mp hclose
      simp [← hrest]
  | case3 c cs hclose ih =>
      rw [raw?, if_neg hclose] at h
      exact map_push_append (fun _ => ih) h

theorem scanQuoted?_append (h : scanQuoted? quote cs = some l) :
    l.text ++ l.rest = quote :: cs ∧ l.text ≠ [] := by
  unfold scanQuoted? at h
  split at h
  · rename_i htwo
    obtain ⟨rest, rfl⟩ := List.isPrefixOf_iff_prefix.mp htwo
    obtain ⟨q, hq, rfl⟩ := Option.map_eq_some_iff.mp h
    have hrest := triple?_append hq
    exact ⟨by simpa [Quotation.lexeme] using hrest, by simp [Quotation.lexeme]⟩
  · obtain ⟨q, hq, rfl⟩ := Option.map_eq_some_iff.mp h
    have hrest := quoted?_append hq
    exact ⟨by simpa [Quotation.lexeme] using hrest, by simp [Quotation.lexeme]⟩

theorem scanRaw?_append (hopens : opensRaw cs) (h : scanRaw? cs = some l) :
    l.text ++ l.rest = 'r' :: cs ∧ l.text ≠ [] := by
  unfold scanRaw? at h
  obtain ⟨q, hq, rfl⟩ := Option.map_eq_some_iff.mp h
  have hrest := raw?_append hq
  have hquote : (cs.dropWhile (· = '#')).head? = some '"' := by
    simp only [opensRaw, Bool.and_eq_true, decide_eq_true_eq] at hopens
    exact hopens.2
  obtain ⟨body, hbody⟩ := List.head?_eq_some_iff.mp hquote
  have hsplit := List.takeWhile_append_dropWhile (p := (· = '#')) (l := cs)
  rw [hbody] at hsplit hrest
  simp only [List.drop_one, List.tail_cons] at hrest
  refine ⟨?_, by simp [Quotation.lexeme]⟩
  simp only [Quotation.lexeme, List.cons_append, List.append_assoc, List.nil_append, hrest, hsplit]

/-! ## All tokens -/

theorem scanRun_spec {kind : Kind} {p : Char → Bool} {c : Char} (hc : p c) :
    (scanRun kind p (c :: cs)).text ++ (scanRun kind p (c :: cs)).rest = c :: cs ∧
      (scanRun kind p (c :: cs)).text ≠ [] := by
  refine ⟨List.takeWhile_append_dropWhile, ?_⟩
  simp [scanRun, hc]

theorem ofString_lexeme {l? : Option Lexeme} (h : Scan.ofString l? = .lexeme l) : l? = some l := by
  cases l? with
  | none => cases h
  | some l' =>
      cases h
      rfl

/-- Nothing of a text is lost where a token is cut off it, and the token is not empty. -/
theorem scan_append (h : scan cs = .lexeme l) : l.text ++ l.rest = cs ∧ l.text ≠ [] := by
  cases cs with
  | nil => cases h
  | cons c cs =>
      rw [scan] at h
      split at h
      · cases h
        exact scanRun_spec ‹_›
      split at h
      · cases h
        exact scanRun_spec (by simp [*])
      split at h
      · rename_i hraw
        simp only [Bool.and_eq_true, decide_eq_true_eq] at hraw
        obtain ⟨rfl, hopens⟩ := hraw
        exact scanRaw?_append hopens (ofString_lexeme h)
      split at h
      · exact scanQuoted?_append (ofString_lexeme h)
      split at h
      · rename_i harrow
        simp only [Bool.and_eq_true, decide_eq_true_eq] at harrow
        obtain ⟨rfl, hnext⟩ := harrow
        obtain ⟨rest, rfl⟩ := List.head?_eq_some_iff.mp hnext
        cases h
        exact ⟨rfl, by simp⟩
      rename_i harrow
      split at h
      · cases h
        exact ⟨scanWord_append _, scanWord_ne_nil ‹_› (by simpa using harrow)⟩
      split at h
      · cases h
      split at h
      · cases h
        exact ⟨rfl, by simp⟩
      · cases h
        exact ⟨rfl, by simp⟩

/-- Only the empty text has no token in front. -/
theorem scan_finished (h : scan cs = .finished) : cs = [] := by
  have hstring {l? : Option Lexeme} (h : Scan.ofString l? = .finished) : False := by
    cases l? <;> cases h
  cases cs with
  | nil => rfl
  | cons c cs =>
      rw [scan] at h
      split at h
      · cases h
      split at h
      · cases h
      split at h
      · exact (hstring h).elim
      split at h
      · exact (hstring h).elim
      split at h
      · cases h
      split at h
      · cases h
      split at h
      · cases h
      split at h <;> cases h

/-- A string that does not close begins with a character of one byte. -/
theorem scan_unclosed (h : scan cs = .unclosed) :
    ∃ c rest, cs = c :: rest ∧ c.utf8Size = 1 := by
  cases cs with
  | nil => cases h
  | cons c cs =>
      refine ⟨c, cs, rfl, ?_⟩
      rw [scan] at h
      split at h
      · cases h
      split at h
      · cases h
      split at h
      · rename_i hraw
        simp only [Bool.and_eq_true, decide_eq_true_eq] at hraw
        rw [hraw.1]
        rfl
      split at h
      · rename_i hquote
        rcases Bool.or_eq_true_iff.mp hquote with hc | hc <;> rw [of_decide_eq_true hc] <;> rfl
      split at h
      · cases h
      split at h
      · cases h
      split at h
      · cases h
      split at h <;> cases h

/-- What is found to be a control character is one, and no blank. -/
theorem scan_control {c : Char} (h : scan cs = .control c) :
    ∃ rest, cs = c :: rest ∧ Text.isControl c ∧ ¬Text.isBlank c := by
  have hstring {l? : Option Lexeme} (h : Scan.ofString l? = .control c) : False := by
    cases l? <;> cases h
  cases cs with
  | nil => cases h
  | cons c' cs =>
      rw [scan] at h
      split at h
      · cases h
      split at h
      · cases h
      split at h
      · exact (hstring h).elim
      split at h
      · exact (hstring h).elim
      split at h
      · cases h
      split at h
      · cases h
      split at h
      · cases h
        exact ⟨cs, rfl, ‹_›, ‹_›⟩
      split at h <;> cases h

end Storyworld.Token
