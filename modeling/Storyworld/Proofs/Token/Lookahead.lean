import Storyworld.Proofs.Token.Tiling

namespace Storyworld

namespace Token

/-! How far the lexer looks past a lexeme. Strings are settled by their own characters; all else asks
at most for the next character, words for an arrow too, and the word `only` for a second word behind
white space. The lexeme in front of a text is the same when another text stands there in which these
questions have the same answers. -/

variable {cs rest rest' w : List Char} {l : Lexeme} {q : Quotation} {quote c : Char}

/-! ## Strings -/

/-- A short text begins a long one whatever stands behind it. -/
theorem isPrefixOf_append_congr {p t : List Char} (h : p.length ≤ t.length) (rest rest' : List Char) :
    p.isPrefixOf (t ++ rest) = p.isPrefixOf (t ++ rest') := by
  rw [Bool.eq_iff_iff, List.isPrefixOf_iff_prefix, List.isPrefixOf_iff_prefix]
  constructor <;> intro hp
  · exact (List.prefix_of_prefix_length_le hp (List.prefix_append t rest) h).trans
      (List.prefix_append t rest')
  · exact (List.prefix_of_prefix_length_le hp (List.prefix_append t rest') h).trans
      (List.prefix_append t rest)

theorem quoted?_rest (h : quoted? quote cs = some q) (rest' : List Char) :
    quoted? quote (q.text ++ rest') = some { q with rest := rest' } := by
  induction cs using quoted?.induct quote generalizing q with
  | case1 => simp [quoted?] at h
  | case2 cs => simp [quoted?.eq_def] at h
  | case3 hne => simp [quoted?.eq_def] at h
  | case4 cs hne => simp [quoted?.eq_def] at h
  | case5 c cs hc hne ih =>
      rw [quoted?, if_neg hne, if_pos rfl, if_neg hc] at h
      obtain ⟨q, hq, rfl⟩ := Option.map_eq_some_iff.mp h
      simp [Quotation.push, quoted?, hc, ih hq]
  | case6 cs hline hescape =>
      rw [quoted?.eq_def] at h
      simp only [hline, hescape, if_false, if_true] at h
      cases h
      simp [quoted?.eq_def, hline, hescape]
  | case7 c cs hline hescape hquote ih =>
      rw [quoted?.eq_def] at h
      simp only [hline, hescape, hquote, if_false] at h
      obtain ⟨q, hq, rfl⟩ := Option.map_eq_some_iff.mp h
      rw [quoted?.eq_def]
      simp [Quotation.push, hline, hescape, hquote, ih hq]

theorem triple?_length {n : Nat} (h : triple? quote n cs = some q) : 3 ≤ q.text.length := by
  induction n, cs using triple?.induct quote generalizing q with
  | case1 n => simp [triple?] at h
  | case2 n c cs ih =>
      rw [triple?] at h
      obtain ⟨q, hq, rfl⟩ := Option.map_eq_some_iff.mp h
      exact Nat.le_succ_of_le (ih hq)
  | case3 c cs hescape ih =>
      rw [triple?, if_pos hescape] at h
      obtain ⟨q, hq, rfl⟩ := Option.map_eq_some_iff.mp h
      exact Nat.le_succ_of_le (ih hq)
  | case4 c cs hescape hclose =>
      rw [triple?, if_neg hescape, if_pos hclose] at h
      cases h
      exact Nat.le_refl 3
  | case5 c cs hescape hclose ih =>
      rw [triple?, if_neg hescape, if_neg hclose] at h
      obtain ⟨q, hq, rfl⟩ := Option.map_eq_some_iff.mp h
      exact Nat.le_succ_of_le (ih hq)

/-- Every test in a string over several lines is about characters of the string, its closing quotes
included. -/
theorem triple?_rest {n : Nat} (hquote : IsQuote quote) (h : triple? quote n cs = some q)
    (rest' : List Char) : triple? quote n (q.text ++ rest') = some { q with rest := rest' } := by
  induction n, cs using triple?.induct quote generalizing q with
  | case1 n => simp [triple?] at h
  | case2 n c cs ih =>
      rw [triple?] at h
      obtain ⟨q, hq, rfl⟩ := Option.map_eq_some_iff.mp h
      simp [Quotation.push, triple?, ih hq]
  | case3 c cs hescape ih =>
      rw [triple?, if_pos hescape] at h
      obtain ⟨q, hq, rfl⟩ := Option.map_eq_some_iff.mp h
      rw [← triple?_append hq,
        isPrefixOf_append_congr (p := [quote, quote, quote]) (triple?_length hq) _ rest'] at hescape
      simp only [Quotation.push, List.cons_append, List.nil_append]
      rw [triple?, if_pos hescape, ih hq]
      rfl
  | case4 c cs hescape hclose =>
      rw [triple?, if_neg hescape, if_pos hclose] at h
      cases h
      simp [triple?, hquote.ne_backslash]
  | case5 c cs hescape hclose ih =>
      rw [triple?, if_neg hescape, if_neg hclose] at h
      obtain ⟨q, hq, rfl⟩ := Option.map_eq_some_iff.mp h
      have hlength := triple?_length hq
      rw [← triple?_append hq,
        isPrefixOf_append_congr (p := [quote, quote, quote]) hlength _ rest'] at hescape
      rw [← triple?_append hq, isPrefixOf_append_congr (p := [quote, quote])
        (Nat.le_of_succ_le hlength) _ rest'] at hclose
      simp only [Quotation.push, List.cons_append, List.nil_append]
      rw [triple?, if_neg hescape, if_neg hclose, ih hq]
      rfl

theorem raw?_length {close : List Char} (h : raw? close cs = some q) :
    close.length ≤ q.text.length := by
  induction cs using raw?.induct close generalizing q with
  | case1 => simp [raw?] at h
  | case2 c cs hclose =>
      rw [raw?, if_pos hclose] at h
      cases h
      exact Nat.le_refl _
  | case3 c cs hclose ih =>
      rw [raw?, if_neg hclose] at h
      obtain ⟨q, hq, rfl⟩ := Option.map_eq_some_iff.mp h
      exact Nat.le_succ_of_le (ih hq)

theorem raw?_rest {close : List Char} (hne : close ≠ []) (h : raw? close cs = some q)
    (rest' : List Char) : raw? close (q.text ++ rest') = some { q with rest := rest' } := by
  induction cs using raw?.induct close generalizing q with
  | case1 => simp [raw?] at h
  | case2 c cs hclose =>
      rw [raw?, if_pos hclose] at h
      cases h
      obtain ⟨d, close, rfl⟩ := List.exists_cons_of_ne_nil hne
      simp [raw?]
  | case3 c cs hclose ih =>
      rw [raw?, if_neg hclose] at h
      obtain ⟨q, hq, rfl⟩ := Option.map_eq_some_iff.mp h
      rw [← raw?_append hq, ← List.cons_append,
        isPrefixOf_append_congr (Nat.le_succ_of_le (raw?_length hq)) _ rest'] at hclose
      simp only [Quotation.push, List.cons_append, List.nil_append] at hclose ⊢
      rw [raw?, if_neg hclose, ih hq]
      rfl

theorem scanQuoted?_rest (hquote : IsQuote quote) (h : scanQuoted? quote cs = some l)
    (hrest : rest'.head? = some quote → l.rest.head? = some quote) :
    ∃ body, l.text = quote :: body ∧
      scanQuoted? quote (body ++ rest') = some { l with rest := rest' } := by
  unfold scanQuoted? at h
  split at h
  · obtain ⟨q, hq, rfl⟩ := Option.map_eq_some_iff.mp h
    refine ⟨[quote, quote] ++ q.text, rfl, ?_⟩
    have hopen : [quote, quote].isPrefixOf ([quote, quote] ++ q.text ++ rest') := by simp
    rw [scanQuoted?, if_pos hopen]
    simp [Quotation.lexeme, triple?_rest hquote hq]
  · rename_i hone
    obtain ⟨q, hq, rfl⟩ := Option.map_eq_some_iff.mp h
    refine ⟨q.text, rfl, ?_⟩
    have hone' : ¬[quote, quote].isPrefixOf (q.text ++ rest') := by
      intro htwo
      rw [← quoted?_append hq] at hone
      obtain ⟨d, t, ht⟩ : ∃ d t, q.text = d :: t := by
        refine List.exists_cons_of_ne_nil fun hnil => ?_
        simpa [hnil, quoted?] using quoted?_rest hq []
      rw [ht] at htwo hone
      cases t with
      | cons e t => exact hone (by simpa using htwo)
      | nil =>
          -- The empty string: a third quote must not follow.
          obtain ⟨rfl, more', rfl⟩ :=
            List.cons_prefix_cons.mp (List.isPrefixOf_iff_prefix.mp htwo)
          obtain ⟨more, hmore⟩ := List.head?_eq_some_iff.mp (hrest rfl)
          simp only [Quotation.lexeme] at hmore
          rw [hmore] at hone
          exact hone (List.isPrefixOf_iff_prefix.mpr ⟨more, rfl⟩)
    rw [scanQuoted?, if_neg hone', quoted?_rest hq]
    rfl

theorem scanRaw?_rest (hopens : opensRaw cs) (h : scanRaw? cs = some l) (rest' : List Char) :
    ∃ body, l.text = 'r' :: body ∧ opensRaw (body ++ rest') ∧
      scanRaw? (body ++ rest') = some { l with rest := rest' } := by
  obtain ⟨signs, body, htake, hdrop, -⟩ := opens_of_opensRaw hopens
  rw [scanRaw?, htake, hdrop] at h
  obtain ⟨q, hq, rfl⟩ := Option.map_eq_some_iff.mp h
  refine ⟨List.replicate (signs + 1) '#' ++ '"' :: q.text, ?_, ?_, ?_⟩
  · simp [Quotation.lexeme]
  · simp [opensRaw, List.replicate_succ]
  · have hfound := raw?_rest (List.cons_ne_nil _ _) hq rest'
    simp [scanRaw?, Quotation.lexeme, hfound]

/-! ## Words -/

/-- Whether a word in front of a text ends there: the text begins with no word character, or with an
arrow. -/
def EndsWord (cs : List Char) : Prop :=
  ∀ c, cs.head? = some c → isWordChar c → c = '-' ∧ cs.tail.head? = some '>'

theorem endsWord_cons (h : isWordChar c = false) : EndsWord (c :: cs) := by
  intro d hd hword
  cases hd
  simp [h] at hword

theorem splitWord_of_endsWord (h : EndsWord cs) : splitWord cs = ([], cs) := by
  cases cs with
  | nil => rfl
  | cons c cs =>
      rw [splitWord, if_neg]
      simp only [Bool.and_eq_true, Bool.not_eq_true', Bool.and_eq_false_iff, not_and, not_or]
      intro hword
      obtain ⟨rfl, hnext⟩ := h c rfl hword
      simpa using hnext

theorem endsWord_splitWord (cs : List Char) : EndsWord (splitWord cs).2 := by
  induction cs with
  | nil => simp [splitWord, EndsWord]
  | cons c cs ih =>
      rw [splitWord]
      split
      · exact ih
      · rename_i hc
        intro d hd hword
        cases hd
        simpa [hword] using hc

/-- A word stays the same in front of another text where words end, unless an arrow comes about. -/
theorem splitWord_append_rest (h : splitWord cs = (w, rest)) (hends : EndsWord rest')
    (harrow : rest'.head? = some '>' → rest.head? = some '>') :
    splitWord (w ++ rest') = (w, rest') := by
  induction cs generalizing w with
  | nil =>
      cases h
      exact splitWord_of_endsWord hends
  | cons c cs ih =>
      rw [splitWord] at h
      split at h
      · rename_i hc
        cases hmore : splitWord cs with
        | mk w' r =>
            rw [hmore] at h
            cases h
            have hsplit := splitWord_append cs
            rw [hmore] at hsplit
            rw [List.cons_append, splitWord, ih hmore, if_pos]
            rw [← hsplit] at hc
            cases w' with
            | cons d w' => exact hc
            | nil =>
                simp only [Bool.and_eq_true, Bool.not_eq_true', Bool.and_eq_false_iff,
                  decide_eq_false_iff_not, List.nil_append] at hc ⊢
                exact ⟨hc.1, hc.2.imp_right fun hne heq => hne (harrow heq)⟩
      · cases h
        exact splitWord_of_endsWord hends

theorem isWordChar_of_isWhiteSpace (h : Text.isWhiteSpace c) : isWordChar c = false := by
  rcases c with ⟨n, hn⟩
  simp only [isWordChar, isAsciiAlphanumeric, Text.isWhiteSpace, Char.le_def, Char.ext_iff,
    Bool.or_eq_true, Bool.and_eq_true, decide_eq_true_eq, UInt32.le_iff_toNat_le, Char.toNat,
    UInt32.ext_iff, Bool.or_eq_false_iff, Bool.and_eq_false_iff, decide_eq_false_iff_not] at h ⊢
  simp at h ⊢
  omega

/-- What makes up the phrase stands behind `only` at white space. -/
theorem phraseTail?_eq_some {tail : List Char} (h : phraseTail? cs = some (tail, rest)) :
    ∃ gap : List Char, (∀ c ∈ gap, Text.isWhiteSpace c) ∧ tail = gap ++ ['o', 'n', 'c', 'e'] ∧
      rest.head?.any isWordChar = false := by
  unfold phraseTail? at h
  simp only at h
  split at h
  · split at h
    · cases h
    · cases h
      exact ⟨_, fun c hc => List.mem_takeWhile_imp hc, rfl, Bool.eq_false_iff.mpr ‹_›⟩
  · cases h

theorem phraseTail?_gap {gap : List Char} (hgap : ∀ c ∈ gap, Text.isWhiteSpace c)
    (hrest : rest.head?.any isWordChar = false) :
    phraseTail? (gap ++ ['o', 'n', 'c', 'e'] ++ rest) = some (gap ++ ['o', 'n', 'c', 'e'], rest) := by
  have hblank : Text.isWhiteSpace 'o' = false := by decide
  unfold phraseTail?
  rw [List.append_assoc, List.takeWhile_append_of_pos hgap, List.dropWhile_append_of_pos hgap]
  simp [hblank, hrest]

/-- The two words and the white space between them are one lexeme. -/
theorem scanWord_phrase {gap : List Char} (hgap : ∀ c ∈ gap, Text.isWhiteSpace c) (hne : gap ≠ [])
    (hrest : rest.head?.any isWordChar = false) :
    scanWord (['o', 'n', 'l', 'y'] ++ (gap ++ ['o', 'n', 'c', 'e']) ++ rest) =
      ⟨.keyword "only once", ['o', 'n', 'l', 'y'] ++ (gap ++ ['o', 'n', 'c', 'e']), rest⟩ := by
  obtain ⟨c, gap, rfl⟩ := List.exists_cons_of_ne_nil hne
  have hc : Text.isWhiteSpace c := hgap c List.mem_cons_self
  have hfirst : splitWord ['o', 'n', 'l', 'y'] = (['o', 'n', 'l', 'y'], []) := by decide
  have hsplit : splitWord (['o', 'n', 'l', 'y'] ++ (c :: gap ++ ['o', 'n', 'c', 'e'] ++ rest)) =
      (['o', 'n', 'l', 'y'], c :: gap ++ ['o', 'n', 'c', 'e'] ++ rest) := by
    refine splitWord_append_rest hfirst (endsWord_cons (isWordChar_of_isWhiteSpace hc)) fun h => ?_
    cases h
    exact absurd hc (by decide)
  rw [scanWord, List.append_assoc, hsplit]
  simp only [if_true, phraseTail?_gap hgap hrest]

/-! ## One step -/

/-- The characters that numerals begin with. -/
def beginsNumeral (c : Char) : Bool :=
  c.isDigit || c = '-'

theorem isWordChar_of_beginsNumeral (h : beginsNumeral c) : isWordChar c := by
  simp only [beginsNumeral, Bool.or_eq_true, decide_eq_true_eq] at h
  rcases h with hdigit | rfl
  · obtain ⟨hzero, hnine⟩ := Char.isDigit_iff_toNat.mp hdigit
    simp only [isWordChar, isAsciiAlphanumeric, Char.le_def, UInt32.le_iff_toNat_le, Bool.or_eq_true,
      Bool.and_eq_true, decide_eq_true_eq]
    exact .inl (.inl (.inl (.inl (.inr ⟨hzero, hnine⟩))))
  · decide

theorem isBlank_of_beginsNumeral (h : beginsNumeral c) : Text.isBlank c = false := by
  have hword := isWordChar_of_beginsNumeral h
  have hspace : Text.isWhiteSpace c = false := by
    refine Bool.eq_false_iff.mpr fun hspace => ?_
    rw [isWordChar_of_isWhiteSpace hspace] at hword
    cases hword
  have hmark : c ≠ Text.byteOrderMark := by
    rintro rfl
    cases h
  simp [Text.isBlank, hspace, hmark]

/-- A text that answers as the text behind a lexeme does what the lexer asks there; or a space comes
first, which blanks and comments alone would take in; or there is nothing at all; or a numeral stands
where another one did. -/
structure Resembles (l : Lexeme) (rest' : List Char) : Prop where
  head : rest'.head? = l.rest.head? ∨
    rest'.head? = some ' ' ∧ l.kind ≠ .blank ∧ l.kind ≠ .comment ∨ rest' = [] ∨
    ∃ d d', l.rest.head? = some d ∧ rest'.head? = some d' ∧ beginsNumeral d ∧ beginsNumeral d'
  word : EndsWord l.rest → EndsWord rest'
  phrase : l.text = ['o', 'n', 'l', 'y'] → EndsWord l.rest → phraseTail? l.rest = none →
    phraseTail? rest' = none

theorem Resembles.head_imp (h : Resembles l rest') (hc : c ≠ ' ' ∧ beginsNumeral c = false)
    (hhead : rest'.head? = some c) : l.rest.head? = some c := by
  rcases h.head with heq | ⟨heq, -⟩ | rfl | ⟨_, d, -, heq, -, hd⟩
  · rwa [← heq]
  · rw [heq] at hhead
    exact absurd (Option.some.inj hhead).symm hc.1
  · cases hhead
  · rw [heq] at hhead
    rw [Option.some.inj hhead, hc.2] at hd
    cases hd

theorem scanWord_rest (h : Resembles (scanWord cs) rest') :
    scanWord ((scanWord cs).text ++ rest') = { scanWord cs with rest := rest' } := by
  cases hsplit : splitWord cs with
  | mk w r =>
      have hends : EndsWord r := by
        have hall := endsWord_splitWord cs
        rwa [hsplit] at hall
      have hplain (hnone : w = ['o', 'n', 'l', 'y'] → phraseTail? r = none)
          (hr : Resembles ⟨Kind.ofWord w, w, r⟩ rest') :
          scanWord (w ++ rest') = ⟨Kind.ofWord w, w, rest'⟩ := by
        rw [scanWord, splitWord_append_rest hsplit (hr.word hends) (hr.head_imp (by decide))]
        by_cases hw : w = ['o', 'n', 'l', 'y']
        · simp [hw, hr.phrase hw hends (hnone hw)]
        · simp [hw]
      by_cases hw : w = ['o', 'n', 'l', 'y']
      · cases htail : phraseTail? r with
        | none =>
            have hscan : scanWord cs = ⟨Kind.ofWord w, w, r⟩ := by simp [scanWord, hsplit, hw, htail]
            rw [hscan] at h ⊢
            exact hplain (fun _ => htail) h
        | some p =>
            obtain ⟨tail, r'⟩ := p
            have hscan : scanWord cs = ⟨.keyword "only once", w ++ tail, r'⟩ := by
              simp [scanWord, hsplit, hw, htail]
            rw [hscan] at h ⊢
            obtain ⟨gap, hgap, rfl, hr'⟩ := phraseTail?_eq_some htail
            have hne : gap ≠ [] := by
              rintro rfl
              rw [← phraseTail?_append htail] at hends
              exact absurd (hends 'o' rfl (by decide)).1 (by decide)
            have hhead : rest'.head?.any isWordChar = false := by
              rcases h.head with heq | ⟨heq, -⟩ | rfl | ⟨d, _, heq, -, hd, -⟩
              · rwa [heq]
              · rw [heq]
                decide
              · rfl
              · rw [heq, Option.any_some, isWordChar_of_beginsNumeral hd] at hr'
                cases hr'
            rw [hw, scanWord_phrase hgap hne hhead]
      · have hscan : scanWord cs = ⟨Kind.ofWord w, w, r⟩ := by simp [scanWord, hsplit, hw]
        rw [hscan] at h ⊢
        exact hplain (fun heq => absurd heq hw) h

theorem scanRun_append {k : Kind} {p : Char → Bool} (hw : ∀ c ∈ w, p c)
    (hends : rest.head?.any p = false) : scanRun k p (w ++ rest) = ⟨k, w, rest⟩ := by
  have hnone : rest.takeWhile p = [] ∧ rest.dropWhile p = rest := by
    cases rest with
    | nil => exact ⟨rfl, rfl⟩
    | cons c rest => exact ⟨by simpa using hends, by simpa using hends⟩
  simp [scanRun, List.takeWhile_append_of_pos hw, List.dropWhile_append_of_pos hw, hnone]

theorem any_head?_dropWhile (p : Char → Bool) (cs : List Char) :
    (cs.dropWhile p).head?.any p = false := by
  cases hdrop : cs.dropWhile p with
  | nil => rfl
  | cons c rest => simpa [hdrop] using List.head?_dropWhile_not p cs

theorem scanRun_rest {k : Kind} {p : Char → Bool} (h : Resembles (scanRun k p cs) rest')
    (hk : k = .blank ∨ k = .comment)
    (hp : ∀ d d', beginsNumeral d → beginsNumeral d' → p d = p d') :
    scanRun k p ((scanRun k p cs).text ++ rest') = { scanRun k p cs with rest := rest' } := by
  refine scanRun_append (fun c hc => List.mem_takeWhile_imp hc) ?_
  have hends : (cs.dropWhile p).head?.any p = false := any_head?_dropWhile p cs
  rcases h.head with heq | ⟨-, hblank, hcomment⟩ | rfl | ⟨d, d', heq, heq', hd, hd'⟩
  · rwa [heq]
  · rcases hk with hk | hk
    · exact absurd hk hblank
    · exact absurd hk hcomment
  · rfl
  · rw [show (cs.dropWhile p).head? = some d from heq, Option.any_some, hp d d' hd hd'] at hends
    rwa [heq', Option.any_some]

theorem splitWord_of_all (h : ∀ c ∈ w, isWordChar c ∧ c ≠ '-') : splitWord w = (w, []) := by
  induction w with
  | nil => rfl
  | cons c w ih =>
      obtain ⟨⟨hword, hne⟩, hall⟩ := List.forall_mem_cons.mp h
      rw [splitWord, ih hall]
      simp [hword, hne]

/-- A word of an `r` and number signs does not come to open a raw string: the quote is not there. -/
theorem not_opensRaw_rest (hopens : ¬opensRaw cs) {body : List Char}
    (hbody : (scanWord ('r' :: cs)).text = 'r' :: body)
    (hr : Resembles (scanWord ('r' :: cs)) rest') :
    ¬opensRaw (body ++ rest') := by
  intro hopens'
  cases hsplit : splitWord ('r' :: cs) with
  | mk w r =>
      have htext : w ++ r = 'r' :: cs := by
        have happend := splitWord_append ('r' :: cs)
        rwa [hsplit] at happend
      have hends : EndsWord r := by
        have hends := endsWord_splitWord ('r' :: cs)
        rwa [hsplit] at hends
      have hne : w ≠ ['o', 'n', 'l', 'y'] := by
        rintro rfl
        simp at htext
      have hscan : scanWord ('r' :: cs) = ⟨Kind.ofWord w, w, r⟩ := by simp [scanWord, hsplit, hne]
      rw [hscan] at hbody hr
      obtain rfl : w = 'r' :: body := hbody
      obtain ⟨signs, tail, htake, hdrop, -⟩ := opens_of_opensRaw hopens'
      have hraw := List.takeWhile_append_dropWhile (p := (· = '#')) (l := body ++ rest')
      rw [htake, hdrop] at hraw
      have hsigns : ∀ c ∈ 'r' :: List.replicate (signs + 1) '#', isWordChar c ∧ c ≠ '-' := by
        intro c hc
        rcases List.mem_cons.mp hc with rfl | hc
        · decide
        · rw [List.eq_of_mem_replicate hc]
          decide
      have hword : splitWord ('r' :: List.replicate (signs + 1) '#' ++ '"' :: tail) =
          ('r' :: List.replicate (signs + 1) '#', '"' :: tail) :=
        splitWord_append_rest (splitWord_of_all hsigns) (endsWord_cons (by decide)) (by simp)
      have hsame := splitWord_append_rest hsplit (hr.word hends) (hr.head_imp (by decide))
      rw [List.cons_append, ← hraw, ← List.cons_append, hword, Prod.mk.injEq, List.cons.injEq]
        at hsame
      obtain ⟨⟨-, rfl⟩, rfl⟩ := hsame
      obtain ⟨more, rfl⟩ := List.head?_eq_some_iff.mp (hr.head_imp (by decide) rfl)
      rw [List.cons_append, List.cons.injEq] at htext
      exact hopens (by rw [← htext.2]; simp [opensRaw, List.replicate_succ])

/-- What a text begins with is found again in front of another text that resembles the rest. -/
theorem scan_rest (h : scan cs = .lexeme l) (hr : Resembles l rest') :
    scan (l.text ++ rest') = .lexeme { l with rest := rest' } := by
  cases cs with
  | nil => cases h
  | cons c cs =>
      obtain ⟨htext, hne⟩ := scan_append h
      obtain ⟨d, body, hbody⟩ := List.exists_cons_of_ne_nil hne
      obtain ⟨rfl, hcs⟩ : d = c ∧ body ++ l.rest = cs := by simpa [hbody] using htext
      rw [hbody, List.cons_append]
      rw [scan] at h ⊢
      by_cases hblank : Text.isBlank d
      · rw [if_pos hblank] at h ⊢
        cases h
        rw [← List.cons_append, ← hbody, scanRun_rest hr (.inl rfl) fun _ _ hd hd' => by
          rw [isBlank_of_beginsNumeral hd, isBlank_of_beginsNumeral hd']]
      rw [if_neg hblank] at h ⊢
      by_cases hcomment : d = '#'
      · rw [if_pos hcomment] at h ⊢
        cases h
        have hline {c : Char} (hc : beginsNumeral c) : c ≠ '\n' := by
          rintro rfl
          cases hc
        rw [← List.cons_append, ← hbody, scanRun_rest hr (.inr rfl) fun _ _ hd hd' => by
          simp [hline hd, hline hd']]
      rw [if_neg hcomment] at h ⊢
      by_cases hraw : d = 'r' && opensRaw cs
      · rw [if_pos hraw] at h
        simp only [Bool.and_eq_true, decide_eq_true_eq] at hraw
        obtain ⟨rfl, hopens⟩ := hraw
        obtain ⟨body', hbody', hopens', hscan⟩ := scanRaw?_rest hopens (ofString_lexeme h) rest'
        obtain rfl : body' = body := by simpa [hbody] using hbody'.symm
        simp [hopens', hscan, Scan.ofString, hbody]
      rw [if_neg hraw] at h
      by_cases hquote : d = '"' || d = '\''
      · rw [if_pos hquote] at h
        have hd : IsQuote d := by simpa [IsQuote] using hquote
        have hne : d ≠ 'r' := by
          rintro rfl
          exact absurd hquote (by decide)
        obtain ⟨body', hbody', hscan⟩ := scanQuoted?_rest hd (ofString_lexeme h)
          (hr.head_imp (by rcases hd with rfl | rfl <;> decide))
        obtain rfl : body' = body := by simpa [hbody] using hbody'.symm
        rw [if_neg (by simp [hne]), if_pos hquote, hscan, hbody]
        rfl
      rw [if_neg hquote] at h
      by_cases harrow : d = '-' && cs.head? = some '>'
      · rw [if_pos harrow] at h
        cases h
        simp only [Bool.and_eq_true, decide_eq_true_eq] at harrow
        obtain ⟨rfl, -⟩ := harrow
        obtain rfl : body = ['>'] := by simpa using hbody.symm
        simp
      rw [if_neg harrow] at h
      have harrow' : ¬(d = '-' && (body ++ rest').head? = some '>') := by
        simp only [Bool.and_eq_true, decide_eq_true_eq] at harrow ⊢
        rintro ⟨rfl, hnext⟩
        refine harrow ⟨rfl, ?_⟩
        rw [← hcs]
        cases body with
        | nil => exact hr.head_imp (by decide) hnext
        | cons e body => exact hnext
      by_cases hword : isWordChar d
      · rw [if_pos hword] at h
        cases h
        have hraw' : ¬(d = 'r' && opensRaw (body ++ rest')) := by
          simp only [Bool.and_eq_true, decide_eq_true_eq] at hraw ⊢
          rintro ⟨rfl, hopens⟩
          exact not_opensRaw_rest (fun h => hraw ⟨rfl, h⟩) hbody hr hopens
        rw [if_neg hraw', if_neg hquote, if_neg harrow', if_pos hword, ← List.cons_append, ← hbody,
          scanWord_rest hr]
      rw [if_neg hword] at h
      have hne : d ≠ 'r' := by
        rintro rfl
        exact hword (by decide)
      rw [if_neg (by simp [hne]), if_neg hquote, if_neg harrow', if_neg hword]
      by_cases hcontrol : Text.isControl d
      · rw [if_pos hcontrol] at h
        cases h
      rw [if_neg hcontrol] at h ⊢
      cases hmark : Mark.ofChar? d <;> rw [hmark] at h <;> cases h <;> cases hbody <;> rfl

/-! ## Nothing behind a lexeme -/

/-- Where a text ends, no answer changes the lexeme in front. -/
theorem resembles_nil (l : Lexeme) : Resembles l [] where
  head := .inr (.inr (.inl rfl))
  word _ := by simp [EndsWord]
  phrase _ _ _ := rfl

/-- A lexeme is cut off its own text, and nothing is left. -/
theorem cut_text (h : scan cs = .lexeme l) : Cut l.text [{ l with rest := [] }] := by
  have halone := scan_rest h (resembles_nil l)
  rw [List.append_nil] at halone
  exact .cons halone .nil

end Token

namespace Lexer

variable {source : List Char} {t : Token}

/-- Tokens are stable. The text of a token that the lexer yields, also in front of a fault, is the
text of one token and no more: the same token, with what its kind holds, at the beginning. -/
theorem tokens_text (h : .ok t ∈ (ofSource source).drain.1) :
    ∃ span, Lexer.tokens t.text.toList = .ok [{ t with span := span }] := by
  obtain ⟨cs, l, hscan, hkind, htext⟩ := drainFor_scanned _ h
  refine ⟨(tokenAt .start l).span, ?_⟩
  rw [tokens_eq_ok_iff]
  refine ⟨[{ l with rest := [] }], ?_, ?_⟩
  · rw [htext, String.toList_ofList]
    exact Token.cut_text hscan
  · rw [laid_cons, laid_nil, tokenAt, hkind, htext]
    rfl

/-- The phrase over two lines, in front of a string that does not close. -/
def brokenOff : List Char :=
  "only\n once 'cut".toList

theorem tokens_text_brokenOff :
    let phrase : Token := ⟨.keyword "only once", ⟨0, 10, 1, 1⟩, "only\n once"⟩
    .ok phrase ∈ (ofSource brokenOff).drain.1 ∧
      ∃ span, Lexer.tokens "only\n once".toList = .ok [{ phrase with span := span }] := by
  have hmem : .ok ⟨.keyword "only once", ⟨0, 10, 1, 1⟩, "only\n once"⟩ ∈ (ofSource brokenOff).drain.1 := by
    decide +kernel
  exact ⟨hmem, tokens_text hmem⟩

end Lexer

end Storyworld
