import Mathlib.Data.Nat.Digits.Defs
import Storyworld.Proofs.Document.Spacing
import Storyworld.Proofs.Spelling.Piece

namespace Storyworld

/-! Numerals in a source. A numeral may be put in the place of another one that takes as many
characters: it is a token again, and the tokens around it stay as they are. -/

/-! ## Decimals -/

/-- A whole number as it is written: decimal digits, with any number of zeros in front, behind a
hyphen if it is negative. -/
structure Decimal where
  negative : Bool
  digits : List (Fin 10)
  nonempty : digits ≠ []
deriving DecidableEq, Repr

namespace Decimal

def value (x : Decimal) : Int :=
  let magnitude : Nat := Nat.ofDigits 10 (x.digits.reverse.map Fin.val)
  if x.negative then -magnitude else magnitude

def digitChars (ds : List (Fin 10)) : List Char :=
  ds.map fun d => d.val.digitChar

def chars (x : Decimal) : List Char :=
  if x.negative then '-' :: digitChars x.digits else digitChars x.digits

def text (x : Decimal) : String :=
  String.ofList x.chars

variable {x : Decimal} {ds : List (Fin 10)} {c : Char}

theorem isDigit_of_mem (h : c ∈ digitChars ds) : c.isDigit := by
  obtain ⟨d, -, rfl⟩ := List.mem_map.mp h
  simp [Nat.isDigit_digitChar]

theorem digitChars_ne_nil (h : ds ≠ []) : digitChars ds ≠ [] := by
  simpa [digitChars] using h

/-- Digits in front of which there is no sign. -/
theorem exists_digit (x : Decimal) : ∃ c cs, digitChars x.digits = c :: cs ∧ c.isDigit := by
  obtain ⟨c, cs, hcs⟩ := List.exists_cons_of_ne_nil (digitChars_ne_nil x.nonempty)
  have hmem : c ∈ digitChars x.digits := by simp [hcs]
  exact ⟨c, cs, hcs, isDigit_of_mem hmem⟩

theorem isNumeral_chars (x : Decimal) : Token.isNumeral x.chars := by
  obtain ⟨c, cs, hcs, hc⟩ := x.exists_digit
  have hall : (digitChars x.digits).all Char.isDigit := List.all_eq_true.mpr fun _ => isDigit_of_mem
  unfold chars
  split
  · simpa [Token.isNumeral, hcs] using hall
  · rw [hcs] at hall ⊢
    unfold Token.isNumeral
    split
    · rename_i heq
      cases heq
      cases hc
    · simpa using hall

section

open Text.Integer

theorem natural?_digitChars (hne : ds ≠ []) :
    natural? (digitChars ds) = some (Nat.ofDigits 10 (ds.reverse.map Fin.val)) := by
  have hdigits : digits? 0 (digitChars ds) = some (Nat.ofDigits 10 (ds.reverse.map Fin.val)) := by
    clear hne
    induction ds using List.reverseRecOn with
    | nil => rfl
    | append_singleton ds d ih =>
        have hchars : digitChars (ds ++ [d]) = digitChars ds ++ [d.val.digitChar] := List.map_append
        rw [hchars, digits?_append _ ih, digits?_digitChar _ d.isLt, List.reverse_append,
          List.reverse_singleton, List.singleton_append, List.map_cons, Nat.ofDigits_cons]
        congr 1
        omega
  rw [natural?, if_neg (by simpa using digitChars_ne_nil hne), hdigits]

/-- A decimal is read as the number it is. -/
theorem read?_chars (x : Decimal) : Text.Integer.read? x.chars = some x.value := by
  obtain ⟨c, cs, hcs, hc⟩ := x.exists_digit
  unfold chars value
  cases x.negative with
  | true =>
      rw [if_pos rfl, if_pos rfl, Text.Integer.read?, natural?_digitChars x.nonempty]
      rfl
  | false =>
      have hunsigned : Text.Integer.read? (digitChars x.digits) =
          (natural? (digitChars x.digits)).map fun n => (n : Int) := by
        rw [hcs]
        unfold Text.Integer.read?
        split <;> rename_i heq
        · cases heq
          cases hc
        · cases heq
          cases hc
        · rfl
      rw [if_neg Bool.false_ne_true, if_neg Bool.false_ne_true, hunsigned,
        natural?_digitChars x.nonempty]
      rfl

end

end Decimal

/-! ## Scanning numerals -/

namespace Token

variable {w rest : List Char} {l : Lexeme} {ls ms : List Lexeme} {c : Char}

/-- A hyphen is followed by digits. -/
theorem isNumeral_cases (h : isNumeral w) :
    (∃ c cs, w = c :: cs ∧ c.isDigit ∧ ∀ d ∈ cs, d.isDigit) ∨
      ∃ c cs, w = '-' :: c :: cs ∧ c.isDigit ∧ ∀ d ∈ cs, d.isDigit := by
  have hdigits {cs : List Char} (h : (!cs.isEmpty && cs.all Char.isDigit) = true) :
      ∃ c ds, cs = c :: ds ∧ c.isDigit ∧ ∀ d ∈ ds, d.isDigit := by
    cases cs with
    | nil => cases h
    | cons c ds => exact ⟨c, ds, rfl, by simpa using h⟩
  unfold isNumeral at h
  split at h
  · obtain ⟨c, ds, rfl, hall⟩ := hdigits h
    exact .inr ⟨c, ds, rfl, hall⟩
  · exact .inl (hdigits h)

theorem exists_beginsNumeral (h : isNumeral w) : ∃ c cs, w = c :: cs ∧ beginsNumeral c := by
  rcases isNumeral_cases h with ⟨c, cs, rfl, hc, -⟩ | ⟨c, cs, rfl, -⟩
  · exact ⟨c, cs, rfl, by simp [beginsNumeral, hc]⟩
  · exact ⟨'-', c :: cs, rfl, rfl⟩

/-- No word ends in front of a numeral. -/
theorem not_endsWord_numeral (h : isNumeral w) : ¬EndsWord (w ++ rest) := by
  intro hends
  rcases isNumeral_cases h with ⟨c, cs, rfl, hc, -⟩ | ⟨c, cs, rfl, hc, -⟩
  · have hword : isWordChar c := isWordChar_of_beginsNumeral (by simp [beginsNumeral, hc])
    obtain ⟨rfl, -⟩ := hends c rfl hword
    cases hc
  · obtain ⟨-, hnext⟩ := hends '-' rfl rfl
    obtain rfl : c = '>' := by simpa using hnext
    cases hc

theorem splitWord_digits (h : ∀ c ∈ w, c.isDigit) (hends : EndsWord rest) :
    splitWord (w ++ rest) = (w, rest) := by
  induction w with
  | nil => exact splitWord_of_endsWord hends
  | cons c w ih =>
      obtain ⟨hc, hw⟩ := List.forall_mem_cons.mp h
      have hword : isWordChar c := isWordChar_of_beginsNumeral (by simp [beginsNumeral, hc])
      have hne : c ≠ '-' := by
        rintro rfl
        cases hc
      rw [List.cons_append, splitWord, ih hw, if_pos (by simp [hword, hne])]

theorem splitWord_numeral (h : isNumeral w) (hends : EndsWord rest) :
    splitWord (w ++ rest) = (w, rest) := by
  rcases isNumeral_cases h with ⟨c, cs, rfl, hall⟩ | ⟨c, cs, rfl, hall⟩
  · exact splitWord_digits (List.forall_mem_cons.mpr hall) hends
  · have hdigits := splitWord_digits (List.forall_mem_cons.mpr hall) hends
    have hne : c ≠ '>' := by
      rintro rfl
      cases hall.1
    rw [List.cons_append, splitWord, hdigits, if_pos]
    simp [hne]
    rfl

theorem scan_numeral (h : isNumeral w) : scan (w ++ rest) = .lexeme (scanWord (w ++ rest)) := by
  have hfirst {c : Char} {cs : List Char} (hc : beginsNumeral c)
      (harrow : c = '-' → cs.head? ≠ some '>') : scan (c :: cs) = .lexeme (scanWord (c :: cs)) := by
    have hne {d : Char} (hd : beginsNumeral d = false) : c ≠ d := by
      rintro rfl
      rw [hd] at hc
      cases hc
    rw [scan, if_neg (by simp [isBlank_of_beginsNumeral hc]), if_neg (hne rfl),
      if_neg (by simp [hne (d := 'r') rfl]),
      if_neg (by simp [hne (d := '"') rfl, hne (d := '\'') rfl]), if_neg (by simpa using harrow),
      if_pos (isWordChar_of_beginsNumeral hc)]
  rcases isNumeral_cases h with ⟨c, cs, rfl, hc, -⟩ | ⟨c, cs, rfl, hc, -⟩
  · refine hfirst (by simp [beginsNumeral, hc]) ?_
    rintro rfl
    cases hc
  · refine hfirst rfl fun _ heq => ?_
    obtain rfl : c = '>' := by simpa using heq
    cases hc

/-- A lexeme that is a numeral ends where words do. -/
theorem endsWord_of_numeral (h : isNumeral l.text) (hscan : scan (l.text ++ rest) = .lexeme l) :
    EndsWord l.rest ∧ l.kind = .number := by
  obtain ⟨c, cs, htext, hc⟩ := exists_beginsNumeral h
  rw [scan_numeral h, Scan.lexeme.injEq] at hscan
  have hends := endsWord_splitWord (l.text ++ rest)
  unfold scanWord at hscan
  generalize splitWord (l.text ++ rest) = p at hscan hends
  obtain ⟨word, behind⟩ := p
  dsimp only at hscan hends
  split at hscan
  · -- The word `only` is no numeral.
    rename_i honly
    have hletter : l.text.head? = some 'o' := by
      split at hscan <;> rw [← hscan, honly] <;> rfl
    rw [htext] at hletter
    cases hletter
    cases hc
  · subst hscan
    exact ⟨hends, by simp [Kind.ofWord, h]⟩

/-- Another numeral is a lexeme in the same place. -/
theorem scan_of_numeral (h : isNumeral w) (hends : EndsWord rest) :
    scan (w ++ rest) = .lexeme ⟨.number, w, rest⟩ := by
  obtain ⟨c, cs, hw, hc⟩ := exists_beginsNumeral h
  have honly : w ≠ ['o', 'n', 'l', 'y'] := by
    rintro rfl
    cases h
  rw [scan_numeral h, scanWord, splitWord_numeral h hends]
  simp [honly, Kind.ofWord, h]

/-! ## Exchanging numerals -/

open Lexeme

variable {a b v : List Char}

/-- There is no numeral in the phrase, and it does not end in front of one. -/
theorem phraseTail?_exchange (hv : isNumeral v) (hw : isNumeral w)
    (h : phraseTail? (a ++ (v ++ b)) = none) : phraseTail? (a ++ (w ++ b)) = none := by
  obtain ⟨c, v, rfl, hc⟩ := exists_beginsNumeral hv
  obtain ⟨d, w, rfl, hd⟩ := exists_beginsNumeral hw
  have hword : isWordChar d := isWordChar_of_beginsNumeral hd
  refine Option.eq_none_iff_forall_ne_some.mpr fun ⟨tail, rest⟩ hsome => ?_
  obtain ⟨gap, hgap, rfl, hrest⟩ := phraseTail?_eq_some hsome
  rcases List.append_eq_append_iff.mp (phraseTail?_append hsome) with
    ⟨_ | ⟨e, more⟩, rfl, rfl⟩ | ⟨_ | ⟨e, more⟩, htail, heq⟩
  · simp [hword] at hrest
  · have hphrase : phraseTail? (gap ++ ['o', 'n', 'c', 'e'] ++ (e :: more ++ (c :: v ++ b))) = _ :=
      phraseTail?_gap hgap (by simpa using hrest)
    rw [List.append_assoc, hphrase] at h
    cases h
  · rw [List.nil_append] at heq
    rw [← heq] at hrest
    simp [hword] at hrest
  · obtain rfl : d = e := (List.cons.inj heq).1
    have hmem : d ∈ gap ++ ['o', 'n', 'c', 'e'] := by simp [htail]
    rcases List.mem_append.mp hmem with hmem | hmem
    · rw [isWordChar_of_isWhiteSpace (hgap d hmem)] at hword
      cases hword
    · have hletters : ∀ e ∈ ['o', 'n', 'c', 'e'], beginsNumeral e = false := by simp [beginsNumeral]
      rw [hletters d hmem] at hd
      cases hd

theorem endsWord_exchange (hv : isNumeral v) (hends : EndsWord (a ++ (v ++ b))) :
    EndsWord (a ++ (w ++ b)) := by
  rcases a with _ | ⟨c, _ | ⟨d, a⟩⟩
  · exact absurd hends (not_endsWord_numeral (w := v) hv)
  · obtain ⟨d, v, rfl, hd⟩ := exists_beginsNumeral hv
    intro e he hword
    obtain rfl : c = e := Option.some.inj he
    obtain ⟨-, hnext⟩ := hends c rfl hword
    obtain rfl : d = '>' := Option.some.inj hnext
    cases hd
  · exact hends

/-- What stands in front of a numeral is cut as it is in front of another one. -/
theorem Resembles.exchange (hv : isNumeral v) (hw : isNumeral w) (hrest : l.rest = a ++ (v ++ b)) :
    Resembles l (a ++ (w ++ b)) := by
  refine ⟨?_, ?_, ?_⟩ <;> rw [hrest]
  · cases a with
    | nil =>
        obtain ⟨c, v, rfl, hc⟩ := exists_beginsNumeral hv
        obtain ⟨d, w, rfl, hd⟩ := exists_beginsNumeral hw
        exact .inr (.inr (.inr ⟨c, d, rfl, rfl, hc, hd⟩))
    | cons c a => exact .inl rfl
  · exact endsWord_exchange hv
  · exact fun _ _ => phraseTail?_exchange hv hw

/-- A text with another numeral in it is cut in the same places. -/
theorem Cut.exchange (h : Cut (chars ls ++ (l.text ++ b)) (ls ++ l :: ms)) (hl : isNumeral l.text)
    (hw : isNumeral w) : l.kind = .number ∧ ∃ ls', Cut (chars ls ++ (w ++ b)) (ls' ++ ⟨.number, w, b⟩ :: ms) ∧
      ls'.map (fun k => (k.kind, k.text)) = ls.map fun k => (k.kind, k.text) := by
  induction ls with
  | nil =>
      obtain ⟨hscan, hcut⟩ := cut_cons_iff.mp h
      obtain ⟨hends, hkind⟩ := endsWord_of_numeral hl hscan
      have hb : l.rest = b := by simpa using (scan_append hscan).1
      rw [hb] at hends hcut
      exact ⟨hkind, [], .cons (scan_of_numeral hw hends) hcut, rfl⟩
  | cons k ls ih =>
      rw [List.cons_append] at h
      obtain ⟨hscan, -⟩ := cut_cons_iff.mp h
      obtain ⟨hrest, hcut⟩ := h.tail
      obtain ⟨hkind, ls', hcut', hsame⟩ := ih hcut
      refine ⟨hkind, { k with rest := chars ls ++ (w ++ b) } :: ls', ?_, by simp [hsame]⟩
      rw [chars_cons, List.append_assoc]
      exact .cons (scan_rest hscan (.exchange hl hw hrest)) hcut'

theorem isNumeral_of_ofWord (h : Kind.ofWord w = .number) : isNumeral w := by
  unfold Kind.ofWord at h
  simp only at h
  split at h
  · assumption
  split at h
  · cases h
  split at h
  · cases h
  split at h <;> cases h

/-- Numbers are numerals. -/
theorem isNumeral_of_scan {cs : List Char} (h : scan cs = .lexeme l) (hk : l.kind = .number) :
    isNumeral l.text := by
  obtain rfl := scan_word h (.inr (.inr (.inl hk)))
  unfold scanWord at hk ⊢
  dsimp only at hk ⊢
  split at hk
  · rename_i honly
    rw [honly] at hk ⊢
    split at hk <;> cases hk
  · rename_i hother
    rw [if_neg hother]
    exact isNumeral_of_ofWord hk

/-! ## Places -/

theorem beginsNumeral_of_mem {c : Char} (h : isNumeral w) (hc : c ∈ w) : beginsNumeral c := by
  rcases isNumeral_cases h with ⟨d, cs, rfl, hd, hcs⟩ | ⟨d, cs, rfl, hd, hcs⟩
  · have hdigit : c.isDigit :=
      (List.forall_mem_cons (p := fun c => c.isDigit = true)).mpr ⟨hd, hcs⟩ c hc
    simp [beginsNumeral, hdigit]
  · rcases List.mem_cons.mp hc with rfl | hc
    · rfl
    · have hdigit : c.isDigit :=
        (List.forall_mem_cons (p := fun c => c.isDigit = true)).mpr ⟨hd, hcs⟩ c hc
      simp [beginsNumeral, hdigit]

theorem utf8Size_of_beginsNumeral {c : Char} (h : beginsNumeral c) : c.utf8Size = 1 := by
  simp only [beginsNumeral, Bool.or_eq_true, decide_eq_true_eq] at h
  rcases h with hdigit | rfl
  · obtain ⟨-, hnine⟩ := Char.isDigit_iff_toNat.mp hdigit
    have hascii : c.val ≤ 0x7f := UInt32.le_iff_toNat_le.mpr (Nat.le_trans hnine (by decide))
    exact if_pos hascii
  · rfl

end Token

/-- A numeral goes on in its line, a byte for each character. -/
theorem Place.after_of_numeral (p : Place) {w : List Char} (h : ∀ c ∈ w, Token.beginsNumeral c) :
    p.after w = ⟨p.offset + w.length, p.line, p.column + w.length⟩ := by
  induction w generalizing p with
  | nil => rfl
  | cons c w ih =>
      obtain ⟨hc, hw⟩ := List.forall_mem_cons.mp h
      have hne : c ≠ '\n' := by
        rintro rfl
        cases hc
      have hnext : p.next c = ⟨p.offset + 1, p.line, p.column + 1⟩ := by
        rw [next, if_neg hne, Token.utf8Size_of_beginsNumeral hc]
      rw [after, List.foldl_cons, hnext, ← after, ih _ hw, List.length_cons]
      simp only [Nat.add_assoc, Nat.add_comm 1]

namespace Lexer

open Token Token.Lexeme

variable {source w : List Char} {before after tokens : List Token} {t : Token}

/-- Where lexemes are laid does not depend on what was behind them. -/
theorem laid_congr {ls ms : List Lexeme} (p : Place)
    (h : ls.map (fun k => (k.kind, k.text)) = ms.map fun k => (k.kind, k.text)) :
    laid p ls = laid p ms ∧ chars ls = chars ms := by
  induction ls generalizing p ms with
  | nil => cases ms <;> simp_all
  | cons l ls ih =>
      cases ms with
      | nil => cases h
      | cons m ms =>
          rw [List.map_cons, List.map_cons, List.cons.injEq, Prod.mk.injEq] at h
          obtain ⟨⟨hkind, htext⟩, hrest⟩ := h
          obtain ⟨hlaid, hchars⟩ := ih (p.after m.text) hrest
          simp [tokenAt, hkind, htext, hlaid, hchars]

/-- Another numeral that takes as many characters is a token in the same place. -/
theorem tokens_exchange (h : Lexer.tokens source = .ok (before ++ t :: after)) (ht : t.kind = .number)
    (hw : isNumeral w) (hlength : w.length = t.text.toList.length) :
    Lexer.tokens (texts before ++ (w ++ texts after)) =
      .ok (before ++ { t with text := String.ofList w } :: after) := by
  obtain ⟨ks, hcut, hlaid⟩ := tokens_eq_ok_iff.mp h
  obtain ⟨ls, ks, rfl, rfl, hrest⟩ := exists_of_laid_eq_append hlaid.symm
  obtain ⟨l, ms, rfl, rfl, rfl⟩ := exists_of_laid_eq_cons hrest.symm
  have hl : isNumeral l.text := isNumeral_of_scan (cut_cons_iff.mp hcut.of_append).1 ht
  have hlength : w.length = l.text.length := by simpa [tokenAt] using hlength
  have hsource : source = chars ls ++ (l.text ++ chars ms) := by
    rw [← hcut.chars_eq, chars_append, chars_cons]
  rw [hsource] at hcut
  obtain ⟨hkind, ls', hcut', hsame⟩ := hcut.exchange hl hw
  have hplace (p : Place) : p.after w = p.after l.text := by
    rw [p.after_of_numeral fun _ => beginsNumeral_of_mem hw,
      p.after_of_numeral fun _ => beginsNumeral_of_mem hl, hlength]
  rw [texts_laid, texts_laid]
  refine tokens_eq_ok_iff.mpr ⟨_, hcut', ?_⟩
  obtain ⟨hlaid', hchars⟩ := laid_congr .start hsame
  rw [laid_append, hlaid', hchars, laid_cons, hplace]
  simp only [tokenAt, hplace, hkind]

end Lexer

end Storyworld
