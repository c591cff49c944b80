import Storyworld.Proofs.Token.Tiling

namespace Storyworld

/-! Values written as strings. A value is written on one line with escapes, over several lines
between three quotes, or raw between number signs; wherever a form can hold a value, the text is one
token with that value. -/

namespace Token

variable {quote : Char} {v rest : List Char} {signs : Nat}

/-! ## Writing -/

/-- How one character is written in a string on one line: a backslash stands in front of backslashes
and closing quotes, and a line feed is an `n` with a backslash. -/
def escapeChar (quote c : Char) : List Char :=
  if c = '\\' then ['\\', '\\']
  else if c = quote then ['\\', quote]
  else if c = '\n' then ['\\', 'n']
  else [c]

/-- A value as it is written between quotes on one line. -/
def escape (quote : Char) (v : List Char) : List Char :=
  v.flatMap (escapeChar quote)

@[simp] theorem escape_nil : escape quote [] = [] := rfl

@[simp] theorem escape_cons (c : Char) :
    escape quote (c :: v) = escapeChar quote c ++ escape quote v := rfl

namespace Delimiter

/-- A value as it is written in a form, its delimiters included. -/
def write : Delimiter → List Char → List Char
  | raw signs, v =>
    'r' :: (List.replicate signs '#' ++ '"' :: (v ++ '"' :: List.replicate signs '#'))
  | triple quote, v => [quote, quote, quote] ++ v ++ [quote, quote, quote]
  | single quote, v => quote :: (escape quote v ++ [quote])

/-- Which values a form can hold. One line holds them all; between three quotes the value must not
hold three quotes, nor run into the closing ones; and raw strings have one number sign at least and
no closing delimiter inside. -/
def CanHold : Delimiter → List Char → Prop
  | raw signs, v => 1 ≤ signs ∧ ¬ '"' :: List.replicate signs '#' <:+: v
  | triple quote, v =>
    IsQuote quote ∧ ¬[quote, quote, quote] <:+: v ∧ ¬[quote] <:+ v ∧ ¬['\\'] <:+ v
  | single quote, _ => IsQuote quote

instance (d : Delimiter) (v : List Char) : Decidable (d.CanHold v) := by
  cases d <;> unfold CanHold IsQuote <;> infer_instance

end Delimiter

/-! ## On one line -/

/-- A quote that closes a string is no part of what its value is written with. -/
theorem quoted?_escape (hquote : IsQuote quote) (v rest : List Char) :
    quoted? quote (escape quote v ++ quote :: rest) =
      some ⟨v, escape quote v ++ [quote], rest⟩ := by
  induction v with
  | nil => simp [quoted?.eq_def, hquote.ne_newline, hquote.ne_backslash]
  | cons c v ih =>
      have hunescape : unescape quote = [quote] := by
        rcases hquote with rfl | rfl <;> rfl
      rw [escape_cons, escapeChar]
      split
      · subst c
        simp [quoted?, ih, unescape, Quotation.push]
      split
      · subst c
        simp [quoted?, ih, hunescape, hquote.ne_newline, Quotation.push]
      split
      · subst c
        simp [quoted?, ih, unescape, Quotation.push]
      · rename_i hescape hclose hline
        rw [quoted?.eq_def]
        simp [hescape, hclose, hline, ih, Quotation.push]

/-- Behind its opening quote a string on one line does not go on with two more. -/
theorem not_prefix_escape (hquote : IsQuote quote) (v : List Char) :
    ¬[quote, quote] <+: escape quote v ++ [quote] := by
  cases v with
  | nil => simp
  | cons c v =>
      rw [escape_cons, escapeChar]
      split
      · simp [hquote.ne_backslash]
      split
      · simp [hquote.ne_backslash]
      split
      · simp [hquote.ne_backslash]
      · rename_i hclose _
        simp [Ne.symm hclose]

/-! ## Over several lines -/

/-- Three quotes begin no end of a text that holds none and does not end in one, save where the
closing quotes stand. -/
theorem eq_nil_of_prefix_quotes (hwithin : ¬[quote, quote, quote] <:+: v) (hlast : ¬[quote] <:+ v)
    (h : [quote, quote, quote] <+: v ++ quote :: quote :: quote :: rest) : v = [] := by
  rcases List.prefix_or_prefix_of_prefix h (List.prefix_append v _) with hp | hp
  · exact absurd hp.isInfix hwithin
  · have hall : ∀ c ∈ v, c = quote := fun c hc => by simpa using hp.subset hc
    rcases List.eq_nil_or_concat v with rfl | ⟨w, c, rfl⟩
    · rfl
    · refine absurd ?_ hlast
      rw [List.concat_eq_append, hall c (by simp)]
      exact List.suffix_append w [quote]

/-- Characters that stand for themselves up to the closing quotes. -/
theorem triple?_value (hquote : IsQuote quote) (hwithin : ¬[quote, quote, quote] <:+: v)
    (hlast : ¬[quote] <:+ v) (hescape : ¬['\\'] <:+ v) :
    triple? quote 0 (v ++ quote :: quote :: quote :: rest) =
      some ⟨v, v ++ [quote, quote, quote], rest⟩ := by
  induction v with
  | nil => simp [triple?, hquote.ne_backslash]
  | cons c v ih =>
      have hmore := ih (fun h => hwithin (h.trans (List.suffix_cons c v).isInfix))
        (fun h => hlast (h.trans (List.suffix_cons c v)))
        (fun h => hescape (h.trans (List.suffix_cons c v)))
      have hplain : ¬(c = '\\' && [quote, quote, quote].isPrefixOf
          (v ++ quote :: quote :: quote :: rest)) := by
        simp only [Bool.and_eq_true, decide_eq_true_eq, List.isPrefixOf_iff_prefix]
        rintro ⟨rfl, hp⟩
        have hv : v = [] := eq_nil_of_prefix_quotes
          (fun h => hwithin (h.trans (List.suffix_cons _ v).isInfix))
          (fun h => hlast (h.trans (List.suffix_cons _ v))) hp
        exact hescape (by simp [hv])
      have hopen : ¬(c = quote && [quote, quote].isPrefixOf
          (v ++ quote :: quote :: quote :: rest)) := by
        simp only [Bool.and_eq_true, decide_eq_true_eq, List.isPrefixOf_iff_prefix]
        rintro ⟨rfl, hp⟩
        have hthree : [c, c, c] <+: c :: v ++ c :: c :: c :: rest :=
          List.cons_prefix_cons.mpr ⟨rfl, hp⟩
        exact List.cons_ne_nil _ _ (eq_nil_of_prefix_quotes hwithin hlast hthree)
      rw [List.cons_append, triple?, if_neg hplain, if_neg hopen, hmore]
      rfl

/-! ## Raw -/

/-- The closing delimiter of a raw string begins at no place before its own, unless the value holds
it. -/
theorem not_prefix_closing (hwithin : ¬ '"' :: List.replicate signs '#' <:+: v) (hne : v ≠ []) :
    ¬ '"' :: List.replicate signs '#' <+: v ++ '"' :: (List.replicate signs '#' ++ rest) := by
  intro h
  rcases List.prefix_or_prefix_of_prefix h (List.prefix_append v _) with hp | ⟨w, hw⟩
  · exact hwithin hp.isInfix
  · obtain ⟨c, v, rfl⟩ := List.exists_cons_of_ne_nil hne
    rw [← hw, List.prefix_append_right_inj] at h
    rw [List.cons_append, List.cons.injEq] at hw
    cases w with
    | nil =>
        rw [List.append_nil] at hw
        exact hwithin (by rw [hw.1, hw.2])
    | cons d w =>
        -- What the value leaves of the delimiter are number signs, and it goes on with a quote.
        have hsign : d = '#' := List.eq_of_mem_replicate
          (show d ∈ List.replicate signs '#' by simp [← hw.2])
        have hquote : d = '"' := (List.cons_prefix_cons.mp h).1
        simp [hsign] at hquote

/-- A raw value is what stands in front of the closing delimiter. -/
theorem raw?_value (hwithin : ¬ '"' :: List.replicate signs '#' <:+: v) :
    raw? ('"' :: List.replicate signs '#') (v ++ '"' :: (List.replicate signs '#' ++ rest)) =
      some ⟨v, v ++ '"' :: List.replicate signs '#', rest⟩ := by
  induction v with
  | nil => simp [raw?]
  | cons c v ih =>
      have hmore := ih (fun h => hwithin (h.trans (List.suffix_cons c v).isInfix))
      have hclose : ¬('"' :: List.replicate signs '#').isPrefixOf
          (c :: (v ++ '"' :: (List.replicate signs '#' ++ rest))) := by
        rw [List.isPrefixOf_iff_prefix, ← List.cons_append]
        exact not_prefix_closing hwithin (List.cons_ne_nil c v)
      rw [List.cons_append, raw?, if_neg hclose, hmore]
      rfl

/-! ## Written values are read back -/

theorem scanQuoted?_single (hquote : IsQuote quote) (v : List Char) :
    scanQuoted? quote (escape quote v ++ [quote]) =
      some ⟨.string (String.ofList v), Delimiter.write (.single quote) v, []⟩ := by
  have hone : ¬[quote, quote].isPrefixOf (escape quote v ++ [quote]) := by
    rw [List.isPrefixOf_iff_prefix]
    exact not_prefix_escape hquote v
  rw [scanQuoted?, if_neg hone, quoted?_escape hquote]
  rfl

theorem scanQuoted?_triple (h : Delimiter.CanHold (.triple quote) v) :
    scanQuoted? quote ([quote, quote] ++ v ++ [quote, quote, quote]) =
      some ⟨.string (String.ofList v), Delimiter.write (.triple quote) v, []⟩ := by
  obtain ⟨hquote, hwithin, hlast, hescape⟩ := h
  have hthree : [quote, quote].isPrefixOf ([quote, quote] ++ v ++ [quote, quote, quote]) := by simp
  rw [scanQuoted?, if_pos hthree]
  simp [triple?_value hquote hwithin hlast hescape, Quotation.lexeme, Delimiter.write]

theorem scanRaw?_raw (h : Delimiter.CanHold (.raw signs) v) :
    scanRaw? (List.replicate signs '#' ++ '"' :: (v ++ '"' :: List.replicate signs '#')) =
      some ⟨.string (String.ofList v), Delimiter.write (.raw signs) v, []⟩ := by
  have hfound : raw? ('"' :: List.replicate signs '#')
      (v ++ '"' :: (List.replicate signs '#' ++ [])) =
        some ⟨v, v ++ '"' :: List.replicate signs '#', []⟩ := raw?_value h.2
  rw [List.append_nil] at hfound
  simp [scanRaw?, hfound, Quotation.lexeme, Delimiter.write]

theorem opensRaw_raw (hsigns : 1 ≤ signs) (body : List Char) :
    opensRaw (List.replicate signs '#' ++ '"' :: body) := by
  obtain ⟨more, rfl⟩ := Nat.exists_eq_add_of_le' hsigns
  simp [opensRaw, List.replicate_succ]

/-- What is written in a form that can hold it is one lexeme with that value. -/
theorem scan_write {d : Delimiter} (h : d.CanHold v) :
    scan (d.write v) = .lexeme ⟨.string (String.ofList v), d.write v, []⟩ := by
  cases d with
  | raw signs =>
      rw [Delimiter.write, scan_raw (opensRaw_raw h.1 _), scanRaw?_raw h]
      rfl
  | triple quote =>
      change scan (quote :: ([quote, quote] ++ v ++ [quote, quote, quote])) = _
      rw [scan_quote h.1, scanQuoted?_triple h]
      rfl
  | single quote =>
      rw [Delimiter.write, scan_quote h, scanQuoted?_single h v]
      rfl

end Token

namespace Lexer

open Token

/-- In whatever form a value is written, as long as the form can hold it, the text is a single token:
a string of that value, which covers the text. One line holds every value, between double and
between single quotes. -/
theorem tokens_write (v : String) (d : Delimiter) (h : d.CanHold v.toList) :
    Lexer.tokens (d.write v.toList) =
      .ok [tokenAt .start ⟨.string v, d.write v.toList, []⟩] := by
  refine tokens_eq_ok_iff.mpr ⟨[⟨.string v, d.write v.toList, []⟩], .cons ?_ .nil, rfl⟩
  rw [scan_write h, String.ofList_toList]

/-- Quotes of both kinds, a backslash, a line feed and the beginning of a raw string's delimiter. -/
def mixedValue : String :=
  "\"'\\ ''\n\"#."

/-- Each form holds that value, the raw one with two number signs. -/
theorem tokens_write_mixedValue :
    let value := mixedValue.toList
    let forms := [Delimiter.single '"', .single '\'', .triple '"', .triple '\'', .raw 2]
    (∀ d ∈ forms, d.CanHold value) ∧ ∀ d ∈ forms, Lexer.tokens (d.write value) =
      .ok [tokenAt .start ⟨.string mixedValue, d.write value, []⟩] := by
  have hforms : ∀ d ∈ [Delimiter.single '"', .single '\'', .triple '"', .triple '\'', .raw 2],
      d.CanHold mixedValue.toList := by decide
  exact ⟨hforms, fun d hd => tokens_write mixedValue d (hforms d hd)⟩

end Lexer

end Storyworld
