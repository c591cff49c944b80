import Mathlib.Data.List.Infix
import Storyworld.Proofs.Token.Word

namespace Storyworld.Token

/-! When a string closes. The delimiters of the three forms are told here without reading a text from
its beginning to the first of them; a string is unclosed exactly where none is to be found. The last
section says where a control character can be part of a token. -/

/-! ## Delimiters -/

/-- The forms of a string: raw with its number signs, over several lines, and on one line. -/
inductive Delimiter where
  | raw (signs : Nat)
  | triple (quote : Char)
  | single (quote : Char)
deriving DecidableEq, Repr

/-- The two characters that open strings. -/
def IsQuote (c : Char) : Prop :=
  c = '"' ∨ c = '\''

/-- A text, the form of the string it begins with, and what stands behind the opening delimiter.
Three quotes are never the opening of a string on one line. -/
inductive Opens : Delimiter → List Char → List Char → Prop where
  | raw (signs : Nat) (body : List Char) :
      Opens (.raw (signs + 1)) ('r' :: '#' :: (List.replicate signs '#' ++ '"' :: body)) body
  | triple {quote : Char} (h : IsQuote quote) (body : List Char) :
      Opens (.triple quote) (quote :: quote :: quote :: body) body
  | single {quote : Char} (h : IsQuote quote) {body : List Char}
      (hbody : ¬[quote, quote] <+: body) : Opens (.single quote) (quote :: body) body

/-- A closing quote stands on the line on which the text begins. A backslash takes the next
character with it, the line feed excepted. -/
inductive ClosesOnLine (quote : Char) : List Char → Prop where
  | close (rest : List Char) : ClosesOnLine quote (quote :: rest)
  | escape {e : Char} {cs : List Char} (he : e ≠ '\n') (h : ClosesOnLine quote cs) :
      ClosesOnLine quote ('\\' :: e :: cs)
  | plain {c : Char} {cs : List Char} (hline : c ≠ '\n') (hescape : c ≠ '\\')
      (h : ClosesOnLine quote cs) : ClosesOnLine quote (c :: cs)

/-- Three closing quotes stand in the text. A backslash in front of three quotes takes them with
it, any other backslash is a character like others. -/
inductive ClosesTriple (quote : Char) : List Char → Prop where
  | close (rest : List Char) : ClosesTriple quote (quote :: quote :: quote :: rest)
  | escape {cs : List Char} (h : ClosesTriple quote cs) :
      ClosesTriple quote ('\\' :: quote :: quote :: quote :: cs)
  | plain {c : Char} {cs : List Char}
      (hescape : ¬(c = '\\' ∧ [quote, quote, quote] <+: cs)) (h : ClosesTriple quote cs) :
      ClosesTriple quote (c :: cs)

/-- A closing delimiter stands behind an opening one. -/
def Delimiter.Closes : Delimiter → List Char → Prop
  | .raw signs, body => '"' :: List.replicate signs '#' <:+: body
  | .triple quote, body => ClosesTriple quote body
  | .single quote, body => ClosesOnLine quote body

/-! ## Closed strings are found -/

variable {cs body rest : List Char} {c quote : Char} {l : Lexeme}

theorem IsQuote.ne_backslash (h : IsQuote quote) : quote ≠ '\\' := by
  rcases h with rfl | rfl <;> decide

theorem IsQuote.ne_newline (h : IsQuote quote) : quote ≠ '\n' := by
  rcases h with rfl | rfl <;> decide

theorem isSome_quoted? (hquote : IsQuote quote) (h : ClosesOnLine quote cs) :
    (quoted? quote cs).isSome := by
  induction h with
  | close rest => simp [quoted?.eq_def, hquote.ne_newline, hquote.ne_backslash]
  | escape he h ih =>
      rw [quoted?.eq_def]
      simpa [he] using ih
  | @plain c cs hline hescape h ih =>
      by_cases hc : c = quote
      · simp [quoted?.eq_def, hc, hquote.ne_newline, hquote.ne_backslash]
      · rw [quoted?.eq_def]
        simpa [hline, hescape, hc] using ih

/-- Characters that stand for themselves are skipped. -/
theorem isSome_triple?_append (literal : List Char) :
    (triple? quote literal.length (literal ++ cs)).isSome = (triple? quote 0 cs).isSome := by
  induction literal with
  | nil => rfl
  | cons c literal ih => simpa [triple?] using ih

theorem isSome_triple? (hquote : IsQuote quote) (h : ClosesTriple quote cs) :
    (triple? quote 0 cs).isSome := by
  induction h with
  | close rest => simp [triple?, hquote.ne_backslash]
  | @escape cs h ih =>
      have hskip : (triple? quote 3 ([quote, quote, quote] ++ cs)).isSome =
          (triple? quote 0 cs).isSome := isSome_triple?_append [quote, quote, quote]
      rw [triple?, if_pos (by simp), Option.isSome_map]
      exact hskip.trans ih
  | @plain c cs hescape h ih =>
      have hescape' : ¬(c = '\\' && [quote, quote, quote].isPrefixOf cs) := by simpa using hescape
      rw [triple?, if_neg hescape']
      by_cases hclose : (c = quote && [quote, quote].isPrefixOf cs) = true
      · rw [if_pos hclose]
        rfl
      · rw [if_neg hclose]
        simpa using ih

theorem isSome_raw? {close : List Char} (hne : close ≠ []) (h : close <:+: cs) :
    (raw? close cs).isSome := by
  induction cs with
  | nil => exact absurd (List.infix_nil.mp h) hne
  | cons c cs ih =>
      rw [raw?]
      by_cases hclose : close.isPrefixOf (c :: cs)
      · simp [hclose]
      · rw [if_neg hclose]
        rcases List.infix_cons_iff.mp h with h | h
        · exact absurd (List.isPrefixOf_iff_prefix.mpr h) hclose
        · simpa using ih h

/-! ## Unclosed strings -/

theorem opens_of_opensRaw (h : opensRaw cs) : ∃ signs body,
    cs.takeWhile (· = '#') = List.replicate (signs + 1) '#' ∧
      cs.dropWhile (· = '#') = '"' :: body ∧ Opens (.raw (signs + 1)) ('r' :: cs) body := by
  simp only [opensRaw, Bool.and_eq_true, decide_eq_true_eq] at h
  obtain ⟨tail, rfl⟩ := List.head?_eq_some_iff.mp h.1
  obtain ⟨body, hbody⟩ := List.head?_eq_some_iff.mp h.2
  obtain ⟨signs, hsigns⟩ : ∃ signs, tail.takeWhile (· = '#') = List.replicate signs '#' := by
    refine ⟨_, List.eq_replicate_of_mem fun c hc => ?_⟩
    simpa using List.mem_takeWhile_imp hc
  have hsplit := List.takeWhile_append_dropWhile (p := (· = '#')) (l := tail)
  have hdrop : tail.dropWhile (· = '#') = '"' :: body := by simpa using hbody
  refine ⟨signs, body, ?_, hbody, ?_⟩
  · rw [List.takeWhile_cons_of_pos (by simp), List.replicate_succ, hsigns]
  · rw [← hsplit, hdrop, hsigns]
    exact .raw _ body

theorem scanRaw?_none (hopens : opensRaw cs) (h : scanRaw? cs = none) :
    ∃ d body, Opens d ('r' :: cs) body ∧ ¬d.Closes body := by
  obtain ⟨signs, body, htake, hdrop, hopen⟩ := opens_of_opensRaw hopens
  refine ⟨_, body, hopen, fun hclose => ?_⟩
  have hfound := isSome_raw? (List.cons_ne_nil _ _) hclose
  rw [scanRaw?, Option.map_eq_none_iff, htake, hdrop] at h
  exact absurd hfound (Option.not_isSome_iff_eq_none.mpr h)

theorem scanQuoted?_none (hquote : IsQuote quote) (h : scanQuoted? quote cs = none) :
    ∃ d body, Opens d (quote :: cs) body ∧ ¬d.Closes body := by
  rw [scanQuoted?] at h
  by_cases htriple : [quote, quote].isPrefixOf cs
  · obtain ⟨body, rfl⟩ := List.isPrefixOf_iff_prefix.mp htriple
    refine ⟨_, body, .triple hquote body, fun hclose => ?_⟩
    have hfound := isSome_triple? hquote hclose
    rw [if_pos htriple, Option.map_eq_none_iff] at h
    exact absurd hfound (Option.not_isSome_iff_eq_none.mpr h)
  · rw [if_neg htriple, Option.map_eq_none_iff] at h
    refine ⟨_, cs, .single hquote (fun hp => htriple (List.isPrefixOf_iff_prefix.mpr hp)), ?_⟩
    intro hclose
    have hfound := isSome_quoted? hquote hclose
    exact absurd hfound (Option.not_isSome_iff_eq_none.mpr h)

theorem ofString_unclosed {l? : Option Lexeme} (h : Scan.ofString l? = .unclosed) : l? = none := by
  cases l? with
  | none => rfl
  | some l => cases h

/-- A string that is found unclosed has an opening delimiter and no closing one. -/
theorem scan_unclosed_opens (h : scan cs = .unclosed) :
    ∃ d body, Opens d cs body ∧ ¬d.Closes body := by
  cases cs with
  | nil => cases h
  | cons c cs =>
      rw [scan] at h
      split at h
      · cases h
      split at h
      · cases h
      split at h
      · rename_i hraw
        simp only [Bool.and_eq_true, decide_eq_true_eq] at hraw
        obtain ⟨rfl, hopens⟩ := hraw
        exact scanRaw?_none hopens (ofString_unclosed h)
      split at h
      · rename_i hquote
        exact scanQuoted?_none (by simpa [IsQuote] using hquote) (ofString_unclosed h)
      split at h
      · cases h
      split at h
      · cases h
      split at h
      · cases h
      split at h <;> cases h

/-! ## Control characters -/

theorem not_isControl_of_isWordChar (h : isWordChar c) : ¬Text.isControl c := by
  rcases c with ⟨n, hn⟩
  simp only [isWordChar, isAsciiAlphanumeric, Text.isControl, Char.le_def, Char.ext_iff,
    Bool.or_eq_true, Bool.and_eq_true, decide_eq_true_eq, UInt32.le_iff_toNat_le, Char.toNat,
    UInt32.ext_iff] at h ⊢
  simp at h ⊢
  omega

/-- Whether every control character of a text is a blank. -/
def OnlyBlankControls (cs : List Char) : Prop :=
  ∀ c ∈ cs, Text.isControl c → Text.isBlank c

theorem onlyBlankControls_word (h : body.all isWordChar) : OnlyBlankControls body := by
  intro c hc hcontrol
  exact absurd hcontrol (not_isControl_of_isWordChar (List.all_eq_true.mp h c hc))

theorem OnlyBlankControls.append {cs' : List Char} (h : OnlyBlankControls cs)
    (h' : OnlyBlankControls cs') : OnlyBlankControls (cs ++ cs') := by
  intro c hc
  rcases List.mem_append.mp hc with hc | hc
  · exact h c hc
  · exact h' c hc

theorem onlyBlankControls_phraseTail? {tail : List Char} (h : phraseTail? cs = some (tail, rest)) :
    OnlyBlankControls tail := by
  unfold phraseTail? at h
  simp only at h
  split at h
  · split at h
    · cases h
    · simp only [Option.some.injEq, Prod.mk.injEq] at h
      rw [← h.1]
      apply OnlyBlankControls.append
      · intro c hc _
        simp [Text.isBlank, List.mem_takeWhile_imp hc]
      · exact onlyBlankControls_word (by decide)
  · cases h

theorem onlyBlankControls_scanWord (cs : List Char) : OnlyBlankControls (scanWord cs).text := by
  have hword := onlyBlankControls_word (all_splitWord cs)
  unfold scanWord
  simp only
  split
  · split
    · exact hword.append (onlyBlankControls_phraseTail? ‹_›)
    · exact hword
  · exact hword

theorem onlyBlankControls_singleton (h : ¬Text.isControl c) : OnlyBlankControls [c] := by
  intro c' hc hcontrol
  rw [List.mem_singleton.mp hc] at hcontrol
  exact absurd hcontrol h

/-- A control character that is no blank is part of strings and comments only. -/
theorem scan_lexeme_controls (h : scan cs = .lexeme l) :
    (l.kind = .comment ∨ ∃ value, l.kind = .string value) ∨ OnlyBlankControls l.text := by
  cases cs with
  | nil => cases h
  | cons c cs =>
      rw [scan] at h
      split at h
      · cases h
        refine .inr fun c hc _ => ?_
        exact List.mem_takeWhile_imp hc
      split at h
      · cases h
        exact .inl (.inl rfl)
      split at h
      · exact .inl (.inr (ofString_kind h))
      split at h
      · unfold scanQuoted? at h
        split at h <;> exact .inl (.inr (ofString_kind h))
      split at h
      · cases h
        have harrow : OnlyBlankControls (['-'] ++ ['>']) :=
          (onlyBlankControls_singleton (by decide)).append (onlyBlankControls_singleton (by decide))
        exact .inr harrow
      split at h
      · cases h
        exact .inr (onlyBlankControls_scanWord _)
      split at h
      · cases h
      · rename_i hcontrol
        split at h <;> cases h <;> exact .inr (onlyBlankControls_singleton hcontrol)

end Storyworld.Token
