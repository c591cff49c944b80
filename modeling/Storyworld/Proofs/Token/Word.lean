import Mathlib.Data.List.TakeWhile
import Storyworld.Proofs.Token.Lexer

namespace Storyworld

/-! How the tokens that can be ids are written. -/

namespace Token

/-- The words that are proper ids: not empty, of word characters only and no truth values. -/
def IsName (w : String) : Prop :=
  w ≠ "" ∧ w.toList.all isWordChar ∧ w ≠ "true" ∧ w ≠ "false"

instance (w : String) : Decidable (IsName w) :=
  inferInstanceAs (Decidable (_ ∧ _ ∧ _ ∧ _))

/-- The spellings of the phrase `only once`: two words and the white space between them. -/
def IsPhrase (w : String) : Prop :=
  ∃ gap : List Char, gap ≠ [] ∧ (∀ c ∈ gap, Text.isWhiteSpace c) ∧
    w.toList = ['o', 'n', 'l', 'y'] ++ gap ++ ['o', 'n', 'c', 'e']

variable {cs : List Char} {l : Lexeme}

/-! ## Words -/

theorem all_splitWord (cs : List Char) : (splitWord cs).1.all isWordChar := by
  induction cs with
  | nil => rfl
  | cons c cs ih =>
      rw [splitWord]
      split
      · simp_all
      · rfl

/-- A word ends in front of what is no word character, or in front of an arrow. -/
theorem splitWord_rest (h : (splitWord cs).2 = 'o' :: rest) : False := by
  induction cs with
  | nil => cases h
  | cons c cs ih =>
      rw [splitWord] at h
      split at h
      · exact ih h
      · rename_i hc
        cases h
        exact hc rfl

theorem isName_ofWord {word : List Char} {t : Token} (hk : t.kind = Kind.ofWord word)
    (ht : t.isWord) (hne : word ≠ []) (hall : word.all isWordChar) :
    IsName (String.ofList word) := by
  have hlist : (String.ofList word).toList = word := String.toList_ofList
  refine ⟨fun h => hne ?_, by rwa [hlist], fun h => ?_, fun h => ?_⟩
  · simpa [hlist] using congrArg String.toList h
  · have hword : word = ['t', 'r', 'u', 'e'] := by simpa [hlist] using congrArg String.toList h
    rw [hword] at hk
    simp [isWord, hk, show Kind.ofWord ['t', 'r', 'u', 'e'] = .boolean true from rfl] at ht
  · have hword : word = ['f', 'a', 'l', 's', 'e'] := by
      simpa [hlist] using congrArg String.toList h
    rw [hword] at hk
    simp [isWord, hk, show Kind.ofWord ['f', 'a', 'l', 's', 'e'] = .boolean false from rfl] at ht

/-- White space behind `only` that has `once` behind it is not empty, for the first word ends
there. -/
theorem isPhrase_of_phraseTail? {tail rest : List Char} (hword : (splitWord cs).1 = ['o', 'n', 'l', 'y'])
    (h : phraseTail? (splitWord cs).2 = some (tail, rest)) :
    IsPhrase (String.ofList ((splitWord cs).1 ++ tail)) := by
  unfold phraseTail? at h
  simp only at h
  split at h
  · rename_i rest' hdrop
    split at h
    · cases h
    · simp only [Option.some.injEq, Prod.mk.injEq] at h
      obtain ⟨rfl, rfl⟩ := h
      refine ⟨(splitWord cs).2.takeWhile Text.isWhiteSpace, fun hgap => ?_, ?_, ?_⟩
      · have hsplit := List.takeWhile_append_dropWhile (p := Text.isWhiteSpace) (l := (splitWord cs).2)
        rw [hgap, hdrop, List.nil_append] at hsplit
        exact splitWord_rest hsplit.symm
      · exact fun c hc => List.mem_takeWhile_imp hc
      · simp [hword]
  · cases h

theorem scanWord_named {t : Token} (hk : t.kind = (scanWord cs).kind) (ht : t.isWord)
    (hne : (scanWord cs).text ≠ []) :
    IsName (String.ofList (scanWord cs).text) ∨ IsPhrase (String.ofList (scanWord cs).text) := by
  have hall := all_splitWord cs
  unfold scanWord at hk hne ⊢
  simp only at hk hne ⊢
  by_cases hword : (splitWord cs).1 = ['o', 'n', 'l', 'y']
  · simp only [if_pos hword] at hk hne ⊢
    cases htail : phraseTail? (splitWord cs).2 with
    | some p => exact .inr (isPhrase_of_phraseTail? hword htail)
    | none =>
        rw [htail] at hk hne
        exact .inl (isName_ofWord hk ht hne hall)
  · simp only [if_neg hword] at hk hne ⊢
    exact .inl (isName_ofWord hk ht hne hall)

/-! ## All tokens -/

/-- A token that can be an id is a proper one or the phrase. -/
theorem scan_named {t : Token} (h : scan cs = .lexeme l) (hk : t.kind = l.kind) (ht : t.isWord) :
    IsName (String.ofList l.text) ∨ IsPhrase (String.ofList l.text) := by
  obtain rfl := scan_word h (by cases hl : l.kind <;> simp_all [isWord])
  exact scanWord_named hk ht (scan_append h).2

end Token

namespace Lexer

open Token

variable {source : List Char} {x x' : Lexer} {t : Token}

/-- A lexer hands out what is cut off a text. -/
theorem next_scanned (h : x.next = (some (.ok t), x')) :
    ∃ cs l, scan cs = .lexeme l ∧ t.kind = l.kind ∧ t.text = String.ofList l.text := by
  unfold next at h
  split at h
  · cases h
  split at h
  · cases h
  · rename_i l hscan
    cases h
    exact ⟨_, l, hscan, rfl, rfl⟩
  · cases h
  · cases h

theorem drainFor_scanned (n : Nat) (h : .ok t ∈ (drainFor n x).1) :
    ∃ cs l, scan cs = .lexeme l ∧ t.kind = l.kind ∧ t.text = String.ofList l.text := by
  induction n generalizing x with
  | zero => simp [drainFor] at h
  | succ n ih =>
      unfold drainFor at h
      split at h
      · simp at h
      · rename_i result x' hnext
        rcases List.mem_cons.mp h with rfl | h
        · exact next_scanned hnext
        · exact ih h

/-- Every token of a source that can be an id is a proper one or the phrase. -/
theorem tokens_named {tokens : List Token} (h : Lexer.tokens source = .ok tokens) :
    ∀ t ∈ tokens, t.isWord → IsName t.text ∨ IsPhrase t.text := by
  intro t ht hword
  obtain ⟨cs, l, hscan, hk, htext⟩ := drainFor_scanned _ (mem_of_collect_ok h t ht)
  rw [htext]
  exact scan_named hscan hk hword

end Lexer

end Storyworld
