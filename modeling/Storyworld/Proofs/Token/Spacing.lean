import Storyworld.Proofs.Token.Lookahead

namespace Storyworld

/-! A space between two tokens. What a source means to the grammar, its significant tokens by kind
and text, stays the same when a space is put where one token ends and the next begins. There is one
place of which this is not so: behind the words `only` and `once`, with white space between them and
an arrow at the place. The hyphen of the arrow keeps the two words from being the phrase, and the
space lets them become it. -/

namespace Token

/-! ## Lexemes and what they mean -/

namespace Lexeme

def isTrivia (l : Lexeme) : Bool :=
  l.kind = .comment || l.kind = .blank

/-- The characters of several lexemes on end. -/
def chars (ls : List Lexeme) : List Char :=
  ls.flatMap (·.text)

/-- What lexemes say, comments and blanks left out. -/
def readings (ls : List Lexeme) : List (Kind × String) :=
  (ls.filter fun l => !l.isTrivia).map fun l => (l.kind, String.ofList l.text)

variable {l : Lexeme} {ls ms : List Lexeme}

@[simp] theorem chars_nil : chars [] = [] := rfl

@[simp] theorem chars_cons : chars (l :: ls) = l.text ++ chars ls := rfl

@[simp] theorem chars_append : chars (ls ++ ms) = chars ls ++ chars ms :=
  List.flatMap_append

@[simp] theorem readings_nil : readings [] = [] := rfl

@[simp] theorem readings_append : readings (ls ++ ms) = readings ls ++ readings ms := by
  simp [readings]

theorem readings_cons_of_trivia (h : l.isTrivia) : readings (l :: ls) = readings ls := by
  simp [readings, h]

theorem readings_singleton (h : l.isTrivia = false) :
    readings [l] = [(l.kind, String.ofList l.text)] := by
  simp [readings, h]

/-- A lexeme means the same whatever stands behind it. -/
theorem readings_congr {l' : Lexeme} (hkind : l'.kind = l.kind) (htext : l'.text = l.text)
    (h : readings ls = readings ms) : readings (l' :: ls) = readings (l :: ms) := by
  by_cases ht : l.isTrivia
  · have ht' : l'.isTrivia := by rwa [isTrivia, hkind]
    rw [readings_cons_of_trivia ht, readings_cons_of_trivia ht', h]
  · have ht' : ¬l'.isTrivia := by rwa [isTrivia, hkind]
    simp only [readings, Bool.not_eq_true] at h ht ht' ⊢
    simp [ht, ht', hkind, htext, h]

end Lexeme

open Lexeme

variable {cs b : List Char} {l : Lexeme} {ks ls ms ns : List Lexeme}

theorem Cut.chars_eq (h : Cut cs ls) : chars ls = cs := by
  induction h with
  | nil => rfl
  | cons hscan _ ih => rw [chars_cons, ih, (scan_append hscan).1]

theorem Cut.of_append (h : Cut cs (ls ++ ms)) : Cut (chars ms) ms := by
  induction ls generalizing cs with
  | nil =>
      rw [List.nil_append] at h
      exact h.chars_eq ▸ h
  | cons l ls ih =>
      cases h with
      | cons _ hrest => exact ih hrest

/-- A lexeme cut off a text leaves what the lexemes behind it are cut from. -/
theorem Cut.tail (h : Cut (chars (l :: ls) ++ b) (l :: ms)) :
    l.rest = chars ls ++ b ∧ Cut (chars ls ++ b) ms := by
  obtain ⟨hscan, hrest⟩ := cut_cons_iff.mp h
  have hsplit := (scan_append hscan).1
  rw [chars_cons, List.append_assoc, List.append_cancel_left_eq] at hsplit
  exact ⟨hsplit, hsplit ▸ hrest⟩

/-! ## Blanks -/

theorem scan_of_isBlank {c : Char} (hc : Text.isBlank c) (cs : List Char) :
    scan (c :: cs) = .lexeme (scanRun .blank Text.isBlank (c :: cs)) := by
  rw [scan, if_pos hc]

/-- Without the blank it may begin with, a text means the same. -/
theorem Cut.dropBlank (h : Cut cs ls) :
    ∃ ns, Cut (cs.dropWhile Text.isBlank) ns ∧ readings ns = readings ls := by
  cases h with
  | nil => exact ⟨[], .nil, rfl⟩
  | @cons _ l ls hscan hrest =>
      cases cs with
      | nil => cases hscan
      | cons c cs =>
          by_cases hc : Text.isBlank c
          · rw [scan_of_isBlank hc] at hscan
            cases hscan
            exact ⟨ls, hrest, rfl⟩
          · rw [List.dropWhile_cons_of_neg hc]
            exact ⟨_, .cons hscan hrest, rfl⟩

/-- A text that goes on with a space behind some blanks begins with a blank. -/
theorem Cut.blank_space (h : Cut b ms) {w : List Char} (hw : ∀ c ∈ w, Text.isBlank c) :
    ∃ ns, Cut (w ++ ' ' :: b) ns ∧ readings ns = readings ms := by
  have hspace : Text.isBlank ' ' := by decide
  obtain ⟨ns, hns, heq⟩ := h.dropBlank
  obtain ⟨c, cs, hcs, hc⟩ : ∃ c cs, w ++ ' ' :: b = c :: cs ∧ Text.isBlank c := by
    cases w with
    | nil => exact ⟨_, _, rfl, hspace⟩
    | cons c w => exact ⟨_, _, rfl, hw c List.mem_cons_self⟩
  have hscan := scan_of_isBlank hc cs
  rw [← hcs] at hscan
  refine ⟨_ :: ns, .cons hscan ?_, heq⟩
  simpa [scanRun, List.dropWhile_append_of_pos hw, hspace] using hns

/-! ## Behind one lexeme -/

theorem scan_comment (cs : List Char) :
    scan ('#' :: cs) = .lexeme ⟨.comment, '#' :: cs.takeWhile (· ≠ '\n'), cs.dropWhile (· ≠ '\n')⟩ := by
  have hblank : Text.isBlank '#' = false := by decide
  rw [scan, hblank]
  rfl

theorem isTrivia_ofWord (w text rest : List Char) :
    (Lexeme.mk (Kind.ofWord w) text rest).isTrivia = false := by
  unfold Kind.ofWord Lexeme.isTrivia
  simp only
  split
  · rfl
  split
  · rfl
  split
  · rfl
  split <;> rfl

theorem isTrivia_scanWord (cs : List Char) : (scanWord cs).isTrivia = false := by
  unfold scanWord
  simp only
  split
  · split
    · rfl
    · exact isTrivia_ofWord _ _ _
  · exact isTrivia_ofWord _ _ _

/-- Only blanks and number signs begin lexemes without a meaning. -/
theorem isTrivia_of_scan {c : Char} (h : scan (c :: cs) = .lexeme l) (hblank : ¬Text.isBlank c)
    (hcomment : c ≠ '#') : l.isTrivia = false := by
  have hstring {opening : List Char} {q? : Option Quotation}
      (h : Scan.ofString (q?.map (Quotation.lexeme opening)) = .lexeme l) : l.isTrivia = false := by
    obtain ⟨value, hvalue⟩ := ofString_kind h
    simp [Lexeme.isTrivia, hvalue]
  rw [scan, if_neg hblank, if_neg hcomment] at h
  split at h
  · exact hstring h
  split at h
  · unfold scanQuoted? at h
    split at h <;> exact hstring h
  split at h
  · cases h
    rfl
  split at h
  · cases h
    exact isTrivia_scanWord _
  split at h
  · cases h
  split at h <;> cases h <;> rfl

/-! ## Behind one lexeme -/

/-- White space does not matter in front of the white space of a phrase. -/
theorem phraseTail?_space (h : phraseTail? cs = none) : phraseTail? (' ' :: cs) = none := by
  have hspace : Text.isWhiteSpace ' ' := by decide
  unfold phraseTail? at h ⊢
  rw [List.dropWhile_cons_of_pos hspace]
  simp only at h ⊢
  split at h
  · split at h
    · rename_i hrest
      simp [hrest]
    · cases h
  · rfl

theorem resembles_space (hblank : l.kind ≠ .blank) (hcomment : l.kind ≠ .comment) :
    Resembles l (' ' :: l.rest) where
  head := .inr (.inl ⟨rfl, hblank, hcomment⟩)
  word _ := endsWord_cons (by decide)
  phrase _ _ := phraseTail?_space

/-- A space behind a lexeme: a blank or a comment takes it in, or else it makes up a blank. -/
theorem Cut.space_behind (h : Cut cs (l :: ms)) :
    ∃ ns, Cut (l.text ++ ' ' :: l.rest) ns ∧ readings ns = readings (l :: ms) := by
  cases h with
  | cons hscan hrest =>
    cases cs with
    | nil => cases hscan
    | cons c cs =>
      by_cases hblank : Text.isBlank c
      · rw [scan_of_isBlank hblank] at hscan
        cases hscan
        exact hrest.blank_space fun c hc => List.mem_takeWhile_imp hc
      by_cases hcomment : c = '#'
      · subst hcomment
        rw [scan_comment] at hscan
        cases hscan
        have hline : ∀ c ∈ cs.takeWhile (· ≠ '\n') ++ [' '], decide (c ≠ '\n') := by
          intro c hc
          rcases List.mem_append.mp hc with hc | hc
          · exact List.mem_takeWhile_imp (p := fun c => decide (c ≠ '\n')) hc
          · rw [List.mem_singleton.mp hc]
            decide
        have hrun := scanRun_append (k := .comment) hline (any_head?_dropWhile _ cs)
        simp only [scanRun, List.append_assoc, List.singleton_append, Lexeme.mk.injEq] at hrun
        have hscan := scan_comment (cs.takeWhile (· ≠ '\n') ++ ' ' :: cs.dropWhile (· ≠ '\n'))
        rw [hrun.2.1, hrun.2.2] at hscan
        exact ⟨_ :: ms, .cons hscan hrest, rfl⟩
      · have htrivia := isTrivia_of_scan hscan hblank hcomment
        have hkind : l.kind ≠ .blank ∧ l.kind ≠ .comment := by
          constructor <;> rintro hk <;> simp [Lexeme.isTrivia, hk] at htrivia
        have hscan' := scan_rest hscan (resembles_space hkind.1 hkind.2)
        obtain ⟨ns, hns, heq⟩ := hrest.blank_space (w := []) (by simp)
        exact ⟨_, .cons hscan' hns, readings_congr rfl rfl heq⟩

/-! ## Behind several lexemes -/

/-- The word `only`, white space and the word `once` in front of a place, and an arrow behind it. -/
def IsJoint (l : Lexeme) (ls ms : List Lexeme) : Prop :=
  l.text = ['o', 'n', 'l', 'y'] ∧ ∃ gap once arrow after, ls = [gap, once] ∧ ms = arrow :: after ∧
    (∀ c ∈ gap.text, Text.isWhiteSpace c) ∧ once.text = ['o', 'n', 'c', 'e'] ∧
    arrow.kind = .mark .arrow

theorem head?_space (h : Cut (chars ls ++ b) (ls ++ ms)) (hne : ls ≠ []) :
    (chars ls ++ ' ' :: b).head? = (chars ls ++ b).head? := by
  obtain ⟨l, ls, rfl⟩ := List.exists_cons_of_ne_nil hne
  obtain ⟨c, w, hw⟩ := List.exists_cons_of_ne_nil (scan_append (cut_cons_iff.mp h).1).2
  simp [hw]

/-- No lexeme is a hyphen in front of an arrow's head. -/
theorem endsWord_space (h : Cut (chars ls ++ b) (ls ++ ms)) (hne : ls ≠ [])
    (hends : EndsWord (chars ls ++ b)) : EndsWord (chars ls ++ ' ' :: b) := by
  obtain ⟨l, ls, rfl⟩ := List.exists_cons_of_ne_nil hne
  obtain ⟨hscan, -⟩ := cut_cons_iff.mp h
  obtain ⟨htext, hsome⟩ := scan_append hscan
  obtain ⟨c, w, hw⟩ := List.exists_cons_of_ne_nil hsome
  simp only [chars_cons, hw, List.cons_append, List.append_assoc] at hscan htext hends ⊢
  intro d hd hword
  obtain rfl : c = d := by simpa using hd
  obtain ⟨rfl, hnext⟩ := hends c rfl hword
  refine ⟨rfl, ?_⟩
  simp only [List.tail_cons] at hnext ⊢
  cases w with
  | cons d w => exact hnext
  | nil =>
      obtain ⟨more, hmore⟩ := List.head?_eq_some_iff.mp hnext
      simp only [List.nil_append] at hmore
      rw [List.nil_append, hmore, scan_arrow] at hscan
      cases hscan
      cases hw

theorem isBlank_of_isWhiteSpace {c : Char} (h : Text.isWhiteSpace c) : Text.isBlank c := by
  simp [Text.isBlank, h]

/-- The blanks that two texts begin with are the same where the texts are. -/
theorem eq_of_blanks {v w r r' : List Char} (hv : ∀ c ∈ v, Text.isBlank c)
    (hw : ∀ c ∈ w, Text.isBlank c) (hr : r.head?.any Text.isBlank = false)
    (hr' : r'.head?.any Text.isBlank = false) (h : v ++ r = w ++ r') : v = w ∧ r = r' := by
  have hrun := congrArg (scanRun .blank Text.isBlank) h
  rw [scanRun_append hv hr, scanRun_append hw hr'] at hrun
  cases hrun
  exact ⟨rfl, rfl⟩

theorem scan_of_isWordChar {c : Char} (hc : isWordChar c) (hsign : c ≠ '#') (hraw : c ≠ 'r')
    (harrow : c ≠ '-') (cs : List Char) : scan (c :: cs) = .lexeme (scanWord (c :: cs)) := by
  have hblank : ¬Text.isBlank c := by
    simp only [Text.isBlank, Bool.or_eq_true, decide_eq_true_eq]
    rintro (hspace | rfl)
    · rw [isWordChar_of_isWhiteSpace hspace] at hc
      cases hc
    · exact absurd hc (by decide)
  have hquote : ¬(c = '"' || c = '\'') := by
    simp only [Bool.or_eq_true, decide_eq_true_eq]
    rintro (rfl | rfl) <;> exact absurd hc (by decide)
  rw [scan, if_neg hblank, if_neg hsign, if_neg (by simp [hraw]), if_neg hquote,
    if_neg (by simp [harrow]), if_pos hc]

theorem endsWord_of_any_head? {r : List Char} (h : r.head?.any isWordChar = false) : EndsWord r := by
  intro c hc hword
  rw [hc] at h
  simp [hword] at h

/-- A word with a space behind it is `once` only if it is so without the space. -/
theorem eq_once_of_space {o : Lexeme} {r : List Char} (h : Cut (chars (o :: ls) ++ b) (o :: ls ++ ms))
    (heq : chars (o :: ls) ++ ' ' :: b = ['o', 'n', 'c', 'e'] ++ r)
    (hr : r.head?.any isWordChar = false) :
    o.text = ['o', 'n', 'c', 'e'] ∧ r = chars ls ++ ' ' :: b ∧ EndsWord (chars ls ++ b) := by
  obtain ⟨hscan, -⟩ := cut_cons_iff.mp h
  obtain ⟨c, t, ht⟩ := List.exists_cons_of_ne_nil (scan_append hscan).2
  obtain ⟨horest, hrest⟩ := h.tail
  obtain rfl : c = 'o' := by
    simp only [chars_cons, ht, List.cons_append, List.cons.injEq] at heq
    exact heq.1
  have hword : o = scanWord (chars (o :: ls) ++ b) := by
    rw [chars_cons, ht, List.cons_append, List.cons_append,
      scan_of_isWordChar (by decide) (by decide) (by decide) (by decide)] at hscan
    rw [chars_cons, ht, List.cons_append, List.cons_append]
    cases hscan
    rfl
  cases hsplit : splitWord (chars (o :: ls) ++ b) with
  | mk w r' =>
      have hends : EndsWord r' := by
        have hall := endsWord_splitWord (chars (o :: ls) ++ b)
        rwa [hsplit] at hall
      have hplain : w ≠ ['o', 'n', 'l', 'y'] := by
        rintro rfl
        obtain ⟨tail, htail⟩ : ∃ tail, o.text = ['o', 'n', 'l', 'y'] ++ tail := by
          rw [hword, scanWord, hsplit]
          simp only [if_true]
          split
          · exact ⟨_, rfl⟩
          · exact ⟨[], rfl⟩
        simp [htail] at heq
      obtain rfl : o = ⟨Kind.ofWord w, w, r'⟩ := by
        rw [hword, scanWord, hsplit]
        simp only [if_neg hplain]
      obtain rfl : r' = chars ls ++ b := horest
      have hends' : EndsWord (chars ls ++ ' ' :: b) := by
        by_cases hls : ls = []
        · rw [hls]
          exact endsWord_cons (by decide)
        · exact endsWord_space hrest hls hends
      have harrow : (chars ls ++ ' ' :: b).head? = some '>' → (chars ls ++ b).head? = some '>' := by
        by_cases hls : ls = []
        · simp [hls]
        · rw [head?_space hrest hls]
          exact id
      have hsame := splitWord_append_rest hsplit hends' harrow
      have honce : splitWord (['o', 'n', 'c', 'e'] ++ r) = (['o', 'n', 'c', 'e'], r) := by
        simp [splitWord, isWordChar, isAsciiAlphanumeric,
          splitWord_of_endsWord (endsWord_of_any_head? hr)]
      rw [chars_cons, List.append_assoc] at heq
      rw [heq, honce, Prod.mk.injEq] at hsame
      exact ⟨hsame.1.symm, hsame.2, hends⟩

/-- White space in front of a lexeme that ends where a blank ends is all of that blank. -/
theorem blank_of_isWhiteSpace {c : Char} {w : List Char} (h : Cut (c :: w) (l :: ls))
    (hc : Text.isWhiteSpace c) :
    (∀ d ∈ l.text, Text.isBlank d) ∧ l.rest.head?.any Text.isBlank = false := by
  obtain ⟨hscan, -⟩ := cut_cons_iff.mp h
  rw [scan_of_isBlank (isBlank_of_isWhiteSpace hc)] at hscan
  cases hscan
  exact ⟨fun d hd => List.mem_takeWhile_imp hd, any_head?_dropWhile _ _⟩

/-- A space behind lexemes with `only` in front makes up the phrase at a joint alone. -/
theorem phraseTail?_insert (h : Cut (chars ls ++ chars ms) (ls ++ ms)) (hne : ls ≠ [])
    (hends : EndsWord (chars ls ++ chars ms)) (hnone : phraseTail? (chars ls ++ chars ms) = none)
    (honly : l.text = ['o', 'n', 'l', 'y']) (hno : ¬IsJoint l ls ms) :
    phraseTail? (chars ls ++ ' ' :: chars ms) = none := by
  refine Option.eq_none_iff_forall_ne_some.mpr fun ⟨tail, r⟩ hsome => ?_
  obtain ⟨gap, hgap, rfl, hr⟩ := phraseTail?_eq_some hsome
  have heq := phraseTail?_append hsome
  rw [List.append_assoc] at heq
  have hgapBlank : ∀ c ∈ gap, Text.isBlank c := fun c hc => isBlank_of_isWhiteSpace (hgap c hc)
  have honce : (['o', 'n', 'c', 'e'] ++ r).head?.any Text.isBlank = false := by
    have hblank : Text.isBlank 'o' = false := by decide
    simpa using hblank
  -- The white space in front of `once` is not empty, for the word `only` ends in front of it.
  have hhead := head?_space h hne
  obtain ⟨c, gap', hcons⟩ : ∃ c gap', gap = c :: gap' := by
    refine List.exists_cons_of_ne_nil ?_
    rintro rfl
    rw [← heq] at hhead
    exact absurd (hends 'o' hhead.symm (by decide)).1 (by decide)
  rw [← heq, hcons, List.cons_append, List.head?_cons] at hhead
  obtain ⟨more, hmore⟩ := List.head?_eq_some_iff.mp hhead.symm
  obtain ⟨g, ls, rfl⟩ := List.exists_cons_of_ne_nil hne
  rw [List.cons_append] at h
  obtain ⟨hg, hgrest⟩ := blank_of_isWhiteSpace (hmore ▸ h) (hgap c (by simp [hcons]))
  obtain ⟨hgsplit, hrest⟩ := h.tail
  rw [hgsplit] at hgrest
  cases ls with
  | nil =>
      have hgspace : ∀ d ∈ g.text ++ [' '], Text.isBlank d := by
        intro d hd
        rcases List.mem_append.mp hd with hd | hd
        · exact hg d hd
        · rw [List.mem_singleton.mp hd]
          decide
      obtain ⟨hgap', hb⟩ := eq_of_blanks hgapBlank hgspace honce hgrest (by simpa using heq)
      have hgtext : ∀ d ∈ g.text, Text.isWhiteSpace d :=
        fun d hd => hgap d (hgap' ▸ List.mem_append_left _ hd)
      rw [chars_cons, List.append_assoc, ← hb, ← List.append_assoc, phraseTail?_gap hgtext hr] at hnone
      cases hnone
  | cons o ls =>
      have hhead' := head?_space hrest (List.cons_ne_nil o ls)
      obtain ⟨rfl, honce'⟩ := eq_of_blanks hgapBlank hg honce (by rwa [hhead']) (by simpa using heq)
      obtain ⟨ho, rfl, hends'⟩ := eq_once_of_space hrest honce'.symm hr
      have hphrase : phraseTail? (g.text ++ ['o', 'n', 'c', 'e'] ++ (chars ls ++ chars ms)) = none := by
        simpa [ho] using hnone
      -- Without the space the phrase is hindered by a word character: the hyphen of an arrow.
      obtain ⟨d, hd, hword⟩ : ∃ d, (chars ls ++ chars ms).head? = some d ∧ isWordChar d := by
        refine (Option.any_eq_true _ _).mp (Bool.not_eq_false _ ▸ fun hany => ?_)
        rw [phraseTail?_gap hgap hany] at hphrase
        cases hphrase
      obtain ⟨rfl, hnext⟩ := hends' d hd hword
      cases ls with
      | cons e ls =>
          rw [head?_space hrest.tail.2 (List.cons_ne_nil e ls), hd] at hr
          cases hr
      | nil =>
          refine hno ⟨honly, g, o, ?_⟩
          have hms : Cut (chars ms) ms := hrest.tail.2
          obtain ⟨tail, htail⟩ := List.head?_eq_some_iff.mp hd
          rw [htail, List.tail_cons] at hnext
          obtain ⟨more, rfl⟩ := List.head?_eq_some_iff.mp hnext
          cases ms with
          | nil => cases htail
          | cons arrow after =>
              obtain ⟨hscan, -⟩ := cut_cons_iff.mp hms
              rw [show chars (arrow :: after) = '-' :: '>' :: more from htail, scan_arrow] at hscan
              cases hscan
              exact ⟨_, after, rfl, rfl, hgap, ho, rfl⟩

theorem resembles_insert (h : Cut (chars (l :: ls) ++ chars ms) (l :: (ls ++ ms))) (hne : ls ≠ [])
    (hno : ¬IsJoint l ls ms) : Resembles l (chars ls ++ ' ' :: chars ms) := by
  obtain ⟨hrest, htail⟩ := h.tail
  refine ⟨?_, ?_, ?_⟩ <;> rw [hrest]
  · exact .inl (head?_space htail hne)
  · exact endsWord_space htail hne
  · exact fun honly hends hnone => phraseTail?_insert htail hne hends hnone honly hno

/-! ## At any place -/

/-- A space behind the last of several lexemes changes none of those in front of it, wherever these
make up no joint. -/
theorem Cut.insert (h : Cut (chars (ks ++ ls) ++ chars ms) (ks ++ (ls ++ ms))) (hne : ls ≠ [])
    (hno : ∀ a l c, ks = a ++ l :: c → ¬IsJoint l (c ++ ls) ms)
    (hns : Cut (chars ls ++ ' ' :: chars ms) ns) :
    ∃ ns', Cut (chars (ks ++ ls) ++ ' ' :: chars ms) ns' ∧
      readings ns' = readings ks ++ readings ns := by
  induction ks with
  | nil => exact ⟨ns, hns, rfl⟩
  | cons l ks ih =>
      rw [List.cons_append, List.cons_append, ← List.append_assoc] at h
      have hmore : ¬IsJoint l (ks ++ ls) ms := hno [] l ks rfl
      obtain ⟨hscan, -⟩ := cut_cons_iff.mp h
      obtain ⟨ns', hcut, heq⟩ := ih (by rw [← List.append_assoc]; exact h.tail.2)
        fun a l' c hks => hno (l :: a) l' c (by rw [hks, List.cons_append])
      have hscan' := scan_rest hscan (resembles_insert h (by simp [hne]) hmore)
      refine ⟨{ l with rest := chars (ks ++ ls) ++ ' ' :: chars ms } :: ns', ?_, ?_⟩
      · rw [List.cons_append, chars_cons, List.append_assoc]
        exact .cons hscan' hcut
      · rw [← readings_append] at heq ⊢
        exact readings_congr rfl rfl heq

/-- Whether the lexemes in front of a place and those behind it meet at a joint. -/
def MeetAtJoint (ls ms : List Lexeme) : Prop :=
  ∃ a l c, ls = a ++ l :: c ∧ IsJoint l c ms

/-- A space is harmless where there is no joint. -/
theorem Cut.space (h : Cut (chars ls ++ chars ms) (ls ++ ms)) (hno : ¬MeetAtJoint ls ms) :
    ∃ ns, Cut (chars ls ++ ' ' :: chars ms) ns ∧ readings ns = readings (ls ++ ms) := by
  rcases List.eq_nil_or_concat ls with rfl | ⟨ks, l, rfl⟩
  · exact Cut.blank_space h (w := []) (by simp)
  · rw [List.concat_eq_append] at h hno ⊢
    rw [List.append_assoc] at h
    have hlast : Cut (chars [l] ++ chars ms) (l :: ms) := by simpa using h.of_append
    obtain ⟨ns, hns, heq⟩ := hlast.space_behind
    rw [hlast.tail.1] at hns
    have hnone : ∀ a l' c, ks = a ++ l' :: c → ¬IsJoint l' (c ++ [l]) ms := fun a l' c hks hj =>
      hno ⟨a, l', c ++ [l], by rw [hks, List.append_assoc, List.cons_append], hj⟩
    obtain ⟨ns', hcut, heq'⟩ := h.insert (List.cons_ne_nil l []) hnone (by simpa using hns)
    refine ⟨ns', hcut, ?_⟩
    rw [heq', heq, ← readings_append, List.append_assoc, List.singleton_append]

/-- A lexeme that begins with an `o` is no blank and no comment. -/
theorem isTrivia_of_text {w : List Char} (h : scan cs = .lexeme l) (hw : l.text = 'o' :: w) :
    l.isTrivia = false := by
  obtain ⟨htext, -⟩ := scan_append h
  rw [hw, List.cons_append] at htext
  exact isTrivia_of_scan (htext ▸ h) (by decide) (by decide)

/-- At a joint a space makes one lexeme of the two words. -/
theorem Cut.space_of_joint (h : Cut (chars ls ++ chars ms) (ls ++ ms)) (hj : MeetAtJoint ls ms) :
    ∃ ns, Cut (chars ls ++ ' ' :: chars ms) ns ∧
      (readings ns).length < (readings (ls ++ ms)).length := by
  obtain ⟨a, l, _, rfl, honly, gap, once, arrow, after, rfl, rfl, hgap, honce, -⟩ := hj
  rw [List.append_assoc] at h
  have hwords := h.of_append
  simp only [List.cons_append, List.nil_append] at hwords
  obtain ⟨hlscan, hlrest⟩ := cut_cons_iff.mp hwords
  obtain ⟨hgscan, hgrest⟩ := cut_cons_iff.mp hlrest
  obtain ⟨hoscan, -⟩ := cut_cons_iff.mp hgrest
  have hscan : scan (chars [l, gap, once] ++ ' ' :: chars (arrow :: after)) = .lexeme
      ⟨.keyword "only once", ['o', 'n', 'l', 'y'] ++ (gap.text ++ ['o', 'n', 'c', 'e']),
        ' ' :: chars (arrow :: after)⟩ := by
    have hblank : (' ' :: chars (arrow :: after)).head?.any isWordChar = false := rfl
    have hphrase := scanWord_phrase hgap (scan_append hgscan).2 hblank
    rw [← hphrase]
    simpa [honly, honce] using scan_of_isWordChar (c := 'o') (by decide) (by decide) (by decide)
      (by decide) _
  have hphrase : Cut _ ([l, gap, once] ++ arrow :: after) := hwords
  have hbehind : Cut (chars (arrow :: after)) (arrow :: after) := hphrase.of_append
  obtain ⟨ns, hns, heq⟩ := hbehind.blank_space (w := []) (by simp)
  -- Three lexemes are not the two behind an `only`, so that those in front make up no joint.
  have hnone : ∀ a' l' c, a = a' ++ l' :: c → ¬IsJoint l' (c ++ [l, gap, once]) (arrow :: after) := by
    rintro a' l' c - ⟨-, gap', once', _, _, hc, -⟩
    have hlength := congrArg List.length hc
    simp at hlength
  obtain ⟨ns', hcut, heq'⟩ := h.insert (List.cons_ne_nil l _) hnone (.cons hscan hns)
  refine ⟨ns', hcut, ?_⟩
  have hthree : readings [l, gap, once] = readings [l] ++ readings [gap] ++ readings [once] := by
    rw [← readings_append, ← readings_append]
    rfl
  rw [heq', ← List.singleton_append, readings_append, heq, readings_append, readings_append, hthree,
    readings_singleton (isTrivia_of_text hlscan honly),
    readings_singleton (isTrivia_of_text hoscan honce), readings_singleton rfl]
  simp only [List.length_append, List.length_singleton]
  omega

end Token

end Storyworld
