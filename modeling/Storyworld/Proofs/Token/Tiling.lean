import Storyworld.Proofs.Token.Lexer
import Storyworld.Proofs.Token.Literal

namespace Storyworld

/-! Tokens tile their source: each begins where the one before it ends and says what stands there,
and they go on to the end of the source or to the place of the one fault that can stop them. -/

open Text Text.Utf8 Token

/-- Tokens tile a source from one offset to another: each covers something, begins where the one
before it ends, and has the text that stands in the source over its span. -/
def Tiles (source : List Char) : Nat → List Token → Nat → Prop
  | first, [], last => first = last
  | first, t :: ts, last =>
    t.span.start = first ∧ t.text ≠ "" ∧
      slice? source t.span.start t.span.stop = some t.text.toList ∧ Tiles source t.span.stop ts last

/-- The texts of several tokens on end. -/
def Token.texts (ts : List Token) : List Char :=
  ts.flatMap (·.text.toList)

@[simp] theorem Token.texts_nil : texts [] = [] := rfl

@[simp] theorem Token.texts_cons (t : Token) (ts : List Token) :
    texts (t :: ts) = t.text.toList ++ texts ts := rfl

/-- As each token covers something, there are no more of them than characters. -/
theorem Tiles.length_le {source : List Char} {ts : List Token} {first last : Nat}
    (h : Tiles source first ts last) : ts.length ≤ (texts ts).length := by
  induction ts generalizing first with
  | nil => exact Nat.le_refl _
  | cons t ts ih =>
      obtain ⟨-, hne, -, hmore⟩ := h
      have hpos : 0 < t.text.toList.length := List.length_pos_iff.mpr (by simpa using hne)
      have hle := ih hmore
      rw [texts_cons, List.length_append, List.length_cons]
      omega

/-- A fault and the text at which reading stops with it: a string that opens and does not close, or
a control character that is no blank, told by its first byte. -/
inductive LexFault.Stands : LexFault → List Char → Prop where
  | unclosed {d : Delimiter} {text body : List Char} (span : Span) (hopens : Opens d text body)
      (hcloses : ¬d.Closes body) : Stands (.unclosedString span) text
  | control {c : Char} (rest : List Char) (span : Span) (hcontrol : isControl c)
      (hblank : ¬isBlank c) : Stands (.strayByte ((encodeChar c).headD 0) span) (c :: rest)

/-- Control characters other than blanks are found in strings and comments only. -/
def Token.Guarded (t : Token) : Prop :=
  (t.kind = .comment ∨ ∃ value, t.kind = .string value) ∨ OnlyBlankControls t.text.toList

namespace Lexer

variable {source before : List Char} {x : Lexer}

/-! ## One step -/

/-- How a lexer goes on: it is at the end, it takes a token off the text, or it stops at a fault. -/
inductive Step (x : Lexer) : Option (Except LexFault Token) × Lexer → Prop where
  | finish (hrest : x.rest = []) : Step x (none, { x with stopped := true })
  | take {t : Token} {rest : List Char} (hrest : x.rest = t.text.toList ++ rest) (hne : t.text ≠ "")
      (hguarded : t.Guarded)
      (hspan : t.span = .between x.place (x.place.offset + size t.text.toList)) :
      Step x (some (.ok t), { x with rest := rest, place := x.place.after t.text.toList })
  | stop {fault : LexFault} (hstart : fault.span.start = x.place.offset)
      (hstands : fault.Stands x.rest) : Step x (some (.error fault), { x with stopped := true })

theorem next_step (h : x.stopped = false) : x.Step x.next := by
  cases hscan : Token.scan x.rest with
  | finished =>
      have hnext : x.next = (none, { x with stopped := true }) := by simp [next, h, hscan]
      rw [hnext]
      exact .finish (scan_finished hscan)
  | lexeme l =>
      obtain ⟨htext, hne⟩ := scan_append hscan
      have hnext : x.next = (some (.ok (tokenAt x.place l)),
          { x with rest := l.rest, place := x.place.after (tokenAt x.place l).text.toList }) := by
        simp [next, h, hscan, tokenAt]
      rw [hnext]
      apply Step.take
      · simp [tokenAt, htext]
      · simpa [tokenAt] using hne
      · simpa [Guarded, tokenAt] using scan_lexeme_controls hscan
      · simp [tokenAt, Place.offset_after]
  | unclosed =>
      obtain ⟨d, body, hopens, hcloses⟩ := scan_unclosed_opens hscan
      have hnext : x.next =
          (some (.error (unclosedAt x.place)), { x with stopped := true }) := by
        simp [next, h, hscan]
      rw [hnext]
      exact .stop rfl (.unclosed _ hopens hcloses)
  | control c =>
      obtain ⟨rest, hrest, hcontrol, hblank⟩ := scan_control hscan
      have hnext : x.next =
          (some (.error (controlAt x.place c)), { x with stopped := true }) := by
        simp [next, h, hscan]
      rw [hnext]
      apply Step.stop rfl
      rw [hrest]
      exact .control rest _ hcontrol hblank

/-! ## A whole run -/

/-- How a run of a lexer ends: at the end of its text, or at a fault. -/
inductive Ends (first : Nat) (text : List Char) (ts : List Token) :
    List (Except LexFault Token) → Prop where
  | finished (htext : text = texts ts) : Ends first text ts (ts.map .ok)
  | stopped {fault : LexFault} {rest : List Char} (htext : text = texts ts ++ rest)
      (hstart : fault.span.start = first + size (texts ts)) (hstands : fault.Stands rest) :
      Ends first text ts (ts.map .ok ++ [.error fault])

theorem Ends.cons {t : Token} {ts : List Token} {results : List (Except LexFault Token)}
    {first : Nat} {text : List Char} (h : Ends (first + size t.text.toList) text ts results) :
    Ends first (t.text.toList ++ text) (t :: ts) (.ok t :: results) := by
  cases h with
  | finished htext =>
      apply Ends.finished
      rw [htext, texts_cons]
  | stopped htext hstart hstands =>
      apply Ends.stopped
      · rw [htext, texts_cons, List.append_assoc]
      · simp only [hstart, texts_cons, size_append]
        omega
      · exact hstands

theorem drainFor_stopped (n : Nat) (h : x.stopped = true) : drainFor n x = ([], x) := by
  cases n <;> simp [drainFor, next, h]

/-- The tokens of a run tile what it reads. -/
theorem drainFor_tiles (n : Nat) (hn : x.rest.length < n) (hx : x.stopped = false)
    (hsource : source = before ++ x.rest) (hplace : x.place = Place.start.after before) :
    ∃ ts, Ends (size before) x.rest ts (drainFor n x).1 ∧ (drainFor n x).2.stopped = true ∧
      Tiles source (size before) ts (size before + size (texts ts)) ∧ ∀ t ∈ ts, t.Guarded := by
  induction n generalizing x before with
  | zero => omega
  | succ n ih =>
      have hoffset : x.place.offset = size before := by rw [hplace, Place.start_after]
      have hstep := next_step hx
      cases hnext : x.next with
      | mk result x' =>
          rw [hnext] at hstep
          rw [drainFor, hnext]
          cases hstep with
          | finish hrest =>
              refine ⟨[], ?_, rfl, rfl, by simp⟩
              exact Ends.finished hrest
          | @take t rest hrest hne hguarded hspan =>
              have hlength : rest.length < n := by
                have hpos : 0 < t.text.toList.length := by
                  apply List.length_pos_iff.mpr
                  simpa using hne
                rw [hrest, List.length_append] at hn
                omega
              have hsplit : source = (before ++ t.text.toList) ++ rest := by
                rw [hsource, hrest, List.append_assoc]
              have hafter : x.place.after t.text.toList =
                  Place.start.after (before ++ t.text.toList) := by
                rw [hplace, Place.after_append]
              let x' : Lexer := { x with rest := rest, place := x.place.after t.text.toList }
              obtain ⟨ts, hends, hstopped, htiles, hall⟩ := ih (x := x') hlength hx hsplit hafter
              rw [size_append] at hends htiles
              have hslice := slice?_append before t.text.toList rest
              rw [← hsplit, size_append] at hslice
              refine ⟨t :: ts, ?_, hstopped, ?_, by simpa using ⟨hguarded, hall⟩⟩
              · rw [hrest]
                exact hends.cons
              · simp only [Tiles, hspan, Span.between, hoffset, texts_cons, size_append]
                refine ⟨trivial, hne, hslice, ?_⟩
                rwa [← Nat.add_assoc]
          | stop hstart hstands =>
              have hafter := drainFor_stopped n (x := { x with stopped := true }) rfl
              simp only [hafter]
              refine ⟨[], Ends.stopped rfl ?_ hstands, trivial, rfl, by simp⟩
              rw [hstart, hoffset]
              rfl

theorem drain_tiles (source : List Char) :
    ∃ ts, Ends 0 source ts (ofSource source).drain.1 ∧ (ofSource source).drain.2.stopped = true ∧
      Tiles source 0 ts (size (texts ts)) ∧ ∀ t ∈ ts, t.Guarded := by
  have hrun : ∃ ts, Ends (size []) source ts (ofSource source).drain.1 ∧
      (ofSource source).drain.2.stopped = true ∧
      Tiles source (size []) ts (size [] + size (texts ts)) ∧ ∀ t ∈ ts, t.Guarded :=
    drainFor_tiles (x := ofSource source) _ (Nat.lt_succ_self _) rfl (List.nil_append _).symm rfl
  simpa using hrun

theorem collect_map_ok (ts : List Token) : collect (ts.map .ok) = .ok ts := by
  induction ts with
  | nil => rfl
  | cons t ts ih =>
      rw [List.map_cons, collect, ih]
      rfl

theorem collect_map_ok_error (ts : List Token) (fault : LexFault) :
    collect (ts.map .ok ++ [.error fault]) = .error fault := by
  induction ts with
  | nil => rfl
  | cons t ts ih =>
      rw [List.map_cons, List.cons_append, collect, ih]
      rfl

/-- A source has no more tokens than characters. -/
theorem tokens_length_le {tokens : List Token} (h : Lexer.tokens source = .ok tokens) :
    tokens.length ≤ source.length := by
  obtain ⟨ts, hends, -, htiles, -⟩ := drain_tiles source
  rw [Lexer.tokens] at h
  generalize (ofSource source).drain.1 = results at hends h
  cases hends with
  | finished htext =>
      rw [collect_map_ok] at h
      cases h
      rw [htext]
      exact htiles.length_le
  | stopped =>
      rw [collect_map_ok_error] at h
      cases h

/-- Whatever the source, the tokens read tile it from its beginning, and once they are all read
there is nothing more to come. Either they go on to its end; or a single fault follows them, which
begins where they end, and what stands there is a string without a closing delimiter or the first
control character, blanks excepted, outside strings and comments. -/
theorem tokens_tile_source (source : List Char) :
    ∃ ts rest, source = texts ts ++ rest ∧ Tiles source 0 ts (size (texts ts)) ∧
      (∀ t ∈ ts, t.Guarded) ∧ (ofSource source).drain.2.next.1 = none ∧
      (((ofSource source).drain.1 = ts.map .ok ∧ Lexer.tokens source = .ok ts ∧ rest = []) ∨
        ∃ fault, (ofSource source).drain.1 = ts.map .ok ++ [.error fault] ∧
          Lexer.tokens source = .error fault ∧ fault.span.start = size (texts ts) ∧
            fault.Stands rest) := by
  obtain ⟨ts, hends, hstopped, htiles, hall⟩ := drain_tiles source
  have hdone : (ofSource source).drain.2.next.1 = none := by simp [next, hstopped]
  generalize hdrain : (ofSource source).drain.1 = results at hends
  cases hends with
  | finished htext =>
      refine ⟨ts, [], by simpa using htext, htiles, hall, hdone, .inl ⟨rfl, ?_, rfl⟩⟩
      rw [Lexer.tokens, hdrain, collect_map_ok]
  | @stopped fault rest htext hstart hstands =>
      rw [Nat.zero_add] at hstart
      refine ⟨ts, rest, htext, htiles, hall, hdone, .inr ⟨fault, rfl, ?_, hstart, hstands⟩⟩
      rw [Lexer.tokens, hdrain, collect_map_ok_error]

end Lexer

end Storyworld

namespace Storyworld

/-! ## Lexemes

A source that is read to its end is cut into lexemes, and its tokens are these lexemes laid one
behind the other. What is said of the tokens of a source then needs no lexer with its place: it is
an induction over the lexemes. -/

namespace Token

/-- A text and the lexemes it is cut into, each found where the one before it ends. -/
inductive Cut : List Char → List Lexeme → Prop where
  | nil : Cut [] []
  | cons {cs : List Char} {l : Lexeme} {ls : List Lexeme} (h : scan cs = .lexeme l)
      (hrest : Cut l.rest ls) : Cut cs (l :: ls)

theorem cut_cons_iff {cs : List Char} {l : Lexeme} {ls : List Lexeme} :
    Cut cs (l :: ls) ↔ scan cs = .lexeme l ∧ Cut l.rest ls := by
  constructor
  · intro h
    cases h with
    | cons hscan hrest => exact ⟨hscan, hrest⟩
  · exact fun h => .cons h.1 h.2

theorem rest_length_lt {cs : List Char} {l : Lexeme} (h : scan cs = .lexeme l) :
    l.rest.length < cs.length := by
  obtain ⟨htext, hne⟩ := scan_append h
  have hpos := List.length_pos_iff.mpr hne
  rw [← htext, List.length_append]
  omega

/-! ## What the first character decides -/

theorem scan_quote {quote : Char} (h : IsQuote quote) (cs : List Char) :
    scan (quote :: cs) = .ofString (scanQuoted? quote cs) := by
  rw [scan]
  rcases h with rfl | rfl
  · have hblank : Text.isBlank '"' = false := by decide
    simp [hblank]
  · have hblank : Text.isBlank '\'' = false := by decide
    simp [hblank]

theorem scan_arrow (cs : List Char) :
    scan ('-' :: '>' :: cs) = .lexeme ⟨.mark .arrow, ['-', '>'], cs⟩ := by
  have hblank : Text.isBlank '-' = false := by decide
  rw [scan, hblank]
  rfl

theorem scan_raw {cs : List Char} (h : opensRaw cs) : scan ('r' :: cs) = .ofString (scanRaw? cs) := by
  have hblank : Text.isBlank 'r' = false := by decide
  rw [scan]
  simp [hblank, h]

end Token

namespace Lexer

open Token

variable {source cs : List Char} {ls : List Lexeme} {tokens : List Token} {x : Lexer} {n : Nat}

/-- The tokens that lexemes are from a place on. -/
def laid : Place → List Lexeme → List Token
  | _, [] => []
  | p, l :: ls => tokenAt p l :: laid (p.after l.text) ls

@[simp] theorem laid_nil (p : Place) : laid p [] = [] := rfl

@[simp] theorem laid_cons (p : Place) (l : Lexeme) (ls : List Lexeme) :
    laid p (l :: ls) = tokenAt p l :: laid (p.after l.text) ls := rfl

@[simp] theorem length_laid (p : Place) (ls : List Lexeme) : (laid p ls).length = ls.length := by
  induction ls generalizing p with
  | nil => rfl
  | cons l ls ih => simp [ih]

/-- As each lexeme takes a character, there are rounds enough for all of them. -/
theorem drainFor_of_cut (h : Cut cs ls) (hx : x.stopped = false) (hrest : x.rest = cs)
    (hn : cs.length < n) : (drainFor n x).1 = (laid x.place ls).map .ok := by
  induction h generalizing x n with
  | nil =>
      cases n with
      | zero => omega
      | succ n => simp [drainFor, next, hx, hrest, scan]
  | @cons cs l ls hscan _ ih =>
      cases n with
      | zero => omega
      | succ n =>
          have hlength : l.rest.length < n := by
            have hlt := rest_length_lt hscan
            omega
          have hmore := ih (x := { x with rest := l.rest, place := x.place.after l.text })
            hx rfl hlength
          rw [hx] at hmore
          simp [drainFor, next, hx, hrest, hscan, hmore]

theorem cut_of_drainFor (hx : x.stopped = false) (hn : x.rest.length < n)
    (h : collect (drainFor n x).1 = .ok tokens) : ∃ ls, Cut x.rest ls ∧ tokens = laid x.place ls := by
  induction n generalizing x tokens with
  | zero => omega
  | succ n ih =>
      cases hscan : scan x.rest with
      | finished =>
          simp only [drainFor, next, hx, hscan, Bool.false_eq_true, if_false, collect] at h
          cases h
          exact ⟨[], scan_finished hscan ▸ .nil, rfl⟩
      | lexeme l =>
          have hlength : l.rest.length < n := by
            have hlt := rest_length_lt hscan
            omega
          simp only [drainFor, next, hx, hscan, Bool.false_eq_true, if_false] at h
          obtain ⟨more, hmore, rfl⟩ := collect_ok_cons h
          obtain ⟨ls, hcut, rfl⟩ := ih rfl hlength hmore
          exact ⟨l :: ls, .cons hscan hcut, rfl⟩
      | unclosed =>
          simp only [drainFor, next, hx, hscan, Bool.false_eq_true, if_false, collect] at h
          cases h
      | control c =>
          simp only [drainFor, next, hx, hscan, Bool.false_eq_true, if_false, collect] at h
          cases h

/-- A source has tokens where it is cut into lexemes to its end. -/
theorem tokens_eq_ok_iff :
    Lexer.tokens source = .ok tokens ↔ ∃ ls, Cut source ls ∧ tokens = laid .start ls := by
  constructor
  · exact cut_of_drainFor (x := ofSource source) rfl (Nat.lt_succ_self _)
  · rintro ⟨ls, hcut, rfl⟩
    have hall := drainFor_of_cut (x := ofSource source) hcut rfl rfl (Nat.lt_succ_self _)
    rw [Lexer.tokens, drain]
    exact (congrArg collect hall).trans (collect_map_ok _)

end Lexer

end Storyworld
