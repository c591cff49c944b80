import Storyworld.Document.Grammar
import Storyworld.Proofs.Position.Place
import Storyworld.Proofs.Token.Scan

namespace Storyworld

/-! Tokens are written where they say they are, and so are the faults that stand in their place. -/

open Text Text.Utf8

namespace Token

variable {cs : List Char} {l : Lexeme} {w : String}

/-! ## Reserved words -/

theorem ofWord_keyword {word : List Char} (h : Kind.ofWord word = .keyword w) :
    String.ofList word = w := by
  unfold Kind.ofWord at h
  simp only at h
  split at h
  · cases h
  split at h
  · cases h
  split at h
  · cases h
  split at h
  · cases h
    rfl
  · cases h

theorem scanWord_keyword (h : (scanWord cs).kind = .keyword w) (hw : w ≠ "only once") :
    String.ofList (scanWord cs).text = w := by
  have hword : scanWord cs = ⟨Kind.ofWord (splitWord cs).1, (splitWord cs).1, (splitWord cs).2⟩ ∨
      (scanWord cs).kind = .keyword "only once" := by
    unfold scanWord
    simp only
    split
    · split
      · exact .inr rfl
      · exact .inl rfl
    · exact .inl rfl
  rcases hword with hword | hphrase
  · rw [hword] at h ⊢
    exact ofWord_keyword h
  · rw [hphrase] at h
    cases h
    exact absurd rfl hw

theorem ofString_kind {opening : List Char} {q? : Option Quotation}
    (h : Scan.ofString (q?.map (Quotation.lexeme opening)) = .lexeme l) :
    ∃ value, l.kind = .string value := by
  obtain ⟨q, -, rfl⟩ := Option.map_eq_some_iff.mp (ofString_lexeme h)
  exact ⟨_, rfl⟩

/-- Reserved words, booleans, numbers and identifiers are words. -/
theorem scan_word (h : scan cs = .lexeme l)
    (hk : (∃ w, l.kind = .keyword w) ∨ (∃ b, l.kind = .boolean b) ∨ l.kind = .number ∨
      l.kind = .identifier) : l = scanWord cs := by
  have hstring {opening : List Char} {q? : Option Quotation}
      (h : Scan.ofString (q?.map (Quotation.lexeme opening)) = .lexeme l) : False := by
    obtain ⟨value, hvalue⟩ := ofString_kind h
    simp [hvalue] at hk
  cases cs with
  | nil => cases h
  | cons c cs =>
      rw [scan] at h
      split at h
      · cases h
        simp [scanRun] at hk
      split at h
      · cases h
        simp [scanRun] at hk
      split at h
      · exact (hstring h).elim
      split at h
      · unfold scanQuoted? at h
        split at h <;> exact (hstring h).elim
      split at h
      · cases h
        simp at hk
      split at h
      · cases h
        rfl
      split at h
      · cases h
      split at h <;> cases h <;> simp at hk

/-- A reserved word that is cut off a text is written as it reads. -/
theorem scan_keyword (h : scan cs = .lexeme l) (hk : l.kind = .keyword w) (hw : w ≠ "only once") :
    String.ofList l.text = w := by
  obtain rfl := scan_word h (.inl ⟨w, hk⟩)
  exact scanWord_keyword hk hw

end Token

namespace Lexer

/-! ## Reading a source -/

/-- Where a lexer stands in a source: it has what follows and knows the place behind what comes
before. -/
def StandsIn (source : List Char) (x : Lexer) : Prop :=
  ∃ before, source = before ++ x.rest ∧ x.place = Place.start.after before

/-- What a token, or the fault in its place, tells about a source is so. -/
def Holds (source : List Char) : Except LexFault Token → Prop
  | .ok t => t.WrittenIn source ∧ t.IsSpelled
  | .error fault => fault.span.Accurate source

variable {source : List Char} {x x' : Lexer} {result : Except LexFault Token}

theorem ofSource_standsIn (source : List Char) : (ofSource source).StandsIn source :=
  ⟨[], rfl, rfl⟩

theorem unclosedAt_accurate {before rest : List Char} {c : Char}
    (h : source = before ++ c :: rest) (hc : c.utf8Size = 1) :
    (unclosedAt (Place.start.after before)).span.Accurate source := by
  have hstop : (Place.start.after before).offset + 1 = size (before ++ [c]) := by
    rw [Place.start_after]
    simp [hc]
  rw [unclosedAt, LexFault.span, hstop]
  exact .between (show source = before ++ [c] ++ rest by simpa using h)

theorem controlAt_accurate {before rest : List Char} {c : Char}
    (h : source = before ++ c :: rest) :
    (controlAt (Place.start.after before) c).span.Accurate source := by
  have hstop : (Place.start.after before).offset + c.utf8Size = size (before ++ [c]) := by
    rw [Place.start_after]
    simp
  rw [controlAt, LexFault.span, hstop]
  exact .between (show source = before ++ [c] ++ rest by simpa using h)

/-- One step of a lexer gives a token that is written where it stands, and goes behind it. -/
theorem next_holds (hx : x.StandsIn source) (h : x.next = (some result, x')) :
    Holds source result ∧ x'.StandsIn source := by
  obtain ⟨before, hsource, hplace⟩ := hx
  unfold next at h
  split at h
  · cases h
  split at h
  · cases h
  · rename_i l hscan
    cases h
    obtain ⟨htext, -⟩ := Token.scan_append hscan
    have hsplit : source = before ++ l.text ++ l.rest := by
      rw [List.append_assoc, htext, hsource]
    refine ⟨⟨⟨before, l.rest, ?_, ?_⟩, ?_⟩, before ++ l.text, hsplit, ?_⟩
    · simpa [tokenAt] using hsplit
    · simp [tokenAt, hplace, ← Place.after_append, Place.start_after (before ++ l.text)]
    · intro w hk hw
      exact Token.scan_keyword hscan hk hw
    · simp [hplace, Place.after_append]
  · rename_i hscan
    cases h
    obtain ⟨c, rest, hrest, hc⟩ := Token.scan_unclosed hscan
    refine ⟨?_, before, hsource, hplace⟩
    rw [hplace]
    exact unclosedAt_accurate (hrest ▸ hsource) hc
  · rename_i c hscan
    cases h
    obtain ⟨rest, hrest, -⟩ := Token.scan_control hscan
    refine ⟨?_, before, hsource, hplace⟩
    rw [hplace]
    exact controlAt_accurate (hrest ▸ hsource)

theorem drainFor_holds (n : Nat) (hx : x.StandsIn source) :
    ∀ result ∈ (drainFor n x).1, Holds source result := by
  induction n generalizing x with
  | zero => simp [drainFor]
  | succ n ih =>
      unfold drainFor
      split
      · simp
      · rename_i result x' hnext
        obtain ⟨hresult, hx'⟩ := next_holds hx hnext
        simpa using ⟨hresult, ih hx'⟩

/-! ## All tokens -/

theorem mem_of_collect_ok {results : List (Except LexFault Token)} {tokens : List Token}
    (h : collect results = .ok tokens) : ∀ t ∈ tokens, .ok t ∈ results := by
  induction results generalizing tokens with
  | nil =>
      cases h
      simp
  | cons result results ih =>
      cases result with
      | error fault => cases h
      | ok t =>
          rw [collect] at h
          cases hmore : collect results with
          | error fault =>
              rw [hmore] at h
              cases h
          | ok more =>
              rw [hmore] at h
              cases h
              intro u hu
              rcases List.mem_cons.mp hu with rfl | hu
              · exact List.mem_cons_self
              · exact List.mem_cons_of_mem _ (ih hmore u hu)

theorem tokens_writtenIn {tokens : List Token} (h : Lexer.tokens source = .ok tokens) :
    ∀ t ∈ tokens, t.WrittenIn source ∧ t.IsSpelled := by
  intro t ht
  exact drainFor_holds _ (ofSource_standsIn source) _ (mem_of_collect_ok h t ht)

/-- The tokens of a source; none where it has a fault. -/
def tokensOf (source : String) : List Token :=
  (Lexer.tokens source.toList).toOption.getD []

/-- The end of a source, told from its last token, is accurate. -/
theorem endOf_accurate {tokens : List Token} (h : ∀ t ∈ tokens, t.WrittenIn source) :
    (Tree.endOf tokens).Accurate source := by
  unfold Tree.endOf
  split
  · exact (h _ (List.mem_of_getLast? ‹_›)).stop_accurate
  · exact .origin

end Lexer

end Storyworld

namespace Storyworld

/-! ## Order

Tokens lie in a source one behind the other. -/

/-- Tokens each of which covers something and ends before the next one begins. -/
structure InOrder (ts : List Token) : Prop where
  lt : ∀ t ∈ ts, t.span.start < t.span.stop
  pairwise : ts.Pairwise fun t u => t.span.stop ≤ u.span.start

namespace InOrder

variable {t u : Token} {ts us : List Token}

theorem nil : InOrder [] :=
  ⟨by simp, .nil⟩

theorem sublist (h : InOrder ts) (hsub : us.Sublist ts) : InOrder us :=
  ⟨fun t ht => h.lt t (hsub.subset ht), h.pairwise.sublist hsub⟩

theorem left (h : InOrder (ts ++ us)) : InOrder ts :=
  h.sublist (List.sublist_append_left ts us)

theorem right (h : InOrder (ts ++ us)) : InOrder us :=
  h.sublist (List.sublist_append_right ts us)

theorem before (h : InOrder (ts ++ us)) (ht : t ∈ ts) (hu : u ∈ us) : t.span.stop ≤ u.span.start :=
  (List.pairwise_append.mp h.pairwise).2.2 t ht u hu

/-- No token begins before the first one. -/
theorem head_le (h : InOrder (t :: ts)) (hu : u ∈ t :: ts) : t.span.start ≤ u.span.start := by
  rcases List.mem_cons.mp hu with rfl | hu
  · exact Nat.le_refl _
  · have hbefore := (List.pairwise_cons.mp h.pairwise).1 u hu
    have hlt := h.lt t (by simp)
    omega

/-- No token ends behind the last one. -/
theorem le_last (h : InOrder ts) (hne : ts ≠ []) (hu : u ∈ ts) :
    u.span.stop ≤ (ts.getLast hne).span.stop := by
  have hsplit := List.dropLast_concat_getLast hne
  rw [← hsplit] at h hu
  rcases List.mem_append.mp hu with hu | hu
  · have hbefore := h.before hu (List.mem_singleton_self _)
    have hlt := h.lt (ts.getLast hne) (by simp)
    omega
  · exact Nat.le_of_eq (by rw [List.mem_singleton.mp hu])

end InOrder

namespace Lexer

open Text

variable {source : List Char} {x x' : Lexer} {tokens : List Token}

theorem collect_ok_cons {t : Token} {results : List (Except LexFault Token)}
    (h : collect (.ok t :: results) = .ok tokens) :
    ∃ more, collect results = .ok more ∧ tokens = t :: more := by
  rw [collect] at h
  cases hmore : collect results with
  | error fault =>
      rw [hmore] at h
      cases h
  | ok more =>
      rw [hmore] at h
      cases h
      exact ⟨more, rfl, rfl⟩

/-- One step gives a token that begins where the lexer stands and goes to where it ends. -/
theorem next_ok {t : Token} (h : x.next = (some (.ok t), x')) :
    t.span.start = x.place.offset ∧ t.span.stop = x'.place.offset ∧
      t.span.start < t.span.stop := by
  unfold next at h
  split at h
  · cases h
  split at h
  · cases h
  · rename_i l hscan
    cases h
    obtain ⟨c, cs, htext⟩ := List.exists_cons_of_ne_nil (Token.scan_append hscan).2
    have hpos : 0 < c.utf8Size := Char.utf8Size_pos c
    refine ⟨rfl, rfl, ?_⟩
    simp only [tokenAt, Span.between, Place.offset_after, htext, Text.size_cons]
    omega
  · cases h
  · cases h

theorem drainFor_inOrder (n : Nat) (h : collect (drainFor n x).1 = .ok tokens) :
    InOrder tokens ∧ ∀ t ∈ tokens, x.place.offset ≤ t.span.start := by
  induction n generalizing x tokens with
  | zero =>
      cases h
      exact ⟨.nil, by simp⟩
  | succ n ih =>
      rw [drainFor] at h
      split at h
      · cases h
        exact ⟨.nil, by simp⟩
      · rename_i result x' hnext
        cases result with
        | error fault => cases h
        | ok t =>
            obtain ⟨more, hmore, rfl⟩ := collect_ok_cons h
            obtain ⟨horder, hle⟩ := ih hmore
            obtain ⟨hstart, hstop, hlt⟩ := next_ok hnext
            refine ⟨⟨?_, List.pairwise_cons.mpr ⟨fun u hu => ?_, horder.pairwise⟩⟩, fun u hu => ?_⟩
            · simpa using ⟨hlt, horder.lt⟩
            · exact hstop ▸ hle u hu
            · rcases List.mem_cons.mp hu with rfl | hu
              · exact Nat.le_of_eq hstart.symm
              · have hbehind := hle u hu
                omega

theorem tokens_inOrder (h : Lexer.tokens source = .ok tokens) : InOrder tokens :=
  (drainFor_inOrder _ h).1

end Lexer

end Storyworld
