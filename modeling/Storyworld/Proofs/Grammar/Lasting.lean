import Storyworld.Proofs.Grammar.Triggers

namespace Storyworld.Grammar

/-! What stays true while reading. Reading takes tokens, writes to the log and records faults at the
next token, and what each of these keeps holds wherever reading comes to. -/

/-- What holds of a state and of all states that come of it. A fault of a parser counts as if it
were recorded. -/
structure Lasting (I : State → Prop) (c : Context) : Prop where
  advance : ∀ {s : State}, I s → I s.advance
  log : ∀ {s : State} (log : List Log.Entry), I s → I { s with log }
  fault : ∀ {s : State} (cause : SyntaxFault.Cause), I s → I (s.faulted ⟨cause, s.place c⟩)

/-- A parser that keeps `I`. -/
structure Keeps (I : State → Prop) (c : Context) (p : Parse α) : Prop where
  ok : ∀ {s a s'}, I s → p c s = .ok a s' → I s'
  error : ∀ {s fault s'}, I s → p c s = .error fault s' → I (s'.faulted fault)

variable {I : State → Prop} {fl tk : Bool} {c : Context} {s : State}

namespace Lasting

theorem unexpected (hI : Lasting I c) (hs : I s) (expected : List String) :
    I (s.faulted (s.unexpected c expected)) := by
  have hfault := hI.fault (s.unexpected c expected).cause hs
  cases hr : s.rest <;> simpa [State.unexpected, State.place, hr] using hfault

/-- A fault at a token that has been taken. -/
theorem faultBehind {t : Token} {rest : List Token} (hI : Lasting I c) (hs : I s)
    (hr : s.rest = t :: rest) (cause : SyntaxFault.Cause) :
    I (s.advance.faulted ⟨cause, t.span⟩) := by
  have hfault := hI.advance (hI.fault cause hs)
  have hplace : s.place c = t.span := by simp [State.place, hr]
  rwa [hplace, advance_faulted] at hfault

theorem skip (hI : Lasting I c) (hs : I s) (stops : Nat → Token → Bool) : I (s.skip stops) := by
  induction hr : s.rest generalizing s with
  | nil => rwa [skip_of_nil hr]
  | cons t rest ih =>
      cases hstop : stops s.depth t with
      | true => rwa [skip_of_stop hr hstop]
      | false =>
          rw [skip_of_pass hr hstop]
          exact ih (hI.log _ (hI.advance hs)) (by simp [State.pass, advance_of_cons hr])

theorem resumed (hI : Lasting I c) (hs : I s) (stops : Nat → Token → Bool) (left : Nat) :
    I (s.resumed stops left) := by
  unfold State.resumed
  split
  · exact hI.skip (hI.advance hs) stops
  · exact hI.skip hs stops

end Lasting

namespace Keeps

theorem pure (a : α) : Keeps I c (Pure.pure a : Parse α) := by
  refine ⟨fun hs hok => ?_, fun _ herr => by cases herr⟩
  cases hok
  exact hs

theorem bind {p : Parse α} {f : α → Parse β} (hp : Keeps I c p) (hf : ∀ a, Keeps I c (f a)) :
    Keeps I c (p >>= f) := by
  constructor
  · intro s b s'' hs h
    rw [run_bind] at h
    cases hps : p c s with
    | error fault s' => simp [hps] at h
    | ok a s' =>
        rw [hps] at h
        exact (hf a).ok (hp.ok hs hps) h
  · intro s fault s'' hs h
    rw [run_bind] at h
    cases hps : p c s with
    | error fault' s' =>
        rw [hps] at h
        cases h
        exact hp.error hs hps
    | ok a s' =>
        rw [hps] at h
        exact (hf a).error (hp.ok hs hps) h

theorem map {p : Parse α} {g : α → β} (hp : Keeps I c p) : Keeps I c (g <$> p) :=
  hp.bind fun a => pure (g a)

theorem fails {p : Parse α} {g : State → SyntaxFault} (h : ∀ s, p c s = .error (g s) s)
    (hg : ∀ {s}, I s → I (s.faulted (g s))) : Keeps I c p := by
  constructor
  · intro s a s' _ hok
    rw [h] at hok
    cases hok
  · intro s fault s' hs herr
    rw [h] at herr
    cases herr
    exact hg hs

theorem look (f : List Token → Bool) : Keeps I c (looking f) :=
  ⟨fun hs h => by cases h; exact hs, fun _ h => by cases h⟩

theorem eat (hI : Lasting I c) (f : List Token → Bool) : Keeps I c (eatWhen f) := by
  constructor
  · intro s b s' hs h
    rw [run_eatWhen] at h
    split at h <;> cases h
    · exact hI.advance hs
    · exact hs
  · intro s fault s' _ h
    rw [run_eatWhen] at h
    split at h <;> cases h

theorem take (hI : Lasting I c) (expected : List String) (accept : Token → Bool) :
    Keeps I c (expect expected accept) := by
  constructor
  · intro s t s' hs h
    obtain ⟨rest, -, -, rfl⟩ := expect_ok h
    exact hI.advance hs
  · intro s fault s' hs h
    obtain ⟨rfl, rfl⟩ := expect_error h
    exact hI.unexpected hs expected

theorem number (hI : Lasting I c) : Keeps I c Grammar.number := by
  constructor
  · intro s t s' hs h
    obtain ⟨rest, -, -, -, rfl⟩ := number_ok h
    exact hI.advance hs
  · intro s fault s' hs h
    obtain ⟨rfl, rfl⟩ | ⟨t, rest, hr, rfl, rfl⟩ := number_error h
    · exact hI.unexpected hs _
    · exact hI.faultBehind hs hr _

theorem node {parts : Parse (Rule × List Element)} (hp : Keeps I c parts) :
    Keeps I c (nodeBy parts) := by
  constructor
  · intro s n s' hs hok
    rw [run_nodeBy] at hok
    split at hok <;> cases hok
    exact hp.ok hs ‹_›
  · intro s fault s' hs herr
    rw [run_nodeBy] at herr
    split at herr <;> cases herr
    exact hp.error hs ‹_›

theorem collect {step : Parse (Option α)} (hp : Keeps I c step) (n : Nat) :
    Keeps I c (Grammar.collect step n) := by
  induction n with
  | zero => exact pure []
  | succ n ih =>
      refine hp.bind fun a? => ?_
      cases a? with
      | none => exact pure []
      | some a => exact ih.map

theorem many {step : Parse (Option α)} (hp : Keeps I c step) :
    Keeps I c (Grammar.many step) := by
  constructor
  · intro s as s' hs h
    rw [run_many] at h
    exact (hp.collect _).ok hs h
  · intro s fault s' hs h
    rw [run_many] at h
    exact (hp.collect _).error hs h

theorem round (hI : Lasting I c) {statement : Parse Node} (hp : Keeps I c statement)
    (depth : Nat) (starters : List String) :
    Keeps I c (Grammar.round depth starters statement) := by
  constructor
  · intro s ns? s' hs h
    cases roundDerivation_iff.mpr h with
    | outside hd => exact hs
    | closes hd hr ht => exact hI.advance hs
    | reads hd hr ht hstat => exact hp.ok hs hstat
    | resumes hd hr ht hstat hlt => exact hI.resumed (hp.error hs hstat) _ _
  · intro s fault s' hs h
    cases roundDerivation_iff.mpr h with
    | unclosed hd hr => exact hI.unexpected hs _
    | fails hd hr ht hstat hle => exact hp.error hs hstat

theorem block (hI : Lasting I c) {statement : Parse Node} (hp : Keeps I c statement)
    (starters : List String) : Keeps I c (Grammar.block starters statement) := by
  have hdepth : Keeps I c braceDepth := ⟨fun hs h => by cases h; exact hs, fun _ h => by cases h⟩
  rw [block_eq]
  exact (take hI _ _).map.bind fun _ => hdepth.bind fun depth =>
    (round hI hp depth starters).many.map

theorem lines (hI : Lasting I c) :
    Keeps I c (do Grammar.mark .openBrace; Grammar.many dialogueLine) := by
  have heat : Keeps I c (eatMark .closeBrace) := eat hI fun r => r[0]?.any (Token.isMark .closeBrace)
  have hline : Keeps I c dialogueLine := by
    refine heat.bind fun closed => ?_
    cases closed with
    | true => exact pure none
    | false => exact (take hI _ _).map
  exact (take hI _ _).map.bind fun _ => hline.many

end Keeps

/-- Every parser keeps what lasts. -/
theorem Composed.keeps {T : Token → Prop} {S : Span → Prop} {p : Parse α} {Q : α → Prop}
    (h : Composed T S fl tk p Q) (hI : Lasting I c) : Keeps I c p := by
  induction h with
  | done => exact .pure _
  | bind _ _ ihp ihf => exact ihp.bind ihf
  | andThen _ _ ihp ihf => exact ihp.bind ihf
  | map _ _ ih => exact ih.map
  | within _ ih => exact ⟨(ih c.settings.maxNesting).ok, (ih c.settings.maxNesting).error⟩
  | look f => exact .look f
  | fork f _ _ _ _ _ _ ihp ihq =>
      refine (Keeps.look f).bind fun found => ?_
      cases found
      exacts [ihq, ihp]
  | eat f => exact .eat hI f
  | take expected accept => exact .take hI expected accept
  | number => exact .number hI
  | unexpected expected =>
      exact .fails (fun _ => run_unexpected expected) fun hs => hI.unexpected hs expected
  | failHere cause => exact .fails (fun _ => run_failHere cause) fun hs => hI.fault _ hs
  | node _ _ ih => exact (ih .origin).node
  | many _ _ ih => exact ih.many
  | block starters _ ih => exact ih.block hI starters
  | lines => exact .lines hI

end Storyworld.Grammar

namespace Storyworld.Grammar

/-! ## Places that are there

Reading knows only places that are there: where the tokens left satisfy `T` and the places known
satisfy `S`, faults are put at such places. -/

/-- What a parser relies on: the tokens left satisfy `T`, and the places known satisfy `S`. -/
structure State.Sound (T : Token → Prop) (S : Span → Prop) (s : State) : Prop where
  rest : ∀ t ∈ s.rest, T t
  last : S s.last
  faults : ∀ f ∈ s.faults, S f.span

/-- What is asked of `T` and `S`: places of tokens and the end of the source are among the places,
and so is every region from one place to another. -/
structure Located (T : Token → Prop) (S : Span → Prop) (c : Context) : Prop where
  token : ∀ t, T t → S t.span
  upTo : ∀ a b, S a → S b → S (a.upTo b)
  eof : S c.eof

variable {T : Token → Prop} {S : Span → Prop} {c : Context} {s : State}

namespace State.Sound

theorem place (hs : s.Sound T S) (hL : Located T S c) : S (s.place c) := by
  cases hr : s.rest with
  | nil => simpa [State.place, hr] using hL.eof
  | cons t rest => simpa [State.place, hr] using hL.token t (hs.rest t (by simp [hr]))

theorem advance (hs : s.Sound T S) (hL : Located T S c) : s.advance.Sound T S := by
  cases hr : s.rest with
  | nil => rwa [advance_of_nil hr]
  | cons t rest =>
      rw [advance_of_cons hr]
      have hrest := hs.rest
      rw [hr] at hrest
      exact ⟨fun u hu => hrest u (by simp [hu]), hL.token t (hrest t (by simp)), hs.faults⟩

theorem fault (hs : s.Sound T S) {f : SyntaxFault} (hf : S f.span) :
    (s.faulted f).Sound T S := by
  refine ⟨hs.rest, hs.last, fun g hg => ?_⟩
  rcases List.mem_append.mp hg with hg | hg
  · exact hs.faults g hg
  · rw [List.mem_singleton.mp hg]
    exact hf

/-- Every parser keeps states sound. -/
theorem lasting (hL : Located T S c) : Lasting (State.Sound T S) c where
  advance hs := hs.advance hL
  log _ hs := ⟨hs.rest, hs.last, hs.faults⟩
  fault _ hs := hs.fault (hs.place hL)

end State.Sound

end Storyworld.Grammar
