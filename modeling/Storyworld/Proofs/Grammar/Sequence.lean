import Storyworld.Proofs.Grammar.Repair

namespace Storyworld

/-! In which order faults are found. Reading goes on behind a fault at the very token it was found
at, so that a second fault at the same token has to be ruled out: reading goes on there only with a
statement that begins with this token, or at the brace that ends a block. The end of the source is
the one place where several faults are found, as every block that is still open misses its brace
there. -/

/-- What can be wrong at the end of a source. -/
def SyntaxFault.Cause.AtEnd : SyntaxFault.Cause → Prop
  | .unexpectedEnd _ | .nestingTooDeep _ => True
  | _ => False

namespace Grammar

variable {α β : Type} {c : Context} {s s' s'' : State} {lo lo' : Nat} {fs gs : List SyntaxFault}
  {p : Parse α} {fault : SyntaxFault} {starters : List String} {statement : Parse Node}

/-! ## Places -/

/-- The tokens left are in order, and the source ends behind all of them. -/
structure State.Placed (c : Context) (s : State) : Prop where
  order : InOrder s.rest
  eof : ∀ t ∈ s.rest, t.span.start < c.eof.start

namespace State.Placed

theorem of_suffix (h : s.Placed c) (hs : s'.rest <:+ s.rest) : s'.Placed c :=
  ⟨h.order.sublist hs.sublist, fun t ht => h.eof t (hs.subset ht)⟩

theorem le_eof (h : s.Placed c) : (s.place c).start ≤ c.eof.start := by
  cases hr : s.rest with
  | nil => simp [State.place, hr]
  | cons t rest =>
      have hlt := h.eof t (by simp [hr])
      simp only [State.place, hr]
      omega

/-- The place moves with every token that is taken. -/
theorem lt (h : s.Placed c) (hs : s'.rest <:+ s.rest) (hlt : s'.rest.length < s.rest.length) :
    (s.place c).start < (s'.place c).start := by
  cases hr : s.rest with
  | nil => simp [hr] at hlt
  | cons t rest =>
      have horder := h.order
      rw [hr] at hs hlt horder
      have htoken := horder.lt t (by simp)
      have hrest : s'.rest <:+ rest := by
        rcases List.suffix_cons_iff.mp hs with heq | hrest
        · simp [heq] at hlt
        · exact hrest
      cases hr' : s'.rest with
      | nil =>
          have heof := h.eof t (by simp [hr])
          simpa [State.place, hr, hr'] using heof
      | cons u rest' =>
          have hu : u ∈ rest := hrest.subset (by simp [hr'])
          have hbefore := (List.pairwise_cons.mp horder.pairwise).1 u hu
          simp only [State.place, hr, hr']
          omega

theorem le (h : s.Placed c) (hs : s'.rest <:+ s.rest) :
    (s.place c).start ≤ (s'.place c).start := by
  rcases Nat.lt_or_eq_of_le hs.length_le with hlt | heq
  · exact (h.lt hs hlt).le
  · have hrest := hs.eq_of_length heq
    simp only [State.place, hrest]
    exact Nat.le_refl _

theorem rest_eq_nil (h : s.Placed c) (hle : c.eof.start ≤ (s.place c).start) : s.rest = [] := by
  cases hr : s.rest with
  | nil => rfl
  | cons t rest =>
      have hlt := h.eof t (by simp [hr])
      simp only [State.place, hr] at hle
      omega

end State.Placed

/-! ## Faults one behind the other -/

/-- Faults from an offset on, each of them behind the ones before it. At the end of the source there
can be several, all but the first of which are that something is missing there. -/
structure Successive (c : Context) (lo : Nat) (fs : List SyntaxFault) : Prop where
  le : ∀ f ∈ fs, lo ≤ f.span.start
  atEnd : ∀ f ∈ fs, c.eof.start ≤ f.span.start → f.span = c.eof ∧ f.cause.AtEnd
  pairwise : fs.Pairwise fun f g => f.span.start < g.span.start ∨
    f.span = c.eof ∧ g.span = c.eof ∧ ∃ es, g.cause = .unexpectedEnd es

namespace Successive

theorem nil : Successive c lo [] :=
  ⟨by simp, by simp, .nil⟩

theorem append (h : Successive c lo fs) (h' : Successive c lo' gs) (hle : lo ≤ lo')
    (hlt : ∀ f ∈ fs, ∀ g ∈ gs, f.span.start < g.span.start) : Successive c lo (fs ++ gs) where
  le f hf := by
    rcases List.mem_append.mp hf with hf | hf
    · exact h.le f hf
    · exact hle.trans (h'.le f hf)
  atEnd f hf := by
    rcases List.mem_append.mp hf with hf | hf
    · exact h.atEnd f hf
    · exact h'.atEnd f hf
  pairwise := by
    refine List.pairwise_append.mpr ⟨h.pairwise, h'.pairwise, fun f hf g hg => ?_⟩
    exact .inl (hlt f hf g hg)

/-- That the source ends too early can be found behind any other fault. -/
theorem ended (h : Successive c lo fs) (hle : ∀ f ∈ fs, f.span.start ≤ c.eof.start)
    (hlo : lo ≤ c.eof.start) (es : List String) :
    Successive c lo (fs ++ [⟨.unexpectedEnd es, c.eof⟩]) where
  le f hf := by
    rcases List.mem_append.mp hf with hf | hf
    · exact h.le f hf
    · rwa [List.mem_singleton.mp hf]
  atEnd f hf := by
    rcases List.mem_append.mp hf with hf | hf
    · exact h.atEnd f hf
    · rw [List.mem_singleton.mp hf]
      exact fun _ => ⟨rfl, trivial⟩
  pairwise := by
    refine List.pairwise_append.mpr ⟨h.pairwise, List.pairwise_singleton _ _, fun f hf g hg => ?_⟩
    rw [List.mem_singleton.mp hg]
    rcases Nat.lt_or_eq_of_le (hle f hf) with hlt | heq
    · exact .inl hlt
    · exact .inr ⟨(h.atEnd f hf heq.ge).1, rfl, es, rfl⟩

end Successive

/-! ## From one state to another -/

theorem unexpected_span (es : List String) : (s.unexpected c es).span = s.place c := by
  cases hr : s.rest <;> simp [State.unexpected, State.place, hr]

/-- Reading came from one state to another and found faults on its way, one behind the other. -/
structure State.Trail (c : Context) (s : State) (fs : List SyntaxFault) (s' : State) : Prop where
  rest : s'.rest <:+ s.rest
  faults : s'.faults = s.faults ++ fs
  successive : Successive c (s.place c).start fs
  le : ∀ f ∈ fs, f.span.start ≤ (s'.place c).start

namespace State.Trail

theorem unchanged (hrest : s'.rest <:+ s.rest) (hfaults : s'.faults = s.faults) :
    s.Trail c [] s' :=
  ⟨hrest, by simp [hfaults], .nil, by simp⟩

theorem advance (s : State) : s.Trail c [] s.advance :=
  unchanged State.Behind.advance.rest advance_faults

theorem trans (h : s.Trail c fs s') (h' : s'.Trail c gs s'') (hs : s.Placed c)
    (hlt : ∀ f ∈ fs, ∀ g ∈ gs, f.span.start < g.span.start) : s.Trail c (fs ++ gs) s'' where
  rest := h'.rest.trans h.rest
  faults := by rw [h'.faults, h.faults, List.append_assoc]
  successive := h.successive.append h'.successive (hs.le h.rest) hlt
  le f hf := by
    rcases List.mem_append.mp hf with hf | hf
    · exact (h.le f hf).trans ((hs.of_suffix h.rest).le h'.rest)
    · exact h'.le f hf

/-- The faults found behind a state are behind those found in front of it. -/
theorem trans_of_lt (h : s.Trail c fs s') (hlt : ∀ f ∈ fs, f.span.start < (s'.place c).start)
    (h' : s'.Trail c gs s'') (hs : s.Placed c) : s.Trail c (fs ++ gs) s'' :=
  h.trans h' hs fun f hf g hg => Nat.lt_of_lt_of_le (hlt f hf) (h'.successive.le g hg)

/-- Tokens that are passed over. -/
theorem pass (h : s.Trail c fs s') (hs : s.Placed c) (hrest : s''.rest <:+ s'.rest)
    (hfaults : s''.faults = s'.faults) : s.Trail c fs s'' := by
  have hpass := h.trans (unchanged hrest hfaults) hs (by simp)
  rwa [List.append_nil] at hpass

/-- A fault at the next token. -/
theorem found (hs : s.Placed c) (hspan : fault.span = s.place c)
    (hend : s.rest = [] → fault.cause.AtEnd) : s.Trail c [fault] (s.faulted fault) where
  rest := List.suffix_rfl
  faults := rfl
  successive := by
    refine ⟨?_, ?_, List.pairwise_singleton _ _⟩
    · simp [hspan]
    · intro f hf hle
      obtain rfl := List.mem_singleton.mp hf
      rw [hspan] at hle ⊢
      have hnil := hs.rest_eq_nil hle
      exact ⟨by simp [State.place, hnil], hend hnil⟩
  le f hf := by
    rw [List.mem_singleton.mp hf, hspan]
    exact Nat.le_refl _

theorem unexpected (hs : s.Placed c) (es : List String) :
    s.Trail c [s.unexpected c es] (s.faulted (s.unexpected c es)) := by
  refine .found hs (unexpected_span es) fun hnil => ?_
  simp [State.unexpected, hnil, SyntaxFault.Cause.AtEnd]

/-- Something is missing at the end. -/
theorem ended (h : s.Trail c fs s') (hs : s.Placed c) (hnil : s'.rest = []) (es : List String) :
    s.Trail c (fs ++ [s'.unexpected c es]) (s'.faulted (s'.unexpected c es)) where
  rest := h.rest
  faults := by simp [State.faulted, h.faults]
  successive := by
    have hle : ∀ f ∈ fs, f.span.start ≤ c.eof.start := by
      simpa [State.place, hnil] using h.le
    simpa [State.unexpected, hnil] using h.successive.ended hle hs.le_eof es
  le f hf := by
    rcases List.mem_append.mp hf with hf | hf
    · exact h.le f hf
    · rw [List.mem_singleton.mp hf]
      simp [State.unexpected, State.faulted, State.place, hnil]

end State.Trail

/-! ## Parsers -/

/-- A parser whose faults are found one behind the other. Where it succeeds the next token is behind
all of them, and as many braces are open as before. -/
structure Sequential (c : Context) (p : Parse α) : Prop where
  ok : ∀ {s a s'}, s.Placed c → p c s = .ok a s' →
    ∃ fs, s.Trail c fs s' ∧ s'.depth = s.depth ∧ ∀ f ∈ fs, f.span.start < (s'.place c).start
  error : ∀ {s fault s'}, s.Placed c → p c s = .error fault s' →
    ∃ fs, s.Trail c fs (s'.faulted fault) ∧ s.depth ≤ s'.depth

namespace Sequential

theorem pure (a : α) : Sequential c (Pure.pure a : Parse α) := by
  refine ⟨fun hs h => ?_, fun _ h => by cases h⟩
  cases h
  exact ⟨[], .unchanged List.suffix_rfl rfl, rfl, by simp⟩

theorem bind {f : α → Parse β} (hp : Sequential c p) (hf : ∀ a, Sequential c (f a)) :
    Sequential c (p >>= f) := by
  constructor
  · intro s b s'' hs h
    rw [run_bind] at h
    cases hps : p c s with
    | error fault s' => simp [hps] at h
    | ok a s' =>
        rw [hps] at h
        obtain ⟨fs, htrail, hdepth, hlt⟩ := hp.ok hs hps
        obtain ⟨gs, htrail', hdepth', hlt'⟩ := (hf a).ok (hs.of_suffix htrail.rest) h
        refine ⟨fs ++ gs, htrail.trans_of_lt hlt htrail' hs, hdepth'.trans hdepth, fun f hmem => ?_⟩
        rcases List.mem_append.mp hmem with hmem | hmem
        · exact (hlt f hmem).trans_le ((hs.of_suffix htrail.rest).le htrail'.rest)
        · exact hlt' f hmem
  · intro s fault s'' hs h
    rw [run_bind] at h
    cases hps : p c s with
    | error fault' s' =>
        rw [hps] at h
        cases h
        exact hp.error hs hps
    | ok a s' =>
        rw [hps] at h
        obtain ⟨fs, htrail, hdepth, hlt⟩ := hp.ok hs hps
        obtain ⟨gs, htrail', hdepth'⟩ := (hf a).error (hs.of_suffix htrail.rest) h
        exact ⟨fs ++ gs, htrail.trans_of_lt hlt htrail' hs, hdepth ▸ hdepth'⟩

theorem map {g : α → β} (hp : Sequential c p) : Sequential c (g <$> p) :=
  hp.bind fun a => pure (g a)

theorem ite {b : Prop} [Decidable b] {q : Parse α} (hp : Sequential c p) (hq : Sequential c q) :
    Sequential c (if b then p else q) := by
  split
  · exact hp
  · exact hq

theorem look (f : List Token → Bool) : Sequential c (looking f) := by
  refine ⟨fun hs h => ?_, fun _ h => by cases h⟩
  cases h
  exact ⟨[], .unchanged List.suffix_rfl rfl, rfl, by simp⟩

theorem fork {F : List Token → Bool} {q : Parse α} (hp : Sequential c p) (hq : Sequential c q) :
    Sequential c (do if ← looking F then p else q) :=
  (look F).bind fun _ => hp.ite hq

/-- A token other than a brace. -/
theorem advance_depth {t : Token} {rest : List Token} (hr : s.rest = t :: rest)
    (ht : t.isBrace = false) : s.advance.depth = s.depth := by
  rw [advance_of_cons hr]
  exact depthAfter_of_not_brace ht

theorem eat {f : List Token → Bool} (hf : Foresees f) : Sequential c (eatWhen f) := by
  constructor
  · intro s b s' hs h
    rw [run_eatWhen] at h
    split at h <;> cases h
    · obtain ⟨t, rest, hr, ht⟩ := hf _ ‹_›
      exact ⟨[], .advance s, advance_depth hr ht, by simp⟩
    · exact ⟨[], .unchanged List.suffix_rfl rfl, rfl, by simp⟩
  · intro s fault s' _ h
    rw [run_eatWhen] at h
    split at h <;> cases h

theorem take {expected : List String} {accept : Token → Bool}
    (h : ∀ t, accept t → t.isBrace = false) : Sequential c (expect expected accept) := by
  constructor
  · intro s t s' hs hrun
    obtain ⟨rest, hr, ht, rfl⟩ := expect_ok hrun
    exact ⟨[], .advance s, advance_depth hr (h t ht), by simp⟩
  · intro s fault s' hs hrun
    obtain ⟨rfl, rfl⟩ := expect_error hrun
    exact ⟨_, .unexpected hs expected, Nat.le_refl _⟩

theorem number : Sequential c Grammar.number := by
  constructor
  · intro s t s' hs h
    obtain ⟨rest, hr, hk, -, rfl⟩ := number_ok h
    exact ⟨[], .advance s, advance_depth hr (by simp [Token.isBrace, Token.isMark, hk]), by simp⟩
  · intro s fault s' hs h
    rcases number_error h with ⟨rfl, rfl⟩ | ⟨t, rest, hr, rfl, rfl⟩
    · exact ⟨_, .unexpected hs _, Nat.le_refl _⟩
    · have hk : t.kind = .number := by
        by_contra hk
        simp [run_number, hr, hk, State.unexpected] at h
      have hbrace : t.isBrace = false := by simp [Token.isBrace, Token.isMark, hk]
      have hplace : t.span = s.place c := by simp [State.place, hr]
      -- The fault lies at the token that has just been taken.
      have hfound : s.Trail c [⟨.malformedNumber t.text, t.span⟩] (s.faulted _) :=
        .found hs hplace (by simp [hr])
      refine ⟨_, hfound.pass hs State.Behind.advance.rest ?_, (advance_depth hr hbrace).ge⟩
      simp [State.faulted]

/-- A parser that finds fault with what comes next. -/
theorem fails {g : State → SyntaxFault} (h : ∀ s, p c s = .error (g s) s)
    (hspan : ∀ s, (g s).span = s.place c) (hend : ∀ s, s.rest = [] → (g s).cause.AtEnd) :
    Sequential c p := by
  refine ⟨fun _ hok => ?_, fun {s _ _} hs herr => ?_⟩
  · rw [h] at hok
    cases hok
  · rw [h] at herr
    cases herr
    exact ⟨_, .found hs (hspan s) (hend s), Nat.le_refl _⟩

theorem unexpected (es : List String) : Sequential c (Grammar.unexpected es : Parse α) := by
  refine ⟨fun _ h => ?_, fun hs h => ?_⟩
  · rw [run_unexpected] at h
    cases h
  · rw [run_unexpected] at h
    cases h
    exact ⟨_, .unexpected hs es, Nat.le_refl _⟩

theorem node {parts : Parse (Rule × List Element)} (hp : Sequential c parts) :
    Sequential c (nodeBy parts) := by
  constructor
  · intro s n s' hs h
    rw [run_nodeBy] at h
    split at h <;> cases h
    exact hp.ok hs ‹_›
  · intro s fault s' hs h
    rw [run_nodeBy] at h
    split at h <;> cases h
    exact hp.error hs ‹_›

theorem collect {step : Parse (Option α)} (hp : Sequential c step) (n : Nat) :
    Sequential c (Grammar.collect step n) := by
  induction n with
  | zero => exact pure []
  | succ n ih =>
      refine hp.bind fun a? => ?_
      cases a? with
      | none => exact pure []
      | some a => exact ih.map

theorem many {step : Parse (Option α)} (hp : Sequential c step) :
    Sequential c (Grammar.many step) := by
  refine ⟨fun hs h => ?_, fun hs h => ?_⟩
  · rw [run_many] at h
    exact (hp.collect _).ok hs h
  · rw [run_many] at h
    exact (hp.collect _).error hs h

end Sequential

/-- Parsers without blocks record no faults; the one they end with is at the next token or at the
number in front of it. -/
theorem Composed.sequential {T : Token → Prop} {S : Span → Prop} {fl tk : Bool} {Q : α → Prop}
    (h : Composed T S fl tk p Q) (hfl : fl = true) : Sequential c p := by
  induction h with
  | done => exact .pure _
  | bind _ _ ihp ihf => exact (ihp rfl).bind fun a => ihf a hfl
  | andThen _ _ ihp ihf => exact (ihp rfl).bind fun a => ihf a hfl
  | map _ _ ih => exact (ih hfl).map
  | within _ ih =>
      have hlevels := ih c.settings.maxNesting hfl
      exact ⟨hlevels.ok, hlevels.error⟩
  | look f => exact .look f
  | eat f _ hf => exact .eat hf
  | fork f _ _ _ _ _ _ ihp ihq => exact .fork (ihp hfl) (ihq hfl)
  | take _ _ h => exact .take h
  | number => exact .number
  | unexpected es => exact .unexpected es
  | failHere cause h =>
      refine .fails (fun s => run_failHere cause) (fun _ => rfl) fun _ _ => ?_
      simp [h hfl, SyntaxFault.Cause.AtEnd]
  | node _ _ ih => exact (ih .origin hfl).node
  | many _ _ ih => exact (ih rfl).many
  | block => cases hfl
  | lines => cases hfl

/-! ## Blocks -/

/-- A parser begun inside a block that takes the brace at its end. -/
structure BlockEnding (c : Context) (p : Parse α) : Prop where
  ok : ∀ {s a s'}, s.Placed c → p c s = .ok a s' →
    ∃ fs, s.Trail c fs s' ∧ s'.depth = s.depth - 1 ∧ ∀ f ∈ fs, f.span.start < (s'.place c).start
  error : ∀ {s fault s'}, s.Placed c → p c s = .error fault s' →
    ∃ fs, s.Trail c fs (s'.faulted fault) ∧ s.depth ≤ s'.depth

/-- What is read behind an opening brace. -/
theorem run_opened : (do mark .openBrace; p) c s =
    if next (·.isMark .openBrace) s.rest then p c s.advance
    else .error (s.unexpected c ["\x7b"]) s := by
  have hmark : mark .openBrace = (fun _ => ()) <$> expect ["\x7b"] (·.isMark .openBrace) := rfl
  rw [hmark, run_bind, run_map, run_expect]
  cases hr : s.rest with
  | nil => rfl
  | cons t rest => cases ht : t.isMark .openBrace <;> simp [next, ht]

theorem Sequential.opened (hp : BlockEnding c p) : Sequential c (do mark .openBrace; p) := by
  have hsuffix (s : State) : s.advance.rest <:+ s.rest := State.Behind.advance.rest
  have hdepth {s : State} (h : next (·.isMark .openBrace) s.rest) :
      s.advance.depth = s.depth + 1 := by
    obtain ⟨t, rest, hr, ht⟩ := next_iff.mp h
    rw [advance_of_cons hr]
    exact depthAfter_open ht
  constructor
  · intro s a s' hs h
    rw [run_opened] at h
    split at h
    · rename_i hopen
      obtain ⟨fs, htrail, hclosed, hlt⟩ := hp.ok (hs.of_suffix (hsuffix s)) h
      rw [hdepth hopen] at hclosed
      exact ⟨fs, (State.Trail.advance s).trans_of_lt (by simp) htrail hs, hclosed, hlt⟩
    · cases h
  · intro s fault s' hs h
    rw [run_opened] at h
    split at h
    · rename_i hopen
      obtain ⟨fs, htrail, hle⟩ := hp.error (hs.of_suffix (hsuffix s)) h
      rw [hdepth hopen] at hle
      exact ⟨fs, (State.Trail.advance s).trans_of_lt (by simp) htrail hs, Nat.le_of_succ_le hle⟩
    · cases h
      exact ⟨_, .unexpected hs _, Nat.le_refl _⟩

/-- What every step but the last one keeps holds where the last one is begun. -/
theorem many_last {I : State → Prop} {step : Parse (Option α)} (hp : Productive step)
    (hstep : ∀ {s a s'}, I s → step c s = .ok (some a) s' → I s') (hs : I s) :
    ∃ s₁, I s₁ ∧ (∀ {as s'}, many step c s = .ok as s' → step c s₁ = .ok none s') ∧
      ∀ {fault s'}, many step c s = .error fault s' → step c s₁ = .error fault s' := by
  induction hn : s.rest.length using Nat.strong_induction_on generalizing s with
  | _ n ih =>
      have hmany := run_many_step (c := c) (s := s) hp
      cases hrun : step c s with
      | error fault s' =>
          rw [hrun] at hmany
          refine ⟨s, hs, fun h => ?_, fun h => ?_⟩
          · rw [hmany] at h
            cases h
          · rw [hmany] at h
            cases h
            exact hrun
      | ok a? s' =>
          rw [hrun] at hmany
          cases a? with
          | none =>
              refine ⟨s, hs, fun h => ?_, fun h => ?_⟩
              · rw [hmany] at h
                cases h
                exact hrun
              · rw [hmany] at h
                cases h
          | some a =>
              have hlt := hp c s a s' hrun
              obtain ⟨s₁, hs₁, hok, herror⟩ := ih s'.rest.length (hn ▸ hlt) (hstep hs hrun) rfl
              refine ⟨s₁, hs₁, fun h => ?_, fun h => ?_⟩
              · rw [hmany] at h
                cases hrest : many step c s' <;> simp only [hrest] at h <;> cases h
                exact hok hrest
              · rw [hmany] at h
                cases hrest : many step c s' <;> simp only [hrest] at h <;> cases h
                exact herror hrest

/-- The lines of a dialogue are read without recovery. -/
theorem Sequential.lines : Sequential c (do mark .openBrace; Grammar.many dialogueLine) := by
  have hline {s a s'} (h : dialogueLine c s = .ok (some a) s') :
      s' = s.advance ∧ s'.depth = s.depth := by
    rw [run_dialogueLine] at h
    cases hr : s.rest with
    | nil => simp [hr] at h
    | cons t rest =>
        simp only [hr] at h
        split at h
        · cases h
        · split at h <;> cases h
          rename_i hstring
          exact ⟨rfl, advance_depth hr (Token.isBrace_of_isString hstring)⟩
  have hlast {s : State} (hs : s.Placed c) :=
    many_last (I := fun u => s.Trail c [] u ∧ u.depth = s.depth) (c := c) dialogueLine_productive
      (fun {u a u'} hu h => by
        obtain ⟨rfl, hdepth⟩ := hline h
        exact ⟨hu.1.pass hs State.Behind.advance.rest advance_faults, hdepth.trans hu.2⟩)
      ⟨.unchanged List.suffix_rfl rfl, rfl⟩
  refine opened ⟨fun {s ts s'} hs h => ?_, fun {s fault s'} hs h => ?_⟩
  · obtain ⟨u, ⟨htrail, hdepth⟩, hok, -⟩ := hlast hs
    have hend := hok h
    rw [run_dialogueLine] at hend
    cases hr : u.rest with
    | nil => simp [hr] at hend
    | cons t rest =>
        simp only [hr] at hend
        split at hend
        · cases hend
          rename_i hclose
          refine ⟨[], htrail.pass hs State.Behind.advance.rest advance_faults, ?_, by simp⟩
          rw [advance_of_cons hr, ← hdepth]
          exact depthAfter_close hclose
        · split at hend <;> cases hend
  · obtain ⟨u, ⟨htrail, hdepth⟩, -, herror⟩ := hlast hs
    have hend := herror h
    have hfault : fault = u.unexpected c ["string", "\x7d"] ∧ s' = u := by
      rw [run_dialogueLine] at hend
      cases hr : u.rest with
      | nil =>
          simp only [hr] at hend
          cases hend
          exact ⟨rfl, rfl⟩
      | cons t rest =>
          simp only [hr] at hend
          split at hend
          · cases hend
          · split at hend <;> cases hend
            exact ⟨rfl, rfl⟩
    obtain ⟨rfl, rfl⟩ := hfault
    exact ⟨_, htrail.trans_of_lt (by simp) (.unexpected (hs.of_suffix htrail.rest) _) hs,
      hdepth.ge⟩

/-! ## What comes behind a statement that has begun -/

/-- Behind a first token that is wanted, faults are found further on. -/
theorem Commits.behind_first {B : Token → Bool} (hp : Commits 1 (next B) p) (hs : s.Placed c)
    (hB : next B s.rest) :
    Lands (fun u => ∀ gs, u.faults = s.faults ++ gs → ∀ g ∈ gs, (s.place c).start < g.span.start)
      (p c s) := by
  obtain ⟨t, rest, hr, -⟩ := next_iff.mp hB
  have hsuffix : s.advance.rest <:+ s.rest := State.Behind.advance.rest
  have hlt : (s.place c).start < (s.advance.place c).start :=
    hs.lt hsuffix (by simp [advance_rest, hr])
  let I : State → Prop := fun u => u.rest <:+ s.advance.rest ∧
    ∃ gs, u.faults = s.faults ++ gs ∧ ∀ g ∈ gs, (s.place c).start < g.span.start
  have hI : Lasting I c := by
    refine ⟨fun {u} hu => ⟨State.Behind.advance.rest.trans hu.1, ?_⟩, fun _ hu => hu,
      fun {u} cause hu => ⟨hu.1, ?_⟩⟩
    · rw [advance_faults]
      exact hu.2
    · obtain ⟨gs, hgs, hall⟩ := hu.2
      refine ⟨gs ++ [⟨cause, u.place c⟩], by simp [State.faulted, hgs], fun g hg => ?_⟩
      rcases List.mem_append.mp hg with hg | hg
      · exact hall g hg
      · rw [List.mem_singleton.mp hg]
        exact hlt.trans_le ((hs.of_suffix hsuffix).le hu.1)
  have hstart : I s.advance := ⟨List.suffix_rfl, [], by simp, by simp⟩
  have hlands : Lands I (p c s) := hp hI hB hstart
  have hall {u : State} (hu : I u) (gs : List SyntaxFault) (h : u.faults = s.faults ++ gs) :
      ∀ g ∈ gs, (s.place c).start < g.span.start := by
    obtain ⟨gs', hgs', hlt'⟩ := hu.2
    rwa [List.append_cancel_left (h.symm.trans hgs')]
  cases hrun : p c s with
  | ok a s' =>
      rw [hrun] at hlands
      exact hall hlands
  | error fault s' =>
      rw [hrun] at hlands
      exact hall hlands

/-- A parser whose faults are found one behind the other, and which takes a first token that
satisfies `B`. -/
structure Leading (c : Context) (B : Token → Bool) (p : Parse α) : Prop extends Sequential c p where
  advances : Advances true p
  commits : Commits 1 (next B) p

theorem Leading.told {B : Token → Bool} {q : Parse α} (hp : Leading c B p) (hq : Sequential c q)
    (ha : Advances true q) : Leading c B (do if ← nextIs B then p else q) := by
  refine ⟨.fork (F := next B) hp.toSequential hq, ?_,
    .fork (G := next B) (hp.commits.mono fun r hr => ?_) ?_⟩
  · exact ((Advances.look (next B)).bind (k := true) fun found => by
      cases found; exacts [ha, hp.advances]).weaken (by simp)
  · exact (Bool.and_eq_true_iff.mp hr).1
  · intro I c hI s hr
    simp at hr

/-! ## Where reading goes on -/

/-- Tokens are passed over up to one that stops. -/
theorem skip_stops (stops : Nat → Token → Bool) (s : State) (hne : (s.skip stops).rest ≠ []) :
    next (stops (s.skip stops).depth) (s.skip stops).rest := by
  induction hr : s.rest generalizing s with
  | nil => exact absurd hr (skip_of_nil hr ▸ hne)
  | cons t rest ih =>
      cases hstop : stops s.depth t with
      | true =>
          rw [skip_of_stop hr hstop]
          exact next_iff.mpr ⟨t, rest, hr, hstop⟩
      | false =>
          rw [skip_of_pass hr hstop] at hne ⊢
          exact ih (s.pass t) hne (by simp [State.pass, advance_of_cons hr])

/-- The block in which tokens are passed over is not left. -/
theorem le_skip_depth {depth : Nat} (h : depth ≤ s.depth) :
    depth ≤ (s.skip (endsSkip depth starters)).depth := by
  induction hr : s.rest generalizing s with
  | nil => rwa [skip_of_nil hr]
  | cons t rest ih =>
      cases hstop : endsSkip depth starters s.depth t with
      | true => rwa [skip_of_stop hr hstop]
      | false =>
          have hpass : (s.pass t).depth = depthAfter s.depth t := by
            simp [State.pass, advance_of_cons hr]
          have hle : depth ≤ (s.pass t).depth := by
            cases hclose : t.isMark .closeBrace with
            | false => exact hpass ▸ h.trans (le_depthAfter hclose)
            | true =>
                have hne : s.depth ≠ depth := by
                  rintro heq
                  simp [endsSkip, heq, hclose] at hstop
                rw [hpass, depthAfter_close hclose]
                omega
          rw [skip_of_pass hr hstop]
          exact ih hle (by simp [State.pass, advance_of_cons hr])

/-- A token at which a block goes on. -/
def goesOn (starters : List String) (t : Token) : Bool :=
  t.isMark .closeBrace || t.isOneOf starters

theorem skip_goesOn {depth : Nat} (h : depth ≤ s.depth)
    (hne : (s.skip (endsSkip depth starters)).rest ≠ []) :
    (s.skip (endsSkip depth starters)).depth = depth ∧
      next (goesOn starters) (s.skip (endsSkip depth starters)).rest := by
  obtain ⟨t, rest, hr, hstop⟩ := next_iff.mp (skip_stops _ s hne)
  have hle : depth ≤ (s.skip (endsSkip depth starters)).depth := le_skip_depth h
  have hnot : ¬(s.skip (endsSkip depth starters)).depth < depth := by omega
  have hstop' : (s.skip (endsSkip depth starters)).depth = depth ∧ goesOn starters t := by
    simpa [endsSkip, goesOn, hnot] using hstop
  exact ⟨hstop'.1, next_iff.mpr ⟨t, rest, hr, hstop'.2⟩⟩

/-- Reading came to where it goes on: behind all faults, to a token that is wanted or to the end. -/
structure State.Ready (c : Context) (B : Token → Bool) (s : State) (fs : List SyntaxFault)
    (u : State) : Prop where
  trail : s.Trail c fs u
  clear : u.rest = [] ∨ next B u.rest ∨ ∀ f ∈ fs, f.span.start < (u.place c).start

namespace State.Ready

variable {u u' : State} {B B' : Token → Bool} {a : α}

theorem append (h : s.Ready c B fs u) (hs : s.Placed c) (hne : u.rest ≠ [])
    (htrail : u.Trail c gs u') (hgs : next B u.rest → ∀ g ∈ gs, (u.place c).start < g.span.start) :
    s.Trail c (fs ++ gs) u' := by
  rcases h.clear with hnil | hB | hlt
  · exact absurd hnil hne
  · exact h.trail.trans htrail hs fun f hf g hg => (h.trail.le f hf).trans_lt (hgs hB g hg)
  · exact h.trail.trans_of_lt hlt htrail hs

theorem ok (h : s.Ready c B fs u) (hs : s.Placed c) (hne : u.rest ≠ []) (hp : Leading c B' p)
    (hB : next B u.rest → next B' u.rest) (hrun : p c u = .ok a u') :
    u'.depth = u.depth ∧ ∃ fs, s.Trail c fs u' ∧ ∀ f ∈ fs, f.span.start < (u'.place c).start := by
  have hu := hs.of_suffix h.trail.rest
  obtain ⟨gs, htrail, hdepth, hlt⟩ := hp.ok hu hrun
  have hplace := hu.lt htrail.rest (hp.advances.shorter hrun rfl)
  refine ⟨hdepth, fs ++ gs, h.append hs hne htrail fun hnext => ?_, fun f hf => ?_⟩
  · have hfirst := hp.commits.behind_first hu (hB hnext)
    rw [hrun] at hfirst
    exact hfirst gs htrail.faults
  · rcases List.mem_append.mp hf with hf | hf
    · exact (h.trail.le f hf).trans_lt hplace
    · exact hlt f hf

theorem error (h : s.Ready c B fs u) (hs : s.Placed c) (hne : u.rest ≠ []) (hp : Leading c B' p)
    (hB : next B u.rest → next B' u.rest) (hrun : p c u = .error fault u') :
    u.depth ≤ u'.depth ∧ ∃ fs, s.Trail c fs (u'.faulted fault) := by
  have hu := hs.of_suffix h.trail.rest
  obtain ⟨gs, htrail, hdepth⟩ := hp.error hu hrun
  refine ⟨hdepth, fs ++ gs, h.append hs hne htrail fun hnext => ?_⟩
  have hfirst := hp.commits.behind_first hu (hB hnext)
  rw [hrun] at hfirst
  exact hfirst gs htrail.faults

end State.Ready

/-! ## Blocks -/

/-- Reading came to where a round of a block begins. -/
structure State.Between (c : Context) (starters : List String) (s u : State) : Prop where
  ready : ∃ fs, s.Ready c (goesOn starters) fs u
  le : s.depth ≤ u.depth
  level : u.rest ≠ [] → u.depth = s.depth

namespace State.Between

variable {u u' : State} {ns : List Node}

theorem refl : s.Between c starters s :=
  ⟨⟨[], .unchanged List.suffix_rfl rfl, .inr (.inr (by simp))⟩, Nat.le_refl _, fun _ => rfl⟩

/-- Behind a fault of a statement. -/
theorem resumed (hs : s.Placed c) {t : Token} {rest : List Token} (hr : u.rest = t :: rest)
    (ht : t.isMark .closeBrace = false) (hu : u.depth = s.depth)
    (hadv : u.Behind u') (hle : u.depth ≤ u'.depth) (htrail : s.Trail c fs (u'.faulted fault)) :
    s.Between c starters
      ((u'.faulted fault).resumed (endsSkip s.depth starters) u.rest.length) := by
  have hbehind := State.Behind.resumed (endsSkip s.depth starters) u.rest.length
    (u'.faulted fault)
  have hstart : s.depth ≤ (if (u'.faulted fault).rest.length = u.rest.length then
      (u'.faulted fault).advance else u'.faulted fault).depth := by
    split
    · rename_i hlen
      -- The statement took no token, and its first one is passed over.
      have hsame : (u'.faulted fault).rest = t :: rest :=
        (hadv.rest.eq_of_length hlen).trans hr
      rw [advance_of_cons hsame]
      exact hu ▸ hle.trans (le_depthAfter ht)
    · exact hu ▸ hle
  refine ⟨⟨fs, htrail.pass hs hbehind.rest (resumed_faults _ _), ?_⟩, le_skip_depth hstart,
    fun hne => (skip_goesOn hstart hne).1⟩
  rw [or_iff_not_imp_left]
  exact fun hne => .inl (skip_goesOn hstart hne).2

/-- A token at which a block goes on and that does not close it begins a statement. -/
theorem starter {t : Token} {rest : List Token} (hr : u.rest = t :: rest)
    (ht : t.isMark .closeBrace = false) (hnext : next (goesOn starters) u.rest) :
    next (·.isOneOf starters) u.rest := by
  rw [hr] at hnext ⊢
  simpa [next, goesOn, ht] using hnext

variable (h : s.Between c starters u) (hs : s.Placed c)

include h

theorem not_lt : ¬u.depth < s.depth :=
  Nat.not_lt.mpr h.le

include hs

theorem next_round (hp : Leading c (·.isOneOf starters) statement)
    (hrun : round s.depth starters statement c u = .ok (some ns) u') : s.Between c starters u' := by
  obtain ⟨fs, hready⟩ := h.ready
  cases roundDerivation_iff.mpr hrun with
  | reads _ hr ht hstat =>
      have hne : u.rest ≠ [] := by simp [hr]
      obtain ⟨hdepth, gs, htrail, hlt⟩ := hready.ok hs hne hp (starter hr ht) hstat
      have hlevel := hdepth.trans (h.level hne)
      exact ⟨⟨gs, htrail, .inr (.inr hlt)⟩, hlevel.ge, fun _ => hlevel⟩
  | resumes _ hr ht hstat hlt =>
      have hne : u.rest ≠ [] := by simp [hr]
      obtain ⟨hle, gs, htrail⟩ := hready.error hs hne hp (starter hr ht) hstat
      exact resumed hs hr ht (h.level hne) (hp.advances.error hstat) hle htrail

theorem ends (hrun : round s.depth starters statement c u = .ok none u') :
    ∃ fs, s.Trail c fs u' ∧ u'.depth = s.depth - 1 ∧
      ∀ f ∈ fs, f.span.start < (u'.place c).start := by
  obtain ⟨fs, hready⟩ := h.ready
  obtain ⟨t, rest, hr, ht, rfl⟩ := ends_of_round h.not_lt hrun
  have hsuffix : u.advance.rest <:+ u.rest := State.Behind.advance.rest
  have hplace := (hs.of_suffix hready.trail.rest).lt hsuffix (by simp [advance_rest, hr])
  refine ⟨fs, hready.trail.pass hs hsuffix advance_faults, ?_, fun f hf => ?_⟩
  · rw [advance_of_cons hr, ← h.level (by simp [hr])]
    exact depthAfter_close ht
  · exact (hready.trail.le f hf).trans_lt hplace

theorem fails (hp : Leading c (·.isOneOf starters) statement)
    (hrun : round s.depth starters statement c u = .error fault u') :
    ∃ fs, s.Trail c fs (u'.faulted fault) ∧ s.depth ≤ u'.depth := by
  obtain ⟨fs, hready⟩ := h.ready
  cases roundDerivation_iff.mpr hrun with
  | unclosed _ hr => exact ⟨_, hready.trail.ended hs hr _, h.le⟩
  | fails _ hr ht hstat hspent =>
      have hne : u.rest ≠ [] := by simp [hr]
      obtain ⟨hle, gs, htrail⟩ := hready.error hs hne hp (starter hr ht) hstat
      exact ⟨gs, htrail, h.level hne ▸ hle⟩

end State.Between

namespace Sequential

theorem block (hp : Leading c (·.isOneOf starters) statement) :
    Sequential c (Grammar.block starters statement) := by
  have hlast {s : State} (hs : s.Placed c) := many_last (I := fun u => s.Between c starters u)
    (c := c) (hp.advances.round_productive s.depth starters)
    (fun hu hrun => hu.next_round hs hp hrun) .refl
  rw [block_eq]
  refine opened ⟨fun {s ns s'} hs h => ?_, fun {s fault s'} hs h => ?_⟩
  · change (List.flatten <$> Grammar.many (round s.depth starters statement)) c s = _ at h
    rw [run_map] at h
    split at h <;> cases h
    obtain ⟨u, hu, hok, -⟩ := hlast hs
    exact hu.ends hs (hok ‹_›)
  · change (List.flatten <$> Grammar.many (round s.depth starters statement)) c s = _ at h
    rw [run_map] at h
    split at h <;> cases h
    obtain ⟨u, hu, -, herror⟩ := hlast hs
    exact hu.fails hs hp (herror ‹_›)

theorem blockOf (hp : Leading c (·.isOneOf starters) statement) :
    Sequential c (Grammar.blockOf starters statement) :=
  block (hp.told (unexpected _) (.fails fun _ _ => run_unexpected _))

end Sequential

end Grammar

end Storyworld
