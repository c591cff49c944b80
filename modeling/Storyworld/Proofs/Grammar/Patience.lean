import Storyworld.Proofs.Grammar.Document

namespace Storyworld.Grammar

/-! Patience with faults. Reading ends with the fault that uses up the patience. With more patience
all is read as before up to that fault, and reading goes on from there. -/

variable {c c' : Context} {s s' : State} {α β : Type} {k : Bool}

/-! ## Where a parser ends -/

/-- A parser leaves a state, with a result or with a fault. -/
def Reaches (p : Parse α) (c : Context) (s s' : State) : Prop :=
  (∃ a, p c s = .ok a s') ∨ ∃ fault, p c s = .error fault s'

namespace Reaches

theorem of_ok {p : Parse α} {a : α} (h : p c s = .ok a s') : Reaches p c s s' :=
  .inl ⟨a, h⟩

theorem of_error {p : Parse α} {fault : SyntaxFault} (h : p c s = .error fault s') :
    Reaches p c s s' :=
  .inr ⟨fault, h⟩

theorem exists_state (p : Parse α) (c : Context) (s : State) : ∃ s', Reaches p c s s' := by
  cases h : p c s with
  | ok a s' => exact ⟨s', of_ok h⟩
  | error fault s' => exact ⟨s', of_error h⟩

theorem behind {p : Parse α} (h : Reaches p c s s') (hp : Advances k p) : s.Behind s' := by
  rcases h with ⟨a, h⟩ | ⟨fault, h⟩
  · exact hp.ok h
  · exact hp.error h

theorem bind_iff {p : Parse α} {f : α → Parse β} {s'' : State} :
    Reaches (p >>= f) c s s'' ↔
      (∃ fault, p c s = .error fault s'') ∨ ∃ a s', p c s = .ok a s' ∧ Reaches (f a) c s' s'' := by
  unfold Reaches
  rw [run_bind]
  cases p c s <;> simp

end Reaches

/-! ## Within the patience -/

/-- A parser that does not use up the patience: the last fault is left to its caller. -/
structure Patient (c : Context) (p : Parse α) : Prop where
  lt : ∀ {s s'}, s.faults.length < c.settings.patience → Reaches p c s s' →
    s'.faults.length < c.settings.patience

namespace Patient

/-- A parser that records no fault. -/
theorem of_faults {p : Parse α} (h : ∀ {s s'}, Reaches p c s s' → s'.faults = s.faults) :
    Patient c p :=
  ⟨fun hs hreach => by rwa [h hreach]⟩

theorem pure (a : α) : Patient c (Pure.pure a : Parse α) := by
  apply of_faults
  rintro s s' (⟨b, h⟩ | ⟨fault, h⟩) <;> cases h
  rfl

theorem bind {p : Parse α} {f : α → Parse β} (hp : Patient c p) (hf : ∀ a, Patient c (f a)) :
    Patient c (p >>= f) := by
  constructor
  intro s s'' hs h
  rcases Reaches.bind_iff.mp h with ⟨fault, h⟩ | ⟨a, s', h, hreach⟩
  · exact hp.lt hs (.of_error h)
  · exact (hf a).lt (hp.lt hs (.of_ok h)) hreach

theorem map {p : Parse α} {g : α → β} (hp : Patient c p) : Patient c (g <$> p) :=
  hp.bind (f := fun a => Pure.pure (g a)) fun a => pure (g a)

theorem look (f : List Token → Bool) : Patient c (looking f) := by
  apply of_faults
  rintro s s' (⟨b, h⟩ | ⟨fault, h⟩) <;> cases h
  rfl

theorem eat (f : List Token → Bool) : Patient c (eatWhen f) := by
  apply of_faults
  rintro s s' (⟨b, h⟩ | ⟨fault, h⟩) <;> rw [run_eatWhen] at h <;> split at h <;> cases h <;> simp

theorem take (expected : List String) (accept : Token → Bool) :
    Patient c (expect expected accept) := by
  apply of_faults
  rintro s s' (⟨t, h⟩ | ⟨fault, h⟩)
  · obtain ⟨rest, -, -, rfl⟩ := expect_ok h
    exact advance_faults
  · obtain ⟨-, rfl⟩ := expect_error h
    rfl

theorem number : Patient c Grammar.number := by
  apply of_faults
  rintro s s' (⟨t, h⟩ | ⟨fault, h⟩)
  · obtain ⟨rest, -, -, -, rfl⟩ := number_ok h
    exact advance_faults
  · obtain ⟨-, rfl⟩ | ⟨t, rest, -, -, rfl⟩ := number_error h
    · rfl
    · exact advance_faults

theorem fails {p : Parse α} {g : Context → State → SyntaxFault}
    (h : ∀ c s, p c s = .error (g c s) s) : Patient c p := by
  apply of_faults
  rintro s s' (⟨b, h'⟩ | ⟨fault, h'⟩) <;> rw [h] at h' <;> cases h'
  rfl

theorem node {parts : Parse (Rule × List Element)} (hp : Patient c parts) :
    Patient c (nodeBy parts) := by
  constructor
  rintro s s' hs (⟨n, h⟩ | ⟨fault, h⟩) <;> rw [run_nodeBy] at h <;> split at h <;> cases h
  · exact hp.lt hs (.of_ok ‹_›)
  · exact hp.lt hs (.of_error ‹_›)

theorem collect {step : Parse (Option α)} (hp : Patient c step) (n : Nat) :
    Patient c (Grammar.collect step n) := by
  induction n with
  | zero => exact pure []
  | succ n ih =>
      refine hp.bind fun a? => ?_
      cases a? with
      | none => exact pure []
      | some a => exact ih.map

theorem many {step : Parse (Option α)} (hp : Patient c step) : Patient c (Grammar.many step) := by
  constructor
  rintro s s' hs (⟨as, h⟩ | ⟨fault, h⟩) <;> rw [run_many] at h
  · exact (hp.collect _).lt hs (.of_ok h)
  · exact (hp.collect _).lt hs (.of_error h)

theorem round {statement : Parse Node} (hp : Patient c statement) (depth : Nat)
    (starters : List String) : Patient c (Grammar.round depth starters statement) := by
  constructor
  rintro s s' hs (⟨ns?, h⟩ | ⟨fault, h⟩)
  · cases roundDerivation_iff.mpr h with
    | outside hd => exact hs
    | closes hd hr ht => simpa using hs
    | reads hd hr ht hstat => exact hp.lt hs (.of_ok hstat)
    | resumes hd hr ht hstat hlt => simpa using hlt
  · cases roundDerivation_iff.mpr h with
    | unclosed hd hr => exact hs
    | fails hd hr ht hstat hle => exact hp.lt hs (.of_error hstat)

theorem mark (m : Mark) : Patient c (Grammar.mark m) :=
  (take _ _).map

theorem block {statement : Parse Node} (hp : Patient c statement) (starters : List String) :
    Patient c (Grammar.block starters statement) := by
  have hdepth : Patient c braceDepth := by
    apply of_faults
    rintro s s' (⟨d, h⟩ | ⟨fault, h⟩) <;> cases h
    rfl
  rw [block_eq]
  exact (mark .openBrace).bind fun _ => hdepth.bind fun d => (hp.round d starters).many.map

theorem lines : Patient c (do Grammar.mark .openBrace; Grammar.many dialogueLine) := by
  have hclose : Patient c (eatMark .closeBrace) := eat fun r => r[0]?.any (Token.isMark .closeBrace)
  have hline : Patient c dialogueLine := by
    refine hclose.bind fun closed => ?_
    cases closed with
    | true => exact pure none
    | false => exact (take _ _).map
  exact (mark .openBrace).bind fun _ => hline.many

end Patient

theorem Composed.patient {T : Token → Prop} {S : Span → Prop} {fl : Bool} {p : Parse α}
    {Q : α → Prop} (h : Composed T S fl k p Q) : Patient c p := by
  induction h with
  | done => exact .pure _
  | bind _ _ ihp ihf => exact ihp.bind ihf
  | andThen _ _ ihp ihf => exact ihp.bind ihf
  | map _ _ ih => exact ih.map
  | within _ ih => exact ⟨(ih c.settings.maxNesting).lt⟩
  | look f => exact .look f
  | fork f _ _ _ _ _ _ ihp ihq =>
      refine (Patient.look f).bind fun found => ?_
      cases found
      exacts [ihq, ihp]
  | eat f => exact .eat f
  | take expected accept => exact .take expected accept
  | number => exact .number
  | unexpected expected => exact .fails fun c s => run_unexpected expected
  | failHere cause => exact .fails fun c s => run_failHere cause
  | node _ _ ih => exact (ih .origin).node
  | many _ _ ih => exact ih.many
  | block starters _ ih => exact ih.block starters
  | lines => exact .lines

/-! ## With more patience -/

/-- The same source is read with no less patience. -/
structure Context.Outlasts (c' c : Context) : Prop where
  eof : c'.eof = c.eof
  levels : c'.settings.maxNesting = c.settings.maxNesting
  patience : c.settings.patience ≤ c'.settings.patience

/-- The patience of `c` ends with some faults; with that of `c'` reading goes on behind them. -/
structure GoesOn (c c' : Context) (p : Parse α) (s : State) (faults : List SyntaxFault) : Prop where
  lt : c.settings.patience < c'.settings.patience
  spent : c.settings.patience ≤ faults.length
  reaches : ∃ s', Reaches p c' s s' ∧ faults <+: s'.faults

/-- A parser that gives the same with more patience, up to the fault that uses up the patience. -/
structure Outlives (c c' : Context) (p : Parse α) : Prop where
  ok : ∀ {s a s'}, p c s = .ok a s' → p c' s = .ok a s'
  error : ∀ {s fault s'}, p c s = .error fault s' →
    p c' s = .error fault s' ∨ GoesOn c c' p s (s'.faults ++ [fault])

namespace Outlives

theorem of_eq {p : Parse α} (h : ∀ s, p c' s = p c s) : Outlives c c' p :=
  ⟨fun hok => h _ ▸ hok, fun herr => .inl (h _ ▸ herr)⟩

theorem pure (a : α) : Outlives c c' (Pure.pure a : Parse α) :=
  of_eq fun _ => rfl

theorem goesOn_bind {p : Parse α} {f : α → Parse β} {faults : List SyntaxFault}
    (h : GoesOn c c' p s faults) (ha : ∀ a, Advances k (f a)) : GoesOn c c' (p >>= f) s faults := by
  obtain ⟨s', hreach, hprefix⟩ := h.reaches
  refine ⟨h.lt, h.spent, ?_⟩
  rcases hreach with ⟨a, hok⟩ | ⟨fault, herr⟩
  · obtain ⟨s'', hreach'⟩ := Reaches.exists_state (f a) c' s'
    exact ⟨s'', Reaches.bind_iff.mpr (.inr ⟨a, s', hok, hreach'⟩),
      hprefix.trans (hreach'.behind (ha a)).faults⟩
  · exact ⟨s', Reaches.bind_iff.mpr (.inl ⟨fault, herr⟩), hprefix⟩

theorem bind {p : Parse α} {f : α → Parse β} (hp : Outlives c c' p)
    (hf : ∀ a, Outlives c c' (f a)) (ha : ∀ a, Advances k (f a)) : Outlives c c' (p >>= f) := by
  constructor
  · intro s b s'' h
    rw [run_bind] at h ⊢
    cases hps : p c s with
    | error fault s' => simp [hps] at h
    | ok a s' =>
        rw [hps] at h
        rw [hp.ok hps]
        exact (hf a).ok h
  · intro s fault s'' h
    rw [run_bind] at h
    cases hps : p c s with
    | error fault' s' =>
        rw [hps] at h
        cases h
        rcases hp.error hps with hsame | hon
        · exact .inl (by rw [run_bind, hsame])
        · exact .inr (goesOn_bind hon ha)
    | ok a s' =>
        rw [hps] at h
        have hsame := hp.ok hps
        rcases (hf a).error h with hsame' | hon
        · rw [run_bind, hsame]
          exact .inl hsame'
        · obtain ⟨t, hreach, hprefix⟩ := hon.reaches
          exact .inr ⟨hon.lt, hon.spent, t, Reaches.bind_iff.mpr (.inr ⟨a, s', hsame, hreach⟩),
            hprefix⟩

theorem map {p : Parse α} {g : α → β} (hp : Outlives c c' p) : Outlives c c' (g <$> p) :=
  hp.bind (f := fun a => Pure.pure (g a)) (fun a => pure (g a)) fun a => .pure (g a)

theorem node (h : c'.Outlasts c) {parts : Parse (Rule × List Element)} (hp : Outlives c c' parts) :
    Outlives c c' (nodeBy parts) := by
  have hplace (s : State) : s.place c' = s.place c := by simp only [State.place, h.eof]
  constructor
  · intro s n s' hok
    rw [run_nodeBy] at hok ⊢
    split at hok <;> cases hok
    rw [hp.ok ‹_›, hplace]
  · intro s fault s' herr
    rw [run_nodeBy] at herr
    split at herr <;> cases herr
    rcases hp.error ‹_› with hsame | hon
    · exact .inl (by rw [run_nodeBy, hsame])
    · obtain ⟨t, hreach, hprefix⟩ := hon.reaches
      refine .inr ⟨hon.lt, hon.spent, t, ?_, hprefix⟩
      rcases hreach with ⟨⟨r, cs⟩, hok⟩ | ⟨fault', herr⟩
      · exact .of_ok (by rw [run_nodeBy, hok])
      · exact .of_error (by rw [run_nodeBy, herr])

theorem collect {step : Parse (Option α)} (hp : Outlives c c' step) (ha : Advances false step)
    (n : Nat) : Outlives c c' (Grammar.collect step n) := by
  induction n with
  | zero => exact pure []
  | succ n ih =>
      refine hp.bind (k := false) (fun a? => ?_) fun a? => ?_
      · cases a? with
        | none => exact pure []
        | some a => exact ih.map
      · cases a? with
        | none => exact .pure []
        | some a => exact (ha.collect n).map

theorem many {step : Parse (Option α)} (hp : Outlives c c' step) (ha : Advances false step) :
    Outlives c c' (Grammar.many step) := by
  have hrounds (c : Context) (s : State) :
      Grammar.many step c s = Grammar.collect step (s.rest.length + 1) c s := run_many step
  constructor
  · intro s as s' hok
    rw [hrounds] at hok ⊢
    exact (hp.collect ha _).ok hok
  · intro s fault s' herr
    rw [hrounds] at herr ⊢
    rcases (hp.collect ha _).error herr with hsame | hon
    · exact .inl hsame
    · exact .inr ⟨hon.lt, hon.spent, by simpa only [Reaches, hrounds] using hon.reaches⟩

/-- A round goes on behind the faults of its statement. -/
theorem goesOn_round {statement : Parse Node} {depth : Nat} {starters : List String} {t : Token}
    {rest : List Token} {faults : List SyntaxFault} (hd : ¬s.depth < depth)
    (hr : s.rest = t :: rest) (ht : t.isMark .closeBrace = false)
    (h : GoesOn c c' statement s faults) :
    GoesOn c c' (Grammar.round depth starters statement) s faults := by
  obtain ⟨s', ⟨n, hstat⟩ | ⟨fault, hstat⟩, hprefix⟩ := h.reaches
  · exact ⟨h.lt, h.spent, s', .of_ok (RoundDerivation.reads hd hr ht hstat).execution, hprefix⟩
  · rcases Nat.lt_or_ge (s'.faults.length + 1) c'.settings.patience with hlt | hle
    · refine ⟨h.lt, h.spent, _, .of_ok (RoundDerivation.resumes hd hr ht hstat hlt).execution, ?_⟩
      simpa [State.faulted] using hprefix.trans (List.prefix_append _ _)
    · exact ⟨h.lt, h.spent, s', .of_error (RoundDerivation.fails hd hr ht hstat hle).execution,
        hprefix⟩

/-- A round of a block ends the block where its patience ends, and goes on with more of it. -/
theorem round (h : c'.Outlasts c) {statement : Parse Node} (hp : Outlives c c' statement)
    (depth : Nat) (starters : List String) :
    Outlives c c' (Grammar.round depth starters statement) := by
  have hpatience := h.patience
  constructor
  · intro s ns? s' hok
    cases roundDerivation_iff.mpr hok with
    | outside hd => exact (RoundDerivation.outside hd).execution
    | closes hd hr ht => exact (RoundDerivation.closes hd hr ht).execution
    | reads hd hr ht hstat => exact (RoundDerivation.reads hd hr ht (hp.ok hstat)).execution
    | resumes hd hr ht hstat hlt =>
        rcases hp.error hstat with hsame | hon
        · exact (RoundDerivation.resumes hd hr ht hsame (by omega)).execution
        · have hspent := hon.spent
          simp at hspent
          omega
  · intro s fault s' herr
    cases roundDerivation_iff.mpr herr with
    | unclosed hd hr =>
        have hround : Grammar.round depth starters statement c' s = _ :=
          (RoundDerivation.unclosed hd hr).execution
        simp only [State.unexpected, h.eof] at hround
        exact .inl hround
    | fails hd hr ht hstat hle =>
        rcases hp.error hstat with hsame | hon
        · rcases Nat.lt_or_ge (s'.faults.length + 1) c'.settings.patience with hlt' | hle'
          · refine .inr ⟨by omega, by simpa using hle, _,
              .of_ok (RoundDerivation.resumes hd hr ht hsame hlt').execution, ?_⟩
            simp [State.faulted]
          · exact .inl (RoundDerivation.fails hd hr ht hsame hle').execution
        · exact .inr (goesOn_round hd hr ht hon)

theorem eat (f : List Token → Bool) : Outlives c c' (eatWhen f) :=
  of_eq fun _ => by simp only [run_eatWhen]

theorem take (h : c'.Outlasts c) (expected : List String) (accept : Token → Bool) :
    Outlives c c' (expect expected accept) :=
  of_eq fun s => by simp only [run_expect, State.unexpected, h.eof]

theorem block (h : c'.Outlasts c) {statement : Parse Node} (hp : Outlives c c' statement)
    (ha : Advances true statement) (starters : List String) :
    Outlives c c' (Grammar.block starters statement) := by
  have hround (d : Nat) := ha.round d starters
  rw [block_eq]
  have hdepth : Outlives c c' braceDepth := of_eq fun _ => rfl
  refine (take h _ _).map.bind (k := false) (fun _ => ?_) fun _ => ?_
  · refine hdepth.bind (k := false) (fun d => ?_) fun d => ?_
    · exact ((round h hp d starters).many (hround d)).map
    · exact (hround d).many.map
  · exact Advances.depth.bind (k := false) fun d => (hround d).many.map

end Outlives

/-- Every parser gives the same with more patience, up to the fault that uses up the patience. -/
theorem Composed.outlives {T : Token → Prop} {S : Span → Prop} {fl : Bool} {p : Parse α}
    {Q : α → Prop} (h : Composed T S fl k p Q) (hc : c'.Outlasts c) : Outlives c c' p := by
  have hplace (s : State) : s.place c' = s.place c := by simp only [State.place, hc.eof]
  induction h with
  | done => exact .pure _
  | bind _ hf ihp ihf => exact ihp.bind ihf fun a => (hf a).advances
  | andThen _ hf ihp ihf => exact ihp.bind ihf fun a => (hf a).advances
  | map _ _ ih => exact ih.map
  | within _ ih =>
      refine ⟨fun hok => ?_, fun herr => ?_⟩
      · rw [run_within] at hok ⊢
        rw [hc.levels]
        exact (ih _).ok hok
      · rw [run_within] at herr ⊢
        rw [hc.levels]
        rcases (ih _).error herr with hsame | hon
        · exact .inl hsame
        · refine .inr ⟨hon.lt, hon.spent, ?_⟩
          simpa only [Reaches, run_within, hc.levels] using hon.reaches
  | look f => exact .of_eq fun _ => rfl
  | @fork _ _ tk _ _ _ _ _ _ f _ _ hp hq _ _ ihp ihq =>
      have hlook : Outlives c c' (looking f) := .of_eq fun _ => rfl
      refine hlook.bind (k := tk) (fun found => ?_) fun found => ?_
      · cases found
        exacts [ihq, ihp]
      · cases found
        exacts [hq.advances, hp.advances]
  | eat f => exact .eat f
  | take expected accept => exact .take hc expected accept
  | number => exact .of_eq fun s => by simp only [run_number, State.unexpected, hc.eof]
  | unexpected expected =>
      exact .of_eq fun s => by simp only [run_unexpected, State.unexpected, hc.eof]
  | failHere cause => exact .of_eq fun s => by simp only [run_failHere, hplace, hc.levels]
  | node _ _ ih => exact (ih .origin).node hc
  | many hp _ ih => exact ih.many hp.advances
  | block starters hp ih => exact ih.block hc hp.advances starters
  | lines =>
      refine (Outlives.take hc _ _).map.bind (k := false) (fun _ => ?_) fun _ => Advances.dialogueLine.many
      have hclose : Outlives c c' (Grammar.eatMark .closeBrace) :=
        .eat fun r => r[0]?.any (Token.isMark .closeBrace)
      refine (hclose.bind (k := false) (fun closed => ?_) fun closed => ?_).many
        Advances.dialogueLine
      · cases closed with
        | true => exact .pure none
        | false => exact (Outlives.take hc _ _).map
      · cases closed with
        | true => exact .pure none
        | false => exact ((Advances.take _ _).weaken (by simp)).map

end Storyworld.Grammar
