import Storyworld.Grammar.Phrase

namespace Storyworld

/-- The number of syntax faults that ends the reading. -/
def Settings.patience (x : Settings) : Nat :=
  if x.resyncs then x.faultBudget else 1

theorem Settings.patience_of_lt {x : Settings} (h : 1 < x.patience) : x.patience = x.faultBudget := by
  by_cases hr : x.resyncs <;> simp_all [Settings.patience]

namespace Grammar

/-! What the pieces of the grammar do to a state, as equations. Every later fact about parsers
goes through these, so that no other proof opens the monad. -/

/-- What a parser ends with: a result or a fault, and the state it leaves. -/
abbrev Ending (α : Type) :=
  EStateM.Result SyntaxFault State α

/-- Looks at the tokens left and takes none. -/
def looking (f : List Token → Bool) : Parse Bool :=
  return f (← get).rest

/-- Takes the next token if the tokens left are as wanted, and tells whether they were. -/
def eatWhen (f : List Token → Bool) : Parse Bool := do
  let found ← looking f
  if found then advance
  return found

/-- A fault at the next token, which may tell how many levels are allowed. -/
def failHere (cause : Nat → SyntaxFault.Cause) : Parse α := do
  throw ⟨cause (← read).settings.maxNesting, ← here⟩

/-- Where the next token lies. -/
def State.place (c : Context) (s : State) : Span :=
  match s.rest with
  | [] => c.eof
  | t :: _ => t.span

variable {c : Context} {s : State} {t : Token} {rest : List Token}

/-! ## The monad -/

@[simp] theorem run_pure (a : α) : (pure a : Parse α) c s = .ok a s := rfl

@[simp] theorem run_throw (fault : SyntaxFault) : (throw fault : Parse α) c s = .error fault s :=
  rfl

@[simp] theorem run_read : (read : Parse Context) c s = .ok c s := rfl

@[simp] theorem run_get : (get : Parse State) c s = .ok s s := rfl

@[simp] theorem run_set (s' : State) : (set s' : Parse PUnit) c s = .ok ⟨⟩ s' := rfl

@[simp] theorem run_modify (f : State → State) : (modify f : Parse PUnit) c s = .ok ⟨⟩ (f s) :=
  rfl

theorem run_bind (p : Parse α) (f : α → Parse β) :
    (p >>= f) c s =
      match p c s with
      | .ok a s' => f a c s'
      | .error fault s' => .error fault s' := by
  cases h : p c s <;> simp [bind, ReaderT.bind, EStateM.bind, h]

theorem run_tryCatch (p : Parse α) (f : SyntaxFault → Parse α) :
    (tryCatch p f) c s =
      match p c s with
      | .ok a s' => .ok a s'
      | .error fault s' => f fault c s' := by
  change EStateM.tryCatch (p c) (fun fault => f fault c) s = _
  delta EStateM.tryCatch
  cases p c s <;> rfl

theorem run_ite (b : Prop) [Decidable b] (p q : Parse α) :
    (if b then p else q) c s = if b then p c s else q c s := by
  split <;> rfl

theorem map_eq_bind (g : α → β) (p : Parse α) : g <$> p = p >>= fun a => pure (g a) := rfl

theorem run_map (g : α → β) (p : Parse α) :
    (g <$> p) c s =
      match p c s with
      | .ok a s' => .ok (g a) s'
      | .error fault s' => .error fault s' := by
  rw [map_eq_bind, run_bind]
  rfl

theorem run_within (f : Nat → Parse α) :
    (do f (← read).settings.maxNesting : Parse α) c s = f c.settings.maxNesting c s := rfl

theorem discard_eq_bind (p : Parse α) : discard p = p >>= fun _ => pure () := rfl

/-! ## Taking tokens -/

theorem advance_of_nil (h : s.rest = []) : s.advance = s := by
  simp [State.advance, h]

theorem advance_of_cons (h : s.rest = t :: rest) :
    s.advance = { s with rest, last := t.span, depth := depthAfter s.depth t } := by
  simp [State.advance, h]

theorem advance_rest : s.advance.rest = s.rest.tail := by
  cases h : s.rest with
  | nil => simp [advance_of_nil, h]
  | cons t rest => simp [advance_of_cons h]

@[simp] theorem advance_faults : s.advance.faults = s.faults := by
  cases h : s.rest with
  | nil => simp [advance_of_nil h]
  | cons t rest => simp [advance_of_cons h]

theorem run_advance : advance c s = .ok () s.advance := rfl

@[simp] theorem run_looking (f : List Token → Bool) : looking f c s = .ok (f s.rest) s := rfl

theorem run_eatWhen (f : List Token → Bool) :
    eatWhen f c s = if f s.rest then .ok true s.advance else .ok false s := by
  cases h : f s.rest <;> simp [eatWhen, run_bind, run_map, run_advance, h]

theorem run_here : here c s = .ok (s.place c) s := by
  have hread : ahead? 0 c s = .ok s.rest[0]? s := rfl
  cases h : s.rest <;> simp [here, run_bind, run_map, hread, State.place, h]

theorem run_failHere (cause : Nat → SyntaxFault.Cause) :
    (failHere cause : Parse α) c s = .error ⟨cause c.settings.maxNesting, s.place c⟩ s := by
  simp [failHere, run_bind, run_here]

/-- The fault that none of some alternatives comes next. -/
def State.unexpected (c : Context) (expected : List String) (s : State) : SyntaxFault :=
  match s.rest with
  | [] => ⟨.unexpectedEnd expected, c.eof⟩
  | t :: _ => ⟨.unexpected expected t.describe, t.span⟩

theorem run_unexpected (expected : List String) :
    (unexpected expected : Parse α) c s = .error (s.unexpected c expected) s := by
  have hread : ahead? 0 c s = .ok s.rest[0]? s := rfl
  cases h : s.rest <;> simp [Grammar.unexpected, run_bind, hread, State.unexpected, h]

theorem run_expect (expected : List String) (accept : Token → Bool) :
    expect expected accept c s =
      match s.rest with
      | [] => .error (s.unexpected c expected) s
      | t :: _ => if accept t then .ok t s.advance else .error (s.unexpected c expected) s := by
  have hread : ahead? 0 c s = .ok s.rest[0]? s := rfl
  cases h : s.rest with
  | nil => simp [expect, run_bind, hread, h, run_unexpected]
  | cons t rest =>
      cases ha : accept t <;> simp [expect, run_bind, run_map, hread, h, ha, run_unexpected, run_advance]

theorem run_number :
    number c s =
      match s.rest with
      | [] => .error (s.unexpected c ["number"]) s
      | t :: _ =>
        if t.kind = .number then
          if (Text.Integer.word? t.text.toList).isNone then
            .error ⟨.malformedNumber t.text, t.span⟩ s.advance
          else .ok t s.advance
        else .error (s.unexpected c ["number"]) s := by
  rw [number, run_bind, run_expect]
  cases hr : s.rest with
  | nil => rfl
  | cons t rest =>
      by_cases hk : t.kind = .number
      · simp only [hk, decide_true, if_true]
        cases hw : (Text.Integer.word? t.text.toList).isNone <;> simp [run_bind]
      · simp [hk]

section

variable {s' : State} {expected : List String} {accept : Token → Bool} {fault : SyntaxFault}

/-- The token that is read is the next one, and it is as expected. -/
theorem expect_ok (h : expect expected accept c s = .ok t s') :
    ∃ rest, s.rest = t :: rest ∧ accept t ∧ s' = s.advance := by
  rw [run_expect] at h
  cases hr : s.rest with
  | nil => simp [hr] at h
  | cons next rest =>
      simp only [hr] at h
      split at h <;> cases h
      exact ⟨rest, rfl, ‹_›, rfl⟩

theorem expect_error (h : expect expected accept c s = .error fault s') :
    fault = s.unexpected c expected ∧ s' = s := by
  rw [run_expect] at h
  split at h
  · cases h
    exact ⟨rfl, rfl⟩
  · split at h <;> cases h
    exact ⟨rfl, rfl⟩

theorem expect_of_cons (hr : s.rest = t :: rest) (ha : accept t) :
    expect expected accept c s = .ok t s.advance := by
  simp [run_expect, hr, ha]

theorem number_ok (h : number c s = .ok t s') :
    ∃ rest, s.rest = t :: rest ∧ t.kind = .number ∧
      (Text.Integer.word? t.text.toList).isSome ∧ s' = s.advance := by
  rw [run_number] at h
  cases hr : s.rest with
  | nil => simp [hr] at h
  | cons next rest =>
      simp only [hr] at h
      split at h
      · split at h <;> cases h
        rename_i hw
        exact ⟨rest, rfl, ‹_›, by simpa [Option.isSome_iff_ne_none] using hw, rfl⟩
      · cases h

/-- A number is refused before it is taken if it is none, and behind it if it does not fit. -/
theorem number_error (h : number c s = .error fault s') :
    fault = s.unexpected c ["number"] ∧ s' = s ∨
      ∃ t rest, s.rest = t :: rest ∧ fault = ⟨.malformedNumber t.text, t.span⟩ ∧
        s' = s.advance := by
  rw [run_number] at h
  cases hr : s.rest with
  | nil =>
      simp only [hr] at h
      cases h
      exact .inl ⟨rfl, rfl⟩
  | cons next rest =>
      simp only [hr] at h
      split at h
      · split at h <;> cases h
        exact .inr ⟨next, rest, rfl, rfl, rfl⟩
      · cases h
        exact .inl ⟨rfl, rfl⟩

theorem number_of_cons (hr : s.rest = t :: rest) (hk : t.kind = .number)
    (hw : (Text.Integer.word? t.text.toList).isSome) : number c s = .ok t s.advance := by
  obtain ⟨x, hx⟩ := Option.isSome_iff_exists.mp hw
  simp [run_number, hr, hk, hx]

end

theorem run_nodeBy (parts : Parse (Rule × List Element)) :
    nodeBy parts c s =
      match parts c s with
      | .ok (r, cs) s' => .ok (.mk r ((s.place c).upTo s'.last) cs) s'
      | .error fault s' => .error fault s' := by
  cases h : parts c s <;> simp [nodeBy, run_bind, run_map, run_here, h]

theorem run_node (r : Rule) (parts : Parse (List Element)) :
    node r parts c s =
      match parts c s with
      | .ok cs s' => .ok (.mk r ((s.place c).upTo s'.last) cs) s'
      | .error fault s' => .error fault s' := by
  rw [node, run_nodeBy, ← map_eq_bind, run_map]
  cases parts c s <;> rfl

/-! ## Repetition -/

theorem run_collect_succ (step : Parse (Option α)) (n : Nat) :
    collect step (n + 1) c s =
      match step c s with
      | .ok none s' => .ok [] s'
      | .ok (some a) s' =>
        match collect step n c s' with
        | .ok as s'' => .ok (a :: as) s''
        | .error fault s'' => .error fault s''
      | .error fault s' => .error fault s' := by
  rw [collect, run_bind]
  cases h : step c s with
  | error fault s' => rfl
  | ok a? s' =>
      cases a? with
      | none => rfl
      | some a => simp only [run_bind]; cases collect step n c s' <;> rfl

theorem run_many (step : Parse (Option α)) :
    many step c s = collect step (s.rest.length + 1) c s := by
  have hread : remaining c s = .ok s.rest.length s := rfl
  simp [many, run_bind, hread]

/-! ## Blocks -/

theorem skip_of_nil {stops : Nat → Token → Bool} (h : s.rest = []) : s.skip stops = s := by
  simp [State.skip, State.skip.go, h]

theorem skip_of_stop {stops : Nat → Token → Bool} (h : s.rest = t :: rest)
    (hs : stops s.depth t) : s.skip stops = s := by
  simp [State.skip, State.skip.go, h, hs]

/-- The state behind a token that is passed over. -/
def State.pass (s : State) (t : Token) : State :=
  { s.advance with log := .skipped t :: s.log }

theorem skip_of_pass {stops : Nat → Token → Bool} (h : s.rest = t :: rest)
    (hs : stops s.depth t = false) : s.skip stops = (s.pass t).skip stops := by
  have hrest : s.advance.rest = rest := by simp [advance_of_cons h]
  simp only [State.skip, h, State.skip.go, hs, State.pass, hrest]
  rfl

@[simp] theorem skip_faults (stops : Nat → Token → Bool) : (s.skip stops).faults = s.faults := by
  induction hr : s.rest generalizing s with
  | nil => rw [skip_of_nil hr]
  | cons t rest ih =>
      by_cases hstop : stops s.depth t
      · rw [skip_of_stop hr hstop]
      · rw [skip_of_pass hr (by simpa using hstop), ih (by simp [State.pass, advance_rest, hr])]
        simp [State.pass]

/-- The state in which reading goes on behind a fault. -/
def State.resumed (stops : Nat → Token → Bool) (left : Nat) (s : State) : State :=
  (if s.rest.length = left then s.advance else s).skip stops

@[simp] theorem resumed_faults (stops : Nat → Token → Bool) (left : Nat) :
    (s.resumed stops left).faults = s.faults := by
  by_cases h : s.rest.length = left <;> simp [State.resumed, h]

/-- The state with one more fault. -/
def State.faulted (s : State) (fault : SyntaxFault) : State :=
  { s with faults := s.faults ++ [fault] }

@[simp] theorem length_faulted (fault : SyntaxFault) :
    (s.faulted fault).faults.length = s.faults.length + 1 := by
  simp [State.faulted]

theorem advance_faulted (s : State) (fault : SyntaxFault) :
    (s.faulted fault).advance = s.advance.faulted fault := by
  cases hr : s.rest <;> simp [State.advance, State.faulted, hr]

theorem Settings.spent_iff {x : Settings} {found : Nat} :
    (!x.resyncs || decide (x.faultBudget ≤ found + 1)) = true ↔ x.patience ≤ found + 1 := by
  by_cases h : x.resyncs <;> simp [Settings.patience, h]

theorem run_recover (depth : Nat) (starters : List String) (left : Nat) (fault : SyntaxFault) :
    recover depth starters left fault c s =
      if c.settings.patience ≤ s.faults.length + 1 then .error fault s
      else .ok () ((s.faulted fault).resumed (endsSkip depth starters) left) := by
  simp only [recover, run_bind, run_read, run_get, Settings.spent_iff]
  split <;> rfl

/-- One round of a block: a statement, or nothing at its end. -/
def round (depth : Nat) (starters : List String) (statement : Parse Node) :
    Parse (Option (List Node)) := fun c s =>
  if s.depth < depth then .ok none s
  else
    match s.rest with
    | [] => .error (s.unexpected c ["\x7d"]) s
    | t :: _ =>
      if t.isMark .closeBrace then .ok none s.advance
      else
        match statement c s with
        | .ok n s' => .ok (some [n]) s'
        | .error fault s' =>
          match recover depth starters s.rest.length fault c s' with
          | .ok _ s'' => .ok (some []) s''
          | .error fault s'' => .error fault s''

theorem block_eq (starters : List String) (statement : Parse Node) :
    block starters statement = do
      mark .openBrace
      let depth ← braceDepth
      let rounds ← many (round depth starters statement)
      return rounds.flatten := by
  have hround (depth : Nat) : round depth starters statement = (do
      if (← braceDepth) < depth then return none
      if ← eatMark .closeBrace then return none
      if ← atEnd then unexpected ["\x7d"]
      let left ← remaining
      try
        return some [← statement]
      catch fault =>
        recover depth starters left fault
        return some []) := by
    funext c s
    have hdepth : braceDepth c s = .ok s.depth s := rfl
    have heat : eatMark .closeBrace = eatWhen fun r => r[0]?.any (·.isMark .closeBrace) := rfl
    have hend : atEnd c s = .ok s.rest.isEmpty s := rfl
    have hleft : remaining c s = .ok s.rest.length s := rfl
    by_cases hlt : s.depth < depth
    · simp [round, run_bind, hdepth, hlt]
    · cases hrest : s.rest with
      | nil =>
          simp [round, run_bind, hdepth, hlt, heat, run_eatWhen, hrest, hend,
            run_unexpected]
      | cons t rest =>
          cases hbrace : t.isMark .closeBrace with
          | true =>
              simp [round, run_bind, hdepth, hlt, heat, run_eatWhen, hrest, hbrace]
          | false =>
              simp [round, run_bind, hdepth, hlt, heat, run_eatWhen, hrest, hbrace, hend, hleft]
              cases hs : statement c s with
              | ok n s' =>
                  simp only [run_tryCatch, run_bind, hs]
                  rfl
              | error fault s' =>
                  simp only [run_tryCatch, run_bind, hs]
                  cases recover depth starters (rest.length + 1) fault c s' <;> rfl
  simp only [block, hround]

/-! ## How a round goes -/

section

variable {depth : Nat} {starters : List String} {statement : Parse Node}

/-- A round of a block ends it, where braces around it are closed or with its own, or reads a
statement, or goes on behind the fault of one. The block fails where its tokens end and with the
fault that uses up the patience. -/
inductive RoundDerivation (c : Context) (depth : Nat) (starters : List String)
    (statement : Parse Node) (s : State) : Ending (Option (List Node)) → Prop where
  | outside (hd : s.depth < depth) : RoundDerivation c depth starters statement s (.ok none s)
  | unclosed (hd : ¬s.depth < depth) (hr : s.rest = []) :
      RoundDerivation c depth starters statement s (.error (s.unexpected c ["\x7d"]) s)
  | closes (hd : ¬s.depth < depth) {t : Token} {rest : List Token} (hr : s.rest = t :: rest)
      (ht : t.isMark .closeBrace) : RoundDerivation c depth starters statement s (.ok none s.advance)
  | reads (hd : ¬s.depth < depth) {t : Token} {rest : List Token} (hr : s.rest = t :: rest)
      (ht : t.isMark .closeBrace = false) {n : Node} {s' : State}
      (hs : statement c s = .ok n s') :
      RoundDerivation c depth starters statement s (.ok (some [n]) s')
  | resumes (hd : ¬s.depth < depth) {t : Token} {rest : List Token} (hr : s.rest = t :: rest)
      (ht : t.isMark .closeBrace = false) {fault : SyntaxFault} {s' : State}
      (hs : statement c s = .error fault s') (hlt : s'.faults.length + 1 < c.settings.patience) :
      RoundDerivation c depth starters statement s
        (.ok (some []) ((s'.faulted fault).resumed (endsSkip depth starters) s.rest.length))
  | fails (hd : ¬s.depth < depth) {t : Token} {rest : List Token} (hr : s.rest = t :: rest)
      (ht : t.isMark .closeBrace = false) {fault : SyntaxFault} {s' : State}
      (hs : statement c s = .error fault s') (hle : c.settings.patience ≤ s'.faults.length + 1) :
      RoundDerivation c depth starters statement s (.error fault s')

theorem RoundDerivation.execution {e : Ending (Option (List Node))}
    (h : RoundDerivation c depth starters statement s e) :
    round depth starters statement c s = e := by
  cases h with
  | outside hd => simp [round, hd]
  | unclosed hd hr => simp [round, hd, hr]
  | closes hd hr ht => simp [round, hd, hr, ht]
  | reads hd hr ht hs => simp [round, hd, hr, ht, hs]
  | resumes hd hr ht hs hlt =>
      simp [round, hd, hr, ht, hs, run_recover, Nat.not_le.mpr hlt]
  | fails hd hr ht hs hle => simp [round, hd, hr, ht, hs, run_recover, hle]

theorem round_derivation :
    RoundDerivation c depth starters statement s (round depth starters statement c s) := by
  have htotal : ∃ e, RoundDerivation c depth starters statement s e := by
    by_cases hd : s.depth < depth
    · exact ⟨_, .outside hd⟩
    cases hr : s.rest with
    | nil => exact ⟨_, .unclosed hd hr⟩
    | cons t rest =>
        cases ht : t.isMark .closeBrace with
        | true => exact ⟨_, .closes hd hr ht⟩
        | false =>
            cases hs : statement c s with
            | ok n s' => exact ⟨_, .reads hd hr ht hs⟩
            | error fault s' =>
                rcases Nat.lt_or_ge (s'.faults.length + 1) c.settings.patience with hlt | hle
                · exact ⟨_, .resumes hd hr ht hs hlt⟩
                · exact ⟨_, .fails hd hr ht hs hle⟩
  obtain ⟨e, h⟩ := htotal
  exact h.execution ▸ h

theorem roundDerivation_iff {e : Ending (Option (List Node))} :
    RoundDerivation c depth starters statement s e ↔ round depth starters statement c s = e := by
  refine ⟨RoundDerivation.execution, ?_⟩
  rintro rfl
  exact round_derivation

end

end Grammar

end Storyworld
