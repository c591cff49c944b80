import Storyworld.Proofs.Grammar.Locality

namespace Storyworld.Grammar

/-! Reading without a fault: what it does step by step, and that it closes every brace it opens. -/

variable {c : Context} {s s' s'' : State} {fl k : Bool} {α β : Type}

/-! ## Runs without a fault -/

/-- A parser succeeds and records no fault on the way. -/
structure Clean (p : Parse α) (c : Context) (s : State) (a : α) (s' : State) : Prop where
  run : p c s = .ok a s'
  faults : s'.faults = s.faults

namespace Clean

theorem bind {p : Parse α} {f : α → Parse β} {a : α} {y : β} (hp : Clean p c s a s')
    (hf : Clean (f a) c s' y s'') : Clean (p >>= f) c s y s'' :=
  ⟨by simp only [run_bind, hp.run, hf.run], hf.faults.trans hp.faults⟩

theorem of_bind {p : Parse α} {f : α → Parse β} {y : β} (hp : Advances k p)
    (hf : ∀ a, Advances fl (f a)) (h : Clean (p >>= f) c s y s'') :
    ∃ a s', Clean p c s a s' ∧ Clean (f a) c s' y s'' := by
  have hrun := h.run
  rw [run_bind] at hrun
  cases hps : p c s with
  | error fault s' => simp [hps] at hrun
  | ok a s' =>
      rw [hps] at hrun
      -- Nothing can have been recorded in between.
      have hle := (hp.ok hps).faults.length_le
      have hprefix := ((hf a).ok hrun).faults
      rw [h.faults] at hprefix
      have hsame : s'.faults = s.faults := hprefix.eq_of_length_le hle
      exact ⟨a, s', ⟨hps, hsame⟩, hrun, h.faults.trans hsame.symm⟩

theorem of_map {p : Parse α} {g : α → β} {y : β} (h : Clean (g <$> p) c s y s') :
    ∃ a, y = g a ∧ Clean p c s a s' := by
  have hrun := h.run
  rw [run_map] at hrun
  split at hrun <;> cases hrun
  exact ⟨_, rfl, ‹_›, h.faults⟩

theorem map {p : Parse α} {g : α → β} {a : α} (h : Clean p c s a s') :
    Clean (g <$> p) c s (g a) s' :=
  ⟨by rw [run_map, h.run], h.faults⟩

theorem of_node {parts : Parse (Rule × List Element)} {n : Node}
    (h : Clean (nodeBy parts) c s n s') :
    ∃ r cs, n = .mk r ((s.place c).upTo s'.last) cs ∧ Clean parts c s (r, cs) s' := by
  have hrun := h.run
  rw [run_nodeBy] at hrun
  split at hrun <;> cases hrun
  exact ⟨_, _, rfl, ‹_›, h.faults⟩

theorem node {parts : Parse (Rule × List Element)} {r : Rule} {cs : List Element}
    (h : Clean parts c s (r, cs) s') :
    Clean (nodeBy parts) c s (.mk r ((s.place c).upTo s'.last) cs) s' :=
  ⟨by rw [run_nodeBy, h.run], h.faults⟩

theorem of_many {step : Parse (Option α)} {as : List α} (hp : Productive step)
    (ha : Advances false step) (h : Clean (many step) c s as s') :
    (as = [] ∧ Clean step c s none s') ∨
      ∃ a as' s₁, as = a :: as' ∧ Clean step c s (some a) s₁ ∧ Clean (many step) c s₁ as' s' := by
  rcases many_cases hp h.run with ⟨rfl, hstep⟩ | ⟨a, as', s₁, rfl, hstep, hmany⟩
  · exact .inl ⟨rfl, hstep, h.faults⟩
  · have hle := (ha.ok hstep).faults.length_le
    have hprefix := (ha.many.ok hmany).faults
    rw [h.faults] at hprefix
    have hsame : s₁.faults = s.faults := hprefix.eq_of_length_le hle
    exact .inr ⟨a, as', s₁, rfl, ⟨hstep, hsame⟩, hmany, h.faults.trans hsame.symm⟩

theorem many_nil {step : Parse (Option α)} (hp : Productive step) (h : Clean step c s none s') :
    Clean (many step) c s [] s' :=
  ⟨by rw [run_many_step hp, h.run], h.faults⟩

theorem many_cons {step : Parse (Option α)} {a : α} {as : List α} (hp : Productive step)
    (h : Clean step c s (some a) s') (hmany : Clean (many step) c s' as s'') :
    Clean (many step) c s (a :: as) s'' :=
  ⟨by simp only [run_many_step hp (s := s), h.run, hmany.run], hmany.faults.trans h.faults⟩

/-- A parser that always fails has no such run. -/
theorem not_fails {p : Parse α} {a : α} {g : Context → State → SyntaxFault}
    (hp : Clean p c s a s') (h : ∀ c s, p c s = .error (g c s) s) : False := by
  have hrun := hp.run
  rw [h] at hrun
  cases hrun

/-- A round of a block that records no fault reads a statement or ends the block. -/
theorem of_round {statement : Parse Node} {depth : Nat} {starters : List String} {ns : List Node}
    (ha : Advances true statement) (h : Clean (round depth starters statement) c s (some ns) s') :
    ∃ u rest n, s.rest = u :: rest ∧ u.isMark .closeBrace = false ∧ ¬s.depth < depth ∧ ns = [n] ∧
      Clean statement c s n s' := by
  have hsame := h.faults
  cases roundDerivation_iff.mpr h.run with
  | reads hd hr hbrace hstat => exact ⟨_, _, _, hr, hbrace, hd, rfl, hstat, hsame⟩
  | resumes hd hr hbrace hstat hlt =>
      have hle := (ha.error hstat).faults.length_le
      have hmore := congrArg List.length hsame
      rw [resumed_faults, length_faulted] at hmore
      omega

theorem round {statement : Parse Node} {depth : Nat} {starters : List String} {n : Node}
    {u : Token} {rest : List Token} (hd : ¬s.depth < depth) (hr : s.rest = u :: rest)
    (hbrace : u.isMark .closeBrace = false) (h : Clean statement c s n s') :
    Clean (Grammar.round depth starters statement) c s (some [n]) s' :=
  ⟨(RoundDerivation.reads hd hr hbrace h.run).execution, h.faults⟩

end Clean

/-! ## Levels of braces -/

/-- No brace was taken on the way to a state. -/
def State.Flat (s s' : State) : Prop :=
  ∃ taken, s.rest = taken ++ s'.rest ∧ ∀ u ∈ taken, u.isBrace = false

/-- A closing brace was taken last on the way to a state. -/
def State.Closed (s s' : State) : Prop :=
  ∃ taken u, s.rest = taken ++ u :: s'.rest ∧ u.isMark .closeBrace

/-- A parser that, where it records no fault, closes every brace that it opens. One that is `flat`
takes none. -/
structure Level (flat : Bool) (p : Parse α) : Prop where
  depth : ∀ {c s a s'}, Clean p c s a s' → s'.depth = s.depth
  flat : flat → ∀ {c s a s'}, Clean p c s a s' → s.Flat s'

theorem State.Flat.refl : s.Flat s :=
  ⟨[], rfl, by simp⟩

theorem State.Flat.trans (h : s.Flat s') (h' : s'.Flat s'') : s.Flat s'' := by
  obtain ⟨taken, hrest, hflat⟩ := h
  obtain ⟨taken', hrest', hflat'⟩ := h'
  refine ⟨taken ++ taken', by rw [hrest, hrest', List.append_assoc], fun u hu => ?_⟩
  exact (List.mem_append.mp hu).elim (hflat u) (hflat' u)

theorem State.Flat.depth (h : s.Flat s') (hbehind : s.Behind s') : s'.depth = s.depth := by
  obtain ⟨taken, hrest, hflat⟩ := h
  rw [hbehind.depth_of_taken hrest, foldl_depthAfter_flat hflat]

theorem State.Flat.advance {u : Token} {rest : List Token} (hr : s.rest = u :: rest)
    (h : u.isBrace = false) : s.Flat s.advance :=
  ⟨[u], by simp [advance_of_cons hr, hr], by simpa using h⟩

namespace Level

theorem of_flat {p : Parse α} (ha : Advances k p)
    (h : ∀ {c s a s'}, Clean p c s a s' → s.Flat s') : Level fl p :=
  ⟨fun hp => (h hp).depth (ha.ok hp.run), fun _ _ _ _ _ => h⟩

theorem pure (a : α) : Level fl (Pure.pure a : Parse α) :=
  .of_flat (.pure a) fun h => by
    cases h.run
    exact .refl

theorem bind {p : Parse α} {f : α → Parse β} {j : Bool} (hp : Level true p) (ha : Advances k p)
    (hf : ∀ a, Level fl (f a)) (hfa : ∀ a, Advances j (f a)) : Level fl (p >>= f) := by
  constructor
  · intro c s y s'' h
    obtain ⟨a, s', hps, hfs⟩ := h.of_bind ha hfa
    exact ((hf a).depth hfs).trans (hp.depth hps)
  · intro hfl c s y s'' h
    obtain ⟨a, s', hps, hfs⟩ := h.of_bind ha hfa
    exact (hp.flat rfl hps).trans ((hf a).flat hfl hfs)

theorem map {p : Parse α} {g : α → β} (hp : Level fl p) : Level fl (g <$> p) := by
  constructor
  · intro c s y s' h
    obtain ⟨a, -, hps⟩ := h.of_map
    exact hp.depth hps
  · intro hfl c s y s' h
    obtain ⟨a, -, hps⟩ := h.of_map
    exact hp.flat hfl hps

theorem look (f : List Token → Bool) : Level fl (looking f) :=
  .of_flat (.look f) fun h => by
    cases h.run
    exact .refl

theorem eat {f : List Token → Bool} (hf : Foresees f) : Level fl (eatWhen f) := by
  refine .of_flat (.eat f) fun {c s a s'} h => ?_
  have hrun := h.run
  rw [run_eatWhen] at hrun
  split at hrun <;> cases hrun
  · obtain ⟨u, rest, hr, hu⟩ := hf s.rest ‹_›
    exact .advance hr hu
  · exact .refl

theorem take {expected : List String} {accept : Token → Bool}
    (h : ∀ t, accept t → t.isBrace = false) : Level fl (expect expected accept) := by
  refine .of_flat (.take expected accept) fun {c s a s'} hclean => ?_
  obtain ⟨rest, hr, ha, rfl⟩ := expect_ok hclean.run
  exact .advance hr (h a ha)

theorem number : Level fl Grammar.number := by
  refine .of_flat .number fun {c s a s'} h => ?_
  obtain ⟨rest, hr, hk, -, rfl⟩ := number_ok h.run
  exact .advance hr (by simp [Token.isBrace, Token.isMark, hk])

/-- A parser that always fails. -/
theorem fails {p : Parse α} {g : Context → State → SyntaxFault}
    (h : ∀ c s, p c s = .error (g c s) s) : Level fl p :=
  ⟨fun hp => (hp.not_fails h).elim, fun _ _ _ _ _ hp => (hp.not_fails h).elim⟩

theorem node {parts : Parse (Rule × List Element)} (hp : Level fl parts) :
    Level fl (nodeBy parts) := by
  constructor
  · intro c s n s' h
    obtain ⟨r, cs, -, hparts⟩ := h.of_node
    exact hp.depth hparts
  · intro hfl c s n s' h
    obtain ⟨r, cs, -, hparts⟩ := h.of_node
    exact hp.flat hfl hparts

theorem many {step : Parse (Option α)} (hp : Level true step) (ha : Advances false step)
    (hprod : Productive step) : Level fl (Grammar.many step) := by
  refine .of_flat ha.many fun {c s as s'} h => ?_
  induction as generalizing s with
  | nil =>
      rcases h.of_many hprod ha with ⟨-, hstep⟩ | ⟨a, as', s₁, heq, -, -⟩
      · exact hp.flat rfl hstep
      · cases heq
  | cons a as ih =>
      rcases h.of_many hprod ha with ⟨heq, -⟩ | ⟨a', as', s₁, heq, hstep, hmany⟩
      · cases heq
      · cases heq
        exact (hp.flat rfl hstep).trans (ih hmany)

end Level

/-! ## Braces -/

theorem Clean.of_mark {m : Mark} (h : Clean (Grammar.mark m) c s () s') :
    ∃ u rest, s.rest = u :: rest ∧ u.isMark m ∧ s' = s.advance := by
  obtain ⟨t, -, htake⟩ := Clean.of_map h
  obtain ⟨rest, hr, ht, rfl⟩ := expect_ok htake.run
  exact ⟨t, rest, hr, ht, rfl⟩

theorem Clean.mark {m : Mark} {u : Token} {rest : List Token} (hr : s.rest = u :: rest)
    (hu : u.isMark m) : Clean (Grammar.mark m) c s () s.advance := by
  have htake : Clean (expect [m.spelling] (·.isMark m)) c s u s.advance :=
    ⟨expect_of_cons hr hu, advance_faults⟩
  exact htake.map

/-- The rounds of a block, behind the brace that opens it. -/
def rounds (starters : List String) (statement : Parse Node) : Parse (List Node) := do
  let depth ← braceDepth
  return (← many (round depth starters statement)).flatten

theorem block_eq_rounds (starters : List String) (statement : Parse Node) :
    block starters statement = (do mark .openBrace; rounds starters statement) :=
  block_eq starters statement

theorem Clean.rounds_iff {starters : List String} {statement : Parse Node} {ns : List Node} :
    Clean (rounds starters statement) c s ns s' ↔
      Clean (List.flatten <$> many (Grammar.round s.depth starters statement)) c s ns s' :=
  ⟨fun h => ⟨h.run, h.faults⟩, fun h => ⟨h.run, h.faults⟩⟩

theorem Advances.rounds {statement : Parse Node} (hp : Advances true statement)
    (starters : List String) : Advances false (Grammar.rounds starters statement) :=
  Advances.depth.bind (k := false) fun depth => (hp.round depth starters).many.map

/-- What is opened is closed again by what follows. -/
theorem Clean.depth_of_opened {p : Parse α} {a : α} (ha : Advances k p)
    (hp : ∀ {s s'}, Clean p c s a s' → s'.depth = s.depth - 1 ∧ s.Closed s')
    (h : Clean (do Grammar.mark .openBrace; p) c s a s') : s'.depth = s.depth ∧ s.Closed s' := by
  obtain ⟨_, s₁, hopen, hrest⟩ := h.of_bind (.mark _) fun _ => ha
  obtain ⟨u, rest, hr, hu, rfl⟩ := hopen.of_mark
  obtain ⟨hdepth, taken, v, htaken, hv⟩ := hp hrest
  rw [advance_of_cons hr] at hdepth htaken
  refine ⟨by simp [hdepth, depthAfter_open hu], u :: taken, v, ?_, hv⟩
  rw [hr, List.cons_append]
  exact congrArg _ htaken

/-- A step, at some depth, that is repeated up to the brace that closes this depth. -/
structure Closing (step : Parse (Option α)) (c : Context) (depth : Nat) : Prop where
  productive : Productive step
  advances : Advances false step
  some : ∀ {s a s'}, s.depth = depth → Clean step c s (some a) s' → s'.depth = depth
  none : ∀ {s s'}, s.depth = depth → Clean step c s none s' →
    ∃ u rest, s.rest = u :: rest ∧ u.isMark .closeBrace ∧ s' = s.advance
  close : ∀ {s u rest}, s.depth = depth → s.rest = u :: rest → u.isMark .closeBrace →
    Clean step c s Option.none s.advance

theorem Closing.round {statement : Parse Node} (ha : Advances true statement)
    (hl : Level false statement) (depth : Nat) (starters : List String) :
    Closing (Grammar.round depth starters statement) c depth where
  productive := ha.round_productive depth starters
  advances := ha.round depth starters
  some hd h := by
    obtain ⟨u, rest, n, -, -, -, -, hstat⟩ := h.of_round ha
    exact (hl.depth hstat).trans hd
  none hd h := ends_of_round (Nat.not_lt.mpr hd.ge) h.run
  close hd hr hu := ⟨(RoundDerivation.closes (Nat.not_lt.mpr hd.ge) hr hu).execution, advance_faults⟩

/-- The repetition closes one brace more than it opens. -/
theorem Clean.closes {step : Parse (Option α)} {as : List α} {depth : Nat}
    (hstep : Closing step c depth) (hd : s.depth = depth) (h : Clean (many step) c s as s') :
    s'.depth = depth - 1 ∧ s.Closed s' := by
  have hprod := hstep.productive
  have ha := hstep.advances
  induction as generalizing s with
  | nil =>
      rcases h.of_many hprod ha with ⟨-, hnone⟩ | ⟨a, as', s₁, heq, -, -⟩
      · obtain ⟨u, rest, hr, hu, rfl⟩ := hstep.none hd hnone
        rw [advance_of_cons hr]
        exact ⟨by simp [depthAfter_close hu, hd], [], u, hr, hu⟩
      · cases heq
  | cons a as ih =>
      rcases h.of_many hprod ha with ⟨heq, -⟩ | ⟨a', as', s₁, heq, hsome, hmany⟩
      · cases heq
      · cases heq
        obtain ⟨hdepth, taken', u, hrest', hu⟩ := ih (hstep.some hd hsome) hmany
        obtain ⟨taken, hrest, -, -⟩ := (ha.ok hsome.run).taken
        exact ⟨hdepth, taken ++ taken', u, by rw [hrest, hrest', List.append_assoc], hu⟩

theorem Clean.of_block {starters : List String} {statement : Parse Node} {ns : List Node}
    (ha : Advances true statement) (hl : Level false statement)
    (h : Clean (block starters statement) c s ns s') : s'.depth = s.depth ∧ s.Closed s' := by
  rw [block_eq_rounds] at h
  refine h.depth_of_opened (ha.rounds starters) fun {s s'} hrounds => ?_
  obtain ⟨nss, -, hmany⟩ := (Clean.rounds_iff.mp hrounds).of_map
  exact hmany.closes (.round ha hl _ _) rfl

/-- A line of a dialogue, or its end. -/
theorem Clean.of_dialogueLine {t? : Option Token} (h : Clean dialogueLine c s t? s') :
    ∃ u rest, s.rest = u :: rest ∧ s' = s.advance ∧
      (u.isMark .closeBrace ∧ t? = none ∨ u.isMark .closeBrace = false ∧ u.isString ∧ t? = some u) := by
  have hrun := h.run
  rw [run_dialogueLine] at hrun
  cases hr : s.rest with
  | nil => simp [hr] at hrun
  | cons u rest =>
      simp only [hr] at hrun
      by_cases hbrace : u.isMark .closeBrace
      · rw [if_pos hbrace] at hrun
        cases hrun
        exact ⟨u, rest, rfl, rfl, .inl ⟨hbrace, rfl⟩⟩
      · rw [if_neg hbrace] at hrun
        split at hrun <;> cases hrun
        exact ⟨u, rest, rfl, rfl, .inr ⟨by simpa using hbrace, ‹_›, rfl⟩⟩

theorem Closing.dialogueLine {depth : Nat} : Closing Grammar.dialogueLine c depth where
  productive := dialogueLine_productive
  advances := .dialogueLine
  some hd h := by
    obtain ⟨u, rest, hr, rfl, ⟨-, heq⟩ | ⟨-, hu, -⟩⟩ := h.of_dialogueLine
    · cases heq
    · rw [advance_of_cons hr, ← hd]
      exact depthAfter_of_not_brace (Token.isBrace_of_isString hu)
  none hd h := by
    obtain ⟨u, rest, hr, rfl, ⟨hu, -⟩ | ⟨-, -, heq⟩⟩ := h.of_dialogueLine
    · exact ⟨u, rest, hr, hu, rfl⟩
    · cases heq
  close _ hr hu := ⟨by simp [run_dialogueLine, hr, hu], advance_faults⟩

theorem Clean.of_lines {ts : List Token}
    (h : Clean (do Grammar.mark .openBrace; many Grammar.dialogueLine) c s ts s') :
    s'.depth = s.depth ∧ s.Closed s' :=
  h.depth_of_opened Advances.dialogueLine.many fun hmany => hmany.closes .dialogueLine rfl

/-- Every parser closes the braces that it opens. -/
theorem Composed.level {T : Token → Prop} {S : Span → Prop} {p : Parse α} {Q : α → Prop}
    (h : Composed T S fl k p Q) : Level fl p := by
  induction h with
  | done => exact .pure _
  | bind hp hf ihp ihf => exact ihp.bind hp.advances ihf fun a => (hf a).advances
  | andThen hp hf ihp ihf => exact ihp.bind hp.advances ihf fun a => (hf a).advances
  | map _ _ ih => exact ih.map
  | within _ ih =>
      exact ⟨fun {c} _ _ _ h => (ih c.settings.maxNesting).depth ⟨h.run, h.faults⟩,
        fun hfl {c} _ _ _ h => (ih c.settings.maxNesting).flat hfl ⟨h.run, h.faults⟩⟩
  | look f => exact .look f
  | eat f _ hf => exact .eat hf
  | @fork _ _ tk _ _ _ _ _ _ f _ _ hp hq _ _ ihp ihq =>
      refine (Level.look f).bind (j := tk) (.look f) (fun found => ?_) fun found => ?_
      · cases found
        exacts [ihq, ihp]
      · cases found
        exacts [hq.advances, hp.advances]
  | take expected accept h => exact .take h
  | number => exact .number
  | unexpected expected => exact .fails fun c s => run_unexpected expected
  | failHere cause => exact .fails fun c s => run_failHere cause
  | node _ _ ih => exact (ih .origin).node
  | many hp hprod ih => exact ih.many hp.advances hprod
  | block starters hp ih =>
      exact ⟨fun h => (h.of_block hp.advances ih).1, by simp⟩
  | lines => exact ⟨fun h => h.of_lines.1, by simp⟩

end Storyworld.Grammar
