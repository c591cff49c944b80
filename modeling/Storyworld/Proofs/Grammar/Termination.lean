import Storyworld.Proofs.Document.Accounted

namespace Storyworld

/-! Reading ends, whatever the tokens are. No loop of the grammar needs the bound on its rounds: each
round takes a token or is the last, so that the tokens left bound the rounds that are to come. -/

namespace Grammar

variable {α : Type} {c : Context} {s s' s'' : State}

/-! ## Loops without a bound -/

/-- The tokens that are left where a parser ends. -/
def left : Ending α → List Token
  | .ok _ s | .error _ s => s.rest

/-- The ending of a loop whose first round gave `a`, told by that of the other rounds. -/
def push (a : α) : Ending (List α) → Ending (List α)
  | .ok as s => .ok (a :: as) s
  | .error fault s => .error fault s

@[simp] theorem left_ok (a : α) : left (.ok a s) = s.rest := rfl

@[simp] theorem left_error (fault : SyntaxFault) : left (.error fault s : Ending α) = s.rest := rfl

@[simp] theorem left_push {a : α} {e : Ending (List α)} : left (push a e) = left e := by
  cases e <;> rfl

/-- Repeating a step as long as it gives something: the states in which its rounds begin, and the
ending. Nothing bounds the number of rounds. -/
inductive Repeats (step : Parse (Option α)) (c : Context) :
    List State → Ending (List α) → Prop where
  | ends {s s' : State} (h : step c s = .ok none s') : Repeats step c [s] (.ok [] s')
  | fails {s s' : State} {fault : SyntaxFault} (h : step c s = .error fault s') :
      Repeats step c [s] (.error fault s')
  | goesOn {s s' : State} {ss : List State} {a : α} {e : Ending (List α)}
      (h : step c s = .ok (some a) s') (hmore : Repeats step c (s' :: ss) e) :
      Repeats step c (s :: s' :: ss) (push a e)

/-- Reading got from a state to another one and took a token. -/
structure State.Further (s s' : State) : Prop where
  rest : s'.rest <:+ s.rest
  shorter : s'.rest.length < s.rest.length

theorem State.Further.trans (h : s.Further s') (h' : s'.Further s'') : s.Further s'' :=
  ⟨h'.rest.trans h.rest, h'.shorter.trans h.shorter⟩

/-- A loop that ends after finitely many rounds from wherever it begins, with what the loop whose
rounds are bounded ends with. Each of its rounds but the last takes a token, and none gives one
back. -/
def Halts (step : Parse (Option α)) : Prop :=
  ∀ c s, ∃ ss, Repeats step c (s :: ss) (many step c s) ∧ (s :: ss).Pairwise State.Further ∧
    ∀ t ∈ s :: ss, left (many step c s) <:+ t.rest

theorem Productive.halts {step : Parse (Option α)} (hp : Productive step) (ha : Advances false step) :
    Halts step := by
  intro c s
  induction hn : s.rest.length using Nat.strong_induction_on generalizing s with
  | h n ih =>
      cases hstep : step c s with
      | error fault s' =>
          have hmany : many step c s = .error fault s' := by rw [run_many_step hp, hstep]
          rw [hmany]
          exact ⟨[], .fails hstep, by simp, by simpa using (ha.error hstep).rest⟩
      | ok a? s' =>
          have hrest := (ha.ok hstep).rest
          cases a? with
          | none =>
              have hmany : many step c s = .ok [] s' := by rw [run_many_step hp, hstep]
              rw [hmany]
              exact ⟨[], .ends hstep, by simp, by simpa using hrest⟩
          | some a =>
              have hmany : many step c s = push a (many step c s') := by
                simp only [run_many_step hp (s := s), hstep]
                cases many step c s' <;> rfl
              have hfurther : s.Further s' := ⟨hrest, hp c s a s' hstep⟩
              obtain ⟨ss, hrun, hss, hend⟩ := ih s'.rest.length (hn ▸ hfurther.shorter) s' rfl
              rw [hmany]
              refine ⟨s' :: ss, .goesOn hstep hrun, List.pairwise_cons.mpr ⟨?_, hss⟩, ?_⟩
              · rintro t (_ | ⟨_, ht⟩)
                · exact hfurther
                · exact hfurther.trans ((List.pairwise_cons.mp hss).1 t ht)
              · rw [left_push, List.forall_mem_cons]
                exact ⟨(hend s' List.mem_cons_self).trans hrest, hend⟩

/-! ## The loops of the grammar -/

/-- A statement behind one of the words that begin it. -/
def begun (starters : List String) (statement : Parse Node) : Parse Node := do
  if ← atOneOf starters then statement else unexpected (starters ++ ["\x7d"])

/-- An item behind a comma that continues a list. -/
def commaStep (item : Parse α) (continues : Parse Bool) : Parse (Option α) := do
  if (← atMark .comma) && (← continues) then
    advance
    return some (← item)
  else return none

theorem commaSeparated_eq (item : Parse α) (continues : Parse Bool) :
    commaSeparated item continues = (do
      let first ← item
      let more ← many (commaStep item continues)
      return first :: more) :=
  rfl

/-- The statements of the blocks, and the words at which reading goes on behind a fault. -/
inductive BlockOf : List String → Parse Node → Prop where
  | room : BlockOf roomStarters (begun roomStarters roomStatement)
  | exit : BlockOf exitOptionStarters (begun exitOptionStarters do
      let option ← exitOption
      discard (eatMark .comma)
      return option)
  | flagTexts : BlockOf ["set", "unset"] (begun ["set", "unset"] do
      if ← atKeyword "set" then keywordThenString .overlaySetText "set"
      else keywordThenString .overlayUnsetText "unset")
  | presenceTexts : BlockOf ["present", "absent"] (begun ["present", "absent"] do
      if ← atKeyword "present" then keywordThenString .overlayPresentText "present"
      else keywordThenString .overlayAbsentText "absent")
  | moodLines : BlockOf ["normal", "happy", "bored", "tired", "sad", "mad", "custom"]
      (begun ["normal", "happy", "bored", "tired", "sad", "mad", "custom"] <|
        node .overlayStateLine do
          let state ← mood
          let text ← string
          return [state, text])
  | overlayTexts : BlockOf ["text"] (begun ["text"] (keywordThenString .overlayText "text"))
  | item : BlockOf itemStarters (begun itemStarters itemStatement)
  | consumable : BlockOf ["uses_left", "consume_on", "when_consumed"]
      (begun ["uses_left", "consume_on", "when_consumed"] consumableStatement)
  | npc : BlockOf npcStarters (begun npcStarters npcStatement)
  | goal : BlockOf goalStarters (begun goalStarters goalStatement)
  | spinner : BlockOf ["wedge"] (begun ["wedge"] wedge)
  | patches : BlockOf patchStarters (begun patchStarters patchStatement)
  | branch (levels : Nat) : BlockOf ["do"] do
      if ← atKeyword "do" then deed (action levels)
      else if ← atKeyword "if" then throw ⟨.nestedConditional, ← here⟩
      else unexpected ["do", "\x7d"]
  | statements (levels : Nat) : BlockOf ["do", "if"] (begun ["do", "if"] do
      if ← atKeyword "do" then deed (action levels)
      else branch (condition levels .standalone) (action levels))

/-- The items of the lists with commas, and when a comma continues one of them. -/
inductive ListOf : {α : Type} → Parse α → Parse Bool → Prop where
  | ids (what : String) : ListOf (word what) (return true)
  | overlayConditions : ListOf overlayCondition (return true)
  | members (levels : Nat) : ListOf (condition levels .grouped) (return true)
  | membersTooDeep : ListOf (tooDeep : Parse Node) (return true)
  | rooms (place : Place) : ListOf (word "room id") (continuesRooms place)

/-- The steps of the loops of the grammar. -/
inductive Loop : {α : Type} → Parse (Option α) → Prop where
  | definitions : Loop nextDefinition
  | block {starters : List String} {statement : Parse Node} (h : BlockOf starters statement)
      (depth : Nat) : Loop (round depth starters statement)
  | dialogue : Loop dialogueLine
  | modifiers : Loop triggerModifier
  | movementOptions : Loop movementOption
  | list {α : Type} {item : Parse α} {continues : Parse Bool} (h : ListOf item continues) :
      Loop (commaStep item continues)

/-! ## Progress -/

theorem BlockOf.advances {starters : List String} {statement : Parse Node}
    (h : BlockOf starters statement) : Advances true statement := by
  have hspelled : ∀ t : Token, t.IsSpelled → t.IsSpelled := fun _ h => h
  have hbegun {statement : Parse Node} {N : Node → Prop} (starters : List String)
      (hp : Composed Token.IsSpelled (fun _ => True) false true statement N) :
      Advances true (begun starters statement) := (hp.begun starters).advances
  have htexts {first second : String} {r r' : Rule} (hr : r.slots = [.one .string])
      (hr' : r'.slots = [.one .string]) : Advances true (begun [first, second] do
        if ← atKeyword first then keywordThenString r first else keywordThenString r' second) :=
    hbegun _ (.alternative (.keywordThenString (List.mem_cons_self : r ∈ [r, r']) hr)
      (.keywordThenString (by simp) hr'))
  have haction (levels : Nat) : ∀ T S, (∀ t, T t → t.IsSpelled) →
      Composed T S false true (action levels) (GrownWithin levels T S Rule.actions) :=
    fun _ _ => .action levels
  cases h with
  | room => exact hbegun _ .roomStatement
  | exit => exact hbegun _ .exitOptionItem
  | flagTexts | presenceTexts => exact htexts rfl rfl
  | moodLines =>
      have hline (outer : Span) : Composed
          (fun t => t.IsSpelled ∧ t.span.Inside outer) (fun s => True ∧ s.Inside outer) false true
          (do return [.node (← mood), .token (← string)]) (Fills _ _ Rule.overlayStateLine.slots) :=
        .bind .mood fun state => .andThen .string fun text =>
          .done fun ht hs => .node hs (.token ht .nil)
      exact hbegun _ (.grown (List.mem_singleton_self _) hline)
  | overlayTexts => exact hbegun _ (.keywordThenString (List.mem_singleton_self _) rfl)
  | item => exact hbegun _ .itemStatement
  | consumable => exact hbegun _ .consumableStatement
  | npc => exact hbegun _ (.npcStatement hspelled)
  | goal => exact hbegun _ .goalStatement
  | spinner => exact hbegun _ .wedge
  | patches => exact hbegun _ .patchStatement
  | branch levels =>
      have hdeed : Composed Token.IsSpelled (fun _ => True) false true (do
          if ← atKeyword "do" then deed (action levels)
          else if ← atKeyword "if" then throw ⟨.nestedConditional, ← here⟩
          else unexpected ["do", "\x7d"]) (GrownWithin levels _ _ [.doStmt]) :=
        .alternative (.deed (haction levels) hspelled)
          (.alternative (.failHere (fun _ => .nestedConditional) (by simp)) (.unexpected _))
      exact hdeed.advances
  | statements levels =>
      exact hbegun _ (.statement (fun _ _ => .condition _ _) (haction levels) hspelled)

theorem ListOf.advances {α : Type} {item : Parse α} {continues : Parse Bool}
    (h : ListOf item continues) : Advances true item := by
  have hcomposed {α : Type} {item : Parse α} {Q : α → Prop}
      (h : Composed Token.IsSpelled (fun _ => True) true true item Q) : Advances true item :=
    h.advances
  cases h with
  | ids _ | rooms _ => exact hcomposed .word
  | overlayConditions => exact hcomposed .overlayCondition
  | members levels => exact hcomposed (.condition levels .grouped)
  | membersTooDeep => exact hcomposed (.tooDeep : Composed _ _ _ _ _ fun _ => True)

/-- Whether a comma continues a list is told by the tokens that come next. -/
theorem ListOf.looks {α : Type} {item : Parse α} {continues : Parse Bool}
    (h : ListOf item continues) : ∃ g, continues = looking g := by
  cases h with
  | rooms place =>
      cases place with
      | standalone => exact ⟨fun _ => true, rfl⟩
      | grouped => exact ⟨_, continuesRooms_grouped⟩
  | ids _ | overlayConditions | members _ | membersTooDeep => exact ⟨fun _ => true, rfl⟩

theorem commaStep_eq {item : Parse α} {g : List Token → Bool} : commaStep item (looking g) = (do
    if ← eatWhen fun r => r[0]?.any (·.isMark .comma) && g r then some <$> item
    else return none) :=
  Composed.commaStep_eq item g

theorem commaStep_productive {item : Parse α} (hitem : Advances true item) (g : List Token → Bool) :
    Productive (commaStep item (looking g)) ∧ Advances false (commaStep item (looking g)) := by
  rw [commaStep_eq]
  refine ⟨Productive.bind (.eat _) fun found => ?_, ?_⟩
  · split
    · exact .some hitem
    · exact .none
  · refine (Advances.eat _).bind (k := false) fun found => ?_
    split
    · exact hitem.map.weaken (by simp)
    · exact .pure _

/-- Each round of a loop that goes on takes a token, and no round gives one back. -/
theorem Loop.productive {step : Parse (Option α)} (h : Loop step) :
    Productive step ∧ Advances false step := by
  cases h with
  | definitions => exact ⟨nextDefinition_productive, nextDefinition_advances⟩
  | block h depth => exact ⟨h.advances.round_productive _ _, h.advances.round _ _⟩
  | dialogue => exact ⟨dialogueLine_productive, .dialogueLine⟩
  | modifiers =>
      have hcomposed : Composed (fun _ => True) (fun _ => True) true false triggerModifier _ :=
        .triggerModifier
      exact ⟨Composed.triggerModifier_productive, hcomposed.advances⟩
  | movementOptions =>
      have hcomposed : Composed (fun _ => True) (fun _ => True) true false movementOption _ :=
        .movementOption
      exact ⟨Composed.movementOption_productive, hcomposed.advances⟩
  | list h =>
      obtain ⟨g, rfl⟩ := h.looks
      exact commaStep_productive h.advances g

/-! ## Where reading stops -/

/-- Reading definitions stops behind the last token, or where recovery is off or its budget is
spent. -/
theorem nextDefinition_stops (h : nextDefinition c s = .ok none s') :
    s'.rest = [] ∨ c.settings.resyncs = false ∨ c.settings.faultBudget ≤ s'.faults.length := by
  cases nextDerivation_iff.mpr h with
  | ends hr => exact .inl hr
  | @stops _ fault s₁ hdef hle =>
      rw [length_faulted]
      by_cases hr : c.settings.resyncs
      · exact .inr (.inr (by simpa [Settings.patience, hr] using hle))
      · exact .inr (.inl (by simpa using hr))

theorem definitions_stop {nss : List (List Node)} (h : many nextDefinition c s = .ok nss s') :
    s'.rest = [] ∨ c.settings.resyncs = false ∨ c.settings.faultBudget ≤ s'.faults.length := by
  induction nss generalizing s with
  | nil =>
      rcases many_cases nextDefinition_productive h with ⟨-, hlast⟩ | ⟨_, _, _, heq, -, -⟩
      · exact nextDefinition_stops hlast
      · cases heq
  | cons ns nss ih =>
      rcases many_cases nextDefinition_productive h with ⟨heq, -⟩ | ⟨_, _, _, heq, -, hmore⟩
      · cases heq
      · cases heq
        exact ih hmore

end Grammar

open Grammar

/-- Reading tokens ends, whatever they are and whatever the settings. Each loop of the grammar ends
by itself from wherever it begins: its rounds take tokens, the last one apart, and give none back.
What is left unread at the end is the end of the tokens, and nothing is left where recovery is on and
its budget is not spent. -/
theorem Tree.ofTokens_terminates (settings : Settings) (tokens : List Token) :
    (∀ {α : Type} {step : Parse (Option α)}, Loop step → Halts step) ∧
    unread settings tokens <:+ significant tokens ∧
    (settings.resyncs → (ofTokens settings tokens).faults.length < settings.faultBudget →
      unread settings tokens = []) := by
  obtain ⟨nss, s, hmany⟩ := definitions_ok ⟨settings, endOf tokens⟩ { rest := significant tokens }
  have hle := (faults_of_definitions hmany).length_le
  rw [unread_eq hmany]
  refine ⟨fun h => h.productive.1.halts h.productive.2, (nextDefinition_advances.many.ok hmany).rest,
    fun hresyncs hfaults => ?_⟩
  rcases definitions_stop hmany with hrest | hoff | hspent
  · exact hrest
  · exact absurd hresyncs (by simpa using hoff)
  · exact absurd hfaults (Nat.not_lt.mpr (Nat.le_trans hspent hle))

/-- Tokens of no source: their texts are not those of their kinds, and they do not lie in order. -/
def Tree.mislabelled : List Token :=
  [⟨.mark .closeBrace, ⟨9, 3, 0, 0⟩, "room"⟩, ⟨.keyword "room", .origin, "7"⟩]

theorem Tree.ofTokens_terminates_mislabelled :
    (ofTokens {} mislabelled).faults.length = 2 ∧ unread {} mislabelled = [] := by
  have hfaults : (ofTokens {} mislabelled).faults.length = 2 := by decide +kernel
  refine ⟨hfaults, (ofTokens_terminates {} mislabelled).2.2 rfl ?_⟩
  rw [hfaults]
  decide

end Storyworld
