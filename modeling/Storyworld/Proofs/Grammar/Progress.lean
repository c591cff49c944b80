import Storyworld.Proofs.Grammar.Composed

namespace Storyworld.Grammar

/-! Parsers never give tokens back and never forget a fault: what is left behind a parser is a
suffix of what was left before it, and a shorter one where it takes tokens. They know where the
token lies that was taken last, and how many braces are open behind the tokens they took. -/

/-- Where the token read last lies behind some more tokens. -/
def lastBehind (last : Span) (taken : List Token) : Span :=
  (taken.getLast?.map (·.span)).getD last

/-- Reading got from a state to one behind it. -/
structure State.Behind (s s' : State) : Prop where
  taken : ∃ taken, s.rest = taken ++ s'.rest ∧ s'.last = lastBehind s.last taken ∧
    s'.depth = taken.foldl depthAfter s.depth
  faults : s.faults <+: s'.faults

/-- A parser that leaves a state behind the one it began in; a `taking` one has taken a token where
it succeeds. -/
structure Advances (taking : Bool) (p : Parse α) : Prop where
  ok : ∀ {c s a s'}, p c s = .ok a s' → s.Behind s'
  shorter : ∀ {c s a s'}, p c s = .ok a s' → taking → s'.rest.length < s.rest.length
  error : ∀ {c s fault s'}, p c s = .error fault s' → s.Behind s'

variable {T : Token → Prop} {S : Span → Prop} {fl k : Bool} {c : Context} {s s' s'' : State}

/-! ## States -/

namespace State.Behind

theorem rest (h : s.Behind s') : s'.rest <:+ s.rest := by
  obtain ⟨taken, hrest, -, -⟩ := h.taken
  exact ⟨taken, hrest.symm⟩

/-- The braces open behind some tokens that were taken. -/
theorem depth_of_taken (h : s.Behind s') {taken : List Token} (hrest : s.rest = taken ++ s'.rest) :
    s'.depth = taken.foldl depthAfter s.depth := by
  obtain ⟨taken', hrest', -, hdepth⟩ := h.taken
  obtain rfl : taken = taken' := List.append_cancel_right (hrest.symm.trans hrest')
  exact hdepth

theorem refl : s.Behind s :=
  ⟨⟨[], rfl, rfl, rfl⟩, List.prefix_rfl⟩

theorem trans (h : s.Behind s') (h' : s'.Behind s'') : s.Behind s'' := by
  obtain ⟨taken, hrest, hlast, hdepth⟩ := h.taken
  obtain ⟨taken', hrest', hlast', hdepth'⟩ := h'.taken
  refine ⟨⟨taken ++ taken', by rw [hrest, hrest', List.append_assoc], ?_, ?_⟩,
    h.faults.trans h'.faults⟩
  · rw [hlast', hlast, lastBehind, lastBehind, lastBehind, List.getLast?_append]
    cases taken'.getLast? <;> rfl
  · rw [hdepth', hdepth, List.foldl_append]

theorem advance : s.Behind s.advance := by
  refine ⟨?_, by simp⟩
  cases hr : s.rest with
  | nil =>
      exact ⟨[], by simp [advance_of_nil hr, hr], by simp [advance_of_nil hr, lastBehind],
        by simp [advance_of_nil hr]⟩
  | cons t rest =>
      exact ⟨[t], by simp [advance_of_cons hr], by simp [advance_of_cons hr, lastBehind],
        by simp [advance_of_cons hr]⟩

theorem fault (f : SyntaxFault) : s.Behind (s.faulted f) :=
  ⟨⟨[], rfl, rfl, rfl⟩, List.prefix_append _ _⟩

/-- Where a token was taken, the place of the last one is that of the last token taken. -/
theorem last_of_taken (h : s.Behind s') {taken : List Token} (hrest : s.rest = taken ++ s'.rest)
    (hne : taken ≠ []) : s'.last = (taken.getLast hne).span := by
  obtain ⟨taken', hrest', hlast, -⟩ := h.taken
  obtain rfl : taken = taken' := List.append_cancel_right (hrest.symm.trans hrest')
  rw [hlast, lastBehind, List.getLast?_eq_some_getLast hne]
  rfl

theorem skip (stops : Nat → Token → Bool) (s : State) : s.Behind (s.skip stops) := by
  induction hr : s.rest generalizing s with
  | nil =>
      rw [skip_of_nil hr]
      exact refl
  | cons t rest ih =>
      cases hs : stops s.depth t with
      | true =>
          rw [skip_of_stop hr hs]
          exact refl
      | false =>
          have hpass : (s.pass t).rest = rest := by simp [State.pass, advance_of_cons hr]
          have hbehind : s.Behind (s.pass t) := ⟨advance.taken, advance.faults⟩
          rw [skip_of_pass hr hs]
          exact hbehind.trans (ih (s.pass t) hpass)

theorem resumed (stops : Nat → Token → Bool) (left : Nat) (s : State) :
    s.Behind (s.resumed stops left) := by
  unfold State.resumed
  split
  · exact advance.trans (skip _ _)
  · exact skip _ _

end State.Behind

/-- Reading on behind a fault takes a token where none was taken before it. -/
theorem resumed_lt {left : Nat} (stops : Nat → Token → Bool) (hleft : s.rest.length ≤ left)
    (hpos : 0 < left) : (s.resumed stops left).rest.length < left := by
  unfold State.resumed
  split
  · have hle := (State.Behind.skip stops s.advance).rest.length_le
    rw [advance_rest, List.length_tail] at hle
    omega
  · have hle := (State.Behind.skip stops s).rest.length_le
    omega

/-! ## Pieces -/

namespace Advances

theorem weaken {p : Parse α} {tp : Bool} (hp : Advances tp p) (h : k → tp) : Advances k p :=
  ⟨hp.ok, fun hok ht => hp.shorter hok (h ht), hp.error⟩

theorem pure (a : α) : Advances false (Pure.pure a : Parse α) := by
  refine ⟨fun h => ?_, by simp, fun h => by cases h⟩
  cases h
  exact .refl

theorem bind {p : Parse α} {f : α → Parse β} {tp : Bool} (hp : Advances tp p)
    (hf : ∀ a, Advances k (f a)) : Advances (tp || k) (p >>= f) := by
  have hsplit {c s b s''} (h : (p >>= f) c s = .ok b s'') :
      ∃ a s', p c s = .ok a s' ∧ f a c s' = .ok b s'' := by
    rw [run_bind] at h
    cases hps : p c s with
    | error fault s' => simp [hps] at h
    | ok a s' => exact ⟨a, s', rfl, by simpa [hps] using h⟩
  constructor
  · intro c s b s'' h
    obtain ⟨a, s', hps, hfs⟩ := hsplit h
    exact (hp.ok hps).trans ((hf a).ok hfs)
  · intro c s b s'' h ht
    obtain ⟨a, s', hps, hfs⟩ := hsplit h
    have hle := (hp.ok hps).rest.length_le
    have hle' := ((hf a).ok hfs).rest.length_le
    rcases Bool.or_eq_true_iff.mp ht with ht | ht
    · have hlt := hp.shorter hps ht
      omega
    · have hlt := (hf a).shorter hfs ht
      omega
  · intro c s fault s'' h
    rw [run_bind] at h
    cases hps : p c s with
    | error fault' s' =>
        rw [hps] at h
        cases h
        exact hp.error hps
    | ok a s' =>
        rw [hps] at h
        exact (hp.ok hps).trans ((hf a).error h)

theorem map {p : Parse α} {g : α → β} (hp : Advances k p) : Advances k (g <$> p) := by
  have h := hp.bind (f := fun a => Pure.pure (g a)) fun a => pure (g a)
  rwa [Bool.or_false] at h

theorem look (f : List Token → Bool) : Advances false (looking f) := by
  refine ⟨fun h => ?_, by simp, fun h => by cases h⟩
  cases h
  exact .refl

theorem eat (f : List Token → Bool) : Advances false (eatWhen f) := by
  refine ⟨fun h => ?_, by simp, fun h => ?_⟩
  · rw [run_eatWhen] at h
    split at h <;> cases h
    · exact .advance
    · exact .refl
  · rw [run_eatWhen] at h
    split at h <;> cases h

theorem take (expected : List String) (accept : Token → Bool) :
    Advances true (expect expected accept) := by
  refine ⟨fun h => ?_, fun h _ => ?_, fun h => ?_⟩
  · obtain ⟨rest, -, -, rfl⟩ := expect_ok h
    exact .advance
  · obtain ⟨rest, hr, -, rfl⟩ := expect_ok h
    simp [advance_rest, hr]
  · obtain ⟨-, rfl⟩ := expect_error h
    exact .refl

theorem number : Advances true Grammar.number := by
  refine ⟨fun h => ?_, fun h _ => ?_, fun h => ?_⟩
  · obtain ⟨rest, -, -, -, rfl⟩ := number_ok h
    exact .advance
  · obtain ⟨rest, hr, -, -, rfl⟩ := number_ok h
    simp [advance_rest, hr]
  · obtain ⟨-, rfl⟩ | ⟨t, rest, -, -, rfl⟩ := number_error h
    · exact .refl
    · exact .advance

/-- A parser that only fails where it stands. -/
theorem fails {p : Parse α} {g : Context → State → SyntaxFault}
    (h : ∀ c s, p c s = .error (g c s) s) : Advances k p := by
  have hok {c s a s'} (h' : p c s = .ok a s') : False := by
    rw [h] at h'
    cases h'
  refine ⟨fun h' => (hok h').elim, fun h' => (hok h').elim, fun h' => ?_⟩
  rw [h] at h'
  cases h'
  exact .refl

theorem node {parts : Parse (Rule × List Element)} (hp : Advances k parts) :
    Advances k (nodeBy parts) := by
  have hsplit {c s n s'} (h : nodeBy parts c s = .ok n s') : ∃ x, parts c s = .ok x s' := by
    rw [run_nodeBy] at h
    split at h <;> cases h
    exact ⟨_, ‹_›⟩
  refine ⟨fun h => ?_, fun h => ?_, fun h => ?_⟩
  · obtain ⟨x, hx⟩ := hsplit h
    exact hp.ok hx
  · obtain ⟨x, hx⟩ := hsplit h
    exact hp.shorter hx
  · rw [run_nodeBy] at h
    split at h <;> cases h
    exact hp.error ‹_›

theorem collect {step : Parse (Option α)} (hp : Advances false step) (n : Nat) :
    Advances false (Grammar.collect step n) := by
  induction n with
  | zero => exact pure []
  | succ n ih =>
      refine hp.bind fun a? => ?_
      cases a? with
      | none => exact pure []
      | some a => exact ih.map

theorem many {step : Parse (Option α)} (hp : Advances false step) :
    Advances false (Grammar.many step) := by
  refine ⟨fun h => ?_, by simp, fun h => ?_⟩
  · rw [run_many] at h
    exact (hp.collect _).ok h
  · rw [run_many] at h
    exact (hp.collect _).error h

/-! ## Blocks -/

theorem round {statement : Parse Node} (hp : Advances true statement) (depth : Nat)
    (starters : List String) : Advances false (Grammar.round depth starters statement) := by
  refine ⟨fun h => ?_, by simp, fun h => ?_⟩
  · cases roundDerivation_iff.mpr h with
    | outside hd => exact .refl
    | closes hd hr ht => exact .advance
    | reads hd hr ht hs => exact hp.ok hs
    | resumes hd hr ht hs hlt => exact ((hp.error hs).trans (.fault _)).trans (.resumed _ _ _)
  · cases roundDerivation_iff.mpr h with
    | unclosed hd hr => exact .refl
    | fails hd hr ht hs hle => exact hp.error hs

/-- A round of a block that does not end it takes a token: where the statement took none before its
fault, its first one is passed over. -/
theorem round_productive {statement : Parse Node} (hp : Advances true statement) (depth : Nat)
    (starters : List String) : Productive (Grammar.round depth starters statement) := by
  intro c s ns s' h
  cases roundDerivation_iff.mpr h with
  | reads hd hr ht hs => exact hp.shorter hs rfl
  | resumes hd hr ht hs hlt => exact resumed_lt _ (hp.error hs).rest.length_le (by simp [hr])

theorem mark (m : Mark) : Advances true (Grammar.mark m) :=
  (take _ _).map

theorem depth : Advances false braceDepth := by
  refine ⟨fun h => ?_, by simp, fun h => by cases h⟩
  cases h
  exact .refl

theorem block {statement : Parse Node} (hp : Advances true statement) (starters : List String) :
    Advances true (Grammar.block starters statement) := by
  rw [block_eq]
  refine (mark .openBrace).bind (k := false) fun _ => ?_
  exact depth.bind (k := false) fun d => (round hp d starters).many.map

theorem dialogueLine : Advances false Grammar.dialogueLine := by
  have heat : Advances false (eatMark .closeBrace) :=
    eat fun r => r[0]?.any (Token.isMark .closeBrace)
  refine heat.bind (k := false) fun closed => ?_
  cases closed with
  | true => exact pure none
  | false => exact ((take _ _).weaken (by simp)).map

end Advances

/-! ## Steps that take a token -/

namespace Productive

variable {α β : Type}

theorem some {p : Parse α} (hp : Advances true p) : Productive (Option.some <$> p) := by
  intro c s a s' h
  exact hp.map.shorter h rfl

theorem none : Productive (pure Option.none : Parse (Option α)) := by
  intro c s a s' h
  cases h

theorem bind {p : Parse β} {f : β → Parse (Option α)} (hp : Advances false p)
    (hf : ∀ b, Productive (f b)) : Productive (p >>= f) := by
  intro c s a s' h
  rw [run_bind] at h
  cases hps : p c s with
  | error fault s'' => simp [hps] at h
  | ok b s'' =>
      rw [hps] at h
      have hle := (hp.ok hps).rest.length_le
      have hlt := hf b c s'' a s' h
      omega

theorem alternative {w : String} {p : Parse α} {q : Parse (Option α)} (hp : Advances true p)
    (hq : Productive q) : Productive (do if ← atKeyword w then Option.some <$> p else q) := by
  have hat : Advances false (atKeyword w) := Advances.look fun r => r[0]?.any (Token.isKeyword w)
  refine bind hat fun found => ?_
  split
  · exact some hp
  · exact hq

end Productive

/-- With a step that takes a token each round, any two numbers of rounds that are greater than the
number of tokens left come to the same. -/
theorem collect_rounds {α : Type} {step : Parse (Option α)} (hp : Productive step)
    {n m : Nat} (hn : s.rest.length < n) (hm : s.rest.length < m) :
    collect step n c s = collect step m c s := by
  induction n generalizing s m with
  | zero => omega
  | succ n ih =>
      cases m with
      | zero => omega
      | succ m =>
          rw [run_collect_succ, run_collect_succ]
          cases h : step c s with
          | error fault s' => rfl
          | ok a? s' =>
              cases a? with
              | none => rfl
              | some a =>
                  have hlt := hp c s a s' h
                  have hsame := ih (s := s') (m := m) (by omega) (by omega)
                  simp only [hsame]

theorem run_dialogueLine :
    dialogueLine c s =
      match s.rest with
      | [] => .error (s.unexpected c ["string", "\x7d"]) s
      | t :: _ =>
        if t.isMark .closeBrace then .ok none s.advance
        else if t.isString then .ok (some t) s.advance
        else .error (s.unexpected c ["string", "\x7d"]) s := by
  have heat : eatMark .closeBrace = eatWhen fun r => r[0]?.any (·.isMark .closeBrace) := rfl
  simp only [dialogueLine, heat, run_bind, run_eatWhen]
  cases hr : s.rest with
  | nil => simp [run_map, run_expect, hr]
  | cons t rest =>
      cases hbrace : t.isMark .closeBrace with
      | true => simp [hbrace]
      | false => cases hstring : t.isString <;> simp [run_map, run_expect, hr, hbrace, hstring]

theorem dialogueLine_productive : Productive dialogueLine := by
  have heat : Advances false (eatMark .closeBrace) :=
    .eat fun r => r[0]?.any (Token.isMark .closeBrace)
  refine .bind heat fun closed => ?_
  cases closed with
  | true => exact .none
  | false => exact .some (.take _ _)

/-- Repeating a step that takes a token is one step and then repeating it. -/
theorem run_many_step {α : Type} {step : Parse (Option α)} (hp : Productive step) :
    many step c s =
      match step c s with
      | .ok none s' => .ok [] s'
      | .ok (some a) s' =>
        match many step c s' with
        | .ok as s'' => .ok (a :: as) s''
        | .error fault s'' => .error fault s''
      | .error fault s' => .error fault s' := by
  rw [run_many, run_collect_succ]
  cases h : step c s with
  | error fault s' => rfl
  | ok a? s' =>
      cases a? with
      | none => rfl
      | some a =>
          have hlt := hp c s a s' h
          have hsame : collect step s.rest.length c s' = many step c s' := by
            rw [run_many]
            exact collect_rounds hp hlt (Nat.lt_succ_self _)
          cases hmany : many step c s' <;> simp only [hsame, hmany]

/-- How repeating a step that takes a token succeeds. -/
theorem many_cases {α : Type} {step : Parse (Option α)} (hp : Productive step) {as : List α}
    (h : many step c s = .ok as s') :
    (as = [] ∧ step c s = .ok none s') ∨
      ∃ a as' s₁, as = a :: as' ∧ step c s = .ok (some a) s₁ ∧ many step c s₁ = .ok as' s' := by
  rw [run_many_step hp] at h
  cases hstep : step c s with
  | error fault s₁ => simp [hstep] at h
  | ok a? s₁ =>
      rw [hstep] at h
      cases a? with
      | none =>
          cases h
          exact .inl ⟨rfl, rfl⟩
      | some a =>
          simp only at h
          split at h <;> cases h
          exact .inr ⟨a, _, s₁, rfl, rfl, ‹_›⟩

/-- Parsers never give tokens back, and those that are `taking` take one. -/
theorem Composed.advances {p : Parse α} {Q : α → Prop} (h : Composed T S fl k p Q) :
    Advances k p := by
  induction h with
  | done => exact .pure _
  | bind _ _ ihp ihf => exact (ihp.bind ihf).weaken fun ht => by simp [ht]
  | andThen _ _ ihp ihf => exact (ihp.bind ihf).weaken fun _ => rfl
  | map _ _ ih => exact ih.map
  | within _ ih => exact ⟨fun h => (ih _).ok h, fun h => (ih _).shorter h, fun h => (ih _).error h⟩
  | look f => exact .look f
  | fork f _ _ _ _ _ _ ihp ihq =>
      exact ((Advances.look f).bind fun found => by cases found; exacts [ihq, ihp]).weaken
        fun ht => by simp [ht]
  | eat f => exact .eat f
  | take expected accept => exact (Advances.take expected accept).weaken fun _ => rfl
  | number => exact Advances.number.weaken fun _ => rfl
  | unexpected expected => exact .fails fun c s => run_unexpected expected
  | failHere cause => exact .fails fun c s => run_failHere cause
  | node _ _ ih => exact (ih .origin).node.weaken fun _ => rfl
  | many _ _ ih => exact (ih.weaken (by simp)).many
  | block starters _ ih => exact (ih.block starters).weaken fun _ => rfl
  | lines =>
      exact ((Advances.mark .openBrace).bind (k := false) fun _ =>
        Advances.dialogueLine.many).weaken fun _ => rfl

/-- A block that is not over where a round begins ends with the brace that closes it. -/
theorem ends_of_round {statement : Parse Node} {depth : Nat} {starters : List String}
    (hd : ¬s.depth < depth) (h : round depth starters statement c s = .ok none s') :
    ∃ t rest, s.rest = t :: rest ∧ t.isMark .closeBrace ∧ s' = s.advance := by
  cases roundDerivation_iff.mpr h with
  | outside hd' => exact absurd hd' hd
  | closes _ hr ht => exact ⟨_, _, hr, ht, rfl⟩

/-! ## How many tokens are taken -/

namespace Costs

variable {α β : Type} {n m : Nat}

theorem zero {p : Parse α} (hp : Advances false p) : Costs 0 p :=
  fun _ _ _ _ h => (hp.ok h).rest.length_le

theorem one {p : Parse α} (hp : Advances true p) : Costs 1 p :=
  fun _ _ _ _ h => hp.shorter h rfl

theorem mono {p : Parse α} (hp : Costs n p) (h : m ≤ n) : Costs m p := by
  intro c s a s' hok
  have hle := hp c s a s' hok
  omega

theorem bind {p : Parse α} {f : α → Parse β} (hp : Costs n p) (hf : ∀ a, Costs m (f a)) :
    Costs (n + m) (p >>= f) := by
  intro c s b s'' h
  rw [run_bind] at h
  cases hps : p c s with
  | error fault s' => simp [hps] at h
  | ok a s' =>
      rw [hps] at h
      have hle := hp c s a s' hps
      have hle' := hf a c s' b s'' h
      omega

theorem map {p : Parse α} {g : α → β} (hp : Costs n p) : Costs n (g <$> p) := by
  intro c s b s' h
  rw [run_map] at h
  split at h <;> cases h
  exact hp c s _ s' ‹_›

theorem mark {mk : Mark} : Costs 1 (Grammar.mark mk) :=
  one (.mark mk)

theorem keyword {w : String} : Costs 1 (Grammar.keyword w) :=
  map (one (.take _ _))

theorem word {what : String} : Costs 1 (Grammar.word what) :=
  one (.take _ _)

theorem eatMark {mk : Mark} : Costs 0 (Grammar.eatMark mk) :=
  zero (.eat fun r => r[0]?.any (Token.isMark mk))

theorem eatKeyword {w : String} : Costs 0 (Grammar.eatKeyword w) :=
  zero (.eat fun r => r[0]?.any (Token.isKeyword w))

/-- A test takes nothing. -/
theorem fork {f : List Token → Bool} {p q : Parse α} (hp : Costs n p) (hq : Costs n q) :
    Costs n (do if ← looking f then p else q) := by
  have h := (zero (.look f)).bind (f := fun found => if found then p else q) (m := n) fun found => by
    cases found
    exacts [hq, hp]
  rwa [Nat.zero_add] at h

/-- A block takes the braces around it. -/
theorem block {statement : Parse Node} (hp : Advances true statement) (starters : List String) :
    Costs 2 (Grammar.block starters statement) := by
  have hrounds : Costs 1 (do
      let depth ← braceDepth
      let rounds ← many (Grammar.round depth starters statement)
      return rounds.flatten) := by
    intro c s ns s' h
    change (List.flatten <$> many (Grammar.round s.depth starters statement)) c s = .ok ns s' at h
    rw [run_map] at h
    split at h <;> cases h
    rcases many_cases (hp.round_productive s.depth starters) ‹_› with
      ⟨-, hround⟩ | ⟨ns₁, nss, s₁, -, hround, hmany⟩
    · obtain ⟨t, rest, hr, -, rfl⟩ := ends_of_round (Nat.lt_irrefl s.depth) hround
      simp [advance_of_cons hr, hr]
    · have hlt := hp.round_productive s.depth starters c s ns₁ s₁ hround
      have hle := ((hp.round s.depth starters).many.ok hmany).rest.length_le
      omega
  rw [block_eq]
  exact (one (.mark .openBrace)).bind fun _ => hrounds

end Costs

end Storyworld.Grammar
