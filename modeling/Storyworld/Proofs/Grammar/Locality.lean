import Storyworld.Proofs.Grammar.Document

namespace Storyworld.Grammar

/-! A stretch of tokens whose braces balance and that ends where the last of them closes is read
the same way whatever follows it: a parser that begins inside the stretch never looks past it, and
a block ends at its own closing brace, also where reading went on behind faults in it. -/

/-! ## Segments -/

/-- Whether the braces of some tokens, read at a depth, never close more than is open and leave
nothing open. -/
def Balanced : (depth : Nat) → List Token → Prop
  | depth, [] => depth = 0
  | depth, t :: rest => (t.isMark .closeBrace → 0 < depth) ∧ Balanced (depthAfter depth t) rest

instance Balanced.decidable : ∀ depth tokens, Decidable (Balanced depth tokens)
  | depth, [] => inferInstanceAs (Decidable (depth = 0))
  | depth, t :: rest =>
    have := Balanced.decidable (depthAfter depth t) rest
    inferInstanceAs (Decidable ((t.isMark .closeBrace → 0 < depth) ∧ _))

/-- Tokens with balanced braces that end with a closing one. -/
structure Segment (depth : Nat) (tokens : List Token) : Prop where
  balanced : Balanced depth tokens
  last : tokens.getLast?.all (·.isMark .closeBrace)

instance {depth : Nat} {tokens : List Token} : Decidable (Segment depth tokens) :=
  decidable_of_iff (Balanced depth tokens ∧ tokens.getLast?.all (·.isMark .closeBrace))
    ⟨fun ⟨h₁, h₂⟩ => ⟨h₁, h₂⟩, fun ⟨h₁, h₂⟩ => ⟨h₁, h₂⟩⟩

variable {depth : Nat} {t : Token} {rest : List Token}

theorem depthAfter_of_not_brace (h : t.isBrace = false) : depthAfter depth t = depth := by
  unfold depthAfter
  split <;> simp_all [Token.isBrace, Token.isMark]

theorem depthAfter_open (h : t.isMark .openBrace) : depthAfter depth t = depth + 1 := by
  rw [Token.isMark_iff] at h
  simp [depthAfter, h]

theorem depthAfter_close (h : t.isMark .closeBrace) : depthAfter depth t = depth - 1 := by
  rw [Token.isMark_iff] at h
  simp [depthAfter, h]

theorem le_depthAfter (h : t.isMark .closeBrace = false) : depth ≤ depthAfter depth t := by
  unfold depthAfter
  split <;> simp_all [Token.isMark]

theorem foldl_depthAfter_flat {ts : List Token} (h : ∀ t ∈ ts, t.isBrace = false) :
    ts.foldl depthAfter depth = depth := by
  induction ts with
  | nil => rfl
  | cons t ts ih =>
      rw [List.foldl_cons, depthAfter_of_not_brace (h t (by simp))]
      exact ih fun u hu => h u (by simp [hu])

namespace Segment

theorem tail (h : Segment depth (t :: rest)) : Segment (depthAfter depth t) rest := by
  refine ⟨h.balanced.2, ?_⟩
  cases hr : rest with
  | nil => simp
  | cons u rest' =>
      have hlast := h.last
      rwa [hr, List.getLast?_cons_cons] at hlast

/-- Something follows every token but a closing brace. -/
theorem more (h : Segment depth (t :: rest)) (ht : t.isMark .closeBrace = false) : rest ≠ [] := by
  rintro rfl
  have hlast : t.isMark .closeBrace := by simpa using h.last
  simp [hlast] at ht

theorem ne_nil (h : Segment depth rest) (hd : 0 < depth) : rest ≠ [] := by
  rintro rfl
  have hzero : depth = 0 := h.balanced
  omega

theorem settled {f : List Token → Bool} {b : List Token} (h : Segment depth rest) (hne : rest ≠ [])
    (hf : Settled f) (hb : b.head?.all (·.isOneOf definitionStarters)) : f (rest ++ b) = f rest := by
  refine hf rest b ?_ hb
  have hlast := h.last
  rw [List.getLast?_eq_some_getLast hne] at hlast ⊢
  simpa using hlast

end Segment

/-! ## States inside a segment -/

variable {c c' : Context} {b : List Token} {s s' : State} {fl tk : Bool}

namespace State

/-- The tokens left form a segment that is not over. -/
structure Within (s : State) : Prop where
  segment : Segment s.depth s.rest
  ne_nil : s.rest ≠ []

/-- The same state with more tokens behind those that are left. -/
def before (b : List Token) (s : State) : State :=
  { s with rest := s.rest ++ b }

theorem Within.cons (h : s.Within) : ∃ t rest, s.rest = t :: rest ∧ Segment s.depth (t :: rest) := by
  cases hr : s.rest with
  | nil => exact absurd hr h.ne_nil
  | cons t rest => exact ⟨t, rest, rfl, hr ▸ h.segment⟩

theorem before_rest (hr : s.rest = t :: rest) : (s.before b).rest = t :: (rest ++ b) := by
  simp [before, hr]

theorem before_advance (h : s.rest ≠ []) : (s.before b).advance = s.advance.before b := by
  cases hr : s.rest with
  | nil => exact absurd hr h
  | cons t rest =>
      rw [advance_of_cons hr, advance_of_cons (before_rest hr)]
      rfl

theorem before_place (h : s.rest ≠ []) : (s.before b).place c' = s.place c := by
  cases hr : s.rest with
  | nil => exact absurd hr h
  | cons t rest => simp [place, hr, before]

theorem before_unexpected (h : s.rest ≠ []) (expected : List String) :
    (s.before b).unexpected c' expected = s.unexpected c expected := by
  cases hr : s.rest with
  | nil => exact absurd hr h
  | cons t rest => simp [unexpected, hr, before]

theorem Within.advance (h : s.Within) : Segment s.advance.depth s.advance.rest := by
  obtain ⟨t, rest, hr, hseg⟩ := h.cons
  rw [advance_of_cons hr]
  exact hseg.tail

/-- Behind a token that is no brace the segment goes on at the same depth. -/
theorem Within.advance_of_not_brace (h : s.Within) (hr : s.rest = t :: rest)
    (ht : t.isBrace = false) : s.advance.Within ∧ s.advance.depth = s.depth := by
  have hclose : t.isMark .closeBrace = false := by simp_all [Token.isBrace]
  have hseg : Segment s.depth (t :: rest) := hr ▸ h.segment
  have hsame : s.advance.depth = s.depth := by
    rw [advance_of_cons hr]
    exact depthAfter_of_not_brace ht
  refine ⟨⟨h.advance, ?_⟩, hsame⟩
  rw [advance_of_cons hr]
  exact hseg.more hclose

end State

/-! ## Skipping -/

/-- Skipping inside a block ends inside it, at its own depth, and does not see what follows the
segment. -/
theorem skip_before {starters : List String} (hs : Segment s.depth s.rest) (hd : depth < s.depth) :
    (s.before b).skip (endsSkip (depth + 1) starters) =
        (s.skip (endsSkip (depth + 1) starters)).before b ∧
      (s.skip (endsSkip (depth + 1) starters)).Within ∧
      (s.skip (endsSkip (depth + 1) starters)).depth = depth + 1 := by
  induction hr : s.rest generalizing s with
  | nil => exact absurd hr (hs.ne_nil (by omega))
  | cons t rest ih =>
      have hwithin : s.Within := ⟨hs, by simp [hr]⟩
      have hbefore := State.before_rest (b := b) hr
      cases hstop : endsSkip (depth + 1) starters s.depth t with
      | true =>
          rw [skip_of_stop hr hstop, skip_of_stop hbefore hstop]
          refine ⟨rfl, hwithin, ?_⟩
          simp only [endsSkip, Bool.or_eq_true, Bool.and_eq_true, decide_eq_true_eq] at hstop
          omega
      | false =>
          have hpass : (s.before b).pass t = (s.pass t).before b := by
            unfold State.pass
            rw [State.before_advance hwithin.ne_nil]
            rfl
          have hdepth : depth < (s.pass t).depth := by
            have hbrace : t.isMark .closeBrace → depth + 1 < s.depth := by
              intro ht
              have hne : s.depth ≠ depth + 1 := by
                rintro heq
                simp [endsSkip, heq, ht] at hstop
              omega
            have hpassed : (s.pass t).depth = depthAfter s.depth t := by
              simp [State.pass, advance_of_cons hr]
            rw [hpassed]
            cases ht : t.isMark .closeBrace with
            | true =>
                rw [depthAfter_close ht]
                have := hbrace ht
                omega
            | false => exact Nat.lt_of_lt_of_le hd (le_depthAfter ht)
          rw [skip_of_pass hr hstop, skip_of_pass hbefore hstop, hpass]
          refine ih ?_ hdepth (by simp [State.pass, advance_of_cons hr])
          exact hwithin.advance

/-- Reading on behind a fault inside a block, which took a token or stands at one that closes no
brace. -/
theorem resumed_before (starters : List String) {left : Nat} (hs : s.Within) (hd : depth < s.depth)
    (hclose : s.rest.length = left → ∀ t ∈ s.rest.head?, t.isMark .closeBrace = false) :
    (s.before b).resumed (endsSkip (depth + 1) starters) (left + b.length) =
        (s.resumed (endsSkip (depth + 1) starters) left).before b ∧
      (s.resumed (endsSkip (depth + 1) starters) left).Within ∧
      (s.resumed (endsSkip (depth + 1) starters) left).depth = depth + 1 := by
  have hlength : (s.before b).rest.length = left + b.length ↔ s.rest.length = left := by
    simp [State.before]
  unfold State.resumed
  by_cases hl : s.rest.length = left
  · obtain ⟨t, rest, hr, hseg⟩ := hs.cons
    have ht : t.isMark .closeBrace = false := hclose hl t (by simp [hr])
    have hdepth : s.advance.depth = depthAfter s.depth t := by rw [advance_of_cons hr]
    rw [if_pos hl, if_pos (hlength.mpr hl), State.before_advance hs.ne_nil]
    exact skip_before hs.advance (hdepth ▸ Nat.lt_of_lt_of_le hd (le_depthAfter ht))
  · rw [if_neg hl, if_neg (fun h => hl (hlength.mp h))]
    exact skip_before hs.segment hd

/-! ## Local parsers -/

/-- A parser that, begun inside a segment, gives the same whatever follows the segment. It leaves
the depth as it was, or a greater one behind a fault, and only a parser that is not `flat` can get
to the end of the segment. -/
structure Local (c c' : Context) (b : List Token) (flat : Bool) (p : Parse α) : Prop where
  ok : ∀ {s a s'}, s.Within → p c s = .ok a s' →
    p c' (s.before b) = .ok a (s'.before b) ∧ Segment s'.depth s'.rest ∧ s'.depth = s.depth ∧
      (flat → s'.rest ≠ [])
  error : ∀ {s fault s'}, s.Within → p c s = .error fault s' →
    p c' (s.before b) = .error fault (s'.before b) ∧ s'.Within ∧ s.depth ≤ s'.depth

namespace Local

theorem pure (a : α) : Local c c' b fl (Pure.pure a : Parse α) := by
  refine ⟨fun hs h => ?_, fun _ h => by cases h⟩
  cases h
  exact ⟨rfl, hs.segment, rfl, fun _ => hs.ne_nil⟩

theorem bind {p : Parse α} {f : α → Parse β} (hp : Local c c' b true p)
    (hf : ∀ a, Local c c' b fl (f a)) : Local c c' b fl (p >>= f) := by
  constructor
  · intro s a s'' hs h
    rw [run_bind] at h ⊢
    cases hps : p c s with
    | error fault s' => simp [hps] at h
    | ok a s' =>
        rw [hps] at h
        obtain ⟨hsame, hseg, hdepth, hne⟩ := hp.ok hs hps
        obtain ⟨hsame', hseg', hdepth', hne'⟩ := (hf a).ok ⟨hseg, hne rfl⟩ h
        rw [hsame]
        exact ⟨hsame', hseg', hdepth'.trans hdepth, hne'⟩
  · intro s fault s'' hs h
    rw [run_bind] at h ⊢
    cases hps : p c s with
    | error fault' s' =>
        rw [hps] at h
        cases h
        obtain ⟨hsame, hwithin, hle⟩ := hp.error hs hps
        rw [hsame]
        exact ⟨rfl, hwithin, hle⟩
    | ok a s' =>
        rw [hps] at h
        obtain ⟨hsame, hseg, hdepth, hne⟩ := hp.ok hs hps
        obtain ⟨hsame', hwithin, hle⟩ := (hf a).error ⟨hseg, hne rfl⟩ h
        rw [hsame]
        exact ⟨hsame', hwithin, hdepth ▸ hle⟩

theorem map {p : Parse α} {g : α → β} (hp : Local c c' b fl p) : Local c c' b fl (g <$> p) := by
  constructor
  · intro s a s' hs h
    rw [run_map] at h ⊢
    split at h <;> cases h
    obtain ⟨hsame, hrest⟩ := hp.ok hs ‹_›
    rw [hsame]
    exact ⟨rfl, hrest⟩
  · intro s fault s' hs h
    rw [run_map] at h ⊢
    split at h <;> cases h
    obtain ⟨hsame, hrest⟩ := hp.error hs ‹_›
    rw [hsame]
    exact ⟨rfl, hrest⟩

theorem look {f : List Token → Bool} (hf : Settled f)
    (hb : b.head?.all (·.isOneOf definitionStarters)) : Local c c' b fl (looking f) := by
  refine ⟨fun {s a s'} hs h => ?_, fun _ h => by cases h⟩
  cases h
  have hsame : f (s.before b).rest = f s.rest := hs.segment.settled hs.ne_nil hf hb
  rw [run_looking, hsame]
  exact ⟨rfl, hs.segment, rfl, fun _ => hs.ne_nil⟩

theorem eat {f : List Token → Bool} (hf : Settled f) (hf' : Foresees f)
    (hb : b.head?.all (·.isOneOf definitionStarters)) : Local c c' b fl (eatWhen f) := by
  constructor
  · intro s a s' hs h
    have hsame : f (s.before b).rest = f s.rest := hs.segment.settled hs.ne_nil hf hb
    rw [run_eatWhen] at h ⊢
    rw [hsame]
    cases hfs : f s.rest with
    | true =>
        obtain ⟨t, rest, hr, ht⟩ := hf' s.rest hfs
        obtain ⟨hwithin, hdepth⟩ := hs.advance_of_not_brace hr ht
        rw [hfs] at h
        cases h
        rw [if_pos rfl, State.before_advance hs.ne_nil]
        exact ⟨rfl, hwithin.segment, hdepth, fun _ => hwithin.ne_nil⟩
    | false =>
        rw [hfs] at h
        cases h
        exact ⟨rfl, hs.segment, rfl, fun _ => hs.ne_nil⟩
  · intro s fault s' hs h
    rw [run_eatWhen] at h
    split at h <;> cases h

theorem take {expected : List String} {accept : Token → Bool}
    (h : ∀ t, accept t → t.isBrace = false) : Local c c' b fl (expect expected accept) := by
  constructor
  · intro s a s' hs h'
    obtain ⟨rest, hr, ha, rfl⟩ := expect_ok h'
    obtain ⟨hwithin, hdepth⟩ := hs.advance_of_not_brace hr (h a ha)
    refine ⟨?_, hwithin.segment, hdepth, fun _ => hwithin.ne_nil⟩
    rw [expect_of_cons (State.before_rest hr) ha, State.before_advance hs.ne_nil]
  · intro s fault s' hs h'
    obtain ⟨t, rest, hr, hseg⟩ := hs.cons
    rw [run_expect] at h' ⊢
    rw [State.before_rest hr]
    simp only [hr] at h' ⊢
    cases ha : accept t with
    | true =>
        rw [ha] at h'
        cases h'
    | false =>
        rw [ha] at h'
        cases h'
        refine ⟨?_, hs, Nat.le_refl _⟩
        rw [if_neg (by simp), State.before_unexpected hs.ne_nil]

theorem fails {p : Parse α} {g : Context → State → SyntaxFault}
    (h : ∀ c s, p c s = .error (g c s) s)
    (hg : ∀ s, s.Within → g c' (s.before b) = g c s) : Local c c' b fl p := by
  constructor
  · intro s a s' hs h'
    rw [h] at h'
    cases h'
  · intro s fault s' hs h'
    rw [h] at h' ⊢
    cases h'
    rw [hg s hs]
    exact ⟨rfl, hs, Nat.le_refl _⟩

theorem number : Local c c' b fl Grammar.number := by
  have hbrace {t : Token} (ht : t.kind = .number) : t.isBrace = false := by
    simp [Token.isBrace, Token.isMark, ht]
  constructor
  · intro s a s' hs h
    obtain ⟨rest, hr, hk, hw, rfl⟩ := number_ok h
    obtain ⟨hwithin, hdepth⟩ := hs.advance_of_not_brace hr (hbrace hk)
    refine ⟨?_, hwithin.segment, hdepth, fun _ => hwithin.ne_nil⟩
    rw [number_of_cons (State.before_rest hr) hk hw, State.before_advance hs.ne_nil]
  · intro s fault s' hs h
    obtain ⟨t, rest, hr, hseg⟩ := hs.cons
    rw [run_number] at h ⊢
    rw [State.before_rest hr]
    simp only [hr] at h ⊢
    by_cases hk : t.kind = .number
    · obtain ⟨hwithin, hdepth⟩ := hs.advance_of_not_brace hr (hbrace hk)
      rw [if_pos hk] at h ⊢
      split at h <;> cases h
      rw [if_pos ‹_›, State.before_advance hs.ne_nil]
      exact ⟨rfl, hwithin, hdepth.ge⟩
    · rw [if_neg hk] at h ⊢
      cases h
      rw [State.before_unexpected hs.ne_nil]
      exact ⟨rfl, hs, Nat.le_refl _⟩

theorem node {parts : Parse (Rule × List Element)} (hp : Local c c' b fl parts) :
    Local c c' b fl (nodeBy parts) := by
  constructor
  · intro s a s' hs h
    rw [run_nodeBy] at h ⊢
    split at h <;> cases h
    obtain ⟨hsame, hrest⟩ := hp.ok hs ‹_›
    rw [hsame, State.before_place hs.ne_nil]
    exact ⟨rfl, hrest⟩
  · intro s fault s' hs h
    rw [run_nodeBy] at h ⊢
    split at h <;> cases h
    obtain ⟨hsame, hrest⟩ := hp.error hs ‹_›
    rw [hsame]
    exact ⟨rfl, hrest⟩

theorem collect {step : Parse (Option α)} (hp : Local c c' b true step) (n : Nat) :
    Local c c' b true (Grammar.collect step n) := by
  induction n with
  | zero => exact pure []
  | succ n ih =>
      refine hp.bind fun a? => ?_
      cases a? with
      | none => exact pure []
      | some a => exact ih.map

theorem many {step : Parse (Option α)} (hp : Local c c' b true step)
    (hprod : Productive step) : Local c c' b fl (Grammar.many step) := by
  have hrounds (s : State) : Grammar.many step c' (s.before b) =
      Grammar.collect step (s.rest.length + b.length + 1) c' (s.before b) := by
    rw [run_many]
    simp [State.before]
  have hcollect (s : State) : Grammar.many step c s =
      Grammar.collect step (s.rest.length + b.length + 1) c s := by
    rw [run_many]
    exact collect_rounds hprod (by omega) (by omega)
  constructor
  · intro s as s' hs h
    rw [hcollect] at h
    rw [hrounds]
    obtain ⟨hsame, hseg, hdepth, hne⟩ := (hp.collect _).ok hs h
    exact ⟨hsame, hseg, hdepth, fun _ => hne rfl⟩
  · intro s fault s' hs h
    rw [hcollect] at h
    rw [hrounds]
    exact (hp.collect _).error hs h

/-! ## Blocks -/

/-- What a round of a block gives, and that it gives the same whatever follows the segment. -/
def SameRound (c c' : Context) (b : List Token) (depth : Nat)
    (step : Parse (Option α)) (s : State) : Prop :=
  match step c s with
  | .ok (some a) s' =>
    step c' (s.before b) = .ok (some a) (s'.before b) ∧ s'.Within ∧ s'.depth = depth + 1
  | .ok none s' =>
    step c' (s.before b) = .ok none (s'.before b) ∧ Segment s'.depth s'.rest ∧ s'.depth = depth
  | .error fault s' =>
    step c' (s.before b) = .error fault (s'.before b) ∧ s'.Within ∧ depth + 1 ≤ s'.depth

theorem round {statement : Parse Node} (hp : Local c c' b false statement)
    (ha : Advances true statement) (hc : c'.settings = c.settings) (starters : List String)
    (hs : s.Within) (hd : s.depth = depth + 1) :
    SameRound c c' b depth (Grammar.round (depth + 1) starters statement) s := by
  have hpatience : c'.settings.patience = c.settings.patience := by rw [hc]
  have hd' : ¬(s.before b).depth < depth + 1 := Nat.not_lt.mpr hd.ge
  unfold SameRound
  generalize h : Grammar.round (depth + 1) starters statement c s = e
  cases roundDerivation_iff.mpr h with
  | outside hlt => omega
  | unclosed _ hr => exact absurd hr hs.ne_nil
  | closes _ hr hbrace =>
      have hdepth : s.advance.depth = depth := by
        rw [advance_of_cons hr]
        simp [depthAfter_close hbrace, hd]
      have hround : Grammar.round (depth + 1) starters statement c' (s.before b) = _ :=
        (RoundDerivation.closes hd' (State.before_rest hr) hbrace).execution
      rw [State.before_advance hs.ne_nil] at hround
      exact ⟨hround, hs.advance, hdepth⟩
  | reads _ hr hbrace hstat =>
      obtain ⟨hsame, hseg, hdepth, -⟩ := hp.ok hs hstat
      exact ⟨(RoundDerivation.reads hd' (State.before_rest hr) hbrace hsame).execution,
        ⟨hseg, hseg.ne_nil (by omega)⟩, hdepth.trans hd⟩
  | fails _ hr hbrace hstat hle =>
      obtain ⟨hsame, hwithin, hdepth⟩ := hp.error hs hstat
      exact ⟨(RoundDerivation.fails hd' (State.before_rest hr) hbrace hsame
        (hpatience ▸ hle)).execution, hwithin, by omega⟩
  | @resumes _ t rest hr hbrace fault s' hstat hlt =>
      obtain ⟨hsame, hwithin, hdepth⟩ := hp.error hs hstat
      have hround : Grammar.round (depth + 1) starters statement c' (s.before b) = _ :=
        (RoundDerivation.resumes hd' (State.before_rest hr) hbrace hsame (hpatience ▸ hlt)).execution
      have hfirst : (s'.faulted fault).rest.length = s.rest.length →
          ∀ u ∈ (s'.faulted fault).rest.head?, u.isMark .closeBrace = false := by
        intro hl u hu
        have hwhole : s'.rest = s.rest := (ha.error hstat).rest.eq_of_length hl
        rw [State.faulted, hwhole, hr] at hu
        simp_all
      obtain ⟨hresumed, hin, hend⟩ := resumed_before (b := b) starters
        (s := s'.faulted fault) ⟨hwithin.segment, hwithin.ne_nil⟩ (show depth < s'.depth by omega)
        hfirst
      rw [show (s.before b).rest.length = s.rest.length + b.length by simp [State.before]] at hround
      exact ⟨hround.trans (congrArg _ hresumed), hin, hend⟩

/-- What a parser begun inside a block gives that takes the closing brace of the block, and that it
gives the same whatever follows the segment. -/
def SameToClose (c c' : Context) (b : List Token) (depth : Nat) (p : Parse α) (s : State) : Prop :=
  match p c s with
  | .ok a s' =>
    p c' (s.before b) = .ok a (s'.before b) ∧ Segment s'.depth s'.rest ∧ s'.depth = depth
  | .error fault s' =>
    p c' (s.before b) = .error fault (s'.before b) ∧ s'.Within ∧ depth + 1 ≤ s'.depth

theorem rounds {step : Parse (Option α)} (hstep : ∀ s : State, s.Within → s.depth = depth + 1 →
      SameRound c c' b depth step s) (hprod : Productive step) {n : Nat} (hs : s.Within)
    (hd : s.depth = depth + 1) (hn : s.rest.length < n) :
    SameToClose c c' b depth (Grammar.collect step n) s := by
  induction n generalizing s with
  | zero => omega
  | succ n ih =>
      have hsame := hstep s hs hd
      unfold SameRound at hsame
      unfold SameToClose
      rw [run_collect_succ, run_collect_succ]
      cases h : step c s with
      | error fault s' =>
          simp only [h] at hsame
          simp only [hsame.1]
          exact ⟨trivial, hsame.2⟩
      | ok a? s' =>
          cases a? with
          | none =>
              simp only [h] at hsame
              simp only [hsame.1]
              exact ⟨trivial, hsame.2⟩
          | some a =>
              simp only [h] at hsame
              have hlt := hprod c s a s' h
              have hmore := ih hsame.2.1 hsame.2.2 (by omega)
              unfold SameToClose at hmore
              simp only [hsame.1]
              cases hrest : Grammar.collect step n c s' with
              | ok as s'' =>
                  simp only [hrest] at hmore
                  simp only [hmore.1]
                  exact ⟨trivial, hmore.2⟩
              | error fault s'' =>
                  simp only [hrest] at hmore
                  simp only [hmore.1]
                  exact ⟨trivial, hmore.2⟩

theorem many_rounds {step : Parse (Option α)} (hstep : ∀ s : State, s.Within →
      s.depth = depth + 1 → SameRound c c' b depth step s) (hprod : Productive step)
    (hs : s.Within) (hd : s.depth = depth + 1) :
    SameToClose c c' b depth (Grammar.many step) s := by
  have hrounds := rounds hstep hprod (n := s.rest.length + b.length + 1) hs hd (by omega)
  unfold SameToClose at hrounds ⊢
  rw [run_many, run_many, collect_rounds hprod (by omega)
    (Nat.lt_succ_of_le (Nat.le_add_right s.rest.length b.length))]
  simpa [State.before] using hrounds

/-- A brace that opens and what is read up to the one that closes it. -/
theorem opened {p : Parse α} (hp : ∀ {depth : Nat} {s : State}, s.Within → s.depth = depth + 1 →
    SameToClose c c' b depth p s) :
    Local c c' b false (do Grammar.mark .openBrace; p) := by
  have hmark {s : State} {t : Token} {rest : List Token} (hr : s.rest = t :: rest) (c : Context) :
      Grammar.mark .openBrace c s =
        if t.isMark .openBrace then .ok () s.advance
        else .error (s.unexpected c [Mark.openBrace.spelling]) s := by
    simp only [Grammar.mark, discard_eq_bind, run_bind, run_expect, hr]
    cases t.isMark .openBrace <;> rfl
  have hin {s : State} {t : Token} {rest : List Token} (hs : s.Within) (hr : s.rest = t :: rest)
      (ht : t.isMark .openBrace) : s.advance.Within ∧ s.advance.depth = s.depth + 1 := by
    have hdepth : s.advance.depth = s.depth + 1 := by
      rw [advance_of_cons hr]
      exact depthAfter_open ht
    exact ⟨⟨hs.advance, hs.advance.ne_nil (by omega)⟩, hdepth⟩
  constructor
  · intro s a s' hs h
    obtain ⟨t, rest, hr, -⟩ := hs.cons
    rw [run_bind, hmark hr] at h
    rw [run_bind, hmark (State.before_rest hr)]
    cases ht : t.isMark .openBrace with
    | false => simp [ht] at h
    | true =>
        obtain ⟨hwithin, hdepth⟩ := hin hs hr ht
        have hsame := hp hwithin hdepth
        unfold SameToClose at hsame
        simp only [ht, if_true] at h ⊢
        simp only [h] at hsame
        rw [State.before_advance hs.ne_nil]
        exact ⟨hsame.1, hsame.2.1, hsame.2.2, by simp⟩
  · intro s fault s' hs h
    obtain ⟨t, rest, hr, -⟩ := hs.cons
    rw [run_bind, hmark hr] at h
    rw [run_bind, hmark (State.before_rest hr)]
    cases ht : t.isMark .openBrace with
    | false =>
        simp only [ht, Bool.false_eq_true, if_false] at h ⊢
        cases h
        rw [State.before_unexpected hs.ne_nil]
        exact ⟨rfl, hs, Nat.le_refl _⟩
    | true =>
        obtain ⟨hwithin, hdepth⟩ := hin hs hr ht
        have hsame := hp hwithin hdepth
        unfold SameToClose at hsame
        simp only [ht, if_true] at h ⊢
        simp only [h] at hsame
        rw [State.before_advance hs.ne_nil]
        exact ⟨hsame.1, hsame.2.1, by omega⟩

theorem block {statement : Parse Node} (hp : Local c c' b false statement)
    (ha : Advances true statement) (hc : c'.settings = c.settings) (starters : List String) :
    Local c c' b false (Grammar.block starters statement) := by
  rw [block_eq]
  refine opened fun {depth s} hs hd => ?_
  have hmany : SameToClose c c' b depth
      (Grammar.many (Grammar.round (depth + 1) starters statement)) s :=
    many_rounds (fun _ => round hp ha hc starters) (ha.round_productive (depth + 1) starters) hs hd
  have hdepth (c : Context) (s : State) (f : Nat → Parse (List Node)) :
      (do f (← braceDepth)) c s = f s.depth c s := rfl
  have hd' : (s.before b).depth = depth + 1 := hd
  unfold SameToClose at hmany ⊢
  simp only [hdepth, hd, hd', run_bind]
  cases hrun : Grammar.many (Grammar.round (depth + 1) starters statement) c s with
  | ok rounds s' =>
      simp only [hrun] at hmany
      simp only [hmany.1]
      exact ⟨rfl, hmany.2⟩
  | error fault s' =>
      simp only [hrun] at hmany
      simp only [hmany.1]
      exact ⟨trivial, hmany.2⟩

theorem dialogueLine (hs : s.Within) (hd : s.depth = depth + 1) :
    SameRound c c' b depth Grammar.dialogueLine s := by
  obtain ⟨t, rest, hr, hseg⟩ := hs.cons
  unfold SameRound
  rw [run_dialogueLine, run_dialogueLine]
  simp only [hr, State.before_rest hr]
  cases hbrace : t.isMark .closeBrace with
  | true =>
      have hdepth : s.advance.depth = depth := by
        rw [advance_of_cons hr]
        simp [depthAfter_close hbrace, hd]
      simp only [if_true, State.before_advance hs.ne_nil]
      exact ⟨trivial, hs.advance, hdepth⟩
  | false =>
      cases hstring : t.isString with
      | true =>
          obtain ⟨hwithin, hdepth⟩ :=
            hs.advance_of_not_brace hr (Token.isBrace_of_isString hstring)
          simp only [if_true, Bool.false_eq_true, if_false, State.before_advance hs.ne_nil]
          exact ⟨trivial, hwithin, hdepth.trans hd⟩
      | false =>
          simp only [Bool.false_eq_true, if_false]
          exact ⟨by rw [State.before_unexpected hs.ne_nil], hs, hd.ge⟩

theorem lines : Local c c' b false (do Grammar.mark .openBrace; Grammar.many Grammar.dialogueLine) :=
  opened fun hs hd => many_rounds (fun _ hs hd => dialogueLine hs hd) dialogueLine_productive hs hd

end Local

/-- Every parser of the grammar is local. -/
theorem Composed.isLocal {T : Token → Prop} {S : Span → Prop} {p : Parse α} {Q : α → Prop}
    (h : Composed T S fl tk p Q) (hc : c'.settings = c.settings)
    (hb : b.head?.all (·.isOneOf definitionStarters)) : Local c c' b fl p := by
  induction h with
  | done => exact .pure _
  | bind _ _ ihp ihf => exact ihp.bind ihf
  | andThen _ _ ihp ihf => exact ihp.bind ihf
  | map _ _ ih => exact ih.map
  | within _ ih =>
      refine ⟨fun hs h => ?_, fun hs h => ?_⟩
      · rw [run_within, hc]
        exact (ih c.settings.maxNesting).ok hs h
      · rw [run_within, hc]
        exact (ih c.settings.maxNesting).error hs h
  | look f h => exact .look h.settled hb
  | fork f h _ _ _ _ _ ihp ihq =>
      refine (Local.look h hb).bind fun found => ?_
      cases found
      exacts [ihq, ihp]
  | eat f h hf => exact .eat h.settled hf hb
  | take expected accept h => exact .take h
  | number => exact .number
  | unexpected expected =>
      exact .fails (fun c s => run_unexpected expected) fun s hs =>
        State.before_unexpected hs.ne_nil expected
  | failHere cause =>
      refine .fails (fun c s => run_failHere cause) fun s hs => ?_
      rw [hc, State.before_place hs.ne_nil]
  | node _ _ ih => exact (ih .origin).node
  | many _ h ih => exact ih.many h
  | block starters hp ih => exact ih.block hp.advances hc starters
  | lines => exact .lines

end Storyworld.Grammar
