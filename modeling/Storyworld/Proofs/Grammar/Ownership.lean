import Mathlib.Data.List.Basic
import Storyworld.Proofs.Grammar.Clean

namespace Storyworld.Grammar

/-! What is read without a fault depends on nothing but the tokens it is made of: neither on the
tokens behind them nor on how faults are recovered from. -/

variable {c c' : Context} {b b' x r : List Token} {s s' t : State} {fl k : Bool} {α β : Type}

/-! ## Own tokens -/

/-- Of the tokens `x` that a parser may take, it leaves `r`, and a closer ends them: one that is
left, or for a parser that is not `flat` the brace that it took last. -/
def Enclosed (flat : Bool) (x r : List Token) : Prop :=
  r.getLast?.any (·.isCloser) ∨ flat = false ∧ r = [] ∧ x.getLast?.any (·.isMark .closeBrace)

/-- A parser that, where it records no fault, gives the same from its own tokens whatever lies
behind them. -/
structure Owned (c c' : Context) (b b' : List Token) (flat : Bool) (p : Parse α) : Prop where
  same : ∀ {s t a s' x r}, Clean p c s a s' → s.rest = x ++ b → s'.rest = r ++ b →
    Enclosed flat x r → t.rest = x ++ b' → ∃ t', Clean p c' t a t' ∧ t'.rest = r ++ b'

namespace Enclosed

theorem isCloser_last {taken : List Token} (h : Enclosed fl (taken ++ r) r) :
    (taken ++ r).getLast?.any (·.isCloser) := by
  rcases h with hr | ⟨-, rfl, hclose⟩
  · have hne : r ≠ [] := by
      rintro rfl
      simp at hr
    rwa [List.getLast?_append_of_ne_nil _ hne]
  · exact isCloser_of_closeBrace hclose

/-- What is left behind the first of two parsers ends with the same closer. -/
theorem split {taken y : List Token} (h : Enclosed fl (taken ++ y) r) (hsuffix : r <:+ y)
    (hflat : ∀ u ∈ taken, u.isBrace = false) : Enclosed true (taken ++ y) y ∧ Enclosed fl y r := by
  rcases h with hr | ⟨rfl, rfl, hclose⟩
  · obtain ⟨taken', rfl⟩ := hsuffix
    have hne : r ≠ [] := by
      rintro rfl
      simp at hr
    refine ⟨.inl ?_, .inl hr⟩
    rwa [List.getLast?_append_of_ne_nil _ hne]
  · -- The brace that ends the tokens is not among those the flat parser took.
    have hne : y ≠ [] := by
      rintro rfl
      rw [List.append_nil] at hclose
      cases hlast : taken.getLast? with
      | none => simp [hlast] at hclose
      | some u =>
          have hu := hflat u (List.mem_of_getLast? hlast)
          simp [hlast, Token.isBrace] at hclose hu
          simp [hclose] at hu
    rw [List.getLast?_append_of_ne_nil _ hne] at hclose
    exact ⟨.inl (isCloser_of_closeBrace hclose), .inr ⟨rfl, rfl, hclose⟩⟩

/-- A test of the tokens that are left does not see what lies behind one's own. -/
theorem same {f : List Token → Bool} {n : Nat} (hf : Definite n f) {taken : List Token}
    (h : Enclosed fl (taken ++ r) r) (hn : n < (taken ++ r).length) :
    f (taken ++ r ++ b') = f (taken ++ r ++ b) := by
  rw [hf _ b' hn h.isCloser_last, hf _ b hn h.isCloser_last]

theorem length_pos {taken : List Token} (h : Enclosed fl (taken ++ r) r) :
    0 < (taken ++ r).length := by
  have hlast := h.isCloser_last
  cases hxs : taken ++ r with
  | nil => simp [hxs] at hlast
  | cons u us => simp

end Enclosed

/-- The region a parser covers is told by the tokens it takes. -/
theorem Advances.upTo_eq {p : Parse α} {a a' : α} {t' : State} {taken : List Token}
    (ha : Advances true p) (h : p c s = .ok a s') (h' : p c' t = .ok a' t')
    (hs : s.rest = taken ++ s'.rest) (ht : t.rest = taken ++ t'.rest) :
    (s.place c).upTo s'.last = (t.place c').upTo t'.last := by
  have hlt := ha.shorter h rfl
  cases taken with
  | nil => simp [hs] at hlt
  | cons u us => rw [ha.upTo h hs, ha.upTo h' ht]

namespace Owned

theorem pure (a : α) : Owned c c' b b' fl (Pure.pure a : Parse α) := by
  refine ⟨fun {s t a' s' x r} h hs hs' _ ht => ?_⟩
  cases h.run
  obtain rfl : x = r := List.append_cancel_right (hs.symm.trans hs')
  exact ⟨t, ⟨rfl, rfl⟩, ht⟩

theorem bind {p : Parse α} {f : α → Parse β} {j : Bool} (hp : Owned c c' b b' true p)
    (hl : Level true p) (ha : Advances k p) (hf : ∀ a, Owned c c' b b' fl (f a))
    (hfa : ∀ a, Advances j (f a)) : Owned c c' b b' fl (p >>= f) := by
  refine ⟨fun {s t y s'' x r} h hs hs'' hclose ht => ?_⟩
  obtain ⟨a, s', hps, hfs⟩ := h.of_bind ha hfa
  obtain ⟨taken, hrest, hflat⟩ := hl.flat rfl hps
  obtain ⟨taken', hrest', -, -⟩ := ((hfa a).ok hfs.run).taken
  rw [hs'', ← List.append_assoc] at hrest'
  obtain rfl : x = taken ++ (taken' ++ r) := by
    refine (List.append_left_inj b).mp ?_
    rw [← hs, hrest, hrest', List.append_assoc taken]
  obtain ⟨hclose₁, hclose₂⟩ := hclose.split (List.suffix_append _ _) hflat
  obtain ⟨t', hpt, ht'⟩ := hp.same hps hs hrest' hclose₁ ht
  obtain ⟨t'', hft, ht''⟩ := (hf a).same hfs hrest' hs'' hclose₂ ht'
  exact ⟨t'', hpt.bind hft, ht''⟩

/-- The tokens a parser took are among its own. -/
theorem taken_of {p : Parse α} {a : α} (ha : Advances k p) (h : Clean p c s a s')
    (hs : s.rest = x ++ b) (hs' : s'.rest = r ++ b) : ∃ taken, x = taken ++ r := by
  obtain ⟨taken, hrest, -, -⟩ := (ha.ok h.run).taken
  refine ⟨taken, (List.append_left_inj b).mp ?_⟩
  rw [← hs, hrest, hs', List.append_assoc]

theorem map {p : Parse α} {g : α → β} (hp : Owned c c' b b' fl p) :
    Owned c c' b b' fl (g <$> p) := by
  refine ⟨fun {s t y s' x r} h hs hs' hclose ht => ?_⟩
  obtain ⟨a, rfl, hps⟩ := h.of_map
  obtain ⟨t', hpt, ht'⟩ := hp.same hps hs hs' hclose ht
  exact ⟨t', hpt.map, ht'⟩

theorem look {f : List Token → Bool} (hf : Definite 0 f) : Owned c c' b b' fl (looking f) := by
  refine ⟨fun {s t a s' x r} h hs hs' hclose ht => ?_⟩
  cases h.run
  obtain rfl : x = r := List.append_cancel_right (hs.symm.trans hs')
  have hclose : Enclosed fl ([] ++ x) x := hclose
  have hsame : f t.rest = f s.rest := by
    rw [hs, ht]
    exact hclose.same hf hclose.length_pos
  exact ⟨t, ⟨by rw [run_looking, hsame], rfl⟩, ht⟩

/-- A parser that takes one token and goes by it alone. -/
theorem one {p : Parse α} (h : ∀ {c s a s'}, Clean p c s a s' → ∃ u rest, s.rest = u :: rest ∧
    s' = s.advance ∧ ∀ c' t rest', t.rest = u :: rest' → Clean p c' t a t.advance) :
    Owned c c' b b' fl p := by
  refine ⟨fun {s t a s' x r} hclean hs hs' hclose ht => ?_⟩
  obtain ⟨u, rest, hr, rfl, hsame⟩ := h hclean
  have hrest : rest = r ++ b := by simpa [advance_of_cons hr] using hs'
  obtain rfl : x = u :: r := by
    refine (List.append_left_inj b).mp ?_
    rw [← hs, hr, hrest, List.cons_append]
  exact ⟨t.advance, hsame c' t (r ++ b') ht, by simp [advance_of_cons ht]⟩

theorem take (expected : List String) (accept : Token → Bool) :
    Owned c c' b b' fl (expect expected accept) := by
  refine one fun {c s a s'} h => ?_
  obtain ⟨rest, hr, ha, rfl⟩ := expect_ok h.run
  exact ⟨a, rest, hr, rfl, fun c' t rest' ht => ⟨expect_of_cons ht ha, advance_faults⟩⟩

theorem number : Owned c c' b b' fl Grammar.number := by
  refine one fun {c s a s'} h => ?_
  obtain ⟨rest, hr, hk, hw, rfl⟩ := number_ok h.run
  exact ⟨a, rest, hr, rfl, fun c' t rest' ht => ⟨number_of_cons ht hk hw, advance_faults⟩⟩

theorem eat {f : List Token → Bool} (hf : Definite 0 f) (hf' : Foresees f) :
    Owned c c' b b' fl (eatWhen f) := by
  refine ⟨fun {s t a s' x r} h hs hs' hclose ht => ?_⟩
  obtain ⟨taken, rfl⟩ := taken_of (.eat f) h hs hs'
  have hsame : f t.rest = f s.rest := by
    rw [hs, ht]
    exact hclose.same hf hclose.length_pos
  have hrun := h.run
  rw [run_eatWhen] at hrun
  cases hfs : f s.rest with
  | false =>
      rw [hfs] at hrun
      cases hrun
      refine ⟨t, ⟨by simp [run_eatWhen, hsame, hfs], rfl⟩, ?_⟩
      rw [ht, List.append_cancel_right (hs.symm.trans hs')]
  | true =>
      obtain ⟨u, rest, hr, -⟩ := hf' s.rest hfs
      rw [hfs] at hrun
      cases hrun
      have hrest' : rest = r ++ b := by simpa [advance_of_cons hr] using hs'
      have hx : taken ++ r = u :: r := by
        refine (List.append_left_inj b).mp ?_
        rw [← hs, hr, hrest', List.cons_append]
      have hu : t.rest = u :: (r ++ b') := by rw [ht, hx, List.cons_append]
      exact ⟨t.advance, ⟨by simp [run_eatWhen, hsame, hfs], advance_faults⟩,
        by simp [advance_of_cons hu]⟩

/-- A parser that always fails. -/
theorem fails {p : Parse α} {g : Context → State → SyntaxFault}
    (h : ∀ c s, p c s = .error (g c s) s) : Owned c c' b b' fl p :=
  ⟨fun hclean => (hclean.not_fails h).elim⟩

/-- What is told by a test that looks far ahead takes all the tokens that were looked at. -/
theorem fork {f : List Token → Bool} {p q : Parse α} {n : Nat} (hf : Definite n f)
    (hp : Owned c c' b b' fl p) (hq : Owned c c' b b' fl q) (ha : Advances k p)
    (ha' : Advances k q) (hp' : Costs (n + 1) p) (hq' : Costs (n + 1) q) :
    Owned c c' b b' fl (do if ← looking f then p else q) := by
  have hiff {c : Context} {s : State} {a : α} {s' : State} :
      Clean (do if ← looking f then p else q) c s a s' ↔
        Clean (if f s.rest then p else q) c s a s' :=
    ⟨fun h => ⟨h.run, h.faults⟩, fun h => ⟨h.run, h.faults⟩⟩
  refine ⟨fun {s t a s' x r} h hs hs' hclose ht => ?_⟩
  rw [hiff] at h
  obtain ⟨hown, hadv, hcosts⟩ : Owned c c' b b' fl (if f s.rest then p else q) ∧
      Advances k (if f s.rest then p else q) ∧ Costs (n + 1) (if f s.rest then p else q) := by
    split
    exacts [⟨hp, ha, hp'⟩, ⟨hq, ha', hq'⟩]
  obtain ⟨taken, rfl⟩ := taken_of hadv h hs hs'
  have hle := hcosts c s a s' h.run
  rw [hs, hs', List.length_append, List.length_append] at hle
  have hsame : f t.rest = f s.rest := by
    rw [hs, ht]
    exact hclose.same hf (by omega)
  simp only [hiff, hsame]
  exact hown.same h hs hs' hclose ht

theorem node {parts : Parse (Rule × List Element)} (hp : Owned c c' b b' fl parts)
    (ha : Advances true parts) : Owned c c' b b' fl (nodeBy parts) := by
  refine ⟨fun {s t n s' x r} h hs hs' hclose ht => ?_⟩
  obtain ⟨rule, cs, rfl, hparts⟩ := h.of_node
  obtain ⟨t', hpt, ht'⟩ := hp.same hparts hs hs' hclose ht
  obtain ⟨taken, rfl⟩ := taken_of ha hparts hs hs'
  have hrest : s.rest = taken ++ s'.rest := by rw [hs, hs', List.append_assoc]
  have hrest' : t.rest = taken ++ t'.rest := by rw [ht, ht', List.append_assoc]
  rw [ha.upTo_eq hparts.run hpt.run hrest hrest']
  exact ⟨t', hpt.node, ht'⟩

theorem collect {step : Parse (Option α)} (hp : Owned c c' b b' true step) (hl : Level true step)
    (ha : Advances false step) (n : Nat) : Owned c c' b b' true (Grammar.collect step n) := by
  induction n with
  | zero => exact pure []
  | succ n ih =>
      refine hp.bind (j := false) hl ha (fun a? => ?_) fun a? => ?_
      · cases a? with
        | none => exact pure []
        | some a => exact ih.map
      · cases a? with
        | none => exact .pure []
        | some a => exact (ha.collect n).map

theorem many {step : Parse (Option α)} (hp : Owned c c' b b' true step) (hl : Level true step)
    (ha : Advances false step) (hprod : Productive step) :
    Owned c c' b b' fl (Grammar.many step) := by
  have hrounds {c : Context} {s s' : State} {as : List α} {n : Nat} (hn : s.rest.length < n) :
      Clean (Grammar.many step) c s as s' ↔ Clean (Grammar.collect step n) c s as s' := by
    have hsame : Grammar.many step c s = Grammar.collect step n c s := by
      rw [run_many]
      exact collect_rounds hprod (Nat.lt_succ_self _) hn
    exact ⟨fun h => ⟨hsame ▸ h.run, h.faults⟩, fun h => ⟨hsame ▸ h.run, h.faults⟩⟩
  refine ⟨fun {s t as s' x r} h hs hs' hclose ht => ?_⟩
  have hmany : Level true (Grammar.many step) := hl.many ha hprod
  obtain ⟨taken, hrest, hflat⟩ := hmany.flat rfl h
  obtain rfl : x = taken ++ r := by
    refine (List.append_left_inj b).mp ?_
    rw [← hs, hrest, hs', List.append_assoc]
  obtain ⟨hclose, -⟩ := hclose.split List.suffix_rfl hflat
  rw [hrounds (n := s.rest.length + t.rest.length + 1) (by omega)] at h
  simp only [hrounds (s := t) (n := s.rest.length + t.rest.length + 1) (by omega)]
  exact (hp.collect hl ha _).same h hs hs' hclose ht

/-- A repetition that ends with a closing brace is read from its own tokens where every step before
the brace is. -/
theorem closing {step step' : Parse (Option α)} {depth depth' : Nat} {as : List α}
    (hstep : Closing step c depth) (hstep' : Closing step' c' depth')
    (hsome : ∀ {s t a s' x r}, s.depth = depth → t.depth = depth' → Clean step c s (some a) s' →
      s.rest = x ++ b → s'.rest = r ++ b → Enclosed true x r → t.rest = x ++ b' →
      ∃ t', Clean step' c' t (some a) t' ∧ t'.rest = r ++ b')
    (hd : s.depth = depth) (hd' : t.depth = depth') (h : Clean (Grammar.many step) c s as s')
    (hs : s.rest = x ++ b) (hs' : s'.rest = r ++ b) (hclose : Enclosed false x r)
    (ht : t.rest = x ++ b') :
    ∃ t', Clean (Grammar.many step') c' t as t' ∧ t'.rest = r ++ b' := by
  have hprod := hstep.productive
  have ha := hstep.advances
  induction as generalizing s t x with
  | nil =>
      rcases h.of_many hprod ha with ⟨-, hnone⟩ | ⟨a, as', s₁, heq, -, -⟩
      · obtain ⟨u, rest, hr, hu, rfl⟩ := hstep.none hd hnone
        have hrest : rest = r ++ b := by simpa [advance_of_cons hr] using hs'
        obtain rfl : x = u :: r := by
          refine (List.append_left_inj b).mp ?_
          rw [← hs, hr, hrest, List.cons_append]
        exact ⟨t.advance, (hstep'.close hd' ht hu).many_nil hstep'.productive,
          by simp [advance_of_cons ht]⟩
      · cases heq
  | cons a as ih =>
      rcases h.of_many hprod ha with ⟨heq, -⟩ | ⟨a', as', s₁, heq, hfirst, hmany⟩
      · cases heq
      cases heq
      -- The closing brace is still to come behind the step.
      have hd₁ := hstep.some hd hfirst
      obtain ⟨-, taken', u, hrest', hu⟩ := hmany.closes hstep hd₁
      have hs₁ : s₁.rest = (taken' ++ u :: r) ++ b := by rw [hrest', hs', List.append_assoc]; rfl
      obtain ⟨taken, rfl⟩ := taken_of ha hfirst hs hs₁
      have hclose₁ : Enclosed false (taken' ++ u :: r) r := by
        rcases hclose with hlast | ⟨-, rfl, -⟩
        · exact .inl hlast
        · exact .inr ⟨rfl, rfl, by simpa using hu⟩
      have hclose₂ : Enclosed true (taken ++ (taken' ++ u :: r)) (taken' ++ u :: r) := by
        rw [List.append_cons] at hclose₁ ⊢
        exact .inl hclose₁.isCloser_last
      obtain ⟨t₁, hfirst', ht₁⟩ := hsome hd hd' hfirst hs hs₁ hclose₂ ht
      obtain ⟨t', hmany', ht'⟩ := ih hd₁ (hstep'.some hd' hfirst') hmany hs₁ hclose₁ ht₁
      exact ⟨t', hfirst'.many_cons hstep'.productive hmany', ht'⟩

/-- What is opened is read from its own tokens where what follows is. -/
theorem opened {p : Parse α} (ha : Advances k p) (hp : Owned c c' b b' false p) :
    Owned c c' b b' false (do Grammar.mark .openBrace; p) := by
  refine ⟨fun {s t a s' x r} h hs hs' hclose ht => ?_⟩
  obtain ⟨_, s₁, hopen, hps⟩ := h.of_bind (.mark _) fun _ => ha
  obtain ⟨u, rest, hr, hu, rfl⟩ := hopen.of_mark
  have hs₁ : s.advance.rest = rest := by rw [advance_rest, hr, List.tail_cons]
  obtain ⟨taken, hrest, -, -⟩ := (ha.ok hps.run).taken
  rw [hs₁, hs', ← List.append_assoc] at hrest
  obtain rfl : x = u :: (taken ++ r) := by
    refine (List.append_left_inj b).mp ?_
    rw [← hs, hr, hrest, List.cons_append]
  have hclose₁ : Enclosed false (taken ++ r) r := by
    rcases hclose with hlast | ⟨-, rfl, hlast⟩
    · exact .inl hlast
    · refine .inr ⟨rfl, rfl, ?_⟩
      cases htaken : taken ++ [] with
      | nil =>
          rw [htaken, List.getLast?_singleton, Option.any_some, Token.isMark_iff] at hlast
          rw [Token.isMark_iff, hlast] at hu
          cases hu
      | cons v vs => rwa [htaken, List.getLast?_cons_cons] at hlast
  have ht₁ : t.advance.rest = taken ++ r ++ b' := by rw [advance_rest, ht]; rfl
  obtain ⟨t', hpt, ht'⟩ := hp.same hps (hs₁.trans hrest) hs' hclose₁ ht₁
  exact ⟨t', (Clean.mark ht hu).bind hpt, ht'⟩

theorem block {statement : Parse Node} (hp : Owned c c' b b' false statement)
    (ha : Advances true statement) (hl : Level false statement) (starters : List String) :
    Owned c c' b b' false (Grammar.block starters statement) := by
  rw [block_eq_rounds]
  refine opened (ha.rounds starters) ⟨fun {s t ns s' x r} h hs hs' hclose ht => ?_⟩
  have hround {s₁ t₁ s₂ : State} {ns : List Node} {x r : List Token} (hd : t₁.depth = t.depth)
      (h : Clean (Grammar.round s.depth starters statement) c s₁ (some ns) s₂)
      (hs : s₁.rest = x ++ b) (hs' : s₂.rest = r ++ b) (hclose : Enclosed true x r)
      (ht : t₁.rest = x ++ b') : ∃ t₂,
        Clean (Grammar.round t.depth starters statement) c' t₁ (some ns) t₂ ∧
          t₂.rest = r ++ b' := by
    obtain ⟨u, rest, n, hr, hu, -, rfl, hstat⟩ := h.of_round ha
    obtain ⟨t₂, hstat', ht₂⟩ := hp.same hstat hs hs' (hclose.imp_right (by simp)) ht
    obtain ⟨taken, rfl⟩ := taken_of ha hstat hs hs'
    cases htaken : taken ++ r with
    | nil =>
        have hpos := hclose.length_pos
        simp [htaken] at hpos
    | cons v vs =>
        rw [htaken, List.cons_append] at hs ht
        obtain rfl : v = u := by
          rw [hr] at hs
          exact (List.cons.inj hs).1.symm
        exact ⟨t₂, Clean.round (Nat.not_lt.mpr hd.ge) ht hu hstat', ht₂⟩
  obtain ⟨nss, rfl, hmany⟩ := (Clean.rounds_iff.mp h).of_map
  obtain ⟨t', hmany', ht'⟩ := closing (.round ha hl s.depth starters)
    (.round ha hl t.depth starters) (fun _ => hround) rfl rfl hmany hs hs' hclose ht
  exact ⟨t', Clean.rounds_iff.mpr hmany'.map, ht'⟩

theorem dialogueLine : Owned c c' b b' fl Grammar.dialogueLine := by
  refine one fun {c s t? s'} h => ?_
  obtain ⟨u, rest, hr, rfl, ⟨hu, rfl⟩ | ⟨hbrace, hu, rfl⟩⟩ := h.of_dialogueLine
  · refine ⟨u, rest, hr, rfl, fun c' t rest' ht => ⟨?_, advance_faults⟩⟩
    simp [run_dialogueLine, ht, hu]
  · refine ⟨u, rest, hr, rfl, fun c' t rest' ht => ⟨?_, advance_faults⟩⟩
    simp [run_dialogueLine, ht, hbrace, hu]

theorem lines :
    Owned c c' b b' false (do Grammar.mark .openBrace; Grammar.many Grammar.dialogueLine) :=
  opened Advances.dialogueLine.many ⟨fun h hs hs' hclose ht =>
    closing .dialogueLine .dialogueLine (fun _ _ hline => dialogueLine.same hline) rfl rfl h hs hs'
      hclose ht⟩

end Owned

/-- Every parser that records no fault gives the same from its own tokens whatever lies behind
them. -/
theorem Composed.owned {T : Token → Prop} {S : Span → Prop} {p : Parse α} {Q : α → Prop}
    (h : Composed T S fl k p Q) (hc : c'.settings.maxNesting = c.settings.maxNesting) :
    Owned c c' b b' fl p := by
  induction h with
  | done => exact .pure _
  | bind hp hf ihp ihf => exact ihp.bind hp.level hp.advances ihf fun a => (hf a).advances
  | andThen hp hf ihp ihf => exact ihp.bind hp.level hp.advances ihf fun a => (hf a).advances
  | map _ _ ih => exact ih.map
  | within _ ih =>
      refine ⟨fun {s t a s' x r} h hs hs' hclose ht => ?_⟩
      have hrun := h.run
      rw [run_within] at hrun
      obtain ⟨t', hin, ht'⟩ := (ih _).same ⟨hrun, h.faults⟩ hs hs' hclose ht
      refine ⟨t', ⟨?_, hin.faults⟩, ht'⟩
      rw [run_within, hc]
      exact hin.run
  | look f h => exact .look h
  | eat f h hf => exact .eat h hf
  | fork f _ hf hp hq hp' hq' ihp ihq => exact .fork hf ihp ihq hp.advances hq.advances hp' hq'
  | take expected accept => exact .take expected accept
  | number => exact .number
  | unexpected expected => exact .fails fun c s => run_unexpected expected
  | failHere cause => exact .fails fun c s => run_failHere cause
  | node hp _ ih => exact (ih .origin).node (hp .origin).advances
  | many hp hprod ih => exact ih.many hp.level hp.advances hprod
  | block starters hp ih => exact ih.block hp.advances hp.level starters
  | lines => exact .lines

end Storyworld.Grammar
