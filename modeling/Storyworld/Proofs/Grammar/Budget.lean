import Storyworld.Proofs.Grammar.Document

namespace Storyworld.Grammar

/-! Faults found earlier change nothing about what is read later, as long as the budget for faults
lasts: with them the same tokens give the same results, and the new faults come behind the old. -/

variable {c : Context} {F : List SyntaxFault} {s s' t t' : State} {k : Bool}

/-- The same tokens are left in two states at the same depth, and the faults `F` were found before
those of the first. -/
structure State.Follows (F : List SyntaxFault) (s t : State) : Prop where
  rest : t.rest = s.rest
  depth : t.depth = s.depth
  faults : t.faults = F ++ s.faults

namespace State.Follows

theorem advance (h : s.Follows F t) : s.advance.Follows F t.advance := by
  cases hr : s.rest with
  | nil => rwa [advance_of_nil hr, advance_of_nil (h.rest.trans hr)]
  | cons u rest =>
      rw [advance_of_cons hr, advance_of_cons (h.rest.trans hr)]
      exact ⟨rfl, by rw [h.depth], h.faults⟩

/-- The token read last is the same behind a token that both states take. -/
theorem last_advance (h : s.Follows F t) (hne : s.rest ≠ []) : s.advance.last = t.advance.last := by
  cases hr : s.rest with
  | nil => exact absurd hr hne
  | cons u rest => rw [advance_of_cons hr, advance_of_cons (h.rest.trans hr)]

theorem last_advance_of_eq (h : s.Follows F t) (hl : s.last = t.last) :
    s.advance.last = t.advance.last := by
  cases hr : s.rest with
  | nil => rwa [advance_of_nil hr, advance_of_nil (h.rest.trans hr)]
  | cons u rest => exact h.last_advance (by simp [hr])

theorem place (h : s.Follows F t) : t.place c = s.place c := by
  simp only [State.place, h.rest]

theorem unexpected (h : s.Follows F t) (expected : List String) :
    t.unexpected c expected = s.unexpected c expected := by
  simp only [State.unexpected, h.rest]

theorem faulted (h : s.Follows F t) (f : SyntaxFault) : (s.faulted f).Follows F (t.faulted f) :=
  ⟨h.rest, h.depth, by simp [State.faulted, h.faults]⟩

theorem skip (h : s.Follows F t) (stops : Nat → Token → Bool) :
    (s.skip stops).Follows F (t.skip stops) ∧
      (s.last = t.last → (s.skip stops).last = (t.skip stops).last) := by
  induction hr : s.rest generalizing s t with
  | nil =>
      rw [skip_of_nil hr, skip_of_nil (h.rest.trans hr)]
      exact ⟨h, id⟩
  | cons u rest ih =>
      have hr' : t.rest = u :: rest := h.rest.trans hr
      cases hstop : stops s.depth u with
      | true =>
          rw [skip_of_stop hr hstop, skip_of_stop hr' (h.depth ▸ hstop)]
          exact ⟨h, id⟩
      | false =>
          rw [skip_of_pass hr hstop, skip_of_pass hr' (h.depth ▸ hstop)]
          have hpass : (s.pass u).Follows F (t.pass u) :=
            ⟨h.advance.rest, h.advance.depth, h.advance.faults⟩
          obtain ⟨hskip, hl⟩ := ih hpass (by simp [State.pass, advance_of_cons hr])
          exact ⟨hskip, fun hlast => hl (h.last_advance_of_eq hlast)⟩

theorem resumed (h : s.Follows F t) (stops : Nat → Token → Bool) (left : Nat) :
    (s.resumed stops left).Follows F (t.resumed stops left) ∧
      (s.last = t.last → (s.resumed stops left).last = (t.resumed stops left).last) := by
  unfold State.resumed
  rw [h.rest]
  split
  · obtain ⟨hskip, hl⟩ := h.advance.skip stops
    exact ⟨hskip, fun hlast => hl (h.last_advance_of_eq hlast)⟩
  · exact h.skip stops

end State.Follows

/-! ## Parsers -/

/-- A parser that gives the same behind earlier faults while the budget lasts. The token read last
counts only where none is taken. -/
structure Shifts (c : Context) (F : List SyntaxFault) (taking : Bool) (p : Parse α) : Prop where
  ok : ∀ {s t a s'}, s.Follows F t → p c s = .ok a s' →
    F.length + s'.faults.length < c.settings.faultBudget →
    ∃ t', p c t = .ok a t' ∧ s'.Follows F t' ∧ (s.last = t.last ∨ taking → s'.last = t'.last)
  error : ∀ {s t fault s'}, s.Follows F t → p c s = .error fault s' →
    F.length + s'.faults.length + 1 < c.settings.faultBudget →
    ∃ t', p c t = .error fault t' ∧ s'.Follows F t' ∧ (s.last = t.last → s'.last = t'.last)

namespace Shifts

theorem weaken {p : Parse α} {tp : Bool} (hp : Shifts c F tp p) (h : k → tp) :
    Shifts c F k p := by
  refine ⟨fun hst hok hn => ?_, hp.error⟩
  obtain ⟨t', hok', hf, hl⟩ := hp.ok hst hok hn
  exact ⟨t', hok', hf, fun hlast => hl (hlast.imp_right h)⟩

theorem pure (a : α) : Shifts c F false (Pure.pure a : Parse α) := by
  refine ⟨fun hst hok _ => ?_, fun _ herr => by cases herr⟩
  cases hok
  exact ⟨_, rfl, hst, fun h => by simpa using h⟩

theorem bind {p : Parse α} {f : α → Parse β} {tp : Bool} (hp : Shifts c F tp p)
    (hf : ∀ a, Shifts c F k (f a)) (ha : ∀ a, Advances k (f a)) :
    Shifts c F (tp || k) (p >>= f) := by
  constructor
  · intro s t b s'' hst h hn
    rw [run_bind] at h
    cases hps : p c s with
    | error fault s' => simp [hps] at h
    | ok a s' =>
        rw [hps] at h
        have hle := ((ha a).ok h).faults.length_le
        obtain ⟨t', hpt, hst', hl⟩ := hp.ok hst hps (by omega)
        obtain ⟨t'', hft, hst'', hl'⟩ := (hf a).ok hst' h hn
        rw [run_bind, hpt]
        refine ⟨t'', hft, hst'', fun hlast => hl' ?_⟩
        rcases hlast with hlast | hlast
        · exact .inl (hl (.inl hlast))
        · exact (Bool.or_eq_true_iff.mp hlast).imp (fun h => hl (.inr h)) id
  · intro s t fault s'' hst h hn
    rw [run_bind] at h
    cases hps : p c s with
    | error fault' s' =>
        rw [hps] at h
        cases h
        obtain ⟨t', hpt, hrest⟩ := hp.error hst hps hn
        rw [run_bind, hpt]
        exact ⟨t', rfl, hrest⟩
    | ok a s' =>
        rw [hps] at h
        have hle := ((ha a).error h).faults.length_le
        obtain ⟨t', hpt, hst', hl⟩ := hp.ok hst hps (by omega)
        obtain ⟨t'', hft, hst'', hl'⟩ := (hf a).error hst' h hn
        rw [run_bind, hpt]
        exact ⟨t'', hft, hst'', fun hlast => hl' (hl (.inl hlast))⟩

theorem map {p : Parse α} {g : α → β} (hp : Shifts c F k p) : Shifts c F k (g <$> p) := by
  have h := hp.bind (f := fun a => Pure.pure (g a)) (fun a => pure (g a)) fun a => .pure (g a)
  rwa [Bool.or_false] at h

theorem look (f : List Token → Bool) : Shifts c F false (looking f) := by
  refine ⟨fun {s t a s'} hst h _ => ?_, fun _ h => by cases h⟩
  cases h
  exact ⟨t, by rw [run_looking, hst.rest], hst, fun hl => by simpa using hl⟩

theorem eat (f : List Token → Bool) : Shifts c F false (eatWhen f) := by
  constructor
  · intro s t a s' hst h _
    rw [run_eatWhen] at h ⊢
    rw [hst.rest]
    cases hfs : f s.rest with
    | true =>
        rw [hfs] at h
        cases h
        exact ⟨_, rfl, hst.advance, fun hl => hst.last_advance_of_eq (by simpa using hl)⟩
    | false =>
        rw [hfs] at h
        cases h
        exact ⟨_, rfl, hst, fun hl => by simpa using hl⟩
  · intro s t fault s' _ h
    rw [run_eatWhen] at h
    split at h <;> cases h

theorem take (expected : List String) (accept : Token → Bool) :
    Shifts c F true (expect expected accept) := by
  constructor
  · intro s t a s' hst h _
    obtain ⟨rest, hr, ha, rfl⟩ := expect_ok h
    exact ⟨_, expect_of_cons (hst.rest.trans hr) ha, hst.advance,
      fun _ => hst.last_advance (by simp [hr])⟩
  · intro s t fault s' hst h _
    rw [run_expect] at h ⊢
    rw [hst.rest, hst.unexpected]
    split at h
    · cases h
      exact ⟨_, rfl, hst, id⟩
    · split at h <;> cases h
      rw [if_neg ‹_›]
      exact ⟨_, rfl, hst, id⟩

theorem number : Shifts c F true Grammar.number := by
  constructor
  · intro s t a s' hst h _
    obtain ⟨rest, hr, hk, hw, rfl⟩ := number_ok h
    exact ⟨_, number_of_cons (hst.rest.trans hr) hk hw, hst.advance,
      fun _ => hst.last_advance (by simp [hr])⟩
  · intro s t fault s' hst h _
    rw [run_number] at h ⊢
    rw [hst.rest, hst.unexpected]
    split at h
    · cases h
      exact ⟨_, rfl, hst, id⟩
    · split at h
      · rw [if_pos ‹_›]
        split at h <;> cases h
        rw [if_pos ‹_›]
        exact ⟨_, rfl, hst.advance, hst.last_advance_of_eq⟩
      · cases h
        rw [if_neg ‹_›]
        exact ⟨_, rfl, hst, id⟩

theorem fails {p : Parse α} {g : State → SyntaxFault} (h : ∀ s, p c s = .error (g s) s)
    (hg : ∀ {s t}, s.Follows F t → g t = g s) : Shifts c F k p := by
  constructor
  · intro s t a s' _ h'
    rw [h] at h'
    cases h'
  · intro s t fault s' hst h' _
    rw [h] at h' ⊢
    cases h'
    exact ⟨t, by rw [hg hst], hst, id⟩

theorem node {parts : Parse (Rule × List Element)} (hp : Shifts c F true parts) :
    Shifts c F true (nodeBy parts) := by
  constructor
  · intro s t n s' hst h hn
    rw [run_nodeBy] at h ⊢
    split at h <;> cases h
    obtain ⟨t', hpt, hst', hl⟩ := hp.ok hst ‹_› hn
    have hlast := hl (.inr rfl)
    rw [hpt, hst.place]
    exact ⟨t', by rw [hlast], hst', fun _ => hlast⟩
  · intro s t fault s' hst h hn
    rw [run_nodeBy] at h ⊢
    split at h <;> cases h
    obtain ⟨t', hpt, hrest⟩ := hp.error hst ‹_› hn
    rw [hpt]
    exact ⟨t', rfl, hrest⟩

theorem collect {step : Parse (Option α)} (hp : Shifts c F false step) (ha : Advances false step)
    (n : Nat) : Shifts c F false (Grammar.collect step n) := by
  induction n with
  | zero => exact pure []
  | succ n ih =>
      refine hp.bind (k := false) (fun a? => ?_) fun a? => ?_
      · cases a? with
        | none => exact pure []
        | some a => exact ih.map
      · cases a? with
        | none => exact .pure []
        | some a => exact (ha.collect n).map

theorem many {step : Parse (Option α)} (hp : Shifts c F false step) (ha : Advances false step) :
    Shifts c F false (Grammar.many step) := by
  constructor
  · intro s t as s' hst h hn
    rw [run_many] at h ⊢
    rw [hst.rest]
    exact (hp.collect ha _).ok hst h hn
  · intro s t fault s' hst h hn
    rw [run_many] at h ⊢
    rw [hst.rest]
    exact (hp.collect ha _).error hst h hn

theorem round {statement : Parse Node} (hp : Shifts c F true statement) (depth : Nat)
    (starters : List String) : Shifts c F false (Grammar.round depth starters statement) := by
  constructor
  · intro s t ns? s' hst h hn
    cases roundDerivation_iff.mpr h with
    | outside hd =>
        exact ⟨t, (RoundDerivation.outside (hst.depth ▸ hd)).execution, hst,
          fun hl => by simpa using hl⟩
    | closes hd hr hbrace =>
        have hround : Grammar.round depth starters statement c t = _ :=
          (RoundDerivation.closes (hst.depth ▸ hd) (hst.rest.trans hr) hbrace).execution
        exact ⟨_, hround, hst.advance, fun hl => hst.last_advance_of_eq (by simpa using hl)⟩
    | reads hd hr hbrace hstat =>
        obtain ⟨t', hok, hst', hl⟩ := hp.ok hst hstat hn
        exact ⟨t', (RoundDerivation.reads (hst.depth ▸ hd) (hst.rest.trans hr) hbrace hok).execution,
          hst', fun _ => hl (.inr rfl)⟩
    | @resumes hd _ _ hr hbrace fault s₁ hstat hlt =>
        simp only [resumed_faults, length_faulted] at hn
        obtain ⟨t', herr, hst', hl⟩ := hp.error hst hstat hn
        obtain ⟨hresumed, hlast⟩ :=
          (hst'.faulted fault).resumed (endsSkip depth starters) s.rest.length
        have hlt' : t'.faults.length + 1 < c.settings.patience := by
          rw [Settings.patience_of_lt (by omega), hst'.faults, List.length_append]
          omega
        have hround : Grammar.round depth starters statement c t = _ :=
          (RoundDerivation.resumes (hst.depth ▸ hd) (hst.rest.trans hr) hbrace herr hlt').execution
        rw [hst.rest] at hround
        exact ⟨_, hround, hresumed, fun h => hlast (hl (by simpa using h))⟩
  · intro s t fault s' hst h hn
    cases roundDerivation_iff.mpr h with
    | unclosed hd hr =>
        have hround : Grammar.round depth starters statement c t = _ :=
          (RoundDerivation.unclosed (hst.depth ▸ hd) (hst.rest.trans hr)).execution
        exact ⟨t, hst.unexpected (c := c) ["\x7d"] ▸ hround, hst, id⟩
    | fails hd hr hbrace hstat hle =>
        obtain ⟨t', herr, hst', hl⟩ := hp.error hst hstat hn
        have hle' : c.settings.patience ≤ t'.faults.length + 1 := by
          simp only [hst'.faults, List.length_append]
          omega
        exact ⟨t', (RoundDerivation.fails (hst.depth ▸ hd) (hst.rest.trans hr) hbrace herr
          hle').execution, hst', hl⟩

theorem mark (m : Mark) : Shifts c F true (Grammar.mark m) :=
  (take _ _).map

theorem block {statement : Parse Node} (hp : Shifts c F true statement)
    (ha : Advances true statement) (starters : List String) :
    Shifts c F true (Grammar.block starters statement) := by
  have hdepth : Shifts c F false braceDepth := by
    refine ⟨fun {s t a s'} hst h _ => ?_, fun _ h => by cases h⟩
    cases h
    exact ⟨t, congrArg (EStateM.Result.ok · t) hst.depth, hst, fun hl => by simpa using hl⟩
  have hround (d : Nat) := (ha.round d starters)
  rw [block_eq]
  refine (mark .openBrace).bind (k := false) (fun _ => ?_) fun _ => ?_
  · exact hdepth.bind (k := false) (fun d => ((round hp d starters).many (hround d)).map)
      fun d => (hround d).many.map
  · exact Advances.depth.bind (k := false) fun d => (hround d).many.map

theorem lines : Shifts c F true (do Grammar.mark .openBrace; Grammar.many dialogueLine) := by
  have heat : Shifts c F false (eatMark .closeBrace) :=
    eat fun r => r[0]?.any (Token.isMark .closeBrace)
  have hline : Shifts c F false dialogueLine := by
    refine heat.bind (k := false) (fun closed => ?_) fun closed => ?_
    · cases closed with
      | true => exact pure none
      | false => exact ((take _ _).weaken (by simp)).map
    · cases closed with
      | true => exact .pure none
      | false => exact ((Advances.take _ _).weaken (by simp)).map
  exact (mark .openBrace).bind (k := false) (fun _ => hline.many Advances.dialogueLine)
    fun _ => Advances.dialogueLine.many

end Shifts

/-- Every parser gives the same behind earlier faults while the budget lasts. -/
theorem Composed.shifts {T : Token → Prop} {S : Span → Prop} {fl : Bool} {p : Parse α}
    {Q : α → Prop} (h : Composed T S fl k p Q) : Shifts c F k p := by
  induction h with
  | done => exact .pure _
  | bind hp hf ihp ihf =>
      exact (ihp.bind ihf fun a => (hf a).advances).weaken fun ht => by simp [ht]
  | andThen hp hf ihp ihf => exact (ihp.bind ihf fun a => (hf a).advances).weaken fun _ => rfl
  | map _ _ ih => exact ih.map
  | within _ ih => exact ⟨(ih c.settings.maxNesting).ok, (ih c.settings.maxNesting).error⟩
  | look f => exact .look f
  | eat f => exact .eat f
  | @fork _ _ tk _ _ _ _ _ _ f _ _ hp hq _ _ ihp ihq =>
      refine ((Shifts.look f).bind (k := tk) (fun found => ?_) fun found => ?_).weaken fun ht => by simp [ht]
      · cases found
        exacts [ihq, ihp]
      · cases found
        exacts [hq.advances, hp.advances]
  | take expected accept => exact (Shifts.take expected accept).weaken fun _ => rfl
  | number => exact Shifts.number.weaken fun _ => rfl
  | unexpected expected =>
      exact .fails (fun _ => run_unexpected expected) fun hst => hst.unexpected expected
  | failHere cause => exact .fails (fun _ => run_failHere cause) fun hst => by rw [hst.place]
  | node _ _ ih => exact (ih .origin).node.weaken fun _ => rfl
  | many hp _ ih => exact ih.many hp.advances
  | block starters hp ih => exact (ih.block hp.advances starters).weaken fun _ => rfl
  | lines => exact Shifts.lines.weaken fun _ => rfl

end Storyworld.Grammar
