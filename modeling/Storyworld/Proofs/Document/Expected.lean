import Storyworld.Proofs.Document.Truncation
import Storyworld.Proofs.Grammar.OffersDefinitions

namespace Storyworld

/-! What a source was expected to go on with can be put there: reading then gets past it. -/

namespace Grammar

variable {m : Repair} {c : Context} {s s' : State} {nss : List (List Node)} {fault : SyntaxFault}

/-! ## The first fault -/

/-- Where the first fault ends the reading, no fault is recorded before that. -/
theorem definition_clean (hc : c.settings.patience = 1) (hs : s.faults = [])
    (h : Reaches definition c s s') : s'.faults = [] := by
  have hlt := (definition_composed.patient (c := c)).lt (by simp [hs, hc]) h
  exact List.eq_nil_of_length_eq_zero (by omega)

theorem nextDefinition_of_ok {n : Node} (h : definition c s = .ok n s') (hs : s.faults = [])
    (hs' : s'.faults = []) : nextDefinition c s = .ok (some [n]) s' :=
  (NextDerivation.keeps h (by rw [hs, hs'])).execution

/-- Where the first fault ends the reading, it is the only one, and what it says was expected was
expected where reading ended. -/
theorem definitions_first (hc : c.settings.patience = 1) (hs : s.faults = [])
    (h : many nextDefinition c s = .ok nss s') (hfault : s'.faults.head? = some fault) :
    s'.faults = [fault] ∧
      (fault.cause.expected ≠ [] → fault = s'.unexpected c fault.cause.expected) := by
  have hahead : FaultsAhead definition :=
    (Candid.definition (m := ⟨c, c, [], ⟨.blank, .origin, ""⟩, [], rfl, hc.le, rfl⟩)).ahead
  induction hlen : s.rest.length using Nat.strong_induction_on generalizing s nss with
  | _ n ih =>
      rw [run_many_step nextDefinition_productive] at h
      by_cases hne : s.rest = []
      · rw [(NextDerivation.ends hne).execution] at h
        cases h
        simp [hs] at hfault
      cases hrun : definition c s with
      | ok n s₁ =>
          have hs₁ := definition_clean hc hs (.of_ok hrun)
          have hnext := nextDefinition_of_ok hrun hs hs₁
          have hlt := nextDefinition_productive c s _ s₁ hnext
          rw [hnext] at h
          simp only at h
          split at h <;> cases h
          exact ih _ (hlen ▸ hlt) hs₁ ‹_› rfl
      | error fault₁ s₁ =>
          have hs₁ := definition_clean hc hs (.of_error hrun)
          rw [(NextDerivation.stops hne hrun (by omega)).execution] at h
          cases h
          obtain rfl : fault₁ = fault := by simpa [State.faulted, hs₁] using hfault
          refine ⟨by simp [State.faulted, hs₁], fun hexpected => ?_⟩
          have hunexpected : fault₁ = s₁.unexpected c fault₁.cause.expected := hahead hrun hexpected
          exact hunexpected

/-! ## The second reading -/

/-- Reading definitions goes on to satisfy what lasts once a definition has come to. -/
theorem definitions_land {I : State → Prop} (hI : Lasting I c) (hne : s.rest ≠ [])
    (h : Lands I (definition c s)) : Lands I (many nextDefinition c s) := by
  have hnext : Lands I (nextDefinition c s) := by
    generalize hrun : nextDefinition c s = e
    cases nextDerivation_iff.mpr hrun with
    | ends hr => exact absurd hr hne
    | keeps hdef hsame => simpa [hdef, Lands] using h
    | drops hdef hdiffers => exact hI.log _ (by simpa [hdef, Lands] using h)
    | resumes hr hdef hlt => exact hI.resumed (by simpa [hdef, Lands] using h) _ _
    | stops hr hdef hle => simpa [hdef, Lands] using h
  rw [many_eq nextDefinition_productive]
  refine hnext.bind fun ns? => ?_
  cases ns? with
  | none => exact .pure _
  | some ns => exact ((nextDefinition_keeps hI).many).map

/-- Where a token is put in that was expected at the fault that ended the first reading, the second
one gets past it. -/
theorem definitions_past (hc : m.found.settings.patience = 1) (hs : s.faults = [])
    (h : many nextDefinition m.found (m.old s) = .ok nss s') (hrest : s'.rest = m.left)
    (hfault : s'.faults = [fault]) (hoffers : fault.Offers m.token) :
    Lands m.Past (many nextDefinition m.repaired (m.new s)) := by
  have hnew (s : State) : (m.new s).rest ≠ [] := by simp [Repair.new, State.before]
  induction hlen : s.rest.length using Nat.strong_induction_on generalizing s nss with
  | _ n ih =>
      have hmirrors := Candid.definition.mirrors (m := m) hs fun _ h => h
      rw [run_many_step nextDefinition_productive] at h
      by_cases hne : (m.old s).rest = []
      · rw [(NextDerivation.ends hne).execution] at h
        cases h
        cases hs.symm.trans hfault
      cases hrun : definition m.found (m.old s) with
      | ok n s₁ =>
          have hs₁ := definition_clean (s := m.old s) hc hs (.of_ok hrun)
          have hnext := nextDefinition_of_ok hrun hs hs₁
          have hlt := nextDefinition_productive _ _ _ s₁ hnext
          rw [hnext] at h
          simp only at h
          split at h <;> cases h
          have hsuffix := (nextDefinition_advances.many.ok ‹_›).rest
          obtain ⟨s₁, rfl⟩ := Repair.exists_old (hrest ▸ hsuffix)
          rcases hmirrors.ok hrun with ⟨-, hsame⟩ | hlands
          · have hnext' := nextDefinition_of_ok hsame hs hs₁
            have hshorter : s₁.rest.length < s.rest.length := by
              simpa [Repair.old, State.before] using hlt
            have hlands := ih _ (hlen ▸ hshorter) (s := s₁) hs₁ ‹_› rfl
            rw [run_many_step nextDefinition_productive, hnext']
            simp only
            split <;> simp_all [Lands]
          · exact definitions_land Repair.past_lasting (hnew s) hlands
      | error fault₁ s₁ =>
          have hs₁ := definition_clean (s := m.old s) hc hs (.of_error hrun)
          rw [(NextDerivation.stops hne hrun (by omega)).execution] at h
          cases h
          obtain rfl : fault₁ = fault := by simpa [State.faulted, hs₁] using hfault
          exact definitions_land Repair.past_lasting (hnew s) (hmirrors.error hrun hrest hoffers)

end Grammar

namespace Expectation

/-- Blanks and comments are never expected. -/
theorem isTrivia_of_admits {x : Expectation} {t : Token} (h : x.admits t) : t.isTrivia = false := by
  cases x <;> cases hk : t.kind <;>
    simp_all [admits, Token.isTrivia, Token.isMark, Token.isString, Token.stringValue?,
      Token.isKeyword]

end Expectation

open Grammar

namespace Tree

variable {x : Settings} {tokens before after : List Token} {t : Token} {fault : SyntaxFault}

theorem abort_patience (x : Settings) :
    ({ x with recovery := .abort } : Settings).patience = 1 := by
  simp [Settings.patience, Settings.resyncs]

/-- The first fault of a source is the one at which reading stops that stops at the first fault. -/
theorem ofTokens_first (x : Settings) (tokens : List Token) :
    (ofTokens x tokens).faults.head? =
      (ofTokens { x with recovery := .abort } tokens).faults.head? := by
  have habort := abort_patience x
  have hle : 1 ≤ x.patience := by
    rw [Settings.patience, Settings.faultBudget]
    split <;> omega
  rcases ofTokens_outlasted { x with recovery := .abort } x tokens rfl (by omega) (by omega) with
    ⟨hsame, -⟩ | ⟨-, hlength, hprefix, -⟩
  · rw [hsame]
  · obtain ⟨fault, hfault⟩ := List.length_eq_one_iff.mp (hlength.trans habort)
    obtain ⟨more, hmore⟩ := hprefix
    rw [hfault] at hmore ⊢
    simp [← hmore]

/-- If the tokens `before`, `t` and `after` have faults, the first of them lies behind `t`: at one
of the tokens behind it or at the end. -/
def FaultsBehind (x : Settings) (before : List Token) (t : Token) (after : List Token) : Prop :=
  ∀ fault ∈ (ofTokens x (before ++ t :: after)).faults.head?,
    (fault.span = endOf (before ++ t :: after) ∨ ∃ u ∈ after, fault.span = u.span) ∧
      (InOrder (before ++ t :: after) → t.span.stop ≤ fault.span.start)

/-- The end of some tokens in order is not before the end of one of them. -/
theorem stop_le_endOf (h : InOrder tokens) (ht : t ∈ tokens) :
    t.span.stop ≤ (endOf tokens).start := by
  have hne : tokens ≠ [] := List.ne_nil_of_mem ht
  rw [endOf, List.getLast?_eq_getLast_of_ne_nil hne]
  exact h.le_last hne ht

theorem significant_append (ts us : List Token) :
    significant (ts ++ us) = significant ts ++ significant us :=
  List.filter_append ts us

theorem significant_cons (ht : t.isTrivia = false) (ts : List Token) :
    significant (t :: ts) = t :: significant ts :=
  List.filter_cons_of_pos (by simp [ht])

/-- Which tokens are blanks or comments is told by the kinds of the tokens. -/
theorem significant_kinds {ts us : List Token} (h : us.map (·.kind) = ts.map (·.kind)) :
    (significant us).map (·.kind) = (significant ts).map (·.kind) := by
  have htrivia : (fun t : Token => !t.isTrivia) =
      (fun k : Token.Kind => k ≠ .comment && k ≠ .blank) ∘ Token.kind := by
    funext t
    cases hk : t.kind <;> simp [Token.isTrivia, hk]
  rw [significant, significant, htrivia, ← List.filter_map, ← List.filter_map]
  exact congrArg _ h

/-- The faults of a source are those of its definitions, if there are any. -/
theorem faults_eq_of_definitions {nss : List (List Node)} {s : State}
    (h : many nextDefinition ⟨x, endOf tokens⟩ { rest := significant tokens } = .ok nss s) :
    (ofTokens x tokens).faults = s.faults ∨
      s.faults = [] ∧ (ofTokens x tokens).faults = [⟨.emptyDocument, endOf tokens⟩] := by
  rw [ofTokens_eq h]
  simp only [State.concluded]
  split
  · rename_i hempty
    have hnil : s.faults = [] := List.isEmpty_iff.mp (Bool.and_eq_true_iff.mp hempty).2
    exact .inr ⟨hnil, by simp [State.faulted, hnil]⟩
  · exact .inl rfl

theorem FaultsBehind.of_places
    (h : ∀ fault ∈ (ofTokens x (before ++ t :: after)).faults.head?,
      fault.span = endOf (before ++ t :: after) ∨ ∃ u ∈ after, fault.span = u.span) :
    FaultsBehind x before t after := by
  refine fun fault hfault => ⟨h fault hfault, fun horder => ?_⟩
  rcases h fault hfault with hspan | ⟨u, hu, hspan⟩
  · rw [hspan]
    exact stop_le_endOf horder (by simp)
  · rw [hspan]
    rw [List.append_cons] at horder
    exact horder.before (by simp) hu

theorem faultsBehind_of_definitions {nss : List (List Node)} {s : State}
    (h : many nextDefinition ⟨{ x with recovery := .abort }, endOf tokens⟩
      { rest := significant tokens } = .ok nss s)
    (hrest : significant tokens = significant before ++ s.rest) (hfaults : s.faults = [fault])
    (ht : fault.Offers t) (hkinds : (significant after).map (·.kind) = s.rest.tail.map (·.kind)) :
    FaultsBehind x before t after := by
  have hpatience := abort_patience x
  let m : Repair :=
    { found := ⟨{ x with recovery := .abort }, endOf tokens⟩
      repaired := ⟨{ x with recovery := .abort }, endOf (before ++ t :: after)⟩
      left := s.rest
      token := t
      behind := significant after
      settings := rfl
      impatient := hpatience.le
      kinds := hkinds }
  obtain ⟨nss', s', h'⟩ := definitions_ok m.repaired { rest := significant (before ++ t :: after) }
  have hpast : m.Past s' := by
    have hnew : m.new { rest := significant before } =
        { rest := significant (before ++ t :: after) } := by
      obtain ⟨e, -, hadmits⟩ := ht
      rw [significant_append, significant_cons (Expectation.isTrivia_of_admits hadmits)]
      rfl
    rw [hrest] at h
    have hlands := definitions_past (m := m) (s := { rest := significant before }) hpatience rfl h
      rfl hfaults ht
    rwa [hnew, h'] at hlands
  refine .of_places fun fault' hfault' => ?_
  rw [ofTokens_first] at hfault'
  have hmem := List.mem_of_mem_head? hfault'
  rcases faults_eq_of_definitions h' with hsame | ⟨-, hempty⟩
  · rw [hsame] at hmem
    refine (hpast.faults fault' hmem).imp id fun ⟨u, hu, hspan⟩ => ⟨u, ?_, hspan⟩
    exact (List.mem_filter.mp hu).1
  · rw [hempty, List.mem_singleton] at hmem
    exact .inl (congrArg SyntaxFault.span hmem)

/-- The offers of the first fault of a source are no lie. A token that is offered gets reading past
the place of the fault: put in for the token found there, or put behind a source that has ended, it
leaves the source without a fault, or the first fault lies behind it. The tokens behind it may lie
elsewhere than before. -/
theorem ofTokens_expected (hfault : (ofTokens x tokens).faults.head? = some fault)
    (ht : fault.Offers t) :
    match fault.cause with
    | .unexpected .. => ∃ before u after, tokens = before ++ u :: after ∧ u.isTrivia = false ∧
        fault.span = u.span ∧ ∀ after' : List Token, after'.map (·.kind) = after.map (·.kind) →
          FaultsBehind x before t after'
    | .unexpectedEnd _ => FaultsBehind x tokens t []
    | _ => False := by
  have hexpected : fault.cause.expected ≠ [] := by
    obtain ⟨e, he, -⟩ := ht
    exact List.ne_nil_of_mem he
  obtain ⟨nss, s, h⟩ := definitions_ok ⟨{ x with recovery := .abort }, endOf tokens⟩
    { rest := significant tokens }
  have hhead : s.faults.head? = some fault := by
    rw [ofTokens_first] at hfault
    rcases faults_eq_of_definitions h with hsame | ⟨-, hempty⟩
    · rwa [hsame] at hfault
    · rw [hempty] at hfault
      cases hfault
      exact absurd rfl hexpected
  obtain ⟨hfaults, hahead⟩ := definitions_first (abort_patience x) rfl h hhead
  obtain ⟨read, hread⟩ : s.rest <:+ significant tokens := (nextDefinition_advances.many.ok h).rest
  have hunexpected := hahead hexpected
  rw [State.unexpected] at hunexpected
  cases hrest : s.rest with
  | nil =>
      have hcause : fault.cause = .unexpectedEnd fault.cause.expected := by
        rw [hrest] at hunexpected
        exact congrArg SyntaxFault.cause hunexpected
      rw [hcause]
      exact faultsBehind_of_definitions h (by simp [hrest]) hfaults ht (by rw [hrest]; rfl)
  | cons u w =>
      rw [hrest] at hunexpected
      have hcause : fault.cause = .unexpected fault.cause.expected u.describe :=
        congrArg SyntaxFault.cause hunexpected
      rw [hcause]
      rw [hrest] at hread
      obtain ⟨before, behind, rfl, hbefore, hbehind⟩ := List.filter_eq_append_iff.mp hread.symm
      obtain ⟨gap, after, rfl, hgap, hu, hafter⟩ := List.filter_eq_cons_iff.mp hbehind
      refine ⟨before ++ gap, u, after, by simp, by simpa using hu,
        congrArg SyntaxFault.span hunexpected, fun after' hkinds => ?_⟩
      refine faultsBehind_of_definitions h ?_ hfaults ht ?_
      · have hnone : significant gap = [] := List.filter_eq_nil_iff.mpr hgap
        rw [hrest, ← hread, significant_append, hnone, List.append_nil, ← hbefore]
        rfl
      · rw [hrest, List.tail_cons, ← hafter]
        exact significant_kinds hkinds

theorem ofTokens_expected_string :
    (ofTokens {} (Lexer.tokensOf "room a \x7b name 1 \x7d")).faults.head? =
        some ⟨.unexpected ["string"] "number 1", ⟨14, 15, 1, 15⟩⟩ ∧
      SyntaxFault.Offers ⟨.unexpected ["string"] "number 1", ⟨14, 15, 1, 15⟩⟩
        ⟨.string "b", ⟨14, 17, 1, 15⟩, "\"b\""⟩ ∧
      ∃ before u after, Lexer.tokensOf "room a \x7b name 1 \x7d" = before ++ u :: after ∧
        u.isTrivia = false ∧ ⟨14, 15, 1, 15⟩ = u.span ∧
        ∀ after' : List Token, after'.map (·.kind) = after.map (·.kind) →
          FaultsBehind {} before ⟨.string "b", ⟨14, 17, 1, 15⟩, "\"b\""⟩ after' := by
  have hfault : (ofTokens {} (Lexer.tokensOf "room a \x7b name 1 \x7d")).faults.head? =
      some ⟨.unexpected ["string"] "number 1", ⟨14, 15, 1, 15⟩⟩ := by decide +kernel
  have hoffers : SyntaxFault.Offers ⟨.unexpected ["string"] "number 1", ⟨14, 15, 1, 15⟩⟩
      ⟨.string "b", ⟨14, 17, 1, 15⟩, "\"b\""⟩ := ⟨"string", List.mem_singleton_self _, rfl⟩
  exact ⟨hfault, hoffers, ofTokens_expected hfault hoffers⟩

end Tree

end Storyworld
