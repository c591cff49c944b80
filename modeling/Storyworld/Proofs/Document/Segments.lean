import Storyworld.Proofs.Grammar.Budget
import Storyworld.Proofs.Grammar.Locality
import Storyworld.Proofs.Token.Lexer

namespace Storyworld

/-! Recovery at the top level. What is read of a stretch of balanced tokens and what is read of the
definitions behind it do not depend on one another, however broken both are. -/

namespace Grammar

variable {c c' : Context} {b : List Token} {s s' t : State} {F : List SyntaxFault}

/-! ## The definition that comes next -/

theorem nextDefinition_productive : Productive nextDefinition := by
  have hadv := definition_composed.advances
  intro c s ns s' h
  cases nextDerivation_iff.mpr h with
  | keeps hdef hsame => exact hadv.shorter hdef rfl
  | drops hdef hdiffers =>
      have hlt := hadv.shorter hdef rfl
      exact hlt
  | resumes hr hdef hlt =>
      exact resumed_lt _ (hadv.error hdef).rest.length_le (by simpa [List.length_pos_iff] using hr)

/-- Reading the next definition leaves no fault to the caller. -/
theorem nextDefinition_ok (c : Context) (s : State) :
    ∃ ns? s', nextDefinition c s = .ok ns? s' := by
  generalize h : nextDefinition c s = e
  cases nextDerivation_iff.mpr h <;> exact ⟨_, _, rfl⟩

/-- Reading definitions ends, and without a fault of its own. -/
theorem definitions_ok (c : Context) (s : State) :
    ∃ nss s', many nextDefinition c s = .ok nss s' := by
  have hcollect (n : Nat) (s : State) : ∃ nss s', collect nextDefinition n c s = .ok nss s' := by
    induction n generalizing s with
    | zero => exact ⟨[], s, rfl⟩
    | succ n ih =>
        obtain ⟨ns?, s', hns⟩ := nextDefinition_ok c s
        rw [run_collect_succ, hns]
        cases ns? with
        | none => exact ⟨_, _, rfl⟩
        | some ns =>
            obtain ⟨nss, s'', hrest⟩ := ih s'
            simp only [hrest]
            exact ⟨_, _, rfl⟩
  rw [run_many]
  exact hcollect _ s

/-- Where tokens are left, the next definition is one without a fault or comes with one. -/
theorem nextDefinition_or_fault {ns? : Option (List Node)} (hs : s.rest ≠ [])
    (h : nextDefinition c s = .ok ns? s') : (∃ n, ns? = some [n]) ∨ s'.faults ≠ [] := by
  cases nextDerivation_iff.mpr h with
  | ends hr => exact absurd hr hs
  | keeps hdef hsame => exact .inl ⟨_, rfl⟩
  | drops hdef hdiffers =>
      have hle := (definition_composed.advances.ok hdef).faults.length_le
      refine .inr fun hnil => hdiffers ?_
      simp only at hnil
      rw [hnil] at hle ⊢
      exact (Nat.le_zero.mp hle).symm
  | resumes hr hdef hlt => exact .inr (by simp [State.faulted])
  | stops hr hdef hle => exact .inr (by simp [State.faulted])

/-- A source that is not empty gives a definition or a fault. -/
theorem definitions_or_faults {nss : List (List Node)} (hs : s.rest ≠ [])
    (h : many nextDefinition c s = .ok nss s') : nss.flatten ≠ [] ∨ s'.faults ≠ [] := by
  rw [run_many_step nextDefinition_productive] at h
  cases hnext : nextDefinition c s with
  | error fault s₁ =>
      rw [hnext] at h
      cases h
  | ok ns? s₁ =>
      rw [hnext] at h
      rcases nextDefinition_or_fault hs hnext with ⟨n, rfl⟩ | hne
      · simp only at h
        split at h <;> cases h
        exact .inl (by simp)
      · have hbehind : s₁.Behind s' := by
          cases ns? with
          | none =>
              cases h
              exact .refl
          | some ns =>
              simp only at h
              split at h <;> cases h
              exact nextDefinition_advances.many.ok ‹_›
        refine .inr fun hnil => hne ?_
        exact List.prefix_nil.mp (hnil ▸ hbehind.faults)

/-! ## Earlier faults -/

theorem nextDefinition_shifts : Shifts c F false nextDefinition := by
  have hshifts := definition_composed.shifts (c := c) (F := F)
  constructor
  · intro s t ns? s' hst h hn
    have hne (hr : s.rest ≠ []) : t.rest ≠ [] := hst.rest ▸ hr
    cases nextDerivation_iff.mpr h with
    | ends hr =>
        exact ⟨t, (NextDerivation.ends (hst.rest.trans hr)).execution, hst, fun hl => by simpa using hl⟩
    | keeps hdef hsame =>
        obtain ⟨t', hok, hst', hl⟩ := hshifts.ok hst hdef hn
        have hsame' : t'.faults.length = t.faults.length := by simp [hst'.faults, hst.faults, hsame]
        exact ⟨t', (NextDerivation.keeps hok hsame').execution, hst', fun _ => hl (.inr rfl)⟩
    | drops hdef hdiffers =>
        obtain ⟨t', hok, hst', hl⟩ := hshifts.ok hst hdef hn
        have hdiffers' : t'.faults.length ≠ t.faults.length := by
          simpa [hst'.faults, hst.faults] using hdiffers
        exact ⟨_, (NextDerivation.drops hok hdiffers').execution,
          ⟨hst'.rest, hst'.depth, hst'.faults⟩, fun _ => hl (.inr rfl)⟩
    | @resumes hr fault s₁ hdef hlt =>
        simp only [resumed_faults, length_faulted] at hn
        obtain ⟨t', herr, hst', hl⟩ := hshifts.error hst hdef hn
        obtain ⟨hresumed, hlast⟩ := (hst'.faulted fault).resumed beginsDefinition s.rest.length
        have hlt' : t'.faults.length + 1 < c.settings.patience := by
          rw [Settings.patience_of_lt (by omega), hst'.faults, List.length_append]
          omega
        have hnext : nextDefinition c t = _ := (NextDerivation.resumes (hne hr) herr hlt').execution
        rw [hst.rest] at hnext
        exact ⟨_, hnext, hresumed, fun h => hlast (hl (by simpa using h))⟩
    | @stops hr fault s₁ hdef hle =>
        rw [length_faulted] at hn
        obtain ⟨t', herr, hst', hl⟩ := hshifts.error hst hdef hn
        have hle' : c.settings.patience ≤ t'.faults.length + 1 := by
          simp only [hst'.faults, List.length_append]
          omega
        exact ⟨_, (NextDerivation.stops (hne hr) herr hle').execution, hst'.faulted fault,
          fun h => hl (by simpa using h)⟩
  · intro s t fault s' hst h hn
    cases nextDerivation_iff.mpr h

/-! ## What follows -/

/-- Skipping to a definition stops at the end of a segment, if not before. -/
theorem skip_before_definition (hs : Segment s.depth s.rest)
    (hb : b.head?.all (·.isOneOf definitionStarters)) :
    (s.before b).skip beginsDefinition = (s.skip beginsDefinition).before b ∧
      Segment (s.skip beginsDefinition).depth (s.skip beginsDefinition).rest ∧
      (s.skip beginsDefinition).depth = 0 := by
  induction hr : s.rest generalizing s with
  | nil =>
      have hdepth : s.depth = 0 := by
        have hbalanced := hs.balanced
        rwa [hr] at hbalanced
      cases b with
      | nil =>
          have hrest : (s.before []).rest = [] := by simp [State.before, hr]
          rw [skip_of_nil hr, skip_of_nil hrest]
          exact ⟨rfl, hs, hdepth⟩
      | cons u b =>
          have hrest : (s.before (u :: b)).rest = u :: b := by simp [State.before, hr]
          have hstop : beginsDefinition (s.before (u :: b)).depth u := by
            have hzero : (s.before (u :: b)).depth = 0 := hdepth
            simpa [beginsDefinition, hzero] using hb
          rw [skip_of_nil hr, skip_of_stop hrest hstop]
          exact ⟨rfl, hs, hdepth⟩
  | cons t rest ih =>
      have hwithin : s.Within := ⟨hs, by simp [hr]⟩
      have hbefore := State.before_rest (b := b) hr
      cases hstop : beginsDefinition s.depth t with
      | true =>
          rw [skip_of_stop hr hstop, skip_of_stop hbefore hstop]
          simp only [beginsDefinition, Bool.and_eq_true, decide_eq_true_eq] at hstop
          exact ⟨rfl, hs, hstop.1⟩
      | false =>
          have hpass : (s.before b).pass t = (s.pass t).before b := by
            unfold State.pass
            rw [State.before_advance hwithin.ne_nil]
            rfl
          rw [skip_of_pass hr hstop, skip_of_pass hbefore hstop, hpass]
          exact ih hwithin.advance (by simp [State.pass, advance_of_cons hr])

theorem resumed_before_definition (hs : s.Within)
    (hb : b.head?.all (·.isOneOf definitionStarters)) (left : Nat) :
    (s.before b).resumed beginsDefinition (left + b.length) =
        (s.resumed beginsDefinition left).before b ∧
      Segment (s.resumed beginsDefinition left).depth (s.resumed beginsDefinition left).rest ∧
      (s.resumed beginsDefinition left).depth = 0 := by
  have hlength : (s.before b).rest.length = left + b.length ↔ s.rest.length = left := by
    simp [State.before]
  unfold State.resumed
  by_cases hl : s.rest.length = left
  · rw [if_pos hl, if_pos (hlength.mpr hl), State.before_advance hs.ne_nil]
    exact skip_before_definition hs.advance hb
  · rw [if_neg hl, if_neg (fun h => hl (hlength.mp h))]
    exact skip_before_definition hs.segment hb

/-- The next definition of a segment, whatever follows the segment. -/
theorem nextDefinition_before (hc : c'.settings = c.settings)
    (hb : b.head?.all (·.isOneOf definitionStarters)) (hs : s.Within) (hd : s.depth = 0)
    {ns? : Option (List Node)} (h : nextDefinition c s = .ok ns? s') :
    nextDefinition c' (s.before b) = .ok ns? (s'.before b) ∧
      (ns?.isSome → Segment s'.depth s'.rest ∧ s'.depth = 0) := by
  have hlocal := definition_composed.isLocal hc hb
  have hne : (s.before b).rest ≠ [] := by simp [State.before, hs.ne_nil]
  have hleft : (s.before b).rest.length = s.rest.length + b.length := by simp [State.before]
  have hpatience : c'.settings.patience = c.settings.patience := by rw [hc]
  cases nextDerivation_iff.mpr h with
  | ends hr => exact absurd hr hs.ne_nil
  | keeps hdef hsame =>
      obtain ⟨hok, hseg, hdepth, -⟩ := hlocal.ok hs hdef
      exact ⟨(NextDerivation.keeps hok hsame).execution, fun _ => ⟨hseg, hdepth.trans hd⟩⟩
  | drops hdef hdiffers =>
      obtain ⟨hok, hseg, hdepth, -⟩ := hlocal.ok hs hdef
      exact ⟨(NextDerivation.drops hok hdiffers).execution, fun _ => ⟨hseg, hdepth.trans hd⟩⟩
  | @resumes _ fault s₁ hdef hlt =>
      obtain ⟨herr, hwithin, -⟩ := hlocal.error hs hdef
      obtain ⟨hresumed, hend⟩ := resumed_before_definition (s := s₁.faulted fault)
        ⟨hwithin.segment, hwithin.ne_nil⟩ hb s.rest.length
      have hnext : nextDefinition c' (s.before b) = _ :=
        (NextDerivation.resumes hne herr (hpatience ▸ hlt)).execution
      rw [hleft] at hnext
      exact ⟨hnext.trans (congrArg _ hresumed), fun _ => hend⟩
  | stops _ hdef hle =>
      obtain ⟨herr, -, -⟩ := hlocal.error hs hdef
      exact ⟨(NextDerivation.stops hne herr (hpatience ▸ hle)).execution, by simp⟩

/-- Reading definitions only ends before the last token where the budget is spent. -/
theorem nextDefinition_none (hr : c.settings.resyncs) (hs : s.rest ≠ [])
    (h : nextDefinition c s = .ok none s') : c.settings.faultBudget ≤ s'.faults.length := by
  cases nextDerivation_iff.mpr h with
  | ends hnil => exact absurd hnil hs
  | stops _ hdef hle => simpa [Settings.patience, hr] using hle

/-- The definitions of a segment come first, whatever follows it, and reading goes on behind it
with nothing changed but the faults that were found, unless they spend the budget. -/
theorem definitions_before (hc : c'.settings = c.settings)
    (hb : b.head?.all (·.isOneOf definitionStarters)) (hs : Segment s.depth s.rest)
    (hd : s.depth = 0) (hr : c.settings.resyncs) {nss : List (List Node)}
    (h : many nextDefinition c s = .ok nss s') :
    (c.settings.faultBudget ≤ s'.faults.length ∧
        many nextDefinition c' (s.before b) = .ok nss (s'.before b)) ∨
      (s'.rest = [] ∧ s'.depth = 0 ∧ ∀ {nss' s''},
        many nextDefinition c' (s'.before b) = .ok nss' s'' →
          many nextDefinition c' (s.before b) = .ok (nss ++ nss') s'') := by
  induction hlen : s.rest.length using Nat.strong_induction_on generalizing s nss with
  | _ n ih =>
      by_cases hne : s.rest = []
      · rw [run_many_step nextDefinition_productive, (NextDerivation.ends hne).execution] at h
        cases h
        exact .inr ⟨hne, hd, id⟩
      rcases many_cases nextDefinition_productive h with ⟨rfl, hnext⟩ | ⟨ns, nss, s₁, rfl, hnext, h⟩
      · obtain ⟨hsame, -⟩ := nextDefinition_before hc hb ⟨hs, hne⟩ hd hnext
        refine .inl ⟨nextDefinition_none hr hne hnext, ?_⟩
        rw [run_many_step nextDefinition_productive, hsame]
      · obtain ⟨hsame, hend⟩ := nextDefinition_before hc hb ⟨hs, hne⟩ hd hnext
        obtain ⟨hseg, hdepth⟩ := hend rfl
        have hlt := nextDefinition_productive c s ns s₁ hnext
        rcases ih _ (hlen ▸ hlt) hseg hdepth h rfl with ⟨hspent, hmany⟩ | ⟨hrest, hzero, hmany⟩
        · refine .inl ⟨hspent, ?_⟩
          rw [run_many_step nextDefinition_productive, hsame]
          simp only [hmany]
        · refine .inr ⟨hrest, hzero, fun h' => ?_⟩
          rw [run_many_step nextDefinition_productive, hsame]
          simp only [hmany h']
          rfl

end Grammar

open Grammar

namespace Tree

/-- The tokens of a source that the grammar gets to see. -/
def significant (tokens : List Token) : List Token :=
  tokens.filter fun t => !t.isTrivia

/-- What reading some tokens gives, told by the definitions found and the state reached. -/
theorem ofTokens_eq {x : Settings} {tokens : List Token} {nss : List (List Node)} {s : State}
    (h : many nextDefinition ⟨x, endOf tokens⟩ { rest := significant tokens } = .ok nss s) :
    ofTokens x tokens =
      let start : State := { rest := significant tokens }
      let context : Context := ⟨x, endOf tokens⟩
      let s' := s.concluded context (significant tokens).length nss.flatten
      ⟨⟨.mk .sourceFile ((start.place context).upTo s'.last) (nss.flatten.map .node),
        (tokens.filter (·.kind = .comment)).map (·.span)⟩, s'.faults, s'.log.reverse⟩ := by
  have hdoc := run_document (c := ⟨x, endOf tokens⟩) (s := { rest := significant tokens })
  have hnode := run_node (c := ⟨x, endOf tokens⟩) (s := { rest := significant tokens })
    .sourceFile (do return (← document).map .node)
  simp only [run_bind, hdoc, h, run_pure] at hnode
  simp only [ofTokens]
  rw [show (tokens.filter fun t => !t.isTrivia) = significant tokens from rfl, hnode]

theorem children_of_definitions {settings : Settings} {tokens : List Token}
    {nss : List (List Node)} {s : State}
    (h : many nextDefinition ⟨settings, endOf tokens⟩ { rest := significant tokens } = .ok nss s) :
    (ofTokens settings tokens).tree.root.children = nss.flatten.map .node := by
  rw [ofTokens_eq h]
  rfl

theorem faults_of_definitions {settings : Settings} {tokens : List Token}
    {nss : List (List Node)} {s : State}
    (h : many nextDefinition ⟨settings, endOf tokens⟩ { rest := significant tokens } = .ok nss s) :
    s.faults <+: (ofTokens settings tokens).faults := by
  have hbehind : s.Behind
      (s.concluded ⟨settings, endOf tokens⟩ (significant tokens).length nss.flatten) :=
    State.concluded_behind
  rw [ofTokens_eq h]
  exact hbehind.faults

theorem ofTokens_of_definitions {settings : Settings} {tokens : List Token}
    {nss : List (List Node)} {s : State}
    (h : many nextDefinition ⟨settings, endOf tokens⟩ { rest := significant tokens } = .ok nss s)
    (hfound : nss.flatten ≠ [] ∨ s.faults ≠ []) :
    (ofTokens settings tokens).tree.root.children = nss.flatten.map .node ∧
      (ofTokens settings tokens).faults = s.faults := by
  refine ⟨children_of_definitions h, ?_⟩
  rw [ofTokens_eq h]
  simp only [State.concluded]
  rw [if_neg]
  rintro hempty
  rw [Bool.and_eq_true, List.isEmpty_iff, List.isEmpty_iff] at hempty
  exact hfound.elim (· hempty.1) (· hempty.2)

/-- Reading a stretch of tokens whose braces balance and that ends with a closing brace, and behind
it others that begin with a definition, gives the definitions and the faults of both, as they are
found in each of them alone. -/
theorem ofTokens_append {settings : Settings} {stretch others : List Token}
    (hr : settings.recovery = .resync) (hne : significant stretch ≠ [])
    (hs : Segment 0 (significant stretch))
    (hb : (significant others).head?.any (·.isOneOf definitionStarters))
    (hn : (ofTokens settings stretch).faults.length + (ofTokens settings others).faults.length <
      settings.maxErrors) :
    (ofTokens settings (stretch ++ others)).tree.root.children =
        (ofTokens settings stretch).tree.root.children ++
          (ofTokens settings others).tree.root.children ∧
      (ofTokens settings (stretch ++ others)).faults =
        (ofTokens settings stretch).faults ++ (ofTokens settings others).faults := by
  have hne' : significant others ≠ [] := by
    rintro h
    simp [h] at hb
  have hresync : settings.resyncs := by simp [Settings.resyncs, hr]
  have hbudget : settings.maxErrors ≤ settings.faultBudget := Nat.le_max_left _ _
  -- What is read of the stretch alone and of the others alone.
  obtain ⟨nss, s, hstretch⟩ :=
    definitions_ok ⟨settings, endOf stretch⟩ { rest := significant stretch }
  obtain ⟨nss', s', hothers⟩ :=
    definitions_ok ⟨settings, endOf others⟩ { rest := significant others }
  have hfound := definitions_or_faults hne hstretch
  have hfound' := definitions_or_faults hne' hothers
  obtain ⟨hchildren, hfaults⟩ := ofTokens_of_definitions hstretch hfound
  obtain ⟨hchildren', hfaults'⟩ := ofTokens_of_definitions hothers hfound'
  rw [hfaults, hfaults'] at hn
  -- The end of the source is that of the others.
  have hend : endOf (stretch ++ others) = endOf others := by
    have hsome : others ≠ [] := by
      rintro rfl
      simp [significant] at hne'
    rw [endOf, endOf, List.getLast?_append, List.getLast?_eq_some_getLast hsome, Option.some_or]
  have hbefore : ({ rest := significant (stretch ++ others) } : State) =
      State.before (significant others) { rest := significant stretch } := by
    simp [significant, State.before]
  -- Behind the stretch the others are read as they are alone.
  obtain ⟨nss₂, s₂, hboth⟩ := definitions_ok ⟨settings, endOf others⟩ (s.before (significant others))
  have hsame : (⟨settings, endOf others⟩ : Context).settings =
      (⟨settings, endOf stretch⟩ : Context).settings := rfl
  have hball : (significant others).head?.all (·.isOneOf definitionStarters) := by
    cases hothers : significant others <;> simp_all
  rcases definitions_before hsame hball hs rfl hresync hstretch with
    ⟨hspent, -⟩ | ⟨hrest, hdepth, hmany⟩
  · have hspent : settings.faultBudget ≤ s.faults.length := hspent
    omega
  replace hmany := hmany hboth
  have hfollows : State.Follows s.faults { rest := significant others }
      (s.before (significant others)) :=
    ⟨by simp [State.before, hrest], hdepth, by simp [State.before]⟩
  obtain ⟨t', hsame, hfollows', -⟩ :=
    (nextDefinition_shifts.many nextDefinition_advances).ok hfollows hothers
      (show s.faults.length + s'.faults.length < settings.faultBudget by omega)
  rw [hboth] at hsame
  cases hsame
  rw [← hend, ← hbefore] at hmany
  have hfound₂ : (nss ++ nss').flatten ≠ [] ∨ s₂.faults ≠ [] := by
    rcases hfound' with h | h
    · exact .inl (by rw [List.flatten_append]; exact List.append_ne_nil_of_right_ne_nil _ h)
    · exact .inr (by rw [hfollows'.faults]; exact List.append_ne_nil_of_right_ne_nil _ h)
  obtain ⟨hchildren₂, hfaults₂⟩ := ofTokens_of_definitions hmany hfound₂
  rw [hchildren₂, hfaults₂, hchildren, hchildren', hfaults, hfaults', hfollows'.faults,
    List.flatten_append, List.map_append]
  exact ⟨rfl, rfl⟩

theorem ofTokens_append_npc :
    (significant (Lexer.tokensOf "npc n \x7b name 5 \x7d \x7b \x7d") ≠ [] ∧
      Segment 0 (significant (Lexer.tokensOf "npc n \x7b name 5 \x7d \x7b \x7d")) ∧
      (ofTokens {} (Lexer.tokensOf "npc n \x7b name 5 \x7d \x7b \x7d")).faults.length = 2 ∧
      (ofTokens {} (Lexer.tokensOf "goal g \x7b fail \x7d")).faults.length = 1) ∧
    (ofTokens {} (Lexer.tokensOf "npc n \x7b name 5 \x7d \x7b \x7d" ++
          Lexer.tokensOf "goal g \x7b fail \x7d")).faults =
      (ofTokens {} (Lexer.tokensOf "npc n \x7b name 5 \x7d \x7b \x7d")).faults ++
        (ofTokens {} (Lexer.tokensOf "goal g \x7b fail \x7d")).faults := by
  refine ⟨by decide +kernel, ?_⟩
  exact (ofTokens_append rfl (by decide +kernel) (by decide +kernel) (by decide +kernel)
    (by decide +kernel)).2

end Tree

end Storyworld
