import Storyworld.Proofs.Grammar.Findings

namespace Storyworld

/-! Reading a whole source, as equations, and what holds of the tree it gives. -/

namespace Grammar

variable {T : Token → Prop} {S : Span → Prop} {c : Context} {s s' : State}

theorem run_nextDefinition :
    nextDefinition c s =
      if s.rest.isEmpty then .ok none s
      else
        match definition c s with
        | .ok n s' =>
          if s'.faults.length = s.faults.length then .ok (some [n]) s'
          else .ok (some []) { s' with log := .droppedNode n.rule n.span :: s'.log }
        | .error fault s' =>
          if c.settings.patience ≤ s'.faults.length + 1 then .ok none (s'.faulted fault)
          else .ok (some []) ((s'.faulted fault).resumed beginsDefinition s.rest.length) := by
  have hend : atEnd c s = .ok s.rest.isEmpty s := rfl
  have hleft : remaining c s = .ok s.rest.length s := rfl
  rw [nextDefinition, run_bind, hend]
  cases hr : s.rest.isEmpty with
  | true => rfl
  | false =>
      simp only [run_bind, run_get, hleft, run_tryCatch, Bool.false_eq_true, if_false]
      cases hd : definition c s with
      | ok n s' =>
          simp only [keepDefinition, run_bind, run_get]
          by_cases hf : s'.faults.length = s.faults.length
          · simp [hf]
          · simp [hf, logEntry, run_bind]
      | error fault s' =>
          simp only [dropDefinition, recordFault, skipToDefinition, run_bind, run_modify, run_read,
            run_get, run_ite, List.length_append, List.length_singleton, Settings.spent_iff]
          rfl

/-- The last state of reading a source: its fault and the summary in the log are added. -/
def State.concluded (c : Context) (total : Nat) (ns : List Node) (s : State) : State :=
  let s := if ns.isEmpty && s.faults.isEmpty then s.faulted ⟨.emptyDocument, c.eof⟩ else s
  { s with log := .parsed ns.length total s.faults.length :: s.log }

theorem run_document :
    document c s =
      match many nextDefinition c s with
      | .ok nss s' => .ok nss.flatten (s'.concluded c s.rest.length nss.flatten)
      | .error fault s' => .error fault s' := by
  have hleft : remaining c s = .ok s.rest.length s := rfl
  rw [document, run_bind, hleft]
  simp only [run_bind]
  cases many nextDefinition c s with
  | error fault s' => rfl
  | ok nss s' =>
      simp only [run_get, run_ite]
      cases h : nss.flatten.isEmpty && s'.faults.isEmpty with
      | true =>
          simp [State.concluded, h, run_bind, logEntry, recordFault, State.faulted]
          rfl
      | false =>
          simp [State.concluded, h, run_bind, logEntry]
          rfl

/-! ## Progress -/

/-- The definition parser as it is composed, where nothing is asked of tokens and places. -/
theorem definition_composed :
    Composed Token.IsSpelled (fun _ => True) false true definition
      (Grown Token.IsSpelled (fun _ => True) Rule.definitions) :=
  .definition fun _ h => h

/-- Reading goes on to the next definition until the tokens end. A definition is kept if no fault was
found inside it and dropped otherwise. One that cannot be read is passed over, unless its fault uses up
the patience. -/
inductive NextDerivation (c : Context) (s : State) : Ending (Option (List Node)) → Prop where
  | ends (hr : s.rest = []) : NextDerivation c s (.ok none s)
  | keeps {n : Node} {s' : State} (hdef : definition c s = .ok n s')
      (hsame : s'.faults.length = s.faults.length) : NextDerivation c s (.ok (some [n]) s')
  | drops {n : Node} {s' : State} (hdef : definition c s = .ok n s')
      (hdiffers : s'.faults.length ≠ s.faults.length) :
      NextDerivation c s (.ok (some []) { s' with log := .droppedNode n.rule n.span :: s'.log })
  | resumes (hr : s.rest ≠ []) {fault : SyntaxFault} {s' : State}
      (hdef : definition c s = .error fault s') (hlt : s'.faults.length + 1 < c.settings.patience) :
      NextDerivation c s
        (.ok (some []) ((s'.faulted fault).resumed beginsDefinition s.rest.length))
  | stops (hr : s.rest ≠ []) {fault : SyntaxFault} {s' : State}
      (hdef : definition c s = .error fault s') (hle : c.settings.patience ≤ s'.faults.length + 1) :
      NextDerivation c s (.ok none (s'.faulted fault))

theorem definition_ne_nil {n : Node} (h : definition c s = .ok n s') : s.rest ≠ [] := by
  intro hr
  have hlt := definition_composed.advances.shorter h rfl
  simp [hr] at hlt

theorem NextDerivation.execution {e : Ending (Option (List Node))} (h : NextDerivation c s e) :
    nextDefinition c s = e := by
  rw [run_nextDefinition]
  cases h with
  | ends hr => simp [hr]
  | keeps hdef hsame => simp [definition_ne_nil hdef, hdef, hsame]
  | drops hdef hdiffers => simp [definition_ne_nil hdef, hdef, hdiffers]
  | resumes hr hdef hlt => simp [hr, hdef, Nat.not_le.mpr hlt]
  | stops hr hdef hle => simp [hr, hdef, hle]

theorem nextDefinition_derivation : NextDerivation c s (nextDefinition c s) := by
  have htotal : ∃ e, NextDerivation c s e := by
    by_cases hr : s.rest = []
    · exact ⟨_, .ends hr⟩
    cases hdef : definition c s with
    | ok n s' =>
        by_cases hsame : s'.faults.length = s.faults.length
        · exact ⟨_, .keeps hdef hsame⟩
        · exact ⟨_, .drops hdef hsame⟩
    | error fault s' =>
        rcases Nat.lt_or_ge (s'.faults.length + 1) c.settings.patience with hlt | hle
        · exact ⟨_, .resumes hr hdef hlt⟩
        · exact ⟨_, .stops hr hdef hle⟩
  obtain ⟨e, h⟩ := htotal
  exact h.execution ▸ h

theorem nextDerivation_iff {e : Ending (Option (List Node))} :
    NextDerivation c s e ↔ nextDefinition c s = e := by
  refine ⟨NextDerivation.execution, ?_⟩
  rintro rfl
  exact nextDefinition_derivation

theorem nextDefinition_advances : Advances false nextDefinition := by
  have hadv := definition_composed.advances
  refine ⟨fun h => ?_, by simp, fun h => ?_⟩
  · cases nextDerivation_iff.mpr h with
    | ends hr => exact .refl
    | keeps hdef hsame => exact hadv.ok hdef
    | drops hdef hdiffers => exact ⟨(hadv.ok hdef).taken, (hadv.ok hdef).faults⟩
    | resumes hr hdef hlt => exact ((hadv.error hdef).trans (.fault _)).trans (.resumed _ _ _)
    | stops hr hdef hle => exact (hadv.error hdef).trans (.fault _)
  · cases nextDerivation_iff.mpr h

theorem State.concluded_behind {total : Nat} {ns : List Node} : s.Behind (s.concluded c total ns) := by
  unfold State.concluded
  split
  · have hfault := State.Behind.fault (s := s) ⟨.emptyDocument, c.eof⟩
    exact ⟨hfault.taken, hfault.faults⟩
  · exact ⟨⟨[], rfl, rfl, rfl⟩, List.prefix_rfl⟩

theorem document_advances : Advances false document := by
  refine ⟨fun h => ?_, by simp, fun h => ?_⟩
  · rw [run_document] at h
    split at h <;> cases h
    exact (nextDefinition_advances.many.ok ‹_›).trans State.concluded_behind
  · rw [run_document] at h
    split at h <;> cases h
    exact nextDefinition_advances.many.error ‹_›

/-! ## Soundness -/

theorem nextDefinition_keeps {I : State → Prop} (hI : Lasting I c) :
    Keeps I c nextDefinition := by
  have hkeeps := definition_composed.keeps hI
  constructor
  · intro s ns? s' hs h
    cases nextDerivation_iff.mpr h with
    | ends hr => exact hs
    | keeps hdef hsame => exact hkeeps.ok hs hdef
    | drops hdef hdiffers => exact hI.log _ (hkeeps.ok hs hdef)
    | resumes hr hdef hlt => exact hI.resumed (hkeeps.error hs hdef) _ _
    | stops hr hdef hle => exact hkeeps.error hs hdef
  · intro s fault s' hs h
    cases nextDerivation_iff.mpr h

theorem document_keeps (hL : Located T S c) : Keeps (State.Sound T S) c document := by
  have hmany := (nextDefinition_keeps (State.Sound.lasting hL)).many
  constructor
  · intro s ns s' hs h
    rw [run_document] at h
    split at h <;> cases h
    have hs' := hmany.ok hs ‹_›
    unfold State.concluded
    split
    · have hempty := hs'.fault (f := ⟨.emptyDocument, c.eof⟩) hL.eof
      exact ⟨hempty.rest, hempty.last, hempty.faults⟩
    · exact ⟨hs'.rest, hs'.last, hs'.faults⟩
  · intro s fault s' hs h
    rw [run_document] at h
    split at h <;> cases h
    exact hmany.error hs ‹_›

/-! ## Findings -/

/-- A definition of a document that is read with some settings. -/
def IsDefinition (x : Settings) (T : Token → Prop) (S : Span → Prop) : Node → Prop :=
  GrownWithin x.maxNesting T S Rule.definitions

variable (hT : ∀ t, T t → t.IsSpelled) (hS : Joins T S)

include hT hS

theorem nextDefinition_finds : Finds T c nextDefinition
    fun ns? => ∀ ns ∈ ns?, ∀ n ∈ ns, IsDefinition c.settings T S n := by
  have hfinds : Finds T c definition (IsDefinition c.settings T S) := by
    intro s n s' taken h
    rw [definition_eq, run_within definitionWithin] at h
    exact (Composed.definitionWithin c.settings.maxNesting hT).finds hS s n s' taken h
  intro s ns? s' taken h hrest htaken horder
  cases nextDerivation_iff.mpr h with
  | ends hr | drops hdef hdiffers | resumes hr hdef hlt | stops hr hdef hle => simp
  | keeps hdef hsame => simpa using hfinds _ _ _ taken hdef hrest htaken horder

theorem document_finds : Finds T c document fun ns => ∀ n ∈ ns, IsDefinition c.settings T S n := by
  have hmany := (nextDefinition_finds hT hS (c := c)).many nextDefinition_advances
  intro s ns s' taken h hrest htaken horder n hn
  rw [run_document] at h
  split at h <;> cases h
  rename_i nss s'' hnss
  obtain ⟨ns, hns, hmem⟩ := List.mem_flatten.mp hn
  have hconcluded : (s''.concluded c s.rest.length nss.flatten).rest = s''.rest := by
    unfold State.concluded
    split <;> rfl
  exact hmany s nss s'' taken hnss (hconcluded ▸ hrest) htaken horder ns hns n hmem

/-- Definitions lie inside what was read. -/
theorem document_within {ns : List Node} (h : document c s = .ok ns s') (hrest : ∀ t ∈ s.rest, T t)
    (horder : InOrder s.rest) (n : Node) (hn : n ∈ ns) :
    IsDefinition c.settings (fun t => T t ∧ t.span.Inside ((s.place c).upTo s'.last))
      (fun r => S r ∧ r.Inside ((s.place c).upTo s'.last)) n := by
  obtain ⟨taken, htaken⟩ := (document_advances.ok h).rest
  rw [← htaken] at hrest horder
  cases taken with
  | nil =>
      -- Nothing is found where no token is taken.
      have hnone := document_finds (T := fun _ => False) (S := fun _ => False) (fun _ h => h.elim)
        (fun _ _ h => h.elim) s ns s' [] h htaken.symm (by simp) .nil n hn
      exact hnone.1.2.here.span.elim
  | cons t ts =>
      rw [document_advances.upTo h htaken.symm]
      refine document_finds (fun t h => hT t h.1) (hS.inside _) s ns s' (t :: ts) h htaken.symm
        (fun u hu => ⟨hrest u (List.mem_append_left _ hu), horder.left.inside hu⟩) horder.left n hn

end Grammar

open Grammar

/-- What is made of tokens that satisfy `T`: a tree in which every node has the parts its rule asks for
and covers them, and places that satisfy `S`. Condition groups and schedules lie no deeper than the
settings allow. -/
structure Parsed.Sound (x : Settings) (T : Token → Prop) (S : Span → Prop) (p : Parsed) : Prop where
  root : Grown T S [.sourceFile] p.tree.root
  nesting : ∀ n ∈ p.tree.root.nodes, n.nesting ≤ x.maxNesting
  faults : ∀ f ∈ p.faults, S f.span

theorem Tree.ofTokens_sound {T : Token → Prop} {S : Span → Prop} {settings : Settings}
    {tokens : List Token} (hT : ∀ t, T t → t.IsSpelled)
    (hL : Located T S ⟨settings, Tree.endOf tokens⟩) (horigin : S .origin)
    (htokens : ∀ t ∈ tokens, T t) (horder : InOrder tokens) :
    (Tree.ofTokens settings tokens).Sound settings T S := by
  have hS : Joins T S := fun t u ht hu _ => hL.upTo _ _ (hL.token t ht) (hL.token u hu)
  have hsignificant : ∀ t ∈ tokens.filter fun t => !t.isTrivia, T t := fun t ht =>
    htokens t (List.mem_filter.mp ht).1
  have hstart : ({ rest := tokens.filter fun t => !t.isTrivia } : State).Sound T S :=
    ⟨hsignificant, horigin, by simp⟩
  simp only [Tree.ofTokens, run_node, ← map_eq_bind, run_map]
  cases h : document ⟨settings, Tree.endOf tokens⟩ { rest := tokens.filter fun t => !t.isTrivia } with
  | ok ns s =>
      have hs := (document_keeps hL).ok hstart h
      have hns := document_within hT hS h hsignificant (horder.sublist List.filter_sublist)
      have hfills := (Fills.nodes fun n hn => (hns n hn).1).inside
      refine ⟨.of_fills (by simp) (hL.upTo _ _ (hstart.place hL) hs.last) hfills.1 hfills.2, ?_, hs.faults⟩
      intro n hn
      exact (hns n (by simpa [Node.nodes, Node.children] using hn)).2
  | error fault s =>
      have hs := (document_keeps hL).error hstart h
      refine ⟨.of_fills (by simp) horigin (.many_nil .nil) (by simp), ?_, hs.faults⟩
      simp [Node.nodes, Node.children, Element.nodes]

end Storyworld
