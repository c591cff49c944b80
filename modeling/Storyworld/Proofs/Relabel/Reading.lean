import Storyworld.Proofs.Document.Accounted
import Storyworld.Proofs.Document.SelfContained
import Storyworld.Proofs.Document.Truncation
import Storyworld.Proofs.Relabel.Definitions

namespace Storyworld

/-! Reading with other numerals. Where reading stops at the first fault and finds none, it reads the
same with the numerals exchanged, or it stops at one of those that do not fit. -/

theorem Settings.one_le_patience (x : Settings) : 1 ≤ x.patience := by
  unfold patience
  split
  · exact Nat.le_max_right _ _
  · exact Nat.le_refl 1

/-- The fault that a number that fitted was exchanged for one that does not. -/
def Relabelling.Spoils (w : Relabelling) (fault : SyntaxFault) : Prop :=
  ∃ t : Token, t.kind = .number ∧ (Text.Integer.word? t.text.toList).isSome ∧
    (Text.Integer.word? (w.token t).text.toList).isNone ∧
    fault = ⟨.malformedNumber (w.token t).text, (w.token t).span⟩

namespace Grammar

variable {w : Relabelling} {c : Context} {s s' : State} {α β : Type}

/-! ## States -/

namespace State

/-- The tokens left, relabelled. -/
def relabelled (w : Relabelling) (s : State) : State :=
  { s with rest := s.rest.map w.token }

@[simp] theorem relabelled_rest : (s.relabelled w).rest = s.rest.map w.token := rfl

@[simp] theorem relabelled_depth : (s.relabelled w).depth = s.depth := rfl

@[simp] theorem relabelled_faults : (s.relabelled w).faults = s.faults := rfl

@[simp] theorem relabelled_last : (s.relabelled w).last = s.last := rfl

theorem relabelled_advance (hw : w.Stays) :
    (s.relabelled w).advance = s.advance.relabelled w := by
  cases hr : s.rest <;> simp [relabelled, advance, hr, Relabelling.token, hw _, depthAfter]

theorem relabelled_place (hw : w.Stays) : (s.relabelled w).place c = s.place c := by
  cases hr : s.rest <;> simp [relabelled, place, hr, Relabelling.token, hw _]

end State

/-! ## Runs up to the first fault -/

/-- Where `p` succeeds it finds no fault, and `q` reads the same of the exchanged tokens or stops at
one that does not fit. -/
structure Rereads (w : Relabelling) (c : Context) (e : α → α) (p q : Parse α) : Prop where
  run : ∀ {s a s'}, p c s = .ok a s' → s'.faults = s.faults ∧
    (q c (s.relabelled w) = .ok (e a) (s'.relabelled w) ∨
      ∃ fault t, q c (s.relabelled w) = .error fault t ∧ t.faults = s.faults ∧ w.Spoils fault)

namespace Rereads

variable {d : α → α} {e : β → β} {p q : Parse α} {f g : α → Parse β}

theorem done {a b : α} (h : b = d a) : Rereads w c d (pure a) (pure b) := by
  refine ⟨fun {s a' s'} hp => ?_⟩
  cases hp
  exact ⟨rfl, .inl (by rw [h]; rfl)⟩

theorem bind (hp : Rereads w c d p q) (hf : ∀ a, Rereads w c e (f a) (g (d a))) :
    Rereads w c e (p >>= f) (q >>= g) := by
  refine ⟨fun {s b s''} h => ?_⟩
  rw [run_bind] at h ⊢
  cases hps : p c s with
  | error fault s' => simp [hps] at h
  | ok a s' =>
      rw [hps] at h
      obtain ⟨hfaults, hq⟩ := hp.run hps
      obtain ⟨hfaults', hg⟩ := (hf a).run h
      refine ⟨hfaults'.trans hfaults, ?_⟩
      rcases hq with hq | ⟨fault, t, hq, ht, hspoils⟩
      · rw [hq]
        simpa [hfaults] using hg
      · exact .inr ⟨fault, t, by rw [hq], ht, hspoils⟩

/-- A parser that never succeeds. -/
theorem fails {γ : Context → State → SyntaxFault} (h : ∀ c s, p c s = .error (γ c s) s) :
    Rereads w c d p q := by
  refine ⟨fun {s a s'} hp => ?_⟩
  rw [h] at hp
  cases hp

theorem look {f : List Token → Bool} (h : ∀ ts, f (ts.map w.token) = f ts) :
    Rereads w c id (looking f) (looking f) := by
  refine ⟨fun {s a s'} hp => ?_⟩
  cases hp
  exact ⟨rfl, .inl (by simp [h])⟩

/-! ## Tokens -/

theorem advance (hw : w.Stays) : Rereads w c id advance advance := by
  refine ⟨fun {s a s'} h => ?_⟩
  cases h
  exact ⟨advance_faults, .inl (by rw [run_advance, State.relabelled_advance hw])⟩

theorem expectThen (hw : w.Stays) {f g : Token → Parse β} {expected : List String}
    {accept : Token → Bool}
    (h : ∀ t, accept (w.token t) = accept t)
    (hf : ∀ t, accept t →
      Rereads w c e (f t) (g (w.token t))) :
    Rereads w c e (expect expected accept >>= f)
      (expect expected accept >>= g) := by
  refine ⟨fun {s b s'} hp => ?_⟩
  rw [run_bind] at hp
  cases hs : expect expected accept c s with
  | error fault s₁ => simp [hs] at hp
  | ok t s₁ =>
      rw [hs] at hp
      obtain ⟨rest, hr, ht, rfl⟩ := expect_ok hs
      have hr' : (s.relabelled w).rest =
          w.token t ::
            rest.map w.token := by
        rw [State.relabelled_rest, hr, List.map_cons]
      rw [run_bind, expect_of_cons hr' ((h t).trans ht), State.relabelled_advance hw]
      simpa using (hf t ht).run hp

/-- A number is read where it fits. -/
theorem number (hw : w.Stays) : Rereads w c w.token number number := by
  refine ⟨fun {s t s'} hp => ?_⟩
  obtain ⟨rest, hr, hk, hword, rfl⟩ := number_ok hp
  have hr' : (s.relabelled w).rest =
      w.token t ::
        rest.map w.token := by
    rw [State.relabelled_rest, hr, List.map_cons]
  have hk' : (w.token t).kind = .number := hk
  refine ⟨advance_faults, ?_⟩
  rw [run_number, hr']
  simp only [hk', if_true]
  split
  · exact .inr ⟨_, _, rfl, by simp, t, hk, hword, ‹_›, rfl⟩
  · exact .inl (by rw [State.relabelled_advance hw])

/-! ## Nodes, lists and blocks -/

theorem nodeBy (hw : w.Stays) {p q : Parse (Rule × List Element)}
    (h : Rereads w c w.parts p q) :
    Rereads w c w.node (nodeBy p) (nodeBy q) := by
  refine ⟨fun {s n s'} hp => ?_⟩
  rw [run_nodeBy] at hp
  cases hps : p c s with
  | error fault s₁ => simp [hps] at hp
  | ok x s₁ =>
      rw [hps] at hp
      cases hp
      obtain ⟨hfaults, hq⟩ := h.run hps
      refine ⟨hfaults, ?_⟩
      rw [run_nodeBy]
      rcases hq with hq | ⟨fault, t, hq, ht, hspoils⟩
      · refine .inl ?_
        rw [hq, State.relabelled_place hw, Relabelling.node, hw]
        rfl
      · exact .inr ⟨fault, t, by rw [hq], ht, hspoils⟩

theorem collect {p q : Parse (Option α)} (h : Rereads w c (Option.map d) p q) (n : Nat) :
    Rereads w c (List.map d) (collect p n) (collect q n) := by
  induction n with
  | zero => exact done rfl
  | succ n ih =>
      refine h.bind fun a? => ?_
      cases a? with
      | none => exact done rfl
      | some a => exact ih.bind fun as => done rfl

theorem many {p q : Parse (Option α)} (h : Rereads w c (Option.map d) p q) :
    Rereads w c (List.map d) (many p) (many q) := by
  refine ⟨fun {s as s'} hp => ?_⟩
  rw [run_many] at hp
  have hcollect := (h.collect _).run hp
  rwa [run_many, State.relabelled_rest, List.length_map]

/-- Where reading stops at the first fault, a round of a block ends with it. -/
theorem round (hw : w.Stays) {p q : Parse Node} (hc : c.settings.resyncs = false)
    (h : Rereads w c w.node p q) (depth : Nat)
    (starters : List String) :
    Rereads w c (Option.map (List.map w.node))
      (round depth starters p) (round depth starters q) := by
  have hrest {s : State} {u : Token} {rest : List Token} (hr : s.rest = u :: rest) :
      (s.relabelled w).rest = w.token u :: rest.map w.token := by
    rw [State.relabelled_rest, hr, List.map_cons]
  have hspent (n : Nat) : c.settings.patience ≤ n + 1 := by simp [Settings.patience, hc]
  refine ⟨fun {s ns? s'} hp => ?_⟩
  cases roundDerivation_iff.mpr hp with
  | outside hd => exact ⟨rfl, .inl (RoundDerivation.outside (s := s.relabelled w) hd).execution⟩
  | closes hd hr hu =>
      refine ⟨advance_faults, .inl ?_⟩
      rw [(RoundDerivation.closes (s := s.relabelled w) hd (hrest hr) hu).execution,
        State.relabelled_advance hw]
      rfl
  | reads hd hr hu hps =>
      obtain ⟨hfaults, hq | ⟨fault, t, hq, ht, hspoils⟩⟩ := h.run hps
      · exact ⟨hfaults, .inl (RoundDerivation.reads (s := s.relabelled w) hd (hrest hr) hu hq).execution⟩
      · exact ⟨hfaults, .inr ⟨fault, t,
          (RoundDerivation.fails (s := s.relabelled w) hd (hrest hr) hu hq (hspent _)).execution, ht,
          hspoils⟩⟩
  | resumes _ _ _ _ hlt => exact absurd (hspent _) (Nat.not_le.mpr hlt)

theorem block (hw : w.Stays) {p q : Parse Node} (hc : c.settings.resyncs = false)
    (h : Rereads w c w.node p q)
    (starters : List String) :
    Rereads w c (List.map w.node)
      (block starters p) (block starters q) := by
  rw [block_eq, block_eq]
  refine bind (d := id) ?_ fun _ => bind (d := id) ?_ fun depth => ?_
  · rw [mark, discard_eq_bind]
    exact expectThen hw (fun _ => rfl) fun _ _ => done rfl
  · refine ⟨fun {s a s'} hp => ?_⟩
    cases hp
    exact ⟨rfl, .inl rfl⟩
  · exact (round hw hc h depth starters).many.bind fun nss => done List.map_flatten.symm

end Rereads

/-- A parser that goes by kinds and reserved words rereads what it reads. -/
theorem Uniform.rereads (hw : w.Stays) {d : α → α} {p q : Parse α}
    (hc : c.settings.resyncs = false) (h : Uniform w d p q) : Rereads w c d p q := by
  induction h with
  | done h => exact .done h
  | bind _ _ hp hf => exact hp.bind hf
  | within _ h => exact ⟨(h c.settings.maxNesting).run⟩
  | look f h => exact .look h
  | advance => exact .advance hw
  | take expected accept h _ hf => exact .expectThen hw h hf
  | number => exact .number hw
  | unexpected expected => exact .fails fun _ _ => run_unexpected expected
  | failHere cause => exact .fails fun _ _ => run_failHere cause
  | nodeBy _ h => exact .nodeBy hw h
  | many _ h => exact h.many
  | block starters _ h => exact .block hw hc h starters

/-! ## Definitions -/

section

variable {c' : Context} {t : State} {nss : List (List Node)} {n : Node}

/-- A definition that was read without a fault, perhaps with other settings. -/
theorem definition_rereads (hw : w.Stays) (hc : c'.settings.resyncs = false)
    (hlevels : c'.settings.maxNesting = c.settings.maxNesting) (h : Clean definition c s n s')
    (ht : t.rest = s.rest) :
    (∃ t' : State, definition c' (t.relabelled w) =
        .ok (w.node n) (t'.relabelled w) ∧
      t'.rest = s'.rest ∧ t'.faults = t.faults) ∨
    ∃ (fault : SyntaxFault) (t' : State), definition c' (t.relabelled w) = .error fault t' ∧
      t'.faults = t.faults ∧ w.Spoils fault := by
  have hwhole : Whole c c' s'.rest s'.rest definition := .definition hlevels
  obtain ⟨x, hx, -, -⟩ := (definition_composed.advances.ok h.run).taken
  obtain ⟨t', hclean, hrest⟩ := hwhole.same h hx rfl (ht.trans hx)
  obtain ⟨-, hq | hq⟩ := (Uniform.definition.rereads hw hc).run hclean.run
  · exact .inl ⟨t', hq, hrest, hclean.faults⟩
  · exact .inr hq

/-- Definitions are reread one by one, up to the first number that does not fit. -/
theorem definitions_reread (hw : w.Stays) (hc : c'.settings.resyncs = false)
    (hlevels : c'.settings.maxNesting = c.settings.maxNesting)
    (h : Clean (many nextDefinition) c s nss s') (ht : t.rest = s.rest) :
    ∃ nss' t', many nextDefinition c' (t.relabelled w) = .ok nss' t' ∧
      (nss' = nss.map (List.map w.node) ∧ t'.faults = t.faults ∨
        ∃ fault, t'.faults = t.faults ++ [fault] ∧
          w.Spoils fault) := by
  induction nss generalizing s t with
  | nil =>
      rcases h.of_many nextDefinition_productive nextDefinition_advances with
        ⟨-, hnone⟩ | ⟨_, _, _, heq, -, -⟩
      · rcases hnone.of_nextDefinition with ⟨-, hrest, -⟩ | ⟨n, heq, -⟩
        · refine ⟨[], t.relabelled w, ?_, .inl ⟨rfl, rfl⟩⟩
          rw [run_many_step nextDefinition_productive,
            (NextDerivation.ends (by simp [ht, hrest])).execution]
        · cases heq
      · cases heq
  | cons ns nss ih =>
      rcases h.of_many nextDefinition_productive nextDefinition_advances with
        ⟨heq, -⟩ | ⟨_, _, s₁, heq, hsome, hmany⟩
      · cases heq
      cases heq
      rcases hsome.of_nextDefinition with ⟨heq, -, -⟩ | ⟨n, heq, hdef⟩
      · cases heq
      cases heq
      have hne : t.rest ≠ [] := by
        intro hnil
        have hlt := definition_composed.advances.shorter hdef.run rfl
        simp [← ht, hnil] at hlt
      rcases definition_rereads hw hc hlevels hdef ht with
        ⟨t₁, hq, hrest, hfaults⟩ | ⟨fault, t₁, hq, hfaults, hspoils⟩
      · obtain ⟨nss', t', hmany', hend⟩ := ih hmany hrest
        refine ⟨[w.node n] :: nss', t', ?_, ?_⟩
        · rw [run_many_step nextDefinition_productive, nextDefinition_of_clean ⟨hq, hfaults⟩]
          simp only [hmany']
        · rw [hfaults] at hend
          simpa using hend
      · have hspoilt : (t₁.faulted fault).faults = t.faults ++ [fault] := by
          rw [State.faulted, hfaults]
        refine ⟨[], t₁.faulted fault, ?_, .inr ⟨fault, hspoilt, hspoils⟩⟩
        rw [run_many_step nextDefinition_productive,
          (NextDerivation.stops (by simpa using hne) hq (by simp [Settings.patience, hc])).execution]

end

end Grammar

open Grammar

namespace Tree

variable {w : Relabelling} {x : Settings} {tokens tokens' : List Token}

/-- Tokens that are read without a fault are read the same with their numerals exchanged, unless one
of these does not fit: the first fault is then one of that kind. -/
theorem ofTokens_relabelled (hw : w.Stays) (h : (ofTokens x tokens).faults = [])
    (hsame : significant tokens' =
      (significant tokens).map w.token) :
    (ofTokens x tokens').faults = [] ∧
        (ofTokens x tokens').tree.root.nodes =
          (ofTokens x tokens).tree.root.nodes.map w.node ∨
      ∃ fault, (ofTokens x tokens').faults.head? = some fault ∧
        w.Spoils fault := by
  let y : Settings := { x with recovery := .abort }
  obtain ⟨nss, s, hread⟩ := definitions_ok ⟨x, endOf tokens⟩ { rest := significant tokens }
  have hfaults : s.faults = [] := List.prefix_nil.mp (h ▸ faults_of_definitions hread)
  have hne : nss.flatten ≠ [] := by
    rintro hnil
    rw [ofTokens_eq hread] at h
    simp [State.concluded, hnil, hfaults, State.faulted] at h
  obtain ⟨hchildren, -⟩ := ofTokens_of_definitions hread (.inl hne)
  have hstart : State.relabelled w { rest := significant tokens } =
      { rest := significant tokens' } := by
    rw [hsame]
    rfl
  have hstrict : (⟨y, endOf tokens'⟩ : Context).settings.resyncs = false := rfl
  have hlevels : (⟨y, endOf tokens'⟩ : Context).settings.maxNesting =
      (⟨x, endOf tokens⟩ : Context).settings.maxNesting := rfl
  have hclean : Clean (many nextDefinition) ⟨x, endOf tokens⟩ { rest := significant tokens }
      nss s := ⟨hread, hfaults⟩
  obtain ⟨nss', s', hread', hend⟩ := definitions_reread hw hstrict hlevels hclean rfl
  rw [hstart] at hread'
  have hpatience : y.patience = 1 := rfl
  have hlasting := ofTokens_outlasted y x tokens' rfl (hpatience ▸ x.one_le_patience)
    (hpatience ▸ Nat.one_pos)
  rcases hend with ⟨rfl, hnone⟩ | ⟨fault, hspoilt, hspoils⟩
  · have hne' : (nss.map (List.map w.node)).flatten ≠ [] := by
      rwa [← List.map_flatten, ne_eq, List.map_eq_nil_iff]
    obtain ⟨hchildren', hfaults'⟩ := ofTokens_of_definitions hread' (.inl hne')
    replace hfaults' : (ofTokens y tokens').faults = [] := hfaults'.trans hnone
    rcases hlasting with ⟨heq, -⟩ | ⟨-, hlength, -⟩
    · refine .inl ⟨by rw [heq, hfaults'], ?_⟩
      rw [heq, Node.nodes, Node.nodes, hchildren', hchildren, Element.nodes_map, Element.nodes_map,
        List.map_flatten]
    · simp [hfaults', hpatience] at hlength
  · obtain ⟨-, hfaults'⟩ := ofTokens_of_definitions hread' (.inr (by simp [hspoilt]))
    replace hfaults' : (ofTokens y tokens').faults = [fault] := hfaults'.trans hspoilt
    refine .inr ⟨fault, ?_, hspoils⟩
    rcases hlasting with ⟨heq, -⟩ | ⟨-, -, hprefix, -⟩
    · rw [heq, hfaults']
      rfl
    · obtain ⟨more, hmore⟩ := hprefix
      rw [← hmore, hfaults']
      rfl

end Tree

end Storyworld
