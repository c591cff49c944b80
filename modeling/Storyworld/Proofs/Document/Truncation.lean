import Storyworld.Outcome
import Storyworld.Proofs.Document.Segments
import Storyworld.Proofs.Grammar.Patience

namespace Storyworld

/-! How many syntax faults are collected decides where reading a source ends, and nothing else: with
a smaller budget the same faults and definitions are found, up to the fault that spends it. -/

namespace Grammar

variable {c c' : Context} {s s' s'' : State} {nss nss' : List (List Node)}

/-- Nothing that `definition` finds at fault is forgotten. -/
theorem nextDefinition_faults_kept {ns? : Option (List Node)} (hs : s.rest ≠ [])
    (h : Reaches definition c s s') (hnext : nextDefinition c s = .ok ns? s'') :
    s'.faults <+: s''.faults := by
  rcases h with ⟨n, h⟩ | ⟨fault, h⟩ <;> cases nextDerivation_iff.mpr hnext <;>
    simp_all [State.faulted]

theorem definitions_faults_kept {ns? : Option (List Node)}
    (hnext : nextDefinition c s = .ok ns? s') (h : many nextDefinition c s = .ok nss s'') :
    s'.faults <+: s''.faults := by
  rw [run_many_step nextDefinition_productive, hnext] at h
  cases ns? with
  | none =>
      cases h
      exact List.prefix_rfl
  | some ns =>
      simp only at h
      split at h <;> cases h
      exact (nextDefinition_advances.many.ok ‹_›).faults

/-- The next definition is the same with more patience, unless its fault ends the patience: then
reading goes on behind the fault. -/
theorem nextDefinition_outlasted {ns? : Option (List Node)} (hc : c'.Outlasts c)
    (hs : s.faults.length < c.settings.patience) (h : nextDefinition c s = .ok ns? s') :
    (nextDefinition c' s = .ok ns? s' ∧ s'.faults.length ≤ c.settings.patience ∧
        (ns?.isSome → s'.faults.length < c.settings.patience)) ∨
      (ns? = none ∧ c.settings.patience < c'.settings.patience ∧
        s'.faults.length = c.settings.patience ∧
        ∃ ns?' s'', nextDefinition c' s = .ok ns?' s'' ∧ s'.faults <+: s''.faults) := by
  have houtlives := definition_composed.outlives hc
  have hpatience := hc.patience
  have hlt {s'} (hreach : Reaches definition c s s') : s'.faults.length < c.settings.patience :=
    definition_composed.patient.lt hs hreach
  cases nextDerivation_iff.mpr h with
  | ends hr => exact .inl ⟨(NextDerivation.ends hr).execution, hs.le, by simp⟩
  | keeps hdef hsame =>
      have hs' := hlt (.of_ok hdef)
      exact .inl ⟨(NextDerivation.keeps (houtlives.ok hdef) hsame).execution, hs'.le, fun _ => hs'⟩
  | drops hdef hdiffers =>
      have hs' := hlt (.of_ok hdef)
      exact .inl ⟨(NextDerivation.drops (houtlives.ok hdef) hdiffers).execution, hs'.le, fun _ => hs'⟩
  | @resumes hr fault s₁ hdef hmore =>
      rcases houtlives.error hdef with hsame | hon
      · exact .inl ⟨(NextDerivation.resumes hr hsame (by omega)).execution, by simpa using hmore.le,
          fun _ => by simpa using hmore⟩
      · have hspent : c.settings.patience ≤ (s₁.faulted fault).faults.length := hon.spent
        rw [length_faulted] at hspent
        omega
  | @stops hr fault s₁ hdef hle =>
      have hlength : (s₁.faulted fault).faults.length = c.settings.patience := by
        have hs₁ := hlt (.of_error hdef)
        rw [length_faulted]
        omega
      rcases houtlives.error hdef with hsame | hon
      · rcases Nat.lt_or_ge (s₁.faults.length + 1) c'.settings.patience with hmore | hle'
        · exact .inr ⟨rfl, by omega, hlength, _, _, (NextDerivation.resumes hr hsame hmore).execution,
            by simp⟩
        · exact .inl ⟨(NextDerivation.stops hr hsame hle').execution, hlength.le, by simp⟩
      · obtain ⟨s₂, hreach, hprefix⟩ := hon.reaches
        obtain ⟨ns?', s₃, hnext⟩ := nextDefinition_ok c' s
        exact .inr ⟨rfl, hon.lt, hlength, ns?', s₃, hnext,
          hprefix.trans (nextDefinition_faults_kept hr hreach hnext)⟩

/-- Reading goes the same way with more patience, and where the patience ends it goes on from the
faults and the definitions found up to there. -/
theorem definitions_outlasted (hc : c'.Outlasts c) (hs : s.faults.length < c.settings.patience)
    (h : many nextDefinition c s = .ok nss s') (h' : many nextDefinition c' s = .ok nss' s'') :
    (nss' = nss ∧ s'' = s' ∧ s'.faults.length ≤ c.settings.patience) ∨
      (c.settings.patience < c'.settings.patience ∧ s'.faults.length = c.settings.patience ∧
        s'.faults <+: s''.faults ∧ nss <+: nss') := by
  induction nss generalizing s nss' with
  | nil =>
      rcases many_cases nextDefinition_productive h with ⟨-, hnext⟩ | ⟨_, _, _, heq, -, -⟩
      · rcases nextDefinition_outlasted hc hs hnext with
          ⟨hsame, hle, -⟩ | ⟨-, hlt, hlength, ns?, s₁, hnext', hprefix⟩
        · rw [run_many_step nextDefinition_productive, hsame] at h'
          cases h'
          exact .inl ⟨rfl, rfl, hle⟩
        · exact .inr ⟨hlt, hlength, hprefix.trans (definitions_faults_kept hnext' h'),
            List.nil_prefix⟩
      · cases heq
  | cons ns nss ih =>
      rcases many_cases nextDefinition_productive h with ⟨heq, -⟩ | ⟨_, _, s₁, heq, hnext, hmore⟩
      · cases heq
      cases heq
      rcases nextDefinition_outlasted hc hs hnext with ⟨hsame, -, hs₁⟩ | ⟨heq, -⟩
      · rw [run_many_step nextDefinition_productive, hsame] at h'
        simp only at h'
        split at h' <;> cases h'
        rcases ih (hs₁ rfl) hmore ‹_› with ⟨rfl, hsame, hle⟩ | ⟨hlt, hlength, hprefix, hnss⟩
        · exact .inl ⟨rfl, hsame, hle⟩
        · exact .inr ⟨hlt, hlength, hprefix, List.cons_prefix_cons.mpr ⟨rfl, hnss⟩⟩
      · cases heq

end Grammar

open Grammar

namespace Tree

/-- Reading with more patience gives the same, or more behind the fault that ended it before. -/
theorem ofTokens_outlasted (x x' : Settings) (tokens : List Token)
    (hlevels : x'.maxNesting = x.maxNesting) (hpatience : x.patience ≤ x'.patience)
    (hpos : 0 < x.patience) :
    (ofTokens x' tokens = ofTokens x tokens ∧ (ofTokens x tokens).faults.length ≤ x.patience) ∨
      (x.patience < x'.patience ∧ (ofTokens x tokens).faults.length = x.patience ∧
        (ofTokens x tokens).faults <+: (ofTokens x' tokens).faults ∧
        (ofTokens x tokens).tree.root.children <+: (ofTokens x' tokens).tree.root.children) := by
  obtain ⟨nss, s, h⟩ := definitions_ok ⟨x, endOf tokens⟩ { rest := significant tokens }
  obtain ⟨nss', s', h'⟩ := definitions_ok ⟨x', endOf tokens⟩ { rest := significant tokens }
  have hc : Context.Outlasts ⟨x', endOf tokens⟩ ⟨x, endOf tokens⟩ := ⟨rfl, hlevels, hpatience⟩
  have hstart : ({ rest := significant tokens } : State).faults.length < x.patience := by
    simpa using hpos
  rcases definitions_outlasted hc hstart h h' with ⟨rfl, rfl, hle⟩ | ⟨hlt, hspent, hfaults, hnss⟩
  · refine .inl ⟨by rw [ofTokens_eq h, ofTokens_eq h']; rfl, ?_⟩
    rw [ofTokens_eq h]
    simp only [State.concluded]
    split
    · simp_all
      omega
    · exact hle
  · have hne : s.faults ≠ [] := by
      rintro hnil
      simp [hnil] at hspent
      omega
    have hne' : s'.faults ≠ [] := fun hnil => hne (List.prefix_nil.mp (hnil ▸ hfaults))
    obtain ⟨hchildren, hsame⟩ := ofTokens_of_definitions h (.inr hne)
    obtain ⟨hchildren', hsame'⟩ := ofTokens_of_definitions h' (.inr hne')
    rw [hsame, hsame', hchildren, hchildren']
    obtain ⟨nss'', rfl⟩ := hnss
    rw [List.flatten_append, List.map_append]
    exact .inr ⟨hlt, hspent, hfaults, List.prefix_append _ _⟩

/-- With a smaller budget for syntax faults, reading finds the first of the faults and of the
definitions found with a greater one. A budget of zero is one of one, and stopping at the first
fault is reading with a budget of one. -/
theorem ofTokens_faults_take (x : Settings) (tokens : List Token) :
    (∀ m n, 1 ≤ m → m ≤ n →
      (ofTokens { x with recovery := .resync, maxErrors := m } tokens).faults =
          (ofTokens { x with recovery := .resync, maxErrors := n } tokens).faults.take m ∧
        (ofTokens { x with recovery := .resync, maxErrors := m } tokens).tree.root.children <+:
          (ofTokens { x with recovery := .resync, maxErrors := n } tokens).tree.root.children) ∧
    ofTokens { x with recovery := .resync, maxErrors := 0 } tokens =
      ofTokens { x with recovery := .resync, maxErrors := 1 } tokens ∧
    ∀ m, ofTokens { x with recovery := .abort, maxErrors := m } tokens =
      ofTokens { x with recovery := .resync, maxErrors := 1 } tokens := by
  have hresync (m : Nat) :
      ({ x with recovery := .resync, maxErrors := m } : Settings).patience = max m 1 := by
    simp [Settings.patience, Settings.resyncs, Settings.faultBudget]
  have habort (m : Nat) :
      ({ x with recovery := .abort, maxErrors := m } : Settings).patience = 1 := by
    simp [Settings.patience, Settings.resyncs]
  refine ⟨fun m n hm hn => ?_, ?_, fun m => ?_⟩
  · have hpatience : ({ x with recovery := .resync, maxErrors := m } : Settings).patience = m := by
      rw [hresync]
      omega
    rcases ofTokens_outlasted { x with recovery := .resync, maxErrors := m }
      { x with recovery := .resync, maxErrors := n } tokens rfl (by simp only [hresync]; omega)
      (by omega) with ⟨hsame, hle⟩ | ⟨-, hlength, hfaults, hchildren⟩
    · rw [hsame, List.take_of_length_le (hle.trans_eq hpatience)]
      exact ⟨rfl, List.prefix_rfl⟩
    · have htake := List.prefix_iff_eq_take.mp hfaults
      rw [hlength, hpatience] at htake
      exact ⟨htake, hchildren⟩
  · rcases ofTokens_outlasted { x with recovery := .resync, maxErrors := 1 }
      { x with recovery := .resync, maxErrors := 0 } tokens rfl (by simp [hresync])
      (by simp [hresync]) with ⟨hsame, -⟩ | ⟨hlt, -⟩
    · exact hsame
    · simp [hresync] at hlt
  · rcases ofTokens_outlasted { x with recovery := .resync, maxErrors := 1 }
      { x with recovery := .abort, maxErrors := m } tokens rfl (by simp [hresync, habort])
      (by simp [hresync]) with ⟨hsame, -⟩ | ⟨hlt, -⟩
    · exact hsame
    · simp [hresync, habort] at hlt

theorem ofTokens_faults_take_rooms :
    (1 ≤ 2 ∧ 2 ≤ 50 ∧ (ofTokens {} (Lexer.tokensOf
      "room a \x7b name 1 name 2 \x7d npc b \x7b \x7d room c \x7b name 3 \x7d")).faults.length = 3) ∧
    (ofTokens { maxErrors := 2 } (Lexer.tokensOf
        "room a \x7b name 1 name 2 \x7d npc b \x7b \x7d room c \x7b name 3 \x7d")).faults =
      (ofTokens {} (Lexer.tokensOf
        "room a \x7b name 1 name 2 \x7d npc b \x7b \x7d room c \x7b name 3 \x7d")).faults.take 2 := by
  refine ⟨by decide +kernel, ?_⟩
  exact ((ofTokens_faults_take {} (Lexer.tokensOf
    "room a \x7b name 1 name 2 \x7d npc b \x7b \x7d room c \x7b name 3 \x7d")).1 2 50
      (by decide) (by decide)).1

end Tree

end Storyworld

namespace Storyworld

/-! ## The first fault

Reading a source up to its first fault gives what reading all of it gives, as long as only the
document of a source without a fault and the first fault are asked for. -/

namespace Outcome

variable {o : Outcome} {fault : Fault} {document : Document}

theorem result_eq_error : o.result = .error fault ↔ o.faults.head? = some fault := by
  unfold result
  rcases o with ⟨_ | document, _ | ⟨first, faults⟩, warnings, log⟩ <;> simp

theorem result_eq_ok (h : o.faults = [] → o.document.isSome) :
    o.result = .ok document ↔ o.faults = [] ∧ o.document = some document := by
  unfold result
  rcases o with ⟨_ | document, _ | ⟨first, faults⟩, warnings, log⟩ <;> simp_all

/-- Without a fault there is a document. -/
theorem isSome_document_of_faults (settings : Settings) (source : List Char)
    (h : (ofSource settings source).faults = []) : (ofSource settings source).document.isSome := by
  unfold ofSource at h ⊢
  split at h
  · cases h
  · simp_all [ofTokens]

/-- The syntax faults come first. -/
theorem head?_faults_of_syntactic {settings : Settings} {tokens : List Token} {first : SyntaxFault}
    (h : (Tree.ofTokens settings tokens).faults.head? = some first) :
    (ofTokens settings tokens).faults.head? = some (.syntactic first) := by
  simp [ofTokens, List.head?_append, h]

/-- The result does not depend on whether reading goes on behind the first fault. -/
theorem result_strict (tokens : List Token) :
    (ofTokens .strict tokens).result = (ofTokens {} tokens).result := by
  rcases Tree.ofTokens_outlasted .strict {} tokens rfl (by decide) (by decide) with
    ⟨hsame, -⟩ | ⟨-, hlength, hfaults, -⟩
  · -- The trees are built on the same number of levels.
    have hbuilt (tree : Tree) : Built.ofTree .strict tree = Built.ofTree {} tree := rfl
    have hlint (tree : Tree) : Lint.check .strict tree = Lint.check {} tree := rfl
    simp only [ofTokens, hsame, hbuilt, hlint]
  · obtain ⟨first, hfirst⟩ := List.length_eq_one_iff.mp hlength
    obtain ⟨more, hmore⟩ := hfaults
    have hhead : (Tree.ofTokens {} tokens).faults.head? = some first := by
      simp [← hmore, hfirst]
    have hhead' : (Tree.ofTokens .strict tokens).faults.head? = some first := by simp [hfirst]
    rw [result_eq_error.mpr (head?_faults_of_syntactic hhead),
      result_eq_error.mpr (head?_faults_of_syntactic hhead')]

end Outcome

namespace Document

/-- Reading up to the first fault agrees with reading all of the source: it gives a document where
no fault is found at all, which is then the same, and the first of the faults where some are. -/
theorem ofSource_eq_result (source : List Char) :
    ofSource source = (Outcome.ofSource {} source).result ∧
      (∀ document, ofSource source = .ok document ↔
        (Outcome.ofSource {} source).faults = [] ∧
          (Outcome.ofSource {} source).document = some document) ∧
      ∀ fault, ofSource source = .error fault ↔
        (Outcome.ofSource {} source).faults.head? = some fault := by
  have hsame : ofSource source = (Outcome.ofSource {} source).result := by
    unfold ofSource Outcome.ofSource
    cases Lexer.tokens source with
    | error fault => rfl
    | ok tokens => exact Outcome.result_strict tokens
  rw [hsame]
  apply And.intro rfl
  constructor
  · intro document
    exact Outcome.result_eq_ok (Outcome.isSome_document_of_faults {} source)
  · intro fault
    exact Outcome.result_eq_error

/-- A source with a syntax fault and, in front of it, a definition that cannot be built. -/
example :
    (match ofSource "goal g \x7b \x7d room a \x7b name 1 \x7d".toList with
      | .error (.syntactic _) => true
      | _ => false) = true := by
  decide +kernel

end Document

end Storyworld
