import Storyworld.Proofs.Document.SelfContained
import Storyworld.Proofs.Laying.Triggers

namespace Storyworld

/-! What becomes of the tokens of a source. The nodes of its tree lie over the tokens that were read,
one behind the other and one inside the other; and where no fault was found, every token is part of
one definition. -/

theorem InOrder.nodup {ts : List Token} (h : InOrder ts) : ts.Nodup := by
  refine h.pairwise.imp_of_mem fun {t u} ht _ hle heq => ?_
  have hlt := h.lt t ht
  rw [← heq] at hle
  omega

namespace Grammar

variable {c : Context} {s s' : State} {n : Node} {nss : List (List Node)}

/-! ## Definitions over the tokens that were read -/

theorem definition_laid : LaysTaken [] (fun n => [.node n]) definition := by
  intro c s n s' h
  rw [definition_eq, run_within definitionWithin] at h
  exact (Lays.definitionWithin (k := true) c.settings.maxNesting).laid c s n s' h

theorem nextDefinition_laid :
    LaysTaken [] (fun ns? => ns?.elim [] fun ns => ns.map .node) nextDefinition := by
  intro c s ns? s' h before taken htaken hpre
  cases nextDerivation_iff.mpr h with
  | ends hr | drops hdef hdiffers | resumes hr hdef hlt | stops hr hdef hle => exact overIn_nil
  | keeps hdef hsame => exact definition_laid c s _ s' hdef before taken htaken hpre

/-- The definitions that are found lie among the tokens that are read. -/
theorem definitions_laid (h : many nextDefinition c s = .ok nss s') {taken : List Token}
    (htaken : s.rest = taken ++ s'.rest) : OverIn taken (nss.flatten.map .node) := by
  rw [List.map_flatten, ← List.flatMap_def]
  exact nextDefinition_laid.many nextDefinition_advances c s nss s' h [] taken htaken overIn_nil

/-! ## Reading without a fault -/

/-- Where no fault is recorded, the next definition is read or there are no more tokens. -/
theorem Clean.of_nextDefinition {ns? : Option (List Node)} (h : Clean nextDefinition c s ns? s') :
    ns? = none ∧ s.rest = [] ∧ s' = s ∨ ∃ n, ns? = some [n] ∧ Clean definition c s n s' := by
  have hadv := definition_composed.advances
  have hfaults := h.faults
  have hlength := congrArg List.length hfaults
  cases nextDerivation_iff.mpr h.run with
  | ends hr => exact .inl ⟨rfl, hr, rfl⟩
  | keeps hdef hsame => exact .inr ⟨_, rfl, hdef, hfaults⟩
  | drops hdef hdiffers =>
      -- A definition is left out only where a fault was recorded in it.
      exact absurd hlength hdiffers
  | resumes hr hdef hlt | stops hr hdef hle =>
      have hle := (hadv.error hdef).faults.length_le
      simp only [resumed_faults, length_faulted] at hlength
      omega

/-- A definition lies over the tokens it took. -/
theorem definition_over {taken : List Token} (h : definition c s = .ok n s')
    (htaken : s.rest = taken ++ s'.rest) : (Element.node n).Over taken := by
  have hadv := definition_composed.advances
  have hspan := (Covers.definition c s n s' h).2
  have hlaid : OverIn taken [.node n] := definition_laid c s n s' h [] taken htaken overIn_nil
  have hne : taken ≠ [] := by
    rintro rfl
    exact List.cons_ne_nil _ _ hlaid.eq_nil
  cases n with
  | mk r span cs =>
      obtain rfl : span = (s.place c).upTo s'.last := hspan
      obtain ⟨gap, own, more, rfl, hown, -⟩ := overIn_cons.mp hlaid
      have hcs := (Node.over_mk.mp (Element.over_node.mp hown)).2
      exact Element.over_node.mpr (hadv.over h htaken hne hcs.behind.widen)

/-- Where no fault is recorded, each token is part of exactly one definition. -/
theorem definitions_partition (h : Clean (many nextDefinition) c s nss s') (horder : InOrder s.rest) :
    ∀ t ∈ s.rest, nss.flatten.countP (fun n => t.span.Inside n.span) = 1 := by
  induction nss generalizing s with
  | nil =>
      rcases h.of_many nextDefinition_productive nextDefinition_advances with
        ⟨-, hnone⟩ | ⟨_, _, _, heq, -, -⟩
      · rcases hnone.of_nextDefinition with ⟨-, hrest, -⟩ | ⟨n, heq, -⟩
        · simp [hrest]
        · cases heq
      · cases heq
  | cons ns nss ih =>
      rcases h.of_many nextDefinition_productive nextDefinition_advances with
        ⟨heq, -⟩ | ⟨_, _, s₁, heq, hsome, hmany⟩
      · cases heq
      cases heq
      rcases hsome.of_nextDefinition with ⟨heq, -, -⟩ | ⟨n, heq, hdef⟩
      · cases heq
      cases heq
      obtain ⟨own, hown⟩ := (definition_composed.advances.ok hdef.run).rest
      obtain ⟨taken, htaken⟩ := (nextDefinition_advances.many.ok hmany.run).rest
      have hover := definition_over hdef.run hown.symm
      have hmore := definitions_laid hmany.run htaken.symm
      rw [← hown] at horder ⊢
      intro t ht
      rw [List.flatten_cons, List.singleton_append, List.countP_cons]
      rcases List.mem_append.mp ht with ht | ht
      · -- The definitions behind this one have none of its tokens.
        have hin : t.span.Inside n.span := hover.inside horder.left ht
        have hnone : nss.flatten.countP (fun m => t.span.Inside m.span) = 0 := by
          refine List.countP_eq_zero.mpr fun m hm => ?_
          obtain ⟨own', hstretch, hown'⟩ := hmore.of_mem (List.mem_map_of_mem hm)
          have hsub : own'.Sublist s₁.rest := by
            rw [← htaken]
            exact hstretch.sublist.trans (List.sublist_append_left _ _)
          have hnot : ¬t.span.Inside m.span :=
            hown'.not_inside_before (horder.sublist (hsub.append_left own)) ht
          simpa using hnot
        simp [hnone, hin]
      · have hnot : ¬t.span.Inside n.span := hover.not_inside_behind horder ht
        simp [ih hmany horder.right t ht, hnot]

end Grammar

open Grammar

namespace Tree

/-- The tokens that are left where reading a source ends. -/
def unread (settings : Settings) (tokens : List Token) : List Token :=
  match document ⟨settings, endOf tokens⟩ { rest := significant tokens } with
  | .ok _ s => s.rest
  | .error _ s => s.rest

theorem unread_eq {settings : Settings} {tokens : List Token} {nss : List (List Node)} {s : State}
    (h : many nextDefinition ⟨settings, endOf tokens⟩ { rest := significant tokens } = .ok nss s) :
    unread settings tokens = s.rest := by
  rw [unread, run_document, h]
  simp only [State.concluded]
  split <;> rfl

/-- The tree of a source lies over the tokens that were read, if any were. -/
theorem ofTokens_over (settings : Settings) (tokens : List Token) :
    ∃ taken, significant tokens = taken ++ unread settings tokens ∧
      OverIn taken (ofTokens settings tokens).tree.root.children ∧
      (taken ≠ [] → (ofTokens settings tokens).tree.root.Over taken) := by
  obtain ⟨nss, s, hmany⟩ := definitions_ok ⟨settings, endOf tokens⟩ { rest := significant tokens }
  obtain ⟨taken, htaken⟩ := (nextDefinition_advances.many.ok hmany).rest
  have hlaid := definitions_laid hmany htaken.symm
  rw [unread_eq hmany, ofTokens_eq hmany]
  refine ⟨taken, htaken.symm, hlaid, fun hne => ?_⟩
  have hover := nextDefinition_advances.many.over hmany htaken.symm hne (r := .sourceFile) hlaid
  have hlast : (s.concluded ⟨settings, endOf tokens⟩ (significant tokens).length
      nss.flatten).last = s.last := by
    simp only [State.concluded]
    split <;> rfl
  simpa only [hlast] using hover

/-- The tree of a source accounts for its tokens, whatever the settings are. Each of its nodes goes
from the beginning of a token to the end of one, with its parts inside it, in order and apart; only
the root does not where no token was read, and then it has no parts. The tokens in the tree are those
of the source in their order, and none comes twice. Where there is no fault, each token of the source
lies inside exactly one definition. -/
theorem ofTokens_accounts {source : List Char} {tokens : List Token} (settings : Settings)
    (h : Lexer.tokens source = .ok tokens) :
    let root := (ofTokens settings tokens).tree.root
    (∀ n ∈ root.family, n.Placed (significant tokens) ∨
      n = root ∧ root.children = [] ∧ unread settings tokens = significant tokens) ∧
    root.leaves.Sublist (significant tokens) ∧ root.leaves.Nodup ∧
    ((ofTokens settings tokens).faults = [] →
      ∀ t ∈ significant tokens, root.children.countP (fun c => t.span.Inside c.span) = 1) := by
  intro root
  have horder : InOrder (significant tokens) :=
    (Lexer.tokens_inOrder h).sublist List.filter_sublist
  obtain ⟨taken, hsplit, hlaid, hroot⟩ := ofTokens_over settings tokens
  have hleaves : root.leaves.Sublist taken := by
    rw [Node.leaves_eq]
    exact hlaid.leaves_sublist
  have htaken : taken.Sublist (significant tokens) := by
    rw [hsplit]
    exact List.sublist_append_left _ _
  refine ⟨fun n hn => ?_, hleaves.trans htaken, (hleaves.trans htaken).nodup horder.nodup, ?_⟩
  · by_cases hne : taken = []
    · rw [hne] at hlaid
      have hchildren : root.children = [] := hlaid.eq_nil
      have hnodes : root.nodes = [] := by simp [Node.nodes, hchildren, Element.nodes]
      have hself : n = root := by simpa [hnodes] using Node.mem_family.mp hn
      exact .inr ⟨hself, hchildren, by simp [hsplit, hne]⟩
    · have hplaced := (hroot hne).placed (horder.sublist htaken) hn
      exact .inl (hplaced.mono htaken.subset)
  · intro hfaults t ht
    obtain ⟨nss, s, hmany⟩ := definitions_ok ⟨settings, endOf tokens⟩ { rest := significant tokens }
    have hnone : s.faults = [] := List.prefix_nil.mp (hfaults ▸ faults_of_definitions hmany)
    have hcount := definitions_partition ⟨hmany, hnone⟩ horder t ht
    rw [children_of_definitions hmany, List.countP_map]
    exact hcount

/-- Two sets of rooms. -/
def twoSets : String :=
  "let set a = (r) let set b = (r)"

theorem ofTokens_accounts_twoSets :
    let tokens := Lexer.tokensOf twoSets
    let root := (ofTokens {} tokens).tree.root
    Lexer.tokens twoSets.toList = .ok tokens ∧ (significant tokens).length = 14 ∧
      (∀ n ∈ root.nodes, n.Placed (significant tokens)) ∧
      (ofTokens {} tokens).faults = [] ∧
      ∀ t ∈ significant tokens, root.children.countP (fun c => t.span.Inside c.span) = 1 := by
  have h : Lexer.tokens twoSets.toList = .ok (Lexer.tokensOf twoSets) := by
    decide +kernel
  have hfaults : (ofTokens {} (Lexer.tokensOf twoSets)).faults = [] := by
    decide +kernel
  have hread : (ofTokens {} (Lexer.tokensOf twoSets)).tree.root.children ≠ [] := by
    decide +kernel
  obtain ⟨hplaced, -, -, honce⟩ := ofTokens_accounts {} h
  refine ⟨h, by decide +kernel, fun n hn => ?_, hfaults, honce hfaults⟩
  have hmem := Node.mem_family.mpr (.inr ⟨n, hn, n.self_mem_family⟩)
  exact (hplaced n hmem).resolve_right fun hroot => hread hroot.2.1

end Tree

end Storyworld
