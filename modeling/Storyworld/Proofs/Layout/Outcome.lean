import Storyworld.Outcome
import Storyworld.Proofs.Document.Segments
import Storyworld.Proofs.Layout.Built
import Storyworld.Proofs.Layout.Parsers

namespace Storyworld

/-! Layout does not change meaning: what is read from a source does not depend on its blanks and
comments, the places it tells apart. -/

open Grammar

/-! ## Warnings -/

namespace Lint

theorem pairs_bare (ns : List Node) : pairs (ns.map Node.bare) = (pairs ns).map Lint.bare := by
  induction ns with
  | nil => rfl
  | cons a ns ih =>
      cases ns with
      | nil => rfl
      | cons b ns =>
          have hpair : isStrayPair a.bare b.bare = isStrayPair a b := by simp [isStrayPair]
          rw [List.map_cons] at ih
          simp only [List.map_cons, pairs, hpair, ih, List.map_append, Node.span_bare]
          split <;> rfl

theorem ofGroup_bare (n : Node) : ofGroup n.bare = (ofGroup n).map Lint.bare := by
  simp only [ofGroup, Node.rule_bare, Node.nodes_bare]
  split
  · exact pairs_bare n.nodes
  · rfl

mutual

theorem ofNode_bare : (n : Node) → ofNode n.bare = (ofNode n).map Lint.bare
  | .mk r s cs => by
    have hgroup := ofGroup_bare (.mk r s cs)
    rw [Node.bare] at hgroup ⊢
    rw [ofNode, ofNode, hgroup, ofParts_bare cs, List.map_append]

theorem ofParts_bare : (cs : List Element) →
    ofParts (Element.bareAll cs) = (ofParts cs).map Lint.bare
  | [] => rfl
  | c :: cs => by
    rw [Element.bareAll, ofParts, ofParts, ofPart_bare c, ofParts_bare cs, List.map_append]

theorem ofPart_bare : (c : Element) → ofPart c.bare = (ofPart c).map Lint.bare
  | .node n => ofNode_bare n
  | .token _ => rfl

end

theorem check_bare {settings : Settings} {tree tree' : Tree}
    (h : tree.root.bare = tree'.root.bare) :
    (check settings tree).map Lint.bare = (check settings tree').map Lint.bare := by
  unfold check
  split
  · rw [← ofNode_bare, ← ofNode_bare, h]
  · rfl

end Lint

/-! ## Definitions -/

@[simp] theorem Definition.span_withoutSpans (d : Definition) : d.withoutSpans.span = .origin := by
  cases d <;> rfl

namespace Built

/-- What is built, with the places left out. -/
def bare (b : Built) : Built where
  definitions := b.definitions.map (·.withoutSpans)
  faults := b.faults.map ShapeFault.bare
  log := b.log.map Log.Entry.bare

theorem ofNode_bare (limit : Nat) (n : Node) : ofNode limit n.bare = (ofNode limit n).bare := by
  have hrun := Baring.Built.definition limit n []
  rw [List.map_nil] at hrun
  unfold ofNode
  rw [hrun]
  rcases Shape.definition limit n [] with ⟨d, _ | ⟨fault, faults⟩⟩ | ⟨fault, faults⟩
  · rfl
  · simp [Shape.bareCollected, bare, Log.Entry.bare]
  · simp [Shape.bareCollected, bare]

theorem ofNodes_bare (limit : Nat) (ns : List Node) :
    ofNodes limit (ns.map Node.bare) = (ofNodes limit ns).bare := by
  induction ns with
  | nil => rfl
  | cons n ns ih =>
      rw [List.map_cons, ofNodes, ofNodes, ofNode_bare, ih]
      change append _ _ = (append _ _).bare
      simp [append, bare]

theorem ofTree_bare (settings : Settings) {tree tree' : Tree}
    (h : tree.root.bare = tree'.root.bare) :
    (ofTree settings tree).bare = (ofTree settings tree').bare := by
  have hnodes : tree.root.nodes.map Node.bare = tree'.root.nodes.map Node.bare := by
    rw [← Node.nodes_bare, ← Node.nodes_bare, h]
  have htree (tree : Tree) : (ofTree settings tree).bare =
      let b := ofNodes settings.maxNesting (tree.root.nodes.map Node.bare)
      { b with log := b.log ++ [.built b.definitions.length b.faults.length] } := by
    rw [ofNodes_bare]
    simp [ofTree, bare, Log.Entry.bare]
  rw [htree, htree, hnodes]

end Built

/-! ## Sources -/

/-- What the grammar makes of a source, with the places left out. -/
def Parsed.bare (p : Parsed) : Parsed where
  tree := ⟨p.tree.root.bare, []⟩
  faults := p.faults.map SyntaxFault.bare
  log := p.log.map Log.Entry.bare

/-- What is made of the end of a run over a source, with the comments that were set aside. -/
def Parsed.ofResult (comments : List Span) : EStateM.Result SyntaxFault Grammar.State Node → Parsed
  | .ok root s => ⟨⟨root, comments⟩, s.faults, s.log.reverse⟩
  | .error fault s =>
    ⟨⟨.mk .sourceFile .origin [], comments⟩, s.faults ++ [fault], s.log.reverse⟩

theorem Parsed.bare_ofResult (comments : List Span)
    (result : EStateM.Result SyntaxFault Grammar.State Node) :
    (ofResult comments result).bare = ofResult [] (bareResult Node.bare result) := by
  cases result with
  | ok root s => simp [bare, ofResult, bareResult, Grammar.State.bare]
  | error fault s =>
      simp [bare, ofResult, bareResult, Grammar.State.bare, Node.bare, Element.bareAll]

namespace Tree

theorem ofTokens_bare (settings : Settings) {tokens tokens' : List Token}
    (h : (significant tokens).map Token.bare = (significant tokens').map Token.bare) :
    (ofTokens settings tokens).bare = (ofTokens settings tokens').bare := by
  let parse : Parse Node := Grammar.node .sourceFile do return (← Grammar.document).map .node
  have hparse : Baring.Bared Node.bare parse parse := by
    refine .nodeBy (Baring.Bared.bind (d := Element.bareAll) ?_ fun cs => .pure _)
    exact Baring.Bared.document.bind fun ns => .done (Element.bareAll_map_node ns).symm
  have hof (tokens : List Token) : (ofTokens settings tokens).bare =
      .ofResult [] (parse ⟨settings, .origin⟩ { rest := (significant tokens).map Token.bare }) := by
    have hparsed : ∃ comments, ofTokens settings tokens =
        .ofResult comments (parse ⟨settings, endOf tokens⟩ { rest := significant tokens }) := ⟨_, rfl⟩
    obtain ⟨comments, hparsed⟩ := hparsed
    have hrun : parse ⟨settings, .origin⟩ { rest := (significant tokens).map Token.bare } =
        bareResult Node.bare (parse ⟨settings, endOf tokens⟩ { rest := significant tokens }) :=
      hparse ⟨settings, endOf tokens⟩ { rest := significant tokens }
    rw [hparsed, hrun, Parsed.bare_ofResult]
  rw [hof, hof, h]

end Tree

namespace Outcome

/-- The outcome depends on what tokens say, its places apart. -/
theorem ofTokens_bare {settings : Settings} {tokens tokens' : List Token}
    (h : (Tree.significant tokens).map Token.bare = (Tree.significant tokens').map Token.bare) :
    (ofTokens settings tokens).document.map (·.definitions.map (·.withoutSpans)) =
        (ofTokens settings tokens').document.map (·.definitions.map (·.withoutSpans)) ∧
      (ofTokens settings tokens).faults.map Fault.bare =
        (ofTokens settings tokens').faults.map Fault.bare ∧
      (ofTokens settings tokens).warnings.map Lint.bare =
        (ofTokens settings tokens').warnings.map Lint.bare := by
  have hfaults (tokens : List Token) : (ofTokens settings tokens).faults.map Fault.bare =
      (Tree.ofTokens settings tokens).bare.faults.map .syntactic ++
        (Built.ofTree settings (Tree.ofTokens settings tokens).tree).bare.faults.map .shape := by
    simp [ofTokens, Parsed.bare, Built.bare, Fault.bare, Function.comp_def]
  have hdocument (tokens : List Token) :
      (ofTokens settings tokens).document.map (·.definitions.map (·.withoutSpans)) =
        let b := (Built.ofTree settings (Tree.ofTokens settings tokens).tree).bare
        if !b.definitions.isEmpty || ((ofTokens settings tokens).faults.map Fault.bare).isEmpty then
          some b.definitions
        else none := by
    simp only [ofTokens, Built.bare, List.isEmpty_map]
    split <;> rfl
  have hwarnings (tokens : List Token) : (ofTokens settings tokens).warnings.map Lint.bare =
      if (Tree.ofTokens settings tokens).bare.faults.isEmpty then
        (Lint.check settings (Tree.ofTokens settings tokens).tree).map Lint.bare
      else [] := by
    simp only [ofTokens, Parsed.bare, List.isEmpty_map]
    split <;> rfl
  have hparsed := Tree.ofTokens_bare settings h
  have hroot : (Tree.ofTokens settings tokens).tree.root.bare =
      (Tree.ofTokens settings tokens').tree.root.bare := congrArg (·.tree.root) hparsed
  have hbuilt := Built.ofTree_bare settings hroot
  have hsame : (ofTokens settings tokens).faults.map Fault.bare =
      (ofTokens settings tokens').faults.map Fault.bare := by
    rw [hfaults, hfaults, hparsed, hbuilt]
  refine ⟨?_, hsame, ?_⟩
  · rw [hdocument, hdocument, hbuilt, hsame]
  · rw [hwarnings, hwarnings, hparsed, Lint.check_bare hroot]

/-- Two sources whose tokens agree in kind and text, blanks and comments left out, have the same
outcome but for the places in it: the same definitions, or none, the same faults in the same order,
and the same warnings. -/
theorem ofSource_layout (settings : Settings) {source source' : List Char}
    {tokens tokens' : List Token} (h : Lexer.tokens source = .ok tokens)
    (h' : Lexer.tokens source' = .ok tokens')
    (hsame : (Tree.significant tokens).map (fun t => (t.kind, t.text)) =
      (Tree.significant tokens').map fun t => (t.kind, t.text)) :
    (ofSource settings source).document.map (·.definitions.map (·.withoutSpans)) =
        (ofSource settings source').document.map (·.definitions.map (·.withoutSpans)) ∧
      (ofSource settings source).faults.map Fault.bare =
        (ofSource settings source').faults.map Fault.bare ∧
      (ofSource settings source).warnings.map Lint.bare =
        (ofSource settings source').warnings.map Lint.bare := by
  unfold ofSource
  rw [h, h']
  exact ofTokens_bare (Token.map_bare_eq_iff.mpr hsame)

theorem ofSource_layout_comment :
    (Lexer.tokens "room a \x7b name 1 \x7d item b \x7b \x7d".toList =
        .ok (Lexer.tokensOf "room a \x7b name 1 \x7d item b \x7b \x7d") ∧
      Lexer.tokens "# A room.\nroom a \x7b name 1\x7d\n\nitem b\x7b\x7d".toList =
        .ok (Lexer.tokensOf "# A room.\nroom a \x7b name 1\x7d\n\nitem b\x7b\x7d") ∧
      (ofSource {} "room a \x7b name 1 \x7d item b \x7b \x7d".toList).faults ≠
        (ofSource {} "# A room.\nroom a \x7b name 1\x7d\n\nitem b\x7b\x7d".toList).faults) ∧
    (ofSource {} "room a \x7b name 1 \x7d item b \x7b \x7d".toList).faults.map Fault.bare =
      (ofSource {} "# A room.\nroom a \x7b name 1\x7d\n\nitem b\x7b\x7d".toList).faults.map
        Fault.bare := by
  have h : Lexer.tokens "room a \x7b name 1 \x7d item b \x7b \x7d".toList =
      .ok (Lexer.tokensOf "room a \x7b name 1 \x7d item b \x7b \x7d") := by decide +kernel
  have h' : Lexer.tokens "# A room.\nroom a \x7b name 1\x7d\n\nitem b\x7b\x7d".toList =
      .ok (Lexer.tokensOf "# A room.\nroom a \x7b name 1\x7d\n\nitem b\x7b\x7d") := by
    decide +kernel
  exact ⟨⟨h, h', by decide +kernel⟩, (ofSource_layout {} h h' (by decide +kernel)).2.1⟩

end Outcome

end Storyworld
