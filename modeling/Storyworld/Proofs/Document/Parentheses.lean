import Storyworld.Outcome
import Storyworld.Proofs.Shape.Faults
import Storyworld.Proofs.Spelling.Document
import Storyworld.Proofs.Spelling.Parentheses
import Storyworld.Proofs.Tree.Nesting

namespace Storyworld

/-! A room with a general overlay means the same with parentheses around the conditions of the overlay
and without. -/

/-! ## Warnings -/

namespace Lint

theorem ofParts_eq_nil {cs : List Element} (h : ∀ n ∈ Element.nodes cs, ofNode n = []) :
    ofParts cs = [] := by
  induction cs with
  | nil => rw [ofParts]
  | cons c cs ih =>
      rw [ofParts, ih fun n hn => h n ?_, List.append_nil]
      · cases c with
        | node n => exact h n (by simp [Element.nodes, Element.node?])
        | token t => rw [ofPart]
      · cases c <;> simp_all [Element.nodes, Element.node?]

theorem ofNode_eq_nil {n : Node} (hany : n.rule ≠ .condAny) (hall : n.rule ≠ .condAll)
    (h : ∀ m ∈ n.nodes, ofNode m = []) : ofNode n = [] := by
  obtain ⟨r, s, cs⟩ := n
  have hparts : ofParts cs = [] := ofParts_eq_nil h
  rw [ofNode, ofGroup, if_neg (by simp [hany, hall]), hparts, List.append_nil]

/-- There is nothing to warn of in a node without condition groups. -/
theorem ofNode_of_isFlat {P : Node → Prop} {T : Token → Prop} (hP : ∀ m, P m → m.isFilled) (n : Node)
    (h : n.Every P T) (hr : n.rule.isFlat) : ofNode n = [] := by
  refine ofNode_eq_nil (fun hn => ?_) (fun hn => ?_) fun m hm => ?_
  · rw [hn] at hr
    cases hr
  · rw [hn] at hr
    cases hr
  · have hflat := Node.rule_of_closed Rule.closed_isFlat (hP _ h.here) hr hm
    exact ofNode_of_isFlat hP m (h.node hm) hflat
termination_by sizeOf n
decreasing_by exact Node.sizeOf_lt hm

end Lint

/-! ## Sources of one definition -/

/-- What is made of a source is the definition `d`, without a fault or a warning. -/
structure Outcome.Defines (o : Outcome) (d : Definition) : Prop where
  faults : o.faults = []
  warnings : o.warnings = []
  document : o.document.map (·.definitions.map (·.withoutSpans)) = some [d.withoutSpans]

open Grammar

variable {settings : Settings} {source : List Char} {tokens : List Token} {d : Definition}

/-- A source that is read as one definition. -/
theorem Tree.ofTokens_of_reads {N : Node → Prop} (hne : significant tokens ≠ [])
    (h : Reads ⟨settings, endOf tokens⟩ definition (significant tokens) Anything N) :
    ∃ n, (ofTokens settings tokens).tree.root.nodes = [n] ∧ N n ∧
      (ofTokens settings tokens).faults = [] := by
  obtain ⟨n, s, hrun, hn, hpast⟩ := h (s := { rest := significant tokens })
    (List.append_nil _).symm trivial
  have hnext : nextDefinition ⟨settings, endOf tokens⟩ { rest := significant tokens } =
      .ok (some [n]) s :=
    (NextDerivation.keeps hrun (congrArg List.length hpast.faults)).execution
  have hstop : nextDefinition ⟨settings, endOf tokens⟩ s = .ok none s :=
    (NextDerivation.ends hpast.rest).execution
  have hlength : s.rest.length < (significant tokens).length := by
    rw [hpast.rest]
    exact List.length_pos_iff.mpr hne
  have hmany := (Rounds.round hnext hlength (.stop hstop)).run_many
  obtain ⟨hchildren, hfaults⟩ := ofTokens_of_definitions hmany (.inl (by simp))
  refine ⟨n, ?_, hn, hfaults.trans hpast.faults⟩
  rw [Node.nodes, hchildren]
  exact Element.nodes_map _

theorem Outcome.ofSource_defines (htokens : Lexer.tokens source = .ok tokens)
    (hne : Tree.significant tokens ≠ [])
    (h : Reads ⟨settings, Tree.endOf tokens⟩ definition (Tree.significant tokens) Anything fun n =>
      n.rule.isFlat ∧ Says settings.maxNesting d n) :
    (ofSource settings source).Defines d := by
  obtain ⟨n, hnodes, ⟨hflat, hsays⟩, hfaults⟩ := Tree.ofTokens_of_reads hne h
  have hbuilt := Built.ofNodes_says (List.Forall₂.cons hsays .nil)
  rw [← hnodes] at hbuilt
  obtain ⟨hnone, hsame⟩ := hbuilt
  obtain ⟨hrule, hroot⟩ := (Tree.ofTokens_grown settings htokens).root
  have hlint : Lint.ofNode (Tree.ofTokens settings tokens).tree.root = [] := by
    have hroot' := List.mem_singleton.mp hrule
    refine Lint.ofNode_eq_nil (by simp [hroot']) (by simp [hroot']) fun m hm => ?_
    have hm' := hm
    rw [hnodes, List.mem_singleton] at hm'
    exact Lint.ofNode_of_isFlat (fun _ h => h.filled) m (hroot.node hm) (hm' ▸ hflat)
  unfold ofSource
  rw [htokens]
  refine ⟨?_, ?_, ?_⟩
  · simp [ofTokens, hfaults, Built.ofTree, hnone]
  · simp [ofTokens, Lint.check, hlint]
  · have hsome : ¬(Built.ofNodes settings.maxNesting
        (Tree.ofTokens settings tokens).tree.root.nodes).definitions = [] := by
      intro hempty
      rw [hempty] at hsame
      cases hsame
    simp [ofTokens, Built.ofTree, hsome, hsame]

/-! ## Parentheses -/

theorem Overlay.GeneralBy.exists_eq_cons {inParens : Bool} {conditions : List Overlay.Condition}
    {text : String} {own : List Token} (h : Overlay.GeneralBy inParens conditions text own) :
    ∃ span rest, own = .reserved "overlay" span :: rest := by
  obtain ⟨opening, list, closing, rfl, hopening, -, -⟩ := h
  obtain ⟨t, more, rfl, ht, -⟩ := hopening.cons_inv
  cases ht
  exact ⟨_, _, rfl⟩

theorem Room.Holds.exists_eq_cons {r : Room} {own ts : List Token} {os : List Overlay}
    (h : r.Holds own os ts) : ∃ span rest, ts = .reserved "room" span :: rest := by
  obtain ⟨before, after, rfl, hbefore, -⟩ := h
  obtain ⟨t, more, rfl, ht, -⟩ := hbefore.cons_inv
  cases ht
  exact ⟨_, _, rfl⟩

/-- A room with a general overlay, its conditions in parentheses or without. -/
theorem Outcome.ofSource_general {inParens : Bool} {r : Room} {os : List Overlay}
    {conditions : List Overlay.Condition} {text : String} {own : List Token} (hr : r.Writable)
    (hos : ∀ o ∈ os, o.kind.Writable)
    (hhere : inParens = false → ∀ x, conditions = [x] → ¬NamesHere x)
    (htokens : Lexer.tokens source = .ok tokens)
    (hown : Overlay.GeneralBy inParens conditions text own)
    (hroom : r.Holds own os (Tree.significant tokens)) :
    (ofSource settings source).Defines
      (.room { r with overlays := r.overlays ++ ⟨.conditional conditions text, .origin⟩ :: os }) := by
  obtain ⟨span, more, rfl⟩ := hown.exists_eq_cons
  obtain ⟨span', more', htoken⟩ := hroom.exists_eq_cons
  refine ofSource_defines htokens (by simp [htoken]) ?_
  have hread (limit : Nat) : Reads ⟨settings, Tree.endOf tokens⟩ Grammar.room
      (Tree.significant tokens) Anything fun n => n.rule = .roomDef ∧ Says limit
        (.room { r with overlays := r.overlays ++ ⟨.conditional conditions text, .origin⟩ :: os }) n :=
    room_reads hr hos (overlay_reads hown hhere) hroom
  rw [htoken] at hread ⊢
  refine .atKeyword (b := false) rfl <| .atKeyword (b := true) rfl ?_
  refine (hread settings.maxNesting).mono fun n hn => ⟨?_, hn.2⟩
  rw [hn.1]
  rfl

/-- The parentheses around the conditions of a general overlay may be left out. A room that holds the
overlay, in front of it and behind it any other statements, is read and built without a fault or a
warning in both spellings, to the same room with the same overlay. Names are any words, reserved ones
among them. The one exception is a single condition on the presence of an npc called `here`: without
parentheses it is taken for the beginning of an overlay on the moods of an npc. -/
theorem Outcome.ofSource_overlay_parentheses (settings : Settings) {r : Room} {os : List Overlay}
    {conditions : List Overlay.Condition} {text : String} {source source' : List Char}
    {tokens tokens' own own' : List Token} (hr : r.Writable) (hos : ∀ o ∈ os, o.kind.Writable)
    (hhere : ∀ x, conditions = [x] → ¬NamesHere x) (htokens : Lexer.tokens source = .ok tokens)
    (htokens' : Lexer.tokens source' = .ok tokens')
    (hown : Overlay.GeneralBy false conditions text own)
    (hown' : Overlay.GeneralBy true conditions text own')
    (hroom : r.Holds own os (Tree.significant tokens))
    (hroom' : r.Holds own' os (Tree.significant tokens')) :
    let d := Definition.room
      { r with overlays := r.overlays ++ ⟨.conditional conditions text, .origin⟩ :: os }
    (ofSource settings source).Defines d ∧ (ofSource settings source').Defines d :=
  ⟨ofSource_general hr hos (fun _ => hhere) htokens hown hroom,
    ofSource_general hr hos (fun h => absurd h (by decide)) htokens' hown' hroom'⟩

/-- An npc called `here`, and a flag called so. -/
theorem Outcome.ofSource_overlay_parentheses_here :
    let source := "room a \x7b overlay if npc present here, flag set here \x7b text '' \x7d \x7d"
    let source' := "room a \x7boverlay if (npc present here, flag set here) \x7b text '' \x7d\x7d"
    let ts := Tree.significant (Lexer.tokensOf source)
    let ts' := Tree.significant (Lexer.tokensOf source')
    let conditions : List Overlay.Condition := [.npcPresent ⟨"here"⟩, .flagSet ⟨"here"⟩]
    let r : Room := ⟨⟨"a"⟩, none, none, none, [], [], .origin⟩
    let d := Definition.room { r with overlays := [⟨.conditional conditions "", .origin⟩] }
    ((Overlay.GeneralBy false conditions "" ((ts.drop 3).take 13) ∧
        Overlay.GeneralBy true conditions "" ((ts'.drop 3).take 15)) ∧
      r.Holds ((ts.drop 3).take 13) [] ts ∧ r.Holds ((ts'.drop 3).take 15) [] ts') ∧
      (ofSource .strict source.toList).Defines d ∧ (ofSource .strict source'.toList).Defines d := by
  intro source source' ts ts' conditions r d
  let list : List Token := [.reserved "npc" ⟨20, 23, 1, 21⟩, .reserved "present" ⟨24, 31, 1, 25⟩,
    .reserved "here" ⟨32, 36, 1, 33⟩, ⟨.mark .comma, ⟨36, 37, 1, 37⟩, ","⟩,
    .reserved "flag" ⟨38, 42, 1, 39⟩, .reserved "set" ⟨43, 46, 1, 44⟩,
    .reserved "here" ⟨47, 51, 1, 48⟩]
  have hlist : Overlay.Condition.ListedBy conditions list :=
    .more (.npcPresent (t := .reserved "here" _) Token.isId_reserved)
      (.one (.flagSet (t := .reserved "here" _) Token.isId_reserved))
  have htokens : Lexer.tokens source.toList = .ok (Lexer.tokensOf source) ∧
      Lexer.tokens source'.toList = .ok (Lexer.tokensOf source') := by
    decide +kernel
  have hown : Overlay.GeneralBy false conditions "" ((ts.drop 3).take 13) ∧
      r.Holds ((ts.drop 3).take 13) [] ts := by
    have hts : (ts.drop 3).take 13 = (ts.drop 3).take 2 ++ list ++ (ts.drop 12).take 4 ∧
        Spelled [.keyword "overlay", .keyword "if"] ((ts.drop 3).take 2) ∧
        Spelled (Piece.braces [.keyword "text", .string ""]) ((ts.drop 12).take 4) ∧
        Spelled [.keyword "room", .word "a", .mark .openBrace] (ts.take 3) ∧
        Spelled [.mark .closeBrace] (ts.drop 16) ∧
        ts = ts.take 3 ++ (ts.drop 3).take 13 ++ ts.drop 16 := by
      decide +kernel
    obtain ⟨h, hopening, hclosing, hbefore, hafter, hall⟩ := hts
    exact ⟨⟨_, _, _, h, hopening, hlist, hclosing⟩, _, _, hall, hbefore, hafter⟩
  have hown' : Overlay.GeneralBy true conditions "" ((ts'.drop 3).take 15) ∧
      r.Holds ((ts'.drop 3).take 15) [] ts' := by
    have hts : (ts'.drop 3).take 15 = (ts'.drop 3).take 3 ++ list ++ (ts'.drop 13).take 5 ∧
        Spelled [.keyword "overlay", .keyword "if", .mark .openParen] ((ts'.drop 3).take 3) ∧
        Spelled (.mark .closeParen :: Piece.braces [.keyword "text", .string ""])
          ((ts'.drop 13).take 5) ∧
        Spelled [.keyword "room", .word "a", .mark .openBrace] (ts'.take 3) ∧
        Spelled [.mark .closeBrace] (ts'.drop 18) ∧
        ts' = ts'.take 3 ++ (ts'.drop 3).take 15 ++ ts'.drop 18 := by
      decide +kernel
    obtain ⟨h, hopening, hclosing, hbefore, hafter, hall⟩ := hts
    exact ⟨⟨_, _, _, h, hopening, hlist, hclosing⟩, _, _, hall, hbefore, hafter⟩
  have hr : r.Writable := ⟨show Id.Writable _ by decide, nofun, nofun⟩
  have hhere (x) (h : conditions = [x]) : ¬NamesHere x := nomatch (List.cons.inj h).2
  exact ⟨⟨⟨hown.1, hown'.1⟩, hown.2, hown'.2⟩, ofSource_overlay_parentheses .strict hr nofun hhere
    htokens.1 htokens.2 hown.1 hown'.1 hown.2 hown'.2⟩

/-- The one npc that has to stand in parentheses. -/
theorem Outcome.ofSource_npc_present_here :
    (ofSource {} "room a \x7b overlay if npc present here \x7b text 'x' \x7d \x7d".toList).faults ≠ [] ∧
      (ofSource {} "room a \x7b overlay if (npc present here) \x7b text 'x' \x7d \x7d".toList).faults =
        [] := by
  decide +kernel

end Storyworld
