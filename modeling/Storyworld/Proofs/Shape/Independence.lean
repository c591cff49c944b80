import Storyworld.Proofs.Shape.Reports

namespace Storyworld

/-! Definitions are built independently of one another. Building them one behind the other, with one
list for the faults of all of them, keeps the definitions and finds the faults that each has when it
is built alone; and one that is not kept has a fault, which lies in it. -/

namespace Shape

variable {α β : Type} {limit : Nat} {n : Node}

/-! ## Building looks at no earlier fault -/

theorem Blind.keepChanges {change : α → Node → Collecting α} {start : α} {ns : List Node}
    (h : ∀ a n, Blind (change a n)) : Blind (keepChanges change start ns) :=
  foldlM fun a n => (h a n).keep.bind fun _ => done _

theorem blind_exitOption (e : Exit) (n : Node) : Blind (exitOption e n) := by
  unfold exitOption
  split
  · exact (Blind.lift _).bind fun _ => (Blind.lift _).bind fun _ => .done _
  · exact (Blind.lift _).bind fun _ => (Blind.lift _).bind fun _ => .done _
  · exact (Blind.lift _).bind fun _ => .setOnce
  · exact .done _
  · exact .done _
  · exact .fail _

theorem blind_exit (n : Node) : Blind (exit n) := by
  apply Blind.bind (Blind.lift _)
  rintro ⟨direction, target, options?⟩
  cases options? with
  | none => exact .done _
  | some options => exact .keepChanges blind_exitOption

theorem blind_textPair (first second : String) (firstRule : Rule) (n : Node) (lines : List Node) :
    Blind (textPair first second firstRule n lines) := by
  have hline (texts : Option String × Option String) (line : Node) :
      Blind (textLine first second firstRule texts line) := by
    apply Blind.bind (Blind.lift _)
    intro text
    exact .ite .setOnce .setOnce
  apply Blind.bind (Blind.keepChanges hline)
  intro texts
  exact (Blind.lift _).bind fun _ => (Blind.lift _).bind fun _ => .done _

theorem blind_generalPart (parts : List Overlay.Condition × Option String) (n : Node) :
    Blind (generalPart parts n) := by
  apply Blind.ite
  · exact (Blind.lift _).bind fun _ => .setOnce
  · exact (Blind.lift _).keep.bind fun _ => .done _

theorem blind_overlayKind (n : Node) : Blind (overlayKind n) := by
  unfold overlayKind
  split
  · exact (Blind.lift _).bind fun _ => (blind_textPair _ _ _ _ _).bind fun _ => .done _
  · exact (Blind.lift _).bind fun _ => (blind_textPair _ _ _ _ _).bind fun _ => .done _
  · exact (Blind.lift _).bind fun _ => (blind_textPair _ _ _ _ _).bind fun _ => .done _
  · apply Blind.bind (Blind.lift _)
    intro p
    apply Blind.bind (Blind.keepAll fun line => .lift _)
    intro lines
    exact .ite ((Blind.fail _).bind fun _ => .done _) (.done _)
  · apply Blind.bind (Blind.foldlM blind_generalPart)
    intro p
    exact (Blind.lift _).bind fun _ => .done _
  · exact .fail _

theorem blind_roomStatement (r : Room) (n : Node) : Blind (roomStatement r n) := by
  unfold roomStatement
  split
  · exact (Blind.lift _).bind fun _ => .setOnce
  · exact (Blind.lift _).bind fun _ => .setOnce
  · exact (Blind.lift _).bind fun _ => .setOnce
  · exact (blind_exit n).bind fun _ => .done _
  · exact ((blind_overlayKind n).bind fun _ => .done _).bind fun _ => .done _

theorem blind_consumableStatement (draft : ConsumableDraft) (n : Node) :
    Blind (consumableStatement draft n) := by
  unfold consumableStatement
  split
  · apply Blind.bind (Blind.lift _)
    intro p
    apply Blind.ite
    · exact (Blind.report _).bind fun _ => .setOnce
    · exact .setOnce
  · exact (Blind.lift _).bind fun _ => (Blind.lift _).bind fun _ => .done _
  · exact .setOnce
  · exact (Blind.lift _).bind fun _ => .setOnce
  · exact (Blind.lift _).bind fun _ => .setOnce
  · exact .fail _

theorem blind_consumable (n : Node) : Blind (consumable n) := by
  apply Blind.bind (Blind.keepChanges blind_consumableStatement)
  intro draft
  exact (Blind.lift _).bind fun _ => (Blind.lift _).bind fun _ => .done _

theorem blind_itemStatement (i : Item) (n : Node) : Blind (itemStatement i n) := by
  unfold itemStatement
  split
  · exact (Blind.lift _).bind fun _ => .setOnce
  · exact (Blind.lift _).bind fun _ => .setOnce
  · exact (Blind.lift _).bind fun _ => .setOnce
  · exact (Blind.lift _).bind fun _ => .setOnce
  · exact (Blind.lift _).bind fun _ => .setOnce
  · exact (Blind.lift _).bind fun _ => .setOnce
  · exact (Blind.lift _).bind fun _ => .setOnce
  · exact (Blind.lift _).bind fun _ => .setOnce
  · exact (Blind.lift _).bind fun _ => .setOnce
  · exact (Blind.lift _).bind fun _ => .done _
  · exact (Blind.lift _).bind fun _ => .done _
  · exact (Blind.lift _).bind fun _ => (Blind.lift _).bind fun _ => .setOnce
  · exact (Blind.lift _).bind fun _ => .done _
  · exact (blind_consumable n).bind fun _ => .setOnce
  · exact .fail _

theorem blind_movementOption (m : Movement) (n : Node) : Blind (movementOption m n) := by
  unfold movementOption
  split
  · exact (Blind.lift _).bind fun _ => .setOnce
  · exact (Blind.lift _).bind fun _ => .setOnce
  · exact (Blind.lift _).bind fun _ => .setOnce
  · exact .fail _

theorem blind_movement (n : Node) : Blind (movement n) := by
  apply Blind.bind (Blind.lift _)
  intro p
  exact (Blind.lift _).bind fun _ => .foldlM blind_movementOption

theorem blind_npcStatement (c : Npc) (n : Node) : Blind (npcStatement c n) := by
  unfold npcStatement
  split
  · exact (Blind.lift _).bind fun _ => .setOnce
  · exact (Blind.lift _).bind fun _ => .setOnce
  · exact (Blind.lift _).bind fun _ => .setOnce
  · exact (Blind.lift _).bind fun _ => .setOnce
  · exact (Blind.lift _).bind fun _ => (Blind.lift _).bind fun _ => .setOnce
  · exact (blind_movement n).bind fun _ => .setOnce
  · exact (Blind.lift _).bind fun _ => .done _
  · exact .fail _

theorem blind_npc (n : Node) : Blind (npc n) := by
  apply Blind.bind (Blind.lift _)
  intro p
  exact .ite ((Blind.fail _).bind fun _ => .keepChanges blind_npcStatement)
    (.keepChanges blind_npcStatement)

theorem blind_trigger (limit : Nat) (n : Node) : Blind (trigger limit n) := by
  apply Blind.bind (Blind.lift _)
  intro p
  exact (blind_statements (blind_action _ _) _).bind fun _ => .done _

theorem blind_goalStatement (draft : GoalDraft) (n : Node) : Blind (goalStatement draft n) := by
  unfold goalStatement
  split
  · exact (Blind.lift _).bind fun _ => .setOnce
  · exact (Blind.lift _).bind fun _ => .setOnce
  · exact (Blind.lift _).bind fun _ => (Blind.lift _).bind fun _ => .setOnce
  · exact (Blind.lift _).bind fun _ => (Blind.lift _).bind fun _ => .setOnce
  · exact (Blind.lift _).bind fun _ => (Blind.lift _).bind fun _ => .setOnce
  · exact (Blind.lift _).bind fun _ => (Blind.lift _).bind fun _ => .setOnce
  · exact .fail _

theorem blind_goalEnd {γ : Type} {draft : GoalDraft} {rest : List Node} {span : Span}
    {g : String → String → GoalGroup → Goal.Condition → Goal.Condition → γ} :
    Blind (do
      if rest.isEmpty then throw (.empty "goal block" span)
      let name ← require draft.name "goal name" span
      let desc ← require draft.desc "goal description" span
      let group ← require draft.group "goal group" span
      let start ← require draft.start "goal start" span
      let done ← require draft.done "goal done" span
      return g name desc group start done) := by
  have hparts : Blind (do
      let name ← require draft.name "goal name" span
      let desc ← require draft.desc "goal description" span
      let group ← require draft.group "goal group" span
      let start ← require draft.start "goal start" span
      let done ← require draft.done "goal done" span
      return g name desc group start done) :=
    (Blind.lift _).bind fun _ => (Blind.lift _).bind fun _ => (Blind.lift _).bind fun _ =>
      (Blind.lift _).bind fun _ => (Blind.lift _).bind fun _ => .done _
  exact .ite ((Blind.fail _).bind fun _ => hparts) hparts

theorem blind_goal (n : Node) : Blind (goal n) := by
  apply Blind.bind (Blind.lift _)
  intro p
  exact (Blind.foldlM blind_goalStatement).bind fun _ => blind_goalEnd

theorem blind_definition (limit : Nat) (n : Node) : Blind (definition limit n) := by
  unfold definition
  split
  · exact (Blind.lift _).bind fun _ => .done _
  · exact ((Blind.lift _).bind fun _ => .keepChanges blind_roomStatement).bind fun _ => .done _
  · exact ((Blind.lift _).bind fun _ => .keepChanges blind_itemStatement).bind fun _ => .done _
  · exact (blind_npc n).bind fun _ => .done _
  · exact (blind_trigger limit n).bind fun _ => .done _
  · exact (Blind.lift _).bind fun _ => .done _
  · exact (blind_goal n).bind fun _ => .done _
  · exact .fail _

/-! ## One list of faults for all definitions -/

/-- Builds definitions one behind the other and records the faults of all of them in one list. A
definition is kept if the list is as long behind it as it was before it. -/
def document (limit : Nat) : List Node → Collecting (List Definition)
  | [] => return []
  | n :: ns => do
    let before := (← get).length
    let d? ← keep (definition limit n)
    let after := (← get).length
    let ds ← document limit ns
    return if after = before then d?.toList ++ ds else ds

theorem run_document_cons {ns : List Node} {ds : List Definition} {d? : Option Definition}
    {s s' s'' : List ShapeFault} (hkeep : keep (definition limit n) s = .ok d? s')
    (hmore : document limit ns s' = .ok ds s'') :
    document limit (n :: ns) s =
      .ok (if s'.length = s.length then d?.toList ++ ds else ds) s'' := by
  rw [document]
  change (keep (definition limit n) >>= fun d? => _) s = _
  rw [run_bind, hkeep]
  change (document limit ns >>= fun ds => _) s' = _
  rw [run_bind, hmore]
  rfl

end Shape

open Shape

namespace Built

variable {limit : Nat} {n : Node}

@[simp] theorem definitions_append (a b : Built) :
    (a ++ b).definitions = a.definitions ++ b.definitions := rfl

@[simp] theorem faults_append (a b : Built) : (a ++ b).faults = a.faults ++ b.faults := rfl

/-- Whatever was recorded before, the definitions that are kept and the faults that are added are
those of building every definition on its own. -/
theorem document_eq_ofNodes (limit : Nat) (ns : List Node) (s : List ShapeFault) :
    document limit ns s =
      .ok (ofNodes limit ns).definitions (s ++ (ofNodes limit ns).faults) := by
  induction ns generalizing s with
  | nil =>
      rw [ofNodes, List.append_nil]
      rfl
  | cons n ns ih =>
      have hrun := run_keep (m := definition limit n) (s := s)
      rw [blind_definition limit n s] at hrun
      rw [ofNodes, ofNode]
      cases hn : definition limit n [] with
      | error fault faults =>
          rw [hn] at hrun
          rw [run_document_cons hrun (ih _)]
          simp
      | ok d faults =>
          rw [hn] at hrun
          rw [run_document_cons hrun (ih _)]
          cases faults <;> simp

/-- A definition is kept and has no fault, or it is not kept and has one. -/
theorem ofNode_cases (limit : Nat) (n : Node) :
    (∃ d, (ofNode limit n).definitions = [d] ∧ (ofNode limit n).faults = []) ∨
      (ofNode limit n).definitions = [] ∧ (ofNode limit n).faults ≠ [] := by
  unfold ofNode
  split
  · exact .inl ⟨_, rfl, rfl⟩
  · rename_i d faults hne _
    exact .inr ⟨rfl, hne⟩
  · exact .inr ⟨rfl, by simp⟩

/-- The faults of a definition lie in it. -/
theorem ofNode_inside {T : Token → Prop} {S : Span → Prop} (hr : n.rule ∈ Rule.definitions)
    (h : n.Sound T S) (hS : ∀ s, S s → s.start ≤ s.stop) :
    ∀ f ∈ (ofNode limit n).faults, f.span.Inside n.span :=
  (ofNode_sound hr (h.legibleInside hS)).faults

theorem definitions_ofNodes (limit : Nat) (ns : List Node) :
    (ofNodes limit ns).definitions = ns.flatMap fun n => (ofNode limit n).definitions := by
  induction ns with
  | nil => rfl
  | cons n ns ih => simp [ofNodes, ih]

theorem faults_ofNodes (limit : Nat) (ns : List Node) :
    (ofNodes limit ns).faults = ns.flatMap fun n => (ofNode limit n).faults := by
  induction ns with
  | nil => rfl
  | cons n ns ih => simp [ofNodes, ih]

end Built

/-- A tree of one of its definitions alone. -/
def Tree.only (tree : Tree) (n : Node) : Tree :=
  { tree with root := .mk tree.root.rule tree.root.span [.node n] }

namespace Built

variable {source : List Char} {tokens : List Token} {settings settings' : Settings} {n : Node}

theorem definitions_ofTree_only (tree : Tree) (n : Node) :
    (ofTree settings (tree.only n)).definitions = (ofNode settings.maxNesting n).definitions :=
  List.append_nil _

theorem faults_ofTree_only (tree : Tree) (n : Node) :
    (ofTree settings (tree.only n)).faults = (ofNode settings.maxNesting n).faults :=
  List.append_nil _

/-- Building the tree of a source, with one list for the faults of all its definitions, makes the
definitions and finds the faults that building each definition alone does, in their order. Alone, a
definition is built and has no fault; or it is not, and has faults, all of which lie in it. -/
theorem ofTree_independent (h : Lexer.tokens source = .ok tokens) (settings settings' : Settings) :
    let tree := (Tree.ofTokens settings tokens).tree
    let alone (n : Node) := ofTree settings' (tree.only n)
    document settings'.maxNesting tree.root.nodes [] =
        .ok (ofTree settings' tree).definitions (ofTree settings' tree).faults ∧
      (ofTree settings' tree).definitions =
        tree.root.nodes.flatMap (fun n => (alone n).definitions) ∧
      (ofTree settings' tree).faults = tree.root.nodes.flatMap (fun n => (alone n).faults) ∧
      ∀ n ∈ tree.root.nodes,
        (∃ d, (alone n).definitions = [d] ∧ (alone n).faults = []) ∨
          (alone n).definitions = [] ∧ (alone n).faults ≠ [] ∧
            ∀ f ∈ (alone n).faults, f.span.Inside n.span := by
  intro tree alone
  obtain ⟨hrule, hsound⟩ := (Tree.ofTokens_grown settings h).root
  have hordered (s : Span) (hs : s.Accurate source) : s.start ≤ s.stop := hs.ordered
  have hrow : RowOf (fun _ => True) tree.root.rule.slots tree.root.children :=
    ⟨(Node.Every.here hsound).filled, fun _ _ => trivial⟩
  rw [List.mem_singleton.mp hrule] at hrow
  refine ⟨document_eq_ofNodes _ _ [], ?_, ?_, fun n hn => ?_⟩
  · simp only [alone, definitions_ofTree_only]
    exact definitions_ofNodes _ _
  · simp only [alone, faults_ofTree_only]
    exact faults_ofNodes _ _
  · simp only [alone, definitions_ofTree_only, faults_ofTree_only]
    rcases ofNode_cases settings'.maxNesting n with hbuilt | ⟨hnone, hfaults⟩
    · exact .inl hbuilt
    · have hinside : ∀ f ∈ (ofNode settings'.maxNesting n).faults, f.span.Inside n.span :=
        ofNode_inside (hrow.nodes n hn).1 (Node.Every.node hsound hn) hordered
      exact .inr ⟨hnone, hfaults, hinside⟩

/-- A goal of which nothing is told, and a set of rooms. -/
def goalAndSet : String :=
  "goal g \x7b\x7d let set a = (r)"

theorem ofTree_independent_goalAndSet :
    let tree := (Tree.ofTokens {} (Lexer.tokensOf goalAndSet)).tree
    Lexer.tokens goalAndSet.toList = .ok (Lexer.tokensOf goalAndSet) ∧
      document 32 tree.root.nodes [] =
        .ok (ofTree {} tree).definitions (ofTree {} tree).faults ∧
      ∃ n ∈ tree.root.nodes, (ofTree {} (tree.only n)).definitions = [] ∧
        ∀ f ∈ (ofTree {} (tree.only n)).faults, f.span.Inside n.span := by
  have h : Lexer.tokens goalAndSet.toList = .ok (Lexer.tokensOf goalAndSet) := by
    decide +kernel
  have hgoal : ∃ n ∈ (Tree.ofTokens {} (Lexer.tokensOf goalAndSet)).tree.root.nodes,
      (ofTree {} ((Tree.ofTokens {} (Lexer.tokensOf goalAndSet)).tree.only n)).faults ≠ [] := by
    decide +kernel
  obtain ⟨hdocument, -, -, heach⟩ := ofTree_independent h {} {}
  obtain ⟨n, hn, hne⟩ := hgoal
  refine ⟨h, hdocument, n, hn, ?_⟩
  rcases heach n hn with ⟨d, -, hnil⟩ | ⟨hnone, -, hinside⟩
  · exact absurd hnil hne
  · exact ⟨hnone, hinside⟩

end Built

end Storyworld
