import Storyworld.Proofs.Shape.Faults
import Storyworld.Proofs.Shape.Levels
import Storyworld.Proofs.Shape.Recording

namespace Storyworld

/-! One pass over a trigger finds the faults of all its statements. What a statement has at fault when
it stands alone is found at fault in the whole, wherever the statement stands, as long as the numbers
of the schedules around it can be read. -/

/-- A number of turns can be read from the token: the number is not negative and fits 32 bits. -/
def Token.isCount (t : Token) : Bool :=
  ((Text.Integer.word? t.text.toList).bind Shape.unsigned?).isSome

/-- The numbers of a schedule can be read: the turn it is due and the turns until it is tried again. -/
def Node.IsTimely (n : Node) : Prop :=
  ∀ k ∈ n :: n.nodes, k.rule ∈ .onFalseRetryAfter :: Rule.schedules →
    ∀ t ∈ k.tokens, t.kind = .number → t.isCount

instance (n : Node) : Decidable n.IsTimely :=
  inferInstanceAs (Decidable (∀ k ∈ n :: n.nodes, k.rule ∈ .onFalseRetryAfter :: Rule.schedules →
    ∀ t ∈ k.tokens, t.kind = .number → t.isCount))

/-- A tree whose nodes fill their slots can be built up to faults that lie in it. -/
theorem Node.Sound.legibleInside {T : Token → Prop} {S : Span → Prop} {n : Node} {limit : Nat}
    (h : n.Sound T S) (hS : ∀ s, S s → s.start ≤ s.stop) :
    n.Legible ⟨fun f => f.span.Inside n.span, S, fun _ => True, fun _ => True, limit⟩ := by
  refine (Node.Every.and h (h.inside hS)).mono ?_ ?_
  · rintro k ⟨hapt, hk⟩
    exact ⟨hapt.filled, hapt.span, fun _ _ => hk, fun _ => hk, fun _ => hk, hk⟩
  · rintro t ⟨-, ht⟩
    exact ⟨fun _ _ _ => ht, fun _ _ _ => ht, fun _ => trivial, fun _ _ => trivial⟩

/-- A statement somewhere in a tree whose nodes fill their slots. The schedules around it can be read. -/
structure Node.Stands (T : Token → Prop) (m n : Node) : Prop where
  filled : n.Every (fun k => k.isFilled) T
  mem : m ∈ n.family
  rule : m.rule ∈ Rule.statements
  timely : ∀ k ∈ n.family, k.rule ∈ Rule.schedules → m ∈ k.family → k.IsTimely

/-- A trigger of nothing but one statement, which is always run. -/
def Node.alone (m : Node) : Node :=
  .mk .triggerDef m.span [.token ⟨.string "", m.span, "\"\""⟩, .node (.mk .evAlways m.span []),
    .node (.mk .triggerBlock m.span [.node m])]

variable {T : Token → Prop} {n m : Node}

theorem Token.mem_tokens {t : Token} : t ∈ n.tokens ↔ Element.token t ∈ n.children := by
  constructor
  · intro h
    obtain ⟨c, hc, ht⟩ := List.mem_filterMap.mp h
    cases c <;> simp_all [Element.token?]
  · intro h
    exact List.mem_filterMap.mpr ⟨_, h, rfl⟩

namespace Node.Stands

theorem not_passive (h : m.Stands T n) : ¬m.rule.isPassive := by
  have hrule : m.rule = .doStmt ∨ m.rule = .condBlock := by simpa [Rule.statements] using h.rule
  rcases hrule with hrule | hrule <;> rw [hrule] <;> decide

theorem below {k : Node} (h : m.Stands T n) (hk : k ∈ n.nodes) (hm : m ∈ k.family) : m.Stands T k where
  filled := h.filled.node hk
  mem := hm
  rule := h.rule
  timely := fun l hl => h.timely l (mem_family.mpr (.inr ⟨k, hk, hl⟩))

theorem ne (h : m.Stands T n) (hn : n.rule ∉ Rule.statements) : m ≠ n := by
  rintro rfl
  exact hn h.rule

theorem exists_below (h : m.Stands T n) (hne : m ≠ n) : ∃ k ∈ n.nodes, m.Stands T k := by
  obtain ⟨k, hk, hm⟩ := (mem_family.mp h.mem).resolve_left hne
  exact ⟨k, hk, h.below hk hm⟩

theorem body {body : Node} (h : m.Stands T n) (hbody : n.HasBody body)
    (hn : n.rule ∉ Rule.statements) : m.Stands T body :=
  h.below hbody.mem (hbody.mem_family h.filled h.mem (h.ne hn) h.not_passive)

theorem not_passive_of_stands (h : m.Stands T n) : ¬n.rule.isPassive := fun hn =>
  h.not_passive (rule_of_mem_family Rule.closed_isPassive h.filled hn h.mem)

/-- The only actions in which there are statements are schedules. -/
theorem schedule (h : m.Stands T n) (hr : n.rule ∈ Rule.actions) : n.rule ∈ Rule.schedules := by
  have hall : Rule.actions.all fun r => r.isPassive || Rule.schedules.contains r := by decide
  have hrule := List.all_eq_true.mp hall _ hr
  rw [Bool.or_eq_true, List.contains_iff_mem] at hrule
  exact hrule.resolve_left h.not_passive_of_stands

end Node.Stands

namespace Shape

variable {α β : Type} {limit levels : Nat}

/-! ## Building looks at no earlier fault -/

section

variable {guard : Node → Except ShapeFault Condition} {body : Node → Collecting (List Statement)}
  {act : Node → Collecting Action}

theorem blind_patchStatement (patch : ItemPatch) (n : Node) : Blind (patchStatement patch n) := by
  unfold patchStatement
  split
  · exact (Blind.lift _).bind fun _ => .setOnce
  · exact (Blind.lift _).bind fun _ => .setOnce
  · exact (Blind.lift _).bind fun _ => .setOnce
  · exact (Blind.lift _).bind fun _ => .setOnce
  · exact (Blind.lift _).bind fun _ => .setOnce
  · exact (Blind.lift _).bind fun _ => (Blind.lift _).bind fun _ => .setOnce
  · exact (Blind.lift _).bind fun _ => (Blind.lift _).bind fun _ => .done _
  · exact (Blind.lift _).bind fun _ => (Blind.lift _).bind fun _ => .done _
  · exact .fail _

theorem blind_modifyItem (n : Node) : Blind (modifyItem n) :=
  (Blind.lift _).bind fun _ => (Blind.foldlM blind_patchStatement).bind fun _ => .done _

theorem blind_guardedSchedule (hbody : ∀ k, Blind (body k)) (n : Node) :
    Blind (guardedSchedule guard body n) := by
  refine (Blind.lift _).bind fun p => ?_
  split
  · exact (hbody _).bind fun _ => .done _
  · exact (hbody _).keep.map.bind fun _ => .fail _

theorem blind_actionOver (hbody : ∀ k, Blind (body k)) (n : Node) :
    Blind (actionOver guard body n) := by
  unfold actionOver
  split
  · exact (blind_modifyItem n).bind fun _ => .done _
  · exact (Blind.lift _).bind fun _ => (hbody _).bind fun _ => .done _
  · exact blind_guardedSchedule hbody n
  · exact (Blind.lift _).bind fun _ => .done _

theorem blind_deed (hact : ∀ k, Blind (act k)) (n : Node) : Blind (deed act n) :=
  (Blind.lift _).bind fun _ => (hact _).bind fun _ => .done _

theorem blind_branchEnd {c : Node} {deeds : List Deed} {rest : List Element} {span : Span} :
    Blind (do
      let condition ← guard c
      if (Element.nodes rest).isEmpty then throw (.empty "if block" span)
      return Statement.branch condition deeds span) := by
  refine (Blind.lift _).bind fun _ => ?_
  split
  · exact (Blind.fail _).bind fun _ => .done _
  · exact .done _

theorem blind_statement (hact : ∀ k, Blind (act k)) (n : Node) : Blind (statement guard act n) := by
  unfold statement
  split
  · exact (blind_deed hact n).bind fun _ => .done _
  · exact (Blind.lift _).bind fun _ => (Blind.keepAll (blind_deed hact)).bind fun _ => blind_branchEnd
  · exact .fail _

theorem blind_statements (hact : ∀ k, Blind (act k)) (n : Node) : Blind (statements guard act n) := by
  unfold statements
  split
  · exact (Blind.fail _).bind fun _ => .keepAll (blind_statement hact)
  · exact .keepAll (blind_statement hact)

end

theorem blind_action (limit levels : Nat) (n : Node) : Blind (action limit levels n) := by
  induction levels generalizing n with
  | zero => exact blind_actionOver (fun _ => .fail _) n
  | succ levels ih => exact blind_actionOver (blind_statements ih) n

/-! ## From a statement to what it stands in -/

/-- The faults of a statement that is built with all levels. -/
def statementFaults (limit : Nat) (n : Node) : List ShapeFault :=
  faults (statement (condition limit limit) (action limit limit) n)

theorem countOf_of_isCount {F : ShapeFault → Prop} {t : Token} {what : String} {value : Int64}
    {span : Span} (hvalue : Text.Integer.word? t.text.toList = some value) (ht : t.isCount) :
    Gives F (countOf what value span) fun _ => True := by
  have hcount : (unsigned? value).isSome := by simpa [Token.isCount, hvalue] using ht
  obtain ⟨count, hcount⟩ := Option.isSome_iff_exists.mp hcount
  rw [countOf, hcount]
  exact .done trivial

theorem count_readsOf {F : ShapeFault → Prop} {P : Element → Prop} {slots : List Slot} {what : String}
    (h : ∀ t, P (.token t) → t.kind = .number → t.isCount) :
    ReadsOf F P (.one .number :: slots) slots (count what) fun _ => True := by
  refine ReadsOf.number.bind fun p hp => ?_
  obtain ⟨t, hkind, ht, hvalue, -⟩ := hp
  exact .lift (countOf_of_isCount hvalue (h t ht hkind))

/-- The head of a schedule is read if its numbers can be read. -/
theorem ReadsHead.of_timely (hr : n.rule ∈ Rule.schedules) (h : n.IsTimely) :
    ReadsHead (fun _ => False) (n.FilledPart T) where
  turns := count_readsOf fun t ht => h n (by simp) (List.mem_cons_of_mem _ hr) t
    (Token.mem_tokens.mpr ht.1)
  note := by
    rintro k hk ⟨-, hevery⟩
    have hrow := k.filled_row (Element.every_node.mp hevery)
    rw [hk] at hrow
    exact hrow.parts .string
  retry := by
    rintro k hk ⟨hmem, hevery⟩
    have hrow := k.filled_row (Element.every_node.mp hevery)
    unfold retryPolicy
    split
    · exact .done trivial
    · exact .done trivial
    · have hrule : k.rule = .onFalseRetryAfter := by simp_all [Rule.retries]
      rw [hrule] at hrow
      have htimely := h k (List.mem_cons_of_mem _ (Node.mem_nodes.mpr hmem)) (by simp [hrule])
      refine hrow.parts ((count_readsOf fun t ht => ?_).bind fun _ _ => .done trivial)
      exact htimely t (Token.mem_tokens.mpr ht.1)

section

variable {guard : Node → Except ShapeFault Condition} {body : Node → Collecting (List Statement)}
  {act : Node → Collecting Action}

theorem faults_statement (hr : n.rule = .doStmt) :
    faults (statement guard act n) = faults (deed act n) := by
  simp only [statement, hr]
  exact faults_map

/-- What is found in an action is found in the deed that orders it. -/
theorem faults_deed (act : Node → Collecting Action) (hr : n.rule = .doStmt) (hn : n.isFilled) :
    ∃ a, n.nodes = [a] ∧ a.rule ∈ Rule.actions ∧ faults (deed act n) = faults (act a) := by
  have hrow : RowOf (fun _ => True) n.rule.slots n.children := ⟨hn, fun _ _ => trivial⟩
  rw [hr] at hrow
  obtain ⟨a, cs, hcs, ha, -, hrest⟩ := hrow.child
  have hnil : cs = [] := by simpa using hrest.1
  subst hnil
  have hread : n.parts (child "action") = .ok a := by
    unfold Node.parts
    rw [hcs]
    rfl
  refine ⟨a, by simp [Node.nodes, hcs, Element.nodes, Element.node?], ha, ?_⟩
  exact (faults_lift_bind hread).trans faults_map

/-- What is found in the deeds of a branch is found in the branch, whatever becomes of its
condition. -/
theorem mem_faults_branch (guard : Node → Except ShapeFault Condition) (hr : n.rule = .condBlock)
    (hn : n.isFilled) (hact : ∀ k, Blind (act k)) :
    ∃ c deeds, n.nodes = c :: deeds ∧ c.rule ∈ Rule.conditions ∧
      ∀ d ∈ deeds, d.rule = .doStmt ∧ faults (deed act d) ⊆ faults (branch guard act n) := by
  have hrow : RowOf (fun _ => True) n.rule.slots n.children := ⟨hn, fun _ _ => trivial⟩
  rw [hr] at hrow
  obtain ⟨c, cs, hcs, hc, -, hrest⟩ := hrow.child
  have hread : n.head (child "condition") = .ok (c, cs) := by
    unfold Node.head
    rw [hcs]
    rfl
  refine ⟨c, Element.nodes cs, by simp [Node.nodes, hcs, Element.nodes, Element.node?], hc,
    fun d hd => ⟨List.mem_singleton.mp (hrest.nodes d hd).1, fun fault hfault => ?_⟩⟩
  have hkept : fault ∈ faults (keepAll (deed act) (Element.nodes cs)) := by
    rw [faults_keepAll (blind_deed hact)]
    exact List.mem_flatMap.mpr ⟨d, hd, hfault⟩
  unfold branch
  rw [faults_lift_bind hread]
  exact mem_faults_bind (fun _ => blind_branchEnd) hkept

/-- What is found in the statements of a block is found in the block. -/
theorem mem_faults_statements (hact : ∀ k, Blind (act k)) {k : Node} (hk : k ∈ n.nodes) :
    faults (statement guard act k) ⊆ faults (statements guard act n) := by
  intro fault hfault
  have hne : ¬n.nodes.isEmpty := by
    rw [List.isEmpty_iff]
    exact List.ne_nil_of_mem hk
  unfold statements
  rw [if_neg hne]
  change fault ∈ faults (keepAll (statement guard act) n.nodes)
  rw [faults_keepAll (blind_statement hact)]
  exact List.mem_flatMap.mpr ⟨k, hk, hfault⟩

/-- What is found in the body of a schedule is found in the schedule, whatever becomes of its
guard. -/
theorem mem_faults_schedule {b : Node} (hr : n.rule ∈ Rule.schedules) (h : n.IsTimely)
    (hn : n.Every (fun k => k.isFilled) T) (hb : n.HasBody b) :
    faults (body b) ⊆ faults (actionOver guard body n) := by
  have hhead := ReadsHead.of_timely (T := T) hr h
  have hrow := n.filled_row hn
  have hsame {k : Node} (hk : k.rule = .triggerBlock) (hmem : n.FilledPart T (.node k)) : k = b := by
    refine (hb.only k (Node.mem_nodes.mpr hmem.1)).resolve_right ?_
    rw [hk]
    decide
  have hrule : n.rule = .actSchedule ∨ n.rule = .actScheduleIf := by simpa [Rule.schedules] using hr
  intro fault hfault
  rcases hrule with hrule | hrule <;> rw [hrule] at hrow <;> simp only [actionOver, hrule]
  · obtain ⟨⟨anchor, turns, note, k⟩, hread, hk, hmem⟩ := (hrow.parts hhead.plain).exists_ok
    obtain rfl := hsame hk hmem
    unfold plainSchedule
    rw [faults_lift_bind hread]
    exact mem_faults_bind (fun _ => .done _) hfault
  · obtain ⟨p, hread, -, hk, hmem⟩ := (hrow.parts hhead.guarded).exists_ok
    have hsame := hsame hk hmem
    unfold guardedSchedule
    rw [faults_lift_bind hread, hsame]
    split
    · exact mem_faults_bind (fun _ => .done _) hfault
    · refine mem_faults_bind (fun _ => .fail _) ?_
      change fault ∈ faults ((fun _ => ()) <$> keep (body b))
      rwa [faults_map, faults_keep]

end

section

variable (hlimit : m.nesting ≤ limit)

include hlimit

theorem deed_reports (h : m.Stands T n) (hr : n.rule = .doStmt) (hn : n.nesting ≤ levels)
    (haction : ∀ a ∈ n.nodes, a.rule ∈ Rule.actions → m.Stands T a →
      statementFaults limit m ⊆ faults (action limit levels a)) :
    statementFaults limit m ⊆ faults (deed (action limit levels) n) := by
  by_cases hmn : m = n
  · subst hmn
    rw [statementFaults, statement_of_nesting_le h.filled hlimit hn, faults_statement hr]
    exact List.Subset.refl _
  · obtain ⟨a, hnodes, ha, hfaults⟩ := faults_deed (action limit levels) hr h.filled.here
    obtain ⟨k, hk, hstands⟩ := h.exists_below hmn
    obtain rfl : k = a := by simpa [hnodes] using hk
    rw [hfaults]
    exact haction k hk ha hstands

theorem statement_reports (h : m.Stands T n) (hr : n.rule ∈ Rule.statements)
    (hn : n.nesting ≤ levels)
    (haction : ∀ a, a.rule ∈ Rule.actions → m.Stands T a → a.nesting ≤ levels →
      statementFaults limit m ⊆ faults (action limit levels a)) :
    statementFaults limit m ⊆ faults (statement (condition limit levels) (action limit levels) n) := by
  by_cases hmn : m = n
  · subst hmn
    rw [statementFaults, statement_of_nesting_le h.filled hlimit hn]
    exact List.Subset.refl _
  have hrule : n.rule = .doStmt ∨ n.rule = .condBlock := by simpa [Rule.statements] using hr
  rcases hrule with hrule | hrule
  · rw [faults_statement hrule]
    exact deed_reports hlimit h hrule hn fun a hmem ha hstands =>
      haction a ha hstands ((Node.nesting_le_of_mem_nodes hmem).trans hn)
  · obtain ⟨c, deeds, hnodes, hc, hdeeds⟩ := mem_faults_branch (condition limit levels) hrule
      h.filled.here (blind_action limit levels)
    obtain ⟨k, hk, hstands⟩ := h.exists_below hmn
    have hmem : k = c ∨ k ∈ deeds := by simpa [hnodes] using hk
    rcases hmem with rfl | hmem
    · -- There are no statements in a condition.
      have hall : Rule.conditions.all Rule.isPassive := by decide
      exact absurd (List.all_eq_true.mp hall _ hc) hstands.not_passive_of_stands
    · have hk' := (Node.nesting_le_of_mem_nodes hk).trans hn
      have hdeed := deed_reports hlimit hstands (hdeeds k hmem).1 hk' fun a hmem ha hstands =>
        haction a ha hstands ((Node.nesting_le_of_mem_nodes hmem).trans hk')
      simp only [statement, hrule]
      exact List.Subset.trans hdeed (hdeeds k hmem).2

theorem statements_reports (h : m.Stands T n) (hr : n.rule = .triggerBlock)
    (hn : n.nesting ≤ levels)
    (haction : ∀ a, a.rule ∈ Rule.actions → m.Stands T a → a.nesting ≤ levels →
      statementFaults limit m ⊆ faults (action limit levels a)) :
    statementFaults limit m ⊆
      faults (statements (condition limit levels) (action limit levels) n) := by
  obtain ⟨k, hk, hstands⟩ := h.exists_below (h.ne (by rw [hr]; decide))
  have hrow := n.filled_row h.filled
  rw [hr] at hrow
  have hreported := statement_reports hlimit hstands (hrow.nodes k hk).1
    ((Node.nesting_le_of_mem_nodes hk).trans hn) haction
  exact List.Subset.trans hreported (mem_faults_statements (blind_action _ _) hk)

omit hlimit in
/-- A statement in an action stands in the body of a schedule, one level deeper, and what is found in the
body is found in the action. -/
theorem exists_body_reported (h : m.Stands T n) (hr : n.rule ∈ Rule.actions) :
    ∃ b, m.Stands T b ∧ b.rule = .triggerBlock ∧ b.nesting < n.nesting ∧
      ∀ (guard : Node → Except ShapeFault Condition) (body : Node → Collecting (List Statement)),
        faults (body b) ⊆ faults (actionOver guard body n) := by
  have hschedule := h.schedule hr
  have hne : n.rule ∉ Rule.statements := by
    have hall : Rule.schedules.all fun r => !Rule.statements.contains r := by decide
    simpa using List.all_eq_true.mp hall _ hschedule
  have htimely := h.timely n n.self_mem_family hschedule h.mem
  obtain ⟨b, hb⟩ := Node.exists_body h.filled.here (List.mem_cons_of_mem _ hschedule)
  exact ⟨b, h.body hb hne, hb.rule, nesting_lt_of_schedule hschedule hb.mem hb.rule,
    fun _ _ => mem_faults_schedule hschedule htimely h.filled hb⟩

/-- What a statement has at fault is found in the action it stands in. The induction is on the levels:
there is one less in the body of a schedule. -/
theorem action_reports (h : m.Stands T n) (hr : n.rule ∈ Rule.actions) (hn : n.nesting ≤ levels) :
    statementFaults limit m ⊆ faults (action limit levels n) := by
  induction levels generalizing n with
  | zero =>
      obtain ⟨b, -, -, hlt, -⟩ := exists_body_reported h hr
      omega
  | succ levels ih =>
      obtain ⟨b, hstands, hb, hlt, hreported⟩ := exists_body_reported h hr
      have hbody := statements_reports hlimit hstands hb (by omega) fun a ha hstands hle =>
        ih hstands ha hle
      exact List.Subset.trans hbody (hreported _ _)

end

/-! ## Triggers -/

/-- What is found in the block of a trigger is what is found in the trigger. -/
theorem faults_trigger {b : Node} (hr : n.rule = .triggerDef) (hn : n.Every (fun k => k.isFilled) T)
    (hb : n.HasBody b) :
    faults (trigger limit n) = faults (statements (condition limit limit) (action limit limit) b) := by
  have hrow := n.filled_row hn
  rw [hr] at hrow
  have hnote (k : Node) (hk : k.rule = .note) (hmem : n.FilledPart T (.node k)) :
      Gives (fun _ => False) (k.parts (string "note")) fun _ => True := by
    have hrow := k.filled_row (Element.every_node.mp hmem.2)
    rw [hk] at hrow
    exact hrow.parts .string
  have hevent (k : Node) (hk : k.rule ∈ Rule.events) (hmem : n.FilledPart T (.node k)) :
      Gives (fun _ => False) (event k) (·.Named fun _ => True) :=
    event_of_row (fun _ _ _ => trivial) hk (k.filled_row (Element.every_node.mp hmem.2))
  obtain ⟨⟨name, modifiers, notes, event, k⟩, hread, -, hk, hmem⟩ :=
    (hrow.parts (triggerHead_reads hnote hevent)).exists_ok
  have hsame : k = b := by
    refine (hb.only k (Node.mem_nodes.mpr hmem.1)).resolve_right ?_
    rw [hk]
    decide
  unfold trigger
  rw [faults_lift_bind hread, hsame]
  exact faults_map

theorem faults_definition (hr : n.rule = .triggerDef) :
    faults (definition limit n) = faults (trigger limit n) := by
  simp only [definition, hr]
  exact faults_map

theorem trigger_reports (h : m.Stands T n) (hr : n.rule = .triggerDef) (hn : n.nesting ≤ limit) :
    statementFaults limit m ⊆ faults (trigger limit n) := by
  have hlimit := (Node.nesting_le_of_mem_family h.mem).trans hn
  obtain ⟨b, hb⟩ := Node.exists_body h.filled.here (by simp [hr])
  have hbn : b.nesting ≤ limit := (Node.nesting_le_of_mem_nodes hb.mem).trans hn
  rw [faults_trigger hr h.filled hb]
  refine statements_reports hlimit (h.body hb (by rw [hr]; decide)) hb.rule hbn ?_
  exact fun a ha hstands hle => action_reports hlimit hstands ha hle

/-- What is found in a trigger of one statement is what is found in the statement. -/
theorem faults_alone (hr : m.rule ∈ Rule.statements) (hm : m.Every (fun k => k.isFilled) T) :
    faults (trigger limit m.alone) = statementFaults limit m := by
  have hfits : (Part.node Rule.statements).fits (.node m) := by simpa [Part.fits] using hr
  have hfilled : m.alone.Every (fun k => k.isFilled) fun _ => True := by
    have hm' : m.Every (fun k => k.isFilled) fun _ => True := hm.mono (fun _ h => h) fun _ _ => trivial
    have hblock : (Node.mk .triggerBlock m.span [.node m]).isFilled :=
      fill_many_nil.mpr fun c hc => List.mem_singleton.mp hc ▸ hfits
    have hevent : (Node.mk .evAlways m.span []).isFilled := rfl
    simp only [Node.alone, Node.every_mk, List.forall_mem_cons, Element.every_node,
      Element.every_token]
    exact ⟨rfl, trivial, ⟨hevent, by simp⟩, ⟨hblock, hm', by simp⟩, by simp⟩
  obtain ⟨b, hb⟩ := Node.exists_body hfilled.here (by simp [Node.alone, Node.rule])
  have hnodes : m.alone.nodes = [.mk .evAlways m.span [], .mk .triggerBlock m.span [.node m]] := rfl
  obtain rfl : b = .mk .triggerBlock m.span [.node m] := by
    have hmem := hb.mem
    rw [hnodes, List.mem_pair] at hmem
    refine hmem.resolve_left ?_
    rintro rfl
    have hrule : Rule.evAlways = .triggerBlock := hb.rule
    cases hrule
  rw [faults_trigger rfl hfilled hb]
  change faults (keepAll (statement (condition limit limit) (action limit limit)) [m]) = _
  rw [faults_keepAll (blind_statement (blind_action _ _))]
  simp [statementFaults]

/-- What is found in a statement lies in it. -/
theorem statementFaults_inside {S : Span → Prop} (hr : m.rule ∈ Rule.statements) (h : m.Sound T S)
    (hS : ∀ s, S s → s.start ≤ s.stop) : ∀ f ∈ statementFaults limit m, f.span.Inside m.span :=
  (statement_collects hr (h.legibleInside hS) (fun _ hk hlegible => condition_gives hk hlegible)
    fun _ hk hlegible => action_collects hk hlegible).faults

end Shape

open Shape

namespace Built

variable {source : List Char} {tokens : List Token} {settings : Settings}

theorem faults_ofNode (limit : Nat) (n : Node) :
    (ofNode limit n).faults = Shape.faults (Shape.definition limit n) := by
  rw [ofNode, Shape.faults]
  split <;> rename_i h <;> simp [h]

theorem ofNode_faults {limit : Nat} (hr : n.rule = .triggerDef) :
    (ofNode limit n).faults = Shape.faults (trigger limit n) := by
  rw [faults_ofNode, faults_definition hr]

/-- One pass over a trigger finds what is wrong with every statement in it, at any depth: what a
statement has at fault when it is all there is to a trigger is found in the whole trigger, too, and it
lies in the statement. The numbers of the schedules around the statement have to be such that they can
be read; a schedule whose number is out of range is left before its body is built. -/
theorem ofNode_reports (h : Lexer.tokens source = .ok tokens)
    (hn : n ∈ (Tree.ofTokens settings tokens).tree.root.nodes) (hr : n.rule = .triggerDef)
    (hm : m ∈ n.family) (hstatement : m.rule ∈ Rule.statements)
    (htimely : ∀ k ∈ n.family, k.rule ∈ Rule.schedules → m ∈ k.family → k.IsTimely) :
    ∀ f ∈ (ofNode settings.maxNesting m.alone).faults,
      f ∈ (ofNode settings.maxNesting n).faults ∧ f.span.Inside m.span := by
  have hparsed := Tree.ofTokens_grown settings h
  have hsound : n.Sound (· ∈ tokens) (Span.Accurate source) := Node.Every.node hparsed.root.2 hn
  have hfilled : n.Every (fun k => k.isFilled) (· ∈ tokens) :=
    Node.Every.mono hsound (fun _ hk => hk.filled) fun _ ht => ht
  intro f hf
  rw [ofNode_faults rfl, faults_alone hstatement (hfilled.of_mem_family hm)] at hf
  rw [ofNode_faults hr]
  refine ⟨trigger_reports ⟨hfilled, hm, hstatement, htimely⟩ hr (hparsed.nesting n hn) hf, ?_⟩
  exact statementFaults_inside hstatement (Node.Every.of_mem_family hsound hm)
    (fun _ hs => hs.ordered) f hf

/-- A wedge of no width, added two turns later. -/
def scheduledWedge : String :=
  "trigger \"t\" when always \x7b do schedule in 2 \x7b do add wedge \"x\" width 0 spinner s \x7d \x7d"

theorem ofNode_reports_wedge :
    ∃ n ∈ (Tree.ofTokens {} (Lexer.tokensOf scheduledWedge)).tree.root.nodes,
      ∃ m ∈ n.family, m.has .actAddWedge ∧
        ∃ f ∈ (ofNode 32 m.alone).faults, f ∈ (ofNode 32 n).faults ∧ f.span.Inside m.span := by
  have h : Lexer.tokens scheduledWedge.toList = .ok (Lexer.tokensOf scheduledWedge) := by
    decide +kernel
  have hfound : ∃ n ∈ (Tree.ofTokens {} (Lexer.tokensOf scheduledWedge)).tree.root.nodes,
      n.rule = .triggerDef ∧ (∀ k ∈ n.family, k.rule ∈ Rule.schedules → k.IsTimely) ∧
        ∃ m ∈ n.family, m.has .actAddWedge ∧ m.rule ∈ Rule.statements ∧
          (ofNode 32 m.alone).faults ≠ [] := by
    decide +kernel
  obtain ⟨n, hn, hr, htimely, m, hm, hwedge, hstatement, hne⟩ := hfound
  obtain ⟨f, hf⟩ := List.exists_mem_of_ne_nil _ hne
  exact ⟨n, hn, m, hm, hwedge, f, hf,
    ofNode_reports h hn hr hm hstatement (fun k hk hs _ => htimely k hk hs) f hf⟩

/-- A wedge of no width, to be added in a turn that is over. -/
def overdueWedge : String :=
  "trigger \"t\" when always \x7b do schedule in -1 \x7b do add wedge \"x\" width 0 spinner s \x7d \x7d"

/-- The numbers of the schedules around a statement matter: where a schedule is due before the present
turn, only that is found, and what is wrong with the statement in it is not. -/
theorem ofNode_misses_overdue :
    ∃ n ∈ (Tree.ofTokens {} (Lexer.tokensOf overdueWedge)).tree.root.nodes, n.rule = .triggerDef ∧
      ∃ m ∈ n.family, m.rule ∈ Rule.statements ∧ (ofNode 32 m.alone).faults ≠ [] ∧
        ∀ f ∈ (ofNode 32 n).faults, ¬f.span.Inside m.span := by
  decide +kernel

end Built

end Storyworld
